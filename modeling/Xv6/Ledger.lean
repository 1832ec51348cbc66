import Mathlib

/- Numbered tokens and who holds them.

   Tokens are numbered in the order of issue. A place holds one token or none; a
   token that is given up for good is retired. `Ledger held retired next` says
   that nothing has gone wrong so far: no token is in two places, none that was
   retired is still held, none was retired twice, and all of them were issued.

   The rules are the four ways books are kept: `issue` a new token, `drop` what a
   place holds, `move` a token to another place, `retire` it. -/
variable {ι : Type}

/-- The books are in order: `held` is what each place holds, and the next token to
be issued is `next`. -/
structure Ledger (held : ι → Option Nat) (retired : List Nat) (next : Nat) : Prop where
  inj : ∀ {x y v}, held x = some v → held y = some v → x = y
  heldBound : ∀ {x v}, held x = some v → v < next
  retiredBound : ∀ {v}, v ∈ retired → v < next
  apart : ∀ {x v}, held x = some v → v ∉ retired
  nodup : retired.Nodup

namespace Ledger
open Function

/-- New books, with `next` as the first token. -/
theorem empty (next : Nat) : Ledger (fun _ : ι => none) [] next where
  inj := nofun
  heldBound := nofun
  retiredBound := nofun
  apart := nofun
  nodup := List.nodup_nil

variable [DecidableEq ι] {held : ι → Option Nat} {retired : List Nat} {next : Nat}

/-- A place takes a token that no other place holds and that is not retired. -/
theorem put {x : ι} {v n : Nat} (h : Ledger held retired next)
    (hother : ∀ y, y ≠ x → held y ≠ some v) (hapart : v ∉ retired) (hv : v < n) (hn : next ≤ n) :
    Ledger (update held x (some v)) retired n where
  inj := by
    intro y z u hy hz
    by_cases hyx : y = x <;> by_cases hzx : z = x
    · rw [hyx, hzx]
    · subst hyx
      rw [update_self] at hy
      rw [update_of_ne hzx, ← hy] at hz
      exact absurd hz (hother z hzx)
    · subst hzx
      rw [update_self] at hz
      rw [update_of_ne hyx, ← hz] at hy
      exact absurd hy (hother y hyx)
    · rw [update_of_ne hyx] at hy
      rw [update_of_ne hzx] at hz
      exact h.inj hy hz
  heldBound := by
    intro y u hy
    by_cases hyx : y = x
    · subst hyx
      rw [update_self] at hy
      cases hy
      exact hv
    · rw [update_of_ne hyx] at hy
      exact Nat.lt_of_lt_of_le (h.heldBound hy) hn
  retiredBound := fun hu => Nat.lt_of_lt_of_le (h.retiredBound hu) hn
  apart := by
    intro y u hy
    by_cases hyx : y = x
    · subst hyx
      rw [update_self] at hy
      cases hy
      exact hapart
    · rw [update_of_ne hyx] at hy
      exact h.apart hy
  nodup := h.nodup

/-- A new token goes to `x`, in the place of what `x` held. -/
theorem issue (x : ι) (h : Ledger held retired next) :
    Ledger (update held x (some next)) retired (next + 1) := by
  refine h.put ?_ ?_ (Nat.lt_succ_self next) (Nat.le_succ next)
  · intro y _ hy
    exact absurd (h.heldBound hy) (Nat.lt_irrefl next)
  · intro hv
    exact absurd (h.retiredBound hv) (Nat.lt_irrefl next)

theorem held_of_drop {x y : ι} {v : Nat} (hy : update held x none y = some v) :
    y ≠ x ∧ held y = some v := by
  by_cases hyx : y = x
  · subst hyx
    rw [update_self] at hy
    cases hy
  · rw [update_of_ne hyx] at hy
    exact ⟨hyx, hy⟩

/-- What `x` held is lost. -/
theorem drop (x : ι) (h : Ledger held retired next) :
    Ledger (update held x none) retired next where
  inj := fun hy hz => h.inj (held_of_drop hy).2 (held_of_drop hz).2
  heldBound := fun hy => h.heldBound (held_of_drop hy).2
  retiredBound := h.retiredBound
  apart := fun hy => h.apart (held_of_drop hy).2
  nodup := h.nodup

/-- The token at `x` goes to `y`, in the place of what `y` held. -/
theorem move {x y : ι} {v : Nat} (h : Ledger held retired next) (hx : held x = some v) :
    Ledger (update (update held x none) y (some v)) retired next := by
  refine (h.drop x).put ?_ (h.apart hx) (h.heldBound hx) (Nat.le_refl next)
  intro z _ hz
  obtain ⟨hzx, hz⟩ := held_of_drop hz
  exact hzx (h.inj hz hx)

/-- The token at `x` is retired. -/
theorem retire {x : ι} {v : Nat} (h : Ledger held retired next) (hx : held x = some v) :
    Ledger (update held x none) (v :: retired) next where
  inj := (h.drop x).inj
  heldBound := (h.drop x).heldBound
  retiredBound := by
    intro u hu
    rcases List.mem_cons.mp hu with rfl | hu
    · exact h.heldBound hx
    · exact h.retiredBound hu
  apart := by
    intro y u hy hu
    obtain ⟨hyx, hy⟩ := held_of_drop hy
    rcases List.mem_cons.mp hu with rfl | hu
    · exact hyx (h.inj hy hx)
    · exact h.apart hy hu
  nodup := List.nodup_cons.mpr ⟨h.apart hx, h.nodup⟩

end Ledger
