import Mathlib

/- Recursive functions that count down fuel.

   A function that takes fuel settles when from some amount of fuel on it always gives the same result:
   that is what the recursion computes without fuel. `Settles f R` says that `f` settles, and that `R` holds of
   what it settles on.

   1. Rules for a result that needs no fuel, for one round of the recursion, and for a function that goes on
      with the result of another.
   2. What a function settles on is unique.
   3. Functions that may fail: `Outcome E P` asks `P` of a result and `E` of an error. -/
namespace Fuel

variable {α β : Type} {f : Nat → α} {R Q : α → Prop}

/-- From some fuel on `f` gives one result, of which `R` holds. -/
def Settles (f : Nat → α) (R : α → Prop) : Prop := ∃ r, R r ∧ ∃ n, ∀ fuel, n ≤ fuel → f fuel = r

theorem Settles.pure {r : α} (h : R r) : Settles (fun _ => r) R := ⟨r, h, 0, fun _ _ => rfl⟩

/-- One round of the recursion. -/
theorem Settles.step (h : Settles (fun fuel => f (fuel + 1)) R) : Settles f R := by
  obtain ⟨r, hr, n, hn⟩ := h
  refine ⟨r, hr, n + 1, fun fuel hfuel => ?_⟩
  cases fuel with
  | zero => exact absurd hfuel (Nat.not_succ_le_zero n)
  | succ fuel => exact hn fuel (Nat.le_of_succ_le_succ hfuel)

theorem Settles.mono (h : Settles f R) (hRQ : ∀ r, R r → Q r) : Settles f Q := by
  obtain ⟨r, hr, hn⟩ := h
  exact ⟨r, hRQ r hr, hn⟩

/-- A function that goes on with the result of another. -/
theorem Settles.bind {k : α → Nat → β} {P : β → Prop} (h : Settles f R) (hk : ∀ r, R r → Settles (k r) P) :
    Settles (fun fuel => k (f fuel) fuel) P := by
  obtain ⟨r, hr, n, hn⟩ := h
  obtain ⟨b, hb, n', hn'⟩ := hk r hr
  refine ⟨b, hb, max n n', fun fuel hfuel => ?_⟩
  dsimp only
  rw [hn fuel (by omega), hn' fuel (by omega)]

/-- Two facts about one function are about one result. -/
theorem Settles.and (h : Settles f R) (h' : Settles f Q) : Settles f fun r => R r ∧ Q r := by
  obtain ⟨r, hr, n, hn⟩ := h
  obtain ⟨r', hr', n', hn'⟩ := h'
  obtain rfl : r = r' := (hn (max n n') (by omega)).symm.trans (hn' (max n n') (by omega))
  exact ⟨r, ⟨hr, hr'⟩, n, hn⟩

/-! ## Functions that may fail -/

variable {ε : Type} {E : ε → Prop}

def Outcome (E : ε → Prop) (P : α → Prop) : Except ε α → Prop
  | .ok a => P a
  | .error e => E e

theorem Settles.imp {f : Nat → Except ε α} {P Q : α → Prop} (h : Settles f (Outcome E P)) (hPQ : ∀ a, P a → Q a) :
    Settles f (Outcome E Q) := by
  refine h.mono fun r hr => ?_
  cases r with
  | ok a => exact hPQ a hr
  | error e => exact hr

/-- A function that goes on with the result of another, if that has not failed. -/
theorem Settles.andThen {f : Nat → Except ε α} {k : α → Nat → Except ε β} {P : α → Prop} {Q : β → Prop}
    (h : Settles f (Outcome E P)) (hk : ∀ a, P a → Settles (k a) (Outcome E Q)) :
    Settles (fun fuel => f fuel >>= fun a => k a fuel) (Outcome E Q) := by
  refine h.bind (k := fun r fuel => r >>= fun a => k a fuel) fun r hr => ?_
  cases r with
  | ok a => exact hk a hr
  | error e => exact ⟨.error e, hr, 0, fun _ _ => rfl⟩

end Fuel
