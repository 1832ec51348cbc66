import Mathlib

/- An area of numbered units and who owns them.

   The units of the area are numbered from `lo` to `hi - 1`; below `lo` they are
   reserved for ever. A map says of each unit whether it is taken. Owners are slots,
   each of which names a unit or none (0). `Owned` says that the map and the slots
   agree: what is named is in the area and named once, and the units that are taken are
   those that are reserved or named.

   The rules are the three things that happen to a unit: it is allocated to a slot, it
   moves from one slot to another, it is freed. -/
namespace Allocation
open Function

variable {κ : Type} {lo hi : Nat} {bit bit' : Nat → Bool} {slot : κ → Nat} {b : Nat} {k k' : κ}

structure Owned (lo hi : Nat) (bit : Nat → Bool) (slot : κ → Nat) : Prop where
  pos : 0 < lo
  range : ∀ {k}, slot k ≠ 0 → lo ≤ slot k ∧ slot k < hi
  inj : ∀ {k k'}, slot k ≠ 0 → slot k = slot k' → k = k'
  reserved : ∀ {b}, b < lo → b < hi → bit b = true
  marked : ∀ {b}, lo ≤ b → b < hi → (bit b = true ↔ ∃ k, slot k = b)

namespace Owned

/-- Only the bits of the area count. -/
theorem of_bit (h : Owned lo hi bit slot) (hbit : ∀ b, b < hi → bit' b = bit b) : Owned lo hi bit' slot where
  pos := h.pos
  range := h.range
  inj := h.inj
  reserved := by
    intro b hlo hhi
    rw [hbit b hhi]
    exact h.reserved hlo hhi
  marked := by
    intro b hlo hhi
    rw [hbit b hhi]
    exact h.marked hlo hhi

/-- What a slot names is taken. -/
theorem bit_slot (h : Owned lo hi bit slot) (hk : slot k ≠ 0) : bit (slot k) = true :=
  (h.marked (h.range hk).1 (h.range hk).2).mpr ⟨k, rfl⟩

theorem slot_ne (h : Owned lo hi bit slot) (hb : bit b = false) (hk : slot k ≠ 0) : slot k ≠ b := by
  rintro rfl
  exact Bool.false_ne_true (hb.symm.trans (h.bit_slot hk))

/-- What is free is in the area. -/
theorem le_of_free (h : Owned lo hi bit slot) (hhi : b < hi) (hb : bit b = false) : lo ≤ b := by
  by_contra hlo
  exact Bool.false_ne_true (hb.symm.trans (h.reserved (Nat.lt_of_not_le hlo) hhi))

variable [DecidableEq κ]

/-- A free unit goes to an empty slot. -/
theorem alloc (h : Owned lo hi bit slot) (hhi : b < hi) (hb : bit b = false) (hk : slot k = 0) :
    Owned lo hi (update bit b true) (update slot k b) where
  pos := h.pos
  range := by
    intro k' hk'
    rw [update_apply] at hk' ⊢
    split
    · exact ⟨h.le_of_free hhi hb, hhi⟩
    · rename_i hne
      rw [if_neg hne] at hk'
      exact h.range hk'
  inj := by
    intro k₁ k₂ hk₁ heq
    rw [update_apply] at hk₁
    rw [update_apply, update_apply] at heq
    split at hk₁ <;> rename_i h₁
    · rw [if_pos h₁] at heq
      split at heq <;> rename_i h₂
      · rw [h₁, h₂]
      · exact absurd heq.symm (h.slot_ne hb (heq ▸ hk₁))
    · rw [if_neg h₁] at heq
      split at heq
      · exact absurd heq (h.slot_ne hb hk₁)
      · exact h.inj hk₁ heq
  reserved := by
    intro b' hlo hhi'
    rw [update_apply]
    split
    · rfl
    · exact h.reserved hlo hhi'
  marked := by
    intro b' hlo hhi'
    rw [update_apply]
    split
    · rename_i heq
      subst heq
      exact ⟨fun _ => ⟨k, update_self k b' slot⟩, fun _ => rfl⟩
    · rename_i hne
      rw [h.marked hlo hhi']
      constructor
      · rintro ⟨k', hk'⟩
        refine ⟨k', ?_⟩
        rw [update_of_ne, hk']
        rintro rfl
        have := h.pos
        omega
      · rintro ⟨k', hk'⟩
        rw [update_apply] at hk'
        split at hk'
        · exact absurd hk'.symm hne
        · exact ⟨k', hk'⟩

/-- A slot gives its unit back. -/
theorem free (h : Owned lo hi bit slot) (hk : slot k ≠ 0) :
    Owned lo hi (update bit (slot k) false) (update slot k 0) where
  pos := h.pos
  range := by
    intro k' hk'
    rw [update_apply] at hk' ⊢
    split at hk'
    · exact absurd rfl hk'
    · rename_i hne
      rw [if_neg hne]
      exact h.range hk'
  inj := by
    intro k₁ k₂ hk₁ heq
    rw [update_apply] at hk₁
    rw [update_apply, update_apply] at heq
    split at hk₁
    · exact absurd rfl hk₁
    · rename_i h₁
      rw [if_neg h₁] at heq
      split at heq
      · exact absurd heq hk₁
      · exact h.inj hk₁ heq
  reserved := by
    intro b' hlo hhi
    rw [update_of_ne]
    · exact h.reserved hlo hhi
    · have := (h.range hk).1
      omega
  marked := by
    intro b' hlo hhi
    rw [update_apply]
    split
    · rename_i heq
      subst heq
      refine ⟨nofun, ?_⟩
      rintro ⟨k', hk'⟩
      rw [update_apply] at hk'
      split at hk'
      · exact absurd hk'.symm hk
      · rename_i hne
        exact absurd (h.inj hk hk'.symm).symm hne
    · rename_i hne
      rw [h.marked hlo hhi]
      constructor
      · rintro ⟨k', hk'⟩
        refine ⟨k', ?_⟩
        rw [update_of_ne, hk']
        rintro rfl
        exact hne hk'.symm
      · rintro ⟨k', hk'⟩
        rw [update_apply] at hk'
        split at hk'
        · have := h.pos
          omega
        · exact ⟨k', hk'⟩

/-- A unit moves to an empty slot. -/
theorem move (h : Owned lo hi bit slot) (hne : k ≠ k') (hk : slot k ≠ 0) (hk' : slot k' = 0) :
    Owned lo hi bit (update (update slot k 0) k' (slot k)) := by
  have hfree : update bit (slot k) false (slot k) = false := update_self _ _ _
  have hempty : update slot k 0 k' = 0 := by
    rw [update_of_ne hne.symm, hk']
  refine ((h.free hk).alloc (h.range hk).2 hfree hempty).of_bit fun b _ => ?_
  rw [update_idem, update_apply]
  split
  · rename_i heq
    rw [heq, h.bit_slot hk]
  · rfl

end Owned

/-! ## How many units are free -/

def freeUnits (hi : Nat) (bit : Nat → Bool) : Nat := ((Finset.range hi).filter fun b => bit b = false).card

theorem exists_free (h : 0 < freeUnits hi bit) : ∃ b, b < hi ∧ bit b = false := by
  obtain ⟨b, hb⟩ := Finset.card_pos.mp h
  rw [Finset.mem_filter, Finset.mem_range] at hb
  exact ⟨b, hb⟩

/-- One less after an allocation. -/
theorem freeUnits_alloc (hhi : b < hi) (hb : bit b = false) :
    freeUnits hi (update bit b true) + 1 = freeUnits hi bit := by
  have hset : ((Finset.range hi).filter fun b' => update bit b true b' = false) =
      ((Finset.range hi).filter fun b' => bit b' = false).erase b := by
    ext b'
    simp only [Finset.mem_filter, Finset.mem_range, Finset.mem_erase, update_apply]
    by_cases heq : b' = b <;> simp [heq]
  rw [freeUnits, hset, Finset.card_erase_add_one]
  · rfl
  · exact Finset.mem_filter.mpr ⟨Finset.mem_range.mpr hhi, hb⟩

theorem freeUnits_congr (h : ∀ b, b < hi → bit' b = bit b) : freeUnits hi bit' = freeUnits hi bit := by
  refine congrArg Finset.card (Finset.filter_congr fun b hb => ?_)
  rw [h b (Finset.mem_range.mp hb)]

end Allocation
