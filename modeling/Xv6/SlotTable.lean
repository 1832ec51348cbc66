import Mathlib

/- Tables of slots as finite maps.

   A table is a list of slots; a slot is empty or binds a key to a value. `lookup` is
   the map of a table.

   1. If no key is bound twice (`Distinct`), the map holds what some slot binds.
   2. A new key in an empty slot, or after the last slot, changes the map at that key
      only, and so does a slot that is emptied. Both keep the keys distinct. -/
namespace SlotTable
open Function List

abbrev Table (κ ν : Type) := List (Option (κ × ν))

variable {κ ν : Type} {t : Table κ ν} {j k : Nat} {x y : κ} {v w : ν} {o : Option (κ × ν)}

/-- No key is bound twice. -/
def Distinct (t : Table κ ν) : Prop :=
  ∀ (j k : Nat) (x : κ) (v w : ν), t[j]? = some (some (x, v)) → t[k]? = some (some (x, w)) → j = k

/-- The value of the first slot that binds the key. -/
def lookup [DecidableEq κ] (t : Table κ ν) (x : κ) : Option ν :=
  t.findSome? fun o => o.bind fun p => if p.1 = x then some p.2 else none

/-- Slot `k` is replaced, or added after the last one. -/
def store (t : Table κ ν) (k : Nat) (o : Option (κ × ν)) : Table κ ν := t.take k ++ o :: t.drop (k + 1)

/-- The first empty slot, or the place after the last slot. -/
def hole (t : Table κ ν) : Nat := t.findIdx Option.isNone

theorem hole_le (t : Table κ ν) : hole t ≤ t.length := findIdx_le_length

/-- There is nothing at the hole. -/
theorem not_bound_hole (t : Table κ ν) (p : κ × ν) : t[hole t]? ≠ some (some p) := by
  intro h
  obtain ⟨hlt, heq⟩ := List.getElem?_eq_some_iff.mp h
  have hnone : (t[hole t]).isNone = true := findIdx_getElem
  rw [heq] at hnone
  cases hnone

/-- Slots before the hole are in use. -/
theorem bound_of_lt_hole (hj : j < hole t) : ∃ p, t[j]? = some (some p) := by
  have hlt : j < t.length := Nat.lt_of_lt_of_le hj (hole_le t)
  have hsome : (t[j]).isNone = false := not_of_lt_findIdx hj
  obtain ⟨p, hp⟩ := Option.isSome_iff_exists.mp (Option.isNone_eq_false_iff.mp hsome)
  exact ⟨p, by rw [List.getElem?_eq_getElem hlt, hp]⟩

theorem getElem?_store (hk : k ≤ t.length) (j : Nat) : (store t k o)[j]? = if j = k then some o else t[j]? := by
  have hlen : (t.take k).length = k := by
    rw [length_take]
    omega
  rw [store]
  rcases Nat.lt_trichotomy j k with hlt | rfl | hgt
  · rw [List.getElem?_append_left (by omega), List.getElem?_take_of_lt hlt, if_neg (by omega)]
  · rw [List.getElem?_append_right (by omega), hlen, Nat.sub_self, List.getElem?_cons_zero, if_pos rfl]
  · obtain ⟨i, rfl⟩ := Nat.exists_eq_add_of_lt hgt
    rw [List.getElem?_append_right (by omega), hlen, if_neg (by omega), Nat.add_assoc, Nat.add_sub_cancel_left,
      List.getElem?_cons_succ, List.getElem?_drop]
    congr 1
    omega

/-- A slot is emptied. -/
theorem Distinct.clear (hd : Distinct t) (hk : k ≤ t.length) : Distinct (store t k none) := by
  intro i j y w w' hi hj
  rw [getElem?_store hk] at hi hj
  split at hi <;> split at hj
  · omega
  · cases hi
  · cases hj
  · exact hd i j y w w' hi hj

section

variable [DecidableEq κ]

theorem lookup_eq_none : lookup t x = none ↔ ∀ (k : Nat) (v : ν), t[k]? ≠ some (some (x, v)) := by
  rw [lookup, List.findSome?_eq_none_iff]
  constructor
  · intro h k v hk
    have := h _ (mem_of_getElem? hk)
    simp at this
  · intro h o ho
    obtain ⟨k, hk⟩ := mem_iff_getElem?.mp ho
    rcases o with _ | ⟨y, v⟩
    · rfl
    · have hne : y ≠ x := fun heq => h k v (heq ▸ hk)
      simp [hne]

/-- What is found is bound by some slot. -/
theorem exists_of_lookup (h : lookup t x = some v) : ∃ k : Nat, t[k]? = some (some (x, v)) := by
  obtain ⟨o, ho, hv⟩ := exists_of_findSome?_eq_some h
  obtain ⟨k, hk⟩ := mem_iff_getElem?.mp ho
  rcases o with _ | ⟨y, w⟩
  · cases hv
  · by_cases hy : y = x
    · subst hy
      simp only [Option.bind_some, if_true, Option.some.injEq] at hv
      exact ⟨k, hv ▸ hk⟩
    · simp [hy] at hv

theorem lookup_eq_some (hd : Distinct t) : lookup t x = some v ↔ ∃ k : Nat, t[k]? = some (some (x, v)) := by
  refine ⟨exists_of_lookup, ?_⟩
  rintro ⟨k, hk⟩
  cases hl : lookup t x with
  | none => exact absurd hk (lookup_eq_none.mp hl k v)
  | some w =>
    obtain ⟨j, hj⟩ := exists_of_lookup hl
    obtain rfl := hd j k x w v hj hk
    rw [hj] at hk
    cases hk
    rfl

/-- A key that is not bound yet is put into a slot. -/
theorem Distinct.fill (hd : Distinct t) (hk : k ≤ t.length) (hx : lookup t x = none) (v : ν) :
    Distinct (store t k (some (x, v))) := by
  have hnew := lookup_eq_none.mp hx
  intro i j y w w' hi hj
  rw [getElem?_store hk] at hi hj
  split at hi <;> split at hj
  · omega
  · cases hi
    exact absurd hj (hnew j w')
  · cases hj
    exact absurd hi (hnew i w)
  · exact hd i j y w w' hi hj

theorem lookup_fill (hd : Distinct t) (hk : k ≤ t.length) (hfree : ∀ p, t[k]? ≠ some (some p))
    (hx : lookup t x = none) (v : ν) :
    lookup (store t k (some (x, v))) = update (lookup t) x (some v) := by
  have hd' := hd.fill hk hx v
  funext y
  refine Option.ext fun w => ?_
  rw [lookup_eq_some hd']
  simp only [getElem?_store hk]
  by_cases hy : y = x
  · subst hy
    rw [update_self]
    constructor
    · rintro ⟨j, hj⟩
      split at hj
      · cases hj
        rfl
      · exact absurd hj (lookup_eq_none.mp hx j w)
    · intro hw
      cases hw
      exact ⟨k, if_pos rfl⟩
  · rw [update_of_ne hy, lookup_eq_some hd]
    constructor
    · rintro ⟨j, hj⟩
      split at hj
      · cases hj
        exact absurd rfl hy
      · exact ⟨j, hj⟩
    · rintro ⟨j, hj⟩
      refine ⟨j, ?_⟩
      rw [if_neg]
      · exact hj
      · rintro rfl
        exact hfree _ hj

theorem lookup_clear (hd : Distinct t) (hk : t[k]? = some (some (x, v))) :
    lookup (store t k none) = update (lookup t) x none := by
  have hle : k ≤ t.length := Nat.le_of_lt (List.getElem?_eq_some_iff.mp hk).1
  funext y
  refine Option.ext fun w => ?_
  rw [lookup_eq_some (hd.clear hle)]
  simp only [getElem?_store hle]
  by_cases hy : y = x
  · subst hy
    rw [update_self]
    constructor
    · rintro ⟨j, hj⟩
      split at hj
      · cases hj
      · rename_i hne
        exact absurd (hd j k y w v hj hk) hne
    · nofun
  · rw [update_of_ne hy, lookup_eq_some hd]
    constructor
    · rintro ⟨j, hj⟩
      split at hj
      · cases hj
      · exact ⟨j, hj⟩
    · rintro ⟨j, hj⟩
      refine ⟨j, ?_⟩
      rw [if_neg]
      · exact hj
      · rintro rfl
        rw [hk] at hj
        cases hj
        exact hy rfl

end

end SlotTable
