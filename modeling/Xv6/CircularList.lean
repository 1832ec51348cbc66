import Mathlib

/- Circular singly linked lists.

   `Arc next x l y` says that the links lead from `x` through exactly the elements of `l` to `y`. A circular
   list with nodes `x :: l` is an arc from `x` through `l` back to `x`.

   1. An arc can be cut at any of its nodes (`arc_append`, `arc_split`), and a circular list can be entered at
      any of them (`Arc.rotate`).
   2. What a store to one link does to an arc: what follows that node is replaced (`Arc.splice`). -/
namespace CircularList
open List

variable {β : Type} {next next' : β → β} {x y z a : β} {l l₁ l₂ : List β}

/-- The links lead from `x` through `l` to `y`. -/
def Arc (next : β → β) : β → List β → β → Prop
  | x, [], y => next x = y
  | x, a :: l, y => next x = a ∧ Arc next a l y

theorem arc_append : Arc next x (l₁ ++ a :: l₂) y ↔ Arc next x l₁ a ∧ Arc next a l₂ y := by
  induction l₁ generalizing x with
  | nil => exact Iff.rfl
  | cons b l₁ ih =>
    show next x = b ∧ Arc next b (l₁ ++ a :: l₂) y ↔ (next x = b ∧ Arc next b l₁ a) ∧ Arc next a l₂ y
    rw [ih, and_assoc]

/-- An arc keeps its links when none of them is stored to; it may begin at another node with the same link. -/
theorem Arc.congr (h : Arc next x l y) (hx : next' z = next x) (hl : ∀ a ∈ l, next' a = next a) : Arc next' z l y := by
  induction l generalizing x z with
  | nil => exact hx.trans h
  | cons a l ih =>
    refine ⟨hx.trans h.1, ih h.2 (hl a (mem_cons_self ..)) fun b hb => ?_⟩
    exact hl b (mem_cons_of_mem a hb)

/-- A circular list from another of its nodes. -/
theorem Arc.rotate (h : Arc next x l x) (ha : a ∈ x :: l) : ∃ r, Arc next a r a ∧ (a :: r).Perm (x :: l) := by
  rcases List.mem_cons.mp ha with rfl | ha
  · exact ⟨l, h, .refl _⟩
  · obtain ⟨l₁, l₂, rfl⟩ := append_of_mem ha
    obtain ⟨h₁, h₂⟩ := arc_append.mp h
    refine ⟨l₂ ++ x :: l₁, arc_append.mpr ⟨h₂, h₁⟩, ?_⟩
    show ((a :: l₂) ++ (x :: l₁)).Perm ((x :: l₁) ++ (a :: l₂))
    exact perm_append_comm

def lastOf : β → List β → β
  | x, [] => x
  | _, a :: l => lastOf a l

theorem lastOf_mem (x : β) (l : List β) : lastOf x l ∈ x :: l := by
  induction l generalizing x with
  | nil => exact mem_cons_self ..
  | cons a l ih => exact mem_cons_of_mem x (ih a)

theorem lastOf_append_singleton (x : β) (l : List β) (a : β) : lastOf x (l ++ [a]) = a := by
  induction l generalizing x with
  | nil => rfl
  | cons b l ih => exact ih b

theorem exists_lastOf (ha : a ∈ x :: l) : ∃ l₁ l₂, l = l₁ ++ l₂ ∧ lastOf x l₁ = a := by
  rcases List.mem_cons.mp ha with rfl | ha
  · exact ⟨[], l, rfl, rfl⟩
  · obtain ⟨l₁, l₂, rfl⟩ := append_of_mem ha
    refine ⟨l₁ ++ [a], l₂, ?_, lastOf_append_singleton x l₁ a⟩
    rw [append_assoc, singleton_append]

theorem arc_split (h : Arc next x (l₁ ++ l₂) y) : Arc next (lastOf x l₁) l₂ y := by
  induction l₁ generalizing x with
  | nil => exact h
  | cons a l₁ ih => exact ih h.2

/-- After the node that is stored to, the arc is another one. -/
theorem Arc.splice {l₂' : List β} {y' : β} (h : Arc next x (l₁ ++ l₂) y) (hnodup : (x :: l₁).Nodup)
    (hl : ∀ a ∈ x :: l₁, a ≠ lastOf x l₁ → next' a = next a) (h' : Arc next' (lastOf x l₁) l₂' y') :
    Arc next' x (l₁ ++ l₂') y' := by
  induction l₁ generalizing x with
  | nil => exact h'
  | cons a l₁ ih =>
    obtain ⟨hx, hnodup⟩ := List.nodup_cons.mp hnodup
    have hne : x ≠ lastOf a l₁ := by
      intro heq
      exact hx (heq ▸ lastOf_mem a l₁)
    refine ⟨(hl x (mem_cons_self ..) hne).trans h.1, ih h.2 hnodup (fun b hb => ?_) h'⟩
    exact hl b (mem_cons_of_mem x hb)

end CircularList
