import Mathlib

/- Singly linked lists that end at a null link.

   The links are a function: the link kept in the head of the list is that of `none`, the one kept in
   an element `b` that of `some b`, and a null link is `none`. `Chain f x l` says that the links lead from
   the one kept in `x` through exactly the elements of `l` to a null link.

   1. The links determine the list, which has no element twice.
   2. Taking the first element (`pop`) and putting one where a walk along the links ends (`snoc`), each
      as stores to the links. -/
namespace LinkedQueue
open Function List

variable {β : Type}

/-- The links lead from `x` through `l` to a null link. -/
def Chain (f : Option β → Option β) : Option β → List β → Prop
  | x, [] => f x = none
  | x, a :: l => f x = some a ∧ Chain f (some a) l

/-- Where the null link is found when the links are followed from `x`, for at most so many of them. -/
def lastLink (f : Option β → Option β) : Nat → Option β → Option (Option β)
  | 0, _ => none
  | fuel + 1, x =>
    match f x with
    | none => some x
    | some b => lastLink f fuel (some b)

/-- The last of `x` and the elements of `l`. -/
def last : Option β → List β → Option β
  | x, [] => x
  | _, a :: l => last (some a) l

variable {f g : Option β → Option β} {x : Option β} {a b : β} {l l' l₁ l₂ : List β}

theorem Chain.head (h : Chain f x l) : f x = l.head? := by
  cases l with
  | nil => exact h
  | cons a l => exact h.1

theorem Chain.unique (h : Chain f x l) (h' : Chain f x l') : l = l' := by
  induction l generalizing x l' with
  | nil =>
    cases l' with
    | nil => rfl
    | cons b l' => cases h.symm.trans h'.1
  | cons a l ih =>
    cases l' with
    | nil => cases h'.symm.trans h.1
    | cons b l' =>
      cases h.1.symm.trans h'.1
      rw [ih h.2 h'.2]

/-- The part of the list after one of its elements. -/
theorem Chain.after (h : Chain f x (l₁ ++ a :: l₂)) : Chain f (some a) l₂ := by
  induction l₁ generalizing x with
  | nil => exact h.2
  | cons b l₁ ih => exact ih h.2

/-- The list after `a` is shorter than any that has `a` in it. -/
theorem Chain.not_mem (h : Chain f (some a) l) : a ∉ l := by
  intro ha
  obtain ⟨l₁, l₂, rfl⟩ := append_of_mem ha
  have hlen := congrArg List.length (h.unique h.after)
  rw [length_append, length_cons] at hlen
  omega

theorem Chain.nodup (h : Chain f x l) : l.Nodup := by
  induction l generalizing x with
  | nil => exact nodup_nil
  | cons a l ih => exact List.nodup_cons.mpr ⟨h.2.not_mem, ih h.2⟩

/-- The same list, seen in other links and from another place. -/
theorem Chain.congr {y : Option β} (h : Chain f x l) (hy : g y = f x) (hl : ∀ a ∈ l, g (some a) = f (some a)) :
    Chain g y l := by
  induction l generalizing x y with
  | nil => exact hy.trans h
  | cons a l ih =>
    exact ⟨hy.trans h.1, ih h.2 (hl a (mem_cons_self ..)) fun b hb => hl b (mem_cons_of_mem _ hb)⟩

theorem last_mem (x : Option β) (l : List β) : last x l = x ∨ ∃ a ∈ l, last x l = some a := by
  induction l generalizing x with
  | nil => exact .inl rfl
  | cons a l ih =>
    rcases ih (some a) with h | ⟨b, hb, h⟩
    · exact .inr ⟨a, mem_cons_self .., h⟩
    · exact .inr ⟨b, mem_cons_of_mem _ hb, h⟩

/-- The walk ends, and at the end of the list. -/
theorem Chain.lastLink_eq (h : Chain f x l) {fuel : Nat} (hfuel : l.length < fuel) :
    lastLink f fuel x = some (last x l) := by
  induction l generalizing x fuel with
  | nil =>
    cases fuel with
    | zero => exact absurd hfuel (Nat.not_lt_zero _)
    | succ fuel => rw [lastLink, h.head]; rfl
  | cons a l ih =>
    cases fuel with
    | zero => exact absurd hfuel (Nat.not_lt_zero _)
    | succ fuel =>
      rw [lastLink, h.1]
      exact ih h.2 (Nat.lt_of_succ_lt_succ hfuel)

/-- A list of distinct elements is no longer than there are elements. -/
theorem Chain.length_lt [Fintype β] (h : Chain f x l) : l.length < Fintype.card β + 1 :=
  Nat.lt_succ_of_le h.nodup.length_le_card

section

variable [DecidableEq β]

/-- A store to the last link, of an element whose own link is null. -/
theorem Chain.snoc (h : Chain f x l) (hx : ∀ a ∈ l, x ≠ some a) (hb : b ∉ l) (hxb : x ≠ some b)
    (hnull : f (some b) = none) : Chain (update f (last x l) (some b)) x (l ++ [b]) := by
  induction l generalizing x with
  | nil =>
    refine ⟨update_self .., ?_⟩
    rw [Chain, last, update_of_ne hxb.symm, hnull]
  | cons a l ih =>
    have hlast : x ≠ last (some a) l := by
      rcases last_mem (some a) l with heq | ⟨c, hc, heq⟩
      · rw [heq]
        exact hx a (mem_cons_self ..)
      · rw [heq]
        exact hx c (mem_cons_of_mem _ hc)
    refine ⟨?_, ih h.2 ?_ (fun hmem => hb (mem_cons_of_mem _ hmem)) ?_⟩
    · rw [last, update_of_ne hlast]
      exact h.1
    · rintro c hc heq
      cases heq
      exact h.2.not_mem hc
    · rintro heq
      cases heq
      exact hb (mem_cons_self ..)

/-- The head is set to the second element. -/
theorem Chain.pop (h : Chain f none (b :: l)) : Chain (update f none (f (some b))) none l :=
  h.2.congr (update_self ..) fun a _ => update_of_ne (Option.some_ne_none a) ..

end

end LinkedQueue
