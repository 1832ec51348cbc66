import Mathlib

/- Circular doubly linked lists with a sentinel.

   A node is an element or the sentinel (`none`). `Seg L x l y` says that the links
   lead from `x` through exactly the elements of `l` to `y`, forwards by `next` and
   back by `prev`, and `IsRing L l` that they lead from the sentinel through `l` back
   to it, with no element twice.

   1. Taking an element out (`unlink_ring`) and putting one in at the front
      (`pushFront_ring`), each as four stores to the links.
   2. A walk along `next` or `prev` that stops at the first element with a property
      is `find?` on the list or on its reverse, and ends. -/
namespace LinkedRing
open Function List

structure Links (β : Type) where
  next : Option β → Option β
  prev : Option β → Option β

namespace Links

variable {β : Type} [DecidableEq β]

def setNext (L : Links β) (x y : Option β) : Links β := { L with next := update L.next x y }

def setPrev (L : Links β) (x y : Option β) : Links β := { L with prev := update L.prev x y }

/-- `b->next->prev = b->prev; b->prev->next = b->next` -/
def unlink (L : Links β) (b : β) : Links β :=
  let L := L.setPrev (L.next (some b)) (L.prev (some b))
  L.setNext (L.prev (some b)) (L.next (some b))

/-- `b->next = h->next; b->prev = h; h->next->prev = b; h->next = b` -/
def pushFront (L : Links β) (b : β) : Links β :=
  let L := L.setNext (some b) (L.next none)
  let L := L.setPrev (some b) none
  let L := L.setPrev (L.next none) (some b)
  L.setNext none (some b)

end Links

variable {β : Type}

/-- The same nodes, seen from the other end. -/
def Links.flip (L : Links β) : Links β := ⟨L.prev, L.next⟩

/-- From node `x` follow `f` until the sentinel or the first element with `p`, for at
most so many nodes. -/
def walk (f : Option β → Option β) (p : β → Bool) : Nat → Option β → Option (Option β)
  | 0, _ => none
  | _ + 1, none => some none
  | fuel + 1, some b => if p b then some (some b) else walk f p fuel (f (some b))

/-- The links lead from `x` through `l` to `y`. -/
def Seg (L : Links β) : Option β → List β → Option β → Prop
  | x, [], y => L.next x = y ∧ L.prev y = x
  | x, a :: l, y => (L.next x = some a ∧ L.prev (some a) = x) ∧ Seg L (some a) l y

structure IsRing (L : Links β) (l : List β) : Prop where
  seg : Seg L none l none
  nodup : l.Nodup

variable {L L' : Links β} {x y : Option β} {b : β} {l l₁ l₂ : List β}

theorem seg_append : Seg L x (l₁ ++ b :: l₂) y ↔ Seg L x l₁ (some b) ∧ Seg L (some b) l₂ y := by
  induction l₁ generalizing x with
  | nil => exact Iff.rfl
  | cons a l₁ ih =>
    rw [cons_append, Seg, Seg, ih]
    exact and_assoc.symm

/-- A segment keeps its links when none of them is stored to. -/
theorem Seg.congr (h : Seg L x l y) (hx : L'.next x = L.next x) (hy : L'.prev y = L.prev y)
    (hl : ∀ a ∈ l, L'.next (some a) = L.next (some a) ∧ L'.prev (some a) = L.prev (some a)) :
    Seg L' x l y := by
  induction l generalizing x with
  | nil => exact ⟨hx.trans h.1, hy.trans h.2⟩
  | cons a l ih =>
    have ha := hl a (mem_cons_self ..)
    exact ⟨⟨hx.trans h.1.1, ha.2.trans h.1.2⟩,
      ih h.2 ha.1 fun c hc => hl c (mem_cons_of_mem _ hc)⟩

theorem Seg.flip (h : Seg L x l y) : Seg L.flip y l.reverse x := by
  induction l generalizing x with
  | nil => exact ⟨h.2, h.1⟩
  | cons a l ih =>
    rw [reverse_cons, seg_append]
    exact ⟨ih h.2, h.1.2, h.1.1⟩

theorem IsRing.flip (h : IsRing L l) : IsRing L.flip l.reverse :=
  ⟨h.seg.flip, List.nodup_reverse.mpr h.nodup⟩

/-! ## Stores to the links -/

/-- The node before `b`. -/
theorem Seg.prev_mem (h : Seg L x l (some b)) : L.prev (some b) = x ∨ ∃ a ∈ l, L.prev (some b) = some a := by
  induction l generalizing x with
  | nil => exact .inl h.2
  | cons a l ih =>
    rcases ih h.2 with hb | ⟨c, hc, hb⟩
    · exact .inr ⟨a, mem_cons_self .., hb⟩
    · exact .inr ⟨c, mem_cons_of_mem _ hc, hb⟩

/-- The node after `b`. -/
theorem Seg.next_mem (h : Seg L (some b) l y) : L.next (some b) = y ∨ ∃ a ∈ l, L.next (some b) = some a := by
  cases l with
  | nil => exact .inl h.1
  | cons a l => exact .inr ⟨a, mem_cons_self .., h.1.1⟩

section

variable [DecidableEq β]

theorem unlink_eq (h : L.next (some b) ≠ some b) :
    L.unlink b = ⟨update L.next (L.prev (some b)) (L.next (some b)),
      update L.prev (L.next (some b)) (L.prev (some b))⟩ := by
  simp [Links.unlink, Links.setNext, Links.setPrev, update_of_ne h.symm]

theorem Seg.unlink (h₁ : Seg L x l₁ (some b)) (h₂ : Seg L (some b) l₂ none)
    (hl : (l₁ ++ b :: l₂).Nodup) (hx : ∀ a ∈ l₁ ++ b :: l₂, x ≠ some a) :
    Seg (L.unlink b) x (l₁ ++ l₂) none := by
  have hb : b ∉ l₂ := (List.nodup_cons.mp (List.nodup_append.mp hl).2.1).1
  have hne : L.next (some b) ≠ some b := by
    rcases h₂.next_mem with hn | ⟨a, ha, hn⟩
    · simp [hn]
    · rw [hn]
      rintro ⟨⟩
      exact hb ha
  induction l₁ generalizing x with
  | nil =>
    -- `x` is the node before `b`: the two stores make the link from it past `b`
    rw [unlink_eq hne, h₁.2]
    cases l₂ with
    | nil => simp [Seg, h₂.1]
    | cons q l₂ =>
      have hq : q ∉ l₂ := (List.nodup_cons.mp (List.nodup_cons.mp hl).2).1
      have hxq : ∀ a ∈ q :: l₂, some a ≠ x := fun a ha =>
        (hx a (mem_cons_of_mem _ ha)).symm
      refine ⟨by simp [h₂.1.1], h₂.2.congr ?_ ?_ ?_⟩
      · exact update_of_ne (hxq q (mem_cons_self ..)) ..
      · exact update_of_ne (by simp [h₂.1.1]) ..
      · intro a ha
        have haq : some a ≠ some q := by
          rintro ⟨⟩
          exact hq ha
        exact ⟨update_of_ne (hxq a (mem_cons_of_mem _ ha)) ..,
          update_of_ne (by rw [h₂.1.1]; exact haq) ..⟩
  | cons a l₁ ih =>
    have ha : a ∉ l₁ ++ b :: l₂ := (List.nodup_cons.mp hl).1
    refine ⟨⟨?_, ?_⟩, ih h₁.2 (List.nodup_cons.mp hl).2 ?_⟩
    · rw [unlink_eq hne]
      refine (update_of_ne ?_ ..).trans h₁.1.1
      rcases h₁.2.prev_mem with hp | ⟨c, hc, hp⟩ <;> rw [hp]
      · exact hx a (by simp)
      · exact hx c (by simp [hc])
    · rw [unlink_eq hne]
      refine (update_of_ne ?_ ..).trans h₁.1.2
      rcases h₂.next_mem with hn | ⟨c, hc, hn⟩ <;> rw [hn]
      · simp
      · rintro ⟨⟩
        exact ha (by simp [hc])
    · rintro c hc ⟨⟩
      exact ha hc

theorem IsRing.unlink (h : IsRing L (l₁ ++ b :: l₂)) : IsRing (L.unlink b) (l₁ ++ l₂) := by
  obtain ⟨h₁, h₂⟩ := seg_append.mp h.seg
  exact ⟨h₁.unlink h₂ h.nodup (by simp), h.nodup.sublist (by simp)⟩

theorem IsRing.pushFront (h : IsRing L l) (hb : b ∉ l) : IsRing (L.pushFront b) (b :: l) := by
  refine ⟨?_, List.nodup_cons.mpr ⟨hb, h.nodup⟩⟩
  cases l with
  | nil => simp [Seg, Links.pushFront, Links.setNext, Links.setPrev, h.seg.1]
  | cons q l =>
    have hq : q ∉ l := (List.nodup_cons.mp h.nodup).1
    have hqb : q ≠ b := by
      rintro rfl
      exact hb (mem_cons_self ..)
    refine ⟨by simp [Links.pushFront, Links.setNext, Links.setPrev, h.seg.1.1, hqb.symm],
      by simp [Links.pushFront, Links.setNext, Links.setPrev, h.seg.1.1], h.seg.2.congr ?_ ?_ ?_⟩
    · simp [Links.pushFront, Links.setNext, Links.setPrev, hqb]
    · simp [Links.pushFront, Links.setNext, Links.setPrev, h.seg.1.1]
    · intro a ha
      have hab : a ≠ b := by
        rintro rfl
        exact hb (mem_cons_of_mem _ ha)
      have haq : a ≠ q := by
        rintro rfl
        exact hq ha
      simp [Links.pushFront, Links.setNext, Links.setPrev, h.seg.1.1, hab, haq]

/-- Taking an element out and putting it back at the front. -/
theorem IsRing.toFront (h : IsRing L l) (hb : b ∈ l) :
    IsRing ((L.unlink b).pushFront b) (b :: l.erase b) := by
  obtain ⟨l₁, l₂, rfl⟩ := append_of_mem hb
  have hnot : b ∉ l₁ ++ l₂ := by
    have := List.nodup_middle.mp h.nodup
    exact (List.nodup_cons.mp this).1
  have hb₁ : b ∉ l₁ := fun hb₁ => hnot (mem_append_left _ hb₁)
  rw [erase_append_right _ hb₁, erase_cons_head]
  exact h.unlink.pushFront hnot

end

/-! ## Walks -/

theorem Seg.walk_next (h : Seg L x l none) (p : β → Bool) {fuel : Nat} (hf : l.length < fuel) :
    walk L.next p fuel (L.next x) = some (l.find? p) := by
  induction l generalizing x fuel with
  | nil =>
    obtain ⟨fuel, rfl⟩ := Nat.exists_eq_succ_of_ne_zero (Nat.ne_of_gt hf)
    rw [h.1]
    rfl
  | cons a l ih =>
    obtain ⟨fuel, rfl⟩ := Nat.exists_eq_succ_of_ne_zero (Nat.ne_of_gt (Nat.zero_lt_of_lt hf))
    rw [h.1.1, walk]
    by_cases hp : p a = true
    · simp [hp]
    · rw [if_neg hp, List.find?_cons_of_neg hp]
      exact ih h.2 (by simpa using hf)

theorem IsRing.walk_next (h : IsRing L l) (p : β → Bool) {fuel : Nat} (hf : l.length < fuel) :
    walk L.next p fuel (L.next none) = some (l.find? p) :=
  h.seg.walk_next p hf

theorem IsRing.walk_prev (h : IsRing L l) (p : β → Bool) {fuel : Nat} (hf : l.length < fuel) :
    walk L.prev p fuel (L.prev none) = some (l.reverse.find? p) :=
  h.flip.walk_next p (by simpa using hf)

end LinkedRing
