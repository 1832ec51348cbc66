import Xv6.CircularList
import Xv6.Umalloc

/- The free list of umalloc.c, and `free`.

   1. `Inv`: the list is circular, goes up in memory from `base` with a gap after each block, and the blocks that
      are free or that the program has are apart.
   2. `seek` ends at the header below the new block.
   3. `free` puts the block on the list, joined with the free blocks that it touches: first with the one
      above (`Joined`), then with the one below. -/
namespace Xv6.Umalloc
open List Command Vm CircularList

variable {im : Image} {h h' : Heap} {l live : List Nat} {p q bp : Nat} {E : Stop → Prop}

/-! ## Blocks -/

def Heap.next (h : Heap) (p : Nat) : Nat := (h.mem p).ptr

def Heap.size (h : Heap) (p : Nat) : Nat := (h.mem p).size

def Heap.stop (h : Heap) (p : Nat) : Nat := p + 8 * h.size p

def Apart (h : Heap) (p q : Nat) : Prop := h.stop p ≤ q ∨ h.stop q ≤ p

/-- A block of the heap: behind the program, and below the break. -/
structure Placed (im : Image) (h : Heap) (p : Nat) : Prop where
  pos : 0 < h.size p
  above : im.size ≤ p
  below : h.stop p ≤ h.sz

structure Inv (im : Image) (h : Heap) (l live : List Nat) : Prop where
  ring : Arc h.next im.base l im.base
  sorted : (im.base :: l).Pairwise fun p q => h.stop p < q
  freep : h.freep ∈ im.base :: l
  base : h.size im.base = 0
  blocks : ∀ p ∈ l ++ live, Placed im h p
  apart : ∀ p ∈ l, ∀ q ∈ live, Apart h p q
  live : live.Pairwise (Apart h)
  grown : im.size ≤ h.sz
  user : h.sz < KERNBASE

/-! ## Memory -/

section memory

variable {a : Nat} {x : Header}

theorem mapped_of_le (ha : a + 8 ≤ h.sz) : h.Mapped a := by
  simp only [Heap.Mapped, Vm.PGSIZE]
  omega

theorem Placed.mapped (hp : Placed im h p) : h.Mapped p := by
  have hpos := hp.pos
  have hbelow := hp.below
  unfold Heap.stop at hbelow
  apply mapped_of_le
  omega

theorem Inv.base_mapped (hi : Inv im h l live) : h.Mapped im.base :=
  mapped_of_le (Nat.le_trans im.fits hi.grown)

theorem Inv.mapped (hi : Inv im h l live) (hp : p ∈ im.base :: l) : h.Mapped p := by
  rcases List.mem_cons.mp hp with rfl | hp
  · exact hi.base_mapped
  · exact (hi.blocks p (mem_append_left _ hp)).mapped

theorem wp_load {Q : Header → Heap → Prop} (ha : h.Mapped a) : wp (load a) Q E h ↔ Q ⟨h.next a, h.size a⟩ h := by
  rw [load, wp_bind, wp_gets, if_pos (decide_eq_true ha), wp_gets]
  rfl

theorem wp_setPtr {Q : Unit → Heap → Prop} {v : Nat} (ha : h.Mapped a) :
    wp (setPtr a v) Q E h ↔ Q () (h.set a ⟨v, h.size a⟩) := by
  rw [setPtr, wp_bind, wp_load ha, wp_modify]

theorem wp_setSize {Q : Unit → Heap → Prop} {v : Nat} (ha : h.Mapped a) :
    wp (setSize a v) Q E h ↔ Q () (h.set a ⟨h.next a, v⟩) := by
  rw [setSize, wp_bind, wp_load ha, wp_modify]

@[simp] theorem set_sz : (h.set a x).sz = h.sz := rfl

@[simp] theorem set_freep : (h.set a x).freep = h.freep := rfl

theorem mapped_set {b : Nat} : (h.set a x).Mapped b ↔ h.Mapped b := Iff.rfl

@[simp] theorem next_set_self : (h.set a x).next a = x.ptr := by
  simp [Heap.next, Heap.set]

@[simp] theorem size_set_self : (h.set a x).size a = x.size := by
  simp [Heap.size, Heap.set]

theorem mem_set_of_ne {b : Nat} (hb : b ≠ a) : (h.set a x).mem b = h.mem b := Function.update_of_ne hb ..

theorem next_set_of_ne {b : Nat} (hb : b ≠ a) : (h.set a x).next b = h.next b :=
  congrArg Header.ptr (mem_set_of_ne hb)

theorem size_set_of_ne {b : Nat} (hb : b ≠ a) : (h.set a x).size b = h.size b :=
  congrArg Header.size (mem_set_of_ne hb)

theorem set_set {x' : Header} : (h.set a x).set a x' = h.set a x' := by
  simp [Heap.set]

end memory

/-! ## Order -/

theorem Image.base_lt (hp : im.size ≤ p) : im.base < p := by
  have := im.fits
  omega

theorem Inv.ascending (hi : Inv im h l live) : (im.base :: l).Pairwise (· < ·) := by
  refine hi.sorted.imp fun {p q} hpq => ?_
  unfold Heap.stop at hpq
  omega

theorem Inv.nodup (hi : Inv im h l live) : (im.base :: l).Nodup := hi.ascending.imp Nat.ne_of_lt

theorem rel_lastOf {R : Nat → Nat → Prop} {x a : Nat} (hR : (x :: l).Pairwise R) (ha : a ∈ x :: l)
    (hne : a ≠ lastOf x l) :
    R a (lastOf x l) := by
  induction l generalizing x with
  | nil => exact (hne (List.mem_singleton.mp ha)).elim
  | cons b l ih =>
    obtain ⟨hx, hR⟩ := List.pairwise_cons.mp hR
    rcases List.mem_cons.mp ha with rfl | ha
    · exact hx _ (lastOf_mem b l)
    · exact ih hR ha hne

/-- Where a block at `bp` belongs: after `p`, with `l₁` below it and `l₂` above. -/
structure Position (im : Image) (l : List Nat) (bp : Nat) (l₁ l₂ : List Nat) (p : Nat) : Prop where
  split : l = l₁ ++ l₂
  last : lastOf im.base l₁ = p
  below : p < bp
  above : ∀ q ∈ l₂, bp < q

theorem Position.mem {l₁ l₂ : List Nat} (hpos : Position im l bp l₁ l₂ p) : p ∈ im.base :: l := by
  rw [hpos.split, ← cons_append, ← hpos.last]
  exact mem_append_left _ (lastOf_mem im.base l₁)

theorem exists_split {x : Nat} (hasc : (x :: l).Pairwise (· < ·)) (hx : x < bp) (hbp : bp ∉ l) :
    ∃ l₁ l₂, l = l₁ ++ l₂ ∧ lastOf x l₁ < bp ∧ ∀ q ∈ l₂, bp < q := by
  induction l generalizing x with
  | nil => exact ⟨[], [], rfl, hx, nofun⟩
  | cons a l ih =>
    obtain ⟨-, hasc⟩ := List.pairwise_cons.mp hasc
    rw [mem_cons, not_or] at hbp
    by_cases ha : a < bp
    · obtain ⟨l₁, l₂, rfl, hlast, habove⟩ := ih hasc ha hbp.2
      exact ⟨a :: l₁, l₂, rfl, hlast, habove⟩
    · refine ⟨[], a :: l, rfl, hx, fun q hq => ?_⟩
      rcases List.mem_cons.mp hq with rfl | hq
      · omega
      · have := (List.pairwise_cons.mp hasc).1 q hq
        omega

section position

variable {l₁ l₂ : List Nat} (hi : Inv im h l live)

include hi

theorem Inv.path_from (hl : l = l₁ ++ l₂) : Arc h.next (lastOf im.base l₁) l₂ im.base :=
  arc_split (hl ▸ hi.ring)

theorem Inv.last_lt (hl : l = l₁ ++ l₂) (hq : q ∈ l₂) : lastOf im.base l₁ < q := by
  have hasc := hi.ascending
  rw [hl, ← cons_append, pairwise_append] at hasc
  exact hasc.2.2 _ (lastOf_mem im.base l₁) q hq

theorem Inv.stops_iff (hbase : im.base < bp) (hl : l = l₁ ++ l₂) (hp : lastOf im.base l₁ = p) :
    (bp > p ∧ bp < h.next p) ∨ (p ≥ h.next p ∧ (bp > p ∨ bp < h.next p)) ↔ Position im l bp l₁ l₂ p := by
  have hpath := hi.path_from hl
  rw [hp] at hpath
  cases l₂ with
  | nil =>
    have hnext : h.next p = im.base := hpath
    have hle : im.base ≤ p := by
      have hasc := hi.ascending
      rw [hl, append_nil] at hasc
      by_cases heq : im.base = p
      · omega
      · have := rel_lastOf hasc (mem_cons_self ..) (hp ▸ heq)
        omega
    rw [hnext]
    constructor
    · intro hstop
      exact ⟨hl, hp, by omega, nofun⟩
    · intro hpos
      have := hpos.below
      omega
  | cons c l₂ =>
    have hnext : h.next p = c := hpath.1
    have hlt : p < c := hp ▸ hi.last_lt hl (mem_cons_self ..)
    rw [hnext]
    constructor
    · intro hstop
      refine ⟨hl, hp, by omega, fun q hq => ?_⟩
      rcases List.mem_cons.mp hq with rfl | hq
      · omega
      · have hasc := hi.ascending
        rw [hl, ← cons_append, pairwise_append] at hasc
        have := (List.pairwise_cons.mp hasc.2.1).1 q hq
        omega
    · intro hpos
      have hbelow := hpos.below
      have habove := hpos.above c (mem_cons_self ..)
      omega

end position

/-- The loop of `free`, with the headers still to come: one of them is the one below the block. -/
theorem seek_wp {r : List Nat} {t fuel : Nat} (hi : Inv im h l live) (hbase : im.base < bp)
    (hr : ∀ a ∈ p :: r, a ∈ im.base :: l) (hpath : Arc h.next p r t)
    (hpos : ∃ l₁ l₂, ∃ a ∈ p :: r, Position im l bp l₁ l₂ a) (hfuel : r.length < fuel) :
    wp (seek bp fuel p) (fun a h' => h' = h ∧ ∃ l₁ l₂, Position im l bp l₁ l₂ a) E h := by
  induction fuel generalizing p r with
  | zero => omega
  | succ fuel ih =>
    have hp := hr p (mem_cons_self ..)
    obtain ⟨l₁, l₂, hl, hlast⟩ := exists_lastOf hp
    have hstops := hi.stops_iff hbase hl hlast
    rw [seek, wp_bind, wp_load (hi.mapped hp)]
    dsimp only
    by_cases h₁ : bp > p ∧ bp < h.next p
    · rw [if_pos h₁]
      exact ⟨rfl, l₁, l₂, hstops.mp (.inl h₁)⟩
    · by_cases h₂ : p ≥ h.next p ∧ (bp > p ∨ bp < h.next p)
      · rw [if_neg h₁, if_pos h₂]
        exact ⟨rfl, l₁, l₂, hstops.mp (.inr h₂)⟩
      · rw [if_neg h₁, if_neg h₂]
        -- This header is not the one, so it is one of the others.
        obtain ⟨m₁, m₂, a, ha, hposa⟩ := hpos
        rcases List.mem_cons.mp ha with rfl | ha
        · rcases (hi.stops_iff hbase hposa.split hposa.last).mpr hposa with h | h
          · exact (h₁ h).elim
          · exact (h₂ h).elim
        · cases r with
          | nil => cases ha
          | cons b r =>
            rw [hpath.1]
            refine ih (fun a ha => hr a (mem_cons_of_mem p ha)) hpath.2 ⟨m₁, m₂, a, ha, hposa⟩ ?_
            rw [length_cons] at hfuel
            omega

/-! ## The block that is freed -/

/-- A block of the heap that is apart from the others. -/
structure Fresh (im : Image) (h : Heap) (l live : List Nat) (bp : Nat) : Prop where
  placed : Placed im h bp
  apart : ∀ q ∈ l ++ live, Apart h bp q

theorem Fresh.ne (hf : Fresh im h l live bp) (hq : q ∈ l ++ live) : q ≠ bp := by
  rintro rfl
  have hpos := hf.placed.pos
  have hapart := hf.apart q hq
  unfold Apart Heap.stop at hapart
  omega

theorem Fresh.ne_node (hf : Fresh im h l live bp) (hq : q ∈ im.base :: l) : q ≠ bp := by
  rcases List.mem_cons.mp hq with rfl | hq
  · exact Nat.ne_of_lt (im.base_lt hf.placed.above)
  · exact hf.ne (mem_append_left _ hq)

/-- The block has been joined with the free block above it, if they touch: the links lead from it to the rest
of the list, `m₂`. -/
structure Joined (im : Image) (h : Heap) (bp : Nat) (l₂ : List Nat) (h₁ : Heap) (m₂ : List Nat) : Prop where
  state : ∃ x, h₁ = h.set bp x
  sub : m₂.Sublist l₂
  path : Arc h₁.next bp m₂ im.base
  gap : ∀ q ∈ m₂, h₁.stop bp < q
  larger : h.size bp ≤ h₁.size bp
  below : h₁.stop bp ≤ h.sz
  apart : ∀ a, 0 < h.size a → Apart h bp a → (∀ q ∈ l₂, Apart h q a) → h₁.stop bp ≤ a ∨ h.stop a ≤ bp

section joined

variable {l₁ l₂ : List Nat} (hi : Inv im h l live) (hf : Fresh im h l live bp)

include hi hf

theorem joined_above {c : Nat} (hpos : Position im l bp l₁ (c :: l₂) p) (hc : h.stop bp = c) :
    Joined im h bp (c :: l₂) (h.set bp ⟨h.next c, h.size bp + h.size c⟩) l₂ := by
  have hmem : ∀ q ∈ c :: l₂, q ∈ l := fun q hq => hpos.split ▸ mem_append_right l₁ hq
  have hstop : (h.set bp ⟨h.next c, h.size bp + h.size c⟩).stop bp = h.stop c := by
    simp only [Heap.stop, size_set_self] at hc ⊢
    omega
  have hsorted := hi.sorted
  rw [hpos.split, ← cons_append, pairwise_append] at hsorted
  refine ⟨⟨_, rfl⟩, sublist_cons_self .., ?_, ?_, ?_, ?_, ?_⟩
  · refine (hi.path_from hpos.split).2.congr next_set_self fun a ha => next_set_of_ne ?_
    exact hf.ne_node (mem_cons_of_mem _ (hmem a (mem_cons_of_mem c ha)))
  · intro q hq
    rw [hstop]
    exact (List.pairwise_cons.mp hsorted.2.1).1 q hq
  · rw [size_set_self]
    exact Nat.le_add_right ..
  · rw [hstop]
    exact (hi.blocks c (mem_append_left _ (hmem c (mem_cons_self ..)))).below
  · intro a ha hbp hl
    have hca := hl c (mem_cons_self ..)
    rw [hstop]
    unfold Apart Heap.stop at *
    omega

theorem joined_alone (hpos : Position im l bp l₁ l₂ p) (hne : h.stop bp ≠ h.next p) :
    Joined im h bp l₂ (h.set bp ⟨h.next p, h.size bp⟩) l₂ := by
  have hmem : ∀ q ∈ l₂, q ∈ l := fun q hq => hpos.split ▸ mem_append_right l₁ hq
  have hstop : (h.set bp ⟨h.next p, h.size bp⟩).stop bp = h.stop bp := by
    simp only [Heap.stop, size_set_self]
  have hpath := hi.path_from hpos.split
  rw [hpos.last] at hpath
  have hsorted := hi.ascending
  rw [hpos.split, ← cons_append, pairwise_append] at hsorted
  refine ⟨⟨_, rfl⟩, List.Sublist.refl _, ?_, ?_, ?_, ?_, ?_⟩
  · refine hpath.congr next_set_self fun a ha => next_set_of_ne ?_
    exact hf.ne_node (mem_cons_of_mem _ (hmem a ha))
  · intro q hq
    have habove := hpos.above q hq
    have hapart := hf.apart q (mem_append_left _ (hmem q hq))
    have hq_pos := (hi.blocks q (mem_append_left _ (hmem q hq))).pos
    rw [hstop]
    have hle : h.stop bp ≤ q := by
      unfold Apart Heap.stop at *
      omega
    -- The first block above does not touch, and the others are behind it.
    cases l₂ with
    | nil => cases hq
    | cons c l₂ =>
      have hnext : h.next p = c := hpath.1
      rcases List.mem_cons.mp hq with rfl | hq'
      · omega
      · have hc := hpos.above c (mem_cons_self ..)
        have hcapart := hf.apart c (mem_append_left _ (hmem c (mem_cons_self ..)))
        have hcpos := (hi.blocks c (mem_append_left _ (hmem c (mem_cons_self ..)))).pos
        have hcq := (List.pairwise_cons.mp hsorted.2.1).1 q hq'
        unfold Apart Heap.stop at *
        omega
  · have hsize : (h.set bp ⟨h.next p, h.size bp⟩).size bp = h.size bp := size_set_self
    exact Nat.le_of_eq hsize.symm
  · rw [hstop]
    exact hf.placed.below
  · intro a ha hbp _
    rw [hstop]
    exact hbp

end joined

theorem Inv.live_same {l₁ l₂ : List Nat} {h₂ : Heap} (hi : Inv im h l live) (hf : Fresh im h l live bp)
    (hpos : Position im l bp l₁ l₂ p) (hmem : ∀ a, a ≠ p → a ≠ bp → h₂.mem a = h.mem a) (hq : q ∈ live) :
    h₂.mem q = h.mem q := by
  have hqpos := (hi.blocks q (mem_append_right _ hq)).pos
  have hqabove := (hi.blocks q (mem_append_right _ hq)).above
  have hp := hpos.mem
  refine hmem q ?_ (hf.ne (mem_append_right _ hq))
  rintro rfl
  rcases List.mem_cons.mp hp with heq | hql
  · have := im.base_lt hqabove
    omega
  · have hapart := hi.apart q hql q hq
    unfold Apart Heap.stop at hapart
    omega

/-- The invariant for a list that has changed behind `p` only. -/
theorem Inv.splice {l₁ l₂ m₂ : List Nat} {h₂ : Heap} (hi : Inv im h l live) (hf : Fresh im h l live bp)
    (hpos : Position im l bp l₁ l₂ p) (hmem : ∀ a, a ≠ p → a ≠ bp → h₂.mem a = h.mem a) (hsz : h₂.sz = h.sz)
    (hfreep : h₂.freep = p) (hpath : Arc h₂.next p m₂ im.base) (hgap : ∀ q ∈ m₂, h₂.stop p < q)
    (hsorted : m₂.Pairwise fun a b => h₂.stop a < b) (hbase : h₂.size im.base = 0)
    (hp : p ∈ l₁ → Placed im h₂ p ∧ ∀ q ∈ live, Apart h₂ p q)
    (hm : ∀ a ∈ m₂, Placed im h₂ a ∧ ∀ q ∈ live, Apart h₂ a q) : Inv im h₂ (l₁ ++ m₂) live := by
  have hnodup := hi.nodup
  have hold := hi.sorted
  rw [hpos.split, ← cons_append] at hnodup hold
  have hold₁ := (List.pairwise_append.mp hold).1
  have hnode : ∀ a ∈ im.base :: l₁, a ∈ im.base :: l := by
    intro a ha
    rw [hpos.split, ← cons_append]
    exact mem_append_left _ ha
  have hpmem : p ∈ im.base :: l₁ := hpos.last ▸ lastOf_mem im.base l₁
  have hsame : ∀ a ∈ im.base :: l₁, a ≠ p → h₂.mem a = h.mem a := fun a ha hne => hmem a hne (hf.ne_node (hnode a ha))
  have hstop : ∀ a ∈ im.base :: l₁, a ≠ p → h₂.stop a = h.stop a := by
    intro a ha hne
    rw [Heap.stop, Heap.size, hsame a ha hne]
    rfl
  have hlive : ∀ q ∈ live, h₂.mem q = h.mem q := fun q hq => hi.live_same hf hpos hmem hq
  have hplaced : ∀ q, h₂.mem q = h.mem q → Placed im h q → Placed im h₂ q := by
    intro q hq hpl
    have hsize : h₂.size q = h.size q := congrArg Header.size hq
    refine ⟨hsize ▸ hpl.pos, hpl.above, ?_⟩
    rw [Heap.stop, hsize, hsz]
    exact hpl.below
  have hsize : ∀ q, h₂.mem q = h.mem q → h₂.size q = h.size q := fun q hq => congrArg Header.size hq
  have hapart : ∀ a b, h₂.mem a = h.mem a → h₂.mem b = h.mem b → Apart h a b → Apart h₂ a b := by
    intro a b ha hb hab
    unfold Apart Heap.stop at *
    rw [hsize a ha, hsize b hb]
    exact hab
  refine ⟨?_, ?_, ?_, hbase, ?_, ?_, ?_, hsz ▸ hi.grown, hsz ▸ hi.user⟩
  · refine Arc.splice (hpos.split ▸ hi.ring) (List.Nodup.of_append_left hnodup) (fun a ha hne => ?_) (hpos.last ▸ hpath)
    exact congrArg Header.ptr (hsame a ha (hpos.last ▸ hne))
  · rw [← cons_append, pairwise_append]
    refine ⟨?_, hsorted, fun a ha b hb => ?_⟩
    · refine List.Pairwise.imp_of_mem ?_ (hold₁.and (List.pairwise_append.mp hnodup).1)
      rintro a b ha hb ⟨hab, hne⟩
      have hap : a ≠ p := by
        -- The last node is not before another one.
        rintro rfl
        have hb' : b ≠ lastOf im.base l₁ := by
          rw [hpos.last]
          exact hne.symm
        have hba := rel_lastOf hold₁ hb hb'
        rw [hpos.last] at hba
        unfold Heap.stop at hab hba
        omega
      rw [hstop a ha hap]
      exact hab
    · have hpb := hgap b hb
      by_cases hap : a = p
      · rw [hap]
        exact hpb
      · have hlt := rel_lastOf hold₁ ha (hpos.last ▸ hap)
        rw [hpos.last] at hlt
        rw [hstop a ha hap]
        unfold Heap.stop at hpb hlt ⊢
        omega
  · rw [hfreep, ← cons_append]
    exact mem_append_left _ hpmem
  · intro a ha
    rw [append_assoc, mem_append, mem_append] at ha
    rcases ha with ha | ha | ha
    · by_cases hap : a = p
      · exact hap ▸ (hp (hap ▸ ha)).1
      · refine hplaced a (hsame a (mem_cons_of_mem _ ha) hap) (hi.blocks a (mem_append_left _ ?_))
        rw [hpos.split]
        exact mem_append_left _ ha
    · exact (hm a ha).1
    · exact hplaced a (hlive a ha) (hi.blocks a (mem_append_right _ ha))
  · intro a ha q hq
    rcases List.mem_append.mp ha with ha | ha
    · by_cases hap : a = p
      · exact hap ▸ (hp (hap ▸ ha)).2 q hq
      · refine hapart a q (hsame a (mem_cons_of_mem _ ha) hap) (hlive q hq) (hi.apart a ?_ q hq)
        rw [hpos.split]
        exact mem_append_left _ ha
    · exact (hm a ha).2 q hq
  · exact List.Pairwise.imp_of_mem (fun {a b} ha hb hab => hapart a b (hlive a ha) (hlive b hb) hab) hi.live

def Heap.withFreep (h : Heap) (p : Nat) : Heap := { h with freep := p }

section below

variable {l₁ l₂ m₂ : List Nat} {h₁ : Heap}

theorem Joined.mem_of_ne {a : Nat} (hj : Joined im h bp l₂ h₁ m₂) (ha : a ≠ bp) : h₁.mem a = h.mem a := by
  obtain ⟨x, rfl⟩ := hj.state
  exact mem_set_of_ne ha

theorem Joined.above (hj : Joined im h bp l₂ h₁ m₂) (hpos : Position im l bp l₁ l₂ p) (hq : q ∈ m₂) :
    bp < q ∧ q ∈ l := by
  have hq₂ := hj.sub.subset hq
  exact ⟨hpos.above q hq₂, hpos.split ▸ mem_append_right l₁ hq₂⟩

variable (hi : Inv im h l live) (hf : Fresh im h l live bp) (hpos : Position im l bp l₁ l₂ p)
  (hj : Joined im h bp l₂ h₁ m₂)

include hi hf hpos hj

theorem Joined.rest {h₂ : Heap} (hmem : ∀ a, a ≠ p → a ≠ bp → h₂.mem a = h.mem a) (hsz : h₂.sz = h.sz) :
    (m₂.Pairwise fun a b => h₂.stop a < b) ∧ ∀ a ∈ m₂, Placed im h₂ a ∧ ∀ q ∈ live, Apart h₂ a q := by
  have hsize : ∀ a ∈ m₂, h₂.size a = h.size a := by
    intro a ha
    have hlt := (hj.above hpos ha).1
    have := hpos.below
    exact congrArg Header.size (hmem a (by omega) (by omega))
  refine ⟨?_, fun a ha => ⟨?_, fun q hq => ?_⟩⟩
  · have hsorted := hi.sorted
    rw [hpos.split, ← cons_append, pairwise_append] at hsorted
    refine List.Pairwise.imp_of_mem (fun {a b} ha _ hab => ?_) (hsorted.2.1.sublist hj.sub)
    rw [Heap.stop, hsize a ha]
    exact hab
  · have hpl := hi.blocks a (mem_append_left _ (hj.above hpos ha).2)
    refine ⟨hsize a ha ▸ hpl.pos, hpl.above, ?_⟩
    rw [Heap.stop, hsize a ha, hsz]
    exact hpl.below
  · have hapart := hi.apart a (hj.above hpos ha).2 q hq
    have hq_size : h₂.size q = h.size q := congrArg Header.size (hi.live_same hf hpos hmem hq)
    unfold Apart Heap.stop at *
    rw [hsize a ha, hq_size]
    exact hapart

theorem Joined.apart_live (hq : q ∈ live) : h₁.stop bp ≤ q ∨ h.stop q ≤ bp := by
  refine hj.apart q (hi.blocks q (mem_append_right _ hq)).pos (hf.apart q (mem_append_right _ hq)) fun a ha => ?_
  exact hi.apart a (hpos.split ▸ mem_append_right l₁ ha) q hq

theorem inv_below (hlow : h.stop p = bp) :
    Inv im ((h₁.set p ⟨h₁.next bp, h.size p + h₁.size bp⟩).withFreep p) (l₁ ++ m₂) live := by
  have hbelow := hpos.below
  have hbase : p ≠ im.base := by
    rintro rfl
    unfold Heap.stop at hlow
    rw [hi.base] at hlow
    omega
  obtain ⟨x, hx⟩ := hj.state
  have hsz : h₁.sz = h.sz := hx ▸ rfl
  have hmem : ∀ a, a ≠ p → a ≠ bp → ((h₁.set p ⟨h₁.next bp, h.size p + h₁.size bp⟩).withFreep p).mem a = h.mem a := by
    intro a hap habp
    rw [← hj.mem_of_ne habp]
    exact mem_set_of_ne hap
  have hstop : (h₁.set p ⟨h₁.next bp, h.size p + h₁.size bp⟩).stop p = h₁.stop bp := by
    unfold Heap.stop at hlow ⊢
    rw [size_set_self]
    dsimp only
    omega
  obtain ⟨hsorted, hrest⟩ := hj.rest hi hf hpos hmem hsz
  refine hi.splice hf hpos hmem hsz rfl ?_ ?_ hsorted ?_ (fun hp => ⟨?_, fun q hq => ?_⟩) hrest
  · refine hj.path.congr next_set_self fun a ha => next_set_of_ne ?_
    have := (hj.above hpos ha).1
    omega
  · intro q hq
    exact hstop ▸ hj.gap q hq
  · exact (congrArg Header.size (hmem im.base hbase.symm (Nat.ne_of_lt (im.base_lt hf.placed.above)))).trans hi.base
  · have hpl := hi.blocks p (mem_append_left _ (hpos.split ▸ mem_append_left _ hp))
    refine ⟨?_, hpl.above, ?_⟩
    · show 0 < (h₁.set p _).size p
      rw [size_set_self]
      exact Nat.add_pos_left hpl.pos _
    · show (h₁.set p _).stop p ≤ h₁.sz
      rw [hstop, hsz]
      exact hj.below
  · have hapart := hi.apart p (hpos.split ▸ mem_append_left _ hp) q hq
    have hqpos := (hi.blocks q (mem_append_right _ hq)).pos
    have hnew := hj.apart_live hi hf hpos hq
    have hq_size : (h₁.set p ⟨h₁.next bp, h.size p + h₁.size bp⟩).size q = h.size q :=
      congrArg Header.size (hi.live_same hf hpos hmem hq)
    show (h₁.set p _).stop p ≤ q ∨ q + 8 * (h₁.set p _).size q ≤ p
    rw [hstop, hq_size]
    unfold Apart Heap.stop at *
    omega

theorem inv_insert (hlow : h.stop p ≠ bp) :
    Inv im ((h₁.set p ⟨bp, h.size p⟩).withFreep p) (l₁ ++ bp :: m₂) live := by
  have hbelow := hpos.below
  have hpmem := hpos.mem
  obtain ⟨x, hx⟩ := hj.state
  have hsz : h₁.sz = h.sz := hx ▸ rfl
  have hmem : ∀ a, a ≠ p → a ≠ bp → ((h₁.set p ⟨bp, h.size p⟩).withFreep p).mem a = h.mem a := by
    intro a hap habp
    rw [← hj.mem_of_ne habp]
    exact mem_set_of_ne hap
  have hstop : (h₁.set p ⟨bp, h.size p⟩).stop p = h.stop p := by
    unfold Heap.stop
    rw [size_set_self]
  have hbp : (h₁.set p ⟨bp, h.size p⟩).size bp = h₁.size bp := size_set_of_ne (Nat.ne_of_gt hbelow)
  -- The block below `bp` ends below it.
  have hpbp : h.stop p < bp := by
    rcases List.mem_cons.mp hpmem with rfl | hp
    · unfold Heap.stop
      rw [hi.base]
      exact hbelow
    · have hapart := hf.apart p (mem_append_left _ hp)
      have hpos' := hf.placed.pos
      unfold Apart Heap.stop at *
      omega
  obtain ⟨hsorted, hrest⟩ := hj.rest hi hf hpos hmem hsz
  refine hi.splice hf hpos hmem hsz rfl ?_ ?_ ?_ ?_ (fun hp => ⟨?_, fun q hq => ?_⟩) fun a ha => ?_
  · refine ⟨next_set_self, hj.path.congr (next_set_of_ne (Nat.ne_of_gt hbelow)) fun a ha => next_set_of_ne ?_⟩
    have := (hj.above hpos ha).1
    omega
  · intro q hq
    show (h₁.set p _).stop p < q
    rw [hstop]
    rcases List.mem_cons.mp hq with rfl | hq
    · exact hpbp
    · have := (hj.above hpos hq).1
      omega
  · refine List.pairwise_cons.mpr ⟨fun q hq => ?_, hsorted⟩
    have hgap := hj.gap q hq
    unfold Heap.stop at hgap ⊢
    show bp + 8 * (h₁.set p _).size bp < q
    rw [hbp]
    exact hgap
  · by_cases hbase : p = im.base
    · subst hbase
      show (h₁.set im.base _).size im.base = 0
      rw [size_set_self]
      exact hi.base
    · exact (congrArg Header.size (hmem im.base (Ne.symm hbase) (Nat.ne_of_lt (im.base_lt hf.placed.above)))).trans
        hi.base
  · have hpl := hi.blocks p (mem_append_left _ (hpos.split ▸ mem_append_left _ hp))
    refine ⟨?_, hpl.above, ?_⟩
    · show 0 < (h₁.set p _).size p
      rw [size_set_self]
      exact hpl.pos
    · show (h₁.set p _).stop p ≤ h₁.sz
      rw [hstop, hsz]
      exact hpl.below
  · have hapart := hi.apart p (hpos.split ▸ mem_append_left _ hp) q hq
    have hq_size : (h₁.set p ⟨bp, h.size p⟩).size q = h.size q :=
      congrArg Header.size (hi.live_same hf hpos hmem hq)
    show (h₁.set p _).stop p ≤ q ∨ q + 8 * (h₁.set p _).size q ≤ p
    rw [hstop, hq_size]
    exact hapart
  · rcases List.mem_cons.mp ha with rfl | ha
    · refine ⟨⟨?_, hf.placed.above, ?_⟩, fun q hq => ?_⟩
      · show 0 < (h₁.set p _).size a
        rw [hbp]
        exact Nat.lt_of_lt_of_le hf.placed.pos hj.larger
      · show a + 8 * (h₁.set p _).size a ≤ h₁.sz
        rw [hbp, hsz]
        exact hj.below
      · have hq_size : (h₁.set p ⟨a, h.size p⟩).size q = h.size q :=
          congrArg Header.size (hi.live_same hf hpos hmem hq)
        show a + 8 * (h₁.set p _).size a ≤ q ∨ q + 8 * (h₁.set p _).size q ≤ a
        rw [hbp, hq_size]
        exact hj.apart_live hi hf hpos hq
    · exact hrest a ha

end below

/-! ## free -/

theorem length_le {x top : Nat} (hsorted : (x :: l).Pairwise fun p q => h.stop p < q) (hx : h.stop x ≤ top)
    (hl : ∀ a ∈ l, 0 < h.size a ∧ h.stop a ≤ top) : h.stop x + 8 * l.length ≤ top := by
  induction l generalizing x with
  | nil => exact hx
  | cons a l ih =>
    obtain ⟨hlt, hsorted⟩ := List.pairwise_cons.mp hsorted
    have ha := hl a (mem_cons_self ..)
    have hxa := hlt a (mem_cons_self ..)
    have hrest := ih hsorted ha.2 fun b hb => hl b (mem_cons_of_mem a hb)
    rw [length_cons]
    unfold Heap.stop at hxa hrest ⊢
    omega

theorem Inv.length_lt (hi : Inv im h l live) : l.length < 2 ^ 28 := by
  have hbase : h.stop im.base ≤ h.sz := by
    have := im.fits
    have := hi.grown
    unfold Heap.stop
    rw [hi.base]
    omega
  have hle := length_le hi.sorted hbase fun a ha => by
    have hpl := hi.blocks a (mem_append_left _ ha)
    exact ⟨hpl.pos, hpl.below⟩
  have huser := hi.user
  simp only [KERNBASE] at huser
  omega

theorem plus_eq {n : Nat} (hn : p + 8 * n < 2 ^ 32) : plus p n = p + 8 * n := Nat.mod_eq_of_lt hn

theorem seek_from_freep (hi : Inv im h l live) (hf : Fresh im h l live bp) :
    wp (seek bp rounds h.freep) (fun a h' => h' = h ∧ ∃ l₁ l₂, Position im l bp l₁ l₂ a) E h := by
  have hbase := im.base_lt hf.placed.above
  obtain ⟨l₁, l₂, hl, hlt, habove⟩ := exists_split hi.ascending hbase fun hbp => hf.ne_node (mem_cons_of_mem _ hbp) rfl
  obtain ⟨r, hpath, hperm⟩ := hi.ring.rotate hi.freep
  have hlast : lastOf im.base l₁ ∈ h.freep :: r := by
    rw [hperm.mem_iff, hl, ← cons_append]
    exact mem_append_left _ (lastOf_mem im.base l₁)
  refine seek_wp hi hbase (fun a ha => hperm.mem_iff.mp ha) hpath ⟨l₁, l₂, _, hlast, hl, rfl, hlt, habove⟩ ?_
  have hlength := hperm.length_eq
  have hlt := hi.length_lt
  rw [length_cons, length_cons] at hlength
  simp only [rounds]
  omega

/-- What `free` does for a block at `bp`. -/
structure Freed (im : Image) (h : Heap) (l live : List Nat) (bp : Nat) (h' : Heap) (l' : List Nat) : Prop where
  inv : Inv im h' l' live
  sz : h'.sz = h.sz
  room : h'.room = h.room
  same : ∀ q ∈ live, h'.mem q = h.mem q
  -- The block is part of one on the list.
  found : ∃ a ∈ l', h.size bp ≤ h'.size a

section parts

variable {l₁ l₂ m₂ : List Nat} {h₁ : Heap}

/-- The second half of `free`. -/
theorem below_wp (hi : Inv im h l live) (hf : Fresh im h l live bp) (hpos : Position im l bp l₁ l₂ p)
    (hj : Joined im h bp l₂ h₁ m₂) :
    wp (do
        if plus p (← load p).size = bp then do
          setSize p (((← load p).size + (← load bp).size) % 2 ^ 32)
          setPtr p (← load bp).ptr
        else setPtr p bp
        setFreep p) (fun _ h' => ∃ l', Freed im h l live bp h' l') E h₁ := by
  have hne : p ≠ bp := Nat.ne_of_lt hpos.below
  obtain ⟨x, hx⟩ := hj.state
  have hsz : h₁.sz = h.sz := hx ▸ rfl
  have hroom : h₁.room = h.room := hx ▸ rfl
  have hp : h₁.Mapped p := hx ▸ hi.mapped hpos.mem
  have hbp : h₁.Mapped bp := hx ▸ hf.placed.mapped
  have hsize : h₁.size p = h.size p := congrArg Header.size (hj.mem_of_ne hne)
  have hstop : plus p (h₁.size p) = h.stop p := by
    have hle : h.stop p ≤ h.sz := by
      rcases List.mem_cons.mp hpos.mem with rfl | hp
      · have := im.fits
        have := hi.grown
        unfold Heap.stop
        rw [hi.base]
        omega
      · exact (hi.blocks p (mem_append_left _ hp)).below
    have huser := hi.user
    simp only [KERNBASE] at huser
    rw [hsize]
    unfold Heap.stop at hle
    exact plus_eq (by omega)
  have hsame : ∀ x', ∀ q ∈ live, (h₁.set p x').mem q = h.mem q := by
    intro x' q hq
    exact hi.live_same hf hpos (fun a hap habp => (mem_set_of_ne hap).trans (hj.mem_of_ne habp)) hq
  rw [wp_bind, wp_load hp]
  dsimp only
  rw [hstop]
  by_cases hlow : h.stop p = bp
  · have hsum : (h.size p + h₁.size bp) % 2 ^ 32 = h.size p + h₁.size bp := by
      have hle := hj.below
      have huser := hi.user
      simp only [KERNBASE] at huser
      unfold Heap.stop at hle hlow
      exact Nat.mod_eq_of_lt (by omega)
    rw [if_pos hlow, wp_bind, wp_load hp, wp_bind, wp_load hbp]
    dsimp only
    rw [hsize, hsum, wp_bind, wp_setSize hp, wp_bind, wp_load (mapped_set.mpr hbp), wp_bind,
      wp_setPtr (mapped_set.mpr hp)]
    dsimp only
    rw [set_set, size_set_self, next_set_of_ne hne.symm]
    refine ⟨l₁ ++ m₂, inv_below hi hf hpos hj hlow, hsz, hroom, hsame _, p, ?_, ?_⟩
    · have hbase : p ≠ im.base := by
        rintro rfl
        unfold Heap.stop at hlow
        rw [hi.base] at hlow
        omega
      refine mem_append_left _ ((List.mem_cons.mp (hpos.last ▸ lastOf_mem im.base l₁)).resolve_left hbase)
    · show h.size bp ≤ (h₁.set p _).size p
      rw [size_set_self]
      exact Nat.le_trans hj.larger (Nat.le_add_left ..)
  · rw [if_neg hlow, wp_bind, wp_setPtr hp, hsize]
    refine ⟨l₁ ++ bp :: m₂, inv_insert hi hf hpos hj hlow, hsz, hroom, hsame _, bp, ?_, ?_⟩
    · exact mem_append_right _ (mem_cons_self ..)
    · show h.size bp ≤ (h₁.set p _).size bp
      rw [size_set_of_ne hne.symm]
      exact hj.larger

end parts

theorem free_wp (hi : Inv im h l live) (hf : Fresh im h l live bp) :
    wp (free (bp + 8)) (fun _ h' => ∃ l', Freed im h l live bp h' l') E h := by
  have hbelow := hf.placed.below
  have huser := hi.user
  unfold Heap.stop at hbelow
  simp only [KERNBASE] at huser
  have hbp : (bp + 8 + 2 ^ 32 - 8) % 2 ^ 32 = bp := by omega
  have hstop : plus bp (h.size bp) = h.stop bp := plus_eq (by omega)
  unfold free
  rw [hbp, wp_bind, wp_gets, wp_bind]
  refine wp_imp (seek_from_freep hi hf) fun p h' ⟨heq, l₁, l₂, hpos⟩ => ?_
  subst heq
  rw [wp_bind, wp_load (hi.mapped hpos.mem)]
  dsimp only
  rw [wp_bind, wp_load hf.placed.mapped]
  dsimp only
  rw [hstop]
  by_cases hup : h'.stop bp = h'.next p
  · -- The next node is not `base`, which is below.
    cases l₂ with
    | nil =>
      have hnext := hi.path_from hpos.split
      rw [hpos.last] at hnext
      have hbase := im.base_lt hf.placed.above
      have heq : h'.next p = im.base := hnext
      unfold Heap.stop at hup
      omega
    | cons c l₂ =>
      have hnext := hi.path_from hpos.split
      rw [hpos.last] at hnext
      have hc : h'.next p = c := hnext.1
      have hcl : c ∈ l := hpos.split ▸ mem_append_right l₁ (mem_cons_self ..)
      have hcpl := hi.blocks c (mem_append_left _ hcl)
      have hcbp : c ≠ bp := hf.ne (mem_append_left _ hcl)
      have hsum : (h'.size bp + h'.size c) % 2 ^ 32 = h'.size bp + h'.size c := by
        have := hcpl.below
        unfold Heap.stop at *
        exact Nat.mod_eq_of_lt (by omega)
      rw [hc] at hup
      rw [hc, if_pos hup, wp_bind, wp_load hf.placed.mapped, wp_bind, wp_load hcpl.mapped]
      dsimp only
      rw [hsum, wp_bind, wp_setSize hf.placed.mapped, wp_bind, wp_load (mapped_set.mpr hcpl.mapped), wp_bind,
        wp_setPtr (mapped_set.mpr hf.placed.mapped)]
      dsimp only
      rw [set_set, size_set_self, next_set_of_ne hcbp]
      exact below_wp hi hf hpos (joined_above hi hf hpos hup)
  · rw [if_neg hup, wp_bind, wp_setPtr hf.placed.mapped]
    exact below_wp hi hf hpos (joined_alone hi hf hpos hup)

end Xv6.Umalloc
