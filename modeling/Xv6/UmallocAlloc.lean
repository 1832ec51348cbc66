import Mathlib
import Xv6.UmallocFree

/- `malloc`, and runs of a program that allocates and frees.

   1. `morecore` adds a block at the break, if the kernel answers.
   2. `malloc` takes a whole block off the list, or the tail of one; the search goes round the list once, and
      once more behind `morecore`.
   3. `heap_is_sound`: what holds in every run in which no request is larger than `largest`.
   4. Beyond that the arithmetic of `malloc` overflows: a request of 2^32 - 1 bytes gets a block with none
      (`malloc_overflows`). -/
namespace Xv6.Umalloc
open List Command Vm CircularList Transition

variable {im : Image} {h h' : Heap} {l live : List Nat} {p q bp : Nat} {E : Stop → Prop}

/-! ## The same list in another memory -/

theorem Inv.congr (hi : Inv im h l live) (hmem : ∀ a ∈ im.base :: (l ++ live), h'.mem a = h.mem a)
    (hfreep : h'.freep = h.freep) (hsz : h.sz ≤ h'.sz) (huser : h'.sz < KERNBASE) : Inv im h' l live := by
  have hnode : ∀ a ∈ im.base :: l, h'.mem a = h.mem a := by
    intro a ha
    rw [← cons_append] at hmem
    exact hmem a (mem_append_left _ ha)
  have hblock : ∀ a ∈ l ++ live, h'.size a = h.size a :=
    fun a ha => congrArg Header.size (hmem a (mem_cons_of_mem _ ha))
  refine ⟨?_, ?_, hfreep ▸ hi.freep, ?_, fun a ha => ?_, fun a ha b hb => ?_, ?_, Nat.le_trans hi.grown hsz, huser⟩
  · refine hi.ring.congr (congrArg Header.ptr (hnode _ (mem_cons_self ..))) fun a ha => ?_
    exact congrArg Header.ptr (hnode a (mem_cons_of_mem _ ha))
  · refine List.Pairwise.imp_of_mem (fun {a b} ha _ hab => ?_) hi.sorted
    rw [Heap.stop, show h'.size a = h.size a from congrArg Header.size (hnode a ha)]
    exact hab
  · exact (congrArg Header.size (hnode _ (mem_cons_self ..))).trans hi.base
  · have hpl := hi.blocks a ha
    refine ⟨hblock a ha ▸ hpl.pos, hpl.above, ?_⟩
    rw [Heap.stop, hblock a ha]
    exact Nat.le_trans hpl.below hsz
  · have hab := hi.apart a ha b hb
    unfold Apart Heap.stop at *
    rw [hblock a (mem_append_left _ ha), hblock b (mem_append_right _ hb)]
    exact hab
  · refine List.Pairwise.imp_of_mem (fun {a b} ha hb hab => ?_) hi.live
    unfold Apart Heap.stop at *
    rw [hblock a (mem_append_right _ ha), hblock b (mem_append_right _ hb)]
    exact hab

theorem Inv.le_sz (hi : Inv im h l live) (hp : p ∈ im.base :: (l ++ live)) : p + 8 ≤ h.sz := by
  rcases List.mem_cons.mp hp with rfl | hp
  · exact Nat.le_trans im.fits hi.grown
  · have hpos := (hi.blocks p hp).pos
    have hbelow := (hi.blocks p hp).below
    unfold Heap.stop at hbelow
    omega

/-! ## morecore -/

/-- The block that `sbrk` has added. -/
theorem grown_fresh {nu : Nat} (hi : Inv im h l live) (hnu : 0 < nu) (htop : h.sz + 8 * nu < KERNBASE) :
    Inv im ((h.grow (h.sz + 8 * nu)).set h.sz ⟨(h.grow (h.sz + 8 * nu)).next h.sz, nu⟩) l live ∧
      Fresh im ((h.grow (h.sz + 8 * nu)).set h.sz ⟨(h.grow (h.sz + 8 * nu)).next h.sz, nu⟩) l live h.sz ∧
      ∀ q ∈ live, ((h.grow (h.sz + 8 * nu)).set h.sz ⟨(h.grow (h.sz + 8 * nu)).next h.sz, nu⟩).mem q = h.mem q := by
  have hmem : ∀ a ∈ im.base :: (l ++ live),
      ((h.grow (h.sz + 8 * nu)).set h.sz ⟨(h.grow (h.sz + 8 * nu)).next h.sz, nu⟩).mem a = h.mem a := by
    intro a ha
    have hle := hi.le_sz ha
    have hne : a ≠ h.sz := by omega
    have hold : ¬((h.sz + Vm.PGSIZE - 1) / Vm.PGSIZE * Vm.PGSIZE ≤ a ∧ a < h.sz + 8 * nu) := by
      simp only [Vm.PGSIZE]
      omega
    rw [mem_set_of_ne hne]
    exact if_neg hold
  have hnew := hi.congr hmem rfl (Nat.le_add_right ..) htop
  refine ⟨hnew, ⟨⟨?_, hi.grown, ?_⟩, fun q hq => .inr ?_⟩, fun q hq => ?_⟩
  · rw [size_set_self]
    exact hnu
  · rw [Heap.stop, size_set_self]
    exact Nat.le_refl _
  · have hsize : ((h.grow (h.sz + 8 * nu)).set h.sz ⟨(h.grow (h.sz + 8 * nu)).next h.sz, nu⟩).size q = h.size q :=
      congrArg Header.size (hmem q (mem_cons_of_mem _ hq))
    rw [Heap.stop, hsize]
    exact (hi.blocks q hq).below
  · exact hmem q (mem_cons_of_mem _ (mem_append_right _ hq))

theorem morecore_wp {nu : Nat} (hi : Inv im h l live) (hnu : nu * 8 < 2 ^ 31) :
    wp (morecore nu) (fun r h' => r = none ∧ h' = h ∨
      ∃ l', Inv im h' l' live ∧ r = some h'.freep ∧ (∀ q ∈ live, h'.mem q = h.mem q) ∧
        ∃ a ∈ l', nu ≤ h'.size a) E h := by
  have huser := hi.user
  simp only [KERNBASE] at huser
  rw [morecore]
  generalize hm : (if nu < 4096 then 4096 else nu) = m
  have hle : nu ≤ m ∧ 0 < m ∧ m * 8 < 2 ^ 31 := by
    split at hm <;> omega
  have harg : toInt (m * 8 % 2 ^ 32) = (m * 8 : Nat) := by
    rw [Nat.mod_eq_of_lt (by omega)]
    exact if_pos hle.2.2
  have hnewsz : (((h.sz : Int) + (m * 8 : Nat)) % 2 ^ 32).toNat = h.sz + 8 * m := by omega
  rw [harg, wp_bind, sbrk, wp_bind, wp_gets]
  dsimp only
  rw [hnewsz, if_pos (by omega)]
  by_cases htop : KERNBASE ≤ h.sz + 8 * m
  · rw [if_pos htop]
    exact .inl ⟨rfl, rfl⟩
  · rw [if_neg htop, if_neg (by omega), wp_bind, wp_gets]
    cases hroom : h.room with
    | false => exact .inl ⟨rfl, rfl⟩
    | true =>
      obtain ⟨hnew, hfresh, hsame⟩ := grown_fresh hi hle.2.1 (Nat.lt_of_not_le htop)
      have hplus : plus h.sz 1 = h.sz + 8 := plus_eq (by simp only [KERNBASE] at htop; omega)
      rw [if_pos rfl, wp_bind, wp_modify]
      show wp (setSize h.sz m >>= _) _ E (h.grow (h.sz + 8 * m))
      rw [wp_bind, wp_setSize (mapped_of_le (show h.sz + 8 ≤ h.sz + 8 * m by omega)), hplus, wp_bind]
      refine wp_imp (free_wp hnew hfresh) fun _ h' hh' => ?_
      obtain ⟨l', hfreed⟩ := hh'
      refine .inr ⟨l', hfreed.inv, rfl, fun q hq => ?_, ?_⟩
      · exact (hfreed.same q hq).trans (hsame q hq)
      · obtain ⟨a, ha, hsize⟩ := hfreed.found
        rw [size_set_self] at hsize
        exact ⟨a, ha, Nat.le_trans hle.1 hsize⟩

/-! ## malloc -/

theorem Apart.symm (hpq : Apart h p q) : Apart h q p := hpq.elim .inr .inl

instance : Std.Symm (Apart h) := ⟨fun _ _ => Apart.symm⟩

theorem Inv.exists_split (hi : Inv im h l live) {prevp : Nat} (hprev : prevp ∈ im.base :: l)
    (hsize : 0 < h.size (h.next prevp)) :
    ∃ l₁ l₂, l = l₁ ++ h.next prevp :: l₂ ∧ lastOf im.base l₁ = prevp := by
  obtain ⟨l₁, l₂, hl, hlast⟩ := exists_lastOf hprev
  have hpath := hi.path_from hl
  rw [hlast] at hpath
  cases l₂ with
  | nil =>
    rw [show h.next prevp = im.base from hpath, hi.base] at hsize
    omega
  | cons c l₂ => exact ⟨l₁, l₂, by rw [hpath.1]; exact hl, hlast⟩

theorem Inv.apart_node {l₁ l₂ : List Nat} (hi : Inv im h l live) (hl : l = l₁ ++ p :: l₂) (hq : q ∈ l₁ ++ l₂) :
    q ≠ p ∧ (h.stop q < p ∨ h.stop p < q) := by
  have hsorted := (List.pairwise_cons.mp hi.sorted).2
  rw [hl, pairwise_append] at hsorted
  rcases List.mem_append.mp hq with hq | hq
  · have hlt := hsorted.2.2 q hq p (mem_cons_self ..)
    unfold Heap.stop at *
    exact ⟨by omega, .inl hlt⟩
  · have hlt := (List.pairwise_cons.mp hsorted.2.1).1 q hq
    unfold Heap.stop at *
    exact ⟨by omega, .inr hlt⟩

theorem Inv.ne_lastOf {l₁ l₂ : List Nat} (hi : Inv im h l live) (hl : l = l₁ ++ p :: l₂) : p ≠ lastOf im.base l₁ := by
  have hnodup := hi.nodup
  rw [hl, ← cons_append, nodup_append] at hnodup
  exact (hnodup.2.2 _ (lastOf_mem im.base l₁) p (mem_cons_self ..)).symm

theorem inv_take {l₁ l₂ : List Nat} {prevp : Nat} (hi : Inv im h l live) (hl : l = l₁ ++ p :: l₂)
    (hlast : lastOf im.base l₁ = prevp) :
    Inv im ((h.set prevp ⟨h.next p, h.size prevp⟩).withFreep prevp) (l₁ ++ l₂) (p :: live) := by
  have hsize : ∀ a, ((h.set prevp ⟨h.next p, h.size prevp⟩).withFreep prevp).size a = h.size a := by
    intro a
    by_cases ha : a = prevp
    · subst ha
      exact size_set_self
    · exact size_set_of_ne ha
  have hstop : ∀ a, ((h.set prevp ⟨h.next p, h.size prevp⟩).withFreep prevp).stop a = h.stop a := by
    intro a
    rw [Heap.stop, hsize]
    rfl
  have hapart : ∀ a b, Apart ((h.set prevp ⟨h.next p, h.size prevp⟩).withFreep prevp) a b ↔ Apart h a b := by
    intro a b
    rw [Apart, hstop, hstop]
    rfl
  have hsub : (l₁ ++ l₂).Sublist l := by
    rw [hl]
    exact List.Sublist.append_left (sublist_cons_self p l₂) l₁
  have hnodup := hi.nodup
  have hring := hi.ring
  rw [hl] at hnodup hring
  have hprev : prevp ∈ im.base :: l₁ := hlast ▸ lastOf_mem im.base l₁
  have hpl : p ∈ l := by
    rw [hl]
    exact mem_append_right _ (mem_cons_self ..)
  refine ⟨?_, ?_, ?_, (hsize _).trans hi.base, fun a ha => ?_, fun a ha b hb => ?_, ?_, hi.grown, hi.user⟩
  · have hfront : (im.base :: l₁).Nodup := List.Nodup.of_append_left hnodup
    refine hring.splice hfront (fun a _ hne => ?_) ?_
    · exact next_set_of_ne (hlast ▸ hne)
    · rw [hlast]
      refine (arc_append.mp hring).2.congr next_set_self fun a ha => next_set_of_ne ?_
      rintro rfl
      rw [← cons_append, nodup_append] at hnodup
      exact hnodup.2.2 a hprev a (mem_cons_of_mem p ha) rfl
  · refine (hi.sorted.sublist (List.Sublist.cons_cons im.base hsub)).imp fun {a b} hab => ?_
    rw [hstop]
    exact hab
  · show prevp ∈ _
    rw [← cons_append]
    exact mem_append_left _ hprev
  · have hmem : a ∈ l ++ live := by
      rcases List.mem_append.mp ha with ha | ha
      · exact mem_append_left _ (hsub.subset ha)
      · rcases List.mem_cons.mp ha with rfl | ha
        · exact mem_append_left _ hpl
        · exact mem_append_right _ ha
    have hpl := hi.blocks a hmem
    exact ⟨hsize a ▸ hpl.pos, hpl.above, hstop a ▸ hpl.below⟩
  · rw [hapart]
    rcases List.mem_cons.mp hb with rfl | hb
    · have := (hi.apart_node hl ha).2
      unfold Apart
      omega
    · exact hi.apart a (hsub.subset ha) b hb
  · refine List.pairwise_cons.mpr ⟨fun b hb => (hapart p b).mpr (hi.apart p hpl b hb), ?_⟩
    exact hi.live.imp fun {a b} hab => (hapart a b).mpr hab

/-- The tail of the block is taken. -/
theorem inv_split {l₁ l₂ : List Nat} {k : Heap} {n t : Nat} (hi : Inv im h l live) (hl : l = l₁ ++ p :: l₂) (hn : 0 < n)
    (hlt : n < h.size p) (ht : t = p + 8 * (h.size p - n)) (hmem : ∀ a, a ≠ p → a ≠ t → k.mem a = h.mem a)
    (hnext : k.next p = h.next p) (hsize : k.size p = h.size p - n) (hsize_t : k.size t = n) (hsz : k.sz = h.sz)
    (hfreep : k.freep ∈ im.base :: l) : Inv im k l (t :: live) := by
  have hpl : p ∈ l := by
    rw [hl]
    exact mem_append_right _ (mem_cons_self ..)
  have hplaced := hi.blocks p (mem_append_left _ hpl)
  have hnode : ∀ a ∈ l, a ≠ p → h.stop a < p ∨ h.stop p < a := by
    intro a ha hap
    refine (hi.apart_node hl ?_).2
    rw [hl, mem_append, mem_cons] at ha
    rw [mem_append]
    tauto
  -- No other header is inside the block.
  have hother : ∀ a ∈ l ++ live, a ≠ p → k.mem a = h.mem a := by
    intro a ha hap
    have hpos := (hi.blocks a ha).pos
    have hapart : h.stop a ≤ p ∨ h.stop p ≤ a := by
      rcases List.mem_append.mp ha with ha | ha
      · have := hnode a ha hap
        omega
      · exact (hi.apart p hpl a ha).symm
    refine hmem a hap ?_
    unfold Heap.stop at hapart
    omega
  have hlive : ∀ b ∈ live, b ≠ p := by
    rintro b hb rfl
    have hself := hi.apart b hpl b hb
    unfold Apart Heap.stop at hself
    omega
  have hbase : k.mem im.base = h.mem im.base := by
    have := im.base_lt hplaced.above
    exact hmem im.base (by omega) (by omega)
  have hstop : ∀ a ∈ l ++ live, a ≠ p → k.stop a = h.stop a := by
    intro a ha hap
    rw [Heap.stop, Heap.size, hother a ha hap]
    rfl
  have hstop_p : k.stop p = t := by
    rw [Heap.stop, hsize, ht]
  have hstop_t : k.stop t = h.stop p := by
    unfold Heap.stop
    rw [hsize_t]
    omega
  have hpt : p < t := by omega
  have htstop : t < h.stop p := by
    unfold Heap.stop
    omega
  refine ⟨?_, ?_, hfreep, (congrArg Header.size hbase).trans hi.base, fun a ha => ?_, fun a ha b hb => ?_, ?_,
    hsz ▸ hi.grown, hsz ▸ hi.user⟩
  · refine hi.ring.congr (congrArg Header.ptr hbase) fun a ha => ?_
    by_cases hap : a = p
    · rw [hap, hnext]
    · exact congrArg Header.ptr (hother a (mem_append_left _ ha) hap)
  · refine List.Pairwise.imp_of_mem (fun {a b} ha _ hab => ?_) hi.sorted
    rcases List.mem_cons.mp ha with rfl | ha
    · rw [Heap.stop, Heap.size, hbase]
      exact hab
    · by_cases hap : a = p
      · subst hap
        omega
      · rw [hstop a (mem_append_left _ ha) hap]
        exact hab
  · have hcases : a = t ∨ a ∈ l ++ live := by
      rw [mem_append, mem_cons] at ha
      rw [mem_append]
      tauto
    rcases hcases with rfl | ha
    · refine ⟨by omega, Nat.le_trans hplaced.above (Nat.le_of_lt hpt), ?_⟩
      rw [hstop_t, hsz]
      exact hplaced.below
    · by_cases hap : a = p
      · subst hap
        have hbelow := hplaced.below
        exact ⟨by omega, hplaced.above, by omega⟩
      · have hpl := hi.blocks a ha
        refine ⟨?_, hpl.above, ?_⟩
        · rw [Heap.size, hother a ha hap]
          exact hpl.pos
        · rw [hstop a ha hap, hsz]
          exact hpl.below
  · unfold Apart
    rcases List.mem_cons.mp hb with rfl | hb
    · by_cases hap : a = p
      · subst hap
        omega
      · have := hnode a ha hap
        rw [hstop a (mem_append_left _ ha) hap, hstop_t]
        omega
    · have hab := hi.apart a ha b hb
      rw [hstop b (mem_append_right _ hb) (hlive b hb)]
      by_cases hap : a = p
      · subst hap
        unfold Apart at hab
        omega
      · rw [hstop a (mem_append_left _ ha) hap]
        exact hab
  · refine List.pairwise_cons.mpr ⟨fun b hb => ?_, List.Pairwise.imp_of_mem (fun {a b} ha hb hab => ?_) hi.live⟩
    · have hpb := hi.apart p hpl b hb
      unfold Apart at hpb ⊢
      rw [hstop b (mem_append_right _ hb) (hlive b hb), hstop_t]
      omega
    · unfold Apart
      rw [hstop a (mem_append_right _ ha) (hlive a ha), hstop b (mem_append_right _ hb) (hlive b hb)]
      exact hab

/-- What a call of `malloc` for `n` units returns. -/
structure Answered (im : Image) (h : Heap) (live : List Nat) (n : Nat) (r : Option Nat) (h' : Heap) : Prop where
  same : ∀ q ∈ live, h'.mem q = h.mem q
  none : r = none → ∃ l', Inv im h' l' live
  some : ∀ ap, r = some ap → ∃ l' p, ap = p + 8 ∧ h'.size p = n ∧ Inv im h' l' (p :: live)

theorem Inv.live_ne (hi : Inv im h l live) (hq : q ∈ live) (hp : p ∈ l) {t : Nat} (hle : p ≤ t) (hlt : t < h.stop p) :
    q ≠ t := by
  have hapart := hi.apart p hp q hq
  have hpos := (hi.blocks q (mem_append_right _ hq)).pos
  unfold Apart Heap.stop at *
  omega

theorem Inv.live_ne_node (hi : Inv im h l live) (hq : q ∈ live) (hp : p ∈ im.base :: l) : q ≠ p := by
  rcases List.mem_cons.mp hp with rfl | hp
  · exact (Nat.ne_of_lt (im.base_lt (hi.blocks q (mem_append_right _ hq)).above)).symm
  · have hpos := (hi.blocks p (mem_append_left _ hp)).pos
    exact hi.live_ne hq hp (Nat.le_refl p) (by unfold Heap.stop; omega)

theorem take_wp {n fuel prevp : Nat} (hi : Inv im h l live) (hn : 0 < n) (hprev : prevp ∈ im.base :: l)
    (hp : h.next prevp = p) (hsize : n ≤ h.size p) :
    wp (look n (fuel + 1) prevp p) (Answered im h live n) E h := by
  subst hp
  obtain ⟨l₁, l₂, hl, hlast⟩ := hi.exists_split hprev (Nat.lt_of_lt_of_le hn hsize)
  generalize hp : h.next prevp = p at *
  have hpl : p ∈ l := by
    rw [hl]
    exact mem_append_right _ (mem_cons_self ..)
  have hplaced := hi.blocks p (mem_append_left _ hpl)
  have huser := hi.user
  have hbelow := hplaced.below
  unfold Heap.stop at hbelow
  simp only [KERNBASE] at huser
  rw [look, wp_bind, wp_load hplaced.mapped]
  dsimp only
  rw [if_pos hsize]
  by_cases heq : h.size p = n
  · rw [if_pos heq, wp_bind, wp_setPtr (hi.mapped hprev), wp_bind, setFreep, wp_modify]
    refine ⟨fun q hq => ?_, by rintro ⟨⟩, fun ap hap => ?_⟩
    · exact mem_set_of_ne (hi.live_ne_node hq hprev)
    · have hplus : plus p 1 = p + 8 := plus_eq (by omega)
      refine ⟨l₁ ++ l₂, p, ?_, ?_, inv_take hi hl hlast⟩
      · rw [← hplus]
        exact (Option.some.inj hap).symm
      · show (h.set prevp ⟨h.next p, h.size prevp⟩).size p = n
        rw [size_set_of_ne (by rw [← hlast]; exact hi.ne_lastOf hl)]
        exact heq
  · have hlt : n < h.size p := by omega
    have hplus : plus p (h.size p - n) = p + 8 * (h.size p - n) := plus_eq (by omega)
    have hmapped : h.Mapped (p + 8 * (h.size p - n)) := mapped_of_le (by omega)
    rw [if_neg heq, wp_bind, wp_setSize hplaced.mapped, hplus, wp_bind, wp_setSize (mapped_set.mpr hmapped),
      wp_bind, setFreep, wp_modify]
    generalize ht : p + 8 * (h.size p - n) = t at *
    have hne : p ≠ t := by omega
    have hmem : ∀ x y a, a ≠ p → a ≠ t → ((h.set p x).set t y).mem a = h.mem a := by
      intro x y a hap hat
      rw [mem_set_of_ne hat, mem_set_of_ne hap]
    refine ⟨fun q hq => ?_, by rintro ⟨⟩, fun ap hap => ⟨l, t, ?_, size_set_self, ?_⟩⟩
    · refine hmem _ _ q (hi.live_ne_node hq (mem_cons_of_mem _ hpl)) (hi.live_ne hq hpl (by omega) ?_)
      unfold Heap.stop
      omega
    · have hplus : plus t 1 = t + 8 := plus_eq (by omega)
      rw [← hplus]
      exact (Option.some.inj hap).symm
    · refine inv_split hi hl hn hlt ht.symm (hmem _ _) ?_ ?_ size_set_self rfl hprev
      · exact (next_set_of_ne hne).trans next_set_self
      · exact (size_set_of_ne hne).trans size_set_self

/-- One round of the search, from the node behind `prevp` to `freep`: it finds a block, or the last thing it does
is to ask for more. -/
theorem look_round {n fuel prevp : Nat} {r : List Nat} (hi : Inv im h l live) (hn : 0 < n)
    (hr : ∀ a ∈ prevp :: r, a ∈ im.base :: l) (hpath : Arc h.next prevp r h.freep) (hfreep : h.freep ∉ r)
    (hend : (∃ a ∈ r ++ [h.freep], n ≤ h.size a) ∨
      wp (do
        match ← morecore n with
        | none => pure none
        | some p => do
          let x ← load p
          look n fuel p x.ptr) (Answered im h live n) E h) :
    wp (look n (fuel + r.length + 1) prevp (h.next prevp)) (Answered im h live n) E h := by
  induction r generalizing prevp with
  | nil =>
    have hp : h.next prevp = h.freep := hpath
    rw [hp]
    by_cases hsize : n ≤ h.size h.freep
    · exact take_wp hi hn (hr prevp (mem_cons_self ..)) hp hsize
    · rw [look, wp_bind, wp_load (hi.mapped hi.freep)]
      dsimp only
      rw [if_neg hsize, wp_bind, wp_gets, if_pos rfl]
      refine hend.resolve_left fun ⟨a, ha, hle⟩ => ?_
      rw [nil_append, mem_singleton] at ha
      exact hsize (ha ▸ hle)
  | cons a r ih =>
    have hp : h.next prevp = a := hpath.1
    have ha : a ∈ im.base :: l := hr a (mem_cons_of_mem _ (mem_cons_self ..))
    have hne : a ≠ h.freep := fun heq => hfreep (heq ▸ mem_cons_self ..)
    rw [hp]
    by_cases hsize : n ≤ h.size a
    · exact take_wp hi hn (hr prevp (mem_cons_self ..)) hp hsize
    · rw [look, wp_bind, wp_load (hi.mapped ha)]
      dsimp only
      rw [if_neg hsize, wp_bind, wp_gets, if_neg hne, length_cons, ← Nat.add_assoc]
      refine ih (fun b hb => hr b (mem_cons_of_mem _ hb)) hpath.2 (fun hb => hfreep (mem_cons_of_mem _ hb)) ?_
      refine hend.imp_left fun ⟨b, hb, hle⟩ => ⟨b, ?_, hle⟩
      rw [cons_append, mem_cons] at hb
      exact hb.resolve_left fun heq => hsize (heq ▸ hle)

/-- The search from `freep` around the list. -/
theorem look_from_freep {n fuel : Nat} (hi : Inv im h l live) (hn : 0 < n) (hfuel : l.length < fuel)
    (hend : (∃ a ∈ l, n ≤ h.size a) ∨ ∀ rest, fuel ≤ rest + l.length + 1 →
      wp (do
        match ← morecore n with
        | none => pure none
        | some p => do
          let x ← load p
          look n rest p x.ptr) (Answered im h live n) E h) :
    wp (look n fuel h.freep (h.next h.freep)) (Answered im h live n) E h := by
  obtain ⟨r, hpath, hperm⟩ := hi.ring.rotate hi.freep
  have hlength := hperm.length_eq
  rw [length_cons, length_cons] at hlength
  have hfreep : h.freep ∉ r := (List.nodup_cons.mp (hperm.nodup_iff.mpr hi.nodup)).1
  rw [show fuel = (fuel - r.length - 1) + r.length + 1 by omega]
  refine look_round hi hn (fun a ha => hperm.mem_iff.mp ha) hpath hfreep ?_
  refine hend.imp (fun ⟨a, ha, hle⟩ => ⟨a, ?_, hle⟩) fun h => h _ (by omega)
  have hmem := hperm.mem_iff.mpr (mem_cons_of_mem _ ha)
  rw [mem_append, mem_singleton]
  exact (List.mem_cons.mp hmem).symm

theorem look_wp {n : Nat} (hi : Inv im h l live) (hn : 0 < n) (hsize : n * 8 < 2 ^ 31) :
    wp (look n rounds h.freep (h.next h.freep)) (Answered im h live n) E h := by
  have hlength := hi.length_lt
  refine look_from_freep hi hn (by simp only [rounds]; omega) (.inr fun rest hrest => ?_)
  rw [wp_bind]
  refine wp_imp (morecore_wp hi hsize) fun r h' hcases => ?_
  rcases hcases with ⟨rfl, rfl⟩ | ⟨l', hi', rfl, hsame, hfound⟩
  · exact ⟨fun _ _ => rfl, fun _ => ⟨l, hi⟩, by rintro _ ⟨⟩⟩
  · have hlength' := hi'.length_lt
    dsimp only
    rw [wp_bind, wp_load (hi'.mapped hi'.freep)]
    simp only [rounds] at hrest
    refine wp_imp (look_from_freep hi' hn (by omega) (.inl hfound)) fun r k hk => ?_
    exact ⟨fun q hq => (hk.same q hq).trans (hsame q hq), hk.none, hk.some⟩

/-- The list before the first call of `malloc`, or with it. -/
inductive Ready (im : Image) (h : Heap) : List Nat → Prop
  | unused (hfreep : h.freep = 0) (hgrown : im.size ≤ h.sz) (huser : h.sz < KERNBASE) : Ready im h []
  | listed {l live : List Nat} (hi : Inv im h l live) : Ready im h live

theorem inv_base (hgrown : im.size ≤ h.sz) (huser : h.sz < KERNBASE) :
    Inv im ((h.withFreep im.base).set im.base ⟨im.base, 0⟩) [] [] where
  ring := next_set_self
  sorted := pairwise_singleton ..
  freep := mem_cons_self ..
  base := size_set_self
  blocks := by simp
  apart := by simp
  live := .nil
  grown := hgrown
  user := huser

/-- The largest request for which the size in bytes is an `int`. -/
def largest : Nat := 2 ^ 31 - 16

theorem unitsOf_small {nbytes : Nat} (hle : nbytes ≤ largest) :
    nbytes ≤ 8 * (unitsOf nbytes - 1) ∧ unitsOf nbytes * 8 < 2 ^ 31 := by
  unfold unitsOf largest at *
  omega

theorem malloc_wp {nbytes : Nat} (hr : Ready im h live) (hle : nbytes ≤ largest) :
    wp (malloc im nbytes) (Answered im h live (unitsOf nbytes)) E h := by
  have hunits : 0 < unitsOf nbytes := Nat.succ_pos _
  rw [malloc, wp_bind, wp_gets]
  cases hr with
  | unused hfreep hgrown huser =>
    have hmapped : (h.withFreep im.base).Mapped im.base := mapped_of_le (Nat.le_trans im.fits hgrown)
    have hi := inv_base hgrown huser
    rw [if_pos hfreep, wp_bind, setFreep, wp_modify, wp_bind]
    show wp (setPtr im.base im.base) _ E (h.withFreep im.base)
    rw [wp_setPtr hmapped, wp_bind, wp_setSize (mapped_set.mpr hmapped), set_set, next_set_self]
    rw [wp_bind, wp_gets, wp_bind, wp_load (hi.mapped hi.freep)]
    refine wp_imp (look_wp hi hunits (unitsOf_small hle).2) fun r h' hk => ⟨by simp, hk.none, hk.some⟩
  | listed hi =>
    have hfreep : h.freep ≠ 0 := by
      have hpos := im.base_pos
      rcases List.mem_cons.mp hi.freep with heq | hmem
      · omega
      · have := im.base_lt (hi.blocks _ (mem_append_left _ hmem)).above
        omega
    rw [if_neg hfreep, wp_bind, wp_gets, wp_bind, wp_load (hi.mapped hi.freep)]
    exact look_wp hi hunits (unitsOf_small hle).2

/-! ## Runs -/

def State.headers (s : State) : List Nat := s.live.map fun b => b.ap - 8

structure Sound (im : Image) (s : State) : Prop where
  ready : Ready im s.heap s.headers
  usable : ∀ b ∈ s.live, 8 ≤ b.ap ∧ b.ap + b.nbytes ≤ s.heap.stop (b.ap - 8)

/-- The call that a label makes returns. -/
def Returns (im : Image) (s : State) : Label → Prop
  | .malloc nbytes room => ∃ r, malloc im nbytes { s.heap with room := room } = .ok r
  | .free b => b ∈ s.live → ∃ r, free b.ap s.heap = .ok r
  | .write .. => True

def Small : Label → Prop
  | .malloc nbytes _ => nbytes ≤ largest
  | _ => True

instance (l : Label) : Decidable (Small l) := by
  cases l <;> unfold Small <;> infer_instance

theorem Inv.perm {live' : List Nat} (hi : Inv im h l live) (hperm : live.Perm live') : Inv im h l live' where
  ring := hi.ring
  sorted := hi.sorted
  freep := hi.freep
  base := hi.base
  blocks p hp := hi.blocks p ((hperm.append_left l).mem_iff.mpr hp)
  apart p hp q hq := hi.apart p hp q (hperm.mem_iff.mpr hq)
  live := hperm.pairwise hi.live Apart.symm
  grown := hi.grown
  user := hi.user

theorem Inv.release (hi : Inv im h l (bp :: live)) : Inv im h l live ∧ Fresh im h l live bp := by
  obtain ⟨hbp, hlive⟩ := List.pairwise_cons.mp hi.live
  have hblocks : ∀ q ∈ l ++ live, q ∈ l ++ bp :: live := by
    intro q hq
    rw [mem_append, mem_cons]
    rw [mem_append] at hq
    tauto
  refine ⟨⟨hi.ring, hi.sorted, hi.freep, hi.base, fun q hq => hi.blocks q (hblocks q hq), fun p hp q hq => ?_, hlive,
    hi.grown, hi.user⟩, hi.blocks bp (mem_append_right _ (mem_cons_self ..)), fun q hq => ?_⟩
  · exact hi.apart p hp q (mem_cons_of_mem _ hq)
  · rcases List.mem_append.mp hq with hq | hq
    · exact (hi.apart q hq bp (mem_cons_self ..)).symm
    · exact hbp q hq

variable {s s' : State} {b : Block}

theorem State.mem_headers (hb : b ∈ s.live) : b.ap - 8 ∈ s.headers := mem_map_of_mem hb

theorem Ready.inv (hr : Ready im h live) (hq : q ∈ live) : ∃ l, Inv im h l live := by
  cases hr with
  | unused => cases hq
  | listed hi => exact ⟨_, hi⟩

theorem Ready.withRoom (hr : Ready im h live) (room : Bool) : Ready im { h with room := room } live := by
  cases hr with
  | unused hfreep hgrown huser => exact .unused hfreep hgrown huser
  | listed hi => exact .listed (hi.congr (fun _ _ => rfl) rfl (Nat.le_refl _) hi.user)

theorem Sound.below (hs : Sound im s) (hb : b ∈ s.live) : b.ap + b.nbytes ≤ s.heap.sz := by
  obtain ⟨l, hi⟩ := hs.ready.inv (State.mem_headers hb)
  exact Nat.le_trans (hs.usable b hb).2 (hi.blocks _ (mem_append_right _ (State.mem_headers hb))).below

theorem usable_same (husable : ∀ b ∈ s.live, 8 ≤ b.ap ∧ b.ap + b.nbytes ≤ s.heap.stop (b.ap - 8))
    (hsame : ∀ q ∈ s.headers, h'.mem q = s.heap.mem q) (hb : b ∈ s.live) :
    8 ≤ b.ap ∧ b.ap + b.nbytes ≤ h'.stop (b.ap - 8) := by
  have hmem := hsame _ (State.mem_headers hb)
  rw [Heap.stop, Heap.size, hmem]
  exact husable b hb

theorem malloc_sound {nbytes : Nat} {room : Bool} (hs : Sound im s) (hle : nbytes ≤ largest) :
    Returns im s (.malloc nbytes room) ∧ ∀ s', step im s (.malloc nbytes room) = some s' → Sound im s' := by
  obtain ⟨r, h', hcall, hk⟩ := wp_total (malloc_wp (hs.ready.withRoom room) hle)
  refine ⟨⟨_, hcall⟩, fun s' hstep => ?_⟩
  rw [step, if_pos (by unfold largest at hle; omega), hcall] at hstep
  have hold : ∀ b ∈ s.live, 8 ≤ b.ap ∧ b.ap + b.nbytes ≤ h'.stop (b.ap - 8) := fun b hb =>
    usable_same hs.usable hk.same hb
  cases r with
  | none =>
    cases hstep
    obtain ⟨l', hi⟩ := hk.none rfl
    exact ⟨.listed hi, hold⟩
  | some ap =>
    cases hstep
    obtain ⟨l', p, rfl, hsize, hi⟩ := hk.some ap rfl
    refine ⟨.listed hi, fun b hb => ?_⟩
    rcases List.mem_cons.mp hb with rfl | hb
    · have hunits := (unitsOf_small hle).1
      have hpos : 0 < unitsOf nbytes := Nat.succ_pos _
      show 8 ≤ p + 8 ∧ p + 8 + nbytes ≤ h'.stop (p + 8 - 8)
      rw [Nat.add_sub_cancel, Heap.stop, hsize]
      omega
    · exact hold b hb

theorem free_sound (hs : Sound im s) :
    Returns im s (.free b) ∧ ∀ s', step im s (.free b) = some s' → Sound im s' := by
  by_cases hb : b ∈ s.live
  · obtain ⟨l, hi⟩ := hs.ready.inv (State.mem_headers hb)
    have hperm : s.headers.Perm ((b.ap - 8) :: (s.live.erase b).map fun b => b.ap - 8) :=
      (perm_cons_erase hb).map _
    obtain ⟨hrest, hfresh⟩ := (hi.perm hperm).release
    have hap : b.ap - 8 + 8 = b.ap := Nat.sub_add_cancel (hs.usable b hb).1
    obtain ⟨u, h', hcall, l', hfreed⟩ := wp_total (free_wp hrest hfresh)
    rw [hap] at hcall
    refine ⟨fun _ => ⟨_, hcall⟩, fun s' hstep => ?_⟩
    rw [step, if_pos hb, hcall] at hstep
    cases hstep
    refine ⟨.listed hfreed.inv, fun c hc => ?_⟩
    have hmem := hfreed.same _ (mem_map_of_mem hc)
    rw [Heap.stop, Heap.size, hmem]
    exact hs.usable c (mem_of_mem_erase hc)
  · refine ⟨fun h => (hb h).elim, fun s' hstep => ?_⟩
    rw [step, if_neg hb] at hstep
    cases hstep

theorem write_sound {i : Nat} {x : Header} (hs : Sound im s) (hb : b ∈ s.live) (hi : 8 * i < b.nbytes) :
    Sound im { s with heap := s.heap.set (b.ap + 8 * i) x } := by
  have hheader := State.mem_headers hb
  have husable := hs.usable b hb
  obtain ⟨l, hinv⟩ := hs.ready.inv hheader
  have hsame : ∀ q ∈ im.base :: (l ++ s.headers), q ≠ b.ap + 8 * i := by
    intro q hq
    rcases List.mem_cons.mp hq with rfl | hq
    · have := im.base_lt (hinv.blocks _ (mem_append_right _ hheader)).above
      omega
    · by_cases heq : q = b.ap - 8
      · omega
      · have hapart : Apart s.heap q (b.ap - 8) := by
          rcases List.mem_append.mp hq with hq | hq
          · exact hinv.apart q hq _ hheader
          · exact hinv.live.forall hq hheader heq
        have hpos := (hinv.blocks q hq).pos
        unfold Apart Heap.stop at *
        omega
  refine ⟨.listed (hinv.congr (fun q hq => mem_set_of_ne (hsame q hq)) rfl (Nat.le_refl _) hinv.user), fun c hc => ?_⟩
  refine usable_same hs.usable (fun q hq => mem_set_of_ne (hsame q ?_)) hc
  exact mem_cons_of_mem _ (mem_append_right _ hq)

theorem step_sound {l : Label} (hs : Sound im s) (hl : Small l) (hstep : step im s l = some s') : Sound im s' := by
  cases l with
  | malloc nbytes room => exact (malloc_sound hs hl).2 s' hstep
  | free b => exact (free_sound hs).2 s' hstep
  | write b i x =>
    rw [step] at hstep
    split at hstep
    · next hb =>
      cases hstep
      exact write_sound hs hb.1 hb.2
    · cases hstep

theorem step_returns {l : Label} (hs : Sound im s) (hl : Small l) : Returns im s l := by
  cases l with
  | malloc nbytes room => exact (malloc_sound hs hl).1
  | free b => exact (free_sound hs).1
  | write => trivial

/-- In every run in which no request is larger than `largest`, the list and the blocks are as they should be in
every state, and every call returns: neither search goes on for ever, and no header is read or written where the
process has no memory. -/
theorem heap_is_sound (im : Image) (mem : Nat → Header) (ls : List Label)
    (hsmall : Along (step im) (fun _ l => Small l) (start im mem) ls) :
    Always (step im) (fun s => Sound im s ∧ ∀ b ∈ s.live, b.ap + b.nbytes ≤ s.heap.sz) (start im mem) ls ∧
      Along (step im) (Returns im) (start im mem) ls := by
  refine always_of_invariant (Sound im) (fun s l s' hs hl hstep => step_sound hs hl hstep)
    (fun s hs => ⟨hs, fun b hb => hs.below hb⟩) (fun s l hs hl => step_returns hs hl) ?_ hsmall
  exact ⟨.unused rfl (Nat.le_refl _) im.user, by simp [start]⟩

/-- A program of three pages, with `base` in the first. -/
def image : Image := ⟨1024, 12288, by decide, by decide, by decide, by decide⟩

/-- Two blocks from the tail of the first 32768 bytes; the first one is freed, and joined again with what follows
`base` when the second is. -/
def twoBlocks : List Label :=
  [.malloc 100 true, .malloc 20 true, .write ⟨44920, 20⟩ 1 ⟨7, 7⟩, .free ⟨44952, 100⟩, .free ⟨44920, 20⟩]

theorem heap_is_sound_twoBlocks :
    (run (step image) (start image fun _ => ⟨0, 0⟩) twoBlocks).map (fun s => (s.live, s.heap.mem 12288)) =
        some ([], ⟨1024, 4096⟩) ∧
      Always (step image) (fun s => Sound image s ∧ ∀ b ∈ s.live, b.ap + b.nbytes ≤ s.heap.sz)
        (start image fun _ => ⟨0, 0⟩) twoBlocks ∧
      Along (step image) (Returns image) (start image fun _ => ⟨0, 0⟩) twoBlocks :=
  ⟨by decide +kernel, heap_is_sound image _ twoBlocks (by decide +kernel)⟩

/-- `nbytes + sizeof(Header) - 1` wraps: a request of 2^32 - 1 bytes is one for a header alone, and `malloc` returns
the break, where the process has no memory. A request of `largest + 1` bytes asks the kernel for -2^31: the break
stays where it is, and `morecore` stores to what is behind it. -/
theorem malloc_overflows :
    (run (step image) (start image fun _ => ⟨0, 0⟩) [.malloc (2 ^ 32 - 1) true]).map (fun s => (s.live, s.heap.sz)) =
        some ([⟨45056, 2 ^ 32 - 1⟩], 45056) ∧
      errorOf (malloc image (largest + 1)) (start image fun _ => ⟨0, 0⟩).heap = some .fault := by
  decide +kernel

end Xv6.Umalloc
