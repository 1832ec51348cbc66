import Xv6.FsInodes

/- Blocks that are given back, and inodes that come and go.

   1. `itrunc` frees the slots of an inode one by one. `cleared S i D` are the slots when
      those of inode `i` in `D` have been freed, although the inode or its indirect block
      may still name them.
   2. `freeIfLast` in `iput`: the inode is on the disk without blocks and without a type.
   3. `ialloc` takes an inode that is not in use. -/
namespace Xv6.Fs
open Function List Bits ByteBlock Log Command Allocation

variable {Q : Unit → Kernel → Prop}
variable {s t : Kernel} {sb : Superblock} {e : Ip} {blk blk' blk'' : Nat → Blk} {d : Dinode} {T : Nat → Dinode}
  {i k : Nat}
  {S : Option (Nat × Nat) → Nat} {D D' : Nat → Bool}

/-! ## Slots that have been freed -/

/-- The slots, without those of inode `i` in `D`. -/
def cleared (S : Option (Nat × Nat) → Nat) (i : Nat) (D : Nat → Bool) : Option (Nat × Nat) → Nat
  | none => S none
  | some (i', k) => if i' = i ∧ D k = true then 0 else S (some (i', k))

theorem cleared_none (h : ∀ k, D k = false) : cleared S i D = S := by
  funext y
  rcases y with _ | ⟨i', k⟩
  · rfl
  · rw [cleared, if_neg (by simp [h k])]

theorem cleared_congr (h : ∀ k, S (some (i, k)) ≠ 0 → D' k = D k) : cleared S i D' = cleared S i D := by
  funext y
  rcases y with _ | ⟨i', k⟩
  · rfl
  · by_cases hi : i' = i
    · subst hi
      by_cases hk : S (some (i', k)) = 0
      · simp [cleared, hk]
      · simp [cleared, h k hk]
    · simp [cleared, hi]

theorem update_cleared (S : Option (Nat × Nat) → Nat) (i k : Nat) (D : Nat → Bool) :
    update (cleared S i D) (some (i, k)) 0 = cleared S i fun k' => D k' || decide (k' = k) := by
  funext y
  rw [update_apply]
  rcases y with _ | ⟨i', k'⟩
  · rfl
  · by_cases hi : i' = i
    · subst hi
      by_cases hk : k' = k
      · simp [cleared, hk]
      · simp [cleared, hk]
    · simp [cleared, hi]

/-- Only the free map has changed. -/
def MapOnly (sb : Superblock) (blk blk' : Nat → Blk) : Prop :=
  ∀ b, b < sb.bmapstart.toNat ∨ dataStart sb ≤ b → blk' b = blk b

theorem MapOnly.refl (sb : Superblock) (blk : Nat → Blk) : MapOnly sb blk blk := fun _ _ => rfl

theorem MapOnly.trans (h : MapOnly sb blk blk') (h' : MapOnly sb blk' blk'') : MapOnly sb blk blk'' :=
  fun b hb => (h' b hb).trans (h b hb)

/-- A slot is freed. -/
theorem runs_freeSlot {w : Word} (hv : Vol sb t.blk (cleared S i D)) (hsb : t.sb = sb)
    (hD : D k = false) (hw : S (some (i, k)) = w.toNat) (hne : w ≠ 0)
    (hQ : ∀ blk l, MapOnly sb t.blk blk → Vol sb blk (cleared S i fun k' => D k' || decide (k' = k)) →
      Q () { t with blk, logged := l }) : Runs False (bfree w) Q t := by
  have hslot : cleared S i D (some (i, k)) = w.toNat := by
    rw [cleared, if_neg (by simp [hD]), hw]
  have hslot' : cleared S i D (some (i, k)) ≠ 0 := by
    rw [hslot]
    exact toNat_ne_zero.mpr hne
  refine runs_bfree hv hsb hslot hne id ?_
  have hrange := hv.owned.range hslot'
  have hfree := hv.free hslot'
  rw [hslot] at hrange hfree
  rw [update_cleared] at hfree
  refine hQ _ _ (fun b hb => ?_) hfree
  have := hv.layout.bblock_bounds hrange.2
  exact update_of_ne (by omega) ..

/-! ## itrunc -/

/-- `t` is `s`, but for the free map and the addresses of the inode at `e`: those in `D` have been freed. -/
structure Freeing (sb : Superblock) (e : Ip) (i : Nat) (T : Nat → Dinode) (s : Kernel) (D : Nat → Bool) (t : Kernel) :
    Prop where
  map : MapOnly sb s.blk t.blk
  vol : Vol sb t.blk (cleared (slotsOf sb s.blk T 0) i D)
  rest : t = s.work e t.blk t.logged (t.inode e).d
  same : (t.inode e).d = { T i with addrs := (t.inode e).d.addrs }
  addr : ∀ k, k ≤ NDIRECT → (t.inode e).d.addr k = if D k = true then 0 else (T i).addr k

theorem Freeing.super (h : Freeing sb e i T s D t) : t.sb = s.sb := by
  rw [h.rest]
  rfl

theorem Freeing.start (hv : Vol sb s.blk (slotsOf sb s.blk T 0)) (he : (s.inode e).d = T i) (hD : ∀ k, D k = false) :
    Freeing sb e i T s D s where
  map := .refl sb s.blk
  vol := by
    rw [cleared_none hD]
    exact hv
  rest := (work_self s e).symm
  same := by rw [he]
  addr k _ := by rw [he, hD k, if_neg Bool.false_ne_true]

/-- The address has been set to 0, too. -/
theorem Freeing.clear (h : Freeing sb e i T s D t) (hk : k ≤ NDIRECT) {blk : Nat → Blk} {l : List Nat}
    (hmap : MapOnly sb t.blk blk)
    (hvol : Vol sb blk (cleared (slotsOf sb s.blk T 0) i fun k' => D k' || decide (k' = k))) :
    Freeing sb e i T s (fun k' => D k' || decide (k' = k)) (t.work e blk l ((t.inode e).d.setAddr k 0)) where
  map := h.map.trans hmap
  vol := hvol
  rest := by
    rw [work_inode]
    nth_rw 1 [h.rest]
    rw [work_work]
    rfl
  same := by
    rw [work_inode]
    nth_rw 1 [h.same]
    rfl
  addr k' hk' := by
    rw [work_inode]
    by_cases hkk : k' = k
    · subst hkk
      rw [Dinode.addr_setAddr_self _ _ (by omega)]
      simp
    · rw [Dinode.addr_setAddr_of_ne _ _ hkk, h.addr k' hk']
      simp [hkk]

theorem slotsOf_addr (blk : Nat → Blk) (hi : Allocated sb T i) (hk : k ≤ NDIRECT) :
    slotsOf sb blk T 0 (some (i, k)) = ((T i).addr k).toNat := by
  rw [slotsOf, if_pos hi, slot_direct hk]

theorem Freeing.more (h : Freeing sb e i T s D t) (hi : Allocated sb T i) (hD : ∀ k, D k = true → D' k = true)
    (hD' : ∀ k, D' k = true → D k = true ∨ slotsOf sb s.blk T 0 (some (i, k)) = 0) : Freeing sb e i T s D' t where
  map := h.map
  vol := by
    rw [cleared_congr (D := D)]
    · exact h.vol
    · intro k hk
      cases hDk : D k with
      | true => exact hD k hDk
      | false =>
        refine Bool.eq_false_iff.mpr fun hDk' => ?_
        rcases hD' k hDk' with htrue | hzero
        · exact Bool.false_ne_true (hDk.symm.trans htrue)
        · exact hk hzero
  rest := h.rest
  same := h.same
  addr k hk := by
    rw [h.addr k hk]
    cases hDk : D k with
    | true => rw [hD k hDk]
    | false =>
      rw [if_neg Bool.false_ne_true]
      split
      · rename_i hDk'
        rcases hD' k hDk' with htrue | hzero
        · exact absurd (hDk.symm.trans htrue) Bool.false_ne_true
        · by_contra hne
          rw [slotsOf_addr s.blk hi hk] at hzero
          exact toNat_ne_zero.mpr hne hzero
      · rfl

theorem Freeing.skip (h : Freeing sb e i T s D t) (hi : Allocated sb T i)
    (hk : slotsOf sb s.blk T 0 (some (i, k)) = 0) :
    Freeing sb e i T s (fun k' => D k' || decide (k' = k)) t := by
  refine h.more hi (fun k' hk' => by simp [hk']) fun k' hk' => ?_
  rw [Bool.or_eq_true, decide_eq_true_iff] at hk'
  refine hk'.imp_right fun heq => ?_
  rw [heq]
  exact hk

theorem Freeing.entry (h : Freeing sb e i T s D t) (hk : NDIRECT < k) {blk : Nat → Blk} {l : List Nat}
    (hmap : MapOnly sb t.blk blk)
    (hvol : Vol sb blk (cleared (slotsOf sb s.blk T 0) i fun k' => D k' || decide (k' = k))) :
    Freeing sb e i T s (fun k' => D k' || decide (k' = k)) { t with blk, logged := l } where
  map := h.map.trans hmap
  vol := hvol
  rest := congrArg (fun u : Kernel => { u with blk, logged := l }) h.rest
  same := h.same
  addr k' hk' := by
    have hne : k' ≠ k := by omega
    simp only [h.addr k' hk', hne, decide_false, Bool.or_false]

theorem Freeing.congr (h : Freeing sb e i T s D t) (hD : ∀ k, D' k = D k) : Freeing sb e i T s D' t :=
  (funext hD : D' = D) ▸ h

theorem runs_freeDirect (h : Freeing sb e i T s D t) (hsb : s.sb = sb) (hi : Allocated sb T i)
    (hk : k < NDIRECT) (hD : D k = false)
    (hQ : ∀ u, Freeing sb e i T s (fun k' => D k' || decide (k' = k)) u → Q () u) :
    Runs False (freeDirect e k) Q t := by
  refine .seq (runs_getInode ?_)
  have haddr := h.addr k (Nat.le_of_lt hk)
  rw [hD, if_neg Bool.false_ne_true] at haddr
  rw [haddr]
  have hslot := slotsOf_addr s.blk hi (Nat.le_of_lt hk)
  refine .ite (fun hzero => runs_pure (hQ t (h.skip hi ?_))) fun hne => .seq ?_
  · rw [hslot, hzero]
    rfl
  · refine runs_freeSlot h.vol (h.super.trans hsb) hD hslot hne fun blk l hmap hvol => runs_editInode ?_
    exact hQ _ (h.clear (Nat.le_of_lt hk) hmap hvol)

theorem runs_freeDirects (hv : Vol sb s.blk (slotsOf sb s.blk T 0)) (hsb : s.sb = sb) (hi : Allocated sb T i)
    (he : (s.inode e).d = T i) : Runs False (each (freeDirect e) (range NDIRECT))
      (fun _ t => Freeing sb e i T s (fun k => decide (k < NDIRECT)) t) s := by
  -- what is left to do: the slots of the list
  let Inv (l : List Nat) (t : Kernel) : Prop :=
    l.Nodup ∧ (∀ k ∈ l, k < NDIRECT) ∧ Freeing sb e i T s (fun k => decide (k < NDIRECT ∧ k ∉ l)) t
  have hinit : Inv (range NDIRECT) s := by
    refine ⟨nodup_range, fun k hk => List.mem_range.mp hk, .start hv he fun k => ?_⟩
    rw [decide_eq_false_iff_not, mem_range]
    omega
  refine Runs.imp (runs_each Inv ?_ hinit) fun _ t ht => ht.2.2.congr fun k => by simp
  rintro k l t - ⟨hnodup, hlt, ht⟩
  obtain ⟨hk, hl⟩ := List.nodup_cons.mp hnodup
  have hklt := hlt k (mem_cons_self ..)
  refine runs_freeDirect ht hsb hi hklt (by simp) fun u hu => ⟨hl, fun k' hk' => hlt k' (mem_cons_of_mem _ hk'), ?_⟩
  refine hu.congr fun k' => ?_
  by_cases hkk : k' = k
  · subst hkk
    simp [hk, hklt]
  · simp [hkk]

theorem slotsOf_entry (blk : Nat → Blk) (hi : Allocated sb T i) (hind : (T i).addr NDIRECT ≠ 0) {j : Nat}
    (hj : j < NINDIRECT) :
    slotsOf sb blk T 0 (some (i, NDIRECT + 1 + j)) = (addrAt (blk ((T i).addr NDIRECT).toNat) j).toNat := by
  rw [slotsOf, if_pos hi, slot_entry hj hind]

/-- The slots of the entries from the list on are still to be freed. -/
def beyond (l : List Nat) (k : Nat) : Bool := decide (k ≠ NDIRECT ∧ k ≤ MAXFILE ∧ ∀ j ∈ l, k ≠ NDIRECT + 1 + j)

/-- The second loop, over the entries of the indirect block, which is locked. -/
theorem runs_freeEntries (hsb : s.sb = sb) (hi : Allocated sb T i) (hind : (T i).addr NDIRECT ≠ 0)
    (hdata : dataStart sb ≤ ((T i).addr NDIRECT).toNat) (ht : Freeing sb e i T s (fun k => decide (k < NDIRECT)) t) :
    Runs False (each (freeEntry ((T i).addr NDIRECT).toNat) (range NINDIRECT))
      (fun _ u => ∃ v, u = v.hold ((T i).addr NDIRECT).toNat ∧
        Freeing sb e i T s (fun k => decide (k ≠ NDIRECT ∧ k ≤ MAXFILE)) v) (t.hold ((T i).addr NDIRECT).toNat) := by
  let Inv (l : List Nat) (u : Kernel) : Prop :=
    l.Nodup ∧ (∀ j ∈ l, j < NINDIRECT) ∧ ∃ v, u = v.hold ((T i).addr NDIRECT).toNat ∧ Freeing sb e i T s (beyond l) v
  have hinit : Inv (range NINDIRECT) (t.hold ((T i).addr NDIRECT).toNat) := by
    refine ⟨nodup_range, fun j hj => List.mem_range.mp hj, t, rfl, ht.congr fun k => ?_⟩
    rw [beyond, decide_eq_decide]
    constructor
    · rintro ⟨hne, hle, hall⟩
      by_contra hge
      refine hall (k - NDIRECT - 1) (List.mem_range.mpr ?_) ?_ <;> simp only [MAXFILE, NDIRECT,
        NINDIRECT] at * <;> omega
    · intro hlt
      simp only [MAXFILE, NDIRECT, NINDIRECT] at *
      refine ⟨by omega, by omega, fun j _ => by omega⟩
  refine Runs.imp (runs_each Inv ?_ hinit) fun _ u hu => ?_
  · rintro j l u - ⟨hnodup, hlt, v, rfl, hv⟩
    obtain ⟨hj, hl⟩ := List.nodup_cons.mp hnodup
    have hjlt := hlt j (mem_cons_self ..)
    have hlt' : ∀ j' ∈ l, j' < NINDIRECT := fun j' hj' => hlt j' (mem_cons_of_mem _ hj')
    have hslot := slotsOf_entry s.blk hi hind hjlt
    have hread : v.blk ((T i).addr NDIRECT).toNat = s.blk ((T i).addr NDIRECT).toNat := hv.map _ (.inr hdata)
    have hdone : ∀ k, beyond l k = (beyond (j :: l) k || decide (k = NDIRECT + 1 + j)) := by
      intro k
      by_cases hk : k = NDIRECT + 1 + j
      · subst hk
        have hall : ∀ j' ∈ l, NDIRECT + 1 + j ≠ NDIRECT + 1 + j' := by
          intro j' hj' heq
          obtain rfl : j = j' := by omega
          exact hj hj'
        have : NDIRECT + 1 + j ≠ NDIRECT ∧ NDIRECT + 1 + j ≤ MAXFILE := by
          simp only [MAXFILE]
          omega
        rw [decide_eq_true rfl, Bool.or_true, beyond, decide_eq_true_iff]
        exact ⟨this.1, this.2, hall⟩
      · simp [beyond, hk]
    refine .seq (runs_gets ?_)
    change Runs False (if addrAt (v.blk ((T i).addr NDIRECT).toNat) j = 0 then pure ()
      else bfree (addrAt (v.blk ((T i).addr NDIRECT).toNat) j)) _ _
    rw [hread]
    refine .ite (fun hzero => runs_pure ⟨hl, hlt', v, rfl, ?_⟩) fun hne => ?_
    · refine (hv.skip hi ?_).congr hdone
      rw [hslot, hzero]
      rfl
    · refine runs_freeSlot (t := v.hold ((T i).addr NDIRECT).toNat) hv.vol (hv.super.trans hsb) ?_ hslot hne
        fun blk l' hmap hvol => ⟨hl, hlt', { v with blk, logged := l' }, rfl,
        (hv.entry (by omega) hmap hvol).congr hdone⟩
      simp [beyond]
  · obtain ⟨-, -, v, hv, hfree⟩ := hu
    exact ⟨v, hv, hfree.congr fun k => by simp [beyond]⟩

theorem runs_freeIndirect (hv : Vol sb s.blk (slotsOf sb s.blk T 0)) (hsb : s.sb = sb)
    (hi : Allocated sb T i) (ht : Freeing sb e i T s (fun k => decide (k < NDIRECT)) t)
    (hQ : ∀ u, Freeing sb e i T s (fun _ => true) u → Q () u) : Runs False (freeIndirect e) Q t := by
  have haddr := ht.addr NDIRECT (le_refl _)
  rw [decide_eq_false (Nat.lt_irrefl _), if_neg Bool.false_ne_true] at haddr
  refine .seq (runs_getInode ?_)
  rw [haddr]
  refine .ite (fun hzero => runs_pure (hQ t (ht.more hi (fun _ _ => rfl) fun k _ => ?_))) fun hne => .seq ?_
  · rw [decide_eq_true_iff]
    refine (Nat.lt_or_ge k NDIRECT).imp_right fun hge => ?_
    rw [slotsOf, if_pos hi]
    rcases Nat.eq_or_lt_of_le hge with rfl | hgt
    · rw [slot_direct (le_refl _), hzero]
      rfl
    · rw [slot, if_neg (by omega), if_neg (by simp [hzero])]
  · have hslot := slotsOf_addr s.blk hi (le_refl NDIRECT)
    have hdata := (hv.owned.range (k := some (i, NDIRECT)) (by rw [hslot]; exact toNat_ne_zero.mpr hne)).1
    rw [hslot] at hdata
    refine runs_bread False.elim (.seq ((runs_freeEntries hsb hi hne hdata ht).imp ?_))
    rintro _ _ ⟨v, rfl, hfree⟩
    refine .seq (runs_brelse (.seq ?_))
    refine runs_freeSlot hfree.vol (hfree.super.trans hsb) (by simp) hslot hne fun blk l hmap hvol => runs_editInode
      (hQ _ ?_)
    refine (hfree.clear (le_refl _) hmap hvol).more hi (fun _ _ => rfl) fun k _ => ?_
    rcases Nat.lt_or_ge MAXFILE k with hgt | hle
    · refine .inr ?_
      rw [slotsOf, if_pos hi, slot, if_neg (by simp only [MAXFILE] at hgt; omega), if_neg (by omega)]
    · refine .inl ?_
      by_cases hk : k = NDIRECT
      · simp [hk]
      · simp [hk, hle]

/-! ## Inodes without blocks -/

def Bare (d : Dinode) : Prop := ∀ k, k ≤ NDIRECT → d.addr k = 0

theorem Bare.slot (h : Bare d) (k : Nat) : slot blk d k = 0 := by
  by_cases hk : k ≤ NDIRECT
  · rw [slot_direct hk, h k hk]
    rfl
  · rw [Fs.slot, if_neg hk, if_neg (by simp [h NDIRECT (le_refl _)])]

theorem Bare.sized (h : Bare d) (hsize : d.size = 0) : Sized blk d := by
  refine ⟨?_, fun bn _ => ?_⟩
  · rw [hsize]
    exact Nat.zero_le _
  · rw [index, h.slot, hsize]
    simp

/-- The blocks of inode `i` have been freed, and it is written back without any. -/
theorem WellFormed.emptied (hwf : WellFormed sb blk) (hlt : i < sb.ninodes.toNat) (hmap : MapOnly sb blk blk')
    (hvol : Vol sb blk' (cleared (slotsOf sb blk (dinodeOf sb blk) 0) i fun _ => true)) (hbare : Bare d)
    (hsize : d.size = 0) :
    WellFormed sb (saveBlk sb blk' i d) ∧ Elsewhere sb i blk (saveBlk sb blk' i d) ∧
      dinodeOf sb (saveBlk sb blk' i d) i = d := by
  have hl := hwf.vol.layout
  have hblock := hl.iblock_bounds hlt
  have hstart := hl.bmapstart_lt
  have hT : ∀ i', i' < sb.ninodes.toNat →
      dinodeOf sb (saveBlk sb blk' i d) i' = if i' = i then d else dinodeOf sb blk i' := by
    intro i' hi'
    have hsame : dinodeOf sb blk' i' = dinodeOf sb blk i' := by
      rw [dinodeOf, dinodeOf, hmap _ (.inl (hl.iblock_bounds hi').2)]
    rw [← hsame]
    exact dinodeOf_putDinode hl hlt hi' d
  have hself : dinodeOf sb (saveBlk sb blk' i d) i = d := by rw [hT i hlt, if_pos rfl]
  have hkept : ∀ i', Allocated sb (dinodeOf sb blk) i' → Kept blk (saveBlk sb blk' i d) (dinodeOf sb blk i') := by
    intro i' hi' k hk
    have hname : slotsOf sb blk (dinodeOf sb blk) 0 (some (i', k)) = slot blk (dinodeOf sb blk i') k := if_pos hi'
    have hrange := hwf.vol.owned.range (k := some (i', k)) (by rw [hname]; exact hk)
    rw [hname] at hrange
    rw [saveBlk, update_of_ne (by omega), hmap _ (.inr hrange.1)]
  have hslots : slotsOf sb (saveBlk sb blk' i d) (dinodeOf sb (saveBlk sb blk' i d)) 0 =
      cleared (slotsOf sb blk (dinodeOf sb blk) 0) i fun _ => true := by
    funext y
    rcases y with _ | ⟨i', k⟩
    · rfl
    by_cases hi : i' = i
    · subst hi
      rw [cleared, if_pos ⟨rfl, rfl⟩, slotsOf, hself, hbare.slot, ite_self]
    · rw [cleared, if_neg (fun h => hi h.1)]
      by_cases halloc : Allocated sb (dinodeOf sb blk) i'
      · have halloc' : Allocated sb (dinodeOf sb (saveBlk sb blk' i d)) i' := by
          rw [Allocated, hT i' halloc.2.1, if_neg hi]
          exact halloc
        rw [slotsOf, slotsOf, if_pos halloc, if_pos halloc', hT i' halloc.2.1, if_neg hi, (hkept i' halloc).slot]
      · have halloc' : ¬Allocated sb (dinodeOf sb (saveBlk sb blk' i d)) i' := by
          rintro ⟨hpos, hlt', htype⟩
          rw [hT i' hlt', if_neg hi] at htype
          exact halloc ⟨hpos, hlt', htype⟩
        rw [slotsOf, slotsOf, if_neg halloc, if_neg halloc']
  refine ⟨⟨?_, fun i' hi' htype => ?_⟩, fun i' hne hlt' => ?_, hself⟩
  · rw [hslots]
    exact hvol.store hblock.1 (.inl hblock.2) _
  · by_cases hi : i' = i
    · subst hi
      rw [hself]
      exact hbare.sized hsize
    · rw [Allocated, hT i' hi'.2.1, if_neg hi] at hi'
      rw [hT i' hi'.2.1, if_neg hi] at htype ⊢
      exact (hkept i' hi').sized (hwf.sized i' hi' htype)
  · rw [hT i' hlt', if_neg hne]
    exact ⟨rfl, fun hi' htype => (hkept i' hi').contents (hwf.sized i' hi' htype)⟩

/-- An inode without blocks is written to its place, where none was in use with blocks. -/
theorem WellFormed.replace (hwf : WellFormed sb blk) (hlt : i < sb.ninodes.toNat)
    (hold : ∀ k, slotsOf sb blk (dinodeOf sb blk) 0 (some (i, k)) = 0) (hbare : Bare d) (hsize : d.size = 0) :
    WellFormed sb (saveBlk sb blk i d) ∧ Elsewhere sb i blk (saveBlk sb blk i d) ∧
      dinodeOf sb (saveBlk sb blk i d) i = d := by
  refine hwf.emptied hlt (.refl sb blk) ?_ hbare hsize
  rw [cleared_congr (D := fun _ => false) fun k hk => absurd (hold k) hk, cleared_none fun _ => rfl]
  exact hwf.vol

/-- `itrunc` leaves an inode without blocks. -/
theorem runs_itrunc (hwf : WellFormed sb s.blk) (hsb : s.sb = sb)
    (hi : Allocated sb (dinodeOf sb s.blk) i) (hinum : (s.inode e).inum.toNat = i)
    (he : (s.inode e).d = dinodeOf sb s.blk i)
    (hQ : ∀ blk l d, WellFormed sb blk → Elsewhere sb i s.blk blk → dinodeOf sb blk i = d → Bare d → d.size = 0 →
      Q () (s.work e blk l d)) : Runs False (itrunc e) Q s := by
  refine .seq ((runs_freeDirects hwf.vol hsb hi he).imp fun _ t ht => .seq ?_)
  refine runs_freeIndirect hwf.vol hsb hi ht fun u hu => .seq (runs_editInode ?_)
  have hbare : Bare { (u.inode e).d with size := 0 } := fun k hk => (hu.addr k hk).trans (if_pos rfl)
  rw [hu.rest, work_inode, work_work]
  refine runs_iupdate (K := 0) (W := ∅) hwf.vol.layout hsb ?_ hi.2.1 work_inode False.elim fun l _ _ => ?_
  · simp only [Kernel.work, update_self]
    exact hinum
  · rw [work_work]
    obtain ⟨hwf', helse, hself⟩ := hwf.emptied hi.2.1 hu.map hu.vol hbare rfl
    exact hQ _ l _ hwf' helse hself hbare rfl

/-- The reference is the last one to an inode without links, which is freed, or it is not. -/
theorem runs_freeIfLast (hwf : WellFormed sb s.blk) (hsb : s.sb = sb)
    (hi : (s.inode e).valid = true → (s.inode e).ref = 1 → Allocated sb (dinodeOf sb s.blk) i ∧
      (s.inode e).inum.toNat = i ∧
      (s.inode e).d = dinodeOf sb s.blk i)
    (hkeep : s.keeps e → Q () s)
    (hfree : (s.inode e).ref = 1 → (dinodeOf sb s.blk i).nlink = 0 → ∀ blk l d, WellFormed sb blk →
      Elsewhere sb i s.blk blk →
      (dinodeOf sb blk i).type = 0 → Q ()
    ((s.work e blk l d).setInode e { (s.work e blk l d).inode e with valid := false })) :
    Runs False (freeIfLast e) Q s := by
  refine .seq (runs_getInode (.ite (fun hlast => .seq ?_) fun hkeeps => runs_pure (hkeep hkeeps)))
  obtain ⟨hvalid, hnlink, href⟩ := hlast
  obtain ⟨halloc, hinum, he⟩ := hi hvalid href
  rw [he] at hnlink
  refine runs_itrunc hwf hsb halloc hinum he fun blk l d hwf₁ helse₁ hself₁ hbare hsize => ?_
  refine .seq (runs_editInode (.seq ?_))
  rw [work_inode, work_work]
  refine runs_iupdate (K := 0) (W := ∅) hwf.vol.layout hsb ?_ halloc.2.1 work_inode False.elim fun l' _ _ => ?_
  · simp only [Kernel.work, update_self]
    exact hinum
  rw [work_work]
  have hold : ∀ k, slotsOf sb blk (dinodeOf sb blk) 0 (some (i, k)) = 0 := by
    intro k
    rw [slotsOf, hself₁, hbare.slot, ite_self]
  obtain ⟨hwf₂, helse₂, hself₂⟩ := hwf₁.replace (d := { d with type := 0 }) halloc.2.1 hold hbare hsize
  exact runs_setValid (hfree href hnlink _ l' _ hwf₂ (helse₁.trans helse₂) (congrArg Dinode.type hself₂))

/-! ## A new inode -/

/-- The loop of `ialloc` from inode `n` on. -/
theorem runs_iallocFrom {Q : Ip → Kernel → Prop} {dev : Word} {type : Half} {fuel n : Nat} (hwf : WellFormed sb s.blk)
    (hsb : s.sb = sb) (hn : 1 ≤ n)
    (hQ : ∀ i blk l e t, 1 ≤ i → i < sb.ninodes.toNat → (dinodeOf sb s.blk i).type = 0 → WellFormed sb blk →
      Elsewhere sb i s.blk blk → dinodeOf sb blk i = { Dinode.zero with type } →
      Got { s with blk, logged := l } dev (BitVec.ofNat 32 i) e t → Q e t) :
    Runs False (iallocFrom dev type fuel n) Q s := by
  induction fuel generalizing n with
  | zero => exact runs_fail id (by rintro ⟨⟩)
  | succ fuel ih =>
    refine .seq (runs_gets ?_)
    rw [hsb]
    refine .ite (fun hlt => .seq ?_) fun _ => runs_fail id (by rintro ⟨⟩)
    refine runs_bread False.elim (.seq (runs_gets (.ite (fun hfree => ?_) fun _ => .seq ?_)))
    · have hfree : (dinodeOf sb s.blk n).type = 0 := hfree
      refine runs_store False.elim (.seq (runs_brelse ?_))
      have hold : ∀ k, slotsOf sb s.blk (dinodeOf sb s.blk) 0 (some (n, k)) = 0 := fun k => if_neg fun h => h.2.2 hfree
      have hbare : Bare { Dinode.zero with type } := by
        intro k hk
        simp [Dinode.addr, Dinode.zero]
      obtain ⟨hwf', helse, hself⟩ := hwf.replace (d := { Dinode.zero with type }) hlt hold hbare rfl
      exact runs_iget False.elim fun e t hg => hQ n _ _ e t hn hlt hfree hwf' helse hself hg
    · exact runs_brelse (ih (by omega))

theorem runs_ialloc {Q : Ip → Kernel → Prop} {dev : Word} {type : Half} (hwf : WellFormed sb s.blk) (hsb : s.sb = sb)
    (hQ : ∀ i blk l e t, 1 ≤ i → i < sb.ninodes.toNat → (dinodeOf sb s.blk i).type = 0 → WellFormed sb blk →
      Elsewhere sb i s.blk blk → dinodeOf sb blk i = { Dinode.zero with type } →
      Got { s with blk, logged := l } dev (BitVec.ofNat 32 i) e t → Q e t) : Runs False (ialloc dev type) Q s :=
  .seq (runs_gets (runs_iallocFrom hwf hsb (le_refl 1) hQ))

end Xv6.Fs
