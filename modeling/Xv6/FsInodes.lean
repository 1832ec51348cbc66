import Xv6.FsContent
import Xv6.FsRefs

/- The inode cache against the disk.

   1. `iget` finds the inode or takes a place that is not in use (`Got`), `iput` that
      frees nothing takes one reference back; one after the other they leave the tables
      as they were, but for a place that is not in use (`AsBefore`).
   2. The cache is coherent (`Cache`): a valid copy is what is on the disk. `ilock` reads the
      inode if its copy is not valid.
   3. An inode is edited and written back with the blocks it had. -/
namespace Xv6.Fs
open Bits ByteBlock Log Command Allocation

variable {P : Prop} {s t u : Kernel} {sb : Superblock} {e e' : Ip} {blk blk' : Nat → Blk} {d : Dinode} {i : Nat}
  {dev inum : Word}

/-! ## References -/

@[simp] theorem setInode_self (s : Kernel) (e : Ip) : s.setInode e (s.inode e) = s := by
  simp [Kernel.setInode]

@[simp] theorem setInode_setInode (s : Kernel) (e : Ip) (x y : Inode) :
    (s.setInode e x).setInode e y = s.setInode e y := by
  simp [Kernel.setInode]

@[simp] theorem setInode_inode_self (s : Kernel) (e : Ip) (x : Inode) : (s.setInode e x).inode e = x :=
  Function.update_self ..

theorem setInode_inode_of_ne (s : Kernel) (x : Inode) (hne : e' ≠ e) : (s.setInode e x).inode e' = s.inode e' :=
  Function.update_of_ne hne ..

def Caches (s : Kernel) (dev inum : Word) (e : Ip) : Prop :=
  0 < (s.inode e).ref ∧ (s.inode e).dev = dev ∧ (s.inode e).inum = inum

instance : Decidable (Caches s dev inum e) := inferInstanceAs (Decidable (_ ∧ _ ∧ _))

/-- There is a place for the inode. -/
def Cacheable (s : Kernel) (dev inum : Word) : Prop := ∃ e, Caches s dev inum e ∨ (s.inode e).ref = 0

inductive Got (s : Kernel) (dev inum : Word) (e : Ip) : Kernel → Prop
  | hit (hcached : Caches s dev inum e) :
    Got s dev inum e (s.setInode e { s.inode e with ref := (s.inode e).ref + 1 })
  | miss (hfree : (s.inode e).ref = 0) (hnone : ∀ e', ¬Caches s dev inum e') :
    Got s dev inum e (s.setInode e { s.inode e with dev, inum, ref := 1, valid := false })

theorem runs_iget {Q : Ip → Kernel → Prop} (hP : P → Cacheable s dev inum)
    (hQ : ∀ e t, Got s dev inum e t → Q e t) : Runs P (iget dev inum) Q s := by
  refine .seq (runs_gets ?_)
  dsimp only [id]
  split
  · rename_i e hfind
    have hcached : decide (Caches s dev inum e) = true :=
      List.find?_some (p := fun e => decide (Caches s dev inum e)) hfind
    exact hQ e _ (.hit (of_decide_eq_true hcached))
  · rename_i hnone
    have hnone : ∀ e, ¬Caches s dev inum e := fun e =>
      of_decide_eq_false (Bool.eq_false_iff.mpr (List.find?_eq_none.mp hnone e (List.mem_finRange e)))
    split
    · rename_i e hfind
      have hfree : decide ((s.inode e).ref = 0) = true :=
        List.find?_some (p := fun e => decide ((s.inode e).ref = 0)) hfind
      exact hQ e _ (.miss (of_decide_eq_true hfree) hnone)
    · rename_i hfull
      refine runs_fail (fun hp => ?_) (by rintro ⟨⟩)
      obtain ⟨e, hcached | hfree⟩ := hP hp
      · exact hnone e hcached
      · exact List.find?_eq_none.mp hfull e (List.mem_finRange e) (decide_eq_true hfree)

/-- The reference is not the last one to an inode without links. -/
def Kernel.keeps (s : Kernel) (e : Ip) : Prop :=
  ¬((s.inode e).valid = true ∧ (s.inode e).d.nlink = 0 ∧ (s.inode e).ref = 1)

theorem runs_setInode {Q : Unit → Kernel → Prop} {x : Inode} (hQ : Q () (s.setInode e x)) :
    Runs P (setInode e x) Q s := hQ

theorem runs_setValid {Q : Unit → Kernel → Prop} {valid : Bool} (hQ : Q () (s.setInode e { s.inode e with valid })) :
    Runs P (setValid e valid) Q s := hQ

theorem runs_acquireInode {Q : Unit → Kernel → Prop} (hP : P → (s.inode e).lock = false)
    (hQ : (s.inode e).lock = false → Q () (s.setInode e { s.inode e with lock := true })) :
    Runs P (acquireInode e) Q s := by
  refine .seq (runs_getInode (.ite (fun hlock => ?_) fun hlock => runs_setInode (hQ (Bool.eq_false_iff.mpr hlock))))
  exact runs_fail (fun hp => Bool.false_ne_true ((hP hp).symm.trans hlock)) nofun

theorem runs_releaseInode {Q : Unit → Kernel → Prop}
    (hQ : Q () (s.setInode e { s.inode e with lock := false })) : Runs P (releaseInode e) Q s :=
  .seq (runs_getInode (runs_setInode hQ))

theorem runs_iput_keeps {Q : Unit → Kernel → Prop} (hkeeps : s.keeps e) (hP : P → (s.inode e).lock = false)
    (hQ : (s.inode e).lock = false → Q () (s.setInode e { s.inode e with ref := (s.inode e).ref - 1 })) :
    Runs P (iput e) Q s := by
  refine .seq (runs_acquireInode hP fun hlock => .seq (.seq (runs_getInode (.ite (fun hlast => ?_) fun _ => ?_))))
  · rw [setInode_inode_self] at hlast
    exact absurd hlast hkeeps
  · refine runs_pure (.bind (Q := fun _ t => t = s.setInode e { s.inode e with lock := false })
      (runs_releaseInode ?_) fun _ t ht => ?_)
    · rw [setInode_inode_self, setInode_setInode]
    · subst ht
      refine .seq (runs_getInode (runs_setInode ?_))
      rw [setInode_inode_self, setInode_setInode]
      have := hQ hlock
      rw [← hlock]
      exact this

/-- The tables are as they were, but for places that are not in use. -/
structure AsBefore (s t : Kernel) : Prop where
  rest : { t with inode := s.inode } = s
  inode : ∀ e, t.inode e = s.inode e ∨ (s.inode e).ref = 0 ∧ (t.inode e).ref = 0

theorem AsBefore.refl (s : Kernel) : AsBefore s s := ⟨rfl, fun _ => .inl rfl⟩

theorem Got.keeps (hg : Got s dev inum e t) : t.keeps e := by
  cases hg with
  | hit hcached =>
    rintro ⟨-, -, hlast⟩
    rw [setInode_inode_self] at hlast
    have hlast : (s.inode e).ref + 1 = 1 := hlast
    have := hcached.1
    omega
  | miss hfree hnone =>
    rintro ⟨hvalid, -, -⟩
    rw [setInode_inode_self] at hvalid
    cases hvalid

theorem Got.asBefore (hg : Got s dev inum e t) :
    AsBefore s (t.setInode e { t.inode e with ref := (t.inode e).ref - 1 }) := by
  cases hg with
  | hit hcached =>
    rw [setInode_inode_self, setInode_setInode]
    simp only [Int.add_sub_cancel]
    exact (setInode_self s e).symm ▸ .refl s
  | miss hfree hnone =>
    rw [setInode_inode_self, setInode_setInode]
    refine ⟨rfl, fun e' => ?_⟩
    by_cases he : e' = e
    · subst he
      rw [setInode_inode_self]
      exact .inr ⟨hfree, rfl⟩
    · rw [setInode_inode_of_ne s _ he]
      exact .inl rfl

theorem Got.lock (hg : Got s dev inum e t) : (t.inode e).lock = (s.inode e).lock := by
  cases hg <;> rw [setInode_inode_self]

theorem Got.disk (hg : Got s dev inum e t) : t.blk = s.blk := by
  cases hg <;> rfl

theorem Got.caches (hg : Got s dev inum e t) : Caches t dev inum e := by
  cases hg with
  | hit hcached =>
    rw [Caches, setInode_inode_self]
    exact ⟨Int.add_pos hcached.1 Int.one_pos, hcached.2.1, hcached.2.2⟩
  | miss hfree hnone =>
    rw [Caches, setInode_inode_self]
    exact ⟨Int.one_pos, rfl, rfl⟩

theorem Got.inum_of_pos (hg : Got s dev inum e t) (hpos : 0 < (s.inode e').ref) :
    (t.inode e').inum = (s.inode e').inum := by
  by_cases he : e' = e
  · subst he
    cases hg with
    | hit hcached => rw [setInode_inode_self]
    | miss hfree hnone => omega
  · cases hg <;> rw [setInode_inode_of_ne s _ he]

theorem Got.unique (hg : Got s dev inum e t) (hu : Unique s) : Unique t := by
  cases hg with
  | hit hcached => exact (does_ref (d := 1) fun _ => hcached.1).unique hu
  | miss hfree hnone =>
    -- another place for the inode would have been found
    have hother : ∀ e', e' ≠ e → 0 < (s.inode e').ref → ¬((s.inode e').dev = dev ∧ (s.inode e').inum = inum) :=
      fun e' _ hpos hid => hnone e' ⟨hpos, hid⟩
    intro e₁ e₂ h₁ h₂ hdev hinum
    by_cases he₁ : e₁ = e <;> by_cases he₂ : e₂ = e
    · rw [he₁, he₂]
    · subst he₁
      rw [setInode_inode_self, setInode_inode_of_ne s _ he₂] at hdev hinum
      rw [setInode_inode_of_ne s _ he₂] at h₂
      exact absurd ⟨hdev.symm, hinum.symm⟩ (hother e₂ he₂ h₂)
    · subst he₂
      rw [setInode_inode_self, setInode_inode_of_ne s _ he₁] at hdev hinum
      rw [setInode_inode_of_ne s _ he₁] at h₁
      exact absurd ⟨hdev, hinum⟩ (hother e₁ he₁ h₁)
    · rw [setInode_inode_of_ne s _ he₁] at h₁ hdev hinum
      rw [setInode_inode_of_ne s _ he₂] at h₂ hdev hinum
      exact hu e₁ e₂ h₁ h₂ hdev hinum

/-! ## The cache -/

/-- The places in use are for different inodes of the one device, and a valid copy is what is on the disk. -/
structure Cache (sb : Superblock) (s : Kernel) : Prop where
  unique : Unique s
  dev : ∀ e, 0 < (s.inode e).ref → (s.inode e).dev = ROOTDEV
  copy : ∀ e, 0 < (s.inode e).ref → (s.inode e).valid = true → (s.inode e).d = dinodeOf sb s.blk (s.inode e).inum.toNat

theorem Cache.set (h : Cache sb s) {x : Inode} (hdev : x.dev = (s.inode e).dev) (hinum : x.inum = (s.inode e).inum)
    (hpos : 0 < x.ref → 0 < (s.inode e).ref)
    (hcopy : 0 < x.ref → x.valid = true → x.d = dinodeOf sb s.blk x.inum.toNat) : Cache sb (s.setInode e x) where
  unique := (does_setInode hdev hinum hpos).unique h.unique
  dev e' := by
    by_cases he : e' = e
    · subst he
      rw [setInode_inode_self, hdev]
      exact fun hx => h.dev e' (hpos hx)
    · rw [setInode_inode_of_ne s _ he]
      exact h.dev e'
  copy e' := by
    by_cases he : e' = e
    · subst he
      rw [setInode_inode_self]
      exact hcopy
    · rw [setInode_inode_of_ne s _ he]
      exact h.copy e'

theorem Cache.got (h : Cache sb s) (hg : Got s ROOTDEV inum e t) : Cache sb t := by
  have hunique := hg.unique h.unique
  cases hg with
  | hit hcached =>
    have hpos := hcached.1
    exact h.set rfl rfl (fun _ => hpos) fun _ hvalid => h.copy e hpos hvalid
  | miss hfree hnone =>
    refine ⟨hunique, fun e' => ?_, fun e' => ?_⟩
    · by_cases he : e' = e
      · subst he
        rw [setInode_inode_self]
        exact fun _ => rfl
      · rw [setInode_inode_of_ne s _ he]
        exact h.dev e'
    · by_cases he : e' = e
      · subst he
        rw [setInode_inode_self]
        nofun
      · rw [setInode_inode_of_ne s _ he]
        exact h.copy e'

/-- The copy of the inode is what is on the disk. -/
theorem runs_readInode {Q : Unit → Kernel → Prop} (hl : Layout sb) (hsb : s.sb = sb)
    (hinum : (s.inode e).inum.toNat = i) (hi : i < sb.ninodes.toNat)
    (hcopy : (s.inode e).valid = true → (s.inode e).d = dinodeOf sb s.blk i)
    (hP : P → Calm sb s ∧ (dinodeOf sb s.blk i).type ≠ 0)
    (hQ : (s.inode e).valid = true ∨ (dinodeOf sb s.blk i).type ≠ 0 →
      Q () (s.setInode e { s.inode e with valid := true, d := dinodeOf sb s.blk i })) : Runs P (readInode e) Q s := by
  refine .seq (runs_getInode (.ite (fun hvalid => ?_) fun _ => .seq (runs_gets ?_)))
  · have hsame : s.setInode e { s.inode e with valid := true, d := dinodeOf sb s.blk i } = s := by
      rw [← hcopy hvalid, ← hvalid, setInode_self]
    have := hQ (.inl hvalid)
    rw [hsame] at this
    exact this
  · rw [hsb, hinum]
    have hbounds := hl.iblock_bounds hi
    have hstart := hl.bmapstart_lt
    have hle := Layout.dataStart_le sb
    refine .seq (runs_bread (fun hp => (hP hp).1.readable (by omega))
      (.seq (runs_gets (.seq (runs_editInode (.seq ?_))))))
    change Runs P (brelse (iblock sb i)) _ ((s.setInode e { s.inode e with d := dinodeOf sb s.blk i }).hold
      (iblock sb i))
    refine runs_brelse (.bind
      (Q := fun _ t => t = s.setInode e { s.inode e with valid := true, d := dinodeOf sb s.blk i })
      (runs_setValid ?_) fun _ t ht => ?_)
    · rw [setInode_inode_self, setInode_setInode]
    · subst ht
      refine .seq (runs_getInode ?_)
      rw [setInode_inode_self]
      exact .ite (fun hzero => runs_fail (fun hp => (hP hp).2 hzero) nofun) fun hne => runs_pure (hQ (.inr hne))

/-- `ilock` locks the inode, with what is on the disk as its copy. -/
theorem runs_ilock {Q : Unit → Kernel → Prop} (hl : Layout sb) (hsb : s.sb = sb) (hinum : (s.inode e).inum.toNat = i)
    (hi : i < sb.ninodes.toNat) (hcopy : (s.inode e).valid = true → (s.inode e).d = dinodeOf sb s.blk i)
    (hP : P → (s.inode e).lock = false ∧ 0 < (s.inode e).ref ∧ Calm sb s ∧ (dinodeOf sb s.blk i).type ≠ 0)
    (hQ : (s.inode e).lock = false → 0 < (s.inode e).ref → (s.inode e).valid = true ∨ (dinodeOf sb s.blk i).type ≠ 0 →
      Q () (s.setInode e { s.inode e with lock := true, valid := true, d := dinodeOf sb s.blk i })) :
    Runs P (ilock e) Q s := by
  refine .seq (runs_getInode (.ite (fun hlt => ?_) fun hge => .seq ?_))
  · refine runs_fail (fun hp => ?_) nofun
    have := (hP hp).2.1
    omega
  · refine runs_acquireInode (fun hp => (hP hp).1) fun hlock => ?_
    refine runs_readInode hl hsb (by rw [setInode_inode_self]; exact hinum) hi
      (by rw [setInode_inode_self]; exact hcopy)
      (fun hp => ⟨⟨(hP hp).2.2.1.disk, (hP hp).2.2.1.locked, (hP hp).2.2.1.bufs⟩, (hP hp).2.2.2⟩) fun hread => ?_
    rw [setInode_inode_self, setInode_setInode]
    rw [setInode_inode_self] at hread
    exact hQ hlock (by omega) hread

theorem runs_iunlock {Q : Unit → Kernel → Prop} (hP : P → (s.inode e).lock = true ∧ 0 < (s.inode e).ref)
    (hQ : (s.inode e).lock = true → Q () (s.setInode e { s.inode e with lock := false })) : Runs P (iunlock e) Q s := by
  refine .seq (runs_getInode (.ite (fun hbad => ?_) fun hok => runs_releaseInode (hQ ?_)))
  · refine runs_fail (fun hp => ?_) nofun
    rcases hbad with hlock | hlt
    · exact Bool.false_ne_true (hlock.symm.trans (hP hp).1)
    · have := (hP hp).2
      omega
  · by_contra hlock
    exact hok (.inl (Bool.eq_false_iff.mpr hlock))

/-! ## Links -/

/-- Only type, size and addresses count for the blocks. -/
structure SameBlocks (d d' : Dinode) : Prop where
  type : d'.type = d.type
  size : d'.size = d.size
  addrs : d'.addrs = d.addrs

theorem SameBlocks.slot {d' : Dinode} (h : SameBlocks d d') : slot blk d' = slot blk d := by
  have haddr : d'.addr = d.addr := by
    funext k
    rw [Dinode.addr, Dinode.addr, h.addrs]
  funext k
  rw [Fs.slot, Fs.slot, haddr]

theorem SameBlocks.sized {d' : Dinode} (h : SameBlocks d d') (hs : Sized blk d) : Sized blk d' := by
  refine ⟨by rw [h.size]; exact hs.max, fun bn hbn => ?_⟩
  rw [h.size, ← hs.mapped bn hbn, index, index, h.slot]

theorem SameBlocks.contents {d' : Dinode} (h : SameBlocks d d') : contents blk d' = contents blk d := by
  rw [Fs.contents, Fs.contents, h.size]
  refine List.map_congr_left fun o _ => ?_
  rw [content, content, index, index, h.slot]

theorem slotsOf_sameBlocks {T T' : Nat → Dinode} {n : Nat} (h : ∀ i, i < sb.ninodes.toNat → SameBlocks (T i) (T' i)) :
    slotsOf sb blk T' n = slotsOf sb blk T n := by
  have halloc : ∀ i, Allocated sb T' i ↔ Allocated sb T i := fun i =>
    and_congr_right fun _ => and_congr_right fun hlt => by rw [(h i hlt).type]
  funext y
  rcases y with _ | ⟨i, k⟩
  · rfl
  · by_cases hi : Allocated sb T i
    · rw [slotsOf, slotsOf, if_pos hi, if_pos ((halloc i).mpr hi), (h i hi.2.1).slot]
    · rw [slotsOf, slotsOf, if_neg hi, if_neg fun hi' => hi ((halloc i).mp hi')]

theorem SameBlocks.refl (d : Dinode) : SameBlocks d d := ⟨rfl, rfl, rfl⟩

/-- The other inodes are on the disk as before. -/
def Elsewhere (sb : Superblock) (i : Nat) (blk blk' : Nat → Blk) : Prop :=
  ∀ i', i' ≠ i → i' < sb.ninodes.toNat → dinodeOf sb blk' i' = dinodeOf sb blk i' ∧
    (Allocated sb (dinodeOf sb blk) i' → (dinodeOf sb blk i').type ≠ T_DEV →
      contents blk' (dinodeOf sb blk' i') = contents blk (dinodeOf sb blk i'))

theorem Elsewhere.trans {blk'' : Nat → Blk} (h : Elsewhere sb i blk blk') (h' : Elsewhere sb i blk' blk'') :
    Elsewhere sb i blk blk'' := by
  intro i' hne hlt
  obtain ⟨heq, hcontents⟩ := h i' hne hlt
  obtain ⟨heq', hcontents'⟩ := h' i' hne hlt
  refine ⟨heq'.trans heq, fun halloc htype => ?_⟩
  rw [← hcontents halloc htype]
  refine hcontents' ?_ (by rw [heq]; exact htype)
  rw [Allocated, heq]
  exact halloc

theorem WellFormed.elsewhere (hwf : WellFormed sb blk) {T' : Nat → Dinode} {off : Nat} {src : List Byte}
    (hw : Wrote sb i blk (dinodeOf sb blk) off src blk' T') : Elsewhere sb i blk blk' := by
  intro i' hne hlt
  have hsame : dinodeOf sb blk' i' = dinodeOf sb blk i' := by
    rw [hw.disk i' hlt, if_neg hne]
  refine ⟨hsame, fun halloc htype => ?_⟩
  rw [hsame]
  exact (hw.others i' hne halloc).contents (hwf.sized i' halloc htype)

/-- An inode is written to its place and has the blocks it had. -/
theorem WellFormed.save (hwf : WellFormed sb blk) (hi : Allocated sb (dinodeOf sb blk) i)
    (hd : SameBlocks (dinodeOf sb blk i) d) :
    WellFormed sb (saveBlk sb blk i d) ∧ Elsewhere sb i blk (saveBlk sb blk i d) ∧
      dinodeOf sb (saveBlk sb blk i d) i = d ∧
      (d.type ≠ T_DEV → contents (saveBlk sb blk i d) d = contents blk (dinodeOf sb blk i)) := by
  have hT : ∀ i', i' < sb.ninodes.toNat →
      dinodeOf sb (saveBlk sb blk i d) i' = if i' = i then d else dinodeOf sb blk i' := fun i' hlt =>
    dinodeOf_putDinode hwf.vol.layout hi.2.1 hlt d
  have hsame : ∀ i', i' < sb.ninodes.toNat →
      SameBlocks (dinodeOf sb blk i') (dinodeOf sb (saveBlk sb blk i d) i') := by
    intro i' hlt
    rw [hT i' hlt]
    split
    · rename_i heq
      exact heq ▸ hd
    · exact .refl _
  have hself : dinodeOf sb (saveBlk sb blk i d) i = d := by rw [hT i hi.2.1, if_pos rfl]
  have hkept : ∀ i', Allocated sb (dinodeOf sb blk) i' → Kept blk (saveBlk sb blk i d) (dinodeOf sb blk i') :=
    fun i' hi' => hwf.vol.save_kept hi.2.1 hi'
  refine ⟨⟨?_, fun i' hi' htype => ?_⟩, fun i' hne hlt => ?_, hself, fun htype => ?_⟩
  · rw [slotsOf_sameBlocks hsame]
    exact hwf.vol.save hi.2.1 d
  · have hs := hsame i' hi'.2.1
    have hi' : Allocated sb (dinodeOf sb blk) i' := ⟨hi'.1, hi'.2.1, hs.type ▸ hi'.2.2⟩
    exact hs.sized ((hkept i' hi').sized (hwf.sized i' hi' (hs.type ▸ htype)))
  · rw [hT i' hlt, if_neg hne]
    exact ⟨rfl, fun hi' htype => (hkept i' hi').contents (hwf.sized i' hi' htype)⟩
  · rw [hd.contents]
    exact (hkept i hi).contents (hwf.sized i hi (hd.type ▸ htype))

/-- The copy in memory is edited and written back. -/
theorem runs_saveInode {Q : Unit → Kernel → Prop} {f : Dinode → Dinode} {K : Nat} {W : Finset Nat} (hl : Layout sb)
    (hsb : s.sb = sb) (hinum : (s.inode e).inum.toNat = i) (hi : i < sb.ninodes.toNat)
    (hP : P → Room sb K W s ∧ s.locked = [])
    (hQ : ∀ l, (P → iblock sb i ∈ W → Room sb K W (s.work e (saveBlk sb s.blk i (f (s.inode e).d)) l
      (f (s.inode e).d))) →
      Q () (s.work e (saveBlk sb s.blk i (f (s.inode e).d)) l (f (s.inode e).d))) :
    Runs P (editInode e f >>= fun _ => iupdate e) Q s := by
  refine .seq (runs_editInode ?_)
  refine runs_iupdate (K := K) (W := W) hl hsb ?_ hi work_inode (fun hp => ⟨(hP hp).1.work rfl rfl rfl, (hP hp).2⟩)
    fun l _ hroom => ?_
  · simp only [Kernel.work, Function.update_self]
    exact hinum
  · rw [work_work] at hroom ⊢
    exact hQ l hroom

end Xv6.Fs
