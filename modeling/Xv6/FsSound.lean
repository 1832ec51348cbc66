import Xv6.FsDir
import Xv6.FsFree

/- The functions of fs.c keep the file system in order.

   1. A file system is well-formed (`FileSystem`) if the free map, the slots and the sizes of
      all inodes agree, and every directory is a map from names to inodes that there are.
   2. `Sound sb F s`: the disk is well-formed, and the cache agrees with it. `F` pins places of
      the cache: they stay in use, for an inode of the type that is noted, and with the bytes
      that are noted if it is neither a directory nor a device. The rules hold whatever
      happens on the way: lack of blocks, of places in the cache or of space in the log.
   3. `iput` frees an inode only with its last reference, so a place that is pinned needs
      another one besides the one that is given up. -/
namespace Xv6.Fs
open Function Bits ByteBlock Log Command Allocation SlotTable

variable {s t : Kernel} {sb : Superblock} {e e' : Ip} {blk blk' : Nat → Blk} {d d' : Dinode} {l : List Nat}
  {i i' k : Nat}
  {dev inum : Word} {src name : List Byte}

/-! ## The disk -/

/-- A directory has whole entries, they are for inodes that there are, and no name is bound twice. -/
structure Entries (sb : Superblock) (blk : Nat → Blk) (d : Dinode) : Prop where
  whole : d.size.toNat % direntSize = 0
  range : ∀ (k : Nat) x v, (table blk d)[k]? = some (some (x, v)) → v.toNat < sb.ninodes.toNat
  distinct : Distinct (table blk d)

theorem Entries.congr (h : Entries sb blk d) (hsize : d'.size = d.size)
    (hcontents : contents blk' d' = contents blk d) :
    Entries sb blk' d' where
  whole := by
    rw [hsize]
    exact h.whole
  range := by
    rw [table, hcontents]
    exact h.range
  distinct := by
    rw [table, hcontents]
    exact h.distinct

theorem Entries.empty (hsize : d.size = 0) : Entries sb blk d := by
  have hnone : ∀ (k : Nat) p, (table blk d)[k]? ≠ some (some p) := by
    intro k p hk
    have hlt := (List.getElem?_eq_some_iff.mp hk).1
    rw [table_length, hsize] at hlt
    exact absurd hlt (Nat.not_lt_zero k)
  exact ⟨by rw [hsize]; rfl, fun k x v hk => absurd hk (hnone k _),
    fun j _ _ _ _ hj _ => absurd hj (hnone j _)⟩

/-- A well-formed file system. -/
structure FileSystem (sb : Superblock) (blk : Nat → Blk) : Prop extends WellFormed sb blk where
  dirs : ∀ i, Allocated sb (dinodeOf sb blk) i → (dinodeOf sb blk i).type = T_DIR → Entries sb blk (dinodeOf sb blk i)

theorem FileSystem.change (h : FileSystem sb blk) (hwf : WellFormed sb blk') (helse : Elsewhere sb i blk blk')
    (hi : (dinodeOf sb blk' i).type = T_DIR → Entries sb blk' (dinodeOf sb blk' i)) : FileSystem sb blk' where
  toWellFormed := hwf
  dirs i' halloc htype := by
    by_cases hne : i' = i
    · subst hne
      exact hi htype
    · obtain ⟨heq, hcontents⟩ := helse i' hne halloc.2.1
      rw [Allocated, heq] at halloc
      rw [heq] at htype
      have hdev : (dinodeOf sb blk i').type ≠ T_DEV := by
        rw [htype]
        decide
      exact (h.dirs i' halloc htype).congr (by rw [heq]) (hcontents halloc hdev)

/-! ## What is noted of an inode -/

/-- The bytes of a directory and of a device are not noted. -/
def Plain (type : Half) : Prop := type ≠ T_DIR ∧ type ≠ T_DEV

instance decidable_plain (type : Half) : Decidable (Plain type) := inferInstanceAs (Decidable (_ ∧ _))

/-- The type of an inode, and its bytes. -/
def note (blk : Nat → Blk) (d : Dinode) : Half × List Byte := (d.type, if Plain d.type then contents blk d else [])

theorem note_congr (htype : d'.type = d.type) (hcontents : Plain d.type → contents blk' d' = contents blk d) :
    note blk' d' = note blk d := by
  rw [note, note, htype]
  split
  · rename_i hplain
    rw [hcontents hplain]
  · rfl

theorem Elsewhere.note (h : Elsewhere sb i blk blk') (hne : i' ≠ i) (hi' : Allocated sb (dinodeOf sb blk) i') :
    note blk' (dinodeOf sb blk' i') = note blk (dinodeOf sb blk i') := by
  obtain ⟨heq, hcontents⟩ := h i' hne hi'.2.1
  exact note_congr (by rw [heq]) fun hplain => hcontents hi' hplain.2

/-! ## The cache -/

/-- The places that are pinned, with what is noted of their inodes. -/
abbrev Pins := Ip → Option (Half × List Byte)

variable {F F' : Pins}

/-- What is on the disk of the inode at place `e`. -/
def onDisk (sb : Superblock) (s : Kernel) (e : Ip) : Dinode := dinodeOf sb s.blk (s.inode e).inum.toNat

def Pins.pin (F : Pins) (sb : Superblock) (s : Kernel) (e : Ip) : Pins :=
  update F e (some (note s.blk (onDisk sb s e)))

theorem Pins.pin_self (F : Pins) : F.pin sb s e e = some (note s.blk (onDisk sb s e)) := update_self ..

structure Sound (sb : Superblock) (F : Pins) (s : Kernel) : Prop extends Cache sb s where
  disk : FileSystem sb s.blk
  super : s.sb = sb
  range : ∀ e, 0 < (s.inode e).ref → 1 ≤ (s.inode e).inum.toNat ∧ (s.inode e).inum.toNat < sb.ninodes.toNat
  typed : ∀ e, 0 < (s.inode e).ref → (s.inode e).valid = true → (onDisk sb s e).type ≠ 0
  locked : ∀ e, (s.inode e).lock = true → 0 < (s.inode e).ref ∧ (s.inode e).valid = true
  pinned : ∀ e v, F e = some v → 0 < (s.inode e).ref ∧ v.1 ≠ 0 ∧ note s.blk (onDisk sb s e) = v

/-- What is known of an inode that is locked. -/
structure Live (sb : Superblock) (s : Kernel) (e : Ip) : Prop where
  pos : 0 < (s.inode e).ref
  alloc : Allocated sb (dinodeOf sb s.blk) (s.inode e).inum.toNat
  copy : (s.inode e).d = dinodeOf sb s.blk (s.inode e).inum.toNat

namespace Sound

theorem congr (h : Sound sb F s) (hblk : t.blk = s.blk) (hsb : t.sb = s.sb) (hinode : t.inode = s.inode) :
    Sound sb F t := by
  obtain ⟨tblk, tlocked, tlogged, tlogsize, toutstanding, tsb, tinode, tfile, tproc, tinput, tcoin⟩ := t
  subst hblk hsb hinode
  exact ⟨⟨h.unique, h.dev, h.copy⟩, h.disk, h.super, h.range, h.typed, h.locked, h.pinned⟩

theorem mono (h : Sound sb F s) (hF : ∀ e v, F' e = some v → F e = some v) : Sound sb F' s :=
  { h with pinned := fun e v he => h.pinned e v (hF e v he) }

theorem inum_ne (h : Sound sb F s) (he : 0 < (s.inode e).ref) (he' : 0 < (s.inode e').ref) (hne : e' ≠ e) :
    (s.inode e').inum.toNat ≠ (s.inode e).inum.toNat := fun heq =>
  hne (h.unique e' e he' he ((h.dev e' he').trans (h.dev e he).symm) (BitVec.eq_of_toNat_eq heq))

theorem alloc (h : Sound sb F s) (hpos : 0 < (s.inode e).ref) (hvalid : (s.inode e).valid = true) :
    Allocated sb (dinodeOf sb s.blk) (s.inode e).inum.toNat :=
  ⟨(h.range e hpos).1, (h.range e hpos).2, h.typed e hpos hvalid⟩

theorem live (h : Sound sb F s) (hl : (s.inode e).lock = true) : Live sb s e := by
  obtain ⟨hpos, hvalid⟩ := h.locked e hl
  exact ⟨hpos, h.alloc hpos hvalid, h.copy e hpos hvalid⟩

theorem alloc_pinned (h : Sound sb F s) {v : Half × List Byte} (he : F e = some v) :
    Allocated sb (dinodeOf sb s.blk) (s.inode e).inum.toNat := by
  obtain ⟨hpos, htype, hnote⟩ := h.pinned e v he
  refine ⟨(h.range e hpos).1, (h.range e hpos).2, ?_⟩
  rw [← hnote] at htype
  exact htype

theorem pin (h : Sound sb F s) (he : Live sb s e) : Sound sb (F.pin sb s e) s :=
  { h with
    pinned := by
      intro e' v hv
      rw [Pins.pin, update_apply] at hv
      split at hv
      · rename_i heq
        subst heq
        cases hv
        exact ⟨he.pos, he.alloc.2.2, rfl⟩
      · exact h.pinned e' v hv }

theorem unpin (h : Sound sb F s) (ht : Sound sb (F.pin sb s e) t) : Sound sb F t := by
  refine ht.mono fun e' v hv => ?_
  rw [Pins.pin, update_apply]
  split
  · rename_i heq
    subst heq
    rw [(h.pinned e' v hv).2.2]
  · exact hv

/-- One place has changed, for the same inode. -/
theorem set (h : Sound sb F s) {x : Inode} (hdev : x.dev = (s.inode e).dev) (hinum : x.inum = (s.inode e).inum)
    (hpos : 0 < x.ref → 0 < (s.inode e).ref)
    (hcopy : 0 < x.ref → x.valid = true → x.d = onDisk sb s e ∧ (onDisk sb s e).type ≠ 0)
    (hlock : x.lock = true → 0 < x.ref ∧ x.valid = true) (hpin : F e ≠ none → 0 < x.ref) :
    Sound sb F (s.setInode e x) where
  toCache := h.toCache.set hdev hinum hpos fun hx hvalid => by
    rw [hinum]
    exact (hcopy hx hvalid).1
  disk := h.disk
  super := h.super
  range e' := by
    by_cases he : e' = e
    · subst he
      rw [setInode_inode_self, hinum]
      exact fun hx => h.range e' (hpos hx)
    · rw [setInode_inode_of_ne s _ he]
      exact h.range e'
  typed e' := by
    rw [onDisk]
    by_cases he : e' = e
    · subst he
      rw [setInode_inode_self, hinum]
      exact fun hx hvalid => (hcopy hx hvalid).2
    · rw [setInode_inode_of_ne s _ he]
      exact h.typed e'
  locked e' := by
    by_cases he : e' = e
    · subst he
      rw [setInode_inode_self]
      exact hlock
    · rw [setInode_inode_of_ne s _ he]
      exact h.locked e'
  pinned e' v hv := by
    rw [onDisk]
    by_cases he : e' = e
    · subst he
      rw [setInode_inode_self, hinum]
      exact ⟨hpin (by rw [hv]; exact Option.some_ne_none v), (h.pinned e' v hv).2⟩
    · rw [setInode_inode_of_ne s _ he]
      exact h.pinned e' v hv

theorem dup (h : Sound sb F s) (hpos : 0 < (s.inode e).ref) :
    Sound sb F (s.setInode e { s.inode e with ref := (s.inode e).ref + 1 }) := by
  have hmore : 0 < (s.inode e).ref + 1 := by omega
  exact h.set rfl rfl (fun _ => hpos) (fun _ hvalid => ⟨h.copy e hpos hvalid, h.typed e hpos hvalid⟩)
    (fun hlock => ⟨hmore, (h.locked e hlock).2⟩) fun _ => hmore

theorem got (h : Sound sb F s) (hg : Got s ROOTDEV inum e t) (hrange : 1 ≤ inum.toNat ∧ inum.toNat < sb.ninodes.toNat) :
    Sound sb F t := by
  have hcache := h.toCache.got hg
  cases hg with
  | hit hcached => exact h.dup hcached.1
  | miss hfree hnone =>
    -- a place that is not in use is neither locked nor pinned
    refine ⟨hcache, h.disk, h.super, fun e' => ?_, fun e' => ?_, fun e' => ?_, fun e' v hv => ?_⟩ <;>
      by_cases he : e' = e
    · subst he
      rw [setInode_inode_self]
      exact fun _ => hrange
    · rw [setInode_inode_of_ne s _ he]
      exact h.range e'
    · subst he
      rw [setInode_inode_self]
      rintro - ⟨⟩
    · rw [onDisk, setInode_inode_of_ne s _ he]
      exact h.typed e'
    · subst he
      rw [setInode_inode_self]
      intro hlock
      have := (h.locked e' hlock).1
      omega
    · rw [setInode_inode_of_ne s _ he]
      exact h.locked e'
    · subst he
      have := (h.pinned e' v hv).1
      omega
    · rw [onDisk, setInode_inode_of_ne s _ he]
      exact h.pinned e' v hv

theorem unlock (h : Sound sb F s) (hlock : (s.inode e).lock = true) :
    Sound sb F (s.setInode e { s.inode e with lock := false }) := by
  obtain ⟨hpos, hvalid⟩ := h.locked e hlock
  exact h.set rfl rfl id (fun _ _ => ⟨h.copy e hpos hvalid, h.typed e hpos hvalid⟩) (by rintro ⟨⟩) fun _ => hpos

end Sound

/-- A pinned place has another reference than the one in hand. -/
def Spare (F : Pins) (s : Kernel) (e : Ip) : Prop := F e ≠ none → 2 ≤ (s.inode e).ref

theorem Got.spare (hg : Got s dev inum e t) (h : Sound sb F s) : Spare F t e := by
  intro hF
  obtain ⟨v, hv⟩ := Option.ne_none_iff_exists'.mp hF
  have hpos := (h.pinned e v hv).1
  cases hg with
  | hit hcached =>
    rw [setInode_inode_self]
    change 2 ≤ (s.inode e).ref + 1
    omega
  | miss hfree hnone => omega

theorem sound_iget (h : Sound sb F s) (hdev : dev = ROOTDEV) (hrange : 1 ≤ inum.toNat ∧ inum.toNat < sb.ninodes.toNat) :
    Runs False (iget dev inum) (fun e t => Sound sb F t ∧ Spare F t e) s := by
  subst hdev
  exact runs_iget False.elim fun e t hg => ⟨h.got hg hrange, hg.spare h⟩

theorem sound_idup (h : Sound sb F s) (hpos : 0 < (s.inode e).ref) : Runs False (idup e) (fun _ t => Sound sb F t) s :=
  .seq (runs_getInode (.seq (runs_setInode (runs_pure (h.dup hpos)))))

structure Locked (s : Kernel) (e : Ip) (t : Kernel) : Prop where
  disk : t.blk = s.blk
  lock : (t.inode e).lock = true
  other : ∀ e', e' ≠ e → t.inode e' = s.inode e'
  inum : (t.inode e).inum = (s.inode e).inum

theorem sound_ilock (h : Sound sb F s) : Runs False (ilock e) (fun _ t => Sound sb F t ∧ Locked s e t) s := by
  by_cases hpos : 0 < (s.inode e).ref
  · refine runs_ilock h.disk.vol.layout h.super rfl (h.range e hpos).2 (h.copy e hpos) False.elim fun _ _ hread => ⟨?_,
      ?_⟩
    · have htype : (onDisk sb s e).type ≠ 0 := hread.elim (h.typed e hpos) id
      exact h.set rfl rfl id (fun _ _ => ⟨rfl, htype⟩) (fun _ => ⟨hpos, rfl⟩) fun _ => hpos
    · refine ⟨rfl, ?_, fun e' hne => setInode_inode_of_ne s _ hne, ?_⟩ <;> rw [setInode_inode_self]
  · exact .seq (runs_getInode (.ite (fun _ => runs_fail id (by rintro ⟨⟩)) fun hge => by omega))

theorem sound_iunlock (h : Sound sb F s) : Runs False (iunlock e) (fun _ t => Sound sb F t) s :=
  runs_iunlock False.elim h.unlock

/-! ## Changes of the disk -/

theorem work_place (s : Kernel) (e e' : Ip) (blk : Nat → Blk) (l : List Nat) (d : Dinode) :
    (s.work e blk l d).inode e' = { s.inode e' with d := ((s.work e blk l d).inode e').d } := by
  by_cases he : e' = e
  · subst he
    simp [Kernel.work]
  · simp [Kernel.work, he]

section

variable (s e e' blk l d)

@[simp] theorem work_ref : ((s.work e blk l d).inode e').ref = (s.inode e').ref := by rw [work_place]

@[simp] theorem work_dev : ((s.work e blk l d).inode e').dev = (s.inode e').dev := by rw [work_place]

@[simp] theorem work_inum : ((s.work e blk l d).inode e').inum = (s.inode e').inum := by rw [work_place]

@[simp] theorem work_lock : ((s.work e blk l d).inode e').lock = (s.inode e').lock := by rw [work_place]

@[simp] theorem work_valid : ((s.work e blk l d).inode e').valid = (s.inode e').valid := by rw [work_place]

end

namespace Sound

theorem onDisk_other (h : Sound sb F s) (helse : Elsewhere sb i s.blk blk) (hpos : 0 < (s.inode e').ref)
    (hne : (s.inode e').inum.toNat ≠ i) : dinodeOf sb blk (s.inode e').inum.toNat = onDisk sb s e' :=
  (helse _ hne (h.range e' hpos).2).1

theorem note_other (h : Sound sb F s) (helse : Elsewhere sb i s.blk blk) {v : Half × List Byte} (hv : F e' = some v)
    (hne : (s.inode e').inum.toNat ≠ i) : note blk (dinodeOf sb blk (s.inode e').inum.toNat) = v := by
  rw [helse.note hne (h.alloc_pinned hv)]
  exact (h.pinned e' v hv).2.2

/-- The inode at `e` has changed on the disk and in the cache, and is of the type it was. -/
theorem work (h : Sound sb F s) (he : Live sb s e) (hwf : WellFormed sb blk)
    (helse : Elsewhere sb (s.inode e).inum.toNat s.blk blk) (hself : dinodeOf sb blk (s.inode e).inum.toNat = d)
    (htype : d.type = (s.inode e).d.type) (hdir : d.type = T_DIR → Entries sb blk d) (hF : ∀ e', e' ≠ e → F' e' = F e')
    (hpin : ∀ v, F' e = some v → note blk d = v) : Sound sb F' (s.work e blk l d) := by
  have hdisk : ∀ e', 0 < (s.inode e').ref → e' ≠ e → onDisk sb (s.work e blk l d) e' = onDisk sb s e' := by
    intro e' hpos hne
    rw [onDisk, work_inum]
    exact h.onDisk_other helse hpos (h.inum_ne he.pos hpos hne)
  have hsame : onDisk sb (s.work e blk l d) e = d := by
    rw [onDisk, work_inum]
    exact hself
  have hold : d.type = (onDisk sb s e).type := by rw [htype, he.copy, onDisk]
  refine ⟨⟨?_, fun e' => ?_, fun e' => ?_⟩, ?_, h.super, fun e' => ?_, fun e' => ?_, fun e' => ?_, fun e' v hv => ?_⟩
  · intro e₁ e₂
    simp only [work_ref, work_dev, work_inum]
    exact h.unique e₁ e₂
  · rw [work_ref, work_dev]
    exact h.dev e'
  · rw [work_ref, work_valid]
    intro hpos hvalid
    change _ = onDisk sb (s.work e blk l d) e'
    by_cases hne : e' = e
    · rw [hne, hsame, work_inode]
    · rw [hdisk e' hpos hne]
      have hcopy : ((s.work e blk l d).inode e').d = (s.inode e').d := by simp [Kernel.work, hne]
      rw [hcopy]
      exact h.copy e' hpos hvalid
  · refine h.disk.change hwf helse ?_
    change (dinodeOf sb blk (s.inode e).inum.toNat).type = T_DIR →
        Entries sb blk (dinodeOf sb blk (s.inode e).inum.toNat)
    rw [hself]
    exact hdir
  · rw [work_ref, work_inum]
    exact h.range e'
  · rw [work_ref, work_valid]
    intro hpos hvalid
    by_cases hne : e' = e
    · rw [hne, hsame, hold]
      exact he.alloc.2.2
    · rw [hdisk e' hpos hne]
      exact h.typed e' hpos hvalid
  · rw [work_lock, work_ref, work_valid]
    exact h.locked e'
  · rw [work_ref, onDisk, work_inum]
    change _ ∧ _ ∧ note blk (dinodeOf sb blk (s.inode e').inum.toNat) = v
    by_cases hne : e' = e
    · subst hne
      have hnote := hpin v hv
      rw [hself]
      refine ⟨he.pos, ?_, hnote⟩
      rw [← hnote, note, hold]
      exact he.alloc.2.2
    · rw [hF e' hne] at hv
      obtain ⟨hpos, hne0, -⟩ := h.pinned e' v hv
      exact ⟨hpos, hne0, h.note_other helse hv (h.inum_ne he.pos hpos hne)⟩

/-- What is noted of the inode has not changed. -/
theorem work_same (h : Sound sb F s) (he : Live sb s e) (hwf : WellFormed sb blk)
    (helse : Elsewhere sb (s.inode e).inum.toNat s.blk blk) (hself : dinodeOf sb blk (s.inode e).inum.toNat = d)
    (htype : d.type = (s.inode e).d.type) (hdir : d.type = T_DIR → Entries sb blk d)
    (hnote : note blk d = note s.blk (onDisk sb s e)) : Sound sb F (s.work e blk l d) :=
  h.work he hwf helse hself htype hdir (fun _ _ => rfl) fun v hv => hnote.trans (h.pinned e v hv).2.2

/-- The inode at `e` has been freed, and the place is not in use any more. -/
theorem freed (h : Sound sb F s) (hpos : 0 < (s.inode e).ref) (hF : F e = none) (hwf : WellFormed sb t.blk)
    (helse : Elsewhere sb (s.inode e).inum.toNat s.blk t.blk)
    (htype : (dinodeOf sb t.blk (s.inode e).inum.toNat).type = 0) (hsb : t.sb = s.sb)
    (hother : ∀ e', e' ≠ e → t.inode e' = s.inode e') (href : (t.inode e).ref = 0) (hlock : (t.inode e).lock = false) :
    Sound sb F t := by
  have hout : ∀ e', 0 < (t.inode e').ref → e' ≠ e := by
    rintro e' hpos' rfl
    omega
  have hdisk : ∀ e', 0 < (s.inode e').ref → e' ≠ e → onDisk sb t e' = onDisk sb s e' := by
    intro e' hpos' hne
    rw [onDisk, hother e' hne]
    exact h.onDisk_other helse hpos' (h.inum_ne hpos hpos' hne)
  refine ⟨⟨?_, fun e' h' => ?_, fun e' h' hvalid => ?_⟩, ?_, hsb.trans h.super, fun e' h' => ?_, fun e' h' hvalid => ?_,
    fun e' h' => ?_, fun e' v hv => ?_⟩
  · intro e₁ e₂ h₁ h₂
    have hne₁ := hout e₁ h₁
    have hne₂ := hout e₂ h₂
    rw [hother e₁ hne₁] at h₁ ⊢
    rw [hother e₂ hne₂] at h₂ ⊢
    exact h.unique e₁ e₂ h₁ h₂
  · have hne := hout e' h'
    rw [hother e' hne] at h' ⊢
    exact h.dev e' h'
  · have hne := hout e' h'
    rw [hother e' hne] at h' hvalid
    change _ = onDisk sb t e'
    rw [hdisk e' h' hne, hother e' hne]
    exact h.copy e' h' hvalid
  · refine h.disk.change hwf helse ?_
    rw [htype]
    intro heq
    exact absurd heq (by decide)
  · have hne := hout e' h'
    rw [hother e' hne] at h' ⊢
    exact h.range e' h'
  · have hne := hout e' h'
    rw [hother e' hne] at h' hvalid
    rw [hdisk e' h' hne]
    exact h.typed e' h' hvalid
  · by_cases hne : e' = e
    · subst hne
      rw [hlock] at h'
      cases h'
    · rw [hother e' hne] at h' ⊢
      exact h.locked e' h'
  · have hne : e' ≠ e := by
      rintro rfl
      rw [hF] at hv
      cases hv
    obtain ⟨hpos', hne0, -⟩ := h.pinned e' v hv
    rw [onDisk, hother e' hne]
    exact ⟨hpos', hne0, h.note_other helse hv (h.inum_ne hpos hpos' hne)⟩

theorem allocated (h : Sound sb F s) (hfree : (dinodeOf sb s.blk i).type = 0) (hwf : WellFormed sb blk)
    (helse : Elsewhere sb i s.blk blk) (hsize : (dinodeOf sb blk i).size = 0) :
    Sound sb F { s with blk, logged := l } := by
  -- no valid copy and no pinned place is of an inode without a type
  have hapart : ∀ e', (onDisk sb s e').type ≠ 0 → (s.inode e').inum.toNat ≠ i := by
    intro e' htype heq
    rw [onDisk, heq] at htype
    exact htype hfree
  refine ⟨⟨h.unique, h.dev, fun e' hpos hvalid => ?_⟩, ?_, h.super, h.range, fun e' hpos hvalid => ?_, h.locked,
    fun e' v hv => ?_⟩
  · have hne := hapart e' (h.typed e' hpos hvalid)
    exact (h.copy e' hpos hvalid).trans (h.onDisk_other helse hpos hne).symm
  · exact h.disk.change hwf helse fun _ => .empty hsize
  · have htype := h.typed e' hpos hvalid
    change (dinodeOf sb blk (s.inode e').inum.toNat).type ≠ 0
    rw [h.onDisk_other helse hpos (hapart e' htype)]
    exact htype
  · obtain ⟨hpos, hne0, hnote⟩ := h.pinned e' v hv
    refine ⟨hpos, hne0, h.note_other helse hv (hapart e' ?_)⟩
    rw [← hnote] at hne0
    exact hne0

end Sound

/-! ## References and links -/

theorem sound_iput (h : Sound sb F s) (hspare : Spare F s e) : Runs False (iput e) (fun _ t => Sound sb F t) s := by
  refine .seq (runs_acquireInode False.elim fun hlock => .seq ?_)
  refine runs_freeIfLast (i := (s.inode e).inum.toNat) h.disk.toWellFormed h.super ?_ (fun _ => ?_) ?_
  · rw [setInode_inode_self]
    intro hvalid href
    have hpos : 0 < (s.inode e).ref := by
      change (s.inode e).ref = 1 at href
      omega
    exact ⟨h.alloc hpos hvalid, rfl, h.copy e hpos hvalid⟩
  · refine .seq (runs_releaseInode (.seq (runs_getInode (runs_setInode ?_))))
    simp only [setInode_inode_self, setInode_setInode]
    refine h.set rfl rfl (fun hpos => ?_) (fun hpos hvalid => ?_) (by rintro ⟨⟩) fun hF => ?_
    · change 0 < (s.inode e).ref - 1 at hpos
      omega
    · have hpos : 0 < (s.inode e).ref := by
        change 0 < (s.inode e).ref - 1 at hpos
        omega
      exact ⟨h.copy e hpos hvalid, h.typed e hpos hvalid⟩
    · have := hspare hF
      change 0 < (s.inode e).ref - 1
      omega
  · intro href hnlink blk l d hwf helse htype
    rw [setInode_inode_self] at href
    have href : (s.inode e).ref = 1 := href
    refine .seq (runs_releaseInode (.seq (runs_getInode (runs_setInode ?_))))
    simp only [setInode_inode_self, setInode_setInode]
    have hF : F e = none := by
      by_contra hF
      have := hspare hF
      omega
    refine h.freed (by omega) hF hwf helse htype rfl (fun e' hne => ?_) ?_ ?_
    · simp [Kernel.work, Kernel.setInode, hne]
    · rw [setInode_inode_self, work_ref, setInode_inode_self]
      change (s.inode e).ref - 1 = 0
      omega
    · rw [setInode_inode_self]

theorem sound_iunlockput (h : Sound sb F s) (hspare : Spare F s e) :
    Runs False (iunlockput e) (fun _ t => Sound sb F t) s := by
  refine .seq (runs_iunlock False.elim fun hlock => sound_iput (h.unlock hlock) fun hF => ?_)
  rw [setInode_inode_self]
  exact hspare hF

theorem sound_saveInode (h : Sound sb F s) (hlock : (s.inode e).lock = true) {f : Dinode → Dinode}
    (hf : SameBlocks (s.inode e).d (f (s.inode e).d)) :
    Runs False (editInode e f >>= fun _ => iupdate e) (fun _ t => Sound sb F t) s := by
  have he := h.live hlock
  refine runs_saveInode (K := 0) (W := ∅) h.disk.vol.layout h.super rfl he.alloc.2.1 False.elim fun l _ => ?_
  have hblocks := hf
  rw [he.copy] at hblocks
  obtain ⟨hwf, helse, hself, hcontents⟩ := h.disk.save he.alloc hblocks
  rw [he.copy]
  refine h.work_same he hwf helse hself ?_ (fun hdir => ?_) ?_
  · rw [he.copy]
    exact hblocks.type
  · have hold := h.disk.dirs _ he.alloc (hblocks.type.symm.trans hdir)
    refine hold.congr hblocks.size (hcontents ?_)
    rw [hdir]
    decide
  · exact note_congr hblocks.type fun hplain => hcontents (by rw [hblocks.type]; exact hplain.2)

/-! ## Contents -/

/-- The console unlocks the inode for a while. -/
theorem sound_relock {α β : Type} {m : M α} {f : α → M β} {Q : β → Kernel → Prop} (h : Sound sb F s)
    (hm : ∀ t, Sound sb F t → Runs False m (fun _ u => Sound sb F u) t)
    (hf : ∀ a t, Sound sb F t → (t.inode e).lock = true → Runs False (f a) Q t) :
    Runs False (iunlock e >>= fun _ => m >>= fun a => ilock e >>= fun _ => f a) Q s := by
  refine (sound_iunlock h).bind fun _ t ht => (hm t ht).bind fun a u hu => ?_
  exact (sound_ilock hu).bind fun _ v hv => hf a v hv.1 hv.2.lock

/-- What `readi` returns: the bytes, as far as they go. -/
def reads (bs : List Byte) (off n : Word) : Option (List Byte) :=
  if bs.length < off.toNat ∨ 2 ^ 32 ≤ off.toNat + n.toNat then none else some ((bs.drop off.toNat).take n.toNat)

theorem contents_length (blk : Nat → Blk) (d : Dinode) : (contents blk d).length = d.size.toNat := by simp [contents]

theorem sound_readi_inode {off n : Word} (h : Sound sb F s) (he : Live sb s e) (htype : (onDisk sb s e).type ≠ T_DEV) :
    Runs False (readi e off n) (fun r t => r = reads (contents s.blk (onDisk sb s e)) off n ∧ t = s) s := by
  refine runs_readi h.disk.vol he.alloc he.copy (h.disk.sized _ he.alloc htype) htype False.elim (fun hbad => ?_)
    fun hle hsum => ?_
  · rw [reads, contents_length, if_pos]
    · exact ⟨rfl, rfl⟩
    · exact hbad.imp_left BitVec.lt_def.mp
  · rw [reads, contents_length, if_neg]
    · exact ⟨rfl, rfl⟩
    · have hle : off.toNat ≤ (onDisk sb s e).size.toNat := BitVec.le_def.mp hle
      omega

theorem sound_typed (h : Sound sb F s) : Runs False typed (fun _ t => Sound sb F t) s :=
  .seq (runs_gets (h.congr rfl rfl rfl))

theorem sound_readi {off n : Word} (h : Sound sb F s) (hlock : (s.inode e).lock = true) :
    Runs False (readi e off n) (fun _ t => Sound sb F t ∧ (t.inode e).lock = true) s := by
  have he := h.live hlock
  by_cases htype : (onDisk sb s e).type = T_DEV
  · refine .seq (runs_getInode (.ite (fun _ => .ite (fun _ => ?_) fun _ => ⟨h, hlock⟩) fun hne => ?_))
    · exact sound_relock h (fun t ht => sound_typed ht) fun a t ht hl => ⟨ht, hl⟩
    · rw [he.copy] at hne
      exact absurd htype hne
  · refine (sound_readi_inode h he htype).imp ?_
    rintro _ t ⟨-, rfl⟩
    exact ⟨h, hlock⟩

/-- `src` replaces a stretch, or goes on after the end. -/
def splice (bs : List Byte) (off : Nat) (src : List Byte) : List Byte :=
  bs.take off ++ (src ++ bs.drop (off + src.length))

theorem splice_nil (bs : List Byte) (off : Nat) : splice bs off [] = bs := by
  simp [splice]

theorem splice_splice {bs : List Byte} {off : Nat} (hoff : off ≤ bs.length) (a b : List Byte) :
    splice (splice bs off a) (off + a.length) b = splice bs off (a ++ b) := by
  have htake : (bs.take off).length = off := by simp [hoff]
  have hfirst : (splice bs off a).take (off + a.length) = bs.take off ++ a := by
    rw [splice, ← List.append_assoc, List.take_left']
    rw [List.length_append, htake]
  have hrest : (splice bs off a).drop (off + a.length + b.length) = bs.drop (off + (a ++ b).length) := by
    rw [splice, ← List.append_assoc, ← List.drop_drop, List.drop_left' (by rw [List.length_append, htake]),
      List.drop_drop, List.length_append, Nat.add_assoc]
  rw [splice, hfirst, hrest, splice, List.append_assoc, List.append_assoc]

/-- What is noted of the place after a stretch has been written. -/
def Pins.write (F : Pins) (e : Ip) (off : Nat) (src : List Byte) : Pins :=
  update F e ((F e).map fun v => (v.1, splice v.2 off src))

/-- `writei` to a file. -/
theorem sound_writei_plain {off : Word} (h : Sound sb F s) (hlock : (s.inode e).lock = true)
    (hplain : Plain (onDisk sb s e).type) (hlen : src.length < 2 ^ 32) :
    Runs False (writei e src off) (fun r t => (r = none ∧ t = s) ∨
      r = some src.length ∧ off.toNat ≤ (contents s.blk (onDisk sb s e)).length ∧
        off.toNat + src.length ≤ MAXFILE * BSIZE ∧
      Sound sb (F.write e off.toNat src) t ∧ (t.inode e).lock = true) s := by
  have he := h.live hlock
  refine runs_writei (K := 0) (W := ∅) h.disk.vol h.super he.alloc rfl he.copy (h.disk.sized _ he.alloc hplain.2)
    hplain.2 rfl
    hlen False.elim (fun _ => .inl ⟨rfl, rfl⟩) fun hoff hmax blk l T' hw _ _ => .inr ⟨rfl, ?_, hmax,
      ?_, by rw [work_lock]; exact hlock⟩
  · rw [contents_length]
    exact BitVec.le_def.mp hoff
  obtain ⟨hwf, hT⟩ := h.disk.wrote hw
  have htype : (T' (s.inode e).inum.toNat).type = (onDisk sb s e).type := by
    rw [hw.same]
    rfl
  refine h.work he hwf (h.disk.elsewhere hw) (hT _ he.alloc.2.1) ?_ (fun hdir => ?_) (fun e' hne => ?_) fun v hv => ?_
  · rw [htype, he.copy]
    rfl
  · rw [htype] at hdir
    exact absurd hdir hplain.1
  · rw [Pins.write, update_of_ne hne]
  · rw [Pins.write, update_self, Option.map_eq_some_iff] at hv
    obtain ⟨w, hw', rfl⟩ := hv
    rw [← (h.pinned e w hw').2.2, note, note, htype, if_pos hplain, if_pos hplain, hw.contents]
    rfl

theorem sound_writei_dev {off : Word} (h : Sound sb F s) (hlock : (s.inode e).lock = true)
    (htype : (onDisk sb s e).type = T_DEV) :
    Runs False (writei e src off) (fun _ t => Sound sb F t ∧ (t.inode e).lock = true) s := by
  have he := h.live hlock
  refine .seq (runs_getInode (.ite (fun _ => .ite (fun _ => ?_) fun _ => ⟨h, hlock⟩) fun hne => ?_))
  · refine (sound_iunlock h).bind fun _ t ht => (sound_ilock ht).bind fun _ u hu => ?_
    exact runs_pure ⟨hu.1, hu.2.lock⟩
  · rw [he.copy] at hne
    exact absurd htype hne

/-! ## Directories -/

theorem Sound.dir (h : Sound sb F s) (he : Live sb s e) (htype : (onDisk sb s e).type = T_DIR) :
    Dir sb s e (s.inode e).inum.toNat :=
  ⟨⟨h.disk.toWellFormed, h.super, he.alloc, rfl, he.copy, htype, (h.disk.dirs _ he.alloc htype).whole⟩,
    (h.disk.dirs _ he.alloc htype).distinct⟩

theorem table_ne_zero {x : List Byte} {v : Half} (hk : (table blk d)[k]? = some (some (x, v))) : v ≠ 0 := by
  rw [table, List.getElem?_map, Option.map_eq_some_iff] at hk
  obtain ⟨de, -, hde⟩ := hk
  rw [Dirent.slot] at hde
  split at hde
  · cases hde
  · rename_i hne
    cases hde
    exact hne

/-- The offset is one of an entry of the directory. -/
def IsEntry (sb : Superblock) (s : Kernel) (e : Ip) (off : Nat) : Prop :=
  (onDisk sb s e).type = T_DIR ∧ ∃ k, off = direntSize * k ∧ k < (table s.blk (onDisk sb s e)).length

theorem sound_dirlookup (h : Sound sb F s) (hlock : (s.inode e).lock = true) :
    Runs False (dirlookup e name) (fun r t => Sound sb F t ∧ (t.inode e).lock = true ∧
      (r = none → t = s ∧ (onDisk sb s e).type = T_DIR ∧ lookup (table s.blk (onDisk sb s e)) (trim name) = none) ∧
      ∀ x, r = some x → Spare F t x.1 ∧ IsEntry sb t e x.2) s := by
  have he := h.live hlock
  by_cases htype : (onDisk sb s e).type = T_DIR
  · refine (h.dir he htype).runs_dirlookup False.elim (fun hnone => ⟨h, hlock,
      fun _ => ⟨rfl, htype, hnone⟩, by rintro x ⟨⟩⟩) fun k v hk => ?_
    have hrange := (h.disk.dirs _ he.alloc htype).range k _ v hk
    have hv : (v.setWidth 32).toNat = v.toNat := by
      rw [BitVec.toNat_setWidth]
      exact Nat.mod_eq_of_lt (by have := v.isLt; omega)
    have hpos : v.toNat ≠ 0 := fun hzero => table_ne_zero hk (BitVec.eq_of_toNat_eq hzero)
    rw [h.dev e he.pos]
    refine runs_iget False.elim fun e' t hg => ⟨h.got hg (by rw [hv]; omega), ?_, by rintro ⟨⟩, ?_⟩
    · -- the directory is in use, so its place is not taken
      by_cases hne : e = e'
      · subst hne
        rw [hg.lock]
        exact hlock
      · cases hg <;> rw [setInode_inode_of_ne s _ hne] <;> exact hlock
    · rintro x ⟨⟩
      refine ⟨hg.spare h, ?_⟩
      rw [IsEntry, onDisk, hg.disk, hg.inum_of_pos he.pos]
      exact ⟨htype, k, rfl, (List.getElem?_eq_some_iff.mp hk).1⟩
  · refine .seq (runs_getInode (.ite (fun _ => runs_fail id (by rintro ⟨⟩)) fun hdir => ?_))
    rw [he.copy, not_not] at hdir
    exact absurd hdir htype

/-- One entry of a directory has been written. -/
theorem Sound.entered {o : Option (List Byte × Half)} (h : Sound sb F s) (he : Live sb s e)
    (hent : Entered sb e (s.inode e).inum.toNat k o s t) (hk : k ≤ (table s.blk (onDisk sb s e)).length)
    (hrange : ∀ x v, o = some (x, v) → v.toNat < sb.ninodes.toNat)
    (hdistinct : Distinct (store (table s.blk (onDisk sb s e)) k o)) (htype : (onDisk sb s e).type = T_DIR) :
    Sound sb F t := by
  have hold := h.disk.dirs _ he.alloc htype
  have hd : (t.inode e).d = dinodeOf sb t.blk (s.inode e).inum.toNat := hent.folder.copy
  have htype' : (t.inode e).d.type = T_DIR := by
    rw [hd]
    exact hent.folder.type
  rw [hent.rest]
  refine h.work_same he hent.folder.wf hent.elsewhere hd.symm ?_ (fun _ => ?_) ?_
  · rw [htype', he.copy]
    exact htype.symm
  · rw [hd]
    refine ⟨hent.folder.whole, fun j x v hj => ?_, ?_⟩
    · have hslots : table t.blk (dinodeOf sb t.blk (s.inode e).inum.toNat) = store (table s.blk (onDisk sb s e)) k o :=
        hent.slots
      rw [hslots, getElem?_store hk] at hj
      split at hj
      · exact hrange x v (Option.some.inj hj)
      · exact hold.range j x v hj
    · exact (congrArg Distinct hent.slots).mpr hdistinct
  · refine note_congr (htype'.trans htype.symm) fun hplain => ?_
    exact absurd htype hplain.1

theorem sound_dirlink (h : Sound sb F s) (hlock : (s.inode e).lock = true) (hinum : inum.toNat < sb.ninodes.toNat) :
    Runs False (dirlink e name inum) (fun _ t => Sound sb F t) s := by
  refine (sound_dirlookup h hlock).bind fun r t hr => ?_
  obtain ⟨ht, -, hnone, hsome⟩ := hr
  cases r with
  | some found => exact (sound_iput ht (hsome found rfl).1).bind fun _ u hu => runs_pure hu
  | none =>
    obtain ⟨rfl, htype, hnew⟩ := hnone rfl
    have he := h.live hlock
    have hdir := h.dir he htype
    refine .seq (runs_getInode (.seq ?_))
    rw [he.copy]
    refine hdir.runs_emptyFrom (k := 0) False.elim ?_ (Nat.zero_le _) (.seq ?_)
    · simp only [direntSize]
      omega
    have hle := hole_le (table t.blk (onDisk sb t e))
    have hde : (Dirent.ofBytes (Dirent.mk (inum.setWidth 16) (padName name)).bytes).slot = none ∨
        (Dirent.ofBytes (Dirent.mk (inum.setWidth 16) (padName name)).bytes).slot = some (trim name,
        inum.setWidth 16) := by
      rw [Dirent.ofBytes_bytes]
      by_cases hzero : (inum.setWidth 16 : Half) = 0
      · exact .inl (if_pos hzero)
      · exact .inr (Dirent.slot_new hzero name)
    refine hdir.runs_writeEntry ?_ ?_ False.elim (fun _ => ?_) fun u hu _ => ?_
    · have := hdir.whole
      rw [table_length] at hle
      simp only [direntSize, onDisk, tableOf] at *
      omega
    · rw [Dirent.bytes, List.length_append, le16_length, padName_length]
      rfl
    · exact .ite (by rintro ⟨⟩) fun _ => runs_fail id (by rintro ⟨⟩)
    · refine .ite (fun _ => runs_pure ?_) fun hne => absurd rfl hne
      refine h.entered he hu hle (fun x v hv => ?_) ?_ htype
      · rcases hde with hde | hde <;> rw [hde] at hv
        · cases hv
        · cases hv
          rw [BitVec.toNat_setWidth]
          exact (Nat.mod_le ..).trans_lt hinum
      · rcases hde with hde | hde <;> rw [hde]
        · exact hdir.distinct.clear hle
        · exact hdir.distinct.fill hle hnew _

theorem sound_isdiremptyFrom {fuel off : Nat} (h : Sound sb F s) (hlock : (s.inode e).lock = true)
    (htype : (onDisk sb s e).type = T_DIR) : Runs False (isdiremptyFrom e fuel off) (fun _ t => t = s) s := by
  have hdev : (onDisk sb s e).type ≠ T_DEV := by
    rw [htype]
    decide
  induction fuel generalizing off with
  | zero => rfl
  | succ fuel ih =>
    refine .seq (runs_getInode (.ite (fun _ => ?_) fun _ => rfl))
    refine (sound_readi_inode h (h.live hlock) hdev).bind ?_
    rintro r _ ⟨-, rfl⟩
    cases r with
    | none => exact runs_fail id (by rintro ⟨⟩)
    | some bytes => exact .ite (fun _ => runs_fail id (by rintro ⟨⟩)) fun _ => .ite (fun _ => rfl) fun _ => ih

theorem sound_isBusy (h : Sound sb F s) (hlock : (s.inode e).lock = true) :
    Runs False (isBusy e) (fun _ t => t = s) s := by
  refine .seq (runs_getInode (.ite (fun htype => ?_) fun _ => rfl))
  rw [(h.live hlock).copy] at htype
  refine .bind (Q := fun _ t => t = s) (.seq (runs_getInode (sound_isdiremptyFrom h hlock htype))) ?_
  rintro _ _ rfl
  rfl

theorem sound_unlinkEntry {ip : Ip} {off : Nat} (h : Sound sb F s) (hlock : (s.inode e).lock = true)
    (hoff : IsEntry sb s e off) : Runs False (unlinkEntry e ip off) (fun _ t => Sound sb F t) s := by
  obtain ⟨htype, k, rfl, hk⟩ := hoff
  have he := h.live hlock
  have hdir := h.dir he htype
  have hlen : (List.replicate direntSize (0 : Byte)).length = direntSize := List.length_replicate ..
  refine .seq (hdir.runs_writeEntry ?_ hlen False.elim (fun _ => ?_) fun t ht _ => ?_)
  · rw [table_length] at hk
    have := hdir.whole
    simp only [direntSize, onDisk] at *
    omega
  · exact .ite (fun _ => runs_fail id (by rintro ⟨⟩)) fun hne => absurd (by rintro ⟨⟩) hne
  · rw [Dirent.slot_zero] at ht
    have hsound := h.entered he ht (Nat.le_of_lt hk) (by rintro x v ⟨⟩) (hdir.distinct.clear (Nat.le_of_lt hk)) htype
    have hlock' : (t.inode e).lock = true := by
      rw [ht.rest, work_lock]
      exact hlock
    refine .ite (fun _ => runs_fail id (by rintro ⟨⟩)) fun _ => .seq
      (runs_getInode (.ite (fun _ => ?_) fun _ => hsound))
    exact sound_saveInode hsound hlock' ⟨rfl, rfl, rfl⟩

/-! ## A new inode -/

theorem sound_ialloc {type : Half} (h : Sound sb F s) (hdev : dev = ROOTDEV) :
    Runs False (ialloc dev type) (fun e t => Sound sb F t ∧ Spare F t e ∧ onDisk sb t e = { Dinode.zero with type } ∧
      ∀ e', 0 < (s.inode e').ref → (t.inode e').lock = (s.inode e').lock) s := by
  subst hdev
  refine runs_ialloc h.disk.toWellFormed h.super fun i blk l e t hpos hlt hfree hwf helse hself hg => ?_
  have hnum : (BitVec.ofNat 32 i).toNat = i := by
    rw [BitVec.toNat_ofNat]
    exact Nat.mod_eq_of_lt (hlt.trans sb.ninodes.isLt)
  have hsound : Sound sb F { s with blk, logged := l } := h.allocated hfree hwf helse (by rw [hself]; rfl)
  refine ⟨hsound.got hg (by rw [hnum]; exact ⟨hpos, hlt⟩), hg.spare hsound, ?_, fun e' hpos' => ?_⟩
  · rw [onDisk, hg.disk, hg.caches.2.2, hnum]
    exact hself
  · by_cases hne : e' = e
    · subst hne
      rw [hg.lock]
    · cases hg <;> rw [setInode_inode_of_ne _ _ hne]

end Xv6.Fs
