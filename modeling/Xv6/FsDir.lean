import Xv6.FsInodes
import Xv6.SlotTable

/- Directories are finite maps from names to inode numbers.

   1. The bytes of a directory are entries, and the entries a table of slots (`table`).
      Names are bound as `strncmp` sees them: up to the NUL, and up to `DIRSIZ` bytes.
   2. `dirlookup` finds the slot of the name, the loop of `dirlink` the first slot that is
      free.
   3. A write of one entry replaces one slot.
   4. `directory_is_finite_map`: search, insertion and removal in terms of the map. An
      insertion of a name that is there puts back the inode it has found; where that is an
      inode that the caller has locked, the directory itself for `.`, it waits for ever
      (`dirlink_dot_hangs`). -/
namespace Xv6.Fs
open Function Bits ByteBlock Log Command Allocation SlotTable
open BitVec (ofNat)

variable {P : Prop} {s t : Kernel} {sb : Superblock} {e ip : Ip} {blk blk' : Nat → Blk} {d : Dinode} {i k : Nat}
  {bs src name : List Byte}

/-! ## Entries -/

def entries (bs : List Byte) : List Dirent :=
  (List.range (bs.length / direntSize)).map fun k => Dirent.ofBytes ((bs.drop (direntSize * k)).take direntSize)

@[simp] theorem entries_length (bs : List Byte) : (entries bs).length = bs.length / direntSize := by
  simp [entries]

theorem entries_getElem (hk : k < (entries bs).length) :
    (entries bs)[k] = Dirent.ofBytes ((bs.drop (direntSize * k)).take direntSize) := by
  simp [entries]

theorem entries_drop (bs : List Byte) (k : Nat) : entries (bs.drop (direntSize * k)) = (entries bs).drop k := by
  apply List.ext_getElem
  · simp only [entries_length, List.length_drop, direntSize]
    omega
  · intro j h₁ h₂
    rw [List.getElem_drop, entries_getElem, entries_getElem, List.drop_drop, Nat.mul_add]

theorem entries_take (hk : direntSize * k ≤ bs.length) : entries (bs.take (direntSize * k)) = (entries bs).take k := by
  apply List.ext_getElem
  · simp only [entries_length, List.length_take, direntSize] at *
    omega
  · intro j h₁ h₂
    rw [List.getElem_take, entries_getElem, entries_getElem, List.drop_take, List.take_take]
    congr 2
    simp only [List.length_take, entries_length, direntSize] at *
    omega

theorem entries_append {a b : List Byte} (ha : a.length % direntSize = 0) :
    entries (a ++ b) = entries a ++ entries b := by
  have hlen : direntSize * (a.length / direntSize) = a.length := by
    simp only [direntSize] at *
    omega
  have hsplit := List.take_append_drop (a.length / direntSize) (entries (a ++ b))
  rw [← hsplit, ← entries_drop, ← entries_take, hlen, List.take_left, List.drop_left]
  rw [hlen, List.length_append]
  exact Nat.le_add_right ..

theorem entries_single (h : src.length = direntSize) : entries src = [Dirent.ofBytes src] := by
  have hone : src.length / direntSize = 1 := by
    rw [h]
    rfl
  have htake : src.take direntSize = src := List.take_of_length_le (Nat.le_of_eq h)
  rw [entries, hone]
  simp [htake]

/-- What an entry binds. -/
def Dirent.slot (de : Dirent) : Option (List Byte × Half) :=
  if de.inum = 0 then none else some (trim de.name, de.inum)

@[simp] theorem Dirent.ofBytes_bytes (de : Dirent) : Dirent.ofBytes de.bytes = de := by
  rw [Dirent.ofBytes, Dirent.bytes, rd16_le16]
  rfl

theorem Dirent.slot_new {inum : Half} (hinum : inum ≠ 0) (name : List Byte) :
    (Dirent.mk inum (padName name)).slot = some (trim name, inum) := by
  rw [Dirent.slot, if_neg hinum, trim_padName]

theorem Dirent.slot_zero : (Dirent.ofBytes (List.replicate direntSize 0)).slot = none := by decide

theorem Dirent.match_iff (de : Dirent) :
    (de.inum ≠ 0 ∧ namecmp name de.name = true) ↔ de.slot = some (trim name, de.inum) := by
  rw [Dirent.slot, namecmp, decide_eq_true_iff]
  by_cases hzero : de.inum = 0
  · rw [if_pos hzero]
    exact ⟨fun h => absurd hzero h.1, by rintro ⟨⟩⟩
  · rw [if_neg hzero, Option.some.injEq, Prod.mk.injEq]
    exact ⟨fun h => ⟨h.2.symm, rfl⟩, fun h => ⟨hzero, h.1.symm⟩⟩

def table (blk : Nat → Blk) (d : Dinode) : Table (List Byte) Half := (entries (contents blk d)).map Dirent.slot

/-- The table of directory `i`. -/
abbrev tableOf (sb : Superblock) (blk : Nat → Blk) (i : Nat) : Table (List Byte) Half := table blk (dinodeOf sb blk i)

theorem table_length (blk : Nat → Blk) (d : Dinode) : (table blk d).length = d.size.toNat / direntSize := by
  simp [table, contents]

theorem slots_splice (hk : direntSize * k ≤ bs.length) (hsrc : src.length = direntSize) :
    (entries (bs.take (direntSize * k) ++ (src ++ bs.drop (direntSize * k + src.length)))).map Dirent.slot =
      store ((entries bs).map Dirent.slot) k (Dirent.ofBytes src).slot := by
  have htake : (bs.take (direntSize * k)).length % direntSize = 0 := by
    rw [List.length_take, Nat.min_eq_left hk]
    exact Nat.mul_mod_right ..
  have hsrc' : src.length % direntSize = 0 := by
    rw [hsrc]
    rfl
  have hnext : direntSize * k + src.length = direntSize * (k + 1) := by
    rw [hsrc, Nat.mul_add, Nat.mul_one]
  rw [entries_append htake, entries_append hsrc', entries_single hsrc, entries_take hk, hnext, entries_drop, store]
  simp only [List.map_append, List.map_take, List.map_drop, List.map_cons, List.singleton_append]

/-! ## A locked directory -/

/-- Place `e` of the cache is in use for directory `i`, as it is on the disk. -/
structure Folder (sb : Superblock) (s : Kernel) (e : Ip) (i : Nat) : Prop where
  wf : WellFormed sb s.blk
  super : s.sb = sb
  alloc : Allocated sb (dinodeOf sb s.blk) i
  inum : (s.inode e).inum.toNat = i
  copy : (s.inode e).d = dinodeOf sb s.blk i
  type : (dinodeOf sb s.blk i).type = T_DIR
  whole : (dinodeOf sb s.blk i).size.toNat % direntSize = 0

structure Dir (sb : Superblock) (s : Kernel) (e : Ip) (i : Nat) : Prop extends Folder sb s e i where
  distinct : Distinct (tableOf sb s.blk i)

namespace Folder

theorem notDev (h : Folder sb s e i) : (dinodeOf sb s.blk i).type ≠ T_DEV := by
  rw [h.type]
  decide

theorem sized (h : Folder sb s e i) : Sized s.blk (dinodeOf sb s.blk i) := h.wf.sized i h.alloc h.notDev

/-- `readi` of an entry. -/
theorem runs_readEntry {Q : Option (List Byte) → Kernel → Prop} (h : Folder sb s e i)
    (hk : direntSize * k < (dinodeOf sb s.blk i).size.toNat) (hP : P → Calm sb s)
    (hQ : ∀ bytes, bytes.length = direntSize → (tableOf sb s.blk i)[k]? = some
      (Dirent.ofBytes bytes).slot →
      Q (some bytes) s) :
    Runs P (readi e (ofNat 32 (direntSize * k)) (ofNat 32 direntSize)) Q s := by
  have hmax := h.sized.max
  have hwhole := h.whole
  have hsize : (ofNat 32 direntSize).toNat = direntSize := rfl
  have hoff : (ofNat 32 (direntSize * k)).toNat = direntSize * k := by
    rw [BitVec.toNat_ofNat]
    refine Nat.mod_eq_of_lt ?_
    simp only [direntSize, MAXFILE, NDIRECT, NINDIRECT, BSIZE] at *
    omega
  have hle : ofNat 32 (direntSize * k) ≤ (dinodeOf sb s.blk i).size := by
    rw [BitVec.le_def, hoff]
    exact Nat.le_of_lt hk
  have hfit : (ofNat 32 (direntSize * k)).toNat + (ofNat 32 direntSize).toNat < 2 ^ 32 := by
    rw [hoff, hsize]
    simp only [direntSize, MAXFILE, NDIRECT, NINDIRECT, BSIZE] at *
    omega
  have hlen : (contents s.blk (dinodeOf sb s.blk i)).length = (dinodeOf sb s.blk i).size.toNat := by simp [contents]
  refine runs_readi h.wf.vol h.alloc h.copy h.sized h.notDev (fun hp _ _ => hP hp) (fun hbad => ?_)
    fun _ _ => hQ _ ?_ ?_
  · rcases hbad with hlt | hwrap
    · exact absurd (BitVec.le_def.mp hle) (Nat.not_le.mpr (BitVec.lt_def.mp hlt))
    · omega
  · rw [hoff, hsize, List.length_take, List.length_drop, hlen]
    simp only [direntSize] at *
    omega
  · have hlt : k < (entries (contents s.blk (dinodeOf sb s.blk i))).length := by
      rw [entries_length, hlen]
      simp only [direntSize] at *
      omega
    rw [hoff, hsize, tableOf, table, List.getElem?_map, List.getElem?_eq_getElem hlt, entries_getElem]
    rfl

theorem table_getElem? (h : Folder sb s e i) (hk : (dinodeOf sb s.blk i).size.toNat ≤ direntSize * k) :
    (tableOf sb s.blk i)[k]? = none := by
  rw [List.getElem?_eq_none_iff, table_length]
  have := h.whole
  simp only [direntSize] at *
  omega

end Folder

namespace Dir

/-- The loop of `dirlookup` at slot `k`. -/
theorem runs_lookupFrom {Q : Option (Ip × Nat) → Kernel → Prop} {fuel : Nat} (h : Dir sb s e i) (hP : P → Calm sb s)
    (hfuel : (dinodeOf sb s.blk i).size.toNat < direntSize * (k + fuel))
    (hbefore : ∀ j, j < k → ∀ v, (tableOf sb s.blk i)[j]? ≠ some (some (trim name, v)))
    (hnone : lookup (tableOf sb s.blk i) (trim name) = none → Q none s)
    (hsome : ∀ k v, (tableOf sb s.blk i)[k]? = some (some (trim name, v)) →
      Runs P (iget (s.inode e).dev (v.setWidth 32)) (fun e' t => Q (some (e', direntSize * k)) t) s) :
    Runs P (lookupFrom e name fuel (direntSize * k)) Q s := by
  have hend : ∀ k, (∀ j, j < k → ∀ v, (tableOf sb s.blk i)[j]? ≠ some (some (trim name, v))) →
      (dinodeOf sb s.blk i).size.toNat ≤ direntSize * k → Q none s := by
    intro k hbefore hle
    refine hnone (lookup_eq_none.mpr fun j v hj => ?_)
    rcases Nat.lt_or_ge j k with hlt | hge
    · exact hbefore j hlt v hj
    · rw [h.table_getElem? (hle.trans (Nat.mul_le_mul_left _ hge))] at hj
      cases hj
  induction fuel generalizing k with
  | zero => exact hend k hbefore (Nat.le_of_lt hfuel)
  | succ fuel ih =>
    refine .seq (runs_getInode (.ite (fun hlt => .seq ?_) fun hge => ?_))
    · rw [h.copy] at hlt
      refine h.runs_readEntry hlt hP fun bytes hlen hslot => .ite (fun hne => absurd hlen hne) fun _ => ?_
      refine .ite (fun hmatch => .seq ?_) fun hother => ?_
      · rw [(Dirent.ofBytes bytes).match_iff.mp hmatch] at hslot
        exact (hsome k _ hslot).imp fun _ _ hq => hq
      · refine ih (k := k + 1) (by rw [Nat.add_assoc, Nat.add_comm 1]; exact hfuel) fun j hj v hjv => ?_
        rcases Nat.lt_succ_iff_lt_or_eq.mp hj with hlt' | rfl
        · exact hbefore j hlt' v hjv
        · rw [hslot, Option.some.injEq] at hjv
          have hv : v = (Dirent.ofBytes bytes).inum := by
            rw [Dirent.slot] at hjv
            split at hjv
            · cases hjv
            · exact (congrArg Prod.snd (Option.some.inj hjv)).symm
          subst hv
          exact hother ((Dirent.ofBytes bytes).match_iff.mpr hjv)
    · rw [h.copy] at hge
      exact hend k hbefore (Nat.le_of_not_lt hge)

theorem runs_dirlookup {Q : Option (Ip × Nat) → Kernel → Prop} (h : Dir sb s e i) (hP : P → Calm sb s)
    (hnone : lookup (tableOf sb s.blk i) (trim name) = none → Q none s)
    (hsome : ∀ k v, (tableOf sb s.blk i)[k]? = some (some (trim name, v)) →
      Runs P (iget (s.inode e).dev (v.setWidth 32)) (fun e' t => Q (some (e', direntSize * k)) t) s) :
    Runs P (dirlookup e name) Q s := by
  refine .seq (runs_getInode (.ite (fun hne => ?_) fun _ => ?_))
  · rw [h.copy] at hne
    exact absurd h.type hne
  · rw [h.copy]
    refine h.runs_lookupFrom (k := 0) hP ?_ nofun hnone hsome
    simp only [direntSize]
    omega

/-- The loop of `dirlink` at slot `k`: it ends at the first slot that is free. -/
theorem runs_emptyFrom {Q : Nat → Kernel → Prop} {fuel : Nat} (h : Dir sb s e i) (hP : P → Calm sb s)
    (hfuel : (dinodeOf sb s.blk i).size.toNat < direntSize * (k + fuel))
    (hk : k ≤ hole (tableOf sb s.blk i))
    (hQ : Q (direntSize * hole (tableOf sb s.blk i)) s) :
    Runs P (emptyFrom e fuel (direntSize * k)) Q s := by
  have hend : ∀ k, k ≤ hole (tableOf sb s.blk i) →
      (∀ p, (tableOf sb s.blk i)[k]? ≠ some (some p)) → Q (direntSize * k) s := by
    intro k hk hfree
    rcases Nat.lt_or_eq_of_le hk with hlt | rfl
    · obtain ⟨p, hp⟩ := bound_of_lt_hole hlt
      exact absurd hp (hfree p)
    · exact hQ
  have hout : ∀ k, (dinodeOf sb s.blk i).size.toNat ≤ direntSize * k → ∀ p,
      (tableOf sb s.blk i)[k]? ≠ some (some p) := by
    intro k hle p hp
    rw [h.table_getElem? hle] at hp
    cases hp
  induction fuel generalizing k with
  | zero => exact hend k hk (hout k (Nat.le_of_lt hfuel))
  | succ fuel ih =>
    refine .seq (runs_getInode (.ite (fun hlt => .seq ?_) fun hge => ?_))
    · rw [h.copy] at hlt
      refine h.runs_readEntry hlt hP fun bytes hlen hslot => .ite (fun hne => absurd hlen hne) fun _ => ?_
      refine .ite (fun hzero => hend k hk fun p hp => ?_) fun hne => ?_
      · rw [hslot, Dirent.slot, if_pos hzero] at hp
        cases hp
      · refine ih (k := k + 1) (by rw [Nat.add_assoc, Nat.add_comm 1]; exact hfuel) ?_
        refine Nat.lt_of_le_of_ne hk ?_
        rintro rfl
        rw [Dirent.slot, if_neg hne] at hslot
        exact not_bound_hole _ _ hslot
    · rw [h.copy] at hge
      exact hend k hk (hout k (Nat.le_of_not_lt hge))

end Dir

/-! ## One entry is written -/

/-- Slot `k` of directory `i` has been written, and nothing else. -/
structure Entered (sb : Superblock) (e : Ip) (i k : Nat) (o : Option (List Byte × Half)) (s t : Kernel) : Prop where
  folder : Folder sb t e i
  slots : tableOf sb t.blk i = store (tableOf sb s.blk i) k o
  elsewhere : Elsewhere sb i s.blk t.blk
  rest : t = s.work e t.blk t.logged (t.inode e).d

/-- No name is bound twice after it. -/
structure Stored (sb : Superblock) (e : Ip) (i k : Nat) (o : Option (List Byte × Half)) (s t : Kernel) : Prop
    extends Entered sb e i k o s t where
  distinct : Distinct (tableOf sb t.blk i)

theorem Stored.dir {o : Option (List Byte × Half)} (h : Stored sb e i k o s t) : Dir sb t e i := ⟨h.folder, h.distinct⟩

theorem Entered.stored {o : Option (List Byte × Half)} (h : Entered sb e i k o s t)
    (hdistinct : Distinct (store (tableOf sb s.blk i) k o)) : Stored sb e i k o s t :=
  ⟨h, by rw [h.slots]; exact hdistinct⟩

namespace Folder

theorem entered {l : List Nat} {T' : Nat → Dinode} (h : Folder sb s e i)
    (hk : direntSize * k ≤ (dinodeOf sb s.blk i).size.toNat) (hsrc : src.length = direntSize)
    (hw : Wrote sb i s.blk (dinodeOf sb s.blk) (direntSize * k) src blk T') :
    Entered sb e i k (Dirent.ofBytes src).slot s (s.work e blk l (T' i)) := by
  obtain ⟨hwf, hT⟩ := h.wf.wrote hw
  have hTi := hT i h.alloc.2.1
  have htype : (T' i).type = (dinodeOf sb s.blk i).type := by rw [hw.same]
  have hlen : (contents s.blk (dinodeOf sb s.blk i)).length = (dinodeOf sb s.blk i).size.toNat := by simp [contents]
  refine ⟨⟨hwf, h.super, ?_, ?_, ?_, ?_, ?_⟩, ?_, h.wf.elsewhere hw, ?_⟩
  · change Allocated sb (dinodeOf sb blk) i
    rw [Allocated, hTi, htype]
    exact h.alloc
  · simp only [Kernel.work, update_self]
    exact h.inum
  · rw [work_inode]
    exact hTi.symm
  · change (dinodeOf sb blk i).type = T_DIR
    rw [hTi, htype, h.type]
  · change (dinodeOf sb blk i).size.toNat % direntSize = 0
    have hwhole := h.whole
    rw [hTi, hw.size, hsrc]
    simp only [direntSize] at *
    omega
  · change table blk (dinodeOf sb blk i) = _
    rw [table, hTi, hw.contents]
    exact slots_splice (by rw [hlen]; exact hk) hsrc
  · rw [work_inode]
    rfl

theorem runs_writeEntry {Q : Option Nat → Kernel → Prop} (h : Folder sb s e i)
    (hk : direntSize * k ≤ (dinodeOf sb s.blk i).size.toNat) (hsrc : src.length = direntSize)
    (hP : P → Enough sb s (dinodeOf sb s.blk i) (direntSize * k) direntSize)
    (hbad : MAXFILE * BSIZE < direntSize * (k + 1) → Q none s)
    (hQ : ∀ t, Entered sb e i k (Dirent.ofBytes src).slot s t →
      (P → ∃ K W, Room sb K W t ∧ t.locked = [] ∧ iblock sb i ∈ W) → Q (some direntSize) t) :
    Runs P (writei e src (ofNat 32 (direntSize * k))) Q s := by
  have hmax := h.sized.max
  have hoff : (ofNat 32 (direntSize * k)).toNat = direntSize * k := by
    rw [BitVec.toNat_ofNat]
    refine Nat.mod_eq_of_lt ?_
    simp only [direntSize, MAXFILE, NDIRECT, NINDIRECT, BSIZE] at *
    omega
  have hroom : ∃ K W, P → WriteRoom sb K W s i (dinodeOf sb s.blk i) (direntSize * k)
      ((direntSize * k + direntSize + (BSIZE - 1)) / BSIZE) := by
    by_cases hp : P
    · obtain ⟨K, W, hroom⟩ := (hP hp).writeRoom h.wf.vol.layout i
      exact ⟨K, W, fun _ => hroom⟩
    · exact ⟨0, ∅, fun hp' => absurd hp' hp⟩
  obtain ⟨K, W, hroom⟩ := hroom
  refine runs_writei (K := K) (W := W) h.wf.vol h.super h.alloc h.inum h.copy h.sized h.notDev rfl
    (by rw [hsrc]; decide) (fun hp _ _ => ?_) (fun hfull => ?_) fun _ _ blk l T' hw _ hleft => ?_
  · rw [hoff, hsrc]
    exact hroom hp
  · rcases hfull with hlt | hfull
    · rw [BitVec.lt_def, hoff] at hlt
      omega
    · rw [hoff, hsrc] at hfull
      exact hbad hfull
  · rw [hoff] at hw
    rw [hsrc]
    refine hQ _ (h.entered hk hsrc hw) fun hp => ?_
    obtain ⟨W', hroom', hmem⟩ := hleft hp
    exact ⟨K, W', hroom', (hP hp).locked, hmem⟩

end Folder

theorem Entered.relinked {o : Option (List Byte × Half)} {l : List Nat} (h : Entered sb e i k o s t)
    (hd : SameBlocks (dinodeOf sb t.blk i) d) : Entered sb e i k o s (t.work e (saveBlk sb t.blk i d) l d) := by
  obtain ⟨hwf, helse, hself, hcontents⟩ := h.folder.wf.save h.folder.alloc hd
  have htype : d.type = T_DIR := hd.type.trans h.folder.type
  refine ⟨⟨hwf, h.folder.super, ?_, ?_, ?_, ?_, ?_⟩, ?_, h.elsewhere.trans helse, ?_⟩
  · change Allocated sb (dinodeOf sb (saveBlk sb t.blk i d)) i
    rw [Allocated, hself, hd.type]
    exact h.folder.alloc
  · simp only [Kernel.work, update_self]
    exact h.folder.inum
  · rw [work_inode]
    exact hself.symm
  · exact hself.symm ▸ htype
  · change (dinodeOf sb (saveBlk sb t.blk i d) i).size.toNat % direntSize = 0
    rw [hself, hd.size]
    exact h.folder.whole
  · change table (saveBlk sb t.blk i d) (dinodeOf sb (saveBlk sb t.blk i d) i) = _
    rw [table, hself, hcontents (by rw [htype]; decide)]
    exact h.slots
  · rw [h.rest, work_work, work_inode]
    rfl

theorem Enough.calm {off n : Nat} (h : Enough sb s d off n) : Calm sb s := by
  have := h.bufs
  exact ⟨h.disk, h.locked, by omega⟩

/-- The inode is not cached at a place that is locked, and no free place is. -/
def Unlocked (s : Kernel) (dev inum : Word) : Prop :=
  ∀ e, Caches s dev inum e ∨ (s.inode e).ref = 0 → (s.inode e).lock = false

/-- The inode is cached, and only at places that are locked. -/
def CachedLocked (s : Kernel) (dev inum : Word) : Prop :=
  (∃ e, Caches s dev inum e) ∧ ∀ e, Caches s dev inum e → (s.inode e).lock = true

theorem Got.locked {dev inum : Word} (hg : Got s dev inum e t) (h : CachedLocked s dev inum) :
    (t.inode e).lock = true := by
  rw [hg.lock]
  cases hg with
  | hit hcached => exact h.2 e hcached
  | miss _ hnone =>
    obtain ⟨e', hcached⟩ := h.1
    exact absurd hcached (hnone e')

theorem Got.unlocked {dev inum : Word} (hg : Got s dev inum e t) (h : Unlocked s dev inum) :
    (t.inode e).lock = false := by
  rw [hg.lock]
  cases hg with
  | hit hcached => exact h e (.inl hcached)
  | miss hfree hnone => exact h e (.inr hfree)

namespace Dir

/-- `dirlink` of a name that is there. -/
theorem runs_dirlink_old {Q : Bool → Kernel → Prop} {v : Half} {inum : Word} (h : Dir sb s e i)
    (hv : lookup (tableOf sb s.blk i) (trim name) = some v)
    (hP : P → Calm sb s ∧ Cacheable s (s.inode e).dev (v.setWidth 32) ∧ Unlocked s (s.inode e).dev (v.setWidth 32))
    (hQ : ¬CachedLocked s (s.inode e).dev (v.setWidth 32) → ∀ t, AsBefore s t → Q false t) :
    Runs P (dirlink e name inum) Q s := by
  refine .seq (h.runs_dirlookup (fun hp => (hP hp).1) (fun hnone => ?_) fun k w hw => ?_)
  · rw [hv] at hnone
    cases hnone
  · obtain rfl : w = v := by
      have := (lookup_eq_some h.distinct).mpr ⟨k, hw⟩
      rw [hv] at this
      exact (Option.some.inj this).symm
    refine runs_iget (fun hp => (hP hp).2.1) fun e' t hg => ?_
    refine .seq (runs_iput_keeps hg.keeps (fun hp => hg.unlocked (hP hp).2.2) fun hlock => ?_)
    refine hQ (fun hlocked => ?_) _ hg.asBefore
    exact Bool.false_ne_true (hlock.symm.trans (hg.locked hlocked))

/-- `dirlink` of a new name. -/
theorem runs_dirlink_new {Q : Bool → Kernel → Prop} {inum : Word} (h : Dir sb s e i)
    (hnew : lookup (tableOf sb s.blk i) (trim name) = none) (hinum : (inum.setWidth 16 : Half) ≠ 0)
    (hP : P → Enough sb s (dinodeOf sb s.blk i) (direntSize * hole (tableOf sb s.blk i)) direntSize ∧
      direntSize * (hole (tableOf sb s.blk i) + 1) ≤ MAXFILE * BSIZE)
    (hQ : ∀ t, Stored sb e i (hole (tableOf sb s.blk i)) (some (trim name, inum.setWidth 16)) s t →
      Q true t) :
    Runs P (dirlink e name inum) Q s := by
  refine .seq (h.runs_dirlookup (fun hp => (hP hp).1.calm) (fun _ => .seq (runs_getInode (.seq ?_))) fun k w hw => ?_)
  · rw [h.copy]
    refine h.runs_emptyFrom (k := 0) (fun hp => (hP hp).1.calm) ?_ (Nat.zero_le _) (.seq ?_)
    · simp only [direntSize]
      omega
    have hle := hole_le (tableOf sb s.blk i)
    have hslot : (Dirent.ofBytes (Dirent.mk (inum.setWidth 16) (padName name)).bytes).slot =
        some (trim name, inum.setWidth 16) := by
      rw [Dirent.ofBytes_bytes, Dirent.slot_new hinum]
    refine h.runs_writeEntry ?_ ?_ (fun hp => (hP hp).1) (fun hfull => ?_) fun t ht _ => ?_
    · rw [table_length] at hle
      simp only [direntSize] at *
      omega
    · rw [Dirent.bytes, List.length_append, le16_length, padName_length]
      rfl
    · refine .ite (by rintro ⟨⟩) fun _ => runs_fail (fun hp => ?_) (by rintro ⟨⟩)
      have := (hP hp).2
      omega
    · rw [hslot] at ht
      exact .ite (fun _ => runs_pure (hQ t (ht.stored (h.distinct.fill hle hnew _)))) fun hne => absurd rfl hne
  · exact absurd hw (lookup_eq_none.mp hnew k w)

/-- The entry is cleared, and the link count of the directory may be one less. -/
theorem runs_unlinkEntry {Q : Unit → Kernel → Prop} {p : List Byte × Half} (h : Dir sb s e i)
    (hk : (tableOf sb s.blk i)[k]? = some (some p))
    (hP : P → Enough sb s (dinodeOf sb s.blk i) (direntSize * k) direntSize)
    (hQ : ∀ t, Stored sb e i k none s t → Q () t) : Runs P (unlinkEntry e ip (direntSize * k)) Q s := by
  have hlt : k < (tableOf sb s.blk i).length := (List.getElem?_eq_some_iff.mp hk).1
  have hmax := h.sized.max
  have hle : direntSize * (k + 1) ≤ (dinodeOf sb s.blk i).size.toNat := by
    rw [table_length] at hlt
    simp only [direntSize] at *
    omega
  have hlen : (List.replicate direntSize (0 : Byte)).length = direntSize := List.length_replicate ..
  have hdistinct := h.distinct.clear (Nat.le_of_lt hlt)
  refine .seq (h.runs_writeEntry ?_ hlen hP (fun hfull => ?_) ?_)
  · exact (Nat.mul_le_mul_left _ (Nat.le_succ k)).trans hle
  · omega
  · intro t ht hroom
    rw [Dirent.slot_zero] at ht
    refine .ite (fun hne => absurd rfl hne) fun _ => .seq
      (runs_getInode (.ite (fun _ => ?_) fun _ => hQ t (ht.stored hdistinct)))
    obtain ⟨K, hroom⟩ := exists_of_imp 0 hroom
    obtain ⟨W, hroom⟩ := exists_of_imp ∅ hroom
    refine runs_saveInode (K := K) (W := W) h.wf.vol.layout ht.folder.super ht.folder.inum h.alloc.2.1
      (fun hp => ⟨(hroom hp).1, (hroom hp).2.1⟩) fun l _ => hQ _ ((ht.relinked ?_).stored hdistinct)
    rw [ht.folder.copy]
    exact ⟨rfl, rfl, rfl⟩

end Dir

/-! ## The map -/

theorem toNat_setWidth_16 {inum : Word} (h : inum.toNat < 65536) : (inum.setWidth 16 : Half).toNat = inum.toNat := by
  rw [BitVec.toNat_setWidth]
  exact Nat.mod_eq_of_lt h

/-- A directory is a finite map. `dirlookup` returns the inode that the name is bound to and the offset of its
entry, or nothing. `dirlink` of a bound name fails and changes nothing if the inode it is bound to is not locked,
and does not return if it is; of a new name, it adds that binding in the first free slot or at the end. What
`sys_unlink` does to the entry at an offset removes its binding. -/
theorem directory_is_finite_map (h : Dir sb s e i) (name : List Byte) (inum : Word) (hpos : 0 < inum.toNat)
    (hsmall : inum.toNat < 65536) :
    Runs (Calm sb s ∧ ∀ v, lookup (tableOf sb s.blk i) (trim name) = some v →
        Cacheable s (s.inode e).dev (v.setWidth 32)) (dirlookup e name)
      (fun r t => (lookup (tableOf sb s.blk i) (trim name) = none ∧ r = none ∧ t = s) ∨
        ∃ k v e', (tableOf sb s.blk i)[k]? = some (some (trim name, v)) ∧
          lookup (tableOf sb s.blk i) (trim name) = some v ∧ r = some (e', direntSize * k) ∧
          Got s (s.inode e).dev (v.setWidth 32) e' t) s ∧
    (∀ v, lookup (tableOf sb s.blk i) (trim name) = some v → Unlocked s (s.inode e).dev (v.setWidth 32) →
      Runs (Calm sb s ∧ Cacheable s (s.inode e).dev (v.setWidth 32)) (dirlink e name inum)
        (fun r t => r = false ∧ AsBefore s t) s) ∧
    (∀ v, lookup (tableOf sb s.blk i) (trim name) = some v → CachedLocked s (s.inode e).dev
      (v.setWidth 32) →
      ∀ r t, dirlink e name inum s ≠ .ok (r, t)) ∧
    (lookup (tableOf sb s.blk i) (trim name) = none →
      Runs (Enough sb s (dinodeOf sb s.blk i) (direntSize * hole (tableOf sb s.blk i)) direntSize ∧
          direntSize * (hole (tableOf sb s.blk i) + 1) ≤ MAXFILE * BSIZE) (dirlink e name inum)
        (fun r t => r = true ∧ ∃ v : Half, v.toNat = inum.toNat ∧
          Stored sb e i (hole (tableOf sb s.blk i)) (some (trim name, v)) s t ∧
          lookup (tableOf sb t.blk i) =
            update (lookup (tableOf sb s.blk i)) (trim name) (some v)) s) ∧
    (∀ k x v ip, (tableOf sb s.blk i)[k]? = some (some (x, v)) →
      Runs (Enough sb s (dinodeOf sb s.blk i) (direntSize * k) direntSize) (unlinkEntry e ip (direntSize * k))
        (fun _ t => Stored sb e i k none s t ∧ lookup (tableOf sb t.blk i) =
          update (lookup (tableOf sb s.blk i)) x none) s) := by
  refine ⟨?_, fun v hv hfree => ?_, fun v hv hlocked r t hok => ?_, fun hnew => ?_, fun k x v ip hk => ?_⟩
  · refine h.runs_dirlookup And.left (fun hnone => .inl ⟨hnone, rfl, rfl⟩) fun k v hk => ?_
    have hv := (lookup_eq_some h.distinct).mpr ⟨k, hk⟩
    exact runs_iget (fun hp => hp.2 v hv) fun e' t hg => .inr ⟨k, v, e', hk, hv, rfl, hg⟩
  · exact h.runs_dirlink_old hv (fun hp => ⟨hp.1, hp.2, hfree⟩) fun _ t ht => ⟨rfl, ht⟩
  · have hnever : Runs False (dirlink e name inum) (fun _ _ => False) s :=
      h.runs_dirlink_old hv False.elim fun hfree => absurd hlocked hfree
    rw [Runs, wp, hok] at hnever
    exact hnever
  · have hv := toNat_setWidth_16 hsmall
    refine h.runs_dirlink_new hnew (fun hzero => ?_) id fun t ht => ⟨rfl, inum.setWidth 16, hv, ht, ?_⟩
    · rw [hzero] at hv
      have hzero : (0 : Half).toNat = 0 := rfl
      omega
    · rw [ht.slots]
      exact lookup_fill h.distinct (hole_le _) (not_bound_hole _) hnew _
  · refine h.runs_unlinkEntry hk id fun t ht => ⟨ht, ?_⟩
    rw [ht.slots]
    exact lookup_clear h.distinct hk

/-! ### A directory with one name -/

/-- An operation has begun, and the directory of the small disk is locked, at place 0 of the cache. -/
def tinyRoot : Kernel :=
  { boot tinyDisk with
    outstanding := 1
    inode := update (boot tinyDisk).inode ⟨0, NINODE_pos⟩
      ⟨ROOTDEV, ROOTINO, 1, true, true, dinodeOf tinySb tinyDisk 1⟩ }

theorem tinyRoot_table : tableOf tinySb tinyRoot.blk 1 = [] := by
  refine List.eq_nil_of_length_eq_zero ?_
  rw [table_length]
  decide +kernel

theorem tinyRoot_dir : Dir tinySb tinyRoot ⟨0, by decide⟩ 1 where
  wf := tiny_wellFormed
  super := by decide +kernel
  alloc := by decide +kernel
  inum := rfl
  copy := rfl
  type := by decide +kernel
  whole := by decide +kernel
  distinct := by
    rw [tinyRoot_table]
    nofun

/-- The directory after `.` has been entered in it. -/
def tinyDot : Kernel :=
  match dirlink ⟨0, NINODE_pos⟩ dot ROOTINO tinyRoot with
  | .ok (_, t) => t
  | .error _ => tinyRoot

theorem tinyDot_stored : Stored tinySb ⟨0, by decide⟩ 1 0 (some (dot, 1)) tinyRoot tinyDot := by
  have hrun : Runs True (dirlink ⟨0, by decide⟩ dot ROOTINO)
      (fun _ t => Stored tinySb ⟨0, by decide⟩ 1 0 (some (dot, 1)) tinyRoot t) tinyRoot := by
    refine tinyRoot_dir.runs_dirlink_new ?_ (by decide) (fun _ => ?_) fun t ht => ?_
    · rw [tinyRoot_table]
      rfl
    · rw [tinyRoot_table]
      exact ⟨⟨by decide, rfl, List.nodup_nil,
        le_refl _, by decide, by decide +kernel, by decide, by decide +kernel⟩, by decide⟩
    · rw [tinyRoot_table] at ht
      exact ht
  obtain ⟨_, t, hok, ht⟩ := hrun.returns trivial
  rw [tinyDot, hok]
  exact ht

theorem tinyDot_table : tableOf tinySb tinyDot.blk 1 = [some (dot, 1)] := by
  rw [tinyDot_stored.slots, tinyRoot_table]
  rfl

/-- A second name. -/
theorem directory_is_finite_map_tiny : ∃ t, dirlink ⟨0, by decide⟩ [102] 2 tinyDot = .ok (true, t) ∧
    lookup (tableOf tinySb t.blk 1) [102] = some 2 ∧
    lookup (tableOf tinySb t.blk 1) dot = some 1 := by
  obtain ⟨-, -, -, hinsert, -⟩ := directory_is_finite_map tinyDot_stored.dir [102] 2 (by decide) (by decide)
  rw [tinyDot_table] at hinsert
  have hroom : Enough tinySb tinyDot (dinodeOf tinySb tinyDot.blk 1) 16 direntSize :=
    ⟨by decide, by decide +kernel, by decide +kernel, by decide +kernel, by decide +kernel, by decide +kernel,
      by decide +kernel, by decide +kernel⟩
  obtain ⟨r, t, hok, hr, v, hv, -, hmap⟩ := (hinsert rfl).returns ⟨hroom, by decide⟩
  subst hr
  obtain rfl : v = 2 := BitVec.eq_of_toNat_eq hv
  refine ⟨t, hok, ?_, ?_⟩ <;> rw [hmap] <;> rfl

/-- The directory in which `.` is bound to itself: `dirlink` finds it, gets the inode that the caller has locked and
waits for its lock to put it back. There are buffers, and there is place in the cache. -/
theorem dirlink_dot_hangs :
    Dir tinySb tinyDot ⟨0, by decide⟩ 1 ∧ lookup (tableOf tinySb tinyDot.blk 1)
      (trim dot) = some 1 ∧
      Calm tinySb tinyDot ∧ Cacheable tinyDot ROOTDEV 1 ∧
      dirlink ⟨0, by decide⟩ dot 2 tinyDot = .error .hang := by
  refine ⟨tinyDot_stored.dir, ?_, ⟨by decide, by decide +kernel, by decide +kernel⟩, ⟨⟨0, by decide⟩, ?_⟩,
    eq_error_iff.mpr ?_⟩
  · rw [tinyDot_table]
    rfl
  · exact .inl (by decide +kernel)
  · decide +kernel

end Xv6.Fs
