import Xv6.Allocation
import Xv6.FsLayout

/- The file system on the disk.

   Blocks below `dataStart` are metadata: the boot block, the super block, the log, the
   inodes, the free map. The others belong to inodes. An inode has 141 slots for the
   addresses of its blocks: 12 direct ones, one for the indirect block, and the entries of
   that block. A slot that names no block is 0.

   1. Where the inodes and the bits of the free map lie (`Layout`), and what a write to
      a block leaves alone.
   2. The slots of an inode (`slot`), and how each write to the inode or to its indirect
      block changes them.
   3. `Vol`: the free map and the slots of all inodes agree. The slot `none` is the block
      that has been allocated and is not in an inode yet.
   4. The bytes of an inode (`contents`), which depend on its own blocks only (`Kept`). -/
namespace Xv6.Fs
open Function Bits ByteBlock Log Allocation

variable {w : Word}
variable {sb : Superblock} {blk blk' blk'' : Nat → Blk} {d d' : Dinode} {T : Nat → Dinode} {b i k bn h : Nat} {x : Blk}

/-! ## The layout -/

/-- The first block that is not metadata. -/
def dataStart (sb : Superblock) : Nat := sb.size.toNat - sb.nblocks.toNat

/-- Super block, inodes, free map and data lie one after the other; there is a root inode. -/
structure Layout (sb : Superblock) : Prop where
  super : 1 < sb.inodestart.toNat
  inodes : (sb.ninodes.toNat - 1) / IPB + sb.inodestart.toNat < sb.bmapstart.toNat
  bitmap : (sb.size.toNat - 1) / BPB + sb.bmapstart.toNat < dataStart sb
  root : 1 < sb.ninodes.toNat

namespace Layout

theorem dataStart_le (sb : Superblock) : dataStart sb ≤ sb.size.toNat := Nat.sub_le ..

theorem iblock_eq (hl : Layout sb) (hi : i < sb.ninodes.toNat) :
    iblock sb i = i / IPB + sb.inodestart.toNat := by
  have hle : i / IPB ≤ (sb.ninodes.toNat - 1) / IPB := Nat.div_le_div_right (by omega)
  have := hl.inodes
  have := sb.bmapstart.isLt
  exact Nat.mod_eq_of_lt (by omega)

theorem iblock_bounds (hl : Layout sb) (hi : i < sb.ninodes.toNat) :
    1 < iblock sb i ∧ iblock sb i < sb.bmapstart.toNat := by
  have hle : i / IPB ≤ (sb.ninodes.toNat - 1) / IPB := Nat.div_le_div_right (by omega)
  have := hl.inodes
  have := hl.super
  rw [hl.iblock_eq hi]
  simp only [IPB] at *
  omega

theorem bblock_eq (hl : Layout sb) (hb : b < sb.size.toNat) :
    bblock sb b = b / BPB + sb.bmapstart.toNat := by
  have hle : b / BPB ≤ (sb.size.toNat - 1) / BPB := Nat.div_le_div_right (by omega)
  have := hl.bitmap
  have := dataStart_le sb
  have := sb.size.isLt
  exact Nat.mod_eq_of_lt (by omega)

theorem bblock_bounds (hl : Layout sb) (hb : b < sb.size.toNat) :
    sb.bmapstart.toNat ≤ bblock sb b ∧ bblock sb b < dataStart sb := by
  have hle : b / BPB ≤ (sb.size.toNat - 1) / BPB := Nat.div_le_div_right (by omega)
  have := hl.bitmap
  rw [hl.bblock_eq hb]
  simp only [BPB] at *
  omega

theorem bmapstart_lt (hl : Layout sb) : 1 < sb.bmapstart.toNat ∧ sb.bmapstart.toNat < dataStart sb := by
  have := hl.super
  have := hl.inodes
  have := hl.bitmap
  simp only [IPB, BPB] at *
  omega

end Layout

/-! ## Inodes and bits -/

def dinodeOf (sb : Superblock) (blk : Nat → Blk) (i : Nat) : Dinode := dinodeAt (blk (iblock sb i)) (i % IPB)

def bitOf (sb : Superblock) (blk : Nat → Blk) (b : Nat) : Bool := bitAt (blk (bblock sb b)) (b % BPB)

theorem dinodeOf_update_of_ne (hb : iblock sb i ≠ b) :
    dinodeOf sb (update blk b x) i = dinodeOf sb blk i := by
  rw [dinodeOf, dinodeOf, update_of_ne hb]

theorem dinodeOf_putDinode (hl : Layout sb) (hi : i < sb.ninodes.toNat) {i' : Nat} (hi' : i' < sb.ninodes.toNat)
    (d : Dinode) :
    dinodeOf sb (update blk (iblock sb i) (putDinode (blk (iblock sb i)) (i % IPB) d)) i' =
      if i' = i then d else dinodeOf sb blk i' := by
  split
  · rename_i heq
    subst heq
    rw [dinodeOf, update_self]
    exact dinodeAt_putDinode_self _ d (Nat.mod_lt _ (by decide))
  · rename_i hne
    by_cases hb : iblock sb i' = iblock sb i
    · rw [dinodeOf, hb, update_self, dinodeOf, hb]
      refine dinodeAt_putDinode_of_ne _ d ?_
      rw [hl.iblock_eq hi, hl.iblock_eq hi'] at hb
      simp only [IPB] at hb ⊢
      omega
    · exact dinodeOf_update_of_ne hb

theorem bitOf_update_of_ne (hb : bblock sb k ≠ b) : bitOf sb (update blk b x) k = bitOf sb blk k := by
  rw [bitOf, bitOf, update_of_ne hb]

/-- A block of the map in which only the bit of `b` is another. -/
theorem bitOf_update {v : Bool} (hl : Layout sb) (hb : b < sb.size.toNat) (hk : k < sb.size.toNat)
    (hself : bitAt x (b % BPB) = v) (hne : ∀ j, j < BPB → j ≠ b % BPB → bitAt x j = bitAt (blk (bblock sb b)) j) :
    bitOf sb (update blk (bblock sb b) x) k = update (bitOf sb blk) b v k := by
  rw [update_apply]
  by_cases hblock : bblock sb k = bblock sb b
  · rw [bitOf, hblock, update_self]
    by_cases heq : k = b
    · rw [if_pos heq, heq, hself]
    · rw [if_neg heq, bitOf, hblock]
      refine hne _ (Nat.mod_lt _ (by decide)) ?_
      rw [hl.bblock_eq hb, hl.bblock_eq hk] at hblock
      simp only [BPB] at hblock ⊢
      omega
  · rw [bitOf_update_of_ne hblock, if_neg]
    rintro rfl
    exact hblock rfl

theorem bitOf_markBit (hl : Layout sb) (hb : b < sb.size.toNat) (hk : k < sb.size.toNat) :
    bitOf sb (update blk (bblock sb b) (markBit (blk (bblock sb b)) (b % BPB))) k =
      update (bitOf sb blk) b true k := by
  refine bitOf_update hl hb hk ?_ fun j hj hne => ?_
  · simp [bitAt_markBit _ (Nat.mod_lt _ (by decide))]
  · simp [bitAt_markBit _ hj, hne]

theorem bitOf_clearBit (hl : Layout sb) (hb : b < sb.size.toNat) (hk : k < sb.size.toNat) :
    bitOf sb (update blk (bblock sb b) (clearBit (blk (bblock sb b)) (b % BPB))) k =
      update (bitOf sb blk) b false k := by
  refine bitOf_update hl hb hk ?_ fun j hj hne => ?_
  · simp [bitAt_clearBit _ (Nat.mod_lt _ (by decide))]
  · simp [bitAt_clearBit _ hj, hne]

/-! ## Slots -/

/-- Slot `k` of the inode: a direct address, the indirect block, or an entry of it. -/
def slot (blk : Nat → Blk) (d : Dinode) (k : Nat) : Nat :=
  if k ≤ NDIRECT then (d.addr k).toNat
  else if k ≤ MAXFILE ∧ d.addr NDIRECT ≠ 0 then
    (addrAt (blk (d.addr NDIRECT).toNat) (k - NDIRECT - 1)).toNat
  else 0

theorem slot_direct (hk : k ≤ NDIRECT) : slot blk d k = (d.addr k).toNat := if_pos hk

theorem slot_entry (hk : k < NINDIRECT) (hd : d.addr NDIRECT ≠ 0) :
    slot blk d (NDIRECT + 1 + k) = (addrAt (blk (d.addr NDIRECT).toNat) k).toNat := by
  have h₁ : ¬NDIRECT + 1 + k ≤ NDIRECT := by omega
  have h₂ : NDIRECT + 1 + k ≤ MAXFILE ∧ d.addr NDIRECT ≠ 0 := by
    refine ⟨?_, hd⟩
    simp only [MAXFILE]
    omega
  rw [slot, if_neg h₁, if_pos h₂]
  congr 3
  omega

theorem toNat_ne_zero : w.toNat ≠ 0 ↔ w ≠ 0 := by
  rw [not_iff_not, ← BitVec.toNat_inj]
  rfl

theorem slot_congr (hblk : d.addr NDIRECT ≠ 0 → blk' (d.addr NDIRECT).toNat = blk (d.addr NDIRECT).toNat) :
    slot blk' d = slot blk d := by
  funext k
  unfold slot
  split
  · rfl
  · split
    · rename_i hk
      rw [hblk hk.2]
    · rfl

theorem slot_setAddr (hk : k < NDIRECT) (w : Word) :
    slot blk (d.setAddr k w) = update (slot blk d) k w.toNat := by
  have hne : NDIRECT ≠ k := by omega
  funext l
  rw [update_apply]
  by_cases hl : l = k
  · subst hl
    rw [if_pos rfl, slot_direct (by omega), Dinode.addr_setAddr_self _ _ (by omega)]
  · rw [if_neg hl]
    simp only [slot, Dinode.addr_setAddr_of_ne _ _ hl, Dinode.addr_setAddr_of_ne _ _ hne]

theorem slot_setAddr_indirect (hd : d.addr NDIRECT = 0) (hblk : blk w.toNat = zeroBlk) :
    slot blk (d.setAddr NDIRECT w) = update (slot blk d) NDIRECT w.toNat := by
  funext l
  rw [update_apply]
  by_cases hl : l = NDIRECT
  · subst hl
    rw [if_pos rfl, slot_direct (le_refl _), Dinode.addr_setAddr_self _ _ (by omega)]
  · rw [if_neg hl]
    simp only [slot, Dinode.addr_setAddr_of_ne _ _ hl, Dinode.addr_setAddr_self d w (Nat.lt_succ_self NDIRECT), hd]
    split
    · rfl
    · rw [hblk, addrAt_zeroBlk]
      simp

theorem slot_putAddr {j : Nat} (hj : j < NINDIRECT) (hd : d.addr NDIRECT ≠ 0) (w : Word) :
    slot (update blk (d.addr NDIRECT).toNat (putAddr (blk (d.addr NDIRECT).toNat) j w)) d =
      update (slot blk d) (NDIRECT + 1 + j) w.toNat := by
  funext l
  rw [update_apply]
  by_cases hl : l ≤ NDIRECT
  · rw [if_neg (by omega), slot_direct hl, slot_direct hl]
  · rcases Nat.lt_or_ge MAXFILE l with hmax | hmax
    · have hne : l ≠ NDIRECT + 1 + j := by
        simp only [MAXFILE] at hmax
        omega
      have : ¬(l ≤ MAXFILE ∧ d.addr NDIRECT ≠ 0) := by omega
      rw [if_neg hne, slot, slot, if_neg hl, if_neg hl, if_neg this, if_neg this]
    · obtain ⟨m, rfl⟩ : ∃ m, l = NDIRECT + 1 + m := ⟨l - NDIRECT - 1, by omega⟩
      have hm : m < NINDIRECT := by
        simp only [MAXFILE] at hmax
        omega
      rw [slot_entry hm hd, slot_entry hm hd, update_self]
      by_cases heq : m = j
      · subst heq
        rw [if_pos rfl, addrAt_putAddr_self _ _ hj]
      · rw [if_neg (by omega), addrAt_putAddr_of_ne _ _ heq]

/-! ## The volume -/

def Allocated (sb : Superblock) (T : Nat → Dinode) (i : Nat) : Prop :=
  1 ≤ i ∧ i < sb.ninodes.toNat ∧ (T i).type ≠ 0

instance : Decidable (Allocated sb T i) := inferInstanceAs (Decidable (_ ∧ _ ∧ _))

/-- The slots of all inodes in use, and the block `h` that is in none of them yet. -/
def slotsOf (sb : Superblock) (blk : Nat → Blk) (T : Nat → Dinode) (h : Nat) : Option (Nat × Nat) → Nat
  | none => h
  | some (i, k) => if Allocated sb T i then slot blk (T i) k else 0

/-- The free map and the slots agree. -/
structure Vol (sb : Superblock) (blk : Nat → Blk) (slots : Option (Nat × Nat) → Nat) : Prop where
  layout : Layout sb
  super : superblockAt (blk 1) = sb
  owned : Owned (dataStart sb) sb.size.toNat (bitOf sb blk) slots

variable {slots : Option (Nat × Nat) → Nat} {y : Option (Nat × Nat)}

theorem Vol.store (hv : Vol sb blk slots) (hb : 1 < b) (hmap : b < sb.bmapstart.toNat ∨ dataStart sb ≤ b) (x : Blk) :
    Vol sb (update blk b x) slots where
  layout := hv.layout
  super := by
    rw [update_of_ne (by omega)]
    exact hv.super
  owned := by
    refine hv.owned.of_bit fun b' hb' => bitOf_update_of_ne ?_
    have := hv.layout.bblock_bounds hb'
    omega

theorem Vol.update_slot (hv : Vol sb blk slots) (hy : slots y ≠ 0) (x : Blk) :
    Vol sb (update blk (slots y) x) slots := by
  have hr := hv.owned.range hy
  have := hv.layout.bmapstart_lt
  exact hv.store (by omega) (.inr hr.1) x

theorem Vol.alloc (hv : Vol sb blk slots) (hb : b < sb.size.toNat) (hbit : bitOf sb blk b = false)
    (hy : slots y = 0) :
    Vol sb (update (update blk (bblock sb b) (markBit (blk (bblock sb b)) (b % BPB))) b zeroBlk)
      (update slots y b) := by
  have hblock := hv.layout.bblock_bounds hb
  have hstart := hv.layout.bmapstart_lt
  have hmarked : Vol sb (update blk (bblock sb b) (markBit (blk (bblock sb b)) (b % BPB)))
      (update slots y b) :=
    { layout := hv.layout
      super := by
        rw [update_of_ne (by omega)]
        exact hv.super
      owned := (hv.owned.alloc hb hbit hy).of_bit fun k hk => bitOf_markBit hv.layout hb hk }
  have hb' : update slots y b y = b := update_self _ _ _
  have hne : update slots y b y ≠ 0 := by
    have := hv.owned.le_of_free hb hbit
    omega
  rw [← hb']
  simpa only [hb'] using hmarked.update_slot hne zeroBlk

theorem Vol.free (hv : Vol sb blk slots) (hy : slots y ≠ 0) :
    Vol sb (update blk (bblock sb (slots y)) (clearBit (blk (bblock sb (slots y))) (slots y % BPB)))
      (update slots y 0) := by
  have hb := (hv.owned.range hy).2
  have hblock := hv.layout.bblock_bounds hb
  have hstart := hv.layout.bmapstart_lt
  exact
    { layout := hv.layout
      super := by
        rw [update_of_ne (by omega)]
        exact hv.super
      owned := (hv.owned.free hy).of_bit fun k hk => bitOf_clearBit hv.layout hb hk }

/-! ## What a change of the disk leaves alone -/

/-- The blocks that the slots name are the same. -/
def Agrees (slots : Option (Nat × Nat) → Nat) (blk blk' : Nat → Blk) : Prop :=
  ∀ y, slots y ≠ 0 → blk' (slots y) = blk (slots y)

def Kept (blk blk' : Nat → Blk) (d : Dinode) : Prop :=
  ∀ k, slot blk d k ≠ 0 → blk' (slot blk d k) = blk (slot blk d k)

theorem Kept.slot (hk : Kept blk blk' d) : slot blk' d = slot blk d := by
  refine slot_congr fun hd => ?_
  have := hk NDIRECT
  rw [slot_direct (le_refl _)] at this
  exact this (toNat_ne_zero.mpr hd)

theorem Kept.refl (blk : Nat → Blk) (d : Dinode) : Kept blk blk d := fun _ _ => rfl

theorem Kept.trans (hk : Kept blk blk' d) (hk' : Kept blk' blk'' d) : Kept blk blk'' d := by
  intro k hne
  rw [← hk k hne]
  have := hk' k
  rw [hk.slot] at this
  exact this hne

theorem Agrees.kept (ha : Agrees (slotsOf sb blk T h) blk blk') (hi : Allocated sb T i) : Kept blk blk' (T i) := by
  intro k hne
  have := ha (some (i, k))
  rw [slotsOf, if_pos hi] at this
  exact this hne

theorem Agrees.slotsOf (ha : Agrees (slotsOf sb blk T h) blk blk') : slotsOf sb blk' T h = slotsOf sb blk T h := by
  funext y
  rcases y with _ | ⟨i, k⟩
  · rfl
  · simp only [Fs.slotsOf]
    split
    · rename_i hi
      rw [(ha.kept hi).slot]
    · rfl

theorem Vol.agrees_alloc (hv : Vol sb blk slots) (hb : b < sb.size.toNat) (hbit : bitOf sb blk b = false) (z : Blk) :
    Agrees slots blk (update (update blk (bblock sb b) x) b z) := by
  intro y hy
  have hblock := hv.layout.bblock_bounds hb
  have hrange := hv.owned.range hy
  rw [update_of_ne (hv.owned.slot_ne hbit hy), update_of_ne (by omega)]

theorem Vol.agrees_inode (hv : Vol sb blk slots) (hi : i < sb.ninodes.toNat) :
    Agrees slots blk (update blk (iblock sb i) x) := by
  intro y hy
  have hblock := hv.layout.iblock_bounds hi
  have hstart := hv.layout.bmapstart_lt
  have hrange := hv.owned.range hy
  rw [update_of_ne (by omega)]

/-! ## Slots of all inodes -/

theorem slotsOf_hand (h' : Nat) : slotsOf sb blk T h' = update (slotsOf sb blk T h) none h' := by
  funext y
  rcases y with _ | ⟨i, k⟩ <;> rfl

/-- One slot of one inode changes. -/
theorem slotsOf_update (hi : Allocated sb T i) (htype : d.type = (T i).type) {w : Nat}
    (hslot : slot blk' d = update (slot blk (T i)) k w)
    (hother : ∀ i', i' ≠ i → Allocated sb T i' → slot blk' (T i') = slot blk (T i')) :
    slotsOf sb blk' (update T i d) h = update (slotsOf sb blk T h) (some (i, k)) w := by
  funext y
  rcases y with _ | ⟨i', k'⟩
  · rfl
  · by_cases heq : i' = i
    · subst heq
      have hi' : Allocated sb (update T i' d) i' := by
        rw [Allocated, update_self, htype]
        exact hi
      simp only [slotsOf, if_pos hi, if_pos hi', update_self, hslot, update_apply,
        Option.some.injEq, Prod.mk.injEq, true_and]
    · have hiff : Allocated sb (update T i d) i' ↔ Allocated sb T i' := by
        rw [Allocated, Allocated, update_of_ne heq]
      rw [update_of_ne (by simp [heq])]
      simp only [slotsOf, hiff, update_of_ne heq]
      split
      · rename_i hi'
        rw [hother i' heq hi']
      · rfl

/-- The block in hand goes to slot `k` of inode `i`. -/
theorem Vol.place (hv : Vol sb blk (slotsOf sb blk T h)) (hh : h ≠ 0) (hi : Allocated sb T i)
    (hk : slot blk (T i) k = 0) (htype : d.type = (T i).type)
    (hslot : slot blk' d = update (slot blk (T i)) k h)
    (hother : ∀ i', i' ≠ i → Allocated sb T i' → slot blk' (T i') = slot blk (T i'))
    (hv' : Vol sb blk' (slotsOf sb blk T h)) : Vol sb blk' (slotsOf sb blk' (update T i d) 0) := by
  have hempty : slotsOf sb blk T h (some (i, k)) = 0 := by
    rw [slotsOf, if_pos hi, hk]
  have hmove := hv'.owned.move (nofun : (none : Option (Nat × Nat)) ≠ some (i, k)) hh hempty
  refine ⟨hv.layout, hv'.super, ?_⟩
  rw [slotsOf_update (h := 0) hi htype hslot hother, slotsOf_hand (h := h)]
  exact hmove

/-! ## Contents -/

/-- The slot of the block with index `bn` in the file. -/
def dataSlot (bn : Nat) : Nat := if bn < NDIRECT then bn else bn + 1

/-- The block with index `bn` in the file; 0 if there is none. -/
def index (blk : Nat → Blk) (d : Dinode) (bn : Nat) : Nat := slot blk d (dataSlot bn)

theorem dataSlot_ne (bn : Nat) : dataSlot bn ≠ NDIRECT := by
  simp only [dataSlot]
  split <;> omega

theorem dataSlot_inj {bn bn' : Nat} (heq : dataSlot bn = dataSlot bn') : bn = bn' := by
  simp only [dataSlot] at heq
  split at heq <;> split at heq <;> omega

theorem index_direct (hbn : bn < NDIRECT) : index blk d bn = (d.addr bn).toNat := by
  rw [index, dataSlot, if_pos hbn, slot_direct (by omega)]

theorem dataSlot_entry (j : Nat) : dataSlot (NDIRECT + j) = NDIRECT + 1 + j := by
  rw [dataSlot, if_neg (by omega)]
  omega

theorem index_update {w : Nat} (hslot : slot blk' d' = update (slot blk d) k w) (hk : slot blk d k = 0)
    (hbn : index blk d bn ≠ 0) : index blk' d' bn = index blk d bn := by
  rw [index, hslot, update_of_ne]
  · rfl
  · rintro heq
    rw [index, heq] at hbn
    exact hbn hk

def content (blk : Nat → Blk) (d : Dinode) (o : Nat) : Byte := byteAt (blk (index blk d (o / BSIZE))) (o % BSIZE)

def contents (blk : Nat → Blk) (d : Dinode) : List Byte := (List.range d.size.toNat).map (content blk d)

/-- The blocks that the file has are those of its first `n` bytes. -/
def MappedTo (blk : Nat → Blk) (d : Dinode) (n : Nat) : Prop :=
  ∀ bn, bn < MAXFILE → (index blk d bn ≠ 0 ↔ bn * BSIZE < n)

structure Sized (blk : Nat → Blk) (d : Dinode) : Prop where
  max : d.size.toNat ≤ MAXFILE * BSIZE
  mapped : MappedTo blk d d.size.toNat

theorem Kept.index (hk : Kept blk blk' d) : index blk' d = index blk d := by
  funext bn
  rw [Fs.index, Fs.index, hk.slot]

theorem Kept.mappedTo {n : Nat} (hk : Kept blk blk' d) (hm : MappedTo blk d n) : MappedTo blk' d n := by
  intro bn hbn
  rw [hk.index]
  exact hm bn hbn

theorem Kept.sized (hk : Kept blk blk' d) (hs : Sized blk d) : Sized blk' d := ⟨hs.max, hk.mappedTo hs.mapped⟩

theorem Kept.contents (hk : Kept blk blk' d) (hs : Sized blk d) : contents blk' d = contents blk d := by
  refine List.map_congr_left fun o ho => ?_
  rw [List.mem_range] at ho
  have hmax := hs.max
  have hbn : o / BSIZE < MAXFILE := by
    simp only [BSIZE] at *
    omega
  have hmapped : Fs.index blk d (o / BSIZE) ≠ 0 := (hs.mapped _ hbn).mpr (by simp only [BSIZE]; omega)
  rw [content, content, hk.index, Fs.index, hk _ hmapped]

/-! ## An inode changes -/

/-- The blocks of inode `i` have changed and its size has not; the other inodes keep theirs. -/
structure Changes (sb : Superblock) (i : Nat) (blk : Nat → Blk) (T : Nat → Dinode) (blk' : Nat → Blk)
    (T' : Nat → Dinode) : Prop where
  table : ∀ i', i' ≠ i → T' i' = T i'
  same : T' i = { T i with addrs := (T' i).addrs }
  vol : Vol sb blk' (slotsOf sb blk' T' 0)
  low : ∀ b, b < sb.bmapstart.toNat → blk' b = blk b
  others : ∀ i', i' ≠ i → Allocated sb T i' → Kept blk blk' (T i')

variable {T' T'' : Nat → Dinode}

namespace Changes

theorem refl (hv : Vol sb blk (slotsOf sb blk T 0)) : Changes sb i blk T blk T where
  table _ _ := rfl
  same := rfl
  vol := hv
  low _ _ := rfl
  others _ _ _ := Kept.refl _ _

theorem type (hc : Changes sb i blk T blk' T') (j : Nat) : (T' j).type = (T j).type := by
  by_cases heq : j = i
  · rw [heq, hc.same]
  · rw [hc.table j heq]

theorem size (hc : Changes sb i blk T blk' T') (j : Nat) : (T' j).size = (T j).size := by
  by_cases heq : j = i
  · rw [heq, hc.same]
  · rw [hc.table j heq]

theorem allocated (hc : Changes sb i blk T blk' T') (j : Nat) : Allocated sb T' j ↔ Allocated sb T j := by
  rw [Allocated, Allocated, hc.type]

theorem trans (hc : Changes sb i blk T blk' T') (hc' : Changes sb i blk' T' blk'' T'') :
    Changes sb i blk T blk'' T'' where
  table i' hne := (hc'.table i' hne).trans (hc.table i' hne)
  same := by
    rw [hc'.same, hc.same]
  vol := hc'.vol
  low b hb := (hc'.low b hb).trans (hc.low b hb)
  others i' hne hi' := by
    have := hc'.others i' hne ((hc.allocated i').mpr hi')
    rw [hc.table i' hne] at this
    exact (hc.others i' hne hi').trans this

end Changes

/-- Inode `i` has more blocks than before, and those that it had. -/
structure Grows (sb : Superblock) (i : Nat) (blk : Nat → Blk) (T : Nat → Dinode) (blk' : Nat → Blk)
    (T' : Nat → Dinode) : Prop extends Changes sb i blk T blk' T' where
  data : ∀ bn, index blk (T i) bn ≠ 0 →
    index blk' (T' i) bn = index blk (T i) bn ∧ blk' (index blk (T i) bn) = blk (index blk (T i) bn)

theorem Grows.refl (hv : Vol sb blk (slotsOf sb blk T 0)) : Grows sb i blk T blk T :=
  ⟨.refl hv, fun _ _ => ⟨rfl, rfl⟩⟩

theorem Grows.trans (hg : Grows sb i blk T blk' T') (hg' : Grows sb i blk' T' blk'' T'') :
    Grows sb i blk T blk'' T'' where
  toChanges := hg.toChanges.trans hg'.toChanges
  data bn hbn := by
    obtain ⟨h₁, h₂⟩ := hg.data bn hbn
    rw [← h₁] at hbn
    obtain ⟨h₃, h₄⟩ := hg'.data bn hbn
    rw [h₁] at h₃ h₄
    exact ⟨h₃, h₄.trans h₂⟩

/-- The disk after `balloc` has taken block `b`. -/
def allocBlk (sb : Superblock) (blk : Nat → Blk) (b : Nat) : Nat → Blk :=
  update (update blk (bblock sb b) (markBit (blk (bblock sb b)) (b % BPB))) b zeroBlk

theorem Vol.allocated (hv : Vol sb blk (slotsOf sb blk T 0)) (hb : b < sb.size.toNat)
    (hbit : bitOf sb blk b = false) : Vol sb (allocBlk sb blk b) (slotsOf sb (allocBlk sb blk b) T b) := by
  have ha : Agrees (slotsOf sb blk T 0) blk (allocBlk sb blk b) := hv.agrees_alloc hb hbit _
  rw [slotsOf_hand (h := 0), ha.slotsOf]
  exact hv.alloc (y := none) hb hbit rfl

theorem Layout.allocBlk_low (hl : Layout sb) (hb : b < sb.size.toNat) (hdata : dataStart sb ≤ b) :
    ∀ b', b' < sb.bmapstart.toNat → allocBlk sb blk b b' = blk b' := by
  intro b' hb'
  have := hl.bblock_bounds hb
  rw [allocBlk, update_of_ne (by omega), update_of_ne (by omega)]

/-- The blocks with `w` in entry `j` of the indirect block `a`. -/
def enter (blk : Nat → Blk) (a j : Nat) (w : Word) : Nat → Blk := update blk a (putAddr (blk a) j w)

section

variable {j : Nat} (hv : Vol sb blk (slotsOf sb blk T 0)) (hi : Allocated sb T i) (hb : w.toNat < sb.size.toNat)
  (hbit : bitOf sb blk w.toNat = false)

include hv hi hb hbit

theorem Vol.slot_newAddr (hk : k ≤ NDIRECT) (haddr : (T i).addr k = 0) :
    slot (allocBlk sb blk w.toNat) ((T i).setAddr k w) = update (slot blk (T i)) k w.toNat := by
  have ha : Agrees (slotsOf sb blk T 0) blk (allocBlk sb blk w.toNat) := hv.agrees_alloc hb hbit _
  rw [← (ha.kept hi).slot]
  rcases Nat.lt_or_eq_of_le hk with hlt | rfl
  · exact slot_setAddr hlt w
  · exact slot_setAddr_indirect haddr (update_self _ _ _)

theorem Vol.slot_newEntry (hj : j < NINDIRECT) (hind : (T i).addr NDIRECT ≠ 0) :
    slot (enter (allocBlk sb blk w.toNat) ((T i).addr NDIRECT).toNat j w) (T i) =
      update (slot blk (T i)) (NDIRECT + 1 + j) w.toNat := by
  have ha : Agrees (slotsOf sb blk T 0) blk (allocBlk sb blk w.toNat) := hv.agrees_alloc hb hbit _
  rw [← (ha.kept hi).slot]
  exact slot_putAddr hj hind w

theorem Vol.grows_addr (hk : k ≤ NDIRECT) (haddr : (T i).addr k = 0) :
    Grows sb i blk T (allocBlk sb blk w.toNat) (update T i ((T i).setAddr k w)) := by
  have hdata := hv.owned.le_of_free hb hbit
  have hpos := hv.owned.pos
  have ha : Agrees (slotsOf sb blk T 0) blk (allocBlk sb blk w.toNat) := hv.agrees_alloc hb hbit _
  have hempty : slot (allocBlk sb blk w.toNat) (T i) k = 0 := by
    rw [slot_direct hk, haddr]
    rfl
  have hslot : slot (allocBlk sb blk w.toNat) ((T i).setAddr k w) =
      update (slot (allocBlk sb blk w.toNat) (T i)) k w.toNat := by
    rw [(ha.kept hi).slot, hv.slot_newAddr hi hb hbit hk haddr]
  refine
    { table := fun i' hne => update_of_ne hne _ _
      same := by
        rw [update_self]
        rfl
      vol := (hv.allocated hb hbit).place (by omega) hi hempty rfl hslot (fun _ _ _ => rfl) (hv.allocated hb hbit)
      low := hv.layout.allocBlk_low hb hdata
      others := fun i' _ hi' => ha.kept hi'
      data := fun bn hbn => ?_ }
  have hkept := ha.kept hi
  rw [update_self, index_update hslot hempty (by rw [hkept.index]; exact hbn), hkept.index]
  exact ⟨rfl, hkept _ hbn⟩

/-- The new block becomes an entry of the indirect block. -/
theorem Vol.grows_entry (hj : j < NINDIRECT) (hind : (T i).addr NDIRECT ≠ 0)
    (hentry : addrAt (blk ((T i).addr NDIRECT).toNat) j = 0) :
    Grows sb i blk T (enter (allocBlk sb blk w.toNat) ((T i).addr NDIRECT).toNat j w) T := by
  have hdata := hv.owned.le_of_free hb hbit
  have hpos := hv.owned.pos
  have ha : Agrees (slotsOf sb blk T 0) blk (allocBlk sb blk w.toNat) := hv.agrees_alloc hb hbit _
  have hv₁ := hv.allocated hb hbit
  have hkept := ha.kept hi
  have hname : slotsOf sb (allocBlk sb blk w.toNat) T w.toNat (some (i, NDIRECT)) = ((T i).addr NDIRECT).toNat := by
    rw [slotsOf, if_pos hi, slot_direct (le_refl _)]
  have hne : slotsOf sb (allocBlk sb blk w.toNat) T w.toNat (some (i, NDIRECT)) ≠ 0 := by
    rw [hname]
    exact toNat_ne_zero.mpr hind
  have hempty : slot (allocBlk sb blk w.toNat) (T i) (NDIRECT + 1 + j) = 0 := by
    rw [hkept.slot, slot_entry hj hind, hentry]
    rfl
  have hslot : slot (enter (allocBlk sb blk w.toNat) ((T i).addr NDIRECT).toNat j w) (T i) =
      update (slot (allocBlk sb blk w.toNat) (T i)) (NDIRECT + 1 + j) w.toNat := slot_putAddr hj hind w
  -- the indirect block is no other inode's, and none of the data
  have hapart : ∀ {i' k'}, Allocated sb T i' → (i' ≠ i ∨ k' ≠ NDIRECT) → slot (allocBlk sb blk w.toNat) (T i') k' ≠ 0 →
      slot (allocBlk sb blk w.toNat) (T i') k' ≠ ((T i).addr NDIRECT).toNat := by
    intro i' k' hi' hother hk' heq
    have hk'' : slotsOf sb (allocBlk sb blk w.toNat) T w.toNat (some (i', k')) = ((T i).addr NDIRECT).toNat := by
      rw [slotsOf, if_pos hi', heq]
    have := hv₁.owned.inj (by rw [hk'', ← hname]; exact hne) (hk''.trans hname.symm)
    simp only [Option.some.injEq, Prod.mk.injEq] at this
    omega
  have hothers : ∀ i', i' ≠ i → Allocated sb T i' → Kept (allocBlk sb blk w.toNat)
      (enter (allocBlk sb blk w.toNat) ((T i).addr NDIRECT).toNat j w) (T i') := by
    intro i' hi' halloc k' hk'
    rw [enter, update_of_ne (hapart halloc (.inl hi') hk')]
  have hvol := hv₁.place (by omega) hi hempty rfl hslot (fun i' hi' halloc => (hothers i' hi' halloc).slot) <| by
    have := hv₁.update_slot hne (putAddr (allocBlk sb blk w.toNat ((T i).addr NDIRECT).toNat) j w)
    rwa [hname] at this
  rw [update_eq_self] at hvol
  refine
    { table := fun _ _ => rfl
      same := rfl
      vol := hvol
      low := fun b' hb' => ?_
      others := fun i' hi' halloc => (ha.kept halloc).trans (hothers i' hi' halloc)
      data := fun bn hbn => ?_ }
  · have hrange := hv₁.owned.range hne
    have := hv.layout.bmapstart_lt
    rw [hname] at hrange
    rw [enter, update_of_ne (by omega), hv.layout.allocBlk_low hb hdata b' hb']
  · have hbn' : slot (allocBlk sb blk w.toNat) (T i) (dataSlot bn) ≠ 0 := by
      rw [hkept.slot]
      exact hbn
    rw [index_update hslot hempty hbn', hkept.index]
    refine ⟨rfl, ?_⟩
    have := hapart hi (.inr (dataSlot_ne bn)) hbn'
    rw [hkept.slot] at this
    rw [index, enter, update_of_ne this]
    exact hkept _ hbn

/-- Inode `i` has block `a` at index `bn`, and the same blocks at the other indexes. -/
structure Maps (sb : Superblock) (i bn : Nat) (blk : Nat → Blk) (T : Nat → Dinode) (a : Word) (blk' : Nat → Blk)
    (T' : Nat → Dinode) : Prop extends Grows sb i blk T blk' T' where
  here : index blk' (T' i) bn = a.toNat
  ne : a ≠ 0
  rest : ∀ bn', bn' ≠ bn → index blk' (T' i) bn' = index blk (T i) bn'

theorem Vol.maps_direct (hbn : bn < NDIRECT) (haddr : (T i).addr bn = 0) :
    Maps sb i bn blk T w (allocBlk sb blk w.toNat) (update T i ((T i).setAddr bn w)) := by
  have hdata := hv.owned.le_of_free hb hbit
  have hpos := hv.owned.pos
  have hslot := hv.slot_newAddr hi hb hbit (by omega) haddr
  have hds : dataSlot bn = bn := if_pos hbn
  refine ⟨hv.grows_addr hi hb hbit (by omega) haddr, ?_, toNat_ne_zero.mp (by omega), fun bn' hne => ?_⟩
  · rw [update_self, index, hslot, hds, update_self]
  · rw [update_self, index, hslot, update_of_ne, index]
    rw [← hds]
    exact fun heq => hne (dataSlot_inj heq)

theorem Vol.maps_entry (hj : j < NINDIRECT) (hind : (T i).addr NDIRECT ≠ 0)
    (hentry : addrAt (blk ((T i).addr NDIRECT).toNat) j = 0) :
    Maps sb i (NDIRECT + j) blk T w (enter (allocBlk sb blk w.toNat) ((T i).addr NDIRECT).toNat j w) T := by
  have hdata := hv.owned.le_of_free hb hbit
  have hpos := hv.owned.pos
  have hslot := hv.slot_newEntry hi hb hbit hj hind
  refine ⟨hv.grows_entry hi hb hbit hj hind hentry, ?_, toNat_ne_zero.mp (by omega), fun bn' hne => ?_⟩
  · rw [index, hslot, dataSlot_entry, update_self]
  · rw [index, hslot, update_of_ne, index]
    rw [← dataSlot_entry]
    exact fun heq => hne (dataSlot_inj heq)

theorem Vol.index_indirect (haddr : (T i).addr NDIRECT = 0) :
    index (allocBlk sb blk w.toNat) ((T i).setAddr NDIRECT w) = index blk (T i) := by
  funext bn
  rw [index, hv.slot_newAddr hi hb hbit (le_refl _) haddr, update_of_ne (dataSlot_ne bn), index]

end

/-! ## Data is written -/

theorem Vol.index_apart (hv : Vol sb blk (slotsOf sb blk T 0)) (hi : Allocated sb T i) {i' : Nat}
    (hi' : Allocated sb T i') (hk : slot blk (T i') k ≠ 0) (hne : i' ≠ i ∨ k ≠ dataSlot bn) :
    slot blk (T i') k ≠ index blk (T i) bn := by
  intro heq
  have hname : slotsOf sb blk T 0 (some (i, dataSlot bn)) = index blk (T i) bn := if_pos hi
  have hname' : slotsOf sb blk T 0 (some (i', k)) = slot blk (T i') k := if_pos hi'
  have := hv.owned.inj (by rw [hname']; exact hk) (hname'.trans (heq.trans hname.symm))
  simp only [Option.some.injEq, Prod.mk.injEq] at this
  omega

theorem Vol.slot_data (hv : Vol sb blk (slotsOf sb blk T 0)) (hi : Allocated sb T i) {i' : Nat}
    (hi' : Allocated sb T i') (x : Blk) : slot (update blk (index blk (T i) bn) x) (T i') = slot blk (T i') := by
  refine slot_congr fun hind => ?_
  have hslot : slot blk (T i') NDIRECT = ((T i').addr NDIRECT).toNat := slot_direct (le_refl _)
  rw [← hslot, update_of_ne]
  refine hv.index_apart hi hi' ?_ (.inr (dataSlot_ne bn).symm)
  rw [hslot]
  exact toNat_ne_zero.mpr hind

theorem Vol.changes_data (hv : Vol sb blk (slotsOf sb blk T 0)) (hi : Allocated sb T i)
    (hbn : index blk (T i) bn ≠ 0) (x : Blk) :
    Changes sb i blk T (update blk (index blk (T i) bn) x) T where
  table _ _ := rfl
  same := rfl
  vol := by
    have hname : slotsOf sb blk T 0 (some (i, dataSlot bn)) = index blk (T i) bn := if_pos hi
    have hslots : slotsOf sb (update blk (index blk (T i) bn) x) T 0 = slotsOf sb blk T 0 := by
      funext y
      rcases y with _ | ⟨i', k⟩
      · rfl
      · simp only [slotsOf]
        split
        · rename_i hi'
          rw [hv.slot_data hi hi']
        · rfl
    have := hv.update_slot (y := some (i, dataSlot bn)) (by rw [hname]; exact hbn) x
    rwa [hname, ← hslots] at this
  low b hb := by
    have hname : slotsOf sb blk T 0 (some (i, dataSlot bn)) = index blk (T i) bn := if_pos hi
    have hrange := hv.owned.range (k := some (i, dataSlot bn)) (by rw [hname]; exact hbn)
    have := hv.layout.bmapstart_lt
    rw [hname] at hrange
    rw [update_of_ne (by omega)]
  others i' hne hi' k hk := by
    rw [update_of_ne (hv.index_apart hi hi' hk (.inl hne))]

end Xv6.Fs
