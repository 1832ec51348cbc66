import Xv6.LogCommit

/- The disk format of the file system (fs.h, fs.c).

   Boot block, super block, log, inodes, free bit map, data. This module is about
   single blocks and what is laid out in one: the super block, eight inodes, 4096
   bits of the free map, 128 block addresses, 32 directory entries. For each there is
   a read and a write, and two facts: what was written is read back, and what the
   write does not overlap is left alone.

   Correspondence (C ↔ Lean):
     `struct superblock`, `struct dinode`, `struct dirent` ↔ `Superblock`, `Dinode`, `Dirent`
     `(struct dinode*)bp->data + inum%IPB`                 ↔ `dinodeAt`, `putDinode`
     `bp->data[bi/8] & m`, `|= m`, `&= ~m`                 ↔ `bitAt`, `markBit`, `clearBit`
     `((uint*)bp->data)[j]`                                ↔ `addrAt`, `putAddr`
     `IBLOCK`, `BBLOCK`                                    ↔ `iblock`, `bblock`
     `namecmp`, `strncpy(de.name, name, DIRSIZ)`           ↔ `namecmp`, `padName` -/
namespace Xv6.Fs
open List Bits ByteBlock Log

def BSIZE : Nat := 512
def NDIRECT : Nat := 12
def NINDIRECT : Nat := 128
def MAXFILE : Nat := NDIRECT + NINDIRECT
/-- Inodes per block. -/
def IPB : Nat := 8
/-- Bits per block. -/
def BPB : Nat := 4096
def DIRSIZ : Nat := 14
def direntSize : Nat := 16

def T_DIR : Half := 1
def T_FILE : Half := 2
def T_DEV : Half := 3

/-! ## The super block -/

structure Superblock where
  size : Word
  nblocks : Word
  ninodes : Word
  nlog : Word
  logstart : Word
  inodestart : Word
  bmapstart : Word
  deriving DecidableEq

/-- The super block as it lies in its block. -/
def superblockAt (b : Blk) : Superblock where
  size := get32 b 0
  nblocks := get32 b 4
  ninodes := get32 b 8
  nlog := get32 b 12
  logstart := get32 b 16
  inodestart := get32 b 20
  bmapstart := get32 b 24

def iblock (sb : Superblock) (inum : Nat) : Nat := (inum / IPB + sb.inodestart.toNat) % 2 ^ 32

def bblock (sb : Superblock) (b : Nat) : Nat := (b / BPB + sb.bmapstart.toNat) % 2 ^ 32

/-! ## Inodes -/

structure Dinode where
  type : Half
  major : Half
  minor : Half
  nlink : Half
  size : Word
  addrs : Fin (NDIRECT + 1) → Word

def Dinode.zero : Dinode := ⟨0, 0, 0, 0, 0, fun _ => 0⟩

def Dinode.addr (d : Dinode) (k : Nat) : Word := if h : k < NDIRECT + 1 then d.addrs ⟨k, h⟩ else 0

def Dinode.setAddr (d : Dinode) (k : Nat) (w : Word) : Dinode :=
  { d with addrs := fun i => if i.val = k then w else d.addrs i }

def dinodeSize : Nat := 64

def words (l : List Word) : List Byte := l.flatMap le32

def Dinode.bytes (d : Dinode) : List Byte :=
  le16 d.type ++ (le16 d.major ++ (le16 d.minor ++ (le16 d.nlink ++ (le32 d.size ++
    words (List.ofFn d.addrs)))))

def Dinode.ofBytes (bs : List Byte) : Dinode where
  type := rd16 bs 0
  major := rd16 bs 2
  minor := rd16 bs 4
  nlink := rd16 bs 6
  size := rd32 bs 8
  addrs := fun i => rd32 bs (12 + 4 * i.val)

def dinodeAt (b : Blk) (i : Nat) : Dinode := Dinode.ofBytes (slice b (dinodeSize * i) dinodeSize)

def putDinode (b : Blk) (i : Nat) (d : Dinode) : Blk := blit b (dinodeSize * i) d.bytes

theorem words_length (l : List Word) : (words l).length = 4 * l.length := by
  induction l with
  | nil => rfl
  | cons w l ih =>
    rw [words, flatMap_cons, length_append, ← words, ih, le32_length, length_cons]
    omega

theorem rd32_words {l : List Word} {i : Nat} (hi : i < l.length) : rd32 (words l) (4 * i) = l.getD i 0 := by
  induction l generalizing i with
  | nil => exact absurd hi (Nat.not_lt_zero i)
  | cons w l ih =>
    rw [words, flatMap_cons, ← words]
    cases i with
    | zero => exact rd32_le32 w _
    | succ i =>
      rw [Nat.mul_succ, rd32_skip_le32, ih (Nat.lt_of_succ_lt_succ hi)]
      rfl

@[simp] theorem Dinode.bytes_length (d : Dinode) : d.bytes.length = dinodeSize := by
  have haddrs : (words (List.ofFn d.addrs)).length = 52 := by
    rw [words_length, length_ofFn]
    rfl
  simp only [bytes, length_append, le16_length, le32_length, haddrs, dinodeSize]

@[simp] theorem Dinode.ofBytes_bytes (d : Dinode) : ofBytes d.bytes = d := by
  have haddrs : ∀ i : Fin (NDIRECT + 1), rd32 d.bytes (12 + 4 * i.val) = d.addrs i := by
    intro i
    have hlen : i.val < (List.ofFn d.addrs).length := by
      rw [length_ofFn]
      exact i.isLt
    have := rd32_words hlen
    rw [getD_eq_getElem _ _ hlen, List.getElem_ofFn] at this
    rw [Nat.add_comm, ← this]
    rfl
  have htype : rd16 d.bytes 0 = d.type := le16_join _
  have hmajor : rd16 d.bytes 2 = d.major := le16_join _
  have hminor : rd16 d.bytes 4 = d.minor := le16_join _
  have hnlink : rd16 d.bytes 6 = d.nlink := le16_join _
  have hsize : rd32 d.bytes 8 = d.size := le32_join _
  simp only [ofBytes, haddrs, hsize, htype, hmajor, hminor, hnlink]

theorem dinodeAt_putDinode_self (b : Blk) {i : Nat} (d : Dinode) (hi : i < IPB) :
    dinodeAt (putDinode b i d) i = d := by
  have hfit : dinodeSize * i + d.bytes.length ≤ 512 := by
    rw [Dinode.bytes_length]
    simp only [dinodeSize, IPB] at *
    omega
  have hslice := slice_blit b hfit
  rw [Dinode.bytes_length] at hslice
  rw [dinodeAt, putDinode, hslice, Dinode.ofBytes_bytes]

theorem dinodeAt_putDinode_of_ne (b : Blk) {i j : Nat} (d : Dinode) (h : j ≠ i) :
    dinodeAt (putDinode b i d) j = dinodeAt b j := by
  rw [dinodeAt, putDinode, slice_blit_of_disjoint, ← dinodeAt]
  rw [Dinode.bytes_length]
  simp only [dinodeSize]
  omega

theorem Dinode.addr_setAddr_self (d : Dinode) {k : Nat} (w : Word) (hk : k < NDIRECT + 1) :
    (d.setAddr k w).addr k = w := by
  simp [addr, setAddr, hk]

theorem Dinode.addr_setAddr_of_ne (d : Dinode) {k l : Nat} (w : Word) (h : l ≠ k) :
    (d.setAddr k w).addr l = d.addr l := by
  simp [addr, setAddr, h]

/-! ## The free map -/

/-- `bp->data[bi/8] & (1 << (bi % 8))` -/
def bitAt (b : Blk) (bi : Nat) : Bool := byteAt b (bi / 8) &&& 1#8 <<< (bi % 8) ≠ 0#8

def markBit (b : Blk) (bi : Nat) : Blk := blit b (bi / 8) [byteAt b (bi / 8) ||| 1#8 <<< (bi % 8)]

def clearBit (b : Blk) (bi : Nat) : Blk := blit b (bi / 8) [byteAt b (bi / 8) &&& ~~~(1#8 <<< (bi % 8))]

theorem and_shift_ne_zero (x : Byte) {k : Nat} (hk : k < 8) : x &&& 1#8 <<< k ≠ 0#8 ↔ x.getLsbD k = true := by
  constructor
  · intro h
    by_contra hx
    refine h (BitVec.eq_of_getLsbD_eq fun i hi => ?_)
    rw [BitVec.getLsbD_and, BitVec.getLsbD_shiftLeft, BitVec.getLsbD_one]
    by_cases hik : i = k
    · subst hik
      simp [hx]
    · have : ¬(¬i < k ∧ i - k = 0) := by omega
      grind
  · intro h hz
    have hbit : (x &&& 1#8 <<< k).getLsbD k = true := by
      simp [hk, h]
    rw [hz] at hbit
    simp at hbit

theorem bitAt_eq (b : Blk) (bi : Nat) : bitAt b bi = (byteAt b (bi / 8)).getLsbD (bi % 8) := by
  rw [bitAt, Bool.eq_iff_iff, decide_eq_true_iff]
  exact and_shift_ne_zero _ (Nat.mod_lt _ (by decide))

theorem getLsbD_one_shift {i k : Nat} (hi : i < 8) : (1#8 <<< k).getLsbD i = decide (i = k) := by
  rw [BitVec.getLsbD_shiftLeft, BitVec.getLsbD_one, Bool.eq_iff_iff]
  grind

theorem bitAt_blit (b : Blk) {bi bj : Nat} (x : Byte) (hj : bj < BPB) :
    bitAt (blit b (bi / 8) [x]) bj =
      if bj / 8 = bi / 8 then x.getLsbD (bj % 8) else bitAt b bj := by
  simp only [BPB] at hj
  rw [bitAt_eq, bitAt_eq, byteAt_blit _ _ _ _ (by omega)]
  by_cases h : bj / 8 = bi / 8
  · simp [h]
  · have : ¬(bi / 8 ≤ bj / 8 ∧ bj / 8 < bi / 8 + [x].length) := by
      simp only [length_singleton]
      omega
    rw [if_neg this, if_neg h]

theorem bitAt_markBit (b : Blk) {bi bj : Nat} (hj : bj < BPB) :
    bitAt (markBit b bi) bj = (decide (bj = bi) || bitAt b bj) := by
  rw [markBit, bitAt_blit b _ hj]
  by_cases h : bj / 8 = bi / 8
  · rw [if_pos h, BitVec.getLsbD_or, getLsbD_one_shift (Nat.mod_lt _ (by decide)), bitAt_eq, h, Bool.or_comm]
    congr 1
    rw [Bool.eq_iff_iff, decide_eq_true_iff, decide_eq_true_iff]
    omega
  · have : bj ≠ bi := fun hb => h (by rw [hb])
    simp [h, this]

theorem bitAt_clearBit (b : Blk) {bi bj : Nat} (hj : bj < BPB) :
    bitAt (clearBit b bi) bj = (!decide (bj = bi) && bitAt b bj) := by
  have hlt : bj % 8 < 8 := Nat.mod_lt _ (by decide)
  rw [clearBit, bitAt_blit b _ hj]
  by_cases h : bj / 8 = bi / 8
  · rw [if_pos h, BitVec.getLsbD_and, BitVec.getLsbD_not, getLsbD_one_shift hlt, bitAt_eq, h, Bool.and_comm]
    congr 1
    rw [Bool.eq_iff_iff]
    simp only [hlt, decide_true, Bool.true_and, Bool.not_eq_true', decide_eq_false_iff_not]
    omega
  · have : bj ≠ bi := fun hb => h (by rw [hb])
    simp [h, this]

/-! ## Blocks of addresses -/

def addrAt (b : Blk) (j : Nat) : Word := get32 b (4 * j)

def putAddr (b : Blk) (j : Nat) (w : Word) : Blk := put32 b (4 * j) w

theorem addrAt_putAddr_self (b : Blk) {j : Nat} (w : Word) (hj : j < NINDIRECT) :
    addrAt (putAddr b j w) j = w := by
  simp only [NINDIRECT] at hj
  exact get32_put32 b w (by omega)

theorem addrAt_putAddr_of_ne (b : Blk) {j k : Nat} (w : Word) (h : k ≠ j) :
    addrAt (putAddr b j w) k = addrAt b k :=
  get32_put32_of_disjoint b w (by omega)

def zeroBlk : Blk := fun _ => 0

theorem addrAt_zeroBlk (j : Nat) : addrAt zeroBlk j = 0 := by
  have hbyte : ∀ k, byteAt zeroBlk k = 0 := by
    intro k
    simp [byteAt, zeroBlk]
  simp [addrAt, get32, slice, hbyte, rd32, range_succ]

/-! ## Directory entries -/

structure Dirent where
  inum : Half
  name : List Byte
  deriving DecidableEq

def Dirent.bytes (de : Dirent) : List Byte := le16 de.inum ++ de.name

def Dirent.ofBytes (bs : List Byte) : Dirent := ⟨rd16 bs 0, bs.drop 2⟩

/-- What `strncmp` compares of a name of up to `DIRSIZ` bytes. -/
def trim (name : List Byte) : List Byte := (name.take DIRSIZ).takeWhile (· ≠ 0)

/-- `namecmp(s, t) == 0` -/
def namecmp (s t : List Byte) : Bool := trim s = trim t

/-- `strncpy(de.name, name, DIRSIZ)` -/
def padName (name : List Byte) : List Byte :=
  trim name ++ replicate (DIRSIZ - (trim name).length) 0

/-! ### string.c -/

/-- `strncmp(p, q, n)`: after the last byte of a name is its NUL. -/
def strncmp : Nat → List Byte → List Byte → Int
  | 0, _, _ => 0
  | n + 1, p, q =>
    if p.headD 0 ≠ 0 ∧ p.headD 0 = q.headD 0 then strncmp n p.tail q.tail
    else ((p.headD 0).toNat : Int) - (q.headD 0).toNat

/-- What `strncpy(s, t, n)` stores: up to the NUL of `t`, and NULs from there on. -/
def strncpy : Nat → List Byte → List Byte
  | 0, _ => []
  | n + 1, t => if t.headD 0 = 0 then replicate (n + 1) 0 else t.headD 0 :: strncpy n t.tail

theorem takeWhile_take_succ (n : Nat) (s : List Byte) : (s.take (n + 1)).takeWhile (· ≠ 0) =
    if s.headD 0 = 0 then [] else s.headD 0 :: (s.tail.take n).takeWhile (· ≠ 0) := by
  rcases s with _ | ⟨a, s⟩
  · rfl
  · rw [take_succ_cons, takeWhile_cons]
    by_cases ha : a = 0
    · rw [if_neg (by simpa using ha), if_pos (by exact ha)]
    · rw [if_pos (by simpa using ha), if_neg (by exact ha)]
      rfl

theorem strncmp_eq_zero (n : Nat) (p q : List Byte) :
    strncmp n p q = 0 ↔ (p.take n).takeWhile (· ≠ 0) = (q.take n).takeWhile (· ≠ 0) := by
  induction n generalizing p q with
  | zero => simp [strncmp]
  | succ n ih =>
    have hsub : ((p.headD 0).toNat : Int) - (q.headD 0).toNat = 0 ↔ p.headD 0 = q.headD 0 := by
      rw [← BitVec.toNat_inj]
      omega
    rw [strncmp, takeWhile_take_succ, takeWhile_take_succ]
    by_cases hp : p.headD 0 = 0
    · rw [if_neg (fun h => h.1 hp), hsub, if_pos hp, hp]
      by_cases hq : q.headD 0 = 0
      · simp only [hq, if_true]
      · simp only [hq, if_false, Ne.symm hq, reduceCtorEq]
    · by_cases heq : p.headD 0 = q.headD 0
      · rw [if_pos ⟨hp, heq⟩, ih, if_neg hp, if_neg (heq ▸ hp), heq]
        simp only [List.cons.injEq, true_and]
      · rw [if_neg (fun h => heq h.2), hsub, if_neg hp]
        by_cases hq : q.headD 0 = 0
        · simp only [hq, hp, if_true, reduceCtorEq]
        · simp only [hq, if_false, List.cons.injEq, heq, false_and]

theorem namecmp_iff_strncmp (s t : List Byte) : namecmp s t = true ↔ strncmp DIRSIZ s t = 0 := by
  rw [strncmp_eq_zero, namecmp, decide_eq_true_iff]
  rfl

theorem strncpy_eq (n : Nat) (t : List Byte) :
    strncpy n t = (t.take n).takeWhile (· ≠ 0) ++ replicate (n - ((t.take n).takeWhile (· ≠ 0)).length) 0 := by
  induction n generalizing t with
  | zero => simp [strncpy]
  | succ n ih =>
    rw [strncpy, takeWhile_take_succ]
    by_cases ht : t.headD 0 = 0
    · rw [if_pos ht, if_pos ht]
      rfl
    · rw [if_neg ht, if_neg ht, ih, length_cons, Nat.add_sub_add_right, cons_append]

theorem padName_eq_strncpy (name : List Byte) : padName name = strncpy DIRSIZ name := (strncpy_eq DIRSIZ name).symm

theorem trim_length_le (name : List Byte) : (trim name).length ≤ DIRSIZ :=
  Nat.le_trans (takeWhile_sublist _).length_le (length_take_le ..)

@[simp] theorem padName_length (name : List Byte) : (padName name).length = DIRSIZ := by
  have := trim_length_le name
  simp [padName]
  omega

@[simp] theorem trim_padName (name : List Byte) : trim (padName name) = trim name := by
  have hlen := trim_length_le name
  have hne : ∀ b ∈ trim name, (decide (b ≠ 0)) = true := List.all_eq_true.mp all_takeWhile
  have hpad : (padName name).take DIRSIZ = padName name := take_of_length_le (Nat.le_of_eq (padName_length name))
  rw [trim, hpad, padName, takeWhile_append_of_pos hne]
  cases hn : DIRSIZ - (trim name).length <;> simp [replicate_succ]

end Xv6.Fs
