import Mathlib
import Xv6.Bits

/- Blocks of bytes of a fixed size.

   A disk block is read and written in pieces: a stretch of bytes that is copied
   in or out, and the little-endian words and half-words of the structures laid out
   in it. `slice` and `blit` are the two copies; a word is a slice of four bytes.
   Two facts about them are enough for every structure: what was copied in is read
   back, and a copy leaves alone what it does not overlap. -/
namespace ByteBlock
open List Bits

variable {n : Nat}

abbrev Block (n : Nat) := Fin n → Byte

def byteAt (b : Block n) (k : Nat) : Byte := if h : k < n then b ⟨k, h⟩ else 0

def slice (b : Block n) (off len : Nat) : List Byte := (range len).map fun i => byteAt b (off + i)

def blit (b : Block n) (off : Nat) (src : List Byte) : Block n := fun k =>
  if off ≤ k.val ∧ k.val < off + src.length then src.getD (k.val - off) 0 else b k

def get32 (b : Block n) (off : Nat) : Word := rd32 (slice b off 4) 0

def put32 (b : Block n) (off : Nat) (w : Word) : Block n := blit b off (le32 w)

theorem byteAt_blit (b : Block n) (off : Nat) (src : List Byte) (k : Nat) (hk : k < n) :
    byteAt (blit b off src) k =
      if off ≤ k ∧ k < off + src.length then src.getD (k - off) 0 else byteAt b k := by
  simp [byteAt, blit, hk]

@[simp] theorem slice_length (b : Block n) (off len : Nat) : (slice b off len).length = len := by
  simp [slice]

theorem getD_slice (b : Block n) {off len i : Nat} (hi : i < len) :
    (slice b off len).getD i 0 = byteAt b (off + i) := by
  simp [slice, getD_eq_getElem?_getD, hi]

/-- A slice is determined by its bytes. -/
theorem slice_congr {m : Nat} {b : Block n} {c : Block m} {off off' len : Nat}
    (h : ∀ i < len, byteAt b (off + i) = byteAt c (off' + i)) :
    slice b off len = slice c off' len :=
  map_congr_left fun i hi => h i (List.mem_range.mp hi)

theorem slice_eq_iff {b : Block n} {off : Nat} {l : List Byte} :
    slice b off l.length = l ↔ ∀ i < l.length, byteAt b (off + i) = l.getD i 0 := by
  constructor
  · intro h i hi
    rw [← getD_slice b hi, h]
  · intro h
    apply ext_getElem (by simp)
    intro i h1 h2
    have := h i h2
    rw [getD_eq_getElem _ _ h2] at this
    simpa [slice] using this

/-- What was copied in is read back. -/
theorem slice_blit (b : Block n) {off : Nat} {src : List Byte} (h : off + src.length ≤ n) :
    slice (blit b off src) off src.length = src := by
  rw [slice_eq_iff]
  intro i hi
  rw [byteAt_blit b off src _ (by omega), if_pos (by omega), Nat.add_sub_cancel_left]

/-- A copy leaves alone what it does not overlap. -/
theorem slice_blit_of_disjoint (b : Block n) {off off' len : Nat} {src : List Byte}
    (h : off' + len ≤ off ∨ off + src.length ≤ off') :
    slice (blit b off src) off' len = slice b off' len := by
  apply slice_congr
  intro i hi
  by_cases hn : off' + i < n
  · rw [byteAt_blit b off src _ hn, if_neg (by omega)]
  · simp [byteAt, hn]

theorem get32_put32 (b : Block n) {off : Nat} (w : Word) (h : off + 4 ≤ n) :
    get32 (put32 b off w) off = w := by
  have hslice : slice (put32 b off w) off (le32 w).length = le32 w := slice_blit b (by simpa using h)
  rw [le32_length] at hslice
  rw [get32, hslice, ← append_nil (le32 w), rd32_le32]

theorem get32_put32_of_disjoint (b : Block n) {off off' : Nat} (w : Word)
    (h : off' + 4 ≤ off ∨ off + 4 ≤ off') : get32 (put32 b off w) off' = get32 b off' := by
  rw [get32, put32, slice_blit_of_disjoint b (by simpa using h), ← get32]

end ByteBlock
