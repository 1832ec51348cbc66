import Mathlib

/- Bits and bytes of fixed-width words.

   Two things a kernel does with a 32-bit word are collected here once: it uses
   the word as a set of 32 flags (`1 << k` selects one, `|` adds it, `^` toggles
   it), and it stores the word to memory as little-endian bytes. The flag lemmas
   are stated through `has`, so that a proof about a set of flags never sees
   a shift; the byte lemmas say that reading back what was stored gives the
   word. -/
namespace Bits

abbrev Byte := BitVec 8
abbrev Half := BitVec 16
abbrev Word := BitVec 32

/-! ## A word as a set of flags -/

/-- The word with only flag `k` set, as C writes it: `1 << k`. -/
def bit (k : Fin 32) : Word := 1#32 <<< k.val

/-- Whether flag `k` is set in `w`. -/
def has (w : Word) (k : Fin 32) : Bool := w.getLsbD k

theorem has_ext {v w : Word} (h : ∀ k, has v k = has w k) : v = w :=
  BitVec.eq_of_getLsbD_eq fun i hi => h ⟨i, hi⟩

theorem eq_iff_has {v w : Word} : v = w ↔ ∀ k, has v k = has w k :=
  ⟨fun h _ => by rw [h], has_ext⟩

@[simp] theorem has_zero (k : Fin 32) : has 0#32 k = false := BitVec.getLsbD_zero

@[simp] theorem has_bit (i k : Fin 32) : has (bit k) i = decide (i = k) := by
  have hi := i.isLt
  have hik : i = k ↔ i.val = k.val := Fin.ext_iff
  simp only [has, bit, BitVec.getLsbD_shiftLeft, BitVec.getLsbD_one, hik]
  grind

@[simp] theorem has_or (v w : Word) (k : Fin 32) : has (v ||| w) k = (has v k || has w k) :=
  BitVec.getLsbD_or

@[simp] theorem has_and (v w : Word) (k : Fin 32) : has (v &&& w) k = (has v k && has w k) :=
  BitVec.getLsbD_and

@[simp] theorem has_xor (v w : Word) (k : Fin 32) : has (v ^^^ w) k = (has v k ^^ has w k) :=
  BitVec.getLsbD_xor

@[simp] theorem has_not (w : Word) (k : Fin 32) : has (~~~w) k = !has w k := by
  simp [has]

theorem eq_zero_iff_has {w : Word} : w = 0#32 ↔ ∀ k, has w k = false := by
  simp only [eq_iff_has, has_zero]

/-- The test C writes as `(w & (1 << k)) > 0`. -/
theorem zero_lt_and_bit (w : Word) (k : Fin 32) : 0 < w &&& bit k ↔ has w k = true := by
  have hpos : 0 < w &&& bit k ↔ w &&& bit k ≠ 0#32 := by
    rw [BitVec.lt_def]
    exact Nat.pos_iff_ne_zero.trans (not_congr ⟨fun h => BitVec.eq_of_toNat_eq h, fun h => by rw [h]; rfl⟩)
  rw [hpos, ne_eq, eq_zero_iff_has]
  constructor
  · intro h
    by_contra hk
    refine h fun i => ?_
    rw [has_and, has_bit]
    by_cases hi : i = k
    · subst hi; simp [hk]
    · simp [hi]
  · intro hk h
    have := h k
    rw [has_and, has_bit, hk] at this
    simp at this

/-! ## A word as little-endian bytes -/

def le32 (w : Word) : List Byte :=
  [w.extractLsb' 0 8, w.extractLsb' 8 8, w.extractLsb' 16 8, w.extractLsb' 24 8]

def le16 (w : Half) : List Byte := [w.extractLsb' 0 8, w.extractLsb' 8 8]

/-- The word whose bytes stand in `bs` from offset `o` on. -/
def rd32 (bs : List Byte) (o : Nat) : Word :=
  bs.getD (o + 3) 0 ++ bs.getD (o + 2) 0 ++ bs.getD (o + 1) 0 ++ bs.getD o 0

def rd16 (bs : List Byte) (o : Nat) : Half := bs.getD (o + 1) 0 ++ bs.getD o 0

theorem le32_join (w : Word) : (w.extractLsb' 24 8 ++ w.extractLsb' 16 8 ++
    w.extractLsb' 8 8 ++ w.extractLsb' 0 8 : Word) = w := by
  ext i hi
  simp only [BitVec.getElem_append, BitVec.getElem_extractLsb']
  grind

theorem le16_join (w : Half) : (w.extractLsb' 8 8 ++ w.extractLsb' 0 8 : Half) = w := by
  ext i hi
  simp only [BitVec.getElem_append, BitVec.getElem_extractLsb']
  grind

/-- Byte `j` of a word that is put together from bytes. -/
theorem extract_join (f : Nat → Byte) {j : Nat} (hj : j < 4) :
    (f 3 ++ f 2 ++ f 1 ++ f 0 : Word).extractLsb' (8 * j) 8 = f j := by
  ext i hi
  rw [BitVec.getElem_extractLsb']
  simp only [BitVec.getLsbD_append]
  grind

@[simp] theorem le32_length (w : Word) : (le32 w).length = 4 := rfl
@[simp] theorem le16_length (w : Half) : (le16 w).length = 2 := rfl

/-! Reading past the leading word, and reading it. -/

@[simp] theorem rd32_skip_le32 (w : Word) (bs : List Byte) (o : Nat) :
    rd32 (le32 w ++ bs) (o + 4) = rd32 bs o := rfl

@[simp] theorem rd32_skip_le16 (w : Half) (bs : List Byte) (o : Nat) :
    rd32 (le16 w ++ bs) (o + 2) = rd32 bs o := rfl

@[simp] theorem rd16_skip_le32 (w : Word) (bs : List Byte) (o : Nat) :
    rd16 (le32 w ++ bs) (o + 4) = rd16 bs o := rfl

@[simp] theorem rd16_skip_le16 (w : Half) (bs : List Byte) (o : Nat) :
    rd16 (le16 w ++ bs) (o + 2) = rd16 bs o := rfl

@[simp] theorem rd32_le32 (w : Word) (bs : List Byte) : rd32 (le32 w ++ bs) 0 = w :=
  le32_join w

@[simp] theorem rd16_le16 (w : Half) (bs : List Byte) : rd16 (le16 w ++ bs) 0 = w :=
  le16_join w

end Bits
