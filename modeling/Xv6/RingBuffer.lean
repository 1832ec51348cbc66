import Mathlib
import Xv6.Bits

/- Rings with free-running indices.

   A ring of `n` cells is indexed by 32-bit counters that are never reduced: cell
   `a % n` belongs to counter value `a`. If `n` divides `2^32` this goes on working when the
   counters wrap. What lies in the ring from counter `a` on is a list, `window`; storing a cell,
   taking one and giving one up are changes at the ends of the list. How many cells lie between two
   counters is their difference, `gap`. -/
namespace RingBuffer
open Function List Bits
open BitVec (ofNat)

variable {α : Type} {n : Nat} [NeZero n] {cells : Fin n → α} {a b : Word} {j k : Nat} {x : α}

/-- The cell of counter value `a`. -/
def cell (n : Nat) [NeZero n] (a : Word) : Fin n := Fin.ofNat n a.toNat

/-- `b - a`, as an unsigned number. -/
def gap (a b : Word) : Nat := (b - a).toNat

/-- The `k` cells from counter value `a` on. -/
def window (cells : Fin n → α) (a : Word) (k : Nat) : List α :=
  (range k).map fun j => cells (cell n (a + ofNat 32 j))

/-! ## Counters -/

@[simp] theorem gap_self (a : Word) : gap a a = 0 := by
  simp [gap]

theorem add_gap (a b : Word) : a + ofNat 32 (gap a b) = b := by
  simp only [gap]
  bv_omega

theorem gap_add (hk : k < 2 ^ 32) : gap a (a + ofNat 32 k) = k := by
  have : (ofNat 32 k).toNat = k := by
    rw [BitVec.toNat_ofNat]
    exact Nat.mod_eq_of_lt hk
  simp only [gap]
  bv_omega

theorem gap_eq_iff (hk : k < 2 ^ 32) : gap a b = k ↔ b = a + ofNat 32 k := by
  constructor
  · rintro rfl
    exact (add_gap a b).symm
  · rintro rfl
    exact gap_add hk

theorem gap_eq_zero_iff : gap a b = 0 ↔ a = b := by
  rw [gap_eq_iff (by decide)]
  constructor <;> intro h <;> simp_all

theorem gap_succ_right (h : gap a b + 1 < 2 ^ 32) : gap a (b + 1) = gap a b + 1 := by
  simp only [gap] at *
  bv_omega

theorem gap_succ_left (h : 0 < gap a b) : gap (a + 1) b + 1 = gap a b := by
  simp only [gap] at *
  bv_omega

theorem gap_pred_right (h : 0 < gap a b) : gap a (b - 1) + 1 = gap a b := by
  simp only [gap] at *
  bv_omega

theorem gap_trans {c : Word} (h : gap a b + gap b c < 2 ^ 32) : gap a c = gap a b + gap b c := by
  simp only [gap] at *
  bv_omega

/-! ## Cells -/

section

variable (hn : n ∣ 2 ^ 32)

include hn

theorem cell_add (a : Word) (j : Nat) : (cell n (a + ofNat 32 j)).val = (a.toNat + j) % n := by
  have hn' : n ∣ 4294967296 := hn
  simp only [cell, Fin.ofNat, BitVec.toNat_add, BitVec.toNat_ofNat, Nat.mod_mod_of_dvd _ hn', Nat.add_mod_mod,
    Nat.reducePow]

/-- Cells less than a round apart are different cells. -/
theorem cell_ne (hj : j < k) (hk : k < n) :
    cell n (a + ofNat 32 j) ≠ cell n (a + ofNat 32 k) := by
  intro heq
  have heq := congrArg Fin.val heq
  rw [cell_add hn, cell_add hn] at heq
  have hmod : a.toNat + j ≡ a.toNat + k [MOD n] := heq
  have hjk := Nat.ModEq.add_left_cancel' a.toNat hmod
  rw [Nat.ModEq, Nat.mod_eq_of_lt (hj.trans hk), Nat.mod_eq_of_lt hk] at hjk
  omega

end

/-! ## Windows -/

@[simp] theorem window_zero : window cells a 0 = [] := rfl

@[simp] theorem window_length : (window cells a k).length = k := by
  simp [window]

theorem window_add (j k : Nat) :
    window cells a (j + k) = window cells a j ++ window cells (a + ofNat 32 j) k := by
  simp only [window, range_add, map_append, map_map]
  congr 2
  funext i
  simp only [Function.comp]
  congr 2
  bv_omega

/-- The last cell of a window. -/
theorem window_succ (k : Nat) :
    window cells a (k + 1) = window cells a k ++ [cells (cell n (a + ofNat 32 k))] := by
  simp [window, range_succ]

/-- The first cell of a window. -/
theorem window_cons (k : Nat) : window cells a (k + 1) = cells (cell n a) :: window cells (a + 1) k := by
  rw [Nat.add_comm, window_add]
  simp [window]

/-- The cell after a window that is not a whole round is not in it. -/
theorem window_update (hn : n ∣ 2 ^ 32) (hk : k < n) :
    window (update cells (cell n (a + ofNat 32 k)) x) a k = window cells a k := by
  refine map_congr_left fun j hj => ?_
  rw [update_of_ne (cell_ne hn (List.mem_range.mp hj) hk)]

/-- A cell is stored at the end. -/
theorem window_store (hn : n ∣ 2 ^ 32) (cells : Fin n → α) (a : Word) (hk : k < n) (x : α) :
    window (update cells (cell n (a + ofNat 32 k)) x) a (k + 1) = window cells a k ++ [x] := by
  rw [window_succ, window_update hn hk, update_self]

end RingBuffer
