import Xv6.ByteMem

/- The two `memmove`s: of the kernel (string.c) and of user programs (ulib.c).

   A byte goes from `src + k` to `dst + k` in each round. Whether the rounds go up or down
   decides which bytes are overwritten before they have been read.

   1. A loop that goes up moves the stretch exactly if what it overwrites before it has read it
      is overwritten with the same: `Repeats` (`up_eq`, `up_smears`). One that goes down moves it
      unless `src` lies inside the destination (`down_eq`).
   2. The kernel chooses the direction, the user library always goes up.

   Correspondence (C ↔ Lean):
     `while(n-- > 0) *d++ = *s++`      ↔ `up`
     `while(n-- > 0) *--d = *--s`      ↔ `down`
     `memmove` of string.c, of ulib.c  ↔ `Kern.memmove`, `Ulib.memmove`: memory and what is returned
     `uint n`, `int n`                 ↔ `n.toNat`, `n.toInt` -/
namespace Xv6.MemMove
open Function Bits ByteMem
open BitVec (ofNat)

abbrev Memory := Word → Byte

variable {mem : Memory} {dst src : Word} {n : Nat}

def up : Nat → Memory → Word → Word → Memory
  | 0, mem, _, _ => mem
  | n + 1, mem, d, s => up n (update mem d (mem s)) (d + 1) (s + 1)

def down : Nat → Memory → Word → Word → Memory
  | 0, mem, _, _ => mem
  | n + 1, mem, d, s => down n (update mem (d - 1) (mem (s - 1))) (d - 1) (s - 1)

def Kern.memmove (mem : Memory) (dst src n : Word) : Memory × Word :=
  if src < dst ∧ dst < src + n then (down n.toNat mem (dst + n) (src + n), dst)
  else (up n.toNat mem dst src, dst)

/-- The loop does not run for a negative count. -/
def Ulib.memmove (mem : Memory) (vdst vsrc n : Word) : Memory × Word := (up n.toInt.toNat mem vdst vsrc, vdst)

/-! ## Stretches that overlap -/

/-- Memory with the `n` bytes from `src` on laid over those from `dst` on. -/
def moved (mem : Memory) (dst src : Word) (n : Nat) : Memory := fun a =>
  if ahead dst a < n then mem (src + (a - dst)) else mem a

theorem moved_zero : moved mem dst src 0 = mem := by
  funext a
  simp [moved]

/-- The `n` bytes from `src` on are the same as those `period` further on, as far as these are among them. -/
def Repeats (mem : Memory) (src : Word) (n period : Nat) : Prop :=
  ∀ k, k + period < n → mem (src + ofNat 32 (k + period)) = mem (src + ofNat 32 k)

theorem ahead_succ_succ (a b : Word) : ahead (a + 1) (b + 1) = ahead a b := by
  unfold ahead
  bv_omega

theorem add_succ_ofNat (a : Word) (k : Nat) : a + 1 + ofNat 32 k = a + ofNat 32 (k + 1) := by bv_omega

theorem Repeats.read_update (h : Repeats mem src (n + 1) (ahead src dst)) (hn : n < 2 ^ 32) {k : Nat} (hk : k < n + 1) :
    update mem dst (mem src) (src + ofNat 32 k) = mem (src + ofNat 32 k) := by
  by_cases heq : src + ofNat 32 k = dst
  · subst heq
    have hdist := ahead_add src (k := k) (by omega)
    have hrep := h 0 (by omega)
    rw [hdist, Nat.zero_add] at hrep
    rw [update_self, hrep]
    simp
  · exact update_of_ne heq ..

theorem Repeats.next (h : Repeats mem src (n + 1) (ahead src dst)) (hn : n < 2 ^ 32) :
    Repeats (update mem dst (mem src)) (src + 1) n (ahead (src + 1) (dst + 1)) := by
  intro k hk
  rw [ahead_succ_succ] at hk ⊢
  rw [add_succ_ofNat, add_succ_ofNat, h.read_update hn (by omega), h.read_update hn (by omega), Nat.add_right_comm]
  exact h (k + 1) (by omega)

/-- Going up, a byte that is read after it has been written is what it was if the source repeats itself where `dst` is
inside it. -/
theorem up_eq (hn : n ≤ 2 ^ 32) (h : Repeats mem src n (ahead src dst)) : up n mem dst src = moved mem dst src n := by
  induction n generalizing mem dst src with
  | zero => exact moved_zero.symm
  | succ n ih =>
    rw [up, ih (by omega) (h.next (by omega))]
    funext a
    by_cases ha : a = dst
    · subst ha
      have hoff : ¬ahead (a + 1) a < n := by
        rw [ahead_succ_self]
        omega
      have hon : ahead a a < n + 1 := by
        rw [ahead_self]
        omega
      rw [moved, moved, if_neg hoff, if_pos hon, update_self]
      simp
    · have hsame : src + 1 + (a - (dst + 1)) = src + ofNat 32 (ahead dst a) := by
        unfold ahead
        bv_omega
      have hread : src + (a - dst) = src + ofNat 32 (ahead dst a) := by
        unfold ahead
        bv_omega
      have hdist := ahead_succ ha
      by_cases hlt : ahead dst a < n + 1
      · rw [moved, moved, if_pos (by omega), if_pos hlt, hsame, hread, h.read_update (by omega) hlt]
      · rw [moved, moved, if_neg (by omega), if_neg hlt, update_of_ne ha]

theorem up_outside {a : Word} (h : n ≤ ahead dst a) : up n mem dst src a = mem a := by
  induction n generalizing mem dst src with
  | zero => rfl
  | succ n ih =>
    have ha : a ≠ dst := by
      rintro rfl
      rw [ahead_self] at h
      omega
    have hdist := ahead_succ ha
    rw [up, ih (by omega), update_of_ne ha]

theorem up_inside {k : Nat} (hn : n ≤ 2 ^ 32) (hk : k < n) (hfresh : k ≤ ahead dst (src + ofNat 32 k)) :
    up n mem dst src (dst + ofNat 32 k) = mem (src + ofNat 32 k) := by
  induction n generalizing mem dst src k with
  | zero => omega
  | succ n ih =>
    cases k with
    | zero =>
      have hfar := ahead_succ_self dst
      rw [BitVec.add_zero, BitVec.add_zero, up, up_outside (by omega), update_self]
    | succ k =>
      have hne : src + ofNat 32 (k + 1) ≠ dst := by
        intro heq
        rw [heq, ahead_self] at hfresh
        omega
      have hdist := ahead_succ hne
      rw [← add_succ_ofNat] at hfresh hne hdist
      rw [up, ← add_succ_ofNat, ih (by omega) (by omega) (by omega), update_of_ne hne, add_succ_ofNat]

theorem up_smears (mem : Memory) (dst src : Word) (hn : n ≤ 2 ^ 32) :
    Repeats (up n mem dst src) dst n (ahead src dst) := by
  intro k hk
  induction n generalizing mem dst src k with
  | zero => omega
  | succ n ih =>
    cases k with
    | succ k =>
      have hrest := ih (update mem dst (mem src)) (dst + 1) (src + 1) (by omega) k
      rw [ahead_succ_succ, add_succ_ofNat, add_succ_ofNat] at hrest
      rw [up, Nat.add_right_comm]
      exact hrest (by omega)
    | zero =>
      obtain hzero | ⟨j, hj⟩ : ahead src dst = 0 ∨ ∃ j, ahead src dst = j + 1 := by
        cases ahead src dst with
        | zero => exact .inl rfl
        | succ j => exact .inr ⟨j, rfl⟩
      · rw [hzero]
      · -- the byte that is read for it is the first one that was written
        have hfirst : src + 1 + ofNat 32 j = dst := by
          rw [add_succ_ofNat, ← hj]
          exact add_ahead src dst
        have hfar := ahead_succ_self dst
        have hread : up n (update mem dst (mem src)) (dst + 1) (src + 1) (dst + 1 + ofNat 32 j) = mem src := by
          rw [up_inside (by omega) (by omega) (by rw [hfirst]; omega), hfirst, update_self]
        rw [hj, Nat.zero_add, up, ← add_succ_ofNat, hread, BitVec.add_zero, up_outside (by omega), update_self]

theorem down_eq (hn : n ≤ 2 ^ 32) (h : n ≤ ahead dst src ∨ src = dst) :
    down n mem (dst + ofNat 32 n) (src + ofNat 32 n) = moved mem dst src n := by
  induction n generalizing mem with
  | zero => exact moved_zero.symm
  | succ n ih =>
    have hd : dst + ofNat 32 (n + 1) - 1 = dst + ofNat 32 n := by bv_omega
    have hs : src + ofNat 32 (n + 1) - 1 = src + ofNat 32 n := by bv_omega
    rw [down, hd, hs, ih (by omega) (h.imp_left Nat.le_of_succ_le)]
    have hlast := ahead_add dst (k := n) (by omega)
    funext a
    by_cases ha : a = dst + ofNat 32 n
    · subst ha
      have hsame : src + (dst + ofNat 32 n - dst) = src + ofNat 32 n := by bv_omega
      rw [moved, moved, if_neg (by omega), if_pos (by omega), hsame, update_self]
    · have hne : ahead dst a ≠ n := by
        rintro rfl
        exact ha (add_ahead dst a).symm
      by_cases hlt : ahead dst a < n
      · have hread : src + (a - dst) ≠ dst + ofNat 32 n := by
          unfold ahead at *
          bv_omega
        rw [moved, moved, if_pos hlt, if_pos (by omega), update_of_ne hread]
      · rw [moved, moved, if_neg hlt, if_neg (by omega), update_of_ne ha]

/-! ## memmove -/

/-- The stretch does not go beyond the last address. -/
def NoWrap (a : Word) (n : Nat) : Prop := a.toNat + n ≤ 2 ^ 32

instance (a : Word) (n : Nat) : Decidable (NoWrap a n) := inferInstanceAs (Decidable (_ ≤ _))

/-- What a caller of `memmove` expects. -/
structure Moved (mem mem' : Memory) (dst src : Word) (n : Nat) : Prop where
  inside : ∀ k, k < n → mem' (dst + ofNat 32 k) = mem (src + ofNat 32 k)
  outside : ∀ a : Word, a.toNat < dst.toNat ∨ dst.toNat + n ≤ a.toNat → mem' a = mem a

theorem moved_spec (hdst : NoWrap dst n) : Moved mem (moved mem dst src n) dst src n where
  inside k hk := by
    unfold NoWrap at hdst
    have hdist := ahead_add dst (k := k) (by omega)
    have hsame : src + (dst + ofNat 32 k - dst) = src + ofNat 32 k := by bv_omega
    rw [moved, if_pos (by omega), hsame]
  outside a ha := by
    have hoff : ¬ahead dst a < n := by
      unfold NoWrap ahead at *
      bv_omega
    rw [moved, if_neg hoff]

theorem kern_memmove_eq {n : Word} (hdst : NoWrap dst n.toNat) (hsrc : NoWrap src n.toNat) :
    (Kern.memmove mem dst src n).1 = moved mem dst src n.toNat := by
  unfold NoWrap at *
  have hn : n.toNat ≤ 2 ^ 32 := Nat.le_of_lt n.isLt
  unfold Kern.memmove
  split
  · rename_i hover
    have hfar : n.toNat ≤ ahead dst src := by
      unfold ahead
      bv_omega
    have hmain : down n.toNat mem _ _ = _ := down_eq hn (.inl hfar)
    rw [BitVec.ofNat_toNat, BitVec.setWidth_eq] at hmain
    exact hmain
  · rename_i hover
    refine up_eq hn fun k hk => ?_
    obtain rfl : src = dst := by
      unfold ahead at hk
      bv_omega
    rw [ahead_self, Nat.add_zero]

theorem repeats_of_overlap (hsrc : NoWrap src n)
    (h : src < dst → dst.toNat < src.toNat + n → Repeats mem src n (dst.toNat - src.toNat)) :
    Repeats mem src n (ahead src dst) := by
  unfold NoWrap at hsrc
  by_cases hover : src < dst ∧ dst.toNat < src.toNat + n
  · have hdist : ahead src dst = dst.toNat - src.toNat := by
      unfold ahead
      bv_omega
    rw [hdist]
    exact h hover.1 hover.2
  · intro k hk
    obtain rfl : src = dst := by
      unfold ahead at hk
      bv_omega
    rw [ahead_self, Nat.add_zero]

theorem up_moved_iff (hdst : NoWrap dst n) (hsrc : NoWrap src n) :
    Moved mem (up n mem dst src) dst src n ↔
      (src < dst → dst.toNat < src.toNat + n → Repeats mem src n (dst.toNat - src.toNat)) := by
  have hn : n ≤ 2 ^ 32 := by
    unfold NoWrap at hsrc
    omega
  constructor
  · intro hmoved hlt hover k hk
    have hdist : ahead src dst = dst.toNat - src.toNat := by
      unfold ahead
      bv_omega
    have hsmear := up_smears mem dst src hn k
    rw [hdist] at hsmear
    rw [← hmoved.inside _ hk, ← hmoved.inside k (by omega)]
    exact hsmear hk
  · intro h
    rw [up_eq hn (repeats_of_overlap hsrc h)]
    exact moved_spec hdst

/-- The kernel's `memmove` moves stretches however they overlap; that of user programs does exactly if `dst` is not
inside the source, or the source repeats itself from there on. Both return `dst`. -/
theorem memmove_moves (mem : Memory) (dst src n : Word) :
    (NoWrap dst n.toNat → NoWrap src n.toNat →
      Moved mem (Kern.memmove mem dst src n).1 dst src n.toNat ∧ (Kern.memmove mem dst src n).2 = dst) ∧
    (NoWrap dst n.toInt.toNat → NoWrap src n.toInt.toNat →
      (Moved mem (Ulib.memmove mem dst src n).1 dst src n.toInt.toNat ∧ (Ulib.memmove mem dst src n).2 = dst ↔
        (src < dst → dst.toNat < src.toNat + n.toInt.toNat → Repeats mem src n.toInt.toNat
          (dst.toNat - src.toNat)))) := by
  refine ⟨fun hdst hsrc => ⟨?_, ?_⟩, fun hdst hsrc => ?_⟩
  · rw [kern_memmove_eq hdst hsrc]
    exact moved_spec hdst
  · unfold Kern.memmove
    split <;> rfl
  · rw [← up_moved_iff hdst hsrc]
    exact and_iff_left rfl

/-- Memory in which each byte holds its own address. -/
def ramp : Memory := fun a => a.setWidth 8

/-- Down by one byte, and up by one byte in the kernel. -/
theorem memmove_moves_ramp :
    (Ulib.memmove ramp 0 1 2).1 1 = 2 ∧ (Kern.memmove ramp 1 0 2).1 2 = 1 := by
  have hnat : (2 : Word).toNat = 2 := by decide
  have hint : (2 : Word).toInt.toNat = 2 := by decide
  have hkern := (memmove_moves ramp 1 0 2).1 (by decide) (by decide)
  have hulib := ((memmove_moves ramp 0 1 2).2 (by decide) (by decide)).mpr fun hlt => absurd hlt (by decide)
  rw [hnat] at hkern
  rw [hint] at hulib
  exact ⟨hulib.1.inside 1 (by decide), hkern.1.inside 1 (by decide)⟩

/-- Two bytes that are moved up by one: the second has been overwritten when it is read. -/
theorem ulib_memmove_smears :
    NoWrap 1 (2 : Word).toInt.toNat ∧ NoWrap 0 (2 : Word).toInt.toNat ∧
      ¬Moved ramp (Ulib.memmove ramp 1 0 2).1 1 0 (2 : Word).toInt.toNat := by
  refine ⟨by decide, by decide, fun h => ?_⟩
  have hread := h.inside 1 (by decide)
  revert hread
  decide

end Xv6.MemMove
