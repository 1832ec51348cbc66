import Mathlib
import Xv6.ByteBlock
import Xv6.Loop

/- Crash atomicity of the log (log.c).

   `commit` writes the blocks of a transaction to the log, then the header that
   lists them, then the blocks to their home locations, then an empty header. A
   crash keeps the disk as the writes so far have left it and forgets the rest;
   the next boot runs `recover_from_log`, which can be cut short in its turn.

   1. The functions, with the disk after every single write (`history`).
   2. Three kinds of disk: `Before` (empty header, nothing installed), `Committed`
      (the header lists the transaction and the log holds it; its home blocks may
      hold anything) and `After` (empty header, all installed). `commit` goes
      through them in this order; a recovery, cut short or not, never goes back.
   3. `commit_crash_atomic`: whatever is cut short and where, after a recovery that
      completes the home blocks are as before if the crash came before the write of
      the header, and as after it else.

   The buffer cache is seen through its coherence: a buffer that `log_write` has
   pinned holds new contents (`dirty`), every other one the contents of its block.
   The driver's writes of single blocks are atomic and in order.

   Correspondence (C ↔ Lean):
     `struct logheader`, `log.start`, `log.size`  ↔ `LogHeader`, `LogArea`
     `bread(dev, b)->data`, `bwrite`              ↔ `bread`, `bwrite`
     `install_trans`, `read_head`, `write_head`   ↔ `installTrans`, `readHead`, `writeHead`
     `recover_from_log`, `write_log`, `commit`    ↔ `recoverFromLog`, `writeLog`, `commit`
     memory after a reboot                        ↔ `boot` -/
namespace Xv6.Log
open Function Bits ByteBlock

/-- The contents of a disk block: `BSIZE` bytes. -/
abbrev Blk := Block 512

abbrev Disk := Nat → Blk

def LOGSIZE : Nat := 30
def FSSIZE : Nat := 1000

/-- `struct logheader`. -/
structure LogHeader where
  n : Word
  block : Nat → Word

/-- How often a loop up to `lh.n` runs; `n` is a signed int. -/
def LogHeader.count (lh : LogHeader) : Nat := lh.n.toInt.toNat

/-- Where the log lies on the disk. -/
structure LogArea where
  start : Nat
  size : Nat

/-- Block `b` belongs to the log. -/
def LogArea.Has (L : LogArea) (b : Nat) : Prop := L.start ≤ b ∧ b < L.start + L.size

structure Kernel where
  disk : Disk
  dirty : Nat → Option Blk
  lh : LogHeader
  history : List Disk

/-- The data `bread` finds in the buffer it returns. -/
def bread (k : Kernel) (b : Nat) : Blk := (k.dirty b).getD (k.disk b)

/-- Store the data in the buffer of block `b` and write it to disk. -/
def bwrite (k : Kernel) (b : Nat) (data : Blk) : Kernel :=
  { k with
    disk := update k.disk b data
    dirty := update k.dirty b none
    history := k.history ++ [update k.disk b data] }

section

variable (k : Kernel) (b : Nat) (data : Blk)

@[simp] theorem bwrite_lh : (bwrite k b data).lh = k.lh := rfl

@[simp] theorem bwrite_length : (bwrite k b data).history.length = k.history.length + 1 := by
  simp [bwrite]

@[simp] theorem bwrite_disk_self : (bwrite k b data).disk b = data := by simp [bwrite]

variable {b} {c : Nat} (h : c ≠ b)

include h in
theorem bwrite_disk_of_ne : (bwrite k b data).disk c = k.disk c := by simp [bwrite, h]

include h in
theorem bwrite_dirty_of_ne : (bwrite k b data).dirty c = k.dirty c := by simp [bwrite, h]

/-- A buffer that agrees with the disk is never pinned by a write. -/
theorem bwrite_dirty_none {c : Nat} (h : k.dirty c = none) : (bwrite k b data).dirty c = none := by
  by_cases hc : c = b
  · simp [bwrite, hc]
  · rw [bwrite_dirty_of_ne k data hc, h]

end

section

variable (L : LogArea)

/-- One round of `install_trans`. -/
def installOne (k : Kernel) (tail : Nat) : Kernel :=
  bwrite k (k.lh.block tail).toNat (bread k (L.start + tail + 1))

def installTrans (k : Kernel) : Kernel := Loop.count k.lh.count (installOne L) k

def readHead (k : Kernel) : Kernel :=
  let lh : LogHeader := { k.lh with n := get32 (bread k L.start) 0 }
  { k with lh := { lh with
      block := fun i => if i < lh.count then get32 (bread k L.start) (4 + 4 * i) else k.lh.block i } }

/-- The header laid over the old contents of its block. -/
def LogHeader.encode (lh : LogHeader) (b : Blk) : Blk :=
  Loop.count lh.count (fun b i => put32 b (4 + 4 * i) (lh.block i)) (put32 b 0 lh.n)

def writeHead (k : Kernel) : Kernel := bwrite k L.start (k.lh.encode (bread k L.start))

def clear (k : Kernel) : Kernel := { k with lh := { k.lh with n := 0 } }

def recoverFromLog (k : Kernel) : Kernel := writeHead L (clear (installTrans L (readHead L k)))

/-- One round of `write_log`. -/
def writeLogOne (k : Kernel) (tail : Nat) : Kernel :=
  bwrite k (L.start + tail + 1) (bread k (k.lh.block tail).toNat)

def writeLog (k : Kernel) : Kernel := Loop.count k.lh.count (writeLogOne L) k

def commit (k : Kernel) : Kernel :=
  if 0 < k.lh.n.toInt then writeHead L (clear (installTrans L (writeHead L (writeLog L k)))) else k

end

/-- After a reboot: an empty cache and a zeroed `log`. -/
def boot (d : Disk) : Kernel where
  disk := d
  dirty := fun _ => none
  lh := ⟨0, fun _ => 0⟩
  history := [d]

def EmptyHeader (b : Blk) : Prop := get32 b 0 = 0

/-- What `commit` finds: an empty header on the disk and, in memory, a list of distinct
blocks outside the log, which fits in it, with their new contents in pinned buffers. -/
structure Transaction (L : LogArea) (k : Kernel) : Prop where
  history : k.history = [k.disk]
  header : EmptyHeader (k.disk L.start)
  le_logsize : k.lh.n.toNat ≤ LOGSIZE
  lt_size : k.lh.n.toNat < L.size
  distinct : ∀ i < k.lh.n.toNat, ∀ j < k.lh.n.toNat, k.lh.block i = k.lh.block j → i = j
  outside : ∀ i < k.lh.n.toNat, ¬L.Has (k.lh.block i).toNat
  pinned : ∀ b, k.dirty b ≠ none ↔ ∃ i < k.lh.n.toNat, (k.lh.block i).toNat = b

/-- A recovery from `d` is cut short and leaves `d'`. -/
def Cut (L : LogArea) (d d' : Disk) : Prop := d' ∈ (recoverFromLog L (boot d)).history

/-! ## Reading back the header -/

theorem get32_encode_n (lh : LogHeader) (b : Blk) :
    get32 (lh.encode b) 0 = lh.n := by
  refine Loop.count_invariant (fun _ b => get32 b 0 = lh.n) (get32_put32 b lh.n (by omega)) ?_
  intro i _ c hc
  rw [get32_put32_of_disjoint c _ (by omega), hc]

theorem get32_encode_block (lh : LogHeader) (b : Blk) (h : lh.count ≤ LOGSIZE) {j : Nat}
    (hj : j < lh.count) : get32 (lh.encode b) (4 + 4 * j) = lh.block j := by
  have hsize : LOGSIZE = 30 := rfl
  refine Loop.count_invariant
    (fun i b => j < i → get32 b (4 + 4 * j) = lh.block j) (fun hj => absurd hj (by omega)) ?_ hj
  intro i hi c hc hji
  by_cases h' : j = i
  · subst h'
    exact get32_put32 c _ (by omega)
  · rw [get32_put32_of_disjoint c _ (by omega)]
    exact hc (by omega)

theorem count_eq_toNat {lh : LogHeader} (h : lh.n.toNat ≤ LOGSIZE) : lh.count = lh.n.toNat := by
  have hsize : LOGSIZE = 30 := rfl
  rw [LogHeader.count, BitVec.toInt_eq_toNat_of_lt (by omega), Int.toNat_natCast]

/-! ## The three kinds of disk -/

section

variable (L : LogArea) (k : Kernel)

/-- The disk block `b` once the transaction is installed. -/
def installed (b : Nat) : Blk := bread k b

structure Before (d : Disk) : Prop where
  header : EmptyHeader (d L.start)
  home : ∀ b, ¬L.Has b → d b = k.disk b

structure Committed (d : Disk) : Prop where
  n : get32 (d L.start) 0 = k.lh.n
  block : ∀ i < k.lh.n.toNat, get32 (d L.start) (4 + 4 * i) = k.lh.block i
  slot : ∀ i < k.lh.n.toNat, d (L.start + i + 1) = installed k (k.lh.block i).toNat
  home : ∀ b, ¬L.Has b → k.dirty b = none → d b = k.disk b

structure After (d : Disk) : Prop where
  header : EmptyHeader (d L.start)
  home : ∀ b, ¬L.Has b → d b = installed k b

end

/-- What is known of the disk after each write, by its number. -/
def Recorded (P : Nat → Disk → Prop) (m : Kernel) : Prop :=
  ∀ i d, m.history[i]? = some d → P i d

section

variable {L : LogArea} {k m : Kernel}

theorem Recorded.bwrite {P : Nat → Disk → Prop} (h : Recorded P m) {b : Nat} {data : Blk}
    (hP : P m.history.length (bwrite m b data).disk) : Recorded P (bwrite m b data) := by
  intro i d hi
  rcases Nat.lt_trichotomy i m.history.length with hlt | rfl | hgt
  · exact h i d (by simpa [Log.bwrite, List.getElem?_append_left hlt] using hi)
  · have : (Log.bwrite m b data).disk = d := by simpa [Log.bwrite] using hi
    exact this ▸ hP
  · have hlen : (m.history ++ [update m.disk b data]).length ≤ i := by simp; omega
    simp [Log.bwrite, List.getElem?_eq_none hlen] at hi

theorem Recorded.writeHead {P : Nat → Disk → Prop} (h : Recorded P m)
    (hP : P m.history.length (writeHead L m).disk) : Recorded P (writeHead L m) := h.bwrite hP

theorem Transaction.has_slot (ht : Transaction L k) {i : Nat} (hi : i < k.lh.n.toNat) :
    L.Has (L.start + i + 1) := by
  have := ht.lt_size
  exact ⟨by omega, by omega⟩

theorem Transaction.has_start (ht : Transaction L k) : L.Has L.start := by
  have := ht.lt_size
  exact ⟨by omega, by omega⟩

theorem Transaction.dirty_log (ht : Transaction L k) {b : Nat} (hb : L.Has b) : k.dirty b = none := by
  by_contra hd
  obtain ⟨i, hi, rfl⟩ := (ht.pinned b).mp hd
  exact ht.outside i hi hb

theorem Before.write_slot (h : Before L k m.disk) {i : Nat} (hb : L.Has (L.start + i + 1))
    (data : Blk) :
    Before L k (bwrite m (L.start + i + 1) data).disk where
  header := by
    have hne : L.start ≠ L.start + i + 1 := by omega
    rw [bwrite_disk_of_ne m _ hne]
    exact h.header
  home := by
    intro b hb'
    have hne : b ≠ L.start + i + 1 := by
      rintro rfl
      exact hb' hb
    rw [bwrite_disk_of_ne m _ hne]
    exact h.home b hb'

theorem Committed.write_home (ht : Transaction L k) (h : Committed L k m.disk) {j : Nat}
    (hj : j < k.lh.n.toNat) (data : Blk) :
    Committed L k (bwrite m (k.lh.block j).toNat data).disk := by
  have hne : ∀ b, L.Has b → b ≠ (k.lh.block j).toNat := by
    rintro b hb rfl
    exact ht.outside j hj hb
  have hstart := bwrite_disk_of_ne m data (hne _ ht.has_start)
  refine ⟨by rw [hstart, h.n], ?_, ?_, ?_⟩
  · intro i hi
    rw [hstart, h.block i hi]
  · intro i hi
    rw [bwrite_disk_of_ne m _ (hne _ (ht.has_slot hi)), h.slot i hi]
  · intro b hb hd
    have hne' : b ≠ (k.lh.block j).toNat := by
      rintro rfl
      exact (ht.pinned _).mpr ⟨j, hj, rfl⟩ hd
    rw [bwrite_disk_of_ne m _ hne', h.home b hb hd]

theorem Committed.clear_head (ht : Transaction L k) (h : Committed L k m.disk)
    (hall : ∀ j < k.lh.n.toNat, m.disk (k.lh.block j).toNat = installed k (k.lh.block j).toNat)
    (hn : m.lh.n = 0) : After L k (writeHead L m).disk where
  header := by
    have := get32_encode_n m.lh (bread m L.start)
    simpa [EmptyHeader, writeHead, hn] using this
  home := by
    intro b hb
    have hne : b ≠ L.start := by
      rintro rfl
      exact hb ht.has_start
    rw [writeHead, bwrite_disk_of_ne m _ hne]
    by_cases hd : k.dirty b = none
    · rw [h.home b hb hd, installed, bread, hd, Option.getD_none]
    · obtain ⟨j, hj, rfl⟩ := (ht.pinned b).mp hd
      exact hall j hj

/-! ## The loops -/

structure Logging (L : LogArea) (k : Kernel) (P : Nat → Disk → Prop) (i : Nat) (m : Kernel) : Prop where
  lh : m.lh = k.lh
  before : Before L k m.disk
  slot : ∀ j < i, m.disk (L.start + j + 1) = installed k (k.lh.block j).toNat
  dirty : ∀ b, m.dirty b = k.dirty b
  length : m.history.length = i + 1
  recorded : Recorded P m

theorem logging_writeLog (ht : Transaction L k) {P : Nat → Disk → Prop}
    (hP : ∀ i ≤ k.lh.n.toNat, ∀ d, Before L k d → P i d) :
    Logging L k P k.lh.n.toNat (writeLog L k) := by
  rw [writeLog, count_eq_toNat ht.le_logsize]
  refine Loop.count_invariant (Logging L k P) ?_ ?_
  · refine ⟨rfl, ⟨ht.header, fun _ _ => rfl⟩, by simp, fun _ => rfl, by simp [ht.history], ?_⟩
    intro i d hd
    rw [ht.history] at hd
    cases i with
    | zero =>
      cases hd
      exact hP 0 (Nat.zero_le _) _ ⟨ht.header, fun _ _ => rfl⟩
    | succ i => simp at hd
  · intro i hi m h
    have hslot := ht.has_slot hi
    have hbefore := h.before.write_slot hslot (bread m (m.lh.block i).toNat)
    refine ⟨h.lh, hbefore, ?_, ?_, by simp [writeLogOne, h.length], ?_⟩
    · intro j hj
      by_cases hji : j = i
      · subst hji
        -- the home block is pinned: its buffer holds what is to be installed
        simp [writeLogOne, bread, installed, h.lh, h.dirty, h.before.home _ (ht.outside j hi)]
      · have hne : L.start + j + 1 ≠ L.start + i + 1 := by omega
        rw [writeLogOne, bwrite_disk_of_ne m _ hne]
        exact h.slot j (by omega)
    · intro b
      by_cases hb : b = L.start + i + 1
      · subst hb
        simp [writeLogOne, bwrite, ht.dirty_log hslot]
      · rw [writeLogOne, bwrite_dirty_of_ne m _ hb, h.dirty]
    · exact h.recorded.bwrite (hP _ (by rw [h.length]; omega) _ hbefore)

structure Installing (L : LogArea) (k : Kernel) (P : Nat → Disk → Prop) (N : Nat) (i : Nat)
    (m : Kernel) : Prop where
  n : m.lh.n = k.lh.n
  block : ∀ j < k.lh.n.toNat, m.lh.block j = k.lh.block j
  committed : Committed L k m.disk
  done : ∀ j < i, m.disk (k.lh.block j).toNat = installed k (k.lh.block j).toNat
  dirty : ∀ b, L.Has b → m.dirty b = none
  length : m.history.length = N + i
  recorded : Recorded P m

theorem installing_installTrans (ht : Transaction L k) {P : Nat → Disk → Prop} {N : Nat}
    (hP : ∀ i ≥ N, ∀ d, Committed L k d → P i d) (h0 : Installing L k P N 0 m) :
    Installing L k P N k.lh.n.toNat (installTrans L m) := by
  have hcount : m.lh.count = k.lh.n.toNat := by
    have hle := ht.le_logsize
    rw [← h0.n] at hle ⊢
    exact count_eq_toNat hle
  rw [installTrans, hcount]
  refine Loop.count_invariant (Installing L k P N) h0 ?_
  intro i hi m h
  have hblock : m.lh.block i = k.lh.block i := h.block i hi
  have hcomm := h.committed.write_home ht hi (bread m (L.start + i + 1))
  rw [installOne, hblock]
  refine ⟨h.n, h.block, hcomm, ?_, ?_, by rw [bwrite_length, h.length]; omega, ?_⟩
  · have hdata : bread m (L.start + i + 1) = installed k (k.lh.block i).toNat := by
      rw [bread, h.dirty _ (ht.has_slot hi), Option.getD_none, h.committed.slot i hi]
    intro j hj
    by_cases hji : (k.lh.block j).toNat = (k.lh.block i).toNat
    · rw [hji, bwrite_disk_self, hdata]
    · have hne : j ≠ i := by
        rintro rfl
        exact hji rfl
      rw [bwrite_disk_of_ne m _ hji, h.done j (by omega)]
  · exact fun b hb => bwrite_dirty_none m _ (h.dirty b hb)
  · exact h.recorded.bwrite (hP _ (by rw [h.length]; omega) _ hcomm)

theorem Logging.write_head (ht : Transaction L k) {P : Nat → Disk → Prop}
    (hP : ∀ i > k.lh.n.toNat, ∀ d, Committed L k d ∨ After L k d → P i d)
    (h : Logging L k P k.lh.n.toNat m) :
    Installing L k P (k.lh.n.toNat + 2) 0 (writeHead L m) := by
  have hcount := count_eq_toNat ht.le_logsize
  have hcomm : Committed L k (writeHead L m).disk := by
    refine ⟨?_, ?_, ?_, ?_⟩
    · simpa [writeHead, h.lh] using get32_encode_n k.lh (bread m L.start)
    · intro i hi
      rw [writeHead, bwrite_disk_self, h.lh]
      exact get32_encode_block k.lh _ (hcount ▸ ht.le_logsize) (hcount ▸ hi)
    · intro i hi
      have hne : L.start + i + 1 ≠ L.start := by omega
      rw [writeHead, bwrite_disk_of_ne m _ hne]
      exact h.slot i hi
    · intro b hb _
      have hne : b ≠ L.start := by
        rintro rfl
        exact hb ht.has_start
      rw [writeHead, bwrite_disk_of_ne m _ hne]
      exact h.before.home b hb
  refine ⟨by simp [writeHead, h.lh], fun j _ => by simp [writeHead, h.lh], hcomm, by simp, ?_,
    by simp [writeHead, h.length], ?_⟩
  · intro b hb
    refine bwrite_dirty_none m _ ?_
    rw [h.dirty, ht.dirty_log hb]
  · exact h.recorded.writeHead (hP _ (by rw [h.length]; omega) _ (.inl hcomm))

/-! ## `commit` and `recover_from_log` -/

/-- The disk after write number `i` of `commit`. -/
def CommitDisk (L : LogArea) (k : Kernel) (i : Nat) (d : Disk) : Prop :=
  if i ≤ k.lh.n.toNat then Before L k d else Committed L k d ∨ After L k d

theorem commit_recorded (ht : Transaction L k) : Recorded (CommitDisk L k) (commit L k) := by
  have hbefore : ∀ i ≤ k.lh.n.toNat, ∀ d, Before L k d → CommitDisk L k i d := by
    intro i hi d hd
    rwa [CommitDisk, if_pos hi]
  have hlater : ∀ i > k.lh.n.toNat, ∀ d, Committed L k d ∨ After L k d → CommitDisk L k i d := by
    intro i hi d hd
    rwa [CommitDisk, if_neg (by omega)]
  rw [commit]
  split
  · have h1 := logging_writeLog ht hbefore
    -- the write of the header
    generalize writeLog L k = m1 at h1
    have h2 := h1.write_head ht hlater
    generalize writeHead L m1 = m2 at h2
    have h3 := installing_installTrans ht (fun i hi d hd => hlater i (by omega) d (.inl hd)) h2
    generalize installTrans L m2 = m3 at h3
    have h4 : After L k (writeHead L (clear m3)).disk := h3.committed.clear_head (m := clear m3) ht h3.done rfl
    have hlen : (clear m3).history.length > k.lh.n.toNat := by
      have := h3.length
      simp only [clear]
      omega
    exact Recorded.writeHead (m := clear m3) h3.recorded (hlater _ hlen _ (.inr h4))
  · intro i d hd
    rw [ht.history] at hd
    cases i with
    | zero =>
      cases hd
      exact hbefore 0 (Nat.zero_le _) _ ⟨ht.header, fun _ _ => rfl⟩
    | succ i => simp at hd

theorem recover_empty {d d' : Disk} (hd : EmptyHeader (d L.start))
    (hd' : d' = (recoverFromLog L (boot d)).disk ∨ d' ∈ (recoverFromLog L (boot d)).history) :
    EmptyHeader (d' L.start) ∧ ∀ b ≠ L.start, d' b = d b := by
  have hcount : (readHead L (boot d)).lh.count = 0 := by
    have : (readHead L (boot d)).lh.n = 0 := hd
    simp [LogHeader.count, this]
  have hrec : recoverFromLog L (boot d) = writeHead L (clear (readHead L (boot d))) := by
    rw [recoverFromLog, installTrans, hcount, Loop.count_zero]
  have hfinal : d' = d ∨ d' = (writeHead L (clear (readHead L (boot d)))).disk := by
    rw [hrec] at hd'
    rcases hd' with rfl | hd'
    · exact .inr rfl
    · exact (List.mem_append.mp hd').imp List.mem_singleton.mp List.mem_singleton.mp
  rcases hfinal with rfl | rfl
  · exact ⟨hd, fun _ _ => rfl⟩
  · refine ⟨?_, fun b hb => ?_⟩
    · rw [writeHead, bwrite_disk_self]
      exact get32_encode_n _ _
    · rw [writeHead, bwrite_disk_of_ne _ _ hb]
      rfl

/-- What a recovery leaves, and what it leaves when it is cut short, after a crash
before the header was written. -/
theorem before_recover (ht : Transaction L k) {d d' : Disk} (hd : Before L k d)
    (hd' : d' = (recoverFromLog L (boot d)).disk ∨ d' ∈ (recoverFromLog L (boot d)).history) :
    Before L k d' := by
  obtain ⟨hempty, hother⟩ := recover_empty hd.header hd'
  refine ⟨hempty, fun b hb => ?_⟩
  have hne : b ≠ L.start := by
    rintro rfl
    exact hb ht.has_start
  rw [hother b hne, hd.home b hb]

theorem after_recover (ht : Transaction L k) {d : Disk} (hd : Committed L k d ∨ After L k d) :
    After L k (recoverFromLog L (boot d)).disk ∧
      ∀ d' ∈ (recoverFromLog L (boot d)).history, Committed L k d' ∨ After L k d' := by
  rcases hd with hd | hd
  · -- the header lists the transaction: install it once more
    have h0 : Installing L k (fun _ d => Committed L k d ∨ After L k d) 1 0 (readHead L (boot d)) := by
      have hcount : (readHead L (boot d)).lh.count = k.lh.n.toNat := by
        have hle := ht.le_logsize
        rw [← hd.n] at hle ⊢
        exact count_eq_toNat hle
      refine ⟨hd.n, ?_, hd, by simp, fun _ _ => rfl, rfl, ?_⟩
      · intro j hj
        have hj' : j < (readHead L (boot d)).lh.count := hcount ▸ hj
        exact (if_pos hj').trans (hd.block j hj)
      · intro i d' hi
        cases i with
        | zero =>
          cases hi
          exact .inl hd
        | succ i => simp [readHead, boot] at hi
    have h3 := installing_installTrans ht (fun _ _ d hd => .inl hd) h0
    rw [recoverFromLog]
    generalize installTrans L (readHead L (boot d)) = m3 at h3
    have h4 : After L k (writeHead L (clear m3)).disk := h3.committed.clear_head (m := clear m3) ht h3.done rfl
    refine ⟨h4, fun d' hd' => ?_⟩
    obtain ⟨i, hi⟩ := List.mem_iff_getElem?.mp hd'
    exact Recorded.writeHead (m := clear m3) h3.recorded (.inr h4) i d' hi
  · have hkeep : ∀ d', d' = (recoverFromLog L (boot d)).disk ∨ d' ∈ (recoverFromLog L (boot d)).history →
        After L k d' := by
      intro d' hd'
      obtain ⟨hempty, hother⟩ := recover_empty hd.header hd'
      refine ⟨hempty, fun b hb => ?_⟩
      have hne : b ≠ L.start := by
        rintro rfl
        exact hb ht.has_start
      rw [hother b hne, hd.home b hb]
    exact ⟨hkeep _ (.inl rfl), fun d' hd' => .inr (hkeep d' (.inr hd'))⟩

/-- A kind of disk that recoveries keep is kept by any number of them, cut short
anywhere. -/
theorem cut_invariant {P : Disk → Prop}
    (hP : ∀ d, P d → ∀ d' ∈ (recoverFromLog L (boot d)).history, P d') {d d' : Disk} (hd : P d)
    (hcut : Relation.ReflTransGen (Cut L) d d') : P d' := by
  induction hcut with
  | refl => exact hd
  | tail _ hstep ih => exact hP _ ih _ hstep

end

/-- **The log makes a transaction atomic.** `commit` is cut short after any number `i` of
its disk writes, then any number of recoveries are cut short at any write, then one
completes. If the header was not written yet (it is write number `n + 1`), every block
outside the log is as it was; once it was, the blocks of the transaction hold their new
contents and all others are as they were. The header is empty again. -/
theorem commit_crash_atomic {L : LogArea} {k : Kernel} (ht : Transaction L k) {i : Nat}
    {d₁ d₂ : Disk} (hcrash : (commit L k).history[i]? = some d₁)
    (hcut : Relation.ReflTransGen (Cut L) d₁ d₂) :
    EmptyHeader ((recoverFromLog L (boot d₂)).disk L.start) ∧
    (i ≤ k.lh.n.toNat → ∀ b, ¬L.Has b → (recoverFromLog L (boot d₂)).disk b = k.disk b) ∧
    (k.lh.n.toNat < i → ∀ b, ¬L.Has b →
      (recoverFromLog L (boot d₂)).disk b = (k.dirty b).getD (k.disk b)) := by
  have hd₁ := commit_recorded ht i d₁ hcrash
  by_cases hi : i ≤ k.lh.n.toNat
  · rw [CommitDisk, if_pos hi] at hd₁
    have hd₂ := cut_invariant (fun d hd _ h => before_recover ht hd (.inr h)) hd₁ hcut
    have h := before_recover ht hd₂ (.inl rfl)
    exact ⟨h.header, fun _ => h.home, fun hgt => absurd hi (by omega)⟩
  · rw [CommitDisk, if_neg hi] at hd₁
    have hd₂ := cut_invariant (fun d hd => (after_recover ht hd).2) hd₁ hcut
    have h := (after_recover ht hd₂).1
    exact ⟨h.header, fun hle => absurd hle hi, fun _ => h.home⟩

/-- A transaction of blocks 40 and 50, to be filled with ones, on a disk of zeros. -/
def twoBlocks : Kernel where
  disk := fun _ _ => 0
  dirty := fun b => if b = 40 ∨ b = 50 then some fun _ => 1 else none
  lh := ⟨2, fun i => if i = 0 then 40 else 50⟩
  history := [fun _ _ => 0]

theorem twoBlocks_transaction : Transaction ⟨2, 30⟩ twoBlocks where
  history := rfl
  header := by
    unfold EmptyHeader
    decide +kernel
  le_logsize := by decide
  lt_size := by decide
  distinct := by decide
  outside := by
    unfold LogArea.Has
    decide
  pinned := by
    intro b
    have hdirty : twoBlocks.dirty b ≠ none ↔ b = 40 ∨ b = 50 := by
      simp only [twoBlocks]
      split <;> simp_all
    rw [hdirty]
    constructor
    · rintro (rfl | rfl)
      · exact ⟨0, by decide, rfl⟩
      · exact ⟨1, by decide, rfl⟩
    · rintro ⟨i, hi, rfl⟩
      have hi' : i = 0 ∨ i = 1 := by
        have : i < 2 := hi
        omega
      rcases hi' with rfl | rfl <;> decide

/-- The crash comes when the header and the first home block are written. -/
theorem commit_crash_atomic_twoBlocks : ∃ d₁, (commit ⟨2, 30⟩ twoBlocks).history[4]? = some d₁ ∧
    (recoverFromLog ⟨2, 30⟩ (boot d₁)).disk 50 = fun _ => 1 := by
  have hlen : ((commit ⟨2, 30⟩ twoBlocks).history[4]?).isSome := by decide +kernel
  obtain ⟨d₁, hd₁⟩ := Option.isSome_iff_exists.mp hlen
  have h := commit_crash_atomic twoBlocks_transaction hd₁ .refl
  refine ⟨d₁, hd₁, (h.2.2 (by decide) 50 ?_).trans rfl⟩
  unfold LogArea.Has
  decide

end Xv6.Log
