import Mathlib
import Xv6.LogOps

/- Admission to the log (log.c, mkfs.c).

   `begin_op` reserves `MAXOPBLOCKS` entries for every operation it admits and stops
   at `LOGSIZE`; mkfs makes a log of `nlog = LOGSIZE` blocks; and `log_write` panics
   when the list has reached `log.size - 1`, since one of these blocks is the header.
   The three do not agree: three operations of ten blocks each are admitted, and only
   29 blocks fit.

   `Fits` is what admission should guarantee: nobody has paniced with `too big a
   transaction`, and every logged block has its slot in the log area. `fits_iff_roomy`
   says exactly when a run keeps it: whenever a `log_write` tests the room in the log,
   and whenever it adds a block, the operations of the open group have logged fewer than
   `nlog - 1` different blocks. `three_full_operations` is a run of admitted operations,
   each within `MAXOPBLOCKS`, that does not.

   The test comes before the absorption of a block that is already in the log, so with
   29 blocks logged also a `log_write` that adds nothing panics. It is made without the
   lock, so two processes that test with 28 blocks logged can both go on, and the
   second block then has its slot behind the log. -/
namespace Xv6.LogOps
open List Bits Log Transition

/-- The log size that mkfs writes to the super block. -/
def nlog : Nat := LOGSIZE

section

variable {π : Type}

/-- The block of the log area that entry `i` of the header stands for: `log.start + i + 1`. -/
def slot (logstart i : Nat) : Nat := logstart + i + 1

/-- Nobody has paniced for want of space, and every logged block has a slot in
`[logstart + 1, logstart + nlog)`. -/
structure Fits (logstart : Nat) (s : LogState π) : Prop where
  panics : ∀ p, s.pc p ≠ .panicked .tooBig
  slots : ∀ i < s.n, logstart + 1 ≤ slot logstart i ∧ slot logstart i < logstart + nlog

/-- The blocks that the operations of the open group have logged. -/
def LogState.group (s : LogState π) : Finset Word :=
  (s.ended.flatMap Op.blocks ++ s.active.flatMap fun p => (s.cur p).blocks).toFinset

/-- Where the space is tested, and where a block is added, the open group has logged fewer
than `nlog - 1` different blocks. -/
def Roomy (s : LogState π) (l : π × Choice) : Prop :=
  match s.pc l.1, l.2 with
  | .writeRoom _, .go => s.group.card < nlog - 1
  | .writeCount b _, .go => b ∉ s.group → s.group.card < nlog - 1
  | _, _ => True

/-- An operation logs at most `MAXOPBLOCKS` different blocks. -/
def Modest (s : LogState π) (l : π × Choice) : Prop :=
  match l.2 with
  | .logWrite b => (b :: (s.cur l.1).blocks).toFinset.card ≤ MAXOPBLOCKS
  | _ => True

instance (s : LogState π) (l : π × Choice) : Decidable (Roomy s l) := by
  unfold Roomy
  split <;> infer_instance

instance (s : LogState π) (l : π × Choice) : Decidable (Modest s l) :=
  match l with
  | (p, .logWrite b) =>
    inferInstanceAs (Decidable ((b :: (s.cur p).blocks).toFinset.card ≤ MAXOPBLOCKS))
  | (_, .go) | (_, .beginOp) | (_, .endOp) => .isTrue trivial

theorem mem_group {s : LogState π} (h : Contents s) (b : Word) : b ∈ s.group ↔ b ∈ s.blocks s.n := by
  rw [h.covers, LogState.group, mem_toFinset, mem_append, mem_flatMap, mem_flatMap]

theorem card_group {s : LogState π} (h : Contents s) : s.group.card = s.n := by
  have heq : s.group = (s.blocks s.n).toFinset := by
    ext b
    rw [mem_group h, mem_toFinset]
  rw [heq, toFinset_card_of_nodup h.nodup]
  simp [LogState.blocks]

theorem slots_iff {logstart n : Nat} :
    (∀ i < n, logstart + 1 ≤ slot logstart i ∧ slot logstart i < logstart + nlog) ↔ n ≤ nlog - 1 := by
  have hpos : 0 < nlog := by decide
  constructor
  · intro h
    by_contra hn
    have := (h (nlog - 1) (by omega)).2
    simp only [slot] at this
    omega
  · intro h i hi
    simp only [slot]
    omega

end

section

variable {π : Type} [DecidableEq π] {s t : LogState π} {p : π} {logstart : Nat}

theorem Fits.step {k : Pc} (h : Fits logstart s) (hpc : t.pc = Function.update s.pc p k)
    (hk : k ≠ .panicked .tooBig) (hn : t.n ≤ s.n) : Fits logstart t where
  panics := by
    intro q
    rw [hpc]
    by_cases hq : q = p
    · subst hq
      simpa using hk
    · simpa [hq] using h.panics q
  slots := fun i hi => h.slots i (by omega)

theorem Fits.acquire {k : Pc} (h : Fits logstart s) (hs : s.acquire p k = some t)
    (hk : k ≠ .panicked .tooBig) : Fits logstart t := by
  rw [LogState.acquire] at hs
  split at hs <;> cases hs
  exact h.step rfl hk (Nat.le_refl _)

theorem Fits.release {k : Pc} (h : Fits logstart s) (hs : s.release p k = some t)
    (hk : k ≠ .panicked .tooBig) : Fits logstart t := by
  rw [LogState.release] at hs
  split at hs <;> cases hs
  exact h.step rfl hk (Nat.le_refl _)

omit [DecidableEq π] in
theorem Fits.le (h : Fits logstart s) : s.n ≤ nlog - 1 := slots_iff.mp h.slots

theorem fits_other {k : Pc} (h : Fits logstart s) (hroom : ∀ b, k ≠ .writeRoom b)
    (hcount : ∀ b i, k ≠ .writeCount b i) (hs : goStep nlog s p k = some t) : Fits logstart t := by
  cases k with
  | idle | inOp | panicked => cases hs
  | writeRoom b => exact absurd rfl (hroom b)
  | writeCount b i => exact absurd rfl (hcount b i)
  | writeFull b =>
    cases hs
    -- the list never reaches LOGSIZE: the test of the room comes first
    have hn : ¬s.n ≥ LOGSIZE := by
      have := h.le
      have hsize : nlog - 1 < LOGSIZE := by decide
      omega
    rw [if_neg hn]
    exact h.step rfl (by simp) (Nat.le_refl _)
  | beginAcquire | writeAcquire | endAcquire | doneAcquire => exact h.acquire hs (by simp)
  | beginRelease | writeRelease | doneRelease => exact h.release hs (by simp)
  | endRelease doCommit => exact h.release hs (by split <;> simp)
  | beginTest | beginSpace =>
    simp only [goStep] at hs
    split at hs
    · exact h.release hs (by simp)
    · cases hs
      exact h.step rfl (by simp) (Nat.le_refl _)
  | beginCount | writeStore | endCount | writeHead | writeEmpty | doneCommit =>
    cases hs
    exact h.step rfl (by simp) (Nat.le_refl _)
  | writeTrans | writeScan | endTest | writeLog | installTrans =>
    cases hs
    exact h.step rfl (by split <;> simp) (Nat.le_refl _)
  | endLast | commit =>
    simp only [goStep] at hs
    split at hs <;>
    · cases hs
      exact h.step rfl (by simp) (Nat.le_refl _)
  | clearHead =>
    cases hs
    exact h.step rfl (by simp) (Nat.zero_le _)

theorem fits_goStep_iff {k : Pc} (h : Fits logstart s) (hb : Books s) (hpc : s.pc p = k)
    (hs : goStep nlog s p k = some t) : Fits logstart t ↔ Roomy s (p, .go) := by
  have hcard := card_group hb.contents
  have hle := h.le
  have hsize : nlog = 30 := rfl
  simp only [Roomy, hpc]
  split
  · -- the test of the room
    cases hs
    rw [hcard]
    constructor
    · intro ht
      by_contra hn
      refine ht.panics p ?_
      simp only [LogState.goto, Function.update_self]
      rw [if_pos (by omega)]
    · intro hn
      rw [if_neg (by omega)]
      exact h.step rfl (by simp) (Nat.le_refl _)
  · -- the end of a log_write: block b is new exactly if its entry is behind the list
    rename_i b i heq
    cases hs
    have hk := hb.control.knows p
    rw [hpc] at hk
    obtain ⟨hl, hi, hbefore, hat⟩ := hk
    have hnew : b ∉ s.group ↔ i = s.n := by
      rw [mem_group hb.contents]
      constructor
      · intro hnot
        by_contra hne
        exact hnot (List.mem_map.mpr ⟨i, List.mem_range.mpr (by omega), hat⟩)
      · rintro rfl hmem
        obtain ⟨j, hj, hjb⟩ := List.mem_map.mp hmem
        exact hbefore j (List.mem_range.mp hj) hjb
    rw [hnew, hcard]
    constructor
    · intro ht hlast
      have := ht.le
      simp only [LogState.goto, if_pos hlast] at this
      omega
    · intro hroom
      have hfits : Fits logstart (s.goto p .writeRelease) := h.step rfl (by simp) (Nat.le_refl _)
      refine ⟨hfits.panics, slots_iff.mpr ?_⟩
      simp only [LogState.goto]
      split
      · rename_i hlast
        have := hroom hlast
        omega
      · exact hle
  · rename_i hroom hcount
    refine ⟨fun _ => trivial, fun _ => fits_other h ?_ ?_ hs⟩
    · rintro b rfl
      exact hroom b rfl rfl
    · rintro b i rfl
      exact hcount b i rfl rfl

theorem fits_step_iff {l : π × Choice} (h : Fits logstart s) (hb : Books s)
    (hs : stepOf nlog s l = some t) : Fits logstart t ↔ Roomy s l := by
  obtain ⟨p, c⟩ := l
  simp only [stepOf] at hs
  split at hs
  · exact fits_goStep_iff h hb rfl hs
  case h_5 => cases hs
  all_goals
    rename_i hpc
    cases hs
    simp only [Roomy, hpc, iff_true]
    exact h.step rfl (by simp) (Nat.le_refl _)

/-- **When admission is enough.** For any number of processes and any interleaving, the log
has room in every state of a run exactly if, whenever a `log_write` tests the room and
whenever it adds a block, the open group has logged fewer than `nlog - 1` different
blocks. -/
theorem fits_iff_roomy (logstart : Nat) {ls : List (π × Choice)}
    (hrun : run (stepOf nlog) start ls = some s) :
    Always (stepOf nlog) (Fits logstart) start ls ↔ Along (stepOf nlog) Roomy start ls := by
  have h0 : Fits logstart (start : LogState π) := ⟨fun _ => by simp [start], fun i hi => absurd hi (by simp [start])⟩
  exact always_iff_along Books (fun u l v hs hb hf => ⟨fits_step_iff hf hb hs, fun _ => books_step hb hs⟩)
    books_start h0 hrun

end

theorem fits_iff_roomy_twoOps : Always (stepOf nlog) (Fits 2) start twoOps := by
  have hrun : (run (stepOf nlog) start twoOps).isSome := by decide +kernel
  obtain ⟨s, hs⟩ := Option.isSome_iff_exists.mp hrun
  exact (fits_iff_roomy 2 hs).mpr (by decide +kernel)

/-- Three operations of ten blocks each, begun together and logging in turn. -/
def threeFull : List (Fin 3 × Choice) :=
  [(0, .beginOp), (1, .beginOp), (2, .beginOp)] ++ goes 0 5 ++ goes 1 5 ++ goes 2 5 ++
  (range 29).flatMap (fun m => writes (Fin.ofNat 3 m) (BitVec.ofNat 32 (100 + m)) (m + 1)) ++
  (2, .logWrite 129) :: goes 2 2

theorem three_full_operations : Along (stepOf nlog) Modest start threeFull ∧
    ∃ s, run (stepOf nlog) start threeFull = some s ∧ s.pc 2 = .panicked .tooBig := by
  have hrun : (run (stepOf nlog) start threeFull).map (fun s => s.pc 2) =
      some (.panicked .tooBig) := by decide +kernel
  refine ⟨by decide +kernel, ?_⟩
  obtain ⟨s, hs, hpc⟩ := Option.map_eq_some_iff.mp hrun
  exact ⟨s, hs, hpc⟩

end Xv6.LogOps
