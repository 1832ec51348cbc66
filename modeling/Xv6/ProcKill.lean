import Xv6.ProcIntegrity

/- `kill` on the process table (proc.c).

   `kill` looks for the pid only: that a slot with this pid is a process rests on
   what `allocproc`, `fork` and `wait` leave in the slots they free.

   1. `wait` clears the pid before it frees the slot, so a slot that a process has
      left has pid 0 (`Cleared`).
   2. A `fork` that fails does not: its slot is free again and keeps the pid it was
      given. Along a run without a failed fork of that pid, no free slot has it
      (`cleared_run`).
   3. Then `kill` tells existing processes from others (`kill_tells_existing`); for
      pid 0, and for the pid of a failed fork, it finds a free slot.

   Correspondence (C ↔ Lean):
     `ptable.proc[i].pending`          ↔ `Signals.pending`
     `kill`                            ↔ `kill` -/
namespace Xv6.Ptable
open Function Bits Table Family Transition

variable {κ : Type}

/-! ## `kill` -/

/-- The table, and the field that `kill` writes. -/
structure Signals (κ : Type) where
  table : Table κ
  pending : SlotId → Word

/-- The loop of `kill`: the first slot with the pid. -/
def findPid (t : Table κ) (pid : Word) : Option SlotId := slots.find? fun j => (t.proc j).pid = pid

/-- `kill(pid, signum)`: what it leaves, and the value it returns. -/
def kill (s : Signals κ) (pid signum : Word) : Signals κ × Word :=
  match legalSignum signum with
  | none => (s, -1)
  | some sig =>
    match findPid s.table pid with
    | none => (s, -1)
    | some j => ({ s with pending := update s.pending j (s.pending j ||| bit sig) }, 0)

theorem legalSignum_eq_some {signum : Word} {sig : Sig} :
    legalSignum signum = some sig ↔ (sig.val : Int) = signum.toInt := by
  have hint := BitVec.toInt_eq_toNat_cond signum
  have hlt := signum.isLt
  have hsig := sig.isLt
  unfold legalSignum
  by_cases hsmall : signum.toNat < 32
  · rw [if_pos (by omega)] at hint
    rw [dif_pos hsmall, hint, Option.some_inj, Fin.ext_iff, Int.natCast_inj]
    exact eq_comm
  · rw [dif_neg hsmall]
    split at hint
    · exact ⟨nofun, fun h => by omega⟩
    · exact ⟨nofun, fun h => by omega⟩

theorem legalSignum_eq_none {signum : Word} :
    legalSignum signum = none ↔ ¬(0 ≤ signum.toInt ∧ signum.toInt ≤ 31) := by
  constructor
  · intro h hlegal
    have hsmall : signum.toInt.toNat < 32 := by omega
    have hsome : legalSignum signum = some ⟨signum.toInt.toNat, hsmall⟩ :=
      legalSignum_eq_some.mpr (Int.toNat_of_nonneg hlegal.1)
    cases h.symm.trans hsome
  · intro h
    rw [Option.eq_none_iff_forall_ne_some]
    intro sig hsig
    have hval := legalSignum_eq_some.mp hsig
    have := sig.isLt
    omega

theorem findPid_eq_some {t : Table κ} {pid : Word} {j : SlotId} (h : findPid t pid = some j) :
    (t.proc j).pid = pid := by
  simpa using List.find?_some h

theorem findPid_eq_none {t : Table κ} {pid : Word} : findPid t pid = none ↔ ∀ j, (t.proc j).pid ≠ pid := by
  simp [findPid, slots]

/-! ## Free slots -/

/-- In `wait`, after `p->pid = 0`: the slot about to be freed. -/
def Crit.clears : Crit → Option SlotId
  | .waitOrphan j _ | .waitUnused j _ => some j
  | _ => none

def Thread.Clears (th : Thread) (j : SlotId) : Prop := ∃ k, th.crit = some k ∧ k.clears = some j

/-- No free slot has this pid, and none that `wait` is about to free. -/
structure Cleared (pid : Word) (t : Table κ) : Prop where
  free : ∀ {j}, (t.proc j).state = .UNUSED → (t.proc j).pid ≠ pid
  reaped : ∀ {i j}, (t.thread i).Clears j → (t.proc j).pid = 0

/-- A `fork` that was given this pid has failed, and is about to free its slot. -/
def Main.Fails (t : Table κ) (pid : Word) : Main → Prop
  | .giveUp j => (t.proc j).pid = pid
  | _ => False

instance (t : Table κ) (pid : Word) (m : Main) : Decidable (m.Fails t pid) := by
  cases m <;> unfold Main.Fails <;> infer_instance

section Step

variable {t t' : Table κ} {i j : SlotId} {e : Entry} {pid : Word} {k : Crit}

theorem reaps_of_clears (h : k.clears = some j) : k.reaps = some j := by
  cases k <;> cases h <;> rfl

theorem Thread.Clears.reaps {th : Thread} (h : th.Clears j) : th.Reaps j := by
  obtain ⟨k, hk, hj⟩ := h
  exact ⟨k, hk, reaps_of_clears hj⟩

theorem clears_update {f : SlotId → Thread} {th : Thread} {p x : SlotId} (h : (update f i th p).Clears x) :
    (f p).Clears x ∨ p = i ∧ th.Clears x := by
  by_cases hp : p = i
  · rw [hp, update_self] at h
    exact .inr ⟨hp, h⟩
  · rw [update_of_ne hp] at h
    exact .inl h

/-- A store to one slot, by a thread that is not about to free one. -/
theorem Cleared.step (h : Cleared pid t) (hproc : t'.proc = update t.proc j e)
    (hthread : ∀ {p x}, (t'.thread p).Clears x → (t.thread p).Clears x ∨ (t'.proc x).pid = 0)
    (hpid : e.pid = (t.proc j).pid ∨ e.pid = 0 ∨ ∀ p, ¬(t.thread p).Clears j)
    (hfree : e.state = .UNUSED → (t.proc j).state = .UNUSED ∧ e.pid = (t.proc j).pid ∨ e.pid ≠ pid) :
    Cleared pid t' := by
  constructor
  · intro x hx
    rw [hproc] at hx ⊢
    by_cases hxj : x = j
    · subst hxj
      rw [update_self] at hx ⊢
      rcases hfree hx with ⟨hold, heq⟩ | hne
      · rw [heq]
        exact h.free hold
      · exact hne
    · rw [update_of_ne hxj] at hx ⊢
      exact h.free hx
  · intro p x hx
    rcases hthread hx with hold | hzero
    · rw [hproc]
      by_cases hxj : x = j
      · subst hxj
        rw [update_self]
        rcases hpid with heq | hzero | hno
        · rw [heq]
          exact h.reaped hold
        · exact hzero
        · exact absurd hold (hno p)
      · rw [update_of_ne hxj]
        exact h.reaped hold
    · exact hzero

/-- No thread comes to the point where it is about to free a slot. -/
def Quiet (t t' : Table κ) : Prop :=
  ∀ p, (t'.thread p).crit = (t.thread p).crit ∨ (t'.thread p).crit.bind Crit.clears = none

theorem Quiet.of_thread (h : t'.thread = t.thread) : Quiet t t' :=
  fun _ => .inl (by rw [h])

theorem Quiet.goto {m : Main} (h : t'.thread = (t.goto i m).thread) : Quiet t t' :=
  fun _ => .inl (by simp [h])

theorem Quiet.crit {ko : Option Crit} (h : t'.thread = update t.thread i { t.thread i with crit := ko })
    (hk : ko.bind Crit.clears = none) : Quiet t t' := by
  intro p
  by_cases hp : p = i
  · right
    rw [h, hp, update_self]
    exact hk
  · left
    rw [h, update_of_ne hp]

theorem Cleared.keep (h : Cleared pid t) (hquiet : Quiet t t') (hproc : t'.proc = update t.proc j e)
    (hpid : e.pid = (t.proc j).pid) (hfree : e.state = .UNUSED → (t.proc j).state = .UNUSED ∨ e.pid ≠ pid) :
    Cleared pid t' := by
  refine h.step hproc ?_ (.inl hpid) fun he => (hfree he).imp_left fun hold => ⟨hold, hpid⟩
  rintro p x ⟨k, hk, hx⟩
  left
  rcases hquiet p with hsame | hnone
  · exact ⟨k, hsame ▸ hk, hx⟩
  · rw [hk] at hnone
    cases hnone.symm.trans hx

theorem Cleared.same (h : Cleared pid t) (hquiet : Quiet t t') (hproc : t'.proc = t.proc) : Cleared pid t' :=
  h.keep (j := 0) hquiet (hproc.trans (update_eq_self ..).symm) rfl .inl

theorem enters_clears {m : Main} (h : Enters i m k) : k.clears = none := by
  cases h <;> rfl

theorem cont_clears (k : Cont) : k.crit.clears = none := by
  cases k <;> rfl

theorem jumps_clears {k' : Crit} (h : Jumps t i k k') : k'.clears = none := by
  cases h with
  | resumed k | woken _ k => exact cont_clears k
  | _ => rfl

variable {c : κ} {rest : List SlotId}

theorem cleared_schedules [DecidableEq κ] (h : Cleared pid t) (hs : Schedules t c t') : Cleared pid t' := by
  cases hs with
  | start p | wake _ p => exact h.keep (j := p) (.of_thread rfl) rfl rfl nofun
  | _ => exact h.same (.of_thread rfl) rfl

theorem cleared_runs {m : Main} (h : Cleared pid t) (hf : FamilyOk t) (hm : (t.thread i).main = m)
    (hforks : ¬m.Fails t pid) (hr : Runs t c i m t') : Cleared pid t' := by
  cases hr with
  | enter m k hk => exact h.same (.crit rfl (enters_clears hk)) rfl
  | goes => exact h.same (.goto rfl) rfl
  | stay => exact h
  | sigkill => exact h.keep (j := i) (.of_thread rfl) rfl rfl nofun
  | claim j => exact h.keep (j := j) (.goto rfl) rfl rfl nofun
  | cas => exact h.same (.goto rfl) rfl
  | pidStore j =>
    -- The slot is an EMBRYO, and `wait` is busy with none.
    have hembryo := hf.embryo_of_claim (i := i) (j := j) (by rw [hm]; rfl)
    refine h.step (j := j) rfl ?_ (.inr (.inr ?_)) ?_
    · rintro p x ⟨k, hk, hx⟩
      exact .inl ⟨k, by simpa using hk, hx⟩
    · intro p hp
      cases hembryo.symm.trans (hf.dead_of_reaps hp.reaps)
    · intro hfree
      rw [Table.kinds, hfree] at hembryo
      cases hembryo
  | kalloc j =>
    refine h.keep (j := j) (fun p => ?_) rfl rfl .inl
    by_cases hp : p = j
    · right
      simp [hp, newborn, Crit.clears]
    · left
      simp [hp]
  | noStack j | copyuvm j | noDir j | freeStack j | setParent j => exact h.keep (j := j) (.goto rfl) rfl rfl .inl
  | giveUp j => exact h.keep (j := j) (.goto rfl) rfl rfl fun _ => .inr hforks
  | exec => exact h.keep (j := i) (.of_thread rfl) rfl rfl .inl

theorem cleared_works [DecidableEq κ] (h : Cleared pid t) (hzero : pid ≠ 0) (hk : (t.thread i).crit = some k)
    (hw : Works t c i rest k t') : Cleared pid t' := by
  cases hw with
  | jumps k k' hj => exact h.same (.crit rfl (jumps_clears hj)) rfl
  | release | waitReturn => exact h.same (.crit rfl rfl) rfl
  | publish j =>
    refine h.keep (j := j) (fun p => ?_) rfl rfl nofun
    by_cases hp : p = i
    · right
      simp [hp, Crit.clears]
    · left
      simp [hp]
  | yield | asleep | zombie => exact h.keep (j := i) (.crit rfl rfl) rfl rfl nofun
  | sleep => exact h.keep (j := i) (.crit rfl rfl) rfl rfl .inl
  | tidy k => exact h.keep (j := i) (.crit rfl (cont_clears k)) rfl rfl .inl
  | sched => exact h.same (.crit rfl rfl) rfl
  | wake _ j => exact h.keep (j := j) (.crit rfl rfl) rfl rfl nofun
  | adopt j | waitStack j | waitDir j => exact h.keep (j := j) (.crit rfl rfl) rfl rfl .inl
  | waitClear j r =>
    refine h.step (j := j) rfl (fun hx => ?_) (.inr (.inl rfl)) fun _ => .inr hzero.symm
    rcases clears_update hx with hold | ⟨-, k, hk', hx⟩
    · exact .inl hold
    · cases hk'
      cases hx
      right
      simp
  | waitOrphan j r =>
    refine h.step (j := j) rfl (fun hx => ?_) (.inl rfl) fun hfree => .inl ⟨hfree, rfl⟩
    rcases clears_update hx with hold | ⟨rfl, k, hk', hx⟩
    · exact .inl hold
    · cases hk'
      cases hx
      exact .inl ⟨_, hk, rfl⟩
  | waitUnused j r =>
    have hpid : (t.proc j).pid = 0 := h.reaped ⟨_, hk, rfl⟩
    refine h.keep (j := j) (.crit rfl rfl) rfl rfl fun _ => .inr ?_
    rw [hpid]
    exact hzero.symm

theorem cleared_stepped [DecidableEq κ] (h : Cleared pid t) (hzero : pid ≠ 0) (hf : FamilyOk t)
    (hforks : ∀ i, ¬(t.thread i).main.Fails t pid) (hs : Stepped t t') : Cleared pid t' := by
  cases hs with
  | sched c hs => exact cleared_schedules h hs
  | main c i rest _ _ hr => exact cleared_runs h hf rfl (hforks i) hr
  | crit c i rest k _ hk hw => exact cleared_works h hzero hk hw

end Step

theorem cleared_start {pid : Word} (hzero : pid ≠ 0) : Cleared pid (start : Table κ) where
  free {j} hfree := by
    by_cases hj : j = initproc
    · subst hj
      cases hfree
    · simp only [start, if_neg hj]
      exact hzero.symm
  reaped {i j} h := by
    obtain ⟨k, hk, hj⟩ := h
    obtain ⟨k', hk'⟩ := start_crit (κ := κ) i
    cases hk.symm.trans hk'
    cases hj

theorem cleared_run [DecidableEq κ] {pid : Word} {ls : List (Label κ)} {t : Table κ} (hzero : pid ≠ 0)
    (hrun : run step start ls = some t)
    (hforks : Along step (fun t _ => ∀ i, ¬(t.thread i).main.Fails t pid) start ls) : Cleared pid t := by
  refine (run_invariant (fun t => Sound t ∧ Cleared pid t) ?_ ⟨sound_start, cleared_start hzero⟩ hforks hrun).2
  intro s l s' ⟨hsound, h⟩ hforks hs
  exact ⟨sound_stepped hsound (step_stepped hs), cleared_stepped h hzero hsound.family hforks (step_stepped hs)⟩

/-! ## What `kill` reports -/

/-- `kill` returned `r.2` and left `r.1`: 0 for a process, with its bit set and nothing else changed, and else
-1 with nothing changed. -/
structure Reported (s : Signals κ) (pid signum : Word) (r : Signals κ × Word) : Prop where
  iff : r.2 = 0 ↔ (0 ≤ signum.toInt ∧ signum.toInt ≤ 31) ∧
    ∃ j, (s.table.proc j).state ≠ .UNUSED ∧ (s.table.proc j).pid = pid
  sent : r.2 = 0 → ∃ (j : SlotId) (sig : Sig), (s.table.proc j).state ≠ .UNUSED ∧ (s.table.proc j).pid = pid ∧
    (sig.val : Int) = signum.toInt ∧
    r.1 = { s with pending := update s.pending j (s.pending j ||| bit sig) }
  failed : r.2 ≠ 0 → r.2 = -1 ∧ r.1 = s

theorem reported_failed {s : Signals κ} {pid signum : Word}
    (h : ¬((0 ≤ signum.toInt ∧ signum.toInt ≤ 31) ∧
      ∃ j, (s.table.proc j).state ≠ .UNUSED ∧ (s.table.proc j).pid = pid)) : Reported s pid signum (s, -1) := by
  have hne : ((-1 : Word) = 0) = False := by decide
  constructor
  · simpa [hne] using h
  · intro h0
    exact absurd h0 (by simp)
  · intro _
    exact ⟨rfl, rfl⟩

theorem reported_of_cleared {s : Signals κ} {pid : Word} (signum : Word)
    (h : ∀ j, (s.table.proc j).state = .UNUSED → (s.table.proc j).pid ≠ pid) :
    Reported s pid signum (kill s pid signum) := by
  unfold kill
  cases hsig : legalSignum signum with
  | none => exact reported_failed fun hok => legalSignum_eq_none.mp hsig hok.1
  | some sig =>
    cases hfind : findPid s.table pid with
    | none => exact reported_failed fun ⟨_, j, _, hj⟩ => findPid_eq_none.mp hfind j hj
    | some j =>
      have hint := legalSignum_eq_some.mp hsig
      have hlegal : 0 ≤ signum.toInt ∧ signum.toInt ≤ 31 := by omega
      have hj := findPid_eq_some hfind
      have hused : (s.table.proc j).state ≠ .UNUSED := fun hfree => h j hfree hj
      constructor
      · exact ⟨fun _ => ⟨hlegal, j, hused, hj⟩, fun _ => rfl⟩
      · exact fun _ => ⟨j, sig, hused, hj, hint, rfl⟩
      · exact fun h0 => absurd rfl h0

/-- In any run, `kill` of a pid other than 0 tells the existing processes from the others, unless a `fork`
that was given this pid has failed. -/
theorem kill_tells_existing [DecidableEq κ] {ls : List (Label κ)} {t : Table κ} {pid : Word}
    (hrun : run step start ls = some t) (hzero : pid ≠ 0)
    (hforks : Along step (fun t _ => ∀ i, ¬(t.thread i).main.Fails t pid) start ls)
    (pending : SlotId → Word) (signum : Word) :
    Reported ⟨t, pending⟩ pid signum (kill ⟨t, pending⟩ pid signum) :=
  reported_of_cleared signum fun _ hfree => (cleared_run hzero hrun hforks).free hfree

/-- Init has forked: its child has pid 3. -/
theorem kill_tells_existing_child : ∃ t, run step start (dispatch 0 0 ++ forks 0 1) = some t ∧
    (t.proc 1).state = .RUNNABLE ∧ (t.proc 1).pid = 3 ∧ (kill ⟨t, fun _ => 0⟩ 3 9).2 = 0 ∧
    Reported ⟨t, fun _ => 0⟩ 3 9 (kill ⟨t, fun _ => 0⟩ 3 9) := by
  have heval : (run step start (dispatch 0 0 ++ forks 0 1)).map (fun t =>
      ((t.proc 1).state, (t.proc 1).pid, (kill ⟨t, fun _ => 0⟩ 3 9).2)) = some (.RUNNABLE, 3, 0) := by
    decide +kernel
  have hforks : Along step (fun t _ => ∀ i, ¬(t.thread i).main.Fails t 3) start (dispatch 0 0 ++ forks 0 1) := by
    decide +kernel
  obtain ⟨t, hrun, hseen⟩ := Option.map_eq_some_iff.mp heval
  simp only [Prod.mk.injEq] at hseen
  obtain ⟨hstate, hpid, hkill⟩ := hseen
  exact ⟨t, hrun, hstate, hpid, hkill, kill_tells_existing hrun (by decide) hforks _ 9⟩

attribute [local instance] two_cpus

/-- A `fork` of init in which `kalloc` fails. -/
def forkFails : List (Label (Fin 2)) :=
  dispatch 0 0 ++ .thread 0 .fork :: goes 0 5 ++ [.thread 0 (.go false), .thread 0 (.go true)]

/-- Init is the only process, after boot and after a fork that failed. `kill` succeeds for pid 0 and for the
pid of the child that does not exist. -/
theorem kill_finds_free_slots : ∃ t, run step (start : Table (Fin 2)) forkFails = some t ∧
    (∀ j, (t.proc j).state ≠ .UNUSED → (t.proc j).pid = 2) ∧
    (kill ⟨t, fun _ => 0⟩ 0 9).2 = 0 ∧ (kill ⟨t, fun _ => 0⟩ 3 9).2 = 0 ∧
    (∀ j, ((start : Table (Fin 2)).proc j).state ≠ .UNUSED → ((start : Table (Fin 2)).proc j).pid = 2) ∧
    (kill ⟨(start : Table (Fin 2)), fun _ => 0⟩ 0 9).2 = 0 := by
  have heval : (run step (start : Table (Fin 2)) forkFails).map (fun t =>
      (decide (∀ j, (t.proc j).state ≠ .UNUSED → (t.proc j).pid = 2), (kill ⟨t, fun _ => 0⟩ 0 9).2,
        (kill ⟨t, fun _ => 0⟩ 3 9).2)) = some (true, 0, 0) := by
    decide +kernel
  obtain ⟨t, hrun, hseen⟩ := Option.map_eq_some_iff.mp heval
  simp only [Prod.mk.injEq, decide_eq_true_eq] at hseen
  exact ⟨t, hrun, hseen.1, hseen.2.1, hseen.2.2, by decide +kernel, by decide +kernel⟩

end Xv6.Ptable
