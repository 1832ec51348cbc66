import Xv6.ProcBooks

/- The process table keeps its integrity, for any number of CPUs and over every
   interleaving.

   The steps of the lock-free `allocproc` and `allocpid` and the steps under
   `ptable.lock` share one table. `books_run` puts the invariants together and
   takes them along every run from the table after `userinit`; `Integrity` is what
   they say about the table that is reached:

     1. no slot is claimed by two calls of `allocproc`;
     2. processes have distinct pids, until `nextpid` wraps;
     3. a RUNNING process is the current process of exactly one CPU;
     4. every process but the first has a parent, which is alive;
     5. a child is returned by one `wait` at most, made by its parent, and its
        kernel stack and page table are freed, no page twice.

   Two things are no processes in this sense although their slot is not UNUSED: an
   EMBRYO has no pid and no parent before `fork` stores them, and a ZOMBIE that
   `wait` removes loses them before the slot is UNUSED, which only the holder of the
   lock can see (`Unnumbered`, `Unparented`). -/
namespace Xv6.Ptable
open Function List Bits Table Family Transition

variable {κ : Type} {b : Prop}

/-! ## The invariants together -/

structure Books (b : Prop) (t : Table κ) : Prop where
  facts : Facts b t
  pids : b → PidsOk t
  pages : PagesOk t
  reaping : Reaping t

section Start

theorem start_claim (i : SlotId) : ((start : Table κ).thread i).main.claim = none := by
  by_cases hi : i = initproc
  · simp [start, hi, newborn, Main.claim]
  · simp [start, hi, Main.claim]

theorem start_crit (i : SlotId) : ∃ k, ((start : Table κ).thread i).crit = some (.resumed k) := by
  by_cases hi : i = initproc
  · exact ⟨.release, by simp [start, hi, newborn]⟩
  · exact ⟨.dead, by simp [start, hi]⟩

theorem facts_start : Facts b (start : Table κ) where
  next := fun _ => rfl
  live := by
    intro j hj
    rw [kinds_start] at hj
    split at hj
    · next heq => simp [start, heq, Entry.Whole]
    · cases hj
  dead := by
    intro j hj
    rw [kinds_start] at hj
    split at hj <;> cases hj
  held := fun hj => nomatch (start_claim _).symm.trans hj
  taken := by
    intro i k j hk hj
    obtain ⟨l, hl⟩ := start_crit (κ := κ) i
    cases hl.symm.trans hk
    cases hj

theorem pids_start : PidsOk (start : Table κ) := by
  have hpids : (start : Table κ).pids =
      update (fun _ => none) (.inl initproc) (some 2) := by
    funext x
    rcases x with j | i
    · by_cases hj : j = initproc
      · rw [hj, update_self]
        rfl
      · simp [Table.pids, start, hj, unused, num]
    · by_cases hi : i = initproc
      · simp [Table.pids, start, hi, newborn, Thread.pid, Main.pid, Crit.pid]
      · simp [Table.pids, start, hi, Thread.pid, Main.pid, Crit.pid]
  rw [PidsOk, hpids]
  exact (Ledger.empty 2).issue (Sum.inl initproc)

theorem pages_start : PagesOk (start : Table κ) := by
  have hheld : (start : Table κ).held = update
      (update (fun _ => none) (.inl initproc) (some 0)) (.inr initproc) (some 1) := by
    funext x
    rcases x with j | j <;> by_cases hj : j = initproc
    · simp [Table.held, start, hj]
    · simp [Table.held, start, hj, unused]
    · simp [Table.held, start, hj]
    · simp [Table.held, start, hj, unused]
  rw [PagesOk, hheld]
  exact ((Ledger.empty 0).issue (Sum.inl initproc)).issue (Sum.inr initproc)

theorem reaping_start : Reaping (start : Table κ) where
  parent := fun hq => nomatch (parents_start _).symm.trans hq
  crit := by
    intro i k hk
    obtain ⟨l, hl⟩ := start_crit (κ := κ) i
    cases hl.symm.trans hk
    trivial
  kstacks := List.Sublist.refl []
  returned := nofun

theorem books_start : Books b (start : Table κ) :=
  ⟨facts_start, fun _ => pids_start, pages_start, reaping_start⟩

end Start

section Steps

variable [DecidableEq κ] {t t' : Table κ}

theorem allocs_le (hs : Stepped t t') : t.allocs ≤ t'.allocs := by
  cases hs with
  | sched c hs => cases hs <;> exact Nat.le_refl _
  | main c i rest _ _ hr =>
    generalize (t.thread i).main = m at hr
    cases hr with
    | cas => exact Nat.le_succ _
    | _ => exact Nat.le_refl _
  | crit c i rest k _ _ hw => cases hw <;> exact Nat.le_refl _

theorem books_stepped (h : Books b t) (hsound : Sound t) (hb : b → t'.allocs + 1 < 2 ^ 32)
    (hs : Stepped t t') : Books b t' := by
  have hf := hsound.family
  cases hs with
  | sched c hs =>
    exact ⟨facts_schedules h.facts hsound.sched hs, fun hyp => pids_schedules (h.pids hyp) hs,
      pages_schedules h.pages hs, reaping_schedules h.reaping hs⟩
  | main c i rest hpc hk hr =>
    have hrun := hsound.sched.running_of_away hpc (by rw [hk]; rfl)
    have hlive : t.kinds i = .live := kinds_of_state hrun
    exact ⟨facts_runs h.facts hf hsound.sched hpc hk hb hr,
      fun hyp => pids_runs (h.pids hyp) h.facts hyp hsound hlive hk (hb hyp) hr,
      pages_runs h.pages h.facts hlive hr, reaping_runs h.reaping hf hk hr⟩
  | crit c i rest k hpc hk hw =>
    exact ⟨facts_works h.facts hf hsound.sched hpc hk hw,
      fun hyp => pids_works (h.pids hyp) h.facts hyp hsound hk hw,
      pages_works h.pages h.facts hk hw, reaping_works h.reaping hf hsound.sched hk hw⟩

theorem books_run {ls : List (Label κ)} (hrun : run step start ls = some t) :
    Sound t ∧ ∀ b : Prop, (b → t.allocs + 1 < 2 ^ 32) → Books b t := by
  refine run_invariant (fun t => Sound t ∧ ∀ b : Prop, (b → t.allocs + 1 < 2 ^ 32) → Books b t)
    (C := fun _ _ => True) ?_ ⟨sound_start, fun _ _ => books_start⟩ (along_of_forall (by simp) _ _)
    hrun
  intro s l s' ⟨hsound, hbooks⟩ _ hs
  have hstep := step_stepped hs
  refine ⟨sound_stepped hsound hstep, fun b hb => books_stepped (hbooks b ?_) hsound hb hstep⟩
  intro hyp
  exact Nat.lt_of_le_of_lt (Nat.add_le_add_right (allocs_le hstep) 1) (hb hyp)

end Steps

/-! ## What they say about the table -/

/-- In `allocproc`, before `p->pid = allocpid()` is done. -/
def Main.unnumbered : Main → Bool
  | .pidRead _ | .pidCas _ _ | .pidStore _ _ => true
  | _ => false

/-- In `fork`, before `np->parent = curproc` is done. -/
def Main.unparented : Main → Bool
  | .readPid _ | .publish _ _ => false
  | m => m.claim.isSome

/-- Process `i` runs, holds the lock and stands at `k`. -/
def Holds (t : Table κ) (i : SlotId) (k : Crit) : Prop :=
  ∃ c rest, (t.cpu c).pc = .away i rest ∧ t.lock = some c ∧ (t.thread i).crit = some k

/-- A slot that has no pid yet, or no longer. -/
def Unnumbered (t : Table κ) (j : SlotId) : Prop :=
  (t.proc j).state = .EMBRYO ∧
    (∃ i, (t.thread i).main.claim = some j ∧ (t.thread i).main.unnumbered = true) ∨
  (t.proc j).state = .ZOMBIE ∧ ∃ i r, Holds t i (.waitOrphan j r) ∨ Holds t i (.waitUnused j r)

/-- A slot that has no parent yet, or no longer. -/
def Unparented (t : Table κ) (j : SlotId) : Prop :=
  (t.proc j).state = .EMBRYO ∧
    (∃ i, (t.thread i).main.claim = some j ∧ (t.thread i).main.unparented = true) ∨
  (t.proc j).state = .ZOMBIE ∧ ∃ i r, Holds t i (.waitUnused j r)

section Read

variable {t : Table κ} {i j : SlotId}

theorem cont_role_cases (k : Cont) : k.role = .none ∨ ∃ js, k.role = .exits js false := by
  induction k with
  | tidy k ih => exact ih
  | reparent rest => exact .inr ⟨rest, rfl⟩
  | release | rescan | dead => exact .inl rfl

theorem crit_role_ne {g : Bool} (k : Crit) : k.role ≠ .claims j g := by
  intro h
  cases k with
  | sleep _ k | asleep k | tidy k | sched k | resumed k | wakeup1 _ _ k =>
    rcases cont_role_cases k with hk | ⟨js, hk⟩ <;> cases hk.symm.trans h
  | _ => cases h

theorem crit_of_reaps {k : Crit} (h : k.role = .reaps j false) : ∃ r, k = .waitUnused j r := by
  cases k with
  | sleep _ k | asleep k | tidy k | sched k | resumed k | wakeup1 _ _ k =>
    rcases cont_role_cases k with hk | ⟨js, hk⟩ <;> cases hk.symm.trans h
  | waitUnused l r =>
    cases h
    exact ⟨r, rfl⟩
  | _ => cases h

theorem main_of_claims {g : Bool} (h : t.roles i = .claims j g) :
    (t.thread i).main.role = .claims j g := by
  unfold Table.roles Thread.role at h
  split at h
  · cases hk : (t.thread i).crit with
    | none =>
      rw [hk] at h
      cases h
    | some k =>
      rw [hk] at h
      exact absurd h (crit_role_ne k)
  · exact h

theorem claim_of_role {m : Main} {g : Bool} (h : m.role = .claims j g) :
    m.claim = some j ∧ m.unparented = !g := by
  cases m <;> cases h <;> exact ⟨rfl, rfl⟩

theorem used_of_state (h : (t.proc j).state ≠ .UNUSED) : t.kinds j ≠ .unused := by
  intro hk
  apply h
  unfold Table.kinds at hk
  cases hs : (t.proc j).state with
  | UNUSED => rfl
  | _ => rw [hs] at hk; cases hk

theorem Sched.holds {k : Crit} (h : Sched t) (hk : (t.thread i).crit = some k)
    (hpark : parked (some k) = false) (hleave : leaving (some k) = false) : Holds t i k := by
  obtain ⟨c, rest, hpc, hl⟩ := h.holds_of_crit hk hpark hleave
  exact ⟨c, rest, hpc, hl, hk⟩

theorem unnumbered_of_zero (hsound : Sound t) (h : Facts True t)
    (hused : (t.proc j).state ≠ .UNUSED) (hpid : (t.proc j).pid = 0) : Unnumbered t j := by
  have hf := hsound.family
  cases hk : t.kinds j with
  | unused => exact absurd hk (used_of_state hused)
  | live => exact absurd hpid ((h.live hk).1 trivial)
  | embryo =>
    obtain ⟨i, g, hi⟩ := hf.family.claimed hk
    have hclaim := (claim_of_role (main_of_claims hi)).1
    refine .inl ⟨state_embryo hk, i, hclaim, ?_⟩
    have hheld := h.held hclaim
    -- once the pid is stored it is not 0 any more
    cases hm : (t.thread i).main with
    | run | scan => rw [hm] at hclaim; cases hclaim
    | pidRead | pidCas | pidStore => rfl
    | kalloc | copyuvm | freeStack | giveUp =>
      rw [hm] at hheld
      exact absurd hpid (hheld trivial)
    | setParent | readPid | publish =>
      rw [hm] at hheld
      exact absurd hpid (hheld.1 trivial)
  | dead =>
    refine .inr ⟨state_zombie hk, ?_⟩
    have hreaped : ∃ i, (t.thread i).Reaps j := by
      by_contra hno
      exact (h.dead hk (not_exists.mp hno)).1 trivial hpid
    obtain ⟨i, l, hl, hj⟩ := hreaped
    have hknows := h.taken hl hj
    -- up to `p->pid = 0` the pid is still there
    cases l with
    | waitPid x =>
      cases hj
      exact absurd hpid (hknows.1 trivial)
    | waitStack x r | waitDir x r =>
      cases hj
      exact absurd hpid (hknows.2.1 trivial)
    | waitClear x r =>
      cases hj
      exact absurd hpid (hknows.2 trivial)
    | waitOrphan x r =>
      cases hj
      exact ⟨i, r, .inl (hsound.sched.holds hl rfl rfl)⟩
    | waitUnused x r =>
      cases hj
      exact ⟨i, r, .inr (hsound.sched.holds hl rfl rfl)⟩
    | _ => cases hj

theorem pid_inj (hsound : Sound t) (h : Books True t) (hi : (t.proc i).state ≠ .UNUSED)
    (hj : (t.proc j).state ≠ .UNUSED) (hpid : (t.proc i).pid = (t.proc j).pid) :
    i = j ∨ Unnumbered t i ∧ Unnumbered t j := by
  by_cases hzero : (t.proc i).pid = 0
  · exact .inr ⟨unnumbered_of_zero hsound h.facts hi hzero,
      unnumbered_of_zero hsound h.facts hj (hpid.symm.trans hzero)⟩
  · -- two slots that hold the same token are the same place of the ledger
    have hheld : t.pids (.inl i) = some (t.proc i).pid.toNat := num_of_ne hzero
    have hheld' : t.pids (.inl j) = some (t.proc i).pid.toNat := by
      rw [Table.pids, ← hpid]
      exact num_of_ne hzero
    exact .inl (Sum.inl.inj ((h.pids trivial).inj hheld hheld'))

theorem Sched.running_unique (h : Sched t) (hrun : (t.proc i).state = .RUNNING) :
    ∃! c, (t.cpu c).proc = some i := by
  obtain ⟨c, hc⟩ := (h.proc i).running hrun
  refine ⟨c, (h.cpu c).1.trans hc, ?_⟩
  intro c' hc'
  exact h.alone ((h.cpu c').1.symm.trans hc') hc

theorem unused_of_reaps {th : Thread} (h : th.role = .reaps j false) :
    ∃ r, th.crit = some (.waitUnused j r) := by
  unfold Thread.role at h
  split at h
  · cases hk : th.crit with
    | none =>
      rw [hk] at h
      cases h
    | some k =>
      rw [hk] at h
      obtain ⟨r, rfl⟩ := crit_of_reaps h
      exact ⟨r, rfl⟩
  · cases hm : th.main <;> rw [hm] at h <;> cases h

theorem parent_used (hsound : Sound t) (hused : (t.proc j).state ≠ .UNUSED) (hj : j ≠ initproc) :
    (∃ q, (t.proc j).parent = some q ∧ (t.proc q).state ≠ .UNUSED) ∨ Unparented t j := by
  have hfam := hsound.family.family
  have hlive : ∀ {q}, (t.proc j).parent = some q → (t.proc q).state ≠ .UNUSED := by
    intro q hq hs
    have hq' := hfam.parentLive hq
    rw [Table.kinds, hs] at hq'
    cases hq'
  cases hparent : (t.proc j).parent with
  | some q => exact .inl ⟨q, rfl, hlive hparent⟩
  | none =>
    right
    cases hk : t.kinds j with
    | unused => exact absurd hk (used_of_state hused)
    | embryo =>
      obtain ⟨i, g, hi⟩ := hfam.claimed hk
      obtain ⟨hclaim, hun⟩ := claim_of_role (main_of_claims hi)
      refine .inl ⟨state_embryo hk, i, hclaim, hun.trans ?_⟩
      cases g with
      | false => rfl
      | true => cases hparent.symm.trans (hfam.claims hi).2
    | live =>
      obtain ⟨i, hi⟩ := hfam.parented (.inl hk) hj hparent
      cases hk.symm.trans (hfam.reaps hi).1
    | dead =>
      obtain ⟨i, hi⟩ := hfam.parented (.inr hk) hj hparent
      obtain ⟨r, hr⟩ := unused_of_reaps hi
      exact .inr ⟨state_zombie hk, i, r, hsound.sched.holds hr rfl rfl⟩

end Read

structure Integrity (t : Table κ) : Prop where
  claimed : ∀ i i' j, (t.thread i).main.claim = some j → (t.thread i').main.claim = some j → i = i'
  distinct : t.allocs + 1 < 2 ^ 32 → ∀ i j, (t.proc i).state ≠ .UNUSED →
    (t.proc j).state ≠ .UNUSED → (t.proc i).pid = (t.proc j).pid →
    i = j ∨ Unnumbered t i ∧ Unnumbered t j
  running : ∀ p, (t.proc p).state = .RUNNING → ∃! c, (t.cpu c).proc = some p
  parented : ∀ j, (t.proc j).state ≠ .UNUSED → j ≠ initproc →
    (∃ q, (t.proc j).parent = some q ∧ (t.proc q).state ≠ .UNUSED) ∨ Unparented t j
  returned : t.allocs + 1 < 2 ^ 32 → (t.returned.map Reap.pid).Nodup
  once : (t.returned.map Reap.stack).Nodup
  reaped : ∀ r ∈ t.returned, r.ppid = r.waiter ∧ r.stack ∈ t.freed.map some ∧
    r.dir ∈ t.freed.map some
  freed : t.freed.Nodup

theorem table_integrity [DecidableEq κ] (ls : List (Label κ)) (t : Table κ)
    (hrun : run step start ls = some t) : Integrity t := by
  obtain ⟨hsound, hbooks⟩ := books_run hrun
  have hpages := (hbooks False nofun).pages
  have hreaping := (hbooks False nofun).reaping
  refine ⟨?_, ?_, ?_, ?_, ?_, ?_, hreaping.returned, hpages.nodup⟩
  · intro i i' j hi hi'
    exact hsound.family.claim_inj hi hi'
  · intro hwrap i j hi hj hpid
    exact pid_inj hsound (hbooks True fun _ => hwrap) hi hj hpid
  · intro p hp
    exact hsound.sched.running_unique hp
  · intro j hused hj
    exact parent_used hsound hused hj
  · intro hwrap
    have hspent := ((hbooks True fun _ => hwrap).pids trivial).nodup
    rw [Table.spent] at hspent
    refine List.Nodup.of_map BitVec.toNat ?_
    rw [map_map]
    exact hspent
  · exact (hpages.nodup.map fun _ _ => Option.some.inj).sublist hreaping.kstacks

/-! ## A run on two CPUs -/

def goes (c : Fin 2) (n : Nat) : List (Label (Fin 2)) := replicate n (.thread c (.go true))

-- the numerals below are the two CPUs
local instance two_cpus : NeZero 2 := ⟨by decide⟩

/-- The scheduler of CPU `c` skips `n` slots and starts the next process, which
returns to user space. -/
def dispatch (c : Fin 2) (n : Nat) : List (Label (Fin 2)) :=
  replicate (n + 5) (.sched c) ++ goes c 2

/-- A `fork` that finds the slot `n` free. -/
def forks (c : Fin 2) (n : Nat) : List (Label (Fin 2)) := .thread c .fork :: goes c (n + 11)

/-- Init, on the first CPU, forks twice. The first child exits on the second CPU, where
the other child then runs. -/
def firstExits : List (Label (Fin 2)) :=
  dispatch 0 0 ++ forks 0 1 ++ forks 0 2 ++ dispatch 1 1 ++ .thread 1 .exit :: goes 1 133 ++
    dispatch 1 0

/-- The other child claims a slot in `fork`, and init waits, up to `p->state = UNUSED`. -/
def initWaits : List (Label (Fin 2)) :=
  firstExits ++ .thread 1 .fork :: goes 1 4 ++ .thread 0 .wait :: goes 0 8

theorem table_integrity_waited : ∃ t, run step start (initWaits ++ goes 0 2) = some t ∧
    t.returned.map Reap.pid = [3] ∧ t.freed = [3, 2] ∧ Integrity t := by
  have heval : (run step start (initWaits ++ goes 0 2)).map
      (fun t => (t.returned.map Reap.pid, t.freed)) = some ([3], [3, 2]) := by
    decide +kernel
  obtain ⟨t, hrun, hseen⟩ := Option.map_eq_some_iff.mp heval
  obtain ⟨hpids, hfreed⟩ := Prod.mk.inj hseen
  exact ⟨t, hrun, hpids, hfreed, table_integrity _ t hrun⟩

/-- The child in slot 1 is a ZOMBIE still and slot 3 an EMBRYO: neither has a pid or a
parent. -/
theorem slots_without_pid_and_parent : ∃ t, run step start initWaits = some t ∧
    t.allocs + 1 < 2 ^ 32 ∧
    ((t.proc 1).state = .ZOMBIE ∧ (t.proc 1).pid = 0 ∧ (t.proc 1).parent = none) ∧
    (t.proc 3).state = .EMBRYO ∧ (t.proc 3).pid = 0 ∧ (t.proc 3).parent = none := by
  have heval : (run step start initWaits).map (fun t => (t.allocs,
      [1, 3].map fun j => ((t.proc j).state, (t.proc j).pid, (t.proc j).parent))) =
        some (3, [(.ZOMBIE, 0, none), (.EMBRYO, 0, none)]) := by
    decide +kernel
  obtain ⟨t, hrun, hseen⟩ := Option.map_eq_some_iff.mp heval
  simp only [map_cons, map_nil, Prod.mk.injEq, List.cons.injEq, and_true] at hseen
  obtain ⟨hallocs, hzombie, hembryo⟩ := hseen
  refine ⟨t, hrun, ?_, hzombie, hembryo⟩
  rw [hallocs]
  decide

end Xv6.Ptable
