import Xv6.ProcTable

/- CPUs, the lock and process states.

   A process that is RUNNING is on exactly one CPU, and that CPU's `c->proc` names
   it. The states of processes are not all protected by the lock in the same way:
   `allocproc` and the failure paths of `fork` move a slot between UNUSED and
   EMBRYO under no lock, and everything else happens on the CPU that holds it. So
   a step under the lock finds every other CPU idle or running a process outside
   of critical sections (`not_holding`), and a step under no lock touches no
   process that a CPU is at.

   `Sched` is the invariant: what each CPU can rely on where it stands (`CpuOk`),
   that no two CPUs are at the same process, and where a process can be found
   (`ProcOk`). -/
namespace Xv6.Ptable
open Function Table

variable {κ : Type}

/-- The process a CPU is at: from `c->proc = p` to `c->proc = 0`. -/
def CpuPc.at : CpuPc → Option SlotId
  | .start p _ | .swtch p _ | .away p _ | .back p _ => some p
  | _ => none

/-- In `sched`, about to switch to the scheduler. -/
def leaving : Option Crit → Bool
  | some (.sched _) => true
  | _ => false

/-- In `sched`, switched to the scheduler. -/
def parked : Option Crit → Bool
  | some (.resumed _) => true
  | _ => false

/-- What the code of CPU `c`, where it stands, can rely on. -/
def CpuOk (t : Table κ) (c : κ) (x : Cpu) : Prop :=
  x.proc = x.pc.at ∧
  match x.pc with
  | .idle => t.lock ≠ some c
  | .scan _ | .wakeup1 _ _ => t.lock = some c
  | .choose p _ | .start p _ => t.lock = some c ∧ (t.proc p).state = .RUNNABLE
  | .swtch p _ => t.lock = some c ∧ (t.proc p).state = .RUNNING ∧ parked (t.thread p).crit = true
  | .away p _ => (t.lock = some c ↔ (t.thread p).crit ≠ none) ∧
      if leaving (t.thread p).crit = true then
        (t.proc p).state = .RUNNABLE ∨ (t.proc p).state = .SLEEPING ∨ (t.proc p).state = .ZOMBIE
      else (t.proc p).state = .RUNNING
  | .back p _ => t.lock = some c ∧ (t.proc p).state ≠ .RUNNING

structure ProcOk (t : Table κ) (p : SlotId) : Prop where
  running : (t.proc p).state = .RUNNING → ∃ c, (t.cpu c).pc.at = some p
  off : (t.proc p).state ≠ .RUNNING → parked (t.thread p).crit = true ∨
    leaving (t.thread p).crit = true ∧ ∃ c rest, (t.cpu c).pc = .away p rest

structure Sched (t : Table κ) : Prop where
  cpu : ∀ c, CpuOk t c (t.cpu c)
  alone : ∀ {c c' p}, (t.cpu c).pc.at = some p → (t.cpu c').pc.at = some p → c = c'
  proc : ∀ p, ProcOk t p

/-! ## Reading the invariant -/

section Read

variable {t : Table κ} {c c' : κ} {i p : SlotId} {rest : List SlotId}

theorem Sched.running_of_away (h : Sched t) (hpc : (t.cpu c).pc = .away i rest)
    (hk : leaving (t.thread i).crit = false) : (t.proc i).state = .RUNNING := by
  have hc := (h.cpu c).2
  rw [hpc] at hc
  simpa [hk] using hc.2

theorem Sched.lock_of_away (h : Sched t) (hpc : (t.cpu c).pc = .away i rest) :
    t.lock = some c ↔ (t.thread i).crit ≠ none := by
  have hc := (h.cpu c).2
  rw [hpc] at hc
  exact hc.1

theorem only_holder (hl : t.lock = some c) (c' : κ) (hc : c' ≠ c) : t.lock ≠ some c' := by
  rw [hl]
  exact fun heq => hc (Option.some.inj heq).symm

theorem parked_spec {k : Option Crit} (h : parked k = true) : k ≠ none ∧ leaving k = false := by
  unfold parked at h
  split at h
  · exact ⟨nofun, rfl⟩
  · cases h

/-- A CPU that does not hold the lock is idle or runs a process that is in no
critical section. -/
theorem Sched.not_holding (h : Sched t) (hno : t.lock ≠ some c) :
    (t.cpu c).pc = .idle ∨ ∃ p rest, (t.cpu c).pc = .away p rest ∧
      (t.thread p).crit = none ∧ (t.proc p).state = .RUNNING := by
  have hok := (h.cpu c).2
  cases hpc : (t.cpu c).pc with
  | idle => exact .inl rfl
  | away p rest =>
    have hk : (t.thread p).crit = none := by
      by_contra hk
      exact hno ((h.lock_of_away hpc).mpr hk)
    exact .inr ⟨p, rest, rfl, hk, h.running_of_away hpc (by rw [hk]; rfl)⟩
  | scan | wakeup1 => rw [hpc] at hok; exact absurd hok hno
  | choose | start | swtch | back => rw [hpc] at hok; exact absurd hok.1 hno

theorem Sched.used_of_away (h : Sched t) (hpc : (t.cpu c).pc = .away p rest) :
    (t.proc p).state ≠ .UNUSED ∧ (t.proc p).state ≠ .EMBRYO := by
  have hok := (h.cpu c).2
  rw [hpc] at hok
  have hstate := hok.2
  split at hstate
  · rcases hstate with hs | hs | hs <;> rw [hs] <;> decide
  · rw [hstate]; decide

theorem Sched.holds_of_crit {k : Crit} (h : Sched t) (hk : (t.thread i).crit = some k)
    (hpark : parked (some k) = false) (hleave : leaving (some k) = false) :
    ∃ c rest, (t.cpu c).pc = .away i rest ∧ t.lock = some c := by
  have hrun : (t.proc i).state = .RUNNING := by
    by_contra hoff
    rcases (h.proc i).off hoff with hp | ⟨hl, _⟩
    · rw [hk, hpark] at hp
      cases hp
    · rw [hk, hleave] at hl
      cases hl
  obtain ⟨c, hat⟩ := (h.proc i).running hrun
  have hok := (h.cpu c).2
  -- before and after it runs, a process a CPU is at is parked or not RUNNING
  cases hpc : (t.cpu c).pc with
  | away p rest =>
    rw [hpc] at hat
    cases hat
    exact ⟨c, rest, hpc, (h.lock_of_away hpc).mpr (by rw [hk]; nofun)⟩
  | start p rest =>
    rw [hpc] at hat hok
    cases hat
    have hready : (t.proc i).state = .RUNNABLE := hok.2
    cases hrun.symm.trans hready
  | swtch p rest =>
    rw [hpc] at hat hok
    cases hat
    have hp : parked (t.thread i).crit = true := hok.2.2
    rw [hk, hpark] at hp
    cases hp
  | back p rest =>
    rw [hpc] at hat hok
    cases hat
    exact absurd hrun hok.2
  | idle | scan | choose | wakeup1 =>
    rw [hpc] at hat
    cases hat

theorem Sched.crit_inj {k k' : Crit} (h : Sched t) (hi : (t.thread i).crit = some k)
    (hp : (t.thread p).crit = some k') (hpark : parked (some k) = false)
    (hpark' : parked (some k') = false) (hleave : leaving (some k) = false)
    (hleave' : leaving (some k') = false) : i = p := by
  obtain ⟨c, rest, hpc, hl⟩ := h.holds_of_crit hi hpark hleave
  obtain ⟨c', rest', hpc', hl'⟩ := h.holds_of_crit hp hpark' hleave'
  cases hl.symm.trans hl'
  cases hpc.symm.trans hpc'
  rfl

theorem procOk_of_cpuOk (hpc : (t.cpu c).pc = .away i rest) (hok : CpuOk t c (t.cpu c)) :
    ProcOk t i where
  running := fun _ => ⟨c, by rw [hpc]; rfl⟩
  off := by
    intro hstate
    have hi := hok.2
    rw [hpc] at hi
    have hleave := hi.2
    split at hleave
    · next hk => exact .inr ⟨hk, c, rest, hpc⟩
    · exact absurd hleave hstate

end Read

/-! ## What keeps the invariant -/

section Keep

variable {t t' : Table κ} {c : κ} {i : SlotId} {rest : List SlotId}

/-- A CPU that does not hold the lock does not care what the holder does, as long as
the process it runs is left alone. -/
theorem cpuOk_of_not_holding (h : Sched t) (hno : t.lock ≠ some c) (hno' : t'.lock ≠ some c)
    (hcpu : t'.cpu c = t.cpu c)
    (hsame : ∀ p, (t.cpu c).pc.at = some p → (t.proc p).state = .RUNNING →
      (t'.proc p).state = .RUNNING ∧ (t'.thread p).crit = (t.thread p).crit) :
    CpuOk t' c (t'.cpu c) := by
  rw [hcpu]
  refine ⟨(h.cpu c).1, ?_⟩
  rcases h.not_holding hno with hpc | ⟨p, rest, hpc, hk, hrun⟩
  · rw [hpc]
    exact hno'
  · obtain ⟨hstate, hcrit⟩ := hsame p (by rw [hpc]; rfl) hrun
    rw [hpc]
    dsimp only
    rw [hcrit, hk, hstate]
    exact ⟨⟨fun hl => absurd hl hno', fun hn => absurd rfl hn⟩, rfl⟩

/-- Where the other processes keep their places, the invariant is about the CPUs. -/
theorem procOk_of_same (h : Sched t) (hcpu : t'.cpu = t.cpu) {p : SlotId}
    (hrun : (t'.proc p).state = .RUNNING → (t.proc p).state = .RUNNING)
    (hoff : (t.proc p).state = .RUNNING → (t'.proc p).state = .RUNNING)
    (hcrit : (t'.thread p).crit = (t.thread p).crit ∨ parked (t'.thread p).crit = true) :
    ProcOk t' p where
  running := by
    rw [hcpu]
    exact fun hs => (h.proc p).running (hrun hs)
  off := by
    intro hs
    rcases hcrit with hcrit | hcrit
    · rw [hcrit, hcpu]
      exact (h.proc p).off fun hp => hs (hoff hp)
    · exact .inl hcrit

/-- A step of process `i` on the CPU that holds the lock. -/
theorem Sched.of_locked (h : Sched t) (hpc : (t.cpu c).pc = .away i rest) (hl : t.lock = some c)
    (hcpu : t'.cpu = t.cpu) (hl' : ∀ c', c' ≠ c → t'.lock ≠ some c')
    (hsame : ∀ p, p ≠ i → ((t'.proc p).state = .RUNNING ↔ (t.proc p).state = .RUNNING) ∧
      (t'.thread p).crit = (t.thread p).crit)
    (hi : CpuOk t' c (t.cpu c)) : Sched t' where
  cpu := by
    intro c'
    by_cases hc : c' = c
    · subst hc
      rw [hcpu]
      exact hi
    · -- the others hold no lock, and are at other processes
      refine cpuOk_of_not_holding h (only_holder hl c' hc) (hl' c' hc) (by rw [hcpu]) ?_
      intro p hp hrun
      have hpi : p ≠ i := by
        intro heq
        rw [heq] at hp
        exact hc (h.alone hp (by rw [hpc]; rfl))
      exact ⟨(hsame p hpi).1.mpr hrun, (hsame p hpi).2⟩
  alone := by
    rw [hcpu]
    exact h.alone
  proc := by
    intro p
    by_cases hp : p = i
    · subst hp
      rw [← hcpu] at hpc hi
      exact procOk_of_cpuOk hpc hi
    · obtain ⟨hstate, hcrit⟩ := hsame p hp
      exact procOk_of_same h hcpu hstate.mp hstate.mpr (.inl hcrit)

/-- A slot that no CPU can be at. -/
def Out (s : ProcState) : Prop := s = .UNUSED ∨ s = .EMBRYO

theorem Out.ne_running {s : ProcState} (h : Out s) : s ≠ .RUNNING := by
  rcases h with rfl | rfl <;> decide

/-- A step of process `i` outside of critical sections: it changes only slots that
are out. -/
theorem Sched.of_free (h : Sched t) (hpc : (t.cpu c).pc = .away i rest)
    (hk : (t.thread i).crit = none) (hcpu : t'.cpu = t.cpu)
    (hl : ∀ c', c' ≠ c → (t'.lock = some c' ↔ t.lock = some c'))
    (hsame : ∀ p, p ≠ i → (t'.proc p).state = (t.proc p).state ∧
        (t'.thread p).crit = (t.thread p).crit ∨
      Out (t.proc p).state ∧ Out (t'.proc p).state ∧
        ((t'.thread p).crit = (t.thread p).crit ∨ parked (t'.thread p).crit = true))
    (hi : CpuOk t' c (t.cpu c)) : Sched t' where
  cpu := by
    intro c'
    rw [hcpu]
    by_cases hc : c' = c
    · subst hc
      exact hi
    · have hrun := h.running_of_away hpc (by rw [hk]; rfl)
      have hat : ∀ p, (t.cpu c').pc.at = some p → p ≠ i := by
        intro p hp heq
        rw [heq] at hp
        exact hc (h.alone hp (by rw [hpc]; rfl))
      have hok := h.cpu c'
      refine ⟨hok.1, ?_⟩
      have hok := hok.2
      -- without the lock nothing keeps another CPU from being anywhere
      cases hpc' : (t.cpu c').pc with
      | idle =>
        rw [hpc'] at hok
        exact fun heq => hok ((hl c' hc).mp heq)
      | scan | wakeup1 =>
        rw [hpc'] at hok
        exact (hl c' hc).mpr hok
      | choose p rest | start p rest =>
        rw [hpc'] at hok
        have hready : (t.proc p).state = .RUNNABLE := hok.2
        have hp : p ≠ i := by
          intro heq
          rw [heq, hrun] at hready
          cases hready
        rcases hsame p hp with ⟨hs, _⟩ | ⟨hout, _⟩
        · exact ⟨(hl c' hc).mpr hok.1, hs.trans hready⟩
        · rw [hready] at hout
          rcases hout with hout | hout <;> cases hout
      | swtch p rest =>
        rw [hpc'] at hok
        rcases hsame p (hat p (by rw [hpc']; rfl)) with ⟨hs, hcrit⟩ | ⟨hout, _⟩
        · dsimp only
          rw [hs, hcrit]
          exact ⟨(hl c' hc).mpr hok.1, hok.2⟩
        · exact absurd hok.2.1 hout.ne_running
      | away p rest =>
        rw [hpc'] at hok
        rcases hsame p (hat p (by rw [hpc']; rfl)) with ⟨hs, hcrit⟩ | ⟨hout, _⟩
        · dsimp only
          rw [hs, hcrit, hl c' hc]
          exact hok
        · have hused := h.used_of_away hpc'
          rcases hout with hout | hout
          · exact absurd hout hused.1
          · exact absurd hout hused.2
      | back p rest =>
        rw [hpc'] at hok
        refine ⟨(hl c' hc).mpr hok.1, ?_⟩
        rcases hsame p (hat p (by rw [hpc']; rfl)) with ⟨hs, _⟩ | ⟨_, hout, _⟩
        · rw [hs]
          exact hok.2
        · exact hout.ne_running
  alone := by
    rw [hcpu]
    exact h.alone
  proc := by
    intro p
    by_cases hp : p = i
    · subst hp
      rw [← hcpu] at hpc hi
      exact procOk_of_cpuOk hpc hi
    · rcases hsame p hp with ⟨hs, hcrit⟩ | ⟨hout, hout', hcrit⟩
      · exact procOk_of_same h hcpu (by rw [hs]; exact id) (by rw [hs]; exact id) (.inl hcrit)
      · exact procOk_of_same h hcpu (fun hr => absurd hr hout'.ne_running)
          (fun hr => absurd hr hout.ne_running) hcrit

/-- A step of the scheduler of CPU `c`, while no other CPU holds the lock. -/
theorem Sched.of_sched (h : Sched t) (hpc : ∀ p rest, (t.cpu c).pc ≠ .away p rest)
    (hno : ∀ c', c' ≠ c → t.lock ≠ some c' ∧ t'.lock ≠ some c')
    (hcpu : ∀ c', c' ≠ c → t'.cpu c' = t.cpu c') (hthread : t'.thread = t.thread)
    (hrun : ∀ p, (t.proc p).state = .RUNNING → (t'.proc p).state = .RUNNING)
    (hnew : ∀ p, (t'.proc p).state = .RUNNING →
      (t.proc p).state = .RUNNING ∨ (t'.cpu c).pc.at = some p)
    (hat : ∀ p, (t'.cpu c).pc.at = some p →
      (t.cpu c).pc.at = some p ∨ (t.proc p).state ≠ .RUNNING)
    (hkeep : ∀ p, (t.cpu c).pc.at = some p →
      (t'.cpu c).pc.at = some p ∨ (t.proc p).state ≠ .RUNNING)
    (hok : CpuOk t' c (t'.cpu c)) : Sched t' := by
  -- another CPU is only ever at a process that it runs
  have hothers : ∀ c' p, c' ≠ c → (t'.cpu c').pc.at = some p →
      (t.cpu c').pc.at = some p ∧ (t.proc p).state = .RUNNING := by
    intro c' p hc hp
    rw [hcpu c' hc] at hp
    refine ⟨hp, ?_⟩
    rcases h.not_holding (hno c' hc).1 with hidle | ⟨q, rest, hq, _, hstate⟩
    · rw [hidle] at hp
      cases hp
    · rw [hq] at hp
      cases hp
      exact hstate
  have hunique : ∀ c' p, c' ≠ c → (t'.cpu c').pc.at = some p → (t'.cpu c).pc.at ≠ some p := by
    intro c' p hc hp hcp
    obtain ⟨hp', hstate⟩ := hothers c' p hc hp
    rcases hat p hcp with hcp | hcp
    · exact hc (h.alone hp' hcp)
    · exact hcp hstate
  refine ⟨?_, ?_, ?_⟩
  · intro c'
    by_cases hc : c' = c
    · subst hc
      exact hok
    · refine cpuOk_of_not_holding h (hno c' hc).1 (hno c' hc).2 (hcpu c' hc) ?_
      intro p _ hstate
      exact ⟨hrun p hstate, by rw [hthread]⟩
  · intro c₁ c₂ p h₁ h₂
    by_cases hc₁ : c₁ = c <;> by_cases hc₂ : c₂ = c
    · rw [hc₁, hc₂]
    · rw [hc₁] at h₁
      exact absurd h₁ (hunique c₂ p hc₂ h₂)
    · rw [hc₂] at h₂
      exact absurd h₂ (hunique c₁ p hc₁ h₁)
    · rw [hcpu c₁ hc₁] at h₁
      rw [hcpu c₂ hc₂] at h₂
      exact h.alone h₁ h₂
  · intro p
    refine ⟨fun hstate => ?_, fun hstate => ?_⟩
    · rcases hnew p hstate with hold | hc
      · obtain ⟨c₀, hc₀⟩ := (h.proc p).running hold
        by_cases heq : c₀ = c
        · rw [heq] at hc₀
          exact ⟨c, (hkeep p hc₀).resolve_right fun hne => hne hold⟩
        · exact ⟨c₀, by rw [hcpu c₀ heq]; exact hc₀⟩
      · exact ⟨c, hc⟩
    · rw [hthread]
      refine ((h.proc p).off fun hs => hstate (hrun p hs)).imp_right fun ⟨hk, c₀, rest, hc₀⟩ => ?_
      refine ⟨hk, c₀, rest, ?_⟩
      rw [hcpu c₀ fun heq => hpc p rest (heq ▸ hc₀)]
      exact hc₀

end Keep

/-! ## Steps outside of critical sections -/

section Free

variable {t t' : Table κ} {c : κ} {i : SlotId} {rest : List SlotId}

theorem Sched.cpuOk_free (h : Sched t) (hpc : (t.cpu c).pc = .away i rest)
    (hk : (t.thread i).crit = none) (hl : t'.lock = t.lock) (hk' : (t'.thread i).crit = none)
    (hs : (t'.proc i).state = .RUNNING) : CpuOk t' c (t.cpu c) := by
  have hlock := h.lock_of_away hpc
  refine ⟨(h.cpu c).1, ?_⟩
  rw [hpc]
  simpa [hl, hk', hs, leaving, hk] using hlock

theorem Sched.cpuOk_busy {k : Crit} (h : Sched t) (hpc : (t.cpu c).pc = .away i rest)
    (hl : t'.lock = some c) (hk : (t'.thread i).crit = some k) (hleave : leaving (some k) = false)
    (hs : (t'.proc i).state = .RUNNING) : CpuOk t' c (t.cpu c) := by
  refine ⟨(h.cpu c).1, ?_⟩
  rw [hpc]
  simp [hl, hk, hleave, hs]

/-- A process fills in a slot `j` that no CPU can be at. -/
theorem Sched.fill {j : SlotId} {e : Entry} (h : Sched t) (hpc : (t.cpu c).pc = .away i rest)
    (hk : (t.thread i).crit = none) (hj : Out (t.proc j).state)
    (hproc : t'.proc = update t.proc j e) (he : Out e.state) (hcpu : t'.cpu = t.cpu)
    (hl : t'.lock = t.lock)
    (hcrit : ∀ p, (t'.thread p).crit = (t.thread p).crit ∨
      p = j ∧ parked (t'.thread p).crit = true) : Sched t' := by
  have hrun := h.running_of_away hpc (by rw [hk]; rfl)
  have hij : i ≠ j := by
    intro heq
    rw [← heq] at hj
    exact hj.ne_running hrun
  refine h.of_free hpc hk hcpu (fun _ _ => by rw [hl]) ?_ ?_
  · intro p _
    rw [hproc]
    by_cases hp : p = j
    · subst hp
      rw [update_self]
      exact .inr ⟨hj, he, (hcrit p).imp_right And.right⟩
    · rw [update_of_ne hp]
      exact .inl ⟨rfl, (hcrit p).resolve_right fun hpj => hp hpj.1⟩
  · have hk' := (hcrit i).resolve_right fun hj => hij hj.1
    exact h.cpuOk_free hpc hk hl (hk'.trans hk) (by rw [hproc, update_of_ne hij, hrun])

theorem leaving_of_enters {m : Main} {k : Crit} (h : Enters i m k) : leaving (some k) = false := by
  cases h <;> rfl

theorem sched_runs (h : Sched t) (hpc : (t.cpu c).pc = .away i rest)
    (hk : (t.thread i).crit = none)
    (hclaim : ∀ j, (t.thread i).main.claim = some j → (t.proc j).state = .EMBRYO)
    (hr : Runs t c i (t.thread i).main t') : Sched t' := by
  have hrun := h.running_of_away hpc (by rw [hk]; rfl)
  -- all of `fork` up to its critical section works on a slot that no CPU is at
  generalize hm : (t.thread i).main = m at hr hclaim
  have hout : ∀ {j}, m.claim = some j → Out (t.proc j).state := fun hj => .inr (hclaim _ hj)
  cases hr with
  | enter _ k he hl =>
    refine h.of_free hpc hk rfl ?_ ?_ ?_
    · intro c' hc
      rw [hl]
      exact ⟨fun heq => absurd (Option.some.inj heq).symm hc, by rintro ⟨⟩⟩
    · intro p hp
      simp [hp]
    · exact h.cpuOk_busy hpc rfl (by simp) (leaving_of_enters he) hrun
  | goes _ m' _ =>
    refine h.of_free hpc hk rfl (fun _ _ => Iff.rfl) ?_ (h.cpuOk_free hpc hk rfl ?_ hrun)
    · intro p _
      simp
    · simp [hk]
  | stay => exact h
  | sigkill _ hs =>
    rw [hrun] at hs
    cases hs
  | claim j rest hj => exact h.fill hpc hk (.inl hj) rfl (.inr rfl) rfl rfl (by simp)
  | cas j localPid _ =>
    refine h.of_free hpc hk rfl (fun _ _ => Iff.rfl) ?_ (h.cpuOk_free hpc hk rfl ?_ hrun)
    · intro p _
      simp
    · simp [hk]
  | kalloc j =>
    refine h.fill hpc hk (hout rfl) rfl (hout rfl) rfl rfl ?_
    intro p
    by_cases hp : p = j
    · right
      simp [hp, newborn, parked]
    · left
      simp [hp]
  | giveUp j => exact h.fill hpc hk (hout rfl) rfl (.inl rfl) rfl rfl (by simp)
  | pidStore j | noStack j | copyuvm j | noDir j | freeStack j | setParent j =>
    exact h.fill hpc hk (hout rfl) rfl (hout rfl) rfl rfl (by simp)
  | exec p _ =>
    refine h.of_free hpc hk rfl (fun _ _ => Iff.rfl) ?_ (h.cpuOk_free hpc hk rfl ?_ ?_)
    · intro q hq
      simp [hq]
    · simp [hk]
    · simp [hrun]

end Free

/-! ## Steps in critical sections -/

section Locked

variable {t t' : Table κ} {c : κ} {i : SlotId} {rest : List SlotId}

/-- Process `i` goes on in its critical section, at `k`, after a store that makes no
process RUNNING or not. -/
theorem Sched.next {t₁ : Table κ} {k : Crit} (h : Sched t) (hpc : (t.cpu c).pc = .away i rest)
    (hl : t.lock = some c) (hrun : (t.proc i).state = .RUNNING) (hcpu : t₁.cpu = t.cpu)
    (hl' : t₁.lock = t.lock) (hcrit : ∀ p, (t₁.thread p).crit = (t.thread p).crit)
    (hleave : leaving (some k) = false)
    (hstate : ∀ p, (t₁.proc p).state = .RUNNING ↔ (t.proc p).state = .RUNNING) :
    Sched (t₁.next i k) := by
  refine h.of_locked hpc hl hcpu ?_ ?_ ?_
  · rw [← hl'] at hl
    exact only_holder hl
  · intro p hp
    refine ⟨hstate p, ?_⟩
    rw [← hcrit p]
    simp [hp]
  · exact h.cpuOk_busy hpc (hl'.trans hl) (by simp) hleave ((hstate i).mpr hrun)

/-- Process `i` leaves its critical section. -/
theorem Sched.release (h : Sched t) (hpc : (t.cpu c).pc = .away i rest) (hl : t.lock = some c)
    (hrun : (t.proc i).state = .RUNNING) (hproc : t'.proc = t.proc) (hcpu : t'.cpu = t.cpu)
    (hl' : t'.lock = none) (hcrit : ∀ p, p ≠ i → (t'.thread p).crit = (t.thread p).crit)
    (hk : (t'.thread i).crit = none) : Sched t' := by
  refine h.of_locked hpc hl hcpu ?_ ?_ ⟨(h.cpu c).1, ?_⟩
  · rw [hl']
    rintro _ _ ⟨⟩
  · intro p hp
    rw [hproc]
    exact ⟨Iff.rfl, hcrit p hp⟩
  · rw [hpc]
    simp [hl', hk, hproc, hrun, leaving]

theorem Sched.switch {s : ProcState} {k : Cont} (h : Sched t)
    (hpc : (t.cpu c).pc = .away i rest) (hl : t.lock = some c)
    (hs : s = .RUNNABLE ∨ s = .SLEEPING ∨ s = .ZOMBIE) :
    Sched ((t.put i { t.proc i with state := s }).next i (.sched k)) := by
  refine h.of_locked hpc hl rfl (only_holder hl) ?_ ⟨(h.cpu c).1, ?_⟩
  · intro p hp
    simp [hp]
  · rw [hpc]
    simpa [hl, leaving] using hs

theorem leaving_cont (k : Cont) : leaving (some k.crit) = false := by
  cases k <;> rfl

theorem leaving_of_jumps {k k' : Crit} (h : Jumps t i k k') :
    leaving (some k) = false ∧ leaving (some k') = false := by
  cases h with
  | resumed k => exact ⟨rfl, leaving_cont k⟩
  | woken chan k => exact ⟨rfl, leaving_cont k⟩
  | _ => exact ⟨rfl, rfl⟩

end Locked

/-! ## Every step -/

section Steps

variable [DecidableEq κ] {t t' : Table κ} {c : κ} {i : SlotId} {rest : List SlotId}

/-- The scheduler goes on, and perhaps takes or gives back the lock. -/
theorem Sched.setCpu {x : Cpu} {l : Option κ} (h : Sched t)
    (hpc : ∀ p rest, (t.cpu c).pc ≠ .away p rest)
    (hno : ∀ c', c' ≠ c → t.lock ≠ some c' ∧ l ≠ some c')
    (hat : ∀ p, x.pc.at = some p → (t.cpu c).pc.at = some p ∨ (t.proc p).state ≠ .RUNNING)
    (hkeep : ∀ p, (t.cpu c).pc.at = some p → x.pc.at = some p ∨ (t.proc p).state ≠ .RUNNING)
    (hok : CpuOk { t.setCpu c x with lock := l } c x) :
    Sched { t.setCpu c x with lock := l } := by
  have hx : ({ t.setCpu c x with lock := l } : Table κ).cpu c = x := update_self ..
  refine h.of_sched hpc hno ?_ rfl (fun _ => id) (fun _ => .inl) ?_ ?_ ?_
  · intro c' hc
    exact update_of_ne hc ..
  · rwa [hx]
  · rwa [hx]
  · rwa [hx]

/-- The same under the lock. -/
theorem Sched.setCpu_locked {x : Cpu} (h : Sched t) (hl : t.lock = some c)
    (hpc : ∀ p rest, (t.cpu c).pc ≠ .away p rest)
    (hat : ∀ p, x.pc.at = some p → (t.cpu c).pc.at = some p ∨ (t.proc p).state ≠ .RUNNING)
    (hkeep : ∀ p, (t.cpu c).pc.at = some p → x.pc.at = some p ∨ (t.proc p).state ≠ .RUNNING)
    (hok : CpuOk (t.setCpu c x) c x) : Sched (t.setCpu c x) :=
  h.setCpu (l := t.lock) hpc (fun c' hc => ⟨only_holder hl c' hc, only_holder hl c' hc⟩) hat hkeep
    hok

theorem sched_schedules (h : Sched t) (hs : Schedules t c t') : Sched t' := by
  have hok := (h.cpu c).2
  cases hs with
  | acquire pc hpc hl hpc' =>
    have hat : pc.at = none := by rcases hpc' with rfl | ⟨chan, rfl⟩ <;> rfl
    refine h.setCpu (by simp [hpc]) ?_ (by simp [hat]) (by simp [hpc, CpuPc.at]) ?_
    · intro c' hc
      rw [hl]
      exact ⟨by rintro ⟨⟩, fun heq => hc (Option.some.inj heq).symm⟩
    · have hproc := (h.cpu c).1
      rw [hpc] at hproc
      rcases hpc' with rfl | ⟨chan, rfl⟩ <;> exact ⟨hproc, rfl⟩
  | release hpc hl =>
    have hat : (t.cpu c).pc.at = none := by rcases hpc with hpc | ⟨chan, hpc⟩ <;> rw [hpc] <;> rfl
    refine h.setCpu ?_ ?_ (by simp [CpuPc.at]) (by simp [hat]) ?_
    · rcases hpc with hpc | ⟨chan, hpc⟩ <;> simp [hpc]
    · exact fun c' hc => ⟨only_holder hl c' hc, by rintro ⟨⟩⟩
    · exact ⟨(h.cpu c).1.trans hat, by rintro ⟨⟩⟩
  | skip p rest hpc =>
    rw [hpc] at hok
    refine h.setCpu_locked hok (by simp [hpc]) (by simp [CpuPc.at]) (by simp [hpc, CpuPc.at]) ?_
    exact ⟨by rw [(h.cpu c).1, hpc]; rfl, hok⟩
  | choose p rest hpc hready =>
    rw [hpc] at hok
    refine h.setCpu_locked hok (by simp [hpc]) (by simp [CpuPc.at]) (by simp [hpc, CpuPc.at]) ?_
    exact ⟨by rw [(h.cpu c).1, hpc]; rfl, hok, hready⟩
  | current p rest hpc =>
    rw [hpc] at hok
    have hready : (t.proc p).state = .RUNNABLE := hok.2
    refine h.setCpu_locked hok.1 (by simp [hpc]) ?_ (by simp [hpc, CpuPc.at]) ⟨rfl, hok⟩
    intro q hq
    cases hq
    rw [hready]
    exact .inr (by rintro ⟨⟩)
  | start p rest hpc =>
    rw [hpc] at hok
    have hready : (t.proc p).state = .RUNNABLE := hok.2
    have hparked : parked (t.thread p).crit = true := by
      rcases (h.proc p).off (by rw [hready]; decide) with hk | ⟨hk, c₀, rest₀, hc₀⟩
      · exact hk
      · -- a process about to leave another CPU would hold the lock there
        have hl := (h.lock_of_away hc₀).mpr (by intro hn; simp [hn, leaving] at hk)
        cases hok.1.symm.trans hl
        rw [hpc] at hc₀
        cases hc₀
    have hproc := (h.cpu c).1
    rw [hpc] at hproc
    refine h.of_sched (c := c) (by simp [hpc]) ?_ ?_ rfl ?_ ?_ ?_ ?_ ?_
    · exact fun c' hc => ⟨only_holder hok.1 c' hc, only_holder hok.1 c' hc⟩
    · exact fun c' hc => update_of_ne hc ..
    · intro q hq
      by_cases hqp : q = p <;> simp [hqp, hq]
    · intro q hq
      by_cases hqp : q = p
      · simp [hqp, CpuPc.at]
      · exact .inl (by simpa [hqp] using hq)
    · simp [hpc, CpuPc.at]
    · simp [hpc, CpuPc.at]
    · simp [CpuOk, CpuPc.at, hproc, hok.1, hparked]
  | swtch p rest hpc =>
    rw [hpc] at hok
    obtain ⟨hl, hrun, hparked⟩ := hok
    obtain ⟨hcrit, hleave⟩ := parked_spec hparked
    refine h.setCpu_locked hl (by simp [hpc]) (by simp [hpc, CpuPc.at]) (by simp [hpc, CpuPc.at]) ?_
    refine ⟨by rw [(h.cpu c).1, hpc]; rfl, ⟨fun _ => hcrit, fun _ => hl⟩, ?_⟩
    simp [hleave, hrun]
  | back p rest hpc =>
    rw [hpc] at hok
    refine h.setCpu_locked hok.1 (by simp [hpc]) (by simp [CpuPc.at]) ?_ ⟨rfl, hok.1⟩
    intro q hq
    rw [hpc] at hq
    cases hq
    exact .inr hok.2
  | awake chan j rest hpc =>
    rw [hpc] at hok
    refine h.setCpu_locked hok (by simp [hpc]) (by simp [CpuPc.at]) (by simp [hpc, CpuPc.at]) ?_
    exact ⟨by rw [(h.cpu c).1, hpc]; rfl, hok⟩
  | wake chan j rest hpc hsleep =>
    rw [hpc] at hok
    have hproc := (h.cpu c).1
    rw [hpc] at hproc
    have hstate : ∀ q, ((t.put j { t.proc j with state := .RUNNABLE }).proc q).state = .RUNNING ↔
        (t.proc q).state = .RUNNING := by
      intro q
      by_cases hqj : q = j <;> simp [hqj, hsleep]
    refine h.of_sched (c := c) (by simp [hpc]) ?_ ?_ rfl (fun q => (hstate q).mpr)
      (fun q hq => .inl ((hstate q).mp hq)) ?_ ?_ ?_
    · exact fun c' hc => ⟨only_holder hok c' hc, only_holder hok c' hc⟩
    · exact fun c' hc => update_of_ne hc ..
    · simp [CpuPc.at]
    · simp [hpc, CpuPc.at]
    · simp [CpuOk, CpuPc.at, hproc, hok]

theorem Sched.sched {k : Cont} (h : Sched t) (hpc : (t.cpu c).pc = .away i rest)
    (hl : t.lock = some c) (hstate : (t.proc i).state ≠ .RUNNING) :
    Sched ((t.next i (.resumed k)).setCpu c { t.cpu c with pc := .back i rest }) := by
  -- the CPU stays at the process until the scheduler has looked
  have hat : ∀ c', (update t.cpu c ⟨(t.cpu c).proc, .back i rest⟩ c').pc.at =
      (t.cpu c').pc.at := by
    intro c'
    by_cases hc : c' = c
    · rw [hc, update_self, hpc]
      rfl
    · rw [update_of_ne hc]
  refine ⟨?_, ?_, ?_⟩
  · intro c'
    by_cases hc : c' = c
    · subst hc
      have hproc := (h.cpu c').1
      rw [hpc] at hproc
      simpa [CpuOk, hproc, CpuPc.at] using ⟨hl, hstate⟩
    · refine cpuOk_of_not_holding h (only_holder hl c' hc) (only_holder hl c' hc)
        (update_of_ne hc ..) ?_
      intro p hp hrun
      have hpi : p ≠ i := by
        intro heq
        rw [heq] at hrun
        exact hstate hrun
      simp [hpi, hrun]
  · intro c₁ c₂ p h₁ h₂
    exact h.alone ((hat c₁).symm.trans h₁) ((hat c₂).symm.trans h₂)
  · intro p
    refine ⟨fun hrun => ?_, fun hoff => ?_⟩
    · obtain ⟨c₀, hc₀⟩ := (h.proc p).running hrun
      exact ⟨c₀, (hat c₀).trans hc₀⟩
    · by_cases hp : p = i
      · left
        simp [hp, parked]
      · refine ((h.proc p).off hoff).imp (by simp [hp]) fun ⟨hk, c₀, rest₀, hc₀⟩ => ?_
        have hne : c₀ ≠ c := by
          intro heq
          rw [heq, hpc] at hc₀
          cases hc₀
          exact hp rfl
        exact ⟨by simpa [hp] using hk, c₀, rest₀, by simpa [hne] using hc₀⟩

theorem sched_works {k : Crit} (h : Sched t) (hpc : (t.cpu c).pc = .away i rest)
    (hk : (t.thread i).crit = some k)
    (hclaim : ∀ j, (t.thread i).main.claim = some j → (t.proc j).state = .EMBRYO)
    (hreap : ∀ j r, k = .waitUnused j r → (t.proc j).state = .ZOMBIE)
    (hw : Works t c i rest k t') : Sched t' := by
  have hl : t.lock = some c := (h.lock_of_away hpc).mpr (by rw [hk]; nofun)
  have hrun : leaving (some k) = false → (t.proc i).state = .RUNNING := by
    intro hleave
    exact h.running_of_away hpc (by rw [hk]; exact hleave)
  -- stores to other fields, and to a state that is not RUNNING before and after
  have hput : ∀ {j e}, (e.state = .RUNNING ↔ (t.proc j).state = .RUNNING) → ∀ p,
      (update t.proc j e p).state = .RUNNING ↔ (t.proc p).state = .RUNNING := by
    intro j e he p
    by_cases hp : p = j <;> simp [hp, he]
  cases hw with
  | jumps _ k' hj =>
    obtain ⟨hleave, hleave'⟩ := leaving_of_jumps hj
    exact h.next hpc hl (hrun hleave) rfl rfl (fun _ => rfl) hleave' (fun _ => Iff.rfl)
  | release _ => exact h.release hpc hl (hrun rfl) rfl rfl rfl (by simp +contextual) (by simp)
  | waitReturn r _ => exact h.release hpc hl (hrun rfl) rfl rfl rfl (by simp +contextual) (by simp)
  | yield => exact h.switch hpc hl (.inl rfl)
  | asleep k => exact h.switch hpc hl (.inr (.inl rfl))
  | zombie => exact h.switch hpc hl (.inr (.inr rfl))
  | publish j pid hm =>
    have hj : (t.proc j).state = .EMBRYO := hclaim j (by rw [hm]; rfl)
    exact h.next hpc hl (hrun rfl) rfl rfl (by simp) rfl (hput (by simp [hj]))
  | tidy k =>
    exact h.next hpc hl (hrun rfl) rfl rfl (fun _ => rfl) (leaving_cont k) (hput Iff.rfl)
  | wake chan j js k hj =>
    exact h.next hpc hl (hrun rfl) rfl rfl (fun _ => rfl) rfl (hput (by simp [hj]))
  | waitUnused j r =>
    exact h.next hpc hl (hrun rfl) rfl rfl (fun _ => rfl) rfl (hput (by simp [hreap j r rfl]))
  | sleep | adopt | waitStack | waitDir | waitClear | waitOrphan =>
    exact h.next hpc hl (hrun rfl) rfl rfl (fun _ => rfl) rfl (hput Iff.rfl)
  | sched k _ hstate => exact h.sched hpc hl hstate

end Steps

end Xv6.Ptable
