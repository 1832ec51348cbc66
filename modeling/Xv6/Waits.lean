import Xv6.Console
import Xv6.Pipes
import Xv6.SigDisposition

/- A process in one of the loops that wait for something, and a signal that is to
   end the wait (sysproc.c, pipe.c, console.c, proc.c, trap.c).

   Five system calls wait in a loop of the same shape: while the condition of the
   loop holds, an exit test decides between `return -1` and another `sleep`. Each
   has a test of its own. The loop runs under a lock, so that one turn of it is one
   step here; what others do in between are steps of their own: a tick of the
   clock, a wakeup on the channel, `kill`, a change of what the loop waits for. A
   process that has been woken can be interrupted before it has its lock again, and
   the interrupt ends in a pass of `check_kernel_sigs`.

   1. A pass puts no process to sleep (`pass_awake`).
   2. `kill` does not wake anybody up, and only `sys_sleep` looks at the pending
      signals: a process that sleeps goes on sleeping, and one that is woken
      otherwise gives up its wait in `sys_sleep`, and elsewhere only if it would
      have done so without the signal (`sigkill_wakes_nobody`).
   3. `sys_sleep` takes a pending SIGKILL for a death sentence, whatever its
      handler: without one at its tests it sleeps its time
      (`sleep_takes_its_time`), with one it does not (`ignored_sigkill_ends_sleep`).

   Correspondence (C ↔ Lean):
     the conditions of the loops                ↔ `Wait.loops`
     their exit tests                           ↔ `Wait.exits`
     `ticks++; wakeup(&ticks)` in `trap`        ↔ `Event.tick`
     `wakeup`, for the process at hand          ↔ `Event.wakeup`
     `kill`, for the process at hand            ↔ `Event.kill`
     `trapret` of an interrupt in kernel mode   ↔ `Event.pass`
     one turn of the loop                       ↔ `Event.look` -/
namespace Xv6.Waits
open Bits Transition

/-! ## What a pass leaves -/

section Pass

variable {arrive : Sig → Word} {w : Word} {i : Sig} {p q : Proc}

theorem perform_cases {d : Disposal} (h : perform w i d p = .ok (.next q)) :
    d = .ignore ∧ q = cancelSignal p i ∨ q = handleSigkill p ∨ q = p ∨ q = p.receive w ∨
      q = handleSigcont p ∨ q = handleSigcont (handleSigcont p) := by
  cases d with
  | ignore => cases h; exact .inl ⟨rfl, rfl⟩
  | kill => cases h; exact .inr (.inl rfl)
  | cont => cases h; exact .inr (.inr (.inr (.inr (.inl rfl))))
  | contTwice => cases h; exact .inr (.inr (.inr (.inr (.inr rfl))))
  | frame => cases h
  | stop =>
    rw [perform, handleSigstop_eq] at h
    split at h
    · split at h
      · cases h
      · cases h; exact .inr (.inr (.inr (.inl rfl)))
    · cases h; exact .inr (.inr (.inl rfl))

theorem sigLoop_invariant {I : Proc → Prop} {out : Scan}
    (hround : ∀ {i p q}, I p → perform (arrive i) i (disposal i (p.handlers i)) (saveMask p) = .ok (.next q) →
      I (restoreMask q)) {is : List Sig} (h : sigLoop arrive is p = .ok out) (hI : I p) :
    (∀ q, out = .finished q → I q) ∧ ∀ i q, out = .frame i q → ∃ r, I r ∧ q = saveMask r := by
  induction is generalizing p with
  | nil =>
    cases h
    exact ⟨by rintro q ⟨⟩; exact hI, by rintro i q ⟨⟩⟩
  | cons i rest ih =>
    rw [sigLoop_cons] at h
    split at h
    · cases hperform : perform (arrive i) i (disposal i (p.handlers i)) (saveMask p) with
      | error e =>
        rw [hperform] at h
        cases h
      | ok flow =>
        rw [hperform] at h
        cases flow with
        | frame r =>
          obtain ⟨-, rfl⟩ := perform_frame hperform
          cases h
          exact ⟨by rintro q ⟨⟩, by rintro j q ⟨⟩; exact ⟨p, hI, rfl⟩⟩
        | next r => exact ih h (hround hI hperform)
    · exact ih h hI

theorem finished_of_pass (h : checkKernelSigs arrive (some p) = .ok ⟨some q, none⟩) :
    sigLoop arrive (List.finRange 32) p = .ok (.finished q) := by
  rw [checkKernelSigs_eq] at h
  cases hloop : sigLoop arrive (List.finRange 32) p with
  | error e =>
    rw [hloop] at h
    cases h
  | ok out =>
    rw [hloop] at h
    cases out with
    | finished r =>
      cases h
      rfl
    | frame i r =>
      rw [finish] at h
      split at h <;> cases h

/-- What every round and the building of a frame keep holds after a pass. -/
theorem pass_invariant {I : Proc → Prop}
    (hround : ∀ {i p q}, I p → perform (arrive i) i (disposal i (p.handlers i)) (saveMask p) = .ok (.next q) →
      I (restoreMask q)) (hsave : ∀ {p}, I p → I (saveMask p)) (hframe : ∀ {i p}, I p → I (framed i p)) {f : Option Sig}
    (h : checkKernelSigs arrive (some p) = .ok ⟨some q, f⟩) (hI : I p) : I q := by
  cases f with
  | none => exact (sigLoop_invariant hround (finished_of_pass h) hI).1 q rfl
  | some i =>
    obtain ⟨r, hloop, hpush⟩ := checkKernelSigs_frame h
    obtain ⟨-, -, rfl⟩ := pushFrame_ok_iff.mp hpush
    obtain ⟨r, hr, rfl⟩ := (sigLoop_invariant hround hloop hI).2 i _ rfl
    exact hframe (hsave hr)

theorem handleSigcont_state (p : Proc) : (handleSigcont p).state = p.state := by
  unfold handleSigcont
  split <;> rfl

theorem perform_state {d : Disposal} (h : perform w i d p = .ok (.next q)) :
    q = handleSigkill p ∨ q.state = p.state := by
  rcases perform_cases h with ⟨-, rfl⟩ | rfl | rfl | rfl | rfl | rfl
  · exact .inr rfl
  · exact .inl rfl
  · exact .inr rfl
  · exact .inr rfl
  · exact .inr (handleSigcont_state p)
  · exact .inr ((handleSigcont_state _).trans (handleSigcont_state p))

theorem pass_awake {f : Option Sig} (h : checkKernelSigs arrive (some p) = .ok ⟨some q, f⟩)
    (hp : p.state ≠ .SLEEPING) : q.state ≠ .SLEEPING := by
  refine pass_invariant (I := fun p => p.state ≠ .SLEEPING) (fun {i p q} hp hround => ?_) id id h hp
  rcases perform_state hround with rfl | hstate
  · show (if p.state = .SLEEPING then ProcState.RUNNABLE else p.state) ≠ .SLEEPING
    rw [if_neg hp]
    exact hp
  · show q.state ≠ .SLEEPING
    rw [hstate]
    exact hp

end Pass

/-! ## The loops -/

structure Shared where
  ticks : Word
  pipe : Pipes.Pipe
  input : Console.Input
  children : List ProcState

inductive Wait where
  | sysSleep (ticks0 n : Word)
  | pipewrite
  | piperead
  | consoleread
  | wait
  deriving DecidableEq

/-- The condition of the loop. `wait` goes on until it has found a zombie. -/
def Wait.loops (x : Shared) : Wait → Bool
  | .sysSleep ticks0 n => decide (x.ticks - ticks0 < n)
  | .pipewrite => decide (x.pipe.nwrite = x.pipe.nread + BitVec.ofNat 32 Pipes.PIPESIZE)
  | .piperead => decide (x.pipe.nread = x.pipe.nwrite) && x.pipe.writeopen
  | .consoleread => decide (x.input.r = x.input.w)
  | .wait => !x.children.contains .ZOMBIE

/-- The test in the loop that leads to `return -1`. -/
def Wait.exits (x : Shared) (p : Proc) : Wait → Bool
  | .sysSleep _ _ => p.killed || (hasSignal p SIGKILL && !isBlocked (some p) SIGKILL)
  | .pipewrite => !x.pipe.readopen || p.killed
  | .piperead | .consoleread => p.killed
  | .wait => x.children.isEmpty || p.killed

/-- How the loop is left: its condition is over (`sys_sleep` then returns 0), or by
`return -1`. -/
inductive Outcome where
  | over
  | failed
  deriving DecidableEq

structure Waiter where
  p : Proc
  call : Wait
  x : Shared
  elapsed : Nat
  result : Option Outcome

inductive Event where
  | tick
  | wakeup
  | kill (pid signum : Word)
  | change (x : Shared)
  | pass (arrive : Sig → Word)
  | look

/-- `wakeup1` on the channel the process sleeps on. -/
def wake (p : Proc) : Proc := { p with state := if p.state = .SLEEPING then .RUNNABLE else p.state }

/-- The body of the loop in `kill`, for one slot. -/
def killSlot (pid signum : Word) (p : Proc) : Proc :=
  match legalSignum signum with
  | some s => if p.pid = pid then p.receive (bit s) else p
  | none => p

def turn (s : Waiter) : Waiter :=
  if s.call.loops s.x then
    if s.call.exits s.x s.p then { s with result := some .failed }
    else { s with p := { s.p with state := .SLEEPING } }
  else { s with result := some .over }

/-- The process is in the call, and it does not sleep. -/
def Waiter.Active (s : Waiter) : Prop := s.result = none ∧ s.p.state ≠ .SLEEPING

instance (s : Waiter) : Decidable s.Active := inferInstanceAs (Decidable (_ ∧ _))

def step (s : Waiter) : Event → Option Waiter
  | .tick =>
    some { s with
      x := { s.x with ticks := s.x.ticks + 1 }
      elapsed := if s.result = none then s.elapsed + 1 else s.elapsed
      p := match s.call with
        | .sysSleep _ _ => wake s.p
        | _ => s.p }
  | .wakeup => some { s with p := wake s.p }
  | .kill pid signum => some { s with p := killSlot pid signum s.p }
  | .change x => some { s with x := { x with ticks := s.x.ticks } }
  | .pass arrive =>
    if s.Active then
      match checkKernelSigs arrive (some s.p) with
      | .ok ⟨some p, _⟩ => some { s with p }
      | _ => none
    else none
  | .look => if s.Active then some (turn s) else none

/-- The process is about to run the loop for the first time. -/
def sysSleep (p : Proc) (n : Word) (x : Shared) : Waiter :=
  ⟨{ p with state := .RUNNING }, .sysSleep x.ticks n, x, 0, none⟩

/-! ## What a step does -/

theorem wake_awake (p : Proc) : (wake p).state ≠ .SLEEPING := by
  unfold wake
  by_cases hp : p.state = .SLEEPING
  · simp [hp]
  · simp [hp]

theorem killSlot_eq (pid signum : Word) (p : Proc) : ∃ w, killSlot pid signum p = p.receive w := by
  unfold killSlot
  split
  · split
    · exact ⟨_, rfl⟩
    · exact ⟨0, p.receive_zero.symm⟩
  · exact ⟨0, p.receive_zero.symm⟩

/-! ## SIGKILL and the waiting calls -/

/-- The exit test of a process that is woken up after a SIGKILL: but for `sys_sleep` the signal makes no
difference. -/
theorem exits_after_kill {s : Waiter} (hmask : isBlocked (some s.p) SIGKILL = false) :
    s.call.exits s.x (wake (s.p.receive (bit SIGKILL))) = true ↔
      s.call.exits s.x s.p = true ∨ ∃ ticks0 n, s.call = .sysSleep ticks0 n := by
  cases hcall : s.call with
  | sysSleep ticks0 n =>
    have hpending : hasSignal (wake (s.p.receive (bit SIGKILL))) SIGKILL = true := by
      rw [hasSignal_eq]
      show has (s.p.pending ||| bit SIGKILL) SIGKILL = true
      simp
    have hthrough : isBlocked (some (wake (s.p.receive (bit SIGKILL)))) SIGKILL = false := hmask
    simp [Wait.exits, hpending, hthrough]
  | pipewrite | piperead | consoleread | wait => simp [Wait.exits, wake, Proc.receive]

/-- SIGKILL is sent to a process that is asleep in one of the calls: it is still asleep afterwards. If something
else wakes it up, it leaves the call exactly if it is in `sys_sleep` or would have left it without the signal. -/
theorem sigkill_wakes_nobody {s s₁ : Waiter} (hcall : s.result = none) (hasleep : s.p.state = .SLEEPING)
    (hmask : isBlocked (some s.p) SIGKILL = false)
    (hkill : step s (.kill s.p.pid (sigWord SIGKILL)) = some s₁) :
    s₁.p.state = .SLEEPING ∧
      ∀ s₂, step s₁ .wakeup = some s₂ → s₂.call.loops s₂.x = true →
        (step s₂ .look = some { s₂ with result := some .failed } ↔
          s.call.exits s.x s.p = true ∨ ∃ ticks0 n, s.call = .sysSleep ticks0 n) := by
  have hreceived : s₁ = { s with p := s.p.receive (bit SIGKILL) } := by
    cases hkill
    have hlegal : legalSignum (sigWord SIGKILL) = some SIGKILL := by decide
    simp only [killSlot, hlegal, if_pos]
  subst hreceived
  refine ⟨hasleep, fun s₂ hwake hloops => ?_⟩
  cases hwake
  have hactive : Waiter.Active { s with p := wake (s.p.receive (bit SIGKILL)) } := ⟨hcall, wake_awake _⟩
  rw [step, if_pos hactive, turn, if_pos hloops, ← exits_after_kill hmask]
  split
  · next hexits => exact iff_of_true rfl hexits
  · next hstays =>
    refine iff_of_false (fun heq => ?_) hstays
    have hresult := congrArg Waiter.result (Option.some.inj heq)
    dsimp only at hresult
    rw [hcall] at hresult
    cases hresult

/-- A system at rest: an empty pipe with both ends open, an empty console buffer, one child that runs. -/
def idle : Shared where
  ticks := 0
  pipe := ⟨fun _ => 0, 0, 0, true, true⟩
  input := ⟨fun _ => 0, 0, 0, 0⟩
  children := [.RUNNING]

/-- A process in a waiting call, with pid 1 and every disposition the default. -/
def waiting (state : ProcState) (call : Wait) : Waiter where
  p := { running 0 0xffffffff with state }
  call
  x := match call with
    | .pipewrite => { idle with pipe := ⟨fun _ => 0, 0, 512, true, true⟩ }
    | _ => idle
  elapsed := 0
  result := none

/-- A reader of an empty pipe sleeps through the SIGKILL, and goes back to sleep when it is woken up; one in
`sys_sleep(5)` leaves the call when it is woken up. -/
theorem sigkill_wakes_nobody_reading :
    (∃ s₁ s₂, step (waiting .SLEEPING .piperead) (.kill 1 9) = some s₁ ∧ s₁.p.state = .SLEEPING ∧
      step s₁ .wakeup = some s₂ ∧ step s₂ .look ≠ some { s₂ with result := some .failed }) ∧
    ∃ s₁ s₂, step (waiting .SLEEPING (.sysSleep 0 5)) (.kill 1 9) = some s₁ ∧ s₁.p.state = .SLEEPING ∧
      step s₁ .wakeup = some s₂ ∧ step s₂ .look = some { s₂ with result := some .failed } := by
  have hread := sigkill_wakes_nobody (s := waiting .SLEEPING .piperead) rfl rfl (by decide) rfl
  have hsleep := sigkill_wakes_nobody (s := waiting .SLEEPING (.sysSleep 0 5)) rfl rfl (by decide) rfl
  refine ⟨⟨_, _, rfl, hread.1, rfl, fun hlook => ?_⟩, _, _, rfl, hsleep.1, rfl,
    (hsleep.2 _ rfl (by decide)).mpr (.inr ⟨0, 5, rfl⟩)⟩
  rcases (hread.2 _ rfl (by decide)).mp hlook with hexits | ⟨ticks0, n, hcall⟩
  · exact absurd hexits (by decide)
  · cases hcall

/-- SIGKILL is sent to a process that sleeps. It goes on sleeping in each of the five calls, and in all but
`sys_sleep` it goes to sleep again when it is woken up. -/
theorem sigkill_leaves_asleep :
    (∀ call ∈ [Wait.sysSleep 0 5, .pipewrite, .piperead, .consoleread, .wait],
      (step (waiting .SLEEPING call) (.kill 1 9)).map (fun s => s.p.state) = some .SLEEPING) ∧
    ∀ call ∈ [Wait.pipewrite, .piperead, .consoleread, .wait],
      (run step (waiting .SLEEPING call) [.kill 1 9, .wakeup, .look]).map (fun s => (s.p.state, s.result)) =
        some (.SLEEPING, none) := by
  decide +kernel

/-! ## How long `sys_sleep` sleeps -/

/-- The process is not killed, and no SIGKILL is pending and let through, when the exit test is made. -/
def Undisturbed (s : Waiter) : Event → Prop
  | .look => s.call.loops s.x = true → s.p.killed = false ∧ ¬Deliverable s.p SIGKILL
  | _ => True

instance (s : Waiter) (l : Event) : Decidable (Undisturbed s l) := by
  cases l <;> unfold Undisturbed <;> infer_instance

/-- The books of a call of `sys_sleep(n)` that began at `ticks0`. -/
structure Sleeps (ticks0 n : Word) (s : Waiter) : Prop where
  call : s.call = .sysSleep ticks0 n
  clock : s.result = none → s.x.ticks = ticks0 + BitVec.ofNat 32 s.elapsed
  asleep : s.result = none → s.p.state = .SLEEPING → s.elapsed % 2 ^ 32 < n.toNat
  returned : ∀ o, s.result = some o → o = .over ∧ n.toNat ≤ s.elapsed

section Sleeps

variable {ticks0 n : Word} {s s' : Waiter} {l : Event}

theorem Sleeps.loops (h : Sleeps ticks0 n s) (hresult : s.result = none) :
    s.call.loops s.x = decide (s.elapsed % 2 ^ 32 < n.toNat) := by
  have hdiff : s.x.ticks - ticks0 = BitVec.ofNat 32 s.elapsed := by
    rw [h.clock hresult, BitVec.add_comm, BitVec.add_sub_cancel]
  simp only [h.call, Wait.loops, hdiff, BitVec.lt_def, BitVec.toNat_ofNat]

theorem Sleeps.look (h : Sleeps ticks0 n s) (ha : s.Active) (hu : Undisturbed s .look) : Sleeps ticks0 n (turn s) := by
  have hloops := h.loops ha.1
  unfold turn
  by_cases htime : s.elapsed % 2 ^ 32 < n.toNat
  · have hon : s.call.loops s.x = true := hloops.trans (decide_eq_true htime)
    obtain ⟨hkilled, hsig⟩ := hu hon
    have hstays : s.call.exits s.x s.p = false := by
      have hguard := (guard_eq_true_iff s.p SIGKILL).mpr hsig
      rw [h.call, Wait.exits, hkilled, Bool.false_or]
      exact (Bool.not_eq_true' _).mp hguard
    rw [if_pos hon, if_neg (by rw [hstays]; nofun)]
    exact ⟨h.call, h.clock, fun _ _ => htime, h.returned⟩
  · have hoff : s.call.loops s.x = false := hloops.trans (decide_eq_false htime)
    have hlong : n.toNat ≤ s.elapsed := (Nat.not_lt.mp htime).trans (Nat.mod_le ..)
    rw [if_neg (by rw [hoff]; nofun)]
    refine ⟨h.call, nofun, nofun, fun o ho => ?_⟩
    cases ho
    exact ⟨rfl, hlong⟩

theorem sleeps_step (h : Sleeps ticks0 n s) (hu : Undisturbed s l) (hs : step s l = some s') : Sleeps ticks0 n s' := by
  cases l with
  | tick =>
    cases hs
    have hawake : (match s.call with | .sysSleep _ _ => wake s.p | _ => s.p).state ≠ .SLEEPING := by
      rw [h.call]
      exact wake_awake s.p
    refine ⟨h.call, fun hresult => ?_, fun _ hsleeping => absurd hsleeping hawake, fun o ho => ?_⟩
    · dsimp only at hresult ⊢
      rw [if_pos hresult, h.clock hresult, BitVec.add_assoc, BitVec.ofNat_add]
      rfl
    · dsimp only at ho ⊢
      rw [if_neg (by rw [ho]; nofun)]
      exact h.returned o ho
  | wakeup =>
    cases hs
    exact ⟨h.call, h.clock, fun _ hsleeping => absurd hsleeping (wake_awake s.p), h.returned⟩
  | kill pid signum =>
    cases hs
    obtain ⟨w, hw⟩ := killSlot_eq pid signum s.p
    refine ⟨h.call, h.clock, fun hresult hsleeping => h.asleep hresult ?_, h.returned⟩
    dsimp only at hsleeping
    rw [hw] at hsleeping
    exact hsleeping
  | change x =>
    cases hs
    exact ⟨h.call, h.clock, h.asleep, h.returned⟩
  | pass arrive =>
    rw [step] at hs
    split at hs
    · next hactive =>
      split at hs
      · next q f hpass =>
        cases hs
        exact ⟨h.call, h.clock, fun _ hsleeping => absurd hsleeping (pass_awake hpass hactive.2), h.returned⟩
      · cases hs
    · cases hs
  | look =>
    rw [step] at hs
    split at hs
    · next hactive =>
      cases hs
      exact h.look hactive hu
    · cases hs

end Sleeps

/-- The call has returned 0 after `n` ticks at least, or is under way; and after `n` ticks, before the clock has
come round, the process does not sleep and its next look at the clock ends the call. -/
structure OnTime (n : Word) (s : Waiter) : Prop where
  returned : ∀ o, s.result = some o → o = .over ∧ n.toInt ≤ s.elapsed
  due : s.result = none → n.toInt ≤ s.elapsed → s.elapsed < 2 ^ 32 →
    s.p.state ≠ .SLEEPING ∧ step s .look = some { s with result := some .over }

theorem Sleeps.onTime {ticks0 n : Word} {s : Waiter} (h : Sleeps ticks0 n s) (hn : 0 ≤ n.toInt) : OnTime n s := by
  have hint : n.toInt = n.toNat := by
    have hcond := BitVec.toInt_eq_toNat_cond n
    have hlt := n.isLt
    split at hcond <;> omega
  constructor
  · intro o ho
    obtain ⟨hover, htime⟩ := h.returned o ho
    exact ⟨hover, by omega⟩
  · intro hresult htime hwrap
    have hlong : n.toNat ≤ s.elapsed % 2 ^ 32 := by
      rw [Nat.mod_eq_of_lt hwrap]
      omega
    have hawake : s.p.state ≠ .SLEEPING := fun hsleeping =>
      absurd (h.asleep hresult hsleeping) (Nat.not_lt.mpr hlong)
    have hactive : s.Active := ⟨hresult, hawake⟩
    have hoff : s.call.loops s.x = false := (h.loops hresult).trans (decide_eq_false (Nat.not_lt.mpr hlong))
    refine ⟨hawake, ?_⟩
    rw [step, if_pos hactive, turn, if_neg (by rw [hoff]; nofun)]

theorem sleeps_start (p : Proc) (x : Shared) (n : Word) : Sleeps x.ticks n (sysSleep p n x) where
  call := rfl
  clock := fun _ => by simp [sysSleep]
  asleep := nofun
  returned := nofun

/-- `sys_sleep(n)`, called at any time and with any mask, handlers and pending signals: unless a SIGKILL is
pending and let through when its exit test is made, it sleeps its time. -/
theorem sleep_takes_its_time (p : Proc) (x : Shared) {n : Word} (hn : 0 ≤ n.toInt) (ls : List Event)
    (hu : Along step Undisturbed (sysSleep p n x) ls) : Always step (OnTime n) (sysSleep p n x) ls := by
  refine (always_of_invariant (Sleeps x.ticks n) (D := fun _ _ => True) (fun s l s' h hl hs => sleeps_step h hl hs)
    (fun s h => h.onTime hn) (fun _ _ _ _ => trivial) (sleeps_start p x n) hu).1

def deaf : Proc := (running 0 0).withHandler SIGKILL SIG_IGN

/-- A sleep of two ticks that begins just before the clock wraps around. -/
def twoTicks : List Event := [.look, .kill 1 9, .tick, .look, .tick, .look]

theorem sleep_takes_its_time_wrapping :
    Always step (OnTime 2) (sysSleep deaf 2 { idle with ticks := 0xffffffff }) twoTicks ∧
      (run step (sysSleep deaf 2 { idle with ticks := 0xffffffff }) twoTicks).map (fun s => (s.elapsed, s.result)) =
        some (2, some .over) := by
  refine ⟨sleep_takes_its_time _ _ (by decide) _ ?_, ?_⟩
  · decide +kernel
  · decide +kernel

/-- A process that ignores SIGKILL sleeps for 100 ticks. It is sent a SIGKILL, and the next tick ends the
sleep. -/
theorem ignored_sigkill_ends_sleep :
    (run step (sysSleep ((running 0 0xffffffff).withHandler SIGKILL SIG_IGN) 100 idle)
        [.look, .kill 1 9, .tick, .look]).map (fun s => (s.p.killed, s.elapsed, s.result)) =
      some (false, 1, some .failed) := by
  decide +kernel

end Xv6.Waits
