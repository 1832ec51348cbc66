import Mathlib
import Xv6.Signal
import Xv6.Transition

/- `sleep` and `wakeup` (proc.c): no wakeup is lost.

   Any number of processes run on any number of CPUs, with interrupt handlers
   beside them, and interleave step by step: a step is one `acquire`, one
   `release`, or one access to the process table. What the callers of `sleep` and
   `wakeup` do in between is open: they take and release locks, test and change
   the condition, and call `sleep`, `wakeup`, `wakeup1` and `yield` as they like.

   One channel `chan₀`, one lock `lk` and one condition `cond` are watched. Two
   marks, which no code looks at, record what the callers have done with them:
   `found a`, that `a` holds `lk` and has found the condition false since it took
   it; `owes a`, that `a` has made the condition true and not run through
   `wakeup1(chan₀)` since. `Obeys` is what the callers promise: the condition
   changes under `lk` only, and who sleeps on `chan₀` has found it false and sleeps
   with `lk`. `lk` may be `ptable.lock` or another lock.

   1. The functions, step by step (`goStep`, `actStep`, `step`).
   2. The invariant (`Watch`) and that a step keeps it (`watch_step`). At its core:
      who is in the loop of `wakeup1(chan₀)` holds `ptable.lock`, so nobody falls
      asleep behind its back, and who falls asleep has `ptable.lock` before it lets
      go of `lk`, so the condition is still false when it can no longer be missed.
   3. `no_lost_wakeup`: in no state of such a run does a process sleep on `chan₀`
      with the condition true and no wakeup owed.

   What is left out: the fields of `struct proc` these functions do not touch, and
   a thread that has paniced, which takes no more steps.

   Correspondence (C ↔ Lean):
     `acquire`, `release` of any lock         ↔ `Action.acquire`, `Action.release`
     `sleep`                                  ↔ `Action.sleep`, `Pc.sleepAcquire` .. `Pc.tidy`,
                                                `Pc.sleepReturn`, `Idle.reacquire`
     `wakeup`, `wakeup1`                      ↔ `Action.wakeup`, `Action.wakeup1`, `Pc.wakeup1`
     `yield`, `sched`, `scheduler`            ↔ `Action.yield`, `Pc.sched`, `step` -/
namespace Xv6.SleepWakeup
open Function Transition

/-- A spin lock: `ptable.lock` or any other. -/
inductive Lock where
  | ptable
  | other (k : Nat)
  deriving DecidableEq

abbrev Chan := Nat

/-- Code that runs: a process, or an interrupt handler. -/
inductive Agent (n : Nat) where
  | proc (i : Fin n)
  | intr (k : Nat)
  deriving DecidableEq

/-- Who holds a lock: an agent, or the scheduler of a CPU. -/
inductive Owner (n : Nat) (κ : Type) where
  | agent (a : Agent n)
  | sched (c : κ)
  deriving DecidableEq

/-- Where the code can be interrupted, if its caller holds no lock. -/
inductive Idle where
  | run
  | wakeup (chan : Chan)
  | reacquire (l : Lock)
  deriving DecidableEq

/-- Where `sched` returns to. -/
inductive Resume where
  | tidy (l : Lock)
  /-- In `yield` or `forkret`, at `release(&ptable.lock)`. -/
  | yielded (k : Idle)
  deriving DecidableEq

inductive Pc (n : Nat) where
  | idle (k : Idle)
  /-- In `sleep`: at `acquire(&ptable.lock)`, at `release(lk)`, at `p->chan = chan`, at
  `p->state = SLEEPING`. -/
  | sleepAcquire (chan : Chan) (l : Lock)
  | sleepRelease (chan : Chan) (l : Lock)
  | setChan (chan : Chan) (l : Lock)
  | setSleeping (l : Lock)
  | setRunnable (k : Idle)
  /-- In `sched`: about to switch to the scheduler, and switched away. -/
  | sched (k : Resume)
  | parked (k : Resume)
  /-- Back in the function that called `sched`. -/
  | resumed (k : Resume)
  | sleepReturn (l : Lock)
  /-- In the loop of `wakeup1`; with `unlock` it was called by `wakeup`. -/
  | wakeup1 (chan : Chan) (rest : List (Fin n)) (unlock : Bool)
  | wakeupReturn
  deriving DecidableEq

/-- The code runs under `ptable.lock`, which it took itself or was handed. -/
def Pc.InTable {n : Nat} : Pc n → Prop
  | .sleepRelease .. | .setChan .. | .setSleeping _ | .setRunnable _ | .sched _ | .resumed _
  | .sleepReturn _ | .wakeup1 .. | .wakeupReturn => True
  | .idle _ | .sleepAcquire .. | .parked _ => False

structure Threads (n : Nat) (κ : Type) where
  state : Fin n → ProcState
  chan : Fin n → Option Chan
  pc : Agent n → Pc n
  cpu : κ → Option (Fin n)
  holder : Lock → Option (Owner n κ)
  /-- How many locks an agent holds; with interrupts off, it is what its CPU counts. -/
  ncli : Agent n → Nat
  cond : Bool
  found : Agent n → Bool
  owes : Agent n → Bool

inductive Action where
  | go
  | acquire (l : Lock)
  | release (l : Lock)
  | test
  | setCond (b : Bool)
  | sleep (chan : Chan) (l : Lock)
  | wakeup (chan : Chan)
  | wakeup1 (chan : Chan)
  | yield

/-- Who moves: the process on a CPU, an interrupt handler, or the scheduler of a CPU,
which takes the lock, gives it back, or switches to a process. -/
inductive Label (n : Nat) (κ : Type) where
  | proc (c : κ) (x : Action)
  | intr (k : Nat) (x : Action)
  | schedAcquire (c : κ)
  | schedRelease (c : κ)
  | swtch (c : κ) (i : Fin n)

variable {n : Nat} {κ : Type}

namespace Threads

@[simp] def goto (s : Threads n κ) (a : Agent n) (k : Pc n) : Threads n κ :=
  { s with pc := update s.pc a k }

@[simp] def setHolder (s : Threads n κ) (l : Lock) (o : Option (Owner n κ)) : Threads n κ :=
  { s with holder := update s.holder l o }

@[simp] def setState (s : Threads n κ) (i : Fin n) (x : ProcState) : Threads n κ :=
  { s with state := update s.state i x }

@[simp] def setChan (s : Threads n κ) (i : Fin n) (x : Option Chan) : Threads n κ :=
  { s with chan := update s.chan i x }

@[simp] def setFound (s : Threads n κ) (a : Agent n) (b : Bool) : Threads n κ :=
  { s with found := update s.found a b }

@[simp] def setOwes (s : Threads n κ) (a : Agent n) (b : Bool) : Threads n κ :=
  { s with owes := update s.owes a b }

@[simp] def setNcli (s : Threads n κ) (a : Agent n) (k : Nat) : Threads n κ :=
  { s with ncli := update s.ncli a k }

/-- `acquire(l)`, if the lock is free. -/
def acquire (s : Threads n κ) (a : Agent n) (l : Lock) : Option (Threads n κ) :=
  if s.holder l = none then
    some ((s.setHolder l (some (.agent a))).setNcli a (s.ncli a + 1))
  else none

end Threads

open Threads

section

variable [DecidableEq κ] (chan₀ : Chan) (lk : Lock)

/-- `release(l)`, if the agent holds it. Letting go of `lk` ends what it has found. -/
def Threads.release (s : Threads n κ) (a : Agent n) (l : Lock) : Option (Threads n κ) :=
  if s.holder l = some (.agent a) then
    some (((s.setHolder l none).setNcli a (s.ncli a - 1)).setFound a (s.found a && l ≠ lk))
  else none

/-- The next step of the function the agent is in. -/
def goStep (s : Threads n κ) (c : Option κ) (a : Agent n) : Pc n → Option (Threads n κ)
  | .idle .run | .parked _ => none
  | .idle (.wakeup chan) =>
    (s.acquire a .ptable).map (·.goto a (.wakeup1 chan (List.finRange n) true))
  | .idle (.reacquire l) => (s.acquire a l).map (·.goto a (.idle .run))
  | .sleepAcquire chan l => (s.acquire a .ptable).map (·.goto a (.sleepRelease chan l))
  | .sleepRelease chan l => (s.release lk a l).map (·.goto a (.setChan chan l))
  | .setChan chan l =>
    match a with
    | .proc i => some ((s.setChan i (some chan)).goto a (.setSleeping l))
    | .intr _ => none
  | .setSleeping l =>
    match a with
    | .proc i => some ((s.setState i .SLEEPING).goto a (.sched (.tidy l)))
    | .intr _ => none
  | .setRunnable k =>
    match a with
    | .proc i => some ((s.setState i .RUNNABLE).goto a (.sched (.yielded k)))
    | .intr _ => none
  | .sched k =>
    match a, c with
    | .proc i, some c =>
      -- the three panics of sched; the lock goes to the scheduler of this CPU
      if s.holder .ptable = some (.agent a) ∧ s.ncli a = 1 ∧ s.state i ≠ .RUNNING then
        some { ((s.setHolder .ptable (some (.sched c))).setFound a
          (s.found a && lk ≠ .ptable)).goto a (.parked k) with cpu := update s.cpu c none }
      else none
    | _, _ => none
  | .resumed (.tidy l) =>
    match a with
    | .proc i =>
      some ((s.setChan i none).goto a (if l = .ptable then .idle .run else .sleepReturn l))
    | .intr _ => none
  | .resumed (.yielded k) => (s.release lk a .ptable).map (·.goto a (.idle k))
  | .sleepReturn l => (s.release lk a .ptable).map (·.goto a (.idle (.reacquire l)))
  | .wakeup1 chan [] unlock =>
    some ((s.setOwes a (s.owes a && chan ≠ chan₀)).goto a
      (if unlock then .wakeupReturn else .idle .run))
  | .wakeup1 chan (j :: js) unlock =>
    if s.state j = .SLEEPING ∧ s.chan j = some chan then
      some ((s.setState j .RUNNABLE).goto a (.wakeup1 chan js unlock))
    else some (s.goto a (.wakeup1 chan js unlock))
  | .wakeupReturn => (s.release lk a .ptable).map (·.goto a (.idle .run))

/-- What the agent does on its own account. -/
def actStep (s : Threads n κ) (a : Agent n) : Action → Option (Threads n κ)
  | .go => none
  | .acquire l => s.acquire a l
  | .release l => s.release lk a l
  | .test =>
    if s.holder lk = some (.agent a) ∧ s.cond = false then some (s.setFound a true) else some s
  | .setCond b =>
    some { (s.setFound a false).setOwes a (s.owes a || (!s.cond && b)) with cond := b }
  | .sleep chan l =>
    -- without lk, release or sched panics
    match a with
    | .proc _ =>
      if s.holder l = some (.agent a) then
        some (s.goto a (if l = .ptable then .setChan chan l else .sleepAcquire chan l))
      else none
    | .intr _ => none
  | .wakeup chan => some (s.goto a (.idle (.wakeup chan)))
  | .wakeup1 chan =>
    if s.holder .ptable = some (.agent a) then
      some (s.goto a (.wakeup1 chan (List.finRange n) false))
    else none
  | .yield => none

/-- An agent moves: in the function it is in, or on its own account. A process can be
interrupted, and yields, wherever interrupts are on. -/
def agentStep (s : Threads n κ) (c : Option κ) (a : Agent n) (x : Action) : Option (Threads n κ) :=
  match s.pc a, x with
  | k, .go => goStep chan₀ lk s c a k
  | .idle k, .yield =>
    match a with
    | .proc _ => (s.acquire a .ptable).map (·.goto a (.setRunnable k))
    | .intr _ => none
  | .idle .run, x => actStep lk s a x
  | _, _ => none

def step (s : Threads n κ) : Label n κ → Option (Threads n κ)
  | .proc c x =>
    match s.cpu c with
    | some i => agentStep chan₀ lk s (some c) (.proc i) x
    | none => none
  | .intr k x => agentStep chan₀ lk s none (.intr k) x
  | .schedAcquire c =>
    if s.holder .ptable = none ∧ s.cpu c = none then
      some (s.setHolder .ptable (some (.sched c)))
    else none
  | .schedRelease c =>
    if s.holder .ptable = some (.sched c) then some (s.setHolder .ptable none) else none
  | .swtch c i =>
    match s.pc (.proc i) with
    | .parked k =>
      if s.holder .ptable = some (.sched c) ∧ s.state i = .RUNNABLE then
        some { ((s.setState i .RUNNING).setHolder .ptable (some (.agent (.proc i)))).goto (.proc i)
          (.resumed k) with cpu := update s.cpu c (some i) }
      else none
    | _ => none

/-- What the callers promise about the condition: it changes under `lk` only, and who
sleeps on `chan₀` sleeps with `lk`, under which it has found the condition false. -/
def ObeysAct (s : Threads n κ) (a : Agent n) : Action → Prop
  | .setCond b => b ≠ s.cond → s.holder lk = some (.agent a)
  | .sleep chan l => chan = chan₀ → l = lk ∧ s.found a = true
  | _ => True

def Obeys (s : Threads n κ) : Label n κ → Prop
  | .proc c x => ∀ i, s.cpu c = some i → ObeysAct chan₀ lk s (.proc i) x
  | .intr k x => ObeysAct chan₀ lk s (.intr k) x
  | _ => True

instance (s : Threads n κ) (a : Agent n) (x : Action) : Decidable (ObeysAct chan₀ lk s a x) :=
  match x with
  | .setCond b => inferInstanceAs (Decidable (b ≠ s.cond → s.holder lk = some (.agent a)))
  | .sleep chan l => inferInstanceAs (Decidable (chan = chan₀ → l = lk ∧ s.found a = true))
  | .go | .acquire _ | .release _ | .test | .wakeup _ | .wakeup1 _ | .yield => .isTrue trivial

instance (s : Threads n κ) (x : Label n κ) : Decidable (Obeys chan₀ lk s x) :=
  match x with
  | .proc c x => inferInstanceAs (Decidable (∀ i, s.cpu c = some i → ObeysAct chan₀ lk s (.proc i) x))
  | .intr k x => inferInstanceAs (Decidable (ObeysAct chan₀ lk s (.intr k) x))
  | .schedAcquire _ | .schedRelease _ | .swtch .. => .isTrue trivial

end

/-- The processes wait for the scheduler, in `forkret`; all locks are free and nobody has
looked at the condition. -/
def start (cond : Bool) : Threads n κ where
  state := fun _ => .RUNNABLE
  chan := fun _ => none
  pc := fun a => match a with
    | .proc _ => .parked (.yielded .run)
    | .intr _ => .idle .run
  cpu := fun _ => none
  holder := fun _ => none
  ncli := fun a => match a with
    | .proc _ => 1
    | .intr _ => 0
  cond := cond
  found := fun _ => false
  owes := fun _ => false

/-! ## The invariant -/

section

variable (chan₀ : Chan) (lk : Lock)

/-- Process `i` sleeps on the channel, or is past the point where it could still see
the condition change. -/
def Asleep (s : Threads n κ) (i : Fin n) : Prop :=
  s.state i = .SLEEPING ∧ s.chan i = some chan₀ ∨ (∃ l, s.pc (.proc i) = .setChan chan₀ l) ∨
    (∃ l, s.pc (.proc i) = .setSleeping l) ∧ s.chan i = some chan₀

structure Watch (s : Threads n κ) : Prop where
  /-- Code that runs under `ptable.lock` holds it. -/
  inTable : ∀ a, (s.pc a).InTable → s.holder .ptable = some (.agent a)
  found : ∀ a, s.found a = true → s.holder lk = some (.agent a) ∧ s.cond = false
  /-- Who is on the way into `sleep` still has `lk`. -/
  entering : ∀ a l, s.pc a = .sleepAcquire chan₀ l ∨ s.pc a = .sleepRelease chan₀ l →
    l = lk ∧ s.found a = true
  other : ∀ a c l, s.pc a = .sleepAcquire c l ∨ s.pc a = .sleepRelease c l → l ≠ .ptable
  /-- The loop has no sleeper behind it. -/
  loop : ∀ a rest u, s.pc a = .wakeup1 chan₀ rest u →
    ∀ i, s.state i = .SLEEPING → s.chan i = some chan₀ → i ∈ rest
  owed : ∀ i, Asleep chan₀ s i → s.cond = true → ∃ a, s.owes a = true

end

section

variable {chan₀ : Chan} {lk : Lock} {s s' : Threads n κ} {a : Agent n} {l : Lock}

theorem Watch.inTable_unique (h : Watch chan₀ lk s) {b : Agent n} {k k' : Pc n} (ha : s.pc a = k)
    (hb : s.pc b = k') (hk : k.InTable) (hk' : k'.InTable) : a = b ∧ k = k' := by
  subst ha hb
  have hab : a = b := by simpa using (h.inTable a hk).symm.trans (h.inTable b hk')
  exact ⟨hab, hab ▸ rfl⟩

theorem Asleep.of_goto {k : Pc n} {i : Fin n} (h : Asleep chan₀ (s.goto a k) i)
    (hk : ∀ l, k ≠ .setChan chan₀ l) (hs : ∀ l, k ≠ .setSleeping l) : Asleep chan₀ s i := by
  unfold Asleep at h ⊢
  by_cases hi : Agent.proc i = a
  · simp only [goto, hi, update_self] at h
    rcases h with h | ⟨l, h⟩ | ⟨⟨l, h⟩, -⟩
    · exact .inl h
    · exact absurd h (hk l)
    · exact absurd h (hs l)
  · simpa only [goto, update_of_ne hi] using h

/-- An agent goes on to `k`: what the invariant asks of the new place. -/
theorem Watch.goto (h : Watch chan₀ lk s) {k : Pc n}
    (hin : k.InTable → s.holder .ptable = some (.agent a))
    (hent : ∀ l, k = .sleepAcquire chan₀ l ∨ k = .sleepRelease chan₀ l → l = lk ∧ s.found a = true)
    (hoth : ∀ c l, k = .sleepAcquire c l ∨ k = .sleepRelease c l → l ≠ .ptable)
    (hloop : ∀ rest u, k = .wakeup1 chan₀ rest u →
      ∀ i, s.state i = .SLEEPING → s.chan i = some chan₀ → i ∈ rest)
    (hsleep : ∀ i, Asleep chan₀ (s.goto a k) i → s.cond = true → ∃ b, s.owes b = true) :
    Watch chan₀ lk (s.goto a k) where
  inTable := by
    intro b hb
    by_cases hba : b = a
    · subst hba
      exact hin (by simpa using hb)
    · exact h.inTable b (by simpa [hba] using hb)
  found := h.found
  entering := by
    intro b l hb
    by_cases hba : b = a
    · subst hba
      exact hent l (by simpa using hb)
    · exact h.entering b l (by simpa [hba] using hb)
  other := by
    intro b c l hb
    by_cases hba : b = a
    · subst hba
      exact hoth c l (by simpa using hb)
    · exact h.other b c l (by simpa [hba] using hb)
  loop := by
    intro b rest u hb
    by_cases hba : b = a
    · subst hba
      exact hloop rest u (by simpa using hb)
    · exact h.loop b rest u (by simpa [hba] using hb)
  owed := hsleep

/-- A place that is in none of the stretches the invariant speaks of. -/
def Pc.Quiet (chan₀ : Chan) : Pc n → Prop
  | .setChan chan _ | .wakeup1 chan _ _ => chan ≠ chan₀
  | .sleepAcquire .. | .sleepRelease .. | .setSleeping _ => False
  | _ => True

theorem Watch.goto_quiet (h : Watch chan₀ lk s) {k : Pc n} (hk : k.Quiet chan₀)
    (hin : k.InTable → s.holder .ptable = some (.agent a)) : Watch chan₀ lk (s.goto a k) := by
  refine h.goto hin ?_ ?_ ?_ fun i hi => h.owed i (hi.of_goto ?_ ?_)
  · rintro l (rfl | rfl) <;> exact absurd hk id
  · rintro c l (rfl | rfl) <;> exact absurd hk id
  · rintro rest u rfl
    exact absurd rfl hk
  · rintro l rfl
    exact hk rfl
  · rintro l rfl
    exact hk

theorem Watch.acquire (h : Watch chan₀ lk s) (hs : s.acquire a l = some s') :
    Watch chan₀ lk s' ∧ s'.holder l = some (.agent a) := by
  simp only [Threads.acquire] at hs
  split at hs
  case isFalse => cases hs
  rename_i hfree
  cases hs
  refine ⟨⟨?_, ?_, h.entering, h.other, h.loop, h.owed⟩, by simp⟩
  · intro b hb
    have hb' := h.inTable b hb
    have : Lock.ptable ≠ l := by
      rintro rfl
      rw [hfree] at hb'
      cases hb'
    simpa [this] using hb'
  · intro b hb
    obtain ⟨hl, hc⟩ := h.found b hb
    have : lk ≠ l := by
      rintro rfl
      rw [hfree] at hl
      cases hl
    exact ⟨by simpa [this] using hl, hc⟩

/-- A lock changes hands, away from an agent that is already out of the stretch it
protects. -/
theorem Watch.letGo (h : Watch chan₀ lk s) (hheld : s.holder l = some (.agent a))
    (hpc : l = .ptable → ¬(s.pc a).InTable)
    (hent : ∀ l', s.pc a ≠ .sleepAcquire chan₀ l' ∧ s.pc a ≠ .sleepRelease chan₀ l')
    (o : Option (Owner n κ)) (ncli : Agent n → Nat) (cpu : κ → Option (Fin n)) :
    Watch chan₀ lk { s with
      holder := update s.holder l o
      found := update s.found a (s.found a && l ≠ lk)
      ncli, cpu } where
  inTable := by
    intro b hb
    have hb' := h.inTable b hb
    have : Lock.ptable ≠ l := by
      rintro rfl
      rw [hheld] at hb'
      cases hb'
      exact hpc rfl hb
    simpa [this] using hb'
  found := by
    intro b hb
    by_cases hba : b = a
    · subst hba
      simp only [update_self, Bool.and_eq_true, decide_eq_true_eq] at hb
      obtain ⟨hl, hc⟩ := h.found b hb.1
      exact ⟨by simpa [Ne.symm hb.2] using hl, hc⟩
    · obtain ⟨hl, hc⟩ := h.found b (by simpa [hba] using hb)
      have : lk ≠ l := by
        rintro rfl
        rw [hheld] at hl
        cases hl
        exact hba rfl
      exact ⟨by simpa [this] using hl, hc⟩
  entering := by
    intro b l' hb
    by_cases hba : b = a
    · subst hba
      exact absurd hb (by simpa using hent l')
    · simpa [hba] using h.entering b l' hb
  other := h.other
  loop := h.loop
  owed := h.owed

theorem Watch.release [DecidableEq κ] (h : Watch chan₀ lk s) (hs : s.release lk a l = some s')
    (hpc : l = .ptable → ¬(s.pc a).InTable)
    (hent : ∀ l', s.pc a ≠ .sleepAcquire chan₀ l' ∧ s.pc a ≠ .sleepRelease chan₀ l') :
    Watch chan₀ lk s' := by
  simp only [Threads.release] at hs
  split at hs
  case isFalse => cases hs
  rename_i hheld
  cases hs
  exact h.letGo hheld hpc hent none _ _

theorem Watch.handOver (h : Watch chan₀ lk s) (hno : ∀ a, s.holder .ptable ≠ some (.agent a))
    (o : Option (Owner n κ)) (cpu : κ → Option (Fin n)) :
    Watch chan₀ lk { s with holder := update s.holder .ptable o, cpu } where
  inTable := fun b hb => absurd (h.inTable b hb) (hno b)
  found := by
    intro b hb
    obtain ⟨hl, hc⟩ := h.found b hb
    have : lk ≠ .ptable := by
      rintro rfl
      exact hno b hl
    exact ⟨by simpa [this] using hl, hc⟩
  entering := h.entering
  other := h.other
  loop := h.loop
  owed := h.owed

theorem Watch.setState (h : Watch chan₀ lk s) {i : Fin n} {x : ProcState} (hx : x ≠ .SLEEPING) :
    Watch chan₀ lk (s.setState i x) where
  inTable := h.inTable
  found := h.found
  entering := h.entering
  other := h.other
  loop := by
    intro b rest u hb j hj
    by_cases hji : j = i
    · subst hji
      exact absurd (by simpa using hj) hx
    · exact h.loop b rest u hb j (by simpa [hji] using hj)
  owed := by
    intro j hj
    refine h.owed j (hj.imp_left fun hj => ?_)
    by_cases hji : j = i
    · subst hji
      exact absurd (by simpa using hj.1) hx
    · simpa [hji] using hj

/-- A store to the slot of a process under `ptable.lock`: nobody else is in the loop. -/
theorem Watch.store (h : Watch chan₀ lk s) (i : Fin n) (k' : Pc n) (x : ProcState) (y : Option Chan)
    {k : Pc n} (hpc : s.pc (.proc i) = k) (hk : k.InTable) (hw : ∀ c r u, k' ≠ .wakeup1 c r u)
    (he : ∀ c l, k' ≠ .sleepAcquire c l ∧ k' ≠ .sleepRelease c l)
    (hsleep : Asleep chan₀ (((s.setState i x).setChan i y).goto (.proc i) k') i → Asleep chan₀ s i) :
    Watch chan₀ lk (((s.setState i x).setChan i y).goto (.proc i) k') where
  inTable := by
    intro b hb
    by_cases hba : b = .proc i
    · subst hba
      exact h.inTable _ (hpc ▸ hk)
    · exact h.inTable b (by simpa [hba] using hb)
  found := h.found
  entering := by
    intro b l hb
    by_cases hba : b = .proc i
    · subst hba
      exact absurd hb (by simpa using he chan₀ l)
    · exact h.entering b l (by simpa [hba] using hb)
  other := by
    intro b c l hb
    by_cases hba : b = .proc i
    · subst hba
      exact absurd hb (by simpa using he c l)
    · exact h.other b c l (by simpa [hba] using hb)
  loop := by
    intro b rest u hb
    by_cases hba : b = .proc i
    · subst hba
      exact absurd hb (by simpa using hw chan₀ rest u)
    · have hb' : s.pc b = .wakeup1 chan₀ rest u := by simpa [hba] using hb
      exact absurd (h.inTable_unique hb' hpc trivial hk).1 hba
  owed := by
    intro j hj
    refine h.owed j ?_
    by_cases hji : j = i
    · subst hji
      exact hsleep hj
    · have : Agent.proc j ≠ .proc i := by simpa using hji
      simpa [Asleep, hji, this] using hj

/-! ## What each step keeps -/

variable [DecidableEq κ]

theorem release_goto (k : Pc n) :
    (s.release lk a l).map (·.goto a k) = (s.goto a k).release lk a l := by
  by_cases h : s.holder l = some (.agent a) <;> simp [Threads.release, h]

theorem watch_goStep (h : Watch chan₀ lk s) {c : Option κ}
    (hs : goStep chan₀ lk s c a (s.pc a) = some s') : Watch chan₀ lk s' := by
  cases hpc : s.pc a with
  | idle k =>
    rw [hpc] at hs
    cases k with
    | run => cases hs
    | wakeup chan =>
      obtain ⟨t, ht, rfl⟩ := Option.map_eq_some_iff.mp hs
      obtain ⟨h', hl⟩ := h.acquire ht
      refine h'.goto (fun _ => hl) (by simp) (by simp) ?_ fun i hi => h'.owed i (hi.of_goto (by simp) (by simp))
      intro rest u hk i _ _
      cases hk
      exact List.mem_finRange i
    | reacquire l =>
      obtain ⟨t, ht, rfl⟩ := Option.map_eq_some_iff.mp hs
      exact (h.acquire ht).1.goto_quiet trivial False.elim
  | sleepAcquire chan l =>
    rw [hpc] at hs
    obtain ⟨t, ht, rfl⟩ := Option.map_eq_some_iff.mp hs
    obtain ⟨h', hl⟩ := h.acquire ht
    have hf : t.pc = s.pc ∧ t.found = s.found := by
      simp only [Threads.acquire] at ht
      split at ht <;> cases ht
      exact ⟨rfl, rfl⟩
    refine h'.goto (fun _ => hl) ?_ ?_ (by simp) fun i hi => h'.owed i (hi.of_goto (by simp) (by simp))
    · rintro l' (hk | hk) <;> cases hk
      rw [hf.2]
      exact h.entering a l (.inl hpc)
    · rintro c' l' (hk | hk) <;> cases hk
      exact h.other a chan l (.inl hpc)
  | sleepRelease chan l =>
    rw [hpc] at hs
    have hheld := h.inTable a (hpc ▸ trivial)
    simp only [goStep, release_goto] at hs
    refine Watch.release (h.goto (k := .setChan chan l) (fun _ => hheld) (by simp) (by simp) (by simp) ?_)
      hs (fun hl => absurd hl (h.other a chan l (.inr hpc))) (by simp)
    intro i hi hc
    by_cases hchan : chan = chan₀
    · -- it still has lk here, so the condition is false
      subst hchan
      have := (h.found a (h.entering a l (.inr hpc)).2).2
      rw [hc] at this
      cases this
    · exact h.owed i (hi.of_goto (by simpa using hchan) (by simp)) hc
  | setChan chan l =>
    rw [hpc] at hs
    match a, hpc, hs with
    | .proc i, hpc, hs =>
      cases hs
      have := h.store i (.setSleeping l) (s.state i) (some chan) hpc trivial
        (by simp) (by simp) ?_
      · simpa using this
      intro hi
      have hchan : chan = chan₀ := by
        have : s.state i = .SLEEPING ∧ chan = chan₀ ∨ chan = chan₀ := by simpa [Asleep] using hi
        exact this.elim And.right id
      exact .inr (.inl ⟨l, hchan ▸ hpc⟩)
  | setSleeping l =>
    rw [hpc] at hs
    match a, hpc, hs with
    | .proc i, hpc, hs =>
      cases hs
      have := h.store i (.sched (.tidy l)) .SLEEPING (s.chan i) hpc trivial
        (by simp) (by simp) ?_
      · simpa using this
      intro hi
      have hchan : s.chan i = some chan₀ := by simpa [Asleep] using hi
      exact .inr (.inr ⟨⟨l, hpc⟩, hchan⟩)
  | setRunnable k =>
    rw [hpc] at hs
    match a, hpc, hs with
    | .proc i, hpc, hs =>
      cases hs
      exact (h.setState (by simp)).goto_quiet trivial fun _ => h.inTable _ (hpc ▸ trivial)
  | sched k =>
    rw [hpc] at hs
    match a, c, hpc, hs with
    | .proc i, some c, hpc, hs =>
      simp only [goStep] at hs
      split at hs
      case isFalse => cases hs
      rename_i hheld
      cases hs
      have h' := (h.goto_quiet (a := .proc i) (k := .parked k) trivial False.elim).letGo hheld.1
        (by simp [Pc.InTable]) (by simp) (some (.sched c)) s.ncli (update s.cpu c none)
      have hne : (Lock.ptable ≠ lk) = (lk ≠ .ptable) := propext ne_comm
      simpa [hne] using h'
  | parked k =>
    rw [hpc] at hs
    cases hs
  | resumed k =>
    rw [hpc] at hs
    have hheld := h.inTable a (hpc ▸ trivial)
    cases k with
    | tidy l =>
      match a, hpc, hs with
      | .proc i, hpc, hs =>
        cases hs
        have := h.store i (if l = .ptable then .idle .run else .sleepReturn l)
          (s.state i) none hpc trivial (by split <;> simp) (by split <;> simp) ?_
        · simpa using this
        intro hi
        split at hi <;> simp [Asleep] at hi
    | yielded k =>
      simp only [goStep, release_goto] at hs
      exact (h.goto_quiet (k := .idle k) trivial False.elim).release hs (by simp [Pc.InTable]) (by simp)
  | sleepReturn l =>
    rw [hpc] at hs
    simp only [goStep, release_goto] at hs
    exact (h.goto_quiet (k := .idle (.reacquire l)) trivial False.elim).release hs (by simp [Pc.InTable]) (by simp)
  | wakeup1 chan rest unlock =>
    rw [hpc] at hs
    have hheld := h.inTable a (hpc ▸ trivial)
    cases rest with
    | nil =>
      cases hs
      by_cases hchan : chan = chan₀
      · -- the loop is through: nobody is asleep on the channel, or about to be
        subst hchan
        have hnone : ∀ i, ¬Asleep chan s i := by
          rintro i (⟨hi, hc⟩ | ⟨l, hi⟩ | ⟨⟨l, hi⟩, -⟩)
          · simpa using h.loop a [] unlock hpc i hi hc
          · cases (h.inTable_unique hi hpc trivial trivial).2
          · cases (h.inTable_unique hi hpc trivial trivial).2
        have h' : Watch chan lk (s.setOwes a (s.owes a && chan ≠ chan)) :=
          ⟨h.inTable, h.found, h.entering, h.other, h.loop, fun i hi => absurd hi (hnone i)⟩
        cases unlock
        · exact h'.goto_quiet trivial False.elim
        · exact h'.goto_quiet trivial fun _ => hheld
      · have h' : Watch chan₀ lk (s.setOwes a (s.owes a && chan ≠ chan₀)) := by
          simpa [hchan] using h
        cases unlock
        · exact h'.goto_quiet trivial False.elim
        · exact h'.goto_quiet trivial fun _ => hheld
    | cons j js =>
      -- whether or not it was asleep on the channel, j is not after this step
      have hgo : ∀ t : Threads n κ, Watch chan₀ lk t → t.holder = s.holder →
          (∀ i, t.state i = .SLEEPING → s.state i = .SLEEPING ∧ (i = j → s.chan j ≠ some chan)) →
          t.chan = s.chan → Watch chan₀ lk (t.goto a (.wakeup1 chan js unlock)) := by
        intro t ht hh hst hch
        refine ht.goto (fun _ => hh ▸ hheld) (by simp) (by simp) ?_
          fun i hi => ht.owed i (hi.of_goto (by simp) (by simp))
        intro rest u hk i hi hc
        cases hk
        obtain ⟨hi', hij⟩ := hst i hi
        rw [hch] at hc
        rcases List.mem_cons.mp (h.loop a (j :: js) unlock hpc i hi' hc) with rfl | hmem
        · exact absurd hc (hij rfl)
        · exact hmem
      simp only [goStep] at hs
      split at hs
      · cases hs
        refine hgo (s.setState j .RUNNABLE) (h.setState (by simp)) rfl ?_ rfl
        intro i hi
        by_cases hij : i = j
        · simp [hij] at hi
        · exact ⟨by simpa [hij] using hi, fun h => absurd h hij⟩
      · rename_i hno
        cases hs
        refine hgo s h rfl (fun i hi => ⟨hi, ?_⟩) rfl
        rintro rfl hc
        exact hno ⟨hi, hc⟩
  | wakeupReturn =>
    rw [hpc] at hs
    simp only [goStep, release_goto] at hs
    exact (h.goto_quiet (k := .idle .run) trivial False.elim).release hs (by simp [Pc.InTable]) (by simp)

theorem watch_actStep (h : Watch chan₀ lk s) {x : Action} (hpc : s.pc a = .idle .run)
    (hx : ObeysAct chan₀ lk s a x) (hs : actStep lk s a x = some s') : Watch chan₀ lk s' := by
  cases x with
  | go | yield => cases hs
  | acquire l => exact (h.acquire hs).1
  | release l => exact h.release hs (by simp [hpc, Pc.InTable]) (by simp [hpc])
  | test =>
    simp only [actStep] at hs
    split at hs
    · rename_i hfound
      cases hs
      refine ⟨h.inTable, ?_, ?_, h.other, h.loop, h.owed⟩
      · intro b hb
        by_cases hba : b = a
        · exact hba ▸ hfound
        · exact h.found b (by simpa [hba] using hb)
      · intro b l hb
        by_cases hba : b = a
        · subst hba
          simp [hpc] at hb
        · simpa [hba] using h.entering b l hb
    · cases hs
      exact h
  | setCond b =>
    cases hs
    refine ⟨h.inTable, ?_, ?_, h.other, h.loop, ?_⟩
    · intro d hd
      by_cases hda : d = a
      · simp [hda] at hd
      · obtain ⟨hl, hc⟩ := h.found d (by simpa [hda] using hd)
        refine ⟨hl, ?_⟩
        by_contra hb
        have hne : b ≠ s.cond := by
          rintro rfl
          exact hb hc
        rw [hx hne] at hl
        cases hl
        exact hda rfl
    · intro d l hd
      by_cases hda : d = a
      · subst hda
        simp [hpc] at hd
      · simpa [hda] using h.entering d l hd
    · intro i hi (hb : b = true)
      cases hc : s.cond with
      | false => exact ⟨a, by simp [hc, hb]⟩
      | true =>
        obtain ⟨d, hd⟩ := h.owed i hi hc
        refine ⟨d, ?_⟩
        by_cases hda : d = a
        · subst hda
          simp [hd]
        · simpa [hda] using hd
  | sleep chan l =>
    match a, hpc, hx, hs with
    | .proc i, hpc, hx, hs =>
      simp only [actStep] at hs
      split at hs
      case isFalse => cases hs
      rename_i hheld
      cases hs
      by_cases hl : l = .ptable
      · subst hl
        rw [if_pos rfl]
        refine h.goto (fun _ => hheld) (by simp) (by simp) (by simp) fun j hj hc => ?_
        by_cases hchan : chan = chan₀
        · -- with ptable.lock for lk, there is nothing to let go of before SLEEPING
          have := (h.found _ (hx hchan).2).2
          rw [hc] at this
          cases this
        · exact h.owed j (hj.of_goto (by simpa using hchan) (by simp)) hc
      · rw [if_neg hl]
        refine h.goto False.elim ?_ ?_ (by simp) fun j hj => h.owed j (hj.of_goto (by simp) (by simp))
        · rintro l' (hk | hk) <;> cases hk
          exact hx rfl
        · rintro c' l' (hk | hk) <;> cases hk
          exact hl
  | wakeup chan =>
    cases hs
    exact h.goto_quiet trivial False.elim
  | wakeup1 chan =>
    simp only [actStep] at hs
    split at hs
    case isFalse => cases hs
    rename_i hheld
    cases hs
    refine h.goto (fun _ => hheld) (by simp) (by simp) ?_
      fun i hi => h.owed i (hi.of_goto (by simp) (by simp))
    intro rest u hk i _ _
    cases hk
    exact List.mem_finRange i

theorem watch_agentStep (h : Watch chan₀ lk s) {c : Option κ} {x : Action}
    (hx : ObeysAct chan₀ lk s a x) (hs : agentStep chan₀ lk s c a x = some s') :
    Watch chan₀ lk s' := by
  simp only [agentStep] at hs
  split at hs
  · rename_i hk
    exact watch_goStep h hs
  · split at hs
    · obtain ⟨t, ht, rfl⟩ := Option.map_eq_some_iff.mp hs
      obtain ⟨h', hl⟩ := h.acquire ht
      exact h'.goto_quiet trivial fun _ => hl
    · cases hs
  · rename_i hpc _ _
    exact watch_actStep h hpc hx hs
  · cases hs

theorem watch_step (h : Watch chan₀ lk s) {x : Label n κ} (hx : Obeys chan₀ lk s x)
    (hs : step chan₀ lk s x = some s') : Watch chan₀ lk s' := by
  cases x with
  | proc c x =>
    simp only [step] at hs
    split at hs
    · rename_i i hi
      exact watch_agentStep h (hx i hi) hs
    · cases hs
  | intr k x => exact watch_agentStep h hx hs
  | schedAcquire c =>
    simp only [step] at hs
    split at hs <;> cases hs
    rename_i hfree
    exact h.handOver (by simp [hfree.1]) _ _
  | schedRelease c =>
    simp only [step] at hs
    split at hs <;> cases hs
    rename_i hheld
    exact h.handOver (by simp [hheld]) _ _
  | swtch c i =>
    simp only [step] at hs
    split at hs
    case h_2 => cases hs
    rename_i k hpc
    split at hs <;> cases hs
    rename_i hheld
    have h' := (h.setState (i := i) (x := .RUNNING) (by simp)).handOver (by simp [hheld.1])
      (some (.agent (.proc i))) (update s.cpu c (some i))
    exact h'.goto_quiet (a := .proc i) (k := .resumed k) trivial fun _ => by simp

end

theorem watch_start (chan₀ : Chan) (lk : Lock) (cond : Bool) :
    Watch chan₀ lk (start cond : Threads n κ) where
  inTable := by rintro (i | k) h <;> cases h
  found := by simp [start]
  entering := by rintro (i | k) <;> simp [start]
  other := by rintro (i | k) <;> simp [start]
  loop := by rintro (i | k) <;> simp [start]
  owed := by simp [start, Asleep]

/-- A process sleeps on the channel though the condition is true, and everybody who made
it true has finished its wakeup. -/
def Lost (chan₀ : Chan) (s : Threads n κ) : Prop :=
  ∃ i, s.state i = .SLEEPING ∧ s.chan i = some chan₀ ∧ s.cond = true ∧ ∀ a, s.owes a = false

/-- **No wakeup is lost.** Any number of processes, interrupt handlers and CPUs, in any
interleaving, with `lk` the lock of the process table or any other: if the condition
changes under `lk` only, and who sleeps on the channel has found it false under `lk` and
sleeps with it, then a process that sleeps on the channel while the condition is true
will be woken: somebody who made it true has not finished its wakeup. -/
theorem no_lost_wakeup [DecidableEq κ] (chan₀ : Chan) (lk : Lock) (cond : Bool)
    {ls : List (Label n κ)} {s : Threads n κ}
    (hobey : Along (step chan₀ lk) (Obeys chan₀ lk) (start cond) ls)
    (hrun : run (step chan₀ lk) (start cond) ls = some s) : ¬Lost chan₀ s := by
  rintro ⟨i, hi, hchan, hc, hall⟩
  have h : Watch chan₀ lk s := run_invariant (Watch chan₀ lk)
    (fun _ _ _ h hx hs => watch_step h hx hs) (watch_start chan₀ lk cond) hobey hrun
  obtain ⟨a, ha⟩ := h.owed i (.inl ⟨hi, hchan⟩) hc
  rw [hall a] at ha
  cases ha

-- the numerals below are the CPU and the two processes
local instance one_cpu : NeZero 1 := ⟨by decide⟩
local instance two_sleepers : NeZero 2 := ⟨by decide⟩

/-- One CPU: process 0 finds the condition false and sleeps on channel 7, process 1 makes
the condition true. With `ptable.lock` there is no other lock to change for it. -/
def sleeperRun (lk : Lock) : List (Label 2 (Fin 1)) :=
  [.schedAcquire 0, .swtch 0 0, .proc 0 .go, .proc 0 (.acquire lk), .proc 0 .test,
    .proc 0 (.sleep 7 lk)] ++
  (if lk = .ptable then [] else [.proc 0 .go, .proc 0 .go]) ++
  [.proc 0 .go, .proc 0 .go, .proc 0 .go, .swtch 0 1, .proc 0 .go, .proc 0 (.acquire lk),
    .proc 0 (.setCond true)]

theorem sleeperRun_obeys (lk : Lock) (hlk : lk = .ptable ∨ lk = .other 0) :
    Along (step 7 lk) (Obeys 7 lk) (start false) (sleeperRun lk) ∧
      ∃ s, run (step 7 lk) (start false) (sleeperRun lk) = some s ∧ s.state 0 = .SLEEPING ∧
        s.cond = true := by
  have hrun : (run (step 7 lk) (start false) (sleeperRun lk)).map
      (fun s => (s.state 0, s.cond)) = some (.SLEEPING, true) := by
    rcases hlk with rfl | rfl <;> decide +kernel
  obtain ⟨s, hs, hobs⟩ := Option.map_eq_some_iff.mp hrun
  obtain ⟨hstate, hcond⟩ := Prod.mk.inj hobs
  refine ⟨?_, s, hs, hstate, hcond⟩
  rcases hlk with rfl | rfl <;> decide +kernel

theorem no_lost_wakeup_sleeping :
    (∃ s, run (step 7 .ptable) (start false) (sleeperRun .ptable) = some s ∧
      s.state 0 = .SLEEPING ∧ s.cond = true ∧ ¬Lost 7 s) ∧
    (∃ s, run (step 7 (.other 0)) (start false) (sleeperRun (.other 0)) = some s ∧
      s.state 0 = .SLEEPING ∧ s.cond = true ∧ ¬Lost 7 s) := by
  constructor
  · obtain ⟨hobey, s, hs, hstate, hcond⟩ := sleeperRun_obeys .ptable (.inl rfl)
    exact ⟨s, hs, hstate, hcond, no_lost_wakeup 7 .ptable false hobey hs⟩
  · obtain ⟨hobey, s, hs, hstate, hcond⟩ := sleeperRun_obeys (.other 0) (.inr rfl)
    exact ⟨s, hs, hstate, hcond, no_lost_wakeup 7 (.other 0) false hobey hs⟩

end Xv6.SleepWakeup
