import Mathlib
import Xv6.Signal
import Xv6.Transition

/- The process table and the functions that share it (proc.c).

   Any number of CPUs run the scheduler and, in between, processes. A process
   claims a slot of the table with a compare-and-swap and fills it under no lock;
   everything else happens under `ptable.lock`. The two interleave step by step:
   a step here is one access to the shared table, or several in a row to fields
   that only the process at work touches.

   A process is on a CPU, or it is parked in `sched`, with its place in the code
   saved in `thread`. Its code has two levels. `Main` is the code that holds no
   lock: `fork` up to its critical section, or anything else. `Crit` is a critical
   section under `ptable.lock`. An interrupt outside of one can call `yield` or
   `wakeup` at any point of `Main`.

   History, which no step looks at: how many pids and pages were given out, which
   pages were freed, what each `wait` has returned, which page table a slot owns
   (`dir`: the pointer `pgdir` is left as it is when the table is freed) and the
   pid of a process's parent (`ppid`).

   What is left out: the fields no function here reads, `killed` and the results
   of `kalloc` and `copyuvm` (any outcome is possible), and a CPU that has paniced.

   Correspondence (C ↔ Lean):
     `struct proc`, `struct cpu`, `ptable`      ↔ `Entry`, `Cpu`, `Table`
     `allocproc`, `allocpid`, `fork`            ↔ `Main`, `forkStep`
     `exec`'s change of page table              ↔ `execStep`
     `exit`, `wait`, `sleep`, `wakeup1`, `yield`, `forkret`, `sched`
                                                ↔ `Crit`, `critStep`
     `scheduler`                                ↔ `CpuPc`, `schedStep`
     `handle_SIGKILL` (the state it sets)       ↔ `Choice.sigkill`
     the table after `userinit`                 ↔ `start` -/
namespace Xv6.Ptable
open Function Bits

abbrev SlotId := Fin 64

/-- The order in which every loop goes over the table. -/
def slots : List SlotId := List.finRange 64

def initproc : SlotId := 0

/-- A page or page table, by the number of its allocation: one that is freed and
allocated again has another number. -/
abbrev Page := Nat

inductive Chan where
  | null
  | proc (i : SlotId)
  | other (n : Nat)
  deriving DecidableEq

structure Entry where
  state : ProcState
  pid : Word
  parent : Option SlotId
  chan : Chan
  kstack : Option Page
  pgdir : Option Page
  dir : Option Page
  /-- The pid of the parent when it became the parent. -/
  ppid : Word

/-- What a `wait` returns, and what it has done for it. -/
structure Reap where
  pid : Word
  ppid : Word
  waiter : Word
  /-- The kernel stack and the page table it has freed. -/
  stack : Option Page
  dir : Option Page

/-- Where a process stands outside of critical sections: in `fork`, or anywhere else. -/
inductive Main where
  | run
  /-- In the loop of `allocproc`, at the CAS on the first of these slots. -/
  | scan (rest : List SlotId)
  /-- In `allocpid`: at the read of `nextpid`, at the CAS. -/
  | pidRead (j : SlotId)
  | pidCas (j : SlotId) (localPid : Word)
  /-- At `p->pid = allocpid()`. -/
  | pidStore (j : SlotId) (pid : Word)
  | kalloc (j : SlotId)
  /-- At `copyuvm`, and after it has failed at `kfree(np->kstack)`. -/
  | copyuvm (j : SlotId)
  | freeStack (j : SlotId)
  /-- At `p->state = UNUSED` on a failure path. -/
  | giveUp (j : SlotId)
  | setParent (j : SlotId)
  | readPid (j : SlotId)
  /-- At `acquire(&ptable.lock)` in `fork`. -/
  | publish (j : SlotId) (pid : Word)

/-- The slot that a call of `allocproc` has claimed and `fork` has not given away
yet. -/
def Main.claim : Main → Option SlotId
  | .run | .scan _ => none
  | .pidRead j | .pidCas j _ | .pidStore j _ | .kalloc j | .copyuvm j | .freeStack j | .giveUp j
  | .setParent j | .readPid j | .publish j _ => some j

/-- Where `wakeup1`, `sleep` and `sched` return to: in `sleep`, at `p->chan = 0`; in
`wait`, back to the head of its loop; in the loop of `exit`; at the end of `exit`;
and else at `release(&ptable.lock)`. -/
inductive Cont where
  | release
  | tidy (k : Cont)
  | rescan
  | reparent (rest : List SlotId)
  | dead

inductive Crit where
  | release
  | publish
  | yield
  /-- In `sleep`: at `p->chan = chan`, at `p->state = SLEEPING`, at `p->chan = 0`. -/
  | sleep (chan : Chan) (k : Cont)
  | asleep (k : Cont)
  | tidy (k : Cont)
  /-- In `sched`: about to switch to the scheduler, and switched back to. -/
  | sched (k : Cont)
  | resumed (k : Cont)
  | wakeup1 (chan : Chan) (rest : List SlotId) (k : Cont)
  /-- In `exit`: at `wakeup1(curproc->parent)`. -/
  | exit
  | reparent (rest : List SlotId)
  | adopt (j : SlotId) (rest : List SlotId)
  | adopted (j : SlotId) (rest : List SlotId)
  /-- At `curproc->state = ZOMBIE`, and after `sched`. -/
  | zombie
  | dead
  /-- In `wait`: in the loop over the table. -/
  | waitScan (rest : List SlotId) (havekids : Bool)
  | waitState (j : SlotId) (rest : List SlotId)
  /-- At `pid = p->pid`, and then taking the child apart. -/
  | waitPid (j : SlotId)
  | waitStack (j : SlotId) (r : Reap)
  | waitDir (j : SlotId) (r : Reap)
  | waitClear (j : SlotId) (r : Reap)
  | waitOrphan (j : SlotId) (r : Reap)
  | waitUnused (j : SlotId) (r : Reap)
  /-- At `release(&ptable.lock); return pid`. -/
  | waitReturn (r : Reap)

/-- The code at the place returned to. -/
def Cont.crit : Cont → Crit
  | .release => .release
  | .tidy k => .tidy k
  | .rescan => .waitScan slots false
  | .reparent rest => .reparent rest
  | .dead => .dead

/-- The saved context of a process: a critical section runs on top of `main`. -/
structure Thread where
  main : Main
  crit : Option Crit

inductive CpuPc where
  /-- At `acquire(&ptable.lock)`, with interrupts on. -/
  | idle
  | scan (rest : List SlotId)
  /-- At `c->proc = p`, at `p->state = RUNNING`, at `swtch`. -/
  | choose (p : SlotId) (rest : List SlotId)
  | start (p : SlotId) (rest : List SlotId)
  | swtch (p : SlotId) (rest : List SlotId)
  | away (p : SlotId) (rest : List SlotId)
  | back (p : SlotId) (rest : List SlotId)
  | wakeup1 (chan : Chan) (rest : List SlotId)

structure Cpu where
  proc : Option SlotId
  pc : CpuPc

structure Table (κ : Type) where
  proc : SlotId → Entry
  thread : SlotId → Thread
  cpu : κ → Cpu
  lock : Option κ
  nextpid : Word
  /-- How often the CAS in `allocpid` has succeeded. -/
  allocs : Nat
  pages : Nat
  freed : List Page
  returned : List Reap

inductive Choice where
  /-- The next step; `b` is the outcome of an allocation or of `curproc->killed`. -/
  | go (b : Bool)
  | fork
  | exit
  | wait
  | sleep (chan : Chan)
  | wakeup (chan : Chan)
  | yield
  | exec
  | sigkill

/-- Who moves: the scheduler of a CPU, an interrupt handler on an idle CPU, or the
process that runs on a CPU. -/
inductive Label (κ : Type) where
  | sched (c : κ)
  | wakeup (c : κ) (chan : Chan)
  | thread (c : κ) (ch : Choice)

variable {κ : Type}

namespace Table

/-- Store to slot `j`. -/
@[simp] def put (t : Table κ) (j : SlotId) (e : Entry) : Table κ :=
  { t with proc := update t.proc j e }

/-- Process `i` goes on at `m`. -/
@[simp] def goto (t : Table κ) (i : SlotId) (m : Main) : Table κ :=
  { t with thread := update t.thread i { t.thread i with main := m } }

/-- Process `i` goes on at `k`, in the critical section. -/
@[simp] def next (t : Table κ) (i : SlotId) (k : Crit) : Table κ :=
  { t with thread := update t.thread i { t.thread i with crit := some k } }

@[simp] def leave (t : Table κ) (i : SlotId) : Table κ :=
  { t with lock := none, thread := update t.thread i { t.thread i with crit := none } }

@[simp] def setCpu [DecidableEq κ] (t : Table κ) (c : κ) (x : Cpu) : Table κ :=
  { t with cpu := update t.cpu c x }

/-- `acquire(&ptable.lock)` by process `i` on CPU `c`, and on to `k`. -/
def enter (t : Table κ) (c : κ) (i : SlotId) (k : Crit) : Option (Table κ) :=
  if t.lock = none then some { t.next i k with lock := some c } else none

end Table

open Table

@[simp] theorem update_main_crit (f : SlotId → Thread) (i p : SlotId) (m : Main) :
    (update f i ⟨m, (f i).crit⟩ p).crit = (f p).crit := by
  by_cases hp : p = i <;> simp [hp]

theorem update_field {α : Type} (g : Entry → α) {f : SlotId → Entry} {j : SlotId} {e : Entry}
    (h : g e = g (f j)) (p : SlotId) : g (update f j e p) = g (f p) := by
  by_cases hp : p = j
  · rw [hp, update_self, h]
  · rw [update_of_ne hp]

/-! ## `allocproc`, `allocpid`, `fork` -/

/-- `kfree` or `freevm`: freeing a null pointer panics. -/
def free (t : Table κ) (p : Option Page) : Option (Table κ) :=
  p.map fun p => { t with freed := p :: t.freed }

/-- The context `allocproc` gives a process: it starts in `forkret`, which releases
the lock the scheduler holds. -/
def newborn : Thread := ⟨.run, some (.resumed .release)⟩

def forkStep (t : Table κ) (c : κ) (i : SlotId) (b : Bool) : Main → Option (Table κ)
  | .run => none
  | .scan [] => some (t.goto i .run)
  | .scan (j :: rest) =>
    -- cas(&(p->state), UNUSED, EMBRYO)
    if (t.proc j).state = .UNUSED then
      some ((t.put j { t.proc j with state := .EMBRYO }).goto i (.pidRead j))
    else some (t.goto i (.scan rest))
  | .pidRead j => some (t.goto i (.pidCas j t.nextpid))
  | .pidCas j localPid =>
    -- cas(&nextpid, local_pid, local_pid + 1)
    if t.nextpid = localPid then
      some ({ t with nextpid := localPid + 1, allocs := t.allocs + 1 }.goto i
        (.pidStore j (localPid + 1)))
    else some (t.goto i (.pidRead j))
  | .pidStore j pid => some ((t.put j { t.proc j with pid }).goto i (.kalloc j))
  | .kalloc j =>
    if b then
      some (({ t with
        pages := t.pages + 1
        thread := update t.thread j newborn }.put j
          { t.proc j with kstack := some t.pages }).goto i (.copyuvm j))
    else some ((t.put j { t.proc j with kstack := none }).goto i (.giveUp j))
  | .copyuvm j =>
    if b then
      some (({ t with pages := t.pages + 1 }.put j
        { t.proc j with pgdir := some t.pages, dir := some t.pages }).goto i (.setParent j))
    else some ((t.put j { t.proc j with pgdir := none }).goto i (.freeStack j))
  | .freeStack j => do
    let t ← free t (t.proc j).kstack
    some ((t.put j { t.proc j with kstack := none }).goto i (.giveUp j))
  | .giveUp j => some ((t.put j { t.proc j with state := .UNUSED }).goto i .run)
  | .setParent j =>
    some ((t.put j { t.proc j with parent := some i, ppid := (t.proc i).pid }).goto i
      (.readPid j))
  | .readPid j => some (t.goto i (.publish j (t.proc j).pid))
  | .publish _ _ => t.enter c i .publish

/-- `exec` puts a new page table in the place of the old one and frees that. -/
def execStep (t : Table κ) (i : SlotId) : Option (Table κ) := do
  let t' ← free t (t.proc i).pgdir
  some ({ t' with pages := t.pages + 1 }.put i
    { t.proc i with pgdir := some t.pages, dir := some t.pages })

/-- Outside of critical sections. Only `yield`, `wakeup` and the handling of signals
can come in the middle of `fork`. -/
def mainStep (t : Table κ) (c : κ) (i : SlotId) (ch : Choice) : Option (Table κ) :=
  match (t.thread i).main, ch with
  | _, .yield => t.enter c i .yield
  | _, .wakeup chan => t.enter c i (.wakeup1 chan slots .release)
  | _, .sigkill =>
    if (t.proc i).state = .SLEEPING then some (t.put i { t.proc i with state := .RUNNABLE })
    else some t
  | m, .go b => forkStep t c i b m
  | .run, .fork => some (t.goto i (.scan slots))
  -- init must not exit
  | .run, .exit => if i = initproc then none else t.enter c i .exit
  | .run, .wait => t.enter c i (.waitScan slots false)
  | .run, .sleep chan => t.enter c i (.sleep chan .release)
  | .run, .exec => execStep t i
  | _, _ => none

/-! ## Critical sections -/

/-- The address of a process, as what others sleep on. -/
def chanOf : Option SlotId → Chan
  | some i => .proc i
  | none => .null

/-- The next step of process `i`, which runs on CPU `c`, in a critical section. -/
def critStep [DecidableEq κ] (t : Table κ) (c : κ) (i : SlotId) (rest : List SlotId) (b : Bool) :
    Crit → Option (Table κ)
  | .release => if t.lock = some c then some (t.leave i) else none
  | .publish =>
    match (t.thread i).main with
    | .publish j _ =>
      some (((t.put j { t.proc j with state := .RUNNABLE }).goto i .run).next i .release)
    | _ => none
  | .yield => some ((t.put i { t.proc i with state := .RUNNABLE }).next i (.sched .release))
  | .sleep chan k => some ((t.put i { t.proc i with chan }).next i (.asleep k))
  | .asleep k => some ((t.put i { t.proc i with state := .SLEEPING }).next i (.sched (.tidy k)))
  | .tidy k => some ((t.put i { t.proc i with chan := .null }).next i k.crit)
  | .sched k =>
    if t.lock = some c ∧ (t.proc i).state ≠ .RUNNING then
      some ((t.next i (.resumed k)).setCpu c { t.cpu c with pc := .back i rest })
    else none
  | .resumed k => some (t.next i k.crit)
  | .wakeup1 _ [] k => some (t.next i k.crit)
  | .wakeup1 chan (j :: js) k =>
    if (t.proc j).state = .SLEEPING ∧ (t.proc j).chan = chan then
      some ((t.put j { t.proc j with state := .RUNNABLE }).next i (.wakeup1 chan js k))
    else some (t.next i (.wakeup1 chan js k))
  | .exit => some (t.next i (.wakeup1 (chanOf (t.proc i).parent) slots (.reparent slots)))
  | .reparent [] => some (t.next i .zombie)
  | .reparent (j :: js) =>
    if (t.proc j).parent = some i then some (t.next i (.adopt j js))
    else some (t.next i (.reparent js))
  | .adopt j js =>
    some ((t.put j { t.proc j with
      parent := some initproc, ppid := (t.proc initproc).pid }).next i (.adopted j js))
  | .adopted j js =>
    if (t.proc j).state = .ZOMBIE then
      some (t.next i (.wakeup1 (.proc initproc) slots (.reparent js)))
    else some (t.next i (.reparent js))
  | .zombie => some ((t.put i { t.proc i with state := .ZOMBIE }).next i (.sched .dead))
  | .dead => none
  | .waitScan [] havekids =>
    -- !havekids || curproc->killed
    if !havekids || b then some (t.next i .release)
    else some (t.next i (.sleep (.proc i) .rescan))
  | .waitScan (j :: js) havekids =>
    if (t.proc j).parent = some i then some (t.next i (.waitState j js))
    else some (t.next i (.waitScan js havekids))
  | .waitState j js =>
    if (t.proc j).state = .ZOMBIE then some (t.next i (.waitPid j))
    else some (t.next i (.waitScan js true))
  | .waitPid j =>
    some (t.next i (.waitStack j
      ⟨(t.proc j).pid, (t.proc j).ppid, (t.proc i).pid, none, none⟩))
  | .waitStack j r => do
    let t' ← free t (t.proc j).kstack
    some ((t'.put j { t.proc j with kstack := none }).next i
      (.waitDir j { r with stack := (t.proc j).kstack }))
  | .waitDir j r => do
    let t' ← free t (t.proc j).pgdir
    some ((t'.put j { t.proc j with dir := none }).next i
      (.waitClear j { r with dir := (t.proc j).pgdir }))
  | .waitClear j r => some ((t.put j { t.proc j with pid := 0 }).next i (.waitOrphan j r))
  | .waitOrphan j r => some ((t.put j { t.proc j with parent := none }).next i (.waitUnused j r))
  | .waitUnused j r =>
    some ((t.put j { t.proc j with state := .UNUSED }).next i (.waitReturn r))
  | .waitReturn r =>
    if t.lock = some c then some { t.leave i with returned := r :: t.returned } else none

/-! ## `scheduler` -/

/-- The next step of the scheduler of CPU `c`. -/
def schedStep [DecidableEq κ] (t : Table κ) (c : κ) : CpuPc → Option (Table κ)
  | .idle =>
    if t.lock = none then
      some { t.setCpu c { t.cpu c with pc := .scan slots } with lock := some c }
    else none
  | .scan [] =>
    if t.lock = some c then some { t.setCpu c { t.cpu c with pc := .idle } with lock := none }
    else none
  | .scan (p :: rest) =>
    if (t.proc p).state = .RUNNABLE then some (t.setCpu c { t.cpu c with pc := .choose p rest })
    else some (t.setCpu c { t.cpu c with pc := .scan rest })
  | .choose p rest => some (t.setCpu c ⟨some p, .start p rest⟩)
  | .start p rest =>
    some ((t.put p { t.proc p with state := .RUNNING }).setCpu c
      { t.cpu c with pc := .swtch p rest })
  | .swtch p rest => some (t.setCpu c { t.cpu c with pc := .away p rest })
  | .away _ _ => none
  | .back _ rest => some (t.setCpu c ⟨none, .scan rest⟩)
  | .wakeup1 _ [] =>
    if t.lock = some c then some { t.setCpu c { t.cpu c with pc := .idle } with lock := none }
    else none
  | .wakeup1 chan (j :: rest) =>
    if (t.proc j).state = .SLEEPING ∧ (t.proc j).chan = chan then
      some ((t.put j { t.proc j with state := .RUNNABLE }).setCpu c
        { t.cpu c with pc := .wakeup1 chan rest })
    else some (t.setCpu c { t.cpu c with pc := .wakeup1 chan rest })

/-! ## The system -/

def step [DecidableEq κ] (t : Table κ) : Label κ → Option (Table κ)
  | .sched c => schedStep t c (t.cpu c).pc
  | .wakeup c chan =>
    match (t.cpu c).pc with
    | .idle =>
      if t.lock = none then
        some { t.setCpu c { t.cpu c with pc := .wakeup1 chan slots } with lock := some c }
      else none
    | _ => none
  | .thread c ch =>
    match (t.cpu c).pc with
    | .away i rest =>
      match (t.thread i).crit, ch with
      | none, ch => mainStep t c i ch
      | some k, .go b => critStep t c i rest b k
      | some _, _ => none
    | _ => none

/-! ## What a step does -/

/-- The sections a process can enter from `main`. -/
inductive Enters (i : SlotId) : Main → Crit → Prop where
  | yield (m : Main) : Enters i m .yield
  | wakeup (m : Main) (chan : Chan) : Enters i m (.wakeup1 chan slots .release)
  | exit : i ≠ initproc → Enters i .run .exit
  | wait : Enters i .run (.waitScan slots false)
  | sleep (chan : Chan) : Enters i .run (.sleep chan .release)
  | publish (j : SlotId) (pid : Word) : Enters i (.publish j pid) .publish

inductive Goes (t : Table κ) : Main → Main → Prop where
  | fork : Goes t .run (.scan slots)
  | full : Goes t (.scan []) .run
  | used (j : SlotId) (rest : List SlotId) : Goes t (.scan (j :: rest)) (.scan rest)
  | read (j : SlotId) : Goes t (.pidRead j) (.pidCas j t.nextpid)
  | retry (j : SlotId) (localPid : Word) : Goes t (.pidCas j localPid) (.pidRead j)
  | readPid (j : SlotId) : Goes t (.readPid j) (.publish j (t.proc j).pid)

inductive Jumps (t : Table κ) (i : SlotId) : Crit → Crit → Prop where
  | resumed (k : Cont) : Jumps t i (.resumed k) k.crit
  | woken (chan : Chan) (k : Cont) : Jumps t i (.wakeup1 chan [] k) k.crit
  | awake (chan : Chan) (j : SlotId) (js : List SlotId) (k : Cont) :
      Jumps t i (.wakeup1 chan (j :: js) k) (.wakeup1 chan js k)
  | exit : Jumps t i .exit (.wakeup1 (chanOf (t.proc i).parent) slots (.reparent slots))
  | reparented : Jumps t i (.reparent []) .zombie
  | child (j : SlotId) (js : List SlotId) : (t.proc j).parent = some i →
      Jumps t i (.reparent (j :: js)) (.adopt j js)
  | stranger (j : SlotId) (js : List SlotId) : (t.proc j).parent ≠ some i →
      Jumps t i (.reparent (j :: js)) (.reparent js)
  | tellInit (j : SlotId) (js : List SlotId) :
      Jumps t i (.adopted j js) (.wakeup1 (.proc initproc) slots (.reparent js))
  | adopted (j : SlotId) (js : List SlotId) : Jumps t i (.adopted j js) (.reparent js)
  | waitFail (havekids : Bool) : Jumps t i (.waitScan [] havekids) .release
  | waitSleep (havekids : Bool) :
      Jumps t i (.waitScan [] havekids) (.sleep (.proc i) .rescan)
  | waitChild (j : SlotId) (js : List SlotId) (havekids : Bool) : (t.proc j).parent = some i →
      Jumps t i (.waitScan (j :: js) havekids) (.waitState j js)
  | waitStranger (j : SlotId) (js : List SlotId) (havekids : Bool) :
      Jumps t i (.waitScan (j :: js) havekids) (.waitScan js havekids)
  | waitFound (j : SlotId) (js : List SlotId) : (t.proc j).state = .ZOMBIE →
      Jumps t i (.waitState j js) (.waitPid j)
  | waitAlive (j : SlotId) (js : List SlotId) : Jumps t i (.waitState j js) (.waitScan js true)
  | waitPid (j : SlotId) : Jumps t i (.waitPid j) (.waitStack j
      ⟨(t.proc j).pid, (t.proc j).ppid, (t.proc i).pid, none, none⟩)

/-- A step of process `i`, on CPU `c`, outside of critical sections. -/
inductive Runs (t : Table κ) (c : κ) (i : SlotId) : Main → Table κ → Prop where
  | enter (m : Main) (k : Crit) : Enters i m k → t.lock = none →
      Runs t c i m { t.next i k with lock := some c }
  | goes (m m' : Main) : Goes t m m' → Runs t c i m (t.goto i m')
  | stay (m : Main) : Runs t c i m t
  | sigkill (m : Main) : (t.proc i).state = .SLEEPING →
      Runs t c i m (t.put i { t.proc i with state := .RUNNABLE })
  | claim (j : SlotId) (rest : List SlotId) : (t.proc j).state = .UNUSED →
      Runs t c i (.scan (j :: rest))
        ((t.put j { t.proc j with state := .EMBRYO }).goto i (.pidRead j))
  | cas (j : SlotId) (localPid : Word) : t.nextpid = localPid →
      Runs t c i (.pidCas j localPid)
        ({ t with nextpid := localPid + 1, allocs := t.allocs + 1 }.goto i
          (.pidStore j (localPid + 1)))
  | pidStore (j : SlotId) (pid : Word) :
      Runs t c i (.pidStore j pid) ((t.put j { t.proc j with pid }).goto i (.kalloc j))
  | kalloc (j : SlotId) : Runs t c i (.kalloc j)
      (({ t with
        pages := t.pages + 1
        thread := update t.thread j newborn }.put j
          { t.proc j with kstack := some t.pages }).goto i (.copyuvm j))
  | noStack (j : SlotId) :
      Runs t c i (.kalloc j) ((t.put j { t.proc j with kstack := none }).goto i (.giveUp j))
  | copyuvm (j : SlotId) : Runs t c i (.copyuvm j)
      (({ t with pages := t.pages + 1 }.put j
        { t.proc j with pgdir := some t.pages, dir := some t.pages }).goto i (.setParent j))
  | noDir (j : SlotId) :
      Runs t c i (.copyuvm j) ((t.put j { t.proc j with pgdir := none }).goto i (.freeStack j))
  | freeStack (j : SlotId) (p : Page) : (t.proc j).kstack = some p →
      Runs t c i (.freeStack j) (({ t with freed := p :: t.freed }.put j
        { t.proc j with kstack := none }).goto i (.giveUp j))
  | giveUp (j : SlotId) :
      Runs t c i (.giveUp j) ((t.put j { t.proc j with state := .UNUSED }).goto i .run)
  | setParent (j : SlotId) : Runs t c i (.setParent j)
      ((t.put j { t.proc j with parent := some i, ppid := (t.proc i).pid }).goto i (.readPid j))
  | exec (p : Page) : (t.proc i).pgdir = some p →
      Runs t c i .run ({ t with freed := p :: t.freed, pages := t.pages + 1 }.put i
        { t.proc i with pgdir := some t.pages, dir := some t.pages })

section Stepped

variable {t t' : Table κ} {c : κ} {i : SlotId}

theorem enter_eq_some {k : Crit} (h : t.enter c i k = some t') :
    t.lock = none ∧ t' = { t.next i k with lock := some c } := by
  unfold enter at h
  split at h
  · next hl =>
    cases h
    exact ⟨hl, rfl⟩
  · cases h

theorem free_eq_some {p : Option Page} (h : free t p = some t') :
    ∃ q, p = some q ∧ t' = { t with freed := q :: t.freed } := by
  obtain ⟨q, hq, rfl⟩ := Option.map_eq_some_iff.mp h
  exact ⟨q, hq, rfl⟩

theorem enters {m : Main} {k : Crit} (he : Enters i m k) (h : t.enter c i k = some t') :
    Runs t c i m t' := by
  obtain ⟨hl, rfl⟩ := enter_eq_some h
  exact .enter m k he hl

theorem forkStep_runs {b : Bool} {m : Main} (h : forkStep t c i b m = some t') :
    Runs t c i m t' := by
  cases m with
  | run => cases h
  | scan rest =>
    cases rest with
    | nil => cases h; exact .goes _ _ .full
    | cons j rest =>
      simp only [forkStep] at h
      split at h
      · next hs => cases h; exact .claim j rest hs
      · cases h; exact .goes _ _ (.used j rest)
  | pidRead j => cases h; exact .goes _ _ (.read j)
  | pidCas j localPid =>
    simp only [forkStep] at h
    split at h
    · next hn => cases h; exact .cas j localPid hn
    · cases h; exact .goes _ _ (.retry j localPid)
  | pidStore j pid => cases h; exact .pidStore j pid
  | kalloc j => cases b <;> cases h; exacts [.noStack j, .kalloc j]
  | copyuvm j => cases b <;> cases h; exacts [.noDir j, .copyuvm j]
  | freeStack j =>
    obtain ⟨t₁, hfree, h⟩ := Option.bind_eq_some_iff.mp h
    obtain ⟨p, hp, rfl⟩ := free_eq_some hfree
    cases h
    exact .freeStack j p hp
  | giveUp j => cases h; exact .giveUp j
  | setParent j => cases h; exact .setParent j
  | readPid j => cases h; exact .goes _ _ (.readPid j)
  | publish j pid => exact enters (.publish j pid) h

theorem mainStep_runs {ch : Choice} (h : mainStep t c i ch = some t') :
    Runs t c i (t.thread i).main t' := by
  unfold mainStep at h
  split at h
  · exact enters (.yield _) h
  · next chan => exact enters (.wakeup _ chan) h
  · split at h
    · next hs => cases h; exact .sigkill _ hs
    · cases h; exact .stay _
  · exact forkStep_runs h
  · next hm => cases h; rw [hm]; exact .goes _ _ .fork
  · next hm =>
    rw [hm]
    split at h
    · cases h
    · next hi => exact enters (.exit hi) h
  · next hm => rw [hm]; exact enters .wait h
  · next chan hm => rw [hm]; exact enters (.sleep chan) h
  · next hm =>
    rw [hm]
    obtain ⟨t₁, hfree, h⟩ := Option.bind_eq_some_iff.mp h
    obtain ⟨p, hp, rfl⟩ := free_eq_some hfree
    cases h
    exact .exec p hp
  · cases h

variable [DecidableEq κ]

/-- A step of the scheduler of CPU `c`, or of an interrupt handler there. -/
inductive Schedules (t : Table κ) (c : κ) : Table κ → Prop where
  | acquire (pc : CpuPc) : (t.cpu c).pc = .idle → t.lock = none →
      (pc = .scan slots ∨ ∃ chan, pc = .wakeup1 chan slots) →
      Schedules t c { t.setCpu c { t.cpu c with pc } with lock := some c }
  | release : ((t.cpu c).pc = .scan [] ∨ ∃ chan, (t.cpu c).pc = .wakeup1 chan []) →
      t.lock = some c → Schedules t c { t.setCpu c { t.cpu c with pc := .idle } with lock := none }
  | skip (p : SlotId) (rest : List SlotId) : (t.cpu c).pc = .scan (p :: rest) →
      Schedules t c (t.setCpu c { t.cpu c with pc := .scan rest })
  | choose (p : SlotId) (rest : List SlotId) : (t.cpu c).pc = .scan (p :: rest) →
      (t.proc p).state = .RUNNABLE →
      Schedules t c (t.setCpu c { t.cpu c with pc := .choose p rest })
  | current (p : SlotId) (rest : List SlotId) : (t.cpu c).pc = .choose p rest →
      Schedules t c (t.setCpu c ⟨some p, .start p rest⟩)
  | start (p : SlotId) (rest : List SlotId) : (t.cpu c).pc = .start p rest →
      Schedules t c ((t.put p { t.proc p with state := .RUNNING }).setCpu c
        { t.cpu c with pc := .swtch p rest })
  | swtch (p : SlotId) (rest : List SlotId) : (t.cpu c).pc = .swtch p rest →
      Schedules t c (t.setCpu c { t.cpu c with pc := .away p rest })
  | back (p : SlotId) (rest : List SlotId) : (t.cpu c).pc = .back p rest →
      Schedules t c (t.setCpu c ⟨none, .scan rest⟩)
  | awake (chan : Chan) (j : SlotId) (rest : List SlotId) :
      (t.cpu c).pc = .wakeup1 chan (j :: rest) →
      Schedules t c (t.setCpu c { t.cpu c with pc := .wakeup1 chan rest })
  | wake (chan : Chan) (j : SlotId) (rest : List SlotId) :
      (t.cpu c).pc = .wakeup1 chan (j :: rest) → (t.proc j).state = .SLEEPING →
      Schedules t c ((t.put j { t.proc j with state := .RUNNABLE }).setCpu c
        { t.cpu c with pc := .wakeup1 chan rest })

/-- A step of process `i`, on CPU `c`, in a critical section. -/
inductive Works (t : Table κ) (c : κ) (i : SlotId) (rest : List SlotId) :
    Crit → Table κ → Prop where
  | jumps (k k' : Crit) : Jumps t i k k' → Works t c i rest k (t.next i k')
  | release : t.lock = some c → Works t c i rest .release (t.leave i)
  | publish (j : SlotId) (pid : Word) : (t.thread i).main = .publish j pid →
      Works t c i rest .publish
        (((t.put j { t.proc j with state := .RUNNABLE }).goto i .run).next i .release)
  | yield : Works t c i rest .yield
      ((t.put i { t.proc i with state := .RUNNABLE }).next i (.sched .release))
  | sleep (chan : Chan) (k : Cont) :
      Works t c i rest (.sleep chan k) ((t.put i { t.proc i with chan }).next i (.asleep k))
  | asleep (k : Cont) : Works t c i rest (.asleep k)
      ((t.put i { t.proc i with state := .SLEEPING }).next i (.sched (.tidy k)))
  | tidy (k : Cont) :
      Works t c i rest (.tidy k) ((t.put i { t.proc i with chan := .null }).next i k.crit)
  | sched (k : Cont) : t.lock = some c → (t.proc i).state ≠ .RUNNING →
      Works t c i rest (.sched k)
        ((t.next i (.resumed k)).setCpu c { t.cpu c with pc := .back i rest })
  | wake (chan : Chan) (j : SlotId) (js : List SlotId) (k : Cont) :
      (t.proc j).state = .SLEEPING → Works t c i rest (.wakeup1 chan (j :: js) k)
        ((t.put j { t.proc j with state := .RUNNABLE }).next i (.wakeup1 chan js k))
  | adopt (j : SlotId) (js : List SlotId) : Works t c i rest (.adopt j js)
      ((t.put j { t.proc j with
        parent := some initproc, ppid := (t.proc initproc).pid }).next i (.adopted j js))
  | zombie : Works t c i rest .zombie
      ((t.put i { t.proc i with state := .ZOMBIE }).next i (.sched .dead))
  | waitStack (j : SlotId) (r : Reap) (p : Page) : (t.proc j).kstack = some p →
      Works t c i rest (.waitStack j r) (({ t with freed := p :: t.freed }.put j
        { t.proc j with kstack := none }).next i (.waitDir j { r with stack := some p }))
  | waitDir (j : SlotId) (r : Reap) (p : Page) : (t.proc j).pgdir = some p →
      Works t c i rest (.waitDir j r) (({ t with freed := p :: t.freed }.put j
        { t.proc j with dir := none }).next i (.waitClear j { r with dir := some p }))
  | waitClear (j : SlotId) (r : Reap) : Works t c i rest (.waitClear j r)
      ((t.put j { t.proc j with pid := 0 }).next i (.waitOrphan j r))
  | waitOrphan (j : SlotId) (r : Reap) : Works t c i rest (.waitOrphan j r)
      ((t.put j { t.proc j with parent := none }).next i (.waitUnused j r))
  | waitUnused (j : SlotId) (r : Reap) : Works t c i rest (.waitUnused j r)
      ((t.put j { t.proc j with state := .UNUSED }).next i (.waitReturn r))
  | waitReturn (r : Reap) : t.lock = some c →
      Works t c i rest (.waitReturn r) { t.leave i with returned := r :: t.returned }

inductive Stepped (t : Table κ) : Table κ → Prop where
  | sched (c : κ) {t' : Table κ} : Schedules t c t' → Stepped t t'
  | main (c : κ) (i : SlotId) (rest : List SlotId) {t' : Table κ} :
      (t.cpu c).pc = .away i rest → (t.thread i).crit = none →
      Runs t c i (t.thread i).main t' → Stepped t t'
  | crit (c : κ) (i : SlotId) (rest : List SlotId) (k : Crit) {t' : Table κ} :
      (t.cpu c).pc = .away i rest → (t.thread i).crit = some k →
      Works t c i rest k t' → Stepped t t'

theorem schedStep_schedules (h : schedStep t c (t.cpu c).pc = some t') : Schedules t c t' := by
  generalize hpc : (t.cpu c).pc = pc at h
  cases pc with
  | idle =>
    simp only [schedStep] at h
    split at h
    · next hl => cases h; exact .acquire _ hpc hl (.inl rfl)
    · cases h
  | scan rest =>
    cases rest with
    | nil =>
      simp only [schedStep] at h
      split at h
      · next hl => cases h; exact .release (.inl hpc) hl
      · cases h
    | cons p rest =>
      simp only [schedStep] at h
      split at h
      · next hr => cases h; exact .choose p rest hpc hr
      · cases h; exact .skip p rest hpc
  | choose p rest => cases h; exact .current p rest hpc
  | start p rest => cases h; exact .start p rest hpc
  | swtch p rest => cases h; exact .swtch p rest hpc
  | away p rest => cases h
  | back p rest => cases h; exact .back p rest hpc
  | wakeup1 chan rest =>
    cases rest with
    | nil =>
      simp only [schedStep] at h
      split at h
      · next hl => cases h; exact .release (.inr ⟨chan, hpc⟩) hl
      · cases h
    | cons j rest =>
      simp only [schedStep] at h
      split at h
      · next hs => cases h; exact .wake chan j rest hpc hs.1
      · cases h; exact .awake chan j rest hpc

theorem critStep_works {rest : List SlotId} {b : Bool} {k : Crit}
    (h : critStep t c i rest b k = some t') : Works t c i rest k t' := by
  cases k with
  | release =>
    simp only [critStep] at h
    split at h
    · next hl => cases h; exact .release hl
    · cases h
  | publish =>
    simp only [critStep] at h
    split at h
    · next j pid hm => cases h; exact .publish j pid hm
    · cases h
  | yield => cases h; exact .yield
  | sleep chan k => cases h; exact .sleep chan k
  | asleep k => cases h; exact .asleep k
  | tidy k => cases h; exact .tidy k
  | sched k =>
    simp only [critStep] at h
    split at h
    · next hs => cases h; exact .sched k hs.1 hs.2
    · cases h
  | resumed k => cases h; exact .jumps _ _ (.resumed k)
  | wakeup1 chan js k =>
    cases js with
    | nil => cases h; exact .jumps _ _ (.woken chan k)
    | cons j js =>
      simp only [critStep] at h
      split at h
      · next hs => cases h; exact .wake chan j js k hs.1
      · cases h; exact .jumps _ _ (.awake chan j js k)
  | exit => cases h; exact .jumps _ _ .exit
  | reparent js =>
    cases js with
    | nil => cases h; exact .jumps _ _ .reparented
    | cons j js =>
      simp only [critStep] at h
      split at h
      · next hp => cases h; exact .jumps _ _ (.child j js hp)
      · next hp => cases h; exact .jumps _ _ (.stranger j js hp)
  | adopt j js => cases h; exact .adopt j js
  | adopted j js =>
    simp only [critStep] at h
    split at h
    · cases h; exact .jumps _ _ (.tellInit j js)
    · cases h; exact .jumps _ _ (.adopted j js)
  | zombie => cases h; exact .zombie
  | dead => cases h
  | waitScan js havekids =>
    cases js with
    | nil =>
      simp only [critStep] at h
      split at h
      · cases h; exact .jumps _ _ (.waitFail havekids)
      · cases h; exact .jumps _ _ (.waitSleep havekids)
    | cons j js =>
      simp only [critStep] at h
      split at h
      · next hp => cases h; exact .jumps _ _ (.waitChild j js havekids hp)
      · cases h; exact .jumps _ _ (.waitStranger j js havekids)
  | waitState j js =>
    simp only [critStep] at h
    split at h
    · next hz => cases h; exact .jumps _ _ (.waitFound j js hz)
    · cases h; exact .jumps _ _ (.waitAlive j js)
  | waitPid j => cases h; exact .jumps _ _ (.waitPid j)
  | waitStack j r =>
    obtain ⟨t₁, hfree, h⟩ := Option.bind_eq_some_iff.mp h
    obtain ⟨p, hp, rfl⟩ := free_eq_some hfree
    cases h
    rw [hp]
    exact .waitStack j r p hp
  | waitDir j r =>
    obtain ⟨t₁, hfree, h⟩ := Option.bind_eq_some_iff.mp h
    obtain ⟨p, hp, rfl⟩ := free_eq_some hfree
    cases h
    rw [hp]
    exact .waitDir j r p hp
  | waitClear j r => cases h; exact .waitClear j r
  | waitOrphan j r => cases h; exact .waitOrphan j r
  | waitUnused j r => cases h; exact .waitUnused j r
  | waitReturn r =>
    simp only [critStep] at h
    split at h
    · next hl => cases h; exact .waitReturn r hl
    · cases h

theorem step_stepped {l : Label κ} (h : step t l = some t') : Stepped t t' := by
  cases l with
  | sched c => exact .sched c (schedStep_schedules h)
  | wakeup c chan =>
    simp only [step] at h
    split at h
    · next hpc =>
      split at h
      · next hl => cases h; exact .sched c (.acquire _ hpc hl (.inr ⟨chan, rfl⟩))
      · cases h
    · cases h
  | thread c ch =>
    simp only [step] at h
    split at h
    · next i rest hpc =>
      split at h
      · next hk => exact .main c i rest hpc hk (mainStep_runs h)
      · next k b hk => exact .crit c i rest k hpc hk (critStep_works h)
      · cases h
    · cases h

end Stepped

def unused : Entry := ⟨.UNUSED, 0, none, .null, none, none, none, 0⟩

/-- The table when the CPUs enter the scheduler: `userinit` has made the first
process, whose kernel stack and page table are pages 0 and 1. -/
def start : Table κ where
  proc := fun i =>
    if i = initproc then ⟨.RUNNABLE, 2, none, .null, some 0, some 1, some 1, 0⟩ else unused
  thread := fun i => if i = initproc then newborn else ⟨.run, some (.resumed .dead)⟩
  cpu := fun _ => ⟨none, .idle⟩
  lock := none
  nextpid := 2
  allocs := 1
  pages := 2
  freed := []
  returned := []

end Xv6.Ptable
