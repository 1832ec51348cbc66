import Mathlib
import Xv6.SigStep
import Xv6.SysPaths
import Xv6.Transition

/- The processes of a running system.

   A process is in user mode, in the kernel (in a system call, in `exit`, or in
   the first `forkret`), or on its way back through `trapret`. In the kernel it
   can be interrupted at any point; the interrupt ends in `trapret` too, and so in
   a pass of `check_kernel_sigs` on the same process. `passes` is the stack of
   the passes under way, innermost first: the code below a pass stands still until
   the pass is done.

   `slotStep` is what one process can do on its own, `machineStep` adds `fork`,
   `wait` and `kill`, which reach into another slot of the process table.
   `SlotStep` says how a slot changes in any step, and `machine_invariant` is the
   rule every property of slots is proved by.

   What is left open: the scheduler (any process may move at any time, which
   allows every schedule), the conditions of branches in system calls, the values
   they return where no variable here decides it, and the contents they write to
   user memory. User code is any code that runs in ring 3 with IOPL 0: it cannot
   change `cs`, `ss`, the interrupt flag or IOPL, and can load any other register
   and store to any mapped byte. A process that has left ring 3 is not followed
   further, and neither is a kernel that has paniced.

   Correspondence (C ↔ Lean):
     `ptable.proc[i]`                               ↔ `Machine`, `Slot`
     `int $T_SYSCALL`, `trap`, `syscall`            ↔ `Move.int`, `Move.ret`
     interrupts and faults in user mode             ↔ `Move.intr`, `Move.fault`
     an interrupt taken in kernel mode              ↔ `Move.irq`
     `trapret`: `check_kernel_sigs`, then `iret`    ↔ `Move.sig`, `Move.pop`, `Move.iret`
     `userinit` on the zeroed table                 ↔ `boot`
     `fork`, `wait`, `kill`                         ↔ `bornSlot`, `reapedSlot`, `killStep` -/
namespace Xv6
open Function Bits ByteMem Paths Transition

/-! ## The state -/

abbrev SlotId := Fin 64

/-- A system call in progress. -/
structure Call where
  sys : Sys
  entry : Proc
  /-- What `argint` has returned so far, `none` for -1. -/
  args : List (Option Word)
  result : Option Word

/-- Where a piece of kernel code goes when it ends. -/
inductive After where
  | sysret (c : Call)
  | exit
  | forkret

inductive Mode where
  | unused
  | user
  | kernel (k : List Path) (after : After)
  /-- On the way back to user mode, after the call (with its process at entry and
  its return value) if it was a system call. -/
  | trapret (call : Option (Sys × Proc × Word))
  | zombie

structure Slot where
  p : Proc
  mode : Mode
  passes : List Pc
  held : Held

abbrev Machine := SlotId → Slot

/-! ## One process -/

/-- The hardware lets user code go on only in ring 3, with IOPL 0. -/
def Ring3 (tf : Trapframe) : Prop := tf.cs &&& 3 = DPL_USER ∧ tf.eflags &&& FL_IOPL_MASK = 0

instance (tf : Trapframe) : Decidable (Ring3 tf) := by unfold Ring3; infer_instance

/-- What ring 3 code cannot change. -/
def SamePriv (tf tf' : Trapframe) : Prop :=
  tf'.cs = tf.cs ∧ tf'.ss = tf.ss ∧
    tf'.eflags &&& (FL_IF ||| FL_IOPL_MASK) = tf.eflags &&& (FL_IF ||| FL_IOPL_MASK)

instance (tf tf' : Trapframe) : Decidable (SamePriv tf tf') := by
  unfold SamePriv; infer_instance

inductive Move where
  /-- User code runs on: registers and memory change. -/
  | user (tf : Trapframe) (writes : List (Word × List Byte))
  | int
  | intr
  | fault
  | irq
  | sig
  | pop
  | iret
  | path (b : Bool)
  | act
  /-- The action `touch`, with the user memory it leaves. -/
  | touch (mem : Mem) (sz : Word)
  /-- The action `exec`, with the new image. -/
  | exec (mem : Mem) (sz eip esp : Word)
  | ret (v : Word)

def Slot.toExit (s : Slot) : Slot := { s with mode := .kernel [exit] .exit, passes := [] }

/-- The end of `trap`: fall through to `trapret`. -/
def Slot.toTrapret (s : Slot) (call : Option (Sys × Proc × Word)) : Slot :=
  { s with mode := .trapret call, passes := [.entry] }

/-- `exec` resets the handlers that are neither default nor ignored. -/
def resetHandlers (p : Proc) : Proc :=
  { p with handlers := fun i =>
      if p.handlers i ≠ SIG_DFL ∧ p.handlers i ≠ SIG_IGN then SIG_DFL else p.handlers i }

/-- The actions that only concern the process itself. -/
def actOn (p : Proc) (after : After) : Act → Option (Proc × After)
  | .argint n =>
    match after, argint p n with
    | .sysret c, .ok v => some (p, .sysret { c with args := c.args ++ [v] })
    | _, _ => none
  | .sigprocmask =>
    match after with
    | .sysret c =>
      match c.args with
      | [some sigmask] =>
        some ((sigprocmask sigmask p).1,
          .sysret { c with result := some (sigprocmask sigmask p).2 })
      | _ => none
    | _ => none
  | .signal =>
    match after with
    | .sysret c =>
      match c.args with
      | [some signum, some handler] =>
        some ((signal signum handler p).1,
          .sysret { c with result := some (signal signum handler p).2 })
      | _ => none
    | _ => none
  | .sigret =>
    match after, sigret p with
    | .sysret c, .ok p => some (p, .sysret { c with result := some 1 })
    | _, _ => none
  | .resetHandlers => some (resetHandlers p, after)
  | .acquiresleep | .releasesleep | .beginOp | .endOp => some (p, after)
  | .touch | .exec | .fork | .wait | .kill => none

def slotStep (s : Slot) : Move → Option Slot
  | .user tf writes =>
    match s.mode, storeAll s.p.mem writes with
    | .user, .ok mem =>
      if Ring3 s.p.tf ∧ SamePriv s.p.tf tf then some { s with p := { s.p with tf, mem } } else none
    | _, _ => none
  | .int =>
    match s.mode with
    | .user =>
      if Ring3 s.p.tf then
        if s.p.killed then some s.toExit
        else
          match lookupSyscall s.p.tf.eax with
          | some .exit => some s.toExit
          | some sys =>
            some { s with mode := .kernel [sysPath sys] (.sysret ⟨sys, s.p, [], none⟩) }
          | none => some ({ s with p := setEax s.p (-1) }.toTrapret none)
      else none
    | _ => none
  | .intr =>
    match s.mode with
    | .user =>
      if Ring3 s.p.tf then some (if s.p.killed then s.toExit else s.toTrapret none) else none
    | _ => none
  | .fault =>
    match s.mode with
    | .user =>
      if Ring3 s.p.tf then some { s with p := { s.p with killed := true } }.toExit else none
    | _ => none
  | .irq =>
    match s.mode with
    | .kernel _ _ | .trapret _ => some { s with passes := .entry :: s.passes }
    | _ => none
  | .sig =>
    match s.passes with
    | pc :: rest =>
      match sigStep s.p pc with
      | .ok (p, pc') => some { s with p, passes := pc' :: rest }
      | .error _ => none
    | [] => none
  | .pop =>
    match s.passes with
    | .done :: rest => some { s with passes := rest }
    | _ => none
  | .iret =>
    match s.mode, s.passes with
    | .trapret _, [] => some { s with mode := .user }
    | _, _ => none
  | .path b =>
    match s.mode, s.passes with
    | .kernel k after, [] => (next k b).map fun k => { s with mode := .kernel k after }
    | _, _ => none
  | .act =>
    match s.mode, s.passes with
    | .kernel (.act a :: k) after, [] =>
      match hold a s.held, actOn s.p after a with
      | some held, some (p, after) => some { s with p, held, mode := .kernel k after }
      | _, _ => none
    | _, _ => none
  | .touch mem sz =>
    match s.mode, s.passes with
    | .kernel (.act .touch :: k) after, [] =>
      some { s with p := { s.p with mem, sz }, mode := .kernel k after }
    | _, _ => none
  | .exec mem sz eip esp =>
    match s.mode, s.passes with
    | .kernel (.act .exec :: k) after, [] =>
      some { s with
        p := { s.p with mem, sz, tf := { s.p.tf with eip, esp } }
        mode := .kernel k after }
    | _, _ => none
  | .ret v =>
    match s.mode, s.passes with
    | .kernel [] (.sysret c), [] =>
      if c.result = none ∨ c.result = some v then
        some (if s.p.killed then { s with p := setEax s.p v }.toExit
          else { s with p := setEax s.p v }.toTrapret (some (c.sys, c.entry, v)))
      else none
    | .kernel [] .exit, [] => some { s with mode := .zombie, p := { s.p with state := .ZOMBIE } }
    | .kernel [] .forkret, [] => some (s.toTrapret none)
    | _, _ => none

/-- Apart from `sigret`, the actions of a process leave its frame and its memory
alone. -/
theorem actOn_user {p q : Proc} {after after' : After} {a : Act}
    (h : actOn p after a = some (q, after')) (ha : a ≠ .sigret) :
    q.tf = p.tf ∧ q.mem = p.mem ∧ q.sz = p.sz ∧ q.trapBackup = p.trapBackup := by
  cases a with
  | sigret => exact absurd rfl ha
  | signal =>
    simp only [actOn] at h
    split at h
    · split at h
      · cases h
        unfold signal
        split <;> exact ⟨rfl, rfl, rfl, rfl⟩
      · cases h
    · cases h
  | argint n =>
    simp only [actOn] at h
    split at h
    · cases h; exact ⟨rfl, rfl, rfl, rfl⟩
    · cases h
  | sigprocmask =>
    simp only [actOn] at h
    split at h
    · split at h
      · cases h; exact ⟨rfl, rfl, rfl, rfl⟩
      · cases h
    · cases h
  | resetHandlers | acquiresleep | releasesleep | beginOp | endOp =>
    cases h
    exact ⟨rfl, rfl, rfl, rfl⟩
  | touch | exec | fork | wait | kill => cases h

theorem actOn_sigret {p q : Proc} {after after' : After}
    (h : actOn p after .sigret = some (q, after')) : ∃ bs c,
      load p.mem p.trapBackup trapframeSize = .ok bs ∧ after = .sysret c ∧
      q = restoreMask { p with tf := .ofBytes bs } ∧
      after' = .sysret { c with result := some 1 } := by
  simp only [actOn, sigret] at h
  split at h
  · next c r hr =>
    obtain ⟨bs, hbs, hr⟩ := bind_ok_iff.mp hr
    cases hr
    cases h
    exact ⟨bs, c, hbs, rfl, rfl, rfl⟩
  · cases h

theorem actOn_trapBackup {p q : Proc} {after after' : After} {a : Act}
    (h : actOn p after a = some (q, after')) : q.trapBackup = p.trapBackup := by
  by_cases ha : a = .sigret
  · subst ha
    obtain ⟨bs, c, _, _, rfl, _⟩ := actOn_sigret h
    rfl
  · exact (actOn_user h ha).2.2.2

/-- What a move does, case by case. -/
inductive Moved (s : Slot) : Move → Slot → Prop where
  | user (tf : Trapframe) (writes : List (Word × List Byte)) (mem : Mem) : s.mode = .user →
      Ring3 s.p.tf → SamePriv s.p.tf tf → storeAll s.p.mem writes = .ok mem →
      Moved s (.user tf writes) { s with p := { s.p with tf, mem } }
  | intExit : s.mode = .user → Moved s .int s.toExit
  | intCall (sys : Sys) : s.mode = .user → lookupSyscall s.p.tf.eax = some sys →
      Moved s .int { s with mode := .kernel [sysPath sys] (.sysret ⟨sys, s.p, [], none⟩) }
  | intUnknown : s.mode = .user →
      Moved s .int ({ s with p := setEax s.p (-1) }.toTrapret none)
  | intrExit : s.mode = .user → Moved s .intr s.toExit
  | intr : s.mode = .user → Moved s .intr (s.toTrapret none)
  | fault : s.mode = .user → Moved s .fault { s with p := { s.p with killed := true } }.toExit
  | irqKernel (k : List Path) (after : After) : s.mode = .kernel k after →
      Moved s .irq { s with passes := .entry :: s.passes }
  | irqTrapret (call : Option (Sys × Proc × Word)) : s.mode = .trapret call →
      Moved s .irq { s with passes := .entry :: s.passes }
  | sig (pc pc' : Pc) (rest : List Pc) (p : Proc) : s.passes = pc :: rest →
      sigStep s.p pc = .ok (p, pc') → Moved s .sig { s with p, passes := pc' :: rest }
  | pop (rest : List Pc) : s.passes = .done :: rest → Moved s .pop { s with passes := rest }
  | iret (call : Option (Sys × Proc × Word)) : s.mode = .trapret call → s.passes = [] →
      Moved s .iret { s with mode := .user }
  | path (b : Bool) (k k' : List Path) (after : After) : s.mode = .kernel k after →
      s.passes = [] → next k b = some k' → Moved s (.path b) { s with mode := .kernel k' after }
  | act (a : Act) (k : List Path) (after after' : After) (held : Held) (p : Proc) :
      s.mode = .kernel (.act a :: k) after → s.passes = [] → hold a s.held = some held →
      actOn s.p after a = some (p, after') →
      Moved s .act { s with p, held, mode := .kernel k after' }
  | touch (mem : Mem) (sz : Word) (k : List Path) (after : After) :
      s.mode = .kernel (.act .touch :: k) after → s.passes = [] →
      Moved s (.touch mem sz) { s with p := { s.p with mem, sz }, mode := .kernel k after }
  | exec (mem : Mem) (sz eip esp : Word) (k : List Path) (after : After) :
      s.mode = .kernel (.act .exec :: k) after → s.passes = [] →
      Moved s (.exec mem sz eip esp) { s with
        p := { s.p with mem, sz, tf := { s.p.tf with eip, esp } }
        mode := .kernel k after }
  | retExit (v : Word) (c : Call) : s.mode = .kernel [] (.sysret c) → s.passes = [] →
      Moved s (.ret v) { s with p := setEax s.p v }.toExit
  | ret (v : Word) (c : Call) : s.mode = .kernel [] (.sysret c) → s.passes = [] →
      Moved s (.ret v) ({ s with p := setEax s.p v }.toTrapret (some (c.sys, c.entry, v)))
  | exited (v : Word) : s.mode = .kernel [] .exit → s.passes = [] →
      Moved s (.ret v) { s with mode := .zombie, p := { s.p with state := .ZOMBIE } }
  | forked (v : Word) : s.mode = .kernel [] .forkret → s.passes = [] →
      Moved s (.ret v) (s.toTrapret none)

theorem slotStep_moved {s s' : Slot} {mv : Move} (h : slotStep s mv = some s') :
    Moved s mv s' := by
  cases mv with
  | user tf writes =>
    simp only [slotStep] at h
    split at h
    · next mem hm hmem =>
      split at h
      · next hr => cases h; exact .user tf writes mem hm hr.1 hr.2 hmem
      · cases h
    · cases h
  | int =>
    simp only [slotStep] at h
    split at h
    · next hm =>
      split at h
      · split at h
        · cases h; exact .intExit hm
        · split at h
          · cases h; exact .intExit hm
          · next sys _ hsys => cases h; exact .intCall sys hm hsys
          · cases h; exact .intUnknown hm
      · cases h
    · cases h
  | intr =>
    simp only [slotStep] at h
    split at h
    · next hm =>
      split at h
      · cases h
        split
        · exact .intrExit hm
        · exact .intr hm
      · cases h
    · cases h
  | fault =>
    simp only [slotStep] at h
    split at h
    · next hm =>
      split at h
      · cases h; exact .fault hm
      · cases h
    · cases h
  | irq =>
    simp only [slotStep] at h
    split at h
    · next k after hm => cases h; exact .irqKernel k after hm
    · next call hm => cases h; exact .irqTrapret call hm
    · cases h
  | sig =>
    simp only [slotStep] at h
    split at h
    · next pc rest hp =>
      split at h
      · next p pc' hs => cases h; exact .sig pc pc' rest p hp hs
      · cases h
    · cases h
  | pop =>
    simp only [slotStep] at h
    split at h
    · next rest hp => cases h; exact .pop rest hp
    · cases h
  | iret =>
    simp only [slotStep] at h
    split at h
    · next call hm hp => cases h; exact .iret call hm hp
    · cases h
  | path b =>
    simp only [slotStep] at h
    split at h
    · next k after hm hp =>
      obtain ⟨k', hk, rfl⟩ := Option.map_eq_some_iff.mp h
      exact .path b k k' after hm hp hk
    · cases h
  | act =>
    simp only [slotStep] at h
    split at h
    · next a k after hm hp =>
      split at h
      · next held p after' hh ha => cases h; exact .act a k after after' held p hm hp hh ha
      · cases h
    · cases h
  | touch mem sz =>
    simp only [slotStep] at h
    split at h
    · next k after hm hp => cases h; exact .touch mem sz k after hm hp
    · cases h
  | exec mem sz eip esp =>
    simp only [slotStep] at h
    split at h
    · next k after hm hp => cases h; exact .exec mem sz eip esp k after hm hp
    · cases h
  | ret v =>
    simp only [slotStep] at h
    split at h
    · next c hm hp =>
      split at h
      · cases h
        split
        · exact .retExit v c hm hp
        · exact .ret v c hm hp
      · cases h
    · next hm hp => cases h; exact .exited v hm hp
    · next hm hp => cases h; exact .forked v hm hp
    · cases h

/-! ## The process table -/

/-- The action at the head of the code, done with the return value `r`. -/
def Slot.finish (s : Slot) (a : Act) (r : Word) : Option Slot :=
  match s.mode, s.passes with
  | .kernel (.act b :: k) (.sysret c), [] =>
    if b = a then some { s with mode := .kernel k (.sysret { c with result := some r }) } else none
  | _, _ => none

/-- What `fork` makes of an unused slot. What it does not assign stays as the slot's
last owner left it: `mask_backup` and `trap_backup` among it. -/
def bornSlot (parent : Proc) (s : Slot) (pid : Word) : Slot where
  p := { s.p with
    sz := parent.sz
    mem := parent.mem
    state := .RUNNABLE
    pid
    tf := { parent.tf with eax := 0 }
    pending := 0
    mask := parent.mask
    handlers := parent.handlers }
  mode := .trapret none
  passes := [.entry]
  held := .nothing

def reapedSlot (s : Slot) : Slot :=
  { s with p := { s.p with pid := 0, killed := false, state := .UNUSED }, mode := .unused }

/-- The target of `kill(pid, ..)`: the first slot with this pid. -/
def findPid (m : Machine) (pid : Word) : Option SlotId :=
  (List.finRange 64).find? fun j => (m j).p.pid = pid

/-- The slot after a `kill` has set the bit of `t`. -/
def Slot.signalled (s : Slot) (t : Sig) : Slot :=
  { s with p := { s.p with pending := s.p.pending ||| bit t } }

/-- `kill(pid, signum)`: the new table, and the return value. -/
def killStep (m : Machine) (pid signum : Word) : Machine × Word :=
  match legalSignum signum with
  | none => (m, -1)
  | some t =>
    match findPid m pid with
    | none => (m, -1)
    | some j => (update m j ((m j).signalled t), 0)

def Slot.args (s : Slot) : List (Option Word) :=
  match s.mode with
  | .kernel _ (.sysret c) => c.args
  | _ => []

inductive Label where
  | own (i : SlotId) (mv : Move)
  /-- `fork` by `i`: the child goes to slot `j`, or there is none. -/
  | fork (i j : SlotId) (pid : Word)
  | forkFail (i : SlotId)
  | wait (i j : SlotId)
  | waitFail (i : SlotId)
  | kill (i : SlotId)

def machineStep (m : Machine) : Label → Option Machine
  | .own i mv => (slotStep (m i) mv).map (update m i)
  | .fork i j pid =>
    match (m i).finish .fork pid, (m j).mode with
    | some s, .unused =>
      some (update (update m i s) j (bornSlot (m i).p (m j) pid))
    | _, _ => none
  | .forkFail i => ((m i).finish .fork (-1)).map (update m i)
  | .wait i j =>
    match (m i).finish .wait (m j).p.pid, (m j).mode with
    | some s, .zombie => some (update (update m i s) j (reapedSlot (m j)))
    | _, _ => none
  | .waitFail i => ((m i).finish .wait (-1)).map (update m i)
  | .kill i =>
    match (m i).args with
    | [some pid, some signum] =>
      ((m i).finish .kill (killStep m pid signum).2).map fun s =>
        (killStep (update m i s) pid signum).1
    | _ => none

def zeroProc : Proc where
  sz := 0
  mem := fun _ => none
  state := .UNUSED
  pid := 0
  tf := .zero
  killed := false
  pending := 0
  mask := 0
  maskBackup := 0
  handlers := fun _ => 0
  trapBackup := 0

/-- The first process, with the code `initcode` in its one page. -/
def userinit (initcode : Word → Byte) : Proc :=
  { zeroProc with
    sz := PGSIZE
    mem := fun a => if a < PGSIZE then some (initcode a) else none
    state := .RUNNABLE
    pid := 2
    tf := userinitFrame
    mask := 0xffffffff
    pending := 0
    handlers := fun _ => SIG_DFL }

/-- The table when the scheduler starts. -/
def boot (initcode : Word → Byte) : Machine := fun i =>
  if i = 0 then ⟨userinit initcode, .kernel [forkretFirst] .forkret, [], .nothing⟩
  else ⟨zeroProc, .unused, [], .nothing⟩

/-! ## How a slot changes -/

/-- The ways a slot can change in the table `m`, where the moves of its own
process meet `C`. -/
inductive SlotStep (C : Slot → Move → Prop) (m : Machine) : Slot → Slot → Prop where
  | own {s s' : Slot} (mv : Move) : C s mv → Moved s mv s' → SlotStep C m s s'
  | finish {s s' : Slot} (a : Act) (r : Word) : (a = .fork ∨ a = .wait ∨ a = .kill) →
      s.finish a r = some s' → SlotStep C m s s'
  | signalled (s : Slot) (t : Sig) : SlotStep C m s (s.signalled t)
  | born {s t : Slot} (i : SlotId) (pid : Word) : s.mode = .unused →
      (m i).finish .fork pid = some t → SlotStep C m s (bornSlot (m i).p s pid)
  | reaped {s : Slot} : s.mode = .zombie → SlotStep C m s (reapedSlot s)

/-- The moves of the step meet `C`. -/
def OwnMoves (C : Slot → Move → Prop) (m : Machine) : Label → Prop
  | .own i mv => C (m i) mv
  | _ => True

/-- The moves of process `i` meet `C`. -/
def MovesOf (i : SlotId) (C : Slot → Move → Prop) (m : Machine) (l : Label) : Prop := ∀ mv, l = .own i mv → C (m i) mv

instance {C : Slot → Move → Prop} [∀ s mv, Decidable (C s mv)] (m : Machine) :
    (l : Label) → Decidable (OwnMoves C m l)
  | .own i mv => inferInstanceAs (Decidable (C (m i) mv))
  | .fork _ _ _ | .forkFail _ | .wait _ _ | .waitFail _ | .kill _ => isTrue trivial

section Slots

variable {C : Slot → Move → Prop} {m m' : Machine}

theorem update_slot {i : SlotId} {s : Slot} (h : Relation.ReflTransGen (SlotStep C m) (m i) s)
    (j : SlotId) : Relation.ReflTransGen (SlotStep C m) (m j) (update m i s j) := by
  by_cases hj : j = i
  · subst hj
    rw [update_self]
    exact h
  · rw [update_of_ne hj]

theorem update_two_slots {i j : SlotId} {s t : Slot} (hij : i ≠ j)
    (hs : SlotStep C m (m i) s) (ht : SlotStep C m (m j) t) (n : SlotId) :
    Relation.ReflTransGen (SlotStep C m) (m n)
      (update (update m i s) j t n) := by
  by_cases hn : n = j
  · subst hn
    rw [update_self]
    exact .single ht
  · rw [update_of_ne hn]
    exact update_slot (.single hs) n

theorem finish_mode {s s' : Slot} {a : Act} {r : Word} (h : s.finish a r = some s') :
    ∃ k c, s.mode = .kernel (.act a :: k) (.sysret c) ∧ s.passes = [] ∧
      s' = { s with mode := .kernel k (.sysret { c with result := some r }) } := by
  unfold Slot.finish at h
  split at h
  · next b k c hmode hpasses =>
    split at h
    · next hb =>
      cases h
      exact ⟨k, c, hb ▸ hmode, hpasses, rfl⟩
    · cases h
  · cases h

theorem finish_ne {i j : SlotId} {s : Slot} {a : Act} {r : Word}
    (h : (m i).finish a r = some s) (hj : (m j).mode = .unused ∨ (m j).mode = .zombie) :
    i ≠ j := by
  intro hij
  obtain ⟨k, c, hmode, _⟩ := finish_mode h
  rw [hij] at hmode
  rcases hj with hj | hj <;> rw [hj] at hmode <;> cases hmode

theorem machineStep_slot {l : Label} (hstep : machineStep m l = some m') (n : SlotId)
    (hC : ∀ mv, l = .own n mv → C (m n) mv) : Relation.ReflTransGen (SlotStep C m) (m n) (m' n) := by
  cases l with
  | own i mv =>
    obtain ⟨s, hs, rfl⟩ := Option.map_eq_some_iff.mp hstep
    by_cases hn : n = i
    · subst hn
      rw [update_self]
      exact .single (.own mv (hC mv rfl) (slotStep_moved hs))
    · rw [update_of_ne hn]
  | fork i j pid =>
    simp only [machineStep] at hstep
    split at hstep
    · next s hs hj =>
      cases hstep
      exact update_two_slots (finish_ne hs (.inl hj)) (.finish .fork pid (.inl rfl) hs)
        (.born i pid hj hs) n
    · cases hstep
  | forkFail i =>
    obtain ⟨s, hs, rfl⟩ := Option.map_eq_some_iff.mp hstep
    exact update_slot (.single (.finish .fork (-1) (.inl rfl) hs)) n
  | wait i j =>
    simp only [machineStep] at hstep
    split at hstep
    · next s hs hj =>
      cases hstep
      exact update_two_slots (finish_ne hs (.inr hj)) (.finish .wait _ (.inr (.inl rfl)) hs)
        (.reaped hj) n
    · cases hstep
  | waitFail i =>
    obtain ⟨s, hs, rfl⟩ := Option.map_eq_some_iff.mp hstep
    exact update_slot (.single (.finish .wait (-1) (.inr (.inl rfl)) hs)) n
  | kill i =>
    simp only [machineStep] at hstep
    split at hstep
    · next pid signum _ =>
      obtain ⟨s, hs, rfl⟩ := Option.map_eq_some_iff.mp hstep
      -- the caller's slot first, then the target's, which may be the same
      have hfinish := update_slot
        (.single (.finish (C := C) (m := m) .kill _ (.inr (.inr rfl)) hs)) n
      unfold killStep
      split
      · exact hfinish
      · next t _ =>
        split
        · exact hfinish
        · next j _ =>
          dsimp only
          by_cases hn : n = j
          · subst hn
            rw [update_self]
            exact hfinish.tail (.signalled _ t)
          · rw [update_of_ne hn]
            exact hfinish
    · cases hstep

/-- What every change of a slot preserves holds of all slots, in every state of
every run whose moves meet `C`. -/
theorem machine_invariant {P : Slot → Prop} {initcode : Word → Byte}
    (hboot : ∀ i, P (boot initcode i))
    (hstep : ∀ (m : Machine) (s s' : Slot), (∀ i, P (m i)) → P s → SlotStep C m s s' → P s')
    {ls : List Label} (hC : Along machineStep (OwnMoves C) (boot initcode) ls)
    (hrun : run machineStep (boot initcode) ls = some m) (i : SlotId) : P (m i) := by
  have hinv : ∀ i, P (m i) := by
    refine run_invariant (fun m => ∀ i, P (m i)) ?_ hboot hC hrun
    intro m l m' hm hl hs n
    -- a step of the system changes a slot in at most two of these ways
    have hpath := machineStep_slot hs n fun mv heq => by rwa [heq] at hl
    generalize m' n = s' at hpath
    induction hpath with
    | refl => exact hm n
    | tail _ hlast ih => exact hstep m _ _ hm ih hlast
  exact hinv i

/-- The same of one slot, from any state on: only its own moves have to meet `C`. -/
theorem slot_invariant {P : Slot → Prop} {m₀ : Machine} {i : SlotId} (h : P (m₀ i))
    (hstep : ∀ (m : Machine) (s s' : Slot), P s → SlotStep C m s s' → P s') {ls : List Label}
    (hC : Along machineStep (MovesOf i C) m₀ ls) (hrun : run machineStep m₀ ls = some m) : P (m i) := by
  refine run_invariant (fun m => P (m i)) ?_ h hC hrun
  intro m l m' hm hl hs
  have hpath := machineStep_slot hs i hl
  generalize m' i = s' at hpath
  induction hpath with
  | refl => exact hm
  | tail _ hlast ih => exact hstep m _ _ ih hlast

end Slots

/-! ## Runs from boot -/

def owns (i : SlotId) (mvs : List Move) : List Label := mvs.map (.own i)

/-- Process `i` goes along a path on which every test succeeds and no loop is
entered. -/
def straight (i : SlotId) : Path → List Label
  | .skip => [.own i (.path false)]
  | .act .kill => [.kill i]
  | .act _ => [.own i .act]
  | .seq c d => .own i (.path false) :: (straight i c ++ straight i d)
  | .alt _ d => .own i (.path false) :: straight i d
  | .star _ => [.own i (.path false)]

/-- Back to user mode from kernel code that returns `v`, with no signal to handle. -/
def quietReturn (i : SlotId) (v : Word) : List Label := owns i [.ret v, .sig, .pop, .iret]

/-- The first process comes to user mode. -/
def firstReturn : List Label := straight 0 forkretFirst ++ quietReturn 0 0

/-- User code of process `i`, with its stack at 0x800, makes the system call `num`
with two arguments. -/
def userCall (i : SlotId) (num arg0 arg1 : Word) : List Label :=
  owns i [.user { userinitFrame with eax := num, esp := 0x800 }
    [(0x804, le32 arg0), (0x808, le32 arg1)], .int]

end Xv6
