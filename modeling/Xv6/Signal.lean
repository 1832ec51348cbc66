import Xv6.ByteMem
import Xv6.Trapframe

/- Signals: the per-process signal state and the code that acts on it.

   `checkKernelSigs` is `check_kernel_sigs` (trap.c), which `trapret` runs at the
   end of every trap: it walks the 32 signals, performs the default action of
   those with a default disposition, and for the first pending unblocked signal
   with a user handler builds a frame on the user stack and returns. `sigret`,
   `sigprocmask` and `signal` (proc.c) are the other writers of this state, and
   `syscall` (syscall.c) is the dispatcher through which user code reaches them.

   Two things can keep the pass from returning, and `Stuck` names them. In
   `handle_SIGSTOP` the process waits for a SIGCONT or SIGKILL sent by others:
   `arrive i` is the set of signals that arrive while iteration `i` waits, and
   the wait ends when they suffice. And the stores to the user stack run in
   kernel mode on a user-supplied address: on an address with no user page the
   model stops at `badStore`. Below `KERNBASE` that is a page fault taken in
   kernel mode, `panic("trap")`; from `KERNBASE` on the store would land in
   kernel memory, which this model does not follow.

   Correspondence (C ↔ Lean):
     `struct proc` (signal fields, sz, pgdir, tf, killed, state)   ↔ `Proc`
     `hasSignal`, `isBlocked`, `cancelSignal`     ↔ the same names
     `handle_SIGSTOP/SIGKILL/SIGCONT`             ↔ `handleSigstop` etc.
     the two `switch` statements of the loop body ↔ `defaultSwitch`, `handlerSwitch`
     the `default:` case that builds a frame      ↔ `buildFrame`, `pushFrame`
     `check_kernel_sigs`                          ↔ `checkKernelSigs`
     `call_sigret_syscall` (trapasm.S)            ↔ `callSigretSyscall`
     `fetchint`, `argint`, `syscalls[]`, `syscall`, `trap` for `T_SYSCALL`
                                                  ↔ `fetchint`, ..., `trapSyscall` -/
namespace Xv6
open Bits ByteMem

/-! ## The process -/

/-- Signal numbers: the loop of `check_kernel_sigs` runs over `0..31`. -/
abbrev Sig := Fin 32

instance neZero_signals : NeZero 32 := ⟨by decide⟩

/-- The slots of the process table, `NPROC`. -/
instance neZero_slots : NeZero 64 := ⟨by decide⟩

def SIGKILL : Sig := 9
def SIGSTOP : Sig := 17
def SIGCONT : Sig := 19

/-- The word a signal number is when it stands in a handler slot or on a stack. -/
def sigWord (s : Sig) : Word := BitVec.ofNat 32 s

/-- Default signal handling, as the kernel spells it (proc.h): `(void*)-1`. -/
def SIG_DFL : Word := -1

def SIG_IGN : Word := 1

inductive ProcState where
  | UNUSED | EMBRYO | SLEEPING | RUNNABLE | RUNNING | ZOMBIE
  deriving DecidableEq, Repr

/-- The fields of `struct proc` the signal code reads and writes. `mem` is the
memory `pgdir` maps and `tf` the contents of the user trap frame. -/
structure Proc where
  sz : Word
  mem : Mem
  state : ProcState
  pid : Word
  tf : Trapframe
  killed : Bool
  pending : Word
  mask : Word
  maskBackup : Word
  handlers : Sig → Word
  trapBackup : Word

/-- A handler slot that holds the address of a user function. -/
def UserHandler (h : Word) : Prop :=
  h ≠ SIG_DFL ∧ h ≠ SIG_IGN ∧ h ≠ sigWord SIGKILL ∧ h ≠ sigWord SIGCONT ∧ h ≠ sigWord SIGSTOP

instance (h : Word) : Decidable (UserHandler h) := by unfold UserHandler; infer_instance

/-! ## Reading and clearing pending bits -/

/-- Has `p` received signal `signum`? -/
def hasSignal (p : Proc) (signum : Sig) : Bool := decide (0 < p.pending &&& bit signum)

/-- A set mask bit lets the signal through; with no process everything is blocked. -/
def isBlocked (curproc : Option Proc) (signum : Sig) : Bool :=
  match curproc with
  | some p => if 0 < p.mask &&& bit signum then false else true
  | none => true

/-- The source's range check on `signum` is carried by the type. -/
def cancelSignal (p : Proc) (signum : Sig) : Proc :=
  { p with pending := p.pending ^^^ bit signum }

/-! ## The default actions -/

/-- What keeps `check_kernel_sigs` from returning. -/
inductive Stuck where
  /-- Still in the wait loop of `handle_SIGSTOP`, in this state. -/
  | stopped (p : Proc)
  /-- A store to an address that has no user page. -/
  | badStore (a : Word)

/-- `while (!hasSignal(SIGCONT) && !hasSignal(SIGKILL)) yield();` where the
signals `arrive` come in during the wait. -/
def handleSigstop (arrive : Word) (p : Proc) : Except Stuck Proc :=
  if hasSignal p SIGCONT || hasSignal p SIGKILL then .ok p
  else
    let p' := { p with pending := p.pending ||| arrive }
    if hasSignal p' SIGCONT || hasSignal p' SIGKILL then .ok p' else .error (.stopped p')

def handleSigkill (p : Proc) : Proc :=
  { p with killed := true, state := if p.state = .SLEEPING then .RUNNABLE else p.state }

def handleSigcont (p : Proc) : Proc :=
  let p := if hasSignal p SIGSTOP then cancelSignal p SIGSTOP else p
  cancelSignal p SIGCONT

/-- `switch (i)`: the signals that require default handling. -/
def defaultSwitch (arrive : Word) (i : Sig) (p : Proc) : Except Stuck Proc :=
  let h := p.handlers i
  if i = SIGKILL then
    .ok (if h = SIG_DFL ∨ h = sigWord SIGKILL then handleSigkill p else p)
  else if i = SIGCONT then
    .ok (if h = SIG_DFL ∨ h = sigWord SIGCONT then handleSigcont p else p)
  else if i = SIGSTOP then
    if h = SIG_DFL ∨ h = sigWord SIGSTOP then handleSigstop arrive p else .ok p
  else
    .ok (if h = SIG_DFL then handleSigkill p else p)

/-- Where the handler switch leaves the loop body: at its end, or in the
`default:` case that builds a user frame. -/
inductive Flow where
  | next (p : Proc)
  | frame (p : Proc)

/-- The `SIG_IGN` test and `switch ((int)handlers[i])`. -/
def handlerSwitch (arrive : Word) (i : Sig) (p : Proc) : Except Stuck Flow :=
  let h := p.handlers i
  if h = SIG_IGN then .ok (.next (cancelSignal p i))
  else if h ≠ SIG_DFL then
    if h = sigWord SIGKILL then .ok (.next (handleSigkill p))
    else if h = sigWord SIGCONT then .ok (.next (handleSigcont p))
    else if h = sigWord SIGSTOP then (handleSigstop arrive p).map .next
    else .ok (.frame p)
  else .ok (.next p)

/-! ## The pass over the signals -/

/-- While a signal is handled, no other one is: `mask_backup = mask; mask = 0`. -/
def saveMask (p : Proc) : Proc := { p with maskBackup := p.mask, mask := 0 }

def restoreMask (p : Proc) : Proc := { p with mask := p.maskBackup }

/-- Where the loop over the signals ends. -/
inductive Scan where
  | finished (p : Proc)
  | frame (i : Sig) (p : Proc)

/-- `for (i = 0; i < 32; i++)` from the signals still to look at. -/
def sigLoop (arrive : Sig → Word) : List Sig → Proc → Except Stuck Scan
  | [], p => .ok (.finished p)
  | i :: rest, p =>
    if !(hasSignal p i && !isBlocked (some p) i) then sigLoop arrive rest p
    else
      match defaultSwitch (arrive i) i (saveMask p) with
      | .error e => .error e
      | .ok p =>
        match handlerSwitch (arrive i) i p with
        | .error e => .error e
        | .ok (.frame p) => .ok (.frame i p)
        | .ok (.next p) => sigLoop arrive rest (restoreMask p)

/-- The injected code: `movl $SYS_sigret, %eax; int $T_SYSCALL`. -/
def callSigretSyscall : List Byte := [0xb8, 0x18, 0x00, 0x00, 0x00, 0xcd, 0x40]

def sigretSize : Word := 7

/-- The pushes onto the user stack, in the order the code makes them: the
injected code, the signal number, and a return address that points at the
injected code. -/
def pushes (i : Sig) (esp : Word) : List (Word × List Byte) :=
  let injected := esp - sigretSize
  [(injected, callSigretSyscall),
   (injected - 4, le32 (sigWord i)),
   (injected - 4 - 4, le32 injected)]

/-- The `default:` case of the handler switch up to its last statement: save the
frame through `trap_backup`, make the pushes, and enter the handler. -/
def buildFrame (i : Sig) (p : Proc) : Except Word Proc := do
  let mem ← store p.mem p.trapBackup p.tf.bytes
  let mem ← storeAll mem (pushes i p.tf.esp)
  let esp := p.tf.esp - sigretSize - 4 - 4
  pure { p with mem, tf := { p.tf with esp, eip := p.handlers i } }

/-- The whole case: the signal is handled right now, so its bit is cleared. -/
def pushFrame (i : Sig) (p : Proc) : Except Word Proc := do
  let p ← buildFrame i p
  pure (cancelSignal p i)

/-- What a pass returns with: the current process, and the signal it built a
user frame for. -/
structure Pass where
  curproc : Option Proc
  frame : Option Sig

def checkKernelSigs (arrive : Sig → Word) (curproc : Option Proc) : Except Stuck Pass :=
  match curproc with
  | none => .ok ⟨none, none⟩
  | some p =>
    if p.mask = 0 ∨ p.pending = 0 then .ok ⟨some p, none⟩
    else
      match sigLoop arrive (List.finRange 32) p with
      | .error e => .error e
      | .ok (.finished p) => .ok ⟨some p, none⟩
      | .ok (.frame i p) =>
        match pushFrame i p with
        | .error a => .error (.badStore a)
        | .ok p => .ok ⟨some p, some i⟩

/-! ## The signal system calls -/

/-- Restore the frame and the mask saved at delivery. -/
def sigret (p : Proc) : Except Word Proc := do
  let bs ← load p.mem p.trapBackup trapframeSize
  pure (restoreMask { p with tf := .ofBytes bs })

def sigprocmask (sigmask : Word) (p : Proc) : Proc × Word :=
  ({ p with mask := sigmask }, p.mask)

/-- `signum >= 0 && signum <= 31` on an `int`. -/
def legalSignum (signum : Word) : Option Sig :=
  if h : signum.toNat < 32 then some ⟨signum.toNat, h⟩ else none

def signal (signum handler : Word) (p : Proc) : Proc × Word :=
  match legalSignum signum with
  | some s => ({ p with handlers := Function.update p.handlers s handler }, p.handlers s)
  | none => (p, -2)

/-! ## System-call arguments and dispatch -/

/-- Fetch the int at `addr`: `none` is the return value -1. -/
def fetchint (p : Proc) (addr : Word) : Except Word (Option Word) :=
  if p.sz ≤ addr ∨ p.sz < addr + 4 then .ok none
  else (load p.mem addr 4).map fun bs => some (rd32 bs 0)

/-- The nth 32-bit system call argument: the user's `%esp` points at a saved
program counter, and the arguments follow. -/
def argint (p : Proc) (n : Nat) : Except Word (Option Word) :=
  fetchint p (p.tf.esp + 4 + 4 * BitVec.ofNat 32 n)

def sysSigprocmask (p : Proc) : Except Word (Proc × Word) := do
  match ← argint p 0 with
  | none => pure (p, -1)
  | some sigmask => pure (sigprocmask sigmask p)

def sysSignal (p : Proc) : Except Word (Proc × Word) := do
  match ← argint p 0 with
  | none => pure (p, -1)
  | some signum =>
    match ← argint p 1 with
    | none => pure (p, -1)
    | some handler => pure (signal signum handler p)

def sysSigret (p : Proc) : Except Word (Proc × Word) := do
  let p ← sigret p
  pure (p, 1)

/-- The entries of `syscalls[]`. -/
inductive Sys where
  | fork | exit | wait | pipe | read | kill | exec | fstat | chdir | dup | getpid | sbrk
  | sleep | uptime | open | write | mknod | unlink | link | mkdir | close
  | sigprocmask | signal | sigret
  deriving DecidableEq, Repr

/-- `syscalls[]`, indexed from `SYS_fork = 1`; entry 0 is empty. -/
def syscalls : List (Option Sys) :=
  [none, some .fork, some .exit, some .wait, some .pipe, some .read, some .kill, some .exec,
   some .fstat, some .chdir, some .dup, some .getpid, some .sbrk, some .sleep, some .uptime,
   some .open, some .write, some .mknod, some .unlink, some .link, some .mkdir, some .close,
   some .sigprocmask, some .signal, some .sigret]

/-- `num > 0 && num < NELEM(syscalls) && syscalls[num]`, where a negative `num`
is a word from `2^31` on and so past the end of the table. -/
def lookupSyscall (num : Word) : Option Sys := syscalls.getD num.toNat none

abbrev SysBodies := Sys → Proc → Except Word (Proc × Word)

/-- The body of a system call: the three signal calls, and `other` for the rest
of the table. -/
def sysBody (other : SysBodies) : SysBodies
  | .sigprocmask => sysSigprocmask
  | .signal => sysSignal
  | .sigret => sysSigret
  | s => other s

def setEax (p : Proc) (v : Word) : Proc := { p with tf := { p.tf with eax := v } }

/-- Run the call `%eax` names and store its result in the frame's `%eax`. -/
def syscall (other : SysBodies) (p : Proc) : Except Word Proc :=
  match lookupSyscall p.tf.eax with
  | some s => do
    let (p, r) ← sysBody other s p
    pure (setEax p r)
  | none => pure (setEax p (-1))

/-- How `trap` ends for `T_SYSCALL`: the process exits, or goes on to `trapret`. -/
inductive TrapEnd where
  | exited
  | trapret (p : Proc)

def trapSyscall (other : SysBodies) (p : Proc) :
    Except Word TrapEnd :=
  if p.killed then .ok .exited
  else do
    let p ← syscall other p
    pure (if p.killed then .exited else .trapret p)

end Xv6
