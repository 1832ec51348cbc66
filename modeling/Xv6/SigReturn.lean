import Mathlib
import Xv6.SigFrame

/- Delivery and return: what `sigret` brings back.

   A delivered signal interrupts the program with the frame `T` and the mask `M`.
   The handler runs with every signal masked, returns into the injected code, and
   the injected code enters `sigret` through `syscall`. `Resumes` is that round
   trip, repeated while the pass at the end of the `sigret` trap finds another
   signal to deliver.

   1. `resumes_frame_eq`: the program resumes with the mask `M` and with every
      field of `T` except `eax`, which holds 1: `sigret` restores the whole frame
      and `syscall` then stores the return value of `sys_sigret` over `eax`. So
      the round trip is transparent exactly for programs interrupted with
      `eax = 1` (`signal_return_transparent_iff`).
   2. `unwind_eq_replicate`: the frame and the mask are saved in one slot per
      process, so after nested deliveries every `sigret` restores the innermost
      context, and the contexts come back in order exactly when they are all the
      same (`nested_return_lifo_iff`). -/
namespace Xv6
open List Bits ByteMem
open BitVec (ofNat)

/-- `SYS_sigret`, which the injected code loads into `eax`. -/
def SYS_sigret : Word := 24

def SYS_sigprocmask : Word := 22

variable {other : SysBodies}

/-! ## A handler that makes no signal-related call -/

/-- What happens to the process while a handler runs: its own instructions and
system calls change registers, memory and size; other processes send signals;
and every trap ends with a pass, here one that starts no handler. -/
inductive HandlerStep : Proc → Proc → Prop where
  | run (p : Proc) (tf : Trapframe) (mem : Mem) (sz : Word) :
      HandlerStep p { p with tf, mem, sz }
  | kill (p : Proc) (s : Sig) : HandlerStep p { p with pending := p.pending ||| bit s }
  | trapret {p q : Proc} (arrive : Sig → Word) :
      checkKernelSigs arrive (some p) = .ok ⟨some q, none⟩ → HandlerStep p q

/-- A stretch of such steps. -/
def HandlerRun : Proc → Proc → Prop := Relation.ReflTransGen HandlerStep

/-- The signal context of a process: its mask is either closed or the saved one,
and `sigret` will restore the mask `m` and the frame stored at `a`. -/
structure Saved (m a : Word) (p : Proc) : Prop where
  closed : p.mask = 0 ∨ p.mask = p.maskBackup
  maskBackup : p.maskBackup = m
  trapBackup : p.trapBackup = a

theorem HandlerStep.saved {m a : Word} {p q : Proc} (hs : HandlerStep p q) (h : Saved m a p) :
    Saved m a q := by
  cases hs with
  | run tf mem sz => exact ⟨h.closed, h.maskBackup, h.trapBackup⟩
  | kill s => exact ⟨h.closed, h.maskBackup, h.trapBackup⟩
  | trapret arrive hpass =>
    rcases h.closed with h0 | hb
    · rw [checkKernelSigs_masked h0] at hpass
      cases hpass
      exact h
    · obtain ⟨hu, hm, hmb⟩ := checkKernelSigs_none hpass
      have hkeep : q.maskBackup = p.maskBackup := hmb.elim id (·.trans hb)
      exact ⟨.inr (by rw [hm, hb, hkeep]), hkeep.trans h.maskBackup,
        hu.trapBackup.trans h.trapBackup⟩

theorem HandlerRun.saved {m a : Word} {p q : Proc} (hs : HandlerRun p q) (h : Saved m a p) :
    Saved m a q := by
  induction hs with
  | refl => exact h
  | tail _ hstep ih => exact hstep.saved ih

theorem checkKernelSigs_saved {arrive : Sig → Word} {p q : Proc} {i : Sig}
    (h : checkKernelSigs arrive (some p) = .ok ⟨some q, some i⟩) :
    Saved p.mask p.trapBackup q := by
  obtain ⟨r, hloop, hpush⟩ := checkKernelSigs_frame h
  obtain ⟨hu, hm, hmb, _⟩ := sigLoop_frame hloop
  obtain ⟨_, _, rfl⟩ := pushFrame_ok_iff.mp hpush
  exact ⟨.inl hm, hmb, hu.trapBackup⟩

/-! ## The return -/

theorem not_killed_of_trapret {p q : Proc} (h : trapSyscall other p = .ok (.trapret q)) :
    p.killed = false := by
  unfold trapSyscall at h
  split at h
  · cases h
  · next hk => simpa using hk

/-- `sigret` as a user program calls it: the frame comes from the bytes at
`trap_backup`, and then `syscall` stores the return value of `sys_sigret` in its
`eax`. -/
theorem trapSyscall_sigret_bytes (other : SysBodies) {p : Proc}
    {bs : List Byte} (hk : p.killed = false) (hsys : p.tf.eax = SYS_sigret)
    (hload : load p.mem p.trapBackup trapframeSize = .ok bs) :
    trapSyscall other p =
      .ok (.trapret (setEax (restoreMask { p with tf := .ofBytes bs }) 1)) := by
  have hlook : lookupSyscall p.tf.eax = some .sigret := by rw [hsys]; decide
  simp [trapSyscall, syscall, hlook, sysBody, sysSigret, sigret, hload, bind, Except.bind, pure,
    Except.pure, hk, setEax, restoreMask]

theorem trapSyscall_sigret (other : SysBodies) {p : Proc}
    {t : Trapframe} (hk : p.killed = false) (hsys : p.tf.eax = SYS_sigret)
    (hcopy : load p.mem p.trapBackup trapframeSize = .ok t.bytes) :
    trapSyscall other p = .ok (.trapret (setEax (restoreMask { p with tf := t }) 1)) := by
  rw [trapSyscall_sigret_bytes other hk hsys hcopy, Trapframe.ofBytes_bytes]

theorem trapSyscall_sigret_cases {p q : Proc} (hsys : p.tf.eax = SYS_sigret)
    (h : trapSyscall other p = .ok (.trapret q)) :
    ∃ t, q = setEax (restoreMask { p with tf := t }) 1 := by
  cases hload : load p.mem p.trapBackup trapframeSize with
  | ok bs =>
    rw [trapSyscall_sigret_bytes other (not_killed_of_trapret h) hsys hload] at h
    cases h
    exact ⟨_, rfl⟩
  | error a =>
    have hlook : lookupSyscall p.tf.eax = some .sigret := by rw [hsys]; decide
    simp [trapSyscall, syscall, hlook, sysBody, sysSigret, sigret, hload, bind, Except.bind,
      not_killed_of_trapret h] at h

/-- One handler, from the pass that starts it to the end of the `sigret` trap:
the handler leaves the saved copy intact and returns into the injected code. -/
inductive Round (other : SysBodies) : Proc → Proc → Prop where
  | handler {p entered returned q : Proc} (arrive : Sig → Word) (i : Sig) :
      checkKernelSigs arrive (some p) = .ok ⟨some entered, some i⟩ →
      HandlerRun entered returned →
      load returned.mem returned.trapBackup trapframeSize = .ok p.tf.bytes →
      returned.tf.eax = SYS_sigret →
      trapSyscall other returned = .ok (.trapret q) →
      Round other p q

/-- From a pass that delivers a signal to the next time the program itself runs:
handlers follow one another until a pass finds nothing to deliver. -/
inductive Resumes (other : SysBodies) : Proc → Proc → Prop where
  | last {p q r : Proc} (arrive : Sig → Word) : Round other p q →
      checkKernelSigs arrive (some q) = .ok ⟨some r, none⟩ → Resumes other p r
  | again {p q r : Proc} : Round other p q → Resumes other q r → Resumes other p r

theorem Round.frame_eq {p q : Proc} (h : Round other p q) :
    q.tf = { p.tf with eax := 1 } ∧ q.mask = p.mask := by
  cases h with
  | handler arrive i hpass hrun hcopy hsys hret =>
    have hsaved := HandlerRun.saved hrun (checkKernelSigs_saved hpass)
    rw [trapSyscall_sigret other (not_killed_of_trapret hret) hsys hcopy] at hret
    cases hret
    exact ⟨rfl, hsaved.maskBackup⟩

theorem resumes_frame_eq {p r : Proc} (h : Resumes other p r) :
    r.tf = { p.tf with eax := 1 } ∧ r.mask = p.mask := by
  induction h with
  | last arrive hround hpass =>
    obtain ⟨htf, hmask⟩ := hround.frame_eq
    obtain ⟨hu, hm, _⟩ := checkKernelSigs_none hpass
    exact ⟨hu.tf.trans htf, hm.trans hmask⟩
  | again hround _ ih =>
    obtain ⟨htf, hmask⟩ := hround.frame_eq
    refine ⟨?_, ih.2.trans hmask⟩
    rw [ih.1, htf]

/-- **Delivery and return are transparent exactly when `eax` was 1.** -/
theorem signal_return_transparent_iff (other : SysBodies)
    (p r : Proc) (h : Resumes other p r) :
    (r.tf = p.tf ∧ r.mask = p.mask) ↔ p.tf.eax = 1 := by
  obtain ⟨htf, hmask⟩ := resumes_frame_eq h
  constructor
  · rintro ⟨heq, _⟩
    rw [← heq, htf]
  · intro heax
    refine ⟨?_, hmask⟩
    rw [htf, ← heax]

/-! ### A round trip exists

The round trip above is not vacuous: wherever the memory is mapped and the frame
lies clear of the saved copy, a delivery can be carried through. -/

/-- The handler that returns at once. -/
theorem round_of_deliver (other : SysBodies)
    {arrive : Sig → Word} {p : Proc} {i : Sig}
    (hpass : checkKernelSigs arrive (some p) = .ok ⟨some (framed i (saveMask p)), some i⟩)
    (hk : p.killed = false)
    (hclear : ∀ k < trapframeSize,
      15 ≤ ahead (frameBase p.tf.esp) (p.trapBackup + ofNat 32 k)) :
    ∃ q, Round other p q ∧ q.pending = p.pending ^^^ bit i := by
  have hload := load_frameMem (i := i) (p := saveMask p) hclear
  have hret := trapSyscall_sigret other (t := p.tf)
    (p := setEax (framed i (saveMask p)) SYS_sigret) hk rfl hload
  exact ⟨_, .handler arrive i hpass (.single (.run _ _ _ _)) hload rfl hret, rfl⟩

/-- The process of `onStack` with the stack at the end of its memory, interrupted
with `eax`. -/
def interrupted (eax : Word) : Proc := setEax (onStack 0x2000) eax

/-- A table of system calls for concrete runs; they make none but `sigret`. -/
def noCalls : Sys → Proc → Except Word (Proc × Word) := fun _ p => .ok (p, 0)

theorem interrupted_deliver (eax : Word) :
    checkKernelSigs (fun _ => 0) (some (interrupted eax)) =
      .ok ⟨some (framed 3 (saveMask (interrupted eax))), some 3⟩ :=
  checkKernelSigs_deliver (onStack_first 0x2000) (show UserHandler 0x100 by decide)
    (show ∀ k < trapframeSize, ((onStack 0).mem (0 + ofNat 32 k)).isSome by decide)
    (show ∀ k < 15, ((onStack 0).mem (frameBase 0x2000 + ofNat 32 k)).isSome by decide)

theorem interrupted_resumes (eax : Word) : ∃ r, Resumes noCalls (interrupted eax) r := by
  obtain ⟨q, hround, hpend⟩ := round_of_deliver noCalls (interrupted_deliver eax) rfl
    (show ∀ k < trapframeSize, 15 ≤ ahead (frameBase 0x2000) (0 + ofNat 32 k) by decide)
  have hzero : q.pending = 0 := hpend.trans (show bit 3 ^^^ bit 3 = 0 by decide)
  refine ⟨q, .last (fun _ => 0) hround ?_⟩
  simp [checkKernelSigs, hzero]

theorem signal_return_transparent_eax_one : ∃ r, Resumes noCalls (interrupted 1) r ∧
    ((r.tf = (interrupted 1).tf ∧ r.mask = (interrupted 1).mask) ↔
      (interrupted 1).tf.eax = 1) := by
  obtain ⟨r, hr⟩ := interrupted_resumes 1
  exact ⟨r, hr, signal_return_transparent_iff noCalls (interrupted 1) r hr⟩

/-- A program interrupted with 7 in `eax` finds 1 there. -/
theorem signal_return_clobbers_eax : ∃ r, Resumes noCalls (interrupted 7) r ∧
    ¬(r.tf = (interrupted 7).tf ∧ r.mask = (interrupted 7).mask) := by
  obtain ⟨r, hr⟩ := interrupted_resumes 7
  refine ⟨r, hr, fun heq => ?_⟩
  have heax := congrArg Trapframe.eax ((resumes_frame_eq hr).1.symm.trans heq.1)
  exact absurd heax (by decide)

/-! ## Nested handlers -/

/-- What an interruption saves: the frame and the mask. -/
abbrev Context := Trapframe × Word

/-- Between two nested deliveries a handler also calls `sigprocmask`. -/
inductive NestStep (other : SysBodies) : Proc → Proc → Prop where
  | handler {p q : Proc} : HandlerStep p q → NestStep other p q
  | sigprocmask {p q : Proc} : p.tf.eax = SYS_sigprocmask →
      trapSyscall other p = .ok (.trapret q) → NestStep other p q

/-- Deliveries that interrupt one another, with the contexts they interrupted,
innermost first. -/
inductive Descend (other : SysBodies) :
    List Context → Proc → Proc → Prop where
  | first {p q : Proc} (arrive : Sig → Word) (i : Sig) :
      checkKernelSigs arrive (some p) = .ok ⟨some q, some i⟩ →
      Descend other [(p.tf, p.mask)] p q
  | deeper {cs : List Context} {p q r s : Proc} (arrive : Sig → Word) (i : Sig) :
      Descend other cs p q →
      Relation.ReflTransGen (NestStep other) q r →
      checkKernelSigs arrive (some r) = .ok ⟨some s, some i⟩ →
      Descend other ((r.tf, r.mask) :: cs) p s

/-- The handlers return one after the other, leaving the saved copy of `t`
intact; the list holds the contexts their `sigret` calls restore, in order. -/
inductive Unwind (other : SysBodies) (t : Trapframe) :
    Proc → List Context → Prop where
  | done (p : Proc) : Unwind other t p []
  | sigret {p q r : Proc} {cs : List Context} :
      HandlerRun p q →
      load q.mem q.trapBackup trapframeSize = .ok t.bytes →
      q.tf.eax = SYS_sigret →
      trapSyscall other q = .ok (.trapret r) →
      Unwind other t r cs →
      Unwind other t p ((r.tf, r.mask) :: cs)

theorem unwind_eq_replicate {t : Trapframe} {m a : Word} {p : Proc} {rs : List Context}
    (h : Unwind other t p rs) (hs : Saved m a p) :
    rs = replicate rs.length ({ t with eax := 1 }, m) := by
  induction h with
  | done p => rfl
  | @sigret p q r cs hrun hcopy hsys hret _ ih =>
    have hq := HandlerRun.saved hrun hs
    rw [trapSyscall_sigret other (not_killed_of_trapret hret) hsys hcopy] at hret
    cases hret
    have hr := ih ⟨.inr rfl, hq.maskBackup, hq.trapBackup⟩
    rw [length_cons, replicate_succ, ← hr]
    simp only [setEax, restoreMask, hq.maskBackup]

theorem Descend.saved {c : Context} {cs : List Context} {p q : Proc}
    (h : Descend other (c :: cs) p q) : ∃ a, Saved c.2 a q := by
  cases h with
  | first arrive i hpass => exact ⟨_, checkKernelSigs_saved hpass⟩
  | deeper arrive i _ _ hpass => exact ⟨_, checkKernelSigs_saved hpass⟩

/-- **Nested returns are last-in-first-out exactly when nothing was nested:**
all interrupted contexts are the innermost one, and its `eax` is 1. -/
theorem nested_return_lifo_iff (other : SysBodies) (t : Trapframe)
    (m : Word) (cs rs : List Context) (p q : Proc) (hdown : Descend other ((t, m) :: cs) p q)
    (hup : Unwind other t q rs) (hlen : rs.length = ((t, m) :: cs).length) :
    rs = (t, m) :: cs ↔ ∀ c ∈ (t, m) :: cs, c = ({ t with eax := 1 }, m) := by
  obtain ⟨a, hs⟩ := hdown.saved
  have hrep := unwind_eq_replicate hup hs
  rw [hrep, hlen, eq_comm, eq_replicate_iff]
  simp

/-! ### Two levels -/

/-- The memory of `interrupted` with every byte `0xff`, so that any argument
word a handler finds on its stack is `0xffffffff`. -/
def filled : Mem := fun a => if a < 0x2000 then some 0xff else none

/-- The handler of signal 3 as it calls `sigprocmask(0xffffffff)`. -/
def reenabling (eax : Word) : Proc :=
  { framed 3 (saveMask (interrupted eax)) with
    tf := { userinitFrame with eax := SYS_sigprocmask, eip := 0x104, esp := 0x1f00 }
    mem := filled }

/-- The same handler after the call, with signal 5 sent to it meanwhile. -/
def reenabled (eax : Word) : Proc :=
  { reenabling eax with
    tf := { (reenabling eax).tf with eax := 0 }
    mask := -1
    pending := (reenabling eax).pending ||| bit 5 }

theorem reenabled_deliver (eax : Word) :
    checkKernelSigs (fun _ => 0) (some (reenabled eax)) =
      .ok ⟨some (framed 5 (saveMask (reenabled eax))), some 5⟩ :=
  checkKernelSigs_deliver
    (show (finRange 32).find? (fun s => decide
      (has (bit 3 ^^^ bit 3 ||| bit 5) s = true ∧ has (-1) s = true)) = some 5 by decide)
    (show UserHandler 0x100 by decide)
    (show ∀ k < trapframeSize, (filled (0 + ofNat 32 k)).isSome by decide)
    (show ∀ k < 15, (filled (frameBase 0x1f00 + ofNat 32 k)).isSome by decide)

theorem descend_two (eax : Word) :
    Descend noCalls [((reenabled eax).tf, -1), ((interrupted eax).tf, -1)] (interrupted eax)
      (framed 5 (saveMask (reenabled eax))) := by
  have hcall : trapSyscall noCalls (reenabling eax) = .ok (.trapret
      { reenabled eax with pending := (reenabling eax).pending }) := rfl
  refine .deeper _ 5 (.first _ 3 (interrupted_deliver eax)) ?_ (reenabled_deliver eax)
  exact ((Relation.ReflTransGen.single (.handler (.run _ _ _ _))).tail
    (.sigprocmask rfl hcall)).tail (.handler (.kill _ 5))

theorem unwind_two (eax : Word) : ∃ rs,
    Unwind noCalls (reenabled eax).tf (framed 5 (saveMask (reenabled eax))) rs ∧ rs.length = 2 := by
  have hload := load_frameMem (i := 5) (p := saveMask (reenabled eax))
    (show ∀ k < trapframeSize, 15 ≤ ahead (frameBase 0x1f00) (0 + ofNat 32 k) by decide)
  have hret := fun p : Proc => trapSyscall_sigret noCalls (t := (reenabled eax).tf)
    (p := setEax p SYS_sigret)
  exact ⟨_, .sigret (.single (.run _ _ _ _)) hload rfl (hret (framed 5 _) rfl rfl hload)
    (.sigret (.single (.run _ _ _ _)) hload rfl (hret (restoreMask _) rfl rfl hload) (.done _)), rfl⟩

theorem nested_return_two : ∃ rs : List Context, rs.length = 2 ∧
    (rs = [((reenabled 1).tf, -1), ((interrupted 1).tf, -1)] ↔
      ∀ c ∈ ([((reenabled 1).tf, -1), ((interrupted 1).tf, -1)] : List Context),
        c = ({ (reenabled 1).tf with eax := 1 }, -1)) := by
  obtain ⟨rs, hup, hlen⟩ := unwind_two 1
  exact ⟨rs, hlen, nested_return_lifo_iff noCalls _ _ _ rs _ _ (descend_two 1) hup hlen⟩

/-- Neither of the two `sigret` calls resumes the program point that signal 3
interrupted. -/
theorem nested_return_loses_outer : ∃ rs,
    Descend noCalls [((reenabled 1).tf, -1), ((interrupted 1).tf, -1)] (interrupted 1)
      (framed 5 (saveMask (reenabled 1))) ∧
    Unwind noCalls (reenabled 1).tf (framed 5 (saveMask (reenabled 1))) rs ∧ rs.length = 2 ∧
    ∀ c ∈ rs, c.1.eip ≠ (interrupted 1).tf.eip := by
  obtain ⟨rs, hup, hlen⟩ := unwind_two 1
  refine ⟨rs, descend_two 1, hup, hlen, fun c hc => ?_⟩
  rw [unwind_eq_replicate hup (checkKernelSigs_saved (reenabled_deliver 1))] at hc
  rw [eq_of_mem_replicate hc]
  decide

end Xv6
