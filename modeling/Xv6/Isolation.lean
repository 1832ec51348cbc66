import Xv6.Machine

/- System calls and the signals that arrive while they run.

   The gate of `T_SYSCALL` leaves interrupts on, and `trapret` runs
   `check_kernel_sigs` on the way back from every trap, the ones taken in the
   kernel included. Such a pass works on the one user frame of the process: if it
   delivers a signal, the system call it interrupted goes on with another `esp`
   and `eip`.

   1. `isolated_of_undisturbed`: a system call in which no pass comes to a signal
      for a user handler, whatever came before it, keeps the `esp` and `eip` it
      was entered with, each `argint` reads what the program pushed, and the
      program goes on after its `int` with the return value in `eax`.
   2. `interrupted_call_loses_frame`: one interrupt in a `kill` that the process
      sends itself is enough to break it. -/
namespace Xv6
open List Bits ByteMem Paths Transition

/-! ## The property -/

/-- A system call keeps the user frame it was entered with, its arguments and its
return value. `exec` and `sigret` are the calls that replace the frame. -/
def Isolated (s : Slot) : Prop :=
  match s.mode with
  | .kernel k (.sysret c) =>
    (c.sys ≠ .exec → c.sys ≠ .sigret →
      s.p.tf.esp = c.entry.tf.esp ∧ s.p.tf.eip = c.entry.tf.eip) ∧
    ∀ n rest, k = .act (.argint n) :: rest → argint s.p n = argint c.entry n
  | .trapret (some (sys, entry, v)) =>
    s.passes = [] → s.p.tf.eax = v ∧
      (sys ≠ .exec → sys ≠ .sigret →
        s.p.tf.esp = entry.tf.esp ∧ s.p.tf.eip = entry.tf.eip)
  | _ => True

/-- The process is in a system call, or on the way back from one. -/
def Slot.inCall (s : Slot) : Bool :=
  match s.mode with
  | .kernel _ (.sysret _) => true
  | .trapret (some _) => true
  | _ => false

/-- No pass inside a system call looks at a signal that is pending, unblocked and
has a user handler. -/
def Undisturbed (s : Slot) : Move → Prop
  | .sig => s.inCall = true → ∀ pc ∈ s.passes.head?, ¬Examines .build s.p pc
  | _ => True

instance (s : Slot) : (mv : Move) → Decidable (Undisturbed s mv)
  | .sig => inferInstanceAs
      (Decidable (s.inCall = true → ∀ pc ∈ s.passes.head?, ¬Examines .build s.p pc))
  | .user _ _ | .int | .intr | .fault | .irq | .pop | .iret | .path _ | .act | .touch _ _
  | .exec _ _ _ _ | .ret _ => isTrue trivial

/-! ## The invariant -/

/-- What an argument is read from. -/
def Proc.user (p : Proc) : Trapframe × Mem × Word := (p.tf, p.mem, p.sz)

theorem argint_congr {p q : Proc} (h : p.user = q.user) (n : Nat) : argint p n = argint q n := by
  obtain ⟨htf, hmem, hsz⟩ : p.tf = q.tf ∧ p.mem = q.mem ∧ p.sz = q.sz := by
    simpa only [Proc.user, Prod.mk.injEq] using h
  rw [argint, argint, fetchint, fetchint, htf, hmem, hsz]

/-- The actions that replace the user frame. -/
def Act.isFrame : Act → Bool
  | .exec | .sigret => true
  | _ => false

theorem sysPath_frame {s : Sys} (he : s ≠ .exec) (hr : s ≠ .sigret) :
    uses Act.isFrame (sysPath s) = false := by
  cases s with
  | exec => exact absurd rfl he
  | sigret => exact absurd rfl hr
  | _ => decide

/-- The call `sys`, entered as `entry`, with `k` still to do and `u` the user's
side now. -/
structure CallInv (sys : Sys) (entry : Proc) (k : List Path) (u : Trapframe × Mem × Word) :
    Prop where
  ordered : orderlyAll Act.isArgint Act.isWrite k = true
  /-- Nothing has changed while there are arguments to read. -/
  args : k.any (uses Act.isArgint) = true → u = entry.user
  frame : sys ≠ .exec → sys ≠ .sigret → u.1 = entry.tf
  noFrame : sys ≠ .exec → sys ≠ .sigret → k.any (uses Act.isFrame) = false

namespace CallInv

variable {sys : Sys} {entry : Proc} {k k' : List Path} {u u' : Trapframe × Mem × Word}

theorem enter (sys : Sys) (p : Proc) : CallInv sys p [sysPath sys] p.user where
  ordered := by simp [orderlyAll, sysPath_orderly]
  args := fun _ => rfl
  frame := fun _ _ => rfl
  noFrame := fun he hr => by simp [sysPath_frame he hr]

theorem next {b : Bool} (h : CallInv sys entry k u) (hn : Paths.next k b = some k') :
    CallInv sys entry k' u where
  ordered := orderlyAll_next hn h.ordered
  args := fun hk => h.args (any_uses_next hn hk)
  frame := h.frame
  noFrame := fun he hr => by
    have hk := h.noFrame he hr
    by_contra hk'
    rw [any_uses_next hn (Bool.not_eq_false _ ▸ hk')] at hk
    cases hk

theorem act {a : Act} (h : CallInv sys entry (.act a :: k) u)
    (hu : a.isWrite = false → u' = u) (htf : a.isFrame = false → u'.1 = u.1) :
    CallInv sys entry k u' := by
  obtain ⟨hordered, hread⟩ := orderlyAll_act h.ordered
  have hframe : sys ≠ .exec → sys ≠ .sigret →
      a.isFrame = false ∧ k.any (uses Act.isFrame) = false := by
    intro he hr
    have hk := h.noFrame he hr
    rw [any_cons, Bool.or_eq_false_iff] at hk
    exact hk
  refine ⟨hordered, fun hk => ?_, fun he hr => ?_, fun he hr => (hframe he hr).2⟩
  · -- a read to come means that this was no write
    have hw : a.isWrite = false := by
      by_contra hw
      rw [hread (Bool.not_eq_false _ ▸ hw)] at hk
      cases hk
    rw [hu hw]
    apply h.args
    rw [any_cons, hk, Bool.or_true]
  · rw [htf (hframe he hr).1]
    exact h.frame he hr

end CallInv

/-- The system call that kernel code belongs to, and the process that entered it. -/
def After.call : After → Option (Sys × Proc)
  | .sysret c => some (c.sys, c.entry)
  | _ => none

theorem actOn_call {p q : Proc} {after after' : After} {a : Act}
    (h : actOn p after a = some (q, after')) : after'.call = after.call := by
  cases a with
  | argint n | sigret =>
    simp only [actOn] at h
    split at h
    · cases h; rfl
    · cases h
  | sigprocmask | signal =>
    simp only [actOn] at h
    split at h
    · split at h
      · cases h; rfl
      · cases h
    · cases h
  | resetHandlers | acquiresleep | releasesleep | beginOp | endOp => cases h; rfl
  | touch | exec | fork | wait | kill => cases h

/-- No pass of the slot is going to build a user frame. -/
def NoBuild (passes : List Pc) (handlers : Sig → Word) : Prop :=
  ∀ pc ∈ passes, ¬Commits .build handlers pc

theorem noBuild_nil (handlers : Sig → Word) : NoBuild [] handlers := nofun

theorem noBuild_entry {passes : List Pc} {handlers : Sig → Word} (h : NoBuild passes handlers) :
    NoBuild (.entry :: passes) handlers := by
  intro pc hpc
  rcases List.mem_cons.mp hpc with rfl | hpc
  · exact id
  · exact h pc hpc

/-- What holds of a slot as long as no signal is delivered inside a system call. -/
def Apart (s : Slot) : Prop :=
  match s.mode with
  | .user => s.passes = []
  | .kernel k after => ∀ sys entry, after.call = some (sys, entry) →
      CallInv sys entry k s.p.user ∧ NoBuild s.passes s.p.handlers
  | .trapret (some (sys, entry, v)) =>
      (s.p.tf.eax = v ∧ (sys ≠ .exec → sys ≠ .sigret → s.p.tf = { entry.tf with eax := v })) ∧
      NoBuild s.passes s.p.handlers
  | _ => True

theorem apart_kernel {s : Slot} {k : List Path} {after : After} (hm : s.mode = .kernel k after)
    (h : Apart s) {sys : Sys} {entry : Proc} (hc : after.call = some (sys, entry)) :
    CallInv sys entry k s.p.user ∧ NoBuild s.passes s.p.handlers := by
  rw [Apart, hm] at h
  exact h sys entry hc

theorem apart_user {s : Slot} (hm : s.mode = .user) (h : Apart s) : s.passes = [] := by
  rw [Apart, hm] at h
  exact h

theorem apart_passes {s : Slot} {passes : List Pc} (h : Apart s) (hm : s.mode ≠ .user)
    (hb : NoBuild s.passes s.p.handlers → NoBuild passes s.p.handlers) :
    Apart { s with passes } := by
  cases hmode : s.mode with
  | user => exact absurd hmode hm
  | kernel k after =>
    intro sys entry hc
    obtain ⟨hinv, hold⟩ := apart_kernel hmode h hc
    exact ⟨hinv, hb hold⟩
  | trapret call =>
    cases call with
    | none => trivial
    | some call =>
      rw [Apart, hmode] at h
      exact ⟨h.1, hb h.2⟩
  | unused => trivial
  | zombie => trivial

theorem apart_sig {s : Slot} {pc pc' : Pc} {rest : List Pc} {p : Proc} (hp : s.passes = pc :: rest)
    (hs : sigStep s.p pc = .ok (p, pc')) (hC : Undisturbed s .sig) (h : Apart s) :
    Apart { s with p, passes := pc' :: rest } := by
  have hquiet : s.inCall = true → NoBuild s.passes s.p.handlers →
      SameUser s.p p ∧ NoBuild (pc' :: rest) p.handlers := by
    intro hin hb
    rw [hp] at hb
    refine ⟨sigStep_sameUser hs ?_, sigStep_clear hs (hC hin pc (by rw [hp]; rfl)) hb⟩
    intro i hi
    exact hb pc mem_cons_self (by rw [hi]; rfl)
  cases hmode : s.mode with
  | user =>
    rw [apart_user hmode h] at hp
    cases hp
  | kernel k after =>
    intro sys entry hc
    obtain ⟨hinv, hb⟩ := apart_kernel hmode h hc
    have hin : s.inCall = true := by
      cases after with
      | sysret c => rw [Slot.inCall, hmode]
      | exit => cases hc
      | forkret => cases hc
    obtain ⟨hsame, hb⟩ := hquiet hin hb
    have huser : p.user = s.p.user := by rw [Proc.user, hsame.tf, hsame.mem, hsame.sz]; rfl
    rw [huser]
    exact ⟨hinv, hb⟩
  | trapret call =>
    cases call with
    | none => trivial
    | some call =>
      rw [Apart, hmode] at h
      obtain ⟨hsame, hb⟩ := hquiet (by rw [Slot.inCall, hmode]) h.2
      dsimp only [Apart]
      rw [hsame.tf]
      exact ⟨h.1, hb⟩
  | unused => trivial
  | zombie => trivial

theorem apart_moved {s s' : Slot} {mv : Move} (hmove : Moved s mv s') (hC : Undisturbed s mv)
    (h : Apart s) : Apart s' := by
  cases hmove with
  | user tf writes mem hm _ _ _ =>
    have hp := apart_user hm h
    simp only [Apart, hm]
    exact hp
  | intExit | intrExit | fault | retExit => exact fun _ _ hc => nomatch hc
  | intUnknown | intr | exited | forked => trivial
  | intCall sys hm _ =>
    intro sys' entry hc
    cases hc
    dsimp only
    rw [apart_user hm h]
    exact ⟨.enter sys s.p, noBuild_nil _⟩
  | irqKernel k after hm => exact apart_passes h (by rw [hm]; nofun) noBuild_entry
  | irqTrapret call hm => exact apart_passes h (by rw [hm]; nofun) noBuild_entry
  | sig pc pc' rest p hp hs => exact apart_sig hp hs hC h
  | pop rest hp =>
    refine apart_passes h ?_ fun hb pc hpc => hb pc (by rw [hp]; exact mem_cons_of_mem _ hpc)
    intro hm
    rw [apart_user hm h] at hp
    cases hp
  | iret call hm hp => exact hp
  | path b k k' after hm hp hn =>
    intro sys entry hc
    obtain ⟨hinv, hb⟩ := apart_kernel hm h hc
    exact ⟨hinv.next hn, hb⟩
  | act a k after after' held p hm hp _ ha =>
    intro sys entry hc
    dsimp only at hc ⊢
    rw [actOn_call ha] at hc
    obtain ⟨hinv, _⟩ := apart_kernel hm h hc
    rw [hp]
    refine ⟨hinv.act ?_ ?_, noBuild_nil _⟩
    · intro hw
      obtain ⟨htf, hmem, hsz, _⟩ := actOn_user ha (by rintro rfl; cases hw)
      rw [Proc.user, htf, hmem, hsz]
      rfl
    · -- of these actions only `sigret` replaces the frame
      intro hw
      exact (actOn_user ha (by rintro rfl; cases hw)).1
  | touch mem sz k after hm hp =>
    intro sys entry hc
    obtain ⟨hinv, hb⟩ := apart_kernel hm h hc
    exact ⟨hinv.act nofun fun _ => rfl, hb⟩
  | exec mem sz eip esp k after hm hp =>
    intro sys entry hc
    obtain ⟨hinv, hb⟩ := apart_kernel hm h hc
    exact ⟨hinv.act nofun nofun, hb⟩
  | ret v c hm hp =>
    obtain ⟨hinv, _⟩ := apart_kernel hm h rfl
    refine ⟨⟨rfl, fun he hr => ?_⟩, noBuild_entry (noBuild_nil _)⟩
    show { s.p.tf with eax := v } = { c.entry.tf with eax := v }
    rw [show s.p.tf = c.entry.tf from hinv.frame he hr]

theorem apart_slotStep {m : Machine} {s s' : Slot} (h : Apart s)
    (hstep : SlotStep Undisturbed m s s') : Apart s' := by
  cases hstep with
  | own mv hC hmove => exact apart_moved hmove hC h
  | finish a r ha hf =>
    obtain ⟨k, c, hm, _, rfl⟩ := finish_mode hf
    intro sys entry hc
    obtain ⟨hinv, hb⟩ := apart_kernel hm h hc
    exact ⟨hinv.act (fun _ => rfl) (fun _ => rfl), hb⟩
  | signalled t => exact h
  | born i pid _ _ => trivial
  | reaped _ => trivial

theorem isolated_of_apart {s : Slot} (h : Apart s) : Isolated s := by
  unfold Isolated
  split
  · next k c hm =>
    obtain ⟨hinv, _⟩ := apart_kernel hm h rfl
    refine ⟨fun he hr => ?_, fun n rest hk => ?_⟩
    · rw [show s.p.tf = c.entry.tf from hinv.frame he hr]
      exact ⟨rfl, rfl⟩
    · apply argint_congr
      apply hinv.args
      rw [hk]
      rfl
  · next sys entry v hm =>
    rw [Apart, hm] at h
    intro _
    refine ⟨h.1.1, fun he hr => ?_⟩
    rw [h.1.2 he hr]
    exact ⟨rfl, rfl⟩
  · trivial

/-- In user mode no pass is under way. -/
theorem passes_user {initcode : Word → Byte} {ls : List Label} {m : Machine}
    (hrun : run machineStep (boot initcode) ls = some m) (i : SlotId) : (m i).mode = .user → (m i).passes = [] := by
  have hall : Along machineStep (OwnMoves fun _ _ => True) (boot initcode) ls := by
    refine along_of_forall (fun m l => ?_) _ ls
    cases l <;> trivial
  refine machine_invariant (P := fun s => s.mode = .user → s.passes = []) ?_ ?_ hall hrun i
  · intro i
    unfold boot
    split <;> rintro ⟨⟩
  · intro m s s' _ h hstep huser
    cases hstep with
    | own mv _ hmove =>
      cases hmove with
      | user _ _ _ hm => exact h hm
      | irqKernel _ _ hm | irqTrapret _ hm => cases hm.symm.trans huser
      | sig _ _ _ _ hp | pop _ hp => cases (h huser).symm.trans hp
      | iret _ _ hp => exact hp
      | _ => cases huser
    | finish a r _ hf =>
      obtain ⟨_, _, _, _, rfl⟩ := finish_mode hf
      cases huser
    | signalled t => exact h huser
    | born | reaped => cases huser

/-- **System calls are isolated from signals**: process `i` was in user mode, in any reachable state, and since then no
pass inside a system call that it makes, nested or on its return path, looks at a deliverable signal with a user
handler. -/
theorem isolated_of_undisturbed (initcode : Word → Byte) (before ls : List Label) (m₀ m : Machine) (i : SlotId)
    (hbefore : run machineStep (boot initcode) before = some m₀) (huser : (m₀ i).mode = .user)
    (hC : Along machineStep (MovesOf i Undisturbed) m₀ ls) (hrun : run machineStep m₀ ls = some m) :
    Isolated (m i) := by
  have hstart : Apart (m₀ i) := by
    rw [Apart, huser]
    exact passes_user hbefore i huser
  exact isolated_of_apart (slot_invariant hstart (fun _ _ _ => apart_slotStep) hC hrun)

/-- The first process calls `signal(3, 0x200)`, is interrupted in the call, and is
about to go back to user mode. -/
def interruptedSignal : List Label :=
  userCall 0 23 3 0x200 ++ owns 0 [.irq, .sig, .pop] ++
    straight 0 (sysPath .signal) ++ owns 0 [.ret (-1), .sig, .pop]

def Slot.inUser (s : Slot) : Bool :=
  match s.mode with
  | .user => true
  | _ => false

theorem Slot.mode_of_inUser {s : Slot} (h : s.inUser = true) : s.mode = .user := by
  unfold Slot.inUser at h
  split at h
  · assumption
  · cases h

theorem isolated_of_undisturbed_interruptedSignal : ∃ m₀ m,
    run machineStep (boot fun _ => 0x90) firstReturn = some m₀ ∧ run machineStep m₀ interruptedSignal = some m ∧
      Isolated (m 0) := by
  have heval : (run machineStep (boot fun _ => 0x90) firstReturn).map (fun m₀ => ((m₀ 0).inUser,
      decide (Along machineStep (OwnMoves Undisturbed) m₀ interruptedSignal),
      (run machineStep m₀ interruptedSignal).isSome)) = some (true, true, true) := by
    decide +kernel
  obtain ⟨m₀, hm₀, hfields⟩ := Option.map_eq_some_iff.mp heval
  simp only [Prod.mk.injEq, decide_eq_true_eq] at hfields
  obtain ⟨huser, hown, hsome⟩ := hfields
  obtain ⟨m, hm⟩ := Option.isSome_iff_exists.mp hsome
  have hC : Along machineStep (MovesOf 0 Undisturbed) m₀ interruptedSignal :=
    (always_of_invariant (fun _ => True) (P := fun _ => True) (fun _ _ _ _ _ _ => trivial) (fun _ _ => trivial)
      (fun m l _ hl mv heq => by rwa [heq] at hl) trivial hown).2
  exact ⟨m₀, m, hm₀, hm, isolated_of_undisturbed _ _ _ m₀ m 0 hm₀ (Slot.mode_of_inUser huser) hC hm⟩

/-- With that handler installed the process calls `kill(getpid(), 3)`, and an
interrupt arrives before the call has returned. -/
def interruptedKill : List Label :=
  firstReturn ++ interruptedSignal ++ owns 0 [.iret] ++ userCall 0 6 2 3 ++ straight 0 (sysPath .kill) ++
    owns 0 (.irq :: replicate 11 .sig ++ [.pop])

/-- The system call from which the first process is returning. -/
def returning (m : Machine) : Option Call :=
  match (m 0).mode with
  | .kernel [] (.sysret c) => some c
  | _ => none

theorem mode_of_returning {m : Machine} {c : Call} (h : returning m = some c) :
    (m 0).mode = .kernel [] (.sysret c) := by
  unfold returning at h
  split at h
  · next hmode =>
    cases h
    exact hmode
  · cases h

/-- The interrupt delivers the signal: `kill` goes on with another `esp` and `eip`. -/
theorem interrupted_call_loses_frame : ∃ m c,
    run machineStep (boot fun _ => 0x90) interruptedKill = some m ∧
      (m 0).mode = .kernel [] (.sysret c) ∧ c.sys = .kill ∧
      c.entry.tf.esp = 0x800 ∧ (m 0).p.tf.esp = 0x7f1 ∧
      c.entry.tf.eip = 0 ∧ (m 0).p.tf.eip = 0x200 ∧ ¬Isolated (m 0) := by
  have heval : (run machineStep (boot fun _ => 0x90) interruptedKill).map (fun m =>
      (returning m).map fun c => (c.sys, c.entry.tf.esp, (m 0).p.tf.esp, c.entry.tf.eip, (m 0).p.tf.eip)) =
        some (some (.kill, 0x800, 0x7f1, 0, 0x200)) := by
    decide +kernel
  obtain ⟨m, hm, hfields⟩ := Option.map_eq_some_iff.mp heval
  obtain ⟨c, hc, hfields⟩ := Option.map_eq_some_iff.mp hfields
  have hmode := mode_of_returning hc
  simp only [Prod.mk.injEq] at hfields
  obtain ⟨hsys, hesp, hesp', heip, heip'⟩ := hfields
  refine ⟨m, c, hm, hmode, hsys, hesp, hesp', heip, heip', fun hiso => ?_⟩
  rw [Isolated, hmode] at hiso
  obtain ⟨hkeep, _⟩ := hiso.1 (by rw [hsys]; decide) (by rw [hsys]; decide)
  rw [hesp, hesp'] at hkeep
  exact absurd hkeep (by decide)

end Xv6
