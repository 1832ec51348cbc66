import Xv6.Machine

/- What a stopped process holds.

   `handle_SIGSTOP` waits where it is called, in `check_kernel_sigs`. Called on
   the way back to user mode, the process holds nothing. Called on the way back
   from an interrupt taken in the kernel, it keeps whatever the interrupted code
   holds: buffer and inode sleep-locks, and its place in a transaction.

   1. `stopped_holds_nothing`: in every run in which no pass of an interrupt taken in
      the kernel looks at a stop signal, a process in the wait loop holds no
      sleep-lock and is in no transaction: every piece of kernel code gives back
      what it takes (`Balanced`).
   2. `stopped_in_transaction`: a `SIGSTOP` sent to a process in `mkdir` and an
      interrupt there leave it stopped between `begin_op` and `end_op`. -/
namespace Xv6
open List Bits ByteMem Paths Transition

/-- A pass of the process is in the wait loop of `handle_SIGSTOP`. -/
def Slot.stopped (s : Slot) : Prop := ∃ k, .stopTest k ∈ s.passes

/-- The process is in kernel code: what runs on top of it are interrupts. -/
def Mode.inKernel : Mode → Bool
  | .kernel _ _ => true
  | _ => false

/-- No pass that an interrupt in kernel code leads to looks at a stop signal that is
pending and unblocked. -/
def StopsOutside (s : Slot) : Move → Prop
  | .sig => s.mode.inKernel = true → ∀ pc ∈ s.passes.head?, ¬Examines .stop s.p pc
  | _ => True

instance (s : Slot) : (mv : Move) → Decidable (StopsOutside s mv)
  | .sig => inferInstanceAs
      (Decidable (s.mode.inKernel = true → ∀ pc ∈ s.passes.head?, ¬Examines .stop s.p pc))
  | .user _ _ | .int | .intr | .fault | .irq | .pop | .iret | .path _ | .act | .touch _ _
  | .exec _ _ _ _ | .ret _ => isTrue trivial

/-! ## The invariant -/

/-- The code a process has still to run in the kernel gives back all it holds. -/
def Balanced (s : Slot) : Prop :=
  match s.mode with
  | .kernel k _ => checkAll hold k s.held = some .nothing
  | _ => s.held = .nothing

/-- A process in kernel code is not about to stop. Outside of the kernel there is no
pass at all. -/
def Unstopped (s : Slot) : Prop :=
  match s.mode with
  | .trapret _ => True
  | .kernel _ _ => ∀ pc ∈ s.passes, ¬Commits .stop s.p.handlers pc
  | _ => s.passes = []

theorem checkAll_exit : checkAll hold [exit] .nothing = some .nothing := by
  rw [checkAll, show check hold exit .nothing = _ from sysPath_balanced .exit .nothing]
  rfl

theorem balanced_kernel (s : Slot) {k : List Path} {after : After} (hm : s.mode = .kernel k after)
    (h : Balanced s) : checkAll hold k s.held = some .nothing := by
  rw [Balanced, hm] at h
  exact h

theorem checkAll_neutral {a : Act} {k : List Path} {r : Held} (ha : hold a r = some r)
    (h : checkAll hold (.act a :: k) r = some .nothing) : checkAll hold k r = some .nothing := by
  obtain ⟨r', hr, hk⟩ := checkAll_act h
  rw [ha] at hr
  cases hr
  exact hk

theorem balanced_end (s : Slot) {after : After} (hm : s.mode = .kernel [] after)
    (h : Balanced s) : s.held = .nothing :=
  Option.some.inj (balanced_kernel s hm h)

theorem balanced_user (s : Slot) (hm : s.mode = .user) (h : Balanced s) : s.held = .nothing := by
  rw [Balanced, hm] at h
  exact h

theorem balanced_toExit {s : Slot} (h : s.held = .nothing) : Balanced s.toExit := by
  show checkAll hold [exit] s.held = some .nothing
  rw [h, checkAll_exit]

theorem balanced_moved {s s' : Slot} {mv : Move} (hmove : Moved s mv s') (h : Balanced s) :
    Balanced s' := by
  cases hmove with
  | user tf writes mem hm _ _ _ =>
    simp only [Balanced, hm]
    exact balanced_user s hm h
  | intExit hm => exact balanced_toExit (balanced_user s hm h)
  | intrExit hm => exact balanced_toExit (balanced_user s hm h)
  | fault hm => exact balanced_toExit (balanced_user s hm h)
  | intUnknown hm => exact balanced_user s hm h
  | intr hm => exact balanced_user s hm h
  | intCall sys hm _ =>
    show checkAll hold [sysPath sys] s.held = some .nothing
    rw [balanced_user s hm h, checkAll, sysPath_balanced]
    rfl
  | irqKernel => exact h
  | irqTrapret => exact h
  | sig => exact h
  | pop => exact h
  | iret call hm hp =>
    rw [Balanced, hm] at h
    exact h
  | path b k k' after hm hp hn => exact checkAll_next hn (balanced_kernel s hm h)
  | act a k after after' held p hm hp hh _ =>
    obtain ⟨held', hh', hk⟩ := checkAll_act (balanced_kernel s hm h)
    rw [hh] at hh'
    cases hh'
    exact hk
  | touch mem sz k after hm hp => exact checkAll_neutral rfl (balanced_kernel s hm h)
  | exec mem sz eip esp k after hm hp => exact checkAll_neutral rfl (balanced_kernel s hm h)
  | retExit v c hm hp => exact balanced_toExit (balanced_end s hm h)
  | ret v c hm hp => exact balanced_end s hm h
  | exited v hm hp => exact balanced_end s hm h
  | forked v hm hp => exact balanced_end s hm h

theorem unstopped_nil {s : Slot} (h : s.passes = []) : Unstopped s := by
  unfold Unstopped
  split
  · trivial
  · rw [h]
    nofun
  · exact h

theorem unstopped_kernel {s : Slot} {k : List Path} {after : After} (hm : s.mode = .kernel k after)
    (h : Unstopped s) : ∀ pc ∈ s.passes, ¬Commits .stop s.p.handlers pc := by
  rw [Unstopped, hm] at h
  exact h

theorem unstopped_user {s : Slot} (hm : s.mode = .user) (h : Unstopped s) : s.passes = [] := by
  rw [Unstopped, hm] at h
  exact h

theorem unstopped_sig {s : Slot} {pc pc' : Pc} {rest : List Pc} {p : Proc} (hp : s.passes = pc :: rest)
    (hs : sigStep s.p pc = .ok (p, pc')) (hC : StopsOutside s .sig) (h : Unstopped s) :
    Unstopped { s with p, passes := pc' :: rest } := by
  unfold Unstopped at h ⊢
  dsimp only
  split at h
  · trivial
  · next hm =>
    rw [hp] at h
    exact sigStep_clear hs (hC (by rw [hm]; rfl) pc (by rw [hp]; rfl)) h
  · rw [hp] at h
    cases h

theorem unstopped_pop {s : Slot} {rest : List Pc} (hp : s.passes = .done :: rest) (h : Unstopped s) :
    Unstopped { s with passes := rest } := by
  unfold Unstopped at h ⊢
  dsimp only
  split at h
  · trivial
  · exact fun pc hpc => h pc (by rw [hp]; exact mem_cons_of_mem _ hpc)
  · rw [hp] at h
    cases h

theorem unstopped_moved {s s' : Slot} {mv : Move} (hmove : Moved s mv s') (hC : StopsOutside s mv)
    (h : Unstopped s) : Unstopped s' := by
  cases hmove with
  | user tf writes mem hm _ _ _ => exact unstopped_nil (unstopped_user hm h)
  | intExit | intrExit | fault | retExit => exact unstopped_nil rfl
  | intUnknown | intr | ret | forked => trivial
  | intCall sys hm _ =>
    have hp := unstopped_user hm h
    exact unstopped_nil hp
  | irqKernel k after hm =>
    simp only [Unstopped, hm, mem_cons, forall_eq_or_imp]
    exact ⟨id, unstopped_kernel hm h⟩
  | irqTrapret call hm => simp only [Unstopped, hm]
  | sig pc pc' rest p hp hs => exact unstopped_sig hp hs hC h
  | pop rest hp => exact unstopped_pop hp h
  | iret call hm hp => exact unstopped_nil hp
  | path b k k' after hm hp hn => exact unstopped_nil hp
  | act a k after after' held p hm hp _ _ => exact unstopped_nil hp
  | touch mem sz k after hm hp => exact unstopped_nil hp
  | exec mem sz eip esp k after hm hp => exact unstopped_nil hp
  | exited v hm hp => exact unstopped_nil hp

theorem stopped_slotStep {m : Machine} {s s' : Slot} (h : Balanced s ∧ Unstopped s)
    (hstep : SlotStep StopsOutside m s s') : Balanced s' ∧ Unstopped s' := by
  cases hstep with
  | own mv hC hmove => exact ⟨balanced_moved hmove h.1, unstopped_moved hmove hC h.2⟩
  | finish a r ha hf =>
    obtain ⟨k, c, hm, hp, rfl⟩ := finish_mode hf
    have hsame : hold a s.held = some s.held := by
      rcases ha with rfl | rfl | rfl <;> rfl
    exact ⟨checkAll_neutral hsame (balanced_kernel s hm h.1), unstopped_nil hp⟩
  | signalled t => exact h
  | born i pid _ _ => exact ⟨rfl, trivial⟩
  | reaped hm =>
    obtain ⟨hb, hu⟩ := h
    rw [Balanced, hm] at hb
    rw [Unstopped, hm] at hu
    exact ⟨hb, hu⟩

/-- In the wait loop a process is on its way back to user mode, where all has been
given back. -/
theorem held_of_stopped {s : Slot} (hb : Balanced s) (hu : Unstopped s) (hstop : s.stopped) :
    s.held = .nothing := by
  obtain ⟨k, hk⟩ := hstop
  unfold Unstopped at hu
  split at hu
  · next hm =>
    rw [Balanced, hm] at hb
    exact hb
  · exact absurd (.inl rfl) (hu _ hk)
  · rw [hu] at hk
    cases hk

/-- **A stopped process holds no sleep-lock and is in no transaction**, in every run
in which no pass that an interrupt in kernel code leads to comes to a stop signal. -/
theorem stopped_holds_nothing (initcode : Word → Byte) (ls : List Label) (m : Machine)
    (hC : Along machineStep (OwnMoves StopsOutside) (boot initcode) ls)
    (hrun : run machineStep (boot initcode) ls = some m) (i : SlotId)
    (hstop : (m i).stopped) : (m i).held.locks = 0 ∧ (m i).held.op = 0 := by
  have hinv : Balanced (m i) ∧ Unstopped (m i) := by
    refine machine_invariant ?_ (fun m s s' _ h hstep => stopped_slotStep h hstep) hC hrun i
    intro i
    unfold boot
    split
    · refine ⟨?_, unstopped_nil rfl⟩
      show checkAll hold [forkretFirst] .nothing = some .nothing
      rw [checkAll, forkretFirst_balanced]
      rfl
    · exact ⟨rfl, unstopped_nil rfl⟩
  rw [held_of_stopped hinv.1 hinv.2 hstop]
  exact ⟨rfl, rfl⟩

/-- The first process forks, and the child in slot 1 comes to user mode. -/
def forksOnce : List Label :=
  firstReturn ++ userCall 0 1 0 0 ++ [.fork 0 1 3] ++ quietReturn 0 3 ++ owns 1 [.sig, .pop, .iret]

/-- The child sends the first process `SIGSTOP`. -/
def childStops : List Label := userCall 1 6 2 17 ++ straight 1 (sysPath .kill)

/-- The interrupt whose pass finds `SIGSTOP`, up to the test of the wait loop. -/
def stopPass : List Label := owns 0 (replicate 21 .sig)

/-- The signal comes while the first process is in user mode. -/
def stoppedOutside : List Label := forksOnce ++ childStops ++ owns 0 [.intr] ++ stopPass

theorem stopped_holds_nothing_outside :
    Along machineStep (OwnMoves StopsOutside) (boot fun _ => 0x90) stoppedOutside ∧
    ∃ m, run machineStep (boot fun _ => 0x90) stoppedOutside = some m ∧ (m 0).stopped ∧
      (m 0).held.locks = 0 ∧ (m 0).held.op = 0 := by
  have hC : Along machineStep (OwnMoves StopsOutside) (boot fun _ => 0x90) stoppedOutside := by
    decide +kernel
  have heval : (run machineStep (boot fun _ => 0x90) stoppedOutside).map
      (fun m => (m 0).passes.head?) =
        some (some (.stopTest (.disp 17 ((finRange 32).drop 18)))) := by
    decide +kernel
  obtain ⟨m, hm, hhead⟩ := Option.map_eq_some_iff.mp heval
  have hstop : (m 0).stopped := ⟨_, mem_of_head? hhead⟩
  exact ⟨hC, m, hm, hstop, stopped_holds_nothing _ _ m hC hm 0 hstop⟩

/-- The signal and an interrupt come right after the `begin_op` of a `mkdir`. -/
def stoppedInside : List Label :=
  forksOnce ++ userCall 0 20 0x900 0 ++ owns 0 [.path false, .act] ++ childStops ++
    owns 0 [.irq] ++ stopPass

theorem stopped_in_transaction : ∃ m,
    run machineStep (boot fun _ => 0x90) stoppedInside = some m ∧ (m 0).stopped ∧
      (m 0).held.op = 1 := by
  have heval : (run machineStep (boot fun _ => 0x90) stoppedInside).map
      (fun m => ((m 0).passes.head?, (m 0).held.op)) =
        some (some (.stopTest (.disp 17 ((finRange 32).drop 18))), 1) := by
    decide +kernel
  obtain ⟨m, hm, hfields⟩ := Option.map_eq_some_iff.mp heval
  simp only [Prod.mk.injEq] at hfields
  exact ⟨m, hm, ⟨_, mem_of_head? hfields.1⟩, hfields.2⟩

end Xv6
