import Xv6.Machine
import Xv6.SigFrame

/- What follows from `trap_backup` never being assigned.

   `trap_backup` is a pointer field of `struct proc` that the kernel reads and
   never sets. The process table starts zeroed, so in every slot, for ever, it
   points to address 0 (`trapBackup_zero`): the first bytes of the program's own
   text.

   1. `deliver_footprint_reachable_iff`: a delivery saves the trap frame over the
      first 76 bytes of user memory. Outside the pushed frame it leaves memory
      unchanged exactly when those bytes already held the frame.
   2. `returns_with_user_privilege`: `sigret` takes the whole frame, segments and
      flags included, from those bytes, which user code can write. Every return
      to user mode has the user segments, interrupts on and IOPL 0 as long as
      each `sigret` finds such a frame there and user code leaves `ds` and `es`
      alone. -/
namespace Xv6
open Bits ByteMem Paths Transition

/-! ## The pointer -/

theorem moved_trapBackup {s s' : Slot} {mv : Move} (h : Moved s mv s') :
    s'.p.trapBackup = s.p.trapBackup := by
  cases h with
  | sig pc pc' rest p hp hs => exact sigStep_trapBackup hs
  | act a k after after' held p hm hp hh ha => exact actOn_trapBackup ha
  | _ => rfl

theorem trapBackup_zero {initcode : Word → Byte} {ls : List Label} {m : Machine}
    (hrun : run machineStep (boot initcode) ls = some m) (i : SlotId) :
    (m i).p.trapBackup = 0 := by
  have hall : Along machineStep (OwnMoves fun _ _ => True) (boot initcode) ls := by
    apply along_of_forall
    intro m l
    cases l <;> trivial
  refine machine_invariant (P := fun s => s.p.trapBackup = 0) ?_ ?_ hall hrun i
  · intro i
    unfold boot
    split <;> rfl
  · intro m s s' _ hs hstep
    cases hstep with
    | own mv _ hmove => exact (moved_trapBackup hmove).trans hs
    | finish a r _ hf =>
      obtain ⟨k, c, _, _, rfl⟩ := finish_mode hf
      exact hs
    | signalled t => exact hs
    | born i pid _ _ => exact hs
    | reaped _ => exact hs

/-! ## What a delivery overwrites -/

/-- **The footprint of a delivery**, in any process of any reachable table:
outside the frame it pushes, memory is unchanged exactly when its first 76 bytes
already held the trap frame. -/
theorem deliver_footprint_reachable_iff (initcode : Word → Byte) (ls : List Label) (m : Machine)
    (hrun : run machineStep (boot initcode) ls = some m) (i : SlotId) (arrive : Sig → Word)
    (q : Proc) (sig : Sig)
    (hpass : checkKernelSigs arrive (some (m i).p) = .ok ⟨some q, some sig⟩) :
    (∀ a, 15 ≤ ahead (frameBase (m i).p.tf.esp) a → q.mem a = (m i).p.mem a) ↔
      ∀ a, 15 ≤ ahead (frameBase (m i).p.tf.esp) a → a.toNat < trapframeSize →
        (m i).p.mem a = (m i).p.tf.bytes[a.toNat]? := by
  have hahead : ∀ a : Word, ahead (m i).p.trapBackup a = a.toNat := by
    intro a
    rw [trapBackup_zero hrun i]
    simp [ahead]
  simpa only [hahead] using deliver_footprint_iff hpass

/-- The first process installs a handler at 0x200 for signal 3, sends itself that
signal and is about to return from `kill`. -/
def signalsItself : List Label :=
  firstReturn ++ userCall 0 23 3 0x200 ++ straight 0 (sysPath .signal) ++ quietReturn 0 (-1) ++
    userCall 0 6 2 3 ++ straight 0 (sysPath .kill) ++ [.own 0 (.ret 0)]

/-- The process after a pass that delivers a signal, and the signal. -/
def delivered (p : Proc) : Option (Proc × Sig) :=
  match checkKernelSigs (fun _ => 0) (some p) with
  | .ok ⟨some q, some s⟩ => some (q, s)
  | _ => none

theorem pass_of_delivered {p q : Proc} {s : Sig} (h : delivered p = some (q, s)) :
    checkKernelSigs (fun _ => 0) (some p) = .ok ⟨some q, some s⟩ := by
  unfold delivered at h
  split at h
  · next hpass =>
    cases h
    exact hpass
  · cases h

theorem signalsItself_delivers : ∃ m q,
    run machineStep (boot fun _ => 0x90) signalsItself = some m ∧
      checkKernelSigs (fun _ => 0) (some (m 0).p) = .ok ⟨some q, some 3⟩ ∧
      15 ≤ ahead (frameBase (m 0).p.tf.esp) 0 ∧ q.mem 0 = some 0 ∧ (m 0).p.mem 0 = some 0x90 := by
  have heval : (run machineStep (boot fun _ => 0x90) signalsItself).map (fun m =>
      (delivered (m 0).p).map fun r =>
        (r.2, decide (15 ≤ ahead (frameBase (m 0).p.tf.esp) 0), r.1.mem 0, (m 0).p.mem 0)) =
          some (some (3, true, some 0, some 0x90)) := by
    decide
  obtain ⟨m, hm, hpass⟩ := Option.map_eq_some_iff.mp heval
  obtain ⟨⟨q, s⟩, hq, hpass⟩ := Option.map_eq_some_iff.mp hpass
  simp only [Prod.mk.injEq, decide_eq_true_eq] at hpass
  obtain ⟨rfl, hout, hmem, hold⟩ := hpass
  exact ⟨m, q, hm, pass_of_delivered hq, hout, hmem, hold⟩

theorem deliver_footprint_reachable_signalsItself : ∃ m q,
    run machineStep (boot fun _ => 0x90) signalsItself = some m ∧
      checkKernelSigs (fun _ => 0) (some (m 0).p) = .ok ⟨some q, some 3⟩ ∧
      ((∀ a, 15 ≤ ahead (frameBase (m 0).p.tf.esp) a → q.mem a = (m 0).p.mem a) ↔
        ∀ a, 15 ≤ ahead (frameBase (m 0).p.tf.esp) a → a.toNat < trapframeSize →
          (m 0).p.mem a = (m 0).p.tf.bytes[a.toNat]?) := by
  obtain ⟨m, q, hm, hq, _⟩ := signalsItself_delivers
  exact ⟨m, q, hm, hq, deliver_footprint_reachable_iff _ _ m hm 0 _ q 3 hq⟩

/-- The first instruction of the program is gone after the delivery. -/
theorem delivery_overwrites_text : ∃ m q,
    run machineStep (boot fun _ => 0x90) signalsItself = some m ∧
      checkKernelSigs (fun _ => 0) (some (m 0).p) = .ok ⟨some q, some 3⟩ ∧
      ∃ a, 15 ≤ ahead (frameBase (m 0).p.tf.esp) a ∧ q.mem a ≠ (m 0).p.mem a := by
  obtain ⟨m, q, hm, hq, hout, hnew, hold⟩ := signalsItself_delivers
  refine ⟨m, q, hm, hq, 0, hout, ?_⟩
  rw [hnew, hold]
  decide

/-! ## Privilege -/

/-- The frame `sigret` will load, where it is what the process does next. -/
def sigretFrame (s : Slot) : Option Trapframe :=
  match s.mode, load s.p.mem s.p.trapBackup trapframeSize with
  | .kernel (.act .sigret :: _) _, .ok bs => some (.ofBytes bs)
  | _, _ => none

/-- User code leaves its data segments alone, and `sigret` finds a frame of user
privilege. -/
def KeepsPriv (s : Slot) : Move → Prop
  | .user tf _ => tf.ds = s.p.tf.ds ∧ tf.es = s.p.tf.es
  | .act => ∀ tf ∈ sigretFrame s, tf.UserPriv
  | _ => True

instance (tf : Trapframe) : Decidable tf.UserPriv :=
  decidable_of_iff
    (tf.cs = userCode ∧ tf.ss = userData ∧ tf.ds = userData ∧ tf.es = userData ∧
      tf.eflags &&& FL_IF = FL_IF ∧ tf.eflags &&& FL_IOPL_MASK = 0)
    ⟨fun ⟨a, b, c, d, e, f⟩ => ⟨a, b, c, d, e, f⟩, fun ⟨a, b, c, d, e, f⟩ => ⟨a, b, c, d, e, f⟩⟩

instance (s : Slot) : (mv : Move) → Decidable (KeepsPriv s mv)
  | .user tf _ => inferInstanceAs (Decidable (tf.ds = s.p.tf.ds ∧ tf.es = s.p.tf.es))
  | .act => inferInstanceAs (Decidable (∀ tf ∈ sigretFrame s, tf.UserPriv))
  | .int | .intr | .fault | .irq | .sig | .pop | .iret | .path _ | .touch _ _ | .exec _ _ _ _
  | .ret _ => isTrue trivial

theorem userPriv_of_samePriv {tf tf' : Trapframe} (h : SamePriv tf tf') (hds : tf'.ds = tf.ds)
    (hes : tf'.es = tf.es) (hp : tf.UserPriv) : tf'.UserPriv := by
  obtain ⟨hcs, hss, hfl⟩ := h
  have hflag : ∀ b : Word, (FL_IF ||| FL_IOPL_MASK) &&& b = b → tf'.eflags &&& b = tf.eflags &&& b := by
    intro b hb
    rw [← hb, ← BitVec.and_assoc, hfl, BitVec.and_assoc]
  exact ⟨hcs.trans hp.cs, hss.trans hp.ss, hds.trans hp.ds, hes.trans hp.es,
    (hflag FL_IF (by decide)).trans hp.intr, (hflag FL_IOPL_MASK (by decide)).trans hp.iopl⟩

theorem userPriv_congr {tf tf' : Trapframe} (hp : tf.UserPriv)
    (h : ∃ eax esp eip, tf' = { tf with eax, esp, eip }) : tf'.UserPriv := by
  obtain ⟨eax, esp, eip, rfl⟩ := h
  exact ⟨hp.cs, hp.ss, hp.ds, hp.es, hp.intr, hp.iopl⟩

theorem actOn_userPriv {s : Slot} {a : Act} {k : List Path} {after after' : After} {q : Proc}
    (hmode : s.mode = .kernel (.act a :: k) after) (h : actOn s.p after a = some (q, after'))
    (hk : KeepsPriv s .act) (hp : s.p.tf.UserPriv) : q.tf.UserPriv := by
  by_cases ha : a = .sigret
  · subst ha
    obtain ⟨bs, c, hbs, _, rfl, _⟩ := actOn_sigret h
    exact hk (.ofBytes bs) (by simp [sigretFrame, hmode, hbs])
  · rw [(actOn_user h ha).1]
    exact hp

theorem moved_userPriv {s s' : Slot} {mv : Move} (h : Moved s mv s') (hk : KeepsPriv s mv)
    (hp : s.p.tf.UserPriv) : s'.p.tf.UserPriv := by
  cases h with
  | user tf writes mem _ _ hsame _ => exact userPriv_of_samePriv hsame hk.1 hk.2 hp
  | intUnknown _ => exact userPriv_congr hp ⟨_, _, _, rfl⟩
  | sig pc pc' rest p _ hs =>
    obtain ⟨esp, eip, htf⟩ := sigStep_tf hs
    exact userPriv_congr hp ⟨_, esp, eip, htf⟩
  | act a k after after' held p hm _ _ ha => exact actOn_userPriv hm ha hk hp
  | exec mem sz eip esp k after _ _ => exact userPriv_congr hp ⟨_, esp, eip, rfl⟩
  | retExit v c _ _ => exact userPriv_congr hp ⟨v, _, _, rfl⟩
  | ret v c _ _ => exact userPriv_congr hp ⟨v, _, _, rfl⟩
  | _ => exact hp

theorem moved_used {s s' : Slot} {mv : Move} (h : Moved s mv s') (hused : s'.mode ≠ .unused) :
    s.mode ≠ .unused := by
  cases h with
  | sig => exact hused
  | pop => exact hused
  | _ =>
    intro hmode
    simp_all

theorem userPriv_of_used {initcode : Word → Byte} {ls : List Label} {m : Machine}
    (hC : Along machineStep (OwnMoves KeepsPriv) (boot initcode) ls)
    (hrun : run machineStep (boot initcode) ls = some m) (i : SlotId)
    (hused : (m i).mode ≠ .unused) : (m i).p.tf.UserPriv := by
  refine machine_invariant (P := fun s => s.mode ≠ .unused → s.p.tf.UserPriv) ?_ ?_ hC hrun i hused
  · intro i
    unfold boot
    split
    · exact fun _ => userinitFrame_priv
    · exact fun h => absurd rfl h
  · intro m s s' hm hs hstep
    cases hstep with
    | own mv hk hmove => exact fun hused => moved_userPriv hmove hk (hs (moved_used hmove hused))
    | finish a r _ hf =>
      obtain ⟨k, c, hmode, _, rfl⟩ := finish_mode hf
      exact fun _ => hs (by rw [hmode]; nofun)
    | signalled t => exact hs
    | born j pid _ hf =>
      -- the child's frame is a copy of its parent's
      obtain ⟨k, c, hmode, _, _⟩ := finish_mode hf
      have hparent := hm j (by rw [hmode]; nofun)
      exact fun _ => userPriv_congr hparent ⟨0, _, _, rfl⟩
    | reaped _ => exact fun h => absurd rfl h

/-- **Every return to user mode is one with user privilege**, in every run in which
each `sigret` finds a frame of user privilege at `trap_backup` and user code
leaves `ds` and `es` alone. -/
theorem returns_with_user_privilege (initcode : Word → Byte) (ls : List Label) (m m' : Machine)
    (hC : Along machineStep (OwnMoves KeepsPriv) (boot initcode) ls)
    (hrun : run machineStep (boot initcode) ls = some m) (i : SlotId)
    (hret : machineStep m (.own i .iret) = some m') : (m' i).p.tf.UserPriv := by
  obtain ⟨s, hs, rfl⟩ := Option.map_eq_some_iff.mp hret
  rw [Function.update_self]
  cases slotStep_moved hs with
  | iret call hmode _ => exact userPriv_of_used hC hrun i (by rw [hmode]; nofun)

/-- The pass that delivers signal 3, up to its return to the handler. -/
def deliversThree : List Label := owns 0 (List.replicate 11 .sig ++ [.pop, .iret])

/-- User code that has stored `writes` calls `sigret`, up to the return. -/
def callsSigret (writes : List (Word × List Byte)) : List Label :=
  owns 0 [.user { userinitFrame with eax := 24, esp := 0x7f5 } writes, .int] ++
    straight 0 (sysPath .sigret) ++ owns 0 [.ret 1, .sig, .pop]

theorem returns_with_user_privilege_from_handler : ∃ m m',
    Along machineStep (OwnMoves KeepsPriv) (boot fun _ => 0x90)
      (signalsItself ++ deliversThree ++ callsSigret []) ∧
    run machineStep (boot fun _ => 0x90) (signalsItself ++ deliversThree ++ callsSigret []) =
      some m ∧
    machineStep m (.own 0 .iret) = some m' ∧ (m' 0).p.tf.UserPriv := by
  have hC : Along machineStep (OwnMoves KeepsPriv) (boot fun _ => 0x90)
      (signalsItself ++ deliversThree ++ callsSigret []) := by decide +kernel
  have hsome : ((run machineStep (boot fun _ => 0x90)
      (signalsItself ++ deliversThree ++ callsSigret [])).bind
        fun m => machineStep m (.own 0 .iret)).isSome = true := by decide +kernel
  obtain ⟨m', hm'⟩ := Option.isSome_iff_exists.mp hsome
  obtain ⟨m, hrun, hret⟩ := Option.bind_eq_some_iff.mp hm'
  exact ⟨m, m', hC, hrun, hret, returns_with_user_privilege _ _ m m' hC hrun 0 hret⟩

/-- A frame with the kernel's code segment and IOPL 3. -/
def forgedFrame : Trapframe := { userinitFrame with cs := 8, eflags := 0x3202 }

/-- User code writes that frame to address 0 and calls `sigret`: the kernel returns
to ring 0. -/
theorem sigret_returns_to_ring_zero : ∃ m m',
    run machineStep (boot fun _ => 0x90) (firstReturn ++ callsSigret [(0, forgedFrame.bytes)]) =
      some m ∧
    machineStep m (.own 0 .iret) = some m' ∧ (m' 0).mode = .user ∧ (m' 0).p.tf.cs = 8 ∧
      ¬(m' 0).p.tf.UserPriv := by
  have heval : ((run machineStep (boot fun _ => 0x90)
      (firstReturn ++ callsSigret [(0, forgedFrame.bytes)])).bind
        fun m => machineStep m (.own 0 .iret)).map (fun m => (m 0).p.tf.cs) = some 8 := by
    decide +kernel
  obtain ⟨m', hm', hcs⟩ := Option.map_eq_some_iff.mp heval
  obtain ⟨m, hrun, hret⟩ := Option.bind_eq_some_iff.mp hm'
  refine ⟨m, m', hrun, hret, ?_, hcs, fun hp => ?_⟩
  · obtain ⟨s, hs, rfl⟩ := Option.map_eq_some_iff.mp hret
    rw [Function.update_self]
    cases slotStep_moved hs with
    | iret => rfl
  · exact absurd (hcs.symm.trans hp.cs) (by decide)

end Xv6
