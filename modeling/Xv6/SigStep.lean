import Mathlib
import Xv6.SigPass

/- `check_kernel_sigs` one step at a time.

   `checkKernelSigs` runs the whole pass at once. Between its steps other
   processes send signals, and an interrupt taken in kernel mode starts another
   pass on the same process. `Pc` is where a pass stands and `sigStep` its next
   step, fine enough for both: every test and assignment of the loop body is a
   step of its own, and the update of `pending` in `cancelSignal` is two, a load
   and a store.

   1. `checkKernelSigs_steps`: a pass that returns is a sequence of these steps,
      with signals arriving only where `handle_SIGSTOP` waits.
   2. `sigStep_sameUser`, `sigStep_pending`: which steps write the user's frame
      and memory, and which write `pending`.
   3. `sigStep_commits`: the only way into the wait loop of `handle_SIGSTOP`, and
      the only way to a user frame, is to look at a signal that is pending,
      unblocked and disposed so. -/
namespace Xv6
open Bits ByteMem

variable {arrive : Word} {p q : Proc}

/-- Where a pass stands. The loop counter is kept as the list of the signals
still to look at; a helper function keeps where it returns to. -/
inductive Pc where
  /-- The test at the head of the function. -/
  | entry
  /-- The head of the loop body. -/
  | scan (rest : List Sig)
  /-- Signal `i` is to be handled: the mask is about to be saved. -/
  | save (i : Sig) (rest : List Sig)
  | dfl (i : Sig) (rest : List Sig)
  /-- At the `SIG_IGN` test and the switch on the handler. -/
  | disp (i : Sig) (rest : List Sig)
  /-- At the test of the wait loop of `handle_SIGSTOP`. -/
  | stopTest (k : Pc)
  | contTest (k : Pc)
  /-- `cancelSignal` is about to load `pending`. -/
  | cancelLoad (s : Sig) (k : Pc)
  /-- `cancelSignal` is about to store, having loaded `w`. -/
  | cancelStore (s : Sig) (w : Word) (k : Pc)
  | build (i : Sig)
  | restore (rest : List Sig)
  | done
  deriving DecidableEq

/-- `switch (i)`. -/
def dflStep (p : Proc) (i : Sig) (rest : List Sig) : Proc × Pc :=
  let h := p.handlers i
  if i = SIGKILL then
    (if h = SIG_DFL ∨ h = sigWord SIGKILL then handleSigkill p else p, .disp i rest)
  else if i = SIGCONT then
    (p, if h = SIG_DFL ∨ h = sigWord SIGCONT then .contTest (.disp i rest) else .disp i rest)
  else if i = SIGSTOP then
    (p, if h = SIG_DFL ∨ h = sigWord SIGSTOP then .stopTest (.disp i rest) else .disp i rest)
  else
    (if h = SIG_DFL then handleSigkill p else p, .disp i rest)

/-- The `SIG_IGN` test and `switch ((int)handlers[i])`. -/
def dispStep (p : Proc) (i : Sig) (rest : List Sig) : Proc × Pc :=
  let h := p.handlers i
  if h = SIG_IGN then (p, .cancelLoad i (.restore rest))
  else if h ≠ SIG_DFL then
    if h = sigWord SIGKILL then (handleSigkill p, .restore rest)
    else if h = sigWord SIGCONT then (p, .contTest (.restore rest))
    else if h = sigWord SIGSTOP then (p, .stopTest (.restore rest))
    else (p, .build i)
  else (p, .restore rest)

/-- The next step of a pass on `p`. Only the stores of a user frame can fail. -/
def sigStep (p : Proc) : Pc → Except Word (Proc × Pc)
  | .entry => .ok (p, if p.mask = 0 ∨ p.pending = 0 then .done else .scan (List.finRange 32))
  | .scan [] => .ok (p, .done)
  | .scan (i :: rest) =>
    .ok (p, if !(hasSignal p i && !isBlocked (some p) i) then .scan rest else .save i rest)
  | .save i rest => .ok (saveMask p, .dfl i rest)
  | .dfl i rest => .ok (dflStep p i rest)
  | .disp i rest => .ok (dispStep p i rest)
  | .stopTest k =>
    -- `yield()` and back to the test
    .ok (p, if hasSignal p SIGCONT || hasSignal p SIGKILL then k else .stopTest k)
  | .contTest k =>
    .ok (p, if hasSignal p SIGSTOP then .cancelLoad SIGSTOP (.cancelLoad SIGCONT k)
      else .cancelLoad SIGCONT k)
  | .cancelLoad s k => .ok (p, .cancelStore s p.pending k)
  | .cancelStore s w k => .ok ({ p with pending := w ^^^ bit s }, k)
  | .build i => (buildFrame i p).map fun p => (p, .cancelLoad i .done)
  | .restore rest => .ok (restoreMask p, .scan rest)
  | .done => .ok (p, .done)

/-! ## The steps make up the pass -/

/-- A pass left to itself: signals arrive only in the wait loop. -/
inductive PassStep : Proc × Pc → Proc × Pc → Prop where
  | step {p q : Proc} {pc pc' : Pc} : sigStep p pc = .ok (q, pc') → PassStep (p, pc) (q, pc')
  | arrive (p : Proc) (k : Pc) (w : Word) :
      PassStep (p, .stopTest k) ({ p with pending := p.pending ||| w }, .stopTest k)

def PassRun : Proc × Pc → Proc × Pc → Prop := Relation.ReflTransGen PassStep

namespace PassRun

theorem one {pc pc' : Pc} (h : sigStep p pc = .ok (q, pc')) :
    PassRun (p, pc) (q, pc') :=
  .single (.step h)

theorem cons {pc pc' : Pc} {z : Proc × Pc} (h : sigStep p pc = .ok (q, pc'))
    (hrun : PassRun (q, pc') z) : PassRun (p, pc) z :=
  .head (.step h) hrun

theorem cancelSignal (p : Proc) (s : Sig) (k : Pc) :
    PassRun (p, .cancelLoad s k) (cancelSignal p s, k) :=
  cons rfl (one rfl)

theorem handleSigcont (p : Proc) (k : Pc) :
    PassRun (p, .contTest k) (handleSigcont p, k) := by
  unfold Xv6.handleSigcont
  by_cases hs : hasSignal p SIGSTOP = true
  · refine cons (by rw [sigStep, if_pos hs]) ?_
    simp only [if_pos hs]
    exact (cancelSignal p SIGSTOP _).trans (cancelSignal _ SIGCONT k)
  · refine cons (by rw [sigStep, if_neg hs]) ?_
    simp only [if_neg hs]
    exact cancelSignal p SIGCONT k

theorem handleSigstop (h : handleSigstop arrive p = .ok q) (k : Pc) :
    PassRun (p, .stopTest k) (q, k) := by
  unfold Xv6.handleSigstop at h
  split at h
  · next hs =>
    cases h
    exact one (by rw [sigStep, if_pos hs])
  · dsimp only at h
    split at h
    · next hs =>
      cases h
      exact .head (.arrive p k arrive) (one (by rw [sigStep, if_pos hs]))
    · cases h

theorem defaultSwitch {i : Sig} (rest : List Sig)
    (h : defaultSwitch arrive i p = .ok q) : PassRun (p, .dfl i rest) (q, .disp i rest) := by
  unfold Xv6.defaultSwitch at h
  dsimp only at h
  have hstep : sigStep p (.dfl i rest) = .ok (dflStep p i rest) := rfl
  unfold dflStep at hstep
  dsimp only at hstep
  split at h
  · next hi =>
    rw [if_pos hi] at hstep
    cases h
    exact one hstep
  · next hi =>
    rw [if_neg hi] at hstep
    split at h
    · next hi =>
      rw [if_pos hi] at hstep
      cases h
      split
      · next hh => rw [if_pos hh] at hstep; exact cons hstep (handleSigcont p _)
      · next hh => rw [if_neg hh] at hstep; exact one hstep
    · next hi =>
      rw [if_neg hi] at hstep
      split at h
      · next hi =>
        rw [if_pos hi] at hstep
        split at h
        · next hh => rw [if_pos hh] at hstep; exact cons hstep (handleSigstop h _)
        · next hh => rw [if_neg hh] at hstep; cases h; exact one hstep
      · next hi =>
        rw [if_neg hi] at hstep
        cases h
        exact one hstep

theorem handlerSwitch_next {i : Sig} (rest : List Sig)
    (h : handlerSwitch arrive i p = .ok (.next q)) :
    PassRun (p, .disp i rest) (q, .restore rest) := by
  unfold handlerSwitch at h
  dsimp only at h
  have hstep : sigStep p (.disp i rest) = .ok (dispStep p i rest) := rfl
  unfold dispStep at hstep
  dsimp only at hstep
  split at h
  · next hign =>
    rw [if_pos hign] at hstep
    cases h
    exact cons hstep (cancelSignal p i _)
  · next hign =>
    rw [if_neg hign] at hstep
    split at h
    · next hdfl =>
      rw [if_pos hdfl] at hstep
      split at h
      · next hk =>
        rw [if_pos hk] at hstep
        cases h
        exact one hstep
      · next hk =>
        rw [if_neg hk] at hstep
        split at h
        · next hc =>
          rw [if_pos hc] at hstep
          cases h
          exact cons hstep (handleSigcont p _)
        · next hc =>
          rw [if_neg hc] at hstep
          split at h
          · next hs =>
            rw [if_pos hs] at hstep
            cases hstop : Xv6.handleSigstop arrive p with
            | error e => rw [hstop] at h; cases h
            | ok r =>
              rw [hstop] at h
              cases h
              exact cons hstep (handleSigstop hstop _)
          · cases h
    · next hdfl =>
      rw [if_neg hdfl] at hstep
      cases h
      exact one hstep

theorem handlerSwitch_frame {i : Sig} (rest : List Sig)
    (h : handlerSwitch arrive i p = .ok (.frame q)) :
    PassRun (p, .disp i rest) (q, .build i) := by
  obtain ⟨⟨hdfl, hign, hkill, hcont, hstop⟩, rfl⟩ := Xv6.handlerSwitch_frame h
  refine one ?_
  simp [sigStep, dispStep, hdfl, hign, hkill, hcont, hstop]

/-- Where the loop leaves a pass. -/
def endOf : Scan → Proc × Pc
  | .finished q => (q, .done)
  | .frame i q => (q, .build i)

theorem sigLoop {arrive : Sig → Word} {is : List Sig} {out : Scan}
    (h : sigLoop arrive is p = .ok out) : PassRun (p, .scan is) (endOf out) := by
  induction is generalizing p with
  | nil =>
    cases h
    exact one rfl
  | cons i rest ih =>
    unfold Xv6.sigLoop at h
    split at h
    · next hg => exact cons (by rw [sigStep, if_pos hg]) (ih h)
    · next hg =>
      refine cons (by rw [sigStep, if_neg hg]) (cons rfl ?_)
      split at h
      · cases h
      · next q hq =>
        refine (defaultSwitch rest hq).trans ?_
        split at h
        · cases h
        · next r hr =>
          cases h
          exact handlerSwitch_frame rest hr
        · next r hr => exact (handlerSwitch_next rest hr).trans (cons rfl (ih h))

end PassRun

/-- **A pass that returns is a run of its steps.** -/
theorem checkKernelSigs_steps {arrive : Sig → Word} {f : Option Sig}
    (h : checkKernelSigs arrive (some p) = .ok ⟨some q, f⟩) :
    PassRun (p, .entry) (q, .done) := by
  simp only [checkKernelSigs] at h
  split at h
  · next hg =>
    cases h
    exact .one (by rw [sigStep, if_pos hg])
  · next hg =>
    refine .cons (by rw [sigStep, if_neg hg]) ?_
    split at h
    · cases h
    · next r hr =>
      cases h
      exact PassRun.sigLoop hr
    · next i r hr =>
      have hrun := PassRun.sigLoop hr
      split at h
      · cases h
      · next r' hpush =>
        cases h
        obtain ⟨s, hbuild, hs⟩ := bind_ok_iff.mp hpush
        cases hs
        have hstep : sigStep r (.build i) = .ok (s, .cancelLoad i .done) := by
          simp only [sigStep, hbuild, Except.map]
        exact hrun.trans (PassRun.cons hstep (.cancelSignal s i _))

/-! ## What a step writes -/

theorem dflStep_bookkeeping (p : Proc) (i : Sig) (rest : List Sig) :
    Bookkeeping p (dflStep p i rest).1 := by
  unfold dflStep
  dsimp only
  split
  · exact .ite (.handleSigkill p) (.refl p)
  · split
    · exact .refl p
    · split
      · exact .refl p
      · exact .ite (.handleSigkill p) (.refl p)

theorem dispStep_bookkeeping (p : Proc) (i : Sig) (rest : List Sig) :
    Bookkeeping p (dispStep p i rest).1 := by
  unfold dispStep
  dsimp only
  split
  · exact .refl p
  · split
    · split
      · exact .handleSigkill p
      · split
        · exact .refl p
        · split <;> exact .refl p
    · exact .refl p

theorem dflStep_pending (p : Proc) (i : Sig) (rest : List Sig) :
    (dflStep p i rest).1.pending = p.pending := by
  unfold dflStep
  dsimp only
  (repeat' split) <;> rfl

theorem dispStep_pending (p : Proc) (i : Sig) (rest : List Sig) :
    (dispStep p i rest).1.pending = p.pending := by
  unfold dispStep
  dsimp only
  (repeat' split) <;> rfl

/-- A step leaves the user program alone unless it builds a frame. -/
theorem sigStep_sameUser {pc pc' : Pc} (h : sigStep p pc = .ok (q, pc'))
    (hb : ∀ i, pc ≠ .build i) : SameUser p q := by
  cases pc with
  | build i => exact absurd rfl (hb i)
  | dfl i rest =>
    have hbk := dflStep_bookkeeping p i rest
    rw [show dflStep p i rest = (q, pc') from Except.ok.inj h] at hbk
    exact ⟨hbk.tf, hbk.mem, hbk.sz, hbk.pid, hbk.handlers, hbk.trapBackup⟩
  | disp i rest =>
    have hbk := dispStep_bookkeeping p i rest
    rw [show dispStep p i rest = (q, pc') from Except.ok.inj h] at hbk
    exact ⟨hbk.tf, hbk.mem, hbk.sz, hbk.pid, hbk.handlers, hbk.trapBackup⟩
  | scan rest => cases rest <;> cases h <;> exact .refl p
  | _ => cases h; exact ⟨rfl, rfl, rfl, rfl, rfl, rfl⟩

theorem sigStep_build {i : Sig} {pc' : Pc} (h : sigStep p (.build i) = .ok (q, pc')) :
    buildFrame i p = .ok q ∧ pc' = .cancelLoad i .done := by
  simp only [sigStep] at h
  cases hb : buildFrame i p with
  | error a => rw [hb] at h; cases h
  | ok r =>
    rw [hb] at h
    cases h
    exact ⟨rfl, rfl⟩

theorem sigStep_handlers {pc pc' : Pc} (h : sigStep p pc = .ok (q, pc')) :
    q.handlers = p.handlers := by
  by_cases hb : ∃ i, pc = .build i
  · obtain ⟨i, rfl⟩ := hb
    rw [(buildFrame_ok_iff.mp (sigStep_build h).1).2.2]
    rfl
  · exact (sigStep_sameUser h fun i hi => hb ⟨i, hi⟩).handlers

theorem sigStep_trapBackup {pc pc' : Pc} (h : sigStep p pc = .ok (q, pc')) :
    q.trapBackup = p.trapBackup := by
  by_cases hb : ∃ i, pc = .build i
  · obtain ⟨i, rfl⟩ := hb
    rw [(buildFrame_ok_iff.mp (sigStep_build h).1).2.2]
    rfl
  · exact (sigStep_sameUser h fun i hi => hb ⟨i, hi⟩).trapBackup

theorem sigStep_tf {pc pc' : Pc} (h : sigStep p pc = .ok (q, pc')) :
    ∃ esp eip, q.tf = { p.tf with esp, eip } := by
  by_cases hb : ∃ i, pc = .build i
  · obtain ⟨i, rfl⟩ := hb
    rw [(buildFrame_ok_iff.mp (sigStep_build h).1).2.2]
    exact ⟨_, _, rfl⟩
  · exact ⟨p.tf.esp, p.tf.eip, (sigStep_sameUser h fun i hi => hb ⟨i, hi⟩).tf⟩

theorem sigStep_pending {pc pc' : Pc} (h : sigStep p pc = .ok (q, pc'))
    (hc : ∀ s w k, pc ≠ .cancelStore s w k) : q.pending = p.pending := by
  cases pc with
  | cancelStore s w k => exact absurd rfl (hc s w k)
  | build i =>
    rw [(buildFrame_ok_iff.mp (sigStep_build h).1).2.2]
    rfl
  | dfl i rest =>
    have hp := dflStep_pending p i rest
    rwa [show dflStep p i rest = (q, pc') from Except.ok.inj h] at hp
  | disp i rest =>
    have hp := dispStep_pending p i rest
    rwa [show dispStep p i rest = (q, pc') from Except.ok.inj h] at hp
  | scan rest => cases rest <;> cases h <;> rfl
  | _ => cases h; rfl

/-! ## What a pass is committed to -/

/-- The two things a pass can do that reach beyond its books. -/
inductive Effect where
  | build
  | stop
  deriving DecidableEq

/-- Signal `i` has this effect when it is handled. -/
def Disposed (h : Sig → Word) (i : Sig) : Effect → Prop
  | .build => UserHandler (h i)
  | .stop => i = SIGSTOP ∧ h i = SIG_DFL ∨ h i = sigWord SIGSTOP

instance (h : Sig → Word) (i : Sig) : (e : Effect) → Decidable (Disposed h i e)
  | .build => inferInstanceAs (Decidable (UserHandler (h i)))
  | .stop => inferInstanceAs (Decidable (i = SIGSTOP ∧ h i = SIG_DFL ∨ h i = sigWord SIGSTOP))

/-- The pass is handling a signal with this effect, and has not come past it. -/
def Commits (e : Effect) (h : Sig → Word) : Pc → Prop
  | .save i _ => Disposed h i e
  | .dfl i _ => Disposed h i e
  | .disp i _ => Disposed h i e
  | .build _ => e = .build
  | .stopTest k => e = .stop ∨ Commits e h k
  | .contTest k => Commits e h k
  | .cancelLoad _ k => Commits e h k
  | .cancelStore _ _ k => Commits e h k
  | _ => False

/-- The pass is about to look at a signal that is pending, unblocked and has
this effect. -/
def Examines (e : Effect) (p : Proc) : Pc → Prop
  | .scan (i :: _) => Deliverable p i ∧ Disposed p.handlers i e
  | _ => False

instance (e : Effect) (p : Proc) : (pc : Pc) → Decidable (Examines e p pc)
  | .scan (i :: _) => inferInstanceAs (Decidable (Deliverable p i ∧ Disposed p.handlers i e))
  | .scan [] | .entry | .save _ _ | .dfl _ _ | .disp _ _ | .stopTest _ | .contTest _
  | .cancelLoad _ _ | .cancelStore _ _ _ | .build _ | .restore _ | .done => isFalse id

theorem dflStep_commits {e : Effect} {i : Sig} {rest : List Sig}
    (h : Commits e p.handlers (dflStep p i rest).2) : Disposed p.handlers i e := by
  unfold dflStep at h
  dsimp only at h
  split at h
  · exact h
  · split at h
    · split at h <;> exact h
    · split at h
      · next hi =>
        split at h
        · next hh =>
          rcases h with h | h
          · subst h
            rcases hh with hh | hh
            · exact .inl ⟨hi, hh⟩
            · exact .inr hh
          · exact h
        · exact h
      · exact h

theorem dispStep_commits {e : Effect} {i : Sig} {rest : List Sig}
    (h : Commits e p.handlers (dispStep p i rest).2) : Disposed p.handlers i e := by
  unfold dispStep at h
  dsimp only at h
  split at h
  · exact h.elim
  · next hign =>
    split at h
    · next hdfl =>
      split at h
      · exact h.elim
      · next hk =>
        split at h
        · exact h.elim
        · next hc =>
          split at h
          · next hs =>
            rcases h with h | h
            · subst h
              exact .inr hs
            · exact h.elim
          · next hs =>
            subst h
            exact ⟨hdfl, hign, hk, hc, hs⟩
    · exact h.elim

theorem sigStep_commits {e : Effect} {pc pc' : Pc}
    (h : sigStep p pc = .ok (q, pc')) (hc : Commits e q.handlers pc') :
    Commits e p.handlers pc ∨ Examines e p pc := by
  rw [sigStep_handlers h] at hc
  cases pc with
  | entry =>
    cases h
    split at hc <;> exact hc.elim
  | scan rest =>
    cases rest with
    | nil => cases h; exact hc.elim
    | cons i rest =>
      cases h
      split at hc
      · exact hc.elim
      · next hg =>
        have hd := (guard_eq_false_iff p i).mp (Bool.eq_false_iff.mpr hg)
        exact .inr ⟨hd, hc⟩
  | save i rest => cases h; exact .inl hc
  | dfl i rest =>
    rw [← show (dflStep p i rest).2 = pc' from congrArg Prod.snd (Except.ok.inj h)] at hc
    exact .inl (dflStep_commits hc)
  | disp i rest =>
    rw [← show (dispStep p i rest).2 = pc' from congrArg Prod.snd (Except.ok.inj h)] at hc
    exact .inl (dispStep_commits hc)
  | stopTest k =>
    cases h
    split at hc
    · exact .inl (.inr hc)
    · exact .inl hc
  | contTest k =>
    cases h
    split at hc <;> exact .inl hc
  | cancelLoad s k => cases h; exact .inl hc
  | cancelStore s w k => cases h; exact .inl hc
  | build i =>
    rw [(sigStep_build h).2] at hc
    exact hc.elim
  | restore rest => cases h; exact hc.elim
  | done => cases h; exact hc.elim

/-- A step keeps a stack of passes clear of an effect, unless it looks at a signal
that has it. -/
theorem sigStep_clear {e : Effect} {pc pc' : Pc} {rest : List Pc}
    (h : sigStep p pc = .ok (q, pc')) (hex : ¬Examines e p pc)
    (hclear : ∀ x ∈ pc :: rest, ¬Commits e p.handlers x) :
    ∀ x ∈ pc' :: rest, ¬Commits e q.handlers x := by
  intro x hx hc
  rcases List.mem_cons.mp hx with rfl | hx
  · rcases sigStep_commits h hc with hc | hc
    · exact hclear pc List.mem_cons_self hc
    · exact hex hc
  · rw [sigStep_handlers h] at hc
    exact hclear x (List.mem_cons_of_mem pc hx) hc

end Xv6
