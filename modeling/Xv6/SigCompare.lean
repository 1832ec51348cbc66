import Xv6.SigDisposition

/- Two passes of `check_kernel_sigs` side by side.

   Two processes that a relation holds between go through their passes alike, if every round keeps the relation
   (`sigLoop_rel`). The rounds that do not are those of `handle_SIGSTOP`, which looks at two pending bits whatever the
   mask says, and that of `SIGCONT` by number, which toggles its bit twice. After either the two passes never meet
   again: the bit of the one signal is the other way in them (`Opposed`), and at the next stop it decides who waits
   (`history_opposed`).

   1. `default_spelling_agrees_iff`: `SIG_DFL` and the number of the signal itself are the same disposition for
      `SIGKILL` and `SIGSTOP`, and for `SIGCONT` exactly in a pass that does not handle it.
   2. `blocked_signal_inert_iff`: a blocked signal makes no difference, and one of the two that `handle_SIGSTOP` waits
      for makes none exactly if the other is pending at every stop. -/
namespace Xv6
open List Bits ByteMem

variable {arrive : Sig → Word} {w : Word} {i s : Sig} {p q : Proc}

section

variable {R : Proc → Proc → Prop}

/-- Two rounds end alike, with processes that are related. -/
inductive FlowRel (R : Proc → Proc → Prop) : Except Stuck Flow → Except Stuck Flow → Prop where
  | stopped {p q : Proc} (h : R p q) : FlowRel R (.error (.stopped p)) (.error (.stopped q))
  | next {p q : Proc} (h : R p q) : FlowRel R (.ok (.next p)) (.ok (.next q))
  | frame {p q : Proc} (h : R p q) : FlowRel R (.ok (.frame p)) (.ok (.frame q))

/-- Two loops end alike. -/
inductive ScanRel (R : Proc → Proc → Prop) : Except Stuck Scan → Except Stuck Scan → Prop where
  | stopped {p q : Proc} (h : R p q) : ScanRel R (.error (.stopped p)) (.error (.stopped q))
  | finished {p q : Proc} (h : R p q) : ScanRel R (.ok (.finished p)) (.ok (.finished q))
  | frame {i : Sig} {p q : Proc} (hu : UserHandler (p.handlers i)) (h : R p q) :
      ScanRel R (.ok (.frame i p)) (.ok (.frame i q))

theorem ScanRel.mono {R' : Proc → Proc → Prop} {a b : Except Stuck Scan} (h : ScanRel R a b)
    (hR : ∀ {p q}, R p q → R' p q) :
    ScanRel R' a b := by
  cases h with
  | stopped h => exact .stopped (hR h)
  | finished h => exact .finished (hR h)
  | frame hu h => exact .frame hu (hR h)

/-- Two passes end alike: both wait in `handle_SIGSTOP`, both fail at the same store, or both return
with a frame for the same signal or with none. -/
inductive PassRel (R : Proc → Proc → Prop) : Except Stuck Pass → Except Stuck Pass → Prop where
  | stopped {p q : Proc} (h : R p q) : PassRel R (.error (.stopped p)) (.error (.stopped q))
  | badStore (a : Word) : PassRel R (.error (.badStore a)) (.error (.badStore a))
  | done {f : Option Sig} {p q : Proc} (h : R p q) : PassRel R (.ok ⟨some p, f⟩) (.ok ⟨some q, f⟩)

/-- The signals that a loop handles, and for which of them the process has to wait. -/
def history (arrive : Sig → Word) (is : List Sig) (p : Proc) : List (Sig × Bool) :=
  (acted arrive is p).map fun a => (a.1, decide (disposal a.1 (a.2.handlers a.1) = .stop ∧ Waits a.2))

theorem history_append {is js : List Sig} (h : sigLoop arrive is p = .ok (.finished q)) :
    history arrive (is ++ js) p = history arrive is p ++ history arrive js q := by
  rw [history, acted_append, h, map_append]
  rfl

/-- A round keeps a relation that the actions keep, if two processes that stop wait alike. -/
theorem perform_rel {d : Disposal} (hcancel : ∀ {p q}, R p q → R (cancelSignal p i) (cancelSignal q i))
    (hkill : ∀ {p q}, R p q → R (handleSigkill p) (handleSigkill q))
    (hcont : ∀ {p q}, R p q → R (handleSigcont p) (handleSigcont q))
    (hstop : d = .stop → ¬Waits p ∧ ¬Waits q ∨
      (Waits q ↔ Waits p) ∧ (Waits (q.receive w) ↔ Waits (p.receive w)) ∧ R (p.receive w) (q.receive w)) (h : R p q) :
    FlowRel R (perform w i d p) (perform w i d q) := by
  cases d with
  | ignore => exact .next (hcancel h)
  | kill => exact .next (hkill h)
  | cont => exact .next (hcont h)
  | contTwice => exact .next (hcont (hcont h))
  | frame => exact .frame h
  | stop =>
    rw [perform, perform, handleSigstop_eq, handleSigstop_eq]
    rcases hstop rfl with ⟨hp, hq⟩ | ⟨hwait, hwait', hreceived⟩
    · rw [if_neg hp, if_neg hq]
      exact .next h
    · by_cases hp : Waits p
      · rw [if_pos hp, if_pos (hwait.mpr hp)]
        by_cases hp' : Waits (p.receive w)
        · rw [if_pos hp', if_pos (hwait'.mpr hp')]
          exact .stopped hreceived
        · rw [if_neg hp', if_neg (mt hwait'.mp hp')]
          exact .next hreceived
      · rw [if_neg hp, if_neg (mt hwait.mp hp)]
        exact .next h

/-- Rounds that relate processes make loops that do, and that go alike. `C` is what is known of the signals that are
handled. -/
theorem sigLoop_rel (arrive : Sig → Word) {C : Sig → Prop} {m : Word}
    (hd : ∀ {i p q}, R p q → p.mask = m → (Deliverable p i ↔ Deliverable q i))
    (hround : ∀ {i p q}, R p q → Deliverable p i → C i →
      disposal i (q.handlers i) = disposal i (p.handlers i) ∧ (Waits q ↔ Waits p) ∧
        FlowRel R (perform (arrive i) i (disposal i (p.handlers i)) (saveMask p))
          (perform (arrive i) i (disposal i (p.handlers i)) (saveMask q)))
    (hmask : ∀ {p q}, R p q → R (restoreMask p) (restoreMask q)) (is : List Sig) (hR : R p q)
    (hm : p.mask = m) (hC : ∀ a ∈ acted arrive is p, C a.1) :
    ScanRel R (sigLoop arrive is p) (sigLoop arrive is q) ∧ history arrive is p = history arrive is q := by
  induction is generalizing p q with
  | nil => exact ⟨.finished hR, rfl⟩
  | cons i rest ih =>
    rw [acted_cons] at hC
    rw [sigLoop_cons, sigLoop_cons, history, history, acted_cons, acted_cons]
    by_cases hp : Deliverable p i
    · have hq := (hd hR hm).mp hp
      rw [if_pos hp] at hC
      rw [if_pos hp, if_pos hq, if_pos hp, if_pos hq]
      obtain ⟨hdisp, hwaits, hflow⟩ := hround hR hp (hC (i, p) (mem_cons_self ..))
      have hhead : decide (disposal i (p.handlers i) = .stop ∧ Waits p) = decide (disposal i (q.handlers i) = .stop ∧
          Waits q) :=
        decide_eq_decide.mpr (by rw [hdisp, hwaits])
      simp only [map_cons, hhead, hdisp]
      generalize hp₁ : perform (arrive i) i (disposal i (p.handlers i)) (saveMask p) = a at hC hflow ⊢
      generalize perform (arrive i) i (disposal i (p.handlers i)) (saveMask q) = b at hflow ⊢
      cases hflow with
      | stopped h => exact ⟨.stopped h, rfl⟩
      | frame h =>
        obtain ⟨hframe, rfl⟩ := perform_frame hp₁
        exact ⟨.frame (disposal_eq_frame.mp hframe) h, rfl⟩
      | next h =>
        obtain ⟨hscan, hhistory⟩ := ih (hmask h) ((perform_next hp₁).2.trans hm) fun a ha => hC a (mem_cons_of_mem _ ha)
        exact ⟨hscan, congrArg (_ :: ·) hhistory⟩
    · have hq : ¬Deliverable q i := fun hq => hp ((hd hR hm).mpr hq)
      rw [if_neg hp] at hC
      rw [if_neg hp, if_neg hq, if_neg hp, if_neg hq]
      exact ih hR hm hC

theorem pushFrame_error_iff {a : Word} : pushFrame i p = .error a ↔
    (store p.mem p.trapBackup p.tf.bytes >>= fun m => storeAll m (pushes i p.tf.esp)) = .error a := by
  unfold pushFrame buildFrame
  cases store p.mem p.trapBackup p.tf.bytes with
  | error e => exact ⟨fun h => by cases h; rfl, fun h => by cases h; rfl⟩
  | ok m =>
    change (storeAll m (pushes i p.tf.esp) >>= _) >>= _ = _ ↔ storeAll m (pushes i p.tf.esp) = _
    cases storeAll m (pushes i p.tf.esp) with
    | error e => exact ⟨fun h => by cases h; rfl, fun h => by cases h; rfl⟩
    | ok m' => exact ⟨nofun, nofun⟩

theorem finish_rel (hframe : ∀ {i p q}, R p q → UserHandler (p.handlers i) →
      q.mem = p.mem ∧ q.trapBackup = p.trapBackup ∧ q.tf = p.tf ∧ R (framed i p) (framed i q))
    {a b : Except Stuck Scan} (h : ScanRel R a b) : PassRel R (finish a) (finish b) := by
  cases h with
  | stopped h => exact .stopped h
  | finished h => exact .done h
  | @frame i p q hu h =>
    obtain ⟨hmem, hbackup, htf, hR⟩ := hframe h hu
    rw [finish, finish]
    cases hp : pushFrame i p with
    | error a =>
      have hq : pushFrame i q = .error a := by
        rw [pushFrame_error_iff, hmem, hbackup, htf]
        exact pushFrame_error_iff.mp hp
      rw [hq]
      exact .badStore a
    | ok p' =>
      obtain ⟨hcopy, hlow, rfl⟩ := pushFrame_ok_iff.mp hp
      have hq : pushFrame i q = .ok (framed i q) := by
        rw [pushFrame_ok_iff, hmem, hbackup, htf]
        exact ⟨hcopy, hlow, rfl⟩
      rw [hq]
      exact .done hR

end

/-- Two passes go alike: their loops do, they end alike, they handle the same signals and wait for the same ones. -/
structure SamePass (R : Proc → Proc → Prop) (arrive : Sig → Word) (p q : Proc) : Prop where
  scan : ScanRel R (sigLoop arrive (finRange 32) p) (sigLoop arrive (finRange 32) q)
  pass : PassRel R (checkKernelSigs arrive (some p)) (checkKernelSigs arrive (some q))
  history : history arrive (finRange 32) p = history arrive (finRange 32) q

/-! ## The bit of a signal the other way

   Of the two signals that end the wait of `handle_SIGSTOP` one is pending in the first process or in the second. As
   long as the other one is pending in both, neither has to wait. -/

/-- The second process has the bit of `s` the other way, and for the entry `h₀` of it the entry `h`. -/
def Opposed (s : Sig) (h₀ h : Word) (p q : Proc) : Prop := p.handlers s = h₀ ∧ q = (cancelSignal p s).withHandler s h

/-- The other one of the two signals. -/
def release (s : Sig) : Sig := if s = SIGCONT then SIGKILL else SIGCONT

theorem handleSigcont_opposed (p : Proc) (hs : s ≠ SIGSTOP) (h : Word) :
    handleSigcont ((cancelSignal p s).withHandler s h) = (cancelSignal (handleSigcont p) s).withHandler s h := by
  have hstop : hasSignal ((cancelSignal p s).withHandler s h) SIGSTOP = hasSignal p SIGSTOP := by
    rw [hasSignal_eq, hasSignal_eq]
    exact (has_cancelSignal p s SIGSTOP).trans (by simp [hs.symm])
  have hswap : ∀ (p : Proc) (i : Sig),
      cancelSignal ((cancelSignal p s).withHandler s h) i = (cancelSignal (cancelSignal p i) s).withHandler s h := by
    intro p i
    simp only [cancelSignal, Proc.withHandler, BitVec.xor_assoc, BitVec.xor_comm (bit s)]
  unfold handleSigcont
  rw [hstop]
  split
  · rw [hswap, hswap]
  · exact hswap ..

section

variable {h₀ h : Word}

theorem waits_opposed (hs : s = SIGCONT ∨ s = SIGKILL) (hq : Opposed s h₀ h p q) :
    (has p.pending (release s) = true → ¬Waits p ∧ ¬Waits q) ∧ (has p.pending (release s) = false →
      ¬(Waits p ↔ Waits q)) := by
  have hpending : q.pending = (cancelSignal p s).pending := by rw [hq.2]; rfl
  obtain ⟨hkc, -, -⟩ := sigs_ne
  rcases hs with rfl | rfl
  all_goals
    simp only [release, if_true, hkc, if_false, Waits, hpending, has_cancelSignal]
    cases has p.pending SIGCONT <;> cases has p.pending SIGKILL <;> simp [hkc.symm]

theorem perform_opposed {d : Disposal} (hs : s ≠ SIGSTOP) (hq : Opposed s h₀ h p q)
    (hstop : d = .stop → ¬Waits p ∧ ¬Waits q) :
    FlowRel (Opposed s h₀ h) (perform w i d p) (perform w i d q) := by
  refine perform_rel ?_ ?_ ?_ (fun h => .inl (hstop h)) hq
  · rintro p _ ⟨hp, rfl⟩
    refine ⟨hp, ?_⟩
    simp only [cancelSignal, Proc.withHandler, BitVec.xor_assoc, BitVec.xor_comm (bit s)]
  · rintro p _ ⟨hp, rfl⟩
    exact ⟨hp, rfl⟩
  · rintro p _ ⟨hp, rfl⟩
    exact ⟨by rw [(Bookkeeping.handleSigcont p).handlers, hp], handleSigcont_opposed p hs h⟩

/-- The two loops go alike exactly if at the turn of every signal that stops the process the other signal is pending,
and then the bit of `s` is the other way to the end. -/
theorem history_opposed (arrive : Sig → Word) (is : List Sig) (hs : s = SIGCONT ∨ s = SIGKILL)
    (hskip : s ∈ is → has p.mask s = false) (hq : Opposed s h₀ h p q) :
    (history arrive is p = history arrive is q ↔
      ∀ a ∈ acted arrive is p, disposal a.1 (a.2.handlers a.1) = .stop → has a.2.pending (release s) = true) ∧
    (history arrive is p = history arrive is q → ScanRel (Opposed s h₀ h) (sigLoop arrive is p)
      (sigLoop arrive is q)) := by
  induction is generalizing p q with
  | nil => exact ⟨⟨fun _ _ ha => absurd ha not_mem_nil, fun _ => rfl⟩, fun _ => .finished hq⟩
  | cons i rest ih =>
    have hskip' : s ∈ rest → has p.mask s = false := fun hin => hskip (mem_cons_of_mem _ hin)
    have hmask : q.mask = p.mask := by rw [hq.2]; rfl
    have hpending : ∀ k, has q.pending k = (has p.pending k ^^ decide (k = s)) := by
      rw [hq.2]
      exact has_cancelSignal p s
    rw [history, history, acted_cons, acted_cons, sigLoop_cons, sigLoop_cons]
    by_cases hd : Deliverable p i
    · have hne : i ≠ s := by
        rintro rfl
        exact Bool.false_ne_true ((hskip (mem_cons_self ..)).symm.trans hd.2)
      have hd' : Deliverable q i := by simpa [Deliverable, hpending, hmask, hne] using hd
      have hentry : q.handlers i = p.handlers i := by
        rw [hq.2]
        exact Function.update_of_ne hne _ _
      simp only [if_pos hd, if_pos hd', map_cons, forall_mem_cons, hentry, List.cons.injEq, Prod.mk.injEq, true_and,
        decide_eq_decide]
      obtain ⟨hneither, hone⟩ := waits_opposed hs hq
      by_cases hstop : disposal i (p.handlers i) = .stop ∧ has p.pending (release s) = false
      · have hdiffer : ¬(disposal i (p.handlers i) = .stop ∧ Waits p ↔ disposal i (p.handlers i) = .stop ∧
            Waits q) := by
          rw [hstop.1]
          simpa using hone hstop.2
        refine ⟨⟨fun h => absurd h.1 hdiffer, fun h => ?_⟩, fun h => absurd h.1 hdiffer⟩
        exact absurd (hstop.2.symm.trans (h.1 hstop.1)) Bool.false_ne_true
      · have hsame : disposal i (p.handlers i) = .stop → has p.pending (release s) = true := fun h =>
          Bool.not_eq_false _ ▸ fun hoff => hstop ⟨h, hoff⟩
        have hhead : disposal i (p.handlers i) = .stop ∧ Waits p ↔ disposal i (p.handlers i) = .stop ∧ Waits q :=
          and_congr_right fun h => iff_of_false (hneither (hsame h)).1 (hneither (hsame h)).2
        have hsaved : Opposed s h₀ h (saveMask p) (saveMask q) := ⟨hq.1, by rw [hq.2]; rfl⟩
        have hnot : s ≠ SIGSTOP := by rcases hs with rfl | rfl <;> decide
        have hflow :=
          perform_opposed (w := arrive i) (i := i) (d := disposal i (p.handlers i)) hnot hsaved
            fun h => hneither (hsame h)
        rw [and_iff_right hhead, and_iff_right hsame]
        generalize hp₁ : perform (arrive i) i (disposal i (p.handlers i)) (saveMask p) = a at hflow ⊢
        generalize perform (arrive i) i (disposal i (p.handlers i)) (saveMask q) = b at hflow ⊢
        cases hflow with
        | stopped h₁ => exact ⟨⟨fun _ _ ha => absurd ha not_mem_nil, fun _ => rfl⟩, fun _ => .stopped h₁⟩
        | frame h₁ =>
          obtain ⟨hframe, rfl⟩ := perform_frame hp₁
          exact ⟨⟨fun _ _ ha => absurd ha not_mem_nil, fun _ => rfl⟩, fun _ => .frame (disposal_eq_frame.mp hframe) h₁⟩
        | @next p₁ q₁ h₁ =>
          have hnext : Opposed s h₀ h (restoreMask p₁) (restoreMask q₁) := ⟨h₁.1, by rw [h₁.2]; rfl⟩
          exact ih (fun hin => by rw [(perform_next hp₁).2, hskip' hin]) hnext
    · have hd' : ¬Deliverable q i := by
        by_cases hi : i = s
        · subst hi
          rw [Deliverable, hmask, hskip (mem_cons_self ..)]
          exact fun h => Bool.false_ne_true h.2
        · simpa [Deliverable, hpending, hmask, hi] using hd
      rw [if_neg hd, if_neg hd', if_neg hd, if_neg hd']
      exact ih hskip' hq

end

/-! ## The number of a signal as its own handler -/

/-- The second process has the entry `h` where the first has the default. -/
def Differs (s : Sig) (h : Word) (p q : Proc) : Prop := p.handlers s = SIG_DFL ∧ q = p.withHandler s h

theorem handleSigcont_withHandler {h : Word} (p : Proc) :
    handleSigcont (p.withHandler s h) = (handleSigcont p).withHandler s h := by
  unfold handleSigcont
  by_cases hstop : hasSignal p SIGSTOP = true
  · rw [if_pos hstop, if_pos (show hasSignal (p.withHandler s h) SIGSTOP = true from hstop)]
    rfl
  · rw [if_neg hstop, if_neg (show ¬hasSignal (p.withHandler s h) SIGSTOP = true from hstop)]
    rfl

theorem perform_withHandler {d : Disposal} {h : Word} (hq : Differs s h p q) :
    FlowRel (Differs s h) (perform w i d p) (perform w i d q) := by
  refine perform_rel ?_ ?_ ?_ (fun _ => .inr ?_) hq
  · rintro p _ ⟨hp, rfl⟩
    exact ⟨hp, rfl⟩
  · rintro p _ ⟨hp, rfl⟩
    exact ⟨hp, rfl⟩
  · rintro p _ ⟨hp, rfl⟩
    exact ⟨by rw [(Bookkeeping.handleSigcont p).handlers, hp], handleSigcont_withHandler p⟩
  · obtain ⟨hp, rfl⟩ := hq
    exact ⟨Iff.rfl, Iff.rfl, hp, rfl⟩

theorem disposal_own (hs : s = SIGKILL ∨ s = SIGSTOP) : disposal s (sigWord s) = disposal s SIG_DFL := by
  rcases hs with rfl | rfl <;> decide

theorem rounds_withHandler {h : Word} {i : Sig} {p q : Proc} (hR : Differs s h p q)
    (hi : disposal s h = disposal s SIG_DFL ∨ i ≠ s) :
    disposal i (q.handlers i) = disposal i (p.handlers i) ∧ (Waits q ↔ Waits p) ∧
      FlowRel (Differs s h) (perform (arrive i) i (disposal i (p.handlers i)) (saveMask p))
        (perform (arrive i) i (disposal i (p.handlers i)) (saveMask q)) := by
  obtain ⟨hp, rfl⟩ := hR
  refine ⟨?_, Iff.rfl, perform_withHandler ⟨hp, rfl⟩⟩
  simp only [Proc.withHandler, Function.update_apply]
  split
  · next heq =>
    subst heq
    rw [hp]
    exact hi.resolve_right fun hne => hne rfl
  · rfl

theorem loop_withHandler (arrive : Sig → Word) {h : Word} (is : List Sig) (hdfl : p.handlers s = SIG_DFL)
    (hs : disposal s h = disposal s SIG_DFL ∨ ∀ a ∈ acted arrive is p, a.1 ≠ s) :
    ScanRel (Differs s h) (sigLoop arrive is p) (sigLoop arrive is (p.withHandler s h)) ∧
      history arrive is p = history arrive is (p.withHandler s h) :=
  sigLoop_rel arrive (by rintro i p q ⟨-, rfl⟩ -; exact Iff.rfl) (fun hR _ hi => rounds_withHandler hR hi)
    (by rintro p q ⟨hp, rfl⟩; exact ⟨hp, rfl⟩) is ⟨hdfl, rfl⟩ rfl fun a ha => hs.imp_right fun hnone => hnone a ha

/-- A pass does the same with another entry for `s`, the entry apart, if that entry stands for the same
disposition or the pass does not handle `s`. -/
theorem pass_withHandler (arrive : Sig → Word) {h : Word} (hdfl : p.handlers s = SIG_DFL)
    (hs : disposal s h = disposal s SIG_DFL ∨ ∀ r, Reaches arrive p s r → ¬Deliverable r s) :
    SamePass (Differs s h) arrive p (p.withHandler s h) := by
  obtain ⟨hscan, hhistory⟩ := loop_withHandler arrive (finRange 32) hdfl (hs.imp_right fun hnone a ha heq => by
    obtain ⟨hr, hd⟩ := mem_acted_iff.mp ha
    rw [heq] at hr hd
    exact hnone _ hr hd)
  refine ⟨hscan, ?_, hhistory⟩
  rw [checkKernelSigs_eq, checkKernelSigs_eq]
  refine finish_rel ?_ hscan
  rintro i p q ⟨hp, rfl⟩ hu
  refine ⟨rfl, rfl, rfl, hp, ?_⟩
  have hne : i ≠ s := by
    rintro rfl
    exact hu.1 hp
  have hentry : (p.withHandler s h).handlers i = p.handlers i := Function.update_of_ne hne _ _
  unfold framed entered
  rw [hentry]
  rfl

theorem opposed_sigcont {r : Proc} (hdfl : r.handlers SIGCONT = SIG_DFL) :
    Opposed SIGCONT SIG_DFL w (restoreMask (handleSigcont (saveMask r)))
    (restoreMask (handleSigcont (handleSigcont (saveMask (r.withHandler SIGCONT w))))) := by
  have hagain : handleSigcont (handleSigcont (saveMask r)) = cancelSignal (handleSigcont (saveMask r)) SIGCONT := by
    have hoff : hasSignal (handleSigcont (saveMask r)) SIGSTOP = false := by
      rw [hasSignal_eq, has_handleSigcont, if_pos rfl]
    rw [handleSigcont, hoff]
    rfl
  have hentry := handleSigcont_withHandler (s := SIGCONT) (h := w)
  refine ⟨(Bookkeeping.handleSigcont (saveMask r)).handlers ▸ hdfl, ?_⟩
  rw [show saveMask (r.withHandler SIGCONT w) = (saveMask r).withHandler SIGCONT w from rfl, hentry, hentry, hagain]
  rfl

theorem not_opposed_of_differs {a b : Except Stuck Scan} {h₀ h : Word} (ho : ScanRel (Opposed s h₀ h) a b)
    (hd : ScanRel (Differs s h) a b) :
    False := by
  have hne : ∀ {p q}, Opposed s h₀ h p q → Differs s h p q → False := by
    rintro p q ⟨-, hq⟩ ⟨-, rfl⟩
    have hpending : (p.withHandler s h).pending = ((cancelSignal p s).withHandler s h).pending :=
      congrArg Proc.pending hq
    have hbit : has p.pending s = (has p.pending s ^^ decide (s = s)) :=
      (congrArg (has · s) hpending).trans (has_cancelSignal p s s)
    cases hon : has p.pending s <;> simp [hon] at hbit
  cases ho <;> cases hd <;> exact hne ‹_› ‹_›

/-- The two processes differ at most in whether `s` is pending. -/
def Twin (s : Sig) (p q : Proc) : Prop :=
  ∃ w, q = { p with pending := w } ∧ ∀ k, k ≠ s → has w k = has p.pending k

namespace Twin

theorem cancelSignal (h : Twin s p q) (i : Sig) : Twin s (cancelSignal p i) (cancelSignal q i) := by
  obtain ⟨w, rfl, hw⟩ := h
  refine ⟨_, rfl, fun k hk => ?_⟩
  simp only [Xv6.cancelSignal, has_xor, hw k hk]

theorem handleSigkill (h : Twin s p q) : Twin s (handleSigkill p) (handleSigkill q) := by
  obtain ⟨w, rfl, hw⟩ := h
  exact ⟨w, rfl, hw⟩

theorem receive (h : Twin s p q) (v : Word) : Twin s (p.receive v) (q.receive v) := by
  obtain ⟨w, rfl, hw⟩ := h
  refine ⟨_, rfl, fun k hk => ?_⟩
  simp only [Proc.receive, has_or, hw k hk]

theorem handleSigcont (h : Twin s p q) : Twin s (handleSigcont p) (handleSigcont q) := by
  obtain ⟨w, rfl, hw⟩ := h
  refine ⟨(Xv6.handleSigcont { p with pending := w }).pending, ?_, fun k hk => ?_⟩
  · unfold Xv6.handleSigcont
    split <;> split <;> rfl
  · rw [has_handleSigcont, has_handleSigcont]
    simp only [hw k hk]

theorem waits (h : Twin s p q) (hs : s ≠ SIGCONT ∧ s ≠ SIGKILL) : Waits q ↔ Waits p := by
  obtain ⟨w, rfl, hw⟩ := h
  rw [Waits, Waits, hw SIGCONT hs.1.symm, hw SIGKILL hs.2.symm]

theorem deliverable (h : Twin s p q) (hm : has p.mask s = false) : Deliverable p i ↔ Deliverable q i := by
  obtain ⟨w, rfl, hw⟩ := h
  unfold Deliverable
  by_cases hi : i = s
  · simp [hi, hm]
  · simp only [hw i hi]

theorem perform {d : Disposal} (h : Twin s p q) (hs : s ≠ SIGCONT ∧ s ≠ SIGKILL) :
    FlowRel (Twin s) (perform w i d p) (perform w i d q) :=
  perform_rel (fun h => h.cancelSignal i) handleSigkill handleSigcont
    (fun _ => .inr ⟨h.waits hs, (h.receive w).waits hs, h.receive w⟩) h

theorem round (h : Twin s p q) (hs : s ≠ SIGCONT ∧ s ≠ SIGKILL) :
    disposal i (q.handlers i) = disposal i (p.handlers i) ∧ (Waits q ↔ Waits p) ∧
      FlowRel (Twin s) (Xv6.perform w i (disposal i (p.handlers i)) (saveMask p))
        (Xv6.perform w i (disposal i (p.handlers i)) (saveMask q)) := by
  have hwaits := h.waits hs
  obtain ⟨v, rfl, hv⟩ := h
  have hsaved : Twin s (saveMask p) (saveMask { p with pending := v }) := ⟨v, rfl, hv⟩
  exact ⟨rfl, hwaits, hsaved.perform hs⟩

end Twin

theorem twin_cancelSignal (p : Proc) (s : Sig) : Twin s p (cancelSignal p s) :=
  ⟨_, rfl, fun k hk => (has_cancelSignal p s k).trans (by simp [hk])⟩

theorem Opposed.twin {h : Word} (hq : Opposed s h h p q) : Twin s p q := by
  obtain ⟨rfl, rfl⟩ := hq
  have hentry : (cancelSignal p s).withHandler s (p.handlers s) = cancelSignal p s := by
    simp [Proc.withHandler, cancelSignal]
  rw [hentry]
  exact twin_cancelSignal p s

theorem samePass_of_twins (hscan : ScanRel (Twin s) (sigLoop arrive (finRange 32) p) (sigLoop arrive (finRange 32) q))
    (hhistory : history arrive (finRange 32) p = history arrive (finRange 32) q) : SamePass (Twin s) arrive p q := by
  refine ⟨hscan, ?_, hhistory⟩
  rw [checkKernelSigs_eq, checkKernelSigs_eq]
  refine finish_rel ?_ hscan
  rintro i p q ⟨w, rfl, hw⟩ -
  have hentered : Twin s (entered i p) (entered i { p with pending := w }) := ⟨w, rfl, hw⟩
  exact ⟨rfl, rfl, rfl, hentered.cancelSignal i⟩

end Xv6
