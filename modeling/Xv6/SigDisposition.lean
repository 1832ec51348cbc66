import Xv6.SigPass

/- What a pass of `check_kernel_sigs` does with the signals that it handles.

   The loop body has two switches, one on the number of the signal and one on its handler entry,
   and a signal can go through both. Together they do one of six things (`disposal`), and the loop
   body is that one thing, done to the process with its mask saved (`sigLoop_cons`). A handler
   entry with the number of `SIGCONT` in it is the odd one: `handle_SIGCONT` toggles the bit of
   `SIGCONT`, whichever signal it is called for, and for `SIGCONT` itself it is called twice.

   `pending_only_consumed_iff`: without kills from outside, the pending signals only get fewer, and those that were
   ignored, continued or framed are pending no more, if and only if no signal with the number of `SIGCONT` as its
   handler is handled. For `SIGSTOP` that is the signal that `handle_SIGCONT` cancels, so there it comes down to
   whether a `SIGCONT` that it has turned on is handled after it. -/
namespace Xv6
open List Bits ByteMem

variable {arrive : Sig → Word} {w : Word} {i s : Sig} {p q : Proc}

/-! ## The loop body -/

inductive Disposal where
  | ignore
  | kill
  | stop
  | cont
  /-- `handle_SIGCONT` is called in both switches. -/
  | contTwice
  | frame
  deriving DecidableEq

/-- What becomes of signal `i` with handler entry `h`. -/
def disposal (i : Sig) (h : Word) : Disposal :=
  if h = SIG_IGN then .ignore
  else if h = SIG_DFL then
    if i = SIGCONT then .cont else if i = SIGSTOP then .stop else .kill
  else if h = sigWord SIGKILL then .kill
  else if h = sigWord SIGCONT then
    if i = SIGCONT then .contTwice else .cont
  else if h = sigWord SIGSTOP then .stop
  else .frame

theorem disposal_eq_frame {h : Word} : disposal i h = .frame ↔ UserHandler h := by
  unfold disposal UserHandler
  grind

theorem disposal_eq_contTwice {h : Word} : disposal i h = .contTwice ↔ i = SIGCONT ∧ h = sigWord SIGCONT := by
  unfold disposal
  constructor
  · intro heq
    grind
  · rintro ⟨rfl, rfl⟩
    decide

def perform (arrive : Word) (i : Sig) : Disposal → Proc → Except Stuck Flow
  | .ignore, p => .ok (.next (cancelSignal p i))
  | .kill, p => .ok (.next (handleSigkill p))
  | .stop, p => (handleSigstop arrive p).map .next
  | .cont, p => .ok (.next (handleSigcont p))
  | .contTwice, p => .ok (.next (handleSigcont (handleSigcont p)))
  | .frame, p => .ok (.frame p)

theorem handleSigkill_again (p : Proc) : handleSigkill (handleSigkill p) = handleSigkill p := by
  simp only [handleSigkill]
  split <;> simp_all

/-- `handle_SIGSTOP` has to wait. -/
def Waits (p : Proc) : Prop := has p.pending SIGCONT = false ∧ has p.pending SIGKILL = false

instance (p : Proc) : Decidable (Waits p) := inferInstanceAs (Decidable (_ ∧ _))

/-- The signals `w` have come in. -/
def Proc.receive (p : Proc) (w : Word) : Proc := { p with pending := p.pending ||| w }

@[simp] theorem Proc.receive_zero (p : Proc) : p.receive 0 = p := by
  simp [receive]

theorem handleSigstop_eq (w : Word) (p : Proc) : handleSigstop w p =
    if Waits p then if Waits (p.receive w) then .error (.stopped (p.receive w)) else .ok (p.receive w)
    else .ok p := by
  have htest : ∀ p : Proc, ¬Waits p ↔ (hasSignal p SIGCONT || hasSignal p SIGKILL) = true := by
    intro p
    rw [hasSignal_eq, hasSignal_eq, Waits]
    cases has p.pending SIGCONT <;> cases has p.pending SIGKILL <;> simp
  rw [handleSigstop]
  by_cases hw : Waits p
  · rw [if_pos hw, if_neg fun h => (htest p).mpr h hw]
    by_cases hw' : Waits (p.receive w)
    · rw [if_pos hw']
      exact if_neg fun h => (htest _).mpr h hw'
    · rw [if_neg hw']
      exact if_pos ((htest _).mp hw')
  · rw [if_neg hw, if_pos ((htest p).mp hw)]

theorem handleSigstop_again (h : handleSigstop w p = .ok q) : handleSigstop w q = .ok q := by
  rw [handleSigstop_eq] at h ⊢
  rw [if_neg]
  split at h
  · split at h
    · cases h
    · next hw => cases h; exact hw
  · next hw => cases h; exact hw

/-- The numbers of the three signals and the two special entries are five different words. -/
theorem entries_ne : SIG_IGN ≠ SIG_DFL ∧ SIG_IGN ≠ sigWord SIGKILL ∧ SIG_IGN ≠ sigWord SIGCONT ∧
    SIG_IGN ≠ sigWord SIGSTOP ∧ SIG_DFL ≠ sigWord SIGKILL ∧ SIG_DFL ≠ sigWord SIGCONT ∧
    SIG_DFL ≠ sigWord SIGSTOP ∧ sigWord SIGKILL ≠ sigWord SIGCONT ∧ sigWord SIGKILL ≠ sigWord SIGSTOP ∧
    sigWord SIGCONT ≠ sigWord SIGSTOP := by decide

theorem sigs_ne : SIGKILL ≠ SIGCONT ∧ SIGKILL ≠ SIGSTOP ∧ SIGCONT ≠ SIGSTOP := by decide

/-- The entry names the default action of its own signal by number. -/
def Own (i : Sig) (h : Word) : Prop := h = sigWord i ∧ (i = SIGKILL ∨ i = SIGCONT ∨ i = SIGSTOP)

theorem defaultSwitch_other (hdfl : p.handlers i ≠ SIG_DFL) (hown : ¬Own i (p.handlers i)) :
    defaultSwitch w i p = .ok p := by
  simp only [defaultSwitch, hdfl, false_or, if_false]
  split
  · next hi => rw [if_neg fun h => hown ⟨by rw [h, hi], .inl hi⟩]
  · split
    · next hi => rw [if_neg fun h => hown ⟨by rw [h, hi], .inr (.inl hi)⟩]
    · split
      · next hi => rw [if_neg fun h => hown ⟨by rw [h, hi], .inr (.inr hi)⟩]
      · rfl

/-- Run the first switch, then the second. -/
def switches (w : Word) (i : Sig) (p : Proc) : Except Stuck Flow :=
  match defaultSwitch w i p with
  | .error e => .error e
  | .ok p => handlerSwitch w i p

theorem switches_ok (h : defaultSwitch w i p = .ok q) : switches w i p = handlerSwitch w i q := by
  rw [switches, h]

theorem handlerSwitch_eq (hdfl : p.handlers i ≠ SIG_DFL) (htwice : disposal i (p.handlers i) ≠ .contTwice) :
    handlerSwitch w i p = perform w i (disposal i (p.handlers i)) p := by
  unfold handlerSwitch disposal at *
  dsimp only at *
  by_cases hign : p.handlers i = SIG_IGN
  · rw [if_pos hign, if_pos hign]
    rfl
  · rw [if_neg hign, if_neg hdfl] at htwice
    rw [if_neg hign, if_neg hign, if_pos hdfl, if_neg hdfl]
    split
    · rfl
    · split
      · next hkill hcont =>
        rw [if_neg hkill, if_pos hcont] at htwice
        rw [if_neg fun hi => htwice (if_pos hi)]
        rfl
      · split <;> rfl

theorem handlerSwitch_dfl (hdfl : p.handlers i = SIG_DFL) : handlerSwitch w i p = .ok (.next p) := by
  simp [handlerSwitch, hdfl, entries_ne.1.symm]

theorem switches_eq (w : Word) (i : Sig) (p : Proc) :
    switches w i p = perform w i (disposal i (p.handlers i)) p := by
  obtain ⟨hid, hik, hic, his, hdk, hdc, hds, hkc, hks, hcs⟩ := entries_ne
  obtain ⟨skc, sks, scs⟩ := sigs_ne
  by_cases hdfl : p.handlers i = SIG_DFL
  · -- the default action of the signal, and nothing in the second switch
    have hnext : ∀ {q}, Bookkeeping p q → handlerSwitch w i q = .ok (.next q) := fun hb =>
      handlerSwitch_dfl (by rw [hb.handlers, hdfl])
    rw [hdfl, disposal, if_neg hid.symm, if_pos rfl]
    unfold switches defaultSwitch
    simp only [hdfl, true_or, if_true]
    by_cases hk : i = SIGKILL
    · rw [if_pos hk, if_neg (hk ▸ skc), if_neg (hk ▸ sks)]
      exact hnext (.handleSigkill p)
    · rw [if_neg hk]
      by_cases hc : i = SIGCONT
      · rw [if_pos hc, if_pos hc]
        exact hnext (.handleSigcont p)
      · rw [if_neg hc, if_neg hc]
        by_cases hs : i = SIGSTOP
        · rw [if_pos hs, if_pos hs, perform]
          cases hstop : handleSigstop w p with
          | error e => rfl
          | ok q => exact hnext (.handleSigstop hstop)
        · rw [if_neg hs, if_neg hs]
          exact hnext (.handleSigkill p)
  · by_cases hown : Own i (p.handlers i)
    · -- the action is performed in both switches
      obtain ⟨hh, rfl | rfl | rfl⟩ := hown
      · have hd : disposal SIGKILL (p.handlers SIGKILL) = .kill := by
          simp [disposal, hh, hik.symm, hdk.symm]
        have hfirst : defaultSwitch w SIGKILL p = .ok (handleSigkill p) := by
          simp [defaultSwitch, hh]
        have hsame : (handleSigkill p).handlers = p.handlers := (Bookkeeping.handleSigkill p).handlers
        rw [switches_ok hfirst, handlerSwitch_eq (by rw [hsame]; exact hdfl) (by rw [hsame, hd]; rintro ⟨⟩), hsame, hd]
        simp only [perform, handleSigkill_again]
      · have hd : disposal SIGCONT (p.handlers SIGCONT) = .contTwice := by
          simp [disposal, hh, hic.symm, hdc.symm, hkc.symm]
        have hfirst : defaultSwitch w SIGCONT p = .ok (handleSigcont p) := by
          simp [defaultSwitch, hh, skc.symm]
        have hsame : (handleSigcont p).handlers = p.handlers := (Bookkeeping.handleSigcont p).handlers
        rw [switches_ok hfirst, hd, perform]
        simp [handlerSwitch, hsame, hh, hic.symm, hdc.symm, hkc.symm]
      · have hd : disposal SIGSTOP (p.handlers SIGSTOP) = .stop := by
          simp [disposal, hh, his.symm, hds.symm, hks.symm, hcs.symm]
        have hfirst : defaultSwitch w SIGSTOP p = handleSigstop w p := by
          simp [defaultSwitch, hh, sks.symm, scs.symm]
        rw [hd, perform]
        cases hstop : handleSigstop w p with
        | error e => simp [switches, hfirst, hstop, Except.map]
        | ok q =>
          have hsame : q.handlers = p.handlers := (Bookkeeping.handleSigstop hstop).handlers
          rw [switches_ok (hfirst.trans hstop), handlerSwitch_eq (by rw [hsame]; exact hdfl)
            (by rw [hsame, hd]; rintro ⟨⟩), hsame, hd, perform, handleSigstop_again hstop]
    · rw [switches_ok (defaultSwitch_other hdfl hown)]
      refine handlerSwitch_eq hdfl fun htwice => hown ?_
      obtain ⟨hi, hcont⟩ := disposal_eq_contTwice.mp htwice
      exact ⟨hcont.trans (by rw [hi]), .inr (.inl hi)⟩

/-- One round of the loop. -/
theorem sigLoop_cons (arrive : Sig → Word) (i : Sig) (rest : List Sig) (p : Proc) :
    sigLoop arrive (i :: rest) p =
      if Deliverable p i then
        match perform (arrive i) i (disposal i (p.handlers i)) (saveMask p) with
        | .error e => .error e
        | .ok (.frame q) => .ok (.frame i q)
        | .ok (.next q) => sigLoop arrive rest (restoreMask q)
      else sigLoop arrive rest p := by
  have hbody := switches_eq (arrive i) i (saveMask p)
  change _ = perform (arrive i) i (disposal i (p.handlers i)) (saveMask p) at hbody
  rw [sigLoop, ← hbody, switches]
  by_cases hd : Deliverable p i
  · rw [if_pos hd, (guard_eq_false_iff p i).mpr hd, if_neg Bool.false_ne_true]
    cases defaultSwitch (arrive i) i (saveMask p) with
    | error e => rfl
    | ok q => rfl
  · rw [if_neg hd, if_pos ((guard_eq_true_iff p i).mpr hd)]

/-- The signals that the loop handles, each with the process as it is when its turn comes. -/
def acted (arrive : Sig → Word) : List Sig → Proc → List (Sig × Proc)
  | [], _ => []
  | i :: rest, p =>
    if Deliverable p i then
      (i, p) :: match perform (arrive i) i (disposal i (p.handlers i)) (saveMask p) with
        | .ok (.next q) => acted arrive rest (restoreMask q)
        | .ok (.frame _) | .error _ => []
    else acted arrive rest p

theorem acted_cons (arrive : Sig → Word) (i : Sig) (rest : List Sig) (p : Proc) :
    acted arrive (i :: rest) p =
      if Deliverable p i then
        (i, p) :: match perform (arrive i) i (disposal i (p.handlers i)) (saveMask p) with
          | .ok (.next q) => acted arrive rest (restoreMask q)
          | .ok (.frame _) | .error _ => []
      else acted arrive rest p := rfl

theorem sigLoop_append (is js : List Sig) (p : Proc) : sigLoop arrive (is ++ js) p =
    match sigLoop arrive is p with
    | .ok (.finished q) => sigLoop arrive js q
    | r => r := by
  induction is generalizing p with
  | nil => rfl
  | cons i rest ih =>
    rw [cons_append, sigLoop_cons, sigLoop_cons]
    split
    · cases perform (arrive i) i (disposal i (p.handlers i)) (saveMask p) with
      | error e => rfl
      | ok flow =>
        cases flow with
        | frame q => rfl
        | next q => exact ih _
    · exact ih p

theorem acted_append (is js : List Sig) (p : Proc) : acted arrive (is ++ js) p = acted arrive is p ++
    match sigLoop arrive is p with
    | .ok (.finished q) => acted arrive js q
    | _ => [] := by
  induction is generalizing p with
  | nil => rfl
  | cons i rest ih =>
    rw [cons_append, sigLoop_cons, acted_cons, acted_cons]
    split
    · rw [cons_append]
      congr 1
      cases perform (arrive i) i (disposal i (p.handlers i)) (saveMask p) with
      | error e => rfl
      | ok flow =>
        cases flow with
        | frame q => rfl
        | next q => exact ih _
    · exact ih p

theorem mem_of_mem_acted {is : List Sig} {a : Sig × Proc} (h : a ∈ acted arrive is p) : a.1 ∈ is := by
  induction is generalizing p with
  | nil => cases h
  | cons i rest ih =>
    rw [acted_cons] at h
    split at h
    · rcases List.mem_cons.mp h with rfl | h
      · exact mem_cons_self ..
      · split at h
        · exact mem_cons_of_mem _ (ih h)
        all_goals cases h
    · exact mem_cons_of_mem _ (ih h)

/-- The pass comes to signal `i`, and the process is `r` then. -/
def Reaches (arrive : Sig → Word) (p : Proc) (i : Sig) (r : Proc) : Prop :=
  sigLoop arrive ((finRange 32).take i) p = .ok (.finished r)

theorem finRange_split (i : Sig) : finRange 32 = (finRange 32).take i ++ i :: (finRange 32).drop (i + 1) ∧
    i ∉ (finRange 32).take i ∧ i ∉ (finRange 32).drop (i + 1) := by
  revert i
  decide

theorem mem_acted_iff {a : Sig × Proc} :
    a ∈ acted arrive (finRange 32) p ↔ Reaches arrive p a.1 a.2 ∧ Deliverable a.2 a.1 := by
  obtain ⟨i, r⟩ := a
  obtain ⟨hsplit, hbefore, hafter⟩ := finRange_split i
  rw [hsplit, acted_append, mem_append, Reaches]
  constructor
  · rintro (h | h)
    · exact absurd (mem_of_mem_acted h) hbefore
    · split at h
      · next r' hr =>
        rw [acted_cons] at h
        split at h
        · next hd =>
          rcases List.mem_cons.mp h with heq | h
          · cases heq
            exact ⟨hr, hd⟩
          · split at h
            · exact absurd (mem_of_mem_acted h) hafter
            all_goals cases h
        · exact absurd (mem_of_mem_acted h) hafter
      · cases h
  · rintro ⟨hr, hd⟩
    rw [hr]
    dsimp only
    rw [acted_cons, if_pos hd]
    exact .inr (mem_cons_self ..)

theorem perform_next {d : Disposal} (h : perform w i d (saveMask p) = .ok (.next q)) :
    (restoreMask q).handlers = p.handlers ∧ (restoreMask q).mask = p.mask := by
  have hb : Bookkeeping (saveMask p) q := by
    cases d with
    | ignore => cases h; exact .cancelSignal _ _
    | kill => cases h; exact .handleSigkill _
    | cont => cases h; exact .handleSigcont _
    | contTwice => cases h; exact (Bookkeeping.handleSigcont _).trans (.handleSigcont _)
    | frame => cases h
    | stop =>
      cases hstop : handleSigstop w (saveMask p) with
      | error e => rw [perform, hstop] at h; cases h
      | ok r => rw [perform, hstop] at h; cases h; exact .handleSigstop hstop
  exact ⟨hb.handlers, hb.maskBackup⟩

theorem perform_frame {d : Disposal} (h : perform w i d p = .ok (.frame q)) : d = .frame ∧ q = p := by
  cases d with
  | frame => cases h; exact ⟨rfl, rfl⟩
  | stop => rw [perform] at h; cases hstop : handleSigstop w p <;> rw [hstop] at h <;> cases h
  | ignore | kill | cont | contTwice => cases h

/-- The process at the end of the loop, its frame built. -/
def finish : Except Stuck Scan → Except Stuck Pass
  | .error e => .error e
  | .ok (.finished p) => .ok ⟨some p, none⟩
  | .ok (.frame i p) =>
    match pushFrame i p with
    | .error a => .error (.badStore a)
    | .ok p => .ok ⟨some p, some i⟩

theorem checkKernelSigs_eq (arrive : Sig → Word) (p : Proc) :
    checkKernelSigs arrive (some p) = finish (sigLoop arrive (finRange 32) p) := by
  rw [checkKernelSigs]
  by_cases hz : p.mask = 0 ∨ p.pending = 0
  · rw [if_pos hz, sigLoop_skip fun s _ hd => hd.guard hz]
    rfl
  · rw [if_neg hz]
    rfl

/-! ## Pending signals are consumed -/

theorem has_cancelSignal (p : Proc) (i s : Sig) :
    has (cancelSignal p i).pending s = (has p.pending s ^^ decide (s = i)) := by
  simp [cancelSignal]

theorem has_handleSigcont (p : Proc) (s : Sig) : has (handleSigcont p).pending s =
    if s = SIGSTOP then false else (has p.pending s ^^ decide (s = SIGCONT)) := by
  have hne : SIGSTOP ≠ SIGCONT := by decide
  simp only [handleSigcont, hasSignal_eq]
  by_cases hs : s = SIGSTOP
  · subst hs
    cases hstop : has p.pending SIGSTOP <;> simp [has_cancelSignal, hstop, hne]
  · cases hstop : has p.pending SIGSTOP <;> simp [has_cancelSignal, hs]

/-- The signal has been dealt with, and the process neither killed nor stopped for it. -/
def Settled (d : Disposal) : Prop := d ≠ .kill ∧ d ≠ .stop

theorem disposal_cont {h : Word} (hd : disposal i h = .cont) (hcont : h ≠ sigWord SIGCONT) : i = SIGCONT := by
  unfold disposal at hd
  grind

theorem disposal_number : disposal i (sigWord SIGCONT) = if i = SIGCONT then .contTwice else .cont := by
  simp [disposal, entries_ne.2.2.1.symm, entries_ne.2.2.2.2.2.1.symm, entries_ne.2.2.2.2.2.2.2.1.symm]

/-- The pending signals after `handle_SIGCONT`. -/
def continues (v : Word) : Word := v &&& ~~~bit SIGSTOP ^^^ bit SIGCONT

section Drains

/- Without kills from outside, a pass is what it does to the word of pending signals, by the handlers `H` and the mask
`m`, which stay as they are. -/

variable {H : Sig → Word} {m v v' : Word} {is as rest : List Sig} {k : Sig}

/-- The pending signals after a round for `i`. -/
def round (H : Sig → Word) (i : Sig) (v : Word) : Word :=
  match disposal i (H i) with
  | .ignore | .frame => v ^^^ bit i
  | .cont => continues v
  | .contTwice => continues (continues v)
  | .kill | .stop => v

/-- The loop over `is` handles the signals `as`, and leaves `v'` of the pending signals `v`. -/
inductive Drains (H : Sig → Word) (m : Word) : List Sig → Word → List Sig → Word → Prop where
  | nil {v : Word} : Drains H m [] v [] v
  | skip {i : Sig} {rest as : List Sig} {v v' : Word} (hi : ¬(has v i = true ∧ has m i = true))
      (h : Drains H m rest v as v') : Drains H m (i :: rest) v as v'
  | frame {i : Sig} {rest : List Sig} {v : Word} (hi : has v i = true ∧ has m i = true) (hu : UserHandler (H i)) :
      Drains H m (i :: rest) v [i] (round H i v)
  | next {i : Sig} {rest as : List Sig} {v v' : Word} (hi : has v i = true ∧ has m i = true) (hu : ¬UserHandler (H i))
      (h : Drains H m rest (round H i v) as v') : Drains H m (i :: rest) v (i :: as) v'

theorem perform_round (h : perform 0 i (disposal i (p.handlers i)) (saveMask p) = .ok (.next q)) :
    q.pending = round p.handlers i p.pending := by
  have hcont : ∀ p : Proc, (handleSigcont p).pending = continues p.pending := by
    intro p
    refine has_ext fun k => ?_
    rw [has_handleSigcont]
    by_cases hk : k = SIGSTOP <;> simp [continues, hk, sigs_ne.2.2.symm]
  unfold round
  cases hd : disposal i (p.handlers i) <;> rw [hd] at h
  case stop =>
    rw [perform, handleSigstop_eq, Proc.receive_zero] at h
    split at h <;> cases h
    rfl
  all_goals cases h
  case cont => exact hcont _
  case contTwice => rw [hcont, hcont]; rfl
  all_goals rfl

/-- The process when the loop is left, the signal of a frame cancelled. -/
def Scan.close : Scan → Proc
  | .finished q => q
  | .frame i q => cancelSignal q i

theorem drains_of_sigLoop {out : Scan} (h : sigLoop (fun _ => 0) is p = .ok out) :
    Drains p.handlers p.mask is p.pending ((acted (fun _ => 0) is p).map Prod.fst) out.close.pending := by
  induction is generalizing p with
  | nil =>
    cases h
    exact .nil
  | cons i rest ih =>
    rw [sigLoop_cons] at h
    rw [acted_cons]
    by_cases hd : Deliverable p i
    · rw [if_pos hd] at h ⊢
      cases hp : perform 0 i (disposal i (p.handlers i)) (saveMask p) with
      | error e => rw [hp] at h; cases h
      | ok flow =>
        rw [hp] at h
        cases flow with
        | frame q =>
          obtain ⟨hframe, rfl⟩ := perform_frame hp
          cases h
          have hframed : Drains _ _ (i :: rest) _ _ _ := .frame hd (disposal_eq_frame.mp hframe)
          rwa [round, hframe] at hframed
        | next q =>
          have hrest := ih h
          rw [(perform_next hp).1, (perform_next hp).2] at hrest
          refine .next hd (fun hu => ?_) (perform_round hp ▸ hrest)
          rw [disposal_eq_frame.mpr hu] at hp
          cases hp
    · rw [if_neg hd] at h ⊢
      exact .skip hd (ih h)

theorem mem_of_drains (h : Drains H m is v as v') (hk : k ∈ as) : k ∈ is := by
  induction h with
  | nil => exact hk
  | skip _ _ ih => exact mem_cons_of_mem _ (ih hk)
  | frame => exact List.mem_singleton.mp hk ▸ mem_cons_self ..
  | next _ _ _ ih => exact (List.mem_cons.mp hk).elim (· ▸ mem_cons_self ..) fun hk => mem_cons_of_mem _ (ih hk)

/-- The signals that are pending and let through at the entry, up to the first with a user handler. -/
def handled (H : Sig → Word) (m v : Word) : List Sig → List Sig
  | [] => []
  | i :: rest =>
    if has v i = true ∧ has m i = true then i :: if UserHandler (H i) then [] else handled H m v rest
    else handled H m v rest

theorem mem_of_mem_handled (h : k ∈ handled H m v is) : k ∈ is := by
  induction is with
  | nil => cases h
  | cons i rest ih =>
    rw [handled] at h
    split at h
    · rcases List.mem_cons.mp h with rfl | h
      · exact mem_cons_self ..
      · split at h
        · cases h
        · exact mem_cons_of_mem _ (ih h)
    · exact mem_cons_of_mem _ (ih h)

theorem handled_congr (h : ∀ k ∈ is, has v' k = has v k) : handled H m v' is = handled H m v is := by
  induction is with
  | nil => rfl
  | cons i rest ih => simp only [handled, ih fun k hk => h k (mem_cons_of_mem _ hk), h i (mem_cons_self ..)]

theorem has_continues : has (continues v) k = if k = SIGSTOP then false else (has v k ^^ decide (k = SIGCONT)) := by
  by_cases hk : k = SIGSTOP <;> simp [continues, hk, sigs_ne.2.2.symm]

/-- A round by another action than that of `SIGCONT` by number leaves the other signals as they are. -/
theorem has_round_other (hcont : H i ≠ sigWord SIGCONT) (hk : k ≠ i) (hstop : i = SIGCONT → k ≠ SIGSTOP) :
    has (round H i v) k = has v k := by
  unfold round
  cases hd : disposal i (H i) with
  | ignore | frame => simp [hk]
  | kill | stop => rfl
  | contTwice => exact absurd (disposal_eq_contTwice.mp hd).2 hcont
  | cont =>
    obtain rfl := disposal_cont hd hcont
    simp [has_continues, hstop rfl, hk]

theorem has_round_later (hcont : H i ≠ sigWord SIGCONT) (hlt : i < k) : has (round H i v) k = has v k := by
  refine has_round_other hcont hlt.ne' ?_
  rintro rfl rfl
  exact absurd hlt (by decide)

/-- It turns nothing on, and its own signal off if it has dealt with it. -/
theorem has_round_fewer (hi : has v i = true) (hcont : H i ≠ sigWord SIGCONT) :
    (∀ k, has (round H i v) k = true → has v k = true) ∧
      (Settled (disposal i (H i)) ↔ has (round H i v) i = false) := by
  unfold round
  cases hd : disposal i (H i) with
  | ignore | frame =>
    refine ⟨fun k hk => ?_, iff_of_true ⟨nofun, nofun⟩ (by simp [hi])⟩
    by_cases heq : k = i
    · rw [heq, hi]
    · simpa [heq] using hk
  | kill => exact ⟨fun _ => id, iff_of_false (fun h => h.1 rfl) (by rw [hi]; nofun)⟩
  | stop => exact ⟨fun _ => id, iff_of_false (fun h => h.2 rfl) (by rw [hi]; nofun)⟩
  | contTwice => exact absurd (disposal_eq_contTwice.mp hd).2 hcont
  | cont =>
    obtain rfl := disposal_cont hd hcont
    refine ⟨fun k hk => ?_, iff_of_true ⟨nofun, nofun⟩ (by rw [has_continues, hi]; rfl)⟩
    by_cases heq : k = SIGCONT
    · rw [heq, hi]
    · rw [has_continues] at hk
      split at hk
      · cases hk
      · simpa [heq] using hk

/-- The loop handles the signals that are pending at its entry, or one that has asked for the action of `SIGCONT` by
number. -/
theorem Drains.handled_or (h : Drains H m is v as v') (hsort : is.Pairwise (· < ·)) :
    as = handled H m v is ∨ ∃ i ∈ as, i ∈ handled H m v is ∧ H i = sigWord SIGCONT := by
  induction h with
  | nil => exact .inl rfl
  | skip hi _ ih =>
    rw [handled, if_neg hi]
    exact ih hsort.of_cons
  | frame hi hu =>
    rw [handled, if_pos hi, if_pos hu]
    exact .inl rfl
  | @next i rest as v v' hi hu _ ih =>
    rw [handled, if_pos hi, if_neg hu]
    by_cases hcont : H i = sigWord SIGCONT
    · exact .inr ⟨i, mem_cons_self .., mem_cons_self .., hcont⟩
    rw [handled_congr fun k hk => has_round_later hcont (rel_of_pairwise_cons hsort hk)] at ih
    exact (ih hsort.of_cons).imp (congrArg _) fun ⟨j, hj, hmem, hnumber⟩ =>
      ⟨j, mem_cons_of_mem _ hj, mem_cons_of_mem _ hmem, hnumber⟩

/-- A signal stays pending if it is not dealt with, and is not one that `handle_SIGCONT` cancels. -/
theorem Drains.stays (h : Drains H m is v as v') (hk : has v k = true) (hstop : k ≠ SIGSTOP)
    (hnot : k ∈ as → ¬Settled (disposal k (H k))) (hcont : k = SIGCONT → ∀ i ∈ as, H i ≠ sigWord SIGCONT) :
    has v' k = true := by
  have hround : ∀ {i v}, has v k = true → (k = i → ¬Settled (disposal i (H i))) →
      (k = SIGCONT → H i ≠ sigWord SIGCONT) → has (round H i v) k = true := by
    intro i v hk hself hcont
    unfold round
    cases hd : disposal i (H i) <;> rw [hd] at hself
    case kill | stop => exact hk
    case contTwice => simp [has_continues, hstop, hk]
    case cont =>
      have hne : k ≠ SIGCONT := fun heq => hself (heq.trans (disposal_cont hd (hcont heq)).symm) ⟨nofun, nofun⟩
      simp [has_continues, hstop, hne, hk]
    all_goals
      have hne : k ≠ i := fun heq => hself heq ⟨nofun, nofun⟩
      simp [hne, hk]
  induction h with
  | nil => exact hk
  | skip _ _ ih => exact ih hk hnot hcont
  | frame => exact hround hk (by rintro rfl; exact hnot (mem_cons_self ..)) fun heq => hcont heq _ (mem_cons_self ..)
  | next _ _ _ ih =>
    exact ih (hround hk (by rintro rfl; exact hnot (mem_cons_self ..)) fun heq => hcont heq _ (mem_cons_self ..))
      (fun hin => hnot (mem_cons_of_mem _ hin)) fun heq i hi => hcont heq i (mem_cons_of_mem _ hi)

/-- The last signal other than `SIGSTOP` that has asked for the action of `SIGCONT` by number stays pending. -/
theorem Drains.number_stays (h : Drains H m is v as v') (hsort : is.Pairwise (· < ·))
    (hex : ∃ i ∈ as, i ≠ SIGSTOP ∧ H i = sigWord SIGCONT) : ∃ i ∈ as, Settled (disposal i (H i)) ∧ has v' i = true := by
  induction h with
  | nil =>
    obtain ⟨i, hi, -⟩ := hex
    cases hi
  | skip _ _ ih => exact ih hsort.of_cons hex
  | frame hi hu =>
    obtain ⟨j, hj, -, hnumber⟩ := hex
    rw [List.mem_singleton.mp hj] at hnumber
    exact absurd hnumber hu.2.2.2.1
  | @next i rest as v v' hi hu h ih =>
    by_cases hlater : ∃ i ∈ as, i ≠ SIGSTOP ∧ H i = sigWord SIGCONT
    · obtain ⟨j, hj, hstays⟩ := ih hsort.of_cons hlater
      exact ⟨j, mem_cons_of_mem _ hj, hstays⟩
    · obtain ⟨j, hj, hne, hnumber⟩ := hex
      rcases List.mem_cons.mp hj with rfl | hj
      · have hafter : ∀ {k}, k ∈ as → j < k := fun hk => rel_of_pairwise_cons hsort (mem_of_drains h hk)
        have hon : has (round H j v) j = true := by
          rw [round, hnumber, disposal_number]
          have hon := hi.1
          by_cases hj : j = SIGCONT
          · subst hj
            simp [has_continues, hne, hon]
          · simp [has_continues, hne, hj, hon]
        refine ⟨j, mem_cons_self .., ?_, h.stays hon hne (fun hin => absurd (hafter hin) (lt_irrefl _)) ?_⟩
        · rw [hnumber, disposal_number]
          split <;> exact ⟨nofun, nofun⟩
        · intro heq k hk hnumber
          refine hlater ⟨k, hk, fun hstop => ?_, hnumber⟩
          exact absurd (hafter hk) (by rw [heq, hstop]; decide)
      · exact absurd ⟨j, hj, hne, hnumber⟩ hlater

/-- No signal is pending that was not, and none that has been dealt with. -/
def Consumed (H : Sig → Word) (as : List Sig) (v v' : Word) : Prop :=
  (∀ k, has v' k = true → has v k = true) ∧ ∀ i ∈ as, Settled (disposal i (H i)) → has v' i = false

theorem Consumed.off (h : Consumed H as v v') (hk : has v k = false) : has v' k = false :=
  Bool.eq_false_iff.mpr fun hon => Bool.false_ne_true (hk.symm.trans (h.1 k hon))

theorem Drains.not_consumed (h : Drains H m is v as v') (hsort : is.Pairwise (· < ·))
    (hex : ∃ i ∈ as, i ≠ SIGSTOP ∧ H i = sigWord SIGCONT) : ¬Consumed H as v v' := by
  rintro ⟨-, hoff⟩
  obtain ⟨i, hi, hsettled, hon⟩ := h.number_stays hsort hex
  exact Bool.false_ne_true ((hoff i hi hsettled).symm.trans hon)

/-- A round by another action than that of `SIGCONT` by number, before `SIGSTOP` or after. -/
theorem consumed_cons (hi : has v i = true) (hcont : H i ≠ sigWord SIGCONT) (h : Consumed H as (round H i v) v') :
    Consumed H (i :: as) v v' := by
  obtain ⟨hfewer, hoff⟩ := has_round_fewer (v := v) hi hcont
  refine ⟨fun k hk => hfewer k (h.1 k hk), fun j hj hsettled => ?_⟩
  rcases List.mem_cons.mp hj with rfl | hj
  · exact h.off (hoff.mp hsettled)
  · exact h.2 j hj hsettled

theorem Drains.consumed (h : Drains H m is v as v') (hquiet : ∀ i ∈ as, H i ≠ sigWord SIGCONT) :
    Consumed H as v v' := by
  induction h with
  | nil => exact ⟨fun _ => id, nofun⟩
  | skip _ _ ih => exact ih hquiet
  | @frame i _ _ hi => exact consumed_cons hi.1 (hquiet i (mem_cons_self ..)) ⟨fun _ => id, nofun⟩
  | @next i _ _ _ _ hi _ _ ih =>
    exact consumed_cons hi.1 (hquiet i (mem_cons_self ..)) (ih fun k hk => hquiet k (mem_cons_of_mem _ hk))

/-- Without a `SIGSTOP` that has asked for it by number. -/
theorem Drains.consumed_iff (h : Drains H m is v as v') (hsort : is.Pairwise (· < ·))
    (hstop : SIGSTOP ∈ handled H m v is → H SIGSTOP ≠ sigWord SIGCONT) :
    Consumed H as v v' ↔ ∀ i ∈ handled H m v is, H i ≠ sigWord SIGCONT := by
  rcases h.handled_or hsort with rfl | ⟨i, hi, hmem, hnumber⟩
  · refine ⟨fun hcons i hi hnumber => h.not_consumed hsort ⟨i, hi, ?_, hnumber⟩ hcons, h.consumed⟩
    rintro rfl
    exact hstop hi hnumber
  · refine ⟨fun hcons => (h.not_consumed hsort ⟨i, hi, ?_, hnumber⟩ hcons).elim, fun hall => (hall i hmem hnumber).elim⟩
    rintro rfl
    exact hstop hmem hnumber

/-- The round of a `SIGSTOP` that has: it is cancelled, and the bit of `SIGCONT` is the other way from there on. -/
theorem Drains.consumed_sigstop (h : Drains H m rest (continues v) as v')
    (hi : has v SIGSTOP = true ∧ has m SIGSTOP = true) (hnumber : H SIGSTOP = sigWord SIGCONT)
    (hsort : (SIGSTOP :: rest).Pairwise (· < ·)) :
    Consumed H (SIGSTOP :: as) v v' ↔ (∀ i ∈ handled H m (continues v) rest, H i ≠ sigWord SIGCONT) ∧
      (has v SIGCONT = true ∨ SIGCONT ∈ handled H m (continues v) rest ∧ Settled (disposal SIGCONT (H SIGCONT))) := by
  have hround : round H SIGSTOP v = continues v := by rw [round, hnumber, disposal_number, if_neg sigs_ne.2.2.symm]
  have huser : ¬UserHandler (H SIGSTOP) := fun hu => hu.2.2.2.1 hnumber
  have hne : ∀ {k}, k ∈ rest → k ≠ SIGSTOP := fun hk => (rel_of_pairwise_cons hsort hk).ne'
  rcases h.handled_or hsort.of_cons with heq | ⟨i, hi', hmem, hnumber'⟩
  · rw [← heq]
    by_cases hquiet : ∀ i ∈ as, H i ≠ sigWord SIGCONT
    · obtain ⟨hfewer, hoff⟩ := h.consumed hquiet
      refine ⟨fun hcons => ⟨hquiet, ?_⟩, fun hcont => ⟨fun k hk => ?_, fun i hi hsettled => ?_⟩⟩
      · -- a `SIGCONT` that has been turned on stays, unless it is dealt with
        by_contra hnot
        obtain ⟨hno, hdealt⟩ := not_or.mp hnot
        refine hno (hcons.1 _ (h.stays ?_ sigs_ne.2.2 (fun hin hsettled => hdealt ⟨hin, hsettled⟩) fun _ => hquiet))
        rw [has_continues, if_neg sigs_ne.2.2, Bool.eq_false_iff.mpr hno]
        rfl
      · have hon := hfewer k hk
        rw [has_continues] at hon
        split at hon
        · cases hon
        · by_cases heq : k = SIGCONT
          · subst heq
            exact hcont.2.resolve_right fun hdealt => Bool.false_ne_true ((hoff _ hdealt.1 hdealt.2).symm.trans hk)
          · simpa [heq] using hon
      · rcases List.mem_cons.mp hi with rfl | hi
        · exact (h.consumed hquiet).off (by rw [has_continues, if_pos rfl])
        · exact hoff i hi hsettled
    · refine ⟨fun hcons => absurd hcons ?_, fun hall => absurd hall.1 hquiet⟩
      push Not at hquiet
      obtain ⟨i, hi', hnumber'⟩ := hquiet
      exact (Drains.next hi huser (hround ▸ h)).not_consumed hsort
        ⟨i, mem_cons_of_mem _ hi', hne (mem_of_drains h hi'), hnumber'⟩
  · refine ⟨fun hcons => absurd hcons ?_, fun hall => absurd hnumber' (hall.1 i hmem)⟩
    exact (Drains.next hi huser (hround ▸ h)).not_consumed hsort ⟨i, mem_cons_of_mem _ hi', hne (mem_of_drains h hi'),
      hnumber'⟩

/-- With a `SIGSTOP` that has asked for the action of `SIGCONT` by number. -/
theorem Drains.consumed_iff_continues (h : Drains H m is v as v') (hsort : is.Pairwise (· < ·))
    (hmem : SIGSTOP ∈ handled H m v is) (hnumber : H SIGSTOP = sigWord SIGCONT) :
    Consumed H as v v' ↔ (∀ i ∈ handled H m (continues v) is, H i ≠ sigWord SIGCONT) ∧
      (has v SIGCONT = true ∨ SIGCONT ∈ handled H m (continues v) is ∧ Settled (disposal SIGCONT (H SIGCONT))) := by
  have hsame : ∀ {i rest}, (i :: rest).Pairwise (· < ·) → SIGSTOP ∈ rest → i ≠ SIGCONT ∧
      ∀ v, has (continues v) i = has v i := by
    intro i rest hsort hin
    have hlt := rel_of_pairwise_cons hsort hin
    have hne : i ≠ SIGCONT := fun heq => absurd hlt (by rw [heq]; decide)
    exact ⟨hne, fun v => by simp [has_continues, hlt.ne, hne]⟩
  induction h with
  | nil => cases hmem
  | skip hi _ ih =>
    rw [handled, if_neg hi] at hmem
    rw [handled, (hsame hsort (mem_of_mem_handled hmem)).2, if_neg hi]
    exact ih hsort.of_cons hmem
  | frame hi hu =>
    rw [handled, if_pos hi, if_pos hu] at hmem
    rw [← List.mem_singleton.mp hmem, hnumber] at hu
    exact absurd rfl hu.2.2.2.1
  | @next i rest as v v' hi hu h ih =>
    rw [handled, if_pos hi, if_neg hu] at hmem
    rcases List.mem_cons.mp hmem with rfl | hmem
    · have hround : round H SIGSTOP v = continues v := by rw [round, hnumber, disposal_number, if_neg sigs_ne.2.2.symm]
      have hgone : ¬(has (continues v) SIGSTOP = true ∧ has m SIGSTOP = true) := by simp [has_continues]
      rw [handled, if_neg hgone]
      exact (hround ▸ h).consumed_sigstop hi hnumber hsort
    · obtain ⟨hne, hkeep⟩ := hsame hsort (mem_of_mem_handled hmem)
      have hstop : i ≠ SIGSTOP := (rel_of_pairwise_cons hsort (mem_of_mem_handled hmem)).ne
      rw [handled, hkeep, if_pos hi, if_neg hu]
      by_cases hcont : H i = sigWord SIGCONT
      · refine ⟨fun hcons => absurd hcons ?_, fun hall => absurd hcont (hall.1 i (mem_cons_self ..))⟩
        exact (Drains.next hi hu h).not_consumed hsort ⟨i, mem_cons_self .., hstop, hcont⟩
      · have hother : ∀ {k}, k ≠ i → has (round H i v) k = has v k :=
          fun hk => has_round_other hcont hk fun heq => absurd heq hne
        have hlater : ∀ {k}, k ∈ rest → has (round H i v) k = has v k :=
          fun hk => hother (rel_of_pairwise_cons hsort hk).ne'
        have hback : Consumed H (i :: as) v v' → Consumed H as (round H i v) v' := by
          intro hcons
          refine ⟨fun k hk => ?_, fun j hj => hcons.2 j (mem_cons_of_mem _ hj)⟩
          by_cases heq : k = i
          · subst heq
            by_contra hoff
            have hsettled := (has_round_fewer (H := H) hi.1 hcont).2.mpr (Bool.eq_false_iff.mpr hoff)
            exact Bool.false_ne_true ((hcons.2 k (mem_cons_self ..) hsettled).symm.trans hk)
          · rw [hother heq]
            exact hcons.1 k hk
        have hrest : handled H m (continues (round H i v)) rest = handled H m (continues v) rest :=
          handled_congr fun k hk => by rw [has_continues, has_continues, hlater hk]
        have hih := ih hsort.of_cons (by rw [handled_congr fun k hk => hlater hk]; exact hmem)
        rw [hrest, hother hne.symm] at hih
        refine Iff.trans ⟨hback, consumed_cons hi.1 hcont⟩ (hih.trans ?_)
        simp [hcont, hne.symm]

end Drains

/-- The pending signals, after the round of a `SIGSTOP` that the pass is about to handle, if that has asked for the
action of `SIGCONT` by number. -/
def continued (p : Proc) : Word :=
  if SIGSTOP ∈ handled p.handlers p.mask p.pending (List.finRange 32) ∧ p.handlers SIGSTOP = sigWord
    SIGCONT then continues p.pending
  else p.pending

theorem pushFrame_pending (h : pushFrame i p = .ok q) : q.pending = (cancelSignal p i).pending := by
  rw [(pushFrame_ok_iff.mp h).2.2]
  rfl

/-- **Pending signals are consumed and never invented** by a completed pass that no kill from outside comes into, if
and only if it handles no signal with the number of `SIGCONT` as its handler but `SIGSTOP`, and that has turned a
`SIGCONT` off, or on for one that is dealt with. -/
theorem pending_only_consumed_iff {f : Option Sig} (h : checkKernelSigs (fun _ => 0) (some p) = .ok ⟨some q, f⟩) :
    ((∀ s, has q.pending s = true → has p.pending s = true) ∧
      ∀ i ∈ (acted (fun _ => 0) (List.finRange 32) p).map Prod.fst, Settled (disposal i (p.handlers i)) →
        has q.pending i = false) ↔
    (∀ i ∈ handled p.handlers p.mask (continued p) (List.finRange 32), p.handlers i ≠ sigWord SIGCONT) ∧
      ((∀ s, has (continued p) s = true → has p.pending s = true) ∨
        SIGCONT ∈ handled p.handlers p.mask (continued p) (List.finRange 32) ∧
          Settled (disposal SIGCONT (p.handlers SIGCONT))) := by
  rw [checkKernelSigs_eq] at h
  cases hscan : sigLoop (fun _ => 0) (List.finRange 32) p with
  | error e => rw [hscan] at h; cases h
  | ok out =>
    have hpending : q.pending = out.close.pending := by
      rw [hscan] at h
      cases out with
      | finished r => cases h; rfl
      | frame i r =>
        rw [finish] at h
        cases hpush : pushFrame i r with
        | error a => rw [hpush] at h; cases h
        | ok r' => rw [hpush] at h; cases h; exact pushFrame_pending hpush
    rw [hpending]
    have hdrains := drains_of_sigLoop hscan
    have hsort := List.pairwise_lt_finRange 32
    show Consumed p.handlers _ p.pending _ ↔ _
    unfold continued
    split
    · next hstop =>
      rw [hdrains.consumed_iff_continues hsort hstop.1 hstop.2]
      refine and_congr_right fun _ => or_congr_left ⟨fun hon s hs => ?_, fun hall => ?_⟩
      · by_cases hc : s = SIGCONT
        · rw [hc, hon]
        · rw [has_continues] at hs
          split at hs
          · cases hs
          · simpa [hc] using hs
      · by_contra hoff
        refine hoff (hall SIGCONT ?_)
        rw [has_continues, if_neg sigs_ne.2.2, Bool.eq_false_iff.mpr hoff]
        rfl
    · next hstop =>
      rw [hdrains.consumed_iff hsort fun hmem hnumber => hstop ⟨hmem, hnumber⟩]
      simp

/-- A process in the kernel, with default handlers. -/
def running (pending mask : Word) : Proc where
  sz := 0
  mem := fun _ => none
  state := .RUNNING
  pid := 1
  tf := .zero
  killed := false
  pending := pending
  mask := mask
  maskBackup := 0
  handlers := fun _ => SIG_DFL
  trapBackup := 0

def Proc.withHandler (p : Proc) (s : Sig) (h : Word) : Proc :=
  { p with handlers := Function.update p.handlers s h }

def endPending : Except Stuck Pass → Option Word
  | .ok ⟨some q, _⟩ => some q.pending
  | _ => none

theorem endPending_eq_some {r : Except Stuck Pass} (h : endPending r = some w) :
    ∃ q f, r = .ok ⟨some q, f⟩ ∧ q.pending = w := by
  match r, h with
  | .ok ⟨some q, f⟩, h => exact ⟨q, f, rfl, Option.some.inj h⟩

theorem pending_only_consumed_sigstop : ∃ q f,
    checkKernelSigs (fun _ => 0) (some ((running (bit SIGCONT ||| bit SIGSTOP) (~~~0)).withHandler SIGSTOP
      (sigWord SIGCONT))) =
        .ok ⟨some q, f⟩ ∧ q.pending = 0 ∧
      ∀ s, has q.pending s = true → has (bit SIGCONT ||| bit SIGSTOP) s = true := by
  obtain ⟨q, f, hq, hpending⟩ := endPending_eq_some (w := 0) (show endPending (checkKernelSigs (fun _ => 0)
    (some ((running (bit SIGCONT ||| bit SIGSTOP) (~~~0)).withHandler SIGSTOP (sigWord SIGCONT)))) = some
    0 by decide +kernel)
  exact ⟨q, f, hq, hpending, ((pending_only_consumed_iff hq).mpr ⟨by decide +kernel, .inl (by decide +kernel)⟩).1⟩

/-- Signal 20 has the number of `SIGCONT` as its handler: it stays, and a `SIGCONT` that nobody sent is
pending besides. -/
theorem sigcont_invented : ∃ q f,
    checkKernelSigs (fun _ => 0) (some ((running (bit 20) (~~~0)).withHandler 20 (sigWord SIGCONT))) =
      .ok ⟨some q, f⟩ ∧ q.pending = bit 20 ||| bit SIGCONT ∧ disposal 20 (sigWord SIGCONT) = .cont := by
  obtain ⟨q, f, hq, hpending⟩ := endPending_eq_some (w := bit 20 ||| bit SIGCONT)
    (show endPending (checkKernelSigs (fun _ => 0)
      (some ((running (bit 20) (~~~0)).withHandler 20 (sigWord SIGCONT)))) = some (bit 20 ||| bit SIGCONT) by
      decide +kernel)
  exact ⟨q, f, hq, hpending, by decide⟩

end Xv6
