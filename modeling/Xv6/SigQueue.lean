import Mathlib
import Xv6.SigReturn

/- Queued signals with user handlers are delivered exactly once.

   A process with the mask `M` has signals pending, all of them (as far as `M`
   lets them through) with user handlers. Its run is any sequence of: passes of
   `check_kernel_sigs`, user code that makes no signal call, `sigret` when a
   handler returns, and `kill`s by others. `Queue` pairs the process with the
   handlers that are running, innermost first, and `QueueRun` records two kinds
   of events: a pending bit that was clear became set, and a handler was entered.

   The pass in such a run is simple (`checkKernelSigs_users`): it delivers the
   lowest pending signal the mask lets through, or does nothing. Delivery zeroes
   the mask and keeps `M` in `mask_backup`, `sigret` puts `M` back, and nothing
   in between writes either (`QueueInv`). `signals_delivered_once` collects what
   follows for every state such a run reaches. -/
namespace Xv6
open List Bits ByteMem

/-! ## A pass when every deliverable signal has a user handler -/

/-- The lowest signal the pass would handle. -/
def firstDeliverable (p : Proc) : Option Sig :=
  (finRange 32).find? fun s => decide (Deliverable p s)

theorem firstDeliverable_none {p : Proc} (h : firstDeliverable p = none) (s : Sig) :
    ¬Deliverable p s := by
  have hs := List.find?_eq_none.mp h s (mem_finRange s)
  simpa using hs

theorem firstDeliverable_some {p : Proc} {i : Sig} (h : firstDeliverable p = some i) :
    Deliverable p i ∧ ∀ j < i, ¬Deliverable p j := by
  obtain ⟨hi, k, hk, hki, hlow⟩ := List.find?_eq_some_iff_getElem.mp h
  refine ⟨by simpa using hi, fun j hj => ?_⟩
  simp only [getElem_finRange, Fin.cast_mk] at hki hlow
  have hjk : j.val < k := by
    rw [← hki] at hj
    exact hj
  have hnot := hlow j hjk
  simpa using hnot

theorem exists_firstDeliverable {p : Proc} {s : Sig} (h : Deliverable p s) :
    ∃ i, firstDeliverable p = some i := by
  cases hf : firstDeliverable p with
  | none => exact absurd h (firstDeliverable_none hf s)
  | some i => exact ⟨i, rfl⟩

section Users

variable {arrive : Sig → Word} {p q : Proc}

theorem checkKernelSigs_idle (h : firstDeliverable p = none) :
    checkKernelSigs arrive (some p) = .ok ⟨some p, none⟩ := by
  simp only [checkKernelSigs]
  split
  · rfl
  · rw [sigLoop_skip fun s _ => firstDeliverable_none h s]

theorem checkKernelSigs_user {i : Sig} (hf : firstDeliverable p = some i)
    (hu : UserHandler (p.handlers i)) :
    checkKernelSigs arrive (some p) =
      match pushFrame i (saveMask p) with
      | .error a => .error (.badStore a)
      | .ok q => .ok ⟨some q, some i⟩ := by
  have hi := (firstDeliverable_some hf).1
  cases hpush : pushFrame i (saveMask p) with
  | error a => simp only [checkKernelSigs, if_neg hi.guard, sigLoop_first hf hu, hpush]
  | ok q => simp only [checkKernelSigs, if_neg hi.guard, sigLoop_first hf hu, hpush]

variable (hu : ∀ s, Deliverable p s → UserHandler (p.handlers s))
include hu

/-- A pass over user-handled signals that builds no frame found nothing to
deliver. -/
theorem checkKernelSigs_users_none
    (h : checkKernelSigs arrive (some p) = .ok ⟨some q, none⟩) :
    firstDeliverable p = none ∧ q = p := by
  cases hf : firstDeliverable p with
  | none =>
    rw [checkKernelSigs_idle hf] at h
    cases h
    exact ⟨rfl, rfl⟩
  | some i =>
    rw [checkKernelSigs_user hf (hu i (firstDeliverable_some hf).1)] at h
    split at h <;> cases h

/-- A pass over user-handled signals that builds a frame builds that of the
lowest deliverable one. -/
theorem checkKernelSigs_users_some {i : Sig}
    (h : checkKernelSigs arrive (some p) = .ok ⟨some q, some i⟩) :
    firstDeliverable p = some i ∧ q = framed i (saveMask p) := by
  cases hf : firstDeliverable p with
  | none =>
    rw [checkKernelSigs_idle hf] at h
    cases h
  | some j =>
    rw [checkKernelSigs_user hf (hu j (firstDeliverable_some hf).1)] at h
    cases hpush : pushFrame j (saveMask p) with
    | error a => rw [hpush] at h; cases h
    | ok r =>
      rw [hpush] at h
      cases h
      exact ⟨rfl, (pushFrame_ok_iff.mp hpush).2.2⟩

end Users

/-- What a C function finds as its first argument: the word above the return
address. -/
def firstArg (p : Proc) : Except Word (List Byte) := load p.mem (p.tf.esp + 4) 4

theorem firstArg_framed (i : Sig) (p : Proc) : firstArg (framed i p) = .ok (le32 (sigWord i)) := by
  show load (frameMem i p) (frameBase p.tf.esp + 4) 4 = _
  rw [load_ok_iff]
  refine ⟨le32_length _, fun k hk => ?_⟩
  have hd : ahead (frameBase p.tf.esp) (frameBase p.tf.esp + 4 + BitVec.ofNat 32 k) = 4 + k := by
    unfold ahead
    bv_omega
  rw [frameMem, overlay_on (by rw [hd, frameBytes_length]; omega), hd, frameBytes,
    List.getElem?_append_right (by simp), le32_length, Nat.add_sub_cancel_left,
    List.getElem?_append_left (by simpa using hk)]

/-! ## Runs -/

inductive Event where
  /-- A `kill` set a bit that was clear. -/
  | raised (s : Sig)
  /-- A pass built the frame of `s`: the code it enters and the argument there. -/
  | invoked (s : Sig) (eip : Word) (arg : Except Word (List Byte))

def Event.isRaised (s : Sig) : Event → Bool
  | .raised t => t = s
  | .invoked .. => false

def Event.isInvoked (s : Sig) : Event → Bool
  | .raised _ => false
  | .invoked t .. => t = s

def raises (s : Sig) (es : List Event) : Nat := es.countP (Event.isRaised s)

def invocations (s : Sig) (es : List Event) : Nat := es.countP (Event.isInvoked s)

/-- A process and the handlers it is running, innermost first. -/
structure Queue where
  p : Proc
  running : List Sig

/-- One step of the run, with what it records. A `kill` may send any signal that
`M` blocks, and any user-handled one. -/
inductive QueueStep (M : Word) (other : SysBodies) :
    Queue → List Event → Queue → Prop where
  | kill (p : Proc) (h : List Sig) (s : Sig) :
      (has M s = true → UserHandler (p.handlers s)) →
      QueueStep M other ⟨p, h⟩ (if has p.pending s then [] else [.raised s])
        ⟨{ p with pending := p.pending ||| bit s }, h⟩
  | run (p : Proc) (h : List Sig) (tf : Trapframe) (mem : Mem) (sz : Word) :
      QueueStep M other ⟨p, h⟩ [] ⟨{ p with tf, mem, sz }, h⟩
  | pass {p q : Proc} (h : List Sig) (arrive : Sig → Word) :
      checkKernelSigs arrive (some p) = .ok ⟨some q, none⟩ →
      QueueStep M other ⟨p, h⟩ [] ⟨q, h⟩
  | deliver {p q : Proc} (h : List Sig) (arrive : Sig → Word) (i : Sig) :
      checkKernelSigs arrive (some p) = .ok ⟨some q, some i⟩ →
      QueueStep M other ⟨p, h⟩ [.invoked i q.tf.eip (firstArg q)] ⟨q, i :: h⟩
  | sigret {p q : Proc} (h : List Sig) (i : Sig) :
      p.tf.eax = SYS_sigret → trapSyscall other p = .ok (.trapret q) →
      QueueStep M other ⟨p, i :: h⟩ [] ⟨q, h⟩

inductive QueueRun (M : Word) (other : SysBodies) :
    Queue → List Event → Queue → Prop where
  | refl (a : Queue) : QueueRun M other a [] a
  | tail {a b c : Queue} {es fs : List Event} :
      QueueRun M other a es b → QueueStep M other b fs c → QueueRun M other a (es ++ fs) c

/-! ## The invariant -/

/-- Either no handler runs and the mask is `M`, or one does, with the mask zeroed
and `M` in the backup; and the books balance. -/
structure QueueInv (M : Word) (p₀ : Proc) (es : List Event) (a : Queue) : Prop where
  handlers : a.p.handlers = p₀.handlers
  phase : (a.running = [] ∧ a.p.mask = M) ∨
    ∃ i, a.running = [i] ∧ a.p.mask = 0 ∧ a.p.maskBackup = M
  users : ∀ s, has M s = true → has a.p.pending s = true → UserHandler (p₀.handlers s)
  once : ∀ s, has M s = true → invocations s es + (has a.p.pending s).toNat =
    (has p₀.pending s).toNat + raises s es
  blocked : ∀ s, has M s = false → invocations s es = 0
  own : ∀ s eip arg, .invoked s eip arg ∈ es →
    eip = p₀.handlers s ∧ arg = .ok (le32 (sigWord s))

namespace QueueInv

variable {M : Word} {p₀ : Proc} {es : List Event} {a : Queue}

theorem deliverable_user (h : QueueInv M p₀ es a) (s : Sig) (hd : Deliverable a.p s) :
    UserHandler (a.p.handlers s) := by
  rw [h.handlers]
  rcases h.phase with ⟨_, hm⟩ | ⟨i, _, hm, _⟩
  · exact h.users s (hm ▸ hd.2) hd.1
  · exact absurd (.inl hm) hd.guard

theorem running_nil (h : QueueInv M p₀ es a) {s : Sig} (hd : Deliverable a.p s) :
    a.running = [] ∧ a.p.mask = M := by
  rcases h.phase with hm | ⟨i, _, hm, _⟩
  · exact hm
  · exact absurd (.inl hm) hd.guard

theorem kill {p : Proc} {h : List Sig} {s : Sig} (hinv : QueueInv M p₀ es ⟨p, h⟩)
    (hu : has M s = true → UserHandler (p.handlers s)) :
    QueueInv M p₀ (es ++ if has p.pending s then [] else [.raised s])
      ⟨{ p with pending := p.pending ||| bit s }, h⟩ := by
  have hhandlers : p.handlers = p₀.handlers := hinv.handlers
  have hinvoked : ∀ t, invocations t (es ++ if has p.pending s then [] else [.raised s]) =
      invocations t es := by
    intro t
    cases has p.pending s <;> simp [invocations, Event.isInvoked]
  refine ⟨hinv.handlers, hinv.phase, fun t hM ht => ?_, fun t hM => ?_, fun t hM => ?_, ?_⟩
  · rw [has_or, has_bit, Bool.or_eq_true, decide_eq_true_eq] at ht
    rcases ht with ht | ht
    · exact hinv.users t hM ht
    · subst ht
      rw [← hhandlers]
      exact hu hM
  · have honce := hinv.once t hM
    simp only [hinvoked, has_or, has_bit]
    by_cases hts : t = s
    · subst hts
      cases hp : has p.pending t
      · simp_all [raises, Event.isRaised]
        omega
      · simp_all [raises]
    · cases hp : has p.pending s <;> simp_all [raises, Event.isRaised, Ne.symm hts]
  · rw [hinvoked]
    exact hinv.blocked t hM
  · intro t eip arg hmem
    apply hinv.own t eip arg
    cases hp : has p.pending s <;> simpa [hp] using hmem

theorem deliver {arrive : Sig → Word} {p q : Proc} {h : List Sig} {i : Sig}
    (hinv : QueueInv M p₀ es ⟨p, h⟩)
    (hpass : checkKernelSigs arrive (some p) = .ok ⟨some q, some i⟩) :
    QueueInv M p₀ (es ++ [.invoked i q.tf.eip (firstArg q)]) ⟨q, i :: h⟩ := by
  obtain ⟨hf, rfl⟩ := checkKernelSigs_users_some hinv.deliverable_user hpass
  have hd := (firstDeliverable_some hf).1
  obtain ⟨rfl, rfl⟩ := hinv.running_nil hd
  have hhandlers : p.handlers = p₀.handlers := hinv.handlers
  have hpend : ∀ t, has (framed i (saveMask p)).pending t = (has p.pending t ^^ decide (t = i)) := by
    intro t
    exact (has_xor _ _ t).trans (by rw [has_bit]; rfl)
  have hraises : ∀ t e, raises t (es ++ [.invoked i e (firstArg (framed i (saveMask p)))]) =
      raises t es := by
    intro t e
    simp [raises, Event.isRaised]
  refine ⟨hhandlers, .inr ⟨i, rfl, rfl, rfl⟩, fun t hM ht => ?_, fun t hM => ?_, fun t hM => ?_, ?_⟩
  · by_cases hti : t = i
    · rw [← hhandlers, hti]
      exact hinv.deliverable_user i hd
    · rw [hpend, decide_eq_false hti, Bool.xor_false] at ht
      exact hinv.users t hM ht
  · have honce := hinv.once t hM
    have hi : has p.pending i = true := hd.1
    rw [hraises, hpend]
    by_cases hti : t = i
    · subst hti
      simp_all [invocations, Event.isInvoked]
    · simp_all [invocations, Event.isInvoked, Ne.symm hti]
  · have hti : t ≠ i := by
      intro hti
      rw [hti, hd.2] at hM
      cases hM
    simpa [invocations, Event.isInvoked, Ne.symm hti] using hinv.blocked t hM
  · intro t eip arg hmem
    rw [mem_append, mem_singleton] at hmem
    rcases hmem with hmem | hmem
    · exact hinv.own t eip arg hmem
    · cases hmem
      rw [← hhandlers]
      exact ⟨rfl, firstArg_framed i (saveMask p)⟩

theorem step {a b : Queue} {fs : List Event} (hstep : QueueStep M other a fs b)
    (hinv : QueueInv M p₀ es a) : QueueInv M p₀ (es ++ fs) b := by
  cases hstep with
  | kill p h s hu => exact hinv.kill hu
  | run p h tf mem sz =>
    rw [append_nil]
    exact ⟨hinv.handlers, hinv.phase, hinv.users, hinv.once, hinv.blocked, hinv.own⟩
  | @pass p q h arrive hpass =>
    obtain ⟨_, rfl⟩ := checkKernelSigs_users_none hinv.deliverable_user hpass
    rw [append_nil]
    exact hinv
  | deliver h arrive i hpass => exact hinv.deliver hpass
  | @sigret p q h i hsys hret =>
    obtain ⟨t, rfl⟩ := trapSyscall_sigret_cases hsys hret
    rw [append_nil]
    rcases hinv.phase with ⟨hnil, _⟩ | ⟨j, hone, _, hM⟩
    · cases hnil
    · cases hone
      exact ⟨hinv.handlers, .inl ⟨rfl, hM⟩, hinv.users, hinv.once, hinv.blocked, hinv.own⟩

theorem run {a : Queue} (hrun : QueueRun M other ⟨p₀, []⟩ es a)
    (hmask : p₀.mask = M)
    (hu : ∀ s, Deliverable p₀ s → UserHandler (p₀.handlers s)) : QueueInv M p₀ es a := by
  induction hrun with
  | refl =>
    refine ⟨rfl, .inl ⟨rfl, hmask⟩, fun s hM hs => hu s ⟨hs, hmask ▸ hM⟩, fun s _ => ?_,
      fun s _ => rfl, fun s eip arg hmem => nomatch hmem⟩
    simp [invocations, raises]
  | tail _ hstep ih => exact ih.step hstep

end QueueInv

/-! ## Exactly once -/

theorem countP_eq_sum {f : Event → Bool} {g : Sig → Event → Bool}
    (hfg : ∀ e, (f e).toNat = ∑ s, (g s e).toNat) (es : List Event) :
    es.countP f = ∑ s, es.countP (g s) := by
  induction es with
  | nil => simp
  | cons e es ih =>
    have hcons : ∀ h : Event → Bool, (e :: es).countP h = es.countP h + (h e).toNat := by
      intro h
      rw [countP_cons]
      cases h e <;> rfl
    simp only [hcons, Finset.sum_add_distrib, ih, hfg]

def Event.raise : Event → Bool
  | .raised _ => true
  | .invoked .. => false

def Event.invoke : Event → Bool
  | .raised _ => false
  | .invoked .. => true

/-- What holds in every state of a run that starts in `p₀` with the mask `M`,
after the events `es`. -/
structure ServedOnce (M : Word) (p₀ : Proc) (other : SysBodies)
    (es : List Event) (a : Queue) : Prop where
  /-- A signal the mask lets through has been handled once for each time its bit
  became set, except for the last time if the bit still is. -/
  once : ∀ s, has M s = true → invocations s es + (has a.p.pending s).toNat =
    (has p₀.pending s).toNat + raises s es
  /-- A signal the mask blocks is not handled. -/
  blocked : ∀ s, has M s = false → invocations s es = 0
  /-- It is the signal's own handler that is entered, with its number. -/
  own : ∀ s eip arg, .invoked s eip arg ∈ es →
    eip = p₀.handlers s ∧ arg = .ok (le32 (sigWord s))
  /-- A handler is started only when none is running, and for the lowest signal. -/
  lowest : ∀ arrive q i, checkKernelSigs arrive (some a.p) = .ok ⟨some q, some i⟩ →
    a.running = [] ∧ Deliverable a.p i ∧ ∀ j < i, ¬Deliverable a.p j
  single : a.running.length ≤ 1
  /-- With no handler running, a pass delivers whatever is left to deliver, -/
  progress : a.running = [] → ∀ s, Deliverable a.p s →
    Mapped a.p.mem a.p.trapBackup trapframeSize → Mapped a.p.mem (frameBase a.p.tf.esp) 15 →
    ∀ arrive, ∃ q i, checkKernelSigs arrive (some a.p) = .ok ⟨some q, some i⟩
  /-- a handler that returns gives the mask back, -/
  returns : a.running ≠ [] → a.p.tf.eax = SYS_sigret → a.p.killed = false →
    Mapped a.p.mem a.p.trapBackup trapframeSize →
    ∃ q, trapSyscall other a.p = .ok (.trapret q) ∧ q.mask = M
  /-- so that the handlers run out, -/
  bounded : es.countP Event.invoke ≤ 32 + es.countP Event.raise
  /-- and when a pass finds none to start, the bits are clear and the mask is `M`. -/
  ends : a.running = [] → ∀ arrive q, checkKernelSigs arrive (some a.p) = .ok ⟨some q, none⟩ →
    q.mask = M ∧ ∀ s, has M s = true → has q.pending s = false

theorem QueueInv.bounded {M : Word} {p₀ : Proc} {es : List Event} {a : Queue}
    (h : QueueInv M p₀ es a) : es.countP Event.invoke ≤ 32 + es.countP Event.raise := by
  have heach : ∀ s, invocations s es ≤ 1 + raises s es := by
    intro s
    cases hM : has M s with
    | true =>
      have honce := h.once s hM
      have hbit := Bool.toNat_le (has p₀.pending s)
      omega
    | false =>
      rw [h.blocked s hM]
      omega
  have hone : ∀ t : Sig, ∑ s : Sig, (decide (t = s)).toNat = 1 := by
    intro t
    rw [Finset.sum_eq_single_of_mem t (Finset.mem_univ t)]
    · simp
    · intro s _ hs
      simp [Ne.symm hs]
  have hinvoke : es.countP Event.invoke = ∑ s, invocations s es := by
    refine countP_eq_sum (fun e => ?_) es
    cases e <;> simp [Event.invoke, Event.isInvoked, hone]
  have hraise : es.countP Event.raise = ∑ s, raises s es := by
    refine countP_eq_sum (fun e => ?_) es
    cases e <;> simp [Event.raise, Event.isRaised, hone]
  calc es.countP Event.invoke = ∑ s, invocations s es := hinvoke
    _ ≤ ∑ s : Sig, (1 + raises s es) := Finset.sum_le_sum fun s _ => heach s
    _ = 32 + es.countP Event.raise := by
      rw [Finset.sum_add_distrib, hraise]
      rfl

/-- **Every queued user-handled signal is delivered exactly once**, lowest number
first, one handler at a time, and the run ends with the mask it began with. -/
theorem signals_delivered_once (M : Word) (other : SysBodies)
    (p₀ : Proc) (es : List Event) (a : Queue) (hmask : p₀.mask = M)
    (hu : ∀ s, Deliverable p₀ s → UserHandler (p₀.handlers s))
    (hrun : QueueRun M other ⟨p₀, []⟩ es a) : ServedOnce M p₀ other es a := by
  have hinv := QueueInv.run hrun hmask hu
  refine ⟨hinv.once, hinv.blocked, hinv.own, fun arrive q i hpass => ?_, ?_,
    fun _ s hs hcopy hframe arrive => ?_, fun hne hsys hk hcopy => ?_, hinv.bounded,
    fun hnil arrive q hpass => ?_⟩
  · obtain ⟨hf, _⟩ := checkKernelSigs_users_some hinv.deliverable_user hpass
    have hfirst := firstDeliverable_some hf
    exact ⟨(hinv.running_nil hfirst.1).1, hfirst⟩
  · rcases hinv.phase with ⟨hnil, _⟩ | ⟨i, hone, _⟩
    · simp [hnil]
    · simp [hone]
  · obtain ⟨i, hf⟩ := exists_firstDeliverable hs
    have hd := (firstDeliverable_some hf).1
    exact ⟨_, i, checkKernelSigs_deliver hf (hinv.deliverable_user i hd) hcopy hframe⟩
  · obtain ⟨bs, hbs⟩ := exists_load hcopy
    rcases hinv.phase with ⟨hnil, _⟩ | ⟨i, _, _, hM⟩
    · exact absurd hnil hne
    · exact ⟨_, trapSyscall_sigret_bytes other hk hsys hbs, hM⟩
  · obtain ⟨hf, rfl⟩ := checkKernelSigs_users_none hinv.deliverable_user hpass
    rcases hinv.phase with ⟨_, hm⟩ | ⟨i, hone, _⟩
    · refine ⟨hm, fun s hs => ?_⟩
      have hnot := firstDeliverable_none hf s
      rw [← hm] at hs
      exact Bool.eq_false_iff.mpr fun hp => hnot ⟨hp, hs⟩
    · rw [hnil] at hone
      cases hone

/-- The process of `onStack` with the signals `w` pending. -/
def queued (w : Word) : Proc := { onStack 0x2000 with pending := w, maskBackup := -1 }

/-- A handler runs, and returns to where the process was interrupted. -/
theorem queued_round {a : Queue} {es : List Event} {w : Word} (i : Sig)
    (hf : (finRange 32).find? (fun s => decide (Deliverable (queued w) s)) = some i)
    (h : QueueRun (-1) noCalls a es ⟨queued w, []⟩) :
    ∃ eip arg, QueueRun (-1) noCalls a (es ++ [.invoked i eip arg]) ⟨queued (w ^^^ bit i), []⟩ := by
  have hdeliver : checkKernelSigs (fun _ => 0) (some (queued w)) = .ok ⟨some (framed i (saveMask (queued w))),
      some i⟩ :=
    checkKernelSigs_deliver hf (show UserHandler 0x100 by decide)
      (show ∀ k < trapframeSize, ((onStack 0).mem (0 + BitVec.ofNat 32 k)).isSome by decide)
      (show ∀ k < 15, ((onStack 0).mem (frameBase 0x2000 + BitVec.ofNat 32 k)).isSome by decide)
  have hload := load_frameMem (i := i) (p := saveMask (queued w))
    (show ∀ k < trapframeSize, 15 ≤ ahead (frameBase 0x2000) (0 + BitVec.ofNat 32 k) by decide)
  have hret := trapSyscall_sigret noCalls (t := (queued w).tf)
    (p := setEax (framed i (saveMask (queued w))) SYS_sigret) rfl rfl hload
  have hrun := (((h.tail (.deliver [] _ i hdeliver)).tail (.run _ _ _ _ _)).tail (.sigret [] i rfl hret)).tail
    (.run _ _ (queued w).tf (queued w).mem (queued w).sz)
  simp only [append_nil] at hrun
  exact ⟨_, _, hrun⟩

/-- Signals 3 and 5 are pending, and 3 is sent again after its handler has returned. -/
theorem signals_delivered_once_two : ∃ es q, invocations 3 es = 2 ∧ invocations 5 es = 1 ∧
    ServedOnce (-1) (queued (bit 3 ||| bit 5)) noCalls es ⟨q, []⟩ := by
  obtain ⟨eip₁, arg₁, h₁⟩ := queued_round 3 (by decide) (.refl ⟨queued (bit 3 ||| bit 5), []⟩)
  have hkill := h₁.tail (.kill _ [] 3 fun _ => show UserHandler 0x100 by decide)
  obtain ⟨eip₂, arg₂, h₂⟩ := queued_round 3 (by decide) hkill
  obtain ⟨eip₃, arg₃, h₃⟩ := queued_round 5 (by decide) h₂
  exact ⟨_, _, rfl, rfl, signals_delivered_once (-1) noCalls _ _ _ rfl (fun s _ => show UserHandler 0x100 by decide) h₃⟩

end Xv6
