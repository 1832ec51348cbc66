import Xv6.Signal

/- What one pass of `check_kernel_sigs` does to the process.

   The default actions and the two switches only keep books: they may change
   `pending`, `killed` and `state`, and nothing the user program sees
   (`Bookkeeping`). A loop iteration that does not build a frame saves the mask,
   zeroes it and restores it, so the loop as a whole keeps the mask
   (`sigLoop_finished`). The iteration that builds a frame leaves the loop with
   the mask zeroed and the mask at entry in `mask_backup` (`sigLoop_frame`), and
   the frame itself is two stretches of memory: the saved trap frame and the
   fifteen bytes below the interrupted stack pointer (`pushFrame_ok_iff`). -/
namespace Xv6
open List Bits ByteMem

variable {arrive : Sig → Word} {i : Sig} {p q : Proc}

/-! ## The pending and mask words as sets of signals -/

theorem hasSignal_eq (p : Proc) (s : Sig) : hasSignal p s = has p.pending s := by
  rw [Bool.eq_iff_iff, hasSignal, decide_eq_true_eq]
  exact zero_lt_and_bit p.pending s

theorem isBlocked_eq (p : Proc) (s : Sig) : isBlocked (some p) s = !has p.mask s := by
  simp only [isBlocked, zero_lt_and_bit]
  split
  · next h => rw [h]; rfl
  · next h => rw [Bool.eq_false_iff.mpr h]; rfl

/-- Signal `s` is pending in `p` and let through by its mask. -/
def Deliverable (p : Proc) (s : Sig) : Prop := has p.pending s = true ∧ has p.mask s = true

instance (p : Proc) (s : Sig) : Decidable (Deliverable p s) := by
  unfold Deliverable; infer_instance

theorem Deliverable.guard {s : Sig} (h : Deliverable p s) :
    ¬(p.mask = 0 ∨ p.pending = 0) := by
  intro hz
  rcases hz with hz | hz
  · have hbit := h.2
    rw [eq_zero_iff_has.mp hz] at hbit
    cases hbit
  · have hbit := h.1
    rw [eq_zero_iff_has.mp hz] at hbit
    cases hbit

theorem guard_eq_false_iff (p : Proc) (s : Sig) :
    (!(hasSignal p s && !isBlocked (some p) s)) = false ↔ Deliverable p s := by
  rw [hasSignal_eq, isBlocked_eq]
  simp [Deliverable]

theorem guard_eq_true_iff (p : Proc) (s : Sig) :
    (!(hasSignal p s && !isBlocked (some p) s)) = true ↔ ¬Deliverable p s := by
  rw [← guard_eq_false_iff, Bool.not_eq_false]

/-! ## The actions keep books only -/

/-- Only `pending`, `killed` and `state` may differ. -/
structure Bookkeeping (p q : Proc) : Prop where
  tf : q.tf = p.tf
  mem : q.mem = p.mem
  sz : q.sz = p.sz
  pid : q.pid = p.pid
  mask : q.mask = p.mask
  maskBackup : q.maskBackup = p.maskBackup
  handlers : q.handlers = p.handlers
  trapBackup : q.trapBackup = p.trapBackup

namespace Bookkeeping

theorem refl (p : Proc) : Bookkeeping p p := ⟨rfl, rfl, rfl, rfl, rfl, rfl, rfl, rfl⟩

theorem trans {r : Proc} (h₁ : Bookkeeping p q) (h₂ : Bookkeeping q r) : Bookkeeping p r where
  tf := h₂.tf.trans h₁.tf
  mem := h₂.mem.trans h₁.mem
  sz := h₂.sz.trans h₁.sz
  pid := h₂.pid.trans h₁.pid
  mask := h₂.mask.trans h₁.mask
  maskBackup := h₂.maskBackup.trans h₁.maskBackup
  handlers := h₂.handlers.trans h₁.handlers
  trapBackup := h₂.trapBackup.trans h₁.trapBackup

theorem cancelSignal (p : Proc) (s : Sig) : Bookkeeping p (cancelSignal p s) :=
  ⟨rfl, rfl, rfl, rfl, rfl, rfl, rfl, rfl⟩

theorem handleSigkill (p : Proc) : Bookkeeping p (handleSigkill p) :=
  ⟨rfl, rfl, rfl, rfl, rfl, rfl, rfl, rfl⟩

theorem handleSigcont (p : Proc) : Bookkeeping p (handleSigcont p) := by
  unfold Xv6.handleSigcont
  split
  · exact (cancelSignal p _).trans (cancelSignal _ _)
  · exact cancelSignal p _

theorem handleSigstop {arrive : Word} (h : handleSigstop arrive p = .ok q) :
    Bookkeeping p q := by
  unfold Xv6.handleSigstop at h
  split at h
  · cases h; exact refl p
  · dsimp only at h
    split at h
    · cases h; exact ⟨rfl, rfl, rfl, rfl, rfl, rfl, rfl, rfl⟩
    · cases h

theorem ite {c : Prop} [Decidable c] {r : Proc} (hq : Bookkeeping p q)
    (hr : Bookkeeping p r) : Bookkeeping p (if c then q else r) := by
  split
  · exact hq
  · exact hr

theorem defaultSwitch {arrive : Word}
    (h : defaultSwitch arrive i p = .ok q) : Bookkeeping p q := by
  unfold Xv6.defaultSwitch at h
  dsimp only at h
  split at h
  · cases h; exact ite (handleSigkill p) (refl p)
  · split at h
    · cases h; exact ite (handleSigcont p) (refl p)
    · split at h
      · split at h
        · exact handleSigstop h
        · cases h; exact refl p
      · cases h; exact ite (handleSigkill p) (refl p)

end Bookkeeping

/-- The handler switch builds a frame exactly for a user handler, and has done
nothing by then. -/
theorem handlerSwitch_frame {arrive : Word}
    (h : handlerSwitch arrive i p = .ok (.frame q)) : UserHandler (p.handlers i) ∧ q = p := by
  unfold handlerSwitch at h
  dsimp only at h
  split at h
  · cases h
  · split at h
    · split at h
      · cases h
      · split at h
        · cases h
        · split at h
          · cases hs : handleSigstop arrive p <;> rw [hs] at h <;> cases h
          · cases h
            exact ⟨⟨by assumption, by assumption, by assumption, by assumption,
              by assumption⟩, rfl⟩
    · cases h

theorem handlerSwitch_next {arrive : Word}
    (h : handlerSwitch arrive i p = .ok (.next q)) : Bookkeeping p q := by
  unfold handlerSwitch at h
  dsimp only at h
  split at h
  · cases h; exact .cancelSignal p i
  · split at h
    · split at h
      · cases h; exact .handleSigkill p
      · split at h
        · cases h; exact .handleSigcont p
        · split at h
          · cases hs : handleSigstop arrive p with
            | error e => rw [hs] at h; cases h
            | ok r => rw [hs] at h; cases h; exact .handleSigstop hs
          · cases h
    · cases h; exact .refl p

theorem handlerSwitch_user {arrive : Word}
    (h : UserHandler (p.handlers i)) : handlerSwitch arrive i p = .ok (.frame p) := by
  obtain ⟨hdfl, hign, hkill, hcont, hstop⟩ := h
  simp [handlerSwitch, hdfl, hign, hkill, hcont, hstop]

theorem defaultSwitch_user {arrive : Word}
    (h : UserHandler (p.handlers i)) : defaultSwitch arrive i p = .ok p := by
  obtain ⟨hdfl, hign, hkill, hcont, hstop⟩ := h
  simp [defaultSwitch, hdfl, hkill, hcont, hstop]

/-! ## The loop -/

/-- What the user program sees of its process: everything but the signal
books. -/
structure SameUser (p q : Proc) : Prop where
  tf : q.tf = p.tf
  mem : q.mem = p.mem
  sz : q.sz = p.sz
  pid : q.pid = p.pid
  handlers : q.handlers = p.handlers
  trapBackup : q.trapBackup = p.trapBackup

theorem SameUser.refl (p : Proc) : SameUser p p := ⟨rfl, rfl, rfl, rfl, rfl, rfl⟩

theorem SameUser.trans {r : Proc} (h₁ : SameUser p q) (h₂ : SameUser q r) : SameUser p r :=
  ⟨h₂.tf.trans h₁.tf, h₂.mem.trans h₁.mem, h₂.sz.trans h₁.sz, h₂.pid.trans h₁.pid,
    h₂.handlers.trans h₁.handlers, h₂.trapBackup.trans h₁.trapBackup⟩

/-- The body of the loop for a signal it handles: books are kept on the process
with its mask saved and zeroed. -/
theorem sigLoop_cons_cases {rest : List Sig}
    {out : Scan} (h : sigLoop arrive (i :: rest) p = .ok out) :
    (¬Deliverable p i ∧ sigLoop arrive rest p = .ok out) ∨
    (Deliverable p i ∧ ∃ q, Bookkeeping (saveMask p) q ∧
      (out = .frame i q ∧ UserHandler (p.handlers i) ∨
        sigLoop arrive rest (restoreMask q) = .ok out)) := by
  unfold sigLoop at h
  split at h
  · next hg => exact .inl ⟨(guard_eq_true_iff p i).mp hg, h⟩
  · next hg =>
    have hd := (guard_eq_false_iff p i).mp (Bool.eq_false_iff.mpr hg)
    refine .inr ⟨hd, ?_⟩
    split at h
    · cases h
    · next q hq =>
      have hbk := Bookkeeping.defaultSwitch hq
      split at h
      · cases h
      · next r hr =>
        obtain ⟨hu, rfl⟩ := handlerSwitch_frame hr
        cases h
        exact ⟨r, hbk, .inl ⟨rfl, by rwa [hbk.handlers] at hu⟩⟩
      · next r hr => exact ⟨r, hbk.trans (handlerSwitch_next hr), .inr h⟩

theorem sigLoop_finished {is : List Sig}
    (h : sigLoop arrive is p = .ok (.finished q)) : SameUser p q ∧ q.mask = p.mask ∧
      (q.maskBackup = p.maskBackup ∨ q.maskBackup = p.mask) := by
  induction is generalizing p with
  | nil => cases h; exact ⟨.refl _, rfl, .inl rfl⟩
  | cons i rest ih =>
    rcases sigLoop_cons_cases h with ⟨_, h⟩ | ⟨_, r, hb, ⟨h, _⟩ | h⟩
    · exact ih h
    · cases h
    · obtain ⟨hs, hm, hmb⟩ := ih h
      have hmask : r.maskBackup = p.mask := hb.maskBackup
      refine ⟨.trans (q := restoreMask r)
        ⟨hb.tf, hb.mem, hb.sz, hb.pid, hb.handlers, hb.trapBackup⟩ hs, ?_, .inr ?_⟩
      · rw [hm]; exact hmask
      · rcases hmb with hmb | hmb <;> rw [hmb] <;> exact hmask

theorem sigLoop_frame {is : List Sig}
    (h : sigLoop arrive is p = .ok (.frame i q)) : SameUser p q ∧ q.mask = 0 ∧
      q.maskBackup = p.mask ∧ i ∈ is ∧ has p.mask i = true ∧ UserHandler (p.handlers i) := by
  induction is generalizing p with
  | nil => cases h
  | cons j rest ih =>
    rcases sigLoop_cons_cases h with ⟨_, h⟩ | ⟨hd, r, hb, ⟨h, hu⟩ | h⟩
    · obtain ⟨hs, hm, hmb, hi, hrest⟩ := ih h
      exact ⟨hs, hm, hmb, mem_cons_of_mem j hi, hrest⟩
    · cases h
      exact ⟨⟨hb.tf, hb.mem, hb.sz, hb.pid, hb.handlers, hb.trapBackup⟩, hb.mask, hb.maskBackup,
        mem_cons_self, hd.2, hu⟩
    · obtain ⟨hs, hm, hmb, hi, hmask, hu⟩ := ih h
      have hr : r.maskBackup = p.mask := hb.maskBackup
      have hh : r.handlers = p.handlers := hb.handlers
      refine ⟨.trans (q := restoreMask r)
        ⟨hb.tf, hb.mem, hb.sz, hb.pid, hb.handlers, hb.trapBackup⟩ hs, hm,
        hmb.trans hr, mem_cons_of_mem j hi, ?_, ?_⟩
      · rw [← hr]; exact hmask
      · rw [← hh]; exact hu

theorem sigLoop_skip {is : List Sig}
    (h : ∀ s ∈ is, ¬Deliverable p s) : sigLoop arrive is p = .ok (.finished p) := by
  induction is with
  | nil => rfl
  | cons i rest ih =>
    have hi := (guard_eq_true_iff p i).mpr (h i mem_cons_self)
    rw [sigLoop, if_pos hi]
    exact ih fun s hs => h s (mem_cons_of_mem i hs)

/-- If the first deliverable signal has a user handler, the loop leaves for the
frame of that signal at once. -/
theorem sigLoop_first {is : List Sig}
    (hf : is.find? (fun s => decide (Deliverable p s)) = some i)
    (hu : UserHandler (p.handlers i)) :
    sigLoop arrive is p = .ok (.frame i (saveMask p)) := by
  induction is with
  | nil => cases hf
  | cons j rest ih =>
    by_cases hj : Deliverable p j
    · obtain rfl : j = i := by simpa [List.find?_cons, hj] using hf
      rw [sigLoop, (guard_eq_false_iff p j).mpr hj, if_neg Bool.false_ne_true,
        defaultSwitch_user (p := saveMask p) hu]
      dsimp only
      rw [handlerSwitch_user (p := saveMask p) hu]
    · rw [sigLoop, if_pos ((guard_eq_true_iff p j).mpr hj)]
      exact ih (by simpa [List.find?_cons, hj] using hf)

/-! ## The frame -/

/-- The bytes below the interrupted stack pointer, lowest first: the return
address, the signal number, the injected code. -/
def frameBytes (i : Sig) (esp : Word) : List Byte :=
  le32 (esp - sigretSize) ++ (le32 (sigWord i) ++ callSigretSyscall)

/-- The lowest address of the frame, `esp - sigret_size - 8`. -/
def frameBase (esp : Word) : Word := esp - sigretSize - 4 - 4

@[simp] theorem frameBytes_length (i : Sig) (esp : Word) : (frameBytes i esp).length = 15 := rfl

theorem storeAll_pushes_ok_iff {m m' : Mem} {esp : Word} :
    storeAll m (pushes i esp) = .ok m' ↔
      Mapped m (frameBase esp) 15 ∧ m' = overlay m (frameBase esp) (frameBytes i esp) := by
  have hstub : frameBase esp + BitVec.ofNat 32 8 = esp - sigretSize := by
    simp only [frameBase, sigretSize]; bv_omega
  have hnum : frameBase esp + BitVec.ofNat 32 4 = esp - sigretSize - 4 := by
    simp only [frameBase, sigretSize]; bv_omega
  have hsplit : Mapped m (frameBase esp) 15 ↔ Mapped m (frameBase esp) 4 ∧
      Mapped m (esp - sigretSize - 4) 4 ∧ Mapped m (esp - sigretSize) 7 := by
    rw [show (15 : Nat) = 4 + 11 from rfl, mapped_append, hnum, show (11 : Nat) = 4 + 7 from rfl,
      mapped_append]
    rw [show esp - sigretSize - 4 + BitVec.ofNat 32 4 = esp - sigretSize by bv_omega]
  have hover : overlay (overlay (overlay m (esp - sigretSize) callSigretSyscall)
      (esp - sigretSize - 4) (le32 (sigWord i))) (frameBase esp) (le32 (esp - sigretSize)) =
      overlay m (frameBase esp) (frameBytes i esp) := by
    rw [overlay_append (c := esp - sigretSize - 4) (by rw [le32_length]; bv_omega),
      overlay_append (by rw [le32_length]; exact hnum)]
    rfl
  have hword : ∀ (m m' : Mem) (a w : Word), store m a (le32 w) = .ok m' ↔
      Mapped m a 4 ∧ m' = overlay m a (le32 w) := fun _ _ _ w => store_ok_iff (by simp)
  have hcode : callSigretSyscall.length ≤ 2 ^ 32 := by decide
  simp only [storeAll, pushes, bind_ok_iff, hword, store_ok_iff hcode]
  rw [hsplit, ← hover]
  constructor
  · rintro ⟨_, ⟨h1, rfl⟩, _, ⟨h2, rfl⟩, _, ⟨h3, rfl⟩, h4⟩
    rw [mapped_overlay h1] at h2
    rw [mapped_overlay (by rwa [mapped_overlay h1]), mapped_overlay h1] at h3
    cases h4
    exact ⟨⟨h3, h2, h1⟩, rfl⟩
  · rintro ⟨⟨h3, h2, h1⟩, rfl⟩
    have h1' : Mapped m (esp - sigretSize) callSigretSyscall.length := h1
    have h2' := (mapped_overlay h1').mpr h2
    refine ⟨_, ⟨h1, rfl⟩, _, ⟨h2', rfl⟩, _, ⟨?_, rfl⟩, rfl⟩
    rw [mapped_overlay h2', mapped_overlay h1]
    exact h3

/-- The memory a delivered signal leaves behind. -/
def frameMem (i : Sig) (p : Proc) : Mem :=
  overlay (overlay p.mem p.trapBackup p.tf.bytes) (frameBase p.tf.esp) (frameBytes i p.tf.esp)

/-- The process at the entry of the handler of `i`, its bit not yet cleared. -/
def entered (i : Sig) (p : Proc) : Proc :=
  { p with
    mem := frameMem i p
    tf := { p.tf with esp := frameBase p.tf.esp, eip := p.handlers i } }

/-- The process a delivered signal leaves behind. -/
def framed (i : Sig) (p : Proc) : Proc := cancelSignal (entered i p) i

theorem buildFrame_ok_iff : buildFrame i p = .ok q ↔
    Mapped p.mem p.trapBackup trapframeSize ∧ Mapped p.mem (frameBase p.tf.esp) 15 ∧
      q = entered i p := by
  have hlen : p.tf.bytes.length ≤ 2 ^ 32 := by rw [Trapframe.bytes_length]; decide
  simp only [buildFrame, bind_ok_iff, store_ok_iff hlen, storeAll_pushes_ok_iff]
  rw [← Trapframe.bytes_length p.tf]
  constructor
  · rintro ⟨_, ⟨h1, rfl⟩, _, ⟨h2, rfl⟩, h⟩
    rw [mapped_overlay h1] at h2
    cases h
    exact ⟨h1, h2, rfl⟩
  · rintro ⟨h1, h2, rfl⟩
    exact ⟨_, ⟨h1, rfl⟩, _, ⟨(mapped_overlay h1).mpr h2, rfl⟩, rfl⟩

theorem pushFrame_ok_iff : pushFrame i p = .ok q ↔
    Mapped p.mem p.trapBackup trapframeSize ∧ Mapped p.mem (frameBase p.tf.esp) 15 ∧
      q = framed i p := by
  simp only [pushFrame, bind_ok_iff, buildFrame_ok_iff]
  constructor
  · intro ⟨_, ⟨hcopy, hframe, hr⟩, hq⟩
    subst hr
    cases hq
    exact ⟨hcopy, hframe, rfl⟩
  · intro ⟨hcopy, hframe, hq⟩
    exact ⟨_, ⟨hcopy, hframe, rfl⟩, hq ▸ rfl⟩

theorem load_frameMem (h : ∀ k < trapframeSize,
    15 ≤ ahead (frameBase p.tf.esp) (p.trapBackup + BitVec.ofNat 32 k)) :
    load (frameMem i p) p.trapBackup trapframeSize = .ok p.tf.bytes := by
  have hlen : p.tf.bytes.length ≤ 2 ^ 32 := by rw [Trapframe.bytes_length]; decide
  have hcopy := load_overlay p.mem p.trapBackup hlen
  rw [Trapframe.bytes_length] at hcopy
  exact load_congr (fun k hk => overlay_off (h k hk)) hcopy

/-! ## The pass -/

theorem checkKernelSigs_none
    (h : checkKernelSigs arrive (some p) = .ok ⟨some q, none⟩) : SameUser p q ∧
      q.mask = p.mask ∧ (q.maskBackup = p.maskBackup ∨ q.maskBackup = p.mask) := by
  simp only [checkKernelSigs] at h
  split at h
  · cases h; exact ⟨.refl p, rfl, .inl rfl⟩
  · split at h
    · cases h
    · next r hr => cases h; exact sigLoop_finished hr
    · split at h <;> cases h

/-- A pass that builds a frame builds it on the process as it was at entry, up
to the books, with the mask at entry saved and the mask zeroed. -/
theorem checkKernelSigs_frame
    (h : checkKernelSigs arrive (some p) = .ok ⟨some q, some i⟩) : ∃ r,
      sigLoop arrive (finRange 32) p = .ok (.frame i r) ∧ pushFrame i r = .ok q := by
  simp only [checkKernelSigs] at h
  split at h
  · cases h
  · split at h
    · cases h
    · cases h
    · next j r hr =>
      split at h
      · cases h
      · next r' hr' => cases h; exact ⟨r, hr, hr'⟩

/-- If the first deliverable signal has a user handler and the memory is there,
the pass delivers it. -/
theorem checkKernelSigs_deliver
    (hf : (finRange 32).find? (fun s => decide (Deliverable p s)) = some i)
    (hu : UserHandler (p.handlers i)) (hcopy : Mapped p.mem p.trapBackup trapframeSize)
    (hframe : Mapped p.mem (frameBase p.tf.esp) 15) :
    checkKernelSigs arrive (some p) =
      .ok ⟨some (framed i (saveMask p)), some i⟩ := by
  have hi : Deliverable p i := by simpa using List.find?_some hf
  have hpush : pushFrame i (saveMask p) = .ok (framed i (saveMask p)) :=
    pushFrame_ok_iff.mpr ⟨hcopy, hframe, rfl⟩
  simp only [checkKernelSigs, if_neg hi.guard, sigLoop_first hf hu, hpush]

theorem checkKernelSigs_masked (h : p.mask = 0) :
    checkKernelSigs arrive (some p) = .ok ⟨some p, none⟩ := by
  simp [checkKernelSigs, h]

end Xv6
