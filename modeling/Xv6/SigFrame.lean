import Xv6.SigPass

/- Where delivery writes.

   Building a user handler frame stores to two places: the trap frame goes to
   the 76 bytes from `trap_backup` on, and the injected code, the signal number
   and the return address go to the 15 bytes below the interrupted stack
   pointer. The stores run in kernel mode and nothing checks either address.

   1. `frameStores_inside_iff`: the three pushes stay inside the process, that
      is in `[0, sz)`, exactly when `15 <= esp` and `esp <= sz`. Every other
      `esp` is used all the same.
   2. `deliver_footprint_iff`: the bytes outside the pushed frame survive a
      delivery exactly when the memory at `trap_backup` already held the trap
      frame. -/
namespace Xv6
open List Bits ByteMem

variable {arrive : Sig → Word}

/-! ## The addresses of the pushes -/

/-- The signal a pass builds a user frame for, if it comes to that. -/
def framedSignal (arrive : Sig → Word) (p : Proc) : Option Sig :=
  if p.mask = 0 ∨ p.pending = 0 then none
  else
    match sigLoop arrive (finRange 32) p with
    | .ok (.frame i _) => some i
    | _ => none

/-- The addresses the pass stores the injected code, the signal number and the
return address to. -/
def frameStores (arrive : Sig → Word) (p : Proc) : List Word :=
  match framedSignal arrive p with
  | none => []
  | some i => (pushes i p.tf.esp).flatMap fun push => addrs push.1 push.2.length

theorem mem_pushes_iff {i : Sig} {esp x : Word} :
    x ∈ (pushes i esp).flatMap (fun push => addrs push.1 push.2.length) ↔
      ahead (frameBase esp) x < 15 := by
  have hword : ∀ a w : Word, x ∈ addrs a (le32 w).length ↔ ahead a x < 4 := by
    intro a w
    exact mem_addrs (by simp)
  have hcode : x ∈ addrs (esp - sigretSize) callSigretSyscall.length ↔
      ahead (esp - sigretSize) x < 7 := mem_addrs (by decide)
  simp only [pushes, flatMap_cons, flatMap_nil, append_nil, mem_append, hword,
    hcode]
  simp only [frameBase, sigretSize, ahead]
  bv_omega

/-- **The pushes stay inside the process exactly when its stack pointer does**:
nothing in the pass looks at `esp` before it stores. -/
theorem frameStores_inside_iff (arrive : Sig → Word) (p : Proc) (i : Sig)
    (h : framedSignal arrive p = some i) :
    (∀ a ∈ frameStores arrive p, a < p.sz) ↔ 15 ≤ p.tf.esp ∧ p.tf.esp ≤ p.sz := by
  simp only [frameStores, h, mem_pushes_iff]
  constructor
  · intro hin
    -- the last byte of the frame bounds `esp` above, the last byte of memory below
    have htop := hin (p.tf.esp - 1)
    have hwrap := hin (-1)
    simp only [frameBase, sigretSize, ahead] at htop hwrap
    constructor
    · bv_omega
    · bv_omega
  · rintro ⟨hlow, hhigh⟩ a ha
    simp only [frameBase, sigretSize, ahead] at ha
    bv_omega

theorem framedSignal_first {p : Proc} {i : Sig}
    (hf : (finRange 32).find? (fun s => decide (Deliverable p s)) = some i)
    (hu : UserHandler (p.handlers i)) : framedSignal arrive p = some i := by
  have hi : Deliverable p i := by simpa using List.find?_some hf
  simp only [framedSignal, if_neg hi.guard, sigLoop_first hf hu]

/-- Two mapped pages, signal 3 pending with a user handler at 0x100, and the
stack pointer at `esp`. -/
def onStack (esp : Word) : Proc where
  sz := 0x2000
  mem := fun a => if a < 0x2000 then some 0 else none
  state := .RUNNING
  pid := 2
  tf := { userinitFrame with esp }
  killed := false
  pending := bit 3
  mask := -1
  maskBackup := 0
  handlers := fun _ => 0x100
  trapBackup := 0

theorem onStack_first (esp : Word) :
    (finRange 32).find? (fun s => decide (Deliverable (onStack esp) s)) = some 3 :=
  show (finRange 32).find? (fun s => decide (Deliverable (onStack 0) s)) = some 3 by decide

theorem frameStores_inside_at_top : framedSignal (fun _ => 0) (onStack 0x2000) = some 3 ∧
    ((∀ a ∈ frameStores (fun _ => 0) (onStack 0x2000), a < (onStack 0x2000).sz) ↔
      15 ≤ (onStack 0x2000).tf.esp ∧ (onStack 0x2000).tf.esp ≤ (onStack 0x2000).sz) := by
  have hsig : framedSignal (fun _ => 0) (onStack 0x2000) = some 3 :=
    framedSignal_first (onStack_first _) (show UserHandler 0x100 by decide)
  exact ⟨hsig, frameStores_inside_iff _ _ 3 hsig⟩

/-- With `esp` in the kernel's half of the address space the pushes go there. -/
theorem frameStores_in_kernel : framedSignal (fun _ => 0) (onStack 0x80100000) = some 3 ∧
    ¬∀ a ∈ frameStores (fun _ => 0) (onStack 0x80100000), a < (onStack 0x80100000).sz := by
  have hsig : framedSignal (fun _ => 0) (onStack 0x80100000) = some 3 :=
    framedSignal_first (onStack_first _) (show UserHandler 0x100 by decide)
  refine ⟨hsig, fun hin => ?_⟩
  have hstub := hin 0x800ffff9 (by
    simp only [frameStores, hsig, mem_pushes_iff]
    decide)
  exact absurd hstub (by decide)

/-! ## The footprint of a delivery -/

/-- The memory a delivering pass leaves is the memory it found, with the trap
frame and the pushes laid over it. -/
theorem checkKernelSigs_frame_mem {p q : Proc} {i : Sig}
    (h : checkKernelSigs arrive (some p) = .ok ⟨some q, some i⟩) : q.mem = frameMem i p := by
  obtain ⟨r, hloop, hpush⟩ := checkKernelSigs_frame h
  obtain ⟨hsame, _⟩ := sigLoop_frame hloop
  obtain ⟨_, _, hq⟩ := pushFrame_ok_iff.mp hpush
  rw [hq]
  show frameMem i r = frameMem i p
  simp only [frameMem, hsame.mem, hsame.tf, hsame.trapBackup]

/-- Outside the pushed frame a delivery changes nothing exactly when the bytes at
`trap_backup` already are those of the trap frame. -/
theorem deliver_footprint_iff {p q : Proc} {i : Sig}
    (h : checkKernelSigs arrive (some p) = .ok ⟨some q, some i⟩) :
    (∀ a, 15 ≤ ahead (frameBase p.tf.esp) a → q.mem a = p.mem a) ↔
      ∀ a, 15 ≤ ahead (frameBase p.tf.esp) a → ahead p.trapBackup a < trapframeSize →
        p.mem a = p.tf.bytes[ahead p.trapBackup a]? := by
  have hmem := checkKernelSigs_frame_mem h
  have hoff : ∀ a, 15 ≤ ahead (frameBase p.tf.esp) a →
      q.mem a = overlay p.mem p.trapBackup p.tf.bytes a := by
    intro a ha
    rw [hmem]
    exact overlay_off ha
  have hlen := Trapframe.bytes_length p.tf
  constructor
  · intro hkeep a ha hd
    rw [← hkeep a ha, hoff a ha]
    exact overlay_on (by omega)
  · intro hsame a ha
    rw [hoff a ha]
    by_cases hd : ahead p.trapBackup a < trapframeSize
    · rw [hsame a ha hd]
      exact overlay_on (by omega)
    · exact overlay_off (by omega)

end Xv6
