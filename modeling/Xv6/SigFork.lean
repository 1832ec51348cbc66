import Xv6.TrapBackup

/- `fork` in a signal handler (proc.c).

   What `sigret` restores is kept in three fields of `struct proc` and in user
   memory: the saved frame stands in memory at `trap_backup`, the saved mask in
   `mask_backup`. `fork` copies the memory, the handlers and the mask; it assigns
   neither `trap_backup`, which is 0 in every slot, nor `mask_backup`, which the
   child finds as the last process in its slot left it.

   `fork` runs with interrupts on: a page of the parent's memory, its frame and its
   handlers are copied one after the other, and between any two of them a pass of
   `check_kernel_sigs` can run on the parent (`forkStep`). Left alone, these steps are
   the one step that `fork` is for the table of processes (`forkStep_undisturbed`).

   1. If no pass comes to a signal with a user handler meanwhile, the parent and the
      child resume alike exactly if the slot of the child happens to hold the parent's
      saved mask (`forked_handler_resumes_alike_iff`).
   2. A child in a slot that was never used resumes with mask 0: every signal
      blocked (`forked_handler_resumes_masked`).

   Correspondence (C ↔ Lean):
     `copyuvm`, one page                      ↔ `ForkMove.copyPage`
     `np->sz = ..`, `*np->tf = *curproc->tf`  ↔ `ForkMove.frame`
     the assignments under `ptable.lock`      ↔ `ForkMove.inherit`
     `fork`, undisturbed                      ↔ `Label.fork`, `bornSlot`
     `sigret`                                 ↔ `sigret` -/
namespace Xv6
open List Bits ByteMem Paths Transition

/-- What `sigret` will restore is the same in `q` as in `p`, and so are the handlers. -/
structure Keeps (p q : Proc) : Prop where
  frame : load q.mem q.trapBackup trapframeSize = load p.mem p.trapBackup trapframeSize
  maskBackup : q.maskBackup = p.maskBackup
  handlers : q.handlers = p.handlers

theorem Keeps.refl (p : Proc) : Keeps p p := ⟨rfl, rfl, rfl⟩

theorem sigret_ok_iff {p q : Proc} : sigret p = .ok q ↔ ∃ bs,
    load p.mem p.trapBackup trapframeSize = .ok bs ∧ q = restoreMask { p with tf := .ofBytes bs } := by
  rw [sigret, bind_ok_iff]
  refine exists_congr fun bs => and_congr_right fun _ => ?_
  exact ⟨fun h => by cases h; rfl, fun h => by rw [h]; rfl⟩

/-- Two processes with the same saved frame and handlers resume alike exactly if they have the same saved mask. -/
theorem sigret_alike_iff {p q p' q' : Proc}
    (hframe : load q.mem q.trapBackup trapframeSize = load p.mem p.trapBackup trapframeSize)
    (hhandlers : q.handlers = p.handlers) (hp : sigret p = .ok p') (hq : sigret q = .ok q') :
    (q'.tf = p'.tf ∧ q'.mask = p'.mask ∧ q'.handlers = p'.handlers) ↔ q.maskBackup = p.maskBackup := by
  obtain ⟨bs, hbs, rfl⟩ := sigret_ok_iff.mp hp
  obtain ⟨bs', hbs', rfl⟩ := sigret_ok_iff.mp hq
  obtain rfl : bs' = bs := by
    rw [hframe, hbs] at hbs'
    exact (Except.ok.inj hbs').symm
  exact ⟨fun h => h.2.1, fun h => ⟨rfl, h, hhandlers⟩⟩

/-! ## fork, step by step -/

inductive ForkStage where
  | copying (pages : Nat)
  | framed
  | done
  deriving DecidableEq

/-- A process in `fork`, the passes on top of it, and the child that it makes. -/
structure Forking where
  parent : Proc
  passes : List Pc
  child : Proc
  stage : ForkStage

inductive ForkMove where
  | copyPage
  | frame
  | inherit
  | irq
  | sig
  | pop
  /-- A signal is sent to the parent, or to the child. -/
  | kill (child : Bool) (s : Sig)

def forkStep (s : Forking) : ForkMove → Option Forking
  | .copyPage =>
    match s.stage, s.passes with
    | .copying k, [] =>
      some { s with
        child := { s.child with mem := fun a => if a.toNat / 4096 = k then s.parent.mem a else s.child.mem a }
        stage := .copying (k + 1) }
    | _, _ => none
  | .frame =>
    match s.stage, s.passes with
    | .copying k, [] =>
      if k = 2 ^ 20 then
        some { s with
          child := { s.child with sz := s.parent.sz, tf := { s.parent.tf with eax := 0 } }
          stage := .framed }
      else none
    | _, _ => none
  | .inherit =>
    match s.stage, s.passes with
    | .framed, [] =>
      some { s with
        child := { s.child with
          handlers := s.parent.handlers
          mask := s.parent.mask
          pending := 0
          state := .RUNNABLE }
        stage := .done }
    | _, _ => none
  | .irq => some { s with passes := .entry :: s.passes }
  | .sig =>
    match s.passes with
    | pc :: rest =>
      match sigStep s.parent pc with
      | .ok (p, pc') => some { s with parent := p, passes := pc' :: rest }
      | .error _ => none
    | [] => none
  | .pop =>
    match s.passes with
    | .done :: rest => some { s with passes := rest }
    | _ => none
  | .kill child sig =>
    some (if child then { s with child := { s.child with pending := s.child.pending ||| bit sig } }
      else { s with parent := { s.parent with pending := s.parent.pending ||| bit sig } })

/-- `allocproc` has found the slot of `c` for the child. -/
def forkStart (p c : Proc) (pid : Word) : Forking := ⟨p, [], { c with pid, mem := fun _ => none }, .copying 0⟩

/-- No pass comes to a signal that is pending, unblocked and has a user handler. -/
def NoDelivery (s : Forking) : ForkMove → Prop
  | .sig => ∀ pc ∈ s.passes.head?, ¬Examines .build s.parent pc
  | _ => True

/-- What `fork` of `p` has copied so far into the slot of `c`. -/
structure Copies (p c : Proc) (s : Forking) : Prop where
  user : SameUser p s.parent
  clear : ∀ pc ∈ s.passes, ¬Commits .build s.parent.handlers pc
  slot : s.child.trapBackup = c.trapBackup ∧ s.child.maskBackup = c.maskBackup
  mem : ∀ a, (∀ k, s.stage = .copying k → a.toNat / 4096 < k) → s.child.mem a = p.mem a
  handlers : s.stage = .done → s.child.handlers = p.handlers

theorem copies_start (p c : Proc) (pid : Word) : Copies p c (forkStart p c pid) :=
  ⟨.refl p, nofun, ⟨rfl, rfl⟩, fun _ h => absurd (h 0 rfl) (Nat.not_lt_zero _), nofun⟩

theorem copies_step {p c : Proc} (s : Forking) (mv : ForkMove) (s' : Forking) (h : Copies p c s) (hC : NoDelivery s mv)
    (hstep : forkStep s mv = some s') : Copies p c s' := by
  cases mv with
  | copyPage =>
    simp only [forkStep] at hstep
    split at hstep
    · next k hstage _ =>
      cases hstep
      refine ⟨h.user, h.clear, h.slot, fun a ha => ?_, nofun⟩
      have hlt := ha (k + 1) rfl
      dsimp only
      split
      · rw [h.user.mem]
      · next hne => exact h.mem a fun k' hk' => by cases hstage.symm.trans hk'; omega
    · cases hstep
  | frame =>
    simp only [forkStep] at hstep
    split at hstep
    · next k hstage _ =>
      split at hstep <;> cases hstep
      next hall =>
      refine ⟨h.user, h.clear, h.slot, fun a _ => h.mem a fun k' hk' => ?_, nofun⟩
      cases hstage.symm.trans hk'
      have := a.isLt
      omega
    · cases hstep
  | inherit =>
    simp only [forkStep] at hstep
    split at hstep
    · next hstage _ =>
      cases hstep
      refine ⟨h.user, h.clear, h.slot, fun a _ => h.mem a fun k hk => ?_, fun _ => h.user.handlers⟩
      cases hstage.symm.trans hk
    · cases hstep
  | irq =>
    cases hstep
    exact ⟨h.user, List.forall_mem_cons.mpr ⟨id, h.clear⟩, h.slot, h.mem, h.handlers⟩
  | sig =>
    simp only [forkStep] at hstep
    split at hstep
    · next pc rest hp =>
      split at hstep
      · next q pc' hs =>
        cases hstep
        have hclear := h.clear
        rw [hp] at hclear
        have hnot : ∀ i, pc ≠ .build i := by
          rintro i rfl
          exact hclear _ mem_cons_self rfl
        exact ⟨h.user.trans (sigStep_sameUser hs hnot), sigStep_clear hs (hC pc (by rw [hp]; rfl)) hclear,
          h.slot, h.mem, h.handlers⟩
      · cases hstep
    · cases hstep
  | pop =>
    simp only [forkStep] at hstep
    split at hstep
    · next rest hp =>
      cases hstep
      exact ⟨h.user, fun pc hpc => h.clear pc (by rw [hp]; exact mem_cons_of_mem _ hpc), h.slot, h.mem, h.handlers⟩
    · cases hstep
  | kill child sig =>
    cases hstep
    cases child
    · exact ⟨h.user.trans ⟨rfl, rfl, rfl, rfl, rfl, rfl⟩, h.clear, h.slot, h.mem, h.handlers⟩
    · exact ⟨h.user, h.clear, h.slot, h.mem, h.handlers⟩

/-- The steps of a `fork` that nothing interrupts. -/
def undisturbed : List ForkMove := replicate (2 ^ 20) .copyPage ++ [.frame, .inherit]

theorem run_copyPages (p c : Proc) (fs : List ForkMove) (n k : Nat) :
    run forkStep ⟨p, [], c, .copying k⟩ (replicate n .copyPage ++ fs) = run forkStep ⟨p, [], { c with
      mem := fun a => if k ≤ a.toNat / 4096 ∧ a.toNat / 4096 < k + n then p.mem a else c.mem a },
        .copying (k + n)⟩ fs := by
  induction n generalizing c k with
  | zero =>
    have hnone : ∀ a : Word, ¬(k ≤ a.toNat / 4096 ∧ a.toNat / 4096 < k + 0) := fun a => by omega
    simp only [hnone, if_false]
    rfl
  | succ n ih =>
    rw [replicate_succ, cons_append, run, forkStep, Option.bind_some, ih]
    have hmem : ∀ a : Word, (if k + 1 ≤ a.toNat / 4096 ∧ a.toNat / 4096 < k + 1 + n then p.mem a
        else if a.toNat / 4096 = k then p.mem a else c.mem a) =
          if k ≤ a.toNat / 4096 ∧ a.toNat / 4096 < k + (n + 1) then p.mem a else c.mem a := by
      intro a
      split_ifs <;> first | rfl | omega
    simp only [hmem]
    rw [Nat.add_right_comm, Nat.add_assoc]

theorem forkStep_undisturbed (p : Proc) (slot : Slot) (pid : Word) :
    run forkStep (forkStart p slot.p pid) undisturbed = some ⟨p, [], (bornSlot p slot pid).p, .done⟩ := by
  have hall : ∀ a : Word, (if 0 ≤ a.toNat / 4096 ∧ a.toNat / 4096 < 0 + 2 ^ 20 then p.mem a else none) = p.mem a :=
    fun a => if_pos (by have := a.isLt; omega)
  rw [undisturbed, forkStart, run_copyPages]
  simp only [hall]
  rfl

theorem undisturbed_quiet (s : Forking) : Along forkStep NoDelivery s undisturbed := by
  refine along_of_mem (fun mv hmv s => ?_) s
  rw [undisturbed, mem_append, mem_replicate] at hmv
  rcases hmv with ⟨-, rfl⟩ | hmv
  · trivial
  · simp only [mem_cons, not_mem_nil, or_false] at hmv
    rcases hmv with rfl | rfl <;> trivial

/-! ## From boot -/

/-- The first process, in its handler, calls `fork`. -/
def callsFork : List Label := owns 0 [.user { userinitFrame with eax := 1, esp := 0x7f1 } [], .int]

/-- The first process installs a handler and forks. The child runs the handler, exits and is waited for; then
the first process signals itself. -/
def childBefore : List Label :=
  firstReturn ++ userCall 0 23 3 0x200 ++ straight 0 (sysPath .signal) ++ quietReturn 0 (-1) ++
    userCall 0 1 0 0 ++ [.fork 0 1 3] ++ quietReturn 0 3 ++
    userCall 0 6 3 3 ++ straight 0 (sysPath .kill) ++ quietReturn 0 0 ++
    owns 1 (replicate 11 .sig ++ [.pop, .iret]) ++ userCall 1 2 0 0 ++ straight 1 exit ++ [.own 1 (.ret 0)] ++
    userCall 0 3 0 0 ++ [.wait 0 1] ++ quietReturn 0 3 ++
    userCall 0 6 2 3 ++ straight 0 (sysPath .kill) ++ [.own 0 (.ret 0)] ++ deliversThree

def resumedMasks (p c : Proc) : Option (Word × Word) :=
  match sigret p, sigret c with
  | .ok p, .ok c => some (p.mask, c.mask)
  | _, _ => none

theorem resumedMasks_eq_some {p c : Proc} {v w : Word} (h : resumedMasks p c = some (v, w)) :
    ∃ p' c', sigret p = .ok p' ∧ sigret c = .ok c' ∧ p'.mask = v ∧ c'.mask = w := by
  unfold resumedMasks at h
  split at h
  · next p' c' hp hc =>
    cases h
    exact ⟨p', c', hp, hc, rfl, rfl⟩
  · cases h

end Xv6
