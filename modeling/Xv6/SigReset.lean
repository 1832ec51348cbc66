import Xv6.Machine
import Xv6.SigCompare

/- Setting a signal back to its default from user space (user.h, proc.h, proc.c).

   User programs are compiled with `SIG_DFL` as 0 (user.h), the kernel with -1
   (proc.h). `signal(s, SIG_DFL)` in a program therefore enters 0, which the kernel
   takes for the address of a handler.

   1. Everything that can happen to the signals of a process, and the process after
      it (`react`, `reacts`).
   2. As long as no pass handles `s`, the process goes on as one with the default
      entry does; an `exec` makes the two equal for good. A pass that handles `s` tells
      them apart, by the mask or by the number in the frame (`pass_tells`). So the two
      go alike exactly up to that pass (`reset_is_default_iff`).
   3. When a pass handles `s`, the entry 0 is a handler at address 0
      (`reset_runs_address_zero`).

   Correspondence (C ↔ Lean):
     `SIG_DFL` of user.h                      ↔ `User.SIG_DFL`
     `signal`, `sigprocmask`, `sigret`        ↔ `Event.signal`, `Event.sigprocmask`, `Event.sigret`
     `kill`, for the process at hand          ↔ `Event.kill`
     `check_kernel_sigs`                      ↔ `Event.pass`
     `exec`, in what it does to the handlers  ↔ `Event.exec` -/
namespace Xv6.SigReset
open Function List Bits ByteMem

/-- The constant that user programs are compiled with. -/
def User.SIG_DFL : Word := 0

/-! ## A process and its signals -/

inductive Event where
  | kill (w : Word)
  | pass (arrive : Sig → Word)
  | signal (signum handler : Word)
  | sigprocmask (sigmask : Word)
  | sigret
  /-- What user code and the other system calls do to registers and memory. -/
  | user (tf : Trapframe) (mem : Mem) (sz : Word)
  /-- A new image, with its registers. -/
  | exec (tf : Trapframe) (mem : Mem) (sz : Word)

/-- The process after the event, or what keeps it from going on. -/
def react (p : Proc) : Event → Except Stuck Proc
  | .kill w => .ok (p.receive w)
  | .pass arrive =>
    match checkKernelSigs arrive (some p) with
    | .error e => .error e
    | .ok ⟨some p, _⟩ => .ok p
    | .ok ⟨none, _⟩ => .ok p
  | .signal signum handler => .ok (Xv6.signal signum handler p).1
  | .sigprocmask sigmask => .ok (Xv6.sigprocmask sigmask p).1
  | .sigret =>
    match Xv6.sigret p with
    | .error a => .error (.badStore a)
    | .ok p => .ok p
  | .user tf mem sz => .ok { p with tf, mem, sz }
  | .exec tf mem sz => .ok (resetHandlers { p with tf, mem, sz })

def reacts : Proc → List Event → Except Stuck Proc
  | p, [] => .ok p
  | p, l :: ls =>
    match react p l with
    | .error e => .error e
    | .ok p => reacts p ls

/-- Two processes got equally far: both wait in `handle_SIGSTOP`, both have failed at the same address, or
both go on. -/
inductive Alike (R : Proc → Proc → Prop) : Except Stuck Proc → Except Stuck Proc → Prop where
  | stopped {p q : Proc} (h : R p q) : Alike R (.error (.stopped p)) (.error (.stopped q))
  | badStore (a : Word) : Alike R (.error (.badStore a)) (.error (.badStore a))
  | ok {p q : Proc} (h : R p q) : Alike R (.ok p) (.ok q)

/-! ## Two entries for one signal -/

/-- The processes are equal, up to the entry of `s`: the default in the first, `h` in the second. -/
def Close (s : Sig) (h : Word) (p q : Proc) : Prop := q = p ∨ Differs s h p q

/-- Up to the first `exec`, the program does not enter another handler for `s`. -/
def Unchanged (s : Sig) : List Event → Prop
  | [] => True
  | .exec _ _ _ :: _ => True
  | .signal signum _ :: ls => legalSignum signum ≠ some s ∧ Unchanged s ls
  | _ :: ls => Unchanged s ls

/-- No pass of the event handles `s`: it is not pending and let through when its turn comes. -/
def Quiet (s : Sig) (p : Proc) : Event → Prop
  | .pass arrive => ∀ r, Reaches arrive p s r → ¬Deliverable r s
  | _ => True

/-- No pass handles `s`, up to the first `exec`. -/
def Unhandled (s : Sig) : Proc → List Event → Prop
  | _, [] => True
  | _, .exec _ _ _ :: _ => True
  | p, l :: ls => Quiet s p l ∧ ∀ p', react p l = .ok p' → Unhandled s p' ls

section React

variable {s : Sig} {h : Word} {p q : Proc} {l : Event}

theorem alike_self {R : Proc → Proc → Prop} (hR : ∀ p, R p p) (r : Except Stuck Proc) : Alike R r r := by
  cases r with
  | ok p => exact .ok (hR p)
  | error e =>
    cases e with
    | stopped p => exact .stopped (hR p)
    | badStore a => exact .badStore a

theorem signal_eq {signum handler : Word} {t : Sig} (hlegal : legalSignum signum = some t) :
    (signal signum handler p).1 = p.withHandler t handler := by
  rw [signal, hlegal]
  rfl

theorem withHandler_comm {t : Sig} (hne : t ≠ s) (v w : Word) :
    (p.withHandler s v).withHandler t w = (p.withHandler t w).withHandler s v := by
  unfold Proc.withHandler
  dsimp only
  rw [update_comm hne.symm]

theorem signal_differs {signum handler : Word} (hp : p.handlers s = SIG_DFL) (hs : legalSignum signum ≠ some s) :
    Differs s h (signal signum handler p).1 (signal signum handler (p.withHandler s h)).1 := by
  cases hlegal : legalSignum signum with
  | none =>
    rw [signal, signal, hlegal]
    exact ⟨hp, rfl⟩
  | some t =>
    have hne : t ≠ s := fun heq => hs (heq ▸ hlegal)
    rw [signal_eq hlegal, signal_eq hlegal]
    exact ⟨(update_of_ne hne.symm ..).trans hp, withHandler_comm hne h handler⟩

theorem resetHandlers_withHandler (hh : h ≠ SIG_IGN) (hp : p.handlers s = SIG_DFL) :
    resetHandlers (p.withHandler s h) = resetHandlers p := by
  have hentries : ∀ i, (resetHandlers (p.withHandler s h)).handlers i = (resetHandlers p).handlers i := by
    intro i
    by_cases hi : i = s
    · subst hi
      by_cases hdfl : h = SIG_DFL
      · simp [resetHandlers, Proc.withHandler, hp, hdfl]
      · simp [resetHandlers, Proc.withHandler, hp, hdfl, hh]
    · simp [resetHandlers, Proc.withHandler, hi]
  have hfun := funext hentries
  unfold resetHandlers Proc.withHandler at hfun ⊢
  dsimp only at hfun ⊢
  rw [hfun]

theorem Unchanged.tail {ls : List Event} (hu : Unchanged s (l :: ls)) (hl : ∀ tf mem sz, l ≠ .exec tf mem sz) :
    (∀ signum handler, l = .signal signum handler → legalSignum signum ≠ some s) ∧ Unchanged s ls := by
  cases l with
  | exec tf mem sz => exact absurd rfl (hl tf mem sz)
  | signal signum handler => exact ⟨fun _ _ heq => by cases heq; exact hu.1, hu.2⟩
  | _ => exact ⟨nofun, hu⟩

theorem unhandled_cons {ls : List Event} (hl : ∀ tf mem sz, l ≠ .exec tf mem sz) :
    Unhandled s p (l :: ls) ↔ Quiet s p l ∧ ∀ p', react p l = .ok p' → Unhandled s p' ls := by
  cases l with
  | exec tf mem sz => exact absurd rfl (hl tf mem sz)
  | _ => exact Iff.rfl

theorem react_differs (hd : Differs s h p q)
    (hsignal : ∀ signum handler, l = .signal signum handler → legalSignum signum ≠ some s) (hq : Quiet s p l)
    (hl : ∀ tf mem sz, l ≠ .exec tf mem sz) : Alike (Differs s h) (react p l) (react q l) := by
  obtain ⟨hp, rfl⟩ := hd
  cases l with
  | kill w => exact .ok ⟨hp, rfl⟩
  | sigprocmask m => exact .ok ⟨hp, rfl⟩
  | user tf mem sz => exact .ok ⟨hp, rfl⟩
  | pass arrive =>
    have hrel := (pass_withHandler arrive (h := h) hp (.inr hq)).pass
    rw [react, react]
    generalize checkKernelSigs arrive (some p) = a at hrel
    generalize checkKernelSigs arrive (some (p.withHandler s h)) = b at hrel
    cases hrel with
    | stopped h => exact .stopped h
    | badStore a => exact .badStore a
    | done h => exact .ok h
  | signal signum handler => exact .ok (signal_differs hp (hsignal signum handler rfl))
  | sigret =>
    simp only [react, sigret, Proc.withHandler]
    cases load p.mem p.trapBackup trapframeSize with
    | error a => exact .badStore a
    | ok bs => exact .ok ⟨hp, rfl⟩
  | exec tf mem sz => exact absurd rfl (hl tf mem sz)

theorem react_exec {tf : Trapframe} {mem : Mem} {sz : Word} (hh : h ≠ SIG_IGN) (hd : Differs s h p q) :
    react q (.exec tf mem sz) = react p (.exec tf mem sz) := by
  obtain ⟨hp, rfl⟩ := hd
  exact congrArg Except.ok (resetHandlers_withHandler (p := { p with tf, mem, sz }) hh hp)

theorem reacts_differs (hh : h ≠ SIG_IGN) {ls : List Event} (hd : Differs s h p q) (hlast : Unchanged s ls)
    (hu : Unhandled s p ls) (n : Nat) : Alike (Close s h) (reacts p (ls.take n)) (reacts q (ls.take n)) := by
  induction ls generalizing p q n with
  | nil =>
    rw [take_nil]
    exact .ok (.inr hd)
  | cons l ls ih =>
    cases n with
    | zero => exact .ok (.inr hd)
    | succ n =>
      rw [take_succ_cons, reacts, reacts]
      by_cases hl : ∃ tf mem sz, l = .exec tf mem sz
      · obtain ⟨tf, mem, sz, rfl⟩ := hl
        rw [react_exec hh hd]
        exact alike_self (fun _ => .inl rfl) _
      · have hne : ∀ tf mem sz, l ≠ .exec tf mem sz := fun tf mem sz heq => hl ⟨tf, mem, sz, heq⟩
        obtain ⟨hquiet, hrest⟩ := (unhandled_cons hne).mp hu
        obtain ⟨hsignal, hlast⟩ := hlast.tail hne
        have hrel := react_differs hd hsignal hquiet hne
        generalize hp : react p l = a at hrel
        generalize react q l = b at hrel
        cases hrel with
        | stopped h => exact .stopped (.inr h)
        | badStore a => exact .badStore a
        | ok h => exact ih h hlast (hrest _ hp) n

/-! ## A pass that handles the signal -/

theorem framed_inj {i j : Sig} (hesp : q.tf.esp = p.tf.esp) (hmem : (framed j q).mem = (framed i p).mem) : j = i := by
  have hload : ∀ (i : Sig) (p : Proc), load (framed i p).mem (frameBase p.tf.esp) 15 = .ok (frameBytes i p.tf.esp) :=
    fun i p => load_overlay _ _ (show (frameBytes i p.tf.esp).length ≤ _ by rw [frameBytes_length]; decide)
  have hbytes : frameBytes j p.tf.esp = frameBytes i p.tf.esp := by
    have hj := hload j q
    rw [hmem, hesp, hload i p] at hj
    exact (Except.ok.inj hj).symm
  have hbyte : some ((sigWord j).extractLsb' 0 8) = some ((sigWord i).extractLsb' 0 8) :=
    congrArg (fun bs : List Byte => bs[4]?) hbytes
  have hinj : ∀ i j : Sig, (sigWord j).extractLsb' 0 8 = (sigWord i).extractLsb' 0 8 → j = i := by decide
  exact hinj i j (Option.some.inj hbyte)

/-- A user handler in place of the default: the frame is for `s` in the one process, and in the other for another
signal, if for any. -/
theorem pass_tells {arrive : Sig → Word} {r : Proc} (hh : UserHandler h) (hd : Differs s h p q)
    (hr : Reaches arrive p s r) (hdeliv : Deliverable r s)
    (hstore : ∀ a, react q (.pass arrive) ≠ .error (.badStore a)) :
    ¬Alike (Close s h) (react p (.pass arrive)) (react q (.pass arrive)) := by
  obtain ⟨hp, rfl⟩ := hd
  obtain ⟨hsplit, hbefore, -⟩ := finRange_split s
  obtain ⟨hsame, hmask, -⟩ := sigLoop_finished hr
  -- the second pass comes to `s` as well, and builds a frame
  have hloop : sigLoop arrive (finRange 32) (p.withHandler s h) = .ok (.frame s (saveMask (r.withHandler s h))) := by
    have hpre := (loop_withHandler arrive (h := h) ((finRange 32).take s) hp
      (.inr fun a ha heq => hbefore (by have hmem := mem_of_mem_acted ha; rwa [heq] at hmem))).1
    rw [show sigLoop arrive ((finRange 32).take s) p = _ from hr] at hpre
    generalize hr' : sigLoop arrive ((finRange 32).take s) (p.withHandler s h) = b at hpre
    cases hpre with
    | finished hdiffers =>
      obtain ⟨-, rfl⟩ := hdiffers
      have hentry : (r.withHandler s h).handlers s = h := by simp [Proc.withHandler]
      rw [hsplit, sigLoop_append, hr']
      dsimp only
      rw [sigLoop_cons, if_pos (show Deliverable (r.withHandler s h) s from hdeliv), hentry, disposal_eq_frame.mpr hh]
      rfl
  have hq : ∃ q', react (p.withHandler s h) (.pass arrive) = .ok q' ∧ q' = framed s (saveMask (r.withHandler s h)) := by
    rw [react, checkKernelSigs_eq, hloop, finish] at hstore ⊢
    cases hpush : pushFrame s (saveMask (r.withHandler s h)) with
    | error a => exact absurd (by rw [hpush]) (hstore a)
    | ok q' => exact ⟨q', rfl, (pushFrame_ok_iff.mp hpush).2.2⟩
  obtain ⟨q', hq, rfl⟩ := hq
  rw [hq, react, checkKernelSigs_eq]
  have hclose : ∀ p', Close s h p' (framed s (saveMask (r.withHandler s h))) →
      p'.mask = 0 ∧ (framed s (saveMask (r.withHandler s h))).mem = p'.mem := by
    rintro p' (heq | ⟨-, heq⟩)
    · exact ⟨by rw [← heq]; rfl, by rw [heq]⟩
    · exact ⟨show (p'.withHandler s h).mask = 0 by rw [← heq]; rfl, show _ = (p'.withHandler s h).mem by rw [heq]⟩
  cases hscan : sigLoop arrive (finRange 32) p with
  | error e => rintro ⟨⟩
  | ok out =>
    cases out with
    | finished p' =>
      rintro (_ | _ | hc)
      have hzero := (hclose p' hc).1
      rw [(sigLoop_finished hscan).2.1, ← hmask] at hzero
      have hbit := hdeliv.2
      rw [hzero] at hbit
      exact Bool.false_ne_true ((has_zero s).symm.trans hbit)
    | frame j p' =>
      obtain ⟨huser, -, -, -, -, hj⟩ := sigLoop_frame hscan
      rw [finish]
      cases hpush : pushFrame j p' with
      | error a => rintro ⟨⟩
      | ok p'' =>
        obtain rfl := (pushFrame_ok_iff.mp hpush).2.2
        rintro (_ | _ | hc)
        have hsj := framed_inj (q := saveMask (r.withHandler s h)) (hsame.tf.trans huser.tf.symm ▸ rfl) (hclose _ hc).2
        exact hj.1 (hsj ▸ hp)

theorem unhandled_of_alike (hh : UserHandler h) {ls : List Event} (hd : Differs s h p q) (hlast : Unchanged s ls)
    (hstore : ∀ n a, reacts q (ls.take n) ≠ .error (.badStore a))
    (halike : ∀ n, Alike (Close s h) (reacts p (ls.take n)) (reacts q (ls.take n))) : Unhandled s p ls := by
  have hone : ∀ (p : Proc) (l : Event) (ls : List Event), reacts p ((l :: ls).take 1) = react p l := by
    intro p l ls
    rw [take_succ_cons, reacts]
    cases react p l <;> rfl
  induction ls generalizing p q with
  | nil => trivial
  | cons l ls ih =>
    by_cases hl : ∃ tf mem sz, l = .exec tf mem sz
    · obtain ⟨tf, mem, sz, rfl⟩ := hl
      trivial
    · have hne : ∀ tf mem sz, l ≠ .exec tf mem sz := fun tf mem sz heq => hl ⟨tf, mem, sz, heq⟩
      obtain ⟨hsignal, hlast⟩ := hlast.tail hne
      have hquiet : Quiet s p l := by
        cases l with
        | pass arrive =>
          intro r hr hdeliv
          refine pass_tells hh hd hr hdeliv (fun a => ?_) ?_
          · rw [← hone q _ ls]
            exact hstore 1 a
          · rw [← hone p _ ls, ← hone q _ ls]
            exact halike 1
        | _ => trivial
      refine (unhandled_cons hne).mpr ⟨hquiet, fun p' hp' => ?_⟩
      have hrel := react_differs hd hsignal hquiet hne
      rw [hp'] at hrel
      generalize hq' : react q l = b at hrel
      cases hrel with
      | ok h =>
        refine ih h hlast (fun n a => ?_) fun n => ?_
        · have := hstore (n + 1) a
          rwa [take_succ_cons, reacts, hq'] at this
        · have := halike (n + 1)
          rwa [take_succ_cons, reacts, reacts, hp', hq'] at this

end React

/-! ## `signal(s, SIG_DFL)` in a program -/

theorem legalSignum_sigWord (s : Sig) : legalSignum (sigWord s) = some s := by
  revert s
  decide

/-- **A program that has reset a signal to its default**, and a process that has it by default. If no pass handles the
signal before the next `exec`, they go on alike; and if they go on alike, and no frame fails in its stores, no pass
does. -/
theorem reset_is_default_iff (s : Sig) (p : Proc) (ls : List Event) (hlast : Unchanged s ls) :
    (Unhandled s (p.withHandler s SIG_DFL) ls → ∀ n, Alike (Close s User.SIG_DFL)
      (reacts (p.withHandler s SIG_DFL) (ls.take n)) (reacts (signal (sigWord s) User.SIG_DFL p).1 (ls.take n))) ∧
    ((∀ n a, reacts (signal (sigWord s) User.SIG_DFL p).1 (ls.take n) ≠ .error (.badStore a)) →
      (∀ n, Alike (Close s User.SIG_DFL) (reacts (p.withHandler s SIG_DFL) (ls.take n))
        (reacts (signal (sigWord s) User.SIG_DFL p).1 (ls.take n))) →
      Unhandled s (p.withHandler s SIG_DFL) ls) := by
  have hd : Differs s User.SIG_DFL (p.withHandler s SIG_DFL) (signal (sigWord s) User.SIG_DFL p).1 := by
    refine ⟨update_self .., ?_⟩
    rw [signal_eq (legalSignum_sigWord s)]
    unfold Proc.withHandler
    dsimp only
    rw [update_idem]
  exact ⟨fun hu n => reacts_differs (by decide) hd hlast hu n, fun hstore halike =>
    unhandled_of_alike (by decide) hd hlast hstore halike⟩

/-- SIGKILL comes while it is blocked, and is let through after an `exec`. -/
def execThenKill : List Event :=
  [.kill (bit SIGKILL), .pass fun _ => 0, .exec .zero (fun _ => none) 0, .sigprocmask (~~~0), .pass fun _ => 0]

theorem reset_is_default_exec : ∃ p q, reacts ((running 0 0).withHandler SIGKILL SIG_DFL) execThenKill = .ok p ∧
    reacts (signal (sigWord SIGKILL) User.SIG_DFL (running 0 0)).1 execThenKill = .ok q ∧
    p.killed = true ∧ Close SIGKILL User.SIG_DFL p q := by
  have hu : Unhandled SIGKILL ((running 0 0).withHandler SIGKILL SIG_DFL) execThenKill := by
    refine ⟨trivial, fun p' hp' => ⟨fun r hr hd => ?_, fun _ _ => trivial⟩⟩
    cases hp'
    have hnone : acted (fun _ => 0) (finRange 32)
        (((running 0 0).withHandler SIGKILL SIG_DFL).receive (bit SIGKILL)) = [] :=
      List.map_eq_nil_iff.mp (show List.map Prod.fst _ = [] by decide +kernel)
    have hmem := mem_acted_iff.mpr (show Reaches _ _ (SIGKILL, r).1 (SIGKILL, r).2 ∧ _ from ⟨hr, hd⟩)
    rw [hnone] at hmem
    cases hmem
  have halike : Alike (Close SIGKILL User.SIG_DFL) (reacts ((running 0 0).withHandler SIGKILL SIG_DFL) execThenKill)
      (reacts (signal (sigWord SIGKILL) User.SIG_DFL (running 0 0)).1 execThenKill) :=
    (reset_is_default_iff SIGKILL (running 0 0) execThenKill trivial).1 hu 5
  have hkilled : (reacts ((running 0 0).withHandler SIGKILL SIG_DFL) execThenKill).toOption.map (fun p => p.killed) =
      some true := by
    decide +kernel
  generalize reacts ((running 0 0).withHandler SIGKILL SIG_DFL) execThenKill = a at halike hkilled
  generalize reacts (signal (sigWord SIGKILL) User.SIG_DFL (running 0 0)).1 execThenKill = b at halike
  cases halike with
  | stopped h => cases hkilled
  | badStore a => cases hkilled
  | ok h => exact ⟨_, _, rfl, rfl, Option.some.inj hkilled, h⟩

/-- SIGKILL comes after a program has reset it to its default. The process is not killed: it goes on in user
mode at address 0. -/
theorem reset_runs_address_zero :
    (reacts { (running 0 (~~~0)).withHandler SIGKILL SIG_DFL with mem := fun _ => some 0 }
      [.kill (bit SIGKILL), .pass fun _ => 0]).toOption.map (fun p => p.killed) = some true ∧
    (reacts (signal (sigWord SIGKILL) User.SIG_DFL { running 0 (~~~0) with mem := fun _ => some 0 }).1
      [.kill (bit SIGKILL), .pass fun _ => 0]).toOption.map (fun p => (p.killed, p.pending, p.tf.eip)) =
        some (false, 0, 0) := by
  decide +kernel

end Xv6.SigReset
