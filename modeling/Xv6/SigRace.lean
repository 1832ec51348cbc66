import Xv6.SigFrame
import Xv6.SigStep
import Xv6.Transition

/- `kill` against `cancelSignal`.

   `kill` sets a bit of the target's `pending` word under `ptable.lock`;
   `cancelSignal`, in the target's own passes, toggles one under no lock. Both
   load the word, change it and store it. The model interleaves the single loads
   and stores of any number of senders with the steps of the target.

   Beside the kernel's variables run two words. `sent` holds the signals that were
   sent and that the target has not handled since: it handles a signal when it
   marks itself as killed for it, when its wait for it in `handle_SIGSTOP` is over,
   when it enters `handle_SIGCONT` for it, and when it cancels it in its own round of
   the loop. `kept` holds those that were sent and not cancelled since. No signal is
   lost exactly when `pending` has all of `sent`, and none is duplicated exactly
   when it has nothing but `kept`.

   `no_signal_lost_iff`: a run keeps both exactly when every store still finds the
   other 31 bits as they were loaded, and `cancelSignal` is only applied to a bit that
   is set, of a signal that has been handled or is being handled. All of this fails: a
   `kill` of another signal between the load and the store of `cancelSignal` is lost,
   a bit cancelled between the load and the store of `kill` comes back,
   `handle_SIGCONT` toggles SIGCONT whether it is pending or not, and it cancels a
   SIGSTOP that is blocked.

   Correspondence (C ↔ Lean):
     `kill(pid, signum)` that finds the target ↔ `acquire`, `load`, `store`, `release`
     `check_kernel_sigs` on the target         ↔ `sig`, by `sigStep`
     the target between two passes             ↔ `resume` -/
namespace Xv6
open Function Bits ByteMem Transition

inductive KillPc where
  | idle
  /-- Holding `ptable.lock`, the target found. -/
  | found (s : Sig)
  | loaded (s : Sig) (w : Word)
  /-- The bit is stored; about to release the lock and return 0. -/
  | stored (s : Sig)
  deriving DecidableEq

/-- The target, its pass, and the senders `κ`. -/
structure Race (κ : Type) where
  p : Proc
  pc : Pc
  lock : Option κ
  killers : κ → KillPc
  handling : Option Sig
  /-- The signals sent and not handled since. -/
  sent : Word
  /-- The signals sent and not cancelled since. -/
  kept : Word

inductive RaceStep (κ : Type) where
  | sig
  | resume (p : Proc)
  | acquire (k : κ) (s : Sig)
  | load (k : κ)
  | store (k : κ)
  | release (k : κ)

section

variable {κ : Type} [DecidableEq κ]

def Race.setKiller (r : Race κ) (k : κ) (pc : KillPc) : Race κ :=
  { r with killers := update r.killers k pc }

/-- The signal that a step of the pass handles, in the round of `now`. -/
def handles (p : Proc) (now : Option Sig) : Pc → Option Sig
  | .dfl i _ =>
    if (i ≠ SIGCONT ∧ i ≠ SIGSTOP ∧ p.handlers i = SIG_DFL) ∨ (i = SIGKILL ∧ p.handlers i = sigWord SIGKILL) then now
    else none
  | .disp i _ => if p.handlers i = sigWord SIGKILL then now else none
  | .stopTest _ => if hasSignal p SIGCONT || hasSignal p SIGKILL then now else none
  | .contTest _ => now
  | .cancelStore s _ _ => if now = some s then now else none
  | _ => none

/-- The round that the pass is in after a step. -/
def roundAfter (now : Option Sig) : Pc → Option Sig
  | .save i _ => some i
  | .restore _ => none
  | _ => now

/-- The signals not cancelled after a step of the pass. -/
def keptAfter (kept : Word) : Pc → Word
  | .cancelStore s _ _ => kept &&& ~~~bit s
  | _ => kept

def raceStep (r : Race κ) : RaceStep κ → Option (Race κ)
  | .sig =>
    match sigStep r.p r.pc with
    | .ok (p, pc) =>
      some { r with
        p
        pc
        handling := roundAfter r.handling r.pc
        sent := r.sent &&& ~~~((handles r.p r.handling r.pc).elim 0 bit)
        kept := keptAfter r.kept r.pc }
    | .error _ => none
  | .resume p =>
    -- back in user mode or in a system call, and then in the next trap: nothing
    -- the target does there writes `pending`
    if r.pc = .done then some { r with p := { p with pending := r.p.pending }, pc := .entry, handling := none }
    else none
  | .acquire k s =>
    if r.lock = none ∧ r.killers k = .idle then
      some { r.setKiller k (.found s) with lock := some k }
    else none
  | .load k =>
    match r.killers k with
    | .found s => some (r.setKiller k (.loaded s r.p.pending))
    | _ => none
  | .store k =>
    match r.killers k with
    | .loaded s w =>
      some { r.setKiller k (.stored s) with
        p := { r.p with pending := w ||| bit s }
        sent := r.sent ||| bit s
        kept := r.kept ||| bit s }
    | _ => none
  | .release k =>
    match r.killers k with
    | .stored _ => some { r.setKiller k .idle with lock := none }
    | _ => none

/-- Nobody is in the middle of an update, and every pending signal has been sent. -/
structure Race.Initial (r : Race κ) : Prop where
  pc : r.pc = .entry
  lock : r.lock = none
  killers : ∀ k, r.killers k = .idle
  sent : r.sent = r.p.pending
  kept : r.kept = r.p.pending

/-- No signal has been lost or duplicated. -/
def Race.Exact (r : Race κ) : Prop :=
  ∀ t, (has r.sent t = true → has r.p.pending t = true) ∧ (has r.p.pending t = true → has r.kept t = true)

/-- The word `w` loaded for an update of bit `s` is still good for the others. -/
def Fresh (r : Race κ) (s : Sig) (w : Word) : Prop := ∀ t ≠ s, has w t = has r.p.pending t

/-- The step is no store that tears another update, and cancels no clear bit and no signal
that waits to be handled. -/
def Untorn (r : Race κ) : RaceStep κ → Prop
  | .sig =>
    match r.pc with
    | .cancelStore s w _ => Fresh r s w ∧ has w s = true ∧ (r.handling = some s ∨ has r.sent s = false)
    | _ => True
  | .store k =>
    match r.killers k with
    | .loaded s w => Fresh r s w
    | _ => True
  | _ => True

instance (r : Race κ) (s : Sig) (w : Word) : Decidable (Fresh r s w) :=
  inferInstanceAs (Decidable (∀ t, t ≠ s → _))

instance (r : Race κ) (l : RaceStep κ) : Decidable (Untorn r l) := by
  unfold Untorn
  split
  · split <;> infer_instance
  · split <;> infer_instance
  · infer_instance

/-! ## What is known in the middle of an update -/

/-- The pass does not return into the middle of a `cancelSignal`. -/
def Pc.NoStore : Pc → Prop
  | .cancelStore _ _ _ => False
  | .stopTest k | .contTest k | .cancelLoad _ k => k.NoStore
  | _ => True

def Pc.Returns : Pc → Prop
  | .cancelStore _ _ k => k.NoStore
  | pc => pc.NoStore

theorem Pc.NoStore.returns {pc : Pc} (h : pc.NoStore) : pc.Returns := by
  cases pc with
  | cancelStore => exact h.elim
  | _ => exact h

theorem sigStep_returns {p q : Proc} {pc pc' : Pc} (h : sigStep p pc = .ok (q, pc')) (hpc : pc.Returns) :
    pc'.NoStore ∨ ∃ s k, pc = .cancelLoad s k ∧ pc' = .cancelStore s p.pending k ∧ k.NoStore := by
  cases pc with
  | entry =>
    cases h
    left
    split <;> trivial
  | scan rest =>
    left
    cases rest <;> cases h
    · trivial
    · split <;> trivial
  | save | restore | done =>
    cases h
    exact .inl trivial
  | dfl i rest =>
    left
    rw [sigStep, dflStep, Except.ok.injEq] at h
    split_ifs at h <;> cases h <;> trivial
  | disp i rest =>
    left
    rw [sigStep, dispStep, Except.ok.injEq] at h
    split_ifs at h <;> cases h <;> trivial
  | stopTest k =>
    cases h
    left
    split <;> exact hpc
  | contTest k =>
    cases h
    left
    split <;> exact hpc
  | cancelLoad s k =>
    cases h
    exact .inr ⟨s, k, rfl, rfl, hpc⟩
  | cancelStore s w k =>
    cases h
    exact .inl hpc
  | build i =>
    obtain ⟨-, rfl⟩ := sigStep_build h
    exact .inl trivial

/-- What holds in the middle of the updates as long as no signal is lost. A word that was loaded can have
missed a signal that was sent, in `cancelSignal`, or one that was cancelled, in `kill`. -/
structure Race.Coherent (r : Race κ) : Prop where
  returns : r.pc.Returns
  lock : ∀ k, r.killers k ≠ .idle → r.lock = some k
  loaded : ∀ k s w, r.killers k = .loaded s w →
    ∀ t, (has r.p.pending t = true → has w t = true) ∧ (has w t = true → has r.p.pending t = true ∨
    has r.kept t = false)
  cancel : ∀ s w k, r.pc = .cancelStore s w k →
    ∀ t ≠ s, (has w t = true → has r.p.pending t = true) ∧ (has r.p.pending t = true → has w t = true ∨
    has r.sent t = true)

omit [DecidableEq κ] in
theorem Race.Initial.coherent {r : Race κ} (h : r.Initial) : r.Coherent where
  returns := by
    rw [h.pc]
    trivial
  lock := fun k hk => absurd (h.killers k) hk
  loaded := fun k s w hk => by
    rw [h.killers k] at hk
    cases hk
  cancel := fun s w k hpc => by
    rw [h.pc] at hpc
    cases hpc

omit [DecidableEq κ] in
theorem Race.Initial.exact {r : Race κ} (h : r.Initial) : r.Exact := by
  intro t
  rw [h.sent, h.kept]
  exact ⟨id, id⟩

/-! ## One store -/

section

variable {r : Race κ} {s : Sig} {w : Word}

omit [DecidableEq κ] in
/-- The store of `cancelSignal`. -/
theorem cancel_exact_iff {k : Pc} (hc : r.Coherent) (he : r.Exact) (hpc : r.pc = .cancelStore s w k) :
    (∀ t, (has (r.sent &&& ~~~((handles r.p r.handling r.pc).elim 0 bit)) t = true → has (w ^^^ bit s) t = true) ∧
      (has (w ^^^ bit s) t = true → has (r.kept &&& ~~~bit s) t = true)) ↔
        Fresh r s w ∧ has w s = true ∧ (r.handling = some s ∨ has r.sent s = false) := by
  have hsent : ∀ t, has (r.sent &&& ~~~((handles r.p r.handling r.pc).elim 0 bit)) t =
      (has r.sent t && !(decide (r.handling = some s) && decide (t = s))) := by
    intro t
    rw [hpc, handles]
    split
    · next hnow => simp [hnow]
    · next hnow => rw [has_and, has_not]; simp [hnow]
  simp only [hsent, has_xor, has_and, has_not, has_bit]
  constructor
  · intro h
    have hs := h s
    have hbit : has w s = true := by
      by_contra hw
      have := hs.2
      simp [hw] at this
    refine ⟨fun t ht => ?_, hbit, ?_⟩
    · have hother := h t
      simp only [ht, decide_false, Bool.and_false, Bool.not_false, Bool.and_true, Bool.xor_false] at hother
      obtain ⟨hw, hp⟩ := hc.cancel s w k hpc t ht
      rw [Bool.eq_iff_iff]
      exact ⟨hw, fun hpending => (hp hpending).elim id hother.1⟩
    · have := hs.1
      by_contra hno
      rw [not_or, Bool.not_eq_false] at hno
      simp [hbit, hno.1, hno.2] at this
  · rintro ⟨hfresh, hbit, hnow⟩ t
    by_cases ht : t = s
    · subst ht
      rcases hnow with hnow | hnow <;> simp [hbit, hnow]
    · have := he t
      rw [← hfresh t ht] at this
      simpa [ht] using this

omit [DecidableEq κ] in
theorem kill_exact_iff {k : κ} (hc : r.Coherent) (he : r.Exact) (hk : r.killers k = .loaded s w) :
    (∀ t, (has (r.sent ||| bit s) t = true → has (w ||| bit s) t = true) ∧
      (has (w ||| bit s) t = true → has (r.kept ||| bit s) t = true)) ↔ Fresh r s w := by
  simp only [has_or, has_bit]
  constructor
  · intro h t ht
    have hother := (h t).2
    simp only [ht, decide_false, Bool.or_false] at hother
    obtain ⟨hp, hw⟩ := hc.loaded k s w hk t
    rw [Bool.eq_iff_iff]
    refine ⟨fun hloaded => (hw hloaded).resolve_right fun hgone => ?_, hp⟩
    rw [hother hloaded] at hgone
    cases hgone
  · intro hfresh t
    by_cases ht : t = s
    · simp [ht]
    · have := he t
      rw [← hfresh t ht] at this
      simpa [ht] using this

omit [DecidableEq κ] in
theorem has_untorn_cancel (hfresh : Fresh r s w) (hbit : has w s = true) (t : Sig) :
    has (w ^^^ bit s) t = (has r.p.pending t && !decide (t = s)) := by
  rw [has_xor, has_bit]
  by_cases ht : t = s
  · simp [ht, hbit]
  · simp [ht, hfresh t ht]

omit [DecidableEq κ] in
theorem has_untorn_kill (hfresh : Fresh r s w) (t : Sig) :
    has (w ||| bit s) t = (has r.p.pending t || decide (t = s)) := by
  rw [has_or, has_bit]
  by_cases ht : t = s
  · simp [ht]
  · simp [ht, hfresh t ht]

end

/-! ## One step -/

section

variable {r r' : Race κ}

omit [DecidableEq κ] in
theorem Race.Coherent.others {k : κ} (hc : r.Coherent) (hlock : r.lock = some k ∨ r.lock = none) {k' : κ}
    (hne : k' ≠ k) : r.killers k' = .idle := by
  by_contra hbusy
  have hk' := hc.lock k' hbusy
  rcases hlock with hlock | hlock
  · exact hne (Option.some.inj (hk'.symm.trans hlock))
  · rw [hlock] at hk'
    cases hk'

/-- A step of the one sender that is in the middle of an update. -/
theorem killers_update {k : κ} (pc : KillPc) (lock : Option κ) (L : Word → Prop)
    (hothers : ∀ k' ≠ k, r.killers k' = .idle) (hlock : pc ≠ .idle → lock = some k)
    (hpc : ∀ s w, pc = .loaded s w → L w) :
    (∀ k', update r.killers k pc k' ≠ .idle → lock = some k') ∧
      ∀ k' s w, update r.killers k pc k' = .loaded s w → L w := by
  have hcases : ∀ k', (k' = k ∧ update r.killers k pc k' = pc) ∨
      update r.killers k pc k' = .idle := by
    intro k'
    by_cases heq : k' = k
    · exact .inl ⟨heq, by rw [heq, update_self]⟩
    · exact .inr (by rw [update_of_ne heq]; exact hothers k' heq)
  refine ⟨fun k' hk' => ?_, fun k' s w hk' => ?_⟩
  · rcases hcases k' with ⟨rfl, h⟩ | h
    · exact hlock (h ▸ hk')
    · exact absurd h hk'
  · rcases hcases k' with ⟨-, h⟩ | h
    · exact hpc s w (h ▸ hk')
    · rw [h] at hk'
      cases hk'

omit [DecidableEq κ] in
theorem sig_quiet {p : Proc} {pc : Pc} (hsig : sigStep r.p r.pc = .ok (p, pc))
    (hpc : ∀ s w k, r.pc ≠ .cancelStore s w k) (hc : r.Coherent) (he : r.Exact) (now : Option Sig) (sent : Word)
    (hsent : ∀ t, has sent t = true → has r.sent t = true) :
    Race.Exact { r with p, pc, handling := now, sent } ∧ Race.Coherent { r with p, pc, handling := now, sent } := by
  have hkeep : p.pending = r.p.pending := sigStep_pending hsig hpc
  refine ⟨fun t => ?_, ?_, hc.lock, fun k s w hk t => ?_, fun s w k hstore t ht => ?_⟩
  · dsimp only
    rw [hkeep]
    exact ⟨fun h => (he t).1 (hsent t h), (he t).2⟩
  · rcases sigStep_returns hsig hc.returns with h | ⟨s, k, -, rfl, h⟩
    · exact h.returns
    · exact h
  · dsimp only
    rw [hkeep]
    exact hc.loaded k s w hk t
  · dsimp only at hstore ⊢
    rcases sigStep_returns hsig hc.returns with h | ⟨s', k', -, rfl, -⟩
    · rw [hstore] at h
      exact h.elim
    · cases hstore
      rw [hkeep]
      exact ⟨id, .inl⟩

theorem raceStep_sig_iff (hstep : raceStep r .sig = some r') (hc : r.Coherent) (he : r.Exact) :
    (r'.Exact ↔ Untorn r .sig) ∧ (r'.Exact → r'.Coherent) := by
  simp only [raceStep] at hstep
  split at hstep
  · next p pc hsig =>
    cases hstep
    by_cases hpc : ∃ s w k, r.pc = .cancelStore s w k
    · obtain ⟨s, w, k, hpc⟩ := hpc
      have hiff := cancel_exact_iff hc he hpc
      have hret := hc.returns
      rw [hpc] at hsig hret
      cases hsig
      have huntorn : Untorn r .sig ↔ Fresh r s w ∧ has w s = true ∧ (r.handling = some s ∨ has r.sent s = false) := by
        simp only [Untorn, hpc]
      have hkept : keptAfter r.kept r.pc = r.kept &&& ~~~bit s := by
        rw [hpc, keptAfter]
      rw [huntorn, ← hiff]
      simp only [Race.Exact, hkept]
      refine ⟨trivial, fun hexact => ?_⟩
      obtain ⟨hfresh, hbit, -⟩ := hiff.mp hexact
      refine ⟨Pc.NoStore.returns hret, hc.lock, fun k' s' w' hk t => ?_, fun s' w' k' hstore => ?_⟩
      · dsimp only
        rw [has_untorn_cancel hfresh hbit, has_and, has_not, has_bit]
        have := hc.loaded k' s' w' hk t
        by_cases ht : t = s
        · simp [ht]
        · simpa [ht] using this
      · dsimp only at hstore
        have hno : Pc.NoStore _ := hret
        rw [hstore] at hno
        exact hno.elim
    · have hpc : ∀ s w k, r.pc ≠ .cancelStore s w k := fun s w k hk => hpc ⟨s, w, k, hk⟩
      have huntorn : Untorn r .sig := by
        unfold Untorn
        dsimp only
        split
        · next s w k hk => exact absurd hk (hpc s w k)
        · trivial
      have hkept : keptAfter r.kept r.pc = r.kept := by
        unfold keptAfter
        split
        · next s w k hk => exact absurd hk (hpc s w k)
        · rfl
      rw [hkept]
      obtain ⟨hexact, hcoherent⟩ := sig_quiet hsig hpc hc he (roundAfter r.handling r.pc)
        (r.sent &&& ~~~((handles r.p r.handling r.pc).elim 0 bit)) fun t ht => by
          rw [has_and, Bool.and_eq_true] at ht
          exact ht.1
      exact ⟨iff_of_true hexact huntorn, fun _ => hcoherent⟩
  · cases hstep

theorem raceStep_store_iff {k : κ} (hstep : raceStep r (.store k) = some r') (hc : r.Coherent) (he : r.Exact) :
    (r'.Exact ↔ Untorn r (.store k)) ∧ (r'.Exact → r'.Coherent) := by
  simp only [raceStep] at hstep
  split at hstep
  · next s w hk =>
    cases hstep
    have hiff := kill_exact_iff hc he hk
    have huntorn : Untorn r (.store k) ↔ Fresh r s w := by
      simp only [Untorn, hk]
    rw [huntorn, ← hiff]
    refine ⟨Iff.rfl, fun hexact => ?_⟩
    have hfresh : Fresh r s w := hiff.mp hexact
    have hlock : r.lock = some k := hc.lock k (by rw [hk]; nofun)
    obtain ⟨hlocks, hloaded⟩ := killers_update (.stored s) r.lock (fun _ => False)
      (fun k' hne => hc.others (.inl hlock) hne) (fun _ => hlock) nofun
    refine ⟨hc.returns, hlocks, fun k' s' w' hk' => (hloaded k' s' w' hk').elim, fun s' w' k' hstore t ht => ?_⟩
    · dsimp only [Race.setKiller] at hstore ⊢
      rw [has_untorn_kill hfresh, has_or, has_bit]
      obtain ⟨hw, hp⟩ := hc.cancel s' w' k' hstore t ht
      by_cases hts : t = s
      · simp [hts]
      · simpa [hts] using ⟨hw, hp⟩
  · cases hstep

theorem raceStep_iff (r : Race κ) (l : RaceStep κ) (r' : Race κ) (hstep : raceStep r l = some r')
    (hc : r.Coherent) (he : r.Exact) : (r'.Exact ↔ Untorn r l) ∧ (r'.Exact → r'.Coherent) := by
  cases l with
  | sig => exact raceStep_sig_iff hstep hc he
  | store k => exact raceStep_store_iff hstep hc he
  | resume p =>
    simp only [raceStep] at hstep
    split at hstep
    · cases hstep
      exact ⟨iff_of_true he trivial, fun _ => ⟨trivial, hc.lock, hc.loaded, nofun⟩⟩
    · cases hstep
  | acquire k s =>
    simp only [raceStep] at hstep
    split at hstep
    · next hfree =>
      cases hstep
      obtain ⟨hlocks, hloaded⟩ := killers_update (.found s) (some k) (fun _ => False)
        (fun k' hne => hc.others (.inr hfree.1) hne) (fun _ => rfl) nofun
      exact ⟨iff_of_true he trivial, fun _ =>
        ⟨hc.returns, hlocks, fun k' s' w' hk' => (hloaded k' s' w' hk').elim, hc.cancel⟩⟩
    · cases hstep
  | load k =>
    simp only [raceStep] at hstep
    split at hstep
    · next s hk =>
      cases hstep
      have hlock : r.lock = some k := hc.lock k (by rw [hk]; nofun)
      obtain ⟨hlocks, hloaded⟩ := killers_update (.loaded s r.p.pending) r.lock (· = r.p.pending)
        (fun k' hne => hc.others (.inl hlock) hne) (fun _ => hlock) (fun s' w' h => by cases h; rfl)
      refine ⟨iff_of_true he trivial, fun _ => ⟨hc.returns, hlocks, fun k' s' w' hk' t => ?_, hc.cancel⟩⟩
      obtain rfl := hloaded k' s' w' hk'
      exact ⟨id, .inl⟩
    · cases hstep
  | release k =>
    simp only [raceStep] at hstep
    split at hstep
    · next s hk =>
      cases hstep
      have hlock : r.lock = some k := hc.lock k (by rw [hk]; nofun)
      obtain ⟨hlocks, hloaded⟩ := killers_update .idle none (fun _ => False)
        (fun k' hne => hc.others (.inl hlock) hne) (fun h => absurd rfl h) nofun
      exact ⟨iff_of_true he trivial, fun _ =>
        ⟨hc.returns, hlocks, fun k' s' w' hk' => (hloaded k' s' w' hk').elim, hc.cancel⟩⟩
    · cases hstep

end

/-! ## Whole runs -/

end

/-- One sender, and a target with signal 3 pending and ignored. -/
def ignoring : Race Unit where
  p := { onStack 0x2000 with handlers := fun _ => SIG_IGN }
  pc := .entry
  lock := none
  killers := fun _ => .idle
  handling := none
  sent := bit 3
  kept := bit 3

theorem ignoring_initial : ignoring.Initial := ⟨rfl, rfl, fun _ => rfl, rfl, rfl⟩

/-- The target up to the store that cancels signal 3. -/
def toCancel : List (RaceStep Unit) := List.replicate 9 .sig

/-- A whole `kill(pid, s)`. -/
def sendSignal (s : Sig) : List (RaceStep Unit) :=
  [.acquire () s, .load (), .store (), .release ()]

/-- Signal 5 is sent before the pass, signal 3 again after it has been cancelled, and signal 5 again
when the pass is about to look at it; the pass cancels it. -/
def sentBetween : List (RaceStep Unit) :=
  sendSignal 5 ++ toCancel ++ [.sig] ++ sendSignal 3 ++ [.sig, .sig] ++ sendSignal 5 ++ List.replicate 7 .sig

end Xv6
