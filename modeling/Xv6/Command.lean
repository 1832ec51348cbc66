import Mathlib

/- Commands on a state that can fail, and their weakest preconditions.

   A command is a function from a state to a result and a new state, or to an error.
   `wp m Q E s` says what `m` does from `s`: if it returns, `Q` holds of its result
   and the new state, and if it fails, `E` holds of the error. With `E` false this is
   total correctness, with `E` true partial correctness; an `E` in between says which
   errors can happen.

   The rules are equations for the ways to build a command, a rule of consequence,
   and an invariant rule for loops over a list.

   To say what a command never does, it is compared with one that fails if that is
   done (`Within`): when the second one returns, the first has not done it. -/
namespace Command

def Cmd (σ ε α : Type) : Type := σ → Except ε (α × σ)

variable {σ ε α β : Type}

instance : Monad (Cmd σ ε) where
  pure a := fun s => .ok (a, s)
  bind m f := fun s =>
    match m s with
    | .ok (a, t) => f a t
    | .error e => .error e

def gets (f : σ → α) : Cmd σ ε α := fun s => .ok (f s, s)

def modify (f : σ → σ) : Cmd σ ε Unit := fun s => .ok ((), f s)

def fail (e : ε) : Cmd σ ε α := fun _ => .error e

/-- `f` for each element, in turn. -/
def each (f : α → Cmd σ ε Unit) : List α → Cmd σ ε Unit
  | [] => pure ()
  | a :: l => do
    f a
    each f l

def errorOf (m : Cmd σ ε α) (s : σ) : Option ε :=
  match m s with
  | .ok _ => none
  | .error e => some e

def wp (m : Cmd σ ε α) (Q : α → σ → Prop) (E : ε → Prop) (s : σ) : Prop :=
  match m s with
  | .ok (a, t) => Q a t
  | .error e => E e

variable {m : Cmd σ ε α} {f : α → Cmd σ ε β} {Q Q' : α → σ → Prop} {E E' : ε → Prop} {s t : σ}

theorem eq_error_iff {e : ε} : m s = .error e ↔ errorOf m s = some e := by
  unfold errorOf
  cases m s <;> simp

theorem wp_ok {a : α} (h : wp m Q E s) (hm : m s = .ok (a, t)) : Q a t := by
  rwa [wp, hm] at h

theorem wp_error {e : ε} (h : wp m Q E s) (hm : m s = .error e) : E e := by
  rw [wp, hm] at h
  exact h

/-- A command that cannot fail returns. -/
theorem wp_total (h : wp m Q (fun _ => False) s) : ∃ a t, m s = .ok (a, t) ∧ Q a t := by
  unfold wp at h
  split at h
  · next a t hm => exact ⟨a, t, hm, h⟩
  · exact h.elim

theorem eq_error_of_wp {e : ε} (h : wp m (fun _ _ => False) (· = e) s) : m s = .error e := by
  unfold wp at h
  split at h
  · exact h.elim
  · next hm => rw [hm, h]

theorem wp_trivial : wp m (fun _ _ => True) (fun _ => True) s := by
  unfold wp
  split <;> trivial

theorem wp_mono (h : wp m Q E s) (hQ : ∀ a t, Q a t → Q' a t) (hE : ∀ e, E e → E' e) :
    wp m Q' E' s := by
  unfold wp at *
  split
  · rename_i a t hm
    rw [hm] at h
    exact hQ a t h
  · rename_i e hm
    rw [hm] at h
    exact hE e h

/-- The rule of consequence for the result alone. -/
theorem wp_imp (h : wp m Q E s) (hQ : ∀ a t, Q a t → Q' a t) : wp m Q' E s :=
  wp_mono h hQ fun _ => id

theorem wp_congr (h : ∀ a t, Q a t ↔ Q' a t) : wp m Q E s ↔ wp m Q' E s :=
  ⟨fun hm => wp_imp hm fun a t => (h a t).mp, fun hm => wp_imp hm fun a t => (h a t).mpr⟩

/-- Two things known of a command hold together. -/
theorem wp_and (h : wp m Q E s) (h' : wp m Q' E' s) :
    wp m (fun a t => Q a t ∧ Q' a t) (fun e => E e ∧ E' e) s := by
  unfold wp at *
  split at h <;> rename_i hm <;> rw [hm] at h' <;> exact ⟨h, h'⟩

/-- What a command returns is what it was run for. -/
theorem wp_run (h : wp m Q E s) : wp m (fun a t => m s = .ok (a, t) ∧ Q a t) E s := by
  unfold wp at *
  split at h
  · next hm => exact ⟨hm, h⟩
  · exact h

@[simp] theorem wp_pure {a : α} : wp (pure a) Q E s ↔ Q a s := Iff.rfl

@[simp] theorem wp_bind {Q : β → σ → Prop} :
    wp (m >>= f) Q E s ↔ wp m (fun a t => wp (f a) Q E t) E s := by
  change (match (match m s with | .ok (a, t) => f a t | .error e => .error e) with
    | .ok (b, t) => Q b t | .error e => E e) ↔ _
  unfold wp
  cases m s <;> rfl

@[simp] theorem wp_gets {f : σ → α} : wp (gets f) Q E s ↔ Q (f s) s := Iff.rfl

@[simp] theorem wp_modify {f : σ → σ} {Q : Unit → σ → Prop} : wp (modify f) Q E s ↔ Q () (f s) :=
  Iff.rfl

@[simp] theorem wp_fail {e : ε} : wp (fail e) Q E s ↔ E e := Iff.rfl

theorem wp_ite {c : Prop} [Decidable c] {m₁ m₂ : Cmd σ ε α} :
    wp (if c then m₁ else m₂) Q E s ↔ (c → wp m₁ Q E s) ∧ (¬c → wp m₂ Q E s) := by
  by_cases hc : c <;> simp [hc]

/-- A loop over a list: the invariant speaks of what is left to do. -/
theorem wp_each {f : α → Cmd σ ε Unit} (Inv : List α → σ → Prop) {l : List α}
    (hstep : ∀ a rest t, a ∈ l → Inv (a :: rest) t → wp (f a) (fun _ => Inv rest) E t)
    (h0 : Inv l s) : wp (each f l) (fun _ => Inv []) E s := by
  induction l generalizing s with
  | nil => exact h0
  | cons a l ih =>
    rw [each, wp_bind]
    refine wp_imp (hstep a l s (List.mem_cons_self ..) h0) fun _ t ht => ?_
    exact ih (fun b rest u hb => hstep b rest u (List.mem_cons_of_mem _ hb)) ht

/-! Commands that fail more often. -/

/-- Where `m` returns, `m'` does the same. -/
def Within (m m' : Cmd σ ε α) : Prop := ∀ s a t, m s = .ok (a, t) → m' s = .ok (a, t)

/-- `m`, but `e` if what it has done is not `ok`. -/
noncomputable def watch (ok : σ → σ → Prop) (e : ε) (m : Cmd σ ε α) : Cmd σ ε α := fun s =>
  match m s with
  | .ok (a, t) => open Classical in if ok s t then .ok (a, t) else .error e
  | .error e => .error e

variable {m' : Cmd σ ε α} {f' : α → Cmd σ ε β} {ok : σ → σ → Prop} {e : ε}

theorem Within.refl : Within m m := fun _ _ _ => id

theorem Within.fail : Within (fail e) m := nofun

theorem Within.bind (hm : Within m m') (hf : ∀ a, Within (f a) (f' a)) : Within (m >>= f) (m' >>= f') := by
  intro s b u h
  change (match m s with | .ok (a, t) => f a t | .error e => .error e) = _ at h
  change (match m' s with | .ok (a, t) => f' a t | .error e => .error e) = _
  cases hms : m s with
  | error e =>
    rw [hms] at h
    exact nomatch h
  | ok r =>
    rw [hms] at h
    rw [hm s r.1 r.2 hms]
    exact hf r.1 r.2 b u h

theorem Within.ite {c : Prop} [Decidable c] {m₁ m₂ m₁' m₂' : Cmd σ ε α} (h₁ : Within m₁ m₁') (h₂ : Within m₂ m₂') :
    Within (if c then m₁ else m₂) (if c then m₁' else m₂') := by
  by_cases hc : c
  · rwa [if_pos hc, if_pos hc]
  · rwa [if_neg hc, if_neg hc]

theorem Within.eq (h : Within m m') (hm : wp m Q (fun _ => False) s) : m s = m' s := by
  obtain ⟨a, t, hrun, -⟩ := wp_total hm
  rw [hrun, h s a t hrun]

theorem Within.wp (h : Within m m') (hm : wp m Q (fun _ => False) s) : wp m' Q (fun _ => False) s := by
  rwa [Command.wp, ← h.eq hm]

theorem watch_within : Within (watch ok e m) m := by
  intro s a t h
  rw [watch] at h
  cases hms : m s with
  | error e => rwa [hms] at h
  | ok r =>
    rw [hms] at h
    dsimp only at h
    split at h
    · exact h
    · exact nomatch h

theorem wp_watch (h : wp m (fun a t => ok s t ∧ Q a t) E s) : wp (watch ok e m) Q E s := by
  unfold wp watch at *
  cases hms : m s with
  | error e => rwa [hms] at h
  | ok r =>
    rw [hms] at h
    dsimp only
    rw [if_pos h.1]
    exact h.2

end Command
