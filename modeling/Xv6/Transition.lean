import Mathlib

/- Runs of a labelled transition system.

   A system is a function `step : σ → Λ → Option σ`: the label says which part
   of the system moves and resolves its choices, and `none` means that this move
   is not possible. A run is a list of labels. Two ways to look at one:
   `Along` is a condition on its steps, each with the state it starts from, and
   `Always` a property of the states it goes through. -/
namespace Transition

variable {σ Λ : Type} (step : σ → Λ → Option σ)

/-- The state after the labels, if every move was possible. -/
def run : σ → List Λ → Option σ
  | s, [] => some s
  | s, l :: ls => (step s l).bind fun s' => run s' ls

/-- Every step of the run meets `C`. -/
def Along (C : σ → Λ → Prop) : σ → List Λ → Prop
  | _, [] => True
  | s, l :: ls => C s l ∧ ∀ s', step s l = some s' → Along C s' ls

/-- Every state of the run satisfies `P`. -/
def Always (P : σ → Prop) : σ → List Λ → Prop
  | s, [] => P s
  | s, l :: ls => P s ∧ ∀ s', step s l = some s' → Always P s' ls

variable {step}

theorem run_cons {s s' : σ} {l : Λ} {ls : List Λ} :
    run step s (l :: ls) = some s' ↔ ∃ t, step s l = some t ∧ run step t ls = some s' := by
  rw [run, Option.bind_eq_some_iff]

theorem along_cons {C : σ → Λ → Prop} {s s' : σ} {l : Λ} {ls : List Λ} (h : step s l = some s') :
    Along step C s (l :: ls) ↔ C s l ∧ Along step C s' ls := by
  constructor
  · intro ⟨hl, hls⟩
    exact ⟨hl, hls s' h⟩
  · intro ⟨hl, hls⟩
    refine ⟨hl, fun t ht => ?_⟩
    cases h.symm.trans ht
    exact hls

theorem along_of_mem {C : σ → Λ → Prop} {ls : List Λ} (h : ∀ l ∈ ls, ∀ s, C s l) (s : σ) : Along step C s ls := by
  induction ls generalizing s with
  | nil => trivial
  | cons l ls ih =>
    have hl := List.forall_mem_cons.mp h
    exact ⟨hl.1 s, fun s' _ => ih hl.2 s'⟩

theorem along_of_forall {C : σ → Λ → Prop} (h : ∀ s l, C s l) (s : σ) (ls : List Λ) : Along step C s ls :=
  along_of_mem (fun l _ s => h s l) s

/-- A condition that can be tested can be tested along a run. -/
instance Along.decidable {C : σ → Λ → Prop} [∀ s l, Decidable (C s l)] :
    (s : σ) → (ls : List Λ) → Decidable (Along step C s ls)
  | _, [] => isTrue trivial
  | s, l :: ls =>
    match h : step s l with
    | some s' =>
      have : Decidable (Along step C s' ls) := Along.decidable s' ls
      decidable_of_iff (C s l ∧ Along step C s' ls) (along_cons h).symm
    | none =>
      decidable_of_iff (C s l) ⟨fun hl => ⟨hl, fun _ h' => nomatch h.symm.trans h'⟩, fun h => h.1⟩

/-- An invariant that every step meeting `C` preserves holds after every run
whose steps all meet it. -/
theorem run_invariant (Inv : σ → Prop) {C : σ → Λ → Prop}
    (hstep : ∀ s l s', Inv s → C s l → step s l = some s' → Inv s') {s s' : σ} {ls : List Λ}
    (h0 : Inv s) (hC : Along step C s ls) (hrun : run step s ls = some s') : Inv s' := by
  induction ls generalizing s with
  | nil =>
    cases hrun
    exact h0
  | cons l ls ih =>
    obtain ⟨t, ht, hrest⟩ := run_cons.mp hrun
    exact ih (hstep s l t h0 hC.1 ht) (hC.2 t ht) hrest

/-- Every state of such a run satisfies what the invariant says, and every step what it says of
the steps from a state. -/
theorem always_of_invariant (Inv : σ → Prop) {C D : σ → Λ → Prop} {P : σ → Prop}
    (hstep : ∀ s l s', Inv s → C s l → step s l = some s' → Inv s') (hP : ∀ s, Inv s → P s)
    (hD : ∀ s l, Inv s → C s l → D s l) {s : σ} {ls : List Λ} (h0 : Inv s)
    (hC : Along step C s ls) : Always step P s ls ∧ Along step D s ls := by
  induction ls generalizing s with
  | nil => exact ⟨hP s h0, trivial⟩
  | cons l ls ih =>
    have hnext : ∀ s', step s l = some s' → Always step P s' ls ∧ Along step D s' ls :=
      fun s' hs' => ih (hstep s l s' h0 hC.1 hs') (hC.2 s' hs')
    exact ⟨⟨hP s h0, fun s' hs' => (hnext s' hs').1⟩, hD s l h0 hC.1, fun s' hs' => (hnext s' hs').2⟩

/-- What follows from an invariant of the system holds in every state of a run. -/
theorem always_of_inductive (Inv : σ → Prop) {P : σ → Prop}
    (hstep : ∀ s l s', Inv s → step s l = some s' → Inv s') (hP : ∀ s, Inv s → P s) {s : σ} (h0 : Inv s)
    (ls : List Λ) : Always step P s ls :=
  (always_of_invariant Inv (C := fun _ _ => True) (D := fun _ _ => True) (fun s l s' hs _ => hstep s l s' hs) hP
    (fun _ _ _ _ => trivial) h0 (along_of_forall (fun _ _ => trivial) s ls)).1

/-- If, where `I` holds, a step from a good state leads to a good state exactly when it meets `C`, and
then keeps `I`, a run from there stays good exactly when all its steps meet `C`. -/
theorem always_iff_along (I : σ → Prop) {P : σ → Prop} {C : σ → Λ → Prop}
    (hstep : ∀ s l s', step s l = some s' → I s → P s → (P s' ↔ C s l) ∧ (P s' → I s')) {s s' : σ}
    {ls : List Λ} (hI : I s) (h0 : P s) (hrun : run step s ls = some s') :
    Always step P s ls ↔ Along step C s ls := by
  induction ls generalizing s with
  | nil => exact ⟨fun _ => trivial, fun _ => h0⟩
  | cons l ls ih =>
    obtain ⟨t, ht, hrest⟩ := run_cons.mp hrun
    obtain ⟨hgood, hkeeps⟩ := hstep s l t ht hI h0
    have hnext : ∀ {Q : σ → Prop}, (∀ u, step s l = some u → Q u) ↔ Q t := by
      intro Q
      constructor
      · intro h
        exact h t ht
      · intro h u hu
        cases ht.symm.trans hu
        exact h
    have hhead : ∀ {ks : List Λ}, Always step P t ks → P t := by
      intro ks h
      cases ks with
      | nil => exact h
      | cons => exact h.1
    simp only [Always, Along, hnext, h0, true_and]
    constructor
    · intro h
      exact ⟨hgood.mp (hhead h), (ih (hkeeps (hhead h)) (hhead h) hrest).mp h⟩
    · intro ⟨hl, h⟩
      have hP := hgood.mpr hl
      exact (ih (hkeeps hP) hP hrest).mpr h

end Transition
