import Mathlib

/- Slots with owners: claims, parents and reapers.

   A table of slots. A slot is unused, being filled, live or dead; every live
   slot but one has a live parent. What a live slot is doing to others is its
   `Role`: it fills a slot it has claimed, passes its children on before it dies,
   looks at a child, or takes a dead child apart.

   `Family` says that these roles do not get in each other's way. The rules are
   the ways they begin, go on and end; each of them changes one slot and the role
   of one. -/
namespace Family

inductive Kind where
  | unused
  | embryo
  | live
  | dead
  deriving DecidableEq

inductive Role (ι : Type) where
  | none
  /-- It fills the slot `j`, and has made it its child or not yet. -/
  | claims (j : ι) (given : Bool)
  /-- It has only the slots `todo` left to look for children in, and is about to pass
  on the first of them. -/
  | exits (todo : List ι) (found : Bool)
  | waits (j : ι)
  /-- It takes its dead child `j` apart, and is its parent still. -/
  | reaps (j : ι) (parent : Bool)

end Family

open Family Function

variable {ι : Type}

/-- Nobody gets in another's way. -/
structure Family (init : ι) (kind : ι → Kind) (parent : ι → Option ι) (role : ι → Role ι) :
    Prop where
  claims : ∀ {i j g}, role i = .claims j g →
    kind j = .embryo ∧ parent j = if g = true then some i else none
  claimed : ∀ {j}, kind j = .embryo → ∃ i g, role i = .claims j g
  claimInj : ∀ {i i' j g g'}, role i = .claims j g → role i' = .claims j g' → i = i'
  exits : ∀ {i js f}, role i = .exits js f → i ≠ init ∧ ∀ j, parent j = some i → j ∈ js
  found : ∀ {i j js}, role i = .exits (j :: js) true → parent j = some i
  waits : ∀ {i j}, role i = .waits j → parent j = some i
  reaps : ∀ {i j p}, role i = .reaps j p →
    kind j = .dead ∧ parent j = if p = true then some i else none
  reapInj : ∀ {i i' j p p'}, role i = .reaps j p → role i' = .reaps j p' → i = i'
  unused : ∀ {j}, kind j = .unused → parent j = none
  idle : ∀ {i}, kind i ≠ .live → role i = .none
  parentLive : ∀ {i j}, parent j = some i → kind i = .live
  parented : ∀ {j}, kind j = .live ∨ kind j = .dead → j ≠ init → parent j = none →
    ∃ i, role i = .reaps j false
  initLive : kind init = .live

namespace Family

variable {init : ι} {kind : ι → Kind} {parent : ι → Option ι} {role : ι → Role ι} {i j : ι}
  {js : List ι}

/-- Only what is alive has a role. -/
theorem live_of_role (h : Family init kind parent role) (hi : role i ≠ .none) : kind i = .live := by
  by_contra hk
  exact hi (h.idle hk)

/-- A child that its parent only looks at is not taken apart. -/
theorem not_reaps_of_waits {p : ι} {given : Bool} (h : Family init kind parent role)
    (hi : role i = .waits j) : role p ≠ .reaps j given := by
  intro hp
  have hparent := (h.reaps hp).2
  rw [h.waits hi] at hparent
  cases given with
  | true =>
    cases hparent
    cases hi.symm.trans hp
  | false => cases hparent

variable [DecidableEq ι]

/-- A role that changes nothing in the table: `i` goes on to one that is true of it. -/
theorem setRole {r : Role ι} (h : Family init kind parent role) (hlive : kind i = .live)
    (hold : ∀ j, role i ≠ .reaps j false) (hkeep : ∀ j g, role i = .claims j g → r = role i)
    (hclaims : ∀ j g, r = .claims j g → role i = r)
    (hexits : ∀ js f, r = .exits js f → i ≠ init ∧ ∀ j, parent j = some i → j ∈ js)
    (hfound : ∀ j js, r = .exits (j :: js) true → parent j = some i)
    (hwaits : ∀ j, r = .waits j → parent j = some i)
    (hreaps : ∀ j p, r = .reaps j p → p = true ∧ kind j = .dead ∧ parent j = some i) :
    Family init kind parent (update role i r) := by
  have h' := h
  cases h'
  constructor
  -- who fills a slot, and who takes it apart, is the same as before
  case claimed =>
    intro k hk
    obtain ⟨w, g, hw⟩ := h.claimed hk
    exact ⟨w, g, by grind⟩
  case parented =>
    intro k hk hki hp
    obtain ⟨w, hw⟩ := h.parented hk hki hp
    have hwi : w ≠ i := by
      intro heq
      rw [heq] at hw
      exact hold k hw
    exact ⟨w, by rw [update_of_ne hwi, hw]⟩
  case reapInj =>
    -- a child has one parent, and a slot without one is not looked at
    intro x y k p p' hx hy
    grind
  all_goals grind

/-- `i` begins to pass its children on. -/
theorem exit (h : Family init kind parent role) (hlive : kind i = .live) (hi : role i = .none)
    (hinit : i ≠ init) (hall : ∀ j, j ∈ js) :
    Family init kind parent (update role i (.exits js false)) := by
  apply h.setRole hlive <;> grind

/-- The next slot is a child of `i`. -/
theorem find (h : Family init kind parent role) (hi : role i = .exits (j :: js) false)
    (hj : parent j = some i) :
    Family init kind parent (update role i (.exits (j :: js) true)) := by
  have hexits := h.exits hi
  apply h.setRole (h.live_of_role (by grind)) <;> grind

/-- The next slot is none. -/
theorem skip (h : Family init kind parent role) (hi : role i = .exits (j :: js) false)
    (hj : parent j ≠ some i) :
    Family init kind parent (update role i (.exits js false)) := by
  have hexits := h.exits hi
  apply h.setRole (h.live_of_role (by grind)) <;> grind

/-- `i` looks at its child `j`. -/
theorem look (h : Family init kind parent role) (hlive : kind i = .live) (hi : role i = .none)
    (hj : parent j = some i) : Family init kind parent (update role i (.waits j)) := by
  apply h.setRole hlive <;> grind

/-- The child is alive. -/
theorem leave (h : Family init kind parent role) (hi : role i = .waits j) :
    Family init kind parent (update role i .none) := by
  apply h.setRole (h.live_of_role (by grind)) <;> grind

/-- The child is dead. -/
theorem reap (h : Family init kind parent role) (hi : role i = .waits j) (hj : kind j = .dead) :
    Family init kind parent (update role i (.reaps j true)) := by
  have hparent := h.waits hi
  apply h.setRole (h.live_of_role (by grind)) <;> grind

/-- `i` claims the unused slot `j`. -/
theorem claim (h : Family init kind parent role) (hlive : kind i = .live) (hi : role i = .none)
    (hj : kind j = .unused) : Family init (update kind j .embryo) parent
      (update role i (.claims j false)) := by
  have hnone := h.unused hj
  have hkids : ∀ k, parent k ≠ some j := by
    intro k hk
    rw [h.parentLive hk] at hj
    cases hj
  have hclaims : ∀ k g, role k ≠ .claims j g := by
    intro k g hk
    rw [(h.claims hk).1] at hj
    cases hj
  have h' := h
  cases h'
  constructor
  case claimed =>
    intro k hk
    by_cases hkj : k = j
    · exact ⟨i, false, by rw [update_self, hkj]⟩
    · obtain ⟨w, g, hw⟩ := h.claimed (j := k) (by grind)
      exact ⟨w, g, by grind⟩
  case parented =>
    -- whoever takes a slot apart still does
    simp only [update_apply]
    grind
  all_goals grind

/-- `i` gives the slot back, or clears that of a dead child. -/
theorem release (h : Family init kind parent role) (hi : role i = .claims j false ∨ role i = .reaps j false) :
    Family init (update kind j .unused) parent (update role i .none) := by
  obtain ⟨hj, hnone⟩ : kind j ≠ .live ∧ parent j = none := by
    rcases hi with hi | hi
    · simp [h.claims hi]
    · simp [h.reaps hi]
  have hkids : ∀ k, parent k ≠ some j := fun k hk => hj (h.parentLive hk)
  cases h
  constructor
  case claimed | parented =>
    simp only [update_apply]
    grind
  all_goals grind

/-- `i` makes the slot its child. -/
theorem give (h : Family init kind parent role) (hlive : kind i = .live)
    (hi : role i = .claims j false) : Family init kind (update parent j (some i))
      (update role i (.claims j true)) := by
  obtain ⟨hj, hnone⟩ := h.claims hi
  cases h
  constructor
  case claimed | parented =>
    simp only [update_apply]
    grind
  all_goals grind

/-- The slot comes to life. -/
theorem publish (h : Family init kind parent role) (hi : role i = .claims j true) :
    Family init (update kind j .live) parent (update role i .none) := by
  obtain ⟨hj, hparent⟩ := h.claims hi
  cases h
  constructor
  case claimed | parented =>
    simp only [update_apply]
    grind
  all_goals grind

/-- `i` passes its child `j` on to `init`. -/
theorem adopt (h : Family init kind parent role) (hi : role i = .exits (j :: js) true) :
    Family init kind (update parent j (some init))
      (update role i (.exits js false)) := by
  have hparent := h.found hi
  cases h
  constructor
  case claimed | parented =>
    simp only [update_apply]
    grind
  all_goals grind

/-- `i` has no children left and dies. -/
theorem die (h : Family init kind parent role) (hi : role i = .exits [] false) :
    Family init (update kind i .dead) parent (update role i .none) := by
  have hlive := h.live_of_role (i := i) (by grind)
  obtain ⟨hinit, hkids⟩ := h.exits hi
  have hnokids : ∀ k, parent k ≠ some i := fun k hk => nomatch hkids k hk
  cases h
  constructor
  case claimed | parented =>
    simp only [update_apply]
    grind
  all_goals grind

/-- The dead child that `i` takes apart loses its parent. -/
theorem orphan (h : Family init kind parent role) (hi : role i = .reaps j true) :
    Family init kind (update parent j none)
      (update role i (.reaps j false)) := by
  obtain ⟨hj, hparent⟩ := h.reaps hi
  cases h
  constructor
  case claimed | parented =>
    simp only [update_apply]
    grind
  all_goals grind

end Family
