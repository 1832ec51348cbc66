import Mathlib

/- The paths through a piece of code, as far as its actions go.

   A `Cmd` is the control-flow skeleton of a function: the actions of interest in
   the order in which the code performs them, with every branch (`alt`) and every
   number of loop iterations (`star`) left open. It runs one step at a time on a
   stack of the commands still to do (`next` for control, the action itself where
   one is at the head), so that other parts of a system can act in between.

   Two analyses over all paths, each with the rule that carries it along a run:

   1. `check`: actions consume and produce a resource; on every path the code
      takes `r` to the same end (`checkAll_next`, `checkAll_act`).
   2. `orderly`: on no path does a read come after a write (`orderlyAll_next`,
      `orderlyAll_act`). -/
namespace Paths

/-- The skeleton of a piece of code over the actions `α`. -/
inductive Cmd (α : Type) where
  | skip
  | act (a : α)
  | seq (c d : Cmd α)
  | alt (c d : Cmd α)
  | star (c : Cmd α)

variable {α ρ : Type}

def Cmd.block : List (Cmd α) → Cmd α
  | [] => .skip
  | c :: cs => .seq c (block cs)

/-- `if (..) c`. -/
def Cmd.opt (c : Cmd α) : Cmd α := .alt .skip c

/-- A control step: `b` picks the branch, or goes round the loop. There is none
at an action and at the end. -/
def next : List (Cmd α) → Bool → Option (List (Cmd α))
  | .skip :: k, _ => some k
  | .seq c d :: k, _ => some (c :: d :: k)
  | .alt c d :: k, b => some ((if b then c else d) :: k)
  | .star c :: k, b => some (if b then c :: .star c :: k else k)
  | .act _ :: _, _ => none
  | [], _ => none

/-! ## Resources -/

section Resources

variable [DecidableEq ρ] (use : α → ρ → Option ρ)

/-- What every path of the command makes of `r`, if they agree and none fails. -/
def check : Cmd α → ρ → Option ρ
  | .skip, r => some r
  | .act a, r => use a r
  | .seq c d, r => (check c r).bind (check d)
  | .alt c d, r =>
    (check c r).bind fun x => (check d r).bind fun y => if x = y then some x else none
  | .star c, r => (check c r).bind fun x => if x = r then some r else none

/-- The same for the commands still to do. -/
def checkAll : List (Cmd α) → ρ → Option ρ
  | [], r => some r
  | c :: k, r => (check use c r).bind (checkAll k)

variable {use}

theorem check_alt_eq_some {c d : Cmd α} {r e : ρ} :
    check use (.alt c d) r = some e ↔ check use c r = some e ∧ check use d r = some e := by
  simp only [check, Option.bind_eq_some_iff]
  constructor
  · intro ⟨x, hx, y, hy, hxy⟩
    split at hxy
    · next heq =>
      cases hxy
      exact ⟨hx, heq ▸ hy⟩
    · cases hxy
  · intro ⟨hc, hd⟩
    exact ⟨e, hc, e, hd, if_pos rfl⟩

theorem check_star_eq_some {c : Cmd α} {r e : ρ} :
    check use (.star c) r = some e ↔ check use c r = some r ∧ e = r := by
  simp only [check, Option.bind_eq_some_iff]
  constructor
  · intro ⟨x, hx, hxr⟩
    split at hxr
    · next heq =>
      cases hxr
      exact ⟨heq ▸ hx, rfl⟩
    · cases hxr
  · intro ⟨hc, he⟩
    exact ⟨r, hc, by rw [if_pos rfl, he]⟩

@[simp] theorem check_skip (r : ρ) : check use .skip r = some r := rfl

@[simp] theorem check_act (a : α) (r : ρ) : check use (.act a) r = use a r := rfl

@[simp] theorem check_block_nil (r : ρ) : check use (.block []) r = some r := rfl

@[simp] theorem check_block_cons (c : Cmd α) (cs : List (Cmd α)) (r : ρ) :
    check use (.block (c :: cs)) r = (check use c r).bind (check use (.block cs)) := rfl

/-- Two branches that agree. -/
@[simp] theorem check_alt (c d : Cmd α) (r : ρ) : check use (.alt c d) r =
    (check use c r).bind fun x => (check use d r).bind fun y => if x = y then some x else none :=
  rfl

/-- What keeps the resources may be left out, and done any number of times. -/
@[simp] theorem check_opt {c : Cmd α} {r : ρ} (h : check use c r = some r) :
    check use (.opt c) r = some r := by
  simp [Cmd.opt, h]

@[simp] theorem check_star {c : Cmd α} {r : ρ} (h : check use c r = some r) :
    check use (.star c) r = some r :=
  check_star_eq_some.mpr ⟨h, rfl⟩

/-- Control steps do not change where the paths lead. -/
theorem checkAll_next {k k' : List (Cmd α)} {b : Bool} {r e : ρ} (hn : next k b = some k')
    (h : checkAll use k r = some e) : checkAll use k' r = some e := by
  cases k with
  | nil => cases hn
  | cons c k =>
    obtain ⟨m, hc, hk⟩ := Option.bind_eq_some_iff.mp h
    cases c with
    | skip =>
      cases hn
      cases hc
      exact hk
    | act a => cases hn
    | seq c d =>
      cases hn
      obtain ⟨m', hc, hd⟩ := Option.bind_eq_some_iff.mp hc
      simp only [checkAll, hc, hd, Option.bind_some, hk]
    | alt c d =>
      obtain ⟨hc, hd⟩ := check_alt_eq_some.mp hc
      cases hn
      cases b
      · simpa [checkAll, hd] using hk
      · simpa [checkAll, hc] using hk
    | star c =>
      have hstar := hc
      obtain ⟨hc, rfl⟩ := check_star_eq_some.mp hc
      cases hn
      cases b
      · exact hk
      · simp only [if_true, checkAll, hc, hstar, Option.bind_some, hk]

/-- An action performs what it was checked for. -/
theorem checkAll_act {k : List (Cmd α)} {a : α} {r e : ρ}
    (h : checkAll use (.act a :: k) r = some e) :
    ∃ r', use a r = some r' ∧ checkAll use k r' = some e :=
  Option.bind_eq_some_iff.mp h

end Resources

/-! ## Reads before writes -/

section Order

def uses (q : α → Bool) : Cmd α → Bool
  | .skip => false
  | .act a => q a
  | .seq c d => uses q c || uses q d
  | .alt c d => uses q c || uses q d
  | .star c => uses q c

variable (rd wr : α → Bool)

/-- On no path of the command does a read follow a write. -/
def orderly : Cmd α → Bool
  | .skip => true
  | .act _ => true
  | .seq c d => orderly c && orderly d && !(uses wr c && uses rd d)
  | .alt c d => orderly c && orderly d
  | .star c => orderly c && !(uses wr c && uses rd c)

/-- The same for the commands still to do. -/
def orderlyAll : List (Cmd α) → Bool
  | [] => true
  | c :: k => orderly rd wr c && orderlyAll k && !(uses wr c && k.any (uses rd))

variable {rd wr}

theorem orderlyAll_next {k k' : List (Cmd α)} {b : Bool} (hn : next k b = some k')
    (h : orderlyAll rd wr k = true) : orderlyAll rd wr k' = true := by
  cases k with
  | nil => cases hn
  | cons c k =>
    cases c with
    | skip => cases hn; simp_all [orderlyAll]
    | act a => cases hn
    | seq c d => cases hn; simp_all [orderlyAll, orderly, uses]; grind
    | alt c d => cases hn; cases b <;> simp_all [orderlyAll, orderly, uses] <;> grind
    | star c => cases hn; cases b <;> simp_all [orderlyAll, orderly, uses]; grind

/-- A control step gives no new reads to come. -/
theorem any_uses_next {q : α → Bool} {k k' : List (Cmd α)} {b : Bool} (hn : next k b = some k')
    (h : k'.any (uses q) = true) : k.any (uses q) = true := by
  cases k with
  | nil => cases hn
  | cons c k =>
    cases c with
    | skip => cases hn; simp_all [uses]
    | act a => cases hn
    | seq c d => cases hn; simp_all [uses]; grind
    | alt c d => cases hn; cases b <;> simp_all [uses] <;> grind
    | star c => cases hn; cases b <;> simp_all [uses]

/-- After a write no read is left to do. -/
theorem orderlyAll_act {k : List (Cmd α)} {a : α} (h : orderlyAll rd wr (.act a :: k) = true) :
    orderlyAll rd wr k = true ∧ (wr a = true → k.any (uses rd) = false) := by
  simp only [orderlyAll, orderly, uses, Bool.true_and, Bool.and_eq_true, Bool.not_eq_true'] at h
  refine ⟨h.1, fun hw => ?_⟩
  simpa [hw] using h.2

end Order

end Paths
