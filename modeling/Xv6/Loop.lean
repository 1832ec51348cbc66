import Mathlib

/- Counting loops.

   `for(i = 0; i < n; i++)` with a bound that the body does not change is a fold
   over `List.range n`. One rule carries every proof about such a loop: an
   invariant that speaks of how many rounds are done. -/
namespace Loop

variable {σ : Type}

/-- The state after `n` rounds of a counting loop. -/
def count (n : Nat) (body : σ → Nat → σ) (s : σ) : σ := (List.range n).foldl body s

theorem count_zero (body : σ → Nat → σ) (s : σ) : count 0 body s = s := rfl

theorem count_succ (n : Nat) (body : σ → Nat → σ) (s : σ) :
    count (n + 1) body s = body (count n body s) n := by
  simp [count, List.range_succ]

/-- An invariant of the rounds holds after the loop. -/
theorem count_invariant {n : Nat} {body : σ → Nat → σ} {s : σ} (Inv : Nat → σ → Prop)
    (h0 : Inv 0 s) (hstep : ∀ i < n, ∀ t, Inv i t → Inv (i + 1) (body t i)) :
    Inv n (count n body s) := by
  induction n with
  | zero => exact h0
  | succ n ih =>
    rw [count_succ]
    exact hstep n (Nat.lt_succ_self n) _ (ih fun i hi => hstep i (Nat.lt_succ_of_lt hi))

end Loop
