import Mathlib

/- Counting pointers.

   A table `p : ι → Option κ` holds at each place a pointer or none. `tally p` says how
   many places point to each target. The one rule is for an update of the table: what
   was there is counted no more, what is there now is. -/
namespace Tally
open Function

variable {ι κ : Type} [DecidableEq κ]

def point : Option κ → κ → Int
  | none => 0
  | some k => Pi.single k 1

@[simp] theorem point_none : point (none : Option κ) = 0 := rfl

@[simp] theorem point_some (k : κ) : point (some k) = Pi.single k 1 := rfl

theorem point_apply (o : Option κ) (k : κ) : point o k = if o = some k then 1 else 0 := by
  cases o with
  | none => simp
  | some k' => simp [Pi.single_apply, eq_comm]

section

variable [Fintype ι]

/-- How many places point to each target. -/
def tally (p : ι → Option κ) : κ → Int := ∑ i, point (p i)

theorem tally_apply (p : ι → Option κ) (k : κ) :
    tally p k = ((Finset.univ.filter fun i => p i = some k).card : Int) := by
  rw [tally, Finset.sum_apply, Finset.card_filter, Nat.cast_sum]
  refine Finset.sum_congr rfl fun i _ => ?_
  rw [point_apply, Nat.cast_ite, Nat.cast_one, Nat.cast_zero]

theorem tally_update [DecidableEq ι] (p : ι → Option κ) (i : ι) (o : Option κ) :
    tally (update p i o) = tally p + (point o - point (p i)) := by
  have hrest : ∑ j ∈ Finset.univ.erase i, point (update p i o j) =
      ∑ j ∈ Finset.univ.erase i, point (p j) := by
    refine Finset.sum_congr rfl fun j hj => ?_
    rw [update_of_ne (Finset.ne_of_mem_erase hj)]
  rw [tally, tally, ← Finset.add_sum_erase _ _ (Finset.mem_univ i), hrest, update_self,
    ← Finset.add_sum_erase _ (fun j => point (p j)) (Finset.mem_univ i)]
  abel

@[simp] theorem tally_none : tally (fun _ : ι => (none : Option κ)) = 0 :=
  Finset.sum_const_zero

theorem tally_nonneg (p : ι → Option κ) : 0 ≤ tally p := by
  intro k
  rw [tally_apply]
  exact Int.natCast_nonneg _

/-- What is pointed to is counted. -/
theorem tally_pos {p : ι → Option κ} {i : ι} {k : κ} (h : p i = some k) : 0 < tally p k := by
  rw [tally_apply]
  exact_mod_cast Finset.card_pos.mpr ⟨i, Finset.mem_filter.mpr ⟨Finset.mem_univ i, h⟩⟩

end

end Tally
