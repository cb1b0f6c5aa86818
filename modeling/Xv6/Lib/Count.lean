/-
# Xv6.Lib.Count — counting the places of a table that have a property, through one assignment.

Counters kept next to a table (of references, of operations, of processes) are compared with the
table itself; this is the one step such a comparison needs.
-/
import Mathlib.Algebra.BigOperators.Group.Finset.Piecewise
import Mathlib.Data.Fintype.Card

namespace Xv6.Lib

open Function Finset

variable {ι α : Type*} [Fintype ι]

/-- How many places of the table `f` have `P`. -/
def count (P : α → Prop) [DecidablePred P] (f : ι → α) : Nat := (Finset.univ.filter fun i => P (f i)).card

variable {P : α → Prop} [DecidablePred P] {f : ι → α}

theorem count_le_card : count P f ≤ Fintype.card ι := card_le_univ _

theorem count_eq_zero : count P f = 0 ↔ ∀ i, ¬ P (f i) := by simp [count, filter_eq_empty_iff]

theorem count_congr {β : Type*} {Q : β → Prop} [DecidablePred Q] {g : ι → β}
    (h : ∀ i, P (f i) ↔ Q (g i)) : count P f = count Q g := by
  simp only [count, h]

variable [DecidableEq ι]

theorem sum_add_eq {f g : ι → Nat} (i : ι) (h : ∀ j, j ≠ i → g j = f j) : ∑ j, g j + f i = ∑ j, f j + g i := by
  have hrest : ∑ j ∈ univ.erase i, g j = ∑ j ∈ univ.erase i, f j :=
    Finset.sum_congr rfl fun j hj => h j (ne_of_mem_erase hj)
  rw [← add_sum_erase _ f (Finset.mem_univ i), ← add_sum_erase _ g (Finset.mem_univ i), hrest]
  omega

/-- **One assignment**: what leaves the count and what enters it. -/
theorem count_update (i : ι) (x : α) :
    count P (Function.update f i x) + (if P (f i) then 1 else 0) = count P f + if P x then 1 else 0 := by
  have hsum := sum_add_eq (f := fun j => if P (f j) then 1 else 0)
    (g := fun j => if P (Function.update f i x j) then 1 else 0) i fun j hj => by
      rw [update_of_ne hj]
  rw [update_self] at hsum
  rw [count, count, card_filter, card_filter]
  exact hsum

end Xv6.Lib
