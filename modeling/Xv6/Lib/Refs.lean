/-
# Xv6.Lib.Refs — reference counts that cover what is owed.

A table of counts `ref` and, on the side, how many references to each place are held by somebody
(`owed`).  The code only has the counts; an object is safe from being recycled while its count covers
what is owed.  The relation is an inequality, because code that forgets a reference leaves a count too
high and harms nobody.
-/
import Mathlib.Algebra.Group.Pi.Basic
import Mathlib.Algebra.Order.Ring.Int
import Mathlib.Tactic.Common

namespace Xv6.Lib

open Function

variable {ι : Type*}

/-- No place is owed more references than it counts. -/
def Covers (ref : ι → Int) (owed : ι → Nat) : Prop := ∀ i, (owed i : Int) ≤ ref i

variable {ref : ι → Int} {owed owed' : ι → Nat} {i : ι}

namespace Covers

theorem mono (h : Covers ref owed) (hle : ∀ i, owed' i ≤ owed i) : Covers ref owed' := fun i =>
  Int.le_trans (Int.ofNat_le.mpr (hle i)) (h i)

theorem pos (h : Covers ref owed) (hi : 0 < owed i) : 0 < ref i := by
  have := h i
  omega

variable [DecidableEq ι]

theorem acquire (h : Covers ref owed) (i : ι) : Covers (update ref i (ref i + 1)) (owed + Pi.single i 1) := by
  intro j
  have hj := h j
  by_cases hji : j = i
  · subst hji
    simp only [Pi.add_apply, Pi.single_eq_same, update_self]
    omega
  · simpa [hji] using hj

theorem release (h : Covers ref (owed + Pi.single i 1)) : Covers (update ref i (ref i - 1)) owed := by
  intro j
  have hj := h j
  by_cases hji : j = i
  · subst hji
    simp only [Pi.add_apply, Pi.single_eq_same] at hj
    rw [update_self]
    omega
  · simpa [hji] using hj

/-- A reference that is forgotten stays covered. -/
theorem drop (h : Covers ref (owed + Pi.single i 1)) : Covers ref owed := h.mono fun _ => Nat.le_add_right _ _

end Covers

end Xv6.Lib
