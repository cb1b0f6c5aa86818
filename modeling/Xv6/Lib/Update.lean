/-
# Xv6.Lib.Update — a table through one assignment.

`Function.update f a v` is the table `f` with `v` written at `a`.  What holds of the value that is
written, and of every other place as it was, holds of the new table.
-/
import Mathlib.Logic.Function.Basic

namespace Xv6.Lib

open Function

variable {α β γ : Type*} [DecidableEq α] {f : α → β} {a : α} {v : β} {b : α} {w : β}

/-- **The rule of assignment**: a place of the new table is the one that was written, or is as it was. -/
@[elab_as_elim]
theorem update_cases {motive : α → β → Prop} (self : motive a v) (other : ∀ b, b ≠ a → motive b (f b)) (b : α) :
    motive b (update f a v b) :=
  (forall_update_iff f fun b w => motive b w).mpr ⟨self, other⟩ b

theorem update_same (g : β → γ) (h : g v = g (f a)) (b : α) : g (update f a v b) = g (f b) :=
  update_cases h (fun _ _ => rfl) b

/-- An entry of the new table is the one that was written, or an old one of another place. -/
theorem update_eq_some {f : α → Option β} (h : update f a (some v) b = some w) :
    b = a ∧ v = w ∨ b ≠ a ∧ f b = some w := by
  revert h
  refine update_cases (fun h => ?_) (fun b hb h => ?_) b
  · exact .inl ⟨rfl, Option.some.inj h⟩
  · exact .inr ⟨hb, h⟩

theorem of_update_none {f : α → Option β} (h : update f a none b = some w) : f b = some w := by
  revert h
  exact update_cases (fun h => (by cases h)) (fun _ _ => id) b

end Xv6.Lib
