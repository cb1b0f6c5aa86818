/-
# Xv6.Lib.Owns — places that own the cells of a pool.

`own p b` says that place `p` names cell `b`.  The discipline of an allocator is that a named cell is in
use and is named from one place only.  It survives when names disappear, when a cell that nobody names
gets a name, and when a cell is given back together with its name; those are the three rules.  An
allocator that never takes a cell back is a counter: the cells it has handed out are an interval, and
each of them has its place (`Bump`).
-/
import Mathlib.Tactic.Common

namespace Xv6.Lib

open Function

variable {ι β : Type*}

/-- Named cells are in use, and each is named from one place. -/
structure Owns (used : β → Prop) (own : ι → β → Prop) : Prop where
  used {p : ι} {b : β} : own p b → used b
  inj {p q : ι} {b : β} : own p b → own q b → p = q

namespace Owns

variable {used used' : β → Prop} {own own' : ι → β → Prop} {p : ι} {b : β} (h : Owns used own)
include h

theorem mono (hown : ∀ p b, own' p b → own p b)
    (hused : ∀ p b, own' p b → used b → used' b) : Owns used' own' where
  used hp := hused _ _ hp (h.used (hown _ _ hp))
  inj hp hq := h.inj (hown _ _ hp) (hown _ _ hq)

theorem attach (hb : used b) (hnew : ∀ q, ¬ own q b) : Owns used fun q c => own q c ∨ (q = p ∧ c = b) where
  used hq := by
    rcases hq with hq | ⟨_, rfl⟩
    · exact h.used hq
    · exact hb
  inj hq hr := by
    rcases hq with hq | ⟨rfl, rfl⟩ <;> rcases hr with hr | ⟨rfl, hc⟩
    · exact h.inj hq hr
    · exact absurd (hc ▸ hq) (hnew _)
    · exact absurd hr (hnew _)
    · rfl

theorem free (hp : own p b) : Owns (fun c => used c ∧ c ≠ b) fun q c => own q c ∧ q ≠ p where
  used hq := ⟨h.used hq.1, fun hc => hq.2 (h.inj (hc ▸ hq.1) hp)⟩
  inj hq hr := h.inj hq.1 hr.1

end Owns

/-- Each of the cells from `lo` to `next` has been given to one place; `cell p`
is the cell of place `p`, `0` for none. -/
structure Bump (lo next : ℕ) (cell : ι → ℕ) : Prop where
  pos : 0 < lo
  le : lo ≤ next
  range {p : ι} : cell p ≠ 0 → lo ≤ cell p ∧ cell p < next
  inj {p q : ι} : cell p ≠ 0 → cell p = cell q → p = q
  onto {b : ℕ} : lo ≤ b → b < next → ∃ p, cell p = b

namespace Bump

variable {lo next : ℕ} {cell : ι → ℕ} {p : ι}

theorem start (hlo : 0 < lo) (hcell : ∀ p, cell p = 0) : Bump lo lo cell where
  pos := hlo
  le := Nat.le_refl lo
  range hp := absurd (hcell _) hp
  inj hp := absurd (hcell _) hp
  onto hle hlt := absurd hlt (Nat.not_lt.mpr hle)

theorem next_ne_zero (h : Bump lo next cell) : next ≠ 0 := Nat.pos_iff_ne_zero.mp (Nat.lt_of_lt_of_le h.pos h.le)

theorem alloc [DecidableEq ι] (h : Bump lo next cell) (hp : cell p = 0) :
    Bump lo (next + 1) (Function.update cell p next) where
  pos := h.pos
  le := Nat.le_succ_of_le h.le
  range {q} hq := by
    by_cases hqp : q = p
    · subst hqp
      rw [update_self]
      exact ⟨h.le, Nat.lt_succ_self next⟩
    · rw [update_of_ne hqp] at hq ⊢
      exact ⟨(h.range hq).1, Nat.lt_succ_of_lt (h.range hq).2⟩
  inj {q r} hq hqr := by
    by_cases hqp : q = p <;> by_cases hrp : r = p
    · exact hqp.trans hrp.symm
    · -- the new cell lies above all others
      rw [hqp, update_self, update_of_ne hrp] at hqr
      have hlt := (h.range (p := r) (by rw [← hqr]; exact h.next_ne_zero)).2
      omega
    · rw [hrp, update_self, update_of_ne hqp] at hqr
      have hlt := (h.range (p := q) (by rw [hqr]; exact h.next_ne_zero)).2
      omega
    · rw [update_of_ne hqp] at hq hqr
      rw [update_of_ne hrp] at hqr
      exact h.inj hq hqr
  onto {b} hle hlt := by
    by_cases hb : b = next
    · exact ⟨p, by rw [update_self, hb]⟩
    obtain ⟨q, hq⟩ := h.onto hle (by omega)
    have hqp : q ≠ p := by
      rintro rfl
      have hpos := h.pos
      omega
    exact ⟨q, by rw [update_of_ne hqp, hq]⟩

end Bump

end Xv6.Lib
