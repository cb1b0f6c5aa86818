/-
# Xv6.Lib.Outcome — taking apart a computation that may stop with an error.

A function that can panic is a computation in `Except`.  A sequence returned because both parts
returned; it stopped because the first part stopped, or because the second one did.

`Yields E m Q` is the program logic for such computations: the errors are judged by `E`, the results by
`Q`, and a sequence is proved one part after the other.  `Does E m s Q` is the same for a computation that
also has a state, which is `s` when it starts.
-/
import Mathlib.Tactic.Common

namespace Xv6.Lib

variable {ε : Type*} {α β : Type} {m : Except ε α} {f : α → Except ε β} {e : ε} {a : α} {E' : ε → Prop}
  {g : α → β} {o : Option α}

theorem bind_eq_ok {b : β} : m >>= f = .ok b ↔ ∃ a, m = .ok a ∧ f a = .ok b := by
  cases m with
  | error e | ok a => simp [bind, Except.bind]

theorem bind_eq_error : m >>= f = .error e ↔ m = .error e ∨ ∃ a, m = .ok a ∧ f a = .error e := by
  cases m with
  | error e | ok a => simp [bind, Except.bind]

/-! ## Postconditions -/

/-- `m` returns a result that meets `Q`, or stops with an error that meets `E`. -/
inductive Yields (E : ε → Prop) : Except ε α → (α → Prop) → Prop
  | ret {a : α} {Q : α → Prop} (h : Q a) : Yields E (.ok a) Q
  | stop {e : ε} {Q : α → Prop} (h : E e) : Yields E (.error e) Q

variable {E : ε → Prop} {Q Q' : α → Prop} {R : β → Prop}

namespace Yields

section

variable (h : Yields E m Q)
include h

theorem mono (hQ : ∀ a, Q a → Q' a) : Yields E m Q' := by
  cases h with
  | ret h => exact .ret (hQ _ h)
  | stop h => exact .stop h

theorem ok (hm : m = .ok a) : Q a := by
  subst hm
  cases h with
  | ret h => exact h

/-- The result may be remembered by where it came from. -/
theorem with_eq : Yields E m fun a => m = .ok a ∧ Q a := by
  cases h with
  | ret h => exact .ret ⟨rfl, h⟩
  | stop h => exact .stop h

theorem error (hm : m = .error e) : E e := by
  subst hm
  cases h with
  | stop h => exact h

end

/-- A sequence yields what its second part yields on the results of the first. -/
theorem bind (h : Yields E m fun a => Yields E (f a) R) : Yields E (m >>= f) R := by
  cases h with
  | ret h => exact h
  | stop h => exact .stop h

theorem map (h : Yields E m fun a => R (g a)) : Yields E (g <$> m) R := by
  cases h with
  | ret h => exact .ret h
  | stop h => exact .stop h

theorem ite {c : Prop} [Decidable c] {m' : Except ε α} (h : c → Yields E m Q)
    (h' : ¬ c → Yields E m' Q) : Yields E (if c then m else m') Q := by
  split
  · rename_i hc
    exact h hc
  · rename_i hc
    exact h' hc

theorem weaken (h : Yields E m Q) (hE : ∀ e, E e → E' e) : Yields E' m Q := by
  cases h with
  | ret h => exact .ret h
  | stop h => exact .stop (hE _ h)

end Yields

/-! ## Computations with a state -/

/-- From the state `s`, `m` returns a result and a state that meet `Q`, or stops with an error
that meets `E`. -/
def Does {σ : Type} (E : ε → Prop) (m : StateT σ (Except ε) α) (s : σ) (Q : α → σ → Prop) : Prop :=
  Yields E (m s) fun r => Q r.1 r.2

namespace Does

variable {σ : Type} {s : σ} {m : StateT σ (Except ε) α} {f : α → StateT σ (Except ε) β} {Q Q' : α → σ → Prop}
  {R : β → σ → Prop}

theorem pure (h : Q a s) : Does E (Pure.pure a) s Q := .ret h

theorem stop (h : E e) : Does E (throw e : StateT σ (Except ε) α) s Q := Yields.stop h

theorem mono (h : Does E m s Q) (hQ : ∀ a s, Q a s → Q' a s) : Does E m s Q' := Yields.mono h fun r => hQ r.1 r.2

theorem weaken (h : Does E m s Q) (hE : ∀ e, E e → E' e) : Does E' m s Q := Yields.weaken h hE

theorem bind (h : Does E m s fun a s => Does E (f a) s R) : Does E (m >>= f) s R := Yields.bind h

theorem ok {s' : σ} (h : Does E m s Q) (hm : m s = .ok (a, s')) : Q a s' :=
  Yields.ok (Q := fun r : α × σ => Q r.1 r.2) h hm

theorem ite {c : Prop} [Decidable c] {m' : StateT σ (Except ε) α} (h : c → Does E m s Q)
    (h' : ¬ c → Does E m' s Q) : Does E (if c then m else m') s Q := by
  split
  · rename_i hc
    exact h hc
  · rename_i hc
    exact h' hc

end Does

/-! ## Computations that do not say why they stop -/

/-- A computation that stops for one reason only. -/
def orStop (e : ε) : Option α → Except ε α
  | none => .error e
  | some a => .ok a

theorem yields_orStop (he : E e) (h : ∀ a, o = some a → Q a) : Yields E (orStop e o) Q := by
  cases o with
  | none => exact .stop he
  | some a => exact .ret (h a rfl)

@[simp] theorem toOption_orStop : (orStop e o).toOption = o := by
  cases o with
  | none | some a => rfl

@[simp] theorem toOption_bind : (m >>= f).toOption = m.toOption.bind fun a => (f a).toOption := by
  cases m with
  | error e | ok a => rfl

@[simp] theorem toOption_map : (g <$> m).toOption = m.toOption.map g := by
  cases m with
  | error e | ok a => rfl

end Xv6.Lib
