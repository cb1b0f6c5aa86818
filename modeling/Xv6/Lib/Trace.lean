/-
# Xv6.Lib.Trace — runs of a partial step function, and the two rules for what holds of them.

A machine is a step function `σ → ε → Option σ`: `none` says that the event cannot happen (its
guard fails, the code blocks, or the machine stops).  `Trace step ok s0 es s` is a run from `s0`
that performed exactly the events `es`, every one of them meeting the side condition `ok` in the
state BEFORE it.  The condition is part of the run, so "in every run whose steps all meet the
condition" is one quantifier and not a second predicate that has to be carried along.
-/
import Mathlib.Data.List.Basic

namespace Xv6.Lib

variable {σ ε : Type*} {es : List ε}

/-- The events `es`, performed from `s0`, lead to `s`, each one meeting
`ok` in the state before it.  Built at the end: the newest event is the last one of `es`. -/
inductive Trace (step : σ → ε → Option σ) (ok : σ → ε → Prop) (s0 : σ) : List ε → σ → Prop
  | nil : Trace step ok s0 [] s0
  | snoc {es : List ε} {s s' : σ} {e : ε} :
      Trace step ok s0 es s → ok s e → step s e = some s' → Trace step ok s0 (es ++ [e]) s'

/-- The states some run reaches. -/
def Reach (step : σ → ε → Option σ) (ok : σ → ε → Prop) (s0 s : σ) : Prop := ∃ es, Trace step ok s0 es s

variable {step : σ → ε → Option σ} {ok ok' : σ → ε → Prop} {s0 s s' : σ}

theorem Reach.refl : Reach step ok s0 s0 := ⟨[], .nil⟩

theorem Reach.next {e : ε} (h : Reach step ok s0 s) (hok : ok s e) (hs : step s e = some s') : Reach step ok s0 s' := by
  obtain ⟨es, hes⟩ := h
  exact ⟨es ++ [e], .snoc hes hok hs⟩

/-- **The trace rule.** A relation between the events so far and the state, true of the empty run
and kept by every step, holds at the end of every run. -/
theorem Trace.induct {I : List ε → σ → Prop} (h0 : I [] s0)
    (hstep : ∀ es s e s', I es s → ok s e → step s e = some s' → I (es ++ [e]) s') (h : Trace step ok s0 es s) : I es s := by
  induction h with
  | nil => exact h0
  | snoc _ hok hs ih => exact hstep _ _ _ _ ih hok hs

/-- **The invariant rule.** What holds at the start and is kept by every step that meets the
condition holds in every state reached. -/
theorem Reach.invariant {I : σ → Prop} (h0 : I s0)
    (hstep : ∀ s e s', I s → ok s e → step s e = some s' → I s')
    (h : Reach step ok s0 s) : I s := by
  obtain ⟨es, hes⟩ := h
  exact Trace.induct (I := fun _ => I) h0 (fun _ s e s' => hstep s e s') hes

theorem Reach.mono (hok : ∀ s e, ok s e → ok' s e) (h : Reach step ok s0 s) : Reach step ok' s0 s :=
  Reach.invariant .refl (fun _ _ _ hr ho hs => hr.next (hok _ _ ho) hs) h

theorem of_guarded {c : Prop} [Decidable c] (h : (if c then some s else none) = some s') : c ∧ s = s' := by
  obtain ⟨hc, h⟩ := Option.ite_none_right_eq_some.mp h
  exact ⟨hc, Option.some.inj h⟩

/-- Perform a list of events, checking the condition `ok` before each; `none` when an event cannot
happen or fails the check. -/
def exec (step : σ → ε → Option σ) (ok : σ → ε → Prop) [∀ s e, Decidable (ok s e)] : σ → List ε → Option σ
  | s, [] => some s
  | s, e :: es => if ok s e then (step s e).bind (exec step ok · es) else none

variable [∀ s e, Decidable (ok s e)]

/-- What `exec` computes is reached from wherever it starts: runs on concrete inputs are built by
evaluation. -/
theorem Reach.exec (hr : Reach step ok s0 s) (h : exec step ok s es = some s') : Reach step ok s0 s' := by
  induction es generalizing s with
  | nil =>
    cases h
    exact hr
  | cons e es ih =>
    unfold Lib.exec at h
    split at h
    · rename_i hok
      obtain ⟨t, ht, h⟩ := Option.bind_eq_some_iff.mp h
      exact ih (hr.next hok ht) h
    · cases h

/-- A run on a concrete input, with a check on the state it ends in. -/
theorem Reach.of_any (step : σ → ε → Option σ) (ok : σ → ε → Prop) [∀ s e, Decidable (ok s e)]
    (s0 : σ) (es : List ε) (p : σ → Bool) (h : (Lib.exec step ok s0 es).any p = true) :
    ∃ s, Reach step ok s0 s ∧ p s = true := by
  obtain ⟨s, hs, hp⟩ := (Option.any_eq_true p _).mp h
  exact ⟨s, Reach.refl.exec hs, hp⟩

end Xv6.Lib
