/-
# Xv6.Lib.Prog — programs that call functions, and what holds of all their runs.

A program is a tree: it returns, or it calls a function and goes on with the result.  What the
functions do is left open.  `Returns` reads the tree with EVERY result a call could have (the trace
lists the calls with their results); `run` reads it with a handler that performs the calls on a
state and may stop the program.  `AllRuns` and `Meets` are the two corresponding program logics: one
rule each for a return, a call and a sequence, and programs are proved about with the rules only.
-/
import Xv6.Lib.Outcome

namespace Xv6.Lib

/-- Programs over the calls `Op`, with results of type `α`. -/
inductive Prog (Op : Type) (Res : Op → Type) (α : Type) : Type
  | ret (a : α)
  | call (op : Op) (k : Res op → Prog Op Res α)

namespace Prog

variable {Op : Type} {Res : Op → Type} {α β σ ε : Type} {p : Prog Op Res α} {f : α → Prog Op Res β} {op : Op}
  {q p : Prog Op Res α} {c : Prop} {a : α}

protected def bind : Prog Op Res α → (α → Prog Op Res β) → Prog Op Res β
  | ret a, f => f a
  | call op k, f => call op fun r => (k r).bind f

instance : Monad (Prog Op Res) where
  pure := ret
  bind := Prog.bind

theorem pure_def (a : α) : (pure a : Prog Op Res α) = ret a := rfl

@[simp] theorem pure_bind (a : α) (f : α → Prog Op Res β) : (pure a >>= f) = f a := rfl

def perform (op : Op) : Prog Op Res (Res op) := call op ret

/-! ## Every outcome of every call -/

/-- When its calls have the results that `tr` lists, `p` returns `a`. -/
inductive Returns : Prog Op Res α → List ((op : Op) × Res op) → α → Prop
  | ret {a : α} : Returns (ret a) [] a
  | call {op : Op} {k : Res op → Prog Op Res α} {r : Res op} {tr : List ((op : Op) × Res op)}
      {a : α} : Returns (k r) tr a → Returns (call op k) (⟨op, r⟩ :: tr) a

/-- Every run of `p` that returns meets `Q`. -/
def AllRuns (p : Prog Op Res α) (Q : List ((op : Op) × Res op) → α → Prop) : Prop :=
  ∀ tr a, Returns p tr a → Q tr a

variable {Q Q' : List ((op : Op) × Res op) → α → Prop}

theorem AllRuns.mono (h : p.AllRuns Q) (hQ : ∀ tr a, Q tr a → Q' tr a) :
    p.AllRuns Q' := fun tr a hr => hQ tr a (h tr a hr)

@[simp] theorem allRuns_pure : AllRuns (pure a : Prog Op Res α) Q ↔ Q [] a := by
  constructor
  · intro h
    exact h [] a .ret
  · intro h tr b hr
    cases hr
    exact h

@[simp] theorem allRuns_ite [Decidable c] : AllRuns (if c then p else q) Q ↔ (c → AllRuns p Q) ∧ (¬ c → AllRuns q Q) := by
  by_cases hc : c <;> simp [hc]

theorem allRuns_call {k : Res op → Prog Op Res α} :
    AllRuns (call op k) Q ↔ ∀ r, (k r).AllRuns fun tr a => Q (⟨op, r⟩ :: tr) a := by
  constructor
  · intro h r tr a hr
    exact h _ a (.call hr)
  · intro h tr a hr
    cases hr with
    | call hr => exact h _ _ a hr

theorem AllRuns.bind
    {R : List ((op : Op) × Res op) → β → Prop}
    (h : p.AllRuns fun tr a => (f a).AllRuns fun tr' b => R (tr ++ tr') b) : (p >>= f).AllRuns R := by
  induction p generalizing R with
  | ret a => exact h [] a .ret
  | call op k ih => exact allRuns_call.mpr fun r => ih r (allRuns_call.mp h r)

@[simp] theorem allRuns_perform_bind {f : Res op → Prog Op Res α} :
    (perform op >>= f).AllRuns Q ↔ ∀ r, (f r).AllRuns fun tr a => Q (⟨op, r⟩ :: tr) a :=
  allRuns_call

/-! ## Weights -/

section Weight

variable (w : Op → Int)

def cost (tr : List ((op : Op) × Res op)) : Int := tr.foldr (fun e n => w e.1 + n) 0

/-- Whatever the calls return, the weights of the calls `p` makes add up to `n`. -/
def Weighs (p : Prog Op Res α) (n : Int) : Prop := p.AllRuns fun tr _ => cost w tr = n

variable {w} {m n : Int}

@[simp] theorem cost_nil : cost w ([] : List ((op : Op) × Res op)) = 0 := rfl

@[simp] theorem cost_cons {e : (op : Op) × Res op} {tr : List ((op : Op) × Res op)} :
    cost w (e :: tr) = w e.1 + cost w tr := rfl

theorem cost_append (tr tr' : List ((op : Op) × Res op)) : cost w (tr ++ tr') = cost w tr + cost w tr' := by
  induction tr with
  | nil => simp
  | cons e tr ih => rw [List.cons_append, cost_cons, cost_cons, ih, Int.add_assoc]

@[simp] theorem weighs_pure : Weighs w (pure a : Prog Op Res α) n ↔ 0 = n := by
  simp [Weighs]

@[simp] theorem weighs_perform_bind {f : Res op → Prog Op Res α} :
    Weighs w (perform op >>= f) n ↔ ∀ r, Weighs w (f r) (n - w op) := by
  simp only [Weighs, allRuns_perform_bind, cost_cons]
  refine forall_congr' fun r => ⟨fun h => h.mono fun tr _ he => ?_, fun h => h.mono fun tr _ he => ?_⟩
  · omega
  · omega

@[simp] theorem weighs_perform : Weighs w (perform op : Prog Op Res (Res op)) n ↔ ∀ _ : Res op, w op = n := by
  simp only [Weighs, perform, allRuns_call, ← Prog.pure_def, allRuns_pure, cost_cons, cost_nil, Int.add_zero]

@[simp] theorem weighs_ite [Decidable c] :
    Weighs w (if c then p else q) n ↔ (c → Weighs w p n) ∧ (¬ c → Weighs w q n) := allRuns_ite

theorem Weighs.bind (hp : Weighs w p m)
    (hf : ∀ a, Weighs w (f a) (n - m)) : Weighs w (p >>= f) n :=
  AllRuns.bind <| hp.mono fun tr a he => (hf a).mono fun tr' _ he' => by
    rw [cost_append, he, he']
    omega

end Weight

/-! ## Runs on a state -/

section Run

variable (handle : (op : Op) → σ → Except ε (Res op × σ)) {p : Prog Op Res α}

/-- Run a program on a state, with `handle` performing its calls. -/
def run : Prog Op Res α → σ → Except ε (α × σ)
  | ret a, s => .ok (a, s)
  | call op k, s => handle op s >>= fun r => run (k r.1) r.2

/-- Run on `s`, `p` returns with a result and a state that meet `Q`, or stops
with an error that meets `E`. -/
def Meets (E : ε → Prop) (p : Prog Op Res α) (s : σ) (Q : α → σ → Prop) : Prop :=
  Yields E (p.run handle s) fun r => Q r.1 r.2

variable {handle} {E : ε → Prop} {s : σ} {Q Q' : α → σ → Prop} {R : β → σ → Prop}

theorem Meets.mono (h : p.Meets handle E s Q) (hQ : ∀ a s, Q a s → Q' a s) :
    p.Meets handle E s Q' := Yields.mono h fun r => hQ r.1 r.2

theorem meets_pure (h : Q a s) : (pure a : Prog Op Res α).Meets handle E s Q := .ret h

theorem Meets.bind
    (h : p.Meets handle E s fun a s => (f a).Meets handle E s R) : (p >>= f).Meets handle E s R := by
  induction p generalizing s with
  | ret a =>
    have hret : Yields E (.ok (a, s)) fun r => (f r.1).Meets handle E r.2 R := h
    exact hret.ok rfl
  | call op k ih =>
    have hcall : Yields E (handle op s >>= fun r => run handle (k r.1) r.2)
        fun r => (f r.1).Meets handle E r.2 R := h
    show Yields E (handle op s >>= fun r => run handle (k r.1 >>= f) r.2) _
    cases hop : handle op s with
    | error e => exact .stop (hcall.error (by rw [hop]; rfl))
    | ok r =>
      rw [hop] at hcall
      exact ih r.1 hcall

theorem meets_call {f : Res op → Prog Op Res α}
    (h : Yields E (handle op s) fun r => (f r.1).Meets handle E r.2 Q) :
    (perform op >>= f).Meets handle E s Q := Yields.bind h

theorem meets_perform {Q : Res op → σ → Prop}
    (h : Yields E (handle op s) fun r => Q r.1 r.2) :
    (perform op : Prog Op Res (Res op)).Meets handle E s Q :=
  Yields.bind (h.mono fun _ hr => .ret hr)

theorem meets_ite [Decidable c] (hp : c → p.Meets handle E s Q)
    (hq : ¬ c → q.Meets handle E s Q) : (if c then p else q).Meets handle E s Q := by
  split
  · rename_i hc
    exact hp hc
  · rename_i hc
    exact hq hc

end Run

end Prog

end Xv6.Lib
