/-
# Xv6.Lib.Noted — computations that note what they do, and may stop with an error.

The notes are kept when the computation stops: what was done before an error was done.  `Noted.sat_bind` is
the rule for a sequence, and `result_bind` says that without the notes it is the sequence of the plain
results.  How many different things outside of some set are noted is counted by `Outside`.
-/
import Mathlib.Data.Finset.Card
import Mathlib.Tactic.Common

namespace Xv6.Lib

open List Finset

/-! ## Notes -/

structure Noted (ω ε α : Type) where
  notes : List ω
  result : Except ε α

namespace Noted

variable {ω ε α β ω' : Type}

def note (w : ω) : Noted ω ε Unit := ⟨[w], .ok ()⟩

/-- A computation that does nothing to note. -/
def plain (m : Except ε α) : Noted ω ε α := ⟨[], m⟩

/-- The same computation, with its notes written as `f` writes them. -/
def lift {ω' : Type} (f : ω → ω') (m : Noted ω ε α) : Noted ω' ε α := ⟨m.notes.map f, m.result⟩

/-- One computation after the other. -/
def andThen (m : Noted ω ε α) (f : α → Noted ω ε β) : Noted ω ε β :=
  match m.result with
  | .error e => ⟨m.notes, .error e⟩
  | .ok a => ⟨m.notes ++ (f a).notes, (f a).result⟩

instance : Monad (Noted ω ε) where
  pure a := ⟨[], .ok a⟩
  bind := andThen

variable {m : Noted ω ε α} {f : α → Noted ω ε β}

@[simp] theorem notes_pure (a : α) : (pure a : Noted ω ε α).notes = [] := rfl

@[simp] theorem result_pure (a : α) : (pure a : Noted ω ε α).result = .ok a := rfl

@[simp] theorem result_plain (r : Except ε α) : (plain r : Noted ω ε α).result = r := rfl

@[simp] theorem result_lift (g : ω → ω') : (m.lift g).result = m.result := rfl

@[simp] theorem notes_lift (g : ω → ω') : (m.lift g).notes = m.notes.map g := rfl

/-- **Without the notes.** -/
theorem result_bind : (m >>= f).result = m.result >>= fun a => (f a).result := by
  show (andThen m f).result = _
  unfold andThen
  cases m.result with
  | error e | ok a => rfl

/-- **The rule for a sequence.** -/
theorem sat_bind {Q : List ω → Except ε β → Prop} (herror : ∀ e, m.result = .error e → Q m.notes (.error e))
    (hok : ∀ a, m.result = .ok a → Q (m.notes ++ (f a).notes) (f a).result) : Q (m >>= f).notes (m >>= f).result := by
  show Q (andThen m f).notes (andThen m f).result
  unfold andThen
  cases hm : m.result with
  | error e => exact herror e hm
  | ok a => exact hok a hm

theorem note_bind (w : ω) (f : Unit → Noted ω ε β) : note w >>= f = ⟨w :: (f ()).notes, (f ()).result⟩ := rfl

end Noted

/-! ## Counting -/

section Count

variable {ω : Type} [DecidableEq ω] {base base' : Finset ω} {l l' : List ω} {j k : Nat} {w : ω}

/-- `l` names at most `k` different things that are not in `base`. -/
def Outside (base : Finset ω) (l : List ω) (k : Nat) : Prop := (l.toFinset \ base).card ≤ k

namespace Outside

theorem mono (h : Outside base l j) (hjk : j ≤ k) : Outside base l k := Nat.le_trans h hjk

theorem subset (h : Outside base l k) (hl : ∀ w ∈ l', w ∈ l) : Outside base l' k := by
  apply Nat.le_trans (card_le_card _) h
  apply sdiff_subset_sdiff _ (Finset.Subset.refl base)
  intro w hw
  exact mem_toFinset.mpr (hl w (mem_toFinset.mp hw))

theorem base_mono (h : Outside base l k) (hbase : base ⊆ base') : Outside base' l k :=
  Nat.le_trans (card_le_card (sdiff_subset_sdiff (Finset.Subset.refl _) hbase)) h

theorem nil (base : Finset ω) (k : Nat) : Outside base [] k := by
  unfold Outside
  rw [toFinset_nil, empty_sdiff, card_empty]
  exact Nat.zero_le k

theorem append (h : Outside base l j) (h' : Outside base l' k) : Outside base (l ++ l') (j + k) := by
  unfold Outside at *
  rw [toFinset_append, union_sdiff_distrib]
  exact (card_union_le _ _).trans (Nat.add_le_add h h')

theorem of_mem {s : Finset ω} (h : ∀ w ∈ l, w ∈ base ∨ w ∈ s) (hs : s.card ≤ k) : Outside base l k := by
  apply Nat.le_trans (card_le_card _) hs
  intro w hw
  rw [mem_sdiff, mem_toFinset] at hw
  exact (h w hw.1).resolve_left hw.2

theorem of_insert (h : Outside (insert w base) l k) : Outside base l (k + 1) := by
  have hsub : l.toFinset \ base ⊆ insert w (l.toFinset \ insert w base) := by
    intro v hv
    rw [mem_sdiff] at hv
    rw [mem_insert, mem_sdiff, mem_insert]
    by_cases hvw : v = w
    · exact .inl hvw
    · exact .inr ⟨hv.1, fun hor => hor.elim hvw hv.2⟩
  exact (card_le_card hsub).trans ((card_insert_le _ _).trans (Nat.succ_le_succ h))

theorem card_le (h : Outside base l k) : l.toFinset.card ≤ base.card + k := by
  have hsub : l.toFinset ⊆ base ∪ (l.toFinset \ base) := by
    rw [union_sdiff_self_eq_union]
    exact subset_union_right
  exact (card_le_card hsub).trans ((card_union_le _ _).trans (Nat.add_le_add_left h _))

end Outside

end Count

end Xv6.Lib
