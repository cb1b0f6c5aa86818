/-
# Xv6.Lib.Slots — a table of slots, kept as a list, that is searched from the front.

An entry is written into a slot of the table or behind its last one (`put`), and a search stops at the
first slot whose entry has the property it looks for (`First`).  Both are read off the slots by their
number, so what a write does to a search is a fact about one slot.  A table in which no two slots hold
the same thing (`Distinct`) is a map, and stays one when what is written is new to it.
-/
import Mathlib.Data.List.Basic
import Mathlib.Tactic.Common

namespace Xv6.Lib

open List

variable {α : Type} {l : List α} {j k : Nat} {a b : α}

/-- `a` written into slot `k`, or added as slot `k` at the end. -/
def put (l : List α) (k : Nat) (a : α) : List α := l.take k ++ a :: l.drop (k + 1)

theorem getElem?_put (hk : k ≤ l.length) (a : α) (j : Nat) : (put l k a)[j]? = if j = k then some a else l[j]? := by
  have htake : (l.take k).length = k := by rw [length_take, Nat.min_eq_left hk]
  unfold put
  rcases Nat.lt_trichotomy j k with hlt | rfl | hgt
  · rw [if_neg (by omega), getElem?_append_left (by omega), getElem?_take_of_lt hlt]
  · rw [if_pos rfl, getElem?_append_right (by omega), htake, Nat.sub_self]
    rfl
  · obtain ⟨m, rfl⟩ : ∃ m, j = k + 1 + m := ⟨j - (k + 1), by omega⟩
    have hsub : k + 1 + m - k = m + 1 := by omega
    rw [if_neg (by omega), getElem?_append_right (by omega), htake, hsub, getElem?_cons_succ, getElem?_drop]

theorem put_eq_set (hk : k < l.length) (a : α) : put l k a = l.set k a := by
  apply ext_getElem?
  intro j
  rw [getElem?_put (Nat.le_of_lt hk), getElem?_set]
  by_cases hj : j = k
  · subst hj
    rw [if_pos rfl, if_pos rfl, if_pos hk]
  · rw [if_neg hj, if_neg (Ne.symm hj)]

/-- The first entry of `l` with `p` is `a`, in slot `k`. -/
structure First (p : α → Prop) (l : List α) (k : Nat) (a : α) : Prop where
  entry : l[k]? = some a
  hit : p a
  before : ∀ (j : Nat) b, j < k → l[j]? = some b → ¬ p b

variable {p : α → Prop}

theorem First.mem (h : First p l k a) : a ∈ l := mem_of_getElem? h.entry

/-- A search that looks for something else does not see the write. -/
theorem first_put (hk : k ≤ l.length) (ha : ¬ p a) (hold : ∀ b, l[k]? = some b → ¬ p b) :
    First p (put l k a) j b ↔ First p l j b := by
  have hne : ∀ {m : Nat} {e}, (put l k a)[m]? = some e ∧ p e ↔ l[m]? = some e ∧ p e := by
    intro m e
    rw [getElem?_put hk]
    by_cases hm : m = k
    · subst hm
      rw [if_pos rfl]
      constructor
      · rintro ⟨hsome, hp⟩
        cases hsome
        exact absurd hp ha
      · rintro ⟨hsome, hp⟩
        exact absurd hp (hold e hsome)
    · rw [if_neg hm]
  constructor
  · intro h
    have hjb := hne.mp ⟨h.entry, h.hit⟩
    exact ⟨hjb.1, hjb.2, fun m e hm he hp => h.before m e hm (hne.mpr ⟨he, hp⟩).1 hp⟩
  · intro h
    have hjb := hne.mpr ⟨h.entry, h.hit⟩
    exact ⟨hjb.1, hjb.2, fun m e hm he hp => h.before m e hm (hne.mp ⟨he, hp⟩).1 hp⟩

theorem first_put_self (hk : k ≤ l.length) (ha : p a) (hnew : ∀ b ∈ l, ¬ p b) : First p (put l k a) k a where
  entry := by rw [getElem?_put hk, if_pos rfl]
  hit := ha
  before j b hj hb := by
    rw [getElem?_put hk, if_neg (by omega)] at hb
    exact hnew b (mem_of_getElem? hb)

/-- No two slots hold the same. -/
def Distinct (same : α → α → Prop) (l : List α) : Prop :=
  ∀ (j k : Nat) a b, l[j]? = some a → l[k]? = some b → same a b → j = k

variable {same : α → α → Prop}

/-- An entry that is new, or is no entry, may be written anywhere. -/
theorem Distinct.put (h : Distinct same l) (hk : k ≤ l.length) (hnew : ∀ (m : Nat) b, m ≠ k → l[m]? = some b → ¬ same a b)
    (hnew' : ∀ (m : Nat) b, m ≠ k → l[m]? = some b → ¬ same b a) : Distinct same (put l k a) := by
  intro i j e f he hf hsame
  rw [getElem?_put hk] at he hf
  by_cases hi : i = k
  · by_cases hj : j = k
    · rw [hi, hj]
    · rw [if_pos hi] at he
      rw [if_neg hj] at hf
      cases he
      exact absurd hsame (hnew j f hj hf)
  rw [if_neg hi] at he
  by_cases hj : j = k
  · rw [if_pos hj] at hf
    cases hf
    exact absurd hsame (hnew' i e hi he)
  · rw [if_neg hj] at hf
    exact h i j e f he hf hsame

end Xv6.Lib
