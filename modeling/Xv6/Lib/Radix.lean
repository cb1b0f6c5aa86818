/-
# Xv6.Lib.Radix — trees that lie in a memory of nodes.

A node is a table of words, one for each index, and a word may point to another node.  `descend mem q π` is
the node that the path `π` leads to from `q`.  Nothing keeps two paths of such a graph from meeting; it is a
tree down to depth `d` when they do not (`Branches d`).  Then a word belongs to one path only, and what an
operation does to the memory is told by what it does to the paths: a fresh node is linked in, a branch is
cut off, a leaf is filled.
-/
import Mathlib.Logic.Function.Basic
import Mathlib.Data.List.Basic

namespace Xv6.Lib.Radix

open Function (update)

variable {P I W : Type*} {next : W → Option P} {mem mem' : P → I → W} {π : List I} {d : Nat} {root q : P}
  {ρ : List I}

/-- The node that a path leads to. -/
def descend (next : W → Option P) (mem : P → I → W) : P → List I → Option P
  | q, [] => some q
  | q, i :: π => (next (mem q i)).bind fun r => descend next mem r π

theorem descend_append (q : P) (π σ : List I) :
    descend next mem q (π ++ σ) = (descend next mem q π).bind fun r => descend next mem r σ := by
  induction π generalizing q with
  | nil => rfl
  | cons i π ih =>
    show ((next (mem q i)).bind fun r => descend next mem r (π ++ σ)) =
      ((next (mem q i)).bind fun r => descend next mem r π).bind fun r => descend next mem r σ
    rw [Option.bind_assoc]
    exact congrArg _ (funext ih)

/-- A path leads where it led if the words on it still point where they did. -/
theorem descend_congr : ∀ {q : P},
    (∀ ρ i σ r, π = ρ ++ i :: σ → descend next mem q ρ = some r → next (mem' r i) = next (mem r i)) →
      descend next mem' q π = descend next mem q π := by
  induction π with
  | nil => exact fun _ => rfl
  | cons j π ih =>
    intro q h
    have hfirst := h [] j π q rfl rfl
    unfold descend
    rw [hfirst]
    cases hnext : next (mem q j) with
    | none => rfl
    | some r =>
      refine ih fun ρ i σ r' hπ hr => h (j :: ρ) i σ r' (congrArg (j :: ·) hπ) ?_
      unfold descend
      rw [hnext]
      exact hr

theorem descend_below_none {t : P} {i : I} (ht : descend next mem root ρ = some t) (hold : next (mem t i) = none) (σ : List I) :
    descend next mem root (ρ ++ i :: σ) = none := by
  rw [descend_append, ht, Option.bind_some]
  show (next (mem t i)).bind _ = none
  rw [hold]
  rfl

/-- Down to depth `d`, no two paths from the root meet. -/
def Branches (next : W → Option P) (d : Nat) (mem : P → I → W) (root : P) : Prop :=
  ∀ ⦃π σ : List I⦄ ⦃q : P⦄, π.length ≤ d → σ.length ≤ d →
    descend next mem root π = some q → descend next mem root σ = some q → π = σ

/-- No path of `d` or fewer indices leads to `q`. -/
def Unreached (next : W → Option P) (d : Nat) (mem : P → I → W) (root q : P) : Prop :=
  ∀ ⦃π : List I⦄, π.length ≤ d → descend next mem root π ≠ some q

theorem Branches.congr (h : Branches next d mem root)
    (hsame : ∀ π, π.length ≤ d → descend next mem' root π = descend next mem root π) : Branches next d mem' root :=
  fun _ _ _ hπ hσ hq hq' => h hπ hσ (hsame _ hπ ▸ hq) (hsame _ hσ ▸ hq')

variable [DecidableEq P]

/-- What a node that is not reached holds does not matter. -/
theorem Unreached.descend_update (h : Unreached next d mem root q) (table : I → W)
    (hπ : π.length ≤ d) : descend next (update mem q table) root π = descend next mem root π := by
  refine descend_congr fun ρ i σ r hsplit hr => ?_
  have hlen : ρ.length ≤ d := by rw [hsplit, List.length_append] at hπ; omega
  have hne : r ≠ q := fun heq => h hlen (heq ▸ hr)
  rw [Function.update_of_ne hne]

/-- Neither does what the last node of a path of length `d` holds. -/
theorem Branches.descend_fill (h : Branches next d mem root) (hρ : ρ.length = d)
    (hq : descend next mem root ρ = some q) (table : I → W) (hπ : π.length ≤ d) :
    descend next (update mem q table) root π = descend next mem root π := by
  refine descend_congr fun ρ' i σ r hsplit hr => ?_
  have hlen : ρ'.length < d := by rw [hsplit, List.length_append, List.length_cons] at hπ; omega
  have hne : r ≠ q := by
    rintro rfl
    have hsame := h (Nat.le_of_lt hlen) (Nat.le_of_eq hρ) hr hq
    rw [hsame] at hlen
    omega
  rw [Function.update_of_ne hne]

variable [DecidableEq I]

def store (mem : P → I → W) (t : P) (i : I) (w : W) : P → I → W := update mem t (update (mem t) i w)

theorem store_same (t : P) (i : I) (w : W) : store mem t i w t i = w := by
  unfold store
  rw [Function.update_self, Function.update_self]

theorem store_of_ne {t r : P} {i j : I} {w : W} (h : r = t → j ≠ i) : store mem t i w r j = mem r j := by
  unfold store
  by_cases hr : r = t
  · subst hr
    rw [Function.update_self, Function.update_of_ne (h rfl)]
  · rw [Function.update_of_ne hr]

section Store

variable {d : Nat} {root t : P} {ρ : List I} {i : I} {w : W}

section

variable (h : Branches next d mem root) (ht : descend next mem root ρ = some t)
include h ht

/-- A word matters to the paths that use it. -/
theorem Branches.descend_store
    (hρ : ρ.length ≤ d) (hπ : π.length ≤ d) (hoff : ¬ ρ ++ [i] <+: π) :
    descend next (store mem t i w) root π = descend next mem root π := by
  refine descend_congr fun ρ' j σ r hsplit hr => ?_
  have hlen : ρ'.length ≤ d := by rw [hsplit, List.length_append] at hπ; omega
  rw [store_of_ne]
  rintro rfl rfl
  have hsame : ρ' = ρ := h hlen hρ hr ht
  subst hsame
  refine hoff ⟨σ, ?_⟩
  rw [hsplit, List.append_assoc]
  rfl

/-- The paths that use it go on from where it points. -/
theorem Branches.descend_store_below
    (hρ : ρ.length ≤ d) (σ : List I) : descend next (store mem t i w) root (ρ ++ i :: σ) =
      (next w).bind fun r => descend next (store mem t i w) r σ := by
  have hnot : ¬ ρ ++ [i] <+: ρ := fun hp => by
    have hle := hp.length_le
    rw [List.length_append, List.length_singleton] at hle
    omega
  rw [descend_append, h.descend_store ht hρ hρ hnot, ht, Option.bind_some]
  show (next (store mem t i w t i)).bind _ = _
  rw [store_same]

/-- **A fresh node is linked in.**  There is one path more. -/
theorem Branches.descend_link
    (hρ : ρ.length < d) (hold : next (mem t i) = none) (hw : next w = some q)
    (hfresh : Unreached next d mem root q) (hleaf : ρ.length + 1 = d ∨ ∀ j, next (mem q j) = none)
    (hπ : π.length ≤ d) :
    descend next (store mem t i w) root π = if π = ρ ++ [i] then some q else descend next mem root π := by
  have hqt : q ≠ t := fun heq => hfresh (Nat.le_of_lt hρ) (heq ▸ ht)
  by_cases hon : ρ ++ [i] <+: π
  · obtain ⟨σ, rfl⟩ := hon
    rw [List.append_assoc, List.singleton_append, h.descend_store_below ht (Nat.le_of_lt hρ), hw, Option.bind_some]
    cases σ with
    | nil => exact (if_pos rfl).symm
    | cons j σ =>
      have hne : ¬ ρ ++ i :: j :: σ = ρ ++ [i] := fun heq => by
        have hlen := congrArg List.length heq
        simp at hlen
      rw [if_neg hne, descend_below_none ht hold]
      have hempty : next (mem q j) = none := by
        refine hleaf.resolve_left (fun hd => ?_) j
        simp only [List.length_append, List.length_cons, List.length_nil] at hπ
        omega
      show (next (store mem t i w q j)).bind _ = none
      rw [store_of_ne fun heq => absurd heq hqt, hempty]
      rfl
  · rw [h.descend_store ht (Nat.le_of_lt hρ) hπ hon, if_neg]
    rintro rfl
    exact hon (List.prefix_refl _)

theorem Branches.link
    (hρ : ρ.length < d) (hold : next (mem t i) = none) (hw : next w = some q)
    (hfresh : Unreached next d mem root q) (hleaf : ρ.length + 1 = d ∨ ∀ j, next (mem q j) = none) :
    Branches next d (store mem t i w) root := by
  intro π σ r hπ hσ hπr hσr
  rw [h.descend_link ht hρ hold hw hfresh hleaf hπ] at hπr
  rw [h.descend_link ht hρ hold hw hfresh hleaf hσ] at hσr
  split at hπr
  · rename_i hπi
    cases hπr
    split at hσr
    · rename_i hσi
      rw [hπi, hσi]
    · exact absurd hσr (hfresh hσ)
  · split at hσr
    · cases hσr
      exact absurd hπr (hfresh hπ)
    · exact h hπ hσ hπr hσr

/-- **A branch is cut off.** -/
theorem Branches.descend_cut
    (hρ : ρ.length ≤ d) (hw : next w = none) (hπ : π.length ≤ d) [Decidable (ρ ++ [i] <+: π)] :
    descend next (store mem t i w) root π = if ρ ++ [i] <+: π then none else descend next mem root π := by
  split
  · rename_i hon
    obtain ⟨σ, rfl⟩ := hon
    rw [List.append_assoc, List.singleton_append, h.descend_store_below ht hρ, hw]
    rfl
  · rename_i hoff
    exact h.descend_store ht hρ hπ hoff

end

/-- **A word that points where it did can be rewritten.** -/
theorem descend_relabel (hw : next w = next (mem t i)) (q : P) (π : List I) :
    descend next (store mem t i w) q π = descend next mem q π := by
  refine descend_congr fun ρ j σ r _ _ => ?_
  by_cases hat : r = t ∧ j = i
  · obtain ⟨rfl, rfl⟩ := hat
    rw [store_same, hw]
  · rw [store_of_ne fun hr hj => hat ⟨hr, hj⟩]

end Store

end Xv6.Lib.Radix
