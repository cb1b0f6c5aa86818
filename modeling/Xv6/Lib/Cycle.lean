/-
# Xv6.Lib.Cycle — walking round a ring of places.

The places of a ring are `Fin n`, a walk counts its steps in plain numbers and looks at them modulo
`n`.  A walk from step `i` STOPS at the first place that has the property (`Next`), and a tour goes
on from there: one step behind its last stop.  One round of a tour is one filter of one round of
places, and that is why it meets every place with the property once.
-/
import Mathlib.Algebra.GroupWithZero.Nat
import Mathlib.Data.Fintype.Card
import Mathlib.Data.List.Perm.Basic

namespace Xv6.Lib.Cycle

open List

variable {n : Nat} [NeZero n] {P : Fin n → Prop} {i : Nat} {p q : Fin n} {l : List (Fin n)} {j : Nat}

/-- The places strictly between `a` and `b` on the way forward from `a`; all others when the way ends
at `a` again. -/
def gap (a b : Fin n) : Nat := (b + n - (a + 1)) % n

/-- The walk from step `i` stops at `p`. -/
def Next (P : Fin n → Prop) (i : Nat) (p : Fin n) : Prop :=
  ∃ d, p = Fin.ofNat n (i + d) ∧ P p ∧ ∀ e < d, ¬ P (Fin.ofNat n (i + e))

/-- The walk as a loop, `fuel` steps long. -/
def scan (P : Fin n → Prop) [DecidablePred P] : Nat → Nat → Option (Fin n)
  | 0, _ => none
  | fuel + 1, i => if P (Fin.ofNat n i) then some (Fin.ofNat n i) else scan P fuel (i + 1)

/-! ## One walk -/

/-- Every place is met within one round, wherever the walk starts. -/
theorem exists_lt_ofNat (i : Nat) (q : Fin n) : ∃ d < n, Fin.ofNat n (i + d) = q := by
  have hn : 0 < n := Nat.pos_of_neZero n
  have hi : i % n < n := Nat.mod_lt _ hn
  refine ⟨(q + n - i % n) % n, Nat.mod_lt _ hn, Fin.ext ?_⟩
  show (i + (q + n - i % n) % n) % n = q
  rw [Nat.add_mod_mod, Nat.add_mod, ← Nat.add_mod_mod, Nat.mod_mod, ← Nat.add_mod, ← Nat.mod_add_mod]
  have hsum : i % n + (q + n - i % n) = q + n := by omega
  rw [hsum, Nat.add_mod_right, Nat.mod_eq_of_lt q.isLt]

theorem Next.here (h : P (Fin.ofNat n i)) : Next P i (Fin.ofNat n i) :=
  ⟨0, rfl, h, fun _ he => absurd he (Nat.not_lt_zero _)⟩

theorem Next.pass (h : ¬ P (Fin.ofNat n i)) (hp : Next P (i + 1) p) : Next P i p := by
  obtain ⟨d, hd, hP, hmin⟩ := hp
  refine ⟨d + 1, ?_, hP, fun e he => ?_⟩
  · rw [hd, Nat.add_assoc, Nat.add_comm 1]
  cases e with
  | zero => exact h
  | succ e =>
    have := hmin e (by omega)
    rwa [Nat.add_assoc, Nat.add_comm 1] at this

theorem Next.congr (hij : i % n = j % n) (h : Next P i p) : Next P j p := by
  have hplace : ∀ d, Fin.ofNat n (i + d) = Fin.ofNat n (j + d) := fun d => Fin.ext (by
    show (i + d) % n = (j + d) % n
    rw [Nat.add_mod, hij, ← Nat.add_mod])
  obtain ⟨d, hd, hP, hmin⟩ := h
  exact ⟨d, by rw [hd, hplace], hP, fun e he => by rw [← hplace]; exact hmin e he⟩

theorem Next.unique (hp : Next P i p) (hq : Next P i q) : p = q := by
  obtain ⟨d, rfl, hPd, hd⟩ := hp
  obtain ⟨e, rfl, hPe, he⟩ := hq
  rcases Nat.lt_trichotomy d e with h | rfl | h
  · exact absurd hPd (he d h)
  · rfl
  · exact absurd hPe (hd e h)

/-- A walk that can stop somewhere stops within one round. -/
theorem exists_next (hq : P q) (i : Nat) : ∃ d < n, P (Fin.ofNat n (i + d)) ∧ ∀ e < d, ¬ P (Fin.ofNat n (i + e)) := by
  classical
  obtain ⟨d, hd, rfl⟩ := exists_lt_ofNat i q
  have hex : ∃ d, P (Fin.ofNat n (i + d)) := ⟨d, hq⟩
  exact ⟨Nat.find hex, (Nat.find_min' hex hq).trans_lt hd, Nat.find_spec hex, fun e he => Nat.find_min hex he⟩

section Scan

variable [DecidablePred P]

/-- The loop finds the place `d` steps ahead with any fuel above `d`. -/
theorem scan_eq {d fuel : Nat} (hd : d < fuel) (hP : P (Fin.ofNat n (i + d)))
    (hmin : ∀ e < d, ¬ P (Fin.ofNat n (i + e))) :
    scan P fuel i = some (Fin.ofNat n (i + d)) := by
  induction d generalizing i fuel with
  | zero =>
    obtain ⟨fuel, rfl⟩ := Nat.exists_eq_add_of_lt hd
    rw [Nat.zero_add] at *
    exact if_pos hP
  | succ d ih =>
    obtain ⟨fuel, rfl⟩ : ∃ m, fuel = m + 1 := ⟨fuel - 1, by omega⟩
    have hstep : ∀ e, i + 1 + e = i + (e + 1) := fun e => by omega
    unfold scan
    have hhere : ¬ P (Fin.ofNat n i) := hmin 0 (Nat.succ_pos d)
    rw [if_neg hhere, ih (Nat.lt_of_succ_lt_succ hd)]
    · rw [hstep]
    · rwa [hstep]
    · intro e he
      rw [hstep]
      exact hmin (e + 1) (by omega)

/-- **The loop stops where the walk does**, with fuel for one round or more. -/
theorem exists_scan_eq (hq : P q) (i : Nat) : ∃ p, Next P i p ∧ ∀ fuel, n ≤ fuel → scan P fuel i = some p := by
  obtain ⟨d, hd, hP, hmin⟩ := exists_next hq i
  exact ⟨_, ⟨d, rfl, hP, hmin⟩, fun _ hf => scan_eq (hd.trans_le hf) hP hmin⟩

end Scan

/-- **The walk that starts behind `a` stops at the nearest place.** -/
theorem Next.gap_le {a : Fin n} (hp : Next P (a + 1) p) (hq : P q) : gap a p ≤ gap a q := by
  have hgap : ∀ d < n, gap a (Fin.ofNat n (a + 1 + d)) = d := by
    intro d hd
    have := a.isLt
    show ((a + 1 + d) % n + n - (a + 1)) % n = d
    rcases Nat.lt_or_ge (a + 1 + d) n with h | h
    · rw [Nat.mod_eq_of_lt h, show a + 1 + d + n - (a + 1) = d + n by omega, Nat.add_mod_right, Nat.mod_eq_of_lt hd]
    · rw [Nat.mod_eq_sub_mod h, Nat.mod_eq_of_lt (show a + 1 + d - n < n by omega),
        show a + 1 + d - n + n - (a + 1) = d by omega, Nat.mod_eq_of_lt hd]
  obtain ⟨e, he, rfl⟩ := exists_lt_ofNat (a + 1) q
  obtain ⟨d, hd, hP, hmin⟩ := exists_next hq (a + 1)
  have hpd : p = Fin.ofNat n (a + 1 + d) := hp.unique ⟨d, rfl, hP, hmin⟩
  rw [hpd, hgap d hd, hgap e he]
  by_contra hlt
  exact hmin e (by omega) hq

/-! ## Tours -/

/-- The stops of a tour that starts at step `i`, each walk going on one step behind
the last stop. -/
inductive Tour (P : Fin n → Prop) : Nat → List (Fin n) → Prop
  | nil (i : Nat) : Tour P i []
  | cons {i : Nat} {p : Fin n} {l : List (Fin n)} : Next P i p → Tour P (p + 1) l → Tour P i (p :: l)

theorem Tour.congr (hij : i % n = j % n) (h : Tour P i l) : Tour P j l := by
  cases h with
  | nil => exact .nil _
  | cons hp hl => exact .cons (hp.congr hij) hl

theorem Tour.pass (h : ¬ P (Fin.ofNat n i)) (hl : Tour P (i + 1) l) : Tour P i l := by
  cases hl with
  | nil => exact .nil _
  | cons hp hl => exact .cons (hp.pass h) hl

/-- The `m` places from step `i` on. -/
def places (n : Nat) [NeZero n] (i m : Nat) : List (Fin n) := (List.range' i m).map (Fin.ofNat n)

variable [DecidablePred P]

/-- A tour through `m` places stops at those with the property. -/
theorem tour_filter (i m : Nat) : Tour P i ((places n i m).filter (P ·)) := by
  induction m generalizing i with
  | zero => exact .nil i
  | succ m ih =>
    have hplaces : places n i (m + 1) = Fin.ofNat n i :: places n (i + 1) m := by
      simp [places, range'_succ]
    rw [hplaces]
    by_cases hP : P (Fin.ofNat n i)
    · rw [filter_cons_of_pos (by simpa using hP)]
      refine .cons (.here hP) ((ih (i + 1)).congr ?_)
      show (i + 1) % n = (i % n + 1) % n
      rw [Nat.mod_add_mod]
    · rw [filter_cons_of_neg (by simpa using hP)]
      exact (ih (i + 1)).pass hP

theorem mem_places (i : Nat) (q : Fin n) : q ∈ places n i n := by
  obtain ⟨d, hd, rfl⟩ := exists_lt_ofNat i q
  exact mem_map.mpr ⟨i + d, mem_range'_1.mpr ⟨by omega, by omega⟩, rfl⟩

/-- One round meets no place twice: it has `n` steps for `n` places. -/
theorem nodup_places (i : Nat) : (places n i n).Nodup := by
  have hall : (places n i n).toFinset = Finset.univ := by
    ext q
    simp [mem_places]
  apply Multiset.coe_nodup.mp
  apply Multiset.toFinset_card_eq_card_iff_nodup.mp
  show (places n i n).toFinset.card = (places n i n).length
  rw [hall]
  simp [places]

/-- **One round of a tour** stops at every place with the property, once each. -/
theorem exists_round (i : Nat) : ∃ l, Tour P i l ∧ l.length = Fintype.card { q // P q } ∧ l.Nodup ∧ ∀ q, q ∈ l ↔ P q := by
  have hmem : ∀ q, q ∈ (places n i n).filter (P ·) ↔ P q := fun q => by simp [mem_places]
  have hnodup : ((places n i n).filter (P ·)).Nodup := (nodup_places i).filter _
  refine ⟨_, tour_filter i n, ?_, hnodup, hmem⟩
  rw [Fintype.card_subtype, ← toFinset_card_of_nodup hnodup]
  congr 1
  ext q
  simp [mem_places]

end Xv6.Lib.Cycle
