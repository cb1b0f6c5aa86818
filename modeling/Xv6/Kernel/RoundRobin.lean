/-
# Xv6.Kernel.RoundRobin — `getnextproc` serves the processes of a container in turn.

The cursor `c->nextproctorun` is null, a member of the container, or a slot that has left it since.
In all three cases the search is a walk round the process table (`Lib.Cycle`): from the start of the
table, or from one slot behind the cursor.  So a call stops at the nearest member, and as many calls
as there are members make one round.
-/
import Xv6.Kernel.Machine
import Xv6.Lib.Cycle

namespace Xv6.Kernel

open Lib

variable {s : State} {c : Cid} {p : Slot} {fuel : Nat}

def State.Member (s : State) (c : Cid) (p : Slot) : Prop := (s.proc p).cont = some c

instance (s : State) (c : Cid) : DecidablePred (s.Member c) := fun p =>
  inferInstanceAs (Decidable ((s.proc p).cont = some c))

/-- `p` is the first member of `c` strictly after `cur` in cyclic slot
order, and the first of the table when there is no `cur`. -/
def FirstAfter (c : Cid) (s : State) : Option Slot → Slot → Prop
  | none, p => s.Member c p ∧ ∀ q, s.Member c q → p ≤ q
  | some cur, p => s.Member c p ∧ ∀ q, s.Member c q → Cycle.gap cur p ≤ Cycle.gap cur q

/-- `n` calls of `getnextproc(c)` in a row: the slots they return. -/
def turns (fuel : Nat) (c : Cid) : Nat → State → Option (List Slot × State)
  | 0, s => some ([], s)
  | n + 1, s => do
    let p ← nextProc fuel c s
    let s ← getnextproc fuel c s
    let (l, s) ← turns fuel c n s
    return (p :: l, s)

/-! ## One call -/

theorem probe_eq_scan (c : Cid) (s : State) (fuel index : Nat) :
    probe c s fuel index = Cycle.scan (s.Member c) fuel index := by
  induction fuel generalizing index with
  | zero => rfl
  | succ fuel ih =>
    unfold probe Cycle.scan
    rw [ih]
    rfl

/-- Where the walk of `getnextproc` starts. -/
def cursorStart : Option Slot → Nat
  | none => 0
  | some cur => cur + 1

theorem next_of_least (hp : s.Member c p) (hmin : ∀ q, s.Member c q → p ≤ q) : Cycle.Next (s.Member c) 0 p := by
  refine ⟨p, ?_, hp, fun e he hm => ?_⟩
  · apply Fin.ext
    simp
  have hle : p ≤ Fin.ofNat NPROC (0 + e) := hmin _ hm
  have hlt : e < NPROC := he.trans p.isLt
  have hval : (p : Nat) ≤ (0 + e) % NPROC := hle
  rw [Nat.zero_add, Nat.mod_eq_of_lt hlt] at hval
  omega

/-- **One call.** With a member in the table the search ends within one round, at the member the walk
stops at. -/
theorem exists_nextProc (hm : ∃ q, s.Member c q) :
    ∃ p, Cycle.Next (s.Member c) (cursorStart (s.cont c).nextproctorun) p ∧
      FirstAfter c s (s.cont c).nextproctorun p ∧
      ∀ fuel, NPROC ≤ fuel → nextProc fuel c s = some p := by
  obtain ⟨q, hq⟩ := hm
  unfold nextProc
  cases hcur : (s.cont c).nextproctorun with
  | none =>
    -- the linear scan finds the first member
    cases hfind : Fin.find? fun p => (s.proc p).cont == some c with
    | none =>
      have := (Fin.find?_eq_none_iff.mp hfind) q
      exact absurd hq (by simpa [State.Member] using this)
    | some p =>
      obtain ⟨hp, hleast⟩ := Fin.find?_eq_some_iff.mp hfind
      have hp : s.Member c p := by simpa [State.Member] using hp
      have hmin : ∀ q, s.Member c q → p ≤ q := by
        intro q hq
        by_contra hlt
        have := hleast q (by omega)
        exact absurd hq (by simpa [State.Member] using this)
      exact ⟨p, next_of_least hp hmin, ⟨hp, hmin⟩, fun _ _ => rfl⟩
  | some cur =>
    obtain ⟨p, hp, hscan⟩ := Cycle.exists_scan_eq hq (cur + 1)
    obtain ⟨-, -, hmem, -⟩ := id hp
    refine ⟨p, hp, ⟨hmem, fun q hq => hp.gap_le hq⟩, fun fuel hfuel => ?_⟩
    show probe c s fuel (cur + 1) = some p
    rw [probe_eq_scan]
    exact hscan fuel hfuel

theorem nextProc_eq (hfuel : NPROC ≤ fuel)
    (h : Cycle.Next (s.Member c) (cursorStart (s.cont c).nextproctorun) p) :
    nextProc fuel c s = some p := by
  obtain ⟨-, -, hp, -⟩ := id h
  obtain ⟨q, hq, -, hnext⟩ := exists_nextProc ⟨p, hp⟩
  rw [h.unique hq]
  exact hnext fuel hfuel

/-- **Calls in a row make a tour.** The table stays, only the cursor moves on to each stop. -/
theorem turns_eq (hfuel : NPROC ≤ fuel) {l : List Slot}
    (h : Cycle.Tour (s.Member c) (cursorStart (s.cont c).nextproctorun) l) :
    ∃ t, turns fuel c l.length s = some (l, t) := by
  induction l generalizing s with
  | nil => exact ⟨s, rfl⟩
  | cons p l ih =>
    cases h with
    | cons hp hl =>
      have hnext := nextProc_eq hfuel hp
      -- the state after the first call: the same members, and the cursor at the stop
      let u := s.setCont c { s.cont c with nextproctorun := some p }
      have hcur : cursorStart (u.cont c).nextproctorun = p + 1 := by simp [u, cursorStart]
      have htour : Cycle.Tour (u.Member c) (cursorStart (u.cont c).nextproctorun) l := by
        rw [hcur]
        exact hl
      obtain ⟨t, ht⟩ := ih htour
      exact ⟨t, by simp [turns, getnextproc, hnext, u, ht]⟩

/-- **Round robin inside a container.** A call of `getnextproc` moves the cursor to the first member after it; and as many
calls as there are members return each of them once. -/
theorem getnextproc_roundRobin (c : Cid) (s : State) (hm : ∃ p, s.Member c p) :
    (∃ p, FirstAfter c s (s.cont c).nextproctorun p ∧ ∀ fuel, NPROC ≤ fuel →
        nextProc fuel c s = some p ∧
          getnextproc fuel c s = some (s.setCont c { s.cont c with nextproctorun := some p })) ∧
      ∀ fuel, NPROC ≤ fuel → ∃ l t,
        turns fuel c (Fintype.card { q // s.Member c q }) s = some (l, t) ∧
          l.Nodup ∧ ∀ q, q ∈ l ↔ s.Member c q := by
  constructor
  · obtain ⟨p, -, hfirst, hnext⟩ := exists_nextProc hm
    refine ⟨p, hfirst, fun fuel hfuel => ⟨hnext fuel hfuel, ?_⟩⟩
    simp [getnextproc, hnext fuel hfuel]
  intro fuel hfuel
  obtain ⟨l, htour, hlen, hnodup, hmem⟩ :=
    Cycle.exists_round (P := s.Member c) (cursorStart (s.cont c).nextproctorun)
  obtain ⟨t, ht⟩ := turns_eq hfuel htour
  rw [hlen] at ht
  exact ⟨l, t, ht, hnodup, hmem⟩

/-- A table in which slots 3 and 7 are the processes of the root container and the cursor is at a slot
that has left it. -/
def twoMembers : State :=
  { boot 0 with
    proc := fun p => { (boot 0).proc p with cont := if p = 3 ∨ p = 7 then some ROOTCONT else none }
    cont := fun c => { (boot 0).cont c with nextproctorun := some 5 } }

/-- Two calls return the two processes. -/
theorem getnextproc_roundRobin_two : twoMembers.Member ROOTCONT 3 ∧
    ∃ l t, turns NPROC ROOTCONT (Fintype.card { q // twoMembers.Member ROOTCONT q }) twoMembers =
        some (l, t) ∧ l.Nodup ∧ ∀ q, q ∈ l ↔ twoMembers.Member ROOTCONT q :=
  ⟨by decide, (getnextproc_roundRobin ROOTCONT twoMembers ⟨3, by decide⟩).2 NPROC (Nat.le_refl _)⟩

end Xv6.Kernel
