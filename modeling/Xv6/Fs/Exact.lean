/-
# Xv6.Fs.Exact — what `balloc` does to the free map, bit by bit.

The two loops of `balloc` look for the first clear bit (`FirstFree`, `ballocScan_first`).  Then three things
can go wrong: the zeroes go over bits, because the block is part of the free map; the block found is block `0`,
and its number says that none was found; and over the limit of the container the code frees the block that the
group starts with, which is the block it found only at the start of a group.
-/
import Xv6.Fs.Blocks

namespace Xv6.Fs

open Function List
open Kernel (Cid Container BSIZE neg64)

/-! ## The search -/

/-- `f` is the first block that the free map does not mark. -/
structure FirstFree (sb : Superblock) (d : Disk) (f : Nat) : Prop where
  lt : f < sb.size
  free : bit sb d f = false
  before : ∀ e, e < f → bit sb d e = true

section Search

variable {sb : Superblock} {d : Disk} {f : Nat}

/-- Either every block is marked, or there is a first one that is not. -/
theorem full_or_firstFree (sb : Superblock) (d : Disk) :
    (∀ e, e < sb.size → bit sb d e = true) ∨ ∃ f, FirstFree sb d f := by
  by_cases hex : ∃ e, e < sb.size ∧ bit sb d e = false
  · obtain ⟨hlt, hfree⟩ := Nat.find_spec hex
    refine .inr ⟨Nat.find hex, hlt, hfree, fun e he => ?_⟩
    have hmin := Nat.find_min hex he
    rw [not_and, Bool.not_eq_false] at hmin
    exact hmin (he.trans hlt)
  · refine .inl fun e he => ?_
    rw [← Bool.not_eq_false]
    exact fun hfree => hex ⟨e, he, hfree⟩

theorem FirstFree.unique {g : Nat} (hf : FirstFree sb d f) (hg : FirstFree sb d g) : f = g := by
  rcases Nat.lt_trichotomy f g with h | h | h
  · exact absurd (hg.before f h) (by rw [hf.free]; decide)
  · exact h
  · exact absurd (hf.before g h) (by rw [hg.free]; decide)

theorem group_none {k : Nat} (h : ∀ e, k * 8192 ≤ e → e < k * 8192 + 8192 → e < sb.size → bit sb d e = true) :
    ((range 8192).find? fun bi => k * 8192 + bi < sb.size && !bit sb d (k * 8192 + bi)) = none := by
  rw [find?_eq_none]
  intro bi hbi
  have hlt := mem_range.mp hbi
  rw [Bool.and_eq_true, decide_eq_true_iff, Bool.not_eq_true', not_and, Bool.not_eq_false]
  exact h _ (by omega) (by omega)

theorem findSome?_range {α : Type*} (g : Nat → Option α) {k n : Nat} {y : α} (hk : k < n) (hy : g k = some y)
    (hbefore : ∀ j, j < k → g j = none) : (range n).findSome? g = some y := by
  have hn : n = k + ((n - k - 1) + 1) := by omega
  rw [hn, range_add, findSome?_append, findSome?_eq_none_iff.mpr, Option.none_or,
    range_succ_eq_map, map_cons, findSome?_cons]
  · rw [Nat.add_zero, hy]
  · intro j hj
    exact hbefore j (mem_range.mp hj)

/-- **The loops of `balloc` find the first free block**, as its group and its place there. -/
theorem ballocScan_first (h : FirstFree sb d f) : ballocScan sb d = some (f / 8192 * 8192, f % 8192) := by
  have hlt := h.lt
  have hsplit : f / 8192 * 8192 + f % 8192 = f := Nat.div_add_mod' f 8192
  apply findSome?_range _ (show f / 8192 < (sb.size + 8191) / 8192 by omega)
  · have hfind : ((range 8192).find? fun bi => f / 8192 * 8192 + bi < sb.size && !bit sb d (f / 8192 * 8192 + bi)) =
        some (f % 8192) := by
      rw [find?_range_eq_some]
      refine ⟨?_, mem_range.mpr (Nat.mod_lt f (by decide)), fun j hj => ?_⟩
      · rw [hsplit, h.free, decide_eq_true hlt]
        rfl
      · rw [h.before _ (by omega)]
        simp
    rw [hfind]
    rfl
  · intro j hj
    rw [group_none fun e hlow hhigh _ => h.before e (by omega)]
    rfl

theorem ballocScan_full (h : ∀ e, e < sb.size → bit sb d e = true) : ballocScan sb d = none := by
  apply findSome?_eq_none_iff.mpr
  intro k _
  rw [group_none fun e _ _ he => h e he]
  rfl

end Search

def Refuses (x : Container) : Prop := x.state ≠ .cunused ∧ x.maxDsk < x.usedDsk + BitVec.ofNat 64 BSIZE ∧ x.isroot = 0
deriving Decidable

theorem updatedsk_neg_iff (x : Container) : (x.updatedsk (BitVec.ofNat 64 BSIZE)).2 < 0 ↔ Refuses x := by
  unfold Container.updatedsk Refuses
  by_cases hstate : x.state = .cunused
  · rw [if_pos hstate]
    exact iff_of_false (Int.lt_irrefl 0) fun h => h.1 hstate
  rw [if_neg hstate]
  by_cases hover : x.usedDsk + BitVec.ofNat 64 BSIZE > x.maxDsk ∧ x.isroot = 0
  · rw [if_pos hover]
    exact iff_of_true (Int.negSucc_lt_zero 0) ⟨hstate, hover⟩
  · rw [if_neg hover]
    exact iff_of_false (Int.not_lt.mpr Int.one_nonneg) fun h => hover h.2

/-! ## The bits -/

/-- What is said of a call of `balloc` that returned `a`: a block was taken and
nothing else, or nothing at all. -/
structure Exact (sb : Superblock) (d d' : Disk) (a : BlockNo) : Prop where
  granted : a ≠ 0 → a.toNat < sb.size ∧ bit sb d a.toNat = false ∧
    (∀ e, e < sb.size → bit sb d' e = if e = a.toNat then true else bit sb d e) ∧ d' a = fun _ => 0
  refused : a = 0 → ∀ e, e < sb.size → bit sb d' e = bit sb d e

/-- No bit that is set after block `f` was marked lies in block `f`. -/
def Apart (sb : Superblock) (d : Disk) (f : Nat) : Prop :=
  ∀ e, e < sb.size → sb.bblock e = BitVec.ofNat 32 f → e ≠ f ∧ bit sb d e = false

def grant (sb : Superblock) (f : Nat) (d : Disk) : Disk := update (setBit sb f true d) (BitVec.ofNat 32 f) fun _ => 0

section Bits

variable {sb : Superblock} {d : Disk} {f e : Nat}

theorem bit_grant (hf : f < sb.size) (he : e < sb.size) : bit sb (grant sb f d) e =
    if sb.bblock e = BitVec.ofNat 32 f then false else if e = f then true else bit sb d e := by
  have hset := bit_setBit (d := d) hf he true
  unfold bit grant at *
  by_cases hblk : sb.bblock e = BitVec.ofNat 32 f
  · rw [if_pos hblk, hblk, update_self]
    exact BitVec.getLsbD_zero
  · rw [if_neg hblk, update_of_ne hblk, hset]

theorem apart_iff (h : FirstFree sb d f) :
    Apart sb d f ↔ ∀ e, e < sb.size → bit sb (grant sb f d) e = if e = f then true else bit sb d e := by
  constructor
  · intro hapart e he
    rw [bit_grant h.lt he]
    by_cases hblk : sb.bblock e = BitVec.ofNat 32 f
    · obtain ⟨hne, hfree⟩ := hapart e he hblk
      rw [if_pos hblk, if_neg hne, hfree]
    · rw [if_neg hblk]
  intro hbits e he hblk
  have hbit := hbits e he
  rw [bit_grant h.lt he, if_pos hblk] at hbit
  by_cases hef : e = f
  · rw [if_pos hef] at hbit
    cases hbit
  · rw [if_neg hef] at hbit
    exact ⟨hef, hbit.symm⟩

theorem toNat_ofNat (h : f < sb.size) : (BitVec.ofNat 32 f).toNat = f := by
  have hfits := sb.fits
  rw [BitVec.toNat_ofNat, Nat.mod_eq_of_lt (by omega)]

theorem ofNat_eq_zero_iff (h : f < sb.size) : BitVec.ofNat 32 f = 0 ↔ f = 0 := by
  constructor
  · intro hzero
    rw [← toNat_ofNat h, hzero]
    rfl
  · rintro rfl
    rfl

theorem bblock_ne_zero (h : e < sb.size) : sb.bblock e ≠ 0 := by
  intro hzero
  have hnat := (Superblock.bblock_toNat h).1
  have hstart := sb.inodes_fit
  rw [hzero] at hnat
  have hz : (0 : BlockNo).toNat = 0 := rfl
  omega

section

variable (h : FirstFree sb d f)
include h

theorem exact_grant_iff : Exact sb d (grant sb f d) (BitVec.ofNat 32 f) ↔ Apart sb d f ∧ f ≠ 0 := by
  rw [apart_iff h]
  constructor
  · intro hexact
    by_cases hzero : f = 0
    · -- the bit of block `0` was set, and `0` was returned
      subst hzero
      have hbit := hexact.refused rfl 0 h.lt
      have hblk : sb.bblock 0 ≠ BitVec.ofNat 32 0 := bblock_ne_zero h.lt
      rw [bit_grant h.lt h.lt, if_neg hblk, if_pos rfl, h.free] at hbit
      cases hbit
    · have hgranted := hexact.granted (fun hz => hzero ((ofNat_eq_zero_iff h.lt).mp hz))
      rw [toNat_ofNat h.lt] at hgranted
      exact ⟨hgranted.2.2.1, hzero⟩
  · rintro ⟨hbits, hzero⟩
    refine ⟨fun _ => ?_, fun hz => absurd ((ofNat_eq_zero_iff h.lt).mp hz) hzero⟩
    rw [toNat_ofNat h.lt]
    exact ⟨h.lt, h.free, hbits, update_self ..⟩

theorem bit_group (hapart : Apart sb d f) : bit sb (grant sb f d) (f / 8192 * 8192) = true := by
  have hle : f / 8192 * 8192 ≤ f := Nat.div_mul_le_self f 8192
  rw [(apart_iff h).mp hapart _ (hle.trans_lt h.lt)]
  by_cases hstart : f / 8192 * 8192 = f
  · rw [if_pos hstart]
  · rw [if_neg hstart]
    exact h.before _ (by omega)

theorem exact_refuse_iff (hapart : Apart sb d f) :
    Exact sb d (setBit sb (f / 8192 * 8192) false (grant sb f d)) 0 ↔ f % 8192 = 0 := by
  have hle : f / 8192 * 8192 ≤ f := Nat.div_mul_le_self f 8192
  have hlt := hle.trans_lt h.lt
  have hbits := (apart_iff h).mp hapart
  constructor
  · intro hexact
    by_contra hmod
    -- bit `f` stays set
    have hbit := hexact.refused rfl f h.lt
    rw [bit_setBit hlt h.lt, if_neg (by omega), hbits f h.lt, if_pos rfl, h.free] at hbit
    cases hbit
  intro hmod
  have hstart : f / 8192 * 8192 = f := by omega
  refine ⟨fun hne => absurd rfl hne, fun _ e he => ?_⟩
  rw [bit_setBit hlt he, hbits e he, hstart]
  by_cases hef : e = f
  · rw [if_pos hef, hef, h.free]
  · rw [if_neg hef, if_neg hef]

/-- A block that holds the bits of its own group loses them, and `bfree` panics. -/
theorem bit_group_of_self (hself : sb.bblock f = BitVec.ofNat 32 f) :
    bit sb (grant sb f d) (f / 8192 * 8192) = false := by
  have hle : f / 8192 * 8192 ≤ f := Nat.div_mul_le_self f 8192
  have hblk : sb.bblock (f / 8192 * 8192) = sb.bblock f := by
    rw [Superblock.bblock_eq_iff (hle.trans_lt h.lt) h.lt]
    omega
  rw [bit_grant h.lt (hle.trans_lt h.lt), if_pos (hblk.trans hself)]

theorem apart_of_exact_refuse (hself : sb.bblock f ≠ BitVec.ofNat 32 f)
    (hexact : Exact sb d (setBit sb (f / 8192 * 8192) false (grant sb f d)) 0) : Apart sb d f := by
  have hle : f / 8192 * 8192 ≤ f := Nat.div_mul_le_self f 8192
  intro e he hblk
  have hbit := hexact.refused rfl e he
  refine ⟨fun hef => hself (hef ▸ hblk), ?_⟩
  rw [bit_setBit (hle.trans_lt h.lt) he, bit_grant h.lt he, if_pos hblk, ite_self] at hbit
  exact hbit.symm

end

end Bits

/-! ## `balloc` -/

section Balloc

variable {sb : Superblock} {c : Cid} {st : Store} {f : Nat}

/-- A `balloc` that has found a block, before it asks for the charge and after. -/
theorem balloc_first (h : FirstFree sb st.disk f) : balloc sb c st =
    if Refuses (st.cont c) then
      (bfree sb c (BitVec.ofNat 32 (f / 8192 * 8192))
        { st with disk := grant sb f st.disk, cont := update st.cont c ((st.cont c).updatedsk (BitVec.ofNat 64 BSIZE)).1 }).map
        fun st => (0, { st with limited := true, cont := update st.cont c (st.cont c).exceeded })
    else .ok (BitVec.ofNat 32 f,
      { st with disk := grant sb f st.disk, cont := update st.cont c ((st.cont c).updatedsk (BitVec.ofNat 64 BSIZE)).1 }) := by
  unfold balloc
  rw [ballocScan_first h]
  dsimp only
  rw [Nat.div_add_mod' f 8192]
  by_cases hrefuse : Refuses (st.cont c)
  · rw [if_pos hrefuse, if_pos ((updatedsk_neg_iff _).mpr hrefuse)]
    rfl
  · rw [if_neg hrefuse, if_neg ((updatedsk_neg_iff _).not.mpr hrefuse)]
    rfl

/-- `balloc` answers, and the answer is exact. -/
def AnswersExactly (sb : Superblock) (c : Cid) (st : Store) : Prop :=
  ∃ a st', balloc sb c st = .ok (a, st') ∧ Exact sb st.disk st'.disk a

theorem answersExactly_refuse_iff (h : FirstFree sb st.disk f) (hrefuse : Refuses (st.cont c)) :
    AnswersExactly sb c st ↔ Apart sb st.disk f ∧ f % 8192 = 0 := by
  have hle : f / 8192 * 8192 ≤ f := Nat.div_mul_le_self f 8192
  have hnat := toNat_ofNat (hle.trans_lt h.lt)
  unfold AnswersExactly
  rw [balloc_first h, if_pos hrefuse]
  unfold bfree
  dsimp only
  rw [hnat]
  by_cases hself : sb.bblock f = BitVec.ofNat 32 f
  · rw [if_pos (bit_group_of_self h hself)]
    apply iff_of_false
    · rintro ⟨a, st', hrun, _⟩
      cases hrun
    · rintro ⟨hapart, _⟩
      exact (hapart f h.lt hself).1 rfl
  by_cases hapart : Apart sb st.disk f
  · rw [if_neg (by rw [bit_group h hapart]; decide), and_iff_right hapart, ← exact_refuse_iff h hapart]
    constructor
    · rintro ⟨a, st', hrun, hexact⟩
      cases hrun
      exact hexact
    · intro hexact
      exact ⟨_, _, rfl, hexact⟩
  apply iff_of_false
  · rintro ⟨a, st', hrun, hexact⟩
    split at hrun
    · cases hrun
    · cases hrun
      exact hapart (apart_of_exact_refuse h hself hexact)
  · exact fun hcond => hapart hcond.1

end Balloc

/-- **When `balloc` is exact.** No set bit may lie in the first free block `f`, and `f` is not block `0`; over the limit of
the container, `f` is the first block of its group. -/
theorem balloc_exact_iff (sb : Superblock) (c : Cid) (st : Store) :
    AnswersExactly sb c st ↔ ∀ f, FirstFree sb st.disk f →
      Apart sb st.disk f ∧ if Refuses (st.cont c) then f % 8192 = 0 else f ≠ 0 := by
  rcases full_or_firstFree sb st.disk with hfull | ⟨f, hf⟩
  · apply iff_of_true
    · refine ⟨0, { st with full := true }, ?_, fun hne => absurd rfl hne, fun _ _ _ => rfl⟩
      unfold balloc
      rw [ballocScan_full hfull]
    · intro f hf
      exact absurd hf.free (by rw [hfull f hf.lt]; decide)
  have hone : (∀ g, FirstFree sb st.disk g →
      Apart sb st.disk g ∧ if Refuses (st.cont c) then g % 8192 = 0 else g ≠ 0) ↔
      Apart sb st.disk f ∧ if Refuses (st.cont c) then f % 8192 = 0 else f ≠ 0 :=
    ⟨fun hall => hall f hf, fun hcond g hg => hf.unique hg ▸ hcond⟩
  rw [hone]
  by_cases hrefuse : Refuses (st.cont c)
  · rw [if_pos hrefuse, answersExactly_refuse_iff hf hrefuse]
  rw [if_neg hrefuse, ← exact_grant_iff hf]
  unfold AnswersExactly
  rw [balloc_first hf, if_neg hrefuse]
  constructor
  · rintro ⟨a, st', hrun, hexact⟩
    cases hrun
    exact hexact
  · intro hexact
    exact ⟨_, _, rfl, hexact⟩

def limitedStore : Store where
  disk := freeMap mkfsSb
  cont := fun _ => { Kernel.rootCont with isroot := 0, maxDsk := 1023 }
  full := false
  limited := false

/-- The charge is refused and `balloc` returns `0`; but block 46 stays marked and block `0` is free. -/
theorem balloc_not_exact : ∃ st', balloc mkfsSb 1 limitedStore = .ok (0, st') ∧
    ¬ Exact mkfsSb limitedStore.disk st'.disk 0 ∧ bit mkfsSb limitedStore.disk 46 = false ∧
    bit mkfsSb st'.disk 46 = true ∧ bit mkfsSb limitedStore.disk 0 = true ∧ bit mkfsSb st'.disk 0 = false := by
  have hcheck : ((balloc mkfsSb 1 limitedStore).toOption.any fun r => r.1 == 0 && !bit mkfsSb limitedStore.disk 46 &&
      bit mkfsSb r.2.disk 46 && bit mkfsSb limitedStore.disk 0 && !bit mkfsSb r.2.disk 0) = true := by
    decide +kernel
  cases hrun : balloc mkfsSb 1 limitedStore with
  | error e =>
    rw [hrun] at hcheck
    cases hcheck
  | ok r =>
    obtain ⟨a, st'⟩ := r
    rw [hrun] at hcheck
    simp only [Except.toOption, Option.any_some, Bool.and_eq_true, beq_iff_eq, Bool.not_eq_true'] at hcheck
    obtain ⟨⟨⟨⟨rfl, hfree⟩, hset⟩, hzero⟩, hcleared⟩ := hcheck
    refine ⟨st', rfl, fun hexact => ?_, hfree, hset, hzero, hcleared⟩
    have hsame := hexact.refused rfl 46 (by decide)
    rw [hset, hfree] at hsame
    cases hsame

end Xv6.Fs
