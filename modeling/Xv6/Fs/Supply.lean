/-
# Xv6.Fs.Supply — when `balloc` finds the blocks that a write needs.

What a write of `n` bytes at `off` asks of `balloc` can be read off the inode before it starts: one block
for each index of the range that has none, and one for the indirect block if an index behind it is in the
range and it is not there yet (`needed`).  What `balloc` can give is the number of clear bits, and as many
charges as the container can take (`Supply`).  Every call that is given a block lowers both by one
(`Spends`), so the run of a whole write is a subtraction.
-/
import Xv6.Fs.Exact
import Xv6.Fs.Files
import Mathlib.Order.Interval.Finset.Nat

namespace Xv6.Fs

open Function Finset
open Kernel (Cid Container BSIZE neg64)
open Lib (bind_eq_ok)

/-! ## What there is -/

def charge (x : Container) : Container := (x.updatedsk (BitVec.ofNat 64 BSIZE)).1

/-- The container can be charged for `k` blocks, one after the other. -/
def Affords (x : Container) (k : Nat) : Prop := ∀ j, j < k → ¬ Refuses (charge^[j] x)

def freeBlocks (sb : Superblock) (d : Disk) : Finset Nat := (Finset.range sb.size).filter fun e => bit sb d e = false

/-- `balloc` has `k` blocks for container `c`. -/
structure Supply (sb : Superblock) (c : Cid) (st : Store) (k : Nat) : Prop where
  blocks : k ≤ (freeBlocks sb st.disk).card
  charges : Affords (st.cont c) k

/-- `k` blocks were given. -/
def Spends (sb : Superblock) (c : Cid) (st st' : Store) (k : Nat) : Prop :=
  ∀ m, Supply sb c st (k + m) ↔ Supply sb c st' m

section Resources

variable {sb : Superblock} {c : Cid} {st st' st'' : Store} {k m f : Nat} {own : Place → BlockNo → Prop}
  {a : BlockNo}

theorem Affords.mono {x : Container} (h : Affords x k) (hm : m ≤ k) : Affords x m := fun j hj => h j (hj.trans_le hm)

theorem affords_succ {x : Container} : Affords x (k + 1) ↔ ¬ Refuses x ∧ Affords (charge x) k := by
  constructor
  · intro h
    exact ⟨h 0 (Nat.succ_pos k), fun j hj => h (j + 1) (Nat.succ_lt_succ hj)⟩
  · rintro ⟨hzero, hrest⟩ j hj
    cases j with
    | zero => exact hzero
    | succ j => exact hrest j (Nat.lt_of_succ_lt_succ hj)

theorem Supply.mono (h : Supply sb c st k) (hm : m ≤ k) : Supply sb c st m := ⟨hm.trans h.blocks, h.charges.mono hm⟩

theorem Supply.zero : Supply sb c st 0 := ⟨Nat.zero_le _, fun _ hj => absurd hj (Nat.not_lt_zero _)⟩

theorem Spends.of_same (hbits : ∀ e, e < sb.size → bit sb st'.disk e = bit sb st.disk e) (hcont : st'.cont = st.cont) :
    Spends sb c st st' 0 := by
  have hfree : freeBlocks sb st'.disk = freeBlocks sb st.disk :=
    filter_congr fun e he => by rw [hbits e (mem_range.mp he)]
  intro m
  rw [Nat.zero_add]
  constructor
  · intro h
    exact ⟨by rw [hfree]; exact h.blocks, by rw [hcont]; exact h.charges⟩
  · intro h
    exact ⟨by rw [← hfree]; exact h.blocks, by rw [← hcont]; exact h.charges⟩

theorem Spends.refl : Spends sb c st st 0 := .of_same (fun _ _ => rfl) rfl

theorem Spends.trans (h : Spends sb c st st' k) (h' : Spends sb c st' st'' m) : Spends sb c st st'' (k + m) := by
  intro l
  rw [Nat.add_assoc, h, h']

theorem supply_one_iff : Supply sb c st 1 ↔ (∃ f, FirstFree sb st.disk f) ∧ ¬ Refuses (st.cont c) := by
  constructor
  · intro h
    refine ⟨?_, h.charges 0 (by omega)⟩
    rcases full_or_firstFree sb st.disk with hfull | hfirst
    · obtain ⟨e, he⟩ := card_pos.mp h.blocks
      obtain ⟨hlt, hfree⟩ := mem_filter.mp he
      rw [hfull e (mem_range.mp hlt)] at hfree
      cases hfree
    · exact hfirst
  · rintro ⟨⟨f, hf⟩, hpay⟩
    refine ⟨card_pos.mpr ⟨f, mem_filter.mpr ⟨mem_range.mpr hf.lt, hf.free⟩⟩, fun j hj => ?_⟩
    have hzero : j = 0 := by omega
    rw [hzero]
    exact hpay

theorem Sound.firstFree_data {d : Disk} (h : Sound sb own d) (hf : FirstFree sb d f) : sb.IsData (BitVec.ofNat 32 f) := by
  rw [Superblock.IsData, toNat_ofNat hf.lt]
  refine ⟨Nat.not_lt.mp fun hlt => ?_, hf.lt⟩
  have hset := h.metadata f hf.lt hlt
  rw [hf.free] at hset
  cases hset

theorem Sound.apart {d : Disk} (h : Sound sb own d) (hf : FirstFree sb d f) : Apart sb d f :=
  fun _ he hblk => absurd hblk.symm ((h.firstFree_data hf).ne_bblock he)

/-- **`balloc` gives a block** when there is one. -/
theorem balloc_supply (hsound : Sound sb own st.disk) (h : Supply sb c st 1) :
    ∃ a st', balloc sb c st = .ok (a, st') ∧ (st.Sated → st'.Sated) ∧ Spends sb c st st' 1 := by
  obtain ⟨⟨f, hf⟩, hpay⟩ := supply_one_iff.mp h
  have hrun : balloc sb c st = _ := balloc_first hf
  rw [if_neg hpay] at hrun
  refine ⟨_, _, hrun, fun hs => hs, fun m => ?_⟩
  have hbits := (apart_iff hf).mp (hsound.apart hf)
  have herase : freeBlocks sb (grant sb f st.disk) = (freeBlocks sb st.disk).erase f := by
    ext e
    rw [mem_erase, freeBlocks, freeBlocks, mem_filter, mem_filter, mem_range]
    constructor
    · rintro ⟨he, hfree⟩
      rw [hbits e he] at hfree
      by_cases hef : e = f
      · rw [if_pos hef] at hfree
        cases hfree
      · rw [if_neg hef] at hfree
        exact ⟨hef, he, hfree⟩
    · rintro ⟨hef, he, hfree⟩
      rw [hbits e he, if_neg hef]
      exact ⟨he, hfree⟩
  have hmem : f ∈ freeBlocks sb st.disk := mem_filter.mpr ⟨mem_range.mpr hf.lt, hf.free⟩
  have hcard := card_erase_of_mem hmem
  have hpos := card_pos.mpr ⟨f, hmem⟩
  constructor
  · intro hsup
    have hblocks := hsup.blocks
    have hcharges := hsup.charges
    rw [Nat.add_comm, affords_succ] at hcharges
    refine ⟨?_, ?_⟩
    · dsimp only
      rw [herase]
      omega
    · dsimp only
      rw [update_self]
      exact hcharges.2
  · intro hsup
    have hblocks := hsup.blocks
    have hcharges := hsup.charges
    dsimp only at hblocks hcharges
    rw [herase] at hblocks
    rw [update_self] at hcharges
    refine ⟨by omega, ?_⟩
    rw [Nat.add_comm, affords_succ]
    exact ⟨hpay, hcharges⟩

/-- A `balloc` that was refused or found nothing leaves its mark. -/
theorem supply_of_balloc (h : balloc sb c st = .ok (a, st')) (hs : st'.Sated) : Supply sb c st 1 := by
  rw [supply_one_iff]
  rcases full_or_firstFree sb st.disk with hfull | ⟨f, hf⟩
  · unfold balloc at h
    rw [ballocScan_full hfull] at h
    cases h
    exact absurd hs.1 Bool.noConfusion
  refine ⟨⟨f, hf⟩, fun hrefuse => ?_⟩
  rw [balloc_first hf, if_pos hrefuse] at h
  cases hfree : bfree sb c (BitVec.ofNat 32 (f / 8192 * 8192))
    { st with disk := grant sb f st.disk, cont := update st.cont c ((st.cont c).updatedsk (BitVec.ofNat 64 BSIZE)).1 } with
  | error e =>
    rw [hfree] at h
    cases h
  | ok s =>
    rw [hfree] at h
    cases h
    exact absurd hs.2 Bool.noConfusion

/-- **A block costs a block.** -/
theorem balloc_spends (h : balloc sb c st = .ok (a, st')) (hs : st'.Sated) (hsound : Sound sb own st.disk) :
    Spends sb c st st' 1 := by
  obtain ⟨_, _, hrun, -, hspends⟩ := balloc_supply hsound (supply_of_balloc h hs)
  rw [h] at hrun
  cases hrun
  exact hspends

end Resources

/-! ## What a write needs -/

/-- The blocks of the file that bytes `off` to `off + n` lie in. -/
def blocksOf (off n : Nat) : Finset Nat := (Finset.Ico off (off + n)).image (· / BSIZE)

/-- How many blocks must be allocated before the inode has all blocks of `s`. -/
def needed (x : DiskInode) (d : Disk) (s : Finset Nat) : Nat :=
  (s.filter fun bn => x.addrAt d (.ofBlock bn) = 0).card +
    if x.addrs (Fin.last 12) = 0 ∧ ∃ bn ∈ s, 12 ≤ bn then 1 else 0

/-- The blocks of `s` are there now, and of the others none was added. -/
structure Fills (x x' : DiskInode) (d d' : Disk) (s : Finset Nat) : Prop where
  filled : ∀ bn ∈ s, x'.addrAt d' (.ofBlock bn) ≠ 0
  rest : ∀ bn, bn < MAXFILE → bn ∉ s → (x'.addrAt d' (.ofBlock bn) = 0 ↔ x.addrAt d (.ofBlock bn) = 0)
  indirect : x'.addrs (Fin.last 12) = 0 ↔ x.addrs (Fin.last 12) = 0 ∧ ∀ bn ∈ s, bn < 12

section Needs

variable {x x' x'' : DiskInode} {d d' d'' : Disk} {s t : Finset Nat} {off m n bn : Nat}

theorem blocksOf_zero (off : Nat) : blocksOf off 0 = ∅ := by
  rw [blocksOf, Nat.add_zero, Finset.Ico_self, image_empty]

theorem blocksOf_add (off m n : Nat) : blocksOf off (m + n) = blocksOf off m ∪ blocksOf (off + m) n := by
  rw [blocksOf, blocksOf, blocksOf, ← image_union, ← Nat.add_assoc,
    Finset.Ico_union_Ico_eq_Ico (Nat.le_add_right _ _) (Nat.le_add_right _ _)]

theorem blocksOf_turn (hm : 0 < m) (hend : off % BSIZE + m ≤ BSIZE) : blocksOf off m = {off / BSIZE} := by
  have hB : BSIZE = 1024 := rfl
  ext bn
  rw [blocksOf, mem_image, mem_singleton]
  constructor
  · rintro ⟨p, hp, rfl⟩
    rw [mem_Ico] at hp
    rw [hB] at hend ⊢
    omega
  · rintro rfl
    exact ⟨off, mem_Ico.mpr ⟨le_refl off, by omega⟩, rfl⟩

theorem lt_of_mem_blocksOf (h : bn ∈ blocksOf off n) (hend : off + n ≤ 274432) : bn < MAXFILE := by
  obtain ⟨p, hp, rfl⟩ := mem_image.mp h
  rw [mem_Ico] at hp
  show p / 1024 < 268
  omega

theorem needed_empty (x : DiskInode) (d : Disk) : needed x d ∅ = 0 := by
  unfold needed
  rw [filter_empty, card_empty, if_neg]
  rintro ⟨_, bn, hbn, _⟩
  exact absurd hbn (notMem_empty bn)

theorem needed_mono (x : DiskInode) (d : Disk) (h : s ⊆ t) : needed x d s ≤ needed x d t := by
  unfold needed
  apply Nat.add_le_add (card_le_card (filter_subset_filter _ h))
  by_cases hs : x.addrs (Fin.last 12) = 0 ∧ ∃ bn ∈ s, 12 ≤ bn
  · obtain ⟨hzero, bn, hmem, hle⟩ := hs
    rw [if_pos ⟨hzero, bn, hmem, hle⟩, if_pos ⟨hzero, bn, h hmem, hle⟩]
  · rw [if_neg hs]
    exact Nat.zero_le _

theorem needed_congr (h : ∀ ix, x'.addrAt d' ix = x.addrAt d ix) (s : Finset Nat) : needed x' d' s = needed x d s := by
  have hlast : x'.addrs (Fin.last 12) = x.addrs (Fin.last 12) := h (.addr (Fin.last 12))
  unfold needed
  rw [hlast]
  simp only [h]

namespace Fills

theorem refl (x : DiskInode) (d : Disk) : Fills x x d d ∅ where
  filled bn hbn := absurd hbn (notMem_empty bn)
  rest _ _ _ := Iff.rfl
  indirect := (and_iff_left fun bn hbn => absurd hbn (notMem_empty bn)).symm

section

variable (h : Fills x x' d d' s)
include h

theorem congr (haddr : ∀ ix, x''.addrAt d'' ix = x'.addrAt d' ix) : Fills x x'' d d'' s where
  filled bn hbn := by
    rw [haddr]
    exact h.filled bn hbn
  rest bn hlt hbn := by
    rw [haddr]
    exact h.rest bn hlt hbn
  indirect := by
    have hlast : x''.addrs (Fin.last 12) = x'.addrs (Fin.last 12) := haddr (.addr (Fin.last 12))
    rw [hlast]
    exact h.indirect

theorem trans (h' : Fills x' x'' d' d'' t)
    (hkept : ∀ ix, x'.addrAt d' ix ≠ 0 → x''.addrAt d'' ix = x'.addrAt d' ix) : Fills x x'' d d'' (s ∪ t) where
  filled bn hbn := by
    rcases mem_union.mp hbn with hs | ht
    · rw [hkept _ (h.filled bn hs)]
      exact h.filled bn hs
    · exact h'.filled bn ht
  rest bn hlt hbn := by
    rw [mem_union, not_or] at hbn
    rw [h'.rest bn hlt hbn.2, h.rest bn hlt hbn.1]
  indirect := by
    rw [h'.indirect, h.indirect, and_assoc]
    simp only [mem_union, or_imp, forall_and]

/-- **A write is a subtraction**: what a range needs is what its first part needs and what the second part
needs after that. -/
theorem needed_union (ht : ∀ bn ∈ t, bn < MAXFILE) : needed x d (s ∪ t) = needed x d s + needed x' d' t := by
  have hblocks : ((s ∪ t).filter fun bn => x.addrAt d (.ofBlock bn) = 0).card =
      (s.filter fun bn => x.addrAt d (.ofBlock bn) = 0).card + (t.filter fun bn => x'.addrAt d' (.ofBlock bn) = 0).card := by
    rw [← card_union_of_disjoint]
    · congr 1
      ext bn
      simp only [mem_filter, mem_union]
      constructor
      · rintro ⟨hmem, hzero⟩
        by_cases hs : bn ∈ s
        · exact .inl ⟨hs, hzero⟩
        · have hbt := hmem.resolve_left hs
          exact .inr ⟨hbt, (h.rest bn (ht bn hbt) hs).mpr hzero⟩
      · rintro (⟨hs, hzero⟩ | ⟨hbt, hzero⟩)
        · exact ⟨.inl hs, hzero⟩
        · have hs : bn ∉ s := fun hs => h.filled bn hs hzero
          exact ⟨.inr hbt, (h.rest bn (ht bn hbt) hs).mp hzero⟩
    · rw [disjoint_left]
      intro bn hs hbt
      exact h.filled bn (mem_filter.mp hs).1 (mem_filter.mp hbt).2
  have hindirect : (if x.addrs (Fin.last 12) = 0 ∧ ∃ bn ∈ s ∪ t, 12 ≤ bn then 1 else 0) =
      (if x.addrs (Fin.last 12) = 0 ∧ ∃ bn ∈ s, 12 ≤ bn then 1 else 0) +
        if x'.addrs (Fin.last 12) = 0 ∧ ∃ bn ∈ t, 12 ≤ bn then 1 else 0 := by
    have hsplit : (∃ bn ∈ s ∪ t, 12 ≤ bn) ↔ (∃ bn ∈ s, 12 ≤ bn) ∨ ∃ bn ∈ t, 12 ≤ bn := by
      simp only [mem_union, or_and_right, exists_or]
    have hnone : (∀ bn ∈ s, bn < 12) ↔ ¬ ∃ bn ∈ s, 12 ≤ bn := by
      simp only [not_exists, not_and, Nat.not_le]
    have hlast : x'.addrs (Fin.last 12) = 0 ↔ x.addrs (Fin.last 12) = 0 ∧ ¬ ∃ bn ∈ s, 12 ≤ bn := by
      rw [h.indirect, hnone]
    by_cases hzero : x.addrs (Fin.last 12) = 0
    · by_cases hs : ∃ bn ∈ s, 12 ≤ bn
      · rw [if_pos ⟨hzero, hsplit.mpr (.inl hs)⟩, if_pos ⟨hzero, hs⟩, if_neg fun hc => (hlast.mp hc.1).2 hs]
      · by_cases htt : ∃ bn ∈ t, 12 ≤ bn
        · rw [if_pos ⟨hzero, hsplit.mpr (.inr htt)⟩, if_neg fun hc => hs hc.2, if_pos ⟨hlast.mpr ⟨hzero, hs⟩, htt⟩]
        · rw [if_neg fun hc => (hsplit.mp hc.2).elim hs htt, if_neg fun hc => hs hc.2, if_neg fun hc => htt hc.2]
    · rw [if_neg fun hc => hzero hc.1, if_neg fun hc => hzero hc.1, if_neg fun hc => hzero (hlast.mp hc.1).1]
  unfold needed
  rw [hblocks, hindirect]
  omega

end

end Fills

theorem Got.fills {sb : Superblock} {tab : Nat → Option DiskInode} {i : Nat} {a : BlockNo}
    (h : Got sb tab i x x' d d' bn a) (hbn : bn < MAXFILE) : Fills x x' d d' {bn} where
  filled b hb := by
    rw [mem_singleton.mp hb, h.addr]
    exact h.ne
  rest b hlt hb := by
    rw [mem_singleton] at hb
    rw [h.table _ (fun heq => hb (Index.ofBlock_inj hlt hbn heq)) (Index.ofBlock_ne b)]
  indirect := by
    rw [h.indirect]
    simp only [mem_singleton, forall_eq]

end Needs

/-! ## `bmap` -/

section Bmap

variable {sb : Superblock} {c : Cid} {tab : Nat → Option DiskInode} {i : Nat} {x x' : DiskInode}
  {blk : BlockNo} {j : Fin 256}
variable {st st' : Store} {a : BlockNo} {bn : Nat}

theorem bmapAddr_spends {k : Fin 13} (h : bmapAddr sb c x k st = .ok (a, x', st')) (hs : st'.Sated)
    (hsound : Sound sb (names tab st.disk) st.disk) : Spends sb c st st' (if x.addrs k = 0 then 1 else 0) := by
  unfold bmapAddr at h
  by_cases hzero : x.addrs k = 0
  · rw [if_pos hzero] at h ⊢
    obtain ⟨⟨a1, st1⟩, hb, hr⟩ := bind_eq_ok.mp h
    cases hr
    exact balloc_spends hb hs hsound
  · rw [if_neg hzero] at h ⊢
    cases h
    exact .refl

theorem bmapEntry_spends (h : bmapEntry sb c blk j st = .ok (a, st')) (hs : st'.Sated)
    (hsound : Sound sb (names tab st.disk) st.disk) (hblk : sb.IsData blk) :
    Spends sb c st st' (if st.disk blk j = 0 then 1 else 0) := by
  unfold bmapEntry at h
  by_cases hzero : st.disk blk j = 0
  · rw [if_pos hzero] at h ⊢
    obtain ⟨⟨a1, st1⟩, hb, hr⟩ := bind_eq_ok.mp h
    cases hr
    show Spends sb c st _ (1 + 0)
    refine (balloc_spends hb hs hsound).trans (.of_same (fun e he => ?_) rfl)
    exact bit_update_data hblk e he
  · rw [if_neg hzero] at h ⊢
    cases h
    exact .refl

theorem bmapAddr_runs {k : Fin 13} (hs : st.Sated) (hsound : Sound sb (names tab st.disk) st.disk)
    (h : Supply sb c st (if x.addrs k = 0 then 1 else 0)) : ∃ a x' st', bmapAddr sb c x k st = .ok (a, x', st') ∧ st'.Sated := by
  unfold bmapAddr
  by_cases hzero : x.addrs k = 0
  · rw [if_pos hzero] at h ⊢
    obtain ⟨a, st', hrun, hsated, -⟩ := balloc_supply hsound h
    rw [hrun]
    exact ⟨a, _, st', rfl, hsated hs⟩
  · rw [if_neg hzero]
    exact ⟨_, x, st, rfl, hs⟩

theorem bmapEntry_runs (hs : st.Sated) (hsound : Sound sb (names tab st.disk) st.disk)
    (h : Supply sb c st (if st.disk blk j = 0 then 1 else 0)) : ∃ a st', bmapEntry sb c blk j st = .ok (a, st') ∧ st'.Sated := by
  unfold bmapEntry
  by_cases hzero : st.disk blk j = 0
  · rw [if_pos hzero] at h ⊢
    obtain ⟨a, st1, hrun, hsated, -⟩ := balloc_supply hsound h
    rw [hrun]
    exact ⟨a, _, rfl, hsated hs⟩
  · rw [if_neg hzero]
    exact ⟨_, st, rfl, hs⟩

theorem needed_direct (x : DiskInode) (d : Disk) (hbn : bn < 12) :
    needed x d {bn} = if x.addrs ⟨bn, lt_addrs hbn⟩ = 0 then 1 else 0 := by
  have hix : Index.ofBlock bn = .addr ⟨bn, lt_addrs hbn⟩ := dif_pos hbn
  have haddr : x.addrAt d (.ofBlock bn) = x.addrs ⟨bn, lt_addrs hbn⟩ := by rw [hix]; rfl
  unfold needed
  have hnone : ¬ (x.addrs (Fin.last 12) = 0 ∧ ∃ b ∈ ({bn} : Finset Nat), 12 ≤ b) := by
    rintro ⟨_, b, hb, hle⟩
    rw [mem_singleton] at hb
    omega
  rw [filter_singleton, haddr, if_neg hnone]
  by_cases hzero : x.addrs ⟨bn, lt_addrs hbn⟩ = 0
  · rw [if_pos hzero, if_pos hzero, card_singleton]
  · rw [if_neg hzero, if_neg hzero, card_empty]

theorem needed_indirect {d d' : Disk} (hbn : ¬ bn < 12) (hix : Index.ofBlock bn = .entry j)
    (h : Fetches sb tab i x x' d d' (.addr (Fin.last 12)) blk) :
    needed x d {bn} = (if x.addrs (Fin.last 12) = 0 then 1 else 0) + if d' blk j = 0 then 1 else 0 := by
  have hlast : x'.addrs (Fin.last 12) = blk := h.addr
  have hentry : x.addrAt d (.ofBlock bn) = d' blk j := by
    rw [← h.table _ (Index.ofBlock_ne bn), hix]
    show (if x'.addrs (Fin.last 12) = 0 then 0 else d' (x'.addrs (Fin.last 12)) j) = _
    rw [hlast, if_neg h.ne]
  unfold needed
  rw [filter_singleton, hentry, Nat.add_comm]
  simp only [mem_singleton, exists_eq_left, Nat.not_lt.mp hbn, and_true]
  by_cases hzero : d' blk j = 0
  · rw [if_pos hzero, if_pos hzero, card_singleton]
  · rw [if_neg hzero, if_neg hzero, card_empty]

theorem Fetches.isData {d d' : Disk} (h : Fetches sb tab i x x' d d' (.addr (Fin.last 12)) blk) : sb.IsData blk := by
  have hlast : x'.addrs (Fin.last 12) = blk := h.addr
  have hname := names_indirect (d := d') (update_self i (some x') tab) (by rw [hlast]; exact h.ne)
  rw [← hlast]
  exact h.grows.sound.data hname

/-- **`bmap` costs the blocks that are not there.** -/
theorem bmap_spends (h : bmap sb c x bn st = .ok (a, x', st')) (hs : st'.Sated) (hx : tab i = some x)
    (hsound : Sound sb (names tab st.disk) st.disk) : Spends sb c st st' (needed x st.disk {bn}) := by
  rcases bmap_eq_ok.mp h with ⟨hbn, h⟩ | ⟨hbn, hj, blk, st1, h1, h2⟩
  · rw [needed_direct x st.disk hbn]
    exact bmapAddr_spends h hs hsound
  · have hs1 := bmapEntry_sated h2 hs
    have hfetch := bmapAddr_fetches h1 hs1 hx hsound
    rw [needed_indirect hbn (Index.ofBlock_entry hbn hj) hfetch]
    exact (bmapAddr_spends h1 hs1 hsound).trans (bmapEntry_spends h2 hs hfetch.grows.sound hfetch.isData)

/-- **`bmap` goes through** when its blocks are there. -/
theorem bmap_runs (hs : st.Sated) (hx : tab i = some x) (hsound : Sound sb (names tab st.disk) st.disk)
    (hbn : bn < MAXFILE) (h : Supply sb c st (needed x st.disk {bn})) :
    ∃ a x' st', bmap sb c x bn st = .ok (a, x', st') ∧ st'.Sated := by
  by_cases hdirect : bn < 12
  · rw [needed_direct x st.disk hdirect] at h
    obtain ⟨a, x', st', hrun, hs'⟩ := bmapAddr_runs hs hsound h
    exact ⟨a, x', st', bmap_eq_ok.mpr (.inl ⟨hdirect, hrun⟩), hs'⟩
  have hj : bn - 12 < 256 := by
    have hmax : MAXFILE = 268 := rfl
    omega
  have hone : Supply sb c st (if x.addrs (Fin.last 12) = 0 then 1 else 0) := by
    apply h.mono
    unfold needed
    simp only [mem_singleton, exists_eq_left, Nat.not_lt.mp hdirect, and_true]
    exact Nat.le_add_left _ _
  obtain ⟨blk, x1, st1, h1, hs1⟩ := bmapAddr_runs hs hsound hone
  have hfetch := bmapAddr_fetches h1 hs1 hx hsound
  rw [needed_indirect hdirect (Index.ofBlock_entry hdirect hj) hfetch] at h
  obtain ⟨a, st2, h2, hs2⟩ := bmapEntry_runs hs1 hfetch.grows.sound ((bmapAddr_spends h1 hs1 hsound _).mp h)
  exact ⟨a, x1, st2, bmap_eq_ok.mpr (.inr ⟨hdirect, hj, blk, st1, h1, h2⟩), hs2⟩

end Bmap

/-! ## The loop -/

section Loop

variable {sb : Superblock} {c : Cid} {i n tot : Nat} {x : DiskInode} {d : Disk} {tab : Nat → Option DiskInode}
  {st : Store} {a : BlockNo}

theorem Got.write_spends {x' : DiskInode} {bn : Nat}
    (h : Got sb tab i x x' d st.disk bn a) (blk : Block) :
    Spends sb c st { st with disk := update st.disk a blk } 0 := by
  have hname : names (update tab i (some x')) st.disk (i, .ofBlock bn) a := ⟨h.ne, x', update_self .., h.addr⟩
  exact .of_same (fun e he => bit_update_data (h.grows.sound.data hname) e he) rfl

theorem Supply.done (hdone : ¬ tot < n) (off : Nat) : Supply sb c st (needed x d (blocksOf off (n - tot))) := by
  rw [Nat.sub_eq_zero_of_le (Nat.not_lt.mp hdone), blocksOf_zero, needed_empty]
  exact .zero

/-- The range of a write is the block of its first turn and the range of the turns that follow. -/
theorem blocksOf_split (hlt : tot < n) (off : Nat) : blocksOf off (n - tot) =
    {off / BSIZE} ∪ blocksOf (off + turnLen n tot off) (n - (tot + turnLen n tot off)) := by
  have hle := turnLen_le n tot off
  have hsum : n - tot = turnLen n tot off + (n - (tot + turnLen n tot off)) := by omega
  rw [← blocksOf_turn (turnLen_pos hlt off) (turnLen_block n tot off), ← blocksOf_add, ← hsum]

/-- What the write needs is what its first turn needs, and what the turns that follow need then. -/
theorem Got.needed_split {x' : DiskInode} {d' : Disk} {off : Nat}
    (h : Got sb tab i x x' d d' (off / BSIZE) a) (hlt : tot < n) (hend : off + (n - tot) ≤ 274432) (blk : Block) :
    needed x d (blocksOf off (n - tot)) = needed x d {off / BSIZE} +
      needed x' (update d' a blk) (blocksOf (off + turnLen n tot off) (n - (tot + turnLen n tot off))) := by
  have hle := turnLen_le n tot off
  have hbn : off / BSIZE < MAXFILE := by show off / 1024 < 268; omega
  rw [blocksOf_split hlt]
  exact ((h.fills hbn).congr (h.addrAt_write blk)).needed_union fun bn hmem => lt_of_mem_blocksOf hmem (by omega)

theorem Got.turn_spends {st1 : Store} {x1 : DiskInode} {off : Nat}
    (h : Got sb tab i x x1 st.disk st1.disk (off / BSIZE) a) (hb : bmap sb c x (off / BSIZE) st = .ok (a, x1, st1))
    (hs1 : st1.Sated) (hx : tab i = some x) (hsound : Sound sb (names tab st.disk) st.disk) (src : Nat → Option (BitVec 8))
    (n tot : Nat) : Spends sb c st (copied src n tot off a st1) (needed x st.disk {off / BSIZE}) :=
  (bmap_spends hb hs1 hx hsound).trans (h.write_spends _)

/-- **What the loop of `writei` has spent, and which blocks it has filled.** -/
theorem writeLoop_spends {src : Nat → Option (BitVec 8)} (hsrc : ∀ k, k < n → (src k).isSome) (fuel : Nat) :
    ∀ {tab : Nat → Option DiskInode} {tot off off' : Nat} {x x' : DiskInode} {st st' : Store},
    writeLoop sb c src n fuel tot off x st = .ok (off', x', st') → st'.Sated → n - tot ≤ fuel →
    off + (n - tot) ≤ 274432 → tab i = some x → Sound sb (names tab st.disk) st.disk →
    Spends sb c st st' (needed x st.disk (blocksOf off (n - tot))) ∧
      Fills x x' st.disk st'.disk (blocksOf off (n - tot)) := by
  induction fuel using Nat.strongRecOn with
  | ind fuel ih =>
    intro tab tot off off' x x' st st' h hs hfuel hend hx hsound
    by_cases hlt : tot < n
    swap
    · rw [writeLoop_done hlt] at h
      cases h
      have hzero : n - tot = 0 := by omega
      rw [hzero, blocksOf_zero, needed_empty]
      exact ⟨.refl, .refl x st.disk⟩
    obtain ⟨fuel, rfl⟩ : ∃ k, fuel = k + 1 := ⟨fuel - 1, by omega⟩
    obtain ⟨a, x1, st1, hb, hs1, h⟩ := writeLoop_turn_ok hsrc hlt h hs
    have hle := turnLen_le n tot off
    have hpos := turnLen_pos hlt off
    have hgot := bmap_got hb hs1 hx hsound
    have hturn := hgot.turn src n tot off
    have hx1 : update tab i (some x1) i = some x1 := update_self ..
    obtain ⟨hspends, hfills⟩ := ih fuel (Nat.lt_succ_self fuel) h hs (by omega) (by omega) hx1 hturn.sound
    have hgrows := ((writeLoop_grows _ i src n fuel h hs).2 hx1 hturn.sound).1
    rw [hgot.needed_split hlt hend, blocksOf_split hlt]
    have hfirst := hgot.turn_spends hb hs1 hx hsound src n tot
    have hfill : Fills x x1 st.disk (copied src n tot off a st1).disk {off / BSIZE} :=
      (hgot.fills (bmap_lt hb)).congr (hgot.addrAt_write _)
    exact ⟨hfirst.trans hspends, hfill.trans hfills hgrows.kept⟩

/-- **A turn goes through** when its block is there. -/
theorem turn_runs {off : Nat} (hs : st.Sated) (hx : tab i = some x)
    (hsound : Sound sb (names tab st.disk) st.disk) (hlt : tot < n) (hend : off + (n - tot) ≤ 274432)
    (h : Supply sb c st (needed x st.disk {off / BSIZE})) (src : Nat → Option (BitVec 8)) :
    ∃ a x1 st1, bmap sb c x (off / BSIZE) st = .ok (a, x1, st1) ∧ st1.Sated ∧
      Got sb tab i x x1 st.disk st1.disk (off / BSIZE) a ∧
      (Supply sb c st (needed x st.disk (blocksOf off (n - tot))) ↔ Supply sb c (copied src n tot off a st1)
        (needed x1 (copied src n tot off a st1).disk (blocksOf (off + turnLen n tot off) (n - (tot + turnLen n tot off))))) := by
  have hbn : off / BSIZE < MAXFILE := by show off / 1024 < 268; omega
  obtain ⟨a, x1, st1, hb, hs1⟩ := bmap_runs hs hx hsound hbn h
  have hgot := bmap_got hb hs1 hx hsound
  refine ⟨a, x1, st1, hb, hs1, hgot, ?_⟩
  rw [hgot.needed_split hlt hend (turnBlock src n tot off (st1.disk a))]
  exact hgot.turn_spends hb hs1 hx hsound src n tot _

/-- **The loop of `writei` goes through** when its blocks are there. -/
theorem writeLoop_runs {src : Nat → Option (BitVec 8)} (hsrc : ∀ k, k < n → (src k).isSome) (fuel : Nat) :
    ∀ {tab : Nat → Option DiskInode} {tot off : Nat} {x : DiskInode} {st : Store}, st.Sated → n - tot ≤ fuel →
    off + (n - tot) ≤ 274432 → tab i = some x → Sound sb (names tab st.disk) st.disk →
    Supply sb c st (needed x st.disk (blocksOf off (n - tot))) →
    ∃ off' x' st', writeLoop sb c src n fuel tot off x st = .ok (off', x', st') ∧ st'.Sated := by
  induction fuel with
  | zero =>
    intro tab tot off x st hs hfuel hend hx hsound h
    exact ⟨off, x, st, rfl, hs⟩
  | succ fuel ih =>
    intro tab tot off x st hs hfuel hend hx hsound h
    by_cases hlt : tot < n
    · have hle := turnLen_le n tot off
      have hpos := turnLen_pos hlt off
      have hone : Supply sb c st (needed x st.disk {off / BSIZE}) := by
        apply h.mono
        rw [blocksOf_split hlt]
        exact needed_mono x st.disk subset_union_left
      obtain ⟨a, x1, st1, hb, hs1, hgot, hsplit⟩ := turn_runs hs hx hsound hlt hend hone src
      rw [writeLoop_turn hsrc hlt, hb]
      exact ih hs1 (by omega) (by omega) (update_self i (some x1) tab) (hgot.turn src n tot off).sound (hsplit.mp h)
    · rw [writeLoop_done hlt]
      exact ⟨off, x, st, rfl, hs⟩

end Loop

section Write

variable {sb : Superblock} {c : Cid} {i : Nat} {x x' : DiskInode} {st st' : Store} {off n : BitVec 32}
variable {data : List (BitVec 8)}

theorem Grows.addrAt_resized {d d' : Disk} {x1 : DiskInode} (h : Grows sb (inodesOf sb d) i x x1 d d') (hi : i < sb.ninodes)
    (off : Nat) (ix : Index) : (resized x1 off).addrAt (writeInode sb i (resized x1 off) d') ix = x1.addrAt d' ix := by
  have hnew : Sound sb (names (update (inodesOf sb d) i (some (resized x1 off))) d') d' :=
    h.sound_of_addrs (resized_addrs x1 off)
  exact (addrAt_writeInode hi hnew (update_self ..) ix).trans
    (DiskInode.addrAt_of_addrs (resized_addrs x1 off) d' ix)

/-- **`writei` goes through** when its blocks are there. -/
theorem writei_runs (hs : st.Sated) (hx : inodesOf sb st.disk i = some x)
    (hsound : Sound sb (names (inodesOf sb st.disk) st.disk) st.disk) (hoff : off.toNat ≤ x.size.toNat)
    (hn : n.toNat = data.length) (hfit : off.toNat + data.length ≤ 274432)
    (h : Supply sb c st (needed x st.disk (blocksOf off.toNat data.length))) :
    ∃ r x' st', writei sb c i x (source data) off n st = .ok (r, x', st') ∧ st'.Sated := by
  have hsrc : ∀ k, k < data.length → (source data k).isSome := fun k hk => isSome_source hk
  have hend : off.toNat + (data.length - 0) ≤ 274432 := hfit
  obtain ⟨off', x', st', hloop, hs'⟩ := writeLoop_runs hsrc data.length hs (Nat.sub_le _ _) hend hx hsound h
  rw [writei_eq hoff (by rwa [hn]), hn, hloop]
  by_cases hpos : 0 < n
  · exact ⟨_, _, _, if_pos hpos, hs'⟩
  · exact ⟨_, _, _, if_neg hpos, hs'⟩

/-- **What `writei` has spent, and which blocks it has filled.** -/
theorem writei_spends {r : Int} (h : writei sb c i x (source data) off n st = .ok (r, x', st')) (hs : st'.Sated)
    (hx : inodesOf sb st.disk i = some x) (hsound : Sound sb (names (inodesOf sb st.disk) st.disk) st.disk)
    (hoff : off.toNat ≤ x.size.toNat) (hn : n.toNat = data.length) (hfit : off.toNat + data.length ≤ 274432) :
    Spends sb c st st' (needed x st.disk (blocksOf off.toNat data.length)) ∧
      Fills x x' st.disk st'.disk (blocksOf off.toNat data.length) := by
  obtain ⟨-, ⟨rfl, rfl, rfl⟩ | ⟨off', x1, st1, hloop, hs1, hgrows, rfl, rfl⟩⟩ := writei_cases h hs hx hsound hoff hn hfit
  · rw [List.length_nil, blocksOf_zero, needed_empty]
    exact ⟨.refl, .refl x' st'.disk⟩
  obtain ⟨hi, -, -⟩ := inodesOf_eq_some.mp hx
  have hsrc : ∀ k, k < data.length → (source data k).isSome := fun k hk => isSome_source hk
  have hend : off.toNat + (data.length - 0) ≤ 274432 := hfit
  obtain ⟨hspends, hfills⟩ := writeLoop_spends hsrc data.length hloop hs1 (Nat.sub_le _ _) hend hx hsound
  have hsame : Spends sb c st1 (iupdate sb i (resized x1 off') st1) 0 := .of_same (fun e he => bit_writeInode hi e he) rfl
  exact ⟨hspends.trans hsame, hfills.congr fun ix => hgrows.addrAt_resized hi off' ix⟩

theorem writei_keeps {r : Int} (h : writei sb c i x (source data) off n st = .ok (r, x', st')) (hs : st'.Sated)
    (hx : inodesOf sb st.disk i = some x) (hsound : Sound sb (names (inodesOf sb st.disk) st.disk) st.disk)
    (hoff : off.toNat ≤ x.size.toNat) (hn : n.toNat = data.length) (hfit : off.toNat + data.length ≤ 274432) :
    r = data.length ∧ Sound sb (names (inodesOf sb st'.disk) st'.disk) st'.disk ∧ inodesOf sb st'.disk i = some x' := by
  obtain ⟨hr, ⟨rfl, rfl, rfl⟩ | ⟨off', x1, st1, -, -, hgrows, rfl, rfl⟩⟩ := writei_cases h hs hx hsound hoff hn hfit
  · exact ⟨hr, hsound, hx⟩
  have htype : (resized x1 off').type = x.type := by rw [resized_type, hgrows.fields]
  obtain ⟨htab, hwritten⟩ := hgrows.written hx (resized_addrs x1 off') htype
  exact ⟨hr, hwritten, htab ▸ update_self ..⟩

end Write

end Xv6.Fs
