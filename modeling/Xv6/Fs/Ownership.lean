/-
# Xv6.Fs.Ownership — which inode names which block, and what the allocator keeps of that.

A block address lies in an inode (`addrs[k]`) or in an entry of its indirect block; inode and index
together are a `Place`.  A table of inodes over a disk makes places name blocks (`names`), and the file
system is sound when this is an ownership of the data blocks that the free map marks (`Sound`).  The
table is a parameter: while a function works on the copy of an inode in memory, the table has that copy
in place of the inode on disk (`update tab i (some x)`), and the last write makes the two tables agree
again (`wf_writeInode`).

`Extends` says what `bmap` and the copies of `writei` can do: addresses appear, all else stays.
-/
import Xv6.Fs.Alloc
import Xv6.Lib.Owns

namespace Xv6.Fs

open Function BitVec Option
open Kernel (Cid Container BSIZE neg64)
open Lib (Owns bind_eq_ok bind_eq_error update_same)

/-! ## Places -/

/-- Where an inode keeps a block address: `addrs[k]`, with the indirect block at `k = NDIRECT`, or entry
`j` of the indirect block. -/
inductive Index
  | addr (k : Fin 13)
  | entry (j : Fin 256)
  deriving DecidableEq

def Index.ofBlock (bn : Nat) : Index :=
  if h : bn < 12 then .addr ⟨bn, lt_addrs h⟩ else .entry ⟨(bn - 12) % 256, entry_lt bn⟩

theorem Index.ofBlock_ne (bn : Nat) : Index.ofBlock bn ≠ .addr (Fin.last 12) := by
  unfold ofBlock
  split
  · rename_i h
    intro heq
    have hk := congrArg Fin.val (Index.addr.inj heq)
    dsimp only [Fin.val_last] at hk
    omega
  · exact Index.noConfusion

theorem Index.ofBlock_addr {bn : Nat} (hbn : bn < 12) : Index.ofBlock bn = .addr ⟨bn, lt_addrs hbn⟩ := dif_pos hbn

theorem Index.ofBlock_entry {bn : Nat} (hbn : ¬ bn < 12) (hj : bn - 12 < 256) :
    Index.ofBlock bn = .entry ⟨bn - 12, hj⟩ := by
  rw [Index.ofBlock, dif_neg hbn]
  simp only [Nat.mod_eq_of_lt hj]

abbrev Place := Nat × Index

/-- The address an inode has at an index, `0` for none. -/
def DiskInode.addrAt (x : DiskInode) (d : Disk) : Index → BlockNo
  | .addr k => x.addrs k
  | .entry j => if x.addrs (Fin.last 12) = 0 then 0 else d (x.addrs (Fin.last 12)) j

def inodesOf (sb : Superblock) (d : Disk) (i : Nat) : Option DiskInode :=
  if i < sb.ninodes ∧ (readInode sb d i).type ≠ 0 then some (readInode sb d i) else none

/-- Place `p` names block `a`. -/
def names (tab : Nat → Option DiskInode) (d : Disk) (p : Place) (a : BlockNo) : Prop :=
  a ≠ 0 ∧ ∃ x, tab p.1 = some x ∧ x.addrAt d p.2 = a

/-- A block of the data area that the free map marks. -/
def InUse (sb : Superblock) (d : Disk) (a : BlockNo) : Prop := sb.IsData a ∧ bit sb d a.toNat = true

/-- The blocks in front of the data area are marked, and `own` is an ownership of
marked data blocks. -/
structure Sound (sb : Superblock) (own : Place → BlockNo → Prop) (d : Disk) : Prop where
  metadata : ∀ b, b < sb.size → b < sb.datastart → bit sb d b = true
  owns : Owns (InUse sb d) own

def DiskInode.MappedTo (x : DiskInode) (d : Disk) (n : Nat) : Prop :=
  ∀ bn, bn * 1024 < n → bn < MAXFILE ∧ x.addrAt d (.ofBlock bn) ≠ 0

structure Wf (sb : Superblock) (d : Disk) : Prop where
  sound : Sound sb (names (inodesOf sb d) d) d
  mapped : ∀ i x, inodesOf sb d i = some x → x.MappedTo d x.size.toNat

def SameInodes (sb : Superblock) (d d' : Disk) : Prop :=
  ∀ i, i < sb.ninodes → readInode sb d' i = readInode sb d i

section Facts

variable {sb : Superblock} {own own' : Place → BlockNo → Prop} {tab : Nat → Option DiskInode}
variable {d d' d'' : Disk} {i j : Nat} {x x' x'' y : DiskInode} {a b : BlockNo} {p : Place}
variable {ix : Index} {blk : Block}

theorem SameInodes.trans (h : SameInodes sb d d') (h' : SameInodes sb d' d'') : SameInodes sb d d'' :=
  fun i hi => (h' i hi).trans (h i hi)

theorem SameInodes.inodesOf (h : SameInodes sb d d') : inodesOf sb d' = inodesOf sb d := by
  funext i
  unfold Fs.inodesOf
  by_cases hi : i < sb.ninodes
  · rw [h i hi]
  · rw [if_neg fun hc => hi hc.1, if_neg fun hc => hi hc.1]

theorem inodesOf_eq_some : inodesOf sb d i = some x ↔ i < sb.ninodes ∧ x.type ≠ 0 ∧ readInode sb d i = x := by
  unfold inodesOf
  rw [ite_none_right_eq_some]
  constructor
  · rintro ⟨⟨hi, ht⟩, hx⟩
    cases hx
    exact ⟨hi, ht, rfl⟩
  · rintro ⟨hi, ht, rfl⟩
    exact ⟨⟨hi, ht⟩, rfl⟩

theorem DiskInode.addrAt_congr (h : x.addrs (Fin.last 12) ≠ 0 →
    d' (x.addrs (Fin.last 12)) = d (x.addrs (Fin.last 12))) (ix : Index) :
    x.addrAt d' ix = x.addrAt d ix := by
  cases ix with
  | addr k => rfl
  | entry j =>
    by_cases hne : x.addrs (Fin.last 12) = 0
    · simp only [addrAt, if_pos hne]
    · simp only [addrAt, if_neg hne, h hne]

theorem names_indirect (hy : tab j = some y) (hne : y.addrs (Fin.last 12) ≠ 0) :
    names tab d (j, .addr (Fin.last 12)) (y.addrs (Fin.last 12)) := ⟨hne, y, hy, rfl⟩

namespace Sound

theorem data (h : Sound sb own d) (hp : own p a) : sb.IsData a := (h.owns.used hp).1

theorem mono (h : Sound sb own d) (hown : ∀ p a, own' p a → own p a)
    (hbit : ∀ b, b < sb.size → bit sb d' b = bit sb d b) : Sound sb own' d' where
  metadata b hb hm := (hbit b hb).trans (h.metadata b hb hm)
  owns := h.owns.mono hown fun _ _ _ hu => ⟨hu.1, (hbit _ hu.1.2).trans hu.2⟩

/-- A marked block that nobody names gets its name. -/
theorem attach (h : Sound sb own d) (ha : InUse sb d a) (hnew : ∀ q, ¬ own q a) :
    Sound sb (fun q c => own q c ∨ (q = p ∧ c = a)) d where
  metadata := h.metadata
  owns := h.owns.attach ha hnew

end Sound

/-! ## What a write to one block leaves alone -/

theorem bit_update_data (ha : sb.IsData a) (b : Nat) (hb : b < sb.size) : bit sb (update d a blk) b = bit sb d b := by
  unfold bit
  rw [update_of_ne (ha.ne_bblock hb).symm]

theorem bit_writeInode (hi : i < sb.ninodes) (b : Nat) (hb : b < sb.size) :
    bit sb (writeInode sb i x d) b = bit sb d b := by
  unfold bit
  rw [writeInode_of_ne (Superblock.iblock_ne_bblock hi hb).symm]

theorem setBit_data {b : Nat} {v : Bool} (hb : b < sb.size) (ha : sb.IsData a) : setBit sb b v d a = d a :=
  update_of_ne (ha.ne_bblock hb) _ _

theorem sameInodes_setBit {b : Nat} {v : Bool} (hb : b < sb.size) : SameInodes sb d (setBit sb b v d) :=
  fun _ hi => readInode_update hi (fun _ hj => (Superblock.iblock_ne_bblock hj hb).symm) _

theorem sameInodes_update (ha : sb.IsData a) : SameInodes sb d (update d a blk) :=
  fun _ hi => readInode_update hi (fun _ hj => ha.ne_iblock hj) _

section

variable (hi : i < sb.ninodes)
include hi

theorem inodesOf_writeInode :
    inodesOf sb (writeInode sb i x d) = update (inodesOf sb d) i (if x.type = 0 then none else some x) := by
  funext j
  by_cases hj : j < sb.ninodes
  · unfold inodesOf
    rw [readInode_writeInode hi hj]
    by_cases hji : j = i
    · subst hji
      rw [update_self, if_pos rfl]
      by_cases ht : x.type = 0 <;> simp [ht, hj]
    · rw [update_of_ne hji, if_neg hji]
  · rw [update_of_ne (by rintro rfl; exact hj hi), inodesOf, inodesOf, if_neg fun hc => hj hc.1, if_neg fun hc => hj hc.1]

theorem addrAt_writeInode {tab : Nat → Option DiskInode} (hsound : Sound sb (names tab d) d)
    {j : Nat} {y : DiskInode} (hy : tab j = some y) (ix : Index) :
    y.addrAt (writeInode sb i x d) ix = y.addrAt d ix :=
  DiskInode.addrAt_congr (fun hne => writeInode_of_ne ((hsound.data (names_indirect hy hne)).ne_iblock hi)) ix

section

variable (hsound : Sound sb (names (update (inodesOf sb d) i (if x.type = 0 then none else some x)) d) d)
include hsound

theorem sound_writeInode :
    Sound sb (names (inodesOf sb (writeInode sb i x d)) (writeInode sb i x d)) (writeInode sb i x d) := by
  rw [← inodesOf_writeInode hi] at hsound
  apply hsound.mono _ (fun b hb => bit_writeInode hi b hb)
  rintro p a ⟨hne, y, hy, ha⟩
  exact ⟨hne, y, hy, (addrAt_writeInode hi hsound hy p.2) ▸ ha⟩

/-- **The table on disk catches up.** -/
theorem wf_writeInode
    (hmap : ∀ j y, update (inodesOf sb d) i (if x.type = 0 then none else some x) j = some y →
      y.MappedTo d y.size.toNat) :
    Wf sb (writeInode sb i x d) := by
  refine ⟨sound_writeInode hi hsound, ?_⟩
  rw [← inodesOf_writeInode hi] at hsound hmap
  intro j y hy bn hbn
  rw [addrAt_writeInode hi hsound hy]
  exact hmap j y hy bn hbn

end

end

end Facts

/-! ## `bfree` and `balloc` -/

def SameRoots (st st' : Store) : Prop := ∀ c, (st'.cont c).isroot = (st.cont c).isroot

theorem SameRoots.trans {st st' st'' : Store} (h : SameRoots st st') (h' : SameRoots st' st'') :
    SameRoots st st'' := fun c => (h' c).trans (h c)

theorem updatedsk_isroot (n : BitVec 64) (x : Container) : (x.updatedsk n).1.isroot = x.isroot := by
  unfold Container.updatedsk
  split
  · rfl
  · split <;> rfl

theorem exceeded_isroot (x : Container) : x.exceeded.isroot = x.isroot := by
  unfold Container.exceeded
  split <;> rfl

theorem updatedsk_of_isroot {x : Container} (h : x.isroot ≠ 0) (n : BitVec 64) : ¬ (x.updatedsk n).2 < 0 := by
  unfold Container.updatedsk
  split
  · simp
  · rw [if_neg fun hc => h hc.2]
    simp

section Blocks

variable {sb : Superblock} {own : Place → BlockNo → Prop} {c : Cid} {st st' : Store} {a b : BlockNo}
variable {p : Place}

theorem sameRoots_charge {n : BitVec 64} (h : st'.cont = update st.cont c ((st.cont c).updatedsk n).1) :
    SameRoots st st' := by
  intro c'
  rw [h, update_same Container.isroot (updatedsk_isroot ..) c']

theorem bfree_roots (h : bfree sb c b st = .ok st') : SameRoots st st' := by
  unfold bfree at h
  split at h
  · cases h
  · cases h
    exact sameRoots_charge rfl

structure Frees (sb : Superblock) (st st' : Store) : Prop where
  inodes : SameInodes sb st.disk st'.disk
  data : ∀ a, sb.IsData a → st'.disk a = st.disk a
  full : st'.full = st.full
  limited : st'.limited = st.limited
  roots : SameRoots st st'

theorem Frees.refl (sb : Superblock) (st : Store) : Frees sb st st :=
  ⟨fun _ _ => rfl, fun _ _ => rfl, rfl, rfl, fun _ => rfl⟩

theorem Frees.trans {st'' : Store} (h : Frees sb st st') (h' : Frees sb st' st'') : Frees sb st st'' where
  inodes := h.inodes.trans h'.inodes
  data a ha := (h'.data a ha).trans (h.data a ha)
  full := h'.full.trans h.full
  limited := h'.limited.trans h.limited
  roots := h.roots.trans h'.roots

/-- **`bfree` of a named block returns**, and takes the name away. -/
theorem Sound.bfree (h : Sound sb own st.disk) (hp : own p b) (c : Cid) :
    ∃ st', bfree sb c b st = .ok st' ∧ Frees sb st st' ∧ Sound sb (fun q a => own q a ∧ q ≠ p) st'.disk := by
  obtain ⟨hdata, hbit⟩ := h.owns.used hp
  refine ⟨_, if_neg (by rw [hbit]; exact Bool.noConfusion), ?_, ?_, ?_⟩
  · exact ⟨sameInodes_setBit hdata.2, fun a ha => setBit_data hdata.2 ha, rfl, rfl, sameRoots_charge rfl⟩
  · intro b' hb' hm
    rw [bit_setBit hdata.2 hb', if_neg]
    · exact h.metadata b' hb' hm
    · rintro rfl
      exact absurd hm (Nat.not_lt.mpr hdata.1)
  apply (h.owns.free hp).mono (fun _ _ hq => hq)
  rintro q a - ⟨⟨ha, hba⟩, hne⟩
  refine ⟨ha, ?_⟩
  rw [bit_setBit hdata.2 ha.2, if_neg fun heq => hne (eq_of_toNat_eq heq)]
  exact hba

theorem ballocScan_eq_some {d : Disk} {b bi : Nat} (h : ballocScan sb d = some (b, bi)) :
    b + bi < sb.size ∧ bit sb d (b + bi) = false := by
  obtain ⟨k, -, hk⟩ := List.exists_of_findSome?_eq_some h
  obtain ⟨bi', hfind, heq⟩ := map_eq_some_iff.mp hk
  cases heq
  have hbi := List.find?_some hfind
  rw [Bool.and_eq_true, decide_eq_true_iff, Bool.not_eq_true'] at hbi
  exact hbi

theorem balloc_eq_ok (h : balloc sb c st = .ok (a, st')) (hs : st'.Sated) :
    st.Sated ∧ a.toNat < sb.size ∧ bit sb st.disk a.toNat = false ∧
      st'.disk = update (setBit sb a.toNat true st.disk) a fun _ => 0 := by
  unfold balloc at h
  split at h
  · cases h
    exact absurd hs.1 Bool.noConfusion
  rename_i b bi hscan
  obtain ⟨hlt, hbit⟩ := ballocScan_eq_some hscan
  dsimp only at h
  split at h
  · cases hfree : bfree sb c (BitVec.ofNat 32 b) _ with
    | error e =>
      rw [hfree] at h
      cases h
    | ok s =>
      rw [hfree] at h
      cases h
      exact absurd hs.2 Bool.noConfusion
  · cases h
    have hfits := sb.fits
    have hnat : (BitVec.ofNat 32 (b + bi)).toNat = b + bi := by
      rw [toNat_ofNat, Nat.mod_eq_of_lt (by omega)]
    rw [hnat]
    exact ⟨hs, hlt, hbit, rfl⟩

structure Granted (sb : Superblock) (own : Place → BlockNo → Prop) (d d' : Disk) (a : BlockNo) : Prop where
  new : ∀ p, ¬ own p a
  sound : Sound sb own d'
  inUse : InUse sb d' a
  zero : ∀ j, d' a j = 0
  kept : ∀ b, sb.IsData b → b ≠ a → d' b = d b
  inodes : SameInodes sb d d'

/-- **`balloc` gives a block that nobody names.** -/
theorem Sound.balloc (h : Sound sb own st.disk) (hb : Fs.balloc sb c st = .ok (a, st')) (hs : st'.Sated) :
    Granted sb own st.disk st'.disk a := by
  obtain ⟨-, hlt, hfree, hdisk⟩ := balloc_eq_ok hb hs
  have hdata : sb.IsData a := by
    refine ⟨Nat.not_lt.mp fun hm => ?_, hlt⟩
    rw [h.metadata _ hlt hm] at hfree
    cases hfree
  have hbit : ∀ b, b < sb.size → bit sb st'.disk b = if b = a.toNat then true else bit sb st.disk b := by
    intro b hb
    rw [hdisk, bit_update_data hdata b hb, bit_setBit hlt hb]
  have hin : ∀ b, b < sb.size → bit sb st.disk b = true → bit sb st'.disk b = true := by
    intro b hb hset
    rw [hbit b hb, hset, ite_self]
  constructor
  · intro p hp
    have hused := (h.owns.used hp).2
    rw [hfree] at hused
    cases hused
  · exact ⟨fun b hb hm => hin b hb (h.metadata b hb hm),
      h.owns.mono (fun _ _ hp => hp) fun _ b _ hu => ⟨hu.1, hin _ hu.1.2 hu.2⟩⟩
  · exact ⟨hdata, by rw [hbit _ hlt, if_pos rfl]⟩
  · intro j
    rw [hdisk, update_self]
  · intro b hb hne
    rw [hdisk, update_of_ne hne, setBit_data hlt hb]
  · rw [hdisk]
    exact (sameInodes_setBit hlt).trans (sameInodes_update hdata)

end Blocks

/-! ## `bmap` -/

/-- Inode `i` of the table went from `x` to `x'` and the disk from `d`
to `d'`: addresses were added to the inode, and nothing else happened. -/
structure Extends (sb : Superblock) (tab : Nat → Option DiskInode) (i : Nat) (x x' : DiskInode)
    (d d' : Disk) : Prop where
  sound : Sound sb (names (update tab i (some x')) d') d'
  kept : ∀ ix, x.addrAt d ix ≠ 0 → x'.addrAt d' ix = x.addrAt d ix
  others : ∀ j y, j ≠ i → tab j = some y → ∀ ix, y.addrAt d' ix = y.addrAt d ix
  inodes : SameInodes sb d d'
  fields : x' = { x with addrs := x'.addrs }

section Extend

variable {sb : Superblock} {tab : Nat → Option DiskInode} {d d' d'' : Disk} {i bn : Nat} {y : DiskInode}
  {b : BlockNo} {p : Place}
variable {x x' x'' : DiskInode} {a : BlockNo} {c : Cid} {st st' : Store}

theorem Sound.addrAt_write (h : Sound sb (names tab d) d) {j : Nat} (hname : names tab d (i, .ofBlock bn) a)
    (hy : tab j = some y) (blk : Block) (ix : Index) :
    y.addrAt (update d a blk) ix = y.addrAt d ix := by
  apply DiskInode.addrAt_congr
  intro hind
  apply update_of_ne
  intro heq
  have hplace := h.owns.inj (names_indirect (d := d) hy hind) (heq ▸ hname)
  exact Index.ofBlock_ne bn (congrArg Prod.snd hplace).symm

namespace Extends

theorem refl (h : Sound sb (names tab d) d) (hx : tab i = some x) : Extends sb tab i x x d d where
  sound := by rwa [← hx, update_eq_self]
  kept _ _ := rfl
  others _ _ _ _ _ := rfl
  inodes _ _ := rfl
  fields := rfl

theorem trans (h : Extends sb tab i x x' d d')
    (h' : Extends sb (update tab i (some x')) i x' x'' d' d'') : Extends sb tab i x x'' d d'' where
  sound := by
    have hsound := h'.sound
    rwa [update_idem] at hsound
  kept ix hne := by
    have hkept := h.kept ix hne
    exact (h'.kept ix (hkept ▸ hne)).trans hkept
  others j y hj hy ix := by
    have hy' : update tab i (some x') j = some y := by rwa [update_of_ne hj]
    exact (h'.others j y hj hy' ix).trans (h.others j y hj hy ix)
  inodes := h.inodes.trans h'.inodes
  fields := by rw [h'.fields, h.fields]

theorem mappedTo (h : Extends sb tab i x x' d d') {n : Nat} (hm : x.MappedTo d n) : x'.MappedTo d' n := by
  intro bn hbn
  obtain ⟨hlt, hne⟩ := hm bn hbn
  exact ⟨hlt, by rwa [h.kept _ hne]⟩

end Extends

namespace Granted

variable {k : Fin 13} {j : Fin 256} (hg : Granted sb (names tab d) d d' a)
include hg

theorem ne_of_names (hname : names tab d p b) : b ≠ a := fun heq => hg.new p (heq ▸ hname)

section

variable (h : Sound sb (names tab d) d)
include h

theorem named
    (hname : names tab d p b) : d' b = d b :=
  hg.kept b (h.data hname) (hg.ne_of_names hname)

theorem addrAt {i : Nat}
    (hy : tab i = some y) (ix : Index) : y.addrAt d' ix = y.addrAt d ix :=
  DiskInode.addrAt_congr (fun hne => hg.named h (names_indirect hy hne)) ix

theorem addrAt_addr (hx : tab i = some x)
    (hzero : x.addrs k = 0) (ix : Index) : DiskInode.addrAt { x with addrs := update x.addrs k a } d' ix =
      if ix = .addr k then a else x.addrAt d ix := by
  rw [← hg.addrAt h hx ix]
  cases ix with
  | addr k' =>
    by_cases hk : k' = k
    · subst hk
      simp [DiskInode.addrAt]
    · simp [DiskInode.addrAt, hk]
  | entry j =>
    rw [if_neg Index.noConfusion]
    by_cases hk : Fin.last 12 = k
    · subst hk
      simp only [DiskInode.addrAt, update_self, hzero, hg.zero, ite_self, if_pos]
    · simp only [DiskInode.addrAt, update_of_ne hk]

theorem addrAt_entry (hx : tab i = some x)
    (hne : x.addrs (Fin.last 12) ≠ 0) (ix : Index) :
    x.addrAt (update d' (x.addrs (Fin.last 12)) (update (d' (x.addrs (Fin.last 12))) j a)) ix =
      if ix = .entry j then a else x.addrAt d ix := by
  cases ix with
  | addr k => rfl
  | entry j' =>
    by_cases hj : j' = j
    · subst hj
      simp only [DiskInode.addrAt, if_neg hne, update_self, if_pos]
    · have hix : Index.entry j' ≠ .entry j := fun heq => hj (Index.entry.inj heq)
      simp only [DiskInode.addrAt, if_neg hne, if_neg hix, update_self, update_of_ne hj,
        hg.named h (names_indirect hx hne)]

end

end Granted

theorem bmap_eq_ok : bmap sb c x bn st = .ok (a, x', st') ↔
    (∃ hbn : bn < 12, bmapAddr sb c x ⟨bn, lt_addrs hbn⟩ st = .ok (a, x', st')) ∨
      (¬ bn < 12 ∧ ∃ (hj : bn - 12 < 256) (blk : BlockNo) (st1 : Store),
        bmapAddr sb c x (Fin.last 12) st = .ok (blk, x', st1) ∧ bmapEntry sb c blk ⟨bn - 12, hj⟩ st1 = .ok (a, st')) := by
  unfold bmap
  by_cases hbn : bn < 12
  · rw [dif_pos hbn, or_iff_left fun h => h.1 hbn, exists_prop_of_true hbn]
  rw [dif_neg hbn, or_iff_right fun h => hbn h.1, and_iff_right hbn]
  by_cases hj : bn - 12 < 256
  · rw [dif_pos hj, exists_prop_of_true hj]
    constructor
    · intro h
      obtain ⟨⟨blk, x1, st1⟩, h1, h⟩ := bind_eq_ok.mp h
      obtain ⟨⟨a2, st2⟩, h2, h⟩ := bind_eq_ok.mp h
      cases h
      exact ⟨blk, st1, h1, h2⟩
    · rintro ⟨blk, st1, h1, h2⟩
      exact bind_eq_ok.mpr ⟨_, h1, bind_eq_ok.mpr ⟨_, h2, rfl⟩⟩
  · rw [dif_neg hj]
    constructor
    · intro h
      cases h
    · rintro ⟨h, -⟩
      exact absurd h hj

theorem bmap_of_mapped (hbn : bn < MAXFILE) (hne : x.addrAt st.disk (.ofBlock bn) ≠ 0) :
    bmap sb c x bn st = .ok (x.addrAt st.disk (.ofBlock bn), x, st) := by
  have hmax : MAXFILE = 268 := rfl
  apply bmap_eq_ok.mpr
  by_cases h : bn < 12
  · rw [Index.ofBlock_addr h] at hne ⊢
    exact .inl ⟨h, if_neg hne⟩
  have hj : bn - 12 < 256 := by omega
  rw [Index.ofBlock_entry h hj] at hne ⊢
  have hind : x.addrs (Fin.last 12) ≠ 0 := fun hz => hne (if_pos hz)
  simp only [DiskInode.addrAt, if_neg hind] at hne ⊢
  exact .inr ⟨h, hj, _, st, if_neg hind, if_neg hne⟩

end Extend

end Xv6.Fs
