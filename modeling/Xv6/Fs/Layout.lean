/-
# Xv6.Fs.Layout — the disk format (`kernel/fs.h`, `mkfs/mkfs.c`): where inodes and the free map lie,
and how they lie in their blocks.

A block is 256 little-endian words.  An inode takes 16 of them: two words of `short`s, the size, and the
block addresses; so a block holds `IPB = 16` inodes and `BPB = 8192` bits.  The bit of block `b` in the
free map is bit `b % 32` of word `b % BPB / 32`, which is bit `b % 8` of byte `b % BPB / 8` as the code
computes it.  Reads after writes are two equations, one
for inodes and one for bits; everything above uses these and never looks into a block again.
-/
import Xv6.Fs.Log

namespace Xv6.Fs

open Function BitVec

/-! ## `fs.h` -/

abbrev NDIRECT : Nat := 12
abbrev NINDIRECT : Nat := 256
abbrev MAXFILE : Nat := NDIRECT + NINDIRECT

/-- What the file system reads of `struct superblock`, with the order of the areas that it relies on: the
inode blocks end before the free map starts, and block numbers are `int`s. -/
structure Superblock where
  size : Nat
  ninodes : Nat
  inodestart : Nat
  bmapstart : Nat
  inodes_fit : ninodes / 16 + inodestart < bmapstart
  bits_fit : size / 8192 + bmapstart < 2 ^ 31
  fits : size ≤ 2 ^ 31

/-- `struct dinode`, and the copy of it in `struct inode`. -/
@[ext]
structure DiskInode where
  type : BitVec 16
  major : BitVec 16
  minor : BitVec 16
  nlink : BitVec 16
  size : BitVec 32
  addrs : Fin 13 → BlockNo

/-! ## `mkfs.c` -/

abbrev FSSIZE : Nat := 5000
abbrev NINODES : Nat := 200

def mkfsSb : Superblock where
  size := FSSIZE
  ninodes := NINODES
  inodestart := 2 + LOGSIZE
  bmapstart := 2 + LOGSIZE + (NINODES / 16 + 1)
  inodes_fit := by decide
  bits_fit := by decide
  fits := by decide

namespace Superblock

/-- The first block behind the free map (`nmeta` of `mkfs`). -/
def datastart (sb : Superblock) : Nat := sb.bmapstart + sb.size / 8192 + 1

def IsData (sb : Superblock) (b : BlockNo) : Prop := sb.datastart ≤ b.toNat ∧ b.toNat < sb.size
deriving Decidable

def iblock (sb : Superblock) (i : Nat) : BlockNo := BitVec.ofNat 32 (i / 16 + sb.inodestart)

def bblock (sb : Superblock) (b : Nat) : BlockNo := BitVec.ofNat 32 (b / 8192 + sb.bmapstart)

variable {sb : Superblock} {i j b c : Nat} {a : BlockNo}

theorem iblock_toNat (hi : i < sb.ninodes) :
    (sb.iblock i).toNat = i / 16 + sb.inodestart ∧ (sb.iblock i).toNat < sb.bmapstart := by
  have hfit := sb.inodes_fit
  have hbits := sb.bits_fit
  have hdiv : i / 16 ≤ sb.ninodes / 16 := Nat.div_le_div_right hi.le
  have hnat : (sb.iblock i).toNat = i / 16 + sb.inodestart := by
    rw [iblock, toNat_ofNat, Nat.mod_eq_of_lt (by omega)]
  exact ⟨hnat, by omega⟩

theorem bblock_toNat (hb : b < sb.size) :
    (sb.bblock b).toNat = b / 8192 + sb.bmapstart ∧ (sb.bblock b).toNat < sb.datastart := by
  have hbits := sb.bits_fit
  have hdiv : b / 8192 ≤ sb.size / 8192 := Nat.div_le_div_right hb.le
  have hnat : (sb.bblock b).toNat = b / 8192 + sb.bmapstart := by
    rw [bblock, toNat_ofNat, Nat.mod_eq_of_lt (by omega)]
  exact ⟨hnat, by unfold datastart; omega⟩

theorem iblock_eq_iff (hi : i < sb.ninodes) (hj : j < sb.ninodes) : sb.iblock i = sb.iblock j ↔ i / 16 = j / 16 := by
  rw [← toNat_inj, (iblock_toNat hi).1, (iblock_toNat hj).1]
  omega

theorem bblock_eq_iff (hb : b < sb.size) (hc : c < sb.size) : sb.bblock b = sb.bblock c ↔ b / 8192 = c / 8192 := by
  rw [← toNat_inj, (bblock_toNat hb).1, (bblock_toNat hc).1]
  omega

theorem iblock_ne_bblock (hi : i < sb.ninodes) (hb : b < sb.size) : sb.iblock i ≠ sb.bblock b := by
  intro h
  have hlt := (iblock_toNat hi).2
  rw [h, (bblock_toNat hb).1] at hlt
  omega

theorem IsData.ne_iblock (ha : sb.IsData a) (hi : i < sb.ninodes) : a ≠ sb.iblock i := by
  rintro rfl
  have hlt := (iblock_toNat hi).2
  have hdata := ha.1
  unfold datastart at hdata
  omega

theorem IsData.ne_bblock (ha : sb.IsData a) (hb : b < sb.size) : a ≠ sb.bblock b := by
  rintro rfl
  exact absurd (bblock_toNat hb).2 (Nat.not_lt.mpr ha.1)

theorem IsData.ne_zero (ha : sb.IsData a) : a ≠ 0 := by
  rintro rfl
  have hdata := ha.1
  unfold datastart at hdata
  simp at hdata

end Superblock

/-! ## Inodes in their blocks -/

namespace DiskInode

def words (x : DiskInode) : Fin 16 → BitVec 32 := fun k =>
  if k.val = 0 then x.major ++ x.type
  else if k.val = 1 then x.nlink ++ x.minor
  else if k.val = 2 then x.size
  else x.addrs ⟨k - 3, by omega⟩

def ofWords (w : Fin 16 → BitVec 32) : DiskInode where
  type := (w ⟨0, by decide⟩).extractLsb' 0 16
  major := (w ⟨0, by decide⟩).extractLsb' 16 16
  minor := (w ⟨1, by decide⟩).extractLsb' 0 16
  nlink := (w ⟨1, by decide⟩).extractLsb' 16 16
  size := w ⟨2, by decide⟩
  addrs := fun i => w ⟨i + 3, by omega⟩

theorem ofWords_words (x : DiskInode) : ofWords x.words = x := by
  have hlow : ∀ a b : BitVec 16, (a ++ b : BitVec 32).extractLsb' 0 16 = b := by
    intro a b
    apply eq_of_getLsbD_eq
    intro k hk
    rw [getLsbD_extractLsb', getLsbD_append]
    simp [hk]
  have hhigh : ∀ a b : BitVec 16, (a ++ b : BitVec 32).extractLsb' 16 16 = a := by
    intro a b
    apply eq_of_getLsbD_eq
    intro k hk
    rw [getLsbD_extractLsb', getLsbD_append]
    simp [hk]
  ext1
  · exact hlow x.major x.type
  · exact hhigh x.major x.type
  · exact hlow x.nlink x.minor
  · exact hhigh x.nlink x.minor
  · rfl
  · funext i
    simp [ofWords, words]

end DiskInode

def inodeSlot (i : Nat) : Fin 16 := ⟨i % 16, Nat.mod_lt _ (by decide)⟩

def getInode (slot : Fin 16) (blk : Block) : DiskInode := .ofWords fun k => blk ⟨slot * 16 + k, by omega⟩

def putInode (slot : Fin 16) (x : DiskInode) (blk : Block) : Block := fun w =>
  if w.val / 16 = slot then x.words ⟨w % 16, Nat.mod_lt _ (by decide)⟩ else blk w

theorem getInode_putInode (slot slot' : Fin 16) (x : DiskInode) (blk : Block) :
    getInode slot' (putInode slot x blk) = if slot' = slot then x else getInode slot' blk := by
  unfold getInode putInode
  split
  · rename_i h
    subst h
    refine (congrArg DiskInode.ofWords (funext fun k => ?_)).trans x.ofWords_words
    rw [if_pos (by dsimp only; omega)]
    exact congrArg x.words (Fin.ext (by dsimp only; omega))
  · rename_i h
    refine congrArg DiskInode.ofWords (funext fun k => if_neg fun hk => h (Fin.ext ?_))
    dsimp only at hk
    omega

def readInode (sb : Superblock) (d : Disk) (i : Nat) : DiskInode := getInode (inodeSlot i) (d (sb.iblock i))

def writeInode (sb : Superblock) (i : Nat) (x : DiskInode) (d : Disk) : Disk :=
  update d (sb.iblock i) (putInode (inodeSlot i) x (d (sb.iblock i)))

section Disk

variable {sb : Superblock} {i j b c : Nat} {x : DiskInode} {d : Disk} {a : BlockNo}

/-- **Inodes read what was written.** -/
theorem readInode_writeInode (hi : i < sb.ninodes) (hj : j < sb.ninodes) :
    readInode sb (writeInode sb i x d) j = if j = i then x else readInode sb d j := by
  unfold readInode writeInode
  by_cases hblk : sb.iblock j = sb.iblock i
  · rw [hblk, update_self, getInode_putInode]
    have hdiv := (Superblock.iblock_eq_iff hj hi).mp hblk
    have hslot : inodeSlot j = inodeSlot i ↔ j = i := by
      rw [inodeSlot, inodeSlot, Fin.mk.injEq]
      omega
    simp only [hslot]
  · rw [update_of_ne hblk, if_neg (fun h => hblk (by rw [h]))]

theorem readInode_update (hi : i < sb.ninodes) (ha : ∀ i < sb.ninodes, a ≠ sb.iblock i) (blk : Block) :
    readInode sb (update d a blk) i = readInode sb d i := by
  rw [readInode, update_of_ne (ha i hi).symm, readInode]

theorem writeInode_of_ne (ha : a ≠ sb.iblock i) : writeInode sb i x d a = d a := update_of_ne ha _ _

/-! ## The free map -/

def bitWord (b : Nat) : Fin 256 := ⟨b % 8192 / 32, by omega⟩

def bit (sb : Superblock) (d : Disk) (b : Nat) : Bool := (d (sb.bblock b) (bitWord b)).getLsbD (b % 32)

def setBit (sb : Superblock) (b : Nat) (v : Bool) (d : Disk) : Disk :=
  let word := d (sb.bblock b) (bitWord b)
  let m := 1#32 <<< (b % 32)
  update d (sb.bblock b) (update (d (sb.bblock b)) (bitWord b) (if v then word ||| m else word &&& ~~~m))

theorem getLsbD_mark {j k : Nat} (hj : j < 32) (w : BitVec 32) (v : Bool) :
    (if v then w ||| 1#32 <<< k else w &&& ~~~(1#32 <<< k)).getLsbD j =
      if j = k then v else w.getLsbD j := by
  have hm : (1#32 <<< k).getLsbD j = decide (j = k) := by
    rw [getLsbD_shiftLeft, getLsbD_one]
    by_cases hlt : j < k
    · have hne : j ≠ k := by omega
      simp [hlt, hne]
    · have heq : j - k = 0 ↔ j = k := by omega
      simp [hj, hlt, heq]
  cases v with
  | false =>
    rw [if_neg (by simp), getLsbD_and, getLsbD_not, hm]
    by_cases h : j = k <;> simp [h, hj]
  | true =>
    rw [if_pos rfl, getLsbD_or, hm]
    by_cases h : j = k <;> simp [h]

/-- **Bits read what was written.** -/
theorem bit_setBit (hb : b < sb.size) (hc : c < sb.size) (v : Bool) :
    bit sb (setBit sb b v d) c = if c = b then v else bit sb d c := by
  unfold bit setBit
  by_cases hblk : sb.bblock c = sb.bblock b
  · have hdiv := (Superblock.bblock_eq_iff hc hb).mp hblk
    rw [hblk, update_self]
    by_cases hword : bitWord c = bitWord b
    · have hw : c % 8192 / 32 = b % 8192 / 32 := congrArg Fin.val hword
      have hcb : c % 32 = b % 32 ↔ c = b := by omega
      rw [hword, update_self]
      rw [getLsbD_mark (Nat.mod_lt c (by decide))]
      simp only [hcb]
    · rw [update_of_ne hword, if_neg]
      rintro rfl
      exact hword rfl
  · rw [update_of_ne hblk, if_neg]
    rintro rfl
    exact hblk rfl

end Disk

end Xv6.Fs
