/-
# Xv6.Fs.Reading — what `readi` and `dirlookup` return (`kernel/fs.c`).

`x.Holds d bytes` says that the inode `x` begins with `bytes` on the disk `d`: every block under them is
allocated, and the blocks contain them.  On such an inode `readi` returns the slice it is asked for and
touches nothing.  `dirlookup` is here as the code has it, one `readi` of `sizeof(de)` bytes for each entry;
on an inode that holds a list of entries it finds what the search of that list finds, which is how
`Fs.Inode` has it.
-/
import Mathlib.Data.List.TakeWhile
import Xv6.Fs.Content
import Xv6.Fs.Inode

namespace Xv6.Fs

open Function List
open Kernel (Cid CharArr BSIZE)
open Lib (bind_eq_ok)

section Bytes

theorem extract_word (b3 b2 b1 b0 : BitVec 8) (k : Nat) (hk : k < 4) :
    (b3 ++ b2 ++ b1 ++ b0 : BitVec 32).extractLsb' (8 * k) 8 =
      if k = 0 then b0 else if k = 1 then b1 else if k = 2 then b2 else b3 := by
  apply BitVec.eq_of_getLsbD_eq
  intro i hi
  have hcase : k = 0 ∨ k = 1 ∨ k = 2 ∨ k = 3 := by omega
  rw [BitVec.getLsbD_extractLsb']
  simp only [BitVec.getLsbD_append]
  rcases hcase with rfl | rfl | rfl | rfl
  · simp [hi]
  · have h1 : ¬ 8 + i < 8 := by omega
    simp [hi]
  · have h1 : ¬ 16 + i < 8 := by omega
    have h2 : 16 + i - 8 = 8 + i := by omega
    simp [hi, h1, h2]
  have h1 : ¬ 24 + i < 8 := by omega
  have h2 : 24 + i - 8 = 16 + i := by omega
  have h3 : ¬ 16 + i < 8 := by omega
  have h4 : 16 + i - 8 = 8 + i := by omega
  simp [hi, h1, h2, h3, h4]

/-- **Bytes read what was copied.** -/
theorem byteAt_overwrite (blk : Block) (start len : Nat) (f : Nat → BitVec 8) {p : Nat} (hp : p < 1024) :
    byteAt (overwrite blk start len f) p =
      if start ≤ p ∧ p < start + len then f (p - start) else byteAt blk p := by
  have hword : p / 4 % 256 = p / 4 := Nat.mod_eq_of_lt (by omega)
  have hsplit : 4 * (p / 4) + p % 4 = p := Nat.div_add_mod p 4
  conv_lhs => unfold byteAt overwrite
  dsimp only
  rw [extract_word _ _ _ _ _ (Nat.mod_lt p (by decide)), hword]
  have hcase : p % 4 = 0 ∨ p % 4 = 1 ∨ p % 4 = 2 ∨ p % 4 = 3 := by omega
  rcases hcase with h | h | h | h <;> rw [h] at hsplit ⊢ <;> simp only [hsplit] <;> rfl

theorem overwrite_congr {blk blk' : Block} {start len : Nat} {f g : Nat → BitVec 8} (hin : ∀ k, k < len → f k = g k)
    (hout : ∀ p, p < 1024 → ¬ (start ≤ p ∧ p < start + len) → byteAt blk p = byteAt blk' p) :
    overwrite blk start len f = overwrite blk' start len g := by
  funext w
  have hbyte : ∀ k, k < 4 → (if start ≤ 4 * w.val + k ∧ 4 * w.val + k < start + len then f (4 * w.val + k - start) else
      byteAt blk (4 * w.val + k)) = if start ≤ 4 * w.val + k ∧ 4 * w.val + k < start + len then
      g (4 * w.val + k - start) else byteAt blk' (4 * w.val + k) := by
    intro k hk
    by_cases hmem : start ≤ 4 * w.val + k ∧ 4 * w.val + k < start + len
    · rw [if_pos hmem, if_pos hmem, hin _ (by omega)]
    · rw [if_neg hmem, if_neg hmem, hout _ (by omega) hmem]
  unfold overwrite
  dsimp only
  rw [hbyte 0 (by omega), hbyte 1 (by omega), hbyte 2 (by omega), hbyte 3 (by omega)]

end Bytes

/-! ## `readi` -/

namespace DiskInode

def byte (x : DiskInode) (d : Disk) (p : Nat) : BitVec 8 :=
  byteAt (d (x.addrAt d (.ofBlock (p / BSIZE)))) (p % BSIZE)

/-- The inode begins with `bytes`. -/
structure Holds (x : DiskInode) (d : Disk) (bytes : List (BitVec 8)) : Prop where
  mapped : x.MappedTo d bytes.length
  byte_eq : ∀ p (h : p < bytes.length), x.byte d p = bytes[p]

end DiskInode

section Read

variable {sb : Superblock} {c : Cid} {x : DiskInode} {st : Store} {bytes : List (BitVec 8)} {off n : BitVec 32}

/-- A kernel buffer can be written everywhere. -/
def anywhere (_ : Nat) : Bool := true

theorem reach_anywhere (tot m : Nat) : reach anywhere tot m = m := by
  have hall : (range m).takeWhile (fun k => anywhere (tot + k)) = range m := takeWhile_eq_self_iff.mpr fun _ _ => rfl
  rw [reach, hall, length_range]

section

variable (h : x.Holds st.disk bytes)
include h

theorem DiskInode.Holds.turn {off m : Nat} (hoff : off + m ≤ bytes.length)
    (hm : off % BSIZE + m ≤ BSIZE) :
    ((range m).map fun k => byteAt (st.disk (x.addrAt st.disk (.ofBlock (off / BSIZE)))) (off % BSIZE + k)) =
      (bytes.drop off).take m := by
  apply ext_getElem
  · simp only [length_map, length_range, length_take, length_drop]
    omega
  intro k hk hk'
  rw [length_map, length_range] at hk
  have hlt : off + k < bytes.length := by omega
  unfold BSIZE at hm
  have hbyte := h.byte_eq (off + k) hlt
  have hdiv : (off + k) / 1024 = off / 1024 := by omega
  have hmod : (off + k) % 1024 = off % 1024 + k := by omega
  unfold DiskInode.byte BSIZE at hbyte
  rw [hdiv, hmod] at hbyte
  rw [getElem_map, getElem_range, getElem_take, getElem_drop]
  exact hbyte

theorem readLoop_holds (n fuel tot off : Nat) (hfuel : n - tot ≤ fuel)
    (hoff : off + (n - tot) ≤ bytes.length) :
    readLoop sb c anywhere n fuel tot off x st = .ok ((bytes.drop off).take (n - tot), x, st) := by
  induction fuel generalizing tot off with
  | zero =>
    rw [Nat.le_zero.mp hfuel, take_zero]
    rfl
  | succ fuel ih =>
    unfold readLoop
    by_cases hlt : tot < n
    · have hB : BSIZE = 1024 := rfl
      have hmap : off / BSIZE < MAXFILE ∧ x.addrAt st.disk (.ofBlock (off / BSIZE)) ≠ 0 :=
        h.mapped (off / BSIZE) (by rw [hB]; omega)
      have hmod : off % BSIZE < BSIZE := Nat.mod_lt _ (by decide)
      rw [if_pos hlt, bmap_of_mapped hmap.1 hmap.2]
      simp only [bind, Except.bind]
      generalize hm : min (n - tot) (BSIZE - off % BSIZE) = m
      rw [reach_anywhere, if_neg (Nat.lt_irrefl m), h.turn (by omega) (by omega),
        ih (tot + m) (off + m) (by omega) (by omega)]
      dsimp only
      have hrest : n - tot = m + (n - (tot + m)) := by omega
      rw [hrest, take_add, drop_drop]
    · have hzero : n - tot = 0 := by omega
      rw [if_neg hlt, hzero, take_zero]

/-- **`readi` of a slice** that the inode holds. -/
theorem readi_slice (hsize : bytes.length ≤ x.size.toNat)
    (hend : off.toNat + n.toNat ≤ bytes.length) :
    readi sb c x anywhere off n st = .ok (n.toInt, (bytes.drop off.toNat).take n.toNat, x, st) := by
  have hs := x.size.isLt
  have hsum : (off + n).toNat = off.toNat + n.toNat := by
    rw [BitVec.toNat_add, Nat.mod_eq_of_lt (by omega)]
  unfold readi
  rw [if_neg, if_neg]
  · dsimp only
    have hloop : readLoop sb c anywhere n.toNat n.toNat 0 off.toNat x st = _ :=
      readLoop_holds h n.toNat n.toNat 0 off.toNat (Nat.sub_le _ _) (by omega)
    rw [hloop]
    rfl
  · rw [BitVec.lt_def, hsum]
    omega
  · rw [not_or, BitVec.lt_def, BitVec.lt_def, hsum]
    omega

/-- **`readi` of a file** returns what the file has from `off` on, and at most `n` bytes of it. -/
theorem readi_file (hsize : x.size.toNat = bytes.length)
    (hoff : off.toNat ≤ bytes.length) (hsum : off.toNat + n.toNat < 2 ^ 32) :
    readi sb c x anywhere off n st = .ok (((bytes.drop off.toNat).take n.toNat).length, (bytes.drop off.toNat).take n.toNat, x, st) := by
  have hmap := h.mapped.le
  have hlen : ((bytes.drop off.toNat).take n.toNat).length = min n.toNat (bytes.length - off.toNat) := by
    rw [length_take, length_drop]
  by_cases hcut : off.toNat + n.toNat ≤ bytes.length
  · rw [readi_slice h (Nat.le_of_eq hsize.symm) hcut, hlen, BitVec.toInt_eq_toNat_of_lt (by omega)]
    have hmin : min n.toNat (bytes.length - off.toNat) = n.toNat := by omega
    rw [hmin]
  -- the request is cut at the size of the file
  have hcutsum : (off + n).toNat = off.toNat + n.toNat := by
    rw [BitVec.toNat_add, Nat.mod_eq_of_lt hsum]
  have hrest : (x.size - off).toNat = bytes.length - off.toNat := by
    rw [BitVec.toNat_sub_of_le (BitVec.le_def.mpr (by omega)), hsize]
  unfold readi
  rw [if_neg, if_pos]
  · dsimp only
    have hloop : readLoop sb c anywhere (x.size - off).toNat (x.size - off).toNat 0 off.toNat x st = _ :=
      readLoop_holds h (x.size - off).toNat (x.size - off).toNat 0 off.toNat (Nat.sub_le _ _) (by omega)
    rw [hloop, hlen, BitVec.toInt_eq_toNat_of_lt (by omega), Nat.sub_zero, hrest]
    have hmin : min n.toNat (bytes.length - off.toNat) = bytes.length - off.toNat := by omega
    have htake : (bytes.drop off.toNat).take n.toNat = (bytes.drop off.toNat).take (bytes.length - off.toNat) := by
      rw [take_of_length_le (by rw [length_drop]; omega), take_of_length_le (by rw [length_drop])]
    rw [hmin, htake]
    rfl
  · rw [BitVec.lt_def, hcutsum]
    omega
  · rw [not_or, BitVec.lt_def, BitVec.lt_def, hcutsum]
    omega

end

theorem readi_behind (hoff : x.size.toNat < off.toNat) (n : BitVec 32) :
    readi sb c x anywhere off n st = .ok (-1, [], x, st) := by
  unfold readi
  rw [if_pos (Or.inl (BitVec.lt_def.mpr hoff))]

end Read

/-! ## Directory entries -/

/-- `struct dirent` in its 16 bytes. -/
def Dirent.bytes (de : Dirent) : List (BitVec 8) :=
  de.inum.toBitVec.extractLsb' 0 8 :: de.inum.toBitVec.extractLsb' 8 8 :: List.ofFn fun i => (de.name i).toBitVec

def Dirent.ofBytes (bytes : List (BitVec 8)) : Dirent where
  inum := ⟨(bytes.getD 1 0 ++ bytes.getD 0 0 : BitVec 16)⟩
  name := fun i => ⟨bytes.getD (2 + i) 0⟩

@[simp]
theorem Dirent.length_bytes (de : Dirent) : de.bytes.length = 16 := by simp [Dirent.bytes]

theorem Dirent.ofBytes_bytes (de : Dirent) : Dirent.ofBytes de.bytes = de := by
  obtain ⟨inum, name⟩ := de
  unfold Dirent.ofBytes Dirent.bytes
  congr 1
  · apply UInt16.toBitVec_inj.mp
    apply BitVec.eq_of_getLsbD_eq
    intro i hi
    simp only [getD_cons_succ, getD_cons_zero, BitVec.getLsbD_append, BitVec.getLsbD_extractLsb']
    by_cases hlow : i < 8
    · simp [hlow]
    · have hhigh : i - 8 < 8 := by omega
      have hback : 8 + (i - 8) = i := by omega
      simp [hlow, hhigh, hback]
  · funext i
    apply UInt8.toBitVec_inj.mp
    have hidx : 2 + i.val = i.val + 1 + 1 := by omega
    simp only [hidx, getD_cons_succ]
    rw [getD_eq_getElem _ _ (by rw [length_ofFn]; exact i.isLt), List.getElem_ofFn]

abbrev T_DIR : BitVec 16 := 1
abbrev T_FILE : BitVec 16 := 2

/-- The panics of `dirlookup`, and those of the `readi` it calls. -/
inductive DirPanic
  | dirlookupNotDir
  | dirlookupRead
  | content (e : Panic)
  deriving DecidableEq

section Lookup

variable (sb : Superblock) (c : Cid)

/-- The loop of `dirlookup`, from offset `off` on: the i-number of the entry found and its offset. -/
def dirScan (name : CharArr DIRSIZ) :
    Nat → Nat → DiskInode → Store → Except DirPanic (Option (Nat × Nat) × DiskInode × Store)
  | 0, _, x, st => .ok (none, x, st)
  | fuel + 1, off, x, st =>
    if off < x.size.toNat then
      match readi sb c x anywhere (BitVec.ofNat 32 off) 16 st with
      | .error e => .error (.content e)
      | .ok (r, bytes, x, st) =>
        if r ≠ 16 then .error .dirlookupRead
        else
          let de := Dirent.ofBytes bytes
          if de.inum = 0 then dirScan name fuel (off + 16) x st
          else if namecmp name de.name = 0 then .ok (some (de.inum.toNat, off), x, st)
          else dirScan name fuel (off + 16) x st
    else .ok (none, x, st)

/-- `dirlookup(dp, name, poff)`, up to the `iget` of the i-number it found, with its panic `iget: no inodes`
(`Fs.iget`).  Every turn goes 16 bytes further, so `size / 16 + 1` turns are enough. -/
def DiskInode.dirlookup (x : DiskInode) (name : CharArr DIRSIZ) (st : Store) :
    Except DirPanic (Option (Nat × Nat) × DiskInode × Store) :=
  if x.type ≠ T_DIR then .error .dirlookupNotDir
  else dirScan sb c name (x.size.toNat / 16 + 1) 0 x st

end Lookup

section Scan

variable {sb : Superblock} {c : Cid} {x : DiskInode} {st : Store} {ents : List Dirent} {de : Dirent}
variable {name : CharArr DIRSIZ}

def Dirent.Matches (de : Dirent) (name : CharArr DIRSIZ) : Bool := de.inum != 0 && namecmp name de.name == 0

theorem Dirent.matches_iff : de.Matches name = true ↔ de.inum ≠ 0 ∧ namecmp name de.name = 0 := by
  simp [Dirent.Matches]

def direntBytes (ents : List Dirent) : List (BitVec 8) := ents.flatMap Dirent.bytes

theorem length_direntBytes (ents : List Dirent) : (direntBytes ents).length = 16 * ents.length := by
  induction ents with
  | nil => rfl
  | cons de ents ih =>
    have hcons : direntBytes (de :: ents) = de.bytes ++ direntBytes ents := rfl
    rw [hcons, length_append, ih, Dirent.length_bytes, length_cons]
    omega

theorem direntBytes_slice (pre post : List Dirent) (de : Dirent) :
    ((direntBytes (pre ++ de :: post)).drop (16 * pre.length)).take 16 = de.bytes := by
  have hsplit : direntBytes (pre ++ de :: post) = direntBytes pre ++ (de.bytes ++ direntBytes post) := by
    unfold direntBytes
    rw [flatMap_append, flatMap_cons]
  rw [hsplit, ← length_direntBytes, drop_left, ← Dirent.length_bytes de, take_left]

theorem readi_entry {pre post : List Dirent} (h : x.Holds st.disk (direntBytes (pre ++ de :: post)))
    (hsize : 16 * (pre ++ de :: post).length ≤ x.size.toNat) :
    readi sb c x anywhere (BitVec.ofNat 32 (16 * pre.length)) 16 st = .ok (16, de.bytes, x, st) := by
  have hlen : (pre ++ de :: post).length = pre.length + (post.length + 1) := by
    rw [length_append, length_cons]
  have hs := x.size.isLt
  have hoff : (BitVec.ofNat 32 (16 * pre.length)).toNat = 16 * pre.length := by
    rw [BitVec.toNat_ofNat, Nat.mod_eq_of_lt (by omega)]
  have hread : readi sb c x anywhere (BitVec.ofNat 32 (16 * pre.length)) 16 st = _ := readi_slice h
    (by rw [length_direntBytes]; exact hsize)
    (by
      rw [length_direntBytes, hoff, hlen]
      show 16 * pre.length + 16 ≤ _
      omega)
  have hslice : ((direntBytes (pre ++ de :: post)).drop (BitVec.ofNat 32 (16 * pre.length)).toNat).take
      (16 : BitVec 32).toNat = de.bytes := by
    rw [hoff]
    exact direntBytes_slice pre post de
  rw [hslice] at hread
  exact hread

theorem dirScan_turn {pre post : List Dirent} (h : x.Holds st.disk (direntBytes (pre ++ de :: post)))
    (hsize : 16 * (pre ++ de :: post).length ≤ x.size.toNat) (fuel : Nat) :
    dirScan sb c name (fuel + 1) (16 * pre.length) x st =
      if de.Matches name then .ok (some (de.inum.toNat, 16 * pre.length), x, st)
      else dirScan sb c name fuel (16 * (pre.length + 1)) x st := by
  conv_lhs => unfold dirScan
  rw [if_pos (by rw [length_append, length_cons] at hsize; omega), readi_entry h hsize]
  dsimp only
  rw [if_neg (by decide), Dirent.ofBytes_bytes]
  unfold Dirent.Matches
  by_cases hz : de.inum = 0
  · simp [hz, Nat.mul_add]
  · by_cases hn : namecmp name de.name = 0
    · simp [hz, hn]
    · simp [hz, hn, Nat.mul_add]

theorem dirScan_found (post : List Dirent) : ∀ (pre : List Dirent) (fuel : Nat) {de : Dirent},
    x.Holds st.disk (direntBytes (pre ++ post)) → 16 * (pre ++ post).length ≤ x.size.toNat →
    post.length ≤ fuel → post.find? (·.Matches name) = some de →
    ∃ off, dirScan sb c name fuel (16 * pre.length) x st = .ok (some (de.inum.toNat, off), x, st) := by
  induction post with
  | nil =>
    intro pre fuel de _ _ _ hfind
    cases hfind
  | cons e post ih =>
    intro pre fuel de h hsize hfuel hfind
    obtain ⟨fuel, rfl⟩ : ∃ k, fuel = k + 1 := ⟨fuel - 1, by rw [length_cons] at hfuel; omega⟩
    rw [dirScan_turn h hsize]
    by_cases hmatch : e.Matches name = true
    · rw [find?_cons, hmatch] at hfind
      cases hfind
      exact ⟨_, if_pos hmatch⟩
    rw [find?_cons, Bool.eq_false_of_not_eq_true hmatch] at hfind
    rw [if_neg hmatch]
    have happ : pre ++ e :: post = (pre ++ [e]) ++ post := by simp
    rw [happ] at h hsize
    have hrest := ih (pre ++ [e]) fuel h hsize (by rw [length_cons] at hfuel; omega) hfind
    rwa [length_append, length_singleton] at hrest

/-- **`dirlookup` finds the first entry that matches.**  The directory may go on behind its entries. -/
theorem dirlookup_found (hdir : x.type = T_DIR) (h : x.Holds st.disk (direntBytes ents))
    (hsize : 16 * ents.length ≤ x.size.toNat) (hfind : ents.find? (·.Matches name) = some de) :
    ∃ off, x.dirlookup sb c name st = .ok (some (de.inum.toNat, off), x, st) := by
  unfold DiskInode.dirlookup
  rw [if_neg (not_not.mpr hdir)]
  exact dirScan_found ents [] _ h hsize (by omega) hfind

end Scan

end Xv6.Fs
