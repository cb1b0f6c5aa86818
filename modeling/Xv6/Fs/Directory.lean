/-
# Xv6.Fs.Directory — a directory is a finite map from names to i-numbers (`dirlookup`, `dirlink` of
`kernel/fs.c`, and how `sys_unlink` clears an entry).

Three levels.  The code reads and writes 16 bytes at a time through `readi` and `writei`.  In between
stands the list of entries that these bytes are: `dirlookup` is a search of it (`findEntry`), and `dirlink`
and `sys_unlink` write one slot of it (`Directory.write`).  What a write of one slot does to
every search is a fact about tables of slots, and the laws of a map follow.

A file name is a pointer to bytes, with a NUL somewhere or without; `namecmp` and `strncpy` look at its
first `DIRSIZ` bytes only (`firstBytes`).
-/
import Xv6.Fs.Filewrite
import Xv6.Fs.Links
import Xv6.Lib.Slots

namespace Xv6.Fs

open List Finset

open Kernel (Cid CharArr BSIZE CStr strncmp strncpy)
open Lib (bind_eq_ok put First Distinct)

/-! ## The code -/

/-- The panics of `dirlink` and `sys_unlink`, and those of the functions they call. -/
inductive LinkPanic
  | lookup (e : DirPanic)
  | dirlinkRead
  | dirlink
  | unlinkWritei
  | content (e : Panic)
  deriving DecidableEq

def firstBytes (name : Nat → UInt8) : CharArr DIRSIZ := fun i => name i

section Code

variable (sb : Superblock) (c : Cid)

/-- The loop of `dirlink`, "look for an empty dirent", from offset `off` on: the offset it stops at. -/
def emptyScan : Nat → Nat → DiskInode → Store → Except LinkPanic (Nat × DiskInode × Store)
  | 0, off, x, st => .ok (off, x, st)
  | fuel + 1, off, x, st =>
    if off < x.size.toNat then
      match readi sb c x anywhere (BitVec.ofNat 32 off) 16 st with
      | .error e => .error (.content e)
      | .ok (r, bytes, x, st) =>
        if r ≠ 16 then .error .dirlinkRead
        else if (Dirent.ofBytes bytes).inum = 0 then .ok (off, x, st)
        else emptyScan fuel (off + 16) x st
    else .ok (off, x, st)

/-- `dirlink(dp, name, inum)` on inode `i`, without the `iget` of `dirlookup` (and its panic `iget: no inodes`, on a
full cache) and the `iput` that follows it. -/
def DiskInode.dirlink (i : Nat) (x : DiskInode) (name : Nat → UInt8) (inum : Nat) (st : Store) :
    Except LinkPanic (Int × DiskInode × Store) :=
  match x.dirlookup sb c (firstBytes name) st with
  | .error e => .error (.lookup e)
  | .ok (some _, x, st) => .ok (-1, x, st)
  | .ok (none, x, st) =>
    match emptyScan sb c (x.size.toNat / 16 + 1) 0 x st with
    | .error e => .error e
    | .ok (off, x, st) =>
      let de : Dirent := ⟨UInt16.ofNat inum, entryName (firstBytes name)⟩
      match writei sb c i x (source de.bytes) (BitVec.ofNat 32 off) 16 st with
      | .error e => .error (.content e)
      | .ok (r, x, st) => if r ≠ 16 then .error .dirlink else .ok (0, x, st)

/-- The `memset` and the `writei` of `sys_unlink`, which clear the entry at `off`. -/
def DiskInode.clearEntry (i : Nat) (x : DiskInode) (off : Nat) (st : Store) : Except LinkPanic (DiskInode × Store) :=
  let de : Dirent := ⟨0, fun _ => 0⟩
  match writei sb c i x (source de.bytes) (BitVec.ofNat 32 off) 16 st with
  | .error e => .error (.content e)
  | .ok (r, x, st) => if r ≠ 16 then .error .unlinkWritei else .ok (x, st)

end Code

/-! ## The entries -/

/-- The slot that `dirlink` writes: the first that is not in use, or the one behind the last. -/
def freeSlot : List Dirent → Nat
  | [] => 0
  | e :: l => if e.inum = 0 then 0 else freeSlot l + 1

/-- An entry that `dirlookup` stops at. -/
def Dirent.Named (name : CharArr DIRSIZ) (e : Dirent) : Prop := e.inum ≠ 0 ∧ namecmp name e.name = 0

/-- Two entries in use with one name. -/
def Dirent.Same (a b : Dirent) : Prop := a.inum ≠ 0 ∧ b.inum ≠ 0 ∧ namecmp a.name b.name = 0

section Entries

variable {ents : List Dirent} {e de a : Dirent} {k : Nat} {name other : CharArr DIRSIZ}

theorem freeSlot_le (ents : List Dirent) : freeSlot ents ≤ ents.length := by
  induction ents with
  | nil => exact Nat.le_refl 0
  | cons e l ih =>
    unfold freeSlot
    split
    · exact Nat.zero_le _
    · exact Nat.succ_le_succ ih

theorem freeSlot_free (h : ents[freeSlot ents]? = some e) : e.inum = 0 := by
  induction ents with
  | nil => cases h
  | cons a l ih =>
    unfold freeSlot at h
    split at h
    · rename_i hfree
      cases h
      exact hfree
    · exact ih h

theorem addEntry_eq_put (de : Dirent) (ents : List Dirent) : addEntry de ents = put ents (freeSlot ents) de := by
  induction ents with
  | nil => rfl
  | cons e l ih =>
    unfold addEntry freeSlot
    split
    · rfl
    · rw [ih]
      rfl

theorem findEntry_iff : findEntry name ents = some (e, k) ↔ First (Dirent.Named name) ents k e := by
  constructor
  · intro h
    obtain ⟨hentry, hhit⟩ := findEntry_some h
    refine ⟨hentry, hhit, ?_⟩
    clear hentry hhit
    induction ents generalizing k with
    | nil => cases h
    | cons a l ih =>
      intro j b hj hb hnamed
      unfold findEntry at h
      split at h
      · cases h
        exact absurd hj (Nat.not_lt_zero j)
      rename_i hmiss
      obtain ⟨⟨e', k'⟩, hfind, heq⟩ := Option.map_eq_some_iff.mp h
      cases heq
      cases j with
      | zero =>
        cases hb
        exact hmiss hnamed
      | succ j => exact ih hfind j b (Nat.lt_of_succ_lt_succ hj) hb hnamed
  · intro h
    induction ents generalizing k with
    | nil => cases h.entry
    | cons a l ih =>
      unfold findEntry
      cases k with
      | zero =>
        cases h.entry
        exact if_pos h.hit
      | succ k =>
        have hmiss : ¬ (a.inum ≠ 0 ∧ namecmp name a.name = 0) := h.before 0 a (Nat.succ_pos k) rfl
        rw [if_neg hmiss, ih ⟨h.entry, h.hit, fun j b hj hb => h.before (j + 1) b (Nat.succ_lt_succ hj) hb⟩]
        rfl

theorem findEntry_eq_none_iff : findEntry name ents = none ↔ ∀ e ∈ ents, ¬ e.Named name := by
  constructor
  · intro h e he hnamed
    exact findEntry_none h e he hnamed.1 hnamed.2
  · intro h
    cases hfind : findEntry name ents with
    | none => rfl
    | some r => exact absurd (findEntry_iff.mp hfind).hit (h _ (findEntry_iff.mp hfind).mem)

theorem findEntry_congr {ents' : List Dirent}
    (h : ∀ k e, First (Dirent.Named name) ents' k e ↔ First (Dirent.Named name) ents k e) :
    findEntry name ents' = findEntry name ents := by
  apply Option.ext
  rintro ⟨e, k⟩
  rw [findEntry_iff, findEntry_iff, h k e]

theorem findEntry_put_other (hk : k ≤ ents.length) (hde : ¬ de.Named other) (hold : ∀ e, ents[k]? = some e → ¬ e.Named other) :
    findEntry other (put ents k de) = findEntry other ents :=
  findEntry_congr fun _ _ => Lib.first_put hk hde hold

theorem Dirent.Named.congr (h : a.Named name) : a.Named other ↔ namecmp other name = 0 := by
  have hname := namecmp_eq_zero_iff.mp h.2
  unfold Dirent.Named
  rw [namecmp_eq_zero_iff, namecmp_eq_zero_iff, hname]
  exact and_iff_right h.1

theorem named_entry {inum : Nat} (hpos : 0 < inum) (hinum : inum < 2 ^ 16) (name : CharArr DIRSIZ) :
    Dirent.Named name ⟨UInt16.ofNat inum, entryName name⟩ := by
  refine ⟨fun hzero => ?_, ?_⟩
  · have hnat : (UInt16.ofNat inum).toNat = 0 := congrArg UInt16.toNat hzero
    have hback : (UInt16.ofNat inum).toNat = inum := UInt16.toNat_ofNat_of_lt hinum
    omega
  · rw [namecmp_eq_zero_iff, entryName_entryName]

theorem Dirent.Same.symm {b : Dirent} (h : a.Same b) : b.Same a :=
  ⟨h.2.1, h.1, namecmp_eq_zero_iff.mpr (namecmp_eq_zero_iff.mp h.2.2).symm⟩

section

variable (h : Distinct Dirent.Same ents)
include h

/-- **A new name keeps the names different.** -/
theorem distinct_put_new (hk : k ≤ ents.length) (hde : de.Named name)
    (hnew : ∀ e ∈ ents, ¬ e.Named name) : Distinct Dirent.Same (put ents k de) := by
  have hnot : ∀ (m : Nat) b, m ≠ k → ents[m]? = some b → ¬ de.Same b := by
    intro m b _ hb hsame
    refine hnew b (mem_of_getElem? hb) ⟨hsame.2.1, ?_⟩
    rw [namecmp_eq_zero_iff, namecmp_eq_zero_iff.mp hde.2, namecmp_eq_zero_iff.mp hsame.2.2]
  exact h.put hk hnot fun m b hm hb hsame => hnot m b hm hb hsame.symm

theorem distinct_put_free (hk : k ≤ ents.length) (hfree : de.inum = 0) : Distinct Dirent.Same (put ents k de) :=
  h.put hk (fun _ _ _ _ hsame => hsame.1 hfree) fun _ _ _ _ hsame => hsame.2.1 hfree

/-- A name that was cleared is gone: no other entry has it. -/
theorem not_named_put_free (hfind : First (Dirent.Named name) ents k e)
    (hfree : de.inum = 0) : ∀ b ∈ put ents k de, ¬ b.Named name := by
  have hk : k < ents.length := (List.getElem?_eq_some_iff.mp hfind.entry).1
  intro b hb hnamed
  obtain ⟨m, hm⟩ := mem_iff_getElem?.mp hb
  rw [Lib.getElem?_put hk.le] at hm
  by_cases hmk : m = k
  · rw [if_pos hmk] at hm
    cases hm
    exact hnamed.1 hfree
  · rw [if_neg hmk] at hm
    refine hmk (h m k b e hm hfind.entry ⟨hnamed.1, hfind.hit.1, ?_⟩)
    rw [namecmp_eq_zero_iff, ← namecmp_eq_zero_iff.mp hnamed.2, namecmp_eq_zero_iff.mp hfind.hit.2]

end

end Entries

/-! ## The bytes -/

section Bytes

variable {sb : Superblock} {c : Cid} {i k : Nat} {x : DiskInode} {st : Store} {ents : List Dirent}

theorem direntBytes_put (hk : k ≤ ents.length) (de : Dirent) :
    direntBytes (put ents k de) = overlay (direntBytes ents) (16 * k) de.bytes := by
  have hsplit : direntBytes ents = direntBytes (ents.take k) ++ direntBytes (ents.drop k) := by
    unfold direntBytes
    rw [← flatMap_append, take_append_drop]
  have hlen : (direntBytes (ents.take k)).length = 16 * k := by
    rw [length_direntBytes, length_take, Nat.min_eq_left hk]
  have htail : (direntBytes (ents.drop k)).drop 16 = direntBytes (ents.drop (k + 1)) := by
    cases hdrop : ents.drop k with
    | nil =>
      have hnil : ents.drop (k + 1) = [] := by rw [← tail_drop, hdrop]; rfl
      rw [hnil]
      rfl
    | cons e l =>
      have hl : ents.drop (k + 1) = l := by rw [← tail_drop, hdrop]; rfl
      have hcons : direntBytes (e :: l) = e.bytes ++ direntBytes l := rfl
      rw [hl, hcons, ← Dirent.length_bytes e, drop_left]
  have hput : direntBytes (put ents k de) = direntBytes (ents.take k) ++ de.bytes ++ direntBytes (ents.drop (k + 1)) := by
    unfold put direntBytes
    rw [flatMap_append, flatMap_cons, append_assoc]
  unfold overlay
  rw [Dirent.length_bytes, ← drop_drop, hsplit, ← hlen, take_left, drop_left, htail, hput]

/-- Inode `i` of a consistent disk is a directory, and `ents` are its
entries. -/
structure Directory (sb : Superblock) (i : Nat) (x : DiskInode) (d : Disk) (ents : List Dirent) : Prop where
  sound : Sound sb (names (inodesOf sb d) d) d
  self : inodesOf sb d i = some x
  mapped : x.MappedTo d x.size.toNat
  dir : x.type = T_DIR
  content : x.content d = direntBytes ents

namespace Directory

theorem size (h : Directory sb i x st.disk ents) : x.size.toNat = 16 * ents.length := by
  rw [← length_content x st.disk, h.content, length_direntBytes]

theorem holds (h : Directory sb i x st.disk ents) : x.Holds st.disk (direntBytes ents) := by
  rw [← h.content]
  exact h.mapped.holds

end Directory

/-- The answer of `dirlookup`: the i-number of the entry, and its offset. -/
def resolve (ents : List Dirent) (name : CharArr DIRSIZ) : Option (Nat × Nat) :=
  (findEntry name ents).map fun (e, k) => (e.inum.toNat, 16 * k)

theorem dirScan_eq (name : CharArr DIRSIZ) (post : List Dirent) : ∀ (pre : List Dirent) (fuel : Nat),
    x.Holds st.disk (direntBytes (pre ++ post)) → x.size.toNat = 16 * (pre ++ post).length → post.length ≤ fuel →
    dirScan sb c name fuel (16 * pre.length) x st =
      .ok ((findEntry name post).map fun (e, k) => (e.inum.toNat, 16 * (pre.length + k)), x, st) := by
  induction post with
  | nil =>
    intro pre fuel _ hsize _
    cases fuel with
    | zero => rfl
    | succ fuel =>
      rw [append_nil] at hsize
      unfold dirScan
      rw [if_neg (by omega)]
      rfl
  | cons e post ih =>
    intro pre fuel h hsize hfuel
    obtain ⟨fuel, rfl⟩ : ∃ k, fuel = k + 1 := ⟨fuel - 1, by rw [length_cons] at hfuel; omega⟩
    rw [dirScan_turn h (Nat.le_of_eq hsize.symm)]
    unfold findEntry
    by_cases hhit : e.Matches name = true
    · rw [if_pos hhit, if_pos (Dirent.matches_iff.mp hhit)]
      rfl
    rw [if_neg hhit, if_neg (fun hmatch => hhit (Dirent.matches_iff.mpr hmatch))]
    have happ : pre ++ e :: post = (pre ++ [e]) ++ post := by simp
    rw [happ] at h hsize
    have hrest := ih (pre ++ [e]) fuel h hsize (by rw [length_cons] at hfuel; omega)
    rw [length_append, length_singleton] at hrest
    rw [hrest]
    cases findEntry name post with
    | none => rfl
    | some r =>
      have hplace : pre.length + 1 + r.2 = pre.length + (r.2 + 1) := by omega
      show Except.ok (some (r.1.inum.toNat, 16 * (pre.length + 1 + r.2)), x, st) = _
      rw [hplace]
      rfl

/-- **`dirlookup` is the search of the entries.** -/
theorem Directory.dirlookup_eq (h : Directory sb i x st.disk ents) (c : Cid) (name : CharArr DIRSIZ) :
    x.dirlookup sb c name st = .ok (resolve ents name, x, st) := by
  have hsize := h.size
  unfold DiskInode.dirlookup resolve
  rw [if_neg (not_not.mpr h.dir)]
  have hscan : dirScan sb c name (x.size.toNat / 16 + 1) 0 x st = _ := dirScan_eq name ents [] _ h.holds hsize (by omega)
  simp only [length_nil, Nat.zero_add] at hscan
  exact hscan

theorem emptyScan_turn {pre post : List Dirent} {de : Dirent} (h : x.Holds st.disk (direntBytes (pre ++ de :: post)))
    (hsize : 16 * (pre ++ de :: post).length ≤ x.size.toNat) (fuel : Nat) :
    emptyScan sb c (fuel + 1) (16 * pre.length) x st =
      if de.inum = 0 then .ok (16 * pre.length, x, st) else emptyScan sb c fuel (16 * (pre.length + 1)) x st := by
  conv_lhs => unfold emptyScan
  rw [if_pos (by rw [length_append, length_cons] at hsize; omega), readi_entry h hsize]
  dsimp only
  rw [if_neg (by decide), Dirent.ofBytes_bytes, Nat.mul_succ]

theorem emptyScan_eq (post : List Dirent) : ∀ (pre : List Dirent) (fuel : Nat),
    x.Holds st.disk (direntBytes (pre ++ post)) → x.size.toNat = 16 * (pre ++ post).length → post.length ≤ fuel →
    emptyScan sb c fuel (16 * pre.length) x st = .ok (16 * (pre.length + freeSlot post), x, st) := by
  induction post with
  | nil =>
    intro pre fuel _ hsize _
    cases fuel with
    | zero => rfl
    | succ fuel =>
      rw [append_nil] at hsize
      unfold emptyScan
      rw [if_neg (by omega)]
      rfl
  | cons e post ih =>
    intro pre fuel h hsize hfuel
    obtain ⟨fuel, rfl⟩ : ∃ k, fuel = k + 1 := ⟨fuel - 1, by rw [length_cons] at hfuel; omega⟩
    rw [emptyScan_turn h (Nat.le_of_eq hsize.symm)]
    unfold freeSlot
    by_cases hfree : e.inum = 0
    · rw [if_pos hfree, if_pos hfree]
      rfl
    rw [if_neg hfree, if_neg hfree]
    have happ : pre ++ e :: post = (pre ++ [e]) ++ post := by simp
    rw [happ] at h hsize
    have hrest := ih (pre ++ [e]) fuel h hsize (by rw [length_cons] at hfuel; omega)
    rw [length_append, length_singleton, Nat.add_assoc, Nat.add_comm 1] at hrest
    exact hrest

/-- Nothing has to be allocated below the end of an inode without holes. -/
theorem needed_mapped {d : Disk} {off n : Nat} (h : x.MappedTo d x.size.toNat) (hend : off + n ≤ x.size.toNat) :
    needed x d (blocksOf off n) = 0 := by
  have hback : ∀ bn ∈ blocksOf off n, x.addrAt d (.ofBlock bn) ≠ 0 := by
    intro bn hbn
    obtain ⟨p, hp, rfl⟩ := mem_image.mp hbn
    rw [mem_Ico] at hp
    exact (h.backs (p := p) (by omega)).2
  have hfilter : (blocksOf off n).filter (fun bn => x.addrAt d (.ofBlock bn) = 0) = ∅ :=
    filter_eq_empty_iff.mpr fun bn hbn => hback bn hbn
  unfold needed
  rw [hfilter, card_empty, if_neg]
  rintro ⟨hlast, bn, hbn, hle⟩
  -- without the indirect block no block behind it is there
  refine hback bn hbn ?_
  unfold Index.ofBlock
  rw [dif_neg (by omega)]
  exact if_pos hlast

theorem writei_type {x' : DiskInode} {st' : Store} {off n : BitVec 32} {data : List (BitVec 8)} {r : Int}
    (h : writei sb c i x (source data) off n st = .ok (r, x', st')) (hs : st'.Sated) (hx : inodesOf sb st.disk i = some x)
    (hsound : Sound sb (names (inodesOf sb st.disk) st.disk) st.disk) (hoff : off.toNat ≤ x.size.toNat)
    (hn : n.toNat = data.length) (hfit : off.toNat + data.length ≤ 274432) : x'.type = x.type := by
  obtain ⟨-, ⟨-, rfl, -⟩ | ⟨off', x1, st1, -, -, hgrows, rfl, -⟩⟩ := writei_cases h hs hx hsound hoff hn hfit
  · rfl
  · rw [resized_type, hgrows.fields]

namespace Directory

section

variable (h : Directory sb i x st.disk ents)
include h

/-- **An entry is written**: over another one, or behind the last. -/
theorem write (hs : st.Sated) (hk : k ≤ ents.length)
    (hfit : 16 * k + 16 ≤ 274432) (hsupply : Supply sb c st (needed x st.disk (blocksOf (16 * k) 16))) (de : Dirent) :
    ∃ x' st', writei sb c i x (source de.bytes) (BitVec.ofNat 32 (16 * k)) 16 st = .ok (16, x', st') ∧
      Directory sb i x' st'.disk (put ents k de) := by
  have hlen : de.bytes.length = 16 := de.length_bytes
  have hnat : (BitVec.ofNat 32 (16 * k)).toNat = 16 * k := by
    rw [BitVec.toNat_ofNat, Nat.mod_eq_of_lt (by omega)]
  have hoff : (BitVec.ofNat 32 (16 * k)).toNat ≤ x.size.toNat := by rw [hnat, h.size]; omega
  have hn : (16 : BitVec 32).toNat = de.bytes.length := by rw [hlen]; rfl
  have hfit' : (BitVec.ofNat 32 (16 * k)).toNat + de.bytes.length ≤ 274432 := by rwa [hnat, hlen]
  obtain ⟨r, x', st', hrun, hs'⟩ := writei_runs hs h.self h.sound hoff hn hfit' (by rwa [hnat, hlen])
  obtain ⟨hr, hnew⟩ := writei_rewrites hrun hs' h.sound h.self h.mapped hoff hn hfit'
  rw [hr, hlen] at hrun
  refine ⟨x', st', hrun, hnew.sound, hnew.self, hnew.mapped, ?_, ?_⟩
  · rw [writei_type hrun hs' h.self h.sound hoff hn hfit', h.dir]
  · rw [hnew.content, h.content, hnat, direntBytes_put hk]

/-- **`dirlink` of a name that is there** refuses it. -/
theorem dirlink_present {name : Nat → UInt8} {r : Nat × Nat}
    (hfound : resolve ents (firstBytes name) = some r) (inum : Nat) :
    x.dirlink sb c i name inum st = .ok (-1, x, st) := by
  unfold DiskInode.dirlink
  rw [h.dirlookup_eq, hfound]

/-- **`dirlink` of a new name** writes its entry into the first slot that is not in use. -/
theorem dirlink_new (hs : st.Sated) {name : Nat → UInt8}
    (hnew : resolve ents (firstBytes name) = none) (hmax : x.size.toNat < MAXFILE * BSIZE)
    (hsupply : Supply sb c st (needed x st.disk (blocksOf (16 * freeSlot ents) 16))) (inum : Nat) :
    ∃ x' st', x.dirlink sb c i name inum st = .ok (0, x', st') ∧
      Directory sb i x' st'.disk (addEntry ⟨UInt16.ofNat inum, entryName (firstBytes name)⟩ ents) := by
  have hsize := h.size
  have hslot := freeSlot_le ents
  have hbytes : MAXFILE * BSIZE = 274432 := rfl
  have hscan : emptyScan sb c (x.size.toNat / 16 + 1) 0 x st = _ := emptyScan_eq ents [] _ h.holds hsize (by omega)
  rw [length_nil, Nat.zero_add] at hscan
  obtain ⟨x', st', hrun, hdir⟩ := h.write hs hslot (by omega) hsupply ⟨UInt16.ofNat inum, entryName (firstBytes name)⟩
  rw [← addEntry_eq_put] at hdir
  refine ⟨x', st', ?_, hdir⟩
  unfold DiskInode.dirlink
  rw [h.dirlookup_eq, hnew]
  dsimp only
  rw [hscan]
  dsimp only
  rw [hrun]
  exact if_neg (by decide)

/-- **The clearing of an entry** goes through, without a new block. -/
theorem clearEntry_eq (hs : st.Sated) (hk : k < ents.length) :
    ∃ x' st', x.clearEntry sb c i (16 * k) st = .ok (x', st') ∧ Directory sb i x' st'.disk (ents.set k ⟨0, fun _ => 0⟩) := by
  have hsize := h.size
  have hle := h.mapped.le
  have hsupply : Supply sb c st (needed x st.disk (blocksOf (16 * k) 16)) := by
    rw [needed_mapped h.mapped (by omega)]
    exact .zero
  obtain ⟨x', st', hrun, hdir⟩ := h.write hs hk.le (by omega) hsupply ⟨0, fun _ => 0⟩
  rw [Lib.put_eq_set hk] at hdir
  refine ⟨x', st', ?_, hdir⟩
  unfold DiskInode.clearEntry
  dsimp only
  rw [hrun]
  exact if_neg (by decide)

end

end Directory

end Bytes

/-! ## The map -/

def Present (ents : List Dirent) (name : Nat → UInt8) : Prop :=
  ∃ e ∈ ents, e.inum ≠ 0 ∧ namecmp (firstBytes name) e.name = 0

/-- A directory went from `x` to `x'`: it is one still, no two of
its entries have one name, `dirlookup` of `name` answers `r`, and it answers for every other name what it
did before. -/
structure Becomes (sb : Superblock) (c : Cid) (i : Nat) (name : Nat → UInt8) (x : DiskInode) (st : Store)
    (inum : Option Nat) (x' : DiskInode) (st' : Store) : Prop where
  directory : ∃ ents', Directory sb i x' st'.disk ents' ∧ Distinct Dirent.Same ents'
  answer : ∃ r, x'.dirlookup sb c (firstBytes name) st' = .ok (r, x', st') ∧ r.map Prod.fst = inum
  others : ∀ other, namecmp (firstBytes other) (firstBytes name) ≠ 0 →
    ∃ r, x.dirlookup sb c (firstBytes other) st = .ok (r, x, st) ∧
      x'.dirlookup sb c (firstBytes other) st' = .ok (r, x', st')

section Map

variable {sb : Superblock} {c : Cid} {i : Nat} {x : DiskInode} {st : Store} {ents : List Dirent}
variable {name : Nat → UInt8} {inum : Nat}

theorem resolve_isSome : (resolve ents (firstBytes name)).isSome ↔ Present ents name := by
  unfold resolve
  rw [Option.isSome_map, Option.isSome_iff_ne_none, Ne, findEntry_eq_none_iff]
  push Not
  exact Iff.rfl

theorem Directory.becomes {x' : DiskInode} {st' : Store} {k : Nat} {de : Dirent} {r : Option (Nat × Nat)}
    (h : Directory sb i x st.disk ents) (h' : Directory sb i x' st'.disk (put ents k de)) (hk : k ≤ ents.length)
    (hdistinct : Distinct Dirent.Same (put ents k de)) (hr : resolve (put ents k de) (firstBytes name) = r)
    (hnew : ∀ other, namecmp (firstBytes other) (firstBytes name) ≠ 0 → ¬ de.Named (firstBytes other))
    (hold : ∀ other, namecmp (firstBytes other) (firstBytes name) ≠ 0 →
      ∀ e, ents[k]? = some e → ¬ e.Named (firstBytes other)) :
    Becomes sb c i name x st (r.map Prod.fst) x' st' where
  directory := ⟨_, h', hdistinct⟩
  answer := ⟨r, by rw [h'.dirlookup_eq, hr], rfl⟩
  others other hne := by
    refine ⟨resolve ents (firstBytes other), h.dirlookup_eq c _, ?_⟩
    rw [h'.dirlookup_eq]
    unfold resolve
    rw [findEntry_put_other hk (hnew other hne) (hold other hne)]

/-- **A directory is a finite map**: `dirlookup` finds the names that are there, `dirlink` refuses those and adds new
ones, clearing an entry removes its name, and all other names resolve as before. -/
theorem directory_is_map (h : Directory sb i x st.disk ents) (hdistinct : Distinct Dirent.Same ents) (hs : st.Sated)
    (hmax : x.size.toNat < MAXFILE * BSIZE)
    (hsupply : Supply sb c st (needed x st.disk (blocksOf (16 * freeSlot ents) 16))) (hpos : 0 < inum)
    (hinum : inum < 2 ^ 16) (name : Nat → UInt8) :
    (∃ r, x.dirlookup sb c (firstBytes name) st = .ok (r, x, st) ∧ (r.isSome ↔ Present ents name)) ∧
    (Present ents name → x.dirlink sb c i name inum st = .ok (-1, x, st)) ∧
    (¬ Present ents name → ∃ x' st', x.dirlink sb c i name inum st = .ok (0, x', st') ∧
      Becomes sb c i name x st (some inum) x' st') ∧
    ∀ n off, x.dirlookup sb c (firstBytes name) st = .ok (some (n, off), x, st) →
      ∃ x' st', x.clearEntry sb c i off st = .ok (x', st') ∧ Becomes sb c i name x st none x' st' := by
  refine ⟨⟨_, h.dirlookup_eq c _, resolve_isSome⟩, fun hthere => ?_, fun hnew => ?_, fun n off hfound => ?_⟩
  · obtain ⟨r, hr⟩ := Option.isSome_iff_exists.mp (resolve_isSome.mpr hthere)
    exact h.dirlink_present hr inum
  · have hmiss : ∀ e ∈ ents, ¬ e.Named (firstBytes name) := fun e he hnamed => hnew ⟨e, he, hnamed⟩
    have hnone : resolve ents (firstBytes name) = none := by
      unfold resolve
      rw [findEntry_eq_none_iff.mpr hmiss]
      rfl
    obtain ⟨x', st', hrun, hdir⟩ := h.dirlink_new hs hnone hmax hsupply inum
    rw [addEntry_eq_put] at hdir
    have hentry := named_entry hpos hinum (firstBytes name)
    have hslot := freeSlot_le ents
    have hfind := findEntry_iff.mpr (Lib.first_put_self hslot hentry hmiss)
    have hback : (UInt16.ofNat inum).toNat = inum := UInt16.toNat_ofNat_of_lt hinum
    refine ⟨x', st', hrun, ?_⟩
    have hbecomes : Becomes sb c i name x st _ x' st' := h.becomes (r := some (inum, 16 * freeSlot ents)) hdir hslot
      (distinct_put_new hdistinct hslot hentry hmiss) ?_ (fun other hne => ?_) fun other _ e he hnamed => ?_
    · exact hbecomes
    · unfold resolve
      rw [hfind]
      show some ((UInt16.ofNat inum).toNat, 16 * freeSlot ents) = _
      rw [hback]
    · rwa [hentry.congr]
    · exact hnamed.1 (freeSlot_free he)
  · rw [h.dirlookup_eq] at hfound
    have hresolve : resolve ents (firstBytes name) = some (n, off) := congrArg Prod.fst (Except.ok.inj hfound)
    obtain ⟨⟨e, k⟩, hfind, heq⟩ := Option.map_eq_some_iff.mp hresolve
    cases heq
    have hfirst := findEntry_iff.mp hfind
    have hk : k < ents.length := (List.getElem?_eq_some_iff.mp hfirst.entry).1
    obtain ⟨x', st', hrun, hdir⟩ := h.clearEntry_eq (c := c) hs hk
    rw [← Lib.put_eq_set hk] at hdir
    refine ⟨x', st', hrun, ?_⟩
    have hfree : (⟨0, fun _ => 0⟩ : Dirent).inum = 0 := rfl
    have hgone := not_named_put_free hdistinct hfirst hfree
    have hbecomes : Becomes sb c i name x st _ x' st' := h.becomes (r := none) hdir hk.le
      (distinct_put_free hdistinct hk.le hfree) ?_ (fun other _ hnamed => hnamed.1 hfree) fun other hne e' he' => ?_
    · exact hbecomes
    · unfold resolve
      rw [findEntry_eq_none_iff.mpr hgone]
      rfl
    · cases hfirst.entry.symm.trans he'
      rwa [hfirst.hit.congr]

def letter (b : UInt8) : Nat → UInt8 := fun i => if i = 0 then b else 0

/-- A directory with the names `a` and `b`, and a free slot between them. -/
def fewEntries : List Dirent := [⟨5, firstBytes (letter 97)⟩, ⟨0, fun _ => 0⟩, ⟨7, firstBytes (letter 98)⟩]

theorem directory_few : ∃ (x : DiskInode) (st : Store), st.Sated ∧ Directory mkfsSb 1 x st.disk fewEntries := by
  have hwf : Wf mkfsSb (blank mkfsSb) := wf_blank (by decide)
  have hmapped := hwf.mapped 1 _ inodesOf_blank
  have hblank : Store.Sated ⟨blank mkfsSb, fun _ => Kernel.rootCont, false, false⟩ := ⟨rfl, rfl⟩
  have hlen : (48 : BitVec 32).toNat = (direntBytes fewEntries).length := rfl
  obtain ⟨r, x, st, hrun, hs⟩ := writei_runs hblank inodesOf_blank hwf.sound (by decide) hlen (by decide)
    (supply_blank (by decide) (by decide))
  have hr := (writei_rewrites hrun hs hwf.sound inodesOf_blank hmapped (by decide) rfl (by decide)).2
  have htype := writei_type hrun hs inodesOf_blank hwf.sound (by decide) rfl (by decide)
  exact ⟨x, st, hs, hr.sound, hr.self, hr.mapped, htype, hr.content⟩

/-- The name `b` is found, is refused as a new name and is cleared; the name `c` is added in the free slot. -/
theorem directory_is_map_few : ∃ (x : DiskInode) (st : Store), Directory mkfsSb 1 x st.disk fewEntries ∧
    x.dirlookup mkfsSb 0 (firstBytes (letter 98)) st = .ok (some (7, 32), x, st) ∧
    x.dirlink mkfsSb 0 1 (letter 98) 9 st = .ok (-1, x, st) ∧
    (∃ x' st', x.dirlink mkfsSb 0 1 (letter 99) 9 st = .ok (0, x', st') ∧
      Becomes mkfsSb 0 1 (letter 99) x st (some 9) x' st') ∧
    ∃ x' st', x.clearEntry mkfsSb 0 1 32 st = .ok (x', st') ∧ Becomes mkfsSb 0 1 (letter 98) x st none x' st' := by
  obtain ⟨x, st, hs, h⟩ := directory_few
  have hsize : x.size.toNat = 48 := h.size
  have hdistinct : Distinct Dirent.Same fewEntries := by
    have hall : ∀ j k : Fin 3, Dirent.Same (fewEntries.get j) (fewEntries.get k) → j = k := by
      unfold Dirent.Same
      decide
    intro j k a b hj hk hsame
    obtain ⟨hj', rfl⟩ := List.getElem?_eq_some_iff.mp hj
    obtain ⟨hk', rfl⟩ := List.getElem?_eq_some_iff.mp hk
    exact Fin.mk.inj (hall ⟨j, hj'⟩ ⟨k, hk'⟩ hsame)
  have hsupply : Supply mkfsSb 0 st (needed x st.disk (blocksOf (16 * freeSlot fewEntries) 16)) := by
    rw [needed_mapped h.mapped (by rw [hsize]; decide)]
    exact .zero
  have hmap := directory_is_map h hdistinct hs (by rw [hsize]; decide) hsupply (by decide : 0 < 9) (by decide)
  have hfound : x.dirlookup mkfsSb 0 (firstBytes (letter 98)) st = .ok (some (7, 32), x, st) := by
    rw [h.dirlookup_eq]
    rfl
  have hnew : ¬ Present fewEntries (letter 99) := by unfold Present; decide
  exact ⟨x, st, h, hfound, (hmap _).2.1 ⟨_, .tail _ (.tail _ (.head _)), by decide⟩, (hmap _).2.2.1 hnew,
    (hmap _).2.2.2 7 32 hfound⟩

end Map

end Xv6.Fs
