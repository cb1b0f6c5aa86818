/-
# Xv6.Fs.Alloc — the block allocator and the content of inodes (`kernel/fs.c`: `bfree`, `balloc`,
`iupdate`, `bmap`, `itrunc`, `readi`, `writei`).

The blocks are the block store as `bread` sees it, one `Disk`.  The functions run in a process of
container `c` and hold the lock of the inode whose copy in memory they are given; they return the copy
as they leave it.  A panic is an error.  `balloc` answers `0` when it has no block to give, and the code
goes on with that; `full` and `limited` remember that this has happened, and for which of the two reasons.

User memory is a partial function from offsets to bytes: a copy stops at the first byte it cannot
reach, and what it has copied before stays.
-/
import Xv6.Fs.Layout
import Xv6.Kernel.Container
import Xv6.Lib.Outcome

namespace Xv6.Fs

open Function
open Kernel (Cid Container BSIZE neg64)
open Lib (bind_eq_ok bind_eq_error)

/-- The calls of `panic` in `fs.c` that the functions here and in the inode cache can reach. -/
inductive Panic
  | freeingFreeBlock
  | bmapOutOfRange
  | igetNoInodes
  | iallocNoInodes
  | ilock
  | ilockNoType
  | iunlock
  deriving DecidableEq

structure Store where
  disk : Disk
  cont : Cid → Container
  /-- Has `balloc` found no free block. -/
  full : Bool
  /-- Has `balloc` met the limit of a container. -/
  limited : Bool

/-- Every `balloc` so far has given a block. -/
def Store.Sated (st : Store) : Prop := st.full = false ∧ st.limited = false

section Code

variable (sb : Superblock) (c : Cid)

def bfree (b : BlockNo) (st : Store) : Except Panic Store :=
  if bit sb st.disk b.toNat = false then .error .freeingFreeBlock
  else .ok { st with
    disk := setBit sb b.toNat false st.disk
    cont := update st.cont c ((st.cont c).updatedsk (neg64 BSIZE)).1 }

/-- The two loops of `balloc`: the first clear bit below `sb.size`, as the block `b` that its bitmap
block starts with and the distance `bi` from it. -/
def ballocScan (d : Disk) : Option (Nat × Nat) :=
  (List.range ((sb.size + 8191) / 8192)).findSome? fun k =>
    ((List.range 8192).find? fun bi => k * 8192 + bi < sb.size && !bit sb d (k * 8192 + bi)).map
      fun bi => (k * 8192, bi)

/-- `balloc(dev)`.  Over the limit of the container it frees `b`, not `b + bi`, and `climitexceedhandler` frees the
container; that it kills the processes of the container is left out. -/
def balloc (st : Store) : Except Panic (BlockNo × Store) :=
  match ballocScan sb st.disk with
  | none => .ok (0, { st with full := true })
  | some (b, bi) =>
    let a := BitVec.ofNat 32 (b + bi)
    let charged := (st.cont c).updatedsk (BitVec.ofNat 64 BSIZE)
    let st := { st with
      disk := update (setBit sb (b + bi) true st.disk) a fun _ => 0
      cont := update st.cont c charged.1 }
    if charged.2 < 0 then
      (bfree sb c (BitVec.ofNat 32 b) st).map fun st =>
        (0, { st with limited := true, cont := update st.cont c (st.cont c).exceeded })
    else .ok (a, st)

/-! ## Inodes -/

def iupdate (i : Nat) (x : DiskInode) (st : Store) : Store :=
  { st with disk := writeInode sb i x st.disk }

/-- The address in `ip->addrs[k]`, allocated if necessary. -/
def bmapAddr (x : DiskInode) (k : Fin 13) (st : Store) : Except Panic (BlockNo × DiskInode × Store) :=
  if x.addrs k = 0 then do
    let (a, st) ← balloc sb c st
    .ok (a, { x with addrs := update x.addrs k a }, st)
  else .ok (x.addrs k, x, st)

/-- The address in entry `j` of the indirect block `blk`, allocated if necessary. -/
def bmapEntry (blk : BlockNo) (j : Fin 256) (st : Store) : Except Panic (BlockNo × Store) :=
  if st.disk blk j = 0 then do
    let (a, st) ← balloc sb c st
    .ok (a, { st with disk := update st.disk blk (update (st.disk blk) j a) })
  else .ok (st.disk blk j, st)

theorem lt_addrs {bn : Nat} (h : bn < 12) : bn < 13 := Nat.lt_succ_of_lt h

theorem entry_lt (bn : Nat) : (bn - 12) % 256 < 256 := Nat.mod_lt _ (by decide)

def bmap (x : DiskInode) (bn : Nat) (st : Store) : Except Panic (BlockNo × DiskInode × Store) :=
  if h : bn < 12 then bmapAddr sb c x ⟨bn, lt_addrs h⟩ st
  else if h : bn - 12 < 256 then do
    let (blk, x, st) ← bmapAddr sb c x (Fin.last 12) st
    let (a, st) ← bmapEntry sb c blk ⟨bn - 12, h⟩ st
    .ok (a, x, st)
  else .error .bmapOutOfRange

/-- The first loop of `itrunc`. -/
def truncDirect : List (Fin 12) → DiskInode → Store → Except Panic (DiskInode × Store)
  | [], x, st => .ok (x, st)
  | k :: ks, x, st =>
    if x.addrs k.castSucc = 0 then truncDirect ks x st
    else do
      let st ← bfree sb c (x.addrs k.castSucc) st
      truncDirect ks { x with addrs := update x.addrs k.castSucc 0 } st

/-- The second loop of `itrunc`, over the entries of the indirect block. -/
def truncEntries (a : Block) : List (Fin 256) → Store → Except Panic Store
  | [], st => .ok st
  | j :: js, st =>
    if a j = 0 then truncEntries a js st
    else do
      let st ← bfree sb c (a j) st
      truncEntries a js st

def truncIndirect (x : DiskInode) (st : Store) : Except Panic (DiskInode × Store) :=
  if x.addrs (Fin.last 12) = 0 then .ok (x, st)
  else do
    let st ← truncEntries sb c (st.disk (x.addrs (Fin.last 12))) (List.finRange 256) st
    let st ← bfree sb c (x.addrs (Fin.last 12)) st
    .ok ({ x with addrs := update x.addrs (Fin.last 12) 0 }, st)

def itrunc (i : Nat) (x : DiskInode) (st : Store) : Except Panic (DiskInode × Store) := do
  let (x, st) ← truncDirect sb c (List.finRange 12) x st
  let (x, st) ← truncIndirect sb c x st
  let x := { x with size := 0 }
  .ok (x, iupdate sb i x st)

/-! ## Content -/

def byteAt (blk : Block) (p : Nat) : BitVec 8 :=
  (blk ⟨p / 4 % 256, Nat.mod_lt _ (by decide)⟩).extractLsb' (8 * (p % 4)) 8

/-- The block with `len` bytes from `start` on replaced by `f`. -/
def overwrite (blk : Block) (start len : Nat) (f : Nat → BitVec 8) : Block := fun w =>
  let byte k :=
    let p := 4 * w.val + k
    if start ≤ p ∧ p < start + len then f (p - start) else byteAt blk p
  byte 3 ++ byte 2 ++ byte 1 ++ byte 0

/-- How many of the `m` bytes from `tot` on can be copied. -/
def reach (mapped : Nat → Bool) (tot m : Nat) : Nat :=
  ((List.range m).takeWhile fun k => mapped (tot + k)).length

/-- The loop of `readi`, with what it has copied out. -/
def readLoop (dst : Nat → Bool) (n : Nat) :
    Nat → Nat → Nat → DiskInode → Store → Except Panic (List (BitVec 8) × DiskInode × Store)
  | 0, _, _, x, st => .ok ([], x, st)
  | fuel + 1, tot, off, x, st =>
    if tot < n then do
      let (a, x, st) ← bmap sb c x (off / BSIZE) st
      let m := min (n - tot) (BSIZE - off % BSIZE)
      let len := reach dst tot m
      let bytes := (List.range len).map fun k => byteAt (st.disk a) (off % BSIZE + k)
      if len < m then .ok (bytes, x, st)
      else do
        let (more, x, st) ← readLoop dst n fuel (tot + m) (off + m) x st
        .ok (bytes ++ more, x, st)
    else .ok ([], x, st)

/-- `readi(ip, user_dst, dst, off, n)`.  Every turn of the loop copies at least one byte or ends it, so
`n` turns are enough. -/
def readi (x : DiskInode) (dst : Nat → Bool) (off n : BitVec 32) (st : Store) :
    Except Panic (Int × List (BitVec 8) × DiskInode × Store) :=
  if x.size < off ∨ off + n < off then .ok (-1, [], x, st)
  else do
    let n := if x.size < off + n then x.size - off else n
    let (bytes, x, st) ← readLoop sb c dst n.toNat n.toNat 0 off.toNat x st
    .ok (n.toInt, bytes, x, st)

/-- The loop of `writei`: the offset it ended at. -/
def writeLoop (src : Nat → Option (BitVec 8)) (n : Nat) :
    Nat → Nat → Nat → DiskInode → Store → Except Panic (Nat × DiskInode × Store)
  | 0, _, off, x, st => .ok (off, x, st)
  | fuel + 1, tot, off, x, st =>
    if tot < n then do
      let (a, x, st) ← bmap sb c x (off / BSIZE) st
      let m := min (n - tot) (BSIZE - off % BSIZE)
      let len := reach (fun k => (src k).isSome) tot m
      let blk := overwrite (st.disk a) (off % BSIZE) len fun k => (src (tot + k)).getD 0
      let st := { st with disk := update st.disk a blk }
      if len < m then .ok (off, x, st)
      else writeLoop src n fuel (tot + m) (off + m) x st
    else .ok (off, x, st)

/-- `writei(ip, user_src, src, off, n)` for inode `i`. -/
def writei (i : Nat) (x : DiskInode) (src : Nat → Option (BitVec 8)) (off n : BitVec 32) (st : Store) :
    Except Panic (Int × DiskInode × Store) :=
  if x.size < off ∨ off + n < off then .ok (-1, x, st)
  else if MAXFILE * BSIZE < (off + n).toNat then .ok (-1, x, st)
  else do
    let (off, x, st) ← writeLoop sb c src n.toNat n.toNat 0 off.toNat x st
    if 0 < n then
      let x := if x.size.toNat < off then { x with size := BitVec.ofNat 32 off } else x
      .ok (n.toInt, x, iupdate sb i x st)
    else .ok (n.toInt, x, st)

end Code

end Xv6.Fs
