/-
# Xv6.Fs.Mkfs — the program that writes the first file system (`mkfs/mkfs.c`).

It runs on the host, so an input file is its argument and what the calls of `read` return until they
return 0.  The image is a file of `FSSIZE` blocks: reading a block behind its end makes the program exit,
as does a failed assertion, and both are `none`.  The two counters are the global variables of the
program.  Words are in the order of the disk (`xint` and `xshort` are the identity on them).
-/
import Xv6.Fs.Reading
import Xv6.Fs.Confine

namespace Xv6.Fs.Mkfs

open Function
open Kernel (CStr CharArr BSIZE ROOTINO strncmp strncpy)

/-! ## The image -/

structure Img where
  disk : Disk
  freeinode : Nat
  freeblock : Nat

abbrev FSMAGIC : Nat := 0x10203040

/-- `nmeta`: boot block, super block, log, inode blocks and free map. -/
def nmeta : Nat := 2 + LOGSIZE + (NINODES / 16 + 1) + (FSSIZE / 8192 + 1)

def sbBlock : Block := fun w =>
  BitVec.ofNat 32 <| [FSMAGIC, FSSIZE, FSSIZE - nmeta, NINODES, LOGSIZE, 2, mkfsSb.inodestart,
    mkfsSb.bmapstart].getD w 0

/-- The image after the loop that writes zeroes, with the super block. -/
def start : Img where
  disk := update (fun _ _ => 0) 1 sbBlock
  freeinode := 1
  freeblock := nmeta

def rsect (sec : BlockNo) (img : Img) : Option Block :=
  if sec.toNat < FSSIZE then some (img.disk sec) else none

def wsect (sec : BlockNo) (buf : Block) (img : Img) : Img := { img with disk := update img.disk sec buf }

def winode (inum : Nat) (ip : DiskInode) (img : Img) : Option Img :=
  (rsect (mkfsSb.iblock inum) img).map fun buf =>
    wsect (mkfsSb.iblock inum) (putInode (inodeSlot inum) ip buf) img

def rinode (inum : Nat) (img : Img) : Option DiskInode :=
  (rsect (mkfsSb.iblock inum) img).map (getInode (inodeSlot inum))

def ialloc (type : BitVec 16) (img : Img) : Option (Nat × Img) :=
  let inum := img.freeinode
  let din : DiskInode := ⟨type, 0, 0, 1, 0, fun _ => 0⟩
  (winode inum din { img with freeinode := img.freeinode + 1 }).map fun img => (inum, img)

def bitmap (used : Nat) : Block :=
  (List.range used).foldl (fun buf i => update buf (bitWord i) (buf (bitWord i) ||| 1#32 <<< (i % 32)))
    fun _ => 0

def balloc (used : Nat) (img : Img) : Option Img :=
  if used < BSIZE * 8 then some (wsect (BitVec.ofNat 32 mkfsSb.bmapstart) (bitmap used) img) else none

/-! ## `iappend` -/

/-- `if(xint(din.addrs[k]) == 0) din.addrs[k] = xint(freeblock++);` -/
def addrFor (k : Fin 13) (din : DiskInode) (img : Img) : DiskInode × Img :=
  if din.addrs k = 0 then
    ({ din with addrs := update din.addrs k (BitVec.ofNat 32 img.freeblock) },
      { img with freeblock := img.freeblock + 1 })
  else (din, img)

/-- The entry `indirect[j]` of the block `blk`, assigned if necessary. -/
def entryFor (blk : BlockNo) (j : Fin 256) (img : Img) : Option (BlockNo × Img) := do
  let indirect ← rsect blk img
  if indirect j = 0 then
    let a := BitVec.ofNat 32 img.freeblock
    some (a, wsect blk (update indirect j a) { img with freeblock := img.freeblock + 1 })
  else some (indirect j, img)

def blockFor (fbn : Nat) (din : DiskInode) (img : Img) : Option (BlockNo × DiskInode × Img) :=
  if h : fbn < 12 then
    let (din, img) := addrFor ⟨fbn, lt_addrs h⟩ din img
    some (din.addrs ⟨fbn, lt_addrs h⟩, din, img)
  else if h : fbn - 12 < 256 then
    let (din, img) := addrFor (Fin.last 12) din img
    (entryFor (din.addrs (Fin.last 12)) ⟨fbn - 12, h⟩ img).map fun (x, img) => (x, din, img)
  else none

/-- The loop of `iappend` over the bytes `p` that are left.  Every turn takes one byte or more, so as many
turns as there are bytes are enough. -/
def appendLoop : Nat → List (BitVec 8) → Nat → DiskInode → Img → Option (Nat × DiskInode × Img)
  | 0, _, off, din, img => some (off, din, img)
  | fuel + 1, p, off, din, img =>
    if 0 < p.length then do
      let fbn := off / BSIZE
      let (x, din, img) ← blockFor fbn din img
      let n1 := min p.length ((fbn + 1) * BSIZE - off)
      let buf ← rsect x img
      let img := wsect x (overwrite buf (off - fbn * BSIZE) n1 fun k => p.getD k 0) img
      appendLoop fuel (p.drop n1) (off + n1) din img
    else some (off, din, img)

def iappend (inum : Nat) (p : List (BitVec 8)) (img : Img) : Option Img := do
  let din ← rinode inum img
  let (off, din, img) ← appendLoop p.length p din.size.toNat din img
  winode inum { din with size := BitVec.ofNat 32 off } img

/-! ## `main` -/

structure Source where
  arg : CStr
  /-- What `read(fd, buf, sizeof(buf))` returns, call after call. -/
  reads : List (List (BitVec 8))
  reads_ok : ∀ r ∈ reads, r ≠ [] ∧ r.length ≤ BSIZE

/-- The pointer `t + n`, for `n` at most the length of the string. -/
def skip (n : Nat) (t : CStr) : CStr := ⟨t.bytes.drop n, fun b hb => t.nul_free b (List.mem_of_mem_drop hb)⟩

def userDir : CStr := .ofBytes [117, 115, 101, 114, 47] rfl

namespace Source

def bytes (f : Source) : List (BitVec 8) := f.reads.flatten

/-- `shortname`, without the directory. -/
def shortname (f : Source) : CStr := if strncmp f.arg.get userDir.get 5 = 0 then skip 5 f.arg else f.arg

/-- `shortname`, without the underscore. -/
def name (f : Source) : CStr := if f.shortname.get 0 = 95 then skip 1 f.shortname else f.shortname

end Source

def dirent (inum : Nat) (name : CharArr DIRSIZ) : Dirent := ⟨UInt16.ofNat inum, name⟩

/-- The loop of `main`, for one input file. -/
def addFile (rootino : Nat) (img : Img) (f : Source) : Option Img :=
  if slash ∈ f.shortname.bytes then none
  else do
    let (inum, img) ← ialloc T_FILE img
    let img ← iappend rootino (dirent inum (strncpy DIRSIZ f.name)).bytes img
    f.reads.foldlM (fun img buf => iappend inum buf img) img

/-- `off = ((off/BSIZE) + 1) * BSIZE;`: the size goes to the next multiple of `BSIZE`, also from one. -/
def roundUp (din : DiskInode) : DiskInode :=
  { din with size := BitVec.ofNat 32 ((din.size.toNat / BSIZE + 1) * BSIZE) }

/-- `// fix size of root inode dir` -/
def fixSize (rootino : Nat) (img : Img) : Option Img := do
  let din ← rinode rootino img
  winode rootino (roundUp din) img

/-- `main`, from the super block on: the image it leaves. -/
def mkfs (files : List Source) : Option Disk := do
  let (rootino, img) ← ialloc T_DIR start
  if rootino ≠ ROOTINO then none
  else
    let img ← iappend rootino (dirent rootino dot).bytes img
    let img ← iappend rootino (dirent rootino dotdot).bytes img
    let img ← files.foldlM (addFile rootino) img
    let img ← fixSize rootino img
    let img ← balloc img.freeblock img
    some img.disk

end Xv6.Fs.Mkfs
