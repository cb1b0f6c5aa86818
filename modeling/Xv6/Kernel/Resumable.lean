/-
# Xv6.Kernel.Resumable — a process written to a file and read back (`ksuspend`, `kresume` of
`kernel/proc.c`, `kernel/resumable.h`; `filewrite`, `filewritefromkernel` of `kernel/file.c`).

A file is the bytes of its inode; `writei` is here as the code has it, in turns of at most a block that
end at the first copy that fails, and returning `n` in any case.  `Kernel.Written` has the same calls on
the disk, and shows that they do this where there are blocks for the file.

`ksuspend` looks at none of the results of its four writes.  It takes the memory to be what `exec` leaves:
`sz - 2 * PGSIZE` bytes of code and data, a page that nobody can read, and one page of stack.
-/
import Xv6.Kernel.Vm
import Xv6.Fs.Layout

namespace Xv6.Kernel.Vm

open Function
open Fs (MAXFILE MAXOPBLOCKS)

/-! ## Files -/

/-- An open file with an inode: `f->writable`, `f->off`, and the bytes of the inode. -/
structure File where
  writable : Bool
  off : Nat
  data : List Byte

/-- Where a write takes its bytes from: `src tot m` are the `m` bytes at distance `tot`, unless the copy
fails. -/
abbrev Src := Nat → Nat → Option (List Byte)

def fromKernel (bytes : List Byte) : Src := fun tot m => some ((bytes.drop tot).take m)

/-- User memory, by the page table of the current process. -/
def fromUser (pt : PageMap) (addr : BitVec 64) : Src := fun tot m => copyin pt (addr + BitVec.ofNat 64 tot) m

/-- The bytes with `bs` copied over them at `off`. -/
def splice (data : List Byte) (off : Nat) (bs : List Byte) : List Byte :=
  data.take off ++ bs ++ data.drop (off + bs.length)

def writeLoop (src : Src) (n : Nat) : Nat → Nat → Nat → List Byte → List Byte
  | 0, _, _, data => data
  | fuel + 1, tot, off, data =>
    if tot < n then
      let m := min (n - tot) (BSIZE - off % BSIZE)
      match src tot m with
      | none => data
      | some bs => writeLoop src n fuel (tot + m) (off + m) (splice data off bs)
    else data

def writei (src : Src) (off n : Nat) (data : List Byte) : Int × List Byte :=
  if data.length < off then (-1, data)
  else if MAXFILE * BSIZE < off + n then (-1, data)
  else (n, writeLoop src n n 0 off data)

/-- `max`, the number of bytes that fit into one transaction. -/
abbrev maxWrite : Nat := (MAXOPBLOCKS - 1 - 1 - 2) / 2 * BSIZE

def filewriteLoop (src : Src) (n : Nat) : Nat → Nat → File → Nat × File
  | 0, i, f => (i, f)
  | fuel + 1, i, f =>
    if i < n then
      let n1 := min (n - i) maxWrite
      let (r, data) := writei (fun tot m => src (i + tot) m) f.off n1 f.data
      if r < 0 then (i, { f with data := data })
      else filewriteLoop src n fuel (i + n1) { f with off := f.off + n1, data := data }
    else (i, f)

/-- `filewrite(f, addr, n)` and `filewritefromkernel(f, addr, n)`. -/
def filewrite (src : Src) (n : Int) (f : File) : Int × File :=
  if f.writable = false then (-1, f)
  else
    let (i, f) := filewriteLoop src n.toNat n.toNat 0 f
    (if (i : Int) = n then n else -1, f)

/-! ## The image -/

structure ResumeHdr where
  memSz : BitVec 32
  codeSz : BitVec 32
  stackSz : BitVec 32
  tracing : BitVec 32
  name : CharArr 16

def intBytes (w : BitVec 32) : List Byte :=
  [w.extractLsb' 0 8, w.extractLsb' 8 8, w.extractLsb' 16 8, w.extractLsb' 24 8]

def intAt (bytes : List Byte) (i : Nat) : BitVec 32 :=
  bytes.getD (i + 3) 0 ++ bytes.getD (i + 2) 0 ++ bytes.getD (i + 1) 0 ++ bytes.getD i 0

def ResumeHdr.bytes (h : ResumeHdr) : List Byte :=
  intBytes h.memSz ++ intBytes h.codeSz ++ intBytes h.stackSz ++ intBytes h.tracing ++
    List.ofFn fun i => (h.name i).toBitVec

def ResumeHdr.ofBytes (bytes : List Byte) : ResumeHdr where
  memSz := intAt bytes 0
  codeSz := intAt bytes 4
  stackSz := intAt bytes 8
  tracing := intAt bytes 12
  name := fun i => ⟨bytes.getD (16 + i) 0⟩

def copyName (t : CharArr 16) : CharArr 16 := fun i => if ∃ j, j < i ∧ t j = 0 then 0 else t i

/-- The header that `ksuspend` fills in. -/
def resumeHdr (p : UProc) : ResumeHdr where
  memSz := BitVec.ofNat 32 p.sz
  codeSz := BitVec.ofInt 32 (p.sz - 2 * PGSIZE)
  stackSz := BitVec.ofNat 32 PGSIZE
  tracing := p.tracing
  name := copyName p.name

def writeImage (p : UProc) (f : File) : File :=
  let hdr := resumeHdr p
  let f := (filewrite (fromKernel hdr.bytes) 32 f).2
  let f := (filewrite (fromKernel (List.ofFn p.tf)) 288 f).2
  let f := (filewrite (fromUser p.pt 0) hdr.codeSz.toInt f).2
  (filewrite (fromUser p.pt (BitVec.ofInt 64 (hdr.codeSz.toInt + PGSIZE))) PGSIZE f).2

/-- `ksuspend(pid, fd, f)`: the return value, the table and the file. -/
def ksuspend (procs : Slot → UProc) (pid : Int) (f : File) : Int × (Slot → UProc) × File :=
  match Fin.find? fun q => (procs q).pid == pid with
  | none => (0, procs, f)
  | some q => (1, update procs q { procs q with state := .suspended }, writeImage (procs q) f)

/-- The memory that `kresume` builds for a header with this `code_sz`: its size and its pages. -/
def loadImage (mem : Room) (data : List Byte) (codeSz : BitVec 32) : Ended (Nat × PageMap) :=
  match uvmalloc mem (fun _ => none) 0 (codeSz.signExtend 64).toNat with
  | none => .panic
  | some (sz, pt) =>
    if sz = 0 then .failed
    else
      match loadseg data pt 0 320 codeSz.toNat with
      | .panic => .panic
      | .failed => .failed
      | .ok pt =>
        match addStack mem sz pt with
        | none => .panic
        | some (sz, pt) =>
          if sz = 0 then .failed
          else
            match loadseg data pt (BitVec.ofInt 64 (codeSz.toInt + PGSIZE)).toNat
                (BitVec.ofInt 32 (320 + codeSz.toInt)).toNat PGSIZE with
            | .panic => .panic
            | .failed => .failed
            | .ok pt => .ok (sz, pt)

/-- `kresume(path)` by process `p`, for a path that leads to an inode with the bytes `data`.  There is memory for
`mem`, and for `proc_pagetable` or not (`tables`): without it `proc_pagetable` uses a null pointer. -/
def kresume (mem : Room) (tables : Bool) (data : List Byte) (p : UProc) : Ended UProc :=
  let r := readi data 0 32
  if r.1 ≠ 32 then .failed
  else
    let hdr := ResumeHdr.ofBytes r.2
    let t := readi data 32 288
    -- compared as unsigned, -1 is not less than the size
    if 0 ≤ t.1 ∧ t.1 < 288 then .failed
    else if tables = false then .panic
    else
      match loadImage mem data hdr.codeSz with
      | .panic => .panic
      | .failed => .failed
      | .ok (sz, pt) => .ok
          { p with
            name := copyName hdr.name
            pt := pt
            sz := sz
            tracing := hdr.tracing
            tf := fun i => t.2.getD i 0 }

/-- `freewalk` on a page table from which the user's pages have been taken. -/
def freewalk (pt : PageMap) : Option Unit := if ∀ i < MAXVA / PGSIZE, pt i = none then some () else none

/-- `proc_freepagetable(pagetable, sz)`; a panic is `none`. -/
def procFreepagetable (sz : Nat) (pt : PageMap) : Option Unit :=
  if 0 < sz then uvmunmap (npages sz) 0 pt >>= freewalk else some ()

/-- `sz` and `pagetable` where `kresume` goes to `bad` after `proc_pagetable`; a panic is `none`.  What `loadseg` has read
before it fails is not told apart. -/
def failedImage (mem : Room) (data : List Byte) (codeSz : BitVec 32) : Option (Nat × PageMap) := do
  let (sz, pt) ← uvmalloc mem (fun _ => none) 0 (codeSz.signExtend 64).toNat
  if sz = 0 then some (sz, pt)
  else
    match loadseg data pt 0 320 codeSz.toNat with
    | .ok pt => addStack mem sz pt
    | _ => some (sz, pt)

/-- `kresume(path)` after `proc_pagetable` has succeeded, with what it leaves of the process `p`; a panic is `none`. -/
def kresumeFile (mem : Room) (data : List Byte) (p : UProc) : Option (Int × UProc) :=
  let r := readi data 0 32
  if r.1 ≠ 32 then some (-1, p)
  else
    let hdr := ResumeHdr.ofBytes r.2
    let t := readi data 32 288
    -- the trapframe is read in place
    let p := { p with tf := fun i => t.2.getD i (p.tf i) }
    if 0 ≤ t.1 ∧ t.1 < 288 then some (-1, p)
    else
      match loadImage mem data hdr.codeSz with
      | .panic => none
      | .failed => do
        let (sz, pt) ← failedImage mem data hdr.codeSz
        (procFreepagetable sz pt).map fun _ => (-1, p)
      | .ok (sz, pt) =>
        (procFreepagetable p.sz p.pt).map fun _ =>
          (0, { p with name := copyName hdr.name, pt := pt, sz := sz, tracing := hdr.tracing })

/-- `q` has the name, the tracing flag, the size and the memory of `p`. -/
structure Restored (p q : UProc) : Prop where
  name : strncmp (fun i => if h : i < 16 then p.name ⟨i, h⟩ else 0) (fun i => if h : i < 16 then q.name ⟨i, h⟩ else 0) 16 = 0
  tracing : q.tracing = p.tracing
  sz : q.sz = p.sz
  memory : ∀ va b, va < p.sz → userByte p.pt va = some b → userByte q.pt va = some b

end Xv6.Kernel.Vm
