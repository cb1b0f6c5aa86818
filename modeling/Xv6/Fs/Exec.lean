/-
# Xv6.Fs.Exec — the two calls that replace a process image from a file: `exec` (`kernel/exec.c`) and
`kresume` (`kernel/proc.c`).

Programs as in `Sysfile`, over more functions: reads of the headers, and what builds the new page table.
There is one new page table at a time, so those functions do not name it.  Sizes and addresses are
the machine's: `uint64` is `BitVec 64`, `int` and `uint` are `BitVec 32`.
-/
import Xv6.Fs.Sysfile

namespace Xv6.Fs

open Kernel (CStr CharArr)
open Lib (Prog)

/-! ## Data -/

abbrev MAXARG : Nat := 32

abbrev ELF_MAGIC : BitVec 32 := 0x464C457F

abbrev ELF_PROG_LOAD : BitVec 32 := 1

abbrev pgsize : BitVec 64 := 4096

def pgroundup (sz : BitVec 64) : BitVec 64 := (sz + pgsize - 1) &&& ~~~(pgsize - 1)

structure Elfhdr where
  magic : BitVec 32
  entry : BitVec 64
  phoff : BitVec 64
  phnum : BitVec 16

structure Proghdr where
  type : BitVec 32
  off : BitVec 64
  vaddr : BitVec 64
  filesz : BitVec 64
  memsz : BitVec 64

structure Resumehdr where
  codeSz : BitVec 32
  tracing : BitVec 32
  name : CharArr 16

abbrev sizeofProghdr : BitVec 32 := 56

abbrev sizeofResumehdr : BitVec 32 := 32

abbrev sizeofTrapframe : BitVec 32 := 288

/-! ## Calls -/

inductive ExecOp
  | fs (op : FsOp)
  /-- `readi` of a whole `struct elfhdr`. -/
  | readElf (ip : Iptr)
  /-- `readi` of a whole `struct proghdr`. -/
  | readProghdr (ip : Iptr) (off : BitVec 32)
  /-- `readi` of a whole `struct resumehdr`. -/
  | readResumehdr (ip : Iptr)
  /-- `readi` into the trapframe: its result. -/
  | readTrapframe (ip : Iptr) (off : BitVec 32)
  | procPagetable
  | uvmalloc (oldsz newsz : BitVec 64)
  | loadseg (va : BitVec 64) (ip : Iptr) (offset sz : BitVec 32)
  | uvmclear (va : BitVec 64)
  | copyoutStr (va : BitVec 64) (s : CStr)
  | copyoutWords (va : BitVec 64) (ws : List (BitVec 64))
  | procFreepagetable (sz : BitVec 64)
  /-- `exec` commits to the new image and frees the old one. -/
  | commitExec (path : CStr) (sz entry sp : BitVec 64)
  /-- `kresume` commits to the new image and frees the old one. -/
  | commitResume (hdr : Resumehdr) (sz : BitVec 64)

@[reducible] def ExecOp.Res : ExecOp → Type
  | fs op => op.Res
  | readElf _ => Option Elfhdr
  | readProghdr _ _ => Option Proghdr
  | readResumehdr _ => Option Resumehdr
  | readTrapframe _ _ => BitVec 32
  | uvmalloc _ _ => BitVec 64
  | procPagetable | loadseg _ _ _ _ | copyoutStr _ _ | copyoutWords _ _ => Bool
  | uvmclear _ | procFreepagetable _ | commitExec _ _ _ _ | commitResume _ _ => Unit

abbrev ExecProg := Prog ExecOp ExecOp.Res

/-- A program of `Sysfile` among these. -/
def FsProg.lift {α : Type} : FsProg α → ExecProg α
  | .ret a => .ret a
  | .call op k => .call (.fs op) fun r => FsProg.lift (k r)

namespace Exec

abbrev call (op : ExecOp) : ExecProg op.Res := Prog.perform op

def unlockEnd (ip : Iptr) : ExecProg Unit := do
  call (.fs (.iunlock ip))
  call (.fs (.iput ip))
  call (.fs .endOp)

/-- From `bad` in `exec` and `kresume`: `pagetable` and `ip` are null or not. -/
def bad (pagetable : Option (BitVec 64)) (ip : Option Iptr) : ExecProg Int := do
  freeTable
  close
  return -1
where
  freeTable : ExecProg Unit :=
    match pagetable with
    | some sz => call (.procFreepagetable sz)
    | none => pure ()
  close : ExecProg Unit :=
    match ip with
    | some ip => unlockEnd ip
    | none => pure ()

/-- The loop over `n` more program headers; the size reached, also when it stops early (`error`). -/
def loadSegments (ip : Iptr) : Nat → BitVec 32 → BitVec 64 → ExecProg (Except (BitVec 64) (BitVec 64))
  | 0, _, sz => return .ok sz
  | n + 1, off, sz => do
    match ← call (.readProghdr ip off) with
    | none => return .error sz
    | some ph =>
      if ph.type ≠ ELF_PROG_LOAD then loadSegments ip n (off + sizeofProghdr) sz
      else if ph.memsz < ph.filesz then return .error sz
      else if ph.vaddr + ph.memsz < ph.vaddr then return .error sz
      else do
        let sz ← call (.uvmalloc sz (ph.vaddr + ph.memsz))
        if sz = 0 then return .error sz
        else if ph.vaddr % pgsize ≠ 0 then return .error sz
        else do
          let loaded ← call (.loadseg ph.vaddr ip (ph.off.truncate 32) (ph.filesz.truncate 32))
          if loaded then loadSegments ip n (off + sizeofProghdr) sz else return .error sz

/-- The loop over the argument strings, with `argc` pushed so far (`ustack`); `none` goes to `bad`. -/
def pushArgs (stackbase : BitVec 64) : List CStr → BitVec 64 → List (BitVec 64) →
    ExecProg (Option (BitVec 64 × List (BitVec 64)))
  | [], sp, ustack => return some (sp, ustack ++ [0])
  | s :: argv, sp, ustack =>
    if ustack.length ≥ MAXARG then return none
    else
      let sp := sp - BitVec.ofNat 64 (s.strlen + 1)
      let sp := sp - sp % 16
      if sp < stackbase then return none
      else do
        let copied ← call (.copyoutStr sp s)
        if copied then pushArgs stackbase argv sp (ustack ++ [sp]) else return none

/-- `exec` after the file is closed: the stack and its arguments. -/
def execStack (path : CStr) (argv : List CStr) (entry sz : BitVec 64) : ExecProg Int := do
  let sz := pgroundup sz
  let sz ← call (.uvmalloc sz (sz + 2 * pgsize))
  if sz = 0 then bad (some sz) none
  else do
    call (.uvmclear (sz - 2 * pgsize))
    let stackbase := sz - pgsize
    match ← pushArgs stackbase argv sz [] with
    | none => bad (some sz) none
    | some (sp, ustack) =>
      let sp := sp - BitVec.ofNat 64 (ustack.length * 8)
      let sp := sp - sp % 16
      if sp < stackbase then bad (some sz) none
      else do
        let copied ← call (.copyoutWords sp ustack)
        if copied then do
          call (.commitExec path sz entry sp)
          return argv.length
        else bad (some sz) none

def exec (path : CStr) (argv : List CStr) : ExecProg Int := do
  call (.fs .beginOp)
  match ← call (.fs (.namei path)) with
  | none => do
    call (.fs .endOp)
    return -1
  | some ip => do
    call (.fs (.ilock ip))
    match ← call (.readElf ip) with
    | none => bad none (some ip)
    | some elf =>
      if elf.magic ≠ ELF_MAGIC then bad none (some ip)
      else do
        let pagetable ← call .procPagetable
        if !pagetable then bad none (some ip)
        else do
          match ← loadSegments ip elf.phnum.toNat (elf.phoff.truncate 32) 0 with
          | .error sz => bad (some sz) (some ip)
          | .ok sz => do
            unlockEnd ip
            execStack path argv elf.entry sz

/-- `kresume` with a new page table, from the size 0 on. -/
def resumeImage (ip : Iptr) (hdr : Resumehdr) : ExecProg Int := do
  let pgBegin := sizeofResumehdr + sizeofTrapframe
  let sz ← call (.uvmalloc 0 (hdr.codeSz.signExtend 64))
  if sz = 0 then bad (some sz) (some ip)
  else do
    let loaded ← call (.loadseg 0 ip pgBegin hdr.codeSz)
    if !loaded then bad (some sz) (some ip)
    else do
      let sz := pgroundup sz
      let sz ← call (.uvmalloc sz (sz + 2 * pgsize))
      if sz = 0 then bad (some sz) (some ip)
      else do
        call (.uvmclear (sz - 2 * pgsize))
        let loaded ← call (.loadseg ((hdr.codeSz + 4096).signExtend 64) ip (pgBegin + hdr.codeSz) 4096)
        if !loaded then bad (some sz) (some ip)
        else do
          -- the file is closed, and the transaction is not
          call (.fs (.iunlock ip))
          call (.fs (.iput ip))
          call (.commitResume hdr sz)
          return 0

/-- `kresume(path)`; the result of the second `readi` is compared as an unsigned number, so that `-1` is
not less than the size of a trapframe. -/
def kresume (path : CStr) : ExecProg Int := do
  call (.fs .beginOp)
  match ← call (.fs (.namei path)) with
  | none => do
    call (.fs .endOp)
    return -1
  | some ip => do
    call (.fs (.ilock ip))
    match ← call (.readResumehdr ip) with
    | none => bad none (some ip)
    | some hdr => do
      let n ← call (.readTrapframe ip sizeofResumehdr)
      if n.signExtend 64 < sizeofTrapframe.zeroExtend 64 then bad none (some ip)
      else do
        let pagetable ← call .procPagetable
        if !pagetable then bad none (some ip)
        else resumeImage ip hdr

end Exec

end Xv6.Fs
