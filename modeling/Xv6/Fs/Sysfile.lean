/-
# Xv6.Fs.Sysfile — the system calls that change the file system (`kernel/sysfile.c`), and `fileclose`
(`kernel/file.c`).

Each system call is a program over the functions it calls (`FsOp`): what those functions return is
left open here, so that a statement about all runs covers every outcome of every one of them.  A
pointer that may be null is an `Option`; an `int` that only tells success from failure is a `Bool`.
What a call reads of an inode is read with `fields`, and what it changes is written with `iupdate`,
which the code calls after each change.  Printing of traced calls is left out.
-/
import Xv6.Lib.Prog
import Xv6.Fs.Confine

namespace Xv6.Fs

open Kernel (Ino CStr CharArr)
open Lib (Prog)

/-! ## Data -/

abbrev NOFILE : Nat := 16

abbrev NFILE : Nat := 100

abbrev NDEV : Int := 10

/-- An entry of `p->ofile[]`. -/
abbrev Fd := Fin NOFILE

/-- An entry of `ftable.file[]`. -/
abbrev Fptr := Fin NFILE

/-- The value a `short` holds after `n` is stored in it. -/
def short (n : Int) : Int := n.bmod (2 ^ 16)

abbrev O_RDONLY : BitVec 32 := 0x000

abbrev O_WRONLY : BitVec 32 := 0x001

abbrev O_RDWR : BitVec 32 := 0x002

abbrev O_CREATE : BitVec 32 := 0x200

inductive FdType
  | none | pipe | inode | device
  deriving DecidableEq

/-- `struct file` without its reference count, which `ftable.lock` protects; a pipe is known by its
file. -/
structure File where
  type : FdType
  readable : Bool
  writable : Bool
  ip : Option Iptr
  off : BitVec 32
  major : Int

structure Fields where
  dev : Nat
  inum : Ino
  type : FileType
  major : Int
  minor : Int
  nlink : Int

/-! ## Calls -/

inductive FsOp
  | beginOp
  | endOp
  | namei (path : CStr)
  | nameiparent (path : CStr)
  | ilock (ip : Iptr)
  | iunlock (ip : Iptr)
  | iput (ip : Iptr)
  | fields (ip : Iptr)
  | iupdate (ip : Iptr) (x : Fields)
  | dirlookup (dp : Iptr) (name : CharArr DIRSIZ)
  | dirlink (dp : Iptr) (name : CharArr DIRSIZ) (inum : Ino)
  | isdirempty (dp : Iptr)
  /-- `writei(dp, 0, &de, off, sizeof(de))`. -/
  | writeEntry (dp : Iptr) (off : Nat) (de : Dirent)
  | ialloc (type : FileType)
  | filealloc
  | fdalloc (f : Fptr)
  /-- The part of `fileclose` under `ftable.lock`: the file, when the last reference went. -/
  | dropRef (f : Fptr)
  | pipeclose (f : Fptr) (writable : Bool)
  | file (f : Fptr)
  | setFile (f : Fptr) (x : File)
  | cwd
  | setCwd (ip : Iptr)
  | panic

@[reducible] def FsOp.Res : FsOp → Type
  | beginOp | endOp | ilock _ | iunlock _ | iput _ | iupdate _ _ | pipeclose _ _ | setFile _ _
  | setCwd _ => Unit
  | namei _ | ialloc _ | cwd => Option Iptr
  | nameiparent _ => Option (Iptr × CharArr DIRSIZ)
  | fields _ => Fields
  | dirlookup _ _ => Option (Iptr × Nat)
  | dirlink _ _ _ | isdirempty _ | writeEntry _ _ _ => Bool
  | filealloc => Option Fptr
  | file _ => File
  | fdalloc _ => Option Fd
  | dropRef _ => Option File
  | panic => Empty

abbrev FsProg := Prog FsOp FsOp.Res

namespace Sysfile

variable {α : Type}

abbrev call (op : FsOp) : FsProg op.Res := Prog.perform op

/-- `panic(s)`, or an access through a null pointer. -/
def panic : FsProg α := call .panic >>= fun r : Empty => r.elim

def iunlockput (ip : Iptr) : FsProg Unit := do
  call (.iunlock ip)
  call (.iput ip)

def fileclose (f : Fptr) : FsProg Unit := do
  match ← call (.dropRef f) with
  | none => pure ()
  | some ff =>
    match ff.type with
    | .pipe => call (.pipeclose f ff.writable)
    | .inode | .device => do
      call .beginOp
      match ff.ip with
      | none => panic
      | some ip => do
        call (.iput ip)
        call .endOp
    | .none => pure ()

/-! ## `link` and `unlink` -/

def linkBad (ip : Iptr) : FsProg Int := do
  call (.ilock ip)
  let x ← call (.fields ip)
  call (.iupdate ip { x with nlink := short (x.nlink - 1) })
  iunlockput ip
  call .endOp
  return -1

/-- `sys_link()`; an argument that could not be fetched is `none`. -/
def sysLink : Option CStr → Option CStr → FsProg Int
  | some old, some new => do
    call .beginOp
    match ← call (.namei old) with
    | none => do
      call .endOp
      return -1
    | some ip => do
      call (.ilock ip)
      let x ← call (.fields ip)
      if x.type = .dir then do
        iunlockput ip
        call .endOp
        return -1
      else do
        call (.iupdate ip { x with nlink := short (x.nlink + 1) })
        call (.iunlock ip)
        match ← call (.nameiparent new) with
        | none => linkBad ip
        | some (dp, name) => do
          call (.ilock dp)
          let y ← call (.fields dp)
          if y.dev ≠ x.dev then do
            iunlockput dp
            linkBad ip
          else do
            let linked ← call (.dirlink dp name x.inum)
            if linked then do
              iunlockput dp
              call (.iput ip)
              call .endOp
              return 0
            else do
              iunlockput dp
              linkBad ip
  | _, _ => return -1

def unlinkBad (dp : Iptr) : FsProg Int := do
  iunlockput dp
  call .endOp
  return -1

/-- The link that the `..` of a removed directory was. -/
def dropUp (dp : Iptr) (x : Fields) : FsProg Unit :=
  if x.type = .dir then do
    let y ← call (.fields dp)
    call (.iupdate dp { y with nlink := short (y.nlink - 1) })
  else pure ()

/-- `sys_unlink` once it has decided to remove the entry at `off` of `dp`, for the inode `ip` with
fields `x`. -/
def unlinkEntry (dp ip : Iptr) (off : Nat) (x : Fields) : FsProg Int := do
  let written ← call (.writeEntry dp off ⟨0, fun _ => 0⟩)
  if !written then panic
  else do
    dropUp dp x
    iunlockput dp
    call (.iupdate ip { x with nlink := short (x.nlink - 1) })
    iunlockput ip
    call .endOp
    return 0

def sysUnlink : Option CStr → FsProg Int
  | none => return -1
  | some path => do
    call .beginOp
    match ← call (.nameiparent path) with
    | none => do
      call .endOp
      return -1
    | some (dp, name) => do
      call (.ilock dp)
      if namecmp name dot = 0 ∨ namecmp name dotdot = 0 then unlinkBad dp
      else do
        match ← call (.dirlookup dp name) with
        | none => unlinkBad dp
        | some (ip, off) => do
          call (.ilock ip)
          let x ← call (.fields ip)
          if x.nlink < 1 then panic
          else if x.type = .dir then do
            let empt ← call (.isdirempty ip)
            if empt then unlinkEntry dp ip off x
            else do
              iunlockput ip
              unlinkBad dp
          else unlinkEntry dp ip off x

/-! ## Making inodes -/

/-- `create` once it knows that `dp` has no entry `name`. -/
def createNew (dp : Iptr) (name : CharArr DIRSIZ) (type : FileType) (major minor : Int) :
    FsProg (Option Iptr) := do
  match ← call (.ialloc type) with
  | none => panic
  | some ip => do
    call (.ilock ip)
    let x ← call (.fields ip)
    call (.iupdate ip { x with major := major, minor := minor, nlink := 1 })
    let ok ← dots ip x.inum
    if !ok then panic
    else do
      let linked ← call (.dirlink dp name x.inum)
      if !linked then panic
      else do
        iunlockput dp
        return some ip
where
  /-- The entries `.` and `..` of a new directory. -/
  dots (ip : Iptr) (inum : Ino) : FsProg Bool :=
    if type = .dir then do
      let y ← call (.fields dp)
      call (.iupdate dp { y with nlink := short (y.nlink + 1) })
      let self ← call (.dirlink ip dot inum)
      if self then call (.dirlink ip dotdot y.inum) else return false
    else return true

/-- `create(path, type, major, minor)`: a locked inode, or null. -/
def create (path : CStr) (type : FileType) (major minor : Int) : FsProg (Option Iptr) := do
  match ← call (.nameiparent path) with
  | none => return none
  | some (dp, name) => do
    call (.ilock dp)
    match ← call (.dirlookup dp name) with
    | some (ip, _) => do
      iunlockput dp
      call (.ilock ip)
      let x ← call (.fields ip)
      if type = .file ∧ (x.type = .file ∨ x.type = .device) then return some ip
      else do
        iunlockput ip
        return none
    | none => createNew dp name type major minor

/-- The fields of an open file for the inode `ip` with fields `x`; `ff` is what the entry held before. -/
def opened (ip : Iptr) (x : Fields) (omode : BitVec 32) (ff : File) : File :=
  let ff := if x.type = .device then { ff with type := .device, major := x.major }
    else { ff with type := .inode, off := 0 }
  { ff with
    ip := some ip
    readable := omode &&& O_WRONLY == 0
    writable := omode &&& O_WRONLY != 0 || omode &&& O_RDWR != 0 }

/-- `sys_open` with the inode `ip` locked. -/
def openInode (ip : Iptr) (omode : BitVec 32) : FsProg Int := do
  let x ← call (.fields ip)
  if x.type = .device ∧ (x.major < 0 ∨ x.major ≥ NDEV) then do
    iunlockput ip
    call .endOp
    return -1
  else do
    match ← call .filealloc with
    | none => do
      iunlockput ip
      call .endOp
      return -1
    | some f => do
      match ← call (.fdalloc f) with
      | none => do
        fileclose f
        iunlockput ip
        call .endOp
        return -1
      | some fd => do
        let ff ← call (.file f)
        call (.setFile f (opened ip x omode ff))
        call (.iunlock ip)
        call .endOp
        return fd

def sysOpen : Option (CStr × BitVec 32) → FsProg Int
  | none => return -1
  | some (path, omode) => do
    call .beginOp
    if omode &&& O_CREATE ≠ 0 then do
      match ← create path .file 0 0 with
      | none => do
        call .endOp
        return -1
      | some ip => openInode ip omode
    else do
      match ← call (.namei path) with
      | none => do
        call .endOp
        return -1
      | some ip => do
        call (.ilock ip)
        let x ← call (.fields ip)
        if x.type = .dir ∧ omode ≠ O_RDONLY then do
          iunlockput ip
          call .endOp
          return -1
        else openInode ip omode

/-- `sys_mkdir` and `sys_mknod`: when fetching the arguments fails (`fetched` is false), `create` has run
all the same, on whatever the buffer holds, and the inode stays locked. -/
def sysCreate (fetched : Bool) (path : CStr) (type : FileType) (major minor : Int) : FsProg Int := do
  call .beginOp
  match ← create path type major minor with
  | none => do
    call .endOp
    return -1
  | some ip =>
    if fetched then do
      iunlockput ip
      call .endOp
      return 0
    else do
      call .endOp
      return -1

def sysMkdir (fetched : Bool) (path : CStr) : FsProg Int := sysCreate fetched path .dir 0 0

/-- `sys_mknod()`; `create` takes the numbers as `short`s. -/
def sysMknod (fetched : Bool) (path : CStr) (major minor : Int) : FsProg Int :=
  sysCreate fetched path .device (short major) (short minor)

def sysChdir (fetched : Bool) (path : CStr) : FsProg Int := do
  call .beginOp
  match ← call (.namei path) with
  | none => do
    call .endOp
    return -1
  | some ip =>
    if !fetched then do
      call .endOp
      return -1
    else do
      call (.ilock ip)
      let x ← call (.fields ip)
      if x.type ≠ .dir then do
        iunlockput ip
        call .endOp
        return -1
      else do
        call (.iunlock ip)
        match ← call .cwd with
        | none => panic
        | some old => do
          call (.iput old)
          call .endOp
          call (.setCwd ip)
          return 0

end Sysfile

end Xv6.Fs
