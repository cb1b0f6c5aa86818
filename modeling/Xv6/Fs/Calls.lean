/-
# Xv6.Fs.Calls — the system calls on the state of the file system.

`Sysfile` leaves open what the functions do that the system calls call; here they are performed
(`handle`) on the inodes, the table of open files and the processes.  One event is one whole call: calls
run one after the other, and the blocks of the disk, which never runs out of them, are left out.

A call that does not return says why (`Stop`).  `ilock` and `namex` are given a second time with the
reason they stop; `toOption_ilockE` and `toOption_namexE` say that they are the same functions.
-/
import Xv6.Fs.Sysfile
import Xv6.Fs.Layout
import Xv6.Lib.Outcome

namespace Xv6.Fs

open Kernel (Slot Cid Ino CStr CharArr ROOTINO BSIZE)
open Function (update update_self update_of_ne)
open Lib (orStop)

/-! ## Why a call does not return -/

/-- `panic("ilock: no type")`, or anything else: another panic, an access through a null pointer, a
wait for a lock that stays held. -/
inductive Stop
  | noType | other
  deriving DecidableEq

theorem Stop.other_ne : Stop.other ≠ .noType := nofun

def ilockE (t : Slot) (ip : Iptr) (s : Inodes) : Except Stop Inodes :=
  if (s.cache ip).ref < 1 then .error .other
  else if (s.cache ip).lock ≠ none then .error .other
  else if (s.cache ip).valid = false ∧ (s.node ip).type = .free then .error .noType
  else .ok (s.set ip { s.cache ip with valid := true, lock := some t })

def namexRoundE (me : Caller) (rootip : Iptr) (last : Bool) (name : CharArr DIRSIZ) (ip : Iptr)
    (s : Inodes) : Except Stop (Inodes × Walk) := do
  let s ← ilockE me.slot ip s
  if (s.node ip).type ≠ .dir then (·, .done none) <$> orStop .other (iunlockput me.slot ip s)
  else if last then (·, .done (some ip)) <$> orStop .other (iunlock me.slot ip s)
  else do
    let (s, next) ← orStop .other (dirlookup ip name s)
    match next with
    | none => (·, .done none) <$> orStop .other (iunlockput me.slot ip s)
    | some next => do
      let root ← orStop .other me.cont
      let s ← orStop .other (leaveDir me root ip s)
      return (s, .next
        (if root.isroot ≠ 0 ∨ (s.cache next).inum ≠ (s.cache rootip).inum then next else ip))

def namexLoopE (me : Option Caller) (parent : Bool) (rootip : Iptr) :
    Nat → List UInt8 → CharArr DIRSIZ → Iptr → Inodes → Except Stop (Inodes × Option Iptr × CharArr DIRSIZ)
  | 0, _, name, ip, s => orStop .other (namexEnd parent name ip s)
  | fuel + 1, path, name, ip, s =>
    match skipelem path name with
    | none => orStop .other (namexEnd parent name ip s)
    | some (path, name) => do
      let me' ← orStop .other me
      let (s, w) ← namexRoundE me' rootip (parent && path.isEmpty) name ip s
      match w with
      | .done r => .ok (s, r, name)
      | .next ip => namexLoopE me parent rootip fuel path name ip s

def namexE (me : Option Caller) (path : CStr) (parent : Bool) (name : CharArr DIRSIZ) (s : Inodes) :
    Except Stop (Inodes × Option Iptr × CharArr DIRSIZ) := do
  let (s, rootip) ← orStop .other (iget ROOTINO s)
  let (s, ip) ← orStop .other (namexStart me path rootip s)
  namexLoopE me parent rootip path.strlen path.bytes name ip s

theorem toOption_ilockE (t : Slot) (ip : Iptr) (s : Inodes) : (ilockE t ip s).toOption = ilock t ip s := by
  unfold ilockE ilock
  split
  · rfl
  split
  · rfl
  split
  · rfl
  · rfl

theorem toOption_namexRoundE (me : Caller) (rootip : Iptr) (last : Bool) (name : CharArr DIRSIZ)
    (ip : Iptr) (s : Inodes) :
    (namexRoundE me rootip last name ip s).toOption = namexRound me rootip last name ip s := by
  unfold namexRoundE namexRound
  rw [Lib.toOption_bind, toOption_ilockE]
  refine congrArg (Option.bind _) (funext fun u => ?_)
  split
  · rw [Lib.toOption_map, Lib.toOption_orStop]
  split
  · rw [Lib.toOption_map, Lib.toOption_orStop]
  rw [Lib.toOption_bind, Lib.toOption_orStop]
  refine congrArg (Option.bind _) (funext ?_)
  rintro ⟨v, next⟩
  cases next with
  | none => exact (Lib.toOption_map).trans (congrArg _ Lib.toOption_orStop)
  | some next =>
    show Except.toOption (_ >>= _) = _
    rw [Lib.toOption_bind, Lib.toOption_orStop]
    refine congrArg (Option.bind _) (funext fun root => ?_)
    rw [Lib.toOption_bind, Lib.toOption_orStop]
    rfl

theorem toOption_namexLoopE (me : Option Caller) (parent : Bool) (rootip : Iptr) (fuel : Nat)
    (path : List UInt8) (name : CharArr DIRSIZ) (ip : Iptr) (s : Inodes) :
    (namexLoopE me parent rootip fuel path name ip s).toOption = namexLoop me parent rootip fuel path name ip s := by
  induction fuel generalizing path name ip s with
  | zero => exact Lib.toOption_orStop
  | succ fuel ih =>
    unfold namexLoopE namexLoop
    cases hskip : skipelem path name with
    | none => exact Lib.toOption_orStop
    | some next =>
      show Except.toOption (_ >>= _) = _
      rw [Lib.toOption_bind, Lib.toOption_orStop]
      refine congrArg (Option.bind _) (funext fun me' => ?_)
      rw [Lib.toOption_bind, toOption_namexRoundE]
      refine congrArg (Option.bind _) (funext ?_)
      rintro ⟨u, w⟩
      cases w with
      | done r => rfl
      | next ip => exact ih _ _ ip u

theorem toOption_namexE (me : Option Caller) (path : CStr) (parent : Bool) (name : CharArr DIRSIZ)
    (s : Inodes) : (namexE me path parent name s).toOption = namex me path parent name s := by
  unfold namexE namex
  rw [Lib.toOption_bind, Lib.toOption_orStop]
  refine congrArg (Option.bind _) (funext ?_)
  rintro ⟨u, rootip⟩
  rw [Lib.toOption_bind, Lib.toOption_orStop]
  refine congrArg (Option.bind _) (funext ?_)
  rintro ⟨v, ip⟩
  exact toOption_namexLoopE me parent rootip _ _ name ip v

/-! ## Directories -/

/-- How many entries fit into the largest file. -/
abbrev DIRENTS : Nat := MAXFILE * BSIZE / 16

def Inodes.setNode (s : Inodes) (ip : Iptr) (x : Dinode) : Inodes :=
  { s with nodes := update s.nodes (s.cache ip).inum x }

/-- The first entry in use with a name, and its place. -/
def findEntry (name : CharArr DIRSIZ) : List Dirent → Option (Dirent × Nat)
  | [] => none
  | e :: l =>
    if e.inum ≠ 0 ∧ namecmp name e.name = 0 then some (e, 0)
    else (findEntry name l).map fun (e, k) => (e, k + 1)

def dirlookupOff (dp : Iptr) (name : CharArr DIRSIZ) (s : Inodes) :
    Except Stop (Inodes × Option (Iptr × Nat)) :=
  if (s.node dp).type ≠ .dir then .error .other
  else
    match findEntry name (s.node dp).ents with
    | none => .ok (s, none)
    | some (e, k) => (fun (s, ip) => (s, some (ip, 16 * k))) <$> orStop .other (iget e.inum.toNat s)

/-- `strncpy(de.name, name, DIRSIZ)` from a file name: what follows a NUL becomes NULs. -/
def entryName (name : CharArr DIRSIZ) : CharArr DIRSIZ := fun i =>
  if ∃ j, j < i ∧ name j = 0 then 0 else name i

/-- The loop of `dirlink` and its `writei`: the first entry that is not in use is overwritten, or one is
added at the end. -/
def addEntry (de : Dirent) : List Dirent → List Dirent
  | [] => [de]
  | e :: l => if e.inum = 0 then de :: l else e :: addEntry de l

/-- `dirlink(dp, name, inum)`: `false` for `-1`. -/
def dirlink (dp : Iptr) (name : CharArr DIRSIZ) (inum : Ino) (s : Inodes) : Except Stop (Inodes × Bool) := do
  let (s, r) ← dirlookupOff dp name s
  match r with
  | some (ip, _) => (·, false) <$> orStop .other (iput ip s)
  | none =>
    let l := addEntry ⟨.ofNat inum, entryName name⟩ (s.node dp).ents
    if l.length > DIRENTS then .error .other
    else .ok (s.setNode dp { s.node dp with ents := l }, true)

def isdirempty (dp : Iptr) (s : Inodes) : Bool := ((s.node dp).ents.drop 2).all (·.inum == 0)

/-- `writei(dp, 0, &de, off, sizeof(de))`: `false` unless all bytes are written. -/
def writeEntry (dp : Iptr) (off : Nat) (de : Dirent) (s : Inodes) : Inodes × Bool :=
  let l := (s.node dp).ents
  if off / 16 < l.length then (s.setNode dp { s.node dp with ents := l.set (off / 16) de }, true)
  else if off / 16 = l.length ∧ off / 16 < DIRENTS then
    (s.setNode dp { s.node dp with ents := l ++ [de] }, true)
  else (s, false)

def freeInode (s : Inodes) : Option (Fin NINODES) := Fin.find? fun i => 0 < i.val && (s.nodes i).type == .free

def ialloc (type : FileType) (s : Inodes) : Option (Inodes × Iptr) :=
  (freeInode s).bind fun i => iget i { s with nodes := update s.nodes i ⟨type, 0, []⟩ }

/-! ## The state -/

abbrev ROOTDEV : Nat := 1

/-- Inodes, device numbers, the table of open files, and the processes. -/
structure Sys where
  files : Files
  dev : Ino → Int × Int
  file : Fptr → File
  fref : Fptr → Int
  ofile : Slot → Fd → Option Fptr

namespace Sys

def inodes (s : Sys) : Inodes := s.files.inodes

def on (s : Sys) (u : Inodes) : Sys := { s with files := { s.files with inodes := u } }

/-- The pointers to a cached inode that processes, containers and open files hold. -/
def owed (s : Sys) (ip : Iptr) : Nat :=
  s.files.owed ip + Lib.count (fun x : File => (x.type = .inode ∨ x.type = .device) ∧ x.ip = some ip) s.file

end Sys

def filealloc (s : Sys) : Option Fptr × Sys :=
  match Fin.find? fun f => s.fref f == 0 with
  | none => (none, s)
  | some f => (some f, { s with fref := update s.fref f 1 })

def fdalloc (t : Slot) (f : Fptr) (s : Sys) : Option Fd × Sys :=
  match Fin.find? fun fd => (s.ofile t fd).isNone with
  | none => (none, s)
  | some fd => (some fd, { s with ofile := update s.ofile t (update (s.ofile t) fd (some f)) })

/-- `fileclose(f)` under `ftable.lock`. -/
def dropRef (f : Fptr) (s : Sys) : Except Stop (Option File × Sys) :=
  if s.fref f < 1 then .error .other
  else if s.fref f - 1 > 0 then .ok (none, { s with fref := update s.fref f (s.fref f - 1) })
  else .ok (some (s.file f),
    { s with fref := update s.fref f 0, file := update s.file f { s.file f with type := .none } })

/-- What the functions called by process `t` do; `buf` and `buf'` are what the buffers of `namei` and
`nameiparent` held before. -/
def handle (t : Slot) (buf buf' : CharArr DIRSIZ) : (op : FsOp) → Sys → Except Stop (op.Res × Sys)
  | .beginOp, s => .ok ((), s)
  | .endOp, s => .ok ((), s)
  | .namei path, s =>
    (fun (u, ip, _) => (ip, s.on u)) <$> namexE (some (s.files.caller t)) path false buf s.inodes
  | .nameiparent path, s =>
    (fun (u, ip, name) => (ip.map (·, name), s.on u)) <$>
      namexE (some (s.files.caller t)) path true buf' s.inodes
  | .ilock ip, s => (fun u => ((), s.on u)) <$> ilockE t ip s.inodes
  | .iunlock ip, s => (fun u => ((), s.on u)) <$> orStop .other (iunlock t ip s.inodes)
  | .iput ip, s => (fun u => ((), s.on u)) <$> orStop .other (iput ip s.inodes)
  | .fields ip, s =>
    let i := (s.inodes.cache ip).inum
    .ok (⟨ROOTDEV, i, (s.inodes.node ip).type, (s.dev i).1, (s.dev i).2, (s.inodes.node ip).nlink⟩, s)
  | .iupdate ip x, s =>
    .ok ((), { s.on (s.inodes.setNode ip { s.inodes.node ip with type := x.type, nlink := x.nlink }) with
      dev := update s.dev (s.inodes.cache ip).inum (x.major, x.minor) })
  | .dirlookup dp name, s => (fun (u, r) => (r, s.on u)) <$> dirlookupOff dp name s.inodes
  | .dirlink dp name inum, s => (fun (u, r) => (r, s.on u)) <$> dirlink dp name inum s.inodes
  | .isdirempty dp, s => .ok (isdirempty dp s.inodes, s)
  | .writeEntry dp off de, s =>
    let (u, r) := writeEntry dp off de s.inodes
    .ok (r, s.on u)
  | .ialloc type, s =>
    (fun (u, ip) => (some ip, { s.on u with dev := update s.dev (u.cache ip).inum (0, 0) })) <$>
      orStop .other (ialloc type s.inodes)
  | .filealloc, s => .ok (filealloc s)
  | .fdalloc f, s => .ok (fdalloc t f s)
  | .dropRef f, s => dropRef f s
  | .pipeclose _ _, s => .ok ((), s)
  | .file f, s => .ok (s.file f, s)
  | .setFile f x, s => .ok ((), { s with file := update s.file f x })
  | .cwd, s => .ok ((s.files.proc t).cwd, s)
  | .setCwd ip, s => .ok ((), { s with
      files := { s.files with proc := update s.files.proc t { s.files.proc t with cwd := some ip } } })
  | .panic, _ => .error .other

/-! ## The calls of a process -/

/-- `close(fd)`, and one turn of the loop of `exit`.  `sys_close` clears the entry before it closes the
file, `exit` afterwards; nobody sees the state in between. -/
def closeFd (t : Slot) (s : Sys) (fd : Fd) : Except Stop Sys :=
  match s.ofile t fd with
  | none => .ok s
  | some f => do
    let (_, s) ← (Sysfile.fileclose f).run (handle t (fun _ => 0) (fun _ => 0)) s
    return { s with ofile := update s.ofile t (update (s.ofile t) fd none) }

/-- `exit(status)` up to where the process gives up its files and its directory. -/
def sysExit (t : Slot) (s : Sys) : Except Stop Sys := do
  let s ← (List.finRange NOFILE).foldlM (closeFd t) s
  let cwd ← orStop .other (s.files.proc t).cwd
  let u ← orStop .other (iput cwd s.inodes)
  return { s with files :=
    { s.files with inodes := u, proc := update s.files.proc t { s.files.proc t with cwd := none } } }

def dupFd (t child : Slot) (s : Sys) (fd : Fd) : Except Stop Sys :=
  match s.ofile t fd with
  | none => .ok s
  | some f =>
    if s.fref f < 1 then .error .other
    else .ok { s with
      fref := update s.fref f (s.fref f + 1)
      ofile := update s.ofile child (update (s.ofile child) fd (some f)) }

/-- `fork(0)`, with `child` the slot of `allocproc`, which is not in use. -/
def sysFork (t child : Slot) (s : Sys) : Except Stop Sys :=
  if (s.files.proc child).cwd.isSome then .error .other
  else do
    let s ← (List.finRange NOFILE).foldlM (dupFd t child) s
    let cwd ← orStop .other (s.files.proc t).cwd
    return { s with files :=
      { s.files with
        inodes := idup cwd s.inodes
        proc := update s.files.proc child { s.files.proc t with cwd := some cwd } } }

/-- The system calls; an argument that could not be fetched is `none`. -/
inductive Call
  | openFile (args : Option (CStr × BitVec 32))
  | mkdir (fetched : Bool) (path : CStr)
  | mknod (fetched : Bool) (path : CStr) (major minor : Int)
  | link (old new : Option CStr)
  | unlink (path : Option CStr)
  | chdir (fetched : Bool) (path : CStr)
  | close (fd : Fd)
  | fork (child : Slot)
  | exit

/-- A call by process `proc`, with what the buffers for names held before it. -/
structure Syscall where
  proc : Slot
  buf : CharArr DIRSIZ
  buf' : CharArr DIRSIZ
  call : Call

def Syscall.exec (e : Syscall) (p : FsProg Int) (s : Sys) : Except Stop Sys :=
  (·.2) <$> p.run (handle e.proc e.buf e.buf') s

def syscall (e : Syscall) (s : Sys) : Except Stop Sys :=
  match e.call with
  | .openFile args => e.exec (Sysfile.sysOpen args) s
  | .mkdir fetched path => e.exec (Sysfile.sysMkdir fetched path) s
  | .mknod fetched path major minor => e.exec (Sysfile.sysMknod fetched path major minor) s
  | .link old new => e.exec (Sysfile.sysLink old new) s
  | .unlink path => e.exec (Sysfile.sysUnlink path) s
  | .chdir fetched path => e.exec (Sysfile.sysChdir fetched path) s
  | .close fd => closeFd e.proc s fd
  | .fork child => sysFork e.proc child s
  | .exit => sysExit e.proc s

/-- Calls that return. -/
def sysStep (s : Sys) (e : Syscall) : Option Sys := (syscall e s).toOption

end Xv6.Fs
