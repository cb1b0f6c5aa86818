/-
# Xv6.Kernel.Ftable — the file table, the descriptor tables and the pages of pipes (`kernel/file.c`;
`pipealloc` and `pipeclose` of `kernel/pipe.c`; `sys_open`, `sys_close`, `sys_dup` and `sys_pipe` of
`kernel/sysfile.c`; the descriptors in `fork` and `exit` of `kernel/proc.c`).

Processes run these calls at the same time.  One step is what a call does under one lock, together with what
it does to its own descriptors and to objects that no other process can reach yet, so a call in progress
shows between the steps as a place in the code (`Pc`).  A process in a call may hold references that are in
no table, or have an entry whose reference is not counted: `dup` enters the file before it counts, and `exit`
gives the reference back before it clears the entry.
-/
import Xv6.Kernel.Tables
import Xv6.Fs.Sysfile
import Xv6.Lib.Count
import Xv6.Lib.Trace

namespace Xv6.Kernel.Ftable

open Fs (Fd Fptr NOFILE)
open Function
open Lib (Reach)

/-! ## Data -/

abbrev Page := Nat

inductive FileType
  | none | pipe | inode | device
  deriving DecidableEq

structure File where
  ref : Int
  type : FileType
  pipe : Page
  writable : Bool
  deriving DecidableEq

/-- A page of physical memory: on the free list, in use for something else, or a `struct pipe`. -/
inductive Frame
  | free | other
  | pipe (readopen writeopen : Bool)
  deriving DecidableEq

inductive Panic
  | filedup | fileclose | initExiting
  deriving DecidableEq

inductive After
  /-- The call returns. -/
  | ret
  /-- `fileclose(f)`, and the call returns. -/
  | close (f : Fptr)
  /-- `exit` clears the entry `fd`, and `fds` are left. -/
  | exit (fd : Fd) (fds : List Fd)
  deriving DecidableEq

inductive Pc
  /-- In user space, or in a call that does nothing here. -/
  | user
  /-- `sys_open` has `f` from `filealloc`. -/
  | opened (f : Fptr)
  /-- `sys_dup` has entered `f` at `fd`, before `filedup(f)`. -/
  | dup (fd : Fd) (f : Fptr)
  /-- `pipealloc` has `f0`. -/
  | pipe1 (f0 : Fptr)
  /-- `pipealloc` has both files, before `kalloc`. -/
  | pipe2 (f0 f1 : Fptr)
  /-- `pipealloc` has returned `0`. -/
  | pipe3 (rf wf : Fptr)
  /-- `fork` has the slot `np`, before `uvmcopy`. -/
  | uvmcopy (np : Slot)
  /-- `fork` is at the descriptors; `fds` are left. -/
  | fork (np : Slot) (fds : List Fd)
  /-- `exit` is at the descriptors; `fds` are left. -/
  | exit (fds : List Fd)
  /-- Before `fileclose(f)`. -/
  | close (f : Fptr) (k : After)
  /-- `fileclose` is at `pipeclose(pg, writable)`. -/
  | pipeclose (pg : Page) (writable : Bool) (k : After)
  /-- `pipeclose` is at `kfree(pg)`. -/
  | kfree (pg : Page) (k : After)
  /-- `fileclose` is at `iput`. -/
  | iput (k : After)
  deriving DecidableEq

/-- `UNUSED`, `ZOMBIE`, or one of the states in between. -/
inductive Life
  | unused | live | zombie
  deriving DecidableEq

structure Task where
  life : Life
  ofile : Fd → Option Fptr
  pc : Pc

structure State where
  task : Slot → Task
  file : Fptr → File
  mem : Page → Frame
  panic : Option Panic

/-- `userinit()` makes the process in slot `0`. -/
abbrev initproc : Slot := 0

/-! ## The code -/

def filealloc (file : Fptr → File) : Option Fptr := Fin.find? fun f => (file f).ref == 0

def fdalloc (ofile : Fd → Option Fptr) : Option Fd := Fin.find? fun fd => (ofile fd).isNone

def Task.goto (x : Task) (pc : Pc) : Task := { x with pc := pc }

def Task.setFd (x : Task) (fd : Fd) (o : Option Fptr) : Task := { x with ofile := update x.ofile fd o }

def Task.resume (x : Task) : After → Task
  | .ret => x.goto .user
  | .close f => x.goto (.close f .ret)
  | .exit fd fds => (x.setFd fd none).goto (.exit fds)

/-- `fdalloc(rf)`, `fdalloc(wf)` and the two `copyout`s of `sys_pipe`. -/
def Task.enterPipe (x : Task) (rf wf : Fptr) (copied : Bool) : Task :=
  match fdalloc x.ofile with
  | none => x.goto (.close rf (.close wf))
  | some fd0 =>
    let y := x.setFd fd0 (some rf)
    match fdalloc y.ofile with
    | none => (y.setFd fd0 none).goto (.close rf (.close wf))
    | some fd1 =>
      let z := y.setFd fd1 (some wf)
      if copied then z.goto .user
      else ((z.setFd fd0 none).setFd fd1 none).goto (.close rf (.close wf))

namespace State

def setTask (s : State) (p : Slot) (x : Task) : State := { s with task := update s.task p x }

def setFile (s : State) (f : Fptr) (ff : File) : State := { s with file := update s.file f ff }

def setFrame (s : State) (pg : Page) (x : Frame) : State := { s with mem := update s.mem pg x }

/-- What `fileclose(f)` does under `ftable.lock`, and where it goes on. -/
def fileclose (s : State) (p : Slot) (f : Fptr) (k : After) : State :=
  let ff := s.file f
  if ff.ref < 1 then { s with panic := some .fileclose }
  else if ff.ref - 1 > 0 then (s.setFile f { ff with ref := ff.ref - 1 }).setTask p ((s.task p).resume k)
  else
    let s := s.setFile f { ff with ref := 0, type := .none }
    match ff.type with
    | .pipe => s.setTask p ((s.task p).goto (.pipeclose ff.pipe ff.writable k))
    | .inode | .device => s.setTask p ((s.task p).goto (.iput k))
    | .none => s.setTask p ((s.task p).resume k)

/-- `pipeclose(pg, writable)` up to `kfree`. -/
def pipeclose (s : State) (p : Slot) (pg : Page) (writable : Bool) (k : After) : State :=
  match s.mem pg with
  | .pipe readopen writeopen =>
    let readopen := if writable then readopen else false
    let writeopen := if writable then false else writeopen
    let s := s.setFrame pg (.pipe readopen writeopen)
    if readopen = false ∧ writeopen = false then s.setTask p ((s.task p).goto (.kfree pg k))
    else s.setTask p ((s.task p).resume k)
  -- the page is no pipe any more: it is written all the same
  | _ => s.setTask p ((s.task p).resume k)

/-- `filedup(f)`; `after` is what the caller does next. -/
def filedup (s : State) (f : Fptr) (after : State → State) : State :=
  let ff := s.file f
  if ff.ref < 1 then { s with panic := some .filedup }
  else after (s.setFile f { ff with ref := ff.ref + 1 })

end State

/-- What the rest of the system decides for a step. -/
inductive Input
  | go
  /-- What `kalloc` returns. -/
  | page (pg : Option Page)
  /-- Does `uvmcopy`, or do the `copyout`s, succeed. -/
  | ok (b : Bool)
  /-- The inode that was opened, and `omode`. -/
  | inode (device writable : Bool)
  deriving DecidableEq

def advance (s : State) (p : Slot) : Pc → Input → Option State
  | .opened f, .inode device writable =>
    match fdalloc (s.task p).ofile with
    | none => some (s.setTask p ((s.task p).goto (.close f .ret)))
    | some fd =>
      let ff := { s.file f with type := if device then .device else .inode, writable := writable }
      some ((s.setFile f ff).setTask p (((s.task p).setFd fd (some f)).goto .user))
  | .dup _ f, .go => some (s.filedup f fun s => s.setTask p ((s.task p).goto .user))
  | .pipe1 f0, .go =>
    match filealloc s.file with
    | none => some (s.setTask p ((s.task p).goto (.close f0 .ret)))
    | some f1 => some ((s.setFile f1 { s.file f1 with ref := 1 }).setTask p ((s.task p).goto (.pipe2 f0 f1)))
  | .pipe2 f0 f1, .page none => some (s.setTask p ((s.task p).goto (.close f0 (.close f1))))
  | .pipe2 f0 f1, .page (some pg) =>
    if s.mem pg = .free then
      let s := s.setFrame pg (.pipe true true)
      let s := s.setFile f0 { s.file f0 with type := .pipe, pipe := pg, writable := false }
      let s := s.setFile f1 { s.file f1 with type := .pipe, pipe := pg, writable := true }
      some (s.setTask p ((s.task p).goto (.pipe3 f0 f1)))
    else none
  | .pipe3 rf wf, .ok b => some (s.setTask p ((s.task p).enterPipe rf wf b))
  | .uvmcopy np, .ok b => some (s.setTask p ((s.task p).goto (if b then .fork np (List.finRange NOFILE) else .user)))
  | .fork np [], .go =>
    let s := s.setTask np { s.task np with life := .live }
    some (s.setTask p ((s.task p).goto .user))
  | .fork np (fd :: fds), .go =>
    let s' := s.setTask p ((s.task p).goto (.fork np fds))
    match (s.task p).ofile fd with
    | none => some s'
    | some f => some (s'.filedup f fun s => s.setTask np ((s.task np).setFd fd (some f)))
  | .exit [], .go => some (s.setTask p { (s.task p).goto .user with life := .zombie })
  | .exit (fd :: fds), .go =>
    match (s.task p).ofile fd with
    | none => some (s.setTask p ((s.task p).goto (.exit fds)))
    | some f => some (s.setTask p ((s.task p).goto (.close f (.exit fd fds))))
  | .close f k, .go => some (s.fileclose p f k)
  | .pipeclose pg writable k, .go => some (s.pipeclose p pg writable k)
  | .kfree pg k, .go => some ((s.setFrame pg .free).setTask p ((s.task p).resume k))
  | .iput k, .go => some (s.setTask p ((s.task p).resume k))
  | _, _ => none

inductive Event
  /-- `open`, from `filealloc` on; what fails before that does nothing here. -/
  | open (p : Slot)
  | dup (p : Slot) (fd : Fd)
  | close (p : Slot) (fd : Fd)
  | pipe (p : Slot)
  /-- `fork`, to which `allocproc` has given the slot `np`. -/
  | fork (p np : Slot)
  | exit (p : Slot)
  /-- A parent frees a zombie. -/
  | wait (np : Slot)
  /-- A call in progress goes on. -/
  | go (p : Slot) (i : Input)
  /-- `kalloc` and `kfree` for something else. -/
  | take (pg : Page)
  | give (pg : Page)
  deriving DecidableEq

def State.Ready (s : State) (p : Slot) : Prop := (s.task p).life = .live ∧ (s.task p).pc = .user
deriving Decidable

/-- The slot that a `fork` in progress holds the lock of. -/
def Pc.claims : Pc → Option Slot
  | .uvmcopy np => some np
  | .fork np _ => some np
  | _ => none

def call (s : State) (p : Slot) : Event → Option State
  | .open _ =>
    match filealloc s.file with
    | none => some s
    | some f => some ((s.setFile f { s.file f with ref := 1 }).setTask p ((s.task p).goto (.opened f)))
  | .dup _ fd =>
    match (s.task p).ofile fd with
    -- `argfd` fails, and what `fdalloc` is called with is not defined
    | none => none
    | some f =>
      match fdalloc (s.task p).ofile with
      | none => some s
      | some fd' => some (s.setTask p (((s.task p).setFd fd' (some f)).goto (.dup fd' f)))
  | .close _ fd =>
    match (s.task p).ofile fd with
    | none => some s
    | some f => some (s.setTask p (((s.task p).setFd fd none).goto (.close f .ret)))
  | .pipe _ =>
    match filealloc s.file with
    | none => some s
    | some f => some ((s.setFile f { s.file f with ref := 1 }).setTask p ((s.task p).goto (.pipe1 f)))
  | .fork _ np =>
    if (s.task np).life = .unused ∧ ∀ q, (s.task q).pc.claims ≠ some np then
      some (s.setTask p ((s.task p).goto (.uvmcopy np)))
    else none
  | .exit _ =>
    if p = initproc then some { s with panic := some .initExiting }
    else some (s.setTask p ((s.task p).goto (.exit (List.finRange NOFILE))))
  | _ => none

def step (s : State) (e : Event) : Option State :=
  if s.panic ≠ none then none
  else
    match e with
    | .open p | .dup p _ | .close p _ | .pipe p | .fork p _ | .exit p => if s.Ready p then call s p e else none
    | .wait np =>
      if (s.task np).life = .zombie then some (s.setTask np { s.task np with life := .unused }) else none
    | .go p i => advance s p (s.task p).pc i
    | .take pg => if s.mem pg = .free then some (s.setFrame pg .other) else none
    | .give pg => if s.mem pg = .other then some (s.setFrame pg .free) else none

/-- After `userinit()`: one process, no open file, and memory of which some is free. -/
def start (mem : Page → Bool) : State where
  task p := ⟨if p = initproc then .live else .unused, fun _ => none, .user⟩
  file _ := ⟨0, .none, 0, false⟩
  mem pg := if mem pg then .free else .other
  panic := none

end Xv6.Kernel.Ftable
