/-
# Xv6.Kernel.Machine — the events of the machine, one step, and the state after boot.

An event is an iteration of a CPU's scheduler, one system call of the process current on a CPU, a process
giving up its CPU in the middle of a call, a wake-up, a clock tick, or a single page or block allocation
made inside some other call.  That each is atomic is an assumption: the code holds no lock throughout a
visit of the scheduler or a `fork`, and `Xv6.Kernel.Sections` cuts these two where it holds none.  What the file
system and the page allocator answer is part of the event (`dir`, `copyFails`, `blocks`) or of the state
(`kmem`).
-/
import Xv6.Kernel.Proc

namespace Xv6.Kernel

/-- The system calls on the two tables, with their arguments as the kernel receives them. -/
inductive Call
  | fork
  | cfork (name : CStr)
  | exit (status : Int)
  | wait (copyFails : Bool)
  | kill (pid : Int)
  | suspend (pid : Int) (blocks : Nat)
  | ccreate (name : CStr) (dir : Option Ino)
  | cstart (name vcname : CStr) (disksize : BitVec 32)
  | cpause (name : CStr)
  | cresume (name : CStr)
  | cstop (name : CStr)
  | setmaxcmem (name : CStr) (mem : BitVec 32)
  | setmaxcdsk (name : CStr) (dsk : BitVec 32)
  | setmaxcproc (name : CStr) (numproc : Int)
  deriving DecidableEq

inductive Event
  /-- The scheduler of CPU `k` goes on. -/
  | sched (k : Fin NCPU)
  | call (k : Fin NCPU) (c : Call)
  | yield (k : Fin NCPU)
  | sleep (k : Fin NCPU) (chan : Chan)
  | wakeup (chan : Chan)
  | clockintr
  | kalloc (k : Fin NCPU)
  | kfree (k : Fin NCPU)
  | balloc (k : Fin NCPU)
  | bfree (k : Fin NCPU)
  /-- `exec`, `growproc` or `kresume` installs a memory image; their allocations are events of
  their own. -/
  | image (k : Fin NCPU) (sz pages : Nat) (name : CharArr 16)
  deriving DecidableEq

/-- The calls that create, move and end processes and containers. -/
def Call.onGroups : Call → Bool
  | .fork | .cfork _ | .exit _ | .wait _ | .ccreate _ _ | .cstart _ _ _ | .cpause _ | .cresume _
  | .cstop _ => true
  | .kill _ | .suspend _ _ | .setmaxcmem _ _ | .setmaxcdsk _ _ | .setmaxcproc _ _ => false

/-- The events of a run that consists of such calls, of scheduling and of allocations. -/
def Event.onGroups : Event → Bool
  | .call _ c => c.onGroups
  | _ => true

def Event.isSuspend : Event → Bool
  | .call _ (.suspend _ _) => true
  | _ => false

/-- The body of a system call on CPU `k`; the value it returns is dropped here. -/
def syscall (k : Fin NCPU) (c : Call) (s : State) : Option State :=
  match c with
  | .fork => (fork k none s).map (·.1)
  | .cfork name => (kcfork k name s).map (·.1)
  | .exit status => exit k status s
  | .wait copyFails => (wait k copyFails s).map (·.1)
  | .kill pid => (kill k pid s).map (·.1)
  | .suspend pid blocks => (ksuspend k pid blocks s).map (·.1)
  | .ccreate name dir => some (kccreate name dir s).1
  -- `disksize` is fetched as an `int` and widened
  | .cstart name vcname disksize => some (kcstart name vcname (disksize.signExtend 64) s).1
  | .cpause name => some (kcpause name s).1
  | .cresume name => some (kcresume name s).1
  | .cstop name => (kcstop k name s).map (·.1)
  | .setmaxcmem name mem => (setmaxmem k name mem s).map (·.1)
  | .setmaxcdsk name dsk => (setmaxdsk k name dsk s).map (·.1)
  | .setmaxcproc name n => (setmaxproc k name n s).map (·.1)

/-- The process current on CPU `k`, entering the kernel: `usertrap` stores the user pc through
`p->tf`, which faults when the slot was freed under the process. -/
def trap (k : Fin NCPU) (s : State) : Option Slot := do
  let p ← s.myproc k
  if (s.proc p).tf then some p else none

/-- `usertrap` for a system call: a killed process exits instead of performing it. -/
def usertrap (k : Fin NCPU) (c : Call) (s : State) : Option State := do
  let p ← trap k s
  if (s.proc p).killed then exit k (-1) s else syscall k c s

/-- The clock: one tick, and its sleepers are woken (`&ticks` is address `0` here). -/
def clockintr (s : State) : State := wakeup (.addr 0) { s with ticks := s.ticks + 1 }

/-- The step function of the machine.  What happens in the middle of a call does not look at `p->tf`. -/
def step (s : State) : Event → Option State
  | .sched k => sched k s
  | .call k c => usertrap k c s
  | .yield k => (trap k s).bind fun _ => yieldCpu k s
  | .sleep k chan => sleepOn k chan s
  | .wakeup chan => some (wakeup chan s)
  | .clockintr => some (clockintr s)
  | .kalloc k => (s.myproc k).bind fun _ => (kalloc k s).map (·.1)
  | .kfree k => (s.myproc k).bind fun _ => kfree k s
  | .balloc k => (s.myproc k).map fun _ => ballocCharge k s
  | .bfree k => (s.myproc k).map fun _ => bfreeCharge k s
  | .image k sz pages name =>
    (trap k s).map fun p =>
      s.setProc p { s.proc p with sz := sz, pagetable := some ⟨pages, true, true⟩, name := name }

/-! ## Boot -/

/-- A slot of `proc[]` before its first use. -/
def Proc.zero : Proc where
  state := .unused
  parent := none
  chan := none
  killed := false
  xstate := 0
  pid := 0
  localPid := 0
  sz := 0
  pagetable := none
  tf := false
  cwd := none
  name := noName
  tracing := false
  cont := none
  ticks := 0

/-- A slot of `cont[]` after the loop of `cinit`. -/
def Container.zero (c : Cid) : Container where
  state := .cunused
  nextlocalpid := 0
  cid := (c : Nat)
  nextproctorun := none
  usedProc := 0
  usedMem := 0
  usedDsk := 0
  name := noName
  maxProc := 0
  maxSz := 0
  maxDsk := 0
  rootdir := none
  vcName := noName
  isroot := 0
  ticks := 0

def rootName : CStr := .ofBytes [114, 111, 111, 116, 99, 111, 110, 116] rfl

def initcode : CStr := .ofBytes [105, 110, 105, 116, 99, 111, 100, 101] rfl

/-- The root container as `initrootcont` leaves it. -/
def rootCont : Container :=
  { Container.zero ROOTCONT with
    maxProc := NPROC, maxSz := BitVec.ofNat 64 MAX_CMEM, maxDsk := BitVec.ofNat 64 MAX_CDISK
    state := .crunnable, rootdir := some ROOTINO, isroot := 1, nextlocalpid := 1
    name := strncpy 16 rootName }

/-- The first process as `userprocinit` leaves it: its tables take five pages and it has one page of
its own. -/
def initProc : Proc :=
  { Proc.zero with
    state := .runnable, pid := 1, localPid := 1, sz := PGSIZE, pagetable := some ⟨5, true, true⟩
    tf := true, cwd := some ROOTINO, name := strncpy 16 initcode, cont := some ROOTCONT }

/-- The machine when `main` enters the scheduler, with `free` pages left. -/
def boot (free : Nat) : State where
  proc := Function.update (fun _ => Proc.zero) 0 initProc
  cont := Function.update Container.zero ROOTCONT rootCont
  cpus := fun _ => ⟨0, .idle⟩
  nextpid := 2
  initproc := 0
  ticks := 0
  kmem := ⟨free, false⟩

end Xv6.Kernel
