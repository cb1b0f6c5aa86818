/-
# Xv6.Kernel.Tables — the process table, the container table and the CPUs
(`kernel/param.h`, `kernel/proc.h`, the globals of `proc.c`, `container.c` and `kalloc.c`).

One `State` value is a state of the machine between two atomic sections.  A pointer into a table
is an index (`Slot`, `Cid`), a null pointer is `none`.  Pages are counted, not named: `kmem.free`
is the length of the free list, and a process remembers how many page-table pages hang from its
root.  Descriptor tables and the trapframe's registers are not read by anything below and are left
out; the spin locks disappear because every section here is atomic, except `kmem.lock`, which the
code can leave held.
-/
import Xv6.Kernel.CString
import Xv6.Lib.Update
import Mathlib.Logic.Function.Basic

namespace Xv6.Kernel

open Function

/-! ## `param.h` -/

abbrev NPROC : Nat := 64
abbrev NCPU : Nat := 8
abbrev NCONT : Nat := 8
abbrev NINODE : Nat := 50

-- Named, so that a literal index means the same term in every module.
instance : NeZero NPROC := ⟨by decide⟩
instance : NeZero NCPU := ⟨by decide⟩
instance : NeZero NINODE := ⟨by decide⟩

abbrev ROOTCONT : Fin NCONT := 0
def PGSIZE : Nat := 4096
def BSIZE : Nat := 1024
/-- `NPROC*40*1024`, bytes. -/
def MAX_CDISK : Nat := NPROC * 40 * 1024
/-- `NPROC*100*4096`, bytes. -/
def MAX_CMEM : Nat := NPROC * 100 * 4096
def ROOTINO : Nat := 1

/-- A slot of `proc[]`: what a `struct proc *` points to. -/
abbrev Slot := Fin NPROC
/-- A slot of `cont[]`: what a `struct container *` points to. -/
abbrev Cid := Fin NCONT
/-- An i-number: what a `struct inode *` stands for. -/
abbrev Ino := Nat

/-! ## `proc.h` -/

inductive ProcState
  | unused | sleeping | runnable | running | zombie | suspended
  deriving DecidableEq, Repr

inductive ContState
  | cunused | cinited | crunnable | cpaused | cstopped
  deriving DecidableEq, Repr

/-- What a process can sleep on: a process slot (`wait`), the log, a sleep lock, or the address of
another kernel object. -/
inductive Chan
  | proc (p : Slot) | log | lock (l : Nat) | addr (a : Nat)
  deriving DecidableEq, Repr

/-- A user page table: how many page-table pages it has, and whether `proc_pagetable` managed to
map the two pages at the top (it ignores the results of both `mappages`). -/
structure PageTable where
  pages : Nat
  trampoline : Bool
  trapframe : Bool
  deriving DecidableEq, Repr

structure Proc where
  state : ProcState
  parent : Option Slot
  chan : Option Chan
  killed : Bool
  xstate : Int
  pid : Int
  localPid : Int
  sz : Nat
  pagetable : Option PageTable
  /-- Whether `p->tf` is non-null. -/
  tf : Bool
  cwd : Option Ino
  name : CharArr 16
  tracing : Bool
  cont : Option Cid
  ticks : BitVec 32

structure Container where
  state : ContState
  nextlocalpid : Int
  cid : Int
  nextproctorun : Option Slot
  usedProc : Int
  usedMem : BitVec 64
  usedDsk : BitVec 64
  name : CharArr 16
  maxProc : Int
  maxSz : BitVec 64
  maxDsk : BitVec 64
  rootdir : Option Ino
  vcName : CharArr 16
  isroot : Int
  ticks : BitVec 32

def leByte (x : Int) (j : Nat) : UInt8 := UInt8.ofNat ((x / 256 ^ j) % 256).toNat

/-- What reading `c->name` as a string sees: the 16 bytes of the array and, behind a name that
fills it, the bytes of the next field of the struct, `int max_proc`.  `max_proc` is at most `NPROC`,
so its upper bytes end every such string. -/
def Container.nameAt (c : Container) (i : Nat) : UInt8 :=
  if h : i < 16 then c.name ⟨i, h⟩ else if i < 20 then leByte c.maxProc (i - 16) else 0

/-- The same for `c->vc_name`, which is followed by `int isroot`. -/
def Container.vcNameAt (c : Container) (i : Nat) : UInt8 :=
  if h : i < 16 then c.vcName ⟨i, h⟩ else if i < 20 then leByte c.isroot (i - 16) else 0

inductive CpuMode
  /-- At the top of the inner loop. -/
  | idle
  /-- Switched to `p` on behalf of `cont` (the local variable), at time `start`. -/
  | run (p : Slot) (cont : Cid) (start : BitVec 32)
  /-- Back from the process, about to call `getnextproc(cont)`. -/
  | next (cont : Cid)
  deriving DecidableEq

/-- A CPU: the loop variable `i` of its scheduler and where it is. -/
structure Cpu where
  i : Cid
  mode : CpuMode
  deriving DecidableEq

/-- `kmem`: the length of the free list, and whether `kmem.lock` was left held. -/
structure Kmem where
  free : Nat
  locked : Bool
  deriving DecidableEq

structure State where
  proc : Slot → Proc
  cont : Cid → Container
  cpus : Fin NCPU → Cpu
  /-- Unbounded: runs with fewer than `2^31` calls of `allocpid` are meant. -/
  nextpid : Int
  initproc : Slot
  ticks : BitVec 32
  kmem : Kmem

/-! ## Updates -/

namespace State

@[simps -fullyApplied]
def setProc (s : State) (p : Slot) (x : Proc) : State :=
  { s with proc := Function.update s.proc p x }

@[simps -fullyApplied]
def setCont (s : State) (c : Cid) (x : Container) : State :=
  { s with cont := Function.update s.cont c x }

@[simps -fullyApplied]
def setCpu (s : State) (k : Fin NCPU) (x : Cpu) : State :=
  { s with cpus := Function.update s.cpus k x }

def myproc (s : State) (k : Fin NCPU) : Option Slot :=
  match (s.cpus k).mode with
  | .run p _ _ => some p
  | _ => none

/-- `myproc()->cont` on CPU `k`; `none` also when no process is current. -/
def mycont (s : State) (k : Fin NCPU) : Option Cid := (s.myproc k).bind fun p => (s.proc p).cont

theorem myproc_eq_some_iff {s : State} {k : Fin NCPU} {p : Slot} :
    s.myproc k = some p ↔ ∃ c start, (s.cpus k).mode = .run p c start := by
  unfold myproc
  split
  · rename_i q c start hmode
    simp [hmode]
  rename_i hmode
  constructor
  · intro h
    cases h
  · rintro ⟨c, start, h⟩
    exact absurd h (hmode p c start)

end State

end Xv6.Kernel
