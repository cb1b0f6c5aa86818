/-
# Xv6.Kernel.Proc — processes and the scheduler (`kernel/proc.c`).

Each system call is one atomic section on the CPU it runs on; `none` is a panic, a fault on a null
pointer, or a call that never returns.  A process gives up its CPU in `swtchOut`, which is where the
scheduler charges the ticks (it still holds `p->lock` there); the search for the next process of the
container, `getnextproc`, is a separate section, because its loop has no exit of its own.
-/
import Xv6.Kernel.Memory

namespace Xv6.Kernel

/-! ## Allocating and freeing a slot -/

def freeSlot (s : State) : Option Slot := Fin.find? fun p => (s.proc p).state == .unused

/-- The part of `allocproc` before the first allocation: pid, local pid and container of the
claimed slot. -/
def claimSlot (np : Slot) (c : Cid) (s : State) : State :=
  let pid := s.nextpid
  let s := { s with nextpid := s.nextpid + 1 }
  if (s.cont c).isroot ≠ 0 then
    s.setProc np { s.proc np with pid := pid, localPid := pid, cont := some c }
  else
    let lpid := (s.cont c).nextlocalpid
    let s := s.setCont c { s.cont c with nextlocalpid := lpid + 1 }
    s.setProc np { s.proc np with pid := pid, localPid := lpid, cont := some c }

/-- `allocproc(c)` for a slot it found: the flag is false when it returns `0`, which leaves the
claimed slot `UNUSED` with its new pid and container. -/
def allocproc (k : Fin NCPU) (np : Slot) (c : Cid) (s : State) : Option (State × Bool) := do
  let s := claimSlot np c s
  let (s, page) ← kalloc k s
  let s := s.setProc np { s.proc np with tf := page }
  if !page then return (s, false)
  let (s, pt) ← procPagetable k s
  return (s.setProc np { s.proc np with pagetable := some pt }, true)

/-- The fields `freeproc` clears; `cwd`, `local_pid` and `ticks` stay. -/
def Proc.freed (p : Proc) : Proc :=
  { p with
    tf := false, pagetable := none, sz := 0, pid := 0, parent := none
    name := Function.update p.name 0 0, chan := none, killed := false, xstate := 0
    state := .unused, cont := none, tracing := false }

def freeTrapframe (k : Fin NCPU) (p : Slot) (s : State) : Option State :=
  if (s.proc p).tf then kfree k s else some s

def freePagetable (k : Fin NCPU) (p : Slot) (s : State) : Option State :=
  match (s.proc p).pagetable with
  | none => some s
  | some pt => procFreepagetable k pt (s.proc p).sz s

/-- `freeproc(p)` run on CPU `k`: free the pages, clear the slot and lower the count of its
container. -/
def freeproc (k : Fin NCPU) (p : Slot) (s : State) : Option State := do
  let s ← freeTrapframe k p s
  let s ← freePagetable k p s
  let s := (updatecontproc (-1) (s.proc p).cont s).1
  return s.setProc p (s.proc p).freed

/-! ## `fork`, `exit`, `wait` -/

/-- The child as `fork` completes it from its parent process `p`. -/
def forkChild (p np : Slot) (parent : Slot) (cwd : Ino) (pages : Nat) (s : State) : State :=
  s.setProc np
    { s.proc np with
      sz := (s.proc p).sz, parent := some parent, cwd := some cwd, name := (s.proc p).name
      pagetable := (s.proc np).pagetable.map ({ · with pages := pages }), state := .runnable }

/-- The end of `fork`: count the child, and tear the container down when it is one too many. -/
def countChild (np : Slot) (s : State) : State :=
  let counted := updatecontproc 1 (s.proc np).cont s
  if counted.2 < 0 then
    match (s.proc np).cont with
    | none => counted.1
    | some c => climitexceedhandler c counted.1
  else counted.1

/-- `fork(c)` by the process current on CPU `k`, up to `release(&np->lock)`: what it will return, and the
child, `RUNNABLE` and not counted yet, if there is one.  `c` is null for a plain `fork`.  A null container
or working directory is dereferenced. -/
def beginFork (k : Fin NCPU) (c : Option Cid) (s : State) : Option (State × Int × Option Slot) := do
  let p ← s.myproc k
  let cont := match c with
    | none => (s.proc p).cont
    | some c => some c
  let parent := match c with
    | none => p
    | some _ => s.initproc
  let cwd := match c with
    | none => (s.proc p).cwd
    | some c => (s.cont c).rootdir
  match freeSlot s with
  | none => return (s, -1, none)
  | some np =>
    let cont ← cont
    let (s, ok) ← allocproc k np cont s
    if !ok then return (s, -1, none)
    let pt ← (s.proc np).pagetable
    let (s, pages, ok) ← uvmcopy k (s.proc p).sz pt.pages s
    if !ok then
      -- `np->sz` is still 0 here, so `freeproc` does not free the page-table pages
      let s ← freeproc k np s
      return (s, -1, none)
    let cwd ← cwd
    let s := forkChild p np parent cwd pages s
    return (s, (s.proc np).pid, some np)

def fork (k : Fin NCPU) (c : Option Cid) (s : State) : Option (State × Int) := do
  let (s, pid, child) ← beginFork k c s
  return (child.elim s (countChild · s), pid)

/-- The process on CPU `k` has changed its state and switches to the scheduler, which charges the
ticks to the process and to the container it was serving. -/
def swtchOut (k : Fin NCPU) (s : State) : State :=
  match (s.cpus k).mode with
  | .run p c start =>
    let d := s.ticks - start
    let s := s.setProc p { s.proc p with ticks := (s.proc p).ticks + d }
    let s := s.setCont c { s.cont c with ticks := (s.cont c).ticks + d }
    s.setCpu k { s.cpus k with mode := .next c }
  | _ => s

/-- `wakeup1(p)`: wake `p` if it sleeps in `wait`. -/
def wakeup1 (p : Slot) (s : State) : State :=
  if (s.proc p).chan = some (.proc p) ∧ (s.proc p).state = .sleeping then
    s.setProc p { s.proc p with state := .runnable }
  else s

/-- `reparent(p)`: give the children of `p` to init. -/
def reparent (p : Slot) (s : State) : State :=
  { s with
    proc := fun q =>
      if (s.proc q).parent = some p then { s.proc q with parent := some s.initproc }
      else s.proc q }

/-- `exit(status)` by the process current on CPU `k` (its descriptors are not modelled). -/
def exit (k : Fin NCPU) (status : Int) (s : State) : Option State := do
  let p ← s.myproc k
  if p = s.initproc then none
  let parent ← (s.proc p).parent
  let s := s.setProc p { s.proc p with cwd := none }
  let s := wakeup1 s.initproc s
  let s := reparent p s
  let s := wakeup1 parent s
  let s := s.setProc p { s.proc p with xstate := status, state := .zombie }
  return swtchOut k s

/-- `sleep(chan, lk)` by the process current on CPU `k`, up to the switch. -/
def sleepOn (k : Fin NCPU) (chan : Chan) (s : State) : Option State := do
  let p ← s.myproc k
  return swtchOut k (s.setProc p { s.proc p with chan := some chan, state := .sleeping })

def yieldCpu (k : Fin NCPU) (s : State) : Option State := do
  let p ← s.myproc k
  return swtchOut k (s.setProc p { s.proc p with state := .runnable })

/-- One scan of `wait`'s loop by the process current on CPU `k`: reap the first zombie child, give
up, or go to sleep (no result yet).  `copyFails` says that a status address was given and the
`copyout` to it fails. -/
def wait (k : Fin NCPU) (copyFails : Bool) (s : State) : Option (State × Option Int) := do
  let p ← s.myproc k
  match Fin.find? fun np => (s.proc np).parent == some p && (s.proc np).state == .zombie with
  | some np =>
    if copyFails then return (s, some (-1))
    let pid := (s.proc np).pid
    let s ← freeproc k np s
    return (s, some pid)
  | none =>
    if (Fin.find? fun np => (s.proc np).parent == some p).isNone || (s.proc p).killed then
      return (s, some (-1))
    let s ← sleepOn k (.proc p) s
    return (s, none)

def wakeup (chan : Chan) (s : State) : State :=
  { s with
    proc := fun p =>
      if (s.proc p).state = .sleeping ∧ (s.proc p).chan = some chan then
        { s.proc p with state := .runnable }
      else s.proc p }

/-! ## `kill`, `suspend`, `cstop` -/

def containerkillwithpid (c : Cid) (localPid : Int) (s : State) : State × Int :=
  match Fin.find? fun p => (s.proc p).cont == some c && (s.proc p).localPid == localPid with
  | none => (s, -1)
  | some p => (s.setProc p (s.proc p).kill, 0)

/-- `kill(pid)` by the process current on CPU `k`.  From the root container the first slot with the
pid is looked at, and its container pointer is dereferenced. -/
def kill (k : Fin NCPU) (pid : Int) (s : State) : Option (State × Int) := do
  let c ← s.mycont k
  if (s.cont c).isroot ≠ 1 then return containerkillwithpid c pid s
  match Fin.find? fun p => (s.proc p).pid == pid with
  | none => return (s, -1)
  | some p =>
    let d ← (s.proc p).cont
    if (s.cont d).isroot ≠ 1 then return (s, -1)
    return (s.setProc p (s.proc p).kill, 0)

def ballocN (k : Fin NCPU) : Nat → State → State
  | 0, s => s
  | n + 1, s => ballocN k n (ballocCharge k s)

/-- `ksuspend(pid, fd, f)` on CPU `k`, whose four writes allocate `blocks` blocks for `f`.  The second
write reads through `p->tf`; only a file that is not writable keeps a free slot from faulting there. -/
def ksuspend (k : Fin NCPU) (pid : Int) (blocks : Nat) (s : State) : Option (State × Int) :=
  match Fin.find? fun p => (s.proc p).pid == pid with
  | none => some (s, 0)
  | some p =>
    if blocks ≠ 0 ∧ (s.proc p).tf = false then none
    else some (ballocN k blocks (s.setProc p { s.proc p with state := .suspended }), 1)

def killIn (k : Fin NCPU) (c : Cid) (s : State) (p : Slot) : Option State :=
  if (s.proc p).cont = some c then freeproc k p (s.setProc p (s.proc p).kill) else some s

/-- `containerkillall(c)` on CPU `k`: every process of the container is freed, whatever it is
doing. -/
def containerkillall (k : Fin NCPU) (c : Cid) (s : State) : Option State :=
  (List.finRange NPROC).foldlM (killIn k c) s

def kcstop (k : Fin NCPU) (name : CStr) (s : State) : Option (State × Int) :=
  match name2cont name s with
  | none => some (s, -1)
  | some c =>
    if (s.cont c).isroot ≠ 0 then some (s, -1)
    else if (s.cont c).state ≠ .crunnable ∧ (s.cont c).state ≠ .cpaused then some (s, -1)
    else do
      let s ← containerkillall k c s
      let s := s.setCont c { s.cont c with state := .cstopped }
      return (resetticksforcontainers (freecontainer c s), 1)

def kcfork (k : Fin NCPU) (name : CStr) (s : State) : Option (State × Int) :=
  match name2cont name s with
  | none => some (s, -1)
  | some c => fork k (some c) s

/-! ## Setting limits: on the root container the caller is made to exit -/

/-- The common frame of `setmaxdsk`, `setmaxmem` and `setmaxproc`: look the container up, refuse the
root container by ending the caller, and let `f` set the limit or refuse (`none`). -/
def setmax (k : Fin NCPU) (name : CStr) (f : Container → Option Container) (s : State) :
    Option (State × Option Int) :=
  match name2cont name s with
  | none => some (s, some (-1))
  | some c =>
    if (s.cont c).isroot ≠ 0 then (exit k 0 s).map (·, none)
    else
      match f (s.cont c) with
      | none => some (s, some (-1))
      | some x => some (s.setCont c x, some 1)

def Container.withMaxDsk (newmax : BitVec 32) (c : Container) : Option Container :=
  if exceedsMax newmax c.maxDsk then none else some { c with maxDsk := kbytes newmax }

def Container.withMaxSz (newmax : BitVec 32) (c : Container) : Option Container :=
  if exceedsMax newmax c.maxSz then none else some { c with maxSz := kbytes newmax }

def Container.withMaxProc (numproc : Int) (c : Container) : Option Container :=
  if numproc > c.maxProc ∨ numproc < 2 then none else some { c with maxProc := numproc }

def setmaxdsk (k : Fin NCPU) (name : CStr) (newmax : BitVec 32) :
    State → Option (State × Option Int) := setmax k name (·.withMaxDsk newmax)

def setmaxmem (k : Fin NCPU) (name : CStr) (newmax : BitVec 32) :
    State → Option (State × Option Int) := setmax k name (·.withMaxSz newmax)

def setmaxproc (k : Fin NCPU) (name : CStr) (numproc : Int) :
    State → Option (State × Option Int) := setmax k name (·.withMaxProc numproc)

/-! ## The scheduler -/

/-- The modular scan of `getnextproc`, `fuel` probes long, from `proc[index%NPROC]`. -/
def probe (c : Cid) (s : State) : Nat → Nat → Option Slot
  | 0, _ => none
  | fuel + 1, index =>
    let p := Fin.ofNat NPROC index
    if (s.proc p).cont = some c then some p else probe c s fuel (index + 1)

/-- The slot `getnextproc(c)` settles on when its unbounded loop is given `fuel` probes. -/
def nextProc (fuel : Nat) (c : Cid) (s : State) : Option Slot :=
  match (s.cont c).nextproctorun with
  | none =>
    match Fin.find? fun p => (s.proc p).cont == some c with
    | some p => some p
    -- the null pointer is not in the table, so the index scan runs to the end
    | none => probe c s fuel NPROC
  | some cur => probe c s fuel (cur + 1)

def getnextproc (fuel : Nat) (c : Cid) (s : State) : Option State :=
  (nextProc fuel c s).map fun p => s.setCont c { s.cont c with nextproctorun := some p }

def nextIter (k : Fin NCPU) (s : State) : State := s.setCpu k ⟨(s.cpus k).i + 1, .idle⟩

/-- The visit from `acquire(&p->lock)` on: switch to `p` if it is runnable, or go on. -/
def switchTo (k : Fin NCPU) (c : Cid) (p : Slot) (s : State) : Option State :=
  if (s.proc p).state = .runnable then
    -- back in the process, `sleep` clears the channel
    let s := s.setProc p { s.proc p with state := .running, chan := none }
    some (s.setCpu k ⟨(s.cpus k).i, .run p c s.ticks⟩)
  else (getnextproc NPROC c s).map (nextIter k)

/-- One iteration of the scheduler's inner loop on CPU `k`, up to the switch to a process.  The
probes of `getnextproc` are bounded by the size of the table: with the table unchanged, a scan that
has not found a member by then never does. -/
def sched (k : Fin NCPU) (s : State) : Option State :=
  match (s.cpus k).mode with
  | .idle =>
    match cid2cont (s.cpus k).i s with
    | none => some (nextIter k s)
    | some c =>
      if (s.cont c).state ≠ .crunnable then some (nextIter k s)
      else
        match (s.cont c).nextproctorun with
        | none => (getnextproc NPROC c s).map (nextIter k)
        | some p => switchTo k c p s
  | .next c => (getnextproc NPROC c s).map (nextIter k)
  | .run _ _ _ => none

end Xv6.Kernel
