/-
# Xv6.Kernel.Container — the container table's operations (`kernel/container.c`).

The three accounting functions are written on the ONE container they are given and lifted to the
table (`updatecontmem`, `updatecontdsk`, `updatecontproc`), so that their arithmetic can be read
apart from the rest of the state.  `name2cont` keeps the comparison of the source: over
`strlen(name)` bytes, in slot order, whatever the state of the slot.  What `namei(path)` finds is an
input of `kccreate` (`dir`): the directory tree lives in the file-system model.

Operations that free processes (`kcstop`) or end the caller (`setmaxmem` on the root container calls
`exit`) need the process table's operations and come later.
-/
import Xv6.Kernel.Tables
import Mathlib.Data.Fin.Tuple.Basic

namespace Xv6.Kernel

/-! ## Accounting -/

namespace Container

/-- `updatecontmem(memchanged, c)` for a non-null `c`. -/
def updatemem (d : BitVec 64) (c : Container) : Container × Int :=
  if c.state = .cunused then (c, 0)
  else if c.usedMem + d > c.maxSz ∧ c.isroot = 0 then (c, -1)
  else
    let used := c.usedMem + d
    -- `if((int)c->used_mem < 0) c->used_mem = 0`
    ({ c with usedMem := if (used.truncate 32).toInt < 0 then 0 else used }, 1)

/-- `updatecontdsk(dskchanged, c)` for a non-null `c`. -/
def updatedsk (d : BitVec 64) (c : Container) : Container × Int :=
  if c.state = .cunused then (c, 0)
  else if c.usedDsk + d > c.maxDsk ∧ c.isroot = 0 then (c, -1)
  else
    let used := c.usedDsk + d
    -- `if(c->used_dsk < 0)` compares an unsigned number
    ({ c with usedDsk := if used < 0 then 0 else used }, 1)

/-- `updatecontproc(procchange, c)` for a non-null `c`; the root container has a limit too. -/
def updateproc (d : Int) (c : Container) : Container × Int :=
  if c.state = .cunused then (c, 0)
  else if c.usedProc + d > c.maxProc then (c, -1)
  else
    let used := c.usedProc + d
    ({ c with usedProc := if used < 0 then 0 else used }, 1)

end Container

/-- A function on one container, lifted to the table: a null pointer is answered with `0`. -/
def liftCont (f : Container → Container × Int) (c : Option Cid) (s : State) : State × Int :=
  match c with
  | none => (s, 0)
  | some c => (s.setCont c (f (s.cont c)).1, (f (s.cont c)).2)

def updatecontmem (d : BitVec 64) : Option Cid → State → State × Int := liftCont (·.updatemem d)

def updatecontdsk (d : BitVec 64) : Option Cid → State → State × Int := liftCont (·.updatedsk d)

def updatecontproc (d : Int) : Option Cid → State → State × Int := liftCont (·.updateproc d)

/-- `-n` as the 64-bit amount that `kfree`, `bfree` and `kcstart` pass. -/
def neg64 (n : Nat) : BitVec 64 := -BitVec.ofNat 64 n

/-! ## Lookups -/

/-- Does the string `name` match what is stored in the slot: `strncmp(name, c->name,
strlen(name)) == 0`. -/
def Container.answersTo (c : Container) (name : CStr) : Bool := strncmp name.get c.nameAt name.strlen == 0

def name2cont (name : CStr) (s : State) : Option Cid := Fin.find? fun c => (s.cont c).answersTo name

def cid2cont (cid : Int) (s : State) : Option Cid :=
  Fin.find? fun c => (s.cont c).cid == cid && (s.cont c).state != .cunused

/-- `ifvcavaliable(vcname) > 0`: no used container has a console name that starts with `vcname`. -/
def ifvcavaliable (vcname : CStr) (s : State) : Bool :=
  (Fin.find? fun c => strncmp vcname.get (s.cont c).vcNameAt vcname.strlen == 0 &&
    (s.cont c).state != .cunused).isNone

def freeCid (s : State) : Option Cid := Fin.find? fun c => (s.cont c).state == .cunused

/-- `alloccont()`: the claimed slot is marked `CRUNNABLE` until the caller fills it. -/
def alloccont (s : State) : Option (State × Cid) :=
  (freeCid s).map fun c => (s.setCont c { s.cont c with state := .crunnable }, c)

/-! ## Life cycle -/

/-- `strncpy(x, "", 16)`. -/
def noName : CharArr 16 := fun _ => 0

/-- What `freecontainer` leaves of a slot: `cid` and `isroot` stay. -/
def Container.freed (c : Container) : Container :=
  { c with
    name := noName, vcName := noName, maxDsk := 0, maxSz := 0, maxProc := 0, rootdir := none
    nextlocalpid := 0, nextproctorun := none, usedDsk := 0, usedMem := 0, usedProc := 0
    state := .cunused, ticks := 0 }

def freecontainer (c : Cid) (s : State) : State := s.setCont c (s.cont c).freed

def resetticksforcontainers (s : State) : State :=
  { s with cont := fun c => { s.cont c with ticks := 0 } }

/-- `setcontrootdir(name, path)`, where `namei(path)` found `dir`: the container is looked up by its
name again. -/
def setcontrootdir (name : CStr) (dir : Option Ino) (s : State) : State × Int :=
  match name2cont name s with
  | none => (s, -1)
  | some c =>
    match dir with
    | none => (freecontainer c (s.setCont c { s.cont c with state := .cunused }), -1)
    | some ip => (s.setCont c { s.cont c with rootdir := some ip }, 1)

/-- The slot as `kccreate` fills it; `rootdir` and `vc_name` keep what the slot last held. -/
def Container.created (name : CStr) (c : Container) : Container :=
  { c with
    maxProc := (NPROC / NCONT : Nat), maxSz := BitVec.ofNat 64 (MAX_CMEM / NCONT)
    maxDsk := BitVec.ofNat 64 (MAX_CDISK / NCONT), usedDsk := 0, usedMem := 0, usedProc := 0
    name := strncpy 16 name, state := .cinited, nextlocalpid := 1, nextproctorun := none
    isroot := 0, ticks := 0 }

/-- `kccreate(name)`, where `namei(name)` finds `dir`. -/
def kccreate (name : CStr) (dir : Option Ino) (s : State) : State × Int :=
  if (name2cont name s).isSome then (s, -1)
  else
    match alloccont s with
    | none => (s, -1)
    | some (s, c) => setcontrootdir name dir (s.setCont c ((s.cont c).created name))

/-- `kcstart(name, vcname, disksize)`; the results of the three charges are ignored. -/
def kcstart (name vcname : CStr) (disksize : BitVec 64) (s : State) : State × Int :=
  if !ifvcavaliable vcname s then (s, -1)
  else
    match name2cont name s with
    | none => (s, -1)
    | some c =>
      if (s.cont c).state ≠ .cinited then (s, -1)
      else
        let s := (updatecontdsk disksize (some c) s).1
        let s := (updatecontmem (BitVec.ofNat 64 (40 * 1024)) (some c) s).1
        let s := (updatecontmem (neg64 (40 * 1024)) (cid2cont 0 s) s).1
        let s := s.setCont c { s.cont c with vcName := strncpy 16 vcname, state := .crunnable }
        (resetticksforcontainers s, 1)

/-- `(uint64)(newmax*1024)` for an `int newmax`: the product wraps in 32 bits and is widened with
its sign. -/
def kbytes (newmax : BitVec 32) : BitVec 64 := (newmax * 1024).signExtend 64

/-- The limit check of `setmaxmem` and `setmaxdsk`: `newmax*1024 - max > 0` on unsigned numbers. -/
def exceedsMax (newmax : BitVec 32) (max : BitVec 64) : Bool := kbytes newmax - max > 0

/-! ## Processes of a container -/

/-- What being killed does to a slot: the flag, and a sleeper or a suspended process is woken. -/
def Proc.kill (p : Proc) : Proc :=
  { p with
    killed := true
    state := if p.state = .sleeping ∨ p.state = .suspended then .runnable else p.state }

def stopprocforcontainer (c : Cid) (s : State) : State :=
  { s with proc := fun p => if (s.proc p).cont = some c then (s.proc p).kill else s.proc p }

def pauseprocforcontainer (c : Cid) (s : State) : State :=
  { s with
    proc := fun p =>
      if (s.proc p).cont = some c ∧ ((s.proc p).state = .sleeping ∨ (s.proc p).state = .runnable) then
        { s.proc p with state := .suspended }
      else s.proc p }

def resumeprocforcontainer (c : Cid) (s : State) : State :=
  { s with
    proc := fun p =>
      if (s.proc p).cont = some c ∧ (s.proc p).state = .suspended then
        { s.proc p with state := .runnable }
      else s.proc p }

/-- `climitexceedhandler(c)`: tear the container down, leaving its processes marked killed. -/
def climitexceedhandler (c : Cid) (s : State) : State :=
  if (s.cont c).isroot ≠ 0 then s
  else if (s.cont c).state = .cunused then s
  else
    freecontainer c (stopprocforcontainer c (s.setCont c { s.cont c with state := .cstopped }))

/-- What `climitexceedhandler` makes of the container alone. -/
def Container.exceeded (x : Container) : Container := if x.isroot ≠ 0 ∨ x.state = .cunused then x else x.freed

theorem climitexceedhandler_cont (c : Cid) (s : State) :
    (climitexceedhandler c s).cont = Function.update s.cont c (s.cont c).exceeded := by
  unfold climitexceedhandler Container.exceeded
  split
  · rename_i hroot
    rw [if_pos (.inl hroot), Function.update_eq_self]
  rename_i hroot
  split
  · rename_i hunused
    rw [if_pos (.inr hunused), Function.update_eq_self]
  rename_i hused
  rw [if_neg (not_or.mpr ⟨hroot, hused⟩)]
  simp [freecontainer, stopprocforcontainer, Container.freed]

def kcpause (name : CStr) (s : State) : State × Int :=
  match name2cont name s with
  | none => (s, -1)
  | some c =>
    if (s.cont c).isroot ≠ 0 then (s, -1)
    else if (s.cont c).state ≠ .crunnable ∧ (s.cont c).state ≠ .cpaused then (s, -1)
    else (pauseprocforcontainer c (s.setCont c { s.cont c with state := .cpaused }), 1)

def kcresume (name : CStr) (s : State) : State × Int :=
  match name2cont name s with
  | none => (s, -1)
  | some c =>
    if (s.cont c).isroot ≠ 0 then (s, -1)
    else if (s.cont c).state ≠ .cpaused then (s, -1)
    else
      let s := s.setCont c { s.cont c with state := .crunnable }
      (resetticksforcontainers (resumeprocforcontainer c s), 1)

end Xv6.Kernel
