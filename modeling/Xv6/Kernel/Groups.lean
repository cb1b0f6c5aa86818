/-
# Xv6.Kernel.Groups — the two tables as process groups: an abstract machine of labelled acts.

A `View` keeps what the table invariants talk about: the state, the container and the trapframe of
each slot; the life-cycle fields of each container; where each CPU is.  Memory and disk counters,
ticks, pids, channels and kill flags are gone.  An `Act` is one change of a view, with its guard, and
`Fires v a v'` says all of it: every table invariant is proved by one case analysis over the acts,
and `Xv6.Kernel.Simulation` shows that every step of the machine is a list of them.

`pend` is the slot `allocproc` has claimed and `fork` has not yet completed or given back; between
two steps there is none.
-/
import Xv6.Kernel.Machine

namespace Xv6.Kernel

open Function

/-! ## Views -/

structure PView where
  state : ProcState
  cont : Option Cid
  tf : Bool

structure CView where
  state : ContState
  cid : Int
  isroot : Int
  name : CharArr 16
  rootdir : Option Ino
  maxProc : Int
  maxSz : BitVec 64
  maxDsk : BitVec 64
  usedProc : Int
  next : Option Slot

@[ext]
structure View where
  proc : Slot → PView
  cont : Cid → CView
  mode : Fin NCPU → CpuMode
  initproc : Slot
  pend : Option Slot

def Proc.view (p : Proc) : PView := ⟨p.state, p.cont, p.tf⟩

def Container.view (c : Container) : CView where
  state := c.state
  cid := c.cid
  isroot := c.isroot
  name := c.name
  rootdir := c.rootdir
  maxProc := c.maxProc
  maxSz := c.maxSz
  maxDsk := c.maxDsk
  usedProc := c.usedProc
  next := c.nextproctorun

/-- The view of a state in which `pend` is being allocated. -/
def State.view (pend : Option Slot) (s : State) : View where
  proc p := (s.proc p).view
  cont c := (s.cont c).view
  mode k := (s.cpus k).mode
  initproc := s.initproc
  pend := pend

namespace View

@[simps -fullyApplied]
def withProc (v : View) (p : Slot) (x : PView) : View :=
  { v with proc := update v.proc p x }

@[simps -fullyApplied]
def withCont (v : View) (c : Cid) (x : CView) : View :=
  { v with cont := update v.cont c x }

@[simps -fullyApplied]
def withMode (v : View) (k : Fin NCPU) (m : CpuMode) : View :=
  { v with mode := update v.mode k m }

section Fields

variable (v : View) (p : Slot) (x : PView) (c : Cid) (y z : CView) (k : Fin NCPU) (m : CpuMode)

attribute [grind =] withProc_pend withProc_initproc withCont_pend withCont_initproc withMode_pend
  withMode_initproc

@[simp] theorem withCont_withCont : (v.withCont c y).withCont c z = v.withCont c z := by
  simp [withCont]

@[grind =] theorem withProc_proc_apply (q : Slot) :
    (v.withProc p x).proc q = if q = p then x else v.proc q := update_apply _ _ _ _
@[grind =] theorem withCont_cont_apply (d : Cid) :
    (v.withCont c y).cont d = if d = c then y else v.cont d := update_apply _ _ _ _
@[grind =] theorem withMode_mode_apply (j : Fin NCPU) :
    (v.withMode k m).mode j = if j = k then m else v.mode j := update_apply _ _ _ _

@[grind =] theorem withProc_cont_apply (d : Cid) : (v.withProc p x).cont d = v.cont d := rfl
@[grind =] theorem withProc_mode_apply (j : Fin NCPU) : (v.withProc p x).mode j = v.mode j := rfl
@[grind =] theorem withCont_proc_apply (q : Slot) : (v.withCont c y).proc q = v.proc q := rfl
@[grind =] theorem withCont_mode_apply (j : Fin NCPU) : (v.withCont c y).mode j = v.mode j := rfl
@[grind =] theorem withMode_proc_apply (q : Slot) : (v.withMode k m).proc q = v.proc q := rfl
@[grind =] theorem withMode_cont_apply (d : Cid) : (v.withMode k m).cont d = v.cont d := rfl

@[simp] theorem withProc_self : v.withProc p (v.proc p) = v := by simp [withProc]

@[simp] theorem withCont_self : v.withCont c (v.cont c) = v := by simp [withCont]

end Fields

end View

section Updates

variable (pend : Option Slot) (s : State)

@[simp] theorem State.view_setProc (p : Slot) (x : Proc) : (s.setProc p x).view pend = (s.view pend).withProc p x.view :=
  View.ext (funext fun q => apply_update (fun _ => Proc.view) s.proc p x q) rfl rfl rfl rfl

@[simp] theorem State.view_setCont (c : Cid) (x : Container) :
    (s.setCont c x).view pend = (s.view pend).withCont c x.view :=
  View.ext rfl (funext fun d => apply_update (fun _ => Container.view) s.cont c x d)
    rfl rfl rfl

@[simp] theorem State.view_setCpu (k : Fin NCPU) (x : Cpu) : (s.setCpu k x).view pend = (s.view pend).withMode k x.mode :=
  View.ext rfl rfl (funext fun j => apply_update (fun _ => Cpu.mode) s.cpus k x j) rfl rfl

theorem State.view_setProc_same {p : Slot} {x : Proc} (h : x.view = (s.proc p).view) :
    (s.setProc p x).view pend = s.view pend := by
  rw [State.view_setProc, h]
  exact View.withProc_self _ _

theorem State.view_setCont_same {c : Cid} {x : Container} (h : x.view = (s.cont c).view) :
    (s.setCont c x).view pend = s.view pend := by
  rw [State.view_setCont, h]
  exact View.withCont_self _ _

end Updates

/-! ## What acts do to a slot and to a container -/

/-- What a process sets its own state to before it switches to the scheduler: `sleep`, `yield`,
`exit`. -/
def ProcState.Resting (x : ProcState) : Prop := x = .sleeping ∨ x = .runnable ∨ x = .zombie

def PView.free : PView := ⟨.unused, none, false⟩

def PView.kill (p : PView) : PView :=
  { p with state := if p.state = .sleeping ∨ p.state = .suspended then .runnable else p.state }

namespace CView

def count (d : Int) (c : CView) : CView :=
  if c.state = .cunused then c
  else if c.usedProc + d > c.maxProc then c
  else { c with usedProc := if c.usedProc + d < 0 then 0 else c.usedProc + d }

theorem count_eq (d : Int) (c : CView) : ∃ u, c.count d = { c with usedProc := u } := by
  unfold count
  split
  · exact ⟨_, rfl⟩
  · split
    · exact ⟨_, rfl⟩
    · exact ⟨_, rfl⟩

section Count

variable (d : Int) (c : CView)

@[grind =] theorem count_state : (c.count d).state = c.state := by
  obtain ⟨u, hu⟩ := c.count_eq d
  rw [hu]
@[grind =] theorem count_isroot : (c.count d).isroot = c.isroot := by
  obtain ⟨u, hu⟩ := c.count_eq d
  rw [hu]
@[grind =] theorem count_name : (c.count d).name = c.name := by
  obtain ⟨u, hu⟩ := c.count_eq d
  rw [hu]
@[grind =] theorem count_rootdir : (c.count d).rootdir = c.rootdir := by
  obtain ⟨u, hu⟩ := c.count_eq d
  rw [hu]
@[grind =] theorem count_next : (c.count d).next = c.next := by
  obtain ⟨u, hu⟩ := c.count_eq d
  rw [hu]

end Count

/-- Does the container refuse one more process. -/
def Full (c : CView) : Prop := c.state ≠ .cunused ∧ c.usedProc + 1 > c.maxProc

def freed (c : CView) : CView :=
  { c with
    name := noName, maxDsk := 0, maxSz := 0, maxProc := 0, rootdir := none, next := none
    usedProc := 0, state := .cunused }

/-- `kccreate`'s assignments on a view, with the root directory that is set at the end. -/
def created (name : CStr) (ip : Option Ino) (c : CView) : CView :=
  { c with
    maxProc := (NPROC / NCONT : Nat), maxSz := BitVec.ofNat 64 (MAX_CMEM / NCONT)
    maxDsk := BitVec.ofNat 64 (MAX_CDISK / NCONT), usedProc := 0, name := strncpy 16 name
    state := .cinited, next := none, isroot := 0, rootdir := ip }

def recycled (c : CView) : CView := { c.freed with isroot := 0 }

end CView

namespace View

@[grind =] def restate (v : View) (f : Slot → ProcState) : View :=
  { v with proc := fun p => { v.proc p with state := f p } }

@[grind =] def setState (v : View) (p : Slot) (x : ProcState) : View :=
  v.withProc p { v.proc p with state := x }

/-- `freeproc` on a view: the slot is cleared and its container counts one process less. -/
@[grind =] def release (v : View) (p : Slot) : View :=
  { v with
    proc := update v.proc p .free
    cont := fun c => if (v.proc p).cont = some c then (v.cont c).count (-1) else v.cont c }

/-- `climitexceedhandler`: the processes are killed, the container is freed. -/
@[grind =] def teardown (v : View) (c : Cid) : View :=
  { v with
    proc := fun p => if (v.proc p).cont = some c then (v.proc p).kill else v.proc p
    cont := update v.cont c (v.cont c).freed }

/-- `kcpause`: sleepers and runnable processes are suspended. -/
@[grind =] def pause (v : View) (c : Cid) : View :=
  { v with
    proc := fun p =>
      if (v.proc p).cont = some c ∧ ((v.proc p).state = .sleeping ∨ (v.proc p).state = .runnable) then
        { v.proc p with state := .suspended }
      else v.proc p
    cont := update v.cont c { v.cont c with state := .cpaused } }

@[grind =] def resume (v : View) (c : Cid) : View :=
  { v with
    proc := fun p =>
      if (v.proc p).cont = some c ∧ (v.proc p).state = .suspended then
        { v.proc p with state := .runnable }
      else v.proc p
    cont := update v.cont c { v.cont c with state := .crunnable } }

/-- `kcstop`: all processes of the container and then the container itself are freed. -/
@[grind =] def stop (v : View) (c : Cid) : View :=
  { v with
    proc := fun p => if (v.proc p).cont = some c then .free else v.proc p
    cont := update v.cont c (v.cont c).freed }

section Effects

variable (v : View) (f : Slot → ProcState) (p q : Slot) (x : ProcState) (c d : Cid)

@[grind =] theorem restate_proc : (v.restate f).proc p = { v.proc p with state := f p } := rfl
@[grind =] theorem restate_cont : (v.restate f).cont d = v.cont d := rfl
@[grind =] theorem restate_mode (k : Fin NCPU) : (v.restate f).mode k = v.mode k := rfl
@[grind =] theorem setState_proc : (v.setState p x).proc q =
    if q = p then { v.proc p with state := x } else v.proc q := update_apply _ _ _ _
@[grind =] theorem setState_cont : (v.setState p x).cont d = v.cont d := rfl
@[grind =] theorem setState_mode (k : Fin NCPU) : (v.setState p x).mode k = v.mode k := rfl
@[grind =] theorem release_proc : (v.release p).proc q = if q = p then .free else v.proc q := update_apply _ _ _ _
@[grind =] theorem release_cont : (v.release p).cont c =
    if (v.proc p).cont = some c then (v.cont c).count (-1) else v.cont c := rfl
@[grind =] theorem release_mode (k : Fin NCPU) : (v.release p).mode k = v.mode k := rfl
@[grind =] theorem teardown_proc : (v.teardown c).proc p =
    if (v.proc p).cont = some c then (v.proc p).kill else v.proc p := rfl
@[grind =] theorem teardown_cont : (v.teardown c).cont d =
    if d = c then (v.cont c).freed else v.cont d := update_apply _ _ _ _
@[grind =] theorem teardown_mode (k : Fin NCPU) : (v.teardown c).mode k = v.mode k := rfl
@[grind =] theorem pause_proc : (v.pause c).proc p =
    if (v.proc p).cont = some c ∧ ((v.proc p).state = .sleeping ∨ (v.proc p).state = .runnable) then
      { v.proc p with state := .suspended } else v.proc p := rfl
@[grind =] theorem pause_cont : (v.pause c).cont d =
    if d = c then { v.cont c with state := .cpaused } else v.cont d := update_apply _ _ _ _
@[grind =] theorem pause_mode (k : Fin NCPU) : (v.pause c).mode k = v.mode k := rfl
@[grind =] theorem resume_proc : (v.resume c).proc p =
    if (v.proc p).cont = some c ∧ (v.proc p).state = .suspended then
      { v.proc p with state := .runnable } else v.proc p := rfl
@[grind =] theorem resume_cont : (v.resume c).cont d =
    if d = c then { v.cont c with state := .crunnable } else v.cont d :=
  update_apply _ _ _ _
@[grind =] theorem resume_mode (k : Fin NCPU) : (v.resume c).mode k = v.mode k := rfl
@[grind =] theorem stop_proc : (v.stop c).proc p =
    if (v.proc p).cont = some c then .free else v.proc p := rfl
@[grind =] theorem stop_cont : (v.stop c).cont d =
    if d = c then (v.cont c).freed else v.cont d := update_apply _ _ _ _
@[grind =] theorem stop_mode (k : Fin NCPU) : (v.stop c).mode k = v.mode k := rfl

end Effects

end View

/-! ## Acts -/

inductive Act
  /-- Sleeping and suspended processes become runnable. -/
  | wake
  /-- `ksuspend` sets the state of whatever slot has the pid. -/
  | suspend (p : Slot)
  /-- `allocproc` takes a free slot for container `c`. -/
  | claim (p : Slot) (c : Cid)
  /-- The trapframe of the slot being allocated is set. -/
  | arm (p : Slot)
  /-- The claim is given up without a trapframe. -/
  | abandon (p : Slot)
  /-- `fork` completes the child and its container counts it. -/
  | birth (p : Slot) (c : Cid)
  /-- `fork` completes the child and its container refuses to count it. -/
  | stray (p : Slot) (c : Cid)
  /-- `wait` frees a zombie. -/
  | reap (p : Slot)
  /-- `fork` frees the child it could not complete. -/
  | forfeit (p : Slot)
  /-- `climitexceedhandler`. -/
  | teardown (c : Cid)
  | create (c : Cid) (name : CStr)
  /-- `kccreate` claims the slot, finds no directory and frees it again. -/
  | recycle (c : Cid)
  | start (c : Cid)
  | pause (c : Cid)
  | resume (c : Cid)
  /-- `kcstop`: all processes of the container and then the container itself are freed. -/
  | stop (c : Cid)
  /-- `setmaxproc`. -/
  | limit (c : Cid)
  | next (c : Cid) (p : Slot)
  | dispatch (k : Fin NCPU) (p : Slot) (c : Cid)
  /-- The process on the CPU sets its state to `x` and switches to the scheduler. -/
  | leave (k : Fin NCPU) (p : Slot) (x : ProcState)
  /-- The process on the CPU, whose slot has been freed, goes to sleep in the middle of a call. -/
  | lapse (k : Fin NCPU) (p : Slot)
  | idle (k : Fin NCPU)

/-- Act `a` can happen in `v` and leads to `v'`. -/
inductive Fires : View → Act → View → Prop
  | wake {v : View} (f : Slot → ProcState)
      (h : ∀ p, f p = (v.proc p).state ∨
        ((v.proc p).state = .sleeping ∨ (v.proc p).state = .suspended) ∧ f p = .runnable) :
      Fires v .wake (v.restate f)
  | suspend {v : View} {p : Slot} : Fires v (.suspend p) (v.setState p .suspended)
  | claim {v : View} {p : Slot} {c : Cid} (h : (v.proc p).state = .unused)
      (hpend : v.pend = none) :
      Fires v (.claim p c)
        { v.withProc p { v.proc p with cont := some c } with pend := some p }
  | arm {v : View} {p : Slot} (hpend : v.pend = some p) (h : (v.proc p).state = .unused) :
      Fires v (.arm p) (v.withProc p { v.proc p with tf := true })
  | abandon {v : View} {p : Slot} (hpend : v.pend = some p) (h : (v.proc p).state = .unused) :
      Fires v (.abandon p) { v.withProc p { v.proc p with tf := false } with pend := none }
  | birth {v : View} {p : Slot} {c : Cid} (hpend : v.pend = some p)
      (h : (v.proc p).state = .unused) (hc : (v.proc p).cont = some c)
      (hfull : ¬ (v.cont c).Full) :
      Fires v (.birth p c)
        { (v.setState p .runnable).withCont c ((v.cont c).count 1) with pend := none }
  | stray {v : View} {p : Slot} {c : Cid} (hpend : v.pend = some p)
      (h : (v.proc p).state = .unused) (hc : (v.proc p).cont = some c) (hfull : (v.cont c).Full) :
      Fires v (.stray p c) { v.setState p .runnable with pend := none }
  | reap {v : View} {p : Slot} (h : (v.proc p).state = .zombie) : Fires v (.reap p) (v.release p)
  | forfeit {v : View} {p : Slot} (hpend : v.pend = some p) (h : (v.proc p).state = .unused) :
      Fires v (.forfeit p) { v.release p with pend := none }
  | teardown {v : View} {c : Cid} (hroot : (v.cont c).isroot = 0)
      (h : (v.cont c).state ≠ .cunused) : Fires v (.teardown c) (v.teardown c)
  | create {v : View} {c : Cid} {name : CStr} (h : (v.cont c).state = .cunused)
      (ip : Option Ino) :
      Fires v (.create c name) (v.withCont c ((v.cont c).created name ip))
  | recycle {v : View} {c : Cid} (h : (v.cont c).state = .cunused) :
      Fires v (.recycle c) (v.withCont c (v.cont c).recycled)
  | start {v : View} {c : Cid} (h : (v.cont c).state = .cinited) :
      Fires v (.start c) (v.withCont c { v.cont c with state := .crunnable })
  | pause {v : View} {c : Cid} (hroot : (v.cont c).isroot = 0)
      (h : (v.cont c).state = .crunnable ∨ (v.cont c).state = .cpaused) :
      Fires v (.pause c) (v.pause c)
  | resume {v : View} {c : Cid} (hroot : (v.cont c).isroot = 0) (h : (v.cont c).state = .cpaused) :
      Fires v (.resume c) (v.resume c)
  | stop {v : View} {c : Cid} (hroot : (v.cont c).isroot = 0)
      (h : (v.cont c).state = .crunnable ∨ (v.cont c).state = .cpaused) :
      Fires v (.stop c) (v.stop c)
  | limit {v : View} {c : Cid} (hroot : (v.cont c).isroot = 0) (n : Int) (hn : 2 ≤ n)
      (h : n ≤ (v.cont c).maxProc) :
      Fires v (.limit c) (v.withCont c { v.cont c with maxProc := n })
  | next {v : View} {c : Cid} {p : Slot} (h : (v.proc p).cont = some c) :
      Fires v (.next c p) (v.withCont c { v.cont c with next := some p })
  | dispatch {v : View} {k : Fin NCPU} {p : Slot} {c : Cid} (start : BitVec 32)
      (hmode : v.mode k = .idle) (hc : (v.cont c).state = .crunnable)
      (hnext : (v.cont c).next = some p) (h : (v.proc p).state = .runnable) :
      Fires v (.dispatch k p c) ((v.setState p .running).withMode k (.run p c start))
  | leave {v : View} {k : Fin NCPU} {p : Slot} {c : Cid} {start : BitVec 32} {x : ProcState}
      (hmode : v.mode k = .run p c start) (h : (v.proc p).state ≠ .unused) (hx : x.Resting) :
      Fires v (.leave k p x) ((v.setState p x).withMode k (.next c))
  | lapse {v : View} {k : Fin NCPU} {p : Slot} {c : Cid} {start : BitVec 32}
      (hpend : v.pend = none) (hmode : v.mode k = .run p c start) (h : (v.proc p).state = .unused) :
      Fires v (.lapse k p) ((v.setState p .sleeping).withMode k (.next c))
  | idle {v : View} {k : Fin NCPU} (h : ∀ p c start, v.mode k ≠ .run p c start) :
      Fires v (.idle k) (v.withMode k .idle)

theorem Fires.wake_unused {v : View} {f : Slot → ProcState}
    (h : ∀ p, f p = (v.proc p).state ∨
      ((v.proc p).state = .sleeping ∨ (v.proc p).state = .suspended) ∧ f p = .runnable) (p : Slot) :
    f p = .unused ↔ (v.proc p).state = .unused := by
  rcases h p with he | ⟨hs | hs, he⟩
  · rw [he]
  all_goals simp [he, hs]

@[grind →] theorem ProcState.Resting.ne_unused {x : ProcState} (h : x.Resting) : x ≠ .unused := by
  rcases h with rfl | rfl | rfl <;> simp

/-- A list of acts leads from `v` to `v'`, each permitted by `P` in the view it
happens in. -/
inductive Acts (P : View → Act → Prop) : View → View → Prop
  | refl (v : View) : Acts P v v
  | tail {v v' v'' : View} {a : Act} : Acts P v v' → P v' a → Fires v' a v'' → Acts P v v''

variable {P Q : View → Act → Prop} {v v' v'' : View}

theorem Acts.single {a : Act} (h : Fires v a v') (ha : P v a) : Acts P v v' := .tail (.refl v) ha h

theorem Acts.trans (h : Acts P v v') (h' : Acts P v' v'') : Acts P v v'' := by
  induction h' with
  | refl => exact h
  | tail _ ha hf ih => exact .tail ih ha hf

theorem Acts.mono (hPQ : ∀ v a, P v a → Q v a) (h : Acts P v v') : Acts Q v v' := by
  induction h with
  | refl => exact .refl _
  | tail _ ha hf ih => exact .tail ih (hPQ _ _ ha) hf

/-- **The act rule.** What every permitted act keeps, every list of them keeps. -/
theorem Acts.invariant {I : View → Prop} (hI : ∀ v a v', I v → P v a → Fires v a v' → I v')
    (h : Acts P v v') (h0 : I v) : I v' := by
  induction h with
  | refl => exact h0
  | tail _ ha hf ih => exact hI _ _ _ ih ha hf

end Xv6.Kernel
