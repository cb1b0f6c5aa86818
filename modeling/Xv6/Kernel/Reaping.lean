/-
# Xv6.Kernel.Reaping — `fork`, `exit` and `wait` section by section: exit statuses are delivered once.

Here the calls are not atomic.  A process is at a place of its code (`Pc`), and an event takes it from
one process-lock section to the next.  A lock is held by the process whose place lies between its
`acquire` and its `release` (`Pc.locks`); an event that acquires a lock needs it to be free.  The two
reads of `np->parent` without a lock, in `wait` and in `reparent`, are events of their own.  Whatever the
scheduler, `sleep`, `wakeup` and `kill` do may come in between.

`fork` is followed for a child of the caller and for a child of init (`cfork`).  Memory, files and
containers do not show here: that a page is missing or a `copyout` fails is part of the event.

`History` numbers the processes, since slots and pids are used again, and records who called `exit`,
what `wait` reaped, and why it returned `-1`.
-/
import Xv6.Kernel.Tables
import Xv6.Lib.Trace
import Mathlib.Data.List.FinRange

namespace Xv6.Kernel.Reaping

open Function

/-! ## State -/

/-- `struct proc`: what the calls below read and write of it. -/
structure Task where
  state : ProcState
  parent : Option Slot
  chan : Option Chan
  killed : Bool
  xstate : Int
  pid : Int

def Task.freed : Task := ⟨.unused, none, none, false, 0, 0⟩

def Task.wakeup1 (p : Slot) (t : Task) : Task :=
  if t.chan = some (.proc p) ∧ t.state = .sleeping then { t with state := .runnable } else t

/-- `kill` at the slot it has found. -/
def Task.kill (t : Task) : Task :=
  { t with
    killed := true
    state := if t.state = .sleeping ∨ t.state = .suspended then .runnable else t.state }

inductive Pc
  /-- In none of the three calls. -/
  | out
  /-- `allocproc` has found a slot and holds its lock; the child will get the parent. -/
  | claimed (np parent : Slot)
  /-- `fork` has the slot from `allocproc`. -/
  | forking (np parent : Slot)
  /-- `fork` has set `np->parent`. -/
  | linked (np : Slot)
  /-- `exit`, about to wake init. -/
  | wakeInit (status : Int)
  /-- `exit`, about to copy `p->parent`. -/
  | readParent (status : Int)
  /-- `exit`, about to lock the parent it read. -/
  | lockParent (status : Int) (original : Slot)
  /-- `exit`, about to lock itself. -/
  | lockSelf (status : Int) (original : Slot)
  /-- `reparent`, with the slots that it has not looked at. -/
  | reparent (status : Int) (original : Slot) (todo : List Slot)
  /-- `reparent` has found a child and is about to lock it. -/
  | give (status : Int) (original pp : Slot) (todo : List Slot)
  /-- `exit` is over; the scheduler has not released the lock yet. -/
  | sched
  /-- `wait(addr)`, about to lock itself; `addr` says whether a status is asked for. -/
  | enter (addr : Bool)
  /-- `wait` in its scan, with `havekids`; `kids` says whether there were any when the scan began. -/
  | scan (addr : Bool) (todo : List Slot) (havekids kids : Bool)
  /-- `wait` has found a child and is about to lock it. -/
  | child (addr : Bool) (np : Slot) (todo : List Slot) (kids : Bool)
  /-- `wait` sleeps. -/
  | asleep (addr : Bool)
  deriving DecidableEq

/-- The process locks held at a place by process `p`. -/
def Pc.locks (p : Slot) : Pc → List Slot
  | .claimed np _ | .forking np _ | .linked np => [np]
  | .lockSelf _ original => [original]
  | .reparent _ original _ | .give _ original _ _ => [original, p]
  | .sched | .scan _ _ _ _ | .child _ _ _ _ => [p]
  | .out | .wakeInit _ | .readParent _ | .lockParent _ _ | .enter _ | .asleep _ => []

def Pc.exits : Pc → Option Int
  | .wakeInit status | .readParent status | .lockParent status _ | .lockSelf status _
  | .reparent status _ _ | .give status _ _ _ => some status
  | _ => none

/-- A successful `wait`: the process reaped, the value returned and the status stored at the address,
the caller, and the parent of the child at that moment. -/
structure Reap where
  child : Nat
  pid : Int
  status : Option Int
  addr : Bool
  caller : Slot
  callerId : Nat
  parent : Option Slot

/-- A `wait` that returned `-1`: whether there were children when its last scan began, whether it was
killed, and whether `copyout` failed. -/
structure Fail where
  kids : Bool
  killed : Bool
  copyout : Bool

structure History where
  /-- The process that has, or last had, the slot. -/
  id : Slot → Nat
  /-- The number of the next process. -/
  born : Nat
  /-- The parent given to process `i` by `fork`. -/
  origin : Nat → Nat
  /-- Pid and status with which process `i` called `exit`. -/
  called : Nat → Option (Int × Int)
  reaps : List Reap
  fails : List Fail

structure State where
  task : Slot → Task
  pc : Slot → Pc
  nextpid : Int
  past : History

abbrev initproc : Slot := 0

def slots : List Slot := List.finRange NPROC

namespace State

@[simps -fullyApplied]
def setTask (s : State) (p : Slot) (t : Task) : State := { s with task := update s.task p t }

@[simps -fullyApplied]
def move (s : State) (p : Slot) (pc : Pc) : State := { s with pc := update s.pc p pc }

def Free (s : State) (x : Slot) : Prop := ∀ p, x ∉ (s.pc p).locks p
deriving Decidable

def hasKids (s : State) (p : Slot) : Bool :=
  slots.any fun q => (s.task q).parent == some p && (s.task q).state != .unused

def startScan (s : State) (p : Slot) (addr : Bool) : Pc := .scan addr slots false (s.hasKids p)

def fail (s : State) (f : Fail) : State :=
  { s with past := { s.past with fails := s.past.fails ++ [f] } }

end State

/-! ## Events -/

inductive Event
  /-- The scheduler switches to `p`. -/
  | run (p : Slot)
  | yield (p : Slot)
  /-- `sleep` in some other call. -/
  | sleep (p : Slot) (chan : Chan)
  /-- `wakeup(chan)` comes to slot `q`. -/
  | wakeup (chan : Chan) (q : Slot)
  /-- `kill` has found slot `q`. -/
  | kill (q : Slot)
  /-- `fork` begins and `allocproc` finds slot `np`; `own` is false for `cfork`. -/
  | fork (p np : Slot) (own : Bool)
  | exit (p : Slot) (status : Int)
  | wait (p : Slot) (addr : Bool)
  /-- The call that `p` is in goes on; `fails` says that memory or the `copyout` fails it. -/
  | go (p : Slot) (fails : Bool)
  deriving DecidableEq

def birth (np : Slot) (s : State) : State :=
  { s.setTask np { s.task np with state := .runnable } with
    past := { s.past with
      id := update s.past.id np s.past.born
      born := s.past.born + 1
      origin := update s.past.origin s.past.born
        (match (s.task np).parent with
          | some p => s.past.id p
          | none => 0) } }

/-- `wait` frees the zombie `np` and returns its pid. -/
def reap (p np : Slot) (addr : Bool) (s : State) : State :=
  { s.setTask np .freed with
    past := { s.past with
      reaps := s.past.reaps ++
        [{ child := s.past.id np, pid := (s.task np).pid
           status := if addr then some (s.task np).xstate else none, addr := addr
           caller := p, callerId := s.past.id p, parent := (s.task np).parent }] } }

def die (p : Slot) (status : Int) (original : Slot) (s : State) : State :=
  let s := s.setTask original ((s.task original).wakeup1 original)
  s.setTask p { s.task p with xstate := status, state := .zombie }

/-- One section of the call process `p` is in. -/
def go (p : Slot) (fails : Bool) (s : State) : Option State :=
  match s.pc p with
  | .out | .sched | .asleep _ => none
  | .claimed np parent =>
    -- without a page for the trapframe, the slot stays `UNUSED` with its new pid
    if fails then some (s.move p .out) else some (s.move p (.forking np parent))
  | .forking np parent =>
    -- `uvmcopy`
    if fails then some ((s.setTask np .freed).move p .out)
    else some ((s.setTask np { s.task np with parent := some parent }).move p (.linked np))
  | .linked np => some ((birth np s).move p .out)
  | .wakeInit status =>
    if s.Free initproc then
      some ((s.setTask initproc ((s.task initproc).wakeup1 initproc)).move p (.readParent status))
    else none
  | .readParent status =>
    if s.Free p then (s.task p).parent.map fun original => s.move p (.lockParent status original)
    else none
  | .lockParent status original =>
    if s.Free original then some (s.move p (.lockSelf status original)) else none
  | .lockSelf status original =>
    if s.Free p then some (s.move p (.reparent status original slots)) else none
  | .reparent status original (pp :: todo) =>
    if (s.task pp).parent = some p then some (s.move p (.give status original pp todo))
    else some (s.move p (.reparent status original todo))
  | .give status original pp todo =>
    if s.Free pp then
      some ((s.setTask pp { s.task pp with parent := some initproc }).move p
        (.reparent status original todo))
    else none
  | .reparent status original [] => some ((die p status original s).move p .sched)
  | .enter addr => if s.Free p then some (s.move p (s.startScan p addr)) else none
  | .scan addr (np :: todo) havekids kids =>
    if (s.task np).parent = some p then some (s.move p (.child addr np todo kids))
    else some (s.move p (.scan addr todo havekids kids))
  | .child addr np todo kids =>
    if ¬ s.Free np then none
    else if (s.task np).state ≠ .zombie then some (s.move p (.scan addr todo true kids))
    else if addr && fails then some ((s.fail ⟨kids, (s.task p).killed, true⟩).move p .out)
    else some ((reap p np addr s).move p .out)
  | .scan addr [] havekids kids =>
    if !havekids || (s.task p).killed then
      some ((s.fail ⟨kids, (s.task p).killed, false⟩).move p .out)
    else
      some ((s.setTask p { s.task p with chan := some (.proc p), state := .sleeping }).move p
        (.asleep addr))

/-- Where a process goes on when it is run: in `wait`, with its lock held. -/
def resumed (s : State) (p : Slot) : Pc :=
  match s.pc p with
  | .asleep addr => s.startScan p addr
  | pc => pc

def step (s : State) : Event → Option State
  | .run p =>
    if (s.task p).state = .runnable ∧ s.Free p then
      some ((s.setTask p { s.task p with state := .running, chan := none }).move p (resumed s p))
    else none
  | .yield p =>
    if (s.task p).state = .running ∧ (s.pc p).locks p = [] ∧ s.Free p then
      some (s.setTask p { s.task p with state := .runnable })
    else none
  | .sleep p chan =>
    if (s.task p).state = .running ∧ s.pc p = .out ∧ s.Free p then
      some (s.setTask p { s.task p with chan := some chan, state := .sleeping })
    else none
  | .wakeup chan q =>
    if s.Free q then
      some (s.setTask q (if (s.task q).state = .sleeping ∧ (s.task q).chan = some chan then
        { s.task q with state := .runnable } else s.task q))
    else none
  | .kill q => if s.Free q then some (s.setTask q (s.task q).kill) else none
  | .fork p np own =>
    if (s.task p).state = .running ∧ s.pc p = .out ∧ (s.task np).state = .unused ∧ s.Free np then
      some { (s.setTask np { s.task np with pid := s.nextpid }).move p
          (.claimed np (if own then p else initproc)) with nextpid := s.nextpid + 1 }
    else none
  | .exit p status =>
    -- `exit` by init panics
    if (s.task p).state = .running ∧ s.pc p = .out ∧ p ≠ initproc then
      some { s.move p (.wakeInit status) with
        past := { s.past with
          called := update s.past.called (s.past.id p) (some ((s.task p).pid, status)) } }
    else none
  | .wait p addr =>
    if (s.task p).state = .running ∧ s.pc p = .out then some (s.move p (.enter addr)) else none
  | .go p fails =>
    if s.pc p = .sched then some (s.move p .out)
    else if (s.task p).state = .running then go p fails s
    else none

/-- The process table when `main` enters the scheduler. -/
def start : State where
  task := update (fun _ => .freed) initproc ⟨.runnable, none, none, false, 0, 1⟩
  pc := fun _ => .out
  nextpid := 2
  past := ⟨fun _ => 0, 1, fun _ => 0, fun _ => none, [], []⟩

/-! ## What one step does -/

def Task.Live (t : Task) : Prop := t.state ≠ .unused ∧ t.state ≠ .zombie

/-- The same parent, and as free, as live or as dead. -/
structure Task.Kin (t u : Task) : Prop where
  parent : u.parent = t.parent
  unused : u.state = .unused ↔ t.state = .unused
  zombie : u.state = .zombie ↔ t.state = .zombie

/-- Only the channel, the kill flag and the state differ, the state only among those of
a live process. -/
structure Task.Alike (t u : Task) : Prop extends t.Kin u where
  pid : u.pid = t.pid
  xstate : u.xstate = t.xstate

theorem Task.Kin.refl (t : Task) : t.Kin t := ⟨rfl, Iff.rfl, Iff.rfl⟩

theorem Task.Alike.refl (t : Task) : t.Alike t := ⟨.refl t, rfl, rfl⟩

theorem Task.Kin.live {t u : Task} (h : t.Kin u) : u.Live ↔ t.Live := by
  unfold Task.Live
  rw [ne_eq, ne_eq, h.unused, h.zombie]

theorem Task.alike_of_live {t u : Task} (ht : t.Live) (hu : u.Live := by simp [Task.Live])
    (hp : u.parent = t.parent := by rfl) (hpid : u.pid = t.pid := by rfl)
    (hx : u.xstate = t.xstate := by rfl) : t.Alike u :=
  ⟨⟨hp, iff_of_false hu.1 ht.1, iff_of_false hu.2 ht.2⟩, hpid, hx⟩

theorem Task.alike_wakeup1 (p : Slot) (t : Task) : t.Alike (t.wakeup1 p) := by
  unfold Task.wakeup1
  split
  · rename_i h
    exact alike_of_live (by simp [Live, h.2])
  · exact .refl t

theorem Task.alike_kill (t : Task) : t.Alike t.kill := by
  unfold Task.kill
  split
  · rename_i h
    refine alike_of_live ?_
    rcases h with h | h <;> simp [Live, h]
  · exact ⟨⟨rfl, Iff.rfl, Iff.rfl⟩, rfl, rfl⟩

/-- Process `p` goes from `pc` to `pc'` without a change that others could
see; `fs` is the failure that `wait` reports. -/
inductive Calm (s : State) (p : Slot) : Pc → Pc → List Fail → Prop
  | stay {pc : Pc} : Calm s p pc pc []
  | call {addr : Bool} (h : (s.task p).Live) : Calm s p .out (.enter addr) []
  | alloc {np parent : Slot} : Calm s p (.claimed np parent) (.forking np parent) []
  | noPage {np parent : Slot} : Calm s p (.claimed np parent) .out []
  | wakeInit {status : Int} : Calm s p (.wakeInit status) (.readParent status) []
  | readParent {status : Int} {original : Slot} : Calm s p (.readParent status) (.lockParent status original) []
  | lockParent {status : Int} {original : Slot} (h : s.Free original) :
      Calm s p (.lockParent status original) (.lockSelf status original) []
  | lockSelf {status : Int} {original : Slot} (h : s.Free p) :
      Calm s p (.lockSelf status original) (.reparent status original slots) []
  | passOver {status : Int} {original pp : Slot} {todo : List Slot}
      (h : (s.task pp).parent ≠ some p) :
      Calm s p (.reparent status original (pp :: todo)) (.reparent status original todo) []
  | find {status : Int} {original pp : Slot} {todo : List Slot}
      (h : (s.task pp).parent = some p) :
      Calm s p (.reparent status original (pp :: todo)) (.give status original pp todo) []
  | gone : Calm s p .sched .out []
  | enter {addr : Bool} (h : s.Free p) : Calm s p (.enter addr) (s.startScan p addr) []
  | awake {addr : Bool} (h : s.Free p) : Calm s p (.asleep addr) (s.startScan p addr) []
  | skip {addr havekids kids : Bool} {np : Slot} {todo : List Slot}
      (h : (s.task np).parent ≠ some p) :
      Calm s p (.scan addr (np :: todo) havekids kids) (.scan addr todo havekids kids) []
  | spot {addr havekids kids : Bool} {np : Slot} {todo : List Slot}
      (h : (s.task np).parent = some p) :
      Calm s p (.scan addr (np :: todo) havekids kids) (.child addr np todo kids) []
  | running {addr kids : Bool} {np : Slot} {todo : List Slot} :
      Calm s p (.child addr np todo kids) (.scan addr todo true kids) []
  | copyout {addr kids : Bool} {np : Slot} {todo : List Slot} :
      Calm s p (.child addr np todo kids) .out [⟨kids, (s.task p).killed, true⟩]
  | giveUp {addr havekids kids : Bool} (h : havekids = false ∨ (s.task p).killed = true) :
      Calm s p (.scan addr [] havekids kids) .out [⟨kids, (s.task p).killed, false⟩]
  | sleep {addr havekids kids : Bool} : Calm s p (.scan addr [] havekids kids) (.asleep addr) []

inductive Moves (s s' : State) : Prop
  | calm {p : Slot} {pc : Pc} {fs : List Fail} (h : Calm s p (s.pc p) pc fs)
      (htask : ∀ q, (s.task q).Alike (s'.task q)) (hpc : s'.pc = update s.pc p pc)
      (hpast : s'.past = { s.past with fails := s.past.fails ++ fs })
  | exit {p : Slot} {status : Int} (hlive : (s.task p).Live) (hat : s.pc p = .out)
      (hinit : p ≠ initproc) (htask : s'.task = s.task)
      (hpc : s'.pc = update s.pc p (.wakeInit status))
      (hpast : s'.past = { s.past with
        called := update s.past.called (s.past.id p) (some ((s.task p).pid, status)) })
  | claim {p np parent : Slot} {t : Task} (hlive : (s.task p).Live) (hat : s.pc p = .out)
      (hunused : (s.task np).state = .unused) (hfree : s.Free np)
      (hparent : parent = p ∨ parent = initproc) (ht : t.state = .unused)
      (htp : t.parent = (s.task np).parent) (htask : s'.task = update s.task np t)
      (hpc : s'.pc = update s.pc p (.claimed np parent)) (hpast : s'.past = s.past)
  | unclaim {p np parent : Slot} (hat : s.pc p = .forking np parent)
      (htask : s'.task = update s.task np .freed) (hpc : s'.pc = update s.pc p .out)
      (hpast : s'.past = s.past)
  | link {p np parent : Slot} (hat : s.pc p = .forking np parent)
      (htask : s'.task = update s.task np { s.task np with parent := some parent })
      (hpc : s'.pc = update s.pc p (.linked np)) (hpast : s'.past = s.past)
  | born {p np : Slot} (hat : s.pc p = .linked np) (hs : s' = (birth np s).move p .out)
  | gave {p original pp : Slot} {status : Int} {todo : List Slot}
      (hat : s.pc p = .give status original pp todo)
      (htask : s'.task = update s.task pp { s.task pp with parent := some initproc })
      (hpc : s'.pc = update s.pc p (.reparent status original todo)) (hpast : s'.past = s.past)
  | died {p original : Slot} {status : Int} (hat : s.pc p = .reparent status original [])
      (hother : ∀ q, q ≠ p → (s.task q).Alike (s'.task q))
      (hself : (s'.task p).state = .zombie ∧ (s'.task p).xstate = status ∧
        (s'.task p).parent = (s.task p).parent ∧ (s'.task p).pid = (s.task p).pid)
      (hpc : s'.pc = update s.pc p .sched) (hpast : s'.past = s.past)
  | reaped {p np : Slot} {addr kids : Bool} {todo : List Slot}
      (hat : s.pc p = .child addr np todo kids) (hfree : s.Free np)
      (hz : (s.task np).state = .zombie) (hs : s' = (reap p np addr s).move p .out)

variable {s s' : State} {p q : Slot} {t : Task}

theorem Moves.ofCalm {pc : Pc} (h : Calm s p (s.pc p) pc []) : Moves s (s.move p pc) :=
  .calm h (fun _ => .refl _) rfl (by simp)

section

variable (ht : (s.task q).Alike t)
include ht

theorem alike_setTask (r : Slot) : (s.task r).Alike ((s.setTask q t).task r) := by
  by_cases hr : r = q
  · subst hr
    simpa using ht
  · simpa [hr] using Task.Alike.refl _

theorem Moves.ofCalmTask {pc : Pc}
    (h : Calm s p (s.pc p) pc []) : Moves s ((s.setTask q t).move p pc) :=
  .calm h (alike_setTask ht) rfl (by simp)

theorem Moves.ofTask : Moves s (s.setTask q t) := .calm (p := q) .stay (alike_setTask ht) (by simp) (by simp)

end

theorem die_task (p : Slot) (status : Int) (original : Slot) (s : State) :
    (∀ q, q ≠ p → (s.task q).Alike ((die p status original s).task q)) ∧
      ((die p status original s).task p).state = .zombie ∧
      ((die p status original s).task p).xstate = status ∧
      ((die p status original s).task p).parent = (s.task p).parent ∧
      ((die p status original s).task p).pid = (s.task p).pid := by
  have hwake := alike_setTask (s := s) (Task.alike_wakeup1 original (s.task original))
  refine ⟨fun q hq => ?_, ?_, ?_, ?_, ?_⟩
  · simpa [die, hq] using hwake q
  · simp [die]
  · simp [die]
  · simpa [die] using (hwake p).parent
  · simpa [die] using (hwake p).pid

theorem go_moves {fails : Bool} (hlive : (s.task p).Live) (h : go p fails s = some s') : Moves s s' := by
  unfold go at h
  split at h
  · cases h
  · cases h
  · cases h
  · rename_i np parent hpc
    split at h
    · cases h
      exact .ofCalm (hpc ▸ .noPage)
    · cases h
      exact .ofCalm (hpc ▸ .alloc)
  · rename_i np parent hpc
    split at h
    · cases h
      exact .unclaim hpc rfl rfl rfl
    · cases h
      exact .link hpc rfl rfl rfl
  · rename_i np hpc
    cases h
    exact .born hpc rfl
  · rename_i status hpc
    obtain ⟨-, rfl⟩ := Lib.of_guarded h
    exact .ofCalmTask (Task.alike_wakeup1 _ _) (hpc ▸ .wakeInit)
  · rename_i status hpc
    split at h
    · obtain ⟨original, -, rfl⟩ := Option.map_eq_some_iff.mp h
      exact .ofCalm (hpc ▸ .readParent)
    · cases h
  · rename_i status original hpc
    obtain ⟨hfree, rfl⟩ := Lib.of_guarded h
    exact .ofCalm (hpc ▸ .lockParent hfree)
  · rename_i status original hpc
    obtain ⟨hfree, rfl⟩ := Lib.of_guarded h
    exact .ofCalm (hpc ▸ .lockSelf hfree)
  · rename_i status original pp todo hpc
    split at h
    · rename_i hchild
      cases h
      exact .ofCalm (hpc ▸ .find hchild)
    · rename_i hchild
      cases h
      exact .ofCalm (hpc ▸ .passOver hchild)
  · rename_i status original pp todo hpc
    obtain ⟨-, rfl⟩ := Lib.of_guarded h
    exact .gave hpc rfl rfl rfl
  · rename_i status original hpc
    cases h
    obtain ⟨hother, hself⟩ := die_task p status original s
    exact .died hpc hother hself rfl rfl
  · rename_i addr hpc
    obtain ⟨hfree, rfl⟩ := Lib.of_guarded h
    exact .ofCalm (hpc ▸ .enter hfree)
  · rename_i addr np todo havekids kids hpc
    split at h
    · rename_i hchild
      cases h
      exact .ofCalm (hpc ▸ .spot hchild)
    · rename_i hchild
      cases h
      exact .ofCalm (hpc ▸ .skip hchild)
  · rename_i addr np todo kids hpc
    split at h
    · cases h
    rename_i hfree
    split at h
    · cases h
      exact .ofCalm (hpc ▸ .running)
    rename_i hz
    split at h
    · cases h
      exact .calm (p := p) (hpc ▸ .copyout) (fun _ => .refl _) rfl rfl
    · cases h
      exact .reaped hpc (not_not.mp hfree) (not_not.mp hz) rfl
  · rename_i addr havekids kids hpc
    split at h
    · rename_i hno
      cases h
      have hno' : havekids = false ∨ (s.task p).killed = true := by simpa using hno
      exact .calm (p := p) (hpc ▸ .giveUp hno') (fun _ => .refl _) rfl rfl
    · cases h
      exact .ofCalmTask (Task.alike_of_live hlive) (hpc ▸ .sleep)

theorem Task.live_of_state {x : ProcState} (h : t.state = x) (hu : x ≠ .unused)
    (hz : x ≠ .zombie) : t.Live := by
  rw [Task.Live, h]
  exact ⟨hu, hz⟩

theorem calm_resumed (hfree : s.Free p) : Calm s p (s.pc p) (resumed s p) [] := by
  unfold resumed
  split
  · rename_i addr hpc
    rw [hpc]
    exact .awake hfree
  · exact .stay

theorem step_moves {e : Event} (h : step s e = some s') : Moves s s' := by
  have hrunning : ∀ {p}, (s.task p).state = .running → (s.task p).Live := fun h =>
    Task.live_of_state h (by decide) (by decide)
  cases e with
  | run p =>
    obtain ⟨hrun, rfl⟩ := Lib.of_guarded h
    refine .ofCalmTask (Task.alike_of_live ?_) (calm_resumed hrun.2)
    exact Task.live_of_state hrun.1 (by decide) (by decide)
  | yield p | sleep p chan =>
    obtain ⟨hrun, rfl⟩ := Lib.of_guarded h
    exact .ofTask (Task.alike_of_live (hrunning hrun.1))
  | wakeup chan q =>
    obtain ⟨-, rfl⟩ := Lib.of_guarded h
    refine .ofTask ?_
    split
    · rename_i hsleep
      refine Task.alike_of_live ?_
      exact Task.live_of_state hsleep.1 (by decide) (by decide)
    · exact .refl _
  | kill q =>
    obtain ⟨-, rfl⟩ := Lib.of_guarded h
    exact .ofTask (Task.alike_kill _)
  | fork p np own =>
    obtain ⟨hrun, rfl⟩ := Lib.of_guarded h
    refine .claim (t := { s.task np with pid := s.nextpid }) (hrunning hrun.1) hrun.2.1
      hrun.2.2.1 hrun.2.2.2 ?_ hrun.2.2.1 rfl rfl rfl rfl
    cases own with
    | true => exact .inl rfl
    | false => exact .inr rfl
  | exit p status =>
    obtain ⟨hrun, rfl⟩ := Lib.of_guarded h
    exact .exit (hrunning hrun.1) hrun.2.1 hrun.2.2 rfl rfl rfl
  | wait p addr =>
    obtain ⟨hrun, rfl⟩ := Lib.of_guarded h
    exact .ofCalm (hrun.2 ▸ .call (hrunning hrun.1))
  | go p fails =>
    dsimp only [step] at h
    split at h
    · rename_i hpc
      cases h
      exact .ofCalm (hpc ▸ .gone)
    · split at h
      · rename_i hrun
        exact go_moves (hrunning hrun) h
      · cases h

end Xv6.Kernel.Reaping
