/-
# Xv6.Lib.Monitor — processes that sleep under a lock and are woken under it.

Processes share data that is protected by locks, and sleep on channels until the data changes.  To go to
sleep a process hands over from the lock to a lock of its own: it takes its own lock, releases the shared
one, and only then counts as asleep; its own lock is released with the switch away from it.  To wake a
channel, a process goes through the table of all processes and takes their own locks one by one.  Every
one of these is a step, and other processes may take steps in between.

The code of the processes is a parameter (`Code`): what is done at each place while a lock is held, and
which calls are begun outside.  Two rules come out:

* NO LOST WAKE-UP (`want_of_asleep`).  `Want c d` is what a process that sleeps on `c` waits to see changed,
  and `Owes l c` says that the code at place `l` still has to wake `c`.  When the code sleeps on wanted channels
  only, and takes on a debt with every change that somebody may wait for, who sleeps has a reason to.
* EXCLUSION (`sole_run`).  A token that is taken only while it is free belongs to one process at a time.
-/
import Xv6.Lib.Trace
import Mathlib.Logic.Function.Basic

namespace Xv6.Lib.Monitor

open Function Option

universe u

/-- What is done at a place in the code where a lock is held. -/
inductive Act (C σ X L : Type u)
  /-- Change the data. -/
  | goto (d : σ) (l : L)
  /-- `wakeup(c)`. -/
  | wake (c : C) (l : L)
  /-- `sleep(c, lock)`. -/
  | sleep (c : C) (l : L)
  /-- Release the lock. -/
  | leave (x : X)

/-- The place inside the section where the code goes on. -/
def Act.next {C σ X L : Type u} : Act C σ X L → Option L
  | goto _ l | wake _ l | sleep _ l => some l
  | leave _ => none

/-- The code of the processes `P`, over locks `O`, channels `C`, data `σ`, places outside (`X`) and
inside (`L`) sections, and inputs `ι`. -/
structure Code (P O C σ X L ι : Type u) where
  /-- The lock that is held at a place. -/
  obj : L → O
  /-- A section is begun, at its first place. -/
  call : P → σ → X → ι → Option L
  /-- What a process does that holds the lock; the flag says whether it is killed. -/
  act : P → Bool → σ → L → ι → Option (Act C σ X L)
  /-- A step outside. -/
  free : P → σ → X → ι → Option (σ × X)
  /-- A section has one lock. -/
  obj_next : ∀ p k d l i a l', act p k d l i = some a → a.next = some l' → obj l' = obj l

inductive Pc (P C X L : Type u)
  | out (x : X)
  /-- Waiting for the lock. -/
  | want (l : L)
  | inside (l : L)
  /-- In `wakeup(c)`, with these processes still to be looked at. -/
  | scan (c : C) (todo : List P) (l : L)
  /-- In `sleep`, waiting for its own lock. -/
  | hand (c : C) (l : L)
  /-- In `sleep`, with both locks. -/
  | both (c : C) (l : L)
  /-- In `sleep`, with its own lock only. -/
  | park (c : C) (l : L)
  /-- `SLEEPING` on `c`. -/
  | asleep (c : C) (l : L)
  | woken (l : L)
  deriving DecidableEq

namespace Pc

variable {P C X L : Type u} {pc : Pc P C X L} {c : C} {l : L}

/-- The place of the section whose lock is held. -/
def holds : Pc P C X L → Option L
  | inside l | scan _ _ l | hand _ l | both _ l => some l
  | _ => none

def plocked : Pc P C X L → Bool
  | both _ _ | park _ _ => true
  | _ => false

/-- The channel that the process sleeps on or is about to sleep on. -/
def bound : Pc P C X L → Option C
  | hand c _ | both c _ | park c _ | asleep c _ => some c
  | _ => none

def sleepsOn : Pc P C X L → Option C
  | asleep c _ => some c
  | _ => none

/-- The place where the process runs with the lock. -/
def running : Pc P C X L → Option L
  | inside l | scan _ _ l => some l
  | _ => none

/-- The place where the process goes on once it has the lock. -/
def pending : Pc P C X L → Option L
  | want l | hand _ l | both _ l | park _ l | asleep _ l | woken l => some l
  | _ => none

def rouse : Pc P C X L → Pc P C X L
  | asleep _ l => woken l
  | pc => pc

theorem bound_of_sleepsOn (h : pc.sleepsOn = some c) : pc.bound = some c := by
  cases pc with
  | asleep c' l => exact h
  | _ => cases h

theorem rouse_holds (pc : Pc P C X L) : pc.rouse.holds = pc.holds := by cases pc <;> rfl

theorem rouse_running (pc : Pc P C X L) : pc.rouse.running = pc.running := by cases pc <;> rfl

theorem rouse_pending (pc : Pc P C X L) : pc.rouse.pending = pc.pending := by cases pc <;> rfl

theorem holds_of_running (h : pc.running = some l) : pc.holds = some l := by
  cases pc with
  | inside m | scan c todo m => exact h
  | _ => cases h

theorem bound_rouse (h : pc.rouse.bound = some c) : pc.bound = some c := by
  cases pc with
  | asleep c' l => cases h
  | _ => exact h

theorem eq_of_rouse (h : pc.rouse = .hand c l) : pc = .hand c l := by
  cases pc with
  | asleep c' l' => cases h
  | _ => exact h

end Pc

structure State (P O C σ X L : Type u) where
  data : σ
  lock : O → Option P
  killed : P → Bool
  pc : P → Pc P C X L

inductive Event (P ι : Type u)
  | call (p : P) (i : ι)
  | free (p : P) (i : ι)
  | acquire (p : P)
  | act (p : P) (i : ι)
  /-- `wakeup` looks at the next process, or is through. -/
  | scan (p : P)
  /-- `sleep` takes the process's own lock. -/
  | plock (p : P)
  /-- `sleep` releases the shared lock. -/
  | unlock (p : P)
  /-- `SLEEPING`, and away. -/
  | park (p : P)
  /-- The scheduler goes on with a process that was woken. -/
  | run (p : P)
  | kill (p : P)

section Machine

variable {P O C σ X L ι : Type u} [DecidableEq P] [DecidableEq O] [DecidableEq C] {todo : List P} {a : Act C σ X L}

namespace State

@[simps -fullyApplied data lock killed]
def move (s : State P O C σ X L) (p : P) (pc : Pc P C X L) : State P O C σ X L :=
  { s with pc := update s.pc p pc }

@[simps -fullyApplied]
def setData (s : State P O C σ X L) (d : σ) : State P O C σ X L := { s with data := d }

@[simps -fullyApplied]
def setLock (s : State P O C σ X L) (o : O) (p : Option P) : State P O C σ X L :=
  { s with lock := update s.lock o p }

section Projections

variable (s : State P O C σ X L) (p q : P) (pc : Pc P C X L)

omit [DecidableEq O] [DecidableEq C] in
@[simp] theorem move_pc_self : (s.move p pc).pc p = pc := update_self _ _ _

variable {p q}

omit [DecidableEq O] [DecidableEq C] in
theorem move_pc_of_ne (h : q ≠ p) : (s.move p pc).pc q = s.pc q := update_of_ne h _ _

end Projections

/-- What a process does that holds the lock of place `l`. -/
def perform (code : Code P O C σ X L ι) (procs : List P) (s : State P O C σ X L) (p : P) (l : L) :
    Act C σ X L → State P O C σ X L
  | .goto d l' => (s.setData d).move p (.inside l')
  | .wake c l' => s.move p (.scan c procs l')
  | .sleep c l' => s.move p (.hand c l')
  | .leave x => (s.setLock (code.obj l) none).move p (.out x)

/-- `wakeup(c)` looks at `q`. -/
def look (s : State P O C σ X L) (c : C) (q : P) : State P O C σ X L :=
  if (s.pc q).sleepsOn = some c then s.move q (s.pc q).rouse else s

end State

/-- One step; `procs` is the table that `wakeup` goes through. -/
def step (code : Code P O C σ X L ι) (procs : List P) (s : State P O C σ X L) :
    Event P ι → Option (State P O C σ X L)
  | .call p i =>
    match s.pc p with
    | .out x => (code.call p s.data x i).map fun l => s.move p (.want l)
    | _ => none
  | .free p i =>
    match s.pc p with
    | .out x => (code.free p s.data x i).map fun (d, x') => (s.setData d).move p (.out x')
    | _ => none
  | .acquire p =>
    match s.pc p with
    | .want l =>
      if s.lock (code.obj l) = none then
        some ((s.setLock (code.obj l) (some p)).move p (.inside l))
      else none
    | _ => none
  | .act p i =>
    match s.pc p with
    | .inside l => (code.act p (s.killed p) s.data l i).map (s.perform code procs p l)
    | _ => none
  | .scan p =>
    match s.pc p with
    | .scan c (q :: todo) l =>
      if (s.pc q).plocked then none else some ((s.look c q).move p (.scan c todo l))
    | .scan _ [] l => some (s.move p (.inside l))
    | _ => none
  | .plock p =>
    match s.pc p with
    | .hand c l => some (s.move p (.both c l))
    | _ => none
  | .unlock p =>
    match s.pc p with
    | .both c l => some ((s.setLock (code.obj l) none).move p (.park c l))
    | _ => none
  | .park p =>
    match s.pc p with
    | .park c l => some (s.move p (.asleep c l))
    | _ => none
  | .run p =>
    match s.pc p with
    | .woken l => some (s.move p (.want l))
    | _ => none
  | .kill p =>
    if (s.pc p).plocked then none
    else some ({ s with killed := update s.killed p true }.move p (s.pc p).rouse)

/-- What a step can be, with what it finds and what it leaves. -/
inductive Moves (code : Code P O C σ X L ι) (procs : List P) (s : State P O C σ X L) :
    Event P ι → State P O C σ X L → Prop
  | call {p i x l} : s.pc p = .out x → code.call p s.data x i = some l →
      Moves code procs s (.call p i) (s.move p (.want l))
  | free {p i x d x'} : s.pc p = .out x → code.free p s.data x i = some (d, x') →
      Moves code procs s (.free p i) ((s.setData d).move p (.out x'))
  | acquire {p l} : s.pc p = .want l → s.lock (code.obj l) = none →
      Moves code procs s (.acquire p) ((s.setLock (code.obj l) (some p)).move p (.inside l))
  | act {p i l a} : s.pc p = .inside l → code.act p (s.killed p) s.data l i = some a →
      Moves code procs s (.act p i) (s.perform code procs p l a)
  | look {p c q todo l} : s.pc p = .scan c (q :: todo) l → (s.pc q).plocked = false →
      Moves code procs s (.scan p) ((s.look c q).move p (.scan c todo l))
  | scanned {p c l} : s.pc p = .scan c [] l → Moves code procs s (.scan p) (s.move p (.inside l))
  | plock {p c l} : s.pc p = .hand c l → Moves code procs s (.plock p) (s.move p (.both c l))
  | unlock {p c l} : s.pc p = .both c l →
      Moves code procs s (.unlock p) ((s.setLock (code.obj l) none).move p (.park c l))
  | park {p c l} : s.pc p = .park c l → Moves code procs s (.park p) (s.move p (.asleep c l))
  | run {p l} : s.pc p = .woken l → Moves code procs s (.run p) (s.move p (.want l))
  | kill {p} : (s.pc p).plocked = false → Moves code procs s (.kill p)
      ({ s with killed := update s.killed p true }.move p (s.pc p).rouse)

variable {code : Code P O C σ X L ι} {procs : List P} {s s' : State P O C σ X L} {e : Event P ι} {p q : P}
  {c : C} {l : L} {pc : Pc P C X L}

theorem step_moves (h : step code procs s e = some s') : Moves code procs s e s' := by
  cases e with
  | call p i =>
    dsimp only [step] at h
    split at h
    · rename_i x hpc
      obtain ⟨l, hl, rfl⟩ := map_eq_some_iff.mp h
      exact .call hpc hl
    · cases h
  | free p i =>
    dsimp only [step] at h
    split at h
    · rename_i x hpc
      obtain ⟨⟨d, x'⟩, hd, rfl⟩ := map_eq_some_iff.mp h
      exact .free hpc hd
    · cases h
  | acquire p =>
    dsimp only [step] at h
    split at h
    · rename_i l hpc
      obtain ⟨hfree, rfl⟩ := of_guarded h
      exact .acquire hpc hfree
    · cases h
  | act p i =>
    dsimp only [step] at h
    split at h
    · rename_i l hpc
      obtain ⟨a, ha, rfl⟩ := map_eq_some_iff.mp h
      exact .act hpc ha
    · cases h
  | scan p =>
    dsimp only [step] at h
    split at h
    · rename_i c q todo l hpc
      split at h
      · cases h
      · rename_i hq
        cases h
        exact .look hpc (Bool.eq_false_iff.mpr hq)
    · rename_i c l hpc
      cases h
      exact .scanned hpc
    · cases h
  | plock p =>
    dsimp only [step] at h
    split at h
    · rename_i c l hpc
      cases h
      exact .plock hpc
    · cases h
  | unlock p =>
    dsimp only [step] at h
    split at h
    · rename_i c l hpc
      cases h
      exact .unlock hpc
    · cases h
  | park p =>
    dsimp only [step] at h
    split at h
    · rename_i c l hpc
      cases h
      exact .park hpc
    · cases h
  | run p =>
    dsimp only [step] at h
    split at h
    · rename_i l hpc
      cases h
      exact .run hpc
    · cases h
  | kill p =>
    dsimp only [step] at h
    split at h
    · cases h
    · rename_i hp
      cases h
      exact .kill (Bool.eq_false_iff.mpr hp)

theorem step_act {i : ι} (hpc : s.pc p = .inside l)
    (ha : code.act p (s.killed p) s.data l i = some a) :
    step code procs s (.act p i) = some (s.perform code procs p l a) := by
  dsimp only [step]
  rw [hpc]
  dsimp only
  rw [ha]
  rfl

/-! ## The locks -/

/-- Who is inside a section has its lock. -/
def Held (code : Code P O C σ X L ι) (s : State P O C σ X L) : Prop :=
  ∀ p l, (s.pc p).holds = some l → s.lock (code.obj l) = some p

section

variable (h : Held code s)
include h

omit [DecidableEq P] [DecidableEq O] [DecidableEq C] in
theorem Held.unique {m : L} (hp : (s.pc p).holds = some l)
    (hq : (s.pc q).holds = some m) (hobj : code.obj l = code.obj m) : p = q := by
  have hlock := h p l hp
  rw [hobj, h q m hq] at hlock
  exact (some.inj hlock).symm

omit [DecidableEq O] [DecidableEq C] in
theorem Held.move
    (hpc : ∀ l', pc.holds = some l' → ∃ l, (s.pc p).holds = some l ∧ code.obj l' = code.obj l) :
    Held code (s.move p pc) := by
  intro q m hq
  by_cases hqp : q = p
  · subst hqp
    rw [State.move_pc_self] at hq
    obtain ⟨l, hl, hobj⟩ := hpc m hq
    rw [hobj]
    exact h q l hl
  · rw [State.move_pc_of_ne s pc hqp] at hq
    exact h q m hq

omit [DecidableEq C] in
theorem Held.release
    (hl : (s.pc p).holds = some l) (hpc : pc.holds = none) :
    Held code ((s.setLock (code.obj l) none).move p pc) := by
  intro q m hq
  have hqp : q ≠ p := by
    rintro rfl
    rw [State.move_pc_self, hpc] at hq
    cases hq
  rw [State.move_pc_of_ne _ pc hqp] at hq
  have hne : code.obj m ≠ code.obj l := fun hobj => hqp (h.unique hq hl hobj)
  rw [State.move_lock, State.setLock_lock, update_of_ne hne]
  exact h q m hq

omit [DecidableEq C] in
theorem Held.acquire (hfree : s.lock (code.obj l) = none) :
    Held code ((s.setLock (code.obj l) (some p)).move p (.inside l)) := by
  intro q m hq
  rw [State.move_lock, State.setLock_lock]
  by_cases hqp : q = p
  · subst hqp
    rw [State.move_pc_self] at hq
    cases hq
    exact update_self _ _ _
  rw [State.move_pc_of_ne _ _ hqp] at hq
  have hlock := h q m hq
  have hne : code.obj m ≠ code.obj l := by
    intro hobj
    rw [hobj, hfree] at hlock
    cases hlock
  rw [update_of_ne hne]
  exact hlock

omit [DecidableEq O] [DecidableEq C] in
theorem Held.rouse (q : P) : Held code (s.move q (s.pc q).rouse) :=
  h.move fun l hl => ⟨l, by rwa [Pc.rouse_holds] at hl, rfl⟩

omit [DecidableEq O] in
theorem Held.look : Held code (s.look c q) := by
  unfold State.look
  split
  · exact h.rouse q
  · exact h

end

omit [DecidableEq O] in
theorem look_data : (s.look c q).data = s.data := by
  unfold State.look
  split <;> rfl

omit [DecidableEq O] in
theorem look_pc_of_ne (hpq : p ≠ q) : (s.look c q).pc p = s.pc p := by
  unfold State.look
  split
  · exact update_of_ne hpq _ _
  · rfl

omit [DecidableEq O] in
theorem look_pc_self : (s.look c q).pc q = if (s.pc q).sleepsOn = some c then (s.pc q).rouse else s.pc q := by
  unfold State.look
  split
  · exact update_self _ _ _
  · rfl

omit [DecidableEq O] in
theorem look_pc_scan {c' : C} (hp : s.pc p = .scan c todo l) : (s.look c' q).pc p = .scan c todo l := by
  by_cases hpq : p = q
  · subst hpq
    rw [look_pc_self, hp]
    rfl
  · rw [look_pc_of_ne hpq, hp]

theorem Held.moves (h : Held code s) (hm : Moves code procs s e s') : Held code s' := by
  cases hm with
  | call hpc _ | park hpc | run hpc => exact h.move nofun
  | @free p i x d x' hpc _ =>
    have hd : Held code (s.setData d) := h
    exact hd.move nofun
  | acquire hpc hfree => exact h.acquire hfree
  | @act p i l a hpc ha =>
    have hl : (s.pc p).holds = some l := by rw [hpc, Pc.holds]
    have hnext : ∀ m, a.next = some m → code.obj m = code.obj l := fun m =>
      code.obj_next _ _ _ _ _ _ m ha
    cases a with
    | goto d l' =>
      have hd : Held code (s.setData d) := h
      exact hd.move fun m hm => ⟨l, hl, hnext m hm⟩
    | wake c l' | sleep c l' => exact h.move fun m hm => ⟨l, hl, hnext m hm⟩
    | leave x => exact h.release hl rfl
  | @look p c q todo l hpc _ =>
    refine h.look.move fun m hm => ⟨l, ?_, ?_⟩
    · rw [look_pc_scan hpc, Pc.holds]
    · cases hm
      rfl
  | scanned hpc | plock hpc => exact h.move fun m hm => ⟨m, by rwa [hpc], rfl⟩
  | unlock hpc => exact h.release (by rw [hpc, Pc.holds]) rfl
  | @kill p _ =>
    have hk : Held code { s with killed := update s.killed p true } := h
    exact hk.rouse p

/-! ## Assertions -/

/-- `At l` may be asserted at place `l` of the code.  Where a process waits for
the lock, nothing can be asserted of the data. -/
structure Annotated (code : Code P O C σ X L ι) (At : L → σ → Prop) : Prop where
  call : ∀ p d x i l, code.call p d x i = some l → ∀ d', At l d'
  goto : ∀ p k d l i d' l', code.act p k d l i = some (.goto d' l') → At l d →
    At l' d' ∧ ∀ m, code.obj m ≠ code.obj l → At m d → At m d'
  wake : ∀ p k d l i c l', code.act p k d l i = some (.wake c l') → At l d → At l' d
  sleep : ∀ p k d l i c l', code.act p k d l i = some (.sleep c l') → At l d → ∀ d', At l' d'
  free : ∀ p d x i d' x', code.free p d x i = some (d', x') → ∀ m, At m d → At m d'

omit [DecidableEq P] [DecidableEq O] [DecidableEq C] in
theorem annotated_trivial (code : Code P O C σ X L ι) : Annotated code fun _ _ => True :=
  ⟨fun _ _ _ _ _ _ _ => trivial, fun _ _ _ _ _ _ _ _ _ => ⟨trivial, fun _ _ _ => trivial⟩,
    fun _ _ _ _ _ _ _ _ _ => trivial, fun _ _ _ _ _ _ _ _ _ _ => trivial,
    fun _ _ _ _ _ _ _ _ _ => trivial⟩

/-- The assertions hold. -/
structure Placed (code : Code P O C σ X L ι) (At : L → σ → Prop) (s : State P O C σ X L) : Prop where
  held : Held code s
  running : ∀ p l, (s.pc p).running = some l → At l s.data
  pending : ∀ p l, (s.pc p).pending = some l → ∀ d, At l d

variable {At : L → σ → Prop}

section

variable (h : Placed code At s)
include h

omit [DecidableEq O] [DecidableEq C] in
theorem Placed.move (hheld : Held code s')
    (hpc : s'.pc = update s.pc p pc)
    (hdata : ∀ q l, q ≠ p → (s.pc q).running = some l → At l s.data → At l s'.data)
    (hrunning : ∀ l, pc.running = some l → At l s'.data)
    (hpending : ∀ l, pc.pending = some l → ∀ d, At l d) : Placed code At s' := by
  have hself : s'.pc p = pc := by rw [hpc, update_self]
  have hother : ∀ q, q ≠ p → s'.pc q = s.pc q := fun q hq => by rw [hpc, update_of_ne hq]
  refine ⟨hheld, fun q l hq => ?_, fun q l hq => ?_⟩
  · by_cases hqp : q = p
    · subst hqp
      exact hrunning l (by rwa [hself] at hq)
    · rw [hother q hqp] at hq
      exact hdata q l hqp hq (h.running q l hq)
  · by_cases hqp : q = p
    · subst hqp
      exact hpending l (by rwa [hself] at hq)
    · exact h.pending q l (by rwa [hother q hqp] at hq)

omit [DecidableEq O] [DecidableEq C] in
theorem Placed.rouse (q : P) : Placed code At (s.move q (s.pc q).rouse) :=
  h.move (h.held.rouse q) rfl (fun _ _ _ _ hm => hm) (fun l hl => h.running q l (by rwa [Pc.rouse_running] at hl))
    fun l hl => h.pending q l (by rwa [Pc.rouse_pending] at hl)

omit [DecidableEq O] in
theorem Placed.look : Placed code At (s.look c q) := by
  unfold State.look
  split
  · exact h.rouse q
  · exact h

theorem Placed.moves (hat : Annotated code At) (hm : Moves code procs s e s') : Placed code At s' := by
  have hheld := h.held.moves hm
  -- most steps do not change the data
  have hsame : ∀ {p : P} {pc : Pc P C X L}, s'.pc = update s.pc p pc → s'.data = s.data →
      (∀ l, pc.running = some l → At l s.data) → (∀ l, pc.pending = some l → ∀ d, At l d) →
      Placed code At s' := by
    intro p pc hpc hdata hrunning hpending
    refine h.move hheld hpc (fun q l _ _ hl => ?_) (fun l hl => ?_) hpending
    · rwa [hdata]
    · rw [hdata]
      exact hrunning l hl
  cases hm with
  | call hpc hc =>
    refine hsame rfl rfl nofun fun l hl => ?_
    cases hl
    exact hat.call _ _ _ _ _ hc
  | free hpc hf =>
    exact h.move hheld rfl (fun q l _ _ hl => hat.free _ _ _ _ _ _ hf l hl) nofun nofun
  | @acquire p l hpc _ =>
    refine hsame rfl rfl (fun m hm => ?_) nofun
    cases hm
    exact h.pending p l (by rw [hpc, Pc.pending]) s.data
  | @act p i l a hpc ha =>
    have hl := h.running p l (by rw [hpc, Pc.running])
    cases a with
    | goto d l' =>
      obtain ⟨hnext, hothers⟩ := hat.goto _ _ _ _ _ _ _ ha hl
      refine h.move hheld rfl (fun q m hqp hq hm => hothers m (fun hobj => hqp ?_) hm)
        (fun m hm => ?_) nofun
      · exact h.held.unique (Pc.holds_of_running hq) (by rw [hpc, Pc.holds]) hobj
      · cases hm
        exact hnext
    | wake c l' =>
      refine hsame rfl rfl (fun m hm => ?_) nofun
      cases hm
      exact hat.wake _ _ _ _ _ _ _ ha hl
    | sleep c l' =>
      refine hsame rfl rfl nofun fun m hm => ?_
      cases hm
      exact hat.sleep _ _ _ _ _ _ _ ha hl
    | leave x => exact hsame rfl rfl nofun nofun
  | @look p c q todo l hpc _ =>
    have hl := h.running p l (by rw [hpc, Pc.running])
    refine h.look.move hheld rfl (fun _ _ _ _ hm => hm) (fun m hm => ?_) nofun
    cases hm
    rw [State.move_data, look_data]
    exact hl
  | @scanned p c l hpc =>
    exact hsame rfl rfl (fun m hm => h.running p m (by rw [hpc]; exact hm)) nofun
  | @plock p c l hpc | @unlock p c l hpc | @park p c l hpc | @run p l hpc =>
    exact hsame rfl rfl nofun fun m hm => h.pending p m (by rw [hpc]; exact hm)
  | @kill p _ =>
    have hk : Placed code At { s with killed := update s.killed p true } := ⟨h.held, h.running, h.pending⟩
    exact hk.rouse p

end

/-! ## No lost wake-up -/

/-- The code sleeps on channels of its own lock, and only while they
are wanted; when it makes a channel unwanted it owes a wake-up, and it pays before it sleeps.  Outside,
where nobody can owe anything, `Ax` may be used. -/
structure Sound (code : Code P O C σ X L ι) (Ax : X → σ → Prop) (At : L → σ → Prop)
    (Want : C → σ → Prop) (Owes : L → C → Prop) (own : C → O) : Prop where
  annotated : Annotated code At
  debt : ∀ l c, Owes l c → own c = code.obj l
  goto : ∀ p k d l i d' l', code.act p k d l i = some (.goto d' l') →
    ∀ c, Want c d ∨ Owes l c → Want c d' ∨ Owes l' c
  wake : ∀ p k d l i c l', code.act p k d l i = some (.wake c l') →
    own c = code.obj l ∧ ∀ c', Owes l c' → c' = c ∨ Owes l' c'
  sleep : ∀ p k d l i c l', code.act p k d l i = some (.sleep c l') →
    own c = code.obj l ∧ (At l d → Want c d) ∧ ∀ c', ¬ Owes l c'
  free : ∀ p d x i d' x', code.free p d x i = some (d', x') → Ax x d → ∀ c, Want c d → Want c d'

/-- A process that leaves a section leaves nobody behind that it owes a
wake-up. -/
def Paid (code : Code P O C σ X L ι) (Owes : L → C → Prop) (s : State P O C σ X L) : Event P ι → Prop
  | .act p i => ∀ l x, s.pc p = .inside l → code.act p (s.killed p) s.data l i = some (.leave x) →
      ∀ c, Owes l c → ∀ q, (s.pc q).bound ≠ some c
  | _ => True

/-- Does a process at this place still have to wake `p`, if `p` is bound for `c`. -/
def Pc.Attends (code : Code P O C σ X L ι) (Owes : L → C → Prop) (own : C → O) (p : P) (c : C) :
    Pc P C X L → Prop
  | inside l => Owes l c
  | scan c' todo l => Owes l c ∨ c' = c ∧ own c = code.obj l ∧ p ∈ todo
  | _ => False

/-- Who sleeps, or is about to, has a reason to or will be woken. -/
structure Attended (code : Code P O C σ X L ι) (At : L → σ → Prop) (Want : C → σ → Prop)
    (Owes : L → C → Prop) (own : C → O) (s : State P O C σ X L) : Prop extends Placed code At s where
  hand : ∀ p c l, s.pc p = .hand c l → own c = code.obj l
  bound : ∀ p c, (s.pc p).bound = some c → Want c s.data ∨ ∃ h, (s.pc h).Attends code Owes own p c

variable {Ax : X → σ → Prop} {Want : C → σ → Prop} {Owes : L → C → Prop} {own : C → O}

omit [DecidableEq P] [DecidableEq O] [DecidableEq C] in
theorem Pc.attends_rouse (h : pc.Attends code Owes own p c) : pc.rouse.Attends code Owes own p c := by
  cases pc with
  | asleep c' l => exact h.elim
  | _ => exact h

section

variable (h : Attended code At Want Owes own s)
include h

omit [DecidableEq P] [DecidableEq O] [DecidableEq C] in
/-- With the lock of a channel free, everybody who sleeps on it has a reason to. -/
theorem Attended.want
    (hs : Sound code Ax At Want Owes own) (hp : (s.pc p).sleepsOn = some c) (hlock : s.lock (own c) = none) :
    Want c s.data := by
  rcases h.bound p c (Pc.bound_of_sleepsOn hp) with hwant | ⟨q, hq⟩
  · exact hwant
  exfalso
  -- the one who still has to wake `p` has the lock
  have hfalse : ∀ l, (s.pc q).holds = some l → own c = code.obj l → False := by
    intro l hl hown
    have hheld := h.held q l hl
    rw [← hown, hlock] at hheld
    cases hheld
  cases hpc : s.pc q with
  | inside l =>
    rw [hpc] at hq
    exact hfalse l (by rw [hpc, Pc.holds]) (hs.debt l c hq)
  | scan c' todo l =>
    rw [hpc] at hq
    rcases hq with howes | ⟨-, hown, -⟩
    · exact hfalse l (by rw [hpc, Pc.holds]) (hs.debt l c howes)
    · exact hfalse l (by rw [hpc, Pc.holds]) hown
  | _ =>
    rw [hpc] at hq
    exact hq.elim

omit [DecidableEq O] [DecidableEq C] in
theorem Attended.move
    (hplaced : Placed code At s') (hpc : s'.pc = update s.pc p pc)
    (hhand : ∀ c l, pc = .hand c l → own c = code.obj l)
    (hbound : ∀ c, pc.bound = some c → (s.pc p).bound = some c ∨ Want c s'.data)
    (hwant : ∀ c, Want c s.data → Want c s'.data ∨ ∀ q, pc.Attends code Owes own q c)
    (hattends : ∀ q c, (s.pc q).bound = some c → (s.pc p).Attends code Owes own q c →
      Want c s'.data ∨ pc.Attends code Owes own q c) :
    Attended code At Want Owes own s' := by
  have hself : s'.pc p = pc := by rw [hpc, update_self]
  have hother : ∀ q, q ≠ p → s'.pc q = s.pc q := fun q hq => by rw [hpc, update_of_ne hq]
  refine ⟨hplaced, ?_, ?_⟩
  · intro q c l hq
    by_cases hqp : q = p
    · subst hqp
      exact hhand c l (hself.symm.trans hq)
    · exact h.hand q c l (by rwa [hother q hqp] at hq)
  intro q c hq
  have hbefore : (s.pc q).bound = some c ∨ Want c s'.data := by
    by_cases hqp : q = p
    · subst hqp
      exact hbound c (by rwa [hself] at hq)
    · exact .inl (by rwa [hother q hqp] at hq)
  rcases hbefore with hbefore | hdone
  · rcases h.bound q c hbefore with hw | ⟨r, hr⟩
    · exact (hwant c hw).imp_right fun ha => ⟨p, by rw [hself]; exact ha q⟩
    · by_cases hrp : r = p
      · subst hrp
        exact (hattends q c hbefore hr).imp_right fun ha => ⟨r, by rwa [hself]⟩
      · exact .inr ⟨r, by rwa [hother r hrp]⟩
  · exact .inl hdone

omit [DecidableEq C] in
theorem Attended.act {i : ι}
    (hs : Sound code Ax At Want Owes own) (hprocs : ∀ q, q ∈ procs) (hpaid : Paid code Owes s (.act p i))
    (hpc : s.pc p = .inside l) (ha : code.act p (s.killed p) s.data l i = some a)
    (hplaced : Placed code At (s.perform code procs p l a)) :
    Attended code At Want Owes own (s.perform code procs p l a) := by
  have hin : ∀ q c, (s.pc p).Attends code Owes own q c → Owes l c := by
    intro q c hq
    rwa [hpc] at hq
  cases a with
  | goto d l' =>
    have hgoto := hs.goto _ _ _ _ _ _ _ ha
    refine h.move hplaced rfl nofun nofun (fun c hw => ?_) fun q c _ hq => ?_
    · exact (hgoto c (.inl hw)).imp_right fun hl' _ => hl'
    · exact hgoto c (.inr (hin q c hq))
  | wake c0 l' =>
    obtain ⟨hown, hwake⟩ := hs.wake _ _ _ _ _ _ _ ha
    refine h.move hplaced rfl nofun nofun (fun c hw => .inl hw) fun q c _ hq => .inr ?_
    rcases hwake c (hin q c hq) with rfl | hl'
    · exact .inr ⟨rfl, hown.trans (code.obj_next _ _ _ _ _ _ _ ha rfl).symm, hprocs q⟩
    · exact .inl hl'
  | sleep c0 l' =>
    obtain ⟨hown, hwant, hpaid'⟩ := hs.sleep _ _ _ _ _ _ _ ha
    refine h.move hplaced rfl (fun c m hcm => ?_) (fun c hc => ?_) (fun c hw => .inl hw)
      fun q c _ hq => absurd (hin q c hq) (hpaid' c)
    · cases hcm
      exact hown.trans (code.obj_next _ _ _ _ _ _ _ ha rfl).symm
    · cases hc
      exact .inr (hwant (h.running p l (by rw [hpc, Pc.running])))
  | leave x =>
    refine h.move hplaced rfl nofun nofun (fun c hw => .inl hw) fun q c hbound hq => ?_
    exact absurd hbound (hpaid l x hpc ha c (hin q c hq) q)

omit [DecidableEq O] in
/-- With the lock of the channel, `wakeup` leaves nobody asleep on it that it has looked at. -/
theorem Attended.roused
    (hpc : s.pc p = .scan c todo l) (hown : own c = code.obj l) (hq : (s.pc q).plocked = false) :
    ((s.look c q).pc q).bound ≠ some c := by
  intro hbound
  rw [look_pc_self] at hbound
  cases hpq : s.pc q with
  | hand c' m =>
    -- `q` would have the same lock
    obtain rfl : c' = c := by simpa [hpq, Pc.sleepsOn, Pc.bound] using hbound
    have hobj : code.obj l = code.obj m := hown.symm.trans (h.hand q c' m hpq)
    obtain rfl : p = q := h.held.unique (by rw [hpc, Pc.holds]) (by rw [hpq, Pc.holds]) hobj
    rw [hpc] at hpq
    cases hpq
  | both c' m | park c' m =>
    rw [hpq] at hq
    cases hq
  | asleep c' m =>
    rw [hpq] at hbound
    split at hbound
    · cases hbound
    · rename_i hne
      exact hne hbound
  | _ => simp [hpq, Pc.sleepsOn, Pc.bound] at hbound

omit [DecidableEq O] [DecidableEq C] in
theorem Attended.rouse (q : P) : Attended code At Want Owes own (s.move q (s.pc q).rouse) :=
  h.move (h.toPlaced.rouse q) rfl (fun c l hcl => h.hand q c l (Pc.eq_of_rouse hcl)) (fun _ hc => .inl (Pc.bound_rouse hc))
    (fun _ hw => .inl hw) fun _ _ _ hr => .inr (Pc.attends_rouse hr)

omit [DecidableEq O] in
theorem Attended.look
    (hpc : s.pc p = .scan c (q :: todo) l) (hq : (s.pc q).plocked = false)
    (hplaced : Placed code At ((s.look c q).move p (.scan c todo l))) :
    Attended code At Want Owes own ((s.look c q).move p (.scan c todo l)) := by
  have hlook : Attended code At Want Owes own (s.look c q) := by
    unfold State.look
    split
    · exact h.rouse q
    · exact h
  refine hlook.move hplaced rfl nofun nofun (fun c' hw => .inl hw) fun r c' hr hattends => .inr ?_
  rw [look_pc_scan hpc] at hattends
  rcases hattends with howes | ⟨rfl, hown, hmem⟩
  · exact .inl howes
  · refine .inr ⟨rfl, hown, ?_⟩
    rcases List.mem_cons.mp hmem with rfl | hmem
    · exact absurd hr (h.roused hpc hown hq)
    · exact hmem

end

theorem Attended.moves (h : Attended code At Want Owes own s) (hs : Sound code Ax At Want Owes own)
    (hprocs : ∀ q, q ∈ procs) (hax : ∀ p x, s.pc p = .out x → Ax x s.data)
    (hpaid : Paid code Owes s e) (hm : Moves code procs s e s') :
    Attended code At Want Owes own s' := by
  have hplaced := h.toPlaced.moves hs.annotated hm
  -- most steps change neither the data nor what anybody has to wake
  have hmoved : ∀ {p : P} {pc : Pc P C X L}, s'.pc = update s.pc p pc →
      (∀ c, Want c s.data → Want c s'.data) → (∀ c l, pc = .hand c l → s.pc p = .hand c l) →
      (∀ c, pc.bound = some c → (s.pc p).bound = some c) →
      (∀ q c, (s.pc p).Attends code Owes own q c → pc.Attends code Owes own q c) →
      Attended code At Want Owes own s' := by
    intro p pc hpc hwant hhand hbound hattends
    exact h.move hplaced hpc (fun c l hcl => h.hand p c l (hhand c l hcl))
      (fun c hc => .inl (hbound c hc)) (fun c hw => .inl (hwant c hw))
      fun q c _ hq => .inr (hattends q c hq)
  cases hm with
  | call hpc _ | run hpc => exact hmoved rfl (fun _ => id) nofun nofun (by rw [hpc]; exact fun _ _ => False.elim)
  | free hpc hf =>
    exact hmoved rfl (hs.free _ _ _ _ _ _ hf (hax _ _ hpc)) nofun nofun (by rw [hpc]; exact fun _ _ => False.elim)
  | acquire hpc _ =>
    exact hmoved rfl (fun _ => id) nofun nofun (by rw [hpc]; exact fun _ _ => False.elim)
  | act hpc ha => exact h.act hs hprocs hpaid hpc ha hplaced
  | look hpc hq => exact h.look hpc hq hplaced
  | scanned hpc =>
    refine hmoved rfl (fun _ => id) nofun nofun fun q c hq => ?_
    rw [hpc] at hq
    rcases hq with howes | ⟨-, -, hmem⟩
    · exact howes
    · cases hmem
  | plock hpc | unlock hpc | park hpc =>
    refine hmoved rfl (fun _ => id) nofun (fun c hc => ?_) (by rw [hpc]; exact fun _ _ => False.elim)
    rw [hpc]
    exact hc
  | @kill p _ =>
    have hk : Attended code At Want Owes own { s with killed := update s.killed p true } :=
      ⟨⟨h.held, h.running, h.pending⟩, h.hand, h.bound⟩
    exact hk.rouse p

/-- Nobody has begun anything. -/
structure State.Initial (s : State P O C σ X L) : Prop where
  lock : ∀ o, s.lock o = none
  out : ∀ p, ∃ x, s.pc p = .out x

omit [DecidableEq P] [DecidableEq O] [DecidableEq C] in
theorem State.Initial.held (h : s.Initial) : Held code s := by
  intro p l hl
  obtain ⟨x, hx⟩ := h.out p
  rw [hx] at hl
  cases hl

omit [DecidableEq P] [DecidableEq O] [DecidableEq C] in
theorem State.Initial.placed (h : s.Initial) : Placed code At s := by
  refine ⟨h.held, fun p l hp => ?_, fun p l hp => ?_⟩
  · obtain ⟨x, hx⟩ := h.out p
    rw [hx] at hp
    cases hp
  · obtain ⟨x, hx⟩ := h.out p
    rw [hx] at hp
    cases hp

omit [DecidableEq P] [DecidableEq O] [DecidableEq C] in
theorem State.Initial.attended (h : s.Initial) : Attended code At Want Owes own s := by
  refine ⟨h.placed, fun p c l hp => ?_, fun p c hp => ?_⟩
  · obtain ⟨x, hx⟩ := h.out p
    rw [hx] at hp
    cases hp
  · obtain ⟨x, hx⟩ := h.out p
    rw [hx] at hp
    cases hp

/-- **No lost wake-up.**  In every run of sound code in which nobody leaves a wake-up unpaid, who sleeps
on a channel whose lock is free has a reason to. -/
theorem want_of_asleep {ok : State P O C σ X L → Event P ι → Prop} {s0 : State P O C σ X L}
    (hs : Sound code Ax At Want Owes own) (hprocs : ∀ q, q ∈ procs)
    (hok : ∀ s e, ok s e → Paid code Owes s e)
    (hax : ∀ t, Reach (step code procs) ok s0 t → ∀ p x, t.pc p = .out x → Ax x t.data)
    (h0 : s0.Initial) (hr : Reach (step code procs) ok s0 s) (hp : (s.pc p).sleepsOn = some c)
    (hlock : s.lock (own c) = none) : Want c s.data := by
  have hatt : Reach (step code procs) ok s0 s ∧ Attended code At Want Owes own s := by
    refine hr.invariant
      (I := fun t => Reach (step code procs) ok s0 t ∧ Attended code At Want Owes own t)
      ⟨.refl, h0.attended⟩ ?_
    rintro t e t' ⟨hrt, ht⟩ hte hst
    exact ⟨hrt.next hte hst, ht.moves hs hprocs (hax t hrt) (hok t e hte) (step_moves hst)⟩
  exact hatt.2.want hs hp hlock

/-! ## Exclusion -/

/-- Does a process have the token, by where it is. -/
def Pc.Claims (cx : X → Prop) (cl : L → Prop) : Pc P C X L → Prop
  | out x => cx x
  | want l | inside l | scan _ _ l | hand _ l | both _ l | park _ l | asleep _ l | woken l => cl l

/-- A change of the data `d` to `d'` by a process that claims the token (`a`) or not, and claims it
afterwards (`b`) or not. -/
structure Passes (Taken : σ → Prop) (d : σ) (a : Prop) (d' : σ) (b : Prop) : Prop where
  take : b → a ∧ (Taken d → Taken d') ∨ ¬ Taken d ∧ Taken d'
  give : Taken d → Taken d' ∨ a

theorem Passes.same {Taken : σ → Prop} {d d' : σ} {a b : Prop} (hab : b → a)
    (hd : Taken d → Taken d') : Passes Taken d a d' b :=
  ⟨fun hb => .inl ⟨hab hb, hd⟩, fun h => .inl (hd h)⟩

/-- A process comes to claim the token only when it is not taken, and
only the one who claims it gives it back. -/
structure Exclusive (code : Code P O C σ X L ι) (Taken : σ → Prop) (cx : X → Prop) (cl : L → Prop) : Prop where
  call : ∀ p d x i l, code.call p d x i = some l → cl l → cx x
  free : ∀ p d x i d' x', code.free p d x i = some (d', x') → Passes Taken d (cx x) d' (cx x')
  goto : ∀ p k d l i d' l', code.act p k d l i = some (.goto d' l') → Passes Taken d (cl l) d' (cl l')
  wake : ∀ p k d l i c l', code.act p k d l i = some (.wake c l') → cl l' → cl l
  sleep : ∀ p k d l i c l', code.act p k d l i = some (.sleep c l') → cl l' → cl l
  leave : ∀ p k d l i x, code.act p k d l i = some (.leave x) → cx x → cl l

/-- One process at most claims the token, and then it is taken. -/
structure Sole (Taken : σ → Prop) (cx : X → Prop) (cl : L → Prop) (s : State P O C σ X L) : Prop where
  taken : ∀ p, (s.pc p).Claims cx cl → Taken s.data
  unique : ∀ p q, (s.pc p).Claims cx cl → (s.pc q).Claims cx cl → p = q

variable {Taken : σ → Prop} {cx : X → Prop} {cl : L → Prop} {ok : State P O C σ X L → Event P ι → Prop}
  {s0 : State P O C σ X L}

omit [DecidableEq P] [DecidableEq C] in
theorem Pc.claims_rouse : pc.rouse.Claims cx cl ↔ pc.Claims cx cl := by cases pc <;> rfl

omit [DecidableEq O] [DecidableEq C] in
theorem Sole.move (h : Sole Taken cx cl s) (hpc : s'.pc = update s.pc p pc)
    (hpass : Passes Taken s.data ((s.pc p).Claims cx cl) s'.data (pc.Claims cx cl)) :
    Sole Taken cx cl s' := by
  have hself : s'.pc p = pc := by rw [hpc, update_self]
  have hother : ∀ q, q ≠ p → s'.pc q = s.pc q := fun q hq => by rw [hpc, update_of_ne hq]
  -- nobody else has the token when `p` comes to claim it
  have halone : ∀ q, q ≠ p → (s'.pc q).Claims cx cl → ¬ pc.Claims cx cl := by
    intro q hq hclaim hp
    rw [hother q hq] at hclaim
    rcases hpass.take hp with ⟨hbefore, -⟩ | ⟨hfree, -⟩
    · exact hq (h.unique q p hclaim hbefore)
    · exact hfree (h.taken q hclaim)
  refine ⟨fun q hq => ?_, fun q r hq hr => ?_⟩
  · by_cases hqp : q = p
    · subst hqp
      rw [hself] at hq
      rcases hpass.take hq with ⟨hbefore, hkeep⟩ | ⟨-, htaken⟩
      · exact hkeep (h.taken q hbefore)
      · exact htaken
    · rw [hother q hqp] at hq
      rcases hpass.give (h.taken q hq) with htaken | hbefore
      · exact htaken
      · exact absurd (h.unique q p hq hbefore) hqp
  by_cases hqp : q = p
  · by_cases hrp : r = p
    · rw [hqp, hrp]
    · rw [hqp, hself] at hq
      exact absurd hq (halone r hrp hr)
  by_cases hrp : r = p
  · rw [hrp, hself] at hr
    exact absurd hr (halone q hqp hq)
  · rw [hother q hqp] at hq
    rw [hother r hrp] at hr
    exact h.unique q r hq hr

theorem Sole.moves (h : Sole Taken cx cl s) (hx : Exclusive code Taken cx cl)
    (hm : Moves code procs s e s') : Sole Taken cx cl s' := by
  -- with the same data, a process that moves on must not come to claim the token
  have hsame : ∀ {t t' : State P O C σ X L} {p : P} {pc : Pc P C X L}, Sole Taken cx cl t →
      t'.pc = update t.pc p pc → t'.data = t.data → (pc.Claims cx cl → (t.pc p).Claims cx cl) →
      Sole Taken cx cl t' := by
    intro t t' p pc ht hpc hdata hclaims
    refine ht.move hpc (.same hclaims fun htaken => ?_)
    rwa [hdata]
  cases hm with
  | call hpc hc => exact hsame h rfl rfl fun hb => by rw [hpc]; exact hx.call _ _ _ _ _ hc hb
  | free hpc hf => exact h.move rfl (by rw [hpc]; exact hx.free _ _ _ _ _ _ hf)
  | acquire hpc _ | scanned hpc | plock hpc | unlock hpc | park hpc | run hpc =>
    exact hsame h rfl rfl fun hb => by rw [hpc]; exact hb
  | @act p i l a hpc ha =>
    cases a with
    | goto d l' => exact h.move rfl (by rw [hpc]; exact hx.goto _ _ _ _ _ _ _ ha)
    | wake c l' => exact hsame h rfl rfl fun hb => by rw [hpc]; exact hx.wake _ _ _ _ _ _ _ ha hb
    | sleep c l' => exact hsame h rfl rfl fun hb => by rw [hpc]; exact hx.sleep _ _ _ _ _ _ _ ha hb
    | leave x => exact hsame h rfl rfl fun hb => by rw [hpc]; exact hx.leave _ _ _ _ _ _ ha hb
  | @look p c q todo l hpc _ =>
    have hlook : Sole Taken cx cl (s.look c q) := by
      unfold State.look
      split
      · exact hsame h rfl rfl Pc.claims_rouse.mp
      · exact h
    exact hsame hlook rfl rfl fun hb => by rw [look_pc_scan hpc]; exact hb
  | kill _ => exact hsame h rfl rfl Pc.claims_rouse.mp

/-- **Exclusion.**  From a state in which nobody claims the token, it is claimed by one process at a
time, and only while it is taken. -/
theorem sole_run
    (hx : Exclusive code Taken cx cl) (h0 : ∀ p, ¬ (s0.pc p).Claims cx cl)
    (hr : Reach (step code procs) ok s0 s) : Sole Taken cx cl s :=
  hr.invariant ⟨fun p hp => absurd hp (h0 p), fun p _ hp => absurd hp (h0 p)⟩
    fun _ _ _ ht _ hst => ht.moves hx (step_moves hst)

/-- What every change of the data keeps holds in every state. -/
theorem data_run {I : σ → Prop}
    (hgoto : ∀ p k d l i d' l', code.act p k d l i = some (.goto d' l') → I d → I d')
    (hfree : ∀ p d x i d' x', code.free p d x i = some (d', x') → I d → I d')
    (h0 : I s0.data) (hr : Reach (step code procs) ok s0 s) : I s.data := by
  refine hr.invariant (I := fun t => I t.data) h0 fun t e t' ht _ hst => ?_
  cases step_moves hst with
  | free _ hf => exact hfree _ _ _ _ _ _ hf ht
  | @act p i l a _ ha =>
    cases a with
    | goto d l' => exact hgoto _ _ _ _ _ _ _ ha ht
    | _ => exact ht
  | @look p c q todo l _ _ =>
    show I ((t.look c q).move p _).data
    rw [State.move_data, look_data]
    exact ht
  | _ => exact ht

end Machine

end Xv6.Lib.Monitor
