/-
# Xv6.Kernel.Sleep — sleep locks (`kernel/sleeplock.c`) and the admission to the log (`begin_op` and
`end_op` of `kernel/log.c`).

Any number of processes take and give back sleep locks and begin and end file-system operations, as code
of `Xv6.Lib.Monitor`: each section under `lk->lk` or `log.lock` is taken apart into its places, and
`sleep` and `wakeup` go through their hand-overs one by one.

Between sections a process is described by what it may do next (`Ctx`): the sleep locks it is past
`acquiresleep` of, the operations it has begun, and whether it is the one that commits.  It releases
only locks that it holds; `brelse` and `iunlock` check that with `holdingsleep` before they call.
`commit` clears the header without `log.lock`, in a step of its own; what else it does is in the log's
own model, and is done with sleep locks.
-/
import Xv6.Lib.Monitor
import Xv6.Fs.Log

namespace Xv6.Kernel.Sleep

open Fs (MAXOPBLOCKS LOGSIZE)
open Function
open Lib (Reach)
open Lib.Monitor (Code Sound Paid Passes Exclusive)

variable {d d' : Data} {x x' : Ctx} {i : Input} {pid : Int} {a : Lib.Monitor.Act Obj Data Ctx (Place × Ctx)}
  {l p : Place}

/-! ## State -/

structure Sleeplock where
  locked : Bool
  pid : Int

/-- All sleep locks, and what `begin_op` and `end_op` read of `struct log`. -/
structure Data where
  locks : Nat → Sleeplock
  outstanding : Int
  committing : Bool
  /-- `log.lh.n`. -/
  n : Int
  size : Int

/-- What has its own spin lock, and is slept on: a sleep lock, and the log. -/
inductive Obj
  | lock (l : Nat) | log
  deriving DecidableEq

/-- Is a process in `commit()`, called by its `end_op`. -/
inductive Commit
  | none | busy | done
  deriving DecidableEq

structure Ctx where
  holds : Nat → Bool
  ops : Nat
  commit : Commit

inductive Place
  /-- The loop of `acquiresleep`. -/
  | acquire (l : Nat)
  | release (l : Nat)
  | wakeLock (l : Nat)
  | lockDone (l : Nat)
  /-- The loop of `begin_op`. -/
  | beginOp
  | endOp
  /-- The second section of `end_op`. -/
  | clear
  | logWrite
  | wakeLog
  | logDone
  deriving DecidableEq

/-- The sections that are begun; `commit` is the step between the two sections of `end_op`, and `absorb`
says whether `log_write` finds the block in the log. -/
inductive Input
  | acquiresleep (l : Nat)
  | releasesleep (l : Nat)
  | beginOp
  | endOp
  | finish
  | logWrite
  | commit
  | absorb (found : Bool)

/-! ## The code -/

def Data.crowded (d : Data) : Bool := d.n + (d.outstanding + 1) * MAXOPBLOCKS > LOGSIZE

def Data.setLock (d : Data) (l : Nat) (x : Sleeplock) : Data := { d with locks := update d.locks l x }

def call (d : Data) (x : Ctx) : Input → Option (Place × Ctx)
  | .acquiresleep l => some (.acquire l, x)
  | .releasesleep l =>
    if x.holds l then some (.release l, x) else none
  | .beginOp => if x.commit = .none then some (.beginOp, x) else none
  | .endOp => if x.commit = .none ∧ 0 < x.ops then some (.endOp, { x with ops := x.ops - 1 }) else none
  | .finish => if x.commit = .done then some (.clear, x) else none
  | .logWrite =>
    if x.commit = .none then
      -- two panics
      if d.n ≥ LOGSIZE ∨ d.n ≥ d.size - 1 then none
      else if d.outstanding < 1 then none
      else some (.logWrite, x)
    else none
  | .commit | .absorb _ => none

def act (pid : Int) (d : Data) : Place × Ctx → Input → Option (Lib.Monitor.Act Obj Data Ctx (Place × Ctx))
  | (.acquire l, x), _ =>
    if (d.locks l).locked then some (.sleep (.lock l) (.acquire l, x))
    else some (.goto (d.setLock l ⟨true, pid⟩) (.lockDone l, { x with holds := update x.holds l true }))
  | (.release l, x), _ =>
    some (.goto (d.setLock l ⟨false, 0⟩) (.wakeLock l, { x with holds := update x.holds l false }))
  | (.wakeLock l, x), _ => some (.wake (.lock l) (.lockDone l, x))
  | (.lockDone _, x), _ => some (.leave x)
  | (.beginOp, x), _ =>
    if d.committing then some (.sleep .log (.beginOp, x))
    else if d.crowded then some (.sleep .log (.beginOp, x))
    else some (.goto { d with outstanding := d.outstanding + 1 } (.logDone, { x with ops := x.ops + 1 }))
  | (.endOp, x), _ =>
    -- `panic("log.committing")`
    if d.committing then none
    else if d.outstanding - 1 = 0 then
      some (.goto { d with outstanding := 0, committing := true } (.logDone, { x with commit := .busy }))
    else some (.goto { d with outstanding := d.outstanding - 1 } (.wakeLog, x))
  | (.clear, x), _ => some (.goto { d with committing := false } (.wakeLog, { x with commit := .none }))
  | (.logWrite, x), .absorb found =>
    some (.goto { d with n := if found then d.n else d.n + 1 } (.logDone, x))
  | (.logWrite, _), _ => none
  | (.wakeLog, x), _ => some (.wake .log (.logDone, x))
  | (.logDone, x), _ => some (.leave x)

/-- `commit()`, as far as it shows here. -/
def free (d : Data) (x : Ctx) : Input → Option (Data × Ctx)
  | .commit =>
    if x.commit = .busy then some ({ d with n := if d.n > 0 then 0 else d.n }, { x with commit := .done })
    else none
  | _ => none

def Place.obj : Place → Obj
  | acquire l | release l | wakeLock l | lockDone l => .lock l
  | _ => .log

inductive Begins (x : Ctx) : Place × Ctx → Prop
  | acquire (l : Nat) : Begins x (.acquire l, x)
  | release {l : Nat} : x.holds l = true → Begins x (.release l, x)
  | beginOp : Begins x (.beginOp, x)
  | endOp : Begins x (.endOp, { x with ops := x.ops - 1 })
  | finish : x.commit = .done → Begins x (.clear, x)
  | logWrite : Begins x (.logWrite, x)

theorem call_begins {y : Place × Ctx} (h : call d x i = some y) : Begins x y := by
  cases i with
  | acquiresleep l =>
    cases h
    exact .acquire l
  | releasesleep l =>
    obtain ⟨hholds, rfl⟩ := Lib.of_guarded h
    exact .release hholds
  | beginOp =>
    obtain ⟨-, rfl⟩ := Lib.of_guarded h
    exact .beginOp
  | endOp =>
    obtain ⟨-, rfl⟩ := Lib.of_guarded h
    exact .endOp
  | finish =>
    obtain ⟨hdone, rfl⟩ := Lib.of_guarded h
    exact .finish hdone
  | logWrite =>
    dsimp only [call] at h
    split at h
    · split at h
      · cases h
      split at h
      · cases h
      · cases h
        exact .logWrite
    · cases h
  | commit | absorb found => cases h

theorem free_eq (h : free d x i = some (d', x')) :
    x.commit = .busy ∧ d' = { d with n := if d.n > 0 then 0 else d.n } ∧ x' = { x with commit := .done } := by
  cases i with
  | commit =>
    obtain ⟨hbusy, ⟨⟩⟩ := Lib.of_guarded h
    exact ⟨hbusy, rfl, rfl⟩
  | _ => cases h

inductive Does (pid : Int) (d : Data) (x : Ctx) : Place → Lib.Monitor.Act Obj Data Ctx (Place × Ctx) → Prop
  | wait {l : Nat} : (d.locks l).locked = true → Does pid d x (.acquire l) (.sleep (.lock l) (.acquire l, x))
  | take {l : Nat} : (d.locks l).locked = false → Does pid d x (.acquire l)
      (.goto (d.setLock l ⟨true, pid⟩) (.lockDone l, { x with holds := update x.holds l true }))
  | give {l : Nat} : Does pid d x (.release l)
      (.goto (d.setLock l ⟨false, 0⟩) (.wakeLock l, { x with holds := update x.holds l false }))
  | wakeLock {l : Nat} : Does pid d x (.wakeLock l) (.wake (.lock l) (.lockDone l, x))
  | lockDone {l : Nat} : Does pid d x (.lockDone l) (.leave x)
  | queue : d.committing = true ∨ d.crowded = true → Does pid d x .beginOp (.sleep .log (.beginOp, x))
  | enter : d.committing = false → d.crowded = false → Does pid d x .beginOp
      (.goto { d with outstanding := d.outstanding + 1 } (.logDone, { x with ops := x.ops + 1 }))
  | last : d.committing = false → Does pid d x .endOp
      (.goto { d with outstanding := 0, committing := true } (.logDone, { x with commit := .busy }))
  | notLast : Does pid d x .endOp (.goto { d with outstanding := d.outstanding - 1 } (.wakeLog, x))
  | clear : Does pid d x .clear
      (.goto { d with committing := false } (.wakeLog, { x with commit := .none }))
  | log (found : Bool) : Does pid d x .logWrite
      (.goto { d with n := if found then d.n else d.n + 1 } (.logDone, x))
  | wakeLog : Does pid d x .wakeLog (.wake .log (.logDone, x))
  | logDone : Does pid d x .logDone (.leave x)

theorem act_does (h : act pid d (l, x) i = some a) : Does pid d x l a := by
  cases l with
  | acquire l =>
    dsimp only [act] at h
    split at h
    · rename_i hlocked
      cases h
      exact .wait hlocked
    · rename_i hlocked
      cases h
      exact .take (Bool.eq_false_iff.mpr hlocked)
  | release l =>
    cases h
    exact .give
  | wakeLock l =>
    cases h
    exact .wakeLock
  | lockDone l =>
    cases h
    exact .lockDone
  | beginOp =>
    dsimp only [act] at h
    split at h
    · rename_i hcommitting
      cases h
      exact .queue (.inl hcommitting)
    rename_i hcommitting
    split at h
    · rename_i hcrowded
      cases h
      exact .queue (.inr hcrowded)
    · rename_i hcrowded
      cases h
      exact .enter (Bool.eq_false_iff.mpr hcommitting) (Bool.eq_false_iff.mpr hcrowded)
  | endOp =>
    dsimp only [act] at h
    split at h
    · cases h
    rename_i hcommitting
    split at h
    · cases h
      exact .last (Bool.eq_false_iff.mpr hcommitting)
    · cases h
      exact .notLast
  | clear =>
    cases h
    exact .clear
  | logWrite =>
    cases i with
    | absorb found =>
      cases h
      exact .log found
    | _ => cases h
  | wakeLog =>
    cases h
    exact .wakeLog
  | logDone =>
    cases h
    exact .logDone

theorem Does.obj_next {l' : Place × Ctx} (h : Does pid d x l a) (hn : a.next = some l') : l'.1.obj = l.obj := by
  cases h <;> first | cases hn; rfl | cases hn

def code (n : Nat) (pid : Fin n → Int) : Code (Fin n) Obj Obj Data Ctx (Place × Ctx) Input where
  obj l := l.1.obj
  call _ := call
  act p _ d l i := act (pid p) d l i
  free _ := free
  obj_next _ _ _ _ _ _ _ h hn := (act_does h).obj_next hn

abbrev State (n : Nat) := Lib.Monitor.State (Fin n) Obj Obj Data Ctx (Place × Ctx)

abbrev Event (n : Nat) := Lib.Monitor.Event (Fin n) Input

def step (n : Nat) (pid : Fin n → Int) : State n → Event n → Option (State n) :=
  Lib.Monitor.step (code n pid) (List.finRange n)

/-- No lock is held and no operation open; the log has `size` blocks. -/
def start (n : Nat) (size : Int) : State n where
  data := ⟨fun _ => ⟨false, 0⟩, 0, false, 0, size⟩
  lock := fun _ => none
  killed := fun _ => false
  pc := fun _ => .out ⟨fun _ => false, 0, .none⟩

theorem start_initial (n : Nat) (size : Int) : (start n size).Initial := ⟨fun _ => rfl, fun _ => ⟨_, rfl⟩⟩

/-! ## Exclusion -/

/-- Is the process past `acquiresleep` and before `releasesleep` of `l`: it holds the lock, or is about to
clear `lk->locked`. -/
def Past (l : Nat) (x : Place × Ctx) : Prop := x.2.holds l = true ∨ x.1 = .release l

theorem Past.of_ne {l m : Nat} {v : Bool} (hne : m ≠ l) (hp : ∀ l, p ≠ .release l)
    (h : Past m (p, { x with holds := update x.holds l v })) : x.holds m = true := by
  rcases h with hholds | hplace
  · dsimp only at hholds
    rwa [update_of_ne hne] at hholds
  · exact absurd hplace (hp m)

theorem setLock_self (d : Data) (l : Nat) (y : Sleeplock) : (d.setLock l y).locks l = y := update_self _ _ _

theorem setLock_of_ne (d : Data) {l m : Nat} (y : Sleeplock) (hne : m ≠ l) : (d.setLock l y).locks m = d.locks m :=
  update_of_ne hne _ _

theorem exclusive_lock (n : Nat) (pid : Fin n → Int) (m : Nat) :
    Exclusive (code n pid) (fun d => (d.locks m).locked = true) (fun x => x.holds m = true) (Past m) where
  call _ _ _ _ _ h hy := by
    cases call_begins h with
    | release hholds =>
      rcases hy with hy | hy
      · exact hy
      · cases hy
        exact hholds
    | acquire l | beginOp | endOp | finish hdone | logWrite => exact hy.resolve_right nofun
  free _ _ _ _ _ _ h := by
    obtain ⟨-, rfl, rfl⟩ := free_eq h
    exact .same id id
  goto _ _ d y _ _ _ h := by
    obtain ⟨p, x⟩ := y
    cases act_does h with
    | @take l hfree =>
      by_cases hne : m = l
      · subst hne
        refine ⟨fun _ => .inr ⟨?_, ?_⟩, fun _ => .inl ?_⟩
        · rw [hfree]
          nofun
        · rw [setLock_self]
        · rw [setLock_self]
      · refine .same (fun hb => .inl (hb.of_ne hne (by rintro _ ⟨⟩))) fun ht => ?_
        rwa [setLock_of_ne d _ hne]
    | @give l =>
      by_cases hne : m = l
      · subst hne
        refine ⟨fun hb => ?_, fun _ => .inr (.inr rfl)⟩
        rcases hb with hb | hb
        · dsimp only at hb
          rw [update_self] at hb
          cases hb
        · cases hb
      · refine .same (fun hb => .inl (hb.of_ne hne (by rintro _ ⟨⟩))) fun ht => ?_
        rwa [setLock_of_ne d _ hne]
    | enter | last | notLast | clear | log found => exact .same (fun hb => .inl (hb.resolve_right nofun)) id
  wake _ _ _ y _ _ _ h hy := by
    obtain ⟨p, x⟩ := y
    cases act_does h <;> exact .inl (hy.resolve_right nofun)
  sleep _ _ _ y _ _ _ h hy := by
    obtain ⟨p, x⟩ := y
    cases act_does h <;> exact hy
  leave _ _ _ y _ _ h hy := by
    obtain ⟨p, x⟩ := y
    cases act_does h <;> exact .inl hy

def Commits (y : Place × Ctx) : Prop := y.2.commit ≠ .none ∨ y.1 = .clear

theorem exclusive_commit (n : Nat) (pid : Fin n → Int) :
    Exclusive (code n pid) (fun d => d.committing = true) (fun x => x.commit ≠ .none) Commits where
  call _ _ _ _ _ h hy := by
    cases call_begins h with
    | finish hdone =>
      rw [hdone]
      nofun
    | acquire l | release hholds | beginOp | endOp | logWrite => exact hy.resolve_right nofun
  free _ _ _ _ _ _ h := by
    obtain ⟨hbusy, rfl, rfl⟩ := free_eq h
    refine .same (fun _ => ?_) id
    rw [hbusy]
    nofun
  goto _ _ _ y _ _ _ h := by
    obtain ⟨p, x⟩ := y
    cases act_does h with
    | last hidle =>
      refine ⟨fun _ => .inr ⟨?_, rfl⟩, fun _ => .inl rfl⟩
      rw [hidle]
      nofun
    | clear =>
      refine ⟨fun hb => ?_, fun _ => .inr (.inr rfl)⟩
      rcases hb with hb | hb
      · exact absurd rfl hb
      · cases hb
    | take hfree | give | enter hidle hroom | notLast | log found =>
      exact .same (fun hb => .inl (hb.resolve_right nofun)) id
  wake _ _ _ y _ _ _ h hy := by
    obtain ⟨p, x⟩ := y
    cases act_does h <;> exact .inl (hy.resolve_right nofun)
  sleep _ _ _ y _ _ _ h hy := by
    obtain ⟨p, x⟩ := y
    cases act_does h <;> exact hy
  leave _ _ _ y _ _ h hy := by
    obtain ⟨p, x⟩ := y
    cases act_does h <;> exact .inl hy

/-! ## Sleepers -/

/-- Why a process sleeps: the lock is taken; there is a commit, or no room in the log. -/
def Want : Obj → Data → Prop
  | .lock l, d => (d.locks l).locked = true
  | .log, d => d.committing = true ∨ d.crowded = true

def Owes (y : Place × Ctx) (c : Obj) : Prop := y.1 = .wakeLog ∧ c = .log ∨ ∃ l, y.1 = .wakeLock l ∧ c = .lock l

theorem crowded_log (h : d.crowded = true) (found : Bool) :
    ({ d with n := if found then d.n else d.n + 1 } : Data).crowded = true := by
  cases found with
  | true => exact h
  | false =>
    unfold Data.crowded at h ⊢
    rw [decide_eq_true_eq] at h ⊢
    dsimp only [Bool.false_eq_true, if_false]
    omega

/-- Who takes a reason to sleep away owes a wake-up. -/
theorem Does.want {p' : Place} {c : Obj}
    (h : Does pid d x p (.goto d' (p', x'))) (hc : Want c d) : Want c d' ∨ Owes (p', x') c := by
  cases h with
  | @take l hfree =>
    cases c with
    | lock m =>
      left
      by_cases hne : m = l
      · subst hne
        rw [Want, setLock_self]
      · rwa [Want, setLock_of_ne d _ hne]
    | log => exact .inl hc
  | @give l =>
    cases c with
    | lock m =>
      by_cases hne : m = l
      · exact .inr (.inr ⟨l, rfl, by rw [hne]⟩)
      · exact .inl (by rwa [Want, setLock_of_ne d _ hne])
    | log => exact .inl hc
  | enter hidle hroom =>
    cases c with
    | lock m => exact .inl hc
    | log =>
      rcases hc with hcommitting | hcrowded
      · rw [hidle] at hcommitting
        cases hcommitting
      · rw [hroom] at hcrowded
        cases hcrowded
  | last hidle =>
    cases c with
    | lock m => exact .inl hc
    | log => exact .inl (.inl rfl)
  | notLast | clear =>
    cases c with
    | lock m => exact .inl hc
    | log => exact .inr (.inl ⟨rfl, rfl⟩)
  | log found =>
    cases c with
    | lock m => exact .inl hc
    | log =>
      rcases hc with hcommitting | hcrowded
      · exact .inl (.inl hcommitting)
      · exact .inl (.inr (crowded_log hcrowded found))

theorem sound (n : Nat) (pid : Fin n → Int) :
    Sound (code n pid) (fun x d => x.commit ≠ .none → d.committing = true) (fun _ _ => True) Want Owes id where
  annotated := Lib.Monitor.annotated_trivial _
  debt y c h := by
    obtain ⟨p, x⟩ := y
    rcases h with ⟨rfl, rfl⟩ | ⟨l, rfl, rfl⟩
    · rfl
    · rfl
  goto _ _ _ y _ _ y' h c hc := by
    obtain ⟨p, x⟩ := y
    have hdoes := act_does h
    rcases hc with hwant | howes
    · exact hdoes.want hwant
    · -- the places that owe something change nothing
      rcases howes with ⟨rfl, -⟩ | ⟨l, rfl, -⟩
      · cases hdoes
      · cases hdoes
  wake _ _ _ y _ _ _ h := by
    obtain ⟨p, x⟩ := y
    cases act_does h with
    | wakeLock =>
      refine ⟨rfl, fun c hc => ?_⟩
      rcases hc with ⟨hp, -⟩ | ⟨l, hp, rfl⟩
      · cases hp
      · cases hp
        exact .inl rfl
    | wakeLog =>
      refine ⟨rfl, fun c hc => ?_⟩
      rcases hc with ⟨-, rfl⟩ | ⟨l, hp, -⟩
      · exact .inl rfl
      · cases hp
  sleep _ _ _ y _ _ _ h := by
    obtain ⟨p, x⟩ := y
    cases act_does h with
    | wait hlocked =>
      refine ⟨rfl, fun _ => hlocked, fun c hc => ?_⟩
      rcases hc with ⟨hp, -⟩ | ⟨l, hp, -⟩ <;> cases hp
    | queue hwhy =>
      refine ⟨rfl, fun _ => hwhy, fun c hc => ?_⟩
      rcases hc with ⟨hp, -⟩ | ⟨l, hp, -⟩ <;> cases hp
  free _ _ _ _ _ _ h hx c hc := by
    obtain ⟨hbusy, rfl, rfl⟩ := free_eq h
    cases c with
    | lock l => exact hc
    | log => exact .inl (hx (by rw [hbusy]; nofun))

/-- Nobody leaves a section before it has woken whom it must. -/
theorem paid {n : Nat} {pid : Fin n → Int} {s : State n} {e : Event n} : Paid (code n pid) Owes s e := by
  cases e with
  | act p i =>
    rintro ⟨l, x⟩ x' hpc ha c howes q
    cases act_does ha with
    | lockDone | logDone => rcases howes with ⟨hp, -⟩ | ⟨l, hp, -⟩ <;> cases hp
  | _ => trivial

/-- **Sleep locks and admission to the log.** One process at most is past `acquiresleep` and before `releasesleep` of a
lock; nobody sleeps on a free lock, or on the log without a commit and with room for one more operation. -/
theorem sleep_exclusive_and_woken {n : Nat} {pid : Fin n → Int} {size : Int} {s : State n}
    (h : Reach (step n pid) (fun _ _ => True) (start n size) s) :
    (∀ l p q, (s.pc p).Claims (fun x => x.holds l = true) (Past l) →
      (s.pc q).Claims (fun x => x.holds l = true) (Past l) → p = q) ∧
    (∀ l p, s.lock (.lock l) = none → (s.data.locks l).locked = false → (s.pc p).sleepsOn ≠ some (.lock l)) ∧
    (∀ p, s.lock .log = none → s.data.committing = false →
      s.data.n + (s.data.outstanding + 1) * MAXOPBLOCKS ≤ LOGSIZE → (s.pc p).sleepsOn ≠ some .log) := by
  have hcommit : ∀ t, Reach (step n pid) (fun _ _ => True) (start n size) t → ∀ p x, t.pc p = .out x →
      x.commit ≠ .none → t.data.committing = true := by
    intro t ht p x hx hne
    have h0 : ∀ q, ¬ ((start n size).pc q).Claims (fun x => x.commit ≠ .none) Commits := fun _ hq => hq rfl
    have hsole := Lib.Monitor.sole_run (exclusive_commit n pid) h0 ht
    exact hsole.taken p (by rw [hx]; exact hne)
  have hwant : ∀ c p, s.lock c = none → (s.pc p).sleepsOn = some c → Want c s.data := fun c p hlock hp =>
    Lib.Monitor.want_of_asleep (sound n pid) List.mem_finRange (fun _ _ _ => paid) hcommit
      (start_initial n size) h hp hlock
  refine ⟨fun l p q hp hq => ?_, fun l p hlock hfree hp => ?_, fun p hlock hidle hroom hp => ?_⟩
  · have h0 : ∀ q, ¬ ((start n size).pc q).Claims (fun x => x.holds l = true) (Past l) :=
      fun _ hq => by cases hq
    exact (Lib.Monitor.sole_run (exclusive_lock n pid l) h0 h).unique p q hp hq
  · have hlocked := hwant (.lock l) p hlock hp
    rw [Want, hfree] at hlocked
    cases hlocked
  rcases hwant .log p hlock hp with hcommitting | hcrowded
  · rw [hidle] at hcommitting
    cases hcommitting
  · rw [Data.crowded, decide_eq_true_eq] at hcrowded
    omega

def owner : Fin 2 := ⟨0, Nat.two_pos⟩

def waiter : Fin 2 := ⟨1, Nat.one_lt_two⟩

/-- One process takes lock 3, and the other goes to sleep on it. -/
def contention : List (Event 2) :=
  [.call owner (.acquiresleep 3), .acquire owner, .act owner .commit, .act owner .commit,
    .call waiter (.acquiresleep 3), .acquire waiter, .act waiter .commit, .plock waiter, .unlock waiter,
    .park waiter]

theorem sleep_exclusive_and_woken_contention : ∃ s : State 2,
    (s.pc waiter).sleepsOn = some (.lock 3) ∧ s.lock (.lock 3) = none ∧ (s.data.locks 3).locked = true := by
  obtain ⟨s, hs, hcheck⟩ := Reach.of_any (step 2 fun p => p.val + 1) (fun _ _ => True) (start 2 30)
    contention (fun s => (s.pc waiter).sleepsOn == some (.lock 3) && s.lock (.lock 3) == none)
    (by decide)
  rw [Bool.and_eq_true, beq_iff_eq, beq_iff_eq] at hcheck
  refine ⟨s, hcheck.1, hcheck.2, Bool.eq_true_of_not_eq_false fun hfree => ?_⟩
  exact (sleep_exclusive_and_woken hs).2.1 3 waiter hcheck.2 hfree hcheck.1

end Xv6.Kernel.Sleep
