/-
# Xv6.Kernel.Sections — the machine cut where the code holds no lock.

`step` (`Xv6.Kernel.Machine`) takes a visit of the scheduler to a container, and a `fork`, as one section each.
The code does not: `scheduler()` tests `cont->state`, then reads `cont->nextproctorun`, then acquires `p->lock`,
and `fork` releases the lock of the child before `updatecontproc` counts it.  Here these are sections of their
own, and the sections of other CPUs may come between them.

A run in which none does (`Keeps`) is a run of `step`.  What is shown of the tables for the machine of whole visits
and whole forks holds of this one under that condition, and the condition is part of the results.
-/
import Xv6.Kernel.Machine
import Xv6.Lib.Trace

namespace Xv6.Kernel

open Option (bind_eq_some_iff map_eq_some_iff)
open Function

/-- Where the scheduler of a CPU is inside a visit. -/
inductive Visit
  | out
  /-- `cont->state` was `CRUNNABLE`. -/
  | served (c : Cid)
  /-- `p` is what was read from `cont->nextproctorun`. -/
  | picked (c : Cid) (p : Slot)
  deriving DecidableEq

/-- The machine between two sections. -/
structure Fine where
  base : State
  visit : Fin NCPU → Visit
  /-- The child that the process in a slot has made `RUNNABLE` and not counted yet. -/
  owed : Slot → Option Slot

/-- The sections: the three of a visit, the end of a `fork`, and the events of `step` other than a visit, of which
a `fork` ends with `release(&np->lock)`. -/
inductive Section
  | look (k : Fin NCPU)
  | pick (k : Fin NCPU)
  | take (k : Fin NCPU)
  | count (k : Fin NCPU)
  | event (e : Event)
  deriving DecidableEq

/-- What `fork` is called with, when the event is a call that comes to it. -/
def Event.forks (s : State) : Event → Option (Fin NCPU × Option Cid)
  | .call k x => do
    let p ← trap k s
    if (s.proc p).killed then none
    else
      match x with
      | .fork => some (k, none)
      | .cfork name => (name2cont name s).map fun c => (k, some c)
      | _ => none
  | _ => none

namespace Fine

/-- The CPU of the event has something else to do: its scheduler goes in sections, and a process that owes a count can
only be preempted. -/
def busy (f : Fine) : Event → Bool
  | .sched _ => true
  | .call k _ | .sleep k _ | .kalloc k | .kfree k | .balloc k | .bfree k | .image k _ _ _ =>
    ((f.base.myproc k).bind f.owed).isSome
  | .yield _ | .wakeup _ | .clockintr => false

def leaves (f : Fine) (k : Fin NCPU) (s : State) : Fine := { f with base := s, visit := update f.visit k .out }

/-- A `fork` on CPU `k` has come to `release(&np->lock)`; a slot that is handed out owes nothing. -/
def forked (f : Fine) (k : Fin NCPU) (s : State) : Option Slot → Fine
  | none => { f with base := s }
  | some np => { f with base := s, owed := fun q => if f.base.myproc k = some q then some np else update f.owed np none q }

def step (f : Fine) : Section → Option Fine
  | .look k =>
    if f.visit k ≠ .out then none
    else
      match (f.base.cpus k).mode, cid2cont (f.base.cpus k).i f.base with
      | .idle, some c =>
        if (f.base.cont c).state ≠ .crunnable then some { f with base := nextIter k f.base }
        else some { f with visit := update f.visit k (.served c) }
      | _, _ => (sched k f.base).map ({ f with base := · })
  | .pick k =>
    match f.visit k with
    | .served c =>
      match (f.base.cont c).nextproctorun with
      | none => (getnextproc NPROC c f.base).map fun s => f.leaves k (nextIter k s)
      | some p => some { f with visit := update f.visit k (.picked c p) }
    | _ => none
  | .take k =>
    match f.visit k with
    | .picked c p => (switchTo k c p f.base).map (f.leaves k)
    | _ => none
  | .count k => do
    let p ← f.base.myproc k
    let np ← f.owed p
    return { f with base := countChild np f.base, owed := update f.owed p none }
  | .event e =>
    if f.busy e then none
    else
      match e.forks f.base with
      | none => (Kernel.step f.base e).map ({ f with base := · })
      | some (k, c) => (beginFork k c f.base).map fun r => f.forked k r.1 r.2.2

/-- After boot no visit and no `fork` is under way. -/
def boot (free : Nat) : Fine := ⟨Kernel.boot free, fun _ => .out, fun _ => none⟩

/-- Nothing comes between the sections of a visit, nor between those of a `fork`. -/
def Uninterrupted (f : Fine) (a : Section) : Prop :=
  (∀ k, f.visit k ≠ .out → a = .pick k ∨ a = .take k) ∧
    ∀ p, f.owed p ≠ none → ∃ k, a = .count k ∧ f.base.myproc k = some p
deriving Decidable

end Fine

/-- The event of `step` that begins with the section meets `ok`. -/
def Section.Begins (ok : State → Event → Prop) (s : State) : Section → Prop
  | .look k => ok s (.sched k)
  | .event e => ok s e
  | _ => True

/-- Visits and forks are not interrupted, and each event meets `ok` where it begins. -/
def Keeps (ok : State → Event → Prop) (f : Fine) (a : Section) : Prop := f.Uninterrupted a ∧ a.Begins ok f.base

instance {ok : State → Event → Prop} [∀ s e, Decidable (ok s e)] (f : Fine) (a : Section) : Decidable (Keeps ok f a) := by
  unfold Keeps Section.Begins
  split <;> infer_instance

/-- The count leaves the CPUs and the containers of processes alone, and takes no slot and no container into use. -/
theorem countChild_keeps (np : Slot) (s : State) : (countChild np s).cpus = s.cpus ∧
    (∀ p, (((countChild np s).proc p).state = .unused ↔ (s.proc p).state = .unused) ∧
      ((countChild np s).proc p).cont = (s.proc p).cont) ∧
      ∀ c, ((countChild np s).cont c).state ≠ .cunused → (s.cont c).state ≠ .cunused := by
  unfold countChild updatecontproc liftCont
  cases (s.proc np).cont with
  | none => simp
  | some c =>
    have hstate : ((s.cont c).updateproc 1).1.state = (s.cont c).state := by
      unfold Container.updateproc
      split_ifs <;> rfl
    have hkept : ∀ d, ((s.setCont c ((s.cont c).updateproc 1).1).cont d).state = (s.cont d).state := by
      intro d
      by_cases hd : d = c
      · subst hd
        simpa using hstate
      · simp [hd]
    dsimp only
    split_ifs
    · refine ⟨?_, fun p => ?_, fun d hd => ?_⟩
      · unfold climitexceedhandler
        split_ifs <;> rfl
      · unfold climitexceedhandler
        split_ifs
        · exact ⟨.rfl, rfl⟩
        · exact ⟨.rfl, rfl⟩
        · simp only [freecontainer, stopprocforcontainer, State.setCont_proc]
          split
          · exact ⟨by grind [Proc.kill], rfl⟩
          · exact ⟨.rfl, rfl⟩
      · rw [← hkept d]
        intro hu
        apply hd
        rw [climitexceedhandler_cont]
        by_cases hdc : d = c
        · subst hdc
          rw [Function.update_self, Container.exceeded, if_pos (.inr hu), hu]
        · rw [Function.update_of_ne hdc, hu]
    · exact ⟨rfl, fun _ => ⟨.rfl, rfl⟩, fun d hd => hkept d ▸ hd⟩

/-! ## An uninterrupted run is a run of whole events -/

variable {ok : State → Event → Prop} {s0 s s' : State} {f f' : Fine} {a : Section} {e : Event} {k : Fin NCPU} {o : Option Cid}

theorem Event.forks_step (h : e.forks s = some (k, o)) : step s e = (fork k o s).map (·.1) := by
  unfold Event.forks at h
  split at h
  · rename_i j x
    obtain ⟨p, hp, h⟩ := bind_eq_some_iff.mp h
    split at h
    · cases h
    rename_i hkilled
    have hcall : step s (.call j x) = syscall j x s := by simp [step, usertrap, hp, hkilled]
    split at h
    · cases h
      exact hcall
    · obtain ⟨c, hc, h⟩ := map_eq_some_iff.mp h
      cases h
      rw [hcall]
      simp [syscall, kcfork, hc]
    · cases h
  · cases h

/-- CPU `k` is where its scheduler has found `c` to be `CRUNNABLE`, and nothing has happened since. -/
def State.Serving (ok : State → Event → Prop) (s : State) (k : Fin NCPU) (c : Cid) : Prop :=
  (s.cpus k).mode = .idle ∧ cid2cont (s.cpus k).i s = some c ∧ (s.cont c).state = .crunnable ∧ ok s (.sched k)

def State.InVisit (ok : State → Event → Prop) (s : State) (k : Fin NCPU) : Visit → Prop
  | .out => True
  | .served c => s.Serving ok k c
  | .picked c p => s.Serving ok k c ∧ (s.cont c).nextproctorun = some p

/-- A run of whole events from `s0` has come to the tables of `f`, or will when the `fork` under
way is counted. -/
inductive Follows (ok : State → Event → Prop) (s0 : State) (f : Fine) : Prop
  | whole (h : Lib.Reach step ok s0 f.base) (howed : ∀ p, f.owed p = none)
      (hvisit : ∀ k, f.base.InVisit ok k (f.visit k))
  | forking {s : State} {e : Event} {p np : Slot} (h : Lib.Reach step ok s0 s) (hok : ok s e)
      (hs : step s e = some (countChild np f.base)) (hp : f.owed p = some np) (hrest : ∀ q, q ≠ p → f.owed q = none)
      (hvisit : ∀ k, f.visit k = .out)

theorem inVisit_update {v : Fin NCPU → Visit} {x : Visit} (hout : ∀ j, j ≠ k → v j = .out) (hx : s.InVisit ok k x)
    (j : Fin NCPU) : s.InVisit ok j (update v k x j) := by
  by_cases hj : j = k
  · subst hj
    simpa using hx
  · rw [update_of_ne hj, hout j hj]
    trivial

theorem Fine.Uninterrupted.out (h : f.Uninterrupted a) (hpick : a ≠ .pick k) (htake : a ≠ .take k) : f.visit k = .out := by
  by_contra hk
  exact (h.1 k hk).elim hpick htake

theorem Follows.of_step {t : State} (h : Lib.Reach step ok s0 f.base) (howed : ∀ p, f.owed p = none)
    (hout : ∀ k, f.visit k = .out) (hok : ok f.base e) (hs : step f.base e = some t) :
    Follows ok s0 { f with base := t } := by
  refine .whole (h.next hok hs) howed fun k => ?_
  show t.InVisit ok k (f.visit k)
  rw [hout k]
  trivial

theorem Follows.step (h : Follows ok s0 f) (hok : Keeps ok f a) (hs : f.step a = some f') : Follows ok s0 f' := by
  obtain ⟨hun, hbegins⟩ := hok
  cases h with
  | @forking s e p np h hok hs' hp hrest hvisit =>
    -- the process that owes the count makes it
    obtain ⟨k, rfl, hk⟩ := hun.2 p (by simp [hp])
    have hf' : f' = { f with base := countChild np f.base, owed := update f.owed p none } := by
      simpa [Fine.step, hk, hp, eq_comm] using hs
    subst hf'
    refine .whole (h.next hok hs') (fun q => ?_) fun j => ?_
    · by_cases hq : q = p <;> simp [hq, hrest]
    · show State.InVisit ok _ j (f.visit j)
      rw [hvisit j]
      trivial
  | whole h howed hvisit =>
    cases a with
    | look k =>
      have hout : ∀ j, f.visit j = .out := fun j => hun.out (by simp) (by simp)
      have hsched : ∀ t, sched k f.base = some t → Follows ok s0 { f with base := t } := fun t ht =>
        .of_step h howed hout hbegins ht
      simp only [Fine.step, hout k, ne_eq, not_true_eq_false, if_false] at hs
      split at hs
      · rename_i c hmode hc
        split at hs <;> rename_i hstate <;> cases hs
        · exact hsched _ (by simp [sched, hmode, hc, hstate])
        · exact .whole h howed (inVisit_update (fun j _ => hout j) ⟨hmode, hc, not_not.mp hstate, hbegins⟩)
      · obtain ⟨t, ht, rfl⟩ := map_eq_some_iff.mp hs
        exact hsched t ht
    | pick k =>
      have hout : ∀ j, j ≠ k → f.visit j = .out := fun j hj => hun.out (by simp [hj.symm]) (by simp)
      have hk := hvisit k
      simp only [Fine.step] at hs
      split at hs
      · rename_i c hc
        rw [hc] at hk
        split at hs
        · rename_i hnext
          obtain ⟨t, ht, rfl⟩ := map_eq_some_iff.mp hs
          refine .whole (h.next hk.2.2.2 ?_) howed (inVisit_update hout trivial)
          show sched k f.base = some (nextIter k t)
          simp [sched, hk.1, hk.2.1, hk.2.2.1, hnext, ht]
        · rename_i p hnext
          cases hs
          exact .whole h howed (inVisit_update hout ⟨hk, hnext⟩)
      · cases hs
    | take k =>
      have hout : ∀ j, j ≠ k → f.visit j = .out := fun j hj => hun.out (by simp) (by simp [hj.symm])
      have hk := hvisit k
      simp only [Fine.step] at hs
      split at hs
      · rename_i c p hc
        rw [hc] at hk
        obtain ⟨⟨hmode, hcid, hstate, hok⟩, hnext⟩ := hk
        obtain ⟨t, ht, rfl⟩ := map_eq_some_iff.mp hs
        refine .whole (h.next hok ?_) howed (inVisit_update hout trivial)
        show sched k f.base = some t
        simp [sched, hmode, hcid, hstate, hnext, ht]
      · cases hs
    | count k =>
      obtain ⟨p, hp, hs⟩ := bind_eq_some_iff.mp hs
      simp [howed] at hs
    | event e =>
      have hout : ∀ j, f.visit j = .out := fun j => hun.out (by simp) (by simp)
      simp only [Fine.step] at hs
      split at hs
      · cases hs
      split at hs
      · obtain ⟨t, ht, rfl⟩ := map_eq_some_iff.mp hs
        exact .of_step h howed hout hbegins ht
      rename_i k o hforks
      obtain ⟨⟨t, pid, child⟩, ht, rfl⟩ := map_eq_some_iff.mp hs
      have hstep : Kernel.step f.base e = some (child.elim t (countChild · t)) := by
        simp [Event.forks_step hforks, fork, ht]
      cases child with
      | none => exact .of_step h howed hout hbegins hstep
      | some np =>
        obtain ⟨p, hp, -⟩ := bind_eq_some_iff.mp ht
        refine .forking (p := p) h hbegins hstep ?_ (fun q hq => ?_) hout
        · simp [Fine.forked, hp]
        · simp [Fine.forked, hp, hq.symm, update_apply, howed]

/-- **The simulation.** -/
theorem follows {free : Nat} (h : Lib.Reach Fine.step (Keeps ok) (Fine.boot free) f) : Follows ok (boot free) f :=
  Lib.Reach.invariant (.whole (f := Fine.boot free) .refl (fun _ => rfl) fun _ => trivial) (fun _ _ _ hf hok hs => hf.step hok hs) h

end Xv6.Kernel
