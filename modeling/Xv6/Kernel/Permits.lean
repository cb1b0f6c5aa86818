/-
# Xv6.Kernel.Permits — which acts an event can consist of.

`Permits s e v a` says that the event `e`, performed in `s`, may contain the act `a` in view `v`: what
a result about runs assumes about its events reaches the acts through it.  The limits stand on their
own (`WithinLimits`): they are a condition on the state before the event, in terms of what the event
will ask for.
-/
import Xv6.Kernel.Charges

namespace Xv6.Kernel

/-! ## What an event may do -/

/-- The container has room for one more process, or is never torn down for want of it. -/
def Container.RoomProc (c : Container) : Prop := c.isroot ≠ 0 ∨ c.state = .cunused ∨ c.usedProc + 1 ≤ c.maxProc
deriving Decidable

/-- A `fork` into `c` by the process current on CPU `k` stays within the limits: the pages of the
copy fit into the caller's container and the child into `c`. -/
def FitsFork (k : Fin NCPU) (c : Option Cid) (s : State) : Prop :=
  (∀ p, s.myproc k = some p → FitsMem k (forkPages (s.proc p).sz) s) ∧ ∀ d, c = some d → (s.cont d).RoomProc
deriving Decidable

/-- No limit of a container stands in the way of `e`. -/
def WithinLimits (s : State) : Event → Prop
  | .kalloc k => FitsMem k 1 s
  | .balloc k => FitsDsk k 1 s
  | .call k .fork => FitsFork k (s.mycont k) s
  | .call k (.cfork name) => FitsFork k (name2cont name s) s
  | .call k (.suspend _ blocks) => FitsDsk k blocks s
  | _ => True

instance (s : State) (e : Event) : Decidable (WithinLimits s e) := by
  unfold WithinLimits
  split <;> infer_instance

def State.Current (s : State) (p : Slot) : Prop := ∃ k, s.myproc k = some p
deriving Decidable

/-- A `suspend` names a process that is asleep, runnable or suspended already
and on no CPU, and a `cstop` that goes through finds no zombie and no process on a CPU in the
container. -/
def SparesSlots (s : State) : Event → Prop
  | .call _ (.suspend pid _) => ∀ p, (s.proc p).pid = pid →
      (s.proc p).state ≠ .unused ∧ (s.proc p).state ≠ .zombie ∧ ¬ s.Current p
  | .call _ (.cstop name) => ∀ c, name2cont name s = some c → (s.cont c).isroot = 0 →
      (s.cont c).state = .crunnable ∨ (s.cont c).state = .cpaused →
      ∀ p, (s.proc p).cont = some c → (s.proc p).state ≠ .zombie ∧ ¬ s.Current p
  | _ => True

instance (s : State) (e : Event) : Decidable (SparesSlots s e) := by
  unfold SparesSlots
  split <;> infer_instance

/-- A `suspend` names no process on a CPU, and a `cstop` that goes through finds
none in the container. -/
def SparesCurrent (s : State) : Event → Prop
  | .call _ (.suspend pid _) => ∀ p, (s.proc p).pid = pid → ¬ s.Current p
  | .call _ (.cstop name) => ∀ c, name2cont name s = some c → (s.cont c).isroot = 0 →
      (s.cont c).state = .crunnable ∨ (s.cont c).state = .cpaused →
      ∀ p, (s.proc p).cont = some c → ¬ s.Current p
  | _ => True

instance (s : State) (e : Event) : Decidable (SparesCurrent s e) := by
  unfold SparesCurrent
  split <;> infer_instance

def reaped (k : Fin NCPU) (s : State) : Option Slot :=
  (s.myproc k).bind fun p =>
    Fin.find? fun np => (s.proc np).parent == some p && (s.proc np).state == .zombie

/-- The event forks into container `c`: a live process of `c` forks, or someone names `c`. -/
def ForksInto (s : State) (e : Event) (c : Cid) : Prop :=
  (∃ k p, e = .call k .fork ∧ s.myproc k = some p ∧ (s.proc p).state ≠ .unused ∧ (s.proc p).cont = some c) ∨
    ∃ k name, e = .call k (.cfork name) ∧ name2cont name s = some c

/-- The event `e`, performed in `s`, may contain the act `a` in view `v`. -/
def Permits (s : State) (e : Event) (v : View) : Act → Prop
  | .suspend p => v = s.view none ∧ ∃ k pid n, e = .call k (.suspend pid n) ∧ (s.proc p).pid = pid
  | .claim p c => v = s.view none ∧ freeSlot s = some p ∧ ForksInto s e c
  | .forfeit _ => ¬ WithinLimits s e
  | .teardown _ => ¬ WithinLimits s e
  | .stray _ c => ¬ WithinLimits s e ∨ (s.cont c).isroot ≠ 0
  | .reap p => v = s.view none ∧ ∃ k, e = .call k (.wait false) ∧ reaped k s = some p
  | .create _ name => v = s.view none ∧ ∃ k dir, e = .call k (.ccreate name dir)
  | .recycle _ => v = s.view none ∧ ∃ k name dir, e = .call k (.ccreate name dir)
  | .start c => v = s.view none ∧ ∃ k name vc n, e = .call k (.cstart name vc n) ∧ name2cont name s = some c
  | .pause c => v = s.view none ∧ ∃ k name, e = .call k (.cpause name) ∧ name2cont name s = some c
  | .resume c => v = s.view none ∧ ∃ k name, e = .call k (.cresume name) ∧ name2cont name s = some c
  | .stop c => v = s.view none ∧ ∃ k name, e = .call k (.cstop name) ∧ name2cont name s = some c
  | .limit _ => ∃ k name n, e = .call k (.setmaxcproc name n)
  | .dispatch k _ _ => v = s.view none ∧ e = .sched k
  | .idle k => e = .sched k
  | .leave k p x => s.myproc k = some p ∧ (s.proc p).state ≠ .unused ∧
      (x = .zombie → p ≠ s.initproc ∧ ∃ y, e = .call k y)
  | .lapse k p => s.myproc k = some p ∧ (s.proc p).state = .unused ∧ ∃ chan, e = .sleep k chan
  | _ => True

end Xv6.Kernel
