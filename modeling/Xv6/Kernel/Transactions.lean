/-
# Xv6.Kernel.Transactions — processes inside file-system transactions (`log.c`, `sleeplock.c`), and the
calls that stop processes from outside.

That a process is between `begin_op` and `end_op`, or holds a sleep lock, is recorded nowhere in the
process table: it is where the process is in the kernel's code.  `cpause`, `cstop` and `suspend` look
at the table only.  `TxState` puts the two next to each other: the machine of `Xv6.Kernel.Machine`, the
log's admission counter, the sleep locks, and for each slot the phase its process is in.

A process inside a transaction goes on in the kernel until `end_op`: it makes no other system call.
(`kresume` returns to user space without its `end_op` when it succeeds; its section is not one of
those below.)
-/
import Xv6.Kernel.LifeCycle
import Xv6.Lib.Count
import Xv6.Fs.Log

namespace Xv6.Kernel

open Fs (Gate BlockNo LOGSIZE NBUF)
open Function Option

/-! ## The machine with its transactions -/

/-- The sleep locks: one for each buffer and one for each cached inode. -/
abbrev LockId := Fin (NBUF + NINODE)

/-- Where a process is with respect to its transaction. -/
inductive Phase
  | out
  /-- Between `begin_op` and the decrement in `end_op`. -/
  | inside
  /-- In `end_op`, committing. -/
  | committing
  deriving DecidableEq

/-- `struct sleeplock`, and the slot whose process took it (the code knows the pid only). -/
structure SleepLock where
  locked : Bool
  pid : Int
  holder : Option Slot

structure TxState where
  sys : State
  gate : Gate
  /-- The blocks of `log.lh`. -/
  lh : List BlockNo
  /-- `log.size`. -/
  size : Nat
  phase : Slot → Phase
  locks : LockId → SleepLock

inductive TxEvent
  /-- An event of the process and container tables. -/
  | sys (e : Event)
  | beginOp (k : Fin NCPU)
  | logWrite (k : Fin NCPU) (b : BlockNo)
  | endOp (k : Fin NCPU)
  /-- `commit` is done and `end_op` goes on. -/
  | commitDone (k : Fin NCPU)
  | acquiresleep (k : Fin NCPU) (l : LockId)
  | releasesleep (k : Fin NCPU) (l : LockId)

namespace TxState

/-- The process in slot `p` is in a transaction or holds a sleep lock. -/
def Busy (t : TxState) (p : Slot) : Prop := t.phase p ≠ .out ∨ ∃ l, (t.locks l).holder = some p
deriving Decidable

/-- A slot that is taken again holds a new process, which is outside. -/
def Reborn (s s' : State) (p : Slot) : Prop := (s.proc p).state = .unused ∧ (s'.proc p).state ≠ .unused
deriving Decidable

/-- The tables move to `s'`.  What the former process of a slot had locked stays locked. -/
def move (t : TxState) (s' : State) : TxState :=
  { t with
    sys := s'
    phase := fun p => if Reborn t.sys s' p then .out else t.phase p
    locks := fun l =>
      { t.locks l with holder := (t.locks l).holder.filter fun p => ¬ Reborn t.sys s' p } }

/-- `begin_op()` by the process current on CPU `k`: admitted, or asleep on the log. -/
def beginOp (k : Fin NCPU) (t : TxState) : Option TxState := do
  let p ← t.sys.myproc k
  if t.phase p ≠ .out then none
  else
    match t.gate.beginOp t.lh.length with
    | none => (sleepOn k .log t.sys).map ({ t with sys := · })
    | some gate => some { t with gate := gate, phase := update t.phase p .inside }

def logWrite (k : Fin NCPU) (b : BlockNo) (t : TxState) : Option TxState := do
  let p ← t.sys.myproc k
  if t.phase p ≠ .inside then none
  else if t.lh.length ≥ LOGSIZE ∨ (t.lh.length : Int) ≥ t.size - 1 then none
  else if t.gate.outstanding < 1 then none
  else some (if b ∈ t.lh then t else { t with lh := t.lh ++ [b] })

/-- `end_op()`, up to the call of `commit`. -/
def endOp (k : Fin NCPU) (t : TxState) : Option TxState := do
  let p ← t.sys.myproc k
  if t.phase p ≠ .inside then none
  else
    t.gate.endOp.map fun (gate, commit) =>
      if commit then { t with gate := gate, phase := update t.phase p .committing }
      else { t with gate := gate, phase := update t.phase p .out, sys := wakeup .log t.sys }

/-- `end_op()` after the call of `commit`, which has emptied the log. -/
def commitDone (k : Fin NCPU) (t : TxState) : Option TxState := do
  let p ← t.sys.myproc k
  if t.phase p ≠ .committing then none
  else some { t with
    gate := { t.gate with committing := false }, lh := [], phase := update t.phase p .out
    sys := wakeup .log t.sys }

/-- `acquiresleep(lk)`: taken, or asleep on the lock. -/
def acquiresleep (k : Fin NCPU) (l : LockId) (t : TxState) : Option TxState := do
  let p ← t.sys.myproc k
  if (t.locks l).locked then (sleepOn k (.lock l) t.sys).map ({ t with sys := · })
  else some { t with locks := update t.locks l ⟨true, (t.sys.proc p).pid, some p⟩ }

def holdingsleep (p : Slot) (l : LockId) (t : TxState) : Bool :=
  (t.locks l).locked && (t.locks l).pid == (t.sys.proc p).pid

/-- `releasesleep(lk)`; its callers panic on a lock that is not theirs. -/
def releasesleep (k : Fin NCPU) (l : LockId) (t : TxState) : Option TxState := do
  let p ← t.sys.myproc k
  if !t.holdingsleep p l then none
  else some { t with locks := update t.locks l ⟨false, 0, none⟩, sys := wakeup (.lock l) t.sys }

/-- The event is a system call of a process that is in the middle of something else. -/
def Interrupts (t : TxState) : Event → Prop
  | .call k _ => ∃ p, t.sys.myproc k = some p ∧ t.Busy p
  | _ => False

instance (t : TxState) (e : Event) : Decidable (t.Interrupts e) := by
  unfold Interrupts
  split <;> infer_instance

def step (t : TxState) : TxEvent → Option TxState
  | .sys e => if t.Interrupts e then none else (Kernel.step t.sys e).map t.move
  | .beginOp k => t.beginOp k
  | .logWrite k b => t.logWrite k b
  | .endOp k => t.endOp k
  | .commitDone k => t.commitDone k
  | .acquiresleep k l => t.acquiresleep k l
  | .releasesleep k l => t.releasesleep k l

/-- After boot and recovery, with a log of `size` blocks. -/
def boot (free size : Nat) : TxState where
  sys := Kernel.boot free
  gate := ⟨0, false⟩
  lh := []
  size := size
  phase _ := .out
  locks _ := ⟨false, 0, none⟩

end TxState

/-! ## Safe states and gentle events -/

/-- The states from which a process goes on by itself. -/
def ProcState.Resumable (x : ProcState) : Prop := x = .sleeping ∨ x = .runnable ∨ x = .running
deriving Decidable

/-- No process in a transaction or with a sleep lock is `SUSPENDED` or `UNUSED`, and `log.outstanding` counts the live,
resumable processes inside a transaction. -/
def TxSafe (t : TxState) : Prop :=
  (∀ p, t.Busy p → (t.sys.proc p).state ≠ .suspended ∧ (t.sys.proc p).state ≠ .unused) ∧
    t.gate.outstanding =
      Lib.count (fun x : Phase × ProcState => x.1 = .inside ∧ x.2.Resumable)
        fun p => (t.phase p, (t.sys.proc p).state)
deriving Decidable

def Container.Stoppable (c : Container) : Prop := c.isroot = 0 ∧ (c.state = .crunnable ∨ c.state = .cpaused)
deriving Decidable

/-- The event stops no process that is busy: `cpause` finds no such process asleep
or runnable in the container, `suspend` and `cstop` meet neither such a process nor one that is
current on a CPU (and may begin a transaction next). -/
def Gentle (t : TxState) : TxEvent → Prop
  | .sys (.call _ (.suspend pid _)) =>
    ∀ p, (t.sys.proc p).pid = pid → ¬ t.Busy p ∧ ∀ k, t.sys.myproc k ≠ some p
  | .sys (.call _ (.cpause name)) =>
    ∀ c, name2cont name t.sys = some c → (t.sys.cont c).Stoppable →
      ∀ p, (t.sys.proc p).cont = some c →
        (t.sys.proc p).state = .sleeping ∨ (t.sys.proc p).state = .runnable → ¬ t.Busy p
  | .sys (.call _ (.cstop name)) =>
    ∀ c, name2cont name t.sys = some c → (t.sys.cont c).Stoppable →
      ∀ p, (t.sys.proc p).cont = some c → ¬ t.Busy p ∧ ∀ k, t.sys.myproc k ≠ some p
  | _ => True

instance (t : TxState) (e : TxEvent) : Decidable (Gentle t e) := by
  unfold Gentle
  split <;> infer_instance

/-! ## What the acts keep -/

/-- The process current on a CPU is `RUNNING` and current on no other CPU,
and busy processes are resumable. -/
structure Undisturbed (busy : Slot → Prop) (v : View) : Prop where
  running : ∀ k p c start, v.mode k = .run p c start → (v.proc p).state = .running
  alone : ∀ k j p c d i i', v.mode k = .run p c i → v.mode j = .run p d i' → k = j
  resumable : ∀ p, busy p → (v.proc p).state.Resumable

/-- What an act must not do to the busy processes of `v`. -/
def Spares (busy : Slot → Prop) (v : View) : Act → Prop
  | .suspend p => ¬ busy p ∧ ∀ k c start, v.mode k ≠ .run p c start
  | .pause c => ∀ p, (v.proc p).cont = some c →
      (v.proc p).state = .sleeping ∨ (v.proc p).state = .runnable → ¬ busy p
  | .stop c => ∀ p, (v.proc p).cont = some c → ¬ busy p ∧ ∀ k d start, v.mode k ≠ .run p d start
  | .leave _ p x => x = .zombie → ¬ busy p
  | _ => True

namespace Undisturbed

variable {busy busy' : Slot → Prop} {v v' : View} {a : Act} (h : Undisturbed busy v)
include h

theorem fires_running (hs : Spares busy v a) (hf : Fires v a v')
    (k : Fin NCPU) (p : Slot) (c : Cid) (start : BitVec 32) (hm : v'.mode k = .run p c start) :
    (v'.proc p).state = .running := by
  have hold := h.running k p
  cases hf with
  | wake f hf =>
    have := hf p
    grind
  | leave hmode =>
    have := h.alone k
    grind
  | _ => grind [Spares, PView.free, PView.kill]

theorem fires_alone (hf : Fires v a v') (k j : Fin NCPU) (p : Slot)
    (c d : Cid) (i i' : BitVec 32) (hk : v'.mode k = .run p c i) (hj : v'.mode j = .run p d i') :
    k = j := by
  have hold := h.alone k j p
  cases hf with
  | dispatch =>
    -- a runnable process is current nowhere
    have := h.running k p
    have := h.running j p
    grind
  | _ => grind

theorem fires_resumable (hs : Spares busy v a) (hf : Fires v a v')
    (p : Slot) (hb : busy p) : (v'.proc p).state.Resumable := by
  have hold := h.resumable p hb
  unfold ProcState.Resumable at hold ⊢
  cases hf with
  | wake f hf =>
    have := hf p
    grind
  | leave _ _ hx =>
    unfold ProcState.Resting at hx
    grind [Spares]
  | _ => grind [Spares, PView.free, PView.kill]

theorem fires (hs : Spares busy v a) (hf : Fires v a v') : Undisturbed busy v' :=
  ⟨h.fires_running hs hf, h.fires_alone hf, h.fires_resumable hs hf⟩

theorem rebusy
    (hb : ∀ p, busy' p → busy p ∨ ∃ k c start, v.mode k = .run p c start) : Undisturbed busy' v where
  running := h.running
  alone := h.alone
  resumable p hp := by
    rcases hb p hp with hp | ⟨k, c, start, hm⟩
    · exact h.resumable p hp
    · exact .inr (.inr (h.running k p c start hm))

end Undisturbed

/-! ## Gentle runs -/

variable {t t' : TxState} {s' s : State} {k : Fin NCPU} {p : Slot} {l : LockId} {e : Event}

theorem State.myproc_of_mode {c : Cid} {start : BitVec 32}
    (h : (s.cpus k).mode = .run p c start) : s.myproc k = some p := by
  simp [State.myproc, h]

theorem Gentle.spares {v v' : View} {a : Act} (hg : Gentle t (.sys e))
    (hi : ¬ t.Interrupts e) (hp : Permits t.sys e v a) (hf : Fires v a v') :
    Spares t.Busy v a := by
  cases a with
  | suspend p =>
    obtain ⟨rfl, k, pid, n, rfl, hpid⟩ := hp
    exact ⟨(hg p hpid).1, fun k c start hm => (hg p hpid).2 k (State.myproc_of_mode hm)⟩
  | pause c =>
    obtain ⟨rfl, k, name, rfl, hc⟩ := hp
    cases hf with
    | pause hroot hstate => exact hg c hc ⟨hroot, hstate⟩
  | stop c =>
    obtain ⟨rfl, k, name, rfl, hc⟩ := hp
    cases hf with
    | stop hroot hstate =>
      intro p hpc
      have hfree := hg c hc ⟨hroot, hstate⟩ p hpc
      exact ⟨hfree.1, fun k d start hm => hfree.2 k (State.myproc_of_mode hm)⟩
  | leave k p x =>
    intro hx hb
    obtain ⟨hmy, -, hz⟩ := hp
    obtain ⟨-, y, rfl⟩ := hz hx
    exact hi ⟨p, hmy, hb⟩
  | _ => trivial

structure Steady (t : TxState) : Prop where
  armed : Armed (t.sys.view none)
  undisturbed : Undisturbed t.Busy (t.sys.view none)
  outstanding : t.gate.outstanding = Lib.count (· = Phase.inside) t.phase

namespace Steady

section

variable (h : Steady t)
include h

theorem live (hp : t.sys.myproc k = some p) : (t.sys.proc p).state ≠ .unused := by
  obtain ⟨c, start, hm⟩ := State.myproc_eq_some_iff.mp hp
  have hrun : (t.sys.proc p).state = .running := h.undisturbed.running k p c start hm
  simp [hrun]

theorem acts {P : View → Act → Prop}
    (ha : Acts P (t.sys.view none) (s'.view none))
    (hP : ∀ v a v', P v a → Fires v a v' → Spares t.Busy v a) : Steady { t with sys := s' } where
  armed := ha.invariant (fun _ _ _ hv _ hf => hf.armed hv) h.armed
  undisturbed := ha.invariant (fun v a v' hv hp hf => hv.fires (hP v a v' hp hf) hf) h.undisturbed
  outstanding := h.outstanding

theorem sleepOn {chan : Chan} (hs : sleepOn k chan t.sys = some s') : Steady { t with sys := s' } := by
  refine h.acts (sleepOn_acts (P := fun _ a => ∃ p, a = .leave k p .sleeping)
    (fun p hp => h.live hp) (fun _ p _ => ⟨p, rfl⟩) hs) ?_
  rintro v a v' ⟨p, rfl⟩ -
  exact fun hx => nomatch hx

theorem wakeup (chan : Chan) : Steady { t with sys := wakeup chan t.sys } := by
  refine h.acts (wakeup_acts (P := fun _ a => a = .wake) (fun _ => rfl) chan) ?_
  rintro v a v' rfl -
  trivial

theorem move_eq (s' : State) : t.move s' = { t with sys := s' } := by
  have hidle : ∀ p, TxState.Reborn t.sys s' p → ¬ t.Busy p := fun p hr hb => by
    have hres : (t.sys.proc p).state.Resumable := h.undisturbed.resumable p hb
    rcases hres with he | he | he <;> exact nomatch hr.1.symm.trans he
  have hphase : (t.move s').phase = t.phase := funext fun p => by
    by_cases hr : TxState.Reborn t.sys s' p
    · have hout : t.phase p = .out := by
        by_contra hne
        exact hidle p hr (.inl hne)
      exact (if_pos hr).trans hout.symm
    · exact if_neg hr
  have hlocks : (t.move s').locks = t.locks := funext fun l => by
    have hholder : (t.locks l).holder.filter (fun p => ¬ TxState.Reborn t.sys s' p) = (t.locks l).holder := by
      cases hl : (t.locks l).holder with
      | none => rfl
      | some p => simpa using fun hr => hidle p hr (.inr ⟨l, hl⟩)
    exact congrArg (fun o => { t.locks l with holder := o }) hholder
  rw [show t.move s' = { t with
    sys := s', phase := (t.move s').phase, locks := (t.move s').locks } from rfl, hphase, hlocks]

theorem sys (hg : Gentle t (.sys e)) (hi : ¬ t.Interrupts e)
    (hs : step t.sys e = some s') : Steady (t.move s') := by
  rw [h.move_eq s']
  exact h.acts (step_acts h.armed hs) fun v a v' hp hf => hg.spares hi hp hf

theorem phase {gate : Gate} {x : Phase} (hp : t.sys.myproc k = some p)
    (hgate : gate.outstanding + (if t.phase p = .inside then 1 else 0) =
      t.gate.outstanding + if x = .inside then 1 else 0) :
    Steady { t with gate := gate, phase := update t.phase p x } where
  armed := h.armed
  undisturbed := by
    refine h.undisturbed.rebusy fun q hq => ?_
    by_cases hqp : q = p
    · subst hqp
      exact .inr ⟨k, State.myproc_eq_some_iff.mp hp⟩
    · rcases hq with hq | hq
      · exact .inl (.inl ((update_of_ne hqp x t.phase) ▸ hq))
      · exact .inl (.inr hq)
  outstanding := by
    have hcount := congrArg (Nat.cast (R := Int))
      (Lib.count_update (P := (· = Phase.inside)) (f := t.phase) p x)
    push_cast at hcount
    have hout := h.outstanding
    change gate.outstanding = Lib.count (· = Phase.inside) (update t.phase p x)
    omega

theorem lock {x : SleepLock}
    (hx : ∀ p, x.holder = some p → t.sys.myproc k = some p) :
    Steady { t with locks := update t.locks l x } where
  armed := h.armed
  undisturbed := by
    refine h.undisturbed.rebusy fun q hq => ?_
    rcases hq with hq | ⟨j, hj⟩
    · exact .inl (.inl hq)
    · by_cases hjl : j = l
      · subst hjl
        exact .inr ⟨k, State.myproc_eq_some_iff.mp (hx q ((update_self j x t.locks) ▸ hj))⟩
      · exact .inl (.inr ⟨j, (update_of_ne hjl x t.locks) ▸ hj⟩)
  outstanding := h.outstanding

theorem beginOp (hs : t.beginOp k = some t') : Steady t' := by
  obtain ⟨p, hp, hs⟩ := bind_eq_some_iff.mp hs
  split at hs
  · cases hs
  rename_i hout
  have hout : t.phase p = .out := not_not.mp hout
  cases hg : t.gate.beginOp t.lh.length with
  | none =>
    simp only [hg] at hs
    obtain ⟨s', hs', rfl⟩ := map_eq_some_iff.mp hs
    exact h.sleepOn hs'
  | some gate =>
    simp only [hg] at hs
    cases hs
    refine h.phase hp ?_
    simp [(Gate.beginOp_some hg).2, hout]

theorem logWrite {b : BlockNo} (hs : t.logWrite k b = some t') : Steady t' := by
  obtain ⟨p, hp, hs⟩ := bind_eq_some_iff.mp hs
  split at hs
  · cases hs
  split at hs
  · cases hs
  split at hs
  · cases hs
  · cases hs
    split
    · exact h
    · exact ⟨h.armed, h.undisturbed, h.outstanding⟩

theorem endOp (hs : t.endOp k = some t') : Steady t' := by
  obtain ⟨p, hp, hs⟩ := bind_eq_some_iff.mp hs
  split at hs
  · cases hs
  rename_i hin
  have hin : t.phase p = .inside := not_not.mp hin
  obtain ⟨⟨gate, commit⟩, hg, rfl⟩ := map_eq_some_iff.mp hs
  have hgate := (Gate.endOp_some hg).1
  cases commit with
  | true =>
    refine h.phase hp ?_
    simp [hin, hgate]
  | false =>
    refine (h.phase (x := .out) hp ?_).wakeup .log
    simp [hin, hgate]

theorem commitDone (hs : t.commitDone k = some t') : Steady t' := by
  obtain ⟨p, hp, hs⟩ := bind_eq_some_iff.mp hs
  split at hs
  · cases hs
  rename_i hc
  have hc : t.phase p = .committing := not_not.mp hc
  cases hs
  have hout : Steady { t with
      gate := { t.gate with committing := false }, phase := update t.phase p .out } :=
    h.phase hp (by simp [hc])
  exact (Steady.mk hout.armed hout.undisturbed hout.outstanding : Steady { t with
    gate := { t.gate with committing := false }, lh := [], phase := update t.phase p .out }).wakeup
      .log

theorem acquiresleep (hs : t.acquiresleep k l = some t') : Steady t' := by
  obtain ⟨p, hp, hs⟩ := bind_eq_some_iff.mp hs
  split at hs
  · obtain ⟨s', hs', rfl⟩ := map_eq_some_iff.mp hs
    exact h.sleepOn hs'
  · cases hs
    refine h.lock (k := k) fun q hq => ?_
    cases hq
    exact hp

theorem releasesleep (hs : t.releasesleep k l = some t') : Steady t' := by
  obtain ⟨p, hp, hs⟩ := bind_eq_some_iff.mp hs
  split at hs
  · cases hs
  · cases hs
    exact (h.lock (k := k) (x := ⟨false, 0, none⟩) fun q hq => nomatch hq).wakeup _

theorem step {e : TxEvent} (hg : Gentle t e) (hs : t.step e = some t') : Steady t' := by
  cases e with
  | sys e =>
    simp only [TxState.step] at hs
    split at hs
    · cases hs
    · rename_i hi
      obtain ⟨s', hs', rfl⟩ := map_eq_some_iff.mp hs
      exact h.sys hg hi hs'
  | beginOp k => exact h.beginOp hs
  | logWrite k b => exact h.logWrite hs
  | endOp k => exact h.endOp hs
  | commitDone k => exact h.commitDone hs
  | acquiresleep k l => exact h.acquiresleep hs
  | releasesleep k l => exact h.releasesleep hs

theorem txSafe : TxSafe t := by
  have hres : ∀ p, t.Busy p → (t.sys.proc p).state.Resumable := h.undisturbed.resumable
  refine ⟨fun p hb => ?_, ?_⟩
  · rcases hres p hb with he | he | he <;> simp [he]
  · rw [h.outstanding]
    refine congrArg Nat.cast (Lib.count_congr fun p => ⟨fun hin => ⟨hin, hres p (.inl ?_)⟩, And.left⟩)
    simp [hin]

end

end Steady

theorem steady_boot (free size : Nat) : Steady (TxState.boot free size) where
  armed := armed_boot free
  undisturbed := {
    running := fun k p c start hm => nomatch hm
    alone := fun k j p c d i i' hm => nomatch hm
    resumable := fun p hp => by
      rcases hp with hp | ⟨l, hl⟩
      · exact absurd rfl hp
      · cases hl }
  outstanding := by
    have h0 : Lib.count (· = Phase.inside) (fun _ : Slot => Phase.out) = 0 := Lib.count_eq_zero.mpr fun p => by simp
    exact (congrArg Nat.cast h0).symm

/-- **Transactions are safe from gentle calls**: no process in a transaction or with a sleep lock is `SUSPENDED` or `UNUSED`, and
`log.outstanding` is the number of live, resumable processes inside a transaction. -/
theorem txSafe_of_gentle {free size : Nat}
    (h : Lib.Reach TxState.step Gentle (TxState.boot free size) t) : TxSafe t :=
  (Lib.Reach.invariant (steady_boot free size) (fun _ _ _ hI hg hs => hI.step hg hs) h).txSafe

/-- A process of container `"c"` sleeps in a transaction while another container is paused and the
first process begins a transaction of its own. -/
theorem txSafe_run : ∃ t, Lib.Reach TxState.step Gentle (TxState.boot 100 30) t ∧
    ((t.sys.proc 1).state = .sleeping ∧ t.phase 1 = .inside ∧ t.gate.outstanding = 2) ∧ TxSafe t := by
  obtain ⟨t, ht, h1⟩ := Lib.Reach.of_any TxState.step Gentle (TxState.boot 100 30)
    [.sys (.sched 0), .sys (.sched 1), .sys (.call 1 (.ccreate nameC (some 5))),
      .sys (.call 1 (.cstart nameC nameV 0)), .sys (.call 1 (.cfork nameC)),
      .sys (.call 1 (.ccreate nameV (some 6))), .sys (.call 1 (.cstart nameV nameV 0)),
      .sys (.sched 0), .sys (.sched 2), .sys (.sched 2), .beginOp 2, .acquiresleep 2 0,
      .logWrite 2 40, .sys (.sleep 2 (.addr 7)), .sys (.call 1 (.cpause nameV)), .beginOp 1]
    (fun t => (t.sys.proc 1).state = .sleeping ∧ t.phase 1 = .inside ∧ t.gate.outstanding = 2)
    (by decide +kernel)
  exact ⟨t, ht, of_decide_eq_true h1, txSafe_of_gentle ht⟩

/-- The first process pauses container `"c"` while a process of that container sleeps in a
transaction, with the lock of a buffer: it is `SUSPENDED` there, and the commit waits for it. -/
theorem not_txSafe : ¬ ∀ free size t,
    Lib.Reach TxState.step (fun _ _ => True) (TxState.boot free size) t → TxSafe t := by
  intro h
  obtain ⟨t, ht, h1⟩ := Lib.Reach.of_any TxState.step (fun _ _ => True) (TxState.boot 100 30)
    [.sys (.sched 0), .sys (.sched 1), .sys (.call 1 (.ccreate nameC (some 5))),
      .sys (.call 1 (.cstart nameC nameV 0)), .sys (.call 1 (.cfork nameC)), .sys (.sched 0),
      .sys (.sched 2), .sys (.sched 2), .beginOp 2, .acquiresleep 2 0, .sys (.sleep 2 (.addr 7)),
      .sys (.call 1 (.cpause nameC))]
    (fun t => !decide (TxSafe t)) (by decide +kernel)
  exact absurd (h 100 30 t ht) (by simpa using h1)

end Xv6.Kernel
