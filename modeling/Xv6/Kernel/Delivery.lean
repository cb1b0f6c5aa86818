/-
# Xv6.Kernel.Delivery — every exit status is delivered exactly once.

The history numbers the processes, so that a slot or a pid that is used again is not taken for the
process that had it before.  `Ledger` ties the history to the table: a process in use has called `exit`
exactly when it is inside `exit` or a zombie, and once it is gone from the table, exactly one `wait` has
what it left behind.
-/
import Xv6.Kernel.Family

namespace Xv6.Kernel.Reaping

open Function List
open Lib (Reach update_cases update_same)

variable {s s' : State} {p q np : Slot} {status : Int}

section Steps

variable {pc : Pc} {fs : List Fail}

/-! ## The ledger -/

/-- Process `p` is leaving with the status, or has left with it. -/
def Ends (s : State) (p : Slot) (status : Int) : Prop :=
  (s.pc p).exits = some status ∨ (s.task p).state = .zombie ∧ (s.task p).xstate = status

/-- The `wait` returned the pid, and stored the status if it was asked for. -/
def Reap.Delivers (r : Reap) (pid status : Int) : Prop :=
  r.pid = pid ∧ r.status = if r.addr then some status else none

/-- The `wait` was called by the child's parent at that moment, its first one or init. -/
def Reap.ByParent (r : Reap) (origin : Nat → Nat) : Prop :=
  r.parent = some r.caller ∧ (r.callerId = origin r.child ∨ r.caller = initproc)

structure Ledger (s : State) : Prop where
  young : ∀ p, (s.task p).state ≠ .unused → s.past.id p < s.past.born
  inj : ∀ p q, (s.task p).state ≠ .unused → (s.task q).state ≠ .unused → s.past.id p = s.past.id q → p = q
  called_young : ∀ i x, s.past.called i = some x → i < s.past.born
  ends : ∀ p, (s.task p).state ≠ .unused → ∀ pid status,
    s.past.called (s.past.id p) = some (pid, status) ↔ (s.task p).pid = pid ∧ Ends s p status
  unreaped : ∀ p, (s.task p).state ≠ .unused → ∀ r ∈ s.past.reaps, r.child ≠ s.past.id p
  done : ∀ i pid status, s.past.called i = some (pid, status) →
    (∃ p, (s.task p).state ≠ .unused ∧ s.past.id p = i) ∨
      ∃ r, s.past.reaps.filter (·.child == i) = [r] ∧ r.Delivers pid status
  origin : ∀ q p, (s.task q).parent = some p → (s.task q).state ≠ .unused →
    s.past.id p = s.past.origin (s.past.id q) ∨ p = initproc
  reaps : ∀ r ∈ s.past.reaps, r.child < s.past.born ∧ r.ByParent s.past.origin

theorem Family.live_of_exits (hF : Family s) (h : (s.pc p).exits = some status) : (s.task p).Live := by
  have hok := hF.at_pc p
  generalize s.pc p = pc at h hok
  cases pc with
  | wakeInit | readParent | lockParent | lockSelf => exact hok.1
  | reparent | give => exact hok.1.1
  | _ => cases h

namespace Ledger

theorem quiet {l : List Fail} (hL : Ledger s) (hpast : s'.past = { s.past with fails := l })
    (hunused : ∀ q, (s'.task q).state = .unused ↔ (s.task q).state = .unused)
    (hpid : ∀ q, (s.task q).state ≠ .unused → (s'.task q).pid = (s.task q).pid)
    (hends : ∀ q status, (s.task q).state ≠ .unused → (Ends s' q status ↔ Ends s q status))
    (hparent : ∀ q r, (s.task q).state ≠ .unused → (s'.task q).parent = some r →
      (s.task q).parent = some r ∨ r = initproc) : Ledger s' := by
  have hused : ∀ q, (s'.task q).state ≠ .unused ↔ (s.task q).state ≠ .unused := fun q =>
    not_congr (hunused q)
  constructor <;> rw [hpast]
  · exact fun p hp => hL.young p ((hused p).mp hp)
  · exact fun p q hp hq => hL.inj p q ((hused p).mp hp) ((hused q).mp hq)
  · exact hL.called_young
  · intro p hp pid status
    have hp := (hused p).mp hp
    rw [hpid p hp, hends p status hp]
    exact hL.ends p hp pid status
  · exact fun p hp => hL.unreaped p ((hused p).mp hp)
  · intro i pid status hi
    refine (hL.done i pid status hi).imp_left ?_
    rintro ⟨p, hp, hid⟩
    exact ⟨p, (hused p).mpr hp, hid⟩
  · intro q p hq hu
    have hu := (hused q).mp hu
    rcases hparent q p hu hq with hold | rfl
    · exact hL.origin q p hold hu
    · exact .inr rfl
  · exact hL.reaps

theorem exits_move (hpc : s'.pc = update s.pc p pc) (h : pc.exits = (s.pc p).exits) (q : Slot) :
    (s'.pc q).exits = (s.pc q).exits := by
  rw [hpc]
  exact update_same Pc.exits h q

theorem exit (hL : Ledger s) (hlive : (s.task p).Live) (hat : s.pc p = .out)
    (htask : s'.task = s.task) (hpc : s'.pc = update s.pc p (.wakeInit status))
    (hpast : s'.past = { s.past with
      called := update s.past.called (s.past.id p) (some ((s.task p).pid, status)) }) :
    Ledger s' := by
  have hself : ∀ st, Ends s' p st ↔ status = st := by
    intro st
    simp [Ends, hpc, htask, Pc.exits, hlive.2]
  have hother : ∀ q st, q ≠ p → (Ends s' q st ↔ Ends s q st) := by
    intro q st hq
    simp [Ends, hpc, htask, hq]
  constructor <;> rw [hpast] <;> try rw [htask]
  · exact hL.young
  · exact hL.inj
  · intro i x hi
    by_cases hip : i = s.past.id p
    · exact hip ▸ hL.young p hlive.1
    · exact hL.called_young i x (by simpa [hip] using hi)
  · intro q hq pid st
    by_cases hqp : q = p
    · subst hqp
      simp [hself]
    · have hid : s.past.id q ≠ s.past.id p := fun he => hqp (hL.inj q p hq hlive.1 he)
      rw [hother q st hqp]
      simpa [hid] using hL.ends q hq pid st
  · exact hL.unreaped
  · intro i pid st hi
    by_cases hip : i = s.past.id p
    · exact .inl ⟨p, hlive.1, hip.symm⟩
    · exact hL.done i pid st (by simpa [hip] using hi)
  · exact hL.origin
  · exact hL.reaps

theorem born (hL : Ledger s) (hF : Family s) (hat : s.pc p = .linked np) : Ledger ((birth np s).move p .out) := by
  have hok := hF.at_pc p
  rw [hat] at hok
  obtain ⟨hlive, hunused, -⟩ := hok
  generalize hs' : (birth np s).move p .out = s'
  have hpc : s'.pc = update s.pc p .out := by rw [← hs']; rfl
  have hself : s'.task np = { s.task np with state := .runnable } := by rw [← hs']; simp [birth]
  have hother : ∀ q, q ≠ np → s'.task q = s.task q := fun q hq => by
    rw [← hs']
    simp [birth, hq]
  have hborn : s'.past.born = s.past.born + 1 := by rw [← hs']; rfl
  have hnew : s'.past.id np = s.past.born := by rw [← hs']; simp [birth]
  have hid : ∀ q, q ≠ np → s'.past.id q = s.past.id q := fun q hq => by
    rw [← hs']
    simp [birth, hq]
  have horigin : ∀ i, i ≠ s.past.born → s'.past.origin i = s.past.origin i := fun i hi => by
    rw [← hs']
    simp [birth, hi]
  have hcalled : s'.past.called = s.past.called := by rw [← hs']; rfl
  have hreaps : s'.past.reaps = s.past.reaps := by rw [← hs']; rfl
  have hne : ∀ q, (s.task q).state ≠ .unused → q ≠ np := by
    rintro q hq rfl
    exact hq hunused
  have hold : ∀ q, q ≠ np → (s'.task q).state ≠ .unused → (s.task q).state ≠ .unused :=
    fun q hq hu => by rwa [hother q hq] at hu
  -- nobody inside `exit` moves
  have hexits := exits_move hpc (by rw [hat]; rfl)
  have hends : ∀ q st, q ≠ np → (Ends s' q st ↔ Ends s q st) := fun q st hq => by
    rw [Ends, Ends, hexits, hother q hq]
  refine ⟨fun q hq => ?_, fun q r hq hr he => ?_, fun i x hi => ?_, fun q hq pid st => ?_,
    fun q hq r hr => ?_, fun i pid st hi => ?_, fun q r hqr hq => ?_, fun r hr => ?_⟩
  · rw [hborn]
    by_cases hqn : q = np
    · rw [hqn, hnew]
      exact Nat.lt_succ_self _
    · rw [hid q hqn]
      exact Nat.lt_succ_of_lt (hL.young q (hold q hqn hq))
  · by_cases hqn : q = np
    · by_cases hrn : r = np
      · rw [hqn, hrn]
      · rw [hqn, hnew, hid r hrn] at he
        exact absurd (hL.young r (hold r hrn hr)) (by omega)
    by_cases hrn : r = np
    · rw [hrn, hnew, hid q hqn] at he
      exact absurd (hL.young q (hold q hqn hq)) (by omega)
    · rw [hid q hqn, hid r hrn] at he
      exact hL.inj q r (hold q hqn hq) (hold r hrn hr) he
  · rw [hcalled] at hi
    rw [hborn]
    exact Nat.lt_succ_of_lt (hL.called_young i x hi)
  · rw [hcalled]
    by_cases hqn : q = np
    · -- the number is new, and the process has only just begun
      subst hqn
      rw [hnew]
      refine iff_of_false (fun hc => ?_) fun hc => ?_
      · exact absurd (hL.called_young _ _ hc) (Nat.lt_irrefl _)
      rcases hc.2 with he | ⟨hz, -⟩
      · rw [hexits] at he
        exact (hF.live_of_exits he).1 hunused
      · rw [hself] at hz
        cases hz
    · rw [hid q hqn, hends q st hqn, hother q hqn]
      exact hL.ends q (hold q hqn hq) pid st
  · rw [hreaps] at hr
    by_cases hqn : q = np
    · rw [hqn, hnew]
      exact Nat.ne_of_lt (hL.reaps r hr).1
    · rw [hid q hqn]
      exact hL.unreaped q (hold q hqn hq) r hr
  · rw [hcalled] at hi
    rw [hreaps]
    refine (hL.done i pid st hi).imp_left ?_
    rintro ⟨q, hq, hqi⟩
    exact ⟨q, by rwa [hother q (hne q hq)], (hid q (hne q hq)).trans hqi⟩
  · by_cases hqn : q = np
    · subst hqn
      rw [hself] at hqr
      have hr : r ≠ q := hne r (hF.live q r hqr).1
      refine .inl ?_
      rw [hid r hr, hnew, ← hs']
      have hqr' : (s.task q).parent = some r := hqr
      simp [birth, hqr']
    · rw [hother q hqn] at hqr
      have hq := hold q hqn hq
      have hr : r ≠ np := hne r (hF.live q r hqr).1
      rw [hid r hr, hid q hqn, horigin _ (Nat.ne_of_lt (hL.young q hq))]
      exact hL.origin q r hqr hq
  · rw [hreaps] at hr
    obtain ⟨hchild, hby⟩ := hL.reaps r hr
    rw [hborn]
    refine ⟨Nat.lt_succ_of_lt hchild, hby.1, ?_⟩
    rw [horigin _ (Nat.ne_of_lt hchild)]
    exact hby.2

theorem reaped {addr kids : Bool} {todo : List Slot} (hL : Ledger s) (hF : Family s)
    (hat : s.pc p = .child addr np todo kids) (hz : (s.task np).state = .zombie) :
    Ledger ((reap p np addr s).move p .out) := by
  have hok := hF.at_pc p
  rw [hat] at hok
  obtain ⟨-, hchild⟩ := hok
  have hnp : (s.task np).state ≠ .unused := by simp [hz]
  generalize hr0 : ({ child := s.past.id np, pid := (s.task np).pid
                      status := if addr then some (s.task np).xstate else none, addr := addr
                      caller := p, callerId := s.past.id p, parent := (s.task np).parent } : Reap) = r0
  generalize hs' : (reap p np addr s).move p .out = s'
  have hpc : s'.pc = update s.pc p .out := by rw [← hs']; rfl
  have hself : s'.task np = .freed := by rw [← hs']; simp [reap]
  have hother : ∀ q, q ≠ np → s'.task q = s.task q := fun q hq => by
    rw [← hs']
    simp [reap, hq]
  have hpast : s'.past = { s.past with reaps := s.past.reaps ++ [r0] } := by rw [← hs', ← hr0]; rfl
  have hne : ∀ q, (s'.task q).state ≠ .unused → q ≠ np := by
    rintro q hq rfl
    exact hq (by rw [hself]; rfl)
  have hold : ∀ q, (s'.task q).state ≠ .unused → (s.task q).state ≠ .unused := fun q hq => by
    rwa [hother q (hne q hq)] at hq
  have hends : ∀ q st, q ≠ np → (Ends s' q st ↔ Ends s q st) := by
    intro q st hq
    rw [Ends, Ends, hother q hq, exits_move hpc (by rw [hat]; rfl)]
  constructor <;> rw [hpast]
  · exact fun q hq => hL.young q (hold q hq)
  · exact fun q r hq hr => hL.inj q r (hold q hq) (hold r hr)
  · exact hL.called_young
  · intro q hq pid st
    rw [hends q st (hne q hq), hother q (hne q hq)]
    exact hL.ends q (hold q hq) pid st
  · intro q hq r hr
    rcases mem_append.mp hr with hr | hr
    · exact hL.unreaped q (hold q hq) r hr
    · rw [mem_singleton.mp hr, ← hr0]
      exact fun he => hne q hq (hL.inj q np (hold q hq) hnp he.symm)
  · intro i pid st hi
    by_cases hin : i = s.past.id np
    · -- this is the process reaped: it had not been before
      subst hin
      refine .inr ⟨r0, ?_, ?_⟩
      · have hnone : s.past.reaps.filter (·.child == s.past.id np) = [] := by
          rw [filter_eq_nil_iff]
          intro r hr
          simpa using hL.unreaped np hnp r hr
        simp [filter_append, hnone, ← hr0]
      obtain ⟨hpid, he⟩ := (hL.ends np hnp pid st).mp hi
      have hx : (s.task np).xstate = st := by
        rcases he with he | ⟨-, hx⟩
        · exact absurd hz (hF.live_of_exits he).2
        · exact hx
      rw [← hr0, ← hpid, ← hx]
      exact ⟨rfl, rfl⟩
    · rcases hL.done i pid st hi with ⟨q, hq, hqi⟩ | ⟨r, hr, hdel⟩
      · have hqn : q ≠ np := by
          rintro rfl
          exact hin hqi.symm
        exact .inl ⟨q, by rwa [hother q hqn], hqi⟩
      refine .inr ⟨r, ?_, hdel⟩
      have hne' : (r0.child == i) = false := by
        rw [← hr0, beq_eq_false_iff_ne]
        exact fun he => hin he.symm
      simp [filter_append, hr, hne']
  · intro q r hqr hq
    rw [hother q (hne q hq)] at hqr
    exact hL.origin q r hqr (hold q hq)
  intro r hr
  rcases mem_append.mp hr with hr | hr
  · exact hL.reaps r hr
  · rw [mem_singleton.mp hr, ← hr0]
    exact ⟨hL.young np hnp, hchild, hL.origin np p hchild hnp⟩

theorem exits_calm {pc' : Pc} (h : Calm s p pc pc' fs) : pc'.exits = pc.exits := by cases h <;> rfl

theorem spare {t : Task} (hL : Ledger s) (hunused : (s.task np).state = .unused)
    (ht : t.state = .unused) (htask : s'.task = update s.task np t)
    (hpc : s'.pc = update s.pc p pc) (hexits : pc.exits = (s.pc p).exits)
    (hpast : s'.past = s.past) : Ledger s' := by
  have hother : ∀ q, (s.task q).state ≠ .unused → s'.task q = s.task q := by
    intro q hq
    rw [htask, update_of_ne]
    rintro rfl
    exact hq hunused
  refine hL.quiet (l := s.past.fails) hpast (fun q => ?_) (fun q hq => by rw [hother q hq])
    (fun q st hq => by rw [Ends, Ends, exits_move hpc hexits, hother q hq])
    fun q r hq hqr => .inl (by rwa [hother q hq] at hqr)
  rw [htask]
  exact update_cases (iff_of_true ht hunused) (fun _ _ => .rfl) q

theorem moves (hL : Ledger s) (hF : Family s) (h : Moves s s') : Ledger s' := by
  cases h with
  | @calm p pc fs h htask hpc hpast =>
    refine hL.quiet hpast (fun q => (htask q).unused) (fun q _ => (htask q).pid) (fun q st _ => ?_)
      fun q r _ hq => .inl ((htask q).parent ▸ hq)
    rw [Ends, Ends, exits_move hpc (exits_calm h), (htask q).zombie, (htask q).xstate]
  | exit hlive hat hinit htask hpc hpast => exact hL.exit hlive hat htask hpc hpast
  | claim hlive hat hunused hfree hparent ht htp htask hpc hpast =>
    exact hL.spare hunused ht htask hpc (by rw [hat]; rfl) hpast
  | @unclaim p np parent hat htask hpc hpast =>
    have hok := hF.at_pc p
    rw [hat] at hok
    exact hL.spare hok.2.1 rfl htask hpc (by rw [hat]; rfl) hpast
  | @link p np parent hat htask hpc hpast =>
    have hok := hF.at_pc p
    rw [hat] at hok
    exact hL.spare (t := { s.task np with parent := some parent }) hok.2.1 hok.2.1 htask hpc
      (by rw [hat]; rfl) hpast
  | born hat hs => exact hs ▸ hL.born hF hat
  | @gave p original pp status todo hat htask hpc hpast =>
    have hsame : ∀ q, (s'.task q).state = (s.task q).state ∧ (s'.task q).pid = (s.task q).pid ∧
        (s'.task q).xstate = (s.task q).xstate := by
      intro q
      rw [htask]
      exact update_cases ⟨rfl, rfl, rfl⟩ (fun _ _ => ⟨rfl, rfl, rfl⟩) q
    refine hL.quiet (l := s.past.fails) hpast (fun q => by rw [(hsame q).1])
      (fun q _ => (hsame q).2.1) (fun q st _ => ?_) fun q r _ hqr => ?_
    · rw [Ends, Ends, exits_move hpc (by rw [hat]; rfl), (hsame q).1, (hsame q).2.2]
    rw [htask] at hqr
    revert hqr
    exact update_cases (fun h => .inr (Option.some.inj h).symm) (fun _ _ => .inl) q
  | @died p original status hat hother hself hpc hpast =>
    have hok := hF.at_pc p
    rw [hat] at hok
    have hlive := hok.1.1
    refine hL.quiet (l := s.past.fails) hpast (fun q => ?_) (fun q _ => ?_) (fun q st _ => ?_)
      fun q r _ hqr => .inl ?_
    · by_cases hq : q = p
      · subst hq
        exact iff_of_false (by simp [hself.1]) hlive.1
      · exact (hother q hq).unused
    · by_cases hq : q = p
      · rw [hq, hself.2.2.2]
      · exact (hother q hq).pid
    · by_cases hq : q = p
      · -- the status it was leaving with is now in its slot
        subst hq
        simp [Ends, hpc, hat, Pc.exits, hself.1, hself.2.1, hlive.2]
      · rw [Ends, Ends, (hother q hq).zombie, (hother q hq).xstate, hpc, update_of_ne hq]
    · by_cases hq : q = p
      · rwa [hq, hself.2.2.1, ← hq] at hqr
      · rwa [(hother q hq).parent] at hqr
  | reaped hat hfree hz hs => exact hs ▸ hL.reaped hF hat hz

end Ledger

end Steps

/-! ## Runs -/

theorem family_start : Family start where
  mutex p q x hp _ := by cases hp
  live q p hq := by
    by_cases h0 : q = initproc
    · subst h0
      simp [start] at hq
    · simp [start, h0, Task.freed] at hq
  orphan q hq hinit := absurd (by simp [start, hinit, Task.freed]) hq
  free q hq hne := by
    by_cases h0 : q = initproc
    · subst h0
      simp [start] at hq
    · simp [start, h0, Task.freed] at hne
  init := by simp [start, Task.Live]
  at_pc p := trivial
  fails f hf := by cases hf

theorem ledger_start : Ledger start := by
  have hone : ∀ p, (start.task p).state ≠ .unused → p = initproc := by
    intro p hp
    by_contra h0
    exact hp (by simp [start, h0, Task.freed])
  refine ⟨fun p _ => Nat.one_pos, fun p q hp hq _ => (hone p hp).trans (hone q hq).symm,
    fun i x hi => (by cases hi), fun p hp pid st => ?_, fun p _ r hr => (by cases hr),
    fun i pid st hi => (by cases hi), fun q p hqp hq => ?_, fun r hr => (by cases hr)⟩
  · refine iff_of_false (by simp [start]) ?_
    rintro ⟨-, he | ⟨hz, -⟩⟩
    · cases he
    · rw [hone p hp] at hz
      simp [start] at hz
  · rw [hone q hq] at hqp
    simp [start] at hqp

theorem reach_ledger (h : Reach step (fun _ _ => True) start s) : Family s ∧ Ledger s :=
  Reach.invariant (I := fun s => Family s ∧ Ledger s) ⟨family_start, ledger_start⟩
    (fun _ _ _ hs _ hstep =>
      ⟨hs.1.moves (step_moves hstep), hs.2.moves hs.1 (step_moves hstep)⟩) h

/-- Process `i`, which called `exit(status)`, is on its way through `exit`, or a zombie with its pid and status, or exactly
one `wait` has reaped it, called by its parent at that moment, and returned both. -/
def Delivered (s : State) (i : Nat) (pid status : Int) : Prop :=
  (∃ p, s.past.id p = i ∧ (s.task p).Live ∧ (s.pc p).exits = some status ∧ (s.task p).pid = pid ∧
      s.past.reaps.filter (·.child == i) = []) ∨
  (∃ p, s.past.id p = i ∧ (s.task p).state = .zombie ∧ (s.task p).pid = pid ∧
      (s.task p).xstate = status ∧ s.past.reaps.filter (·.child == i) = []) ∨
  ∃ r, s.past.reaps.filter (·.child == i) = [r] ∧ r.Delivers pid status ∧ r.ByParent s.past.origin

theorem Ledger.delivered {i : Nat} {pid : Int} (hL : Ledger s) (hF : Family s)
    (h : s.past.called i = some (pid, status)) : Delivered s i pid status := by
  rcases hL.done i pid status h with ⟨p, hp, rfl⟩ | ⟨r, hr, hdel⟩
  · have hnone : s.past.reaps.filter (·.child == s.past.id p) = [] := by
      rw [filter_eq_nil_iff]
      intro r hr
      simpa using hL.unreaped p hp r hr
    obtain ⟨hpid, he | ⟨hz, hx⟩⟩ := (hL.ends p hp pid status).mp h
    · exact .inl ⟨p, rfl, hF.live_of_exits he, he, hpid, hnone⟩
    · exact .inr (.inl ⟨p, rfl, hz, hpid, hx, hnone⟩)
  · have hmem : r ∈ s.past.reaps.filter (·.child == i) := by
      rw [hr]
      exact mem_singleton_self r
    exact .inr (.inr ⟨r, hr, hdel, (hL.reaps r (mem_filter.mp hmem).1).2⟩)

/-- **Exit statuses are delivered exactly once**, in every interleaving; every process but init has a live parent; and
`wait` returned `-1` only without children, when killed, or when `copyout` failed. -/
theorem exit_delivered_once (h : Reach step (fun _ _ => True) start s) :
    (∀ i pid status, s.past.called i = some (pid, status) → Delivered s i pid status) ∧
    (∀ q, (s.task q).state ≠ .unused → q ≠ initproc → ∃ p, (s.task q).parent = some p ∧
      (s.task p).state ≠ .unused ∧ (s.task p).state ≠ .zombie) ∧
    ∀ f ∈ s.past.fails, f.kids = false ∨ f.killed = true ∨ f.copyout = true := by
  obtain ⟨hF, hL⟩ := reach_ledger h
  refine ⟨fun i pid status hi => hL.delivered hF hi, fun q hq hinit => ?_, hF.fails⟩
  obtain ⟨p, hp⟩ := Option.ne_none_iff_exists'.mp (hF.orphan q hq hinit)
  exact ⟨p, hp, hF.live q p hp⟩

/-- Init forks; the child calls `exit(7)`; init waits for it. -/
def forkExitWait : List Event :=
  [.run 0, .fork 0 1 true, .go 0 false, .go 0 false, .go 0 false, .run 1, .exit 1 7] ++
    List.replicate 70 (.go 1 false) ++
    [.wait 0 true, .go 0 false, .go 0 false, .go 0 false, .go 0 false]

/-- The child is process 1 and has pid 2: its status was delivered. -/
theorem exit_delivered_once_run : ∃ s, Reach step (fun _ _ => True) start s ∧
    s.past.called 1 = some (2, 7) ∧ (s.task 1).state = .unused ∧ Delivered s 1 2 7 := by
  obtain ⟨s, hs, hp⟩ := Reach.of_any step (fun _ _ => True) start forkExitWait
    (fun s => s.past.called 1 == some (2, 7) && (s.task 1).state == .unused) (by decide +kernel)
  simp only [Bool.and_eq_true, beq_iff_eq] at hp
  exact ⟨s, hs, hp.1, hp.2, (exit_delivered_once hs).1 1 2 7 hp.1⟩

end Xv6.Kernel.Reaping
