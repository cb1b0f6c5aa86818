/-
# Xv6.Kernel.Slots — the life cycle of a process slot.

Eight operations write `p->state`.  `fork` takes a free slot, `wait` frees a zombie, and the process
on a CPU sets its own state; the others pick their slot by pid, by local pid or by container.  Of
these only two do not look at the state they overwrite, `ksuspend` and `containerkillall`.  A step that keeps
them away from free slots, zombies and running processes (`SparesSlots`) keeps the life cycle.

A suspended process that is still on its CPU is kept out for a reason one step cannot show: `kill`
or `cresume` makes it `RUNNABLE`, a second CPU takes it, and when it exits on one of them its slot is
reaped under the other.  `OnCpu` is the invariant that is lost there.
-/
import Xv6.Kernel.LifeCycle

namespace Xv6.Kernel

variable {s s' : State} {v v' : View} {a : Act} {e : Event} {p : Slot} {k : Fin NCPU} {c : Cid} {x : ProcState}

/-! ## The two calls that overwrite a state unseen -/

theorem SparesSlots.current (h : SparesSlots s e) : SparesCurrent s e := by
  unfold SparesCurrent
  split
  · exact fun p hp => (h p hp).2.2
  · exact fun c hc hroot hstate p hp => (h c hc hroot hstate p hp).2
  · trivial

def View.Current (v : View) (p : Slot) : Prop := ∃ k c start, v.mode k = .run p c start

theorem State.current_view : (s.view none).Current p ↔ s.Current p := by
  simp only [View.Current, State.Current, State.myproc_eq_some_iff]
  exact Iff.rfl

theorem SparesSlots.suspend (hok : SparesSlots s e) (hp : Permits s e v (.suspend p)) :
    (v.proc p).state ≠ .unused ∧ (v.proc p).state ≠ .zombie := by
  obtain ⟨rfl, k, pid, n, rfl, hpid⟩ := hp
  exact ⟨(hok p hpid).1, (hok p hpid).2.1⟩

theorem SparesSlots.stop (hok : SparesSlots s e) (hp : Permits s e v (.stop c))
    (hf : Fires v (.stop c) v') (hc : (v.proc p).cont = some c) : (v.proc p).state ≠ .zombie := by
  obtain ⟨rfl, k, name, rfl, hname⟩ := hp
  cases hf with
  | stop hroot hstate => exact (hok c hname hroot hstate p hc).1

theorem SparesCurrent.suspend (hok : SparesCurrent s e) (hp : Permits s e v (.suspend p)) : ¬ v.Current p := by
  obtain ⟨rfl, k, pid, n, rfl, hpid⟩ := hp
  rw [State.current_view]
  exact hok p hpid

theorem SparesCurrent.stop (hok : SparesCurrent s e) (hp : Permits s e v (.stop c))
    (hf : Fires v (.stop c) v') (hc : (v.proc p).cont = some c) : ¬ v.Current p := by
  obtain ⟨rfl, k, name, rfl, hname⟩ := hp
  cases hf with
  | stop hroot hstate =>
    rw [State.current_view]
    exact hok c hname hroot hstate p hc

/-- In view `v`, act `a` gives slot `p` the state `x`. -/
inductive SlotMoves (v : View) (a : Act) (p : Slot) : ProcState → Prop
  | same : SlotMoves v a p (v.proc p).state
  /-- `wakeup`, `kill`, `cresume` or the limit handler. -/
  | roused (h : (v.proc p).state = .sleeping ∨ (v.proc p).state = .suspended) : SlotMoves v a p .runnable
  /-- `cpause`. -/
  | paused {c : Cid} (ha : a = .pause c)
      (h : (v.proc p).state = .sleeping ∨ (v.proc p).state = .runnable) :
      SlotMoves v a p .suspended
  | suspended (ha : a = .suspend p) : SlotMoves v a p .suspended
  /-- `fork` completes the child. -/
  | born (hpend : v.pend = some p) (h : (v.proc p).state = .unused) : SlotMoves v a p .runnable
  | reaped (ha : a = .reap p) (h : (v.proc p).state = .zombie) : SlotMoves v a p .unused
  | stopped {c : Cid} (ha : a = .stop c) (hc : (v.proc p).cont = some c) : SlotMoves v a p .unused
  | dispatched {k : Fin NCPU} {c : Cid} (ha : a = .dispatch k p c)
      (h : (v.proc p).state = .runnable) : SlotMoves v a p .running
  /-- The process on a CPU sets its own state. -/
  | left {k : Fin NCPU} {x : ProcState} (ha : a = .leave k p x) (hcur : v.Current p)
      (hx : x.Resting) : SlotMoves v a p x
  /-- The process on a CPU goes to sleep in a slot that has been freed. -/
  | lapsed {k : Fin NCPU} (ha : a = .lapse k p) (h : (v.proc p).state = .unused) : SlotMoves v a p .sleeping

theorem SlotMoves.of_setState {q : Slot} (h : q = p → SlotMoves v a p x) :
    SlotMoves v a p ((v.setState q x).proc p).state := by
  rw [View.setState_proc]
  split
  · rename_i hpq
    exact h hpq.symm
  · exact .same

theorem SlotMoves.kill : SlotMoves v a p (v.proc p).kill.state := by
  unfold PView.kill
  dsimp only
  split
  · rename_i h
    exact .roused h
  · exact .same

theorem Fires.slot_moves (h : Fires v a v') (p : Slot) : SlotMoves v a p (v'.proc p).state := by
  cases h with
  | wake f hf =>
    rw [View.restate_proc]
    rcases hf p with hp | ⟨hs, hp⟩
    · rw [hp]
      exact .same
    · rw [hp]
      exact .roused hs
  | @suspend q => exact .of_setState fun hq => .suspended (by rw [hq])
  | @claim q c hq hpend =>
    have : ((v.withProc q { v.proc q with cont := some c }).proc p).state = (v.proc p).state := by
      grind
    exact this ▸ .same
  | @arm q hpend hq =>
    have : ((v.withProc q { v.proc q with tf := true }).proc p).state = (v.proc p).state := by grind
    exact this ▸ .same
  | @abandon q hpend hq =>
    have : ((v.withProc q { v.proc q with tf := false }).proc p).state = (v.proc p).state := by
      grind
    exact this ▸ .same
  | birth hpend hq hc hfull | stray hpend hq hc hfull => exact .of_setState fun he => .born (he ▸ hpend) (he ▸ hq)
  | @reap q hq =>
    rw [View.release_proc]
    split
    · rename_i hpq
      subst hpq
      exact .reaped rfl hq
    · exact .same
  | @forfeit q hpend hq =>
    have : ((v.release q).proc p).state = (v.proc p).state := by grind [PView.free]
    exact this ▸ .same
  | teardown hroot hstate =>
    rw [View.teardown_proc]
    split
    · exact .kill
    · exact .same
  | pause hroot hstate =>
    rw [View.pause_proc]
    split
    · rename_i hp
      exact .paused rfl hp.2
    · exact .same
  | resume hroot hstate =>
    rw [View.resume_proc]
    split
    · rename_i hp
      exact .roused (.inr hp.2)
    · exact .same
  | stop hroot hstate =>
    rw [View.stop_proc]
    split
    · rename_i hp
      exact .stopped rfl hp
    · exact .same
  | @dispatch k q c start hmode hc hnext hq =>
    exact .of_setState fun he => .dispatched (k := k) (c := c) (by rw [he]) (he ▸ hq)
  | @leave k q c start x hmode hq hx =>
    exact .of_setState fun he => .left (k := k) (by rw [he]) ⟨k, c, start, he ▸ hmode⟩ hx
  | @lapse k q c start hpend hmode hq => exact .of_setState fun he => .lapsed (k := k) (by rw [he]) (he ▸ hq)
  | _ => exact .same

/-! ## What runs on a CPU is `RUNNING`, and on that CPU only -/

/-- A current process is `RUNNING` and current on one CPU. -/
structure OnCpu (v : View) : Prop where
  running : ∀ k p c start, v.mode k = .run p c start → (v.proc p).state = .running
  unique : ∀ k j p c d t u, v.mode k = .run p c t → v.mode j = .run p d u → k = j

theorem OnCpu.state_of_current (h : OnCpu v) (hp : v.Current p) : (v.proc p).state = .running := by
  obtain ⟨k, c, start, hk⟩ := hp
  exact h.running k p c start hk

/-- Where a CPU is after an act: as before, switched to a process that was `RUNNABLE` and is
`RUNNING` now, or running none. -/
theorem Fires.mode_moves (h : Fires v a v') (k : Fin NCPU) :
    v'.mode k = v.mode k ∨
      (∃ p c start, v'.mode k = .run p c start ∧ (v.proc p).state = .runnable ∧
        (v'.proc p).state = .running ∧ ∀ j, j ≠ k → v'.mode j = v.mode j) ∨
      ∀ p c start, v'.mode k ≠ .run p c start := by
  have hoff : ∀ j m, v'.mode = Function.update v.mode j m → (∀ p c start, m ≠ .run p c start) →
      v'.mode k = v.mode k ∨ ∀ p c start, v'.mode k ≠ .run p c start := by
    intro j m hm hrun
    rw [hm]
    by_cases hk : k = j
    · subst hk
      exact .inr (by simpa using hrun)
    · exact .inl (by simp [hk])
  cases h with
  | @dispatch j p c start hmode hc hnext hp =>
    by_cases hk : k = j
    · subst hk
      refine .inr (.inl ⟨p, c, start, ?_, hp, ?_, fun i hi => ?_⟩)
      · simp
      · simp [View.setState]
      · simp [hi, View.setState]
    · exact .inl (by simp [hk, View.setState])
  | leave | lapse | idle => exact (hoff _ _ rfl (by simp)).imp_right .inr
  | _ => exact .inl rfl

theorem Fires.leave_mode (h : Fires v (.leave k p x) v') :
    (∃ c start, v.mode k = .run p c start) ∧ ∀ q c start, v'.mode k ≠ .run q c start := by
  cases h with
  | leave hmode hp hx => exact ⟨⟨_, _, hmode⟩, by simp⟩

namespace OnCpu

theorem running_of_same (h : OnCpu v) (hok : SparesCurrent s e) (hp : Permits s e v a)
    (hf : Fires v a v') {start : BitVec 32}
    (hk : v.mode k = .run p c start) (hk' : v'.mode k = .run p c start) :
    (v'.proc p).state = .running := by
  have hrun := h.running k p c start hk
  have hcur : v.Current p := ⟨k, c, start, hk⟩
  have hmoves := hf.slot_moves p
  generalize (v'.proc p).state = x at hmoves ⊢
  cases hmoves with
  | same => exact hrun
  | roused hs | paused ha hs | born hpend hs | reaped ha hs | dispatched ha hs | lapsed ha hs => simp [hrun] at hs
  | suspended ha =>
    subst ha
    exact absurd hcur (hok.suspend hp)
  | stopped ha hc =>
    subst ha
    exact absurd hcur (hok.stop hp hf hc)
  | @left j x ha _ hx =>
    -- it is current on one CPU only, so that is the one it left
    subst ha
    obtain ⟨⟨d, u, hj⟩, hleft⟩ := hf.leave_mode
    cases h.unique k j p c d start u hk hj
    exact absurd hk' (hleft p c start)

theorem fires (h : OnCpu v) (hok : SparesCurrent s e) (hp : Permits s e v a) (hf : Fires v a v') : OnCpu v' where
  running k q c start hk := by
    rcases hf.mode_moves k with hm | ⟨p, d, u, hm, -, hrun, -⟩ | hm
    · exact h.running_of_same hok hp hf (hm ▸ hk) hk
    · rw [hm] at hk
      cases hk
      exact hrun
    · exact absurd hk (hm q c start)
  unique k j q c d t u hk hj := by
    by_contra hne
    have hother : ∀ i l p e w x y, i ≠ l → v'.mode l = .run p e w → (v.proc p).state = .runnable →
        (∀ m, m ≠ l → v'.mode m = v.mode m) → v'.mode i ≠ .run p x y := by
      intro i l p e w x y hil _ hp hsame hi
      rw [hsame i hil] at hi
      have := h.running i p x y hi
      rw [hp] at this
      cases this
    rcases hf.mode_moves k with hmk | ⟨p, e, w, hmk, hr, -, hsame⟩ | hmk
    · rcases hf.mode_moves j with hmj | ⟨p, e, w, hmj, hr, -, hsame⟩ | hmj
      · exact hne (h.unique k j q c d t u (hmk ▸ hk) (hmj ▸ hj))
      · cases hmj.symm.trans hj
        exact hother k j q d u c t hne hj hr hsame hk
      · exact hmj q d u hj
    · cases hmk.symm.trans hk
      exact hother j k q c t d u (Ne.symm hne) hk hr hsame hj
    · exact hmk q c t hk

/-- Where what is current is `RUNNING`, nobody goes to sleep in a freed slot. -/
theorem no_lapse (h : OnCpu (s.view none)) : ¬ Permits s e v (.lapse k p) := by
  rintro ⟨hk, hu, -⟩
  have hrun := h.state_of_current (State.current_view.mpr ⟨k, hk⟩)
  cases hrun.symm.trans hu

end OnCpu

theorem onCpu_boot (free : Nat) : OnCpu ((boot free).view none) where
  running k p c start hk := by cases hk
  unique k j p c d t u hk hj := by cases hk

theorem reach_onCpu {free : Nat} {ok : State → Event → Prop} (hok : ∀ s e, ok s e → SparesCurrent s e)
    (h : Lib.Reach step ok (boot free) s) : OnCpu (s.view none) :=
  reach_view (onCpu_boot free) (fun s e _ _ _ h _ hv hp hf => hv.fires (hok s e h) hp hf) h

/-- **No process is on two CPUs**, and what is on a CPU is `RUNNING`, in every run that spares the slots. -/
theorem one_cpu {free : Nat} (h : Lib.Reach step SparesSlots (boot free) s) (hk : s.myproc k = some p) :
    (s.proc p).state = .running ∧ ∀ j, s.myproc j = some p → j = k := by
  have hcpu := reach_onCpu (fun _ _ => SparesSlots.current) h
  obtain ⟨c, t, hm⟩ := State.myproc_eq_some_iff.mp hk
  refine ⟨hcpu.running k p c t hm, fun j hj => ?_⟩
  obtain ⟨d, u, hn⟩ := State.myproc_eq_some_iff.mp hj
  exact hcpu.unique j k p d c u t hn hm

/-! ## The life cycle -/

def Event.isFork : Event → Bool
  | .call _ .fork | .call _ (.cfork _) => true
  | _ => false

theorem ForksInto.isFork (h : ForksInto s e c) : e.isFork = true := by
  rcases h with ⟨k, p, rfl, -⟩ | ⟨k, name, rfl, -⟩
  · rfl
  · rfl

theorem Fires.pend_cases (h : Fires v a v') :
    v'.pend = v.pend ∨ v'.pend = none ∨ ∃ q c, a = .claim q c ∧ v'.pend = some q := by
  cases h with
  | claim hq hpend => exact .inr (.inr ⟨_, _, rfl, rfl⟩)
  | abandon | birth | stray | forfeit => exact .inr (.inl rfl)
  | _ => exact .inl rfl

/-- A slot is pending only inside a `fork`, which claimed the first free one. -/
def PendsFork (s : State) (e : Event) (v : View) : Prop :=
  ∀ q, v.pend = some q → freeSlot s = some q ∧ e.isFork = true

theorem PendsFork.fires (h : PendsFork s e v) (hp : Permits s e v a) (hf : Fires v a v') : PendsFork s e v' := by
  intro q hq
  rcases hf.pend_cases with hpend | hpend | ⟨r, c, rfl, hpend⟩
  · exact h q (hpend ▸ hq)
  · rw [hpend] at hq
    cases hq
  · rw [hpend] at hq
    cases hq
    exact ⟨hp.2.1, hp.2.2.isFork⟩

/-- What a slot that was free when event `e` began can be inside it: free, or the process that a
`fork` has just completed in the slot it claimed. -/
def FreeSince (s : State) (e : Event) (p : Slot) (v : View) : Prop :=
  (v.proc p).state = .unused ∨ (v.proc p).state = .runnable ∧ freeSlot s = some p ∧ e.isFork = true

theorem FreeSince.fires (h : FreeSince s e p v) (hpend : PendsFork s e v)
    (hcpu : OnCpu (s.view none)) (hok : SparesSlots s e) (hfree : (s.proc p).state = .unused) (hp : Permits s e v a) (hf : Fires v a v') :
    FreeSince s e p v' := by
  have hview : v = s.view none → (v.proc p).state = .unused := by
    rintro rfl
    exact hfree
  have hmoves := hf.slot_moves p
  unfold FreeSince at h ⊢
  generalize (v'.proc p).state = x at hmoves ⊢
  cases hmoves with
  | same => exact h
  | roused hs => rcases hs with hs | hs <;> simp [hs] at h
  | paused ha hs =>
    subst ha
    rw [hview hp.1] at hs
    simp at hs
  | suspended ha =>
    subst ha
    exact absurd (hview hp.1) (hok.suspend hp).1
  | born hq hs => exact .inr ⟨rfl, hpend p hq⟩
  | reaped ha hs | stopped ha hc => exact .inl rfl
  | dispatched ha hs =>
    subst ha
    rw [hview hp.1] at hs
    cases hs
  | left ha hcur hx =>
    subst ha
    exact absurd hfree hp.2.1
  | lapsed ha hs =>
    subst ha
    exact absurd hp hcpu.no_lapse

/-- What a slot that was a zombie when event `e` began can be inside it: a zombie, or freed by the
`wait` that found it. -/
def ZombieSince (s : State) (e : Event) (p : Slot) (v : View) : Prop :=
  (v.proc p).state = .zombie ∨ (v.proc p).state = .unused ∧ ∃ k, e = .call k (.wait false) ∧ reaped k s = some p

theorem ZombieSince.fires (h : ZombieSince s e p v) (hpend : PendsFork s e v)
    (hcpu : OnCpu (s.view none)) (hok : SparesSlots s e) (hz : (s.proc p).state = .zombie)
    (hp : Permits s e v a) (hf : Fires v a v') : ZombieSince s e p v' := by
  have hview : v = s.view none → (v.proc p).state = .zombie := by
    rintro rfl
    exact hz
  have hmoves := hf.slot_moves p
  unfold ZombieSince at h ⊢
  generalize (v'.proc p).state = x at hmoves ⊢
  cases hmoves with
  | same => exact h
  | roused hs | paused ha hs => rcases hs with hs | hs <;> simp [hs] at h
  | suspended ha =>
    subst ha
    exact absurd (hview hp.1) (hok.suspend hp).2
  | born hq hs =>
    -- the slot was freed by a `wait`, which claims none
    rw [hs] at h
    obtain ⟨-, k, rfl, -⟩ := h.resolve_left (by simp)
    exact absurd (hpend p hq).2 (by simp [Event.isFork])
  | reaped ha hs =>
    subst ha
    exact .inr ⟨rfl, hp.2⟩
  | stopped ha hc =>
    subst ha
    exact absurd (hview hp.1) (hok.stop hp hf hc)
  | dispatched ha hs => simp [hs] at h
  | @left k x ha hcur hx =>
    subst ha
    have hrun := hcpu.state_of_current (State.current_view.mpr ⟨k, hp.1⟩)
    exact absurd (hrun.symm.trans hz) (by simp)
  | lapsed ha hs =>
    subst ha
    exact absurd hp hcpu.no_lapse

theorem Fires.current_in_use (hcpu : OnCpu (s.view none)) (hok : SparesSlots s e)
    (hcur : s.Current p) (hv : (v.proc p).state ≠ .unused) (hp : Permits s e v a) (hf : Fires v a v') :
    (v'.proc p).state ≠ .unused := by
  have hmoves := hf.slot_moves p
  generalize (v'.proc p).state = x at hmoves ⊢
  cases hmoves with
  | same => exact hv
  | reaped ha hs =>
    subst ha
    have hz : (s.proc p).state = .zombie := by rw [hp.1] at hs; exact hs
    have hrun := hcpu.state_of_current (State.current_view.mpr hcur)
    exact absurd (hrun.symm.trans hz) (by simp)
  | stopped ha hc =>
    subst ha
    have hv := hp.1
    subst hv
    exact absurd (State.current_view.mpr hcur) (hok.current.stop hp hf hc)
  | left ha _ hx => exact hx.ne_unused
  | _ => simp

/-- Between `s` and `s'`, event `e` moves slot `p` along its life cycle: a free slot stays free or is claimed by a `fork`, a
zombie stays one or is reaped by a `wait`, and the current process of a CPU is not freed. -/
def SlotCycle (s : State) (e : Event) (s' : State) (p : Slot) : Prop :=
  ((s.proc p).state = .unused → (s'.proc p).state ≠ .unused →
    (s'.proc p).state = .runnable ∧ freeSlot s = some p ∧ e.isFork = true) ∧
  ((s.proc p).state = .zombie → (s'.proc p).state ≠ .zombie →
    (s'.proc p).state = .unused ∧ ∃ k, e = .call k (.wait false) ∧ reaped k s = some p) ∧
  (s.Current p → (s'.proc p).state ≠ .unused)

/-- **The life cycle of a slot.** In every run whose steps spare free slots, zombies and current
processes, every step moves every slot along its life cycle. -/
theorem slot_lifeCycle {free : Nat} (h : Lib.Reach step SparesSlots (boot free) s)
    (hok : SparesSlots s e) (hs : step s e = some s') (p : Slot) : SlotCycle s e s' p := by
  have hacts := step_acts (reach_armed h) hs
  have hcpu := reach_onCpu (fun _ _ => SparesSlots.current) h
  have hpend : PendsFork s e (s.view none) := by
    intro q hq
    cases hq
  refine ⟨fun hfree hne => ?_, fun hz hne => ?_, fun hcur => ?_⟩
  · have hsince : PendsFork s e (s'.view none) ∧ FreeSince s e p (s'.view none) :=
      hacts.invariant (I := fun v => PendsFork s e v ∧ FreeSince s e p v)
        (fun v a v' hv hp hf => ⟨hv.1.fires hp hf, hv.2.fires hv.1 hcpu hok hfree hp hf⟩)
        ⟨hpend, .inl hfree⟩
    exact hsince.2.resolve_left hne
  · have hsince : PendsFork s e (s'.view none) ∧ ZombieSince s e p (s'.view none) :=
      hacts.invariant (I := fun v => PendsFork s e v ∧ ZombieSince s e p v)
        (fun v a v' hv hp hf => ⟨hv.1.fires hp hf, hv.2.fires hv.1 hcpu hok hz hp hf⟩)
        ⟨hpend, .inl hz⟩
    exact hsince.2.resolve_left hne
  have hrun : (s.proc p).state = .running := hcpu.state_of_current (State.current_view.mpr hcur)
  refine hacts.invariant (I := fun v => (v.proc p).state ≠ .unused)
    (fun v a v' hv hp hf => hf.current_in_use hcpu hok hcur hv hp) ?_
  change (s.proc p).state ≠ .unused
  rw [hrun]
  decide

/-- `"k"`, the name of the container in the runs below. -/
def nameK : CStr := .ofBytes [107] rfl

/-- Init creates a container, starts it and forks into it; CPU 2 runs the child. -/
def childRuns : List Event :=
  [.sched 0, .sched 1, .call 1 (.ccreate nameK (some 5)), .call 1 (.cstart nameK nameV 0),
    .call 1 (.cfork nameK), .sched 0, .sched 2, .sched 2]

theorem one_cpu_child : ∃ s : State, s.myproc 1 = some 0 ∧ (s.proc 0).state = .running ∧ ∀ j, s.myproc j = some 0 → j = 1 := by
  obtain ⟨s, hs, h1⟩ := Lib.Reach.of_any step SparesSlots (boot 100) childRuns (·.myproc 1 == some 0) (by decide)
  exact ⟨s, beq_iff_eq.mp h1, one_cpu hs (beq_iff_eq.mp h1)⟩

/-- A run that spares everything: the child exits, and init reaps it. -/
theorem slot_lifeCycle_reap : ∃ s s', Lib.Reach step SparesSlots (boot 100) s ∧
    (s.proc 1).state = .zombie ∧ step s (.call 1 (.wait false)) = some s' ∧
    SlotCycle s (.call 1 (.wait false)) s' 1 := by
  obtain ⟨s, hs, hz⟩ := Lib.Reach.of_any step SparesSlots (boot 100)
    (childRuns ++ [.call 2 (.exit 0)])
    (fun s => (s.proc 1).state == .zombie && (step s (.call 1 (.wait false))).isSome)
    (by decide)
  rw [Bool.and_eq_true, beq_iff_eq] at hz
  obtain ⟨s', hs'⟩ := Option.isSome_iff_exists.mp hz.2
  exact ⟨s, s', hs, hz.1, hs', slot_lifeCycle (e := .call 1 (.wait false)) hs trivial hs' 1⟩

theorem step_after (es : List Event) (e : Event) (p : State → State → Bool)
    (h : (Lib.exec step (fun _ _ => True) (boot 100) es).any
      (fun s => (step s e).any (p s)) = true) :
    ∃ s s', Lib.Reach step (fun _ _ => True) (boot 100) s ∧ step s e = some s' ∧ p s s' = true := by
  obtain ⟨s, hs, hp⟩ := Lib.Reach.of_any step (fun _ _ => True) (boot 100) es
    (fun s => (step s e).any (p s)) h
  obtain ⟨s', hs', hp'⟩ := (Option.any_eq_true _ _).mp hp
  exact ⟨s, s', hs, hs', hp'⟩

/-- **No part of the life cycle holds in every run.** `suspend(0, fd)` suspends a free slot; `cstop`
frees the slot of a zombie that nobody has waited for, and the slot of a process that is running on
another CPU. -/
theorem slot_cycle_broken :
    (∃ s s', Lib.Reach step (fun _ _ => True) (boot 100) s ∧
      step s (.call 1 (.suspend 0 0)) = some s' ∧
      (s.proc 1).state = .unused ∧ (s'.proc 1).state = .suspended) ∧
    (∃ s s', Lib.Reach step (fun _ _ => True) (boot 100) s ∧
      step s (.call 1 (.cstop nameK)) = some s' ∧
      (s.proc 1).state = .zombie ∧ (s'.proc 1).state = .unused) ∧
    ∃ s s', Lib.Reach step (fun _ _ => True) (boot 100) s ∧
      step s (.call 1 (.cstop nameK)) = some s' ∧
      s.myproc 2 = some 1 ∧ (s.proc 1).state = .running ∧ (s'.proc 1).state = .unused := by
  refine ⟨?_, ?_, ?_⟩
  · obtain ⟨s, s', hs, hs', hp⟩ := step_after [.sched 0, .sched 1] (.call 1 (.suspend 0 0))
      (fun s s' => (s.proc 1).state == .unused && (s'.proc 1).state == .suspended)
      (by decide)
    exact ⟨s, s', hs, hs', by simpa using hp⟩
  · obtain ⟨s, s', hs, hs', hp⟩ := step_after (childRuns ++ [.call 2 (.exit 0)])
      (.call 1 (.cstop nameK))
      (fun s s' => (s.proc 1).state == .zombie && (s'.proc 1).state == .unused)
      (by decide)
    exact ⟨s, s', hs, hs', by simpa using hp⟩
  obtain ⟨s, s', hs, hs', hp⟩ := step_after childRuns (.call 1 (.cstop nameK))
    (fun s s' => s.myproc 2 == some 1 && (s.proc 1).state == .running && (s'.proc 1).state == .unused)
    (by decide)
  rw [Bool.and_assoc] at hp
  exact ⟨s, s', hs, hs', by simpa using hp⟩

end Xv6.Kernel
