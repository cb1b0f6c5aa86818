/-
# Xv6.Kernel.Binding — a live process belongs to a container that is in use.

Containers go away on two paths.  `kcstop` frees the processes with the container; the limit handler
only marks them killed, and they outlive the slot they point to.  A process that `kcstop` frees while it
is on a CPU, in the middle of a call, may still go to sleep, and then has a slot and no container.  So the
binding holds in every run that stays within the limits and stops no container under a running process; of two
forks that are under way at once both may begin within a limit that only one of them meets.

`suspend` is not among the calls looked at here: it overwrites the state of whatever slot has the
pid, free slots included.
-/
import Xv6.Kernel.Sections
import Xv6.Kernel.Slots

namespace Xv6.Kernel

variable {s s' : State} {v v' : View} {a : Act} {p : Slot} {c : Cid}

def Unnamed (v : View) : Prop := ∀ c, (v.cont c).state = .cunused → (v.cont c).name = noName

theorem Fires.unnamed (h : Fires v a v') (hn : Unnamed v) : Unnamed v' := by
  intro c hc
  have hold := hn c
  cases h <;> grind [CView.freed, CView.created, CView.recycled]

theorem unnamed_boot (free : Nat) : Unnamed ((boot free).view none) := by
  intro c hc
  by_cases h0 : c = ROOTCONT
  · subst h0
    simp [State.view, boot, Container.view, rootCont] at hc
  · simp [State.view, boot, h0, Container.view, Container.zero]

/-- The empty string finds the root container; any other string only finds slots with a name. -/
theorem name2cont_used {name : CStr} (hr : RootIntact (s.view none)) (hn : Unnamed (s.view none))
    (h : name2cont name s = some c) : (s.cont c).state ≠ .cunused := by
  intro hstate
  have hnone : (s.cont c).name = noName := hn c hstate
  obtain ⟨hans, hfirst⟩ := Fin.find?_eq_some_iff.mp h
  have hzero : strncmp name.get (s.cont c).nameAt name.strlen = 0 := by
    simpa [Container.answersTo] using hans
  by_cases hlen : name.strlen = 0
  · -- every slot answers to the empty string, so the first one was taken
    have hc : c = ROOTCONT := by
      by_contra hne
      have hlt : ROOTCONT < c := Fin.pos_iff_ne_zero.mpr hne
      have := hfirst ROOTCONT hlt
      simp [Container.answersTo, hlen, strncmp, strncmpFrom] at this
    have hroot : (s.cont ROOTCONT).state = .crunnable := hr.state
    rw [hc, hroot] at hstate
    cases hstate
  · have hpos : 0 < name.strlen := Nat.pos_of_ne_zero hlen
    have h0 := (strncmp_eq_zero_iff _ _ _).mp hzero 0 hpos (by simp)
    have hat : (s.cont c).nameAt 0 = 0 := by simp [Container.nameAt, hnone, noName]
    exact name.get_ne_zero hpos (h0.trans hat)

/-! ## The binding -/

/-- A slot that is live, or being allocated, points to a container in use. -/
structure Bound (v : View) : Prop where
  pending : ∀ p, v.pend = some p → (v.proc p).state = .unused
  cont : ∀ p, (v.proc p).state ≠ .unused ∨ v.pend = some p →
    ∃ c, (v.proc p).cont = some c ∧ (v.cont c).state ≠ .cunused

/-- Every act but a teardown, a `suspend` and a lapse keeps the binding, if slots are only claimed for
containers in use. -/
theorem Bound.fires (h : Bound v) (hf : Fires v a v') (hdown : ∀ c, a ≠ .teardown c)
    (hsusp : ∀ p, a ≠ .suspend p) (hlapse : ∀ k p, a ≠ .lapse k p) (hclaim : ∀ p c, a = .claim p c → (v.cont c).state ≠ .cunused)
    (hstop : ∀ c, a = .stop c → v.pend = none) : Bound v' where
  pending p hp := by
    have hold := h.pending p
    cases hf with
    | wake f hf => exact (Fires.wake_unused hf p).mpr (hold hp)
    | _ => grind [PView.free, PView.kill]
  cont p hp := by
    have hpend := h.pending p
    have hold := h.cont p
    cases hf with
    | wake f hf => exact hold (hp.imp_left fun hlive hu => hlive ((Fires.wake_unused hf p).mpr hu))
    | teardown => exact absurd rfl (hdown _)
    | suspend => exact absurd rfl (hsusp _)
    | lapse => exact absurd rfl (hlapse _ _)
    | @claim q d hu hn =>
      have hd := hclaim q d rfl
      grind
    | _ => grind [PView.free, CView.created, CView.recycled, CView.freed]

theorem bound_boot (free : Nat) : Bound ((boot free).view none) where
  pending p hp := by cases hp
  cont p hp := by
    have hlive := hp.resolve_right (by simp [State.view])
    by_cases h0 : p = 0
    · subst h0
      exact ⟨ROOTCONT, by simp [State.view, boot, Proc.view, initProc],
        by simp [State.view, boot, Container.view, rootCont]⟩
    · simp [State.view, boot, h0, Proc.view, Proc.zero] at hlive

structure Tables (v : View) : Prop where
  root : RootIntact v
  unnamed : Unnamed v
  bound : Bound v
  cpu : OnCpu v

/-- The events of a run within the limits in which no container is stopped under a running process. -/
def Orderly (s : State) (e : Event) : Prop := e.isSuspend = false ∧ WithinLimits s e ∧ SparesCurrent s e
deriving Decidable

theorem Tables.fires {e : Event} (hok : Orderly s e) (hs : Tables (s.view none)) (h : Tables v)
    (hp : Permits s e v a) (hf : Fires v a v') : Tables v' where
  root := h.root.fires hf
  unnamed := hf.unnamed h.unnamed
  bound := by
    refine h.bound.fires hf ?_ ?_ ?_ ?_ ?_
    · rintro c rfl
      exact hp hok.2.1
    · rintro p rfl
      obtain ⟨-, k, pid, n, rfl, -⟩ := hp
      cases hok.1
    · rintro k p rfl
      exact hs.cpu.no_lapse hp
    · rintro p c rfl
      -- a plain `fork` stays in the caller's container, `cfork` goes to a container with a name
      obtain ⟨rfl, -, ⟨k, q, -, -, hlive, hc⟩ | ⟨k, name, -, hc⟩⟩ := hp
      · obtain ⟨d, hd, hused⟩ := hs.bound.cont q (.inl hlive)
        cases hc.symm.trans hd
        exact hused
      · exact name2cont_used hs.root hs.unnamed hc
    · rintro c rfl
      obtain ⟨rfl, -⟩ := hp
      rfl
  cpu := h.cpu.fires hok.2.2 hp hf

theorem tables_boot (free : Nat) : Tables ((boot free).view none) :=
  ⟨rootIntact_boot free, unnamed_boot free, bound_boot free, onCpu_boot free⟩

theorem reach_tables {free : Nat} (h : Lib.Reach step Orderly (boot free) s) : Tables (s.view none) :=
  reach_view (tables_boot free) (fun _ _ _ _ _ hok hs hv hp hf => Tables.fires hok hs hv hp hf) h

def ProcBound (s : State) : Prop :=
  ∀ p, (s.proc p).state ≠ .unused → ∃ c, (s.proc p).cont = some c ∧ (s.cont c).state ≠ .cunused
deriving Decidable

theorem kccreate_proc (name : CStr) (dir : Option Ino) (s : State) : (kccreate name dir s).1.proc = s.proc := by
  unfold kccreate
  split
  · rfl
  unfold alloccont
  cases freeCid s with
  | none => rfl
  | some c =>
    simp only [Option.map_some, setcontrootdir]
    split
    · rfl
    · cases dir <;> rfl

theorem reach_procBound {free : Nat} (h : Lib.Reach step Orderly (boot free) s) : ProcBound s :=
  fun p hp => (reach_tables h).bound.cont p (.inl hp)

theorem ProcBound.of_countChild {np : Slot} (h : ProcBound (countChild np s)) : ProcBound s := by
  obtain ⟨-, hproc, hcont⟩ := countChild_keeps np s
  intro p hp
  obtain ⟨c, hc, hused⟩ := h p (mt (hproc p).1.mp hp)
  exact ⟨c, (hproc p).2 ▸ hc, hcont c hused⟩

/-- **Processes stay bound to their containers while the limits hold**, and a slot that `kccreate` takes has no process of an
earlier container. -/
theorem procBound_of_orderly {free : Nat} {f : Fine}
    (h : Lib.Reach Fine.step (Keeps Orderly) (Fine.boot free) f) :
    ProcBound f.base ∧ ∀ name dir c, freeCid f.base = some c →
      ∀ p, ((kccreate name dir f.base).1.proc p).state ≠ .unused →
        ((kccreate name dir f.base).1.proc p).cont ≠ some c := by
  have hbound : ProcBound f.base := by
    cases follows h with
    | whole h => exact reach_procBound h
    | forking h hok hs => exact (reach_procBound (h.next hok hs)).of_countChild
  refine ⟨hbound, fun name dir c hc p hp hpc => ?_⟩
  rw [kccreate_proc] at hp hpc
  obtain ⟨d, hd, hused⟩ := hbound p hp
  cases hpc.symm.trans hd
  exact hused (by simpa using (Fin.find?_eq_some_iff.mp hc).1)

/-- Init runs on CPU 1, and creates and starts a container. -/
def startsC (disk : BitVec 32) : List Section :=
  [.look 0, .pick 0, .look 1, .pick 1, .take 1, .event (.call 1 (.ccreate nameC (some 5))),
    .event (.call 1 (.cstart nameC nameV disk))]

/-- An orderly run with a process in a container of its own. -/
theorem procBound_run : ∃ f, Lib.Reach Fine.step (Keeps Orderly) (Fine.boot 100) f ∧
    ((f.base.proc 1).state = .runnable ∧ (f.base.proc 1).cont = some 1) ∧ ProcBound f.base := by
  obtain ⟨f, hf, h1⟩ := Lib.Reach.of_any Fine.step (Keeps Orderly) (Fine.boot 100)
    (startsC 0 ++ [.event (.call 1 (.cfork nameC)), .count 1])
    (fun f => (f.base.proc 1).state = .runnable ∧ (f.base.proc 1).cont = some 1) (by decide +kernel)
  exact ⟨f, hf, of_decide_eq_true h1, (procBound_of_orderly hf).1⟩

/-- A container is started with its whole disk quota taken, and the first block its process asks for
is one too many: the handler frees the container under the running process. -/
theorem not_procBound : ¬ ∀ free f,
    Lib.Reach Fine.step (Keeps fun _ e => e.onGroups = true) (Fine.boot free) f → ProcBound f.base := by
  intro h
  obtain ⟨f, hf, h1⟩ := Lib.Reach.of_any Fine.step (Keeps fun _ e => e.onGroups = true) (Fine.boot 100)
    (startsC 327680 ++ [.event (.call 1 (.cfork nameC)), .count 1, .look 0, .pick 0, .look 2, .pick 2, .take 2, .look 2,
      .pick 2, .take 2, .event (.balloc 2)])
    (fun f => !decide (ProcBound f.base)) (by decide +kernel)
  exact absurd (h 100 f hf) (by simpa using h1)

end Xv6.Kernel
