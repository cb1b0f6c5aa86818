/-
# Xv6.Kernel.Idle — which calls change working directories, and which slots fall idle.

`Quiet D E` (`Xv6.Kernel.Writes`) bounds both.  A call that ends its caller leaves it without a working
directory; a `fork` with a child gives the child one; any other call lets fall idle only the processes
of a container that it stops.
-/
import Xv6.Kernel.Binding
import Xv6.Kernel.Writes

namespace Xv6.Kernel

open Option

variable {s t : State} {p : Slot} {k : Fin NCPU} {c : Cid} {x : Call}

/-! ## Single calls -/

theorem fork_quiet {o : Option Cid} {r : Int} (h : fork k o s = some (t, r)) :
    Quiet ∅ ∅ s.proc t.proc ∨ ∃ np, freeSlot s = some np ∧ ¬ (t.proc np).state.Idle ∧ Quiet {np} ∅ s.proc t.proc := by
  rcases fork_writes h with hw | ⟨np, hnp, hbusy, hw⟩
  · exact .inl (hw.quiet.absorb fun _ hp => .inl hp)
  · exact .inr ⟨np, hnp, hbusy, hw.quiet⟩

theorem exit_quiet {status : Int} (hp : s.myproc k = some p) (h : exit k status s = some t) :
    Quiet {p} {p} s.proc t.proc ∧ (t.proc p).cwd = none := by
  have hrest := (exit_writes hp h).quiet
  have hdrop : Quiet {p} {p} s.proc (s.setProc p { s.proc p with cwd := none }).proc :=
    .update (.inl rfl) fun hx => .inl hx
  refine ⟨hdrop.trans (hrest.mono (Set.empty_subset _) subset_rfl), ?_⟩
  refine (hrest.cwd p (Set.notMem_empty p)).trans ?_
  simp

def members (s : State) (c : Cid) : Set Slot := { p | (s.proc p).cont = some c }

theorem containerkillall_quiet (h : containerkillall k c s = some t) : Quiet ∅ (members s c) s.proc t.proc where
  cwd q hq := (killIn_foldlM_writes h).quiet.cwd q hq
  idle q hq := by
    obtain ⟨n, hview⟩ := killIn_foldlM_view h
    have hproc : (t.proc q).view = if q ∈ List.finRange NPROC ∧ (s.proc q).cont = some c then .free
        else (s.proc q).view := congrFun (congrArg View.proc hview) q
    by_cases hqc : (s.proc q).cont = some c
    · exact .inr hqc
    · rw [if_neg fun hc => hqc hc.2] at hproc
      have hstate : (t.proc q).state = (s.proc q).state := congrArg PView.state hproc
      exact .inl (hstate ▸ hq)

theorem kcstop_cases {name : CStr} {r : Int} (h : kcstop k name s = some (t, r)) :
    t = s ∧ r = -1 ∨ ∃ c, name2cont name s = some c ∧ (s.cont c).isroot = 0 ∧
      ((s.cont c).state = .crunnable ∨ (s.cont c).state = .cpaused) ∧ r = 1 ∧ Quiet ∅ (members s c) s.proc t.proc := by
  unfold kcstop at h
  split at h
  · cases h
    exact .inl ⟨rfl, rfl⟩
  rename_i c hc
  split at h
  · cases h
    exact .inl ⟨rfl, rfl⟩
  rename_i hroot
  split at h
  · cases h
    exact .inl ⟨rfl, rfl⟩
  rename_i hstate
  obtain ⟨u, hu, h⟩ := bind_eq_some_iff.mp h
  cases h
  have hquiet := containerkillall_quiet hu
  refine .inr ⟨c, hc, not_not.mp hroot, ?_, rfl, hquiet⟩
  exact (not_and_or.mp hstate).imp not_not.mp not_not.mp

/-! ## Steps -/

def Call.child (s : State) (x : Call) (t : State) : Option Slot :=
  match x with
  | .fork | .cfork _ => (freeSlot s).filter fun np => !decide (t.proc np).state.Idle
  | _ => none

def Call.stopped (s : State) : Call → Option Cid
  | .cstop name => (name2cont name s).filter fun c =>
    (s.cont c).isroot == 0 && ((s.cont c).state == .crunnable || (s.cont c).state == .cpaused)
  | _ => none

def Call.stops (s : State) (x : Call) : Set Slot := { p | ∃ c, x.stopped s = some c ∧ p ∈ members s c }

theorem trap_myproc (h : trap k s = some p) : s.myproc k = some p := by
  obtain ⟨q, hq, h⟩ := bind_eq_some_iff.mp h
  split at h
  · cases h
    exact hq
  · cases h

theorem usertrap_exits (hp : s.myproc k = some p) (hx : x.exits s p = true)
    (h : usertrap k x s = some t) : Quiet {p} {p} s.proc t.proc ∧ (t.proc p).cwd = none := by
  obtain ⟨q, hq, h⟩ := bind_eq_some_iff.mp h
  cases hp.symm.trans (trap_myproc hq)
  split at h
  · exact exit_quiet hp h
  rename_i hkilled
  have hlive : ¬ ∀ q, x.exits s q = (s.proc q).killed := fun hall => hkilled ((hall p).symm.trans hx)
  cases syscall_does h with
  | exits _ _ h => exact exit_quiet hp h
  | forks _ _ hall | stops _ _ hall | writes hall => exact absurd hall hlive

theorem usertrap_syscall (hp : s.myproc k = some p) (hx : x.exits s p = false)
    (h : usertrap k x s = some t) : syscall k x s = some t := by
  obtain ⟨q, hq, h⟩ := bind_eq_some_iff.mp h
  cases hp.symm.trans (trap_myproc hq)
  obtain ⟨hkilled, -⟩ := Bool.or_eq_false_iff.mp hx
  rwa [if_neg (Bool.eq_false_iff.mp hkilled)] at h

theorem syscall_quiet (hx : x.exits s p = false) (hc : x.child s t = none)
    (h : syscall k x s = some t) : Quiet ∅ (x.stops s) s.proc t.proc := by
  cases syscall_does h with
  | exits _ hall =>
    rw [hall p] at hx
    cases hx
  | forks o r _ hfork h =>
    have hnone : (freeSlot s).filter (fun np => !decide (t.proc np).state.Idle) = none := by
      rcases hfork with rfl | ⟨name, rfl⟩ <;> exact hc
    rcases fork_quiet h with hq | ⟨np, hnp, hbusy, -⟩
    · exact hq.mono subset_rfl (Set.empty_subset _)
    · rw [hnp, filter_some, if_pos (by simpa using hbusy)] at hnone
      cases hnone
  | stops name r _ hstop hs =>
    subst hstop
    rcases kcstop_cases hs with ⟨rfl, -⟩ | ⟨c, hname, hroot, hstate, -, hq⟩
    · exact .refl _
    · refine hq.mono subset_rfl fun q hq => ⟨c, ?_, hq⟩
      exact filter_eq_some_iff.mpr ⟨hname, by simpa [hroot] using hstate⟩
  | writes _ hw => exact (hw.quiet.absorb fun _ hp => .inr hp).mono subset_rfl (Set.empty_subset _)

theorem syscall_child {np : Slot} (hc : x.child s t = some np)
    (h : syscall k x s = some t) : freeSlot s = some np ∧ Quiet {np} ∅ s.proc t.proc := by
  have hfork : ∀ {o r}, fork k o s = some (t, r) →
      (freeSlot s).filter (fun np => !decide (t.proc np).state.Idle) = some np →
        freeSlot s = some np ∧ Quiet {np} ∅ s.proc t.proc := by
    intro o r h hsome
    have hnp : freeSlot s = some np := (filter_eq_some_iff.mp hsome).1
    refine ⟨hnp, ?_⟩
    rcases fork_quiet h with hq | ⟨np', hnp', -, hq⟩
    · exact hq.mono (Set.empty_subset _) subset_rfl
    · cases hnp.symm.trans hnp'
      exact hq
  cases x with
  | fork =>
    obtain ⟨⟨u, r⟩, hu, rfl⟩ := map_eq_some_iff.mp h
    exact hfork hu hc
  | cfork name =>
    obtain ⟨⟨u, r⟩, hu, rfl⟩ := map_eq_some_iff.mp h
    unfold kcfork at hu
    split at hu
    · cases hu
      exact ⟨(filter_eq_some_iff.mp hc).1, .refl _⟩
    · exact hfork hu hc
  | _ => cases hc

end Xv6.Kernel
