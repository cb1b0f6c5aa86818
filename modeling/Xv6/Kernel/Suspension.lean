/-
# Xv6.Kernel.Suspension — `cpause` and then `cresume`.

Pausing a container suspends its sleepers and its runnable processes, resuming it makes every
suspended one runnable.  `SUSPENDED` does not remember where it came from: a process that `suspend`
had stopped on its own is set running by the pair.
-/
import Xv6.Kernel.LifeCycle

namespace Xv6.Kernel

variable {name : CStr} {c : Cid} {s : State} {p : Slot}

def pauseResume (name : CStr) (s : State) : State := (kcresume name (kcpause name s).1).1

/-- From `s` to `s'` a process becomes `RUNNABLE` only from `RUNNABLE` or `SLEEPING`; every other process is in its old state. -/
structure Undone (c : Cid) (s s' : State) : Prop where
  runnable : ∀ p, (s'.proc p).state = .runnable → (s.proc p).state = .runnable ∨ (s.proc p).state = .sleeping
  stays : ∀ p, (s.proc p).state = .suspended ∨ (s.proc p).state = .zombie ∨
    (s.proc p).state = .running ∨ (s.proc p).state = .unused → (s'.proc p).state = (s.proc p).state
  others : ∀ p, (s.proc p).cont ≠ some c → (s'.proc p).state = (s.proc p).state

theorem name2cont_congr {s' : State} (h : ∀ d, (s'.cont d).nameAt = (s.cont d).nameAt) :
    name2cont name s' = name2cont name s := by
  unfold name2cont Container.answersTo
  simp only [h]

section

variable (hname : name2cont name s = some c) (hroot : (s.cont c).isroot = 0) (hstate : (s.cont c).state = .crunnable)
include hname hroot hstate

theorem kcpause_eq : kcpause name s = (pauseprocforcontainer c (s.setCont c { s.cont c with state := .cpaused }), 1) := by
  unfold kcpause
  simp only [hname]
  rw [if_neg (not_not.mpr hroot), if_neg fun h => h.1 hstate]

theorem kcresume_kcpause :
    (kcresume name (kcpause name s).1).2 = 1 ∧ (pauseResume name s).proc =
      (resumeprocforcontainer c (pauseprocforcontainer c s)).proc := by
  have hfound : name2cont name (kcpause name s).1 = some c := by
    rw [kcpause_eq hname hroot hstate, ← hname]
    refine name2cont_congr fun d => ?_
    by_cases hd : d = c
    · subst hd
      funext i
      simp [pauseprocforcontainer, Container.nameAt]
    · simp [pauseprocforcontainer, hd]
  unfold pauseResume kcresume
  simp only [hfound]
  rw [kcpause_eq hname hroot hstate, if_neg, if_neg]
  · exact ⟨rfl, rfl⟩
  · simp [pauseprocforcontainer]
  · simp [pauseprocforcontainer, hroot]

theorem pauseResume_state (p : Slot) :
    ((pauseResume name s).proc p).state =
      if (s.proc p).cont = some c ∧ ((s.proc p).state = .sleeping ∨
        (s.proc p).state = .runnable ∨ (s.proc p).state = .suspended) then .runnable
      else (s.proc p).state := by
  rw [(kcresume_kcpause hname hroot hstate).2]
  by_cases hc : (s.proc p).cont = some c
  · cases hst : (s.proc p).state <;>
      simp [resumeprocforcontainer, pauseprocforcontainer, hc, hst]
  · simp [resumeprocforcontainer, pauseprocforcontainer, hc]

end

/-- **Resume undoes pause, exactly** when no process of the container was suspended before. -/
theorem resume_undoes_pause_iff (name : CStr) (c : Cid) (s : State)
    (hname : name2cont name s = some c) (hroot : (s.cont c).isroot = 0)
    (hstate : (s.cont c).state = .crunnable) :
    Undone c s (pauseResume name s) ↔ ∀ p, (s.proc p).cont = some c → (s.proc p).state ≠ .suspended := by
  have hone := pauseResume_state hname hroot hstate
  constructor
  · intro h p hp hsusp
    have hstays := h.stays p (.inl hsusp)
    rw [hone p, if_pos ⟨hp, .inr (.inr hsusp)⟩, hsusp] at hstays
    cases hstays
  intro h
  refine ⟨fun p hrun => ?_, fun p hold => ?_, fun p hp => ?_⟩
  · rw [hone p] at hrun
    split at hrun
    · rename_i hc
      rcases hc.2 with hs | hs | hs
      · exact .inr hs
      · exact .inl hs
      · exact absurd hs (h p hc.1)
    · exact .inl hrun
  · rw [hone p, if_neg]
    rintro ⟨hc, hs⟩
    have := h p hc
    rcases hold with ho | ho | ho | ho <;> simp [ho] at hs this
  · rw [hone p, if_neg fun hc => hp hc.1]

/-- A started container with a sleeping process in slot 1 and another process in slot 2. -/
def withProcesses (other : ProcState) : State :=
  let s := (kcstart nameC nameV 0 (kccreate nameC (some 5) (boot 0)).1).1
  let s := s.setProc 1 { s.proc 1 with state := .sleeping, pid := 2, cont := some 1 }
  s.setProc 2 { s.proc 2 with state := other, pid := 3, cont := some 1 }

/-- With nobody suspended the pair only wakes. -/
theorem resume_undoes_pause_iff_zombie :
    name2cont nameC (withProcesses .zombie) = some 1 ∧
      Undone 1 (withProcesses .zombie) (pauseResume nameC (withProcesses .zombie)) := by
  have hname : name2cont nameC (withProcesses .zombie) = some 1 := by decide
  exact ⟨hname, (resume_undoes_pause_iff nameC 1 _ hname (by decide)
    (by decide)).mpr (by decide)⟩

/-- A process stopped by `suspend` runs after the container was paused and resumed. -/
theorem resume_wakes_suspended :
    ¬ ∀ (name : CStr) (c : Cid) (s : State), name2cont name s = some c → (s.cont c).isroot = 0 →
      (s.cont c).state = .crunnable → Undone c s (pauseResume name s) := by
  intro h
  have hundone := h nameC 1 (withProcesses .suspended) (by decide +kernel) (by decide +kernel)
    (by decide +kernel)
  have hstays := hundone.stays 2 (.inl (by decide +kernel))
  revert hstays
  decide +kernel

end Xv6.Kernel
