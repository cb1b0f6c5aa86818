/-
# Xv6.Kernel.Limits — the memory and disk limits of a container hold.

A release is passed as a huge unsigned number, so every sum wraps modulo `2^64`, and the setters
compare by an unsigned subtraction.  Neither gets past a limit: the sum is compared as it will be
stored, and the setters only ever accept the limit that is already there.

The runs here are wider than the machine's: between its events, every function that touches the four
numbers may be called on its own, on any container and with any amount.
-/
import Xv6.Kernel.Writes

namespace Xv6.Kernel

variable {s s' : State} {c : Cid}

def State.Within (s : State) : Prop := ∀ c, (s.cont c).Within

theorem Writes.within {D E : Set Slot} (h : Writes D E s s') (hw : s.Within) : s'.Within := by
  induction h with
  | refl | procs | rest | free => exact hw
  | trans _ _ ih ih' => exact ih' (ih hw)
  | conts h => exact fun c => h c (hw c)
  | charged h => exact fun c => h.within c (hw c)
  | @claim s np c =>
    intro d
    unfold claimSlot
    dsimp only
    split
    · exact hw d
    rw [State.setProc_cont, State.setCont_cont]
    exact Lib.update_cases (hw c) (fun d _ => hw d) d

theorem step_within {e : Event} (h : s.Within) (hs : step s e = some s') : s'.Within := (step_writes hs).within h

/-! ## Runs -/

/-- A step of a run that also calls the accounting functions on their own. -/
inductive LimitOp
  | event (e : Event)
  | kccreate (name : CStr) (dir : Option Ino)
  | kcstart (name vcname : CStr) (disksize : BitVec 64)
  | kcstop (k : Fin NCPU) (name : CStr)
  | setmaxmem (k : Fin NCPU) (name : CStr) (newmax : BitVec 32)
  | setmaxdsk (k : Fin NCPU) (name : CStr) (newmax : BitVec 32)
  | updatecontmem (d : BitVec 64) (c : Option Cid)
  | updatecontdsk (d : BitVec 64) (c : Option Cid)
  | climitexceedhandler (c : Cid)
  | freecontainer (c : Cid)

def limitStep (s : State) : LimitOp → Option State
  | .event e => step s e
  | .kccreate name dir => some (kccreate name dir s).1
  | .kcstart name vcname n => some (kcstart name vcname n s).1
  | .kcstop k name => (kcstop k name s).map (·.1)
  | .setmaxmem k name n => (setmaxmem k name n s).map (·.1)
  | .setmaxdsk k name n => (setmaxdsk k name n s).map (·.1)
  | .updatecontmem d c => some (updatecontmem d c s).1
  | .updatecontdsk d c => some (updatecontdsk d c s).1
  | .climitexceedhandler c => some (climitexceedhandler c s)
  | .freecontainer c => some (freecontainer c s)

theorem limitStep_writes {o : LimitOp} (hs : limitStep s o = some s') : Writes Set.univ Set.univ s s' := by
  cases o with
  | event e => exact step_writes hs
  | kccreate name dir =>
    cases hs
    exact kccreate_writes name dir s
  | kcstart name vcname n =>
    cases hs
    exact kcstart_writes name vcname n s
  | kcstop k name =>
    obtain ⟨⟨t, r⟩, ht, rfl⟩ := Option.map_eq_some_iff.mp hs
    exact kcstop_writes ht
  | setmaxmem k name n =>
    obtain ⟨⟨t, r⟩, ht, rfl⟩ := Option.map_eq_some_iff.mp hs
    exact setmax_any Container.Within.withMaxSz ht
  | setmaxdsk k name n =>
    obtain ⟨⟨t, r⟩, ht, rfl⟩ := Option.map_eq_some_iff.mp hs
    exact setmax_any Container.Within.withMaxDsk ht
  | updatecontmem d c =>
    cases hs
    exact updatecontmem_writes d c s
  | updatecontdsk d c =>
    cases hs
    exact updatecontdsk_writes d c s
  | climitexceedhandler c =>
    cases hs
    exact climitexceedhandler_writes c s
  | freecontainer c =>
    cases hs
    exact freecontainer_writes c s

theorem within_boot (free : Nat) : (boot free).Within := by
  intro c hroot
  by_cases hc : c = ROOTCONT
  · subst hc
    simp [boot, rootCont] at hroot
  · have hzero : (boot free).cont c = Container.zero c := by simp [boot, hc]
    rw [hzero]
    exact ⟨BitVec.le_refl _, BitVec.le_refl _⟩

/-- **The memory and disk limits hold** for every container but the root, in every state of every run
of the kernel and of the accounting functions. -/
theorem used_le_max {free : Nat} (h : Lib.Reach limitStep (fun _ _ => True) (boot free) s)
    (hroot : (s.cont c).isroot = 0) :
    (s.cont c).usedMem ≤ (s.cont c).maxSz ∧ (s.cont c).usedDsk ≤ (s.cont c).maxDsk :=
  Lib.Reach.invariant (within_boot free) (fun _ _ _ hw _ hs => (limitStep_writes hs).within hw) h c hroot

/-- A run that charges a container up to its disk limit and then tries a release that wraps, one block
too many and a larger limit. -/
theorem used_le_max_run : ∃ s, Lib.Reach limitStep (fun _ _ => True) (boot 100) s ∧
    (s.cont 1).usedDsk = 327680 ∧ (s.cont 1).usedDsk ≤ (s.cont 1).maxDsk := by
  obtain ⟨s, hs, h1⟩ := Lib.Reach.of_any limitStep (fun _ _ => True) (boot 100)
    [.event (.sched 0), .event (.sched 1), .kccreate nameC (some 5), .kcstart nameC nameV 327680,
      .updatecontdsk (neg64 400000) (some 1), .updatecontdsk 1024 (some 1),
      .setmaxdsk 1 nameC 100000, .updatecontmem (neg64 4096) (some 1)]
    (fun s => (s.cont 1).usedDsk == 327680 && (s.cont 1).isroot == 0) (by decide +kernel)
  simp only [Bool.and_eq_true, beq_iff_eq] at h1
  exact ⟨s, hs, h1.1, (used_le_max hs h1.2).2⟩

end Xv6.Kernel
