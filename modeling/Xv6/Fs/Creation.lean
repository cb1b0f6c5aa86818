/-
# Xv6.Fs.Creation — what a failed `kccreate` leaves behind.

The slot is claimed and filled before the directory is looked for, and the cleanup sits in
`setcontrootdir`, which looks the container up again by the untruncated name.  When that lookup
finds the slot, `freecontainer` puts it back to what every free slot of a run holds (`Blank`); when it
does not, the call fails and the slot stays `CINITED`.
-/
import Xv6.Fs.Rooted
import Xv6.Kernel.Limits

namespace Xv6.Fs

open Kernel (Cid Ino CStr State Container View CView Act Fires boot noName RootIntact)

variable {s : State} {v v' : View} {a : Act} {name : CStr} {dir : Option Ino} {x : Container}

/-! ## Free slots -/

/-- A container as `freecontainer` leaves it, as far as the view goes. -/
structure CView.Blank (x : CView) : Prop where
  name : x.name = noName
  maxProc : x.maxProc = 0
  maxSz : x.maxSz = 0
  maxDsk : x.maxDsk = 0
  usedProc : x.usedProc = 0
  rootdir : x.rootdir = none

def FreeBlank (v : View) : Prop := ∀ c, (v.cont c).state = .cunused → CView.Blank (v.cont c)

theorem blank_freed (x : CView) : CView.Blank x.freed := ⟨rfl, rfl, rfl, rfl, rfl, rfl⟩

theorem blank_recycled (x : CView) : CView.Blank x.recycled := ⟨rfl, rfl, rfl, rfl, rfl, rfl⟩

theorem CView.Blank.next {x : CView} (h : CView.Blank x) (p : Option Kernel.Slot) : CView.Blank { x with next := p } :=
  ⟨h.name, h.maxProc, h.maxSz, h.maxDsk, h.usedProc, h.rootdir⟩

theorem count_unused {x : CView} (h : x.state = .cunused) (d : Int) : x.count d = x := by
  simp [CView.count, h]

theorem FreeBlank.fires (h : FreeBlank v) (hf : Fires v a v') : FreeBlank v' := by
  intro c hc
  have hold := h c
  cases hf <;> grind [CView.freed, CView.created, CView.recycled, blank_freed, blank_recycled,
    count_unused, CView.Blank, CView.Blank.next]

theorem freeBlank_boot (free : Nat) : FreeBlank ((boot free).view none) := by
  intro c hc
  by_cases h0 : c = Kernel.ROOTCONT
  · subst h0
    simp [State.view, boot, Container.view, Kernel.rootCont] at hc
  · have hzero : (boot free).cont c = Container.zero c := by simp [boot, h0]
    show CView.Blank ((boot free).cont c).view
    rw [hzero]
    exact ⟨rfl, rfl, rfl, rfl, rfl, rfl⟩

/-- Two contents of a container slot agree on everything a failed creation may
not change. -/
structure SameSlot (x y : Container) : Prop where
  state : x.state = y.state
  name : x.name = y.name
  maxProc : x.maxProc = y.maxProc
  maxSz : x.maxSz = y.maxSz
  maxDsk : x.maxDsk = y.maxDsk
  usedProc : x.usedProc = y.usedProc
  usedMem : x.usedMem = y.usedMem
  usedDsk : x.usedDsk = y.usedDsk
  rootdir : x.rootdir = y.rootdir

theorem SameSlot.refl (x : Container) : SameSlot x x := ⟨rfl, rfl, rfl, rfl, rfl, rfl, rfl, rfl, rfl⟩

theorem uncharged (h : x.Within) (hroot : x.isroot = 0) (hsz : x.maxSz = 0)
    (hdsk : x.maxDsk = 0) : x.usedMem = 0 ∧ x.usedDsk = 0 := by
  obtain ⟨hmem, hdisk⟩ := h hroot
  rw [hsz] at hmem
  rw [hdsk] at hdisk
  exact ⟨BitVec.le_zero_iff.mp hmem, BitVec.le_zero_iff.mp hdisk⟩

/-- **Freeing a slot that was filled restores it.** -/
theorem sameSlot_freed {c : Cid} (hblank : FreeBlank (s.view none)) (hwithin : s.Within)
    (hintact : RootIntact (s.view none)) (hfree : Kernel.freeCid s = some c) :
    SameSlot (s.cont c) ((s.cont c).created name).freed := by
  have hunused : (s.cont c).state = .cunused := by simpa using (Fin.find?_eq_some_iff.mp hfree).1
  have hroot : (s.cont c).isroot = 0 := by
    refine hintact.others c fun hc => ?_
    have hrun : (s.cont Kernel.ROOTCONT).state = .crunnable := hintact.state
    rw [← hc, hunused] at hrun
    cases hrun
  have hb : CView.Blank (s.cont c).view := hblank c hunused
  obtain ⟨hmem, hdsk⟩ := uncharged (hwithin c) hroot hb.maxSz hb.maxDsk
  exact ⟨hunused, hb.name, hb.maxProc, hb.maxSz, hb.maxDsk, hb.usedProc, hmem, hdsk, hb.rootdir⟩

/-! ## Failed creations -/

/-- If `kccreate(name)` fails, where `namei(name)` finds `dir`, every
container slot is as before. -/
def NoTrace (name : CStr) (dir : Option Ino) (s : State) : Prop :=
  (Kernel.kccreate name dir s).2 = -1 → ∀ c, SameSlot (s.cont c) ((Kernel.kccreate name dir s).1.cont c)

theorem sameSlot_setCont {c : Cid} (hx : SameSlot (s.cont c) x) (d : Cid) :
    SameSlot (s.cont d) ((s.setCont c x).cont d) := by
  rw [State.setCont_cont]
  exact Lib.update_cases hx (fun d _ => .refl (s.cont d)) d

/-- **Failed creation leaves no trace, exactly** when the name is taken, no slot is free, or the
name matches what is stored of it. -/
theorem kccreate_noTrace_iff {free : Nat} (name : CStr) (dir : Option Ino)
    (h : Lib.Reach Kernel.step (fun _ _ => True) (boot free) s) :
    NoTrace name dir s ↔ (Kernel.name2cont name s = none → Kernel.freeCid s ≠ none → Retrievable name) := by
  have hblank : FreeBlank (s.view none) :=
    Kernel.reach_view (freeBlank_boot free) (fun _ _ _ _ _ _ _ hv _ hf => hv.fires hf) h
  have hwithin : s.Within :=
    Lib.Reach.invariant (Kernel.within_boot free) (fun _ _ _ hw _ hs => Kernel.step_within hw hs) h
  have hintact := Kernel.reach_rootIntact h
  unfold NoTrace
  rw [Kernel.kccreate_eq]
  cases hnew : Kernel.name2cont name s with
  | some d => exact iff_of_true (fun _ c => .refl _) fun h => by cases h
  | none =>
    cases hfree : Kernel.freeCid s with
    | none => exact iff_of_true (fun _ c => .refl _) fun _ h => absurd rfl h
    | some c =>
      dsimp only
      split
      · -- the second lookup finds the slot
        rename_i hself
        refine iff_of_true ?_ fun _ _ => (answersTo_created_iff name _).mp hself
        cases dir with
        | none => exact fun _ => sameSlot_setCont (sameSlot_freed hblank hwithin hintact hfree)
        | some ip => exact fun hfail => by cases hfail
      -- it does not, and the slot stays filled
      rename_i hmiss
      refine iff_of_false (fun hsame => ?_) fun hr =>
        hmiss ((answersTo_created_iff name _).mpr (hr rfl (by simp)))
      have hstate := (hsame rfl c).state
      have hunused : (s.cont c).state = .cunused := by
        simpa using (Fin.find?_eq_some_iff.mp hfree).1
      rw [hunused] at hstate
      simp [Container.created] at hstate

/-- A name that fits, and no directory of that name. -/
theorem kccreate_noTrace_iff_short :
    (Kernel.kccreate Kernel.nameC none (boot 0)).2 = -1 ∧ NoTrace Kernel.nameC none (boot 0) := by
  have hboot : Lib.Reach Kernel.step (fun _ _ => True) (boot 0) (boot 0) := .refl
  exact ⟨by decide +kernel, (kccreate_noTrace_iff Kernel.nameC none hboot).mpr
    fun _ _ => by decide⟩

/-- `"aaaaaaaaaaaaaaaaa"`, one byte more than a container stores. -/
def longName : CStr := .ofBytes [97, 97, 97, 97, 97, 97, 97, 97, 97, 97, 97, 97, 97, 97, 97, 97, 97] rfl

/-- After boot, creating a container with a name of 17 bytes fails and takes slot 1. -/
theorem kccreate_leaves_slot :
    ¬ ∀ (free : Nat) (s : State) (name : CStr) (dir : Option Ino),
      Lib.Reach Kernel.step (fun _ _ => True) (boot free) s → name.strlen ≤ 127 → NoTrace name dir s := by
  intro h
  have hsame := h 0 (boot 0) longName none .refl (by decide +kernel) (by decide +kernel) 1
  have hstate := hsame.state
  revert hstate
  decide +kernel

end Xv6.Fs
