/-
# Xv6.Kernel.Isolation — which process-control calls stay inside the caller's container.

A process of a container other than the root makes one of the calls `kill`, `suspend`, `cpause`,
`cresume`, `cstop` and `fork`.  `kill` and `fork` only ever touch its own group.  The others look the
target up by global pid or by name and do not ask who is calling, so whether they stay inside is a
condition on what the lookup finds (`StaysInside`), and an exact one.
-/
import Xv6.Kernel.LifeCycle

namespace Xv6.Kernel

open Option (bind_eq_some_iff)
open Function Option

variable {k : Fin NCPU} {s s' s'' : State} {p q : Slot} {c d : Cid} {x : Call} {r pid : Int} {name : CStr}

/-! ## Changes inside one container -/

/-- The process current on CPU `k`, if it has a container at all, has `c`. -/
def Mine (k : Fin NCPU) (c : Cid) (s : State) : Prop := ∀ d, s.mycont k = some d → d = c

/-- From `s` to `s'` only processes of `c` and `c` itself changed, and CPU `k`
still charges no other container. -/
structure Inside (k : Fin NCPU) (c : Cid) (s s' : State) : Prop where
  proc : ∀ q, (s.proc q).cont ≠ some c → s'.proc q = s.proc q
  cont : ∀ d, d ≠ c → s'.cont d = s.cont d
  mine : Mine k c s → Mine k c s'

namespace Inside

theorem refl (k : Fin NCPU) (c : Cid) (s : State) : Inside k c s s := ⟨fun _ _ => rfl, fun _ _ => rfl, id⟩

theorem trans (h : Inside k c s s') (h' : Inside k c s' s'') : Inside k c s s'' where
  proc q hq := (h'.proc q (by rwa [h.proc q hq])).trans (h.proc q hq)
  cont d hd := (h'.cont d hd).trans (h.cont d hd)
  mine hm := h'.mine (h.mine hm)

theorem charged (hm : Mine k c s) (h : Charged k s s') : Inside k c s s' where
  proc q hq := by
    rcases h.proc q with he | ⟨⟨d, hd, hqd⟩, -⟩
    · exact he
    · exact absurd (hm d hd ▸ hqd) hq
  cont d hd := h.cont d fun he => hd (hm d he)
  mine _ d hd := hm d (h.mycont k ▸ hd)

theorem setCont (x : Container) : Inside k c s (s.setCont c x) := ⟨fun _ _ => rfl, fun d hd => by simp [hd], fun hm => hm⟩

theorem setProc {x : Proc} (hq : (s.proc q).cont = some c) (hx : ∀ d, x.cont = some d → d = c) :
    Inside k c s (s.setProc q x) where
  proc r hr := by
    have hne : r ≠ q := fun he => hr (by rw [he, hq])
    simp [hne]
  cont _ _ := rfl
  mine hm d hd := by
    obtain ⟨r, hr, hrd⟩ := bind_eq_some_iff.mp hd
    by_cases hrq : r = q
    · subst hrq
      simp only [State.setProc_proc, update_self] at hrd
      exact hx d hrd
    · simp only [State.setProc_proc, ne_eq, hrq, not_false_eq_true, update_of_ne] at hrd
      exact hm d (bind_eq_some_iff.mpr ⟨r, hr, hrd⟩)

theorem setProcs {f : Slot → Proc} (hf : ∀ q, (s.proc q).cont ≠ some c → f q = s.proc q)
    (hc : ∀ q, (f q).cont = (s.proc q).cont) : Inside k c s { s with proc := f } where
  proc := hf
  cont _ _ := rfl
  mine hm d hd := by
    obtain ⟨r, hr, hrd⟩ := bind_eq_some_iff.mp hd
    exact hm d (bind_eq_some_iff.mpr ⟨r, hr, (hc r).symm.trans hrd⟩)

end Inside

/-! ## The functions of the source -/

theorem freeproc_inside (hm : Mine k c s) (hp : (s.proc p).cont = some c)
    (h : freeproc k p s = some s') : Inside k c s s' := by
  obtain ⟨t, ht, h⟩ := bind_eq_some_iff.mp h
  obtain ⟨u, hu, h⟩ := bind_eq_some_iff.mp h
  cases h
  have hst : Charged k s t := by
    unfold freeTrapframe at ht
    split at ht
    · exact kfree_charged ht
    · cases ht
      exact .refl k s
  have htu : Charged k t u := by
    unfold freePagetable at hu
    split at hu
    · cases hu
      exact .refl k t
    · exact procFreepagetable_charged hu
  have hpu : (u.proc p).cont = some c := ((hst.trans htu).proc_cont p).trans hp
  refine (Inside.charged hm (hst.trans htu)).trans ?_
  rw [hpu]
  exact (Inside.setCont _).trans (.setProc hpu fun d hd => by cases hd)

/-- The loop of `containerkillall`: the caller itself may be freed on the way. -/
theorem killIn_foldlM_inside {l : List Slot} (hm : Mine k c s)
    (h : l.foldlM (killIn k c) s = some s') : Inside k c s s' := by
  induction l generalizing s with
  | nil =>
    cases h
    exact .refl k c _
  | cons p l ih =>
    rw [List.foldlM_cons] at h
    obtain ⟨t, ht, h⟩ := bind_eq_some_iff.mp h
    have hst : Inside k c s t := by
      unfold killIn at ht
      split at ht
      · rename_i hp
        have hkill : Inside k c s (s.setProc p (s.proc p).kill) := .setProc hp fun d hd => some.inj (hd.symm.trans hp)
        exact hkill.trans (freeproc_inside (hkill.mine hm) (by simpa [Proc.kill] using hp) ht)
      · cases ht
        exact .refl k c s
    exact hst.trans (ih (hst.mine hm) h)

section Fork

variable {np : Slot} {t u : State}

/-- A `fork` into the caller's own container, begun in `s`: the claimed slot belongs to it too. -/
structure Held (k : Fin NCPU) (np : Slot) (c : Cid) (s t : State) : Prop where
  inside : Inside k c s t
  mycont : t.mycont k = some c
  cont : (t.proc np).cont = some c

section

variable (h : Held k np c s t)
include h

theorem Held.mine : Mine k c t := fun _ hd =>
  some.inj (hd.symm.trans h.mycont)

theorem Held.charge (hc : Charged k t u) : Held k np c s u where
  inside := h.inside.trans (.charged h.mine hc)
  mycont := (hc.mycont k).trans h.mycont
  cont := (hc.proc_cont np).trans h.cont

theorem Held.setProc {x : Proc} (hx : x.cont = (t.proc np).cont) : Held k np c s (t.setProc np x) where
  inside := h.inside.trans
    (.setProc h.cont fun _ hd => some.inj (hd.symm.trans (hx.trans h.cont)))
  mycont := (mycont_setProc hx).trans h.mycont
  cont := by simpa using hx.trans h.cont

theorem Held.countChild : Inside k c s (countChild np t) := by
  have hcount : Inside k c t (updatecontproc 1 (t.proc np).cont t).1 := by
    rw [h.cont]
    exact .setCont _
  have hmy : (updatecontproc 1 (t.proc np).cont t).1.mycont k = some c := by
    rw [h.cont]
    exact h.mycont
  unfold Kernel.countChild
  dsimp only
  split
  · rw [h.cont] at hcount hmy ⊢
    exact h.inside.trans (hcount.trans (.charged (hcount.mine h.mine) (.limit hmy)))
  · exact h.inside.trans hcount

end

/-- **A plain `fork`** changes its container, the processes in it, and the slot it claims. -/
theorem fork_own {r : Int} (hlive : ∀ p, s.myproc k = some p → (s.proc p).state ≠ .unused)
    (hmy : s.mycont k = some c) (h : fork k none s = some (s', r)) :
    (∀ q, (s.proc q).cont ≠ some c → freeSlot s ≠ some q → s'.proc q = s.proc q) ∧ ∀ d, d ≠ c → s'.cont d = s.cont d := by
  rcases fork_cases h with rfl | ⟨p, np, d, t, ok, hp, hnp, hd, ht, hend⟩
  · exact ⟨fun _ _ _ => rfl, fun _ _ => rfl⟩
  cases hmy.symm.trans hd
  have hpn : p ≠ np := fun he => hlive p hp (by rw [he, freeSlot_unused hnp])
  have hne : s.myproc k ≠ some np := fun he => hpn (some.inj (hp.symm.trans he))
  -- what the claim itself changes
  have hclaim : (∀ q, q ≠ np → (claimSlot np c s).proc q = s.proc q) ∧
      (∀ d, d ≠ c → (claimSlot np c s).cont d = s.cont d) ∧
      ((claimSlot np c s).proc np).cont = some c := by
    unfold claimSlot
    dsimp only
    split
    · exact ⟨fun q hq => by simp [hq], fun _ _ => rfl, by simp⟩
    · exact ⟨fun q hq => by simp [hq], fun d hd => by simp [hd], by simp⟩
  obtain ⟨hproc, hcont, hnpc⟩ := hclaim
  suffices hin : Inside k c (claimSlot np c s) s' by
    refine ⟨fun q hq hfree => ?_, fun d hd => (hin.cont d hd).trans (hcont d hd)⟩
    have hqn : q ≠ np := fun he => hfree (by rw [hnp, he])
    have hqc : ((claimSlot np c s).proc q).cont ≠ some c := fun he =>
      hq ((congrArg Proc.cont (hproc q hqn)).symm.trans he)
    exact (hin.proc q hqc).trans (hproc q hqn)
  have hheld : Held k np c (claimSlot np c s) (claimSlot np c s) := ⟨.refl k c _, (mycont_claimSlot hne).trans hmy, hnpc⟩
  obtain ⟨t1, page, ht1, hpage⟩ := allocproc_cases ht
  have ht1' := hheld.charge (kalloc_charged ht1)
  rcases hpage with ⟨-, rfl, rfl⟩ | ⟨-, rfl, u, pt, hu, rfl⟩
  · obtain ⟨-, rfl⟩ | ⟨hok, -⟩ := hend
    · exact (ht1'.setProc (by rfl)).inside
    · cases hok
  have halloc := ((ht1'.setProc (by rfl)).charge (procPagetable_charged hu)).setProc
    (x := { u.proc np with pagetable := some pt }) rfl
  obtain ⟨hok, -⟩ | ⟨-, n, w, pages, copied, hw, hend⟩ := hend
  · cases hok
  · have hcopy := halloc.charge (uvmcopy_charged hw)
    rcases hend with ⟨-, hfree⟩ | ⟨-, parent, cwd, rfl⟩
    · exact hcopy.inside.trans (freeproc_inside hcopy.mine hcopy.cont hfree)
    · exact (hcopy.setProc (by rfl)).countChild

end Fork

/-! ## The calls -/

def Call.isControl : Call → Bool
  | .kill _ | .suspend _ _ | .cpause _ | .cresume _ | .cstop _ | .fork => true
  | _ => false

/-- The call `x`, made in `s` by a process of `c`, changed no field of a
process outside `c` and of no other container.  The free slot in which `fork` puts the child is not a
process yet. -/
structure Isolated (s : State) (x : Call) (c : Cid) (s' : State) : Prop where
  proc : ∀ q, (s.proc q).cont ≠ some c → ¬ (x = .fork ∧ freeSlot s = some q) → s'.proc q = s.proc q
  cont : ∀ d, d ≠ c → s'.cont d = s.cont d

theorem Inside.isolated (h : Inside k c s s') : Isolated s x c s' := ⟨fun q hq _ => h.proc q hq, h.cont⟩

/-- No container but `c` has been charged ticks: what `resetticksforcontainers` clears is `c`'s. -/
def OnlyTicks (c : Cid) (s : State) : Prop := ∀ d, d ≠ c → (s.cont d).ticks = 0

/-- What the lookup of the call `x`, made by a process of `c`, finds. -/
def StaysInside (s : State) (c : Cid) : Call → Prop
  | .suspend pid _ =>
    ∀ q, (Fin.find? fun p => (s.proc p).pid == pid) = some q →
      (s.proc q).cont = some c ∨ (s.proc q).state = .suspended
  | .cpause name => ∀ d, name2cont name s = some d → (s.cont d).isroot = 0 → d ≠ c →
      (s.cont d).state ≠ .crunnable ∧
        ((s.cont d).state = .cpaused → ∀ q, (s.proc q).cont = some d →
          (s.proc q).state ≠ .sleeping ∧ (s.proc q).state ≠ .runnable)
  | .cresume name => ∀ d, name2cont name s = some d → (s.cont d).isroot = 0 →
      (s.cont d).state = .cpaused → d = c ∧ OnlyTicks c s
  | .cstop name => ∀ d, name2cont name s = some d → (s.cont d).isroot = 0 →
      (s.cont d).state = .crunnable ∨ (s.cont d).state = .cpaused → d = c ∧ OnlyTicks c s
  | _ => True

theorem resetticks_isolated_iff {t : State} (hself : d = c → Inside k c s t)
    (hother : (t.cont d).state ≠ (s.cont d).state) :
    Isolated s x c (resetticksforcontainers t) ↔ d = c ∧ OnlyTicks c s := by
  constructor
  · rintro ⟨-, hcont⟩
    have hdc : d = c := by
      by_contra hne
      have hsame : (t.cont d).state = (s.cont d).state := by rw [← hcont d hne]; rfl
      exact hother hsame
    exact ⟨hdc, fun e he => (congrArg Container.ticks (hcont e he)).symm⟩
  · rintro ⟨rfl, hticks⟩
    refine ⟨fun q hq _ => (hself rfl).proc q hq, fun e he => ?_⟩
    simp only [resetticksforcontainers, (hself rfl).cont e he, ← hticks e he]

theorem suspend_isolated_iff {n : Nat} (hmy : s.mycont k = some c)
    (h : ksuspend k pid n s = some (s', r)) :
    Isolated s (.suspend pid n) c s' ↔ StaysInside s c (.suspend pid n) := by
  rcases ksuspend_cases h with ⟨hnone, rfl⟩ | ⟨q, hq, rfl⟩
  · refine ⟨fun _ q hq => ?_, fun _ => ⟨fun _ _ _ => rfl, fun _ _ => rfl⟩⟩
    cases hnone.symm.trans hq
  generalize hs1 : s.setProc q { s.proc q with state := .suspended } = s1
  have hmy1 : s1.mycont k = some c := by rw [← hs1, mycont_setProc (by rfl)]; exact hmy
  have hin : Inside k c s1 (ballocN k n s1) := .charged (fun d hd => some.inj (hd.symm.trans hmy1)) ballocN_charged
  constructor
  · intro hiso q' hq'
    cases hq.symm.trans hq'
    by_cases hqc : (s.proc q).cont = some c
    · exact .inl hqc
    · -- a process outside keeps the state `suspend` gave it
      refine .inr ?_
      rw [← hiso.proc q hqc (by simp), hin.proc q (by rw [← hs1]; simpa using hqc), ← hs1]
      simp
  intro hst
  have hs1' : ∀ r, (s.proc r).cont ≠ some c → s1.proc r = s.proc r := by
    intro r hr
    rw [← hs1]
    by_cases hrq : r = q
    · subst hrq
      have hsame := (hst r hq).resolve_left hr
      simp [← hsame]
    · simp [hrq]
  refine ⟨fun r hr _ => ?_, fun d hd => ?_⟩
  · exact (hin.proc r (by rwa [hs1' r hr])).trans (hs1' r hr)
  · rw [hin.cont d hd, ← hs1]
    rfl

theorem cpause_isolated_iff : Isolated s (.cpause name) c (kcpause name s).1 ↔ StaysInside s c (.cpause name) := by
  have hrefl : Isolated s (.cpause name) c s := ⟨fun _ _ _ => rfl, fun _ _ => rfl⟩
  cases hd : name2cont name s with
  | none => simpa [kcpause, StaysInside, hd] using hrefl
  | some d =>
    by_cases hroot : (s.cont d).isroot = 0
    case neg => simpa [kcpause, StaysInside, hd, hroot] using hrefl
    by_cases hstate : (s.cont d).state = .crunnable ∨ (s.cont d).state = .cpaused
    case neg =>
      obtain ⟨hrun, hpause⟩ := not_or.mp hstate
      simpa [kcpause, StaysInside, hd, hroot, hrun, hpause] using hrefl
    have hres : (kcpause name s).1 = pauseprocforcontainer d (s.setCont d { s.cont d with state := .cpaused }) := by
      rcases hstate with h | h <;> simp [kcpause, hd, hroot, h]
    rw [hres]
    constructor
    · rintro ⟨hproc, hcont⟩ e he - hec
      cases hd.symm.trans he
      have hpaused : (s.cont d).state = .cpaused := by
        rw [← hcont d hec]
        simp [pauseprocforcontainer]
      refine ⟨by simp [hpaused], fun _ q hq => not_or.mp fun hsr => ?_⟩
      have hqc : (s.proc q).cont ≠ some c := by
        rw [hq]
        simpa using hec
      have hsame := congrArg Proc.state (hproc q hqc (by simp))
      have hsus : (s.proc q).state = .suspended := by
        rw [← hsame]
        simp [pauseprocforcontainer, hq, hsr]
      rcases hsr with h | h <;> rw [hsus] at h <;> cases h
    intro hst
    by_cases hdc : d = c
    · subst hdc
      refine ⟨fun q hq _ => ?_, fun e he => ?_⟩
      · simp [pauseprocforcontainer, hq]
      · simp [pauseprocforcontainer, he]
    obtain ⟨hrun, hquiet⟩ := hst d hd hroot hdc
    have hpaused := hstate.resolve_left hrun
    refine ⟨fun q _ _ => ?_, fun e _ => ?_⟩
    · refine if_neg fun hq => ?_
      exact not_or.mpr (hquiet hpaused q hq.1) hq.2
    · by_cases hed : e = d
      · subst hed
        simp [pauseprocforcontainer, ← hpaused]
      · simp [pauseprocforcontainer, hed]

theorem cresume_isolated_iff : Isolated s (.cresume name) c (kcresume name s).1 ↔ StaysInside s c (.cresume name) := by
  have hrefl : Isolated s (.cresume name) c s := ⟨fun _ _ _ => rfl, fun _ _ => rfl⟩
  cases hd : name2cont name s with
  | none => simpa [kcresume, StaysInside, hd] using hrefl
  | some d =>
    by_cases hroot : (s.cont d).isroot = 0
    case neg => simpa [kcresume, StaysInside, hd, hroot] using hrefl
    by_cases hstate : (s.cont d).state = .cpaused
    case neg => simpa [kcresume, StaysInside, hd, hroot, hstate] using hrefl
    have hres : (kcresume name s).1 = resetticksforcontainers
        (resumeprocforcontainer d (s.setCont d { s.cont d with state := .crunnable })) := by
      simp [kcresume, hd, hroot, hstate]
    rw [hres, resetticks_isolated_iff (k := 0) (d := d)]
    · simp [StaysInside, hd, hroot, hstate]
    · rintro rfl
      refine (Inside.setCont { s.cont d with state := .crunnable }).trans ?_
      refine .setProcs (fun q hq => if_neg fun h => hq h.1) fun q => ?_
      split <;> rfl
    · simp [resumeprocforcontainer, hstate]

theorem cstop_isolated_iff (hmy : s.mycont k = some c)
    (h : kcstop k name s = some (s', r)) :
    Isolated s (.cstop name) c s' ↔ StaysInside s c (.cstop name) := by
  have hrefl : Isolated s (.cstop name) c s := ⟨fun _ _ _ => rfl, fun _ _ => rfl⟩
  unfold kcstop at h
  split at h
  · rename_i hd
    cases h
    simpa [StaysInside, hd] using hrefl
  rename_i d hd
  split at h
  · rename_i hroot
    cases h
    simpa [StaysInside, hd, hroot] using hrefl
  rename_i hroot
  split at h
  · rename_i hstate
    cases h
    simpa [StaysInside, hd, hstate] using hrefl
  rename_i hstate
  have hstate' : (s.cont d).state = .crunnable ∨ (s.cont d).state = .cpaused := by
    by_contra hne
    exact hstate (not_or.mp hne)
  obtain ⟨t, ht, h⟩ := bind_eq_some_iff.mp h
  cases h
  rw [resetticks_isolated_iff (k := k) (d := d)]
  · simp [StaysInside, hd, not_not.mp hroot, hstate']
  · rintro rfl
    refine (killIn_foldlM_inside (fun e he => some.inj (he.symm.trans hmy)) ht).trans ?_
    exact (Inside.setCont _).trans (.setCont _)
  · rcases hstate' with h | h <;> simp [freecontainer, Container.freed, h]

theorem kill_isolated (hmy : s.mycont k = some c) (hroot : (s.cont c).isroot = 0)
    (h : kill k pid s = some (s', r)) : Isolated s (.kill pid) c s' := by
  obtain ⟨d, hd, h⟩ := bind_eq_some_iff.mp h
  cases hmy.symm.trans hd
  rw [if_pos (by simp [hroot])] at h
  unfold containerkillwithpid at h
  split at h
  · cases h
    exact ⟨fun _ _ _ => rfl, fun _ _ => rfl⟩
  rename_i q hq
  cases h
  have hqc : (s.proc q).cont = some c := by
    have := (Fin.find?_eq_some_iff.mp hq).1
    simp only [Bool.and_eq_true, beq_iff_eq] at this
    exact this.1
  refine (Inside.setProc (k := k) hqc fun d hd => ?_).isolated
  exact some.inj (hd.symm.trans hqc)

/-- No process-control call of a process outside the root container reaches
beyond its own container. -/
def ProcessIsolation : Prop :=
  ∀ free s, Lib.Reach step (fun _ _ => True) (boot free) s → ∀ k p c x s',
    trap k s = some p → (s.proc p).cont = some c → c ≠ ROOTCONT → x.isControl = true →
      syscall k x s = some s' → Isolated s x c s'

/-- **When a process-control call stays inside**: exactly when its lookup finds nothing outside that
it would change. -/
theorem isolated_iff_staysInside {free : Nat} {x : Call}
    (hr : Lib.Reach step (fun _ _ => True) (boot free) s) (hp : trap k s = some p)
    (hc : (s.proc p).cont = some c) (hroot : c ≠ ROOTCONT) (hx : x.isControl = true)
    (hs : syscall k x s = some s') : Isolated s x c s' ↔ StaysInside s c x := by
  obtain ⟨hmyp, hlive⟩ := (reach_armed hr).trap_live hp
  have hmy : s.mycont k = some c := bind_eq_some_iff.mpr ⟨p, hmyp, hc⟩
  have hzero : (s.cont c).isroot = 0 := (reach_rootIntact hr).others c hroot
  cases x with
  | fork =>
    obtain ⟨⟨t, r⟩, ht, rfl⟩ := map_eq_some_iff.mp hs
    have hlive' : ∀ q, s.myproc k = some q → (s.proc q).state ≠ .unused := fun q hq => by
      cases hmyp.symm.trans hq
      exact hlive
    obtain ⟨hproc, hcont⟩ := fork_own hlive' hmy ht
    refine ⟨fun _ => trivial, fun _ => ⟨fun q hq hfree => hproc q hq fun he => ?_, hcont⟩⟩
    exact hfree ⟨rfl, he⟩
  | kill pid =>
    obtain ⟨⟨t, r⟩, ht, rfl⟩ := map_eq_some_iff.mp hs
    exact ⟨fun _ => trivial, fun _ => kill_isolated hmy hzero ht⟩
  | suspend pid n =>
    obtain ⟨⟨t, r⟩, ht, rfl⟩ := map_eq_some_iff.mp hs
    exact suspend_isolated_iff hmy ht
  | cpause name =>
    cases hs
    exact cpause_isolated_iff
  | cresume name =>
    cases hs
    exact cresume_isolated_iff
  | cstop name =>
    obtain ⟨⟨t, r⟩, ht, rfl⟩ := map_eq_some_iff.mp hs
    exact cstop_isolated_iff hmy ht
  | _ => cases hx

theorem syscall_of_any {f : State → Bool}
    (h : ((syscall k x s).any f) = true) : ∃ s', syscall k x s = some s' ∧ f s' = true :=
  (any_eq_true _ _).mp h

/-- A process of container 1 suspends itself. -/
theorem isolated_run : ∃ s s', Lib.Reach step (fun _ _ => True) (boot 100) s ∧
    syscall 2 (.suspend 2 0) s = some s' ∧ (s'.proc 1).state = .suspended ∧ Isolated s (.suspend 2 0) 1 s' := by
  obtain ⟨s, hs, h1⟩ := Lib.Reach.of_any step (fun _ _ => True) (boot 100)
    [.sched 0, .sched 1, .call 1 (.ccreate nameC (some 5)), .call 1 (.cstart nameC nameV 0),
      .call 1 (.cfork nameC), .sched 0, .sched 2, .sched 2]
    (fun s => trap 2 s == some 1 && (s.proc 1).cont == some 1 &&
      (Fin.find? fun p => (s.proc p).pid == 2) == some 1 &&
        (syscall 2 (.suspend 2 0) s).any fun s' => (s'.proc 1).state == .suspended)
    (by decide)
  simp only [Bool.and_eq_true, beq_iff_eq] at h1
  obtain ⟨⟨⟨htrap, hcont⟩, hfind⟩, hcall⟩ := h1
  obtain ⟨s', hs', hstate⟩ := syscall_of_any hcall
  refine ⟨s, s', hs, hs', by simpa using hstate, ?_⟩
  refine (isolated_iff_staysInside hs htrap hcont (by decide) rfl hs').mpr fun q hq => .inl ?_
  cases hfind.symm.trans hq
  exact hcont

/-- A process of container 1 suspends init, which is in the root container. -/
theorem not_processIsolation : ¬ ProcessIsolation := by
  intro h
  obtain ⟨s, hs, h1⟩ := Lib.Reach.of_any step (fun _ _ => True) (boot 100)
    [.sched 0, .sched 1, .call 1 (.ccreate nameC (some 5)), .call 1 (.cstart nameC nameV 0),
      .call 1 (.cfork nameC), .sched 0, .sched 2, .sched 2]
    (fun s => trap 2 s == some 1 && (s.proc 1).cont == some 1 && (s.proc 0).cont == some 0 &&
      (s.proc 0).state == .running &&
        (syscall 2 (.suspend 1 0) s).any fun s' => (s'.proc 0).state == .suspended)
    (by decide)
  simp only [Bool.and_eq_true, beq_iff_eq] at h1
  obtain ⟨⟨⟨⟨htrap, hcont⟩, hinit⟩, hrun⟩, hcall⟩ := h1
  obtain ⟨s', hs', hstate⟩ := syscall_of_any hcall
  have hiso := h 100 s hs 2 1 1 (.suspend 1 0) s' htrap hcont (by decide) rfl hs'
  have hsame := hiso.proc 0 (by rw [hinit]; decide) (by simp)
  rw [hsame, hrun] at hstate
  cases hstate

end Xv6.Kernel
