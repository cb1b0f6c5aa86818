/-
# Xv6.Kernel.Simulation — every step of the machine is a list of acts.

One lemma per function of the source, one case per event, assembled in `step_acts`.  The only thing
it asks of the state is that a slot with a trapframe is in use (`Armed`), which every step keeps: a
process whose slot was freed under it faults at its next trap, and can only go to sleep before it.
-/
import Xv6.Kernel.Forking
import Xv6.Lib.Trace

namespace Xv6.Kernel

open Option (bind_eq_some_iff map_eq_some_iff)
open Function

variable {k : Fin NCPU} {s s' : State} {p : Slot} {c : Cid} {P : View → Act → Prop}
  {x : Container} {r pid : Int} {n : BitVec 32} {name : CStr}

/-! ## Processes that give up the CPU -/

theorem swtchOut_view {x : Proc} {d : Cid} {start : BitVec 32} (hmode : (s.cpus k).mode = .run p d start)
    (hc : x.cont = (s.proc p).cont) (htf : x.tf = (s.proc p).tf) (pend : Option Slot) :
    (swtchOut k (s.setProc p x)).view pend = ((s.view pend).setState p x.state).withMode k (.next d) := by
  have hview : x.view = { (s.proc p).view with state := x.state } := by simp [Proc.view, hc, htf]
  have hmode' : ((s.setProc p x).cpus k).mode = .run p d start := hmode
  unfold swtchOut
  rw [hmode']
  dsimp only
  rw [State.view_setCpu, State.view_setCont_same _ _ (by rfl),
    State.view_setProc_same _ _ (by rfl), State.view_setProc, hview]
  rfl

theorem swtchOut_acts {x : Proc} (hp : s.myproc k = some p) (hlive : (s.proc p).state ≠ .unused)
    (hx : x.state.Resting) (hc : x.cont = (s.proc p).cont) (htf : x.tf = (s.proc p).tf)
    (hP : ∀ v, P v (.leave k p x.state)) (pend : Option Slot) :
    Acts P (s.view pend) ((swtchOut k (s.setProc p x)).view pend) := by
  obtain ⟨d, start, hmode⟩ := State.myproc_eq_some_iff.mp hp
  rw [swtchOut_view hmode hc htf]
  exact .single (.leave hmode hlive hx) (hP _)

theorem wakeup1_acts (hP : ∀ v, P v .wake) (q : Slot) (pend : Option Slot) :
    Acts P (s.view pend) ((wakeup1 q s).view pend) := by
  unfold wakeup1
  split
  · rename_i h
    exact setProc_wake_acts hP pend (.inl h.2) rfl rfl rfl
  · exact .refl _

theorem wakeup1_unused (q : Slot) : ((wakeup1 q s).proc p).state = .unused ↔ (s.proc p).state = .unused := by
  unfold wakeup1
  split
  · rename_i h
    by_cases hp : p = q
    · subst hp
      simp [h.2]
    · simp [hp]
  · rfl

theorem wakeup1_myproc (q : Slot) : (wakeup1 q s).myproc k = s.myproc k := by
  unfold wakeup1
  split <;> rfl

theorem reparent_view (pend : Option Slot) : (reparent p s).view pend = s.view pend := by
  refine View.ext (funext fun q => ?_) rfl rfl rfl rfl
  simp only [State.view, reparent]
  split <;> rfl

section

variable (hlive : ∀ p, s.myproc k = some p → (s.proc p).state ≠ .unused)
include hlive

theorem exit_acts {status : Int}
    (hwake : ∀ v, P v .wake)
    (hleave : ∀ v p, s.myproc k = some p → p ≠ s.initproc → P v (.leave k p .zombie))
    (h : exit k status s = some s') : Acts P (s.view none) (s'.view none) := by
  obtain ⟨p, hp, h⟩ := bind_eq_some_iff.mp h
  dsimp only at h
  split at h
  · cases h
  rename_i hinit
  obtain ⟨parent, -, h⟩ := bind_eq_some_iff.mp h
  cases h
  -- up to the last assignment only sleepers are woken
  generalize hs1 : s.setProc p { s.proc p with cwd := none } = s1
  have hv1 : s1.view none = s.view none := by rw [← hs1]; exact State.view_setProc_same none s rfl
  generalize hs4 : wakeup1 parent (reparent p (wakeup1 s1.initproc s1)) = s4
  have hacts : Acts P (s.view none) (s4.view none) := by
    rw [← hv1, ← hs4]
    refine (wakeup1_acts hwake s1.initproc none).trans ?_
    rw [← reparent_view (p := p)]
    exact wakeup1_acts hwake parent none
  have hlive4 : (s4.proc p).state ≠ .unused := by
    have hrep : ∀ t : State, ((reparent p t).proc p).state = (t.proc p).state := fun t =>
      congrArg PView.state (congrFun (congrArg View.proc (reparent_view none)) p)
    rw [← hs4, ne_eq, wakeup1_unused, hrep, wakeup1_unused, ← hs1]
    simpa using hlive p hp
  have hp4 : s4.myproc k = some p := by
    have hrep : ∀ t : State, (reparent p t).myproc k = t.myproc k := fun _ => rfl
    rw [← hs4, wakeup1_myproc, hrep, wakeup1_myproc, ← hs1]
    exact hp
  refine hacts.trans (swtchOut_acts hp4 hlive4 ?_ (by rfl) (by rfl) (fun v => ?_) none)
  · exact .inr (.inr rfl)
  · exact hleave v p hp hinit

theorem sleepOn_acts {chan : Chan}
    (hleave : ∀ v p, s.myproc k = some p → P v (.leave k p .sleeping))
    (h : sleepOn k chan s = some s') : Acts P (s.view none) (s'.view none) := by
  obtain ⟨p, hp, h⟩ := bind_eq_some_iff.mp h
  cases h
  refine swtchOut_acts hp (hlive p hp) ?_ (by rfl) (by rfl) (fun v => ?_) none
  · exact .inl rfl
  · exact hleave v p hp

theorem yieldCpu_acts
    (hleave : ∀ v p, s.myproc k = some p → P v (.leave k p .runnable))
    (h : yieldCpu k s = some s') : Acts P (s.view none) (s'.view none) := by
  obtain ⟨p, hp, h⟩ := bind_eq_some_iff.mp h
  cases h
  refine swtchOut_acts hp (hlive p hp) ?_ (by rfl) (by rfl) (fun v => ?_) none
  · exact .inr (.inl rfl)
  · exact hleave v p hp

theorem wait_acts {b : Bool} {r : Option Int}
    (hleave : ∀ v p, s.myproc k = some p → P v (.leave k p .sleeping))
    (hreap : ∀ p, b = false → reaped k s = some p → P (s.view none) (.reap p))
    (h : wait k b s = some (s', r)) : Acts P (s.view none) (s'.view none) := by
  obtain ⟨p, hp, h⟩ := bind_eq_some_iff.mp h
  dsimp only at h
  split at h
  · rename_i np hnp
    split at h
    · cases h
      exact .refl _
    rename_i hb
    obtain ⟨t, ht, h⟩ := bind_eq_some_iff.mp h
    cases h
    have hz : (s.proc np).state = .zombie := by
      have := (Fin.find?_eq_some_iff.mp hnp).1
      simp only [Bool.and_eq_true, beq_iff_eq] at this
      exact this.2
    refine .single (a := .reap np) ?_ (hreap np (by simpa using hb) (by simpa [reaped, hp] using hnp))
    rw [freeproc_view none ht]
    exact .reap hz
  · split at h
    · cases h
      exact .refl _
    · obtain ⟨t, ht, h⟩ := bind_eq_some_iff.mp h
      cases h
      exact sleepOn_acts hlive hleave ht

end

/-! ## Signals -/

section

variable (hP : ∀ v, P v .wake)
include hP

theorem setProc_kill_acts (q : Slot) : Acts P (s.view none) ((s.setProc q (s.proc q).kill).view none) := by
  by_cases hq : (s.proc q).state = .sleeping ∨ (s.proc q).state = .suspended
  · exact setProc_wake_acts hP none hq (by simp [Proc.kill, hq]) rfl rfl
  · rw [State.view_setProc_same]
    · exact .refl _
    · simp [Proc.kill, Proc.view, hq]

theorem kill_acts (h : kill k pid s = some (s', r)) : Acts P (s.view none) (s'.view none) := by
  obtain ⟨c, -, h⟩ := bind_eq_some_iff.mp h
  split at h
  · unfold containerkillwithpid at h
    split at h <;> cases h
    · exact .refl _
    · exact setProc_kill_acts hP _
  split at h
  · cases h
    exact .refl _
  · obtain ⟨d, -, h⟩ := bind_eq_some_iff.mp h
    split at h <;> cases h
    · exact .refl _
    · exact setProc_kill_acts hP _

theorem wakeup_acts (chan : Chan) : Acts P (s.view none) ((wakeup chan s).view none) := by
  refine wake_acts hP none fun q => ?_
  split
  · rename_i h
    exact .inr ⟨.inl h.1, rfl, rfl, rfl⟩
  · exact .inl rfl

end

theorem ksuspend_cases {n : Nat} (h : ksuspend k pid n s = some (s', r)) :
    ((Fin.find? fun p => (s.proc p).pid == pid) = none ∧ s' = s) ∨
      ∃ q, (Fin.find? fun p => (s.proc p).pid == pid) = some q ∧
        s' = ballocN k n (s.setProc q { s.proc q with state := .suspended }) := by
  unfold ksuspend at h
  split at h
  · rename_i hnone
    cases h
    exact .inl ⟨hnone, rfl⟩
  rename_i q hq
  split at h
  · cases h
  · cases h
    exact .inr ⟨q, hq, rfl⟩

theorem ksuspend_acts {n : Nat}
    (hsuspend : ∀ p, (s.proc p).pid = pid → P (s.view none) (.suspend p))
    (hdown : ¬ FitsDsk k n s → ∀ v c, P v (.teardown c))
    (h : ksuspend k pid n s = some (s', r)) : Acts P (s.view none) (s'.view none) := by
  rcases ksuspend_cases h with ⟨-, rfl⟩ | ⟨q, hq, rfl⟩
  · exact .refl _
  have hpid : (s.proc q).pid = pid := by simpa using (Fin.find?_eq_some_iff.mp hq).1
  have hset : Fires (s.view none) (.suspend q)
      ((s.setProc q { s.proc q with state := .suspended }).view none) := by
    rw [State.view_setProc]
    exact .suspend
  refine (Acts.single hset (hsuspend q hpid)).trans ?_
  by_cases hF : FitsDsk k n s
  · have hF' : FitsDsk k n (s.setProc q { s.proc q with state := .suspended }) := by
      intro c hc
      rw [mycont_setProc (by rfl)] at hc
      exact hF c hc
    rw [ballocN_calm hF']
    exact .refl _
  · refine (ballocN_charged.acts none).mono fun v a ha => ?_
    obtain ⟨c, -, rfl⟩ := ha
    exact hdown hF v c

/-! ## Containers -/

theorem resetticksforcontainers_view (pend : Option Slot) : (resetticksforcontainers s).view pend = s.view pend := rfl

theorem name2cont_none (h : name2cont name s = none) (d : Cid) : (s.cont d).answersTo name = false :=
  by simpa using Fin.find?_eq_none_iff.mp h d

/-- **`kccreate` on the views**: refused, created, or created and freed again.  The second lookup by
name can only find the slot that was just filled. -/
theorem kccreate_acts {dir : Option Ino}
    (hcreate : ∀ c, P (s.view none) (.create c name)) (hrecycle : ∀ c, P (s.view none) (.recycle c)) :
    Acts P (s.view none) ((kccreate name dir s).1.view none) := by
  unfold kccreate
  split
  · exact .refl _
  rename_i hnew
  have hnone : name2cont name s = none := by simpa using hnew
  unfold alloccont
  cases hfree : freeCid s with
  | none => exact .refl _
  | some c =>
    have hunused : (s.cont c).state = .cunused := by simpa using (Fin.find?_eq_some_iff.mp hfree).1
    simp only [Option.map_some]
    -- the slot as `kccreate` leaves it before the lookup
    generalize hs1 : (s.setCont c { s.cont c with state := .crunnable }).setCont c
      (((s.setCont c { s.cont c with state := .crunnable }).cont c).created name) = s1
    have hother : ∀ d, d ≠ c → s1.cont d = s.cont d := fun d hd => by rw [← hs1]; simp [hd]
    have hself : s1.cont c = (s.cont c).created name := by rw [← hs1]; simp [Container.created]
    have hv1 : ∀ x : Container, (s1.setCont c x).view none = (s.view none).withCont c x.view := by
      intro x
      rw [← hs1]
      simp
    have hs1v : s1.view none = (s.view none).withCont c (((s.view none).cont c).created name (s.cont c).rootdir) := by
      have h := hv1 (s1.cont c)
      rw [State.view_setCont_same none s1 rfl, hself] at h
      exact h
    unfold setcontrootdir
    cases hlook : name2cont name s1 with
    | none =>
      rw [hs1v]
      exact .single (.create hunused _) (hcreate c)
    | some e =>
      have he : e = c := by
        by_contra hne
        have := (Fin.find?_eq_some_iff.mp hlook).1
        rw [hother e hne, name2cont_none hnone] at this
        cases this
      subst he
      cases dir with
      | none =>
        have hv : (freecontainer e
            (s1.setCont e { s1.cont e with state := .cunused })).view none =
            (s.view none).withCont e ((s.view none).cont e).recycled := by
          rw [freecontainer, State.view_setCont, hv1, View.withCont_withCont, State.setCont_cont, update_self, hself]
          rfl
        dsimp only
        rw [hv]
        exact .single (.recycle hunused) (hrecycle e)
      | some ip =>
        dsimp only
        rw [hv1, hself]
        exact .single (.create hunused (some ip)) (hcreate e)

/-- **`kcstart` on the views**: the three charges do not show. -/
theorem kcstart_acts {vcname : CStr} {n : BitVec 64}
    (hP : ∀ c, name2cont name s = some c → P (s.view none) (.start c)) :
    Acts P (s.view none) ((kcstart name vcname n s).1.view none) := by
  unfold kcstart
  split
  · exact .refl _
  split
  · exact .refl _
  rename_i c hc
  split
  · exact .refl _
  rename_i hstate
  dsimp only
  generalize hs1 : (updatecontmem (neg64 (40 * 1024)) _ _).1 = s1
  have hv1 : s1.view none = s.view none := by
    rw [← hs1, updatecontmem_view, updatecontmem_view, updatecontdsk_view]
  have hview : ({ s1.cont c with vcName := strncpy 16 vcname, state := .crunnable } :
      Container).view = { (s.view none).cont c with state := .crunnable } := by
    rw [← hv1]
    rfl
  rw [resetticksforcontainers_view, State.view_setCont, hv1, hview]
  exact .single (.start (not_not.mp hstate)) (hP c hc)

theorem kcpause_acts
    (hP : ∀ c, name2cont name s = some c → P (s.view none) (.pause c)) :
    Acts P (s.view none) ((kcpause name s).1.view none) := by
  unfold kcpause
  split
  · exact .refl _
  rename_i c hc
  split
  · exact .refl _
  rename_i hroot
  split
  · exact .refl _
  rename_i hstate
  have hview : (pauseprocforcontainer c
      (s.setCont c { s.cont c with state := .cpaused })).view none = (s.view none).pause c :=
    View.ext (funext fun q => apply_ite Proc.view _ _ _)
      (funext fun d => apply_update (fun _ => Container.view) s.cont c _ d)
      rfl rfl rfl
  dsimp only
  rw [hview]
  refine .single (.pause (not_not.mp hroot) ?_) (hP c hc)
  by_contra h
  exact hstate (not_or.mp h)

theorem kcresume_acts
    (hP : ∀ c, name2cont name s = some c → P (s.view none) (.resume c)) :
    Acts P (s.view none) ((kcresume name s).1.view none) := by
  unfold kcresume
  split
  · exact .refl _
  rename_i c hc
  split
  · exact .refl _
  rename_i hroot
  split
  · exact .refl _
  rename_i hstate
  have hview : (resumeprocforcontainer c
      (s.setCont c { s.cont c with state := .crunnable })).view none =
      (s.view none).resume c :=
    View.ext (funext fun q => apply_ite Proc.view _ _ _)
      (funext fun d => apply_update (fun _ => Container.view) s.cont c _ d)
      rfl rfl rfl
  dsimp only
  rw [resetticksforcontainers_view, hview]
  exact .single (.resume (not_not.mp hroot) (not_not.mp hstate)) (hP c hc)

/-- What `containerkillall` leaves after the slots of `l`: those of the container are free, and only
the container's own count has moved. -/
theorem killIn_foldlM_view {l : List Slot} (h : l.foldlM (killIn k c) s = some s') :
    ∃ u, s'.view none =
      { (s.view none).withCont c { (s.view none).cont c with usedProc := u } with
        proc := fun q => if q ∈ l ∧ ((s.view none).proc q).cont = some c then .free
          else (s.view none).proc q } := by
  induction l generalizing s with
  | nil =>
    cases h
    refine ⟨((s'.view none).cont c).usedProc, View.ext (by simp) ?_ rfl rfl rfl⟩
    exact (congrArg View.cont (View.withCont_self (s'.view none) c)).symm
  | cons p l ih =>
    rw [List.foldlM_cons] at h
    obtain ⟨t, ht, h⟩ := bind_eq_some_iff.mp h
    obtain ⟨u, hu⟩ := ih h
    unfold killIn at ht
    split at ht
    · rename_i hp
      -- one more slot is freed; it and its container are all that changes
      have htv : t.view none = ((s.view none).withProc p ((s.view none).proc p).kill).release p :=
        (freeproc_view none ht).trans (by rw [State.view_setProc]; rfl)
      obtain ⟨u', hu'⟩ := CView.count_eq (-1) ((s.view none).cont c)
      have hpc : ((s.view none).proc p).cont = some c := hp
      have htc : (t.view none).cont = update (s.view none).cont c { (s.view none).cont c with usedProc := u' } := by
        rw [htv, ← hu']
        funext d
        by_cases hd : d = c
        · subst hd
          simp [View.release, PView.kill, hpc]
        · have hd' : c ≠ d := fun he => hd he.symm
          simp [View.release, PView.kill, hpc, hd, hd']
      have htp : (t.view none).proc = update (s.view none).proc p .free := by
        rw [htv]
        simp [View.release]
      refine ⟨u, ?_⟩
      rw [hu]
      refine View.ext (funext fun q => ?_) ?_ ?_ ?_ ?_
      · by_cases hq : q = p
        · subst hq
          simp [htp, hpc, PView.free]
        · simp [htp, hq]
      · simp [htc]
      · simp [htv, View.release]
      · simp [htv, View.release]
      · simp [htv, View.release]
    · rename_i hp
      cases ht
      refine ⟨u, ?_⟩
      rw [hu]
      refine View.ext (funext fun q => ?_) rfl rfl rfl rfl
      have hpc : ((s.view none).proc p).cont ≠ some c := hp
      by_cases hq : q = p
      · subst hq
        simp [hpc]
      · simp [hq]

theorem kcstop_acts
    (hP : ∀ c, name2cont name s = some c → P (s.view none) (.stop c))
    (h : kcstop k name s = some (s', r)) : Acts P (s.view none) (s'.view none) := by
  unfold kcstop at h
  split at h
  · cases h
    exact .refl _
  rename_i c hc
  split at h
  · cases h
    exact .refl _
  rename_i hroot
  split at h
  · cases h
    exact .refl _
  rename_i hstate
  obtain ⟨t, ht, h⟩ := bind_eq_some_iff.mp h
  cases h
  obtain ⟨u, hu⟩ := killIn_foldlM_view ht
  have hcont : (t.cont c).view = { (s.view none).cont c with usedProc := u } := by
    refine (congrFun (congrArg View.cont hu) c).trans ?_
    simp
  have hview : (freecontainer c
      (t.setCont c { t.cont c with state := .cstopped })).view none = (s.view none).stop c := by
    have hfreed : ({ t.cont c with state := .cstopped } : Container).freed.view = ((s.view none).cont c).freed := by
      have : ({ t.cont c with state := .cstopped } : Container).freed.view = (t.cont c).view.freed := rfl
      rw [this, hcont]
      rfl
    rw [freecontainer, State.view_setCont, State.view_setCont, View.withCont_withCont,
      State.setCont_cont, update_self, hfreed, hu]
    exact View.ext (funext fun q => by simp [View.stop]) (by simp [View.stop]) rfl rfl rfl
  rw [resetticksforcontainers_view, hview]
  refine .single (.stop (not_not.mp hroot) ?_) (hP c hc)
  by_contra h
  exact hstate (not_or.mp h)

/-- The subtraction on unsigned numbers lets only the present limit through. -/
theorem eq_of_not_exceedsMax {max : BitVec 64} (h : ¬ exceedsMax n max = true) : kbytes n = max := by
  simp only [exceedsMax, gt_iff_lt, decide_eq_true_eq, BitVec.lt_def] at h
  have h0 : (kbytes n - max).toNat = 0 := by simpa using h
  apply BitVec.eq_of_toNat_eq
  rw [BitVec.toNat_sub] at h0
  have := (kbytes n).isLt
  have := max.isLt
  omega

theorem setmax_acts {f : Container → Option Container} {r : Option Int}
    (hexit : ∀ t, exit k 0 s = some t → Acts P (s.view none) (t.view none))
    (hf : ∀ c x, (s.cont c).isroot = 0 → f (s.cont c) = some x → Acts P (s.view none) ((s.setCont c x).view none))
    (h : setmax k name f s = some (s', r)) : Acts P (s.view none) (s'.view none) := by
  unfold setmax at h
  split at h
  · cases h
    exact .refl _
  rename_i c hc
  split at h
  · obtain ⟨t, ht, h⟩ := map_eq_some_iff.mp h
    cases h
    exact hexit _ ht
  rename_i hroot
  split at h
  · cases h
    exact .refl _
  · rename_i x hx
    cases h
    exact hf c x (not_not.mp hroot) hx

theorem withMaxDsk_view {y : Container} (h : y.withMaxDsk n = some x) : x.view = y.view := by
  unfold Container.withMaxDsk at h
  split at h
  · cases h
  · rename_i hmax
    cases h
    simp [Container.view, eq_of_not_exceedsMax hmax]

theorem withMaxSz_view {y : Container} (h : y.withMaxSz n = some x) : x.view = y.view := by
  unfold Container.withMaxSz at h
  split at h
  · cases h
  · rename_i hmax
    cases h
    simp [Container.view, eq_of_not_exceedsMax hmax]

theorem withMaxProc_acts {n : Int} (hroot : (s.cont c).isroot = 0)
    (hP : ∀ v, P v (.limit c)) (h : (s.cont c).withMaxProc n = some x) :
    Acts P (s.view none) ((s.setCont c x).view none) := by
  unfold Container.withMaxProc at h
  split at h
  · cases h
  · rename_i hn
    cases h
    rw [State.view_setCont]
    exact .single (.limit hroot n (by omega) (by simp only [State.view, Container.view]; omega)) (hP _)

/-! ## The scheduler -/

theorem probe_cont {fuel index : Nat} (h : probe c s fuel index = some p) : (s.proc p).cont = some c := by
  induction fuel generalizing index with
  | zero => cases h
  | succ fuel ih =>
    unfold probe at h
    dsimp only at h
    split at h
    · cases h
      assumption
    · exact ih h

/-- `getnextproc` only ever settles on a member. -/
theorem nextProc_cont {fuel : Nat} (h : nextProc fuel c s = some p) : (s.proc p).cont = some c := by
  unfold nextProc at h
  split at h
  · split at h
    · rename_i q hq
      cases h
      simpa using (Fin.find?_eq_some_iff.mp hq).1
    · exact probe_cont h
  · exact probe_cont h

theorem nextIter_acts (hP : ∀ v, P v (.idle k)) (h : ∀ p d start, (s.cpus k).mode ≠ .run p d start) :
    Acts P (s.view none) ((nextIter k s).view none) := by
  rw [nextIter, State.view_setCpu]
  exact .single (.idle h) (hP _)

theorem getnextproc_acts {t : State} (hnext : ∀ v p, P v (.next c p)) (hidle : ∀ v, P v (.idle k))
    (h : ∀ p d start, (s.cpus k).mode ≠ .run p d start)
    (ht : (getnextproc NPROC c s).map (nextIter k) = some t) :
    Acts P (s.view none) (t.view none) := by
  obtain ⟨u, hu, rfl⟩ := map_eq_some_iff.mp ht
  obtain ⟨p, hp, rfl⟩ := map_eq_some_iff.mp hu
  refine .trans ?_ (nextIter_acts hidle h)
  rw [State.view_setCont]
  exact .single (.next (nextProc_cont hp)) (hnext _ p)

theorem sched_acts (hnext : ∀ v c p, P v (.next c p)) (hidle : ∀ v, P v (.idle k))
    (hdispatch : ∀ p c, P (s.view none) (.dispatch k p c)) (h : sched k s = some s') :
    Acts P (s.view none) (s'.view none) := by
  unfold sched at h
  split at h
  · rename_i hmode
    have hnorun : ∀ p d start, (s.cpus k).mode ≠ .run p d start := by simp [hmode]
    split at h
    · cases h
      exact nextIter_acts hidle hnorun
    rename_i c hc
    split at h
    · cases h
      exact nextIter_acts hidle hnorun
    rename_i hstate
    split at h
    · exact getnextproc_acts (hnext · c) hidle hnorun h
    rename_i p hp
    unfold switchTo at h
    split at h
    · rename_i hrun
      cases h
      rw [State.view_setCpu, State.view_setProc]
      exact .single (.dispatch _ hmode (not_not.mp hstate) hp hrun) (hdispatch p c)
    · exact getnextproc_acts (hnext · c) hidle hnorun h
  · rename_i c hmode
    exact getnextproc_acts (hnext · c) hidle (by simp [hmode]) h
  · cases h

/-! ## One step -/

/-- A slot with a trapframe is in use, or is being allocated. -/
def Armed (v : View) : Prop := ∀ p, (v.proc p).tf = true → (v.proc p).state ≠ .unused ∨ v.pend = some p

theorem Armed.trap_live (ha : Armed (s.view none)) (ht : trap k s = some p) :
    s.myproc k = some p ∧ (s.proc p).state ≠ .unused := by
  obtain ⟨q, hq, ht⟩ := bind_eq_some_iff.mp ht
  split at ht
  · rename_i htf
    cases ht
    exact ⟨hq, (ha p htf).resolve_right (by simp [State.view])⟩
  · cases ht

theorem ForkPermits.permits {o : Option Cid} {e : Event}
    (hlim : WithinLimits s e → FitsFork k (forkTarget k o s) s)
    (hclaim : ∀ c, forkTarget k o s = some c → ForksInto s e c) :
    ∀ v a, ForkPermits k o s v a → Permits s e v a := by
  intro v a ha
  cases a with
  | claim np d => exact ⟨ha.1, ha.2.1, hclaim d ha.2.2⟩
  | stray np d => exact ha.imp_left fun h hw => h (hlim hw)
  | forfeit np | teardown d => exact fun hw => ha (hlim hw)
  | arm np | abandon np | birth np d => trivial
  | _ => exact ha.elim

theorem syscall_acts {x : Call} (hp : s.myproc k = some p) (hplive : (s.proc p).state ≠ .unused)
    (h : syscall k x s = some s') :
    Acts (Permits s (.call k x)) (s.view none) (s'.view none) := by
  have hlive : ∀ q, s.myproc k = some q → (s.proc q).state ≠ .unused := fun q hq => by
    cases hp.symm.trans hq
    exact hplive
  have hleave : ∀ v p, s.myproc k = some p → Permits s (.call k x) v (.leave k p .sleeping) :=
    fun _ p hp => ⟨hp, hlive p hp, fun h => nomatch h⟩
  have hzombie : ∀ v p, s.myproc k = some p → p ≠ s.initproc →
      Permits s (.call k x) v (.leave k p .zombie) := fun v p hp hne =>
    ⟨hp, hlive p hp, fun _ => ⟨hne, x, rfl⟩⟩
  have hexit : ∀ status t, exit k status s = some t →
      Acts (Permits s (.call k x)) (s.view none) (t.view none) := fun status t ht =>
    exit_acts hlive (fun _ => trivial) hzombie ht
  cases x with
  | fork =>
    obtain ⟨⟨t, r⟩, ht, rfl⟩ := map_eq_some_iff.mp h
    refine (fork_acts hlive ht).mono (ForkPermits.permits (fun hw => ?_) fun c hc => ?_)
    · exact hw
    · obtain ⟨p, hp, hpc⟩ := bind_eq_some_iff.mp hc
      exact .inl ⟨k, p, rfl, hp, hlive p hp, hpc⟩
  | cfork name =>
    obtain ⟨⟨t, r⟩, ht, rfl⟩ := map_eq_some_iff.mp h
    unfold kcfork at ht
    split at ht
    · cases ht
      exact .refl _
    rename_i c hc
    refine (fork_acts hlive ht).mono (ForkPermits.permits (fun hw => ?_) fun d hd => ?_)
    · change FitsFork k (name2cont name s) s at hw
      rwa [hc] at hw
    · exact .inr ⟨k, name, rfl, hc.trans hd⟩
  | exit status => exact hexit status s' h
  | wait b =>
    obtain ⟨⟨t, r⟩, ht, rfl⟩ := map_eq_some_iff.mp h
    refine wait_acts hlive hleave (fun q hb hq => ?_) ht
    exact ⟨rfl, k, by rw [hb], hq⟩
  | kill pid =>
    obtain ⟨⟨t, r⟩, ht, rfl⟩ := map_eq_some_iff.mp h
    exact kill_acts (fun _ => trivial) ht
  | suspend pid n =>
    obtain ⟨⟨t, r⟩, ht, rfl⟩ := map_eq_some_iff.mp h
    exact ksuspend_acts (fun p hp => ⟨rfl, k, pid, n, rfl, hp⟩) (fun hF _ _ => hF) ht
  | ccreate name dir =>
    cases h
    exact kccreate_acts (fun c => ⟨rfl, k, dir, rfl⟩) (fun c => ⟨rfl, k, name, dir, rfl⟩)
  | cstart name vcname n =>
    cases h
    exact kcstart_acts fun c hc => ⟨rfl, k, name, vcname, n, rfl, hc⟩
  | cpause name =>
    cases h
    exact kcpause_acts fun c hc => ⟨rfl, k, name, rfl, hc⟩
  | cresume name =>
    cases h
    exact kcresume_acts fun c hc => ⟨rfl, k, name, rfl, hc⟩
  | cstop name =>
    obtain ⟨⟨t, r⟩, ht, rfl⟩ := map_eq_some_iff.mp h
    exact kcstop_acts (fun c hc => ⟨rfl, k, name, rfl, hc⟩) ht
  | setmaxcmem name n =>
    obtain ⟨⟨t, r⟩, ht, rfl⟩ := map_eq_some_iff.mp h
    refine setmax_acts (hexit 0) (fun c x _ hx => ?_) ht
    rw [State.view_setCont_same none s (withMaxSz_view hx)]
    exact .refl _
  | setmaxcdsk name n =>
    obtain ⟨⟨t, r⟩, ht, rfl⟩ := map_eq_some_iff.mp h
    refine setmax_acts (hexit 0) (fun c x _ hx => ?_) ht
    rw [State.view_setCont_same none s (withMaxDsk_view hx)]
    exact .refl _
  | setmaxcproc name n =>
    obtain ⟨⟨t, r⟩, ht, rfl⟩ := map_eq_some_iff.mp h
    exact setmax_acts (hexit 0) (fun c x hroot hx =>
      withMaxProc_acts hroot (fun _ => ⟨k, name, n, rfl⟩) hx) ht

/-- **The simulation.** Every step from a state whose trapframes belong to slots in use is a list of
acts that its event permits. -/
theorem step_acts {e : Event} (ha : Armed (s.view none)) (h : step s e = some s') :
    Acts (Permits s e) (s.view none) (s'.view none) := by
  have hlive : ∀ {k p}, trap k s = some p → ∀ q, s.myproc k = some q → (s.proc q).state ≠ .unused := fun ht q hq => by
    cases (ha.trap_live ht).1.symm.trans hq
    exact (ha.trap_live ht).2
  cases e with
  | sched k => exact sched_acts (fun _ _ _ => trivial) (fun _ => rfl) (fun _ _ => ⟨rfl, rfl⟩) h
  | call k x =>
    obtain ⟨p, hp, h⟩ := bind_eq_some_iff.mp h
    split at h
    · refine exit_acts (hlive hp) (fun _ => trivial) (fun v q hq hne => ?_) h
      exact ⟨hq, hlive hp q hq, fun _ => ⟨hne, x, rfl⟩⟩
    · exact syscall_acts (ha.trap_live hp).1 (ha.trap_live hp).2 h
  | yield k =>
    obtain ⟨p, hp, h⟩ := bind_eq_some_iff.mp h
    refine yieldCpu_acts (hlive hp) (fun _ q hq => ?_) h
    exact ⟨hq, hlive hp q hq, fun h => nomatch h⟩
  | sleep k chan =>
    by_cases hfreed : ∃ p, s.myproc k = some p ∧ (s.proc p).state = .unused
    · obtain ⟨p, hp, hu⟩ := hfreed
      obtain ⟨c, start, hmode⟩ := State.myproc_eq_some_iff.mp hp
      obtain ⟨q, hq, h⟩ := bind_eq_some_iff.mp h
      cases hp.symm.trans hq
      cases h
      rw [swtchOut_view hmode (by rfl) (by rfl)]
      exact .single (.lapse rfl hmode hu) ⟨hp, hu, chan, rfl⟩
    · have hlive : ∀ q, s.myproc k = some q → (s.proc q).state ≠ .unused := fun q hq hu => hfreed ⟨q, hq, hu⟩
      refine sleepOn_acts hlive (fun _ q hq => ?_) h
      exact ⟨hq, hlive q hq, fun h => nomatch h⟩
  | wakeup chan =>
    cases h
    exact wakeup_acts (fun _ => trivial) chan
  | clockintr =>
    cases h
    exact wakeup_acts (s := { s with ticks := s.ticks + 1 }) (fun _ => trivial) _
  | kalloc k =>
    obtain ⟨p, hp, h⟩ := bind_eq_some_iff.mp h
    obtain ⟨⟨t, b⟩, ht, rfl⟩ := map_eq_some_iff.mp h
    by_cases hF : FitsMem k 1 s
    · rw [(kalloc_calm hF ht).1.view]
      exact .refl _
    · refine ((kalloc_charged ht).acts none).mono fun v a ha => ?_
      obtain ⟨c, -, rfl⟩ := ha
      exact hF
  | kfree k =>
    obtain ⟨p, hp, h⟩ := bind_eq_some_iff.mp h
    rw [kfree_view none h]
    exact .refl _
  | balloc k =>
    obtain ⟨p, hp, rfl⟩ := map_eq_some_iff.mp h
    by_cases hF : FitsDsk k 1 s
    · rw [(ballocCharge_calm hF).1]
      exact .refl _
    · refine (ballocCharge_charged.acts none).mono fun v a ha => ?_
      obtain ⟨c, -, rfl⟩ := ha
      exact hF
  | bfree k =>
    obtain ⟨p, hp, rfl⟩ := map_eq_some_iff.mp h
    rw [bfreeCharge, updatecontdsk_view]
    exact .refl _
  | image k sz pages name =>
    obtain ⟨p, hp, rfl⟩ := map_eq_some_iff.mp h
    rw [State.view_setProc_same none s (by rfl)]
    exact .refl _

theorem Fires.armed {v v' : View} {a : Act} (h : Fires v a v') (ha : Armed v) : Armed v' := by
  intro q hq
  have hold := ha q
  cases h with
  | wake f hf =>
    have := Fires.wake_unused hf q
    grind
  | _ => grind [PView.free, PView.kill]

theorem armed_boot (free : Nat) : Armed ((boot free).view none) := by
  intro p hp
  by_cases h0 : p = 0
  · subst h0
    exact .inl (by simp [State.view, boot, Proc.view, initProc])
  · simp [State.view, boot, Proc.view, h0, Proc.zero] at hp

theorem reach_armed {ok : State → Event → Prop} {free : Nat}
    (h : Lib.Reach step ok (boot free) s) : Armed (s.view none) :=
  Lib.Reach.invariant (I := fun s => Armed (s.view none)) (armed_boot free)
    (fun _ _ _ ha _ hs => (step_acts ha hs).invariant (fun _ _ _ hv _ hf => hf.armed hv) ha) h

/-- **The table rule.** What holds of the view after boot and is kept by every act that an event of
the run permits holds of the view of every state reached. -/
theorem reach_view {ok : State → Event → Prop} {free : Nat} {I : View → Prop}
    (h0 : I ((boot free).view none))
    (hI : ∀ s e v a v', ok s e → I (s.view none) → I v → Permits s e v a → Fires v a v' → I v')
    (h : Lib.Reach step ok (boot free) s) : I (s.view none) := by
  have hboth : Armed (s.view none) ∧ I (s.view none) := by
    refine Lib.Reach.invariant (I := fun s => Armed (s.view none) ∧ I (s.view none))
      ⟨armed_boot free, h0⟩ (fun s e s' hs hok hstep => ?_) h
    have hacts := step_acts hs.1 hstep
    exact ⟨hacts.invariant (fun _ _ _ hv _ hf => hf.armed hv) hs.1,
      hacts.invariant (fun v a v' hv hp hf => hI s e v a v' hok hs.2 hv hp hf) hs.2⟩
  exact hboth.2

end Xv6.Kernel
