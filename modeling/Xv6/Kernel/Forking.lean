/-
# Xv6.Kernel.Forking — `allocproc`, `freeproc` and `fork` as acts.

`fork` is the one call whose middle shows: a charge that is refused half-way tears the caller's
container down while a slot is claimed.  `Pending` carries what is known between the claim and the
end of the call.
-/
import Xv6.Kernel.Permits

namespace Xv6.Kernel

open Option (bind_eq_some_iff)
open Function

variable {k : Fin NCPU} {s s' : State} {p np q : Slot} {c d : Cid} {P : View → Act → Prop} {x : Proc}
  {o : Option Cid}

theorem wake_acts (hP : ∀ v, P v .wake) {f : Slot → Proc}
    (pend : Option Slot)
    (hf : ∀ q, (f q).view = (s.proc q).view ∨
      ((s.proc q).state = .sleeping ∨ (s.proc q).state = .suspended) ∧ (f q).state = .runnable ∧
        (f q).cont = (s.proc q).cont ∧ (f q).tf = (s.proc q).tf) :
    Acts P (s.view pend) ({ s with proc := f }.view pend) := by
  have hview : ({ s with proc := f } : State).view pend = (s.view pend).restate fun q => (f q).state := by
    refine View.ext (funext fun q => ?_) rfl rfl rfl rfl
    rcases hf q with h | ⟨-, -, hc, ht⟩
    · simp only [State.view, View.restate, ← h]
      rfl
    · simp [State.view, View.restate, Proc.view, hc, ht]
  rw [hview]
  refine .single (.wake _ fun q => ?_) (hP _)
  rcases hf q with h | ⟨h, hr, -, -⟩
  · exact .inl (congrArg PView.state h)
  · exact .inr ⟨h, hr⟩

theorem setProc_wake_acts (hP : ∀ v, P v .wake)
    (pend : Option Slot) (hs : (s.proc p).state = .sleeping ∨ (s.proc p).state = .suspended)
    (hx : x.state = .runnable) (hc : x.cont = (s.proc p).cont) (htf : x.tf = (s.proc p).tf) :
    Acts P (s.view pend) ((s.setProc p x).view pend) := by
  refine wake_acts hP pend fun q => ?_
  exact Lib.update_cases (.inr ⟨hs, hx, hc, htf⟩) (fun _ _ => .inl rfl) q

theorem freeproc_view (pend : Option Slot) (h : freeproc k p s = some s') : s'.view pend = (s.view pend).release p := by
  obtain ⟨t, ht, h⟩ := bind_eq_some_iff.mp h
  obtain ⟨u, hu, h⟩ := bind_eq_some_iff.mp h
  have htv : t.view pend = s.view pend := by
    unfold freeTrapframe at ht
    split at ht
    · exact kfree_view pend ht
    · cases ht
      rfl
  have huv : u.view pend = s.view pend := by
    rw [← htv]
    unfold freePagetable at hu
    split at hu
    · cases hu
      rfl
    · exact procFreepagetable_view pend hu
  cases h
  have hcont : (u.proc p).cont = ((s.view pend).proc p).cont := by rw [← huv]; rfl
  rw [State.view_setProc]
  cases hc : (u.proc p).cont with
  | none =>
    rw [hc] at hcont
    simp only [updatecontproc, liftCont, huv]
    exact View.ext rfl (funext fun c => by simp [View.release, ← hcont]) rfl rfl rfl
  | some d =>
    rw [hc] at hcont
    simp only [updatecontproc, liftCont, State.view_setCont, huv]
    refine View.ext rfl (funext fun c => ?_) rfl rfl rfl
    have hud : (u.cont d).view = (s.view pend).cont d := by rw [← huv]; rfl
    by_cases hcd : c = d
    · subst hcd
      simp [View.release, ← hcont, Container.updateproc_view, hud]
    · have hdc : d ≠ c := fun he => hcd he.symm
      simp [View.release, ← hcont, hcd, hdc]

/-! ## `fork` -/

def forkTarget (k : Fin NCPU) (c : Option Cid) (s : State) : Option Cid :=
  match c with
  | none => s.mycont k
  | some c => some c

theorem allocproc_cases {ok : Bool} (h : allocproc k np c s = some (s', ok)) :
    ∃ t page, kalloc k (claimSlot np c s) = some (t, page) ∧
      (page = false ∧ ok = false ∧ s' = t.setProc np { t.proc np with tf := false } ∨
        page = true ∧ ok = true ∧ ∃ u pt,
          procPagetable k (t.setProc np { t.proc np with tf := true }) = some (u, pt) ∧
            s' = u.setProc np { u.proc np with pagetable := some pt }) := by
  obtain ⟨⟨t, page⟩, ht, h⟩ := bind_eq_some_iff.mp h
  refine ⟨t, page, ht, ?_⟩
  cases page with
  | false =>
    cases h
    exact .inl ⟨rfl, rfl, rfl⟩
  | true =>
    obtain ⟨⟨u, pt⟩, hu, h⟩ := bind_eq_some_iff.mp h
    cases h
    exact .inr ⟨rfl, rfl, u, pt, hu, rfl⟩

theorem fork_cases {r : Int} (h : fork k o s = some (s', r)) :
    s' = s ∨ ∃ p np d t ok, s.myproc k = some p ∧ freeSlot s = some np ∧
      forkTarget k o s = some d ∧ allocproc k np d s = some (t, ok) ∧
        (ok = false ∧ s' = t ∨ ok = true ∧ ∃ pt u pages copied,
          uvmcopy k (t.proc p).sz pt t = some (u, pages, copied) ∧
            (copied = false ∧ freeproc k np u = some s' ∨
              copied = true ∧ ∃ parent cwd, s' = countChild np (forkChild p np parent cwd pages u))) := by
  obtain ⟨⟨end', pid, child⟩, hbegin, h⟩ := bind_eq_some_iff.mp h
  cases h
  obtain ⟨p, hp, h⟩ := bind_eq_some_iff.mp hbegin
  dsimp only at h
  split at h
  · cases h
    exact .inl rfl
  rename_i np hnp
  obtain ⟨d, hd, h⟩ := bind_eq_some_iff.mp h
  obtain ⟨⟨t, ok⟩, ht, h⟩ := bind_eq_some_iff.mp h
  have htarget : forkTarget k o s = some d := by
    cases o with
    | none => simpa [forkTarget, State.mycont, hp] using hd
    | some c => exact hd
  refine .inr ⟨p, np, d, t, ok, hp, hnp, htarget, ht, ?_⟩
  cases ok with
  | false =>
    cases h
    exact .inl ⟨rfl, rfl⟩
  | true =>
    obtain ⟨pt, hpt, h⟩ := bind_eq_some_iff.mp h
    obtain ⟨⟨u, pages, copied⟩, hu, h⟩ := bind_eq_some_iff.mp h
    refine .inr ⟨rfl, pt.pages, u, pages, copied, hu, ?_⟩
    cases copied with
    | false =>
      obtain ⟨w, hw, h⟩ := bind_eq_some_iff.mp h
      cases h
      exact .inl ⟨rfl, hw⟩
    | true =>
      obtain ⟨cwd, hcwd, h⟩ := bind_eq_some_iff.mp h
      cases h
      exact .inr ⟨rfl, _, cwd, rfl⟩

theorem freeSlot_unused (h : freeSlot s = some np) : (s.proc np).state = .unused := by
  simpa using (Fin.find?_eq_some_iff.mp h).1

theorem claimSlot_fires (hu : (s.proc np).state = .unused) :
    Fires (s.view none) (.claim np c) ((claimSlot np c s).view (some np)) := by
  have hview : (claimSlot np c s).view (some np) =
      { (s.view none).withProc np { (s.view none).proc np with cont := some c } with
        pend := some np } := by
    unfold claimSlot
    dsimp only
    split
    · rw [State.view_setProc]
      rfl
    · rw [State.view_setProc, State.view_setCont_same]
      · rfl
      · rfl
  rw [hview]
  exact .claim hu rfl

theorem mycont_setProc (hx : x.cont = (s.proc q).cont) : (s.setProc q x).mycont k = s.mycont k := by
  have hproc : ∀ p, ((s.setProc q x).proc p).cont = (s.proc p).cont := Lib.update_same Proc.cont hx
  simp only [State.mycont, State.myproc, State.setProc_cpus, hproc]

theorem mycont_claimSlot (hne : s.myproc k ≠ some np) : (claimSlot np c s).mycont k = s.mycont k := by
  have hmy : (claimSlot np c s).myproc k = s.myproc k := by
    unfold claimSlot
    dsimp only
    split <;> rfl
  unfold State.mycont
  rw [hmy]
  cases hp : s.myproc k with
  | none => rfl
  | some p =>
    have hpn : p ≠ np := fun he => hne (by rw [hp, he])
    unfold claimSlot
    dsimp only
    split <;> simp [hpn]

theorem FitsMem.setProc {n : Nat} (hx : x.cont = (s.proc q).cont)
    (h : FitsMem k n s) : FitsMem k n (s.setProc q x) := by
  intro c hc
  rw [mycont_setProc hx] at hc
  exact h c hc

theorem FitsMem.claimSlot {n : Nat} (hne : s.myproc k ≠ some np) (h : FitsMem k n s) :
    FitsMem k n (claimSlot np c s) := by
  intro d hd
  rw [mycont_claimSlot hne] at hd
  unfold Kernel.claimSlot
  dsimp only
  split
  · exact h d hd
  · by_cases hdc : d = c
    · subst hdc
      simpa [Container.RoomMem] using h d hd
    · simpa [hdc] using h d hd

def ForkPermits (k : Fin NCPU) (o : Option Cid) (s : State) (v : View) : Act → Prop
  | .claim np d => v = s.view none ∧ freeSlot s = some np ∧ forkTarget k o s = some d
  | .arm _ | .abandon _ | .birth _ _ => True
  | .stray _ d => ¬ FitsFork k (forkTarget k o s) s ∨ (s.cont d).isroot ≠ 0
  | .forfeit _ | .teardown _ => ¬ FitsFork k (forkTarget k o s) s
  | _ => False

/-- The end of `fork`: the child is counted, or it is one too many and its container is torn down
(the root container is not). -/
theorem birth_acts {parent : Slot} {cwd : Ino} {pages : Nat}
    (hu : (s.proc np).state = .unused) (hc : (s.proc np).cont = some c)
    (hbirth : P (s.view (some np)) (.birth np c))
    (hstray : (s.cont c).view.Full → P (s.view (some np)) (.stray np c) ∧
      ((s.cont c).isroot = 0 → ∀ v, P v (.teardown c))) :
    Acts P (s.view (some np)) ((countChild np (forkChild p np parent cwd pages s)).view none) := by
  -- the child with its fields filled in; nothing but its state shows in the view
  generalize hchild : forkChild p np parent cwd pages s = t
  have htv : t.view none = { (s.view (some np)).setState np .runnable with pend := none } := by
    rw [← hchild, forkChild, State.view_setProc]
    rfl
  have htc : (t.proc np).cont = some c := by rw [← hchild]; simpa [forkChild] using hc
  have htcont : t.cont = s.cont := by rw [← hchild]; rfl
  have hrefused : (updatecontproc 1 (t.proc np).cont t).2 < 0 ↔ (s.cont c).view.Full := by
    simp only [htc, updatecontproc, liftCont, htcont, Container.updateproc, CView.Full, Container.view]
    split
    · simp [*]
    · split <;> simp [*]
  unfold countChild
  dsimp only
  by_cases hfull : (s.cont c).view.Full
  · rw [if_pos (hrefused.mpr hfull), htc]
    dsimp only
    have hkeep : (updatecontproc 1 (some c) t).1.view none = t.view none := by
      refine State.view_setCont_same none t ?_
      rw [Container.updateproc_view, htcont, CView.count, if_neg hfull.1, if_pos hfull.2]
    have hroot' : ((updatecontproc 1 (some c) t).1.cont c).view = (s.cont c).view := by
      rw [← htcont]
      exact congrFun (congrArg View.cont hkeep) c
    have hfire := Fires.stray (v := s.view (some np)) rfl hu hc hfull
    rw [← htv, ← hkeep] at hfire
    refine (Acts.single hfire (hstray hfull).1).trans ?_
    by_cases hroot : (s.cont c).isroot = 0
    · refine .single (climitexceedhandler_fires none ?_ ?_) ((hstray hfull).2 hroot _)
      · exact (congrArg CView.isroot hroot').trans hroot
      · exact fun h => hfull.1 ((congrArg CView.state hroot').symm.trans h)
    have hskip : climitexceedhandler c (updatecontproc 1 (some c) t).1 = (updatecontproc 1 (some c) t).1 := by
      rw [climitexceedhandler, if_pos]
      exact fun h => hroot ((congrArg CView.isroot hroot').symm.trans h)
    rw [hskip]
    exact .refl _
  · rw [if_neg (fun h => hfull (hrefused.mp h)), htc]
    have hfire := Fires.birth (v := s.view (some np)) rfl hu hc hfull
    have hview : (updatecontproc 1 (some c) t).1.view none =
        { ((s.view (some np)).setState np .runnable).withCont c
            (((s.view (some np)).cont c).count 1) with pend := none } := by
      simp only [updatecontproc, liftCont, State.view_setCont, htv, Container.updateproc_view, htcont]
      rfl
    rw [hview]
    exact .single hfire hbirth

theorem Charged.proc_sz (h : Charged k s s') (q : Slot) : (s'.proc q).sz = (s.proc q).sz := by
  rcases h.proc q with he | ⟨-, he⟩ <;> rw [he]
  rfl

section Pending

variable {P : View → Act → Prop} {F : Prop} {n m : Nat} {t u : State}

/-- A `fork` begun in `s` has claimed `np` for `c` and is in `t`.  When
`F` holds (the whole copy fits), no charge has shown so far and `n` more pages fit. -/
structure Pending (P : View → Act → Prop) (F : Prop) (k : Fin NCPU) (np : Slot) (c : Cid) (n : Nat)
    (s t : State) : Prop where
  acts : Acts P (s.view none) (t.view (some np))
  unused : (t.proc np).state = .unused
  cont : (t.proc np).cont = some c
  fits : F → FitsMem k n t
  same : F → ∀ d, (t.cont d).view = (s.cont d).view
  sz : ∀ q, q ≠ np → (t.proc q).sz = (s.proc q).sz

theorem Pending.claim (hu : (s.proc np).state = .unused) (hne : s.myproc k ≠ some np)
    (hF : F → FitsMem k n s) (hP : P (s.view none) (.claim np c)) :
    Pending P F k np c n s (claimSlot np c s) where
  acts := .single (claimSlot_fires hu) hP
  unused := by
    unfold claimSlot
    dsimp only
    split <;> simpa using hu
  cont := by
    unfold claimSlot
    dsimp only
    split <;> simp
  fits hf := (hF hf).claimSlot hne
  same _ d := by
    unfold claimSlot
    dsimp only
    split
    · rfl
    · exact Lib.update_same Container.view (by rfl) d
  sz q hq := by
    unfold claimSlot
    dsimp only
    split <;> simp [hq]

section

variable (h : Pending P F k np c n s t)
include h

/-- Charges go on: they show only when they may not fit. -/
theorem Pending.charge (hcharged : Charged k t u)
    (hcalm : FitsMem k n t → Calm k m t u) (hP : ¬ F → ∀ v c, P v (.teardown c)) :
    Pending P F k np c m s u where
  acts := by
    refine h.acts.trans ?_
    by_cases hF : F
    · rw [(hcalm (h.fits hF)).view]
      exact .refl _
    · refine (hcharged.acts _).mono fun v a ha => ?_
      obtain ⟨c, -, rfl⟩ := ha
      exact hP hF v c
  unused := (hcharged.proc_unused np).mpr h.unused
  cont := (hcharged.proc_cont np).trans h.cont
  fits hF := (hcalm (h.fits hF)).fits
  same hF d := (congrFun (congrArg View.cont ((hcalm (h.fits hF)).view none)) d).trans (h.same hF d)
  sz q hq := (hcharged.proc_sz q).trans (h.sz q hq)

theorem Pending.arm (hP : ∀ v, P v (.arm np)) : Pending P F k np c n s (t.setProc np { t.proc np with tf := true }) where
  acts := by
    refine .tail h.acts (hP _) ?_
    rw [State.view_setProc]
    exact .arm rfl h.unused
  unused := by simpa using h.unused
  cont := by simpa using h.cont
  fits hF := (h.fits hF).setProc rfl
  same := h.same
  sz q hq := by simpa [hq] using h.sz q hq

theorem Pending.pagetable (pt : Option PageTable) :
    Pending P F k np c n s (t.setProc np { t.proc np with pagetable := pt }) where
  acts := by
    rw [State.view_setProc_same _ t (by rfl)]
    exact h.acts
  unused := by simpa using h.unused
  cont := by simpa using h.cont
  fits hF := (h.fits hF).setProc rfl
  same := h.same
  sz q hq := by simpa [hq] using h.sz q hq

end

theorem fork_acts {r : Int}
    (hlive : ∀ p, s.myproc k = some p → (s.proc p).state ≠ .unused)
    (h : fork k o s = some (s', r)) : Acts (ForkPermits k o s) (s.view none) (s'.view none) := by
  rcases fork_cases h with rfl | ⟨p, np, d, t, ok, hp, hnp, hd, ht, hrest⟩
  · exact .refl _
  have hu := freeSlot_unused hnp
  have hpn : p ≠ np := fun he => hlive p hp (by rw [he, hu])
  have hne : s.myproc k ≠ some np := fun he => hpn (Option.some.inj (hp.symm.trans he))
  have hdown : ¬ FitsFork k (forkTarget k o s) s → ∀ v c, ForkPermits k o s v (.teardown c) := fun hF _ _ => hF
  obtain ⟨t1, page, ht1, hpage⟩ := allocproc_cases ht
  have hclaimed : Pending (ForkPermits k o s) (FitsFork k (forkTarget k o s) s) k np d _ s t1 :=
    (Pending.claim hu hne (fun hF => hF.1 p hp) ⟨rfl, hnp, hd⟩).charge (kalloc_charged ht1)
      (fun hf => (kalloc_calm hf ht1).1) hdown
  rcases hpage with ⟨-, rfl, rfl⟩ | ⟨-, rfl, u, pt, hu', rfl⟩
  · -- no trapframe
    obtain ⟨-, rfl⟩ | ⟨hok, -⟩ := hrest
    · refine .tail (a := .abandon np) hclaimed.acts trivial ?_
      rw [State.view_setProc]
      exact .abandon rfl hclaimed.unused
    · cases hok
  have halloc := ((hclaimed.arm fun _ => trivial).charge (procPagetable_charged hu')
    (fun hf => procPagetable_calm hf hu') hdown).pagetable (some pt)
  obtain ⟨hok, -⟩ | ⟨-, n, w, pages, copied, hw, hend⟩ := hrest
  · cases hok
  rw [halloc.sz p hpn] at hw
  have hcopy := halloc.charge (m := 0) (uvmcopy_charged hw)
    (fun hf => (uvmcopyFrom_calm (by simpa using hf) hw).2) hdown
  rcases hend with ⟨rfl, hfree⟩ | ⟨rfl, parent, cwd, rfl⟩
  · -- the copy failed, so it did not fit
    have hF : ¬ FitsFork k (forkTarget k o s) s := fun hF =>
      Bool.false_ne_true (uvmcopyFrom_calm (n := 0) (by simpa using halloc.fits hF) hw).1
    refine .tail (a := .forfeit np) hcopy.acts hF ?_
    rw [freeproc_view none hfree]
    exact .forfeit rfl hcopy.unused
  refine hcopy.acts.trans (birth_acts hcopy.unused hcopy.cont trivial fun hfull => ?_)
  by_cases hF : FitsFork k (forkTarget k o s) s
  · -- a container with room that refuses is the root
    have hsame := hcopy.same hF d
    have hroot : (s.cont d).isroot ≠ 0 := by
      rw [hsame] at hfull
      rcases hF.2 d hd with h1 | h1 | h1
      · exact h1
      · exact absurd h1 hfull.1
      · exact absurd hfull.2 (by simpa [Container.view] using h1)
    refine ⟨.inr hroot, fun h0 => absurd ?_ hroot⟩
    exact (congrArg CView.isroot hsame).symm.trans h0
  · exact ⟨.inl hF, fun _ _ => hF⟩

end Pending

end Xv6.Kernel
