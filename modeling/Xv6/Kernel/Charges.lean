/-
# Xv6.Kernel.Charges — what allocating pages and blocks can do to the two tables.

Every allocation charges the container of the process current on the CPU, and a refused charge tears
that container down.  `Charged k s s'` says all that any sequence of such charges on CPU `k` can have
done: nothing outside the current container changes, its processes are killed or untouched, and on
the views only teardowns of it have happened.

The second half is the other direction: when the container still has room for the pages
(`FitsMem`), no charge is refused, the view does not change at all, and an allocation only fails
by leaving `kmem.lock` held.
-/
import Xv6.Kernel.Groups

namespace Xv6.Kernel

open Option (bind_eq_some_iff)

variable {k : Fin NCPU} {s s' s'' : State} {n i m sz : Nat} {b l1 l0 : Bool} {pt : PageTable} {c : Container}
  {r : Nat × Bool}

/-! ## Single charges -/

theorem Container.updatemem_view (d : BitVec 64) (c : Container) : (c.updatemem d).1.view = c.view := by
  unfold Container.updatemem
  split
  · rfl
  · split <;> rfl

theorem Container.updatedsk_view (d : BitVec 64) (c : Container) : (c.updatedsk d).1.view = c.view := by
  unfold Container.updatedsk
  split
  · rfl
  · split <;> rfl

theorem Container.updateproc_view (d : Int) (c : Container) : (c.updateproc d).1.view = c.view.count d := by
  by_cases hstate : c.state = .cunused
  · rw [CView.count, if_pos (by exact hstate), Container.updateproc, if_pos hstate]
  rw [CView.count, if_neg (by exact hstate), Container.updateproc, if_neg hstate]
  by_cases hover : c.usedProc + d > c.maxProc
  · rw [if_pos hover, if_pos (by exact hover)]
  · rw [if_neg hover, if_neg (by exact hover)]
    rfl

@[simp] theorem Proc.kill_view (p : Proc) : p.kill.view = p.view.kill := rfl

theorem liftCont_view {f : Container → Container × Int} (hf : ∀ c, (f c).1.view = c.view)
    (pend : Option Slot) (c : Option Cid) (s : State) :
    (liftCont f c s).1.view pend = s.view pend := by
  cases c with
  | none => rfl
  | some c => exact State.view_setCont_same pend s (hf _)

theorem updatecontmem_view (pend : Option Slot) (d : BitVec 64) (c : Option Cid) (s : State) :
    (updatecontmem d c s).1.view pend = s.view pend :=
  liftCont_view (fun c => c.updatemem_view d) pend c s

theorem updatecontdsk_view (pend : Option Slot) (d : BitVec 64) (c : Option Cid) (s : State) :
    (updatecontdsk d c s).1.view pend = s.view pend :=
  liftCont_view (fun c => c.updatedsk_view d) pend c s

/-- What the container has been charged stays below its two limits; the root container has none. -/
def Container.Within (c : Container) : Prop := c.isroot = 0 → c.usedMem ≤ c.maxSz ∧ c.usedDsk ≤ c.maxDsk

/-- The sum is compared before it is stored, so a wrap cannot get past the limit. -/
theorem Container.Within.updatemem (d : BitVec 64) (h : c.Within) : (c.updatemem d).1.Within := by
  unfold Container.updatemem
  split
  · exact h
  split
  · exact h
  rename_i hkept
  intro hroot
  refine ⟨?_, (h hroot).2⟩
  dsimp only
  split
  · exact BitVec.le_def.mpr (Nat.zero_le _)
  · exact BitVec.not_lt.mp fun hover => hkept ⟨hover, hroot⟩

theorem Container.Within.updatedsk (d : BitVec 64) (h : c.Within) : (c.updatedsk d).1.Within := by
  unfold Container.updatedsk
  split
  · exact h
  split
  · exact h
  rename_i hkept
  intro hroot
  refine ⟨(h hroot).1, ?_⟩
  dsimp only
  split
  · exact BitVec.le_def.mpr (Nat.zero_le _)
  · exact BitVec.not_lt.mp fun hover => hkept ⟨hover, hroot⟩

theorem Container.freed_within (c : Container) : c.freed.Within := fun _ => ⟨BitVec.le_refl _, BitVec.le_refl _⟩

theorem climitexceedhandler_fires {c : Cid} (pend : Option Slot) (hroot : (s.cont c).isroot = 0)
    (h : (s.cont c).state ≠ .cunused) :
    Fires (s.view pend) (.teardown c) ((climitexceedhandler c s).view pend) := by
  have hview : (climitexceedhandler c s).view pend = (s.view pend).teardown c := by
    rw [climitexceedhandler, if_neg (not_not.mpr hroot), if_neg h, freecontainer, State.view_setCont]
    refine View.ext (funext fun p => ?_) (funext fun d => ?_) rfl rfl rfl
    · by_cases hp : (s.proc p).cont = some c
      · have hv : (s.proc p).view.cont = some c := hp
        simp [State.view, View.teardown, stopprocforcontainer, hp, hv]
      · have hv : (s.proc p).view.cont ≠ some c := hp
        simp [State.view, View.teardown, stopprocforcontainer, hp, hv]
    by_cases hd : d = c
    · subst hd
      simp [View.teardown, stopprocforcontainer, Container.freed, Container.view, CView.freed, State.view, hroot]
    · simp [View.teardown, stopprocforcontainer, hd, State.view]
  rw [hview]
  exact .teardown hroot h

/-! ## Sequences of charges -/

/-- What charges made on CPU `k` can have done between `s` and `s'`. -/
structure Charged (k : Fin NCPU) (s s' : State) : Prop where
  proc : ∀ q, s'.proc q = s.proc q ∨
    (∃ c, s.mycont k = some c ∧ (s.proc q).cont = some c) ∧ s'.proc q = (s.proc q).kill
  cont : ∀ c, s.mycont k ≠ some c → s'.cont c = s.cont c
  within : ∀ c, (s.cont c).Within → (s'.cont c).Within
  cpus : s'.cpus = s.cpus
  initproc : s'.initproc = s.initproc
  nextpid : s'.nextpid = s.nextpid
  acts : ∀ pend, Acts (fun _ a => ∃ c, s.mycont k = some c ∧ a = .teardown c)
    (s.view pend) (s'.view pend)

theorem Proc.kill_kill (p : Proc) : p.kill.kill = p.kill := by
  simp only [Proc.kill]
  split <;> simp_all

namespace Charged

theorem refl (k : Fin NCPU) (s : State) : Charged k s s :=
  ⟨fun _ => .inl rfl, fun _ _ => rfl, fun _ h => h, rfl, rfl, rfl, fun _ => .refl _⟩

section

variable (h : Charged k s s')
include h

theorem proc_cont (q : Slot) : (s'.proc q).cont = (s.proc q).cont := by
  rcases h.proc q with hq | ⟨_, hq⟩ <;> rw [hq]
  rfl

theorem proc_unused (q : Slot) : (s'.proc q).state = .unused ↔ (s.proc q).state = .unused := by
  rcases h.proc q with hq | ⟨_, hq⟩ <;> rw [hq]
  simp only [Proc.kill]
  split
  · rename_i hs
    rcases hs with hs | hs <;> simp [hs]
  · rfl

theorem myproc (j : Fin NCPU) : s'.myproc j = s.myproc j := by simp only [State.myproc, h.cpus]

theorem mycont (j : Fin NCPU) : s'.mycont j = s.mycont j := by
  simp only [State.mycont, h.myproc, h.proc_cont]

theorem trans (h' : Charged k s' s'') : Charged k s s'' where
  proc q := by
    rcases h.proc q with hq | ⟨hc, hq⟩ <;> rcases h'.proc q with hq' | ⟨hc', hq'⟩
    · exact .inl (hq'.trans hq)
    · rw [h.mycont k, hq] at hc'
      exact .inr ⟨hc', hq'.trans (by rw [hq])⟩
    · exact .inr ⟨hc, hq'.trans hq⟩
    · exact .inr ⟨hc, by rw [hq', hq, Proc.kill_kill]⟩
  cont c hc := (h'.cont c (by rwa [h.mycont k])).trans (h.cont c hc)
  within c hc := h'.within c (h.within c hc)
  cpus := h'.cpus.trans h.cpus
  initproc := h'.initproc.trans h.initproc
  nextpid := h'.nextpid.trans h.nextpid
  acts pend := (h.acts pend).trans ((h'.acts pend).mono fun _ a ha => by rwa [h.mycont k] at ha)

end

theorem kmem (k : Fin NCPU) (s : State) (m : Kmem) : Charged k s { s with kmem := m } :=
  ⟨fun _ => .inl rfl, fun _ _ => rfl, fun _ h => h, rfl, rfl, rfl, fun _ => .refl _⟩

theorem lift {f : Container → Container × Int} (hf : ∀ c, (f c).1.view = c.view)
    (hw : ∀ c : Container, c.Within → (f c).1.Within) (k : Fin NCPU) (s : State) :
    Charged k s (liftCont f (s.mycont k) s).1 := by
  cases hc : s.mycont k with
  | none => exact refl k s
  | some c =>
    refine ⟨fun _ => .inl rfl, fun d hd => ?_, fun d hd => ?_, rfl, rfl, rfl, fun pend => ?_⟩
    · have hne : d ≠ c := fun he => hd (by rw [hc, he])
      simp [liftCont, hne]
    · by_cases hdc : d = c
      · subst hdc
        simpa [liftCont] using hw _ hd
      · simpa [liftCont, hdc] using hd
    · rw [liftCont_view hf]
      exact .refl _

theorem mem (k : Fin NCPU) (s : State) (d : BitVec 64) : Charged k s (updatecontmem d (s.mycont k) s).1 :=
  lift (fun c => c.updatemem_view d) (fun _ h => h.updatemem d) k s

theorem dsk (k : Fin NCPU) (s : State) (d : BitVec 64) : Charged k s (updatecontdsk d (s.mycont k) s).1 :=
  lift (fun c => c.updatedsk_view d) (fun _ h => h.updatedsk d) k s

theorem limit {c : Cid} (hc : s.mycont k = some c) : Charged k s (climitexceedhandler c s) := by
  by_cases hskip : (s.cont c).isroot ≠ 0 ∨ (s.cont c).state = .cunused
  · have hsame : climitexceedhandler c s = s := by
      rcases hskip with h | h
      · simp [climitexceedhandler, h]
      · simp [climitexceedhandler, h]
    rw [hsame]
    exact refl k s
  obtain ⟨hroot, hused⟩ := not_or.mp hskip
  rw [not_not] at hroot
  have hrun : climitexceedhandler c s =
      freecontainer c (stopprocforcontainer c (s.setCont c { s.cont c with state := .cstopped })) := by
    rw [climitexceedhandler, if_neg (not_not.mpr hroot), if_neg hused]
  refine ⟨fun q => ?_, fun d hd => ?_, fun d hd => ?_, ?_, ?_, ?_, fun pend => ?_⟩
  · by_cases hq : (s.proc q).cont = some c
    · refine .inr ⟨⟨c, hc, hq⟩, ?_⟩
      simp [hrun, freecontainer, stopprocforcontainer, hq]
    · refine .inl ?_
      simp [hrun, freecontainer, stopprocforcontainer, hq]
  · have hne : d ≠ c := fun he => hd (by rw [hc, he])
    simp [hrun, freecontainer, stopprocforcontainer, hne]
  · by_cases hdc : d = c
    · subst hdc
      simpa [hrun, freecontainer] using Container.freed_within _
    · simpa [hrun, freecontainer, stopprocforcontainer, hdc] using hd
  · simp [hrun, freecontainer, stopprocforcontainer]
  · simp [hrun, freecontainer, stopprocforcontainer]
  · simp [hrun, freecontainer, stopprocforcontainer, State.setCont]
  · exact .single (climitexceedhandler_fires pend hroot hused) ⟨c, hc, rfl⟩

end Charged

/-! ## The allocation functions -/

theorem kalloc_charged (h : kalloc k s = some (s', b)) : Charged k s s' := by
  have htake : Charged k s (updatecontmem (BitVec.ofNat 64 PGSIZE) (s.mycont k) (takePage s)).1 :=
    (Charged.kmem k s _).trans (.mem k (takePage s) _)
  unfold kalloc at h
  split at h
  · cases h
  dsimp only at h
  split at h
  · split at h <;> cases h
    · exact htake
    · rename_i c hc
      exact htake.trans (.limit (by rw [htake.mycont, hc]))
  · cases h
    exact htake

theorem kfree_charged (h : kfree k s = some s') : Charged k s s' := by
  unfold kfree at h
  split at h
  · cases h
  · cases h
    exact (Charged.kmem k s _).trans (.mem k (putPage s) _)

theorem kfree_view (pend : Option Slot) (h : kfree k s = some s') : s'.view pend = s.view pend := by
  unfold kfree at h
  split at h
  · cases h
  · cases h
    exact updatecontmem_view pend _ _ (putPage s)

theorem kfreeN_charged (h : kfreeN k n s = some s') : Charged k s s' := by
  induction n generalizing s with
  | zero =>
    cases h
    exact .refl k _
  | succ n ih =>
    obtain ⟨t, ht, h⟩ := bind_eq_some_iff.mp h
    exact (kfree_charged ht).trans (ih h)

theorem kfreeN_view (pend : Option Slot) (h : kfreeN k n s = some s') : s'.view pend = s.view pend := by
  induction n generalizing s with
  | zero =>
    cases h
    rfl
  | succ n ih =>
    obtain ⟨t, ht, h⟩ := bind_eq_some_iff.mp h
    exact (ih h).trans (kfree_view pend ht)

theorem walkLevel_charged {l : Bool} (h : walkLevel k l s = some (s', b)) : Charged k s s' := by
  unfold walkLevel at h
  split at h
  · cases h
    exact .refl k s
  · exact kalloc_charged h

theorem mapTop_charged {r : Bool × Bool × Bool}
    (h : mapTop k l1 l0 s = some (s', r)) : Charged k s s' := by
  obtain ⟨⟨t, b⟩, ht, h⟩ := bind_eq_some_iff.mp h
  dsimp only at h
  split at h
  · cases h
    exact walkLevel_charged ht
  · obtain ⟨⟨u, b'⟩, hu, h⟩ := bind_eq_some_iff.mp h
    cases h
    exact (walkLevel_charged ht).trans (walkLevel_charged hu)

theorem procPagetable_charged (h : procPagetable k s = some (s', pt)) : Charged k s s' := by
  obtain ⟨⟨t, b⟩, ht, h⟩ := bind_eq_some_iff.mp h
  dsimp only at h
  split at h
  · cases h
  · obtain ⟨⟨u, r⟩, hu, h⟩ := bind_eq_some_iff.mp h
    obtain ⟨⟨w, r'⟩, hw, h⟩ := bind_eq_some_iff.mp h
    cases h
    exact (kalloc_charged ht).trans ((mapTop_charged hu).trans (mapTop_charged hw))

theorem kallocN_charged (h : kallocN k n s = some (s', r)) : Charged k s s' := by
  induction n generalizing s r with
  | zero =>
    cases h
    exact .refl k _
  | succ n ih =>
    obtain ⟨⟨t, b⟩, ht, h⟩ := bind_eq_some_iff.mp h
    dsimp only at h
    split at h
    · cases h
      exact kalloc_charged ht
    · obtain ⟨⟨u, r'⟩, hu, h⟩ := bind_eq_some_iff.mp h
      cases h
      exact (kalloc_charged ht).trans (ih hu)

theorem uvmcopyErr_charged (h : uvmcopyErr k i s = some (s', b)) : Charged k s s' := by
  unfold uvmcopyErr at h
  split at h
  · cases h
  · obtain ⟨t, ht, h⟩ := Option.map_eq_some_iff.mp h
    cases h
    exact kfreeN_charged ht

theorem uvmcopyFrom_charged {rem pt : Nat}
    (h : uvmcopyFrom k rem i pt s = some (s', r)) : Charged k s s' := by
  induction rem generalizing s i pt r with
  | zero =>
    cases h
    exact .refl k _
  | succ rem ih =>
    obtain ⟨⟨t, b⟩, ht, h⟩ := bind_eq_some_iff.mp h
    refine (kalloc_charged ht).trans ?_
    dsimp only at h
    split at h
    · obtain ⟨⟨u, b'⟩, hu, h⟩ := bind_eq_some_iff.mp h
      cases h
      exact uvmcopyErr_charged hu
    obtain ⟨⟨u, m, b'⟩, hu, h⟩ := bind_eq_some_iff.mp h
    refine (kallocN_charged hu).trans ?_
    dsimp only at h
    split at h
    · obtain ⟨w, hw, h⟩ := bind_eq_some_iff.mp h
      obtain ⟨⟨x, b''⟩, hx, h⟩ := bind_eq_some_iff.mp h
      cases h
      exact (kfree_charged hw).trans (uvmcopyErr_charged hx)
    · exact ih h

theorem uvmcopy_charged {pt : Nat} (h : uvmcopy k sz pt s = some (s', r)) : Charged k s s' := uvmcopyFrom_charged h

theorem procFreepagetable_charged
    (h : procFreepagetable k pt sz s = some s') : Charged k s s' := by
  unfold procFreepagetable at h
  split at h
  · cases h
  split at h
  · cases h
    exact .refl k _
  · obtain ⟨t, ht, h⟩ := bind_eq_some_iff.mp h
    exact (kfreeN_charged ht).trans (kfreeN_charged h)

theorem procFreepagetable_view (pend : Option Slot)
    (h : procFreepagetable k pt sz s = some s') : s'.view pend = s.view pend := by
  unfold procFreepagetable at h
  split at h
  · cases h
  split at h
  · cases h
    rfl
  · obtain ⟨t, ht, h⟩ := bind_eq_some_iff.mp h
    exact (kfreeN_view pend h).trans (kfreeN_view pend ht)

theorem bfreeCharge_charged : Charged k s (bfreeCharge k s) := .dsk k s _

theorem ballocCharge_charged : Charged k s (ballocCharge k s) := by
  have hcharge := Charged.dsk k s (BitVec.ofNat 64 BSIZE)
  unfold ballocCharge
  dsimp only
  split
  · have hback := hcharge.trans (.dsk k _ (neg64 BSIZE))
    rw [hcharge.mycont] at hback
    split
    · exact hback
    · rename_i c hc
      exact hback.trans (.limit hc)
  · exact hcharge

theorem ballocN_charged : Charged k s (ballocN k n s) := by
  induction n generalizing s with
  | zero => exact .refl k s
  | succ n ih => exact ballocCharge_charged.trans ih

/-! ## Charges that fit -/

namespace Container

/-- The container has room for `n` more pages; the root container and a container that is not in use
are never refused. -/
def RoomMem (n : Nat) (c : Container) : Prop :=
  c.isroot ≠ 0 ∨ c.state = .cunused ∨ c.usedMem.toNat + n * PGSIZE ≤ c.maxSz.toNat
deriving Decidable

def RoomDsk (n : Nat) (c : Container) : Prop :=
  c.isroot ≠ 0 ∨ c.state = .cunused ∨ c.usedDsk.toNat + n * BSIZE ≤ c.maxDsk.toNat
deriving Decidable

theorem toNat_add_of_le {x max : BitVec 64} {d : Nat}
    (h : x.toNat + (n + 1) * d ≤ max.toNat) : (x + BitVec.ofNat 64 d).toNat = x.toNat + d := by
  have hd : d ≤ (n + 1) * d := Nat.le_mul_of_pos_left d n.succ_pos
  have hmax := max.isLt
  rw [BitVec.toNat_add, BitVec.toNat_ofNat, Nat.mod_eq_of_lt (a := d) (by omega), Nat.mod_eq_of_lt (by omega)]

theorem RoomMem.updatemem (h : c.RoomMem (n + 1)) :
    ¬ (c.updatemem (BitVec.ofNat 64 PGSIZE)).2 < 0 ∧ (c.updatemem (BitVec.ofNat 64 PGSIZE)).1.RoomMem n := by
  by_cases hstate : c.state = .cunused
  · simp [Container.updatemem, RoomMem, hstate]
  by_cases hroot : c.isroot = 0
  · have hroom : c.usedMem.toNat + (n + 1) * PGSIZE ≤ c.maxSz.toNat :=
      (h.resolve_left (not_not.mpr hroot)).resolve_left hstate
    have hsum := toNat_add_of_le hroom
    have hover : ¬ c.usedMem + BitVec.ofNat 64 PGSIZE > c.maxSz := by
      rw [gt_iff_lt, BitVec.lt_def, hsum]
      simp only [PGSIZE] at hroom ⊢
      omega
    rw [Container.updatemem, if_neg hstate, if_neg (fun h => hover h.1)]
    refine ⟨by simp, .inr (.inr ?_)⟩
    dsimp only
    split
    · simp only [BitVec.ofNat_eq_ofNat, BitVec.toNat_ofNat, PGSIZE] at hroom ⊢
      omega
    · rw [hsum]
      simp only [PGSIZE] at hroom ⊢
      omega
  · rw [Container.updatemem, if_neg hstate, if_neg fun h => hroot h.2]
    exact ⟨by simp, .inl hroot⟩

theorem RoomDsk.updatedsk (h : c.RoomDsk (n + 1)) :
    ¬ (c.updatedsk (BitVec.ofNat 64 BSIZE)).2 < 0 ∧ (c.updatedsk (BitVec.ofNat 64 BSIZE)).1.RoomDsk n := by
  by_cases hstate : c.state = .cunused
  · simp [Container.updatedsk, RoomDsk, hstate]
  by_cases hroot : c.isroot = 0
  · have hroom : c.usedDsk.toNat + (n + 1) * BSIZE ≤ c.maxDsk.toNat :=
      (h.resolve_left (not_not.mpr hroot)).resolve_left hstate
    have hsum := toNat_add_of_le hroom
    have hover : ¬ c.usedDsk + BitVec.ofNat 64 BSIZE > c.maxDsk := by
      rw [gt_iff_lt, BitVec.lt_def, hsum]
      simp only [BSIZE] at hroom ⊢
      omega
    rw [Container.updatedsk, if_neg hstate, if_neg (fun h => hover h.1)]
    refine ⟨by simp, .inr (.inr ?_)⟩
    dsimp only
    split
    · simp only [BitVec.ofNat_eq_ofNat, BitVec.toNat_ofNat, BSIZE] at hroom ⊢
      omega
    · rw [hsum]
      simp only [BSIZE] at hroom ⊢
      omega
  · rw [Container.updatedsk, if_neg hstate, if_neg fun h => hroot h.2]
    exact ⟨by simp, .inl hroot⟩

end Container

/-- The container of the process current on CPU `k` has room for `n` more pages. -/
def FitsMem (k : Fin NCPU) (n : Nat) (s : State) : Prop := ∀ c, s.mycont k = some c → (s.cont c).RoomMem n
deriving Decidable

/-- The container of the process current on CPU `k` has room for `n` more blocks. -/
def FitsDsk (k : Fin NCPU) (n : Nat) (s : State) : Prop := ∀ c, s.mycont k = some c → (s.cont c).RoomDsk n
deriving Decidable

/-- What charges that fit leave: the view is the old one and `n` more pages fit. -/
structure Calm (k : Fin NCPU) (n : Nat) (s s' : State) : Prop where
  view : ∀ pend, s'.view pend = s.view pend
  fits : FitsMem k n s'

theorem Calm.refl (h : FitsMem k n s) : Calm k n s s := ⟨fun _ => rfl, h⟩

theorem Calm.trans (h : Calm k m s s') (h' : Calm k n s' s'') : Calm k n s s'' :=
  ⟨fun pend => (h'.view pend).trans (h.view pend), h'.fits⟩

theorem FitsMem.mono (hmn : m ≤ n) (h : FitsMem k n s) : FitsMem k m s := by
  intro c hc
  have hle : m * PGSIZE ≤ n * PGSIZE := Nat.mul_le_mul_right _ hmn
  exact (h c hc).imp_right fun h => h.imp_right fun h => by omega

theorem Calm.weaken (h : Calm k n s s') (hmn : m ≤ n) : Calm k m s s' := ⟨h.view, h.fits.mono hmn⟩

theorem kalloc_locked (h : s.kmem.locked = true) : kalloc k s = none := if_pos h

theorem kfree_locked (h : s.kmem.locked = true) : kfree k s = none := if_pos h

/-- **One page that fits**: nothing is torn down, and without a page the lock stays held. -/
theorem kalloc_calm (hf : FitsMem k (n + 1) s)
    (h : kalloc k s = some (s', b)) : Calm k n s s' ∧ (b = true ∨ s'.kmem.locked = true) := by
  have hlocked : ¬ s.kmem.locked = true := fun hl => by
    rw [kalloc_locked hl] at h
    cases h
  -- the page comes off the list, or the lock is kept
  have htake : decide (0 < s.kmem.free) = true ∨ (takePage s).kmem.locked = true := by
    by_cases hr : 0 < s.kmem.free
    · exact .inl (by simpa using hr)
    · exact .inr (by simp [takePage, hr])
  rw [kalloc, if_neg hlocked] at h
  cases hc : s.mycont k with
  | none =>
    rw [hc] at h
    cases h
    exact ⟨⟨fun _ => rfl, fun c hc' => nomatch hc.symm.trans hc'⟩, htake⟩
  | some c =>
    obtain ⟨hkept, hroom⟩ := (hf c hc).updatemem
    rw [hc] at h
    dsimp only [updatecontmem, liftCont] at h
    rw [if_neg (by exact hkept)] at h
    cases h
    refine ⟨⟨fun pend => ?_, fun d hd => ?_⟩, htake⟩
    · exact State.view_setCont_same pend (takePage s) (Container.updatemem_view _ _)
    · have hd' : some d = some c := hd.symm.trans hc
      cases hd'
      rw [State.setCont_cont, Function.update_self]
      exact hroom

theorem walkLevel_calm {l : Bool} (hf : FitsMem k (n + (!l).toNat) s)
    (h : walkLevel k l s = some (s', b)) : Calm k n s s' ∧ (b = true ∨ s'.kmem.locked = true) := by
  cases l with
  | true =>
    cases h
    exact ⟨.refl hf, .inl rfl⟩
  | false => exact kalloc_calm hf h

/-- A walk to the top of the address space whose pages fit: both levels are there afterwards, or the
lock is held and a level is missing. -/
theorem mapTop_calm {l1' l0' ok : Bool}
    (hf : FitsMem k (n + (!l0).toNat + (!l1).toNat) s)
    (h : mapTop k l1 l0 s = some (s', l1', l0', ok)) :
    ∃ m, n ≤ m ∧ Calm k m s s' ∧ ((l1' = true ∧ l0' = true) ∨ s'.kmem.locked = true ∧ (l1' && l0') = false) := by
  obtain ⟨⟨t, b⟩, ht, h⟩ := bind_eq_some_iff.mp h
  obtain ⟨hcalm, hb⟩ := walkLevel_calm hf ht
  cases b with
  | false =>
    cases h
    exact ⟨_, Nat.le_add_right _ _, hcalm, .inr ⟨hb.resolve_left (by simp), rfl⟩⟩
  | true =>
    obtain ⟨⟨u, b'⟩, hu, h⟩ := bind_eq_some_iff.mp h
    obtain ⟨hcalm', hb'⟩ := walkLevel_calm hcalm.fits hu
    cases h
    refine ⟨n, le_refl n, hcalm.trans hcalm', ?_⟩
    cases l0' with
    | false => exact .inr ⟨hb'.resolve_left (by simp), rfl⟩
    | true => exact .inl ⟨rfl, rfl⟩

/-- With the lock held, a walk that misses a level does not return. -/
theorem mapTop_locked (hl : s.kmem.locked = true) (h : (l1 && l0) = false) : mapTop k l1 l0 s = none := by
  cases l1 with
  | false => simp [mapTop, walkLevel, kalloc_locked hl]
  | true =>
    cases l0 with
    | false => simp [mapTop, walkLevel, kalloc_locked hl]
    | true => cases h

theorem procPagetable_calm (hf : FitsMem k (n + 3) s)
    (h : procPagetable k s = some (s', pt)) : Calm k n s s' := by
  obtain ⟨⟨t, b⟩, ht, h⟩ := bind_eq_some_iff.mp h
  obtain ⟨hroot, -⟩ := kalloc_calm hf ht
  dsimp only at h
  split at h
  · cases h
  obtain ⟨⟨u, l1, l0, ok⟩, hu, h⟩ := bind_eq_some_iff.mp h
  obtain ⟨⟨w, l1', l0', ok'⟩, hw, h⟩ := bind_eq_some_iff.mp h
  cases h
  have hfits : FitsMem k (n + (!false).toNat + (!false).toNat) t := hroot.fits
  obtain ⟨m, hm, htop, hl | ⟨hl, hmiss⟩⟩ := mapTop_calm hfits hu
  · obtain ⟨rfl, rfl⟩ := hl
    -- the trapframe's page lies under the tables the trampoline's page created
    simp only [mapTop, walkLevel] at hw
    cases hw
    exact (hroot.trans htop).weaken hm
  · rw [mapTop_locked hl hmiss] at hw
    cases hw

theorem kallocN_calm {cnt : Nat} {ok : Bool} (hf : FitsMem k (n + m) s)
    (h : kallocN k m s = some (s', cnt, ok)) :
    (ok = true ∧ Calm k n s s') ∨ ok = false ∧ s'.kmem.locked = true := by
  induction m generalizing s cnt ok with
  | zero =>
    cases h
    exact .inl ⟨rfl, .refl hf⟩
  | succ m ih =>
    obtain ⟨⟨t, b⟩, ht, h⟩ := bind_eq_some_iff.mp h
    rw [← Nat.add_assoc] at hf
    obtain ⟨hcalm, hb⟩ := kalloc_calm hf ht
    cases b with
    | false =>
      cases h
      exact .inr ⟨rfl, hb.resolve_left (by simp)⟩
    | true =>
      obtain ⟨⟨u, cnt', ok'⟩, hu, h⟩ := bind_eq_some_iff.mp h
      cases h
      rcases ih hcalm.fits hu with ⟨rfl, hcalm'⟩ | hl
      · exact .inl ⟨rfl, hcalm.trans hcalm'⟩
      · exact .inr hl

theorem uvmcopyErr_locked (hl : s.kmem.locked = true) : uvmcopyErr k i s = none := by
  cases i with
  | zero => rfl
  | succ i => simp [uvmcopyErr, kfreeN, kfree_locked hl]

/-- The pages `uvmcopy` asks for when it copies `rem` pages from page `i` on. -/
def copyPages : Nat → Nat → Nat
  | 0, _ => 0
  | rem + 1, i => copyPages rem (i + 1) + tablesFor i + 1

/-- **A copy that fits** returns only when it is complete, and tears nothing down. -/
theorem uvmcopyFrom_calm {rem pt pages : Nat} {ok : Bool}
    (hf : FitsMem k (n + copyPages rem i) s)
    (h : uvmcopyFrom k rem i pt s = some (s', pages, ok)) : ok = true ∧ Calm k n s s' := by
  induction rem generalizing s i pt with
  | zero =>
    cases h
    exact ⟨rfl, .refl hf⟩
  | succ rem ih =>
    obtain ⟨⟨t, b⟩, ht, h⟩ := bind_eq_some_iff.mp h
    rw [copyPages, ← Nat.add_assoc, ← Nat.add_assoc] at hf
    obtain ⟨hcalm, hb⟩ := kalloc_calm hf ht
    cases b with
    | false =>
      obtain ⟨x, hx, -⟩ := bind_eq_some_iff.mp h
      rw [uvmcopyErr_locked (hb.resolve_left (by simp))] at hx
      cases hx
    | true =>
      obtain ⟨⟨u, m, b'⟩, hu, h⟩ := bind_eq_some_iff.mp h
      rcases kallocN_calm hcalm.fits hu with ⟨rfl, hcalm'⟩ | ⟨rfl, hl⟩
      · obtain ⟨rfl, hrest⟩ := ih hcalm'.fits h
        exact ⟨rfl, (hcalm.trans hcalm').trans hrest⟩
      · -- the error exit would have to take the lock
        obtain ⟨x, hx, -⟩ := bind_eq_some_iff.mp h
        rw [kfree_locked hl] at hx
        cases hx

/-- The pages a complete `fork` of a process of size `sz` asks for: the trapframe, the three tables of
`proc_pagetable`, and the copy. -/
def forkPages (sz : Nat) : Nat := copyPages (npages sz) 0 + 3 + 1

theorem ballocCharge_calm (hf : FitsDsk k (n + 1) s) :
    (∀ pend, (ballocCharge k s).view pend = s.view pend) ∧ FitsDsk k n (ballocCharge k s) := by
  cases hc : s.mycont k with
  | none =>
    have hsame : ballocCharge k s = s := by simp [ballocCharge, hc, updatecontdsk, liftCont]
    rw [hsame]
    exact ⟨fun _ => rfl, fun c hc' => nomatch hc.symm.trans hc'⟩
  | some c =>
    obtain ⟨hkept, hroom⟩ := (hf c hc).updatedsk
    have hset : ballocCharge k s = s.setCont c ((s.cont c).updatedsk (BitVec.ofNat 64 BSIZE)).1 := by
      simp only [ballocCharge, hc, updatecontdsk, liftCont, if_neg hkept]
    rw [hset]
    refine ⟨fun pend => State.view_setCont_same pend s (Container.updatedsk_view _ _), fun d hd => ?_⟩
    have hd' : some d = some c := hd.symm.trans hc
    cases hd'
    rw [State.setCont_cont, Function.update_self]
    exact hroom

theorem ballocN_calm (hf : FitsDsk k n s) (pend : Option Slot) : (ballocN k n s).view pend = s.view pend := by
  induction n generalizing s with
  | zero => rfl
  | succ n ih =>
    obtain ⟨hview, hfits⟩ := ballocCharge_calm hf
    exact (ih hfits).trans (hview pend)

end Xv6.Kernel
