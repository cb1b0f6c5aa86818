/-
# Xv6.Kernel.Writes — what a step writes into the two tables.

A view (`Xv6.Kernel.Groups`) leaves out the numbers of the tables: pids, and the memory and disk
space charged to a container.  `Writes D E s s'` says once what any function of the machine does to them.
A process gets another pid or container only when its slot is claimed or freed; a container that is
within its two limits stays within them.

A slot is idle when it is `UNUSED` or `ZOMBIE`.  Slots fall idle in `exit` and in `freeproc`, and a
working directory changes in `exit` and at the end of `fork`: only the slots in `D` may get another
working directory and only those in `E` fall idle (`Quiet D E`).
-/
import Xv6.Kernel.LifeCycle
import Mathlib.Data.Set.Insert

namespace Xv6.Kernel

open Option (bind_eq_some_iff map_eq_some_iff)
open Function
open Lib (update_cases)

variable {D D' E E' : Set Slot} {f g h : Slot → Proc} {k : Fin NCPU} {s s' t u : State} {p : Slot}
  {c : Cid} {x y : Container} {name : CStr} {r : Int}

/-! ## One container -/

theorem Container.Within.updateproc {c : Container} (d : Int) (h : c.Within) : (c.updateproc d).1.Within := by
  unfold Container.updateproc
  split
  · exact h
  · split <;> exact h

theorem Container.created_within (name : CStr) (c : Container) : (c.created name).Within :=
  fun _ => ⟨BitVec.le_def.mpr (Nat.zero_le _), BitVec.le_def.mpr (Nat.zero_le _)⟩

/-- The unsigned difference lets only the old limit through. -/
theorem Container.Within.withMaxSz {n : BitVec 32} (h : y.Within)
    (hx : y.withMaxSz n = some x) : x.Within := by
  unfold Container.withMaxSz at hx
  split at hx
  · cases hx
  · rename_i hmax
    cases hx
    rw [eq_of_not_exceedsMax hmax]
    exact h

theorem Container.Within.withMaxDsk {n : BitVec 32} (h : y.Within)
    (hx : y.withMaxDsk n = some x) : x.Within := by
  unfold Container.withMaxDsk at hx
  split at hx
  · cases hx
  · rename_i hmax
    cases hx
    rw [eq_of_not_exceedsMax hmax]
    exact h

theorem Container.Within.withMaxProc {n : Int} (h : y.Within)
    (hx : y.withMaxProc n = some x) : x.Within := by
  unfold Container.withMaxProc at hx
  split at hx
  · cases hx
  · cases hx
    exact h

/-! ## One process -/

def ProcState.Idle (x : ProcState) : Prop := x = .unused ∨ x = .zombie
deriving Decidable

structure Proc.SameIds (x y : Proc) : Prop where
  pid : y.pid = x.pid
  localPid : y.localPid = x.localPid
  cont : y.cont = x.cont

theorem Proc.SameIds.refl (x : Proc) : x.SameIds x := ⟨rfl, rfl, rfl⟩

/-- It also keeps its working directory, and does not fall idle. -/
structure Proc.Calm (x y : Proc) : Prop extends x.SameIds y where
  cwd : y.cwd = x.cwd
  idle : y.state.Idle → x.state.Idle

namespace Proc.Calm

variable {x y : Proc}

theorem refl (x : Proc) : x.Calm x := ⟨.refl x, rfl, id⟩

theorem busy (hids : x.SameIds y := by exact ⟨rfl, rfl, rfl⟩) (hcwd : y.cwd = x.cwd := by rfl)
    (hu : y.state ≠ .unused := by simp) (hz : y.state ≠ .zombie := by simp) : x.Calm y :=
  ⟨hids, hcwd, fun hy => absurd hy (not_or.mpr ⟨hu, hz⟩)⟩

theorem kill (x : Proc) : x.Calm x.kill := by
  refine ⟨⟨rfl, rfl, rfl⟩, rfl, fun h => ?_⟩
  unfold Proc.kill at h
  dsimp only at h
  split at h
  · rcases h with h | h <;> cases h
  · exact h

end Proc.Calm

/-! ## Quiet tables -/

/-- Working directories change in `D` only, and slots fall idle in `E` only. -/
structure Quiet (D E : Set Slot) (f g : Slot → Proc) : Prop where
  cwd : ∀ p, p ∉ D → (g p).cwd = (f p).cwd
  idle : ∀ p, (g p).state.Idle → (f p).state.Idle ∨ p ∈ E

namespace Quiet

theorem refl (f : Slot → Proc) : Quiet D E f f := ⟨fun _ _ => rfl, fun _ hp => .inl hp⟩

theorem trans (hfg : Quiet D E f g) (hgh : Quiet D E g h) : Quiet D E f h where
  cwd p hp := (hgh.cwd p hp).trans (hfg.cwd p hp)
  idle p hp := (hgh.idle p hp).elim (hfg.idle p) .inr

theorem mono (hfg : Quiet D E f g) (hD : D ⊆ D') (hE : E ⊆ E') : Quiet D' E' f g where
  cwd p hp := hfg.cwd p fun hd => hp (hD hd)
  idle p hp := (hfg.idle p hp).imp_right fun he => hE he

theorem absorb (hfg : Quiet D E f g) (hE : ∀ p ∈ E, (f p).state.Idle) : Quiet D ∅ f g where
  cwd := hfg.cwd
  idle p hp := (hfg.idle p hp).elim .inl fun he => .inl (hE p he)

theorem calm (hfg : ∀ p, (f p).Calm (g p)) : Quiet D E f g where
  cwd p _ := (hfg p).cwd
  idle p hp := .inl ((hfg p).idle hp)

theorem update {x : Proc} (hcwd : p ∈ D ∨ x.cwd = (f p).cwd)
    (hidle : x.state.Idle → (f p).state.Idle ∨ p ∈ E) : Quiet D E f (Function.update f p x) where
  cwd := update_cases hcwd.resolve_left fun _ _ _ => rfl
  idle := update_cases hidle fun _ _ => .inl

end Quiet

/-! ## The relation -/

inductive Writes (D E : Set Slot) : State → State → Prop
  | refl (s : State) : Writes D E s s
  | trans {s t u : State} : Writes D E s t → Writes D E t u → Writes D E s u
  | procs {s : State} {f : Slot → Proc} (h : ∀ p, (s.proc p).SameIds (f p))
      (hq : Quiet D E s.proc f) : Writes D E s { s with proc := f }
  | conts {s : State} {g : Cid → Container} (h : ∀ c, (s.cont c).Within → (g c).Within) :
      Writes D E s { s with cont := g }
  /-- The CPUs, the clock and the free list. -/
  | rest {s : State} (cpus : Fin NCPU → Cpu) (ticks : BitVec 32) (kmem : Kmem) :
      Writes D E s { s with cpus := cpus, ticks := ticks, kmem := kmem }
  | charged {s s' : State} {k : Fin NCPU} : Charged k s s' → Writes D E s s'
  | claim {s : State} (np : Slot) (c : Cid) : Writes D E s (claimSlot np c s)
  | free {s : State} {p : Slot} (hp : p ∈ E) : Writes D E s (s.setProc p (s.proc p).freed)

namespace Writes

variable {x : Proc}

theorem mono (h : Writes D E s t) (hD : D ⊆ D') (hE : E ⊆ E') : Writes D' E' s t := by
  induction h with
  | refl => exact .refl _
  | trans _ _ ih ih' => exact ih.trans ih'
  | procs h hq => exact .procs h (hq.mono hD hE)
  | conts h => exact .conts h
  | rest cpus ticks kmem => exact .rest cpus ticks kmem
  | charged h => exact .charged h
  | claim np c => exact .claim np c
  | free hp => exact .free (hE hp)

theorem any (h : Writes D E s t) : Writes Set.univ Set.univ s t := h.mono (Set.subset_univ D) (Set.subset_univ E)

theorem quiet (h : Writes D E s t) : Quiet D E s.proc t.proc := by
  induction h with
  | refl | conts | rest => exact .refl _
  | trans _ _ ih ih' => exact ih.trans ih'
  | procs _ hq => exact hq
  | charged h =>
    refine .calm fun p => ?_
    rcases h.proc p with hp | ⟨-, hp⟩
    · rw [hp]
      exact .refl _
    · rw [hp]
      exact .kill _
  | claim np c =>
    unfold claimSlot
    dsimp only
    split
    · exact .update (.inr rfl) fun hx => .inl hx
    · exact .update (.inr rfl) fun hx => .inl hx
  | free hp => exact .update (.inr rfl) fun _ => .inr hp

theorem table {f : Slot → Proc} (h : ∀ p, (s.proc p).Calm (f p)) :
    Writes D E s { s with proc := f } := .procs (fun p => (h p).toSameIds) (.calm h)

theorem update (h : (s.proc p).SameIds x) (hcwd : p ∈ D ∨ x.cwd = (s.proc p).cwd)
    (hidle : x.state.Idle → (s.proc p).state.Idle ∨ p ∈ E) : Writes D E s (s.setProc p x) := by
  refine .procs (fun q => ?_) (.update hcwd hidle)
  exact Lib.update_cases h (fun q _ => .refl (s.proc q)) q

theorem setProc (h : (s.proc p).Calm x) : Writes D E s (s.setProc p x) :=
  .update h.toSameIds (.inr h.cwd) fun hx => .inl (h.idle hx)

theorem setCont {x : Container} (h : (s.cont c).Within → x.Within) : Writes D E s (s.setCont c x) := by
  refine .conts fun d => ?_
  exact Lib.update_cases h (fun _ _ => id) d

theorem setCpu (x : Cpu) : Writes D E s (s.setCpu k x) := .rest _ s.ticks s.kmem

/-! A write at the end of a sequence. -/

theorem thenProc (h : Writes D E s t) (hx : (t.proc p).Calm x) : Writes D E s (t.setProc p x) := h.trans (.setProc hx)

theorem thenCont {x : Container} (h : Writes D E s t) (hx : (t.cont c).Within → x.Within) :
    Writes D E s (t.setCont c x) := h.trans (.setCont hx)

theorem thenCpu {x : Cpu} (h : Writes D E s t) : Writes D E s (t.setCpu k x) := h.trans (.setCpu x)

theorem thenCharged (h : Writes D E s t) (hc : Charged k t u) : Writes D E s u := h.trans (.charged hc)

theorem lift {f : Container → Container × Int} (hf : ∀ c : Container, c.Within → (f c).1.Within)
    (c : Option Cid) (s : State) : Writes D E s (liftCont f c s).1 := by
  cases c with
  | none => exact .refl s
  | some c => exact .setCont (hf _)

end Writes

/-! ## The functions of the source -/

theorem updatecontmem_writes (d : BitVec 64) (c : Option Cid) (s : State) :
    Writes D E s (updatecontmem d c s).1 := .lift (fun _ hc => hc.updatemem d) c s

theorem updatecontdsk_writes (d : BitVec 64) (c : Option Cid) (s : State) :
    Writes D E s (updatecontdsk d c s).1 := .lift (fun _ hc => hc.updatedsk d) c s

theorem updatecontproc_writes (d : Int) (c : Option Cid) (s : State) :
    Writes D E s (updatecontproc d c s).1 := .lift (fun _ hc => hc.updateproc d) c s

theorem freecontainer_writes (c : Cid) (s : State) : Writes D E s (freecontainer c s) :=
  .setCont fun _ => Container.freed_within _

theorem setState_writes (c : Cid) (st : ContState) (s : State) :
    Writes D E s (s.setCont c { s.cont c with state := st }) := .setCont id

theorem stopprocforcontainer_writes (c : Cid) (s : State) : Writes D E s (stopprocforcontainer c s) := by
  refine .table fun p => ?_
  split
  · exact .kill _
  · exact .refl _

theorem pauseprocforcontainer_writes (c : Cid) (s : State) : Writes D E s (pauseprocforcontainer c s) := by
  refine .table fun p => ?_
  split
  · exact .busy
  · exact .refl _

theorem resumeprocforcontainer_writes (c : Cid) (s : State) : Writes D E s (resumeprocforcontainer c s) := by
  refine .table fun p => ?_
  split
  · exact .busy
  · exact .refl _

theorem climitexceedhandler_writes (c : Cid) (s : State) : Writes D E s (climitexceedhandler c s) := by
  unfold climitexceedhandler
  split
  · exact .refl s
  · split
    · exact .refl s
    · exact (setState_writes c _ s).trans ((stopprocforcontainer_writes c _).trans
        (freecontainer_writes c _))

theorem resetticks_writes (s : State) : Writes D E s (resetticksforcontainers s) := .conts fun _ h => h

theorem kccreate_writes (name : CStr) (dir : Option Ino) (s : State) : Writes D E s (kccreate name dir s).1 := by
  unfold kccreate
  split
  · exact .refl s
  unfold alloccont
  cases freeCid s with
  | none => exact .refl s
  | some c =>
    have hfill : Writes D E s ((s.setCont c { s.cont c with state := .crunnable }).setCont c
        (((s.setCont c { s.cont c with state := .crunnable }).cont c).created name)) :=
      (setState_writes c _ s).trans (.setCont fun _ => Container.created_within name _)
    simp only [Option.map_some, setcontrootdir]
    split
    · exact hfill
    · split
      · exact hfill.trans ((setState_writes _ _ _).trans (freecontainer_writes _ _))
      · exact hfill.trans (.setCont id)

theorem kcstart_writes (name vcname : CStr) (n : BitVec 64) (s : State) : Writes D E s (kcstart name vcname n s).1 := by
  unfold kcstart
  split
  · exact .refl s
  split
  · exact .refl s
  split
  · exact .refl s
  · refine .trans ?_ (resetticks_writes _)
    refine .thenCont ?_ id
    exact (updatecontdsk_writes _ _ s).trans ((updatecontmem_writes _ _ _).trans
      (updatecontmem_writes _ _ _))

theorem kcpause_writes (name : CStr) (s : State) : Writes D E s (kcpause name s).1 := by
  unfold kcpause
  split
  · exact .refl s
  split
  · exact .refl s
  · split
    · exact .refl s
    · exact (setState_writes _ _ s).trans (pauseprocforcontainer_writes _ _)

theorem kcresume_writes (name : CStr) (s : State) : Writes D E s (kcresume name s).1 := by
  unfold kcresume
  split
  · exact .refl s
  split
  · exact .refl s
  · split
    · exact .refl s
    · exact (setState_writes _ _ s).trans ((resumeprocforcontainer_writes _ _).trans
        (resetticks_writes _))

theorem freeproc_writes (hp : p ∈ E) (h : freeproc k p s = some s') : Writes D E s s' := by
  obtain ⟨t, ht, h⟩ := bind_eq_some_iff.mp h
  obtain ⟨u, hu, h⟩ := bind_eq_some_iff.mp h
  cases h
  have hst : Writes D E s t := by
    unfold freeTrapframe at ht
    split at ht
    · exact .charged (kfree_charged ht)
    · cases ht
      exact .refl s
  have htu : Writes D E t u := by
    unfold freePagetable at hu
    split at hu
    · cases hu
      exact .refl t
    · exact .charged (procFreepagetable_charged hu)
  exact hst.trans (htu.trans ((updatecontproc_writes _ _ u).trans (.free hp)))

theorem setProc_kill_writes (p : Slot) (s : State) : Writes D E s (s.setProc p (s.proc p).kill) := .setProc (.kill _)

theorem killIn_foldlM_writes {l : List Slot} (h : l.foldlM (killIn k c) s = some s') : Writes D Set.univ s s' := by
  induction l generalizing s with
  | nil =>
    cases h
    exact .refl _
  | cons p l ih =>
    rw [List.foldlM_cons] at h
    obtain ⟨t, ht, h⟩ := bind_eq_some_iff.mp h
    refine .trans ?_ (ih h)
    unfold killIn at ht
    split at ht
    · exact (setProc_kill_writes p s).trans (freeproc_writes (Set.mem_univ p) ht)
    · cases ht
      exact .refl s

theorem kcstop_writes (h : kcstop k name s = some (s', r)) : Writes D Set.univ s s' := by
  unfold kcstop at h
  split at h
  · cases h
    exact .refl s
  split at h
  · cases h
    exact .refl s
  split at h
  · cases h
    exact .refl s
  · obtain ⟨t, ht, h⟩ := bind_eq_some_iff.mp h
    cases h
    exact (killIn_foldlM_writes ht).trans ((setState_writes _ _ t).trans
      ((freecontainer_writes _ _).trans (resetticks_writes _)))

theorem allocproc_writes {np : Slot} {ok : Bool} (h : allocproc k np c s = some (s', ok)) : Writes D E s s' := by
  obtain ⟨t, page, ht, hend⟩ := allocproc_cases h
  have hst : Writes D E s t := .thenCharged (.claim np c) (kalloc_charged ht)
  rcases hend with ⟨-, -, rfl⟩ | ⟨-, -, u, pt, hu, rfl⟩
  · exact hst.thenProc ⟨⟨rfl, rfl, rfl⟩, rfl, id⟩
  · have htf : Writes D E s (t.setProc np { t.proc np with tf := true }) := hst.thenProc ⟨⟨rfl, rfl, rfl⟩, rfl, id⟩
    exact (htf.thenCharged (procPagetable_charged hu)).thenProc ⟨⟨rfl, rfl, rfl⟩, rfl, id⟩

theorem countChild_writes (np : Slot) (s : State) : Writes D E s (countChild np s) := by
  unfold countChild
  dsimp only
  split
  · split
    · exact updatecontproc_writes _ _ s
    · exact (updatecontproc_writes _ _ s).trans (climitexceedhandler_writes _ _)
  · exact updatecontproc_writes _ _ s

theorem fork_writes {o : Option Cid} (h : fork k o s = some (s', r)) :
    Writes ∅ { p | (s.proc p).state = .unused } s s' ∨
      ∃ np, freeSlot s = some np ∧ ¬ (s'.proc np).state.Idle ∧ Writes {np} ∅ s s' := by
  rcases fork_cases h with rfl | ⟨p, np, d, t, ok, -, hnp, -, ht, hend⟩
  · exact .inl (.refl _)
  rcases hend with ⟨-, rfl⟩ | ⟨-, pt, u, pages, copied, hu, hend⟩
  · exact .inl (allocproc_writes ht)
  have hsu : ∀ {D E}, Writes D E s u := (allocproc_writes ht).thenCharged (uvmcopy_charged hu)
  rcases hend with ⟨-, hfree⟩ | ⟨-, parent, cwd, rfl⟩
  · exact .inl (hsu.trans (freeproc_writes (freeSlot_unused hnp) hfree))
  have hbusy : ¬ ((forkChild p np parent cwd pages u).proc np).state.Idle := by
    simp [forkChild, ProcState.Idle]
  have hcount : Writes {np} ∅ (forkChild p np parent cwd pages u) (countChild np _) := countChild_writes np _
  refine .inr ⟨np, hnp, fun hidle => ?_, hsu.trans (.trans ?_ hcount)⟩
  · exact (hcount.quiet.idle np hidle).elim hbusy (Set.notMem_empty np)
  · exact .update ⟨rfl, rfl, rfl⟩ (.inl rfl) fun hx => absurd hx (by simp [ProcState.Idle])

theorem swtchOut_writes (k : Fin NCPU) (s : State) : Writes D E s (swtchOut k s) := by
  unfold swtchOut
  split
  · refine .thenCpu ?_
    refine .thenCont ?_ id
    exact .setProc ⟨⟨rfl, rfl, rfl⟩, rfl, id⟩
  · exact .refl s

theorem wakeup1_writes (q : Slot) (s : State) : Writes D E s (wakeup1 q s) := by
  unfold wakeup1
  split
  · exact .setProc .busy
  · exact .refl s

theorem reparent_writes (p : Slot) (s : State) : Writes D E s (reparent p s) := by
  refine .table fun q => ?_
  split
  · exact ⟨⟨rfl, rfl, rfl⟩, rfl, id⟩
  · exact .refl _

/-- `exit` drops the working directory first; nothing after that touches one. -/
theorem exit_writes {status : Int} (hp : s.myproc k = some p) (h : exit k status s = some s') :
    Writes ∅ {p} (s.setProc p { s.proc p with cwd := none }) s' := by
  obtain ⟨q, hq, h⟩ := bind_eq_some_iff.mp h
  cases hp.symm.trans hq
  dsimp only at h
  split at h
  · cases h
  obtain ⟨parent, -, h⟩ := bind_eq_some_iff.mp h
  cases h
  refine .trans ?_ (swtchOut_writes k _)
  refine .trans ?_ (.update ⟨rfl, rfl, rfl⟩ (.inr rfl) fun _ => .inr rfl)
  exact (wakeup1_writes _ _).trans ((reparent_writes p _).trans (wakeup1_writes parent _))

theorem exit_any {status : Int} (h : exit k status s = some s') : Writes Set.univ Set.univ s s' := by
  obtain ⟨p, hp, -⟩ := bind_eq_some_iff.mp h
  refine .trans ?_ (exit_writes hp h).any
  exact .update ⟨rfl, rfl, rfl⟩ (.inl trivial) fun hx => .inl hx

theorem sleepOn_writes {chan : Chan} (h : sleepOn k chan s = some s') : Writes D E s s' := by
  obtain ⟨p, -, h⟩ := bind_eq_some_iff.mp h
  cases h
  refine .trans ?_ (swtchOut_writes k _)
  exact .setProc .busy

theorem yieldCpu_writes (h : yieldCpu k s = some s') : Writes D E s s' := by
  obtain ⟨p, -, h⟩ := bind_eq_some_iff.mp h
  cases h
  refine .trans ?_ (swtchOut_writes k _)
  exact .setProc .busy

theorem wait_writes {b : Bool} {r : Option Int} (h : wait k b s = some (s', r)) :
    Writes D { p | (s.proc p).state = .zombie } s s' := by
  obtain ⟨p, -, h⟩ := bind_eq_some_iff.mp h
  dsimp only at h
  split at h
  · rename_i np hnp
    split at h
    · cases h
      exact .refl s
    obtain ⟨t, ht, h⟩ := bind_eq_some_iff.mp h
    cases h
    have hzombie := (Fin.find?_eq_some_iff.mp hnp).1
    simp only [Bool.and_eq_true, beq_iff_eq] at hzombie
    exact freeproc_writes hzombie.2 ht
  · split at h
    · cases h
      exact .refl s
    · obtain ⟨t, ht, h⟩ := bind_eq_some_iff.mp h
      cases h
      exact sleepOn_writes ht

theorem kill_writes {pid : Int} (h : kill k pid s = some (s', r)) : Writes D E s s' := by
  obtain ⟨c, -, h⟩ := bind_eq_some_iff.mp h
  split at h
  · have hs : (containerkillwithpid c pid s).1 = s' := congrArg Prod.fst (Option.some.inj h)
    rw [← hs]
    unfold containerkillwithpid
    split
    · exact .refl s
    · exact setProc_kill_writes _ s
  split at h
  · cases h
    exact .refl s
  obtain ⟨d, -, h⟩ := bind_eq_some_iff.mp h
  split at h
  · cases h
    exact .refl s
  · cases h
    exact setProc_kill_writes _ s

theorem ksuspend_writes {pid : Int} {n : Nat} (h : ksuspend k pid n s = some (s', r)) : Writes D E s s' := by
  rcases ksuspend_cases h with ⟨-, rfl⟩ | ⟨q, -, rfl⟩
  · exact .refl _
  · refine .thenCharged ?_ ballocN_charged
    exact .setProc .busy

theorem setmax_cases {f : Container → Option Container} {r : Option Int}
    (hf : ∀ {x y : Container}, y.Within → f y = some x → x.Within)
    (h : setmax k name f s = some (s', r)) :
    ((name2cont name s).any (fun c => (s.cont c).isroot != 0) = true ∧ ∃ status, exit k status s = some s') ∨
      (name2cont name s).any (fun c => (s.cont c).isroot != 0) = false ∧ Writes D E s s' := by
  unfold setmax at h
  split at h
  · rename_i hc
    cases h
    exact .inr ⟨by simp [hc], .refl s⟩
  rename_i c hc
  split at h
  · rename_i hroot
    obtain ⟨t, ht, h⟩ := map_eq_some_iff.mp h
    cases h
    exact .inl ⟨by simpa [hc] using hroot, _, ht⟩
  rename_i hroot
  refine .inr ⟨by simpa [hc] using hroot, ?_⟩
  split at h
  · cases h
    exact .refl s
  · rename_i x hx
    cases h
    exact .setCont fun hc => hf hc hx

theorem setmax_any {f : Container → Option Container} {r : Option Int}
    (hf : ∀ {x y : Container}, y.Within → f y = some x → x.Within)
    (h : setmax k name f s = some (s', r)) : Writes Set.univ Set.univ s s' := by
  rcases setmax_cases hf h with ⟨-, _, hexit⟩ | ⟨-, hw⟩
  · exact exit_any hexit
  · exact hw

theorem getnextproc_writes {fuel : Nat} (h : getnextproc fuel c s = some s') : Writes D E s s' := by
  obtain ⟨p, -, rfl⟩ := map_eq_some_iff.mp h
  exact .setCont id

theorem sched_writes (h : sched k s = some s') : Writes D E s s' := by
  have hnext : ∀ {c : Cid}, (getnextproc NPROC c s).map (nextIter k) = some s' → Writes D E s s' := by
    intro c hc
    obtain ⟨t, ht, rfl⟩ := map_eq_some_iff.mp hc
    exact (getnextproc_writes ht).trans (.setCpu _)
  unfold sched at h
  split at h
  · split at h
    · cases h
      exact .setCpu _
    split at h
    · cases h
      exact .setCpu _
    split at h
    · exact hnext h
    unfold switchTo at h
    split at h
    · cases h
      refine .thenCpu ?_
      exact .setProc .busy
    · exact hnext h
  · exact hnext h
  · cases h

theorem wakeup_writes (chan : Chan) (s : State) : Writes D E s (wakeup chan s) := by
  refine .table fun p => ?_
  split
  · exact .busy
  · exact .refl _

/-! ## Steps -/

def Call.exits (s : State) (p : Slot) (x : Call) : Bool :=
  (s.proc p).killed ||
    match x with
    | .exit _ => true
    | .setmaxcmem name _ | .setmaxcdsk name _ | .setmaxcproc name _ =>
        (name2cont name s).any fun c => (s.cont c).isroot != 0
    | _ => false

/-- **What a call does**: it ends its caller, forks, stops a container, or frees a zombie at most. -/
inductive CallDoes (k : Fin NCPU) (s : State) (x : Call) (s' : State) : Prop
  | exits (status : Int) (hx : ∀ p, x.exits s p = true) (h : exit k status s = some s')
  | forks (o : Option Cid) (r : Int) (hx : ∀ p, x.exits s p = (s.proc p).killed)
      (hfork : x = .fork ∨ ∃ name, x = .cfork name) (h : fork k o s = some (s', r))
  | stops (name : CStr) (r : Int) (hx : ∀ p, x.exits s p = (s.proc p).killed)
      (hstop : x = .cstop name) (h : kcstop k name s = some (s', r))
  | writes (hx : ∀ p, x.exits s p = (s.proc p).killed)
      (h : Writes ∅ { p | (s.proc p).state = .zombie } s s')

theorem CallDoes.limit {x : Call} {root : Bool}
    (hx : ∀ p, x.exits s p = ((s.proc p).killed || root))
    (h : (root = true ∧ ∃ status, exit k status s = some s') ∨
      root = false ∧ Writes ∅ { p | (s.proc p).state = .zombie } s s') : CallDoes k s x s' := by
  rcases h with ⟨rfl, status, h⟩ | ⟨rfl, h⟩
  · exact .exits status (fun p => (hx p).trans (Bool.or_true _)) h
  · exact .writes (fun p => (hx p).trans (Bool.or_false _)) h

theorem syscall_does {x : Call} (h : syscall k x s = some s') : CallDoes k s x s' := by
  cases x with
  | fork =>
    obtain ⟨⟨t, r⟩, ht, rfl⟩ := map_eq_some_iff.mp h
    exact .forks _ r (fun _ => Bool.or_false _) (.inl rfl) ht
  | cfork name =>
    obtain ⟨⟨t, r⟩, ht, rfl⟩ := map_eq_some_iff.mp h
    unfold kcfork at ht
    split at ht
    · cases ht
      exact .writes (fun _ => Bool.or_false _) (.refl _)
    · exact .forks _ r (fun _ => Bool.or_false _) (.inr ⟨name, rfl⟩) ht
  | exit status => exact .exits status (fun _ => Bool.or_true _) h
  | wait b =>
    obtain ⟨⟨t, r⟩, ht, rfl⟩ := map_eq_some_iff.mp h
    exact .writes (fun _ => Bool.or_false _) (wait_writes ht)
  | kill pid =>
    obtain ⟨⟨t, r⟩, ht, rfl⟩ := map_eq_some_iff.mp h
    exact .writes (fun _ => Bool.or_false _) (kill_writes ht)
  | suspend pid n =>
    obtain ⟨⟨t, r⟩, ht, rfl⟩ := map_eq_some_iff.mp h
    exact .writes (fun _ => Bool.or_false _) (ksuspend_writes ht)
  | ccreate name dir =>
    cases h
    exact .writes (fun _ => Bool.or_false _) (kccreate_writes name dir s)
  | cstart name vcname n =>
    cases h
    exact .writes (fun _ => Bool.or_false _) (kcstart_writes name vcname _ s)
  | cpause name =>
    cases h
    exact .writes (fun _ => Bool.or_false _) (kcpause_writes name s)
  | cresume name =>
    cases h
    exact .writes (fun _ => Bool.or_false _) (kcresume_writes name s)
  | cstop name =>
    obtain ⟨⟨t, r⟩, ht, rfl⟩ := map_eq_some_iff.mp h
    exact .stops name r (fun _ => Bool.or_false _) rfl ht
  | setmaxcmem name n =>
    obtain ⟨⟨t, r⟩, ht, rfl⟩ := map_eq_some_iff.mp h
    exact .limit (fun _ => rfl) (setmax_cases Container.Within.withMaxSz ht)
  | setmaxcdsk name n =>
    obtain ⟨⟨t, r⟩, ht, rfl⟩ := map_eq_some_iff.mp h
    exact .limit (fun _ => rfl) (setmax_cases Container.Within.withMaxDsk ht)
  | setmaxcproc name n =>
    obtain ⟨⟨t, r⟩, ht, rfl⟩ := map_eq_some_iff.mp h
    exact .limit (fun _ => rfl) (setmax_cases Container.Within.withMaxProc ht)

theorem syscall_any {x : Call} (h : syscall k x s = some s') : Writes Set.univ Set.univ s s' := by
  cases syscall_does h with
  | exits _ _ h => exact exit_any h
  | forks _ _ _ _ h =>
    rcases fork_writes h with hw | ⟨_, -, -, hw⟩
    · exact hw.any
    · exact hw.any
  | stops _ _ _ _ h => exact kcstop_writes h
  | writes _ h => exact h.any

theorem step_calm {e : Event} (he : ∀ k x, e ≠ .call k x) (h : step s e = some s') : Writes D E s s' := by
  cases e with
  | sched k => exact sched_writes h
  | call k x => exact absurd rfl (he k x)
  | yield k =>
    obtain ⟨_, -, h⟩ := bind_eq_some_iff.mp h
    exact yieldCpu_writes h
  | sleep k chan => exact sleepOn_writes h
  | wakeup chan =>
    cases h
    exact wakeup_writes chan s
  | clockintr =>
    cases h
    exact .trans (.rest s.cpus (s.ticks + 1) s.kmem) (wakeup_writes _ _)
  | kalloc k =>
    obtain ⟨_, -, h⟩ := bind_eq_some_iff.mp h
    obtain ⟨⟨t, b⟩, ht, rfl⟩ := map_eq_some_iff.mp h
    exact .charged (kalloc_charged ht)
  | kfree k =>
    obtain ⟨_, -, h⟩ := bind_eq_some_iff.mp h
    exact .charged (kfree_charged h)
  | balloc k =>
    obtain ⟨_, -, rfl⟩ := map_eq_some_iff.mp h
    exact .charged ballocCharge_charged
  | bfree k =>
    obtain ⟨_, -, rfl⟩ := map_eq_some_iff.mp h
    exact .charged bfreeCharge_charged
  | image k sz pages name =>
    obtain ⟨_, -, rfl⟩ := map_eq_some_iff.mp h
    exact .setProc ⟨⟨rfl, rfl, rfl⟩, rfl, id⟩

theorem step_writes {e : Event} (h : step s e = some s') : Writes Set.univ Set.univ s s' := by
  by_cases he : ∀ k x, e ≠ .call k x
  · exact step_calm he h
  simp only [ne_eq, not_forall, not_not] at he
  obtain ⟨k, x, rfl⟩ := he
  obtain ⟨p, -, h⟩ := bind_eq_some_iff.mp h
  split at h
  · exact exit_any h
  · exact syscall_any h

end Xv6.Kernel
