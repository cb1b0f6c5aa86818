/-
# Xv6.Kernel.Dispatch — whom the scheduler switches to.

`nextproctorun` is a cached pointer into `proc[]`, and so is the `struct proc *` a CPU is running.
Neither is cleared when `wait` or `kcstop` frees the slot, and `allocproc` hands the slot out again
without looking; nor does the scheduler look again at what it has seen before it holds `p->lock`.  A
container is served by its own processes as long as no `fork` recycles a slot that some other container
still has cached, or that some CPU still runs, and nothing comes between the sections of a visit.
-/
import Xv6.Kernel.Binding

namespace Xv6.Kernel

variable {s s' : State} {v v' : View} {a : Act} {p : Slot} {c d : Cid} {k : Fin NCPU} {t : BitVec 32}

namespace Fine

/-- The scheduler of CPU `k` sets `p` to `RUNNING` and switches to it on behalf of `c`. -/
def Dispatches (f : Fine) (k : Fin NCPU) (p : Slot) (c : Cid) : Prop :=
  ∃ f' t, f.step (.take k) = some f' ∧ (f'.base.cpus k).mode = .run p c t

/-- Process `p` gives up CPU `k` and the scheduler charges its ticks to `c`. -/
def TicksCharged (f : Fine) (k : Fin NCPU) (p : Slot) (c : Cid) : Prop :=
  ∃ a f' t, (f.base.cpus k).mode = .run p c t ∧ f.step a = some f' ∧ (f'.base.cpus k).mode = .next c

/-- A container is served by its own processes only: who is switched to is a
process of the container, which is `CRUNNABLE`; its ticks go to that container; and no process of a
paused container is switched to. -/
def ServesMembers (f : Fine) : Prop :=
  (∀ k p c, f.Dispatches k p c → (f.base.proc p).cont = some c ∧ (f.base.cont c).state = .crunnable) ∧
  (∀ k p c, f.TicksCharged k p c → (f.base.proc p).cont = some c) ∧
  ∀ k p c d, f.Dispatches k p c → (f.base.proc p).cont = some d → (f.base.cont d).state ≠ .cpaused

theorem Dispatches.picked {f : Fine} (h : f.Dispatches k p c) :
    f.visit k = .picked c p ∧ (f.base.proc p).state = .runnable := by
  obtain ⟨f', t, hs, hmode⟩ := h
  simp only [Fine.step] at hs
  split at hs
  · rename_i d q hv
    obtain ⟨s', hs', rfl⟩ := Option.map_eq_some_iff.mp hs
    change (s'.cpus k).mode = .run p c t at hmode
    unfold switchTo at hs'
    split at hs'
    · rename_i hrun
      cases hs'
      simp only [State.setCpu_cpus, Function.update_self, CpuMode.run.injEq] at hmode
      obtain ⟨rfl, rfl, -⟩ := hmode
      exact ⟨hv, hrun⟩
    · -- `getnextproc` and the loop end leave the CPU idle
      obtain ⟨u, -, rfl⟩ := Option.map_eq_some_iff.mp hs'
      simp [nextIter] at hmode
  · cases hs

end Fine

/-! ## The caches -/

/-- Slot `p` may stand in a cache of container `d`: it is free, or belongs to `d`. -/
def View.Serves (v : View) (p : Slot) (d : Cid) : Prop :=
  ((v.proc p).state = .unused ∧ v.pend ≠ some p) ∨ (v.proc p).cont = some d

/-- A slot that a container has cached, or that a CPU runs for it, is free or belongs to
it. -/
structure Cached (v : View) : Prop where
  pending : ∀ p, v.pend = some p → (v.proc p).state = .unused
  next : ∀ p d, (v.cont d).next = some p → v.Serves p d
  run : ∀ k p d t, v.mode k = .run p d t → v.Serves p d

/-- A slot stays where it may stand, unless it is claimed, suspended or slept in. -/
theorem View.Serves.fires (h : v.Serves p d) (hpend : v.pend = some p →
    (v.proc p).state = .unused) (hf : Fires v a v') (hsusp : a ≠ .suspend p) (hlapse : ∀ k, a ≠ .lapse k p)
    (hclaim : ∀ c, a = .claim p c → c = d) (hstop : ∀ c, a = .stop c → v.pend = none) :
    v'.Serves p d := by
  unfold View.Serves at h ⊢
  cases hf with
  | wake f hf => exact h.imp_left fun hu => ⟨(Fires.wake_unused hf p).mpr hu.1, hu.2⟩
  | @claim q e hu hn =>
    by_cases hq : p = q
    · subst hq
      exact .inr (by simp [hclaim e rfl])
    · grind
  | _ => grind [PView.free, PView.kill]

theorem Fires.next_cases (hf : Fires v a v') (h : (v'.cont d).next = some p) :
    (v.cont d).next = some p ∨ a = .next d p ∧ (v'.proc p).cont = some d := by
  cases hf <;> grind [CView.freed, CView.created, CView.recycled]

theorem Fires.run_cases (hf : Fires v a v')
    (h : v'.mode k = .run p d t) :
    v.mode k = .run p d t ∨ a = .dispatch k p d ∧ (v.cont d).next = some p ∧ (v.proc p).state ≠ .unused := by
  cases hf <;> grind

/-- Every act keeps the caches, if slots are claimed fresh and no free slot is suspended. -/
theorem Cached.fires (h : Cached v) (hf : Fires v a v') (hsusp : ∀ p, a ≠ .suspend p)
    (hlapse : ∀ k p, a ≠ .lapse k p)
    (hclaim : ∀ p c, a = .claim p c → (∀ d, (v.cont d).next = some p → c = d) ∧ ∀ k d t, v.mode k ≠ .run p d t)
    (hstop : ∀ c, a = .stop c → v.pend = none) : Cached v' where
  pending p hp := by
    have hold := h.pending p
    cases hf with
    | wake f hf => exact (Fires.wake_unused hf p).mpr (hold hp)
    | _ => grind [PView.free, PView.kill]
  next p d hn := by
    rcases hf.next_cases hn with hold | ⟨-, hc⟩
    · exact (h.next p d hold).fires (h.pending p) hf (hsusp p) (hlapse · p)
        (fun c hc => (hclaim p c hc).1 d hold) hstop
    · exact .inr hc
  run k p d t hm := by
    rcases hf.run_cases hm with hold | ⟨rfl, hn, hlive⟩
    · exact (h.run k p d t hold).fires (h.pending p) hf (hsusp p) (hlapse · p)
        (fun c hc => absurd hold ((hclaim p c hc).2 k d t)) hstop
    · -- a dispatched process was cached and is not free
      exact (h.next p d hn).fires (h.pending p) hf (hsusp p) (hlapse · p) (fun c hc => by cases hc) hstop

theorem cached_boot (free : Nat) : Cached ((boot free).view none) where
  pending p hp := by cases hp
  next p d hn := by
    by_cases h0 : d = ROOTCONT
    · subst h0
      simp [State.view, boot, Container.view, rootCont, Container.zero] at hn
    · simp [State.view, boot, h0, Container.view, Container.zero] at hn
  run k p d t hm := by cases hm

/-- The slot that a `fork` into `c` would take is not cached for another container and runs
nowhere. -/
def FreshFor (s : State) (c : Cid) : Prop :=
  ∀ p, freeSlot s = some p → (∀ d, (s.cont d).nextproctorun = some p → c = d) ∧ ∀ k, s.myproc k ≠ some p
deriving Decidable

def Event.target (s : State) : Event → Option Cid
  | .call k .fork => s.mycont k
  | .call _ (.cfork name) => name2cont name s
  | _ => none

/-- The events of a run in which no stale slot is handed out and no running process is stopped. -/
def NoStaleFork (s : State) (e : Event) : Prop :=
  e.isSuspend = false ∧ SparesCurrent s e ∧ ∀ c, e.target s = some c → FreshFor s c
deriving Decidable

theorem ForksInto.target {e : Event} (h : ForksInto s e c) : e.target s = some c := by
  rcases h with ⟨k, p, rfl, hp, -, hc⟩ | ⟨k, name, rfl, hc⟩
  · exact Option.bind_eq_some_iff.mpr ⟨p, hp, hc⟩
  · exact hc

theorem reach_cached {free : Nat} (h : Lib.Reach step NoStaleFork (boot free) s) :
    Cached (s.view none) ∧ OnCpu (s.view none) := by
  refine reach_view (I := fun v => Cached v ∧ OnCpu v) ⟨cached_boot free, onCpu_boot free⟩
    (fun s e v a v' hok hs hv hp hf => ⟨hv.1.fires hf ?_ ?_ ?_ ?_, hv.2.fires hok.2.1 hp hf⟩) h
  · rintro p rfl
    obtain ⟨-, k, pid, n, rfl, -⟩ := hp
    cases hok.1
  · rintro k p rfl
    exact hs.2.no_lapse hp
  · rintro p c rfl
    obtain ⟨rfl, hfree, hinto⟩ := hp
    obtain ⟨hnext, hrun⟩ := hok.2.2 c hinto.target p hfree
    refine ⟨hnext, fun k d t hm => hrun k ?_⟩
    have hm' : (s.cpus k).mode = .run p d t := hm
    simp [State.myproc, hm']
  · rintro c rfl
    obtain ⟨rfl, -⟩ := hp
    rfl

/-- What a CPU runs for a container is a process of it. -/
def RunsMembers (s : State) : Prop := ∀ k p c t, (s.cpus k).mode = .run p c t → (s.proc p).cont = some c

theorem reach_members {free : Nat} (h : Lib.Reach step NoStaleFork (boot free) s) :
    (∀ c p, (s.cont c).nextproctorun = some p → (s.proc p).state ≠ .unused → (s.proc p).cont = some c) ∧
      RunsMembers s := by
  obtain ⟨hcached, hcpu⟩ := reach_cached h
  refine ⟨fun c p hn hlive => (hcached.next p c hn).resolve_left fun hu => hlive hu.1, fun k p c t hm => ?_⟩
  have hrun : (s.proc p).state = .running := hcpu.running k p c t hm
  exact (hcached.run k p c t hm).resolve_left fun hu => by cases hrun.symm.trans hu.1

theorem RunsMembers.of_countChild {np : Slot} (h : RunsMembers (countChild np s)) : RunsMembers s := by
  obtain ⟨hcpus, hproc, -⟩ := countChild_keeps np s
  intro k p c t hm
  rw [← hcpus] at hm
  rw [← (hproc p).2]
  exact h k p c t hm

/-- **The scheduler serves containers with their own processes while no stale slot is handed out and its
visits are not interrupted.** -/
theorem servesMembers_of_noStaleFork {free : Nat} {f : Fine}
    (h : Lib.Reach Fine.step (Keeps NoStaleFork) (Fine.boot free) f) : f.ServesMembers := by
  have hruns : RunsMembers f.base := by
    cases follows h with
    | whole h => exact (reach_members h).2
    | forking h hok hs => exact (reach_members (h.next hok hs)).2.of_countChild
  have hdispatch : ∀ k p c, f.Dispatches k p c → (f.base.proc p).cont = some c ∧ (f.base.cont c).state = .crunnable := by
    intro k p c hd
    obtain ⟨hpick, hrun⟩ := hd.picked
    cases follows h with
    | whole h _ hvisit =>
      have hk := hvisit k
      rw [hpick] at hk
      obtain ⟨⟨-, -, hstate, -⟩, hnext⟩ := hk
      exact ⟨(reach_members h).1 c p hnext (by simp [hrun]), hstate⟩
    | forking _ _ _ _ _ hvisit => cases (hvisit k).symm.trans hpick
  refine ⟨hdispatch, fun k p c ht => ?_, fun k p c d hd hpd => ?_⟩
  · obtain ⟨a, f', t, hm, -⟩ := ht
    exact hruns k p c t hm
  · obtain ⟨hpc, hstate⟩ := hdispatch k p c hd
    cases hpc.symm.trans hpd
    rw [hstate]
    simp

theorem Fine.Dispatches.of_any {f : Fine}
    (h : ((f.step (.take k)).any fun f' => (f'.base.cpus k).mode == .run p c t) = true) : f.Dispatches k p c := by
  obtain ⟨f', hf', hm⟩ := (Option.any_eq_true _ _).mp h
  exact ⟨f', t, hf', by simpa using hm⟩

/-- Init forks into the container; CPU 0 goes on to it, and CPU 2 finds its process. -/
def servesChild : List Section :=
  startsC 0 ++ [.event (.call 1 (.cfork nameC)), .count 1, .look 0, .pick 0, .look 2, .pick 2, .take 2, .look 2, .pick 2]

/-- A run without stale forks that ends with a process of a container about to be dispatched. -/
theorem servesMembers_run : ∃ f, Lib.Reach Fine.step (Keeps NoStaleFork) (Fine.boot 100) f ∧
    f.Dispatches 2 1 1 ∧ (f.base.proc 1).cont = some 1 := by
  obtain ⟨f, hf, h1⟩ := Lib.Reach.of_any Fine.step (Keeps NoStaleFork) (Fine.boot 100) servesChild
    (fun f => (f.step (.take 2)).any fun f' => (f'.base.cpus 2).mode == .run 1 1 0) (by decide +kernel)
  exact ⟨f, hf, .of_any h1, ((servesMembers_of_noStaleFork hf).1 2 1 1 (.of_any h1)).1⟩

/-- The only process of a container exits, is reaped, and its slot goes to a child of init; the
container still has the slot cached, and the scheduler serves it with init's child. -/
theorem not_servesMembers : ¬ ∀ free f,
    Lib.Reach Fine.step (Keeps fun _ e => e.onGroups = true) (Fine.boot free) f → f.ServesMembers := by
  intro h
  obtain ⟨f, hf, h1⟩ := Lib.Reach.of_any Fine.step (Keeps fun _ e => e.onGroups = true) (Fine.boot 100)
    (servesChild ++ [.take 2, .event (.call 2 (.exit 0)), .look 2, .event (.call 1 (.wait false)),
      .event (.call 1 .fork), .count 1, .look 3, .pick 3, .take 3, .look 3, .pick 3])
    (fun f => ((f.step (.take 3)).any fun f' => (f'.base.cpus 3).mode == .run 1 1 0) &&
      (f.base.proc 1).cont == some 0) (by decide +kernel)
  obtain ⟨hd, hc⟩ := Bool.and_eq_true_iff.mp h1
  have hmember := ((h 100 f hf).1 3 1 1 (.of_any hd)).1
  rw [show (f.base.proc 1).cont = some 0 by simpa using hc] at hmember
  cases hmember

end Xv6.Kernel
