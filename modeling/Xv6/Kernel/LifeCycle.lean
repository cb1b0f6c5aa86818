/-
# Xv6.Kernel.LifeCycle — the root container is untouchable, and containers move along their life cycle.

Both results hold in EVERY run, whatever strings and numbers the calls are given: the guards that
protect the root container (`isroot`, and the states `kccreate` and `kcstart` ask for) stand in the
acts, so it does not matter which container a string resolves to.
-/
import Xv6.Kernel.Simulation

namespace Xv6.Kernel

variable {s s' : State} {v v' : View} {a : Act} {c : Cid} {e : Event}

/-! ## The root container -/

/-- A container without its count of processes and its scheduling cursor. -/
def CView.core (x : CView) : CView := { x with usedProc := 0, next := none }

theorem CView.core_count (d : Int) (x : CView) : (x.count d).core = x.core := by
  obtain ⟨u, hu⟩ := CView.count_eq d x
  rw [hu]
  rfl

/-- No act changes more of a running root container than its count and its cursor. -/
theorem Fires.core_of_root (h : Fires v a v') (hroot : (v.cont c).isroot ≠ 0)
    (hstate : (v.cont c).state = .crunnable) : (v'.cont c).core = (v.cont c).core := by
  cases h <;> grind [CView.core, CView.core_count]

theorem Fires.isroot_zero (h : Fires v a v') (hroot : (v.cont c).isroot = 0) : (v'.cont c).isroot = 0 := by
  cases h <;> grind [CView.freed, CView.created, CView.recycled]

/-- Slot `ROOTCONT` is the root container as `initrootcont` set it up, and no other
slot is a root. -/
structure RootIntact (v : View) : Prop where
  root : (v.cont ROOTCONT).core = rootCont.view.core
  others : ∀ c, c ≠ ROOTCONT → (v.cont c).isroot = 0

namespace RootIntact

section

variable (h : RootIntact v)
include h

theorem isroot : (v.cont ROOTCONT).isroot = 1 := congrArg CView.isroot h.root

theorem state : (v.cont ROOTCONT).state = .crunnable := congrArg CView.state h.root

theorem eq_root (hc : (v.cont c).isroot ≠ 0) : c = ROOTCONT := by
  by_contra hne
  exact hc (h.others c hne)

theorem fires (hf : Fires v a v') : RootIntact v' where
  root := (hf.core_of_root (by rw [h.isroot]; decide) h.state).trans h.root
  others c hc := hf.isroot_zero (h.others c hc)

end

end RootIntact

theorem rootIntact_boot (free : Nat) : RootIntact ((boot free).view none) where
  root := by simp [State.view, boot]
  others c hc := by simp [State.view, boot, hc, Container.view, Container.zero]

theorem reach_rootIntact {ok : State → Event → Prop} {free : Nat}
    (h : Lib.Reach step ok (boot free) s) : RootIntact (s.view none) :=
  reach_view (rootIntact_boot free) (fun _ _ _ _ _ _ _ hv _ hf => hv.fires hf) h

/-! ## The life cycle -/

theorem Fires.state_cases (h : Fires v a v') (c : Cid) :
    (v'.cont c).state = (v.cont c).state ∨ (v'.cont c).state = .cunused ∨
      ((∃ n, a = .create c n) ∧ (v.cont c).state = .cunused ∧ (v'.cont c).state = .cinited) ∨
      (a = .start c ∧ (v.cont c).state = .cinited ∧ (v'.cont c).state = .crunnable) ∨
      (a = .resume c ∧ (v.cont c).state = .cpaused ∧ (v'.cont c).state = .crunnable) ∨
      (a = .pause c ∧ ((v.cont c).state = .crunnable ∨ (v.cont c).state = .cpaused) ∧ (v'.cont c).state = .cpaused) := by
  cases h with
  | @create d name h ip =>
    by_cases hd : c = d
    · subst hd
      exact .inr (.inr (.inl ⟨⟨name, rfl⟩, h, by simp [CView.created]⟩))
    · exact .inl (by simp [hd])
  | _ => grind [CView.freed, CView.recycled]

/-- Between `s` and `s'`, event `e` moves container `c` along its life cycle: to `CINITED` by `ccreate`, to `CRUNNABLE` by
`cstart` or `cresume`, to `CPAUSED` by `cpause`. -/
def LifeCycle (s : State) (e : Event) (s' : State) (c : Cid) : Prop :=
  ((s'.cont c).state = .cinited → (s.cont c).state = .cinited ∨
    (s.cont c).state = .cunused ∧ ∃ k name dir, e = .call k (.ccreate name dir)) ∧
  ((s'.cont c).state = .crunnable → (s.cont c).state = .crunnable ∨
    ((s.cont c).state = .cinited ∧ ∃ k name vc n, e = .call k (.cstart name vc n)) ∨
    (s.cont c).state = .cpaused ∧ ∃ k name, e = .call k (.cresume name)) ∧
  ((s'.cont c).state = .cpaused → (s.cont c).state = .cpaused ∨
    (s.cont c).state = .crunnable ∧ ∃ k name, e = .call k (.cpause name))

/-- The states a container can have inside event `e`, begun in `s`. -/
def MovesTo (s : State) (e : Event) (c : Cid) (x : ContState) : Prop :=
  x = (s.cont c).state ∨ x = .cunused ∨
    (x = .cinited ∧ (s.cont c).state = .cunused ∧ ∃ k name dir, e = .call k (.ccreate name dir)) ∨
    (x = .crunnable ∧ (s.cont c).state = .cinited ∧ ∃ k name vc n, e = .call k (.cstart name vc n)) ∨
    (x = .crunnable ∧ (s.cont c).state = .cpaused ∧ ∃ k name, e = .call k (.cresume name)) ∨
    (x = .cpaused ∧ ((s.cont c).state = .crunnable ∨ (s.cont c).state = .cpaused) ∧
      ∃ k name, e = .call k (.cpause name))

/-- One permitted act stays inside `MovesTo`: the acts with a name are the first of their event. -/
theorem MovesTo.fires (h : MovesTo s e c (v.cont c).state) (hp : Permits s e v a)
    (hf : Fires v a v') : MovesTo s e c (v'.cont c).state := by
  rcases hf.state_cases c with hs | hs | ⟨⟨n, rfl⟩, hs, hs'⟩ | ⟨rfl, hs, hs'⟩ | ⟨rfl, hs, hs'⟩ |
    ⟨rfl, hs, hs'⟩
  · rwa [hs]
  · exact .inr (.inl hs)
  · obtain ⟨rfl, k, dir, he⟩ := hp
    exact .inr (.inr (.inl ⟨hs', hs, k, n, dir, he⟩))
  · obtain ⟨rfl, k, name, vc, n, he, -⟩ := hp
    exact .inr (.inr (.inr (.inl ⟨hs', hs, k, name, vc, n, he⟩)))
  · obtain ⟨rfl, k, name, he, -⟩ := hp
    exact .inr (.inr (.inr (.inr (.inl ⟨hs', hs, k, name, he⟩))))
  · obtain ⟨rfl, k, name, he, -⟩ := hp
    exact .inr (.inr (.inr (.inr (.inr ⟨hs', hs, k, name, he⟩))))

theorem step_lifeCycle (ha : Armed (s.view none)) (h : step s e = some s') (c : Cid) : LifeCycle s e s' c := by
  have hm : MovesTo s e c ((s'.view none).cont c).state :=
    (step_acts ha h).invariant (I := fun v => MovesTo s e c (v.cont c).state)
      (fun _ _ _ hv hp hf => hv.fires hp hf) (.inl rfl)
  have hm' : MovesTo s e c (s'.cont c).state := hm
  refine ⟨fun hs => ?_, fun hs => ?_, fun hs => ?_⟩ <;> rw [hs] at hm' <;>
    rcases hm' with h | h | ⟨h, h'⟩ | ⟨h, h'⟩ | ⟨h, h'⟩ | ⟨h, h', h''⟩ <;> first | cases h | skip
  · exact .inl h.symm
  · exact .inr h'
  · exact .inl h.symm
  · exact .inr (.inl h')
  · exact .inr (.inr h')
  · exact .inl h.symm
  · rcases h' with h' | h'
    · exact .inr ⟨h', h''⟩
    · exact .inl h'

/-- **The root container is untouchable and the life cycle is respected**, in every state and by every step of every run. -/
theorem root_untouched_and_lifeCycle {free : Nat}
    (h : Lib.Reach step (fun _ _ => True) (boot free) s) :
    ((s.cont ROOTCONT).isroot = 1 ∧ (s.cont ROOTCONT).state = .crunnable ∧
        (s.cont ROOTCONT).name = strncpy 16 rootName ∧
        (s.cont ROOTCONT).rootdir = some ROOTINO ∧ (s.cont ROOTCONT).maxProc = NPROC ∧
        (s.cont ROOTCONT).maxSz = BitVec.ofNat 64 MAX_CMEM ∧
        (s.cont ROOTCONT).maxDsk = BitVec.ofNat 64 MAX_CDISK) ∧
      (∀ c, c ≠ ROOTCONT → (s.cont c).isroot = 0) ∧
      ∀ e s', step s e = some s' → ∀ c, c ≠ ROOTCONT → LifeCycle s e s' c := by
  have hr := reach_rootIntact h
  refine ⟨⟨hr.isroot, hr.state, ?_, ?_, ?_, ?_, ?_⟩, hr.others, fun e s' hs c _ => ?_⟩
  · exact congrArg CView.name hr.root
  · exact congrArg CView.rootdir hr.root
  · exact congrArg CView.maxProc hr.root
  · exact congrArg CView.maxSz hr.root
  · exact congrArg CView.maxDsk hr.root
  · exact step_lifeCycle (reach_armed h) hs c

/-- `"c"`, the name of a container in the runs below. -/
def nameC : CStr := .ofBytes [99] rfl

def nameV : CStr := .ofBytes [118] rfl

/-- A run in which a container is created, started and paused, and one more call names the root
container. -/
theorem root_untouched_run : ∃ s, Lib.Reach step (fun _ _ => True) (boot 100) s ∧
    (s.cont 1).state = .cpaused ∧ (s.cont ROOTCONT).state = .crunnable := by
  obtain ⟨s, hs, h1⟩ := Lib.Reach.of_any step (fun _ _ => True) (boot 100)
    [.sched 0, .sched 1, .call 1 (.ccreate nameC (some 5)), .call 1 (.cstart nameC nameV 0),
      .call 1 (.cpause nameC), .call 1 (.cpause (.ofBytes [] rfl))]
    (fun s => (s.cont 1).state == .cpaused) (by decide)
  exact ⟨s, hs, by simpa using h1, (root_untouched_and_lifeCycle hs).1.2.1⟩

end Xv6.Kernel
