/-
# Xv6.Kernel.Progress — the search for the next process ends.

`getnextproc` walks the process table in a circle until it meets a process of the container.  The
walk ends within `NPROC` probes exactly when there is one, so the scheduler rests on an invariant
across the two tables: a container it serves owns a process.  `kcstart` does not establish it (it
starts a container nobody has forked into) and `wait` does not keep it (it reaps the last process).
-/
import Xv6.Kernel.LifeCycle
import Xv6.Kernel.RoundRobin

namespace Xv6.Kernel

variable {s s' : State} {v v' : View} {a : Act} {p : Slot} {c : Cid} {k : Fin NCPU}

theorem nextProc_none (h : ∀ p, (s.proc p).cont ≠ some c) (fuel : Nat) : nextProc fuel c s = none := by
  by_contra hn
  obtain ⟨p, hp⟩ := Option.ne_none_iff_exists'.mp hn
  exact h p (nextProc_cont hp)

theorem nextProc_isSome (hp : (s.proc p).cont = some c) : (nextProc NPROC c s).isSome := by
  obtain ⟨q, -, -, hq⟩ := exists_nextProc ⟨p, hp⟩
  rw [hq NPROC (Nat.le_refl _)]
  rfl

/-- Every container the scheduler may serve has a slot in the process table, and the
search for it ends within `NPROC` probes. -/
def NoHang (s : State) : Prop :=
  ∀ c, (s.cont c).state = .crunnable → (∃ p, (s.proc p).cont = some c) ∧ (nextProc NPROC c s).isSome

/-! ## Owners -/

def View.Owns (v : View) (p : Slot) (c : Cid) : Prop := (v.proc p).state ≠ .unused ∧ (v.proc p).cont = some c
deriving Decidable

def CView.Served (x : CView) : Prop := x.state = .crunnable ∨ x.state = .cpaused

/-- An owner is lost only by being reaped, or with its container. -/
theorem View.Owns.fires (h : v.Owns p c) (hf : Fires v a v')
    (hused : (v'.cont c).state ≠ .cunused) : v'.Owns p c ∨ a = .reap p := by
  unfold View.Owns at h ⊢
  cases hf with
  | wake f hf => exact .inl ⟨fun hu => h.1 ((Fires.wake_unused hf p).mp hu), h.2⟩
  | _ => grind [PView.free, PView.kill, CView.freed]

/-- Init is alive in the root container, and every container served owns a slot. -/
structure Owned (v : View) : Prop where
  root : RootIntact v
  first : v.initproc = 0
  init : v.Owns 0 ROOTCONT
  alive : (v.proc 0).state ≠ .zombie
  owner : ∀ c, (v.cont c).isroot = 0 → (v.cont c).Served → ∃ p, v.Owns p c

theorem Owned.fires (h : Owned v) (hf : Fires v a v') (hzombie : ∀ k, a ≠ .leave k 0 .zombie)
    (hstart : ∀ c, a = .start c → ∃ p, v.Owns p c)
    (hreap : ∀ p c, a = .reap p → v.Owns p c → (v.cont c).isroot = 0 → (v.cont c).Served →
      ∃ q, q ≠ p ∧ v.Owns q c) : Owned v' where
  root := h.root.fires hf
  first := by
    have := h.first
    cases hf <;> grind
  init := by
    have hused : (v'.cont ROOTCONT).state ≠ .cunused := by rw [(h.root.fires hf).state]; simp
    refine (h.init.fires hf hused).resolve_right ?_
    rintro rfl
    have := h.alive
    cases hf
    contradiction
  alive := by
    have := h.alive
    cases hf with
    | wake f hf => rcases hf 0 with he | ⟨-, he⟩ <;> simp [View.restate, he, this]
    | _ => grind [PView.free, PView.kill]
  owner c hroot hserved := by
    have hroot' : (v.cont c).isroot = 0 := by
      by_contra hne
      have hc := h.root.eq_root hne
      rw [hc, (h.root.fires hf).isroot] at hroot
      cases hroot
    have hused : (v'.cont c).state ≠ .cunused := by rcases hserved with hs | hs <;> rw [hs] <;> simp
    rcases hf.state_cases c with hs | hs | ⟨-, -, hs⟩ | ⟨rfl, -, -⟩ | ⟨rfl, hs, -⟩ | ⟨rfl, hs, -⟩
    · obtain ⟨p, hp⟩ := h.owner c hroot' (by rwa [CView.Served, ← hs])
      rcases hp.fires hf hused with hp' | rfl
      · exact ⟨p, hp'⟩
      -- the owner is being reaped: there is another one
      obtain ⟨q, hq, hqo⟩ := hreap p c rfl hp hroot' (by rwa [CView.Served, ← hs])
      refine ⟨q, (hqo.fires hf hused).resolve_right fun he => hq ?_⟩
      cases he
      rfl
    · exact absurd hs hused
    · rcases hserved with h' | h' <;> rw [hs] at h' <;> cases h'
    · obtain ⟨p, hp⟩ := hstart c rfl
      exact ⟨p, (hp.fires hf hused).resolve_right (by simp)⟩
    · obtain ⟨p, hp⟩ := h.owner c hroot' (.inr hs)
      exact ⟨p, (hp.fires hf hused).resolve_right (by simp)⟩
    · obtain ⟨p, hp⟩ := h.owner c hroot' hs
      exact ⟨p, (hp.fires hf hused).resolve_right (by simp)⟩

theorem owned_boot (free : Nat) : Owned ((boot free).view none) where
  root := rootIntact_boot free
  first := rfl
  init := by
    constructor <;> simp [State.view, boot, Proc.view, initProc]
  alive := by simp [State.view, boot, Proc.view, initProc]
  owner c hroot hserved := by
    by_cases h0 : c = ROOTCONT
    · subst h0
      simp [State.view, boot, Container.view, rootCont] at hroot
    · rcases hserved with hs | hs <;>
        simp [State.view, boot, h0, Container.view, Container.zero] at hs

/-! ## Runs that keep an owner -/

def State.Owns (s : State) (p : Slot) (c : Cid) : Prop := (s.proc p).state ≠ .unused ∧ (s.proc p).cont = some c
deriving Decidable

def Event.starts (s : State) : Event → Option Cid
  | .call _ (.cstart name _ _) => name2cont name s
  | _ => none

def Event.reaps (s : State) : Event → Option Slot
  | .call k (.wait false) => reaped k s
  | _ => none

/-- `cstart` is only called for a container that already has a process, and
`wait` does not reap the last process of a container that has been started. -/
def KeepsOwners (s : State) (e : Event) : Prop :=
  (∀ c, e.starts s = some c → (s.cont c).state = .cinited → ∃ p, s.Owns p c) ∧
    ∀ p, e.reaps s = some p → ∀ c, s.Owns p c → (s.cont c).isroot = 0 →
      ((s.cont c).state = .crunnable ∨ (s.cont c).state = .cpaused) → ∃ q, q ≠ p ∧ s.Owns q c
deriving Decidable

theorem reach_owned {free : Nat} (h : Lib.Reach step KeepsOwners (boot free) s) : Owned (s.view none) := by
  refine reach_view (owned_boot free) (fun s e v a v' hok hs hv hp hf => ?_) h
  refine hv.fires hf ?_ ?_ ?_
  · rintro k rfl
    exact (hp.2.2 rfl).1 hs.first.symm
  · rintro c rfl
    obtain ⟨rfl, k, name, vc, n, rfl, hc⟩ := hp
    refine hok.1 c hc ?_
    cases hf
    assumption
  · rintro p c rfl hown hroot hserved
    obtain ⟨rfl, k, rfl, hr⟩ := hp
    exact hok.2 p hr c hown hroot hserved

/-- **The scheduler does not hang in `getnextproc` while containers keep an owner.** -/
theorem noHang_of_keepsOwners {free : Nat} (h : Lib.Reach step KeepsOwners (boot free) s) : NoHang s := by
  have hown := reach_owned h
  intro c hc
  have hex : ∃ p, (s.view none).Owns p c := by
    by_cases hroot : (s.cont c).isroot = 0
    · exact hown.owner c hroot (.inl hc)
    · rw [hown.root.eq_root hroot]
      exact ⟨0, hown.init⟩
  obtain ⟨p, -, hp⟩ := hex
  exact ⟨⟨p, hp⟩, nextProc_isSome hp⟩

/-- A run that keeps owners: the container gets its process before it is started, and keeps one when
the first is reaped. -/
theorem noHang_run : ∃ s, Lib.Reach step KeepsOwners (boot 100) s ∧
    (s.cont 1).state = .crunnable ∧ (nextProc NPROC 1 s).isSome := by
  obtain ⟨s, hs, h1⟩ := Lib.Reach.of_any step KeepsOwners (boot 100)
    [.sched 0, .sched 1, .call 1 (.ccreate nameC (some 5)), .call 1 (.cfork nameC),
      .call 1 (.cfork nameC), .call 1 (.cstart nameC nameV 0), .sched 0, .sched 2, .sched 2,
      .call 2 (.exit 0), .call 1 (.wait false)]
    (fun s => (s.cont 1).state == .crunnable) (by decide +kernel)
  have hc : (s.cont 1).state = .crunnable := by simpa using h1
  exact ⟨s, hs, hc, (noHang_of_keepsOwners hs 1 hc).2⟩

/-- A container that was created and started and that nobody forked into. -/
theorem not_noHang : ¬ ∀ free s, Lib.Reach step (fun _ e => e.onGroups = true) (boot free) s → NoHang s := by
  intro h
  obtain ⟨s, hs, h1⟩ := Lib.Reach.of_any step (fun _ e => e.onGroups = true) (boot 100)
    [.sched 0, .sched 1, .call 1 (.ccreate nameC (some 5)), .call 1 (.cstart nameC nameV 0)]
    (fun s => (s.cont 1).state == .crunnable && decide (∀ p, (s.proc p).cont ≠ some 1))
    (by decide)
  obtain ⟨hc, hp⟩ := Bool.and_eq_true_iff.mp h1
  have hsome := (h 100 s hs 1 (by simpa using hc)).2
  rw [nextProc_none (of_decide_eq_true hp)] at hsome
  cases hsome

end Xv6.Kernel
