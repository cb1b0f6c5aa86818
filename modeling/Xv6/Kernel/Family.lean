/-
# Xv6.Kernel.Family — who is whose parent while processes fork, exit and wait.

`reparent` and `wait` read `np->parent` without the lock of `np`.  What makes that safe is that only the
parent itself gives its children away or frees them, and only while it is not looking: `PcOk` says for
each place of the code what a process may rely on there, and `Undisturbed` what the steps of the others
leave alone.
-/
import Xv6.Kernel.Reaping

namespace Xv6.Kernel.Reaping

open Function List Option
open Lib (update_cases update_same)

variable {s s' : State} {p q : Slot}

/-! ## The invariant of the table -/

/-- What holds while process `p` is at `pc`.  Nobody but `p` gives slots the parent `p`
(init apart) or takes them away from it, so what `p` has seen of its children stays true. -/
def PcOk (s : State) (p : Slot) : Pc → Prop
  | .out => True
  | .claimed np parent | .forking np parent =>
    (s.task p).Live ∧ (s.task np).state = .unused ∧ (parent = p ∨ parent = initproc)
  | .linked np => (s.task p).Live ∧ (s.task np).state = .unused ∧ (s.task np).parent ≠ none
  | .wakeInit _ | .readParent _ | .lockParent _ _ | .lockSelf _ _ => (s.task p).Live ∧ p ≠ initproc
  | .reparent _ _ todo => ((s.task p).Live ∧ p ≠ initproc) ∧ ∀ q, (s.task q).parent = some p → q ∈ todo
  | .give _ _ pp todo => ((s.task p).Live ∧ p ≠ initproc) ∧ (s.task pp).parent = some p ∧
      ∀ q, (s.task q).parent = some p → q = pp ∨ q ∈ todo
  | .sched => (s.task p).state = .zombie
  | .enter _ | .asleep _ => (s.task p).Live
  | .scan _ todo havekids kids => (s.task p).Live ∧ (kids = true → havekids = false →
      ∃ q ∈ todo, (s.task q).parent = some p ∧ (s.task q).state ≠ .unused)
  | .child _ np _ _ => (s.task p).Live ∧ (s.task np).parent = some p

/-- Locks exclude, parents are live, and every process but init has one. -/
structure Family (s : State) : Prop where
  mutex : ∀ p q x, x ∈ (s.pc p).locks p → x ∈ (s.pc q).locks q → p = q
  live : ∀ q p, (s.task q).parent = some p → (s.task p).Live
  orphan : ∀ q, (s.task q).state ≠ .unused → q ≠ initproc → (s.task q).parent ≠ none
  free : ∀ q, (s.task q).state = .unused → (s.task q).parent ≠ none → ∃ p, s.pc p = .linked q
  init : (s.task initproc).Live
  at_pc : ∀ p, PcOk s p (s.pc p)
  fails : ∀ f ∈ s.past.fails, f.kids = false ∨ f.killed = true ∨ f.copyout = true

section Steps

variable {pc pc' : Pc} {fs : List Fail}

theorem PcOk.of_kin (hparent : ∀ q, (s'.task q).parent = (s.task q).parent)
    (hunused : ∀ q, (s'.task q).state = .unused ↔ (s.task q).state = .unused)
    (hz : (s'.task p).state = .zombie ↔ (s.task p).state = .zombie) (h : PcOk s p pc) :
    PcOk s' p pc := by
  have hlive : (s'.task p).Live ↔ (s.task p).Live := by
    unfold Task.Live
    rw [ne_eq, ne_eq, hunused, hz]
  cases pc with
  | out => trivial
  | sched => exact hz.mpr h
  | _ =>
    simp only [PcOk, hlive, hparent, hunused, ne_eq] at h ⊢
    exact h

/-- A step of another process leaves alone what process `r` relies on,
when it holds the locks `held`: that it lives, who its children are, and the slots it has locked. -/
structure Undisturbed (s s' : State) (r : Slot) (held : List Slot) : Prop where
  live : (s.task r).Live → (s'.task r).Live
  zombie : r ∈ held → (s.task r).state = .zombie → (s'.task r).state = .zombie
  unused : ∀ x ∈ held, (s.task x).state = .unused → (s'.task x).state = .unused
  linked : ∀ x ∈ held, (s.task x).state = .unused → (s.task x).parent ≠ none → (s'.task x).parent ≠ none
  keeps : ∀ q, (s.task q).parent = some r → (s'.task q).parent = some r
  used : ∀ q, (s.task q).parent = some r → (s.task q).state ≠ .unused → (s'.task q).state ≠ .unused
  gains : r ≠ initproc → ∀ q, (s'.task q).parent = some r → (s.task q).parent = some r

theorem PcOk.undisturbed (hu : Undisturbed s s' p (pc.locks p)) (h : PcOk s p pc) : PcOk s' p pc := by
  cases pc with
  | out => trivial
  | claimed np parent | forking np parent => exact ⟨hu.live h.1, hu.unused np (by simp [Pc.locks]) h.2.1, h.2.2⟩
  | linked np =>
    exact ⟨hu.live h.1, hu.unused np (by simp [Pc.locks]) h.2.1, hu.linked np (by simp [Pc.locks]) h.2.1 h.2.2⟩
  | wakeInit status | readParent status | lockParent status original | lockSelf status original =>
    exact ⟨hu.live h.1, h.2⟩
  | reparent status original todo =>
    exact ⟨⟨hu.live h.1.1, h.1.2⟩, fun q hq => h.2 q (hu.gains h.1.2 q hq)⟩
  | give status original pp todo =>
    exact ⟨⟨hu.live h.1.1, h.1.2⟩, hu.keeps pp h.2.1, fun q hq => h.2.2 q (hu.gains h.1.2 q hq)⟩
  | sched => exact hu.zombie (by simp [Pc.locks]) h
  | enter addr | asleep addr => exact hu.live h
  | scan addr todo havekids kids =>
    refine ⟨hu.live h.1, fun hk hh => ?_⟩
    obtain ⟨q, hq, hqp, hused⟩ := h.2 hk hh
    exact ⟨q, hq, hu.keeps q hqp, hu.used q hqp hused⟩
  | child addr np todo kids => exact ⟨hu.live h.1, hu.keeps np h.2⟩

section

variable (h : Calm s p pc pc' fs)
include h

theorem Calm.pcOk (hok : PcOk s p pc) : PcOk s p pc' := by
  have hstart : ∀ addr, (s.task p).Live → PcOk s p (s.startScan p addr) := by
    intro addr hlive
    refine ⟨hlive, fun hkids _ => ?_⟩
    obtain ⟨q, hq, hchild⟩ := any_eq_true.mp hkids
    simp only [Bool.and_eq_true, beq_iff_eq, bne_iff_ne] at hchild
    exact ⟨q, hq, hchild⟩
  cases h with
  | stay | alloc | wakeInit | readParent | lockParent hfree => exact hok
  | call hlive => exact hlive
  | noPage | gone | copyout | giveUp hno => trivial
  | lockSelf hfree => exact ⟨hok, fun q _ => mem_finRange q⟩
  | passOver hchild =>
    refine ⟨hok.1, fun q hq => ?_⟩
    rcases mem_cons.mp (hok.2 q hq) with rfl | hmem
    · exact absurd hq hchild
    · exact hmem
  | find hchild => exact ⟨hok.1, hchild, fun q hq => mem_cons.mp (hok.2 q hq)⟩
  | enter hfree | awake hfree => exact hstart _ hok
  | skip hchild =>
    refine ⟨hok.1, fun hkids hhave => ?_⟩
    obtain ⟨q, hq, hparent, hused⟩ := hok.2 hkids hhave
    rcases mem_cons.mp hq with rfl | hmem
    · exact absurd hparent hchild
    · exact ⟨q, hmem, hparent, hused⟩
  | spot hchild => exact ⟨hok.1, hchild⟩
  | running => exact ⟨hok.1, fun _ hhave => by cases hhave⟩
  | sleep => exact hok.1

theorem Calm.fails_ok (hok : PcOk s p pc) : ∀ f ∈ fs, f.kids = false ∨ f.killed = true ∨ f.copyout = true := by
  intro f hf
  cases h with
  | copyout =>
    rw [mem_singleton] at hf
    subst hf
    exact .inr (.inr rfl)
  | @giveUp addr havekids kids hno =>
    rw [mem_singleton] at hf
    subst hf
    rcases hno with hhave | hkilled
    · -- a scan that found no child began without any
      refine .inl ?_
      by_contra hkids
      obtain ⟨q, hq, -⟩ := hok.2 (Bool.of_not_eq_false hkids) hhave
      cases hq
    · exact .inr (.inl hkilled)
  | _ => cases hf

theorem Calm.locks : ∀ x ∈ pc'.locks p, x ∈ pc.locks p ∨ s.Free x := by
  intro x hx
  cases h with
  | lockParent hfree =>
    rw [Pc.locks, mem_singleton] at hx
    exact .inr (hx ▸ hfree)
  | lockSelf hfree =>
    simp only [Pc.locks, mem_cons, not_mem_nil, or_false] at hx ⊢
    rcases hx with rfl | rfl
    · exact .inl rfl
    · exact .inr hfree
  | enter hfree | awake hfree =>
    rw [State.startScan, Pc.locks, mem_singleton] at hx
    exact .inr (hx ▸ hfree)
  | gone | noPage | copyout | giveUp | sleep | call | wakeInit | readParent => cases hx
  | _ => exact .inl hx

/-- Only `fork` itself ends the link it has made. -/
theorem Calm.linked {np : Slot} (hpc : pc = .linked np) : pc' = .linked np := by
  subst hpc
  cases h
  rfl

end

namespace Family

variable {np parent original : Slot} {todo : List Slot} {status : Int}

theorem mutex_move (hF : Family s) (hpc : s'.pc = update s.pc p pc)
    (hl : ∀ x ∈ pc.locks p, x ∈ (s.pc p).locks p ∨ s.Free x) :
    ∀ r q x, x ∈ (s'.pc r).locks r → x ∈ (s'.pc q).locks q → r = q := by
  have hone : ∀ q x, q ≠ p → x ∈ pc.locks p → x ∉ (s.pc q).locks q := by
    intro q x hq hx hxq
    rcases hl x hx with hold | hfree
    · exact hq (hF.mutex q p x hxq hold)
    · exact hfree q hxq
  intro r q x
  rw [hpc]
  refine update_cases ?_ (fun r hr => ?_) r
  · exact update_cases (fun _ _ => rfl) (fun q hq hp hxq => absurd hxq (hone q x hq hp)) q
  · exact update_cases (fun hxr hp => absurd hxr (hone r x hr hp)) (fun q _ => hF.mutex r q x) q

theorem linked_move (hpc : s'.pc = update s.pc p pc) (hp : s.pc p ≠ .linked np)
    (h : ∃ r, s.pc r = .linked np) : ∃ r, s'.pc r = .linked np := by
  obtain ⟨r, hr⟩ := h
  have hrp : r ≠ p := by
    rintro rfl
    exact hp hr
  exact ⟨r, by rw [hpc, update_of_ne hrp, hr]⟩

theorem at_pc_move (hpc : s'.pc = update s.pc p pc) (hp : PcOk s' p pc)
    (hothers : ∀ r, r ≠ p → PcOk s' r (s.pc r)) (r : Slot) : PcOk s' r (s'.pc r) := by
  rw [hpc]
  exact update_cases hp hothers r

section

variable (hF : Family s)
include hF

theorem move (htask : ∀ q, (s.task q).Kin (s'.task q))
    (hpc : s'.pc = update s.pc p pc)
    (hl : ∀ x ∈ pc.locks p, x ∈ (s.pc p).locks p ∨ s.Free x)
    (hlinked : ∀ np, s.pc p = .linked np → pc = .linked np) (hok : PcOk s p pc)
    (hfails : ∀ f ∈ s'.past.fails, f.kids = false ∨ f.killed = true ∨ f.copyout = true) :
    Family s' where
  mutex := hF.mutex_move hpc hl
  live q r hq := by
    rw [(htask q).parent] at hq
    exact (htask r).live.mpr (hF.live q r hq)
  orphan q hq hinit := by
    rw [(htask q).parent]
    exact hF.orphan q (fun hu => hq ((htask q).unused.mpr hu)) hinit
  free q hq hparent := by
    rw [(htask q).parent] at hparent
    obtain ⟨r, hr⟩ := hF.free q ((htask q).unused.mp hq) hparent
    by_cases hrp : r = p
    · subst hrp
      exact ⟨r, by rw [hpc, update_self, hlinked q hr]⟩
    · exact ⟨r, by rw [hpc, update_of_ne hrp, hr]⟩
  init := (htask initproc).live.mpr hF.init
  at_pc := at_pc_move hpc
    (hok.of_kin (fun q => (htask q).parent) (fun q => (htask q).unused) (htask p).zombie)
    fun r _ => (hF.at_pc r).of_kin (fun q => (htask q).parent) (fun q => (htask q).unused)
      (htask r).zombie
  fails := hfails

/-- A slot that is being forked and not yet linked has no parent. -/
theorem parent_of_forking (hat : s.pc p = .forking np parent) : (s.task np).parent = none := by
  have hok := hF.at_pc p
  rw [hat] at hok
  by_contra hne
  obtain ⟨r, hr⟩ := hF.free np hok.2.1 hne
  cases hF.mutex r p np (by simp [hr, Pc.locks]) (by simp [hat, Pc.locks])
  rw [hat] at hr
  cases hr

omit hF in
theorem relinked {r : Slot} (htask : s'.task = update s.task np { s.task np with parent := some r }) :
    (∀ q, (s'.task q).state = (s.task q).state) ∧ (s'.task np).parent = some r ∧
      ∀ q, q ≠ np → (s'.task q).parent = (s.task q).parent := by
  rw [htask]
  exact ⟨update_same Task.state rfl, by simp, fun q hq => by simp [hq]⟩

theorem link (hat : s.pc p = .forking np parent)
    (htask : s'.task = update s.task np { s.task np with parent := some parent })
    (hpc : s'.pc = update s.pc p (.linked np)) (hpast : s'.past = s.past) : Family s' := by
  have hok := hF.at_pc p
  rw [hat] at hok
  obtain ⟨hlive, hunused, hparent⟩ := hok
  have hnone := hF.parent_of_forking hat
  obtain ⟨hstate, hself, hother⟩ := relinked htask
  have hlive' : ∀ q, (s'.task q).Live ↔ (s.task q).Live := fun q => by
    simp only [Task.Live, hstate]
  -- a slot that has a parent is another one
  have hkept : ∀ q r, (s.task q).parent = some r → (s'.task q).parent = some r := by
    intro q r hq
    rwa [hother q (by rintro rfl; rw [hnone] at hq; cases hq)]
  have hnew : ∀ q r, (s'.task q).parent = some r → (s.task q).parent = some r ∨ r = parent := by
    intro q r hq
    by_cases hqn : q = np
    · subst hqn
      exact .inr (some.inj (hself.symm.trans hq)).symm
    · exact .inl (by rwa [hother q hqn] at hq)
  refine ⟨hF.mutex_move hpc fun x hx => .inl (by rw [hat]; exact hx), fun q r hq => ?_,
    fun q hq hinit => ?_, fun q hq hne => ?_, (hlive' _).mpr hF.init,
    at_pc_move hpc ?_ fun r hr => ?_, hpast ▸ hF.fails⟩
  · rw [hlive']
    rcases hnew q r hq with hold | rfl
    · exact hF.live q r hold
    · rcases hparent with rfl | rfl
      · exact hlive
      · exact hF.init
  · obtain ⟨r, hr⟩ := ne_none_iff_exists'.mp (hF.orphan q (hstate q ▸ hq) hinit)
    rw [hkept q r hr]
    simp
  · by_cases hqn : q = np
    · exact ⟨p, by rw [hpc, update_self, hqn]⟩
    · rw [hother q hqn] at hne
      exact linked_move hpc (by rw [hat]; simp) (hF.free q (hstate q ▸ hq) hne)
  · exact ⟨(hlive' p).mpr hlive, (hstate np).trans hunused, by simp [hself]⟩
  refine (hF.at_pc r).undisturbed ⟨(hlive' r).mpr, fun _ => (hstate r).trans,
    fun x _ => (hstate x).trans, fun x _ _ hx => ?_, fun q => hkept q r,
    fun q _ hq => by rwa [hstate], fun hinit q hq => ?_⟩
  · obtain ⟨y, hy⟩ := ne_none_iff_exists'.mp hx
    simp [hkept x y hy]
  refine (hnew q r hq).resolve_right ?_
  rintro rfl
  rcases hparent with rfl | rfl
  · exact hr rfl
  · exact hinit rfl

theorem born (hat : s.pc p = .linked np) : Family ((birth np s).move p .out) := by
  have hok := hF.at_pc p
  rw [hat] at hok
  obtain ⟨hlive, hunused, hparent⟩ := hok
  generalize hs' : (birth np s).move p .out = s'
  have hpc : s'.pc = update s.pc p .out := by rw [← hs']; rfl
  have htask : s'.task = update s.task np { s.task np with state := .runnable } := by
    rw [← hs']
    rfl
  have hself : (s'.task np).state = .runnable := by simp [htask]
  have hother : ∀ q, q ≠ np → s'.task q = s.task q := fun q hq => by simp [htask, hq]
  have hpar : ∀ q, (s'.task q).parent = (s.task q).parent := by
    intro q
    by_cases hq : q = np
    · subst hq
      simp [htask]
    · rw [hother q hq]
  have hlive' : ∀ q, (s.task q).Live → (s'.task q).Live := by
    intro q hq
    by_cases hqn : q = np
    · subst hqn
      exact absurd hunused hq.1
    · rwa [hother q hqn]
  have hused : ∀ q, (s.task q).state ≠ .unused → (s'.task q).state ≠ .unused := by
    intro q hq
    by_cases hqn : q = np
    · subst hqn
      simp [hself]
    · rwa [hother q hqn]
  refine ⟨hF.mutex_move hpc fun x hx => (by cases hx), fun q r hq => ?_, fun q hq hinit => ?_,
    fun q hq hne => ?_, hlive' _ hF.init, at_pc_move hpc trivial fun r hr => ?_, ?_⟩
  · exact hlive' r (hF.live q r (hpar q ▸ hq))
  · rw [hpar]
    by_cases hqn : q = np
    · rw [hqn]
      exact hparent
    · exact hF.orphan q (by rwa [hother q hqn] at hq) hinit
  · have hqn : q ≠ np := by
      rintro rfl
      rw [hself] at hq
      cases hq
    refine linked_move hpc ?_ (hF.free q (by rwa [hother q hqn] at hq) (hpar q ▸ hne))
    rw [hat]
    intro he
    cases he
    exact hqn rfl
  · -- the lock of the slot is held by `p`, and its task was free
    have hheld : ∀ x ∈ (s.pc r).locks r, x ≠ np := by
      rintro x hx rfl
      exact hr (hF.mutex r p x hx (by simp [hat, Pc.locks]))
    refine (hF.at_pc r).undisturbed ⟨hlive' r, fun hrh hz => ?_, fun x hx hu => ?_,
      fun x _ _ hne => by rwa [hpar], fun q hq => by rwa [hpar], fun q _ => hused q,
      fun _ q hq => by rwa [hpar] at hq⟩
    · rwa [hother r (hheld r hrh)]
    · rwa [hother x (hheld x hx)]
  · rw [← hs']
    exact hF.fails

theorem gave {pp : Slot}
    (hat : s.pc p = .give status original pp todo)
    (htask : s'.task = update s.task pp { s.task pp with parent := some initproc })
    (hpc : s'.pc = update s.pc p (.reparent status original todo)) (hpast : s'.past = s.past) :
    Family s' := by
  have hok := hF.at_pc p
  rw [hat] at hok
  obtain ⟨⟨hlive, hinit⟩, hchild, hrest⟩ := hok
  obtain ⟨hstate, hself, hother⟩ := relinked htask
  have hlive' : ∀ q, (s'.task q).Live ↔ (s.task q).Live := fun q => by
    simp only [Task.Live, hstate]
  have hne : ∀ q, (s.task q).parent ≠ none → (s'.task q).parent ≠ none := by
    intro q hq
    by_cases hqp : q = pp
    · subst hqp
      simp [hself]
    · rwa [hother q hqp]
  -- the child leaves `p` and nobody else
  have hkept : ∀ q r, r ≠ p → (s.task q).parent = some r → (s'.task q).parent = some r := by
    intro q r hr hq
    rw [hother q ?_]
    · exact hq
    · rintro rfl
      exact hr (some.inj (hq.symm.trans hchild))
  have hnew : ∀ q r, r ≠ initproc → (s'.task q).parent = some r → q ≠ pp ∧ (s.task q).parent = some r := by
    intro q r hr hq
    have hqp : q ≠ pp := by
      rintro rfl
      exact hr (some.inj (hq.symm.trans hself))
    exact ⟨hqp, by rwa [hother q hqp] at hq⟩
  refine ⟨hF.mutex_move hpc fun x hx => .inl (by rw [hat]; exact hx), fun q r hq => ?_,
    fun q hq hqi => ?_, fun q hq hqne => ?_, (hlive' _).mpr hF.init,
    at_pc_move hpc ?_ fun r hr => ?_, hpast ▸ hF.fails⟩
  · rw [hlive']
    by_cases hr : r = initproc
    · rw [hr]
      exact hF.init
    · exact hF.live q r (hnew q r hr hq).2
  · exact hne q (hF.orphan q (hstate q ▸ hq) hqi)
  · refine linked_move hpc (by rw [hat]; simp) (hF.free q (hstate q ▸ hq) ?_)
    by_cases hqp : q = pp
    · rw [hqp, hchild]
      simp
    · rwa [hother q hqp] at hqne
  · refine ⟨⟨(hlive' p).mpr hlive, hinit⟩, fun q hq => ?_⟩
    obtain ⟨hqp, hq⟩ := hnew q p hinit hq
    exact (hrest q hq).resolve_left hqp
  · exact (hF.at_pc r).undisturbed ⟨(hlive' r).mpr, fun _ => (hstate r).trans,
      fun x _ => (hstate x).trans, fun x _ _ => hne x, fun q => hkept q r hr,
      fun q _ hq => by rwa [hstate], fun hri q hq => (hnew q r hri hq).2⟩

theorem died
    (hat : s.pc p = .reparent status original [])
    (hother : ∀ q, q ≠ p → (s.task q).Kin (s'.task q)) (hz : (s'.task p).state = .zombie)
    (hparent : (s'.task p).parent = (s.task p).parent) (hpc : s'.pc = update s.pc p .sched)
    (hpast : s'.past = s.past) : Family s' := by
  have hok := hF.at_pc p
  rw [hat] at hok
  obtain ⟨⟨hlive, hinit⟩, hnone⟩ := hok
  have hpar : ∀ q, (s'.task q).parent = (s.task q).parent := by
    intro q
    by_cases hq : q = p
    · rw [hq, hparent]
    · exact (hother q hq).parent
  have hunused : ∀ q, (s'.task q).state = .unused ↔ (s.task q).state = .unused := by
    intro q
    by_cases hq : q = p
    · subst hq
      exact iff_of_false (by simp [hz]) hlive.1
    · exact (hother q hq).unused
  refine ⟨hF.mutex_move hpc fun x hx => .inl ?_, fun q r hq => ?_, fun q hq hqi => ?_,
    fun q hq hne => ?_, (hother _ hinit.symm).live.mpr hF.init, at_pc_move hpc hz fun r hr => ?_,
    hpast ▸ hF.fails⟩
  · rw [Pc.locks, mem_singleton] at hx
    simp [hat, Pc.locks, hx]
  · rw [hpar] at hq
    have hrp : r ≠ p := by
      rintro rfl
      cases hnone q hq
    exact (hother r hrp).live.mpr (hF.live q r hq)
  · rw [hpar]
    exact hF.orphan q (fun hu => hq ((hunused q).mpr hu)) hqi
  · rw [hpar] at hne
    exact linked_move hpc (by rw [hat]; simp) (hF.free q ((hunused q).mp hq) hne)
  · exact (hF.at_pc r).of_kin hpar hunused (hother r hr).zombie

theorem reaped {addr kids : Bool}
    (hat : s.pc p = .child addr np todo kids) (hfree : s.Free np)
    (hz : (s.task np).state = .zombie) : Family ((reap p np addr s).move p .out) := by
  have hok := hF.at_pc p
  rw [hat] at hok
  obtain ⟨hlive, hchild⟩ := hok
  generalize hs' : (reap p np addr s).move p .out = s'
  have hpc : s'.pc = update s.pc p .out := by rw [← hs']; rfl
  have htask : s'.task = update s.task np .freed := by rw [← hs']; rfl
  have hself : s'.task np = .freed := by simp [htask]
  have hother : ∀ q, q ≠ np → s'.task q = s.task q := fun q hq => by simp [htask, hq]
  have hnp : ∀ q, (s.task q).Live → q ≠ np := by
    rintro q hq rfl
    exact hq.2 hz
  have hlive' : ∀ q, (s.task q).Live → (s'.task q).Live := fun q hq => by
    rwa [hother q (hnp q hq)]
  have hnew : ∀ q r, (s'.task q).parent = some r → (s.task q).parent = some r := by
    intro q r hq
    by_cases hqn : q = np
    · rw [hqn, hself] at hq
      cases hq
    · rwa [hother q hqn] at hq
  have hkept : ∀ q r, r ≠ p → (s.task q).parent = some r → q ≠ np := by
    rintro q r hr hq rfl
    exact hr (some.inj (hq.symm.trans hchild))
  refine ⟨hF.mutex_move hpc fun x hx => (by cases hx), fun q r hq => ?_, fun q hq hqi => ?_,
    fun q hq hne => ?_, hlive' _ hF.init, at_pc_move hpc trivial fun r hr => ?_, ?_⟩
  · exact hlive' r (hF.live q r (hnew q r hq))
  · have hqn : q ≠ np := by
      rintro rfl
      rw [hself] at hq
      exact hq rfl
    rw [hother q hqn] at hq ⊢
    exact hF.orphan q hq hqi
  · have hqn : q ≠ np := by
      rintro rfl
      rw [hself] at hne
      exact hne rfl
    rw [hother q hqn] at hq hne
    exact linked_move hpc (by rw [hat]; simp) (hF.free q hq hne)
  · have hheld : ∀ x ∈ (s.pc r).locks r, x ≠ np := by
      rintro x hx rfl
      exact hfree r hx
    refine (hF.at_pc r).undisturbed ⟨hlive' r, fun hrh hzr => ?_, fun x hx hu => ?_,
      fun x hx _ hne => ?_, fun q hq => ?_, fun q hq hused => ?_, fun _ q hq => hnew q r hq⟩
    · rwa [hother r (hheld r hrh)]
    · rwa [hother x (hheld x hx)]
    · rwa [hother x (hheld x hx)]
    · rwa [hother q (hkept q r hr hq)]
    · rwa [hother q (hkept q r hr hq)]
  · rw [← hs']
    exact hF.fails

theorem moves (h : Moves s s') : Family s' := by
  cases h with
  | @calm p pc fs h htask hpc hpast =>
    refine hF.move (fun q => (htask q).toKin) hpc h.locks (fun np hp => h.linked hp)
      (h.pcOk (hF.at_pc p)) fun f hf => ?_
    rw [hpast] at hf
    rcases mem_append.mp hf with hf | hf
    · exact hF.fails f hf
    · exact h.fails_ok (hF.at_pc p) f hf
  | @exit p status hlive hat hinit htask hpc hpast =>
    refine hF.move (fun q => by rw [htask]; exact .refl _) hpc (fun x hx => (by cases hx))
      (fun np hp => by rw [hat] at hp; cases hp) ⟨hlive, hinit⟩ ?_
    rw [hpast]
    exact hF.fails
  | @claim p np parent t hlive hat hunused hfree hparent ht htp htask hpc hpast =>
    refine hF.move (fun q => ?_) hpc (fun x hx => ?_) (fun np hp => by rw [hat] at hp; cases hp)
      ⟨hlive, hunused, hparent⟩ (hpast ▸ hF.fails)
    · rw [htask]
      refine update_cases ?_ (fun q _ => .refl _) q
      exact ⟨htp, iff_of_true ht hunused, by simp [ht, hunused]⟩
    · rw [Pc.locks, mem_singleton] at hx
      exact .inr (hx ▸ hfree)
  | @unclaim p np parent hat htask hpc hpast =>
    have hok := hF.at_pc p
    rw [hat] at hok
    refine hF.move (fun q => ?_) hpc (fun x hx => (by cases hx))
      (fun np hp => by rw [hat] at hp; cases hp) trivial (hpast ▸ hF.fails)
    rw [htask]
    refine update_cases ?_ (fun q _ => .refl _) q
    exact ⟨(hF.parent_of_forking hat).symm, iff_of_true rfl hok.2.1, by simp [Task.freed, hok.2.1]⟩
  | link hat htask hpc hpast => exact hF.link hat htask hpc hpast
  | born hat hs => exact hs ▸ hF.born hat
  | gave hat htask hpc hpast => exact hF.gave hat htask hpc hpast
  | died hat hother hself hpc hpast =>
    exact hF.died hat (fun q hq => (hother q hq).toKin) hself.1 hself.2.2.1 hpc hpast
  | reaped hat hfree hz hs => exact hs ▸ hF.reaped hat hfree hz

end

end Family

end Steps

end Xv6.Kernel.Reaping
