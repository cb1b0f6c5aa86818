/-
# Xv6.Kernel.Pids — whom `kill` reaches.

`kill` finds its victim by number: by `local_pid` among the slots of the caller's container, or, from
the root container, by `pid` in the whole table.  Neither search looks at the state of the slot.
`freeproc` clears the pid and the container pointer together, so from the root container pid 0 is
found in a free slot and its null pointer is followed; `allocproc` gives up without clearing either,
so a slot it left behind is found and answers 0.
-/
import Xv6.Kernel.Writes

namespace Xv6.Kernel

open Function
open Lib (update_cases)

variable {k : Fin NCPU} {s s' : State} {v v' : View} {a : Act} {p q : Slot} {c : Cid} {pid : Int}

/-! ## Pids -/

/-- Pids are below the counter and belong to one slot each; a slot has pid 0 exactly
when it belongs to no container. -/
structure Numbered (s : State) : Prop where
  next : 0 < s.nextpid
  below : ∀ p, (s.proc p).pid < s.nextpid
  unique : ∀ p q, (s.proc p).pid = (s.proc q).pid → (s.proc p).pid ≠ 0 → p = q
  null : ∀ p, (s.proc p).pid = 0 ↔ (s.proc p).cont = none

theorem Numbered.of_sameIds (h : Numbered s) (hids : ∀ p, (s.proc p).SameIds (s'.proc p))
    (hnext : s'.nextpid = s.nextpid) : Numbered s' where
  next := hnext ▸ h.next
  below p := by
    rw [(hids p).pid, hnext]
    exact h.below p
  unique p q := by
    rw [(hids p).pid, (hids q).pid]
    exact h.unique p q
  null p := by
    rw [(hids p).pid, (hids p).cont]
    exact h.null p

theorem Numbered.claim (h : Numbered s) {x : Proc} (hpid : x.pid = s.nextpid) (hcont : x.cont = some c)
    (hs : s'.proc = Function.update s.proc p x) (hnext : s'.nextpid = s.nextpid + 1) :
    Numbered s' where
  next := by
    have := h.next
    omega
  below q := by
    rw [hs, hnext]
    refine update_cases ?_ (fun q _ => ?_) q
    · omega
    · have := h.below q
      omega
  unique q r := by
    rw [hs]
    -- the new pid is above all others
    by_cases hq : q = p <;> by_cases hr : r = p
    · exact fun _ _ => hq.trans hr.symm
    · subst hq
      rw [update_self, update_of_ne hr, hpid]
      intro he
      have := h.below r
      omega
    · subst hr
      rw [update_self, update_of_ne hq, hpid]
      intro he
      have := h.below q
      omega
    · rw [update_of_ne hq, update_of_ne hr]
      exact h.unique q r
  null q := by
    rw [hs]
    refine update_cases ?_ (fun q _ => h.null q) q
    have := h.next
    rw [hpid, hcont]
    exact iff_of_false (by omega) (by simp)

theorem Numbered.free (h : Numbered s) (p : Slot) : Numbered (s.setProc p (s.proc p).freed) where
  next := h.next
  below q := by
    rw [State.setProc_proc]
    exact update_cases h.next (fun q _ => h.below q) q
  unique q r := by
    by_cases hq : q = p <;> by_cases hr : r = p
    · exact fun _ _ => hq.trans hr.symm
    · subst hq
      simp [Proc.freed]
    · subst hr
      intro he hne
      simp [hq, Proc.freed] at he hne
      exact absurd he hne
    · simpa [hq, hr] using h.unique q r
  null q := by
    rw [State.setProc_proc]
    exact update_cases (by simp [Proc.freed]) (fun q _ => h.null q) q

theorem Writes.numbered {D E : Set Slot} (h : Writes D E s s') (hn : Numbered s) : Numbered s' := by
  induction h with
  | refl => exact hn
  | trans _ _ ih ih' => exact ih' (ih hn)
  | procs h => exact hn.of_sameIds h rfl
  | conts | rest => exact hn.of_sameIds (fun _ => .refl _) rfl
  | charged h =>
    refine hn.of_sameIds (fun p => ?_) h.nextpid
    rcases h.proc p with hp | ⟨-, hp⟩
    · rw [hp]
      exact .refl _
    · rw [hp]
      exact ⟨rfl, rfl, rfl⟩
  | @claim s np c =>
    unfold claimSlot
    dsimp only
    split
    · exact hn.claim rfl rfl rfl rfl
    · exact hn.claim rfl rfl rfl rfl
  | @free _ p => exact hn.free p

theorem numbered_boot (free : Nat) : Numbered (boot free) where
  next := by
    show (0 : Int) < 2
    decide
  below p := by
    by_cases hp : p = 0
    · subst hp
      simp [boot, initProc]
    · simp [boot, hp, Proc.zero]
  unique p q := by
    by_cases hp : p = 0 <;> by_cases hq : q = 0
    · exact fun _ _ => hp.trans hq.symm
    · subst hp
      simp [boot, hq, Proc.zero, initProc]
    · simp [boot, hp, Proc.zero]
    · simp [boot, hp, Proc.zero]
  null p := by
    by_cases hp : p = 0
    · subst hp
      simp [boot, initProc]
    · simp [boot, hp, Proc.zero]

theorem reach_numbered {ok : State → Event → Prop} {free : Nat}
    (h : Lib.Reach step ok (boot free) s) : Numbered s :=
  Lib.Reach.invariant (numbered_boot free) (fun _ _ _ hn _ hs => (step_writes hs).numbered hn) h

/-- A slot with a trapframe belongs to a container, and so does the one being allocated. -/
structure Housed (v : View) : Prop where
  armed : ∀ p, (v.proc p).tf = true → (v.proc p).cont ≠ none
  pending : ∀ p, v.pend = some p → (v.proc p).state = .unused ∧ (v.proc p).cont ≠ none

/-- `suspend` and `cstop` do not happen inside an allocation. -/
theorem Housed.fires (h : Housed v) (hf : Fires v a v') (hsusp : ∀ p, a = .suspend p → v.pend = none)
    (hstop : ∀ c, a = .stop c → v.pend = none) : Housed v' where
  armed p hp := by
    have harmed := h.armed p
    have hpend := h.pending p
    cases hf <;> grind [PView.free, PView.kill]
  pending p hp := by
    have hpend := h.pending p
    cases hf with
    | wake f hf =>
      obtain ⟨hu, hc⟩ := hpend hp
      exact ⟨(Fires.wake_unused hf p).mpr hu, hc⟩
    | _ => grind [PView.free, PView.kill]

theorem housed_boot (free : Nat) : Housed ((boot free).view none) where
  armed p hp := by
    by_cases h0 : p = 0
    · subst h0
      simp [State.view, boot, Proc.view, initProc]
    · simp [State.view, boot, h0, Proc.view, Proc.zero] at hp
  pending p hp := by cases hp

theorem exists_mycont {ok : State → Event → Prop} {free : Nat}
    (h : Lib.Reach step ok (boot free) s) (ht : trap k s = some p) :
    ∃ c, s.mycont k = some c := by
  have hhoused : Housed (s.view none) :=
    reach_view (housed_boot free) (fun _ _ _ _ _ _ _ hv hp hf => hv.fires hf
      (fun _ ha => by subst ha; rw [hp.1]; rfl) (fun _ ha => by subst ha; rw [hp.1]; rfl)) h
  obtain ⟨q, hq, ht⟩ := Option.bind_eq_some_iff.mp ht
  split at ht
  · rename_i htf
    have hcont : (s.proc q).cont ≠ none := hhoused.armed q htf
    obtain ⟨c, hc⟩ := Option.ne_none_iff_exists'.mp hcont
    exact ⟨c, by simpa [State.mycont, hq] using hc⟩
  · cases ht

/-! ## `kill` -/

/-- Slot `q` is one a caller in `c` may kill by `pid`: it is in `c`, and
the number is its pid when `c` is the root container and its local pid otherwise. -/
def KillTarget (c : Cid) (pid : Int) (s : State) (q : Slot) : Prop :=
  (s.proc q).cont = some c ∧ (if (s.cont c).isroot = 1 then (s.proc q).pid else (s.proc q).localPid) = pid

/-- `kill(pid)` by a caller in `c` follows no null pointer, changes at
most one slot, a target, marking it killed and waking it, and returns 0 exactly when there is a live
target. -/
def KillConfined (k : Fin NCPU) (c : Cid) (pid : Int) (s : State) : Prop :=
  ∃ s' r, kill k pid s = some (s', r) ∧
    (s' = s ∨ ∃ q, KillTarget c pid s q ∧ s' = s.setProc q
      { s.proc q with
        killed := true
        state := if (s.proc q).state = .sleeping ∨ (s.proc q).state = .suspended then .runnable
          else (s.proc q).state }) ∧
    (r = 0 ↔ ∃ q, KillTarget c pid s q ∧ (s.proc q).state ≠ .unused)

/-- From the root container: every slot with the pid belongs to a container,
and is live if that is the caller's; from another one: if any slot of the container has the local pid,
a live one has it. -/
def KillClear (c : Cid) (pid : Int) (s : State) : Prop :=
  if (s.cont c).isroot = 1 then
    ∀ q, (s.proc q).pid = pid → ∃ d, (s.proc q).cont = some d ∧ (d = c → (s.proc q).state ≠ .unused)
  else
    (∃ q, (s.proc q).cont = some c ∧ (s.proc q).localPid = pid) →
      ∃ q, (s.proc q).cont = some c ∧ (s.proc q).localPid = pid ∧ (s.proc q).state ≠ .unused

theorem killConfined_of_killed (hk : kill k pid s = some (s.setProc q (s.proc q).kill, 0))
    (hq : KillTarget c pid s q) :
    KillConfined k c pid s ↔ ∃ q, KillTarget c pid s q ∧ (s.proc q).state ≠ .unused := by
  unfold KillConfined
  rw [hk]
  constructor
  · rintro ⟨s', r, h, -, hr⟩
    cases h
    exact hr.mp rfl
  · exact fun hlive => ⟨_, 0, rfl, .inr ⟨q, hq, rfl⟩, iff_of_true rfl hlive⟩

theorem killConfined_of_missed (hk : kill k pid s = some (s, -1)) :
    KillConfined k c pid s ↔ ¬ ∃ q, KillTarget c pid s q ∧ (s.proc q).state ≠ .unused := by
  unfold KillConfined
  rw [hk]
  constructor
  · rintro ⟨s', r, h, -, hr⟩
    cases h
    exact fun hlive => absurd (hr.mpr hlive) (by decide)
  · exact fun hno => ⟨s, -1, rfl, .inl rfl, iff_of_false (by decide) hno⟩

theorem killConfined_iff_local (hc : s.mycont k = some c) (hroot : (s.cont c).isroot ≠ 1) :
    KillConfined k c pid s ↔ KillClear c pid s := by
  have htarget : ∀ q, KillTarget c pid s q ↔ (s.proc q).cont = some c ∧ (s.proc q).localPid = pid := by
    intro q
    rw [KillTarget, if_neg hroot]
  have hkill : kill k pid s = some (containerkillwithpid c pid s) := by simp [kill, hc, hroot]
  rw [KillClear, if_neg hroot]
  unfold containerkillwithpid at hkill
  cases hfind : Fin.find? fun p => (s.proc p).cont == some c && (s.proc p).localPid == pid with
  | none =>
    rw [hfind] at hkill
    have hno : ∀ q, ¬ KillTarget c pid s q := by
      intro q hq
      obtain ⟨h1, h2⟩ := (htarget q).mp hq
      have := Fin.find?_eq_none_iff.mp hfind q
      simp [h1, h2] at this
    rw [killConfined_of_missed hkill]
    refine iff_of_true (fun ⟨q, hq, _⟩ => hno q hq) fun ⟨q, hq⟩ => absurd ((htarget q).mpr hq) (hno q)
  | some p =>
    rw [hfind] at hkill
    have hp := (Fin.find?_eq_some_iff.mp hfind).1
    simp only [Bool.and_eq_true, beq_iff_eq] at hp
    rw [killConfined_of_killed hkill ((htarget p).mpr hp)]
    simp only [htarget, and_assoc]
    exact ⟨fun h _ => h, fun h => h ⟨p, hp⟩⟩

/-- `kill` from the root container: the pid belongs to one slot, or it is 0. -/
theorem killConfined_iff_root (hn : Numbered s) (hintact : RootIntact (s.view none))
    (hc : s.mycont k = some c) (hroot : (s.cont c).isroot = 1) :
    KillConfined k c pid s ↔ KillClear c pid s := by
  have htarget : ∀ q, KillTarget c pid s q ↔ (s.proc q).cont = some c ∧ (s.proc q).pid = pid := by
    intro q
    rw [KillTarget, if_pos hroot]
  rw [KillClear, if_pos hroot]
  cases hfind : Fin.find? fun p => (s.proc p).pid == pid with
  | none =>
    have hno : ∀ q, (s.proc q).pid ≠ pid := by
      intro q hq
      have := Fin.find?_eq_none_iff.mp hfind q
      simp [hq] at this
    have hkill : kill k pid s = some (s, -1) := by simp [kill, hc, hroot, hfind]
    rw [killConfined_of_missed hkill]
    exact iff_of_true (fun ⟨q, hq, _⟩ => hno q ((htarget q).mp hq).2)
      fun q hq => absurd hq (hno q)
  | some p =>
    have hp : (s.proc p).pid = pid := by simpa using (Fin.find?_eq_some_iff.mp hfind).1
    cases hcont : (s.proc p).cont with
    | none =>
      -- the null pointer is followed
      have hkill : kill k pid s = none := by simp [kill, hc, hroot, hfind, hcont]
      refine iff_of_false (fun ⟨s', r, h, _⟩ => ?_) fun h => ?_
      · rw [hkill] at h
        cases h
      · obtain ⟨d, hd, -⟩ := h p hp
        rw [hcont] at hd
        cases hd
    | some d =>
      have hne : (s.proc p).pid ≠ 0 := fun h0 => by
        rw [(hn.null p).mp h0] at hcont
        cases hcont
      have honly : ∀ q, (s.proc q).pid = pid → q = p := fun q hq =>
        (hn.unique p q (hp.trans hq.symm) hne).symm
      by_cases hdc : d = c
      · subst hdc
        have hkill : kill k pid s = some (s.setProc p (s.proc p).kill, 0) := by
          simp [kill, hc, hroot, hfind, hcont]
        rw [killConfined_of_killed hkill ((htarget p).mpr ⟨hcont, hp⟩)]
        constructor
        · rintro ⟨q, hq, hlive⟩ r hr
          rw [honly q ((htarget q).mp hq).2] at hlive
          rw [honly r hr]
          exact ⟨d, hcont, fun _ => hlive⟩
        · intro h
          obtain ⟨e, he, hlive⟩ := h p hp
          cases hcont.symm.trans he
          exact ⟨p, (htarget p).mpr ⟨hcont, hp⟩, hlive rfl⟩
      have hroot' : (s.cont d).isroot ≠ 1 := by
        intro h1
        have hd := hintact.eq_root (c := d) (by show (s.cont d).isroot ≠ 0; omega)
        have hcr := hintact.eq_root (c := c) (by show (s.cont c).isroot ≠ 0; omega)
        exact hdc (hd.trans hcr.symm)
      have hkill : kill k pid s = some (s, -1) := by simp [kill, hc, hroot, hfind, hcont, hroot']
      rw [killConfined_of_missed hkill]
      refine iff_of_true ?_ fun q hq => ?_
      · rintro ⟨q, hq, -⟩
        obtain ⟨hqc, hqp⟩ := (htarget q).mp hq
        rw [honly q hqp, hcont] at hqc
        cases hqc
        exact hdc rfl
      · rw [honly q hq]
        exact ⟨d, hcont, fun hd => absurd hd hdc⟩

/-- **`kill` is safe and confined, exactly** when no slot that is free, or was left by a failed `allocproc`, carries the
number. -/
theorem kill_confined_iff {free : Nat} {p : Slot}
    (h : Lib.Reach step (fun _ _ => True) (boot free) s) (ht : trap k s = some p) :
    ∃ c, s.mycont k = some c ∧ ∀ pid, KillConfined k c pid s ↔ KillClear c pid s := by
  obtain ⟨c, hc⟩ := exists_mycont h ht
  refine ⟨c, hc, fun pid => ?_⟩
  by_cases hroot : (s.cont c).isroot = 1
  · exact killConfined_iff_root (reach_numbered h) (reach_rootIntact h) hc hroot
  · exact killConfined_iff_local hc hroot

/-- Init kills itself. -/
theorem kill_confined_iff_init : ∃ s, Lib.Reach step (fun _ _ => True) (boot 100) s ∧
    KillConfined 1 ROOTCONT 1 s := by
  obtain ⟨s, hs, h1⟩ := Lib.Reach.of_any step (fun _ _ => True) (boot 100) [.sched 0, .sched 1]
    (fun s => trap 1 s == some 0 && s.mycont 1 == some ROOTCONT &&
      (s.cont ROOTCONT).isroot == 1 && decide (∀ q, (s.proc q).pid = 1 →
        (s.proc q).cont = some ROOTCONT ∧ (s.proc q).state ≠ .unused)) (by decide)
  simp only [Bool.and_eq_true, beq_iff_eq, decide_eq_true_eq] at h1
  obtain ⟨⟨⟨htrap, hmy⟩, hroot⟩, hlive⟩ := h1
  obtain ⟨c, hc, hiff⟩ := kill_confined_iff hs htrap
  cases hmy.symm.trans hc
  refine ⟨s, hs, (hiff 1).mpr ?_⟩
  rw [KillClear, if_pos hroot]
  exact fun q hq => ⟨ROOTCONT, (hlive q hq).1, fun _ => (hlive q hq).2⟩

/-- Init calls `kill(0)`, and the container pointer of a free slot is followed. -/
theorem kill_zero_faults :
    ¬ ∀ (free : Nat) (s : State) (k : Fin NCPU) (p : Slot) (c : Cid) (pid : Int),
      Lib.Reach step (fun _ _ => True) (boot free) s → trap k s = some p → s.mycont k = some c →
        KillConfined k c pid s := by
  intro h
  obtain ⟨s, hs, h1⟩ := Lib.Reach.of_any step (fun _ _ => True) (boot 100) [.sched 0, .sched 1]
    (fun s => trap 1 s == some 0 && s.mycont 1 == some ROOTCONT && (kill 1 0 s).isNone)
    (by decide +kernel)
  simp only [Bool.and_eq_true, beq_iff_eq, Option.isNone_iff_eq_none] at h1
  obtain ⟨⟨htrap, hmy⟩, hnone⟩ := h1
  obtain ⟨s', r, hkill, -⟩ := h 100 s 1 0 ROOTCONT 0 hs htrap hmy
  rw [hnone] at hkill
  cases hkill

end Xv6.Kernel
