/-
# Xv6.Kernel.Accounting — `used_proc` counts the processes of a container.

The counter is raised at the end of `fork`, when the child may already run, lowered by `freeproc` whoever
calls it, and cleared with the container.  It is right as long as no limit is hit and nothing comes between
the child and its count; a container that is torn down leaves its processes behind, and the next container
in the slot starts counting at zero with them in it.
-/
import Xv6.Kernel.Binding
import Xv6.Kernel.Progress
import Mathlib.Data.Fintype.Card

namespace Xv6.Kernel

open Finset

variable {s s' : State} {v v' : View} {a : Act} {p : Slot} {c : Cid}

def View.members (v : View) (c : Cid) : Finset Slot := Finset.univ.filter fun p => v.Owns p c

@[simp] theorem View.mem_members : p ∈ v.members c ↔ v.Owns p c := by simp [View.members]

theorem Fires.owns_iff (hf : Fires v a v') (hsusp : ∀ q, a ≠ .suspend q) (hlapse : ∀ k q, a ≠ .lapse k q)
    (p : Slot) (c : Cid) :
    v'.Owns p c ↔ (v.Owns p c ∧ a ≠ .reap p ∧ a ≠ .stop c) ∨ a = .birth p c ∨ a = .stray p c := by
  unfold View.Owns
  cases hf with
  | wake f hf =>
    have := Fires.wake_unused hf p
    grind
  | _ => grind [PView.free, PView.kill]

theorem Fires.members_eq (hf : Fires v a v') (hsusp : ∀ q, a ≠ .suspend q) (hlapse : ∀ k q, a ≠ .lapse k q)
    (hbirth : ∀ p, a ≠ .birth p c) (hstray : ∀ p, a ≠ .stray p c)
    (hreap : ∀ p, a = .reap p → (v.proc p).cont ≠ some c) (hstop : a ≠ .stop c) :
    v'.members c = v.members c := by
  ext p
  rw [View.mem_members, View.mem_members, hf.owns_iff hsusp hlapse]
  constructor
  · rintro (⟨h, -⟩ | h | h)
    · exact h
    · exact absurd h (hbirth p)
    · exact absurd h (hstray p)
  · exact fun h => .inl ⟨h, fun hr => hreap p hr h.2, hstop⟩

/-! ## The counter -/

/-- In a container in use that is not the root, `used_proc` is the number of members
and within the limit. -/
def Counted (v : View) : Prop :=
  ∀ c, (v.cont c).isroot = 0 → (v.cont c).state ≠ .cunused →
    (v.cont c).usedProc = (v.members c).card ∧ (v.cont c).usedProc ≤ (v.cont c).maxProc

/-- Away from births, reaping and creation an act leaves the counter and the limit alone. -/
theorem Fires.counter_eq (hf : Fires v a v') (hbirth : ∀ p, a ≠ .birth p c)
    (hcreate : ∀ n, a ≠ .create c n) (hreap : ∀ p, a = .reap p → (v.proc p).cont ≠ some c)
    (hforfeit : ∀ p, a ≠ .forfeit p) (hlimit : a ≠ .limit c)
    (hused : (v'.cont c).state ≠ .cunused) :
    (v'.cont c).usedProc = (v.cont c).usedProc ∧ (v'.cont c).maxProc = (v.cont c).maxProc ∧
      (v'.cont c).isroot = (v.cont c).isroot ∧ (v.cont c).state ≠ .cunused := by
  cases hf <;> grind [CView.freed, CView.recycled]

theorem Counted.birth (h : Counted v) (hf : Fires v (.birth p c) v')
    (hroot : (v'.cont c).isroot = 0) (hused : (v'.cont c).state ≠ .cunused) :
    (v'.cont c).usedProc = (v'.members c).card ∧ (v'.cont c).usedProc ≤ (v'.cont c).maxProc := by
  have hmem : v'.members c = insert p (v.members c) := by
    ext q
    rw [View.mem_members, mem_insert, View.mem_members, hf.owns_iff (by simp) (by simp)]
    simp [or_comm, eq_comm]
  cases hf with
  | birth hpend hu hc hfull =>
    simp only [View.withCont_cont, Function.update_self, CView.count_isroot, CView.count_state] at hroot hused
    obtain ⟨hcard, hmax⟩ := h c hroot hused
    have hfresh : p ∉ v.members c := by rw [View.mem_members]; exact fun ho => ho.1 hu
    have hroom : ¬ (v.cont c).usedProc + 1 > (v.cont c).maxProc := fun ho => hfull ⟨hused, ho⟩
    rw [hmem, card_insert_of_notMem hfresh]
    simp only [View.withCont_cont, Function.update_self, CView.count, if_neg hused, if_neg hroom]
    split <;> constructor <;> push_cast <;> omega

theorem Counted.reap (h : Counted v) (hf : Fires v (.reap p) v') (hpc : (v.proc p).cont = some c)
    (hroot : (v'.cont c).isroot = 0) (hused : (v'.cont c).state ≠ .cunused) :
    (v'.cont c).usedProc = (v'.members c).card ∧ (v'.cont c).usedProc ≤ (v'.cont c).maxProc := by
  have hmem : v'.members c = (v.members c).erase p := by
    ext q
    rw [View.mem_members, mem_erase, View.mem_members, hf.owns_iff (by simp) (by simp)]
    simp [and_comm, eq_comm]
  cases hf with
  | reap hz =>
    simp only [View.release_cont, if_pos hpc, CView.count_isroot, CView.count_state] at hroot hused
    obtain ⟨hcard, hmax⟩ := h c hroot hused
    have hin : p ∈ v.members c := by rw [View.mem_members]; exact ⟨by rw [hz]; simp, hpc⟩
    have hpos : 0 < (v.members c).card := card_pos.mpr ⟨p, hin⟩
    have hroom : ¬ (v.cont c).usedProc + -1 > (v.cont c).maxProc := by omega
    have herase := card_erase_of_mem hin
    rw [hmem]
    simp only [View.release_cont, if_pos hpc, CView.count, if_neg hused, if_neg hroom]
    split <;> constructor <;> omega

/-- Every act keeps the counters right, if it tears nothing down, gives up no child and sets no limit;
a child that is not counted must belong to the root. -/
theorem Counted.fires (h : Counted v) (hb : Bound v) (hf : Fires v a v')
    (hsusp : ∀ p, a ≠ .suspend p) (hlapse : ∀ k p, a ≠ .lapse k p) (hforfeit : ∀ p, a ≠ .forfeit p)
    (hlimit : ∀ c, a ≠ .limit c)
    (hstray : ∀ p c, a = .stray p c → (v.cont c).isroot ≠ 0) : Counted v' := by
  intro c hroot hused
  by_cases hbirth : ∃ p, a = .birth p c
  · obtain ⟨p, rfl⟩ := hbirth
    exact h.birth hf hroot hused
  by_cases hcreate : ∃ n, a = .create c n
  · -- the slot was free, so nothing points to it
    obtain ⟨n, rfl⟩ := hcreate
    have hmem : v'.members c = ∅ := by
      ext p
      rw [View.mem_members, hf.owns_iff (by simp) (by simp)]
      simp only [ne_eq, reduceCtorEq, not_false_eq_true, and_self, and_true, or_self, or_false, notMem_empty, iff_false]
      intro ho
      obtain ⟨d, hd, hd'⟩ := hb.cont p (.inl ho.1)
      cases ho.2.symm.trans hd
      cases hf
      contradiction
    rw [hmem]
    cases hf
    simp [CView.created]
  by_cases hreap : ∃ p, a = .reap p ∧ (v.proc p).cont = some c
  · obtain ⟨p, rfl, hpc⟩ := hreap
    exact h.reap hf hpc hroot hused
  have hbirth' : ∀ p, a ≠ .birth p c := fun p hp => hbirth ⟨p, hp⟩
  have hreap' : ∀ p, a = .reap p → (v.proc p).cont ≠ some c := fun p hp hc => hreap ⟨p, hp, hc⟩
  obtain ⟨hu, hm, hr, hs⟩ := hf.counter_eq hbirth' (fun n hn => hcreate ⟨n, hn⟩) hreap' hforfeit
    (hlimit c) hused
  have hstop : a ≠ .stop c := by
    rintro rfl
    cases hf
    simp [View.stop, CView.freed] at hused
  have hmem : v'.members c = v.members c :=
    hf.members_eq hsusp hlapse hbirth' (fun p hp => hstray p c hp (hr ▸ hroot)) hreap' hstop
  rw [hu, hm, hmem]
  exact h c (hr ▸ hroot) hs

theorem counted_boot (free : Nat) : Counted ((boot free).view none) := by
  intro c hroot hused
  by_cases h0 : c = ROOTCONT
  · subst h0
    simp [State.view, boot, Container.view, rootCont] at hroot
  · simp [State.view, boot, h0, Container.view, Container.zero] at hused

/-! ## Runs within the limits -/

/-- The events of a run of calls on groups that stays within the limits. -/
def GroupsOrderly (s : State) (e : Event) : Prop := e.onGroups = true ∧ WithinLimits s e ∧ SparesCurrent s e
deriving Decidable

theorem GroupsOrderly.orderly {e : Event} (h : GroupsOrderly s e) : Orderly s e := by
  refine ⟨?_, h.2⟩
  cases e with
  | call k x =>
    cases x with
    | suspend pid n => cases h.1
    | _ => rfl
  | _ => rfl

/-- `used_proc` of every container in use that is not the root is the number of
slots in use that point to it. -/
def ProcCounted (s : State) : Prop :=
  ∀ c, (s.cont c).isroot = 0 → (s.cont c).state ≠ .cunused →
    (s.cont c).usedProc =
      (Finset.univ.filter fun p => (s.proc p).state ≠ .unused ∧ (s.proc p).cont = some c).card
deriving Decidable

theorem reach_counted {free : Nat} (h : Lib.Reach step GroupsOrderly (boot free) s) : ProcCounted s := by
  have hboth : Tables (s.view none) ∧ Counted (s.view none) := by
    refine reach_view (I := fun v => Tables v ∧ Counted v) ⟨tables_boot free, counted_boot free⟩
      (fun s e v a v' hok hs hv hp hf => ?_) h
    refine ⟨Tables.fires hok.orderly hs.1 hv.1 hp hf, hv.2.fires hv.1.bound hf ?_ ?_ ?_ ?_ ?_⟩
    · rintro p rfl
      obtain ⟨-, k, pid, n, rfl, -⟩ := hp
      cases hok.1
    · rintro k p rfl
      exact hs.1.cpu.no_lapse hp
    · rintro p rfl
      exact hp hok.2.1
    · rintro c rfl
      obtain ⟨k, name, n, rfl⟩ := hp
      cases hok.1
    · rintro p c rfl
      have hroot : (s.cont c).isroot ≠ 0 := hp.resolve_left fun hw => hw hok.2.1
      rw [hs.1.root.eq_root hroot, hv.1.root.isroot]
      decide
  exact fun c hroot hused => (hboth.2 c hroot hused).1

/-- **The process counters are right while the limits hold and no `fork` is interrupted**: whenever no child
is waiting to be counted. -/
theorem procCounted_of_groupsOrderly {free : Nat} {f : Fine}
    (h : Lib.Reach Fine.step (Keeps GroupsOrderly) (Fine.boot free) f) (howed : ∀ p, f.owed p = none) :
    ProcCounted f.base := by
  cases follows h with
  | whole h => exact reach_counted h
  | @forking _ _ p _ _ _ _ hp => cases (howed p).symm.trans hp

/-- A run within the limits with two processes in a container, one of them reaped. -/
theorem procCounted_run : ∃ f, Lib.Reach Fine.step (Keeps GroupsOrderly) (Fine.boot 100) f ∧
    (f.base.cont 1).usedProc = 1 ∧ ProcCounted f.base := by
  obtain ⟨f, hf, h1⟩ := Lib.Reach.of_any Fine.step (Keeps GroupsOrderly) (Fine.boot 100)
    [.look 0, .pick 0, .look 1, .pick 1, .take 1, .event (.call 1 (.ccreate nameC (some 5))),
      .event (.call 1 (.cfork nameC)), .count 1, .event (.call 1 (.cfork nameC)), .count 1,
      .event (.call 1 (.cstart nameC nameV 0)), .look 0, .pick 0, .look 2, .pick 2, .take 2, .look 2, .pick 2, .take 2,
      .event (.call 2 (.exit 0)), .event (.call 1 (.wait false))]
    (fun f => (f.base.cont 1).usedProc == 1 && decide (∀ p, f.owed p = none)) (by decide +kernel)
  rw [Bool.and_eq_true, beq_iff_eq, decide_eq_true_eq] at h1
  exact ⟨f, hf, h1.1, procCounted_of_groupsOrderly hf h1.2⟩

/-- Nine processes are forked into a container that may have eight.  It is torn down with the ninth,
and the container created next in its slot starts at zero with nine processes in it. -/
theorem not_procCounted : ¬ ∀ free f, Lib.Reach Fine.step (Keeps fun _ e => e.onGroups = true) (Fine.boot free) f →
    (∀ p, f.owed p = none) → ProcCounted f.base := by
  intro h
  obtain ⟨f, hf, h1⟩ := Lib.Reach.of_any Fine.step (Keeps fun _ e => e.onGroups = true) (Fine.boot 100)
    (startsC 0 ++
      (List.replicate 9 [.event (.call 1 (.cfork nameC)), .count 1]).flatten ++
      [.event (.call 1 (.ccreate nameC (some 5)))])
    (fun f => !decide (ProcCounted f.base) && decide (∀ p, f.owed p = none)) (by decide +kernel)
  rw [Bool.and_eq_true, decide_eq_true_eq] at h1
  exact absurd (h 100 f hf h1.2) (by simpa using h1.1)

end Xv6.Kernel
