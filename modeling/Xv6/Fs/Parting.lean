/-
# Xv6.Fs.Parting — nobody else holds an inode that `iput` frees.

`iput` looks for the last reference under `icache.lock` and frees the inode after giving that lock back.
That nobody gets a reference in between rests on the callers of `iget`: they name inodes that have links,
or the one that `ialloc` has just written (`Linked`).  The invariant says where the exceptions are: an
entry of a free inode is held only by processes that have freed it and are on their way out (`Leaving`),
and so is an entry of an inode that somebody has claimed and not yet got.
-/
import Xv6.Fs.Blocks

namespace Xv6.Fs.Icache

open Function
open Kernel (Cid)
open Lib (Reach)

variable {τ : Type} {s : Icache τ} {stage : Stage}

/-- Whoever holds `ip` has cleared the type of its inode. -/
def Leaving (s : Icache τ) (ip : Iptr) : Prop :=
  ∀ u, 0 < s.held u ip → s.pc u = .freeing ip .cleared ∨ s.pc u = .freeing ip .released

theorem not_leaving {t : τ} {ip : Iptr} (hheld : 0 < s.held t ip)
    (hc : s.pc t ≠ .freeing ip .cleared) (hr : s.pc t ≠ .freeing ip .released) : ¬ s.Leaving ip :=
  fun h => (h t hheld).elim hc hr

/-- Entries of free inodes are being left; so are entries of inodes that `ialloc` has
claimed for somebody; and the stages of `iput` before the type is cleared have the last reference. -/
structure Parting (sb : Superblock) (s : Icache τ) : Prop where
  free : ∀ ip, 0 < (s.entry ip).ref → (readInode sb s.store.disk (s.entry ip).inum).type = 0 → s.Leaving ip
  claimed : ∀ t i, s.pc t = .claimed i →
    (readInode sb s.store.disk i).type ≠ 0 ∧ (readInode sb s.store.disk i).nlink = 0 ∧
      ∀ ip, 0 < (s.entry ip).ref → (s.entry ip).inum = i → s.Leaving ip
  sole : ∀ t u i, s.pc t = .claimed i → s.pc u = .claimed i → t = u
  last : ∀ t ip stage, s.pc t = .freeing ip stage → stage = .locked ∨ stage = .truncated →
    (s.entry ip).ref = 1 ∧ (s.entry ip).copy.nlink = 0

namespace Parting

variable {sb : Superblock} {s s' : Icache τ} {t u : τ} {ip jp : Iptr} {p : Pc} {e : Entry τ}

theorem leaving_other (hl : Local s s' t ip) (hpc : ∀ kp stage, s.pc t = .freeing kp stage → kp = ip)
    (hjp : jp ≠ ip) (h : s.Leaving jp) : s'.Leaving jp := by
  intro u hu
  rw [hl.held u jp (.inr hjp)] at hu
  have hleave := h u hu
  have hut : u ≠ t := by
    rintro rfl
    rcases hleave with hf | hf
    · exact hjp (hpc jp _ hf)
    · exact hjp (hpc jp _ hf)
  rwa [hl.pc u hut]

theorem leaving_setPc [DecidableEq τ] (hpc : ∀ kp stage, s.pc t ≠ .freeing kp stage) (h : s.Leaving jp) :
    (s.setPc t p).Leaving jp := by
  intro u hu
  have hleave := h u hu
  have hut : u ≠ t := by
    rintro rfl
    rcases hleave with hf | hf
    · exact hpc jp _ hf
    · exact hpc jp _ hf
  rwa [setPc_pc_of_ne s t p hut]

/-- **The rule for a new reference** to an allocated inode that nobody has claimed. -/
theorem take (h : Parting sb s) (hl : Local s s' t ip) (he : s'.entry ip = e)
    (hp : s'.pc t = .idle) (hdisk : s'.store = s.store) (hpc : ∀ kp stage, s.pc t ≠ .freeing kp stage)
    (htype : (readInode sb s.store.disk e.inum).type ≠ 0) (hclaim : ∀ u, u ≠ t → s.pc u ≠ .claimed e.inum)
    (hlast : ∀ u stage, stage = .locked ∨ stage = .truncated → s.pc u ≠ .freeing ip stage) :
    Parting sb s' := by
  subst he
  have hpc' : ∀ kp stage, s.pc t = .freeing kp stage → kp = ip := fun kp stage hf => absurd hf (hpc kp stage)
  have hother : ∀ u i, s'.pc u = .claimed i → u ≠ t ∧ s.pc u = .claimed i := by
    intro u i hu
    have hut : u ≠ t := by
      rintro rfl
      cases hp.symm.trans hu
    exact ⟨hut, hl.pc u hut ▸ hu⟩
  constructor
  case free =>
    intro kp hk htk
    rw [hdisk] at htk
    by_cases hkp : kp = ip
    · subst hkp
      exact absurd htk htype
    · rw [hl.entry kp hkp] at hk htk
      exact leaving_other hl hpc' hkp (h.free kp hk htk)
  case claimed =>
    intro u i hu
    obtain ⟨hut, hu⟩ := hother u i hu
    obtain ⟨ht, hn, hent⟩ := h.claimed u i hu
    rw [hdisk]
    refine ⟨ht, hn, fun kp hk hki => ?_⟩
    by_cases hkp : kp = ip
    · subst hkp
      exact absurd (hki ▸ hu) (hclaim u hut)
    · rw [hl.entry kp hkp] at hk hki
      exact leaving_other hl hpc' hkp (hent kp hk hki)
  case sole =>
    intro u v i hu hv
    exact h.sole u v i (hother u i hu).2 (hother v i hv).2
  case last =>
    intro u kp stage hu hstage
    have hut : u ≠ t := by
      rintro rfl
      cases hp.symm.trans hu
    rw [hl.pc u hut] at hu
    by_cases hkp : kp = ip
    · subst hkp
      exact absurd hu (hlast u stage hstage)
    · rw [hl.entry kp hkp]
      exact h.last u kp stage hu hstage

variable [DecidableEq τ]

theorem setPc (h : Parting sb s) (hold : ∀ kp stage, s.pc t ≠ .freeing kp stage)
    (hnew : ∀ kp stage, p ≠ .freeing kp stage) (hclaim : ∀ i, p ≠ .claimed i) : Parting sb (s.setPc t p) := by
  have hother : ∀ u i, (s.setPc t p).pc u = .claimed i → s.pc u = .claimed i := by
    intro u i hu
    by_cases hut : u = t
    · subst hut
      rw [setPc_pc] at hu
      exact absurd hu (hclaim i)
    · exact setPc_pc_of_ne s t p hut ▸ hu
  refine ⟨fun jp hj htj => leaving_setPc hold (h.free jp hj htj), ?_, ?_, ?_⟩
  · intro u i hu
    obtain ⟨ht, hn, hent⟩ := h.claimed u i (hother u i hu)
    exact ⟨ht, hn, fun jp hj hji => leaving_setPc hold (hent jp hj hji)⟩
  · exact fun u v i hu hv => h.sole u v i (hother u i hu) (hother v i hv)
  intro u kp stage hu
  by_cases hut : u = t
  · subst hut
    rw [setPc_pc] at hu
    exact absurd hu (hnew kp stage)
  · rw [setPc_pc_of_ne s t p hut] at hu
    exact h.last u kp stage hu

theorem give (h : Parting sb s) (ht : s.pc t = .idle)
    (hheld : 0 < s.held t ip) :
    Parting sb ((s.setHeld t ip (s.held t ip - 1)).setHeld u ip (s.held u ip + 1)) := by
  have hnl : ¬ s.Leaving ip := not_leaving hheld (by rw [ht]; exact Pc.noConfusion) (by rw [ht]; exact Pc.noConfusion)
  have hkeep : ∀ jp, s.Leaving jp → ((s.setHeld t ip (s.held t ip - 1)).setHeld u ip (s.held u ip + 1)).Leaving jp := by
    intro jp hjp v hv
    have hne : jp ≠ ip := by
      rintro rfl
      exact hnl hjp
    have hsame : ((s.setHeld t ip (s.held t ip - 1)).setHeld u ip (s.held u ip + 1)).held v jp = s.held v jp :=
      (Local.held (Local.refl.setHeld _) v jp (.inr hne)).trans
        (Local.held (Local.refl.setHeld _) v jp (.inr hne))
    exact hjp v (hsame ▸ hv)
  refine ⟨fun jp hj htj => hkeep jp (h.free jp hj htj), ?_, h.sole, h.last⟩
  intro v i hv
  obtain ⟨ht, hn, hent⟩ := h.claimed v i hv
  exact ⟨ht, hn, fun jp hj hji => hkeep jp (hent jp hj hji)⟩

variable [Fintype τ] (h : Parting sb s)
include h

section

variable (hc : Coherent sb s)
include hc

/-- While `t` holds `ip`, no other process is about to free it. -/
theorem not_last (hheld : 0 < s.held t ip) (hne : u ≠ t)
    (hstage : stage = .locked ∨ stage = .truncated) : s.pc u ≠ .freeing ip stage := by
  intro hu
  have hone := (h.last u ip stage hu hstage).1
  have hheld' := (hc.freeing u ip stage hu).1
  have hsum := hc.held_add_le hne ip
  omega

section

variable (hl : Local s s' t ip) (he : s'.entry ip = e) (hp : s'.pc t = p) (hheld : 0 < s.held t ip)
  (hinum : e.inum = (s.entry ip).inum)
  (hlast : ∀ kp stage, p = .freeing kp stage → stage = .locked ∨ stage = .truncated →
    kp = ip ∧ e.ref = 1 ∧ e.copy.nlink = 0)
  (hclaim : ∀ i, p ≠ .claimed i)
include hl he hp hheld hinum hlast hclaim

/-- **The rule for a step of a holder.** -/
theorem hold (hpc : ∀ kp stage, s.pc t = .freeing kp stage → kp = ip)
    (hdisk : ∀ j, j < sb.ninodes → j ≠ e.inum → readInode sb s'.store.disk j = readInode sb s.store.disk j)
    (hleave : s.Leaving ip → readInode sb s'.store.disk e.inum = readInode sb s.store.disk e.inum ∧ s'.Leaving ip)
    (htype : ¬ s.Leaving ip → 0 < e.ref → (readInode sb s'.store.disk e.inum).type = 0 → s'.Leaving ip) :
    Parting sb s' := by
  subst he hp
  have hused := hc.ref_pos hheld
  have hother : ∀ u, ∀ i, s'.pc u = .claimed i → u ≠ t ∧ s.pc u = .claimed i := by
    intro u i hu
    have hut : u ≠ t := by
      rintro rfl
      exact hclaim i hu
    exact ⟨hut, hl.pc u hut ▸ hu⟩
  constructor
  case free =>
    intro kp hk htk
    by_cases hkp : kp = ip
    · subst hkp
      by_cases hlv : s.Leaving kp
      · exact (hleave hlv).2
      · exact htype hlv hk htk
    rw [hl.entry kp hkp] at hk htk
    have hne : (s.entry kp).inum ≠ (s'.entry ip).inum := fun heq => hkp (hc.uniq kp ip hk hused (heq.trans hinum))
    rw [hdisk _ (hc.bound kp hk) hne] at htk
    exact leaving_other hl hpc hkp (h.free kp hk htk)
  case claimed =>
    intro u i hu
    obtain ⟨-, hu⟩ := hother u i hu
    obtain ⟨ht, hn, hent⟩ := h.claimed u i hu
    have hsame : readInode sb s'.store.disk i = readInode sb s.store.disk i := by
      by_cases hi : i = (s'.entry ip).inum
      · rw [hi]
        exact (hleave (hent ip hused (hi.trans hinum).symm)).1
      · exact hdisk i (hc.claims u i hu) hi
    rw [hsame]
    refine ⟨ht, hn, fun kp hk hki => ?_⟩
    by_cases hkp : kp = ip
    · subst hkp
      exact (hleave (hent kp hused (hinum.symm.trans hki))).2
    · rw [hl.entry kp hkp] at hk hki
      exact leaving_other hl hpc hkp (hent kp hk hki)
  case sole =>
    intro u v i hu hv
    exact h.sole u v i (hother u i hu).2 (hother v i hv).2
  case last =>
    intro u kp stage hu hstage
    by_cases hut : u = t
    · subst hut
      obtain ⟨rfl, hone, hn⟩ := hlast kp stage hu hstage
      exact ⟨hone, hn⟩
    rw [hl.pc u hut] at hu
    by_cases hkp : kp = ip
    · subst hkp
      exact absurd hu (h.not_last hc hheld hut hstage)
    · rw [hl.entry kp hkp]
      exact h.last u kp stage hu hstage

theorem active (hnl : ¬ s.Leaving ip) (hpc : ∀ kp stage, s.pc t = .freeing kp stage → kp = ip)
    (hdisk : ∀ j, j < sb.ninodes → j ≠ e.inum → readInode sb s'.store.disk j = readInode sb s.store.disk j)
    (htype : (readInode sb s'.store.disk e.inum).type = 0 → s'.Leaving ip) : Parting sb s' :=
  h.hold hc hl he hp hheld hinum hlast hclaim hpc hdisk (fun hlv => absurd hlv hnl) fun _ _ => htype

theorem quiet (hidle : s.pc t = .idle) (hstore : s'.store = s.store) : Parting sb s' := by
  have hpc := idle_ne hidle
  have hnl : ¬ s.Leaving ip := not_leaving hheld (hpc ip _) (hpc ip _)
  refine h.active hc hl he hp hheld hinum hlast hclaim hnl (fun kp stage hf => absurd hf (hpc kp stage)) ?_ ?_
  · intro j _ _
    rw [hstore]
  · rw [hstore, hinum]
    exact fun ht => absurd (h.free ip (hc.ref_pos hheld) ht) hnl

end

theorem idleWork {x : DiskInode} {st : Store} (hw : s.Works t ip)
    (hwrote : Wrote sb (s.entry ip).inum x s.store.disk st.disk) (htype : x.type = (s.entry ip).copy.type) :
    Parting sb { s.set ip { s.entry ip with copy := x } with store := st } := by
  obtain ⟨hidle, hlock⟩ := hw
  have hpc := idle_ne hidle
  have hnode := hc.node ⟨hidle, hlock⟩
  have hheld := (hc.locked ip t hlock).1
  refine h.active hc ((Local.refl.set _).store st) (set_entry s ip _) hidle hheld rfl (fun _ _ => Pc.noConfusion)
    (fun _ => Pc.noConfusion) (not_leaving hheld (hpc ip _) (hpc ip _)) (fun kp stage hf => absurd hf (hpc kp stage))
    hwrote.others ?_
  intro ht
  rw [hwrote.self, htype] at ht
  exact absurd ht (inodesOf_eq_some.mp hnode).2.1

theorem claim {type : NodeType} {inum : Nat}
    (hold : ∀ kp stage, s.pc t ≠ .freeing kp stage) (hi : inum < sb.ninodes)
    (hfree : (readInode sb s.store.disk inum).type = 0) :
    Parting sb { s.setPc t (.claimed inum) with store := Fs.iupdate sb inum (newInode type) s.store } := by
  have hread : ∀ j, j < sb.ninodes → readInode sb (writeInode sb inum (newInode type) s.store.disk) j =
      if j = inum then newInode type else readInode sb s.store.disk j := fun j hj => readInode_writeInode hi hj
  have hother : ∀ u i, (s.setPc t (.claimed inum)).pc u = .claimed i → u ≠ t → s.pc u = .claimed i ∧ i ≠ inum := by
    intro u i hu hut
    rw [setPc_pc_of_ne s t _ hut] at hu
    refine ⟨hu, ?_⟩
    rintro rfl
    exact (h.claimed u i hu).1 hfree
  constructor
  case free =>
    intro jp hj htj
    have hb : (s.entry jp).inum < sb.ninodes := hc.bound jp hj
    have htj : (readInode sb (writeInode sb inum (newInode type) s.store.disk) (s.entry jp).inum).type = 0 := htj
    rw [hread _ hb] at htj
    by_cases hji : (s.entry jp).inum = inum
    · rw [if_pos hji] at htj
      exact absurd htj type.code_ne_zero
    · rw [if_neg hji] at htj
      exact leaving_setPc hold (h.free jp hj htj)
  case claimed =>
    intro u i hu
    by_cases hut : u = t
    · subst hut
      cases (setPc_pc s u (.claimed inum)).symm.trans hu
      have hnew := (hread inum hi).trans (if_pos rfl)
      refine ⟨fun ht => type.code_ne_zero ((congrArg DiskInode.type hnew).symm.trans ht),
        congrArg DiskInode.nlink hnew, fun jp hj hji => leaving_setPc hold (h.free jp hj ?_)⟩
      rw [show (s.entry jp).inum = inum from hji]
      exact hfree
    · obtain ⟨hu, hne⟩ := hother u i hu hut
      obtain ⟨ht, hn, hent⟩ := h.claimed u i hu
      have hsame := (hread i (hc.claims u i hu)).trans (if_neg hne)
      exact ⟨fun ht' => ht ((congrArg DiskInode.type hsame).symm.trans ht'),
        (congrArg DiskInode.nlink hsame).trans hn, fun jp hj hji => leaving_setPc hold (hent jp hj hji)⟩
  case sole =>
    intro u v i hu hv
    by_cases hut : u = t <;> by_cases hvt : v = t
    · rw [hut, hvt]
    · subst hut
      cases (setPc_pc s u (.claimed inum)).symm.trans hu
      exact absurd rfl (hother v inum hv hvt).2
    · subst hvt
      cases (setPc_pc s v (.claimed inum)).symm.trans hv
      exact absurd rfl (hother u inum hu hut).2
    · exact h.sole u v i (hother u i hu hut).1 (hother v i hv hvt).1
  case last =>
    intro u kp stage hu
    have hut : u ≠ t := by
      rintro rfl
      cases (setPc_pc s u (.claimed inum)).symm.trans hu
    exact h.last u kp stage (setPc_pc_of_ne s t _ hut ▸ hu)

end

end Parting

/-! ## Every step -/

def Linked (sb : Superblock) (s : Icache τ) (e : Event τ) : Prop :=
  OnIget (fun inum => inum < sb.ninodes ∧ (readInode sb s.store.disk inum).type ≠ 0 ∧
    0 < (readInode sb s.store.disk inum).nlink.toInt) e
deriving Decidable

theorem Linked.inRange {sb : Superblock} {e : Event τ} (h : s.Linked sb e) : InRange sb e := by
  cases e with
  | iget t inum => exact h.1
  | _ => trivial

variable {sb : Superblock} {cont : τ → Cid} {s s' : Icache τ} {t : τ} {ip : Iptr} [DecidableEq τ]

theorem iget_local {inum : Nat} (h : s.iget t inum = .ok s') :
    ∃ ip, Local s s' t ip ∧ (s'.entry ip).inum = inum ∧ s'.store = s.store ∧ s'.pc = s.pc ∧
      (0 < (s.entry ip).ref → (s.entry ip).inum = inum) := by
  obtain ⟨ip, ⟨-, hinum, rfl⟩ | ⟨-, hfree, -, rfl⟩⟩ := iget_eq_ok h
  · refine ⟨ip, (Local.refl.set _).setHeld _, ?_, rfl, rfl, fun _ => hinum⟩
    rw [idup, setHeld_entry, set_entry]
    exact hinum
  · refine ⟨ip, (Local.refl.set _).setHeld _, ?_, rfl, rfl, fun hpos => absurd hfree hpos.ne'⟩
    rw [setHeld_entry, set_entry]

variable [Fintype τ]

omit [DecidableEq τ] in
/-- A process that is about to free an inode has read that it has no links. -/
theorem Parting.nlink_zero (h : Parting sb s) (hc : Coherent sb s)
    (hpc : s.pc t = .freeing ip stage) (hstage : stage = .locked ∨ stage = .truncated) :
    0 < (s.entry ip).ref ∧ (readInode sb s.store.disk (s.entry ip).inum).nlink = 0 := by
  have hlock := (hc.freeing t ip stage hpc).2.mpr (by rcases hstage with rfl | rfl <;> exact Stage.noConfusion)
  obtain ⟨hused, -, hnode⟩ := hc.works hlock (by rw [hpc]; rcases hstage with rfl | rfl <;> simp)
  rw [(inodesOf_eq_some.mp hnode).2.2]
  exact ⟨hused, (h.last t ip stage hpc hstage).2⟩

theorem Parting.step {e : Event τ} (h : Parting sb s) (hc : Coherent sb s) (hlink : s.Linked sb e)
    (hs : s.step sb cont e = some s') (hsated : s'.store.Sated) : Parting sb s' := by
  obtain ⟨hen, hact⟩ := step_eq_some.mp hs
  cases e with
  | iget t inum =>
    obtain ⟨-, htype, hnlink⟩ := hlink
    have hpos : (readInode sb s.store.disk inum).nlink ≠ 0 := by
      intro hz
      rw [hz] at hnlink
      exact absurd hnlink (by decide)
    obtain ⟨ip, hl, hinum, hstore, hpc, hold⟩ := iget_local hact
    refine h.take hl rfl ((congrFun hpc t).trans hen) hstore (idle_ne hen) (by rwa [hinum]) ?_ ?_
    · intro u _ hu
      rw [hinum] at hu
      exact hpos (h.claimed u inum hu).2.1
    · intro u stage hstage hu
      obtain ⟨hused, hz⟩ := h.nlink_zero hc hu hstage
      rw [hold hused] at hz
      exact hpos hz
  | igetNew t inum =>
    have hclaimed : s.pc t = .claimed inum := hen
    obtain ⟨htype, -, hent⟩ := h.claimed t inum hclaimed
    obtain ⟨ip, hl, hinum, hstore, hpc, hold⟩ := iget_local (s := s.setPc t .idle) hact
    have hpc0 := not_freeing hclaimed fun _ _ => Pc.noConfusion
    refine h.take ((Local.refl.setPc .idle).trans hl) rfl ((congrFun hpc t).trans (setPc_pc ..)) hstore hpc0
      (by rwa [hinum]) ?_ ?_
    · intro u hut hu
      rw [hinum] at hu
      exact hut (h.sole u t inum hu hclaimed)
    intro u stage hstage hu
    have hheld := (hc.freeing u ip stage hu).1
    have hpos : 0 < s.held u ip := by omega
    have hused := hc.ref_pos hpos
    rcases hent ip hused (hold hused) u hpos with hf | hf <;> cases hu.symm.trans hf <;>
      exact absurd hstage (by decide)
  | idup t ip =>
    cases hact
    exact h.quiet hc ((Local.refl.set _).setHeld _) (set_entry s ip _) hen.1 hen.2 rfl
      (fun _ _ => Pc.noConfusion) (fun _ => Pc.noConfusion) hen.1 rfl
  | give t u ip =>
    cases hact
    exact h.give hen.1 hen.2.2.2.1
  | ilock t ip =>
    obtain ⟨e, rfl, hinum⟩ := ilock_eq_ok hact
    exact h.quiet hc (Local.refl.set _) (set_entry s ip _) hen.1 hen.2.1 hinum
      (fun _ _ => Pc.noConfusion) (fun _ => Pc.noConfusion) hen.1 rfl
  | iunlock t ip =>
    cases iunlock_eq_ok hact
    exact h.quiet hc (Local.refl.set _) (set_entry s ip _) hen.1 (hc.locked ip t hen.2).1 rfl
      (fun _ _ => Pc.noConfusion) (fun _ => Pc.noConfusion) hen.1 rfl
  | iput t ip =>
    obtain ⟨hpc, hspare, -⟩ := hen
    cases hact
    unfold Icache.iput
    split
    · rename_i hf
      refine h.quiet hc ((Local.refl.set _).setPc _) (set_entry s ip _) (setPc_pc ..) hspare.1 rfl ?_
        (fun _ => Pc.noConfusion) hpc rfl
      intro kp stage hp _
      cases hp
      exact ⟨rfl, hf.1, hf.2.2⟩
    · exact h.quiet hc ((Local.refl.set _).setHeld _) (set_entry s ip _) hpc hspare.1 rfl
        (fun _ _ => Pc.noConfusion) (fun _ => Pc.noConfusion) hpc rfl
  | trunc t ip =>
    have hpc : s.pc t = .freeing ip .locked := hen
    obtain ⟨hone, hlock⟩ := hc.freeing t ip _ hpc
    obtain ⟨-, -, hnode⟩ := hc.works (hlock.mpr Stage.noConfusion) (by rw [hpc]; simp)
    obtain ⟨x, st, hf, rfl⟩ := work_eq_ok hact
    obtain ⟨x', st', hf', hw, htype, hnlink, -⟩ := itrunc_ok hc.wf hnode (cont t)
    cases hf.symm.trans hf'
    obtain ⟨href, hz⟩ := h.last t ip _ hpc (.inl rfl)
    have hheld : 0 < s.held t ip := by omega
    refine h.active hc (((Local.refl.setPc _).set _).store _) (set_entry _ ip _) (setPc_pc ..) hheld rfl ?_
      (fun _ => Pc.noConfusion) (not_leaving hheld (by rw [hpc]; simp) (by rw [hpc]; simp)) (freeing_ip hpc) hw.others ?_
    · intro kp stage hp _
      cases hp
      exact ⟨rfl, href, hnlink.trans hz⟩
    · intro ht
      refine absurd ((congrArg DiskInode.type hw.self).symm.trans ht) ?_
      rw [htype]
      exact (inodesOf_eq_some.mp hnode).2.1
  | clearType t ip =>
    have hpc : s.pc t = .freeing ip .truncated := hen
    obtain ⟨hone, hlock⟩ := hc.freeing t ip _ hpc
    obtain ⟨hused, -, -⟩ := hc.works (hlock.mpr Stage.noConfusion) (by rw [hpc]; simp)
    obtain ⟨href, -⟩ := h.last t ip _ hpc (.inr rfl)
    have hheld : 0 < s.held t ip := by omega
    cases hact
    have hw := wrote_free (x := { (s.entry ip).copy with type := 0 }) hc.wf (hc.bound ip hused) rfl
    refine h.active hc (((Local.refl.setPc _).set _).store _) (set_entry _ ip _) (setPc_pc ..) hheld rfl ?_
      (fun _ => Pc.noConfusion) (not_leaving hheld (by rw [hpc]; simp) (by rw [hpc]; simp)) (freeing_ip hpc) hw.others ?_
    · intro kp stage hp hstage
      cases hp
      exact absurd hstage (by decide)
    · -- the only holder is the process that has just cleared the type
      intro _ u hu
      have hut : u = t := by
        by_contra hne
        have hsum := hc.held_add_le hne ip
        have hu : 0 < s.held u ip := hu
        omega
      subst hut
      exact .inl (setPc_pc ..)
  | invalidate t ip =>
    have hpc : s.pc t = .freeing ip .cleared := hen
    have hone := (hc.freeing t ip _ hpc).1
    have hheld : 0 < s.held t ip := by omega
    have hused := hc.ref_pos hheld
    cases hact
    refine h.hold hc ((Local.refl.set _).setPc _) (set_entry s ip _) (setPc_pc ..) (by omega) rfl ?_
      (fun _ => Pc.noConfusion) (freeing_ip hpc) (fun _ _ _ => rfl) ?_ ?_
    · intro kp stage hp hstage
      cases hp
      exact absurd hstage (by decide)
    · refine fun hlv => ⟨rfl, fun u hu => ?_⟩
      by_cases hut : u = t
      · subst hut
        exact .inr (setPc_pc ..)
      · rw [setPc_pc_of_ne _ t _ hut]
        exact hlv u hu
    · exact fun hnl _ ht => absurd (h.free ip hused ht) hnl
  | dropRef t ip =>
    have hpc : s.pc t = .freeing ip .released := hen
    have hone := (hc.freeing t ip _ hpc).1
    have hheld : 0 < s.held t ip := by omega
    have hused := hc.ref_pos hheld
    cases hact
    have hl : Local s ((s.drop t ip).setPc t .idle) t ip := ((Local.refl.set _).setHeld _).setPc _
    refine h.hold hc hl (set_entry s ip _) (setPc_pc ..) (by omega) rfl (fun _ _ => Pc.noConfusion)
      (fun _ => Pc.noConfusion) (freeing_ip hpc) (fun _ _ _ => rfl) ?_ ?_
    · refine fun hlv => ⟨rfl, fun u hu => ?_⟩
      by_cases hut : u = t
      · subst hut
        have hzero : ((s.drop u ip).setPc u .idle).held u ip = s.held u ip - 1 := setHeld_held ..
        omega
      · rw [hl.pc u hut]
        exact hlv u (hl.held u ip (.inl hut) ▸ hu)
    · exact fun hnl _ ht => absurd (h.free ip hused ht) hnl
  | ialloc t type =>
    cases hact
    exact h.setPc (idle_ne hen) (fun _ _ => Pc.noConfusion) fun _ => Pc.noConfusion
  | probe t type inum =>
    have hpc : s.pc t = .scanning type inum := hen
    have hold := not_freeing hpc fun _ _ => Pc.noConfusion
    obtain ⟨hi, ⟨hfree, rfl⟩ | rfl⟩ := probe_eq_ok hact
    · exact h.claim hc hold hi hfree
    · exact h.setPc hold (fun _ _ => Pc.noConfusion) fun _ => Pc.noConfusion
  | readi t ip dst off n | writei t ip src off n | itrunc t ip | iupdate t ip major minor nlink =>
    obtain ⟨hw, x, st, rfl, hwrote, htype⟩ := hc.worked rfl hs hsated
    exact h.idleWork hc hw hwrote htype

/-! ## Every run -/

omit [Fintype τ] [DecidableEq τ] in
theorem Parting.of_empty (h : s.Empty) : Parting sb s where
  free ip hip := absurd (h.ref ip) hip.ne'
  claimed t i ht := by cases (h.pc t).symm.trans ht
  sole t u i ht := by cases (h.pc t).symm.trans ht
  last t ip stage ht := by cases (h.pc t).symm.trans ht

def Fed (sb : Superblock) (cont : τ → Cid) (s : Icache τ) (e : Event τ) : Prop :=
  (s.step sb cont e).all (fun s' => !s'.store.full && !s'.store.limited) = true
deriving Decidable

omit [Fintype τ] in
theorem Fed.sated {e : Event τ} (h : Fed sb cont s e) (hs : s.step sb cont e = some s') : s'.store.Sated := by
  unfold Fed at h
  rw [hs] at h
  simpa [Store.Sated] using h

/-- The runs of the cache: callers of `iget` name inodes that have links, and `balloc` has blocks to give. -/
abbrev Runs (sb : Superblock) (cont : τ → Cid) : Icache τ → Icache τ → Prop :=
  Reach (step sb cont) fun s e => s.Linked sb e ∧ Fed sb cont s e

theorem linked_run {s0 : Icache τ} (hwf : Wf sb s0.store.disk) (hempty : s0.Empty) (hr : Runs sb cont s0 s) :
    Coherent sb s ∧ Parting sb s := by
  refine Reach.invariant (I := fun s => Coherent sb s ∧ Parting sb s)
    ⟨.of_empty hwf hempty, .of_empty hempty⟩ ?_ hr
  rintro s e s' ⟨hcoh, hpart⟩ ⟨hlink, hfed⟩ hs
  have hsated := hfed.sated hs
  exact ⟨hcoh.step hlink.inRange hs hsated, hpart.step hcoh hlink hs hsated⟩

/-- **Inode cache coherence.** In every interleaving, entries in use stand for different inodes; an entry in
use that is valid and not locked is the inode on disk; and when `iput` sets the type to `0` on disk,
nobody else holds a reference to that inode. -/
theorem cache_coherent {s0 : Icache τ} (hwf : Wf sb s0.store.disk) (hempty : s0.Empty)
    (hr : Runs sb cont s0 s) :
    (∀ ip jp, 0 < (s.entry ip).ref → 0 < (s.entry jp).ref → (s.entry ip).inum = (s.entry jp).inum → ip = jp) ∧
    (∀ ip, 0 < (s.entry ip).ref → (s.entry ip).valid = true → (s.entry ip).lock = none →
      readInode sb s.store.disk (s.entry ip).inum = (s.entry ip).copy) ∧
    ∀ t ip, s.Enabled (.clearType t ip) → ∀ u, u ≠ t → ∀ jp, 0 < s.held u jp →
      (s.entry jp).inum ≠ (s.entry ip).inum := by
  obtain ⟨hcoh, hpart⟩ := linked_run hwf hempty hr
  refine ⟨hcoh.uniq, ?_, ?_⟩
  · intro ip hused hvalid hlock
    refine (inodesOf_eq_some.mp (hcoh.fresh ip hused hvalid fun t ht => ?_)).2.2
    cases hlock.symm.trans ((hcoh.freeing t ip _ ht).2.mpr Stage.noConfusion)
  intro t ip hen u hut jp hheld heq
  have hpc : s.pc t = .freeing ip .truncated := hen
  have hone := (hcoh.freeing t ip _ hpc).1
  have hpos : 0 < s.held t ip := by omega
  have hjp : jp = ip := hcoh.uniq jp ip (hcoh.ref_pos hheld) (hcoh.ref_pos hpos) heq
  subst hjp
  have hsum := hcoh.held_add_le hut jp
  have hlast := (hpart.last t jp _ hpc (.inr rfl)).1
  omega

end Xv6.Fs.Icache
