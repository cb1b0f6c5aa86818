/-
# Xv6.Fs.Unused — what an inode-cache entry that nobody uses still says.

`iput` does not clear `valid` with the last reference to an inode that has links, so the entry keeps the
inode it was loaded with.  It is right as long as the inode is not cached a second time: `iget` takes the
first free entry, whatever the others hold, and what is then written goes through the new one.  In runs in
which `iget` does not pass such an entry over (`Sole`), every valid entry is the inode on disk, used or not.
-/
import Xv6.Fs.Parting

namespace Xv6.Fs.Icache

open Function
open Kernel (Cid)
open Lib (Reach)

variable {τ : Type} [DecidableEq τ] {sb : Superblock} {cont : τ → Cid} {s s' : Icache τ} {t : τ} {ip : Iptr}
  {e : Event τ} {inum : Nat}

/-- The entry that `iget` takes for an inode that is not in use. -/
def firstFree (s : Icache τ) : Option Iptr := Fin.find? fun ip => (s.entry ip).ref == 0

def igets : Event τ → Option Nat
  | .iget _ inum | .igetNew _ inum => some inum
  | _ => none

/-- What event `e` has done to the entry `ip` it concerns, and to the inodes on disk. -/
inductive Moved (sb : Superblock) (e : Event τ) (s s' : Icache τ) (ip : Iptr) : Prop
  /-- A free inode may have been claimed. -/
  | same (h : s'.entry ip = s.entry ip) (hdisk : ∀ j, j < sb.ninodes → (readInode sb s.store.disk j).type ≠ 0 →
      readInode sb s'.store.disk j = readInode sb s.store.disk j)
  | used (h : 0 < (s.entry ip).ref) (h' : 0 < (s'.entry ip).ref) (hinum : (s'.entry ip).inum = (s.entry ip).inum)
      (hdisk : ∀ j, j < sb.ninodes → j ≠ (s.entry ip).inum → readInode sb s'.store.disk j = readInode sb s.store.disk j)
  | dropped (h : 0 < (s.entry ip).ref) (h' : s'.entry ip = { s.entry ip with ref := 0 }) (hstore : s'.store = s.store)
      (hclear : ∀ t, s.pc t ≠ .freeing ip .cleared)
  | taken (hfree : s.firstFree = some ip) (h' : 0 < (s'.entry ip).ref) (hstore : s'.store = s.store)
      (hinum : igets e = some (s'.entry ip).inum)

theorem iget_moved {p : Pc} (he : igets e = some inum) (h : (s.setPc t p).iget t inum = .ok s') :
    ∃ ip, (∀ jp, jp ≠ ip → s'.entry jp = s.entry jp) ∧ Moved sb e s s' ip := by
  obtain ⟨ip, ⟨hused, -, rfl⟩ | ⟨hfind, -, -, rfl⟩⟩ := iget_eq_ok h
  · refine ⟨ip, (((Local.refl.setPc _).set _).setHeld _ : Local s _ t ip).entry, .used hused ?_ ?_ fun _ _ _ => rfl⟩
    · simp [Icache.idup]
    · simp [Icache.idup]
  · refine ⟨ip, (((Local.refl.setPc _).set _).setHeld _ : Local s _ t ip).entry, .taken hfind ?_ rfl ?_⟩
    · simp
    · simpa using he

variable [Fintype τ]

theorem Coherent.drop_moved (h : Coherent sb s) (hheld : 0 < s.held t ip)
    (hpc : s.pc t ≠ .freeing ip .cleared) (p : Pc) : Moved sb e s ((s.drop t ip).setPc t p) ip := by
  have hused := h.ref_pos hheld
  have hentry : ((s.drop t ip).setPc t p).entry ip = { s.entry ip with ref := (s.entry ip).ref - 1 } := set_entry ..
  by_cases hone : (s.entry ip).ref = 1
  · refine .dropped hused (by rw [hentry, hone]) rfl fun u hu => ?_
    by_cases hut : u = t
    · exact hpc (hut ▸ hu)
    · have hsum := h.held_add_le hut ip
      have hheldu := (h.freeing u ip _ hu).1
      omega
  · refine .used hused ?_ (by rw [hentry]) fun _ _ _ => rfl
    rw [hentry]
    show 0 < (s.entry ip).ref - 1
    omega

/-- **What a step does to the entries**, when `balloc` had blocks to give. -/
theorem Coherent.moved (h : Coherent sb s) (h' : Coherent sb s') (hs : s.step sb cont e = some s')
    (hsated : s'.store.Sated) : ∃ ip, (∀ jp, jp ≠ ip → s'.entry jp = s.entry jp) ∧ Moved sb e s s' ip := by
  obtain ⟨hen, hact⟩ := step_eq_some.mp hs
  -- an entry in use before and after
  have hused : ∀ {t ip}, Local s s' t ip → 0 < s.held t ip → 0 < s'.held t ip →
      (s'.entry ip).inum = (s.entry ip).inum → (∀ j, j < sb.ninodes → j ≠ (s.entry ip).inum →
        readInode sb s'.store.disk j = readInode sb s.store.disk j) →
      ∃ ip, (∀ jp, jp ≠ ip → s'.entry jp = s.entry jp) ∧ Moved sb e s s' ip := fun hl hheld hheld' hinum hdisk =>
    ⟨_, hl.entry, .used (h.ref_pos hheld) (h'.ref_pos hheld') hinum hdisk⟩
  cases e with
  | iget t inum =>
    rw [← setPc_self (s := s) hen] at hact
    exact iget_moved rfl hact
  | igetNew t inum => exact iget_moved rfl hact
  | idup t ip =>
    cases hact
    exact hused ((Local.refl.set _).setHeld _) hen.2 (by simp [Icache.idup]) (by simp [Icache.idup]) fun _ _ _ => rfl
  | give t u ip =>
    cases hact
    exact ⟨ip, fun _ _ => rfl, .same rfl fun _ _ _ => rfl⟩
  | ilock t ip =>
    obtain ⟨e, rfl, hinum⟩ := ilock_eq_ok hact
    exact hused (Local.refl.set _) hen.2.1 hen.2.1 (by simpa using hinum) fun _ _ _ => rfl
  | iunlock t ip =>
    have hheld := (h.locked ip t hen.2).1
    cases iunlock_eq_ok hact
    exact hused (Local.refl.set _) hheld hheld (by simp) fun _ _ _ => rfl
  | iput t ip =>
    obtain ⟨hpc, hspare, -⟩ := hen
    have hput : s.iput t ip = s' := Except.ok.inj hact
    by_cases hf : s.Frees ip
    · rw [Icache.iput, if_pos hf] at hput
      subst hput
      exact hused ((Local.refl.set _).setPc _) hspare.1 hspare.1 (by simp) fun _ _ _ => rfl
    · rw [Icache.iput, if_neg hf, ← setPc_self (s := s.drop t ip) hpc] at hput
      subst hput
      exact ⟨ip, (((Local.refl.set _).setHeld _).setPc _ : Local s ((s.drop t ip).setPc t .idle) t ip).entry,
        h.drop_moved hspare.1 (idle_ne hpc ip _) _⟩
  | trunc t ip =>
    obtain ⟨hone, hlock⟩ := h.freeing t ip _ hen
    obtain ⟨-, -, hnode⟩ := h.works (hlock.mpr Stage.noConfusion) (by rw [show s.pc t = _ from hen]; simp)
    obtain ⟨x, st, hf, rfl⟩ := work_eq_ok hact
    obtain ⟨x', st', hf', hw, -⟩ := itrunc_ok h.wf hnode (cont t)
    cases hf.symm.trans hf'
    have hheld : 0 < s.held t ip := by omega
    exact hused (((Local.refl.setPc _).set _).store _) hheld hheld (by simp) hw.others
  | clearType t ip =>
    have hone := (h.freeing t ip _ hen).1
    have hheld : 0 < s.held t ip := by omega
    cases hact
    exact hused (((Local.refl.setPc _).set _).store _) hheld hheld (by simp)
      (wrote_free h.wf (h.bound ip (h.ref_pos hheld)) rfl).others
  | invalidate t ip =>
    have hone := (h.freeing t ip _ hen).1
    have hheld : 0 < s.held t ip := by omega
    cases hact
    exact hused ((Local.refl.set _).setPc _) hheld hheld (by simp) fun _ _ _ => rfl
  | dropRef t ip =>
    have hone := (h.freeing t ip _ hen).1
    have hpc : s.pc t = .freeing ip .released := hen
    cases hact
    exact ⟨ip, (((Local.refl.set _).setHeld _).setPc _ : Local s ((s.drop t ip).setPc t .idle) t ip).entry,
      h.drop_moved (by omega) (by simp [hpc]) _⟩
  | ialloc t type =>
    cases hact
    exact ⟨0, fun _ _ => rfl, .same rfl fun _ _ _ => rfl⟩
  | probe t type inum =>
    obtain ⟨hi, ⟨hfree, rfl⟩ | rfl⟩ := probe_eq_ok hact
    · have hw := wrote_empty h.wf hi type.code_ne_zero (x := newInode type) (fun _ => rfl) rfl
      refine ⟨0, fun _ _ => rfl, .same rfl fun j hj hne => hw.others j hj ?_⟩
      rintro rfl
      exact hne hfree
    · exact ⟨0, fun _ _ => rfl, .same rfl fun _ _ _ => rfl⟩
  | readi t ip dst off n | writei t ip src off n | itrunc t ip | iupdate t ip major minor nlink =>
    obtain ⟨hw, x, st, rfl, hwrote, -⟩ := h.worked rfl hs hsated
    have hheld := (h.locked ip t hw.2).1
    exact hused ((Local.refl.set _).store _) hheld hheld (by simp) hwrote.others

/-! ## Entries that are not passed over -/

/-- An entry that is valid and that nobody uses is the inode on disk, and nobody uses
another one for it. -/
def Settled (sb : Superblock) (s : Icache τ) : Prop :=
  ∀ jp, (s.entry jp).ref = 0 → (s.entry jp).valid = true →
    inodesOf sb s.store.disk (s.entry jp).inum = some (s.entry jp).copy ∧
      ∀ ip, 0 < (s.entry ip).ref → (s.entry ip).inum ≠ (s.entry jp).inum

/-- When `iget` is called for an inode, no entry that nobody uses holds it valid but the one that
`iget` would take. -/
def Sole (s : Icache τ) (e : Event τ) : Prop :=
  ∀ jp, (s.entry jp).ref = 0 → (s.entry jp).valid = true → igets e = some (s.entry jp).inum → s.firstFree = some jp
deriving Decidable

omit [DecidableEq τ] in
theorem Settled.step (h : Settled sb s) (hc : Coherent sb s) (hsole : s.Sole e)
    (hmoved : ∃ ip, (∀ jp, jp ≠ ip → s'.entry jp = s.entry jp) ∧ Moved sb e s s' ip) : Settled sb s' := by
  obtain ⟨ip, hother, hm⟩ := hmoved
  intro jp href hvalid
  by_cases hjp : jp = ip
  · subst hjp
    cases hm with
    | same hsame hdisk =>
      rw [hsame] at href hvalid ⊢
      obtain ⟨hnode, hno⟩ := h jp href hvalid
      obtain ⟨hlt, htype, hread⟩ := inodesOf_eq_some.mp hnode
      refine ⟨inodesOf_eq_some.mpr ⟨hlt, htype, (hdisk _ hlt (hread ▸ htype)).trans hread⟩, fun kp hkp => ?_⟩
      by_cases hk : kp = jp
      · subst hk
        rw [hsame] at hkp
        omega
      · rw [hother kp hk] at hkp ⊢
        exact hno kp hkp
    | used _ hpos | taken _ hpos => omega
    | dropped hpos hdrop hstore hclear =>
      rw [hdrop] at hvalid ⊢
      refine ⟨hstore ▸ hc.fresh jp hpos hvalid hclear, fun kp hkp heq => ?_⟩
      by_cases hk : kp = jp
      · subst hk
        omega
      · rw [hother kp hk] at hkp heq
        exact hk (hc.uniq kp jp hkp hpos heq)
  · rw [hother jp hjp] at href hvalid ⊢
    obtain ⟨hnode, hno⟩ := h jp href hvalid
    obtain ⟨hlt, htype, hread⟩ := inodesOf_eq_some.mp hnode
    have hread' : readInode sb s'.store.disk (s.entry jp).inum = readInode sb s.store.disk (s.entry jp).inum := by
      cases hm with
      | same _ hdisk => exact hdisk _ hlt (hread ▸ htype)
      | used hpos _ _ hdisk => exact hdisk _ hlt (hno ip hpos).symm
      | dropped _ _ hstore | taken _ _ hstore => rw [hstore]
    refine ⟨inodesOf_eq_some.mpr ⟨hlt, htype, hread'.trans hread⟩, fun kp hkp => ?_⟩
    by_cases hk : kp = ip
    · subst hk
      cases hm with
      | same hsame =>
        rw [hsame] at hkp ⊢
        exact hno kp hkp
      | used hpos _ hinum => exact hinum ▸ hno kp hpos
      | dropped _ hdrop =>
        rw [hdrop] at hkp
        exact absurd hkp (Nat.lt_irrefl 0)
      | taken hfree _ _ hinum =>
        intro heq
        exact hjp (Option.some.inj ((hsole jp href hvalid (heq ▸ hinum)).symm.trans hfree))
    · rw [hother kp hk] at hkp ⊢
      exact hno kp hkp

/-- **Inode cache coherence of all entries**, in every interleaving in which `iget` passes no entry over that holds the
inode: those in use stand for different inodes, a valid one that is not locked is the inode on disk, and nobody else
holds an inode that `iput` frees. -/
theorem cache_coherent_all {s0 : Icache τ} (hwf : Wf sb s0.store.disk) (hempty : s0.Empty)
    (hinvalid : ∀ ip, (s0.entry ip).valid = false)
    (hr : Reach (step sb cont) (fun s e => (s.Linked sb e ∧ Fed sb cont s e) ∧ s.Sole e) s0 s) :
    (∀ ip jp, 0 < (s.entry ip).ref → 0 < (s.entry jp).ref → (s.entry ip).inum = (s.entry jp).inum → ip = jp) ∧
    (∀ ip, (s.entry ip).valid = true → (s.entry ip).lock = none →
      readInode sb s.store.disk (s.entry ip).inum = (s.entry ip).copy) ∧
    ∀ t ip, s.Enabled (.clearType t ip) → ∀ u, u ≠ t → ∀ jp, 0 < s.held u jp →
      (s.entry jp).inum ≠ (s.entry ip).inum := by
  obtain ⟨huniq, hused, hlast⟩ := cache_coherent hwf hempty (hr.mono fun _ _ h => h.1)
  have hboth : Coherent sb s ∧ Settled sb s := by
    refine Reach.invariant (I := fun s => Coherent sb s ∧ Settled sb s)
      ⟨.of_empty hwf hempty, fun jp _ hv => by simp [hinvalid jp] at hv⟩ ?_ hr
    rintro s e s' ⟨hcoh, hset⟩ ⟨⟨hlink, hfed⟩, hsole⟩ hs
    have hsated := hfed.sated hs
    have hcoh' := hcoh.step hlink.inRange hs hsated
    exact ⟨hcoh', hset.step hcoh hsole (hcoh.moved hcoh' hs hsated)⟩
  refine ⟨huniq, fun ip hvalid hlock => ?_, hlast⟩
  rcases Nat.eq_zero_or_pos (s.entry ip).ref with hzero | hpos
  · exact (inodesOf_eq_some.mp (hboth.2 ip hzero hvalid).1).2.2
  · exact hused ip hpos hvalid hlock

/-- A process makes a file that gets no link and one that gets a link, and drops its references to both. -/
def freeRun : List (Event Unit) :=
  [.iget () 1, .ialloc () .file, .probe () .file 1, .probe () .file 2, .igetNew () 2, .ilock () 1,
    .writei () 1 (fun _ => some 7) 0 1, .iunlock () 1, .ialloc () .file, .probe () .file 1, .probe () .file 2,
    .probe () .file 3, .igetNew () 3, .ilock () 2, .iupdate () 2 0 0 1, .iunlock () 2, .iput () 2, .iput () 1, .trunc () 1]

theorem cache_coherent_all_free : ∃ s : Icache Unit, s.Enabled (.clearType () 1) ∧ (s.entry 2).ref = 0 ∧
    (s.entry 2).valid = true ∧ readInode mkfsSb s.store.disk (s.entry 2).inum = (s.entry 2).copy := by
  obtain ⟨s, hr, hs⟩ := Reach.of_any (step mkfsSb fun _ => 0)
    (fun s e => (s.Linked mkfsSb e ∧ Fed mkfsSb (fun _ => 0) s e) ∧ s.Sole e) (start Unit (blank mkfsSb)) freeRun
    (fun s => decide (s.Enabled (.clearType () 1) ∧ (s.entry 2).ref = 0 ∧ (s.entry 2).valid = true ∧
      (s.entry 2).lock = none)) (by decide +kernel)
  obtain ⟨hen, href, hvalid, hlock⟩ := of_decide_eq_true hs
  exact ⟨s, hen, href, hvalid,
    (cache_coherent_all (wf_blank (by decide)) (start_empty _ _) (fun _ => rfl) hr).2.1 2 hvalid hlock⟩

/-- Inode 2 is cached in entry 1 and let go; then it is cached in entry 0 and changed. -/
def staleRun : List (Event Unit) :=
  [.iget () 1, .ialloc () .file, .probe () .file 1, .probe () .file 2,
    .igetNew () 2, .ilock () 1, .iupdate () 1 0 0 1, .iunlock () 1, .iput () 1, .iput () 0, .iget () 2, .ilock () 0,
    .iupdate () 0 0 0 2, .iunlock () 0]

/-- An entry that nobody uses keeps `valid` set and what it was loaded with. -/
theorem not_coherent_unused :
    ¬ ∀ s0 s : Icache Unit, Wf mkfsSb s0.store.disk → s0.Empty →
      (∀ ip, (s0.entry ip).valid = false) → Runs mkfsSb (fun _ => 0) s0 s →
      ∀ ip, (s.entry ip).valid = true → (s.entry ip).lock = none →
        readInode mkfsSb s.store.disk (s.entry ip).inum = (s.entry ip).copy := by
  intro h
  obtain ⟨s, hr, hs⟩ := Reach.of_any (step mkfsSb fun _ => 0)
    (fun s e => s.Linked mkfsSb e ∧ Fed mkfsSb (fun _ => 0) s e) (start Unit (blank mkfsSb)) staleRun
    (fun s => (s.entry 1).valid && (s.entry 1).lock.isNone &&
      (readInode mkfsSb s.store.disk (s.entry 1).inum).nlink != (s.entry 1).copy.nlink) (by decide +kernel)
  rw [Bool.and_eq_true, Bool.and_eq_true, Option.isNone_iff_eq_none, bne_iff_ne] at hs
  exact hs.2 (congrArg DiskInode.nlink
    (h _ s (wf_blank (by decide)) (start_empty _ _) (fun _ => rfl) hr 1 hs.1.1 hs.1.2))

end Xv6.Fs.Icache
