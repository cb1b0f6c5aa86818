/-
# Xv6.Fs.Held — the inode cache during a system call.

A call holds references to inodes while it runs.  `Cached F tmp s` says what the cache is like when the
call holds the references `tmp` besides those of the processes and open files (`F.owed`): no inode that
is referenced is free on disk or has two entries, and an inode that no directory names any more is kept
by an entry that knows so, which is what makes the last `iput` free it.

Every function of the cache has one rule here, in terms of the references held before and after it; none
of them stops in `ilock` for want of a type.
-/
import Xv6.Fs.Calls

namespace Xv6.Fs

open Kernel (Slot Ino CStr CharArr ROOTINO)
open Function List Option
open Lib (Covers Yields orStop update_cases)

variable {jp : Iptr} {x : Inode} {parent : Bool}

/-! ## References held -/

/-- A reference that a call holds: the entry, the inode it is for, and whether the entry is known to
have been loaded. -/
structure Hold where
  ip : Iptr
  inum : Ino
  valid : Bool

theorem unchecked {p : Prop} (h : false = true) : p := absurd h Bool.false_ne_true

def taken : List Hold → Iptr → Nat
  | [] => 0
  | h :: l => taken l + Pi.single h.ip 1

/-- What a call does not touch: the references of the processes and open files, inodes that nobody but
the call may refer to (`cap`), and an inode that it has just allocated (`new`). -/
structure Frame where
  owed : Iptr → Nat
  cap : Ino → Prop
  new : Option Ino

/-- The inode cache of `s` while a call holds the references `tmp`. -/
structure Cached (F : Frame) (tmp : List Hold) (s : Inodes) : Prop where
  covers : Covers s.refs (F.owed + taken tmp)
  held : ∀ h ∈ tmp, (s.cache h.ip).inum = h.inum ∧ (h.valid = true → (s.cache h.ip).valid = true)
  capped : ∀ ip, F.cap (s.cache ip).inum → s.refs ip ≤ taken tmp ip
  uniq : ∀ ip jp, 0 < s.refs ip → 0 < s.refs jp → (s.cache ip).inum = (s.cache jp).inum → ip = jp
  alloc : ∀ ip, 0 < s.refs ip → (s.node ip).type ≠ .free
  pinned : ∀ i, some i ≠ F.new → (s.nodes i).type ≠ .free → (s.nodes i).nlink = 0 →
    ∃ ip, (s.cache ip).inum = i ∧ 0 < s.refs ip ∧ (s.cache ip).valid = true

/-- Computations that do not stop in `ilock` for want of a type. -/
abbrev Safe {α : Type} (m : Except Stop α) (Q : α → Prop) : Prop := Yields (· ≠ Stop.noType) m Q

variable {F : Frame} {tmp tmp' : List Hold} {s s' : Inodes} {ip : Iptr} {i : Ino} {v : Bool} {t : Slot}

theorem taken_perm (h : tmp.Perm tmp') : taken tmp = taken tmp' := by
  induction h with
  | nil => rfl
  | cons x _ ih => rw [taken, taken, ih]
  | swap x y l => exact add_right_comm _ _ _
  | trans _ _ ih1 ih2 => exact ih1.trans ih2

theorem taken_pos {h : Hold} (hh : h ∈ tmp) : 0 < taken tmp h.ip := by
  induction hh with
  | head l => simp [taken]
  | tail x _ ih => exact Nat.lt_of_lt_of_le ih (Nat.le_add_right _ _)

theorem taken_of_ne {h : Hold} (hne : jp ≠ h.ip) : taken (h :: tmp) jp = taken tmp jp := by
  simp [taken, hne]

theorem taken_cons (h : Hold) : taken (h :: tmp) h.ip = taken tmp h.ip + 1 := by simp [taken]

theorem refs_set_of_ne (hne : jp ≠ ip) : (s.set ip x).refs jp = s.refs jp := by
  rw [refs_set, update_of_ne hne]

theorem refs_set_self : (s.set ip x).refs ip = x.ref := by rw [refs_set, update_self]

theorem cache_set_of_ne (hne : jp ≠ ip) : (s.set ip x).cache jp = s.cache jp := update_of_ne hne _ _

theorem cache_set_self : (s.set ip x).cache ip = x := update_self _ _ _

theorem freeInode_spec {i : Fin NINODES} (h : freeInode s = some i) : 0 < i.val ∧ (s.nodes i).type = .free := by
  unfold freeInode at h
  have hfree := (Fin.find?_eq_some_iff.mp h).1
  simp only [Bool.and_eq_true, decide_eq_true_eq, beq_iff_eq] at hfree
  exact hfree

namespace Cached

variable {x : Inode}

theorem perm (h : Cached F tmp s) (hp : tmp.Perm tmp') : Cached F tmp' s where
  covers := taken_perm hp ▸ h.covers
  held := fun x hx => h.held x (hp.mem_iff.mpr hx)
  capped := taken_perm hp ▸ h.capped
  uniq := h.uniq
  alloc := h.alloc
  pinned := h.pinned

theorem pos (h : Cached F tmp s) {x : Hold} (hx : x ∈ tmp) : 0 < s.refs x.ip :=
  h.covers.pos (Nat.lt_of_lt_of_le (taken_pos hx) (Nat.le_add_left _ _))

theorem pos_owed (h : Cached F tmp s) (hip : 0 < F.owed ip) : 0 < s.refs ip :=
  h.covers.pos (Nat.lt_of_lt_of_le hip (Nat.le_add_right _ _))

section

variable (h : Cached F (⟨ip, i, v⟩ :: tmp) s)
include h

theorem inum : (s.cache ip).inum = i := (h.held _ mem_cons_self).1

theorem node : s.node ip = s.nodes i := by rw [Inodes.node, h.inum]

theorem type_ne : (s.nodes i).type ≠ .free := h.node ▸ h.alloc ip (h.pos mem_cons_self)

/-- A reference that is forgotten harms nobody, unless it is to an inode under `cap`. -/
theorem drop (hcap : ¬ F.cap i) : Cached F tmp s where
  covers := h.covers.mono fun _ => Nat.add_le_add_left (Nat.le_add_right _ _) _
  held := fun x hx => h.held x (mem_cons_of_mem _ hx)
  capped := by
    intro jp hjp
    have hle := h.capped jp hjp
    have hne : jp ≠ ip := by
      rintro rfl
      rw [h.inum] at hjp
      exact hcap hjp
    rwa [taken_of_ne (by exact hne)] at hle
  uniq := h.uniq
  alloc := h.alloc
  pinned := h.pinned

end

section

variable (h : Cached F tmp s)
include h

theorem set
    (hcov : Covers (s.set ip x).refs (F.owed + taken tmp'))
    (hheld : ∀ y ∈ tmp', (y.ip = ip → x.inum = y.inum ∧ (y.valid = true → x.valid = true)) ∧ (y.ip ≠ ip → y ∈ tmp))
    (hcap : F.cap x.inum → x.ref ≤ taken tmp' ip)
    (htaken : ∀ jp, jp ≠ ip → taken tmp jp = taken tmp' jp)
    (hnew : 0 < x.ref → (s.nodes x.inum).type ≠ .free ∧ ∀ jp, jp ≠ ip → 0 < s.refs jp → (s.cache jp).inum ≠ x.inum)
    (hpin : 0 < s.refs ip → (s.cache ip).valid = true → (s.node ip).nlink = 0 →
      x.inum = (s.cache ip).inum ∧ 0 < x.ref ∧ x.valid = true) :
    Cached F tmp' (s.set ip x) where
  covers := hcov
  held := by
    intro y hy
    by_cases hyp : y.ip = ip
    · rw [hyp, cache_set_self]
      exact (hheld y hy).1 hyp
    · rw [cache_set_of_ne hyp]
      exact h.held y ((hheld y hy).2 hyp)
  capped := by
    intro jp hjp
    by_cases hne : jp = ip
    · subst hne
      rw [cache_set_self] at hjp
      rw [refs_set_self]
      exact hcap hjp
    · rw [cache_set_of_ne hne] at hjp
      rw [refs_set_of_ne hne, ← htaken jp hne]
      exact h.capped jp hjp
  uniq := by
    intro jp kp hjp hkp heq
    by_cases hj : jp = ip
    · by_cases hk : kp = ip
      · rw [hj, hk]
      subst hj
      rw [refs_set_self] at hjp
      rw [refs_set_of_ne hk] at hkp
      rw [cache_set_self, cache_set_of_ne hk] at heq
      exact absurd heq.symm ((hnew hjp).2 kp hk hkp)
    by_cases hk : kp = ip
    · subst hk
      rw [refs_set_self] at hkp
      rw [refs_set_of_ne hj] at hjp
      rw [cache_set_self, cache_set_of_ne hj] at heq
      exact absurd heq ((hnew hkp).2 jp hj hjp)
    · rw [refs_set_of_ne hj] at hjp
      rw [refs_set_of_ne hk] at hkp
      rw [cache_set_of_ne hj, cache_set_of_ne hk] at heq
      exact h.uniq jp kp hjp hkp heq
  alloc := by
    intro jp hjp
    by_cases hj : jp = ip
    · subst hj
      rw [refs_set_self] at hjp
      show (s.nodes ((s.set jp x).cache jp).inum).type ≠ .free
      rw [cache_set_self]
      exact (hnew hjp).1
    · rw [refs_set_of_ne hj] at hjp
      show (s.nodes ((s.set ip x).cache jp).inum).type ≠ .free
      rw [cache_set_of_ne hj]
      exact h.alloc jp hjp
  pinned := by
    intro j hj htype hlink
    obtain ⟨jp, rfl, hpos, hvalid⟩ := h.pinned j hj htype hlink
    by_cases hne : jp = ip
    · subst hne
      obtain ⟨hinum, href, hx⟩ := hpin hpos hvalid hlink
      exact ⟨jp, by rw [cache_set_self, hinum], by rwa [refs_set_self], by rwa [cache_set_self]⟩
    · exact ⟨jp, by rw [cache_set_of_ne hne], by rwa [refs_set_of_ne hne], by rwa [cache_set_of_ne hne]⟩

theorem keep (hpos : 0 < s.refs ip)
    (hinum : x.inum = (s.cache ip).inum)
    (hcov : Covers (s.set ip x).refs (F.owed + taken tmp'))
    (hheld : ∀ y ∈ tmp', (y.ip = ip → x.inum = y.inum ∧ (y.valid = true → x.valid = true)) ∧ (y.ip ≠ ip → y ∈ tmp))
    (hcap : F.cap x.inum → x.ref ≤ taken tmp' ip)
    (htaken : ∀ jp, jp ≠ ip → taken tmp jp = taken tmp' jp)
    (hpin : (s.cache ip).valid = true → (s.node ip).nlink = 0 → 0 < x.ref ∧ x.valid = true) :
    Cached F tmp' (s.set ip x) := by
  refine h.set hcov hheld hcap htaken (fun _ => ⟨?_, ?_⟩) fun _ hv hl => ⟨hinum, hpin hv hl⟩
  · rw [hinum]
    exact h.alloc ip hpos
  · intro jp hne hjp heq
    rw [hinum] at heq
    exact hne (h.uniq jp ip hjp hpos heq)

theorem acquire (hpos : 0 < s.refs ip) :
    Cached F (⟨ip, (s.cache ip).inum, false⟩ :: tmp)
      (s.set ip { s.cache ip with ref := (s.cache ip).ref + 1 }) := by
  refine h.keep hpos rfl ?_ ?_ ?_ ?_ ?_
  · rw [refs_set]
    show Covers _ (F.owed + (taken tmp + Pi.single ip 1))
    rw [← add_assoc]
    exact h.covers.acquire ip
  · intro y hy
    rcases mem_cons.mp hy with rfl | hmem
    · exact ⟨fun _ => ⟨rfl, unchecked⟩, fun hne => absurd rfl hne⟩
    · refine ⟨?_, fun _ => hmem⟩
      rintro rfl
      exact h.held y hmem
  · intro hcap
    have hle := h.capped ip hcap
    rw [taken_cons ⟨ip, _, false⟩]
    show s.refs ip + 1 ≤ _
    push_cast
    omega
  · intro jp hne
    exact (taken_of_ne (by exact hne)).symm
  · intro hv _
    refine ⟨?_, hv⟩
    show 0 < s.refs ip + 1
    omega

theorem get (hi : (s.nodes i).type ≠ .free) :
    Safe (orStop .other (iget i s)) fun r =>
      r.1.nodes = s.nodes ∧ Cached F (⟨r.2, i, false⟩ :: tmp) r.1 := by
  refine Lib.yields_orStop Stop.other_ne ?_
  rintro ⟨s', ip⟩ hget
  have hinum := (iget_spec h.covers hget).2.2
  have hcov := (iget_spec h.covers hget).1
  rw [add_assoc] at hcov
  unfold Fs.iget at hget
  split at hget
  · rename_i jp hjp
    cases hget
    have hhit := (Fin.find?_eq_some_iff.mp hjp).1
    simp only [Bool.and_eq_true, decide_eq_true_eq, beq_iff_eq] at hhit
    refine ⟨rfl, ?_⟩
    have hacq := h.acquire hhit.1
    rwa [hhit.2] at hacq
  rename_i hmiss
  split at hget
  · cases hget
  rename_i jp hjp
  cases hget
  have hfree : s.refs ip = 0 := by simpa [Inodes.refs] using (Fin.find?_eq_some_iff.mp hjp).1
  -- the recycled entry is owed nothing
  have howed : (F.owed + taken tmp) ip = 0 := by
    have := h.covers ip
    omega
  have hnone : taken tmp ip = 0 := Nat.eq_zero_of_add_eq_zero_left howed
  refine ⟨rfl, h.set hcov ?_ ?_ ?_ ?_ ?_⟩
  · intro y hy
    rcases mem_cons.mp hy with rfl | hmem
    · exact ⟨fun _ => ⟨rfl, unchecked⟩, fun hne => absurd rfl hne⟩
    · refine ⟨?_, fun _ => hmem⟩
      rintro rfl
      exact absurd hnone (Nat.ne_of_gt (taken_pos hmem))
  · intro _
    rw [taken_cons ⟨ip, i, false⟩]
    show (1 : Int) ≤ _
    omega
  · intro kp hne
    exact (taken_of_ne (by exact hne)).symm
  · intro _
    refine ⟨hi, fun kp _ hkp heq => ?_⟩
    have hno : 0 < s.refs kp → ¬ (s.cache kp).inum = i := by
      simpa [Inodes.refs] using Fin.find?_eq_none_iff.mp hmiss kp
    exact hno hkp heq
  · intro hpos
    exact absurd hfree (Int.ne_of_gt hpos)

end

theorem lock (h : Cached F (⟨ip, i, v⟩ :: tmp) s) :
    Safe (ilockE t ip s) fun s' => s'.nodes = s.nodes ∧ Cached F (⟨ip, i, true⟩ :: tmp) s' := by
  have hpos : 0 < s.refs ip := h.pos mem_cons_self
  unfold ilockE
  refine Yields.ite (fun _ => .stop Stop.other_ne) fun _ => Yields.ite (fun _ => .stop Stop.other_ne) fun _ =>
    Yields.ite (fun hfree => ?_) fun _ => Yields.ret ⟨rfl, ?_⟩
  · exact absurd hfree.2 (h.alloc ip hpos)
  refine h.keep hpos rfl ?_ ?_ (h.capped ip) (fun _ _ => rfl) fun _ _ => ⟨hpos, rfl⟩
  · rw [refs_set]
    show Covers (update s.refs ip (s.refs ip)) _
    rw [update_eq_self]
    exact h.covers
  intro y hy
  rcases mem_cons.mp hy with rfl | hmem
  · exact ⟨fun _ => ⟨h.inum, fun _ => rfl⟩, fun hne => absurd rfl hne⟩
  · refine ⟨?_, fun _ => mem_cons_of_mem _ hmem⟩
    rintro rfl
    exact ⟨(h.held y (mem_cons_of_mem _ hmem)).1, fun _ => rfl⟩

theorem unlock (h : Cached F tmp s) (hs : iunlock t ip s = some s') : s'.nodes = s.nodes ∧ Cached F tmp s' := by
  unfold Fs.iunlock at hs
  split at hs
  · cases hs
  rename_i hok
  cases hs
  have hpos : 0 < s.refs ip := by show 0 < (s.cache ip).ref; omega
  refine ⟨rfl, h.keep hpos rfl ?_ ?_ (h.capped ip) (fun _ _ => rfl) fun hv _ => ⟨hpos, hv⟩⟩
  · rw [refs_set]
    show Covers (update s.refs ip (s.refs ip)) _
    rw [update_eq_self]
    exact h.covers
  · intro y hy
    refine ⟨?_, fun _ => hy⟩
    rintro rfl
    exact h.held y hy

theorem putLast {y : Dinode} (h : Cached F (⟨ip, i, v⟩ :: tmp) s) (hone : s.refs ip = 1)
    (hx : x.ref = s.refs ip - 1) (hy : y.type = .free) :
    Cached F tmp { nodes := update s.nodes i y, cache := update s.cache ip x } := by
  have hinum := h.inum
  have hcov : Covers s.refs (F.owed + taken tmp + Pi.single ip 1) := by
    rw [add_assoc]
    exact h.covers
  have hnone : taken tmp ip = 0 := by
    have := hcov ip
    rw [Pi.add_apply, Pi.single_eq_same, Pi.add_apply] at this
    omega
  have hzero : (s.set ip x).refs ip = 0 := by rw [refs_set_self]; omega
  -- the entries that are still in use are others, for other inodes
  have hother : ∀ jp, 0 < (s.set ip x).refs jp → jp ≠ ip ∧ 0 < s.refs jp ∧ (s.cache jp).inum ≠ i := by
    intro jp hjp
    have hne : jp ≠ ip := by
      rintro rfl
      omega
    rw [refs_set_of_ne hne] at hjp
    refine ⟨hne, hjp, fun heq => hne (h.uniq jp ip hjp ?_ (heq.trans hinum.symm))⟩
    omega
  exact {
    covers := by
      show Covers (s.set ip x).refs _
      rw [refs_set, hx]
      exact hcov.release
    held := by
      intro y hy
      have hne : y.ip ≠ ip := by
        rintro rfl
        exact absurd hnone (Nat.ne_of_gt (taken_pos hy))
      show ((s.set ip x).cache y.ip).inum = _ ∧ (_ → ((s.set ip x).cache y.ip).valid = true)
      rw [cache_set_of_ne hne]
      exact h.held y (mem_cons_of_mem _ hy)
    capped := by
      intro jp hjp
      show (s.set ip x).refs jp ≤ _
      by_cases hne : jp = ip
      · subst hne
        rw [hzero]
        omega
      have hle := h.capped jp
      rw [taken_of_ne (by exact hne)] at hle
      rw [refs_set_of_ne hne]
      dsimp only at hjp
      rw [update_of_ne hne] at hjp
      exact hle hjp
    uniq := by
      intro jp kp hjp hkp heq
      obtain ⟨hj, hjp, -⟩ := hother jp hjp
      obtain ⟨hk, hkp, -⟩ := hother kp hkp
      dsimp only at heq
      rw [update_of_ne hj, update_of_ne hk] at heq
      exact h.uniq jp kp hjp hkp heq
    alloc := by
      intro jp hjp
      obtain ⟨hj, hjp, hne⟩ := hother jp hjp
      show (update s.nodes i y (update s.cache ip x jp).inum).type ≠ .free
      rw [update_of_ne hj, update_of_ne hne]
      exact h.alloc jp hjp
    pinned := by
      intro j hj htype hlink
      dsimp only at htype hlink ⊢
      have hne : j ≠ i := by
        rintro rfl
        rw [update_self] at htype
        exact htype hy
      rw [update_of_ne hne] at htype hlink
      obtain ⟨jp, hjp, hpos, hvalid⟩ := h.pinned j hj htype hlink
      have hjp' : jp ≠ ip := by
        rintro rfl
        exact hne (hjp.symm.trans hinum)
      refine ⟨jp, ?_, ?_, ?_⟩
      · rw [update_of_ne hjp']
        exact hjp
      · show 0 < (s.set ip x).refs jp
        rwa [refs_set_of_ne hjp']
      · rw [update_of_ne hjp']
        exact hvalid }

theorem put (h : Cached F (⟨ip, i, v⟩ :: tmp) s) (hs : iput ip s = some s') :
    Cached F tmp s' ∧ (s'.nodes = s.nodes ∨
      (s.nodes i).nlink = 0 ∧ F.owed ip = 0 ∧ s'.nodes = update s.nodes i (s.nodes i).freed) := by
  have hpos : 0 < s.refs ip := h.pos mem_cons_self
  have hcov : Covers s.refs (F.owed + taken tmp + Pi.single ip 1) := by
    rw [add_assoc]
    exact h.covers
  have htaken : ∀ jp, jp ≠ ip → taken (⟨ip, i, v⟩ :: tmp) jp = taken tmp jp := fun jp hne =>
    taken_of_ne (by exact hne)
  unfold Fs.iput at hs
  dsimp only at hs
  split at hs
  · rename_i hlast
    split at hs
    · cases hs
    cases hs
    have hone : s.refs ip = 1 := hlast.1
    have howed : (F.owed + taken tmp) ip = 0 := by
      have := hcov ip
      rw [Pi.add_apply, Pi.single_eq_same] at this
      omega
    have hnone : taken tmp ip = 0 := Nat.eq_zero_of_add_eq_zero_left howed
    refine ⟨?_, .inr ⟨h.node ▸ hlast.2.2, Nat.eq_zero_of_add_eq_zero_right howed, ?_⟩⟩
    · rw [h.inum]
      exact h.putLast hone rfl rfl
    · show update s.nodes (s.cache ip).inum (s.node ip).freed = _
      rw [h.inum, h.node]
  rename_i hmore
  cases hs
  refine ⟨h.keep hpos rfl ?_ ?_ ?_ htaken ?_, .inl rfl⟩
  · rw [refs_set]
    exact hcov.release
  · intro y hy
    refine ⟨?_, fun _ => mem_cons_of_mem _ hy⟩
    rintro rfl
    exact h.held y (mem_cons_of_mem _ hy)
  · intro hcap
    have hle := h.capped ip hcap
    rw [taken_cons ⟨ip, i, v⟩] at hle
    push_cast at hle
    show s.refs ip - 1 ≤ _
    omega
  intro hvalid hlink
  refine ⟨?_, hvalid⟩
  -- otherwise this was the last reference
  have hne : s.refs ip ≠ 1 := fun hone => hmore ⟨hone, hvalid, hlink⟩
  show 0 < s.refs ip - 1
  omega

/-- An inode without links that the call alone refers to is freed by `iput`. -/
theorem putFree (h : Cached F [⟨ip, i, true⟩] s) (hcap : F.cap i) (hlink : (s.nodes i).nlink = 0)
    (hs : Fs.iput ip s = some s') :
    s'.nodes = update s.nodes i (s.nodes i).freed ∧ Cached F [] s' := by
  have hvalid : (s.cache ip).valid = true := (h.held _ mem_cons_self).2 rfl
  have hone : (s.cache ip).ref = 1 := by
    have hpos : 0 < s.refs ip := h.pos mem_cons_self
    have hle := h.capped ip (by rwa [h.inum])
    rw [taken_cons ⟨ip, i, true⟩] at hle
    have hle : s.refs ip ≤ 1 := hle
    show s.refs ip = 1
    omega
  refine ⟨?_, (h.put hs).1⟩
  unfold Fs.iput at hs
  dsimp only at hs
  rw [h.node, if_pos ⟨hone, hvalid, hlink⟩] at hs
  split at hs
  · cases hs
  · cases hs
    show update s.nodes (s.cache ip).inum (s.nodes i).freed = _
    rw [h.inum]

section

variable (h : Cached F (⟨ip, i, v⟩ :: tmp) s)
include h

section

variable (hfine : (s.nodes i).nlink ≠ 0 ∨ 0 < F.owed ip)
include hfine

/-- An inode that has links, or another reference, survives `iput`. -/
theorem putKeep
    (hs : Fs.iput ip s = some s') : s'.nodes = s.nodes ∧ Cached F tmp s' := by
  obtain ⟨hc, hnodes | ⟨hlink, howed, -⟩⟩ := h.put hs
  · exact ⟨hnodes, hc⟩
  · rcases hfine with hne | hpos
    · exact absurd hlink hne
    · exact absurd howed (Nat.ne_of_gt hpos)

theorem unlockputKeep (hs : Fs.iunlockput t ip s = some s') : s'.nodes = s.nodes ∧ Cached F tmp s' := by
  obtain ⟨u, hu, hs⟩ := bind_eq_some_iff.mp hs
  obtain ⟨hnodes, hc⟩ := h.unlock hu
  obtain ⟨hnodes', hc'⟩ := hc.putKeep (hnodes ▸ hfine) hs
  exact ⟨hnodes'.trans hnodes, hc'⟩

end

theorem forget : Cached F (⟨ip, i, false⟩ :: tmp) s where
  covers := h.covers
  held := by
    intro y hy
    rcases mem_cons.mp hy with rfl | hmem
    · exact ⟨h.inum, unchecked⟩
    · exact h.held y (mem_cons_of_mem _ hmem)
  capped := h.capped
  uniq := h.uniq
  alloc := h.alloc
  pinned := h.pinned

end

/-- An inode is written; without links it needs an entry that knows so. -/
theorem write {x : Dinode} (h : Cached F tmp s) (hx : x.type ≠ .free)
    (hpin : some i ≠ F.new → x.nlink = 0 → ∃ ip, (s.cache ip).inum = i ∧ 0 < s.refs ip ∧ (s.cache ip).valid = true) :
    Cached F tmp { s with nodes := update s.nodes i x } where
  covers := h.covers
  held := h.held
  capped := h.capped
  uniq := h.uniq
  alloc := by
    intro jp hjp
    show (update s.nodes i x (s.cache jp).inum).type ≠ .free
    by_cases hj : (s.cache jp).inum = i
    · rw [hj, update_self]
      exact hx
    · rw [update_of_ne hj]
      exact h.alloc jp hjp
  pinned := by
    intro j
    dsimp only
    exact update_cases (fun hnew _ hlink => hpin hnew hlink) (fun j _ => h.pinned j) j

theorem setNode {x : Dinode} (h : Cached F (⟨ip, i, true⟩ :: tmp) s) (hx : x.type ≠ .free) :
    (s.setNode ip x).nodes = update s.nodes i x ∧ Cached F (⟨ip, i, true⟩ :: tmp) (s.setNode ip x) := by
  obtain ⟨hinum, hvalid⟩ := h.held _ mem_cons_self
  have hnodes : s.setNode ip x = { s with nodes := update s.nodes i x } := by
    rw [Inodes.setNode, hinum]
  rw [hnodes]
  refine ⟨rfl, h.write hx fun _ _ => ⟨ip, hinum, h.pos mem_cons_self, hvalid rfl⟩⟩

theorem alloc_new {type : FileType} (h : Cached F tmp s) (hF : F.new = none) (htype : type ≠ .free) :
    Safe (orStop .other (ialloc type s)) fun r => ∃ i, 0 < i ∧ i < NINODES ∧
      (s.nodes i).type = .free ∧ r.1.nodes = update s.nodes i ⟨type, 0, []⟩ ∧
      Cached { F with new := some i } (⟨r.2, i, false⟩ :: tmp) r.1 := by
  refine Lib.yields_orStop Stop.other_ne fun r hr => ?_
  unfold ialloc at hr
  obtain ⟨i, hi, hr⟩ := bind_eq_some_iff.mp hr
  have hfree := freeInode_spec hi
  have hexempt : Cached { F with new := some i.val } tmp s :=
    ⟨h.covers, h.held, h.capped, h.uniq, h.alloc, fun j _ => h.pinned j (hF ▸ nofun)⟩
  have hwrite : Cached { F with new := some i.val } tmp
      { s with nodes := update s.nodes i.val ⟨type, 0, []⟩ } :=
    hexempt.write htype fun hne => absurd rfl hne
  have hget := hwrite.get (i := i.val) (by
    show (update s.nodes i.val ⟨type, 0, []⟩ i.val).type ≠ .free
    rw [update_self]
    exact htype)
  obtain ⟨hnodes, hc⟩ := hget.ok (congrArg (orStop Stop.other) hr)
  exact ⟨i, hfree.1, i.isLt, hfree.2, hnodes, hc⟩

theorem settle (h : Cached { F with new := some i } (⟨ip, i, true⟩ :: tmp) s) : Cached F (⟨ip, i, true⟩ :: tmp) s where
  covers := h.covers
  held := h.held
  capped := h.capped
  uniq := h.uniq
  alloc := h.alloc
  pinned := by
    intro j _ htype hlink
    by_cases hj : j = i
    · subst hj
      obtain ⟨hinum, hvalid⟩ := h.held _ mem_cons_self
      exact ⟨ip, hinum, h.pos mem_cons_self, hvalid rfl⟩
    · exact h.pinned j (fun heq => hj (some.inj heq)) htype hlink

end Cached

/-! ## Path lookup -/

/-- The root exists, and entries name inodes that exist and have links. -/
structure Walkable (nodes : Ino → Dinode) : Prop where
  root : (nodes ROOTINO).type ≠ .free
  named : ∀ d, ∀ e ∈ (nodes d).ents, e.inum ≠ 0 →
    (nodes e.inum.toNat).type ≠ .free ∧ (nodes e.inum.toNat).nlink ≠ 0

/-- What a lookup hands over: a reference to an inode that has links or other references. -/
def Handed (F : Frame) (tmp : List Hold) (s : Inodes) : Option Iptr → Prop
  | none => Cached F tmp s
  | some ip => ∃ i, Cached F (⟨ip, i, false⟩ :: tmp) s ∧ ((s.nodes i).nlink ≠ 0 ∨ 0 < F.owed ip)

variable {name : CharArr DIRSIZ} {me : Caller} {rootip : Iptr}

theorem dirlookup_held (h : Cached F tmp s) (hw : Walkable s.nodes) :
    Safe (orStop .other (dirlookup ip name s)) fun r =>
      r.1.nodes = s.nodes ∧ Handed F tmp r.1 r.2 := by
  refine Lib.yields_orStop Stop.other_ne ?_
  rintro ⟨s', r⟩ hr
  unfold dirlookup at hr
  split at hr
  · cases hr
  split at hr
  · cases hr
    exact ⟨rfl, h⟩
  rename_i de hde
  obtain ⟨⟨u, next⟩, hu, hr⟩ := map_eq_some_iff.mp hr
  cases hr
  have hlive := find?_some hde
  simp only [Bool.and_eq_true, bne_iff_ne, ne_eq] at hlive
  obtain ⟨htype, hlink⟩ := hw.named _ de (mem_of_find?_eq_some hde) hlive.1
  obtain ⟨hnodes, hc⟩ := (h.get htype).ok (congrArg (orStop Stop.other) hu)
  exact ⟨hnodes, _, hc, .inl (by rwa [hnodes])⟩

def Walk.ptr : Walk → Option Iptr
  | .next ip => some ip
  | .done r => r

theorem namexRound_held {last : Bool} (h : Cached F (⟨ip, i, v⟩ :: tmp) s)
    (hfine : (s.nodes i).nlink ≠ 0 ∨ 0 < F.owed ip) (hw : Walkable s.nodes)
    (hroot : ∀ root, me.cont = some root → root.isroot ≠ 0) :
    Safe (namexRoundE me rootip last name ip s) fun r =>
      r.1.nodes = s.nodes ∧ Handed F tmp r.1 r.2.ptr := by
  refine Yields.bind (h.lock.mono fun u ⟨hnu, hu⟩ => ?_)
  rw [← hnu] at hfine hw ⊢
  -- how the lookup fails
  have hfail : ∀ w : Inodes, w.nodes = u.nodes → Cached F (⟨ip, i, true⟩ :: tmp) w →
      Safe ((·, Walk.done none) <$> orStop .other (iunlockput me.slot ip w)) fun r =>
        r.1.nodes = u.nodes ∧ Handed F tmp r.1 r.2.ptr := by
    intro w hnw hw
    refine Yields.map (Lib.yields_orStop Stop.other_ne fun x hx => ?_)
    obtain ⟨hnx, hcx⟩ := hw.unlockputKeep (hnw ▸ hfine) hx
    exact ⟨hnx.trans hnw, hcx⟩
  refine Yields.ite (fun _ => hfail u rfl hu) fun _ => Yields.ite (fun _ => ?_) fun _ => ?_
  · refine Yields.map (Lib.yields_orStop Stop.other_ne fun x hx => ?_)
    obtain ⟨hnx, hcx⟩ := hu.unlock hx
    exact ⟨hnx, i, hcx.forget, hnx ▸ hfine⟩
  refine Yields.bind ((dirlookup_held hu hw).mono ?_)
  rintro ⟨w, next⟩ ⟨hnw, hnext⟩
  cases next with
  | none => exact hfail w hnw hnext
  | some next =>
    obtain ⟨i', hc, hfine'⟩ := hnext
    refine Yields.bind (Lib.yields_orStop Stop.other_ne fun root hcont => ?_)
    refine Yields.bind (Lib.yields_orStop Stop.other_ne fun x hx => ?_)
    have hisroot := hroot root hcont
    rw [leaveDir, if_pos hisroot] at hx
    obtain ⟨hnx, hcx⟩ := (hc.perm (.swap _ _ _)).unlockputKeep (hnw ▸ hfine) hx
    refine Yields.ret ⟨hnx.trans hnw, ?_⟩
    rw [if_pos (.inl hisroot)]
    exact ⟨i', hcx, hnx ▸ hfine'⟩

theorem namexEnd_held (h : Cached F (⟨ip, i, v⟩ :: tmp) s)
    (hfine : (s.nodes i).nlink ≠ 0 ∨ 0 < F.owed ip) :
    Safe (orStop .other (namexEnd parent name ip s)) fun r =>
      r.1.nodes = s.nodes ∧ Handed F tmp r.1 r.2.1 := by
  refine Lib.yields_orStop Stop.other_ne fun r hr => ?_
  unfold namexEnd at hr
  split at hr
  · obtain ⟨u, hu, hr⟩ := map_eq_some_iff.mp hr
    cases hr
    exact h.putKeep hfine hu
  · cases hr
    exact ⟨rfl, i, h.forget, hfine⟩

theorem namexLoop_held (hroot : ∀ root, me.cont = some root → root.isroot ≠ 0) :
    ∀ (fuel : Nat) (path : List UInt8) (name : CharArr DIRSIZ) (ip : Iptr) (i : Ino) (s : Inodes),
      Cached F (⟨ip, i, false⟩ :: tmp) s → ((s.nodes i).nlink ≠ 0 ∨ 0 < F.owed ip) →
      Walkable s.nodes →
      Safe (namexLoopE (some me) parent rootip fuel path name ip s) fun r =>
        r.1.nodes = s.nodes ∧ Handed F tmp r.1 r.2.1 := by
  intro fuel
  induction fuel with
  | zero => exact fun path name ip i s h hfine _ => namexEnd_held h hfine
  | succ fuel ih =>
    intro path name ip i s h hfine hw
    unfold namexLoopE
    cases hskip : skipelem path name with
    | none => exact namexEnd_held h hfine
    | some next =>
      refine Yields.bind (.ret (Yields.bind ((namexRound_held h hfine hw hroot).mono ?_)))
      rintro ⟨u, w⟩ ⟨hnu, hu⟩
      cases w with
      | done r => exact Yields.ret ⟨hnu, hu⟩
      | next ip' =>
        obtain ⟨i', hc, hfine'⟩ := hu
        rw [← hnu] at hw ⊢
        exact ih _ _ ip' i' u hc hfine' hw

/-- **`namex` during a call** of a process of the root container: no inode changes, and the reference
to the result is the only one it keeps, the one to the root of the file system apart. -/
theorem namex_held {path : CStr} (h : Cached F tmp s) (hw : Walkable s.nodes)
    (hroot : ∀ root, me.cont = some root → root.isroot ≠ 0) (hcap : ¬ F.cap ROOTINO)
    (hdir : ∀ root ip, me.cont = some root → root.rootdir = some ip → 0 < F.owed ip)
    (hcwd : ∀ ip, me.cwd = some ip → 0 < F.owed ip) :
    Safe (namexE (some me) path parent name s) fun r =>
      r.1.nodes = s.nodes ∧ Handed F tmp r.1 r.2.1 := by
  refine Yields.bind ((h.get hw.root).mono ?_)
  rintro ⟨u, rootip⟩ ⟨hnu, hu⟩
  have hdup : ∀ ip, 0 < F.owed ip → Safe
      (namexLoopE (some me) parent rootip path.strlen path.bytes name ip (idup ip u)) fun r =>
        r.1.nodes = s.nodes ∧ Handed F tmp r.1 r.2.1 := by
    intro ip hip
    have hc := hu.acquire (hu.pos_owed hip)
    have hspec : Safe
        (namexLoopE (some me) parent rootip path.strlen path.bytes name ip (idup ip u)) fun r =>
          r.1.nodes = u.nodes ∧ Handed F (⟨rootip, ROOTINO, false⟩ :: tmp) r.1 r.2.1 :=
      namexLoop_held hroot _ _ name ip _ (idup ip u) hc (.inr hip) (hnu ▸ hw)
    refine hspec.mono ?_
    rintro ⟨w, r, name'⟩ ⟨hnw, hr⟩
    refine ⟨hnw.trans hnu, ?_⟩
    -- the reference to the root is forgotten
    cases r with
    | none => exact hr.drop hcap
    | some rp =>
      obtain ⟨i, hcr, hfine⟩ := hr
      exact ⟨i, (hcr.perm (.swap _ _ _)).drop hcap, hfine⟩
  refine Yields.bind (Lib.yields_orStop Stop.other_ne ?_)
  rintro ⟨w, ip⟩ hstart
  unfold namexStart at hstart
  dsimp only at hstart
  split at hstart
  · obtain ⟨ip', hip, hstart⟩ := map_eq_some_iff.mp hstart
    cases hstart
    obtain ⟨root, hcont, hd⟩ := bind_eq_some_iff.mp hip
    exact hdup _ (hdir root _ hcont hd)
  · obtain ⟨ip', hip, hstart⟩ := map_eq_some_iff.mp hstart
    cases hstart
    exact hdup _ (hcwd _ hip)

end Xv6.Fs
