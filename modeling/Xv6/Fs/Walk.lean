/-
# Xv6.Fs.Walk — what a path lookup holds, where it gets to, and when it returns.

One round of `namex` keeps its caller's references covered and moves along one directory entry
(`namexRound_spec`); the loop stays in every set of inodes that is closed under such moves
(`namexLoop_spec`).  A lookup by a container other than the root returns as long as the inode cache has
room for one inode per component (`namex_returns`).
-/
import Xv6.Fs.Path

namespace Xv6.Fs

open Option (bind_eq_some_iff map_eq_some_iff)
open Kernel (Slot Cid Ino CStr CharArr NINODE ROOTINO)
open Function Option
open Lib (Covers count)

variable {owed owed' : Iptr → Nat} {s s' : Inodes} {ip rootip : Iptr} {me : Caller}
  {name : CharArr DIRSIZ} {r : Option Iptr} {root : Root}

/-! ## One round -/

theorem iunlockput_spec {t : Slot} (hc : Covers s.refs (owed + Pi.single ip 1))
    (h : iunlockput t ip s = some s') : Covers s'.refs owed ∧ ∀ owed', Keeps owed' s s' := by
  obtain ⟨u, hu, h⟩ := bind_eq_some_iff.mp h
  have ha := iunlock_alike hu
  rw [← ha.refs] at hc
  obtain ⟨hc', hk⟩ := iput_spec hc h
  exact ⟨hc', fun owed' => ha.keeps.trans (hk owed')⟩

theorem dirlookup_spec (hc : Covers s.refs owed)
    (h : dirlookup ip name s = some (s', r)) :
    (r = none → s' = s) ∧ ∀ next, r = some next →
      Covers s'.refs (owed + Pi.single next 1) ∧ Keeps owed s s' ∧
        ∃ de ∈ (s.node ip).ents, de.inum ≠ 0 ∧ (s'.cache next).inum = de.inum.toNat := by
  unfold dirlookup at h
  split at h
  · cases h
  split at h
  · cases h
    exact ⟨fun _ => rfl, nofun⟩
  rename_i de hde
  obtain ⟨⟨u, next⟩, hu, h⟩ := map_eq_some_iff.mp h
  cases h
  obtain ⟨hc', hk, hinum⟩ := iget_spec hc hu
  have hlive := List.find?_some hde
  simp only [Bool.and_eq_true, bne_iff_ne, ne_eq] at hlive
  refine ⟨nofun, fun next' hnext => ?_⟩
  cases hnext
  exact ⟨hc', hk, de, List.mem_of_find?_eq_some hde, hlive.1, hinum⟩

theorem leaveDir_spec (hc : Covers s.refs (owed + Pi.single ip 1))
    (h : leaveDir me root ip s = some s') :
    Covers s'.refs owed ∧ (∀ owed', Keeps owed' s s') ∧ (root.isroot = 0 → Alike s s') := by
  unfold leaveDir at h
  split at h
  · rename_i hroot
    obtain ⟨hc', hk⟩ := iunlockput_spec hc h
    exact ⟨hc', hk, fun h0 => absurd h0 hroot⟩
  · have ha := iunlock_alike h
    exact ⟨ha.refs ▸ hc.drop, fun _ => ha.keeps, fun _ => ha⟩

/-- A process of the container gets from directory `d` to `i` by one
component: `i` is named in `d`, and is not the root of the file system unless the container is. -/
def Reaches (root : Root) (nodes : Ino → Dinode) (d i : Ino) : Prop :=
  (nodes d).type = .dir ∧ (∃ de ∈ (nodes d).ents, de.inum ≠ 0 ∧ de.inum.toNat = i) ∧
    (root.isroot ≠ 0 ∨ i ≠ ROOTINO)

/-- Freeing inodes opens no ways. -/
theorem Keeps.reaches {d i : Ino} (h : Keeps owed s s')
    (hr : Reaches root s'.nodes d i) : Reaches root s.nodes d i := by
  rcases h.nodes d with hd | hd
  · rwa [Reaches, hd] at hr
  · rw [Reaches, hd] at hr
    cases hr.1

def holds : Option Iptr → Iptr → Nat
  | none => 0
  | some ip => Pi.single ip 1

def RoundPost (me : Caller) (owed : Iptr → Nat) (ip : Iptr) (s s' : Inodes) : Walk → Prop
  | .next ip' => Covers s'.refs (owed + Pi.single ip' 1) ∧
      ((s'.cache ip').inum = (s.cache ip).inum ∨
        ∃ root, me.cont = some root ∧ Reaches root s.nodes (s.cache ip).inum (s'.cache ip').inum)
  | .done r => Covers s'.refs (owed + holds r) ∧ ∀ ip', r = some ip' → (s'.cache ip').inum = (s.cache ip).inum

theorem namexRound_spec {last : Bool} {w : Walk}
    (hc : Covers s.refs (owed + Pi.single ip 1)) (hpos : 0 < owed rootip)
    (hroot : (s.cache rootip).inum = ROOTINO)
    (h : namexRound me rootip last name ip s = some (s', w)) :
    Keeps owed s s' ∧ RoundPost me owed ip s s' w := by
  obtain ⟨u, hu, h⟩ := bind_eq_some_iff.mp h
  have ha := ilock_alike hu
  have hcu : Covers u.refs (owed + Pi.single ip 1) := ha.refs ▸ hc
  -- how the lookup fails
  have hfail : ∀ v, Covers v.refs (owed + Pi.single ip 1) → Keeps owed u v →
      (iunlockput me.slot ip v).map (·, Walk.done none) = some (s', w) →
      Keeps owed s s' ∧ RoundPost me owed ip s s' w := by
    intro v hcv hkv hv
    obtain ⟨v', hv', hw⟩ := map_eq_some_iff.mp hv
    cases hw
    obtain ⟨hc', hk⟩ := iunlockput_spec hcv hv'
    exact ⟨(ha.keeps.trans hkv).trans (hk owed), hc', nofun⟩
  split at h
  · exact hfail u hcu (.refl _ _) h
  rename_i hdir
  split at h
  · obtain ⟨v, hv, hw⟩ := map_eq_some_iff.mp h
    cases hw
    have hb := iunlock_alike hv
    refine ⟨ha.keeps.trans hb.keeps, hb.refs ▸ hcu, fun ip' hip => ?_⟩
    cases hip
    exact (hb.inum ip).trans (ha.inum ip)
  obtain ⟨⟨v, next⟩, hv, h⟩ := bind_eq_some_iff.mp h
  have hlook := dirlookup_spec hcu hv
  cases next with
  | none =>
    have hvu := hlook.1 rfl
    exact hfail v (hvu ▸ hcu) (hvu ▸ .refl _ _) h
  | some next =>
    obtain ⟨hcv, hkv, de, hde, hlive, hinum⟩ := hlook.2 next rfl
    obtain ⟨root, hcont, h⟩ := bind_eq_some_iff.mp h
    obtain ⟨v', hv', hw⟩ := bind_eq_some_iff.mp h
    obtain ⟨rfl, rfl⟩ := Prod.mk.inj (some.inj hw)
    rw [add_right_comm] at hcv
    obtain ⟨hc', hk, halike⟩ := leaveDir_spec hcv hv'
    have hkeep : Keeps (owed + Pi.single ip 1) s v' := (ha.keeps.trans hkv).trans (hk _)
    refine ⟨hkeep.mono fun j => Nat.le_add_right _ _, ?_⟩
    have hnext : (v'.cache next).inum = de.inum.toNat := ((hk fun _ => 1).inum next Nat.one_pos).trans hinum
    have hrootip : (v'.cache rootip).inum = ROOTINO := by
      refine (hkeep.inum rootip ?_).trans hroot
      exact Nat.lt_of_lt_of_le hpos (Nat.le_add_right _ _)
    by_cases hgo : root.isroot ≠ 0 ∨ (v'.cache next).inum ≠ (v'.cache rootip).inum
    · rw [if_pos hgo]
      refine ⟨hc', .inr ⟨root, hcont, ?_, ⟨de, ?_, hlive, hnext.symm⟩, ?_⟩⟩
      · have hd : (u.node ip).type = .dir := not_not.mp hdir
        rwa [ha.node] at hd
      · rwa [ha.node] at hde
      · rwa [hrootip] at hgo
    -- the barrier: the directory stays, and so does its reference
    rw [if_neg hgo]
    have h0 : root.isroot = 0 := by
      by_contra hne
      exact hgo (.inl hne)
    refine ⟨?_, .inl (hkeep.inum ip (by simp))⟩
    rw [(halike h0).refs]
    rw [add_right_comm] at hcv
    exact hcv.drop

/-! ## The loop -/

/-- **The loop of `namex`.** From an inode of a set that is closed under the caller's moves, a lookup
ends with nothing or with an inode of the set, whose reference is the caller's. -/
theorem namexLoop_spec {S : Ino → Prop} {s0 : Inodes} {parent : Bool}
    {name' : CharArr DIRSIZ}
    (hS : ∀ root d i, me.cont = some root → S d → Reaches root s0.nodes d i → S i) :
    ∀ (fuel : Nat) (path : List UInt8) (name : CharArr DIRSIZ) (ip : Iptr) (s : Inodes),
      Covers s.refs (owed + Pi.single ip 1) → 0 < owed rootip →
      (s.cache rootip).inum = ROOTINO → Keeps owed s0 s → S (s.cache ip).inum →
      namexLoop (some me) parent rootip fuel path name ip s = some (s', r, name') →
      Covers s'.refs (owed + holds r) ∧ Keeps owed s0 s' ∧ ∀ ip', r = some ip' → S (s'.cache ip').inum := by
  intro fuel
  have hend : ∀ (name : CharArr DIRSIZ) (ip : Iptr) (s : Inodes),
      Covers s.refs (owed + Pi.single ip 1) → Keeps owed s0 s → S (s.cache ip).inum →
      namexEnd parent name ip s = some (s', r, name') →
      Covers s'.refs (owed + holds r) ∧ Keeps owed s0 s' ∧ ∀ ip', r = some ip' → S (s'.cache ip').inum := by
    intro name ip s hc hk hip h
    unfold namexEnd at h
    split at h
    · obtain ⟨u, hu, h⟩ := map_eq_some_iff.mp h
      cases h
      obtain ⟨hc', hk'⟩ := iput_spec hc hu
      exact ⟨hc', hk.trans (hk' owed), nofun⟩
    · cases h
      refine ⟨hc, hk, fun ip' hip' => ?_⟩
      cases hip'
      exact hip
  induction fuel with
  | zero => exact fun path name ip s hc _ _ hk hip h => hend name ip s hc hk hip h
  | succ fuel ih =>
    intro path name ip s hc hpos hroot hk hip h
    unfold namexLoop at h
    split at h
    · exact hend name ip s hc hk hip h
    rename_i rest name1 hskip
    obtain ⟨me', hme, h⟩ := bind_eq_some_iff.mp h
    cases hme
    obtain ⟨⟨u, w⟩, hu, h⟩ := bind_eq_some_iff.mp h
    obtain ⟨hku, hpost⟩ := namexRound_spec hc hpos hroot hu
    cases w with
    | done r =>
      cases h
      refine ⟨hpost.1, hk.trans hku, fun ip' hip' => ?_⟩
      rw [hpost.2 ip' hip']
      exact hip
    | next ip' =>
      refine ih rest name1 ip' u hpost.1 hpos ((hku.inum rootip hpos).trans hroot)
        (hk.trans hku) ?_ h
      rcases hpost.2 with he | ⟨root, hcont, hreach⟩
      · rwa [he]
      · exact hS root _ _ hcont hip (hk.reaches hreach)

/-- **`namex` by a process.** Its root and working directory are owed their references and lie in the
set. -/
theorem namex_spec {S : Ino → Prop} {path : CStr} {parent : Bool} {name' : CharArr DIRSIZ}
     (hc : Covers s.refs owed)
    (hS : ∀ root d i, me.cont = some root → S d → Reaches root s.nodes d i → S i)
    (hroot : ∀ root ip, me.cont = some root → root.rootdir = some ip → 0 < owed ip ∧ S (s.cache ip).inum)
    (hcwd : ∀ ip, me.cwd = some ip → 0 < owed ip ∧ S (s.cache ip).inum)
    (h : namex (some me) path parent name s = some (s', r, name')) :
    Covers s'.refs (owed + holds r) ∧ Keeps owed s s' ∧ ∀ ip, r = some ip → S (s'.cache ip).inum := by
  obtain ⟨⟨u, rootip⟩, hu, h⟩ := bind_eq_some_iff.mp h
  obtain ⟨⟨v, ip⟩, hv, h⟩ := bind_eq_some_iff.mp h
  obtain ⟨hcu, hku, hinum⟩ := iget_spec hc hu
  -- both ways to start duplicate a pointer the caller has
  have hstart : 0 < owed ip ∧ S (s.cache ip).inum ∧ v = idup ip u := by
    unfold namexStart at hv
    dsimp only at hv
    split at hv
    · obtain ⟨ip', hip, hv⟩ := map_eq_some_iff.mp hv
      cases hv
      obtain ⟨root, hcont, hdir⟩ := bind_eq_some_iff.mp hip
      exact ⟨(hroot root _ hcont hdir).1, (hroot root _ hcont hdir).2, rfl⟩
    · obtain ⟨ip', hip, hv⟩ := map_eq_some_iff.mp hv
      cases hv
      exact ⟨(hcwd _ hip).1, (hcwd _ hip).2, rfl⟩
  obtain ⟨hpos, hin, rfl⟩ := hstart
  obtain ⟨hcv, hkv, hsame⟩ := idup_spec hcu ip
  have hrootpos : 0 < (owed + Pi.single rootip 1 : Iptr → Nat) rootip := by simp
  have hspec : Covers s'.refs (owed + Pi.single rootip 1 + holds r) ∧
      Keeps (owed + Pi.single rootip 1) (idup ip u) s' ∧
      ∀ ip, r = some ip → S (s'.cache ip).inum := by
    refine namexLoop_spec (fun root d i hcont hd hr => hS root d i hcont hd ?_) path.strlen
      path.bytes name ip _ hcv hrootpos ((hkv.inum rootip hrootpos).trans hinum) (.refl _ _) ?_ h
    · exact (hku.trans (hkv.mono fun _ => Nat.le_add_right _ _)).reaches hr
    · rw [hsame, hku.inum ip hpos]
      exact hin
  obtain ⟨hc', hk', hin'⟩ := hspec
  refine ⟨?_, ?_, hin'⟩
  · rw [add_right_comm] at hc'
    exact hc'.drop
  · exact hku.trans ((hkv.trans hk').mono fun _ => Nat.le_add_right _ _)

/-! ## Lookups return -/

theorem iunlockput_returns {t : Slot} (hl : LockedBy t ip s) (href : 0 < s.refs ip) :
    ∃ s', iunlockput t ip s = some s' := by
  obtain ⟨u, hu, hfree⟩ := iunlock_returns hl href
  obtain ⟨v, hv⟩ := iput_returns hfree ip
  exact ⟨v, by rw [iunlockput, hu, bind_some, hv]⟩

theorem dirlookup_returns {n : Nat} (name : CharArr DIRSIZ) (hdir : (s.node ip).type = .dir)
    (hroom : Room (n + 1) s) :
    ∃ s' r, dirlookup ip name s = some (s', r) ∧ s'.nodes = s.nodes ∧ Room n s' ∧
      ∀ j, (s'.cache j).lock = (s.cache j).lock := by
  unfold dirlookup
  rw [if_neg (not_not.mpr hdir)]
  split
  · exact ⟨s, none, rfl, rfl, Nat.le_of_succ_le hroom, fun _ => rfl⟩
  · rename_i de hde
    obtain ⟨u, next, hu, hnodes, hr, hlock⟩ := iget_returns de.inum.toNat hroom
    exact ⟨u, some next, by rw [hu]; rfl, hnodes, hr, hlock⟩

/-- A round in a container other than the root returns, and takes at most one entry of the cache. -/
theorem namexRound_returns {n : Nat} (rootip : Iptr) (last : Bool)
    (name : CharArr DIRSIZ) (hcont : me.cont = some root) (h0 : root.isroot = 0)
    (hc : Covers s.refs (owed + Pi.single ip 1)) (hu : Unlocked s) (hroom : Room (n + 1) s)
    (htype : (s.node ip).type ≠ .free) :
    ∃ s' w, namexRound me rootip last name ip s = some (s', w) ∧
      ∀ ip', w = .next ip' → s'.nodes = s.nodes ∧ Room n s' ∧ Unlocked s' := by
  have hpos : ∀ owed : Iptr → Nat, 0 < (owed + Pi.single ip 1 : Iptr → Nat) ip := fun _ => by simp
  obtain ⟨u, hlock, hlu⟩ := ilock_returns (t := me.slot) hu (hc.pos (hpos _)) htype
  have ha := ilock_alike hlock
  have hcu : Covers u.refs (owed + Pi.single ip 1) := ha.refs ▸ hc
  simp only [namexRound, hlock, bind_eq_bind, bind_some]
  split
  · obtain ⟨v, hv⟩ := iunlockput_returns hlu (hcu.pos (hpos _))
    exact ⟨v, .done none, by rw [hv]; rfl, fun _ h => nomatch h⟩
  rename_i hdir
  split
  · obtain ⟨v, hv, -⟩ := iunlock_returns hlu (hcu.pos (hpos _))
    exact ⟨v, .done (some ip), by rw [hv]; rfl, fun _ h => nomatch h⟩
  have hroomu : Room (n + 1) u := by rw [Room, ha.refs]; exact hroom
  obtain ⟨v, r, hv, hnodes, hroomv, hlocks⟩ := dirlookup_returns name (not_not.mp hdir) hroomu
  have hlv : LockedBy me.slot ip v := fun j => (hlocks j).trans (hlu j)
  have hspec := dirlookup_spec hcu hv
  rw [hv, bind_some]
  cases r with
  | none =>
    obtain ⟨v', hv'⟩ := iunlockput_returns hlv (hspec.1 rfl ▸ hcu.pos (hpos _))
    exact ⟨v', .done none, by simp [hv'], fun _ h => nomatch h⟩
  | some next =>
    have href : 0 < v.refs ip := (hspec.2 next rfl).1.drop.pos (hpos _)
    obtain ⟨v', hv', hfree⟩ := iunlock_returns hlv href
    have hleave : leaveDir me root ip v = some v' := by rw [leaveDir, if_neg (not_not.mpr h0), hv']
    refine ⟨v', _, by simp [hcont, hleave]; rfl, fun ip' _ => ⟨?_, ?_, hfree⟩⟩
    · rw [(iunlock_alike hv').nodes, hnodes, ha.nodes]
    · rw [Room, (iunlock_alike hv').refs]
      exact hroomv

section Returns

variable {S : Ino → Prop} {root : Root} {parent : Bool}

theorem namexEnd_returns (name : CharArr DIRSIZ) (ip : Iptr) (hu : Unlocked s) :
    ∃ x, namexEnd parent name ip s = some x := by
  unfold namexEnd
  split
  · obtain ⟨v, hv⟩ := iput_returns hu ip
    exact ⟨_, by rw [hv]; rfl⟩
  · exact ⟨_, rfl⟩

/-- The loop has a round for each component and an entry of the cache for each round. -/
theorem namexLoop_returns {nodes : Ino → Dinode} (hcont : me.cont = some root)
    (h0 : root.isroot = 0) (hS : ∀ d i, S d → Reaches root nodes d i → S i)
    (halloc : ∀ i, S i → (nodes i).type ≠ .free) :
    ∀ (fuel : Nat) (path : List UInt8) (name : CharArr DIRSIZ) (ip : Iptr) (s : Inodes),
      Covers s.refs (owed + Pi.single ip 1) → 0 < owed rootip →
      (s.cache rootip).inum = ROOTINO → s.nodes = nodes → S (s.cache ip).inum → Unlocked s →
      Room path.length s →
      ∃ x, namexLoop (some me) parent rootip fuel path name ip s = some x := by
  intro fuel
  induction fuel with
  | zero => exact fun _ name ip s _ _ _ _ _ hu _ => namexEnd_returns name ip hu
  | succ fuel ih =>
    intro path name ip s hc hpos hroot hnodes hip hu hroom
    unfold namexLoop
    split
    · exact namexEnd_returns name ip hu
    rename_i rest name' hskip
    have hlen := skipelem_length hskip
    have hroom' : Room (path.length - 1 + 1) s := by rwa [Nat.sub_add_cancel (by omega)]
    have htype : (s.node ip).type ≠ .free := by rw [Inodes.node, hnodes]; exact halloc _ hip
    obtain ⟨u, w, hw, hnext⟩ := namexRound_returns rootip (parent && rest.isEmpty) name' hcont h0 hc hu hroom' htype
    simp only [bind_eq_bind, bind_some, hw]
    cases w with
    | done r => exact ⟨_, rfl⟩
    | next ip' =>
      obtain ⟨hkeep, hcov, hin⟩ := namexRound_spec hc hpos hroot hw
      obtain ⟨hn, hr, hul⟩ := hnext ip' rfl
      refine ih rest name' ip' u hcov hpos ((hkeep.inum rootip hpos).trans hroot)
        (hn.trans hnodes) ?_ hul (Nat.le_trans (by omega) hr)
      rcases hin with he | ⟨root', hcont', hreach⟩
      · rwa [he]
      · cases hcont.symm.trans hcont'
        exact hS _ _ hip (hnodes ▸ hreach)

/-- **Lookups return** in a container other than the root, while no inode is locked, the inodes of the
set are in use and the cache has room for one inode per byte of the path and one more. -/
theorem namex_returns {path : CStr} {ip0 ip1 : Iptr} (name : CharArr DIRSIZ)
    (hcont : me.cont = some root) (h0 : root.isroot = 0) (hc : Covers s.refs owed)
    (hS : ∀ d i, S d → Reaches root s.nodes d i → S i)
    (halloc : ∀ i, S i → (s.nodes i).type ≠ .free)
    (hroot : root.rootdir = some ip0) (hroot1 : 0 < owed ip0 ∧ S (s.cache ip0).inum)
    (hcwd : me.cwd = some ip1) (hcwd1 : 0 < owed ip1 ∧ S (s.cache ip1).inum) (hu : Unlocked s)
    (hroom : Room (path.strlen + 1) s) : ∃ x, namex (some me) path parent name s = some x := by
  obtain ⟨u, rootip, hget, hnodes, hroomu, hlocks⟩ := iget_returns ROOTINO hroom
  obtain ⟨hcu, hku, hinum⟩ := iget_spec hc hget
  have hstart : ∃ ip, namexStart (some me) path rootip u = some (idup ip u, ip) ∧ 0 < owed ip ∧ S (s.cache ip).inum := by
    unfold namexStart
    dsimp only
    split
    · exact ⟨ip0, by simp [hcont, hroot], hroot1⟩
    · exact ⟨ip1, by simp [hcwd], hcwd1⟩
  obtain ⟨ip, hip, hpos, hin⟩ := hstart
  obtain ⟨hcv, hkv, hsame⟩ := idup_spec hcu ip
  have hrootpos : 0 < (owed + Pi.single rootip 1 : Iptr → Nat) rootip := by simp
  have hlock : Unlocked (idup ip u) := fun j => by
    have hsame : ((idup ip u).cache j).lock = (u.cache j).lock := Lib.update_same Inode.lock (by rfl) j
    rw [hsame, hlocks, hu]
  have hroomv : Room path.bytes.length (idup ip u) := by
    have hcount := Lib.count_update (P := (· = (0 : Int))) (f := u.refs) ip (u.refs ip + 1)
    have hne : u.refs ip ≠ 0 := Int.ne_of_gt (hcu.drop.pos hpos)
    rw [if_neg hne] at hcount
    have hroomu' : path.bytes.length ≤ count (· = (0 : Int)) u.refs := hroomu
    rw [Room, idup, refs_set]
    change _ ≤ count (· = (0 : Int)) (update u.refs ip (u.refs ip + 1))
    omega
  simp only [namex, hget, hip, bind_eq_bind, bind_some]
  refine namexLoop_returns hcont h0 hS halloc path.strlen path.bytes name ip (idup ip u) hcv hrootpos
    ((hkv.inum rootip hrootpos).trans hinum) hnodes ?_ hlock hroomv
  rw [hsame, hku.inum ip hpos]
  exact hin

end Returns

end Xv6.Fs
