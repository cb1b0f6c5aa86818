/-
# Xv6.Fs.Rooted — the root directories of the containers.

`kccreate(name)` uses its argument twice: as the container's name, of which 16 bytes are stored, and
as a path, which `namei` follows.  The barrier of `namex` needs the inode found to be a directory
directly below the root of the file system (`Xv6.Fs.Confine`), and `fork(c)` needs it to be there at
all.  Neither is checked, and a name that does not fit is not found again by `setcontrootdir`, which
leaves the container `CINITED` without a root.

The tree does not change here.  `pathInode` says where a path leads by i-numbers alone, and
`namei_path` that this is what `namei` returns, whatever else uses the inode cache.
-/
import Xv6.Fs.Confine
import Xv6.Kernel.Naming

namespace Xv6.Fs

open Option (bind_eq_some_iff map_eq_some_iff)
open Function
open Kernel (Slot Cid Ino CStr CharArr NINODE NCPU ROOTINO strncpy)
open Lib (Covers)

def entry (nodes : Ino → Dinode) (i : Ino) (name : CharArr DIRSIZ) : Option Ino :=
  ((nodes i).ents.find? fun de => de.inum != 0 && namecmp name de.name == 0).map (·.inum.toNat)

/-- The rounds of a lookup: a component that leads a container to the root of the file system is
passed over. -/
def pathLoop (nodes : Ino → Dinode) (isroot : Int) : Nat → List UInt8 → CharArr DIRSIZ → Ino → Option Ino
  | 0, _, _, i => some i
  | fuel + 1, path, name, i =>
    match skipelem path name with
    | none => some i
    | some (path, name) =>
      if (nodes i).type ≠ .dir then none
      else (entry nodes i name).bind fun next =>
        pathLoop nodes isroot fuel path name (if isroot ≠ 0 ∨ next ≠ ROOTINO then next else i)

/-- The inode that `path` leads to from `start`; `name` is
what the buffer for components holds. -/
def pathInode (nodes : Ino → Dinode) (isroot : Int) (start : Ino) (path : CStr)
    (name : CharArr DIRSIZ) : Option Ino :=
  pathLoop nodes isroot path.strlen path.bytes name start

/-! ## `namei` follows it -/

/-- Inodes without links are free: `iput` has nothing to free. -/
def Settled (nodes : Ino → Dinode) : Prop := ∀ i, (nodes i).nlink = 0 → (nodes i).freed = nodes i

variable {owed : Iptr → Nat} {s s' : Inodes} {ip rootip : Iptr} {me : Caller} {root : Root}
  {name name' : CharArr DIRSIZ}

theorem iget_nodes {inum : Ino} (h : iget inum s = some (s', ip)) : s'.nodes = s.nodes := by
  unfold iget at h
  split at h
  · cases h
    rfl
  · split at h
    · cases h
    · cases h
      rfl

section

variable (hset : Settled s.nodes)
include hset

theorem iput_nodes (h : iput ip s = some s') : s'.nodes = s.nodes := by
  unfold iput at h
  dsimp only at h
  split at h
  · rename_i hlast
    split at h
    · cases h
    · cases h
      have hfreed := hset (s.cache ip).inum hlast.2.2
      show Function.update s.nodes (s.cache ip).inum (s.node ip).freed = s.nodes
      rw [Inodes.node, hfreed, update_eq_self]
  · cases h
    rfl

theorem iunlockput_nodes {t : Slot} (h : iunlockput t ip s = some s') : s'.nodes = s.nodes := by
  obtain ⟨u, hu, h⟩ := bind_eq_some_iff.mp h
  have ha := (iunlock_alike hu).nodes
  exact (iput_nodes (ha ▸ hset) h).trans ha

theorem leaveDir_nodes (h : leaveDir me root ip s = some s') : s'.nodes = s.nodes := by
  unfold leaveDir at h
  split at h
  · exact iunlockput_nodes hset h
  · exact (iunlock_alike h).nodes

end

theorem dirlookup_entry {r : Option Iptr} (hc : Covers s.refs owed)
    (h : dirlookup ip name s = some (s', r)) :
    s'.nodes = s.nodes ∧ r.map (fun next => (s'.cache next).inum) = entry s.nodes (s.cache ip).inum name := by
  unfold dirlookup at h
  unfold entry
  split at h
  · cases h
  split at h
  · rename_i hnone
    cases h
    refine ⟨rfl, ?_⟩
    rw [show (s.nodes (s.cache ip).inum).ents = (s.node ip).ents from rfl, hnone]
    rfl
  rename_i de hde
  obtain ⟨⟨u, next⟩, hu, h⟩ := map_eq_some_iff.mp h
  cases h
  refine ⟨iget_nodes hu, ?_⟩
  rw [show (s.nodes (s.cache ip).inum).ents = (s.node ip).ents from rfl, hde]
  exact congrArg some (iget_spec hc hu).2.2

/-- Where a round of a lookup gets to: nowhere, or along the entry. -/
def RoundPath (nodes : Ino → Dinode) (isroot : Int) (name : CharArr DIRSIZ) (i : Ino)
    (s' : Inodes) : Walk → Prop
  | .done r => r = none ∧ ((nodes i).type ≠ .dir ∨ entry nodes i name = none)
  | .next ip' => (nodes i).type = .dir ∧ ∃ next, entry nodes i name = some next ∧
      (s'.cache ip').inum = if isroot ≠ 0 ∨ next ≠ ROOTINO then next else i

theorem namexRound_path {w : Walk} (hc : Covers s.refs (owed + Pi.single ip 1))
    (hpos : 0 < owed rootip) (hroot : (s.cache rootip).inum = ROOTINO) (hset : Settled s.nodes)
    (hcont : me.cont = some root) (h : namexRound me rootip false name ip s = some (s', w)) :
    s'.nodes = s.nodes ∧ RoundPath s.nodes root.isroot name (s.cache ip).inum s' w := by
  obtain ⟨u, hu, h⟩ := bind_eq_some_iff.mp h
  have ha := ilock_alike hu
  have hcu : Covers u.refs (owed + Pi.single ip 1) := ha.refs ▸ hc
  have hsetu : Settled u.nodes := ha.nodes ▸ hset
  split at h
  · rename_i hdir
    obtain ⟨v, hv, hw⟩ := map_eq_some_iff.mp h
    cases hw
    refine ⟨(iunlockput_nodes hsetu hv).trans ha.nodes, rfl, .inl ?_⟩
    rwa [ha.node] at hdir
  rename_i hdir
  have hdir' : (s.nodes (s.cache ip).inum).type = .dir := by
    rw [ha.node] at hdir
    exact not_not.mp hdir
  obtain ⟨⟨v, next⟩, hv, h⟩ := bind_eq_some_iff.mp h
  obtain ⟨hvn, hentry⟩ := dirlookup_entry hcu hv
  rw [ha.nodes, ha.inum] at hentry
  have hsetv : Settled v.nodes := hvn ▸ hsetu
  cases next with
  | none =>
    obtain ⟨v', hv', hw⟩ := map_eq_some_iff.mp h
    cases hw
    exact ⟨(iunlockput_nodes hsetv hv').trans (hvn.trans ha.nodes), rfl, .inr hentry.symm⟩
  | some next =>
    obtain ⟨hcv, hkv, -⟩ := (dirlookup_spec hcu hv).2 next rfl
    obtain ⟨root', hcont', h⟩ := bind_eq_some_iff.mp h
    cases hcont.symm.trans hcont'
    obtain ⟨v', hv', hw⟩ := bind_eq_some_iff.mp h
    obtain ⟨rfl, rfl⟩ := Prod.mk.inj (Option.some.inj hw)
    rw [add_right_comm] at hcv
    obtain ⟨-, hk, -⟩ := leaveDir_spec hcv hv'
    have hkeep : Keeps (owed + Pi.single ip 1) s v' := (ha.keeps.trans hkv).trans (hk _)
    have hnext : (v'.cache next).inum = (v.cache next).inum := (hk fun _ => 1).inum next Nat.one_pos
    have hrootip : (v'.cache rootip).inum = ROOTINO :=
      (hkeep.inum rootip (Nat.lt_of_lt_of_le hpos (Nat.le_add_right _ _))).trans hroot
    have hip : (v'.cache ip).inum = (s.cache ip).inum := hkeep.inum ip (by simp)
    refine ⟨(leaveDir_nodes hsetv hv').trans (hvn.trans ha.nodes), hdir', _, hentry.symm, ?_⟩
    rw [hrootip, hnext]
    split
    · exact hnext
    · exact hip

theorem namexLoop_path {r : Option Iptr} (hcont : me.cont = some root) :
    ∀ (fuel : Nat) (path : List UInt8) (name : CharArr DIRSIZ) (ip : Iptr) (s : Inodes),
      Covers s.refs (owed + Pi.single ip 1) → 0 < owed rootip →
      (s.cache rootip).inum = ROOTINO → Settled s.nodes →
      namexLoop (some me) false rootip fuel path name ip s = some (s', r, name') →
      s'.nodes = s.nodes ∧ r.map (fun ip => (s'.cache ip).inum) =
        pathLoop s.nodes root.isroot fuel path name (s.cache ip).inum := by
  intro fuel
  induction fuel with
  | zero =>
    intro path name ip s hc hpos hroot hset h
    cases h
    exact ⟨rfl, rfl⟩
  | succ fuel ih =>
    intro path name ip s hc hpos hroot hset h
    rw [namexLoop] at h
    rw [pathLoop]
    rcases hskip : skipelem path name with _ | ⟨rest, name1⟩
    · rw [hskip] at h
      cases h
      exact ⟨rfl, rfl⟩
    rw [hskip] at h
    dsimp only at h ⊢
    obtain ⟨me', hme, h⟩ := bind_eq_some_iff.mp h
    cases hme
    obtain ⟨⟨u, w⟩, hu, h⟩ := bind_eq_some_iff.mp h
    have hspec := namexRound_spec hc hpos hroot hu
    obtain ⟨hun, hround⟩ := namexRound_path hc hpos hroot hset hcont hu
    cases w with
    | done r =>
      cases h
      obtain ⟨rfl, hstop⟩ := hround
      refine ⟨hun, ?_⟩
      split
      · rfl
      · rename_i hdir
        rw [hstop.resolve_left hdir]
        rfl
    | next ip' =>
      obtain ⟨hdir, next, hentry, hinum⟩ := hround
      obtain ⟨hn, hr⟩ := ih rest name1 ip' u hspec.2.1 hpos
        ((hspec.1.inum rootip hpos).trans hroot) (hun ▸ hset) h
      refine ⟨hn.trans hun, ?_⟩
      rw [hr, hun, hinum, if_neg (not_not.mpr hdir), hentry]
      rfl

/-- **`namei` returns the inode its path leads to**, from the root of the caller's container or its
working directory, and leaves the tree alone. -/
theorem namei_path {path : CStr} {r : Option Iptr} (hc : Covers s.refs owed)
    (hset : Settled s.nodes) (hcont : me.cont = some root)
    (hroot : ∀ ip, root.rootdir = some ip → 0 < owed ip)
    (hcwd : ∀ ip, me.cwd = some ip → 0 < owed ip)
    (h : namei (some me) path name s = some (s', r)) :
    s'.nodes = s.nodes ∧ ∃ start, (if path.get 0 = slash then root.rootdir else me.cwd) = some start ∧
      r.map (fun ip => (s'.cache ip).inum) = pathInode s.nodes root.isroot (s.cache start).inum path name := by
  obtain ⟨⟨s'', r', name'⟩, h, hr⟩ := map_eq_some_iff.mp h
  cases hr
  obtain ⟨⟨u, rootip⟩, hu, h⟩ := bind_eq_some_iff.mp h
  obtain ⟨⟨v, ip⟩, hv, h⟩ := bind_eq_some_iff.mp h
  obtain ⟨hcu, hku, hinum⟩ := iget_spec hc hu
  -- both ways to start duplicate a pointer the caller has
  have hstart : 0 < owed ip ∧ v = idup ip u ∧ (if path.get 0 = slash then root.rootdir else me.cwd) = some ip := by
    unfold namexStart at hv
    dsimp only at hv
    split at hv
    · rename_i hslash
      obtain ⟨ip', hip, hv⟩ := map_eq_some_iff.mp hv
      cases hv
      rw [hcont] at hip
      exact ⟨hroot _ hip, rfl, by rw [if_pos hslash]; exact hip⟩
    · rename_i hslash
      obtain ⟨ip', hip, hv⟩ := map_eq_some_iff.mp hv
      cases hv
      exact ⟨hcwd _ hip, rfl, by rw [if_neg hslash]; exact hip⟩
  obtain ⟨hpos, rfl, hfrom⟩ := hstart
  obtain ⟨hcv, hkv, hsame⟩ := idup_spec hcu ip
  have hrootpos : 0 < (owed + Pi.single rootip 1 : Iptr → Nat) rootip := by simp
  have hnodes : (idup ip u).nodes = s.nodes := show u.nodes = s.nodes from iget_nodes hu
  have hloop := namexLoop_path hcont path.strlen path.bytes name ip _ hcv hrootpos
    ((hkv.inum rootip hrootpos).trans hinum) (by rwa [hnodes]) h
  rw [hnodes, hsame, hku.inum ip hpos] at hloop
  exact ⟨hloop.1, ip, hfrom, hloop.2⟩

/-- The name matches what `kccreate` stores of it: it fits into 16 bytes, or its 17th byte is the
byte `8` that lies behind them (`max_proc`). -/
def Retrievable (name : CStr) : Prop := name.strlen ≤ 16 ∨ name.strlen = 17 ∧ name.get 16 = 8
deriving Decidable

/-- Behind the array lies `max_proc`, eight. -/
theorem nameAt_created (name : CStr) (x : Kernel.Container) (i : Nat) :
    (x.created name).nameAt i = if i < 16 then name.get i else if i = 16 then 8 else 0 := by
  unfold Kernel.Container.nameAt
  split
  · rfl
  rename_i h16
  by_cases h20 : i < 20
  · obtain rfl | rfl | rfl | rfl : i = 16 ∨ i = 17 ∨ i = 18 ∨ i = 19 := by omega
    all_goals rfl
  · have hne : i ≠ 16 := by omega
    rw [if_neg h20, if_neg hne]

/-- **The second lookup**: `setcontrootdir` finds the container just made exactly when its name is
retrievable. -/
theorem answersTo_created_iff (name : CStr) (x : Kernel.Container) :
    (x.created name).answersTo name = true ↔ Retrievable name := by
  rw [Kernel.Container.answersTo, beq_iff_eq, Kernel.strncmp_strlen_eq_zero_iff]
  simp only [nameAt_created]
  constructor
  · intro h
    by_contra hr
    obtain ⟨hlong, hr⟩ := not_or.mp hr
    by_cases h17 : name.strlen = 17
    · exact hr ⟨h17, by simpa using h 16 (by omega)⟩
    · have h0 := h 17 (by omega)
      simp only [Nat.reduceLT, Nat.reduceEqDiff, if_false] at h0
      exact Kernel.CStr.get_ne_zero (by omega) h0
  · rintro (hshort | ⟨h17, h8⟩) i hi
    · rw [if_pos (by omega)]
    split
    · rfl
    · have : i = 16 := by omega
      subst this
      rw [if_pos rfl, h8]

/-! ## The containers' roots -/

section Roots

variable {nodes : Ino → Dinode} {s s' : Kernel.State} {c : Cid} {path : CStr} {dir : Option Ino}

/-- Inode `i` is a directory directly below the root of the file system. -/
def BelowRoot (nodes : Ino → Dinode) (i : Ino) : Prop := (nodes i).type = .dir ∧ Child nodes ROOTINO i

/-- Every container in use but the root container has a root directory
directly below the root of the file system. -/
def ProperRoots (nodes : Ino → Dinode) (s : Kernel.State) : Prop :=
  ∀ c, (s.cont c).isroot = 0 →
    ((s.cont c).state = .cinited ∨ (s.cont c).state = .crunnable ∨ (s.cont c).state = .cpaused) →
    ∃ i, (s.cont c).rootdir = some i ∧ BelowRoot nodes i

/-- If `kccreate(path)` makes a container, its name is retrievable, and
`dir`, where the path leads, is no inode or a directory directly below the root. -/
def Suits (nodes : Ino → Dinode) (path : CStr) (dir : Option Ino) (s : Kernel.State) : Prop :=
  Kernel.name2cont path s = none → Kernel.freeCid s ≠ none →
    Retrievable path ∧ ∀ i, dir = some i → BelowRoot nodes i

/-- What every state keeps: a free container has no root, and no container is seen `CSTOPPED`. -/
structure Rooted (nodes : Ino → Dinode) (s : Kernel.State) : Prop where
  free : ∀ c, (s.cont c).state = .cunused → (s.cont c).rootdir = none
  used : ∀ c, (s.cont c).isroot = 0 → (s.cont c).state ≠ .cunused →
    ∃ i, (s.cont c).rootdir = some i ∧ BelowRoot nodes i

section

variable (h : Rooted nodes s)
include h

theorem Rooted.properRoots : ProperRoots nodes s := by
  intro c hroot hstate
  refine h.used c hroot ?_
  rintro hu
  rw [hu] at hstate
  simp at hstate

theorem Rooted.kept (hk : Kernel.NamesKept s s') : Rooted nodes s' where
  free c hc := by
    rcases hk c with hsame | hcleared
    · exact hsame.rootdir.trans (h.free c (hsame.unused.mp hc))
    · exact hcleared.rootdir
  used c hroot hc := by
    rcases hk c with hsame | hcleared
    · obtain ⟨i, hi, hbelow⟩ := h.used c (hsame.isroot.symm.trans hroot) fun hu =>
        hc (hsame.unused.mpr hu)
      exact ⟨i, hsame.rootdir.trans hi, hbelow⟩
    · exact absurd hcleared.unused hc

theorem Rooted.setCont {x : Kernel.Container} {i : Ino}
    (hused : x.state ≠ .cunused) (hx : x.rootdir = some i) (hi : BelowRoot nodes i) :
    Rooted nodes (s.setCont c x) where
  free d hd := by
    by_cases hdc : d = c
    · subst hdc
      exact absurd (by simpa using hd) hused
    · simp only [Kernel.State.setCont_cont, update_of_ne hdc] at hd ⊢
      exact h.free d hd
  used d hroot hd := by
    by_cases hdc : d = c
    · subst hdc
      exact ⟨i, by simpa using hx, hi⟩
    · simp only [Kernel.State.setCont_cont, update_of_ne hdc] at hroot hd ⊢
      exact h.used d hroot hd

theorem Rooted.kccreate (hok : Suits nodes path dir s) : Rooted nodes (Kernel.kccreate path dir s).1 := by
  have hc := Kernel.kccreate_creates path dir s
  generalize (Kernel.kccreate path dir s).1 = s' at hc ⊢
  cases hc with
  | refused _ => exact h
  | missed hfree hnew hmiss =>
    have hr := (hok hnew (by simp [hfree])).1
    rw [(answersTo_created_iff path _).mpr hr] at hmiss
    cases hmiss
  | undone hfree hnew hfound hdir => exact h.kept Kernel.namesKept_undone
  | @done c i hfree hnew hfound hdir =>
    exact h.setCont (by simp [Kernel.Container.created]) rfl
      ((hok hnew (by simp [hfree])).2 i hdir)

/-- **`kccreate` keeps the roots proper exactly when its argument suits.** -/
theorem kccreate_properRoots_iff : ProperRoots nodes (Kernel.kccreate path dir s).1 ↔ Suits nodes path dir s := by
  constructor
  · intro hp
    have hc := Kernel.kccreate_creates path dir s
    generalize (Kernel.kccreate path dir s).1 = s' at hc hp
    intro hnew hfree
    cases hc with
    | refused hr => exact absurd (hr hnew) hfree
    | @missed c hfree hnew hmiss =>
      -- the slot was free, so it has no root
      obtain ⟨i, hi, -⟩ := hp c (by simp [Kernel.Container.created])
        (by simp [Kernel.Container.created])
      have hunused : (s.cont c).state = .cunused := by
        simpa using (Fin.find?_eq_some_iff.mp hfree).1
      have hnone := h.free c hunused
      simp [Kernel.Container.created, hnone] at hi
    | undone hfree hnew hfound hdir =>
      refine ⟨(answersTo_created_iff path _).mp hfound, fun i hi => ?_⟩
      rw [hdir] at hi
      cases hi
    | @done c j hfree hnew hfound hdir =>
      refine ⟨(answersTo_created_iff path _).mp hfound, fun i hi => ?_⟩
      obtain ⟨i', hi', hbelow⟩ := hp c (by simp [Kernel.Container.created])
        (by simp [Kernel.Container.created])
      cases hdir.symm.trans hi
      simp only [Kernel.State.setCont_cont, update_self, Option.some.injEq] at hi'
      rwa [hi']
  · exact fun hok => (h.kccreate hok).properRoots

end

/-- A `ccreate` is told where its path leads in the tree: from the root of
the caller's container, or from a working directory. -/
def Answered (nodes : Ino → Dinode) (s : Kernel.State) : Kernel.Event → Prop
  | .call k (.ccreate path dir) => ∃ c start name, s.mycont k = some c ∧
      (path.get 0 = slash → (s.cont c).rootdir = some start) ∧
      dir = pathInode nodes (s.cont c).isroot start path name
  | _ => True

def Suited (nodes : Ino → Dinode) (s : Kernel.State) : Kernel.Event → Prop
  | .call _ (.ccreate path dir) => Suits nodes path dir s
  | _ => True

theorem rooted_boot (nodes : Ino → Dinode) (free : Nat) : Rooted nodes (Kernel.boot free) where
  free c hc := by
    by_cases h0 : c = Kernel.ROOTCONT
    · subst h0
      simp [Kernel.boot, Kernel.rootCont] at hc
    · simp [Kernel.boot, h0, Kernel.Container.zero]
  used c hroot hc := by
    by_cases h0 : c = Kernel.ROOTCONT
    · subst h0
      simp [Kernel.boot, Kernel.rootCont] at hroot
    · simp [Kernel.boot, h0, Kernel.Container.zero] at hc

/-- **Every usable container has a proper root**, directly below the root of the file system, in every run whose `ccreate`
calls have arguments that suit; and a further `ccreate` keeps it so exactly when its argument suits. -/
theorem proper_roots {free : Nat} (h : Lib.Reach Kernel.step
      (fun s e => Answered nodes s e ∧ Suited nodes s e) (Kernel.boot free) s) :
    ProperRoots nodes s ∧ ∀ (path : CStr) (dir : Option Ino),
      ProperRoots nodes (Kernel.kccreate path dir s).1 ↔ Suits nodes path dir s := by
  have hr : Rooted nodes s := by
    refine (Lib.Reach.invariant (I := fun s => Kernel.Armed (s.view none) ∧ Rooted nodes s)
      ⟨Kernel.armed_boot free, rooted_boot nodes free⟩ (fun s e s' hs hok hstep => ?_) h).2
    refine ⟨(Kernel.step_acts hs.1 hstep).invariant (fun _ _ _ hv _ hf => hf.armed hv) hs.1, ?_⟩
    rcases Kernel.step_names hs.1 hstep with hkept | ⟨k, name, dir, rfl, rfl⟩
    · exact hs.2.kept hkept
    · exact hs.2.kccreate hok.2
  exact ⟨hr.properRoots, fun path dir => kccreate_properRoots_iff hr⟩

end Roots

/-! ## Three arguments -/

/-- A `ccreate` is made by a process of the root container, in `/`, and its argument passes `p`. -/
def createsAtRoot (nodes : Ino → Dinode) (p : CStr → Option Ino → Bool) (s : Kernel.State) : Kernel.Event → Bool
  | .call k (.ccreate path dir) => s.mycont k == some Kernel.ROOTCONT &&
      (s.cont Kernel.ROOTCONT).rootdir == some ROOTINO &&
      dir == pathInode nodes (s.cont Kernel.ROOTCONT).isroot ROOTINO path dot && p path dir
  | _ => true

section Creates

variable {nodes : Ino → Dinode} {p : CStr → Option Ino → Bool} {s : Kernel.State} {e : Kernel.Event}

theorem createsAtRoot_answered (h : createsAtRoot nodes p s e = true) : Answered nodes s e := by
  cases e with
  | call k x =>
    cases x with
    | ccreate path dir =>
      simp only [createsAtRoot, Bool.and_eq_true, beq_iff_eq] at h
      exact ⟨_, ROOTINO, dot, h.1.1.1, fun _ => h.1.1.2, h.1.2⟩
    | _ => trivial
  | _ => trivial

theorem createsAtRoot_suited (hp : ∀ path dir, p path dir = true → Suits nodes path dir s)
    (h : createsAtRoot nodes p s e = true) : Suited nodes s e := by
  cases e with
  | call k x =>
    cases x with
    | ccreate path dir =>
      rw [createsAtRoot, Bool.and_eq_true] at h
      exact hp path dir h.2
    | _ => trivial
  | _ => trivial

end Creates

def createRun (path : CStr) : List Kernel.Event :=
  [.sched 0, .sched 1, .call 1 (.ccreate path (pathInode smallTree 1 ROOTINO path dot))]

theorem settled_smallTree : Settled smallTree := by
  intro i hi
  unfold smallTree at hi ⊢
  split at hi
  · cases hi
  · cases hi
  · cases hi
  · rfl

/-- The first process, in the root container, looks up `/a/../a/b`: it gets a reference to inode 3. -/
theorem namei_path_deep : ∃ s' ip, namei (some (smallFiles.caller 0)) (.ofBytes [47, 97, 47, 46, 46, 47, 97, 47, 98] rfl) dot
    smallFiles.inodes = some (s', some ip) ∧ s'.nodes = smallTree ∧ (s'.cache ip).inum = 3 := by
  have hc : Covers smallFiles.inodes.refs smallFiles.owed := by
    change ∀ i, _
    decide
  have hsome : (namei (some (smallFiles.caller 0)) (.ofBytes [47, 97, 47, 46, 46, 47, 97, 47, 98] rfl) dot
      smallFiles.inodes).any (·.2.isSome) = true := by decide
  obtain ⟨⟨s', r⟩, hrun, hr⟩ := (Option.any_eq_true ..).mp hsome
  obtain ⟨ip, rfl⟩ := Option.isSome_iff_exists.mp hr
  obtain ⟨hnodes, start, hstart, hpath⟩ := namei_path hc settled_smallTree
    (show (smallFiles.caller 0).cont = some ⟨1, some 0⟩ from rfl) (by decide) (by decide) hrun
  cases hstart
  exact ⟨s', ip, hrun, hnodes, Option.some.inj hpath⟩

/-- `/a`, directly below the root, suits. -/
theorem proper_roots_top : ∃ s, Lib.Reach Kernel.step
      (fun s e => Answered smallTree s e ∧ Suited smallTree s e) (Kernel.boot 100) s ∧
    (s.cont 1).state = .cinited ∧ ProperRoots smallTree s := by
  have hbelow : BelowRoot smallTree 2 := by
    refine ⟨rfl, rfl, ⟨2, strncpy DIRSIZ (.ofBytes [97] rfl)⟩, ?_, by decide⟩
    simp [smallTree, ROOTINO]
  have hsuits : ∀ (s : Kernel.State) path dir,
      (decide (Retrievable path) && dir == some 2) = true → Suits smallTree path dir s := by
    intro s path dir h _ _
    simp only [Bool.and_eq_true, decide_eq_true_eq, beq_iff_eq] at h
    refine ⟨h.1, fun i hi => ?_⟩
    cases h.2.symm.trans hi
    exact hbelow
  obtain ⟨s, hs, hp⟩ := Lib.Reach.of_any Kernel.step
    (fun s e => createsAtRoot smallTree (fun path dir => decide (Retrievable path) && dir == some 2)
      s e = true)
    (Kernel.boot 100) (createRun (.ofBytes [97] rfl)) (fun s => (s.cont 1).state == .cinited)
    (by decide)
  have hs' : Lib.Reach Kernel.step (fun s e => Answered smallTree s e ∧ Suited smallTree s e)
      (Kernel.boot 100) s :=
    hs.mono fun s e h => ⟨createsAtRoot_answered h, createsAtRoot_suited (hsuits s) h⟩
  exact ⟨s, hs', by simpa using hp, (proper_roots hs').1⟩

/-- **Arguments that do not suit.** A container `a/b` gets a root directory two levels down; a container
with a name of 17 bytes is left `CINITED` without any. -/
theorem improper_roots : DirTree smallTree ∧ Settled smallTree ∧
    (∃ s, Lib.Reach Kernel.step (Answered smallTree) (Kernel.boot 100) s ∧
      (s.cont 1).isroot = 0 ∧ (s.cont 1).state = .cinited ∧ (s.cont 1).rootdir = some 3 ∧
      ¬ Child smallTree ROOTINO 3) ∧
    ∃ s, Lib.Reach Kernel.step (Answered smallTree) (Kernel.boot 100) s ∧
      (s.cont 1).isroot = 0 ∧ (s.cont 1).state = .cinited ∧ (s.cont 1).rootdir = none := by
  have hrun : ∀ (path : CStr) (dir : Option Ino),
      (Lib.exec Kernel.step
        (fun s e => createsAtRoot smallTree (fun _ _ => true) s e = true)
        (Kernel.boot 100) (createRun path)).any (fun s => (s.cont 1).isroot == 0 &&
          ((s.cont 1).state == .cinited && (s.cont 1).rootdir == dir)) = true →
      ∃ s, Lib.Reach Kernel.step (Answered smallTree) (Kernel.boot 100) s ∧
        (s.cont 1).isroot = 0 ∧ (s.cont 1).state = .cinited ∧ (s.cont 1).rootdir = dir := by
    intro path dir h
    obtain ⟨s, hs, hp⟩ := Lib.Reach.of_any _ _ _ _ _ h
    simp only [Bool.and_eq_true, beq_iff_eq] at hp
    exact ⟨s, hs.mono fun _ _ => createsAtRoot_answered, hp⟩
  refine ⟨dirTree_smallTree, settled_smallTree, ?_, ?_⟩
  · obtain ⟨s, hs, hroot, hstate, hdir⟩ := hrun (.ofBytes [97, 47, 98] rfl) (some 3)
      (by decide)
    refine ⟨s, hs, hroot, hstate, hdir, fun hc => ?_⟩
    rcases smallTree_child hc with ⟨-, h⟩ | ⟨h, -⟩
    · cases h
    · cases h
  · exact hrun (.ofBytes (List.replicate 17 120) rfl) none (by decide)

end Xv6.Fs
