/-
# Xv6.Fs.Confine — processes of a container stay below the container's root directory.

The only barrier is the test of `namex` that keeps the directory when the next one is the root of the
file system.  It suffices when the container's root lies directly below that root: going up one
level at a time from inside the subtree, the root of the file system is the first inode outside it.

`Files` holds all processes, because they share the inode cache: what keeps the pointers of one
process from being recycled under it are the reference counts, which every process moves.
-/
import Xv6.Lib.Trace
import Xv6.Fs.Walk

namespace Xv6.Fs

open Option (bind_eq_some_iff map_eq_some_iff)
open Kernel (Slot Cid Ino CStr CharArr NINODE ROOTINO strncpy)
open Function
open Lib (Covers count)

/-! ## Directory trees -/

def dot : CharArr DIRSIZ := strncpy DIRSIZ (.ofBytes [46] rfl)

def dotdot : CharArr DIRSIZ := strncpy DIRSIZ (.ofBytes [46, 46] rfl)

/-- Directory `d` has an entry for `i` other than `.` and `..`. -/
def Child (nodes : Ino → Dinode) (d i : Ino) : Prop :=
  (nodes d).type = .dir ∧ ∃ de ∈ (nodes d).ents, de.inum ≠ 0 ∧ namecmp dot de.name ≠ 0 ∧
    namecmp dotdot de.name ≠ 0 ∧ de.inum.toNat = i

/-- The directories form a tree: `.` is the directory itself, `..` is the
directory it is named in, `..` of the root is the root, which is named nowhere else. -/
structure DirTree (nodes : Ino → Dinode) : Prop where
  self : ∀ d, (nodes d).type = .dir → ∀ de ∈ (nodes d).ents, de.inum ≠ 0 →
    namecmp dot de.name = 0 → de.inum.toNat = d
  up : ∀ d i, Child nodes d i → (nodes i).type = .dir → ∀ de ∈ (nodes i).ents, de.inum ≠ 0 →
    namecmp dotdot de.name = 0 → de.inum.toNat = d
  root : ∀ de ∈ (nodes ROOTINO).ents, de.inum ≠ 0 → namecmp dotdot de.name = 0 → de.inum.toNat = ROOTINO
  top : ∀ d, ¬ Child nodes d ROOTINO

/-- `i` is `R` or lies below it. -/
inductive InSubtree (nodes : Ino → Dinode) (R : Ino) : Ino → Prop
  | root : InSubtree nodes R R
  | child {d i : Ino} : InSubtree nodes R d → Child nodes d i → InSubtree nodes R i

variable {nodes : Ino → Dinode} {R i d : Ino} {ip : Iptr} {root : Root} {S : Ino → Prop} {u : Inodes}

/-- The root of the file system lies in no subtree of a directory below it. -/
theorem InSubtree.ne_root (ht : DirTree nodes) (hR : Child nodes ROOTINO R)
    (h : InSubtree nodes R i) : i ≠ ROOTINO := by
  rintro rfl
  cases h with
  | root => exact ht.top _ hR
  | child _ hc => exact ht.top _ hc

/-- **The barrier suffices.** One component leads from the subtree into the subtree, unless it leads
to the root of the file system. -/
theorem InSubtree.reaches (ht : DirTree nodes) (hR : Child nodes ROOTINO R)
    (h0 : root.isroot = 0) (hd : InSubtree nodes R d) (hr : Reaches root nodes d i) :
    InSubtree nodes R i := by
  obtain ⟨hdir, ⟨de, hde, hlive, rfl⟩, hne⟩ := hr
  by_cases hdot : namecmp dot de.name = 0
  · rwa [ht.self d hdir de hde hlive hdot]
  by_cases hup : namecmp dotdot de.name = 0
  · cases hd with
    | root =>
      -- up from `R`: this is the step the barrier stops
      have hroot := ht.up ROOTINO R hR hdir de hde hlive hup
      exact absurd hroot (hne.resolve_left (not_not.mpr h0))
    | @child d' _ hd' hc => rwa [ht.up d' d hc hdir de hde hlive hup]
  · exact .child hd ⟨hdir, de, hde, hlive, hdot, hup, rfl⟩

/-! ## Processes that change directory -/

structure FsProc where
  cont : Option Cid
  cwd : Option Iptr

structure Files where
  inodes : Inodes
  proc : Slot → FsProc
  cont : Cid → Root

namespace Files

def caller (s : Files) (t : Slot) : Caller := ⟨t, (s.proc t).cont.map s.cont, (s.proc t).cwd⟩

def owed (s : Files) (ip : Iptr) : Nat :=
  count (fun p : FsProc => p.cwd = some ip) s.proc + count (fun c : Root => c.rootdir = some ip) s.cont

end Files

/-- `sys_chdir()` by process `t`.  When fetching the argument fails (`fetched` is false), the lookup is
made all the same, on whatever the buffer holds, and its reference is lost. -/
def sysChdir (t : Slot) (fetched : Bool) (path : CStr) (name : CharArr DIRSIZ) (s : Files) :
    Option (Files × Int) := do
  let (u, ip) ← namei (some (s.caller t)) path name s.inodes
  match ip with
  | none => some ({ s with inodes := u }, -1)
  | some ip =>
    if !fetched then some ({ s with inodes := u }, -1)
    else do
      let u ← ilock t ip u
      if (u.node ip).type ≠ .dir then
        (iunlockput t ip u).map fun u => ({ s with inodes := u }, -1)
      else do
        let u ← iunlock t ip u
        let cwd ← (s.proc t).cwd
        let u ← iput cwd u
        some ({ s with inodes := u, proc := update s.proc t { s.proc t with cwd := some ip } }, 0)

/-- A call of `chdir`: the process, whether the path could be fetched, the string in the path buffer,
and what was in the buffer for names. -/
structure Chdir where
  proc : Slot
  fetched : Bool
  path : CStr
  name : CharArr DIRSIZ

def chdirStep (s : Files) (e : Chdir) : Option Files := (sysChdir e.proc e.fetched e.path e.name s).map (·.1)

/-! ## One call -/

variable {s s' : Files} {t : Slot}

theorem Files.owed_cwd (h : (s.proc t).cwd = some ip) : 0 < s.owed ip := by
  refine Nat.add_pos_left (Nat.pos_of_ne_zero fun h0 => ?_) _
  exact Lib.count_eq_zero.mp h0 t h

theorem Files.owed_rootdir {c : Cid} (h : (s.cont c).rootdir = some ip) : 0 < s.owed ip := by
  refine Nat.add_pos_right _ (Nat.pos_of_ne_zero fun h0 => ?_)
  exact Lib.count_eq_zero.mp h0 c h

theorem Files.owed_update {cwd : Iptr} (h : (s.proc t).cwd = some cwd) :
    ({ s with inodes := u, proc := update s.proc t { s.proc t with cwd := some ip } } : Files).owed +
      Pi.single cwd 1 = s.owed + Pi.single ip 1 := by
  funext j
  have hcount := Lib.count_update (P := fun p : FsProc => p.cwd = some j) (f := s.proc) t
    { s.proc t with cwd := some ip }
  simp only [h, Option.some.injEq] at hcount
  simp only [Files.owed, Pi.add_apply, Pi.single_apply, eq_comm (a := j)]
  omega

/-- What a `chdir` of process `t` leaves behind: every pointer of the tables keeps its inode and its
reference, and the working directory of `t` lies in `S`. -/
structure ChdirPost (S : Ino → Prop) (t : Slot) (s s' : Files) : Prop where
  covers : Covers s'.inodes.refs s'.owed
  keeps : Keeps s.owed s.inodes s'.inodes
  conts : s'.cont = s.cont
  cont : ∀ p, (s'.proc p).cont = (s.proc p).cont
  others : ∀ p, p ≠ t → s'.proc p = s.proc p
  cwd : ∀ ip, (s.proc t).cwd = some ip → ∃ ip', (s'.proc t).cwd = some ip' ∧ S (s'.inodes.cache ip').inum

/-- **One `chdir`**, for every set that is closed under the caller's moves and has its working
directory and the root of its container. -/
theorem sysChdir_spec {fetched : Bool} {path : CStr} {name : CharArr DIRSIZ}
    {rv : Int} (hc : Covers s.inodes.refs s.owed)
    (hS : ∀ root d i, (s.caller t).cont = some root → S d → Reaches root s.inodes.nodes d i → S i)
    (hroot : ∀ root ip, (s.caller t).cont = some root → root.rootdir = some ip → S (s.inodes.cache ip).inum)
    (hcwd : ∀ ip, (s.proc t).cwd = some ip → S (s.inodes.cache ip).inum)
    (h : sysChdir t fetched path name s = some (s', rv)) : ChdirPost S t s s' := by
  obtain ⟨⟨u, r⟩, hu, h⟩ := bind_eq_some_iff.mp h
  obtain ⟨⟨u', r', name'⟩, hx, he⟩ := map_eq_some_iff.mp hu
  cases he
  have hptr : ∀ root ip, (s.caller t).cont = some root → root.rootdir = some ip →
      0 < s.owed ip ∧ S (s.inodes.cache ip).inum := by
    intro root ip hcont hdir
    obtain ⟨c, -, rfl⟩ := map_eq_some_iff.mp hcont
    exact ⟨Files.owed_rootdir hdir, hroot _ ip hcont hdir⟩
  obtain ⟨hcu, hku, hin⟩ := namex_spec hc hS hptr (fun ip hip => ⟨Files.owed_cwd hip, hcwd ip hip⟩) hx
  -- the calls that leave the process where it is
  have hstay : ∀ v, Covers v.refs s.owed → Keeps s.owed s.inodes v →
      some ({ s with inodes := v }, (-1 : Int)) = some (s', rv) → ChdirPost S t s s' := by
    intro v hcv hkv hv
    cases hv
    refine ⟨hcv, hkv, rfl, fun _ => rfl, fun _ _ => rfl, fun ip hip => ⟨ip, hip, ?_⟩⟩
    rw [hkv.inum ip (Files.owed_cwd hip)]
    exact hcwd ip hip
  cases r with
  | none => exact hstay u hcu hku h
  | some ip =>
    dsimp only at h
    split at h
    · exact hstay u hcu.drop hku h
    obtain ⟨v, hv, h⟩ := bind_eq_some_iff.mp h
    have ha := ilock_alike hv
    have hcv : Covers v.refs (s.owed + Pi.single ip 1) := ha.refs ▸ hcu
    split at h
    · obtain ⟨w, hw, he⟩ := map_eq_some_iff.mp h
      obtain ⟨hcw, hkw⟩ := iunlockput_spec hcv hw
      exact hstay w hcw ((hku.trans ha.keeps).trans (hkw _)) (congrArg some he)
    obtain ⟨w, hw, h⟩ := bind_eq_some_iff.mp h
    obtain ⟨cwd, hold, h⟩ := bind_eq_some_iff.mp h
    obtain ⟨x, hput, h⟩ := bind_eq_some_iff.mp h
    cases h
    have hb := iunlock_alike hw
    have hcw : Covers w.refs (s.owed + Pi.single ip 1) := hb.refs ▸ hcv
    -- the reference of the new directory takes the place of the old one's
    rw [← Files.owed_update (u := x) hold] at hcw
    obtain ⟨hcx, hkx⟩ := iput_spec hcw hput
    refine ⟨hcx, ((hku.trans ha.keeps).trans hb.keeps).trans (hkx _), rfl, fun p => ?_,
      fun p hp => update_of_ne hp _ _, fun _ _ => ⟨ip, by simp, ?_⟩⟩
    · exact Lib.update_same FsProc.cont (by rfl) p
    · have hinum : (x.cache ip).inum = (u.cache ip).inum :=
        (((hkx fun _ => 1).inum ip Nat.one_pos).trans (hb.inum ip)).trans (ha.inum ip)
      rw [hinum]
      exact hin ip rfl

/-! ## Runs -/

/-- Process `t` belongs to a container other than the root with root directory
`R`, and its working directory lies in the subtree of `R`. -/
structure Jailed (nodes : Ino → Dinode) (R : Ino) (s : Files) (t : Slot) : Prop where
  cont : ∃ root, (s.caller t).cont = some root ∧ root.isroot = 0 ∧
    ∃ ip, root.rootdir = some ip ∧ (s.inodes.cache ip).inum = R
  cwd : ∃ ip, (s.proc t).cwd = some ip ∧ InSubtree nodes R (s.inodes.cache ip).inum

theorem Files.owed_caller (hcont : (s.caller t).cont = some root)
    (hdir : root.rootdir = some ip) : 0 < s.owed ip := by
  obtain ⟨c, -, rfl⟩ := map_eq_some_iff.mp hcont
  exact Files.owed_rootdir hdir

theorem ChdirPost.jailed {p : Slot} (h : ChdirPost S p s s')
    (hj : Jailed nodes R s t)
    (hcwd : ∃ ip, (s'.proc t).cwd = some ip ∧ InSubtree nodes R (s'.inodes.cache ip).inum) :
    Jailed nodes R s' t where
  cont := by
    obtain ⟨root, hcont, h0, ip, hdir, hinum⟩ := hj.cont
    refine ⟨root, ?_, h0, ip, hdir, ?_⟩
    · simpa only [Files.caller, h.conts, h.cont t] using hcont
    · rw [h.keeps.inum ip (Files.owed_caller hcont hdir), hinum]
  cwd := hcwd

structure Confined (s0 : Files) (R : Ino) (t : Slot) (s : Files) : Prop where
  covers : Covers s.inodes.refs s.owed
  nodes : Keeps (fun _ => 0) s0.inodes s.inodes
  jailed : Jailed s0.inodes.nodes R s t

namespace Confined

variable {s0 : Files} (h : Confined s0 R t s)
include h

theorem closed (ht : DirTree s0.inodes.nodes)
    (hR : Child s0.inodes.nodes ROOTINO R) (root : Root) (d i : Ino)
    (hcont : (s.caller t).cont = some root) (hd : InSubtree s0.inodes.nodes R d)
    (hr : Reaches root s.inodes.nodes d i) : InSubtree s0.inodes.nodes R i := by
  obtain ⟨root', hcont', h0, -⟩ := h.jailed.cont
  cases hcont.symm.trans hcont'
  exact hd.reaches ht hR h0 (h.nodes.reaches hr)

theorem rootdir
    (hcont : (s.caller t).cont = some root) (hdir : root.rootdir = some ip) :
    0 < s.owed ip ∧ InSubtree s0.inodes.nodes R (s.inodes.cache ip).inum := by
  obtain ⟨root', hcont', -, ip', hdir', hinum⟩ := h.jailed.cont
  cases hcont.symm.trans hcont'
  cases hdir.symm.trans hdir'
  refine ⟨Files.owed_caller hcont hdir, ?_⟩
  rw [hinum]
  exact .root

theorem cwd (hcwd : (s.proc t).cwd = some ip) : 0 < s.owed ip ∧ InSubtree s0.inodes.nodes R (s.inodes.cache ip).inum := by
  obtain ⟨ip', hcwd', hin⟩ := h.jailed.cwd
  cases hcwd.symm.trans hcwd'
  exact ⟨Files.owed_cwd hcwd, hin⟩

section

variable (ht : DirTree s0.inodes.nodes) (hR : Child s0.inodes.nodes ROOTINO R)
include ht hR

theorem step {e : Chdir} (hs : chdirStep s e = some s') : Confined s0 R t s' := by
  obtain ⟨⟨u, rv⟩, hu, rfl⟩ := map_eq_some_iff.mp hs
  by_cases hp : e.proc = t
  · rw [hp] at hu
    have hpost := sysChdir_spec h.covers (h.closed ht hR)
      (fun root ip hcont hdir => (h.rootdir hcont hdir).2) (fun ip hip => (h.cwd hip).2) hu
    obtain ⟨ip, hcwd, -⟩ := h.jailed.cwd
    exact ⟨hpost.covers, h.nodes.trans (hpost.keeps.mono fun _ => Nat.zero_le _),
      hpost.jailed h.jailed (hpost.cwd ip hcwd)⟩
  -- another process: wherever it goes, the pointers of `t` keep their inodes
  have hpost := sysChdir_spec (S := fun _ => True) h.covers (fun _ _ _ _ _ _ => trivial)
    (fun _ _ _ _ => trivial) (fun _ _ => trivial) hu
  refine ⟨hpost.covers, h.nodes.trans (hpost.keeps.mono fun _ => Nat.zero_le _), hpost.jailed h.jailed ?_⟩
  obtain ⟨ip, hcwd, hin⟩ := h.jailed.cwd
  refine ⟨ip, ?_, ?_⟩
  · rwa [hpost.others t (Ne.symm hp)]
  · rwa [hpost.keeps.inum ip (Files.owed_cwd hcwd)]

theorem namex {path : CStr} {parent : Bool} {name name' : CharArr DIRSIZ}
    (hx : namex (some (s.caller t)) path parent name s.inodes = some (u, some ip, name')) :
    InSubtree s0.inodes.nodes R (u.cache ip).inum := by
  have hspec := namex_spec h.covers (h.closed ht hR) (fun root ip => h.rootdir) (fun ip => h.cwd) hx
  exact hspec.2.2 ip rfl

theorem returns {path : CStr} (hu : Unlocked s.inodes)
    (halloc : ∀ i, InSubtree s0.inodes.nodes R i → (s.inodes.nodes i).type ≠ .free)
    (hroom : Room (path.strlen + 1) s.inodes) (parent : Bool) (name : CharArr DIRSIZ) :
    ∃ x, Fs.namex (some (s.caller t)) path parent name s.inodes = some x := by
  obtain ⟨root, hcont, h0, ip0, hdir, -⟩ := h.jailed.cont
  obtain ⟨ip1, hcwd, -⟩ := h.jailed.cwd
  exact namex_returns name hcont h0 h.covers (fun d i => h.closed ht hR root d i hcont) halloc
    hdir (h.rootdir hcont hdir) hcwd (h.cwd hcwd) hu hroom

end

end Confined

/-- **Containers are confined to their part of the file system.** Whatever `chdir` calls are made, of `t` and of others,
the working directory of `t` and all that its lookups return lie in the subtree of `R`; and the lookups do return
while no inode is locked or freed and the inode cache has room. -/
theorem confined_to_subtree {s0 s : Files} {t : Slot} {R : Ino} (ht : DirTree s0.inodes.nodes)
    (hR : Child s0.inodes.nodes ROOTINO R) (hrefs : Covers s0.inodes.refs s0.owed)
    (hjail : Jailed s0.inodes.nodes R s0 t)
    (h : Lib.Reach chdirStep (fun _ _ => True) s0 s) :
    (∃ ip, (s.proc t).cwd = some ip ∧ InSubtree s0.inodes.nodes R (s.inodes.cache ip).inum) ∧
      (∀ path name u ip, namei (some (s.caller t)) path name s.inodes = some (u, some ip) →
        InSubtree s0.inodes.nodes R (u.cache ip).inum ∧ (u.cache ip).inum ≠ ROOTINO) ∧
      (∀ path name u ip name',
        nameiparent (some (s.caller t)) path name s.inodes = some (u, some ip, name') →
          InSubtree s0.inodes.nodes R (u.cache ip).inum ∧ (u.cache ip).inum ≠ ROOTINO) ∧
      (Unlocked s.inodes →
        (∀ i, InSubtree s0.inodes.nodes R i → (s.inodes.nodes i).type ≠ .free) →
        ∀ path name, Room (path.strlen + 1) s.inodes →
          (∃ x, namei (some (s.caller t)) path name s.inodes = some x) ∧
            ∃ x, nameiparent (some (s.caller t)) path name s.inodes = some x) := by
  have hinv : Confined s0 R t s :=
    Lib.Reach.invariant ⟨hrefs, .refl _ _, hjail⟩ (fun _ _ _ hI _ hs => hI.step ht hR hs) h
  refine ⟨hinv.jailed.cwd, fun path name u ip hx => ?_, fun path name u ip name' hx => ?_,
    fun hu halloc path name hroom => ⟨?_, hinv.returns ht hR hu halloc hroom true name⟩⟩
  · obtain ⟨⟨v, r, name'⟩, hv, he⟩ := map_eq_some_iff.mp hx
    cases he
    have hin := hinv.namex ht hR hv
    exact ⟨hin, hin.ne_root ht hR⟩
  · have hin := hinv.namex ht hR hx
    exact ⟨hin, hin.ne_root ht hR⟩
  · obtain ⟨x, hx⟩ := hinv.returns ht hR hu halloc hroom false name
    exact ⟨_, by rw [namei, hx]; rfl⟩

/-- A tree of three directories: `/`, `/a` and `/a/b`. -/
def smallTree : Ino → Dinode
  | 1 => ⟨.dir, 1, [⟨1, dot⟩, ⟨1, dotdot⟩, ⟨2, strncpy DIRSIZ (.ofBytes [97] rfl)⟩]⟩
  | 2 => ⟨.dir, 1, [⟨2, dot⟩, ⟨1, dotdot⟩, ⟨3, strncpy DIRSIZ (.ofBytes [98] rfl)⟩]⟩
  | 3 => ⟨.dir, 1, [⟨3, dot⟩, ⟨2, dotdot⟩]⟩
  | _ => ⟨.free, 0, []⟩

/-- The first process in `/`, and process 1 in a container with root directory `/a`. -/
def smallFiles : Files where
  inodes :=
    { nodes := smallTree
      cache := fun ip => if ip = 0 then ⟨1, 2, false, none⟩ else if ip = 1 then ⟨2, 2, false, none⟩
        else ⟨0, 0, false, none⟩ }
  proc := fun t => if t = 0 then ⟨some 0, some 0⟩ else if t = 1 then ⟨some 1, some 1⟩
    else ⟨none, none⟩
  cont := fun c => if c = 0 then ⟨1, some 0⟩ else if c = 1 then ⟨0, some 1⟩ else ⟨0, none⟩

theorem smallTree_dir {d : Ino} (h : (smallTree d).type = .dir) : d = 1 ∨ d = 2 ∨ d = 3 := by
  unfold smallTree at h
  split at h
  · exact .inl rfl
  · exact .inr (.inl rfl)
  · exact .inr (.inr rfl)
  · cases h

theorem smallTree_child {d i : Ino} (h : Child smallTree d i) : d = 1 ∧ i = 2 ∨ d = 2 ∧ i = 3 := by
  obtain ⟨hdir, de, hde, -, hdot, hup, rfl⟩ := h
  rcases smallTree_dir hdir with rfl | rfl | rfl <;>
    simp only [smallTree, List.mem_cons, List.not_mem_nil, or_false] at hde
  · rcases hde with rfl | rfl | rfl
    · exact absurd (by decide) hdot
    · exact absurd (by decide) hup
    · exact .inl ⟨rfl, rfl⟩
  · rcases hde with rfl | rfl | rfl
    · exact absurd (by decide) hdot
    · exact absurd (by decide) hup
    · exact .inr ⟨rfl, rfl⟩
  · rcases hde with rfl | rfl
    · exact absurd (by decide) hdot
    · exact absurd (by decide) hup

theorem dirTree_smallTree : DirTree smallTree where
  self d hdir := by
    rcases smallTree_dir hdir with rfl | rfl | rfl <;> decide +kernel
  up d i hc _ := by
    rcases smallTree_child hc with ⟨rfl, rfl⟩ | ⟨rfl, rfl⟩ <;> decide +kernel
  root := by decide +kernel
  top d hc := by
    rcases smallTree_child hc with ⟨-, h⟩ | ⟨-, h⟩ <;> cases h

/-- Process 1 goes from its root `/a` to `../../b/.././../b`, which is `/a/b`, while the first process
goes to `/a`. -/
theorem confined_run : ∃ s, Lib.Reach chdirStep (fun _ _ => True) smallFiles s ∧
    ((s.proc 1).cwd.map fun ip => (s.inodes.cache ip).inum) = some 3 ∧
    ∃ ip, (s.proc 1).cwd = some ip ∧ InSubtree smallTree 2 (s.inodes.cache ip).inum := by
  obtain ⟨s, hs, h1⟩ := Lib.Reach.of_any chdirStep (fun _ _ => True) smallFiles
    [⟨0, true, .ofBytes [97] rfl, dot⟩,
      ⟨1, true, .ofBytes [46, 46, 47, 46, 46, 47, 98, 47, 46, 46, 47, 46, 47, 46, 46, 47, 98] rfl,
        dot⟩]
    (fun s => ((s.proc 1).cwd.map fun ip => (s.inodes.cache ip).inum) = some 3) (by decide +kernel)
  have hR : Child smallTree ROOTINO 2 :=
    ⟨rfl, ⟨2, strncpy DIRSIZ (.ofBytes [97] rfl)⟩, by simp [smallTree, ROOTINO], by decide⟩
  have hrefs : Covers smallFiles.inodes.refs smallFiles.owed := by
    change ∀ i, _
    decide
  have hjail : Jailed smallTree 2 smallFiles 1 := ⟨⟨⟨0, some 1⟩, rfl, rfl, 1, rfl, rfl⟩, 1, rfl, .root⟩
  exact ⟨s, hs, of_decide_eq_true h1, (confined_to_subtree dirTree_smallTree hR hrefs hjail hs).1⟩

end Xv6.Fs
