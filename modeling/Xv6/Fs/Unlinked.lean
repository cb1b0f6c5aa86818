/-
# Xv6.Fs.Unlinked — link counts and directory entries from a fresh image on.

A fresh image has the root directory and the files that `mkfs` was given.  In every state that the system
calls reach from there, link counts say how many entries name an inode, inodes that nobody can get at are
free, and no entry names a free inode — as long as no directory is removed while somebody refers to it,
and no inode gets more links than a `short` counts.

A process that has a removed directory as its working directory can still make entries in it, which are gone
with it; and its `..` goes on naming a directory that may be removed in turn.
-/
import Xv6.Fs.Linked

namespace Xv6.Fs

open Kernel (Slot Cid Ino CStr CharArr ROOTINO)
open Function List
open Lib (Covers Reach)

/-! ## A fresh image -/

/-- The entries that `mkfs` appends to the root directory, for files with the numbers from `i` on. -/
def rootEntries : Nat → List (CharArr DIRSIZ) → List Dirent
  | _, [] => []
  | i, name :: names => ⟨.ofNat i, name⟩ :: rootEntries (i + 1) names

/-- The inodes that `mkfs` leaves for files with these names.  The size of the root directory is rounded
up to the next block, with zeros. -/
def freshNodes (names : List (CharArr DIRSIZ)) : Ino → Dinode := fun i =>
  if i = ROOTINO then
    ⟨.dir, 1, ⟨.ofNat ROOTINO, dot⟩ :: ⟨.ofNat ROOTINO, dotdot⟩ ::
      (rootEntries 2 names ++ List.replicate (64 - (names.length + 2) % 64) ⟨0, fun _ => 0⟩)⟩
  else if 2 ≤ i ∧ i < 2 + names.length then ⟨.file, 1, []⟩
  else ⟨.free, 0, []⟩

section Fresh

variable {names : List (CharArr DIRSIZ)} {i k : Nat} {e : Dirent}

theorem mem_rootEntries (he : e ∈ rootEntries k names) (hk : k + names.length ≤ NINODES) :
    e.name ∈ names ∧ k ≤ e.inum.toNat ∧ e.inum.toNat < k + names.length := by
  induction names generalizing k with
  | nil => cases he
  | cons name names ih =>
    have hlen : (name :: names).length = names.length + 1 := rfl
    rw [hlen] at hk ⊢
    rcases mem_cons.mp he with rfl | he
    · have hlt : k < NINODES := by omega
      have hval : (UInt16.ofNat k).toNat = k := UInt16.toNat_ofNat_of_lt (Tree.range_lt hlt)
      refine ⟨mem_cons_self, ?_, ?_⟩
      · exact Nat.le_of_eq hval.symm
      · show (UInt16.ofNat k).toNat < _
        omega
    · obtain ⟨hname, hle, hlt⟩ := ih he (by omega)
      exact ⟨mem_cons_of_mem _ hname, by omega, by omega⟩

theorem entriesFor_rootEntries (hk : k + names.length ≤ NINODES) :
    entriesFor i (rootEntries k names) = if k ≤ i ∧ i < k + names.length then 1 else 0 := by
  induction names generalizing k with
  | nil =>
    rw [if_neg]
    · rfl
    · simp only [length_nil]
      omega
  | cons name names ih =>
    have hlen : (name :: names).length = names.length + 1 := rfl
    rw [hlen] at hk ⊢
    have hlt : k < NINODES := by omega
    have hval : (UInt16.ofNat k).toNat = k := UInt16.toNat_ofNat_of_lt (Tree.range_lt hlt)
    rw [rootEntries, entriesFor_cons, ih (by omega), hval]
    split_ifs <;> omega

theorem entriesFor_plain (hi : i ≠ 0) (hk : names.length + 2 ≤ NINODES) :
    entriesFor i (rootEntries 2 names ++ replicate (64 - (names.length + 2) % 64) ⟨0, fun _ => 0⟩) =
      if 2 ≤ i ∧ i < 2 + names.length then 1 else 0 := by
  have hpad : entriesFor i (replicate (64 - (names.length + 2) % 64) ⟨0, fun _ => 0⟩) = 0 :=
    entriesFor_bare hi fun e he => by rw [eq_of_mem_replicate he]
  rw [entriesFor, countP_append]
  show entriesFor i (rootEntries 2 names) + entriesFor i _ = _
  rw [hpad, Nat.add_zero]
  exact entriesFor_rootEntries (by omega)

theorem freshNodes_dir (h : (freshNodes names i).type = .dir) : i = ROOTINO := by
  unfold freshNodes at h
  split at h
  · assumption
  split at h
  · cases h
  · cases h

theorem freshNodes_ents (h : i ≠ ROOTINO) : (freshNodes names i).ents = [] := by
  unfold freshNodes
  rw [if_neg h]
  split <;> rfl

theorem freshNodes_file (hle : 2 ≤ i) (hlt : i < 2 + names.length) : freshNodes names i = ⟨.file, 1, []⟩ := by
  have hne : i ≠ ROOTINO := by
    rintro rfl
    exact absurd hle (by decide)
  rw [freshNodes, if_neg hne, if_pos ⟨hle, hlt⟩]

theorem freshNodes_range (h : (freshNodes names i).type ≠ .free) : i = ROOTINO ∨ 2 ≤ i ∧ i < 2 + names.length := by
  unfold freshNodes at h
  split at h
  · exact .inl ‹_›
  split at h
  · exact .inr ‹_›
  · exact absurd rfl h

theorem links_fresh (hi : i ≠ 0) (hk : names.length + 2 ≤ NINODES) :
    links (freshNodes names) i = (if 2 ≤ i ∧ i < 2 + names.length then 1 else 0) + if i = ROOTINO then 1 else 0 := by
  have hother : ∀ d : Fin NINODES, d ≠ ⟨1, by decide⟩ → entriesFor i ((freshNodes names d).ents.drop 1) = 0 := by
    intro d hd
    have hne : d.val ≠ ROOTINO := fun h => hd (Fin.ext h)
    rw [freshNodes_ents hne]
    rfl
  have hroot : entriesFor i ((freshNodes names ROOTINO).ents.drop 1) =
      (if 2 ≤ i ∧ i < 2 + names.length then 1 else 0) + if i = ROOTINO then 1 else 0 := by
    show entriesFor i (⟨.ofNat ROOTINO, dotdot⟩ :: (rootEntries 2 names ++ _)) = _
    rw [entriesFor_cons, entriesFor_plain hi hk]
    congr 1
    exact if_congr eq_comm rfl rfl
  rw [links, Finset.sum_eq_single (⟨1, by decide⟩ : Fin NINODES) (fun d _ hd => hother d hd) fun h =>
    absurd (Finset.mem_univ _) h]
  exact hroot

theorem links_fresh_root (hk : names.length + 2 ≤ NINODES) : links (freshNodes names) ROOTINO = 1 := by
  rw [links_fresh (by decide) hk, if_pos rfl, if_neg]
  rintro ⟨hle, -⟩
  exact absurd hle (by decide)

theorem links_fresh_file (hle : 2 ≤ i) (hlt : i < 2 + names.length)
    (hk : names.length + 2 ≤ NINODES) : links (freshNodes names) i = 1 := by
  have hne : i ≠ ROOTINO := by
    rintro rfl
    exact absurd hle (by decide)
  rw [links_fresh (by omega) hk, if_pos ⟨hle, hlt⟩, if_neg hne]

/-- **A fresh image is a tree.** -/
theorem tree_fresh (hnames : ∀ name ∈ names, namecmp name dot ≠ 0) (hk : names.length + 2 ≤ NINODES) :
    Tree (freshNodes names) where
  range i hi := by
    rcases freshNodes_range hi with rfl | ⟨hle, hlt⟩
    · exact ⟨by decide, by decide⟩
    · refine ⟨Nat.lt_of_lt_of_le Nat.zero_lt_two hle, Nat.lt_of_lt_of_le hlt ?_⟩
      rw [Nat.add_comm]
      exact hk
  root := rfl
  top := rfl
  leaf i hi := by
    refine freshNodes_ents ?_
    rintro rfl
    exact hi rfl
  dots d hd := by
    obtain rfl := freshNodes_dir hd
    refine ⟨_, _, _, rfl, rfl, rfl, rfl, fun e he hlive => ?_⟩
    rcases mem_append.mp he with he | he
    · exact hnames _ (mem_rootEntries he (by omega)).1
    · rw [eq_of_mem_replicate he] at hlive
      exact absurd rfl hlive
  above d hd := by
    obtain rfl := freshNodes_dir hd
    rfl
  named d e he hlive := by
    have hd : d = ROOTINO := by
      by_contra hne
      rw [freshNodes_ents hne] at he
      cases he
    subst hd
    rcases mem_cons.mp he with rfl | he
    · exact nofun
    rcases mem_cons.mp he with rfl | he
    · exact nofun
    rcases mem_append.mp he with he | he
    · obtain ⟨-, hle, hlt⟩ := mem_rootEntries he (by omega)
      rw [freshNodes_file hle hlt]
      nofun
    · rw [eq_of_mem_replicate he] at hlive
      exact absurd rfl hlive
  place c hc d := by
    obtain rfl := freshNodes_dir hc
    rw [if_neg fun hand => hand.1 rfl]
    by_cases hd : d = ROOTINO
    · subst hd
      show entriesFor ROOTINO (rootEntries 2 names ++ _) = 0
      rw [entriesFor_plain (by decide) hk, if_neg]
      rintro ⟨hle, -⟩
      exact absurd hle (by decide)
    · rw [freshNodes_ents hd]
      rfl
  count i hi := by
    rcases freshNodes_range hi with rfl | ⟨hle, hlt⟩
    · rw [links_fresh_root hk]
      rfl
    · rw [links_fresh_file hle hlt hk, freshNodes_file hle hlt]
      rfl
  small i _ := by
    unfold freshNodes
    split
    · show (1 : Int) < 2 ^ 15
      decide
    split
    · decide
    · decide

end Fresh

/-- A state to start from: the inodes of a fresh image, no open files, and processes of the root container, the only one a
kernel boots with, with no pointers but to the root directory. -/
structure Booted (s : Sys) : Prop where
  image : ∃ names, (∀ name ∈ names, namecmp name dot ≠ 0) ∧ names.length + 2 ≤ NINODES ∧
    s.inodes.nodes = freshNodes names
  cached : ∀ ip, 0 < s.inodes.refs ip → (s.inodes.cache ip).inum = ROOTINO
  uniq : ∀ ip jp, 0 < s.inodes.refs ip → 0 < s.inodes.refs jp → ip = jp
  covers : Covers s.inodes.refs s.owed
  files : ∀ f, (s.file f).type = .none
  root : ∀ t root, (s.files.caller t).cont = some root → root.isroot ≠ 0

variable {s s0 : Sys}

theorem Booted.linked (h : Booted s) : Linked [] s := by
  obtain ⟨names, hnames, hk, hnodes⟩ := h.image
  have htree : Tree s.inodes.nodes := hnodes ▸ tree_fresh hnames hk
  refine ⟨htree, ⟨h.covers, nofun, nofun, fun ip jp hip hjp _ => h.uniq ip jp hip hjp, ?_, ?_⟩,
    fun f _ => h.files f, h.root⟩
  · intro ip hip
    rw [Inodes.node, h.cached ip hip, htree.root]
    exact FileType.dir_ne_free
  -- every inode of the image has a link
  intro i _ htype hlink
  have hcount := htree.count i htype
  rw [hlink, hnodes] at hcount
  rw [hnodes] at htype
  rcases freshNodes_range htype with rfl | ⟨hle, hlt⟩
  · rw [links_fresh_root hk] at hcount
    cases hcount
  · rw [links_fresh_file hle hlt hk] at hcount
    cases hcount

theorem linked_run (h0 : Booted s0) (h : Reach sysStep (fun s e => allowed s e = true) s0 s) : Linked [] s := by
  refine h.invariant h0.linked fun s e s' hs hok hstep => ?_
  have hsafe := syscall_linked hs hok
  unfold sysStep at hstep
  cases hcall : syscall e s with
  | error x =>
    rw [hcall] at hstep
    cases hstep
  | ok s'' =>
    rw [hcall] at hstep
    cases hstep
    exact hsafe.ok hcall

/-! ## Link counts -/

/-- **Link counts are right.**  An inode other than the root directory's has as many links as entries of
directories name it, and one that nobody names or refers to is free. -/
theorem nlink_eq_linkCount (h0 : Booted s0)
    (h : Reach sysStep (fun s e => allowed s e = true) s0 s) :
    (∀ i, i ≠ ROOTINO → (s.inodes.nodes i).type ≠ .free →
      (s.inodes.nodes i).nlink = linkCount s.inodes.nodes i) ∧
    ∀ i, Unreferenced s.inodes i → linkCount s.inodes.nodes i = 0 → (s.inodes.nodes i).type = .free := by
  obtain ⟨htree, hcached, -, -⟩ := linked_run h0 h
  have hcount : ∀ i, (s.inodes.nodes i).type ≠ .free →
      (s.inodes.nodes i).nlink = linkCount s.inodes.nodes i := by
    intro i hi
    rw [htree.linkCount_eq (htree.ne_zero hi)]
    exact htree.count i hi
  refine ⟨fun i _ hi => hcount i hi, fun i hun hzero => ?_⟩
  by_contra hi
  have hlink : (s.inodes.nodes i).nlink = 0 := by rw [hcount i hi, hzero]; rfl
  obtain ⟨ip, hip, hpos, -⟩ := hcached.pinned i nofun hi hlink
  exact absurd (hun ip hip) (Int.ne_of_gt hpos)

/-- **The directories stay a tree**: each but the root has one name, in the directory that its `..` names. -/
theorem tree_kept (h0 : Booted s0) (h : Reach sysStep (fun s e => allowed s e = true) s0 s) : Tree s.inodes.nodes :=
  (linked_run h0 h).tree

/-- A kernel that has booted from an image without files, with its first process in slot 0. -/
def bootFs : Sys where
  files :=
    { inodes :=
        { nodes := freshNodes []
          cache := fun ip => if ip.val = 0 then ⟨ROOTINO, 3, false, none⟩ else ⟨0, 0, false, none⟩ }
      proc := fun t => if t.val = 0 then ⟨some ⟨0, by decide⟩, some ⟨0, by decide⟩⟩ else ⟨none, none⟩
      cont := fun c => if c.val = 0 then ⟨1, some ⟨0, by decide⟩⟩ else ⟨0, none⟩ }
  dev := fun _ => (0, 0)
  file := fun _ => ⟨.none, false, false, none, 0, 0⟩
  fref := fun _ => 0
  ofile := fun _ _ => none

theorem bootFs_booted : Booted bootFs where
  image := ⟨[], nofun, by decide, rfl⟩
  cached := by decide
  uniq := by decide
  covers := by
    intro ip
    revert ip
    decide
  files _ := rfl
  root := by
    intro t root hroot
    by_cases ht : t.val = 0
    · simp only [bootFs, Files.caller, if_pos ht] at hroot
      cases hroot
      decide
    · simp only [bootFs, Files.caller, if_neg ht] at hroot
      cases hroot

def first (c : Call) : Syscall := ⟨⟨0, by decide⟩, fun _ => 0, fun _ => 0, c⟩

/-- `mkdir d`, `open d/x` with `O_CREATE`, `unlink d/x`. -/
def removeOpen : List Syscall :=
  [first (.mkdir true (CStr.ofBytes [100] rfl)),
    first (.openFile (some (CStr.ofBytes [100, 47, 120] rfl, 0x200))),
    first (.unlink (some (CStr.ofBytes [100, 47, 120] rfl)))]

/-- The file is open and has no links; the directory has one. -/
theorem nlink_eq_linkCount_removeOpen : ∃ s : Sys, (s.inodes.nodes 2).type = .dir ∧
    (s.inodes.nodes 3).type = .file ∧ (s.inodes.nodes 2).nlink = linkCount s.inodes.nodes 2 ∧
    (s.inodes.nodes 3).nlink = linkCount s.inodes.nodes 3 := by
  obtain ⟨s, hs, htypes⟩ := Reach.of_any sysStep (fun s e => allowed s e = true) bootFs removeOpen
    (fun s => (s.inodes.nodes 2).type == .dir && (s.inodes.nodes 3).type == .file) (by decide +kernel)
  rw [Bool.and_eq_true, beq_iff_eq, beq_iff_eq] at htypes
  have hcount := (nlink_eq_linkCount bootFs_booted hs).1
  refine ⟨s, htypes.1, htypes.2, hcount 2 (by decide) ?_, hcount 3 (by decide) ?_⟩
  · rw [htypes.1]
    nofun
  · rw [htypes.2]
    nofun

theorem tree_kept_removeOpen : ∃ s : Sys, (s.inodes.nodes 2).type = .dir ∧ Tree s.inodes.nodes := by
  obtain ⟨s, hs, h2⟩ := Reach.of_any sysStep (fun s e => allowed s e = true) bootFs removeOpen
    (fun s => (s.inodes.nodes 2).type == .dir) (by decide +kernel)
  exact ⟨s, beq_iff_eq.mp h2, tree_kept bootFs_booted hs⟩

/-- `mkdir d`, `chdir d`, `unlink /d`, `open x` with `O_CREATE`, `close`, `chdir /`. -/
def createRemoved : List Syscall :=
  [first (.mkdir true (CStr.ofBytes [100] rfl)),
    first (.chdir true (CStr.ofBytes [100] rfl)),
    first (.unlink (some (CStr.ofBytes [47, 100] rfl))),
    first (.openFile (some (CStr.ofBytes [120] rfl, 0x200))),
    first (.close ⟨0, by decide⟩),
    first (.chdir true (CStr.ofBytes [47] rfl))]

/-- **A file made in a removed directory is lost.**  It keeps its one link when the directory goes, and
nothing frees it. -/
theorem lost_inode : ¬ ∀ s0 s, Booted s0 → Reach sysStep (fun _ _ => True) s0 s →
    (∀ i, i ≠ ROOTINO → (s.inodes.nodes i).type ≠ .free →
      (s.inodes.nodes i).nlink = linkCount s.inodes.nodes i) ∧
    ∀ i, Unreferenced s.inodes i → linkCount s.inodes.nodes i = 0 → (s.inodes.nodes i).type = .free := by
  intro hall
  obtain ⟨s, hs, hlost⟩ := Reach.of_any sysStep (fun _ _ => True) bootFs createRemoved
    (fun s => decide (Unreferenced s.inodes 3) && linkCount s.inodes.nodes 3 == 0 &&
      (s.inodes.nodes 3).type == .file && (s.inodes.nodes 3).nlink == 1) (by decide +kernel)
  simp only [Bool.and_eq_true, decide_eq_true_eq, beq_iff_eq] at hlost
  obtain ⟨⟨⟨hun, hzero⟩, htype⟩, -⟩ := hlost
  have hfree := (hall bootFs s bootFs_booted hs).2 3 hun hzero
  rw [htype] at hfree
  cases hfree

/-! ## Directory entries -/

/-- **No entry dangles.**  No call stops in `ilock` for want of a type, and what the lookup of a name in a
directory finds is allocated. -/
theorem named_allocated (h0 : Booted s0)
    (h : Reach sysStep (fun s e => allowed s e = true) s0 s) :
    (∀ e, allowed s e = true → syscall e s ≠ .error .noType) ∧
    ∀ d name e k, (s.inodes.nodes d).type = .dir →
      findEntry name (s.inodes.nodes d).ents = some (e, k) →
      (s.inodes.nodes e.inum.toNat).type ≠ .free := by
  have hs := linked_run h0 h
  refine ⟨fun e hok herr => (syscall_linked hs hok).error herr rfl, fun d name e k _ hfind => ?_⟩
  obtain ⟨hk, hlive, -⟩ := findEntry_some hfind
  exact hs.tree.named d e (mem_of_getElem? hk) hlive

/-- `mkdir d`, `mkdir d/e`, `chdir d`, `unlink e`. -/
def removeBelow : List Syscall :=
  [first (.mkdir true (CStr.ofBytes [100] rfl)),
    first (.mkdir true (CStr.ofBytes [100, 47, 101] rfl)),
    first (.chdir true (CStr.ofBytes [100] rfl)),
    first (.unlink (some (CStr.ofBytes [101] rfl)))]

/-- What `..` names in the working directory is allocated, and a process gets there. -/
theorem named_allocated_removeBelow : ∃ s : Sys, (s.inodes.nodes 2).type = .dir ∧
    syscall (first (.chdir true (CStr.ofBytes [46, 46, 47] rfl))) s ≠ .error .noType ∧
    ∀ e k, findEntry dotdot (s.inodes.nodes 2).ents = some (e, k) →
      (s.inodes.nodes e.inum.toNat).type ≠ .free := by
  obtain ⟨s, hs, hdir⟩ := Reach.of_any sysStep (fun s e => allowed s e = true) bootFs removeBelow
    (fun s => (s.inodes.nodes 2).type == .dir) (by decide +kernel)
  have hdir := eq_of_beq hdir
  have hnamed := named_allocated bootFs_booted hs
  exact ⟨s, hdir, hnamed.1 _ rfl, fun e k => hnamed.2 2 dotdot e k hdir⟩

def stopOf {α : Type} : Except Stop α → Option Stop
  | .ok _ => none
  | .error x => some x

theorem eq_error_of_stopOf {α : Type} {m : Except Stop α} {x : Stop} (h : stopOf m = some x) : m = .error x := by
  cases m with
  | ok a => cases h
  | error y =>
    cases h
    rfl

/-- `mkdir d`, `mkdir d/e`, `chdir d/e`, `unlink ../e`, `unlink /d`. -/
def removeAbove : List Syscall :=
  [first (.mkdir true (CStr.ofBytes [100] rfl)),
    first (.mkdir true (CStr.ofBytes [100, 47, 101] rfl)),
    first (.chdir true (CStr.ofBytes [100, 47, 101] rfl)),
    first (.unlink (some (CStr.ofBytes [46, 46, 47, 101] rfl))),
    first (.unlink (some (CStr.ofBytes [47, 100] rfl)))]

/-- **A removed directory may have a `..` that is free.**  The process that has it as its working
directory stops the kernel with `chdir ../`. -/
theorem dangling_dotdot : ¬ ∀ s0 s, Booted s0 → Reach sysStep (fun _ _ => True) s0 s →
    (∀ e, syscall e s ≠ .error .noType) ∧
    ∀ d name e k, (s.inodes.nodes d).type = .dir →
      findEntry name (s.inodes.nodes d).ents = some (e, k) →
      (s.inodes.nodes e.inum.toNat).type ≠ .free := by
  intro hall
  obtain ⟨s, hs, hstop⟩ := Reach.of_any sysStep (fun _ _ => True) bootFs removeAbove
    (fun s => stopOf (syscall (first (.chdir true (CStr.ofBytes [46, 46, 47] rfl))) s) == some .noType)
    (by decide +kernel)
  exact (hall bootFs s bootFs_booted hs).1 _ (eq_error_of_stopOf (eq_of_beq hstop))

end Xv6.Fs
