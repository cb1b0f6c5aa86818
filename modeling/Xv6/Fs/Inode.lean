/-
# Xv6.Fs.Inode — the inode cache and directories (`kernel/fs.c`).

A `struct inode *` is an entry of the cache (`Iptr`); a null pointer is `none`.  What an inode and its
blocks hold is looked up by i-number in `nodes`: the cache is write-through, and its copies of the
on-disk fields are left out.  There is one device.  Each function below is one section; `none` is a
panic, a null pointer, or a lock that is held by somebody else.

The content of a directory is its list of entries (`dirlink` writes whole ones).
-/
import Xv6.Kernel.Tables
import Xv6.Lib.Refs
import Xv6.Lib.Count

namespace Xv6.Fs

open Kernel (Slot Ino CharArr NINODE ROOTINO strncmp)
open Function
open Lib (Covers count)

/-! ## Data -/

abbrev DIRSIZ : Nat := 14

/-- `T_DIR`, `T_FILE`, `T_DEVICE`, and `0` for a free inode. -/
inductive FileType
  | free | dir | file | device
  deriving DecidableEq

theorem FileType.dir_ne_free : FileType.dir ≠ .free := nofun

theorem FileType.file_ne_free : FileType.file ≠ .free := nofun

structure Dirent where
  inum : UInt16
  name : CharArr DIRSIZ
  deriving DecidableEq

/-- `struct dinode` with the directory it holds. -/
structure Dinode where
  type : FileType
  nlink : Int
  ents : List Dirent

def nameAt (name : CharArr DIRSIZ) (i : Nat) : UInt8 := if h : i < DIRSIZ then name ⟨i, h⟩ else 0

def namecmp (s t : CharArr DIRSIZ) : Int := strncmp (nameAt s) (nameAt t) DIRSIZ

/-- `struct inode`: the fields that live in memory only. -/
structure Inode where
  inum : Ino
  ref : Int
  valid : Bool
  lock : Option Slot

/-- An entry of `icache.inode[]`. -/
abbrev Iptr := Fin NINODE

structure Inodes where
  nodes : Ino → Dinode
  cache : Iptr → Inode

namespace Inodes

def node (s : Inodes) (ip : Iptr) : Dinode := s.nodes (s.cache ip).inum

def set (s : Inodes) (ip : Iptr) (x : Inode) : Inodes := { s with cache := update s.cache ip x }

def refs (s : Inodes) (ip : Iptr) : Int := (s.cache ip).ref

end Inodes

/-! ## The cache -/

def iget (inum : Ino) (s : Inodes) : Option (Inodes × Iptr) :=
  match Fin.find? fun ip => 0 < (s.cache ip).ref && (s.cache ip).inum == inum with
  | some ip => some (s.set ip { s.cache ip with ref := (s.cache ip).ref + 1 }, ip)
  | none =>
    match Fin.find? fun ip => (s.cache ip).ref == 0 with
    | none => none
    | some ip => some (s.set ip { s.cache ip with inum := inum, ref := 1, valid := false }, ip)

def idup (ip : Iptr) (s : Inodes) : Inodes := s.set ip { s.cache ip with ref := (s.cache ip).ref + 1 }

/-- `ilock(ip)` by process `t`; an inode that is read from the disk must not be free. -/
def ilock (t : Slot) (ip : Iptr) (s : Inodes) : Option Inodes :=
  if (s.cache ip).ref < 1 then none
  else if (s.cache ip).lock ≠ none then none
  else if (s.cache ip).valid = false ∧ (s.node ip).type = .free then none
  else some (s.set ip { s.cache ip with valid := true, lock := some t })

def iunlock (t : Slot) (ip : Iptr) (s : Inodes) : Option Inodes :=
  if (s.cache ip).lock ≠ some t ∨ (s.cache ip).ref < 1 then none
  else some (s.set ip { s.cache ip with lock := none })

def Dinode.freed (d : Dinode) : Dinode := { d with type := .free, ents := [] }

/-- `iput(ip)`: the last reference to an inode without links frees it on disk. -/
def iput (ip : Iptr) (s : Inodes) : Option Inodes :=
  let x := s.cache ip
  if x.ref = 1 ∧ x.valid = true ∧ (s.node ip).nlink = 0 then
    if x.lock ≠ none then none
    else some
      { nodes := update s.nodes x.inum (s.node ip).freed
        cache := update s.cache ip { x with valid := false, ref := x.ref - 1 } }
  else some (s.set ip { x with ref := x.ref - 1 })

def iunlockput (t : Slot) (ip : Iptr) (s : Inodes) : Option Inodes := (iunlock t ip s).bind (iput ip)

def dirlookup (dp : Iptr) (name : CharArr DIRSIZ) (s : Inodes) : Option (Inodes × Option Iptr) :=
  if (s.node dp).type ≠ .dir then none
  else
    match (s.node dp).ents.find? fun de => de.inum != 0 && namecmp name de.name == 0 with
    | none => some (s, none)
    | some de => (iget de.inum.toNat s).map fun (s, ip) => (s, some ip)

/-! ## What the functions keep -/

/-- Entries that are owed a reference stay with their i-number, and the inodes
are as before or freed. -/
structure Keeps (owed : Iptr → Nat) (s s' : Inodes) : Prop where
  inum : ∀ ip, 0 < owed ip → (s'.cache ip).inum = (s.cache ip).inum
  nodes : ∀ i, s'.nodes i = s.nodes i ∨ s'.nodes i = (s.nodes i).freed

variable {owed owed' : Iptr → Nat} {s s' s'' : Inodes} {ip : Iptr} {t : Slot} {x : Inode}

namespace Keeps

theorem refl (owed : Iptr → Nat) (s : Inodes) : Keeps owed s s := ⟨fun _ _ => rfl, fun _ => .inl rfl⟩

theorem trans (h : Keeps owed s s') (h' : Keeps owed s' s'') : Keeps owed s s'' where
  inum ip hip := (h'.inum ip hip).trans (h.inum ip hip)
  nodes i := by
    rcases h'.nodes i with h2 | h2 <;> rcases h.nodes i with h1 | h1 <;> simp [h2, h1, Dinode.freed]

theorem mono (h : Keeps owed s s') (hle : ∀ ip, owed' ip ≤ owed ip) : Keeps owed' s s' :=
  ⟨fun ip hip => h.inum ip (Nat.lt_of_lt_of_le hip (hle ip)), h.nodes⟩

end Keeps

theorem inum_set (hx : x.inum = (s.cache ip).inum) (j : Iptr) :
    ((s.set ip x).cache j).inum = (s.cache j).inum := Lib.update_same Inode.inum hx j

theorem Keeps.set (hx : x.inum = (s.cache ip).inum) : Keeps owed s (s.set ip x) :=
  ⟨fun j _ => inum_set hx j, fun _ => .inl rfl⟩

theorem refs_set (s : Inodes) (ip : Iptr) (x : Inode) : (s.set ip x).refs = update s.refs ip x.ref :=
  funext fun j => apply_update (fun _ => Inode.ref) s.cache ip x j

theorem iget_refs {inum : Ino} (h : iget inum s = some (s', ip)) : s'.refs = update s.refs ip (s.refs ip + 1) := by
  unfold iget at h
  split at h
  · cases h
    exact refs_set _ _ _
  split at h
  · cases h
  rename_i j hj
  cases h
  have hfree : s.refs ip = 0 := by simpa [Inodes.refs] using (Fin.find?_eq_some_iff.mp hj).1
  rw [hfree]
  exact refs_set _ _ _

theorem iget_spec {inum : Ino} (hc : Covers s.refs owed) (h : iget inum s = some (s', ip)) :
    Covers s'.refs (owed + Pi.single ip 1) ∧ Keeps owed s s' ∧ (s'.cache ip).inum = inum := by
  refine ⟨iget_refs h ▸ hc.acquire ip, ?_⟩
  unfold iget at h
  split at h
  · rename_i j hj
    cases h
    have hhit := (Fin.find?_eq_some_iff.mp hj).1
    simp only [Bool.and_eq_true, decide_eq_true_eq, beq_iff_eq] at hhit
    exact ⟨Keeps.set rfl, by simpa [Inodes.set] using hhit.2⟩
  split at h
  · cases h
  rename_i j hj
  cases h
  refine ⟨⟨fun j hpos => ?_, fun _ => .inl rfl⟩, by simp [Inodes.set]⟩
  -- the recycled entry is owed nothing
  have hne : j ≠ ip := by
    rintro rfl
    have hfree : s.refs j = 0 := by simpa [Inodes.refs] using (Fin.find?_eq_some_iff.mp hj).1
    exact absurd hfree (Int.ne_of_gt (hc.pos hpos))
  simp [Inodes.set, hne]

theorem idup_spec (hc : Covers s.refs owed) (ip : Iptr) :
    Covers (idup ip s).refs (owed + Pi.single ip 1) ∧ Keeps owed s (idup ip s) ∧
      ((idup ip s).cache ip).inum = (s.cache ip).inum := by
  refine ⟨?_, Keeps.set rfl, by simp [idup, Inodes.set]⟩
  rw [idup, refs_set]
  exact hc.acquire ip

/-- Nothing but locks and valid bits differs. -/
structure Alike (s s' : Inodes) : Prop where
  refs : s'.refs = s.refs
  nodes : s'.nodes = s.nodes
  inum : ∀ ip, (s'.cache ip).inum = (s.cache ip).inum

namespace Alike

theorem keeps (h : Alike s s') : Keeps owed s s' := ⟨fun ip _ => h.inum ip, fun i => .inl (congrFun h.nodes i)⟩

theorem node (h : Alike s s') (ip : Iptr) : s'.node ip = s.node ip := by
  rw [Inodes.node, Inodes.node, h.nodes, h.inum]

theorem set (hi : x.inum = (s.cache ip).inum) (hr : x.ref = (s.cache ip).ref) : Alike s (s.set ip x) where
  refs := by
    rw [refs_set, hr]
    exact update_eq_self ip s.refs
  nodes := rfl
  inum := inum_set hi

end Alike

theorem ilock_alike (h : ilock t ip s = some s') : Alike s s' := by
  unfold ilock at h
  split at h
  · cases h
  split at h
  · cases h
  split at h
  · cases h
  cases h
  exact Alike.set rfl rfl

theorem iunlock_alike (h : iunlock t ip s = some s') : Alike s s' := by
  unfold iunlock at h
  split at h
  · cases h
  cases h
  exact Alike.set rfl rfl

theorem iput_spec (hc : Covers s.refs (owed + Pi.single ip 1)) (h : iput ip s = some s') :
    Covers s'.refs owed ∧ ∀ owed', Keeps owed' s s' := by
  have hrefs : ∀ x : Inode, x.ref = (s.cache ip).ref - 1 → Covers (s.set ip x).refs owed := by
    intro x hx
    rw [refs_set, hx]
    exact hc.release
  unfold iput at h
  dsimp only at h
  split at h
  · split at h
    · cases h
    cases h
    refine ⟨hrefs { s.cache ip with valid := false, ref := (s.cache ip).ref - 1 } rfl,
      fun owed' => ⟨fun j hj => ?_, fun i => ?_⟩⟩
    · exact inum_set (x := { s.cache ip with valid := false, ref := (s.cache ip).ref - 1 }) rfl j
    · by_cases hi : i = (s.cache ip).inum
      · subst hi
        exact .inr (update_self _ _ _)
      · exact .inl (update_of_ne hi _ _)
  · cases h
    exact ⟨hrefs _ rfl, fun owed' => Keeps.set rfl⟩

/-! ## When the functions return -/

def Unlocked (s : Inodes) : Prop := ∀ ip, (s.cache ip).lock = none

/-- Process `t` has locked `ip`, and no other inode is locked. -/
def LockedBy (t : Slot) (ip : Iptr) (s : Inodes) : Prop :=
  ∀ j, (s.cache j).lock = if j = ip then some t else none

def Room (n : Nat) (s : Inodes) : Prop := n ≤ count (· = (0 : Int)) s.refs

theorem iget_returns {n : Nat} (inum : Ino) (hroom : Room (n + 1) s) :
    ∃ s' ip, iget inum s = some (s', ip) ∧ s'.nodes = s.nodes ∧ Room n s' ∧
      ∀ j, (s'.cache j).lock = (s.cache j).lock := by
  have hsome : ∃ s' ip, iget inum s = some (s', ip) ∧ s'.nodes = s.nodes ∧ ∀ j, (s'.cache j).lock = (s.cache j).lock := by
    unfold iget
    split
    · exact ⟨_, _, rfl, rfl, Lib.update_same Inode.lock rfl⟩
    split
    · rename_i hfull
      have hzero : count (· = (0 : Int)) s.refs = 0 := Lib.count_eq_zero.mpr fun ip => by
        simpa [Inodes.refs] using Fin.find?_eq_none_iff.mp hfull ip
      rw [Room, hzero] at hroom
      exact absurd hroom (Nat.not_succ_le_zero n)
    · exact ⟨_, _, rfl, rfl, Lib.update_same Inode.lock rfl⟩
  obtain ⟨s', ip, h, hnodes, hlock⟩ := hsome
  refine ⟨s', ip, h, hnodes, ?_, hlock⟩
  have hcount := Lib.count_update (P := (· = (0 : Int))) (f := s.refs) ip (s.refs ip + 1)
  unfold Room at hroom ⊢
  rw [iget_refs h]
  split at hcount <;> omega

theorem ilock_returns (hu : Unlocked s) (href : 0 < s.refs ip) (htype : (s.node ip).type ≠ .free) :
    ∃ s', ilock t ip s = some s' ∧ LockedBy t ip s' := by
  have h1 : ¬ (s.cache ip).ref < 1 := by
    have : 0 < (s.cache ip).ref := href
    omega
  refine ⟨_, by rw [ilock, if_neg h1, if_neg (not_not.mpr (hu ip)), if_neg (htype ·.2)], fun j => ?_⟩
  by_cases hj : j = ip
  · subst hj
    simp [Inodes.set]
  · simpa [Inodes.set, hj] using hu j

theorem iunlock_returns (hl : LockedBy t ip s) (href : 0 < s.refs ip) : ∃ s', iunlock t ip s = some s' ∧ Unlocked s' := by
  have h1 : ¬ ((s.cache ip).lock ≠ some t ∨ (s.cache ip).ref < 1) := by
    have : 0 < (s.cache ip).ref := href
    have := hl ip
    rw [if_pos rfl] at this
    rintro (h | h)
    · exact h this
    · omega
  refine ⟨_, by rw [iunlock, if_neg h1], fun j => ?_⟩
  by_cases hj : j = ip
  · subst hj
    simp [Inodes.set]
  · simpa [Inodes.set, hj] using hl j

theorem iput_returns (hu : Unlocked s) (ip : Iptr) : ∃ s', iput ip s = some s' := by
  unfold iput
  dsimp only
  split
  · rw [if_neg (not_not.mpr (hu ip))]
    exact ⟨_, rfl⟩
  · exact ⟨_, rfl⟩

end Xv6.Fs
