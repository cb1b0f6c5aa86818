/-
# Xv6.Fs.Icache — the inode cache with its copies, used by many processes at once (`kernel/fs.c`:
`iget`, `idup`, `ilock`, `iunlock`, `iput`, `ialloc`, `iupdate`).

A step is a section under `icache.lock`, or work under the sleep lock of an inode.  `iput` of the last
reference to an inode without links, and `ialloc`, take several steps; where a process stands in one of
them is its `Pc`.  A reference has a holder: a process, or whatever lends its reference to processes (an
open file, a container with its root directory); references are handed over with `give`.

The main result of this module is that the cache is write-through in every interleaving: an entry in use
that is valid is the inode on disk (`Coherent.fresh`), but for the moment in which its holder has freed the
inode and somebody else may have claimed it.
-/
import Xv6.Fs.Content
import Xv6.Fs.Inode
import Xv6.Lib.Trace
import Xv6.Lib.Count
import Mathlib.Algebra.Order.BigOperators.Group.Finset

namespace Xv6.Fs

open Function
open Kernel (Cid)

/-! ## State -/

def FileType.code : FileType → BitVec 16
  | .free => 0
  | .dir => 1
  | .file => 2
  | .device => 3

abbrev NodeType := { type : FileType // type ≠ .free }

def NodeType.dir : NodeType := ⟨.dir, FileType.noConfusion⟩

def NodeType.file : NodeType := ⟨.file, FileType.noConfusion⟩

theorem NodeType.code_ne_zero (type : NodeType) : type.val.code ≠ 0 := by
  obtain ⟨type, h⟩ := type
  cases type with
  | free => exact absurd rfl h
  | dir | file | device => simp [FileType.code]

structure Entry (τ : Type) where
  inum : Nat
  ref : Nat
  valid : Bool
  lock : Option τ
  copy : DiskInode

/-- The end of `iput`, from the first `release(&icache.lock)` on. -/
inductive Stage
  | locked | truncated | cleared | released
  deriving DecidableEq

inductive Pc
  | idle
  | freeing (ip : Iptr) (stage : Stage)
  | scanning (type : NodeType) (inum : Nat)
  | claimed (inum : Nat)
  deriving DecidableEq

structure Icache (τ : Type) where
  store : Store
  entry : Iptr → Entry τ
  pc : τ → Pc
  held : τ → Iptr → Nat

inductive Event (τ : Type)
  | iget (t : τ) (inum : Nat)
  | idup (t : τ) (ip : Iptr)
  | give (t u : τ) (ip : Iptr)
  | ilock (t : τ) (ip : Iptr)
  | iunlock (t : τ) (ip : Iptr)
  | iput (t : τ) (ip : Iptr)
  | trunc (t : τ) (ip : Iptr)
  | clearType (t : τ) (ip : Iptr)
  | invalidate (t : τ) (ip : Iptr)
  | dropRef (t : τ) (ip : Iptr)
  | ialloc (t : τ) (type : NodeType)
  | probe (t : τ) (type : NodeType) (inum : Nat)
  | igetNew (t : τ) (inum : Nat)
  | readi (t : τ) (ip : Iptr) (dst : Nat → Bool) (off n : BitVec 32)
  | writei (t : τ) (ip : Iptr) (src : Nat → Option (BitVec 8)) (off n : BitVec 32)
  | itrunc (t : τ) (ip : Iptr)
  | iupdate (t : τ) (ip : Iptr) (major minor nlink : BitVec 16)

namespace Icache

variable {τ : Type} {s : Icache τ} {t : τ} {x : DiskInode} {st : Store} {ip : Iptr}

section Code

variable [DecidableEq τ]

@[simps -fullyApplied pc held store]
def set (s : Icache τ) (ip : Iptr) (e : Entry τ) : Icache τ := { s with entry := update s.entry ip e }

@[simps -fullyApplied entry held store]
def setPc (s : Icache τ) (t : τ) (p : Pc) : Icache τ := { s with pc := update s.pc t p }

@[simps -fullyApplied entry pc store]
def setHeld (s : Icache τ) (t : τ) (ip : Iptr) (n : Nat) : Icache τ :=
  { s with held := update s.held t (update (s.held t) ip n) }

/-! ## The functions -/

def iget (t : τ) (inum : Nat) (s : Icache τ) : Except Panic (Icache τ) :=
  match Fin.find? fun ip => 0 < (s.entry ip).ref && (s.entry ip).inum == inum with
  | some ip =>
    .ok ((s.set ip { s.entry ip with ref := (s.entry ip).ref + 1 }).setHeld t ip (s.held t ip + 1))
  | none =>
    match Fin.find? fun ip => (s.entry ip).ref == 0 with
    | none => .error .igetNoInodes
    | some ip =>
      .ok ((s.set ip { s.entry ip with inum := inum, ref := 1, valid := false }).setHeld t ip
        (s.held t ip + 1))

def idup (t : τ) (ip : Iptr) (s : Icache τ) : Icache τ :=
  (s.set ip { s.entry ip with ref := (s.entry ip).ref + 1 }).setHeld t ip (s.held t ip + 1)

/-- `ilock(ip)`, once the sleep lock is free. -/
def ilock (sb : Superblock) (t : τ) (ip : Iptr) (s : Icache τ) : Except Panic (Icache τ) :=
  let x := s.entry ip
  if x.ref < 1 then .error .ilock
  else if x.valid = true then .ok (s.set ip { x with lock := some t })
  else
    let copy := readInode sb s.store.disk x.inum
    if copy.type = 0 then .error .ilockNoType
    else .ok (s.set ip { x with lock := some t, valid := true, copy := copy })

def iunlock (t : τ) (ip : Iptr) (s : Icache τ) : Except Panic (Icache τ) :=
  if (s.entry ip).lock ≠ some t ∨ (s.entry ip).ref < 1 then .error .iunlock
  else .ok (s.set ip { s.entry ip with lock := none })

/-- The test in `iput` for the last reference to an inode without links. -/
def Frees (s : Icache τ) (ip : Iptr) : Prop :=
  (s.entry ip).ref = 1 ∧ (s.entry ip).valid = true ∧ (s.entry ip).copy.nlink = 0
deriving Decidable

def drop (t : τ) (ip : Iptr) (s : Icache τ) : Icache τ :=
  (s.set ip { s.entry ip with ref := (s.entry ip).ref - 1 }).setHeld t ip (s.held t ip - 1)

/-- `iput(ip)` up to its first `release(&icache.lock)`. -/
def iput (t : τ) (ip : Iptr) (s : Icache τ) : Icache τ :=
  if s.Frees ip then (s.set ip { s.entry ip with lock := some t }).setPc t (.freeing ip .locked)
  else s.drop t ip

/-- A function on the copy and the store, for the entry `ip`. -/
def work (ip : Iptr) (f : DiskInode → Store → Except Panic (DiskInode × Store)) (s : Icache τ) :
    Except Panic (Icache τ) := do
  let (copy, store) ← f (s.entry ip).copy s.store
  .ok { s.set ip { s.entry ip with copy := copy } with store := store }

def newInode (type : NodeType) : DiskInode where
  type := type.val.code
  major := 0
  minor := 0
  nlink := 0
  size := 0
  addrs := fun _ => 0

/-- One turn of the loop of `ialloc`. -/
def probe (sb : Superblock) (t : τ) (type : NodeType) (inum : Nat) (s : Icache τ) : Except Panic (Icache τ) :=
  if sb.ninodes ≤ inum then .error .iallocNoInodes
  else if (readInode sb s.store.disk inum).type = 0 then
    .ok { s.setPc t (.claimed inum) with store := iupdate sb inum (newInode type) s.store }
  else .ok (s.setPc t (.scanning type (inum + 1)))

/-! ## The machine -/

/-- `t` can do without one of its references: a lock is held with a reference. -/
def Spare (s : Icache τ) (t : τ) (ip : Iptr) : Prop :=
  0 < s.held t ip ∧ ((s.entry ip).lock = some t → 2 ≤ s.held t ip)

instance (s : Icache τ) (t : τ) (ip : Iptr) : Decidable (s.Spare t ip) :=
  inferInstanceAs (Decidable (_ ∧ (_ → _)))

def Works (s : Icache τ) (t : τ) (ip : Iptr) : Prop := s.pc t = .idle ∧ (s.entry ip).lock = some t

instance (s : Icache τ) (t : τ) (ip : Iptr) : Decidable (s.Works t ip) := inferInstanceAs (Decidable (_ ∧ _))

/-- Who may do what, and when: callers hold the references and locks that the functions ask of them, and
a process does one thing at a time. -/
def Enabled (s : Icache τ) : Event τ → Prop
  | .iget t _ | .ialloc t _ => s.pc t = .idle
  | .idup t ip => s.pc t = .idle ∧ 0 < s.held t ip
  | .give t u ip => s.pc t = .idle ∧ s.pc u = .idle ∧ t ≠ u ∧ s.Spare t ip
  | .ilock t ip => s.pc t = .idle ∧ 0 < s.held t ip ∧ (s.entry ip).lock = none
  | .iput t ip => s.pc t = .idle ∧ s.Spare t ip ∧ (s.Frees ip → (s.entry ip).lock = none)
  | .trunc t ip => s.pc t = .freeing ip .locked
  | .clearType t ip => s.pc t = .freeing ip .truncated
  | .invalidate t ip => s.pc t = .freeing ip .cleared
  | .dropRef t ip => s.pc t = .freeing ip .released
  | .probe t type inum => s.pc t = .scanning type inum
  | .igetNew t inum => s.pc t = .claimed inum
  | .iunlock t ip | .readi t ip _ _ _ | .writei t ip _ _ _ | .itrunc t ip | .iupdate t ip _ _ _ =>
    s.Works t ip

instance (s : Icache τ) (e : Event τ) : Decidable (s.Enabled e) := by
  cases e <;> unfold Enabled <;> infer_instance

def act (sb : Superblock) (cont : τ → Cid) (s : Icache τ) : Event τ → Except Panic (Icache τ)
  | .iget t inum => s.iget t inum
  | .idup t ip => .ok (s.idup t ip)
  | .give t u ip => .ok ((s.setHeld t ip (s.held t ip - 1)).setHeld u ip (s.held u ip + 1))
  | .ilock t ip => s.ilock sb t ip
  | .iunlock t ip => s.iunlock t ip
  | .iput t ip => .ok (s.iput t ip)
  | .trunc t ip =>
    (s.setPc t (.freeing ip .truncated)).work ip (Fs.itrunc sb (cont t) (s.entry ip).inum)
  | .clearType t ip =>
    -- `ip->type = 0; iupdate(ip)`
    (s.setPc t (.freeing ip .cleared)).work ip fun x st =>
      .ok ({ x with type := 0 }, Fs.iupdate sb (s.entry ip).inum { x with type := 0 } st)
  | .invalidate t ip =>
    -- `ip->valid = 0; releasesleep(&ip->lock)`
    .ok ((s.set ip { s.entry ip with valid := false, lock := none }).setPc t (.freeing ip .released))
  | .dropRef t ip => .ok ((s.drop t ip).setPc t .idle)
  | .ialloc t type => .ok (s.setPc t (.scanning type 1))
  | .probe t type inum => s.probe sb t type inum
  | .igetNew t inum => (s.setPc t .idle).iget t inum
  | .readi t ip dst off n =>
    s.work ip fun x st => do
      let (_, _, x, st) ← Fs.readi sb (cont t) x dst off n st
      .ok (x, st)
  | .writei t ip src off n =>
    s.work ip fun x st => do
      let (_, x, st) ← Fs.writei sb (cont t) (s.entry ip).inum x src off n st
      .ok (x, st)
  | .itrunc t ip => s.work ip (Fs.itrunc sb (cont t) (s.entry ip).inum)
  | .iupdate _ ip major minor nlink =>
    s.work ip fun x st =>
      let x := { x with major := major, minor := minor, nlink := nlink }
      .ok (x, Fs.iupdate sb (s.entry ip).inum x st)

def step (sb : Superblock) (cont : τ → Cid) (s : Icache τ) (e : Event τ) : Option (Icache τ) :=
  if s.Enabled e then (s.act sb cont e).toOption else none

theorem step_eq_some {sb : Superblock} {cont : τ → Cid} {s s' : Icache τ} {e : Event τ} :
    s.step sb cont e = some s' ↔ s.Enabled e ∧ s.act sb cont e = .ok s' := by
  unfold step
  split
  · rename_i h
    cases hact : s.act sb cont e with
    | error p => simp [Except.toOption]
    | ok r => simp [Except.toOption, h]
  · rename_i h
    simp [h]

variable {sb : Superblock} {s' : Icache τ} {inum : Nat} {type : NodeType}

theorem iget_eq_ok (h : s.iget t inum = .ok s') : ∃ ip,
    (0 < (s.entry ip).ref ∧ (s.entry ip).inum = inum ∧ s' = s.idup t ip) ∨
    (Fin.find? (fun ip => (s.entry ip).ref == 0) = some ip ∧ (s.entry ip).ref = 0 ∧
      (∀ jp, 0 < (s.entry jp).ref → (s.entry jp).inum ≠ inum) ∧
      s' = (s.set ip { s.entry ip with inum := inum, ref := 1, valid := false }).setHeld t ip (s.held t ip + 1)) := by
  unfold iget at h
  split at h
  · rename_i ip hfind
    have hip := (Fin.find?_eq_some_iff.mp hfind).1
    rw [Bool.and_eq_true, decide_eq_true_iff, beq_iff_eq] at hip
    cases h
    exact ⟨ip, .inl ⟨hip.1, hip.2, rfl⟩⟩
  rename_i hnone
  split at h
  · cases h
  rename_i ip hfind
  cases h
  refine ⟨ip, .inr ⟨hfind, beq_iff_eq.mp (Fin.find?_eq_some_iff.mp hfind).1, fun jp hj heq => ?_, rfl⟩⟩
  have hmiss := Fin.find?_eq_none_iff.mp hnone jp
  rw [Bool.and_eq_false_iff, decide_eq_false_iff_not, beq_eq_false_iff_ne] at hmiss
  exact hmiss.elim (fun hn => hn hj) fun hn => hn heq

theorem probe_eq_ok (h : s.probe sb t type inum = .ok s') : inum < sb.ninodes ∧
    ((readInode sb s.store.disk inum).type = 0 ∧
        s' = { s.setPc t (.claimed inum) with store := iupdate sb inum (newInode type) s.store } ∨
      s' = s.setPc t (.scanning type (inum + 1))) := by
  unfold probe at h
  split at h
  · cases h
  rename_i hlt
  refine ⟨Nat.not_le.mp hlt, ?_⟩
  split at h
  · rename_i hfree
    exact .inl ⟨hfree, (Except.ok.inj h).symm⟩
  · exact .inr (Except.ok.inj h).symm

omit [DecidableEq τ] in
theorem ilock_eq_ok (h : s.ilock sb t ip = .ok s') : ∃ e, s' = s.set ip e ∧ e.inum = (s.entry ip).inum := by
  unfold ilock at h
  dsimp only at h
  split at h
  · cases h
  split at h
  · cases h
    exact ⟨_, rfl, rfl⟩
  · split at h
    · cases h
    · cases h
      exact ⟨_, rfl, rfl⟩

theorem iunlock_eq_ok (h : s.iunlock t ip = .ok s') : s' = s.set ip { s.entry ip with lock := none } := by
  unfold iunlock at h
  split at h
  · cases h
  · exact (Except.ok.inj h).symm

end Code

/-! ## One step concerns one entry and one process -/

section Fields

variable (s : Icache τ) (ip : Iptr) (e : Entry τ)

@[simp] theorem set_entry : (s.set ip e).entry ip = e := update_self ..

variable [DecidableEq τ] (t : τ) (p : Pc) (n : Nat)

@[simp] theorem setPc_pc : (s.setPc t p).pc t = p := update_self ..
theorem setPc_pc_of_ne {u : τ} (hu : u ≠ t) : (s.setPc t p).pc u = s.pc u := update_of_ne hu ..
@[simp] theorem setHeld_held : (s.setHeld t ip n).held t ip = n := by
  simp only [setHeld, update_self]

end Fields

/-- Nothing but entry `ip`, process `t` and the store has changed. -/
structure Local (s s' : Icache τ) (t : τ) (ip : Iptr) : Prop where
  entry : ∀ jp, jp ≠ ip → s'.entry jp = s.entry jp
  pc : ∀ u, u ≠ t → s'.pc u = s.pc u
  held : ∀ u jp, u ≠ t ∨ jp ≠ ip → s'.held u jp = s.held u jp

namespace Local

variable {s s' : Icache τ} {t : τ} {ip : Iptr}

theorem refl : Local s s t ip := ⟨fun _ _ => rfl, fun _ _ => rfl, fun _ _ _ => rfl⟩

theorem trans {s'' : Icache τ} (h : Local s s' t ip) (h' : Local s' s'' t ip) : Local s s'' t ip :=
  ⟨fun jp hne => (h'.entry jp hne).trans (h.entry jp hne), fun u hne => (h'.pc u hne).trans (h.pc u hne),
    fun u jp hne => (h'.held u jp hne).trans (h.held u jp hne)⟩

theorem set (h : Local s s' t ip) (e : Entry τ) : Local s (s'.set ip e) t ip :=
  ⟨fun jp hne => (update_of_ne hne ..).trans (h.entry jp hne), h.pc, h.held⟩

theorem store (h : Local s s' t ip) (st : Store) : Local s { s' with store := st } t ip := ⟨h.entry, h.pc, h.held⟩

variable [DecidableEq τ]

theorem setPc (h : Local s s' t ip) (p : Pc) : Local s (s'.setPc t p) t ip :=
  ⟨h.entry, fun u hne => (update_of_ne hne ..).trans (h.pc u hne), h.held⟩

theorem setHeld (h : Local s s' t ip) (n : Nat) : Local s (s'.setHeld t ip n) t ip where
  entry := h.entry
  pc := h.pc
  held u jp hne := by
    refine Eq.trans ?_ (h.held u jp hne)
    by_cases hu : u = t
    · subst hu
      have hjp : jp ≠ ip := hne.resolve_left fun h => h rfl
      simp only [Icache.setHeld, update_self, update_of_ne hjp]
    · simp only [Icache.setHeld, update_of_ne hu]

end Local

/-! ## Coherence -/

theorem not_freeing {p : Pc} (h : s.pc t = p) (hp : ∀ jp stage, p ≠ .freeing jp stage) :
    ∀ jp stage, s.pc t ≠ .freeing jp stage := by
  subst h
  exact hp

theorem idle_ne (h : s.pc t = .idle) : ∀ jp stage, s.pc t ≠ .freeing jp stage := not_freeing h fun _ _ => Pc.noConfusion

theorem freeing_idle (h : s.pc t = .idle) : ∀ jp stage, s.pc t = .freeing jp stage → jp = ip :=
  fun jp stage hf => absurd hf (idle_ne h jp stage)

theorem freeing_ip {stage : Stage} (h : s.pc t = .freeing ip stage) :
    ∀ jp stage, s.pc t = .freeing jp stage → jp = ip := by
  intro jp stage hf
  cases h.symm.trans hf
  rfl

variable [Fintype τ]

/-- The file system is well-formed; references are counted, in entries of different inodes; and an entry in use that is
valid is the inode on disk. -/
structure Coherent (sb : Superblock) (s : Icache τ) : Prop where
  wf : Wf sb s.store.disk
  refs : ∀ ip, ∑ t, s.held t ip = (s.entry ip).ref
  uniq : ∀ ip jp, 0 < (s.entry ip).ref → 0 < (s.entry jp).ref → (s.entry ip).inum = (s.entry jp).inum → ip = jp
  bound : ∀ ip, 0 < (s.entry ip).ref → (s.entry ip).inum < sb.ninodes
  locked : ∀ ip t, (s.entry ip).lock = some t → 0 < s.held t ip ∧ (s.entry ip).valid = true
  freeing : ∀ t ip stage, s.pc t = .freeing ip stage →
    s.held t ip = 1 ∧ ((s.entry ip).lock = some t ↔ stage ≠ .released)
  claims : ∀ t i, s.pc t = .claimed i → i < sb.ninodes
  fresh : ∀ ip, 0 < (s.entry ip).ref → (s.entry ip).valid = true → (∀ t, s.pc t ≠ .freeing ip .cleared) →
    inodesOf sb s.store.disk (s.entry ip).inum = some (s.entry ip).copy

namespace Coherent

variable {sb : Superblock} {s s' : Icache τ} {t u : τ} {ip : Iptr} {p : Pc} {e : Entry τ}

omit [Fintype τ] in
/-- Nobody is in the middle of `iput` who is not there after the step. -/
theorem not_cleared (hp : s.pc t = p) (hne : p ≠ .freeing ip .cleared) (hl : Local s s' t ip)
    (hclear : ∀ u, s'.pc u ≠ .freeing ip .cleared) (u : τ) : s.pc u ≠ .freeing ip .cleared := by
  intro hu
  by_cases hut : u = t
  · subst hut
    exact hne (hp.symm.trans hu)
  · exact hclear u ((hl.pc u hut).trans hu)

theorem held_le (h : Coherent sb s) (t : τ) (ip : Iptr) : s.held t ip ≤ (s.entry ip).ref :=
  h.refs ip ▸ Finset.single_le_sum (f := fun t => s.held t ip) (fun _ _ => Nat.zero_le _) (Finset.mem_univ t)

theorem ref_pos (h : Coherent sb s) (ht : 0 < s.held t ip) : 0 < (s.entry ip).ref :=
  Nat.lt_of_lt_of_le ht (h.held_le t ip)

theorem works (h : Coherent sb s) (hlock : (s.entry ip).lock = some t)
    (hpc : s.pc t ≠ .freeing ip .cleared) :
    0 < (s.entry ip).ref ∧ (s.entry ip).valid = true ∧
      inodesOf sb s.store.disk (s.entry ip).inum = some (s.entry ip).copy := by
  obtain ⟨hheld, hvalid⟩ := h.locked ip t hlock
  refine ⟨h.ref_pos hheld, hvalid, h.fresh ip (h.ref_pos hheld) hvalid fun u hu => ?_⟩
  have hlu := ((h.freeing u ip _ hu).2).mpr Stage.noConfusion
  rw [hlock, Option.some_inj] at hlu
  exact hpc (hlu ▸ hu)

variable [DecidableEq τ]

theorem held_add_le (h : Coherent sb s) (hne : t ≠ u) (ip : Iptr) : s.held t ip + s.held u ip ≤ (s.entry ip).ref := by
  rw [← h.refs ip, ← Finset.sum_pair (f := fun t => s.held t ip) hne]
  exact Finset.sum_le_sum_of_subset (Finset.subset_univ _)

section Rule

variable {n : Nat} (h : Coherent sb s) (hl : Local s s' t ip)
  (he : s'.entry ip = e) (hn : s'.held t ip = n) (hp : s'.pc t = p)
  (hpc : ∀ jp stage, s.pc t = .freeing jp stage → jp = ip)
  (hwf : Wf sb s'.store.disk)
  (hdisk : ∀ j, j < sb.ninodes → (0 < e.ref → j ≠ e.inum) → readInode sb s'.store.disk j = readInode sb s.store.disk j)
  (href : e.ref + s.held t ip = (s.entry ip).ref + n)
  (hother : ∀ u, u ≠ t → (e.lock = some u ↔ (s.entry ip).lock = some u))
  (hlock : ∀ u, e.lock = some u → e.valid = true ∧ (u = t → 0 < n))
  (hstage : ∀ jp stage, p = .freeing jp stage → jp = ip ∧ n = 1 ∧ (e.lock = some t ↔ stage ≠ .released))
  (hclaim : ∀ i, p ≠ .claimed i)
  (hfresh : 0 < e.ref → e.valid = true → (∀ u, s'.pc u ≠ .freeing ip .cleared) →
    inodesOf sb s'.store.disk e.inum = some e.copy)
include h hl he hn hp hpc hwf hdisk href hother hlock hstage hclaim hfresh

/-- **The step rule.** What is to be shown of the one entry and the one process that a step concerns:
`e`, `n` and `p` are the entry, the references and the place of the process after it. -/
theorem change (huniq : 0 < e.ref → ∀ jp, jp ≠ ip → 0 < (s.entry jp).ref → (s.entry jp).inum ≠ e.inum)
    (hbound : 0 < e.ref → e.inum < sb.ninodes) : Coherent sb s' := by
  subst he hn hp
  constructor
  case wf => exact hwf
  case refs =>
    intro jp
    by_cases hjp : jp = ip
    · subst hjp
      have hsum := Lib.sum_add_eq (f := fun u => s.held u jp) (g := fun u => s'.held u jp) t
        fun u hu => hl.held u jp (.inl hu)
      have hold := h.refs jp
      omega
    · rw [hl.entry jp hjp, ← h.refs jp]
      exact Finset.sum_congr rfl fun u _ => hl.held u jp (.inr hjp)
  case uniq =>
    intro jp kp hj hk heq
    by_cases hjp : jp = ip <;> by_cases hkp : kp = ip
    · rw [hjp, hkp]
    · subst hjp
      rw [hl.entry kp hkp] at hk heq
      exact absurd heq.symm (huniq hj kp hkp hk)
    · subst hkp
      rw [hl.entry jp hjp] at hj heq
      exact absurd heq (huniq hk jp hjp hj)
    · rw [hl.entry jp hjp] at hj heq
      rw [hl.entry kp hkp] at hk heq
      exact h.uniq jp kp hj hk heq
  case bound =>
    intro jp hj
    by_cases hjp : jp = ip
    · subst hjp
      exact hbound hj
    · rw [hl.entry jp hjp] at hj ⊢
      exact h.bound jp hj
  case locked =>
    intro jp u hu
    by_cases hjp : jp = ip
    · subst hjp
      refine ⟨?_, (hlock u hu).1⟩
      by_cases hut : u = t
      · subst hut
        exact (hlock u hu).2 rfl
      · rw [hl.held u jp (.inl hut)]
        exact (h.locked jp u ((hother u hut).mp hu)).1
    · rw [hl.entry jp hjp] at hu ⊢
      rw [hl.held u jp (.inr hjp)]
      exact h.locked jp u hu
  case freeing =>
    intro u jp stage hu
    by_cases hut : u = t
    · subst hut
      obtain ⟨rfl, hheld, hiff⟩ := hstage jp stage hu
      exact ⟨hheld, hiff⟩
    rw [hl.pc u hut] at hu
    obtain ⟨hheld, hiff⟩ := h.freeing u jp stage hu
    rw [hl.held u jp (.inl hut)]
    refine ⟨hheld, ?_⟩
    by_cases hjp : jp = ip
    · subst hjp
      rw [hother u hut]
      exact hiff
    · rw [hl.entry jp hjp]
      exact hiff
  case claims =>
    intro u i hu
    by_cases hut : u = t
    · subst hut
      exact absurd hu (hclaim i)
    · exact h.claims u i ((hl.pc u hut) ▸ hu)
  case fresh =>
    intro jp hj hvalid hclear
    by_cases hjp : jp = ip
    · subst hjp
      exact hfresh hj hvalid hclear
    rw [hl.entry jp hjp] at hj hvalid ⊢
    have hold := h.fresh jp hj hvalid fun u hu => by
      by_cases hut : u = t
      · subst hut
        exact hjp (hpc jp _ hu)
      · rw [← hl.pc u hut] at hu
        exact hclear u hu
    obtain ⟨hlt, ht, hread⟩ := inodesOf_eq_some.mp hold
    exact inodesOf_eq_some.mpr ⟨hlt, ht, (hdisk _ hlt fun hr => huniq hr jp hjp hj).trans hread⟩

/-- The step rule for an entry in use that stays with its inode. -/
theorem keep (hinum : e.inum = (s.entry ip).inum) (hused : 0 < (s.entry ip).ref) : Coherent sb s' :=
  h.change hl he hn hp hpc hwf hdisk href hother hlock hstage hclaim hfresh
    (fun _ jp hjp hj heq => hjp (h.uniq jp ip hj hused (heq.trans hinum))) fun _ => hinum ▸ h.bound ip hused

end Rule

theorem setPc (h : Coherent sb s) (hold : ∀ jp stage, s.pc t ≠ .freeing jp stage)
    (hnew : ∀ jp stage, p ≠ .freeing jp stage) (hclaim : ∀ i, p = .claimed i → i < sb.ninodes) :
    Coherent sb (s.setPc t p) where
  wf := h.wf
  refs := h.refs
  uniq := h.uniq
  bound := h.bound
  locked := h.locked
  freeing u ip stage hu := by
    by_cases hut : u = t
    · subst hut
      rw [setPc_pc] at hu
      exact absurd hu (hnew ip stage)
    · exact h.freeing u ip stage ((setPc_pc_of_ne s t p hut) ▸ hu)
  claims u i hu := by
    by_cases hut : u = t
    · subst hut
      rw [setPc_pc] at hu
      exact hclaim i hu
    · exact h.claims u i ((setPc_pc_of_ne s t p hut) ▸ hu)
  fresh ip hr hv hclear := h.fresh ip hr hv fun u hu => by
    by_cases hut : u = t
    · subst hut
      exact hold ip _ hu
    · exact hclear u ((setPc_pc_of_ne s t p hut).trans hu)

/-! ### References -/

section

variable (h : Coherent sb s)
include h

theorem takeRef (hpc : s.pc t = .idle) (hused : 0 < (s.entry ip).ref) :
    Coherent sb ((s.set ip { s.entry ip with ref := (s.entry ip).ref + 1 }).setHeld t ip (s.held t ip + 1)) := by
  have hl : Local s ((s.set ip { s.entry ip with ref := (s.entry ip).ref + 1 }).setHeld t ip
      (s.held t ip + 1)) t ip := (Local.refl.set _).setHeld _
  refine h.keep hl (set_entry s ip _) (setHeld_held ..) hpc (freeing_idle hpc) h.wf (fun _ _ _ => rfl) ?_
    (fun _ _ => Iff.rfl) ?_ (fun _ _ => Pc.noConfusion) (fun _ => Pc.noConfusion) ?_ rfl hused
  · dsimp only
    omega
  · exact fun u hu => ⟨(h.locked ip u hu).2, fun _ => Nat.succ_pos _⟩
  · exact fun _ hv hclear => h.fresh ip hused hv (not_cleared hpc Pc.noConfusion hl hclear)

theorem iget {inum : Nat} (hinum : inum < sb.ninodes) (hpc : s.pc t = .idle)
    (hs : s.iget t inum = .ok s') : Coherent sb s' := by
  obtain ⟨ip, ⟨hused, -, rfl⟩ | ⟨-, hfree, hnone, rfl⟩⟩ := iget_eq_ok hs
  · exact h.takeRef hpc hused
  have hheld : s.held t ip = 0 := Nat.le_zero.mp (hfree ▸ h.held_le t ip)
  refine h.change ((Local.refl.set _).setHeld _) (set_entry s ip _) (setHeld_held ..) hpc (freeing_idle hpc) h.wf
    (fun _ _ _ => rfl) ?_ (fun _ _ => Iff.rfl) ?_ (fun _ _ => Pc.noConfusion) (fun _ => Pc.noConfusion)
    (fun _ hv => Bool.noConfusion hv) ?_ fun _ => hinum
  · dsimp only
    omega
  · -- an entry that nobody uses is not locked
    intro u hu
    have hpos := h.ref_pos (h.locked ip u hu).1
    omega
  · exact fun _ jp _ => hnone jp

theorem drop (hpc : ∀ jp stage, s.pc t = .freeing jp stage → jp = ip ∧ stage ≠ .cleared)
    (hspare : s.Spare t ip) : Coherent sb ((s.drop t ip).setPc t .idle) := by
  have hl : Local s ((s.drop t ip).setPc t .idle) t ip := ((Local.refl.set _).setHeld _).setPc _
  have hused := h.ref_pos hspare.1
  have hle := h.held_le t ip
  have hpos := hspare.1
  refine h.keep (n := s.held t ip - 1) hl (set_entry s ip _) (setHeld_held ..) (setPc_pc ..)
    (fun jp stage hf => (hpc jp stage hf).1) h.wf (fun _ _ _ => rfl) ?_ (fun _ _ => Iff.rfl) ?_
    (fun _ _ => Pc.noConfusion) (fun _ => Pc.noConfusion) ?_ rfl hused
  · dsimp only
    omega
  · intro u hu
    refine ⟨(h.locked ip u hu).2, ?_⟩
    rintro rfl
    have htwo := hspare.2 hu
    omega
  · intro _ hv hclear
    exact h.fresh ip hused hv (not_cleared rfl (fun hf => (hpc ip _ hf).2 rfl) hl hclear)

theorem give (hne : t ≠ u) (ht : s.pc t = .idle) (hu : s.pc u = .idle)
    (hspare : s.Spare t ip) :
    Coherent sb ((s.setHeld t ip (s.held t ip - 1)).setHeld u ip (s.held u ip + 1)) := by
  let s1 := s.setHeld t ip (s.held t ip - 1)
  let s2 := s1.setHeld u ip (s.held u ip + 1)
  have hl1 : Local s s1 t ip := Local.refl.setHeld _
  have hl2 : Local s1 s2 u ip := Local.refl.setHeld _
  have ht1 : s1.held t ip = s.held t ip - 1 := setHeld_held ..
  have hu2 : s2.held u ip = s.held u ip + 1 := setHeld_held ..
  have ht2 : s2.held t ip = s.held t ip - 1 := (hl2.held t ip (.inl hne)).trans ht1
  have hrest : ∀ v jp, jp ≠ ip ∨ (v ≠ t ∧ v ≠ u) → s2.held v jp = s.held v jp := by
    intro v jp hv
    rcases hv with hjp | ⟨hvt, hvu⟩
    · exact (hl2.held v jp (.inr hjp)).trans (hl1.held v jp (.inr hjp))
    · exact (hl2.held v jp (.inl hvu)).trans (hl1.held v jp (.inl hvt))
  have hpos := hspare.1
  refine ⟨h.wf, ?_, h.uniq, h.bound, ?_, ?_, h.claims, h.fresh⟩
  · intro jp
    by_cases hjp : jp = ip
    · subst hjp
      have hsum1 := Lib.sum_add_eq (f := fun v => s.held v jp) (g := fun v => s1.held v jp) t
        fun v hv => hl1.held v jp (.inl hv)
      have hsum2 := Lib.sum_add_eq (f := fun v => s1.held v jp) (g := fun v => s2.held v jp) u
        fun v hv => hl2.held v jp (.inl hv)
      have hu1 := hl1.held u jp (.inl hne.symm)
      have hold := h.refs jp
      show ∑ v, s2.held v jp = (s.entry jp).ref
      omega
    · exact (Finset.sum_congr rfl fun v _ => hrest v jp (.inl hjp)).trans (h.refs jp)
  · intro jp v hv
    have hold := h.locked jp v hv
    refine ⟨?_, hold.2⟩
    show 0 < s2.held v jp
    by_cases hjp : jp = ip
    · subst hjp
      by_cases hvt : v = t
      · subst hvt
        have htwo := hspare.2 hv
        omega
      by_cases hvu : v = u
      · subst hvu
        omega
      · rw [hrest v jp (.inr ⟨hvt, hvu⟩)]
        exact hold.1
    · rw [hrest v jp (.inl hjp)]
      exact hold.1
  · intro v jp stage hv
    obtain ⟨hheld, hiff⟩ := h.freeing v jp stage hv
    refine ⟨?_, hiff⟩
    show s2.held v jp = 1
    rw [hrest v jp (.inr ⟨?_, ?_⟩)]
    · exact hheld
    · rintro rfl
      cases ht.symm.trans hv
    · rintro rfl
      cases hu.symm.trans hv

end

theorem ilock (h : Coherent sb s) (hpc : s.pc t = .idle) (hheld : 0 < s.held t ip)
    (hfree : (s.entry ip).lock = none) (hs : s.ilock sb t ip = .ok s') : Coherent sb s' := by
  have hused := h.ref_pos hheld
  have hother : ∀ u, u ≠ t → (some t = some u ↔ (s.entry ip).lock = some u) := by
    intro u hu
    rw [hfree, Option.some_inj]
    exact ⟨fun heq => absurd heq.symm hu, fun heq => Option.noConfusion rfl (heq_of_eq heq)⟩
  unfold Icache.ilock at hs
  dsimp only at hs
  rw [if_neg (by omega)] at hs
  split at hs
  · rename_i hvalid
    cases hs
    have hl : Local s (s.set ip { s.entry ip with lock := some t }) t ip := Local.refl.set _
    refine h.keep hl (set_entry s ip _) rfl hpc (freeing_idle hpc) h.wf (fun _ _ _ => rfl) rfl hother ?_
      (fun _ _ => Pc.noConfusion) (fun _ => Pc.noConfusion) ?_ rfl hused
    · exact fun u hu => ⟨hvalid, fun _ => hheld⟩
    · exact fun _ hv hclear => h.fresh ip hused hv (not_cleared hpc Pc.noConfusion hl hclear)
  split at hs
  · cases hs
  rename_i htype
  cases hs
  refine h.keep (Local.refl.set _) (set_entry s ip _) rfl hpc (freeing_idle hpc) h.wf (fun _ _ _ => rfl) rfl
    hother ?_ (fun _ _ => Pc.noConfusion) (fun _ => Pc.noConfusion) ?_ rfl hused
  · exact fun u hu => ⟨rfl, fun _ => hheld⟩
  · exact fun _ _ _ => inodesOf_eq_some.mpr ⟨h.bound ip hused, htype, rfl⟩

theorem unlock (h : Coherent sb s) (hlock : (s.entry ip).lock = some t)
    (he : e = { s.entry ip with valid := e.valid, lock := none })
    (hvalid : e.valid = true → (s.entry ip).valid = true ∧ s.pc t ≠ .freeing ip .cleared)
    (hpc : ∀ jp stage, s.pc t = .freeing jp stage → jp = ip)
    (hstage : ∀ jp stage, p = .freeing jp stage → jp = ip ∧ stage = .released ∧ s.held t ip = 1)
    (hclaim : ∀ i, p ≠ .claimed i) : Coherent sb ((s.set ip e).setPc t p) := by
  have hl : Local s ((s.set ip e).setPc t p) t ip := (Local.refl.set _).setPc _
  have hused := h.ref_pos (h.locked ip t hlock).1
  have hnone : e.lock = none := by rw [he]
  have hinum : e.inum = (s.entry ip).inum := by rw [he]
  have hcopy : e.copy = (s.entry ip).copy := by rw [he]
  refine h.keep hl (set_entry s ip _) rfl (setPc_pc ..) hpc h.wf (fun _ _ _ => rfl) ?_ ?_ ?_ ?_
    hclaim ?_ hinum hused
  · rw [he]
    rfl
  · intro u hu
    rw [hnone, hlock, Option.some_inj]
    exact ⟨fun heq => Option.noConfusion rfl (heq_of_eq heq), fun heq => absurd heq.symm hu⟩
  · intro u hu
    cases hnone.symm.trans hu
  · intro jp stage hp
    obtain ⟨hjp, rfl, hheld⟩ := hstage jp stage hp
    exact ⟨hjp, hheld, ⟨fun hl => (by cases hnone.symm.trans hl), fun hne => absurd rfl hne⟩⟩
  · intro _ hv hclear
    obtain ⟨hv, hne⟩ := hvalid hv
    rw [hinum, hcopy]
    exact h.fresh ip hused hv (not_cleared rfl hne hl hclear)

theorem iputFrees (h : Coherent sb s) (hpc : s.pc t = .idle) (hheld : 0 < s.held t ip) (hf : s.Frees ip)
    (hfree : (s.entry ip).lock = none) :
    Coherent sb ((s.set ip { s.entry ip with lock := some t }).setPc t (.freeing ip .locked)) := by
  have hl : Local s ((s.set ip { s.entry ip with lock := some t }).setPc t (.freeing ip .locked)) t ip :=
    (Local.refl.set _).setPc _
  obtain ⟨href, hvalid, -⟩ := hf
  have hle := h.held_le t ip
  refine h.keep hl (set_entry s ip _) rfl (setPc_pc ..) (freeing_idle hpc) h.wf (fun _ _ _ => rfl) rfl ?_
    ?_ ?_ (fun _ => Pc.noConfusion) ?_ rfl (by omega)
  · intro u hu
    rw [hfree, Option.some_inj]
    exact ⟨fun heq => absurd heq.symm hu, fun heq => Option.noConfusion rfl (heq_of_eq heq)⟩
  · exact fun u hu => ⟨hvalid, fun _ => hheld⟩
  · intro jp stage hp
    cases hp
    exact ⟨rfl, by show s.held t ip = 1; omega, fun _ => Stage.noConfusion, fun _ => rfl⟩
  · exact fun _ hv hclear => h.fresh ip (by omega) hv (not_cleared hpc Pc.noConfusion hl hclear)

theorem wrote (h : Coherent sb s) (hlock : (s.entry ip).lock = some t)
    (hw : Wrote sb (s.entry ip).inum x s.store.disk st.disk)
    (hpc : ∀ jp stage, s.pc t = .freeing jp stage → jp = ip)
    (hstage : ∀ jp stage, p = .freeing jp stage → jp = ip ∧ stage ≠ .released ∧ s.held t ip = 1)
    (hclaim : ∀ i, p ≠ .claimed i) (htype : x.type ≠ 0 ∨ p = .freeing ip .cleared) :
    Coherent sb { (s.setPc t p).set ip { s.entry ip with copy := x } with store := st } := by
  obtain ⟨hheld, hvalid⟩ := h.locked ip t hlock
  have hused := h.ref_pos hheld
  refine h.keep (((Local.refl.setPc p).set _).store st) (set_entry _ ip _) rfl (setPc_pc ..) hpc hw.wf
    (fun j hj hne => hw.others j hj (hne hused)) rfl (fun _ _ => Iff.rfl) ?_ ?_ hclaim ?_ rfl hused
  · exact fun u hu => ⟨hvalid, fun _ => hheld⟩
  · intro jp stage hp
    obtain ⟨hjp, hne, hone⟩ := hstage jp stage hp
    exact ⟨hjp, hone, fun _ => hne, fun _ => hlock⟩
  · intro _ _ hclear
    have hne := htype.resolve_right fun hp => hclear t ((setPc_pc ..).trans hp)
    exact inodesOf_eq_some.mpr ⟨h.bound ip hused, hne, hw.self⟩

/-- `ialloc` claims a free inode; whoever has it cached is on the way out or has nothing valid. -/
theorem probe (h : Coherent sb s) {type : NodeType} {inum : Nat} (hpc : s.pc t = .scanning type inum)
    (hs : s.probe sb t type inum = .ok s') : Coherent sb s' := by
  have hold := not_freeing hpc fun _ _ => Pc.noConfusion
  obtain ⟨hi, ⟨hfree, rfl⟩ | rfl⟩ := probe_eq_ok hs
  · have hw : Wrote sb inum (newInode type) s.store.disk (writeInode sb inum (newInode type) s.store.disk) :=
      wrote_empty h.wf hi type.code_ne_zero (fun _ => rfl) rfl
    have hmoved : Coherent sb (s.setPc t (.claimed inum)) := by
      refine h.setPc hold (fun _ _ => Pc.noConfusion) fun i heq => ?_
      cases heq
      exact hi
    refine ⟨hw.wf, hmoved.refs, hmoved.uniq, hmoved.bound, hmoved.locked, hmoved.freeing, hmoved.claims, ?_⟩
    intro ip hr hv hclear
    obtain ⟨hb, ht, hread⟩ := inodesOf_eq_some.mp (hmoved.fresh ip hr hv hclear)
    refine inodesOf_eq_some.mpr ⟨hb, ht, (hw.others _ hb fun heq => ?_).trans hread⟩
    rw [← hread, heq] at ht
    exact ht hfree
  · exact h.setPc hold (fun _ _ => Pc.noConfusion) fun _ => Pc.noConfusion

end Coherent

/-! ## Every step -/

def OnIget (P : Nat → Prop) : Event τ → Prop
  | .iget _ inum => P inum
  | _ => True

instance (P : Nat → Prop) [DecidablePred P] (e : Event τ) : Decidable (OnIget P e) := by
  cases e <;> unfold OnIget <;> infer_instance

def InRange (sb : Superblock) (e : Event τ) : Prop := OnIget (· < sb.ninodes) e
deriving Decidable

variable {sb : Superblock} {cont : τ → Cid} {s s' : Icache τ} {t : τ} {ip : Iptr} [DecidableEq τ]

omit [Fintype τ] in
theorem setPc_self {p : Pc} (h : s.pc t = p) : s.setPc t p = s := by
  unfold setPc
  rw [← h, update_eq_self]

omit [Fintype τ] [DecidableEq τ] in
theorem work_eq_ok {f : DiskInode → Store → Except Panic (DiskInode × Store)} (h : s.work ip f = .ok s') :
    ∃ x st, f (s.entry ip).copy s.store = .ok (x, st) ∧
      s' = { s.set ip { s.entry ip with copy := x } with store := st } := by
  obtain ⟨⟨x, st⟩, hf, h⟩ := Lib.bind_eq_ok.mp h
  cases h
  exact ⟨x, st, hf, rfl⟩

def worksOn : Event τ → Option (τ × Iptr)
  | .readi t ip .. | .writei t ip .. | .itrunc t ip | .iupdate t ip .. => some (t, ip)
  | _ => none

section

variable (h : Coherent sb s)
include h

omit [DecidableEq τ] in
theorem Coherent.node (hw : s.Works t ip) : inodesOf sb s.store.disk (s.entry ip).inum = some (s.entry ip).copy :=
  (h.works hw.2 (idle_ne hw.1 ip _)).2.2

/-- **What such an event does** when `balloc` had blocks to give. -/
theorem Coherent.worked {e : Event τ} (he : worksOn e = some (t, ip))
    (hs : s.step sb cont e = some s') (hsated : s'.store.Sated) : s.Works t ip ∧ ∃ x st,
      s' = { s.set ip { s.entry ip with copy := x } with store := st } ∧
      Wrote sb (s.entry ip).inum x s.store.disk st.disk ∧ x.type = (s.entry ip).copy.type := by
  obtain ⟨hen, hact⟩ := step_eq_some.mp hs
  cases e with
  | readi t ip dst off n =>
    cases he
    rw [act] at hact
    obtain ⟨x, st, hf, rfl⟩ := work_eq_ok hact
    obtain ⟨r, bytes, hread⟩ := readi_ok sb (cont t) (h.wf.mapped _ _ (h.node hen)) dst off n
    rw [hread] at hf
    cases hf
    exact ⟨hen, _, _, rfl, .refl h.wf (h.node hen), rfl⟩
  | writei t ip src off n =>
    cases he
    rw [act] at hact
    obtain ⟨x, st, hf, rfl⟩ := work_eq_ok hact
    obtain ⟨⟨r, x', st'⟩, hwrite, hf⟩ := Lib.bind_eq_ok.mp hf
    cases hf
    obtain ⟨hw, htype, -⟩ := (writei_wrote hwrite hsated).2 h.wf (h.node hen)
    exact ⟨hen, _, _, rfl, hw, htype⟩
  | itrunc t ip =>
    cases he
    obtain ⟨x, st, hf, rfl⟩ := work_eq_ok hact
    obtain ⟨x', st', hf', hw, htype, -⟩ := itrunc_ok h.wf (h.node hen) (cont t)
    cases hf.symm.trans hf'
    exact ⟨hen, _, _, rfl, hw, htype⟩
  | iupdate t ip major minor nlink =>
    cases he
    cases hact
    exact ⟨hen, _, _, rfl, wrote_iupdate h.wf (h.node hen) rfl rfl (inodesOf_eq_some.mp (h.node hen)).2.1, rfl⟩
  | _ => cases he

theorem Coherent.idleWork (hw : s.Works t ip)
    (hwrote : Wrote sb (s.entry ip).inum x s.store.disk st.disk) (htype : x.type = (s.entry ip).copy.type) :
    Coherent sb { s.set ip { s.entry ip with copy := x } with store := st } := by
  obtain ⟨hpc, hlock⟩ := hw
  have hnode := h.node ⟨hpc, hlock⟩
  have hcoh := h.wrote hlock hwrote (p := .idle) (freeing_idle hpc)
    (fun _ _ => Pc.noConfusion) (fun _ => Pc.noConfusion) (.inl (htype ▸ (inodesOf_eq_some.mp hnode).2.1))
  rwa [setPc_self hpc] at hcoh

theorem Coherent.step {e : Event τ} (hrange : InRange sb e)
    (hs : s.step sb cont e = some s') (hsated : s'.store.Sated) : Coherent sb s' := by
  obtain ⟨hen, hact⟩ := step_eq_some.mp hs
  cases e with
  | iget t inum => exact h.iget hrange hen hact
  | idup t ip =>
    cases hact
    exact h.takeRef hen.1 (h.ref_pos hen.2)
  | give t u ip =>
    cases hact
    exact h.give hen.2.2.1 hen.1 hen.2.1 hen.2.2.2
  | ilock t ip => exact h.ilock hen.1 hen.2.1 hen.2.2 hact
  | iunlock t ip =>
    obtain ⟨hpc, hlock⟩ := hen
    cases iunlock_eq_ok hact
    have hcoh := h.unlock (p := .idle) (e := { s.entry ip with lock := none }) hlock rfl
      (fun hv => ⟨hv, idle_ne hpc ip _⟩) (freeing_idle hpc)
      (fun _ _ => Pc.noConfusion) fun _ => Pc.noConfusion
    rwa [setPc_self (s := s.set ip _) hpc] at hcoh
  | iput t ip =>
    obtain ⟨hpc, hspare, hfree⟩ := hen
    cases hact
    unfold Icache.iput
    split
    · rename_i hf
      exact h.iputFrees hpc hspare.1 hf (hfree hf)
    · have hcoh := h.drop (fun jp stage hf => absurd hf (idle_ne hpc jp stage)) hspare
      rwa [setPc_self (s := s.drop t ip) hpc] at hcoh
  | trunc t ip =>
    obtain ⟨hone, hlock⟩ := h.freeing t ip _ hen
    have hlock := hlock.mpr Stage.noConfusion
    have hpc := freeing_ip hen
    obtain ⟨-, -, hnode⟩ := h.works hlock (by rw [hen]; simp)
    obtain ⟨x, st, hf, rfl⟩ := work_eq_ok hact
    obtain ⟨x', st', hf', hw, htype, -⟩ := itrunc_ok h.wf hnode (cont t)
    cases hf.symm.trans hf'
    exact h.wrote hlock hw hpc (fun jp stage hp => by cases hp; exact ⟨rfl, Stage.noConfusion, hone⟩)
      (fun _ => Pc.noConfusion) (.inl (htype ▸ (inodesOf_eq_some.mp hnode).2.1))
  | clearType t ip =>
    obtain ⟨hone, hlock⟩ := h.freeing t ip _ hen
    have hlock := hlock.mpr Stage.noConfusion
    have hpc := freeing_ip hen
    obtain ⟨hused, -, -⟩ := h.works hlock (by rw [hen]; simp)
    cases hact
    exact h.wrote hlock (wrote_free h.wf (h.bound ip hused) rfl) hpc
      (fun jp stage hp => by cases hp; exact ⟨rfl, Stage.noConfusion, hone⟩) (fun _ => Pc.noConfusion) (.inr rfl)
  | invalidate t ip =>
    obtain ⟨hone, hlock⟩ := h.freeing t ip _ hen
    cases hact
    refine h.unlock (hlock.mpr Stage.noConfusion) rfl (fun hv => Bool.noConfusion hv) (freeing_ip hen) ?_
      fun _ => Pc.noConfusion
    intro jp stage hp
    cases hp
    exact ⟨rfl, rfl, hone⟩
  | dropRef t ip =>
    obtain ⟨hone, hlock⟩ := h.freeing t ip _ hen
    cases hact
    refine h.drop ?_ ⟨by omega, fun hl => absurd rfl (hlock.mp hl)⟩
    intro jp stage hf
    cases hen.symm.trans hf
    exact ⟨rfl, Stage.noConfusion⟩
  | ialloc t type =>
    cases hact
    exact h.setPc (idle_ne hen) (fun _ _ => Pc.noConfusion) fun _ => Pc.noConfusion
  | probe t type inum => exact h.probe hen hact
  | igetNew t inum =>
    have hmoved : Coherent sb (s.setPc t .idle) :=
      h.setPc (not_freeing hen fun _ _ => Pc.noConfusion) (fun _ _ => Pc.noConfusion) fun _ => Pc.noConfusion
    exact hmoved.iget (h.claims t inum hen) (setPc_pc ..) hact
  | readi t ip dst off n | writei t ip src off n | itrunc t ip | iupdate t ip major minor nlink =>
    obtain ⟨hw, x, st, rfl, hwrote, htype⟩ := h.worked rfl hs hsated
    exact h.idleWork hw hwrote htype

end

end Icache

end Xv6.Fs
