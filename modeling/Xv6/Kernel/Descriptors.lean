/-
# Xv6.Kernel.Descriptors — open files and working directories of processes that come and go
(`fork`, `exit` and `containerkillall` of `kernel/proc.c`; `kernel/file.c`).

`FdState` puts the descriptor tables and the reference counts next to the machine.  `fork` and `exit`
move the counts; `freeproc` clears neither `ofile` nor `cwd`, which is right for the zombie that `wait`
frees, because `exit` has closed everything, and wrong for the processes `cstop` frees: their
references are never given back, and the next process in the slot finds their descriptors.

`iref` counts the references that working directories, open files and container roots hold on an inode.
-/
import Xv6.Kernel.Idle
import Xv6.Fs.Sysfile
import Mathlib.Data.Fintype.Prod

namespace Xv6.Kernel

open Option (bind_eq_some_iff map_eq_some_iff)
open Fs (Fd Fptr NOFILE)
open Function List Option

/-! ## Data -/

/-- `struct file`: the reference count, and the inode when the type says that there is one. -/
structure OpenFile where
  ref : Int
  ip : Option Ino

structure FdState where
  sys : State
  ofile : Slot → Fd → Option Fptr
  file : Fptr → OpenFile
  iref : Ino → Int

namespace FdState

def setFd (s : FdState) (p : Slot) (fd : Fd) (o : Option Fptr) : FdState :=
  { s with ofile := update s.ofile p (update (s.ofile p) fd o) }

def setFile (s : FdState) (f : Fptr) (x : OpenFile) : FdState := { s with file := update s.file f x }

def addRef (s : FdState) (i : Ino) (n : Int) : FdState :=
  { s with iref := update s.iref i (s.iref i + n) }

end FdState

def filedup (f : Fptr) (s : FdState) : Option FdState :=
  if (s.file f).ref < 1 then none
  else some (s.setFile f { s.file f with ref := (s.file f).ref + 1 })

def fileclose (f : Fptr) (s : FdState) : Option FdState :=
  if (s.file f).ref < 1 then none
  else if (s.file f).ref - 1 > 0 then
    some (s.setFile f { s.file f with ref := (s.file f).ref - 1 })
  else
    match (s.file f).ip with
    | none => some (s.setFile f ⟨0, none⟩)
    | some i => some ((s.setFile f ⟨0, none⟩).addRef i (-1))

def freeFile (s : FdState) : Option Fptr := Fin.find? fun f => (s.file f).ref == 0

def freeFd (p : Slot) (s : FdState) : Option Fd := Fin.find? fun fd => (s.ofile p fd).isNone

/-! ## What `fork` and `exit` do -/

/-- One round of the loop of `fork`: an empty descriptor of the parent is passed over. -/
def copyFd (p np : Slot) (s : FdState) (fd : Fd) : Option FdState :=
  match s.ofile p fd with
  | none => some s
  | some f => (filedup f s).map (·.setFd np fd (some f))

/-- `fork` copies the descriptors of `p` to `np`, and takes the working directory `i`. -/
def forkFiles (p np : Slot) (i : Ino) (s : FdState) : Option FdState :=
  ((List.finRange NOFILE).foldlM (copyFd p np) s).map (·.addRef i 1)

def closeFd (p : Slot) (s : FdState) (fd : Fd) : Option FdState :=
  match s.ofile p fd with
  | none => some s
  | some f => (fileclose f s).map (·.setFd p fd none)

/-- `exit` closes the descriptors of `p` and puts its working directory. -/
def exitFiles (p : Slot) (s : FdState) : Option FdState := do
  let s ← (List.finRange NOFILE).foldlM (closeFd p) s
  let i ← (s.sys.proc p).cwd
  return s.addRef i (-1)

/-- The reference that a new container holds on its root directory. -/
def rootRef (x : Call) (s : FdState) : FdState :=
  match x with
  | .ccreate name (some i) => if (kccreate name (some i) s.sys).2 = 1 then s.addRef i 1 else s
  | _ => s

/-- What a call of `p`, which takes the machine to `t`, does to the descriptors. -/
def callFiles (p : Slot) (x : Call) (t : State) (s : FdState) : Option FdState :=
  if x.exits s.sys p then exitFiles p s
  else
    match x.child s.sys t with
    | some np => (t.proc np).cwd.bind fun i => forkFiles p np i s
    | none => some (rootRef x s)

/-! ## Calls on descriptors -/

/-- `open`, and each end of `pipe` (without an inode); no free entry is a failure. -/
def openFile (p : Slot) (ip : Option Ino) (s : FdState) : FdState :=
  match freeFile s, freeFd p s with
  | some f, some fd =>
    let s := (s.setFile f ⟨1, ip⟩).setFd p fd (some f)
    match ip with
    | none => s
    | some i => s.addRef i 1
  | _, _ => s

def dupFd (p : Slot) (fd : Fd) (s : FdState) : Option FdState :=
  match s.ofile p fd, freeFd p s with
  | some f, some fd' => filedup f (s.setFd p fd' (some f))
  | _, _ => some s

def sysClose (p : Slot) (fd : Fd) (s : FdState) : Option FdState :=
  match s.ofile p fd with
  | none => some s
  | some f => fileclose f (s.setFd p fd none)

/-- `chdir`, to the directory `i` that was looked up. -/
def chdir (p : Slot) (i : Ino) (s : FdState) : Option FdState :=
  (s.sys.proc p).cwd.map fun old =>
    let s := (s.addRef i 1).addRef old (-1)
    { s with sys := s.sys.setProc p { s.sys.proc p with cwd := some i } }

inductive FdEvent
  | sys (e : Event)
  | open (k : Fin NCPU) (ip : Option Ino)
  | dup (k : Fin NCPU) (fd : Fd)
  | close (k : Fin NCPU) (fd : Fd)
  | chdir (k : Fin NCPU) (i : Ino)

/-- The process on CPU `k`, when it was not killed: otherwise it exits instead of making a call. -/
def caller (k : Fin NCPU) (s : State) : Option Slot := (trap k s).filter fun p => !(s.proc p).killed

def fdStep (s : FdState) : FdEvent → Option FdState
  | .sys (.call k x) => do
    let t ← step s.sys (.call k x)
    let p ← s.sys.myproc k
    let s ← callFiles p x t s
    return { s with sys := t }
  | .sys e => (step s.sys e).map fun t => { s with sys := t }
  | .open k ip => (caller k s.sys).map fun p => openFile p ip s
  | .dup k fd => (caller k s.sys).bind fun p => dupFd p fd s
  | .close k fd => (caller k s.sys).bind fun p => sysClose p fd s
  | .chdir k i => (caller k s.sys).bind fun p => chdir p i s

/-- After boot: no open file, and the root directory is the first process's and the root
container's. -/
def fdBoot (free : Nat) : FdState where
  sys := boot free
  ofile := fun _ _ => none
  file := fun _ => ⟨0, none⟩
  iref := update (fun _ => 0) ROOTINO 2

/-! ## What the functions do to the tables -/

variable {s t : FdState} {p q np : Slot} {k : Fin NCPU} {f : Fptr} {fd : Fd} {c : Cid} {x : Call}
  {l : List Fd} {u : State}

theorem ofile_setFd (o : Option Fptr) : (s.setFd p fd o).ofile q = if q = p then update (s.ofile p) fd o else s.ofile q :=
  Function.update_apply _ _ _ _

theorem filedup_frame (h : filedup f s = some t) : t.ofile = s.ofile ∧ t.sys = s.sys := by
  unfold filedup at h
  split at h
  · cases h
  · cases h
    exact ⟨rfl, rfl⟩

theorem fileclose_frame (h : fileclose f s = some t) : t.ofile = s.ofile ∧ t.sys = s.sys := by
  unfold fileclose at h
  split at h
  · cases h
  split at h
  · cases h
    exact ⟨rfl, rfl⟩
  · split at h <;> cases h <;> exact ⟨rfl, rfl⟩

theorem copyFd_spec (h : copyFd p np s fd = some t) :
    t.sys = s.sys ∧ (∀ q, q ≠ np → t.ofile q = s.ofile q) ∧
      t.ofile np = update (s.ofile np) fd ((s.ofile p fd).or (s.ofile np fd)) := by
  unfold copyFd at h
  split at h
  · rename_i hnone
    cases h
    refine ⟨rfl, fun _ _ => rfl, ?_⟩
    rw [hnone, none_or, update_eq_self]
  rename_i f hf
  obtain ⟨u, hu, rfl⟩ := map_eq_some_iff.mp h
  obtain ⟨hofile, hsys⟩ := filedup_frame hu
  refine ⟨hsys, fun q hq => ?_, ?_⟩
  · rw [ofile_setFd, if_neg hq, hofile]
  · rw [ofile_setFd, if_pos rfl, hofile, hf, some_or]

theorem copyFd_foldlM (hne : p ≠ np) (h : l.foldlM (copyFd p np) s = some t) :
    t.sys = s.sys ∧ (∀ q, q ≠ np → t.ofile q = s.ofile q) ∧
      ∀ fd, t.ofile np fd = if fd ∈ l then (s.ofile p fd).or (s.ofile np fd) else s.ofile np fd := by
  induction l generalizing s with
  | nil =>
    cases h
    exact ⟨rfl, fun _ _ => rfl, fun fd => (if_neg not_mem_nil).symm⟩
  | cons a l ih =>
    rw [foldlM_cons] at h
    obtain ⟨u, hu, h⟩ := bind_eq_some_iff.mp h
    obtain ⟨hsys, hother, hnp⟩ := copyFd_spec hu
    obtain ⟨hsys', hother', hnp'⟩ := ih h
    refine ⟨hsys'.trans hsys, fun q hq => (hother' q hq).trans (hother q hq), fun fd => ?_⟩
    rw [hnp' fd, hother p hne, hnp]
    by_cases hfd : fd = a
    · subst hfd
      rw [update_self, if_pos mem_cons_self]
      split
      · cases s.ofile p fd <;> rfl
      · rfl
    · rw [update_of_ne hfd]
      simp only [mem_cons, hfd, false_or]

theorem forkFiles_spec {i : Ino} (hne : p ≠ np) (h : forkFiles p np i s = some t) :
    (∀ q, q ≠ np → t.ofile q = s.ofile q) ∧ ∀ fd, t.ofile np fd = (s.ofile p fd).or (s.ofile np fd) := by
  obtain ⟨u, hu, rfl⟩ := map_eq_some_iff.mp h
  obtain ⟨-, hother, hnp⟩ := copyFd_foldlM hne hu
  exact ⟨hother, fun fd => (hnp fd).trans (if_pos (mem_finRange fd))⟩

theorem closeFd_spec (h : closeFd p s fd = some t) :
    t.sys = s.sys ∧ (∀ q, q ≠ p → t.ofile q = s.ofile q) ∧ t.ofile p = update (s.ofile p) fd none := by
  unfold closeFd at h
  split at h
  · rename_i hnone
    cases h
    refine ⟨rfl, fun _ _ => rfl, ?_⟩
    rw [← hnone, update_eq_self]
  obtain ⟨u, hu, rfl⟩ := map_eq_some_iff.mp h
  obtain ⟨hofile, hsys⟩ := fileclose_frame hu
  refine ⟨hsys, fun q hq => ?_, ?_⟩
  · rw [ofile_setFd, if_neg hq, hofile]
  · rw [ofile_setFd, if_pos rfl, hofile]

theorem closeFd_foldlM (h : l.foldlM (closeFd p) s = some t) :
    t.sys = s.sys ∧ (∀ q, q ≠ p → t.ofile q = s.ofile q) ∧
      ∀ fd, t.ofile p fd = if fd ∈ l then none else s.ofile p fd := by
  induction l generalizing s with
  | nil =>
    cases h
    exact ⟨rfl, fun _ _ => rfl, fun fd => (if_neg not_mem_nil).symm⟩
  | cons a l ih =>
    rw [foldlM_cons] at h
    obtain ⟨u, hu, h⟩ := bind_eq_some_iff.mp h
    obtain ⟨hsys, hother, hp⟩ := closeFd_spec hu
    obtain ⟨hsys', hother', hp'⟩ := ih h
    refine ⟨hsys'.trans hsys, fun q hq => (hother' q hq).trans (hother q hq), fun fd => ?_⟩
    rw [hp' fd, hp]
    by_cases hfd : fd = a
    · subst hfd
      rw [update_self, ite_self, if_pos mem_cons_self]
    · rw [update_of_ne hfd]
      simp only [mem_cons, hfd, false_or]

theorem exitFiles_spec (h : exitFiles p s = some t) :
    (∀ q, q ≠ p → t.ofile q = s.ofile q) ∧ ∀ fd, t.ofile p fd = none := by
  obtain ⟨u, hu, h⟩ := bind_eq_some_iff.mp h
  obtain ⟨i, -, h⟩ := bind_eq_some_iff.mp h
  cases h
  obtain ⟨-, hother, hp⟩ := closeFd_foldlM hu
  exact ⟨hother, fun fd => (hp fd).trans (if_pos (mem_finRange fd))⟩

theorem rootRef_ofile (x : Call) : (rootRef x s).ofile = s.ofile := by
  unfold rootRef
  split
  · split <;> rfl
  · rfl

/-! ## Slots that hold nothing -/

def Clean (s : FdState) (p : Slot) : Prop := (∀ fd, s.ofile p fd = none) ∧ (s.sys.proc p).cwd = none
deriving Decidable

def Live (s : State) (k : Fin NCPU) : Prop := ∀ p, s.myproc k = some p → ¬ (s.proc p).state.Idle
deriving Decidable

/-- **The condition**: calls are made by processes that are not zombies, and a container is stopped
only when its processes hold nothing any more. -/
def Careful (s : FdState) : FdEvent → Prop
  | .sys (.call k x) => Live s.sys k ∧
      ∀ c, x.stopped s.sys = some c → ∀ p, (s.sys.proc p).cont = some c → Clean s p
  | .sys _ => True
  | .open k _ | .dup k _ | .close k _ | .chdir k _ => Live s.sys k

instance (s : FdState) (e : FdEvent) : Decidable (Careful s e) := by
  unfold Careful
  split <;> infer_instance

/-- **The invariant**: an idle slot is clean. -/
def IdleClean (s : FdState) : Prop := ∀ p, (s.sys.proc p).state.Idle → Clean s p

theorem IdleClean.of_live (h : IdleClean s) (hp : ¬ (s.sys.proc p).state.Idle)
    (hsys : ∀ q, (t.sys.proc q).state = (s.sys.proc q).state)
    (hother : ∀ q, q ≠ p → t.ofile q = s.ofile q ∧ (t.sys.proc q).cwd = (s.sys.proc q).cwd) :
    IdleClean t := by
  intro q hq
  rw [hsys] at hq
  have hqp : q ≠ p := by
    rintro rfl
    exact hp hq
  obtain ⟨hfd, hcwd⟩ := h q hq
  obtain ⟨hofile, hdir⟩ := hother q hqp
  exact ⟨fun fd => by rw [hofile, hfd], hdir.trans hcwd⟩

theorem IdleClean.of_quiet {E : Set Slot} (h : IdleClean s) (hE : ∀ p ∈ E, Clean s p)
    (hq : Quiet ∅ E s.sys.proc t.sys.proc) (hofile : t.ofile = s.ofile) : IdleClean t := by
  intro p hp
  obtain ⟨hfd, hcwd⟩ : Clean s p := (hq.idle p hp).elim (h p) (hE p)
  exact ⟨fun fd => by rw [hofile, hfd], (hq.cwd p (Set.notMem_empty p)).trans hcwd⟩

theorem IdleClean.call (h : IdleClean s) (hok : Careful s (.sys (.call k x)))
    (hu : step s.sys (.call k x) = some u) (hp : s.sys.myproc k = some p)
    (ht : callFiles p x u s = some t) : IdleClean { t with sys := u } := by
  have hlive : ¬ (s.sys.proc p).state.Idle := hok.1 p hp
  unfold callFiles at ht
  split at ht
  · -- `exit`: the process itself has closed everything, the others are as they were
    rename_i hexit
    obtain ⟨hother, hclosed⟩ := exitFiles_spec ht
    obtain ⟨hquiet, hcwd⟩ := usertrap_exits hp hexit hu
    intro q hq
    by_cases hqp : q = p
    · subst hqp
      exact ⟨hclosed, hcwd⟩
    · obtain ⟨hfd, hdir⟩ := h q ((hquiet.idle q hq).resolve_right hqp)
      exact ⟨fun fd => by rw [show t.ofile q = s.ofile q from hother q hqp, hfd], (hquiet.cwd q hqp).trans hdir⟩
  rename_i hexit
  have hsys : syscall k x s.sys = some u := usertrap_syscall hp (Bool.eq_false_iff.mpr hexit) hu
  split at ht
  · -- `fork`: the child is not idle, and what it was given is its parent's
    rename_i np hchild
    obtain ⟨i, -, ht⟩ := bind_eq_some_iff.mp ht
    obtain ⟨hfree, hquiet⟩ := syscall_child hchild hsys
    have hne : p ≠ np := by
      rintro rfl
      exact hlive (.inl (freeSlot_unused hfree))
    obtain ⟨hother, -⟩ := forkFiles_spec hne ht
    intro q hq
    have hqnp : q ≠ np := by
      rintro rfl
      have hbusy : (!decide (u.proc q).state.Idle) = true := by
        cases x with
        | fork | cfork name => exact (filter_eq_some_iff.mp hchild).2
        | _ => cases hchild
      simp [hq] at hbusy
    obtain ⟨hfd, hdir⟩ := h q ((hquiet.idle q hq).resolve_right (Set.notMem_empty q))
    exact ⟨fun fd => by rw [show t.ofile q = s.ofile q from hother q hqnp, hfd], (hquiet.cwd q hqnp).trans hdir⟩
  · rename_i hchild
    cases ht
    refine h.of_quiet ?_ (syscall_quiet (Bool.eq_false_iff.mpr hexit) hchild hsys) (rootRef_ofile x)
    rintro q ⟨c, hc, hq⟩
    exact hok.2 c hc q hq

theorem caller_myproc (h : caller k u = some p) : u.myproc k = some p := trap_myproc (filter_eq_some_iff.mp h).1

theorem IdleClean.step (h : IdleClean s) {e : FdEvent} (hok : Careful s e)
    (ht : fdStep s e = some t) : IdleClean t := by
  have hfd : ∀ {k p}, Live s.sys k → caller k s.sys = some p → t.sys = s.sys →
      (∀ q, q ≠ p → t.ofile q = s.ofile q) → IdleClean t := by
    intro k p hlive hp hsys hother
    refine h.of_live (hlive p (caller_myproc hp)) (fun q => by rw [hsys]) fun q hq => ?_
    exact ⟨hother q hq, by rw [hsys]⟩
  cases e with
  | sys e =>
    by_cases he : ∃ k x, e = .call k x
    · obtain ⟨k, x, rfl⟩ := he
      obtain ⟨u, hu, ht⟩ := bind_eq_some_iff.mp ht
      obtain ⟨p, hp, ht⟩ := bind_eq_some_iff.mp ht
      obtain ⟨v, hv, ht⟩ := bind_eq_some_iff.mp ht
      cases ht
      exact h.call hok hu hp hv
    have he' : ∀ k x, e ≠ .call k x := fun k x hc => he ⟨k, x, hc⟩
    have hmap : (Kernel.step s.sys e).map (fun u => { s with sys := u }) = some t := by
      cases e with
      | call k x => exact absurd rfl (he' k x)
      | _ => exact ht
    obtain ⟨u, hu, rfl⟩ := map_eq_some_iff.mp hmap
    exact h.of_quiet (fun p hp => absurd hp (Set.notMem_empty p)) (step_calm he' hu).quiet rfl
  | «open» k ip =>
    obtain ⟨p, hp, rfl⟩ := map_eq_some_iff.mp ht
    have hspec : (openFile p ip s).sys = s.sys ∧ ∀ q, q ≠ p → (openFile p ip s).ofile q = s.ofile q := by
      unfold openFile
      split
      · cases ip <;>
          exact ⟨rfl, fun q hq => (ofile_setFd (s := s.setFile _ _) _).trans (if_neg hq)⟩
      · exact ⟨rfl, fun _ _ => rfl⟩
    exact hfd hok hp hspec.1 hspec.2
  | dup k fd =>
    obtain ⟨p, hp, ht⟩ := bind_eq_some_iff.mp ht
    unfold dupFd at ht
    split at ht
    · obtain ⟨hofile, hsys⟩ := filedup_frame ht
      exact hfd hok hp hsys fun q hq => by rw [hofile, ofile_setFd, if_neg hq]
    · cases ht
      exact h
  | close k fd =>
    obtain ⟨p, hp, ht⟩ := bind_eq_some_iff.mp ht
    unfold sysClose at ht
    split at ht
    · cases ht
      exact h
    · obtain ⟨hofile, hsys⟩ := fileclose_frame ht
      exact hfd hok hp hsys fun q hq => by rw [hofile, ofile_setFd, if_neg hq]
  | chdir k i =>
    obtain ⟨p, hp, ht⟩ := bind_eq_some_iff.mp ht
    obtain ⟨old, -, rfl⟩ := map_eq_some_iff.mp ht
    refine h.of_live (hok p (caller_myproc hp)) (fun q => ?_) fun q hq => ⟨rfl, ?_⟩
    · exact Lib.update_same Proc.state (by rfl) q
    · simp [FdState.addRef, hq]

theorem idleClean_boot (free : Nat) : IdleClean (fdBoot free) := by
  intro p hp
  refine ⟨fun _ => rfl, ?_⟩
  by_cases hp0 : p = 0
  · subst hp0
    rcases hp with hp | hp <;> cases hp
  · show (update (fun _ => Proc.zero) 0 initProc p).cwd = none
    rw [update_of_ne hp0]
    rfl

/-! ## Stopping a container -/

/-- How many descriptors on `f` the processes of `c` hold. -/
def heldIn (s : FdState) (c : Cid) (f : Fptr) : Nat :=
  Lib.count (fun q : Slot × Fd => (s.sys.proc q.1).cont = some c ∧ s.ofile q.1 q.2 = some f) id

/-- How many processes of `c` are in directory `i`. -/
def cwdsIn (s : FdState) (c : Cid) (i : Ino) : Nat :=
  Lib.count (fun p : Slot => (s.sys.proc p).cont = some c ∧ (s.sys.proc p).cwd = some i) id

/-- How many open files of inode `i` only the processes of `c` hold. -/
def lastIn (s : FdState) (c : Cid) (i : Ino) : Nat :=
  Lib.count (fun f : Fptr =>
    (s.file f).ip = some i ∧ 0 < heldIn s c f ∧ (s.file f).ref = heldIn s c f) id

/-- Between `s` and `s'` what the processes of `c` hold in `s` was given back. -/
def Released (s s' : FdState) (c : Cid) : Prop :=
  (∀ f, (s'.file f).ref = (s.file f).ref - heldIn s c f) ∧
    ∀ i, s'.iref i = s.iref i - cwdsIn s c i - lastIn s c i

theorem released_iff (hfile : t.file = s.file) (hiref : t.iref = s.iref) :
    Released s t c ↔ ∀ p, (s.sys.proc p).cont = some c → Clean s p := by
  have hheld : (∀ f, heldIn s c f = 0) ↔ ∀ p, (s.sys.proc p).cont = some c → ∀ fd, s.ofile p fd = none := by
    simp only [heldIn, Lib.count_eq_zero]
    constructor
    · intro h p hp fd
      refine eq_none_iff_forall_ne_some.mpr fun f hf => ?_
      exact h f (p, fd) ⟨hp, hf⟩
    · rintro h f ⟨p, fd⟩ ⟨hp, hf⟩
      exact some_ne_none f (hf.symm.trans (h p hp fd))
  have hcwd : (∀ i, cwdsIn s c i = 0) ↔ ∀ p, (s.sys.proc p).cont = some c → (s.sys.proc p).cwd = none := by
    simp only [cwdsIn, Lib.count_eq_zero]
    constructor
    · intro h p hp
      exact eq_none_iff_forall_ne_some.mpr fun i hi => h i p ⟨hp, hi⟩
    · rintro h i p ⟨hp, hi⟩
      exact some_ne_none i (hi.symm.trans (h p hp))
  unfold Released
  rw [hfile, hiref]
  constructor
  · rintro ⟨href, hdirs⟩ p hp
    refine ⟨hheld.mp (fun f => ?_) p hp, hcwd.mp (fun i => ?_) p hp⟩
    · have := href f
      omega
    · have := hdirs i
      omega
  intro h
  have hzero := hheld.mpr fun p hp => (h p hp).1
  have hlast : ∀ i, lastIn s c i = 0 := by
    intro i
    refine Lib.count_eq_zero.mpr ?_
    rintro f ⟨-, hpos, -⟩
    exact absurd (hzero f) (Nat.ne_of_gt hpos)
  refine ⟨fun f => ?_, fun i => ?_⟩
  · rw [hzero f]
    omega
  · rw [hlast i, hcwd.mpr (fun p hp => (h p hp).2) i]
    omega

/-- The process on CPU `k` calls `cstop(name)`, and `kcstop` returns 1. -/
def Stops (s : FdState) (k : Fin NCPU) (name : CStr) (s' : FdState) : Prop :=
  (caller k s.sys).isSome ∧ fdStep s (.sys (.call k (.cstop name))) = some s' ∧
    kcstop k name s.sys = some (s'.sys, 1)

theorem Stops.frame {name : CStr} (h : Stops s k name t) : t.file = s.file ∧ t.iref = s.iref := by
  obtain ⟨hcaller, hstep, -⟩ := h
  obtain ⟨q, hq⟩ := isSome_iff_exists.mp hcaller
  obtain ⟨u, -, hstep⟩ := bind_eq_some_iff.mp hstep
  obtain ⟨p, hp, hstep⟩ := bind_eq_some_iff.mp hstep
  obtain ⟨v, hv, hstep⟩ := bind_eq_some_iff.mp hstep
  cases hstep
  cases (caller_myproc hq).symm.trans hp
  have hkilled : (s.sys.proc q).killed = false := by simpa using (filter_eq_some_iff.mp hq).2
  have hexit : (Call.cstop name).exits s.sys q = false := by simp [Call.exits, hkilled]
  rw [callFiles, hexit] at hv
  cases hv
  exact ⟨rfl, rfl⟩

def Forks (s : FdState) (k : Fin NCPU) (x : Call) (p np : Slot) (s' : FdState) : Prop :=
  fdStep s (.sys (.call k x)) = some s' ∧ s.sys.myproc k = some p ∧
    x.exits s.sys p = false ∧ x.child s.sys s'.sys = some np

theorem Forks.ofile (hlive : Live s.sys k) (h : Forks s k x p np t) (fd : Fd) :
    t.ofile np fd = (s.ofile p fd).or (s.ofile np fd) := by
  obtain ⟨hstep, hp, hexit, hchild⟩ := h
  obtain ⟨u, hu, hstep⟩ := bind_eq_some_iff.mp hstep
  obtain ⟨q, hq, hstep⟩ := bind_eq_some_iff.mp hstep
  obtain ⟨v, hv, hstep⟩ := bind_eq_some_iff.mp hstep
  cases hstep
  cases hp.symm.trans hq
  have hchild' : x.child s.sys u = some np := hchild
  rw [callFiles, hexit, if_neg (by simp), hchild'] at hv
  obtain ⟨i, -, hv⟩ := bind_eq_some_iff.mp hv
  have hfree := (syscall_child hchild' (usertrap_syscall hp hexit hu)).1
  have hne : p ≠ np := by
    rintro rfl
    exact hlive p hp (.inl (freeSlot_unused hfree))
  exact (forkFiles_spec hne hv).2 fd

theorem Forks.unused (h : Forks s k x p np t) : (s.sys.proc np).state = .unused := by
  obtain ⟨hstep, hp, hexit, hchild⟩ := h
  obtain ⟨u, hu, hstep⟩ := bind_eq_some_iff.mp hstep
  obtain ⟨q, -, hstep⟩ := bind_eq_some_iff.mp hstep
  obtain ⟨v, -, hstep⟩ := bind_eq_some_iff.mp hstep
  cases hstep
  exact freeSlot_unused (syscall_child hchild (usertrap_syscall hp hexit hu)).1

/-- Unused slots are clean; and for calls that meet `ok`, a `cstop` gives back what its processes held, and a child has exactly
its parent's descriptors. -/
structure Tidy (ok : FdState → FdEvent → Prop) (s : FdState) : Prop where
  slots : ∀ p, (s.sys.proc p).state = .unused → Clean s p
  stops : ∀ k name s', ok s (.sys (.call k (.cstop name))) → Stops s k name s' →
    ∀ c, name2cont name s.sys = some c → Released s s' c
  children : ∀ k x p np s', ok s (.sys (.call k x)) → Forks s k x p np s' → s'.ofile np = s.ofile p

/-- **Nothing is left behind while only emptied containers are stopped.** -/
theorem tidy_of_careful {free : Nat} (h : Lib.Reach fdStep Careful (fdBoot free) s) : Tidy Careful s := by
  have hclean : IdleClean s :=
    Lib.Reach.invariant (idleClean_boot free) (fun _ _ _ hs hok ht => hs.step hok ht) h
  refine ⟨fun p hp => hclean p (.inl hp), fun k name s' hok hstop c hc => ?_,
    fun k x p np s' hok hfork => funext fun fd => ?_⟩
  · refine (released_iff hstop.frame.1 hstop.frame.2).mpr ?_
    rcases kcstop_cases hstop.2.2 with ⟨-, hr⟩ | ⟨d, hd, hroot, hstate, -, -⟩
    · cases hr
    · cases hc.symm.trans hd
      refine hok.2 c (filter_eq_some_iff.mpr ⟨hc, ?_⟩)
      simpa [hroot] using hstate
  · rw [hfork.ofile hok.1 fd, (hclean np (.inl hfork.unused)).1 fd, or_none]

/-- The process of a container exits before the container is stopped. -/
theorem tidy_run : ∃ s, Lib.Reach fdStep Careful (fdBoot 100) s ∧
    ((s.sys.proc 1).state = .unused ∧ (s.sys.cont 1).state = .cunused ∧ (s.file 0).ref = 1) ∧
      Tidy Careful s := by
  obtain ⟨s, hs, h1⟩ := Lib.Reach.of_any fdStep Careful (fdBoot 100)
    [.sys (.sched 0), .sys (.sched 1), .open 1 (some 3), .sys (.call 1 (.ccreate nameC (some 5))),
      .sys (.call 1 (.cstart nameC nameV 0)), .sys (.call 1 (.cfork nameC)), .sys (.sched 0),
      .sys (.sched 2), .sys (.sched 2), .sys (.call 2 (.exit 0)), .sys (.call 1 (.cstop nameC))]
    (fun s => (s.sys.proc 1).state = .unused ∧ (s.sys.cont 1).state = .cunused ∧ (s.file 0).ref = 1)
    (by decide +kernel)
  exact ⟨s, hs, of_decide_eq_true h1, tidy_of_careful hs⟩

/-- A container is stopped while its process runs: the freed slot keeps the descriptor and the working
directory. -/
theorem not_tidy : ¬ ∀ free s, Lib.Reach fdStep (fun _ _ => True) (fdBoot free) s →
    Tidy (fun _ _ => True) s := by
  intro h
  obtain ⟨s, hs, h1⟩ := Lib.Reach.of_any fdStep (fun _ _ => True) (fdBoot 100)
    [.sys (.sched 0), .sys (.sched 1), .open 1 (some 3), .sys (.call 1 (.ccreate nameC (some 5))),
      .sys (.call 1 (.cstart nameC nameV 0)), .sys (.call 1 (.cfork nameC)),
      .sys (.call 1 (.cstop nameC))]
    (fun s => (s.sys.proc 1).state = .unused ∧ s.ofile 1 0 = some 0 ∧
      (s.sys.proc 1).cwd = some 5 ∧ (s.file 0).ref = 2)
    (by decide +kernel)
  obtain ⟨hunused, hfd, -⟩ := of_decide_eq_true h1
  have hnone := ((h 100 s hs).slots 1 hunused).1 0
  rw [hfd] at hnone
  cases hnone

end Xv6.Kernel
