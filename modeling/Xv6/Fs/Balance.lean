/-
# Xv6.Fs.Balance — transactions are balanced, except in `kresume`.

`log.outstanding` moves by one in each `begin_op` and `end_op` and nowhere else, so what a system call
does to it is the sum of these weights over the calls it makes, whatever those calls return.  Each part
of a system call has ONE such sum, also where it returns early: it opens a transaction (+1), closes
one (-1) or leaves it alone (0).  `kresume` does not: its failures close the transaction and its success
does not.
-/
import Xv6.Fs.Log
import Xv6.Fs.Exec

namespace Xv6.Fs

open List

open Kernel (CStr CharArr)
open Lib (Prog)
open Lib.Prog (AllRuns Weighs)

@[simp] def logWeight : ExecOp → Int
  | .fs .beginOp => 1
  | .fs .endOp => -1
  | _ => 0

def outstanding (before : Int) (tr : List ((op : ExecOp) × op.Res)) : Int := before + Prog.cost logWeight tr

/-! ## Parts of system calls -/

@[simp] def fsWeight (op : FsOp) : Int := logWeight (.fs op)

namespace Sysfile

variable {α : Type} {n : Int}

@[simp] theorem weighs_panic : Weighs fsWeight (panic : FsProg α) n := Prog.weighs_perform_bind.mpr fun r => r.elim

@[simp] theorem weighs_iunlockput_bind {ip : Iptr} {f : Unit → FsProg α} :
    Weighs fsWeight (iunlockput ip >>= f) n ↔ Weighs fsWeight (f ()) n := by
  show Weighs fsWeight (call (.iunlock ip) >>= fun _ => call (.iput ip) >>= f) n ↔ _
  simp only [Prog.weighs_perform_bind, fsWeight, logWeight, Int.sub_zero]
  exact ⟨fun h => h () (), fun h _ _ => h⟩

theorem weighs_fileclose (f : Fptr) : Weighs fsWeight (fileclose f) 0 := by
  unfold fileclose
  rw [Prog.weighs_perform_bind]
  rintro (_ | ff)
  · simp
  · dsimp only
    cases ff.type <;> cases ff.ip <;> simp

theorem weighs_linkBad (ip : Iptr) : Weighs fsWeight (linkBad ip) (-1) := by simp [linkBad]

theorem weighs_sysLink (old new : Option CStr) : Weighs fsWeight (sysLink old new) 0 := by
  unfold sysLink
  split
  · simp [Option.forall, weighs_linkBad]
  · simp

theorem weighs_unlinkBad (dp : Iptr) : Weighs fsWeight (unlinkBad dp) (-1) := by simp [unlinkBad]

theorem weighs_dropUp (dp : Iptr) (x : Fields) : Weighs fsWeight (dropUp dp x) 0 := by simp [dropUp]

theorem weighs_unlinkEntry (dp ip : Iptr) (off : Nat) (x : Fields) : Weighs fsWeight (unlinkEntry dp ip off x) (-1) := by
  unfold unlinkEntry
  rw [Prog.weighs_perform_bind]
  rintro (_ | _)
  · simp
  · refine .bind (weighs_dropUp dp x) fun _ => ?_
    simp

theorem weighs_sysUnlink (path : Option CStr) : Weighs fsWeight (sysUnlink path) 0 := by
  unfold sysUnlink
  split
  · simp
  · simp [Option.forall, weighs_unlinkBad, weighs_unlinkEntry]

theorem weighs_createNew (dp : Iptr) (name : CharArr DIRSIZ) (type : FileType) (major minor : Int) :
    Weighs fsWeight (createNew dp name type major minor) 0 := by
  have hdots : ∀ ip inum, Weighs fsWeight (createNew.dots dp type ip inum) 0 := by
    intro ip inum
    simp [createNew.dots]
  unfold createNew
  rw [Prog.weighs_perform_bind]
  rintro (_ | ip)
  · simp
  · simp only [Prog.weighs_perform_bind]
    intro _ x _
    refine .bind (hdots ip x.inum) fun ok => ?_
    simp

theorem weighs_create (path : CStr) (type : FileType) (major minor : Int) :
    Weighs fsWeight (create path type major minor) 0 := by
  simp [create, Option.forall, weighs_createNew]

theorem weighs_openInode (ip : Iptr) (omode : BitVec 32) : Weighs fsWeight (openInode ip omode) (-1) := by
  unfold openInode
  have hclose : ∀ f, Weighs fsWeight (fileclose f >>= fun _ => iunlockput ip >>= fun _ =>
      call .endOp >>= fun _ => (return -1 : FsProg Int)) (-1) := by
    intro f
    refine .bind (weighs_fileclose f) fun _ => ?_
    simp
  simp [Option.forall, hclose]

theorem weighs_sysOpen (args : Option (CStr × BitVec 32)) : Weighs fsWeight (sysOpen args) 0 := by
  unfold sysOpen
  split
  · simp
  rename_i path omode
  rw [Prog.weighs_perform_bind]
  intro _
  rw [Prog.weighs_ite]
  refine ⟨fun _ => ?_, fun _ => ?_⟩
  · refine .bind (weighs_create path .file 0 0) ?_
    simp [Option.forall, weighs_openInode]
  · simp [Option.forall, weighs_openInode]

theorem weighs_sysCreate (fetched : Bool) (path : CStr) (type : FileType) (major minor : Int) :
    Weighs fsWeight (sysCreate fetched path type major minor) 0 := by
  unfold sysCreate
  rw [Prog.weighs_perform_bind]
  intro _
  refine .bind (weighs_create path type major minor) ?_
  simp [Option.forall]

theorem weighs_sysChdir (fetched : Bool) (path : CStr) : Weighs fsWeight (sysChdir fetched path) 0 := by
  simp [sysChdir, Option.forall]

end Sysfile

theorem weighs_lift {α : Type} {p : FsProg α} {n : Int} (h : Weighs fsWeight p n) : Weighs logWeight p.lift n := by
  induction p generalizing n with
  | ret a => exact Prog.weighs_pure.mpr (Prog.weighs_pure.mp h)
  | call op k ih =>
    refine Prog.weighs_perform_bind.mpr fun r => ih r ?_
    exact Prog.weighs_perform_bind.mp h r

namespace Exec

variable {n : Int}

theorem weighs_unlockEnd (ip : Iptr) : Weighs logWeight (unlockEnd ip) (-1) := by simp [unlockEnd]

theorem weighs_bad_some (pagetable : Option (BitVec 64)) (ip : Iptr) :
    Weighs logWeight (bad pagetable (some ip)) (-1) := by
  have hfree : Weighs logWeight (bad.freeTable pagetable) 0 := by
    cases pagetable <;> simp [bad.freeTable]
  refine .bind hfree fun _ => .bind (weighs_unlockEnd ip) fun _ => ?_
  simp

theorem weighs_bad_none (pagetable : Option (BitVec 64)) : Weighs logWeight (bad pagetable none) 0 := by
  cases pagetable <;> simp [bad, bad.freeTable, bad.close]

theorem weighs_loadSegments (ip : Iptr) (k : Nat) (off : BitVec 32) (sz : BitVec 64) :
    Weighs logWeight (loadSegments ip k off sz) 0 := by
  induction k generalizing off sz with
  | zero => simp [loadSegments]
  | succ k ih => simp [loadSegments, Option.forall, ih]

theorem weighs_pushArgs (stackbase : BitVec 64) (argv : List CStr) (sp : BitVec 64)
    (ustack : List (BitVec 64)) : Weighs logWeight (pushArgs stackbase argv sp ustack) 0 := by
  induction argv generalizing sp ustack with
  | nil => simp [pushArgs]
  | cons s argv ih => simp [pushArgs, ih]

theorem weighs_execStack (path : CStr) (argv : List CStr) (entry sz : BitVec 64) :
    Weighs logWeight (execStack path argv entry sz) 0 := by
  unfold execStack
  rw [Prog.weighs_perform_bind]
  intro sz
  rw [Prog.weighs_ite]
  refine ⟨fun _ => weighs_bad_none _, fun _ => ?_⟩
  rw [Prog.weighs_perform_bind]
  intro _
  refine .bind (weighs_pushArgs _ argv sz []) ?_
  simp [Option.forall, weighs_bad_none]

theorem weighs_exec (path : CStr) (argv : List CStr) : Weighs logWeight (exec path argv) 0 := by
  simp only [exec, Prog.weighs_perform_bind, Option.forall, Prog.weighs_ite]
  intro _
  refine ⟨by simp, fun ip _ => ⟨weighs_bad_some none ip, fun elf => ?_⟩⟩
  refine ⟨fun _ => weighs_bad_some none ip, fun _ _ => ⟨fun _ => weighs_bad_some none ip, fun _ => ?_⟩⟩
  refine .bind (weighs_loadSegments ip _ _ _) fun r => ?_
  cases r with
  | error sz => exact weighs_bad_some _ ip
  | ok sz => exact .bind (weighs_unlockEnd ip) fun _ => weighs_execStack path argv _ sz

end Exec

/-! ## `kresume` -/

/-- A function that `kresume` calls reports failure: no file of that name, a file that is too short,
no memory. -/
def Failed : (op : ExecOp) × op.Res → Prop
  | ⟨.fs (.namei _), ip⟩ => ip = none
  | ⟨.readResumehdr _, hdr⟩ => hdr = none
  | ⟨.readTrapframe _ _, n⟩ => n.signExtend 64 < sizeofTrapframe.zeroExtend 64
  | ⟨.procPagetable, ok⟩ => ok = false
  | ⟨.uvmalloc _ _, sz⟩ => sz = 0
  | ⟨.loadseg _ _ _ _, ok⟩ => ok = false
  | _ => False

/-- The calls add `n`, or one less when one of them fails. -/
def Settles (n : Int) (tr : List ((op : ExecOp) × op.Res)) : Prop :=
  (∃ e ∈ tr, Failed e) ∧ Prog.cost logWeight tr = n - 1 ∨ (∀ e ∈ tr, ¬ Failed e) ∧ Prog.cost logWeight tr = n

namespace Exec

variable {n : Int} {α : Type}

/-- What follows a call that fails closes the transaction; what follows one that does not goes on. -/
theorem settles_call {op : ExecOp} {f : op.Res → ExecProg α}
    (hfail : ∀ r, Failed ⟨op, r⟩ → Weighs logWeight (f r) (n - logWeight op - 1))
    (hgo : ∀ r, ¬ Failed ⟨op, r⟩ → (f r).AllRuns fun tr _ => Settles (n - logWeight op) tr) :
    (call op >>= f).AllRuns fun tr _ => Settles n tr := by
  refine Prog.allRuns_perform_bind.mpr fun r => ?_
  by_cases hr : Failed ⟨op, r⟩
  · refine (hfail r hr).mono fun tr _ hcost => .inl ⟨⟨_, mem_cons_self, hr⟩, ?_⟩
    rw [Prog.cost_cons, hcost]
    show logWeight op + (n - logWeight op - 1) = n - 1
    omega
  refine (hgo r hr).mono fun tr _ hs => ?_
  have hcons : Prog.cost logWeight (⟨op, r⟩ :: tr) = logWeight op + Prog.cost logWeight tr := Prog.cost_cons
  rcases hs with ⟨⟨e, he, hf⟩, hcost⟩ | ⟨hall, hcost⟩
  · exact .inl ⟨⟨e, mem_cons_of_mem _ he, hf⟩, by omega⟩
  · exact .inr ⟨forall_mem_cons.mpr ⟨hr, hall⟩, by omega⟩

theorem settles_next {op : ExecOp} {f : op.Res → ExecProg α}
    (hop : ∀ r, ¬ Failed ⟨op, r⟩)
    (hgo : ∀ r, (f r).AllRuns fun tr _ => Settles (n - logWeight op) tr) :
    (call op >>= f).AllRuns fun tr _ => Settles n tr :=
  settles_call (fun r hr => absurd hr (hop r)) fun r _ => hgo r

theorem settles_return (a : α) : AllRuns (pure a : ExecProg α) fun tr _ => Settles 0 tr :=
  Prog.allRuns_pure.mpr (.inr ⟨forall_mem_nil _, rfl⟩)

theorem resumeImage_settles (ip : Iptr) (hdr : Resumehdr) : (resumeImage ip hdr).AllRuns fun tr _ => Settles 0 tr := by
  refine settles_call (fun sz hsz => ?_) fun sz hsz => ?_
  · rw [if_pos (show sz = 0 from hsz)]
    exact weighs_bad_some _ ip
  rw [if_neg (show ¬ sz = 0 from hsz)]
  refine settles_call (fun loaded hl => ?_) fun loaded hl => ?_
  · rw [if_pos (by simpa [Failed] using hl)]
    exact weighs_bad_some _ ip
  rw [if_neg (by simpa [Failed] using hl)]
  refine settles_call (fun sz' hsz' => ?_) fun sz' hsz' => ?_
  · rw [if_pos (show sz' = 0 from hsz')]
    exact weighs_bad_some _ ip
  rw [if_neg (show ¬ sz' = 0 from hsz')]
  refine settles_next (fun _ => id) fun _ => ?_
  refine settles_call (fun loaded' hl' => ?_) fun loaded' hl' => ?_
  · rw [if_pos (by simpa [Failed] using hl')]
    exact weighs_bad_some _ ip
  rw [if_neg (by simpa [Failed] using hl')]
  refine settles_next (fun _ => id) fun _ => ?_
  refine settles_next (fun _ => id) fun _ => ?_
  refine settles_next (fun _ => id) fun _ => ?_
  exact settles_return 0

/-- **`kresume` closes its transaction when it fails, and only then.** -/
theorem kresume_settles (path : CStr) : (kresume path).AllRuns fun tr _ => Settles 1 tr := by
  refine settles_next (fun _ => id) fun _ => ?_
  refine settles_call (fun ip hip => ?_) fun ip hip => ?_
  · rw [show ip = none from hip]
    simp
  obtain ⟨ip, rfl⟩ := Option.ne_none_iff_exists'.mp hip
  refine settles_next (fun _ => id) fun _ => ?_
  refine settles_call (fun hdr hhdr => ?_) fun hdr hhdr => ?_
  · rw [show hdr = none from hhdr]
    exact weighs_bad_some none ip
  obtain ⟨hdr, rfl⟩ := Option.ne_none_iff_exists'.mp hhdr
  refine settles_call (fun k hk => ?_) fun k hk => ?_
  · rw [if_pos (by exact hk)]
    exact weighs_bad_some none ip
  rw [if_neg (by exact hk)]
  refine settles_call (fun table ht => ?_) fun table ht => ?_
  · rw [if_pos (by simpa [Failed] using ht)]
    exact weighs_bad_some none ip
  rw [if_neg (by simpa [Failed] using ht)]
  exact resumeImage_settles ip hdr

end Exec

/-! ## All eight calls -/

/-- A call of one of the functions that open a transaction, with its arguments. -/
inductive FileCall
  | link (old new : Option CStr)
  | unlink (path : Option CStr)
  | open (args : Option (CStr × BitVec 32))
  | mkdir (fetched : Bool) (path : CStr)
  | mknod (fetched : Bool) (path : CStr) (major minor : Int)
  | chdir (fetched : Bool) (path : CStr)
  | exec (path : CStr) (argv : List CStr)
  | kresume (path : CStr)

namespace FileCall

def prog : FileCall → ExecProg Int
  | link old new => (Sysfile.sysLink old new).lift
  | unlink path => (Sysfile.sysUnlink path).lift
  | .open args => (Sysfile.sysOpen args).lift
  | mkdir fetched path => (Sysfile.sysMkdir fetched path).lift
  | mknod fetched path major minor => (Sysfile.sysMknod fetched path major minor).lift
  | chdir fetched path => (Sysfile.sysChdir fetched path).lift
  | exec path argv => Exec.exec path argv
  | kresume path => Exec.kresume path

def isKresume : FileCall → Prop
  | kresume _ => True
  | _ => False

theorem weighs {c : FileCall} (hc : ¬ c.isKresume) : Weighs logWeight c.prog 0 := by
  cases c with
  | link old new => exact weighs_lift (Sysfile.weighs_sysLink old new)
  | unlink path => exact weighs_lift (Sysfile.weighs_sysUnlink path)
  | «open» args => exact weighs_lift (Sysfile.weighs_sysOpen args)
  | mkdir fetched path => exact weighs_lift (Sysfile.weighs_sysCreate fetched path _ _ _)
  | mknod fetched path major minor =>
    exact weighs_lift (Sysfile.weighs_sysCreate fetched path _ _ _)
  | chdir fetched path => exact weighs_lift (Sysfile.weighs_sysChdir fetched path)
  | exec path argv => exact Exec.weighs_exec path argv
  | kresume path => exact absurd trivial hc

end FileCall

/-- **Transactions are balanced, except in a successful `kresume`.** -/
theorem balanced_iff (c : FileCall) (tr : List ((op : ExecOp) × op.Res)) (rv : Int)
    (h : c.prog.Returns tr rv) (before : Int) :
    outstanding before tr = before ↔ (c.isKresume → ∃ e ∈ tr, Failed e) := by
  by_cases hc : c.isKresume
  · cases c with
    | kresume path =>
      unfold outstanding
      rcases Exec.kresume_settles path tr rv h with ⟨hf, hcost⟩ | ⟨hall, hcost⟩
      · exact ⟨fun _ _ => hf, fun _ => by omega⟩
      constructor
      · intro he
        omega
      · intro hf
        obtain ⟨e, he, hfe⟩ := hf trivial
        exact absurd hfe (hall e he)
    | _ => exact hc.elim
  · have hcost : Prog.cost logWeight tr = 0 := FileCall.weighs hc tr rv h
    unfold outstanding
    exact ⟨fun _ hk => absurd hk hc, fun _ => by omega⟩

def core : CStr := .ofBytes [99, 111, 114, 101] rfl

def missing : List ((op : ExecOp) × op.Res) := [⟨.fs .beginOp, ()⟩, ⟨.fs (.namei core), none⟩, ⟨.fs .endOp, ()⟩]

theorem balanced_iff_missing :
    outstanding 0 missing = 0 ↔ ((FileCall.kresume core).isKresume → ∃ e ∈ missing, Failed e) :=
  balanced_iff (.kresume core) missing (-1) (.call (.call (.call .ret))) 0

def onePage : Resumehdr := ⟨4096, 0, fun _ => 0⟩

def resumed : List ((op : ExecOp) × op.Res) :=
  [⟨.fs .beginOp, ()⟩, ⟨.fs (.namei core), some 1⟩, ⟨.fs (.ilock 1), ()⟩,
    ⟨.readResumehdr 1, some onePage⟩, ⟨.readTrapframe 1 32, 288⟩, ⟨.procPagetable, true⟩,
    ⟨.uvmalloc 0 4096, 4096⟩, ⟨.loadseg 0 1 320 4096, true⟩, ⟨.uvmalloc 4096 12288, 12288⟩,
    ⟨.uvmclear 4096, ()⟩, ⟨.loadseg 8192 1 4416 4096, true⟩, ⟨.fs (.iunlock 1), ()⟩,
    ⟨.fs (.iput 1), ()⟩, ⟨.commitResume onePage 12288, ()⟩]

theorem returns_resumed : (FileCall.kresume core).prog.Returns resumed 0 :=
  .call (.call (.call (.call (.call (.call (.call (.call (.call (.call (.call (.call (.call (.call
    .ret)))))))))))))

/-- A `kresume` that succeeds leaves its transaction open. -/
theorem not_balanced : ¬ ∀ (c : FileCall) (tr : List ((op : ExecOp) × op.Res)) (rv : Int),
    c.prog.Returns tr rv → ∀ before, outstanding before tr = before := by
  intro h
  have hopen : outstanding 0 resumed = 0 := h (.kresume core) resumed 0 returns_resumed 0
  exact absurd hopen (by decide)

end Xv6.Fs
