/-
# Xv6.Fs.Badpath — system calls on a path that cannot be fetched (`argstr` of `kernel/syscall.c`, `copyinstr` of
`kernel/vm.c`; the calls are those of `Sysfile`).

When `argstr` fails, the buffer holds the bytes up to where it failed, and behind them what was on the stack.
`open`, `link` and `unlink` return at once.  `mkdir`, `mknod` and `chdir` look at the result only after `create` or
`namei` has worked on this buffer.
-/
import Mathlib.Data.List.TakeWhile
import Xv6.Fs.Calls

namespace Xv6.Fs

open Kernel (Slot CStr CharArr)
open Lib.Prog (Returns)

abbrev MAXPATH : Nat := 128

/-- `copyinstr(pagetable, dst, srcva, max)`, when the user's memory is `mem`, with nothing where no page is mapped: whether
there was a NUL, and what memory holds from `dst` on. -/
def copyinstr (mem : BitVec 64 → Option UInt8) : Nat → BitVec 64 → List UInt8 → Bool × List UInt8
  | 0, _, dst => (false, dst)
  | max + 1, va, dst =>
    match mem va with
    | none => (false, dst)
    | some c =>
      if c = 0 then (true, 0 :: dst.tail)
      else
        let (ok, rest) := copyinstr mem max (va + 1) dst.tail
        (ok, c :: rest)

/-- What `argstr(n, path, MAXPATH)` leaves: whether it succeeds, and the string in the buffer. -/
structure Fetch where
  ok : Bool
  path : CStr

/-- `argstr(n, path, MAXPATH)` of the address `va`, when `stack` is in memory from `path` on. -/
def argstr (mem : BitVec 64 → Option UInt8) (va : BitVec 64) (stack : List UInt8) : Fetch :=
  let (ok, dst) := copyinstr mem MAXPATH va stack
  ⟨ok, dst.takeWhile (· ≠ 0), fun _ hb => by simpa using List.mem_takeWhile_imp hb⟩

def Fetch.arg (a : Fetch) : Option CStr := if a.ok then some a.path else none

/-! ## The calls -/

/-- The calls that take a path; `link` takes two, and `first` says which one is looked at. -/
inductive PathCall
  | open (omode : BitVec 32)
  | link (first : Bool) (other : Option CStr)
  | unlink
  | mkdir
  | mknod (major minor : Int)
  | chdir

def PathCall.prog (a : Fetch) : PathCall → FsProg Int
  | .open omode => Sysfile.sysOpen (a.arg.map (·, omode))
  | .link first other => if first then Sysfile.sysLink a.arg other else Sysfile.sysLink other a.arg
  | .unlink => Sysfile.sysUnlink a.arg
  | .mkdir => Sysfile.sysMkdir a.ok a.path
  | .mknod major minor => Sysfile.sysMknod a.ok a.path major minor
  | .chdir => Sysfile.sysChdir a.ok a.path

def FsOp.finds : FsOp → Bool
  | .namei _ | .nameiparent _ | .dirlookup _ _ | .ialloc _ => true
  | _ => false

/-- Whatever the functions it calls return, the call returns `-1` and looks up and makes no inode; and it changes nothing. -/
def NoEffect (p : FsProg Int) : Prop :=
  (∀ tr rv, Returns p tr rv → rv = -1 ∧ ∀ e ∈ tr, e.1.finds = false) ∧
    ∀ t buf buf' s, p.run (handle t buf buf') s = .ok (-1, s)

def PathCall.Checks : PathCall → Prop
  | .open _ | .link _ _ | .unlink => True
  | .mkdir | .mknod _ _ | .chdir => False

theorem noEffect_pure : NoEffect (pure (-1)) := by
  refine ⟨fun tr rv hr => ?_, fun _ _ _ _ => rfl⟩
  cases hr
  exact ⟨rfl, fun e he => absurd he List.not_mem_nil⟩

theorem sysCreate_finds (fetched : Bool) (path : CStr) (type : FileType) (major minor : Int) :
    ¬ NoEffect (Sysfile.sysCreate fetched path type major minor) := by
  rintro ⟨hruns, -⟩
  -- the run in which there is no such directory
  have hrun : Returns (Sysfile.sysCreate fetched path type major minor)
      [⟨.beginOp, ()⟩, ⟨.nameiparent path, none⟩, ⟨.endOp, ()⟩] (-1) :=
    .call (.call (.call .ret))
  exact absurd ((hruns _ _ hrun).2 ⟨.nameiparent path, none⟩ (by simp)) (by simp [FsOp.finds])

theorem sysChdir_finds (fetched : Bool) (path : CStr) : ¬ NoEffect (Sysfile.sysChdir fetched path) := by
  rintro ⟨hruns, -⟩
  have hrun : Returns (Sysfile.sysChdir fetched path) [⟨.beginOp, ()⟩, ⟨.namei path, none⟩, ⟨.endOp, ()⟩] (-1) :=
    .call (.call (.call .ret))
  exact absurd ((hruns _ _ hrun).2 ⟨.namei path, none⟩ (by simp)) (by simp [FsOp.finds])

/-- **A path that cannot be fetched has no effect exactly in the calls that look first.** -/
theorem bad_path_iff (mem : BitVec 64 → Option UInt8) (va : BitVec 64) (stack : List UInt8)
    (hbad : (argstr mem va stack).ok = false) (c : PathCall) :
    NoEffect (c.prog (argstr mem va stack)) ↔ c.Checks := by
  have harg : (argstr mem va stack).arg = none := by simp [Fetch.arg, hbad]
  cases c with
  | «open» omode | unlink =>
    rw [PathCall.prog, harg]
    exact iff_of_true noEffect_pure trivial
  | link first other =>
    have hlink : Sysfile.sysLink other none = pure (-1) := by cases other <;> rfl
    rw [PathCall.prog, harg, hlink]
    cases first <;> exact iff_of_true noEffect_pure trivial
  | mkdir | mknod major minor => exact iff_of_false (sysCreate_finds _ _ _ _ _) id
  | chdir => exact iff_of_false (sysChdir_finds _ _) id

/-- `unlink` of a pointer to memory that is not mapped. -/
theorem bad_path_unlink : (argstr (fun _ => none) 0 [100, 0]).ok = false ∧
    NoEffect (PathCall.unlink.prog (argstr (fun _ => none) 0 [100, 0])) :=
  ⟨rfl, (bad_path_iff (fun _ => none) 0 [100, 0] rfl .unlink).mpr trivial⟩

def smallSys : Sys where
  files := smallFiles
  dev _ := (0, 0)
  file _ := ⟨.none, false, false, none, 0, 0⟩
  fref _ := 0
  ofile _ _ := none

/-- `mkdir` of a pointer to memory that is not mapped, with `d` left on the stack: it fails, and there is a directory `d`,
which stays locked. -/
theorem mkdir_has_effect : ¬ ∀ mem va stack (c : PathCall), (argstr mem va stack).ok = false →
    NoEffect (c.prog (argstr mem va stack)) := by
  intro hall
  have hrun : (((PathCall.mkdir.prog (argstr (fun _ => none) 0 [100, 0])).run (handle 0 dot dot) smallSys).toOption.any
      fun r => decide (r.1 = -1 ∧ (r.2.inodes.nodes 4).type = .dir ∧ (r.2.inodes.cache 2).inum = 4 ∧
        (r.2.inodes.cache 2).lock = some 0)) = true := by
    decide +kernel
  rw [(hall (fun _ => none) 0 [100, 0] .mkdir rfl).2 0 dot dot smallSys] at hrun
  exact absurd hrun (by decide +kernel)

end Xv6.Fs
