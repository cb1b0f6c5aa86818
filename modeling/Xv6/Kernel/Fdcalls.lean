/-
# Xv6.Kernel.Fdcalls — `dup`, `pipe` and `open` from beginning to end, and what they leave behind when they fail
(`argfd`, `fdalloc`, `sys_dup`, `sys_pipe` and `sys_open` of `kernel/sysfile.c`; `kernel/file.c`; `pipealloc` and
`pipeclose` of `kernel/pipe.c`).

`Ftable` cuts the calls where another process can come in between; here one call runs alone, with what it returns.
`pipe` and `open` undo what they did, since a file that is not in use has no type.  `dup` enters the file before it
looks whether there is one: its variable then holds what was on the stack.
-/
import Xv6.Kernel.Shares

namespace Xv6.Kernel.Ftable

open Fs (Fd Fptr NOFILE NDEV O_RDONLY O_WRONLY O_RDWR O_CREATE)
open Function

/-- The descriptors of the caller, the files that pointers `α` point to, and the pages. -/
structure Descs (α : Type) where
  ofile : Fd → Option α
  file : α → File
  mem : Page → Frame

def State.descs (s : State) (p : Slot) : Descs Fptr := ⟨(s.task p).ofile, s.file, s.mem⟩

namespace Descs

/-! ## The code -/

section Generic

variable {α : Type} [DecidableEq α]

def setFd (s : Descs α) (fd : Fd) (o : Option α) : Descs α := { s with ofile := update s.ofile fd o }

def setFile (s : Descs α) (f : α) (ff : File) : Descs α := { s with file := update s.file f ff }

/-- `argfd(n, 0, &f)` for the argument `fd`: what it stores in `f`. -/
def argfd (s : Descs α) (fd : Int) : Option α :=
  if h : 0 ≤ fd ∧ fd < NOFILE then s.ofile ⟨fd.toNat, by omega⟩ else none

def fdalloc (s : Descs α) (f : Option α) : Option Fd × Descs α :=
  match Fin.find? fun fd => (s.ofile fd).isNone with
  | none => (none, s)
  | some fd => (some fd, s.setFd fd f)

def filedup (s : Descs α) (f : α) : Except Panic (Descs α) :=
  if (s.file f).ref < 1 then .error .filedup
  else .ok (s.setFile f { s.file f with ref := (s.file f).ref + 1 })

/-- `sys_dup()` for the argument `n`, with `f₀` in the variable `f` before: the descriptor, or `none` for `-1`. -/
def sysDup (s : Descs α) (n : Int) (f₀ : Option α) : Except Panic (Option Fd × Descs α) :=
  let (fd, s') := s.fdalloc ((s.argfd n).or f₀)
  match s.argfd n, fd with
  | none, _ => .ok (none, s')
  | some _, none => .ok (none, s')
  | some f, some fd => (some fd, ·) <$> s'.filedup f

end Generic

def filealloc (s : Descs Fptr) : Option Fptr × Descs Fptr :=
  match Ftable.filealloc s.file with
  | none => (none, s)
  | some f => (some f, s.setFile f { s.file f with ref := 1 })

def pipeclose (s : Descs Fptr) (pg : Page) (writable : Bool) : Descs Fptr :=
  match s.mem pg with
  | .pipe readopen writeopen =>
    let readopen := if writable then readopen else false
    let writeopen := if writable then false else writeopen
    if readopen = false ∧ writeopen = false then { s with mem := update s.mem pg .free }
    else { s with mem := update s.mem pg (.pipe readopen writeopen) }
  | _ => s

/-- `fileclose(f)`; the inode of a file is not part of the state. -/
def fileclose (s : Descs Fptr) (f : Fptr) : Except Panic (Descs Fptr) :=
  let ff := s.file f
  if ff.ref < 1 then .error .fileclose
  else if ff.ref - 1 > 0 then .ok (s.setFile f { ff with ref := ff.ref - 1 })
  else
    let s := s.setFile f { ff with ref := 0, type := .none }
    match ff.type with
    | .pipe => .ok (s.pipeclose ff.pipe ff.writable)
    | .inode | .device | .none => .ok s

/-- `fileclose(f0)`, `fileclose(f1)`, and the caller fails. -/
def closeBoth {β : Type} (s : Descs Fptr) (f0 f1 : Fptr) (r : β) : Except Panic (β × Descs Fptr) := do
  let s ← s.fileclose f0
  let s ← s.fileclose f1
  return (r, s)

/-- `pipealloc(&f0, &f1)`, when `kalloc` returns `page`. -/
def pipealloc (s : Descs Fptr) (page : Option Page) : Except Panic (Option (Fptr × Fptr) × Descs Fptr) :=
  match s.filealloc with
  | (none, s) => .ok (none, s)
  | (some f0, s) =>
    match s.filealloc with
    | (none, s) => (none, ·) <$> s.fileclose f0
    | (some f1, s) =>
      match page with
      | none => s.closeBoth f0 f1 none
      | some pg =>
        let s := { s with mem := update s.mem pg (.pipe true true) }
        let s := s.setFile f0 { s.file f0 with type := .pipe, pipe := pg, writable := false }
        let s := s.setFile f1 { s.file f1 with type := .pipe, pipe := pg, writable := true }
        .ok (some (f0, f1), s)

/-- `sys_pipe` from the first `fdalloc` on; `copied0` and `copied1` say whether the `copyout`s succeed. -/
def enterPipe (s : Descs Fptr) (rf wf : Fptr) (copied0 copied1 : Bool) : Except Panic (Int × Descs Fptr) :=
  match s.fdalloc (some rf) with
  | (none, s) => s.closeBoth rf wf (-1)
  | (some fd0, s) =>
    match s.fdalloc (some wf) with
    | (none, s) => (s.setFd fd0 none).closeBoth rf wf (-1)
    | (some fd1, s) =>
      if copied0 = true ∧ copied1 = true then .ok (0, s)
      else ((s.setFd fd0 none).setFd fd1 none).closeBoth rf wf (-1)

def sysPipe (s : Descs Fptr) (page : Option Page) (copied0 copied1 : Bool) : Except Panic (Int × Descs Fptr) := do
  match ← s.pipealloc page with
  | (none, s) => return (-1, s)
  | (some (rf, wf), s) => s.enterPipe rf wf copied0 copied1

/-- `sys_open()`: `ip` is what `create` or `namei` returns, with its type and its major number, or `none` when the
path is not fetched or not found. -/
def sysOpen (s : Descs Fptr) (ip : Option (Fs.FileType × Int)) (omode : BitVec 32) : Except Panic (Int × Descs Fptr) :=
  match ip with
  | none => .ok (-1, s)
  | some (type, major) =>
    if omode &&& O_CREATE = 0 ∧ type = .dir ∧ omode ≠ O_RDONLY then .ok (-1, s)
    else if type = .device ∧ (major < 0 ∨ major ≥ NDEV) then .ok (-1, s)
    else
      match s.filealloc with
      | (none, s) => .ok (-1, s)
      | (some f, s) =>
        match s.fdalloc (some f) with
        | (none, s) => (-1, ·) <$> s.fileclose f
        | (some fd, s) =>
          .ok (fd, s.setFile f { s.file f with
            type := if type = .device then .device else .inode
            writable := omode &&& O_WRONLY != 0 || omode &&& O_RDWR != 0 })

section Dup

variable {α : Type} [DecidableEq α]

/-- What a call of `dup` that returns must have done: nothing, or one more entry for the file. -/
def Duplicated (s : Descs α) (n : Int) : Option Fd × Descs α → Prop
  | (none, s') => s'.ofile = s.ofile ∧ ∀ g, (s'.file g).ref = (s.file g).ref
  | (some fd, s') => s.ofile fd = none ∧ ∃ f, s.argfd n = some f ∧ s'.ofile = update s.ofile fd (some f) ∧
      ∀ g, (s'.file g).ref = (s.file g).ref + if g = f then 1 else 0

/-- **When `dup` does what it should**: the argument is an open descriptor, or there is no free one, or the stack
happens to hold a null pointer. -/
theorem sysDup_iff (s : Descs α) (n : Int) (f₀ : Option α) :
    (∀ r, s.sysDup n f₀ = .ok r → s.Duplicated n r) ↔
      s.argfd n ≠ none ∨ (∀ fd, s.ofile fd ≠ none) ∨ f₀ = none := by
  unfold sysDup fdalloc
  cases hfind : Fin.find? fun fd => (s.ofile fd).isNone with
  | none =>
    have hfull : ∀ fd, s.ofile fd ≠ none := by
      simpa [Fin.find?_eq_none_iff, Option.isSome_iff_ne_none] using hfind
    cases harg : s.argfd n <;> simp [Duplicated, hfull]
  | some fd =>
    have hfree : s.ofile fd = none := by simpa using (Fin.find?_eq_some_iff.mp hfind).1
    have hroom : ¬ ∀ fd, s.ofile fd ≠ none := fun h => h fd hfree
    cases harg : s.argfd n with
    | none =>
      -- `f₀` is entered, and the call fails
      have hsame : update s.ofile fd f₀ = s.ofile ↔ f₀ = none := by rw [update_eq_self_iff, hfree]
      simp [Duplicated, setFd, hroom, hsame]
    | some f =>
      simp only [Option.some_or, filedup, ne_eq, reduceCtorEq, not_false_eq_true, true_or, iff_true]
      intro r hr
      by_cases href : (s.file f).ref < 1
      · simp [setFd, href] at hr
      · simp only [setFd, href, if_false] at hr
        cases hr
        refine ⟨hfree, f, harg, rfl, fun g => ?_⟩
        by_cases hg : g = f
        · simp [setFile, hg]
        · simp [setFile, hg]

/-- `dup(-1)` enters the pointer that the stack holds, here to file `0`, at descriptor `0`, and returns `-1`. -/
theorem sysDup_enters_stray : ¬ ∀ (s : Descs Fptr) (n : Int) (f₀ : Option Fptr) (r : Option Fd × Descs Fptr),
    s.sysDup n f₀ = .ok r → s.Duplicated n r := by
  intro hall
  obtain ⟨hofile, -⟩ := hall ⟨fun _ => none, fun _ => ⟨0, .none, 0, false⟩, fun _ => .free⟩ (-1) (some 0) _ rfl
  exact absurd (congrFun hofile 0) (by decide)

end Dup

/-! ## `pipe` and `open` -/

def Idle (s : Descs Fptr) : Prop := ∀ f, (s.file f).ref = 0 → (s.file f).type = .none

/-- The descriptors, the references and the pages are as they were. -/
structure Restored (s s' : Descs Fptr) : Prop where
  ofile : s'.ofile = s.ofile
  ref : ∀ f, (s'.file f).ref = (s.file f).ref
  mem : s'.mem = s.mem

/-- The call returns, and if it fails everything is as before. -/
def Undoes (s : Descs Fptr) (r : Except Panic (Int × Descs Fptr)) : Prop :=
  ∃ rv s', r = .ok (rv, s') ∧ (rv = -1 → s.Restored s')

variable {s t : Descs Fptr} {f f0 f1 : Fptr} {pg : Page} {page : Option Page} {fd : Fd} {F : Set Fptr}
  {o : Option Fptr}

theorem fdalloc_some (h : s.fdalloc o = (some fd, t)) : s.ofile fd = none ∧ t = s.setFd fd o := by
  unfold fdalloc at h
  split at h
  · cases h
  · rename_i hfd
    cases h
    exact ⟨by simpa using (Fin.find?_eq_some_iff.mp hfd).1, rfl⟩

theorem fdalloc_none (h : s.fdalloc o = (none, t)) : t = s := by
  unfold fdalloc at h
  split at h
  · cases h
    rfl
  · cases h

/-- A call has taken the files `F` and done nothing else. -/
structure Fresh (s t : Descs Fptr) (F : Set Fptr) : Prop where
  ofile : t.ofile = s.ofile
  mem : t.mem = s.mem
  idle : t.Idle
  taken : ∀ f ∈ F, (s.file f).ref = 0 ∧ (t.file f).ref = 1 ∧ (t.file f).type = .none
  others : ∀ f, f ∉ F → (t.file f).ref = (s.file f).ref

theorem Fresh.refl (hidle : s.Idle) : Fresh s s ∅ := ⟨rfl, rfl, hidle, fun _ hf => hf.elim, fun _ _ => rfl⟩

theorem Fresh.restored (h : Fresh s t F) (hF : ∀ f, f ∉ F) : s.Restored t := ⟨h.ofile, fun f => h.others f (hF f), h.mem⟩

theorem Fresh.filealloc (h : Fresh s t F) : t.filealloc = (none, t) ∨
    ∃ f u, t.filealloc = (some f, u) ∧ f ∉ F ∧ Fresh s u (insert f F) := by
  unfold Descs.filealloc
  cases hf : Ftable.filealloc t.file with
  | none => exact .inl rfl
  | some f =>
    have hzero := filealloc_ref hf
    have hnew : f ∉ F := by
      intro hmem
      have hone := (h.taken f hmem).2.1
      omega
    refine .inr ⟨f, _, rfl, hnew, h.ofile, h.mem, fun g hg => ?_, fun g hg => ?_, fun g hg => ?_⟩
    · by_cases hgf : g = f
      · simp [setFile, hgf] at hg
      · simp only [setFile, update_of_ne hgf] at hg ⊢
        exact h.idle g hg
    · obtain rfl | hg := hg
      · simp [setFile, ← h.others g hnew, hzero, h.idle g hzero]
      · have hgf : g ≠ f := fun heq => hnew (heq ▸ hg)
        simpa [setFile, hgf] using h.taken g hg
    · obtain ⟨hgf, hg⟩ := not_or.mp hg
      simpa [setFile, hgf] using h.others g hg

theorem Fresh.fileclose (h : Fresh s t F) (hf : f ∈ F) : ∃ u, t.fileclose f = .ok u ∧ Fresh s u (F \ {f}) := by
  obtain ⟨hunused, hone, htype⟩ := h.taken f hf
  refine ⟨t.setFile f { t.file f with ref := 0, type := .none }, by simp [Descs.fileclose, hone, htype], h.ofile, h.mem,
    fun g hg => ?_, fun g hg => ?_, fun g hg => ?_⟩
  · by_cases hgf : g = f
    · simp [setFile, hgf]
    · simp only [setFile, update_of_ne hgf] at hg ⊢
      exact h.idle g hg
  · have hgf : g ≠ f := hg.2
    simpa [setFile, hgf] using h.taken g hg.1
  · by_cases hgf : g = f
    · simp [setFile, hgf, hunused]
    · simpa [setFile, hgf] using h.others g fun hmem => hg ⟨hmem, hgf⟩

theorem closeBoth_ok {β : Type} {u : Descs Fptr} (h0 : s.fileclose f0 = .ok t) (h1 : t.fileclose f1 = .ok u) (r : β) :
    s.closeBoth f0 f1 r = .ok (r, u) := by
  rw [closeBoth, h0]
  show (t.fileclose f1 >>= _) = _
  rw [h1]
  rfl

structure HasPipe (s : Descs Fptr) (file : Fptr → File) (mem : Page → Frame) (f0 f1 : Fptr) (pg : Page) : Prop where
  ne : f1 ≠ f0
  unused : (s.file f0).ref = 0 ∧ (s.file f1).ref = 0
  free : s.mem pg = .free
  reader : file f0 = ⟨1, .pipe, pg, false⟩
  writer : file f1 = ⟨1, .pipe, pg, true⟩
  others : ∀ g, g ≠ f0 → g ≠ f1 → (file g).ref = (s.file g).ref
  mem : mem = update s.mem pg (.pipe true true)

theorem HasPipe.undoes (h : s.HasPipe t.file t.mem f0 f1 pg) (hofile : t.ofile = s.ofile) :
    s.Undoes (t.closeBoth f0 f1 (-1)) := by
  have hfirst : t.fileclose f0 = .ok ⟨t.ofile, update t.file f0 ⟨0, .none, pg, false⟩,
      update t.mem pg (.pipe false true)⟩ := by
    simp [fileclose, h.reader, pipeclose, setFile, h.mem]
  have hsecond : fileclose ⟨t.ofile, update t.file f0 ⟨0, .none, pg, false⟩, update t.mem pg (.pipe false true)⟩ f1 =
      .ok ⟨t.ofile, update (update t.file f0 ⟨0, .none, pg, false⟩) f1 ⟨0, .none, pg, true⟩, update t.mem pg .free⟩ := by
    simp [fileclose, h.writer, h.ne, pipeclose, setFile]
  refine ⟨-1, _, closeBoth_ok hfirst hsecond (-1), fun _ => ⟨hofile, fun g => ?_, ?_⟩⟩
  · by_cases hg : g = f1
    · simp [hg, h.unused]
    · by_cases hg' : g = f0 <;> simp [hg, hg', h.ne.symm, h.unused, h.others]
  · simp [h.mem, ← h.free]

theorem pipealloc_spec (hidle : s.Idle) (hpage : ∀ pg, page = some pg → s.mem pg = .free) :
    (∃ t, s.pipealloc page = .ok (none, t) ∧ s.Restored t) ∨
      ∃ f0 f1 pg t, s.pipealloc page = .ok (some (f0, f1), t) ∧ s.HasPipe t.file t.mem f0 f1 pg ∧ t.ofile = s.ofile := by
  unfold pipealloc
  have hfresh := Fresh.refl hidle
  obtain h0 | ⟨f0, t, h0, -, hfirst⟩ := hfresh.filealloc
  · rw [h0]
    exact .inl ⟨s, rfl, hfresh.restored fun _ => id⟩
  rw [h0]
  dsimp only
  obtain h1 | ⟨f1, u, h1, hnew, hboth⟩ := hfirst.filealloc
  · obtain ⟨u, hclose, hnone⟩ := hfirst.fileclose (f := f0) (by simp)
    rw [h1]
    dsimp only
    rw [hclose]
    exact .inl ⟨u, rfl, hnone.restored (by simp)⟩
  rw [h1]
  have hne : f1 ≠ f0 := by simpa using hnew
  cases page with
  | none =>
    obtain ⟨v, hclose0, hone⟩ := hboth.fileclose (f := f0) (by simp)
    obtain ⟨w, hclose1, hnone⟩ := hone.fileclose (f := f1) (by simp [hne])
    refine .inl ⟨w, closeBoth_ok hclose0 hclose1 none, hnone.restored fun g hg => ?_⟩
    simp_all
  | some pg =>
    obtain ⟨hunused0, hone0, -⟩ := hboth.taken f0 (by simp)
    obtain ⟨hunused1, hone1, -⟩ := hboth.taken f1 (by simp)
    refine .inr ⟨f0, f1, pg, _, rfl, ⟨hne, ⟨hunused0, hunused1⟩, hpage pg rfl, ?_, ?_, fun g hg hg' => ?_, ?_⟩, hboth.ofile⟩
    · simp [setFile, hne.symm, hone0]
    · simp [setFile, hne, hone1]
    · simpa [setFile, hg, hg'] using hboth.others g (by simp [hg, hg'])
    · simp [setFile, hboth.mem]

theorem HasPipe.enter {rf wf : Fptr} (h : s.HasPipe t.file t.mem rf wf pg) (hofile : t.ofile = s.ofile)
    (copied0 copied1 : Bool) : s.Undoes (t.enterPipe rf wf copied0 copied1) := by
  unfold enterPipe
  rcases h0 : t.fdalloc (some rf) with ⟨_ | fd0, u⟩
  · cases fdalloc_none h0
    exact h.undoes hofile
  obtain ⟨hfree0, rfl⟩ := fdalloc_some h0
  dsimp only
  rcases h1 : (t.setFd fd0 (some rf)).fdalloc (some wf) with ⟨_ | fd1, u⟩
  · cases fdalloc_none h1
    refine undoes (t := (t.setFd fd0 (some rf)).setFd fd0 none) h ?_
    simp [setFd, ← hfree0, hofile]
  obtain ⟨hfree1, rfl⟩ := fdalloc_some h1
  dsimp only
  split
  · exact ⟨0, _, rfl, fun h => absurd h (by decide)⟩
  refine undoes (t := (((t.setFd fd0 (some rf)).setFd fd1 (some wf)).setFd fd0 none).setFd fd1 none) h
    (funext fun fd => ?_)
  have hne : fd1 ≠ fd0 := by
    rintro rfl
    simp [setFd] at hfree1
  simp only [setFd, update_of_ne hne] at hfree1
  rw [← hofile]
  by_cases hfd1 : fd = fd1
  · simp [setFd, hfd1, hfree1]
  · by_cases hfd0 : fd = fd0 <;> simp [setFd, hfd0, hfd1, hne.symm, hfree0]

theorem sysPipe_undoes (hidle : s.Idle) (hpage : ∀ pg, page = some pg → s.mem pg = .free) (copied0 copied1 : Bool) :
    s.Undoes (s.sysPipe page copied0 copied1) := by
  obtain ⟨t, halloc, hsame⟩ | ⟨rf, wf, pg, t, halloc, hpipe, hofile⟩ := pipealloc_spec hidle hpage
  · refine ⟨-1, t, ?_, fun _ => hsame⟩
    rw [sysPipe, halloc]
    rfl
  · rw [sysPipe, halloc]
    exact hpipe.enter hofile copied0 copied1

theorem sysOpen_undoes (hidle : s.Idle) (ip : Option (Fs.FileType × Int)) (omode : BitVec 32) :
    s.Undoes (s.sysOpen ip omode) := by
  have hsame : s.Undoes (.ok (-1, s)) := ⟨-1, s, rfl, fun _ => ⟨rfl, fun _ => rfl, rfl⟩⟩
  unfold sysOpen
  split
  · exact hsame
  split
  · exact hsame
  split
  · exact hsame
  obtain h0 | ⟨f, t, h0, -, hfresh⟩ := (Fresh.refl hidle).filealloc
  · rw [h0]
    exact hsame
  rw [h0]
  dsimp only
  rcases h1 : t.fdalloc (some f) with ⟨_ | fd, u⟩
  · cases fdalloc_none h1
    obtain ⟨u, hclose, hnone⟩ := hfresh.fileclose (f := f) (by simp)
    dsimp only
    rw [hclose]
    exact ⟨-1, u, rfl, fun _ => hnone.restored (by simp)⟩
  · refine ⟨fd, _, rfl, fun hrv => ?_⟩
    have hpos : (0 : Int) ≤ fd := Int.natCast_nonneg _
    omega

/-- **A call that fails leaves nothing behind.** `pipe` and `open` return, and if they return `-1` the descriptors, the
references and the pages are as they were. -/
theorem failed_calls_undone :
    (∀ mem s, Lib.Reach step (fun _ _ => True) (start mem) s → ∀ p, (s.descs p).Idle) ∧
    ∀ s : Descs Fptr, s.Idle →
      (∀ page copied0 copied1, (∀ pg, page = some pg → s.mem pg = .free) → s.Undoes (s.sysPipe page copied0 copied1)) ∧
      ∀ ip omode, s.Undoes (s.sysOpen ip omode) := by
  refine ⟨fun mem s hr p => ?_, fun s hidle =>
    ⟨fun page copied0 copied1 hpage => sysPipe_undoes hidle hpage copied0 copied1, sysOpen_undoes hidle⟩⟩
  have hinv : Inv s := Lib.Reach.invariant (inv_start mem) (fun _ _ _ hi _ hs => hi.step hs) hr
  exact hinv.idle

/-- The first process makes a pipe, and `copyout` fails. -/
theorem failed_calls_undone_copyout : ((start fun _ => true).descs 0).Undoes
    (((start fun _ => true).descs 0).sysPipe (some 7) true false) := by
  obtain ⟨hreach, hundone⟩ := failed_calls_undone
  exact (hundone _ (hreach (fun _ => true) _ .refl 0)).1 (some 7) true false fun pg _ => rfl

end Descs

end Xv6.Kernel.Ftable
