/-
# Xv6.Fs.Linked — link counts in all states that the system calls reach.

`Linked` is what every call keeps: the tree of `Links`, the inode cache of `Held`, and a reference for
every pointer that a process, a container or an open file has.  Between calls nobody else holds one.

Two calls keep it under a condition only (`allowed`).  An `unlink` may remove a directory that a process
has as its working directory; the directory lives on with its `..`, for which its parent no longer counts
a link.  A `link` may count one link more than a `short` holds.
-/
import Xv6.Lib.Trace
import Xv6.Fs.Editing

namespace Xv6.Fs

open Kernel (Slot Cid Ino CStr CharArr ROOTINO)
open Function List Option
open Lib (Prog Yields orStop Covers count Reach update_cases)
open Sysfile (call)

variable {f : Fptr} {path : CStr} {x : File} {o : Slot → Fd → Option Fptr} {fetched : Bool} {e : Syscall}
  {w : Inodes}

/-! ## The invariant -/

def tables (owed : Iptr → Nat) : Frame := ⟨owed, fun _ => False, none⟩

/-- The file system of `s` while a call holds the references `tmp`. -/
structure Linked (tmp : List Hold) (s : Sys) : Prop where
  tree : Tree s.inodes.nodes
  cached : Cached (tables s.owed) tmp s.inodes
  idle : ∀ f, s.fref f = 0 → (s.file f).type = .none
  root : ∀ t root, (s.files.caller t).cont = some root → root.isroot ≠ 0

variable {s s' : Sys} {t : Slot} {tmp tmp' : List Hold} {F : Frame} {u : Inodes} {ip : Iptr} {i : Ino}
  {v : Bool} {buf buf' : CharArr DIRSIZ} {α : Type} {Q : α → Sys → Prop}

theorem Cached.reframe {F' : Frame} (h : Cached F tmp u)
    (howed : F'.owed + taken tmp' = F.owed + taken tmp)
    (hheld : ∀ y ∈ tmp', (u.cache y.ip).inum = y.inum ∧ (y.valid = true → (u.cache y.ip).valid = true))
    (hcap : ∀ ip, F'.cap (u.cache ip).inum → u.refs ip ≤ taken tmp' ip) (hnew : F'.new = F.new) :
    Cached F' tmp' u where
  covers := howed ▸ h.covers
  held := hheld
  capped := hcap
  uniq := h.uniq
  alloc := h.alloc
  pinned := hnew ▸ h.pinned

theorem Cached.retable {owed owed' : Iptr → Nat} (h : Cached (tables owed) tmp u)
    (howed : owed' + taken tmp' = owed + taken tmp)
    (hheld : ∀ y ∈ tmp', (u.cache y.ip).inum = y.inum ∧
      (y.valid = true → (u.cache y.ip).valid = true)) : Cached (tables owed') tmp' u :=
  h.reframe howed hheld nofun rfl

theorem Linked.admits (h : Linked tmp s) (t : Slot) : Admits (tables s.owed) s t where
  root := h.root t
  dir root ip hcont hdir := by
    obtain ⟨c, -, rfl⟩ := map_eq_some_iff.mp hcont
    exact Nat.add_pos_left (Files.owed_rootdir hdir) _
  cwd ip hcwd := Nat.add_pos_left (Files.owed_cwd hcwd) _
  cap := id
  new := rfl

theorem Linked.of_left (h : Linked tmp s) (hs : Left F tmp' s s') (hF : F.owed = s.owed)
    (hnew : F.new = none) : Linked tmp' s' := by
  obtain ⟨w, d, rfl, htw, hcw⟩ := hs
  exact ⟨htw, hcw.reframe (by rw [hF]; rfl) hcw.held nofun hnew.symm, h.idle, h.root⟩

/-! ## Open files -/

def File.Refers (x : File) (ip : Iptr) : Prop := (x.type = .inode ∨ x.type = .device) ∧ x.ip = some ip
deriving Decidable

theorem File.refers_iff {jp : Iptr} (htype : x.type = .inode ∨ x.type = .device) (hip : x.ip = some ip) :
    x.Refers jp ↔ jp = ip := by
  constructor
  · rintro ⟨-, hjp⟩
    exact some.inj (hjp.symm.trans hip)
  · rintro rfl
    exact ⟨htype, hip⟩

theorem File.not_refers (hx : x.type = .none) (jp : Iptr) : ¬ x.Refers jp := by
  rintro ⟨htype | htype, -⟩ <;> cases hx.symm.trans htype

theorem owed_file (s : Sys) (f : Fptr) (x : File) (ip : Iptr) (r : Fptr → Int) :
    ({ s with fref := r, file := update s.file f x } : Sys).owed ip +
      (if (s.file f).Refers ip then 1 else 0) = s.owed ip + if x.Refers ip then 1 else 0 := by
  have hcount := Lib.count_update (P := fun x : File => x.Refers ip) (f := s.file) f x
  show s.files.owed ip + count (fun x : File => x.Refers ip) (update s.file f x) + _ =
    s.files.owed ip + count (fun x : File => x.Refers ip) s.file + _
  omega

/-- Nothing that the invariant speaks about depends on who has opened a file. -/
theorem Linked.refs (h : Linked tmp s) {r : Fptr → Int}
    (hr : ∀ f, r f = 0 → (s.file f).type = .none) :
    Linked tmp { s with fref := r, ofile := o } := ⟨h.tree, h.cached, hr, h.root⟩

theorem Linked.ref (h : Linked tmp s) {n : Int} (hn : n = 0 → (s.file f).type = .none) :
    Linked tmp { s with fref := update s.fref f n, ofile := o } := by
  refine h.refs fun f' => ?_
  exact update_cases hn (fun f' _ => h.idle f') f'

theorem does_filealloc {g : Option Fptr → FsProg α} (hnone : Does t buf buf' (g none) s Q)
    (hsome : ∀ f, s.fref f = 0 → Does t buf buf' (g (some f)) { s with fref := update s.fref f 1 } Q) :
    Does t buf buf' (call .filealloc >>= g) s Q := by
  refine Prog.meets_call (.ret ?_)
  show Does t buf buf' (g (filealloc s).1) (filealloc s).2 Q
  unfold filealloc
  split
  · exact hnone
  · rename_i f hf
    have hfree := (Fin.find?_eq_some_iff.mp hf).1
    exact hsome f (beq_iff_eq.mp hfree)

theorem does_fdalloc {g : Option Fd → FsProg α} (hnone : Does t buf buf' (g none) s Q)
    (hsome : ∀ fd o, Does t buf buf' (g (some fd)) { s with ofile := o } Q) :
    Does t buf buf' (call (.fdalloc f) >>= g) s Q := by
  refine Prog.meets_call (.ret ?_)
  show Does t buf buf' (g (fdalloc t f s).1) (fdalloc t f s).2 Q
  unfold fdalloc
  split
  · exact hnone
  · exact hsome _ _

theorem Linked.drop (h : Linked tmp s) :
    (∀ ip, ((s.file f).type = .inode ∨ (s.file f).type = .device) → (s.file f).ip = some ip →
      Linked (⟨ip, (s.inodes.cache ip).inum, false⟩ :: tmp) { s with
        fref := update s.fref f 0, file := update s.file f { s.file f with type := .none } }) ∧
    (¬ ((s.file f).type = .inode ∨ (s.file f).type = .device) → Linked tmp { s with
        fref := update s.fref f 0, file := update s.file f { s.file f with type := .none } }) := by
  have hidle : ∀ f', update s.fref f 0 f' = 0 → (update s.file f { s.file f with type := .none } f').type = .none := by
    intro f' hf'
    by_cases hne : f' = f
    · rw [hne, update_self]
    · rw [update_of_ne hne] at hf' ⊢
      exact h.idle f' hf'
  have hnone : ∀ jp, ¬ ({ s.file f with type := .none } : File).Refers jp := File.not_refers rfl
  constructor
  · intro ip htype hip
    refine ⟨h.tree, h.cached.retable ?_ ?_, hidle, h.root⟩
    · funext jp
      have howed := owed_file s f { s.file f with type := .none } jp (update s.fref f 0)
      rw [if_neg (hnone jp)] at howed
      simp only [File.refers_iff htype hip] at howed
      simp only [taken, Pi.add_apply, Pi.single_apply]
      omega
    · intro y hy
      rcases mem_cons.mp hy with rfl | hmem
      · exact ⟨rfl, unchecked⟩
      · exact h.cached.held y hmem
  · intro htype
    refine ⟨h.tree, h.cached.retable ?_ h.cached.held, hidle, h.root⟩
    funext jp
    have howed := owed_file s f { s.file f with type := .none } jp (update s.fref f 0)
    rw [if_neg (hnone jp), if_neg fun hr => htype hr.1, Nat.add_zero, Nat.add_zero] at howed
    exact congrArg (· + taken tmp jp) howed

theorem fileclose_linked (h : Linked tmp s) : Does t buf buf' (Sysfile.fileclose f) s fun _ => Linked tmp := by
  refine Prog.meets_call ?_
  show Safe (dropRef f s) _
  unfold dropRef
  refine Yields.ite (fun _ => .stop Stop.other_ne) fun _ => Yields.ite (fun hmore => .ret ?_) fun _ => .ret ?_
  · exact Prog.meets_pure (h.ref fun hzero => by omega)
  obtain ⟨hinode, hother⟩ := h.drop (f := f)
  have hput : ∀ ip, (s.file f).ip = some ip →
      (s.file f).type = .inode ∨ (s.file f).type = .device →
      Does t buf buf' (call (.iput ip) >>= fun _ => call .endOp) { s with
          fref := update s.fref f 0, file := update s.file f { s.file f with type := .none } }
        fun _ => Linked tmp := by
    intro ip hip htype
    have hc := hinode ip htype hip
    refine does_iput (s := { s with fref := update s.fref f 0
                                    file := update s.file f { s.file f with type := .none } })
      (d := s.dev) hc.cached hc.tree fun w htw hcw => Prog.meets_perform (.ret ?_)
    exact ⟨htw, hcw, hc.idle, hc.root⟩
  dsimp only
  cases htype : (s.file f).type with
  | none => exact Prog.meets_pure (hother (by simp [htype]))
  | pipe => exact Prog.meets_perform (.ret (hother (by simp [htype])))
  | inode | device =>
    refine does_beginOp ?_
    cases hip : (s.file f).ip with
    | none => exact does_panic
    | some ip =>
      have hdone := hput ip hip (by simp [htype])
      dsimp only at hdone
      rw [hip] at hdone
      exact hdone

/-! ## `open` -/

theorem Linked.take (h : Linked (⟨ip, i, v⟩ :: tmp) s) (hf : s.fref f ≠ 0)
    (hold : (s.file f).type = .none) (htype : x.type = .inode ∨ x.type = .device)
    (hip : x.ip = some ip) : Linked tmp { s with file := update s.file f x } := by
  refine ⟨h.tree, h.cached.retable ?_ fun y hy => h.cached.held y (mem_cons_of_mem _ hy), ?_, h.root⟩
  · funext jp
    have howed := owed_file s f x jp s.fref
    rw [if_neg (File.not_refers hold jp)] at howed
    simp only [File.refers_iff htype hip] at howed
    simp only [taken, Pi.add_apply, Pi.single_apply]
    omega
  · intro f' hf'
    have hne : f' ≠ f := by
      rintro rfl
      exact hf hf'
    show (update s.file f x f').type = .none
    rw [update_of_ne hne]
    exact h.idle f' hf'

theorem openInode_linked {omode : BitVec 32} (h : Linked [⟨ip, i, true⟩] s) :
    Does t buf buf' (Sysfile.openInode ip omode) s fun _ => Linked [] := by
  -- the ways out that give the inode back
  have hback : ∀ s' : Sys, Linked [⟨ip, i, true⟩] s' →
      Does t buf buf' (Sysfile.iunlockput ip >>= fun _ => call .endOp >>= fun _ => pure (-1)) s'
        fun _ : Int => Linked [] := by
    intro s' hs'
    refine does_iunlockput (s := s') (d := s'.dev) hs'.cached hs'.tree fun w htw hcw => ?_
    exact does_endOp (Prog.meets_pure ⟨htw, hcw, hs'.idle, hs'.root⟩)
  refine does_fields (s := s) (d := s.dev) h.cached ?_
  refine Prog.meets_ite (fun _ => hback s h) fun _ => does_filealloc (hback s h) fun f hf => ?_
  have hnone : (s.file f).type = .none := h.idle f hf
  have hopen : Linked [⟨ip, i, true⟩] { s with fref := update s.fref f 1 } := h.ref fun _ => hnone
  refine does_fdalloc ?_ fun fd o => ?_
  · exact Prog.Meets.bind ((fileclose_linked hopen).mono fun _ s' hs' => hback s' hs')
  refine Prog.meets_call (.ret (Prog.meets_call (.ret ?_)))
  have hnew : ∀ x : Fields, ((Sysfile.opened ip x omode (s.file f)).type = .inode ∨
      (Sysfile.opened ip x omode (s.file f)).type = .device) ∧
      (Sysfile.opened ip x omode (s.file f)).ip = some ip := by
    intro x
    unfold Sysfile.opened
    split
    · exact ⟨.inr rfl, rfl⟩
    · exact ⟨.inl rfl, rfl⟩
  have hcount : Linked [] { s with
      fref := update s.fref f 1, ofile := o
      file := update s.file f (Sysfile.opened ip ⟨ROOTDEV, i, (s.inodes.nodes i).type,
        (s.dev i).1, (s.dev i).2, (s.inodes.nodes i).nlink⟩ omode (s.file f)) } := by
    have hopen' : Linked [⟨ip, i, true⟩] { s with fref := update s.fref f 1, ofile := o } := hopen.refs hopen.idle
    refine hopen'.take (f := f) ?_ hnone (hnew _).1 (hnew _).2
    show update s.fref f 1 f ≠ 0
    rw [update_self]
    decide
  refine does_iunlock (s := { s with
      fref := update s.fref f 1, ofile := o
      file := update s.file f (Sysfile.opened ip ⟨ROOTDEV, i, (s.inodes.nodes i).type,
        (s.dev i).1, (s.dev i).2, (s.inodes.nodes i).nlink⟩ omode (s.file f)) })
    (d := s.dev) hcount.cached fun w hnw hcw => ?_
  exact does_endOp (Prog.meets_pure ⟨hnw ▸ hcount.tree, hcw, hcount.idle, hcount.root⟩)

theorem create_linked {type : FileType} {major minor : Int} (h : Linked [] s)
    (htype : type ≠ .free) :
    Does t buf buf' (Sysfile.create path type major minor) s fun r s' =>
      (r = none → Linked [] s') ∧ ∀ ip, r = some ip → ∃ i, Linked [⟨ip, i, true⟩] s' := by
  have hspec : Does t buf buf' (Sysfile.create path type major minor) (s.set s.inodes s.dev)
      (Created (tables s.owed) s) := create_left (h.admits t) h.cached h.tree htype
  refine Prog.Meets.mono hspec fun r s' hr => ⟨?_, ?_⟩
  · rintro rfl
    exact h.of_left hr rfl rfl
  · rintro ip rfl
    obtain ⟨i, hleft⟩ := hr
    exact ⟨i, h.of_left hleft rfl rfl⟩

theorem sysOpen_linked {args : Option (CStr × BitVec 32)} (h : Linked [] s) :
    Does t buf buf' (Sysfile.sysOpen args) s fun _ => Linked [] := by
  cases args with
  | none => exact Prog.meets_pure h
  | some args =>
  obtain ⟨path, omode⟩ := args
  refine does_beginOp (Prog.meets_ite (fun _ => ?_) fun _ => ?_)
  · have hfile : FileType.file ≠ .free := FileType.file_ne_free
    refine Prog.Meets.bind ((create_linked h hfile).mono fun r s' hr => ?_)
    cases r with
    | none => exact does_endOp (Prog.meets_pure (hr.1 rfl))
    | some ip =>
      obtain ⟨i, hi⟩ := hr.2 ip rfl
      exact openInode_linked hi
  refine does_namei (s := s) (d := s.dev) (h.admits t) h.cached h.tree.walkable (fun w hnw hcw => ?_)
    fun w ip name i heq hnw hcw => ?_
  · exact does_endOp (Prog.meets_pure ⟨hnw ▸ h.tree, hcw, h.idle, h.root⟩)
  refine does_ilock hcw fun x hnx hcx => does_fields hcx ?_
  have htx : Tree x.nodes := (hnx.trans hnw) ▸ h.tree
  refine Prog.meets_ite (fun _ => ?_) fun _ => ?_
  · refine does_iunlockput hcx htx fun y hty hcy => does_endOp (Prog.meets_pure ?_)
    exact ⟨hty, hcy, h.idle, h.root⟩
  · exact openInode_linked ⟨htx, hcx, h.idle, h.root⟩

theorem sysCreate_linked {type : FileType} {major minor : Int}
    (h : Linked [] s) (htype : type ≠ .free) :
    Does t buf buf' (Sysfile.sysCreate fetched path type major minor) s fun _ => Linked [] := by
  refine does_beginOp (Prog.Meets.bind ((create_linked h htype).mono fun r s' hr => ?_))
  cases r with
  | none => exact does_endOp (Prog.meets_pure (hr.1 rfl))
  | some ip =>
    obtain ⟨i, hi⟩ := hr.2 ip rfl
    refine Prog.meets_ite (fun _ => ?_) fun _ => does_endOp (Prog.meets_pure ?_)
    · refine does_iunlockput (s := s') (d := s'.dev) hi.cached hi.tree fun w htw hcw => ?_
      exact does_endOp (Prog.meets_pure ⟨htw, hcw, hi.idle, hi.root⟩)
    · -- the reference is lost
      exact ⟨hi.tree, hi.cached.drop id, hi.idle, hi.root⟩

/-! ## `link` and `unlink` -/

/-- `link` finds room for one more link at the inode it looks up. -/
def roomFor (t : Slot) (buf : CharArr DIRSIZ) (old : CStr) (s : Sys) : Bool :=
  match namexE (some (s.files.caller t)) old false buf s.inodes with
  | .ok (u, some ip, _) => decide ((u.node ip).nlink < 32767)
  | _ => true

def Unreferenced (s : Inodes) (i : Ino) : Prop := ∀ ip, (s.cache ip).inum = i → s.refs ip = 0
deriving Decidable

/-- Nobody refers to the directory that an `unlink` of this path removes: one that has no entries but
`.` and `..`, found under another name than these. -/
def unwatched (t : Slot) (buf' : CharArr DIRSIZ) (path : CStr) (s : Sys) : Bool :=
  match namexE (some (s.files.caller t)) path true buf' s.inodes with
  | .ok (u, some dp, name) =>
    match findEntry name (u.node dp).ents with
    | some (e, _) =>
      let x := s.inodes.nodes e.inum.toNat
      namecmp name dot == 0 || namecmp name dotdot == 0 || x.type != .dir ||
        !(x.ents.drop 2).all (·.inum == 0) || decide (Unreferenced s.inodes e.inum.toNat)
    | none => true
  | _ => true

theorem roomFor_lt {name : CharArr DIRSIZ}
    (h : roomFor t buf path s = true)
    (heq : namexE (some (s.files.caller t)) path false buf s.inodes = .ok (w, some ip, name)) :
    (w.node ip).nlink + 1 < 2 ^ 15 := by
  unfold roomFor at h
  rw [heq] at h
  have hlt : (w.node ip).nlink < 32767 := of_decide_eq_true h
  omega

theorem unwatched_alone {dp : Iptr} {name : CharArr DIRSIZ} {e : Dirent}
    {k : Nat} (h : unwatched t buf' path s = true)
    (heq : namexE (some (s.files.caller t)) path true buf' s.inodes = .ok (w, some dp, name))
    (hfind : findEntry name (w.node dp).ents = some (e, k)) (hdot : namecmp name dot ≠ 0)
    (hdd : namecmp name dotdot ≠ 0) (hdir : (s.inodes.nodes e.inum.toNat).type = .dir)
    (hbare : Bare (s.inodes.nodes e.inum.toNat).ents) : Unreferenced s.inodes e.inum.toNat := by
  have hall : ((s.inodes.nodes e.inum.toNat).ents.drop 2).all (·.inum == 0) = true :=
    all_eq_true.mpr fun e' he' => beq_iff_eq.mpr (hbare e' he')
  unfold unwatched at h
  rw [heq] at h
  dsimp only at h
  rw [hfind] at h
  simpa [hall, hdir, hdot, hdd] using h

theorem sysLink_linked {old new : Option CStr} (h : Linked [] s)
    (hroom : ∀ path, old = some path → roomFor t buf path s = true) :
    Does t buf buf' (Sysfile.sysLink old new) s fun _ => Linked [] := by
  have hspec : Does t buf buf' (Sysfile.sysLink old new) (s.set s.inodes s.dev)
      fun _ => Left (tables s.owed) [] s :=
    sysLink_left (h.admits t) h.cached h.tree fun path w ip name hold heq =>
      roomFor_lt (hroom path hold) heq
  rw [Sys.set_self] at hspec
  exact hspec.mono fun _ s' hs' => h.of_left hs' rfl rfl

def alone (s : Sys) : Frame := ⟨s.owed, fun i => i ≠ ROOTINO ∧ Unreferenced s.inodes i, none⟩

theorem sysUnlink_linked {path : Option CStr} (h : Linked [] s)
    (hfree : ∀ p, path = some p → unwatched t buf' p s = true) :
    Does t buf buf' (Sysfile.sysUnlink path) s fun _ => Linked [] := by
  have hspec : Does t buf buf' (Sysfile.sysUnlink path) (s.set s.inodes s.dev)
      fun _ => Left (alone s) [] s := by
    have ha := h.admits t
    have hcached : Cached (alone s) [] s.inodes :=
      h.cached.reframe rfl nofun (fun ip hip => Int.le_of_eq (hip.2 ip rfl)) rfl
    refine sysUnlink_left ⟨ha.root, ha.dir, ha.cwd, fun h0 => h0.1 rfl, rfl⟩ hcached h.tree ?_
    intro p w dp name e k hp heq hfind hdot hdd hdir hbare hroot
    exact ⟨hroot, unwatched_alone (hfree p hp) heq hfind hdot hdd hdir hbare⟩
  rw [Sys.set_self] at hspec
  exact hspec.mono fun _ s' hs' => h.of_left hs' rfl rfl

/-! ## Processes -/

theorem owed_proc (s : Sys) (t : Slot) (p : FsProc) (u : Inodes) (ip : Iptr) :
    ({ s with files := { s.files with inodes := u, proc := update s.files.proc t p } } : Sys).owed ip +
      (if (s.files.proc t).cwd = some ip then 1 else 0) =
      s.owed ip + if p.cwd = some ip then 1 else 0 := by
  have hcount := Lib.count_update (P := fun p : FsProc => p.cwd = some ip) (f := s.files.proc) t p
  show count (fun p : FsProc => p.cwd = some ip) (update s.files.proc t p) +
      count (fun c : Root => c.rootdir = some ip) s.files.cont + _ + _ =
    count (fun p : FsProc => p.cwd = some ip) s.files.proc +
      count (fun c : Root => c.rootdir = some ip) s.files.cont + _ + _
  dsimp only
  omega

theorem Linked.proc {p : FsProc} {u : Inodes} (h : Linked tmp s) (t t' : Slot)
    (hcont : p.cont = (s.files.proc t').cont) (ht : Tree u.nodes)
    (hc : Cached (tables ({ s with files :=
      { s.files with inodes := u, proc := update s.files.proc t p } } : Sys).owed) tmp' u) :
    Linked tmp' { s with files := { s.files with inodes := u, proc := update s.files.proc t p } } := by
  refine ⟨ht, hc, h.idle, fun t'' root hroot => ?_⟩
  by_cases hne : t'' = t
  · subst hne
    refine h.root t' root ?_
    show (s.files.proc t').cont.map s.files.cont = some root
    rw [← hcont]
    simpa [Files.caller] using hroot
  · refine h.root t'' root ?_
    simpa [Files.caller, update_of_ne hne] using hroot

section

variable (h : Linked [] s)
include h

theorem sysChdir_linked : Does t buf buf' (Sysfile.sysChdir fetched path) s fun _ => Linked [] := by
  refine does_beginOp ?_
  refine does_namei (s := s) (d := s.dev) (h.admits t) h.cached h.tree.walkable (fun w hnw hcw => ?_)
    fun w ip name i heq hnw hcw => ?_
  · exact does_endOp (Prog.meets_pure ⟨hnw ▸ h.tree, hcw, h.idle, h.root⟩)
  refine Prog.meets_ite (fun _ => ?_) fun _ => ?_
  · exact does_endOp (Prog.meets_pure ⟨hnw ▸ h.tree, hcw.drop id, h.idle, h.root⟩)
  refine does_ilock hcw fun x hnx hcx => does_fields hcx ?_
  have htx : Tree x.nodes := (hnx.trans hnw) ▸ h.tree
  refine Prog.meets_ite (fun _ => ?_) fun _ => ?_
  · refine does_iunlockput hcx htx fun y hty hcy => does_endOp (Prog.meets_pure ?_)
    exact ⟨hty, hcy, h.idle, h.root⟩
  refine does_iunlock hcx fun y hny hcy => ?_
  refine does_cwd (fun _ => ?_) fun old hold => ?_
  · exact does_panic
  -- the reference of the new directory takes the place of the old one's
  have hswap : Cached (tables ({ s with files := { s.files with
      inodes := y, proc := update s.files.proc t { s.files.proc t with cwd := some ip } } } : Sys).owed)
      [⟨old, (y.cache old).inum, false⟩] y := by
    refine hcy.retable ?_ ?_
    · funext jp
      have howed := owed_proc s t { s.files.proc t with cwd := some ip } y jp
      simp only [hold, some.injEq] at howed
      simp only [taken, Pi.add_apply, Pi.single_apply, Pi.zero_apply, eq_comm (a := jp)]
      omega
    · intro z hz
      rw [mem_singleton.mp hz]
      exact ⟨rfl, unchecked⟩
  refine does_iput hswap (hny ▸ htx) fun z htz hcz => does_endOp (Prog.meets_call (.ret ?_))
  exact Prog.meets_pure (Linked.proc (s := s) h t t rfl htz hcz)

theorem closeFd_linked {fd : Fd} : Safe (closeFd t s fd) (Linked []) := by
  unfold closeFd
  cases hfd : s.ofile t fd with
  | none => exact .ret h
  | some f =>
    have hclose : Does t (fun _ => 0) (fun _ => 0) (Sysfile.fileclose f) s fun _ => Linked [] := fileclose_linked h
    refine Yields.bind (Yields.mono hclose fun r hr => .ret ?_)
    exact hr.refs hr.idle

theorem sysExit_linked : Safe (sysExit t s) (Linked []) := by
  have hfiles : ∀ (fds : List Fd) (s : Sys), Linked [] s → Safe (fds.foldlM (closeFd t) s) (Linked []) := by
    intro fds
    induction fds with
    | nil => exact fun s hs => .ret hs
    | cons fd fds ih =>
      intro s hs
      rw [foldlM_cons]
      exact Yields.bind ((closeFd_linked hs).mono fun s' hs' => ih s' hs')
  refine Yields.bind ((hfiles _ s h).mono fun s' h' => ?_)
  refine Yields.bind (Lib.yields_orStop Stop.other_ne fun cwd hcwd => ?_)
  refine Yields.bind (Lib.yields_orStop Stop.other_ne fun u hu => .ret ?_)
  have hgive : Cached (tables ({ s' with files := { s'.files with
      inodes := u, proc := update s'.files.proc t { s'.files.proc t with cwd := none } } } : Sys).owed)
      [⟨cwd, (s'.inodes.cache cwd).inum, false⟩] s'.inodes := by
    refine h'.cached.retable ?_ ?_
    · funext jp
      have howed := owed_proc s' t { s'.files.proc t with cwd := none } u jp
      simp only [hcwd, some.injEq, reduceCtorEq, if_false] at howed
      simp only [taken, Pi.add_apply, Pi.single_apply, Pi.zero_apply, eq_comm (a := jp)]
      omega
    · intro z hz
      rw [mem_singleton.mp hz]
      exact ⟨rfl, unchecked⟩
  obtain ⟨htu, hcu⟩ := put_tree hgive h'.tree hu
  exact h'.proc t t rfl htu hcu

theorem dupFd_linked {child : Slot} {fd : Fd} :
    Safe (dupFd t child s fd) fun s' => Linked [] s' ∧ s'.files = s.files := by
  unfold dupFd
  cases hfd : s.ofile t fd with
  | none => exact .ret ⟨h, rfl⟩
  | some f =>
    refine Yields.ite (fun _ => .stop Stop.other_ne) fun hpos => .ret ⟨h.ref fun hzero => ?_, rfl⟩
    omega

theorem sysFork_linked {child : Slot} : Safe (sysFork t child s) (Linked []) := by
  have hfiles : ∀ (fds : List Fd) (s : Sys), Linked [] s →
      Safe (fds.foldlM (dupFd t child) s) fun s' => Linked [] s' ∧ s'.files = s.files := by
    intro fds
    induction fds with
    | nil => exact fun s hs => .ret ⟨hs, rfl⟩
    | cons fd fds ih =>
      intro s hs
      rw [foldlM_cons]
      refine Yields.bind ((dupFd_linked hs).mono fun s' hs' => ?_)
      exact (ih s' hs'.1).mono fun s'' hs'' => ⟨hs''.1, hs''.2.trans hs'.2⟩
  refine Yields.ite (fun _ => .stop Stop.other_ne) fun hfree => ?_
  refine Yields.bind ((hfiles _ s h).mono fun s' ⟨h', hsame⟩ => ?_)
  refine Yields.bind (Lib.yields_orStop Stop.other_ne fun cwd hcwd => .ret ?_)
  have hunused : (s'.files.proc child).cwd = none := by
    rw [hsame]
    simpa using hfree
  have hpos : 0 < (tables s'.owed).owed cwd := Nat.add_pos_left (Files.owed_cwd hcwd) _
  have hdup := h'.cached.acquire (h'.cached.pos_owed hpos)
  refine h'.proc child t rfl h'.tree (hdup.retable ?_ nofun)
  funext jp
  have howed := owed_proc s' child { s'.files.proc t with cwd := some cwd } (idup cwd s'.inodes) jp
  simp only [hunused, some.injEq, reduceCtorEq, if_false] at howed
  simp only [taken, Pi.add_apply, Pi.single_apply, Pi.zero_apply, eq_comm (a := jp)]
  omega

end

/-- What a call must find: `link` room for a link, `unlink` nobody in the directory that it removes. -/
def allowed (s : Sys) (e : Syscall) : Bool :=
  match e.call with
  | .link (some old) _ => roomFor e.proc e.buf old s
  | .unlink (some path) => unwatched e.proc e.buf' path s
  | _ => true

theorem exec_linked {p : FsProg Int}
    (h : Does e.proc e.buf e.buf' p s fun _ => Linked []) : Safe (e.exec p s) (Linked []) :=
  Yields.map h

/-- **One system call** keeps the tree, the counts and the references, and does not stop in `ilock` for
want of a type. -/
theorem syscall_linked (h : Linked [] s) (hok : allowed s e = true) : Safe (syscall e s) (Linked []) := by
  obtain ⟨t, buf, buf', c⟩ := e
  cases c with
  | openFile args => exact exec_linked (sysOpen_linked h)
  | mkdir fetched path =>
    have hdir : FileType.dir ≠ .free := FileType.dir_ne_free
    exact exec_linked (sysCreate_linked h hdir)
  | mknod fetched path major minor =>
    have hdev : FileType.device ≠ .free := nofun
    exact exec_linked (sysCreate_linked h hdev)
  | link old new =>
    refine exec_linked (sysLink_linked h fun path hpath => ?_)
    subst hpath
    exact hok
  | unlink path =>
    refine exec_linked (sysUnlink_linked h fun p hp => ?_)
    subst hp
    exact hok
  | chdir fetched path => exact exec_linked (sysChdir_linked h)
  | close fd => exact closeFd_linked h
  | fork child => exact sysFork_linked h
  | exit => exact sysExit_linked h

end Xv6.Fs
