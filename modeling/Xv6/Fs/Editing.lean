/-
# Xv6.Fs.Editing — `link`, `unlink` and `create` keep the directory tree and its link counts.

The calls that work on the tree change inodes and device numbers only (`Sys.set`).  Each function they
call has one rule here; the calls are then followed from one rule to the next, with the inodes they have
changed so far written out, and the tree they leave is one of those in `Links`.

An `unlink` that removes a directory counts on being the only one to refer to it: then its last `iput`
frees the inode, and the `..` entry in it is gone together with the link it was counted for.
-/
import Xv6.Fs.Links

namespace Xv6.Fs

open Kernel (Slot Ino CStr CharArr ROOTINO)
open Function List
open Lib (Prog Yields orStop update_same)
open Sysfile (call)

/-! ## Rules -/

def Sys.set (s : Sys) (u : Inodes) (d : Ino → Int × Int) : Sys :=
  { s with files := { s.files with inodes := u }, dev := d }

theorem Sys.set_self (s : Sys) : s.set s.inodes s.dev = s := rfl

/-- What a call may count on: its process is in the root container, and its pointers are owed their
references. -/
structure Admits (F : Frame) (s : Sys) (t : Slot) : Prop where
  root : ∀ root, (s.files.caller t).cont = some root → root.isroot ≠ 0
  dir : ∀ root ip, (s.files.caller t).cont = some root → root.rootdir = some ip → 0 < F.owed ip
  cwd : ∀ ip, (s.files.caller t).cwd = some ip → 0 < F.owed ip
  cap : ¬ F.cap ROOTINO
  new : F.new = none

section Rules

variable (t : Slot) (buf buf' : CharArr DIRSIZ)

/-- Programs of process `t` that do not stop in `ilock` for want of a type. -/
abbrev Does {α : Type} (p : FsProg α) (s : Sys) (Q : α → Sys → Prop) : Prop :=
  p.Meets (handle t buf buf') (· ≠ Stop.noType) s Q

variable {t buf buf'} {α : Type} {F : Frame} {tmp : List Hold} {s : Sys} {u : Inodes} {f : Bool → FsProg α}
  {path : CStr}
  {d : Ino → Int × Int} {ip dp : Iptr} {i c : Ino} {v : Bool} {name : CharArr DIRSIZ}
  {Q : α → Sys → Prop}

theorem does_beginOp {f : Unit → FsProg α} (h : Does t buf buf' (f ()) s Q) :
    Does t buf buf' (call .beginOp >>= f) s Q := Prog.meets_call (.ret h)

theorem does_endOp {f : Unit → FsProg α} (h : Does t buf buf' (f ()) s Q) :
    Does t buf buf' (call .endOp >>= f) s Q := Prog.meets_call (.ret h)

theorem does_panic : Does t buf buf' (Sysfile.panic : FsProg α) s Q := Prog.meets_call (.stop Stop.other_ne)

theorem does_ilock {f : Unit → FsProg α} (hc : Cached F (⟨ip, i, v⟩ :: tmp) u)
    (h : ∀ w : Inodes, w.nodes = u.nodes → Cached F (⟨ip, i, true⟩ :: tmp) w → Does t buf buf' (f ()) (s.set w d) Q) :
    Does t buf buf' (call (.ilock ip) >>= f) (s.set u d) Q :=
  Prog.meets_call (Yields.map (hc.lock.mono fun w hw => h w hw.1 hw.2))

theorem does_iunlock {f : Unit → FsProg α} (hc : Cached F tmp u)
    (h : ∀ w : Inodes, w.nodes = u.nodes → Cached F tmp w → Does t buf buf' (f ()) (s.set w d) Q) :
    Does t buf buf' (call (.iunlock ip) >>= f) (s.set u d) Q := by
  refine Prog.meets_call (Yields.map (Lib.yields_orStop Stop.other_ne fun w hw => ?_))
  obtain ⟨hnodes, hcw⟩ := hc.unlock hw
  exact h w hnodes hcw

theorem does_fields {f : Fields → FsProg α} (hc : Cached F (⟨ip, i, v⟩ :: tmp) u)
    (h : Does t buf buf' (f ⟨ROOTDEV, i, (u.nodes i).type, (d i).1, (d i).2, (u.nodes i).nlink⟩)
      (s.set u d) Q) :
    Does t buf buf' (call (.fields ip) >>= f) (s.set u d) Q := by
  obtain rfl := hc.inum
  exact Prog.meets_call (.ret h)

theorem does_cwd {f : Option Iptr → FsProg α}
    (hnone : (s.files.proc t).cwd = none → Does t buf buf' (f none) (s.set u d) Q)
    (hsome : ∀ cwd, (s.files.proc t).cwd = some cwd → Does t buf buf' (f (some cwd)) (s.set u d) Q) :
    Does t buf buf' (call .cwd >>= f) (s.set u d) Q := by
  refine Prog.meets_call (.ret ?_)
  show Does t buf buf' (f (s.files.proc t).cwd) _ _
  cases hcwd : (s.files.proc t).cwd with
  | none => exact hnone hcwd
  | some cwd => exact hsome cwd hcwd

theorem does_iupdate {f : Unit → FsProg α} {x : Fields} (hc : Cached F (⟨ip, i, true⟩ :: tmp) u)
    (hx : x.type ≠ .free)
    (h : ∀ (w : Inodes) (d : Ino → Int × Int),
      w.nodes = update u.nodes i { u.nodes i with type := x.type, nlink := x.nlink } →
      Cached F (⟨ip, i, true⟩ :: tmp) w → Does t buf buf' (f ()) (s.set w d) Q) :
    Does t buf buf' (call (.iupdate ip x) >>= f) (s.set u d) Q := by
  obtain ⟨hnodes, hcw⟩ := hc.setNode (x := { u.node ip with type := x.type, nlink := x.nlink }) hx
  exact Prog.meets_call (.ret (h _ _ (hnodes.trans (by rw [hc.node])) hcw))

theorem lookup_does {parent : Bool} {b : CharArr DIRSIZ} {P : Inodes × Option Iptr × CharArr DIRSIZ → Prop}
    (ha : Admits F s t) (hc : Cached F tmp u) (hw : Walkable u.nodes)
    (hnone : ∀ (w : Inodes) name, w.nodes = u.nodes → Cached F tmp w → P (w, none, name))
    (hsome : ∀ (w : Inodes) ip name i, namexE (some (s.files.caller t)) path parent b u = .ok (w, some ip, name) →
      w.nodes = u.nodes → Cached F (⟨ip, i, false⟩ :: tmp) w → P (w, some ip, name)) :
    Safe (namexE (some (s.files.caller t)) path parent b u) P := by
  have hlook : Safe (namexE (some (s.files.caller t)) path parent b u) fun r =>
      r.1.nodes = u.nodes ∧ Handed F tmp r.1 r.2.1 := namex_held hc hw ha.root ha.cap ha.dir ha.cwd
  refine hlook.with_eq.mono ?_
  rintro ⟨w, r, name⟩ ⟨heq, hnodes, hr⟩
  cases r with
  | none => exact hnone w name hnodes hr
  | some ip =>
    obtain ⟨i, hcw, -⟩ := hr
    exact hsome w ip name i heq hnodes hcw

theorem does_namei {f : Option Iptr → FsProg α} (ha : Admits F s t)
    (hc : Cached F tmp u) (hw : Walkable u.nodes)
    (hnone : ∀ w : Inodes, w.nodes = u.nodes → Cached F tmp w → Does t buf buf' (f none) (s.set w d) Q)
    (hsome : ∀ (w : Inodes) ip name i,
      namexE (some (s.files.caller t)) path false buf u = .ok (w, some ip, name) →
      w.nodes = u.nodes → Cached F (⟨ip, i, false⟩ :: tmp) w →
      Does t buf buf' (f (some ip)) (s.set w d) Q) :
    Does t buf buf' (call (.namei path) >>= f) (s.set u d) Q :=
  Prog.meets_call (Yields.map (lookup_does (s := s) ha hc hw (fun w _ => hnone w) hsome))

theorem does_nameiparent {f : Option (Iptr × CharArr DIRSIZ) → FsProg α}
    (ha : Admits F s t) (hc : Cached F tmp u) (hw : Walkable u.nodes)
    (hnone : ∀ w : Inodes, w.nodes = u.nodes → Cached F tmp w → Does t buf buf' (f none) (s.set w d) Q)
    (hsome : ∀ (w : Inodes) ip name i,
      namexE (some (s.files.caller t)) path true buf' u = .ok (w, some ip, name) →
      w.nodes = u.nodes → Cached F (⟨ip, i, false⟩ :: tmp) w →
      Does t buf buf' (f (some (ip, name))) (s.set w d) Q) :
    Does t buf buf' (call (.nameiparent path) >>= f) (s.set u d) Q :=
  Prog.meets_call (Yields.map (lookup_does (s := s) ha hc hw (fun w _ => hnone w) hsome))

theorem does_dirlookup {f : Option (Iptr × Nat) → FsProg α} (hc : Cached F (⟨dp, c, v⟩ :: tmp) u)
    (hw : Walkable u.nodes)
    (hnone : (u.nodes c).type = .dir → findEntry name (u.nodes c).ents = none → Does t buf buf' (f none) (s.set u d) Q)
    (hsome : ∀ (w : Inodes) ip e k, (u.nodes c).type = .dir →
      findEntry name (u.nodes c).ents = some (e, k) → w.nodes = u.nodes →
      Cached F (⟨ip, e.inum.toNat, false⟩ :: ⟨dp, c, v⟩ :: tmp) w →
      Does t buf buf' (f (some (ip, 16 * k))) (s.set w d) Q) :
    Does t buf buf' (call (.dirlookup dp name) >>= f) (s.set u d) Q := by
  obtain rfl := hc.inum
  refine Prog.meets_call (Yields.map ?_)
  show Safe (dirlookupOff dp name u) _
  unfold dirlookupOff
  refine Yields.ite (fun _ => .stop Stop.other_ne) fun hdir => ?_
  have hdir : (u.nodes (u.cache dp).inum).type = .dir := not_not.mp hdir
  cases hfind : findEntry name (u.node dp).ents with
  | none => exact .ret (hnone hdir hfind)
  | some r =>
    obtain ⟨e, k⟩ := r
    obtain ⟨hk, hlive, -⟩ := findEntry_some hfind
    have htype := (hw.named _ e (mem_of_getElem? hk) hlive).1
    refine Yields.map ((hc.get htype).mono ?_)
    rintro ⟨w, ip⟩ ⟨hnodes, hcw⟩
    exact hsome w ip e k hdir hfind hnodes hcw

theorem does_dirlink_notdir (hc : Cached F (⟨dp, c, v⟩ :: tmp) u)
    (hdir : (u.nodes c).type ≠ .dir) :
    Does t buf buf' (call (.dirlink dp name i) >>= f) (s.set u d) Q := by
  refine Prog.meets_call (Yields.map ?_)
  show Safe (dirlink dp name i u) _
  unfold dirlink dirlookupOff
  rw [hc.node, if_pos hdir]
  exact .stop Stop.other_ne

theorem does_dirlink_add (hc : Cached F (⟨dp, c, true⟩ :: tmp) u)
    (hdir : (u.nodes c).type = .dir) (hfind : findEntry name (u.nodes c).ents = none)
    (h : ∀ w : Inodes, w.nodes = update u.nodes c
        { u.nodes c with ents := addEntry ⟨.ofNat i, entryName name⟩ (u.nodes c).ents } →
      Cached F (⟨dp, c, true⟩ :: tmp) w → Does t buf buf' (f true) (s.set w d) Q) :
    Does t buf buf' (call (.dirlink dp name i) >>= f) (s.set u d) Q := by
  refine Prog.meets_call (Yields.map ?_)
  show Safe (dirlink dp name i u) _
  unfold dirlink dirlookupOff
  rw [hc.node, hdir, hfind]
  refine Yields.bind ?_
  rw [if_neg (not_not.mpr rfl)]
  refine .ret ?_
  dsimp only
  rw [hc.node]
  refine Yields.ite (fun _ => .stop Stop.other_ne) fun _ => .ret ?_
  have hset := hc.setNode
    (x := { u.nodes c with ents := addEntry ⟨.ofNat i, entryName name⟩ (u.nodes c).ents })
    (by rw [hdir]; exact FileType.dir_ne_free)
  exact h _ hset.1 hset.2

theorem does_dirlink_found {e : Dirent} {k : Nat}
    (hc : Cached F (⟨dp, c, v⟩ :: tmp) u) (hw : Walkable u.nodes) (hdir : (u.nodes c).type = .dir)
    (hfind : findEntry name (u.nodes c).ents = some (e, k))
    (h : ∀ w : Inodes, w.nodes = u.nodes → Cached F (⟨dp, c, v⟩ :: tmp) w → Does t buf buf' (f false) (s.set w d) Q) :
    Does t buf buf' (call (.dirlink dp name i) >>= f) (s.set u d) Q := by
  obtain ⟨hk, hlive, -⟩ := findEntry_some hfind
  obtain ⟨htype, hlink⟩ := hw.named _ e (mem_of_getElem? hk) hlive
  refine Prog.meets_call (Yields.map ?_)
  show Safe (dirlink dp name i u) _
  unfold dirlink dirlookupOff
  rw [hc.node, hdir, hfind]
  refine Yields.bind ?_
  rw [if_neg (not_not.mpr rfl)]
  refine Yields.map ((hc.get htype).mono ?_)
  rintro ⟨w, ip⟩ ⟨hnodes, hcw⟩
  refine Yields.map (Lib.yields_orStop Stop.other_ne fun x hx => ?_)
  obtain ⟨hnx, hcx⟩ := hcw.putKeep (.inl (by rwa [hnodes])) hx
  exact h x (hnx.trans hnodes) hcx

theorem does_isdirempty (hc : Cached F (⟨ip, i, v⟩ :: tmp) u)
    (hyes : Bare (u.nodes i).ents → Does t buf buf' (f true) (s.set u d) Q)
    (hno : Does t buf buf' (f false) (s.set u d) Q) :
    Does t buf buf' (call (.isdirempty ip) >>= f) (s.set u d) Q := by
  obtain rfl := hc.inum
  refine Prog.meets_call (.ret ?_)
  show Does t buf buf' (f (isdirempty ip u)) (s.set u d) Q
  cases hempty : isdirempty ip u with
  | false => exact hno
  | true =>
    refine hyes fun e he => ?_
    have hall := all_eq_true.mp hempty e he
    exact beq_iff_eq.mp hall

theorem does_writeEntry {k : Nat} {de : Dirent}
    (hc : Cached F (⟨dp, c, true⟩ :: tmp) u) (hdir : (u.nodes c).type ≠ .free)
    (hk : k < (u.nodes c).ents.length)
    (h : ∀ w : Inodes, w.nodes = update u.nodes c { u.nodes c with ents := (u.nodes c).ents.set k de } →
      Cached F (⟨dp, c, true⟩ :: tmp) w → Does t buf buf' (f true) (s.set w d) Q) :
    Does t buf buf' (call (.writeEntry dp (16 * k) de) >>= f) (s.set u d) Q := by
  have hwrite : writeEntry dp (16 * k) de u =
      (u.setNode dp { u.nodes c with ents := (u.nodes c).ents.set k de }, true) := by
    unfold writeEntry
    rw [hc.node, Nat.mul_div_cancel_left k (by decide)]
    exact if_pos hk
  have hset := hc.setNode (x := { u.nodes c with ents := (u.nodes c).ents.set k de }) hdir
  refine Prog.meets_call (.ret ?_)
  show Does t buf buf' (f (writeEntry dp (16 * k) de u).2) (s.set (writeEntry dp (16 * k) de u).1 d) Q
  rw [hwrite]
  exact h _ hset.1 hset.2

theorem does_ialloc {f : Option Iptr → FsProg α} {type : FileType} (ha : F.new = none)
    (hc : Cached F tmp u) (htype : type ≠ .free)
    (h : ∀ (w : Inodes) (d : Ino → Int × Int) ip i, 0 < i → i < NINODES → (u.nodes i).type = .free →
      w.nodes = update u.nodes i ⟨type, 0, []⟩ →
      Cached { F with new := some i } (⟨ip, i, false⟩ :: tmp) w →
      Does t buf buf' (f (some ip)) (s.set w d) Q) :
    Does t buf buf' (call (.ialloc type) >>= f) (s.set u d) Q := by
  refine Prog.meets_call (Yields.map ((hc.alloc_new ha htype).mono ?_))
  rintro ⟨w, ip⟩ hw
  obtain ⟨i, hpos, hlt, hfree, hnodes, hcw⟩ := hw
  exact h w _ ip i hpos hlt hfree hnodes hcw

end Rules

/-! ## Giving references back -/

def Left (F : Frame) (tmp : List Hold) (s s' : Sys) : Prop :=
  ∃ u d, s' = s.set u d ∧ Tree u.nodes ∧ Cached F tmp u

section Calls

variable {t : Slot} {buf buf' : CharArr DIRSIZ} {α : Type} {F : Frame} {tmp : List Hold} {s : Sys}
  {u : Inodes} {d : Ino → Int × Int} {ip dp : Iptr} {i c : Ino} {v : Bool} {name : CharArr DIRSIZ}
  {Q : α → Sys → Prop}

section

variable (hc : Cached F (⟨ip, i, v⟩ :: tmp) u)
include hc

theorem put_tree {w : Inodes} (ht : Tree u.nodes)
    (hw : iput ip u = some w) : Tree w.nodes ∧ Cached F tmp w := by
  obtain ⟨hcw, hnodes | ⟨hlink, -, hnodes⟩⟩ := hc.put hw
  · exact ⟨hnodes ▸ ht, hcw⟩
  · rw [hnodes]
    exact ⟨ht.free hc.type_ne hlink, hcw⟩

theorem does_iput {f : Unit → FsProg α} (ht : Tree u.nodes)
    (h : ∀ w : Inodes, Tree w.nodes → Cached F tmp w → Does t buf buf' (f ()) (s.set w d) Q) :
    Does t buf buf' (call (.iput ip) >>= f) (s.set u d) Q := by
  refine Prog.meets_call (Yields.map (Lib.yields_orStop Stop.other_ne fun w hw => ?_))
  obtain ⟨htw, hcw⟩ := put_tree hc ht hw
  exact h w htw hcw

theorem does_iunlockput {f : Unit → FsProg α}
    (ht : Tree u.nodes)
    (h : ∀ w : Inodes, Tree w.nodes → Cached F tmp w → Does t buf buf' (f ()) (s.set w d) Q) :
    Does t buf buf' (Sysfile.iunlockput ip >>= f) (s.set u d) Q := by
  refine does_iunlock hc fun w hnw hcw => ?_
  exact does_iput hcw (hnw ▸ ht) h

theorem does_iunlockput_keep {f : Unit → FsProg α}
    (hlink : (u.nodes i).nlink ≠ 0)
    (h : ∀ w : Inodes, w.nodes = u.nodes → Cached F tmp w → Does t buf buf' (f ()) (s.set w d) Q) :
    Does t buf buf' (Sysfile.iunlockput ip >>= f) (s.set u d) Q := by
  refine does_iunlock hc fun w hnw hcw => ?_
  refine Prog.meets_call (Yields.map (Lib.yields_orStop Stop.other_ne fun x hx => ?_))
  obtain ⟨hnx, hcx⟩ := hcw.putKeep (.inl (hnw ▸ hlink)) hx
  exact h x (hnx.trans hnw) hcx

end

theorem does_iunlockput_free {f : Unit → FsProg α} (hc : Cached F [⟨ip, i, true⟩] u)
    (hlink : (u.nodes i).nlink = 0) (hcap : F.cap i)
    (h : ∀ w : Inodes, w.nodes = update u.nodes i (u.nodes i).freed → Cached F [] w →
      Does t buf buf' (f ()) (s.set w d) Q) :
    Does t buf buf' (Sysfile.iunlockput ip >>= f) (s.set u d) Q := by
  refine does_iunlock hc fun w hnw hcw => ?_
  refine Prog.meets_call (Yields.map (Lib.yields_orStop Stop.other_ne fun x hx => ?_))
  obtain ⟨hnx, hcx⟩ := hcw.putFree hcap (hnw ▸ hlink) hx
  exact h x (by rw [hnx, hnw]) hcx

/-! ## `link` -/

theorem short_eq {n : Int} (h0 : 0 ≤ n) (h : n < 2 ^ 15) : short n = n := by
  refine Int.bmod_eq_of_le ?_ ?_
  · omega
  · omega

theorem walkable_link (ht : Tree u.nodes) (hi : (u.nodes i).type ≠ .free) {w : Inodes}
    (hw : w.nodes = update u.nodes i { u.nodes i with nlink := (u.nodes i).nlink + 1 }) :
    Walkable w.nodes := by
  have htype : ∀ j, (w.nodes j).type = (u.nodes j).type := by
    rw [hw]
    exact update_same Dinode.type rfl
  have hents : ∀ j, (w.nodes j).ents = (u.nodes j).ents := by
    rw [hw]
    exact update_same Dinode.ents rfl
  refine ⟨by rw [htype]; exact ht.walkable.root, fun k e he hlive => ?_⟩
  rw [hents] at he
  refine ⟨by rw [htype]; exact ht.named k e he hlive, ?_⟩
  by_cases hj : e.inum.toNat = i
  · rw [hw, hj, update_self]
    have := ht.count i hi
    show (u.nodes i).nlink + 1 ≠ 0
    omega
  · rw [hw, update_of_ne hj]
    exact Int.ne_of_gt (ht.named_pos he hlive)

theorem linkBad_left {N : Ino → Dinode} (ht : Tree N) (hi : (N i).type ≠ .free)
    (hmax : (N i).nlink + 1 < 2 ^ 15)
    (hn : u.nodes = update N i { N i with nlink := (N i).nlink + 1 })
    (hc : Cached F [⟨ip, i, true⟩] u) :
    Does t buf buf' (Sysfile.linkBad ip) (s.set u d) fun _ => Left F [] s := by
  refine does_ilock hc fun w hnw hcw => ?_
  refine does_fields hcw ?_
  have hnode : w.nodes i = { N i with nlink := (N i).nlink + 1 } := by rw [hnw, hn, update_self]
  refine does_iupdate hcw (by rw [hnode]; exact hi) fun x d hnx hcx => ?_
  -- the inodes are what they were
  have hback : x.nodes = N := by
    have hcount := ht.count i hi
    have hshort : short ((N i).nlink + 1 - 1) = (N i).nlink := by
      rw [Int.add_sub_cancel]
      exact short_eq (by omega) (by omega)
    rw [hnx, hnode]
    dsimp only
    rw [hshort, hnw, hn, update_idem]
    exact update_eq_self _ _
  refine does_iunlockput hcx (hback ▸ ht) fun y hty hcy => does_endOp (Prog.meets_pure ?_)
  exact ⟨y, d, rfl, hty, hcy⟩

/-- **`sys_link`** keeps the tree, when the count of the inode it links has room. -/
theorem sysLink_left {old new : Option CStr} (ha : Admits F s t) (hc : Cached F [] u)
    (ht : Tree u.nodes)
    (hmax : ∀ path w ip name, old = some path →
      namexE (some (s.files.caller t)) path false buf u = .ok (w, some ip, name) →
      (w.node ip).nlink + 1 < 2 ^ 15) :
    Does t buf buf' (Sysfile.sysLink old new) (s.set u d) fun _ => Left F [] s := by
  have hstay : ∀ w : Inodes, w.nodes = u.nodes → Cached F [] w → Left F [] s (s.set w d) :=
    fun w hnw hcw => ⟨w, d, rfl, hnw ▸ ht, hcw⟩
  cases old with
  | none => exact Prog.meets_pure (hstay u rfl hc)
  | some old =>
  cases new with
  | none => exact Prog.meets_pure (hstay u rfl hc)
  | some new =>
  refine does_beginOp ?_
  refine does_namei ha hc ht.walkable (fun w hnw hcw => ?_) fun w ip name i heq hnw hcw => ?_
  · exact does_endOp (Prog.meets_pure (hstay w hnw hcw))
  have hroom : (u.nodes i).nlink + 1 < 2 ^ 15 := by
    have := hmax old w ip name rfl heq
    rwa [hcw.node, hnw] at this
  have halloc : (u.nodes i).type ≠ .free := hnw ▸ hcw.type_ne
  refine does_ilock hcw fun x hnx hcx => does_fields hcx ?_
  have hnx : x.nodes = u.nodes := hnx.trans hnw
  rw [hnx]
  refine Prog.meets_ite (fun _ => ?_) fun hdir => ?_
  · refine does_iunlockput hcx (hnx ▸ ht) fun y hty hcy => does_endOp (Prog.meets_pure ?_)
    exact ⟨y, d, rfl, hty, hcy⟩
  have hdir : (u.nodes i).type ≠ .dir := hdir
  refine does_iupdate hcx halloc fun y d hny hcy => ?_
  -- from here on the count is one too high
  have hny : y.nodes = update u.nodes i { u.nodes i with nlink := (u.nodes i).nlink + 1 } := by
    have hcount := ht.count i halloc
    rw [hny, hnx]
    dsimp only
    rw [short_eq (by omega) hroom]
  refine does_iunlock hcy fun z hnz hcz => ?_
  have hnz : z.nodes = update u.nodes i { u.nodes i with nlink := (u.nodes i).nlink + 1 } := hnz.trans hny
  refine does_nameiparent ha hcz (walkable_link ht halloc hnz) (fun a hna hca => ?_)
    fun a dp name' c heq' hna hca => ?_
  · exact linkBad_left ht halloc hroom (hna.trans hnz) hca
  refine does_ilock hca fun b hnb hcb => does_fields hcb ?_
  have hnb : b.nodes = update u.nodes i { u.nodes i with nlink := (u.nodes i).nlink + 1 } := hnb.trans (hna.trans hnz)
  refine Prog.meets_ite (fun hdev => absurd rfl hdev) fun _ => ?_
  by_cases hcdir : (b.nodes c).type = .dir
  swap
  · exact does_dirlink_notdir hcb hcdir
  have hci : c ≠ i := by
    rintro rfl
    rw [hnb, update_self] at hcdir
    exact hdir hcdir
  have hnode : b.nodes c = u.nodes c := by rw [hnb, update_of_ne hci]
  have hdlink : (b.nodes c).nlink ≠ 0 := by
    rw [hnode] at hcdir ⊢
    exact Int.ne_of_gt (ht.dir_nlink hcdir)
  cases hfind : findEntry name' (b.nodes c).ents with
  | some r =>
    obtain ⟨e, k⟩ := r
    refine does_dirlink_found hcb (walkable_link ht halloc hnb) hcdir hfind fun g hng hcg => ?_
    refine does_iunlockput_keep hcg (hng ▸ hdlink) fun g' hng' hcg' => ?_
    exact linkBad_left ht halloc hroom (hng'.trans (hng.trans hnb)) hcg'
  | none =>
    refine does_dirlink_add hcb hcdir hfind fun g hng hcg => ?_
    have htree : Tree g.nodes := by
      rw [hnode] at hfind hcdir hng
      rw [hng, hnb]
      exact ht.link hcdir hfind halloc hdir hroom
    refine does_iunlockput hcg htree fun g' htg' hcg' => ?_
    refine does_iput hcg' htg' fun g'' htg'' hcg'' => does_endOp (Prog.meets_pure ?_)
    exact ⟨g'', d, rfl, htg'', hcg''⟩

/-! ## `unlink` -/

theorem unlinkBad_left (hc : Cached F [⟨dp, c, v⟩] u) (ht : Tree u.nodes) :
    Does t buf buf' (Sysfile.unlinkBad dp) (s.set u d) fun _ => Left F [] s := by
  refine does_iunlockput hc ht fun w htw hcw => does_endOp (Prog.meets_pure ?_)
  exact ⟨w, d, rfl, htw, hcw⟩

section

variable (hc : Cached F [⟨ip, c, true⟩, ⟨dp, i, true⟩] u)
include hc

theorem unlinkEntry_file {e : Dirent} {k : Nat}
    (ht : Tree u.nodes) (hdir : (u.nodes i).type = .dir)
    (hfind : findEntry name (u.nodes i).ents = some (e, k)) (hdot : namecmp name dot ≠ 0)
    (hdd : namecmp name dotdot ≠ 0) (hname : e.inum.toNat = c) (hfile : (u.nodes c).type ≠ .dir)
    (major minor : Int) :
    Does t buf buf' (Sysfile.unlinkEntry dp ip (16 * k)
        ⟨ROOTDEV, c, (u.nodes c).type, major, minor, (u.nodes c).nlink⟩) (s.set u d)
      fun _ => Left F [] s := by
  have hfree : (u.nodes c).type ≠ .free := hc.type_ne
  have hci : c ≠ i := by
    rintro rfl
    exact hfile hdir
  obtain ⟨hk, hlive, -⟩ := findEntry_some hfind
  obtain ⟨hlen, -⟩ := List.getElem?_eq_some_iff.mp hk
  refine does_writeEntry (hc.perm (.swap _ _ _)) (by rw [hdir]; exact FileType.dir_ne_free) hlen fun w hnw hcw => ?_
  refine Prog.meets_ite nofun fun _ => ?_
  unfold Sysfile.dropUp
  rw [if_neg hfile]
  have hdlink : (w.nodes i).nlink ≠ 0 := by
    rw [hnw, update_self]
    exact Int.ne_of_gt (ht.dir_nlink hdir)
  refine does_iunlockput_keep hcw hdlink fun x hnx hcx => ?_
  have hnode : x.nodes c = u.nodes c := by rw [hnx, hnw, update_of_ne hci]
  refine does_iupdate hcx hfree fun y d hny hcy => ?_
  have htree : Tree y.nodes := by
    have hpos : 0 < (u.nodes c).nlink := hname ▸ ht.named_pos (mem_of_getElem? hk) hlive
    have hsmall := ht.small c hfree
    rw [hny, hnode, hnx, hnw, update_comm hci.symm]
    dsimp only
    rw [short_eq (by omega) (by omega)]
    exact ht.unlink hdir rfl hfind hdot hdd hname hfree hfile
  refine does_iunlockput hcy htree fun z htz hcz => does_endOp (Prog.meets_pure ?_)
  exact ⟨z, d, rfl, htz, hcz⟩

theorem unlinkEntry_dir {e : Dirent} {k : Nat}
    (ht : Tree u.nodes) (hdir : (u.nodes i).type = .dir)
    (hfind : findEntry name (u.nodes i).ents = some (e, k)) (hdot : namecmp name dot ≠ 0)
    (hdd : namecmp name dotdot ≠ 0) (hname : e.inum.toNat = c) (hcdir : (u.nodes c).type = .dir)
    (hbare : Bare (u.nodes c).ents) (hcap : F.cap c) (major minor : Int) :
    Does t buf buf' (Sysfile.unlinkEntry dp ip (16 * k)
        ⟨ROOTDEV, c, (u.nodes c).type, major, minor, (u.nodes c).nlink⟩) (s.set u d)
      fun _ => Left F [] s := by
  obtain ⟨hroot, hup⟩ := ht.found_dir hdir hfind hdot hdd hname hcdir
  have hci : c ≠ i := by
    rintro rfl
    exact ht.up_ne hbare hroot hcdir hup
  have hone : (u.nodes c).nlink = 1 := by
    rw [ht.count c hc.type_ne, ht.links_bare hcdir hroot hbare]
    rfl
  have hnot : (u.nodes i).type ≠ .free := by
    rw [hdir]
    nofun
  have htree := ht.rmdir (z := ⟨0, fun _ => 0⟩) hdir rfl hfind hdot hdd hname hcdir hbare
    { u.nodes c with nlink := 0 }
  -- the directory above keeps at least one link
  have hpos : 0 < (u.nodes i).nlink - 1 := by
    have hlinks := htree.dir_nlink (c := i) (by rw [edited_dir]; exact hdir)
    rwa [edited_dir] at hlinks
  obtain ⟨hk, -⟩ := findEntry_some hfind
  obtain ⟨hlen, -⟩ := List.getElem?_eq_some_iff.mp hk
  refine does_writeEntry (hc.perm (.swap _ _ _)) hnot hlen fun w hnw hcw => ?_
  refine Prog.meets_ite nofun fun _ => ?_
  unfold Sysfile.dropUp
  rw [if_pos hcdir]
  have hnode : w.nodes i =
      { u.nodes i with ents := (u.nodes i).ents.set k ⟨0, fun _ => 0⟩ } := by
    rw [hnw, update_self]
  refine Prog.Meets.bind (does_fields hcw ?_)
  show Does t buf buf' (call (.iupdate dp _) >>= pure) _ _
  refine does_iupdate hcw (by rw [hnode]; exact hnot) fun x d hnx hcx => Prog.meets_pure ?_
  have hnx : x.nodes = update u.nodes i { u.nodes i with
      nlink := (u.nodes i).nlink - 1, ents := (u.nodes i).ents.set k ⟨0, fun _ => 0⟩ } := by
    have hsmall := ht.small i hnot
    rw [hnx, hnode, hnw, update_idem]
    dsimp only
    rw [short_eq (by omega) (by omega)]
  have hdlink : (x.nodes i).nlink ≠ 0 := by rw [hnx, update_self]; exact Int.ne_of_gt hpos
  refine does_iunlockput_keep hcx hdlink fun y hny hcy => ?_
  have hny : y.nodes = x.nodes := hny
  have hsame : y.nodes c = u.nodes c := by rw [hny, hnx, update_of_ne hci]
  refine does_iupdate hcy (by rw [hcdir]; exact FileType.dir_ne_free) fun z d hnz hcz => ?_
  have hnz : z.nodes = update x.nodes c { u.nodes c with nlink := 0 } := by
    rw [hnz, hsame, hny]
    dsimp only
    rw [hone, short_eq (by decide) (by decide)]
    rfl
  have hzero : z.nodes c = { u.nodes c with nlink := 0 } := by rw [hnz, update_self]
  refine does_iunlockput_free hcz (by rw [hzero]) hcap fun g hng hcg => does_endOp (Prog.meets_pure ?_)
  refine ⟨g, d, rfl, ?_, hcg⟩
  rw [hng, hzero, hnz, update_idem, hnx, update_comm (Ne.symm hci)]
  exact htree

end

/-- **`sys_unlink`** keeps the tree, when nobody refers to the directory that it removes. -/
theorem sysUnlink_left {path : Option CStr} (ha : Admits F s t) (hc : Cached F [] u)
    (ht : Tree u.nodes)
    (hcap : ∀ p w dp name e k, path = some p →
      namexE (some (s.files.caller t)) p true buf' u = .ok (w, some dp, name) →
      findEntry name (w.node dp).ents = some (e, k) → namecmp name dot ≠ 0 →
      namecmp name dotdot ≠ 0 → (u.nodes e.inum.toNat).type = .dir →
      Bare (u.nodes e.inum.toNat).ents → e.inum.toNat ≠ ROOTINO → F.cap e.inum.toNat) :
    Does t buf buf' (Sysfile.sysUnlink path) (s.set u d) fun _ => Left F [] s := by
  cases path with
  | none => exact Prog.meets_pure ⟨u, d, rfl, ht, hc⟩
  | some path =>
  refine does_beginOp ?_
  refine does_nameiparent ha hc ht.walkable (fun w hnw hcw => ?_) fun w dp name i heq hnw hcw => ?_
  · exact does_endOp (Prog.meets_pure ⟨w, d, rfl, hnw ▸ ht, hcw⟩)
  refine does_ilock hcw fun x hnx hcx => ?_
  have hnx : x.nodes = u.nodes := hnx.trans hnw
  have htx : Tree x.nodes := hnx ▸ ht
  refine Prog.meets_ite (fun _ => unlinkBad_left hcx htx) fun hdots => ?_
  obtain ⟨hdot, hdd⟩ := not_or.mp hdots
  refine does_dirlookup hcx htx.walkable (fun _ _ => unlinkBad_left hcx htx)
    fun y ip e k hdir hfind hny hcy => ?_
  refine does_ilock hcy fun z hnz hcz => does_fields hcz ?_
  have hnz : z.nodes = u.nodes := hnz.trans (hny.trans hnx)
  have htz : Tree z.nodes := hnz ▸ ht
  rw [hnx, ← hnz] at hdir hfind
  refine Prog.meets_ite (fun _ => does_panic) fun _ => Prog.meets_ite (fun hcdir => ?_) fun hfile => ?_
  · refine does_isdirempty hcz (fun hbare => ?_) ?_
    · have hcdir : (z.nodes e.inum.toNat).type = .dir := hcdir
      obtain ⟨hroot, -⟩ := htz.found_dir hdir hfind hdot hdd rfl hcdir
      refine unlinkEntry_dir hcz htz hdir hfind hdot hdd rfl hcdir hbare ?_ _ _
      rw [hnz] at hcdir hbare hfind
      refine hcap path w dp name e k rfl heq ?_ hdot hdd hcdir hbare hroot
      rw [hcw.node, hnw]
      exact hfind
    · refine does_iunlockput hcz htz fun g htg hcg => ?_
      exact unlinkBad_left hcg htg
  · exact unlinkEntry_file hcz htz hdir hfind hdot hdd rfl hfile _ _

/-! ## `create` -/

def Created (F : Frame) (s : Sys) : Option Iptr → Sys → Prop
  | none, s' => Left F [] s s'
  | some ip, s' => ∃ i, Left F [⟨ip, i, true⟩] s s'

theorem entryName_dot : entryName dot = dot := by decide

theorem entryName_dotdot : entryName dotdot = dotdot := by decide

theorem ofNat_ne_zero (hi : 0 < i) (h : i < NINODES) : UInt16.ofNat i ≠ 0 := by
  intro h0
  have hval : (UInt16.ofNat i).toNat = i := UInt16.toNat_ofNat_of_lt (Tree.range_lt h)
  rw [h0] at hval
  exact Nat.ne_of_gt hi hval.symm

theorem does_name {N : Ino → Dinode} {x : Dinode} {n : Int} (hc : Cached F [⟨ip, i, true⟩, ⟨dp, c, true⟩] u)
    (hdir : (N c).type = .dir) (hfind : findEntry name (N c).ents = none)
    (hn : u.nodes = update (update N i x) c { N c with nlink := n })
    (ht : Tree (edited N i x c n (addEntry ⟨.ofNat i, entryName name⟩ (N c).ents))) :
    Does t buf buf' (call (.dirlink dp name i) >>= fun linked =>
        if !linked then Sysfile.panic else Sysfile.iunlockput dp >>= fun _ => pure (some ip))
      (s.set u d) (Created F s) := by
  have hnode : u.nodes c = { N c with nlink := n } := by rw [hn, update_self]
  refine does_dirlink_add (hc.perm (.swap _ _ _)) (by rw [hnode]; exact hdir)
    (by rw [hnode]; exact hfind) fun w hnw hcw => ?_
  refine Prog.meets_ite nofun fun _ => ?_
  have htree : Tree w.nodes := by rw [hnw, hnode, hn, update_idem]; exact ht
  refine does_iunlockput hcw htree fun y hty hcy => Prog.meets_pure ?_
  exact ⟨i, y, d, rfl, hty, hcy⟩

theorem createNew_left {type : FileType} {major minor : Int} (ha : Admits F s t)
    (hc : Cached F [⟨dp, c, true⟩] u) (ht : Tree u.nodes) (hdir : (u.nodes c).type = .dir)
    (hfind : findEntry name (u.nodes c).ents = none) (htype : type ≠ .free) :
    Does t buf buf' (Sysfile.createNew dp name type major minor) (s.set u d) (Created F s) := by
  refine does_ialloc ha.new hc htype fun w d ip i hpos hlt hfree hnw hcw => ?_
  have hci : c ≠ i := by
    rintro rfl
    rw [hdir] at hfree
    cases hfree
  refine does_ilock hcw fun x hnx hcx => does_fields hcx ?_
  have hcx := hcx.settle
  have hnx : x.nodes = update u.nodes i ⟨type, 0, []⟩ := hnx.trans hnw
  have hnode : x.nodes i = ⟨type, 0, []⟩ := by rw [hnx, update_self]
  rw [hnode]
  refine does_iupdate hcx htype fun y d hny hcy => ?_
  have hny : y.nodes = update u.nodes i ⟨type, 1, []⟩ := by rw [hny, hnode, hnx, update_idem]
  have hnc : y.nodes c = u.nodes c := by rw [hny, update_of_ne hci]
  refine Prog.Meets.bind ?_
  unfold Sysfile.createNew.dots
  by_cases hnew : type = .dir
  swap
  · rw [if_neg hnew]
    refine Prog.meets_pure (does_name hcy hdir hfind ?_ (ht.create hdir hfind ⟨hpos, hlt⟩ hfree hnew htype))
    rw [hny]
    exact (Function.update_eq_self_iff.mpr (by rw [update_of_ne hci])).symm
  subst hnew
  rw [if_pos rfl]
  refine does_fields (hcy.perm (.swap _ _ _)) ?_
  rw [hnc]
  refine does_iupdate (hcy.perm (.swap _ _ _)) (by rw [hdir]; exact FileType.dir_ne_free) fun z d hnz hcz => ?_
  have hnz : z.nodes = update (update u.nodes i ⟨.dir, 1, []⟩) c
      { u.nodes c with nlink := (u.nodes c).nlink + 1 } := by
    have hle : links u.nodes c ≤ 400 := ht.dir_le hdir
    have hcount := ht.count c (by rw [hdir]; exact FileType.dir_ne_free)
    rw [hnz, hnc, hny]
    dsimp only
    rw [short_eq (by omega) (by omega)]
  have hni : z.nodes i = ⟨.dir, 1, []⟩ := by rw [hnz, update_of_ne (Ne.symm hci), update_self]
  refine does_dirlink_add (hcz.perm (.swap _ _ _)) (by rw [hni]) (by rw [hni]; rfl) fun g hng hcg => ?_
  rw [hni, entryName_dot] at hng
  have hgi : g.nodes i = ⟨.dir, 1, [⟨.ofNat i, dot⟩]⟩ := by rw [hng, update_self]; rfl
  refine Prog.meets_ite (fun _ => ?_) fun hno => absurd rfl hno
  show Does t buf buf' (call (.dirlink ip dotdot c) >>= pure) _ _
  have hmiss : findEntry dotdot (g.nodes i).ents = none := by
    rw [hgi]
    show (if _ then _ else _) = none
    rw [if_neg]
    · rfl
    · rintro ⟨-, hname⟩
      revert hname
      show ¬ namecmp dotdot dot = 0
      decide
  refine does_dirlink_add hcg (by rw [hgi]) hmiss fun h hnh hch => Prog.meets_pure ?_
  rw [hgi, entryName_dotdot] at hnh
  refine does_name (n := (u.nodes c).nlink + 1)
    (x := ⟨.dir, 1, [⟨.ofNat i, dot⟩, ⟨.ofNat c, dotdot⟩]⟩) hch hdir hfind ?_
    (ht.mkdir hdir hfind ⟨hpos, hlt⟩ hfree)
  have hents : addEntry ⟨.ofNat c, dotdot⟩ [⟨.ofNat i, dot⟩] = [⟨.ofNat i, dot⟩, ⟨.ofNat c, dotdot⟩] := by
    rw [addEntry, if_neg (ofNat_ne_zero hpos hlt)]
    rfl
  rw [hnh, hng, update_idem, hnz, update_comm hci, update_idem]
  dsimp only
  rw [hents]

/-- **`create`** keeps the tree. -/
theorem create_left {path : CStr} {type : FileType} {major minor : Int} (ha : Admits F s t)
    (hc : Cached F [] u) (ht : Tree u.nodes) (htype : type ≠ .free) :
    Does t buf buf' (Sysfile.create path type major minor) (s.set u d) (Created F s) := by
  refine does_nameiparent ha hc ht.walkable (fun w hnw hcw => ?_) fun w dp name c heq hnw hcw => ?_
  · exact Prog.meets_pure ⟨w, d, rfl, hnw ▸ ht, hcw⟩
  refine does_ilock hcw fun x hnx hcx => ?_
  have htx : Tree x.nodes := (hnx.trans hnw) ▸ ht
  refine does_dirlookup hcx htx.walkable (fun hdir hfind => ?_) fun y ip e k hdir hfind hny hcy => ?_
  · exact createNew_left ha hcx htx hdir hfind htype
  have hty : Tree y.nodes := hny ▸ htx
  refine does_iunlockput (hcy.perm (.swap _ _ _)) hty fun z htz hcz => ?_
  refine does_ilock hcz fun g hng hcg => does_fields hcg ?_
  have htg : Tree g.nodes := hng ▸ htz
  refine Prog.meets_ite (fun _ => Prog.meets_pure ⟨_, g, d, rfl, htg, hcg⟩) fun _ => ?_
  refine does_iunlockput hcg htg fun h hth hch => Prog.meets_pure ?_
  exact ⟨h, d, rfl, hth, hch⟩

end Calls

end Xv6.Fs
