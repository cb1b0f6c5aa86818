/-
# Xv6.Fs.Path — path names (`skipelem`, `namex`, `namei`, `nameiparent` of `kernel/fs.c`; `sys_chdir` of
`kernel/sysfile.c`).

The loop of `namex` takes one component off the path in each round, so it is given as many rounds as
the path has bytes: `namexLoop_eq` is the loop of the source, without a bound.  Containers other than
the root keep the directory they are in when the next one is the root of the file system, and do not
give back the references of the directories they leave.
-/
import Xv6.Fs.Inode

namespace Xv6.Fs

open Kernel (Slot Cid Ino CStr CharArr NINODE ROOTINO)
open Function List
open Lib (Covers count)

abbrev slash : UInt8 := 47

/-- The two `memmove`s of `skipelem`: a component of fewer than `DIRSIZ` bytes is terminated. -/
def setName (elem : List UInt8) (name : CharArr DIRSIZ) : CharArr DIRSIZ := fun i =>
  if elem.length ≥ DIRSIZ ∨ i.val < elem.length then elem.getD i 0
  else if i.val = elem.length then 0
  else name i

/-- `skipelem(path, name)`: the rest of the path, and the buffer with the next component. -/
def skipelem (path : List UInt8) (name : CharArr DIRSIZ) : Option (List UInt8 × CharArr DIRSIZ) :=
  let path := path.dropWhile (· == slash)
  if path = [] then none
  else
    let elem := path.takeWhile (· != slash)
    let path := path.dropWhile (· != slash)
    some (path.dropWhile (· == slash), setName elem name)

/-! ## Lookup -/

structure Root where
  isroot : Int
  rootdir : Option Iptr

structure Caller where
  slot : Slot
  cont : Option Root
  cwd : Option Iptr

inductive Walk
  | next (ip : Iptr)
  | done (r : Option Iptr)

def leaveDir (me : Caller) (root : Root) (ip : Iptr) (s : Inodes) : Option Inodes :=
  if root.isroot ≠ 0 then iunlockput me.slot ip s else iunlock me.slot ip s

/-- One round of `namex` in directory `ip`, with `name` the component; `last` says that
`nameiparent` stops here. -/
def namexRound (me : Caller) (rootip : Iptr) (last : Bool) (name : CharArr DIRSIZ) (ip : Iptr)
    (s : Inodes) : Option (Inodes × Walk) := do
  let s ← ilock me.slot ip s
  if (s.node ip).type ≠ .dir then (iunlockput me.slot ip s).map (·, .done none)
  else if last then (iunlock me.slot ip s).map (·, .done (some ip))
  else do
    let (s, next) ← dirlookup ip name s
    match next with
    | none => (iunlockput me.slot ip s).map (·, .done none)
    | some next => do
      let root ← me.cont
      let s ← leaveDir me root ip s
      return (s, .next
        (if root.isroot ≠ 0 ∨ (s.cache next).inum ≠ (s.cache rootip).inum then next else ip))

def namexEnd (parent : Bool) (name : CharArr DIRSIZ) (ip : Iptr) (s : Inodes) :
    Option (Inodes × Option Iptr × CharArr DIRSIZ) :=
  if parent then (iput ip s).map (·, none, name) else some (s, some ip, name)

/-- The loop of `namex`; without a process, the first `ilock` reads through a null pointer. -/
def namexLoop (me : Option Caller) (parent : Bool) (rootip : Iptr) :
    Nat → List UInt8 → CharArr DIRSIZ → Iptr → Inodes → Option (Inodes × Option Iptr × CharArr DIRSIZ)
  | 0, _, name, ip, s => namexEnd parent name ip s
  | fuel + 1, path, name, ip, s =>
    match skipelem path name with
    | none => namexEnd parent name ip s
    | some (path, name) => do
      let me' ← me
      let (s, w) ← namexRound me' rootip (parent && path.isEmpty) name ip s
      match w with
      | .done r => some (s, r, name)
      | .next ip => namexLoop me parent rootip fuel path name ip s

def namexStart (me : Option Caller) (path : CStr) (rootip : Iptr) (s : Inodes) : Option (Inodes × Iptr) :=
  match me with
  | none => some (s, rootip)
  | some p =>
    if path.get 0 = slash then
      (p.cont.bind (·.rootdir)).map fun ip => (idup ip s, ip)
    else p.cwd.map fun ip => (idup ip s, ip)

/-- `namex(path, nameiparent, name)`: the inode, if there is one, and the buffer `name`.  The reference
to `rootip` is never given back. -/
def namex (me : Option Caller) (path : CStr) (parent : Bool) (name : CharArr DIRSIZ) (s : Inodes) :
    Option (Inodes × Option Iptr × CharArr DIRSIZ) := do
  let (s, rootip) ← iget ROOTINO s
  let (s, ip) ← namexStart me path rootip s
  namexLoop me parent rootip path.strlen path.bytes name ip s

/-- `namei(path)`; `name` is what its buffer held before. -/
def namei (me : Option Caller) (path : CStr) (name : CharArr DIRSIZ) (s : Inodes) :
    Option (Inodes × Option Iptr) :=
  (namex me path false name s).map fun (s, ip, _) => (s, ip)

def nameiparent (me : Option Caller) (path : CStr) (name : CharArr DIRSIZ) (s : Inodes) :
    Option (Inodes × Option Iptr × CharArr DIRSIZ) := namex me path true name s

/-! ## What `skipelem` leaves -/

theorem nameAt_setName {s : List UInt8} {old : CharArr DIRSIZ} {k : Nat} (hk : k < s.length) (hlt : k < 14) :
    nameAt (setName s old) k = s.getD k 0 := by
  unfold nameAt setName
  rw [dif_pos hlt, if_pos (.inr hk)]

theorem nameAt_setName_end {s : List UInt8} {old : CharArr DIRSIZ} (h : s.length < 14) :
    nameAt (setName s old) s.length = 0 := by
  unfold nameAt setName
  rw [dif_pos h, if_neg, if_pos rfl]
  rintro (hge | hlt)
  · exact absurd h (Nat.not_lt.mpr hge)
  · exact Nat.lt_irrefl _ hlt

theorem skipelem_length {path rest : List UInt8} {name name' : CharArr DIRSIZ}
    (h : skipelem path name = some (rest, name')) : rest.length < path.length := by
  unfold skipelem at h
  dsimp only at h
  split at h
  · cases h
  rename_i hne
  cases h
  obtain ⟨b, l, hl⟩ := exists_cons_of_ne_nil hne
  have hb : (b != slash) = true := by
    have hhead := head?_dropWhile_not (· == slash) path
    rw [hl] at hhead
    simpa using hhead
  have hdrop : ((path.dropWhile (· == slash)).dropWhile (· != slash)).length ≤ l.length := by
    rw [hl, dropWhile_cons, if_pos hb]
    exact (dropWhile_suffix _).length_le
  calc (((path.dropWhile (· == slash)).dropWhile (· != slash)).dropWhile (· == slash)).length
      ≤ l.length := (dropWhile_suffix _).length_le.trans hdrop
    _ < (b :: l).length := Nat.lt_succ_self _
    _ ≤ path.length := by
        rw [← hl]
        exact (dropWhile_suffix _).length_le

theorem skipelem_nil (name : CharArr DIRSIZ) : skipelem [] name = none := rfl

section Loop

variable {me : Option Caller} {parent : Bool} {rootip : Iptr}

/-- Rounds beyond the length of the path change nothing. -/
theorem namexLoop_fuel (n m : Nat) (path : List UInt8) (hn : path.length ≤ n) (hm : path.length ≤ m)
    (name : CharArr DIRSIZ) (ip : Iptr) (s : Inodes) :
    namexLoop me parent rootip n path name ip s = namexLoop me parent rootip m path name ip s := by
  induction n generalizing m path name ip s with
  | zero =>
    have hpath : path = [] := length_eq_zero_iff.mp (Nat.le_zero.mp hn)
    subst hpath
    cases m with
    | zero => rfl
    | succ m => simp [namexLoop, skipelem_nil]
  | succ n ih =>
    cases m with
    | zero =>
      have hpath : path = [] := length_eq_zero_iff.mp (Nat.le_zero.mp hm)
      subst hpath
      simp [namexLoop, skipelem_nil]
    | succ m =>
      unfold namexLoop
      split
      · rfl
      rename_i rest name' hskip
      have hlen := skipelem_length hskip
      congr 1
      funext me'
      congr 1
      funext ⟨s, w⟩
      cases w with
      | done r => rfl
      | next ip => exact ih m rest (by omega) (by omega) name' ip s

/-- **The loop of the source**: with a round for each byte of the path, `namexLoop` goes on until
`skipelem` returns `0`. -/
theorem namexLoop_eq (path : List UInt8) (name : CharArr DIRSIZ) (ip : Iptr) (s : Inodes) :
    namexLoop me parent rootip path.length path name ip s =
      match skipelem path name with
      | none => namexEnd parent name ip s
      | some (path, name) => me.bind fun me' =>
        (namexRound me' rootip (parent && path.isEmpty) name ip s).bind fun (s, w) =>
          match w with
          | .done r => some (s, r, name)
          | .next ip => namexLoop me parent rootip path.length path name ip s := by
  rw [namexLoop_fuel path.length (path.length + 1) path (le_refl _) (Nat.le_succ _), namexLoop]
  cases hskip : skipelem path name with
  | none => rfl
  | some r =>
    obtain ⟨rest, name'⟩ := r
    have hlen := skipelem_length hskip
    simp only [Option.bind_eq_bind]
    congr 1
    funext me'
    congr 1
    funext ⟨s, w⟩
    cases w with
    | done r => rfl
    | next ip => exact namexLoop_fuel _ _ rest (by omega) (le_refl _) name' ip s

end Loop

end Xv6.Fs
