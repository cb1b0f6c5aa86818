/-
# Xv6.Fs.Reserve — a write fits into its reservation in the log (`filewrite` and `filewritefromkernel` of
`kernel/file.c`, with their `log_write`s).

The functions of `Alloc` are given once more with a note of every block that is passed to `log_write` and of
every copy from the user; without the notes they are the same functions (`filewrite_result`).  What
`climitexceedhandler` makes of a container that asked for too much is a parameter, and the bound does not depend on it.

The free map, the inode and block `0`, with which the code goes on when it was given no block, are always
allowed for.  A turn of the loop may log two new blocks, its own and one that was zeroed and then refused, but
not two turns in a row: a refused block leaves bit `0` of the free map clear, where the next search ends.
-/
import Xv6.Fs.Filewrite
import Xv6.Lib.Noted

namespace Xv6.Fs.Logging

open Function List
open Kernel (Cid Container BSIZE)
open Lib (Noted Outside)
open Lib.Noted (note plain)

/-! ## The code, with notes of what it does -/

inductive Op
  | logWrite (b : BlockNo)
  /-- `len` bytes were copied from the user; `there` is the address that the inode has for their block. -/
  | copyIn (there : BlockNo) (len : Nat)

def Op.block : Op → Option BlockNo
  | logWrite b => some b
  | copyIn _ _ => none

def logged (l : List Op) : List BlockNo := l.filterMap Op.block

@[simp] theorem logged_nil : logged [] = [] := rfl

@[simp] theorem logged_append (l l' : List Op) : logged (l ++ l') = logged l ++ logged l' := filterMap_append

@[simp] theorem logged_logWrite (b : BlockNo) (l : List Op) : logged (.logWrite b :: l) = b :: logged l := rfl

@[simp] theorem logged_map (l : List BlockNo) : logged (l.map .logWrite) = l := by
  unfold logged
  rw [filterMap_map]
  exact filterMap_some

@[simp] theorem logged_copyIn (there : BlockNo) (len : Nat) (l : List Op) : logged (.copyIn there len :: l) = logged l := rfl

section Code

variable (sb : Superblock) (c : Cid) (stop : Container → Container)

def bfree (b : BlockNo) (st : Store) : Noted BlockNo Panic Store := do
  let st ← plain (Fs.bfree sb c b st)
  note (sb.bblock b.toNat)
  pure st

/-- `balloc(dev)`: `log_write` of the free map, and in `bzero` of the block. -/
def balloc (st : Store) : Noted BlockNo Panic (BlockNo × Store) :=
  match ballocScan sb st.disk with
  | none => pure (0, { st with full := true })
  | some (b, bi) => do
    let a := BitVec.ofNat 32 (b + bi)
    let charged := (st.cont c).updatedsk (BitVec.ofNat 64 BSIZE)
    let st := { st with
      disk := update (setBit sb (b + bi) true st.disk) a fun _ => 0
      cont := update st.cont c charged.1 }
    note (sb.bblock b)
    note a
    if charged.2 < 0 then
      let st ← bfree sb c (BitVec.ofNat 32 b) st
      pure (0, { st with limited := true, cont := update st.cont c (stop (st.cont c)) })
    else pure (a, st)

/-- The address in `ip->addrs[k]`, allocated if necessary. -/
def bmapAddr (x : DiskInode) (k : Fin 13) (st : Store) : Noted BlockNo Panic (BlockNo × DiskInode × Store) :=
  if x.addrs k = 0 then do
    let (a, st) ← balloc sb c stop st
    pure (a, { x with addrs := update x.addrs k a }, st)
  else pure (x.addrs k, x, st)

/-- The address in entry `j` of the indirect block `blk`, allocated if necessary; the indirect block is then
logged. -/
def bmapEntry (blk : BlockNo) (j : Fin 256) (st : Store) : Noted BlockNo Panic (BlockNo × Store) :=
  if st.disk blk j = 0 then do
    let (a, st) ← balloc sb c stop st
    note blk
    pure (a, { st with disk := update st.disk blk (update (st.disk blk) j a) })
  else pure (st.disk blk j, st)

def bmap (x : DiskInode) (bn : Nat) (st : Store) : Noted BlockNo Panic (BlockNo × DiskInode × Store) :=
  if h : bn < 12 then bmapAddr sb c stop x ⟨bn, lt_addrs h⟩ st
  else if h : bn - 12 < 256 then do
    let (blk, x, st) ← bmapAddr sb c stop x (Fin.last 12) st
    let (a, st) ← bmapEntry sb c stop blk ⟨bn - 12, h⟩ st
    pure (a, x, st)
  else plain (.error .bmapOutOfRange)

/-- The loop of `writei`: a block is logged when the copy has reached its end. -/
def writeLoop (src : Nat → Option (BitVec 8)) (n : Nat) :
    Nat → Nat → Nat → DiskInode → Store → Noted Op Panic (Nat × DiskInode × Store)
  | 0, _, off, x, st => pure (off, x, st)
  | fuel + 1, tot, off, x, st =>
    if tot < n then do
      let (a, x, st) ← (bmap sb c stop x (off / BSIZE) st).lift .logWrite
      let m := min (n - tot) (BSIZE - off % BSIZE)
      let len := reach (fun k => (src k).isSome) tot m
      note (.copyIn (x.addrAt st.disk (.ofBlock (off / BSIZE))) len)
      let blk := overwrite (st.disk a) (off % BSIZE) len fun k => (src (tot + k)).getD 0
      let st := { st with disk := update st.disk a blk }
      if len < m then pure (off, x, st)
      else
        note (.logWrite a)
        writeLoop src n fuel (tot + m) (off + m) x st
    else pure (off, x, st)

/-- `writei(ip, user_src, src, off, n)` for inode `i`: `iupdate` logs its block. -/
def writei (i : Nat) (x : DiskInode) (src : Nat → Option (BitVec 8)) (off n : BitVec 32) (st : Store) :
    Noted Op Panic (Int × DiskInode × Store) :=
  if x.size < off ∨ off + n < off then pure (-1, x, st)
  else if MAXFILE * BSIZE < (off + n).toNat then pure (-1, x, st)
  else do
    let (off, x, st) ← writeLoop sb c stop src n.toNat n.toNat 0 off.toNat x st
    if 0 < n then
      let x := if x.size.toNat < off then { x with size := BitVec.ofNat 32 off } else x
      note (.logWrite (sb.iblock i))
      pure (n.toInt, x, iupdate sb i x st)
    else pure (n.toInt, x, st)

/-- What stands between a `begin_op` and its `end_op`: what was noted becomes one note. -/
def transaction {α : Type} (m : Noted Op Panic α) : Noted (List Op) FilePanic α := ⟨[m.notes], passed m.result⟩

/-- The loop of `filewrite` on inode `i`, one transaction in each turn. -/
def filewriteLoop (i : Nat) (src : Nat → Option (BitVec 8)) (n : Nat) :
    Nat → Nat → BitVec 32 → DiskInode → Store → Noted (List Op) FilePanic (Nat × BitVec 32 × DiskInode × Store)
  | 0, done, off, x, st => pure (done, off, x, st)
  | fuel + 1, done, off, x, st =>
    if done < n then do
      let n1 := min (n - done) maxWrite
      let (r, x, st) ← transaction (writei sb c stop i x (fun k => src (done + k)) off (BitVec.ofNat 32 n1) st)
      let off := if 0 < r then off + BitVec.ofInt 32 r else off
      if r < 0 then pure (done, off, x, st)
      else if r ≠ n1 then plain (.error .shortFilewrite)
      else filewriteLoop i src n fuel (done + n1) off x st
    else pure (done, off, x, st)

/-- `filewrite(f, addr, n)` for a file of type `FD_INODE`. -/
def filewrite (writable : Bool) (i : Nat) (src : Nat → Option (BitVec 8)) (n : Int) (off : BitVec 32) (x : DiskInode)
    (st : Store) : Noted (List Op) FilePanic (Int × BitVec 32 × DiskInode × Store) :=
  if writable then do
    let (done, off, x, st) ← filewriteLoop sb c stop i src n.toNat n.toNat 0 off x st
    pure (if (done : Int) = n then n else -1, off, x, st)
  else pure (-1, off, x, st)

/-- `filewritefromkernel(f, addr, n)` for a file of type `FD_INODE`: the same code, and every copy from kernel
memory succeeds. -/
def filewritefromkernel (writable : Bool) (i : Nat) (src : Nat → BitVec 8) (n : Int) (off : BitVec 32) (x : DiskInode)
    (st : Store) : Noted (List Op) FilePanic (Int × BitVec 32 × DiskInode × Store) :=
  filewrite sb c stop writable i (fun k => some (src k)) n off x st

end Code

/-! ## Without the notes -/

section Results

variable (sb : Superblock) (c : Cid)

theorem balloc_result (st : Store) : (balloc sb c Container.exceeded st).result = Fs.balloc sb c st := by
  unfold balloc Fs.balloc
  cases ballocScan sb st.disk with
  | none => rfl
  | some r =>
    obtain ⟨b, bi⟩ := r
    dsimp only
    rw [Noted.note_bind, Noted.note_bind]
    dsimp only
    split
    · unfold bfree
      simp only [Noted.result_bind, Noted.result_plain]
      cases Fs.bfree sb c (BitVec.ofNat 32 b) _ with
      | error e => rfl
      | ok st' => simp only [note, Noted.result_pure, bind, Except.bind, Except.map]
    · rfl

theorem bmapAddr_result (x : DiskInode) (k : Fin 13) (st : Store) :
    (bmapAddr sb c Container.exceeded x k st).result = Fs.bmapAddr sb c x k st := by
  unfold bmapAddr Fs.bmapAddr
  split
  · rw [Noted.result_bind, balloc_result]
    rfl
  · rfl

theorem bmapEntry_result (blk : BlockNo) (j : Fin 256) (st : Store) :
    (bmapEntry sb c Container.exceeded blk j st).result = Fs.bmapEntry sb c blk j st := by
  unfold bmapEntry Fs.bmapEntry
  split
  · rw [Noted.result_bind, balloc_result]
    rfl
  · rfl

theorem bmap_result (x : DiskInode) (bn : Nat) (st : Store) : (bmap sb c Container.exceeded x bn st).result = Fs.bmap sb c x bn st := by
  unfold bmap Fs.bmap
  split
  · exact bmapAddr_result ..
  split
  · rw [Noted.result_bind, bmapAddr_result]
    refine congrArg _ (funext fun r => ?_)
    rw [Noted.result_bind, bmapEntry_result]
    rfl
  · rfl

theorem writeLoop_result (src : Nat → Option (BitVec 8)) (n fuel : Nat) (tot off : Nat) (x : DiskInode) (st : Store) :
    (writeLoop sb c Container.exceeded src n fuel tot off x st).result = Fs.writeLoop sb c src n fuel tot off x st := by
  induction fuel generalizing tot off x st with
  | zero => rfl
  | succ fuel ih =>
    unfold writeLoop Fs.writeLoop
    split
    · rw [Noted.result_bind, Noted.result_lift, bmap_result]
      refine congrArg _ (funext fun r => ?_)
      dsimp only
      rw [Noted.note_bind]
      dsimp only
      split
      · rfl
      · rw [Noted.note_bind]
        exact ih ..
    · rfl

theorem writei_result (i : Nat) (x : DiskInode) (src : Nat → Option (BitVec 8)) (off n : BitVec 32) (st : Store) :
    (writei sb c Container.exceeded i x src off n st).result = Fs.writei sb c i x src off n st := by
  unfold writei Fs.writei
  split
  · rfl
  split
  · rfl
  rw [Noted.result_bind, writeLoop_result]
  refine congrArg _ (funext fun r => ?_)
  dsimp only
  split
  · rw [Noted.note_bind]
    rfl
  · rfl

theorem filewriteLoop_result (i : Nat) (src : Nat → Option (BitVec 8)) (n fuel done : Nat) (off : BitVec 32) (x : DiskInode)
    (st : Store) : (filewriteLoop sb c Container.exceeded i src n fuel done off x st).result =
      Fs.filewriteLoop sb c i src n fuel done off x st := by
  induction fuel generalizing done off x st with
  | zero => rfl
  | succ fuel ih =>
    unfold filewriteLoop Fs.filewriteLoop
    split
    · dsimp only
      rw [Noted.result_bind]
      unfold transaction
      rw [writei_result]
      refine congrArg _ (funext fun r => ?_)
      split
      · rfl
      · split
        · rfl
        · exact ih ..
    · rfl

theorem filewrite_result (writable : Bool) (i : Nat) (src : Nat → Option (BitVec 8)) (n : Int) (off : BitVec 32)
    (x : DiskInode) (st : Store) :
    (filewrite sb c Container.exceeded writable i src n off x st).result = Fs.filewrite sb c writable i src n off x st := by
  unfold filewrite Fs.filewrite
  split
  · rw [Noted.result_bind, filewriteLoop_result]
    rfl
  · rfl

end Results

/-! ## One turn -/

/-- The blocks that are allowed for: the free map, the inode, block `0` and the indirect block. -/
def base (sb : Superblock) (i : Nat) (x : DiskInode) : Finset BlockNo :=
  {sb.bblock 0, sb.iblock i, 0, x.addrs (Fin.last 12)}

/-- How many other blocks `t` turns may log.  With the indirect block there it is one in each turn.  Without
it, a turn that finds bit `0` set may log two, and leaves the bit clear. -/
def budget (sb : Superblock) (x : DiskInode) (d : Disk) (t : Nat) : Nat :=
  if x.addrs (Fin.last 12) ≠ 0 then t else if bit sb d 0 = true then t + (t + 1) / 2 else t + t / 2

/-- `m` looks for a block in the state `st` and finds `f`: it logs the free map and that
block, and answers it, or answers `0` and leaves bit `0` of the free map clear. -/
structure Takes (sb : Superblock) (st : Store) (m : Noted BlockNo Panic (BlockNo × Store)) (f : BlockNo) : Prop where
  first : bit sb st.disk 0 = false → f = 0
  logs : ∀ b ∈ m.notes, b = sb.bblock 0 ∨ b = f
  answers : ∀ a st', m.result = .ok (a, st') → a = f ∨ (a = 0 ∧ bit sb st'.disk 0 = false)

/-- One turn of the loop of `writei` has logged `l`, and left the inode `x'` and
the disk `d'`. -/
inductive Turn (sb : Superblock) (i : Nat) (x : DiskInode) (d : Disk) (l : List BlockNo) (x' : DiskInode) (d' : Disk) : Prop
  | one (same : x'.addrs (Fin.last 12) = x.addrs (Fin.last 12)) (logs : Outside (base sb i x) l 1)
  | two (none : x.addrs (Fin.last 12) = 0) (still : x'.addrs (Fin.last 12) = 0) (was : bit sb d 0 = true)
      (clear : bit sb d' 0 = false) (logs : Outside (base sb i x) l 2)
  | indirect (none : x.addrs (Fin.last 12) = 0) (was : bit sb d 0 = true) (there : x'.addrs (Fin.last 12) ≠ 0)
      (logs : Outside (base sb i x') l 1)

section Turns

variable {sb : Superblock} {c : Cid} {stop : Container → Container} {i : Nat} {x x' : DiskInode} {st st' : Store}
  {f : BlockNo} {l1 : List BlockNo}
variable {d d' : Disk} {l l' : List BlockNo} {t : Nat} {g : Store → Store} {blk : BlockNo} {n : BitVec 32}
  {k : Fin 13}

theorem mem_base {w : BlockNo} :
    w ∈ base sb i x ↔ w = sb.bblock 0 ∨ w = sb.iblock i ∨ w = 0 ∨ w = x.addrs (Fin.last 12) := by
  unfold base
  rw [Finset.mem_insert, Finset.mem_insert, Finset.mem_insert, Finset.mem_singleton]

theorem base_congr (h : x'.addrs (Fin.last 12) = x.addrs (Fin.last 12)) : base sb i x' = base sb i x := by
  unfold base
  rw [h]

theorem budget_mono {t' : Nat} (h : t ≤ t') : budget sb x d t ≤ budget sb x d t' := by
  unfold budget
  split
  · exact h
  · split <;> omega

/-- **A turn, and what follows it.** -/
theorem Turn.rest (h : Turn sb i x d l x' d') (hrest : Outside (base sb i x') l' (budget sb x' d' t)) :
    Outside (base sb i x) (l ++ l') (budget sb x d (t + 1)) := by
  cases h with
  | one same logs =>
    rw [base_congr same] at hrest
    apply (logs.append hrest).mono
    unfold budget
    rw [same]
    split
    · omega
    · split <;> split <;> omega
  | two none still was clear logs =>
    rw [base_congr (still.trans none.symm)] at hrest
    apply (logs.append hrest).mono
    unfold budget
    rw [if_neg (not_not.mpr still), if_neg (not_not.mpr none), if_pos was, clear, if_neg Bool.false_ne_true]
    omega
  | indirect none was there logs =>
    have hsub : base sb i x' ⊆ insert (x'.addrs (Fin.last 12)) (base sb i x) := by
      intro w hw
      rw [Finset.mem_insert, mem_base]
      rw [mem_base] at hw
      tauto
    have hall := ((logs.append hrest).base_mono hsub).of_insert
    apply hall.mono
    unfold budget
    rw [if_pos there, if_neg (not_not.mpr none), if_pos was]
    omega

theorem Turn.logs (h : Turn sb i x d l x' d') : Outside (base sb i x) l (budget sb x d 1) := by
  have hrest := h.rest (Outside.nil (base sb i x') (budget sb x' d' 0))
  rwa [append_nil] at hrest

theorem refused_logs {b b' : BlockNo}
    (h : b' ∈ (bfree sb c b st >>= fun st => pure ((0 : BlockNo), g st)).notes) : b' = sb.bblock b.toNat := by
  unfold bfree Fs.bfree at h
  split at h
  · cases h
  · exact mem_singleton.mp h

theorem refused_result {a b : BlockNo}
    (h : (bfree sb c b st >>= fun st => pure ((0 : BlockNo), g st)).result = .ok (a, st')) (hg : ∀ st, (g st).disk = st.disk) :
    a = 0 ∧ st'.disk = setBit sb b.toNat false st.disk := by
  unfold bfree Fs.bfree at h
  split at h
  · cases h
  · cases h
    exact ⟨rfl, hg _⟩

theorem outside_one (h : ∀ w ∈ l, w ∈ base sb i x ∨ w = f) : Outside (base sb i x) l 1 := by
  apply Outside.of_mem (s := {f}) _ (Finset.card_singleton f).le
  intro w hw
  exact (h w hw).imp_right Finset.mem_singleton.mpr

theorem outside_two {g : BlockNo} (h : ∀ w ∈ l, w ∈ base sb i x ∨ w = f ∨ w = g) : Outside (base sb i x) l 2 := by
  apply Outside.of_mem (s := {f, g}) _ Finset.card_le_two
  intro w hw
  rw [Finset.mem_insert, Finset.mem_singleton]
  exact h w hw

theorem one_le_budget : 1 ≤ budget sb x d 1 := by
  unfold budget
  split
  · exact Nat.le_refl 1
  · split <;> decide

/-- `bmap` has done `l` and returned `r`, and with the data block that is
written next this is a turn. -/
structure Fetched (sb : Superblock) (i : Nat) (x : DiskInode) (st : Store) (l : List BlockNo)
    (r : Except Panic (BlockNo × DiskInode × Store)) : Prop where
  stopped : ∀ e, r = .error e → Outside (base sb i x) (l) (budget sb x st.disk 1)
  turn : ∀ a x' st', r = .ok (a, x', st') → ∀ blk, Turn sb i x st.disk (l ++ [a]) x' (update st'.disk a blk)

theorem bmapAddr_zero (sb : Superblock) (c : Cid) (stop : Container → Container) (hzero : x.addrs k = 0)
    (st : Store) :
    (bmapAddr sb c stop x k st).notes = (balloc sb c stop st).notes ∧
    ∀ a x' st', (bmapAddr sb c stop x k st).result = .ok (a, x', st') →
      (balloc sb c stop st).result = .ok (a, st') ∧ x' = { x with addrs := update x.addrs k a } := by
  unfold bmapAddr
  rw [if_pos hzero]
  apply Noted.sat_bind (Q := fun l r => l = (balloc sb c stop st).notes ∧ ∀ a (x' : DiskInode) st', r = .ok (a, x', st') →
    (balloc sb c stop st).result = .ok (a, st') ∧ x' = { x with addrs := update x.addrs k a })
  · intro e _
    refine ⟨rfl, fun a x' st' hr => ?_⟩
    cases hr
  · rintro ⟨a, st1⟩ hr
    refine ⟨append_nil _, fun a' x' st' hr' => ?_⟩
    cases hr'
    exact ⟨hr, rfl⟩

theorem fetched_of_entry {x1 : DiskInode} {m : Noted BlockNo Panic (BlockNo × Store)}
    (hstop : Outside (base sb i x) (l1 ++ m.notes) (budget sb x st.disk 1))
    (hgo : ∀ a st', m.result = .ok (a, st') → ∀ blk,
      Turn sb i x st.disk (l1 ++ m.notes ++ [a]) x1 (update st'.disk a blk)) :
    Fetched sb i x st (l1 ++ (m >>= fun q => pure (q.1, x1, q.2)).notes) (m >>= fun q => pure (q.1, x1, q.2)).result := by
  apply Noted.sat_bind (Q := fun l r => Fetched sb i x st (l1 ++ l) r)
  · intro e _
    refine ⟨fun _ _ => hstop, fun a x' st' hr => ?_⟩
    cases hr
  rintro ⟨a, st1⟩ hr
  refine ⟨fun e he => ?_, fun a' x' st' hr' blk => ?_⟩
  · cases he
  · cases hr'
    rw [Noted.notes_pure, append_nil]
    exact hgo a st1 hr blk

def turns (off r : Nat) : Nat := if r = 0 then 0 else (off % BSIZE + r + (BSIZE - 1)) / BSIZE

theorem turns_next (off : Nat) {r : Nat} (hr : 0 < r) :
    turns (off + min r (BSIZE - off % BSIZE)) (r - min r (BSIZE - off % BSIZE)) < turns off r := by
  unfold turns
  rw [if_neg hr.ne']
  show (if r - min r (1024 - off % 1024) = 0 then 0
    else ((off + min r (1024 - off % 1024)) % 1024 + (r - min r (1024 - off % 1024)) + (1024 - 1)) / 1024) <
    (off % 1024 + r + (1024 - 1)) / 1024
  split <;> omega

/-- Three blocks of data lie in at most four. -/
theorem turns_le {off r : Nat} (hr : r ≤ maxWrite) : turns off r ≤ 4 := by
  have hmax : maxWrite = 3072 := rfl
  unfold turns
  show (if r = 0 then 0 else (off % 1024 + r + (1024 - 1)) / 1024) ≤ 4
  split <;> omega

theorem card_base_le : (base sb i x).card + budget sb x d 4 ≤ 9 := by
  unfold base budget
  by_cases hzero : x.addrs (Fin.last 12) = 0
  · rw [hzero, if_neg (not_not.mpr rfl)]
    have hcard : ({sb.bblock 0, sb.iblock i, 0, 0} : Finset BlockNo).card ≤ 3 := by
      rw [Finset.pair_eq_singleton]
      exact Finset.card_le_three
    split <;> omega
  · rw [if_pos hzero]
    have hcard : ({sb.bblock 0, sb.iblock i, 0, x.addrs (Fin.last 12)} : Finset BlockNo).card ≤ 4 := Finset.card_le_four
    omega

section

variable (hone : sb.size ≤ 8192) (i : Nat) (c : Cid) (stop : Container → Container)
include hone

theorem balloc_takes (st : Store) : ∃ f, Takes sb st (balloc sb c stop st) f := by
  unfold balloc
  rcases full_or_firstFree sb st.disk with hfull | ⟨f, hf⟩
  · rw [ballocScan_full hfull]
    refine ⟨0, fun _ => rfl, fun b hb => ?_, fun a st' hr => ?_⟩
    · cases hb
    · cases hr
      exact .inl rfl
  have hlt := hf.lt
  have hstart : f / 8192 * 8192 = 0 := by omega
  have hrest : f % 8192 = f := Nat.mod_eq_of_lt (by omega)
  rw [ballocScan_first hf, hstart, hrest]
  dsimp only
  rw [Noted.note_bind, Noted.note_bind, Nat.zero_add]
  have hfirst : bit sb st.disk 0 = false → BitVec.ofNat 32 f = 0 := by
    intro hzero
    have hf0 : f = 0 := by
      by_contra hne
      rw [hf.before 0 (Nat.pos_of_ne_zero hne)] at hzero
      cases hzero
    rw [hf0]
    rfl
  split
  · refine ⟨BitVec.ofNat 32 f, hfirst, fun b hb => ?_, fun a st' hr => ?_⟩
    · rcases mem_cons.mp hb with rfl | hb
      · exact .inl rfl
      · rcases mem_cons.mp hb with rfl | hb
        · exact .inr rfl
        · exact .inl (refused_logs hb)
    obtain ⟨rfl, hdisk⟩ := refused_result hr fun _ => rfl
    refine .inr ⟨rfl, ?_⟩
    have hpos : 0 < sb.size := Nat.zero_lt_of_lt hlt
    rw [hdisk]
    exact (bit_setBit hpos hpos false).trans (if_pos rfl)
  · refine ⟨BitVec.ofNat 32 f, hfirst, fun b hb => ?_, fun a st' hr => ?_⟩
    · simpa using hb
    · cases hr
      exact .inl rfl

theorem bmapEntry_logs (blk : BlockNo) (j : Fin 256) (st : Store) :
    (∃ a, bmapEntry sb c stop blk j st = pure (a, st)) ∨
    ∃ f, (bit sb st.disk 0 = false → f = 0) ∧
      (∀ b ∈ (bmapEntry sb c stop blk j st).notes, b = sb.bblock 0 ∨ b = f ∨ b = blk) ∧
      ∀ a st', (bmapEntry sb c stop blk j st).result = .ok (a, st') → a = f ∨ a = 0 := by
  unfold bmapEntry
  split
  · obtain ⟨f, htakes⟩ := balloc_takes hone c stop st
    refine .inr ⟨f, htakes.first, ?_⟩
    apply Noted.sat_bind (Q := fun l r => (∀ b ∈ l, b = sb.bblock 0 ∨ b = f ∨ b = blk) ∧ ∀ a st', r = .ok (a, st') → a = f ∨ a = 0)
    · intro e _
      refine ⟨fun b hb => (htakes.logs b hb).imp_right .inl, fun a st' hr => ?_⟩
      cases hr
    rintro ⟨a, st1⟩ hr
    refine ⟨fun b hb => ?_, fun a' st' hr' => ?_⟩
    · rcases mem_append.mp hb with hb | hb
      · exact (htakes.logs b hb).imp_right .inl
      · exact .inr (.inr (mem_singleton.mp hb))
    · cases hr'
      exact (htakes.answers a st1 hr).imp_right And.left
  · exact .inl ⟨_, rfl⟩

theorem bmapAddr_fetched (x : DiskInode) (hk : k ≠ Fin.last 12) (st : Store) :
    Fetched sb i x st (bmapAddr sb c stop x k st).notes (bmapAddr sb c stop x k st).result := by
  unfold bmapAddr
  split
  · obtain ⟨f, htakes⟩ := balloc_takes hone c stop st
    apply Noted.sat_bind (Q := Fetched sb i x st)
    · intro e _
      refine ⟨fun _ _ => (outside_one (f := f) fun w hw => ?_).mono one_le_budget, fun a x' st' hr => ?_⟩
      · grind [htakes.logs w hw, mem_base]
      · cases hr
    rintro ⟨a, st1⟩ hr
    refine ⟨fun e he => ?_, fun a' x' st' hr' blk => ?_⟩
    · cases he
    · cases hr'
      refine .one (update_of_ne hk.symm ..) (outside_one (f := f) fun w hw => ?_)
      rw [Noted.notes_pure, append_nil, mem_append, mem_singleton] at hw
      grind [htakes.logs w, htakes.answers a st1 hr, mem_base]
  · refine ⟨fun e he => ?_, fun a x' st' hr blk => ?_⟩
    · cases he
    · cases hr
      refine .one rfl (outside_one (f := x.addrs k) fun w hw => ?_)
      exact .inr (mem_singleton.mp hw)

theorem bmapEntry_one (hblk : blk ∈ base sb i x) (j : Fin 256) (st : Store) :
    Outside (base sb i x) ((bmapEntry sb c stop blk j st).notes) 1 ∧
    ∀ a st', (bmapEntry sb c stop blk j st).result = .ok (a, st') →
      Outside (base sb i x) ((bmapEntry sb c stop blk j st).notes ++ [a]) 1 := by
  rcases bmapEntry_logs hone c stop blk j st with ⟨a, hpure⟩ | ⟨f, -, hlogs, hanswers⟩
  · rw [hpure]
    refine ⟨.nil _ 1, fun a' st' hr => outside_one (f := a) fun w hw => ?_⟩
    cases hr
    exact .inr (mem_singleton.mp hw)
  · refine ⟨outside_one (f := f) fun w hw => ?_, fun a st' hr => outside_one (f := f) fun w hw => ?_⟩
    · grind [hlogs w hw, mem_base]
    · rw [mem_append, mem_singleton] at hw
      grind [hlogs w, hanswers a st' hr, mem_base]

theorem fetched_granted (hzero : x.addrs (Fin.last 12) = 0) (hset : bit sb st.disk 0 = true) (hblk : blk ≠ 0)
    (hl : ∀ b ∈ l1, b = sb.bblock 0 ∨ b = blk) (j : Fin 256)
    (st1 : Store) :
    Fetched sb i x st
      (l1 ++ (bmapEntry sb c stop blk j st1 >>= fun q =>
        pure (q.1, { x with addrs := update x.addrs (Fin.last 12) blk }, q.2)).notes)
      (bmapEntry sb c stop blk j st1 >>= fun q =>
        pure (q.1, { x with addrs := update x.addrs (Fin.last 12) blk }, q.2)).result := by
  generalize hx1 : ({ x with addrs := update x.addrs (Fin.last 12) blk } : DiskInode) = x1
  have hlast : x1.addrs (Fin.last 12) = blk := by
    rw [← hx1]
    exact update_self (Fin.last 12) blk x.addrs
  have hmem : blk ∈ base sb i x1 := by rw [← hlast]; exact mem_base.mpr (.inr (.inr (.inr rfl)))
  have hfront : Outside (base sb i x1) (l1) 0 := by
    apply Outside.of_mem (s := ∅) _ Finset.card_empty.le
    intro w hw
    rcases hl w hw with rfl | rfl
    · exact .inl (mem_base.mpr (.inl rfl))
    · exact .inl hmem
  obtain ⟨hstop, hgo⟩ := bmapEntry_one hone i c stop hmem j st1
  have hthere : x1.addrs (Fin.last 12) ≠ 0 := hlast.symm ▸ hblk
  apply fetched_of_entry
  · have hlogs := hfront.append hstop
    rw [Nat.zero_add] at hlogs
    have hturn : Turn sb i x st.disk _ x1 st.disk := .indirect hzero hset hthere hlogs
    exact hturn.logs
  · intro a st' hr blk'
    have hlogs := hfront.append (hgo a st' hr)
    rw [Nat.zero_add, ← append_assoc] at hlogs
    exact .indirect hzero hset hthere hlogs

/-- A block behind an indirect block that was refused: block `0` is taken for it. -/
theorem fetched_refused (hzero : x.addrs (Fin.last 12) = 0)
    (hl : ∀ b ∈ l1, b = sb.bblock 0 ∨ b = f) {st1 : Store}
    (hf : f = 0 ∨ bit sb st.disk 0 = true ∧ bit sb st1.disk 0 = false) (j : Fin 256) :
    Fetched sb i x st
      (l1 ++ (bmapEntry sb c stop 0 j st1 >>= fun q =>
        pure (q.1, { x with addrs := update x.addrs (Fin.last 12) 0 }, q.2)).notes)
      (bmapEntry sb c stop 0 j st1 >>= fun q =>
        pure (q.1, { x with addrs := update x.addrs (Fin.last 12) 0 }, q.2)).result := by
  generalize hx1 : ({ x with addrs := update x.addrs (Fin.last 12) 0 } : DiskInode) = x1
  have hlast : x1.addrs (Fin.last 12) = 0 := by
    rw [← hx1]
    exact update_self (Fin.last 12) 0 x.addrs
  have hsame := hlast.trans hzero.symm
  rcases bmapEntry_logs hone c stop 0 j st1 with ⟨a, hpure⟩ | ⟨g, hg, hlogs, hanswers⟩
  · rw [hpure]
    apply fetched_of_entry
    · rw [Noted.notes_pure, append_nil]
      apply (outside_one (f := f) _).mono one_le_budget
      intro w hw
      grind [hl w hw, mem_base]
    intro a' st' hr blk
    cases hr
    rw [Noted.notes_pure, append_nil]
    -- the entry is what stands in block `0`, and may be anything
    by_cases hone' : f = 0 ∨ a = sb.bblock 0
    · rcases hone' with rfl | rfl
      · refine .one hsame (outside_one (f := a) fun w hw => ?_)
        rw [mem_append, mem_singleton] at hw
        grind [hl w, mem_base]
      · refine .one hsame (outside_one (f := f) fun w hw => ?_)
        rw [mem_append, mem_singleton] at hw
        grind [hl w, mem_base]
    rw [not_or] at hone'
    obtain ⟨hwas, hclear⟩ := hf.resolve_left hone'.1
    refine .two hzero hlast hwas ?_ (outside_two (f := f) (g := a) fun w hw => ?_)
    · unfold bit at hclear ⊢
      rw [update_of_ne (Ne.symm hone'.2)]
      exact hclear
    · rw [mem_append, mem_singleton] at hw
      grind [hl w, mem_base]
  · -- the search for a block ends at `0` when bit `0` is clear
    have hfg : f = 0 ∨ g = 0 := hf.imp_right fun h => hg h.2
    have hstop : ∀ w ∈ l1 ++ (bmapEntry sb c stop 0 j st1).notes, w ∈ base sb i x ∨ w = if f = 0 then g else f := by
      intro w hw
      rw [mem_append] at hw
      grind [hl w, hlogs w, mem_base]
    apply fetched_of_entry
    · exact (outside_one hstop).mono one_le_budget
    · intro a st' hr blk
      refine .one hsame (outside_one (f := if f = 0 then g else f) fun w hw => ?_)
      rw [mem_append, mem_singleton] at hw
      grind [hstop w, hanswers a st' hr, mem_base]

theorem bmapIndirect_fetched (x : DiskInode) (j : Fin 256) (st : Store) :
    Fetched sb i x st
      (bmapAddr sb c stop x (Fin.last 12) st >>= fun r =>
        bmapEntry sb c stop r.1 j r.2.2 >>= fun q => pure (q.1, r.2.1, q.2)).notes
      (bmapAddr sb c stop x (Fin.last 12) st >>= fun r =>
        bmapEntry sb c stop r.1 j r.2.2 >>= fun q => pure (q.1, r.2.1, q.2)).result := by
  by_cases hzero : x.addrs (Fin.last 12) = 0
  · obtain ⟨f, htakes⟩ := balloc_takes hone c stop st
    obtain ⟨hnotes, hresult⟩ := bmapAddr_zero sb c stop hzero st
    have hl : ∀ b ∈ (bmapAddr sb c stop x (Fin.last 12) st).notes, b = sb.bblock 0 ∨ b = f := by
      rw [hnotes]
      exact htakes.logs
    apply Noted.sat_bind (Q := Fetched sb i x st)
    · intro e _
      refine ⟨fun _ _ => (outside_one (f := f) fun w hw => ?_).mono one_le_budget, fun a x' st' hr => ?_⟩
      · grind [hl w hw, mem_base]
      · cases hr
    rintro ⟨blk, x1, st1⟩ hr
    obtain ⟨hballoc, rfl⟩ := hresult blk x1 st1 hr
    have hset : f ≠ 0 → bit sb st.disk 0 = true := fun hf => Bool.eq_true_of_not_eq_false fun hclear => hf (htakes.first hclear)
    have hanswer := htakes.answers blk st1 hballoc
    by_cases hblk : blk = 0
    · subst hblk
      refine fetched_refused hone i c stop hzero hl ?_ j
      by_cases hf : f = 0
      · exact .inl hf
      · exact .inr ⟨hset hf, (hanswer.resolve_left (Ne.symm hf)).2⟩
    · obtain rfl : blk = f := hanswer.resolve_right fun h => hblk h.1
      exact fetched_granted hone i c stop hzero (hset hblk) hblk hl j st1
  · have hthere : bmapAddr sb c stop x (Fin.last 12) st = pure (x.addrs (Fin.last 12), x, st) := if_neg hzero
    rw [hthere]
    obtain ⟨hstop, hgo⟩ := bmapEntry_one hone i c stop (mem_base.mpr (.inr (.inr (.inr rfl)))) j st
    have hstop' : Outside (base sb i x) ([] ++ (bmapEntry sb c stop (x.addrs (Fin.last 12)) j st).notes)
        (budget sb x st.disk 1) := hstop.mono one_le_budget
    exact fetched_of_entry hstop' fun a st' hr _ => .one rfl (hgo a st' hr)

theorem bmap_fetched (x : DiskInode) (bn : Nat) (st : Store) :
    Fetched sb i x st (bmap sb c stop x bn st).notes (bmap sb c stop x bn st).result := by
  unfold bmap
  split
  · rename_i hbn
    apply bmapAddr_fetched hone
    intro hlast
    have hval : bn = 12 := congrArg Fin.val hlast
    omega
  · split
    · exact bmapIndirect_fetched hone i c stop x _ st
    · refine ⟨fun e _ => .nil _ _, fun a x' st' hr => ?_⟩
      cases hr

theorem writeLoop_logs (src : Nat → Option (BitVec 8)) (n fuel : Nat) : ∀ (tot off : Nat) (x : DiskInode) (st : Store) (t : Nat),
    turns off (n - tot) ≤ t →
    Outside (base sb i x) (logged (writeLoop sb c stop src n fuel tot off x st).notes) (budget sb x st.disk t) := by
  induction fuel with
  | zero => exact fun _ _ _ _ _ _ => .nil _ _
  | succ fuel ih =>
    intro tot off x st t ht
    unfold writeLoop
    split
    · rename_i hlt
      have hnext := turns_next off (Nat.sub_pos_of_lt hlt)
      obtain ⟨t, rfl⟩ : ∃ t', t = t' + 1 := ⟨t - 1, by omega⟩
      have hfetched := bmap_fetched hone i c stop x (off / BSIZE) st
      apply Noted.sat_bind (Q := fun l _ => Outside (base sb i x) (logged l) (budget sb x st.disk (t + 1)))
      · intro e he
        rw [Noted.notes_lift, logged_map]
        exact (hfetched.stopped e he).mono (budget_mono (by omega))
      rintro ⟨a, x', st'⟩ hr
      have hturn := hfetched.turn a x' st' hr
      dsimp only
      rw [Noted.note_bind, logged_append, Noted.notes_lift, logged_map, logged_copyIn]
      split
      · -- the copy stopped, and the block is not logged
        have hrest := (hturn (st'.disk a)).logs.mono (budget_mono (Nat.le_add_left 1 t))
        apply hrest.subset
        intro w hw
        rw [Noted.notes_pure, logged_nil, append_nil] at hw
        exact mem_append_left [a] hw
      · rw [Noted.note_bind, logged_logWrite, append_cons]
        apply (hturn _).rest
        apply ih
        rw [← Nat.sub_sub]
        omega
    · exact .nil _ _

/-- **One transaction**: a `writei` of at most `maxWrite` bytes. -/
theorem writei_logs (x : DiskInode) (src : Nat → Option (BitVec 8)) (off : BitVec 32) (hn : n.toNat ≤ maxWrite) (st : Store) :
    Outside (base sb i x) (logged (writei sb c stop i x src off n st).notes) (budget sb x st.disk 4) := by
  have hloop := writeLoop_logs hone i c stop src n.toNat n.toNat 0 off.toNat x st 4 (turns_le hn)
  unfold writei
  split
  · exact .nil _ _
  split
  · exact .nil _ _
  apply Noted.sat_bind (Q := fun l _ => Outside (base sb i x) (logged l) (budget sb x st.disk 4))
  · exact fun _ _ => hloop
  rintro ⟨off', x', st'⟩ _
  have hinode : Outside (base sb i x) [sb.iblock i] 0 := by
    apply Outside.of_mem (s := ∅) _ Finset.card_empty.le
    intro w hw
    exact .inl (mem_base.mpr (.inr (.inl (mem_singleton.mp hw))))
  dsimp only
  rw [logged_append]
  split
  · exact hloop.append hinode
  · rw [Noted.notes_pure, logged_nil, append_nil]
    exact hloop

/-- **A transaction logs at most nine blocks.** -/
theorem writei_card_le (x : DiskInode) (src : Nat → Option (BitVec 8)) (off : BitVec 32) (hn : n.toNat ≤ maxWrite) (st : Store) :
    (logged (writei sb c stop i x src off n st).notes).toFinset.card ≤ 9 :=
  (writei_logs hone i c stop x src off hn st).card_le.trans card_base_le

end

end Turns

section Transactions

variable {sb : Superblock}

section

variable (hone : sb.size ≤ 8192) (c : Cid) (stop : Container → Container) (i : Nat) (src : Nat → Option (BitVec 8))
include hone

theorem filewriteLoop_logs (n fuel : Nat) : ∀ (done : Nat) (off : BitVec 32) (x : DiskInode) (st : Store),
    ∀ l ∈ (filewriteLoop sb c stop i src n fuel done off x st).notes, (logged l).toFinset.card ≤ 9 := by
  induction fuel with
  | zero =>
    intro done off x st l hl
    cases hl
  | succ fuel ih =>
    intro done off x st
    unfold filewriteLoop
    split
    · dsimp only
      have hn1 : (BitVec.ofNat 32 (min (n - done) maxWrite)).toNat ≤ maxWrite := by
        rw [BitVec.toNat_ofNat]
        exact (Nat.mod_le _ _).trans (Nat.min_le_right _ _)
      have hfirst : ∀ l ∈ [(writei sb c stop i x (fun k => src (done + k)) off
          (BitVec.ofNat 32 (min (n - done) maxWrite)) st).notes], (logged l).toFinset.card ≤ 9 := by
        intro l hl
        rw [mem_singleton.mp hl]
        exact writei_card_le hone i c stop x _ off hn1 st
      apply Noted.sat_bind (Q := fun (ls : List (List Op)) _ => ∀ l ∈ ls, (logged l).toFinset.card ≤ 9)
      · exact fun _ _ => hfirst
      rintro ⟨r, x', st'⟩ _ l hl
      rcases mem_append.mp hl with hl | hl
      · exact hfirst l hl
      dsimp only at hl
      split at hl
      · cases hl
      · split at hl
        · cases hl
        · exact ih _ _ _ _ l hl
    · intro l hl
      cases hl

theorem filewrite_logs (writable : Bool) (n : Int) (off : BitVec 32) (x : DiskInode) (st : Store) :
    ∀ l ∈ (filewrite sb c stop writable i src n off x st).notes, (logged l).toFinset.card ≤ 9 := by
  have hloop := filewriteLoop_logs hone c stop i src n.toNat n.toNat 0 off x st
  unfold filewrite
  split
  · apply Noted.sat_bind (Q := fun (ls : List (List Op)) _ => ∀ l ∈ ls, (logged l).toFinset.card ≤ 9)
    · exact fun _ _ => hloop
    · intro r _ l hl
      rw [Noted.notes_pure, append_nil] at hl
      exact hloop l hl
  · intro l hl
    cases hl

end

/-- **A write fits into its reservation.** Every transaction of `filewrite` and of `filewritefromkernel` logs at most
`MAXOPBLOCKS` different blocks, also one that ends in a panic. -/
theorem write_fits (hone : sb.size ≤ 8192) (c : Cid) (stop : Container → Container) (writable : Bool) (i : Nat)
    (n : Int) (off : BitVec 32) (x : DiskInode) (st : Store) :
    (∀ src, ∀ l ∈ (filewrite sb c stop writable i src n off x st).notes, (logged l).toFinset.card ≤ MAXOPBLOCKS) ∧
      ∀ src, ∀ l ∈ (filewritefromkernel sb c stop writable i src n off x st).notes, (logged l).toFinset.card ≤ MAXOPBLOCKS := by
  have hmax : 9 ≤ MAXOPBLOCKS := by decide
  exact ⟨fun src l hl => (filewrite_logs hone c stop i src writable n off x st l hl).trans hmax,
    fun src l hl => (filewrite_logs hone c stop i _ writable n off x st l hl).trans hmax⟩

/-- Two bytes written into the empty root directory of a new file system: one transaction, and it fits. -/
theorem write_fits_blank :
    (filewritefromkernel mkfsSb 0 id true 1 (fun _ => 7) 2 0 { Icache.newInode .dir with nlink := 1 }
        ⟨blank mkfsSb, fun _ => Kernel.rootCont, false, false⟩).notes.length = 1 ∧
      ∀ l ∈ (filewritefromkernel mkfsSb 0 id true 1 (fun _ => 7) 2 0 { Icache.newInode .dir with nlink := 1 }
        ⟨blank mkfsSb, fun _ => Kernel.rootCont, false, false⟩).notes, (logged l).toFinset.card ≤ MAXOPBLOCKS :=
  ⟨by decide +kernel, (write_fits (by decide) 0 id true 1 2 0 _ _).2 _⟩

end Transactions

end Xv6.Fs.Logging
