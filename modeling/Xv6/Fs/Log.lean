/-
# Xv6.Fs.Log — the redo log (`kernel/log.c`): operations, commit and recovery.

`FsState` is the machine between boot and crash.  Its events are the calls a file-system operation makes
(`begin_op`, the two halves of `bread`, `log_write`, `brelse`, `end_op`) and the single-block disk
writes of `commit`, one event each, so that every state is a point at which the machine can crash.
`Booting` is the machine inside `recover_from_log`, which may crash as well and starts over.

A buffer is modified and logged in one event: the content `log_write` records is the content the
buffer then has.
-/
import Xv6.Fs.Bio

namespace Xv6.Fs

open Option (bind_eq_some_iff)
open Kernel (Slot)
open Function List

/-! ## Layout -/

abbrev MAXOPBLOCKS : Nat := 10
abbrev LOGSIZE : Nat := MAXOPBLOCKS * 3

/-- Where the log lies (`sb.logstart`, `sb.nlog`); block numbers are `int`s. -/
structure Geometry where
  start : Nat
  size : Nat
  header : 0 < size
  fits : start + size ≤ 2 ^ 31

namespace Geometry

/-- `log.start + i`: the header is number `0`, the log block of entry `tail` is `tail + 1`. -/
def logBlock (g : Geometry) (i : Nat) : BlockNo := BitVec.ofNat 32 (g.start + i)

/-- The log region; every other block is a home block. -/
def InLog (g : Geometry) (b : BlockNo) : Prop := g.start ≤ b.toNat ∧ b.toNat < g.start + g.size
deriving Decidable

end Geometry

/-- The block numbers in a header block: `n`, an `int`, and `block[0..n)`. -/
def entries (h : Block) : List BlockNo := (List.range (h 0).toInt.toNat).map fun i => h (Fin.ofNat 256 (i + 1))

/-- A header block after `write_head` has assigned to it; words behind the entries stay. -/
def putEntries (lh : List BlockNo) (h : Block) : Block := fun w =>
  if w = 0 then BitVec.ofNat 32 lh.length else (lh[w.val - 1]?).getD (h w)

structure Gate where
  outstanding : Int
  committing : Bool
  deriving DecidableEq

/-- `begin_op` with `n` blocks logged so far: admitted, or put to sleep. -/
def Gate.beginOp (n : Nat) (a : Gate) : Option Gate :=
  if a.committing then none
  else if n + (a.outstanding + 1) * MAXOPBLOCKS > LOGSIZE then none
  else some { a with outstanding := a.outstanding + 1 }

/-- `end_op` up to the commit: the flag is `do_commit`; a running commit is a panic. -/
def Gate.endOp (a : Gate) : Option (Gate × Bool) :=
  if a.committing then none
  else if a.outstanding - 1 = 0 then some (⟨a.outstanding - 1, true⟩, true)
  else some (⟨a.outstanding - 1, false⟩, false)

def writeLog (g : Geometry) (t : Slot) (lh : List BlockNo) (tail : Nat) (s : Bio) : Option Bio := do
  let b ← lh[tail]?
  let s ← bread t (g.logBlock (tail + 1)) s
  let s ← bread t b s
  let d ← dataOf b s
  let s := setData (g.logBlock (tail + 1)) d s
  let s ← bwrite t (g.logBlock (tail + 1)) s
  let s ← brelse t b s
  brelse t (g.logBlock (tail + 1)) s

def writeHead (g : Geometry) (t : Slot) (lh : List BlockNo) (s : Bio) : Option Bio := do
  let s ← bread t (g.logBlock 0) s
  let h ← dataOf (g.logBlock 0) s
  let s := setData (g.logBlock 0) (putEntries lh h) s
  let s ← bwrite t (g.logBlock 0) s
  brelse t (g.logBlock 0) s

def installTrans (g : Geometry) (t : Slot) (lh : List BlockNo) (tail : Nat) (s : Bio) : Option Bio := do
  let b ← lh[tail]?
  let s ← bread t (g.logBlock (tail + 1)) s
  let s ← bread t b s
  let d ← dataOf (g.logBlock (tail + 1)) s
  let s := setData b d s
  let s ← bwrite t b s
  let s := bunpin b s
  let s ← brelse t (g.logBlock (tail + 1)) s
  brelse t b s

def readHead (g : Geometry) (t : Slot) (s : Bio) : Option (Bio × List BlockNo) := do
  let s ← bread t (g.logBlock 0) s
  let h ← dataOf (g.logBlock 0) s
  let s ← brelse t (g.logBlock 0) s
  return (s, entries h)

/-! ## The machine between boot and crash -/

inductive CommitPc
  | writeLog (tail : Nat)
  | writeHead
  | install (tail : Nat)
  | clearHead
  /-- Back in `end_op`. -/
  | done
  deriving DecidableEq

structure FsState where
  bio : Bio
  /-- `log.lh`. -/
  lh : List BlockNo
  gate : Gate
  /-- The block whose buffer a process has a reference to and is about to lock. -/
  waiting : Slot → Option BlockNo
  /-- The operation a process is in; operations are numbered in the order of their `begin_op`. -/
  inOp : Slot → Option Nat
  nextOp : Nat
  /-- The process that commits. -/
  pc : Option (Slot × CommitPc)

inductive FsEvent
  | beginOp (t : Slot)
  /-- `bread`, up to the sleep lock. -/
  | bget (t : Slot) (b : BlockNo)
  /-- `bread`, from the sleep lock on. -/
  | lock (t : Slot)
  /-- Set the data of a buffer and call `log_write`. -/
  | logWrite (t : Slot) (b : BlockNo) (d : Block)
  | brelse (t : Slot) (b : BlockNo)
  | endOp (t : Slot)
  /-- The committing process goes on to its next disk write. -/
  | commit

/-- `log_write(b)` after its two checks: pin the buffer of a block that is not in the log yet. -/
def logBlockOnce (b : BlockNo) (s : FsState) : FsState :=
  if b ∈ s.lh then s else { s with bio := bpin b s.bio, lh := s.lh ++ [b] }

/-- `log_write` on the buffer of block `b`, which the caller has locked and set to `d`; the block lies
outside the log. -/
def logWrite (g : Geometry) (t : Slot) (b : BlockNo) (d : Block) (s : FsState) : Option FsState :=
  if (s.bio.find b).bind (·.lock) ≠ some t ∨ g.InLog b then none
  else if s.lh.length ≥ LOGSIZE ∨ (s.lh.length : Int) ≥ g.size - 1 then none
  else if s.gate.outstanding < 1 then none
  else some (logBlockOnce b { s with bio := setData b d s.bio })

/-- `end_op()`, up to the first disk write of `commit`. -/
def endOp (t : Slot) (s : FsState) : Option FsState :=
  s.gate.endOp.map fun (gate, commit) =>
    { s with
      gate := gate, inOp := update s.inOp t none
      pc := if commit then some (t, if s.lh.length > 0 then .writeLog 0 else .done) else s.pc }

/-- The next step of `commit`, and of `end_op` after it. -/
def commitStep (g : Geometry) (s : FsState) : Option FsState :=
  match s.pc with
  | none => none
  | some (t, .writeLog tail) =>
    (writeLog g t s.lh tail s.bio).map fun bio =>
      { s with
        bio := bio, pc := some (t, if tail + 1 < s.lh.length then .writeLog (tail + 1) else .writeHead) }
  | some (t, .writeHead) =>
    (writeHead g t s.lh s.bio).map fun bio => { s with bio := bio, pc := some (t, .install 0) }
  | some (t, .install tail) =>
    (installTrans g t s.lh tail s.bio).map fun bio =>
      { s with
        bio := bio, pc := some (t, if tail + 1 < s.lh.length then .install (tail + 1) else .clearHead) }
  | some (t, .clearHead) =>
    (writeHead g t [] s.bio).map fun bio => { s with bio := bio, lh := [], pc := some (t, .done) }
  | some (_, .done) => some { s with gate := { s.gate with committing := false }, pc := none }

/-- A process that waits for a buffer or commits does nothing else. -/
def FsState.Engaged (s : FsState) (t : Slot) : Prop := s.waiting t ≠ none ∨ s.pc.map Prod.fst = some t
deriving Decidable

def fsStep (g : Geometry) (s : FsState) : FsEvent → Option FsState
  | .beginOp t =>
    if s.Engaged t ∨ s.inOp t ≠ none then none
    else (s.gate.beginOp s.lh.length).map fun gate =>
      { s with gate := gate, inOp := update s.inOp t (some s.nextOp), nextOp := s.nextOp + 1 }
  | .bget t b =>
    if s.Engaged t then none
    else (bget b s.bio).map fun bio =>
      { s with bio := bio, waiting := update s.waiting t (some b) }
  | .lock t =>
    (s.waiting t).bind fun b => (lockBuf t b s.bio).map fun bio =>
      { s with bio := bio, waiting := update s.waiting t none }
  | .logWrite t b d =>
    if s.Engaged t ∨ s.inOp t = none then none else logWrite g t b d s
  | .brelse t b =>
    if s.Engaged t then none
    else (brelse t b s.bio).map fun bio => { s with bio := bio }
  | .endOp t => if s.Engaged t ∨ s.inOp t = none then none else endOp t s
  | .commit => commitStep g s

/-! ## The machine inside `recover_from_log` -/

inductive RecoverPc
  | readHead
  | install (tail : Nat)
  | clearHead
  | done
  deriving DecidableEq

structure Booting where
  bio : Bio
  lh : List BlockNo
  pc : RecoverPc

inductive RecoverEvent
  | next
  | crash

def reboot (disk : Disk) : Booting := ⟨binit disk, [], .readHead⟩

/-- `recover_from_log` by the first process (slot 0), one disk write at a time. -/
def recoverStep (g : Geometry) (r : Booting) : RecoverEvent → Option Booting
  | .crash => some (reboot r.bio.disk)
  | .next =>
    match r.pc with
    | .readHead =>
      (readHead g 0 r.bio).map fun (bio, lh) =>
        ⟨bio, lh, if 0 < lh.length then .install 0 else .clearHead⟩
    | .install tail =>
      (installTrans g 0 r.lh tail r.bio).map fun bio =>
        ⟨bio, r.lh, if tail + 1 < r.lh.length then .install (tail + 1) else .clearHead⟩
    | .clearHead => (writeHead g 0 [] r.bio).map fun bio => ⟨bio, [], .done⟩
    | .done => none

def FsState.start (r : Booting) : FsState := ⟨r.bio, r.lh, ⟨0, false⟩, fun _ => none, fun _ => none, 0, none⟩

/-! ## Lemmas about the layout -/

namespace Geometry

variable {g : Geometry} {i j : Nat} {b : BlockNo}

theorem toNat_logBlock (hi : i < g.size) : (g.logBlock i).toNat = g.start + i := by
  have := g.fits
  rw [logBlock, BitVec.toNat_ofNat]
  exact Nat.mod_eq_of_lt (by omega)

theorem inLog_logBlock (hi : i < g.size) : g.InLog (g.logBlock i) := by
  rw [InLog, toNat_logBlock hi]
  omega

theorem logBlock_inj (hi : i < g.size) (hj : j < g.size) (h : g.logBlock i = g.logBlock j) : i = j := by
  have := congrArg BitVec.toNat h
  rw [toNat_logBlock hi, toNat_logBlock hj] at this
  omega

theorem ne_logBlock (hb : ¬ g.InLog b) (hi : i < g.size) : b ≠ g.logBlock i := by
  rintro rfl
  exact hb (inLog_logBlock hi)

end Geometry

theorem Gate.beginOp_some {n : Nat} {a b : Gate} (h : a.beginOp n = some b) :
    a.committing = false ∧ b = { a with outstanding := a.outstanding + 1 } := by
  unfold Gate.beginOp at h
  split at h
  · cases h
  rename_i hidle
  split at h
  · cases h
  · cases h
    exact ⟨by simpa using hidle, rfl⟩

theorem Gate.endOp_some {a b : Gate} {commit : Bool} (h : a.endOp = some (b, commit)) :
    b = ⟨a.outstanding - 1, commit⟩ ∧ commit = decide (a.outstanding - 1 = 0) := by
  unfold Gate.endOp at h
  split at h
  · cases h
  split at h
  · rename_i hlast
    cases h
    exact ⟨rfl, (decide_eq_true hlast).symm⟩
  · rename_i hlast
    cases h
    exact ⟨rfl, (decide_eq_false hlast).symm⟩

theorem entries_eq_nil {h : Block} (h0 : h 0 = 0) : entries h = [] := by simp [entries, h0]

theorem entries_putEntries {lh : List BlockNo} (hlen : lh.length ≤ LOGSIZE) (h : Block) :
    entries (putEntries lh h) = lh := by
  have hlen' : lh.length ≤ 30 := hlen
  have hn : (putEntries lh h 0).toInt.toNat = lh.length := by
    have hnat : (BitVec.ofNat 32 lh.length).toNat = lh.length := by
      rw [BitVec.toNat_ofNat]
      exact Nat.mod_eq_of_lt (by omega)
    rw [putEntries, if_pos rfl, BitVec.toInt_eq_toNat_of_lt (by rw [hnat]; omega), hnat, Int.toNat_natCast]
  refine ext_getElem? fun i => ?_
  rw [entries, hn, getElem?_map]
  by_cases hi : i < lh.length
  · have hw : Fin.ofNat 256 (i + 1) ≠ 0 := by
      intro he
      have := congrArg Fin.val he
      simp only [Fin.val_ofNat, Fin.val_zero] at this
      omega
    have hv : (Fin.ofNat 256 (i + 1)).val - 1 = i := by simp only [Fin.val_ofNat]; omega
    rw [getElem?_range hi, Option.map_some, putEntries, if_neg hw, hv, getElem?_eq_getElem hi, Option.getD_some]
  · rw [getElem?_eq_none (by simpa using hi), getElem?_eq_none (by simpa using hi)]
    rfl

/-! ## The single-block writes and the cache -/

section Writes

variable {view : Disk} {cnt : BlockNo → BitVec 32} {locks : BlockNo → Option Slot}
  {dirty : BlockNo → Prop} {g : Geometry} {s s' : Bio} {t : Slot} {lh : List BlockNo} {tail : Nat}

theorem Unwrapped.lock {b : BlockNo} (hu : Unwrapped cnt locks dirty) (hb : cnt b + 1 ≠ 0) :
    Unwrapped cnt (update locks b (some t)) dirty := by
  intro a
  exact Lib.update_cases (fun ha => absurd ha hb) (fun a _ => hu a) a

theorem update_locks_ne (a b : BlockNo) : update (update locks a (some t)) b (some t) a ≠ none := by
  by_cases he : a = b
  · simp [he]
  · simp [update_of_ne he]

theorem dirty_written {b : BlockNo} (h : ¬ dirty b) : (fun a => a ≠ b ∧ (a = b ∨ dirty a)) = dirty := by
  funext a
  refine propext ⟨fun ha => ha.2.resolve_left ha.1, fun ha => ⟨?_, .inr ha⟩⟩
  rintro rfl
  exact h ha

theorem update_locks {a b : BlockNo} (ha : locks a = none)
    (hb : update locks a (some t) b = none) :
    update (update (update (update locks a (some t)) b (some t)) b none) a none = locks := by
  have hback : update (update locks a (some t)) b none = update locks a (some t) :=
    Function.update_eq_self_iff.mpr hb.symm
  rw [update_idem, hback, update_idem, Function.update_eq_self_iff.mpr ha.symm]

section

variable (h : Coherent view cnt locks dirty s) (hu : Unwrapped cnt locks dirty)
include h hu

/-- **One block of `write_log`**: the content of the entry's block goes to its log block. -/
theorem writeLog_coherent
    (hcnt : cnt (g.logBlock (tail + 1)) + 1 ≠ 0) (hclean : ¬ dirty (g.logBlock (tail + 1)))
    (hs : writeLog g t lh tail s = some s') :
    ∃ b, lh[tail]? = some b ∧ s'.disk = update s.disk (g.logBlock (tail + 1)) (view b) ∧
      Coherent (update view (g.logBlock (tail + 1)) (view b)) cnt locks dirty s' := by
  obtain ⟨b, hb, hs⟩ := bind_eq_some_iff.mp hs
  obtain ⟨s1, h1, hs⟩ := bind_eq_some_iff.mp hs
  obtain ⟨s2, h2, hs⟩ := bind_eq_some_iff.mp hs
  obtain ⟨d, hd, hs⟩ := bind_eq_some_iff.mp hs
  obtain ⟨s3, h3, hs⟩ := bind_eq_some_iff.mp hs
  obtain ⟨s4, h4, h5⟩ := bind_eq_some_iff.mp hs
  obtain ⟨hl1, hd1, hc1⟩ := bread_coherent h hu h1
  obtain ⟨hl2, hd2, hc2⟩ := bread_coherent hc1 (hu.lock hcnt) h2
  have hdata : d = view b := dataOf_coherent hc2 (by simp) hd
  subst hdata
  obtain ⟨hd3, hc3⟩ := bwrite_coherent (setData_coherent hc2 (update_locks_ne _ _) _) h3
  obtain ⟨-, hd4, hc4⟩ := brelse_coherent hc3 h4
  obtain ⟨-, hd5, hc5⟩ := brelse_coherent hc4 h5
  rw [update_locks hl1 hl2, dirty_written hclean] at hc5
  refine ⟨b, hb, ?_, hc5⟩
  rw [hd5, hd4, hd3, update_self]
  exact congrArg (update · _ _) (hd2.trans hd1)

/-- **`write_head`** writes the entries over the header block. -/
theorem writeHead_coherent
    (hclean : ¬ dirty (g.logBlock 0)) (hs : writeHead g t lh s = some s') :
    s'.disk = update s.disk (g.logBlock 0) (putEntries lh (view (g.logBlock 0))) ∧
      Coherent (update view (g.logBlock 0) (putEntries lh (view (g.logBlock 0)))) cnt locks dirty
        s' := by
  obtain ⟨s1, h1, hs⟩ := bind_eq_some_iff.mp hs
  obtain ⟨d, hd, hs⟩ := bind_eq_some_iff.mp hs
  obtain ⟨s2, h2, h3⟩ := bind_eq_some_iff.mp hs
  obtain ⟨hl1, hd1, hc1⟩ := bread_coherent h hu h1
  have hdata : d = view (g.logBlock 0) := dataOf_coherent hc1 (by simp) hd
  subst hdata
  obtain ⟨hd2, hc2⟩ := bwrite_coherent (setData_coherent hc1 (by simp) _) h2
  obtain ⟨-, hd3, hc3⟩ := brelse_coherent hc2 h3
  have hlocks : update (update locks (g.logBlock 0) (some t)) (g.logBlock 0) none = locks := by
    rw [update_idem, Function.update_eq_self_iff.mpr hl1.symm]
  rw [hlocks, dirty_written hclean] at hc3
  refine ⟨?_, hc3⟩
  rw [hd3, hd2, update_self]
  exact congrArg (update · _ _) hd1

/-- **One block of `install_trans`**: the content of the log block goes home, and the block is
unpinned. -/
theorem installTrans_coherent (hcnt : cnt (g.logBlock (tail + 1)) + 1 ≠ 0)
    (hs : installTrans g t lh tail s = some s') :
    ∃ b, lh[tail]? = some b ∧ s'.disk = update s.disk b (view (g.logBlock (tail + 1))) ∧
      Coherent (update view b (view (g.logBlock (tail + 1)))) (update cnt b (cnt b - 1)) locks
        (fun a => a ≠ b ∧ dirty a) s' := by
  obtain ⟨b, hb, hs⟩ := bind_eq_some_iff.mp hs
  obtain ⟨s1, h1, hs⟩ := bind_eq_some_iff.mp hs
  obtain ⟨s2, h2, hs⟩ := bind_eq_some_iff.mp hs
  obtain ⟨d, hd, hs⟩ := bind_eq_some_iff.mp hs
  obtain ⟨s3, h3, hs⟩ := bind_eq_some_iff.mp hs
  obtain ⟨s4, h4, h5⟩ := bind_eq_some_iff.mp hs
  obtain ⟨hl1, hd1, hc1⟩ := bread_coherent h hu h1
  obtain ⟨hl2, hd2, hc2⟩ := bread_coherent hc1 (hu.lock hcnt) h2
  have hdata : d = view (g.logBlock (tail + 1)) := dataOf_coherent hc2 (update_locks_ne _ _) hd
  subst hdata
  obtain ⟨hd3, hc3⟩ := bwrite_coherent (setData_coherent hc2 (by simp) _) h3
  obtain ⟨-, hd4, hc4⟩ := brelse_coherent (bunpin_coherent hc3 (by simp)) h4
  obtain ⟨-, hd5, hc5⟩ := brelse_coherent hc4 h5
  -- the locks are given back in the other order
  have hlocks : update (update (update (update locks (g.logBlock (tail + 1)) (some t)) b (some t))
      (g.logBlock (tail + 1)) none) b none = locks := by
    by_cases he : g.logBlock (tail + 1) = b
    · rw [he] at hl2
      simp at hl2
    · rw [update_comm he, update_locks hl1 hl2]
  have hdirty : (fun a => a ≠ b ∧ (a = b ∨ dirty a)) = fun a => a ≠ b ∧ dirty a := by
    funext a
    exact propext ⟨fun ha => ⟨ha.1, ha.2.resolve_left ha.1⟩, fun ha => ⟨ha.1, .inr ha.2⟩⟩
  rw [hlocks, hdirty] at hc5
  refine ⟨b, hb, ?_, hc5⟩
  rw [hd5, hd4]
  change s3.disk = _
  rw [hd3, update_self]
  exact congrArg (update · _ _) (hd2.trans hd1)

theorem readHead_coherent
    (hs : readHead g t s = some (s', lh)) :
    lh = entries (view (g.logBlock 0)) ∧ s'.disk = s.disk ∧ Coherent view cnt locks dirty s' := by
  obtain ⟨s1, h1, hs⟩ := bind_eq_some_iff.mp hs
  obtain ⟨d, hd, hs⟩ := bind_eq_some_iff.mp hs
  obtain ⟨s2, h2, hs⟩ := bind_eq_some_iff.mp hs
  cases hs
  obtain ⟨hl1, hd1, hc1⟩ := bread_coherent h hu h1
  have hdata : d = view (g.logBlock 0) := dataOf_coherent hc1 (by simp) hd
  obtain ⟨-, hd2, hc2⟩ := brelse_coherent hc1 h2
  have hlocks : update (update locks (g.logBlock 0) (some t)) (g.logBlock 0) none = locks := by
    rw [update_idem, Function.update_eq_self_iff.mpr hl1.symm]
  rw [hlocks] at hc2
  exact ⟨by rw [hdata], hd2.trans hd1, hc2⟩

end

end Writes

end Xv6.Fs
