/-
# Xv6.Fs.BufRefs — the reference counts of the buffers, from `initlog` on.

A buffer is referenced by the processes between `bread` and `brelse`, and once more while its block is
in the log.  `install_trans` drops the reference of the log with `bunpin`; in a commit that is the one
`log_write` took, in recovery nobody took one.  After recovery of a log that was not empty, the counts
of its blocks are `2^32 - 1`, and stay one too low (`refCounts_iff`): a buffer that one process uses has
count zero and can be recycled under it.
-/
import Xv6.Fs.Crash

namespace Xv6.Fs

open Option (bind_eq_some_iff map_eq_some_iff)
open Kernel (Slot)
open Function List BitVec
open Lib (count)

/-! ## The property -/

/-- The processes that are between the start of a `bread` of block `b` and its `brelse`. -/
def holders (s : FsState) (b : BlockNo) : Nat :=
  count (· = some b) s.waiting + if ((s.bio.find b).bind (·.lock)).isSome then 1 else 0

def expectedRefs (s : FsState) : Option BlockNo → Nat
  | none => 0
  | some b => holders s b + if b ∈ s.lh then 1 else 0

/-- Every buffer counts its holders, and one more for the log. -/
def RefCounts (s : FsState) : Prop := ∀ x ∈ s.bio.bufs, x.refcnt = BitVec.ofNat 32 (expectedRefs s x.key)

/-- `bget` does not recycle a buffer that a process holds or whose block is
logged. -/
def KeepsInUse (s : FsState) : Prop :=
  ∀ b bio, bget b s.bio = some bio → ∀ x ∈ s.bio.bufs, 0 < expectedRefs s x.key →
    ∃ y ∈ bio.bufs, y.key = x.key ∧ y.lock = x.lock

/-- The log a disk may have when the machine starts: distinct home blocks that fit. -/
structure LogOnDisk (g : Geometry) (d : Disk) : Prop where
  nodup : (diskEntries g d).Nodup
  home : ∀ b ∈ diskEntries g d, ¬ g.InLog b
  room : (diskEntries g d).length < g.size

def Uninterrupted (_ : Booting) : RecoverEvent → Prop
  | .next => True
  | .crash => False

instance (r : Booting) : (e : RecoverEvent) → Decidable (Uninterrupted r e)
  | .next => .isTrue trivial
  | .crash => .isFalse id

/-! ## Buffers that were never used -/

/-- No buffer is new among those without a block. -/
def NoneAdded (s s' : Bio) : Prop := ∀ x ∈ s'.bufs, x.key = none → x ∈ s.bufs

section Unused

variable {s s' s'' : Bio} {t : Slot} {b : BlockNo} {g : Geometry} {lh : List BlockNo} {tail : Nat}

theorem NoneAdded.refl (s : Bio) : NoneAdded s s := fun _ hx _ => hx

theorem NoneAdded.trans (h : NoneAdded s s') (h' : NoneAdded s' s'') : NoneAdded s s'' :=
  fun x hx hk => h x (h' x hx hk) hk

theorem NoneAdded.modify {f : Buf → Buf} (hf : ∀ x, (f x).key = x.key) : NoneAdded s (s.modify b f) := by
  intro y hy hk
  obtain ⟨x, hx, rfl⟩ := Bio.mem_modify.mp hy
  by_cases hxb : x.key = some b
  · rw [if_pos hxb, hf, hxb] at hk
    cases hk
  · rw [if_neg hxb]
    exact hx

theorem NoneAdded.toFront : NoneAdded s (toFront b s) := by
  unfold Fs.toFront
  split
  · exact .refl s
  rename_i x hx
  intro y hy _
  rcases mem_cons.mp hy with rfl | hy
  · exact (Bio.find_some hx).1
  · exact (mem_filter.mp hy).1

theorem NoneAdded.bget (hs : bget b s = some s') : NoneAdded s s' := by
  unfold Fs.bget at hs
  split at hs
  · cases hs
    exact .modify fun _ => rfl
  obtain ⟨bufs, hr, rfl⟩ := map_eq_some_iff.mp hs
  obtain ⟨l1, x, l2, hl, -, rfl⟩ := recycle_eq hr
  intro y hy hk
  rw [hl]
  simp only [mem_append, mem_cons] at hy ⊢
  rcases hy with hy | rfl | hy
  · exact .inl hy
  · cases hk
  · exact .inr (.inr hy)

theorem NoneAdded.lockBuf (hs : lockBuf t b s = some s') : NoneAdded s s' := by
  obtain ⟨x, -, hs⟩ := bind_eq_some_iff.mp hs
  split at hs
  · cases hs
  · cases hs
    exact .modify fun _ => rfl

theorem NoneAdded.bread (hs : bread t b s = some s') : NoneAdded s s' := by
  obtain ⟨u, hu, hs⟩ := bind_eq_some_iff.mp hs
  exact (NoneAdded.bget hu).trans (.lockBuf hs)

theorem NoneAdded.bwrite (hs : bwrite t b s = some s') : NoneAdded s s' := by
  obtain ⟨x, -, hs⟩ := bind_eq_some_iff.mp hs
  split at hs
  · cases hs
    exact .refl s
  · cases hs

theorem NoneAdded.brelse (hs : brelse t b s = some s') : NoneAdded s s' := by
  obtain ⟨x, -, hs⟩ := bind_eq_some_iff.mp hs
  split at hs
  · cases hs
    have hmod : NoneAdded s (s.modify b fun x => { x with lock := none, refcnt := x.refcnt - 1 }) := .modify fun _ => rfl
    split
    · exact hmod.trans .toFront
    · exact hmod
  · cases hs

theorem NoneAdded.writeLog (hs : writeLog g t lh tail s = some s') : NoneAdded s s' := by
  obtain ⟨b, -, hs⟩ := bind_eq_some_iff.mp hs
  obtain ⟨s1, h1, hs⟩ := bind_eq_some_iff.mp hs
  obtain ⟨s2, h2, hs⟩ := bind_eq_some_iff.mp hs
  obtain ⟨d, -, hs⟩ := bind_eq_some_iff.mp hs
  obtain ⟨s3, h3, hs⟩ := bind_eq_some_iff.mp hs
  obtain ⟨s4, h4, h5⟩ := bind_eq_some_iff.mp hs
  have hdata : NoneAdded s2 (setData (g.logBlock (tail + 1)) d s2) := .modify fun _ => rfl
  exact (((((NoneAdded.bread h1).trans (.bread h2)).trans hdata).trans (.bwrite h3)).trans
    (.brelse h4)).trans (.brelse h5)

theorem NoneAdded.writeHead (hs : writeHead g t lh s = some s') : NoneAdded s s' := by
  obtain ⟨s1, h1, hs⟩ := bind_eq_some_iff.mp hs
  obtain ⟨d, -, hs⟩ := bind_eq_some_iff.mp hs
  obtain ⟨s2, h2, h3⟩ := bind_eq_some_iff.mp hs
  have hdata : NoneAdded s1 (setData (g.logBlock 0) (putEntries lh d) s1) := .modify fun _ => rfl
  exact (((NoneAdded.bread h1).trans hdata).trans (.bwrite h2)).trans (.brelse h3)

theorem NoneAdded.installTrans (hs : installTrans g t lh tail s = some s') : NoneAdded s s' := by
  obtain ⟨b, -, hs⟩ := bind_eq_some_iff.mp hs
  obtain ⟨s1, h1, hs⟩ := bind_eq_some_iff.mp hs
  obtain ⟨s2, h2, hs⟩ := bind_eq_some_iff.mp hs
  obtain ⟨d, -, hs⟩ := bind_eq_some_iff.mp hs
  obtain ⟨s3, h3, hs⟩ := bind_eq_some_iff.mp hs
  obtain ⟨s4, h4, h5⟩ := bind_eq_some_iff.mp hs
  have hdata : NoneAdded s2 (setData b d s2) := .modify fun _ => rfl
  have hunpin : NoneAdded s3 (bunpin b s3) := .modify fun _ => rfl
  exact ((((((NoneAdded.bread h1).trans (.bread h2)).trans hdata).trans (.bwrite h3)).trans
    hunpin).trans (.brelse h4)).trans (.brelse h5)

theorem NoneAdded.readHead (hs : readHead g t s = some (s', lh)) : NoneAdded s s' := by
  obtain ⟨s1, h1, hs⟩ := bind_eq_some_iff.mp hs
  obtain ⟨d, -, hs⟩ := bind_eq_some_iff.mp hs
  obtain ⟨s2, h2, hs⟩ := bind_eq_some_iff.mp hs
  cases hs
  exact (NoneAdded.bread h1).trans (.brelse h2)

/-- The buffers without a block have no references. -/
def Unused (s : Bio) : Prop := ∀ x ∈ s.bufs, x.key = none → x.refcnt = 0

theorem NoneAdded.unused (h : NoneAdded s s') (hs : Unused s) : Unused s' := fun x hx hk => hs x (h x hx hk) hk

theorem unused_recovered {d : Disk} {r : Booting} {ok : Booting → RecoverEvent → Prop}
    (hr : Lib.Reach (recoverStep g) ok (reboot d) r) : Unused r.bio := by
  have hinit : ∀ d, Unused (binit d) := fun d x hx _ => by
    rw [eq_of_mem_replicate hx]
    rfl
  refine Lib.Reach.invariant (I := fun r : Booting => Unused r.bio) (hinit d) ?_ hr
  intro r e r' hI _ hs
  cases e with
  | crash =>
    cases hs
    exact hinit _
  | next =>
    unfold recoverStep at hs
    dsimp only at hs
    split at hs
    · obtain ⟨⟨bio, lh⟩, h, rfl⟩ := map_eq_some_iff.mp hs
      exact (NoneAdded.readHead h).unused hI
    · obtain ⟨bio, h, rfl⟩ := map_eq_some_iff.mp hs
      exact (NoneAdded.installTrans h).unused hI
    · obtain ⟨bio, h, rfl⟩ := map_eq_some_iff.mp hs
      exact (NoneAdded.writeHead h).unused hI
    · cases hs

theorem fsStep_noneAdded {s s' : FsState} {e : FsEvent} (hs : fsStep g s e = some s') : NoneAdded s.bio s'.bio := by
  cases e with
  | beginOp t | endOp t =>
    simp only [fsStep] at hs
    split at hs
    · cases hs
    · obtain ⟨gate, -, rfl⟩ := map_eq_some_iff.mp hs
      exact .refl _
  | bget t b =>
    simp only [fsStep] at hs
    split at hs
    · cases hs
    · obtain ⟨bio, h, rfl⟩ := map_eq_some_iff.mp hs
      exact .bget h
  | lock t =>
    obtain ⟨b, -, hs⟩ := bind_eq_some_iff.mp hs
    obtain ⟨bio, h, rfl⟩ := map_eq_some_iff.mp hs
    exact .lockBuf h
  | logWrite t b d =>
    simp only [fsStep, logWrite] at hs
    split at hs
    · cases hs
    split at hs
    · cases hs
    split at hs
    · cases hs
    split at hs
    · cases hs
    cases hs
    have hdata : NoneAdded s.bio (setData b d s.bio) := .modify fun _ => rfl
    unfold logBlockOnce
    split
    · exact hdata
    · exact hdata.trans (.modify fun _ => rfl)
  | brelse t b =>
    simp only [fsStep] at hs
    split at hs
    · cases hs
    · obtain ⟨bio, h, rfl⟩ := map_eq_some_iff.mp hs
      exact .brelse h
  | commit =>
    simp only [fsStep, commitStep] at hs
    split at hs
    · cases hs
    · obtain ⟨bio, h, rfl⟩ := map_eq_some_iff.mp hs
      exact .writeLog h
    · obtain ⟨bio, h, rfl⟩ := map_eq_some_iff.mp hs
      exact .writeHead h
    · obtain ⟨bio, h, rfl⟩ := map_eq_some_iff.mp hs
      exact .installTrans h
    · obtain ⟨bio, h, rfl⟩ := map_eq_some_iff.mp hs
      exact .writeHead h
    · cases hs
      exact .refl _

end Unused

section Empty

variable {g : Geometry} {d0 : Disk} {s : FsState} {l : Ledger} {b : BlockNo}

theorem holders_eq {view : Disk} {cnt : BlockNo → BitVec 32} {locks : BlockNo → Option Slot}
    {dirty : BlockNo → Prop} {x : Buf} (hc : Coherent view cnt locks dirty s.bio)
    (hx : x ∈ s.bio.bufs) (hxb : x.key = some b) :
    holders s b = count (· = some b) s.waiting + if (locks b).isSome then 1 else 0 := by
  rw [holders, hc.find hx hxb, Option.bind_some, hc.lock x hx b hxb]

theorem holderRef_eq (o : Option Slot) : holderRef o = BitVec.ofNat 32 (if o.isSome then 1 else 0) := by
  unfold holderRef
  split <;> rfl

theorem InOrder.refCounts (h : InOrder g d0 s l) (hu : Unused s.bio) (hpc : s.pc = none) : RefCounts s := by
  obtain ⟨locks, hc⟩ := h.cache
  have hpins : pins s = s.lh := by simp [pins, hpc]
  intro x hx
  cases hk : x.key with
  | none => exact hu x hx hk
  | some b =>
    rw [hc.count x hx b hk, expectedRefs, holders_eq hc hx hk, hpins, holderRef_eq, refs, ← ofNat_add, Nat.add_right_comm]

theorem InOrder.keepsInUse (h : InOrder g d0 s l) (hpc : s.pc = none) : KeepsInUse s := by
  obtain ⟨locks, hc⟩ := h.cache
  have hpins : pins s = s.lh := by simp [pins, hpc]
  intro b bio hb x hx huse
  obtain ⟨hc', -⟩ := bget_coherent hc (unwrapped_refs _ _ locks) hb
  cases hk : x.key with
  | none =>
    rw [hk] at huse
    exact absurd huse (lt_irrefl 0)
  | some a =>
    rw [hk, expectedRefs, holders_eq hc hx hk] at huse
    have hcached : update (fun b => BitVec.ofNat 32 (refs s.waiting (pins s) b)) b
        (BitVec.ofNat 32 (refs s.waiting (pins s) b) + 1) a ≠ 0 ∨ locks a ≠ none ∨ a ∈ pins s := by
      by_cases hlock : locks a = none
      · refine .inl ?_
        by_cases hab : a = b
        · subst hab
          rw [update_self]
          exact refs_add_one_ne _ _ _
        rw [update_of_ne hab]
        intro h0
        have hle := refs_le s.waiting (pins s) a
        have hzero := (ofNat_eq_zero (by omega)).mp h0
        rw [refs, hpins] at hzero
        rw [hlock, Option.isSome_none, if_neg Bool.false_ne_true] at huse
        omega
      · exact .inr (.inl hlock)
    obtain ⟨y, hy, hya⟩ := hc'.cached a hcached
    exact ⟨y, hy, hya, (hc'.lock y hy a hya).trans (hc.lock x hx a hk).symm⟩

end Empty

/-! ## With a log to recover -/

section Recovered

variable {g : Geometry} {d : Disk} {es : List BlockNo} {r r' : Booting} {b : BlockNo}

/-- The references of the home blocks, beyond those of lock holders, when `install_trans` has been
through the first `k` entries: `bunpin` has taken one from each. -/
def unpinned (es : List BlockNo) (k : Nat) (b : BlockNo) : BitVec 32 :=
  if b ∈ es.take k then -1 else 0

/-- Where `recover_from_log` is on a disk with the entries `es`, and what the buffers count. -/
def Unpinned (g : Geometry) (es : List BlockNo) (r : Booting) : Prop :=
  match r.pc with
  | .readHead => diskEntries g r.bio.disk = es ∧
      Coherent r.bio.disk (unpinned es 0) (fun _ => none) (fun _ => False) r.bio
  | .install tail => r.lh = es ∧ tail < es.length ∧
      Coherent r.bio.disk (unpinned es tail) (fun _ => none) (fun _ => False) r.bio
  | .clearHead | .done =>
    Coherent r.bio.disk (unpinned es es.length) (fun _ => none) (fun _ => False) r.bio

theorem unpinned_zero (es : List BlockNo) : unpinned es 0 = fun _ => 0 := by
  funext b
  simp [unpinned]

theorem unpinned_succ {k : Nat} (hnd : es.Nodup) (hb : es[k]? = some b) :
    unpinned es (k + 1) = update (unpinned es k) b (unpinned es k b - 1) := by
  obtain ⟨hk, hget⟩ := List.getElem?_eq_some_iff.mp hb
  have htake : es.take (k + 1) = es.take k ++ [b] := by rw [take_add_one, hb]; rfl
  have hfresh : b ∉ es.take k := by
    have hnd' := hnd.sublist (take_sublist (k + 1) es)
    rw [htake] at hnd'
    intro hmem
    exact (nodup_append.mp hnd').2.2 b hmem b (mem_singleton_self b) rfl
  funext a
  by_cases hab : a = b
  · subst hab
    rw [update_self, unpinned, htake, if_pos (by simp), unpinned, if_neg hfresh]
    exact (zero_sub 1).symm
  · rw [update_of_ne hab, unpinned, unpinned, htake]
    simp [hab]

theorem unpinned_install {bio : Bio} {tail : Nat} (htail : tail ≤ es.length)
    (hc : Coherent bio.disk (unpinned es tail) (fun _ => none) (fun _ => False) bio) :
    Unpinned g es ⟨bio, es, if tail < es.length then .install tail else .clearHead⟩ := by
  by_cases hlt : tail < es.length
  · rw [if_pos hlt]
    exact ⟨rfl, hlt, hc⟩
  · rw [if_neg hlt]
    have he : tail = es.length := Nat.le_antisymm htail (Nat.le_of_not_lt hlt)
    rw [he] at hc
    exact hc

theorem Unpinned.step (hnd : es.Nodup) (hhome : ∀ b ∈ es, ¬ g.InLog b) (hroom : es.length < g.size)
    (h : Unpinned g es r) (hs : recoverStep g r .next = some r') : Unpinned g es r' := by
  unfold recoverStep at hs
  dsimp only at hs
  unfold Unpinned at h
  split at hs
  · rename_i hpc
    simp only [hpc] at h
    obtain ⟨hes, hc⟩ := h
    obtain ⟨⟨bio, lh⟩, hr, rfl⟩ := map_eq_some_iff.mp hs
    obtain ⟨rfl, hdisk, hc'⟩ := readHead_coherent hc (unwrapped_unlocked _) hr
    change entries (r.bio.disk (g.logBlock 0)) = es at hes
    rw [hes]
    exact unpinned_install (Nat.zero_le _) (hdisk ▸ hc')
  · rename_i tail hpc
    simp only [hpc] at h
    obtain ⟨hlh, htail, hc⟩ := h
    obtain ⟨bio, hr, rfl⟩ := map_eq_some_iff.mp hs
    have hlog : unpinned es tail (g.logBlock (tail + 1)) + 1 ≠ 0 := by
      rw [unpinned, if_neg]
      · decide
      · intro hmem
        exact hhome _ (mem_of_mem_take hmem) (Geometry.inLog_logBlock (by omega))
    obtain ⟨b, hb, hdisk, hc'⟩ := installTrans_coherent hc (unwrapped_unlocked _) hlog hr
    rw [hlh] at hb
    have hdirty : (fun a => a ≠ b ∧ False) = fun _ : BlockNo => False := by
      funext a
      exact and_false _
    rw [hdirty, ← hdisk, ← unpinned_succ hnd hb] at hc'
    rw [hlh]
    exact unpinned_install htail hc'
  · rename_i hpc
    simp only [hpc] at h
    obtain ⟨bio, hr, rfl⟩ := map_eq_some_iff.mp hs
    obtain ⟨hdisk, hc'⟩ := writeHead_coherent h (unwrapped_unlocked _) id hr
    rw [← hdisk] at hc'
    exact hc'
  · cases hs

theorem unpinned_reboot (d : Disk) : Unpinned g (diskEntries g d) (reboot d) := by
  refine ⟨rfl, ?_⟩
  rw [unpinned_zero]
  exact binit_coherent d

/-- **After recovery, the block of every entry counts one reference too few.** -/
theorem recovered_refcnt (hlog : LogOnDisk g d)
    (hboot : Lib.Reach (recoverStep g) Uninterrupted (reboot d) r) (hup : r.pc = .done)
    (hb : b ∈ diskEntries g d) : ∃ x, r.bio.find b = some x ∧ x.lock = none ∧ x.refcnt = -1 := by
  have hinv : Unpinned g (diskEntries g d) r := by
    refine Lib.Reach.invariant (unpinned_reboot d) ?_ hboot
    intro r e r' hI hok hs
    cases e with
    | next => exact hI.step hlog.nodup hlog.home hlog.room hs
    | crash => exact absurd hok id
  simp only [Unpinned, hup] at hinv
  have hcnt : unpinned (diskEntries g d) (diskEntries g d).length b = -1 := by
    rw [unpinned, take_length, if_pos hb]
  obtain ⟨x, hx, hxb⟩ := hinv.cached b (.inl (by rw [hcnt]; decide))
  refine ⟨x, hinv.find hx hxb, hinv.lock x hx b hxb, ?_⟩
  rw [hinv.count x hx b hxb, hcnt]
  rfl

end Recovered

/-- **The reference counts are in order exactly when there was nothing to recover**: in every state between two commits
after a boot on a disk with a committed log, and `bget` recycles no buffer in use. -/
theorem refCounts_iff {g : Geometry} {d : Disk} {r : Booting} (hlog : LogOnDisk g d)
    (hboot : Lib.Reach (recoverStep g) Uninterrupted (reboot d) r) (hup : r.pc = .done) :
    (∀ s, Lib.Reach (fsStep g) (fun _ _ => True) (.start r) s → s.pc = none →
      RefCounts s ∧ KeepsInUse s) ↔ diskEntries g d = [] := by
  constructor
  · intro h
    by_contra hne
    obtain ⟨b, hb⟩ := exists_mem_of_ne_nil _ hne
    obtain ⟨x, hfind, hxl, hxr⟩ := recovered_refcnt hlog hboot hup hb
    obtain ⟨hx, hxb⟩ := Bio.find_some hfind
    have hcount := (h _ .refl rfl).1 x hx
    -- nobody holds the buffer, and the log in memory is empty
    have hlh : r.lh = [] := recovered_lh (hboot.mono fun _ _ _ => trivial) hup
    have hwait : count (· = some b) (FsState.start r).waiting = 0 := Lib.count_eq_zero.mpr fun _ h => by cases h
    have hzero : expectedRefs (.start r) (some b) = 0 := by
      have hlog : b ∉ (FsState.start r).lh := by
        rw [show (FsState.start r).lh = [] from hlh]
        exact not_mem_nil
      have hfind' : (FsState.start r).bio.find b = some x := hfind
      rw [expectedRefs, holders, hwait, hfind', Option.bind_some, hxl, if_neg hlog]
      rfl
    rw [hxr, hxb, hzero] at hcount
    exact absurd hcount (by decide)
  · intro hnil s hs hpc
    have hinv : (∃ l, InOrder g d s l) ∧ Unused s.bio := by
      refine Lib.Reach.invariant (I := fun s => (∃ l, InOrder g d s l) ∧ Unused s.bio)
        ⟨⟨_, inOrder_start hnil (hboot.mono fun _ _ _ => trivial) hup⟩, unused_recovered hboot⟩ ?_ hs
      rintro s e s' ⟨⟨l, hl⟩, hu⟩ _ hstep
      exact ⟨⟨_, hl.step hstep⟩, (fsStep_noneAdded hstep).unused hu⟩
    obtain ⟨⟨l, hl⟩, hu⟩ := hinv
    exact ⟨hl.refCounts hu hpc, hl.keepsInUse hpc⟩

/-- A disk with an empty log. -/
theorem refCounts_run : ∃ r, Lib.Reach (recoverStep smallLog) Uninterrupted (reboot fun _ _ => 0) r ∧
    r.pc = .done ∧ ∀ s, Lib.Reach (fsStep smallLog) (fun _ _ => True) (.start r) s → s.pc = none →
      RefCounts s ∧ KeepsInUse s := by
  obtain ⟨r, hr, hup⟩ := Lib.Reach.of_any (recoverStep smallLog) Uninterrupted (reboot fun _ _ => 0)
    [.next, .next] (fun r => r.pc = .done) (by decide)
  have hnil : diskEntries smallLog (fun _ _ => 0) = [] := entries_eq_nil rfl
  have hlog : LogOnDisk smallLog (fun _ _ => 0) :=
    ⟨hnil ▸ nodup_nil, by rw [hnil]; exact forall_mem_nil _, by rw [hnil]; decide⟩
  have hdone := of_decide_eq_true hup
  exact ⟨r, hr, hdone, (refCounts_iff hlog hr hdone).mpr hnil⟩

/-- A disk whose log holds block 50 with the content of block 3. -/
def oneEntry : Disk := fun b => if b = 2 then putEntries [50] fun _ => 0 else fun _ => 0

/-- After recovery of that log, the buffer of block 50 counts `2^32 - 1` references. -/
theorem not_refCounts : ¬ ∀ (g : Geometry) (d : Disk) (r : Booting) (s : FsState), LogOnDisk g d →
    Lib.Reach (recoverStep g) Uninterrupted (reboot d) r → r.pc = .done →
    Lib.Reach (fsStep g) (fun _ _ => True) (.start r) s → s.pc = none →
    RefCounts s ∧ KeepsInUse s := by
  intro hall
  obtain ⟨r, hr, hcheck⟩ := Lib.Reach.of_any (recoverStep smallLog) Uninterrupted (reboot oneEntry)
    [.next, .next, .next] (fun r => decide (r.pc = .done ∧ ∃ x ∈ r.bio.bufs,
      x.refcnt = 4294967295#32 ∧ expectedRefs (.start r) x.key = 0)) (by decide)
  obtain ⟨hup, x, hx, hcnt, hexp⟩ := of_decide_eq_true hcheck
  have hes : diskEntries smallLog oneEntry = [50] := by decide
  have hlog : LogOnDisk smallLog oneEntry := by
    refine ⟨by simp [hes], fun b hb => ?_, by rw [hes]; decide⟩
    rw [hes, mem_singleton] at hb
    subst hb
    decide
  have hcount := (hall _ _ r _ hlog hr hup .refl rfl).1 x hx
  rw [hcnt, hexp] at hcount
  exact absurd hcount (by decide)

end Xv6.Fs
