/-
# Xv6.Fs.Store — buffer cache, log and disk together are one plain block store.

The abstract machine has one content per block: a read returns it, a write replaces it.  `Observed` is
the file system with the list of what its operations saw and did, a `bread` that returns and a
`log_write`; `store_refinement` says that this list is a run of the abstract machine.  Copies to the
log, installation, eviction and re-reading from the disk do not show.

The blocks of the log are read and written by the log only, and are not part of the store.
-/
import Xv6.Fs.Crash

namespace Xv6.Fs

open Kernel (Slot)
open Function Option

inductive Access
  /-- A `bread` of block `b` returns `d`. -/
  | bread (b : BlockNo) (d : Block)
  /-- Block `b` is set to `d` and handed to `log_write`. -/
  | write (b : BlockNo) (d : Block)

/-- The plain block store. -/
def storeStep (m : Disk) : Access → Option Disk
  | .bread b d => if m b = d then some m else none
  | .write b d => some (update m b d)

/-- The access that the event `e`, which leads from `s` to `s'`, completes. -/
def access (g : Geometry) (s s' : FsState) : FsEvent → Option Access
  | .lock t => (s.waiting t).bind fun b =>
    if g.InLog b then none else (dataOf b s'.bio).map (.bread b)
  | .logWrite _ b d => some (.write b d)
  | _ => none

/-- The file system and the accesses so far, in order. -/
structure Observed where
  fs : FsState
  seen : List Access

def observedStep (g : Geometry) (s : Observed) (e : FsEvent) : Option Observed :=
  (fsStep g s.fs e).map fun fs => ⟨fs, s.seen ++ (access g s.fs fs e).toList⟩

def Observed.start (r : Booting) : Observed := ⟨.start r, []⟩

/-! ## The simulation -/

section Simulation

variable {g : Geometry} {d0 : Disk} {s s' : FsState} {l : Ledger} {t : Slot} {b : BlockNo}

section

variable (h : InOrder g d0 s l)
include h

theorem InOrder.bread_data (hb : s.waiting t = some b) (hhome : ¬ g.InLog b)
    (hs : fsStep g s (.lock t) = some s') :
    dataOf b s'.bio = some (applied d0 l.writes b) := by
  obtain ⟨b', hb', hs⟩ := bind_eq_some_iff.mp hs
  cases hb.symm.trans hb'
  obtain ⟨bio, hl, rfl⟩ := map_eq_some_iff.mp hs
  obtain ⟨locks, hc⟩ := h.cache
  obtain ⟨-, -, hc'⟩ := lockBuf_coherent hc hl
  have hheld : update locks b (some t) b ≠ none := by simp
  obtain ⟨x, hx, hxb⟩ := hc'.cached b (.inr (.inl hheld))
  have hdata : dataOf b bio = some x.data := by rw [dataOf, hc'.find hx hxb, map_some]
  show dataOf b bio = _
  rw [hdata, dataOf_coherent hc' hheld hdata, viewOf, if_neg hhome]

/-- A process that waits for a buffer gets it as soon as nobody holds it. -/
theorem InOrder.bread_returns (hb : s.waiting t = some b)
    (hfree : (s.bio.find b).bind (·.lock) = none) : ∃ s', fsStep g s (.lock t) = some s' := by
  obtain ⟨locks, hc⟩ := h.cache
  have hcount : BitVec.ofNat 32 (refs s.waiting (pins s) b) ≠ 0 := by
    intro h0
    have hle := refs_le s.waiting (pins s) b
    have hzero := (ofNat_eq_zero (by omega)).mp h0
    have hnone : Lib.count (· = some b) s.waiting = 0 := by unfold refs at hzero; omega
    exact Lib.count_eq_zero.mp hnone t hb
  obtain ⟨x, hx, hxb⟩ := hc.cached b (.inl hcount)
  have hfind := hc.find hx hxb
  have hlock : ¬ x.lock.isSome = true := by rw [hfind, bind_some] at hfree; simp [hfree]
  have hl : ∃ bio, lockBuf t b s.bio = some bio := by
    rw [lockBuf, hfind, bind_some, if_neg hlock]
    exact ⟨_, rfl⟩
  obtain ⟨bio, hbio⟩ := hl
  exact ⟨_, by rw [fsStep, hb, bind_some, hbio]; rfl⟩

/-- A logged block that is not installed yet is in the cache, referenced, with its last content. -/
theorem InOrder.pinned (hb : b ∈ pins s) :
    ∃ x ∈ s.bio.bufs, x.key = some b ∧ x.refcnt ≠ 0 ∧ x.valid = true ∧ x.data = applied d0 l.writes b := by
  obtain ⟨locks, hc⟩ := h.cache
  obtain ⟨x, hx, hxb⟩ := hc.cached b (.inr (.inr hb))
  have hv := hc.valid x hx b hxb (.inr hb)
  refine ⟨x, hx, hxb, fun h0 => ?_, hv, ?_⟩
  · rw [hc.count x hx b hxb] at h0
    exact (unwrapped_refs _ _ locks b h0).2.2 hb
  · rw [hc.data x hx b hxb hv, viewOf, if_neg (h.home b (pins_subset s b hb))]

/-- **One event of the file system** is one access of the store, or none. -/
theorem InOrder.simulates {e : FsEvent} {seen : List Access}
    (hseen : Lib.Trace storeStep (fun _ _ => True) d0 seen (applied d0 l.writes))
    (hs : fsStep g s e = some s') :
    Lib.Trace storeStep (fun _ _ => True) d0 (seen ++ (access g s s' e).toList)
      (applied d0 (l.record s e).writes) := by
  have hsilent : Lib.Trace storeStep (fun _ _ => True) d0 (seen ++ []) (applied d0 l.writes) := by
    rw [List.append_nil]
    exact hseen
  cases e with
  | beginOp t | bget t b | brelse t b | endOp t => exact hsilent
  | lock t =>
    show Lib.Trace storeStep (fun _ _ => True) d0 (seen ++ (access g s s' (.lock t)).toList)
      (applied d0 l.writes)
    cases hb : s.waiting t with
    | none =>
      simp only [access, hb, bind_none]
      exact hsilent
    | some b =>
      by_cases hlog : g.InLog b
      · simp only [access, hb, bind_some, if_pos hlog]
        exact hsilent
      · have hdata := h.bread_data hb hlog hs
        simp only [access, hb, bind_some, if_neg hlog, hdata, map_some]
        refine hseen.snoc trivial ?_
        exact if_pos rfl
  | logWrite t b d =>
    simp only [fsStep] at hs
    split at hs
    · cases hs
    rename_i hguard
    obtain ⟨op, hop⟩ := ne_none_iff_exists'.mp (not_or.mp hguard).2
    refine hseen.snoc trivial ?_
    show some (update (applied d0 l.writes) b d) = some (applied d0 (l.record s (.logWrite t b d)).writes)
    simp only [Ledger.record, hop, map_some, toList_some, applied_append]
  | commit =>
    have hwrites : (l.record s .commit).writes = l.writes := by
      unfold Ledger.record
      dsimp only
      split <;> rfl
    rw [hwrites]
    exact hsilent

end

/-- **One plain block store.** What the operations have seen and done, in any interleaving, is a run of the plain store:
every `bread` has returned what was last written to its block. A block that is logged and not installed is in the
cache with that content; and a `bread` returns when nobody else holds the buffer. -/
theorem store_refinement {r0 : Booting} {s : Observed} (h0 : d0 (g.logBlock 0) 0 = 0)
    (hboot : Lib.Reach (recoverStep g) (fun _ _ => True) (reboot d0) r0) (hup : r0.pc = .done)
    (hrun : Lib.Reach (observedStep g) (fun _ _ => True) (.start r0) s) :
    ∃ m, Lib.Trace storeStep (fun _ _ => True) d0 s.seen m ∧
      (∀ b ∈ pins s.fs, ∃ x ∈ s.fs.bio.bufs, x.key = some b ∧ x.refcnt ≠ 0 ∧ x.valid = true ∧ x.data = m b) ∧
      ∀ t b, s.fs.waiting t = some b →
        (¬ g.InLog b → ∀ s', fsStep g s.fs (.lock t) = some s' → dataOf b s'.bio = some (m b)) ∧
          ((s.fs.bio.find b).bind (·.lock) = none → ∃ s', fsStep g s.fs (.lock t) = some s') := by
  have hinv : ∃ l, InOrder g d0 s.fs l ∧
      Lib.Trace storeStep (fun _ _ => True) d0 s.seen (applied d0 l.writes) := by
    refine Lib.Reach.invariant (I := fun s : Observed => ∃ l, InOrder g d0 s.fs l ∧
      Lib.Trace storeStep (fun _ _ => True) d0 s.seen (applied d0 l.writes))
      ⟨_, inOrder_start (entries_eq_nil h0) hboot hup, .nil⟩ ?_ hrun
    intro s e s' hI _ hs
    obtain ⟨l, hin, hseen⟩ := hI
    obtain ⟨fs, hfs, rfl⟩ := map_eq_some_iff.mp hs
    exact ⟨l.record s.fs e, hin.step hfs, hin.simulates hseen hfs⟩
  obtain ⟨l, hin, hseen⟩ := hinv
  refine ⟨applied d0 l.writes, hseen, fun b hb => hin.pinned hb, fun t b hb => ⟨?_, ?_⟩⟩
  · exact fun hhome s' hs => hin.bread_data hb hhome hs
  · exact fun hfree => hin.bread_returns hb hfree

end Simulation

/-- Block 50 is written and committed, then read by another process, which gets what was written. -/
theorem store_refinement_run : ∃ (s : Observed) (m : Disk),
    s.seen[2]?.any (fun a => match a with
      | .bread b d => b = 50 ∧ d 7 = 9
      | .write _ _ => False) = true ∧
    Lib.Trace storeStep (fun _ _ => True) (fun _ _ => 0) s.seen m := by
  have hrun : ((Lib.exec (recoverStep smallLog) (fun _ _ => True) (reboot fun _ _ => 0)
      [.next, .next]).bind fun r0 =>
        (Lib.exec (observedStep smallLog) (fun _ _ => True) (.start r0)
          [.beginOp 0, .bget 0 50, .lock 0, .logWrite 0 50 (fun _ => 9), .brelse 0 50, .endOp 0,
            .commit, .commit, .commit, .commit, .commit, .beginOp 1, .bget 1 50, .lock 1]).map
          fun s => decide (r0.pc = .done ∧ s.seen[2]?.any (fun a => match a with
            | .bread b d => b = 50 ∧ d 7 = 9
            | .write _ _ => False) = true)) = some true := by
    decide
  obtain ⟨r0, hr0, hrun⟩ := bind_eq_some_iff.mp hrun
  obtain ⟨s, hs, hrun⟩ := map_eq_some_iff.mp hrun
  obtain ⟨hup, hread⟩ := of_decide_eq_true hrun
  obtain ⟨m, hm, -⟩ := store_refinement rfl (Lib.Reach.refl.exec hr0) hup (Lib.Reach.refl.exec hs)
  exact ⟨s, m, hread, hm⟩

end Xv6.Fs
