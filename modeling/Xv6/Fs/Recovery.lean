/-
# Xv6.Fs.Recovery — what `recover_from_log` makes of a disk, however often it crashes.

`Recoverable g C d` says that the log on disk `d`, replayed over the home blocks, gives the content
`C`.  Every single write of recovery keeps it, so it does not matter where recovery crashes; and when
recovery completes, the log is empty and the home blocks ARE `C`.

During recovery the cache is clean at every step.  Its reference counts are not in order: `bunpin` is
called on blocks that nobody pinned.  The log blocks keep a count of zero, which is all the loop relies on.
-/
import Xv6.Fs.Log
import Xv6.Lib.Redo
import Xv6.Lib.Trace

namespace Xv6.Fs

open Function List Option
open Lib (replay)

variable {g : Geometry} {C d : Disk} {b : BlockNo} {x : Block} {i : Nat}

/-! ## The log on a disk -/

def diskEntries (g : Geometry) (d : Disk) : List BlockNo := entries (d (g.logBlock 0))

def redo (g : Geometry) (d : Disk) : List (BlockNo × Block) :=
  (diskEntries g d).mapIdx fun i b => (b, d (g.logBlock (i + 1)))

@[simp] theorem redo_keys (g : Geometry) (d : Disk) : (redo g d).map Prod.fst = diskEntries g d := by
  refine ext_getElem? fun i => ?_
  rw [redo, List.getElem?_map, List.getElem?_mapIdx]
  cases (diskEntries g d)[i]? <;> rfl

theorem mem_redo (h : (diskEntries g d)[i]? = some b) : (b, d (g.logBlock (i + 1))) ∈ redo g d := by
  refine mem_of_getElem? (i := i) ?_
  rw [redo, List.getElem?_mapIdx, h]
  rfl

theorem forall_redo {P : BlockNo × Block → Prop}
    (h : ∀ i b, (diskEntries g d)[i]? = some b → P (b, d (g.logBlock (i + 1)))) :
    ∀ w ∈ redo g d, P w := by
  intro w hw
  obtain ⟨i, hi⟩ := mem_iff_getElem?.mp hw
  rw [redo, List.getElem?_mapIdx] at hi
  obtain ⟨b, hb, rfl⟩ := map_eq_some_iff.mp hi
  exact h i b hb

/-- Replaying the log of disk `d` gives the home blocks the content `C`. -/
structure Recoverable (g : Geometry) (C d : Disk) : Prop where
  nodup : (diskEntries g d).Nodup
  home : ∀ b ∈ diskEntries g d, ¬ g.InLog b
  room : (diskEntries g d).length < g.size
  content : ∀ b, ¬ g.InLog b → replay d (redo g d) b = C b

namespace Recoverable

section

variable (h : Recoverable g C d)
include h

theorem logBlock_lt (hb : (diskEntries g d)[i]? = some b) : i + 1 < g.size := by
  have hi : i < (diskEntries g d).length := (List.getElem?_eq_some_iff.mp hb).1
  have := h.room
  omega

theorem redo_update (hb : ¬ g.InLog b) :
    diskEntries g (update d b x) = diskEntries g d ∧ redo g (update d b x) = redo g d := by
  have hentries : diskEntries g (update d b x) = diskEntries g d := by
    rw [diskEntries, update_of_ne (Geometry.ne_logBlock hb g.header).symm]
    rfl
  refine ⟨hentries, ?_⟩
  refine ext_getElem? fun i => ?_
  rw [redo, redo, hentries, List.getElem?_mapIdx, List.getElem?_mapIdx]
  cases hi : (diskEntries g d)[i]? with
  | none => rfl
  | some a =>
    have hne := (Geometry.ne_logBlock hb (h.logBlock_lt hi)).symm
    simp [hne]

/-- **Installing an entry** keeps the disk recoverable. -/
theorem install (hb : (diskEntries g d)[i]? = some b) : Recoverable g C (update d b (d (g.logBlock (i + 1)))) := by
  have hhome := h.home b (mem_of_getElem? hb)
  obtain ⟨he, hr⟩ := h.redo_update (x := d (g.logBlock (i + 1))) hhome
  refine ⟨by rw [he]; exact h.nodup, by rw [he]; exact h.home, by rw [he]; exact h.room, ?_⟩
  intro a ha
  rw [hr, Lib.replay_update_of_mem (by rw [redo_keys]; exact h.nodup) (mem_redo hb)]
  exact h.content a ha

theorem installed
    (hall : ∀ i b, (diskEntries g d)[i]? = some b → d b = d (g.logBlock (i + 1))) :
    ∀ b, ¬ g.InLog b → d b = C b := by
  intro b hb
  rw [← h.content b hb, Lib.replay_eq_self (forall_redo fun i b hb => hall i b hb)]

end

theorem of_nil (hnil : diskEntries g d = []) (hC : ∀ b, ¬ g.InLog b → d b = C b) : Recoverable g C d := by
  refine ⟨by simp [hnil], by simp [hnil], by simpa [hnil] using g.header, fun b hb => ?_⟩
  rw [redo, hnil]
  exact hC b hb

/-- **Clearing the header** of a disk whose home blocks are up to date. -/
theorem clear (hC : ∀ b, ¬ g.InLog b → d b = C b) : Recoverable g C (update d (g.logBlock 0) (putEntries [] x)) := by
  refine of_nil ?_ fun b hb => ?_
  · rw [diskEntries, update_self]
    exact entries_putEntries (Nat.zero_le _) x
  · rw [update_of_ne (Geometry.ne_logBlock hb g.header)]
    exact hC b hb

theorem nil_of_clear (d : Disk) (x : Block) : diskEntries g (update d (g.logBlock 0) (putEntries [] x)) = [] := by
  rw [diskEntries, update_self]
  exact entries_putEntries (Nat.zero_le _) x

end Recoverable

/-! ## Recovery -/

/-- Where recovery is, and what it has done by then. -/
def Progressed (g : Geometry) (C : Disk) (r : Booting) : Prop :=
  match r.pc with
  | .readHead => True
  | .install tail => r.lh = diskEntries g r.bio.disk ∧ tail < r.lh.length ∧
      ∀ i b, i < tail → r.lh[i]? = some b → r.bio.disk b = r.bio.disk (g.logBlock (i + 1))
  | .clearHead => ∀ b, ¬ g.InLog b → r.bio.disk b = C b
  | .done => r.lh = [] ∧ diskEntries g r.bio.disk = []

/-- **The invariant of recovery** from a disk whose log names the blocks `es`. -/
structure Recovering (g : Geometry) (es : List BlockNo) (C : Disk) (r : Booting) : Prop where
  recoverable : Recoverable g C r.bio.disk
  logged : ∀ b ∈ diskEntries g r.bio.disk, b ∈ es
  cache : ∃ cnt, Coherent r.bio.disk cnt (fun _ => none) (fun _ => False) r.bio ∧ ∀ b, cnt b ≠ 0 → b ∈ es
  progressed : Progressed g C r

section Recovering

variable {es : List BlockNo} {r r' : Booting}

theorem unwrapped_unlocked (cnt : BlockNo → BitVec 32) : Unwrapped cnt (fun _ => none) (fun _ => False) := by
  intro b hb
  refine ⟨?_, rfl, id⟩
  simpa [holderRef] using hb

theorem Recovering.reboot (h : Recoverable g C d) (hes : ∀ b ∈ diskEntries g d, b ∈ es) : Recovering g es C (reboot d) :=
  ⟨h, hes, ⟨_, binit_coherent d, fun _ hb => absurd rfl hb⟩, trivial⟩

theorem progressed_install {bio : Bio} {lh : List BlockNo} {tail : Nat}
    (hrec : Recoverable g C bio.disk) (hlh : lh = diskEntries g bio.disk)
    (hdone : ∀ i b, i < tail → lh[i]? = some b → bio.disk b = bio.disk (g.logBlock (i + 1))) :
    Progressed g C ⟨bio, lh, if tail < lh.length then .install tail else .clearHead⟩ := by
  by_cases hlt : tail < lh.length
  · rw [if_pos hlt]
    exact ⟨hlh, hlt, hdone⟩
  rw [if_neg hlt]
  refine hrec.installed fun i b hb => ?_
  rw [← hlh] at hb
  have hi : i < lh.length := (List.getElem?_eq_some_iff.mp hb).1
  exact hdone i b (by omega) hb

theorem Recovering.step {e : RecoverEvent} (hes : ∀ b ∈ es, ¬ g.InLog b)
    (h : Recovering g es C r) (hs : recoverStep g r e = some r') : Recovering g es C r' := by
  cases e with
  | crash =>
    cases hs
    exact .reboot h.recoverable h.logged
  | next =>
    obtain ⟨cnt, hcoh, hcnt⟩ := h.cache
    have hprog := h.progressed
    -- the log's own blocks are never pinned
    have hlogcnt : ∀ i, i < g.size → cnt (g.logBlock i) + 1 ≠ 0 := by
      intro i hi
      have hzero : cnt (g.logBlock i) = 0 := by
        by_contra hne
        exact hes _ (hcnt _ hne) (Geometry.inLog_logBlock hi)
      rw [hzero]
      decide
    unfold recoverStep at hs
    dsimp only at hs
    split at hs
    · obtain ⟨⟨bio, lh⟩, hr, rfl⟩ := map_eq_some_iff.mp hs
      obtain ⟨rfl, hdisk, hcoh'⟩ := readHead_coherent hcoh (unwrapped_unlocked cnt) hr
      have hrec : Recoverable g C bio.disk := hdisk ▸ h.recoverable
      refine ⟨hrec, hdisk ▸ h.logged, ⟨cnt, hdisk ▸ hcoh', hcnt⟩, ?_⟩
      refine progressed_install hrec ?_ fun i b hi => absurd hi (Nat.not_lt_zero i)
      rw [diskEntries, hdisk]
    · rename_i tail hpc
      simp only [Progressed, hpc] at hprog
      obtain ⟨hlh, htail, hdone⟩ := hprog
      obtain ⟨bio, hr, rfl⟩ := map_eq_some_iff.mp hs
      have hroom := h.recoverable.room
      obtain ⟨b, hb, hdisk, hcoh'⟩ := installTrans_coherent hcoh (unwrapped_unlocked cnt)
        (hlogcnt _ (by rw [← hlh] at hroom; omega)) hr
      have hb' : (diskEntries g r.bio.disk)[tail]? = some b := hlh ▸ hb
      have hhome := h.recoverable.home b (mem_of_getElem? hb')
      have hrec : Recoverable g C bio.disk := hdisk ▸ h.recoverable.install hb'
      have hentries : diskEntries g bio.disk = diskEntries g r.bio.disk := by
        rw [hdisk]
        exact (h.recoverable.redo_update hhome).1
      have hdirty : (fun a => a ≠ b ∧ False) = fun _ : BlockNo => False := by
        funext a
        exact and_false _
      rw [hdirty, ← hdisk] at hcoh'
      refine ⟨hrec, hentries ▸ h.logged, ⟨_, hcoh', fun a ha => ?_⟩, ?_⟩
      · by_cases hab : a = b
        · exact hab ▸ h.logged b (mem_of_getElem? hb')
        · rw [update_of_ne hab] at ha
          exact hcnt a ha
      refine progressed_install hrec (hlh.trans hentries.symm) fun i a hi ha => ?_
      have ha' : (diskEntries g r.bio.disk)[i]? = some a := hlh ▸ ha
      have hlog : ∀ j c, (diskEntries g r.bio.disk)[j]? = some c →
          bio.disk (g.logBlock (j + 1)) = r.bio.disk (g.logBlock (j + 1)) := by
        intro j c hj
        rw [hdisk, update_of_ne]
        exact (Geometry.ne_logBlock hhome (h.recoverable.logBlock_lt hj)).symm
      rw [hlog i a ha', hdisk]
      by_cases hab : a = b
      · -- the block just installed; no other entry names it
        subst hab
        have hit : i = tail := by
          have hi' := (List.getElem?_eq_some_iff.mp ha').1
          have ht' := (List.getElem?_eq_some_iff.mp hb').1
          refine (@List.Nodup.getElem_inj_iff _ _ h.recoverable.nodup i hi' tail ht').mp ?_
          rw [(List.getElem?_eq_some_iff.mp ha').2, (List.getElem?_eq_some_iff.mp hb').2]
        rw [hit, update_self]
      · rw [update_of_ne hab]
        have hne : i ≠ tail := by
          rintro rfl
          exact hab (some.inj (ha'.symm.trans hb'))
        exact hdone i a (by omega) ha
    · rename_i hpc
      simp only [Progressed, hpc] at hprog
      obtain ⟨bio, hr, rfl⟩ := map_eq_some_iff.mp hs
      obtain ⟨hdisk, hcoh'⟩ := writeHead_coherent hcoh (unwrapped_unlocked cnt) id hr
      have hnil : diskEntries g bio.disk = [] := by rw [hdisk]; exact Recoverable.nil_of_clear _ _
      refine ⟨hdisk ▸ Recoverable.clear hprog, by simp [hnil], ⟨cnt, hdisk ▸ hcoh', hcnt⟩, ?_⟩
      exact ⟨rfl, hnil⟩
    · cases hs

/-- **Recovery is idempotent and exact**: from a recoverable disk, with any number of crashes on the
way, a completed recovery leaves the home blocks with the content of the log. -/
theorem recovering_of_reach (h : Recoverable g C d)
    (hr : Lib.Reach (recoverStep g) (fun _ _ => True) (reboot d) r) :
    Recovering g (diskEntries g d) C r :=
  Lib.Reach.invariant (.reboot h fun _ hb => hb) (fun _ _ _ hi _ hs => hi.step h.home hs) hr

theorem Recovering.content (h : Recovering g es C r) (hpc : r.pc = .done) : ∀ b, ¬ g.InLog b → r.bio.disk b = C b := by
  have hprog := h.progressed
  simp only [Progressed, hpc] at hprog
  exact h.recoverable.installed fun i b hb => by rw [hprog.2] at hb; cases hb

/-- **Recovery replays any log** and empties it, however often it crashes. -/
theorem recovery_replays (h : Recoverable g C d) (hr : Lib.Reach (recoverStep g) (fun _ _ => True) (reboot d) r)
    (hdone : r.pc = .done) : (∀ b, ¬ g.InLog b → r.bio.disk b = C b) ∧ diskEntries g r.bio.disk = [] := by
  have hrec := recovering_of_reach h hr
  have hprog := hrec.progressed
  simp only [Progressed, hdone] at hprog
  exact ⟨hrec.content hdone, hprog.2⟩

theorem recovered_lh
    (hr : Lib.Reach (recoverStep g) (fun _ _ => True) (reboot d) r) (hpc : r.pc = .done) :
    r.lh = [] := by
  refine Lib.Reach.invariant (I := fun r : Booting => r.pc = .done → r.lh = []) (fun _ => rfl) ?_ hr hpc
  intro r e r' _ _ hs
  cases e with
  | crash =>
    cases hs
    exact fun _ => rfl
  | next =>
    unfold recoverStep at hs
    dsimp only at hs
    split at hs
    · obtain ⟨⟨bio, lh⟩, -, rfl⟩ := map_eq_some_iff.mp hs
      intro hp
      dsimp only at hp
      split at hp <;> cases hp
    · obtain ⟨bio, -, rfl⟩ := map_eq_some_iff.mp hs
      intro hp
      dsimp only at hp
      split at hp <;> cases hp
    · obtain ⟨bio, -, rfl⟩ := map_eq_some_iff.mp hs
      exact fun _ => rfl
    · cases hs

end Recovering

end Xv6.Fs
