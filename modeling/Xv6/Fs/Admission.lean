/-
# Xv6.Fs.Admission — does `begin_op` keep the log from overflowing?

`begin_op` admits an operation while `lh.n + (outstanding+1)*MAXOPBLOCKS <= LOGSIZE`, and `log_write`
panics when `lh.n >= log.size - 1`.  The log that mkfs lays out has `LOGSIZE` blocks, one of which is
the header, so the reservations add up to one block more than `log_write` accepts.  `protects_iff` is
the exact answer: operations are safe from the panic when each logs FEWER than `MAXOPBLOCKS` distinct
blocks.

The buffers play no part in this; the invariant speaks of the log, the gate and the operations only.
-/
import Xv6.Fs.Crash
import Mathlib.Algebra.Order.BigOperators.Group.Finset

namespace Xv6.Fs

open Option (map_eq_some_iff)
open Kernel (Slot NPROC)
open Function Finset Option
open Lib (count)

/-- The log of the image mkfs writes: `logstart` is 2, `nlog` is `LOGSIZE`. -/
def mkfsLog : Geometry := ⟨2, LOGSIZE, by decide, by decide⟩

/-- The test with which `log_write` panics: "too big a transaction". -/
def TooBig (g : Geometry) (s : FsState) : Prop := s.lh.length ≥ LOGSIZE ∨ (s.lh.length : Int) ≥ g.size - 1
deriving Decidable

/-! ## Operations and the blocks they log -/

/-- The file system, and the distinct blocks that the operation of each process has logged. -/
structure Counted where
  fs : FsState
  wrote : Slot → List BlockNo

def Counted.record (s : Counted) : FsEvent → Slot → List BlockNo
  | .beginOp t => update s.wrote t []
  | .logWrite t b _ => update s.wrote t ((s.wrote t).insert b)
  | _ => s.wrote

def countedStep (g : Geometry) (s : Counted) (e : FsEvent) : Option Counted :=
  (fsStep g s.fs e).map fun fs => ⟨fs, s.record e⟩

def Counted.start (r : Booting) : Counted := ⟨.start r, fun _ => []⟩

/-- With this `log_write`, the operation has logged at most `m` distinct blocks;
repeated writes are free. -/
def Within (m : Nat) (s : Counted) : FsEvent → Prop
  | .logWrite t b _ => ((s.wrote t).insert b).length ≤ m
  | _ => True

instance (m : Nat) (s : Counted) (e : FsEvent) : Decidable (Within m s e) := by
  unfold Within
  split <;> infer_instance

/-- Process `t` is inside an operation and calls `log_write` on the home block `b`, whose buffer it
holds. -/
def CallsLogWrite (g : Geometry) (s : FsState) (t : Slot) (b : BlockNo) : Prop :=
  ¬ s.Engaged t ∧ s.inOp t ≠ none ∧ (s.bio.find b).bind (·.lock) = some t ∧ ¬ g.InLog b
deriving Decidable

/-- In every run after a boot on any disk, in which no operation logs more than
`m` distinct blocks, no call of `log_write` reaches the panic. -/
def Protects (g : Geometry) (m : Nat) : Prop :=
  ∀ (d0 : Disk) (r0 : Booting) (s : Counted) (t : Slot) (b : BlockNo) (d : Block),
    Lib.Reach (recoverStep g) (fun _ _ => True) (reboot d0) r0 → r0.pc = .done →
    Lib.Reach (countedStep g) (Within m) (.start r0) s →
    CallsLogWrite g s.fs t b → Within m s (.logWrite t b d) → ¬ TooBig g s.fs

/-! ## The invariant -/

def rest (m : Nat) (inOp : Slot → Option Nat) (wrote : Slot → List BlockNo) (t : Slot) : Nat :=
  if inOp t = none then 0 else m - (wrote t).length

/-- The log, together with all that the operations may still log, stays below the
limit of `log_write`. -/
structure Reserved (m : Nat) (s : Counted) : Prop where
  outstanding : s.fs.gate.outstanding = count (· ≠ none) s.fs.inOp
  committing : s.fs.gate.committing = s.fs.pc.isSome
  active : ∀ t, s.fs.inOp t ≠ none → s.fs.pc = none
  idle : s.fs.pc = none → (∀ t, s.fs.inOp t = none) → s.fs.lh = []
  cleared : ∀ t, s.fs.pc = some (t, .done) → s.fs.lh = []
  logged : ∀ t, s.fs.inOp t ≠ none → ∀ b ∈ s.wrote t, b ∈ s.fs.lh
  room : s.fs.lh.length + ∑ t, rest m s.fs.inOp s.wrote t ≤ 28

section Invariant

variable {g : Geometry} {m : Nat} {s : Counted} {fs : FsState} {t : Slot} {b : BlockNo} {d : Block}

theorem sum_rest_le (hm : m < MAXOPBLOCKS) (inOp : Slot → Option Nat) (wrote : Slot → List BlockNo) :
    ∑ t, rest m inOp wrote t ≤ 9 * count (· ≠ none) inOp := by
  calc ∑ t, rest m inOp wrote t ≤ ∑ t, if inOp t ≠ none then 9 else 0 := by
        refine sum_le_sum fun t _ => ?_
        unfold rest
        have hm' : m < 10 := hm
        split
        · exact Nat.zero_le _
        · omega
    _ = 9 * count (· ≠ none) inOp := by
        rw [count, ← sum_filter, sum_const_nat fun _ _ => rfl, Nat.mul_comm]

theorem Reserved.congr (h : Reserved m s) (hlh : fs.lh = s.fs.lh) (hgate : fs.gate = s.fs.gate)
    (hop : fs.inOp = s.fs.inOp) (hpc : fs.pc = s.fs.pc) : Reserved m ⟨fs, s.wrote⟩ where
  outstanding := by
    rw [hgate, hop]
    exact h.outstanding
  committing := by
    rw [hgate, hpc]
    exact h.committing
  active t ht := by
    rw [hpc]
    exact h.active t (hop ▸ ht)
  idle hp ht := by
    rw [hlh]
    exact h.idle (hpc ▸ hp) (hop ▸ ht)
  cleared t ht := by
    rw [hlh]
    exact h.cleared t (hpc ▸ ht)
  logged t ht b hb := by
    rw [hlh]
    exact h.logged t (hop ▸ ht) b hb
  room := by
    rw [hlh, hop]
    exact h.room

theorem Reserved.beginOp (hm : m < MAXOPBLOCKS) (h : Reserved m s)
    (hs : fsStep g s.fs (.beginOp t) = some fs) : Reserved m ⟨fs, s.record (.beginOp t)⟩ := by
  simp only [fsStep] at hs
  split at hs
  · cases hs
  rename_i hguard
  have ht : s.fs.inOp t = none := not_not.mp (not_or.mp hguard).2
  obtain ⟨gate, hgate, rfl⟩ := map_eq_some_iff.mp hs
  have hadmit : (s.fs.lh.length : Int) + (s.fs.gate.outstanding + 1) * 10 ≤ 30 := by
    unfold Gate.beginOp at hgate
    split at hgate
    · cases hgate
    split at hgate
    · cases hgate
    · rename_i hle
      simp only [MAXOPBLOCKS, LOGSIZE] at hle
      omega
  obtain ⟨hidle, rfl⟩ := Gate.beginOp_some hgate
  have hpc : s.fs.pc = none := by
    have := h.committing
    rw [hidle] at this
    simpa using this.symm
  have hcount := Lib.count_update (P := (· ≠ none)) (f := s.fs.inOp) t (some s.fs.nextOp)
  rw [if_neg (not_not.mpr ht), if_pos (by simp)] at hcount
  have hout := h.outstanding
  have hother : ∀ u, u ≠ t → s.record (.beginOp t) u = s.wrote u := fun u hu =>
    update_of_ne hu _ _
  refine ⟨?_, h.committing, fun _ _ => hpc, fun _ hnone => ?_, h.cleared, fun u hu c hc => ?_, ?_⟩
  · show s.fs.gate.outstanding + 1 = (count (· ≠ none) (update s.fs.inOp t (some s.fs.nextOp)) : Int)
    omega
  · have := hnone t
    simp at this
  · by_cases hut : u = t
    · subst hut
      simp [Counted.record] at hc
    · have hu' : s.fs.inOp u ≠ none := by simpa [hut] using hu
      exact h.logged u hu' c (hother u hut ▸ hc)
  -- the new operation may log `m` blocks, and the others nine each at most
  have hsum := Lib.sum_add_eq (f := rest m s.fs.inOp s.wrote)
    (g := rest m (update s.fs.inOp t (some s.fs.nextOp)) (s.record (.beginOp t))) t fun u hu => by
      rw [rest, rest, hother u hu, update_of_ne hu]
  have hold : rest m s.fs.inOp s.wrote t = 0 := if_pos ht
  have hnew : rest m (update s.fs.inOp t (some s.fs.nextOp)) (s.record (.beginOp t)) t = m := by
    simp [rest, Counted.record]
  have hle := sum_rest_le hm s.fs.inOp s.wrote
  have hm' : m < 10 := hm
  show s.fs.lh.length + ∑ u, rest m (update s.fs.inOp t (some s.fs.nextOp)) (s.record (.beginOp t)) u ≤ 28
  by_cases hzero : count (· ≠ none) s.fs.inOp = 0
  · have hlh := h.idle hpc fun u => not_not.mp (Lib.count_eq_zero.mp hzero u)
    rw [hlh, List.length_nil]
    omega
  · omega

theorem logWrite_frame {s s' : FsState} (hs : Fs.logWrite g t b d s = some s') :
    s'.lh = (if b ∈ s.lh then s.lh else s.lh ++ [b]) ∧ s'.gate = s.gate ∧ s'.inOp = s.inOp ∧ s'.pc = s.pc := by
  unfold Fs.logWrite at hs
  split at hs
  · cases hs
  split at hs
  · cases hs
  split at hs
  · cases hs
  cases hs
  unfold logBlockOnce
  dsimp only
  split
  · exact ⟨rfl, rfl, rfl, rfl⟩
  · exact ⟨rfl, rfl, rfl, rfl⟩

theorem Reserved.logWrite (h : Reserved m s) (hw : Within m s (.logWrite t b d))
    (hs : fsStep g s.fs (.logWrite t b d) = some fs) :
    Reserved m ⟨fs, s.record (.logWrite t b d)⟩ := by
  simp only [fsStep] at hs
  split at hs
  · cases hs
  rename_i hguard
  have ht : s.fs.inOp t ≠ none := (not_or.mp hguard).2
  have hpc := h.active t ht
  obtain ⟨hlh, hgate, hop, hpc'⟩ := logWrite_frame hs
  have hother : ∀ u, u ≠ t → s.record (.logWrite t b d) u = s.wrote u := fun u hu =>
    update_of_ne hu _ _
  have hself : s.record (.logWrite t b d) t = (s.wrote t).insert b := update_self _ _ _
  have hmem : ∀ c, c ∈ fs.lh ↔ c ∈ s.fs.lh ∨ c = b := by
    intro c
    rw [hlh]
    split
    · rename_i hb
      exact ⟨.inl, fun hc => hc.elim id fun he => he ▸ hb⟩
    · rw [List.mem_append, List.mem_singleton]
  refine ⟨?_, ?_, fun u hu => ?_, fun _ hnone => ?_, fun u hu => ?_, fun u hu c hc => ?_, ?_⟩
  · rw [hgate, hop]
    exact h.outstanding
  · rw [hgate, hpc']
    exact h.committing
  · rw [hpc', hpc]
  · exact absurd (hop ▸ hnone t) ht
  · rw [hpc', hpc] at hu
    cases hu
  · rw [hmem]
    change c ∈ s.record (.logWrite t b d) u at hc
    by_cases hut : u = t
    · subst hut
      rw [hself] at hc
      rcases List.mem_insert_iff.mp hc with he | hold
      · exact .inr he
      · exact .inl (h.logged u ht c hold)
    · rw [hother u hut] at hc
      exact .inl (h.logged u (hop ▸ hu) c hc)
  have hsum := Lib.sum_add_eq (f := rest m s.fs.inOp s.wrote)
    (g := rest m s.fs.inOp (s.record (.logWrite t b d))) t fun u hu => by
      rw [rest, rest, hother u hu]
  have hold : rest m s.fs.inOp s.wrote t = m - (s.wrote t).length := if_neg ht
  have hnew : rest m s.fs.inOp (s.record (.logWrite t b d)) t = m - ((s.wrote t).insert b).length := by
    rw [rest, if_neg ht, hself]
  have hroom := h.room
  show fs.lh.length + ∑ u, rest m fs.inOp (s.record (.logWrite t b d)) u ≤ 28
  rw [hop, hlh]
  by_cases hb : b ∈ s.wrote t
  · -- a repeated write is absorbed
    rw [List.insert_of_mem hb] at hnew
    rw [if_pos (h.logged t ht b hb)]
    omega
  have hw' : ((s.wrote t).insert b).length ≤ m := hw
  rw [List.insert_of_not_mem hb, List.length_cons] at hnew hw'
  split
  · omega
  · rw [List.length_append, List.length_singleton]
    omega

theorem Reserved.endOp (h : Reserved m s) (hs : fsStep g s.fs (.endOp t) = some fs) : Reserved m ⟨fs, s.wrote⟩ := by
  simp only [fsStep] at hs
  split at hs
  · cases hs
  rename_i hguard
  have ht : s.fs.inOp t ≠ none := (not_or.mp hguard).2
  have hpc := h.active t ht
  obtain ⟨⟨gate, commit⟩, hgate, rfl⟩ := map_eq_some_iff.mp hs
  obtain ⟨rfl, hlast⟩ := Gate.endOp_some hgate
  have hcount := Lib.count_update (P := (· ≠ none)) (f := s.fs.inOp) t none
  rw [if_pos ht, if_neg (by simp)] at hcount
  have hout := h.outstanding
  have hactive : ∀ u, update s.fs.inOp t none u ≠ none → s.fs.inOp u ≠ none := by
    intro u hu
    by_cases hut : u = t
    · subst hut
      simp at hu
    · rwa [update_of_ne hut] at hu
  have hroom : s.fs.lh.length + ∑ u, rest m (update s.fs.inOp t none) s.wrote u ≤ 28 := by
    have hsum := Lib.sum_add_eq (f := rest m s.fs.inOp s.wrote)
      (g := rest m (update s.fs.inOp t none) s.wrote) t fun u hu => by
        rw [rest, rest, update_of_ne hu]
    have hnew : rest m (update s.fs.inOp t none) s.wrote t = 0 := by simp [rest]
    have := h.room
    omega
  have hcnt : s.fs.gate.outstanding - 1 = (count (· ≠ none) (update s.fs.inOp t none) : Int) := by
    omega
  have hlogged : ∀ u, update s.fs.inOp t none u ≠ none → ∀ c ∈ s.wrote u, c ∈ s.fs.lh :=
    fun u hu => h.logged u (hactive u hu)
  cases commit with
  | true =>
    have hzero : count (· ≠ none) (update s.fs.inOp t none) = 0 := by
      have : s.fs.gate.outstanding - 1 = 0 := of_decide_eq_true hlast.symm
      omega
    have hnone : ∀ u, update s.fs.inOp t none u = none := fun u =>
      not_not.mp (Lib.count_eq_zero.mp hzero u)
    refine ⟨hcnt, rfl, fun u hu => absurd (hnone u) hu, fun hp => ?_, fun u hu => ?_, hlogged, hroom⟩
    · simp at hp
    -- a commit with nothing to write
    simp only [if_true, some.injEq, Prod.mk.injEq] at hu
    show s.fs.lh = []
    by_contra hne
    have hpos : s.fs.lh.length > 0 := List.length_pos_iff.mpr hne
    rw [if_pos hpos] at hu
    cases hu.2
  | false =>
    have hsome : count (· ≠ none) (update s.fs.inOp t none) ≠ 0 := by
      have : s.fs.gate.outstanding - 1 ≠ 0 := of_decide_eq_false hlast.symm
      omega
    refine ⟨hcnt, ?_, fun u hu => ?_, fun _ hnone => ?_, fun u hu => ?_, hlogged, hroom⟩
    · show false = s.fs.pc.isSome
      rw [hpc]
      rfl
    · exact hpc
    · exact absurd (Lib.count_eq_zero.mpr fun u hu => hu (hnone u)) hsome
    · exact h.cleared u hu

theorem Reserved.commit (h : Reserved m s) (hs : fsStep g s.fs .commit = some fs) : Reserved m ⟨fs, s.wrote⟩ := by
  have hnone : s.fs.pc ≠ none → ∀ u, s.fs.inOp u = none := fun hp u => by
    by_contra hu
    exact hp (h.active u hu)
  -- a step to a place where the log is not cleared yet
  have hgo : ∀ bio pc', s.fs.pc ≠ none → (∀ u, pc' ≠ some (u, CommitPc.done)) → pc'.isSome →
      Reserved m ⟨{ s.fs with bio := bio, pc := pc' }, s.wrote⟩ := by
    intro bio pc' hp hdone hsome
    have hc := h.committing
    rw [isSome_iff_ne_none.mpr hp] at hc
    refine ⟨h.outstanding, hc.trans hsome.symm, fun u hu => absurd (hnone hp u) hu, fun hp' => ?_,
      fun u hu => absurd hu (hdone u), h.logged, h.room⟩
    change pc' = none at hp'
    rw [hp'] at hsome
    cases hsome
  simp only [fsStep, commitStep] at hs
  split at hs
  · cases hs
  · rename_i tail hpc
    obtain ⟨bio, -, rfl⟩ := map_eq_some_iff.mp hs
    refine hgo bio _ (by simp [hpc]) (fun u hu => ?_) rfl
    split at hu <;> cases hu
  · rename_i hpc
    obtain ⟨bio, -, rfl⟩ := map_eq_some_iff.mp hs
    exact hgo bio _ (by simp [hpc]) (fun u hu => by cases hu) rfl
  · rename_i tail hpc
    obtain ⟨bio, -, rfl⟩ := map_eq_some_iff.mp hs
    refine hgo bio _ (by simp [hpc]) (fun u hu => ?_) rfl
    split at hu <;> cases hu
  · rename_i hpc
    obtain ⟨bio, -, rfl⟩ := map_eq_some_iff.mp hs
    have hp : s.fs.pc ≠ none := by simp [hpc]
    have hc := h.committing
    rw [isSome_iff_ne_none.mpr hp] at hc
    have hroom := h.room
    refine ⟨h.outstanding, hc, fun u hu => absurd (hnone hp u) hu, fun _ _ => rfl, fun _ _ => rfl,
      fun u hu => absurd (hnone hp u) hu, ?_⟩
    show 0 + ∑ u, rest m s.fs.inOp s.wrote u ≤ 28
    omega
  · rename_i hpc
    cases hs
    have hnil := h.cleared _ hpc
    have hp : s.fs.pc ≠ none := by simp [hpc]
    exact ⟨h.outstanding, rfl, fun _ _ => rfl, fun _ _ => hnil, fun u hu => (by cases hu), h.logged, h.room⟩

theorem Reserved.step {s' : Counted} {e : FsEvent} (hm : m < MAXOPBLOCKS) (h : Reserved m s)
    (hw : Within m s e) (hs : countedStep g s e = some s') : Reserved m s' := by
  obtain ⟨fs, hfs, rfl⟩ := map_eq_some_iff.mp hs
  cases e with
  | beginOp t => exact h.beginOp hm hfs
  | logWrite t b d => exact h.logWrite hw hfs
  | endOp t => exact h.endOp hfs
  | commit => exact h.commit hfs
  | bget t b | brelse t b =>
    simp only [fsStep] at hfs
    split at hfs
    · cases hfs
    · obtain ⟨bio, -, rfl⟩ := map_eq_some_iff.mp hfs
      exact h.congr rfl rfl rfl rfl
  | lock t =>
    obtain ⟨b, -, hfs⟩ := bind_eq_some_iff.mp hfs
    obtain ⟨bio, -, rfl⟩ := map_eq_some_iff.mp hfs
    exact h.congr rfl rfl rfl rfl

theorem reserved_start {r : Booting} (hlh : r.lh = []) : Reserved m (.start r) := by
  have hno : count (· ≠ none) (Counted.start r).fs.inOp = 0 := Lib.count_eq_zero.mpr fun _ h => h rfl
  refine ⟨by rw [hno]; rfl, rfl, fun _ _ => rfl, fun _ _ => hlh, fun _ h => (by cases h), fun _ h => absurd rfl h, ?_⟩
  have hsum : ∑ u, rest m (Counted.start r).fs.inOp (Counted.start r).wrote u = 0 := sum_eq_zero fun u _ => if_pos rfl
  show r.lh.length + _ ≤ 28
  rw [hsum, hlh]
  decide

theorem protects_of_lt (hg : g.size = LOGSIZE) (hm : m < MAXOPBLOCKS) : Protects g m := by
  intro d0 r0 s t b d hboot hup hrun hcall _ hbig
  have hres : Reserved m s :=
    Lib.Reach.invariant (reserved_start (recovered_lh hboot hup))
      (fun _ _ _ hI hw hs => hI.step hm hw hs) hrun
  have hroom := hres.room
  rw [TooBig, hg] at hbig
  simp only [LOGSIZE, MAXOPBLOCKS] at hbig
  omega

end Invariant

/-- Three operations are admitted together and log blocks 100 to 128, ten, ten and nine of them; the
third one goes on to its tenth block. -/
def threeOps : List FsEvent :=
  [.beginOp 0, .beginOp 1, .beginOp 2] ++
    (List.range 29).flatMap (fun i =>
      [.bget (Fin.ofNat NPROC (i / 10)) (BitVec.ofNat 32 (100 + i)), .lock (Fin.ofNat NPROC (i / 10)),
        .logWrite (Fin.ofNat NPROC (i / 10)) (BitVec.ofNat 32 (100 + i)) (fun _ => 0),
        .brelse (Fin.ofNat NPROC (i / 10)) (BitVec.ofNat 32 (100 + i))]) ++
    [.bget 2 129, .lock 2]

theorem not_protects_ten (m : Nat) (hm : MAXOPBLOCKS ≤ m) : ¬ Protects mkfsLog m := by
  intro h
  have hrun : ((Lib.exec (recoverStep mkfsLog) (fun _ _ => True) (reboot fun _ _ => 0)
      [.next, .next]).bind fun r0 =>
        (Lib.exec (countedStep mkfsLog) (Within MAXOPBLOCKS) (.start r0) threeOps).map fun s =>
          decide (r0.pc = .done ∧ CallsLogWrite mkfsLog s.fs 2 129 ∧
            Within MAXOPBLOCKS s (.logWrite 2 129 fun _ => 0) ∧ TooBig mkfsLog s.fs)) =
      some true := by
    decide +kernel
  obtain ⟨r0, hr0, hrun⟩ := bind_eq_some_iff.mp hrun
  obtain ⟨s, hs, hrun⟩ := map_eq_some_iff.mp hrun
  obtain ⟨hup, hcall, hw, hbig⟩ := of_decide_eq_true hrun
  have hmono : ∀ s e, Within MAXOPBLOCKS s e → Within m s e := by
    intro s e hwe
    cases e with
    | logWrite t b d => exact Nat.le_trans hwe hm
    | beginOp t | bget t b | lock t | brelse t b | endOp t | commit => trivial
  exact h _ r0 s 2 129 (fun _ => 0) (Lib.Reach.refl.exec hr0) hup
    ((Lib.Reach.refl.exec hs).mono hmono) hcall (hmono _ _ hw) hbig

/-- **What admission control protects.** Operations of at most `m` distinct blocks each never make `log_write` panic, in any
interleaving, exactly when `m` is less than `MAXOPBLOCKS`. -/
theorem protects_iff (m : Nat) : Protects mkfsLog m ↔ m < MAXOPBLOCKS := by
  constructor
  · intro h
    by_contra hm
    exact not_protects_ten m (Nat.le_of_not_lt hm) h
  · exact fun hm => protects_of_lt rfl hm

/-- Operations of `MAXOPBLOCKS` blocks can reach the panic. -/
theorem not_protects : ¬ Protects mkfsLog MAXOPBLOCKS := not_protects_ten _ (le_refl _)

end Xv6.Fs
