/-
# Xv6.Fs.Crash — crash atomicity of the log.

The ledger is the specification's memory: every `log_write` so far, and which operations belong to
transactions that have committed.  Operations are numbered in the order of their `begin_op`, and
transactions follow one another, so the committed operations are those below a number.

`InOrder` ties the machine to the ledger.  A reader gets the content of ALL writes so far, and the
disk can be recovered to that of the COMMITTED ones.  The two differ only on blocks in the log, which are
pinned in the cache, and become equal by the one write that commits.
-/
import Xv6.Fs.Recovery
import Xv6.Lib.Count

namespace Xv6.Fs

open Kernel (Slot)
open Function List Option
open Lib (count replay update_cases update_eq_some of_update_none)

/-! ## The ledger -/

/-- One `log_write`: by which operation, of which block, with what content. -/
structure LoggedWrite where
  op : Nat
  block : BlockNo
  data : Block

structure Ledger where
  /-- Every `log_write` so far, in order. -/
  writes : List LoggedWrite
  /-- The operations of the transactions committed so far are the ones below this number. -/
  committed : Nat

def applied (d : Disk) (ws : List LoggedWrite) : Disk := replay d (ws.map fun w => (w.block, w.data))

def Ledger.durable (l : Ledger) : List LoggedWrite := l.writes.filter fun w => w.op < l.committed

/-- What an event performed in `s` adds to the ledger.  A transaction commits with its `write_head`;
one that logged nothing, when `commit` returns. -/
def Ledger.record (s : FsState) (e : FsEvent) (l : Ledger) : Ledger :=
  match e with
  | .logWrite t b d => { l with writes := l.writes ++ ((s.inOp t).map (⟨·, b, d⟩)).toList }
  | .commit =>
    match s.pc with
    | some (_, .writeHead) | some (_, .done) => { l with committed := s.nextOp }
    | _ => l
  | _ => l

structure Logged where
  fs : FsState
  ledger : Ledger

def loggedStep (g : Geometry) (s : Logged) (e : FsEvent) : Option Logged :=
  (fsStep g s.fs e).map fun fs => ⟨fs, s.ledger.record s.fs e⟩

def Logged.start (r : Booting) : Logged := ⟨.start r, ⟨[], 0⟩⟩

/-! ## The invariant -/

def pins (s : FsState) : List BlockNo :=
  match s.pc with
  | some (_, .install tail) => s.lh.drop tail
  | some (_, .clearHead) => []
  | _ => s.lh

/-- The references to block `b` beyond that of its lock holder: the processes that wait for the lock,
and the pin. -/
def refs (waiting : Slot → Option BlockNo) (pinned : List BlockNo) (b : BlockNo) : Nat :=
  count (· = some b) waiting + if b ∈ pinned then 1 else 0

/-- What a reader of block `b` gets, when `L` is the content of the home blocks. -/
def viewOf (g : Geometry) (L d : Disk) : Disk := fun b => if g.InLog b then d b else L b

section Invariant

variable {g : Geometry} {d0 : Disk} {s s' : FsState} {l : Ledger} {t : Slot} {b : BlockNo} {bio : Bio}
  {tail op i : Nat}

/-- Before the commit point: the log on disk is empty, the home blocks have the content `C`, and
what was written since is in the log. -/
structure Before (g : Geometry) (C L : Disk) (s : FsState) : Prop where
  empty : diskEntries g s.bio.disk = []
  home : ∀ b, ¬ g.InLog b → s.bio.disk b = C b
  rest : ∀ b, ¬ g.InLog b → b ∉ s.lh → L b = C b

/-- Entry `i` of the log has its content in its log block. -/
def Copied (g : Geometry) (L : Disk) (s : FsState) (i : Nat) : Prop :=
  ∀ b, s.lh[i]? = some b → s.bio.disk (g.logBlock (i + 1)) = L b

/-- After it: the log on disk is the log, and the committed content is the current one. -/
structure After (g : Geometry) (C L : Disk) (s : FsState) : Prop where
  logged : diskEntries g s.bio.disk = s.lh
  copied : ∀ i, Copied g L s i
  same : ∀ b, ¬ g.InLog b → L b = C b

def Phase (g : Geometry) (C L : Disk) (s : FsState) : Prop :=
  match s.pc with
  | none => Before g C L s
  | some (_, .writeLog tail) => Before g C L s ∧ tail < s.lh.length ∧ ∀ i < tail, Copied g L s i
  | some (_, .writeHead) => Before g C L s ∧ 0 < s.lh.length ∧ ∀ i, Copied g L s i
  | some (_, .install tail) => After g C L s ∧ tail < s.lh.length
  | some (_, .clearHead) => After g C L s
  | some (_, .done) => Before g C L s ∧ s.lh = []

/-- The machine `s`, started on `d0`, and its ledger `l` agree. -/
structure InOrder (g : Geometry) (d0 : Disk) (s : FsState) (l : Ledger) : Prop where
  cache : ∃ locks, Coherent (viewOf g (applied d0 l.writes) s.bio.disk)
    (fun b => BitVec.ofNat 32 (refs s.waiting (pins s) b)) locks (· ∈ pins s) s.bio
  nodup : s.lh.Nodup
  home : ∀ b ∈ s.lh, ¬ g.InLog b
  room : s.lh.length ≤ LOGSIZE ∧ s.lh.length < g.size
  ops : ∀ w ∈ l.writes, w.op < s.nextOp
  committed : l.committed ≤ s.nextOp
  active : ∀ t op, s.inOp t = some op → l.committed ≤ op ∧ op < s.nextOp ∧ s.pc = none
  outstanding : s.gate.outstanding = count (· ≠ none) s.inOp
  committing : s.gate.committing = s.pc.isSome
  phase : Phase g (applied d0 l.durable) (applied d0 l.writes) s

/-! ## Counting references -/

variable (w : Slot → Option BlockNo) (pinned : List BlockNo)

theorem refs_le (b : BlockNo) : refs w pinned b ≤ 65 := by
  have hcount : count (· = some b) w ≤ 64 := by
    simpa using Lib.count_le_card (P := (· = some b)) (f := w)
  unfold refs
  split <;> omega

theorem ofNat_eq_zero {n : Nat} (h : n ≤ 66) : BitVec.ofNat 32 n = 0#32 ↔ n = 0 := by
  constructor
  · intro h0
    have hmod : n % 2 ^ 32 = 0 := by simpa using congrArg BitVec.toNat h0
    rwa [Nat.mod_eq_of_lt (by omega)] at hmod
  · rintro rfl
    rfl

theorem refs_add_one_ne (b : BlockNo) : BitVec.ofNat 32 (refs w pinned b) + 1 ≠ 0 := by
  have := refs_le w pinned b
  intro h0
  have hsum : BitVec.ofNat 32 (refs w pinned b + 1) = 0#32 := by rw [BitVec.ofNat_add]; exact h0
  have := (ofNat_eq_zero (by omega)).mp hsum
  omega

theorem ofNat_update_succ {f r : BlockNo → Nat} (hne : ∀ a, a ≠ b → r a = f a)
    (hb : r b = f b + 1) :
    (fun a => BitVec.ofNat 32 (r a)) = update (fun a => BitVec.ofNat 32 (f a)) b (BitVec.ofNat 32 (f b) + 1) := by
  funext a
  refine update_cases ?_ (fun a hab => by rw [hne a hab]) a
  rw [hb, BitVec.ofNat_add]
  rfl

theorem ofNat_update_pred {f r : BlockNo → Nat} (hne : ∀ a, a ≠ b → r a = f a)
    (hb : f b = r b + 1) :
    (fun a => BitVec.ofNat 32 (r a)) = update (fun a => BitVec.ofNat 32 (f a)) b (BitVec.ofNat 32 (f b) - 1) := by
  funext a
  refine update_cases ?_ (fun a hab => by rw [hne a hab]) a
  rw [hb, BitVec.ofNat_add]
  exact (add_sub_cancel_right _ _).symm

theorem unwrapped_refs (locks : BlockNo → Option Slot) :
    Unwrapped (fun b => BitVec.ofNat 32 (refs w pinned b)) locks (· ∈ pinned) := by
  intro b hb
  have hle := refs_le w pinned b
  cases hl : locks b with
  | none =>
    have hzero : refs w pinned b = 0 := by
      refine (ofNat_eq_zero (Nat.le_succ_of_le hle)).mp ?_
      simpa [hl, holderRef] using hb
    refine ⟨by simp [hzero], rfl, fun hpin => ?_⟩
    simp [refs, hpin] at hzero
  | some t =>
    rw [hl] at hb
    exact absurd hb (refs_add_one_ne w pinned b)

/-! ## Phases -/

section Phases

variable {C L : Disk}

theorem Before.congr (h : Before g C L s) (hdisk : s'.bio.disk = s.bio.disk) (hlh : s'.lh = s.lh) : Before g C L s' :=
  ⟨hdisk ▸ h.empty, hdisk ▸ h.home, hlh ▸ h.rest⟩

theorem Copied.congr (h : Copied g L s i) (hdisk : s'.bio.disk = s.bio.disk)
    (hlh : s'.lh = s.lh) : Copied g L s' i := by
  intro b hb
  rw [hdisk]
  exact h b (hlh ▸ hb)

theorem Phase.congr (h : Phase g C L s) (hpc : s'.pc = s.pc) (hlh : s'.lh = s.lh)
    (hdisk : s'.bio.disk = s.bio.disk) : Phase g C L s' := by
  unfold Phase at h ⊢
  rw [hpc]
  cases hs : s.pc with
  | none =>
    simp only [hs] at h
    exact h.congr hdisk hlh
  | some tp =>
    obtain ⟨t, pc⟩ := tp
    cases pc with
    | writeLog tail =>
      simp only [hs] at h
      exact ⟨h.1.congr hdisk hlh, hlh ▸ h.2.1, fun i hi => (h.2.2 i hi).congr hdisk hlh⟩
    | writeHead =>
      simp only [hs] at h
      exact ⟨h.1.congr hdisk hlh, hlh ▸ h.2.1, fun i => (h.2.2 i).congr hdisk hlh⟩
    | install tail =>
      simp only [hs] at h
      refine ⟨⟨hdisk ▸ hlh ▸ h.1.logged, fun i => (h.1.copied i).congr hdisk hlh, h.1.same⟩, ?_⟩
      exact hlh ▸ h.2
    | clearHead =>
      simp only [hs] at h
      exact ⟨hdisk ▸ hlh ▸ h.logged, fun i => (h.copied i).congr hdisk hlh, h.same⟩
    | done =>
      simp only [hs] at h
      exact ⟨h.1.congr hdisk hlh, hlh ▸ h.2⟩

theorem Phase.before_or_after (h : Phase g C L s) : Before g C L s ∨ After g C L s := by
  unfold Phase at h
  split at h
  · exact .inl h
  · exact .inl h.1
  · exact .inl h.1
  · exact .inr h.1
  · exact .inr h
  · exact .inl h.1

end Phases

theorem pins_subset (s : FsState) : ∀ b ∈ pins s, b ∈ s.lh := by
  intro b hb
  unfold pins at hb
  split at hb
  · exact mem_of_mem_drop hb
  · cases hb
  · exact hb

/-- **Every state of the machine can be recovered** to the committed content. -/
theorem InOrder.recoverable (h : InOrder g d0 s l) : Recoverable g (applied d0 l.durable) s.bio.disk := by
  rcases h.phase.before_or_after with hb | ha
  · exact .of_nil hb.empty hb.home
  refine ⟨ha.logged ▸ h.nodup, ha.logged ▸ h.home, ha.logged ▸ h.room.2, fun b hb => ?_⟩
  by_cases hin : b ∈ s.lh
  · obtain ⟨i, hi⟩ := mem_iff_getElem?.mp hin
    have hmem : (b, s.bio.disk (g.logBlock (i + 1))) ∈ redo g s.bio.disk := mem_redo (by rw [ha.logged]; exact hi)
    have hnd : ((redo g s.bio.disk).map Prod.fst).Nodup := by
      rw [redo_keys, ha.logged]
      exact h.nodup
    rw [Lib.replay_of_mem hnd hmem, ha.copied i b hi]
    exact ha.same b hb
  · -- a block that is not in the log is clean
    obtain ⟨locks, hc⟩ := h.cache
    have hclean := hc.clean b fun hp => hin (pins_subset s b hp)
    rw [viewOf, if_neg hb] at hclean
    rw [Lib.replay_of_notMem (by rw [redo_keys, ha.logged]; exact hin), hclean]
    exact ha.same b hb

/-! ## Events that leave the log alone -/

theorem InOrder.ofBio {w : Slot → Option BlockNo} (h : InOrder g d0 s l)
    (locks : BlockNo → Option Slot) (hdisk : bio.disk = s.bio.disk)
    (hc : Coherent (viewOf g (applied d0 l.writes) s.bio.disk)
      (fun b => BitVec.ofNat 32 (refs w (pins s) b)) locks (· ∈ pins s) bio) :
    InOrder g d0 { s with bio := bio, waiting := w } l where
  cache := ⟨locks, hdisk ▸ hc⟩
  nodup := h.nodup
  home := h.home
  room := h.room
  ops := h.ops
  committed := h.committed
  active := h.active
  outstanding := h.outstanding
  committing := h.committing
  phase := h.phase.congr rfl rfl hdisk

theorem count_waiting (w : Slot → Option BlockNo) (o : Option BlockNo) (a : BlockNo) :
    count (· = some a) (update w t o) + (if w t = some a then 1 else 0) =
      count (· = some a) w + if o = some a then 1 else 0 :=
  Lib.count_update t o

section

variable (h : InOrder g d0 s l)
include h

theorem InOrder.bget (ht : s.waiting t = none)
    (hs : bget b s.bio = some bio) :
    InOrder g d0 { s with bio := bio, waiting := update s.waiting t (some b) } l := by
  obtain ⟨locks, hc⟩ := h.cache
  obtain ⟨hc', hdisk⟩ := bget_coherent hc (unwrapped_refs _ _ locks) hs
  refine h.ofBio locks hdisk ?_
  rw [ofNat_update_succ (f := refs s.waiting (pins s)) (b := b)]
  · exact hc'
  · intro a hab
    have hcount := count_waiting (t := t) s.waiting (some b) a
    have hba : b ≠ a := fun he => hab he.symm
    simp only [ht, reduceCtorEq, if_false, some.injEq, hba] at hcount
    exact congrArg (· + _) hcount
  · have hcount := count_waiting (t := t) s.waiting (some b) b
    simp only [ht, reduceCtorEq, if_false, if_true] at hcount
    simp only [refs]
    omega

theorem InOrder.lock (ht : s.waiting t = some b)
    (hs : lockBuf t b s.bio = some bio) :
    InOrder g d0 { s with bio := bio, waiting := update s.waiting t none } l := by
  obtain ⟨locks, hc⟩ := h.cache
  obtain ⟨-, hdisk, hc'⟩ := lockBuf_coherent hc hs
  refine h.ofBio (update locks b (some t)) hdisk ?_
  rw [ofNat_update_pred (f := refs s.waiting (pins s)) (b := b)]
  · exact hc'
  · intro a hab
    have hcount := count_waiting (t := t) s.waiting none a
    have hba : b ≠ a := fun he => hab he.symm
    simp only [ht, reduceCtorEq, if_false, some.injEq, hba] at hcount
    exact congrArg (· + _) hcount
  · have hcount := count_waiting (t := t) s.waiting none b
    simp only [ht, reduceCtorEq, if_false, if_true] at hcount
    simp only [refs]
    omega

theorem InOrder.brelse (hs : brelse t b s.bio = some bio) : InOrder g d0 { s with bio := bio } l := by
  obtain ⟨locks, hc⟩ := h.cache
  obtain ⟨-, hdisk, hc'⟩ := brelse_coherent hc hs
  exact h.ofBio (w := s.waiting) _ hdisk hc'

end

/-! ## Operations -/

theorem InOrder.beginOp {a : Gate} (h : InOrder g d0 s l) (ht : s.inOp t = none)
    (ha : s.gate.beginOp s.lh.length = some a) :
    InOrder g d0 { s with gate := a, inOp := update s.inOp t (some s.nextOp), nextOp := s.nextOp + 1 }
      l := by
  obtain ⟨hidle, rfl⟩ := Gate.beginOp_some ha
  have hpc : s.pc = none := by
    have := h.committing
    rw [hidle] at this
    simpa using this.symm
  exact
    { h with
      ops := fun w hw => Nat.lt_succ_of_lt (h.ops w hw)
      committed := Nat.le_succ_of_le h.committed
      active := fun u op hu => by
        obtain ⟨rfl, rfl⟩ | ⟨-, hu⟩ := update_eq_some hu
        · exact ⟨h.committed, Nat.lt_succ_self _, hpc⟩
        · obtain ⟨h1, h2, h3⟩ := h.active u op hu
          exact ⟨h1, Nat.lt_succ_of_lt h2, h3⟩
      outstanding := by
        have hcount := Lib.count_update (P := (· ≠ none)) (f := s.inOp) t (some s.nextOp)
        simp only [ht, ne_eq, not_true_eq_false, if_false, reduceCtorEq, not_false_eq_true, if_true] at hcount
        have := h.outstanding
        dsimp only
        simp only [ne_eq] at this ⊢
        omega
      phase := h.phase.congr rfl rfl rfl }

theorem applied_append (d : Disk) (ws : List LoggedWrite) (w : LoggedWrite) :
    applied d (ws ++ [w]) = update (applied d ws) w.block w.data := by
  rw [applied, map_append, map_singleton, Lib.replay_concat]
  rfl

theorem viewOf_update_home (L d : Disk) (x : Block) (hb : ¬ g.InLog b) :
    viewOf g (update L b x) d = update (viewOf g L d) b x := by
  funext a
  by_cases hab : a = b
  · subst hab
    simp [viewOf, hb]
  · simp [viewOf, hab]

theorem viewOf_update_log (L d : Disk) (x : Block) (hb : g.InLog b) :
    viewOf g L (update d b x) = update (viewOf g L d) b x := by
  funext a
  by_cases hab : a = b
  · subst hab
    simp [viewOf, hb]
  · simp [viewOf, hab]

theorem viewOf_update_disk (L d : Disk) (x : Block) (hb : ¬ g.InLog b) : viewOf g L (update d b x) = viewOf g L d := by
  funext a
  by_cases hab : a = b
  · subst hab
    simp [viewOf, hb]
  · simp [viewOf, hab]

theorem Ledger.durable_append (w : LoggedWrite) (h : l.committed ≤ w.op) :
    ({ l with writes := l.writes ++ [w] } : Ledger).durable = l.durable := by
  have hnot : ¬ w.op < l.committed := by omega
  simp [Ledger.durable, hnot]

theorem InOrder.logWrite {d : Block} (h : InOrder g d0 s l) (hop : s.inOp t = some op)
    (hs : logWrite g t b d s = some s') :
    InOrder g d0 s' { l with writes := l.writes ++ [⟨op, b, d⟩] } := by
  obtain ⟨hopc, hopn, hpc⟩ := h.active t op hop
  obtain ⟨locks, hc⟩ := h.cache
  have hpins : pins s = s.lh := by simp [pins, hpc]
  have hbefore : Before g (applied d0 l.durable) (applied d0 l.writes) s := by
    have := h.phase
    rwa [Phase, hpc] at this
  unfold Fs.logWrite at hs
  split at hs
  · cases hs
  rename_i hguard
  obtain ⟨hlock, hhome⟩ := not_or.mp hguard
  split at hs
  · cases hs
  rename_i hroom
  obtain ⟨hlen, hsize⟩ := not_or.mp hroom
  split at hs
  · cases hs
  cases hs
  -- the caller holds the lock
  have hl : locks b ≠ none := by
    rw [ne_eq, not_not] at hlock
    obtain ⟨x, hx, hxl⟩ := bind_eq_some_iff.mp hlock
    obtain ⟨hxm, hxb⟩ := Bio.find_some hx
    rw [← hc.lock x hxm b hxb, hxl]
    simp
  have hset := setData_coherent hc hl d
  rw [← viewOf_update_home _ _ _ hhome, ← applied_append d0 l.writes ⟨op, b, d⟩] at hset
  have hdur : ({ l with writes := l.writes ++ [⟨op, b, d⟩] } : Ledger).durable = l.durable :=
    Ledger.durable_append ⟨op, b, d⟩ hopc
  have hL : ∀ a, a ≠ b → applied d0 (l.writes ++ [⟨op, b, d⟩]) a = applied d0 l.writes a :=
    fun a ha => by rw [applied_append, update_of_ne ha]
  have hops : ∀ w ∈ l.writes ++ [⟨op, b, d⟩], w.op < s.nextOp := by
    intro w hw
    rcases mem_append.mp hw with hw | hw
    · exact h.ops w hw
    · rw [mem_singleton.mp hw]
      exact hopn
  unfold logBlockOnce
  by_cases hin : b ∈ s.lh
  · -- absorbed
    rw [if_pos hin]
    have hdirty : (fun a => a = b ∨ a ∈ pins s) = (· ∈ pins s) := by
      funext a
      refine propext ⟨fun ha => ha.elim (fun he => ?_) id, .inr⟩
      rw [he, hpins]
      exact hin
    rw [hdirty] at hset
    refine { h with cache := ⟨locks, hset⟩, ops := hops, phase := ?_ }
    simp only [Phase, hpc, hdur]
    exact ⟨hbefore.empty, hbefore.home, fun a ha hna =>
      (hL a fun he => hna (he ▸ hin)).trans (hbefore.rest a ha hna)⟩
  rw [if_neg hin]
  have hpins' : ∀ bio, pins { s with bio := bio, lh := s.lh ++ [b] } = s.lh ++ [b] := fun bio => by
    simp [pins, hpc]
  have hdirty : (fun a => a = b ∨ a ∈ pins s) = (· ∈ s.lh ++ [b]) := by
    funext a
    rw [mem_append, mem_singleton, hpins]
    exact propext or_comm
  have hpin := bpin_coherent hset hl
  rw [hdirty] at hpin
  refine ⟨⟨locks, ?_⟩, ?_, ?_, ⟨?_, ?_⟩, hops, h.committed, h.active, h.outstanding, h.committing, ?_⟩
  · rw [hpins', ofNat_update_succ (f := refs s.waiting (pins s)) (b := b)]
    · exact hpin
    · intro a ha
      simp [refs, hpins, ha]
    · simp [refs, hpins, hin]
  · exact nodup_append.mpr ⟨h.nodup, nodup_singleton b, fun a ha c hc' hac => by
      rw [mem_singleton.mp hc'] at hac
      exact hin (hac ▸ ha)⟩
  · intro a ha
    rcases mem_append.mp ha with ha | ha
    · exact h.home a ha
    · rw [mem_singleton.mp ha]
      exact hhome
  · simp only [length_append, length_singleton]
    omega
  · simp only [length_append, length_singleton]
    omega
  · simp only [Phase, hpc, hdur]
    refine ⟨hbefore.empty, hbefore.home, fun a ha hna => ?_⟩
    rw [mem_append, not_or, mem_singleton] at hna
    exact (hL a hna.2).trans (hbefore.rest a ha hna.1)

/-- **`end_op`**: the last operation out starts the commit. -/
theorem InOrder.endOp (h : InOrder g d0 s l) (hop : s.inOp t = some op)
    (hs : endOp t s = some s') : InOrder g d0 s' l := by
  obtain ⟨-, -, hpc⟩ := h.active t op hop
  have hbefore : Before g (applied d0 l.durable) (applied d0 l.writes) s := by
    have := h.phase
    rwa [Phase, hpc] at this
  have hcount := Lib.count_update (P := (· ≠ none)) (f := s.inOp) t none
  simp only [hop, ne_eq, reduceCtorEq, not_false_eq_true, if_true, not_true_eq_false, if_false] at hcount
  have hout := h.outstanding
  simp only [ne_eq] at hout
  obtain ⟨⟨gate, commit⟩, hgate, rfl⟩ := map_eq_some_iff.mp hs
  have hactive : ∀ u op', update s.inOp t none u = some op' → s.inOp u = some op' := fun _ _ => of_update_none
  obtain ⟨rfl, hlast⟩ := Gate.endOp_some hgate
  cases commit with
  | true =>
    have hlast : s.gate.outstanding - 1 = 0 := of_decide_eq_true hlast.symm
    -- nobody is left inside
    have hnone : ∀ u, update s.inOp t none u = none := by
      have hzero : count (fun o => ¬ o = none) (update s.inOp t none) = 0 := by omega
      intro u
      exact not_not.mp (Lib.count_eq_zero.mp hzero u)
    have hpins : pins { s with
        gate := ⟨s.gate.outstanding - 1, true⟩, inOp := update s.inOp t none
        pc := some (t, if s.lh.length > 0 then .writeLog 0 else .done) } = pins s := by
      unfold pins
      simp only [hpc]
      split
      · rename_i heq
        split at heq <;> cases heq
      · rename_i heq
        split at heq <;> cases heq
      · rfl
    refine { h with cache := ?_, active := ?_, outstanding := ?_, committing := rfl, phase := ?_ }
    · obtain ⟨locks, hc⟩ := h.cache
      refine ⟨locks, ?_⟩
      dsimp only
      rw [if_pos rfl, hpins]
      exact hc
    · exact fun u op' hu => nomatch (hnone u).symm.trans hu
    · dsimp only
      simp only [ne_eq]
      omega
    simp only [Phase, if_true]
    by_cases hlen : s.lh.length > 0
    · simp only [if_pos hlen]
      exact ⟨hbefore.congr rfl rfl, hlen, fun i hi => absurd hi (Nat.not_lt_zero i)⟩
    · simp only [if_neg hlen]
      exact ⟨hbefore.congr rfl rfl, by simpa using hlen⟩
  | false =>
    refine { h with cache := h.cache, active := ?_, outstanding := ?_, committing := ?_, phase := ?_ }
    · exact fun u op' hu => h.active u op' (hactive u op' hu)
    · dsimp only
      simp only [ne_eq]
      omega
    · simp [hpc]
    · exact h.phase.congr rfl rfl rfl

/-! ## The commit -/

section

variable (h : InOrder g d0 s l)
include h

theorem InOrder.inLog (hi : i < s.lh.length) : g.InLog (g.logBlock (i + 1)) ∧ g.logBlock (i + 1) ∉ s.lh := by
  have hin : g.InLog (g.logBlock (i + 1)) := Geometry.inLog_logBlock (by have := h.room; omega)
  exact ⟨hin, fun hmem => h.home _ hmem hin⟩

theorem InOrder.header_notMem : g.logBlock 0 ∉ s.lh := fun hmem =>
  h.home _ hmem (Geometry.inLog_logBlock g.header)

/-- A step of the commit: nobody is inside an operation, and the gate stays closed. -/
theorem InOrder.advance {lh : List BlockNo} {pc : CommitPc} {m : Nat}
    {locks : BlockNo → Option Slot} (hpc : s.pc ≠ none)
    (hlh : lh = s.lh ∨ lh = []) (hm : m ≤ s.nextOp)
    (hc : Coherent (viewOf g (applied d0 l.writes) bio.disk)
      (fun b => BitVec.ofNat 32
        (refs s.waiting (pins { s with bio := bio, lh := lh, pc := some (t, pc) }) b))
      locks (· ∈ pins { s with bio := bio, lh := lh, pc := some (t, pc) }) bio)
    (hphase : Phase g (applied d0 ({ l with committed := m } : Ledger).durable)
      (applied d0 l.writes) { s with bio := bio, lh := lh, pc := some (t, pc) }) :
    InOrder g d0 { s with bio := bio, lh := lh, pc := some (t, pc) } { l with committed := m } where
  cache := ⟨locks, hc⟩
  nodup := by
    rcases hlh with rfl | rfl
    · exact h.nodup
    · exact nodup_nil
  home := by
    rcases hlh with rfl | rfl
    · exact h.home
    · exact fun b hb => nomatch hb
  room := by
    rcases hlh with rfl | rfl
    · exact h.room
    · exact ⟨Nat.zero_le _, g.header⟩
  ops := h.ops
  committed := hm
  active u op hu := absurd (h.active u op hu).2.2 hpc
  outstanding := h.outstanding
  committing := by
    have := h.committing
    rw [isSome_iff_ne_none.mpr hpc] at this
    exact this
  phase := hphase

theorem InOrder.writeLog
    (hpc : s.pc = some (t, .writeLog tail)) (hs : writeLog g t s.lh tail s.bio = some bio) :
    InOrder g d0
      { s with
        bio := bio, pc := some (t, if tail + 1 < s.lh.length then .writeLog (tail + 1) else .writeHead) }
      l := by
  obtain ⟨locks, hc⟩ := h.cache
  have hpins : pins s = s.lh := by simp [pins, hpc]
  have hphase := h.phase
  simp only [Phase, hpc] at hphase
  obtain ⟨hbefore, htail, hcopied⟩ := hphase
  obtain ⟨hin, hnot⟩ := h.inLog htail
  obtain ⟨b, hb, hdisk, hc'⟩ := writeLog_coherent hc (unwrapped_refs _ _ locks)
    (refs_add_one_ne _ _ _) (by rwa [hpins]) hs
  have hvb : viewOf g (applied d0 l.writes) s.bio.disk b = applied d0 l.writes b := if_neg (h.home b (mem_of_getElem? hb))
  rw [hvb] at hdisk hc'
  rw [← viewOf_update_log _ _ _ hin, ← hdisk, hpins] at hc'
  have hroom := h.room.2
  -- the header and the other log blocks are not touched
  have hother : ∀ i, i < g.size → i ≠ tail + 1 → bio.disk (g.logBlock i) = s.bio.disk (g.logBlock i) := by
    intro i hi hne
    rw [hdisk, update_of_ne]
    exact fun he => hne (Geometry.logBlock_inj hi (by omega) he)
  have hbefore' : Before g (applied d0 l.durable) (applied d0 l.writes) { s with bio := bio } := by
    refine ⟨?_, fun a ha => ?_, hbefore.rest⟩
    · rw [diskEntries, hother 0 g.header (by omega)]
      exact hbefore.empty
    · have hne : a ≠ g.logBlock (tail + 1) := fun he => ha (by rw [he]; exact hin)
      rw [hdisk, update_of_ne hne]
      exact hbefore.home a ha
  have hcopied' : ∀ i < tail + 1, Copied g (applied d0 l.writes) { s with bio := bio } i := by
    intro i hi a ha
    by_cases hit : i = tail
    · subst hit
      cases hb.symm.trans ha
      rw [hdisk, update_self]
    · rw [hother (i + 1) (by omega) (by omega)]
      exact hcopied i (by omega) a ha
  by_cases hlt : tail + 1 < s.lh.length
  · simp only [if_pos hlt]
    refine h.advance (by simp [hpc]) (.inl rfl) h.committed hc' ?_
    exact ⟨hbefore'.congr rfl rfl, hlt, fun i hi => (hcopied' i hi).congr rfl rfl⟩
  simp only [if_neg hlt]
  refine h.advance (by simp [hpc]) (.inl rfl) h.committed hc' ?_
  refine ⟨hbefore'.congr rfl rfl, by dsimp only; omega, fun i a ha => ?_⟩
  have hi : i < s.lh.length := (List.getElem?_eq_some_iff.mp ha).1
  exact hcopied' i (by omega) a ha

/-- Once all operations so far have committed, all writes so far are durable. -/
theorem InOrder.durable_all : ({ l with committed := s.nextOp } : Ledger).durable = l.writes :=
  filter_eq_self.mpr fun w hw => by simpa using h.ops w hw

/-- **The commit point**: the header is written, and the committed content becomes the current one. -/
theorem InOrder.writeHead (hpc : s.pc = some (t, .writeHead))
    (hs : writeHead g t s.lh s.bio = some bio) :
    InOrder g d0 { s with bio := bio, pc := some (t, .install 0) }
      { l with committed := s.nextOp } := by
  obtain ⟨locks, hc⟩ := h.cache
  have hpins : pins s = s.lh := by simp [pins, hpc]
  have hphase := h.phase
  simp only [Phase, hpc] at hphase
  obtain ⟨-, hpos, hcopied⟩ := hphase
  have hin := Geometry.inLog_logBlock g.header
  obtain ⟨hdisk, hc'⟩ := writeHead_coherent hc (unwrapped_refs _ _ locks)
    (by rw [hpins]; exact h.header_notMem) hs
  rw [← viewOf_update_log _ _ _ hin, ← hdisk, hpins] at hc'
  have hroom := h.room
  refine h.advance (by simp [hpc]) (.inl rfl) (le_refl _) hc' ⟨⟨?_, fun i a ha => ?_, ?_⟩, hpos⟩
  · rw [diskEntries, hdisk, update_self]
    exact entries_putEntries hroom.1 _
  · have hi : i < s.lh.length := (List.getElem?_eq_some_iff.mp ha).1
    rw [hdisk, update_of_ne]
    · exact hcopied i a ha
    · exact fun he => absurd (Geometry.logBlock_inj (by omega) g.header he) (by omega)
  · intro a _
    rw [h.durable_all]

theorem InOrder.install
    (hpc : s.pc = some (t, .install tail)) (hs : installTrans g t s.lh tail s.bio = some bio) :
    InOrder g d0
      { s with
        bio := bio, pc := some (t, if tail + 1 < s.lh.length then .install (tail + 1) else .clearHead) }
      l := by
  obtain ⟨locks, hc⟩ := h.cache
  have hpins : pins s = s.lh.drop tail := by simp [pins, hpc]
  have hphase := h.phase
  simp only [Phase, hpc] at hphase
  obtain ⟨hafter, htail⟩ := hphase
  obtain ⟨hin, hnot⟩ := h.inLog htail
  obtain ⟨b, hb, hdisk, hc'⟩ := installTrans_coherent hc (unwrapped_refs _ _ locks)
    (refs_add_one_ne _ _ _) hs
  have hbhome := h.home b (mem_of_getElem? hb)
  -- what is installed is what a reader of the block gets anyway
  have hvlog : viewOf g (applied d0 l.writes) s.bio.disk (g.logBlock (tail + 1)) =
      viewOf g (applied d0 l.writes) s.bio.disk b := by
    rw [viewOf, if_pos hin, hafter.copied tail b hb, viewOf, if_neg hbhome]
  rw [hvlog, update_eq_self] at hc'
  rw [hvlog] at hdisk
  rw [← viewOf_update_disk _ _ (viewOf g (applied d0 l.writes) s.bio.disk b) hbhome, ← hdisk, hpins] at hc'
  -- the block is the first of those still pinned, and is not pinned twice
  have hdrop : s.lh.drop tail = b :: s.lh.drop (tail + 1) := by
    rw [drop_eq_getElem_cons htail, (List.getElem?_eq_some_iff.mp hb).2]
  have hnd : b ∉ s.lh.drop (tail + 1) := by
    have := h.nodup.sublist (drop_sublist tail s.lh)
    rw [hdrop] at this
    exact (nodup_cons.mp this).1
  have hdirty : (fun a => a ≠ b ∧ a ∈ s.lh.drop tail) = (· ∈ s.lh.drop (tail + 1)) := by
    funext a
    rw [hdrop, mem_cons]
    refine propext ⟨fun ha => ha.2.resolve_left ha.1, fun ha => ⟨?_, .inr ha⟩⟩
    rintro rfl
    exact hnd ha
  rw [hdirty, ← ofNat_update_pred (f := refs s.waiting (s.lh.drop tail))
    (r := refs s.waiting (s.lh.drop (tail + 1))) (b := b)] at hc'
  rotate_left
  · intro a ha
    simp [refs, hdrop, ha]
  · simp [refs, hdrop, hnd]
  have hroom := h.room.2
  have hlog : ∀ i, i < g.size → bio.disk (g.logBlock i) = s.bio.disk (g.logBlock i) := by
    intro i hi
    rw [hdisk, update_of_ne (Geometry.ne_logBlock hbhome hi).symm]
  have hafter' : After g (applied d0 l.durable) (applied d0 l.writes) { s with bio := bio } := by
    refine ⟨?_, fun i a ha => ?_, hafter.same⟩
    · rw [diskEntries, hlog 0 g.header]
      exact hafter.logged
    · have hi : i < s.lh.length := (List.getElem?_eq_some_iff.mp ha).1
      rw [hlog (i + 1) (by omega)]
      exact hafter.copied i a ha
  by_cases hlt : tail + 1 < s.lh.length
  · simp only [if_pos hlt]
    refine h.advance (by simp [hpc]) (.inl rfl) h.committed hc' ⟨?_, hlt⟩
    exact ⟨hafter'.logged, hafter'.copied, hafter'.same⟩
  · simp only [if_neg hlt]
    rw [drop_eq_nil_of_le (by omega)] at hc'
    refine h.advance (by simp [hpc]) (.inl rfl) h.committed hc' ?_
    exact ⟨hafter'.logged, hafter'.copied, hafter'.same⟩

theorem InOrder.clearHead (hpc : s.pc = some (t, .clearHead))
    (hs : Fs.writeHead g t [] s.bio = some bio) :
    InOrder g d0 { s with bio := bio, lh := [], pc := some (t, .done) } l := by
  obtain ⟨locks, hc⟩ := h.cache
  have hpins : pins s = [] := by simp [pins, hpc]
  have hafter := h.phase
  simp only [Phase, hpc] at hafter
  have hin := Geometry.inLog_logBlock g.header
  obtain ⟨hdisk, hc'⟩ := writeHead_coherent hc (unwrapped_refs _ _ locks) (by simp [hpins]) hs
  rw [← viewOf_update_log _ _ _ hin, ← hdisk, hpins] at hc'
  refine h.advance (by simp [hpc]) (.inr rfl) h.committed hc' ⟨⟨?_, fun a ha => ?_, ?_⟩, rfl⟩
  · rw [hdisk]
    exact Recoverable.nil_of_clear _ _
  · have hclean := hc.clean a (by simp [hpins])
    rw [viewOf, if_neg ha] at hclean
    rw [hdisk, update_of_ne (Geometry.ne_logBlock ha g.header), hclean]
    exact hafter.same a ha
  · exact fun a ha _ => hafter.same a ha

theorem InOrder.done (hpc : s.pc = some (t, .done)) :
    InOrder g d0 { s with gate := { s.gate with committing := false }, pc := none }
      { l with committed := s.nextOp } := by
  have hphase := h.phase
  simp only [Phase, hpc] at hphase
  obtain ⟨hbefore, hnil⟩ := hphase
  have hpins : pins s = s.lh := by simp [pins, hpc]
  obtain ⟨locks, hc⟩ := h.cache
  rw [hpins] at hc
  have hsame : ∀ a, ¬ g.InLog a → applied d0 l.writes a = applied d0 l.durable a := fun a ha =>
    hbefore.rest a ha (by simp [hnil])
  exact
    { h with
      cache := ⟨locks, hc⟩
      committed := le_refl _
      active := fun u op hu => by
        have := (h.active u op hu).2.2
        rw [hpc] at this
        cases this
      committing := rfl
      phase := by
        simp only [Phase]
        rw [h.durable_all]
        refine ⟨hbefore.empty, fun a ha => ?_, fun _ _ _ => rfl⟩
        rw [hsame a ha]
        exact hbefore.home a ha }

end

/-! ## Runs -/

theorem InOrder.step {e : FsEvent} (h : InOrder g d0 s l) (hs : fsStep g s e = some s') :
    InOrder g d0 s' (l.record s e) := by
  cases e with
  | beginOp t =>
    simp only [fsStep] at hs
    split at hs
    · cases hs
    · rename_i hguard
      obtain ⟨a, ha, rfl⟩ := map_eq_some_iff.mp hs
      exact h.beginOp (not_not.mp (not_or.mp hguard).2) ha
  | bget t b =>
    simp only [fsStep] at hs
    split at hs
    · cases hs
    · rename_i hguard
      obtain ⟨bio, hb, rfl⟩ := map_eq_some_iff.mp hs
      exact h.bget (not_not.mp (not_or.mp hguard).1) hb
  | lock t =>
    obtain ⟨b, hb, hs⟩ := bind_eq_some_iff.mp hs
    obtain ⟨bio, hl, rfl⟩ := map_eq_some_iff.mp hs
    exact h.lock hb hl
  | logWrite t b d =>
    simp only [fsStep] at hs
    split at hs
    · cases hs
    rename_i hguard
    obtain ⟨op, hop⟩ := ne_none_iff_exists'.mp (not_or.mp hguard).2
    have hrec : l.record s (.logWrite t b d) =
        { l with writes := l.writes ++ [⟨op, b, d⟩] } := by
      simp [Ledger.record, hop]
    rw [hrec]
    exact h.logWrite hop hs
  | brelse t b =>
    simp only [fsStep] at hs
    split at hs
    · cases hs
    · obtain ⟨bio, hb, rfl⟩ := map_eq_some_iff.mp hs
      exact h.brelse hb
  | endOp t =>
    simp only [fsStep] at hs
    split at hs
    · cases hs
    · rename_i hguard
      obtain ⟨op, hop⟩ := ne_none_iff_exists'.mp (not_or.mp hguard).2
      exact h.endOp hop hs
  | commit =>
    simp only [fsStep, commitStep] at hs
    simp only [Ledger.record]
    split at hs
    · cases hs
    · rename_i t tail hpc
      obtain ⟨bio, hb, rfl⟩ := map_eq_some_iff.mp hs
      simp only [hpc]
      exact h.writeLog hpc hb
    · rename_i t hpc
      obtain ⟨bio, hb, rfl⟩ := map_eq_some_iff.mp hs
      simp only [hpc]
      exact h.writeHead hpc hb
    · rename_i t tail hpc
      obtain ⟨bio, hb, rfl⟩ := map_eq_some_iff.mp hs
      simp only [hpc]
      exact h.install hpc hb
    · rename_i t hpc
      obtain ⟨bio, hb, rfl⟩ := map_eq_some_iff.mp hs
      simp only [hpc]
      exact h.clearHead hpc hb
    · rename_i t hpc
      cases hs
      simp only [hpc]
      exact h.done hpc

theorem inOrder_start {r : Booting} (h0 : diskEntries g d0 = [])
    (hr : Lib.Reach (recoverStep g) (fun _ _ => True) (reboot d0) r) (hpc : r.pc = .done) :
    InOrder g d0 (.start r) ⟨[], 0⟩ := by
  have hrec := recovering_of_reach (.of_nil h0 fun _ _ => rfl) hr
  have hcontent := hrec.content hpc
  obtain ⟨cnt, hc, hcnt⟩ := hrec.cache
  have hprog := hrec.progressed
  simp only [Progressed, hpc] at hprog
  have hlh : (FsState.start r).lh = [] := hprog.1
  have hpins : pins (.start r) = [] := hprog.1
  have hview : viewOf g (applied d0 []) r.bio.disk = r.bio.disk := by
    funext b
    by_cases hb : g.InLog b
    · exact if_pos hb
    · rw [viewOf, if_neg hb, hcontent b hb]
      rfl
  have hzero : cnt = fun b => BitVec.ofNat 32 (refs (FsState.start r).waiting [] b) := by
    funext b
    have hb : cnt b = 0 := by
      by_contra hne
      simpa [h0] using hcnt b hne
    have hno : count (· = some b) (FsState.start r).waiting = 0 := Lib.count_eq_zero.mpr fun _ h => by cases h
    simp [hb, refs, hno]
  constructor
  · refine ⟨fun _ => none, ?_⟩
    rw [hpins]
    change Coherent (viewOf g (applied d0 []) r.bio.disk) _ _ _ r.bio
    rw [hview, ← hzero]
    convert hc using 2
    simp
  · rw [hlh]
    exact nodup_nil
  · exact fun b hb => by rw [hlh] at hb; cases hb
  · rw [hlh]
    exact ⟨Nat.zero_le _, g.header⟩
  · exact fun w hw => absurd hw not_mem_nil
  · exact le_refl 0
  · exact fun u op hu => by cases hu
  · have hno : count (· ≠ none) (FsState.start r).inOp = 0 := Lib.count_eq_zero.mpr fun _ h => h rfl
    rw [hno]
    rfl
  · rfl
  · exact ⟨hprog.2, hcontent, fun _ _ _ => rfl⟩

section

variable {r0 : Booting} {s : Logged} (h0 : d0 (g.logBlock 0) 0 = 0)
  (hboot : Lib.Reach (recoverStep g) (fun _ _ => True) (reboot d0) r0) (hup : r0.pc = .done)
  (hrun : Lib.Reach (loggedStep g) (fun _ _ => True) (.start r0) s)
include h0 hboot hup hrun

theorem reach_inOrder : InOrder g d0 s.fs s.ledger := by
  refine Lib.Reach.invariant (I := fun s : Logged => InOrder g d0 s.fs s.ledger)
    (inOrder_start (entries_eq_nil h0) hboot hup) (fun s e s' h _ hs => ?_) hrun
  obtain ⟨fs, hfs, rfl⟩ := map_eq_some_iff.mp hs
  exact h.step hfs

/-- **The log is in order** in every run: its counters are right, its header names no block twice, and a home block is
written only while the log on the disk holds it. -/
theorem log_inOrder : InOrder g d0 s.fs s.ledger := reach_inOrder h0 hboot hup hrun

/-- **Crash atomicity.** Wherever the file system crashes, and however often recovery does, the home blocks are those
of `d0` after the writes of the committed transactions and no others, and none of these operations was in progress. -/
theorem crash_atomic {r : Booting} (hcrash : Lib.Reach (recoverStep g) (fun _ _ => True) (reboot s.fs.bio.disk) r)
    (hdone : r.pc = .done) : (∀ b, ¬ g.InLog b →
      r.bio.disk b = applied d0 (s.ledger.writes.filter fun w => w.op < s.ledger.committed) b) ∧
      ∀ t op, s.fs.inOp t = some op → s.ledger.committed ≤ op := by
  have horder := reach_inOrder h0 hboot hup hrun
  refine ⟨?_, fun t op hop => (horder.active t op hop).1⟩
  exact (recovering_of_reach horder.recoverable hcrash).content hdone

end

end Invariant

def smallLog : Geometry := ⟨2, 30, by decide, by decide⟩

/-- Two operations in one transaction write blocks 50 and 51, up to the commit point. -/
def commitRun : List FsEvent :=
  [.beginOp 0, .beginOp 1, .bget 0 50, .lock 0, .bget 1 51, .lock 1, .logWrite 0 50 (fun _ => 9),
    .logWrite 1 51 (fun _ => 8), .brelse 0 50, .endOp 0, .brelse 1 51, .endOp 1, .commit, .commit, .commit]

theorem log_inOrder_commit : ∃ s : Logged, s.fs.lh = [50, 51] ∧ InOrder smallLog (fun _ _ => 0) s.fs s.ledger := by
  obtain ⟨r0, hr0, hup⟩ := Lib.Reach.of_any (recoverStep smallLog) (fun _ _ => True) (reboot fun _ _ => 0) [.next, .next]
    (fun r0 => decide (r0.pc = .done ∧ ((Lib.exec (loggedStep smallLog) (fun _ _ => True) (.start r0) commitRun).any
      fun s => s.fs.lh == [50, 51]) = true)) (by decide +kernel)
  obtain ⟨hup, hrun⟩ := of_decide_eq_true hup
  obtain ⟨s, hs, hlh⟩ := Lib.Reach.of_any _ _ _ _ _ hrun
  exact ⟨s, beq_iff_eq.mp hlh, log_inOrder rfl hr0 hup hs⟩

/-- The log holds block 50, and recovery crashes before it clears the header. -/
theorem recovery_replays_crash : ∃ r : Booting, r.pc = .done ∧ r.bio.disk 50 7 = 9 := by
  obtain ⟨r, hr, hdone⟩ := Lib.Reach.of_any (recoverStep smallLog) (fun _ _ => True)
    (reboot fun b => if b = 2 then putEntries [50] fun _ => 0 else fun _ => if b = 3 then 9 else 0)
    [.next, .next, .crash, .next, .next, .next] (·.pc == .done) (by decide +kernel)
  rw [beq_iff_eq] at hdone
  have hhome : ∀ b ∈ ([50] : List BlockNo), ¬ smallLog.InLog b := forall_mem_singleton.mpr (by decide)
  have h50 := (recovery_replays ⟨by decide, by exact hhome, by decide, fun _ _ => rfl⟩ hr hdone).1 50 (by decide)
  exact ⟨r, hdone, by rw [h50]; decide⟩

/-- The machine crashes right after the commit point, and once more in the middle of recovery. -/
theorem crash_atomic_run : ∃ s r,
    Lib.Reach (recoverStep smallLog) (fun _ _ => True) (reboot s) r ∧ r.pc = .done ∧
      r.bio.disk 50 7 = 9 ∧ r.bio.disk 51 7 = 8 := by
  have hrun : ((Lib.exec (recoverStep smallLog) (fun _ _ => True) (reboot fun _ _ => 0)
      [.next, .next]).bind fun r0 =>
        (Lib.exec (loggedStep smallLog) (fun _ _ => True) (.start r0) commitRun).bind fun s =>
          (Lib.exec (recoverStep smallLog) (fun _ _ => True) (reboot s.fs.bio.disk)
            [.next, .next, .crash, .next, .next, .next, .next]).map fun r =>
              decide (r0.pc = .done ∧ r.pc = .done ∧
                applied (fun _ _ => 0)
                  (s.ledger.writes.filter fun w => w.op < s.ledger.committed) 50 7 = 9 ∧
                applied (fun _ _ => 0)
                  (s.ledger.writes.filter fun w => w.op < s.ledger.committed) 51 7 = 8)) =
      some true := by
    decide +kernel
  obtain ⟨r0, hr0, hrun⟩ := bind_eq_some_iff.mp hrun
  obtain ⟨s, hs, hrun⟩ := bind_eq_some_iff.mp hrun
  obtain ⟨r, hr, hrun⟩ := map_eq_some_iff.mp hrun
  obtain ⟨hup, hdone, h50, h51⟩ := of_decide_eq_true hrun
  have hcrash := Lib.Reach.refl.exec hr
  have hatomic := (crash_atomic rfl (Lib.Reach.refl.exec hr0) hup (Lib.Reach.refl.exec hs) hcrash
    hdone).1
  exact ⟨_, r, hcrash, hdone, by rw [hatomic 50 (by decide)]; exact h50,
    by rw [hatomic 51 (by decide)]; exact h51⟩

end Xv6.Fs
