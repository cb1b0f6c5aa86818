/-
# Xv6.Fs.Blocks — every block has one owner, in every run of root-container processes.

Soundness of the free map is part of coherence, so it holds in every state that is reached; what is added
here is that no step of such a run frees a free block.  `blank` is a file system to start from: `mkfs`
without the files it copies in.
-/
import Xv6.Fs.Icache
import Xv6.Kernel.Machine

namespace Xv6.Fs

open Function
open Kernel (Cid Container)
open Lib (Reach)

namespace Icache

variable {τ : Type} {p : Panic} {e : Event τ}

/-- The cache after `iinit()`. -/
structure Empty (s : Icache τ) : Prop where
  ref : ∀ ip, (s.entry ip).ref = 0
  lock : ∀ ip, (s.entry ip).lock = none
  pc : ∀ t, s.pc t = .idle
  held : ∀ t ip, s.held t ip = 0

variable [Fintype τ] {sb : Superblock} {cont : τ → Cid} {s s' : Icache τ}

theorem Coherent.of_empty (hwf : Wf sb s.store.disk) (h : s.Empty) : Coherent sb s where
  wf := hwf
  refs ip := by simp [h.ref, h.held]
  uniq ip _ hip := absurd (h.ref ip) hip.ne'
  bound ip hip := absurd (h.ref ip) hip.ne'
  locked ip t ht := by cases (h.lock ip).symm.trans ht
  freeing t ip stage ht := by cases (h.pc t).symm.trans ht
  claims t i ht := by cases (h.pc t).symm.trans ht
  fresh ip hip := absurd (h.ref ip) hip.ne'

variable [DecidableEq τ]

/-! ## Panics -/

/-- All processes run in the root container. -/
def Rooted (cont : τ → Cid) (s : Icache τ) : Prop := ∀ t, (s.store.cont (cont t)).isroot ≠ 0

omit [Fintype τ] [DecidableEq τ] in
theorem work_eq_error {ip : Iptr} {f : DiskInode → Store → Except Panic (DiskInode × Store)}
    (h : s.work ip f = .error p) : f (s.entry ip).copy s.store = .error p := by
  rcases Lib.bind_eq_error.mp h with h | ⟨r, -, h⟩
  · exact h
  · cases h

omit [Fintype τ] in
theorem iget_eq_error {t : τ} {inum : Nat} (h : s.iget t inum = .error p) : p = .igetNoInodes := by
  unfold Icache.iget at h
  split at h
  · cases h
  · split at h
    · cases h
      rfl
    · cases h

/-- **The panics that are left**: the cache is full, there is no free inode, or an inode that is locked is
free. -/
theorem Coherent.panics (h : Coherent sb s) (hroot : s.Rooted cont)
    (hen : s.Enabled e) (hact : s.act sb cont e = .error p) :
    p = .igetNoInodes ∨ p = .iallocNoInodes ∨ p = .ilockNoType := by
  cases e with
  | idup | give | iput | clearType | invalidate | dropRef | ialloc | iupdate => cases hact
  | iget t inum | igetNew t inum => exact .inl (iget_eq_error hact)
  | ilock t ip =>
    have hlock : s.ilock sb t ip = .error p := hact
    have hused := h.ref_pos hen.2.1
    unfold Icache.ilock at hlock
    dsimp only at hlock
    rw [if_neg (by omega)] at hlock
    split at hlock
    · cases hlock
    · split at hlock
      · cases hlock
        exact .inr (.inr rfl)
      · cases hlock
  | iunlock t ip =>
    have hunlock : s.iunlock t ip = .error p := hact
    have hused := h.ref_pos (h.locked ip t hen.2).1
    unfold Icache.iunlock at hunlock
    rw [if_neg (by rintro (hne | hlt); exacts [hne hen.2, by omega])] at hunlock
    cases hunlock
  | probe t type inum =>
    have hprobe : s.probe sb t type inum = .error p := hact
    unfold Icache.probe at hprobe
    split at hprobe
    · cases hprobe
      exact .inr (.inl rfl)
    · split at hprobe <;> cases hprobe
  | trunc t ip =>
    have hlock := (h.freeing t ip _ hen).2.mpr Stage.noConfusion
    obtain ⟨-, -, hnode⟩ := h.works hlock (by rw [hen]; simp)
    obtain ⟨x, st, hok, -⟩ := itrunc_ok h.wf hnode (cont t)
    have herr := work_eq_error (s := s.setPc t (.freeing ip .truncated)) hact
    cases hok.symm.trans herr
  | readi t ip dst off n =>
    obtain ⟨r, bytes, hok⟩ := readi_ok sb (cont t) (h.wf.mapped _ _ (h.node hen)) dst off n
    rw [act] at hact
    have herr := work_eq_error hact
    rw [hok] at herr
    cases herr
  | writei t ip src off n =>
    rw [act] at hact
    have hbill := writei_billed sb (cont t) s.store (s.entry ip).inum (s.entry ip).copy src off n
    rcases Lib.bind_eq_error.mp (work_eq_error hact) with herr | ⟨r, -, herr⟩
    · rw [herr] at hbill
      exact absurd hbill (hroot t)
    · cases herr
  | itrunc t ip =>
    obtain ⟨x, st, hok, -⟩ := itrunc_ok h.wf (h.node hen) (cont t)
    cases hok.symm.trans (work_eq_error hact)

theorem Coherent.bills (h : Coherent sb s) (hroot : s.Rooted cont)
    (hs : s.step sb cont e = some s') : s'.Rooted cont ∧ s'.store.limited = s.store.limited := by
  obtain ⟨hen, hact⟩ := step_eq_some.mp hs
  have hsame : ∀ {r : Icache τ}, r.store = s.store → r.Rooted cont ∧ r.store.limited = s.store.limited := by
    intro r hr
    unfold Rooted
    rw [hr]
    exact ⟨hroot, rfl⟩
  have higet : ∀ {t : τ} {inum : Nat} {r r' : Icache τ}, r.iget t inum = .ok r' → r'.store = r.store := by
    intro t inum r r' hr
    obtain ⟨ip, ⟨-, -, rfl⟩ | ⟨-, -, -, rfl⟩⟩ := iget_eq_ok hr <;> rfl
  cases e with
  | idup | give | invalidate | dropRef | ialloc =>
    cases hact
    exact hsame rfl
  | iput t ip =>
    cases hact
    unfold Icache.iput
    split <;> exact hsame rfl
  | clearType | iupdate =>
    cases hact
    exact ⟨hroot, rfl⟩
  | iget t inum => exact hsame (higet hact)
  | igetNew t inum => exact hsame (higet (r := s.setPc t .idle) hact)
  | ilock t ip =>
    obtain ⟨e, rfl, -⟩ := ilock_eq_ok hact
    exact hsame rfl
  | iunlock t ip =>
    cases iunlock_eq_ok hact
    exact hsame rfl
  | probe t type inum =>
    obtain ⟨-, ⟨-, rfl⟩ | rfl⟩ := probe_eq_ok hact
    · exact ⟨hroot, rfl⟩
    · exact hsame rfl
  | trunc t ip =>
    have hlock := (h.freeing t ip _ hen).2.mpr Stage.noConfusion
    obtain ⟨-, -, hnode⟩ := h.works hlock (by rw [hen]; simp)
    obtain ⟨x, st, hok, -, -, -, -, hlimited, hroots⟩ := itrunc_ok h.wf hnode (cont t)
    obtain ⟨x', st', hf, rfl⟩ := work_eq_ok hact
    cases hf.symm.trans hok
    exact ⟨fun u => by rw [hroots]; exact hroot u, hlimited⟩
  | itrunc t ip =>
    obtain ⟨x, st, hok, -, -, -, -, hlimited, hroots⟩ := itrunc_ok h.wf (h.node hen) (cont t)
    obtain ⟨x', st', hf, rfl⟩ := work_eq_ok hact
    cases hf.symm.trans hok
    exact ⟨fun u => by rw [hroots]; exact hroot u, hlimited⟩
  | readi t ip dst off n =>
    obtain ⟨r, bytes, hok⟩ := readi_ok sb (cont t) (h.wf.mapped _ _ (h.node hen)) dst off n
    rw [act] at hact
    obtain ⟨x', st', hf, rfl⟩ := work_eq_ok hact
    rw [hok] at hf
    cases hf
    exact hsame rfl
  | writei t ip src off n =>
    rw [act] at hact
    obtain ⟨x', st', hf, rfl⟩ := work_eq_ok hact
    obtain ⟨⟨r, x, st⟩, hwrite, hf⟩ := Lib.bind_eq_ok.mp hf
    cases hf
    have hbill := writei_billed sb (cont t) s.store (s.entry ip).inum (s.entry ip).copy src off n
    rw [hwrite] at hbill
    exact ⟨fun u => by rw [hbill.roots]; exact hroot u, hbill.limited (hroot t)⟩

/-- `balloc` finds a free block whenever the step calls it. -/
def Finds (sb : Superblock) (cont : τ → Cid) (s : Icache τ) (e : Event τ) : Prop :=
  (s.step sb cont e).all (fun s' => !s'.store.full) = true
deriving Decidable

theorem rooted_run {s0 : Icache τ} (hwf : Wf sb s0.store.disk) (hempty : s0.Empty) (hsated : s0.store.Sated)
    (hroot : s0.Rooted cont)
    (hr : Reach (step sb cont) (fun s e => InRange sb e ∧ Finds sb cont s e) s0 s) :
    Coherent sb s ∧ s.Rooted cont ∧ s.store.Sated := by
  refine Reach.invariant (I := fun s => Coherent sb s ∧ s.Rooted cont ∧ s.store.Sated)
    ⟨.of_empty hwf hempty, hroot, hsated⟩ ?_ hr
  rintro s e s' ⟨hcoh, hroot, hsated⟩ ⟨hrange, hfinds⟩ hs
  obtain ⟨hroot', hlimited⟩ := hcoh.bills hroot hs
  have hfull : s'.store.full = false := by
    unfold Finds at hfinds
    rw [hs] at hfinds
    simpa using hfinds
  have hsated' : s'.store.Sated := ⟨hfull, hlimited.trans hsated.2⟩
  exact ⟨hcoh.step hrange hs hsated', hroot', hsated'⟩

/-- **Block ownership.** Every address reachable from an allocated inode is a marked block of the data area, reachable from one
place only; and no step frees a free block. -/
theorem blocks_owned {s0 : Icache τ} (hwf : Wf sb s0.store.disk) (hempty : s0.Empty) (hsated : s0.store.Sated)
    (hroot : s0.Rooted cont)
    (hr : Reach (step sb cont) (fun s e => InRange sb e ∧ Finds sb cont s e) s0 s) :
    (∀ i x ix, inodesOf sb s.store.disk i = some x → x.addrAt s.store.disk ix ≠ 0 →
      sb.IsData (x.addrAt s.store.disk ix) ∧ bit sb s.store.disk (x.addrAt s.store.disk ix).toNat = true ∧
        ∀ j y jx, inodesOf sb s.store.disk j = some y →
          y.addrAt s.store.disk jx = x.addrAt s.store.disk ix → j = i ∧ jx = ix) ∧
      ∀ e, s.Enabled e → s.act sb cont e ≠ .error .freeingFreeBlock := by
  obtain ⟨hcoh, hroot, -⟩ := rooted_run hwf hempty hsated hroot hr
  constructor
  · intro i x ix hx hne
    have hname : names (inodesOf sb s.store.disk) s.store.disk (i, ix) (x.addrAt s.store.disk ix) :=
      ⟨hne, x, hx, rfl⟩
    obtain ⟨hdata, hbit⟩ := hcoh.wf.sound.owns.used hname
    refine ⟨hdata, hbit, ?_⟩
    intro j y jx hy heq
    have hplace := hcoh.wf.sound.owns.inj (p := (j, jx)) ⟨hne, y, hy, heq⟩ hname
    exact ⟨congrArg Prod.fst hplace, congrArg Prod.snd hplace⟩
  · intro e hen hact
    rcases hcoh.panics hroot hen hact with hp | hp | hp <;> cases hp

end Icache

/-! ## A file system to start from -/

/-- The free map of `mkfs` before the first file: the blocks in front of the data area are in use. -/
def freeMap (sb : Superblock) : Disk := fun b w =>
  if sb.bmapstart ≤ b.toNat ∧ b.toNat < sb.datastart then
    -- bit `j` of the word stands for block `first + j`
    let first := (b.toNat - sb.bmapstart) * 8192 + w.val * 32
    BitVec.ofNat 32 (2 ^ min 32 (sb.datastart - first) - 1)
  else 0

def blank (sb : Superblock) : Disk := writeInode sb 1 { Icache.newInode .dir with nlink := 1 } (freeMap sb)

theorem bit_freeMap (sb : Superblock) {b : Nat} (hb : b < sb.size) :
    bit sb (freeMap sb) b = decide (b < sb.datastart) := by
  obtain ⟨hnat, hlt⟩ := @Superblock.bblock_toNat sb b hb
  unfold bit freeMap
  rw [if_pos ⟨by omega, hlt⟩]
  simp only [hnat, bitWord, BitVec.getLsbD_ofNat, Nat.testBit_two_pow_sub_one]
  have hmod : b % 32 < 32 := Nat.mod_lt _ (by decide)
  rw [decide_eq_true hmod, Bool.true_and, decide_eq_decide]
  omega

theorem readInode_freeMap (sb : Superblock) {i : Nat} (hi : i < sb.ninodes) : (readInode sb (freeMap sb) i).type = 0 := by
  have hlt := (@Superblock.iblock_toNat sb i hi).2
  have hzero : ∀ w, freeMap sb (sb.iblock i) w = 0 := fun w => if_neg fun h => by omega
  simp [readInode, getInode, DiskInode.ofWords, hzero]

theorem wf_freeMap (sb : Superblock) : Wf sb (freeMap sb) := by
  have hnone : ∀ i x, inodesOf sb (freeMap sb) i ≠ some x := by
    intro i x hx
    obtain ⟨hi, ht, hread⟩ := inodesOf_eq_some.mp hx
    exact ht (hread ▸ readInode_freeMap sb hi)
  refine ⟨⟨fun b hb hm => ?_, ?_⟩, fun i x hx => absurd hx (hnone i x)⟩
  · rw [bit_freeMap sb hb]
    exact decide_eq_true hm
  constructor
  · rintro p a ⟨-, x, hx, -⟩
    exact absurd hx (hnone _ x)
  · rintro p q a ⟨-, x, hx, -⟩
    exact absurd hx (hnone _ x)

theorem wf_blank {sb : Superblock} (h : 1 < sb.ninodes) : Wf sb (blank sb) :=
  (wrote_empty (wf_freeMap sb) h (by decide) (fun _ => rfl) rfl).wf

namespace Icache

def start (τ : Type) (d : Disk) : Icache τ where
  store := { disk := d, cont := (Kernel.boot 0).cont, full := false, limited := false }
  entry := fun _ =>
    { inum := 0, ref := 0, valid := false, lock := none, copy := readInode mkfsSb (fun _ _ => 0) 0 }
  pc := fun _ => .idle
  held := fun _ _ => 0

theorem start_empty (τ : Type) (d : Disk) : (start τ d).Empty :=
  ⟨fun _ => rfl, fun _ => rfl, fun _ => rfl, fun _ _ => rfl⟩

/-- A process of the root container opens the root directory and writes a byte into it. -/
def writeRun : List (Event Unit) :=
  [.iget () 1, .ilock () 0, .writei () 0 (fun _ => some 7) 0 1, .iunlock () 0, .iput () 0]

theorem blocks_owned_write :
    ∃ s : Icache Unit,
      ((inodesOf mkfsSb s.store.disk 1).any fun x => x.addrs 0 != 0) = true ∧
      (∀ i x ix, inodesOf mkfsSb s.store.disk i = some x → x.addrAt s.store.disk ix ≠ 0 →
        mkfsSb.IsData (x.addrAt s.store.disk ix) ∧
          bit mkfsSb s.store.disk (x.addrAt s.store.disk ix).toNat = true ∧
          ∀ j y jx, inodesOf mkfsSb s.store.disk j = some y →
            y.addrAt s.store.disk jx = x.addrAt s.store.disk ix → j = i ∧ jx = ix) ∧
      ∀ e, s.Enabled e → s.act mkfsSb (fun _ => 0) e ≠ .error .freeingFreeBlock := by
  obtain ⟨s, hr, hs⟩ := Reach.of_any (step mkfsSb fun _ => 0)
    (fun s e => InRange mkfsSb e ∧ Finds mkfsSb (fun _ => 0) s e) (start Unit (blank mkfsSb)) writeRun
    (fun s => (inodesOf mkfsSb s.store.disk 1).any fun x => x.addrs 0 != 0) (by decide +kernel)
  exact ⟨s, hs, blocks_owned (wf_blank (by decide)) (start_empty _ _) ⟨rfl, rfl⟩ (fun _ => by decide) hr⟩

end Icache

end Xv6.Fs
