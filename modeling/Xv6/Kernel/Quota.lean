/-
# Xv6.Kernel.Quota — giving resources back, and lowering a limit.

Both are arithmetic on unsigned 64-bit numbers.  A release of `a` bytes arrives as `-a`, and the sum
meets the limit (the root container has none), the clamp of `updatecontmem`, which looks at bit 31, and the
clamp of `updatecontdsk`, which compares an unsigned number with zero and never fires.  The setters ask
`newmax*1024 - max > 0`, which only a difference of zero fails.
-/
import Xv6.Kernel.LifeCycle

namespace Xv6.Kernel

variable {k : Fin NCPU} {name : CStr} {c : Cid} {s : State} {a : Nat} {u d : BitVec 64} {n : BitVec 32}

/-! ## Releases -/

/-- `updatecontmem(-a, c)` returns 1 and leaves `max(0, used_mem - a)`. -/
def ReleasesMem (a : Nat) (c : Cid) (s : State) : Prop :=
  (updatecontmem (neg64 a) (some c) s).2 = 1 ∧
    ((updatecontmem (neg64 a) (some c) s).1.cont c).usedMem.toNat = (s.cont c).usedMem.toNat - a

/-- The same of `updatecontdsk` and `used_dsk`. -/
def ReleasesDsk (a : Nat) (c : Cid) (s : State) : Prop :=
  (updatecontdsk (neg64 a) (some c) s).2 = 1 ∧
    ((updatecontdsk (neg64 a) (some c) s).1.cont c).usedDsk.toNat = (s.cont c).usedDsk.toNat - a

theorem add_neg64_of_le (h : a ≤ u.toNat) : (u + neg64 a).toNat = u.toNat - a := by
  have := u.isLt
  rw [neg64, BitVec.toNat_add, BitVec.toNat_neg, BitVec.toNat_ofNat]
  omega

theorem add_neg64_of_lt (h : u.toNat < a) (ha : a < 2 ^ 64) : (u + neg64 a).toNat = 2 ^ 64 - (a - u.toNat) := by
  have := u.isLt
  rw [neg64, BitVec.toNat_add, BitVec.toNat_neg, BitVec.toNat_ofNat]
  omega

/-- `(int)x < 0` looks at bit 31. -/
theorem truncate_toInt_neg (x : BitVec 64) : (x.truncate 32).toInt < 0 ↔ 2 ^ 31 ≤ x.toNat % 2 ^ 32 := by
  rw [BitVec.toInt_neg_iff]
  simp
  omega

section

variable (hused : (s.cont c).state ≠ .cunused)
include hused

theorem updatecontmem_eq :
    updatecontmem d (some c) s =
      if (s.cont c).isroot = 0 ∧ (s.cont c).maxSz.toNat < ((s.cont c).usedMem + d).toNat then
        (s, -1)
      else
        (s.setCont c
          { s.cont c with
            usedMem := if 2 ^ 31 ≤ ((s.cont c).usedMem + d).toNat % 2 ^ 32 then 0
              else (s.cont c).usedMem + d }, 1) := by
  unfold updatecontmem liftCont Container.updatemem
  simp only [if_neg hused, truncate_toInt_neg, gt_iff_lt, BitVec.lt_def, and_comm]
  split
  · simp [State.setCont]
  · rfl

theorem updatecontdsk_eq :
    updatecontdsk d (some c) s =
      if (s.cont c).isroot = 0 ∧ (s.cont c).maxDsk.toNat < ((s.cont c).usedDsk + d).toNat then
        (s, -1)
      else (s.setCont c { s.cont c with usedDsk := (s.cont c).usedDsk + d }, 1) := by
  unfold updatecontdsk liftCont Container.updatedsk
  simp only [if_neg hused, gt_iff_lt, BitVec.lt_def, and_comm]
  split
  · simp [State.setCont]
  · simp

theorem releasesMem_iff_sum :
    ReleasesMem a c s ↔
      ((s.cont c).isroot = 0 → ((s.cont c).usedMem + neg64 a).toNat ≤ (s.cont c).maxSz.toNat) ∧
        (if 2 ^ 31 ≤ ((s.cont c).usedMem + neg64 a).toNat % 2 ^ 32 then 0
          else ((s.cont c).usedMem + neg64 a).toNat) = (s.cont c).usedMem.toNat - a := by
  unfold ReleasesMem
  rw [updatecontmem_eq hused]
  by_cases hlim : (s.cont c).isroot = 0 ∧ (s.cont c).maxSz.toNat < ((s.cont c).usedMem + neg64 a).toNat
  · rw [if_pos hlim]
    constructor
    · rintro ⟨h, -⟩
      cases h
    · rintro ⟨h, -⟩
      exact absurd (h hlim.1) (Nat.not_le.mpr hlim.2)
  rw [if_neg hlim]
  have hle : (s.cont c).isroot = 0 → ((s.cont c).usedMem + neg64 a).toNat ≤ (s.cont c).maxSz.toNat :=
    fun h0 => Nat.not_lt.mp fun hlt => hlim ⟨h0, hlt⟩
  simp only [State.setCont_cont, Function.update_self, true_and, apply_ite BitVec.toNat]
  exact ⟨fun h => ⟨hle, h⟩, fun h => h.2⟩

theorem releasesDsk_iff_sum :
    ReleasesDsk a c s ↔
      ((s.cont c).isroot = 0 → ((s.cont c).usedDsk + neg64 a).toNat ≤ (s.cont c).maxDsk.toNat) ∧
        ((s.cont c).usedDsk + neg64 a).toNat = (s.cont c).usedDsk.toNat - a := by
  unfold ReleasesDsk
  rw [updatecontdsk_eq hused]
  by_cases hlim : (s.cont c).isroot = 0 ∧ (s.cont c).maxDsk.toNat < ((s.cont c).usedDsk + neg64 a).toNat
  · rw [if_pos hlim]
    constructor
    · rintro ⟨h, -⟩
      cases h
    · rintro ⟨h, -⟩
      exact absurd (h hlim.1) (Nat.not_le.mpr hlim.2)
  rw [if_neg hlim]
  have hle : (s.cont c).isroot = 0 → ((s.cont c).usedDsk + neg64 a).toNat ≤ (s.cont c).maxDsk.toNat :=
    fun h0 => Nat.not_lt.mp fun hlt => hlim ⟨h0, hlt⟩
  simp only [State.setCont_cont, Function.update_self, true_and]
  exact ⟨fun h => ⟨hle, h⟩, fun h => h.2⟩

end

/-- **When a release of memory works**: what remains is within the limit and has bit 31 clear; or
more is given back than was charged, the wrapped sum is within the limit and has bit 31 set. -/
def MemReleasable (a : Nat) (x : Container) : Prop :=
  if a ≤ x.usedMem.toNat then
    (x.isroot = 0 → x.usedMem.toNat - a ≤ x.maxSz.toNat) ∧ (x.usedMem.toNat - a) % 2 ^ 32 < 2 ^ 31
  else
    (x.isroot = 0 → 2 ^ 64 ≤ x.maxSz.toNat + (a - x.usedMem.toNat)) ∧
      (a - x.usedMem.toNat - 1) % 2 ^ 32 < 2 ^ 31

/-- **When a release of disk space works**: no more is given back than was charged, and what remains
is within the limit. -/
def DskReleasable (a : Nat) (x : Container) : Prop :=
  a ≤ x.usedDsk.toNat ∧ (x.isroot = 0 → x.usedDsk.toNat - a ≤ x.maxDsk.toNat)

theorem releasesMem_iff (hused : (s.cont c).state ≠ .cunused) (ha : a < 2 ^ 64) :
    ReleasesMem a c s ↔ MemReleasable a (s.cont c) := by
  rw [releasesMem_iff_sum hused]
  unfold MemReleasable
  by_cases hle : a ≤ (s.cont c).usedMem.toNat
  · rw [if_pos hle, add_neg64_of_le hle]
    refine and_congr_right fun _ => ?_
    split <;> omega
  · rw [if_neg hle, add_neg64_of_lt (Nat.not_le.mp hle) ha]
    have hu := (s.cont c).usedMem.isLt
    refine and_congr (imp_congr_right fun _ => by omega) ?_
    split <;> omega

theorem releasesDsk_iff (hused : (s.cont c).state ≠ .cunused) (ha : a < 2 ^ 64) :
    ReleasesDsk a c s ↔ DskReleasable a (s.cont c) := by
  rw [releasesDsk_iff_sum hused]
  unfold DskReleasable
  by_cases hle : a ≤ (s.cont c).usedDsk.toNat
  · rw [add_neg64_of_le hle]
    simp [hle]
  rw [add_neg64_of_lt (Nat.not_le.mp hle) ha]
  have hu := (s.cont c).usedDsk.isLt
  refine iff_of_false (fun h => ?_) fun h => hle h.1
  have := h.2
  omega

/-- **Releases, exactly.** For a container in use and any amount, giving memory (disk space) back
returns 1 and leaves `max(0, used - a)` if and only if the three comparisons let it through. -/
theorem release_iff_releasable (c : Cid) (s : State) (a : Nat)
    (hused : (s.cont c).state ≠ .cunused) (ha : a < 2 ^ 64) :
    (ReleasesMem a c s ↔ MemReleasable a (s.cont c)) ∧ (ReleasesDsk a c s ↔ DskReleasable a (s.cont c)) :=
  ⟨releasesMem_iff hused ha, releasesDsk_iff hused ha⟩

/-- The root container after `initrootcont`, with one block charged. -/
def oneBlock : State := (updatecontdsk (BitVec.ofNat 64 BSIZE) (some ROOTCONT) (boot 0)).1

/-- Freeing the block again. -/
theorem release_iff_releasable_block : DskReleasable BSIZE (oneBlock.cont ROOTCONT) ∧
    ReleasesDsk BSIZE ROOTCONT oneBlock := by
  have hok : DskReleasable BSIZE (oneBlock.cont ROOTCONT) := by unfold DskReleasable; decide
  exact ⟨hok, (release_iff_releasable ROOTCONT oneBlock BSIZE (by decide)
    (by decide)).2.mpr hok⟩

/-- A block freed by the root container before it was charged one leaves `2^64 - 1024` bytes in
use. -/
theorem release_wraps :
    ¬ ∀ (c : Cid) (s : State) (a : Nat), (s.cont c).state ≠ .cunused → 0 < a → a < 2 ^ 64 →
      ReleasesMem a c s ∧ ReleasesDsk a c s := by
  intro h
  have hdsk := (h ROOTCONT (boot 0) BSIZE (by decide +kernel) (by decide) (by decide)).2.2
  revert hdsk
  decide +kernel

/-! ## Lowering a limit -/

/-- The two limits that `setmaxmem` and `setmaxdsk` set. -/
inductive Quota
  | mem | dsk

namespace Quota

def max : Quota → Container → BitVec 64
  | .mem, x => x.maxSz
  | .dsk, x => x.maxDsk

def setmax : Quota → Fin NCPU → CStr → BitVec 32 → State → Option (State × Option Int)
  | .mem => setmaxmem
  | .dsk => setmaxdsk

/-- The call returns 1 and sets the limit of `c` to `newmax*1024`
when that is at most the limit, and otherwise returns -1 and leaves it. -/
def Lowers (q : Quota) (k : Fin NCPU) (name : CStr) (c : Cid) (newmax : BitVec 32) (s : State) : Prop :=
  ∃ s' r, q.setmax k name newmax s = some (s', some r) ∧
    if newmax.toNat * 1024 ≤ (q.max (s.cont c)).toNat then
      r = 1 ∧ (q.max (s'.cont c)).toNat = newmax.toNat * 1024
    else r = -1 ∧ q.max (s'.cont c) = q.max (s.cont c)

/-- Calls in a row, with the requests that were accepted (returned 1). -/
def requests (q : Quota) (k : Fin NCPU) (name : CStr) :
    List (BitVec 32) → State → Option (State × List (BitVec 32))
  | [], s => some (s, [])
  | n :: ns, s => do
    let (s, r) ← q.setmax k name n s
    let (s, accepted) ← q.requests k name ns s
    return (s, if r = some 1 then n :: accepted else accepted)

theorem toNat_kbytes (hn : n.toNat < 2 ^ 21) : (kbytes n).toNat = n.toNat * 1024 := by
  have hmul : (n * 1024).toNat = n.toNat * 1024 := by
    rw [BitVec.toNat_mul]
    show n.toNat * 1024 % 2 ^ 32 = _
    omega
  have hmsb : (n * 1024).msb = false := by rw [BitVec.msb_eq_false_iff_two_mul_lt, hmul]; omega
  rw [kbytes, BitVec.signExtend_eq_setWidth_of_msb_false hmsb, BitVec.toNat_setWidth, hmul]
  omega

theorem exceedsMax_eq_false_iff (n : BitVec 32) (max : BitVec 64) : exceedsMax n max = false ↔ kbytes n = max := by
  constructor
  · intro h
    exact eq_of_not_exceedsMax (by rw [h]; decide)
  · rintro rfl
    simp [exceedsMax]

/-- **A call changes nothing**: the only request it accepts is the limit that is already there. -/
theorem setmax_eq (q : Quota) (n : BitVec 32) (hname : name2cont name s = some c)
    (hroot : (s.cont c).isroot = 0) :
    q.setmax k name n s = some (s, some (if kbytes n = q.max (s.cont c) then 1 else -1)) := by
  have hroot' : ¬ (s.cont c).isroot ≠ 0 := not_not.mpr hroot
  cases q with
  | mem =>
    simp only [setmax, setmaxmem, Kernel.setmax, hname, if_neg hroot', Container.withMaxSz,
      Quota.max, ← exceedsMax_eq_false_iff]
    cases hx : exceedsMax n (s.cont c).maxSz with
    | true => simp
    | false =>
      have heq := (exceedsMax_eq_false_iff _ _).mp hx
      simp [heq, State.setCont]
  | dsk =>
    simp only [setmax, setmaxdsk, Kernel.setmax, hname, if_neg hroot', Container.withMaxDsk,
      Quota.max, ← exceedsMax_eq_false_iff]
    cases hx : exceedsMax n (s.cont c).maxDsk with
    | true => simp
    | false =>
      have heq := (exceedsMax_eq_false_iff _ _).mp hx
      simp [heq, State.setCont]

theorem lowers_iff (q : Quota) (hn : n.toNat < 2 ^ 21)
    (hname : name2cont name s = some c) (hroot : (s.cont c).isroot = 0) :
    q.Lowers k name c n s ↔ (q.max (s.cont c)).toNat ≤ n.toNat * 1024 := by
  have heq : kbytes n = q.max (s.cont c) ↔ n.toNat * 1024 = (q.max (s.cont c)).toNat := by
    rw [← BitVec.toNat_inj, toNat_kbytes hn]
  unfold Lowers
  rw [setmax_eq q n hname hroot]
  constructor
  · rintro ⟨s', r, h, hr⟩
    cases h
    by_contra hlt
    rw [if_pos (by omega)] at hr
    have := hr.2
    omega
  intro hle
  refine ⟨s, _, rfl, ?_⟩
  split
  · rename_i hge
    have hn : n.toNat * 1024 = (q.max (s.cont c)).toNat := by omega
    exact ⟨if_pos (heq.mpr hn), hn.symm⟩
  · rename_i hlt
    exact ⟨if_neg fun h => hlt (by rw [heq.mp h]), rfl⟩

theorem requests_eq (q : Quota) (ns : List (BitVec 32)) (hname : name2cont name s = some c)
    (hroot : (s.cont c).isroot = 0) :
    q.requests k name ns s = some (s, ns.filter fun n => kbytes n = q.max (s.cont c)) := by
  induction ns with
  | nil => rfl
  | cons n ns ih =>
    simp only [requests, setmax_eq q n hname hroot]
    by_cases h : kbytes n = q.max (s.cont c)
    · simp [h, ih]
    · simp [h, ih]

/-- The smallest of the limit at the start and the accepted requests. -/
def smallest (start : Nat) (accepted : List (BitVec 32)) : Nat :=
  accepted.foldr (fun n m => min (n.toNat * 1024) m) start

theorem smallest_eq {start : Nat} {accepted : List (BitVec 32)}
    (h : ∀ n ∈ accepted, n.toNat * 1024 = start) : smallest start accepted = start := by
  induction accepted with
  | nil => rfl
  | cons n ns ih =>
    have hns := ih fun m hm => h m (List.mem_cons_of_mem n hm)
    have hn := h n List.mem_cons_self
    show min (n.toNat * 1024) (smallest start ns) = start
    rw [hns, hn, Nat.min_self]

end Quota

/-- **Lowering a limit, exactly.** A request below `2^21` is answered as it should be if and only if it asks for no less than
the limit: a limit cannot be lowered. Over any sequence of calls it equals the smallest accepted request. -/
theorem setmax_lowers_iff (q : Quota) (k : Fin NCPU) (name : CStr) (c : Cid) (s : State)
    (hname : name2cont name s = some c) (hroot : (s.cont c).isroot = 0) :
    (∀ n : BitVec 32, n.toNat < 2 ^ 21 → (q.Lowers k name c n s ↔ (q.max (s.cont c)).toNat ≤ n.toNat * 1024)) ∧
      ∀ ns : List (BitVec 32), (∀ n ∈ ns, n.toNat < 2 ^ 21) →
        ∃ s' accepted, q.requests k name ns s = some (s', accepted) ∧
          (q.max (s'.cont c)).toNat ≤ (q.max (s.cont c)).toNat ∧
          (q.max (s'.cont c)).toNat = Quota.smallest (q.max (s.cont c)).toNat accepted := by
  refine ⟨fun n hn => q.lowers_iff hn hname hroot, fun ns hns => ?_⟩
  refine ⟨s, _, q.requests_eq ns hname hroot, Nat.le_refl _, (Quota.smallest_eq ?_).symm⟩
  intro n hn
  obtain ⟨hmem, heq⟩ := List.mem_filter.mp hn
  rw [← of_decide_eq_true heq, Quota.toNat_kbytes (hns n hmem)]

def created : State := (kccreate nameC (some 5) (boot 0)).1

/-- Asking for the limit of the new container once more is accepted. -/
theorem setmax_lowers_iff_same : name2cont nameC created = some 1 ∧
    Quota.mem.Lowers 0 nameC 1 3200 created := by
  have hname : name2cont nameC created = some 1 := by decide
  refine ⟨hname, ?_⟩
  have h := setmax_lowers_iff .mem 0 nameC 1 created hname (by decide)
  exact (h.1 3200 (by decide)).mpr (by decide +kernel)

/-- A new container has 3200 KB of memory; asking for 100 KB is refused. -/
theorem setmaxmem_refuses_less :
    ¬ ∀ (q : Quota) (k : Fin NCPU) (name : CStr) (c : Cid) (s : State) (n : BitVec 32),
      name2cont name s = some c → (s.cont c).isroot = 0 → n.toNat < 2 ^ 21 → q.Lowers k name c n s := by
  intro h
  have hname : name2cont nameC created = some 1 := by decide
  obtain ⟨s', r, hset, hr⟩ := h .mem 0 nameC 1 created 100 hname (by decide +kernel) (by decide)
  rw [if_pos (by decide +kernel)] at hr
  obtain ⟨rfl, -⟩ := hr
  have hret : (Quota.mem.setmax 0 nameC 100 created).map (·.2) = some (some (-1)) := by
    decide +kernel
  rw [hset] at hret
  simp at hret

end Xv6.Kernel
