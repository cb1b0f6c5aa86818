/-
# Xv6.Kernel.Freelist — the page allocator with its pages named (`kernel/kalloc.c`).

`Xv6.Kernel.Memory` counts pages; here the free list is the list of their addresses, and a run keeps
a second list beside it, the pages handed out.  The two stay apart in every run.  What does not hold
is said in the two branches of `kalloc` that return 0: with an empty list the lock is not released,
and when the container refuses the charge the page is already off the list and goes to nobody.

Between the calls the tables may change in any way (`Op.other`).
-/
import Xv6.Kernel.Pagetable
import Xv6.Kernel.Machine

namespace Xv6.Kernel.Freelist

open List Option

open Pagetable (PHYSTOP)

/-- The tables, `kmem.freelist` with its links followed, and whether `kmem.lock` is held. -/
structure Pool where
  tables : State
  freelist : List Nat
  locked : Bool

/-- `kalloc()` on CPU `k`: the address of a page, or null. -/
def kalloc (k : Fin NCPU) (m : Pool) : Option (Pool × Option Nat) :=
  if m.locked then none
  else
    let r := m.freelist.head?
    let m := match m.freelist with
      -- nothing is released on this path
      | [] => { m with locked := true }
      | _ :: next => { m with freelist := next }
    let charged := updatecontmem (BitVec.ofNat 64 PGSIZE) (m.tables.mycont k) m.tables
    if charged.2 < 0 then
      match m.tables.mycont k with
      | none => some ({ m with tables := charged.1 }, none)
      | some c => some ({ m with tables := climitexceedhandler c charged.1 }, none)
    else some ({ m with tables := charged.1 }, r)

section Kernel

-- `end`, the first address behind the kernel
variable (kend : Nat)

def Freeable (pa : Nat) : Prop := pa % PGSIZE = 0 ∧ kend ≤ pa ∧ pa < PHYSTOP
deriving Decidable

def kfree (k : Fin NCPU) (pa : Nat) (m : Pool) : Option Pool :=
  if ¬ Freeable kend pa then none
  else if m.locked then none
  else
    some { m with
      freelist := pa :: m.freelist
      tables := (updatecontmem (neg64 PGSIZE) (m.tables.mycont k) m.tables).1 }

/-- The loop of `freerange` from address `p`, `n` pages long, on the first CPU. -/
def freerange : Nat → Nat → Pool → Option Pool
  | 0, _, m => some m
  | n + 1, p, m => (kfree kend 0 p m).bind (freerange n (p + PGSIZE))

def firstPage : Nat := (kend + (PGSIZE - 1)) / PGSIZE * PGSIZE

/-- `kinit()`: no process is current yet. -/
def kinit : Option Pool :=
  freerange kend ((PHYSTOP - firstPage kend) / PGSIZE) (firstPage kend) ⟨boot 0, [], false⟩

structure Run where
  pool : Pool
  out : List Nat

inductive Op
  | kalloc (k : Fin NCPU)
  | kfree (k : Fin NCPU) (pa : Nat)
  /-- Whatever else happens to processes and containers. -/
  | other (tables : State)

/-- Only pages handed out are freed. -/
def step (r : Run) : Op → Option Run
  | .kalloc k => (kalloc k r.pool).map fun (m, pa) => ⟨m, pa.toList ++ r.out⟩
  | .kfree k pa =>
    if pa ∈ r.out then (kfree kend k pa r.pool).map (⟨·, r.out.erase pa⟩) else none
  | .other tables => some { r with pool := { r.pool with tables := tables } }

end Kernel

/-! ## The counted allocator -/

/-- The state of `Xv6.Kernel.Memory`: the pages are counted. -/
def Pool.counted (m : Pool) : State := { m.tables with kmem := ⟨m.freelist.length, m.locked⟩ }

/-- A call, or whatever else happens, with the pages counted. -/
def countedStep (s : State) : Op → Option State
  | .kalloc k => (Kernel.kalloc k s).map (·.1)
  | .kfree k _ => Kernel.kfree k s
  | .other tables => some { tables with kmem := s.kmem }

section Calls

variable {k : Fin NCPU} {m m' : Pool} {pa : Option Nat}

/-- The current container takes the charge for a page: there is none, it is not in use, it is the
root, or its limit has room. -/
def Admits (k : Fin NCPU) (t : State) : Prop :=
  ∀ c, t.mycont k = some c → (t.cont c).state ≠ .cunused → (t.cont c).isroot = 0 →
    (t.cont c).usedMem + BitVec.ofNat 64 PGSIZE ≤ (t.cont c).maxSz

theorem charge_refused_iff (k : Fin NCPU) (t : State) :
    (updatecontmem (BitVec.ofNat 64 PGSIZE) (t.mycont k) t).2 < 0 ↔ ¬ Admits k t := by
  cases hc : t.mycont k with
  | none =>
    refine iff_of_false (Int.lt_irrefl 0) (not_not.mpr fun c h => ?_)
    rw [hc] at h
    cases h
  | some c =>
    have hadm : Admits k t ↔ ((t.cont c).state ≠ .cunused → (t.cont c).isroot = 0 →
        (t.cont c).usedMem + BitVec.ofNat 64 PGSIZE ≤ (t.cont c).maxSz) := by
      refine ⟨fun h => h c hc, fun h d hd => ?_⟩
      cases hc.symm.trans hd
      exact h
    rw [hadm]
    show (Container.updatemem _ (t.cont c)).2 < 0 ↔ _
    unfold Container.updatemem
    split
    · rename_i hunused
      exact iff_of_false (Int.lt_irrefl 0) (not_not.mpr fun h => absurd hunused h)
    rename_i hused
    split
    · rename_i hover
      exact iff_of_true (Int.negSucc_lt_zero 0) fun h => BitVec.not_lt.mpr (h hused hover.2) hover.1
    · rename_i hfits
      exact iff_of_false (Int.not_lt.mpr Int.one_nonneg) (not_not.mpr fun _ hroot =>
        BitVec.not_lt.mp fun hlt => hfits ⟨hlt, hroot⟩)

/-- **A call of `kalloc`**: the first page leaves the list, the lock stays held when there is none,
and the page is returned unless the charge was refused. -/
theorem kalloc_eq (k : Fin NCPU) (h : m.locked = false) :
    ∃ t pa, kalloc k m = some (⟨t, m.freelist.tail, m.freelist.isEmpty⟩, pa) ∧
      (Admits k m.tables → pa = m.freelist.head?) ∧ (¬ Admits k m.tables → pa = none) := by
  obtain ⟨tables, freelist, locked⟩ := m
  cases h
  have hiff := charge_refused_iff k tables
  unfold kalloc
  by_cases htakes : Admits k tables
  · have hneg : ¬ (updatecontmem (BitVec.ofNat 64 PGSIZE) (tables.mycont k) tables).2 < 0 := fun h => hiff.mp h htakes
    cases freelist with
    | nil | cons p rest =>
      rw [if_neg (by simp), if_neg hneg]
      exact ⟨_, _, rfl, fun _ => rfl, fun h => absurd htakes h⟩
  have hneg := hiff.mpr htakes
  cases freelist with
  | nil | cons p rest =>
    rw [if_neg (by simp), if_pos hneg]
    cases tables.mycont k with
    | none | some c => exact ⟨_, _, rfl, fun h => absurd h htakes, fun _ => rfl⟩

theorem kalloc_unlocked (h : kalloc k m = some (m', pa)) : m.locked = false := by
  by_contra hl
  rw [Bool.not_eq_false] at hl
  simp [kalloc, hl] at h

/-- The call returns; when it returns 0 the free list is as before; and the
lock is released. -/
def KallocKeeps (k : Fin NCPU) (m : Pool) : Prop :=
  ∃ m' pa, kalloc k m = some (m', pa) ∧ (pa = none → m'.freelist = m.freelist) ∧ m'.locked = false

/-- There is a page and the container takes the charge. -/
def Supplied (k : Fin NCPU) (m : Pool) : Prop := m.freelist ≠ [] ∧ Admits k m.tables

theorem kallocKeeps_iff (h : m.locked = false) : KallocKeeps k m ↔ Supplied k m := by
  obtain ⟨t, pa, heq, htakes, hrefuse⟩ := kalloc_eq k h
  unfold KallocKeeps Supplied
  rw [heq]
  constructor
  · rintro ⟨m', pa', hm, hsame, hlock⟩
    cases hm
    have hne : m.freelist ≠ [] := by intro hnil; simp [hnil] at hlock
    refine ⟨hne, not_not.mp fun hno => ?_⟩
    -- a refused page is off the list
    have htail := hsame (hrefuse hno)
    obtain ⟨p, rest, hcons⟩ := exists_cons_of_ne_nil hne
    rw [hcons] at htail
    exact cons_ne_self p rest htail.symm
  · rintro ⟨hne, hok⟩
    obtain ⟨p, rest, hcons⟩ := exists_cons_of_ne_nil hne
    have hpa := htakes hok
    refine ⟨_, pa, rfl, fun hnone => ?_, by simp [hcons]⟩
    rw [hpa, hcons] at hnone
    cases hnone

end Calls

/-! ## Conservation -/

section Conservation

variable {kend : Nat} {r r' : Run} {m m' : Pool} {k : Fin NCPU}

/-- The free list has no duplicates and shares no page with those handed out. -/
def Conserved (r : Run) : Prop := r.pool.freelist.Nodup ∧ ∀ pa ∈ r.pool.freelist, pa ∉ r.out

/-- What every run keeps: the two lists together have no duplicates, and all of it can be freed. -/
structure Whole (kend : Nat) (r : Run) : Prop where
  nodup : (r.pool.freelist ++ r.out).Nodup
  freeable : ∀ pa ∈ r.pool.freelist ++ r.out, Freeable kend pa

theorem Whole.conserved (h : Whole kend r) : Conserved r := by
  obtain ⟨hfree, -, hdisj⟩ := nodup_append.mp h.nodup
  exact ⟨hfree, fun pa hpa hout => hdisj pa hpa pa hout rfl⟩

theorem Whole.perm (h : Whole kend r) (hsub : (r'.pool.freelist ++ r'.out).Subperm
    (r.pool.freelist ++ r.out)) : Whole kend r' where
  nodup := by
    obtain ⟨l, hperm, hl⟩ := hsub
    exact hperm.nodup_iff.mp (h.nodup.sublist hl)
  freeable pa hpa := h.freeable pa (hsub.subset hpa)

theorem Whole.step (h : Whole kend r) {o : Op} (hs : step kend r o = some r') : Whole kend r' := by
  cases o with
  | kalloc k =>
    obtain ⟨⟨m, pa⟩, hm, rfl⟩ := map_eq_some_iff.mp hs
    obtain ⟨t, pa', heq, htakes, hrefuse⟩ := kalloc_eq k (kalloc_unlocked hm)
    cases hm.symm.trans heq
    apply h.perm
    show (r.pool.freelist.tail ++ (pa.toList ++ r.out)).Subperm (r.pool.freelist ++ r.out)
    cases hlist : r.pool.freelist with
    | nil =>
      have hnone : pa = none := by
        by_cases hok : Admits k r.pool.tables
        · rw [htakes hok, hlist]
          rfl
        · exact hrefuse hok
      rw [hnone]
      exact List.Subperm.refl _
    | cons p rest =>
      by_cases hok : Admits k r.pool.tables
      · rw [htakes hok, hlist]
        exact perm_middle.subperm
      · rw [hrefuse hok]
        exact (sublist_cons_self p (rest ++ r.out)).subperm
  | kfree k pa =>
    dsimp only [Freelist.step] at hs
    split at hs
    · rename_i hmem
      obtain ⟨m, hm, rfl⟩ := map_eq_some_iff.mp hs
      unfold kfree at hm
      split at hm
      · cases hm
      split at hm
      · cases hm
      cases hm
      apply h.perm
      refine List.Perm.subperm ?_
      show (pa :: (r.pool.freelist ++ r.out.erase pa)).Perm _
      exact perm_middle.symm.trans ((perm_cons_erase hmem).symm.append_left _)
    · cases hs
  | other tables =>
    cases hs
    exact ⟨h.nodup, h.freeable⟩

/-- The pages freed so far by `freerange` lie below its pointer, so none is freed twice. -/
theorem freerange_whole (n p : Nat) (m : Pool) (hp : p % PGSIZE = 0) (hlo : kend ≤ p)
    (hhi : p + n * PGSIZE ≤ PHYSTOP) (hl : m.locked = false) (hmy : m.tables.mycont 0 = none)
    (hw : Whole kend ⟨m, []⟩) (hbelow : ∀ pa ∈ m.freelist, pa < p) :
    ∃ m', freerange kend n p m = some m' ∧ m'.locked = false ∧ m'.freelist.length =
      m.freelist.length + n ∧ Whole kend ⟨m', []⟩ := by
  induction n generalizing p m with
  | zero => exact ⟨m, rfl, hl, rfl, hw⟩
  | succ n ih =>
    have hfree : Freeable kend p := ⟨hp, hlo, by unfold PGSIZE at *; omega⟩
    have hone : kfree kend 0 p m = some { m with freelist := p :: m.freelist } := by
      simp [kfree, hfree, hl, hmy, updatecontmem, liftCont]
    have hnew : p ∉ m.freelist := fun hmem => Nat.lt_irrefl p (hbelow p hmem)
    have hw' : Whole kend ⟨{ m with freelist := p :: m.freelist }, []⟩ := by
      refine ⟨?_, fun pa hpa => ?_⟩
      · simpa [hnew] using hw.nodup
      · rcases mem_cons.mp (by simpa using hpa) with rfl | hmem
        · exact hfree
        · exact hw.freeable pa (by simpa using hmem)
    have hbelow' : ∀ pa ∈ p :: m.freelist, pa < p + PGSIZE := by
      intro pa hpa
      unfold PGSIZE
      rcases mem_cons.mp hpa with rfl | hmem
      · omega
      · have := hbelow pa hmem
        omega
    obtain ⟨m', hm', hl', hlen, hwhole⟩ := ih (p + PGSIZE) { m with freelist := p :: m.freelist }
      (by unfold PGSIZE at *; omega) (by omega) (by unfold PGSIZE at *; omega) hl hmy hw' hbelow'
    refine ⟨m', ?_, hl', ?_, hwhole⟩
    · rw [freerange, hone]
      exact hm'
    · rw [hlen]
      show m.freelist.length + 1 + n = _
      omega

/-- **`kinit` frees every page between the kernel and the end of memory, once.** -/
theorem kinit_whole (kend : Nat) : ∃ m, kinit kend = some m ∧ m.locked = false ∧
    m.freelist.length = (PHYSTOP - firstPage kend) / PGSIZE ∧ Whole kend ⟨m, []⟩ := by
  have hempty : Whole kend ⟨⟨boot 0, [], false⟩, []⟩ := ⟨nodup_nil, fun pa hpa => by cases hpa⟩
  by_cases hfit : firstPage kend ≤ PHYSTOP
  · obtain ⟨m, hm, hl, hlen, hw⟩ := freerange_whole ((PHYSTOP - firstPage kend) / PGSIZE)
      (firstPage kend) ⟨boot 0, [], false⟩ (Nat.mul_mod_left _ _)
      (by unfold firstPage PGSIZE; omega) (by unfold PGSIZE at *; omega) rfl rfl hempty
      fun pa hpa => by cases hpa
    exact ⟨m, hm, hl, by simpa using hlen, hw⟩
  · have hnone : PHYSTOP - firstPage kend = 0 := by omega
    exact ⟨_, by rw [kinit, hnone]; rfl, rfl, by rw [hnone]; rfl, hempty⟩

/-- The calls of `kalloc` find a page and a container that takes the charge. -/
def Careful (r : Run) : Op → Prop
  | .kalloc k => Supplied k r.pool
  | _ => True

theorem Careful.unlocked {o : Op} (hok : Careful r o) (hl : r.pool.locked = false)
    (hs : step kend r o = some r') : r'.pool.locked = false := by
  cases o with
  | kalloc k =>
    obtain ⟨⟨m, pa⟩, hm, rfl⟩ := map_eq_some_iff.mp hs
    obtain ⟨m', pa', heq, -, hlock⟩ := (kallocKeeps_iff hl).mpr hok
    cases hm.symm.trans heq
    exact hlock
  | kfree k pa =>
    dsimp only [Freelist.step] at hs
    split at hs
    · obtain ⟨m, hm, rfl⟩ := map_eq_some_iff.mp hs
      unfold kfree at hm
      split at hm
      · cases hm
      · split at hm
        · cases hm
        · cases hm
          exact hl
    · cases hs
  | other tables =>
    cases hs
    exact hl

theorem kfree_returns (hw : Whole kend r) (hl : r.pool.locked = false) (k : Fin NCPU) {pa : Nat}
    (hpa : pa ∈ r.out) : ∃ m', kfree kend k pa r.pool = some m' ∧ m'.locked = false := by
  have hfree := hw.freeable pa (mem_append_right _ hpa)
  unfold kfree
  rw [if_neg (not_not.mpr hfree), if_neg (by simp [hl])]
  exact ⟨_, rfl, hl⟩

/-- **Page conservation, exactly.** The free list has no duplicates and no page that is handed out; while the lock is free,
a call of `kalloc` keeps the list when it returns 0 and releases the lock if and only if there is a page and the
container takes the charge. -/
theorem page_conservation (kend : Nat) (m : Pool) (r : Run) (hm : kinit kend = some m) :
    (Lib.Reach (step kend) (fun _ _ => True) ⟨m, []⟩ r →
      Conserved r ∧ (r.pool.locked = false →
        (∀ k, KallocKeeps k r.pool ↔ Supplied k r.pool) ∧
          ∀ k, ∀ pa ∈ r.out, ∃ m', kfree kend k pa r.pool = some m' ∧ m'.locked = false)) ∧
      (Lib.Reach (step kend) Careful ⟨m, []⟩ r → r.pool.locked = false) := by
  obtain ⟨m', hm', hl, -, hw⟩ := kinit_whole kend
  cases hm.symm.trans hm'
  constructor
  · intro h
    have hwhole : Whole kend r := Lib.Reach.invariant hw (fun _ _ _ hi _ hs => hi.step hs) h
    exact ⟨hwhole.conserved, fun hopen =>
      ⟨fun k => kallocKeeps_iff hopen, fun k pa hpa => kfree_returns hwhole hopen k hpa⟩⟩
  · intro h
    exact Lib.Reach.invariant (I := fun r => r.pool.locked = false) hl
      (fun _ _ _ hi hok hs => Careful.unlocked hok hi hs) h

end Conservation

def twoPages : Nat := PHYSTOP - 2 * PGSIZE

/-- One page is handed out and one is left. -/
theorem page_conservation_two : ∃ m r, kinit twoPages = some m ∧
    Lib.Reach (step twoPages) (fun _ _ => True) ⟨m, []⟩ r ∧ r.pool.freelist.length = 1 ∧ Conserved r := by
  obtain ⟨m, hm, hl, hlen, -⟩ := kinit_whole twoPages
  have hlen2 : m.freelist.length = 2 := by rw [hlen]; decide
  obtain ⟨t, pa, heq, -, -⟩ := kalloc_eq 0 hl
  have hreach : Lib.Reach (step twoPages) (fun _ _ => True) ⟨m, []⟩
      ⟨⟨t, m.freelist.tail, m.freelist.isEmpty⟩, pa.toList ++ []⟩ :=
    Lib.Reach.refl.next (e := .kalloc 0) trivial (by simp [step, heq])
  exact ⟨m, _, hm, hreach, by simp [hlen2], ((page_conservation twoPages m _ hm).1 hreach).1⟩

def onePage : Nat := PHYSTOP - PGSIZE

/-- The first `kalloc` returns the only page, the second returns 0 and keeps the lock. -/
theorem kalloc_keeps_lock :
    ¬ ∀ (kend : Nat) (m : Pool) (r : Run) (k : Fin NCPU), kinit kend = some m →
      Lib.Reach (step kend) (fun _ _ => True) ⟨m, []⟩ r → r.pool.locked = false → KallocKeeps k r.pool := by
  intro h
  obtain ⟨m, hm, hl, hlen, -⟩ := kinit_whole onePage
  obtain ⟨pa, hone⟩ : ∃ pa, m.freelist = [pa] := length_eq_one_iff.mp (by rw [hlen]; decide)
  obtain ⟨t, ret, heq, -, -⟩ := kalloc_eq 0 hl
  rw [hone] at heq
  have hreach : Lib.Reach (step onePage) (fun _ _ => True) ⟨m, []⟩ ⟨⟨t, [], false⟩, ret.toList ++ []⟩ :=
    Lib.Reach.refl.next (e := .kalloc 0) trivial (by simp [step, heq])
  have hkeeps := h onePage m _ 0 hm hreach rfl
  exact ((kallocKeeps_iff rfl).mp hkeeps).1 rfl

end Xv6.Kernel.Freelist
