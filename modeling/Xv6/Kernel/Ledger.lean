/-
# Xv6.Kernel.Ledger — whose pages a container is charged for (`kalloc` and `kfree` of `kernel/kalloc.c`,
`updatecontmem` of `kernel/container.c`).

Both functions charge the container of the process that is current.  A ledger keeps, beside the state, how
many pages are out for each container whose process was current when `kalloc` returned them.  Between two
calls anything may happen to the processes and the CPUs, so a process of any container may be current.

The charge follows the pages as long as every page is freed by its own container and `kalloc` finds a page
whenever it charges for one (`OwnPages`).  A parent that reaps a child of another container breaks this.
-/
import Xv6.Kernel.Machine
import Xv6.Kernel.Charges
import Xv6.Kernel.Naming
import Xv6.Lib.Trace

namespace Xv6.Kernel.Ledger

open Function Option
open Lib (Reach)

/-! ## Runs of `kalloc` and `kfree` -/

structure Book where
  st : State
  /-- The pages that `kalloc` has returned and `kfree` has not got back, by the container that was current. -/
  out : Option Cid → Nat

inductive Event
  | kalloc (k : Fin NCPU)
  /-- `kfree` of a page that `kalloc` returned for `o`. -/
  | kfree (k : Fin NCPU) (o : Option Cid)
  /-- The processes and the CPUs go on. -/
  | others (proc : Slot → Proc) (cpus : Fin NCPU → Cpu)

def step (l : Book) : Event → Option Book
  | .kalloc k =>
    (kalloc k l.st).map fun r =>
      ⟨r.1, if r.2 = true then update l.out (l.st.mycont k) (l.out (l.st.mycont k) + 1) else l.out⟩
  | .kfree k o => if l.out o = 0 then none else (kfree k l.st).map fun st => ⟨st, update l.out o (l.out o - 1)⟩
  | .others proc cpus => some ⟨{ l.st with proc := proc, cpus := cpus }, l.out⟩

/-- A process of `c` that is charged for a page gets one, and the pages that processes of `c`
free are those that processes of `c` got. -/
def OwnPages (c : Cid) (l : Book) : Event → Prop
  | .kalloc k => l.st.mycont k = some c → 0 < l.st.kmem.free
  | .kfree k o => l.st.mycont k = some c ↔ o = some c
  | .others _ _ => True

instance (c : Cid) (l : Book) (e : Event) : Decidable (OwnPages c l e) := by
  unfold OwnPages
  split <;> infer_instance

/-- The limit of a container is not near where an `int` turns negative. -/
structure Small (x : Container) : Prop where
  isroot : x.isroot = 0
  within : x.usedMem ≤ x.maxSz
  limit : x.maxSz.toNat < 2 ^ 31

section Charge

variable {x : Container} (h : Small x)
include h

section

variable (hused : x.state ≠ .cunused)
include hused

theorem Small.updatemem_eq {d : BitVec 64} (hle : x.usedMem + d ≤ x.maxSz) :
    x.updatemem d = ({ x with usedMem := x.usedMem + d }, 1) := by
  have hlimit := h.limit
  have hsum : (x.usedMem + d).toNat < 2 ^ 31 := Nat.lt_of_le_of_lt (BitVec.le_def.mp hle) hlimit
  have hpos : ¬ ((x.usedMem + d).truncate 32).toInt < 0 := by
    rw [BitVec.toInt_eq_toNat_of_lt]
    · omega
    · rw [BitVec.truncate_eq_setWidth, BitVec.toNat_setWidth]
      omega
  unfold Container.updatemem
  rw [if_neg hused, if_neg fun hover => absurd hover.1 (BitVec.not_lt.mpr hle)]
  dsimp only
  rw [if_neg hpos]

theorem Small.updatemem_page :
    x.updatemem (BitVec.ofNat 64 PGSIZE) = (x, -1) ∨
      ∃ used, x.updatemem (BitVec.ofNat 64 PGSIZE) = ({ x with usedMem := used }, 1) ∧ used ≤ x.maxSz ∧
        used.toNat = x.usedMem.toNat + PGSIZE := by
  by_cases hle : x.usedMem + BitVec.ofNat 64 PGSIZE ≤ x.maxSz
  · refine .inr ⟨_, h.updatemem_eq hused hle, hle, ?_⟩
    have hwithin := BitVec.le_def.mp h.within
    have hlimit := h.limit
    rw [BitVec.toNat_add, BitVec.toNat_ofNat]
    unfold PGSIZE
    omega
  · refine .inl ?_
    unfold Container.updatemem
    rw [if_neg hused, if_pos ⟨BitVec.not_le.mp hle, h.isroot⟩]

theorem Small.updatemem_free (hpage : PGSIZE ≤ x.usedMem.toNat) :
    ∃ used, x.updatemem (neg64 PGSIZE) = ({ x with usedMem := used }, 1) ∧ used ≤ x.maxSz ∧
      used.toNat + PGSIZE = x.usedMem.toNat := by
  have hwithin := BitVec.le_def.mp h.within
  have hlimit := h.limit
  have hsub : (x.usedMem + neg64 PGSIZE).toNat = x.usedMem.toNat - PGSIZE := by
    unfold neg64
    rw [BitVec.toNat_add, BitVec.toNat_neg, BitVec.toNat_ofNat]
    unfold PGSIZE at hpage ⊢
    omega
  have hle : x.usedMem + neg64 PGSIZE ≤ x.maxSz := by rw [BitVec.le_def, hsub]; omega
  exact ⟨_, h.updatemem_eq hused hle, hle, by omega⟩

end

end Charge

/-! ## One call -/

section Calls

variable {c : Cid} {k : Fin NCPU} {s s' : State} {b : Bool} {d : BitVec 64}

theorem cont_climitexceedhandler_ne {d : Cid} (h : c ≠ d) : (climitexceedhandler d s).cont c = s.cont c := by
  unfold climitexceedhandler
  split
  · rfl
  · split
    · rfl
    · show update (update s.cont d _) d _ c = s.cont c
      rw [update_of_ne h, update_of_ne h]

theorem state_freecontainer : ((freecontainer c s).cont c).state = .cunused := by
  unfold freecontainer
  rw [State.setCont_cont, update_self]
  rfl

theorem cont_updatecontmem_ne {o : Option Cid} (h : o ≠ some c) : (updatecontmem d o s).1.cont c = s.cont c := by
  cases o with
  | none => rfl
  | some e => exact update_of_ne (fun heq => h (congrArg some heq.symm)) ..

theorem cont_updatecontmem_self : (updatecontmem d (some c) s).1.cont c = ((s.cont c).updatemem d).1 := update_self ..

theorem updatemem_unused {x : Container} (h : x.state = .cunused) (d : BitVec 64) : x.updatemem d = (x, 0) := if_pos h

theorem kalloc_own (hsmall : Small (s.cont c)) (hused : (s.cont c).state ≠ .cunused) (hmine : s.mycont k = some c)
    (hrun : kalloc k s = some (s', b)) :
    (s'.cont c).state = .cunused ∨ (b = decide (0 < s.kmem.free) ∧ ∃ used, s'.cont c = { s.cont c with usedMem := used } ∧
      used ≤ (s.cont c).maxSz ∧ used.toNat = (s.cont c).usedMem.toNat + PGSIZE) := by
  have hcont : (takePage s).cont = s.cont := rfl
  have hcharge : (updatecontmem (BitVec.ofNat 64 PGSIZE) (some c) (takePage s)).2 =
      ((s.cont c).updatemem (BitVec.ofNat 64 PGSIZE)).2 := rfl
  unfold kalloc at hrun
  split at hrun
  · cases hrun
  dsimp only at hrun
  rw [hmine, hcharge] at hrun
  obtain hrefused | ⟨used, hok, hle, hnat⟩ := hsmall.updatemem_page hused
  · rw [hrefused, if_pos (by decide : (-1 : Int) < 0)] at hrun
    cases hrun
    refine .inl ?_
    have hsame : (updatecontmem (BitVec.ofNat 64 PGSIZE) (some c) (takePage s)).1.cont c = s.cont c := by
      rw [cont_updatecontmem_self, hcont, hrefused]
    unfold climitexceedhandler
    rw [hsame, if_neg (not_not.mpr hsmall.isroot), if_neg hused]
    exact state_freecontainer
  · rw [hok, if_neg (Int.not_lt.mpr Int.one_nonneg)] at hrun
    cases hrun
    refine .inr ⟨rfl, used, ?_, hle, hnat⟩
    rw [cont_updatecontmem_self, hcont, hok]

theorem kalloc_other (hmine : s.mycont k ≠ some c) (hrun : kalloc k s = some (s', b)) : s'.cont c = s.cont c := by
  have hcont : (updatecontmem (BitVec.ofNat 64 PGSIZE) (s.mycont k) (takePage s)).1.cont c = s.cont c :=
    cont_updatecontmem_ne hmine
  unfold kalloc at hrun
  split at hrun
  · cases hrun
  dsimp only at hrun
  split at hrun
  · split at hrun
    · cases hrun
      exact hcont
    · rename_i d hd
      cases hrun
      rw [cont_climitexceedhandler_ne fun heq => hmine (hd.trans (congrArg some heq.symm))]
      exact hcont
  · cases hrun
    exact hcont

theorem kalloc_gone (hgone : (s.cont c).state = .cunused) (hrun : kalloc k s = some (s', b)) : s'.cont c = s.cont c := by
  by_cases hmine : s.mycont k = some c
  · have hcharge : (updatecontmem (BitVec.ofNat 64 PGSIZE) (some c) (takePage s)).2 =
        ((s.cont c).updatemem (BitVec.ofNat 64 PGSIZE)).2 := rfl
    unfold kalloc at hrun
    split at hrun
    · cases hrun
    dsimp only at hrun
    rw [hmine, hcharge, updatemem_unused hgone, if_neg (Int.lt_irrefl 0)] at hrun
    cases hrun
    rw [cont_updatecontmem_self]
    exact congrArg Prod.fst (updatemem_unused hgone _)
  · exact kalloc_other hmine hrun

theorem kfree_eq (hrun : kfree k s = some s') : s' = (updatecontmem (neg64 PGSIZE) (s.mycont k) (putPage s)).1 := by
  unfold kfree at hrun
  split at hrun
  · cases hrun
  · exact (some.inj hrun).symm

theorem kfree_own (hsmall : Small (s.cont c)) (hused : (s.cont c).state ≠ .cunused) (hpage : PGSIZE ≤ (s.cont c).usedMem.toNat)
    (hmine : s.mycont k = some c) (hrun : kfree k s = some s') :
    ∃ used, s'.cont c = { s.cont c with usedMem := used } ∧ used ≤ (s.cont c).maxSz ∧
      used.toNat + PGSIZE = (s.cont c).usedMem.toNat := by
  have hcont : (putPage s).cont = s.cont := rfl
  obtain ⟨used, hok, hle, hnat⟩ := hsmall.updatemem_free hused hpage
  refine ⟨used, ?_, hle, hnat⟩
  rw [kfree_eq hrun, hmine, cont_updatecontmem_self, hcont, hok]

theorem kfree_other (hmine : s.mycont k ≠ some c) (hrun : kfree k s = some s') : s'.cont c = s.cont c := by
  rw [kfree_eq hrun]
  exact cont_updatecontmem_ne hmine

theorem kfree_gone (hgone : (s.cont c).state = .cunused) (hrun : kfree k s = some s') : s'.cont c = s.cont c := by
  by_cases hmine : s.mycont k = some c
  · rw [kfree_eq hrun, hmine, cont_updatecontmem_self]
    exact congrArg Prod.fst (updatemem_unused hgone _)
  · exact kfree_other hmine hrun

end Calls

/-! ## Steps -/

/-- The charge of `c` above `base` is for the pages that it has out. -/
def Charged (c : Cid) (base : Nat) (l : Book) : Prop :=
  (l.st.cont c).usedMem.toNat = base + PGSIZE * l.out (some c)

/-- Either `c` is gone, or it runs and the charge follows. -/
def Inv (c : Cid) (base : Nat) (l : Book) : Prop :=
  (l.st.cont c).state = .cunused ∨ ((l.st.cont c).state = .crunnable ∧ Small (l.st.cont c) ∧ Charged c base l)

section Steps

variable {c : Cid} {base : Nat} {l l' : Book} {k : Fin NCPU} {e : Event}

section

variable (h : Inv c base l)
include h

theorem Inv.keep (hcont : l'.st.cont c = l.st.cont c) (hout : l'.out (some c) = l.out (some c)) : Inv c base l' := by
  unfold Inv Charged
  rw [hcont, hout]
  exact h

theorem Inv.kalloc (hown : OwnPages c l (.kalloc k)) (hs : step l (.kalloc k) = some l') : Inv c base l' := by
  dsimp only [step] at hs
  obtain ⟨⟨st, b⟩, hrun, rfl⟩ := map_eq_some_iff.mp hs
  obtain hgone | ⟨hrunnable, hsmall, hcharged⟩ := h
  · refine .inl ?_
    rw [kalloc_gone hgone hrun]
    exact hgone
  by_cases hmine : l.st.mycont k = some c
  · have hused : (l.st.cont c).state ≠ .cunused := by
      rw [hrunnable]
      decide
    obtain hgone | ⟨rfl, used, hst, hle, hnat⟩ := kalloc_own hsmall hused hmine hrun
    · exact .inl hgone
    unfold Charged at hcharged
    refine .inr ?_
    unfold Charged
    dsimp only
    rw [hst, decide_eq_true (hown hmine), if_pos rfl, hmine, update_self]
    refine ⟨hrunnable, ⟨hsmall.isroot, hle, hsmall.limit⟩, ?_⟩
    dsimp only
    rw [hnat, hcharged, Nat.mul_add, Nat.mul_one, Nat.add_assoc]
  · refine Inv.keep (.inr ⟨hrunnable, hsmall, hcharged⟩) (kalloc_other hmine hrun) ?_
    dsimp only
    split
    · exact update_of_ne (Ne.symm hmine) ..
    · rfl

theorem Inv.kfree {o : Option Cid} (hown : OwnPages c l (.kfree k o)) (hs : step l (.kfree k o) = some l') :
    Inv c base l' := by
  dsimp only [step] at hs
  split at hs
  · cases hs
  rename_i hpos
  obtain ⟨st, hrun, rfl⟩ := map_eq_some_iff.mp hs
  obtain hgone | ⟨hrunnable, hsmall, hcharged⟩ := h
  · refine .inl ?_
    rw [kfree_gone hgone hrun]
    exact hgone
  by_cases hmine : l.st.mycont k = some c
  · have ho : o = some c := hown.mp hmine
    subst ho
    have hused : (l.st.cont c).state ≠ .cunused := by rw [hrunnable]; decide
    unfold Charged at hcharged
    have hpage : PGSIZE ≤ (l.st.cont c).usedMem.toNat := by
      rw [hcharged]
      unfold PGSIZE
      omega
    obtain ⟨used, hst, hle, hnat⟩ := kfree_own hsmall hused hpage hmine hrun
    refine .inr ?_
    unfold Charged
    dsimp only
    rw [hst, update_self]
    refine ⟨hrunnable, ⟨hsmall.isroot, hle, hsmall.limit⟩, ?_⟩
    dsimp only
    unfold PGSIZE at hnat hcharged ⊢
    omega
  · have ho : o ≠ some c := fun ho => hmine (hown.mpr ho)
    exact Inv.keep (.inr ⟨hrunnable, hsmall, hcharged⟩) (kfree_other hmine hrun) (update_of_ne (Ne.symm ho) ..)

theorem Inv.step (hown : OwnPages c l e) (hs : step l e = some l') : Inv c base l' := by
  cases e with
  | kalloc k => exact h.kalloc hown hs
  | kfree k o => exact h.kfree hown hs
  | others proc cpus =>
    cases hs
    exact h.keep rfl rfl

end

theorem ownPages_of_charged (hrunnable : (l.st.cont c).state = .crunnable) (hsmall : Small (l.st.cont c))
    (hcharged : Charged c base l) (hbase : PGSIZE ≤ base) (hs : step l e = some l')
    (hruns : (l'.st.cont c).state = .crunnable) (hcharged' : Charged c base l') : OwnPages c l e := by
  have hused : (l.st.cont c).state ≠ .cunused := by rw [hrunnable]; decide
  unfold Charged at hcharged hcharged'
  cases e with
  | kalloc k =>
    intro hmine
    by_contra hempty
    dsimp only [step] at hs
    obtain ⟨⟨st, b⟩, hrun, rfl⟩ := map_eq_some_iff.mp hs
    obtain hgone | ⟨rfl, used, hst, -, hnat⟩ := kalloc_own hsmall hused hmine hrun
    · rw [hgone] at hruns
      cases hruns
    dsimp only at hcharged'
    rw [hst, decide_eq_false hempty, if_neg Bool.false_ne_true] at hcharged'
    dsimp only at hcharged'
    unfold PGSIZE at hnat hcharged hcharged'
    omega
  | kfree k o =>
    dsimp only [step] at hs
    split at hs
    · cases hs
    rename_i hpos
    obtain ⟨st, hrun, rfl⟩ := map_eq_some_iff.mp hs
    dsimp only at hcharged'
    constructor
    · intro hmine
      by_contra ho
      obtain ⟨used, hst, -, hnat⟩ := kfree_own hsmall hused (by omega) hmine hrun
      rw [hst, update_of_ne (Ne.symm ho)] at hcharged'
      dsimp only at hcharged'
      unfold PGSIZE at hnat hcharged hcharged'
      omega
    · rintro rfl
      by_contra hmine
      rw [kfree_other hmine hrun, update_self] at hcharged'
      unfold PGSIZE at hcharged hcharged'
      omega
  | others proc cpus => exact trivial

end Steps

/-! ## After `kcstart` -/

section Start

variable {x : Container}

theorem Small.updatemem (h : Small x) (d : BitVec 64) : Small (x.updatemem d).1 := by
  unfold Container.updatemem
  split
  · exact h
  split
  · exact h
  rename_i hkept
  refine ⟨h.isroot, ?_, h.limit⟩
  dsimp only
  split
  · exact BitVec.le_def.mpr (Nat.zero_le _)
  · exact BitVec.not_lt.mp fun hover => hkept ⟨hover, h.isroot⟩

theorem Small.updatedsk (h : Small x) (d : BitVec 64) : Small (x.updatedsk d).1 := by
  unfold Container.updatedsk
  split
  · exact h
  · split
    · exact h
    · exact ⟨h.isroot, h.within, h.limit⟩

theorem Small.lift {f : Container → Container × Int} (hf : ∀ x, Small x → Small (f x).1) {c : Cid} {s : State}
    (h : Small (s.cont c)) (o : Option Cid) : Small ((liftCont f o s).1.cont c) := by
  cases o with
  | none => exact h
  | some d =>
    revert h
    show Small (s.cont c) → Small (update s.cont d _ c)
    exact Lib.update_cases (hf _) (fun _ _ => id) c

/-- **What `kccreate` makes** is small: its limit is `MAX_CMEM / NCONT`, and nothing is charged. -/
theorem kccreate_small {name : CStr} {dir : Option Ino} {s s' : State} (h : kccreate name dir s = (s', 1)) :
    ∃ c, freeCid s = some c ∧ Small (s'.cont c) := by
  rw [kccreate_eq] at h
  split at h
  · cases h
  · cases h
  rename_i c _ hfree
  split at h
  · split at h
    · cases h
    cases h
    refine ⟨c, hfree, ?_⟩
    rw [State.setCont_cont, update_self]
    exact ⟨rfl, BitVec.le_def.mpr (Nat.zero_le _), show (BitVec.ofNat 64 (MAX_CMEM / NCONT)).toNat < 2 ^ 31 by decide⟩
  · cases h

/-- **`kcstart` leaves a container that runs.** -/
theorem kcstart_small {name vcname : CStr} {disksize : BitVec 64} {s s' : State} {c : Cid} (h : Small (s.cont c))
    (hname : name2cont name s = some c) (hs : kcstart name vcname disksize s = (s', 1)) :
    (s'.cont c).state = .crunnable ∧ Small (s'.cont c) := by
  unfold kcstart at hs
  split at hs
  · cases hs
  rw [hname] at hs
  dsimp only at hs
  split at hs
  · cases hs
  cases hs
  have h1 := h.lift (fun x hx => hx.updatedsk disksize) (some c)
  have h2 := h1.lift (fun x hx => hx.updatemem (BitVec.ofNat 64 (40 * 1024))) (some c)
  have h3 := h2.lift (fun x hx => hx.updatemem (neg64 (40 * 1024)))
    (cid2cont 0 (updatecontmem (BitVec.ofNat 64 (40 * 1024)) (some c) (updatecontdsk disksize (some c) s).1).1)
  simp only [resetticksforcontainers, State.setCont_cont, update_self]
  exact ⟨trivial, h3.isroot, h3.within, h3.limit⟩

end Start

/-- **The charge follows the pages** of a container that runs, in every run in which its processes free the pages that they
got and `kalloc` has a page for them; and the first call that is not like that ends it. -/
theorem usedMem_eq_iff_ownPages {name vcname : CStr} {disksize : BitVec 64} {s0 s1 : State} {c : Cid}
    {out : Option Cid → Nat} (hnew : Small (s0.cont c)) (hname : name2cont name s0 = some c)
    (hstart : kcstart name vcname disksize s0 = (s1, 1)) (hout : out (some c) = 0)
    {l : Book} (hr : Reach step (OwnPages c) ⟨s1, out⟩ l) (hruns : (l.st.cont c).state = .crunnable) :
    (l.st.cont c).usedMem.toNat = (s1.cont c).usedMem.toNat + PGSIZE * l.out (some c) ∧
      ∀ e l', step l e = some l' → (l'.st.cont c).state = .crunnable → PGSIZE ≤ (s1.cont c).usedMem.toNat →
        ((l'.st.cont c).usedMem.toNat = (s1.cont c).usedMem.toNat + PGSIZE * l'.out (some c) ↔ OwnPages c l e) := by
  obtain ⟨hstate, hsmall⟩ := kcstart_small hnew hname hstart
  have hbegin : Inv c (s1.cont c).usedMem.toNat ⟨s1, out⟩ := by
    refine .inr ⟨hstate, hsmall, ?_⟩
    show _ = _ + PGSIZE * out (some c)
    rw [hout]
    rfl
  have h := Reach.invariant hbegin (fun _ _ _ hi hown hs => hi.step hown hs) hr
  have hcharged : ∀ {l : Book}, Inv c (s1.cont c).usedMem.toNat l → (l.st.cont c).state = .crunnable →
      Small (l.st.cont c) ∧ Charged c (s1.cont c).usedMem.toNat l := by
    intro l hl hruns
    obtain hgone | ⟨-, hf⟩ := hl
    · rw [hgone] at hruns
      cases hruns
    · exact hf
  refine ⟨(hcharged h hruns).2, fun e l' hs hruns' hbase => ⟨fun hc => ?_, fun hown => (hcharged (h.step hown hs) hruns').2⟩⟩
  exact ownPages_of_charged hruns (hcharged h hruns).1 (hcharged h hruns).2 hbase hs hruns' hc

/-! ## A container with one process -/

def jail : CStr := .ofBytes [106] rfl

def console : CStr := .ofBytes [116, 116, 121] rfl

/-- Before `kcstart`, and after. -/
def jailCreated : State := (kccreate jail (some 1) (boot 100)).1

def jailStarted : State := (kcstart jail console 0 jailCreated).1

theorem jail_starts : kcstart jail console 0 jailCreated = (jailStarted, 1) := Prod.ext rfl (by decide)

def runAs (c : Cid) : Event := .others (fun _ => { Proc.zero with cont := some c }) fun _ => ⟨0, .run 0 c 0⟩

/-- The process takes two pages and frees one. -/
theorem usedMem_eq_iff_ownPages_jail : ∃ l, Reach step (OwnPages 1) ⟨jailStarted, fun _ => 0⟩ l ∧ l.out (some 1) = 1 ∧
    (l.st.cont 1).usedMem.toNat = (jailStarted.cont 1).usedMem.toNat + PGSIZE := by
  obtain ⟨l, hl, hp⟩ := Reach.of_any step (OwnPages 1) ⟨jailStarted, fun _ => 0⟩ [runAs 1, .kalloc 0, .kalloc 0, .kfree 0 (some 1)]
    (fun l => decide (l.out (some 1) = 1 ∧ (l.st.cont 1).state = .crunnable)) (by decide)
  obtain ⟨hout, hruns⟩ := of_decide_eq_true hp
  obtain ⟨c, hfree, hnew⟩ := kccreate_small (show kccreate jail (some 1) (boot 100) = (jailCreated, 1) from Prod.ext rfl rfl)
  cases hfree.symm.trans (show freeCid (boot 100) = some 1 by decide)
  have hcharged := (usedMem_eq_iff_ownPages hnew (by decide) jail_starts rfl hl hruns).1
  rw [hout] at hcharged
  exact ⟨l, hl, hout, hcharged⟩

/-- A page that a process of the root container frees stays charged to the container that got it: so it is with
every page of a process that `init` reaps. -/
theorem usedMem_drifts : kcstart jail console 0 jailCreated = (jailStarted, 1) ∧ name2cont jail jailCreated = some 1 ∧
    ∃ l, Reach step (fun _ _ => True) ⟨jailStarted, fun _ => 0⟩ l ∧ (l.st.cont 1).state = .crunnable ∧ (l.st.cont 1).isroot = 0 ∧
      (l.st.cont 1).usedMem.toNat ≠ (jailStarted.cont 1).usedMem.toNat + PGSIZE * l.out (some 1) := by
  obtain ⟨l, hl, hp⟩ := Reach.of_any step (fun _ _ => True) ⟨jailStarted, fun _ => 0⟩
    [runAs 1, .kalloc 0, runAs 0, .kfree 0 (some 1)]
    (fun l => decide ((l.st.cont 1).state = .crunnable ∧ (l.st.cont 1).isroot = 0 ∧
      (l.st.cont 1).usedMem.toNat ≠ (jailStarted.cont 1).usedMem.toNat + PGSIZE * l.out (some 1))) (by decide +kernel)
  exact ⟨jail_starts, by decide +kernel, l, hl, of_decide_eq_true hp⟩

end Xv6.Kernel.Ledger
