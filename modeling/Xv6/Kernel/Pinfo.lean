/-
# Xv6.Kernel.Pinfo — the listing of processes (`kpinfo` of `kernel/proc.c`, `kernel/pinfo.h`).

The structure is a variable on the stack, and it is copied out as a whole.  A caller outside the root container gets the
processes of its container, in order; but of their entries `pid` and `contname`, and everything of the other entries, is
what was on the stack before.
-/
import Xv6.Kernel.Machine
import Xv6.Kernel.Resumable
import Mathlib.Data.List.FinRange

namespace Xv6.Kernel

open Vm (copyName)

/-! ## The code -/

structure Pdata where
  pid : Int
  localPid : Int
  mem : Int
  name : CharArr 16
  contname : CharArr 16

structure Pinfo where
  pdata : Fin NPROC → Pdata
  numproc : Int

/-- `p->sz` as an `int`. -/
def Proc.mem (x : Proc) : Int := Int.bmod x.sz (2 ^ 32)

/-- What both branches write of an entry for a process. -/
def Pdata.fill (e : Pdata) (x : Proc) : Pdata := { e with name := copyName x.name, mem := x.mem, localPid := x.localPid }

def Pinfo.write (info : Pinfo) (count : Nat) (f : Pdata → Pdata) : Pinfo :=
  { info with pdata := fun i => if i.val = count then f (info.pdata i) else info.pdata i }

/-- One turn of the loop of `kpinfo`, for a caller in container `me`: `psinfo` and `count`.  In the root container a
process without a container stops the machine. -/
def kpinfoSlot (s : State) (me : Cid) (x : Pinfo × Nat) (q : Slot) : Option (Pinfo × Nat) :=
  let p := s.proc q
  let next : Option (Pinfo × Nat) :=
    if (s.cont me).isroot ≠ 0 then
      if p.state = .unused then some x
      else
        p.cont.map fun c =>
          if (s.cont c).state ≠ .cunused ∧ (s.cont c).state ≠ .cstopped then
            (x.1.write x.2 fun e => { e.fill p with pid := p.pid, contname := copyName (s.cont c).name }, x.2 + 1)
          else x
    else if p.cont = some me ∧ p.state ≠ .unused then some (x.1.write x.2 fun e => e.fill p, x.2 + 1)
    else some x
  next.map fun y => ({ y.1 with numproc := y.2 }, y.2)

/-- `kpinfo(info_p)` of process `p`, with `psinfo` on the stack before: what is copied to the user, and what is returned. -/
def kpinfo (s : State) (p : Slot) (psinfo : Pinfo) : Option (Pinfo × Int) := do
  let me ← (s.proc p).cont
  let (info, _) ← (List.finRange NPROC).foldlM (kpinfoSlot s me) (psinfo, 0)
  return (info, if (s.cont me).isroot ≠ 0 then 6 else 0)

/-! ## What is listed -/

def membersOf (s : State) (c : Cid) (l : List Slot) : List Slot :=
  l.filter fun q => (s.proc q).cont = some c ∧ (s.proc q).state ≠ .unused

section Member

variable {s : State} {c : Cid} {junk : Pinfo} {x : Pinfo × Nat}

/-- After the slots `l` have been seen, with `junk` on the stack before. -/
structure Filled (s : State) (c : Cid) (junk : Pinfo) (l : List Slot) (x : Pinfo × Nat) : Prop where
  count : x.2 = (membersOf s c l).length
  numproc : l ≠ [] → x.1.numproc = x.2
  entry : ∀ i : Fin NPROC, x.1.pdata i = (membersOf s c l)[i.val]?.elim (junk.pdata i) fun q => (junk.pdata i).fill (s.proc q)

theorem Filled.slot {l : List Slot} (hroot : (s.cont c).isroot = 0) (h : Filled s c junk l x) (q : Slot) :
    ∃ y, kpinfoSlot s c x q = some y ∧ Filled s c junk (l ++ [q]) y := by
  have hmem : membersOf s c (l ++ [q]) = membersOf s c l ++ membersOf s c [q] := List.filter_append ..
  by_cases hq : (s.proc q).cont = some c ∧ (s.proc q).state ≠ .unused
  · have hone : membersOf s c [q] = [q] := List.filter_cons_of_pos (by simpa using hq)
    rw [hone] at hmem
    have hslot : kpinfoSlot s c x q =
        some ({ x.1.write x.2 fun e => e.fill (s.proc q) with numproc := (x.2 + 1 : Nat) }, x.2 + 1) := by
      simp [kpinfoSlot, hroot, hq]
    refine ⟨_, hslot, ?_, fun _ => rfl, fun i => ?_⟩
    · simp [hmem, h.count]
    · -- the entry behind the last one is written
      rw [hmem]
      show (if i.val = x.2 then _ else _) = _
      rw [h.entry i, h.count]
      obtain hlt | heq | hgt := lt_trichotomy i.val (membersOf s c l).length
      · rw [if_neg hlt.ne, List.getElem?_append_left hlt]
      · rw [if_pos heq, List.getElem?_append_right heq.ge, heq, Nat.sub_self, List.getElem?_eq_none (le_refl _)]
        rfl
      · rw [if_neg hgt.ne', List.getElem?_eq_none hgt.le, List.getElem?_eq_none]
        rw [List.length_append, List.length_singleton]
        omega
  · have hnone : membersOf s c [q] = [] := List.filter_cons_of_neg (by simpa using hq)
    rw [hnone, List.append_nil] at hmem
    have hslot : kpinfoSlot s c x q = some ({ x.1 with numproc := x.2 }, x.2) := by
      simp [kpinfoSlot, hroot, hq]
    refine ⟨_, hslot, ?_, fun _ => rfl, fun i => ?_⟩
    · rw [hmem]
      exact h.count
    · rw [hmem]
      exact h.entry i

theorem Filled.slots {done : List Slot} (h : Filled s c junk done x) (hroot : (s.cont c).isroot = 0) (l : List Slot) :
    ∃ y, l.foldlM (kpinfoSlot s c) x = some y ∧ Filled s c junk (done ++ l) y := by
  induction l generalizing done x with
  | nil => exact ⟨x, rfl, by rwa [List.append_nil]⟩
  | cons q l ih =>
    obtain ⟨y, hy, h⟩ := h.slot hroot q
    obtain ⟨z, hz, h⟩ := ih h
    refine ⟨z, ?_, by simpa using h⟩
    rw [List.foldlM_cons, hy]
    exact hz

theorem kpinfo_filled {p : Slot} (hcont : (s.proc p).cont = some c) (hroot : (s.cont c).isroot = 0) (junk : Pinfo) :
    ∃ info n, kpinfo s p junk = some (info, 0) ∧ Filled s c junk (List.finRange NPROC) (info, n) := by
  have hstart : Filled s c junk [] (junk, 0) := ⟨rfl, fun h => absurd rfl h, fun _ => rfl⟩
  obtain ⟨⟨info, n⟩, hloop, h⟩ := hstart.slots hroot (List.finRange NPROC)
  refine ⟨info, n, ?_, h⟩
  rw [kpinfo, hcont]
  show ((List.finRange NPROC).foldlM (kpinfoSlot s c) (junk, 0) >>= _) = _
  rw [hloop]
  simp [hroot]

theorem kpinfo_pid {p : Slot} (hcont : (s.proc p).cont = some c) (hroot : (s.cont c).isroot = 0) :
    ¬ ∀ junk junk', kpinfo s p junk = kpinfo s p junk' := by
  intro hall
  let junk (n : Int) : Pinfo := ⟨fun _ => ⟨n, 0, 0, fun _ => 0, fun _ => 0⟩, 0⟩
  have hpid : ∀ n info, kpinfo s p (junk n) = some (info, 0) → (info.pdata 0).pid = n := by
    intro n info hinfo
    obtain ⟨info', k, hinfo', h⟩ := kpinfo_filled hcont hroot (junk n)
    cases hinfo.symm.trans hinfo'
    rw [h.entry 0]
    cases (membersOf s c (List.finRange NPROC))[(0 : Fin NPROC).val]? <;> rfl
  obtain ⟨info, n, hinfo, -⟩ := kpinfo_filled hcont hroot (junk 0)
  have hzero := hpid 0 info hinfo
  rw [hall (junk 0) (junk 1)] at hinfo
  have hone := hpid 1 info hinfo
  omega

end Member

/-- **What a caller outside the root container gets**: the processes of its container, once each and in order, with name,
size and local pid; and, whatever the tables are, what was on the stack. -/
theorem kpinfo_lists_and_leaks (s : State) (p : Slot) (c : Cid) (hcont : (s.proc p).cont = some c)
    (hroot : (s.cont c).isroot = 0) :
    (∀ junk, ∃ info, kpinfo s p junk = some (info, 0) ∧
      info.numproc = (membersOf s c (List.finRange NPROC)).length ∧
      ∀ (i : Fin NPROC) (q : Slot), (membersOf s c (List.finRange NPROC))[i.val]? = some q →
        (info.pdata i).name = copyName (s.proc q).name ∧ (info.pdata i).mem = (s.proc q).mem ∧
          (info.pdata i).localPid = (s.proc q).localPid) ∧
    ¬ ∀ junk junk', kpinfo s p junk = kpinfo s p junk' := by
  refine ⟨fun junk => ?_, kpinfo_pid hcont hroot⟩
  obtain ⟨info, n, hinfo, h⟩ := kpinfo_filled hcont hroot junk
  refine ⟨info, hinfo, ?_, fun i q hq => ?_⟩
  · rw [h.numproc (by decide), h.count]
  · rw [h.entry i, hq]
    simp [Pdata.fill]

/-- The first process, and two more in container `1`, with the first between them. -/
def jailed : State := ((boot 100).setProc 1 { initProc with cont := some 1, localPid := 7 }).setProc 3
  { initProc with cont := some 1, localPid := 9, sz := 8192 }

theorem kpinfo_lists_jailed : ∃ info, kpinfo jailed 1 ⟨fun _ => ⟨5, 0, 0, fun _ => 0, fun _ => 0⟩, 0⟩ = some (info, 0) ∧
    info.numproc = 2 ∧ (info.pdata 0).localPid = 7 ∧ (info.pdata 1).localPid = 9 ∧ (info.pdata 1).mem = 8192 := by
  obtain ⟨hlists, -⟩ := kpinfo_lists_and_leaks jailed 1 1 rfl rfl
  obtain ⟨info, hinfo, hnum, hentry⟩ := hlists ⟨fun _ => ⟨5, 0, 0, fun _ => 0, fun _ => 0⟩, 0⟩
  have htwo : membersOf jailed 1 (List.finRange NPROC) = [1, 3] := by decide +kernel
  rw [htwo] at hnum hentry
  obtain ⟨-, hmem, hlpid⟩ := hentry 1 3 rfl
  exact ⟨info, hinfo, hnum, (hentry 0 1 rfl).2.2, hlpid, hmem.trans (by decide)⟩

theorem kpinfo_depends_on_stack : ¬ ∀ (s : State) (p : Slot) (c : Cid), (s.proc p).cont = some c → (s.cont c).isroot = 0 →
    ∀ junk junk', kpinfo s p junk = kpinfo s p junk' := by
  intro hall
  exact kpinfo_pid (s := jailed) (p := 1) (c := 1) rfl rfl (hall jailed 1 1 rfl rfl)

end Xv6.Kernel
