/-
# Xv6.Kernel.Resume — the way back from `resume` (`sys_resume` of `kernel/sysfile.c`, `syscall` of
`kernel/syscall.c`, `usertrapret` of `kernel/trap.c`, `userret` of `kernel/trampoline.S`), and what a file can do to the
process that resumes it (`kresume` of `kernel/proc.c`).

The registers that `kresume` reads are the trapframe of the system call it is part of.  The call then stores its result
there, so that a process comes back with `0` in `a0`.  They are read before anything else is checked, so that a call that
fails leaves them behind.
-/
import Xv6.Kernel.RoundTrip

namespace Xv6.Kernel.Vm

open Function

/-! ## The way back -/

abbrev Word := Fin 8 → Byte

/-- Field `k` of `struct trapframe`; every field is a `uint64`. -/
def field (tf : Fin 288 → Byte) (k : Fin 36) : Word := fun j => tf ⟨8 * k + j, by omega⟩

def setField (tf : Fin 288 → Byte) (k : Fin 36) (w : Word) : Fin 288 → Byte :=
  fun i => if i.val / 8 = k then w ⟨i.val % 8, by omega⟩ else tf i

/-- `epc`, and the place of `a0`. -/
abbrev EPC : Fin 36 := 3
abbrev A0 : Fin 36 := 14

/-- What `usertrapret` finds: the kernel's page table, the stack of the process, `usertrap` and the number of the CPU. -/
structure Hart where
  satp : Word
  sp : Word
  trap : Word
  hartid : Word

/-- `usertrapret()`: the trapframe that `userret` is called with. -/
def usertrapret (h : Hart) (tf : Fin 288 → Byte) : Fin 288 → Byte :=
  setField (setField (setField (setField tf 0 h.satp) 1 h.sp) 2 h.trap) 4 h.hartid

/-- What `userret` loads: the program counter, and `ra` to `t6`. -/
def userret (tf : Fin 288 → Byte) : Word × (Fin 31 → Word) := (field tf EPC, fun r => field tf ⟨r + 5, by omega⟩)

/-- `resume` of a file with the bytes `data`, by process `p`: `sys_resume` returns `0`, `syscall` stores it in `a0`. -/
def resume (h : Hart) (mem : Room) (tables : Bool) (data : List Byte) (p : UProc) : Ended (Word × (Fin 31 → Word)) :=
  match kresume mem tables data p with
  | .panic => .panic
  | .failed => .failed
  | .ok q => .ok (userret (usertrapret h (setField q.tf A0 fun _ => 0)))

theorem field_setField (tf : Fin 288 → Byte) (k k' : Fin 36) (w : Word) :
    field (setField tf k w) k' = if k' = k then w else field tf k' := by
  funext j
  have hdiv : (8 * k'.val + j.val) / 8 = k'.val := by omega
  have hmod : (8 * k'.val + j.val) % 8 = j.val := by omega
  simp only [field, setField, hdiv, hmod, Fin.val_inj]
  split <;> rfl

theorem userret_return (h : Hart) (tf : Fin 288 → Byte) (w : Word) :
    userret (usertrapret h (setField tf A0 w)) = userret tf ↔ w = field tf A0 := by
  have hr : ∀ r : Fin 31, (⟨r + 5, by omega⟩ : Fin 36) ≠ 0 ∧ (⟨r + 5, by omega⟩ : Fin 36) ≠ 1 ∧
      (⟨r + 5, by omega⟩ : Fin 36) ≠ 2 ∧ (⟨r + 5, by omega⟩ : Fin 36) ≠ 4 := by decide
  simp only [userret, usertrapret, field_setField, hr, if_false, Prod.mk.injEq, funext_iff (β := fun _ : Fin 31 => Word)]
  constructor
  · rintro ⟨-, hregs⟩
    exact hregs 9
  · rintro rfl
    refine ⟨rfl, fun r => ?_⟩
    split
    · rename_i heq
      rw [heq]
    · rfl

theorem resumed_eq {procs procs' : Slot → UProc} {pid : Int} {s : Slot} {f : File} {h : Hart} {mem : Room} {tables : Bool}
    {q : UProc} {regs : Word × (Fin 31 → Word)} (hfind : Fin.find? (fun q => (procs q).pid == pid) = some s)
    (hsuspend : ksuspend procs pid ⟨true, 0, []⟩ = (1, procs', f)) (hresume : resume h mem tables f.data q = .ok regs) :
    regs = userret (usertrapret h (setField (procs s).tf A0 fun _ => 0)) := by
  unfold ksuspend at hsuspend
  rw [hfind] at hsuspend
  cases hsuspend
  unfold resume at hresume
  split at hresume
  · cases hresume
  · cases hresume
  rename_i q' hrun
  obtain ⟨-, sz, pt, -, rfl⟩ := (kresume_eq_ok (writeImage_front (procs s)).1).mp hrun
  cases hresume
  rfl

/-- **The registers after suspend and resume** are those that were saved exactly when the `a0` that was saved is `0`. -/
theorem resumed_registers_iff {procs procs' : Slot → UProc} {pid : Int} {s : Slot} {f : File}
    (hfind : Fin.find? (fun q => (procs q).pid == pid) = some s)
    (hsuspend : ksuspend procs pid ⟨true, 0, []⟩ = (1, procs', f)) (h : Hart) (mem : Room) (tables : Bool) (q : UProc)
    {regs : Word × (Fin 31 → Word)} (hresume : resume h mem tables f.data q = .ok regs) :
    regs = userret (procs s).tf ↔ field (procs s).tf A0 = fun _ => 0 := by
  rw [resumed_eq hfind hsuspend hresume, userret_return, eq_comm]

theorem resume_onePage (tf : Fin 288 → Byte) (h : Hart) : ∃ (procs procs' : Slot → UProc) (f : File) (regs : Word × (Fin 31 → Word)),
    Fin.find? (fun q => (procs q).pid == 1) = some 0 ∧ ksuspend procs 1 ⟨true, 0, []⟩ = (1, procs', f) ∧
    (procs 0).tf = tf ∧ resume h allPages true f.data blankProc = .ok regs := by
  obtain ⟨p, hexec, hpid, hwhole, hsz⟩ := exec_onePage
  have hfind : Fin.find? (fun _ : Slot => p.pid == 1) = some 0 :=
    Fin.find?_eq_some_iff.mpr ⟨by rw [hpid]; decide, fun j hj => absurd hj (Fin.not_lt_zero j)⟩
  have hmem : p.sz / PGSIZE ≤ NPAGES := by rw [hsz]; decide
  have hlaid := exec_laid (le_refl _) hexec
  obtain ⟨q', hrun, -⟩ := Whole.restored (p := { p with tf := tf }) ⟨hwhole.1, hwhole.2, hwhole.3, hwhole.4⟩
    hlaid (le_refl allPages.limit) hmem blankProc
  have hsuspend : ksuspend (fun _ => { p with tf := tf }) 1 ⟨true, 0, []⟩ =
      (1, update (fun _ => { p with tf := tf }) 0 { p with tf := tf, state := .suspended },
        writeImage { p with tf := tf } ⟨true, 0, []⟩) := by
    unfold ksuspend
    rw [hfind]
  have hresume : resume h allPages true (writeImage { p with tf := tf } ⟨true, 0, []⟩).data blankProc =
      .ok (userret (usertrapret h (setField q'.tf A0 fun _ => 0))) := by
    rw [resume, hrun]
  exact ⟨fun _ => { p with tf := tf }, _, _, _, hfind, hsuspend, rfl, hresume⟩

def zeroHart : Hart := ⟨fun _ => 0, fun _ => 0, fun _ => 0, fun _ => 0⟩

/-- Among the registers only `a0` is `0`. -/
theorem resumed_registers_a0 : ∃ (procs procs' : Slot → UProc) (f : File) (regs : Word × (Fin 31 → Word)),
    ksuspend procs 1 ⟨true, 0, []⟩ = (1, procs', f) ∧ resume zeroHart allPages true f.data blankProc = .ok regs ∧
    regs = userret (procs 0).tf ∧ ∀ k, k ≠ A0 → field (procs 0).tf k = fun _ => 1 := by
  obtain ⟨procs, procs', f, regs, hfind, hsuspend, htf, hresume⟩ :=
    resume_onePage (setField (fun _ => 1) A0 fun _ => 0) zeroHart
  refine ⟨procs, procs', f, regs, hsuspend, hresume, ?_, fun k hk => ?_⟩
  · apply (resumed_registers_iff hfind hsuspend zeroHart allPages true blankProc hresume).mpr
    rw [htf, field_setField, if_pos rfl]
  · rw [htf, field_setField, if_neg hk]
    rfl

/-- The bytes of all registers are `1`; `a0` comes back as `0`. -/
theorem resumed_registers_lost : ∃ (procs procs' : Slot → UProc) (f : File) (regs : Word × (Fin 31 → Word)),
    ksuspend procs 1 ⟨true, 0, []⟩ = (1, procs', f) ∧ resume zeroHart allPages true f.data blankProc = .ok regs ∧
    regs ≠ userret (procs 0).tf := by
  obtain ⟨procs, procs', f, regs, hfind, hsuspend, htf, hresume⟩ := resume_onePage (fun _ => 1) zeroHart
  refine ⟨procs, procs', f, regs, hsuspend, hresume, fun heq => ?_⟩
  rw [resumed_eq hfind hsuspend hresume, htf, userret_return] at heq
  exact absurd (congrFun heq 0) (by decide)

/-! ## What a file can do -/

/-- The number of bytes of code that the header of a file speaks of, as a `uint64`. -/
def codeBytes (data : List Byte) : Nat := ((ResumeHdr.ofBytes (data.take 32)).codeSz.signExtend 64).toNat

def readRegs (data : List Byte) (p : UProc) : UProc :=
  { p with tf := fun i => ((data.drop 32).take 288).getD i (p.tf i) }

theorem readRegs_eq_self {data : List Byte} {p : UProc} :
    readRegs data p = p ↔ ∀ i : Fin 288, ∀ b, data[32 + i.val]? = some b → b = p.tf i := by
  have hget : ∀ i : Fin 288, ((data.drop 32).take 288).getD i (p.tf i) = data[32 + i.val]?.getD (p.tf i) := by
    intro i
    rw [List.getD_eq_getElem?_getD, List.getElem?_take_of_lt i.isLt, List.getElem?_drop]
  constructor
  · intro heq i b hb
    have hi : ((data.drop 32).take 288).getD i (p.tf i) = p.tf i := congrFun (congrArg UProc.tf heq) i
    rwa [hget, hb] at hi
  · intro hall
    have heq : (fun i : Fin 288 => ((data.drop 32).take 288).getD i (p.tf i)) = p.tf := by
      funext i
      rw [hget]
      cases hb : data[32 + i.val]? with
      | none => rfl
      | some b => exact hall i b hb
    rw [readRegs, heq]

theorem kresumeFile_short {mem : Room} {data : List Byte} {p : UProc} (hhdr : 32 ≤ data.length) (hshort : data.length < 320) :
    kresumeFile mem data p = some (-1, readRegs data p) := by
  unfold kresumeFile
  rw [readi_eq (Nat.zero_le _), readi_eq hhdr]
  dsimp only
  rw [if_neg (by rw [List.drop_zero, List.length_take]; omega), if_pos (by rw [List.length_take, List.length_drop]; omega)]
  rfl

theorem unchanged_iff {p p' : UProc} : (∃ rv q, some ((-1 : Int), p') = some (rv, q) ∧ (rv = -1 → q = p)) ↔ p' = p := by
  constructor
  · rintro ⟨rv, q, heq, hq⟩
    cases heq
    exact hq rfl
  · intro heq
    exact ⟨-1, p', rfl, fun _ => heq⟩

/-- **When `kresume` tolerates a file**: it has no header; or it does not stop the machine, the free list does not run empty
where pages are given back, and it is complete or has the registers that the caller has. -/
theorem resume_tolerates_iff {p0 p : UProc} (hreach : Reached p0 p) (mem : Room) (hlimit : mem.limit ≤ NPAGES) (data : List Byte) :
    (∃ rv q, kresumeFile mem data p = some (rv, q) ∧ (rv = -1 → q = p)) ↔
      data.length < 32 ∨ ¬ (Misaligned mem (codeBytes data) data.length ∨ Starved mem (codeBytes data) data.length) ∧
        (Complete mem (codeBytes data) data.length ∨ ∀ i : Fin 288, ∀ b, data[32 + i.val]? = some b → b = p.tf i) := by
  rw [← readRegs_eq_self]
  by_cases hshort : data.length < 32
  · refine iff_of_true ⟨-1, p, ?_, fun _ => rfl⟩ (.inl hshort)
    unfold kresumeFile
    rw [readi_eq (Nat.zero_le _), if_pos (by dsimp only; rw [List.drop_zero, List.length_take]; omega)]
  by_cases hregs : data.length < 320
  · have hmis : ¬ (Misaligned mem (codeBytes data) data.length ∨ Starved mem (codeBytes data) data.length) := by
      rintro (h | h)
      · have hlong := h.2.1
        omega
      · exact hregs.not_ge h.1
    have hcomp : ¬ Complete mem (codeBytes data) data.length := fun h => by unfold Complete at h; omega
    rw [kresumeFile_short (by omega) hregs, unchanged_iff]
    simp only [hshort, hmis, hcomp, not_false_eq_true, true_and, false_or]
  unfold kresumeFile
  rw [readi_eq (Nat.zero_le _), readi_eq (by omega), List.drop_zero]
  dsimp only
  rw [if_neg (by rw [List.length_take]; omega), if_neg (by rw [List.length_take, List.length_drop]; omega)]
  have houtcome := loadImage_outcome (Nat.not_lt.mp hregs) hlimit (ResumeHdr.ofBytes (data.take 32)).codeSz rfl
  rw [← codeBytes] at houtcome
  obtain ⟨hrun, hmis⟩ | ⟨⟨pt, hrun, -⟩, hcomp⟩ | ⟨hrun, hmis, hcomp, sz, pt, hfailed, hfree⟩ := houtcome
  · rw [hrun]
    refine iff_of_false (fun h => ?_) fun h => ?_
    · obtain ⟨rv, q, h, -⟩ := h
      cases h
    · exact h.elim hshort fun h => h.1 hmis
  · rw [hrun]
    dsimp only
    rw [procFreepagetable_ok hreach.laid.mapped]
    refine iff_of_true ⟨0, _, rfl, fun h => absurd h (by decide)⟩ (.inr ⟨?_, .inl hcomp⟩)
    rintro (h | h)
    · exact h.1 hcomp.2.1
    · exact hcomp.not_starved h
  · rw [hrun]
    dsimp only
    rw [hfailed, Option.bind_eq_bind, Option.bind_some, hfree]
    show (∃ rv q, some (-1, readRegs data p) = some (rv, q) ∧ _) ↔ _
    rw [unchanged_iff]
    simp only [hshort, hmis, hcomp, not_false_eq_true, true_and, false_or]

/-- A file with a page of code, a page of stack and a new value for every register. -/
def onePageFile : List Byte := [0, 48, 0, 0, 0, 16, 0, 0, 0, 16, 0, 0] ++ List.replicate 20 0 ++ List.replicate 8480 7

/-- It is resumed; and when the free list is empty at the first page, the file of which only the header and the registers of
the caller are there is refused, without a panic. -/
theorem resume_tolerates_onePage : ∃ p0 p, Reached p0 p ∧
    (∃ rv q, kresumeFile allPages onePageFile p = some (rv, q) ∧ (rv = -1 → q = p)) ∧
    ∃ rv q, kresumeFile ⟨0, .page⟩ (onePageFile.take 32 ++ List.ofFn p.tf) p = some (rv, q) ∧ (rv = -1 → q = p) := by
  obtain ⟨p, hexec, -⟩ := exec_onePage
  have hreach : Reached p p := ⟨⟨_, _, _, _, _, _, le_refl _, hexec⟩, .refl⟩
  have hlen : onePageFile.length = 8512 := by
    unfold onePageFile
    rw [List.length_append, List.length_append, List.length_replicate, List.length_replicate]
    rfl
  have hcode : codeBytes onePageFile = 4096 := by decide +kernel
  refine ⟨p, p, hreach, ?_, ?_⟩
  · apply (resume_tolerates_iff hreach allPages (le_refl _) onePageFile).mpr
    have hcomplete : Complete allPages (codeBytes onePageFile) onePageFile.length := by
      rw [hcode, hlen]
      exact ⟨by decide, by decide, by decide, by decide⟩
    refine .inr ⟨?_, .inl hcomplete⟩
    rintro (h | h)
    · exact h.1 hcomplete.2.1
    · exact hcomplete.not_starved h
  · apply (resume_tolerates_iff hreach ⟨0, .page⟩ (Nat.zero_le _) _).mpr
    refine .inr ⟨?_, .inr fun i b hb => ?_⟩
    · rintro (h | ⟨-, h | ⟨-, -, -, h⟩⟩)
      · exact absurd h.2.2 (Nat.not_succ_le_zero _)
      · exact absurd h.1 (Nat.not_lt_zero _)
      · exact absurd h.1 (Nat.not_lt_zero _)
    · have htake : (onePageFile.take 32).length = 32 := by
        rw [List.length_take, hlen]
        rfl
      rw [List.getElem?_append_right (by omega), htake, Nat.add_sub_cancel_left,
        List.getElem?_eq_getElem (by rw [List.length_ofFn]; exact i.isLt), List.getElem_ofFn] at hb
      exact (Option.some.inj hb).symm

/-- A file of 33 bytes, the last one not what the caller's trapframe begins with: `kresume` fails, and the trapframe begins
with this byte. -/
theorem resume_not_tolerant : ∃ p0 p data, Reached p0 p ∧
    ¬ ∃ rv q, kresumeFile allPages data p = some (rv, q) ∧ (rv = -1 → q = p) := by
  obtain ⟨p, hexec, -⟩ := exec_onePage
  have hreach : Reached p p := ⟨⟨_, _, _, _, _, _, le_refl _, hexec⟩, .refl⟩
  refine ⟨p, p, List.replicate 32 0 ++ [p.tf 0 + 1], hreach, ?_⟩
  rw [kresumeFile_short (by simp) (by simp), unchanged_iff, readRegs_eq_self]
  intro hall
  have hzero : p.tf 0 + 1 = p.tf 0 := hall 0 _ rfl
  bv_omega

end Xv6.Kernel.Vm
