/-
# Xv6.Kernel.Pipe — pipes (`kernel/pipe.c`).

Any number of processes call `pipewrite`, `piperead` and `pipeclose` on one pipe.  The code is given place
by place (`Place`), as code of `Xv6.Lib.Monitor`: `pi->lock` is its lock and `&pi->nread`, `&pi->nwrite`
are its channels.  What `copyin` and `copyout` do for the process that calls them is an input.

Next to the pipe, `PipeLog` records what was put in and what was taken out.  The counters are 32 bits
wide and wrap; the records do not.

A pipe is a bounded queue, and sleepers have a reason to sleep unless `pipewrite` gives up: its one exit that
wakes nobody is taken when the pipe is full, after it may have put bytes in.
-/
import Xv6.Lib.Monitor
import Mathlib.Data.List.FinRange

namespace Xv6.Kernel

open Function List
open Lib (Reach)
open Lib.Monitor (Code Pc Sound Annotated Paid)

variable {killed : Bool} {d d' : PipeLog} {l : Place} {i : PipeInput}

abbrev PIPESIZE : Nat := 512

/-- `struct pipe`, and whether its page was given back. -/
structure Pipe where
  data : Fin PIPESIZE → UInt8
  nread : UInt32
  nwrite : UInt32
  readopen : Bool
  writeopen : Bool
  freed : Bool

namespace Pipe

def full (pi : Pipe) : Bool := pi.nwrite == pi.nread + UInt32.ofNat PIPESIZE

def empty (pi : Pipe) : Bool := pi.nread == pi.nwrite

def slot (n : UInt32) : Fin PIPESIZE := ⟨n.toNat % PIPESIZE, Nat.mod_lt _ (by decide)⟩

end Pipe

/-- A pipe with all the bytes that were put in and taken out. -/
structure PipeLog where
  pipe : Pipe
  put : List UInt8
  taken : List UInt8

namespace PipeLog

/-- `pi->data[pi->nwrite++ % PIPESIZE] = ch`. -/
def putByte (d : PipeLog) (ch : UInt8) : PipeLog :=
  { d with
    pipe := { d.pipe with
      data := Function.update d.pipe.data (Pipe.slot d.pipe.nwrite) ch, nwrite := d.pipe.nwrite + 1 }
    put := d.put ++ [ch] }

/-- `ch = pi->data[pi->nread++ % PIPESIZE]`. -/
def takeByte (d : PipeLog) : PipeLog :=
  { d with
    pipe := { d.pipe with nread := d.pipe.nread + 1 }
    taken := d.taken ++ [d.pipe.data (Pipe.slot d.pipe.nread)] }

def closeEnd (d : PipeLog) (writable : Bool) : PipeLog :=
  { d with
    pipe :=
      if writable then { d.pipe with writeopen := false } else { d.pipe with readopen := false } }

def free (d : PipeLog) : PipeLog := { d with pipe := { d.pipe with freed := true } }

end PipeLog

/-- A pipe as `pipealloc` leaves it, in a page that held `data`. -/
def pipealloc (data : Fin PIPESIZE → UInt8) : PipeLog := ⟨⟨data, 0, 0, true, true, false⟩, [], []⟩

/-! ## The code -/

/-- What processes sleep on: `&pi->nread` and `&pi->nwrite`. -/
inductive PipeChan
  | nread | nwrite
  deriving DecidableEq

inductive Place
  /-- The head of the loop of `pipewrite`. -/
  | write (i n : Int)
  /-- Before its `sleep`. -/
  | writeSleep (i n : Int)
  | writeDone (n : Int)
  /-- The head of the first loop of `piperead`. -/
  | readWait (n : Int)
  /-- The head of its second loop. -/
  | read (i n : Int)
  | readDone (i : Int)
  | close (writable : Bool)
  | closeWake (writable : Bool)
  | closeDone
  /-- Before `release`, with the value that is returned. -/
  | ret (r : Int)
  deriving DecidableEq

inductive PipeInput
  | pipewrite (n : Int)
  | piperead (n : Int)
  | pipeclose (writable : Bool)
  | copy (ch : UInt8)
  | copyFails

/-- The calls begin; a pipe whose page was given back has no more callers.  (That nobody is left in a call
either is what the reference counts of open files are for; here such a call finds the pipe as it was.) -/
def pipeCall (d : PipeLog) : PipeInput → Option Place
  | .pipewrite n => if d.pipe.freed then none else some (.write 0 n)
  | .piperead n => if d.pipe.freed then none else some (.readWait n)
  | .pipeclose writable => if d.pipe.freed then none else some (.close writable)
  | .copy _ | .copyFails => none

/-- The code with `pi->lock` held.  Outside, a process has the result of its last call. -/
def pipeAct (killed : Bool) (d : PipeLog) :
    Place → PipeInput → Option (Lib.Monitor.Act PipeChan PipeLog (Option Int) Place)
  | .write i n, input =>
    if i < n then
      if d.pipe.full then
        if d.pipe.readopen = false ∨ killed then some (.leave (some (-1)))
        else some (.wake .nread (.writeSleep i n))
      else
        match input with
        | .copy ch => some (.goto (d.putByte ch) (.write (i + 1) n))
        | .copyFails => some (.goto d (.writeDone n))
        | _ => none
    else some (.goto d (.writeDone n))
  | .writeSleep i n, _ => some (.sleep .nwrite (.write i n))
  | .writeDone n, _ => some (.wake .nread (.ret n))
  | .readWait n, _ =>
    if d.pipe.empty ∧ d.pipe.writeopen then
      if killed then some (.leave (some (-1))) else some (.sleep .nread (.readWait n))
    else some (.goto d (.read 0 n))
  | .read i n, input =>
    if i < n ∧ d.pipe.empty = false then
      match input with
      | .copyFails => some (.goto d.takeByte (.readDone i))
      | _ => some (.goto d.takeByte (.read (i + 1) n))
    else some (.goto d (.readDone i))
  | .readDone i, _ => some (.wake .nwrite (.ret i))
  | .close writable, _ => some (.goto (d.closeEnd writable) (.closeWake writable))
  | .closeWake writable, _ => some (.wake (if writable then .nread else .nwrite) .closeDone)
  | .closeDone, _ =>
    if d.pipe.readopen = false ∧ d.pipe.writeopen = false then some (.goto d.free (.ret 0))
    else some (.leave (some 0))
  | .ret r, _ => some (.leave (some r))

inductive PipeDoes (killed : Bool) (d : PipeLog) :
    Place → Lib.Monitor.Act PipeChan PipeLog (Option Int) Place → Prop
  | giveUp {i n : Int} : i < n → d.pipe.full = true → d.pipe.readopen = false ∨ killed = true →
      PipeDoes killed d (.write i n) (.leave (some (-1)))
  | hurry {i n : Int} : d.pipe.full = true → d.pipe.readopen = true →
      PipeDoes killed d (.write i n) (.wake .nread (.writeSleep i n))
  | put {i n : Int} (ch : UInt8) : d.pipe.full = false →
      PipeDoes killed d (.write i n) (.goto (d.putByte ch) (.write (i + 1) n))
  | written {i n : Int} : PipeDoes killed d (.write i n) (.goto d (.writeDone n))
  | writeSleep {i n : Int} : PipeDoes killed d (.writeSleep i n) (.sleep .nwrite (.write i n))
  | writeDone {n : Int} : PipeDoes killed d (.writeDone n) (.wake .nread (.ret n))
  | readKilled {n : Int} : PipeDoes killed d (.readWait n) (.leave (some (-1)))
  | readSleep {n : Int} : d.pipe.empty = true → d.pipe.writeopen = true →
      PipeDoes killed d (.readWait n) (.sleep .nread (.readWait n))
  | begin {n : Int} : PipeDoes killed d (.readWait n) (.goto d (.read 0 n))
  | take {i n : Int} : d.pipe.empty = false → PipeDoes killed d (.read i n) (.goto d.takeByte (.read (i + 1) n))
  | takeLast {i n : Int} : d.pipe.empty = false → PipeDoes killed d (.read i n) (.goto d.takeByte (.readDone i))
  | drained {i n : Int} : PipeDoes killed d (.read i n) (.goto d (.readDone i))
  | readDone {i : Int} : PipeDoes killed d (.readDone i) (.wake .nwrite (.ret i))
  | close (writable : Bool) :
      PipeDoes killed d (.close writable) (.goto (d.closeEnd writable) (.closeWake writable))
  | closeWake (writable : Bool) :
      PipeDoes killed d (.closeWake writable) (.wake (if writable then .nread else .nwrite) .closeDone)
  | free : PipeDoes killed d .closeDone (.goto d.free (.ret 0))
  | closed : PipeDoes killed d .closeDone (.leave (some 0))
  | ret (r : Int) : PipeDoes killed d (.ret r) (.leave (some r))

theorem pipeAct_does
    {a : Lib.Monitor.Act PipeChan PipeLog (Option Int) Place} (h : pipeAct killed d l i = some a) :
    PipeDoes killed d l a := by
  cases l with
  | write j n =>
    dsimp only [pipeAct] at h
    split at h
    · rename_i hlt
      split at h
      · rename_i hfull
        split at h
        · rename_i hgive
          cases h
          exact .giveUp hlt hfull hgive
        · rename_i hgive
          cases h
          exact .hurry hfull (Bool.eq_true_of_not_eq_false fun hro => hgive (.inl hro))
      · rename_i hfull
        split at h
        · cases h
          exact .put _ (Bool.eq_false_iff.mpr hfull)
        · cases h
          exact .written
        · cases h
    · cases h
      exact .written
  | writeSleep j n =>
    cases h
    exact .writeSleep
  | writeDone n =>
    cases h
    exact .writeDone
  | readWait n =>
    dsimp only [pipeAct] at h
    split at h
    · rename_i hwait
      split at h
      · cases h
        exact .readKilled
      · cases h
        exact .readSleep hwait.1 hwait.2
    · cases h
      exact .begin
  | read j n =>
    dsimp only [pipeAct] at h
    split at h
    · rename_i hread
      split at h
      · cases h
        exact .takeLast hread.2
      · cases h
        exact .take hread.2
    · cases h
      exact .drained
  | readDone j =>
    cases h
    exact .readDone
  | close writable =>
    cases h
    exact .close writable
  | closeWake writable =>
    cases h
    exact .closeWake writable
  | closeDone =>
    dsimp only [pipeAct] at h
    split at h
    · cases h
      exact .free
    · cases h
      exact .closed
  | ret r =>
    cases h
    exact .ret r

def pipeCode (n : Nat) : Code (Fin n) Unit PipeChan PipeLog (Option Int) Place PipeInput where
  obj _ := ()
  call _ d _ i := pipeCall d i
  act _ killed d l i := pipeAct killed d l i
  free _ _ _ _ := none
  obj_next _ _ _ _ _ _ _ _ _ := rfl

abbrev PipeState (n : Nat) := Lib.Monitor.State (Fin n) Unit PipeChan PipeLog (Option Int) Place

abbrev PipeEvent (n : Nat) := Lib.Monitor.Event (Fin n) PipeInput

def pipeStep (n : Nat) : PipeState n → PipeEvent n → Option (PipeState n) :=
  Lib.Monitor.step (pipeCode n) (List.finRange n)

theorem pipeStep_act {n : Nat} {s : PipeState n} {p : Fin n}
    {a : Lib.Monitor.Act PipeChan PipeLog (Option Int) Place} (hpc : s.pc p = .inside l)
    (ha : pipeAct (s.killed p) s.data l i = some a) :
    pipeStep n s (.act p i) = some (s.perform (pipeCode n) (finRange n) p l a) := by
  have hact : (pipeCode n).act p (s.killed p) s.data l i = some a := ha
  exact Lib.Monitor.step_act hpc hact

def pipeStart (n : Nat) (data : Fin PIPESIZE → UInt8) : PipeState n where
  data := pipealloc data
  lock := fun _ => none
  killed := fun _ => false
  pc := fun _ => .out none

theorem pipeStart_initial (n : Nat) (data : Fin PIPESIZE → UInt8) : (pipeStart n data).Initial :=
  ⟨fun _ => rfl, fun _ => ⟨none, rfl⟩⟩

/-! ## A bounded queue -/

/-- The counters count, modulo `2^32`, what was put in and what was taken out, and the
bytes in between are in the buffer. -/
structure Fifo (d : PipeLog) : Prop where
  nread : d.pipe.nread = UInt32.ofNat d.taken.length
  nwrite : d.pipe.nwrite = UInt32.ofNat d.put.length
  pre : d.taken <+: d.put
  room : d.put.length ≤ d.taken.length + PIPESIZE
  bytes : ∀ k, d.taken.length ≤ k → k < d.put.length →
    d.put[k]? = some (d.pipe.data (Pipe.slot (UInt32.ofNat k)))

namespace Fifo

variable {d d' : PipeLog}

theorem le (h : Fifo d) : d.taken.length ≤ d.put.length := h.pre.length_le

/-- `PIPESIZE` divides `2^32`, so the wrap of the counters does not show in the index. -/
theorem slot_ofNat (k : Nat) : (Pipe.slot (UInt32.ofNat k)).val = k % PIPESIZE := by
  show (UInt32.ofNat k).toNat % PIPESIZE = k % PIPESIZE
  rw [UInt32.toNat_ofNat']
  exact Nat.mod_mod_of_dvd k (by decide)

theorem ofNat_succ (k : Nat) : UInt32.ofNat k + 1 = UInt32.ofNat (k + 1) := by
  rw [UInt32.ofNat_add]
  rfl

theorem unread (h : Fifo d) : (d.pipe.nwrite - d.pipe.nread).toNat = d.put.length - d.taken.length := by
  have hle := h.le
  have hroom := h.room
  have hsplit : d.put.length = d.taken.length + (d.put.length - d.taken.length) := by omega
  rw [h.nread, h.nwrite, hsplit, UInt32.ofNat_add, UInt32.add_comm, UInt32.add_sub_cancel, UInt32.toNat_ofNat']
  have hlt : d.put.length - d.taken.length < 2 ^ 32 := by
    have hsize : PIPESIZE < 2 ^ 32 := by decide
    omega
  rw [Nat.mod_eq_of_lt hlt]
  omega

theorem lt_of_not_full (h : Fifo d) (hfull : d.pipe.full = false) : d.put.length < d.taken.length + PIPESIZE := by
  refine Nat.lt_of_le_of_ne h.room fun heq => ?_
  have hyes : d.pipe.full = true := by
    rw [Pipe.full, h.nread, h.nwrite, heq, UInt32.ofNat_add]
    exact beq_self_eq_true _
  rw [hyes] at hfull
  cases hfull

theorem lt_of_not_empty (h : Fifo d) (hempty : d.pipe.empty = false) : d.taken.length < d.put.length := by
  refine Nat.lt_of_le_of_ne h.le fun heq => ?_
  have hyes : d.pipe.empty = true := by
    rw [Pipe.empty, h.nread, h.nwrite, heq]
    exact beq_self_eq_true _
  rw [hyes] at hempty
  cases hempty

theorem putByte (h : Fifo d) (hfull : d.pipe.full = false) (ch : UInt8) : Fifo (d.putByte ch) := by
  have hlt := h.lt_of_not_full hfull
  have hlen : (d.putByte ch).put.length = d.put.length + 1 := by simp [PipeLog.putByte]
  refine ⟨h.nread, ?_, ?_, ?_, ?_⟩
  · rw [hlen, ← ofNat_succ, ← h.nwrite]
    rfl
  · exact h.pre.trans (prefix_append _ _)
  · rw [hlen]
    exact hlt
  intro k hk hk'
  rw [hlen] at hk'
  have hk : d.taken.length ≤ k := hk
  show (d.put ++ [ch])[k]? = some (Function.update d.pipe.data (Pipe.slot d.pipe.nwrite) ch _)
  by_cases hnew : k = d.put.length
  · subst hnew
    rw [← h.nwrite, update_self, getElem?_concat_length]
  have hold : k < d.put.length := by omega
  have hne : Pipe.slot (UInt32.ofNat k) ≠ Pipe.slot d.pipe.nwrite := by
    intro heq
    have hval := congrArg Fin.val heq
    rw [h.nwrite, slot_ofNat, slot_ofNat] at hval
    have hsize : PIPESIZE = 512 := rfl
    rw [hsize] at hval hlt
    omega
  rw [update_of_ne hne, getElem?_append_left hold]
  exact h.bytes k hk hold

theorem takeByte (h : Fifo d) (hempty : d.pipe.empty = false) : Fifo d.takeByte := by
  have hlt := h.lt_of_not_empty hempty
  have hlen : d.takeByte.taken.length = d.taken.length + 1 := by simp [PipeLog.takeByte]
  have hbyte := h.bytes d.taken.length (Nat.le_refl _) hlt
  refine ⟨?_, h.nwrite, ?_, ?_, ?_⟩
  · rw [hlen, ← ofNat_succ, ← h.nread]
    rfl
  · obtain ⟨rest, hrest⟩ := h.pre
    rw [← h.nread, ← hrest, getElem?_append_right (Nat.le_refl _), Nat.sub_self] at hbyte
    cases rest with
    | nil => cases hbyte
    | cons b rest =>
      cases hbyte
      refine ⟨rest, Eq.trans ?_ hrest⟩
      simp [PipeLog.takeByte]
  · rw [hlen]
    have hroom := h.room
    show d.put.length ≤ _
    omega
  · intro k hk hk'
    rw [hlen] at hk
    exact h.bytes k (by omega) hk'

end Fifo

theorem fifo_pipealloc (data : Fin PIPESIZE → UInt8) : Fifo (pipealloc data) :=
  ⟨rfl, rfl, nil_prefix, Nat.zero_le _, fun k _ hk => absurd hk (Nat.not_lt_zero k)⟩

theorem Fifo.close (h : Fifo d) (writable : Bool) : Fifo (d.closeEnd writable) := by
  cases writable
  · exact ⟨h.nread, h.nwrite, h.pre, h.room, h.bytes⟩
  · exact ⟨h.nread, h.nwrite, h.pre, h.room, h.bytes⟩

theorem Fifo.goto {l' : Place} (h : Fifo d)
    (hd : PipeDoes killed d l (.goto d' l')) : Fifo d' := by
  cases hd with
  | put ch hfull => exact h.putByte hfull ch
  | take hempty | takeLast hempty => exact h.takeByte hempty
  | close writable => exact h.close writable
  | free => exact ⟨h.nread, h.nwrite, h.pre, h.room, h.bytes⟩
  | written | begin | drained => exact h

/-- **Pipes are bounded queues**: at most `PIPESIZE` bytes are in a pipe, in the buffer and in the order in which they were put
in, and what was taken out is a prefix of what was put in. -/
theorem pipe_fifo {n : Nat} {data : Fin PIPESIZE → UInt8} {s : PipeState n}
    (h : Reach (pipeStep n) (fun _ _ => True) (pipeStart n data) s) :
    (s.data.pipe.nwrite - s.data.pipe.nread).toNat ≤ PIPESIZE ∧
      (∀ k, k < (s.data.pipe.nwrite - s.data.pipe.nread).toNat →
        s.data.put[s.data.taken.length + k]? =
          some (s.data.pipe.data (Pipe.slot (s.data.pipe.nread + UInt32.ofNat k)))) ∧
      s.data.put.length = s.data.taken.length + (s.data.pipe.nwrite - s.data.pipe.nread).toNat ∧
      s.data.taken <+: s.data.put := by
  have hfifo : Fifo s.data :=
    Lib.Monitor.data_run (fun _ _ _ _ _ _ _ ha hd => hd.goto (pipeAct_does ha)) (fun _ _ _ _ _ _ hf => by cases hf)
      (fifo_pipealloc data) h
  have hle := hfifo.le
  have hroom := hfifo.room
  rw [hfifo.unread]
  refine ⟨by omega, fun k hk => ?_, by omega, hfifo.pre⟩
  rw [hfifo.nread, ← UInt32.ofNat_add]
  exact hfifo.bytes _ (by omega) (by omega)

def writer : Fin 2 := ⟨0, by decide⟩

def reader : Fin 2 := ⟨1, by decide⟩

def pipeRun : List (PipeEvent 2) :=
  [.call writer (.pipewrite 2), .acquire writer, .act writer (.copy 7), .act writer (.copy 9),
    .act writer .copyFails, .act writer .copyFails, .scan writer, .scan writer, .scan writer,
    .act writer .copyFails, .call reader (.piperead 1), .acquire reader, .act reader (.copy 0),
    .act reader (.copy 0)]

theorem pipe_fifo_run : ∃ s : PipeState 2, s.data.put = [7, 9] ∧ s.data.taken = [7] ∧
    (s.data.pipe.nwrite - s.data.pipe.nread).toNat ≤ PIPESIZE := by
  obtain ⟨s, hs, hdata⟩ := Reach.of_any (pipeStep 2) (fun _ _ => True) (pipeStart 2 fun _ => 0) pipeRun
    (fun s => s.data.put == [7, 9] && s.data.taken == [7]) (by decide)
  rw [Bool.and_eq_true, beq_iff_eq, beq_iff_eq] at hdata
  exact ⟨s, hdata.1, hdata.2, (pipe_fifo hs).1⟩

/-! ## Sleepers -/

def PipeWant : PipeChan → PipeLog → Prop
  | .nread, d => d.pipe.empty = true ∧ d.pipe.writeopen = true
  | .nwrite, d => d.pipe.full = true ∧ d.pipe.readopen = true

/-- What the code still has to wake. -/
def PipeOwes : Place → PipeChan → Prop
  | .write _ _, c | .writeDone _, c => c = .nread
  | .read _ _, c | .readDone _, c => c = .nwrite
  | .closeWake writable, c => c = if writable then .nread else .nwrite
  | _, _ => False

/-- Before it sleeps, `pipewrite` has found the pipe full and its read end open. -/
def PipeAt : Place → PipeLog → Prop
  | .writeSleep _ _, d => PipeWant .nwrite d
  | _, _ => True

theorem pipeCall_at (h : pipeCall d i = some l) : PipeAt l d' := by
  cases i with
  | copy ch | copyFails => cases h
  | _ =>
    dsimp only [pipeCall] at h
    split at h
    · cases h
    · cases h
      trivial

theorem pipe_annotated (n : Nat) : Annotated (pipeCode n) PipeAt where
  call _ _ _ _ _ h _ := pipeCall_at h
  goto _ _ _ _ _ _ _ h _ := by
    refine ⟨?_, fun m hm => absurd rfl hm⟩
    cases pipeAct_does h <;> trivial
  wake _ _ _ _ _ _ _ h _ := by
    cases pipeAct_does h with
    | hurry hfull hopen => exact ⟨hfull, hopen⟩
    | _ => trivial
  sleep _ _ _ _ _ _ _ h _ := by
    cases pipeAct_does h <;> exact fun _ => trivial
  free _ _ _ _ _ _ h := by cases h

/-- A change of the pipe that takes somebody's reason to sleep away comes with a debt. -/
theorem pipe_goto {l' : Place} {c : PipeChan}
    (h : PipeDoes killed d l (.goto d' l')) (hc : PipeWant c d ∨ PipeOwes l c) :
    PipeWant c d' ∨ PipeOwes l' c := by
  cases h with
  | put ch hfull =>
    cases c with
    | nread => exact .inr rfl
    | nwrite =>
      rcases hc with hwant | howes
      · rw [hwant.1] at hfull
        cases hfull
      · cases howes
  | written | drained => exact hc
  | begin =>
    rcases hc with hwant | howes
    · exact .inl hwant
    · exact howes.elim
  | take hempty | takeLast hempty =>
    cases c with
    | nread =>
      rcases hc with hwant | howes
      · rw [hwant.1] at hempty
        cases hempty
      · cases howes
    | nwrite => exact .inr rfl
  | close writable =>
    rcases hc with hwant | howes
    · cases writable with
      | true =>
        cases c with
        | nread => exact .inr rfl
        | nwrite => exact .inl hwant
      | false =>
        cases c with
        | nread => exact .inl hwant
        | nwrite => exact .inr rfl
    · exact howes.elim
  | free =>
    rcases hc with hwant | howes
    · cases c with
      | nread | nwrite => exact .inl hwant
    · exact howes.elim

theorem pipe_sound (n : Nat) : Sound (pipeCode n) (fun _ _ => True) PipeAt PipeWant PipeOwes fun _ => () where
  annotated := pipe_annotated n
  debt _ _ _ := rfl
  goto _ _ _ _ _ _ _ h c hc := pipe_goto (pipeAct_does h) hc
  wake _ _ _ _ _ c _ h := by
    refine ⟨rfl, fun c' hc' => ?_⟩
    cases pipeAct_does h with
    | _ => exact .inl hc'
  sleep _ _ _ _ _ _ _ h := by
    cases pipeAct_does h with
    | writeSleep => exact ⟨rfl, id, fun _ => id⟩
    | readSleep hempty hopen => exact ⟨rfl, fun _ => ⟨hempty, hopen⟩, fun _ => id⟩
  free _ _ _ _ _ _ h := by cases h

/-- Does `pipewrite` give up next: it finds the pipe full, and its process killed or the read end
closed. -/
def givesUp {n : Nat} (s : PipeState n) (p : Fin n) : Bool :=
  match s.pc p with
  | .inside (.write i m) =>
    decide (i < m) && s.data.pipe.full && (!s.data.pipe.readopen || s.killed p)
  | _ => false

/-- When `pipewrite` gives up, nobody sleeps on `&pi->nread` or is about to. -/
def Heeds {n : Nat} (s : PipeState n) : PipeEvent n → Prop
  | .act p _ => givesUp s p = true → ∀ q, (s.pc q).bound ≠ some .nread
  | _ => True

instance {n : Nat} (s : PipeState n) (e : PipeEvent n) : Decidable (Heeds s e) := by
  unfold Heeds
  split <;> infer_instance

theorem Heeds.paid {n : Nat} {s : PipeState n} {e : PipeEvent n} (h : Heeds s e) : Paid (pipeCode n) PipeOwes s e := by
  cases e with
  | act p i =>
    intro l x hpc ha c howes q
    cases pipeAct_does ha with
    | giveUp hlt hfull hgive =>
      cases howes
      refine h ?_ q
      rw [givesUp, hpc]
      rcases hgive with hclosed | hkilled
      · simp [hlt, hfull, hclosed]
      · simp [hlt, hfull, hkilled]
    | readKilled | closed | ret r => exact howes.elim
  | _ => trivial

/-- **No lost wake-up on pipes** in every run in which `pipewrite` does not give up while somebody sleeps on `&pi->nread`: with
`pi->lock` free, a reader sleeps on an empty pipe and a writer on a full one, whose other end is open. -/
theorem asleep_on_pipe {n : Nat} {data : Fin PIPESIZE → UInt8} {s : PipeState n}
    (h : Reach (pipeStep n) Heeds (pipeStart n data) s) (hlock : s.lock () = none) (p : Fin n) :
    ((s.pc p).sleepsOn = some .nread → s.data.pipe.nread = s.data.pipe.nwrite ∧ s.data.pipe.writeopen = true) ∧
    ((s.pc p).sleepsOn = some .nwrite →
      s.data.pipe.nwrite = s.data.pipe.nread + UInt32.ofNat PIPESIZE ∧ s.data.pipe.readopen = true) := by
  have hwant : ∀ c, (s.pc p).sleepsOn = some c → PipeWant c s.data := fun c hp =>
    Lib.Monitor.want_of_asleep (pipe_sound n) mem_finRange (fun _ _ => Heeds.paid)
      (fun _ _ _ _ _ => trivial) (pipeStart_initial n data) h hp hlock
  refine ⟨fun hp => ?_, fun hp => ?_⟩
  · obtain ⟨hempty, hopen⟩ := hwant .nread hp
    exact ⟨eq_of_beq hempty, hopen⟩
  · obtain ⟨hfull, hopen⟩ := hwant .nwrite hp
    exact ⟨eq_of_beq hfull, hopen⟩

def readerSleeps : List (PipeEvent 2) :=
  [.call reader (.piperead 1), .acquire reader, .act reader .copyFails, .plock reader, .unlock reader,
    .park reader]

theorem asleep_on_pipe_reader : ∃ s : PipeState 2, (s.pc reader).sleepsOn = some .nread ∧
    s.lock () = none ∧ s.data.pipe.nread = s.data.pipe.nwrite ∧ s.data.pipe.writeopen = true := by
  obtain ⟨s, hs, hcheck⟩ := Reach.of_any (pipeStep 2) Heeds (pipeStart 2 fun _ => 0) readerSleeps
    (fun s => (s.pc reader).sleepsOn == some .nread && s.lock () == none) (by decide)
  rw [Bool.and_eq_true, beq_iff_eq, beq_iff_eq] at hcheck
  exact ⟨s, hcheck.1, hcheck.2, (asleep_on_pipe hs hcheck.2 reader).1 hcheck.1⟩

/-! ### A reader that is left asleep

The writer is killed, and wants to write one byte more than the pipe holds. -/

/-- The writer has put `k` bytes into the pipe while the reader sleeps. -/
structure Filling (k : Nat) (s : PipeState 2) : Prop where
  writes : s.pc writer = .inside (.write k 513)
  sleeps : (s.pc reader).sleepsOn = some .nread
  killed : s.killed writer = true
  nread : s.data.pipe.nread = 0
  nwrite : s.data.pipe.nwrite = UInt32.ofNat k

theorem Filling.next {k : Nat} {s : PipeState 2} (h : Filling k s) (hk : k < 512) :
    ∃ s', pipeStep 2 s (.act writer (.copy 0)) = some s' ∧ Filling (k + 1) s' := by
  have hfull : s.data.pipe.full = false := by
    rw [Pipe.full, h.nread, h.nwrite, beq_eq_false_iff_ne]
    intro heq
    have hval := congrArg UInt32.toNat heq
    have h512 : (0 + UInt32.ofNat PIPESIZE).toNat = 512 := rfl
    rw [UInt32.toNat_ofNat', Nat.mod_eq_of_lt (by omega), h512] at hval
    omega
  have hlt : (k : Int) < 513 := by omega
  have hact : pipeAct (s.killed writer) s.data (.write k 513) (.copy 0) =
      some (.goto (s.data.putByte 0) (.write (k + 1) 513)) := by
    dsimp only [pipeAct]
    rw [if_pos hlt, hfull]
    rfl
  refine ⟨_, pipeStep_act h.writes hact, ?_, ?_, h.killed, h.nread, ?_⟩
  · exact Lib.Monitor.State.move_pc_self _ _ _
  · have hpc := Lib.Monitor.State.move_pc_of_ne (p := writer) (q := reader)
      (s.setData (s.data.putByte 0)) (.inside (.write (k + 1) 513)) (by decide)
    exact (congrArg Pc.sleepsOn hpc).trans h.sleeps
  · show s.data.pipe.nwrite + 1 = _
    rw [h.nwrite]
    exact Fifo.ofNat_succ k

/-- The reader sleeps, the writer is killed and begins. -/
def killedWriter : List (PipeEvent 2) :=
  readerSleeps ++ [.kill writer, .call writer (.pipewrite 513), .acquire writer]

theorem filling_reached (k : Nat) (hk : k ≤ 512) :
    ∃ s, Reach (pipeStep 2) (fun _ _ => True) (pipeStart 2 fun _ => 0) s ∧ Filling k s := by
  induction k with
  | zero =>
    obtain ⟨s, hs, hcheck⟩ := Reach.of_any (pipeStep 2) (fun _ _ => True) (pipeStart 2 fun _ => 0)
      killedWriter (fun s => s.pc writer == .inside (.write 0 513) &&
        (s.pc reader).sleepsOn == some .nread && s.killed writer && s.data.pipe.nread == 0 &&
        s.data.pipe.nwrite == 0) (by decide)
    simp only [Bool.and_eq_true, beq_iff_eq] at hcheck
    obtain ⟨⟨⟨⟨hw, hr⟩, hkilled⟩, hnread⟩, hnwrite⟩ := hcheck
    exact ⟨s, hs, hw, hr, hkilled, hnread, hnwrite⟩
  | succ k ih =>
    obtain ⟨s, hs, hfill⟩ := ih (by omega)
    obtain ⟨s', hstep, hfill'⟩ := hfill.next (by omega)
    exact ⟨s', hs.next trivial hstep, hfill'⟩

/-- **A killed writer leaves a reader asleep.**  The pipe is full, and nobody wakes the reader. -/
theorem reader_left_asleep : ¬ ∀ (n : Nat) (data : Fin PIPESIZE → UInt8) (s : PipeState n),
    Reach (pipeStep n) (fun _ _ => True) (pipeStart n data) s → s.lock () = none → ∀ p,
    ((s.pc p).sleepsOn = some .nread → s.data.pipe.nread = s.data.pipe.nwrite ∧ s.data.pipe.writeopen = true) ∧
    ((s.pc p).sleepsOn = some .nwrite →
      s.data.pipe.nwrite = s.data.pipe.nread + UInt32.ofNat PIPESIZE ∧ s.data.pipe.readopen = true) := by
  intro hall
  obtain ⟨s, hs, hfill⟩ := filling_reached 512 (Nat.le_refl _)
  have hact : pipeAct (s.killed writer) s.data (.write (512 : Nat) 513) (.copy 0) =
      some (.leave (some (-1))) := by
    have hfull : s.data.pipe.full = true := by rw [Pipe.full, hfill.nread, hfill.nwrite]; rfl
    dsimp only [pipeAct]
    rw [if_pos (by decide), hfull, if_pos rfl, if_pos (.inr hfill.killed)]
  have hstep : pipeStep 2 s (.act writer (.copy 0)) =
      some ((s.setLock () none).move writer (.out (some (-1)))) :=
    pipeStep_act hfill.writes hact
  have hasleep := (hall 2 _ _ (hs.next trivial hstep) rfl reader).1 hfill.sleeps
  rw [show ((s.setLock () none).move writer _).data = s.data from rfl, hfill.nread, hfill.nwrite]
    at hasleep
  exact absurd hasleep.1 (by decide)

end Xv6.Kernel
