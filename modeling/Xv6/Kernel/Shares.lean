/-
# Xv6.Kernel.Shares — the counts of the file table are exact.

Every step moves one reference at most, and it moves it in the count and in the share of one process
(`Inv.frame`).  The two ends of a pipe are followed in the same way: an end is open as long as a file has
it, or a process is about to close it (`ends`), and a page whose ends are both closed has exactly one
process that is about to free it (`closers`).
-/
import Xv6.Kernel.Ftable
import Mathlib.Algebra.Order.BigOperators.Group.Finset
import Mathlib.Data.Fintype.BigOperators

namespace Xv6.Kernel.Ftable

open Fs (Fd Fptr NOFILE)
open Function List Option
open Lib (Reach count update_cases update_same)

/-! ## Shares -/

/-- References that the rest of the call gives back. -/
def After.tokens : After → List Fptr
  | .close f => [f]
  | _ => []

/-- The entry that is still to be cleared. -/
def After.unbacked : After → Option Fd
  | .exit fd _ => some fd
  | _ => none

/-- References that a call in progress holds outside the table. -/
def Pc.tokens : Pc → List Fptr
  | .opened f => [f]
  | .pipe1 f => [f]
  | .pipe2 f g => [f, g]
  | .pipe3 f g => [f, g]
  | .close f k => f :: k.tokens
  | .pipeclose _ _ k => k.tokens
  | .kfree _ k => k.tokens
  | .iput k => k.tokens
  | _ => []

/-- The entry whose reference is not counted, or held as a token. -/
def Pc.unbacked : Pc → Option Fd
  | .dup fd _ => some fd
  | .close _ k => k.unbacked
  | .pipeclose _ _ k => k.unbacked
  | .kfree _ k => k.unbacked
  | .iput k => k.unbacked
  | _ => none

def backed (o : Fd → Option Fptr) : Option Fd → Fd → Option Fptr
  | none => o
  | some fd => update o fd none

/-- References to `f` in a table and in the hands of a call. -/
def held (o : Fd → Option Fptr) (u : Option Fd) (tokens : List Fptr) (f : Fptr) : Nat :=
  count (· = some f) (backed o u) + tokens.count f

/-- **What a process has of the count of `f`.** -/
def Task.share (x : Task) (f : Fptr) : Nat := held x.ofile x.pc.unbacked x.pc.tokens f

section Shares

variable {o : Fd → Option Fptr} {u : Option Fd} {t : List Fptr} {fd : Fd} {f g : Fptr} {x : Task} {k : After}

theorem held_cons : held o u (f :: t) g = held o u t g + if f = g then 1 else 0 := by
  unfold held
  rw [count_cons]
  simp only [beq_iff_eq]
  omega

theorem held_enter (h : o fd = none) : held (update o fd (some f)) none t g = held o none t g + if f = g then 1 else 0 := by
  have hcount := Lib.count_update (P := (· = some g)) (f := o) fd (some f)
  rw [h, if_neg (by simp)] at hcount
  simp only [some.injEq] at hcount
  show count (· = some g) (update o fd (some f)) + _ = count (· = some g) o + _ + _
  omega

theorem held_clear (h : o fd = some f) : held (update o fd none) none t g + (if f = g then 1 else 0) = held o none t g := by
  have hcount := Lib.count_update (P := (· = some g)) (f := o) fd none
  rw [h, if_neg (by simp : ¬ (none : Option Fptr) = some g)] at hcount
  simp only [some.injEq] at hcount
  show count (· = some g) (update o fd none) + _ + _ = count (· = some g) o + _
  omega

theorem held_pos (h : backed o u fd = some f) : 0 < held o u t f := by
  have hne : count (· = some f) (backed o u) ≠ 0 := fun hzero => Lib.count_eq_zero.mp hzero fd h
  unfold held
  omega

theorem held_pos_of_mem (h : f ∈ t) : 0 < held o u t f := Nat.lt_of_lt_of_le (count_pos_iff.mpr h) (Nat.le_add_left _ _)

end Shares

/-! ## The invariant -/

/-- A file that a call has allocated and not yet given a type. -/
def Pc.fresh : Pc → List Fptr
  | .opened f => [f]
  | .pipe1 f => [f]
  | .pipe2 f g => [f, g]
  | _ => []

theorem Pc.fresh_subset (pc : Pc) : pc.fresh ⊆ pc.tokens := by
  cases pc <;> first | exact List.Subset.refl _ | exact nil_subset _

/-- What the rest of `exit` finds in the table. -/
def After.Fits (o : Fd → Option Fptr) : After → Prop
  | .exit fd fds => ∀ e, e ≠ fd → e ∉ fds → o e = none
  | _ => True

/-- What a place in the code says about the table of its process. -/
def Pc.Fits (o : Fd → Option Fptr) : Pc → Prop
  | .dup fd f => o fd = some f ∧ ∃ e, e ≠ fd ∧ o e = some f
  | .exit fds => ∀ e, e ∉ fds → o e = none
  | .close _ k => k.Fits o
  | .pipeclose _ _ k => k.Fits o
  | .kfree _ k => k.Fits o
  | .iput k => k.Fits o
  | _ => True

structure Task.Local (x : Task) : Prop where
  user : x.life ≠ .live → x.pc = .user
  zombie : x.life = .zombie → ∀ fd, x.ofile fd = none
  fits : x.pc.Fits x.ofile

/-- What a `fork` in progress knows about the slot it has claimed. -/
def Pc.Claim (task : Slot → Task) : Pc → Prop
  | .uvmcopy np => (task np).life = .unused ∧ ∀ fd, (task np).ofile fd = none
  | .fork np fds => (task np).life = .unused ∧ fds.Nodup ∧ ∀ fd ∈ fds, (task np).ofile fd = none
  | _ => True

structure Forks (task : Slot → Task) : Prop where
  claim : ∀ p, (task p).pc.Claim task
  lone : ∀ p q np, (task p).pc.claims = some np → (task q).pc.claims = some np → p = q
  blank : ∀ p, (task p).life = .unused → (∀ q, (task q).pc.claims ≠ some p) → ∀ fd, (task p).ofile fd = none

def File.ending (ff : File) : Option (Page × Bool) := if ff.type = .pipe then some (ff.pipe, ff.writable) else none

def Pc.ending : Pc → Option (Page × Bool)
  | .pipeclose pg writable _ => some (pg, writable)
  | _ => none

def Pc.freeing : Pc → Option Page
  | .kfree pg _ => some pg
  | _ => none

def Frame.isOpen : Frame → Bool → Bool
  | .pipe _ writeopen, true => writeopen
  | .pipe readopen _, false => readopen
  | _, _ => false

def Frame.isClosed : Frame → Bool
  | .pipe false false => true
  | _ => false

/-- Who has the end `e`. -/
def ends (task : Slot → Task) (file : Fptr → File) (e : Page × Bool) : Nat :=
  count (fun ff => ff.ending = some e) file + count (fun x => x.pc.ending = some e) task

/-- Who is about to free the page. -/
def closers (task : Slot → Task) (pg : Page) : Nat := count (fun x => x.pc.freeing = some pg) task

structure Inv (s : State) : Prop where
  refs : ∀ f, (s.file f).ref = (∑ p, (s.task p).share f : Nat)
  idle : ∀ f, (s.file f).ref = 0 → (s.file f).type = .none
  fresh : ∀ p, ∀ f ∈ (s.task p).pc.fresh, (s.file f).ref = 1 ∧ (s.file f).type = .none
  tasks : ∀ p, (s.task p).Local
  forks : Forks s.task
  ends : ∀ e, ends s.task s.file e = ((s.mem e.1).isOpen e.2).toNat
  closers : ∀ pg, closers s.task pg = (s.mem pg).isClosed.toNat
  calm : s.panic ≠ some .fileclose ∧ s.panic ≠ some .filedup

section Frame

variable {s : State} {p : Slot} {x x' : Task} {f : Fptr} (h : Inv s)
include h

theorem Inv.share_le (p : Slot) (f : Fptr) : ((s.task p).share f : Int) ≤ (s.file f).ref := by
  rw [h.refs]
  exact Int.ofNat_le.mpr (Finset.single_le_sum (f := fun p => (s.task p).share f) (fun _ _ => Nat.zero_le _) (Finset.mem_univ p))

theorem Inv.shares_le {p q : Slot} (hpq : p ≠ q) (f : Fptr) :
    ((s.task p).share f + (s.task q).share f : Int) ≤ (s.file f).ref := by
  have hsum := Finset.sum_le_univ_sum_of_nonneg (s := {p, q}) (f := fun p => (s.task p).share f) fun _ => Nat.zero_le _
  rw [Finset.sum_pair hpq] at hsum
  rw [h.refs]
  exact_mod_cast hsum

theorem Inv.not_fresh_of_free (hzero : (s.file f).ref = 0) (q : Slot) : f ∉ (s.task q).pc.fresh := by
  intro hf
  have hone := (h.fresh q f hf).1
  omega

theorem Inv.not_fresh (hx : s.task p = x) (hpos : 0 < x.share f) (q : Slot) (hq : q ≠ p) : f ∉ (s.task q).pc.fresh := by
  intro hf
  have hone := (h.fresh q f hf).1
  have hshare : 0 < (s.task q).share f := held_pos_of_mem (Pc.fresh_subset _ hf)
  have hboth := h.shares_le hq f
  rw [hx] at hboth
  omega

/-- **One step**: what it moves in the counts it moves in the share of `p`, it changes no file that is fresh
for another process, and the ends of pipes it takes from one holder to the next. -/
theorem Inv.frame (hx : s.task p = x) {file' : Fptr → File} {mem' : Page → Frame}
    (hledger : ∀ f, (file' f).ref + (x.share f : Int) = (s.file f).ref + (x'.share f : Int))
    (htouch : ∀ f, file' f ≠ s.file f → ∀ q, q ≠ p → f ∉ (s.task q).pc.fresh)
    (hidle : ∀ f, (file' f).ref = 0 → (file' f).type = .none)
    (hfresh : ∀ f ∈ x'.pc.fresh, (file' f).ref = 1 ∧ (file' f).type = .none)
    (hlocal : x'.Local) (hforks : Forks (update s.task p x'))
    (hends : ∀ e, count (fun ff => ff.ending = some e) file' + (if x'.pc.ending = some e then 1 else 0) +
      ((s.mem e.1).isOpen e.2).toNat = count (fun ff => ff.ending = some e) s.file +
      (if x.pc.ending = some e then 1 else 0) + ((mem' e.1).isOpen e.2).toNat)
    (hclosers : ∀ pg, (if x'.pc.freeing = some pg then 1 else 0) + (s.mem pg).isClosed.toNat =
      (if x.pc.freeing = some pg then 1 else 0) + (mem' pg).isClosed.toNat) :
    Inv ⟨update s.task p x', file', mem', s.panic⟩ where
  refs f := by
    have hsum := Lib.sum_add_eq (f := fun q => (s.task q).share f) (g := fun q => (update s.task p x' q).share f) p
      fun q hq => by rw [update_of_ne hq]
    have hold := h.refs f
    have hnew := hledger f
    rw [update_self, hx] at hsum
    dsimp only
    omega
  idle := hidle
  fresh q := by
    dsimp only
    refine update_cases hfresh (fun q hq f hf => ?_) q
    by_cases hsame : file' f = s.file f
    · rw [hsame]
      exact h.fresh q f hf
    · exact absurd hf (htouch f hsame q hq)
  tasks := (forall_update_iff s.task fun _ x => x.Local).mpr ⟨hlocal, fun q _ => h.tasks q⟩
  forks := hforks
  ends e := by
    have hcount := Lib.count_update (P := fun x : Task => x.pc.ending = some e) (f := s.task) p x'
    have hold := h.ends e
    have hnew := hends e
    rw [hx] at hcount
    unfold Ftable.ends at hold ⊢
    dsimp only
    omega
  closers pg := by
    have hcount := Lib.count_update (P := fun x : Task => x.pc.freeing = some pg) (f := s.task) p x'
    have hold := h.closers pg
    have hnew := hclosers pg
    rw [hx] at hcount
    unfold Ftable.closers at hold ⊢
    dsimp only
    omega
  calm := h.calm

theorem Inv.relabel {task' : Slot → Task} (hshare : ∀ q f, (task' q).share f = (s.task q).share f)
    (hfresh : ∀ q, (task' q).pc.fresh ⊆ (s.task q).pc.fresh) (hlocal : ∀ q, (task' q).Local) (hforks : Forks task')
    (hending : ∀ q, (task' q).pc.ending = (s.task q).pc.ending) (hfreeing : ∀ q, (task' q).pc.freeing = (s.task q).pc.freeing) :
    Inv { s with task := task' } where
  refs f := by
    rw [h.refs]
    simp only [hshare]
  idle := h.idle
  fresh q f hf := h.fresh q f (hfresh q hf)
  tasks := hlocal
  forks := hforks
  ends e := by
    rw [← h.ends e]
    exact congrArg _ (Lib.count_congr fun q => by rw [hending])
  closers pg := by
    rw [← h.closers pg]
    exact Lib.count_congr fun q => by rw [hfreeing]
  calm := h.calm

theorem Inv.quiet (hx : s.task p = x) (hshare : ∀ f, x'.share f = x.share f) (hfresh : x'.pc.fresh ⊆ x.pc.fresh)
    (hlocal : x'.Local) (hforks : Forks (update s.task p x')) (hending : x'.pc.ending = x.pc.ending)
    (hfreeing : x'.pc.freeing = x.pc.freeing) : Inv (s.setTask p x') := by
  subst hx
  show Inv ⟨update s.task p x', s.file, s.mem, s.panic⟩
  refine h.frame rfl (fun f => ?_) (fun f hne => absurd rfl hne) h.idle (fun f hf => h.fresh p f (hfresh hf)) hlocal hforks
    (fun e => ?_) (fun pg => ?_)
  · rw [hshare]
  · rw [hending]
  · rw [hfreeing]

end Frame

/-! ## Claims -/

section Claims

variable {task : Slot → Task} {p np : Slot} {x' : Task} {pc : Pc}

theorem Pc.claim_of_none (h : pc.claims = none) : pc.Claim task := by cases pc <;> trivial

theorem Pc.Claim.unused (h : pc.Claim task) (hnp : pc.claims = some np) : (task np).life = .unused := by
  cases pc <;> cases hnp <;> exact h.1

theorem Pc.Claim.congr {task' : Slot → Task} (h : pc.Claim task)
    (hsame : ∀ np, pc.claims = some np → task' np = task np) : pc.Claim task' := by
  cases pc with
  | uvmcopy np =>
    show (task' np).life = .unused ∧ ∀ fd, (task' np).ofile fd = none
    rw [hsame np rfl]
    exact h
  | fork np fds =>
    show (task' np).life = .unused ∧ fds.Nodup ∧ ∀ fd ∈ fds, (task' np).ofile fd = none
    rw [hsame np rfl]
    exact h
  | _ => trivial

theorem Forks.move (h : Forks task) (hlife : (task p).life ≠ .unused) (hnew : x'.life = .unused → ∀ fd, x'.ofile fd = none)
    (hclaim : x'.pc.Claim task) (hlone : ∀ q np, q ≠ p → x'.pc.claims = some np → (task q).pc.claims ≠ some np)
    (hdrop : ∀ np, (task p).pc.claims = some np → x'.pc.claims ≠ some np → ∀ fd, (task np).ofile fd = none) :
    Forks (update task p x') := by
  -- nobody has claimed `p`
  have hother : ∀ pc : Pc, pc.Claim task → ∀ np, pc.claims = some np → np ≠ p := by
    rintro pc hpc np hnp rfl
    exact hlife (hpc.unused hnp)
  refine ⟨fun q => ?_, fun q r np => ?_, fun q => ?_⟩
  · have hold : (update task p x' q).pc.Claim task := update_cases hclaim (fun q _ => h.claim q) q
    exact hold.congr fun np hnp => update_of_ne (hother _ hold np hnp) ..
  · refine update_cases ?_ (fun q hq => ?_) q
    · exact update_cases (fun _ _ => rfl) (fun r hr hp hrn => absurd hrn (hlone r np hr hp)) r
    · exact update_cases (fun hqn hp => absurd hqn (hlone q np hq hp)) (fun r _ => h.lone q r np) r
  refine update_cases (fun hq _ => hnew hq) (fun q _ hq hfree => ?_) q
  have hxp := hfree p
  rw [update_self] at hxp
  by_cases hmine : (task p).pc.claims = some q
  · exact hdrop q hmine hxp
  refine h.blank q hq fun r => ?_
  by_cases hrp : r = p
  · rwa [hrp]
  · have hr := hfree r
    rwa [update_of_ne hrp] at hr

theorem Forks.plain (h : Forks task) (hlife : (task p).life ≠ .unused) (hnew : x'.life = .unused → ∀ fd, x'.ofile fd = none)
    (hold : (task p).pc.claims = none) (hpc : x'.pc.claims = none) : Forks (update task p x') := by
  refine h.move hlife hnew (Pc.claim_of_none hpc) (fun q np _ hnp => ?_) (fun np hnp => ?_)
  · rw [hpc] at hnp
    cases hnp
  · rw [hold] at hnp
    cases hnp

theorem Forks.enter (h : Forks task) {fd : Fd} {fds : List Fd} {f : Fptr} (hpc : (task p).pc = .fork np fds)
    (hfd : fd ∉ fds) : Forks (update task np ((task np).setFd fd (some f))) := by
  have hmine := h.claim p
  rw [hpc] at hmine
  have hsame : ∀ q, (update task np ((task np).setFd fd (some f)) q).pc = (task q).pc := update_same Task.pc rfl
  refine ⟨fun q => ?_, fun q r => ?_, fun q hq hfree => ?_⟩
  · rw [hsame]
    by_cases hqp : q = p
    · rw [hqp, hpc]
      show (update task np _ np).life = .unused ∧ fds.Nodup ∧ ∀ fd ∈ fds, (update task np _ np).ofile fd = none
      rw [update_self]
      refine ⟨hmine.1, hmine.2.1, fun e he => ?_⟩
      have hne : e ≠ fd := by
        rintro rfl
        exact hfd he
      show update (task np).ofile fd (some f) e = none
      rw [update_of_ne hne]
      exact hmine.2.2 e he
    · refine (h.claim q).congr fun mp hmp => update_of_ne ?_ ..
      rintro rfl
      exact hqp (h.lone q p mp hmp (by rw [hpc]; rfl))
  · rw [hsame, hsame]
    exact h.lone q r
  have hclaim := hfree p
  rw [hsame, hpc] at hclaim
  have hne : q ≠ np := by
    rintro rfl
    exact hclaim rfl
  rw [update_of_ne hne] at hq ⊢
  exact h.blank q hq fun r => by rw [← hsame]; exact hfree r

end Claims

/-! ## The table of files -/

/-- A place in the code that is neither in `fork` nor at the end of a pipe. -/
def Pc.Plain (pc : Pc) : Prop := pc.claims = none ∧ pc.ending = none ∧ pc.freeing = none

section Steps

variable {s : State} {p np : Slot} {x x' : Task} {o o' : Fd → Option Fptr} {pc pc' : Pc} {k : After}
  {f g : Fptr} {fd : Fd}
  {fds : List Fd} {pg : Page}

theorem Task.live_local (hfits : pc.Fits o) : Task.Local ⟨.live, o, pc⟩ :=
  ⟨fun hne => absurd rfl hne, fun hz => (by cases hz), hfits⟩

theorem Task.resume_live (o : Fd → Option Fptr) (pc : Pc) (k : After) :
    ∃ o' pc', Task.resume ⟨.live, o, pc⟩ k = ⟨.live, o', pc'⟩ ∧ pc'.Plain ∧ pc'.fresh = [] ∧ (k.Fits o → pc'.Fits o') ∧
      ∀ f, held o' pc'.unbacked pc'.tokens f = held o k.unbacked k.tokens f := by
  cases k with
  | ret => exact ⟨o, .user, rfl, ⟨rfl, rfl, rfl⟩, rfl, fun _ => trivial, fun _ => rfl⟩
  | close f => exact ⟨o, .close f .ret, rfl, ⟨rfl, rfl, rfl⟩, rfl, fun _ => trivial, fun _ => rfl⟩
  | exit fd fds =>
    refine ⟨update o fd none, .exit fds, rfl, ⟨rfl, rfl, rfl⟩, rfl, fun hk e => ?_, fun _ => rfl⟩
    exact update_cases (fun _ => rfl) (fun e hfd he => hk e hfd he) e

theorem filealloc_ref {file : Fptr → File} (h : filealloc file = some f) : (file f).ref = 0 := by
  have hf := (Fin.find?_eq_some_iff.mp h).1
  exact beq_iff_eq.mp hf

theorem fdalloc_none (h : fdalloc o = some fd) : o fd = none := isNone_iff_eq_none.mp (Fin.find?_eq_some_iff.mp h).1

theorem File.ending_of_none {ff : File} (h : ff.type = .none) : ff.ending = none := by
  unfold File.ending
  rw [h]
  rfl

section

variable (h : Inv s)
include h

theorem Inv.at_pc (hpc : (s.task p).pc = pc) (hne : pc ≠ .user) : ∃ o, s.task p = ⟨.live, o, pc⟩ ∧ pc.Fits o := by
  have hlocal := h.tasks p
  generalize s.task p = x at hpc hlocal
  obtain ⟨life, o, pc1⟩ := x
  cases hpc
  have hlive : life = .live := by
    by_contra hlife
    exact hne (hlocal.user hlife)
  rw [hlive]
  exact ⟨o, rfl, hlocal.fits⟩

theorem Inv.touch (hx : s.task p = x) {ff : File} (hledger : ff.ref + (x.share f : Int) = (s.file f).ref + (x'.share f : Int))
    (hrest : ∀ g, g ≠ f → x'.share g = x.share g) (htouch : ∀ q, q ≠ p → f ∉ (s.task q).pc.fresh)
    (hidle : ff.ref = 0 → ff.type = .none) (hfresh : f ∈ x'.pc.fresh → ff.ref = 1 ∧ ff.type = .none)
    (hold : ∀ g ∈ x'.pc.fresh, g ≠ f → g ∈ x.pc.fresh) (hlocal : x'.Local) (hforks : Forks (update s.task p x'))
    (hends : ∀ e, (if ff.ending = some e then 1 else 0) + (if x'.pc.ending = some e then 1 else 0) =
      (if (s.file f).ending = some e then 1 else 0) + if x.pc.ending = some e then 1 else 0)
    (hfreeing : x'.pc.freeing = x.pc.freeing) : Inv ((s.setFile f ff).setTask p x') := by
  show Inv ⟨update s.task p x', update s.file f ff, s.mem, s.panic⟩
  refine h.frame hx (fun g => ?_) (fun g => ?_) (fun g => ?_) (fun g => ?_) hlocal hforks (fun e => ?_) (fun pg => ?_)
  · refine update_cases hledger (fun g hg => ?_) g
    rw [hrest g hg]
  · exact update_cases (fun _ => htouch) (fun g _ hne => absurd rfl hne) g
  · exact update_cases hidle (fun g _ => h.idle g) g
  · refine update_cases hfresh (fun g hne hg => h.fresh p g ?_) g
    rw [hx]
    exact hold g hg hne
  · have hcount := Lib.count_update (P := fun ff : File => ff.ending = some e) (f := s.file) f ff
    have he := hends e
    omega
  · rw [hfreeing]

theorem Inv.gain (hx : s.task p = x) (hshare : ∀ g, x'.share g = x.share g + if f = g then 1 else 0)
    (htouch : ∀ q, q ≠ p → f ∉ (s.task q).pc.fresh) (hfresh : f ∈ x'.pc.fresh → (s.file f).ref = 0)
    (hold : ∀ g ∈ x'.pc.fresh, g ≠ f → g ∈ x.pc.fresh) (hlocal : x'.Local) (hforks : Forks (update s.task p x'))
    (hending : x'.pc.ending = x.pc.ending) (hfreeing : x'.pc.freeing = x.pc.freeing) :
    Inv ((s.setFile f { s.file f with ref := (s.file f).ref + 1 }).setTask p x') := by
  have hle := h.share_le p f
  refine h.touch hx ?_ (fun g hg => ?_) htouch (fun hzero => ?_) (fun hf => ?_) hold hlocal hforks (fun e => ?_) hfreeing
  · rw [hshare, if_pos rfl]
    dsimp only
    omega
  · rw [hshare, if_neg (Ne.symm hg), Nat.add_zero]
  · dsimp only at hzero
    omega
  · exact ⟨by rw [hfresh hf]; rfl, h.idle f (hfresh hf)⟩
  · rw [hending]
    rfl

theorem Inv.forks_live (hx : s.task p = ⟨.live, o, pc⟩) (hold : pc.claims = none) (hnew : pc'.claims = none) :
    Forks (update s.task p ⟨.live, o', pc'⟩) :=
  h.forks.plain (by simp [hx]) (fun hu => (by cases hu)) (by rwa [hx]) hnew

theorem Inv.plain (hx : s.task p = ⟨.live, o, pc⟩) (hfits : pc'.Fits o') (hfresh : pc'.fresh = [])
    (hshare : ∀ f, held o' pc'.unbacked pc'.tokens f = held o pc.unbacked pc.tokens f)
    (hnew : pc'.Plain := by exact ⟨rfl, rfl, rfl⟩) (hold : pc.Plain := by exact ⟨rfl, rfl, rfl⟩) :
    Inv (s.setTask p ⟨.live, o', pc'⟩) := by
  refine h.quiet hx hshare ?_ (Task.live_local hfits) (h.forks_live hx hold.1 hnew.1) (hnew.2.1.trans hold.2.1.symm)
    (hnew.2.2.trans hold.2.2.symm)
  show pc'.fresh ⊆ _
  rw [hfresh]
  exact nil_subset _

theorem Inv.alloc (hf : filealloc s.file = some f) (hx : s.task p = ⟨.live, o, pc⟩) (hfits : pc'.Fits o)
    (hunbacked : pc'.unbacked = pc.unbacked) (htokens : pc'.tokens = pc.tokens ++ [f]) (hfresh : pc'.fresh = pc.fresh ++ [f])
    (hnew : pc'.Plain := by exact ⟨rfl, rfl, rfl⟩) (hold : pc.Plain := by exact ⟨rfl, rfl, rfl⟩) :
    Inv ((s.setFile f { s.file f with ref := 1 }).setTask p ⟨.live, o, pc'⟩) := by
  have hzero := filealloc_ref hf
  have hone : ({ s.file f with ref := 1 } : File) = { s.file f with ref := (s.file f).ref + 1 } := by
    rw [hzero]
    rfl
  rw [hone]
  refine h.gain hx (fun g => ?_) (fun q _ => h.not_fresh_of_free hzero q) (fun _ => hzero) (fun g hg hne => ?_)
    (Task.live_local hfits) (h.forks_live hx hold.1 hnew.1) (hnew.2.1.trans hold.2.1.symm) (hnew.2.2.trans hold.2.2.symm)
  · show held o pc'.unbacked pc'.tokens g = held o pc.unbacked pc.tokens g + _
    rw [hunbacked, htokens]
    unfold held
    rw [count_append, count_singleton]
    simp only [beq_iff_eq]
    omega
  · dsimp only at hg ⊢
    rw [hfresh] at hg
    exact (mem_append.mp hg).resolve_right fun hmem => hne (mem_singleton.mp hmem)

theorem Inv.install (hx : s.task p = ⟨.live, o, .opened f⟩) (hfd : fdalloc o = some fd) {type : FileType} (htype : type ≠ .pipe)
    (writable : Bool) : Inv ((s.setFile f { s.file f with type := type, writable := writable }).setTask p
      ⟨.live, update o fd (some f), .user⟩) := by
  obtain ⟨hone, hnone⟩ := h.fresh p f (by rw [hx]; exact mem_singleton_self f)
  have hshare : ∀ g, held (update o fd (some f)) none [] g = held o none [f] g := by
    intro g
    rw [held_enter (fdalloc_none hfd), held_cons]
  refine h.touch hx ?_ (fun g _ => hshare g) (h.not_fresh hx (held_pos_of_mem (mem_singleton_self f)))
    (fun hzero => absurd (hone.symm.trans hzero) Int.one_ne_zero) (fun hmem => absurd hmem not_mem_nil)
    (fun g hg => absurd hg not_mem_nil) (Task.live_local trivial) (h.forks_live hx rfl rfl) (fun e => ?_) rfl
  · exact congrArg (fun n : Nat => (s.file f).ref + (n : Int)) (hshare f).symm
  · have hend : ({ s.file f with type := type, writable := writable } : File).ending = none := if_neg htype
    rw [File.ending_of_none hnone, hend]
    rfl

theorem Inv.counted (hx : s.task p = ⟨.live, o, .dup fd f⟩) (hfits : Pc.Fits o (.dup fd f)) :
    1 ≤ (s.file f).ref ∧ Inv ((s.setFile f { s.file f with ref := (s.file f).ref + 1 }).setTask p ⟨.live, o, .user⟩) := by
  obtain ⟨hfd, e, hne, he⟩ := hfits
  have hentry : backed (update o fd none) none e = some f := (update_of_ne hne ..).trans he
  have hpos : 0 < held o (some fd) [] f := held_pos hentry
  have hle := h.share_le p f
  rw [hx] at hle
  refine ⟨Int.le_trans (Int.ofNat_le.mpr hpos) hle, h.gain hx (fun g => (held_clear hfd).symm) (h.not_fresh hx hpos)
    (fun hmem => absurd hmem not_mem_nil) (fun g hg => absurd hg not_mem_nil) (Task.live_local trivial)
    (h.forks_live hx rfl rfl) rfl rfl⟩

theorem Inv.fork_ne (hx : s.task p = ⟨.live, o, .fork np fds⟩) : p ≠ np := by
  rintro rfl
  have hclaim := h.forks.claim p
  rw [hx] at hclaim
  have hunused := hclaim.1
  rw [hx] at hunused
  cases hunused

theorem Inv.inherited (hx : s.task p = ⟨.live, o, .fork np fds⟩) (hfd : fd ∉ fds) (hp : o fd = some f)
    (hnp : (s.task np).ofile fd = none) : 1 ≤ (s.file f).ref ∧
      Inv ((s.setFile f { s.file f with ref := (s.file f).ref + 1 }).setTask np ((s.task np).setFd fd (some f))) := by
  have hclaim := h.forks.claim p
  rw [hx] at hclaim
  obtain ⟨hlife, -⟩ := hclaim
  have huser : (s.task np).pc = .user := (h.tasks np).user (by rw [hlife]; decide)
  have hforks := h.forks.enter (f := f) (by rw [hx]) hfd
  generalize hchild : s.task np = x at hlife huser hnp hforks ⊢
  obtain ⟨life, o1, pc1⟩ := x
  cases hlife
  cases huser
  have hpos : 0 < held o none [] f := held_pos (show backed o none fd = some f from hp)
  have hle := h.share_le p f
  rw [hx] at hle
  refine ⟨Int.le_trans (Int.ofNat_le.mpr hpos) hle, h.gain hchild (fun g => held_enter hnp) (fun q _ => ?_)
    (fun hmem => absurd hmem not_mem_nil) (fun g hg => absurd hg not_mem_nil)
    ⟨fun _ => rfl, fun hz => (by cases hz), trivial⟩ hforks rfl rfl⟩
  by_cases hqp : q = p
  · rw [hqp, hx]
    exact not_mem_nil
  · exact h.not_fresh hx hpos q hqp

theorem Inv.closed (hx : s.task p = ⟨.live, o, .close f k⟩) (hfits : k.Fits o) : Inv (s.fileclose p f k) := by
  have hold : ∀ g, held o k.unbacked (f :: k.tokens) g = held o k.unbacked k.tokens g + if f = g then 1 else 0 := fun g => held_cons
  have hpos : 0 < held o k.unbacked (f :: k.tokens) f := held_pos_of_mem mem_cons_self
  have hle := h.share_le p f
  rw [hx] at hle
  have hle' : (held o k.unbacked (f :: k.tokens) f : Int) ≤ (s.file f).ref := hle
  -- after the call the process holds what the rest of the call holds
  have hmove : ∀ {o' : Fd → Option Fptr} {pc' : Pc} {ff : File},
      (∀ g, held o' pc'.unbacked pc'.tokens g = held o k.unbacked k.tokens g) → ff.ref = (s.file f).ref - 1 →
      (ff.ref = 0 → ff.type = .none) → pc'.fresh = [] → pc'.Fits o' → pc'.claims = none → pc'.freeing = none →
      (∀ e, (if ff.ending = some e then 1 else 0) + (if pc'.ending = some e then 1 else 0) =
        if (s.file f).ending = some e then 1 else 0) → Inv ((s.setFile f ff).setTask p ⟨.live, o', pc'⟩) := by
    intro o' pc' ff hshare href hidle hfresh hfits' hclaims hfreeing hends
    refine h.touch hx ?_ (fun g hg => ?_) (h.not_fresh hx hpos) hidle (fun hmem => ?_) (fun g hg => ?_)
      (Task.live_local hfits') (h.forks_live hx rfl hclaims) hends hfreeing
    · show ff.ref + (held o k.unbacked (f :: k.tokens) f : Int) = (s.file f).ref + (held o' pc'.unbacked pc'.tokens f : Int)
      rw [hshare, hold, if_pos rfl, href]
      omega
    · show held o' pc'.unbacked pc'.tokens g = held o k.unbacked (f :: k.tokens) g
      rw [hshare, hold, if_neg (Ne.symm hg), Nat.add_zero]
    · dsimp only at hmem
      rw [hfresh] at hmem
      exact absurd hmem not_mem_nil
    · dsimp only at hg
      rw [hfresh] at hg
      exact absurd hg not_mem_nil
  obtain ⟨o1, pc1, hresume, ⟨hclaims, hending, hfreeing⟩, hfresh, hfits1, hshare⟩ := Task.resume_live o (.close f k) k
  have hresumed : ∀ {ff : File}, ff.ref = (s.file f).ref - 1 → (ff.ref = 0 → ff.type = .none) →
      ff.ending = (s.file f).ending → Inv ((s.setFile f ff).setTask p ⟨.live, o1, pc1⟩) := by
    intro ff href hidle hend
    refine hmove hshare href hidle hfresh (hfits1 hfits) hclaims hfreeing fun e => ?_
    rw [hending, hend]
    rfl
  unfold State.fileclose
  dsimp only
  rw [if_neg (by omega)]
  by_cases hmany : (s.file f).ref - 1 > 0
  · rw [if_pos hmany, hx, hresume]
    exact hresumed rfl (fun hzero => absurd hzero (by dsimp only; omega)) rfl
  rw [if_neg hmany]
  have hone : (0 : Int) = (s.file f).ref - 1 := by omega
  have hsame : (s.setFile f { s.file f with ref := 0, type := .none }).task p = ⟨.live, o, .close f k⟩ := hx
  rw [hsame]
  cases htype : (s.file f).type with
  | none =>
    rw [hresume]
    exact hresumed hone (fun _ => rfl) (by rw [File.ending_of_none htype]; rfl)
  | pipe =>
    refine hmove (fun g => rfl) hone (fun _ => rfl) rfl hfits rfl rfl fun e => ?_
    have hend : (s.file f).ending = some ((s.file f).pipe, (s.file f).writable) := if_pos htype
    rw [hend, Nat.add_comm]
    rfl
  | inode | device =>
    refine hmove (fun g => rfl) hone (fun _ => rfl) rfl hfits rfl rfl fun e => ?_
    have hend : (s.file f).ending = none := if_neg (by rw [htype]; decide)
    rw [hend]
    rfl

/-- The two files of `pipealloc` are different ones: a file with two tokens would count two. -/
theorem Inv.pair_ne (hx : s.task p = ⟨.live, o, .pipe2 f g⟩) : g ≠ f := by
  rintro rfl
  have hone := (h.fresh p g (by rw [hx]; exact mem_cons_self)).1
  have hle := h.share_le p g
  rw [hx] at hle
  have hle' : (held o none [g, g] g : Int) ≤ (s.file g).ref := hle
  rw [held_cons, held_cons, if_pos rfl] at hle'
  omega

theorem Inv.piped (hx : s.task p = ⟨.live, o, .pipe2 f g⟩) (hfree : s.mem pg = .free) :
    Inv ⟨update s.task p ⟨.live, o, .pipe3 f g⟩,
      update (update s.file f { s.file f with type := .pipe, pipe := pg, writable := false }) g
        { s.file g with type := .pipe, pipe := pg, writable := true },
      update s.mem pg (.pipe true true), s.panic⟩ := by
  obtain ⟨hfone, hfnone⟩ := h.fresh p f (by rw [hx]; exact mem_cons_self)
  obtain ⟨hgone, hgnone⟩ := h.fresh p g (by rw [hx]; exact mem_cons_of_mem _ mem_cons_self)
  have hcases : ∀ e : Fptr → File → Prop, (∀ q, q ≠ f → q ≠ g → e q (s.file q)) →
      e f { s.file f with type := .pipe, pipe := pg, writable := false } →
      e g { s.file g with type := .pipe, pipe := pg, writable := true } →
      ∀ q, e q (update (update s.file f { s.file f with type := .pipe, pipe := pg, writable := false }) g
        { s.file g with type := .pipe, pipe := pg, writable := true } q) := by
    intro e hrest hf hg q
    refine update_cases hg (fun q => ?_) q
    exact update_cases (fun _ => hf) hrest q
  refine h.frame hx (hcases (fun q ff => ff.ref + (held o none [f, g] q : Int) = (s.file q).ref + (held o none [f, g] q : Int))
      (fun _ _ _ => rfl) rfl rfl)
    (hcases (fun q ff => ff ≠ s.file q → ∀ r, r ≠ p → q ∉ (s.task r).pc.fresh) (fun q _ _ hne => absurd rfl hne)
      (fun _ => h.not_fresh hx (held_pos_of_mem mem_cons_self))
      (fun _ => h.not_fresh hx (held_pos_of_mem (mem_cons_of_mem _ mem_cons_self))))
    (hcases (fun _ ff => ff.ref = 0 → ff.type = .none) (fun q _ _ => h.idle q)
      (fun hzero => absurd (hfone.symm.trans hzero) Int.one_ne_zero) (fun hzero => absurd (hgone.symm.trans hzero) Int.one_ne_zero))
    (fun q hq => absurd hq not_mem_nil) (Task.live_local trivial) (h.forks_live hx rfl rfl) (fun e => ?_) (fun q => ?_)
  · have hf := Lib.count_update (P := fun ff : File => ff.ending = some e) (f := s.file) f
      { s.file f with type := .pipe, pipe := pg, writable := false }
    have hg := Lib.count_update (P := fun ff : File => ff.ending = some e)
      (f := update s.file f { s.file f with type := .pipe, pipe := pg, writable := false }) g
      { s.file g with type := .pipe, pipe := pg, writable := true }
    rw [update_of_ne (h.pair_ne hx), File.ending_of_none hgnone] at hg
    rw [File.ending_of_none hfnone] at hf
    have hfend : ({ s.file f with type := .pipe, pipe := pg, writable := false } : File).ending = some (pg, false) := rfl
    have hgend : ({ s.file g with type := .pipe, pipe := pg, writable := true } : File).ending = some (pg, true) := rfl
    rw [hfend] at hf
    rw [hgend] at hg
    obtain ⟨q, w⟩ := e
    simp only [some.injEq, Prod.mk.injEq, reduceCtorEq, if_false, Pc.ending] at hf hg ⊢
    by_cases hq : q = pg
    · subst hq
      rw [update_self, hfree]
      cases w with
      | false | true =>
        simp only [Frame.isOpen, Bool.toNat_true, Bool.toNat_false, and_true, if_true, reduceCtorEq, and_false, if_false] at hf hg ⊢
        omega
    · rw [update_of_ne hq]
      simp only [Ne.symm hq, false_and, if_false] at hf hg
      omega
  · refine update_cases ?_ (fun q _ => rfl) q
    rw [hfree]
    rfl

theorem Inv.enterPipe (hx : s.task p = ⟨.live, o, .pipe3 f g⟩) (copied : Bool) :
    Inv (s.setTask p (Task.enterPipe ⟨.live, o, .pipe3 f g⟩ f g copied)) := by
  -- a table that is back to what it was
  have hback : ∀ o', o' = o → Inv (s.setTask p ⟨.live, o', .close f (.close g)⟩) := by
    rintro o' rfl
    exact h.plain hx trivial rfl fun _ => rfl
  unfold Task.enterPipe
  cases hfd0 : fdalloc o with
  | none => exact hback _ rfl
  | some fd0 =>
    have hnone0 := fdalloc_none hfd0
    dsimp only [Task.setFd]
    cases hfd1 : fdalloc (update o fd0 (some f)) with
    | none =>
      refine hback _ ?_
      rw [update_idem, ← hnone0, update_eq_self]
    | some fd1 =>
      have hnone1 := fdalloc_none hfd1
      have hne : fd1 ≠ fd0 := by
        rintro rfl
        rw [update_self] at hnone1
        cases hnone1
      cases copied with
      | true =>
        refine h.plain hx trivial rfl fun q => ?_
        show held (update (update o fd0 (some f)) fd1 (some g)) none [] q = held o none [f, g] q
        rw [held_enter hnone1, held_enter hnone0, held_cons, held_cons]
        omega
      | false =>
        refine hback _ ?_
        rw [update_of_ne hne] at hnone1
        rw [update_comm hne, update_idem, update_idem, ← hnone0, update_eq_self, hnone0, ← hnone1, update_eq_self]

theorem Inv.open_of_ending {e : Page × Bool} (hpc : (s.task p).pc.ending = some e) : (s.mem e.1).isOpen e.2 = true := by
  have hne : count (fun x : Task => x.pc.ending = some e) s.task ≠ 0 := fun hzero => Lib.count_eq_zero.mp hzero p hpc
  have hends := h.ends e
  unfold Ftable.ends at hends
  cases hopen : (s.mem e.1).isOpen e.2 with
  | true => rfl
  | false =>
    rw [hopen, Bool.toNat_false] at hends
    omega

/-- A page that somebody is about to free is a pipe with both ends closed. -/
theorem Inv.closed_of_freeing (hpc : (s.task p).pc.freeing = some pg) : s.mem pg = .pipe false false := by
  have hne : count (fun x : Task => x.pc.freeing = some pg) s.task ≠ 0 := fun hzero => Lib.count_eq_zero.mp hzero p hpc
  have hclosers := h.closers pg
  unfold Ftable.closers at hclosers
  cases hmem : s.mem pg with
  | free | other =>
    rw [hmem] at hclosers
    exact absurd hclosers hne
  | pipe r w =>
    rw [hmem] at hclosers
    cases r <;> cases w <;> first | rfl | exact absurd hclosers hne

theorem Inv.remap {y : Frame} (hx : s.task p = ⟨.live, o, pc⟩) (hold : pc.claims = none) (hnew : pc'.claims = none)
    (hfits : pc'.Fits o') (hfresh : pc'.fresh = [])
    (hshare : ∀ f, held o' pc'.unbacked pc'.tokens f = held o pc.unbacked pc.tokens f)
    (hending : ∀ e, (if pc'.ending = some e then 1 else 0) + ((s.mem e.1).isOpen e.2).toNat =
      (if pc.ending = some e then 1 else 0) + ((update s.mem pg y e.1).isOpen e.2).toNat)
    (hclosers : ∀ q, (if pc'.freeing = some q then 1 else 0) + (s.mem q).isClosed.toNat =
      (if pc.freeing = some q then 1 else 0) + (update s.mem pg y q).isClosed.toNat) :
    Inv ((s.setFrame pg y).setTask p ⟨.live, o', pc'⟩) := by
  show Inv ⟨update s.task p ⟨.live, o', pc'⟩, s.file, update s.mem pg y, s.panic⟩
  refine h.frame hx (fun f => ?_) (fun f hne => absurd rfl hne) h.idle (fun f hf => ?_) (Task.live_local hfits)
    (h.forks_live hx hold hnew) (fun e => ?_) hclosers
  · exact congrArg (fun n : Nat => (s.file f).ref + (n : Int)) (hshare f).symm
  · dsimp only at hf
    rw [hfresh] at hf
    exact absurd hf not_mem_nil
  · have he := hending e
    dsimp only
    omega

theorem Inv.pipeclosed {w : Bool} (hx : s.task p = ⟨.live, o, .pipeclose pg w k⟩) (hfits : k.Fits o) :
    Inv (s.pipeclose p pg w k) := by
  have hopen := h.open_of_ending (p := p) (e := (pg, w)) (by rw [hx]; rfl)
  -- the page after it: this end is closed, the other as it was, and who is to free it
  have hmove : ∀ {o' : Fd → Option Fptr} {pc' : Pc} {y : Frame}, y.isOpen w = false →
      y.isOpen (!w) = (s.mem pg).isOpen (!w) → (s.mem pg).isClosed = false → pc'.claims = none → pc'.Fits o' → pc'.fresh = [] →
      (∀ q, held o' pc'.unbacked pc'.tokens q = held o k.unbacked k.tokens q) → pc'.ending = none →
      pc'.freeing = (if y.isClosed then some pg else none) → Inv ((s.setFrame pg y).setTask p ⟨.live, o', pc'⟩) := by
    intro o' pc' y hthis hother hclosed hclaims hfits' hfresh hshare hending hfreeing
    refine h.remap hx rfl hclaims hfits' hfresh hshare (fun e => ?_) (fun q => ?_)
    · obtain ⟨q, v⟩ := e
      rw [hending]
      simp only [Pc.ending, some.injEq, Prod.mk.injEq, reduceCtorEq, if_false]
      refine update_cases ?_ (fun q hq => ?_) q
      · by_cases hv : v = w
        · subst hv
          simp [hopen, hthis]
        · have hnot : v = !w := Bool.eq_not_of_ne hv
          subst hnot
          simp [hother]
      · simp [Ne.symm hq]
    · rw [hfreeing]
      refine update_cases ?_ (fun q hq => ?_) q
      · rw [hclosed]
        cases y.isClosed <;> simp [Pc.freeing]
      · cases y.isClosed <;> simp [Pc.freeing, Ne.symm hq]
  obtain ⟨o1, pc1, hresume, ⟨hclaims, hending, hfreeing⟩, hfresh, hfits1, hshare⟩ := Task.resume_live o (.pipeclose pg w k) k
  have hlast : ∀ {y : Frame}, y.isOpen w = false → y.isOpen (!w) = (s.mem pg).isOpen (!w) → (s.mem pg).isClosed = false →
      y.isClosed = true → Inv ((s.setFrame pg y).setTask p ⟨.live, o, .kfree pg k⟩) := fun hthis hother hclosed hy =>
    hmove hthis hother hclosed rfl hfits rfl (fun _ => rfl) rfl (by rw [hy]; rfl)
  have hfirst : ∀ {y : Frame}, y.isOpen w = false → y.isOpen (!w) = (s.mem pg).isOpen (!w) → (s.mem pg).isClosed = false →
      y.isClosed = false → Inv ((s.setFrame pg y).setTask p ⟨.live, o1, pc1⟩) := fun hthis hother hclosed hy =>
    hmove hthis hother hclosed hclaims (hfits1 hfits) hfresh hshare hending (by rw [hy, hfreeing]; rfl)
  unfold State.pipeclose
  cases hmem : s.mem pg with
  | free | other =>
    rw [hmem] at hopen
    cases w <;> cases hopen
  | pipe r wo =>
    have hsame : ∀ y, (s.setFrame pg y).task p = ⟨.live, o, .pipeclose pg w k⟩ := fun _ => hx
    dsimp only
    rw [hsame, hresume]
    rw [hmem] at hopen hlast hfirst
    cases w with
    | false =>
      cases hopen
      cases wo with
      | false => exact hlast rfl rfl rfl rfl
      | true => exact hfirst rfl rfl rfl rfl
    | true =>
      cases hopen
      cases r with
      | false => exact hlast rfl rfl rfl rfl
      | true => exact hfirst rfl rfl rfl rfl

theorem Inv.freed (hx : s.task p = ⟨.live, o, .kfree pg k⟩) (hfits : k.Fits o) :
    Inv ((s.setFrame pg .free).setTask p (Task.resume ⟨.live, o, .kfree pg k⟩ k)) := by
  have hpc : (s.task p).pc.freeing = some pg := by rw [hx]; rfl
  have hmem := h.closed_of_freeing hpc
  obtain ⟨o1, pc1, hresume, ⟨hclaims, hending, hfreeing⟩, hfresh, hfits1, hshare⟩ := Task.resume_live o (.kfree pg k) k
  rw [hresume]
  refine h.remap hx rfl hclaims (hfits1 hfits) hfresh hshare (fun e => ?_) (fun q => ?_)
  · rw [hending]
    by_cases he : e.1 = pg
    · rw [he, update_self, hmem]
      cases e.2 <;> rfl
    · rw [update_of_ne he]
      rfl
  rw [hfreeing]
  refine update_cases ?_ (fun q hq => ?_) q
  · rw [hmem]
    simp [Pc.freeing, Frame.isClosed]
  · simp [Pc.freeing, Ne.symm hq]

end

theorem Forks.born {task : Slot → Task} (h : Forks task) (hx : task p = ⟨.live, o, .fork np []⟩) :
    Forks (update (update task np { task np with life := .live }) p ⟨.live, o, .user⟩) := by
  have hclaims : (task p).pc.claims = some np := by rw [hx]; rfl
  have hpcs : ∀ q, (update (update task np { task np with life := .live }) p ⟨.live, o, .user⟩ q).pc =
      if q = p then .user else (task q).pc := by
    intro q
    refine update_cases ?_ (fun q hq => ?_) q
    · rw [if_pos rfl]
    · rw [if_neg hq]
      exact update_cases rfl (fun _ _ => rfl) q
  refine ⟨fun q => ?_, fun q r mp hq hr => ?_, fun q => ?_⟩
  · rw [hpcs]
    by_cases hq : q = p
    · rw [if_pos hq]
      trivial
    rw [if_neg hq]
    refine (h.claim q).congr fun mp hmp => ?_
    have hmp_np : mp ≠ np := by
      rintro rfl
      exact hq (h.lone q p mp hmp hclaims)
    have hmp_p : mp ≠ p := by
      rintro rfl
      have hunused := (h.claim q).unused hmp
      rw [hx] at hunused
      cases hunused
    rw [update_of_ne hmp_p, update_of_ne hmp_np]
  · rw [hpcs] at hq hr
    by_cases hqp : q = p
    · rw [if_pos hqp] at hq
      cases hq
    by_cases hrp : r = p
    · rw [if_pos hrp] at hr
      cases hr
    · rw [if_neg hqp] at hq
      rw [if_neg hrp] at hr
      exact h.lone q r mp hq hr
  refine update_cases (fun hq => (by cases hq)) (fun q _ => ?_) q
  refine update_cases (fun hq => (by cases hq)) (fun q hqn hq hfree => ?_) q
  refine h.blank q hq fun r => ?_
  have hr := hfree r
  rw [hpcs] at hr
  by_cases hrp : r = p
  · rw [hrp, hclaims]
    exact fun heq => hqn (some.inj heq).symm
  · rwa [if_neg hrp] at hr

theorem Inv.born (h : Inv s) (hx : s.task p = ⟨.live, o, .fork np []⟩) :
    Inv ((s.setTask np { s.task np with life := .live }).setTask p ⟨.live, o, .user⟩) := by
  have hclaim := h.forks.claim p
  rw [hx] at hclaim
  have huser : (s.task np).pc = .user := (h.tasks np).user (by rw [hclaim.1]; decide)
  have hcases : ∀ {P : Slot → Task → Prop}, P p ⟨.live, o, .user⟩ → P np { s.task np with life := .live } →
      (∀ q, P q (s.task q)) → ∀ q, P q (update (update s.task np { s.task np with life := .live }) p ⟨.live, o, .user⟩ q) := by
    intro P hp hnew hrest q
    refine update_cases hp (fun q _ => ?_) q
    exact update_cases hnew (fun q _ => hrest q) q
  have hlocal : Task.Local { s.task np with life := .live } := by
    refine Task.live_local ?_
    rw [huser]
    trivial
  refine h.relabel (hcases (P := fun q x => ∀ f, x.share f = (s.task q).share f) (fun f => ?_) (fun _ => rfl) fun _ _ => rfl)
    (hcases (P := fun q x => x.pc.fresh ⊆ (s.task q).pc.fresh) (nil_subset _) (List.Subset.refl _) fun _ => List.Subset.refl _)
    (hcases (P := fun _ x => x.Local) (Task.live_local trivial) hlocal h.tasks) (h.forks.born hx)
    (hcases (P := fun q x => x.pc.ending = (s.task q).pc.ending) ?_ rfl fun _ => rfl)
    (hcases (P := fun q x => x.pc.freeing = (s.task q).pc.freeing) ?_ rfl fun _ => rfl)
  · rw [hx]
    rfl
  · rw [hx]
    rfl
  · rw [hx]
    rfl

/-! ## The steps -/

theorem Inv.forkOn (h : Inv s) (hx : s.task p = ⟨.live, o, pc⟩) (hpc : pc.claims = some np)
    (hplain : pc.ending = none ∧ pc.freeing = none ∧ pc.unbacked = none ∧ pc.tokens = [])
    (hclaim : Pc.Claim s.task (.fork np fds)) : Inv (s.setTask p ⟨.live, o, .fork np fds⟩) := by
  have hclaims : (s.task p).pc.claims = some np := by rwa [hx]
  refine h.quiet hx (fun f => ?_) (nil_subset _) (Task.live_local trivial) ?_ hplain.1.symm hplain.2.1.symm
  · show held o none [] f = held o pc.unbacked pc.tokens f
    rw [hplain.2.2.1, hplain.2.2.2]
  refine h.forks.move (by simp [hx]) (fun hu => (by cases hu)) hclaim (fun q mp hq hmp hqm => ?_) (fun mp hmp hne => ?_)
  · cases hmp
    exact hq (h.forks.lone q p np hqm hclaims)
  · rw [hclaims] at hmp
    exact absurd hmp hne

section Advance

variable {s' : State} {i : Input} (h : Inv s)
include h

theorem Inv.advance_opened (hx : s.task p = ⟨.live, o, .opened f⟩) (hs : Ftable.advance s p (.opened f) i = some s') : Inv s' := by
  cases i with
  | inode device writable =>
    have htype : (if device then FileType.device else .inode) ≠ .pipe := by cases device <;> decide
    dsimp only [Ftable.advance] at hs
    rw [hx] at hs
    split at hs
    · cases hs
      exact h.plain hx trivial rfl fun _ => rfl
    · rename_i fd hfd
      cases hs
      exact h.install hx hfd htype writable
  | _ => cases hs

theorem Inv.advance_dup (hx : s.task p = ⟨.live, o, .dup fd f⟩) (hfits : Pc.Fits o (.dup fd f))
    (hs : Ftable.advance s p (.dup fd f) i = some s') : Inv s' := by
  cases i with
  | go =>
    obtain ⟨hone, hinv⟩ := h.counted hx hfits
    dsimp only [Ftable.advance, State.filedup, State.setFile] at hs
    rw [if_neg (Int.not_lt.mpr hone), hx] at hs
    cases hs
    exact hinv
  | _ => cases hs

theorem Inv.advance_pipe1 (hx : s.task p = ⟨.live, o, .pipe1 f⟩) (hs : Ftable.advance s p (.pipe1 f) i = some s') : Inv s' := by
  cases i with
  | go =>
    dsimp only [Ftable.advance] at hs
    rw [hx] at hs
    split at hs
    · cases hs
      exact h.plain hx trivial rfl fun _ => rfl
    · cases hs
      exact h.alloc ‹_› hx trivial rfl rfl rfl
  | _ => cases hs

theorem Inv.advance_pipe2 (hx : s.task p = ⟨.live, o, .pipe2 f g⟩) (hs : Ftable.advance s p (.pipe2 f g) i = some s') :
    Inv s' := by
  cases i with
  | page q =>
    cases q with
    | none =>
      dsimp only [Ftable.advance] at hs
      rw [hx] at hs
      cases hs
      exact h.plain hx trivial rfl fun _ => rfl
    | some pg =>
      dsimp only [Ftable.advance] at hs
      split at hs
      · rename_i hfree
        have hsame : update s.file f { s.file f with type := .pipe, pipe := pg, writable := false } g = s.file g :=
          update_of_ne (h.pair_ne hx) ..
        have hinv := h.piped hx hfree
        rw [← hsame] at hinv
        dsimp only [State.setFrame, State.setFile] at hs
        rw [hx] at hs
        cases hs
        exact hinv
      · cases hs
  | _ => cases hs

theorem Inv.advance_uvmcopy (hx : s.task p = ⟨.live, o, .uvmcopy np⟩) (hs : Ftable.advance s p (.uvmcopy np) i = some s') :
    Inv s' := by
  have hclaim := h.forks.claim p
  rw [hx] at hclaim
  cases i with
  | ok b =>
    dsimp only [Ftable.advance] at hs
    rw [hx] at hs
    cases hs
    cases b with
    | false =>
      refine h.quiet hx (fun q => rfl) (nil_subset _) (Task.live_local trivial) ?_ rfl rfl
      refine h.forks.move (by simp [hx]) (fun hu => (by cases hu)) trivial (fun q mp _ hmp => ?_) (fun mp hmp _ => ?_)
      · cases hmp
      · rw [hx] at hmp
        cases hmp
        exact hclaim.2
    | true =>
      exact h.forkOn hx rfl ⟨rfl, rfl, rfl, rfl⟩ ⟨hclaim.1, nodup_finRange _, fun fd _ => hclaim.2 fd⟩
  | _ => cases hs

theorem Inv.advance_fork (hx : s.task p = ⟨.live, o, .fork np (fd :: fds)⟩)
    (hs : Ftable.advance s p (.fork np (fd :: fds)) i = some s') : Inv s' := by
  have hclaim := h.forks.claim p
  rw [hx] at hclaim
  obtain ⟨hunused, hnodup, hnone⟩ := hclaim
  rw [nodup_cons] at hnodup
  have hrest : Pc.Claim s.task (.fork np fds) := ⟨hunused, hnodup.2, fun e he => hnone e (mem_cons_of_mem _ he)⟩
  have hnext := h.forkOn hx rfl ⟨rfl, rfl, rfl, rfl⟩ hrest
  cases i with
  | go =>
    dsimp only [Ftable.advance] at hs
    rw [hx] at hs
    split at hs
    · cases hs
      exact hnext
    rename_i f hf
    have hnp : (s.setTask p ⟨.live, o, .fork np fds⟩).task np = s.task np := update_of_ne (h.fork_ne hx).symm ..
    obtain ⟨hone, hinv⟩ := hnext.inherited (update_self ..) hnodup.1 hf (by rw [hnp]; exact hnone fd mem_cons_self)
    dsimp only [State.filedup, Task.goto] at hs
    rw [if_neg (Int.not_lt.mpr hone)] at hs
    cases hs
    exact hinv
  | _ => cases hs

theorem Inv.advance_exit (hx : s.task p = ⟨.live, o, .exit fds⟩) (hfits : Pc.Fits o (.exit fds))
    (hs : Ftable.advance s p (.exit fds) i = some s') : Inv s' := by
  cases i with
  | go =>
    cases fds with
    | nil =>
      dsimp only [Ftable.advance] at hs
      rw [hx] at hs
      cases hs
      exact h.quiet hx (fun q => rfl) (nil_subset _) ⟨fun _ => rfl, fun _ fd => hfits fd not_mem_nil, trivial⟩
        (h.forks.plain (by simp [hx]) (fun hu => (by cases hu)) (by rw [hx]; rfl) rfl) rfl rfl
    | cons fd fds =>
      dsimp only [Ftable.advance] at hs
      rw [hx] at hs
      split at hs
      · rename_i hnone
        cases hs
        refine h.plain hx (fun e he => ?_) rfl fun _ => rfl
        by_cases hfd : e = fd
        · rw [hfd]
          exact hnone
        · exact hfits e (not_mem_cons_of_ne_of_not_mem hfd he)
      · rename_i f hf
        cases hs
        refine h.plain hx (fun e hfd he => hfits e (not_mem_cons_of_ne_of_not_mem hfd he)) rfl
          fun q => ?_
        show held (update o fd none) none [f] q = held o none [] q
        rw [held_cons, held_clear hf]
  | _ => cases fds <;> cases hs

theorem Inv.advance_iput (hx : s.task p = ⟨.live, o, .iput k⟩) (hfits : k.Fits o)
    (hs : Ftable.advance s p (.iput k) i = some s') : Inv s' := by
  obtain ⟨o1, pc1, hresume, hplain, hfresh, hfits1, hshare⟩ := Task.resume_live o (.iput k) k
  cases i with
  | go =>
    dsimp only [Ftable.advance] at hs
    rw [hx, hresume] at hs
    cases hs
    exact h.plain hx (hfits1 hfits) hfresh hshare hplain
  | _ => cases hs

theorem Inv.advance (hpc : (s.task p).pc = pc) (hs : Ftable.advance s p pc i = some s') : Inv s' := by
  by_cases hne : pc = .user
  · subst hne
    cases i <;> cases hs
  obtain ⟨o, hx, hfits⟩ := h.at_pc hpc hne
  cases pc with
  | user => exact absurd rfl hne
  | opened f => exact h.advance_opened hx hs
  | dup fd f => exact h.advance_dup hx hfits hs
  | pipe1 f => exact h.advance_pipe1 hx hs
  | pipe2 f g => exact h.advance_pipe2 hx hs
  | pipe3 f g =>
    cases i with
    | ok b =>
      dsimp only [Ftable.advance] at hs
      rw [hx] at hs
      cases hs
      exact h.enterPipe hx b
    | _ => cases hs
  | uvmcopy np => exact h.advance_uvmcopy hx hs
  | fork np fds =>
    cases fds with
    | nil =>
      cases i with
      | go =>
        have hsame : (s.setTask np { s.task np with life := .live }).task p = ⟨.live, o, .fork np []⟩ :=
          (update_of_ne (h.fork_ne hx) ..).trans hx
        dsimp only [Ftable.advance] at hs
        rw [hsame] at hs
        cases hs
        exact h.born hx
      | _ => cases hs
    | cons fd fds => exact h.advance_fork hx hs
  | exit fds => exact h.advance_exit hx hfits hs
  | close f k =>
    cases i with
    | go =>
      cases hs
      exact h.closed hx hfits
    | _ => cases hs
  | pipeclose pg w k =>
    cases i with
    | go =>
      cases hs
      exact h.pipeclosed hx hfits
    | _ => cases hs
  | kfree pg k =>
    cases i with
    | go =>
      dsimp only [Ftable.advance] at hs
      rw [hx] at hs
      cases hs
      exact h.freed hx hfits
    | _ => cases hs
  | iput k => exact h.advance_iput hx hfits hs

end Advance

theorem Inv.call (h : Inv s) {s' : State} {e : Event} (hready : s.Ready p) (hs : Ftable.call s p e = some s') : Inv s' := by
  have hx : s.task p = ⟨.live, (s.task p).ofile, .user⟩ := by rw [← hready.1, ← hready.2]
  generalize (s.task p).ofile = o at hx
  cases e with
  | «open» _ | pipe _ =>
    dsimp only [Ftable.call] at hs
    rw [hx] at hs
    split at hs
    · cases hs
      exact h
    · cases hs
      exact h.alloc ‹_› hx trivial rfl rfl rfl
  | dup _ fd =>
    dsimp only [Ftable.call] at hs
    rw [hx] at hs
    split at hs
    · cases hs
    rename_i f hf
    split at hs
    · cases hs
      exact h
    rename_i fd' hfd'
    have hnone := fdalloc_none hfd'
    have hne : fd ≠ fd' := by
      rintro rfl
      rw [hnone] at hf
      cases hf
    cases hs
    refine h.plain hx ⟨update_self .., fd, hne, (update_of_ne hne ..).trans hf⟩ rfl fun q => ?_
    show held (update (update o fd' (some f)) fd' none) none [] q = held o none [] q
    rw [update_idem, ← hnone, update_eq_self]
  | close _ fd =>
    dsimp only [Ftable.call] at hs
    rw [hx] at hs
    split at hs
    · cases hs
      exact h
    rename_i f hf
    cases hs
    refine h.plain hx trivial rfl fun q => ?_
    show held (update o fd none) none [f] q = held o none [] q
    rw [held_cons, held_clear hf]
  | fork _ np =>
    dsimp only [Ftable.call] at hs
    rw [hx] at hs
    obtain ⟨hnp, rfl⟩ := Lib.of_guarded hs
    refine h.quiet hx (fun q => rfl) (nil_subset _) (Task.live_local trivial) ?_ rfl rfl
    refine h.forks.move (by simp [hx]) (fun hu => (by cases hu)) ⟨hnp.1, h.forks.blank np hnp.1 hnp.2⟩
      (fun q mp _ hmp => ?_) (fun mp hmp => ?_)
    · cases hmp
      exact hnp.2 q
    · rw [hx] at hmp
      cases hmp
  | exit _ =>
    dsimp only [Ftable.call] at hs
    rw [hx] at hs
    split at hs
    · cases hs
      exact ⟨h.refs, h.idle, h.fresh, h.tasks, h.forks, h.ends, h.closers, ⟨fun hc => (by cases hc), fun hc => (by cases hc)⟩⟩
    · cases hs
      exact h.plain hx (fun e he => absurd (mem_finRange e) he) rfl fun _ => rfl
  | _ => cases hs

theorem Inv.elsewhere (h : Inv s) {y : Frame} (hold : ∀ w, (s.mem pg).isOpen w = false) (hnew : ∀ w, y.isOpen w = false)
    (hclosed : (s.mem pg).isClosed = false ∧ y.isClosed = false) : Inv (s.setFrame pg y) where
  refs := h.refs
  idle := h.idle
  fresh := h.fresh
  tasks := h.tasks
  forks := h.forks
  ends e := by
    show _ = ((update s.mem pg y e.1).isOpen e.2).toNat
    rw [update_same (Frame.isOpen · e.2) ((hnew _).trans (hold _).symm) e.1]
    exact h.ends e
  closers q := by
    show _ = (update s.mem pg y q).isClosed.toNat
    rw [update_same Frame.isClosed (hclosed.2.trans hclosed.1.symm) q]
    exact h.closers q
  calm := h.calm

theorem Inv.step (h : Inv s) {s' : State} {e : Event} (hs : Ftable.step s e = some s') : Inv s' := by
  unfold Ftable.step at hs
  split at hs
  · cases hs
  split at hs
  case h_7 np =>
    obtain ⟨hz, rfl⟩ := Lib.of_guarded hs
    refine h.quiet rfl (fun q => rfl) (List.Subset.refl _)
      ⟨fun _ => (h.tasks np).user (by rw [hz]; decide), fun _ => (h.tasks np).zombie hz, (h.tasks np).fits⟩
      (h.forks.plain (by rw [hz]; decide) (fun _ => (h.tasks np).zombie hz) ?_ ?_) rfl rfl
    · rw [(h.tasks np).user (by rw [hz]; decide)]
      rfl
    · show (s.task np).pc.claims = none
      rw [(h.tasks np).user (by rw [hz]; decide)]
      rfl
  case h_8 p i => exact h.advance rfl hs
  case h_9 pg =>
    obtain ⟨hfree, rfl⟩ := Lib.of_guarded hs
    exact h.elsewhere (fun w => by rw [hfree]; rfl) (fun _ => rfl) ⟨by rw [hfree]; rfl, rfl⟩
  case h_10 pg =>
    obtain ⟨hother, rfl⟩ := Lib.of_guarded hs
    exact h.elsewhere (fun w => by rw [hother]; rfl) (fun _ => rfl) ⟨by rw [hother]; rfl, rfl⟩
  all_goals
    split at hs
    · exact h.call ‹_› hs
    · cases hs

theorem inv_start (mem : Page → Bool) : Inv (start mem) := by
  have hframe : ∀ pg, (start mem).mem pg = .free ∨ (start mem).mem pg = .other := by
    intro pg
    show (if mem pg then Frame.free else .other) = _ ∨ (if mem pg then Frame.free else .other) = _
    cases mem pg <;> simp
  have hshare : ∀ p f, ((start mem).task p).share f = 0 := by
    intro p f
    show count (· = some f) (fun _ : Fd => (none : Option Fptr)) + 0 = 0
    rw [Lib.count_eq_zero.mpr]
    exact fun _ hc => by cases hc
  refine ⟨fun f => ?_, fun f _ => rfl, fun p f hf => absurd hf not_mem_nil, fun p => ⟨fun _ => rfl, fun _ _ => rfl, trivial⟩,
    ⟨fun p => trivial, fun p q np hp => ?_, fun p _ _ _ => rfl⟩, fun e => ?_, fun pg => ?_, fun hc => ?_, fun hc => ?_⟩
  · simp only [hshare, Finset.sum_const_zero]
    rfl
  · cases hp
  · have hopen : ((start mem).mem e.1).isOpen e.2 = false := by
      rcases hframe e.1 with hm | hm <;> rw [hm] <;> rfl
    rw [hopen]
    have hfiles : count (fun ff : File => ff.ending = some e) (start mem).file = 0 :=
      Lib.count_eq_zero.mpr fun _ hc => by cases hc
    have htasks : count (fun x : Task => x.pc.ending = some e) (start mem).task = 0 :=
      Lib.count_eq_zero.mpr fun _ hc => by cases hc
    unfold Ftable.ends
    rw [hfiles, htasks]
    rfl
  · have hclosed : ((start mem).mem pg).isClosed = false := by
      rcases hframe pg with hm | hm <;> rw [hm] <;> rfl
    rw [hclosed]
    exact Lib.count_eq_zero.mpr fun _ hc => by cases hc
  · cases hc
  · cases hc

end Steps

/-! ## What the counts say -/

/-- The entries of the descriptor tables that point to `f`. -/
def State.entries (s : State) (f : Fptr) : Nat :=
  (Finset.univ.filter fun q : Slot × Fd => (s.task q.1).life ≠ .unused ∧ (s.task q.1).ofile q.2 = some f).card

theorem State.exists_of_entries {s : State} {f : Fptr} (h : s.entries f ≠ 0) :
    ∃ p fd, (s.task p).life ≠ .unused ∧ (s.task p).ofile fd = some f := by
  have hpos := Nat.pos_of_ne_zero h
  unfold State.entries at hpos
  rw [Finset.card_pos, Finset.filter_nonempty_iff] at hpos
  obtain ⟨q, -, hq⟩ := hpos
  exact ⟨q.1, q.2, hq⟩

theorem State.entries_ne_zero {s : State} {f : Fptr} {p : Slot} {fd : Fd} (hlife : (s.task p).life ≠ .unused)
    (hentry : (s.task p).ofile fd = some f) : s.entries f ≠ 0 := fun hzero => by
  unfold State.entries at hzero
  rw [Finset.card_eq_zero, Finset.filter_eq_empty_iff] at hzero
  simp only [Finset.mem_univ, forall_const] at hzero
  exact @hzero (p, fd) ⟨hlife, hentry⟩

def State.Quiet (s : State) : Prop := ∀ p, (s.task p).pc = .user

/-- No call in progress has a reference to `f` that is not in the table, or an entry that is not counted. -/
structure Task.Settled (x : Task) (f : Fptr) : Prop where
  tokens : f ∉ x.pc.tokens
  backed : ∀ fd, x.pc.unbacked = some fd → x.ofile fd ≠ some f
  used : x.life = .unused → ∀ fd, x.ofile fd ≠ some f

/-- Descriptor `fd` of `p` is an end of the pipe in page `pg`. -/
def State.Pipes (s : State) (pg : Page) (p : Slot) (fd : Fd) : Prop :=
  ∃ f, (s.task p).ofile fd = some f ∧ (s.file f).type = .pipe ∧ (s.file f).pipe = pg

section Results

variable {s : State} {f : Fptr}

theorem Inv.settled (h : Inv s) (hq : s.Quiet) (p : Slot) (f : Fptr) : (s.task p).Settled f := by
  refine ⟨?_, fun fd hfd => ?_, fun hu fd hentry => ?_⟩
  · rw [hq p]
    exact not_mem_nil
  · rw [hq p] at hfd
    cases hfd
  · have hnone := h.forks.blank p hu (fun q hc => by rw [hq q] at hc; cases hc) fd
    rw [hnone] at hentry
    cases hentry

theorem Task.Settled.share {x : Task} (h : x.Settled f) : x.share f = count (· = some f) x.ofile := by
  unfold Task.share held
  rw [count_eq_zero.mpr h.tokens, Nat.add_zero]
  cases hu : x.pc.unbacked with
  | none => rfl
  | some fd =>
    have hcount := Lib.count_update (P := (· = some f)) (f := x.ofile) fd none
    rw [if_neg (h.backed fd hu), if_neg (by simp : ¬ (none : Option Fptr) = some f)] at hcount
    exact hcount

/-- **The count of a file is the number of its entries.** -/
theorem Inv.ref_eq_entries (h : Inv s) (hf : ∀ p, (s.task p).Settled f) : (s.file f).ref = s.entries f := by
  have hshare : ∀ p, (s.task p).share f = (Finset.univ.filter fun fd => (s.task p).ofile fd = some f).card := fun p =>
    (hf p).share
  have hlife : ∀ q : Slot × Fd, ((s.task q.1).life ≠ .unused ∧ (s.task q.1).ofile q.2 = some f) ↔
      (s.task q.1).ofile q.2 = some f := fun q =>
    and_iff_right_of_imp fun hentry hu => (hf q.1).used hu q.2 hentry
  rw [h.refs]
  unfold State.entries
  simp only [hlife, hshare, Finset.card_filter]
  rw [Fintype.sum_prod_type]

theorem Inv.open_of_pipe (h : Inv s) (htype : (s.file f).type = .pipe) :
    (s.mem (s.file f).pipe).isOpen (s.file f).writable = true := by
  have hends := h.ends ((s.file f).pipe, (s.file f).writable)
  have hne : count (fun ff : File => ff.ending = some ((s.file f).pipe, (s.file f).writable)) s.file ≠ 0 := fun hzero =>
    Lib.count_eq_zero.mp hzero f (if_pos htype)
  unfold Ftable.ends at hends
  cases hopen : (s.mem (s.file f).pipe).isOpen (s.file f).writable with
  | true => rfl
  | false =>
    rw [hopen, Bool.toNat_false] at hends
    omega

theorem Frame.pipe_of_open {x : Frame} {w : Bool} (h : x.isOpen w = true) : ∃ readopen writeopen, x = .pipe readopen writeopen := by
  cases x with
  | pipe r wo => exact ⟨r, wo, rfl⟩
  | free | other => cases w <;> cases h

/-- Between calls an open end has a file. -/
theorem Inv.pipe_of_open (h : Inv s) (hq : s.Quiet) {pg : Page} {w : Bool} (hopen : (s.mem pg).isOpen w = true) :
    ∃ f, (s.file f).type = .pipe ∧ (s.file f).pipe = pg := by
  have hends := h.ends (pg, w)
  have htasks : count (fun x : Task => x.pc.ending = some (pg, w)) s.task = 0 :=
    Lib.count_eq_zero.mpr fun p hc => by rw [hq p] at hc; cases hc
  unfold Ftable.ends at hends
  rw [htasks, hopen] at hends
  by_contra hnone
  have hfiles : count (fun ff : File => ff.ending = some (pg, w)) s.file = 0 := by
    refine Lib.count_eq_zero.mpr fun f hf => hnone ⟨f, ?_⟩
    obtain ⟨hpipe, ⟨⟩⟩ := Lib.of_guarded hf
    exact ⟨hpipe, rfl⟩
  rw [hfiles] at hends
  cases hends

/-- **A pipe has its page as long as a descriptor is left.** -/
theorem Inv.pipe_iff (h : Inv s) (hq : s.Quiet) (pg : Page) :
    (∃ readopen writeopen, s.mem pg = .pipe readopen writeopen) ↔ ∃ p fd, s.Pipes pg p fd := by
  constructor
  · rintro ⟨r, w, hmem⟩
    have hclosers := h.closers pg
    have hnone : count (fun x : Task => x.pc.freeing = some pg) s.task = 0 :=
      Lib.count_eq_zero.mpr fun p hc => by rw [hq p] at hc; cases hc
    unfold Ftable.closers at hclosers
    rw [hnone, hmem] at hclosers
    have hopen : ∃ v, (s.mem pg).isOpen v = true := by
      rw [hmem]
      cases r with
      | true => exact ⟨false, rfl⟩
      | false =>
        cases w with
        | true => exact ⟨true, rfl⟩
        | false => cases hclosers
    obtain ⟨v, hv⟩ := hopen
    obtain ⟨f, htype, hpipe⟩ := h.pipe_of_open hq hv
    have href : (s.file f).ref ≠ 0 := fun hzero => by
      rw [h.idle f hzero] at htype
      cases htype
    rw [h.ref_eq_entries fun p => h.settled hq p f] at href
    obtain ⟨p, fd, -, hentry⟩ := State.exists_of_entries (Int.natCast_ne_zero.mp href)
    exact ⟨p, fd, f, hentry, htype, hpipe⟩
  · rintro ⟨p, fd, f, -, htype, rfl⟩
    exact Frame.pipe_of_open (h.open_of_pipe htype)

/-- **References and pipes**, in any interleaving: `fileclose` and `filedup` do not panic; the count of a file that no call in
progress handles is the number of its entries; between calls a page is a pipe exactly when a descriptor has an end of
it; and a page is freed once, when no descriptor is left. -/
theorem ftable_exact (mem : Page → Bool) (hr : Reach step (fun _ _ => True) (start mem) s) :
    s.panic ≠ some .fileclose ∧ s.panic ≠ some .filedup ∧
    (∀ f, (∀ p, (s.task p).Settled f) →
      (s.file f).ref = s.entries f ∧ ((s.file f).ref = 0 → ∀ p fd, (s.task p).ofile fd ≠ some f)) ∧
    (s.Quiet → (∀ p f, (s.task p).Settled f) ∧
      ∀ pg, (∃ readopen writeopen, s.mem pg = .pipe readopen writeopen) ↔ ∃ p fd, s.Pipes pg p fd) ∧
    ∀ p pg k, (s.task p).pc = .kfree pg k → s.mem pg = .pipe false false ∧ (∀ q fd, ¬ s.Pipes pg q fd) ∧
      ∀ q k', (s.task q).pc = .kfree pg k' → q = p := by
  have h : Inv s := Reach.invariant (inv_start mem) (fun _ _ _ hi _ hs => hi.step hs) hr
  refine ⟨h.calm.1, h.calm.2, fun f hf => ?_, fun hq => ⟨h.settled hq, h.pipe_iff hq⟩, fun p pg k hpc => ?_⟩
  · refine ⟨h.ref_eq_entries hf, fun hzero p fd hentry => ?_⟩
    rw [h.ref_eq_entries hf] at hzero
    exact State.entries_ne_zero (fun hu => (hf p).used hu fd hentry) hentry (Int.natCast_eq_zero.mp hzero)
  have hfreeing : (s.task p).pc.freeing = some pg := by rw [hpc]; rfl
  have hclosed := h.closed_of_freeing hfreeing
  refine ⟨hclosed, ?_, fun q k' hq => ?_⟩
  · rintro q fd ⟨f, -, htype, rfl⟩
    have hopen := h.open_of_pipe htype
    rw [hclosed] at hopen
    cases hw : (s.file f).writable <;> rw [hw] at hopen <;> cases hopen
  have hone : (Finset.univ.filter fun r => (s.task r).pc.freeing = some pg).card = 1 := by
    have hclosers := h.closers pg
    rw [hclosed] at hclosers
    exact hclosers
  have hmem : ∀ r, (s.task r).pc.freeing = some pg → r ∈ Finset.univ.filter fun r => (s.task r).pc.freeing = some pg :=
    fun r hr => Finset.mem_filter.mpr ⟨Finset.mem_univ r, hr⟩
  exact Finset.card_le_one.mp (Nat.le_of_eq hone) q (hmem q (by rw [hq]; rfl)) p (hmem p hfreeing)

def pipeFork : List Event :=
  [.pipe 0, .go 0 .go, .go 0 (.page (some 7)), .go 0 (.ok true), .fork 0 1, .go 0 (.ok true)] ++
    List.replicate (NOFILE + 1) (.go 0 .go)

theorem ftable_exact_pipeFork : ∃ s : State, Reach step (fun _ _ => True) (start fun _ => true) s ∧ s.Quiet ∧
    (s.file 0).ref = 2 ∧ (s.file 0).ref = s.entries 0 ∧ ∃ p fd, s.Pipes 7 p fd := by
  obtain ⟨s, hs, hp⟩ := Reach.of_any step (fun _ _ => True) (start fun _ => true) pipeFork
    (fun s => decide ((∀ p, (s.task p).pc = .user) ∧ (s.file 0).ref = 2 ∧ s.mem 7 = .pipe true true)) (by decide +kernel)
  obtain ⟨hq, href, hmem⟩ := of_decide_eq_true hp
  obtain ⟨-, -, hcount, hquiet, -⟩ := ftable_exact _ hs
  obtain ⟨hsettled, hpipe⟩ := hquiet hq
  exact ⟨s, hs, hq, href, (hcount 0 fun p => hsettled p 0).1, (hpipe 7).mp ⟨true, true, hmem⟩⟩

end Results

end Xv6.Kernel.Ftable
