/-
# Xv6.Fs.Bio — the buffer cache (`kernel/bio.c`) over a disk of blocks.

The cache is the list of buffers from the most to the least recently used.  A pointer to a buffer is
the number of its block: a buffer with references is never recycled, so the number keeps naming it.
There is one device; a buffer that was never used (`dev` still `0`) has no block number.

`Coherent` is the one invariant of the module, indexed by what the cache MEANS: the content a reader
gets (`view`), the references to a block beyond that of its lock holder (`cnt`), the lock holders
(`locks`), and the blocks whose content has not reached the disk (`dirty`).  Each function of the
source has one lemma that says how it moves the indices.
-/
import Xv6.Kernel.Tables
import Mathlib.Data.BitVec
import Mathlib.Data.List.Basic

namespace Xv6.Fs

open Kernel (Slot)
open Function List Option

/-! ## `buf.h`, `bio.c` -/

abbrev NBUF : Nat := 30
abbrev BlockNo := BitVec 32

instance : LawfulBEq BlockNo := inferInstance

/-- `BSIZE` bytes, as 32-bit words. -/
abbrev Block := Fin 256 → BitVec 32
abbrev Disk := BlockNo → Block

structure Buf where
  /-- `dev` and `blockno`. -/
  key : Option BlockNo
  valid : Bool
  refcnt : BitVec 32
  /-- The process that holds the sleep lock. -/
  lock : Option Slot
  data : Block

/-- The buffers, most recently used first, and the disk below them. -/
structure Bio where
  bufs : List Buf
  disk : Disk

def Buf.zero : Buf := ⟨none, false, 0, none, fun _ => 0⟩

def binit (disk : Disk) : Bio := ⟨List.replicate NBUF Buf.zero, disk⟩

namespace Bio

/-- The first scan of `bget`. -/
def find (b : BlockNo) (s : Bio) : Option Buf := s.bufs.find? fun x => x.key == some b

def modify (b : BlockNo) (f : Buf → Buf) (s : Bio) : Bio :=
  { s with bufs := s.bufs.map fun x => if x.key = some b then f x else x }

end Bio

/-- The second scan of `bget`: the least recently used buffer without references becomes the buffer
of block `b`. -/
def recycle (b : BlockNo) : List Buf → Option (List Buf)
  | [] => none
  | x :: xs =>
    match recycle b xs with
    | some ys => some (x :: ys)
    | none =>
      if x.refcnt = 0 then some ({ x with key := some b, valid := false, refcnt := 1 } :: xs)
      else none

/-- `bget(dev, blockno)` up to `acquiresleep`; without a buffer it panics. -/
def bget (b : BlockNo) (s : Bio) : Option Bio :=
  match s.find b with
  | some _ => some (s.modify b fun x => { x with refcnt := x.refcnt + 1 })
  | none => (recycle b s.bufs).map fun bufs => { s with bufs := bufs }

/-- The rest of `bread`: `acquiresleep(&b->lock)`, which waits while the lock is held, and the read
of a buffer that is not valid. -/
def lockBuf (t : Slot) (b : BlockNo) (s : Bio) : Option Bio :=
  (s.find b).bind fun x =>
    if x.lock.isSome then none
    else some (s.modify b fun x =>
      { x with lock := some t, valid := true, data := if x.valid then x.data else s.disk b })

def bread (t : Slot) (b : BlockNo) (s : Bio) : Option Bio := (bget b s).bind (lockBuf t b)

def dataOf (b : BlockNo) (s : Bio) : Option Block := (s.find b).map (·.data)

def setData (b : BlockNo) (d : Block) (s : Bio) : Bio := s.modify b fun x => { x with data := d }

/-- `bwrite(b)`; panics when the caller does not hold the lock. -/
def bwrite (t : Slot) (b : BlockNo) (s : Bio) : Option Bio :=
  (s.find b).bind fun x =>
    if x.lock = some t then some { s with disk := update s.disk b x.data } else none

def toFront (b : BlockNo) (s : Bio) : Bio :=
  match s.find b with
  | none => s
  | some x => { s with bufs := x :: s.bufs.filter fun y => y.key != some b }

/-- `brelse(b)`; panics when the caller does not hold the lock. -/
def brelse (t : Slot) (b : BlockNo) (s : Bio) : Option Bio :=
  (s.find b).bind fun x =>
    if x.lock = some t then
      let s := s.modify b fun x => { x with lock := none, refcnt := x.refcnt - 1 }
      some (if x.refcnt - 1 = 0 then toFront b s else s)
    else none

def bpin (b : BlockNo) (s : Bio) : Bio := s.modify b fun x => { x with refcnt := x.refcnt + 1 }

def bunpin (b : BlockNo) (s : Bio) : Bio := s.modify b fun x => { x with refcnt := x.refcnt - 1 }

/-! ## The invariant -/

def holderRef (o : Option Slot) : BitVec 32 := if o.isSome then 1 else 0

/-- The cache holds blocks at most once, and every index says
what it says. -/
structure Coherent (view : Disk) (cnt : BlockNo → BitVec 32) (locks : BlockNo → Option Slot)
    (dirty : BlockNo → Prop) (s : Bio) : Prop where
  unique : ∀ x ∈ s.bufs, ∀ y ∈ s.bufs, ∀ b, x.key = some b → y.key = some b → x = y
  unused : ∀ x ∈ s.bufs, x.key = none → x.lock = none
  lock : ∀ x ∈ s.bufs, ∀ b, x.key = some b → x.lock = locks b
  count : ∀ x ∈ s.bufs, ∀ b, x.key = some b → x.refcnt = cnt b + holderRef (locks b)
  data : ∀ x ∈ s.bufs, ∀ b, x.key = some b → x.valid = true → x.data = view b
  valid : ∀ x ∈ s.bufs, ∀ b, x.key = some b → locks b ≠ none ∨ dirty b → x.valid = true
  cached : ∀ b, cnt b ≠ 0 ∨ locks b ≠ none ∨ dirty b → ∃ x ∈ s.bufs, x.key = some b
  clean : ∀ b, ¬ dirty b → s.disk b = view b

/-- Only a block nobody refers to has a buffer with count zero. -/
def Unwrapped (cnt : BlockNo → BitVec 32) (locks : BlockNo → Option Slot)
    (dirty : BlockNo → Prop) : Prop :=
  ∀ b, cnt b + holderRef (locks b) = 0 → cnt b = 0 ∧ locks b = none ∧ ¬ dirty b

section Specs

variable {view : Disk} {cnt : BlockNo → BitVec 32} {locks : BlockNo → Option Slot}
  {dirty : BlockNo → Prop} {s s' : Bio} {t : Slot} {b : BlockNo} {d : Block} {x y : Buf}

namespace Bio

theorem find_some (h : s.find b = some x) : x ∈ s.bufs ∧ x.key = some b :=
  ⟨mem_of_find?_eq_some h, by simpa using find?_some h⟩

theorem find_none (h : s.find b = none) : ∀ x ∈ s.bufs, x.key ≠ some b := by
  simpa [find, find?_eq_none] using h

theorem mem_modify {f : Buf → Buf} :
    y ∈ (s.modify b f).bufs ↔ ∃ x ∈ s.bufs, (if x.key = some b then f x else x) = y := mem_map

end Bio

section

variable (h : Coherent view cnt locks dirty s)
include h

theorem Coherent.find (hx : x ∈ s.bufs)
    (hk : x.key = some b) : s.find b = some x := by
  cases hf : s.find b with
  | none => exact absurd hk (Bio.find_none hf x hx)
  | some y =>
    obtain ⟨hy, hyk⟩ := Bio.find_some hf
    rw [h.unique x hx y hy b hk hyk]

theorem Coherent.modify {view' : Disk} {cnt' : BlockNo → BitVec 32}
    {locks' : BlockNo → Option Slot} {dirty' : BlockNo → Prop} {f : Buf → Buf} (hkey : ∀ x, (f x).key = x.key)
    (hne : ∀ a, a ≠ b → view' a = view a ∧ cnt' a = cnt a ∧ locks' a = locks a ∧ (dirty' a ↔ dirty a))
    (hb : ∀ x ∈ s.bufs, x.key = some b → (f x).lock = locks' b ∧
      (f x).refcnt = cnt' b + holderRef (locks' b) ∧ ((f x).valid = true → (f x).data = view' b) ∧
        (locks' b ≠ none ∨ dirty' b → (f x).valid = true))
    (hcached : cnt' b ≠ 0 ∨ locks' b ≠ none ∨ dirty' b → ∃ x ∈ s.bufs, x.key = some b)
    (hclean : ¬ dirty' b → s.disk b = view' b) :
    Coherent view' cnt' locks' dirty' (s.modify b f) := by
  -- a buffer afterwards is the buffer of `b`, changed, or an old one of another block
  have hmem : ∀ y ∈ (s.modify b f).bufs, ∃ x ∈ s.bufs, y.key = x.key ∧
      (x.key = some b ∧ y = f x ∨ x.key ≠ some b ∧ y = x) := by
    intro y hy
    obtain ⟨x, hx, rfl⟩ := Bio.mem_modify.mp hy
    by_cases hxb : x.key = some b
    · exact ⟨x, hx, by rw [if_pos hxb, hkey], .inl ⟨hxb, if_pos hxb⟩⟩
    · exact ⟨x, hx, by rw [if_neg hxb], .inr ⟨hxb, if_neg hxb⟩⟩
  have hother : ∀ y ∈ (s.modify b f).bufs, ∀ a, y.key = some a → a ≠ b → y ∈ s.bufs := by
    intro y hy a ha hab
    obtain ⟨x, hx, hk, ⟨hxb, -⟩ | ⟨-, rfl⟩⟩ := hmem y hy
    · rw [ha, hxb] at hk
      exact absurd (some.inj hk) hab
    · exact hx
  have hself : ∀ y ∈ (s.modify b f).bufs, y.key = some b → ∃ x ∈ s.bufs, x.key = some b ∧ y = f x := by
    intro y hy hyb
    obtain ⟨x, hx, hk, ⟨hxb, rfl⟩ | ⟨hxb, rfl⟩⟩ := hmem y hy
    · exact ⟨x, hx, hxb, rfl⟩
    · exact absurd hyb hxb
  constructor
  · intro y hy z hz a hya hza
    obtain ⟨x, hx, hyx, hy'⟩ := hmem y hy
    obtain ⟨w, hw, hzw, hz'⟩ := hmem z hz
    have hxw := h.unique x hx w hw a (hyx ▸ hya) (hzw ▸ hza)
    subst hxw
    rcases hy' with ⟨hxb, rfl⟩ | ⟨hxb, rfl⟩ <;> rcases hz' with ⟨hzb, rfl⟩ | ⟨hzb, rfl⟩
    · rfl
    · exact absurd hxb hzb
    · exact absurd hzb hxb
    · rfl
  · intro y hy hyk
    obtain ⟨x, hx, hk, ⟨hxb, -⟩ | ⟨-, rfl⟩⟩ := hmem y hy
    · rw [hyk, hxb] at hk
      cases hk
    · exact h.unused y hx hyk
  · intro y hy a ha
    by_cases hab : a = b
    · subst hab
      obtain ⟨x, hx, hxb, rfl⟩ := hself y hy ha
      exact (hb x hx hxb).1
    · rw [(hne a hab).2.2.1]
      exact h.lock y (hother y hy a ha hab) a ha
  · intro y hy a ha
    by_cases hab : a = b
    · subst hab
      obtain ⟨x, hx, hxb, rfl⟩ := hself y hy ha
      exact (hb x hx hxb).2.1
    · rw [(hne a hab).2.1, (hne a hab).2.2.1]
      exact h.count y (hother y hy a ha hab) a ha
  · intro y hy a ha hv
    by_cases hab : a = b
    · subst hab
      obtain ⟨x, hx, hxb, rfl⟩ := hself y hy ha
      exact (hb x hx hxb).2.2.1 hv
    · rw [(hne a hab).1]
      exact h.data y (hother y hy a ha hab) a ha hv
  · intro y hy a ha hld
    by_cases hab : a = b
    · subst hab
      obtain ⟨x, hx, hxb, rfl⟩ := hself y hy ha
      exact (hb x hx hxb).2.2.2 hld
    · rw [(hne a hab).2.2.1, (hne a hab).2.2.2] at hld
      exact h.valid y (hother y hy a ha hab) a ha hld
  · intro a ha
    have hex : ∃ x ∈ s.bufs, x.key = some a := by
      by_cases hab : a = b
      · subst hab
        exact hcached ha
      · rw [(hne a hab).2.1, (hne a hab).2.2.1, (hne a hab).2.2.2] at ha
        exact h.cached a ha
    obtain ⟨x, hx, hxa⟩ := hex
    refine ⟨_, Bio.mem_modify.mpr ⟨x, hx, rfl⟩, ?_⟩
    split
    · rw [hkey, hxa]
    · exact hxa
  · intro a ha
    by_cases hab : a = b
    · subst hab
      exact hclean ha
    · rw [(hne a hab).1]
      exact h.clean a fun hd => ha ((hne a hab).2.2.2.mpr hd)

theorem Coherent.of_mem_iff
    (hmem : ∀ y, y ∈ s'.bufs ↔ y ∈ s.bufs) (hdisk : s'.disk = s.disk) :
    Coherent view cnt locks dirty s' where
  unique x hx y hy := h.unique x ((hmem x).mp hx) y ((hmem y).mp hy)
  unused x hx := h.unused x ((hmem x).mp hx)
  lock x hx := h.lock x ((hmem x).mp hx)
  count x hx := h.count x ((hmem x).mp hx)
  data x hx := h.data x ((hmem x).mp hx)
  valid x hx := h.valid x ((hmem x).mp hx)
  cached a ha := by
    obtain ⟨x, hx, hxa⟩ := h.cached a ha
    exact ⟨x, (hmem x).mpr hx, hxa⟩
  clean a ha := by
    rw [hdisk]
    exact h.clean a ha

theorem toFront_coherent : Coherent view cnt locks dirty (toFront b s) := by
  unfold toFront
  split
  · exact h
  rename_i x hx
  obtain ⟨hxm, hxk⟩ := Bio.find_some hx
  refine h.of_mem_iff (fun y => ?_) rfl
  rw [mem_cons, mem_filter]
  constructor
  · rintro (rfl | ⟨hy, -⟩)
    · exact hxm
    · exact hy
  · intro hy
    by_cases hyk : y.key = some b
    · exact .inl (h.unique y hy x hxm b hyk hxk)
    · exact .inr ⟨hy, by simpa using hyk⟩

end

theorem recycle_eq {l l' : List Buf} (h : recycle b l = some l') :
    ∃ l1 x l2, l = l1 ++ x :: l2 ∧ x.refcnt = 0 ∧
      l' = l1 ++ { x with key := some b, valid := false, refcnt := 1 } :: l2 := by
  induction l generalizing l' with
  | nil => cases h
  | cons x xs ih =>
    unfold recycle at h
    split at h
    · rename_i ys hys
      cases h
      obtain ⟨l1, z, l2, rfl, hz, rfl⟩ := ih hys
      exact ⟨x :: l1, z, l2, rfl, hz, rfl⟩
    split at h
    · rename_i hx
      cases h
      exact ⟨[], x, xs, rfl, hx, rfl⟩
    · cases h

theorem recycle_coherent {bufs : List Buf} (h : Coherent view cnt locks dirty s)
    (hu : Unwrapped cnt locks dirty) (hb : ∀ x ∈ s.bufs, x.key ≠ some b)
    (hr : recycle b s.bufs = some bufs) :
    Coherent view (update cnt b (cnt b + 1)) locks dirty { s with bufs := bufs } := by
  obtain ⟨l1, x, l2, hl, hx, rfl⟩ := recycle_eq hr
  -- block `b` had no buffer, so nobody refers to it
  have hfree : cnt b = 0 ∧ locks b = none ∧ ¬ dirty b := by
    have hno : ¬ (cnt b ≠ 0 ∨ locks b ≠ none ∨ dirty b) := fun hc => by
      obtain ⟨y, hy, hyb⟩ := h.cached b hc
      exact hb y hy hyb
    simpa [not_or] using hno
  have hxm : x ∈ s.bufs := by simp [hl]
  have hxlock : x.lock = none := by
    cases hk : x.key with
    | none => exact h.unused x hxm hk
    | some a =>
      rw [h.lock x hxm a hk]
      exact (hu a ((h.count x hxm a hk).symm.trans hx)).2.1
  have hmem : ∀ y, y ∈ l1 ++ { x with key := some b, valid := false, refcnt := 1 } :: l2 →
      y = { x with key := some b, valid := false, refcnt := 1 } ∨ y ∈ s.bufs := by
    intro y hy
    rw [hl]
    simp only [mem_append, mem_cons] at hy ⊢
    tauto
  have hold : ∀ y a, y ∈ l1 ++ { x with key := some b, valid := false, refcnt := 1 } :: l2 →
      y.key = some a → a ≠ b → y ∈ s.bufs := by
    intro y a hy hya hab
    refine (hmem y hy).resolve_left fun he => ?_
    subst he
    exact hab (some.inj hya).symm
  have hnew : ∀ y, y ∈ l1 ++ { x with key := some b, valid := false, refcnt := 1 } :: l2 →
      y.key = some b → y = { x with key := some b, valid := false, refcnt := 1 } := by
    intro y hy hyb
    exact (hmem y hy).resolve_right fun hym => hb y hym hyb
  constructor
  · intro y hy z hz a hya hza
    by_cases hab : a = b
    · subst hab
      rw [hnew y hy hya, hnew z hz hza]
    · exact h.unique y (hold y a hy hya hab) z (hold z a hz hza hab) a hya hza
  · intro y hy hyk
    rcases hmem y hy with rfl | hym
    · cases hyk
    · exact h.unused y hym hyk
  · intro y hy a hya
    by_cases hab : a = b
    · subst hab
      rw [hnew y hy hya, hfree.2.1]
      exact hxlock
    · exact h.lock y (hold y a hy hya hab) a hya
  · intro y hy a hya
    by_cases hab : a = b
    · subst hab
      rw [hnew y hy hya, update_self, hfree.1, hfree.2.1]
      rfl
    · rw [update_of_ne hab]
      exact h.count y (hold y a hy hya hab) a hya
  · intro y hy a hya hv
    by_cases hab : a = b
    · subst hab
      rw [hnew y hy hya] at hv
      cases hv
    · exact h.data y (hold y a hy hya hab) a hya hv
  · intro y hy a hya hld
    by_cases hab : a = b
    · subst hab
      rcases hld with hld | hld
      · exact absurd hfree.2.1 hld
      · exact absurd hld hfree.2.2
    · exact h.valid y (hold y a hy hya hab) a hya hld
  · intro a ha
    by_cases hab : a = b
    · subst hab
      exact ⟨_, mem_append_right _ mem_cons_self, rfl⟩
    rw [update_of_ne hab] at ha
    obtain ⟨y, hy, hya⟩ := h.cached a ha
    -- the recycled buffer was not that of a block somebody refers to
    have hyx : y ≠ x := by
      rintro rfl
      have hz := hu a ((h.count y hy a hya).symm.trans hx)
      rcases ha with ha | ha | ha
      · exact ha hz.1
      · exact ha hz.2.1
      · exact hz.2.2 ha
    refine ⟨y, ?_, hya⟩
    rw [hl] at hy
    simp only [mem_append, mem_cons] at hy ⊢
    tauto
  · exact h.clean

/-! ## The functions -/

section

variable (h : Coherent view cnt locks dirty s)
include h

theorem bget_coherent (hu : Unwrapped cnt locks dirty)
    (hs : bget b s = some s') :
    Coherent view (update cnt b (cnt b + 1)) locks dirty s' ∧ s'.disk = s.disk := by
  unfold bget at hs
  split at hs
  · rename_i x hx
    cases hs
    refine ⟨h.modify (fun _ => rfl) (fun a ha => ⟨rfl, by simp [ha], rfl, Iff.rfl⟩)
      (fun y hy hyb => ⟨h.lock y hy b hyb, ?_, h.data y hy b hyb, h.valid y hy b hyb⟩)
      (fun _ => ⟨x, Bio.find_some hx⟩) (h.clean b), rfl⟩
    rw [update_self, h.count y hy b hyb, add_right_comm]
  · rename_i hnone
    obtain ⟨bufs, hbufs, rfl⟩ := map_eq_some_iff.mp hs
    exact ⟨recycle_coherent h hu (Bio.find_none hnone) hbufs, rfl⟩

theorem lockBuf_coherent (hs : lockBuf t b s = some s') :
    locks b = none ∧ s'.disk = s.disk ∧ Coherent view (update cnt b (cnt b - 1)) (update locks b (some t)) dirty s' := by
  obtain ⟨x, hx, hs⟩ := bind_eq_some_iff.mp hs
  obtain ⟨hxm, hxb⟩ := Bio.find_some hx
  have hlx := h.lock x hxm b hxb
  split at hs
  · cases hs
  rename_i hfree
  cases hs
  have hnone : locks b = none := by
    rw [← hlx]
    simpa using hfree
  refine ⟨hnone, rfl, h.modify (fun _ => rfl)
    (fun a ha => ⟨rfl, by simp [ha], by simp [ha], Iff.rfl⟩)
    (fun y hy hyb => ⟨by simp, ?_, fun _ => ?_, fun _ => rfl⟩) (fun _ => ⟨x, hxm, hxb⟩) (h.clean b)⟩
  · simp only [h.count y hy b hyb, hnone, holderRef, update_self]
    exact (add_zero _).trans (sub_add_cancel _ _).symm
  dsimp only
  split
  · rename_i hv
    exact h.data y hy b hyb hv
  · rename_i hv
    exact h.clean b fun hd => hv (h.valid y hy b hyb (.inr hd))

/-- **`bread`**: the block is locked, and its buffer has the content of the view. -/
theorem bread_coherent (hu : Unwrapped cnt locks dirty)
    (hs : bread t b s = some s') :
    locks b = none ∧ s'.disk = s.disk ∧ Coherent view cnt (update locks b (some t)) dirty s' := by
  obtain ⟨s1, h1, hs⟩ := bind_eq_some_iff.mp hs
  obtain ⟨hc, hd⟩ := bget_coherent h hu h1
  obtain ⟨hfree, hd', hc'⟩ := lockBuf_coherent hc hs
  refine ⟨hfree, hd'.trans hd, ?_⟩
  have hcnt : update (update cnt b (cnt b + 1)) b (update cnt b (cnt b + 1) b - 1) = cnt := by
    rw [update_self, update_idem, add_sub_cancel_right, update_eq_self]
  rwa [hcnt] at hc'

theorem dataOf_coherent (hl : locks b ≠ none)
    (hd : dataOf b s = some d) : d = view b := by
  obtain ⟨x, hx, rfl⟩ := map_eq_some_iff.mp hd
  obtain ⟨hxm, hxb⟩ := Bio.find_some hx
  exact h.data x hxm b hxb (h.valid x hxm b hxb (.inl hl))

/-- A block is modified under its lock: until it is written it is dirty. -/
theorem setData_coherent (hl : locks b ≠ none) (d : Block) :
    Coherent (update view b d) cnt locks (fun a => a = b ∨ dirty a) (setData b d s) := by
  refine h.modify (fun _ => rfl) (fun a ha => ⟨by simp [ha], rfl, rfl, by simp [ha]⟩)
    (fun y hy hyb => ⟨h.lock y hy b hyb, h.count y hy b hyb, fun _ => by simp, fun _ => ?_⟩)
    (fun _ => h.cached b (.inr (.inl hl))) (fun hn => absurd (.inl rfl) hn)
  exact h.valid y hy b hyb (.inl hl)

/-- **`bwrite`** cleans the block. -/
theorem bwrite_coherent (hs : bwrite t b s = some s') :
    s'.disk = update s.disk b (view b) ∧ Coherent view cnt locks (fun a => a ≠ b ∧ dirty a) s' := by
  obtain ⟨x, hx, hs⟩ := bind_eq_some_iff.mp hs
  obtain ⟨hxm, hxb⟩ := Bio.find_some hx
  split at hs
  · rename_i hlock
    cases hs
    have hl : locks b ≠ none := by rw [← h.lock x hxm b hxb, hlock]; simp
    have hdata := h.data x hxm b hxb (h.valid x hxm b hxb (.inl hl))
    rw [hdata]
    refine ⟨rfl, { h with valid := ?_, cached := ?_, clean := ?_ }⟩
    · exact fun y hy a ha hld => h.valid y hy a ha (hld.imp_right And.right)
    · exact fun a ha => h.cached a (ha.imp_right fun ha => ha.imp_right And.right)
    intro a ha
    by_cases hab : a = b
    · subst hab
      simp
    · exact (update_of_ne hab _ _).trans (h.clean a fun hd => ha ⟨hab, hd⟩)
  · cases hs

/-- **`brelse`** gives the lock and its reference back. -/
theorem brelse_coherent (hs : brelse t b s = some s') :
    locks b = some t ∧ s'.disk = s.disk ∧ Coherent view cnt (update locks b none) dirty s' := by
  obtain ⟨x, hx, hs⟩ := bind_eq_some_iff.mp hs
  obtain ⟨hxm, hxb⟩ := Bio.find_some hx
  split at hs
  · rename_i hlock
    have hl : locks b = some t := (h.lock x hxm b hxb).symm.trans hlock
    have hmod : Coherent view cnt (update locks b none) dirty
        (s.modify b fun x => { x with lock := none, refcnt := x.refcnt - 1 }) := by
      refine h.modify (fun _ => rfl) (fun a ha => ⟨rfl, rfl, by simp [ha], Iff.rfl⟩)
        (fun y hy hyb => ⟨by simp, ?_, h.data y hy b hyb, fun _ => ?_⟩) (fun _ => ⟨x, hxm, hxb⟩)
        (h.clean b)
      · simp only [h.count y hy b hyb, hl, holderRef, update_self]
        exact (add_sub_cancel_right _ _).trans (add_zero _).symm
      · exact h.valid y hy b hyb (.inl (by simp [hl]))
    cases hs
    refine ⟨hl, ?_, ?_⟩
    · split
      · unfold toFront
        split <;> rfl
      · rfl
    · split
      · exact toFront_coherent hmod
      · exact hmod
  · cases hs

theorem bpin_coherent (hl : locks b ≠ none) : Coherent view (update cnt b (cnt b + 1)) locks dirty (bpin b s) := by
  refine h.modify (fun _ => rfl) (fun a ha => ⟨rfl, by simp [ha], rfl, Iff.rfl⟩)
    (fun y hy hyb => ⟨h.lock y hy b hyb, ?_, h.data y hy b hyb, h.valid y hy b hyb⟩)
    (fun _ => h.cached b (.inr (.inl hl))) (h.clean b)
  rw [update_self, h.count y hy b hyb, add_right_comm]

theorem bunpin_coherent (hl : locks b ≠ none) : Coherent view (update cnt b (cnt b - 1)) locks dirty (bunpin b s) := by
  refine h.modify (fun _ => rfl) (fun a ha => ⟨rfl, by simp [ha], rfl, Iff.rfl⟩)
    (fun y hy hyb => ⟨h.lock y hy b hyb, ?_, h.data y hy b hyb, h.valid y hy b hyb⟩)
    (fun _ => h.cached b (.inr (.inl hl))) (h.clean b)
  rw [update_self, h.count y hy b hyb, add_sub_right_comm]

end

theorem binit_coherent (disk : Disk) : Coherent disk (fun _ => 0) (fun _ => none) (fun _ => False) (binit disk) := by
  have hzero : ∀ x ∈ (binit disk).bufs, x = Buf.zero := fun x hx => eq_of_mem_replicate hx
  have hkey : ∀ x ∈ (binit disk).bufs, ∀ b, x.key ≠ some b := fun x hx b => by
    rw [hzero x hx]
    simp [Buf.zero]
  constructor
  · exact fun x hx y _ b hb => absurd hb (hkey x hx b)
  · exact fun x hx _ => by rw [hzero x hx]; rfl
  · exact fun x hx b hb => absurd hb (hkey x hx b)
  · exact fun x hx b hb => absurd hb (hkey x hx b)
  · exact fun x hx b hb => absurd hb (hkey x hx b)
  · exact fun x hx b hb => absurd hb (hkey x hx b)
  · intro b hb
    simp at hb
  · exact fun _ _ => rfl

end Specs

end Xv6.Fs
