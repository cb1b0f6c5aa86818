/-
# Xv6.Kernel.Vm — the memory of a user process (`kernel/vm.c`: `walkaddr`, `uvmalloc`, `uvmdealloc`,
`uvmclear`, `copyin`; `loadseg` and `exec` of `kernel/exec.c`; `growproc` of `kernel/proc.c`).

A page table is seen as the user pages it maps, by page number, with their contents and the bit `PTE_U`.
What `kalloc` has left is a number: page numbers below it can be mapped, and a call that needs more gives its
pages back and fails, or panics (`Shortage`).  The machine has `NPAGES` pages, so no limit is above that.

`exec` leaves one page below the stack that the user cannot touch; that this is the only one, and that the pages
below `sz` are those that are mapped, holds in every run of `sbrk` and stores (`Laid`).
-/
import Xv6.Kernel.Memory
import Xv6.Lib.Trace

namespace Xv6.Kernel.Vm

open Function Option
open Lib (update_same)

/-! ## Page tables -/

abbrev Byte := BitVec 8

/-- A page that is mapped: `PTE_U`, and its bytes by offset. -/
structure Page where
  user : Bool
  bytes : Nat → Byte

/-- The user pages of a page table, by page number. -/
abbrev PageMap := Nat → Option Page

abbrev MAXVA : Nat := 2 ^ 38

abbrev NPAGES : Nat := 32768

/-- How a kernel function ended that can panic or fail. -/
inductive Ended (α : Type)
  | panic
  | failed
  | ok (a : α)

def walkaddr (pt : PageMap) (va : Nat) : Option Page :=
  if MAXVA ≤ va then none else (pt (va / PGSIZE)).filter (·.user)

def userByte (pt : PageMap) (va : Nat) : Option Byte := (walkaddr pt va).map (·.bytes (va % PGSIZE))

/-- The loop of `copyin`: the bytes it has copied when it returns 0. -/
def copyinLoop (pt : PageMap) : Nat → BitVec 64 → Nat → Option (List Byte)
  | 0, _, _ => some []
  | fuel + 1, srcva, len =>
    if 0 < len then do
      let va0 := srcva.toNat / PGSIZE * PGSIZE
      let page ← walkaddr pt va0
      let n := min len (PGSIZE - (srcva.toNat - va0))
      let rest ← copyinLoop pt fuel (BitVec.ofNat 64 (va0 + PGSIZE)) (len - n)
      some ((List.range n).map (fun k => page.bytes (srcva.toNat - va0 + k)) ++ rest)
    else some []

/-- `copyin(pagetable, dst, srcva, len)`.  Every turn copies a byte or more. -/
def copyin (pt : PageMap) (srcva : BitVec 64) (len : Nat) : Option (List Byte) := copyinLoop pt len srcva len

def zeroPage : Page := ⟨true, fun _ => 0⟩

def guardPage : Page := ⟨false, fun _ => 0⟩

/-- Why `kalloc` returns no page: the container is refused the charge; or the free list is empty, at a page for the
user or at one for the page table.  On an empty list `kalloc` keeps `kmem.lock`, and the next `kfree` panics in `acquire`. -/
inductive Shortage
  | charge
  | page
  | table

structure Room where
  limit : Nat
  why : Shortage

/-- The loop of `uvmalloc` from page `a0` on, at page `a` with `n` pages to go. -/
def mapPages (mem : Room) (a0 : Nat) : Nat → Nat → PageMap → Ended PageMap
  | 0, _, pt => .ok pt
  | n + 1, a, pt =>
    if mem.limit ≤ a then
      match mem.why with
      | .charge => .failed
      -- `uvmdealloc` frees the pages below `a`
      | .page => if a0 < a then .panic else .failed
      -- `kfree(mem)`
      | .table => .panic
    else mapPages mem a0 n (a + 1) (update pt a (some zeroPage))

/-- `uvmalloc(pagetable, oldsz, newsz)`; when it fails, the pages it had mapped are given back.  A panic is `none`. -/
def uvmalloc (mem : Room) (pt : PageMap) (oldsz newsz : Nat) : Option (Nat × PageMap) :=
  if newsz < oldsz then some (oldsz, pt)
  else
    match mapPages mem (npages oldsz) (npages newsz - npages oldsz) (npages oldsz) pt with
    | .panic => none
    | .failed => some (0, pt)
    | .ok pt => some (newsz, pt)

/-- The loop of `uvmunmap` over `n` pages from page `a` on; a page that is not mapped is a panic. -/
def uvmunmap : Nat → Nat → PageMap → Option PageMap
  | 0, _, pt => some pt
  | n + 1, a, pt => if (pt a).isSome then uvmunmap n (a + 1) (update pt a none) else none

def uvmdealloc (pt : PageMap) (oldsz newsz : Nat) : Option (Nat × PageMap) :=
  if oldsz ≤ newsz then some (oldsz, pt)
  else (uvmunmap (npages oldsz - npages newsz) (npages newsz) pt).map fun pt => (newsz, pt)

def uvmclear (pt : PageMap) (va : Nat) : PageMap :=
  update pt (va / PGSIZE) ((pt (va / PGSIZE)).map fun page => { page with user := false })

/-! ## `exec` -/

/-- `readi` of an inode with the bytes `data` into a kernel buffer: what it returns and what it copies. -/
def readi (data : List Byte) (off n : Nat) : Int × List Byte :=
  if data.length < off then (-1, []) else (((data.drop off).take n).length, (data.drop off).take n)

def loadsegLoop (data : List Byte) (va offset sz : Nat) : Nat → Nat → PageMap → Ended PageMap
  | 0, _, pt => .ok pt
  | rem + 1, i, pt =>
    match walkaddr pt (va + i) with
    | none => .panic
    | some page =>
      let n := min (sz - i) PGSIZE
      let r := readi data (offset + i) n
      if r.1 ≠ n then .failed
      else
        let page := { page with bytes := fun k => if k < n then r.2.getD k 0 else page.bytes k }
        loadsegLoop data va offset sz rem (i + PGSIZE) (update pt ((va + i) / PGSIZE) (some page))

def loadseg (data : List Byte) (pt : PageMap) (va offset sz : Nat) : Ended PageMap :=
  if va % PGSIZE ≠ 0 then .panic else loadsegLoop data va offset sz (npages sz) 0 pt

/-- What `exec` reads of a program header of type `ELF_PROG_LOAD`. -/
structure ProgHdr where
  off : Nat
  vaddr : Nat
  filesz : Nat
  memsz : Nat

/-- The loop of `exec` over the program headers of the file `data`. -/
def loadSegs (mem : Room) (data : List Byte) : List ProgHdr → Nat → PageMap → Ended (Nat × PageMap)
  | [], sz, pt => .ok (sz, pt)
  | ph :: phs, sz, pt =>
    if ph.memsz < ph.filesz then .failed
    else if 2 ^ 64 ≤ ph.vaddr + ph.memsz then .failed
    else
      match uvmalloc mem pt sz (ph.vaddr + ph.memsz) with
      | none => .panic
      | some (sz, pt) =>
        if sz = 0 then .failed
        else if ph.vaddr % PGSIZE ≠ 0 then .failed
        else
          match loadseg data pt ph.vaddr ph.off ph.filesz with
          | .panic => .panic
          | .failed => .failed
          | .ok pt => loadSegs mem data phs sz pt

/-- The part of a process that `ksuspend` and `kresume` are about. -/
structure UProc where
  pid : Int
  state : ProcState
  sz : Nat
  pt : PageMap
  name : CharArr 16
  tracing : BitVec 32
  tf : Fin 288 → Byte

/-- The stack that `exec` and `kresume` put above a memory of size `sz`: two pages at the next page boundary,
the first inaccessible.  A panic is `none`. -/
def addStack (mem : Room) (sz : Nat) (pt : PageMap) : Option (Nat × PageMap) :=
  let sz := npages sz * PGSIZE
  (uvmalloc mem pt sz (sz + 2 * PGSIZE)).map fun (sz, pt) =>
    if sz = 0 then (0, pt) else (sz, uvmclear pt (sz - 2 * PGSIZE))

/-- `exec` of the file `data` with the program headers `phs`.  The arguments it pushes on the stack are
stores into the new memory; the name and the registers are given. -/
def exec (mem : Room) (data : List Byte) (phs : List ProgHdr) (name : CharArr 16) (tf : Fin 288 → Byte)
    (p : UProc) : Ended UProc :=
  match loadSegs mem data phs 0 (fun _ => none) with
  | .panic => .panic
  | .failed => .failed
  | .ok (sz, pt) =>
    match addStack mem sz pt with
    | none => .panic
    | some (sz, pt) => if sz = 0 then .failed else .ok { p with sz := sz, pt := pt, name := name, tf := tf }

/-! ## Runs -/

/-- `growproc(n)`: the size is a `uint`.  A panic is `none`. -/
def growproc (mem : Room) (n : BitVec 32) (p : UProc) : Option UProc :=
  let sz := BitVec.ofNat 32 p.sz
  if 0 < n.toInt then
    (uvmalloc mem p.pt sz.toNat (sz + n).toNat).map fun (r, pt) => if r = 0 then p else { p with sz := r, pt := pt }
  else if n.toInt < 0 then
    (uvmdealloc p.pt sz.toNat (sz + n).toNat).map fun (r, pt) => { p with sz := r, pt := pt }
  else some { p with sz := sz.toNat }

inductive Event
  /-- `sbrk(n)`, with this memory. -/
  | sbrk (n : BitVec 32) (mem : Room)
  /-- A byte is stored, by the process or by a `copyout` for it. -/
  | store (va : Nat) (b : Byte)
  /-- The process enters the kernel with these registers. -/
  | trap (tf : Fin 288 → Byte)

/-- One event.  A store that faults kills the process, so that it is not a step. -/
def step (p : UProc) : Event → Option UProc
  | .sbrk n mem => growproc mem n p
  | .store va b =>
    (walkaddr p.pt va).map fun page =>
      { p with pt := update p.pt (va / PGSIZE) (some { page with bytes := update page.bytes (va % PGSIZE) b }) }
  | .trap tf => some { p with tf := tf }

def Physical : UProc → Event → Prop
  | _, .sbrk _ mem => mem.limit ≤ NPAGES
  | _, _ => True

/-- `p0` is what an `exec` left, and `p` is `p0` after some stores and calls of `sbrk`. -/
def Reached (p0 p : UProc) : Prop :=
  (∃ mem data phs name tf q, mem.limit ≤ NPAGES ∧ exec mem data phs name tf q = .ok p0) ∧
    Lib.Reach step Physical p0 p

/-! ## What the functions do to a page table -/

section Functions

variable {pt pt' : PageMap} {mem : Room} {va : Nat} {page : Page}

theorem walkaddr_eq_some : walkaddr pt va = some page ↔ va < MAXVA ∧ pt (va / PGSIZE) = some page ∧ page.user = true := by
  unfold walkaddr
  by_cases hva : MAXVA ≤ va
  · rw [if_pos hva]
    constructor
    · intro h
      cases h
    · intro h
      exact absurd h.1 (Nat.not_lt.mpr hva)
  · rw [if_neg hva, filter_eq_some_iff]
    exact (and_iff_right (Nat.not_le.mp hva)).symm

def setPages (a b : Nat) (v : Option Page) (pt : PageMap) : PageMap := fun i => if a ≤ i ∧ i < b then v else pt i

theorem setPages_self (a : Nat) (v : Option Page) (pt : PageMap) : setPages a a v pt = pt := by
  funext i
  exact if_neg (by omega)

theorem setPages_update (a n : Nat) (v : Option Page) (pt : PageMap) :
    setPages (a + 1) (a + 1 + n) v (update pt a v) = setPages a (a + (n + 1)) v pt := by
  funext i
  unfold setPages
  by_cases hi : i = a
  · subst hi
    rw [if_neg (by omega), update_self, if_pos (by omega)]
  · rw [update_of_ne hi]
    by_cases hin : a + 1 ≤ i ∧ i < a + 1 + n
    · rw [if_pos hin, if_pos (by omega)]
    · rw [if_neg hin, if_neg (by omega)]

/-- A call that wants the pages from `a` to `b` does not get them, and panics. -/
def Starves (mem : Room) (a b : Nat) : Prop :=
  match mem.why with
  | .charge => False
  | .page => a < mem.limit ∧ mem.limit < b
  | .table => a < b ∧ mem.limit < b

instance (mem : Room) (a b : Nat) : Decidable (Starves mem a b) := by
  unfold Starves
  split <;> infer_instance

theorem Starves.lt {a b : Nat} (h : Starves mem a b) : a < b ∧ mem.limit < b := by
  unfold Starves at h
  split at h
  · exact h.elim
  · omega
  · exact h

theorem mapPages_eq {a0 : Nat} (n : Nat) : ∀ (a : Nat) (pt : PageMap), a = a0 ∨ a0 < a ∧ a ≤ mem.limit →
    mapPages mem a0 n a pt =
      if n = 0 ∨ a + n ≤ mem.limit then .ok (setPages a (a + n) (some zeroPage) pt)
      else if Starves mem a0 (a + n) then .panic else .failed := by
  induction n with
  | zero =>
    intro a pt _
    rw [if_pos (.inl rfl), Nat.add_zero, setPages_self]
    rfl
  | succ n ih =>
    intro a pt ha
    unfold mapPages
    by_cases hle : mem.limit ≤ a
    · have hno : ¬ (n + 1 = 0 ∨ a + (n + 1) ≤ mem.limit) := by omega
      rw [if_pos hle, if_neg hno]
      cases hwhy : mem.why with
      | charge =>
        refine (if_neg ?_).symm
        rw [Starves, hwhy]
        exact id
      | page =>
        have hiff : a0 < a ↔ Starves mem a0 (a + (n + 1)) := by
          rw [Starves, hwhy]
          dsimp only
          omega
        exact if_congr hiff rfl rfl
      | table =>
        refine (if_pos ?_).symm
        rw [Starves, hwhy]
        dsimp only
        omega
    · rw [if_neg hle, ih _ _ (by omega), setPages_update, show a + 1 + n = a + (n + 1) by omega]
      simp only [Nat.add_eq_zero_iff, Nat.one_ne_zero, and_false, false_or]
      by_cases hfits : a + (n + 1) ≤ mem.limit
      · rw [if_pos (.inr hfits), if_pos hfits]
      · rw [if_neg (by omega), if_neg hfits]

theorem uvmalloc_eq {oldsz newsz : Nat} (hle : oldsz ≤ newsz) : uvmalloc mem pt oldsz newsz =
    if npages newsz ≤ npages oldsz ∨ npages newsz ≤ mem.limit then
      some (newsz, setPages (npages oldsz) (npages newsz) (some zeroPage) pt)
    else if Starves mem (npages oldsz) (npages newsz) then none else some (0, pt) := by
  have hend : npages oldsz + (npages newsz - npages oldsz) = npages newsz := by
    rw [npages_eq, npages_eq]
    omega
  unfold uvmalloc
  rw [if_neg (Nat.not_lt.mpr hle), mapPages_eq _ _ _ (.inl rfl), hend]
  by_cases hfits : npages newsz ≤ npages oldsz ∨ npages newsz ≤ mem.limit
  · rw [if_pos hfits, if_pos (hfits.imp_left fun h => by omega)]
  · rw [if_neg hfits, if_neg (by omega)]
    by_cases hstarves : Starves mem (npages oldsz) (npages newsz)
    · rw [if_pos hstarves, if_pos hstarves]
    · rw [if_neg hstarves, if_neg hstarves]

theorem uvmunmap_eq (n : Nat) : ∀ (a : Nat) (pt : PageMap), (∀ i, a ≤ i → i < a + n → (pt i).isSome) →
    uvmunmap n a pt = some (setPages a (a + n) none pt) := by
  induction n with
  | zero =>
    intro a pt _
    rw [Nat.add_zero, setPages_self]
    rfl
  | succ n ih =>
    intro a pt hmapped
    unfold uvmunmap
    rw [if_pos (hmapped a (le_refl a) (by omega)), ih, setPages_update]
    intro i hlow hhigh
    rw [update_of_ne (by omega)]
    exact hmapped i (by omega) (by omega)

/-- Which pages are mapped, and which of them the user can touch. -/
def flags (pt : PageMap) (i : Nat) : Option Bool := (pt i).map (·.user)

theorem flags_setPages {a b i : Nat} {v : Option Page} :
    flags (setPages a b v pt) i = if a ≤ i ∧ i < b then v.map (·.user) else flags pt i := by
  unfold flags setPages
  split <;> rfl

theorem flags_store {a i : Nat} {bytes : Nat → Byte} (h : pt a = some page) :
    flags (update pt a (some { page with bytes := bytes })) i = flags pt i := by
  refine update_same (Option.map Page.user) ?_ i
  rw [h]
  rfl

/-- `loadseg` fills pages and maps none. -/
theorem loadsegLoop_flags {data : List Byte} {offset sz : Nat} (rem : Nat) : ∀ {i : Nat} {pt : PageMap},
    loadsegLoop data va offset sz rem i pt = .ok pt' → ∀ j, flags pt' j = flags pt j := by
  induction rem with
  | zero =>
    intro i pt h j
    cases h
    rfl
  | succ rem ih =>
    intro i pt h j
    unfold loadsegLoop at h
    cases hwalk : walkaddr pt (va + i) with
    | none =>
      rw [hwalk] at h
      cases h
    | some page =>
      rw [hwalk] at h
      dsimp only at h
      split at h
      · cases h
      · rw [ih h j]
        exact flags_store (walkaddr_eq_some.mp hwalk).2.1

theorem loadseg_flags {data : List Byte} {offset sz : Nat} (h : loadseg data pt va offset sz = .ok pt') (j : Nat) :
    flags pt' j = flags pt j := by
  unfold loadseg at h
  split at h
  · cases h
  · exact loadsegLoop_flags _ h j

end Functions

/-! ## The layout -/

/-- The pages below `sz` are mapped and no others, and the user can touch all but page
`g`, if that one is still what `exec` left. -/
structure Laid (g : Nat) (sz : Nat) (pt : PageMap) : Prop where
  mapped : ∀ i, flags pt i = none ↔ npages sz ≤ i
  guard : ∀ i, flags pt i = some false → i = g
  small : npages sz ≤ NPAGES

namespace Laid

variable {g sz sz' : Nat} {mem : Room} {pt pt' : PageMap}

section

variable (h : Laid g sz pt)
include h

theorem congr (hflags : ∀ i, flags pt' i = flags pt i) : Laid g sz pt' where
  mapped i := by rw [hflags, h.mapped]
  guard i hi := h.guard i (by rwa [hflags] at hi)
  small := h.small

theorem grow (hle : sz ≤ sz') (hsmall : npages sz' ≤ NPAGES) :
    Laid g sz' (setPages (npages sz) (npages sz') (some zeroPage) pt) := by
  have hmono : npages sz ≤ npages sz' := by rw [npages_eq, npages_eq]; omega
  refine ⟨fun i => ?_, fun i hi => ?_, hsmall⟩
  · rw [flags_setPages]
    by_cases hin : npages sz ≤ i ∧ i < npages sz'
    · rw [if_pos hin]
      exact iff_of_false (some_ne_none _) (by omega)
    · rw [if_neg hin, h.mapped]
      omega
  · rw [flags_setPages] at hi
    split at hi
    · cases hi
    · exact h.guard i hi

theorem shrink (hle : sz' ≤ sz) : Laid g sz' (setPages (npages sz') (npages sz) none pt) := by
  have hmono : npages sz' ≤ npages sz := by rw [npages_eq, npages_eq]; omega
  refine ⟨fun i => ?_, fun i hi => ?_, hmono.trans h.small⟩
  · rw [flags_setPages]
    by_cases hin : npages sz' ≤ i ∧ i < npages sz
    · rw [if_pos hin]
      exact iff_of_true rfl hin.1
    · rw [if_neg hin, h.mapped]
      omega
  · rw [flags_setPages] at hi
    split at hi
    · cases hi
    · exact h.guard i hi

theorem isSome {i : Nat} (hi : i < npages sz) : (pt i).isSome := by
  have hsome := (h.mapped i).not.mpr (Nat.not_le.mpr hi)
  unfold flags at hsome
  rwa [map_eq_none_iff, ← Ne, ← isSome_iff_ne_none] at hsome

end

theorem uvmalloc {newsz r : Nat} (h : Laid g sz pt) (hlimit : mem.limit ≤ NPAGES)
    (halloc : uvmalloc mem pt sz newsz = some (r, pt')) (hne : r ≠ 0) : Laid g r pt' := by
  by_cases hle : sz ≤ newsz
  · rw [uvmalloc_eq hle] at halloc
    split at halloc
    · rename_i hfits
      cases halloc
      apply h.grow hle
      rcases hfits with hno | hyes
      · exact hno.trans h.small
      · exact hyes.trans hlimit
    split at halloc
    · cases halloc
    · cases halloc
      exact absurd rfl hne
  · unfold Vm.uvmalloc at halloc
    rw [if_pos (Nat.not_le.mp hle)] at halloc
    cases halloc
    exact h

theorem growproc {p p' : UProc} {n : BitVec 32} (h : Laid g p.sz p.pt) (hlimit : mem.limit ≤ NPAGES)
    (hrun : growproc mem n p = some p') : Laid g p'.sz p'.pt := by
  have hsmall := h.small
  rw [npages_eq] at hsmall
  have hsz : (BitVec.ofNat 32 p.sz).toNat = p.sz := by
    rw [BitVec.toNat_ofNat, Nat.mod_eq_of_lt (by unfold NPAGES at hsmall; omega)]
  unfold Vm.growproc at hrun
  dsimp only at hrun
  rw [hsz] at hrun
  generalize (BitVec.ofNat 32 p.sz + n).toNat = newsz at hrun
  split at hrun
  · obtain ⟨⟨r, pt⟩, halloc, rfl⟩ := map_eq_some_iff.mp hrun
    dsimp only
    split
    · exact h
    rename_i hne
    exact h.uvmalloc hlimit halloc hne
  · split at hrun
    · obtain ⟨⟨r, pt⟩, hdealloc, hp'⟩ := map_eq_some_iff.mp hrun
      subst hp'
      unfold uvmdealloc at hdealloc
      split at hdealloc
      · cases hdealloc
        exact h
      rename_i hlt
      have hend : npages newsz + (npages p.sz - npages newsz) = npages p.sz := by
        rw [npages_eq, npages_eq]
        omega
      rw [uvmunmap_eq _ _ _ fun i _ hi => h.isSome (by omega), hend] at hdealloc
      cases hdealloc
      exact h.shrink (Nat.le_of_not_le hlt)
    · cases hrun
      exact h

theorem step {p p' : UProc} {e : Event} (h : Laid g p.sz p.pt) (hphys : Physical p e) (hstep : step p e = some p') :
    Laid g p'.sz p'.pt := by
  cases e with
  | sbrk n mem => exact h.growproc hphys hstep
  | store va b =>
    obtain ⟨page, hwalk, hp'⟩ := map_eq_some_iff.mp hstep
    subst hp'
    exact h.congr fun i => flags_store (walkaddr_eq_some.mp hwalk).2.1
  | trap tf =>
    cases hstep
    exact h

end Laid

/-! ## `exec` -/

theorem loadSegs_laid {mem : Room} {data : List Byte} {g : Nat} (hlimit : mem.limit ≤ NPAGES) (phs : List ProgHdr) :
    ∀ {sz sz' : Nat} {pt pt' : PageMap}, Laid g sz pt → loadSegs mem data phs sz pt = .ok (sz', pt') → Laid g sz' pt' := by
  induction phs with
  | nil =>
    intro sz sz' pt pt' h hrun
    cases hrun
    exact h
  | cons ph phs ih =>
    intro sz sz' pt pt' h hrun
    unfold loadSegs at hrun
    split at hrun
    · cases hrun
    split at hrun
    · cases hrun
    cases halloc : uvmalloc mem pt sz (ph.vaddr + ph.memsz) with
    | none =>
      rw [halloc] at hrun
      cases hrun
    | some r =>
      obtain ⟨sz1, pt1⟩ := r
      rw [halloc] at hrun
      dsimp only at hrun
      split at hrun
      · cases hrun
      rename_i hne
      split at hrun
      · cases hrun
      have h1 := h.uvmalloc hlimit halloc hne
      cases hload : loadseg data pt1 ph.vaddr ph.off ph.filesz with
      | panic | failed =>
        rw [hload] at hrun
        cases hrun
      | ok pt2 =>
        rw [hload] at hrun
        exact ih (h1.congr (loadseg_flags hload)) hrun

theorem addStack_eq {mem : Room} {sz : Nat} (pt : PageMap) : addStack mem sz pt =
    if npages sz + 2 ≤ mem.limit then
      some ((npages sz + 2) * PGSIZE,
        update (setPages (npages sz) (npages sz + 2) (some zeroPage) pt) (npages sz) (some guardPage))
    else if Starves mem (npages sz) (npages sz + 2) then none else some (0, pt) := by
  have hP : PGSIZE = 4096 := rfl
  have hround : npages (npages sz * PGSIZE) = npages sz := by rw [npages_eq, hP]; omega
  have hround2 : npages (npages sz * PGSIZE + 2 * PGSIZE) = npages sz + 2 := by
    rw [npages_eq, hP]
    omega
  have hsum : npages sz * PGSIZE + 2 * PGSIZE = (npages sz + 2) * PGSIZE := by rw [hP]; omega
  have halloc : uvmalloc mem pt _ _ = _ := uvmalloc_eq (Nat.le_add_right (npages sz * PGSIZE) (2 * PGSIZE))
  rw [hround, hround2, hsum] at halloc
  unfold addStack
  by_cases hfits : npages sz + 2 ≤ mem.limit
  · rw [if_pos (.inr hfits)] at halloc
    have hne : (npages sz + 2) * PGSIZE ≠ 0 := by rw [hP]; omega
    have hpage : ((npages sz + 2) * PGSIZE - 2 * PGSIZE) / PGSIZE = npages sz := by rw [hP]; omega
    have hzero : setPages (npages sz) (npages sz + 2) (some zeroPage) pt (npages sz) = some zeroPage := if_pos (by omega)
    simp only [hsum, halloc, map_some, if_neg hne, if_pos hfits, uvmclear, hpage, hzero]
    rfl
  · rw [if_neg (by omega)] at halloc
    simp only [hsum, halloc, if_neg hfits]
    split <;> rfl

theorem flags_addStack {pt : PageMap} (a i : Nat) :
    flags (update (setPages a (a + 2) (some zeroPage) pt) a (some guardPage)) i =
      if i = a then some false else if i = a + 1 then some true else flags pt i := by
  by_cases hi : i = a
  · rw [if_pos hi, hi, flags, update_self]
    rfl
  · rw [if_neg hi, flags, update_of_ne hi]
    show flags (setPages _ _ _ pt) i = _
    rw [flags_setPages]
    by_cases hi' : i = a + 1
    · rw [if_pos (by omega), if_pos hi']
      rfl
    · rw [if_neg (by omega), if_neg hi']

/-- `exec` leaves a guard page under the stack; everything else is accessible. -/
theorem exec_laid {mem : Room} {data : List Byte} {phs : List ProgHdr} {name : CharArr 16} {tf : Fin 288 → Byte}
    {q p : UProc} (hlimit : mem.limit ≤ NPAGES) (hrun : exec mem data phs name tf q = .ok p) :
    Laid (p.sz / PGSIZE - 2) p.sz p.pt := by
  unfold exec at hrun
  cases hsegs : loadSegs mem data phs 0 fun _ => none with
  | panic | failed =>
    rw [hsegs] at hrun
    cases hrun
  | ok r =>
    obtain ⟨sz, pt⟩ := r
    -- no page is closed yet, so any page may be called the guard page
    have hempty : ∀ g, Laid g 0 fun _ => none := fun g =>
      ⟨fun i => iff_of_true rfl (Nat.zero_le i), fun i hi => (by cases hi), by decide⟩
    have h : ∀ g, Laid g sz pt := fun g => loadSegs_laid hlimit phs (hempty g) hsegs
    have hP : PGSIZE = 4096 := rfl
    rw [hsegs] at hrun
    dsimp only at hrun
    rw [addStack_eq] at hrun
    by_cases hfits : npages sz + 2 ≤ mem.limit
    · rw [if_pos hfits] at hrun
      dsimp only at hrun
      rw [if_neg (by rw [hP]; omega)] at hrun
      cases hrun
      have hpages : npages ((npages sz + 2) * PGSIZE) = npages sz + 2 := by
        rw [npages_eq, hP]
        omega
      have hguard : (npages sz + 2) * PGSIZE / PGSIZE - 2 = npages sz := by rw [hP]; omega
      refine ⟨fun i => ?_, fun i hi => ?_, ?_⟩
      · have hmapped := (h 0).mapped i
        rw [flags_addStack, hpages]
        split
        · exact iff_of_false (some_ne_none _) (by omega)
        split
        · exact iff_of_false (some_ne_none _) (by omega)
        · rw [hmapped]
          omega
      · rw [flags_addStack] at hi
        rw [hguard]
        split at hi
        · assumption
        split at hi
        · cases hi
        · exact (h _).guard i hi
      · rw [hpages]
        exact hfits.trans hlimit
    · rw [if_neg hfits] at hrun
      by_cases hstarves : Starves mem (npages sz) (npages sz + 2)
      · rw [if_pos hstarves] at hrun
        cases hrun
      · rw [if_neg hstarves] at hrun
        cases hrun

theorem Reached.laid {p0 p : UProc} (h : Reached p0 p) : Laid (p0.sz / PGSIZE - 2) p.sz p.pt := by
  obtain ⟨⟨mem, data, phs, name, tf, q, hlimit, hexec⟩, hreach⟩ := h
  apply hreach.invariant (I := fun p => Laid (p0.sz / PGSIZE - 2) p.sz p.pt)
  · exact exec_laid hlimit hexec
  · intro p e p' hp hphys hstep
    exact hp.step hphys hstep

end Xv6.Kernel.Vm
