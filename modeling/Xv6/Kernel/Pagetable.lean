/-
# Xv6.Kernel.Pagetable — page tables in physical memory (`kernel/vm.c`; `exec`, `loadseg`, `proc_pagetable`
and `growproc` as far as they work on the page table of a process).

Physical memory is a table of words for each page, and a page table is a page of it: a page-table page can
be reached, written and freed like any other.  Pages and the addresses of pages are their numbers.
`kalloc` may fail at every call, and it returns any page of the memory that the process does not hold: what
the rest of the system has, takes and frees in between is left open, since no part of it frees a page that
it does not hold.  `answers` says how the calls to come end.  A call that finds the free list empty does not
release `kmem.lock`, so that the next `kalloc` or `kfree` stops in `acquire`.
-/
import Xv6.Kernel.Tables
import Xv6.Lib.Outcome
import Xv6.Lib.Radix
import Xv6.Lib.Trace

namespace Xv6.Kernel.Pagetable

open Function (update)
open Lib.Radix (store)

/-! ## Memory -/

/-- A physical page, by number. -/
abbrev Page := Nat

/-- An index into a page-table page, or a word of a page. -/
abbrev Idx := Fin 512

abbrev MAXVA : Nat := 2 ^ 38
abbrev TRAMPOLINE : Nat := MAXVA - PGSIZE
abbrev TRAPFRAME : Nat := TRAMPOLINE - PGSIZE
abbrev KERNBASE : Nat := 0x80000000
abbrev PHYSTOP : Nat := KERNBASE + 128 * 1024 * 1024

def pgroundup (sz : Nat) : Nat := (sz + PGSIZE - 1) % 2 ^ 64 / PGSIZE * PGSIZE

def pgrounddown (a : Nat) : Nat := a / PGSIZE * PGSIZE

inductive Panic
  | walk | remap
  /-- `uvmunmap: walk`, `uvmunmap: not mapped` and `uvmunmap: not a leaf`. -/
  | unmapWalk | unmapNotMapped | unmapNotLeaf
  | uvmclear | kfree | loadseg
  /-- The kernel follows a null pointer. -/
  | kerneltrap
  /-- `acquire` panics or spins, since the lock is not released. -/
  | acquire
  deriving DecidableEq

inductive Answer
  | page (pg : Page)
  /-- The container has no memory left, and `0` is returned. -/
  | refused
  /-- The free list is empty. -/
  | empty

structure Phys where
  mem : Page → Idx → Nat
  /-- The pages of this process, and those of the kernel that it maps. -/
  held : Page → Bool
  /-- `kmem.lock` is not released. -/
  locked : Bool
  answers : List Answer

abbrev M := StateT Phys (Except Panic)

def Ram (pg : Page) : Prop := KERNBASE / PGSIZE ≤ pg ∧ pg < PHYSTOP / PGSIZE
deriving Decidable

/-- Eight bytes of `c`, as `memset` writes them. -/
def bytes8 (c : Nat) : Nat := c * 0x0101010101010101

def read (t : Page) (i : Idx) : M Nat := fun s => .ok (s.mem t i, s)

def write (t : Page) (i : Idx) (w : Nat) : M Unit := fun s => .ok ((), { s with mem := store s.mem t i w })

def memset (pg : Page) (c : Nat) : M Unit := fun s => .ok ((), { s with mem := update s.mem pg fun _ => bytes8 c })

/-- `kalloc()`; a page that it cannot return is an answer like `refused`. -/
def kalloc : M (Option Page) := fun s =>
  if s.locked = true then .error .acquire
  else
    match s.answers with
    | [] => .ok (none, s)
    | .refused :: rest => .ok (none, { s with answers := rest })
    | .empty :: rest => .ok (none, { s with locked := true, answers := rest })
    | .page pg :: rest =>
      if Ram pg ∧ s.held pg = false then
        .ok (some pg, ⟨update s.mem pg fun _ => bytes8 5, update s.held pg true, s.locked, rest⟩)
      else .ok (none, { s with answers := rest })

def kfree (pg : Page) : M Unit := fun s =>
  if ¬ Ram pg then .error .kfree
  else if s.locked = true then .error .acquire
  else .ok ((), { s with mem := update s.mem pg fun _ => bytes8 1, held := update s.held pg false })

/-! ## `vm.c` -/

abbrev PTE_V : Nat := 1
abbrev PTE_R : Nat := 2
abbrev PTE_W : Nat := 4
abbrev PTE_X : Nat := 8
abbrev PTE_U : Nat := 16

def pteValid (pte : Nat) : Bool := pte % 2 == 1

def pteUser (pte : Nat) : Bool := pte / 16 % 2 == 1

def pa2pte (pg : Page) : Nat := pg * 1024

def pte2pa (pte : Nat) : Page := pte / 1024

def pteFlags (pte : Nat) : Nat := pte % 1024

def px (level va : Nat) : Idx := ⟨va / 2 ^ (12 + 9 * level) % 512, Nat.mod_lt _ (by decide)⟩

/-- The loop of `walk`, with `level` levels to go. -/
def walkFrom (alloc : Bool) (va : Nat) : Nat → Page → M (Option (Page × Idx))
  | 0, pagetable => pure (some (pagetable, px 0 va))
  | level + 1, pagetable => do
    let pte ← read pagetable (px (level + 1) va)
    if pteValid pte = true then walkFrom alloc va level (pte2pa pte)
    else if alloc = true then
      match ← kalloc with
      | none => pure none
      | some table =>
        memset table 0
        write pagetable (px (level + 1) va) (pa2pte table ||| PTE_V)
        walkFrom alloc va level table
    else pure none

/-- `walk(pagetable, va, alloc)`: where the entry is. -/
def walk (pagetable : Page) (va : Nat) (alloc : Bool) : M (Option (Page × Idx)) :=
  if MAXVA ≤ va then throw .walk else walkFrom alloc va 2 pagetable

def walkaddr (pagetable : Page) (va : Nat) : M (Option Page) :=
  if MAXVA ≤ va then pure none
  else do
    match ← walk pagetable va false with
    | none => pure none
    | some (t, i) =>
      let pte ← read t i
      if pteValid pte = true ∧ pteUser pte = true then pure (some (pte2pa pte)) else pure none

/-- The number of turns of a loop over the pages from `va` to `va + size - 1`, less one. -/
def moreTurns (va size : Nat) : Nat :=
  (pgrounddown ((va + size + (2 ^ 64 - 1)) % 2 ^ 64) + 2 ^ 64 - pgrounddown va) % 2 ^ 64 / PGSIZE

def mapOne (pagetable : Page) (perm : Nat) (a : Nat) (pg : Page) : M Bool := do
  match ← walk pagetable a true with
  | none => pure false
  | some (t, i) =>
    let pte ← read t i
    if pteValid pte = true then throw .remap
    else
      write t i (pa2pte pg ||| perm ||| PTE_V)
      pure true

def mappagesLoop (pagetable : Page) (perm : Nat) : Nat → Nat → Page → M Bool
  | 0, a, pg => mapOne pagetable perm a pg
  | n + 1, a, pg => do
    if (← mapOne pagetable perm a pg) = true then mappagesLoop pagetable perm n (a + PGSIZE) (pg + 1) else pure false

/-- `mappages(pagetable, va, size, pa, perm)`; does it return 0. -/
def mappages (pagetable : Page) (va size : Nat) (pg : Page) (perm : Nat) : M Bool :=
  mappagesLoop pagetable perm (moreTurns va size) (pgrounddown va) pg

def unmapOne (pagetable : Page) (doFree : Bool) (a : Nat) : M Unit := do
  match ← walk pagetable a false with
  | none => throw .unmapWalk
  | some (t, i) =>
    let pte ← read t i
    if pteValid pte = false then throw .unmapNotMapped
    else if pteFlags pte = PTE_V then throw .unmapNotLeaf
    else
      if doFree = true then kfree (pte2pa pte)
      write t i 0

def uvmunmapLoop (pagetable : Page) (doFree : Bool) : Nat → Nat → M Unit
  | 0, a => unmapOne pagetable doFree a
  | n + 1, a => do
    unmapOne pagetable doFree a
    uvmunmapLoop pagetable doFree n (a + PGSIZE)

def uvmunmap (pagetable : Page) (va size : Nat) (doFree : Bool) : M Unit :=
  uvmunmapLoop pagetable doFree (moreTurns va size) (pgrounddown va)

def uvmdealloc (pagetable : Page) (oldsz newsz : Nat) : M Nat := do
  if oldsz ≤ newsz then pure oldsz
  else
    let newup := pgroundup newsz
    if newup < pgroundup oldsz then uvmunmap pagetable newup (oldsz - newup) true
    pure newsz

/-- The loop of `uvmalloc`, with `n` turns to go; does it end without an error.  An address that wraps is not
reached, since `walk` panics above `MAXVA`. -/
def uvmallocLoop (pagetable : Page) (oldsz : Nat) : Nat → Nat → M Bool
  | 0, _ => pure true
  | n + 1, a => do
    match ← kalloc with
    | none =>
      let _ ← uvmdealloc pagetable a oldsz
      pure false
    | some mem =>
      memset mem 0
      if (← mappages pagetable a PGSIZE mem (PTE_W ||| PTE_X ||| PTE_R ||| PTE_U)) = true then
        uvmallocLoop pagetable oldsz n (a + PGSIZE)
      else
        kfree mem
        let _ ← uvmdealloc pagetable a oldsz
        pure false

def uvmalloc (pagetable : Page) (oldsz newsz : Nat) : M Nat := do
  if newsz < oldsz then pure oldsz
  else
    let oldsz := pgroundup oldsz
    if (← uvmallocLoop pagetable oldsz ((newsz - oldsz + (PGSIZE - 1)) / PGSIZE) oldsz) = true then pure newsz
    else pure 0

def uvmclear (pagetable : Page) (va : Nat) : M Unit := do
  match ← walk pagetable va false with
  | none => throw .uvmclear
  | some (t, i) =>
    let pte ← read t i
    write t i (pte - pte / 16 % 2 * PTE_U)

/-! ## `exec` and `growproc` -/

/-- What a page table maps for the kernel: the page of `trampoline` in its text, and `p->tf`, which
`allocproc` took from the free list. -/
structure Fixed where
  trampoline : Page
  tf : Page
  ne : tf ≠ trampoline

/-- `proc_pagetable(p)`.  What `mappages` returns is ignored, and so is a `uvmcreate` that fails. -/
def procPagetable (k : Fixed) : M Page := do
  match ← kalloc with
  | none => throw .kerneltrap
  | some pagetable =>
    memset pagetable 0
    let _ ← mappages pagetable TRAMPOLINE PGSIZE k.trampoline (PTE_R ||| PTE_X)
    let _ ← mappages pagetable TRAPFRAME PGSIZE k.tf (PTE_R ||| PTE_W)
    pure pagetable

/-- A program header of type `ELF_PROG_LOAD`, and what `readi` does to each page of the segment; `none` is a
read that is too short. -/
structure Seg where
  vaddr : BitVec 64
  memsz : BitVec 64
  filesz : BitVec 64
  content : Nat → Option ((Idx → Nat) → Idx → Nat)

/-- The loop of `loadseg`, with `n` turns to go; does it return 0. -/
def loadsegLoop (pagetable : Page) (seg : Seg) : Nat → Nat → M Bool
  | 0, _ => pure true
  | n + 1, i => do
    match ← walkaddr pagetable (seg.vaddr.toNat + i * PGSIZE) with
    | none => throw .loadseg
    | some pg =>
      match seg.content i with
      | none => pure false
      | some change =>
        modify fun s => { s with mem := update s.mem pg (change (s.mem pg)) }
        loadsegLoop pagetable seg n (i + 1)

/-- The loop of `exec` over the program headers: the size, or `none` for `goto bad`.  The size that `loadseg`
gets is a `uint`. -/
def loadSegs (pagetable : Page) : List Seg → Nat → M (Option Nat)
  | [], sz => pure (some sz)
  | seg :: segs, sz => do
    if seg.memsz < seg.filesz ∨ seg.vaddr + seg.memsz < seg.vaddr then pure none
    else
      let sz ← uvmalloc pagetable sz (seg.vaddr + seg.memsz).toNat
      if sz = 0 ∨ seg.vaddr.toNat % PGSIZE ≠ 0 then pure none
      else if (← loadsegLoop pagetable seg ((seg.filesz.toNat % 2 ^ 32 + (PGSIZE - 1)) / PGSIZE) 0) = true then
        loadSegs pagetable segs sz
      else pure none

/-- `exec`: the page table and the size of the new image, or `none` when it fails.  The arguments that it
pushes are stores into the new memory. -/
def exec (k : Fixed) (segs : List Seg) : M (Option (Page × Nat)) := do
  let pagetable ← procPagetable k
  match ← loadSegs pagetable segs 0 with
  | none => pure none
  | some sz =>
    let sz := pgroundup sz
    let sz ← uvmalloc pagetable sz (sz + 2 * PGSIZE)
    if sz = 0 then pure none
    else
      uvmclear pagetable (sz - 2 * PGSIZE)
      pure (some (pagetable, sz))

/-- `growproc(n)`: what it returns, and `p->sz`.  The size is a `uint` there. -/
def growproc (pagetable : Page) (n : BitVec 32) (psz : Nat) : M (Int × Nat) := do
  let sz := BitVec.ofNat 32 psz
  if 0 < n.toInt then
    let sz := BitVec.ofNat 32 (← uvmalloc pagetable sz.toNat (sz + n).toNat)
    if sz = 0 then pure (-1, psz) else pure (0, sz.toNat)
  else if n.toInt < 0 then
    let sz := BitVec.ofNat 32 (← uvmdealloc pagetable sz.toNat (sz + n).toNat)
    pure (0, sz.toNat)
  else pure (0, sz.toNat)

structure Image where
  phys : Phys
  pagetable : Page
  sz : Nat
  panic : Option Panic

inductive Event
  /-- `growproc(n)`, and how the calls of `kalloc` in it end. -/
  | growproc (n : BitVec 32) (answers : List Answer)
  /-- A word is stored, by the process or by a `copyout` for it. -/
  | store (va : Nat) (w : Nat)

def step (s : Image) (e : Event) : Option Image :=
  if s.panic ≠ none then none
  else
    match e with
    | .growproc n answers =>
      match growproc s.pagetable n s.sz { s.phys with answers := answers } with
      | .error e => some { s with panic := some e }
      | .ok ((_, sz), phys) => some { s with phys := phys, sz := sz }
    | .store va w =>
      match walkaddr s.pagetable va s.phys with
      | .ok (some pg, _) =>
        some { s with phys.mem := store s.phys.mem pg ⟨va % PGSIZE / 8, by unfold PGSIZE; omega⟩ w }
      | _ => none

/-- Physical memory when `exec` starts: of the pages that `exec` handles, two are in use. -/
def Fixed.phys (k : Fixed) (mem : Page → Idx → Nat) (answers : List Answer) : Phys :=
  ⟨mem, fun pg => pg == k.trampoline || pg == k.tf, false, answers⟩

end Xv6.Kernel.Pagetable
