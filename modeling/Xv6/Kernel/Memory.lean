/-
# Xv6.Kernel.Memory — what allocating and freeing pages and blocks does to the two tables
(`kernel/kalloc.c`, and the allocation calls of `proc_pagetable`, `uvmcopy` and
`proc_freepagetable`; the charge of `balloc` and `bfree` in `fs.c`).

Pages are counted.  Every call charges the container of the process that is CURRENT on the CPU, not
the owner of the page.  Two behaviours of `kalloc` matter to everything above it: with an empty free
list it returns without releasing `kmem.lock`, so that no later `kalloc` or `kfree` ever gets it
(`none`); and a refused charge tears the current container down before `0` is returned.
-/
import Xv6.Kernel.Container

namespace Xv6.Kernel

/-! ## `kalloc.c` -/

/-- The free list gives a page, or the lock is kept. -/
def takePage (s : State) : State :=
  { s with
    kmem := if 0 < s.kmem.free then { s.kmem with free := s.kmem.free - 1 }
      else { s.kmem with locked := true } }

def putPage (s : State) : State := { s with kmem := { s.kmem with free := s.kmem.free + 1 } }

/-- `kalloc()` on CPU `k`; the flag says whether a page was returned. -/
def kalloc (k : Fin NCPU) (s : State) : Option (State × Bool) :=
  if s.kmem.locked then none
  else
    let charged := updatecontmem (BitVec.ofNat 64 PGSIZE) (s.mycont k) (takePage s)
    if charged.2 < 0 then
      -- only a container refuses a charge, so the pointer is not null
      match s.mycont k with
      | none => some (charged.1, false)
      | some c => some (climitexceedhandler c charged.1, false)
    else some (charged.1, 0 < s.kmem.free)

def kfree (k : Fin NCPU) (s : State) : Option State :=
  if s.kmem.locked then none
  else some (updatecontmem (neg64 PGSIZE) (s.mycont k) (putPage s)).1

def kfreeN (k : Fin NCPU) : Nat → State → Option State
  | 0, s => some s
  | n + 1, s => (kfree k s).bind (kfreeN k n)

/-! ## Page tables -/

def npages (sz : Nat) : Nat := (sz + (PGSIZE - 1)) / PGSIZE

theorem npages_eq (sz : Nat) : npages sz = (sz + 4095) / 4096 := rfl

theorem npages_mul (n : Nat) : npages (n * PGSIZE) = n := by
  unfold npages PGSIZE
  omega

/-- One level of `walk`: the page-table page exists, or `kalloc` is asked for it. -/
def walkLevel (k : Fin NCPU) (l : Bool) (s : State) : Option (State × Bool) :=
  if l then some (s, true) else kalloc k s

/-- `mappages` of one page at the top of the address space, into a table whose two lower levels for
that region exist or not (`l1`, `l0`): they are created as needed.  Returns the levels that exist
afterwards and whether the page was mapped. -/
def mapTop (k : Fin NCPU) (l1 l0 : Bool) (s : State) : Option (State × Bool × Bool × Bool) := do
  let (s, l1) ← walkLevel k l1 s
  if !l1 then return (s, false, l0, false)
  let (s, l0) ← walkLevel k l0 s
  return (s, l1, l0, l0)

/-- `proc_pagetable(p)`: a root page, then the trampoline and the trapframe, whose results are not
looked at.  Without a root page `mappages` dereferences the null pointer. -/
def procPagetable (k : Fin NCPU) (s : State) : Option (State × PageTable) := do
  let (s, root) ← kalloc k s
  if !root then none
  let (s, l1, l0, trampoline) ← mapTop k false false s
  let (s, l1, l0, trapframe) ← mapTop k l1 l0 s
  return (s, ⟨1 + l1.toNat + l0.toNat, trampoline, trapframe⟩)

/-- The page-table pages `walk` still has to create for user page `i` when the pages below `i` are
mapped: a level-1 page every `512*512` pages, a level-0 page every `512`. -/
def tablesFor (i : Nat) : Nat := (if i % (512 * 512) = 0 then 1 else 0) + if i % 512 = 0 then 1 else 0

/-- `n` calls of `kalloc` as `walk` makes them, stopping at the first failure; the count of pages
obtained. -/
def kallocN (k : Fin NCPU) : Nat → State → Option (State × Nat × Bool)
  | 0, s => some (s, 0, true)
  | n + 1, s => do
    let (s, page) ← kalloc k s
    if !page then return (s, 0, false)
    let (s, m, ok) ← kallocN k n s
    return (s, m + 1, ok)

/-- The error exit of `uvmcopy` after `i` pages: `uvmunmap(new, 0, i, 1)`.  With `i = 0` its last
page is computed as `0 - 1` and the call panics. -/
def uvmcopyErr (k : Fin NCPU) (i : Nat) (s : State) : Option (State × Bool) :=
  if i = 0 then none else (kfreeN k i s).map fun s => (s, false)

/-- The loop of `uvmcopy` with `rem` pages to go, the pages below `i` copied and `pt` page-table
pages in the new table. -/
def uvmcopyFrom (k : Fin NCPU) : Nat → Nat → Nat → State → Option (State × Nat × Bool)
  | 0, _, pt, s => some (s, pt, true)
  | rem + 1, i, pt, s => do
    let (s, mem) ← kalloc k s
    if !mem then
      let (s, ok) ← uvmcopyErr k i s
      return (s, pt, ok)
    let (s, m, mapped) ← kallocN k (tablesFor i) s
    if !mapped then
      let s ← kfree k s
      let (s, ok) ← uvmcopyErr k i s
      return (s, pt + m, ok)
    uvmcopyFrom k rem (i + 1) (pt + m) s

/-- `uvmcopy(old, new, sz)` into a table with `pt` page-table pages: the pages the new table has
afterwards, and whether it succeeded. -/
def uvmcopy (k : Fin NCPU) (sz pt : Nat) (s : State) : Option (State × Nat × Bool) :=
  uvmcopyFrom k (npages sz) 0 pt s

/-- `proc_freepagetable(pagetable, sz)`: unmapping the trampoline or the trapframe panics when it
was never mapped; the pages are only freed when `sz > 0`. -/
def procFreepagetable (k : Fin NCPU) (pt : PageTable) (sz : Nat) (s : State) : Option State :=
  if !(pt.trampoline && pt.trapframe) then none
  else if sz = 0 then some s
  else (kfreeN k (npages sz) s).bind (kfreeN k pt.pages)

/-- The charge `balloc` makes for the block it found, and what follows a refusal: `bfree` gives the
charge back (which was not made) and the container is torn down. -/
def ballocCharge (k : Fin NCPU) (s : State) : State :=
  let charged := updatecontdsk (BitVec.ofNat 64 BSIZE) (s.mycont k) s
  if charged.2 < 0 then
    let s := (updatecontdsk (neg64 BSIZE) (s.mycont k) charged.1).1
    match s.mycont k with
    | none => s
    | some c => climitexceedhandler c s
  else charged.1

def bfreeCharge (k : Fin NCPU) (s : State) : State := (updatecontdsk (neg64 BSIZE) (s.mycont k) s).1

end Xv6.Kernel
