/-
# Xv6.Fs.References — what a path lookup does to the reference counts.

`namex` takes references with `iget`, `idup` and `dirlookup` and drops them with `iput`.  The sum of all
counts of the cache tells how many it still has when it returns.  The reference to `rootip`, taken in
the first line, is dropped on none of its exits, and a container other than the root keeps one more
for each directory it leaves.
-/
import Xv6.Fs.Confine
import Mathlib.Algebra.BigOperators.Group.Finset.Piecewise
import Mathlib.Algebra.BigOperators.Group.Finset.Sigma

namespace Xv6.Fs

open Option (bind_eq_some_iff map_eq_some_iff)
open Kernel (Slot Ino CStr CharArr ROOTINO)
open Function Finset Option

variable {r : Option Iptr} {name name' : CharArr DIRSIZ} {parent : Bool}

/-! ## Counting references -/

def refCount (s : Inodes) (i : Ino) : Int := ∑ ip, if (s.cache ip).inum = i then s.refs ip else 0

def resultRef (s : Inodes) (r : Option Iptr) (i : Ino) : Int :=
  if r.any fun ip => (s.cache ip).inum == i then 1 else 0

/-- A lookup that went from `s` to `s'` with result `r` has left the
references to every inode as they were, except for one more to the result. -/
def RefNeutral (s s' : Inodes) (r : Option Iptr) : Prop := ∀ i, refCount s' i = refCount s i + resultRef s' r i

def totalRefs (s : Inodes) : Int := ∑ ip, s.refs ip

def worth (r : Option Iptr) : Int := if r.isSome then 1 else 0

variable {s s' : Inodes} {ip rootip : Iptr} {me : Caller}

theorem sum_refCount (s : Inodes) (S : Finset Ino) (hS : ∀ ip, (s.cache ip).inum ∈ S) :
    ∑ i ∈ S, refCount s i = totalRefs s := by
  unfold refCount totalRefs
  rw [sum_comm]
  refine Finset.sum_congr rfl fun ip _ => ?_
  rw [sum_ite_eq, if_pos (hS ip)]

theorem sum_resultRef (s : Inodes) (r : Option Iptr) (S : Finset Ino)
    (hS : ∀ ip, (s.cache ip).inum ∈ S) : ∑ i ∈ S, resultRef s r i = worth r := by
  cases r with
  | none => simp [resultRef, worth]
  | some ip =>
    simp only [resultRef, worth, any_some, beq_iff_eq, isSome_some, if_true]
    rw [sum_ite_eq, if_pos (hS ip)]

theorem RefNeutral.total (h : RefNeutral s s' r) : totalRefs s' = totalRefs s + worth r := by
  let S : Finset Ino := (univ.image fun ip => (s.cache ip).inum) ∪ univ.image fun ip => (s'.cache ip).inum
  have hs : ∀ ip, (s.cache ip).inum ∈ S := fun ip =>
    mem_union_left _ (mem_image_of_mem _ (Finset.mem_univ ip))
  have hs' : ∀ ip, (s'.cache ip).inum ∈ S := fun ip =>
    mem_union_right _ (mem_image_of_mem _ (Finset.mem_univ ip))
  calc totalRefs s' = ∑ i ∈ S, refCount s' i := (sum_refCount s' S hs').symm
    _ = ∑ i ∈ S, (refCount s i + resultRef s' r i) := Finset.sum_congr rfl fun i _ => h i
    _ = totalRefs s + worth r := by
        rw [sum_add_distrib, sum_refCount s S hs, sum_resultRef s' r S hs']

/-! ## What the functions take and drop -/

theorem totalRefs_of_update {x : Int} (h : s'.refs = update s.refs ip x) :
    totalRefs s' = totalRefs s + (x - s.refs ip) := by
  unfold totalRefs
  rw [h, sum_update_of_mem (Finset.mem_univ ip), ← add_sum_erase _ s.refs (Finset.mem_univ ip), sdiff_singleton_eq_erase]
  omega

theorem iget_total {inum : Ino} (h : iget inum s = some (s', ip)) : totalRefs s' = totalRefs s + 1 := by
  rw [totalRefs_of_update (iget_refs h)]
  omega

theorem idup_total (s : Inodes) (ip : Iptr) : totalRefs (idup ip s) = totalRefs s + 1 := by
  rw [idup, totalRefs_of_update (refs_set s ip _)]
  show totalRefs s + (s.refs ip + 1 - s.refs ip) = totalRefs s + 1
  omega

theorem Alike.total (h : Alike s s') : totalRefs s' = totalRefs s := by
  rw [totalRefs, h.refs, totalRefs]

theorem iput_total (h : iput ip s = some s') : totalRefs s' = totalRefs s - 1 := by
  have hset : ∀ x : Inode, x.ref = (s.cache ip).ref - 1 → totalRefs (s.set ip x) = totalRefs s - 1 := by
    intro x hx
    rw [totalRefs_of_update (refs_set s ip x), hx]
    show totalRefs s + (s.refs ip - 1 - s.refs ip) = totalRefs s - 1
    omega
  unfold iput at h
  dsimp only at h
  split at h
  · split at h
    · cases h
    · cases h
      exact hset { s.cache ip with valid := false, ref := (s.cache ip).ref - 1 } rfl
  · cases h
    exact hset _ rfl

theorem iunlockput_total {t : Slot} (h : iunlockput t ip s = some s') : totalRefs s' = totalRefs s - 1 := by
  obtain ⟨u, hu, h⟩ := bind_eq_some_iff.mp h
  rw [iput_total h, (iunlock_alike hu).total]

theorem dirlookup_total
    (h : dirlookup ip name s = some (s', r)) : totalRefs s' = totalRefs s + worth r := by
  unfold dirlookup at h
  split at h
  · cases h
  split at h
  · cases h
    exact (add_zero _).symm
  · obtain ⟨⟨u, next⟩, hu, h⟩ := map_eq_some_iff.mp h
    cases h
    exact iget_total hu

theorem leaveDir_total {root : Root} (h : leaveDir me root ip s = some s') : totalRefs s - 1 ≤ totalRefs s' := by
  unfold leaveDir at h
  split at h
  · exact le_of_eq (iunlockput_total h).symm
  · rw [(iunlock_alike h).total]
    omega

/-! ## The lookup -/

/-- What a walk that holds one directory may still have when a round ends. -/
def RoundTotal (s s' : Inodes) : Walk → Prop
  | .next _ => totalRefs s ≤ totalRefs s'
  | .done r => totalRefs s' = totalRefs s - 1 + worth r

theorem namexRound_total {last : Bool} {w : Walk}
    (h : namexRound me rootip last name ip s = some (s', w)) : RoundTotal s s' w := by
  obtain ⟨u, hu, h⟩ := bind_eq_some_iff.mp h
  have hlock := (ilock_alike hu).total
  have hfail : ∀ v, totalRefs v = totalRefs s →
      (iunlockput me.slot ip v).map (·, Walk.done none) = some (s', w) → RoundTotal s s' w := by
    intro v hv hx
    obtain ⟨v', hv', hw⟩ := map_eq_some_iff.mp hx
    obtain ⟨rfl, rfl⟩ := Prod.mk.inj hw
    show totalRefs v' = totalRefs s - 1 + 0
    have := iunlockput_total hv'
    omega
  split at h
  · exact hfail u hlock h
  split at h
  · obtain ⟨v, hv, hw⟩ := map_eq_some_iff.mp h
    obtain ⟨rfl, rfl⟩ := Prod.mk.inj hw
    show totalRefs v = totalRefs s - 1 + 1
    have := (iunlock_alike hv).total
    omega
  obtain ⟨⟨v, next⟩, hv, h⟩ := bind_eq_some_iff.mp h
  have hlook := dirlookup_total hv
  cases next with
  | none =>
    refine hfail v ?_ h
    change totalRefs v = totalRefs u + 0 at hlook
    omega
  | some next =>
    obtain ⟨root, -, h⟩ := bind_eq_some_iff.mp h
    obtain ⟨v', hv', hw⟩ := bind_eq_some_iff.mp h
    obtain ⟨rfl, rfl⟩ := Prod.mk.inj (some.inj hw)
    show totalRefs s ≤ totalRefs v'
    have hleave := leaveDir_total hv'
    change totalRefs v = totalRefs u + 1 at hlook
    omega

theorem namexEnd_total
    (h : namexEnd parent name ip s = some (s', r, name')) :
    totalRefs s' = totalRefs s - 1 + worth r := by
  unfold namexEnd at h
  split at h
  · obtain ⟨u, hu, h⟩ := map_eq_some_iff.mp h
    obtain ⟨rfl, hr⟩ := Prod.mk.inj h
    obtain ⟨rfl, -⟩ := Prod.mk.inj hr
    show totalRefs u = totalRefs s - 1 + 0
    have := iput_total hu
    omega
  · cases h
    show totalRefs s = totalRefs s - 1 + 1
    omega

theorem namexLoop_total :
    ∀ (fuel : Nat) (path : List UInt8) (name : CharArr DIRSIZ) (ip : Iptr) (s : Inodes),
      namexLoop (some me) parent rootip fuel path name ip s = some (s', r, name') →
      totalRefs s - 1 + worth r ≤ totalRefs s' := by
  intro fuel
  induction fuel with
  | zero =>
    intro path name ip s h
    exact le_of_eq (namexEnd_total h).symm
  | succ fuel ih =>
    intro path name ip s h
    unfold namexLoop at h
    split at h
    · exact le_of_eq (namexEnd_total h).symm
    obtain ⟨me', hme, h⟩ := bind_eq_some_iff.mp h
    cases hme
    obtain ⟨⟨u, w⟩, hu, h⟩ := bind_eq_some_iff.mp h
    have hround := namexRound_total hu
    cases w with
    | done r =>
      cases h
      exact le_of_eq hround.symm
    | next ip' =>
      have hrest := ih _ _ ip' u h
      change totalRefs s ≤ totalRefs u at hround
      omega

/-- **A lookup by a process keeps a reference**: the one `rootip` stands for, at least. -/
theorem namex_total {path : CStr}
    (h : namex (some me) path parent name s = some (s', r, name')) :
    totalRefs s + 1 + worth r ≤ totalRefs s' := by
  obtain ⟨⟨u, rootip⟩, hu, h⟩ := bind_eq_some_iff.mp h
  obtain ⟨⟨v, ip⟩, hv, h⟩ := bind_eq_some_iff.mp h
  have hget := iget_total hu
  have hdup : totalRefs v = totalRefs u + 1 := by
    unfold namexStart at hv
    dsimp only at hv
    split at hv
    · obtain ⟨ip', -, hv⟩ := map_eq_some_iff.mp hv
      obtain ⟨rfl, rfl⟩ := Prod.mk.inj hv
      exact idup_total u ip'
    · obtain ⟨ip', -, hv⟩ := map_eq_some_iff.mp hv
      obtain ⟨rfl, rfl⟩ := Prod.mk.inj hv
      exact idup_total u ip'
  have hloop := namexLoop_total _ _ _ _ _ h
  omega

/-- **No lookup by a process is neutral**, whatever its container, the path and the mode. -/
theorem namex_not_refNeutral (me : Caller) (path : CStr) (parent : Bool) (name name' : CharArr DIRSIZ)
    (s s' : Inodes) (r : Option Iptr)
    (h : namex (some me) path parent name s = some (s', r, name')) : ¬ RefNeutral s s' r := by
  intro hneutral
  have htotal := hneutral.total
  have hkeeps := namex_total h
  omega

/-- Process 1 of `smallFiles`, in a container with root directory `/a`, looks up `b`. -/
theorem namex_not_refNeutral_small : ∃ s' r name',
    namex (some (smallFiles.caller 1)) (.ofBytes [98] rfl) false dot smallFiles.inodes =
      some (s', r, name') ∧ ¬ RefNeutral smallFiles.inodes s' r := by
  have hret : (namex (some (smallFiles.caller 1)) (.ofBytes [98] rfl) false dot
      smallFiles.inodes).isSome = true := by
    decide
  obtain ⟨⟨s', r, name'⟩, hx⟩ := isSome_iff_exists.mp hret
  exact ⟨s', r, name', hx, namex_not_refNeutral _ _ _ _ _ _ _ _ hx⟩

/-- The first process of `smallFiles`, in the root container and with working directory `/`, looks up
`a`: the root directory had two references and has three. -/
theorem not_refNeutral : ¬ ∀ (me : Caller) (path : CStr) (parent : Bool) (name name' : CharArr DIRSIZ)
    (s s' : Inodes) (r : Option Iptr),
    namex (some me) path parent name s = some (s', r, name') → RefNeutral s s' r := by
  intro hall
  have hrun : (namex (some (smallFiles.caller 0)) (.ofBytes [97] rfl) false dot
      smallFiles.inodes).any (fun x =>
        decide (refCount smallFiles.inodes ROOTINO = 2 ∧ refCount x.1 ROOTINO = 3 ∧
          resultRef x.1 x.2.1 ROOTINO = 0)) = true := by
    decide
  obtain ⟨⟨s', r, name'⟩, hx, hcheck⟩ := (any_eq_true _ _).mp hrun
  obtain ⟨hbefore, hafter, hresult⟩ := of_decide_eq_true hcheck
  have hroot := hall _ _ _ _ _ _ _ _ hx ROOTINO
  rw [hbefore, hafter, hresult] at hroot
  exact absurd hroot (by decide)

end Xv6.Fs
