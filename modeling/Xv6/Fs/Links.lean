/-
# Xv6.Fs.Links — link counts and the directory tree.

`linkCount` counts the directory entries that name an inode.  A directory starts with its entries `.`
and `..`; what follows are its plain entries (`Tree.dots`).  A directory other than the root has exactly
one plain entry, in the directory its `..` names (`Tree.place`); that is why the calls may correct the
link count of the directory they work in, and of no other, when they make or remove a directory.

The calls that change the tree give one directory an entry more or less, and change the inode that the
entry is for.  `Edit` treats them all at once.
-/
import Xv6.Lib.Count
import Xv6.Fs.Held
import Mathlib.Algebra.Order.BigOperators.Group.Finset

namespace Xv6.Fs

open Kernel (Ino CharArr ROOTINO)
open Function List

/-! ## Counting entries -/

def entriesFor (i : Ino) (l : List Dirent) : Nat := l.countP fun e => e.inum.toNat = i

/-- How many entries of directories name inode `i`, `.` entries apart. -/
def linkCount (nodes : Ino → Dinode) (i : Ino) : Nat := ∑ d : Fin NINODES,
  if (nodes d).type = .dir then
    (nodes d).ents.countP fun e => e.inum.toNat = i ∧ namecmp e.name dot ≠ 0
  else 0

/-- The same with the first entry of every directory left out, whatever its name. -/
def links (nodes : Ino → Dinode) (i : Ino) : Nat := ∑ d : Fin NINODES, entriesFor i ((nodes d).ents.drop 1)

/-- The inode of the second entry, where `..` is. -/
def up (l : List Dirent) : Ino := (l.getD 1 ⟨0, fun _ => 0⟩).inum.toNat

section Entries

variable {i d : Ino} {l : List Dirent} {e : Dirent}

@[simp] theorem entriesFor_cons : entriesFor i (e :: l) = entriesFor i l + if e.inum.toNat = i then 1 else 0 := by
  simp [entriesFor, countP_cons]

theorem entriesFor_pos : 0 < entriesFor i l ↔ ∃ e ∈ l, e.inum.toNat = i := by
  simp [entriesFor, countP_pos_iff]

/-- The directory has no entries in use but the first two. -/
def Bare (l : List Dirent) : Prop := ∀ e ∈ l.drop 2, e.inum = 0

theorem entriesFor_bare (hi : i ≠ 0) (h : ∀ e ∈ l, e.inum = 0) : entriesFor i l = 0 := by
  by_contra hne
  obtain ⟨e, he, rfl⟩ := entriesFor_pos.mp (Nat.pos_of_ne_zero hne)
  rw [h e he] at hi
  exact hi rfl

/-- A directory with number `d` starts with `.` and `..`, and calls nothing else `.`. -/
def Dots (d : Ino) (l : List Dirent) : Prop := ∃ a b rest, l = a :: b :: rest ∧ a.inum.toNat = d ∧
  a.name = dot ∧ b.name = dotdot ∧ ∀ e ∈ rest, e.inum ≠ 0 → namecmp e.name dot ≠ 0

theorem Dots.bare (h : Dots d l) (hb : Bare l) (hi : i ≠ 0) : entriesFor i (l.drop 1) = if i = up l then 1 else 0 := by
  obtain ⟨a, b, rest, rfl, -⟩ := h
  have hrest : entriesFor i rest = 0 := entriesFor_bare hi hb
  show entriesFor i (b :: rest) = if i = b.inum.toNat then 1 else 0
  rw [entriesFor_cons, hrest, Nat.zero_add]
  exact if_congr eq_comm rfl rfl

theorem Dots.countP (h : Dots d l) (hi : i ≠ 0) :
    (l.countP fun e => e.inum.toNat = i ∧ namecmp e.name dot ≠ 0) = entriesFor i (l.drop 1) := by
  obtain ⟨a, b, rest, rfl, -, ha, hb, hrest⟩ := h
  have hself : namecmp a.name dot = 0 := by rw [ha]; decide
  have hup : namecmp b.name dot ≠ 0 := by rw [hb]; decide
  have htail : (rest.countP fun e => e.inum.toNat = i ∧ namecmp e.name dot ≠ 0) = entriesFor i rest := by
    refine countP_congr fun e he => ?_
    simp only [decide_eq_true_eq]
    constructor
    · intro h
      exact h.1
    intro h
    refine ⟨h, hrest e he ?_⟩
    rintro h0
    rw [h0] at h
    exact hi h.symm
  show _ = entriesFor i (b :: rest)
  rw [countP_cons, countP_cons, htail, entriesFor_cons]
  simp [hself, hup]

end Entries

/-! ## The tree -/

/-- The directories form a tree, and the link counts are right and fit into a
`short`. -/
structure Tree (nodes : Ino → Dinode) : Prop where
  range : ∀ i, (nodes i).type ≠ .free → 0 < i ∧ i < NINODES
  root : (nodes ROOTINO).type = .dir
  top : up (nodes ROOTINO).ents = ROOTINO
  leaf : ∀ i, (nodes i).type ≠ .dir → (nodes i).ents = []
  dots : ∀ d, (nodes d).type = .dir → Dots d (nodes d).ents
  above : ∀ d, (nodes d).type = .dir → (nodes (up (nodes d).ents)).type = .dir
  named : ∀ d, ∀ e ∈ (nodes d).ents, e.inum ≠ 0 → (nodes e.inum.toNat).type ≠ .free
  place : ∀ c, (nodes c).type = .dir → ∀ d, entriesFor c ((nodes d).ents.drop 2) =
    if c ≠ ROOTINO ∧ d = up (nodes c).ents then 1 else 0
  count : ∀ i, (nodes i).type ≠ .free → (nodes i).nlink = links nodes i
  small : ∀ i, (nodes i).type ≠ .free → (nodes i).nlink < 2 ^ 15

variable {nodes : Ino → Dinode} {i c d : Ino} {l : List Dirent} {e : Dirent} {t : CharArr DIRSIZ} {x : Dinode}

theorem le_links (hd : d < NINODES) : entriesFor i ((nodes d).ents.drop 1) ≤ links nodes i :=
  Finset.single_le_sum (f := fun d : Fin NINODES => entriesFor i ((nodes d).ents.drop 1))
    (fun _ _ => Nat.zero_le _) (Finset.mem_univ ⟨d, hd⟩)

theorem links_update (nodes : Ino → Dinode) (hd : d < NINODES) (x : Dinode) (i : Ino) :
    links (update nodes d x) i + entriesFor i ((nodes d).ents.drop 1) = links nodes i + entriesFor i (x.ents.drop 1) := by
  have hsum := Lib.sum_add_eq (f := fun k : Fin NINODES => entriesFor i ((nodes k).ents.drop 1))
    (g := fun k : Fin NINODES => entriesFor i ((update nodes d x k).ents.drop 1)) ⟨d, hd⟩
    fun j hj => by
      have hne : (j : Nat) ≠ d := fun h => hj (Fin.ext h)
      simp only [update_of_ne hne]
  simp only [update_self] at hsum
  exact hsum

namespace Tree

section

variable (h : Tree nodes)
include h

theorem ne_zero (hi : (nodes i).type ≠ .free) : i ≠ 0 := Nat.ne_of_gt (h.range i hi).1

theorem isdir (he : e ∈ (nodes d).ents) : (nodes d).type = .dir := by
  by_contra hne
  rw [h.leaf d hne] at he
  cases he

theorem cons (hd : (nodes d).type = .dir) :
    ∃ a b rest, (nodes d).ents = a :: b :: rest ∧ a.inum.toNat = d ∧ a.inum ≠ 0 ∧
      a.name = dot ∧ b.inum ≠ 0 ∧ b.name = dotdot ∧ ∀ e ∈ rest, e.inum ≠ 0 → namecmp e.name dot ≠ 0 := by
  obtain ⟨a, b, rest, hl, ha, hdot, hdd, hrest⟩ := h.dots d hd
  have hfree : (nodes d).type ≠ .free := by
    rw [hd]
    nofun
  have hup : (nodes b.inum.toNat).type ≠ .free := by
    have := h.above d hd
    rw [hl] at this
    rw [show (nodes b.inum.toNat).type = .dir from this]
    nofun
  refine ⟨a, b, rest, hl, ha, ?_, hdot, ?_, hdd, hrest⟩
  · intro h0
    rw [h0] at ha
    exact h.ne_zero hfree ha.symm
  · intro h0
    rw [h0] at hup
    exact h.ne_zero hup rfl

theorem links_pos (he : e ∈ (nodes d).ents.drop 1) : 0 < links nodes e.inum.toNat := by
  have hd := h.isdir (mem_of_mem_drop he)
  have hrange : d < NINODES := (h.range d (by rw [hd]; nofun)).2
  exact Nat.lt_of_lt_of_le (entriesFor_pos.mpr ⟨e, he, rfl⟩) (le_links hrange)

end

theorem drop_two {e : Dirent} (he : e ∈ l.drop 2) : e ∈ l.drop 1 := by
  rw [← drop_drop (i := 1) (j := 1)] at he
  exact mem_of_mem_drop he

section

variable (h : Tree nodes)
include h

theorem dir_pos (hc : (nodes c).type = .dir) : 0 < links nodes c := by
  by_cases hroot : c = ROOTINO
  · subst hroot
    obtain ⟨a, b, rest, hl, -⟩ := h.dots _ hc
    have htop := h.top
    rw [hl] at htop
    have hmem : b ∈ (nodes ROOTINO).ents.drop 1 := by rw [hl]; exact mem_cons_self
    have := h.links_pos hmem
    rwa [show b.inum.toNat = ROOTINO from htop] at this
  · have hplace := h.place c hc (up (nodes c).ents)
    rw [if_pos ⟨hroot, rfl⟩] at hplace
    obtain ⟨e, he, rfl⟩ := entriesFor_pos.mp (hplace ▸ Nat.one_pos)
    exact h.links_pos (drop_two he)

theorem dir_nlink (hc : (nodes c).type = .dir) : 0 < (nodes c).nlink := by
  rw [h.count c (by rw [hc]; nofun)]
  exact Int.natCast_pos.mpr (h.dir_pos hc)

theorem free_links (hi : i ≠ 0) (hfree : (nodes i).type = .free) : links nodes i = 0 := by
  refine Finset.sum_eq_zero fun d _ => ?_
  by_contra hne
  obtain ⟨e, he, rfl⟩ := entriesFor_pos.mp (Nat.pos_of_ne_zero hne)
  refine h.named d e (mem_of_mem_drop he) ?_ hfree
  intro h0
  rw [h0] at hi
  exact hi rfl

theorem named_pos (he : e ∈ (nodes d).ents) (hlive : e.inum ≠ 0) : 0 < (nodes e.inum.toNat).nlink := by
  rw [h.count _ (h.named d e he hlive)]
  have hd := h.isdir he
  obtain ⟨a, b, rest, hl, ha, -⟩ := h.dots d hd
  rw [hl] at he
  rcases mem_cons.mp he with rfl | he
  · rw [ha]
    exact Int.natCast_pos.mpr (h.dir_pos hd)
  · have hmem : e ∈ (nodes d).ents.drop 1 := by
      rw [hl]
      exact he
    exact Int.natCast_pos.mpr (h.links_pos hmem)

/-- Nothing lies below a directory without plain entries. -/
theorem up_ne (hb : Bare (nodes c).ents) (hroot : c ≠ ROOTINO)
    (hd : (nodes d).type = .dir) : up (nodes d).ents ≠ c := by
  rintro rfl
  have hne : d ≠ ROOTINO := by
    rintro rfl
    exact hroot h.top
  have hplace := h.place d hd (up (nodes d).ents)
  rw [if_pos ⟨hne, rfl⟩, entriesFor_bare (h.ne_zero (by rw [hd]; nofun)) hb] at hplace
  cases hplace

/-- The link counts of directories stay far below the limit of a `short`. -/
theorem dir_le (hc : (nodes c).type = .dir) : links nodes c ≤ NINODES * 2 := by
  have hle : ∀ d : Fin NINODES, entriesFor c ((nodes d).ents.drop 1) ≤ 2 := by
    intro d
    by_cases hd : (nodes d).type = .dir
    · obtain ⟨a, b, rest, hl, -⟩ := h.dots d hd
      have hplace := h.place c hc d
      rw [hl] at hplace ⊢
      show entriesFor c (b :: rest) ≤ 2
      have hrest : entriesFor c rest ≤ 1 := by
        rw [show entriesFor c rest = _ from hplace]
        split <;> omega
      rw [entriesFor_cons]
      split <;> omega
    · rw [h.leaf d hd]
      exact Nat.zero_le _
  calc links nodes c ≤ (Finset.univ : Finset (Fin NINODES)).card • 2 := Finset.sum_le_card_nsmul _ _ 2 fun d _ => hle d
    _ = NINODES * 2 := by
        rw [Finset.card_univ, Fintype.card_fin]
        rfl

theorem linkCount_eq (hi : i ≠ 0) : linkCount nodes i = links nodes i := by
  refine Finset.sum_congr rfl fun d _ => ?_
  split
  · rename_i hd
    exact (h.dots d hd).countP hi
  · rename_i hd
    rw [h.leaf d hd]
    rfl

end

end Tree

/-! ## One entry more or less -/

/-- The plain entries `l'` are `l` with `δ` more entries for `c`. -/
structure Edits (c : Ino) (δ : Int) (l l' : List Dirent) : Prop where
  mem : ∀ e ∈ l', e.inum ≠ 0 → e ∈ l ∨ e.inum.toNat = c ∧ namecmp e.name dot ≠ 0
  count : ∀ i, i ≠ 0 → (entriesFor i l' : Int) = entriesFor i l + if i = c then δ else 0

/-- The tree after a call: `x` takes the place of inode `c`, and directory `d` has the entries `l` and
the link count `n`. -/
def edited (nodes : Ino → Dinode) (c : Ino) (x : Dinode) (d : Ino) (n : Int) (l : List Dirent) : Ino → Dinode :=
  update (update nodes c x) d { nodes d with nlink := n, ents := l }

section Edit

variable {a b : Dirent} {rest rest' : List Dirent} {x : Dinode} {n δ : Int} {k : Ino}

/-- What the calls may do to an inode: it has no plain entries before or after, its `..` is the
directory the call works in, and the counts say what the entries say. -/
structure Fits (nodes : Ino → Dinode) (c : Ino) (x : Dinode) (d : Ino) (n δ : Int) : Prop where
  range : 0 < c ∧ c < NINODES
  root : c ≠ ROOTINO
  bare : Bare (nodes c).ents
  old : (nodes c).type = .dir → up (nodes c).ents = d
  leaf : x.type ≠ .dir → x.ents = []
  new : x.type = .dir → Dots c x.ents ∧ Bare x.ents ∧ up x.ents = d ∧ links nodes c = 0 ∧ δ = 1
  nlink : x.type ≠ .free → x.nlink = links nodes c + δ
  small : x.type ≠ .free → x.nlink < 2 ^ 15
  free : x.type = .free → links nodes c + δ = 0
  parent : n = (nodes d).nlink + (if x.type = .dir then 1 else 0) -
    if (nodes c).type = .dir then 1 else 0

theorem edited_dir : edited nodes c x d n l d = { nodes d with nlink := n, ents := l } := update_self _ _ _

structure Edit (nodes nodes' : Ino → Dinode) (c : Ino) (x : Dinode) (d : Ino) (n δ : Int) (a b : Dirent)
    (rest rest' : List Dirent) : Prop where
  tree : Tree nodes
  dir : (nodes d).type = .dir
  ne : d ≠ c
  ents : (nodes d).ents = a :: b :: rest
  edits : Edits c δ rest rest'
  fits : Fits nodes c x d n δ
  eq : nodes' = edited nodes c x d n (a :: b :: rest')

namespace Edit

variable {nodes' : Ino → Dinode} (h : Edit nodes nodes' c x d n δ a b rest rest')
include h

theorem self : nodes' c = x := by rw [h.eq, edited, update_of_ne h.ne.symm, update_self]

theorem at_dir : nodes' d = { nodes d with nlink := n, ents := a :: b :: rest' } := by
  rw [h.eq, edited_dir]

theorem of_ne (hi : i ≠ c) (hid : i ≠ d) : nodes' i = nodes i := by
  rw [h.eq, edited, update_of_ne hid, update_of_ne hi]

theorem type (hi : i ≠ c) : (nodes' i).type = (nodes i).type := by
  by_cases hid : i = d
  · rw [hid, h.at_dir]
  · rw [h.of_ne hi hid]

theorem up_eq (hi : i ≠ c) : up (nodes' i).ents = up (nodes i).ents := by
  by_cases hid : i = d
  · rw [hid, h.at_dir, h.ents]
    rfl
  · rw [h.of_ne hi hid]

theorem links (hi : i ≠ 0) :
    (links nodes' i : Int) =
      Fs.links nodes i + (if i = c then δ else 0) + (if x.type = .dir ∧ i = d then 1 else 0) -
        if (nodes c).type = .dir ∧ i = d then 1 else 0 := by
  have hrange : d < NINODES := (h.tree.range d (by rw [h.dir]; nofun)).2
  have hone := links_update nodes h.fits.range.2 x i
  have htwo := links_update (update nodes c x) hrange
    { nodes d with nlink := n, ents := a :: b :: rest' } i
  rw [update_of_ne h.ne, h.ents] at htwo
  have htwo' : Fs.links nodes' i + entriesFor i (b :: rest) =
      Fs.links (update nodes c x) i + entriesFor i (b :: rest') := by
    rw [h.eq]
    exact htwo
  have hcount := h.edits.count i hi
  have hold : entriesFor i ((nodes c).ents.drop 1) =
      if (nodes c).type = .dir ∧ i = d then 1 else 0 := by
    by_cases hc : (nodes c).type = .dir
    · rw [(h.tree.dots c hc).bare h.fits.bare hi, h.fits.old hc]
      simp [hc]
    · rw [h.tree.leaf c hc, if_neg fun hand => hc hand.1]
      rfl
  have hnew : entriesFor i (x.ents.drop 1) = if x.type = .dir ∧ i = d then 1 else 0 := by
    by_cases hc : x.type = .dir
    · obtain ⟨hdots, hbare, hup, -⟩ := h.fits.new hc
      rw [hdots.bare hbare hi, hup]
      simp [hc]
    · rw [h.fits.leaf hc, if_neg fun hand => hc hand.1]
      rfl
  rw [entriesFor_cons, entriesFor_cons] at htwo'
  rw [hold, hnew] at hone
  split_ifs at hone htwo' hcount ⊢ <;> omega

theorem plain (hi : i ≠ 0) :
    (entriesFor i ((nodes' k).ents.drop 2) : Int) =
      entriesFor i ((nodes k).ents.drop 2) + if k = d ∧ i = c then δ else 0 := by
  by_cases hkd : k = d
  · subst hkd
    rw [h.at_dir, h.ents]
    show (entriesFor i rest' : Int) = entriesFor i rest + _
    rw [h.edits.count i hi]
    simp
  rw [if_neg fun hand => hkd hand.1, Int.add_zero]
  by_cases hkc : k = c
  · subst hkc
    have hbare : Bare x.ents := by
      by_cases hdir : x.type = .dir
      · exact (h.fits.new hdir).2.1
      · rw [h.fits.leaf hdir]
        exact nofun
    rw [h.self, entriesFor_bare hi hbare, entriesFor_bare hi h.fits.bare]
  · rw [h.of_ne hkc hkd]

theorem dots (hk : (nodes' k).type = .dir) : Dots k (nodes' k).ents := by
  by_cases hkd : k = d
  · subst hkd
    rw [h.at_dir]
    obtain ⟨a', b', rest0, hl', ha, hdot, hdd, hrest⟩ := h.tree.dots k h.dir
    rw [h.ents] at hl'
    cases hl'
    refine ⟨a, b, rest', rfl, ha, hdot, hdd, fun e hmem hlive => ?_⟩
    rcases h.edits.mem e hmem hlive with hold | ⟨-, hname⟩
    · exact hrest e hold hlive
    · exact hname
  by_cases hkc : k = c
  · subst hkc
    rw [h.self] at hk ⊢
    exact (h.fits.new hk).1
  · rw [h.of_ne hkc hkd] at hk ⊢
    exact h.tree.dots k hk

theorem leaf (hk : (nodes' k).type ≠ .dir) : (nodes' k).ents = [] := by
  by_cases hkd : k = d
  · subst hkd
    rw [h.at_dir] at hk
    exact absurd h.dir hk
  by_cases hkc : k = c
  · subst hkc
    rw [h.self] at hk ⊢
    exact h.fits.leaf hk
  · rw [h.of_ne hkc hkd] at hk ⊢
    exact h.tree.leaf k hk

theorem free (hfree : x.type = .free) (hmem : e ∈ (nodes' k).ents) : e.inum.toNat ≠ c := by
  intro hname
  have hk : (nodes' k).type = .dir := by
    by_contra hne
    rw [h.leaf hne] at hmem
    cases hmem
  have hkc : k ≠ c := by
    rintro rfl
    rw [h.self, hfree] at hk
    cases hk
  obtain ⟨a', b', rest0, hl', ha, -⟩ := h.dots hk
  rw [hl'] at hmem
  rcases mem_cons.mp hmem with rfl | hmem
  · exact hkc (ha.symm.trans hname)
  -- the entry counts as a link, and there are none
  have hrange : k < NINODES := by
    rw [h.type hkc] at hk
    exact (h.tree.range k (by rw [hk]; nofun)).2
  have hpos : 0 < entriesFor c ((nodes' k).ents.drop 1) := by
    rw [hl']
    exact entriesFor_pos.mpr ⟨e, hmem, hname⟩
  have hle := Nat.lt_of_lt_of_le hpos (le_links hrange)
  have hlinks := h.links (Nat.ne_of_gt h.fits.range.1)
  have hnone := h.fits.free hfree
  rw [if_pos rfl, if_neg fun hand => h.ne hand.2.symm, if_neg fun hand => h.ne hand.2.symm] at hlinks
  omega

theorem named (hmem : e ∈ (nodes' k).ents) (hlive : e.inum ≠ 0) : (nodes' e.inum.toNat).type ≠ .free := by
  by_cases hname : e.inum.toNat = c
  · rw [hname, h.self]
    intro hfree
    exact h.free hfree hmem hname
  rw [h.type hname]
  by_cases hkd : k = d
  · subst hkd
    rw [h.at_dir] at hmem
    have hold : e ∈ (nodes k).ents := by
      rw [h.ents]
      rcases mem_cons.mp hmem with rfl | hmem
      · exact mem_cons_self
      rcases mem_cons.mp hmem with rfl | hmem
      · exact mem_cons_of_mem _ mem_cons_self
      rcases h.edits.mem e hmem hlive with hold | ⟨hc, -⟩
      · exact mem_cons_of_mem _ (mem_cons_of_mem _ hold)
      · exact absurd hc hname
    exact h.tree.named k e hold hlive
  by_cases hkc : k = c
  · subst hkc
    rw [h.self] at hmem
    have hdir : x.type = .dir := by
      by_contra hne
      rw [h.fits.leaf hne] at hmem
      cases hmem
    obtain ⟨⟨a', b', rest0, hl', ha, -⟩, hbare, hup, -⟩ := h.fits.new hdir
    rw [hl'] at hmem hbare hup
    rcases mem_cons.mp hmem with rfl | hmem
    · exact absurd ha hname
    rcases mem_cons.mp hmem with rfl | hmem
    · rw [show e.inum.toNat = d from hup, h.dir]
      nofun
    · exact absurd (hbare e hmem) hlive
  · rw [h.of_ne hkc hkd] at hmem
    exact h.tree.named k e hmem hlive

theorem place {c' : Ino} (hc' : (nodes' c').type = .dir) (k : Ino) : entriesFor c' ((nodes' k).ents.drop 2) =
    if c' ≠ ROOTINO ∧ k = up (nodes' c').ents then 1 else 0 := by
  by_cases hcc : c' = c
  · subst hcc
    have hplain := h.plain (k := k) (Nat.ne_of_gt h.fits.range.1)
    rw [h.self] at hc' ⊢
    obtain ⟨-, -, hup, hzero, rfl⟩ := h.fits.new hc'
    -- a new directory was named nowhere
    have hnone : entriesFor c' ((nodes k).ents.drop 2) = 0 := by
      by_contra hne
      obtain ⟨e, hmem, rfl⟩ := entriesFor_pos.mp (Nat.pos_of_ne_zero hne)
      exact absurd hzero (Nat.ne_of_gt (h.tree.links_pos (Tree.drop_two hmem)))
    rw [hnone] at hplain
    rw [hup]
    simp only [and_true, h.fits.root, ne_eq, not_false_eq_true, true_and] at hplain ⊢
    split_ifs at hplain ⊢ <;> omega
  · rw [h.up_eq hcc]
    rw [h.type hcc] at hc'
    have hne : c' ≠ 0 := h.tree.ne_zero (by rw [hc']; nofun)
    have hplain := h.plain (k := k) hne
    rw [if_neg fun hand => hcc hand.2, Int.add_zero] at hplain
    rw [← h.tree.place c' hc' k]
    exact Int.ofNat_inj.mp hplain

theorem count (hk : (nodes' k).type ≠ .free) : (nodes' k).nlink = Fs.links nodes' k := by
  by_cases hkc : k = c
  · subst hkc
    rw [h.links (Nat.ne_of_gt h.fits.range.1)]
    rw [h.self] at hk ⊢
    rw [h.fits.nlink hk, if_pos rfl, if_neg fun hand => h.ne hand.2.symm,
      if_neg fun hand => h.ne hand.2.symm, Int.add_zero, Int.sub_zero]
  rw [h.type hkc] at hk
  rw [h.links (h.tree.ne_zero hk), if_neg hkc, Int.add_zero, ← h.tree.count k hk]
  by_cases hkd : k = d
  · subst hkd
    rw [h.at_dir]
    show n = _
    rw [h.fits.parent]
    simp only [and_true]
  · rw [h.of_ne hkc hkd, if_neg fun hand => hkd hand.2, if_neg fun hand => hkd hand.2, Int.add_zero, Int.sub_zero]

theorem small (hk : (nodes' k).type ≠ .free) : (nodes' k).nlink < 2 ^ 15 := by
  by_cases hkc : k = c
  · subst hkc
    rw [h.self] at hk ⊢
    exact h.fits.small hk
  by_cases hkd : k = d
  · subst hkd
    rw [h.at_dir]
    have hcount := h.tree.count k (by rw [h.dir]; nofun)
    have hle : Fs.links nodes k ≤ 400 := h.tree.dir_le h.dir
    have hn := h.fits.parent
    show n < 2 ^ 15
    split_ifs at hn <;> omega
  · rw [h.of_ne hkc hkd] at hk ⊢
    exact h.tree.small k hk

/-- **The calls keep the tree.** -/
theorem keeps : Tree nodes' where
  range k hk := by
    by_cases hkc : k = c
    · subst hkc
      exact h.fits.range
    · rw [h.type hkc] at hk
      exact h.tree.range k hk
  root := by
    rw [h.type (Ne.symm h.fits.root)]
    exact h.tree.root
  top := by
    rw [h.up_eq (Ne.symm h.fits.root)]
    exact h.tree.top
  leaf _ := h.leaf
  dots _ := h.dots
  above k hk := by
    by_cases hkc : k = c
    · subst hkc
      rw [h.self] at hk ⊢
      rw [(h.fits.new hk).2.2.1, h.type h.ne]
      exact h.dir
    · rw [h.type hkc] at hk
      rw [h.up_eq hkc, h.type (h.tree.up_ne h.fits.bare h.fits.root hk)]
      exact h.tree.above k hk
  named _ _ := h.named
  place _ := h.place
  count _ := h.count
  small _ := h.small

end Edit

end Edit

/-! ## Directory entries -/

section Directory

variable {name s : CharArr DIRSIZ} {k : Nat} {de : Dirent} {i : Fin DIRSIZ}

theorem findEntry_some (h : findEntry name l = some (e, k)) : l[k]? = some e ∧ e.inum ≠ 0 ∧ namecmp name e.name = 0 := by
  induction l generalizing k with
  | nil => cases h
  | cons a l ih =>
    unfold findEntry at h
    split at h
    · rename_i hhit
      cases h
      exact ⟨rfl, hhit⟩
    · obtain ⟨⟨e', k'⟩, hfind, heq⟩ := Option.map_eq_some_iff.mp h
      cases heq
      exact ih hfind

theorem findEntry_none (h : findEntry name l = none) : ∀ e ∈ l, e.inum ≠ 0 → namecmp name e.name ≠ 0 := by
  induction l with
  | nil => exact nofun
  | cons a l ih =>
    unfold findEntry at h
    split at h
    · cases h
    rename_i hmiss
    intro e he hlive
    rcases mem_cons.mp he with rfl | he
    · exact fun hname => hmiss ⟨hlive, hname⟩
    · exact ih (Option.map_eq_none_iff.mp h) e he hlive

theorem entryName_of (h : ∀ j, j < i → name j ≠ 0) : entryName name i = name i := by
  unfold entryName
  rw [if_neg]
  rintro ⟨j, hj, hzero⟩
  exact h j hj hzero

theorem entryName_behind (h : ¬ ∀ j, j < i → name j ≠ 0) : entryName name i = 0 := by
  obtain ⟨j, hj, hzero⟩ : ∃ j, j < i ∧ name j = 0 := by
    push Not at h
    exact h
  exact if_pos ⟨j, hj, hzero⟩

theorem entryName_of_ne (h : entryName name i ≠ 0) : entryName name i = name i := by
  unfold entryName at h ⊢
  split at h
  · exact absurd rfl h
  · rename_i hnul
    rw [if_neg hnul]

theorem namecmp_eq_zero : namecmp s t = 0 ↔ ∀ k, (∀ j, j < k → s j ≠ 0) → s k = t k := by
  unfold namecmp
  rw [Kernel.strncmp_eq_zero_iff]
  have hat : ∀ (u : CharArr DIRSIZ) (k : Fin DIRSIZ), nameAt u k = u k := fun u k => dif_pos k.isLt
  constructor
  · intro h k hpre
    rw [← hat s, ← hat t]
    refine h k k.isLt fun j hj => ?_
    rw [show nameAt s j = s ⟨j, hj.trans k.isLt⟩ from hat s ⟨j, hj.trans k.isLt⟩]
    exact hpre _ hj
  intro h k hk hpre
  rw [show nameAt s k = s ⟨k, hk⟩ from hat s ⟨k, hk⟩, show nameAt t k = t ⟨k, hk⟩ from hat t ⟨k, hk⟩]
  refine h ⟨k, hk⟩ fun j hj => ?_
  rw [← hat s]
  exact hpre j hj

/-- **Names are equal when they are copied to the same entry.** -/
theorem namecmp_eq_zero_iff : namecmp s t = 0 ↔ entryName s = entryName t := by
  rw [namecmp_eq_zero]
  constructor
  · intro h
    funext i
    -- neither has its first NUL before the other
    have hleft : (∀ j, j < i → t j ≠ 0) → ∀ j, j < i → s j ≠ 0 := by
      intro ht j
      induction j using WellFoundedLT.induction with
      | ind j ih =>
        intro hj
        rw [h j fun m hm => ih m hm (hm.trans hj)]
        exact ht j hj
    have hright : (∀ j, j < i → s j ≠ 0) → ∀ j, j < i → t j ≠ 0 := by
      intro hs j hj
      rw [← h j fun m hm => hs m (hm.trans hj)]
      exact hs j hj
    by_cases hpre : ∀ j, j < i → s j ≠ 0
    · rw [entryName_of hpre, entryName_of (hright hpre), h i hpre]
    · rw [entryName_behind hpre, entryName_behind fun ht => hpre (hleft ht)]
  · intro h k hpre
    have hcopy : entryName t k = s k := by rw [← h, entryName_of hpre]
    have ht : ∀ j, j < k → t j ≠ 0 := by
      intro j hj
      have hj' : entryName t j = s j := by rw [← h, entryName_of fun m hm => hpre m (hm.trans hj)]
      have hne : entryName t j ≠ 0 := by rw [hj']; exact hpre j hj
      rwa [← entryName_of_ne hne]
    rw [← hcopy, entryName_of ht]

theorem entryName_entryName (s : CharArr DIRSIZ) : entryName (entryName s) = entryName s := by
  apply namecmp_eq_zero_iff.mp
  rw [namecmp_eq_zero]
  intro k hpre
  exact entryName_of fun j hj => entryName_of_ne (hpre j hj) ▸ hpre j hj

theorem namecmp_entryName (h : namecmp (entryName name) s = 0) : namecmp name s = 0 := by
  rwa [namecmp_eq_zero_iff, entryName_entryName, ← namecmp_eq_zero_iff] at h

theorem addEntry_cons {a b : Dirent} (ha : a.inum ≠ 0) (hb : b.inum ≠ 0) :
    addEntry de (a :: b :: l) = a :: b :: addEntry de l := by
  rw [addEntry, if_neg ha, addEntry, if_neg hb]

theorem Edits.add (hc : c < 2 ^ 16) (hname : namecmp name dot ≠ 0) :
    Edits c 1 l (addEntry ⟨.ofNat c, entryName name⟩ l) := by
  have hinum : (UInt16.ofNat c).toNat = c := UInt16.toNat_ofNat_of_lt hc
  have hnew : namecmp (entryName name) dot ≠ 0 := fun h0 => hname (namecmp_entryName h0)
  induction l with
  | nil =>
    refine ⟨fun e he _ => ?_, fun i hi => ?_⟩
    · rw [mem_singleton.mp he]
      exact .inr ⟨hinum, hnew⟩
    · simp [addEntry, hinum, eq_comm]
  | cons a l ih =>
    unfold addEntry
    split
    · rename_i hdead
      refine ⟨fun e he _ => ?_, fun i hi => ?_⟩
      · rcases mem_cons.mp he with rfl | he
        · exact .inr ⟨hinum, hnew⟩
        · exact .inl (mem_cons_of_mem _ he)
      have hne : ¬ a.inum.toNat = i := by rw [hdead]; exact Ne.symm hi
      rw [entriesFor_cons, entriesFor_cons, if_neg hne, hinum]
      simp [eq_comm]
    · refine ⟨fun e he hlive => ?_, fun i hi => ?_⟩
      · rcases mem_cons.mp he with rfl | he
        · exact .inl mem_cons_self
        · exact (ih.mem e he hlive).imp_left (mem_cons_of_mem _)
      · have hcount := ih.count i hi
        rw [entriesFor_cons, entriesFor_cons]
        push_cast
        omega

theorem Edits.remove {z : Dirent} (hz : z.inum = 0) (he : l[k]? = some e) (hc : e.inum.toNat = c) :
    Edits c (-1) l (l.set k z) := by
  induction l generalizing k with
  | nil => cases he
  | cons a l ih =>
    cases k with
    | zero =>
      cases he
      refine ⟨fun e' he' hlive => ?_, fun i hi => ?_⟩
      · rcases mem_cons.mp he' with rfl | he'
        · exact absurd hz hlive
        · exact .inl (mem_cons_of_mem _ he')
      have hne : ¬ z.inum.toNat = i := by rw [hz]; exact Ne.symm hi
      show (entriesFor i (z :: l) : Int) = entriesFor i (e :: l) + _
      rw [entriesFor_cons, entriesFor_cons, if_neg hne, hc]
      by_cases hic : c = i
      · simp [hic]
      · simp [hic, Ne.symm hic]
    | succ k =>
      have hrest := ih he
      refine ⟨fun e' he' hlive => ?_, fun i hi => ?_⟩
      · rcases mem_cons.mp he' with rfl | he'
        · exact .inl mem_cons_self
        · exact (hrest.mem e' he' hlive).imp_left (mem_cons_of_mem _)
      have hcount := hrest.count i hi
      show (entriesFor i (a :: l.set k z) : Int) = entriesFor i (a :: l) + _
      rw [entriesFor_cons, entriesFor_cons]
      push_cast
      omega

end Directory

/-! ## What the calls do to the tree -/

namespace Tree

variable {name : CharArr DIRSIZ} {type : FileType} {k : Nat} {z : Dirent}

theorem walkable (h : Tree nodes) : Walkable nodes where
  root := by
    rw [h.root]
    nofun
  named d e he hlive := ⟨h.named d e he hlive, Int.ne_of_gt (h.named_pos he hlive)⟩

theorem ne_dot (h : Tree nodes) (hd : (nodes d).type = .dir)
    (hnone : findEntry name (nodes d).ents = none) : namecmp name dot ≠ 0 := by
  obtain ⟨a, b, rest, hl, -, ha, hdot, -⟩ := h.cons hd
  rw [hl] at hnone
  rw [← hdot]
  exact findEntry_none hnone a mem_cons_self ha

theorem range_lt (h : i < NINODES) : i < 2 ^ 16 := Nat.lt_trans h (by decide)

section

variable (h : Tree nodes)
include h

section

variable (hd : (nodes d).type = .dir)
include hd

theorem add {n : Int} (hdc : d ≠ c)
    (hnone : findEntry name (nodes d).ents = none) (hx : Fits nodes c x d n 1) :
    Tree (edited nodes c x d n (addEntry ⟨.ofNat c, entryName name⟩ (nodes d).ents)) := by
  obtain ⟨a, b, rest, hl, -, ha, -, hb, -⟩ := h.cons hd
  rw [hl, addEntry_cons ha hb]
  exact Edit.keeps ⟨h, hd, hdc, hl, Edits.add (range_lt hx.range.2) (h.ne_dot hd hnone), hx, rfl⟩

section

variable (hnone : findEntry name (nodes d).ents = none)
include hnone

theorem create (hc : 0 < c ∧ c < NINODES)
    (hfree : (nodes c).type = .free) (htype : type ≠ .dir) (htype' : type ≠ .free) :
    Tree (edited nodes c ⟨type, 1, []⟩ d (nodes d).nlink
      (addEntry ⟨.ofNat c, entryName name⟩ (nodes d).ents)) := by
  have hdir : (nodes c).type ≠ .dir := by
    rw [hfree]
    nofun
  refine h.add hd ?_ hnone ⟨hc, ?_, ?_, fun h0 => absurd h0 hdir, fun _ => rfl,
    fun h0 => absurd h0 htype, fun _ => ?_, fun _ => show (1 : Int) < 2 ^ 15 by decide,
    fun h0 => absurd h0 htype', ?_⟩
  · rintro rfl
    exact hdir hd
  · rintro rfl
    exact hdir h.root
  · rw [h.leaf c hdir]
    exact nofun
  · rw [h.free_links (Nat.ne_of_gt hc.1) hfree]
    rfl
  · rw [if_neg htype, if_neg hdir, Int.add_zero, Int.sub_zero]

theorem mkdir (hc : 0 < c ∧ c < NINODES)
    (hfree : (nodes c).type = .free) :
    Tree (edited nodes c ⟨.dir, 1, [⟨.ofNat c, dot⟩, ⟨.ofNat d, dotdot⟩]⟩ d ((nodes d).nlink + 1)
      (addEntry ⟨.ofNat c, entryName name⟩ (nodes d).ents)) := by
  have hdir : (nodes c).type ≠ .dir := by
    rw [hfree]
    nofun
  have hdrange : d < NINODES := (h.range d (by rw [hd]; nofun)).2
  have hzero := h.free_links (Nat.ne_of_gt hc.1) hfree
  refine h.add hd ?_ hnone ⟨hc, ?_, ?_, fun h0 => absurd h0 hdir, fun h0 => absurd rfl h0,
    fun _ => ⟨?_, nofun, ?_, hzero, rfl⟩, fun _ => ?_, fun _ => show (1 : Int) < 2 ^ 15 by decide,
    nofun, ?_⟩
  · rintro rfl
    exact hdir hd
  · rintro rfl
    exact hdir h.root
  · rw [h.leaf c hdir]
    exact nofun
  · exact ⟨_, _, [], rfl, UInt16.toNat_ofNat_of_lt (range_lt hc.2), rfl, rfl, nofun⟩
  · exact UInt16.toNat_ofNat_of_lt (range_lt hdrange)
  · rw [hzero]
    rfl
  · rw [if_pos rfl, if_neg hdir, Int.sub_zero]

theorem link (hc : (nodes c).type ≠ .free)
    (hdir : (nodes c).type ≠ .dir) (hmax : (nodes c).nlink + 1 < 2 ^ 15) :
    Tree (edited nodes c { nodes c with nlink := (nodes c).nlink + 1 } d (nodes d).nlink
      (addEntry ⟨.ofNat c, entryName name⟩ (nodes d).ents)) := by
  refine h.add hd ?_ hnone ⟨h.range c hc, ?_, ?_, fun h0 => absurd h0 hdir, h.leaf c,
    fun h0 => absurd h0 hdir, fun _ => ?_, fun _ => hmax, fun h0 => absurd h0 hc, ?_⟩
  · rintro rfl
    exact hdir hd
  · rintro rfl
    exact hdir h.root
  · rw [h.leaf c hdir]
    exact nofun
  · show (nodes c).nlink + 1 = _
    rw [h.count c hc]
  · rw [if_neg hdir, Int.add_zero, Int.sub_zero]

end

theorem plain
    (hfind : findEntry name (nodes d).ents = some (e, k)) (hdot : namecmp name dot ≠ 0)
    (hdd : namecmp name dotdot ≠ 0) : ∃ k', k = k' + 2 ∧ ((nodes d).ents.drop 2)[k']? = some e := by
  obtain ⟨a, b, rest, hl, -, -, ha, -, hb, -⟩ := h.cons hd
  obtain ⟨hk, -, hname⟩ := findEntry_some hfind
  rw [hl] at hk ⊢
  cases k with
  | zero =>
    cases hk
    rw [ha] at hname
    exact absurd hname hdot
  | succ k =>
    cases k with
    | zero =>
      cases hk
      rw [hb] at hname
      exact absurd hname hdd
    | succ k => exact ⟨k, rfl, hk⟩

theorem remove {n : Int} (hdc : d ≠ c) (hz : z.inum = 0)
    (hfind : findEntry name (nodes d).ents = some (e, k)) (hdot : namecmp name dot ≠ 0)
    (hdd : namecmp name dotdot ≠ 0) (hc : e.inum.toNat = c) (hx : Fits nodes c x d n (-1)) :
    Tree (edited nodes c x d n ((nodes d).ents.set k z)) := by
  obtain ⟨k, rfl, hk⟩ := h.plain hd hfind hdot hdd
  obtain ⟨a, b, rest, hl, -⟩ := h.cons hd
  rw [hl] at hk ⊢
  exact Edit.keeps ⟨h, hd, hdc, hl, Edits.remove hz hk hc, hx, rfl⟩

theorem unlink
    (hz : z.inum = 0) (hfind : findEntry name (nodes d).ents = some (e, k))
    (hdot : namecmp name dot ≠ 0) (hdd : namecmp name dotdot ≠ 0) (hc : e.inum.toNat = c)
    (hfree : (nodes c).type ≠ .free) (hdir : (nodes c).type ≠ .dir) :
    Tree (edited nodes c { nodes c with nlink := (nodes c).nlink - 1 } d (nodes d).nlink
      ((nodes d).ents.set k z)) := by
  refine h.remove hd ?_ hz hfind hdot hdd hc ⟨h.range c hfree, ?_, ?_, fun h0 => absurd h0 hdir,
    h.leaf c, fun h0 => absurd h0 hdir, fun _ => ?_, fun _ => ?_, fun h0 => absurd h0 hfree, ?_⟩
  · rintro rfl
    exact hdir hd
  · rintro rfl
    exact hdir h.root
  · rw [h.leaf c hdir]
    exact nofun
  · show (nodes c).nlink - 1 = _
    rw [h.count c hfree]
    rfl
  · have := h.small c hfree
    show (nodes c).nlink - 1 < 2 ^ 15
    omega
  · rw [if_neg hdir, Int.add_zero, Int.sub_zero]

/-- A directory is found as a plain entry in one place only, and is not the root. -/
theorem found_dir
    (hfind : findEntry name (nodes d).ents = some (e, k)) (hdot : namecmp name dot ≠ 0)
    (hdd : namecmp name dotdot ≠ 0) (hc : e.inum.toNat = c) (hdir : (nodes c).type = .dir) :
    c ≠ ROOTINO ∧ up (nodes c).ents = d := by
  obtain ⟨k, rfl, hk⟩ := h.plain hd hfind hdot hdd
  have hpos : 0 < entriesFor c ((nodes d).ents.drop 2) := entriesFor_pos.mpr ⟨e, mem_of_getElem? hk, hc⟩
  rw [h.place c hdir d] at hpos
  split at hpos
  · rename_i hplace
    exact ⟨hplace.1, hplace.2.symm⟩
  · cases hpos

end

/-- The only link of a directory without plain entries is its own. -/
theorem links_bare (hdir : (nodes c).type = .dir) (hroot : c ≠ ROOTINO)
    (hb : Bare (nodes c).ents) : links nodes c = 1 := by
  have hup : up (nodes c).ents < NINODES := (h.range _ (by rw [h.above c hdir]; nofun)).2
  have hterm : ∀ k : Fin NINODES, entriesFor c ((nodes k).ents.drop 1) =
      if k = ⟨up (nodes c).ents, hup⟩ then 1 else 0 := by
    intro k
    have hplace := h.place c hdir k
    by_cases hk : (nodes k).type = .dir
    · have hne := h.up_ne hb hroot hk
      obtain ⟨a, b, rest, hl, -⟩ := h.dots k hk
      rw [hl] at hplace hne ⊢
      show entriesFor c (b :: rest) = _
      rw [entriesFor_cons, if_neg (show ¬ b.inum.toNat = c from hne), Nat.add_zero,
        show entriesFor c rest = _ from hplace]
      exact if_congr ⟨fun hand => Fin.ext hand.2, fun heq => ⟨hroot, congrArg Fin.val heq⟩⟩ rfl rfl
    · rw [h.leaf k hk, if_neg]
      · rfl
      · rintro rfl
        exact hk (h.above c hdir)
  rw [links, Finset.sum_congr rfl fun k _ => hterm k]
  simp

theorem rmdir (hd : (nodes d).type = .dir)
    (hz : z.inum = 0) (hfind : findEntry name (nodes d).ents = some (e, k))
    (hdot : namecmp name dot ≠ 0) (hdd : namecmp name dotdot ≠ 0) (hc : e.inum.toNat = c)
    (hdir : (nodes c).type = .dir) (hb : Bare (nodes c).ents) (y : Dinode) :
    Tree (edited nodes c y.freed d ((nodes d).nlink - 1) ((nodes d).ents.set k z)) := by
  obtain ⟨hroot, hup⟩ := h.found_dir hd hfind hdot hdd hc hdir
  have hdc : d ≠ c := by rw [← hup]; exact h.up_ne hb hroot hdir
  refine h.remove hd hdc hz hfind hdot hdd hc ⟨h.range c (by rw [hdir]; nofun), hroot, hb,
    fun _ => hup, fun _ => rfl, nofun, fun h0 => absurd rfl h0, fun h0 => absurd rfl h0, fun _ => ?_,
    ?_⟩
  · rw [h.links_bare hdir hroot hb]
    rfl
  · rw [if_neg nofun, if_pos hdir, Int.add_zero]

theorem free (hc : (nodes c).type ≠ .free) (hlink : (nodes c).nlink = 0) : Tree (update nodes c (nodes c).freed) := by
  have hzero : links nodes c = 0 := by
    have := h.count c hc
    omega
  have hdir : (nodes c).type ≠ .dir := fun hdir => Nat.ne_of_gt (h.dir_pos hdir) hzero
  have hne : ROOTINO ≠ c := by
    rintro rfl
    exact hdir h.root
  obtain ⟨a, b, rest, hl, -⟩ := h.cons h.root
  have hfits : Fits nodes c (nodes c).freed ROOTINO (nodes ROOTINO).nlink 0 :=
    ⟨h.range c hc, Ne.symm hne, by rw [h.leaf c hdir]; exact nofun, fun h0 => absurd h0 hdir,
      fun _ => rfl, nofun, fun h0 => absurd rfl h0, fun h0 => absurd rfl h0,
      fun _ => by rw [hzero]; rfl,
      by rw [if_neg nofun, if_neg hdir, Int.add_zero, Int.sub_zero]⟩
  have htree := Edit.keeps ⟨h, h.root, hne, hl, ⟨fun e he _ => .inl he, fun i _ => by simp⟩, hfits, rfl⟩
  -- the root gets the entries that it has
  have hsame : edited nodes c (nodes c).freed ROOTINO (nodes ROOTINO).nlink (a :: b :: rest) =
      update nodes c (nodes c).freed := by
    rw [edited, ← hl]
    exact Function.update_eq_self_iff.mpr (by rw [update_of_ne hne])
  rwa [hsame] at htree

end

end Tree

end Xv6.Fs
