/-
# Xv6.Kernel.Space — the shape of an address space.

A page table is a tree in physical memory: down to the pages that it maps, no two paths of indices meet, and
every page on them is held (`Tree`).  `kalloc` returns a page that is not held, so what is linked in is
fresh.  The user pages that are mapped are told by a set of page numbers (`Space`), and each function of
`vm.c` is a change of that set.  A page is mapped once, so there are never more of them than memory has.
-/
import Xv6.Kernel.Pagetable
import Xv6.Kernel.Memory
import Mathlib.Data.Fintype.Card

namespace Xv6.Kernel.Pagetable

open Function
open Lib (Does Reach)
open Lib.Radix

/-! ## Entries and indices -/

def next (pte : Nat) : Option Page := if pteValid pte = true then some (pte2pa pte) else none

theorem pte_eq {pg perm : Nat} (h : perm < 1024) : pa2pte pg ||| perm = pg * 1024 + perm := by
  have hshift : pa2pte pg = pg <<< 10 := (Nat.shiftLeft_eq pg 10).symm
  rw [hshift, ← Nat.shiftLeft_add_eq_or_of_lt (by simpa using h), Nat.shiftLeft_eq]

theorem next_pte {pg perm : Nat} (h : perm < 1024) (hv : perm % 2 = 1) : next (pa2pte pg ||| perm) = some pg := by
  rw [pte_eq h]
  unfold next pteValid pte2pa
  rw [if_pos (by rw [beq_iff_eq]; omega), show (pg * 1024 + perm) / 1024 = pg by omega]

theorem next_zero : next 0 = none := rfl

def indices (va : Nat) : Nat → List Idx
  | 0 => []
  | level + 1 => px (level + 1) va :: indices va level

def path (va : Nat) : List Idx := indices va 2 ++ [px 0 va]

theorem length_path (va : Nat) : (path va).length = 3 := rfl

theorem path_inj {v w : Nat} (hv : v < 2 ^ 27) (hw : w < 2 ^ 27) (h : path (v * PGSIZE) = path (w * PGSIZE)) : v = w := by
  unfold path indices indices indices px PGSIZE at h
  simp only [List.cons_append, List.nil_append, List.cons.injEq, Fin.mk.injEq, and_true] at h
  omega

/-! ## Trees -/

def Phys.look (s : Phys) (root : Page) (π : List Idx) : Option Page := descend next s.mem root π

/-- The page table at `root` is a tree of pages that are held, and its last entries are leaves. -/
structure Tree (root : Page) (s : Phys) : Prop where
  branches : Branches next 3 s.mem root
  held : ∀ {π q}, π.length ≤ 3 → s.look root π = some q → s.held q = true
  leaf : ∀ {ρ t}, ρ.length = 2 → s.look root ρ = some t → ∀ i, pteValid (s.mem t i) = true → s.mem t i / 2 % 8 ≠ 0

/-- What an allocation of page-table pages does: no page of the process is mapped or unmapped. -/
structure Grows (root : Page) (s s' : Phys) : Prop where
  leaves : ∀ {π}, π.length = 3 → s'.look root π = s.look root π
  keeps : ∀ {π q}, π.length ≤ 3 → s.look root π = some q → s'.look root π = some q
  fresh : ∀ {π q}, π.length ≤ 3 → s'.look root π = some q → s.look root π = some q ∨ s.held q = false
  held : ∀ {q}, s.held q = true → s'.held q = true

section Trees

variable {root q t : Page} {s s' s'' : Phys} {ρ : List Idx} {i : Idx} {w : Nat}

theorem Grows.refl : Grows root s s := ⟨fun _ => rfl, fun _ h => h, fun _ h => .inl h, fun h => h⟩

theorem Grows.trans (h : Grows root s s') (h' : Grows root s' s'') : Grows root s s'' where
  leaves hπ := (h'.leaves hπ).trans (h.leaves hπ)
  keeps hπ hq := h'.keeps hπ (h.keeps hπ hq)
  fresh hπ hq := by
    obtain hq | hq := h'.fresh hπ hq
    · exact h.fresh hπ hq
    · refine .inr (Bool.eq_false_iff.mpr fun hheld => ?_)
      rw [h.held hheld] at hq
      cases hq
  held hq := h'.held (h.held hq)

theorem Grows.unreached (h : Grows root s s') (hq : Unreached next 3 s.mem root q) (hheld : s.held q = true) :
    Unreached next 3 s'.mem root q := by
  intro π hπ hlook
  obtain hold | hnot := h.fresh hπ hlook
  · exact hq hπ hold
  · rw [hheld] at hnot
    cases hnot

section

variable (h : Tree root s)
include h

theorem Tree.answers (locked : Bool) (answers : List Answer) :
    Tree root { s with locked := locked, answers := answers } :=
  ⟨h.branches, h.held, h.leaf⟩

theorem Tree.unreached (hq : s.held q = false) : Unreached next 3 s.mem root q := by
  intro π hπ hlook
  rw [h.held hπ hlook] at hq
  cases hq

theorem Tree.outside (hq : Unreached next 3 s.mem root q) (table : Idx → Nat) (b locked : Bool)
    (answers : List Answer) :
    Tree root ⟨update s.mem q table, update s.held q b, locked, answers⟩ ∧
      ∀ {π}, π.length ≤ 3 → Phys.look ⟨update s.mem q table, update s.held q b, locked, answers⟩ root π = s.look root π := by
  have hlook : ∀ {π : List Idx}, π.length ≤ 3 →
      Phys.look ⟨update s.mem q table, update s.held q b, locked, answers⟩ root π = s.look root π := fun hπ =>
    hq.descend_update table hπ
  refine ⟨⟨h.branches.congr fun _ => hlook, fun {π r} hπ hr => ?_, fun {ρ t} hρ ht i => ?_⟩, hlook⟩
  · rw [hlook hπ] at hr
    have hne : r ≠ q := fun heq => hq hπ (heq ▸ hr)
    exact (update_of_ne hne ..).trans (h.held hπ hr)
  · rw [hlook (by omega)] at ht
    have hne : t ≠ q := fun heq => hq (by omega) (heq ▸ ht)
    show pteValid (update s.mem q table t i) = true → update s.mem q table t i / 2 % 8 ≠ 0
    rw [update_of_ne hne]
    exact h.leaf hρ ht i

theorem Tree.fill (hρ : ρ.length = 3) (hq : s.look root ρ = some q)
    (table : Idx → Nat) : Tree root { s with mem := update s.mem q table } ∧
      ∀ {π}, π.length ≤ 3 → Phys.look { s with mem := update s.mem q table } root π = s.look root π := by
  have hlook : ∀ {π : List Idx}, π.length ≤ 3 → Phys.look { s with mem := update s.mem q table } root π = s.look root π :=
    fun hπ => h.branches.descend_fill hρ hq table hπ
  refine ⟨⟨h.branches.congr fun _ => hlook, fun {π r} hπ hr => ?_, fun {σ t} hσ ht i => ?_⟩, hlook⟩
  · rw [hlook hπ] at hr
    exact h.held hπ hr
  · rw [hlook (by omega)] at ht
    have hne : t ≠ q := by
      rintro rfl
      have hsame := h.branches (by omega) (by omega) ht hq
      rw [hsame] at hσ
      omega
    show pteValid (update s.mem q table t i) = true → update s.mem q table t i / 2 % 8 ≠ 0
    rw [update_of_ne hne]
    exact h.leaf hσ ht i

/-- An entry is written; it is the last one of a path, or its page is not. -/
theorem Tree.leaf_store {σ : List Idx} {r : Page} {j : Idx} (hσ : σ.length = 2)
    (hr : s.look root σ = some r) (hw : r = t ∧ j = i → pteValid w = true → w / 2 % 8 ≠ 0) :
    pteValid (store s.mem t i w r j) = true → store s.mem t i w r j / 2 % 8 ≠ 0 := by
  by_cases hat : r = t ∧ j = i
  · obtain ⟨rfl, rfl⟩ := hat
    rw [store_same]
    exact hw ⟨rfl, rfl⟩
  · rw [store_of_ne fun hr hj => hat ⟨hr, hj⟩]
    exact h.leaf hσ hr j

section

variable (ht : s.look root ρ = some t)
include ht

theorem Tree.linkTable
    (hρ : ρ.length < 2) (hold : next (s.mem t i) = none) (hq : Unreached next 3 s.mem root q) (hheld : s.held q = true)
    (hzero : ∀ j, s.mem q j = 0) :
    Tree root { s with mem := store s.mem t i (pa2pte q ||| PTE_V) } ∧
      ∀ {π}, π.length ≤ 3 → Phys.look { s with mem := store s.mem t i (pa2pte q ||| PTE_V) } root π =
        if π = ρ ++ [i] then some q else s.look root π := by
  have hw : next (pa2pte q ||| PTE_V) = some q := next_pte (by decide) rfl
  have hempty : ∀ j, next (s.mem q j) = none := fun j => by rw [hzero]; rfl
  have hqt : q ≠ t := fun heq => hq (by omega) (heq ▸ ht)
  have hlook : ∀ {π : List Idx}, π.length ≤ 3 → Phys.look { s with mem := store s.mem t i (pa2pte q ||| PTE_V) } root π =
      if π = ρ ++ [i] then some q else s.look root π := fun hπ =>
    h.branches.descend_link ht (by omega) hold hw hq (.inr hempty) hπ
  refine ⟨⟨h.branches.link ht (by omega) hold hw hq (.inr hempty), fun {π r} hπ hr => ?_, fun {σ r} hσ hr j => ?_⟩, hlook⟩
  · rw [hlook hπ] at hr
    split at hr
    · cases hr
      exact hheld
    · exact h.held hπ hr
  · rw [hlook (by omega)] at hr
    show pteValid (store s.mem t i _ r j) = true → store s.mem t i _ r j / 2 % 8 ≠ 0
    split at hr
    · cases hr
      rw [store_of_ne fun heq => absurd heq hqt, hzero]
      intro hvalid
      cases hvalid
    · refine h.leaf_store hσ hr fun hat => ?_
      obtain ⟨rfl, -⟩ := hat
      have hsame := h.branches (by omega) (by omega) hr ht
      rw [hsame] at hσ
      omega

theorem Tree.linkLeaf
    (hρ : ρ.length = 2) (hold : next (s.mem t i) = none) (hq : Unreached next 3 s.mem root q) (hheld : s.held q = true)
    (hw : next w = some q) (hleaf : w / 2 % 8 ≠ 0) :
    Tree root { s with mem := store s.mem t i w } ∧
      ∀ {π}, π.length ≤ 3 → Phys.look { s with mem := store s.mem t i w } root π =
        if π = ρ ++ [i] then some q else s.look root π := by
  have hlook : ∀ {π : List Idx}, π.length ≤ 3 → Phys.look { s with mem := store s.mem t i w } root π =
      if π = ρ ++ [i] then some q else s.look root π := fun hπ =>
    h.branches.descend_link ht (by omega) hold hw hq (.inl (by omega)) hπ
  refine ⟨⟨h.branches.link ht (by omega) hold hw hq (.inl (by omega)), fun {π r} hπ hr => ?_, fun {σ r} hσ hr j => ?_⟩, hlook⟩
  · rw [hlook hπ] at hr
    split at hr
    · cases hr
      exact hheld
    · exact h.held hπ hr
  · have hne : σ ≠ ρ ++ [i] := fun heq => by
      rw [heq, List.length_append, List.length_singleton] at hσ
      omega
    rw [hlook (by omega), if_neg hne] at hr
    exact h.leaf_store hσ hr fun _ _ => hleaf

theorem Tree.cutLeaf (hρ : ρ.length = 2) :
    Tree root { s with mem := store s.mem t i 0 } ∧
      ∀ {π}, π.length ≤ 3 → Phys.look { s with mem := store s.mem t i 0 } root π =
        if π = ρ ++ [i] then none else s.look root π := by
  have hlook : ∀ {π : List Idx}, π.length ≤ 3 → Phys.look { s with mem := store s.mem t i 0 } root π =
      if π = ρ ++ [i] then none else s.look root π := by
    intro π hπ
    have hiff : ρ ++ [i] <+: π ↔ π = ρ ++ [i] := by
      constructor
      · intro hp
        refine (hp.eq_of_length_le ?_).symm
        rw [List.length_append, List.length_singleton]
        omega
      · rintro rfl
        exact List.prefix_refl _
    refine (h.branches.descend_cut ht (by omega) next_zero hπ).trans ?_
    simp only [hiff]
    rfl
  have hold : ∀ {π : List Idx} {q : Page}, π.length ≤ 3 → Phys.look { s with mem := store s.mem t i 0 } root π = some q →
      s.look root π = some q := by
    intro π q hπ hq
    rw [hlook hπ] at hq
    split at hq
    · cases hq
    · exact hq
  refine ⟨⟨fun _ _ _ hπ hσ hq hq' => h.branches hπ hσ (hold hπ hq) (hold hσ hq'), fun hπ hq => h.held hπ (hold hπ hq),
    fun {σ r} hσ hr j => h.leaf_store hσ (hold (by omega) hr) fun _ hvalid => (by cases hvalid)⟩, hlook⟩

end

theorem Tree.relabel (hw : next w = next (s.mem t i))
    (hleaf : w / 2 % 8 = s.mem t i / 2 % 8) (hvalid : pteValid w = pteValid (s.mem t i)) :
    Tree root { s with mem := store s.mem t i w } ∧
      ∀ π, Phys.look { s with mem := store s.mem t i w } root π = s.look root π := by
  have hlook : ∀ π, Phys.look { s with mem := store s.mem t i w } root π = s.look root π := fun π => descend_relabel hw root π
  refine ⟨⟨h.branches.congr fun π _ => hlook π, fun {π q} hπ hq => ?_, fun {σ r} hσ hr j => ?_⟩, hlook⟩
  · rw [hlook] at hq
    exact h.held hπ hq
  · rw [hlook] at hr
    refine h.leaf_store hσ hr fun hat => ?_
    rw [hleaf, hvalid, ← hat.1, ← hat.2]
    exact h.leaf hσ hr j

end

end Trees

/-! ## `walk`, `mappages` and `uvmunmap` -/

section Functions

variable {root pg : Page} {s : Phys} {va : Nat}

/-- How the functions of `vm.c` may fail to return. -/
abbrev Hangs (e : Panic) : Prop := e = .acquire

theorem kalloc_does : Does Hangs kalloc s fun r s' =>
    (r = none ∧ ∃ locked rest, s' = { s with locked := locked, answers := rest }) ∨
      ∃ pg locked rest, r = some pg ∧ Ram pg ∧ s.held pg = false ∧
        s' = ⟨update s.mem pg fun _ => bytes8 5, update s.held pg true, locked, rest⟩ := by
  unfold Does kalloc
  refine .ite (fun _ => .stop rfl) fun _ => ?_
  split
  · exact .ret (.inl ⟨rfl, _, _, rfl⟩)
  · exact .ret (.inl ⟨rfl, _, _, rfl⟩)
  · exact .ret (.inl ⟨rfl, _, _, rfl⟩)
  · split
    · rename_i hpg
      exact .ret (.inr ⟨_, _, _, rfl, hpg.1, hpg.2, rfl⟩)
    · exact .ret (.inl ⟨rfl, _, _, rfl⟩)

theorem kfree_does (hram : Ram pg) : Does Hangs (kfree pg) s fun _ s' =>
    s' = { s with mem := update s.mem pg fun _ => bytes8 1, held := update s.held pg false } := by
  unfold Does kfree
  rw [if_neg (not_not.mpr hram)]
  exact .ite (fun _ => .stop rfl) fun _ => .ret rfl

theorem Tree.zeroed (h : Tree root s) (hpg : s.held pg = false) (locked : Bool) (rest : List Answer) :
    Does Hangs (memset pg 0) ⟨update s.mem pg fun _ => bytes8 5, update s.held pg true, locked, rest⟩ fun _ s' =>
      Tree root s' ∧ Grows root s s' ∧ Unreached next 3 s'.mem root pg ∧ s'.held pg = true ∧ (∀ j, s'.mem pg j = 0) ∧
        ∀ r, r ≠ pg → s'.mem r = s.mem r := by
  have hmem : update (update s.mem pg fun _ => bytes8 5) pg (fun _ => bytes8 0) = update s.mem pg fun _ => bytes8 0 :=
    update_idem ..
  unfold Does memset
  dsimp only
  rw [hmem]
  have hout := h.unreached hpg
  obtain ⟨htree, hlook⟩ := h.outside hout (fun _ => bytes8 0) true locked rest
  refine .ret ⟨htree, ⟨fun hπ => hlook (by omega), fun hπ hq => (hlook hπ).trans hq, fun hπ hq => .inl ((hlook hπ).symm.trans hq),
    fun {q} hq => ?_⟩, fun π hπ hq => hout hπ ((hlook hπ).symm.trans hq), update_self .., fun j => ?_, fun r hr => update_of_ne hr ..⟩
  · show update s.held pg true q = true
    exact Lib.update_cases (fun _ => rfl) (fun _ _ => id) q hq
  · show update s.mem pg (fun _ => bytes8 0) pg j = 0
    rw [update_self]
    rfl

theorem walkFrom_alloc (level : Nat) : ∀ {s : Phys} {t : Page} {ρ : List Idx}, Tree root s →
    s.look root ρ = some t → ρ.length + level = 2 → Does Hangs (walkFrom true va level t) s fun r s' =>
      Tree root s' ∧ Grows root s s' ∧
        ∀ t' i, r = some (t', i) → i = px 0 va ∧ s'.look root (ρ ++ indices va level) = some t' := by
  induction level with
  | zero =>
    intro s t ρ h ht _
    refine .pure ⟨h, .refl, fun t' i hr => ?_⟩
    cases hr
    refine ⟨rfl, ?_⟩
    rw [indices, List.append_nil]
    exact ht
  | succ level ih =>
    intro s t ρ h ht hlen
    have hsplit : ρ ++ indices va (level + 1) = (ρ ++ [px (level + 1) va]) ++ indices va level := by
      rw [List.append_assoc]
      rfl
    have hlen' : (ρ ++ [px (level + 1) va]).length + level = 2 := by
      rw [List.length_append, List.length_singleton]
      omega
    unfold walkFrom
    rw [hsplit]
    refine .bind (.ret (.ite (fun hvalid => ?_) fun hinvalid => .ite (fun _ => .bind (kalloc_does.mono ?_)) fun hfalse => ?_))
    · refine ih h ?_ hlen'
      unfold Phys.look
      rw [descend_append]
      rw [Phys.look] at ht
      rw [ht]
      show (next (s.mem t (px (level + 1) va))).bind _ = _
      unfold next
      rw [if_pos hvalid]
      rfl
    · rintro r s' (⟨rfl, locked, rest, rfl⟩ | ⟨pg, locked, rest, rfl, -, hpg, rfl⟩)
      · exact .pure ⟨h.answers locked rest, ⟨fun _ => rfl, fun _ hq => hq, fun _ hq => .inl hq, fun hq => hq⟩,
          fun t' i hr => by cases hr⟩
      · refine .bind ((h.zeroed hpg locked rest).mono fun _ s' hz => .bind (.ret ?_))
        obtain ⟨htree, hgrows, hout, hheld, hzero, hothers⟩ := hz
        have ht' := hgrows.keeps (by omega) ht
        have hne : t ≠ pg := by
          rintro rfl
          rw [h.held (by omega) ht] at hpg
          cases hpg
        have hnone : next (s'.mem t (px (level + 1) va)) = none := by
          rw [hothers t hne]
          exact if_neg hinvalid
        obtain ⟨hlinked, hlook⟩ := htree.linkTable ht' (by omega) hnone hout hheld hzero
        have hlast : (ρ ++ [px (level + 1) va]).length < 3 := by omega
        have hgrows' : Grows root s { s' with mem := store s'.mem t (px (level + 1) va) (pa2pte pg ||| PTE_V) } := by
          refine ⟨fun hπ => ?_, fun {π q} hπ hq => ?_, fun {π q} hπ hq => ?_, fun hq => hgrows.held hq⟩
          · rw [hlook (by omega), if_neg (by rintro rfl; omega), hgrows.leaves hπ]
          · have hq' := hgrows.keeps hπ hq
            have hoff : π ≠ ρ ++ [px (level + 1) va] := by
              rintro rfl
              rw [Phys.look, descend_below_none ht' hnone []] at hq'
              cases hq'
            rw [hlook hπ, if_neg hoff, hq']
          · rw [hlook hπ] at hq
            split at hq
            · cases hq
              exact .inr hpg
            · exact hgrows.fresh hπ hq
        have hhere := (hlook (by omega)).trans (if_pos rfl)
        exact (ih hlinked hhere hlen').mono fun r s'' hr => ⟨hr.1, hgrows'.trans hr.2.1, hr.2.2⟩
    · exact absurd rfl hfalse

theorem walk_alloc (h : Tree root s) (hva : va < MAXVA) : Does Hangs (walk root va true) s fun r s' =>
    Tree root s' ∧ Grows root s s' ∧ ∀ t i, r = some (t, i) → i = px 0 va ∧ s'.look root (indices va 2) = some t := by
  unfold walk
  rw [if_neg (Nat.not_le.mpr hva)]
  exact walkFrom_alloc 2 (ρ := []) h rfl rfl

theorem walkFrom_look (level : Nat) : ∀ t : Page, walkFrom false va level t s =
    .ok ((descend next s.mem t (indices va level)).map fun t => (t, px 0 va), s) := by
  induction level with
  | zero => exact fun _ => rfl
  | succ level ih =>
    intro t
    show (if pteValid (s.mem t (px (level + 1) va)) = true then _ else _ : M _) s = _
    unfold indices descend next
    by_cases hvalid : pteValid (s.mem t (px (level + 1) va)) = true
    · rw [if_pos hvalid, if_pos hvalid, ih]
      rfl
    · rw [if_neg hvalid, if_neg hvalid]
      rfl

theorem walk_look (hva : va < MAXVA) : walk root va false s =
    .ok ((s.look root (indices va 2)).map fun t => (t, px 0 va), s) := by
  unfold walk
  rw [if_neg (Nat.not_le.mpr hva)]
  exact walkFrom_look 2 root

theorem walk_look_does (hva : va < MAXVA) : Does Hangs (walk root va false) s fun r s' =>
    r = (s.look root (indices va 2)).map (fun t => (t, px 0 va)) ∧ s' = s := by
  unfold Does
  rw [walk_look hva]
  exact .ret ⟨rfl, rfl⟩

theorem look_path (va : Nat) : s.look root (path va) = (s.look root (indices va 2)).bind fun t => next (s.mem t (px 0 va)) := by
  unfold path Phys.look
  rw [descend_append]
  refine congrArg _ (funext fun t => ?_)
  show (next (s.mem t (px 0 va))).bind some = next (s.mem t (px 0 va))
  cases next (s.mem t (px 0 va)) with
  | none | some _ => rfl

/-- What one turn of `mappages` does, whether it maps the page or not. -/
structure Maps (root : Page) (va : Nat) (pg : Page) (b : Bool) (s s' : Phys) : Prop where
  tree : Tree root s'
  leaves : ∀ {π}, π.length = 3 → s'.look root π = if b = true ∧ π = path va then some pg else s.look root π
  fresh : ∀ {π q}, π.length ≤ 3 → s'.look root π = some q → s.look root π = some q ∨ s.held q = false ∨ b = true ∧ q = pg
  held : ∀ {q}, s.held q = true → s'.held q = true

theorem mapOne_does (h : Tree root s) {pg perm : Nat} (hva : va < MAXVA) (hnone : s.look root (path va) = none)
    (hout : Unreached next 3 s.mem root pg) (hheld : s.held pg = true) (hperm : perm < 1024) (heven : perm % 2 = 0)
    (hleaf : perm / 2 % 8 ≠ 0) :
    Does Hangs (mapOne root perm va pg) s fun b s' => Maps root va pg b s s' := by
  unfold mapOne
  refine .bind ((walk_alloc h hva).mono fun r s' hr => ?_)
  obtain ⟨htree, hgrows, hat⟩ := hr
  cases r with
  | none =>
    refine .pure ⟨htree, fun hπ => ?_, fun hπ hq => (hgrows.fresh hπ hq).imp_right .inl, fun hq => hgrows.held hq⟩
    rw [hgrows.leaves hπ, if_neg fun hc => Bool.false_ne_true hc.1]
  | some loc =>
    obtain ⟨t, i⟩ := loc
    obtain ⟨rfl, ht⟩ := hat t i rfl
    have hfree : next (s'.mem t (px 0 va)) = none := by
      have hlook := @look_path root s' va
      rw [ht, hgrows.leaves (length_path va), hnone] at hlook
      exact hlook.symm
    have hinvalid : ¬ pteValid (s'.mem t (px 0 va)) = true := fun hvalid => by
      unfold next at hfree
      rw [if_pos hvalid] at hfree
      cases hfree
    refine .bind (.ret (.ite (fun hvalid => absurd hvalid hinvalid) fun _ => .bind (.ret (.pure ?_))))
    have hor : perm ||| PTE_V = perm + 1 := by
      have hshift := Nat.shiftLeft_add_eq_or_of_lt (b := 1) (i := 1) (by decide) (perm / 2)
      rw [Nat.shiftLeft_eq] at hshift
      have hhalf : perm / 2 * 2 ^ 1 = perm := by omega
      rw [hhalf] at hshift
      exact hshift.symm
    rw [Nat.or_assoc, hor]
    have hnext : next (pa2pte pg ||| perm + 1) = some pg := next_pte (by omega) (by omega)
    have hflags : (pa2pte pg ||| perm + 1) / 2 % 8 ≠ 0 := by rw [pte_eq (by omega)]; omega
    obtain ⟨hlinked, hlook⟩ := htree.linkLeaf ht rfl hfree (hgrows.unreached hout hheld) (hgrows.held hheld) hnext hflags
    refine ⟨hlinked, fun {π} hπ => ?_, fun {π q} hπ hq => ?_, fun hq => hgrows.held hq⟩
    · rw [hlook (by omega), hgrows.leaves hπ]
      change (if π = path va then some pg else s.look root π) = _
      by_cases hpath : π = path va
      · rw [if_pos hpath, if_pos ⟨rfl, hpath⟩]
      · rw [if_neg hpath, if_neg fun hc => hpath hc.2]
    · rw [hlook hπ] at hq
      split at hq
      · cases hq
        exact .inr (.inr ⟨rfl, rfl⟩)
      · exact (hgrows.fresh hπ hq).imp_right .inl

theorem unmapOne_does (h : Tree root s) {pg : Nat} (hva : va < MAXVA) (hpg : s.look root (path va) = some pg) (hram : Ram pg) :
    Does Hangs (unmapOne root true va) s fun _ s' => Tree root s' ∧
      ∀ {π}, π.length ≤ 3 → s'.look root π = if π = path va then none else s.look root π := by
  rw [look_path] at hpg
  cases ht : s.look root (indices va 2) with
  | none =>
    rw [ht] at hpg
    cases hpg
  | some t =>
    rw [ht, Option.bind_some] at hpg
    have hvalid : pteValid (s.mem t (px 0 va)) = true := by
      by_contra hnot
      unfold next at hpg
      rw [if_neg hnot] at hpg
      cases hpg
    have hpa : pte2pa (s.mem t (px 0 va)) = pg := by
      unfold next at hpg
      rw [if_pos hvalid] at hpg
      exact Option.some.inj hpg
    have hflags : pteFlags (s.mem t (px 0 va)) ≠ PTE_V := fun hv => by
      have hleaf := h.leaf rfl ht _ hvalid
      have hone : s.mem t (px 0 va) % 1024 = 1 := hv
      omega
    have hreach : s.look root (path va) = some pg := by rw [look_path, ht]; exact hpg
    have hne : t ≠ pg := by
      rintro rfl
      have hsame : indices va 2 = path va := h.branches (Nat.le_succ 2) (le_refl 3) ht hreach
      cases hsame
    unfold unmapOne
    refine .bind ((walk_look_does hva).mono ?_)
    rintro r s' ⟨rfl, hs⟩
    rw [ht, hs]
    refine .bind (.ret (.ite (fun hf => ?_) fun _ => .ite (fun hf => absurd hf hflags) fun _ => ?_))
    · dsimp only at hf
      rw [hvalid] at hf
      cases hf
    · refine .ite (fun _ => .bind ?_) fun hf => absurd rfl hf
      dsimp only
      rw [hpa]
      refine (kfree_does hram).mono ?_
      rintro - s' rfl
      refine .ret ?_
      -- the entry is written when the page is free already, but neither is part of the other
      obtain ⟨hcut, hlook⟩ := h.cutLeaf (i := px 0 va) ht rfl
      have hgone : Unreached next 3 (store s.mem t (px 0 va) 0) root pg := by
        intro π hπ hq
        have hq' := (hlook hπ).symm.trans hq
        split at hq'
        · cases hq'
        · rename_i hoff
          exact hoff (h.branches hπ (le_refl 3) hq' hreach)
      obtain ⟨hfreed, hlook'⟩ := hcut.outside hgone (fun _ => bytes8 1) false s.locked s.answers
      have hmem : store (update s.mem pg fun _ => bytes8 1) t (px 0 va) 0 =
          update (store s.mem t (px 0 va) 0) pg fun _ => bytes8 1 := by
        unfold store
        rw [update_of_ne hne, update_comm hne]
      dsimp only
      rw [hmem]
      exact ⟨hfreed, fun hπ => (hlook' hπ).trans (hlook hπ)⟩

end Functions

/-! ## Address spaces -/

abbrev userPages : Nat := TRAPFRAME / PGSIZE

def Phys.frame (s : Phys) (root : Page) (v : Nat) : Option Page := s.look root (path (v * PGSIZE))

/-- The user pages that the page table at `root` maps are those in `D`. -/
structure Space (root : Page) (D : Nat → Prop) (s : Phys) : Prop where
  tree : Tree root s
  mapped : ∀ {v}, v < userPages → ((s.frame root v).isSome ↔ D v)
  ram : ∀ {v pg}, v < userPages → s.frame root v = some pg → Ram pg

theorem userPages_eq : userPages = 67108862 := by decide

namespace Space

variable {root pg : Page} {s s' : Phys} {D D' : Nat → Prop} {v sz : Nat}

theorem congr (h : Space root D s) (hD : ∀ v, v < userPages → (D v ↔ D' v)) : Space root D' s :=
  ⟨h.tree, fun hv => (h.mapped hv).trans (hD _ hv), h.ram⟩

theorem of_frames (h : Space root D s) (htree : Tree root s') (hlook : ∀ {π}, π.length = 3 → s'.look root π = s.look root π) :
    Space root D s' where
  tree := htree
  mapped hv := by
    unfold Phys.frame
    rw [hlook (length_path _)]
    exact h.mapped hv
  ram hv hpg := h.ram hv ((hlook (length_path _)).symm.trans hpg)

theorem frame_inj (h : Space root D s) {w : Nat} (hv : v < userPages) (hw : w < userPages)
    (hpg : s.frame root v = some pg) (hpg' : s.frame root w = some pg) : v = w := by
  rw [userPages_eq] at hv hw
  exact path_inj (by omega) (by omega) (h.tree.branches (le_refl 3) (le_refl 3) hpg hpg')

/-- **There are no more user pages than memory has pages.** -/
theorem small {n : Nat} (h : Space root (· < n) s) : n ≤ 32768 := by
  by_contra hlarge
  have huser : ∀ v : Fin 32769, v < userPages := fun v => by
    rw [userPages_eq]
    omega
  have hframe : ∀ v : Fin 32769, ∃ pg : Nat, s.frame root v = some pg := fun v =>
    Option.isSome_iff_exists.mp ((h.mapped (huser v)).mpr (by omega))
  choose frame hframe using hframe
  have hram : ∀ v, frame v - KERNBASE / PGSIZE < 32768 ∧ KERNBASE / PGSIZE ≤ frame v := fun v => by
    have hlt := h.ram (huser v) (hframe v)
    have hlow : 524288 ≤ frame v := hlt.1
    have hhigh : frame v < 557056 := hlt.2
    refine ⟨?_, hlow⟩
    show frame v - 524288 < 32768
    omega
  have hinj : Injective fun v => (⟨frame v - KERNBASE / PGSIZE, (hram v).1⟩ : Fin 32768) := by
    intro v w hvw
    have heq : frame v = frame w := by
      have hval : frame v - KERNBASE / PGSIZE = frame w - KERNBASE / PGSIZE := Fin.mk.inj hvw
      have hv := (hram v).2
      have hw := (hram w).2
      omega
    exact Fin.ext (h.frame_inj (huser v) (huser w) (hframe v) (heq ▸ hframe w))
  have hcard := Fintype.card_le_of_injective _ hinj
  rw [Fintype.card_fin, Fintype.card_fin] at hcard
  omega

theorem pgroundup_eq (h : sz < 2 ^ 63) : pgroundup sz = npages sz * PGSIZE := by
  unfold pgroundup npages PGSIZE
  omega

theorem size_lt (h : Space root (· < npages sz) s) : sz < 2 ^ 31 := by
  have hsmall := h.small
  rw [npages_eq] at hsmall
  omega

theorem pgroundup_sz (h : Space root (· < npages sz) s) : pgroundup sz = npages sz * PGSIZE := by
  have hlt := h.size_lt
  exact pgroundup_eq (by omega)

theorem va_lt (hv : v < userPages) : v * PGSIZE < MAXVA := by
  rw [userPages_eq] at hv
  show v * 4096 < 274877906944
  omega

theorem change (h : Space root D s) (htree : Tree root s') (hv : v < userPages) {o : Option Page}
    (hlook : ∀ {π}, π.length = 3 → s'.look root π = if π = path (v * PGSIZE) then o else s.look root π)
    (hram : ∀ pg, o = some pg → Ram pg) : Space root (fun w => if w = v then o.isSome = true else D w) s' := by
  have hframe : ∀ {w}, w < userPages → s'.frame root w = if w = v then o else s.frame root w := by
    intro w hw
    unfold Phys.frame
    rw [hlook (length_path _)]
    by_cases hwv : w = v
    · rw [if_pos (congrArg (fun v => path (v * PGSIZE)) hwv), if_pos hwv]
    · rw [userPages_eq] at hv hw
      rw [if_neg fun hc => hwv (path_inj (by omega) (by omega) hc), if_neg hwv]
  refine ⟨htree, fun {w} hw => ?_, fun {w pg} hw hpg => ?_⟩
  · rw [hframe hw]
    split
    · rfl
    · exact h.mapped hw
  · rw [hframe hw] at hpg
    split at hpg
    · exact hram pg hpg
    · exact h.ram hw hpg

theorem mappages_eq (hv : v * PGSIZE < MAXVA) (pg perm : Nat) :
    mappages root (v * PGSIZE) PGSIZE pg perm = mapOne root perm (v * PGSIZE) pg := by
  have hdown : pgrounddown (v * PGSIZE) = v * PGSIZE := by unfold pgrounddown PGSIZE; omega
  have hturns : moreTurns (v * PGSIZE) PGSIZE = 0 := by
    have hbound : v * 4096 < 274877906944 := hv
    unfold moreTurns pgrounddown PGSIZE
    omega
  unfold mappages
  rw [hturns, hdown]
  rfl

theorem mappages (h : Space root D s) (hv : v < userPages) (hfree : ¬ D v)
    (hout : Unreached next 3 s.mem root pg) (hheld : s.held pg = true) (hram : Ram pg) :
    Does Hangs (Pagetable.mappages root (v * PGSIZE) PGSIZE pg (PTE_W ||| PTE_X ||| PTE_R ||| PTE_U)) s fun b s' =>
      if b = true then Space root (fun w => D w ∨ w = v) s'
      else Space root D s' ∧ Unreached next 3 s'.mem root pg := by
  have hnone : s.look root (path (v * PGSIZE)) = none := by
    by_contra hsome
    exact hfree ((h.mapped hv).mp (Option.isSome_iff_ne_none.mpr hsome))
  rw [mappages_eq (va_lt hv)]
  refine (mapOne_does h.tree (va_lt hv) hnone hout hheld (by decide) (by decide) (by decide)).mono fun b s' hm => ?_
  cases b with
  | false =>
    rw [if_neg Bool.false_ne_true]
    refine ⟨h.of_frames hm.tree fun hπ => ?_, fun π hπ hq => ?_⟩
    · rw [hm.leaves hπ, if_neg fun hc => Bool.false_ne_true hc.1]
    · obtain hq | hq | hq := hm.fresh hπ hq
      · exact hout hπ hq
      · rw [hheld] at hq
        cases hq
      · exact Bool.false_ne_true hq.1
  | true =>
    rw [if_pos rfl]
    have hs' := h.change hm.tree hv (o := some pg) (fun hπ => by simp [hm.leaves hπ]) fun _ hq => Option.some.inj hq ▸ hram
    refine hs'.congr fun w _ => ?_
    by_cases hwv : w = v
    · simp [hwv]
    · simp [hwv]

theorem unmapOne (h : Space root D s) (hv : v < userPages) (hmapped : D v) :
    Does Hangs (unmapOne root true (v * PGSIZE)) s fun _ s' => Space root (fun w => D w ∧ w ≠ v) s' := by
  obtain ⟨pg, hpg⟩ := Option.isSome_iff_exists.mp ((h.mapped hv).mpr hmapped)
  refine (unmapOne_does h.tree (va_lt hv) hpg (h.ram hv hpg)).mono fun _ s' hu => ?_
  have hs' := h.change hu.1 hv (fun hπ => hu.2 (by omega)) fun _ hq => (by cases hq)
  refine hs'.congr fun w _ => ?_
  by_cases hwv : w = v
  · simp [hwv]
  · simp [hwv]

theorem uvmunmapLoop (n : Nat) : ∀ {s : Phys} {D : Nat → Prop} {a : Nat}, Space root D s → a + n < userPages →
    (∀ v, a ≤ v → v ≤ a + n → D v) →
      Does Hangs (uvmunmapLoop root true n (a * PGSIZE)) s fun _ s' => Space root (fun v => D v ∧ ¬ (a ≤ v ∧ v ≤ a + n)) s' := by
  induction n with
  | zero =>
    intro s D a h ha hD
    refine (h.unmapOne ha (hD a (le_refl a) (le_refl a))).mono fun _ s' hs' => hs'.congr fun v _ => ?_
    constructor
    · exact fun hv => ⟨hv.1, fun hc => hv.2 (by omega)⟩
    · exact fun hv => ⟨hv.1, fun hc => hv.2 (by omega)⟩
  | succ n ih =>
    intro s D a h ha hD
    have hnext : a * PGSIZE + PGSIZE = (a + 1) * PGSIZE := (Nat.succ_mul a PGSIZE).symm
    unfold Pagetable.uvmunmapLoop
    rw [hnext]
    refine .bind ((h.unmapOne (by omega) (hD a (le_refl a) (by omega))).mono fun _ s' hs' => ?_)
    refine (ih hs' (by omega) fun v hlow hhigh => ⟨hD v (by omega) (by omega), by omega⟩).mono fun _ s'' hs'' =>
      hs''.congr fun v _ => ?_
    constructor
    · exact fun hv => ⟨hv.1.1, fun hc => hv.2 (by have := hv.1.2; omega)⟩
    · exact fun hv => ⟨⟨hv.1, fun hc => hv.2 (by omega)⟩, fun hc => hv.2 (by omega)⟩

theorem moreTurns_eq {a : Nat} (ha : a * PGSIZE < sz) (hsz : sz < 2 ^ 63) :
    moreTurns (a * PGSIZE) (sz - a * PGSIZE) = npages sz - a - 1 := by
  have hsum : a * PGSIZE + (sz - a * PGSIZE) = sz := by omega
  have hlast : (sz + (2 ^ 64 - 1)) % 2 ^ 64 = sz - 1 := by omega
  unfold moreTurns
  rw [hsum, hlast]
  unfold pgrounddown npages
  unfold PGSIZE at ha ⊢
  omega

/-- **`uvmdealloc` takes away the pages above the new size.** -/
theorem uvmdealloc {oldsz newsz : Nat} (h : Space root (· < npages oldsz) s) :
    Does Hangs (uvmdealloc root oldsz newsz) s fun r s' => r = min oldsz newsz ∧ Space root (· < npages r) s' := by
  have hlt := h.size_lt
  have hpages := npages_eq oldsz
  have hpages' := npages_eq newsz
  unfold Pagetable.uvmdealloc
  refine .ite (fun hle => .pure ⟨(min_eq_left hle).symm, h⟩) fun hnot => ?_
  have hmin : newsz = min oldsz newsz := (min_eq_right (by omega)).symm
  dsimp only
  rw [pgroundup_eq (by omega : newsz < 2 ^ 63), h.pgroundup_sz]
  refine .ite (fun hup => .bind ?_) fun hup => .pure ⟨hmin, h.congr fun v _ => ?_⟩
  · have hup' : npages newsz < npages oldsz := Nat.lt_of_mul_lt_mul_right hup
    have hbelow : npages newsz * PGSIZE < oldsz := by show npages newsz * 4096 < oldsz; omega
    have hdown : pgrounddown (npages newsz * PGSIZE) = npages newsz * PGSIZE := by
      unfold pgrounddown PGSIZE
      omega
    unfold uvmunmap
    rw [moreTurns_eq hbelow (by omega), hdown]
    refine (uvmunmapLoop _ h (by rw [userPages_eq]; omega) fun v _ hv => by omega).mono fun _ s' hs' =>
      .pure ⟨hmin, hs'.congr fun v _ => ?_⟩
    omega
  · have hup' : npages oldsz ≤ npages newsz := by
      unfold PGSIZE at hup
      omega
    omega

/-- The loop of `uvmalloc` maps its pages, or takes back those it has mapped. -/
theorem uvmallocLoop {base : Nat} (n : Nat) : ∀ {s : Phys} {a : Nat}, Space root (· < a) s → base ≤ a →
    Does Hangs (uvmallocLoop root (base * PGSIZE) n (a * PGSIZE)) s fun b s' => Space root (· < if b = true then a + n else base) s' := by
  induction n with
  | zero => exact fun h _ => .pure h
  | succ n ih =>
    intro s a h ha
    have hback : ∀ {s : Phys}, Space root (· < a) s →
        Does Hangs (do let _ ← Pagetable.uvmdealloc root (a * PGSIZE) (base * PGSIZE); pure false) s fun b s' =>
          Space root (· < if b = true then a + (n + 1) else base) s' := by
      intro s hs
      have hs' : Space root (· < npages (a * PGSIZE)) s := by rw [npages_mul]; exact hs
      refine .bind (hs'.uvmdealloc.mono fun r s' hr => .pure ?_)
      obtain ⟨rfl, hr⟩ := hr
      have hmin : min (a * PGSIZE) (base * PGSIZE) = base * PGSIZE := min_eq_right (Nat.mul_le_mul_right _ ha)
      rw [hmin, npages_mul] at hr
      exact hr
    have hsmall := h.small
    have hnext : a * PGSIZE + PGSIZE = (a + 1) * PGSIZE := (Nat.succ_mul a PGSIZE).symm
    unfold Pagetable.uvmallocLoop
    rw [hnext]
    refine .bind (kalloc_does.mono ?_)
    rintro r s' (⟨rfl, locked, rest, rfl⟩ | ⟨pg, locked, rest, rfl, hram, hpg, rfl⟩)
    · exact hback ⟨h.tree.answers locked rest, h.mapped, h.ram⟩
    · refine .bind ((h.tree.zeroed hpg locked rest).mono fun _ s' hz => ?_)
      obtain ⟨htree, hgrows, hout, hheld, -⟩ := hz
      have hs' := h.of_frames htree fun hπ => hgrows.leaves hπ
      refine .bind ((hs'.mappages (by rw [userPages_eq]; omega) (Nat.lt_irrefl a) hout hheld hram).mono fun b s'' hb => ?_)
      cases b with
      | true =>
        rw [if_pos rfl] at hb ⊢
        refine (ih (hb.congr fun v _ => ?_) (by omega)).mono fun b s' hb => ?_
        · omega
        · rw [show a + (n + 1) = a + 1 + n by omega]
          exact hb
      | false =>
        rw [if_neg Bool.false_ne_true] at hb ⊢
        refine .bind ((kfree_does hram).mono ?_)
        rintro - s' rfl
        obtain ⟨hfreed, hlook⟩ := hb.1.tree.outside hb.2 (fun _ => bytes8 1) false s''.locked s''.answers
        exact hback (hb.1.of_frames hfreed fun hπ => hlook (by omega))

/-- **`uvmalloc` maps the pages up to the new size, or none.** -/
theorem uvmalloc {oldsz newsz : Nat} (h : Space root (· < npages oldsz) s) :
    Does Hangs (uvmalloc root oldsz newsz) s fun r s' =>
      (r = 0 ∧ Space root (· < npages oldsz) s') ∨ (r = max oldsz newsz ∧ Space root (· < npages r) s') := by
  have hpages := npages_eq oldsz
  have hpages' := npages_eq newsz
  unfold Pagetable.uvmalloc
  refine .ite (fun hlt => .pure (.inr ⟨(max_eq_left (by omega)).symm, h⟩)) fun hle => ?_
  dsimp only
  rw [h.pgroundup_sz]
  refine .bind ((uvmallocLoop _ h (le_refl _)).mono fun b s' hb => ?_)
  cases b with
  | false => exact .pure (.inl ⟨rfl, hb⟩)
  | true =>
    refine .pure (.inr ⟨(max_eq_right (by omega)).symm, hb.congr fun v _ => ?_⟩)
    have hcount : npages oldsz + (newsz - npages oldsz * PGSIZE + (PGSIZE - 1)) / PGSIZE = npages newsz := by
      unfold PGSIZE
      omega
    rw [if_pos rfl, hcount]

theorem growproc {n : BitVec 32} {psz : Nat} (h : Space root (· < npages psz) s) :
    Does Hangs (growproc root n psz) s fun r s' => Space root (· < npages r.2) s' := by
  have hbound : ∀ {sz : Nat} {s : Phys}, Space root (· < npages sz) s → (BitVec.ofNat 32 sz).toNat = sz := by
    intro sz s hs
    have hlt := hs.size_lt
    rw [BitVec.toNat_ofNat, Nat.mod_eq_of_lt]
    omega
  unfold Pagetable.growproc
  dsimp only
  rw [hbound h]
  refine .ite (fun _ => .bind (h.uvmalloc.mono fun r s' hr => ?_)) fun _ =>
    .ite (fun _ => .bind (h.uvmdealloc.mono fun r s' hr => .pure ?_)) fun _ => .pure h
  · obtain ⟨rfl, hs'⟩ | ⟨hmax, hs'⟩ := hr
    · exact .ite (fun _ => .pure hs') fun hne => absurd rfl hne
    · refine .ite (fun hzero => .pure ?_) fun _ => .pure ?_
      · have hr0 : r = 0 := by
          rw [← hbound hs', hzero]
          rfl
        have hp0 : psz = r := by omega
        rw [hp0]
        exact hs'
      · dsimp only
        rw [hbound hs']
        exact hs'
  · dsimp only
    rw [hbound hr.2]
    exact hr.2

end Space

/-! ## `exec` -/

section Exec

variable {root : Page} {s : Phys} {D : Nat → Prop} {va : Nat}

theorem walkaddr_does : Does Hangs (walkaddr root va) s fun r s' =>
    s' = s ∧ ∀ pg, r = some pg → s.look root (path va) = some pg := by
  unfold walkaddr
  refine .ite (fun _ => .pure ⟨rfl, fun pg hr => by cases hr⟩) fun hva => ?_
  refine .bind ((walk_look_does (Nat.not_le.mp hva)).mono ?_)
  rintro r s' ⟨rfl, rfl⟩
  rw [look_path]
  cases hlook : s'.look root (indices va 2) with
  | none => exact .pure ⟨rfl, fun pg hr => by cases hr⟩
  | some t =>
    refine .bind (.ret (.ite (fun hpte => .pure ⟨rfl, fun pg hr => ?_⟩) fun _ => .pure ⟨rfl, fun pg hr => by cases hr⟩))
    cases hr
    exact if_pos hpte.1

theorem Space.fill (h : Space root D s) {pg : Page} (hpg : s.look root (path va) = some pg) (table : Idx → Nat) :
    Space root D { s with mem := update s.mem pg table } := by
  obtain ⟨htree, hlook⟩ := h.tree.fill (length_path va) hpg table
  exact h.of_frames htree fun hπ => hlook (by omega)

theorem Space.loadsegLoop {seg : Seg} (n : Nat) : ∀ {s : Phys} {i : Nat}, Space root D s →
    Does (fun _ => True) (loadsegLoop root seg n i) s fun _ s' => Space root D s' := by
  induction n with
  | zero => exact fun h => .pure h
  | succ n ih =>
    intro s i h
    unfold Pagetable.loadsegLoop
    refine .bind ((walkaddr_does.weaken fun _ _ => trivial).mono ?_)
    rintro r s' ⟨rfl, hlook⟩
    cases r with
    | none => exact .stop trivial
    | some pg =>
      cases hcontent : seg.content i with
      | none =>
        dsimp only
        exact .pure h
      | some change =>
        dsimp only
        exact .bind (.ret (ih (h.fill (hlook pg rfl) _)))

theorem Space.loadSegs (segs : List Seg) : ∀ {s : Phys} {sz : Nat}, Space root (· < npages sz) s →
    Does (fun _ => True) (loadSegs root segs sz) s fun r s' => ∀ sz', r = some sz' → Space root (· < npages sz') s' := by
  induction segs with
  | nil =>
    intro s sz h
    refine .pure fun sz' hr => ?_
    cases hr
    exact h
  | cons seg segs ih =>
    intro s sz h
    unfold Pagetable.loadSegs
    refine .ite (fun _ => .pure fun sz' hr => by cases hr) fun _ => .bind ((h.uvmalloc.weaken fun _ _ => trivial).mono fun r s' hr => ?_)
    refine .ite (fun _ => .pure fun sz' hr => by cases hr) fun hgood => ?_
    have hs' : Space root (· < npages r) s' := (hr.resolve_left fun hzero => hgood (.inl hzero.1)).2
    refine .bind ((hs'.loadsegLoop _).mono fun b s'' hs'' => ?_)
    exact .ite (fun _ => ih hs'') fun _ => .pure fun sz' hr => by cases hr

theorem Tree.single (hzero : ∀ j, s.mem root j = 0) (hheld : s.held root = true) :
    Tree root s ∧ ∀ {π q}, s.look root π = some q → π = [] ∧ q = root := by
  have hlook : ∀ {π : List Idx} {q : Page}, s.look root π = some q → π = [] ∧ q = root := by
    intro π q hq
    cases π with
    | nil => exact ⟨rfl, (Option.some.inj hq).symm⟩
    | cons i π =>
      change (next (s.mem root i)).bind _ = some q at hq
      rw [hzero] at hq
      cases hq
  refine ⟨⟨fun π σ q _ _ hπ hσ => (hlook hπ).1.trans (hlook hσ).1.symm, fun _ hq => (hlook hq).2 ▸ hheld, fun {ρ t} hρ ht => ?_⟩, hlook⟩
  rw [(hlook ht).1] at hρ
  cases hρ

theorem trampoline_eq : TRAMPOLINE = (userPages + 1) * PGSIZE := by decide

theorem trapframe_eq : TRAPFRAME = userPages * PGSIZE := by decide

theorem procPagetable_does (k : Fixed) (mem : Page → Idx → Nat) (answers : List Answer) :
    Does (fun _ => True) (procPagetable k) (k.phys mem answers) fun r s' => Space r (fun _ => False) s' := by
  unfold procPagetable
  refine .bind ((kalloc_does.weaken fun _ _ => trivial).mono ?_)
  rintro r s' (⟨rfl, locked, rest, rfl⟩ | ⟨root, locked, rest, rfl, -, hroot, rfl⟩)
  · exact .stop trivial
  have hnot : ¬ (root = k.trampoline ∨ root = k.tf) := by
    have hfalse : (root == k.trampoline || root == k.tf) = false := hroot
    simpa using hfalse
  refine .bind (.ret ?_)
  dsimp only
  generalize hs : (⟨_, _, _, _⟩ : Phys) = s
  have hempty : s.mem root = fun _ => bytes8 0 := by rw [← hs]; exact update_self ..
  have hzero : ∀ j, s.mem root j = 0 := fun j => congrFun hempty j
  have hheld : ∀ q, q = root ∨ q = k.trampoline ∨ q = k.tf → s.held q = true := fun q hq => by
    rw [← hs]
    show update (k.phys mem answers).held root true q = true
    by_cases hqr : q = root
    · rw [hqr, update_self]
    · rw [update_of_ne hqr]
      show (q == k.trampoline || q == k.tf) = true
      simpa using hq.resolve_left hqr
  obtain ⟨htree, hlook⟩ := Tree.single hzero (hheld root (.inl rfl))
  have hnone : ∀ va, s.look root (path va) = none := fun va => by
    by_contra hsome
    obtain ⟨q, hq⟩ := Option.ne_none_iff_exists'.mp hsome
    cases (hlook hq).1
  have hpages : userPages + 1 < 2 ^ 27 := by decide
  rw [trampoline_eq, trapframe_eq, Space.mappages_eq (by decide), Space.mappages_eq (by decide)]
  refine .bind (((mapOne_does htree (by decide) (hnone _) (fun π _ hq => hnot (.inl (hlook hq).2.symm))
    (hheld _ (.inr (.inl rfl))) (by decide) (by decide) (by decide)).weaken fun _ _ => trivial).mono fun b s' hm => ?_)
  have hnone' : ∀ {v}, v ≤ userPages → s'.look root (path (v * PGSIZE)) = none := fun {v} hv => by
    rw [hm.leaves (length_path _), if_neg, hnone]
    intro hc
    have hsame := path_inj (by omega) hpages hc.2
    omega
  refine .bind (((mapOne_does hm.tree (by decide) (hnone' (le_refl _)) (fun π hπ hq => ?_)
    (hm.held (hheld _ (.inr (.inr rfl)))) (by decide) (by decide) (by decide)).weaken fun _ _ => trivial).mono fun b' s'' hm' =>
      .pure ?_)
  · obtain hq | hq | hq := hm.fresh hπ hq
    · exact hnot (.inr (hlook hq).2.symm)
    · rw [hheld _ (.inr (.inr rfl))] at hq
      cases hq
    · exact k.ne hq.2
  · have hframe : ∀ {v}, v < userPages → s''.frame root v = none := fun {v} hv => by
      unfold Phys.frame
      rw [hm'.leaves (length_path _), if_neg, hnone' (by omega)]
      intro hc
      have hsame := path_inj (by omega) (by omega) hc.2
      omega
    refine ⟨hm'.tree, fun {v} hv => ?_, fun {v pg} hv hpg => ?_⟩
    · rw [hframe hv]
      exact iff_of_false Bool.false_ne_true not_false
    · rw [hframe hv] at hpg
      cases hpg

theorem clear_pte (w : Nat) : next (w - w / 16 % 2 * PTE_U) = next w ∧ (w - w / 16 % 2 * PTE_U) / 2 % 8 = w / 2 % 8 ∧
    pteValid (w - w / 16 % 2 * PTE_U) = pteValid w := by
  have hvalid : pteValid (w - w / 16 % 2 * PTE_U) = pteValid w := by
    unfold pteValid
    rw [show (w - w / 16 % 2 * 16) % 2 = w % 2 by omega]
  have hpa : pte2pa (w - w / 16 % 2 * PTE_U) = pte2pa w := by
    show (w - w / 16 % 2 * 16) / 1024 = w / 1024
    omega
  refine ⟨?_, ?_, hvalid⟩
  · unfold next
    rw [hvalid, hpa]
  · show (w - w / 16 % 2 * 16) / 2 % 8 = w / 2 % 8
    omega

theorem Space.uvmclear (h : Space root D s) : Does (fun _ => True) (uvmclear root va) s fun _ s' => Space root D s' := by
  unfold Pagetable.uvmclear
  by_cases hva : MAXVA ≤ va
  · refine .bind ?_
    unfold walk
    rw [if_pos hva]
    exact .stop trivial
  · refine .bind (((walk_look_does (Nat.not_le.mp hva)).weaken fun _ _ => trivial).mono ?_)
    rintro r s' ⟨rfl, rfl⟩
    cases s'.look root (indices va 2) with
    | none => exact .stop trivial
    | some t =>
      refine .bind (.ret (.ret ?_))
      obtain ⟨hnext, hleaf, hvalid⟩ := clear_pte (s'.mem t (px 0 va))
      obtain ⟨htree, hlook⟩ := h.tree.relabel hnext hleaf hvalid
      exact h.of_frames htree fun _ => hlook _

/-- **The image that `exec` sets up has the shape.** -/
theorem exec_does (k : Fixed) (segs : List Seg) (mem : Page → Idx → Nat) (answers : List Answer) :
    Does (fun _ => True) (exec k segs) (k.phys mem answers) fun r s' =>
      ∀ root sz, r = some (root, sz) → Space root (· < npages sz) s' := by
  unfold exec
  refine .bind ((procPagetable_does k mem answers).mono fun root s h => ?_)
  have hempty : Space root (· < npages 0) s := h.congr fun v _ => iff_of_false not_false (Nat.not_lt_zero v)
  refine .bind ((hempty.loadSegs segs).mono fun r s hs => ?_)
  cases r with
  | none => exact .pure fun root sz hr => by cases hr
  | some sz =>
    have hs := hs sz rfl
    have hup : Space root (· < npages (pgroundup sz)) s := by
      rw [hs.pgroundup_sz, npages_mul]
      exact hs
    dsimp only
    refine .bind ((hup.uvmalloc.weaken fun _ _ => trivial).mono fun r s' hr => ?_)
    refine .ite (fun _ => .pure fun root sz hr => by cases hr) fun hne => ?_
    have hs' : Space root (· < npages r) s' := (hr.resolve_left fun hzero => hne hzero.1).2
    refine .bind (hs'.uvmclear.mono fun _ s'' hs'' => .pure fun root' sz' hr => ?_)
    cases hr
    exact hs''

end Exec

/-! ## Runs -/

/-- Nothing worse has happened than that `acquire` did not return; the pages are those below the size. -/
structure Shaped (s : Image) : Prop where
  panic : ∀ e, s.panic = some e → Hangs e
  space : Space s.pagetable (· < npages s.sz) s.phys

theorem Shaped.step {s s' : Image} {e : Event} (h : Shaped s) (hs : step s e = some s') : Shaped s' := by
  unfold Pagetable.step at hs
  split at hs
  · cases hs
  cases e with
  | growproc n answers =>
    have hspace : Space s.pagetable (· < npages s.sz) { s.phys with answers := answers } :=
      ⟨h.space.tree.answers s.phys.locked answers, h.space.mapped, h.space.ram⟩
    dsimp only at hs
    split at hs
    · rename_i e hrun
      cases hs
      refine ⟨fun e' he => ?_, h.space⟩
      cases he
      exact Lib.Yields.error hspace.growproc hrun
    · rename_i hrun
      cases hs
      exact ⟨h.panic, hspace.growproc.ok hrun⟩
  | store va w =>
    dsimp only at hs
    split at hs
    · rename_i pg phys hwalk
      cases hs
      have hpg := walkaddr_does.ok hwalk
      exact ⟨h.panic, h.space.fill (hpg.2 pg rfl) _⟩
    · cases hs

/-- **The shape of an address space**, after any calls of `growproc` in which `kalloc` may fail: nothing panics, but for the
`acquire` of a lock that `kalloc` has kept; the user pages mapped are those below `PGROUNDUP(p->sz)`, each a page of its own. -/
theorem address_space_shape (k : Fixed) (segs : List Seg) (mem : Page → Idx → Nat) (answers : List Answer)
    {root : Page} {sz : Nat} {phys : Phys} (hexec : exec k segs (k.phys mem answers) = .ok (some (root, sz), phys))
    {s : Image} (hr : Reach step (fun _ _ => True) ⟨phys, root, sz, none⟩ s) :
    (∀ e, s.panic = some e → e = .acquire) ∧
    (∀ v, v < userPages → ((s.phys.frame s.pagetable v).isSome ↔ v * PGSIZE < pgroundup s.sz)) ∧
    ∀ v w pg, v < userPages → w < userPages → s.phys.frame s.pagetable v = some pg → s.phys.frame s.pagetable w = some pg →
      v = w := by
  have hstart : Shaped ⟨phys, root, sz, none⟩ :=
    ⟨fun e he => (by cases he), (exec_does k segs mem answers).ok hexec root sz rfl⟩
  have h : Shaped s := Reach.invariant hstart (fun _ _ _ hi _ hs => hi.step hs) hr
  refine ⟨h.panic, fun v hv => ?_, fun v w pg hv hw => h.space.frame_inj hv hw⟩
  rw [h.space.mapped hv, h.space.pgroundup_sz]
  exact (Nat.mul_lt_mul_right (by decide)).symm

/-- Pages of the kernel, and what `kalloc` returns to an `exec` that needs seven pages. -/
def someKernel : Fixed := ⟨524288, 524289, by decide⟩

def somePages : List Answer := (List.range 7).map fun i => .page (524300 + i)

/-- A program without segments shrinks within a page, finds no page to grow, and shrinks by more than it has. -/
def someCalls : List Event := [.growproc (-100) [], .growproc 5000 [.refused], .growproc (-100000) []]

def execImage : Except Panic (Option (Page × Nat) × Phys) → Option Image
  | .ok (some (root, sz), phys) => some ⟨phys, root, sz, none⟩
  | _ => none

theorem execImage_eq_some {r : Except Panic (Option (Page × Nat) × Phys)} {s : Image} (h : execImage r = some s) :
    r = .ok (some (s.pagetable, s.sz), s.phys) ∧ s = ⟨s.phys, s.pagetable, s.sz, none⟩ := by
  unfold execImage at h
  split at h
  · cases h
    exact ⟨rfl, rfl⟩
  · cases h

theorem address_space_shape_calls : ∃ root sz phys s,
    exec someKernel [] (someKernel.phys (fun _ _ => 0) somePages) = .ok (some (root, sz), phys) ∧
      Reach step (fun _ _ => True) ⟨phys, root, sz, none⟩ s ∧ s.sz = 8092 ∧ (∀ e, s.panic = some e → e = .acquire) ∧
        (s.phys.frame s.pagetable 1).isSome := by
  have hrun : ((execImage (exec someKernel [] (someKernel.phys (fun _ _ => 0) somePages))).any fun s0 =>
      (Lib.exec step (fun _ _ => True) s0 someCalls).any (·.sz == 8092)) = true := by decide +kernel
  obtain ⟨s0, himage, hrun⟩ := (Option.any_eq_true _ _).mp hrun
  obtain ⟨hexec, hs0⟩ := execImage_eq_some himage
  obtain ⟨s, hs, hsz⟩ := Reach.of_any step (fun _ _ => True) s0 someCalls _ hrun
  rw [hs0] at hs
  obtain ⟨hpanic, hmapped, -⟩ := address_space_shape _ _ _ _ hexec hs
  have hsz : s.sz = 8092 := eq_of_beq hsz
  refine ⟨_, _, _, s, hexec, hs, hsz, hpanic, (hmapped 1 (by decide)).mpr ?_⟩
  rw [hsz]
  decide

end Xv6.Kernel.Pagetable
