/-
# Xv6.Fs.Components — a path is split at its slashes (`skipelem` and `namex` of `kernel/fs.c`).

What `skipelem` returns has no leading slash, so it is empty exactly when no component is left: this is
the test that `nameiparent` stops by.
-/
import Mathlib.Data.List.DropRight
import Mathlib.Data.List.TakeWhile
import Xv6.Fs.Path

namespace Xv6.Fs

open Kernel (CStr CharArr ROOTINO)
open List
open Option (bind_eq_some_iff map_eq_some_iff)

/-- `while((path = skipelem(path, name)) != 0)`: in each round, the buffer and what is left of the path. -/
def skipelems (path : List UInt8) (name : CharArr DIRSIZ) : List (CharArr DIRSIZ × List UInt8) :=
  match _h : skipelem path name with
  | none => []
  | some (rest, name) => (name, rest) :: skipelems rest name
termination_by path.length
decreasing_by exact skipelem_length _h

/-- The name in a buffer: its bytes up to the first NUL, or all of them. -/
def nameText (name : CharArr DIRSIZ) : List UInt8 := ((range DIRSIZ).map (nameAt name)).takeWhile (· != 0)

/-- The components of a path: what stands between slashes, where it is not empty. -/
def components (path : List UInt8) : List (List UInt8) := (path.splitOn slash).filter (· ≠ [])

/-! ## One component -/

section Component

variable {path rest elem : List UInt8} {name name' : CharArr DIRSIZ}

theorem skipelems_none (h : skipelem path name = none) : skipelems path name = [] := by
  rw [skipelems]
  split
  · rfl
  · simp_all

theorem skipelems_some (h : skipelem path name = some (rest, name')) :
    skipelems path name = (name', rest) :: skipelems rest name' := by
  rw [skipelems]
  split
  · simp_all
  · simp_all

theorem nameText_setName (h : ∀ b ∈ elem, b ≠ 0) : nameText (setName elem name) = elem.take DIRSIZ := by
  have hlen : (elem.take DIRSIZ).length = min 14 elem.length := length_take
  apply Kernel.takeWhile_read (fun b hb => h b (mem_of_mem_take hb)) (by simp)
  · intro i hi
    rw [nameAt_setName (by omega) (by omega), getElem_take, getD_eq_getElem]
  · intro hlt
    have hall : (elem.take DIRSIZ).length = elem.length := by unfold DIRSIZ at hlt hlen ⊢; omega
    rw [hall]
    exact nameAt_setName_end (hall ▸ hlt)

theorem components_dropWhile (path : List UInt8) : components (path.dropWhile (· == slash)) = components path := by
  induction path with
  | nil => rfl
  | cons b path ih =>
    rw [dropWhile_cons]
    split
    · rename_i hb
      obtain rfl : b = slash := eq_of_beq hb
      have hsplit : splitOn slash (slash :: path) = [] :: splitOn slash path :=
        splitOn_append_cons_self_of_not_mem not_mem_nil path
      rw [ih, components, components, hsplit]
      simp
    · rfl

theorem components_elem (hne : elem ≠ []) (hslash : slash ∉ elem) (hrest : rest.head? ∈ [none, some slash]) :
    components (elem ++ rest) = elem :: components rest := by
  cases rest with
  | nil => simp [components, splitOn_eq_singleton hslash, hne]
  | cons b rest =>
    obtain rfl : b = slash := by simpa using hrest
    have hsplit : splitOn slash (slash :: rest) = [] :: splitOn slash rest :=
      splitOn_append_cons_self_of_not_mem not_mem_nil rest
    rw [components, components, splitOn_append_cons_self_of_not_mem hslash, hsplit]
    simp [hne]

theorem skipelem_eq_none_iff : skipelem path name = none ↔ path.dropWhile (· == slash) = [] := by
  simp [skipelem]

/-- **One `skipelem`** takes the first component. -/
theorem skipelem_spec (h : skipelem path name = some (rest, name')) :
    ∃ elem, elem ⊆ path ∧ rest ⊆ path ∧ name' = setName elem name ∧ components path = elem :: components rest ∧
      ∀ name, skipelem rest name = none ↔ rest = [] := by
  simp only [skipelem] at h
  split at h
  · cases h
  rename_i hne
  cases h
  set p := path.dropWhile (· == slash) with hp
  have hsub : p ⊆ path := (dropWhile_suffix _).subset
  refine ⟨p.takeWhile (· != slash), Subset.trans ( takeWhile_prefix _).subset hsub,
    Subset.trans ((dropWhile_suffix _).trans (dropWhile_suffix _)).subset hsub, rfl, ?_, fun name => ?_⟩
  · have helem : p.takeWhile (· != slash) ≠ [] := by
      obtain ⟨b, l, hl⟩ := exists_cons_of_ne_nil hne
      have hb : b ≠ slash := by
        have hhead := head?_dropWhile_not (· == slash) path
        rw [← hp, hl] at hhead
        simpa using hhead
      simp [hl, hb]
    have hslash : slash ∉ p.takeWhile (· != slash) := fun hmem => by
      simpa using mem_takeWhile_imp hmem
    have hrest : (p.dropWhile (· != slash)).head? ∈ [none, some slash] := by
      have hhead := head?_dropWhile_not (· != slash) p
      cases hd : (p.dropWhile (· != slash)).head? with
      | none => simp
      | some b =>
        rw [hd] at hhead
        simpa using hhead
    rw [components_dropWhile, ← components_elem helem hslash hrest, takeWhile_append_dropWhile, hp, components_dropWhile]
  · rw [skipelem_eq_none_iff, dropWhile_idempotent]

theorem skipelems_eq_nil_iff (h : skipelem path name = some (rest, name')) : skipelems rest name' = [] ↔ rest = [] := by
  obtain ⟨-, -, -, -, -, hend⟩ := skipelem_spec h
  rw [← hend name']
  constructor
  · intro hnil
    cases hskip : skipelem rest name' with
    | none => rfl
    | some r =>
      rw [skipelems_some hskip] at hnil
      cases hnil
  · exact skipelems_none

end Component

section Path

variable {path : List UInt8} {name : CharArr DIRSIZ}

theorem map_skipelems (hpath : ∀ b ∈ path, b ≠ 0) :
    (skipelems path name).map (fun e => nameText e.1) = (components path).map (take DIRSIZ) := by
  induction hn : path.length using Nat.strong_induction_on generalizing path name with
  | _ n ih =>
    subst hn
    cases hskip : skipelem path name with
    | none =>
      rw [skipelems_none hskip, ← components_dropWhile, skipelem_eq_none_iff.mp hskip]
      rfl
    | some r =>
      obtain ⟨rest, name'⟩ := r
      obtain ⟨elem, helem, hrest, rfl, hcomp, -⟩ := skipelem_spec hskip
      rw [skipelems_some hskip, hcomp, map_cons, map_cons, ih _ (skipelem_length hskip) (fun b hb => hpath b (hrest hb)) rfl,
        nameText_setName fun b hb => hpath b (helem hb)]

/-- **Nothing is left exactly behind the last component.** -/
theorem skipelems_rest (before : List (CharArr DIRSIZ × List UInt8)) :
    ∀ {path : List UInt8} {name name' : CharArr DIRSIZ} {rest : List UInt8} {after : List (CharArr DIRSIZ × List UInt8)},
      skipelems path name = before ++ (name', rest) :: after → (rest = [] ↔ after = []) := by
  induction before with
  | nil =>
    intro path name name' rest after h
    cases hskip : skipelem path name with
    | none =>
      rw [skipelems_none hskip] at h
      cases h
    | some r =>
      rw [skipelems_some hskip] at h
      cases h
      exact (skipelems_eq_nil_iff hskip).symm
  | cons e before ih =>
    intro path name name' rest after h
    cases hskip : skipelem path name with
    | none =>
      rw [skipelems_none hskip] at h
      cases h
    | some r =>
      rw [skipelems_some hskip] at h
      exact ih (cons.inj h).2

end Path

/-! ## `nameiparent` -/

/-- The rounds of `namex` for these components lead from `ip` to `dp`. -/
inductive Follows (me : Caller) (rootip : Iptr) : List (CharArr DIRSIZ) → Iptr → Inodes → Iptr → Inodes → Prop
  | here {ip : Iptr} {s : Inodes} : Follows me rootip [] ip s ip s
  | next {name : CharArr DIRSIZ} {names : List (CharArr DIRSIZ)} {ip ip' dp : Iptr} {s u s' : Inodes} :
    namexRound me rootip false name ip s = some (u, .next ip') → Follows me rootip names ip' u dp s' →
      Follows me rootip (name :: names) ip s dp s'

section Parent

variable {me : Option Caller} {p : Caller} {rootip ip dp : Iptr} {s s' : Inodes} {w : Walk} {path : List UInt8}
  {name name' : CharArr DIRSIZ}

theorem namexRound_last (h : namexRound p rootip true name ip s = some (s', w)) : w = .done none ∨ w = .done (some ip) := by
  obtain ⟨u, -, h⟩ := bind_eq_some_iff.mp h
  split at h
  · obtain ⟨v, -, h⟩ := map_eq_some_iff.mp h
    cases h
    exact .inl rfl
  · obtain ⟨v, -, h⟩ := map_eq_some_iff.mp h
    cases h
    exact .inr rfl

theorem namexRound_inner (h : namexRound p rootip false name ip s = some (s', .done (some dp))) : False := by
  obtain ⟨u, -, h⟩ := bind_eq_some_iff.mp h
  split at h
  · obtain ⟨v, -, h⟩ := map_eq_some_iff.mp h
    cases h
  obtain ⟨⟨v, next⟩, -, h⟩ := bind_eq_some_iff.mp h
  cases next with
  | none =>
    obtain ⟨v, -, h⟩ := map_eq_some_iff.mp h
    cases h
  | some next =>
    obtain ⟨root, -, h⟩ := bind_eq_some_iff.mp h
    obtain ⟨v', -, h⟩ := bind_eq_some_iff.mp h
    cases h

theorem namexLoop_parent_iff : namexLoop me true rootip path.length path name ip s = some (s', some dp, name') ↔
    ∃ p names u, me = some p ∧ (skipelems path name).map Prod.fst = names ++ [name'] ∧
      Follows p rootip names ip s dp u ∧ namexRound p rootip true name' dp u = some (s', .done (some dp)) := by
  induction hn : path.length using Nat.strong_induction_on generalizing path name ip s with
  | _ n ih =>
    subst hn
    rw [namexLoop_eq]
    cases hskip : skipelem path name with
    | none =>
      rw [skipelems_none hskip]
      simp [namexEnd]
    | some r =>
      obtain ⟨rest, name1⟩ := r
      have hnil := skipelems_eq_nil_iff hskip
      rw [skipelems_some hskip]
      cases me with
      | none => simp
      | some p =>
        simp only [Option.bind_some, Bool.true_and, map_cons]
        constructor
        · intro h
          obtain ⟨⟨u, w⟩, hround, h⟩ := bind_eq_some_iff.mp h
          cases hrest : rest with
          | nil =>
            subst hrest
            rcases namexRound_last hround with rfl | rfl
            · cases h
            · cases h
              refine ⟨p, [], s, rfl, ?_, .here, hround⟩
              rw [hnil.mpr rfl]
              rfl
          | cons b l =>
            subst hrest
            cases w with
            | done r =>
              obtain rfl : r = some dp := by
                cases h
                rfl
              exact (namexRound_inner hround).elim
            | next ip' =>
              obtain ⟨p', names, v, hp, hnames, hfollows, hlast⟩ := (ih _ (skipelem_length hskip) rfl).mp h
              cases hp
              exact ⟨p, name1 :: names, v, rfl, by rw [hnames]; rfl, .next hround hfollows, hlast⟩
        · rintro ⟨p', names, v, hp, hnames, hfollows, hlast⟩
          cases hp
          cases hfollows with
          | here =>
            obtain ⟨rfl, hmap⟩ := cons.inj hnames
            obtain rfl := hnil.mp (map_eq_nil_iff.mp hmap)
            exact bind_eq_some_iff.mpr ⟨_, hlast, rfl⟩
          | next hround hfollows =>
            obtain ⟨rfl, hmap⟩ := cons.inj hnames
            have hne : rest ≠ [] := by
              rintro rfl
              rw [hnil.mpr rfl] at hmap
              simp at hmap
            have hlast' : rest.isEmpty = false := by simpa using hne
            rw [hlast']
            refine bind_eq_some_iff.mpr ⟨_, hround, ?_⟩
            exact (ih _ (skipelem_length hskip) rfl).mpr ⟨p, _, v, rfl, hmap, hfollows, hlast⟩

end Parent

/-- **A path is split at its slashes.** `skipelem` gives the components in order, each cut to the size of the buffer, and
what it returns is empty exactly with the last; `nameiparent` returns the directory that the others lead to. -/
theorem path_is_split (path : CStr) (name : CharArr DIRSIZ) :
    (skipelems path.bytes name).map (fun e => nameText e.1) = (components path.bytes).map (take DIRSIZ) ∧
      (∀ before name' rest after, skipelems path.bytes name = before ++ (name', rest) :: after →
        (rest = [] ↔ after = [])) ∧
      ∀ me s s' dp name', nameiparent me path name s = some (s', some dp, name') ↔
        ∃ p s1 rootip s2 ip names s3, me = some p ∧ iget ROOTINO s = some (s1, rootip) ∧
          namexStart me path rootip s1 = some (s2, ip) ∧
          (skipelems path.bytes name).map Prod.fst = names ++ [name'] ∧
          Follows p rootip names ip s2 dp s3 ∧ namexRound p rootip true name' dp s3 = some (s', .done (some dp)) := by
  refine ⟨map_skipelems path.nul_free, fun before _ _ _ => skipelems_rest before, fun me s s' dp name' => ?_⟩
  constructor
  · intro h
    obtain ⟨⟨s1, rootip⟩, hroot, h⟩ := bind_eq_some_iff.mp h
    obtain ⟨⟨s2, ip⟩, hstart, h⟩ := bind_eq_some_iff.mp h
    obtain ⟨p, names, s3, hme, hnames, hfollows, hlast⟩ := namexLoop_parent_iff.mp h
    exact ⟨p, s1, rootip, s2, ip, names, s3, hme, hroot, hstart, hnames, hfollows, hlast⟩
  · rintro ⟨p, s1, rootip, s2, ip, names, s3, hme, hroot, hstart, hnames, hfollows, hlast⟩
    have hloop := namexLoop_parent_iff.mpr ⟨p, names, s3, hme, hnames, hfollows, hlast⟩
    exact bind_eq_some_iff.mpr ⟨_, hroot, bind_eq_some_iff.mpr ⟨_, hstart, hloop⟩⟩

end Xv6.Fs
