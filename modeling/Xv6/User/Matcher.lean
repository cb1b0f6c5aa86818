/-
# Xv6.User.Matcher — the regular expressions of `grep` (`match`, `matchhere` and `matchstar` of `user/grep.c`).

A C string is the list of the characters in front of its NUL.  A pattern is read from left to right into
items (`parse`), and what it means is a language: the product of the languages of its items.  The order of
the tests in `matchhere` decides how a pattern is read: a character in front of a `*` is repeated whatever it
is, and a `$` is the end of the text only where nothing follows it.
-/
import Mathlib.Computability.Language

namespace Xv6.User

open List
open scoped Computability

abbrev Byte := UInt8

abbrev Str := List Byte

abbrev star : Byte := 42
abbrev dot : Byte := 46
abbrev dollar : Byte := 36
abbrev caret : Byte := 94

/-! ## The code -/

/-- `matchstar(c, re, text)`, where `here` is `matchhere(re, ·)`. -/
def matchstar (c : Byte) (here : Str → Bool) : Str → Bool
  | [] => here []
  | x :: text => here (x :: text) || ((x == c || c == dot) && matchstar c here text)

/-- The last test of `matchhere`: one character, and `rest` is `matchhere(re + 1, ·)`. -/
def matchone (c : Byte) (rest : Str → Bool) : Str → Bool
  | [] => false
  | x :: text => (c == dot || c == x) && rest text

def matchhere : Str → Str → Bool
  | [] => fun _ => true
  | [c] => fun text => if c = dollar then text.isEmpty else matchone c (matchhere []) text
  | c :: d :: re => fun text =>
    if d = star then matchstar c (matchhere re) text else matchone c (matchhere (d :: re)) text

def matchLoop (re : Str) : Str → Bool
  | [] => matchhere re []
  | x :: text => matchhere re (x :: text) || matchLoop re text

def matchText (re text : Str) : Bool := if re.head? = some caret then matchhere re.tail text else matchLoop re text

/-! ## What a pattern means -/

inductive Item
  | one (c : Byte)
  | many (c : Byte)

def Stands (c x : Byte) : Prop := c = dot ∨ c = x

/-- The texts of one character that `c` stands for. -/
def single (c : Byte) : Language Byte := {w | ∃ x, Stands c x ∧ w = [x]}

def Item.lang : Item → Language Byte
  | .one c => single c
  | .many c => (single c)∗

/-- The items of a pattern, and does it ask for the end of the text. -/
def parse : Str → List Item × Bool
  | [] => ([], false)
  | [c] => if c = dollar then ([], true) else ([.one c], false)
  | c :: d :: re =>
    if d = star then (.many c :: (parse re).1, (parse re).2)
    else (.one c :: (parse (d :: re)).1, (parse (d :: re)).2)

/-- `re` matches `w` in front of `rest`. -/
def Matches (re w rest : Str) : Prop := w ∈ ((parse re).1.map Item.lang).prod ∧ ((parse re).2 = true → rest = [])

/-- `re` matches at the start of `text`. -/
def MatchesHere (re text : Str) : Prop := ∃ w rest, text = w ++ rest ∧ Matches re w rest

section Matcher

variable {c : Byte} {re text r : Str} {here : Str → Bool}

theorem matchstar_iff : matchstar c here text = true ↔ ∃ u v, text = u ++ v ∧ (∀ x ∈ u, Stands c x) ∧ here v = true := by
  induction text with
  | nil =>
    constructor
    · exact fun h => ⟨[], [], rfl, fun x hx => absurd hx not_mem_nil, h⟩
    · rintro ⟨u, v, huv, -, hv⟩
      rwa [(append_eq_nil_iff.mp huv.symm).2] at hv
  | cons x text ih =>
    have hx : (x == c || c == dot) = true ↔ Stands c x := by
      rw [Bool.or_eq_true, beq_iff_eq, beq_iff_eq, or_comm, eq_comm (a := x)]
      rfl
    rw [matchstar, Bool.or_eq_true, Bool.and_eq_true, ih, hx]
    constructor
    · rintro (h | ⟨hx, u, v, rfl, hu, hv⟩)
      · exact ⟨[], x :: text, rfl, fun y hy => absurd hy not_mem_nil, h⟩
      · exact ⟨x :: u, v, rfl, forall_mem_cons.mpr ⟨hx, hu⟩, hv⟩
    · rintro ⟨u, v, huv, hu, hv⟩
      cases u with
      | nil => exact .inl (huv ▸ hv)
      | cons y u =>
        obtain ⟨rfl, rfl⟩ := cons.inj huv
        exact .inr ⟨hu x mem_cons_self, u, v, rfl, fun z hz => hu z (mem_cons_of_mem _ hz), hv⟩

theorem matchone_iff : matchone c here text = true ↔ ∃ x v, text = x :: v ∧ Stands c x ∧ here v = true := by
  cases text with
  | nil => simp [matchone]
  | cons x text => simp [matchone, Stands]

theorem mem_kstar_single {u : Str} : u ∈ (single c)∗ ↔ ∀ x ∈ u, Stands c x := by
  rw [Language.mem_kstar]
  constructor
  · rintro ⟨l, rfl, hl⟩ x hx
    obtain ⟨w, hw, hxw⟩ := mem_flatten.mp hx
    obtain ⟨y, hy, rfl⟩ := hl w hw
    rwa [mem_singleton.mp hxw]
  · intro hu
    refine ⟨u.map fun x => [x], (flatMap_singleton' u).symm, fun w hw => ?_⟩
    obtain ⟨x, hx, rfl⟩ := mem_map.mp hw
    exact ⟨x, hu x hx, rfl⟩

theorem matchesHere_cons {i : Item} (hre : parse re = (i :: (parse r).1, (parse r).2)) :
    MatchesHere re text ↔ ∃ u v, text = u ++ v ∧ u ∈ i.lang ∧ MatchesHere r v := by
  simp only [MatchesHere, Matches, hre, map_cons, prod_cons, Language.mem_mul]
  constructor
  · rintro ⟨_, rest, rfl, ⟨u, hu, w, hw, rfl⟩, hend⟩
    exact ⟨u, w ++ rest, append_assoc .., hu, w, rest, rfl, hw, hend⟩
  · rintro ⟨u, _, rfl, hu, w, rest, rfl, hw, hend⟩
    exact ⟨u ++ w, rest, (append_assoc ..).symm, ⟨u, hu, w, hw, rfl⟩, hend⟩

theorem matchone_matches (hre : parse re = (.one c :: (parse r).1, (parse r).2))
    (hhere : ∀ v, here v = true ↔ MatchesHere r v) : matchone c here text = true ↔ MatchesHere re text := by
  rw [matchone_iff, matchesHere_cons hre]
  constructor
  · rintro ⟨x, v, rfl, hx, hv⟩
    exact ⟨[x], v, rfl, ⟨x, hx, rfl⟩, (hhere v).mp hv⟩
  · rintro ⟨_, v, rfl, ⟨x, hx, rfl⟩, hv⟩
    exact ⟨x, v, rfl, hx, (hhere v).mpr hv⟩

/-- **`matchhere` looks for the pattern at the start of the text.** -/
theorem matchhere_iff (re : Str) : ∀ text, matchhere re text = true ↔ MatchesHere re text := by
  induction re using matchhere.induct with
  | case1 =>
    intro text
    refine iff_of_true rfl ⟨[], text, rfl, ?_, fun h => ?_⟩
    · simp [parse]
    · cases h
  | case2 c ih =>
    intro text
    simp only [matchhere]
    split
    · rename_i hc
      simp [MatchesHere, Matches, parse, hc]
    · rename_i hc
      exact matchone_matches (r := []) (by simp [parse, hc]) ih
  | case3 c d re ih1 ih2 =>
    intro text
    simp only [matchhere]
    split
    · rename_i hd
      rw [matchstar_iff, matchesHere_cons (i := .many c) (r := re) (by simp [parse, hd])]
      simp only [Item.lang, mem_kstar_single, ih1]
    · rename_i hd
      exact matchone_matches (r := d :: re) (by simp [parse, hd]) ih2

/-- The loop of `match` tries every suffix. -/
theorem matchLoop_iff : matchLoop re text = true ↔ ∃ u v, text = u ++ v ∧ MatchesHere re v := by
  induction text with
  | nil =>
    rw [matchLoop, matchhere_iff]
    constructor
    · exact fun h => ⟨[], [], rfl, h⟩
    · rintro ⟨u, v, huv, hv⟩
      rwa [(append_eq_nil_iff.mp huv.symm).2] at hv
  | cons x text ih =>
    rw [matchLoop, Bool.or_eq_true, matchhere_iff, ih]
    constructor
    · rintro (h | ⟨u, v, rfl, hv⟩)
      · exact ⟨[], x :: text, rfl, h⟩
      · exact ⟨x :: u, v, rfl, hv⟩
    · rintro ⟨u, v, huv, hv⟩
      cases u with
      | nil => exact .inl (huv ▸ hv)
      | cons y u =>
        obtain ⟨rfl, rfl⟩ := cons.inj huv
        exact .inr ⟨u, v, rfl, hv⟩

end Matcher

/-- **The matcher computes regular-expression search.**  `match(re, text)` is true exactly when `re`, without a `^` at
its start, matches a substring of the text, which with such a `^` is a prefix. -/
theorem match_iff_search (re text : Str) : matchText re text = true ↔
    ∃ u w v, text = u ++ w ++ v ∧ if re.head? = some caret then u = [] ∧ Matches re.tail w v else Matches re w v := by
  unfold matchText
  split
  · rw [matchhere_iff]
    constructor
    · rintro ⟨w, v, rfl, h⟩
      exact ⟨[], w, v, rfl, rfl, h⟩
    · rintro ⟨_, w, v, rfl, rfl, h⟩
      exact ⟨w, v, rfl, h⟩
  · rw [matchLoop_iff]
    constructor
    · rintro ⟨u, _, rfl, w, v, rfl, h⟩
      exact ⟨u, w, v, (append_assoc ..).symm, h⟩
    · rintro ⟨u, w, v, rfl, h⟩
      exact ⟨u, w ++ v, append_assoc .., w, v, rfl, h⟩

end Xv6.User
