/-
# Xv6.User.Grep — the loop of `grep` (`grep` of `user/grep.c`; `strchr` and `memmove` of `user/ulib.c`).

The buffer is memory with a NUL behind what has been read.  How much `read` returns at each call is left open:
it is one byte or more, at most what is asked for and what is left.  Whatever that is, a line is printed if it
matches and all lines up to it have room in the buffer; at the first line that has not, `grep` asks for
nothing more and takes this for the end of the file.
-/
import Xv6.User.Matcher

namespace Xv6.User

open Function List

abbrev newline : Byte := 10

/-! ## The code -/

abbrev Mem := Nat → Byte

/-- `strchr(s, c)`, in memory where a NUL comes before `fuel` characters. -/
def strchr (mem : Mem) (c : Byte) : Nat → Nat → Option Nat
  | 0, _ => none
  | fuel + 1, s => if mem s = 0 then none else if mem s = c then some s else strchr mem c fuel (s + 1)

def memmove : Nat → Nat → Nat → Mem → Mem
  | 0, _, _, mem => mem
  | n + 1, dst, src, mem => memmove n (dst + 1) (src + 1) (update mem dst (mem src))

def cstr (mem : Mem) : Nat → Nat → Str
  | 0, _ => []
  | fuel + 1, s => if mem s = 0 then [] else mem s :: cstr mem fuel (s + 1)

/-- Bytes that `read` or `write` copies. -/
def bytesAt (mem : Mem) (s n : Nat) : Str := (range n).map fun i => mem (s + i)

def putBytes (mem : Mem) (s : Nat) (bytes : Str) : Mem := fun i => if s ≤ i then bytes.getD (i - s) (mem i) else mem i

abbrev bufSize : Nat := 1024

/-- The inner loop of `grep`: what it writes, and `buf` and `p` where it ends. -/
def scanLines (re : Str) : Nat → Mem → Nat → Str × Mem × Nat
  | 0, buf, p => ([], buf, p)
  | fuel + 1, buf, p =>
    match strchr buf newline bufSize p with
    | none => ([], buf, p)
    | some q =>
      let buf := update buf q 0
      if matchText re (cstr buf bufSize p) = true then
        let buf := update buf q newline
        let rest := scanLines re fuel buf (q + 1)
        (bytesAt buf p (q + 1 - p) ++ rest.1, rest.2)
      else scanLines re fuel buf (q + 1)

/-- What `read` returns, when it is asked for `size` bytes, `left` bytes are left, and `want` are there. -/
def readLen (want size left : Nat) : Nat := min (max 1 want) (min size left)

/-- The loop of `grep` over the rest `input` of the file; `want` says how much is there at each call of `read`. -/
def grepLoop (re : Str) (want : Nat → Nat) (k : Nat) (buf : Mem) (m : Nat) (input : Str) : Str :=
  let n := readLen (want k) (bufSize - m - 1) input.length
  if 0 < n then
    let buf := update (putBytes buf m (input.take n)) (m + n) 0
    let (out, buf, p) := scanLines re bufSize buf 0
    out ++ grepLoop re want (k + 1) (memmove (m + n - p) 0 p buf) (m + n - p) (input.drop n)
  else []
termination_by input.length
decreasing_by
  rw [length_drop]
  have hle : readLen (want k) (bufSize - m - 1) input.length ≤ input.length := (min_le_right _ _).trans (min_le_right _ _)
  omega

/-- `grep(pattern, fd)`, for a file with the bytes `content` and what an earlier file left in `buf`: what it writes. -/
def grep (re : Str) (want : Nat → Nat) (buf : Mem) (content : Str) : Str := grepLoop re want 0 buf 0 content

/-! ## Lines -/

/-- The lines of a text that end with a newline, without it, and what comes behind them. -/
def linesOf : Str → List Str × Str
  | [] => ([], [])
  | c :: s =>
    if c = newline then ([] :: (linesOf s).1, (linesOf s).2)
    else
      match (linesOf s).1 with
      | [] => ([], c :: (linesOf s).2)
      | l :: ls => ((c :: l) :: ls, (linesOf s).2)

def printed (re : Str) (ls : List Str) : Str := (ls.filter (matchText re)).flatMap (· ++ [newline])

section Lines

variable {s t l : Str} {ls : List Str}

theorem linesOf_line (hl : newline ∉ l) (s : Str) :
    linesOf (l ++ newline :: s) = (l :: (linesOf s).1, (linesOf s).2) := by
  induction l with
  | nil => simp [linesOf]
  | cons c l ih =>
    obtain ⟨hc, hl⟩ := not_or.mp (mem_cons.not.mp hl)
    rw [cons_append, linesOf, if_neg (Ne.symm hc), ih hl]

theorem linesOf_none (hl : newline ∉ l) : linesOf l = ([], l) := by
  induction l with
  | nil => rfl
  | cons c l ih =>
    obtain ⟨hc, hl⟩ := not_or.mp (mem_cons.not.mp hl)
    rw [linesOf, if_neg (Ne.symm hc), ih hl]

/-- A text is a line and a text, or it has no newline. -/
theorem line_cases (s : Str) : newline ∉ s ∨ ∃ l s', newline ∉ l ∧ s = l ++ newline :: s' := by
  by_cases hs : newline ∈ s
  · obtain ⟨l, s', rfl, hl⟩ := eq_append_cons_of_mem hs
    exact .inr ⟨l, s', hl, rfl⟩
  · exact .inl hs

/-- What comes behind the last newline is where the next text is appended. -/
theorem linesOf_append (s t : Str) : linesOf (s ++ t) =
    ((linesOf s).1 ++ (linesOf ((linesOf s).2 ++ t)).1, (linesOf ((linesOf s).2 ++ t)).2) := by
  induction hn : s.length using Nat.strong_induction_on generalizing s with
  | _ n ih =>
    obtain hs | ⟨l, s', hl, rfl⟩ := line_cases s
    · rw [linesOf_none hs]
      rfl
    · have hlen : s'.length < n := by
        rw [← hn, length_append, length_cons]
        omega
      rw [append_assoc, cons_append, linesOf_line hl, linesOf_line hl, ih _ hlen s' rfl]
      rfl

/-- Lines are shorter than the text, and behind the last newline there is none. -/
theorem linesOf_spec (s : Str) : newline ∉ (linesOf s).2 ∧ ∀ l ∈ (linesOf s).1, l.length < s.length := by
  induction hn : s.length using Nat.strong_induction_on generalizing s with
  | _ n ih =>
    obtain hs | ⟨l, s', hl, rfl⟩ := line_cases s
    · rw [linesOf_none hs]
      exact ⟨hs, fun l hl => absurd hl not_mem_nil⟩
    · rw [length_append, length_cons] at hn
      obtain ⟨hrest, hlines⟩ := ih _ (by omega) s' rfl
      rw [linesOf_line hl]
      refine ⟨hrest, forall_mem_cons.mpr ⟨by omega, fun l' hl' => ?_⟩⟩
      have hlt := hlines l' hl'
      omega

theorem printed_append (re : Str) (ls ls' : List Str) : printed re (ls ++ ls') = printed re ls ++ printed re ls' := by
  rw [printed, filter_append, flatMap_append]
  rfl

theorem printed_eq_nil {re : Str} : printed re ls = [] ↔ ∀ l ∈ ls, matchText re l = false := by
  simp [printed]

end Lines

/-! ## The buffer -/

def Holds (mem : Mem) (p : Nat) : Str → Prop
  | [] => mem p = 0
  | c :: s => mem p = c ∧ c ≠ 0 ∧ Holds mem (p + 1) s

def Reads (mem : Mem) (p : Nat) (s : Str) : Prop := ∀ i c, s[i]? = some c → mem (p + i) = c

section Buffer

variable {mem buf : Mem} {p fuel : Nat} {s t l re : Str}

theorem holds_iff : Holds mem p s ↔ Reads mem p s ∧ 0 ∉ s ∧ mem (p + s.length) = 0 := by
  induction s generalizing p with
  | nil => simp [Holds, Reads]
  | cons c s ih =>
    have hreads : Reads mem p (c :: s) ↔ mem p = c ∧ Reads mem (p + 1) s := by
      constructor
      · intro h
        refine ⟨h 0 c rfl, fun i x hx => ?_⟩
        rw [Nat.add_assoc, Nat.add_comm 1]
        exact h (i + 1) x hx
      · rintro ⟨hc, h⟩ i x hx
        cases i with
        | zero => exact hc.trans (Option.some.inj hx)
        | succ i =>
          have hi := h i x hx
          rwa [Nat.add_assoc, Nat.add_comm 1] at hi
    rw [Holds, ih, hreads, length_cons, mem_cons, not_or, Nat.add_assoc p 1, Nat.add_comm 1, ne_comm]
    tauto

theorem Holds.congr (h : Holds mem p s) (hsame : ∀ i, p ≤ i → buf i = mem i) : Holds buf p s := by
  obtain ⟨hreads, hzero, hnul⟩ := holds_iff.mp h
  refine holds_iff.mpr ⟨fun i c hc => ?_, hzero, ?_⟩
  · rw [hsame _ (Nat.le_add_right p i)]
    exact hreads i c hc
  · rwa [hsame _ (Nat.le_add_right p _)]

theorem Holds.drop (h : Holds mem p (l ++ s)) : Holds mem (p + l.length) s := by
  induction l generalizing p with
  | nil => exact h
  | cons c l ih =>
    rw [length_cons, Nat.add_comm l.length, ← Nat.add_assoc]
    exact ih h.2.2

theorem strchr_none (h : Holds mem p s) (hs : newline ∉ s) : strchr mem newline fuel p = none := by
  induction fuel generalizing p s with
  | zero => rfl
  | succ fuel ih =>
    cases s with
    | nil => exact if_pos h
    | cons c s =>
      obtain ⟨rfl, hc, h⟩ := h
      obtain ⟨hne, hs⟩ := not_or.mp (mem_cons.not.mp hs)
      rw [strchr, if_neg hc, if_neg (Ne.symm hne)]
      exact ih h hs

theorem strchr_line (h : Holds mem p (l ++ newline :: s)) (hl : newline ∉ l) (hfuel : l.length < fuel) :
    strchr mem newline fuel p = some (p + l.length) := by
  induction fuel generalizing p l with
  | zero => omega
  | succ fuel ih =>
    cases l with
    | nil =>
      rw [strchr, h.1]
      rfl
    | cons c l =>
      obtain ⟨hp, hc, h⟩ := h
      obtain ⟨hne, hl⟩ := not_or.mp (mem_cons.not.mp hl)
      rw [strchr, hp, if_neg hc, if_neg (Ne.symm hne), ih h hl (Nat.lt_of_succ_lt_succ hfuel), length_cons,
        Nat.add_assoc, Nat.add_comm 1]

theorem cstr_line (h : Holds mem p (l ++ newline :: s)) (hfuel : l.length < fuel) :
    cstr (update mem (p + l.length) 0) fuel p = l := by
  induction fuel generalizing p l with
  | zero => omega
  | succ fuel ih =>
    cases l with
    | nil => simp [cstr]
    | cons c l =>
      obtain ⟨hp, hc, h⟩ := h
      have hrest := ih h (Nat.lt_of_succ_lt_succ hfuel)
      rw [Nat.add_assoc, Nat.add_comm 1] at hrest
      rw [cstr, length_cons, update_of_ne (by omega), hp, if_neg hc, hrest]

theorem bytesAt_line (h : Holds mem p (l ++ s)) : bytesAt mem p l.length = l := by
  obtain ⟨hreads, -⟩ := holds_iff.mp h
  refine ext_getElem (by simp [bytesAt]) fun i hi hi' => ?_
  simp only [bytesAt, getElem_map, getElem_range]
  exact hreads i _ (by rw [getElem?_append_left hi', getElem?_eq_getElem hi'])

/-- **What the inner loop does**: it prints the lines that match, and stops behind the last newline. -/
theorem scanLines_eq (re : Str) (fuel : Nat) : ∀ {buf : Mem} {p : Nat} {s : Str}, Holds buf p s → s.length < fuel → s.length < bufSize →
    ∃ buf' p', scanLines re fuel buf p = (printed re (linesOf s).1, buf', p') ∧ Holds buf' p' (linesOf s).2 ∧
      p' + (linesOf s).2.length = p + s.length := by
  induction fuel with
  | zero =>
    intro buf p s _ hfuel
    omega
  | succ fuel ih =>
    intro buf p s h hfuel hsize
    obtain hs | ⟨l, s, hl, rfl⟩ := line_cases s
    · refine ⟨buf, p, ?_, ?_⟩
      · rw [scanLines, strchr_none h hs, linesOf_none hs]
        rfl
      · rw [linesOf_none hs]
        exact ⟨h, rfl⟩
    rw [length_append, length_cons] at hfuel hsize ⊢
    have hq : strchr buf newline bufSize p = some (p + l.length) := strchr_line h hl (by omega)
    have hline : cstr (update buf (p + l.length) 0) bufSize p = l := cstr_line h (by omega)
    have hnl : buf (p + l.length) = newline := h.drop.1
    have hrest : Holds buf (p + l.length + 1) s := h.drop.2.2
    rw [scanLines, hq, linesOf_line hl, printed]
    dsimp only
    rw [hline, update_idem, ← hnl, update_eq_self, hnl]
    by_cases hmatch : matchText re l = true
    · obtain ⟨buf', p', hscan, hhold, hlen⟩ := ih hrest (by omega) (by omega)
      have hprint : bytesAt buf p (p + l.length + 1 - p) = l ++ [newline] := by
        rw [show p + l.length + 1 - p = (l ++ [newline]).length by rw [length_append, length_singleton]; omega]
        exact bytesAt_line (s := s) (by rwa [append_assoc])
      refine ⟨buf', p', ?_, hhold, by omega⟩
      rw [if_pos hmatch, hscan, hprint, filter_cons_of_pos hmatch]
      rfl
    · have hcut : Holds (update buf (p + l.length) 0) (p + l.length + 1) s :=
        hrest.congr fun i hi => update_of_ne (by omega) ..
      obtain ⟨buf', p', hscan, hhold, hlen⟩ := ih hcut (by omega) (by omega)
      refine ⟨buf', p', ?_, hhold, by omega⟩
      rw [if_neg hmatch, hscan, filter_cons_of_neg hmatch]
      rfl

theorem memmove_below (n : Nat) : ∀ {dst src i : Nat} {mem : Mem}, i < dst → memmove n dst src mem i = mem i := by
  induction n with
  | zero => exact fun _ => rfl
  | succ n ih =>
    intro dst src i mem hi
    rw [memmove, ih (by omega), update_of_ne (by omega)]

theorem memmove_down (n : Nat) : ∀ {dst src i : Nat} {mem : Mem}, dst ≤ src → i < n →
    memmove n dst src mem (dst + i) = mem (src + i) := by
  induction n with
  | zero =>
    intro dst src i mem _ hi
    omega
  | succ n ih =>
    intro dst src i mem hle hi
    cases i with
    | zero => rw [memmove, memmove_below n (by omega), Nat.add_zero, update_self, Nat.add_zero]
    | succ i =>
      have hnext : memmove n (dst + 1) (src + 1) (update mem dst (mem src)) (dst + 1 + i) =
          update mem dst (mem src) (src + 1 + i) := ih (by omega) (by omega)
      rw [memmove, show dst + (i + 1) = dst + 1 + i by omega, hnext, update_of_ne (by omega),
        show src + (i + 1) = src + 1 + i by omega]

/-- What has been read stands behind what is left of the last line. -/
theorem holds_put (h : Reads buf 0 t) (ht : 0 ∉ t) (hs : 0 ∉ s) :
    Holds (update (putBytes buf t.length s) (t.length + s.length) 0) 0 (t ++ s) := by
  refine holds_iff.mpr ⟨fun i c hc => ?_, fun hmem => (mem_append.mp hmem).elim ht hs, ?_⟩
  · have hi : i < (t ++ s).length := (List.getElem?_eq_some_iff.mp hc).1
    rw [length_append] at hi
    rw [Nat.zero_add, update_of_ne (by omega), putBytes]
    split
    · rename_i hle
      rw [getElem?_append_right hle] at hc
      rw [getD_eq_getElem?_getD, hc]
      rfl
    · rename_i hlt
      rw [getElem?_append_left (by omega)] at hc
      exact (Nat.zero_add i) ▸ h i c hc
  · rw [length_append, Nat.zero_add, update_self]

end Buffer

/-! ## The loop -/

/-- The lines in front of the first one that has no room in the buffer. -/
def fitting (ls : List Str) : List Str := ls.takeWhile (·.length < bufSize - 1)

theorem fitting_of_long {l : Str} (hl : bufSize - 1 ≤ l.length) (ls : List Str) : fitting (l :: ls) = [] :=
  takeWhile_cons_of_neg (by simpa using hl)

theorem grepLoop_eq (re : Str) (want : Nat → Nat) (n : Nat) : ∀ {k : Nat} {buf : Mem} {t input : Str}, input.length = n →
    Reads buf 0 t → newline ∉ t → 0 ∉ t → 0 ∉ input → t.length < bufSize →
      grepLoop re want k buf t.length input = printed re (fitting (linesOf (t ++ input)).1) := by
  induction n using Nat.strong_induction_on with
  | _ n ih =>
    intro k buf t input hn hbuf hline ht hinput hsize
    rw [grepLoop]
    dsimp only
    split
    · rename_i hpos
      generalize hr : readLen (want k) (bufSize - t.length - 1) input.length = r at hpos ⊢
      have hle : r ≤ min (bufSize - t.length - 1) input.length := hr ▸ min_le_right _ _
      have htake : (input.take r).length = r := by rw [length_take]; omega
      have hhold := holds_put hbuf ht (s := input.take r) fun hmem => hinput (mem_of_mem_take hmem)
      have hlen : (t ++ input.take r).length < bufSize := by rw [length_append, htake]; omega
      obtain ⟨buf', p, hscan, hrest, hp⟩ := scanLines_eq re bufSize hhold hlen hlen
      obtain ⟨hnl, hshort⟩ := linesOf_spec (t ++ input.take r)
      rw [htake] at hscan
      rw [length_append, htake] at hp hlen hshort
      obtain ⟨hreads, hzero, -⟩ := holds_iff.mp hrest
      rw [hscan]
      dsimp only
      rw [show t.length + r - p = (linesOf (t ++ input.take r)).2.length by omega,
        ih (input.drop r).length (by rw [length_drop]; omega) rfl (fun i c hc => ?_) hnl hzero
          (fun hmem => hinput (mem_of_mem_drop hmem)) (by omega)]
      · -- the lines in the buffer have room in it
        rw [← printed_append]
        conv_rhs => rw [← take_append_drop r input, ← append_assoc, linesOf_append]
        unfold fitting
        rw [takeWhile_append_of_pos fun l hl => ?_]
        have hlt := hshort l hl
        simp only [decide_eq_true_eq]
        omega
      · have hi : i < (linesOf (t ++ input.take r)).2.length := (List.getElem?_eq_some_iff.mp hc).1
        rw [memmove_down _ (Nat.zero_le p) hi]
        exact hreads i c hc
    · rename_i hzero
      -- `read` is asked for nothing, or there is nothing left
      symm
      obtain hs | ⟨l, s, hl, hs⟩ := line_cases (t ++ input)
      · rw [linesOf_none hs]
        rfl
      have hlong : t.length ≤ l.length := by
        by_contra hlt
        have hget : (t ++ input)[l.length]? = some newline := by
          rw [hs, getElem?_append_right (le_refl _), Nat.sub_self]
          rfl
        rw [getElem?_append_left (by omega)] at hget
        exact hline (mem_of_getElem? hget)
      have hinput : input ≠ [] := by
        rintro rfl
        rw [append_nil] at hs
        exact hline (hs ▸ mem_append_right l mem_cons_self)
      have hleft := length_pos_of_ne_nil hinput
      have hfull : bufSize - 1 ≤ l.length := by unfold readLen at hzero; omega
      rw [hs, linesOf_line hl, fitting_of_long hfull]
      rfl

/-- **What `grep` prints**, however `read` splits the file. -/
theorem grep_eq (re : Str) (want : Nat → Nat) (buf : Mem) {content : Str} (hnul : 0 ∉ content) :
    grep re want buf content = printed re (fitting (linesOf content).1) :=
  grepLoop_eq re want content.length (t := []) rfl (fun i c hc => by cases hc) not_mem_nil not_mem_nil hnul (by decide)

/-- It is every line that matches exactly when none of them is the first line of 1023 characters or more, or comes
behind it. -/
theorem grep_prints_iff (re : Str) (want : Nat → Nat) (buf : Mem) (content : Str) (hnul : 0 ∉ content) :
    grep re want buf content = printed re (linesOf content).1 ↔
      ∀ l ∈ (linesOf content).1.dropWhile (·.length < bufSize - 1), matchText re l = false := by
  have hsplit : printed re (linesOf content).1 =
      printed re (fitting (linesOf content).1) ++ printed re ((linesOf content).1.dropWhile (·.length < bufSize - 1)) := by
    rw [fitting, ← printed_append, takeWhile_append_dropWhile]
  rw [grep_eq re want buf hnul, hsplit, ← printed_eq_nil]
  exact self_eq_append_right

/-- `grep b` on a file with the lines `ab` and `a`, three bytes at a time. -/
theorem grep_prints_twoLines : 0 ∉ ([97, 98, 10, 97, 10] : Str) ∧
    grep [98] (fun _ => 3) (fun _ => 0) [97, 98, 10, 97, 10] = [97, 98, 10] := by
  have hnul : 0 ∉ ([97, 98, 10, 97, 10] : Str) := by decide
  refine ⟨hnul, ?_⟩
  rw [(grep_prints_iff [98] (fun _ => 3) (fun _ => 0) _ hnul).mpr (by decide)]
  decide

/-- `grep a` prints nothing of a file with one line of 1023 letters `a`. -/
theorem grep_loses_long_line : ¬ ∀ (re : Str) (want : Nat → Nat) (buf : Mem) (content : Str), 0 ∉ content →
    grep re want buf content = printed re (linesOf content).1 := by
  intro hall
  obtain ⟨n, hn⟩ : ∃ n, n = 1022 := ⟨1022, rfl⟩
  have hline : newline ∉ replicate (n + 1) (97 : Byte) := fun hmem => absurd (eq_of_mem_replicate hmem) (by decide)
  have hnul : 0 ∉ replicate (n + 1) (97 : Byte) ++ [newline] := by simp [mem_replicate, newline]
  have hlong : bufSize - 1 ≤ (replicate (n + 1) (97 : Byte)).length := by
    rw [length_replicate, hn]
    decide
  -- the first letter already matches
  have hmatch : matchText [97] (replicate (n + 1) 97) = true := rfl
  have hgrep := hall [97] (fun _ => 1023) (fun _ => 0) _ hnul
  rw [grep_eq _ _ _ hnul, linesOf_line hline, fitting_of_long hlong, printed, printed,
    filter_cons_of_pos hmatch] at hgrep
  cases hgrep

end Xv6.User
