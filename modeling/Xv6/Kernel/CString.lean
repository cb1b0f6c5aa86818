/-
# Xv6.Kernel.CString — NUL-terminated strings and the comparison every lookup goes through
(`kernel/string.c`).

A string argument is a NUL-free list of bytes (`CStr`); a `char name[n]` field is the array of its
`n` bytes (`CharArr n`).  `strncmp` compares two byte readers, because the code compares a
terminated string with an array that need not be terminated: what lies behind the array is part of
the reader the caller passes.
-/
import Mathlib.Data.BitVec
import Mathlib.Data.Fintype.Basic
import Mathlib.Data.List.GetD
import Mathlib.Tactic.Common

namespace Xv6.Kernel

/-- A C string as `argstr` hands it over: the bytes before the terminating NUL. -/
structure CStr where
  bytes : List UInt8
  nul_free : ∀ b ∈ bytes, b ≠ 0
  deriving DecidableEq

/-- The contents of a `char x[n]`. -/
abbrev CharArr (n : Nat) := Fin n → UInt8

namespace CStr

/-- Byte `i` of the string in memory; the terminator (and the model's default behind it) is `0`. -/
def get (t : CStr) (i : Nat) : UInt8 := t.bytes.getD i 0

def strlen (t : CStr) : Nat := t.bytes.length

/-- A string from its bytes; that none is a NUL is checked by evaluation. -/
def ofBytes (bytes : List UInt8) (h : bytes.all (· != 0) = true) : CStr :=
  ⟨bytes, fun b hb => bne_iff_ne.mp (List.all_eq_true.mp h b hb)⟩

theorem get_ne_zero {t : CStr} {i : Nat} (h : i < t.strlen) : t.get i ≠ 0 := by
  have hi : i < t.bytes.length := h
  have hget : t.get i = t.bytes[i] := List.getD_eq_getElem _ _ hi
  rw [hget]
  exact t.nul_free _ (List.getElem_mem hi)

theorem get_strlen (t : CStr) : t.get t.strlen = 0 := List.getD_eq_default _ _ (le_refl _)

end CStr

theorem takeWhile_read {f : Nat → UInt8} {l : List UInt8} {n : Nat} (hnul : ∀ b ∈ l, b ≠ 0) (hlen : l.length ≤ n)
    (hread : ∀ i (h : i < l.length), f i = l[i]) (hend : l.length < n → f l.length = 0) :
    ((List.range n).map f).takeWhile (· != 0) = l := by
  induction l generalizing f n with
  | nil =>
    cases n with
    | zero => rfl
    | succ n =>
      have h0 : f 0 = 0 := hend (Nat.succ_pos n)
      simp [List.range_succ_eq_map, h0]
  | cons b l ih =>
    obtain ⟨n, rfl⟩ := Nat.exists_eq_add_one.mpr (Nat.lt_of_lt_of_le (Nat.succ_pos l.length) hlen)
    have hb : f 0 = b := hread 0 (Nat.succ_pos _)
    have hrest : ((List.range n).map fun i => f (i + 1)).takeWhile (· != 0) = l := by
      apply ih (fun c hc => hnul c (List.mem_cons_of_mem b hc)) (Nat.le_of_succ_le_succ hlen)
      · intro i hi
        exact hread (i + 1) (Nat.succ_lt_succ hi)
      · intro h
        exact hend (Nat.succ_lt_succ h)
    simp [List.range_succ_eq_map, hb, hnul b List.mem_cons_self, Function.comp_def, hrest]

/-- `strncpy(s, t, n)` into a `char s[n]`: the bytes of `t`, padded with NULs and cut at `n`. -/
def strncpy (n : Nat) (t : CStr) : CharArr n := fun i => t.get i

def strncmpFrom (p q : Nat → UInt8) : Nat → Nat → Int
  | _, 0 => 0
  | i, n + 1 =>
    if p i ≠ 0 ∧ p i = q i then strncmpFrom p q (i + 1) n
    else ((p i).toNat : Int) - (q i).toNat

def strncmp (p q : Nat → UInt8) (n : Nat) : Int := strncmpFrom p q 0 n

theorem toNat_sub_eq_zero {a b : UInt8} : ((a.toNat : Int) - b.toNat = 0) ↔ a = b := by
  rw [Int.sub_eq_zero, Int.natCast_inj, UInt8.toNat_inj]

theorem strncmpFrom_eq_zero_iff (p q : Nat → UInt8) (i n : Nat) :
    strncmpFrom p q i n = 0 ↔ ∀ k < n, (∀ j < k, p (i + j) ≠ 0) → p (i + k) = q (i + k) := by
  induction n generalizing i with
  | zero => simp [strncmpFrom]
  | succ n ih =>
    unfold strncmpFrom
    split
    · rename_i hp
      rw [ih]
      constructor
      · intro h k hk hj
        rcases k with _ | k
        · exact hp.2
        · have := h k (by omega) (fun j hjk => by
            have := hj (j + 1) (by omega)
            rwa [show i + 1 + j = i + (j + 1) by omega])
          rwa [show i + (k + 1) = i + 1 + k by omega]
      intro h k hk hj
      have := h (k + 1) (by omega) (fun j hjk => by
        rcases j with _ | j
        · exact hp.1
        · have := hj j (by omega)
          rwa [show i + (j + 1) = i + 1 + j by omega])
      rwa [show i + 1 + k = i + (k + 1) by omega]
    · rename_i hp
      rw [toNat_sub_eq_zero]
      constructor
      · -- the bytes agree although the loop stopped: both are the terminator
        intro heq
        have h0 : p i = 0 := by
          by_contra hne
          exact hp ⟨hne, heq⟩
        intro k hk hj
        rcases k with _ | k
        · exact heq
        · exact absurd h0 (hj 0 (by omega))
      · intro h
        exact h 0 (by omega) (fun j hj => absurd hj (by omega))

theorem strncmp_eq_zero_iff (p q : Nat → UInt8) (n : Nat) :
    strncmp p q n = 0 ↔ ∀ k < n, (∀ j < k, p j ≠ 0) → p k = q k := by
  simpa [strncmp] using strncmpFrom_eq_zero_iff p q 0 n

/-- **The comparison of the container lookups**: over `strlen(t)` bytes nothing of `t` is a NUL, so
`t` matches exactly when `q` begins with it. -/
theorem strncmp_strlen_eq_zero_iff (t : CStr) (q : Nat → UInt8) :
    strncmp t.get q t.strlen = 0 ↔ ∀ k < t.strlen, t.get k = q k := by
  rw [strncmp_eq_zero_iff]
  constructor
  · intro h k hk
    exact h k hk (fun j hj => CStr.get_ne_zero (by omega))
  · intro h k hk _
    exact h k hk

end Xv6.Kernel
