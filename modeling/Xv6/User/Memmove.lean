/-
# Xv6.User.Memmove — the two `memmove`s (`kernel/string.c` and `user/ulib.c`).

The kernel copies downwards when the destination begins inside the source, the library always copies
upwards.  Going up by a distance `k`, byte `i` is read after `i - k` was written, so what arrives is the
source repeated with period `k` (`copyUp_apply`); the library agrees with the kernel exactly when the source has
this period anyway.
-/
import Mathlib.Algebra.GroupWithZero.Nat
import Mathlib.Logic.Function.Basic
import Mathlib.Tactic.Common

namespace Xv6

open Function

/-! ## The code -/

abbrev Addr := BitVec 64

abbrev Memory := Addr → UInt8

/-- `while(n-- > 0) *d++ = *s++`. -/
def copyUp : Nat → Addr → Addr → Memory → Memory
  | 0, _, _, mem => mem
  | n + 1, d, s, mem => copyUp n (d + 1) (s + 1) (update mem d (mem s))

/-- `while(n-- > 0) *--d = *--s`. -/
def copyDown : Nat → Addr → Addr → Memory → Memory
  | 0, _, _, mem => mem
  | n + 1, d, s, mem => copyDown n (d - 1) (s - 1) (update mem (d - 1) (mem (s - 1)))

/-- `memmove(dst, src, n)` of the kernel, with `uint n`: the pointer it returns, and memory. -/
def Kernel.memmove (dst src : Addr) (n : BitVec 32) (mem : Memory) : Addr × Memory :=
  let m := n.setWidth 64
  (dst, if src < dst ∧ src + m > dst then copyDown n.toNat (dst + m) (src + m) mem else copyUp n.toNat dst src mem)

/-- `memmove(vdst, vsrc, n)` of the library, with `int n`. -/
def User.Ulib.memmove (vdst vsrc : Addr) (n : BitVec 32) (mem : Memory) : Addr × Memory :=
  (vdst, copyUp n.toInt.toNat vdst vsrc mem)

/-- Memory where the `n` bytes at `dst` are those that `mem` has at `src`. -/
def moved (dst src : Addr) (n : Nat) (mem : Memory) : Memory := fun a =>
  if (a - dst).toNat < n then mem (src + (a - dst)) else mem a

section Loops

variable {mem : Memory} {d s a : Addr} {n : Nat}

theorem copyUp_succ (n : Nat) : ∀ (d s : Addr) (mem : Memory), copyUp (n + 1) d s mem =
    update (copyUp n d s mem) (d + BitVec.ofNat 64 n) (copyUp n d s mem (s + BitVec.ofNat 64 n)) := by
  induction n with
  | zero =>
    intro d s mem
    simp [copyUp]
  | succ n ih =>
    intro d s mem
    have hnext : ∀ a : Addr, a + 1 + BitVec.ofNat 64 n = a + BitVec.ofNat 64 (n + 1) := by
      intro a
      bv_omega
    rw [copyUp, ih, hnext, hnext]
    rfl

/-- **Copying upwards repeats the bytes in front of the destination.** -/
theorem copyUp_apply (hn : n ≤ 2 ^ 64) : copyUp n d s mem a =
    if (a - d).toNat < n then mem (s + BitVec.ofNat 64 ((a - d).toNat % (d - s).toNat)) else mem a := by
  induction n generalizing a with
  | zero => simp [copyUp]
  | succ n ih =>
    have hle : n ≤ 2 ^ 64 := by omega
    rw [copyUp_succ]
    by_cases ha : a = d + BitVec.ofNat 64 n
    · have hoff : (a - d).toNat = n := by
        subst ha
        bv_omega
      rw [ha, update_self, ← ha, hoff, if_pos (Nat.lt_succ_self n), ih hle]
      by_cases hk : (d - s).toNat ≤ n ∧ (d - s).toNat ≠ 0
      · -- the byte to copy has been written, `k` rounds ago
        have hback : (s + BitVec.ofNat 64 n - d).toNat = n - (d - s).toNat := by bv_omega
        rw [hback, if_pos (by omega), Nat.mod_eq_sub_mod hk.1]
      · have hsame : n % (d - s).toNat = n := by
          rcases Nat.eq_zero_or_pos (d - s).toNat with h0 | hpos
          · rw [h0, Nat.mod_zero]
          · exact Nat.mod_eq_of_lt (by omega)
        have hnot : ¬ (s + BitVec.ofNat 64 n - d).toNat < n := by bv_omega
        rw [if_neg hnot, hsame]
    · have hoff : (a - d).toNat < n + 1 ↔ (a - d).toNat < n := by
        bv_omega
      rw [update_of_ne ha, ih hle]
      simp only [hoff]

/-- **Copying downwards moves**, unless the source is above the destination. -/
theorem copyDown_apply : ∀ (n : Nat) (mem : Memory), n + (d - s).toNat < 2 ^ 64 →
    copyDown n (d + BitVec.ofNat 64 n) (s + BitVec.ofNat 64 n) mem = moved d s n mem := by
  intro n
  induction n with
  | zero =>
    intro mem _
    funext a
    simp [copyDown, moved]
  | succ n ih =>
    intro mem hn
    have hprev : ∀ a : Addr, a + BitVec.ofNat 64 (n + 1) - 1 = a + BitVec.ofNat 64 n := by
      intro a
      bv_omega
    rw [copyDown, hprev, hprev, ih _ (by omega)]
    funext a
    unfold moved
    by_cases ha : a = d + BitVec.ofNat 64 n
    · have hoff : a - d = BitVec.ofNat 64 n := by
        subst ha
        bv_omega
      have hnat : (BitVec.ofNat 64 n).toNat = n := by bv_omega
      rw [hoff, hnat, if_neg (Nat.lt_irrefl n), if_pos (Nat.lt_succ_self n), ha, update_self]
    · have hoff : (a - d).toNat < n + 1 ↔ (a - d).toNat < n := by
        bv_omega
      simp only [hoff]
      split
      · have hne : s + (a - d) ≠ d + BitVec.ofNat 64 n := by
          bv_omega
        rw [update_of_ne hne]
      · rw [update_of_ne ha]

end Loops

/-! ## The two functions -/

section Functions

variable {mem : Memory} {dst src : Addr} {n : Nat}

/-- **Upwards is right exactly when the source repeats** with the distance it is moved by. -/
theorem copyUp_eq_moved_iff (hn : n ≤ 2 ^ 64) : copyUp n dst src mem = moved dst src n mem ↔
    ∀ i, (dst - src).toNat + i < n → mem (dst + BitVec.ofNat 64 i) = mem (src + BitVec.ofNat 64 i) := by
  have hread : ∀ i, i < n → (copyUp n dst src mem (dst + BitVec.ofNat 64 i) =
        mem (src + BitVec.ofNat 64 (i % (dst - src).toNat)) ∧
      moved dst src n mem (dst + BitVec.ofNat 64 i) = mem (src + BitVec.ofNat 64 i)) := by
    intro i hi
    have hoff : dst + BitVec.ofNat 64 i - dst = BitVec.ofNat 64 i := by bv_omega
    have hnat : (BitVec.ofNat 64 i).toNat = i := by bv_omega
    rw [copyUp_apply hn, moved, hoff, hnat, if_pos hi, if_pos hi]
    exact ⟨rfl, rfl⟩
  have hahead : ∀ i, src + BitVec.ofNat 64 ((dst - src).toNat + i) = dst + BitVec.ofNat 64 i := by
    intro i
    bv_omega
  constructor
  · intro h i hi
    have hsame : ∀ j, j < n → mem (src + BitVec.ofNat 64 (j % (dst - src).toNat)) = mem (src + BitVec.ofNat 64 j) := by
      intro j hj
      rw [← (hread j hj).1, h, (hread j hj).2]
    rw [← hahead, ← hsame _ hi, Nat.add_mod_left, hsame i (by omega)]
  · intro h
    -- by induction on the byte: it is the one a period earlier
    have hsame : ∀ i, i < n → mem (src + BitVec.ofNat 64 (i % (dst - src).toNat)) = mem (src + BitVec.ofNat 64 i) := by
      intro i
      induction i using Nat.strongRecOn with
      | _ i ih =>
        intro hi
        by_cases hk : (dst - src).toNat ≤ i ∧ (dst - src).toNat ≠ 0
        · obtain ⟨j, rfl⟩ := Nat.exists_eq_add_of_le hk.1
          rw [Nat.add_mod_left, ih j (by omega) (by omega), hahead, h j hi]
        · rcases Nat.eq_zero_or_pos (dst - src).toNat with h0 | hpos
          · rw [h0, Nat.mod_zero]
          · rw [Nat.mod_eq_of_lt (by omega)]
    funext a
    by_cases ha : (a - dst).toNat < n
    · have haddr : a = dst + BitVec.ofNat 64 (a - dst).toNat := by
        bv_omega
      rw [haddr, (hread _ ha).1, (hread _ ha).2, hsame _ ha]
    · rw [copyUp_apply hn, moved, if_neg ha, if_neg ha]

/-- The kernel moves, wherever the library does. -/
theorem kernel_memmove (n : BitVec 32) (h : copyUp n.toNat dst src mem = moved dst src n.toNat mem) :
    (Kernel.memmove dst src n mem).2 = moved dst src n.toNat mem := by
  have hm : n.setWidth 64 = BitVec.ofNat 64 n.toNat := by bv_omega
  unfold Kernel.memmove
  dsimp only
  split
  · rename_i hinside
    rw [hm] at hinside ⊢
    exact copyDown_apply n.toNat mem (by bv_omega)
  · exact h

end Functions

/-- **The two functions agree and move** exactly when no byte of the source is overwritten with another one before
it is copied: the destination does not begin inside the source, or the source has the period that it is
moved by. -/
theorem memmove_agree_iff (mem : Memory) (dst src : Addr) (n : BitVec 32) (hn : n.toNat < 2 ^ 31) :
    (User.Ulib.memmove dst src n mem = Kernel.memmove dst src n mem ∧
      (Kernel.memmove dst src n mem).2 = moved dst src n.toNat mem) ↔
    ∀ i, (dst - src).toNat + i < n.toNat → mem (dst + BitVec.ofNat 64 i) = mem (src + BitVec.ofNat 64 i) := by
  have hint : n.toInt.toNat = n.toNat := by
    rw [BitVec.toInt_eq_toNat_of_lt (by omega), Int.toNat_natCast]
  rw [← copyUp_eq_moved_iff (by omega)]
  unfold User.Ulib.memmove
  rw [hint]
  constructor
  · rintro ⟨hsame, hmoved⟩
    rw [← hmoved, ← hsame]
  · intro h
    have hk := kernel_memmove n h
    exact ⟨Prod.ext rfl (h.trans hk.symm), hk⟩

/-- Four bytes to where they do not overlap. -/
theorem memmove_agree_apart : User.Ulib.memmove 8 0 4 (fun a => a.toNat.toUInt8) = Kernel.memmove 8 0 4 fun a => a.toNat.toUInt8 :=
  ((memmove_agree_iff _ 8 0 4 (by decide)).mpr fun i hi => absurd hi (by simp; omega)).1

/-- Two bytes moved up by one: the library writes the first of them twice. -/
theorem memmove_differ : ¬ ∀ (mem : Memory) (dst src : Addr) (n : BitVec 32), n.toNat < 2 ^ 31 →
    User.Ulib.memmove dst src n mem = Kernel.memmove dst src n mem ∧
      (Kernel.memmove dst src n mem).2 = moved dst src n.toNat mem := by
  intro h
  have hsame := (h (fun a => a.toNat.toUInt8) 1 0 2 (by decide)).1
  exact absurd (congrFun (congrArg Prod.snd hsame) 2) (by decide)

end Xv6
