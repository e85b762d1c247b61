import Mathlib.Algebra.Ring.Nat
import Mathlib.Data.Nat.Bitwise

/-!
# Blocks of a power of two in 32-bit words

A mask of `k` low bits splits a word into its offset in a block of `2 ^ k` and the start of the block.
-/

namespace CSE130.Library

section Masks

variable {x m : UInt32} {k : Nat}

theorem toNat_and_mask (hm : m.toNat = 2 ^ k - 1) : (x &&& m).toNat = x.toNat % 2 ^ k := by
  rw [UInt32.toNat_and, hm, Nat.and_two_pow_sub_one_eq_mod]

theorem nat_and_high {n : Nat} (hk : k ≤ 32) (hn : n < 2 ^ 32) :
    n &&& (2 ^ 32 - 1 - (2 ^ k - 1)) = n / 2 ^ k * 2 ^ k := by
  have hhigh : 2 ^ 32 - 1 - (2 ^ k - 1) = (2 ^ (32 - k) - 1) * 2 ^ k := by
    have hpow : 2 ^ (32 - k) * 2 ^ k = 2 ^ 32 := by rw [← Nat.pow_add, Nat.sub_add_cancel hk]
    have hpos := Nat.two_pow_pos k
    rw [Nat.sub_mul, hpow, Nat.one_mul]
    omega
  apply Nat.eq_of_testBit_eq
  intro i
  rw [Nat.testBit_and, hhigh, Nat.testBit_mul_two_pow, Nat.testBit_mul_two_pow,
    Nat.testBit_two_pow_sub_one, Nat.testBit_div_two_pow]
  by_cases hi : k ≤ i
  · rw [Nat.sub_add_cancel hi]
    by_cases hlt : i < 32
    · have hbit : i - k < 32 - k := by omega
      simp [hi, hbit]
    · have hzero : n.testBit i = false :=
        Nat.testBit_lt_two_pow (hn.trans_le (Nat.pow_le_pow_right (by omega) (by omega)))
      simp [hzero]
  · simp [hi]

theorem toNat_and_not_mask (hk : k ≤ 32) (hm : m.toNat = 2 ^ k - 1) :
    (x &&& ~~~m).toNat = x.toNat / 2 ^ k * 2 ^ k := by
  have hnot : (~~~m).toNat = 2 ^ 32 - 1 - (2 ^ k - 1) := by
    rw [UInt32.toNat_not, hm]
    rfl
  rw [UInt32.toNat_and, hnot, nat_and_high hk x.toNat_lt]

end Masks

end CSE130.Library
