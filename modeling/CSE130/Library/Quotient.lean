import Mathlib.Algebra.Order.Ring.Nat
import Mathlib.Tactic.Ring
import Mathlib.Tactic.Linarith

/-!
# Quotients by a divisor that has been cut

A quotient by the leading digits of a divisor is never too small. It is too big by one at most where
the digits that were cut do not weigh more than the ones that are left.
-/

namespace CSE130.Library

variable {n d w p q : Nat}

theorem div_le_div_cut (hd : 0 < d / w) : n / d ≤ n / (d / w * w) := by
  have hw : 0 < w := by
    rcases Nat.eq_zero_or_pos w with rfl | hw
    · simp at hd
    · exact hw
  exact Nat.div_le_div_left (Nat.div_mul_le_self d w) (Nat.mul_pos hd hw)

theorem div_cut_le (hd : 0 < d / w) (hcut : (n / d + 1) * (d % w) ≤ d / w * w) :
    n / (d / w * w) ≤ n / d + 1 := by
  have hdpos : 0 < d := by
    rcases Nat.eq_zero_or_pos d with rfl | hd'
    · simp at hd
    · exact hd'
  have hsplit : d / w * w + d % w = d := Nat.div_add_mod' d w
  have hlt : n < (n / d + 1) * d := by
    rw [Nat.mul_comm]
    exact Nat.lt_mul_div_succ n hdpos
  have hbound : (n / d + 1) * d ≤ (n / d + 2) * (d / w * w) := by
    calc (n / d + 1) * d = (n / d + 1) * (d / w * w + d % w) := by rw [hsplit]
      _ = (n / d + 1) * (d / w * w) + (n / d + 1) * (d % w) := Nat.mul_add _ _ _
      _ ≤ (n / d + 1) * (d / w * w) + d / w * w := Nat.add_le_add_left hcut _
      _ = (n / d + 2) * (d / w * w) := by ring
  exact Nat.lt_succ_iff.mp (Nat.div_lt_of_lt_mul (by rw [Nat.mul_comm]; exact hlt.trans_le hbound))

/-- One comparison puts right an estimate that may be too big by one. -/
theorem correct_estimate (hd : 0 < d) (hn : d ≤ n) (hq : n / d ≤ q) (hq' : q ≤ n / d + 1) :
    (if n - (q - 1) * d < d then q - 1 else q) = n / d := by
  have hpos : 0 < n / d := Nat.div_pos hn hd
  have hrest : n / d * d + n % d = n := Nat.div_add_mod' n d
  have hmod : n % d < d := Nat.mod_lt n hd
  rcases Nat.eq_or_lt_of_le hq with heq | hlt
  · have hprev : (q - 1) * d + d = n / d * d := by
      rw [heq, ← Nat.succ_mul, Nat.succ_eq_add_one, Nat.sub_add_cancel (by omega)]
    rw [if_neg (by omega), heq]
  · have hprev : q - 1 = n / d := by omega
    rw [if_pos (by rw [hprev]; omega), hprev]

end CSE130.Library
