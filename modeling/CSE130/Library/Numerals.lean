import Mathlib.Data.Nat.Digits.Lemmas

/-!
# Numerals of a fixed width

A number is written with its most significant digit first, and with zeros in front of it up to the width.
A reader goes through the digits and multiplies what it has by the base.
-/

namespace CSE130.Library

variable {b w n : Nat}

/-- The digits of a number in some base, filled up with zeros to the width. -/
def numeral (b w n : Nat) : List Nat := (b.digitsAppend w n).reverse

/-- The number that has been read when the digits follow those of `v`. -/
def readDigits (b v : Nat) (ds : List Nat) : Nat := ds.foldl (fun v d => d + v * b) v

theorem readDigits_reverse (ds : List Nat) : readDigits b 0 ds.reverse = Nat.ofDigits b ds := by
  rw [readDigits, List.foldl_reverse, Nat.ofDigits_eq_foldr]
  congr
  funext d v
  rw [Nat.mul_comm]
  rfl

/-- What is read from a numeral is the number. -/
theorem readDigits_numeral (b w n : Nat) : readDigits b 0 (numeral b w n) = n := by
  rw [numeral, readDigits_reverse, Nat.digitsAppend, Nat.ofDigits_append_replicate_zero,
    Nat.ofDigits_digits]

theorem length_numeral (hb : 1 < b) (h : n < b ^ w) : (numeral b w n).length = w := by
  rw [numeral, List.length_reverse, Nat.length_digitsAppend hb w h]

theorem lt_of_mem_numeral (hb : 1 < b) {d : Nat} (h : d ∈ numeral b w n) : d < b := by
  rw [numeral, List.mem_reverse] at h
  exact Nat.lt_of_mem_digitsAppend hb w d h

/-- The number that has been read does not become smaller. -/
theorem le_readDigits (hb : 1 < b) (v : Nat) (ds : List Nat) : v ≤ readDigits b v ds := by
  induction ds generalizing v with
  | nil => exact Nat.le_refl v
  | cons d ds ih =>
    have hmul : v ≤ v * b := Nat.le_mul_of_pos_right v (by omega)
    calc v ≤ d + v * b := by omega
      _ ≤ readDigits b v (d :: ds) := ih _

example : numeral 8 7 420 = [0, 0, 0, 0, 6, 4, 4] := by decide

end CSE130.Library
