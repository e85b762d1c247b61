import Mathlib.Algebra.Ring.Nat
import Mathlib.Data.List.GetD
import Mathlib.Data.Nat.Init
import Mathlib.Tactic.ByContra
import Mathlib.Tactic.SplitIfs

/-!
# Arrays of words as arrays of bits

Bit `i` is bit `i % 32` of word `i / 32`.
-/

namespace CSE130.Library

/-- Bit `i` of a word. -/
def wordBit (w : UInt32) (i : Nat) : Bool := w.toNat.testBit i

/-- The word whose only bit is `i`. -/
def oneBit (i : Nat) : UInt32 := (1 : UInt32) <<< UInt32.ofNat i

/-- Bit `i` of an array. -/
def bitAt (ws : List UInt32) (i : Nat) : Bool := wordBit (ws.getD (i / 32) 0) (i % 32)

variable {w v : UInt32} {ws : List UInt32} {i j : Nat}

/-! ## Words -/

@[simp] theorem wordBit_zero (i : Nat) : wordBit 0 i = false := Nat.zero_testBit i

@[simp] theorem wordBit_or (w v : UInt32) (i : Nat) :
    wordBit (w ||| v) i = (wordBit w i || wordBit v i) := by
  rw [wordBit, UInt32.toNat_or, Nat.testBit_or]
  rfl

@[simp] theorem wordBit_and (w v : UInt32) (i : Nat) :
    wordBit (w &&& v) i = (wordBit w i && wordBit v i) := by
  rw [wordBit, UInt32.toNat_and, Nat.testBit_and]
  rfl

theorem wordBit_not (w : UInt32) (hi : i < 32) : wordBit (~~~w) i = !wordBit w i := by
  change (~~~w).toBitVec.toNat.testBit i = !w.toBitVec.toNat.testBit i
  rw [BitVec.testBit_toNat, BitVec.testBit_toNat, UInt32.toBitVec_not, BitVec.getLsbD_not,
    decide_eq_true hi, Bool.true_and]

theorem toNat_oneBit (hi : i < 32) : (oneBit i).toNat = 2 ^ i := by
  have hpow : 2 ^ i < 2 ^ 32 := Nat.pow_lt_pow_right (by decide) hi
  have hamount : (UInt32.ofNat i).toNat % 32 = i := by
    rw [UInt32.toNat_ofNat_of_lt' (Nat.lt_trans hi (by decide)), Nat.mod_eq_of_lt hi]
  rw [oneBit, UInt32.toNat_shiftLeft, hamount, Nat.shiftLeft_eq, show (1 : UInt32).toNat = 1 from rfl,
    Nat.one_mul, Nat.mod_eq_of_lt hpow]

theorem wordBit_oneBit (hi : i < 32) (j : Nat) : wordBit (oneBit i) j = decide (i = j) := by
  rw [wordBit, toNat_oneBit hi, Nat.testBit_two_pow]

/-- The test of a bit with a mask. -/
theorem and_oneBit_ne_zero (hi : i < 32) : w &&& oneBit i ≠ 0 ↔ wordBit w i = true := by
  constructor
  · intro hne
    by_contra hbit
    apply hne
    apply UInt32.toNat_inj.mp
    apply Nat.eq_of_testBit_eq
    intro j
    have hj := wordBit_and w (oneBit i) j
    rw [wordBit_oneBit hi] at hj
    change wordBit (w &&& oneBit i) j = wordBit 0 j
    rw [hj, wordBit_zero]
    by_cases hij : i = j
    · subst hij
      simpa using hbit
    · simp [hij]
  · intro hbit heq
    have hand := wordBit_and w (oneBit i) i
    rw [heq, wordBit_zero, wordBit_oneBit hi, hbit] at hand
    simp at hand

/-! ## Arrays -/

/-- A change of the word of bit `i` that changes only this bit. -/
theorem bitAt_modify {f : UInt32 → UInt32} {b : Bool → Bool} (hi : i / 32 < ws.length)
    (hself : ∀ w, wordBit (f w) (i % 32) = b (wordBit w (i % 32)))
    (hother : ∀ w k, k < 32 → k ≠ i % 32 → wordBit (f w) k = wordBit w k) (j : Nat) :
    bitAt (ws.modify (i / 32) f) j = if j = i then b (bitAt ws i) else bitAt ws j := by
  have hget : (ws.modify (i / 32) f).getD (j / 32) 0 =
      if j / 32 = i / 32 then f (ws.getD (i / 32) 0) else ws.getD (j / 32) 0 := by
    rw [List.getD_eq_getElem?_getD, List.getElem?_modify]
    by_cases hword : j / 32 = i / 32
    · rw [hword, if_pos rfl, List.getElem?_eq_getElem hi, List.getD_eq_getElem _ _ hi]
      simp
    · rw [if_neg hword]
      cases h : ws[j / 32]? <;> simp [List.getD_eq_getElem?_getD, h, Ne.symm hword]
  rw [bitAt, hget]
  by_cases hji : j = i
  · subst hji
    rw [if_pos rfl, if_pos rfl, hself, bitAt]
  · rw [if_neg hji]
    by_cases hword : j / 32 = i / 32
    · rw [if_pos hword, hother _ _ (Nat.mod_lt _ (by decide)) (by omega), bitAt, hword]
    · rw [if_neg hword, bitAt]

theorem bitAt_modify_or (hi : i / 32 < ws.length) (j : Nat) :
    bitAt (ws.modify (i / 32) (· ||| oneBit (i % 32))) j = if j = i then true else bitAt ws j := by
  have hlt : i % 32 < 32 := Nat.mod_lt _ (by decide)
  refine @bitAt_modify ws i _ (fun _ => true) hi ?_ ?_ j
  · intro w
    rw [wordBit_or, wordBit_oneBit hlt, decide_eq_true rfl, Bool.or_true]
  · intro w k _ hne
    rw [wordBit_or, wordBit_oneBit hlt, decide_eq_false hne.symm, Bool.or_false]

theorem bitAt_modify_and_not (hi : i / 32 < ws.length) (j : Nat) :
    bitAt (ws.modify (i / 32) (· &&& ~~~oneBit (i % 32))) j = if j = i then false else bitAt ws j := by
  have hlt : i % 32 < 32 := Nat.mod_lt _ (by decide)
  refine @bitAt_modify ws i _ (fun _ => false) hi ?_ ?_ j
  · intro w
    rw [wordBit_and, wordBit_not _ hlt, wordBit_oneBit hlt, decide_eq_true rfl, Bool.not_true,
      Bool.and_false]
  · intro w k hk hne
    rw [wordBit_and, wordBit_not _ hk, wordBit_oneBit hlt, decide_eq_false hne.symm, Bool.not_false,
      Bool.and_true]

end CSE130.Library
