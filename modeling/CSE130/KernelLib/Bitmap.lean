import CSE130.Library.BitWords
import CSE130.Library.Run
import Mathlib.Order.Nat

/-!
# Bitmaps

Rendering of what the kernel uses of `lib/kernel/bitmap.c` of Lab 3. From the outside a bitmap is an
array of bits, from the inside an array of words. Indices and counts have 32 bits; only a sum that is
compared can wrap.
-/

namespace CSE130.KernelLib

open CSE130.Library

/-- The reasons for which a function stops the kernel. -/
inductive Panic where
  | assertFailed
  | notReached
  | noMemoryForBitmap
  | outOfPages
  deriving DecidableEq, Repr

/-- `ELEM_BITS`. -/
abbrev elemBits : Nat := 32

/-- `elem_idx` (`bitmap.c:35-39`). -/
def elemIdx (bitIdx : Nat) : Nat := bitIdx / elemBits

/-- `bit_mask` (`bitmap.c:43-47`). -/
def bitMask (bitIdx : Nat) : UInt32 := oneBit (bitIdx % elemBits)

/-- `elem_cnt` (`bitmap.c:50-54`). -/
def elemCnt (bitCnt : Nat) : Nat := (bitCnt + elemBits - 1) / elemBits

/-- `byte_cnt` (`bitmap.c:57-61`). -/
def byteCnt (bitCnt : Nat) : Nat := 4 * elemCnt bitCnt

/-- `struct bitmap`. -/
structure Bitmap where
  bitCnt : Nat
  bits : List UInt32
  length_bits : bits.length = elemCnt bitCnt
  bitCnt_lt : bitCnt < 2 ^ 32

namespace Bitmap

/-- The bits that are there from the outside. -/
def bit (b : Bitmap) (i : Nat) : Bool := bitAt b.bits i

/-- `b->bits[idx]` changed. -/
def modifyWord (b : Bitmap) (idx : Nat) (f : UInt32 → UInt32) : Bitmap where
  bitCnt := b.bitCnt
  bits := b.bits.modify idx f
  length_bits := by rw [List.length_modify, b.length_bits]
  bitCnt_lt := b.bitCnt_lt

/-- `bitmap_mark` (`bitmap.c:156-166`). -/
def mark (b : Bitmap) (bitIdx : Nat) : Bitmap :=
  b.modifyWord (elemIdx bitIdx) (· ||| bitMask bitIdx)

/-- `bitmap_reset` (`bitmap.c:169-179`). -/
def reset (b : Bitmap) (bitIdx : Nat) : Bitmap :=
  b.modifyWord (elemIdx bitIdx) (· &&& ~~~bitMask bitIdx)

/-- `bitmap_set` (`bitmap.c:144-153`). -/
def set (b : Bitmap) (idx : Nat) (value : Bool) : Except Panic Bitmap := do
  check (idx < b.bitCnt) .assertFailed
  pure (if value then b.mark idx else b.reset idx)

/-- `bitmap_test` (`bitmap.c:197-203`). -/
def test (b : Bitmap) (idx : Nat) : Except Panic Bool := do
  check (idx < b.bitCnt) .assertFailed
  pure (decide (b.bits.getD (elemIdx idx) 0 &&& bitMask idx ≠ 0))

/-- The assertions on a range. -/
def checkRange (b : Bitmap) (start cnt : Nat) : Except Panic Unit := do
  check (start ≤ b.bitCnt) .assertFailed
  check ((start + cnt) % 2 ^ 32 ≤ b.bitCnt) .assertFailed

/-- The loop of `bitmap_set_multiple` from an index on. -/
def setLoop (value : Bool) : Nat → Nat → Bitmap → Except Panic Bitmap
  | _, 0, b => pure b
  | i, n + 1, b => do
    let b ← b.set i value
    setLoop value (i + 1) n b

/-- `bitmap_set_multiple` (`bitmap.c:217-228`). -/
def setMultiple (b : Bitmap) (start cnt : Nat) (value : Bool) : Except Panic Bitmap := do
  b.checkRange start cnt
  setLoop value start cnt b

/-- `bitmap_set_all` (`bitmap.c:208-214`). -/
def setAll (b : Bitmap) (value : Bool) : Except Panic Bitmap := b.setMultiple 0 b.bitCnt value

/-- The loop of `bitmap_contains` from an index on. -/
def containsLoop (b : Bitmap) (value : Bool) : Nat → Nat → Except Panic Bool
  | _, 0 => pure false
  | i, n + 1 => do
    let x ← b.test i
    if x = value then pure true else b.containsLoop value (i + 1) n

/-- `bitmap_contains` (`bitmap.c:250-263`). -/
def contains (b : Bitmap) (start cnt : Nat) (value : Bool) : Except Panic Bool := do
  b.checkRange start cnt
  b.containsLoop value start cnt

/-- `bitmap_all` (`bitmap.c:283-287`). -/
def all (b : Bitmap) (start cnt : Nat) : Except Panic Bool := do
  let x ← b.contains start cnt false
  pure !x

/-- The loop of `bitmap_scan` from an index on. -/
def scanLoop (b : Bitmap) (cnt : Nat) (value : Bool) : Nat → Nat → Except Panic (Option Nat)
  | _, 0 => pure none
  | i, n + 1 => do
    let x ← b.contains i cnt !value
    if x = false then pure (some i) else b.scanLoop cnt value (i + 1) n

/-- `bitmap_scan` (`bitmap.c:295-310`); there is no result for `BITMAP_ERROR`. -/
def scan (b : Bitmap) (start cnt : Nat) (value : Bool) : Except Panic (Option Nat) := do
  check (start ≤ b.bitCnt) .assertFailed
  if cnt ≤ b.bitCnt then b.scanLoop cnt value start (b.bitCnt - cnt + 1 - start)
  else pure none

/-- `bitmap_scan_and_flip` (`bitmap.c:319-326`). -/
def scanAndFlip (b : Bitmap) (start cnt : Nat) (value : Bool) :
    Except Panic (Option Nat × Bitmap) := do
  match ← b.scan start cnt value with
  | none => pure (none, b)
  | some idx => do
    let b ← b.setMultiple idx cnt !value
    pure (some idx, b)

/-- The words that a new bitmap gets. -/
def uninitialized (bitCnt : Nat) (words : Nat → UInt32) (h : bitCnt < 2 ^ 32) : Bitmap where
  bitCnt := bitCnt
  bits := (List.range (elemCnt bitCnt)).map words
  length_bits := by rw [List.length_map, List.length_range]
  bitCnt_lt := h

/-- `bitmap_create_in_buf` (`bitmap.c:99-110`), in a buffer with the given words. -/
def createInBuf (bitCnt : Nat) (words : Nat → UInt32) (h : bitCnt < 2 ^ 32) : Except Panic Bitmap :=
  (uninitialized bitCnt words h).setAll false

variable {b b' : Bitmap} {i j start cnt n : Nat} {value : Bool}

/-! ## Single bits -/

theorem elemIdx_lt (hi : i < b.bitCnt) : elemIdx i < b.bits.length := by
  rw [b.length_bits, elemIdx, elemCnt, elemBits]
  omega

@[simp] theorem bitCnt_modifyWord (idx : Nat) (f : UInt32 → UInt32) :
    (b.modifyWord idx f).bitCnt = b.bitCnt := rfl

theorem bit_mark (hi : i < b.bitCnt) (j : Nat) :
    (b.mark i).bit j = if j = i then true else b.bit j := bitAt_modify_or (elemIdx_lt hi) j

theorem bit_reset (hi : i < b.bitCnt) (j : Nat) :
    (b.reset i).bit j = if j = i then false else b.bit j := bitAt_modify_and_not (elemIdx_lt hi) j

/-- The bits of `b'` are those of `b`, except for those of a range. -/
structure SetTo (b b' : Bitmap) (start cnt : Nat) (value : Bool) : Prop where
  bitCnt : b'.bitCnt = b.bitCnt
  bit : ∀ j, b'.bit j = if start ≤ j ∧ j < start + cnt then value else b.bit j

theorem SetTo.refl (b : Bitmap) (start : Nat) (value : Bool) : SetTo b b start 0 value :=
  ⟨rfl, fun j => (if_neg (by omega)).symm⟩

theorem set_spec (hi : i < b.bitCnt) (value : Bool) :
    ∃ b', b.set i value = .ok b' ∧ SetTo b b' i 1 value := by
  have hone : ∀ j, (i ≤ j ∧ j < i + 1) ↔ j = i := by omega
  refine ⟨if value then b.mark i else b.reset i, check_bind hi, ?_⟩
  cases value with
  | true =>
    refine ⟨rfl, fun j => ?_⟩
    simp only [if_true, hone]
    exact bit_mark hi j
  | false =>
    refine ⟨rfl, fun j => ?_⟩
    simp only [Bool.false_eq_true, if_false, hone]
    exact bit_reset hi j

theorem test_eq (hi : i < b.bitCnt) : b.test i = .ok (b.bit i) := by
  have hmask : decide (b.bits.getD (elemIdx i) 0 &&& bitMask i ≠ 0) = b.bit i := by
    rw [Bool.eq_iff_iff, decide_eq_true_iff]
    exact and_oneBit_ne_zero (Nat.mod_lt i (by decide))
  rw [test, check_bind hi, hmask]
  rfl

/-! ## Ranges -/

theorem checkRange_eq (h : start + cnt ≤ b.bitCnt) : b.checkRange start cnt = .ok () := by
  have hlt := b.bitCnt_lt
  rw [checkRange, check_bind (Nat.le_of_add_right_le h), Nat.mod_eq_of_lt (Nat.lt_of_le_of_lt h hlt)]
  exact if_pos h

theorem setLoop_spec (value : Bool) (h : i + n ≤ b.bitCnt) :
    ∃ b', setLoop value i n b = .ok b' ∧ SetTo b b' i n value := by
  induction n generalizing i b with
  | zero => exact ⟨b, rfl, .refl b i value⟩
  | succ n ih =>
    obtain ⟨b₁, hset, h₁⟩ := set_spec (by omega : i < b.bitCnt) value
    obtain ⟨b₂, hloop, h₂⟩ := @ih b₁ (i + 1) (by rw [h₁.bitCnt]; omega)
    refine ⟨b₂, ?_, h₂.bitCnt.trans h₁.bitCnt, ?_⟩
    · rw [setLoop, hset]
      exact hloop
    · intro j
      rw [h₂.bit, h₁.bit]
      split_ifs <;> first | rfl | omega

theorem setMultiple_spec (value : Bool) (h : start + cnt ≤ b.bitCnt) :
    ∃ b', b.setMultiple start cnt value = .ok b' ∧ SetTo b b' start cnt value := by
  obtain ⟨b', hloop, hset⟩ := setLoop_spec value h
  exact ⟨b', by rw [setMultiple, checkRange_eq h]; exact hloop, hset⟩

/-- Some bit of a range has the value. -/
def Occurs (b : Bitmap) (start cnt : Nat) (value : Bool) : Prop :=
  ∃ j, start ≤ j ∧ j < start + cnt ∧ b.bit j = value

theorem occurs_succ : b.Occurs i (n + 1) value ↔ b.bit i = value ∨ b.Occurs (i + 1) n value := by
  constructor
  · rintro ⟨j, hle, hlt, hj⟩
    rcases Nat.eq_or_lt_of_le hle with rfl | hlt'
    · exact .inl hj
    · exact .inr ⟨j, hlt', by omega, hj⟩
  · rintro (h | ⟨j, hle, hlt, hj⟩)
    · exact ⟨i, le_rfl, by omega, h⟩
    · exact ⟨j, by omega, by omega, hj⟩

theorem containsLoop_spec (value : Bool) (h : i + n ≤ b.bitCnt) :
    ∃ x, b.containsLoop value i n = .ok x ∧ (x = true ↔ b.Occurs i n value) := by
  induction n generalizing i with
  | zero =>
    refine ⟨false, rfl, iff_of_false Bool.false_ne_true ?_⟩
    rintro ⟨j, hle, hlt, -⟩
    omega
  | succ n ih =>
    have htest := test_eq (by omega : i < b.bitCnt)
    rw [containsLoop, htest]
    by_cases hi : b.bit i = value
    · exact ⟨true, if_pos hi, iff_of_true rfl (occurs_succ.mpr (.inl hi))⟩
    · obtain ⟨x, hx, hiff⟩ := @ih (i + 1) (by omega)
      refine ⟨x, (if_neg hi).trans hx, ?_⟩
      rw [hiff, occurs_succ]
      exact (or_iff_right hi).symm

theorem contains_spec (value : Bool) (h : start + cnt ≤ b.bitCnt) :
    ∃ x, b.contains start cnt value = .ok x ∧ (x = true ↔ b.Occurs start cnt value) := by
  obtain ⟨x, hloop, hiff⟩ := containsLoop_spec value h
  exact ⟨x, by rw [contains, checkRange_eq h]; exact hloop, hiff⟩

theorem all_spec (h : start + cnt ≤ b.bitCnt) :
    ∃ x, b.all start cnt = .ok x ∧
      (x = true ↔ ∀ j, start ≤ j → j < start + cnt → b.bit j = true) := by
  obtain ⟨x, hx, hiff⟩ := contains_spec false h
  refine ⟨!x, by rw [all, hx]; rfl, ?_⟩
  rw [Bool.not_eq_true', ← Bool.not_eq_true, hiff]
  constructor
  · intro hno j hle hlt
    by_contra hj
    exact hno ⟨j, hle, hlt, Bool.not_eq_true _ ▸ hj⟩
  · rintro hall ⟨j, hle, hlt, hj⟩
    rw [hall j hle hlt] at hj
    cases hj

/-- All bits of a group have the value. -/
def Group (b : Bitmap) (idx cnt : Nat) (value : Bool) : Prop :=
  idx + cnt ≤ b.bitCnt ∧ ∀ j, idx ≤ j → j < idx + cnt → b.bit j = value

theorem group_iff (h : start + cnt ≤ b.bitCnt) :
    b.Group start cnt value ↔ ¬ b.Occurs start cnt !value := by
  constructor
  · rintro ⟨-, hall⟩ ⟨j, hle, hlt, hj⟩
    rw [hall j hle hlt] at hj
    cases value <;> cases hj
  · intro hno
    refine ⟨h, fun j hle hlt => ?_⟩
    by_contra hj
    exact hno ⟨j, hle, hlt, Bool.eq_not_of_ne hj⟩

/-- The result of a search for a group at or after `start`. -/
def Finds (b : Bitmap) (start cnt : Nat) (value : Bool) : Option Nat → Prop
  | none => ∀ idx, start ≤ idx → ¬ b.Group idx cnt value
  | some idx => start ≤ idx ∧ b.Group idx cnt value ∧
      ∀ idx', start ≤ idx' → idx' < idx → ¬ b.Group idx' cnt value

theorem scanLoop_spec (hcnt : cnt ≤ b.bitCnt) (h : i + n = b.bitCnt - cnt + 1) :
    ∃ r, b.scanLoop cnt value i n = .ok r ∧ b.Finds i cnt value r := by
  induction n generalizing i with
  | zero =>
    refine ⟨none, rfl, ?_⟩
    rintro idx hle ⟨hfits, -⟩
    omega
  | succ n ih =>
    have hfits : i + cnt ≤ b.bitCnt := by omega
    obtain ⟨x, hx, hiff⟩ := contains_spec (!value) hfits
    rw [scanLoop, hx]
    cases x with
    | false =>
      have hgroup : b.Group i cnt value := (group_iff hfits).mpr fun hno => Bool.false_ne_true (hiff.mpr hno)
      exact ⟨some i, rfl, le_rfl, hgroup, fun idx' hle hlt => by omega⟩
    | true =>
      have hgroup : ¬ b.Group i cnt value := fun hg => (group_iff hfits).mp hg (hiff.mp rfl)
      obtain ⟨r, hr, hfinds⟩ := @ih (i + 1) (by omega)
      refine ⟨r, hr, ?_⟩
      cases r with
      | none =>
        intro idx hle
        rcases Nat.eq_or_lt_of_le hle with rfl | hlt
        · exact hgroup
        · exact hfinds idx hlt
      | some idx =>
        obtain ⟨hle, hg, hfirst⟩ := hfinds
        refine ⟨by omega, hg, fun idx' hle' hlt' => ?_⟩
        rcases Nat.eq_or_lt_of_le hle' with rfl | hlt
        · exact hgroup
        · exact hfirst idx' hlt hlt'

theorem scan_spec (value : Bool) (hstart : start ≤ b.bitCnt) :
    ∃ r, b.scan start cnt value = .ok r ∧ b.Finds start cnt value r := by
  rw [scan, check_bind hstart]
  split_ifs with hcnt
  · rcases Nat.le_total start (b.bitCnt - cnt + 1) with hle | hge
    · exact scanLoop_spec hcnt (by omega)
    · rw [Nat.sub_eq_zero_of_le hge]
      refine ⟨none, rfl, ?_⟩
      rintro idx hle ⟨hfits, -⟩
      omega
  · refine ⟨none, rfl, ?_⟩
    rintro idx - ⟨hfits, -⟩
    omega

/-- The bitmap after a search that has flipped what it found. -/
def Flipped (b b' : Bitmap) (cnt : Nat) (value : Bool) : Option Nat → Prop
  | none => b' = b
  | some idx => SetTo b b' idx cnt !value

theorem scanAndFlip_spec (value : Bool) (hstart : start ≤ b.bitCnt) :
    ∃ r b', b.scanAndFlip start cnt value = .ok (r, b') ∧ b.Finds start cnt value r ∧
      Flipped b b' cnt value r := by
  obtain ⟨r, hscan, hfinds⟩ := @scan_spec b start cnt value hstart
  rw [scanAndFlip, hscan]
  cases r with
  | none => exact ⟨none, b, rfl, hfinds, rfl⟩
  | some idx =>
    obtain ⟨b', hset, hsetTo⟩ := setMultiple_spec (!value) hfinds.2.1.1
    refine ⟨some idx, b', ?_, hfinds, hsetTo⟩
    simp only [bind, Except.bind, hset]
    rfl

theorem createInBuf_spec (words : Nat → UInt32) (h : cnt < 2 ^ 32) :
    ∃ b, createInBuf cnt words h = .ok b ∧ b.bitCnt = cnt ∧ ∀ j < cnt, b.bit j = false := by
  obtain ⟨b, hset, hbitCnt, hbit⟩ := @setMultiple_spec (uninitialized cnt words h) 0 cnt false (by
    rw [Nat.zero_add]
    rfl)
  refine ⟨b, hset, hbitCnt, fun j hj => ?_⟩
  rw [hbit, if_pos ⟨Nat.zero_le j, by omega⟩]

end Bitmap

end CSE130.KernelLib
