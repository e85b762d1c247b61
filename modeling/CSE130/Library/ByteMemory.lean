import Mathlib.Algebra.Ring.Int.Defs
import Mathlib.Algebra.Ring.Nat

/-!
# Byte memory and stacks that grow downwards

A memory is a function from addresses to bytes. The contents of a stack are the bytes from the stack
pointer up to its top; from the lowest address of the stack up to the stack pointer the memory is
still zero.
-/

namespace CSE130.Library

/-- A memory of bytes. -/
abbrev Mem := Int → UInt8

/-- The memory after the bytes have been written from address `a` on. -/
def store (m : Mem) (a : Int) : List UInt8 → Mem
  | [] => m
  | b :: bs => store (Function.update m a b) (a + 1) bs

/-- The bytes are in the memory from address `a` on. -/
def Holds (m : Mem) (a : Int) : List UInt8 → Prop
  | [] => True
  | b :: bs => m a = b ∧ Holds m (a + 1) bs

section Memory

variable {m m' : Mem} {a x : Int} {bs cs : List UInt8}

theorem store_of_lt (h : x < a) : store m a bs x = m x := by
  induction bs generalizing m a with
  | nil => rfl
  | cons b bs ih =>
    rw [store, ih (by omega), Function.update_of_ne (by omega)]

theorem Holds.congr (h : Holds m a bs) (heq : ∀ x, a ≤ x → m' x = m x) : Holds m' a bs := by
  induction bs generalizing a with
  | nil => trivial
  | cons b bs ih =>
    refine ⟨(heq a (Int.le_refl a)).trans h.1, ih h.2 ?_⟩
    intro x hx
    exact heq x (by omega)

theorem store_holds (m : Mem) (a : Int) (bs : List UInt8) : Holds (store m a bs) a bs := by
  induction bs generalizing m a with
  | nil => trivial
  | cons b bs ih =>
    refine ⟨?_, ih _ _⟩
    rw [store, store_of_lt (by omega), Function.update_self]

theorem store_of_ge (h : a + bs.length ≤ x) : store m a bs x = m x := by
  induction bs generalizing m a with
  | nil => rfl
  | cons b bs ih =>
    rw [List.length_cons] at h
    push_cast at h
    rw [store, ih (by omega), Function.update_of_ne (by omega)]

theorem holds_append : Holds m a (bs ++ cs) ↔ Holds m a bs ∧ Holds m (a + bs.length) cs := by
  induction bs generalizing a with
  | nil => simp [Holds]
  | cons b bs ih =>
    have haddr : a + 1 + bs.length = a + ((b :: bs).length : Int) := by
      rw [List.length_cons]
      push_cast
      omega
    rw [List.cons_append, Holds, Holds, ih, haddr, and_assoc]

/-- Strings of the same bytes up to their terminators are the same. -/
theorem eq_of_holds_terminated (hb : (0 : UInt8) ∉ bs) (hc : (0 : UInt8) ∉ cs)
    (h : Holds m a (bs ++ [0])) (h' : Holds m a (cs ++ [0])) : bs = cs := by
  induction bs generalizing a cs with
  | nil =>
    cases cs with
    | nil => rfl
    | cons c cs =>
      have hzero : c = 0 := h'.1.symm.trans h.1
      simp [hzero] at hc
  | cons b bs ih =>
    cases cs with
    | nil =>
      have hzero : b = 0 := h.1.symm.trans h'.1
      simp [hzero] at hb
    | cons c cs =>
      have hhead : b = c := h.1.symm.trans h'.1
      have htail : bs = cs := by
        apply ih _ _ h.2 h'.2
        · exact fun hmem => hb (List.mem_cons_of_mem b hmem)
        · exact fun hmem => hc (List.mem_cons_of_mem c hmem)
      rw [hhead, htail]

end Memory

/-! ## Words -/

/-- The four bytes of a 32-bit word, the lowest first. -/
def leBytes (v : Int) : List UInt8 :=
  [UInt8.ofNat (v % 2 ^ 32).toNat, UInt8.ofNat ((v % 2 ^ 32).toNat / 2 ^ 8),
    UInt8.ofNat ((v % 2 ^ 32).toNat / 2 ^ 16), UInt8.ofNat ((v % 2 ^ 32).toNat / 2 ^ 24)]

/-- The 32-bit word at an address. -/
def loadWord (m : Mem) (a : Int) : Int :=
  (m a).toNat + 2 ^ 8 * (m (a + 1)).toNat + 2 ^ 16 * (m (a + 2)).toNat +
    2 ^ 24 * (m (a + 3)).toNat

@[simp] theorem leBytes_length (v : Int) : (leBytes v).length = 4 := rfl

theorem loadWord_of_bytes {m : Mem} {a : Int} {b0 b1 b2 b3 : UInt8}
    (h : Holds m a [b0, b1, b2, b3]) :
    loadWord m a = b0.toNat + 2 ^ 8 * b1.toNat + 2 ^ 16 * b2.toNat + 2 ^ 24 * b3.toNat := by
  obtain ⟨h0, h1, h2, h3, -⟩ := h
  have e1 : a + 1 + 1 = a + 2 := by omega
  have e2 : a + 1 + 1 + 1 = a + 3 := by omega
  rw [e1] at h2
  rw [e2] at h3
  rw [loadWord, h0, h1, h2, h3]

theorem loadWord_of_holds {m : Mem} {a v : Int} (h : Holds m a (leBytes v)) :
    loadWord m a = v % 2 ^ 32 := by
  rw [loadWord_of_bytes h]
  simp only [UInt8.toNat_ofNat']
  omega

/-! ## Stacks -/

/-- The stack from `esp` on holds the bytes, and from `low` up to `esp` the memory is zero. -/
structure StackHolds (m : Mem) (low esp : Int) (bs : List UInt8) : Prop where
  holds : Holds m esp bs
  zero : ∀ x, low ≤ x → x < esp → m x = 0

section Stack

variable {m : Mem} {low esp : Int} {bs : List UInt8}

theorem StackHolds.push (h : StackHolds m low esp bs) (cs : List UInt8) :
    StackHolds (store m (esp - cs.length) cs) low (esp - cs.length) (cs ++ bs) := by
  constructor
  · rw [holds_append]
    refine ⟨store_holds m _ cs, ?_⟩
    have haddr : esp - (cs.length : Int) + cs.length = esp := by omega
    rw [haddr]
    apply h.holds.congr
    intro x hx
    exact store_of_ge (by omega)
  · intro x hlow hx
    rw [store_of_lt hx]
    exact h.zero x hlow (by omega)

/-- Bytes of the stack that are passed over are zero. -/
theorem StackHolds.skip (h : StackHolds m low esp bs) {n : Nat} (hlow : low ≤ esp - n) :
    StackHolds m low (esp - n) (List.replicate n 0 ++ bs) := by
  induction n with
  | zero => simpa using h
  | succ n ih =>
    push_cast at hlow
    have haddr : esp - ((n + 1 : Nat) : Int) + 1 = esp - n := by
      push_cast
      omega
    constructor
    · refine ⟨h.zero _ ?_ ?_, ?_⟩
      · push_cast
        exact hlow
      · push_cast
        omega
      · rw [haddr]
        exact (ih (by omega)).holds
    · intro x hle hx
      exact h.zero x hle (by push_cast at hx; omega)

/-- A single byte written into the lowest of four bytes that are passed over. -/
theorem StackHolds.pushByte (h : StackHolds m low esp bs) (b : UInt8) (hlow : low ≤ esp - 3) :
    StackHolds (store m (esp - 4) [b]) low (esp - 4) ([b, 0, 0, 0] ++ bs) := by
  have hpush := (h.skip (n := 3) hlow).push [b]
  have haddr : esp - (3 : Nat) - ([b].length : Int) = esp - 4 := by
    rw [List.length_singleton]
    push_cast
    omega
  rw [haddr] at hpush
  exact hpush

end Stack

end CSE130.Library
