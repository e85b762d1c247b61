import CSE130.Library.Chunks
import Mathlib.Algebra.Ring.Nat

/-!
# Arrays of words

Arrays of 32-bit words as bytes, the lowest byte of a word first.
-/

namespace CSE130.Library

/-- The bytes of a word. -/
def wordBytes (w : UInt32) : List UInt8 :=
  [UInt8.ofNat w.toNat, UInt8.ofNat (w.toNat / 2 ^ 8), UInt8.ofNat (w.toNat / 2 ^ 16),
    UInt8.ofNat (w.toNat / 2 ^ 24)]

/-- The word of four bytes. -/
def wordOf (b₀ b₁ b₂ b₃ : UInt8) : UInt32 :=
  UInt32.ofNat (b₀.toNat + 2 ^ 8 * b₁.toNat + 2 ^ 16 * b₂.toNat + 2 ^ 24 * b₃.toNat)

/-- The bytes of an array of words. -/
def pack (ws : List UInt32) : List UInt8 := ws.flatMap wordBytes

/-- The words of an array of bytes. -/
def unpack : List UInt8 → List UInt32
  | b₀ :: b₁ :: b₂ :: b₃ :: bs => wordOf b₀ b₁ b₂ b₃ :: unpack bs
  | _ => []

theorem wordOf_wordBytes (w : UInt32) : unpack (wordBytes w) = [w] := by
  simp only [wordBytes, unpack, wordOf, List.cons.injEq, and_true]
  have hw := w.toNat_lt
  rw [← UInt32.toNat_inj, UInt32.toNat_ofNat']
  simp only [UInt8.toNat_ofNat']
  omega

theorem wordBytes_wordOf (b₀ b₁ b₂ b₃ : UInt8) :
    wordBytes (wordOf b₀ b₁ b₂ b₃) = [b₀, b₁, b₂, b₃] := by
  have h₀ := b₀.toNat_lt
  have h₁ := b₁.toNat_lt
  have h₂ := b₂.toNat_lt
  have h₃ := b₃.toNat_lt
  simp only [wordBytes, wordOf, List.cons.injEq, and_true]
  simp only [← UInt8.toNat_inj, UInt8.toNat_ofNat', UInt32.toNat_ofNat']
  omega

theorem length_pack (ws : List UInt32) : (pack ws).length = 4 * ws.length :=
  length_chunks fun _ _ => rfl

theorem pack_cons (w : UInt32) (ws : List UInt32) : pack (w :: ws) = wordBytes w ++ pack ws := rfl

theorem unpack_pack_append (ws : List UInt32) (bs : List UInt8) :
    unpack (pack ws ++ bs) = ws ++ unpack bs := by
  induction ws with
  | nil => rfl
  | cons w ws ih =>
    have hw : wordOf _ _ _ _ = w := (List.cons.inj (wordOf_wordBytes w)).1
    rw [pack_cons, List.append_assoc]
    simp only [wordBytes, List.cons_append, List.nil_append, unpack]
    rw [hw, ih]

theorem unpack_pack (ws : List UInt32) : unpack (pack ws) = ws := by
  have hnil : unpack [] = [] := rfl
  have h := unpack_pack_append ws []
  rwa [hnil, List.append_nil, List.append_nil] at h

theorem pack_unpack {bs : List UInt8} {n : Nat} (h : bs.length = 4 * n) : pack (unpack bs) = bs := by
  induction bs using unpack.induct generalizing n with
  | case1 b₀ b₁ b₂ b₃ bs ih =>
    have hlen : bs.length = 4 * (n - 1) := by
      simp only [List.length_cons] at h
      omega
    rw [unpack, pack_cons, wordBytes_wordOf, ih hlen]
    rfl
  | case2 bs hshort =>
    match bs, hshort with
    | [], _ => rfl
    | [_], _ => simp at h; omega
    | [_, _], _ => simp at h; omega
    | [_, _, _], _ => simp at h; omega
    | b₀ :: b₁ :: b₂ :: b₃ :: bs, hshort => exact absurd rfl (hshort b₀ b₁ b₂ b₃ bs)

theorem length_unpack {bs : List UInt8} {n : Nat} (h : bs.length = 4 * n) :
    (unpack bs).length = n := by
  have hlen := length_pack (unpack bs)
  rw [pack_unpack h, h] at hlen
  omega

/-- Zero bytes are zero words. -/
theorem unpack_replicate_zero (n : Nat) :
    unpack (List.replicate (4 * n) 0) = List.replicate n 0 := by
  induction n with
  | zero => rfl
  | succ n ih =>
    have hsucc : 4 * (n + 1) = 4 * n + 1 + 1 + 1 + 1 := by omega
    rw [hsucc]
    simp only [List.replicate_succ, unpack, ih]
    rfl

end CSE130.Library
