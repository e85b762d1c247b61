import Mathlib.Data.List.Sort
import Mathlib.Order.Basic
import Mathlib.Tactic.ByContra

/-!
# Ranges of an array

An array is a function on the integers. For a range `l .. r` of indices, both ends included and
empty where `r < l`, this module has the values in the range, sortedness, and the arrays that
differ by a permutation of the range.
-/

namespace CSE130.Library

universe u

variable {α : Type u}

/-- The values in the range `l .. r`. -/
def values (a : Int → α) (l r : Int) : List α :=
  (List.range (r + 1 - l).toNat).map fun i : Nat => a (l + i)

/-- The arrays have the same elements in the range. -/
def AgreeOn (a b : Int → α) (l r : Int) : Prop := ∀ i, l ≤ i → i ≤ r → a i = b i

/-- The array is sorted in the range. -/
def SortedOn [LE α] (a : Int → α) (l r : Int) : Prop := ∀ i j, l ≤ i → i ≤ j → j ≤ r → a i ≤ a j

/-- From `a` to `b` the elements of the range have changed places, and the others have not
changed. -/
structure Rearranges (a b : Int → α) (l r : Int) : Prop where
  perm : (values b l r).Perm (values a l r)
  frame : ∀ i, i < l ∨ r < i → b i = a i

/-- The elements of `b` in the range and those of `a` elsewhere. -/
def splice (a b : Int → α) (l r : Int) : Int → α := fun i => if l ≤ i ∧ i ≤ r then b i else a i

section Ranges

variable {a b c : Int → α} {l m r l' r' : Int}

theorem values_congr (h : AgreeOn a b l r) : values a l r = values b l r := by
  apply List.map_congr_left
  intro i hi
  rw [List.mem_range] at hi
  exact h _ (by omega) (by omega)

theorem values_split (hl : l ≤ m + 1) (hr : m ≤ r) :
    values a l r = values a l m ++ values a (m + 1) r := by
  have hcount : (r + 1 - l).toNat = (m + 1 - l).toNat + (r + 1 - (m + 1)).toNat := by omega
  have hshift : ∀ i : Nat, l + (((m + 1 - l).toNat + i : Nat) : Int) = m + 1 + i := by
    intro i
    push_cast
    omega
  rw [values, hcount, List.range_add, List.map_append, List.map_map]
  simp only [Function.comp_def, hshift]
  rfl

/-- A range that has been moved by `d` places. -/
theorem values_shift {d : Int} (h : ∀ i, l ≤ i → i ≤ r → b (i + d) = a i) :
    values b (l + d) (r + d) = values a l r := by
  have hcount : (r + d + 1 - (l + d)).toNat = (r + 1 - l).toNat := by omega
  rw [values, values, hcount]
  apply List.map_congr_left
  intro i hi
  rw [List.mem_range] at hi
  have haddr : l + d + (i : Int) = l + i + d := by omega
  rw [haddr]
  exact h _ (by omega) (by omega)

theorem AgreeOn.symm (h : AgreeOn a b l r) : AgreeOn b a l r := fun i hl hr => (h i hl hr).symm

theorem AgreeOn.trans (hab : AgreeOn a b l r) (hbc : AgreeOn b c l r) : AgreeOn a c l r :=
  fun i hl hr => (hab i hl hr).trans (hbc i hl hr)

theorem AgreeOn.mono (h : AgreeOn a b l r) (hl : l ≤ l') (hr : r' ≤ r) : AgreeOn a b l' r' :=
  fun i hil hir => h i (by omega) (by omega)

theorem Rearranges.refl (a : Int → α) (l r : Int) : Rearranges a a l r := ⟨.refl _, fun _ _ => rfl⟩

theorem Rearranges.trans (hab : Rearranges a b l r) (hbc : Rearranges b c l r) :
    Rearranges a c l r :=
  ⟨hbc.perm.trans hab.perm, fun i hi => (hbc.frame i hi).trans (hab.frame i hi)⟩

/-- Outside the range nothing changes. -/
theorem Rearranges.agreeOn (h : Rearranges a b l r) (hdis : r' < l ∨ r < l') :
    AgreeOn b a l' r' := by
  intro i hl hr
  exact h.frame i (by omega)

/-- A rearrangement of a range is one of every larger range. -/
theorem Rearranges.mono (h : Rearranges a b l r) (hl : l' ≤ l) (hr : r ≤ r') :
    Rearranges a b l' r' := by
  refine ⟨?_, fun i hi => h.frame i (by omega)⟩
  by_cases hempty : r < l
  · have heq : AgreeOn b a l' r' := fun i _ _ => h.frame i (by omega)
    rw [values_congr heq]
  · have hbelow : values b l' (l - 1) = values a l' (l - 1) :=
      values_congr (h.agreeOn (Or.inl (by omega)))
    have habove : values b (r + 1) r' = values a (r + 1) r' :=
      values_congr (h.agreeOn (Or.inr (by omega)))
    have hsplit : ∀ x : Int → α, values x l' r' =
        values x l' (l - 1) ++ (values x l r ++ values x (r + 1) r') := by
      intro x
      have hfirst := @values_split _ x l' (l - 1) r' (by omega) (by omega)
      have hsecond := @values_split _ x l r r' (by omega) hr
      have haddr : l - 1 + 1 = l := by omega
      rw [hfirst, haddr, hsecond]
    rw [hsplit b, hsplit a, hbelow, habove]
    exact (h.perm.append_right _).append_left _

theorem splice_agreeOn (a b : Int → α) (l r : Int) : AgreeOn (splice a b l r) b l r :=
  fun _ hl hr => if_pos ⟨hl, hr⟩

theorem splice_of_not {i : Int} (h : i < l ∨ r < i) : splice a b l r i = a i :=
  if_neg (by omega)

theorem Rearranges.splice (h : (values b l r).Perm (values a l r)) :
    Rearranges a (splice a b l r) l r :=
  ⟨by rwa [values_congr (splice_agreeOn a b l r)], fun _ hi => splice_of_not hi⟩

end Ranges

section Order

variable [LinearOrder α] {a b : Int → α} {l m r l' r' : Int}

theorem SortedOn.congr (h : SortedOn a l r) (hab : AgreeOn a b l r) : SortedOn b l r := by
  intro i j hi hij hj
  rw [← hab i hi (by omega), ← hab j (by omega) hj]
  exact h i j hi hij hj

/-- A sorted range stays sorted when another one is rearranged. -/
theorem SortedOn.rearranges (h : SortedOn a l r) (hab : Rearranges a b l' r')
    (hdis : r < l' ∨ r' < l) : SortedOn b l r :=
  h.congr (hab.agreeOn hdis).symm

theorem sortedOn_of_le (h : r ≤ l) : SortedOn a l r := by
  intro i j hi hij hj
  have heq : i = j := by omega
  rw [heq]

theorem SortedOn.shift {d : Int} (h : SortedOn a l r)
    (hab : ∀ i, l ≤ i → i ≤ r → b (i + d) = a i) : SortedOn b (l + d) (r + d) := by
  have hat : ∀ i, l + d ≤ i → i ≤ r + d → b i = a (i - d) := by
    intro i hi hi'
    have haddr : i - d + d = i := by omega
    rw [← hab (i - d) (by omega) (by omega), haddr]
  intro i j hi hij hj
  rw [hat i hi (by omega), hat j (by omega) hj]
  exact h _ _ (by omega) (by omega) (by omega)

theorem SortedOn.pairwise (h : SortedOn a l r) : (values a l r).Pairwise (· ≤ ·) := by
  rw [values, List.pairwise_map]
  refine List.pairwise_lt_range.imp_of_mem ?_
  intro i j _ hj hij
  rw [List.mem_range] at hj
  exact h _ _ (by omega) (by omega) (by omega)

/-- An array that is sorted in a range is determined by the elements that the range has. -/
theorem SortedOn.agreeOn (ha : SortedOn a l r) (hb : SortedOn b l r)
    (hperm : (values a l r).Perm (values b l r)) : AgreeOn a b l r := by
  have heq : values a l r = values b l r := hperm.eq_of_pairwise' ha.pairwise hb.pairwise
  intro i hl hr
  have hindex : (i - l).toNat < (r + 1 - l).toNat := by omega
  have haddr : l + ((i - l).toNat : Int) = i := by omega
  have hvalue : ∀ x : Int → α, (values x l r)[(i - l).toNat]? = some (x i) := by
    intro x
    rw [values, List.getElem?_map, List.getElem?_range hindex, Option.map_some, haddr]
  have hat := hvalue a
  rw [heq, hvalue b] at hat
  exact (Option.some.inj hat).symm

end Order

end CSE130.Library
