import Mathlib.Data.List.Basic

/-!
# Lists of chunks of one length

A list `l.flatMap f` where every `f a` has `n` elements: position `n * i + j` is position `j` of the
chunk of `l[i]`.
-/

namespace CSE130.Library

variable {α β : Type} {f : α → List β} {l : List α} {n i j : Nat}

theorem length_chunks (h : ∀ a ∈ l, (f a).length = n) : (l.flatMap f).length = n * l.length := by
  induction l with
  | nil => rfl
  | cons a l ih =>
    rw [List.flatMap_cons, List.length_append, h a List.mem_cons_self,
      ih fun b hb => h b (List.mem_cons_of_mem _ hb), List.length_cons, Nat.mul_add, Nat.mul_one,
      Nat.add_comm]

theorem drop_chunks (h : ∀ a ∈ l, (f a).length = n) :
    (l.flatMap f).drop (n * i) = (l.drop i).flatMap f := by
  induction l generalizing i with
  | nil => simp
  | cons a l ih =>
    cases i with
    | zero => rfl
    | succ i =>
      have ha : (f a).length = n := h a List.mem_cons_self
      have hsplit : n * (i + 1) = (f a).length + n * i := by rw [ha, Nat.mul_add, Nat.mul_one, Nat.add_comm]
      rw [List.flatMap_cons, hsplit, List.drop_length_add_append,
        ih fun b hb => h b (List.mem_cons_of_mem _ hb), List.drop_succ_cons]

theorem getElem?_chunks (h : ∀ a ∈ l, (f a).length = n) (hj : j < n) :
    (l.flatMap f)[n * i + j]? = l[i]?.bind fun a => (f a)[j]? := by
  rw [← List.getElem?_drop, drop_chunks h]
  cases hi : l[i]? with
  | none =>
    rw [List.drop_eq_nil_of_le (List.getElem?_eq_none_iff.mp hi)]
    rfl
  | some a =>
    obtain ⟨hlt, rfl⟩ := List.getElem?_eq_some_iff.mp hi
    rw [List.drop_eq_getElem_cons hlt, List.flatMap_cons, List.getElem?_append_left]
    · rfl
    · rwa [h _ (List.getElem_mem hlt)]

/-! ## Overwriting -/

section Overwrite

variable {l pre post data data' : List β} {p m : Nat}

/-- A list with `data` in the place of its elements from position `p` on. -/
def overwrite (l : List β) (p : Nat) (data : List β) : List β :=
  l.take p ++ data ++ l.drop (p + data.length)

theorem length_overwrite (h : p + data.length ≤ l.length) :
    (overwrite l p data).length = l.length := by
  simp only [overwrite, List.length_append, List.length_take, List.length_drop]
  omega

theorem overwrite_nil (l : List β) (p : Nat) : overwrite l p [] = l := by
  simp [overwrite]

/-- Overwriting a part leaves the rest as it is. -/
theorem getElem?_overwrite {i : Nat} (h : p + data.length ≤ l.length)
    (hi : i < p ∨ p + data.length ≤ i) : (overwrite l p data)[i]? = l[i]? := by
  have hlen : (l.take p).length = p := by
    rw [List.length_take]
    omega
  rw [overwrite, List.append_assoc, List.getElem?_append, hlen]
  split_ifs with hlt
  · exact List.getElem?_take_of_lt hlt
  · rw [List.getElem?_append_right (by omega), List.getElem?_drop]
    congr 1
    omega

/-- Overwriting one part after the other. -/
theorem overwrite_overwrite (h : p ≤ l.length) :
    overwrite (overwrite l p data) (p + data.length) data' = overwrite l p (data ++ data') := by
  have hlen : (l.take p ++ data).length = p + data.length := by
    rw [List.length_append, List.length_take, Nat.min_eq_left h]
  have htake : (overwrite l p data).take (p + data.length) = l.take p ++ data :=
    List.take_left' hlen
  have hdrop : (overwrite l p data).drop (p + data.length + data'.length) =
      l.drop (p + data.length + data'.length) := by
    rw [overwrite, ← List.drop_drop, List.drop_left' hlen, List.drop_drop]
  rw [overwrite, htake, hdrop, overwrite, List.length_append, Nat.add_assoc]
  simp only [List.append_assoc]

/-- Overwriting within one part of a list. -/
theorem overwrite_middle (h : p + data.length ≤ l.length) :
    overwrite (pre ++ l ++ post) (pre.length + p) data = pre ++ overwrite l p data ++ post := by
  have htake : (pre ++ l ++ post).take (pre.length + p) = pre ++ l.take p := by
    rw [List.append_assoc, List.take_length_add_append, List.take_append_of_le_length (by omega)]
  have hdrop : (pre ++ l ++ post).drop (pre.length + p + data.length) =
      l.drop (p + data.length) ++ post := by
    rw [List.append_assoc, Nat.add_assoc, List.drop_length_add_append,
      List.drop_append_of_le_length h]
  rw [overwrite, htake, hdrop, overwrite]
  simp only [List.append_assoc]

theorem drop_take_middle (h : p + m ≤ l.length) :
    ((pre ++ l ++ post).drop (pre.length + p)).take m = (l.drop p).take m := by
  rw [List.append_assoc, List.drop_length_add_append, List.drop_append_of_le_length (by omega),
    List.take_append_of_le_length]
  rw [List.length_drop]
  omega

end Overwrite

end CSE130.Library
