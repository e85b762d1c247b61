import Mathlib.Data.List.Perm.Basic

/-!
# Insertion in front of the first element that satisfies a predicate

The scan that keeps a list in order: the new element goes in front of the first element that
satisfies `p`, or to the end.
-/

namespace CSE130.Library

universe u

variable {α : Type u}

/-- `x` is inserted in front of the first element that satisfies `p`. -/
def insertBefore (p : α → Bool) (x : α) : List α → List α
  | [] => [x]
  | y :: ys => if p y then x :: y :: ys else y :: insertBefore p x ys

theorem insertBefore_perm (p : α → Bool) (x : α) (l : List α) :
    (insertBefore p x l).Perm (x :: l) := by
  induction l with
  | nil => exact List.Perm.refl _
  | cons y ys ih =>
    rw [insertBefore]
    split_ifs
    · exact List.Perm.refl _
    · exact (ih.cons y).trans (List.Perm.swap x y ys)

@[simp] theorem mem_insertBefore {p : α → Bool} {x a : α} {l : List α} :
    a ∈ insertBefore p x l ↔ a = x ∨ a ∈ l := by
  rw [(insertBefore_perm p x l).mem_iff, List.mem_cons]

/-- The place of the insertion. -/
theorem insertBefore_append {p : α → Bool} {x : α} {l l' : List α} (h : ∀ a ∈ l, p a = false)
    (h' : ∀ a, l'.head? = some a → p a = true) : insertBefore p x (l ++ l') = l ++ x :: l' := by
  induction l with
  | nil =>
    cases l' with
    | nil => rfl
    | cons y ys => exact if_pos (h' y rfl)
  | cons y ys ih =>
    rw [List.cons_append, insertBefore, if_neg (by simp [h y List.mem_cons_self]),
      ih fun a ha => h a (List.mem_cons_of_mem y ha)]
    rfl

/-- Insertion keeps a list in order, where the predicate tells the elements that come later. -/
theorem pairwise_insertBefore {R : α → α → Prop} {p : α → Bool} {x : α} {l : List α}
    (htrans : ∀ a b c, R a b → R b c → R a c) (hfalse : ∀ a ∈ l, p a = false → R a x)
    (htrue : ∀ a ∈ l, p a = true → R x a) (h : l.Pairwise R) :
    (insertBefore p x l).Pairwise R := by
  induction l with
  | nil => simp [insertBefore]
  | cons y ys ih =>
    obtain ⟨hy, hys⟩ := List.pairwise_cons.mp h
    rw [insertBefore]
    split_ifs with hp
    · have hxy : R x y := htrue y (by simp) hp
      refine List.pairwise_cons.mpr ⟨?_, h⟩
      intro a ha
      rcases List.mem_cons.mp ha with rfl | ha
      · exact hxy
      · exact htrans x y a hxy (hy a ha)
    · refine List.pairwise_cons.mpr ⟨?_, ih (fun a ha => hfalse a (by simp [ha]))
        (fun a ha => htrue a (by simp [ha])) hys⟩
      intro a ha
      rcases mem_insertBefore.mp ha with rfl | ha
      · exact hfalse y (by simp) (by simpa using hp)
      · exact hy a ha

/-- In a list in which no element that satisfies `p` is behind one that does not, the elements that
satisfy it are the ones in front of the first that does not. -/
theorem mem_takeWhile_iff {p : α → Bool} {l : List α} {a : α}
    (h : l.Pairwise fun x y => p y = true → p x = true) :
    a ∈ l.takeWhile p ↔ a ∈ l ∧ p a = true := by
  induction l with
  | nil => simp
  | cons x xs ih =>
    obtain ⟨hx, hxs⟩ := List.pairwise_cons.mp h
    by_cases hp : p x = true
    · rw [List.takeWhile_cons_of_pos hp, List.mem_cons, List.mem_cons, ih hxs]
      refine ⟨?_, ?_⟩
      · intro hmem
        rcases hmem with rfl | hmem
        · exact ⟨.inl rfl, hp⟩
        · exact ⟨.inr hmem.1, hmem.2⟩
      · intro hmem
        exact hmem.1.imp id fun hin => ⟨hin, hmem.2⟩
    · rw [List.takeWhile_cons_of_neg hp]
      refine iff_of_false List.not_mem_nil ?_
      intro hmem
      rcases List.mem_cons.mp hmem.1 with rfl | hin
      · exact hp hmem.2
      · exact hp (hx a hin hmem.2)

end CSE130.Library
