import CSE130.Library.InsertBefore
import Mathlib.Data.List.Induction
import Mathlib.Order.Lattice

/-!
# Stable priority queues

A list that arrivals are put on in front of the first element of a smaller key, and that is served
at its front. What it is for is said by the list of the arrivals that have not been served: the
first of those with the greatest key is served next.
-/

namespace CSE130.Library

universe u v

variable {α : Type u} {β : Type v} [LinearOrder β] {key key' : α → β} {arrivals queue rest : List α}
  {x t : α}

/-- `x` goes in front of the first element of a smaller key. -/
def insertByKey (key : α → β) (x : α) (queue : List α) : List α :=
  insertBefore (fun y => key y < key x) x queue

/-- The queue after the arrivals, in their order. -/
def stableQueue (key : α → β) (arrivals : List α) : List α :=
  arrivals.foldl (fun queue x => insertByKey key x queue) []

/-- Of the arrivals with the greatest key `t` is the first. -/
def FirstOfMax (key : α → β) (arrivals : List α) (t : α) : Prop :=
  ∃ before after, arrivals = before ++ t :: after ∧ (∀ u ∈ before, key u < key t) ∧
    ∀ u ∈ after, key u ≤ key t

/-- The queue is in the order of the keys. -/
def OrderedByKey (key : α → β) (queue : List α) : Prop := queue.Pairwise fun a b => key b ≤ key a

theorem insertByKey_cons_of_lt {y : α} {ys : List α} (h : key y < key x) :
    insertByKey key x (y :: ys) = x :: y :: ys := if_pos (decide_eq_true h)

theorem insertByKey_cons_of_le {y : α} {ys : List α} (h : key x ≤ key y) :
    insertByKey key x (y :: ys) = y :: insertByKey key x ys :=
  if_neg fun hlt => absurd (of_decide_eq_true hlt) (not_lt.mpr h)

theorem OrderedByKey.insertByKey (h : OrderedByKey key queue) :
    OrderedByKey key (insertByKey key x queue) := by
  refine pairwise_insertBefore ?_ ?_ ?_ h
  · intro a b c hab hbc
    exact hbc.trans hab
  · intro a _ ha
    exact not_lt.mp (of_decide_eq_false ha)
  · intro a _ ha
    exact (of_decide_eq_true ha).le

theorem insertByKey_congr (h : ∀ a ∈ x :: queue, key' a = key a) :
    insertByKey key' x queue = insertByKey key x queue := by
  induction queue with
  | nil => rfl
  | cons y ys ih =>
    have hx := h x List.mem_cons_self
    have hy := h y (by simp)
    have hys := ih fun a ha => h a (by
      rcases List.mem_cons.mp ha with rfl | ha
      · exact List.mem_cons_self
      · simp [ha])
    rcases lt_or_ge (key y) (key x) with hlt | hle
    · rw [insertByKey_cons_of_lt hlt, insertByKey_cons_of_lt (by rwa [hx, hy])]
    · rw [insertByKey_cons_of_le hle, insertByKey_cons_of_le (by rwa [hx, hy]), hys]

/-! ## The queue of the arrivals -/

/-- The last arrival is put on the queue of those before it. -/
theorem stableQueue_concat :
    stableQueue key (arrivals ++ [x]) = insertByKey key x (stableQueue key arrivals) := by
  rw [stableQueue, List.foldl_append]
  rfl

theorem stableQueue_perm (key : α → β) (arrivals : List α) :
    (stableQueue key arrivals).Perm arrivals := by
  induction arrivals using List.reverseRecOn with
  | nil => exact List.Perm.refl _
  | append_singleton arrivals x ih =>
    rw [stableQueue_concat]
    exact (insertBefore_perm _ x _).trans ((ih.cons x).trans (List.perm_append_singleton x _).symm)

theorem mem_stableQueue : t ∈ stableQueue key arrivals ↔ t ∈ arrivals :=
  (stableQueue_perm key arrivals).mem_iff

theorem stableQueue_ordered (key : α → β) (arrivals : List α) :
    OrderedByKey key (stableQueue key arrivals) := by
  induction arrivals using List.reverseRecOn with
  | nil => exact List.Pairwise.nil
  | append_singleton arrivals x ih =>
    rw [stableQueue_concat]
    exact ih.insertByKey

theorem filter_insertByKey (h : OrderedByKey key queue) (b : β) :
    (insertByKey key x queue).filter (fun a => key a = b) =
      (queue ++ [x]).filter (fun a => key a = b) := by
  induction queue with
  | nil => rfl
  | cons y ys ih =>
    obtain ⟨hy, hys⟩ := List.pairwise_cons.mp h
    rcases lt_or_ge (key y) (key x) with hlt | hle
    · -- what is behind `x` has other keys
      rw [insertByKey_cons_of_lt hlt, List.filter_append]
      by_cases hx : key x = b
      · have hnone : (y :: ys).filter (fun a => key a = b) = [] := by
          refine List.filter_eq_nil_iff.mpr ?_
          intro a ha
          have hay : key a ≤ key y := by
            rcases List.mem_cons.mp ha with rfl | ha
            · exact le_refl _
            · exact hy a ha
          simpa using (hay.trans_lt (hx ▸ hlt)).ne
        rw [List.filter_cons_of_pos (by simpa using hx), hnone, List.nil_append,
          List.filter_cons_of_pos (by simpa using hx), List.filter_nil]
      · have hnone : [x].filter (fun a => key a = b) = [] := by simp [hx]
        rw [List.filter_cons_of_neg (by simpa using hx), hnone, List.append_nil]
    · rw [insertByKey_cons_of_le hle, List.cons_append]
      by_cases hb : key y = b
      · rw [List.filter_cons_of_pos (by simpa using hb),
          List.filter_cons_of_pos (by simpa using hb), ih hys]
      · rw [List.filter_cons_of_neg (by simpa using hb),
          List.filter_cons_of_neg (by simpa using hb), ih hys]

/-- Arrivals of equal keys stay in their order. -/
theorem filter_stableQueue (key : α → β) (arrivals : List α) (b : β) :
    (stableQueue key arrivals).filter (fun a => key a = b) =
      arrivals.filter (fun a => key a = b) := by
  induction arrivals using List.reverseRecOn with
  | nil => rfl
  | append_singleton arrivals x ih =>
    rw [stableQueue_concat, filter_insertByKey (stableQueue_ordered key arrivals),
      List.filter_append, List.filter_append, ih]

/-- The queue depends only on the keys of the arrivals. -/
theorem stableQueue_congr (h : ∀ a ∈ arrivals, key' a = key a) :
    stableQueue key' arrivals = stableQueue key arrivals := by
  induction arrivals using List.reverseRecOn with
  | nil => rfl
  | append_singleton arrivals x ih =>
    have harrivals := ih fun a ha => h a (List.mem_append_left _ ha)
    rw [stableQueue_concat, stableQueue_concat, harrivals]
    refine insertByKey_congr ?_
    intro a ha
    refine h a ?_
    rcases List.mem_cons.mp ha with rfl | ha
    · simp
    · exact List.mem_append_left _ (mem_stableQueue.mp ha)

/-- The front of the queue is the first arrival of the greatest key. -/
theorem firstOfMax_of_stableQueue_eq (h : stableQueue key arrivals = t :: rest) :
    FirstOfMax key arrivals t := by
  induction arrivals using List.reverseRecOn generalizing t rest with
  | nil => cases h
  | append_singleton arrivals x ih =>
    have hmem : ∀ u ∈ arrivals, u ∈ stableQueue key arrivals := fun u hu => mem_stableQueue.mpr hu
    rw [stableQueue_concat] at h
    cases hq : stableQueue key arrivals with
    | nil =>
      rw [hq] at h hmem
      cases h
      exact ⟨arrivals, [], rfl, fun u hu => absurd (hmem u hu) List.not_mem_nil, by simp⟩
    | cons y ys =>
      have hordered := stableQueue_ordered key arrivals
      rw [hq] at h hordered
      have hy : ∀ u ∈ arrivals, key u ≤ key y := by
        intro u hu
        rcases List.mem_cons.mp (hq ▸ hmem u hu) with rfl | hu
        · exact le_refl _
        · exact (List.pairwise_cons.mp hordered).1 u hu
      rcases lt_or_ge (key y) (key x) with hlt | hle
      · -- the last arrival exceeds the earlier ones
        rw [insertByKey_cons_of_lt hlt] at h
        cases h
        exact ⟨arrivals, [], rfl, fun u hu => (hy u hu).trans_lt hlt, by simp⟩
      · rw [insertByKey_cons_of_le hle] at h
        cases h
        obtain ⟨before, after, rfl, hbefore, hafter⟩ := ih hq
        refine ⟨before, after ++ [x], by simp, hbefore, ?_⟩
        intro u hu
        rcases List.mem_append.mp hu with hu | hu
        · exact hafter u hu
        · rwa [List.mem_singleton.mp hu]

/-! ## Service -/

theorem insertByKey_of_forall_lt (h : ∀ y ∈ queue, key y < key x) :
    insertByKey key x queue = x :: queue := by
  cases queue with
  | nil => rfl
  | cons y ys => exact insertByKey_cons_of_lt (h y List.mem_cons_self)

section Erase

variable [DecidableEq α]

theorem erase_insertByKey_self (h : x ∉ queue) : (insertByKey key x queue).erase x = queue := by
  induction queue with
  | nil => exact @List.erase_cons_head α _ _ x []
  | cons y ys ih =>
    obtain ⟨hy, hys⟩ := not_or.mp (mt List.mem_cons.mpr h)
    rcases lt_or_ge (key y) (key x) with hlt | hle
    · rw [insertByKey_cons_of_lt hlt, List.erase_cons_head]
    · rw [insertByKey_cons_of_le hle, List.erase_cons_tail (by simpa using Ne.symm hy), ih hys]

theorem erase_insertByKey (hordered : OrderedByKey key queue) (h : t ∈ queue ∨ t ≠ x) :
    (insertByKey key x queue).erase t = insertByKey key x (queue.erase t) := by
  induction queue with
  | nil =>
    have hx : x ≠ t := (h.resolve_left List.not_mem_nil).symm
    rw [List.erase_nil]
    exact List.erase_cons_tail (by simpa using hx)
  | cons y ys ih =>
    obtain ⟨hy, hys⟩ := List.pairwise_cons.mp hordered
    rcases lt_or_ge (key y) (key x) with hlt | hle
    · have hall : ∀ u ∈ y :: ys, key u < key x := by
        intro u hu
        rcases List.mem_cons.mp hu with rfl | hu
        · exact hlt
        · exact (hy u hu).trans_lt hlt
      have hx : x ≠ t := by
        rintro rfl
        rcases h with h | h
        · exact absurd (hall x h) (lt_irrefl _)
        · exact h rfl
      rw [insertByKey_cons_of_lt hlt, List.erase_cons_tail (by simpa using hx),
        insertByKey_of_forall_lt fun u hu => hall u (List.mem_of_mem_erase hu)]
    · rw [insertByKey_cons_of_le hle]
      by_cases hyt : y = t
      · subst hyt
        rw [List.erase_cons_head, List.erase_cons_head]
      · have hmem : t ∈ ys ∨ t ≠ x :=
          h.imp_left fun hin => (List.mem_cons.mp hin).resolve_left (Ne.symm hyt)
        rw [List.erase_cons_tail (by simpa using hyt), ih hys hmem,
          List.erase_cons_tail (by simpa using hyt), insertByKey_cons_of_le hle]

/-- Without the arrival of `t` the queue is the same but for `t`. -/
theorem stableQueue_erase :
    stableQueue key (arrivals.erase t) = (stableQueue key arrivals).erase t := by
  induction arrivals using List.reverseRecOn with
  | nil => rfl
  | append_singleton arrivals x ih =>
    rw [stableQueue_concat]
    by_cases hmem : t ∈ arrivals
    · rw [List.erase_append_left _ hmem, stableQueue_concat, ih,
        erase_insertByKey (stableQueue_ordered key arrivals) (.inl (mem_stableQueue.mpr hmem))]
    · rw [List.erase_append_right _ hmem]
      by_cases hx : t = x
      · subst hx
        have hnot : t ∉ stableQueue key arrivals := fun hin => hmem (mem_stableQueue.mp hin)
        rw [List.erase_cons_head, List.append_nil, erase_insertByKey_self hnot]
      · rw [List.erase_cons_tail (by simpa using Ne.symm hx), List.erase_nil, stableQueue_concat,
          erase_insertByKey (stableQueue_ordered key arrivals) (.inr hx),
          List.erase_of_not_mem fun hin => hmem (mem_stableQueue.mp hin)]

/-- To serve the queue is to take the first arrival of the greatest key away. -/
theorem stableQueue_serve (h : stableQueue key arrivals = t :: rest) :
    stableQueue key (arrivals.erase t) = rest := by
  rw [stableQueue_erase, h, List.erase_cons_head]

end Erase

end CSE130.Library
