import CSE130.Library.TreeGrowth

/-!
# Index trees that gain entries

An attempt to let a forest grow may end in the middle: some entries that were missing are there then,
and none that was there is lost. What was found through the index is found in the same place.
-/

namespace CSE130.Library

namespace TreeFormat

variable {α β : Type} [Zero α]

/-- An entry is what it was, unless it was missing. -/
def Gains (a a' : α) : Prop := a' = a ∨ a = 0

theorem Gains.refl (a : α) : Gains a a := .inl rfl

theorem Gains.eq {a a' : α} (h : Gains a a') (ha : a ≠ 0) : a' = a := h.resolve_right ha

/-- The trees of a forest have gained entries at their tops. -/
def TopsGain (rs rs' : List (Nat × α)) : Prop :=
  List.Forall₂ (fun r r' => r'.1 = r.1 ∧ Gains r.2 r'.2) rs rs'

/-- The entries of an index block have gained. -/
def WordsGain (F : TreeFormat α β) (b b' : β) : Prop := List.Forall₂ Gains (F.words b) (F.words b')

variable [DecidableEq α] {F : TreeFormat α β} {data data' : α → β} {rs rs' rs₁ rs₂ : List (Nat × α)}
  {es es' : List α} {k n : Nat} {e : α}

omit [DecidableEq α] in
theorem TopsGain.refl (rs : List (Nat × α)) : TopsGain rs rs :=
  List.forall₂_same.mpr fun r _ => ⟨rfl, .refl r.2⟩

omit [DecidableEq α] in
theorem topsGain_map : TopsGain (es.map fun c => (k, c)) (es'.map fun c => (k, c)) ↔
    List.Forall₂ Gains es es' := by
  rw [TopsGain, List.forall₂_map_left_iff, List.forall₂_map_right_iff]
  refine ⟨fun h => h.imp fun _ _ => And.right, fun h => h.imp fun _ _ => And.intro rfl⟩

omit [DecidableEq α] in
theorem TopsGain.levels (h : TopsGain rs rs') : rs'.map Prod.fst = rs.map Prod.fst := by
  induction h with
  | nil => rfl
  | cons hr _ ih => rw [List.map_cons, List.map_cons, hr.1, ih]

omit [DecidableEq α] in
/-- Missing entries gain whatever comes in their place. -/
theorem gains_of_zero {l l' : List α} (hlen : l'.length = l.length) (h : ∀ a ∈ l, a = 0) :
    List.Forall₂ Gains l l' := by
  rw [List.forall₂_iff_get]
  exact ⟨hlen.symm, fun i hi _ => .inr (h _ (List.get_mem l ⟨i, hi⟩))⟩

/-- A forest whose tops and index blocks have gained entries has gained data blocks. -/
theorem leaves_gain (htops : TopsGain rs rs')
    (hinner : ∀ x ∈ F.inner data rs, F.WordsGain (data x) (data' x)) :
    List.Forall₂ Gains (F.leaves data rs) (F.leaves data' rs') := by
  induction rs using @forest_induction α β _ _ F data generalizing rs' with
  | nil =>
    cases htops
    exact .nil
  | cons r rs ihr ih =>
    cases htops with
    | @cons _ r' _ rs' hr hrs =>
      have hfirst := ihr (.cons hr .nil) fun x hx => hinner x (mem_inner_cons.mpr (.inl hx))
      have hrest := ih hrs fun x hx => hinner x (mem_inner_cons.mpr (.inr hx))
      have hcons : ∀ (r : Nat × α) rs, r :: rs = [r] ++ rs := fun _ _ => rfl
      rw [hcons r rs, hcons r' rs', leaves_append, leaves_append]
      exact List.rel_append hfirst hrest
  | leaf e =>
    cases htops with
    | @cons _ r' _ _ hr hnil =>
      cases hnil
      obtain ⟨k', e'⟩ := r'
      obtain ⟨rfl, hgain⟩ := hr
      rw [leaves_leaf, leaves_leaf]
      exact .cons hgain .nil
  | node k e ih =>
    cases htops with
    | @cons _ r' _ _ hr hnil =>
      cases hnil
      obtain ⟨k', e'⟩ := r'
      obtain ⟨rfl, hgain⟩ := hr
      by_cases he : e = 0
      · apply gains_of_zero
        · rw [length_leaves, length_leaves]
          rfl
        · intro a ha
          refine leaves_of_zero ?_ ha
          intro r hr
          rw [List.mem_singleton.mp hr]
          exact he
      · have heq : e' = e := hgain.eq he
        subst heq
        rw [inner_node, if_neg he] at hinner
        rw [leaves_node, leaves_node]
        refine ih ?_ fun x hx => hinner x (List.mem_append_right _ hx)
        rw [below, below, children_of_ne he, children_of_ne he]
        exact topsGain_map.mpr (hinner e' (List.mem_append_left _ (List.mem_singleton_self e')))

/-- A forest has no fewer blocks than it had with some of its tops missing. -/
theorem nodes_sublist (h : TopsGain rs rs') : (F.nodes data rs).Sublist (F.nodes data rs') := by
  induction h with
  | nil => exact .slnil
  | @cons r r' rs rs' hr _ ih =>
    have hcons : ∀ (r : Nat × α) rs, r :: rs = [r] ++ rs := fun _ _ => rfl
    rw [hcons r rs, hcons r' rs', nodes_append, nodes_append]
    refine List.Sublist.append ?_ ih
    obtain ⟨k, e⟩ := r
    obtain ⟨k', e'⟩ := r'
    obtain ⟨rfl, rfl | hzero⟩ := hr
    · exact .refl _
    · have hnil : F.nodes data [(k', e)] = [] := nodes_of_zero (by simpa using hzero)
      rw [hnil]
      exact List.nil_sublist _

/-! ## Forests with their first data blocks -/

variable (F data) in
/-- The first `n` data blocks of a forest are there. -/
def Holds (rs : List (Nat × α)) (n : Nat) : Prop :=
  ∀ i a, (F.leaves data rs)[i]? = some a → i < n → a ≠ 0

theorem Holds.append (h₁ : F.Holds data rs₁ n) (h₂ : F.Holds data rs₂ (n - F.capacity rs₁)) :
    F.Holds data (rs₁ ++ rs₂) n := by
  intro i a hi hn
  rw [leaves_append, List.getElem?_append, length_leaves] at hi
  split_ifs at hi with hlt
  · exact h₁ i a hi hn
  · exact h₂ _ a hi (by omega)

theorem Holds.of_min (h : F.Holds data rs (min n (F.capacity rs))) : F.Holds data rs n := by
  intro i a hi hn
  have hlt := (List.getElem?_eq_some_iff.mp hi).1
  rw [length_leaves] at hlt
  exact h i a hi (by omega)

theorem holds_zero : F.Holds data rs 0 := fun _ _ _ hn => absurd hn (Nat.not_lt_zero _)

theorem Holds.congr (h : F.Holds data rs n) (heq : ∀ x ∈ F.inner data rs, data' x = data x) :
    F.Holds data' rs n := by
  unfold Holds
  rw [leaves_congr heq]
  exact h

/-- Data blocks that are there stay there. -/
theorem Holds.gain (h : F.Holds data rs n)
    (hgain : List.Forall₂ Gains (F.leaves data rs) (F.leaves data' rs')) : F.Holds data' rs' n := by
  intro i a hi hn
  obtain ⟨hlt', rfl⟩ := List.getElem?_eq_some_iff.mp hi
  have hlt : i < (F.leaves data rs).length := by rwa [hgain.length_eq]
  have hne := h i _ (List.getElem?_eq_getElem hlt) hn
  have heq := ((List.forall₂_iff_get.mp hgain).2 i hlt hlt').eq hne
  exact fun hzero => hne (heq.symm.trans hzero)

end TreeFormat

end CSE130.Library
