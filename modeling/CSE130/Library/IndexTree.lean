import CSE130.Library.Chunks
import Mathlib.Algebra.Order.Monoid.Unbundled.Pow
import Mathlib.Algebra.Ring.Nat
import Mathlib.Data.List.Forall2
import Mathlib.Data.List.Perm.Lattice
import Mathlib.Logic.Function.Basic
import Mathlib.Tactic.SplitIfs

/-!
# Index trees

A block device whose index blocks hold the addresses of the blocks below them; the address `0` stands
for no block. A tree is given by its level and the address of its top, and a forest by the list of its
trees. What can be said about a forest is said about the list of its entries, so that it depends on
the index blocks of the forest alone.
-/

namespace CSE130.Library

universe u

/-- The format of the index blocks: the addresses that a block holds, and back. -/
structure TreeFormat (α β : Type) [Zero α] where
  fanOut : Nat
  words : β → List α
  ofWords : List α → β
  blank : β
  pos : 0 < fanOut
  length_words : ∀ b, (words b).length = fanOut
  words_ofWords : ∀ l, l.length = fanOut → words (ofWords l) = l
  ofWords_words : ∀ b, ofWords (words b) = b
  words_blank : words blank = List.replicate fanOut 0

/-- What an entry of a tree addresses. -/
inductive BlockKind where
  | data
  | index
  deriving DecidableEq, Repr

/-- The kind of block on level `k`. -/
def BlockKind.ofLevel : Nat → BlockKind
  | 0 => .data
  | _ + 1 => .index

namespace TreeFormat

variable {α β : Type} [Zero α] {γ : Type u}

section Capacity

variable (F : TreeFormat α β) (rs : List (Nat × α))

/-- The number of data blocks of a forest. -/
def capacity : Nat := (rs.map fun r => F.fanOut ^ r.1).sum

variable {F rs} {rs₁ rs₂ : List (Nat × α)} {k : Nat}

@[simp] theorem capacity_nil : F.capacity ([] : List (Nat × α)) = 0 := rfl

@[simp] theorem capacity_cons (r : Nat × α) :
    F.capacity (r :: rs) = F.fanOut ^ r.1 + F.capacity rs := rfl

theorem capacity_append : F.capacity (rs₁ ++ rs₂) = F.capacity rs₁ + F.capacity rs₂ := by
  simp [capacity]

theorem capacity_map {es : List α} :
    F.capacity (es.map fun e => (k, e)) = es.length * F.fanOut ^ k := by
  simp [capacity, Function.comp_def]

theorem pos_pow : 0 < F.fanOut ^ k := Nat.pow_pos F.pos

end Capacity

variable [DecidableEq α] (F : TreeFormat α β)

/-- The addresses below `e`. -/
def children (data : α → β) (e : α) : List α :=
  if e = 0 then List.replicate F.fanOut 0 else F.words (data e)

/-- What `f` makes of every entry of a tree with its level, from the top down. -/
def gather (f : Nat → α → List γ) (data : α → β) : Nat → α → List γ
  | 0, e => f 0 e
  | k + 1, e => f (k + 1) e ++ (F.children data e).flatMap (gather f data k)

/-- What `f` makes of the entries of a list if the first of the `n` blocks wanted, as many as it can
take, fall to the first entry. -/
def spread (f : α → Nat → List γ) (unit : Nat) : List α → Nat → List γ
  | [], _ => []
  | e :: es, n => f e (min n unit) ++ spread f unit es (n - unit)

/-- What `f` makes of every entry of a tree with its level and the number of the `n` blocks wanted
that fall to it. -/
def survey (f : Nat → α → Nat → List γ) (data : α → β) : Nat → α → Nat → List γ
  | 0, e, n => f 0 e n
  | k + 1, e, n =>
    f (k + 1) e n ++ spread (survey f data k) (F.fanOut ^ k) (F.children data e) n

/-- `gather` over a forest. -/
def gatherAll (f : Nat → α → List γ) (data : α → β) (rs : List (Nat × α)) : List γ :=
  rs.flatMap fun r => F.gather f data r.1 r.2

/-- `survey` over a forest. -/
def surveyAll (f : Nat → α → Nat → List γ) (data : α → β) : List (Nat × α) → Nat → List γ
  | [], _ => []
  | r :: rs, n =>
    F.survey f data r.1 r.2 (min n (F.fanOut ^ r.1)) ++ surveyAll f data rs (n - F.fanOut ^ r.1)

/-- The entries for data blocks. -/
def leafOf : Nat → α → List α
  | 0, e => [e]
  | _ + 1, _ => []

/-- The addresses of blocks. -/
def nodeOf (_ : Nat) (e : α) : List α := if e = 0 then [] else [e]

/-- The addresses of index blocks. -/
def innerOf : Nat → α → List α
  | 0, _ => []
  | _ + 1, e => if e = 0 then [] else [e]

/-- The block that is missing at an entry. -/
def needOf (k : Nat) (e : α) (n : Nat) : List BlockKind :=
  if e = 0 ∧ 0 < n then [BlockKind.ofLevel k] else []

variable (data : α → β) (rs : List (Nat × α))

/-- The entries of a forest for data blocks, in order. -/
def leaves : List α := F.gatherAll leafOf data rs

/-- The blocks of a forest. -/
def nodes : List α := F.gatherAll nodeOf data rs

/-- The index blocks of a forest. -/
def inner : List α := F.gatherAll innerOf data rs

/-- The blocks that are missing for the first `n` data blocks of a forest, in the order of the
entries. -/
def needs (n : Nat) : List BlockKind := F.surveyAll needOf data rs n

/-- The blocks of the forest are those that its first `n` data blocks need. -/
def Filled (n : Nat) : Prop :=
  ∀ p ∈ F.surveyAll (fun _ e n => [(e, n)]) data rs n, p.1 ≠ 0 ↔ 0 < p.2

/-- The trees below `e`. -/
def below (k : Nat) (e : α) : List (Nat × α) := (F.children data e).map fun c => (k, c)

variable {F data} {f : Nat → α → List γ} {g : Nat → α → Nat → List γ} {k n : Nat} {e : α}
  {rs rs₁ rs₂ : List (Nat × α)}

theorem length_children : (F.children data e).length = F.fanOut := by
  unfold children
  split_ifs
  · exact List.length_replicate
  · exact F.length_words _

theorem children_zero : F.children data 0 = List.replicate F.fanOut 0 := if_pos rfl

theorem children_of_ne (h : e ≠ 0) : F.children data e = F.words (data e) := if_neg h

/-! ## Forests -/

@[simp] theorem gatherAll_nil : F.gatherAll f data [] = [] := rfl

theorem gatherAll_cons (r : Nat × α) :
    F.gatherAll f data (r :: rs) = F.gather f data r.1 r.2 ++ F.gatherAll f data rs :=
  List.flatMap_cons

theorem gatherAll_append :
    F.gatherAll f data (rs₁ ++ rs₂) = F.gatherAll f data rs₁ ++ F.gatherAll f data rs₂ :=
  List.flatMap_append

theorem gatherAll_map {es : List α} :
    F.gatherAll f data (es.map fun e => (k, e)) = es.flatMap (F.gather f data k) :=
  List.flatMap_map _ _ _

theorem gather_succ :
    F.gather f data (k + 1) e = f (k + 1) e ++ F.gatherAll f data (F.below data k e) := by
  rw [gather, below, gatherAll_map]

theorem surveyAll_map {es : List α} : F.surveyAll g data (es.map fun e => (k, e)) n =
    spread (F.survey g data k) (F.fanOut ^ k) es n := by
  induction es generalizing n with
  | nil => rfl
  | cons e es ih => rw [List.map_cons, surveyAll, spread, ih]

theorem survey_succ : F.survey g data (k + 1) e n =
    g (k + 1) e n ++ F.surveyAll g data (F.below data k e) n := by
  rw [survey, below, surveyAll_map]

theorem capacity_below : F.capacity (F.below data k e) = F.fanOut ^ (k + 1) := by
  rw [below, capacity_map, length_children, Nat.pow_succ, Nat.mul_comm]

theorem surveyAll_append : F.surveyAll g data (rs₁ ++ rs₂) n =
    F.surveyAll g data rs₁ n ++ F.surveyAll g data rs₂ (n - F.capacity rs₁) := by
  induction rs₁ generalizing n with
  | nil => rfl
  | cons r rs₁ ih =>
    rw [List.cons_append, surveyAll, surveyAll, ih, List.append_assoc, capacity_cons, Nat.sub_sub]

/-- Induction over forests: trees of level `0` by the empty forest and single entries, and a tree of
the next level from the forest below it. -/
theorem forest_induction {P : List (Nat × α) → Prop} (nil : P [])
    (cons : ∀ r rs, P [r] → P rs → P (r :: rs)) (leaf : ∀ e, P [(0, e)])
    (node : ∀ k e, P (F.below data k e) → P [(k + 1, e)]) : ∀ rs, P rs := by
  have htree : ∀ k e, P [(k, e)] := by
    intro k
    induction k with
    | zero => exact leaf
    | succ k ih =>
      intro e
      apply node
      unfold below
      induction F.children data e with
      | nil => exact nil
      | cons c cs ihcs => exact cons _ _ (ih c) ihcs
  intro rs
  induction rs with
  | nil => exact nil
  | cons r rs ih => exact cons r rs (htree r.1 r.2) ih

theorem gatherAll_singleton (r : Nat × α) :
    F.gatherAll f data [r] = F.gather f data r.1 r.2 := by
  rw [gatherAll_cons, gatherAll_nil, List.append_nil]

theorem gatherAll_node : F.gatherAll f data [(k + 1, e)] =
    f (k + 1) e ++ F.gatherAll f data (F.below data k e) := by
  rw [gatherAll_singleton, gather_succ]

theorem surveyAll_singleton (r : Nat × α) :
    F.surveyAll g data [r] n = F.survey g data r.1 r.2 (min n (F.fanOut ^ r.1)) := by
  rw [surveyAll, surveyAll, List.append_nil]

theorem surveyAll_cons (r : Nat × α) : F.surveyAll g data (r :: rs) n =
    F.surveyAll g data [r] n ++ F.surveyAll g data rs (n - F.fanOut ^ r.1) := by
  rw [surveyAll_singleton, surveyAll]

/-- Blocks wanted behind the end of a forest do not count. -/
theorem surveyAll_min : F.surveyAll g data rs (min n (F.capacity rs)) = F.surveyAll g data rs n := by
  induction rs generalizing n with
  | nil => rfl
  | cons r rs ih =>
    have hhead : min (min n (F.fanOut ^ r.1 + F.capacity rs)) (F.fanOut ^ r.1) =
        min n (F.fanOut ^ r.1) := by omega
    have htail : min n (F.fanOut ^ r.1 + F.capacity rs) - F.fanOut ^ r.1 =
        min (n - F.fanOut ^ r.1) (F.capacity rs) := by omega
    rw [surveyAll, surveyAll, capacity_cons, hhead, htail, ih]

theorem surveyAll_node : F.surveyAll g data [(k + 1, e)] n =
    g (k + 1) e (min n (F.fanOut ^ (k + 1))) ++ F.surveyAll g data (F.below data k e) n := by
  rw [surveyAll_singleton, survey_succ, ← @capacity_below α β _ _ F data k e, surveyAll_min]

/-! ## What depends on the index blocks alone -/

section Congr

variable {data' : α → β}

theorem inner_node : F.inner data [(k + 1, e)] =
    (if e = 0 then [] else [e]) ++ F.inner data (F.below data k e) := gatherAll_node

theorem mem_inner_cons {r : Nat × α} {x : α} :
    x ∈ F.inner data (r :: rs) ↔ x ∈ F.inner data [r] ∨ x ∈ F.inner data rs := by
  rw [inner, gatherAll_cons, List.mem_append, ← gatherAll_singleton]
  rfl

theorem below_congr (h : e ≠ 0 → data' e = data e) : F.below data' k e = F.below data k e := by
  unfold below children
  split_ifs with he
  · rfl
  · rw [h he]

theorem gatherAll_congr (h : ∀ x ∈ F.inner data rs, data' x = data x) :
    F.gatherAll f data' rs = F.gatherAll f data rs := by
  induction rs using @forest_induction α β _ _ F data with
  | nil => rfl
  | cons r rs ihr ih =>
    have hr := ihr fun x hx => h x (mem_inner_cons.mpr (.inl hx))
    have hrs := ih fun x hx => h x (mem_inner_cons.mpr (.inr hx))
    rw [gatherAll_singleton, gatherAll_singleton] at hr
    rw [gatherAll_cons, gatherAll_cons, hr, hrs]
  | leaf e => rfl
  | node k e ih =>
    rw [inner_node] at h
    have hbelow : F.below data' k e = F.below data k e :=
      below_congr fun he => h e (List.mem_append_left _ (by simp [he]))
    rw [gatherAll_node, gatherAll_node, hbelow, ih fun x hx => h x (List.mem_append_right _ hx)]

theorem surveyAll_congr (h : ∀ x ∈ F.inner data rs, data' x = data x) :
    F.surveyAll g data' rs n = F.surveyAll g data rs n := by
  induction rs using @forest_induction α β _ _ F data generalizing n with
  | nil => rfl
  | cons r rs ihr ih =>
    rw [surveyAll_cons, ihr fun x hx => h x (mem_inner_cons.mpr (.inl hx)),
      ih fun x hx => h x (mem_inner_cons.mpr (.inr hx)), ← surveyAll_cons]
  | leaf e => rfl
  | node k e ih =>
    rw [inner_node] at h
    have hbelow : F.below data' k e = F.below data k e :=
      below_congr fun he => h e (List.mem_append_left _ (by simp [he]))
    rw [surveyAll_node, surveyAll_node, hbelow, ih fun x hx => h x (List.mem_append_right _ hx)]

theorem leaves_congr (h : ∀ x ∈ F.inner data rs, data' x = data x) :
    F.leaves data' rs = F.leaves data rs := gatherAll_congr h

theorem nodes_congr (h : ∀ x ∈ F.inner data rs, data' x = data x) :
    F.nodes data' rs = F.nodes data rs := gatherAll_congr h

theorem inner_congr (h : ∀ x ∈ F.inner data rs, data' x = data x) :
    F.inner data' rs = F.inner data rs := gatherAll_congr h

theorem needs_congr (h : ∀ x ∈ F.inner data rs, data' x = data x) :
    F.needs data' rs n = F.needs data rs n := surveyAll_congr h

theorem filled_congr (h : ∀ x ∈ F.inner data rs, data' x = data x) :
    F.Filled data' rs n ↔ F.Filled data rs n := by
  unfold Filled
  rw [surveyAll_congr h]

end Congr

/-! ## Blocks -/

theorem nodes_append : F.nodes data (rs₁ ++ rs₂) = F.nodes data rs₁ ++ F.nodes data rs₂ :=
  gatherAll_append

theorem inner_append : F.inner data (rs₁ ++ rs₂) = F.inner data rs₁ ++ F.inner data rs₂ :=
  gatherAll_append

theorem leaves_append : F.leaves data (rs₁ ++ rs₂) = F.leaves data rs₁ ++ F.leaves data rs₂ :=
  gatherAll_append

theorem nodes_node : F.nodes data [(k + 1, e)] =
    (if e = 0 then [] else [e]) ++ F.nodes data (F.below data k e) := gatherAll_node

theorem nodes_leaf : F.nodes data [(0, e)] = if e = 0 then [] else [e] := by
  unfold nodes
  rw [gatherAll_singleton]
  rfl

theorem leaves_node : F.leaves data [(k + 1, e)] = F.leaves data (F.below data k e) := gatherAll_node

/-- The blocks of a forest are its index blocks and its data blocks. -/
theorem nodes_perm :
    (F.nodes data rs).Perm (F.inner data rs ++ (F.leaves data rs).filter (· ≠ 0)) := by
  induction rs using @forest_induction α β _ _ F data with
  | nil => exact .nil
  | cons r rs ihr ih =>
    have hcons : r :: rs = [r] ++ rs := rfl
    rw [hcons, nodes_append, inner_append, leaves_append, List.filter_append]
    refine (ihr.append ih).trans ?_
    simp only [List.append_assoc]
    apply List.Perm.append_left
    simp only [← List.append_assoc]
    exact List.perm_append_comm.append_right _
  | leaf e =>
    rw [nodes_leaf]
    by_cases he : e = 0 <;> simp [inner, leaves, gatherAll_singleton, gather, innerOf, leafOf, he]
  | node k e ih =>
    rw [nodes_node, inner_node, leaves_node, List.append_assoc]
    exact ih.append_left _

theorem mem_nodes_iff {x : α} :
    x ∈ F.nodes data rs ↔ x ∈ F.inner data rs ∨ x ∈ F.leaves data rs ∧ x ≠ 0 := by
  rw [nodes_perm.mem_iff, List.mem_append, List.mem_filter, decide_eq_true_iff]

theorem inner_subset_nodes : F.inner data rs ⊆ F.nodes data rs :=
  fun _ hx => mem_nodes_iff.mpr (.inl hx)

theorem ne_zero_of_mem_nodes {x : α} (hx : x ∈ F.nodes data rs) : x ≠ 0 := by
  induction rs using @forest_induction α β _ _ F data with
  | nil => cases hx
  | cons r rs ihr ih =>
    have hcons : r :: rs = [r] ++ rs := rfl
    rw [hcons, nodes_append, List.mem_append] at hx
    exact hx.elim ihr ih
  | leaf e =>
    rw [nodes_leaf] at hx
    split_ifs at hx with he
    · cases hx
    · rw [List.mem_singleton.mp hx]
      exact he
  | node k e ih =>
    rw [nodes_node, List.mem_append] at hx
    cases hx with
    | inl hx =>
      split_ifs at hx with he
      · cases hx
      · rw [List.mem_singleton.mp hx]
        exact he
    | inr hx => exact ih hx

theorem length_leaves : (F.leaves data rs).length = F.capacity rs := by
  induction rs using @forest_induction α β _ _ F data with
  | nil => rfl
  | cons r rs ihr ih =>
    have hcons : r :: rs = [r] ++ rs := rfl
    rw [hcons, leaves_append, List.length_append, ihr, ih, capacity_append]
  | leaf e => simp [leaves, gatherAll_singleton, gather, leafOf]
  | node k e ih =>
    rw [leaves_node, ih, capacity_below]
    rfl

/-! ## Trees without blocks -/

theorem below_zero : F.below data k 0 = List.replicate F.fanOut (k, 0) := by
  rw [below, children_zero, List.map_replicate]

theorem nodes_of_zero (h : ∀ r ∈ rs, r.2 = 0) : F.nodes data rs = [] := by
  induction rs using @forest_induction α β _ _ F data with
  | nil => rfl
  | cons r rs ihr ih =>
    have hcons : r :: rs = [r] ++ rs := rfl
    rw [hcons, nodes_append, ih fun x hx => h x (List.mem_cons_of_mem _ hx), List.append_nil]
    exact ihr fun x hx => h x (List.mem_cons.mpr (.inl (List.mem_singleton.mp hx)))
  | leaf e => rw [nodes_leaf, if_pos (h _ List.mem_cons_self)]
  | node k e ih =>
    have he : e = 0 := h _ List.mem_cons_self
    rw [nodes_node, if_pos he, List.nil_append]
    apply ih
    intro r hr
    rw [he, below_zero] at hr
    rw [List.eq_of_mem_replicate hr]

theorem nodes_level_zero {es : List α} (h : ∀ e ∈ es, e ≠ 0) :
    F.nodes data (es.map fun e => (0, e)) = es := by
  induction es with
  | nil => rfl
  | cons e es ih =>
    have hcons : (e :: es).map (fun e => (0, e)) = [(0, e)] ++ es.map fun e => (0, e) := rfl
    rw [hcons, nodes_append, nodes_leaf, if_neg (h e List.mem_cons_self),
      ih fun x hx => h x (List.mem_cons_of_mem _ hx), List.singleton_append]

theorem leaves_of_zero (h : ∀ r ∈ rs, r.2 = 0) {x : α} (hx : x ∈ F.leaves data rs) : x = 0 := by
  by_contra hne
  have hmem : x ∈ F.nodes data rs := mem_nodes_iff.mpr (.inr ⟨hx, hne⟩)
  rw [nodes_of_zero h] at hmem
  cases hmem

/-! ## Forests that hold their first data blocks -/

theorem filled_append : F.Filled data (rs₁ ++ rs₂) n ↔
    F.Filled data rs₁ n ∧ F.Filled data rs₂ (n - F.capacity rs₁) := by
  unfold Filled
  rw [surveyAll_append, List.forall_mem_append]

theorem filled_cons {r : Nat × α} : F.Filled data (r :: rs) n ↔
    F.Filled data [r] n ∧ F.Filled data rs (n - F.fanOut ^ r.1) := by
  unfold Filled
  rw [surveyAll_cons, List.forall_mem_append]

theorem filled_leaf : F.Filled data [(0, e)] n ↔ (e ≠ 0 ↔ 0 < n) := by
  simp [Filled, surveyAll_singleton, survey]

theorem filled_node : F.Filled data [(k + 1, e)] n ↔
    (e ≠ 0 ↔ 0 < n) ∧ F.Filled data (F.below data k e) n := by
  have hpos : 0 < min n (F.fanOut ^ (k + 1)) ↔ 0 < n := by
    have hcap := @pos_pow α β _ F (k + 1)
    omega
  unfold Filled
  rw [surveyAll_node, List.forall_mem_append, List.forall_mem_singleton, hpos]

theorem filled_of_zero (h : ∀ r ∈ rs, r.2 = 0) : F.Filled data rs 0 := by
  induction rs using @forest_induction α β _ _ F data with
  | nil =>
    intro p hp
    cases hp
  | cons r rs ihr ih =>
    rw [filled_cons, Nat.zero_sub]
    exact ⟨ihr fun x hx => h x (List.mem_cons.mpr (.inl (List.mem_singleton.mp hx))),
      ih fun x hx => h x (List.mem_cons_of_mem _ hx)⟩
  | leaf e =>
    have he : e = 0 := h _ List.mem_cons_self
    simp [filled_leaf, he]
  | node k e ih =>
    have he : e = 0 := h _ List.mem_cons_self
    rw [filled_node]
    refine ⟨by simp [he], ih ?_⟩
    intro r hr
    rw [he, below_zero] at hr
    rw [List.eq_of_mem_replicate hr]

theorem nodes_of_filled_zero (h : F.Filled data rs 0) : F.nodes data rs = [] := by
  induction rs using @forest_induction α β _ _ F data with
  | nil => rfl
  | cons r rs ihr ih =>
    have hcons : r :: rs = [r] ++ rs := rfl
    rw [filled_cons, Nat.zero_sub] at h
    rw [hcons, nodes_append, ihr h.1, ih h.2, List.append_nil]
  | leaf e =>
    rw [filled_leaf] at h
    rw [nodes_leaf, if_pos]
    by_contra he
    exact Nat.lt_irrefl 0 (h.mp he)
  | node k e ih =>
    rw [filled_node] at h
    have he : e = 0 := by
      by_contra hne
      exact Nat.lt_irrefl 0 (h.1.mp hne)
    rw [nodes_node, if_pos he, List.nil_append, ih h.2]

theorem filled_min : F.Filled data rs (min n (F.capacity rs)) ↔ F.Filled data rs n := by
  unfold Filled
  rw [surveyAll_min]

theorem leaf_ne_zero_iff (h : F.Filled data rs n) {i : Nat} {a : α}
    (hi : (F.leaves data rs)[i]? = some a) : a ≠ 0 ↔ i < n := by
  induction rs using @forest_induction α β _ _ F data generalizing n i with
  | nil => cases hi
  | cons r rs ihr ih =>
    rw [filled_cons] at h
    have hcons : r :: rs = [r] ++ rs := rfl
    have hlen : (F.leaves data [r]).length = F.fanOut ^ r.1 := by
      rw [length_leaves, capacity_cons, capacity_nil, Nat.add_zero]
    rw [hcons, leaves_append, List.getElem?_append, hlen] at hi
    split_ifs at hi with hlt
    · exact ihr h.1 hi
    · rw [ih h.2 hi]
      omega
  | leaf e =>
    rw [filled_leaf] at h
    rw [leaves, gatherAll_singleton] at hi
    cases i with
    | zero =>
      cases hi
      exact h
    | succ i => cases hi
  | node k e ih =>
    rw [filled_node] at h
    rw [leaves_node] at hi
    exact ih h.2 hi

/-- Where an entry of a tree for a data block stands. -/
theorem getElem?_leaves_node {q j : Nat} (hj : j < F.fanOut ^ k) :
    (F.leaves data [(k + 1, e)])[F.fanOut ^ k * q + j]? =
      (F.children data e)[q]?.bind fun c => (F.leaves data [(k, c)])[j]? := by
  rw [leaves_node, leaves, below, gatherAll_map, getElem?_chunks _ hj]
  · simp only [leaves, gatherAll_singleton]
  · intro c _
    have hlen := @length_leaves α β _ _ F data [(k, c)]
    rwa [leaves, gatherAll_singleton, capacity_cons, capacity_nil, Nat.add_zero] at hlen

theorem leaves_leaf : F.leaves data [(0, e)] = [e] := by
  rw [leaves, gatherAll_singleton]
  rfl

theorem leaves_level_zero {es : List α} : F.leaves data (es.map fun e => (0, e)) = es := by
  rw [leaves, gatherAll_map]
  exact List.flatMap_singleton' es

/-! ## Missing blocks -/

theorem needs_append : F.needs data (rs₁ ++ rs₂) n =
    F.needs data rs₁ n ++ F.needs data rs₂ (n - F.capacity rs₁) := surveyAll_append

theorem needs_cons {r : Nat × α} : F.needs data (r :: rs) n =
    F.needs data [r] n ++ F.needs data rs (n - F.fanOut ^ r.1) := surveyAll_cons r

theorem needs_leaf : F.needs data [(0, e)] n = if e = 0 ∧ 0 < n then [.data] else [] := by
  simp [needs, surveyAll_singleton, survey, needOf, BlockKind.ofLevel]

theorem needs_node : F.needs data [(k + 1, e)] n =
    (if e = 0 ∧ 0 < n then [.index] else []) ++ F.needs data (F.below data k e) n := by
  have hpos : 0 < min n (F.fanOut ^ (k + 1)) ↔ 0 < n := by
    have hcap := @pos_pow α β _ F (k + 1)
    omega
  rw [needs, surveyAll_node, needOf]
  simp only [hpos]
  rfl

theorem needs_zero : F.needs data rs 0 = [] := by
  induction rs using @forest_induction α β _ _ F data with
  | nil => rfl
  | cons r rs ihr ih => rw [needs_cons, ihr, Nat.zero_sub, ih, List.nil_append]
  | leaf e => simp [needs_leaf]
  | node k e ih => simp [needs_node, ih]

/-- Where all entries of a list are there, none of them is missing. -/
theorem needs_level_zero {es : List α} (h : ∀ e ∈ es, e ≠ 0) :
    F.needs data (es.map fun e => (0, e)) n = [] := by
  induction es generalizing n with
  | nil => rfl
  | cons e es ih =>
    have hne : ¬ (e = 0 ∧ 0 < n) := fun hand => h e List.mem_cons_self hand.1
    rw [List.map_cons, needs_cons, needs_leaf, if_neg hne, List.nil_append]
    exact ih fun x hx => h x (List.mem_cons_of_mem _ hx)

theorem needs_min : F.needs data rs (min n (F.capacity rs)) = F.needs data rs n := surveyAll_min

end TreeFormat

end CSE130.Library
