import CSE130.Library.IndexTree

/-!
# Growth of index trees

What it means that a forest has grown so as to hold its first `n` data blocks: blocks come to it, and
nothing else changes but its index blocks and a set `W` of blocks that is written at any time. Growth
of two parts one after the other is growth of the whole, and growth below an index block, written back
to it, is growth of its tree.
-/

namespace CSE130.Library

namespace TreeFormat

variable {α β : Type} [Zero α] [DecidableEq α] (F : TreeFormat α β)

/-- The forest `rs` has become `rs'`, which holds its first `n` data blocks, by the blocks `new`. -/
structure Grown (W : α → Prop) (data data' : α → β) (rs rs' : List (Nat × α)) (n : Nat)
    (new : List α) : Prop where
  levels : rs'.map Prod.fst = rs.map Prod.fst
  nodes : (F.nodes data' rs').Perm (F.nodes data rs ++ new)
  inner : ∀ x ∈ F.inner data' rs', x ∈ F.inner data rs ∨ x ∈ new
  frame : ∀ x, x ∉ new → x ∉ F.inner data rs → ¬ W x → data' x = data x
  leaves : List.Forall₂ (fun a a' => a' = a ∨ a = 0 ∧ a' ∈ new ∧ data' a' = F.blank)
    (F.leaves data rs) (F.leaves data' rs')
  filled : ∀ c, F.Filled data rs c → F.Filled data' rs' (max c n)
  same : new = [] → rs' = rs ∧ data' = data

/-- The blocks of a forest and the blocks `new` are different ones, and none is in `W`. -/
structure Apart (W : α → Prop) (data : α → β) (rs : List (Nat × α)) (new : List α) : Prop where
  nodup : (F.nodes data rs ++ new).Nodup
  outside : ∀ x ∈ F.nodes data rs ++ new, ¬ W x

variable {F} {W : α → Prop} {data data₀ data₁ data₂ : α → β} {k n : Nat} {e x : α} {es new new₁ new₂ : List α}
  {rs rs' rs₁ rs₂ rs₁' rs₂' : List (Nat × α)}

omit [DecidableEq α] in
theorem capacity_congr (h : rs'.map Prod.fst = rs.map Prod.fst) : F.capacity rs' = F.capacity rs := by
  have hlevels : ∀ rs : List (Nat × α),
      F.capacity rs = ((rs.map Prod.fst).map fun k => F.fanOut ^ k).sum := by
    intro rs
    rw [capacity, List.map_map]
    rfl
  rw [hlevels, hlevels, h]

theorem Grown.refl (W : α → Prop) (data : α → β) (rs : List (Nat × α)) :
    F.Grown W data data rs rs 0 [] where
  levels := rfl
  nodes := by rw [List.append_nil]
  inner := fun _ hx => .inl hx
  frame := fun _ _ _ _ => rfl
  leaves := List.forall₂_same.mpr fun _ _ => .inl rfl
  filled := fun c hc => by rwa [Nat.max_zero]
  same := fun _ => ⟨rfl, rfl⟩

/-- A data block that is there. -/
theorem Grown.leaf (he : e ≠ 0) (hn : 0 < n) : F.Grown W data data [(0, e)] [(0, e)] n [] :=
  { Grown.refl W data [(0, e)] with
    filled := fun c _ => by
      rw [filled_leaf]
      exact iff_of_true he (by omega) }

/-- A new data block. -/
theorem Grown.newLeaf (hx : x ≠ 0) (hn : 0 < n) (hframe : ∀ y, y ≠ x → ¬ W y → data₁ y = data y)
    (hblank : data₁ x = F.blank) : F.Grown W data data₁ [(0, 0)] [(0, x)] n [x] where
  levels := rfl
  nodes := by simp [nodes_leaf, hx]
  inner := fun y hy => by cases hy
  frame := fun y hy _ hW => hframe y (fun heq => hy (List.mem_singleton.mpr heq)) hW
  leaves := by
    rw [leaves_leaf, leaves_leaf]
    exact .cons (.inr ⟨rfl, List.mem_singleton_self x, hblank⟩) .nil
  filled := fun c _ => by
    rw [filled_leaf]
    exact iff_of_true hx (by omega)
  same := fun h => by cases h

/-- Growth of a part leaves the other part of the forest as it is. -/
theorem Grown.others (g : F.Grown W data data₁ rs₁ rs₁' n new₁)
    (h : F.Apart W data (rs₁ ++ rs₂) new₁) : ∀ x ∈ F.inner data rs₂, data₁ x = data x := by
  intro x hx
  have hnode : x ∈ F.nodes data rs₂ := inner_subset_nodes hx
  obtain ⟨hnodup, hout⟩ := h
  rw [nodes_append] at hnodup hout
  obtain ⟨hnodes, -, hnew⟩ := List.nodup_append.mp hnodup
  obtain ⟨-, -, hparts⟩ := List.nodup_append.mp hnodes
  apply g.frame x
  · exact fun hmem => hnew x (List.mem_append_right _ hnode) x hmem rfl
  · exact fun hmem => hparts x (inner_subset_nodes hmem) x hnode rfl
  · exact hout x (List.mem_append_left _ (List.mem_append_right _ hnode))

/-- Growth of the first part of a forest and then of the second. -/
theorem Grown.append (g₁ : F.Grown W data data₁ rs₁ rs₁' n new₁)
    (g₂ : F.Grown W data₁ data₂ rs₂ rs₂' (n - F.capacity rs₁) new₂)
    (h : F.Apart W data (rs₁ ++ rs₂) (new₁ ++ new₂)) :
    F.Grown W data data₂ (rs₁ ++ rs₂) (rs₁' ++ rs₂') n (new₁ ++ new₂) := by
  have hfirst : F.Apart W data (rs₁ ++ rs₂) new₁ :=
    ⟨h.nodup.sublist ((List.Sublist.refl _).append (List.sublist_append_left _ _)),
      fun x hx => h.outside x (by
        simp only [List.mem_append] at hx ⊢
        exact hx.imp_right .inl)⟩
  have hbefore : ∀ x ∈ F.inner data rs₂, data₁ x = data x := g₁.others hfirst
  have hout := h.outside
  have hnodup := h.nodup
  rw [nodes_append] at hout hnodup
  obtain ⟨hnodes, hnew, hnn⟩ := List.nodup_append.mp hnodup
  obtain ⟨-, -, hparts⟩ := List.nodup_append.mp hnodes
  obtain ⟨-, -, hnews⟩ := List.nodup_append.mp hnew
  have hnews' : ∀ x ∈ new₁, data₂ x = data₁ x := by
    intro x hx
    apply g₂.frame x
    · exact fun hmem => hnews x hx x hmem rfl
    · intro hmem
      rw [inner_congr hbefore] at hmem
      exact hnn x (List.mem_append_right _ (inner_subset_nodes hmem)) x
        (List.mem_append_left _ hx) rfl
    · exact hout x (List.mem_append_right _ (List.mem_append_left _ hx))
  have hafter : ∀ x ∈ F.inner data₁ rs₁', data₂ x = data₁ x := by
    intro x hx
    cases g₁.inner x hx with
    | inr hmem => exact hnews' x hmem
    | inl hold =>
      have hnode : x ∈ F.nodes data rs₁ := inner_subset_nodes hold
      apply g₂.frame x
      · exact fun hmem => hnn x (List.mem_append_left _ hnode) x (List.mem_append_right _ hmem) rfl
      · intro hmem
        rw [inner_congr hbefore] at hmem
        exact hparts x hnode x (inner_subset_nodes hmem) rfl
      · exact hout x (List.mem_append_left _ (List.mem_append_left _ hnode))
  refine ⟨?_, ?_, ?_, ?_, ?_, ?_, ?_⟩
  · rw [List.map_append, List.map_append, g₁.levels, g₂.levels]
  · have hnodes₂ := g₂.nodes
    rw [nodes_congr hbefore] at hnodes₂
    rw [nodes_append, nodes_append, nodes_congr hafter]
    refine (g₁.nodes.append hnodes₂).trans ?_
    simp only [List.append_assoc]
    apply List.Perm.append_left
    simp only [← List.append_assoc]
    exact List.perm_append_comm.append_right _
  · intro x hx
    rw [inner_append, inner_congr hafter, List.mem_append] at hx
    rw [inner_append, List.mem_append, List.mem_append]
    cases hx with
    | inl hx => exact (g₁.inner x hx).imp .inl .inl
    | inr hx =>
      have hx := g₂.inner x hx
      rw [inner_congr hbefore] at hx
      exact hx.imp .inr .inr
  · intro x hxnew hxinner hW
    rw [List.mem_append, not_or] at hxnew
    rw [inner_append, List.mem_append, not_or] at hxinner
    rw [g₂.frame x hxnew.2 (by rw [inner_congr hbefore]; exact hxinner.2) hW,
      g₁.frame x hxnew.1 hxinner.1 hW]
  · rw [leaves_append, leaves_append, leaves_congr hafter]
    have hleaves₂ := g₂.leaves
    rw [leaves_congr hbefore] at hleaves₂
    refine List.rel_append (g₁.leaves.imp ?_) (hleaves₂.imp ?_)
    · intro a a' ha
      refine ha.imp id fun hfresh => ⟨hfresh.1, List.mem_append_left _ hfresh.2.1, ?_⟩
      rw [hnews' a' hfresh.2.1, hfresh.2.2]
    · intro a a' ha
      exact ha.imp id fun hfresh => ⟨hfresh.1, List.mem_append_right _ hfresh.2.1, hfresh.2.2⟩
  · intro c hc
    rw [filled_append] at hc ⊢
    refine ⟨(filled_congr hafter).mpr (g₁.filled c hc.1), ?_⟩
    have hshare : max c n - F.capacity rs₁' = max (c - F.capacity rs₁) (n - F.capacity rs₁) := by
      rw [capacity_congr g₁.levels]
      omega
    rw [hshare]
    exact g₂.filled _ ((filled_congr hbefore).mpr hc.2)
  · intro hnil
    rw [List.append_eq_nil_iff] at hnil
    obtain ⟨hrs₁, hdata₁⟩ := g₁.same hnil.1
    obtain ⟨hrs₂, hdata₂⟩ := g₂.same hnil.2
    exact ⟨by rw [hrs₁, hrs₂], hdata₂.trans hdata₁⟩

/-! ## Growth below an index block -/

/-- The tree below a block to which the addresses `es` have been written. -/
theorem below_update (hx : x ≠ 0) (hlen : es.length = F.fanOut) :
    F.below (Function.update data x (F.ofWords es)) k x = es.map fun c => (k, c) := by
  rw [below, children_of_ne hx, Function.update_self, F.words_ofWords es hlen]

section Update

variable {γ : Type} {f : Nat → α → List γ} {g : Nat → α → Nat → List γ}

theorem gatherAll_update (hx : x ≠ 0) (hlen : es.length = F.fanOut)
    (hinner : x ∉ F.inner data (es.map fun c => (k, c))) :
    F.gatherAll f (Function.update data x (F.ofWords es)) [(k + 1, x)] =
      f (k + 1) x ++ F.gatherAll f data (es.map fun c => (k, c)) := by
  rw [gatherAll_node, below_update hx hlen]
  congr 1
  apply gatherAll_congr
  intro y hy
  exact Function.update_of_ne (ne_of_mem_of_not_mem hy hinner) _ _

theorem surveyAll_update (hinner : x ∉ F.inner data (es.map fun c => (k, c))) :
    F.surveyAll g (Function.update data x (F.ofWords es)) (es.map fun c => (k, c)) n =
      F.surveyAll g data (es.map fun c => (k, c)) n := by
  apply surveyAll_congr
  intro y hy
  exact Function.update_of_ne (ne_of_mem_of_not_mem hy hinner) _ _

end Update

section Update

variable (hx : x ≠ 0) (hlen : es.length = F.fanOut)
  (hinner : x ∉ F.inner data (es.map fun c => (k, c)))

include hx hlen hinner

theorem nodes_update : F.nodes (Function.update data x (F.ofWords es)) [(k + 1, x)] =
    x :: F.nodes data (es.map fun c => (k, c)) := by
  rw [nodes, gatherAll_update hx hlen hinner, nodeOf, if_neg hx, nodes, List.singleton_append]

theorem inner_update : F.inner (Function.update data x (F.ofWords es)) [(k + 1, x)] =
    x :: F.inner data (es.map fun c => (k, c)) := by
  rw [inner, gatherAll_update hx hlen hinner, innerOf, if_neg hx, inner, List.singleton_append]

theorem leaves_update : F.leaves (Function.update data x (F.ofWords es)) [(k + 1, x)] =
    F.leaves data (es.map fun c => (k, c)) := gatherAll_update hx hlen hinner

end Update

theorem filled_update (hx : x ≠ 0) (hlen : es.length = F.fanOut)
    (hinner : x ∉ F.inner data (es.map fun c => (k, c))) :
    F.Filled (Function.update data x (F.ofWords es)) [(k + 1, x)] n ↔
      0 < n ∧ F.Filled data (es.map fun c => (k, c)) n := by
  rw [filled_node, below_update hx hlen]
  refine and_congr (by simp [hx]) ?_
  unfold Filled
  rw [surveyAll_update hinner]

omit [Zero α] [DecidableEq α] in
theorem length_of_levels {c : Nat} {rs : List (Nat × α)}
    (h : (es.map fun e => (c, e)).map Prod.fst = rs.map Prod.fst) : es.length = rs.length := by
  have hlen := congrArg List.length h
  simpa using hlen

/-- Growth below an index block that is there. -/
theorem Grown.node (he : e ≠ 0) (hn : 0 < n)
    (g : F.Grown W data data₁ (F.below data k e) (es.map fun c => (k, c)) n new)
    (h : F.Apart W data [(k + 1, e)] new) :
    F.Grown W data (Function.update data₁ e (F.ofWords es)) [(k + 1, e)] [(k + 1, e)] n new := by
  have hlen : es.length = F.fanOut := by
    rw [length_of_levels g.levels, below, List.length_map, length_children]
  obtain ⟨hnodup, hout⟩ := h
  rw [nodes_node, if_neg he, List.append_assoc, List.singleton_append, List.nodup_cons,
    List.mem_append, not_or] at hnodup
  rw [nodes_node, if_neg he] at hout
  obtain ⟨⟨hbelow, hnew⟩, -⟩ := hnodup
  have hinner : e ∉ F.inner data₁ (es.map fun c => (k, c)) := by
    intro hmem
    exact (g.inner e hmem).elim (fun hin => hbelow (inner_subset_nodes hin)) hnew
  have hupdate : ∀ y, y ≠ e → Function.update data₁ e (F.ofWords es) y = data₁ y :=
    fun y hy => Function.update_of_ne hy _ _
  refine ⟨rfl, ?_, ?_, ?_, ?_, ?_, ?_⟩
  · rw [nodes_update he hlen hinner, nodes_node, if_neg he]
    exact g.nodes.cons e
  · intro x hx
    rw [inner_update he hlen hinner, List.mem_cons] at hx
    rw [inner_node, if_neg he, List.singleton_append, List.mem_cons]
    exact hx.elim (fun hx => .inl (.inl hx)) fun hx => (g.inner x hx).imp .inr id
  · intro x hxnew hxinner hW
    rw [inner_node, if_neg he, List.mem_append, not_or, List.mem_singleton] at hxinner
    rw [hupdate x hxinner.1, g.frame x hxnew hxinner.2 hW]
  · rw [leaves_node, leaves_update he hlen hinner]
    refine g.leaves.imp fun a a' ha => ha.imp id fun hfresh => ⟨hfresh.1, hfresh.2.1, ?_⟩
    rw [hupdate a' fun heq => hnew (heq ▸ hfresh.2.1), hfresh.2.2]
  · intro c hc
    rw [filled_node] at hc
    rw [filled_update he hlen hinner]
    exact ⟨by omega, g.filled c hc.2⟩
  · intro hnil
    obtain ⟨hrs, hdata⟩ := g.same hnil
    refine ⟨rfl, ?_⟩
    have hes : es = F.words (data e) := by
      rw [below, children_of_ne he] at hrs
      exact List.map_injective_iff.mpr (fun _ _ h => congrArg Prod.snd h) hrs
    rw [hes, F.ofWords_words, hdata, Function.update_eq_self]

theorem below_blank (hx : x ≠ 0) (hblank : data x = F.blank) :
    F.below data k x = List.replicate F.fanOut (k, 0) := by
  rw [below, children_of_ne hx, hblank, F.words_blank, List.map_replicate]

/-- Growth below a new index block. -/
theorem Grown.newNode (hx : x ≠ 0) (hn : 0 < n)
    (hframe : ∀ y, y ≠ x → ¬ W y → data₀ y = data y) (hblank : data₀ x = F.blank)
    (g : F.Grown W data₀ data₁ (F.below data₀ k x) (es.map fun c => (k, c)) n new)
    (hnew : x ∉ new) :
    F.Grown W data (Function.update data₁ x (F.ofWords es)) [(k + 1, 0)] [(k + 1, x)] n
      (x :: new) := by
  have hlen : es.length = F.fanOut := by
    rw [length_of_levels g.levels, below, List.length_map, length_children]
  have hzero : ∀ r ∈ F.below data₀ k x, r.2 = 0 := by
    intro r hr
    rw [below_blank hx hblank] at hr
    rw [List.eq_of_mem_replicate hr]
  have hnodes : F.nodes data₀ (F.below data₀ k x) = [] := nodes_of_zero hzero
  have hinner₀ : F.inner data₀ (F.below data₀ k x) = [] :=
    List.eq_nil_of_subset_nil (hnodes ▸ inner_subset_nodes)
  have hbelow : F.below data k 0 = F.below data₀ k x := by
    rw [below_zero, below_blank hx hblank]
  have hinner : x ∉ F.inner data₁ (es.map fun c => (k, c)) := by
    intro hmem
    have hor := g.inner x hmem
    rw [hinner₀] at hor
    exact hor.elim (fun hin => by cases hin) hnew
  have hupdate : ∀ y, y ≠ x → Function.update data₁ x (F.ofWords es) y = data₁ y :=
    fun y hy => Function.update_of_ne hy _ _
  have hleaves : F.leaves data (F.below data k 0) = F.leaves data₀ (F.below data₀ k x) := by
    rw [hbelow]
    symm
    apply leaves_congr
    intro y hy
    have hnode : y ∈ F.nodes data (F.below data₀ k x) := inner_subset_nodes hy
    rw [nodes_of_zero hzero] at hnode
    cases hnode
  refine ⟨rfl, ?_, ?_, ?_, ?_, ?_, ?_⟩
  · have hgrown := g.nodes
    rw [hnodes, List.nil_append] at hgrown
    rw [nodes_update hx hlen hinner, nodes_node, if_pos rfl, hbelow, nodes_of_zero hzero]
    exact hgrown.cons x
  · intro y hy
    rw [inner_update hx hlen hinner, List.mem_cons] at hy
    right
    cases hy with
    | inl hy => exact List.mem_cons.mpr (.inl hy)
    | inr hy =>
      have hor := g.inner y hy
      rw [hinner₀] at hor
      exact hor.elim (fun hin => by cases hin) (List.mem_cons_of_mem x)
  · intro y hynew hyinner hW
    rw [List.mem_cons, not_or] at hynew
    rw [hupdate y hynew.1, g.frame y hynew.2 (by rw [hinner₀]; exact List.not_mem_nil) hW,
      hframe y hynew.1 hW]
  · rw [leaves_node, leaves_update hx hlen hinner, hleaves]
    refine g.leaves.imp fun a a' ha => ha.imp id fun hfresh =>
      ⟨hfresh.1, List.mem_cons_of_mem x hfresh.2.1, ?_⟩
    rw [hupdate a' fun heq => hnew (heq ▸ hfresh.2.1), hfresh.2.2]
  · intro c hc
    rw [filled_node] at hc
    have hc0 : c = 0 := by
      by_contra hne
      exact hc.1.mpr (Nat.pos_of_ne_zero hne) rfl
    rw [filled_update hx hlen hinner]
    refine ⟨by omega, ?_⟩
    rw [hc0]
    exact g.filled 0 (filled_of_zero hzero)
  · intro hnil
    cases hnil

end TreeFormat

end CSE130.Library
