import CSE130.Filesys.ReserveSpec
import CSE130.Library.TreeGains

/-!
# Growth keeps what is there

Whether `inode_reserve` succeeds or stops where the disk is full, the data sectors that a file had stay
where they were with the bytes that they had. After success the sectors that were wanted are there.
-/

namespace CSE130.Filesys

open CSE130.Library InodeDisk Store TreeFormat

/-- A part of a file's index has gained blocks that were free, by an attempt of growth that may have
failed. -/
structure Gained (s s' : Store) (rs rs' : List (Nat × Sector)) : Prop where
  ok : s'.FreeMapOk
  size : s'.size = s.size
  file : s'.freeMapFile = s.freeMapFile
  nodes : s'.freeMapNodes = s.freeMapNodes
  used : ∀ x, s.used x = true → s'.used x = true
  tops : TopsGain rs rs'
  frame : ∀ x, s.used x = true → x ≠ 0 → x ∉ s.freeMapNodes → x ∉ indexFormat.inner s.disk rs →
    s'.disk x = s.disk x
  gains : ∀ x ∈ indexFormat.inner s.disk rs, indexFormat.WordsGain (s.disk x) (s'.disk x)
  fresh : ∀ x ∈ indexFormat.nodes s'.disk rs', x ∈ indexFormat.nodes s.disk rs ∨ s.used x = false
  marked : ∀ x ∈ indexFormat.nodes s'.disk rs', s'.used x = true
  nodup : (indexFormat.nodes s'.disk rs').Nodup

variable {s s' s₁ s₂ : Store} {rs rs' rs₁ rs₂ rs₁' rs₂' : List (Nat × Sector)} {k n m : Nat}
  {e e' x : Sector} {b : Bool} {es es' : List Sector}

theorem Gained.refl (h : Ready s rs) : Gained s s rs rs where
  ok := h.ok
  size := rfl
  file := rfl
  nodes := rfl
  used := fun _ hx => hx
  tops := .refl rs
  frame := fun _ _ _ _ _ => rfl
  gains := fun _ _ => List.forall₂_same.mpr fun a _ => .refl a
  fresh := fun _ hx => .inl hx
  marked := h.used
  nodup := h.nodup

/-- A part of the index is ready for the next attempt. -/
theorem Gained.ready (g : Gained s s' rs rs') (h : Ready s rs) : Ready s' rs' where
  ok := g.ok
  nodup := g.nodup
  used := g.marked
  outside := by
    intro x hx hmem
    rw [g.nodes] at hmem
    refine (g.fresh x hx).elim (fun hold => h.outside x hold hmem) fun hfree => ?_
    rw [h.ok.nodes_used x hmem] at hfree
    cases hfree

/-! ## One part after the other -/

/-- The parts of an index have no block in common. -/
theorem Ready.parts (h : Ready s (rs₁ ++ rs₂)) (h₁ : x ∈ indexFormat.nodes s.disk rs₁) :
    x ∉ indexFormat.nodes s.disk rs₂ := by
  have hnodup := h.nodup
  rw [nodes_append] at hnodup
  exact fun h₂ => (List.nodup_append.mp hnodup).2.2 x h₁ x h₂ rfl

/-- An attempt for the first part leaves the second as it is. -/
theorem Gained.others (g : Gained s s₁ rs₁ rs₁') (h : Ready s (rs₁ ++ rs₂)) :
    ∀ x ∈ indexFormat.nodes s.disk rs₂, s₁.disk x = s.disk x := by
  intro x hx
  refine g.frame x (h.right.used x hx) (ne_zero_of_mem_nodes hx) (h.right.outside x hx) ?_
  exact fun hinner => h.parts (inner_subset_nodes hinner) hx

theorem Gained.rest (g : Gained s s₁ rs₁ rs₁') (h : Ready s (rs₁ ++ rs₂)) : Ready s₁ rs₂ := by
  have hnodes : indexFormat.nodes s₁.disk rs₂ = indexFormat.nodes s.disk rs₂ :=
    nodes_congr fun x hx => g.others h x (inner_subset_nodes hx)
  refine ⟨g.ok, ?_, ?_, ?_⟩
  · rw [hnodes]
    exact h.right.nodup
  · rw [hnodes]
    exact fun x hx => g.used x (h.right.used x hx)
  · rw [hnodes, g.nodes]
    exact h.right.outside

/-- An attempt for the second part leaves the blocks of the first as they are, be they old or new. -/
theorem Gained.after (g₁ : Gained s s₁ rs₁ rs₁') (g₂ : Gained s₁ s₂ rs₂ rs₂') (h : Ready s (rs₁ ++ rs₂))
    (hx : x ∈ indexFormat.nodes s.disk rs₁ ∨ x ∈ indexFormat.nodes s₁.disk rs₁') :
    s₂.disk x = s₁.disk x := by
  have hold : x ∈ indexFormat.nodes s.disk rs₁ ∨ s.used x = false := hx.elim .inl (g₁.fresh x)
  have hinner : indexFormat.inner s₁.disk rs₂ = indexFormat.inner s.disk rs₂ :=
    inner_congr fun y hy => g₁.others h y (inner_subset_nodes hy)
  have hused : s₁.used x = true :=
    hx.elim (fun hin => g₁.used x (h.left.used x hin)) (g₁.marked x)
  have hne : x ≠ 0 := hx.elim ne_zero_of_mem_nodes ne_zero_of_mem_nodes
  refine g₂.frame x hused hne ?_ ?_
  · rw [g₁.nodes]
    refine hold.elim (h.left.outside x) fun hfree hmem => ?_
    rw [h.ok.nodes_used x hmem] at hfree
    cases hfree
  · rw [hinner]
    intro hmem
    refine hold.elim (fun hin => h.parts hin (inner_subset_nodes hmem)) fun hfree => ?_
    rw [h.right.used x (inner_subset_nodes hmem)] at hfree
    cases hfree

theorem Gained.append (g₁ : Gained s s₁ rs₁ rs₁') (g₂ : Gained s₁ s₂ rs₂ rs₂') (h : Ready s (rs₁ ++ rs₂)) :
    Gained s s₂ (rs₁ ++ rs₂) (rs₁' ++ rs₂') := by
  have hnodes₁ : indexFormat.nodes s₂.disk rs₁' = indexFormat.nodes s₁.disk rs₁' :=
    nodes_congr fun x hx => g₁.after g₂ h (.inr (inner_subset_nodes hx))
  have hnodes₂ : indexFormat.nodes s₁.disk rs₂ = indexFormat.nodes s.disk rs₂ :=
    nodes_congr fun x hx => g₁.others h x (inner_subset_nodes hx)
  have hinner₂ : indexFormat.inner s₁.disk rs₂ = indexFormat.inner s.disk rs₂ :=
    inner_congr fun x hx => g₁.others h x (inner_subset_nodes hx)
  have hfree : ∀ x, s₁.used x = false → s.used x = false := by
    intro x hx
    by_contra hne
    rw [g₁.used x (by simpa using hne)] at hx
    cases hx
  have hfresh₂ : ∀ x ∈ indexFormat.nodes s₂.disk rs₂',
      x ∈ indexFormat.nodes s.disk rs₂ ∨ s₁.used x = false := by
    intro x hx
    rw [← hnodes₂]
    exact g₂.fresh x hx
  refine ⟨g₂.ok, g₂.size.trans g₁.size, g₂.file.trans g₁.file, g₂.nodes.trans g₁.nodes,
    fun x hx => g₂.used x (g₁.used x hx), List.rel_append g₁.tops g₂.tops, ?_, ?_, ?_, ?_, ?_⟩
  · intro x hx hzero hfile hinner
    rw [inner_append, List.mem_append, not_or] at hinner
    rw [g₂.frame x (g₁.used x hx) hzero (by rwa [g₁.nodes]) (by rw [hinner₂]; exact hinner.2),
      g₁.frame x hx hzero hfile hinner.1]
  · intro x hx
    rw [inner_append, List.mem_append] at hx
    cases hx with
    | inl hx =>
      rw [g₁.after g₂ h (.inl (inner_subset_nodes hx))]
      exact g₁.gains x hx
    | inr hx =>
      rw [← g₁.others h x (inner_subset_nodes hx)]
      exact g₂.gains x (by rwa [hinner₂])
  · intro x hx
    rw [nodes_append, List.mem_append, hnodes₁] at hx
    rw [nodes_append, List.mem_append]
    cases hx with
    | inl hx => exact (g₁.fresh x hx).imp .inl id
    | inr hx => exact (hfresh₂ x hx).imp .inr (hfree x)
  · intro x hx
    rw [nodes_append, List.mem_append, hnodes₁] at hx
    exact hx.elim (fun hx => g₂.used x (g₁.marked x hx)) (g₂.marked x)
  · rw [nodes_append, hnodes₁, List.nodup_append]
    refine ⟨g₁.nodup, g₂.nodup, ?_⟩
    intro x hx y hy heq
    subst heq
    have hused := g₁.marked x hx
    refine (hfresh₂ x hy).elim (fun hin => ?_) fun hnot => by rw [hnot] at hused; cases hused
    refine (g₁.fresh x hx).elim (fun hin₁ => h.parts hin₁ hin) fun hnot => ?_
    rw [h.right.used x hin] at hnot
    cases hnot

/-- What the first part holds it holds after the attempt for the second. -/
theorem Gained.holds (g₁ : Gained s s₁ rs₁ rs₁') (g₂ : Gained s₁ s₂ rs₂ rs₂') (h : Ready s (rs₁ ++ rs₂))
    (hold : indexFormat.Holds s₁.disk rs₁' n) : indexFormat.Holds s₂.disk rs₁' n :=
  hold.congr fun _ hx => g₁.after g₂ h (.inr (inner_subset_nodes hx))

/-! ## One sector -/

theorem ok_of_bind {σ ε α β : Type} {x : EStateM ε σ α} {f : α → EStateM ε σ β} {s s' : σ} {r : β}
    (h : (x >>= f) s = .ok r s') : ∃ a t, x s = .ok a t ∧ f a t = .ok r s' := by
  cases hx : x s with
  | ok a t => exact ⟨a, t, rfl, by rwa [bind_of_ok hx] at h⟩
  | error e t => rw [bind_of_error hx] at h; cases h

theorem inner_missing : indexFormat.inner s.disk [(k, 0)] = [] := inner_of_zero (by simp)

/-- A sector that was free has become the top of a tree with nothing below it. -/
theorem Fresh.kept (h : s.FreeMapOk) (f : Fresh s s' x) : Gained s s' [(k, 0)] [(k, x)] := by
  have hmem : x ∈ s.freeSectors := by rw [f.free]; exact List.mem_cons_self
  have hx : x ≠ 0 := (free_ne h hmem).1
  have hfree : s.used x = false := (mem_freeSectors.mp hmem).2
  have hnodes : indexFormat.nodes s'.disk [(k, x)] = [x] := by
    cases k with
    | zero => rw [nodes_leaf, if_neg hx]
    | succ k =>
      rw [nodes_node, if_neg hx, f.below hx, nodes_of_zero fun _ => zero_of_mem_below]
      rfl
  refine ⟨f.ok, f.size, f.file, f.nodes, ?_, .cons ⟨rfl, .inr rfl⟩ .nil, ?_, ?_, ?_, ?_, ?_⟩
  · intro y hy
    rw [f.used, Function.update_apply]
    split_ifs
    · rfl
    · exact hy
  · intro y hy _ hfile _
    refine f.frame y ?_ hfile
    rintro rfl
    rw [hfree] at hy
    cases hy
  · intro y hy
    rw [inner_missing] at hy
    cases hy
  · intro y hy
    rw [hnodes, List.mem_singleton] at hy
    rw [hy]
    exact .inr hfree
  · intro y hy
    rw [hnodes, List.mem_singleton] at hy
    rw [hy, f.used, Function.update_self]
  · rw [hnodes]
    exact List.nodup_singleton x

/-- Where nothing but sector `0` and the notes have changed. -/
theorem Gained.of_zero (h : Ready s rs) (hok : s'.FreeMapOk) (hsize : s'.size = s.size)
    (hused : s'.used = s.used) (hfile : s'.freeMapFile = s.freeMapFile)
    (hdisk : ∀ x, x ≠ 0 → s'.disk x = s.disk x) : Gained s s' rs rs := by
  have hnodes : indexFormat.nodes s'.disk rs = indexFormat.nodes s.disk rs :=
    nodes_congr fun x hx => hdisk x (ne_zero_of_mem_nodes (inner_subset_nodes hx))
  refine ⟨hok, hsize, hfile, ?_, fun x hx => by rwa [hused], .refl rs, fun x _ hx _ _ => hdisk x hx,
    ?_, ?_, ?_, ?_⟩
  · exact freeMapNodes_congr hfile fun x hx =>
      hdisk x (ne_of_mem_of_not_mem hx zero_not_mem_freeMapNodes)
  · intro x hx
    rw [hdisk x (ne_zero_of_mem_nodes (inner_subset_nodes hx))]
    exact List.forall₂_same.mpr fun a _ => .refl a
  · intro x hx
    exact .inl (by rwa [hnodes] at hx)
  · intro x hx
    rw [hnodes] at hx
    rw [hused]
    exact h.used x hx
  · rw [hnodes]
    exact h.nodup

theorem reserveSector_keeps (h : Ready s [(0, e)]) (hrun : reserveSector e s = .ok (b, e') s') :
    Gained s s' [(0, e)] [(0, e')] ∧ (b = true → e' ≠ 0) := by
  by_cases he : e = 0
  · subst he
    rw [reserveSector, if_pos rfl] at hrun
    cases hfree : s.freeSectors with
    | nil =>
      rw [bind_of_ok (freeMapAllocate_full hfree)] at hrun
      cases hrun
      exact ⟨.of_zero h (h.ok.noted _) rfl rfl rfl fun _ _ => rfl, fun hb => absurd hb Bool.false_ne_true⟩
    | cons x rest =>
      obtain ⟨t, t', halloc, hwrite, hfresh⟩ := allocate_fresh h.ok hfree
      rw [bind_of_ok halloc] at hrun
      dsimp only at hrun
      rw [bind_of_ok hwrite] at hrun
      cases hrun
      exact ⟨hfresh.kept h.ok, fun _ => (free_ne h.ok (by rw [hfree]; exact List.mem_cons_self)).1⟩
  · rw [reserveSector, if_neg he] at hrun
    cases hrun
    exact ⟨.refl h, fun _ => he⟩

/-! ## The entries of an array -/

theorem reserveEntries_keeps {unit : Nat} {reserve : Sector → Nat → StoreM (Bool × Sector)}
    (hunit : unit = indexFormat.fanOut ^ k)
    (hreserve : ∀ {s e n b e' s'}, 0 < n → n ≤ unit → Ready s [(k, e)] →
      reserve e n s = .ok (b, e') s' →
        Gained s s' [(k, e)] [(k, e')] ∧ (b = true → indexFormat.Holds s'.disk [(k, e')] n))
    (h : Ready s (es.map fun e => (k, e))) (hn : n ≤ es.length * unit)
    (hrun : reserveEntries reserve unit (divRoundUp n unit) es n s = .ok (b, es', m) s') :
    Gained s s' (es.map fun e => (k, e)) (es'.map fun e => (k, e)) ∧
      (b = true → indexFormat.Holds s'.disk (es'.map fun e => (k, e)) n) := by
  have hpos : 0 < unit := by rw [hunit]; exact pos_pow
  induction es generalizing s n es' with
  | nil =>
    have hn0 : n = 0 := by
      rw [List.length_nil, Nat.zero_mul] at hn
      omega
    rw [hn0, divRoundUp_zero hpos] at hrun
    cases hrun
    rw [hn0]
    exact ⟨.refl h, fun _ => holds_zero⟩
  | cons e es ih =>
    by_cases hn0 : n = 0
    · rw [hn0, divRoundUp_zero hpos] at hrun
      cases hrun
      rw [hn0]
      exact ⟨.refl h, fun _ => holds_zero⟩
    have hcap : ∀ e, indexFormat.capacity [(k, e)] = unit := by
      intro e
      rw [capacity_cons, capacity_nil, hunit, Nat.add_zero]
    have hsub : n - min n unit = n - unit := by omega
    have hready : Ready s ([(k, e)] ++ es.map fun e => (k, e)) := h
    rw [divRoundUp_pos hpos (by omega), reserveEntries] at hrun
    obtain ⟨⟨b₁, e'⟩, s₁, hhead, hrun⟩ := ok_of_bind hrun
    obtain ⟨hkept, hholds⟩ := hreserve (by omega) (by omega) hready.left hhead
    cases b₁ with
    | false =>
      cases hrun
      exact ⟨hkept.append (.refl (hkept.rest hready)) hready, fun hb => absurd hb Bool.false_ne_true⟩
    | true =>
      dsimp only at hrun
      rw [if_pos rfl, hsub] at hrun
      obtain ⟨⟨b₂, es₂, m₂⟩, s₂, htail, hrun⟩ := ok_of_bind hrun
      cases hrun
      rw [List.length_cons, Nat.add_mul, Nat.one_mul] at hn
      obtain ⟨hkept₂, hholds₂⟩ := ih (hkept.rest hready) (by omega) htail
      refine ⟨hkept.append hkept₂ hready, fun hb => ?_⟩
      have hfirst : indexFormat.Holds s₁.disk [(k, e')] n := by
        refine .of_min ?_
        rw [hcap]
        exact hholds rfl
      have hcons : (e' :: es₂).map (fun e => (k, e)) = [(k, e')] ++ es₂.map fun e => (k, e) := rfl
      rw [hcons]
      refine Holds.append (hkept.holds hkept₂ hready hfirst) ?_
      rw [hcap]
      exact hholds₂ hb

/-! ## Below an index block -/

section Node

theorem top_mem (he : e ≠ 0) : e ∈ indexFormat.nodes s.disk [(k + 1, e)] := by
  rw [nodes_node, if_neg he]
  exact List.mem_append_left _ (List.mem_singleton_self e)

theorem Gained.entries (he : e ≠ 0)
    (g : Gained s s' (indexFormat.below s.disk k e) (es'.map fun c => (k, c))) :
    List.Forall₂ Gains (blocks (s.disk e)) es' := by
  have htops := g.tops
  rw [below_ofRead he] at htops
  exact topsGain_map.mp htops

variable (he : e ≠ 0) (h : Ready s [(k + 1, e)])

include he h

theorem top_not_mem_below : e ∉ indexFormat.nodes s.disk (indexFormat.below s.disk k e) := by
  have hnodup := h.nodup
  rw [nodes_node, if_neg he, List.singleton_append, List.nodup_cons] at hnodup
  exact hnodup.1

variable (g : Gained s s' (indexFormat.below s.disk k e) (es'.map fun c => (k, c)))

include g

/-- The index block is not written before the attempt below it is over. -/
theorem Gained.top : s'.disk e = s.disk e :=
  g.frame e (h.used e (top_mem he)) he (h.outside e (top_mem he))
    fun hinner => top_not_mem_below he h (inner_subset_nodes hinner)

theorem Gained.top_not_mem : e ∉ indexFormat.nodes s'.disk (es'.map fun c => (k, c)) := by
  intro hmem
  refine (g.fresh e hmem).elim (top_not_mem_below he h) fun hfree => ?_
  rw [h.used e (top_mem he)] at hfree
  cases hfree

/-- The attempt below an index block has failed, so that the block stays as it is. -/
theorem Gained.failedBelow : Gained s s' [(k + 1, e)] [(k + 1, e)] := by
  have hbelow : indexFormat.below s'.disk k e = indexFormat.below s.disk k e :=
    below_congr fun _ => g.top he h
  -- the blocks that come to the old entries are among those that have been reserved
  have hsub : (indexFormat.nodes s'.disk (indexFormat.below s.disk k e)).Sublist
      (indexFormat.nodes s'.disk (es'.map fun c => (k, c))) := nodes_sublist g.tops
  refine ⟨g.ok, g.size, g.file, g.nodes, g.used, .refl _, ?_, ?_, ?_, ?_, ?_⟩
  · intro x hx hzero hfile hinner
    rw [inner_node, if_neg he, List.mem_append, not_or] at hinner
    exact g.frame x hx hzero hfile hinner.2
  · intro x hx
    rw [inner_node, if_neg he, List.singleton_append, List.mem_cons] at hx
    rcases hx with rfl | hx
    · rw [g.top he h]
      exact List.forall₂_same.mpr fun a _ => .refl a
    · exact g.gains x hx
  all_goals rw [nodes_node, if_neg he, hbelow, List.singleton_append]
  · intro x hx
    rw [nodes_node, if_neg he, List.singleton_append, List.mem_cons]
    rcases List.mem_cons.mp hx with rfl | hx
    · exact .inl (.inl rfl)
    · exact (g.fresh x (hsub.subset hx)).imp .inr id
  · intro x hx
    rcases List.mem_cons.mp hx with rfl | hx
    · exact g.used x (h.used x (top_mem he))
    · exact g.marked x (hsub.subset hx)
  · rw [List.nodup_cons]
    exact ⟨fun hmem => g.top_not_mem he h (hsub.subset hmem), g.nodup.sublist hsub⟩

/-- The attempt below an index block has succeeded, and the entries are written back. -/
theorem Gained.doneBelow : Gained s ((s'.noted (.wrote e)).write e (indirectBlockSector es'))
    [(k + 1, e)] [(k + 1, e)] := by
  have hlen : es'.length = indexFormat.fanOut :=
    (g.entries he).length_eq.symm.trans (length_blocks _)
  have hupdate : ∀ x, x ≠ e →
      ((s'.noted (.wrote e)).write e (indirectBlockSector es')).disk x = s'.disk x :=
    fun x hx => Function.update_of_ne hx _ _
  have hnodes : indexFormat.nodes ((s'.noted (.wrote e)).write e (indirectBlockSector es')).disk
      [(k + 1, e)] = e :: indexFormat.nodes s'.disk (es'.map fun c => (k, c)) :=
    nodes_update he hlen fun hinner => g.top_not_mem he h (inner_subset_nodes hinner)
  have hout : e ∉ s'.freeMapNodes := by
    rw [g.nodes]
    exact h.outside e (top_mem he)
  have hfile : ∀ x ∈ s'.freeMapNodes,
      ((s'.noted (.wrote e)).write e (indirectBlockSector es')).disk x = s'.disk x :=
    fun x hx => hupdate x (ne_of_mem_of_not_mem hx hout)
  have hsame : ((s'.noted (.wrote e)).write e (indirectBlockSector es')).freeMapNodes =
      s'.freeMapNodes := freeMapNodes_congr rfl hfile
  refine ⟨?_, g.size, g.file, ?_, g.used, .refl _, ?_, ?_, ?_, ?_, ?_⟩
  · exact g.ok.congr rfl rfl hfile g.ok.zero_used g.ok.inRange g.ok.nodes_used
  · rw [hsame, g.nodes]
  · intro x hx hzero hfile hinner
    rw [inner_node, if_neg he, List.singleton_append, List.mem_cons, not_or] at hinner
    rw [hupdate x hinner.1]
    exact g.frame x hx hzero hfile hinner.2
  · intro x hx
    rw [inner_node, if_neg he, List.singleton_append, List.mem_cons] at hx
    by_cases heq : x = e
    · subst heq
      rw [Store.write_disk, Function.update_self]
      have hwords : indexFormat.words (indirectBlockSector es') = es' :=
        indexFormat.words_ofWords es' hlen
      unfold WordsGain
      rw [hwords]
      exact g.entries he
    · rw [hupdate x heq]
      exact g.gains x (hx.resolve_left heq)
  all_goals rw [hnodes]
  · intro x hx
    rw [nodes_node, if_neg he, List.singleton_append, List.mem_cons]
    rcases List.mem_cons.mp hx with rfl | hx
    · exact .inl (.inl rfl)
    · exact (g.fresh x hx).imp .inr id
  · intro x hx
    rcases List.mem_cons.mp hx with rfl | hx
    · exact g.used x (h.used x (top_mem he))
    · exact g.marked x hx
  · rw [List.nodup_cons]
    exact ⟨g.top_not_mem he h, g.nodup⟩

theorem Gained.holds_doneBelow (hold : indexFormat.Holds s'.disk (es'.map fun c => (k, c)) n) :
    indexFormat.Holds ((s'.noted (.wrote e)).write e (indirectBlockSector es')).disk [(k + 1, e)] n := by
  have hlen : es'.length = indexFormat.fanOut :=
    (g.entries he).length_eq.symm.trans (length_blocks _)
  have hleaves : indexFormat.leaves ((s'.noted (.wrote e)).write e (indirectBlockSector es')).disk
      [(k + 1, e)] = indexFormat.leaves s'.disk (es'.map fun c => (k, c)) :=
    leaves_update he hlen fun hinner => g.top_not_mem he h (inner_subset_nodes hinner)
  unfold TreeFormat.Holds
  rw [hleaves]
  exact hold

end Node

/-- An attempt below an index block that has just been allocated. -/
theorem Gained.fresh_trans (h : s.FreeMapOk) (f : Fresh s s₁ x)
    (g : Gained s₁ s' [(k + 1, x)] [(k + 1, x)]) : Gained s s' [(k + 1, 0)] [(k + 1, x)] := by
  have hkept : Gained s s₁ [(k + 1, 0)] [(k + 1, x)] := f.kept h
  have hfree : s.used x = false :=
    (mem_freeSectors.mp (show x ∈ s.freeSectors by rw [f.free]; exact List.mem_cons_self)).2
  have hused : ∀ y, s.used y = true → y ≠ x := by
    rintro y hy rfl
    rw [hfree] at hy
    cases hy
  have hx : x ≠ 0 := (free_ne h (by rw [f.free]; exact List.mem_cons_self)).1
  have htop : indexFormat.nodes s₁.disk [(k + 1, x)] = [x] := by
    rw [nodes_node, if_neg hx, f.below hx, nodes_of_zero fun _ => zero_of_mem_below]
    rfl
  refine ⟨g.ok, g.size.trans f.size, g.file.trans f.file, g.nodes.trans f.nodes,
    fun y hy => g.used y (hkept.used y hy), .cons ⟨rfl, .inr rfl⟩ .nil, ?_, ?_, ?_, g.marked, g.nodup⟩
  · intro y hy hzero hfile hinner
    rw [g.frame y (hkept.used y hy) hzero (by rwa [f.nodes]), hkept.frame y hy hzero hfile hinner]
    intro hmem
    have hmem := inner_subset_nodes hmem
    rw [htop, List.mem_singleton] at hmem
    exact hused y hy hmem
  · intro y hy
    rw [inner_missing] at hy
    cases hy
  · intro y hy
    right
    by_contra hne
    have hy' : s.used y = true := by simpa using hne
    refine (g.fresh y hy).elim (fun hmem => ?_) fun hnot => ?_
    · rw [htop, List.mem_singleton] at hmem
      exact hused y hy' hmem
    · rw [hkept.used y hy'] at hnot
      cases hnot

/-- An attempt below an index block that could not be allocated. -/
theorem Gained.of_zeroed (hzero : ∀ r ∈ rs, r.2 = 0)
    (g : Gained (zeroed s) s' rs rs') : Gained s s' [(k + 1, 0)] [(k + 1, 0)] := by
  have hfile : (zeroed s).freeMapNodes = s.freeMapNodes := freeMapNodes_congr rfl fun x hx =>
    Function.update_of_ne (ne_of_mem_of_not_mem hx zero_not_mem_freeMapNodes) _ _
  have hnodes : ∀ disk, indexFormat.nodes disk [(k + 1, (0 : Sector))] = [] :=
    fun disk => nodes_of_zero (by simp)
  refine ⟨g.ok, g.size, g.file, g.nodes.trans hfile, g.used, .refl _, ?_, ?_, ?_, ?_, ?_⟩
  · intro x hx hne hout _
    rw [g.frame x hx hne (by rwa [hfile]) (by rw [inner_of_zero hzero]; exact List.not_mem_nil)]
    exact Function.update_of_ne hne _ _
  · intro x hx
    rw [inner_missing] at hx
    cases hx
  all_goals rw [hnodes]
  · intro x hx
    cases hx
  · intro x hx
    cases hx
  · exact List.nodup_nil

/-! ## `inode_reserve_indirect` -/

theorem holds_leaf {disk : Sector → Block} (he : e ≠ 0) : indexFormat.Holds disk [(0, e)] n := by
  intro i a hi _
  rw [leaves_leaf] at hi
  rw [List.mem_singleton.mp (List.mem_of_getElem? hi)]
  exact he

/-- What `inode_reserve_indirect` has done when it returns, from the read of the index block on. -/
theorem reserveBelow_returns {unit : Nat} {reserve : Sector → Nat → StoreM (Bool × Sector)}
    (hrun : reserveBelow reserve unit e n s = .ok (b, e') s') :
    e' = e ∧ ∃ es' m t, reserveEntries reserve unit (divRoundUp n unit) (blocks (s.disk e)) n s =
      .ok (b, es', m) t ∧
        s' = if b then (t.noted (.wrote e)).write e (indirectBlockSector es') else t := by
  rw [reserveBelow] at hrun
  obtain ⟨block, s₁, hread, hrun⟩ := ok_of_bind hrun
  rw [bufferCacheRead] at hread
  split_ifs at hread
  cases hread
  obtain ⟨⟨b₁, es', m⟩, t, hloop, hrun⟩ := ok_of_bind hrun
  cases b₁ with
  | false =>
    cases hrun
    exact ⟨rfl, es', m, s', hloop, rfl⟩
  | true =>
    dsimp only at hrun
    rw [if_pos rfl] at hrun
    obtain ⟨_, t₁, hassert, hrun⟩ := ok_of_bind hrun
    rw [assert] at hassert
    split_ifs at hassert
    cases hassert
    obtain ⟨_, t₂, hwrite, hrun⟩ := ok_of_bind hrun
    rw [reserveWrite, bind_of_ok (note_eq _), bufferCacheWrite] at hwrite
    split_ifs at hwrite
    cases hwrite
    cases hrun
    exact ⟨rfl, es', m, t, hloop, rfl⟩

theorem inodeReserveIndirect_keeps (hk : k ≤ 2) (hn : 0 < n) (hle : n ≤ indexFormat.fanOut ^ k)
    (h : Ready s [(k, e)]) (hrun : inodeReserveIndirect k e n s = .ok (b, e') s') :
    Gained s s' [(k, e)] [(k, e')] ∧ (b = true → indexFormat.Holds s'.disk [(k, e')] n) := by
  induction k generalizing s e n b e' s' with
  | zero =>
    obtain ⟨hkept, hholds⟩ := reserveSector_keeps h hrun
    exact ⟨hkept, fun hb => holds_leaf (hholds hb)⟩
  | succ k ih =>
    have hunit : indirectUnit (k + 1) = indexFormat.fanOut ^ k := indirectUnit_eq hk
    have hloop : ∀ {s es es' m b s'}, Ready s (es.map fun c => (k, c)) →
        es.length = indexFormat.fanOut →
        reserveEntries (inodeReserveIndirect k) (indirectUnit (k + 1))
          (divRoundUp n (indirectUnit (k + 1))) es n s = .ok (b, es', m) s' →
        Gained s s' (es.map fun c => (k, c)) (es'.map fun c => (k, c)) ∧
          (b = true → indexFormat.Holds s'.disk (es'.map fun c => (k, c)) n) := by
      intro s es es' m b s' hready hlen hes
      refine reserveEntries_keeps hunit ?_ hready ?_ hes
      · intro s e n b e' s' hn hle hready hrun
        exact ih (by omega) hn (hunit ▸ hle) hready hrun
      · rw [hlen, hunit]
        rw [Nat.pow_succ, Nat.mul_comm] at hle
        exact hle
    -- an index block that is there, old or new
    have hbelow : ∀ {s e b e' s'}, e ≠ 0 → Ready s [(k + 1, e)] →
        reserveBelow (inodeReserveIndirect k) (indirectUnit (k + 1)) e n s = .ok (b, e') s' →
        e' = e ∧ Gained s s' [(k + 1, e)] [(k + 1, e)] ∧
          (b = true → indexFormat.Holds s'.disk [(k + 1, e)] n) := by
      intro s e b e' s' he hready hrun
      obtain ⟨rfl, es', m, t, hes, rfl⟩ := reserveBelow_returns hrun
      have hready' := hready.below he
      rw [below_ofRead he] at hready'
      obtain ⟨hkept, hholds⟩ := hloop hready' (length_blocks _) hes
      rw [← below_ofRead he] at hkept
      refine ⟨rfl, ?_⟩
      cases b with
      | false => exact ⟨hkept.failedBelow he hready, fun hb => absurd hb Bool.false_ne_true⟩
      | true => exact ⟨hkept.doneBelow he hready, fun _ => hkept.holds_doneBelow he hready (hholds rfl)⟩
    have hstart := hrun
    rw [inodeReserveIndirect, bind_of_ok (assert_of hk)] at hrun
    obtain ⟨top, t, hindex, hrest⟩ := ok_of_bind hrun
    by_cases he : e = 0
    · subst he
      cases hfree : s.freeSectors with
      | nil =>
        rw [reserveIndexBlock_full h.ok hfree] at hindex
        cases hindex
        obtain ⟨rfl, es', m, t, hes, rfl⟩ := reserveBelow_returns hrest
        have hshort : s.freeSectors.length < (needs s [(k + 1, 0)] n).length := by
          rw [hfree, needs_index hn]
          exact Nat.zero_lt_succ _
        obtain ⟨_, _, ⟨_, _, hfail⟩, _⟩ := (inodeReserveIndirect_spec hk hn hle h).short hshort
        have hb : b = false := by
          rw [hstart] at hfail
          cases hfail
          rfl
        subst hb
        have hzeros : blocks ((zeroed s).disk 0) = List.replicate indirectBlocksPerSector 0 := by
          rw [zeroed, Store.write_disk, Function.update_self, blocks_zeros]
        rw [hzeros] at hes
        have hzero : ∀ r ∈ (List.replicate indirectBlocksPerSector (0 : Sector)).map fun c => (k, c),
            r.2 = 0 := by
          intro r hr
          rw [List.map_replicate] at hr
          rw [List.eq_of_mem_replicate hr]
        obtain ⟨hkept, -⟩ := hloop (ready_below (zeroed_ok h.ok) hzero) List.length_replicate hes
        exact ⟨hkept.of_zeroed hzero, fun hb => absurd hb Bool.false_ne_true⟩
      | cons x rest =>
        obtain ⟨t₀, t', halloc, hwrite, hfresh⟩ := allocate_fresh h.ok hfree
        have hx : x ≠ 0 := (free_ne h.ok (by rw [hfree]; exact List.mem_cons_self)).1
        rw [reserveIndexBlock, if_pos rfl, bind_of_ok halloc, Option.getD_some,
          bind_of_ok hwrite] at hindex
        cases hindex
        obtain ⟨rfl, hkept, hholds⟩ := hbelow hx ((hfresh.kept h.ok).ready h) hrest
        exact ⟨hkept.fresh_trans h.ok hfresh, hholds⟩
    · rw [reserveIndexBlock, if_neg he] at hindex
      cases hindex
      obtain ⟨rfl, hkept, hholds⟩ := hbelow he h hrest
      exact ⟨hkept, hholds⟩

/-! ## `inode_reserve` -/

variable {d d' : InodeDisk}

theorem reserveDoublyIndirect_keeps (hn : 0 < n) (h : Ready s [(2, d.doublyIndirectBlock)])
    (hrun : reserveDoublyIndirect d n s = .ok (b, d') s') :
    ∃ j, d' = { d with doublyIndirectBlock := j } ∧ Gained s s' [(2, d.doublyIndirectBlock)] [(2, j)] ∧
      (b = true → indexFormat.Holds s'.disk [(2, j)] n) := by
  have hcap : indexFormat.capacity [(2, d.doublyIndirectBlock)] =
      indirectBlocksPerSector * indirectBlocksPerSector := rfl
  have hpos : 0 < indirectBlocksPerSector * indirectBlocksPerSector := by decide
  rw [reserveDoublyIndirect] at hrun
  obtain ⟨⟨b₁, j⟩, t, hfirst, hrest⟩ := ok_of_bind hrun
  obtain ⟨hkept, hholds⟩ := inodeReserveIndirect_keeps (Nat.le_refl 2) (Nat.lt_min.mpr ⟨hn, hpos⟩)
    (Nat.min_le_right _ _) h hfirst
  cases b₁ with
  | false =>
    cases hrest
    exact ⟨j, rfl, hkept, fun hb => absurd hb Bool.false_ne_true⟩
  | true =>
    dsimp only at hrest
    rw [if_pos rfl] at hrest
    split_ifs at hrest with hle
    · cases hrest
      refine ⟨j, rfl, hkept, fun _ => ?_⟩
      have hall : min n (indirectBlocksPerSector * indirectBlocksPerSector) = n := by omega
      rw [← hall]
      exact hholds rfl
    · rw [bind_of_error (assert_of_not hle)] at hrest
      cases hrest

theorem reserveIndirect_keeps (hn : 0 < n)
    (h : Ready s ([(1, d.indirectBlock)] ++ [(2, d.doublyIndirectBlock)]))
    (hrun : reserveIndirect d n s = .ok (b, d') s') :
    ∃ i j, d' = { d with indirectBlock := i, doublyIndirectBlock := j } ∧
      Gained s s' ([(1, d.indirectBlock)] ++ [(2, d.doublyIndirectBlock)]) ([(1, i)] ++ [(2, j)]) ∧
      (b = true → indexFormat.Holds s'.disk ([(1, i)] ++ [(2, j)]) n) := by
  have hcap : ∀ e : Sector, indexFormat.capacity [(1, e)] = indirectBlocksPerSector := fun _ => rfl
  have hpos : 0 < indirectBlocksPerSector := by decide
  rw [reserveIndirect] at hrun
  obtain ⟨⟨b₁, i⟩, t, hfirst, hrest⟩ := ok_of_bind hrun
  obtain ⟨hkept, hholds⟩ := inodeReserveIndirect_keeps (by decide) (Nat.lt_min.mpr ⟨hn, hpos⟩)
    (Nat.min_le_right _ _) h.left hfirst
  have hready := hkept.rest h
  cases b₁ with
  | false =>
    cases hrest
    exact ⟨i, d.doublyIndirectBlock, rfl, hkept.append (.refl hready) h, fun hb => absurd hb Bool.false_ne_true⟩
  | true =>
    have hold : indexFormat.Holds t.disk [(1, i)] n := .of_min (by rw [hcap]; exact hholds rfl)
    dsimp only at hrest
    rw [if_pos rfl] at hrest
    split_ifs at hrest with hle
    · cases hrest
      refine ⟨i, d.doublyIndirectBlock, rfl, hkept.append (.refl hready) h, fun _ => ?_⟩
      have hzero : n - indirectBlocksPerSector = 0 := by omega
      exact hold.append (by rw [hcap, hzero]; exact holds_zero)
    · obtain ⟨j, rfl, hkept₂, hholds₂⟩ :=
        reserveDoublyIndirect_keeps (d := { d with indirectBlock := i }) (by omega) hready hrest
      refine ⟨i, j, rfl, hkept.append hkept₂ h, fun hb => ?_⟩
      have hsub : n - min n indirectBlocksPerSector = n - indirectBlocksPerSector := by omega
      refine Holds.append (hkept.holds hkept₂ h hold) ?_
      rw [hcap, ← hsub]
      exact hholds₂ hb

theorem reserveSectors_keeps (hd : d.Proper) (h : Ready s d.roots)
    (hrun : reserveSectors d n s = .ok (b, d') s') : Gained s s' d.roots d'.roots ∧ SameInode d d' ∧
      (b = true → indexFormat.Holds s'.disk d'.roots n) := by
  have hlen : d.directBlocks.length = directBlocksCount := hd
  have hready : Ready s (d.directBlocks.map (fun e => (0, e)) ++
      ([(1, d.indirectBlock)] ++ [(2, d.doublyIndirectBlock)])) := by
    rw [← roots_eq]
    exact h
  have hdiv : divRoundUp (min n directBlocksCount) 1 = min n directBlocksCount := by
    rw [divRoundUp, Nat.add_sub_cancel, Nat.div_one]
  have hle : min n directBlocksCount ≤ d.directBlocks.length * 1 := by
    rw [hlen, Nat.mul_one]
    exact Nat.min_le_right _ _
  rw [reserveSectors] at hrun
  obtain ⟨⟨b₁, es, m⟩, t, hfirst, hrest⟩ := ok_of_bind hrun
  rw [← hdiv] at hfirst
  nth_rewrite 2 [hdiv] at hfirst
  obtain ⟨hkept, hholds⟩ := reserveEntries_keeps (k := 0) rfl (by
    intro s e n b e' s' _ _ hready hrun
    obtain ⟨hkept, hne⟩ := reserveSector_keeps hready hrun
    exact ⟨hkept, fun hb => holds_leaf (hne hb)⟩) hready.left hle hfirst
  have hcap : indexFormat.capacity (es.map fun e => (0, e)) = directBlocksCount := by
    rw [capacity_congr hkept.tops.levels, capacity_map, hlen]
    rfl
  have hrest' := hkept.rest hready
  rw [roots_eq (d := d), roots_eq (d := d')]
  cases b₁ with
  | false =>
    cases hrest
    exact ⟨hkept.append (.refl hrest') hready, rfl, fun hb => absurd hb Bool.false_ne_true⟩
  | true =>
    have hold : indexFormat.Holds t.disk (es.map fun e => (0, e)) n :=
      .of_min (by rw [hcap]; exact hholds rfl)
    dsimp only at hrest
    rw [if_pos rfl] at hrest
    split_ifs at hrest with hle
    · cases hrest
      refine ⟨hkept.append (.refl hrest') hready, rfl, fun _ => hold.append ?_⟩
      have hzero : n - directBlocksCount = 0 := by omega
      rw [hcap, hzero]
      exact holds_zero
    · obtain ⟨i, j, rfl, hkept₂, hholds₂⟩ :=
        reserveIndirect_keeps (d := { d with directBlocks := es }) (by omega) hrest' hrest
      refine ⟨hkept.append hkept₂ hready, rfl, fun hb => ?_⟩
      have hsub : n - min n directBlocksCount = n - directBlocksCount := by omega
      refine Holds.append (hkept.holds hkept₂ hready hold) ?_
      rw [hcap, ← hsub]
      exact hholds₂ hb

/-- `inode_reserve` keeps what is there, and after success the sectors that were wanted are there. -/
theorem inodeReserve_keeps {length : Int32} (hd : d.Proper) (h : Ready s d.roots)
    (hrun : inodeReserve d length s = .ok (b, d') s') : Gained s s' d.roots d'.roots ∧ SameInode d d' ∧
      (b = true → 0 ≤ length.toInt ∧ indexFormat.Holds s'.disk d'.roots (bytesToSectors length)) := by
  rw [inodeReserve] at hrun
  split_ifs at hrun with hneg
  · cases hrun
    exact ⟨.refl h, rfl, fun hb => absurd hb Bool.false_ne_true⟩
  · obtain ⟨hkept, hsame, hholds⟩ := reserveSectors_keeps hd h hrun
    rw [Int32.lt_iff_toInt_lt, Int32.toInt_zero] at hneg
    exact ⟨hkept, hsame, fun hb => ⟨by omega, hholds hb⟩⟩

/-! ## The bytes of a file -/

/-- A file whose index has gained entries is covered if the sectors for its length are there. -/
theorem Gained.covered (g : Gained s s' d.roots d'.roots) (hd : d.Proper) (hnonneg : 0 ≤ d'.length.toInt)
    (hfits : d'.numSectors ≤ maxSectors) (hholds : indexFormat.Holds s'.disk d'.roots d'.numSectors) :
    d'.Covered s'.disk s'.size := by
  have hproper : d'.Proper := by
    have hlen := g.tops.length_eq
    unfold Proper at hd ⊢
    simp only [roots, List.length_append, List.length_map, List.length_cons, List.length_nil] at hlen
    omega
  exact ⟨hproper, g.nodup, fun x hx => g.ok.inRange x (g.marked x hx), hholds, hnonneg, hfits⟩

/-- The data sectors that a file had, and their bytes. -/
theorem Gained.leaf (g : Gained s s' d.roots d'.roots) (h : Ready s d.roots) {i : Nat} {a : Sector}
    (hi : (d.leaves s.disk)[i]? = some a) (ha : a ≠ 0) :
    (d'.leaves s'.disk)[i]? = some a ∧ s'.disk a = s.disk a := by
  have hgain := leaves_gain g.tops g.gains
  obtain ⟨hlt, hget⟩ := List.getElem?_eq_some_iff.mp hi
  have hlt' : i < (d'.leaves s'.disk).length := by rwa [← hgain.length_eq]
  have hsame := ((List.forall₂_iff_get.mp hgain).2 i hlt hlt').eq (by
    rw [List.get_eq_getElem, hget]
    exact ha)
  constructor
  · rw [List.getElem?_eq_getElem hlt']
    exact congrArg some (hsame.trans hget)
  · have hnode := leaf_mem_nodes hi ha
    exact g.frame a (h.used a hnode) ha (h.outside a hnode) (leaf_not_mem_inner h.nodup hi ha)

end CSE130.Filesys
