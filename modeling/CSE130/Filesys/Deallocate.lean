import CSE130.Filesys.Inode

/-!
# Giving up a file's sectors

`inode_deallocate` follows the length of the file through the index. Where the index holds the blocks
that this length needs, each of them is released once, and nothing else.
-/

namespace CSE130.Filesys

open CSE130.Library InodeDisk Store

/-- The blocks of a part of a file's index have been released, each once. -/
structure Released (s s' : Store) (rs : List (Nat × Sector)) : Prop where
  ok : s'.FreeMapOk
  used : ∀ x, s'.used x = true ↔ s.used x = true ∧ x ∉ indexFormat.nodes s.disk rs
  size : s'.size = s.size
  file : s'.freeMapFile = s.freeMapFile
  nodes : s'.freeMapNodes = s.freeMapNodes
  frame : ∀ x, x ∉ s.freeMapNodes → s'.disk x = s.disk x
  notes : ∃ ns, s'.notes = s.notes ++ ns ∧ allocated ns = [] ∧ .exhausted ∉ ns ∧
    (released ns).Perm (indexFormat.nodes s.disk rs)

variable {s s₁ s₂ s' : Store} {rs rs₁ rs₂ : List (Nat × Sector)} {n k : Nat} {e x : Sector}
  {d f : InodeDisk}

theorem Released.none (h : s.FreeMapOk) (hnodes : indexFormat.nodes s.disk rs = []) :
    Released s s rs := by
  refine ⟨h, ?_, rfl, rfl, rfl, fun _ _ => rfl, [], ?_, rfl, List.not_mem_nil, ?_⟩
  · rw [hnodes]
    simp
  · rw [List.append_nil]
  · rw [hnodes]
    exact .nil

/-- A release leaves the index of a file as it is. -/
theorem inner_frame (h : Ready s rs) (hframe : ∀ x, x ∉ s.freeMapNodes → s'.disk x = s.disk x) :
    ∀ x ∈ indexFormat.inner s.disk rs, s'.disk x = s.disk x :=
  fun x hx => hframe x (h.outside x (TreeFormat.inner_subset_nodes hx))

theorem Released.ready (g : Released s s₁ rs₁) (h : Ready s (rs₁ ++ rs₂)) : Ready s₁ rs₂ := by
  have hnodes : indexFormat.nodes s₁.disk rs₂ = indexFormat.nodes s.disk rs₂ :=
    TreeFormat.nodes_congr (inner_frame h.right g.frame)
  have hright := h.right
  have hnodup := h.nodup
  rw [TreeFormat.nodes_append, List.nodup_append] at hnodup
  refine ⟨g.ok, ?_, ?_, ?_⟩
  · rw [hnodes]
    exact hright.nodup
  · rw [hnodes]
    intro x hx
    rw [g.used]
    exact ⟨hright.used x hx, fun hmem => hnodup.2.2 x hmem x hx rfl⟩
  · rw [hnodes, g.nodes]
    exact hright.outside

theorem Released.append (g₁ : Released s s₁ rs₁) (g₂ : Released s₁ s₂ rs₂)
    (h : Ready s (rs₁ ++ rs₂)) : Released s s₂ (rs₁ ++ rs₂) := by
  have hnodes : indexFormat.nodes s₁.disk rs₂ = indexFormat.nodes s.disk rs₂ :=
    TreeFormat.nodes_congr (inner_frame h.right g₁.frame)
  obtain ⟨ns₁, hns₁, hall₁, hexh₁, hrel₁⟩ := g₁.notes
  obtain ⟨ns₂, hns₂, hall₂, hexh₂, hrel₂⟩ := g₂.notes
  rw [hnodes] at hrel₂
  refine ⟨g₂.ok, ?_, g₂.size.trans g₁.size, g₂.file.trans g₁.file, g₂.nodes.trans g₁.nodes, ?_,
    ns₁ ++ ns₂, ?_, ?_, ?_, ?_⟩
  · intro x
    rw [g₂.used, g₁.used, hnodes, TreeFormat.nodes_append, List.mem_append, not_or, and_assoc]
  · intro x hx
    rw [g₂.frame x (by rwa [g₁.nodes]), g₁.frame x hx]
  · rw [hns₂, hns₁, List.append_assoc]
  · rw [allocated_append, hall₁, hall₂, List.append_nil]
  · rw [List.mem_append, not_or]
    exact ⟨hexh₁, hexh₂⟩
  · rw [released_append, TreeFormat.nodes_append]
    exact hrel₁.append hrel₂

/-- The release of one block. -/
theorem release_spec (h : s.FreeMapOk) (hfile : s.freeMapFile = some f) (hx : s.used x = true)
    (hzero : x ≠ 0) (hnode : x ∉ s.freeMapNodes) :
    ∃ s', freeMapRelease x s = .ok () s' ∧ s'.FreeMapOk ∧
      (∀ y, s'.used y = true ↔ s.used y = true ∧ y ≠ x) ∧ s'.size = s.size ∧
      s'.freeMapFile = s.freeMapFile ∧ s'.freeMapNodes = s.freeMapNodes ∧
      (∀ y, y ∉ s.freeMapNodes → s'.disk y = s.disk y) ∧ s'.notes = s.notes ++ [.released x] := by
  obtain ⟨s', hrun, hset⟩ := freeMapRelease_spec h hfile hx hzero hnode
  refine ⟨s', hrun, hset.ok, ?_, hset.size, hset.file, hset.nodes, hset.frame, hset.notes⟩
  intro y
  rw [hset.used]
  by_cases hy : y = x
  · simp [hy]
  · simp [hy]

theorem release_leaf (hfile : s.freeMapFile = some f) (h : Ready s [(0, e)]) (he : e ≠ 0) :
    ∃ s', freeMapRelease e s = .ok () s' ∧ Released s s' [(0, e)] := by
  have hnodes : indexFormat.nodes s.disk [(0, e)] = [e] := by
    rw [TreeFormat.nodes_leaf, if_neg he]
  have hmem : e ∈ indexFormat.nodes s.disk [(0, e)] := by
    rw [hnodes]
    exact List.mem_singleton_self e
  obtain ⟨s', hrun, hok, hused, hsize, hfile', hnodes', hframe, hnotes⟩ :=
    release_spec h.ok hfile (h.used e hmem) he (h.outside e hmem)
  refine ⟨s', hrun, hok, ?_, hsize, hfile', hnodes', hframe, _, hnotes, rfl, by simp, ?_⟩
  · rw [hnodes]
    simpa using hused
  · rw [hnodes]
    exact .refl _

/-- The loop over the entries of an array. -/
theorem deallocateEntries_spec {unit : Nat} {deallocate : Sector → Nat → StoreM Unit}
    (hunit : unit = indexFormat.fanOut ^ k)
    (hdeallocate : ∀ s e n, 0 < n → n ≤ unit → s.freeMapFile = some f → Ready s [(k, e)] →
      indexFormat.Filled s.disk [(k, e)] n →
      ∃ s', deallocate e n s = .ok () s' ∧ Released s s' [(k, e)])
    {es : List Sector} (hfile : s.freeMapFile = some f) (h : Ready s (es.map fun e => (k, e)))
    (hfilled : indexFormat.Filled s.disk (es.map fun e => (k, e)) n) (hn : n ≤ es.length * unit) :
    ∃ s', deallocateEntries deallocate unit (divRoundUp n unit) es n s = .ok 0 s' ∧
      Released s s' (es.map fun e => (k, e)) := by
  have hpos : 0 < unit := by rw [hunit]; exact TreeFormat.pos_pow
  induction es generalizing s n with
  | nil =>
    have hn0 : n = 0 := by
      rw [List.length_nil, Nat.zero_mul] at hn
      omega
    subst hn0
    exact ⟨s, by rw [divRoundUp_zero hpos]; rfl, .none h.ok rfl⟩
  | cons e es ih =>
    by_cases hn0 : n = 0
    · subst hn0
      exact ⟨s, by rw [divRoundUp_zero hpos]; rfl, .none h.ok (TreeFormat.nodes_of_filled_zero hfilled)⟩
    have hn' : 0 < n := Nat.pos_of_ne_zero hn0
    have hsub : n - min n unit = n - unit := by omega
    have hready : Ready s ([(k, e)] ++ es.map fun e => (k, e)) := h
    rw [List.map_cons, TreeFormat.filled_cons, ← hunit] at hfilled
    have hhead : indexFormat.Filled s.disk [(k, e)] (min n unit) := by
      rw [hunit, ← capacity_singleton, TreeFormat.filled_min]
      exact hfilled.1
    obtain ⟨s₁, hrun, hrel⟩ := hdeallocate s e (min n unit) (by omega) (by omega) hfile hready.left hhead
    have hinner := inner_frame hready.right hrel.frame
    rw [List.length_cons, Nat.add_mul, Nat.one_mul] at hn
    obtain ⟨s₂, hloop, hrest⟩ := ih (hrel.file.trans hfile) (hrel.ready hready)
      ((TreeFormat.filled_congr hinner).mpr hfilled.2) (by omega)
    refine ⟨s₂, ?_, hrel.append hrest hready⟩
    rw [divRoundUp_pos hpos hn', hsub, deallocateEntries, bind_of_ok hrun, hsub]
    exact hloop

/-- `inode_deallocate_indirect` on a tree that holds what is asked for. -/
theorem inodeDeallocateIndirect_spec (hk : k ≤ 2) (hn : 0 < n) (hle : n ≤ indexFormat.fanOut ^ k)
    (hfile : s.freeMapFile = some f) (h : Ready s [(k, e)])
    (hfilled : indexFormat.Filled s.disk [(k, e)] n) :
    ∃ s', inodeDeallocateIndirect k e n s = .ok () s' ∧ Released s s' [(k, e)] := by
  induction k generalizing s e n with
  | zero => exact release_leaf hfile h ((TreeFormat.filled_leaf.mp hfilled).mpr hn)
  | succ k ih =>
    have hunit : indirectUnit (k + 1) = indexFormat.fanOut ^ k := indirectUnit_eq hk
    rw [TreeFormat.filled_node] at hfilled
    have he : e ≠ 0 := hfilled.1.mpr hn
    have hmem : e ∈ indexFormat.nodes s.disk [(k + 1, e)] := by
      rw [TreeFormat.nodes_node, if_neg he]
      exact List.mem_append_left _ (List.mem_singleton_self e)
    have hlt : e < s.size := h.ok.inRange e (h.used e hmem)
    have hbelow := below_ofRead (k := k) (s := s) he
    have hready := h.below he
    have hentries := hfilled.2
    rw [hbelow] at hready hentries
    have hbound : n ≤ (blocks (s.disk e)).length * indirectUnit (k + 1) := by
      rw [length_blocks, hunit]
      rw [Nat.pow_succ, Nat.mul_comm] at hle
      exact hle
    obtain ⟨s₁, hloop, hrel⟩ := deallocateEntries_spec hunit
      (fun s e n hn hle hfile h hf => ih (by omega) hn (hunit ▸ hle) hfile h hf) hfile hready hentries
      hbound
    rw [← hbelow] at hrel
    have hnodup := h.nodup
    rw [TreeFormat.nodes_node, if_neg he, List.singleton_append, List.nodup_cons] at hnodup
    obtain ⟨s₂, hrun, hok, hused, hsize, hfile', hnodes, hframe, hnotes⟩ :=
      release_spec hrel.ok (hrel.file.trans hfile) ((hrel.used e).mpr ⟨h.used e hmem, hnodup.1⟩) he
        (by rw [hrel.nodes]; exact h.outside e hmem)
    obtain ⟨ns, hns, hall, hexh, hperm⟩ := hrel.notes
    refine ⟨s₂, ?_, hok, ?_, hsize.trans hrel.size, hfile'.trans hrel.file, hnodes.trans hrel.nodes,
      ?_, ns ++ [.released e], ?_, ?_, ?_, ?_⟩
    · rw [inodeDeallocateIndirect, bind_of_ok (assert_of hk), bind_of_ok (bufferCacheRead_of_lt hlt),
        bind_of_ok hloop, bind_of_ok (assert_of rfl)]
      exact hrun
    · intro x
      rw [hused, hrel.used, TreeFormat.nodes_node, if_neg he, List.singleton_append, List.mem_cons,
        not_or, and_assoc, and_comm (a := x ∉ _)]
    · intro x hx
      rw [hframe x (by rwa [hrel.nodes]), hrel.frame x hx]
    · rw [hnotes, hns, List.append_assoc]
    · rw [allocated_append, hall]
      rfl
    · simpa using hexh
    · rw [released_append, TreeFormat.nodes_node, if_neg he]
      exact (hperm.append_right [e]).trans List.perm_append_comm

theorem deallocateTree_spec (hk : k ≤ 2) (hle : n ≤ indexFormat.fanOut ^ k)
    (hfile : s.freeMapFile = some f) (h : Ready s [(k, e)])
    (hfilled : indexFormat.Filled s.disk [(k, e)] n) :
    ∃ s', deallocateTree k e n s = .ok () s' ∧ Released s s' [(k, e)] := by
  unfold deallocateTree
  split_ifs with hn
  · exact inodeDeallocateIndirect_spec hk hn hle hfile h hfilled
  · have hn0 : n = 0 := by omega
    subst hn0
    exact ⟨s, rfl, .none h.ok (TreeFormat.nodes_of_filled_zero hfilled)⟩

/-- `inode_deallocate` releases every block of the file once. -/
theorem inodeDeallocate_spec (hfile : s.freeMapFile = some f) (hd : d.Sound s.disk s.size)
    (h : Ready s d.roots) :
    ∃ s', inodeDeallocate d s = .ok true s' ∧ Released s s' d.roots := by
  have hlen : d.directBlocks.length = directBlocksCount := hd.proper
  have hfits := hd.fits
  have hnonneg := hd.nonneg
  have hmax : maxSectors = 16635 := rfl
  have hneg : ¬ d.length < 0 := by
    rw [Int32.lt_iff_toInt_lt]
    have h0 : (0 : Int32).toInt = 0 := by decide
    omega
  have hnum : bytesToSectors d.length = d.numSectors := by
    unfold numSectors at hfits
    exact bytesToSectors_eq hnonneg (by omega)
  have hfilled := hd.filled
  rw [roots_eq, TreeFormat.filled_append, TreeFormat.filled_append] at hfilled
  rw [roots_eq] at h ⊢
  have hcap : indexFormat.capacity (d.directBlocks.map fun e => (0, e)) = directBlocksCount := by
    rw [TreeFormat.capacity_map, hlen]
    rfl
  have hcap₁ : indexFormat.capacity [(1, d.indirectBlock)] = indirectBlocksPerSector := rfl
  rw [hcap, hcap₁] at hfilled
  obtain ⟨hf₀, hf₁, hf₂⟩ := hfilled
  generalize d.numSectors = n at hnum hf₀ hf₁ hf₂ hfits
  have hdiv : divRoundUp (min n directBlocksCount) 1 = min n directBlocksCount := by
    rw [divRoundUp, Nat.add_sub_cancel, Nat.div_one]
  have hunit : 1 = indexFormat.fanOut ^ 0 := rfl
  -- the direct blocks
  have hrelease : ∀ s e n, 0 < n → n ≤ 1 → s.freeMapFile = some f → Ready s [(0, e)] →
      indexFormat.Filled s.disk [(0, e)] n →
      ∃ s', freeMapRelease e s = .ok () s' ∧ Released s s' [(0, e)] :=
    fun s e n hn _ hfile hready hf => release_leaf hfile hready ((TreeFormat.filled_leaf.mp hf).mpr hn)
  obtain ⟨s₁, hrun₁, hrel₁⟩ := deallocateEntries_spec (n := min n directBlocksCount) hunit hrelease
    hfile h.left (by rw [← hcap, TreeFormat.filled_min]; exact hf₀) (by rw [hlen]; omega)
  rw [hdiv] at hrun₁
  have hready₁ := hrel₁.ready h
  -- the indirect block
  have hf₁' := (TreeFormat.filled_congr (inner_frame h.right.left hrel₁.frame)).mpr hf₁
  rw [← TreeFormat.filled_min, hcap₁] at hf₁'
  have hle₁ : min (n - directBlocksCount) indirectBlocksPerSector ≤ indexFormat.fanOut ^ 1 :=
    Nat.min_le_right _ _
  obtain ⟨s₂, hrun₂, hrel₂⟩ := deallocateTree_spec (by decide) hle₁
    (hrel₁.file.trans hfile) hready₁.left hf₁'
  have hready₂ := hrel₂.ready hready₁
  -- the doubly indirect block
  have hf₂' := (TreeFormat.filled_congr (inner_frame hready₁.right hrel₂.frame)).mpr
    ((TreeFormat.filled_congr (inner_frame h.right.right hrel₁.frame)).mpr hf₂)
  have hcap₂ : indexFormat.capacity [(2, d.doublyIndirectBlock)] =
    indirectBlocksPerSector * indirectBlocksPerSector := rfl
  rw [← TreeFormat.filled_min, hcap₂] at hf₂'
  have hle₂ : min (n - directBlocksCount - indirectBlocksPerSector)
      (indirectBlocksPerSector * indirectBlocksPerSector) ≤ indexFormat.fanOut ^ 2 :=
    Nat.min_le_right _ _
  obtain ⟨s₃, hrun₃, hrel₃⟩ := deallocateTree_spec (Nat.le_refl 2) hle₂
    (hrel₂.file.trans (hrel₁.file.trans hfile)) hready₂ hf₂'
  refine ⟨s₃, ?_, hrel₁.append (hrel₂.append hrel₃ hready₁) h⟩
  have hsub : n - min n directBlocksCount = n - directBlocksCount := by omega
  have hsub₁ : n - directBlocksCount - min (n - directBlocksCount) indirectBlocksPerSector =
      n - directBlocksCount - indirectBlocksPerSector := by omega
  have hdone : n - directBlocksCount - indirectBlocksPerSector -
      min (n - directBlocksCount - indirectBlocksPerSector)
        (indirectBlocksPerSector * indirectBlocksPerSector) = 0 := by
    unfold maxSectors at hfits
    omega
  rw [inodeDeallocate, if_neg hneg, hnum, bind_of_ok hrun₁, hsub]
  dsimp only
  rw [bind_of_ok hrun₂, hsub₁, bind_of_ok hrun₃, hdone, bind_of_ok (assert_of rfl)]
  rfl

end CSE130.Filesys
