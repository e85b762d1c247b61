import CSE130.Filesys.Reserve

/-!
# What growing a file does

If the free sectors are as many as the blocks that are missing, `inode_reserve` takes the first free
sectors for them. Else it takes all free sectors and fails; where the block that is one too many is an
index block, sector `0` is overwritten.
-/

namespace CSE130.Filesys

open CSE130.Library InodeDisk Store

/-- The sectors of the notes on allocations. -/
def allocated (ns : List Note) : List Sector :=
  ns.filterMap fun n => match n with
    | .allocated x => some x
    | _ => none

/-- The sectors of the notes on releases. -/
def released (ns : List Note) : List Sector :=
  ns.filterMap fun n => match n with
    | .released x => some x
    | _ => none

/-- The sectors of the notes on writes of `inode_reserve`. -/
def wrote (ns : List Note) : List Sector :=
  ns.filterMap fun n => match n with
    | .wrote x => some x
    | _ => none

/-- A part of a file's index: its blocks are different ones, marked in the free map, and none belongs
to the free map file. -/
structure Ready (s : Store) (rs : List (Nat × Sector)) : Prop where
  ok : s.FreeMapOk
  nodup : (indexFormat.nodes s.disk rs).Nodup
  used : ∀ x ∈ indexFormat.nodes s.disk rs, s.used x = true
  outside : ∀ x ∈ indexFormat.nodes s.disk rs, x ∉ s.freeMapNodes

/-- The blocks that are missing in a part of a file's index for its first `n` data sectors. -/
abbrev needs (s : Store) (rs : List (Nat × Sector)) (n : Nat) : List BlockKind :=
  indexFormat.needs s.disk rs n

/-- A part of a file's index has grown by the sectors `new`. -/
structure Reserved (s s' : Store) (rs rs' : List (Nat × Sector)) (n : Nat) (new : List Sector) :
    Prop where
  grown : indexFormat.Grown (· ∈ s.freeMapNodes) s.disk s'.disk rs rs' n new
  count : new.length = (needs s rs n).length
  ok : s'.FreeMapOk
  free : s.freeSectors = new ++ s'.freeSectors
  used : ∀ x, s'.used x = true ↔ s.used x = true ∨ x ∈ new
  size : s'.size = s.size
  file : s'.freeMapFile = s.freeMapFile
  nodes : s'.freeMapNodes = s.freeMapNodes
  notes : ∃ ns, s'.notes = s.notes ++ ns ∧ allocated ns = new ∧ released ns = [] ∧
    .exhausted ∉ ns ∧ ∀ x ∈ wrote ns, x ∈ new ∨ x ∈ indexFormat.inner s.disk rs

/-- The block that is one too many for the disk is an index block. -/
def FailsAtIndex (s : Store) (rs : List (Nat × Sector)) (n : Nat) : Prop :=
  (needs s rs n)[s.freeSectors.length]? = some .index

/-- A part of a file's index should have grown, but the disk is full now. -/
structure Exhausted (s s' : Store) (rs rs' : List (Nat × Sector)) (n : Nat) : Prop where
  free : s'.freeSectors = []
  full : s.freeSectors = [] → rs' = rs ∧ s'.used = s.used ∧
    s'.disk = if (needs s rs n).head? = some .index then Function.update s.disk 0 zeros else s.disk
  size : s'.size = s.size
  file : s'.freeMapFile = s.freeMapFile
  notes : ∃ ns, s'.notes = s.notes ++ ns ∧ allocated ns = s.freeSectors ∧ released ns = [] ∧
    .exhausted ∈ ns ∧
    (∀ x ∈ wrote ns, x ∈ s.freeSectors ∨ x ∈ indexFormat.inner s.disk rs ∨
      x = 0 ∧ FailsAtIndex s rs n) ∧
    (FailsAtIndex s rs n → 0 ∈ wrote ns)

variable {s s₁ s₂ s' : Store} {rs rs' rs₁ rs₂ rs₁' rs₂' : List (Nat × Sector)} {n k : Nat}
  {new new₁ new₂ : List Sector} {e x : Sector}

theorem allocated_append (ns ns' : List Note) :
    allocated (ns ++ ns') = allocated ns ++ allocated ns' := List.filterMap_append

theorem released_append (ns ns' : List Note) :
    released (ns ++ ns') = released ns ++ released ns' := List.filterMap_append

theorem wrote_append (ns ns' : List Note) : wrote (ns ++ ns') = wrote ns ++ wrote ns' :=
  List.filterMap_append

/-! ## Parts of an index -/

theorem Ready.left (h : Ready s (rs₁ ++ rs₂)) : Ready s rs₁ := by
  obtain ⟨hok, hnodup, hused, hout⟩ := h
  rw [TreeFormat.nodes_append] at hnodup hused hout
  exact ⟨hok, (List.nodup_append.mp hnodup).1, fun x hx => hused x (List.mem_append_left _ hx),
    fun x hx => hout x (List.mem_append_left _ hx)⟩

theorem Ready.right (h : Ready s (rs₁ ++ rs₂)) : Ready s rs₂ := by
  obtain ⟨hok, hnodup, hused, hout⟩ := h
  rw [TreeFormat.nodes_append] at hnodup hused hout
  exact ⟨hok, (List.nodup_append.mp hnodup).2.1, fun x hx => hused x (List.mem_append_right _ hx),
    fun x hx => hout x (List.mem_append_right _ hx)⟩

/-- Free sectors are apart from a part of an index. -/
theorem Ready.apart (h : Ready s rs) (hfree : s.freeSectors = new ++ s'.freeSectors) :
    indexFormat.Apart (· ∈ s.freeMapNodes) s.disk rs new := by
  have hnew : ∀ x ∈ new, s.used x = false :=
    fun x hx => (mem_freeSectors.mp (by rw [hfree]; exact List.mem_append_left _ hx)).2
  have hdistinct := freeSectors_nodup s
  rw [hfree, List.nodup_append] at hdistinct
  constructor
  · rw [List.nodup_append]
    refine ⟨h.nodup, hdistinct.1, ?_⟩
    intro x hx y hy heq
    subst heq
    have hused := h.used x hx
    rw [hnew x hy] at hused
    cases hused
  · intro x hx
    rw [List.mem_append] at hx
    cases hx with
    | inl hx => exact h.outside x hx
    | inr hx =>
      intro hmem
      have hused := h.ok.nodes_used x hmem
      rw [hnew x hx] at hused
      cases hused

/-- Growth of a part leaves the rest of the index as it is. -/
theorem Reserved.others (g : Reserved s s₁ rs₁ rs₁' n new₁) (h : Ready s (rs₁ ++ rs₂)) :
    ∀ x ∈ indexFormat.inner s.disk rs₂, s₁.disk x = s.disk x :=
  g.grown.others (h.apart g.free)

theorem Reserved.ready (g : Reserved s s₁ rs₁ rs₁' n new₁) (h : Ready s (rs₁ ++ rs₂)) :
    Ready s₁ rs₂ := by
  have hnodes : indexFormat.nodes s₁.disk rs₂ = indexFormat.nodes s.disk rs₂ :=
    TreeFormat.nodes_congr (g.others h)
  obtain ⟨-, hnodup, hused, hout⟩ := h
  rw [TreeFormat.nodes_append] at hnodup hused hout
  refine ⟨g.ok, ?_, ?_, ?_⟩
  · rw [hnodes]
    exact (List.nodup_append.mp hnodup).2.1
  · rw [hnodes]
    exact fun x hx => (g.used x).mpr (.inl (hused x (List.mem_append_right _ hx)))
  · rw [hnodes, g.nodes]
    exact fun x hx => hout x (List.mem_append_right _ hx)

theorem Reserved.needs_others (g : Reserved s s₁ rs₁ rs₁' n new₁) (h : Ready s (rs₁ ++ rs₂)) (m : Nat) :
    needs s₁ rs₂ m = needs s rs₂ m := TreeFormat.needs_congr (g.others h)

/-- Growth of a part and then of the rest. -/
theorem Reserved.append (g₁ : Reserved s s₁ rs₁ rs₁' n new₁)
    (g₂ : Reserved s₁ s₂ rs₂ rs₂' (n - indexFormat.capacity rs₁) new₂) (h : Ready s (rs₁ ++ rs₂)) :
    Reserved s s₂ (rs₁ ++ rs₂) (rs₁' ++ rs₂') n (new₁ ++ new₂) := by
  have hfree : s.freeSectors = (new₁ ++ new₂) ++ s₂.freeSectors := by
    rw [g₁.free, g₂.free, List.append_assoc]
  have hgrown := g₂.grown
  rw [g₁.nodes] at hgrown
  refine ⟨g₁.grown.append hgrown (h.apart hfree), ?_, g₂.ok, hfree, ?_, g₂.size.trans g₁.size,
    g₂.file.trans g₁.file, g₂.nodes.trans g₁.nodes, ?_⟩
  · rw [List.length_append, g₁.count, g₂.count, g₁.needs_others h, needs, needs, needs,
      TreeFormat.needs_append, List.length_append]
  · intro x
    rw [g₂.used, g₁.used, List.mem_append, or_assoc]
  · obtain ⟨ns₁, hns₁, hall₁, hrel₁, hexh₁, hwrote₁⟩ := g₁.notes
    obtain ⟨ns₂, hns₂, hall₂, hrel₂, hexh₂, hwrote₂⟩ := g₂.notes
    refine ⟨ns₁ ++ ns₂, ?_, ?_, ?_, ?_, ?_⟩
    · rw [hns₂, hns₁, List.append_assoc]
    · rw [allocated_append, hall₁, hall₂]
    · rw [released_append, hrel₁, hrel₂, List.append_nil]
    · rw [List.mem_append, not_or]
      exact ⟨hexh₁, hexh₂⟩
    · intro x hx
      rw [wrote_append, List.mem_append] at hx
      rw [TreeFormat.inner_append, List.mem_append, List.mem_append]
      cases hx with
      | inl hx => exact (hwrote₁ x hx).imp .inl .inl
      | inr hx =>
        have hor := hwrote₂ x hx
        rw [TreeFormat.inner_congr (g₁.others h)] at hor
        exact hor.imp .inr .inr

/-- Where the first part cannot grow, the whole cannot. -/
theorem Exhausted.append (g : Exhausted s s' rs₁ rs₁' n)
    (hless : s.freeSectors.length < (needs s rs₁ n).length) :
    Exhausted s s' (rs₁ ++ rs₂) (rs₁' ++ rs₂) n := by
  have hneeds : needs s (rs₁ ++ rs₂) n =
      needs s rs₁ n ++ needs s rs₂ (n - indexFormat.capacity rs₁) := TreeFormat.needs_append
  have hindex : FailsAtIndex s (rs₁ ++ rs₂) n ↔ FailsAtIndex s rs₁ n := by
    rw [FailsAtIndex, hneeds, List.getElem?_append_left hless, FailsAtIndex]
  refine ⟨g.free, ?_, g.size, g.file, ?_⟩
  · intro hnil
    obtain ⟨hrs, hused, hdisk⟩ := g.full hnil
    have hhead : (needs s (rs₁ ++ rs₂) n).head? = (needs s rs₁ n).head? := by
      rw [hneeds, List.head?_append_of_ne_nil]
      exact List.ne_nil_of_length_pos (Nat.lt_of_le_of_lt (Nat.zero_le _) hless)
    rw [hhead]
    exact ⟨by rw [hrs], hused, hdisk⟩
  · obtain ⟨ns, hns, hall, hrel, hexh, hwrote, hzero⟩ := g.notes
    refine ⟨ns, hns, hall, hrel, hexh, ?_, ?_⟩
    · intro x hx
      rw [TreeFormat.inner_append, List.mem_append, hindex]
      exact (hwrote x hx).imp id (.imp .inl id)
    · rw [hindex]
      exact hzero

/-- Where the rest cannot grow, the whole cannot. -/
theorem Reserved.exhausted (g₁ : Reserved s s₁ rs₁ rs₁' n new₁)
    (g₂ : Exhausted s₁ s₂ rs₂ rs₂' (n - indexFormat.capacity rs₁)) (h : Ready s (rs₁ ++ rs₂)) :
    Exhausted s s₂ (rs₁ ++ rs₂) (rs₁' ++ rs₂') n := by
  have hneeds : needs s (rs₁ ++ rs₂) n =
      needs s rs₁ n ++ needs s₁ rs₂ (n - indexFormat.capacity rs₁) := by
    rw [g₁.needs_others h]
    exact TreeFormat.needs_append
  have hlen : s.freeSectors.length = (needs s rs₁ n).length + s₁.freeSectors.length := by
    rw [g₁.free, List.length_append, g₁.count]
  have hindex : FailsAtIndex s (rs₁ ++ rs₂) n ↔
      FailsAtIndex s₁ rs₂ (n - indexFormat.capacity rs₁) := by
    rw [FailsAtIndex, hneeds, hlen, List.getElem?_append_right (Nat.le_add_right _ _),
      Nat.add_sub_cancel_left, FailsAtIndex]
  refine ⟨g₂.free, ?_, g₂.size.trans g₁.size, g₂.file.trans g₁.file, ?_⟩
  · intro hnil
    have hsplit := g₁.free
    rw [hnil] at hsplit
    obtain ⟨hnew, hfree₁⟩ := List.append_eq_nil_iff.mp hsplit.symm
    obtain ⟨hrs₁, hdisk₁⟩ := g₁.grown.same hnew
    obtain ⟨hrs₂, hused₂, hdisk₂⟩ := g₂.full hfree₁
    have hused₁ : s₁.used = s.used := by
      funext x
      rw [Bool.eq_iff_iff, g₁.used x, hnew]
      simp
    have hnone : needs s rs₁ n = [] := List.eq_nil_of_length_eq_zero (by rw [← g₁.count, hnew]; rfl)
    refine ⟨by rw [hrs₁, hrs₂], hused₂.trans hused₁, ?_⟩
    rw [hneeds, hnone, List.nil_append, hdisk₂, hdisk₁]
  · obtain ⟨ns₁, hns₁, hall₁, hrel₁, hexh₁, hwrote₁⟩ := g₁.notes
    obtain ⟨ns₂, hns₂, hall₂, hrel₂, hexh₂, hwrote₂, hzero₂⟩ := g₂.notes
    refine ⟨ns₁ ++ ns₂, ?_, ?_, ?_, List.mem_append_right _ hexh₂, ?_, ?_⟩
    · rw [hns₂, hns₁, List.append_assoc]
    · rw [allocated_append, hall₁, hall₂, g₁.free]
    · rw [released_append, hrel₁, hrel₂, List.append_nil]
    · intro x hx
      rw [wrote_append, List.mem_append] at hx
      rw [TreeFormat.inner_append, List.mem_append, hindex, g₁.free, List.mem_append]
      cases hx with
      | inl hx => exact (hwrote₁ x hx).imp .inl (fun hin => .inl (.inl hin))
      | inr hx =>
        have hor := hwrote₂ x hx
        rw [TreeFormat.inner_congr (g₁.others h)] at hor
        exact hor.imp .inr (.imp .inr id)
    · intro hf
      rw [wrote_append]
      exact List.mem_append_right _ (hzero₂ (hindex.mp hf))

/-! ## An attempt at growth -/

/-- An attempt to let a part of an index grow has the outcome that the number of free sectors says;
`P` tells the outcomes by the result, the index and the store. -/
structure Attempt (s : Store) (rs : List (Nat × Sector)) (n : Nat)
    (P : Bool → List (Nat × Sector) → Store → Prop) : Prop where
  enough : (needs s rs n).length ≤ s.freeSectors.length →
    ∃ rs' s' new, P true rs' s' ∧ Reserved s s' rs rs' n new
  short : s.freeSectors.length < (needs s rs n).length →
    ∃ rs' s', P false rs' s' ∧ Exhausted s s' rs rs' n

variable {P P₁ : Bool → List (Nat × Sector) → Store → Prop}

theorem Attempt.imp (h : Attempt s rs n P₁) (himp : ∀ b rs' s', P₁ b rs' s' → P b rs' s') :
    Attempt s rs n P where
  enough := fun hle =>
    let ⟨rs', s', new, hP, hres⟩ := h.enough hle
    ⟨rs', s', new, himp _ _ _ hP, hres⟩
  short := fun hlt =>
    let ⟨rs', s', hP, hexh⟩ := h.short hlt
    ⟨rs', s', himp _ _ _ hP, hexh⟩

/-- An attempt for a part and then, if it succeeds, for the rest. -/
theorem Attempt.append (h : Ready s (rs₁ ++ rs₂)) (h₁ : Attempt s rs₁ n P₁)
    (hfail : ∀ rs' s', P₁ false rs' s' → P false (rs' ++ rs₂) s')
    (h₂ : ∀ rs₁' s₁, P₁ true rs₁' s₁ → Ready s₁ rs₂ →
      Attempt s₁ rs₂ (n - indexFormat.capacity rs₁) fun b rs' s' => P b (rs₁' ++ rs') s') :
    Attempt s (rs₁ ++ rs₂) n P := by
  have hneeds : needs s (rs₁ ++ rs₂) n =
      needs s rs₁ n ++ needs s rs₂ (n - indexFormat.capacity rs₁) := TreeFormat.needs_append
  constructor
  · intro hle
    rw [hneeds, List.length_append] at hle
    obtain ⟨rs₁', s₁, new₁, hP₁, hres₁⟩ := h₁.enough (by omega)
    have hlen := congrArg List.length hres₁.free
    rw [List.length_append, hres₁.count] at hlen
    obtain ⟨rs₂', s₂, new₂, hP, hres₂⟩ := (h₂ rs₁' s₁ hP₁ (hres₁.ready h)).enough (by
      rw [hres₁.needs_others h]
      omega)
    exact ⟨_, s₂, _, hP, hres₁.append hres₂ h⟩
  · intro hlt
    rw [hneeds, List.length_append] at hlt
    by_cases hfirst : s.freeSectors.length < (needs s rs₁ n).length
    · obtain ⟨rs₁', s₁, hP₁, hexh⟩ := h₁.short hfirst
      exact ⟨_, s₁, hfail _ _ hP₁, hexh.append hfirst⟩
    · obtain ⟨rs₁', s₁, new₁, hP₁, hres₁⟩ := h₁.enough (by omega)
      have hlen := congrArg List.length hres₁.free
      rw [List.length_append, hres₁.count] at hlen
      obtain ⟨rs₂', s₂, hP, hexh⟩ := (h₂ rs₁' s₁ hP₁ (hres₁.ready h)).short (by
        rw [hres₁.needs_others h]
        omega)
      exact ⟨_, s₂, hP, hres₁.exhausted hexh h⟩

/-- Where nothing is wanted, nothing happens. -/
theorem Attempt.refl (h : s.FreeMapOk) (hP : P true rs s) : Attempt s rs 0 P where
  enough := by
    intro _
    refine ⟨rs, s, [], hP, .refl _ _ _, ?_, h, rfl, ?_, rfl, rfl, rfl, [], ?_, rfl, rfl, ?_, ?_⟩
    · rw [needs, TreeFormat.needs_zero]
      rfl
    · simp
    · rw [List.append_nil]
    · exact List.not_mem_nil
    · intro x hx
      cases hx
  short := by
    intro hlt
    rw [needs, TreeFormat.needs_zero] at hlt
    cases hlt

/-! ## One sector -/

/-- What is known of a sector that has been allocated and written with zeros. -/
structure Fresh (s s' : Store) (x : Sector) : Prop where
  ok : s'.FreeMapOk
  frame : ∀ y, y ≠ x → y ∉ s.freeMapNodes → s'.disk y = s.disk y
  blank : s'.disk x = zeros
  used : s'.used = Function.update s.used x true
  size : s'.size = s.size
  file : s'.freeMapFile = s.freeMapFile
  nodes : s'.freeMapNodes = s.freeMapNodes
  free : s.freeSectors = x :: s'.freeSectors
  notes : s'.notes = s.notes ++ [.allocated x, .wrote x]

/-- A free sector is neither that of the free map's inode nor in its file. -/
theorem free_ne (h : s.FreeMapOk) (hx : x ∈ s.freeSectors) : x ≠ 0 ∧ x ∉ s.freeMapNodes := by
  have hfree := (mem_freeSectors.mp hx).2
  constructor
  · intro heq
    subst heq
    rw [h.zero_used] at hfree
    cases hfree
  · intro hmem
    rw [h.nodes_used x hmem] at hfree
    cases hfree

theorem reserveWrite_of_lt {b : Block} (hx : x < s.size) :
    reserveWrite x b s = .ok () ((s.noted (.wrote x)).write x b) := by
  rw [reserveWrite, bind_of_ok (note_eq _)]
  exact bufferCacheWrite_of_lt hx

/-- Allocating a sector and writing it with zeros. -/
theorem allocate_fresh {rest : List Sector} (h : s.FreeMapOk) (hfree : s.freeSectors = x :: rest) :
    ∃ t s', freeMapAllocate s = .ok (some x) t ∧ reserveWrite x zeros t = .ok () s' ∧ Fresh s s' x := by
  obtain ⟨t, halloc, ⟨hok, hused, hnotes, hsize, hfile, hnodes, hframe⟩, hrest⟩ :=
    freeMapAllocate_spec h hfree
  have hmem : x ∈ s.freeSectors := by rw [hfree]; exact List.mem_cons_self
  have hlt : x < t.size := by
    rw [hsize]
    exact (mem_freeSectors.mp hmem).1
  have hout : x ∉ t.freeMapNodes := by
    rw [hnodes]
    exact (free_ne h hmem).2
  have hdisk : ∀ y ∈ t.freeMapNodes, ((t.noted (.wrote x)).write x zeros).disk y = t.disk y :=
    fun y hy => Function.update_of_ne (ne_of_mem_of_not_mem hy hout) _ _
  have hsame : ((t.noted (.wrote x)).write x zeros).freeMapNodes = t.freeMapNodes :=
    freeMapNodes_congr rfl hdisk
  refine ⟨t, _, halloc, reserveWrite_of_lt hlt, ?_, ?_, ?_, hused, hsize, hfile, ?_, ?_, ?_⟩
  · exact hok.congr rfl rfl hdisk hok.zero_used hok.inRange hok.nodes_used
  · intro y hy hnode
    rw [Store.write_disk, Function.update_of_ne hy]
    exact hframe y hnode
  · rw [Store.write_disk, Function.update_self]
  · rw [hsame, hnodes]
  · rw [hfree, ← hrest]
    rfl
  · simp [hnotes]

/-- The attempt to give an entry for data its sector. -/
theorem reserveSector_spec (h : Ready s [(0, e)]) (hn : 0 < n) :
    Attempt s [(0, e)] n fun b rs' s' => ∃ e', rs' = [(0, e')] ∧ reserveSector e s = .ok (b, e') s' := by
  by_cases he : e = 0
  · subst he
    have hneeds : needs s [(0, 0)] n = [.data] := by
      rw [needs, TreeFormat.needs_leaf, if_pos ⟨rfl, hn⟩]
    constructor
    · intro hle
      rw [hneeds] at hle
      cases hfree : s.freeSectors with
      | nil =>
        rw [hfree] at hle
        cases hle
      | cons x rest =>
        obtain ⟨t, s', halloc, hwrite, hfresh⟩ := allocate_fresh h.ok hfree
        have hx : x ≠ 0 := (free_ne h.ok (by rw [hfree]; exact List.mem_cons_self)).1
        refine ⟨_, s', [x], ⟨x, rfl, ?_⟩, ?_⟩
        · rw [reserveSector, if_pos rfl, bind_of_ok halloc]
          dsimp only
          rw [bind_of_ok hwrite]
          rfl
        · refine ⟨.newLeaf hx hn hfresh.frame hfresh.blank, ?_, hfresh.ok, hfresh.free, ?_, hfresh.size,
            hfresh.file, hfresh.nodes, _, hfresh.notes, rfl, rfl, ?_, ?_⟩
          · rw [hneeds]
            rfl
          · intro y
            rw [hfresh.used]
            by_cases hy : y = x
            · simp [hy]
            · simp [hy]
          · simp
          · intro y hy
            exact .inl hy
    · intro hlt
      rw [hneeds] at hlt
      have hfree : s.freeSectors = [] := List.eq_nil_of_length_eq_zero (Nat.lt_one_iff.mp hlt)
      refine ⟨_, s.noted .exhausted, ⟨0, rfl, ?_⟩, ?_⟩
      · rw [reserveSector, if_pos rfl, bind_of_ok (freeMapAllocate_full hfree)]
        rfl
      · refine ⟨hfree, ?_, rfl, rfl, [.exhausted], rfl, ?_, rfl, by simp, ?_, ?_⟩
        · intro _
          rw [hneeds]
          exact ⟨rfl, rfl, rfl⟩
        · rw [hfree]
          rfl
        · intro x hx
          cases hx
        · intro hf
          rw [FailsAtIndex, hneeds, hfree] at hf
          cases hf
  · have hneeds : needs s [(0, e)] n = [] := by
      rw [needs, TreeFormat.needs_leaf, if_neg fun hand => he hand.1]
    constructor
    · intro _
      refine ⟨_, s, [], ⟨e, rfl, ?_⟩, .leaf he hn, ?_, h.ok, rfl, ?_, rfl, rfl, rfl, [], ?_, rfl, rfl,
        ?_, ?_⟩
      · rw [reserveSector, if_neg he]
        rfl
      · rw [hneeds]
        rfl
      · simp
      · rw [List.append_nil]
      · exact List.not_mem_nil
      · intro x hx
        cases hx
    · intro hlt
      rw [hneeds] at hlt
      cases hlt

/-! ## The entries of an array -/

/-- Sectors behind the end of a part of the index are not asked for. -/
theorem Attempt.of_min (h : Attempt s rs (min n (indexFormat.capacity rs)) P) : Attempt s rs n P := by
  have hneeds : needs s rs (min n (indexFormat.capacity rs)) = needs s rs n := TreeFormat.needs_min
  constructor
  · intro hle
    obtain ⟨rs', s', new, hP, hres⟩ := h.enough (by rwa [hneeds])
    refine ⟨rs', s', new, hP, { hres with
      count := by rw [hres.count, hneeds]
      grown := { hres.grown with filled := ?_ } }⟩
    intro c hc
    have hshare : min (max c (min n (indexFormat.capacity rs))) (indexFormat.capacity rs') =
        min (max c n) (indexFormat.capacity rs') := by
      rw [TreeFormat.capacity_congr hres.grown.levels]
      omega
    have hfilled := hres.grown.filled c hc
    rwa [← TreeFormat.filled_min, hshare, TreeFormat.filled_min] at hfilled
  · intro hlt
    obtain ⟨rs', s', hP, hexh⟩ := h.short (by rwa [hneeds])
    have hindex : FailsAtIndex s rs (min n (indexFormat.capacity rs)) ↔ FailsAtIndex s rs n := by
      rw [FailsAtIndex, hneeds, FailsAtIndex]
    have hfull := hexh.full
    have hnotes := hexh.notes
    rw [hneeds] at hfull
    simp only [hindex] at hnotes
    exact ⟨rs', s', hP, hexh.free, hfull, hexh.size, hexh.file, hnotes⟩

theorem divRoundUp_zero {unit : Nat} (hunit : 0 < unit) : divRoundUp 0 unit = 0 :=
  Nat.div_eq_of_lt (by omega)

theorem divRoundUp_pos {unit : Nat} (hunit : 0 < unit) (hn : 0 < n) :
    divRoundUp n unit = divRoundUp (n - min n unit) unit + 1 := by
  unfold divRoundUp
  by_cases hle : n ≤ unit
  · have hone : (n + unit - 1) / unit = 1 := by
      rw [Nat.div_eq_iff hunit]
      omega
    rw [hone, Nat.min_eq_left hle, Nat.sub_self, Nat.div_eq_of_lt (by omega)]
  · have hsum : n + unit - 1 = n - min n unit + unit - 1 + unit := by omega
    rw [hsum, Nat.add_div_right _ hunit]

/-- The loop over the entries, if the attempt for each has its outcome. -/
theorem reserveEntries_spec {unit : Nat} {reserve : Sector → Nat → StoreM (Bool × Sector)}
    (hunit : unit = indexFormat.fanOut ^ k)
    (hreserve : ∀ s e n, 0 < n → n ≤ unit → Ready s [(k, e)] → Attempt s [(k, e)] n fun b rs' s' =>
      ∃ e', rs' = [(k, e')] ∧ reserve e n s = .ok (b, e') s')
    {es : List Sector} (h : Ready s (es.map fun e => (k, e))) (hn : n ≤ es.length * unit) :
    Attempt s (es.map fun e => (k, e)) n fun b rs' s' => ∃ es' m, rs' = es'.map (fun e => (k, e)) ∧
      (b = true → m = 0) ∧
      reserveEntries reserve unit (divRoundUp n unit) es n s = .ok (b, es', m) s' := by
  have hpos : 0 < unit := by rw [hunit]; exact TreeFormat.pos_pow
  have hzero : ∀ (s : Store) (es : List Sector), s.FreeMapOk →
      Attempt s (es.map fun e => (k, e)) 0 fun b rs' s' => ∃ es' m, rs' = es'.map (fun e => (k, e)) ∧
        (b = true → m = 0) ∧
        reserveEntries reserve unit (divRoundUp 0 unit) es 0 s = .ok (b, es', m) s' := by
    intro s es hok
    refine .refl hok ⟨es, 0, rfl, fun _ => rfl, ?_⟩
    rw [divRoundUp_zero hpos]
    rfl
  induction es generalizing s n with
  | nil =>
    have hn0 : n = 0 := by
      rw [List.length_nil, Nat.zero_mul] at hn
      omega
    subst hn0
    exact hzero s [] h.ok
  | cons e es ih =>
    by_cases hn0 : n = 0
    · subst hn0
      exact hzero s (e :: es) h.ok
    have hn' : 0 < n := Nat.pos_of_ne_zero hn0
    have hcap : indexFormat.capacity [(k, e)] = unit := by
      rw [TreeFormat.capacity_cons, TreeFormat.capacity_nil, hunit, Nat.add_zero]
    have hsub : n - min n unit = n - unit := by omega
    rw [divRoundUp_pos hpos hn', hsub]
    have hready : Ready s ([(k, e)] ++ es.map fun e => (k, e)) := h
    have hhead := hreserve s e (min n unit) (by omega) (by omega) hready.left
    nth_rewrite 1 [← hcap] at hhead
    refine Attempt.append hready hhead.of_min ?_ ?_
    · intro rs' s' hres
      obtain ⟨e', rfl, hrun⟩ := hres
      refine ⟨e' :: es, n, rfl, nofun, ?_⟩
      rw [reserveEntries, bind_of_ok hrun]
      rfl
    · intro rs₁' s₁ hres hready₁
      obtain ⟨e', rfl, hrun⟩ := hres
      rw [hcap]
      rw [List.length_cons, Nat.add_mul, Nat.one_mul] at hn
      refine (ih hready₁ (by omega)).imp ?_
      intro b rs' s' hrest
      obtain ⟨es', m, rfl, hm, hloop⟩ := hrest
      refine ⟨e' :: es', m, rfl, hm, ?_⟩
      rw [reserveEntries, bind_of_ok hrun]
      dsimp only
      rw [if_pos rfl, hsub, bind_of_ok hloop]
      rfl

/-! ## Below an index block -/

/-- Writing the entries back completes growth below an index block that is there. -/
theorem Reserved.node {es : List Sector} (he : e ≠ 0) (hn : 0 < n) (h : Ready s [(k + 1, e)])
    (g : Reserved s s' (indexFormat.below s.disk k e) (es.map fun c => (k, c)) n new) :
    Reserved s ((s'.noted (.wrote e)).write e (indirectBlockSector es)) [(k + 1, e)] [(k + 1, e)] n
      new := by
  have hmem : e ∈ indexFormat.nodes s.disk [(k + 1, e)] := by
    rw [TreeFormat.nodes_node, if_neg he]
    exact List.mem_append_left _ (List.mem_singleton_self e)
  have hout : e ∉ s'.freeMapNodes := by
    rw [g.nodes]
    exact h.outside e hmem
  have hdisk : ∀ y ∈ s'.freeMapNodes,
      ((s'.noted (.wrote e)).write e (indirectBlockSector es)).disk y = s'.disk y :=
    fun y hy => Function.update_of_ne (ne_of_mem_of_not_mem hy hout) _ _
  have hsame : ((s'.noted (.wrote e)).write e (indirectBlockSector es)).freeMapNodes =
      s'.freeMapNodes := freeMapNodes_congr rfl hdisk
  obtain ⟨ns, hns, hall, hrel, hexh, hwrote⟩ := g.notes
  refine ⟨g.grown.node he hn (h.apart g.free), ?_, ?_, g.free, g.used, g.size, g.file, ?_,
    ns ++ [.wrote e], ?_, ?_, ?_, ?_, ?_⟩
  · rw [g.count, needs, needs, TreeFormat.needs_node, if_neg fun hand => he hand.1, List.nil_append]
  · exact g.ok.congr rfl rfl hdisk g.ok.zero_used g.ok.inRange g.ok.nodes_used
  · rw [hsame, g.nodes]
  · simp [hns]
  · rw [allocated_append, hall]
    exact List.append_nil _
  · rw [released_append, hrel]
    rfl
  · simpa using hexh
  · intro x hx
    rw [wrote_append, List.mem_append] at hx
    rw [TreeFormat.inner_node, if_neg he, List.singleton_append, List.mem_cons]
    cases hx with
    | inl hx => exact (hwrote x hx).imp id .inr
    | inr hx => exact .inr (.inl (List.mem_singleton.mp hx))

theorem Exhausted.node (he : e ≠ 0) (g : Exhausted s s' (indexFormat.below s.disk k e) rs' n) :
    Exhausted s s' [(k + 1, e)] [(k + 1, e)] n := by
  have hneeds : needs s [(k + 1, e)] n = needs s (indexFormat.below s.disk k e) n := by
    rw [needs, TreeFormat.needs_node, if_neg fun hand => he hand.1, List.nil_append]
  have hindex : FailsAtIndex s [(k + 1, e)] n ↔ FailsAtIndex s (indexFormat.below s.disk k e) n := by
    rw [FailsAtIndex, hneeds, FailsAtIndex]
  refine ⟨g.free, ?_, g.size, g.file, ?_⟩
  · intro hnil
    obtain ⟨-, hused, hdisk⟩ := g.full hnil
    rw [hneeds]
    exact ⟨rfl, hused, hdisk⟩
  · obtain ⟨ns, hns, hall, hrel, hexh, hwrote, hzero⟩ := g.notes
    refine ⟨ns, hns, hall, hrel, hexh, ?_, ?_⟩
    · intro x hx
      rw [TreeFormat.inner_node, List.mem_append, hindex]
      exact (hwrote x hx).imp id (.imp .inr id)
    · rw [hindex]
      exact hzero

/-- The forest below an index block of zeros. -/
theorem ready_below (hok : s.FreeMapOk) (hzero : ∀ r ∈ rs, r.2 = 0) : Ready s rs := by
  have hnodes : indexFormat.nodes s.disk rs = [] := TreeFormat.nodes_of_zero hzero
  refine ⟨hok, ?_, ?_, ?_⟩
  · rw [hnodes]
    exact List.nodup_nil
  all_goals
    rw [hnodes]
    intro x hx
    cases hx

theorem inner_of_zero (hzero : ∀ r ∈ rs, r.2 = 0) : indexFormat.inner s.disk rs = [] := by
  have hnodes : indexFormat.nodes s.disk rs = [] := TreeFormat.nodes_of_zero hzero
  exact List.eq_nil_of_subset_nil (hnodes ▸ TreeFormat.inner_subset_nodes)

theorem needs_of_zero (hzero : ∀ r ∈ rs, r.2 = 0) : needs s' rs n = needs s rs n := by
  apply TreeFormat.needs_congr
  intro x hx
  rw [inner_of_zero hzero] at hx
  cases hx

theorem zero_of_mem_below {disk : Sector → Block} {r : Nat × Sector}
    (hr : r ∈ indexFormat.below disk k 0) : r.2 = 0 := by
  rw [TreeFormat.below_zero] at hr
  rw [List.eq_of_mem_replicate hr]

theorem Fresh.below (g : Fresh s s' x) (hx : x ≠ 0) :
    indexFormat.below s'.disk k x = indexFormat.below s.disk k 0 := by
  rw [TreeFormat.below_blank hx g.blank, TreeFormat.below_zero]

theorem needs_index (hn : 0 < n) :
    needs s [(k + 1, 0)] n = .index :: needs s (indexFormat.below s.disk k 0) n := by
  rw [needs, TreeFormat.needs_node, if_pos ⟨rfl, hn⟩]
  rfl

/-- Writing the entries back completes growth below a new index block. -/
theorem Fresh.reserved {es : List Sector} (h : s.FreeMapOk) (hn : 0 < n) (f : Fresh s s₁ x)
    (g : Reserved s₁ s' (indexFormat.below s₁.disk k x) (es.map fun c => (k, c)) n new) :
    Reserved s ((s'.noted (.wrote x)).write x (indirectBlockSector es)) [(k + 1, 0)] [(k + 1, x)] n
      (x :: new) := by
  obtain ⟨hx, hnode⟩ := free_ne h (x := x) (by rw [f.free]; exact List.mem_cons_self)
  have hzero : ∀ r ∈ indexFormat.below s₁.disk k x, r.2 = 0 := by
    rw [f.below hx]
    exact fun r => zero_of_mem_below
  have hnew : x ∉ new := by
    have hdistinct := freeSectors_nodup s
    rw [f.free, g.free, List.nodup_cons, List.mem_append, not_or] at hdistinct
    exact hdistinct.1.1
  have hout : x ∉ s'.freeMapNodes := by
    rw [g.nodes, f.nodes]
    exact hnode
  have hdisk : ∀ y ∈ s'.freeMapNodes,
      ((s'.noted (.wrote x)).write x (indirectBlockSector es)).disk y = s'.disk y :=
    fun y hy => Function.update_of_ne (ne_of_mem_of_not_mem hy hout) _ _
  have hsame : ((s'.noted (.wrote x)).write x (indirectBlockSector es)).freeMapNodes =
      s'.freeMapNodes := freeMapNodes_congr rfl hdisk
  have hgrown := g.grown
  rw [f.nodes] at hgrown
  obtain ⟨ns, hns, hall, hrel, hexh, hwrote⟩ := g.notes
  refine ⟨.newNode hx hn f.frame f.blank hgrown hnew, ?_, ?_, ?_, ?_, g.size.trans f.size,
    g.file.trans f.file, ?_, [.allocated x, .wrote x] ++ ns ++ [.wrote x], ?_, ?_, ?_, ?_, ?_⟩
  · rw [needs_index hn, List.length_cons, List.length_cons, g.count, f.below hx]
    rw [needs_of_zero fun r => zero_of_mem_below]
  · exact g.ok.congr rfl rfl hdisk g.ok.zero_used g.ok.inRange g.ok.nodes_used
  · rw [f.free, g.free]
    rfl
  · intro y
    rw [Store.write_used, noted_used, g.used y, f.used, List.mem_cons]
    by_cases hy : y = x
    · simp [hy]
    · simp [hy]
  · rw [hsame, g.nodes, f.nodes]
  · simp [hns, f.notes]
  · rw [allocated_append, allocated_append, hall]
    simp [allocated]
  · rw [released_append, released_append, hrel]
    rfl
  · simpa using hexh
  · intro y hy
    rw [wrote_append, wrote_append, List.mem_append, List.mem_append] at hy
    left
    rw [List.mem_cons]
    rcases hy with (hy | hy) | hy
    · exact .inl (List.mem_singleton.mp hy)
    · have hor := hwrote y hy
      rw [inner_of_zero hzero] at hor
      exact hor.elim .inr fun hin => by cases hin
    · exact .inl (List.mem_singleton.mp hy)

theorem Fresh.exhausted (h : s.FreeMapOk) (hn : 0 < n) (f : Fresh s s₁ x)
    (g : Exhausted s₁ s' (indexFormat.below s₁.disk k x) rs' n) :
    Exhausted s s' [(k + 1, 0)] [(k + 1, x)] n := by
  obtain ⟨hx, -⟩ := free_ne h (x := x) (by rw [f.free]; exact List.mem_cons_self)
  have hzero : ∀ r ∈ indexFormat.below s₁.disk k x, r.2 = 0 := by
    rw [f.below hx]
    exact fun r => zero_of_mem_below
  have hindex : FailsAtIndex s [(k + 1, 0)] n ↔
      FailsAtIndex s₁ (indexFormat.below s₁.disk k x) n := by
    have hneeds : needs s₁ (indexFormat.below s.disk k 0) n = needs s (indexFormat.below s.disk k 0) n :=
      needs_of_zero fun r => zero_of_mem_below
    rw [FailsAtIndex, FailsAtIndex, needs_index hn, f.below hx, hneeds, f.free, List.length_cons,
      List.getElem?_cons_succ]
  refine ⟨g.free, ?_, g.size.trans f.size, g.file.trans f.file, ?_⟩
  · intro hnil
    rw [f.free] at hnil
    cases hnil
  · obtain ⟨ns, hns, hall, hrel, hexh, hwrote, hzero₀⟩ := g.notes
    refine ⟨[.allocated x, .wrote x] ++ ns, ?_, ?_, ?_, List.mem_append_right _ hexh, ?_, ?_⟩
    · simp [hns, f.notes]
    · rw [allocated_append, hall, f.free]
      rfl
    · rw [released_append, hrel]
      rfl
    · intro y hy
      rw [wrote_append, List.mem_append] at hy
      rw [f.free, List.mem_cons, hindex]
      cases hy with
      | inl hy => exact .inl (.inl (List.mem_singleton.mp hy))
      | inr hy =>
        have hor := hwrote y hy
        rw [inner_of_zero hzero] at hor
        exact hor.imp .inr (.imp (fun hin => by cases hin) id)
    · intro hf
      rw [wrote_append]
      exact List.mem_append_right _ (hzero₀ (hindex.mp hf))

/-! ## A full disk -/

/-- The store after an index block could not be allocated: its zeros have gone to sector `0`. -/
def zeroed (s : Store) : Store := ((s.noted .exhausted).noted (.wrote 0)).write 0 zeros

theorem zeroed_ok (h : s.FreeMapOk) : (zeroed s).FreeMapOk := by
  refine h.congr rfl rfl ?_ h.zero_used h.inRange h.nodes_used
  intro y hy
  exact Function.update_of_ne (ne_of_mem_of_not_mem hy zero_not_mem_freeMapNodes) _ _

theorem reserveIndexBlock_full (h : s.FreeMapOk) (hfree : s.freeSectors = []) :
    reserveIndexBlock 0 s = .ok 0 (zeroed s) := by
  rw [reserveIndexBlock, if_pos rfl, bind_of_ok (freeMapAllocate_full hfree)]
  rw [Option.getD_none,
    bind_of_ok (reserveWrite_of_lt (s := s.noted .exhausted) (h.inRange 0 h.zero_used))]
  rfl

theorem exhausted_zeroed (hn : 0 < n) (hfree : s.freeSectors = [])
    (g : Exhausted (zeroed s) s' (indexFormat.below s.disk k 0) rs' n) :
    Exhausted s s' [(k + 1, 0)] [(k + 1, 0)] n := by
  have hfails : FailsAtIndex s [(k + 1, 0)] n := by
    rw [FailsAtIndex, needs_index hn, hfree]
    rfl
  refine ⟨g.free, ?_, g.size, g.file, ?_⟩
  · intro _
    obtain ⟨-, hused, hdisk⟩ := g.full hfree
    refine ⟨rfl, hused, ?_⟩
    rw [needs_index hn, List.head?_cons, if_pos rfl, hdisk]
    split_ifs
    · exact Function.update_idem _ _ _
    · rfl
  · obtain ⟨ns, hns, hall, hrel, hexh, hwrote, -⟩ := g.notes
    refine ⟨[.exhausted, .wrote 0] ++ ns, ?_, ?_, ?_, List.mem_append_right _ hexh, ?_, ?_⟩
    · rw [hns]
      simp [zeroed]
    · rw [allocated_append, hall]
      rfl
    · rw [released_append, hrel]
      rfl
    · intro y hy
      rw [wrote_append, List.mem_append] at hy
      cases hy with
      | inl hy => exact .inr (.inr ⟨List.mem_singleton.mp hy, hfails⟩)
      | inr hy =>
        have hor := hwrote y hy
        rw [inner_of_zero fun r => zero_of_mem_below] at hor
        refine hor.imp id ?_
        intro hor
        exact .inr ⟨hor.elim (fun hin => by cases hin) And.left, hfails⟩
    · intro _
      rw [wrote_append]
      exact List.mem_append_left _ (List.mem_singleton_self 0)

/-! ## `inode_reserve_indirect` -/

theorem indirectUnit_eq (hk : k + 1 ≤ 2) : indirectUnit (k + 1) = indexFormat.fanOut ^ k := by
  match k, hk with
  | 0, _ => rfl
  | 1, _ => rfl

theorem below_ofRead (h : e ≠ 0) :
    indexFormat.below s.disk k e = (blocks (s.disk e)).map fun c => (k, c) := by
  rw [TreeFormat.below, TreeFormat.children_of_ne h]
  rfl

/-- `inode_reserve_indirect` from the read of an index block on. -/
theorem reserveBelow_run {unit : Nat} {reserve : Sector → Nat → StoreM (Bool × Sector)}
    {es : List Sector} {m : Nat} {b : Bool} (he : e < s.size)
    (hsize : b = true → s'.size = s.size) (hm : b = true → m = 0)
    (hloop : reserveEntries reserve unit (divRoundUp n unit) (blocks (s.disk e)) n s =
      .ok (b, es, m) s') :
    reserveBelow reserve unit e n s = .ok (b, e)
      (if b then (s'.noted (.wrote e)).write e (indirectBlockSector es) else s') := by
  rw [reserveBelow, bind_of_ok (bufferCacheRead_of_lt he), bind_of_ok hloop]
  dsimp only
  cases b with
  | false => rfl
  | true =>
    rw [if_pos rfl, bind_of_ok (assert_of (hm rfl)), bind_of_ok (reserveWrite_of_lt (by rwa [hsize rfl]))]
    rfl

theorem Ready.below (he : e ≠ 0) (h : Ready s [(k + 1, e)]) :
    Ready s (indexFormat.below s.disk k e) := by
  obtain ⟨hok, hnodup, hused, hout⟩ := h
  rw [TreeFormat.nodes_node, if_neg he] at hnodup hused hout
  exact ⟨hok, (List.nodup_append.mp hnodup).2.1, fun x hx => hused x (List.mem_append_right _ hx),
    fun x hx => hout x (List.mem_append_right _ hx)⟩

/-- The attempt of `inode_reserve_indirect`, whatever is there already. -/
theorem inodeReserveIndirect_spec (hk : k ≤ 2) (hn : 0 < n) (hle : n ≤ indexFormat.fanOut ^ k)
    (h : Ready s [(k, e)]) : Attempt s [(k, e)] n fun b rs' s' =>
      ∃ e', rs' = [(k, e')] ∧ inodeReserveIndirect k e n s = .ok (b, e') s' := by
  induction k generalizing s e n with
  | zero => exact reserveSector_spec h hn
  | succ k ih =>
    have hunit : indirectUnit (k + 1) = indexFormat.fanOut ^ k := indirectUnit_eq hk
    have hreserve : ∀ s e n, 0 < n → n ≤ indirectUnit (k + 1) → Ready s [(k, e)] →
        Attempt s [(k, e)] n fun b rs' s' =>
          ∃ e', rs' = [(k, e')] ∧ inodeReserveIndirect k e n s = .ok (b, e') s' :=
      fun s e n hn hle h => ih (by omega) hn (hunit ▸ hle) h
    have hrun : ∀ {e' t b t'}, reserveIndexBlock e s = .ok e' t →
        reserveBelow (inodeReserveIndirect k) (indirectUnit (k + 1)) e' n t = .ok (b, e') t' →
        inodeReserveIndirect (k + 1) e n s = .ok (b, e') t' := by
      intro e' t b t' hindex hbelow
      rw [inodeReserveIndirect, bind_of_ok (assert_of hk), bind_of_ok hindex]
      exact hbelow
    -- the loop below a block whose entries are those of the forest below it
    have hloop : ∀ t x rs, rs = (blocks (t.disk x)).map (fun c => (k, c)) → Ready t rs →
        Attempt t rs n fun b rs' t' => ∃ es' m, rs' = es'.map (fun c => (k, c)) ∧
          (b = true → m = 0) ∧ reserveEntries (inodeReserveIndirect k) (indirectUnit (k + 1))
            (divRoundUp n (indirectUnit (k + 1))) (blocks (t.disk x)) n t = .ok (b, es', m) t' := by
      intro t x rs hrs hready
      subst hrs
      apply reserveEntries_spec hunit hreserve hready
      rw [length_blocks, hunit]
      rw [Nat.pow_succ, Nat.mul_comm] at hle
      exact hle
    by_cases he : e = 0
    · subst he
      cases hfree : s.freeSectors with
      | nil =>
        have hzeros : indexFormat.below s.disk k 0 =
            (blocks ((zeroed s).disk 0)).map fun c => (k, c) := by
          rw [zeroed, Store.write_disk, Function.update_self, blocks_zeros, TreeFormat.below_zero,
            List.map_replicate]
          rfl
        have hattempt := hloop (zeroed s) 0 _ hzeros
          (ready_below (zeroed_ok h.ok) fun r => zero_of_mem_below)
        constructor
        · intro hlen
          rw [hfree, needs_index hn] at hlen
          cases hlen
        · intro _
          have hpos : (zeroed s).freeSectors.length <
              (needs (zeroed s) (indexFormat.below s.disk k 0) n).length := by
            have hnil : (zeroed s).freeSectors = [] := hfree
            rw [hnil]
            apply List.length_pos_of_ne_nil
            rw [TreeFormat.below_zero, show indexFormat.fanOut = 127 + 1 from rfl,
              List.replicate_succ, needs, TreeFormat.needs_cons]
            cases k with
            | zero => simp [TreeFormat.needs_leaf, hn]
            | succ k => simp [TreeFormat.needs_node, hn]
          obtain ⟨rs', s', ⟨es', m, rfl, hm, hes⟩, hexh⟩ := hattempt.short hpos
          refine ⟨_, s', ⟨0, rfl, ?_⟩, exhausted_zeroed hn hfree hexh⟩
          exact hrun (reserveIndexBlock_full h.ok hfree)
            (reserveBelow_run (h.ok.inRange 0 h.ok.zero_used) (by simp) hm hes)
      | cons x rest =>
        obtain ⟨t₀, t, halloc, hwrite, hfresh⟩ := allocate_fresh h.ok hfree
        have hmem : x ∈ s.freeSectors := by rw [hfree]; exact List.mem_cons_self
        have hx : x ≠ 0 := (free_ne h.ok hmem).1
        have hlt : x < t.size := by
          rw [hfresh.size]
          exact (mem_freeSectors.mp hmem).1
        have hindex : reserveIndexBlock 0 s = .ok x t := by
          rw [reserveIndexBlock, if_pos rfl, bind_of_ok halloc, Option.getD_some, bind_of_ok hwrite]
          rfl
        have hattempt := hloop t x _ (below_ofRead hx) (ready_below hfresh.ok (by
          rw [hfresh.below hx]
          exact fun r => zero_of_mem_below))
        have hneeds : needs s [(k + 1, 0)] n =
            .index :: needs t (indexFormat.below t.disk k x) n := by
          rw [needs_index hn, hfresh.below hx]
          congr 1
          exact needs_of_zero fun r => zero_of_mem_below
        constructor
        · intro hlen
          rw [hneeds, hfresh.free, List.length_cons, List.length_cons] at hlen
          obtain ⟨rs', s', new, ⟨es', m, rfl, hm, hes⟩, hres⟩ := hattempt.enough (by omega)
          refine ⟨_, _, _, ⟨x, rfl, ?_⟩, hfresh.reserved h.ok hn hres⟩
          exact hrun hindex (reserveBelow_run hlt (fun _ => hres.size) hm hes)
        · intro hlen
          rw [hneeds, hfresh.free, List.length_cons, List.length_cons] at hlen
          obtain ⟨rs', s', ⟨es', m, rfl, hm, hes⟩, hexh⟩ := hattempt.short (by omega)
          refine ⟨_, s', ⟨x, rfl, ?_⟩, hfresh.exhausted h.ok hn hexh⟩
          exact hrun hindex (reserveBelow_run hlt (by simp) hm hes)
    · have hmem : e ∈ indexFormat.nodes s.disk [(k + 1, e)] := by
        rw [TreeFormat.nodes_node, if_neg he]
        exact List.mem_append_left _ (List.mem_singleton_self e)
      have hlt : e < s.size := h.ok.inRange e (h.used e hmem)
      have hindex : reserveIndexBlock e s = .ok e s := by
        rw [reserveIndexBlock, if_neg he]
        rfl
      have hneeds : needs s [(k + 1, e)] n = needs s (indexFormat.below s.disk k e) n := by
        rw [needs, TreeFormat.needs_node, if_neg fun hand => he hand.1, List.nil_append]
      have hattempt := hloop s e _ (below_ofRead he) (h.below he)
      constructor
      · intro hlen
        rw [hneeds] at hlen
        obtain ⟨rs', s', new, ⟨es', m, rfl, hm, hes⟩, hres⟩ := hattempt.enough hlen
        refine ⟨_, _, new, ⟨e, rfl, ?_⟩, hres.node he hn h⟩
        exact hrun hindex (reserveBelow_run hlt (fun _ => hres.size) hm hes)
      · intro hlen
        rw [hneeds] at hlen
        obtain ⟨rs', s', ⟨es', m, rfl, hm, hes⟩, hexh⟩ := hattempt.short hlen
        refine ⟨_, s', ⟨e, rfl, ?_⟩, hexh.node he⟩
        exact hrun hindex (reserveBelow_run hlt (by simp) hm hes)

/-! ## `inode_reserve` -/

/-- The result of `inode_reserve`: it fails an assertion where all that a file may have has been
reserved, but more is wanted. -/
def reserveResult (b : Bool) (n limit : Nat) (d : InodeDisk) (s : Store) :
    EStateM.Result Panic Store (Bool × InodeDisk) :=
  if b = true ∧ limit < n then .error .assertFailed s else .ok (b, d) s

theorem capacity_singleton {e : Sector} : indexFormat.capacity [(k, e)] = indexFormat.fanOut ^ k := by
  rw [TreeFormat.capacity_cons, TreeFormat.capacity_nil, Nat.add_zero]

variable {d : InodeDisk}

theorem reserveDoublyIndirect_spec (hn : 0 < n) (h : Ready s [(2, d.doublyIndirectBlock)]) :
    Attempt s [(2, d.doublyIndirectBlock)] n fun b rs' s' => ∃ e', rs' = [(2, e')] ∧
      reserveDoublyIndirect d n s = reserveResult b n (indirectBlocksPerSector * indirectBlocksPerSector)
        { d with doublyIndirectBlock := e' } s' := by
  apply Attempt.of_min
  rw [capacity_singleton]
  have hcap : indexFormat.fanOut ^ 2 = indirectBlocksPerSector * indirectBlocksPerSector := rfl
  rw [hcap]
  have hpos : 0 < indirectBlocksPerSector * indirectBlocksPerSector := by decide
  refine (inodeReserveIndirect_spec (Nat.le_refl 2) (by omega) (Nat.min_le_right _ _) h).imp ?_
  intro b rs' s' hres
  obtain ⟨e', rfl, hrun⟩ := hres
  rw [hcap] at hrun
  refine ⟨e', rfl, ?_⟩
  rw [reserveDoublyIndirect, bind_of_ok hrun, reserveResult]
  dsimp only
  cases b with
  | false => rfl
  | true =>
    rw [if_pos rfl]
    by_cases hle : n - min n (indirectBlocksPerSector * indirectBlocksPerSector) = 0
    · rw [if_pos hle, if_neg (by omega)]
      rfl
    · rw [if_neg hle, bind_of_error (assert_of_not hle), if_pos ⟨rfl, by omega⟩]

theorem reserveIndirect_spec (hn : 0 < n)
    (h : Ready s ([(1, d.indirectBlock)] ++ [(2, d.doublyIndirectBlock)])) :
    Attempt s ([(1, d.indirectBlock)] ++ [(2, d.doublyIndirectBlock)]) n fun b rs' s' =>
      ∃ i j, rs' = [(1, i)] ++ [(2, j)] ∧ reserveIndirect d n s = reserveResult b n
        (indirectBlocksPerSector + indirectBlocksPerSector * indirectBlocksPerSector)
        { d with indirectBlock := i, doublyIndirectBlock := j } s' := by
  have hcap : indexFormat.capacity [(1, d.indirectBlock)] = indirectBlocksPerSector := rfl
  have hpos : 0 < indirectBlocksPerSector := by decide
  have hfirst : Attempt s [(1, d.indirectBlock)] n fun b rs' s' => ∃ e', rs' = [(1, e')] ∧
      inodeReserveIndirect 1 d.indirectBlock (min n indirectBlocksPerSector) s = .ok (b, e') s' := by
    apply Attempt.of_min
    rw [hcap]
    exact inodeReserveIndirect_spec (by decide) (by omega) (Nat.min_le_right _ _) h.left
  refine Attempt.append h hfirst ?_ ?_
  · intro rs' s' hres
    obtain ⟨i, rfl, hrun⟩ := hres
    refine ⟨i, d.doublyIndirectBlock, rfl, ?_⟩
    rw [reserveIndirect, bind_of_ok hrun, reserveResult, if_neg nofun]
    rfl
  · intro rs₁' s₁ hres hready
    obtain ⟨i, rfl, hrun⟩ := hres
    rw [hcap]
    by_cases hle : n - min n indirectBlocksPerSector = 0
    · have hzero : n - indirectBlocksPerSector = 0 := by omega
      rw [hzero]
      refine .refl hready.ok ⟨i, d.doublyIndirectBlock, rfl, ?_⟩
      rw [reserveIndirect, bind_of_ok hrun, reserveResult]
      dsimp only
      rw [if_pos rfl, if_pos hle, if_neg (by omega)]
      rfl
    · refine (reserveDoublyIndirect_spec (d := { d with indirectBlock := i }) (by omega) hready).imp ?_
      intro b rs' s' hrest
      obtain ⟨j, rfl, hrun'⟩ := hrest
      refine ⟨i, j, rfl, ?_⟩
      have hsub : n - min n indirectBlocksPerSector = n - indirectBlocksPerSector := by omega
      rw [reserveIndirect, bind_of_ok hrun]
      dsimp only
      rw [if_pos rfl, if_neg hle, hsub, hrun', reserveResult, reserveResult]
      congr 1
      simp only [eq_iff_iff]
      refine and_congr_right fun _ => ?_
      omega

theorem roots_eq : d.roots = d.directBlocks.map (fun e => (0, e)) ++
    ([(1, d.indirectBlock)] ++ [(2, d.doublyIndirectBlock)]) := by
  rw [roots, List.append_assoc]

/-- The structures that differ from `d` in the index alone. -/
def SameInode (d d' : InodeDisk) : Prop :=
  d' = { d with
    directBlocks := d'.directBlocks
    indirectBlock := d'.indirectBlock
    doublyIndirectBlock := d'.doublyIndirectBlock }

/-- The attempt of `inode_reserve` for a number of sectors. -/
theorem reserveSectors_spec (hd : d.Proper) (h : Ready s d.roots) :
    Attempt s d.roots n fun b rs' s' => ∃ d', rs' = d'.roots ∧ SameInode d d' ∧
      reserveSectors d n s = reserveResult b n maxSectors d' s' := by
  rw [roots_eq] at h ⊢
  have hlen : d.directBlocks.length = directBlocksCount := hd
  have hcap : indexFormat.capacity (d.directBlocks.map fun e => (0, e)) = directBlocksCount := by
    rw [TreeFormat.capacity_map, hlen]
    rfl
  have hdiv : divRoundUp (min n directBlocksCount) 1 = min n directBlocksCount := by
    rw [divRoundUp, Nat.add_sub_cancel, Nat.div_one]
  have hfirst : Attempt s (d.directBlocks.map fun e => (0, e)) n fun b rs' s' =>
      ∃ es' m, rs' = es'.map (fun e => (0, e)) ∧
        reserveEntries (fun entry _ => reserveSector entry) 1 (min n directBlocksCount) d.directBlocks
          (min n directBlocksCount) s = .ok (b, es', m) s' := by
    apply Attempt.of_min
    rw [hcap]
    have hloop : Attempt s (d.directBlocks.map fun e => (0, e)) (min n directBlocksCount)
        fun b rs' s' => ∃ es' m, rs' = es'.map (fun e => (0, e)) ∧ (b = true → m = 0) ∧
          reserveEntries (fun entry _ => reserveSector entry) 1
            (divRoundUp (min n directBlocksCount) 1) d.directBlocks (min n directBlocksCount) s =
              .ok (b, es', m) s' := by
      have hunit : 1 = indexFormat.fanOut ^ 0 := rfl
      refine reserveEntries_spec hunit ?_ h.left ?_
      · intro s e n hn _ hready
        exact reserveSector_spec hready hn
      · rw [hlen]
        omega
    rw [hdiv] at hloop
    refine hloop.imp ?_
    intro b rs' s' hres
    obtain ⟨es', m, hrs, -, hrun⟩ := hres
    exact ⟨es', m, hrs, hrun⟩
  refine Attempt.append h hfirst ?_ ?_
  · intro rs' s' hres
    obtain ⟨es, m, rfl, hrun⟩ := hres
    refine ⟨{ d with directBlocks := es }, (List.append_assoc _ _ _).symm, rfl, ?_⟩
    rw [reserveSectors, bind_of_ok hrun, reserveResult, if_neg nofun]
    rfl
  · intro rs₁' s₁ hres hready
    obtain ⟨es, m, rfl, hrun⟩ := hres
    rw [hcap]
    by_cases hle : n - min n directBlocksCount = 0
    · have hzero : n - directBlocksCount = 0 := by omega
      have hmax : ¬ maxSectors < n := by
        unfold maxSectors
        omega
      rw [hzero]
      refine .refl hready.ok ⟨{ d with directBlocks := es }, (List.append_assoc _ _ _).symm, rfl, ?_⟩
      rw [reserveSectors, bind_of_ok hrun, reserveResult]
      dsimp only
      rw [if_pos rfl, if_pos hle, if_neg fun hand => hmax hand.2]
      rfl
    · refine (reserveIndirect_spec (d := { d with directBlocks := es }) (by omega) hready).imp ?_
      intro b rs' s' hrest
      obtain ⟨i, j, rfl, hrun'⟩ := hrest
      refine ⟨{ d with directBlocks := es, indirectBlock := i, doublyIndirectBlock := j },
        (List.append_assoc _ _ _).symm, rfl, ?_⟩
      have hsub : n - min n directBlocksCount = n - directBlocksCount := by omega
      rw [reserveSectors, bind_of_ok hrun]
      dsimp only
      rw [if_pos rfl, if_neg hle, hsub, hrun', reserveResult, reserveResult]
      congr 1
      simp only [eq_iff_iff]
      refine and_congr_right fun _ => ?_
      unfold maxSectors
      omega

/-! ## The number of sectors -/

theorem toNat_toUInt32 (x : Int32) : (x.toUInt32.toNat : Int) = x.toInt % 2 ^ 32 := by
  have hint : x.toInt = (x.toUInt32.toNat : Int).bmod (2 ^ 32) := BitVec.toInt_eq_toNat_bmod x.toBitVec
  have hlt := x.toUInt32.toNat_lt
  rw [hint, Int.bmod_def]
  split_ifs <;> omega

theorem roundedUp (x : Int32) : (x + 512 - 1).toInt = (x.toInt + 511).bmod (2 ^ 32) := by
  rw [Int32.toInt_sub, Int32.toInt_add]
  have h512 : (512 : Int32).toInt = 512 := by decide
  have h1 : (1 : Int32).toInt = 1 := by decide
  rw [h512, h1, Int.bmod_sub_bmod]
  congr 1
  omega

/-- The number of sectors of a file, as long as the computation does not overflow. -/
theorem bytesToSectors_eq {x : Int32} (h : 0 ≤ x.toInt) (hle : x.toInt ≤ 2 ^ 31 - 512) :
    bytesToSectors x = (x.toInt.toNat + 511) / 512 := by
  have hsum : (x + 512 - 1).toInt = x.toInt + 511 := by
    rw [roundedUp, Int.bmod_def]
    split_ifs <;> omega
  have h512 : (512 : Int32).toInt = 512 := by decide
  have hdiv : ((x + 512 - 1) / 512).toInt = (x.toInt + 511) / 512 := by
    rw [Int32.toInt_div_of_ne_right _ _ (by decide), hsum, h512, Int.tdiv_eq_ediv_of_nonneg (by omega)]
  have hnat := toNat_toUInt32 ((x + 512 - 1) / 512)
  rw [hdiv] at hnat
  unfold bytesToSectors
  omega

/-- Where it overflows, more sectors are asked for than a file may have. -/
theorem bytesToSectors_large {x : Int32} (h : 2 ^ 31 - 512 < x.toInt) :
    maxSectors < bytesToSectors x := by
  have hlt := x.toInt_lt
  have hsum : (x + 512 - 1).toInt = x.toInt + 511 - 2 ^ 32 := by
    rw [roundedUp, Int.bmod_def]
    split_ifs <;> omega
  have h512 : (512 : Int32).toInt = 512 := by decide
  have hsign : Int.sign 512 = 1 := rfl
  have hmax : maxSectors = 16635 := rfl
  have hnat := toNat_toUInt32 ((x + 512 - 1) / 512)
  rw [Int32.toInt_div_of_ne_right _ _ (by decide), hsum, h512, Int.tdiv_eq_ediv, hsign] at hnat
  rw [bytesToSectors, hmax]
  split_ifs at hnat <;> omega

end CSE130.Filesys
