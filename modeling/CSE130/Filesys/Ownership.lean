import CSE130.Filesys.Growth
import CSE130.Filesys.InodeTable

/-!
# The sectors of inodes

Every sector that belongs to the free map file, to an inode that exists or to one that is about to be
created is marked in the free map and belongs to one of them, at one place. Each call keeps this, and
the index of each file holds the blocks that the length of the file needs.
-/

namespace CSE130.Filesys

open CSE130.Library InodeDisk Store

/-- The inode that is stored in a sector. -/
def diskInode (s : Store) (x : Sector) : InodeDisk := ofSector (s.disk x)

/-- The sectors of an inode: its own, its index blocks and its data sectors. -/
def tree (s : Store) (x : Sector) : List Sector := x :: (diskInode s x).nodes s.disk

/-- The sectors of the free map file, of the inodes that exist, and those obtained for inodes. -/
def FileSystem.owned (fs : FileSystem) : List Sector :=
  fs.reserved ++ (0 :: fs.store.freeMapNodes) ++ fs.live.flatMap (tree fs.store)

/-- The sectors `owned` are different ones; they and the sectors in `base` are those that are marked in
the free map. -/
structure Owns (base : Sector → Prop) (s : Store) (owned : List Sector) : Prop where
  nodup : owned.Nodup
  used : ∀ x, s.used x = true ↔ x ∈ owned ∨ base x
  apart : ∀ x ∈ owned, ¬ base x

/-- An in-memory inode is that of an inode that exists, and has the bytes of its sector. -/
structure OpenOk (s : Store) (live : List Sector) (inode : Inode) : Prop where
  live : inode.sector ∈ live
  synced : s.disk inode.sector = inode.data.toSector
  proper : inode.data.Proper
  opened : 0 < inode.openCnt
  allowed : inode.denyWriteCnt = 0

/-- The list of open inodes is in order: it has one inode for each sector, at different addresses. -/
structure TableOk (s : Store) (live : List Sector) (openInodes : List (Nat × Inode)) (next : Nat) :
    Prop where
  opened : ∀ q ∈ openInodes, OpenOk s live q.2
  sectors : (openInodes.map fun q => q.2.sector).Nodup
  pointers : (openInodes.map Prod.fst).Nodup
  fresh : ∀ q ∈ openInodes, q.1 < next

/-- The invariant. The sectors in `base` are marked for other purposes. -/
structure FileSystem.Inv (base : Sector → Prop) (fs : FileSystem) : Prop where
  ok : fs.store.FreeMapOk
  file : fs.store.freeMapFile ≠ none
  owns : Owns base fs.store fs.owned
  sound : ∀ x ∈ fs.live, (diskInode fs.store x).Sound fs.store.disk fs.store.size
  stored : ∀ x ∈ fs.live, fs.store.disk x = (diskInode fs.store x).toSector
  table : TableOk fs.store fs.live fs.openInodes fs.nextInode

variable {base : Sector → Prop} {s s' : Store} {owned owned' new gone : List Sector} {x y : Sector}
  {fs fs' : FileSystem} {p next : Nat} {inode inode' : Inode} {live live' : List Sector}
  {l : List (Nat × Inode)}

/-! ## Sectors come and go -/

theorem Owns.grow (h : Owns base s owned) (hperm : owned'.Perm (owned ++ new))
    (hfree : s.freeSectors = new ++ s'.freeSectors)
    (hused : ∀ x, s'.used x = true ↔ s.used x = true ∨ x ∈ new) : Owns base s' owned' := by
  have hnew : ∀ x ∈ new, s.used x = false :=
    fun x hx => (mem_freeSectors.mp (by rw [hfree]; exact List.mem_append_left _ hx)).2
  have hdistinct := freeSectors_nodup s
  rw [hfree, List.nodup_append] at hdistinct
  refine ⟨?_, ?_, ?_⟩
  · rw [hperm.nodup_iff, List.nodup_append]
    refine ⟨h.nodup, hdistinct.1, ?_⟩
    intro x hx y hy heq
    subst heq
    have hmarked := (h.used x).mpr (.inl hx)
    rw [hnew x hy] at hmarked
    cases hmarked
  · intro x
    rw [hused, h.used, hperm.mem_iff, List.mem_append]
    exact or_right_comm
  · intro x hx hbase
    rw [hperm.mem_iff, List.mem_append] at hx
    cases hx with
    | inl hx => exact h.apart x hx hbase
    | inr hx =>
      have hmarked := (h.used x).mpr (.inr hbase)
      rw [hnew x hx] at hmarked
      cases hmarked

theorem Owns.shrink (h : Owns base s owned) (hperm : owned.Perm (gone ++ owned'))
    (hused : ∀ x, s'.used x = true ↔ s.used x = true ∧ x ∉ gone) : Owns base s' owned' := by
  have hnodup := h.nodup
  rw [hperm.nodup_iff, List.nodup_append] at hnodup
  refine ⟨hnodup.2.1, ?_, ?_⟩
  · intro x
    rw [hused, h.used, hperm.mem_iff, List.mem_append]
    constructor
    · intro hx
      exact hx.1.imp (fun hor => hor.resolve_left hx.2) id
    · intro hx
      refine ⟨hx.imp .inr id, ?_⟩
      intro hgone
      cases hx with
      | inl hx => exact hnodup.2.2 x hgone x hx rfl
      | inr hx => exact h.apart x (hperm.mem_iff.mpr (List.mem_append_left _ hgone)) hx
  · exact fun x hx => h.apart x (hperm.mem_iff.mpr (List.mem_append_right _ hx))

/-! ## Inodes whose sectors stay as they are -/

theorem diskInode_congr (h : ∀ z ∈ tree s x, s'.disk z = s.disk z) : diskInode s' x = diskInode s x := by
  rw [diskInode, h x List.mem_cons_self, diskInode]

theorem inner_congr_of_tree (h : ∀ z ∈ tree s x, s'.disk z = s.disk z) :
    ∀ z ∈ indexFormat.inner s.disk (diskInode s x).roots, s'.disk z = s.disk z :=
  fun z hz => h z (List.mem_cons_of_mem _ (TreeFormat.inner_subset_nodes hz))

theorem tree_congr (h : ∀ z ∈ tree s x, s'.disk z = s.disk z) : tree s' x = tree s x := by
  rw [tree, diskInode_congr h, InodeDisk.nodes, TreeFormat.nodes_congr (inner_congr_of_tree h), tree]

theorem trees_congr (h : ∀ y ∈ live, ∀ z ∈ tree s y, s'.disk z = s.disk z) :
    live.flatMap (tree s') = live.flatMap (tree s) :=
  List.flatMap_congr fun y hy => tree_congr (h y hy)

theorem sound_congr (hsize : s'.size = s.size) (h : ∀ z ∈ tree s x, s'.disk z = s.disk z)
    (hsound : (diskInode s x).Sound s.disk s.size) : (diskInode s' x).Sound s'.disk s'.size := by
  rw [diskInode_congr h, hsize]
  exact hsound.congr (inner_congr_of_tree h)

theorem stored_congr (h : ∀ z ∈ tree s x, s'.disk z = s.disk z)
    (hstored : s.disk x = (diskInode s x).toSector) : s'.disk x = (diskInode s' x).toSector := by
  rw [diskInode_congr h, h x List.mem_cons_self]
  exact hstored

/-- The other inodes. -/
theorem live_perm (h : x ∈ fs.live) : (fs.live.flatMap (tree s)).Perm
    (tree s x ++ (fs.live.erase x).flatMap (tree s)) := by
  have hperm := (List.perm_cons_erase h).flatMap_right (tree s)
  rwa [List.flatMap_cons] at hperm

theorem FileSystem.owned_perm (h : x ∈ fs.live) : fs.owned.Perm (tree fs.store x ++
    (fs.reserved ++ (0 :: fs.store.freeMapNodes) ++ (fs.live.erase x).flatMap (tree fs.store))) := by
  refine ((live_perm h).append_left _).trans ?_
  simp only [← List.append_assoc]
  apply List.Perm.append_right
  rw [List.append_assoc (tree fs.store x)]
  exact List.perm_append_comm

/-! ## The list of open inodes -/

theorem TableOk.imp (h : TableOk s live l next) (hok : ∀ q ∈ l, OpenOk s' live' q.2) :
    TableOk s' live' l next := ⟨hok, h.sectors, h.pointers, h.fresh⟩

theorem TableOk.filter (h : TableOk s live l next) (f : Nat × Inode → Bool)
    (hok : ∀ q ∈ l, f q = true → OpenOk s' live' q.2) : TableOk s' live' (l.filter f) next := by
  have hsub : (l.filter f).Sublist l := List.filter_sublist
  refine ⟨?_, h.sectors.sublist (hsub.map _), h.pointers.sublist (hsub.map _), ?_⟩
  · intro q hq
    rw [List.mem_filter] at hq
    exact hok q hq.1 hq.2
  · exact fun q hq => h.fresh q (hsub.subset hq)

theorem TableOk.eq_of_fst (h : TableOk s live l next) {q : Nat × Inode} (hp : (p, inode) ∈ l)
    (hq : q ∈ l) (heq : q.1 = p) : q = (p, inode) :=
  List.inj_on_of_nodup_map h.pointers hq hp heq

theorem TableOk.eq_of_sector (h : TableOk s live l next) {q : Nat × Inode} (hp : (p, inode) ∈ l)
    (hq : q ∈ l) (heq : q.2.sector = inode.sector) : q = (p, inode) :=
  List.inj_on_of_nodup_map h.sectors hq hp heq

/-- An inode changes, but not its sector. -/
theorem TableOk.set (h : TableOk s live l next) (hp : (p, inode) ∈ l)
    (hsector : inode'.sector = inode.sector) (hok : OpenOk s' live' inode')
    (hothers : ∀ q ∈ l, q.2.sector ≠ inode.sector → OpenOk s' live' q.2) :
    TableOk s' live' (l.map fun q => if q.1 = p then (p, inode') else q) next := by
  refine ⟨?_, ?_, ?_, ?_⟩
  · intro q hq
    obtain ⟨q₀, hq₀, heq⟩ := List.mem_map.mp hq
    split_ifs at heq with hfst
    · subst heq
      exact hok
    · subst heq
      apply hothers q₀ hq₀
      intro hsame
      rw [h.eq_of_sector hp hq₀ hsame] at hfst
      exact hfst rfl
  · have hmap : (l.map fun q => if q.1 = p then (p, inode') else q).map (fun q => q.2.sector) =
        l.map fun q => q.2.sector := by
      rw [List.map_map]
      apply List.map_congr_left
      intro q hq
      by_cases hfst : q.1 = p
      · rw [h.eq_of_fst hp hq hfst]
        simpa using hsector
      · simp [hfst]
    rw [hmap]
    exact h.sectors
  · have hmap : (l.map fun q => if q.1 = p then (p, inode') else q).map Prod.fst =
        l.map Prod.fst := by
      rw [List.map_map]
      apply List.map_congr_left
      intro q hq
      by_cases hfst : q.1 = p
      · simp [hfst]
      · simp [hfst]
    rw [hmap]
    exact h.pointers
  · intro q hq
    obtain ⟨q₀, hq₀, heq⟩ := List.mem_map.mp hq
    split_ifs at heq with hfst
    · subst heq
      exact hfst ▸ h.fresh q₀ hq₀
    · subst heq
      exact h.fresh q₀ hq₀

theorem TableOk.cons (h : TableOk s live l next) (hok : OpenOk s live inode)
    (hne : ∀ q ∈ l, q.2.sector ≠ inode.sector) : TableOk s live ((next, inode) :: l) (next + 1) := by
  refine ⟨?_, ?_, ?_, ?_⟩
  · intro q hq
    cases hq with
    | head => exact hok
    | tail _ hq => exact h.opened q hq
  · rw [List.map_cons, List.nodup_cons]
    refine ⟨?_, h.sectors⟩
    intro hmem
    obtain ⟨q, hq, heq⟩ := List.mem_map.mp hmem
    exact hne q hq heq
  · rw [List.map_cons, List.nodup_cons]
    refine ⟨?_, h.pointers⟩
    intro hmem
    obtain ⟨q, hq, heq⟩ := List.mem_map.mp hmem
    exact absurd heq (Nat.ne_of_lt (h.fresh q hq))
  · intro q hq
    cases hq with
    | head => exact Nat.lt_succ_self _
    | tail _ hq => exact Nat.lt_succ_of_lt (h.fresh q hq)

namespace FileSystem

theorem mem_of_inodeAt (h : fs.inodeAt p = some inode) : (p, inode) ∈ fs.openInodes := by
  rw [inodeAt, Option.map_eq_some_iff] at h
  obtain ⟨q, hfind, heq⟩ := h
  have hfst : q.1 = p := by simpa using List.find?_some hfind
  subst hfst heq
  exact List.mem_of_find?_eq_some hfind

theorem inodeOf_eq_ok (h : fs.inodeOf p = .ok inode) : (p, inode) ∈ fs.openInodes := by
  rw [inodeOf] at h
  split at h
  · rename_i inode₀ hat
    cases h
    exact mem_of_inodeAt hat
  · cases h

theorem inodeOf_of_mem (h : TableOk s live fs.openInodes next) (hp : (p, inode) ∈ fs.openInodes) :
    fs.inodeOf p = .ok inode := by
  have hfind : (fs.openInodes.find? fun q => q.1 = p) = some (p, inode) := by
    cases hfind : fs.openInodes.find? fun q => q.1 = p with
    | none =>
      have hnone := List.find?_eq_none.mp hfind _ hp
      simp at hnone
    | some q =>
      have hfst : q.1 = p := by simpa using List.find?_some hfind
      rw [h.eq_of_fst hp (List.mem_of_find?_eq_some hfind) hfst]
  rw [inodeOf, inodeAt, hfind]
  rfl

/-! ## What belongs to one inode -/

theorem Inv.tree_nodup (h : fs.Inv base) (hx : x ∈ fs.live) : (tree fs.store x).Nodup := by
  have hnodup := h.owns.nodup
  rw [(owned_perm hx).nodup_iff, List.nodup_append] at hnodup
  exact hnodup.1

theorem Inv.tree_owned (h : fs.Inv base) (hx : x ∈ fs.live) (hy : y ∈ tree fs.store x) :
    fs.store.used y = true ∧ y ∉ fs.reserved ∧ y ≠ 0 ∧ y ∉ fs.store.freeMapNodes ∧
      ∀ z ∈ fs.live, z ≠ x → y ∉ tree fs.store z := by
  have hnodup := h.owns.nodup
  have hperm := owned_perm hx
  rw [hperm.nodup_iff, List.nodup_append] at hnodup
  have hother : ∀ w ∈ fs.reserved ++ (0 :: fs.store.freeMapNodes) ++
      (fs.live.erase x).flatMap (tree fs.store), y ≠ w := fun w hw => hnodup.2.2 y hy w hw
  refine ⟨?_, ?_, ?_, ?_, ?_⟩
  · rw [h.owns.used, hperm.mem_iff]
    exact .inl (List.mem_append_left _ hy)
  · intro hmem
    exact hother y (by simp [hmem]) rfl
  · exact hother 0 (by simp)
  · intro hmem
    exact hother y (by simp [hmem]) rfl
  · intro z hz hzx hmem
    refine hother y (List.mem_append_right _ (List.mem_flatMap.mpr ⟨z, ?_, hmem⟩)) rfl
    exact (List.mem_erase_of_ne hzx).mpr hz

theorem Inv.live_nodup (h : fs.Inv base) : fs.live.Nodup := by
  have hnodup := h.owns.nodup
  rw [owned, List.nodup_append] at hnodup
  have htrees := hnodup.2.1
  clear h hnodup
  generalize fs.live = live at htrees ⊢
  induction live with
  | nil => exact List.nodup_nil
  | cons y live ih =>
    rw [List.flatMap_cons, List.nodup_append] at htrees
    rw [List.nodup_cons]
    refine ⟨?_, ih htrees.2.1⟩
    intro hy
    exact htrees.2.2 y List.mem_cons_self y
      (List.mem_flatMap.mpr ⟨y, hy, List.mem_cons_self⟩) rfl

/-- The index of an inode that exists is ready for growth and release. -/
theorem Inv.ready (h : fs.Inv base) (hx : x ∈ fs.live) :
    Ready fs.store (diskInode fs.store x).roots := by
  have hnodup := h.tree_nodup hx
  rw [tree, List.nodup_cons] at hnodup
  exact ⟨h.ok, hnodup.2, fun y hy => (h.tree_owned hx (List.mem_cons_of_mem _ hy)).1,
    fun y hy => (h.tree_owned hx (List.mem_cons_of_mem _ hy)).2.2.2.1⟩

end FileSystem

end CSE130.Filesys
