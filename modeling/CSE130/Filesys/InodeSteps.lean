import CSE130.Filesys.Ownership

/-!
# The steps of the inode layer

Each successful call keeps the invariant, and the sectors that it takes and gives back are those that it
notes as allocated and released.
-/

namespace CSE130.Filesys

open CSE130.Library InodeDisk Store FileSystem

variable {base : Sector → Prop} {s s' : Store} {x y : Sector} {fs fs' fs'' : FileSystem} {p : Nat}
  {inode inode' : Inode} {new : List Sector} {bytes : List UInt8} {r : Reply} {c : InodeCall}

/-- What a call keeps: the invariant, the free map file, and the account of the sectors. -/
structure Kept (base : Sector → Prop) (fs fs' : FileSystem) : Prop where
  inv : fs'.Inv base
  nodes : fs'.store.freeMapNodes = fs.store.freeMapNodes
  notes : ∃ ns, fs'.store.notes = fs.store.notes ++ ns ∧
    (fs'.owned ++ released ns).Perm (fs.owned ++ allocated ns)

theorem Kept.trans (h₁ : Kept base fs fs') (h₂ : Kept base fs' fs'') : Kept base fs fs'' := by
  obtain ⟨ns₁, hns₁, hperm₁⟩ := h₁.notes
  obtain ⟨ns₂, hns₂, hperm₂⟩ := h₂.notes
  refine ⟨h₂.inv, h₂.nodes.trans h₁.nodes, ns₁ ++ ns₂, ?_, ?_⟩
  · rw [hns₂, hns₁, List.append_assoc]
  · rw [released_append, allocated_append]
    have hswap : (fs''.owned ++ (released ns₁ ++ released ns₂)).Perm
        ((fs''.owned ++ released ns₂) ++ released ns₁) := by
      rw [List.append_assoc]
      exact List.perm_append_comm.append_left _
    have hback : ((fs'.owned ++ released ns₁) ++ allocated ns₂).Perm
        ((fs'.owned ++ allocated ns₂) ++ released ns₁) := by
      rw [List.append_assoc, List.append_assoc]
      exact List.perm_append_comm.append_left _
    refine hswap.trans ((hperm₂.append_right _).trans ?_)
    rw [← List.append_assoc]
    exact hback.symm.trans (hperm₁.append_right _)

/-- A call that leaves the store as it is and changes open inodes only. -/
theorem FileSystem.Inv.kept_table (h : fs.Inv base) (hstore : fs'.store = fs.store)
    (hreserved : fs'.reserved = fs.reserved) (hlive : fs'.live = fs.live)
    (htable : TableOk fs.store fs.live fs'.openInodes fs'.nextInode) : Kept base fs fs' := by
  have howned : fs'.owned = fs.owned := by
    rw [owned, hstore, hreserved, hlive, owned]
  refine ⟨⟨?_, ?_, ?_, ?_, ?_, ?_⟩, by rw [hstore], [], ?_, ?_⟩
  · rw [hstore]
    exact h.ok
  · rw [hstore]
    exact h.file
  · rw [hstore, howned]
    exact h.owns
  · rw [hstore, hlive]
    exact h.sound
  · rw [hstore, hlive]
    exact h.stored
  · rw [hstore, hlive]
    exact htable
  · rw [hstore, List.append_nil]
  · rw [howned]
    exact .refl _

theorem FileSystem.Inv.kept_refl (h : fs.Inv base) : Kept base fs fs :=
  h.kept_table rfl rfl rfl h.table

section OnStore

variable {α : Type} {m : StoreM α} {a : α} {e : Panic}

theorem onStore_of_ok (h : m s = .ok a s') (hnoted : .exhausted ∉ s'.notes.drop s.notes.length) :
    onStore m s = .ok (a, s') := by
  rw [onStore, h]
  exact if_neg hnoted

theorem onStore_exhausted (h : m s = .ok a s') (hnoted : .exhausted ∈ s'.notes.drop s.notes.length) :
    onStore m s = .error .exhausted := by
  rw [onStore, h]
  exact if_pos hnoted

theorem onStore_of_error (h : m s = .error e s') : onStore m s = .error (.panic e) := by
  rw [onStore, h]

end OnStore

/-- The inodes that exist stay as they are on disk. -/
def SameTrees (fs fs' : FileSystem) : Prop :=
  ∀ y ∈ fs.live, ∀ z ∈ tree fs.store y, fs'.store.disk z = fs.store.disk z

/-! ## The inode in memory and the inode on disk -/

theorem OpenOk.diskInode {live : List Sector} (h : OpenOk s live inode) :
    diskInode s inode.sector = inode.data := by
  rw [Filesys.diskInode, h.synced, ofSector_toSector h.proper]

theorem OpenOk.tree {live : List Sector} (h : OpenOk s live inode) :
    tree s inode.sector = inode.sector :: inode.data.nodes s.disk := by
  rw [Filesys.tree, h.diskInode]

theorem FileSystem.Inv.inodeOk (h : fs.Inv base) (hopen : OpenOk fs.store fs.live inode) :
    InodeOk fs.store inode := by
  have hsound := h.sound _ hopen.live
  have hready := h.ready hopen.live
  have hnodup := h.tree_nodup hopen.live
  rw [hopen.diskInode] at hsound hready
  rw [hopen.tree, List.nodup_cons] at hnodup
  have hown := h.tree_owned hopen.live List.mem_cons_self
  exact ⟨hsound, hready, hown.1, hnodup.1, hown.2.2.2.1⟩

/-! ## Growth -/

/-- The inode of a growing file, as it is on disk. -/
theorem Grew.diskInode (g : Grew s s' inode inode' new bytes) :
    diskInode s' inode.sector = inode'.data := by
  rw [Filesys.diskInode, g.synced, ofSector_toSector g.sound.proper]

theorem Grew.tree (g : Grew s s' inode inode' new bytes) :
    (tree s' inode.sector).Perm (inode.sector :: inode.data.nodes s.disk ++ new) := by
  rw [Filesys.tree, g.diskInode]
  exact g.blocks.cons _

/-- The other inodes stay as they are. -/
theorem FileSystem.Inv.grew_frame (h : fs.Inv base) (g : Grew fs.store s' inode inode' new bytes)
    (hy : y ∈ fs.live)
    (hapart : ∀ z ∈ tree fs.store y, z ≠ inode.sector ∧ z ∉ inode.data.nodes fs.store.disk) :
    ∀ z ∈ tree fs.store y, s'.disk z = fs.store.disk z := by
  intro z hz
  have hown := h.tree_owned hy hz
  refine g.frame z hown.2.2.2.1 (hapart z hz).2 ?_ (hapart z hz).1
  intro hnew
  have hfree := (mem_freeSectors.mp (by rw [g.free]; exact List.mem_append_left _ hnew)).2
  rw [hown.1] at hfree
  cases hfree

/-- The growth of one file, where the other ones are those in `others`. -/
theorem FileSystem.Inv.grew_kept (h : fs.Inv base) (g : Grew fs.store s' inode inode' new bytes)
    {others : List Sector} (hstore : fs'.store = s') (hsub : ∀ y ∈ others, y ∈ fs.live)
    (hapart : ∀ y ∈ others, ∀ z ∈ tree fs.store y,
      z ≠ inode.sector ∧ z ∉ inode.data.nodes fs.store.disk)
    (hlive : fs'.live.Perm (inode.sector :: others))
    (howned : fs.owned.Perm ((inode.sector :: inode.data.nodes fs.store.disk) ++
      (fs'.reserved ++ (0 :: fs.store.freeMapNodes) ++ others.flatMap (tree fs.store))))
    (htable : TableOk s' fs'.live fs'.openInodes fs'.nextInode) : Kept base fs fs' := by
  have hframe : ∀ y ∈ others, ∀ z ∈ tree fs.store y, s'.disk z = fs.store.disk z :=
    fun y hy => h.grew_frame g (hsub y hy) (hapart y hy)
  have htrees : others.flatMap (tree s') = others.flatMap (tree fs.store) := trees_congr hframe
  have howned' : fs'.owned.Perm (fs.owned ++ new) := by
    rw [owned, hstore, g.nodes]
    refine ((hlive.flatMap_right _).append_left _).trans ?_
    rw [List.flatMap_cons, htrees]
    have hmove : (fs'.reserved ++ (0 :: fs.store.freeMapNodes) ++ (tree s' inode.sector ++
        others.flatMap (tree fs.store))).Perm (tree s' inode.sector ++ (fs'.reserved ++
          (0 :: fs.store.freeMapNodes) ++ others.flatMap (tree fs.store))) := by
      rw [← List.append_assoc, ← List.append_assoc]
      exact List.perm_append_comm.append_right _
    refine hmove.trans ((g.tree.append_right _).trans ?_)
    refine .trans ?_ (howned.symm.append_right _)
    generalize fs'.reserved ++ (0 :: fs.store.freeMapNodes) ++ others.flatMap (tree fs.store) = rest
    rw [List.append_assoc, List.append_assoc]
    exact List.perm_append_comm.append_left _
  obtain ⟨ns, hns, hall, hrel, -⟩ := g.notes
  refine ⟨⟨?_, ?_, ?_, ?_, ?_, ?_⟩, ?_, ns, ?_, ?_⟩
  · rw [hstore]
    exact g.ok
  · rw [hstore, g.file]
    exact h.file
  · rw [hstore]
    exact h.owns.grow howned' g.free g.used
  · rw [hstore]
    intro y hy
    rw [hlive.mem_iff, List.mem_cons] at hy
    cases hy with
    | inl heq =>
      rw [heq, g.diskInode]
      exact g.sound
    | inr hy => exact sound_congr g.size (hframe y hy) (h.sound y (hsub y hy))
  · rw [hstore]
    intro y hy
    rw [hlive.mem_iff, List.mem_cons] at hy
    cases hy with
    | inl heq =>
      rw [heq, g.diskInode]
      exact g.synced
    | inr hy => exact stored_congr (hframe y hy) (h.stored y (hsub y hy))
  · rw [hstore]
    exact htable
  · rw [hstore, g.nodes]
  · rw [hstore, hns]
  · rw [hall, hrel, List.append_nil]
    exact howned'

/-- Another open inode after growth. -/
theorem OpenOk.of_frame {live live' : List Sector} (h : OpenOk s live inode)
    (hlive : inode.sector ∈ live') (hdisk : s'.disk inode.sector = s.disk inode.sector) :
    OpenOk s' live' inode := ⟨hlive, hdisk.trans h.synced, h.proper, h.opened, h.allowed⟩

/-! ## The calls -/

/-- What `free_map_allocate` for an inode may come to. -/
theorem allocate_cases (h : fs.Inv base) :
    fs.allocate = .error .exhausted ∨ ∃ x fs', fs.allocate = .ok (.sector x, fs') ∧
      Kept base fs fs' ∧ SameTrees fs fs' ∧ x ∈ fs'.reserved ∧ fs'.live = fs.live ∧
      fs'.openInodes = fs.openInodes ∧ fs'.nextInode = fs.nextInode := by
  cases hfree : fs.store.freeSectors with
  | nil =>
    left
    have hnoted : .exhausted ∈ (fs.store.noted .exhausted).notes.drop fs.store.notes.length := by
      rw [noted_notes, List.drop_left]
      exact List.mem_singleton_self _
    rw [allocate, onStore_exhausted (freeMapAllocate_full hfree) hnoted]
    rfl
  | cons x rest =>
    right
    obtain ⟨s', hrun, hset, hrest⟩ := freeMapAllocate_spec h.ok hfree
    have hnoted : .exhausted ∉ s'.notes.drop fs.store.notes.length := by
      rw [hset.notes, List.drop_left]
      simp
    have htree : ∀ y ∈ fs.live, ∀ z ∈ tree fs.store y, s'.disk z = fs.store.disk z :=
      fun y hy z hz => hset.frame z (h.tree_owned hy hz).2.2.2.1
    have howned : ({ fs with store := s', reserved := x :: fs.reserved } : FileSystem).owned =
        x :: fs.owned := by
      simp only [owned, hset.nodes, trees_congr htree, List.cons_append]
    refine ⟨x, { fs with store := s', reserved := x :: fs.reserved }, ?_,
      ⟨⟨hset.ok, ?_, ?_, ?_, ?_, ?_⟩, hset.nodes, [.allocated x], hset.notes, ?_⟩, htree,
      List.mem_cons_self, rfl, rfl, rfl⟩
    · rw [allocate, onStore_of_ok hrun hnoted]
      rfl
    · rw [hset.file]
      exact h.file
    · rw [howned]
      refine h.owns.grow (List.perm_append_singleton x _).symm (by rw [hfree, hrest]; rfl) ?_
      intro y
      rw [hset.used, List.mem_singleton]
      by_cases hy : y = x
      · simp [hy]
      · simp [hy]
    · exact fun y hy => sound_congr hset.size (htree y hy) (h.sound y hy)
    · exact fun y hy => stored_congr (htree y hy) (h.stored y hy)
    · refine h.table.imp fun q hq => ?_
      have hopen := h.table.opened q hq
      exact hopen.of_frame hopen.live (htree _ hopen.live _ List.mem_cons_self)
    · have hnone : released [.allocated x] = [] := rfl
      rw [howned, hnone, List.append_nil]
      exact (List.perm_append_singleton x _).symm

/-- What `inode_create` may come to. -/
theorem create_cases {length : Int32} {isDir : Bool} (h : fs.Inv base) (hres : x ∈ fs.reserved) :
    (∃ e, fs.create x length isDir = .error e ∧
      (e = .exhausted ∨ length.toInt < 0 ∨ 512 * maxSectors < length.toInt)) ∨
    ∃ fs' d, fs.create x length isDir = .ok (.none, fs') ∧ Kept base fs fs' ∧ SameTrees fs fs' ∧
      fs'.live = x :: fs.live ∧ fs'.openInodes = fs.openInodes ∧ fs'.nextInode = fs.nextInode ∧
      diskInode fs'.store x = d ∧ d.length = length ∧
      d.flat fs'.store.disk = List.replicate (512 * maxSectors) 0 := by
  have hnodup := h.owns.nodup
  rw [owned, List.append_assoc, List.nodup_append] at hnodup
  have hapart : ∀ z ∈ (0 :: fs.store.freeMapNodes) ++ fs.live.flatMap (tree fs.store), x ≠ z :=
    hnodup.2.2 x hres
  have hused : fs.store.used x = true :=
    (h.owns.used x).mpr (.inl (List.mem_append_left _ (List.mem_append_left _ hres)))
  have hout : x ∉ fs.store.freeMapNodes :=
    fun hmem => hapart x (by simp [hmem]) rfl
  have htrees : ∀ y ∈ fs.live, ∀ z ∈ tree fs.store y,
      z ≠ x ∧ z ∉ (emptyAt x isDir).data.nodes fs.store.disk := by
    intro y hy z hz
    refine ⟨?_, ?_⟩
    · intro heq
      exact hapart z (List.mem_append_right _ (List.mem_flatMap.mpr ⟨y, hy, hz⟩)) heq.symm
    · rw [emptyAt, emptyInode_nodes]
      exact List.not_mem_nil
  have hallowed : check (x ∈ fs.reserved) Stop.notAllowed = .ok () := if_pos hres
  by_cases hneg : length.toInt < 0
  · left
    have hassert : ¬ (0 : Int32) ≤ length := by
      rw [Int32.le_iff_toInt_le, Int32.toInt_zero]
      omega
    have herr : inodeCreate x length isDir fs.store = .error .assertFailed fs.store := by
      rw [inodeCreate, bind_of_error (assert_of_not hassert)]
    refine ⟨.panic .assertFailed, ?_, .inr (.inl hneg)⟩
    rw [create, hallowed, ok_bind, onStore_of_error herr]
    rfl
  rcases @inodeCreate_cases fs.store x length isDir h.ok hused hout (by omega) with
    ⟨s', hfull, hexh⟩ | ⟨hlarge, e, s', herr⟩ | ⟨-, inode', s', new, hok, hgrew, hlen⟩
  · left
    refine ⟨.exhausted, ?_, .inl rfl⟩
    rw [create, hallowed, ok_bind, onStore_exhausted hfull hexh]
    rfl
  · left
    refine ⟨.panic e, ?_, .inr (.inr hlarge)⟩
    rw [create, hallowed, ok_bind, onStore_of_error herr]
    rfl
  · right
    have hframe : ∀ y ∈ fs.live, ∀ z ∈ tree fs.store y, s'.disk z = fs.store.disk z :=
      fun y hy => h.grew_frame hgrew hy (htrees y hy)
    refine ⟨{ fs with store := s', reserved := fs.reserved.erase x, live := x :: fs.live },
      inode'.data, ?_, ?_, hframe, rfl, rfl, rfl, hgrew.diskInode, hlen, hgrew.flat⟩
    · rw [create, hallowed, ok_bind, onStore_of_ok hok hgrew.noted]
      rfl
    · refine @FileSystem.Inv.grew_kept base _ fs _ (emptyAt x isDir) _ _ _ h hgrew fs.live rfl
        (fun y hy => hy) htrees (.refl _) ?_ ?_
      · rw [emptyAt, emptyInode_nodes, owned]
        have hperm := List.perm_cons_erase hres
        exact (hperm.append_right _).append_right _
      · refine h.table.imp fun q hq => ?_
        have hopen := h.table.opened q hq
        exact hopen.of_frame (List.mem_cons_of_mem _ hopen.live)
          (hframe _ hopen.live _ List.mem_cons_self)

/-- What `inode_write_at` may come to. -/
theorem write_cases {buffer : List UInt8} {offset : Nat} (h : fs.Inv base)
    (hp : (p, inode) ∈ fs.openInodes) (hpos : 0 < buffer.length) (hsize : buffer.length < 2 ^ 31)
    (hoffset : offset < 2 ^ 31) :
    (∃ e, fs.write p buffer offset = .error e ∧
      (e = .exhausted ∨ 512 * maxSectors < offset + buffer.length)) ∨
    (512 * maxSectors < offset + buffer.length ∧
      fs.write p buffer offset = .ok (.count 0, fs.setInode p inode)) ∨
    ∃ s' inode', fs.write p buffer offset =
        .ok (.count buffer.length, { fs with store := s' }.setInode p inode') ∧
      Kept base fs ({ fs with store := s' }.setInode p inode') ∧
      (∀ y ∈ fs.live, y ≠ inode.sector → ∀ z ∈ tree fs.store y, s'.disk z = fs.store.disk z) ∧
      inode'.data.length.toInt = max inode.data.length.toInt (offset + buffer.length) ∧
      inode'.data.flat s'.disk = overwrite (inode.data.flat fs.store.disk) offset buffer := by
  have hopen := h.table.opened _ hp
  have hinode := h.inodeOk hopen
  have hallowed : check (0 < buffer.length ∧ buffer.length < 2 ^ 31 ∧ offset < 2 ^ 31)
      Stop.notAllowed = .ok () := if_pos ⟨hpos, hsize, hoffset⟩
  rw [FileSystem.write, hallowed, ok_bind, inodeOf_of_mem h.table hp, ok_bind]
  rcases inodeWriteAt_cases hinode hopen.synced hopen.allowed hpos hsize hoffset with
    ⟨inode₁, s', hfull, hexh⟩ | ⟨hlarge, ⟨e, s', herr⟩ | hnone⟩ |
      ⟨-, inode', s', new, hok, hgrew, hlen⟩
  · left
    refine ⟨.exhausted, ?_, .inl rfl⟩
    rw [onStore_exhausted hfull hexh]
    rfl
  · left
    refine ⟨.panic e, ?_, .inr hlarge⟩
    rw [onStore_of_error herr]
    rfl
  · right
    left
    have hnoted : .exhausted ∉ fs.store.notes.drop fs.store.notes.length := by
      rw [List.drop_length]
      exact List.not_mem_nil
    refine ⟨hlarge, ?_⟩
    rw [onStore_of_ok hnone hnoted]
    rfl
  · right
    right
    have hapart : ∀ y ∈ fs.live, y ≠ inode.sector → ∀ z ∈ tree fs.store y,
        z ≠ inode.sector ∧ z ∉ inode.data.nodes fs.store.disk := by
      intro y hy hne z hz
      have hout := (h.tree_owned hy hz).2.2.2.2 _ hopen.live (Ne.symm hne)
      rw [hopen.tree, List.mem_cons, not_or] at hout
      exact hout
    have hframe : ∀ y ∈ fs.live, y ≠ inode.sector → ∀ z ∈ tree fs.store y,
        s'.disk z = fs.store.disk z :=
      fun y hy hne => h.grew_frame hgrew hy (hapart y hy hne)
    have herase : ∀ y ∈ fs.live.erase inode.sector, y ∈ fs.live ∧ y ≠ inode.sector := by
      intro y hy
      rw [h.live_nodup.mem_erase_iff] at hy
      exact ⟨hy.2, hy.1⟩
    have hsector : inode'.sector = inode.sector := by rw [hgrew.same]
    refine ⟨s', inode', ?_, ?_, hframe, hlen, hgrew.flat⟩
    · rw [onStore_of_ok hok hgrew.noted]
      rfl
    · refine h.grew_kept hgrew rfl (fun y hy => (herase y hy).1)
        (fun y hy => hapart y (herase y hy).1 (herase y hy).2)
        (List.perm_cons_erase hopen.live) ?_ ?_
      · rw [← hopen.tree]
        exact owned_perm hopen.live
      · refine h.table.set hp hsector ⟨?_, ?_, hgrew.sound.proper, ?_, ?_⟩ ?_
        · rw [hsector]
          exact hopen.live
        · rw [hsector]
          exact hgrew.synced
        · rw [hgrew.same]
          exact hopen.opened
        · rw [hgrew.same]
          exact hopen.allowed
        · intro q hq hne
          have hother := h.table.opened q hq
          exact hother.of_frame hother.live
            (hframe _ hother.live hne _ List.mem_cons_self)

/-- `inode_read_at` reads the content. -/
theorem read_eq {size offset : Nat} (h : fs.Inv base) (hp : (p, inode) ∈ fs.openInodes) :
    fs.read p size offset =
      .ok (.bytes (((inode.data.contents fs.store.disk).drop offset).take size), fs) := by
  have hinode := h.inodeOk (h.table.opened _ hp)
  have hnoted : .exhausted ∉ fs.store.notes.drop fs.store.notes.length := by
    rw [List.drop_length]
    exact List.not_mem_nil
  rw [FileSystem.read, inodeOf_of_mem h.table hp, ok_bind,
    onStore_of_ok (inodeReadAt_spec hinode.sound size offset) hnoted]
  rfl

/-- Where no inode is open for the sector of an inode that exists, `inode_open` makes one. -/
theorem inodeOpen_new (h : fs.Inv base) (hlive : x ∈ fs.live)
    (hnew : ∀ q ∈ fs.openInodes, q.2.sector ≠ x) :
    ∃ fs' inode, fs.inodeOpen x = .ok (fs.nextInode, fs') ∧ Kept base fs fs' ∧
      fs'.store = fs.store ∧ fs'.openInodes = (fs.nextInode, inode) :: fs.openInodes ∧
      inode.data = diskInode fs.store x := by
  have hfind : (fs.openInodes.find? fun q => q.2.sector = x) = none := by
    rw [List.find?_eq_none]
    exact fun q hq => by simpa using hnew q hq
  have hused := (h.tree_owned hlive List.mem_cons_self).1
  have hnoted : .exhausted ∉ fs.store.notes.drop fs.store.notes.length := by
    rw [List.drop_length]
    exact List.not_mem_nil
  have hproper : (ofSector (fs.store.disk x)).Proper := ofSector_proper _
  let inode : Inode :=
    { sector := x, openCnt := 1, removed := false, denyWriteCnt := 0,
      data := ofSector (fs.store.disk x) }
  refine ⟨{ fs with
    openInodes := (fs.nextInode, inode) :: fs.openInodes
    nextInode := fs.nextInode + 1 }, inode, ?_, ?_, rfl, rfl, rfl⟩
  · rw [inodeOpen, hfind]
    dsimp only
    rw [onStore_of_ok (bufferCacheRead_of_lt (h.ok.inRange x hused)) hnoted]
    rfl
  · exact h.kept_table rfl rfl rfl
      (h.table.cons ⟨hlive, h.stored x hlive, hproper, Nat.one_pos, rfl⟩ hnew)

theorem inodeOpen_kept (h : fs.Inv base) (hlive : x ∈ fs.live)
    (hstep : fs.inodeOpen x = .ok (p, fs')) : Kept base fs fs' := by
  cases hfind : fs.openInodes.find? fun q => q.2.sector = x with
  | some q =>
    rw [inodeOpen, hfind] at hstep
    cases hstep
    have hp : (q.1, q.2) ∈ fs.openInodes := List.mem_of_find?_eq_some hfind
    have hopen := h.table.opened _ hp
    exact h.kept_table rfl rfl rfl
      (h.table.set hp rfl ⟨hopen.live, hopen.synced, hopen.proper, Nat.succ_pos _, hopen.allowed⟩
        fun q hq _ => h.table.opened q hq)
  | none =>
    have hnew : ∀ q ∈ fs.openInodes, q.2.sector ≠ x := by
      intro q hq
      simpa using List.find?_eq_none.mp hfind q hq
    obtain ⟨fs₁, inode, hopen, hkept, -⟩ := inodeOpen_new h hlive hnew
    rw [hopen] at hstep
    cases hstep
    exact hkept

/-- The release of a removed inode. -/
theorem releaseInode_spec (h : fs.Inv base) (hopen : OpenOk fs.store fs.live inode) :
    ∃ s' ns, releaseInode inode fs.store = .ok () s' ∧ s'.FreeMapOk ∧
      (∀ z, s'.used z = true ↔ fs.store.used z = true ∧ z ∉ tree fs.store inode.sector) ∧
      s'.size = fs.store.size ∧ s'.freeMapFile = fs.store.freeMapFile ∧
      s'.freeMapNodes = fs.store.freeMapNodes ∧
      (∀ z, z ∉ fs.store.freeMapNodes → s'.disk z = fs.store.disk z) ∧
      s'.notes = fs.store.notes ++ ns ∧ allocated ns = [] ∧ .exhausted ∉ ns ∧
      (released ns).Perm (tree fs.store inode.sector) := by
  have hinode := h.inodeOk hopen
  have hown := h.tree_owned hopen.live List.mem_cons_self
  obtain ⟨f, hfile⟩ := Option.ne_none_iff_exists'.mp h.file
  obtain ⟨s₁, hrun₁, hok₁, hused₁, hsize₁, hfile₁, hnodes₁, hframe₁, hnotes₁⟩ :=
    release_spec h.ok hfile hinode.used hown.2.2.1 hinode.outside
  have hinner := inner_frame hinode.ready hframe₁
  have hsame : inode.data.nodes s₁.disk = inode.data.nodes fs.store.disk :=
    TreeFormat.nodes_congr hinner
  have hready : Ready s₁ inode.data.roots := by
    refine ⟨hok₁, ?_, ?_, ?_⟩
    · change (inode.data.nodes s₁.disk).Nodup
      rw [hsame]
      exact hinode.ready.nodup
    · intro z hz
      change z ∈ inode.data.nodes s₁.disk at hz
      rw [hsame] at hz
      rw [hused₁]
      exact ⟨hinode.ready.used z hz, ne_of_mem_of_not_mem hz hinode.apart⟩
    · intro z hz
      change z ∈ inode.data.nodes s₁.disk at hz
      rw [hsame] at hz
      rw [hnodes₁]
      exact hinode.ready.outside z hz
  have hsound : inode.data.Sound s₁.disk s₁.size := by
    rw [hsize₁]
    exact hinode.sound.congr hinner
  obtain ⟨s₂, hrun₂, g⟩ := inodeDeallocate_spec (hfile₁.trans hfile) hsound hready
  obtain ⟨ns, hns, hall, hexh, hrel⟩ := g.notes
  refine ⟨s₂, .released inode.sector :: ns, ?_, g.ok, ?_, g.size.trans hsize₁, g.file.trans hfile₁,
    g.nodes.trans hnodes₁, ?_, ?_, ?_, ?_, ?_⟩
  · rw [releaseInode, bind_of_ok hrun₁, bind_of_ok hrun₂]
    rfl
  · intro z
    have hnodes : z ∈ indexFormat.nodes s₁.disk inode.data.roots ↔
        z ∈ inode.data.nodes fs.store.disk := by
      rw [← hsame, InodeDisk.nodes]
    rw [g.used, hused₁, hopen.tree, List.mem_cons, not_or, and_assoc, hnodes]
  · intro z hz
    rw [g.frame z (by rwa [hnodes₁]), hframe₁ z hz]
  · rw [hns, hnotes₁, List.append_assoc, List.singleton_append]
  · exact hall
  · simpa using hexh
  · rw [hopen.tree, ← hsame]
    exact hrel.cons _

/-- Every open inode can be closed. -/
theorem inodeClose_kept (h : fs.Inv base) (hp : (p, inode) ∈ fs.openInodes) :
    ∃ fs', fs.inodeClose p inode = .ok fs' ∧ Kept base fs fs' := by
  have hopen := h.table.opened _ hp
  rw [inodeClose]
  split_ifs with hlast hremoved
  · obtain ⟨s', ns, hrun, hok, hused, hsize, hfile, hnodes, hframe, hnotes, hall, hexh, hrel⟩ :=
      releaseInode_spec h hopen
    have hstore : onStore (releaseInode inode) fs.store = .ok ((), s') := by
      refine onStore_of_ok hrun ?_
      rw [hnotes, List.drop_left]
      exact hexh
    have htree : ∀ y ∈ fs.live, ∀ z ∈ tree fs.store y, s'.disk z = fs.store.disk z :=
      fun y hy z hz => hframe z (h.tree_owned hy hz).2.2.2.1
    have hrest : ∀ y ∈ fs.live.erase inode.sector, y ∈ fs.live :=
      fun y hy => List.mem_of_mem_erase hy
    have howned := owned_perm hopen.live
    have hsame : (fs.live.erase inode.sector).flatMap (tree s') =
        (fs.live.erase inode.sector).flatMap (tree fs.store) :=
      trees_congr fun y hy => htree y (hrest y hy)
    refine ⟨{ fs with
      store := s'
      openInodes := fs.openInodes.filter fun q => q.1 ≠ p
      live := fs.live.erase inode.sector }, ?_, ⟨hok, ?_, ?_, ?_, ?_, ?_⟩, hnodes, ns, hnotes, ?_⟩
    · dsimp only
      rw [hstore]
      rfl
    · rw [hfile]
      exact h.file
    · rw [owned, hnodes, hsame]
      exact h.owns.shrink howned hused
    · exact fun y hy => sound_congr hsize (htree y (hrest y hy)) (h.sound y (hrest y hy))
    · exact fun y hy => stored_congr (htree y (hrest y hy)) (h.stored y (hrest y hy))
    · refine h.table.filter _ fun q hq hne => ?_
      have hother := h.table.opened q hq
      refine hother.of_frame ?_ (htree _ hother.live _ List.mem_cons_self)
      refine (List.mem_erase_of_ne fun heq => ?_).mpr hother.live
      rw [h.table.eq_of_sector hp hq heq] at hne
      simp at hne
    · rw [hall, List.append_nil, owned, hnodes, hsame]
      refine .trans ?_ howned.symm
      exact (hrel.append_left _).trans List.perm_append_comm
  · exact ⟨_, rfl, h.kept_table rfl rfl rfl (h.table.filter _ fun q hq _ => h.table.opened q hq)⟩
  · have hpos := hopen.opened
    exact ⟨_, rfl, h.kept_table rfl rfl rfl (h.table.set hp rfl
      ⟨hopen.live, hopen.synced, hopen.proper, Nat.pos_of_ne_zero hlast, hopen.allowed⟩
      fun q hq _ => h.table.opened q hq)⟩

/-- What a successful call keeps. -/
theorem step_kept (h : fs.Inv base) (hstep : fs.step c = .ok (r, fs')) : Kept base fs fs' := by
  cases c with
  | allocate =>
    change fs.allocate = _ at hstep
    rcases allocate_cases h with hfull | ⟨x, fs₁, hok, hkept, -⟩
    · rw [hfull] at hstep
      cases hstep
    · rw [hok] at hstep
      cases hstep
      exact hkept
  | create sector length isDir =>
    change fs.create sector length isDir = _ at hstep
    have hres : sector ∈ fs.reserved := by
      by_contra hnot
      rw [create, check, if_neg hnot] at hstep
      cases hstep
    rcases @create_cases base sector fs length isDir h hres with ⟨e, herr, -⟩ | ⟨fs₁, d, hok, hkept, -⟩
    · rw [herr] at hstep
      cases hstep
    · rw [hok] at hstep
      cases hstep
      exact hkept
  | openAt sector =>
    simp only [step, bind_eq_ok, check_eq_ok, exists_const] at hstep
    obtain ⟨hlive, ⟨p, fs₁⟩, hopen, hstep⟩ := hstep
    simp only [pure_eq_ok, Prod.mk.injEq] at hstep
    obtain ⟨-, rfl⟩ := hstep
    exact inodeOpen_kept h hlive hopen
  | write p buffer offset =>
    change fs.write p buffer offset = _ at hstep
    have hallowed := hstep
    simp only [FileSystem.write, bind_eq_ok, check_eq_ok, exists_const] at hallowed
    obtain ⟨⟨hpos, hsize, hoffset⟩, inode, hof, -⟩ := hallowed
    have hp := inodeOf_eq_ok hof
    rcases write_cases h hp hpos hsize hoffset with ⟨e, herr, -⟩ | ⟨-, hnone⟩ | ⟨s', inode', hok, hkept, -⟩
    · rw [herr] at hstep
      cases hstep
    · rw [hnone] at hstep
      cases hstep
      exact h.kept_table rfl rfl rfl
        (h.table.set hp rfl (h.table.opened _ hp) fun q hq _ => h.table.opened q hq)
    · rw [hok] at hstep
      cases hstep
      exact hkept
  | read p size offset =>
    change fs.read p size offset = _ at hstep
    have hread := hstep
    simp only [FileSystem.read, bind_eq_ok] at hread
    obtain ⟨inode, hof, -⟩ := hread
    rw [read_eq h (inodeOf_eq_ok hof)] at hstep
    cases hstep
    exact h.kept_refl
  | remove p =>
    simp only [step, bind_eq_ok] at hstep
    obtain ⟨inode, hof, hstep⟩ := hstep
    simp only [pure_eq_ok, Prod.mk.injEq] at hstep
    obtain ⟨-, rfl⟩ := hstep
    have hp := inodeOf_eq_ok hof
    have hopen := h.table.opened _ hp
    exact h.kept_table rfl rfl rfl (h.table.set hp rfl
      ⟨hopen.live, hopen.synced, hopen.proper, hopen.opened, hopen.allowed⟩
      fun q hq _ => h.table.opened q hq)
  | close p =>
    simp only [step, bind_eq_ok] at hstep
    obtain ⟨inode, hof, fs₁, hclose, hstep⟩ := hstep
    simp only [pure_eq_ok, Prod.mk.injEq] at hstep
    obtain ⟨-, rfl⟩ := hstep
    obtain ⟨fs₂, hclose₂, hkept⟩ := inodeClose_kept h (inodeOf_eq_ok hof)
    rw [hclose₂] at hclose
    cases hclose
    exact hkept

end CSE130.Filesys
