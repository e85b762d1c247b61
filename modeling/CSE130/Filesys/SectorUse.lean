import CSE130.Filesys.InodeSteps

/-!
# No cross-linked sectors

In every run of the inode layer the index trees of the inodes stay apart from each other, and what was
allocated for an inode is released, once, when it has been removed and is closed for the last time.
-/

namespace CSE130.Filesys

open CSE130.Library InodeDisk Store

variable {s : Store} {start fs : FileSystem}

namespace FileSystem

/-- The state after a call. -/
def next (fs : FileSystem) (c : InodeCall) : Except Stop FileSystem := do
  let (_, fs) ← fs.step c
  pure fs

/-- The states that successful calls reach. -/
abbrev Reached (start fs : FileSystem) : Prop := Reachable next (fun _ _ => True) start fs

/-- No inode exists yet. The free map may mark any sectors besides those of the free map file and those
obtained for inodes. -/
structure Start (fs : FileSystem) : Prop where
  ok : fs.store.FreeMapOk
  file : fs.store.freeMapFile ≠ none
  reserved : fs.reserved.Nodup
  marked : ∀ x ∈ fs.reserved, fs.store.used x = true ∧ x ∉ 0 :: fs.store.freeMapNodes
  live : fs.live = []
  openInodes : fs.openInodes = []

/-- The sectors that are marked for other purposes. -/
def otherSectors (fs : FileSystem) (x : Sector) : Prop := fs.store.used x = true ∧ x ∉ fs.owned

theorem Start.owned_eq (h : start.Start) :
    start.owned = start.reserved ++ (0 :: start.store.freeMapNodes) := by
  rw [owned, h.live, List.flatMap_nil, List.append_nil]

theorem Start.inv (h : start.Start) : start.Inv start.otherSectors := by
  obtain ⟨f, hfile⟩ := Option.ne_none_iff_exists'.mp h.file
  have hnodup : (0 :: start.store.freeMapNodes).Nodup := by
    rw [List.nodup_cons]
    refine ⟨zero_not_mem_freeMapNodes, ?_⟩
    rw [freeMapNodes_eq hfile]
    exact (h.ok.sound f hfile).nodup
  have hused : ∀ x ∈ start.owned, start.store.used x = true := by
    intro x hx
    rw [h.owned_eq, List.mem_append, List.mem_cons] at hx
    rcases hx with hx | hx | hx
    · exact (h.marked x hx).1
    · exact hx ▸ h.ok.zero_used
    · exact h.ok.nodes_used x hx
  refine ⟨h.ok, h.file, ⟨?_, ?_, ?_⟩, ?_, ?_, ?_⟩
  · rw [h.owned_eq, List.nodup_append]
    refine ⟨h.reserved, hnodup, ?_⟩
    intro x hx y hy heq
    exact (h.marked x hx).2 (heq ▸ hy)
  · intro x
    constructor
    · intro hx
      by_cases hmem : x ∈ start.owned
      · exact .inl hmem
      · exact .inr ⟨hx, hmem⟩
    · intro hx
      exact hx.elim (hused x) And.left
  · exact fun x hx hother => hother.2 hx
  · rw [h.live]
    exact fun x hx => absurd hx List.not_mem_nil
  · rw [h.live]
    exact fun x hx => absurd hx List.not_mem_nil
  · rw [h.openInodes]
    exact ⟨fun q hq => absurd hq List.not_mem_nil, List.nodup_nil, List.nodup_nil,
      fun q hq => absurd hq List.not_mem_nil⟩

theorem Start.kept (h : start.Start) (hrun : Reached start fs) :
    Kept start.otherSectors start fs := by
  refine Reachable.invariant h.inv.kept_refl ?_ fs hrun
  intro fs₁ c fs₂ _ hkept _ hstep
  simp only [next, bind_eq_ok] at hstep
  obtain ⟨⟨r, fs₃⟩, hstep, heq⟩ := hstep
  simp only [pure_eq_ok] at heq
  subst heq
  exact hkept.trans (step_kept hkept.inv hstep)

end FileSystem

open FileSystem

/-- A device of eight sectors with a free map file and no inodes. -/
def smallSystem : FileSystem where
  store :=
    { size := 8, disk := fun _ => zeros, used := fun x => x < 3,
      freeMapFile := some (smallFreeMapFile 8), notes := [] }
  openInodes := []
  nextInode := 0
  reserved := []
  live := []

theorem smallSystem_start : smallSystem.Start := by
  refine ⟨freeMapOk_of_small rfl (by decide) ?_ rfl rfl, nofun, List.nodup_nil, nofun, rfl, rfl⟩
  intro x hx
  have hlt : x < 3 := of_decide_eq_true hx
  rw [UInt32.lt_iff_toNat_lt] at hlt ⊢
  exact Nat.lt_trans hlt (by decide)

/-- The state after some calls. -/
def after (fs : FileSystem) (calls : List InodeCall) : Option FileSystem :=
  run next (fun _ _ => true) fs calls

theorem reached_of_after {calls : List InodeCall} (h : after start calls = some fs) :
    Reached start fs := reachable_of_run (fun _ _ _ => trivial) .start h

/-- In every state that is reached, each sector of an inode that exists is marked in the free map and
occurs once in the tree of one inode. A sector has one open inode at most, and that inode is the one on
disk. -/
theorem no_crossLinks (h : start.Start) (hrun : Reached start fs) :
    (∀ x ∈ fs.live, ∀ y ∈ tree fs.store x, fs.store.used y = true) ∧
    (fs.live.flatMap (tree fs.store)).Nodup ∧
    (fs.openInodes.map fun q => q.2.sector).Nodup ∧
    ∀ q ∈ fs.openInodes, q.2.sector ∈ fs.live ∧ diskInode fs.store q.2.sector = q.2.data := by
  have hinv := (h.kept hrun).inv
  refine ⟨fun x hx y hy => (hinv.tree_owned hx hy).1, ?_, hinv.table.sectors, ?_⟩
  · have hnodup := hinv.owns.nodup
    rw [owned, List.nodup_append] at hnodup
    exact hnodup.2.1
  · intro q hq
    have hopen := hinv.table.opened q hq
    exact ⟨hopen.live, hopen.diskInode⟩

theorem no_crossLinks_twoFiles :
    ∃ fs, after smallSystem [.allocate, .create 3 0 false, .openAt 3, .write 0 [7] 600, .allocate,
        .create 6 1 false] = some fs ∧
      (fs.live.flatMap (tree fs.store)).Nodup := by
  obtain ⟨fs, hfs⟩ : ∃ fs, after smallSystem [.allocate, .create 3 0 false, .openAt 3,
      .write 0 [7] 600, .allocate, .create 6 1 false] = some fs := by
    rw [← Option.isSome_iff_exists]
    decide +kernel
  exact ⟨fs, hfs, (no_crossLinks smallSystem_start (reached_of_after hfs)).2.1⟩

/-- An open inode can always be closed. Where all inodes have been removed and closed, the free map is
that of the start again, and each allocated sector has been released once. -/
theorem freeMap_restored (h : start.Start) (hrun : Reached start fs) :
    (∀ p inode, fs.inodeAt p = some inode → ∃ fs', fs.step (.close p) = .ok (.none, fs')) ∧
    (fs.live = [] → fs.reserved.Perm start.reserved → fs.store.used = start.store.used ∧
      ∃ ns, fs.store.notes = start.store.notes ++ ns ∧ (released ns).Perm (allocated ns)) := by
  have hkept := h.kept hrun
  constructor
  · intro p inode hat
    obtain ⟨fs', hclose, -⟩ := inodeClose_kept hkept.inv (mem_of_inodeAt hat)
    refine ⟨fs', ?_⟩
    simp only [step, inodeOf, hat, ok_bind, hclose]
    rfl
  · intro hlive hreserved
    have howned : fs.owned.Perm start.owned := by
      rw [h.owned_eq, owned, hlive, hkept.nodes, List.flatMap_nil, List.append_nil]
      exact hreserved.append_right _
    constructor
    · funext x
      have hiff : fs.store.used x = true ↔ start.store.used x = true := by
        rw [hkept.inv.owns.used, h.inv.owns.used, howned.mem_iff]
      exact Bool.eq_iff_iff.mpr hiff
    · obtain ⟨ns, hns, hperm⟩ := hkept.notes
      refine ⟨ns, hns, ?_⟩
      exact (List.perm_append_left_iff _).mp ((howned.symm.append_right _).trans hperm)

theorem freeMap_restored_oneFile :
    ∃ fs, after smallSystem [.allocate, .create 3 0 false, .openAt 3, .write 0 [7] 600, .remove 0,
        .close 0] = some fs ∧ fs.store.used = smallSystem.store.used := by
  obtain ⟨fs, hfs⟩ : ∃ fs, after smallSystem [.allocate, .create 3 0 false, .openAt 3,
      .write 0 [7] 600, .remove 0, .close 0] = some fs := by
    rw [← Option.isSome_iff_exists]
    decide +kernel
  have hdone : (after smallSystem [.allocate, .create 3 0 false, .openAt 3, .write 0 [7] 600,
      .remove 0, .close 0]).map (fun fs => (fs.live, fs.reserved)) = some ([], []) := by
    decide +kernel
  rw [hfs, Option.map_some, Option.some_inj, Prod.mk.injEq] at hdone
  refine ⟨fs, hfs, ((freeMap_restored smallSystem_start (reached_of_after hfs)).2 hdone.1 ?_).1⟩
  rw [hdone.2]
  exact .nil

end CSE130.Filesys
