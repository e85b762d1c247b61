import CSE130.Filesys.CreateSteps
import CSE130.Filesys.DirectoryMap

/-!
# What a failed `filesys_create` leaves behind

When `filesys_create` fails it releases the sector of the new inode and nothing else. The data sectors of
the inode stay marked in the free map, and so do the sectors that the directory or the new directory was
given.
-/

namespace CSE130.Filesys.Mount

open CSE130.Library DirEntry OpenInodes InodeDisk

/-- The free map is in order and has its file, and every inode in memory is open and has its sector. -/
structure Mounted (st : Mount) : Prop where
  freeMap : st.store.FreeMapOk
  file : st.store.freeMapFile.isSome = true
  allOpen : st.AllOpen
  used : ∀ x inode, st.inodes x = some inode → st.store.used x = true

/-- The free map, the bytes of all files and directories, and the inodes in memory are as before. -/
structure Unchanged (st st' : Mount) : Prop where
  used : st'.store.used = st.store.used
  file : st'.store.freeMapFile = st.store.freeMapFile
  disk : ∀ y, st.store.used y = true → y ∉ st.store.freeMapNodes → st'.store.disk y = st.store.disk y
  inodes : st'.inodes = st.inodes

/-- The blocks that a directory lacks for an entry behind its last one. -/
def slotNeeds (st : Mount) (d : Sector) : List BlockKind :=
  needs st.store (st.opened d).data.roots
    (((st.volume.bytes d).length / entrySize * entrySize + entrySize + 511) / 512)

/-- An inode without data cannot be entered into the directory, and no sector but its own is taken: the
name is refused, or writes to the directory are, or its sector is the last one and another is needed, but
not for an index block of the directory. -/
def EmptyClean (st : Mount) (d : Sector) (name : List UInt8) (isDir : Bool) : Prop :=
  name = [] ∨ nameMax < name.length ∨ (st.volume.lookup d name).isSome = true ∨
    if isDir = true then st.store.freeSectors.length = 1
    else (st.opened d).denyWriteCnt ≠ 0 ∨ st.store.freeSectors.length = 1 ∧
      ((st.slotNeeds d).head? ≠ some .index ∨ st.store.disk 0 = zeros)

/-- There is no such directory, or no sector is free, or a sector for the inode is the only free one or
the only one that is wanted. -/
def CleanFailure (st : Mount) (e : Nat → DirEntry) (cwd : Option Sector) (path : List UInt8)
    (size : Int32) (isDir : Bool) : Prop :=
  ∀ d st₁, dirOpenPath e cwd (splitPathFilename path).1 st = .ok (some d) st₁ →
    st.store.freeSectors = [] ∨
      if size = 0 then st.EmptyClean d (splitPathFilename path).2 isDir
      else st.store.freeSectors.length = 1

variable {st st' t t' : Mount} {d x y : Sector} {rest : List Sector} {e e' : DirEntry}
  {name : List UInt8} {isDir : Bool} {size : Int32} {vol : Volume} {inode : Inode} {clean : Prop}

/-! ## Writes of the directory layer -/

theorem ok_of_writeInode {buffer : List UInt8} {ofs w : Nat} (h : writeInode x buffer ofs t = .ok w t') :
    ∃ inode inode' s', t.inodes x = some inode ∧
      inodeWriteAt inode buffer ofs t.store = .ok (w, inode') s' ∧
      t' = { t with store := s' }.withInode x (some inode') := by
  obtain ⟨inode, t₁, hat, hrest⟩ := ok_of_bind h
  obtain ⟨hx, rfl⟩ := ok_of_inodeAt hat
  obtain ⟨⟨w', inode'⟩, t₂, hwrite, hrest⟩ := ok_of_bind hrest
  obtain ⟨hwrite, hinodes⟩ := ok_of_onDisk hwrite
  cases hrest
  refine ⟨inode, inode', t₂.store, hx, hwrite, ?_⟩
  rw [← hinodes]

/-- The write of the parent entry into a new directory, whose inode is closed afterwards. -/
theorem ok_of_linkParent {linked : Bool} (hnone : t.inodes x = none)
    (h : linkParent e d x true t = .ok (linked, e') t') :
    ∃ w inode' s', inodeWriteAt (t.opened x) { e with inodeSector := d }.toBytes 0 t.store =
      .ok (w, inode') s' ∧ linked = decide (w = entrySize) ∧ t' = { t with store := s' } := by
  obtain ⟨_, t₁, hopen, hrest⟩ := ok_of_bind h
  have ht₁ := ok_of_inodeOpen hopen
  subst ht₁
  obtain ⟨w, t₂, hwrite, hrest⟩ := ok_of_bind hrest
  obtain ⟨inode, inode', s', hx, hwrite, rfl⟩ := ok_of_writeInode hwrite
  rw [ref_self, Option.some.injEq] at hx
  subst hx
  obtain ⟨_, t₃, hclose, hrest⟩ := ok_of_bind hrest
  have hsame := inodeWriteAt_same hwrite
  have hcount : inode'.openCnt = 1 := by rw [hsame, opened, hnone]
  have hremoved : inode'.removed = false := by rw [hsame, opened, hnone]
  rw [inodeClose, bind_of_ok (inodeAt_of_some (withInode_self _)), hcount, hremoved] at hclose
  cases hclose
  cases hrest
  refine ⟨w, inode', s', hwrite, rfl, ?_⟩
  refine mount_eq rfl ?_
  dsimp only [withInode, ref]
  rw [Function.update_idem, Function.update_idem, ← hnone, Function.update_eq_self]

/-- The write of the entry, with the slot that is found in the contents of the directory. -/
theorem ok_of_writeSlot {added : Bool} (hdir : t.inodes d = some inode)
    (hcovered : inode.data.Covered t.store.disk t.store.size)
    (hbytes : vol.bytes d = inode.data.contents t.store.disk)
    (h : writeSlot e d name x t = .ok added t') :
    ∃ buffer w inode' s', buffer.length = entrySize ∧
      inodeWriteAt inode buffer (vol.scanFrom d (fun e => e.inUse = 0) e 0).2.2 t.store =
        .ok (w, inode') s' ∧ added = decide (w = entrySize) ∧
      t' = { t with store := s' }.withInode d (some inode') := by
  rw [writeSlot, bind_of_ok (scanDir_eq hdir hcovered hbytes 0)] at h
  dsimp only at h
  obtain ⟨w, t₁, hwrite, hrest⟩ := ok_of_bind h
  obtain ⟨inode₁, inode', s', hx, hwrite, rfl⟩ := ok_of_writeInode hwrite
  cases hdir.symm.trans hx
  cases hrest
  exact ⟨_, w, inode', s', DirEntry.length_toBytes _, hwrite, rfl, rfl⟩

/-! ## What is left before the clean-up -/

/-- A sector besides `x` has been marked, and the directory is open and has not been removed. -/
structure Leaks (st t : Mount) (d x : Sector) : Prop where
  marked : ∃ y, y ≠ x ∧ st.store.used y = false ∧ t.store.used y = true
  dir : ∃ inode, t.inodes d = some inode ∧ inode.removed = false

/-- The sector `x` has been taken, and the inodes in memory are as after the directory was opened. -/
structure Holds (st t : Mount) (d x : Sector) : Prop where
  took : Took st.store t.store x
  inodes : t.inodes = (st.ref d).inodes

theorem Holds.dir_open (hold : Holds st t d x) : t.inodes d = some (st.opened d) := by
  rw [hold.inodes, ref_self]

/-- The store may change in sector `x` and, as far as is said, in sector `0`. -/
theorem Holds.congr {s : Store} (hold : Holds st t d x) (hx : x ∉ st.store.freeMapNodes)
    (hused : s.used = t.store.used) (hsize : s.size = t.store.size)
    (hfile : s.freeMapFile = t.store.freeMapFile)
    (hdisk : ∀ y, y ≠ x → y ≠ 0 → s.disk y = t.store.disk y) : Holds st { t with store := s } d x :=
  ⟨hold.took.congr hx hused hsize hfile hdisk, hold.inodes⟩

/-- Either of both; `clean` tells which, and whether sector `0` is as before. -/
def Outcome (st t : Mount) (d x : Sector) (clean : Prop) : Prop :=
  Leaks st t d x ∧ ¬ clean ∨ Holds st t d x ∧ (t.store.disk 0 = st.store.disk 0 ↔ clean)

/-- A directory that is open stays so, and no mark is taken away. -/
def KeepsDir (d : Sector) (t t' : Mount) : Prop :=
  MarksStay t.store t'.store ∧ ∀ inode, t.inodes d = some inode → inode.removed = false →
    ∃ inode', t'.inodes d = some inode' ∧ inode'.removed = false

theorem KeepsDir.trans {t'' : Mount} (h : KeepsDir d t t') (h' : KeepsDir d t' t'') :
    KeepsDir d t t'' := by
  refine ⟨trans_of MarksStay h.1 h'.1, ?_⟩
  intro inode hinode hremoved
  obtain ⟨inode', hinode', hremoved'⟩ := h.2 inode hinode hremoved
  exact h'.2 inode' hinode' hremoved'

theorem KeepsDir.of_inodes (hmarks : MarksStay t.store t'.store) (hinodes : t'.inodes = t.inodes) :
    KeepsDir d t t' := by
  refine ⟨hmarks, ?_⟩
  intro inode hinode hremoved
  exact ⟨inode, by rwa [hinodes], hremoved⟩

theorem keepsDir_linkParent {linked : Bool} (hnone : t.inodes x = none)
    (h : linkParent e d x isDir t = .ok (linked, e') t') : KeepsDir d t t' := by
  cases isDir with
  | false =>
    cases h
    exact .of_inodes (refl_of MarksStay _) rfl
  | true =>
    obtain ⟨w, inode', s', hwrite, -, rfl⟩ := ok_of_linkParent hnone h
    exact .of_inodes (inodeWriteAt_staysIn _ _ hwrite) rfl

theorem keepsDir_writeInode {buffer : List UInt8} {ofs w : Nat}
    (h : writeInode d buffer ofs t = .ok w t') : KeepsDir d t t' := by
  obtain ⟨inode, inode', s', hx, hwrite, rfl⟩ := ok_of_writeInode h
  refine ⟨inodeWriteAt_staysIn _ _ hwrite, ?_⟩
  intro inode₁ hinode₁ hremoved
  cases hx.symm.trans hinode₁
  refine ⟨inode', withInode_self _, ?_⟩
  rw [inodeWriteAt_same hwrite]
  exact hremoved

theorem keepsDir_writeSlot {added : Bool} (h : writeSlot e d name x t = .ok added t') :
    KeepsDir d t t' := by
  obtain ⟨⟨found, e₁, ofs⟩, t₁, hscan, hrest⟩ := ok_of_bind h
  have hscanEq : StaysIn Eq (scanDir d (fun e => e.inUse = 0) e 0) :=
    .bind (inodeAt_staysIn _) fun inode => scanLoop_staysIn _ _ _ _
  cases hscanEq hscan
  obtain ⟨w, t₂, hwrite, hrest⟩ := ok_of_bind hrest
  cases hrest
  exact keepsDir_writeInode hwrite

theorem keepsDir_dirAdd {added : Bool} (hnone : t.inodes x = none)
    (h : dirAdd e d name x isDir t = .ok added t') : KeepsDir d t t' := by
  rw [dirAdd] at h
  split_ifs at h
  · cases h
    exact .of_inodes (refl_of MarksStay _) rfl
  obtain ⟨found, t₁, hlookup, hrest⟩ := ok_of_bind h
  cases lookup_staysIn _ _ hlookup
  split_ifs at hrest
  · cases hrest
    exact .of_inodes (refl_of MarksStay _) rfl
  obtain ⟨⟨linked, e₁⟩, t₂, hlink, hrest⟩ := ok_of_bind hrest
  have hkeeps := keepsDir_linkParent hnone hlink
  cases linked with
  | false =>
    cases hrest
    exact hkeeps
  | true => exact hkeeps.trans (keepsDir_writeSlot hrest)

/-! ## The part of `filesys_create` that can fail -/

section Create

variable (h : st.Mounted) (ho : InOrder st.store (st.opened d)) (hlive : (st.opened d).removed = false)
  (hfree : st.store.freeSectors = x :: rest)

include hfree

theorem free_first : st.store.used x = false :=
  (mem_freeSectors.mp (by rw [hfree]; exact List.mem_cons_self)).2

/-- A second sector that has been marked is a leak. -/
theorem Leaks.of_rest (hy : y ∈ rest) (hused : t.store.used y = true)
    (hdir : ∃ inode, t.inodes d = some inode ∧ inode.removed = false) : Leaks st t d x := by
  have hnodup := freeSectors_nodup st.store
  rw [hfree, List.nodup_cons] at hnodup
  refine ⟨⟨y, ne_of_mem_of_not_mem hy hnodup.1, ?_, hused⟩, hdir⟩
  exact (mem_freeSectors.mp (by rw [hfree]; exact List.mem_cons_of_mem _ hy)).2

theorem length_free : st.store.freeSectors.length = 1 ↔ rest = [] := by
  rw [hfree, List.length_cons, Nat.add_eq_right, List.length_eq_zero_iff]

include h

/-- The new inode is not in memory. -/
theorem not_open : st.inodes x = none := by
  cases hx : st.inodes x with
  | none => rfl
  | some inode =>
    have hused := h.used x inode hx
    rw [free_first hfree] at hused
    cases hused

include ho

theorem ne_first : x ≠ d := by
  rintro rfl
  have hused : st.store.used (st.opened x).sector = true := ho.used
  have hsector : (st.opened x).sector = x := by rw [opened, not_open h hfree]
  rw [hsector, free_first hfree] at hused
  cases hused

theorem not_open_ref (hinodes : t.inodes = (st.ref d).inodes) : t.inodes x = none := by
  rw [hinodes, ref, withInode_of_ne (ne_first h ho hfree)]
  exact not_open h hfree

section Empty

variable (hold : Holds st t d x) (hzero : t.store.disk 0 = st.store.disk 0)
  (hrest : t.store.freeSectors = rest)

include h ho hlive hfree hold hzero hrest

/-- The entry of a new file is not written. -/
theorem writeSlot_outcome (hrun : writeSlot e d name x t = .ok false t') :
    Outcome st t' d x ((st.opened d).denyWriteCnt ≠ 0 ∨ st.store.freeSectors.length = 1 ∧
      ((st.slotNeeds d).head? ≠ some .index ∨ st.store.disk 0 = zeros)) := by
  have hfirst := free_first hfree
  have hout : x ∉ st.store.freeMapNodes :=
    (free_ne h.freeMap (by rw [hfree]; exact List.mem_cons_self)).2
  have hio := hold.took.inOrder hfirst ho
  have hkeeps := keepsDir_writeSlot hrun
  have hcontents : st.volume.bytes d = (st.opened d).data.contents t.store.disk :=
    (hold.took.contents hfirst ho).symm
  obtain ⟨buffer, w, inode', s', hlength, hwrite, hadded, rfl⟩ :=
    ok_of_writeSlot hold.dir_open hio.covered hcontents hrun
  have hshort : w ≠ buffer.length := by
    rw [hlength]
    simpa using hadded.symm
  by_cases hdeny : (st.opened d).denyWriteCnt ≠ 0
  · rw [inodeWriteAt, if_pos hdeny] at hwrite
    cases hwrite
    right
    rw [withInode_eq hold.dir_open]
    exact ⟨hold, iff_of_true hzero (.inl hdeny)⟩
  have hallowed := not_not.mp hdeny
  rw [or_iff_right hdeny, length_free hfree]
  generalize hofs : (st.volume.scanFrom d (fun e => e.inUse = 0) e 0).2.2 = ofs at hwrite
  have hbytes : ((st.volume.bytes d).length : Int) = (st.opened d).data.length.toInt := by
    have hnonneg := ho.covered.nonneg
    rw [volume, length_contents ho.covered]
    omega
  have hoffset := scanFrom_offset st.volume d (fun e => e.inUse = 0) e
  dsimp only at hoffset
  rw [hofs] at hoffset
  have hend : ofs + buffer.length < 2 ^ 31 := by
    have hfits := ho.covered.fits
    have hmax : maxSectors = 16635 := rfl
    unfold numSectors at hfits
    rw [hlength]
    unfold entrySize at hoffset ⊢
    omega
  have hpos : 0 < buffer.length := by
    rw [hlength]
    decide
  -- the write has failed, so that the directory has to grow by blocks
  have hgrow : ¬ ((st.opened d).data.length.toInt < ofs + buffer.length →
      needs t.store (st.opened d).data.roots ((ofs + buffer.length + 511) / 512) = []) :=
    fun hfits => hshort (inodeWriteAt_fits hallowed hpos hend hio hfits hwrite)
  obtain ⟨hgrows, hne⟩ := Classical.not_imp.mp hgrow
  have hslot : ofs = (st.volume.bytes d).length / entrySize * entrySize := by
    refine hoffset.resolve_left fun hin => ?_
    rw [hlength] at hgrows
    omega
  have hneeds : needs t.store (st.opened d).data.roots ((ofs + buffer.length + 511) / 512) =
      st.slotNeeds d := by
    rw [hold.took.needs hfirst ho.ready, hslot, hlength]
    rfl
  obtain ⟨hmarks, hfull⟩ := inodeWriteAt_grows hallowed hpos hend hio.covered.proper hio.ready hgrows
    hne hwrite
  rw [hrest] at hmarks hfull
  by_cases hnil : rest = []
  · obtain ⟨-, rfl, hrefused⟩ := hfull hnil
    have hsame : ({ t with store := s' } : Mount).withInode d (some (st.opened d)) =
        { t with store := s' } := withInode_eq hold.dir_open
    right
    rw [hsame]
    refine ⟨hold.congr hout hrefused.used hrefused.size hrefused.file fun y _ hy => hrefused.frame y hy,
      ?_⟩
    have hzero' := hrefused.zero
    rw [hneeds, hzero] at hzero'
    rw [and_iff_right hnil]
    exact hzero'
  · obtain ⟨y, hy, hused⟩ := hmarks hnil
    left
    exact ⟨.of_rest hfree hy hused (hkeeps.2 _ hold.dir_open hlive), fun hand => hnil hand.1⟩

/-- The new directory is not linked to its parent, or its entry is not written. -/
theorem linkParent_outcome (hdisk : t.store.disk x = (emptyInode true).toSector)
    (hrun : (do
      let (linked, e) ← linkParent e d x true
      if linked then writeSlot e d name x else pure false : MountM Bool) t = .ok false t') :
    Outcome st t' d x (st.store.freeSectors.length = 1) := by
  have hout : x ∉ st.store.freeMapNodes :=
    (free_ne h.freeMap (by rw [hfree]; exact List.mem_cons_self)).2
  have hnone := not_open_ref h ho hfree hold.inodes
  rw [length_free hfree]
  obtain ⟨⟨linked, e₁⟩, t₁, hlink, hrun⟩ := ok_of_bind hrun
  have hkeeps := keepsDir_linkParent hnone hlink
  obtain ⟨w, inode', s', hwrite, hlinked, rfl⟩ := ok_of_linkParent hnone hlink
  have hchild : (t.opened x).data = emptyInode true := by
    rw [opened, hnone, hdisk]
    exact ofSector_toSector rfl
  have hallowed : (t.opened x).denyWriteCnt = 0 := by rw [opened, hnone]
  have hlength : ({ e with inodeSector := d } : DirEntry).toBytes.length = entrySize :=
    DirEntry.length_toBytes _
  have hneeds : (needs t.store (t.opened x).data.roots ((0 + entrySize + 511) / 512)).head? =
      some .data := by
    rw [hchild]
    exact emptyInode_needs (by decide)
  have hne : needs t.store (t.opened x).data.roots ((0 + entrySize + 511) / 512) ≠ [] := by
    intro hnil
    rw [hnil] at hneeds
    cases hneeds
  have hgrows := inodeWriteAt_grows hallowed (by rw [hlength]; decide) (by rw [hlength]; decide)
    (by rw [hchild]; rfl) (by rw [hchild]; exact ready_below hold.took.ok fun _ => emptyInode_roots)
    (by rw [hchild, hlength]; decide) (by rw [hlength]; exact hne) hwrite
  rw [hlength, hrest] at hgrows
  by_cases hnil : rest = []
  · obtain ⟨rfl, -, hrefused⟩ := hgrows.2 hnil
    rw [hlinked] at hrun
    cases hrun
    right
    refine ⟨hold.congr hout hrefused.used hrefused.size hrefused.file fun y _ hy => hrefused.frame y hy,
      iff_of_true ?_ hnil⟩
    rw [← hzero]
    exact hrefused.zero.mpr (.inl (by rw [hneeds]; simp))
  · obtain ⟨y, hy, hused⟩ := hgrows.1 hnil
    left
    refine ⟨?_, hnil⟩
    have hall : KeepsDir d { t with store := s' } t' := by
      cases linked with
      | false =>
        cases hrun
        exact .of_inodes (refl_of MarksStay _) rfl
      | true => exact keepsDir_writeSlot hrun
    exact .of_rest hfree hy (hall.1 y hused) ((hkeeps.trans hall).2 _ hold.dir_open hlive)

/-- An inode without data is not entered into the directory. -/
theorem dirAdd_outcome (hdisk : t.store.disk x = (emptyInode isDir).toSector)
    (hrun : dirAdd e d name x isDir t = .ok false t') :
    Outcome st t' d x (st.EmptyClean d name isDir) := by
  have hfirst := free_first hfree
  have hcovered := (hold.took.inOrder hfirst ho).covered
  have hcontents : st.volume.bytes d = (st.opened d).data.contents t.store.disk :=
    (hold.took.contents hfirst ho).symm
  have hlookup : lookup d name t = .ok (st.volume.lookup d name) t :=
    lookup_eq hold.dir_open hcovered hcontents
  rw [dirAdd] at hrun
  by_cases hname : name = [] ∨ nameMax < name.length
  · rw [if_pos hname] at hrun
    cases hrun
    right
    exact ⟨hold, iff_of_true hzero (hname.elim .inl fun hlong => .inr (.inl hlong))⟩
  rw [if_neg hname, bind_of_ok hlookup] at hrun
  rw [not_or] at hname
  rw [EmptyClean, or_iff_right hname.1, or_iff_right hname.2]
  by_cases hfound : (st.volume.lookup d name).isSome = true
  · rw [if_pos hfound] at hrun
    cases hrun
    right
    exact ⟨hold, iff_of_true hzero (.inl hfound)⟩
  rw [if_neg hfound] at hrun
  rw [or_iff_right hfound]
  cases isDir with
  | true =>
    rw [if_pos rfl]
    exact linkParent_outcome h ho hlive hfree hold hzero hrest hdisk hrun
  | false =>
    rw [if_neg (by simp)]
    exact writeSlot_outcome h ho hlive hfree hold hzero hrest hrun

end Empty

include ho hlive

/-- What has become of the store and the inodes in memory when one of the parts has failed. -/
theorem createIn_outcome {sector : Sector}
    (hrun : createIn e d name size isDir (st.ref d) = .ok (false, sector) t') :
    sector = x ∧ Outcome st t' d x (if size = 0 then st.EmptyClean d name isDir
      else st.store.freeSectors.length = 1) := by
  have hout : x ∉ st.store.freeMapNodes :=
    (free_ne h.freeMap (by rw [hfree]; exact List.mem_cons_self)).2
  obtain ⟨s, halloc, htook, hzero, hrest⟩ := took_allocate h.freeMap hfree
  have hold : Holds st { st.ref d with store := s } d x := ⟨htook, rfl⟩
  have halloc' : onDisk freeMapAllocate (st.ref d) = .ok (some x) { st.ref d with store := s } :=
    onDisk_of_ok halloc
  rw [createIn, bind_of_ok halloc'] at hrun
  obtain ⟨created, t, hcreate, hrun⟩ := ok_of_bind hrun
  obtain ⟨hcreate, hinodes⟩ := ok_of_onDisk hcreate
  by_cases hsize : size = 0
  · subst hsize
    rw [if_pos rfl]
    obtain ⟨rfl, hstore⟩ := inodeCreate_empty hcreate
    have hx0 : x ≠ 0 := (free_ne h.freeMap (by rw [hfree]; exact List.mem_cons_self)).1
    have hframe : ∀ y, y ≠ x → t.store.disk y = s.disk y := by
      intro y hy
      rw [hstore]
      exact Function.update_of_ne hy _ _
    have hdisk : t.store.disk x = (emptyInode isDir).toSector := by
      rw [hstore]
      exact Function.update_self _ _ _
    have hused : t.store.used = s.used := by rw [hstore]; rfl
    have hsizes : t.store.size = s.size := by rw [hstore]; rfl
    have hfile : t.store.freeMapFile = s.freeMapFile := by rw [hstore]; rfl
    have hold' : Holds st t d x :=
      ⟨htook.congr hout hused hsizes hfile fun y hy _ => hframe y hy, hinodes⟩
    obtain ⟨added, t₁, hadd, hrun⟩ := ok_of_bind hrun
    cases hrun
    refine ⟨rfl, dirAdd_outcome h ho hlive hfree hold' ?_ ?_ hdisk hadd⟩
    · rw [hframe 0 hx0.symm, hzero]
    · rw [freeSectors_congr hsizes hused, hrest]
  · rw [if_neg hsize, length_free hfree]
    by_cases hnil : rest = []
    · obtain ⟨rfl, hused, hsizes, hfile, hdisk⟩ :=
        inodeCreate_full htook.ok hcreate hsize (hrest.trans hnil)
      cases hrun
      refine ⟨rfl, .inr ⟨⟨?_, hinodes⟩, iff_of_true ?_ hnil⟩⟩
      · exact htook.congr hout hused hsizes hfile fun y _ _ => congrFun hdisk y
      · rw [hdisk, hzero]
    · obtain ⟨y, hy, hused⟩ := inodeCreate_marks htook.ok hcreate hsize (by rwa [hrest])
      rw [hrest] at hy
      have hopen : t.inodes d = some (st.opened d) := by
        rw [hinodes]
        exact hold.dir_open
      cases created with
      | false =>
        cases hrun
        exact ⟨rfl, .inl ⟨.of_rest hfree hy hused ⟨_, hopen, hlive⟩, hnil⟩⟩
      | true =>
        obtain ⟨added, t₁, hadd, hrun⟩ := ok_of_bind hrun
        cases hrun
        have hkeeps := keepsDir_dirAdd (not_open_ref h ho hfree hinodes) hadd
        exact ⟨rfl, .inl ⟨.of_rest hfree hy (hkeeps.1 y hused) (hkeeps.2 _ hopen hlive), hnil⟩⟩

end Create

/-! ## The clean-up -/

theorem inodeClose_store (hx : t.inodes x = some inode) (hremoved : inode.removed = false)
    (hrun : inodeClose x t = .ok () t') : t'.store = t.store := by
  rw [inodeClose, bind_of_ok (inodeAt_of_some hx), hremoved] at hrun
  by_cases hlast : inode.openCnt - 1 = 0
  · rw [if_pos hlast] at hrun
    cases hrun
    rfl
  · rw [if_neg hlast] at hrun
    cases hrun
    rfl

/-- The release of the inode's sector makes up for what has been done, or it does not. -/
theorem Outcome.unchanged_iff {t₁ : Mount} (h : st.Mounted) (hfree : st.store.freeSectors = x :: rest)
    (hout : Outcome st t d x clean) (hrelease : releaseUnused false x t = .ok () t₁)
    (hclose : inodeClose d t₁ = .ok () st') : Unchanged st st' ↔ clean := by
  have hfirst := free_first hfree
  obtain ⟨hx0, hnode⟩ := free_ne h.freeMap (x := x) (by rw [hfree]; exact List.mem_cons_self)
  rw [releaseUnused, if_pos ⟨rfl, hx0⟩] at hrelease
  obtain ⟨hrun, hinodes⟩ := ok_of_onDisk hrelease
  rcases hout with ⟨⟨⟨y, hy, hunmarked, hused⟩, inode, hinode, hlive⟩, hnot⟩ | ⟨hold, hiff⟩
  · refine iff_of_false ?_ hnot
    intro hsame
    have hstore := inodeClose_store (by rwa [hinodes]) hlive hclose
    have hmarked : st'.store.used y = true := by
      rw [hstore, freeMapRelease_used hrun, Function.update_of_ne hy]
      exact hused
    rw [hsame.used, hunmarked] at hmarked
    cases hmarked
  · obtain ⟨f, hf⟩ := Option.isSome_iff_exists.mp h.file
    obtain ⟨s, hs, hset⟩ := freeMapRelease_spec hold.took.ok (hold.took.file.trans hf)
      hold.took.marked hx0 (by rwa [hold.took.nodes])
    have hstore : t₁.store = s := by
      cases hs.symm.trans hrun
      rfl
    have hend : st' = { t₁ with inodes := st.inodes } := by
      have hback := inodeClose_ref h.allOpen (hinodes.trans hold.inodes)
      cases hback.symm.trans hclose
      rfl
    have hframe : ∀ y, y ∉ st.store.freeMapNodes → st'.store.disk y = t.store.disk y := by
      intro y hy
      rw [hend]
      dsimp only
      rw [hstore, hset.frame y (by rwa [hold.took.nodes])]
    rw [← hiff]
    constructor
    · intro hsame
      rw [← hframe 0 zero_not_mem_freeMapNodes]
      exact hsame.disk 0 h.freeMap.zero_used zero_not_mem_freeMapNodes
    · intro hzero
      refine ⟨?_, ?_, ?_, by rw [hend]⟩
      · rw [hend]
        dsimp only
        rw [hstore, hset.used, hold.took.used, Function.update_idem, ← hfirst, Function.update_eq_self]
      · rw [hend]
        dsimp only
        rw [hstore, hset.file, hold.took.file]
      · intro y hy hyn
        rw [hframe y hyn]
        by_cases hy0 : y = 0
        · rw [hy0, hzero]
        · exact hold.took.frame y (hold.took.ne hfirst hy) hy0 hyn

/-- A failed `filesys_create` leaves the free map, the directories and the files as they were if and only
if it has taken no sector but that of the inode, and has not failed at an index block. -/
theorem filesysCreate_unchanged_iff (st st' : Mount) (e : Nat → DirEntry) (e' : DirEntry)
    (cwd : Option Sector) (path : List UInt8) (size : Int32) (isDir : Bool) (h : st.Mounted)
    (ho : ∀ d st₁, dirOpenPath e cwd (splitPathFilename path).1 st = .ok (some d) st₁ →
      InOrder st.store (st.opened d))
    (hrun : filesysCreate e e' cwd path size isDir st = .ok false st') :
    st.Unchanged st' ↔ st.CleanFailure e cwd path size isDir := by
  obtain ⟨dir, t, hpath, hrest⟩ := ok_of_bind hrun
  obtain ⟨rfl, hfound⟩ := ok_of_dirOpenPath h.allOpen hpath
  cases dir with
  | none =>
    cases hrest
    refine iff_of_true ⟨rfl, rfl, fun _ _ _ => rfl, rfl⟩ ?_
    intro d st₁ hopen
    cases hpath.symm.trans hopen
  | some d =>
    obtain ⟨⟨success, sector⟩, t₁, hcreate, hrest⟩ := ok_of_bind hrest
    obtain ⟨_, t₂, hrelease, hrest⟩ := ok_of_bind hrest
    obtain ⟨_, t₃, hclose, hrest⟩ := ok_of_bind hrest
    cases hrest
    have hclean : st.CleanFailure e cwd path size isDir ↔ st.store.freeSectors = [] ∨
        if size = 0 then st.EmptyClean d (splitPathFilename path).2 isDir
        else st.store.freeSectors.length = 1 := by
      constructor
      · exact fun hclean => hclean d _ hpath
      · intro hor d' st₁ hopen
        cases hpath.symm.trans hopen
        exact hor
    rw [hclean]
    cases hfree : st.store.freeSectors with
    | nil =>
      have halloc : onDisk freeMapAllocate (st.ref d) =
          .ok none { st.ref d with store := st.store.noted .exhausted } :=
        onDisk_of_ok (freeMapAllocate_full hfree)
      rw [refSome, createIn, bind_of_ok halloc] at hcreate
      cases hcreate
      cases hrelease
      have hback : inodeClose d { st.ref d with store := st.store.noted .exhausted } =
          .ok () { store := st.store.noted .exhausted, inodes := st.inodes } :=
        inodeClose_ref h.allOpen rfl
      cases hback.symm.trans hclose
      exact iff_of_true ⟨rfl, rfl, fun _ _ _ => rfl, rfl⟩ (.inl rfl)
    | cons x rest =>
      obtain ⟨rfl, hout⟩ := createIn_outcome h (ho d _ hpath) (hfound d rfl) hfree hcreate
      rw [← hfree, hout.unchanged_iff h hfree hrelease hclose, or_iff_right]
      rw [hfree]
      exact List.cons_ne_nil _ _

/-! ## A small disk -/

/-- The inode of a root directory with room for 16 entries; its data are in sector 3. -/
def rootDirectory : InodeDisk where
  directBlocks := 3 :: List.replicate 122 0
  indirectBlock := 0
  doublyIndirectBlock := 0
  isDir := true
  length := 320
  magic := inodeMagic

/-- A device of six sectors with nothing but the free map and the root directory, which is open. -/
def smallMount : Mount where
  store :=
    { size := 6
      disk := fun _ => zeros
      used := fun x => x < 4
      freeMapFile := some (smallFreeMapFile 6)
      notes := [] }
  inodes := fun x =>
    if x = 1 then
      some { sector := 1, openCnt := 1, removed := false, denyWriteCnt := 0, data := rootDirectory }
    else none

/-- A name of 15 characters. -/
def longName : List UInt8 := List.replicate 15 97

/-- The state that a function leaves. -/
def stateAfter {α : Type} (m : MountM α) (st : Mount) : Mount :=
  match m st with
  | .ok _ t => t
  | .error _ t => t

theorem ok_of_run {α : Type} {m : MountM α} {a : α} (h : m.run' st = some a) :
    m st = .ok a (stateAfter m st) := by
  delta EStateM.run' EStateM.run at h
  rw [stateAfter]
  cases hm : m st with
  | error p t => rw [hm] at h; cases h
  | ok b t =>
    rw [hm] at h
    cases h
    rfl

/-- A file of one byte with a name that is too long is not created, and its data sector stays marked. -/
theorem filesysCreate_leaks :
    ∃ st', filesysCreate (fun _ => zero) zero none (slash :: longName) 1 false smallMount =
      .ok false st' ∧ ¬ smallMount.Unchanged st' := by
  have hrun := @ok_of_run smallMount _
    (filesysCreate (fun _ => zero) zero none (slash :: longName) 1 false) false (by decide +kernel)
  refine ⟨_, hrun, fun hsame => ?_⟩
  have hmarked : (stateAfter (filesysCreate (fun _ => zero) zero none (slash :: longName) 1 false)
      smallMount).store.used 5 = true := by decide +kernel
  rw [hsame.used] at hmarked
  cases hmarked

theorem smallMount_mounted : smallMount.Mounted where
  freeMap := freeMapOk_of_small rfl (by decide) (by
    intro x hx
    rw [smallMount] at hx ⊢
    dsimp only at hx ⊢
    rw [decide_eq_true_eq, UInt32.lt_iff_toNat_lt] at hx
    rw [UInt32.lt_iff_toNat_lt]
    exact Nat.lt_trans hx (by decide)) rfl rfl
  file := rfl
  allOpen := by
    intro x inode hx
    rw [smallMount] at hx
    dsimp only at hx
    split_ifs at hx
    cases hx
    exact Nat.one_pos
  used := by
    intro x inode hx
    rw [smallMount] at hx
    dsimp only at hx
    split_ifs at hx with hone
    rw [hone]
    rfl

theorem rootDirectory_roots : rootDirectory.roots =
    [(0, 3)] ++ (List.replicate 122 (0, 0) ++ [(1, 0)] ++ [(2, 0)]) := by
  rw [roots, rootDirectory, List.map_cons, List.map_replicate]
  rfl

theorem rootDirectory_nodes (disk : Sector → Block) : rootDirectory.nodes disk = [3] := by
  rw [InodeDisk.nodes, rootDirectory_roots, TreeFormat.nodes_append,
    TreeFormat.nodes_of_zero fun _ => zero_of_mem_rest, TreeFormat.nodes_leaf]
  rfl

theorem smallMount_inOrder : InOrder smallMount.store (smallMount.opened 1) where
  covered := by
    have hnum : rootDirectory.numSectors = 1 := by decide
    refine ⟨rfl, ?_, ?_, ?_, by decide, by decide⟩
    · rw [show (smallMount.opened 1).data = rootDirectory from rfl, rootDirectory_nodes]
      exact List.nodup_singleton 3
    · rw [show (smallMount.opened 1).data = rootDirectory from rfl, rootDirectory_nodes]
      intro x hx
      rw [List.mem_singleton.mp hx]
      decide
    · rw [show (smallMount.opened 1).data = rootDirectory from rfl, hnum]
      intro i a hi hlt
      rw [Nat.lt_one_iff.mp hlt, leaves_roots] at hi
      cases hi
      decide
  ready := by
    have hnodes : indexFormat.nodes smallMount.store.disk (smallMount.opened 1).data.roots = [3] :=
      rootDirectory_nodes _
    refine ⟨smallMount_mounted.freeMap, ?_, ?_, ?_⟩
    · rw [hnodes]
      exact List.nodup_singleton 3
    · rw [hnodes]
      intro x hx
      rw [List.mem_singleton.mp hx]
      exact decide_eq_true (by decide : (3 : Sector) < 4)
    · rw [hnodes, freeMapNodes_eq (d := smallFreeMapFile 6) rfl, smallFreeMapFile_nodes]
      exact List.forall_mem_singleton.mpr (by decide)
  used := rfl
  apart := by
    rw [show (smallMount.opened 1).data = rootDirectory from rfl, rootDirectory_nodes]
    decide
  outside := by
    rw [freeMapNodes_eq (d := smallFreeMapFile 6) rfl, smallFreeMapFile_nodes]
    decide

theorem filesysCreate_unchanged_emptyFile :
    ∃ st', filesysCreate (fun _ => zero) zero none (slash :: longName) 0 false smallMount =
      .ok false st' ∧ smallMount.Unchanged st' := by
  have hrun := @ok_of_run smallMount _
    (filesysCreate (fun _ => zero) zero none (slash :: longName) 0 false) false (by decide +kernel)
  have hpath := @ok_of_run smallMount _
    (dirOpenPath (fun _ => zero) none (splitPathFilename (slash :: longName)).1) (some 1)
    (by decide +kernel)
  refine ⟨_, hrun, (filesysCreate_unchanged_iff smallMount _ _ zero none (slash :: longName) 0 false
    smallMount_mounted ?_ hrun).mpr ?_⟩
  · intro d st₁ hopen
    cases hpath.symm.trans hopen
    exact smallMount_inOrder
  · intro d st₁ _
    refine .inr ?_
    rw [if_pos rfl]
    exact .inr (.inl (by decide))

end CSE130.Filesys.Mount
