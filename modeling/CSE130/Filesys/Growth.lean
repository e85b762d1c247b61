import CSE130.Filesys.Deallocate

/-!
# Growth that succeeds

What `inode_create` and `inode_write_at` do where the sectors can be allocated. Growth keeps the bytes
of a file, zeros behind its end included, so that a write overwrites them wherever it ends.
-/

namespace CSE130.Filesys

open CSE130.Library InodeDisk Store

variable {s s' s₁ s₂ : Store} {d d' : InodeDisk} {new : List Sector} {n m offset size : Nat}
  {inode inode' : Inode} {buffer : List UInt8} {fileEnd : Int32}

/-! ## Growth keeps the bytes -/

theorem sectorBytes_zero (disk : Sector → Block) : sectorBytes disk 0 = zeros.val := if_pos rfl

/-- Growth adds sectors of zeros only. -/
theorem Reserved.flat (g : Reserved s s' d.roots d'.roots n new) (h : Ready s d.roots) :
    d'.flat s'.disk = d.flat s.disk := by
  have hleaves := g.grown.leaves
  have hnodup := h.apart g.free
  have hnew : ∀ a ∈ new, a ≠ 0 := fun a ha =>
    (free_ne h.ok (by rw [g.free]; exact List.mem_append_left _ ha)).1
  have hold : ∀ a ∈ d.leaves s.disk, a ≠ 0 → s'.disk a = s.disk a := by
    intro a ha hne
    have hmem : a ∈ d.nodes s.disk := TreeFormat.mem_nodes_iff.mpr (.inr ⟨ha, hne⟩)
    apply g.grown.frame a
    · intro hin
      exact (List.nodup_append.mp hnodup.nodup).2.2 a hmem a hin rfl
    · exact fun hin => not_mem_leaves_of_inner h.nodup hin ha
    · exact h.outside a hmem
  have hbytes : ∀ {l l' : List Sector}, (∀ a ∈ l, a ≠ 0 → s'.disk a = s.disk a) →
      List.Forall₂ (fun a a' => a' = a ∨ a = 0 ∧ a' ∈ new ∧ s'.disk a' = zeros) l l' →
      l'.flatMap (sectorBytes s'.disk) = l.flatMap (sectorBytes s.disk) := by
    intro l l' hl hrel
    induction hrel with
    | nil => rfl
    | @cons a a' l l' ha hrel ih =>
      rw [List.flatMap_cons, List.flatMap_cons, ih fun b hb => hl b (List.mem_cons_of_mem _ hb)]
      congr 1
      rcases ha with heq | ⟨hzero, hmem, hblank⟩
      · rw [heq]
        by_cases hne : a = 0
        · rw [hne, sectorBytes_zero, sectorBytes_zero]
        · rw [sectorBytes, if_neg hne, hl a List.mem_cons_self hne, sectorBytes, if_neg hne]
      · rw [hzero, sectorBytes_zero, sectorBytes, if_neg (hnew a' hmem), hblank]
  exact hbytes hold hleaves

/-- Sectors that are no index blocks and no data sectors of a file do not matter to its bytes. -/
theorem flat_congr {disk disk' : Sector → Block} (h : ∀ x ∈ d.nodes disk, disk' x = disk x) :
    d.flat disk' = d.flat disk := by
  have hleaves : d.leaves disk' = d.leaves disk :=
    TreeFormat.leaves_congr fun x hx => h x (TreeFormat.inner_subset_nodes hx)
  rw [InodeDisk.flat, hleaves, InodeDisk.flat]
  apply List.flatMap_congr
  intro a ha
  unfold sectorBytes
  split_ifs with hne
  · rfl
  · rw [h a (TreeFormat.mem_nodes_iff.mpr (.inr ⟨ha, hne⟩))]

/-- The index after growth is in order for the new length. -/
theorem Reserved.sound (g : Reserved s s' d.roots d'.roots n new) (h : Ready s d.roots)
    (hd : d'.Proper) (hfilled : indexFormat.Filled s.disk d.roots m) (hmn : m ≤ n)
    (hnonneg : 0 ≤ d'.length.toInt) (hnum : d'.numSectors = n) (hfits : n ≤ maxSectors) :
    d'.Sound s'.disk s'.size := by
  have hnodup := (h.apart g.free).nodup
  refine ⟨hd, g.grown.nodes.nodup_iff.mpr hnodup, ?_, ?_, hnonneg, hnum ▸ hfits⟩
  · intro x hx
    apply g.ok.inRange
    rw [g.used]
    have hmem := g.grown.nodes.mem_iff.mp hx
    rw [List.mem_append] at hmem
    exact hmem.imp (h.used x) id
  · have hgrown := g.grown.filled m hfilled
    rwa [Nat.max_eq_right hmn, ← hnum] at hgrown

/-! ## An inode that grows -/

/-- An in-memory inode is in order: so is its index, and its sector is marked in the free map and belongs
neither to the file nor to the free map file. -/
structure InodeOk (s : Store) (inode : Inode) : Prop where
  sound : inode.data.Sound s.disk s.size
  ready : Ready s inode.data.roots
  used : s.used inode.sector = true
  apart : inode.sector ∉ inode.data.nodes s.disk
  outside : inode.sector ∉ s.freeMapNodes

/-- The inode has grown by the sectors `new`, and `bytes` are the bytes of its data sectors, with zeros
for those that are missing. -/
structure Grew (s s' : Store) (inode inode' : Inode) (new : List Sector) (bytes : List UInt8) :
    Prop where
  ok : s'.FreeMapOk
  size : s'.size = s.size
  file : s'.freeMapFile = s.freeMapFile
  nodes : s'.freeMapNodes = s.freeMapNodes
  free : s.freeSectors = new ++ s'.freeSectors
  used : ∀ x, s'.used x = true ↔ s.used x = true ∨ x ∈ new
  same : inode' = { inode with data := inode'.data }
  blocks : (inode'.data.nodes s'.disk).Perm (inode.data.nodes s.disk ++ new)
  sound : inode'.data.Sound s'.disk s'.size
  frame : ∀ z, z ∉ s.freeMapNodes → z ∉ inode.data.nodes s.disk → z ∉ new → z ≠ inode.sector →
    s'.disk z = s.disk z
  synced : s'.disk inode.sector = inode'.data.toSector
  flat : inode'.data.flat s'.disk = bytes
  notes : ∃ ns, s'.notes = s.notes ++ ns ∧ allocated ns = new ∧ released ns = [] ∧ .exhausted ∉ ns

theorem Grew.refl (h : InodeOk s inode) (hsync : s.disk inode.sector = inode.data.toSector) :
    Grew s s inode inode [] (inode.data.flat s.disk) where
  ok := h.ready.ok
  size := rfl
  file := rfl
  nodes := rfl
  free := rfl
  used := fun x => by simp
  same := rfl
  blocks := by rw [List.append_nil]
  sound := h.sound
  frame := fun _ _ _ _ _ => rfl
  synced := hsync
  flat := rfl
  notes := ⟨[], (List.append_nil _).symm, rfl, rfl, List.not_mem_nil⟩

theorem proper_of_levels (hd : d.Proper) (h : d'.roots.map Prod.fst = d.roots.map Prod.fst) :
    d'.Proper := by
  have hlen := congrArg List.length h
  unfold Proper at hd ⊢
  simp only [roots, List.length_map, List.length_append, List.length_cons, List.length_nil] at hlen
  omega

/-- The number of sectors of a file that is not too large. -/
theorem bytesToSectors_le_iff (h : 0 ≤ fileEnd.toInt) :
    bytesToSectors fileEnd ≤ maxSectors ↔ fileEnd.toInt ≤ 512 * maxSectors := by
  have hmax : maxSectors = 16635 := rfl
  by_cases hle : fileEnd.toInt ≤ 2 ^ 31 - 512
  · rw [bytesToSectors_eq h hle]
    omega
  · have hlarge := bytesToSectors_large (by omega : 2 ^ 31 - 512 < fileEnd.toInt)
    omega

/-- Growth and the write of the inode, where the sectors can be allocated and the file is not too
large. -/
theorem Reserved.grew (h : InodeOk s inode) (g : Reserved s s' inode.data.roots d'.roots n new)
    (hnum : d'.numSectors = n) (hle : inode.data.numSectors ≤ n) (hnonneg : 0 ≤ d'.length.toInt)
    (hfits : n ≤ maxSectors) :
    Grew s (s'.write inode.sector d'.toSector) inode { inode with data := d' } new
      (inode.data.flat s.disk) := by
  have hproper : d'.Proper := proper_of_levels h.sound.proper g.grown.levels
  have hsound : d'.Sound s'.disk s'.size :=
    g.sound h.ready hproper h.sound.filled hle hnonneg hnum hfits
  have hnew : ∀ x ∈ new, s.used x = false := fun x hx =>
    (mem_freeSectors.mp (by rw [g.free]; exact List.mem_append_left _ hx)).2
  have hsector : inode.sector ∉ d'.nodes s'.disk := by
    intro hmem
    have hmem' := g.grown.nodes.mem_iff.mp hmem
    rw [List.mem_append] at hmem'
    cases hmem' with
    | inl hold => exact h.apart hold
    | inr hin =>
      have hfalse := hnew _ hin
      rw [h.used] at hfalse
      cases hfalse
  have hwrite : ∀ x, x ≠ inode.sector →
      (s'.write inode.sector d'.toSector).disk x = s'.disk x :=
    fun x hx => Function.update_of_ne hx _ _
  have hnodes : ∀ x ∈ d'.nodes s'.disk, (s'.write inode.sector d'.toSector).disk x = s'.disk x :=
    fun x hx => hwrite x (ne_of_mem_of_not_mem hx hsector)
  have hinner : ∀ x ∈ indexFormat.inner s'.disk d'.roots,
      (s'.write inode.sector d'.toSector).disk x = s'.disk x :=
    fun x hx => hnodes x (TreeFormat.inner_subset_nodes hx)
  have hout : inode.sector ∉ s'.freeMapNodes := by
    rw [g.nodes]
    exact h.outside
  have hfile : ∀ x ∈ s'.freeMapNodes, (s'.write inode.sector d'.toSector).disk x = s'.disk x :=
    fun x hx => hwrite x (ne_of_mem_of_not_mem hx hout)
  have hsame : (s'.write inode.sector d'.toSector).freeMapNodes = s'.freeMapNodes :=
    freeMapNodes_congr rfl hfile
  obtain ⟨ns, hns, hall, hrel, hexh, -⟩ := g.notes
  refine ⟨?_, g.size, g.file, hsame.trans g.nodes, g.free, g.used, rfl, ?_, ?_, ?_, ?_, ?_,
    ns, hns, hall, hrel, hexh⟩
  · exact g.ok.congr rfl rfl hfile g.ok.zero_used g.ok.inRange g.ok.nodes_used
  · rw [InodeDisk.nodes, TreeFormat.nodes_congr hinner]
    exact g.grown.nodes
  · exact hsound.congr hinner
  · intro z hz hnode hznew hzsector
    rw [hwrite z hzsector]
    exact g.grown.frame z hznew (fun hin => hnode (TreeFormat.inner_subset_nodes hin)) hz
  · rw [Store.write_disk, Function.update_self]
  · rw [flat_congr hnodes]
    exact Reserved.flat g h.ready

theorem Exhausted.noted {rs rs' : List (Nat × Sector)} (g : Exhausted s s' rs rs' n) :
    .exhausted ∈ s'.notes.drop s.notes.length := by
  obtain ⟨ns, hns, -, -, hexh, -⟩ := g.notes
  rwa [hns, List.drop_left]

theorem Grew.noted {bytes : List UInt8} (g : Grew s s' inode inode' new bytes) :
    .exhausted ∉ s'.notes.drop s.notes.length := by
  obtain ⟨ns, hns, -, -, hexh⟩ := g.notes
  rwa [hns, List.drop_left]

theorem numSectors_mono (h : d.length.toInt ≤ d'.length.toInt) : d.numSectors ≤ d'.numSectors := by
  unfold numSectors
  omega

/-- What growth may come to: the disk becomes full, an assertion fails since the file would be too
large, or the inode has grown. -/
theorem inodeExtend_cases (h : InodeOk s inode) (hend : inode.data.length.toInt ≤ fileEnd.toInt) :
    (∃ inode' s', inodeExtend inode fileEnd s = .ok (false, inode') s' ∧
      .exhausted ∈ s'.notes.drop s.notes.length) ∨
    (512 * maxSectors < fileEnd.toInt ∧ ∃ e s', inodeExtend inode fileEnd s = .error e s') ∨
    (fileEnd.toInt ≤ 512 * maxSectors ∧ ∃ inode' s' new,
      inodeExtend inode fileEnd s = .ok (true, inode') s' ∧
        Grew s s' inode inode' new (inode.data.flat s.disk) ∧ inode'.data.length = fileEnd) := by
  have hnonneg := h.sound.nonneg
  have hneg : ¬ fileEnd < 0 := by
    rw [Int32.lt_iff_toInt_lt]
    have h0 : (0 : Int32).toInt = 0 := by decide
    omega
  have hreserve : inodeReserve inode.data fileEnd s =
      reserveSectors inode.data (bytesToSectors fileEnd) s := by
    rw [inodeReserve, if_neg hneg]
  have hiff := bytesToSectors_le_iff (by omega : 0 ≤ fileEnd.toInt)
  have hattempt := @reserveSectors_spec s (bytesToSectors fileEnd) inode.data h.sound.proper h.ready
  by_cases hless : s.freeSectors.length < (needs s inode.data.roots (bytesToSectors fileEnd)).length
  · left
    obtain ⟨rs', s', ⟨d', -, -, hres⟩, hexh⟩ := hattempt.short hless
    refine ⟨{ inode with data := d' }, s', ?_, hexh.noted⟩
    rw [reserveResult, if_neg (by simp), ← hreserve] at hres
    rw [inodeExtend, bind_of_ok hres]
    rfl
  obtain ⟨rs', s', new, ⟨d', rfl, hsame, hres⟩, hgrown⟩ := hattempt.enough (by omega)
  by_cases hmax : bytesToSectors fileEnd ≤ maxSectors
  · have hle := hiff.mp hmax
    right
    right
    rw [reserveResult, if_neg (by omega), ← hreserve] at hres
    have hnum : ({ d' with length := fileEnd } : InodeDisk).numSectors = bytesToSectors fileEnd := by
      have hlarge : maxSectors = 16635 := rfl
      rw [bytesToSectors_eq (by omega) (by omega)]
      rfl
    have hle' : inode.data.numSectors ≤ bytesToSectors fileEnd := by
      rw [← hnum]
      exact numSectors_mono hend
    have hgrew := @Reserved.grew s s' { d' with length := fileEnd } new _ inode h hgrown hnum hle'
      (by omega : 0 ≤ fileEnd.toInt) hmax
    have hlt : inode.sector < s'.size := by
      rw [hgrown.size]
      exact h.ready.ok.inRange _ h.used
    refine ⟨hle, _, _, new, ?_, hgrew, rfl⟩
    rw [inodeExtend, bind_of_ok hres]
    dsimp only
    rw [if_pos rfl, bind_of_ok (bufferCacheWrite_of_lt hlt)]
    rfl
  · right
    left
    refine ⟨by omega, .assertFailed, s', ?_⟩
    rw [reserveResult, if_pos ⟨rfl, by omega⟩, ← hreserve] at hres
    rw [inodeExtend, bind_of_error hres]

/-- The first part of `inode_write_at` for a write of at least one byte. -/
theorem inodeMakeRoom_cases (h : InodeOk s inode)
    (hsync : s.disk inode.sector = inode.data.toSector) (hpos : 0 < size)
    (hsize : size < 2 ^ 31) (hoffset : offset < 2 ^ 31) :
    (∃ inode' s', inodeMakeRoom inode (Int32.ofNat (offset + size)) s = .ok (false, inode') s' ∧
      .exhausted ∈ s'.notes.drop s.notes.length) ∨
    (512 * maxSectors < offset + size ∧
      ((∃ e s', inodeMakeRoom inode (Int32.ofNat (offset + size)) s = .error e s') ∨
        inodeMakeRoom inode (Int32.ofNat (offset + size)) s = .ok (false, inode) s)) ∨
    (offset + size ≤ 512 * maxSectors ∧ ∃ inode' s' new,
      inodeMakeRoom inode (Int32.ofNat (offset + size)) s = .ok (true, inode') s' ∧
        Grew s s' inode inode' new (inode.data.flat s.disk) ∧
        inode'.data.length.toInt = max inode.data.length.toInt (offset + size)) := by
  have hmax : maxSectors = 16635 := rfl
  by_cases hin : inode.data.length.toInt < offset + size
  · have hroom : inodeMakeRoom inode (Int32.ofNat (offset + size)) s =
        inodeExtend inode (Int32.ofNat (offset + size)) s := by
      rw [inodeMakeRoom, bind_of_ok (byteToSector_behind hpos hsize hoffset hin), if_pos rfl]
    rw [hroom]
    by_cases hover : 2 ^ 31 ≤ offset + size
    · right
      left
      refine ⟨by omega, .inr ?_⟩
      have hneg : Int32.ofNat (offset + size) < 0 := by
        rw [Int32.lt_iff_toInt_lt, fileEnd_of_ge hover (by omega)]
        have h0 : (0 : Int32).toInt = 0 := by decide
        omega
      have hfail : inodeReserve inode.data (Int32.ofNat (offset + size)) s =
          .ok (false, inode.data) s := by
        rw [inodeReserve, if_pos hneg]
        rfl
      rw [inodeExtend, bind_of_ok hfail]
      rfl
    · have hend := @fileEnd_of_lt (offset + size) (by omega)
      push_cast at hend
      have hle : inode.data.length.toInt ≤ (Int32.ofNat (offset + size)).toInt := by omega
      rcases inodeExtend_cases h hle with
        hfull | ⟨hlarge, herror⟩ | ⟨hfits, inode', s', new, hrun, hgrew, hlen⟩
      · exact .inl hfull
      · exact .inr (.inl ⟨by omega, .inl herror⟩)
      · refine .inr (.inr ⟨by omega, inode', s', new, hrun, hgrew, ?_⟩)
        rw [hlen, hend]
        omega
  · have hlast : ((offset + size - 1 : Nat) : Int) < inode.data.length.toInt := by omega
    obtain ⟨a, hi, ha, hsector⟩ := byteToSector_spec h.sound hlast
    have hfits := h.sound.fits
    unfold numSectors at hfits
    have hpos' : (Int32.ofNat (offset + size) - 1).toInt = ((offset + size - 1 : Nat) : Int) := by
      have h1 : (1 : Int32).toInt = 1 := by decide
      rw [Int32.toInt_sub, h1, fileEnd_of_lt (by omega), Int.bmod_def]
      split_ifs <;> omega
    right
    right
    refine ⟨by omega, inode, s, [], ?_, .refl h hsync, by omega⟩
    rw [inodeMakeRoom, hpos', bind_of_ok hsector,
      if_neg (ne_noSector (h.sound.inRange a (leaf_mem_nodes hi ha)))]
    rfl

/-- The sectors of the inode after growth. -/
theorem Grew.mem_blocks {bytes : List UInt8} (h : InodeOk s inode) (g : Grew s s' inode inode' new bytes)
    {x : Sector} (hx : x ∈ inode'.data.nodes s'.disk) :
    x ≠ inode.sector ∧ x ∉ s.freeMapNodes ∧ (x ∈ inode.data.nodes s.disk ∨ x ∈ new) := by
  have hmem := g.blocks.mem_iff.mp hx
  rw [List.mem_append] at hmem
  refine ⟨?_, ?_, hmem⟩
  · intro heq
    subst heq
    refine hmem.elim h.apart fun hin => ?_
    have hfree := (mem_freeSectors.mp (by rw [g.free]; exact List.mem_append_left _ hin)).2
    rw [h.used] at hfree
    cases hfree
  · exact hmem.elim (h.ready.outside x) fun hin =>
      (free_ne h.ready.ok (by rw [g.free]; exact List.mem_append_left _ hin)).2

/-- A write within the file. -/
theorem Grew.overwritten {bytes : List UInt8} (h : InodeOk s inode)
    (g : Grew s s₁ inode inode' new bytes) (w : Overwritten inode'.data s₁ s₂ offset buffer) :
    Grew s s₂ inode inode' new (overwrite bytes offset buffer) := by
  have hsame := w.others
  have hout : ∀ x, x ∉ inode'.data.nodes s₁.disk → s₂.disk x = s₁.disk x := by
    intro x hx
    apply w.frame
    by_cases hzero : x = 0
    · exact .inl hzero
    · exact .inr fun hleaf => hx (TreeFormat.mem_nodes_iff.mpr (.inr ⟨hleaf, hzero⟩))
  have hinner : ∀ x ∈ indexFormat.inner s₁.disk inode'.data.roots, s₂.disk x = s₁.disk x :=
    fun x hx => w.frame x (.inr (not_mem_leaves_of_inner g.sound.nodup hx))
  have hfile : ∀ x ∈ s₁.freeMapNodes, s₂.disk x = s₁.disk x := by
    intro x hx
    apply hout
    intro hmem
    rw [g.nodes] at hx
    exact (g.mem_blocks h hmem).2.1 hx
  have hnodes : s₂.freeMapNodes = s₁.freeMapNodes := freeMapNodes_congr (by rw [hsame]) hfile
  have hused : s₂.used = s₁.used := by rw [hsame]
  have hsize : s₂.size = s₁.size := by rw [hsame]
  have hfree : s₂.freeSectors = s₁.freeSectors := freeSectors_congr hsize hused
  have hnotes : s₂.notes = s₁.notes := by rw [hsame]
  have hok := g.ok
  refine ⟨?_, hsize.trans g.size, ?_, hnodes.trans g.nodes, ?_, ?_, g.same, ?_, ?_, ?_, ?_, ?_, ?_⟩
  · refine hok.congr hsize (by rw [hsame]) hfile ?_ ?_ ?_
    · rw [hused]; exact hok.zero_used
    · rw [hused]; exact hok.inRange
    · rw [hused]; exact hok.nodes_used
  · rw [hsame]
    exact g.file
  · rw [hfree]
    exact g.free
  · rw [hused]
    exact g.used
  · rw [InodeDisk.nodes, TreeFormat.nodes_congr hinner]
    exact g.blocks
  · rw [hsize]
    exact g.sound.congr hinner
  · intro z hz hnode hznew hsector
    rw [hout z, g.frame z hz hnode hznew hsector]
    exact fun hmem => (g.mem_blocks h hmem).2.2.elim hnode hznew
  · rw [hout inode.sector, g.synced]
    exact fun hmem => (g.mem_blocks h hmem).1 rfl
  · rw [w.flat, g.flat]
  · rw [hnotes]
    exact g.notes

/-- What a write of at least one byte may come to. -/
theorem inodeWriteAt_cases (h : InodeOk s inode)
    (hsync : s.disk inode.sector = inode.data.toSector) (hallowed : inode.denyWriteCnt = 0)
    (hpos : 0 < buffer.length) (hsize : buffer.length < 2 ^ 31) (hoffset : offset < 2 ^ 31) :
    (∃ inode' s', inodeWriteAt inode buffer offset s = .ok (0, inode') s' ∧
      .exhausted ∈ s'.notes.drop s.notes.length) ∨
    (512 * maxSectors < offset + buffer.length ∧
      ((∃ e s', inodeWriteAt inode buffer offset s = .error e s') ∨
        inodeWriteAt inode buffer offset s = .ok (0, inode) s)) ∨
    (offset + buffer.length ≤ 512 * maxSectors ∧ ∃ inode' s' new,
      inodeWriteAt inode buffer offset s = .ok (buffer.length, inode') s' ∧
        Grew s s' inode inode' new (overwrite (inode.data.flat s.disk) offset buffer) ∧
        inode'.data.length.toInt = max inode.data.length.toInt (offset + buffer.length)) := by
  have hgo : ¬ inode.denyWriteCnt ≠ 0 := by simpa using hallowed
  rcases inodeMakeRoom_cases h hsync hpos hsize hoffset with
    ⟨inode', s', hrun, hexh⟩ | ⟨hlarge, hrest⟩ | ⟨hfits, inode', s₁, new, hrun, hgrew, hlen⟩
  · left
    refine ⟨inode', s', ?_, hexh⟩
    rw [inodeWriteAt, if_neg hgo, bind_of_ok hrun]
    rfl
  · right
    left
    refine ⟨hlarge, hrest.imp ?_ ?_⟩
    · intro herr
      obtain ⟨e, s', hrun⟩ := herr
      refine ⟨e, s', ?_⟩
      rw [inodeWriteAt, if_neg hgo, bind_of_error hrun]
    · intro hrun
      rw [inodeWriteAt, if_neg hgo, bind_of_ok hrun]
      rfl
  · right
    right
    obtain ⟨s₂, hloop, hover⟩ := @writeLoop_spec s₁ inode'.data hgrew.sound (buffer.length + 1) offset
      buffer (Nat.lt_succ_self _) (by omega)
    refine ⟨hfits, inode', s₂, new, ?_, hgrew.overwritten h hover, hlen⟩
    rw [inodeWriteAt, if_neg hgo, bind_of_ok hrun]
    dsimp only
    rw [if_pos rfl, bind_of_ok hloop]
    rfl

/-! ## A new inode -/

/-- The inode of an empty file. -/
def emptyInode (isDir : Bool) : InodeDisk where
  directBlocks := List.replicate directBlocksCount 0
  indirectBlock := 0
  doublyIndirectBlock := 0
  isDir := isDir
  length := 0
  magic := inodeMagic

theorem emptyInode_roots {isDir : Bool} {r : Nat × Sector} (hr : r ∈ (emptyInode isDir).roots) :
    r.2 = 0 := by
  rw [roots, emptyInode] at hr
  simp only [List.mem_append, List.mem_singleton, List.map_replicate] at hr
  rcases hr with (hr | hr) | hr
  · rw [List.eq_of_mem_replicate hr]
  · rw [hr]
  · rw [hr]

theorem emptyInode_nodes (isDir : Bool) (disk : Sector → Block) : (emptyInode isDir).nodes disk = [] :=
  TreeFormat.nodes_of_zero fun _ => emptyInode_roots

theorem emptyInode_flat (isDir : Bool) (disk : Sector → Block) :
    (emptyInode isDir).flat disk = List.replicate (512 * maxSectors) 0 := by
  rw [List.eq_replicate_iff]
  refine ⟨length_flat rfl, ?_⟩
  intro b hb
  obtain ⟨a, ha, hmem⟩ := List.mem_flatMap.mp hb
  have hzero : a = 0 := TreeFormat.leaves_of_zero (fun _ => emptyInode_roots) ha
  rw [hzero, sectorBytes_zero] at hmem
  exact List.eq_of_mem_replicate hmem

theorem emptyInode_numSectors (isDir : Bool) : (emptyInode isDir).numSectors = 0 := by
  have hlen : (emptyInode isDir).length.toInt = 0 := Int32.toInt_zero
  rw [numSectors, hlen]
  rfl

/-- An in-memory inode of an empty file. -/
def emptyAt (sector : Sector) (isDir : Bool) : Inode where
  sector := sector
  openCnt := 0
  removed := false
  denyWriteCnt := 0
  data := emptyInode isDir

theorem emptyAt_ok {sector : Sector} {isDir : Bool} (h : s.FreeMapOk) (hused : s.used sector = true)
    (hout : sector ∉ s.freeMapNodes) : InodeOk s (emptyAt sector isDir) where
  sound := by
    have hlen : (emptyAt sector isDir).data.length.toInt = 0 := Int32.toInt_zero
    have hnum : (emptyAt sector isDir).data.numSectors = 0 := emptyInode_numSectors isDir
    refine ⟨rfl, ?_, ?_, ?_, Int.le_of_eq hlen.symm, by rw [hnum]; exact Nat.zero_le _⟩
    · rw [emptyAt, emptyInode_nodes]
      exact List.nodup_nil
    · rw [emptyAt, emptyInode_nodes]
      intro x hx
      cases hx
    · rw [hnum]
      exact TreeFormat.filled_of_zero fun _ => emptyInode_roots
  ready := ready_below h fun _ => emptyInode_roots
  used := hused
  apart := by
    rw [emptyAt, emptyInode_nodes]
    exact List.not_mem_nil
  outside := hout

/-- What `inode_create` may come to. -/
theorem inodeCreate_cases {sector : Sector} {length : Int32} {isDir : Bool} (h : s.FreeMapOk)
    (hused : s.used sector = true) (hout : sector ∉ s.freeMapNodes) (hlength : 0 ≤ length.toInt) :
    (∃ s', inodeCreate sector length isDir s = .ok false s' ∧
      .exhausted ∈ s'.notes.drop s.notes.length) ∨
    (512 * maxSectors < length.toInt ∧ ∃ e s', inodeCreate sector length isDir s = .error e s') ∨
    (length.toInt ≤ 512 * maxSectors ∧ ∃ inode' s' new,
      inodeCreate sector length isDir s = .ok true s' ∧
        Grew s s' (emptyAt sector isDir) inode' new (List.replicate (512 * maxSectors) 0) ∧
        inode'.data.length = length) := by
  have hok := @emptyAt_ok s sector isDir h hused hout
  have hle : (0 : Int32) ≤ length := by
    rw [Int32.le_iff_toInt_le, Int32.toInt_zero]
    exact hlength
  have hneg : ¬ length < 0 := by
    rw [Int32.lt_iff_toInt_lt, Int32.toInt_zero]
    omega
  have hreserve : inodeReserve { emptyInode isDir with length := length } length s =
      reserveSectors { emptyInode isDir with length := length } (bytesToSectors length) s := by
    rw [inodeReserve, if_neg hneg]
  have hiff := bytesToSectors_le_iff hlength
  have hattempt := @reserveSectors_spec s (bytesToSectors length)
    { emptyInode isDir with length := length } rfl (ready_below h fun r hr => @emptyInode_roots isDir r hr)
  rw [inodeCreate, bind_of_ok (assert_of hle)]
  by_cases hless : s.freeSectors.length < (needs s
      ({ emptyInode isDir with length := length } : InodeDisk).roots (bytesToSectors length)).length
  · left
    obtain ⟨rs', s', ⟨d', -, -, hres⟩, hexh⟩ := hattempt.short hless
    refine ⟨s', ?_, hexh.noted⟩
    rw [reserveResult, if_neg (by simp), ← hreserve] at hres
    exact bind_of_ok hres
  obtain ⟨rs', s', new, ⟨d', rfl, hsame, hres⟩, hgrown⟩ := hattempt.enough (by omega)
  by_cases hmax : bytesToSectors length ≤ maxSectors
  · have hle := hiff.mp hmax
    right
    right
    rw [reserveResult, if_neg (by omega), ← hreserve] at hres
    have hlen : d'.length = length := by rw [hsame]
    have hnum : d'.numSectors = bytesToSectors length := by
      have hlarge : maxSectors = 16635 := rfl
      rw [bytesToSectors_eq (by omega) (by omega), numSectors, hlen]
    have hzero : (emptyInode isDir).numSectors ≤ bytesToSectors length := by
      rw [emptyInode_numSectors]
      exact Nat.zero_le _
    have hgrew := Reserved.grew hok hgrown hnum hzero (by rw [hlen]; exact hlength) hmax
    have hflat : (emptyAt sector isDir).data.flat s.disk = List.replicate (512 * maxSectors) 0 :=
      emptyInode_flat isDir s.disk
    rw [hflat] at hgrew
    have hlt : sector < s'.size := by
      rw [hgrown.size]
      exact h.inRange _ hused
    refine ⟨hle, _, _, new, ?_, hgrew, hlen⟩
    refine (bind_of_ok hres).trans ?_
    dsimp only
    rw [if_pos rfl, bind_of_ok (bufferCacheWrite_of_lt hlt)]
    rfl
  · right
    left
    refine ⟨by omega, .assertFailed, s', ?_⟩
    rw [reserveResult, if_pos ⟨rfl, by omega⟩, ← hreserve] at hres
    exact bind_of_error hres

end CSE130.Filesys
