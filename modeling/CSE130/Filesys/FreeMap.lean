import CSE130.Filesys.FileContent

/-!
# The free map

Rendering of `filesys/free-map.c` for single sectors, with what it uses of `lib/kernel/bitmap.c`. After
every change the bitmap is written to the free map file; it overwrites a part of that file's data, and
no more.
-/

namespace CSE130.Filesys

open CSE130.Library InodeDisk

/-- The sectors of a device. -/
def sectors (size : Sector) : List Sector := (List.range size.toNat).map UInt32.ofNat

/-- `bitmap_file_size` (`bitmap.c:332-336`). -/
def bitmapFileSize (size : Sector) : Nat := 4 * ((size.toNat + 31) / 32)

namespace Store

/-- The sectors that are not marked in the free map, in the order in which they are found. -/
def freeSectors (s : Store) : List Sector := (sectors s.size).filter fun x => !s.used x

/-- `bitmap_scan` (`bitmap.c:295-310`) for one bit that is not set. -/
def bitmapScan (s : Store) : Option Sector := (sectors s.size).find? fun x => !s.used x

/-- A byte of the bitmap. -/
def bitmapByte (s : Store) (k : Nat) : UInt8 :=
  UInt8.ofNat (((List.range 8).map fun j =>
    if 8 * k + j < s.size.toNat ∧ s.used (UInt32.ofNat (8 * k + j)) = true then 2 ^ j else 0).sum)

/-- The bytes of the bitmap. -/
def bitmapBytes (s : Store) : List UInt8 := (List.range (bitmapFileSize s.size)).map s.bitmapByte

/-- The store after a bit of the free map has been set or cleared. -/
def setUsed (s : Store) (x : Sector) (b : Bool) : Store := { s with used := Function.update s.used x b }

end Store

/-- `file_write_at` (`file.c:109-114`) of the bitmap to the start of a file, and the comparison of its
result. -/
def fileWriteBitmap (d : InodeDisk) (bits : List UInt8) : StoreM Bool := do
  let sector ← byteToSector d ((bits.length : Int) - 1)
  if sector = noSector then throw .freeMapFileGrows
  else do
    let written ← writeLoop d (bits.length + 1) bits 0
    pure (written = bits.length)

/-- `bitmap_write (free_map, free_map_file)` (`bitmap.c:355-360`). -/
def bitmapWrite : StoreM Bool := do
  let s ← get
  match s.freeMapFile with
  | none => throw .nullPointer
  | some d => fileWriteBitmap d s.bitmapBytes

/-- The condition of `free_map_allocate` on writing the bitmap. -/
def bitmapWritten : StoreM Bool := do
  let s ← get
  if s.freeMapFile = none then pure true else bitmapWrite

/-- `free_map_allocate (1, sectorp)` (`free-map.c:27-41`): the sector that is stored, if any. -/
def freeMapAllocate : StoreM (Option Sector) := do
  let s ← get
  match s.bitmapScan with
  | none => do
    note .exhausted
    pure none
  | some sector => do
    set (s.setUsed sector true)
    let written ← bitmapWritten
    if written then do
      note (.allocated sector)
      pure (some sector)
    else do
      modify fun s => s.setUsed sector false
      note .exhausted
      pure none

/-- `free_map_release (sector, 1)` (`free-map.c:44-50`). -/
def freeMapRelease (sector : Sector) : StoreM Unit := do
  let s ← get
  assert (sector < s.size ∧ s.used sector = true)
  set ((s.setUsed sector false).noted (.released sector))
  let _ ← bitmapWrite
  pure ()

namespace Store

/-- The blocks of the free map file, behind its inode. -/
def freeMapNodes (s : Store) : List Sector :=
  match s.freeMapFile with
  | none => []
  | some d => d.nodes s.disk

/-- The free map file has the length of the bitmap, and its sectors are marked in the free map, like
that of its inode. -/
structure FreeMapOk (s : Store) : Prop where
  zero_used : s.used 0 = true
  inRange : ∀ x, s.used x = true → x < s.size
  sound : ∀ d, s.freeMapFile = some d → d.Sound s.disk s.size
  length : ∀ d, s.freeMapFile = some d → d.length.toInt = bitmapFileSize s.size
  nodes_used : ∀ x ∈ s.freeMapNodes, s.used x = true

end Store

open Store

variable {s s' : Store} {x : Sector} {d : InodeDisk} {rest : List Sector}

theorem mem_sectors {size : Sector} : x ∈ sectors size ↔ x < size := by
  rw [sectors, List.mem_map, UInt32.lt_iff_toNat_lt]
  constructor
  · intro h
    obtain ⟨n, hn, rfl⟩ := h
    rw [List.mem_range] at hn
    have hsize := size.toNat_lt
    rw [UInt32.toNat_ofNat']
    omega
  · intro h
    exact ⟨x.toNat, List.mem_range.mpr h, UInt32.ofNat_toNat⟩

theorem nodup_sectors (size : Sector) : (sectors size).Nodup := by
  refine List.Nodup.map_on ?_ List.nodup_range
  intro m hm n hn heq
  rw [List.mem_range] at hm hn
  have hsize := size.toNat_lt
  have hnat := congrArg UInt32.toNat heq
  rw [UInt32.toNat_ofNat', UInt32.toNat_ofNat'] at hnat
  omega

theorem mem_freeSectors : x ∈ s.freeSectors ↔ x < s.size ∧ s.used x = false := by
  rw [freeSectors, List.mem_filter, mem_sectors, Bool.not_eq_true']

theorem bitmapScan_eq : s.bitmapScan = s.freeSectors.head? := by
  rw [bitmapScan, freeSectors, List.head?_filter]

theorem bitmapScan_eq_some : s.bitmapScan = some x ↔ ∃ rest, s.freeSectors = x :: rest := by
  rw [bitmapScan_eq, List.head?_eq_some_iff]

theorem freeSectors_nodup (s : Store) : s.freeSectors.Nodup := (nodup_sectors s.size).filter _

theorem freeSectors_setUsed (h : s.freeSectors = x :: rest) : (s.setUsed x true).freeSectors = rest := by
  have hnodup := freeSectors_nodup s
  rw [h, List.nodup_cons] at hnodup
  have hfilter : (s.setUsed x true).freeSectors = s.freeSectors.filter fun y => y ≠ x := by
    rw [freeSectors, freeSectors, List.filter_filter]
    apply List.filter_congr
    intro y _
    by_cases hy : y = x
    · simp [setUsed, hy]
    · simp [setUsed, hy]
  rw [hfilter, h, List.filter_cons_of_neg (by simp), List.filter_eq_self]
  intro y hy
  simpa using ne_of_mem_of_not_mem hy hnodup.1

theorem freeSectors_congr (hsize : s'.size = s.size) (hused : s'.used = s.used) :
    s'.freeSectors = s.freeSectors := by
  rw [freeSectors, freeSectors, hsize, hused]

theorem ne_noSector {size : Sector} (h : x < size) : x ≠ noSector := by
  intro heq
  subst heq
  have hsize := size.toNat_lt
  rw [UInt32.lt_iff_toNat_lt] at h
  have hmax : noSector.toNat = 2 ^ 32 - 1 := rfl
  omega

/-! ## The bitmap in its file -/

theorem length_bitmapBytes (s : Store) : s.bitmapBytes.length = bitmapFileSize s.size := by
  rw [bitmapBytes, List.length_map, List.length_range]

theorem freeMapNodes_eq (h : s.freeMapFile = some d) : s.freeMapNodes = d.nodes s.disk := by
  rw [freeMapNodes, h]

theorem freeMapNodes_congr (hfile : s'.freeMapFile = s.freeMapFile)
    (hdisk : ∀ x ∈ s.freeMapNodes, s'.disk x = s.disk x) : s'.freeMapNodes = s.freeMapNodes := by
  unfold freeMapNodes at hdisk ⊢
  rw [hfile]
  cases hd : s.freeMapFile with
  | none => rfl
  | some d =>
    rw [hd] at hdisk
    exact TreeFormat.nodes_congr fun x hx => hdisk x (TreeFormat.inner_subset_nodes hx)

/-- The free map has changed as given, together with its file. -/
structure FreeMapSet (s s' : Store) (used : Sector → Bool) (notes : List Note) : Prop where
  ok : s'.FreeMapOk
  used : s'.used = used
  notes : s'.notes = s.notes ++ notes
  size : s'.size = s.size
  file : s'.freeMapFile = s.freeMapFile
  nodes : s'.freeMapNodes = s.freeMapNodes
  frame : ∀ x, x ∉ s.freeMapNodes → s'.disk x = s.disk x

/-- Sectors outside the free map file do not matter to it. -/
theorem Store.FreeMapOk.congr (h : s.FreeMapOk) (hsize : s'.size = s.size)
    (hfile : s'.freeMapFile = s.freeMapFile) (hdisk : ∀ x ∈ s.freeMapNodes, s'.disk x = s.disk x)
    (hzero : s'.used 0 = true) (hrange : ∀ x, s'.used x = true → x < s.size)
    (hnodes : ∀ x ∈ s.freeMapNodes, s'.used x = true) : s'.FreeMapOk where
  zero_used := hzero
  inRange := by rw [hsize]; exact hrange
  sound := by
    intro d hd
    rw [hfile] at hd
    rw [hsize]
    apply (h.sound d hd).congr
    intro x hx
    apply hdisk
    rw [freeMapNodes_eq hd]
    exact TreeFormat.inner_subset_nodes hx
  length := by rw [hfile, hsize]; exact h.length
  nodes_used := by rw [freeMapNodes_congr hfile hdisk]; exact hnodes

theorem zero_not_mem_freeMapNodes : (0 : Sector) ∉ s.freeMapNodes := by
  intro h
  unfold freeMapNodes at h
  cases hd : s.freeMapFile with
  | none => simp [hd] at h
  | some d =>
    rw [hd] at h
    exact TreeFormat.ne_zero_of_mem_nodes h rfl

theorem bitmapWrite_spec (h : s.FreeMapOk) (hfile : s.freeMapFile = some d) :
    ∃ s', bitmapWrite s = .ok true s' ∧ FreeMapSet s s' s.used [] := by
  have hsound := h.sound d hfile
  have hlen : (s.bitmapBytes.length : Int) = d.length.toInt := by
    rw [length_bitmapBytes, h.length d hfile]
  have hpos : 0 < s.bitmapBytes.length := by
    have hzero := UInt32.lt_iff_toNat_lt.mp (h.inRange 0 h.zero_used)
    rw [length_bitmapBytes, bitmapFileSize]
    omega
  have hcast : (s.bitmapBytes.length : Int) - 1 = ((s.bitmapBytes.length - 1 : Nat) : Int) := by omega
  obtain ⟨a, hi, ha, hsector⟩ := byteToSector_spec hsound (p := s.bitmapBytes.length - 1) (by omega)
  obtain ⟨s', hwrite, hover⟩ := @writeLoop_spec s d hsound (s.bitmapBytes.length + 1) 0 s.bitmapBytes
    (by omega) (by omega)
  have hsame := hover.others
  have hframe : ∀ x, x ∉ d.nodes s.disk → s'.disk x = s.disk x := by
    intro x hx
    apply hover.frame
    by_cases hzero : x = 0
    · exact .inl hzero
    · exact .inr fun hleaf => hx (TreeFormat.mem_nodes_iff.mpr (.inr ⟨hleaf, hzero⟩))
  have hinner : ∀ x ∈ indexFormat.inner s.disk d.roots, s'.disk x = s.disk x :=
    fun x hx => hover.frame x (.inr (not_mem_leaves_of_inner hsound.nodup hx))
  have hnodes : d.nodes s'.disk = d.nodes s.disk := TreeFormat.nodes_congr hinner
  have hfile' : s'.freeMapFile = some d := by rw [hsame]; exact hfile
  refine ⟨s', ?_, ?_⟩
  · rw [bitmapWrite, get_bind, hfile]
    dsimp only
    rw [fileWriteBitmap, hcast, bind_of_ok hsector,
      if_neg (ne_noSector (hsound.inRange a (leaf_mem_nodes hi ha))), bind_of_ok hwrite]
    simp [pure, EStateM.pure]
  · refine ⟨?_, ?_, ?_, ?_, ?_, ?_, ?_⟩
    · refine ⟨?_, ?_, ?_, ?_, ?_⟩
      · rw [hsame]; exact h.zero_used
      · rw [hsame]; exact h.inRange
      · intro d' hd'
        cases hfile'.symm.trans hd'
        rw [hsame]
        exact hsound.congr hinner
      · intro d' hd'
        cases hfile'.symm.trans hd'
        rw [hsame]
        exact h.length d hfile
      · rw [freeMapNodes_eq hfile', hnodes, ← freeMapNodes_eq hfile, hsame]
        exact h.nodes_used
    · rw [hsame]
    · rw [hsame, List.append_nil]
    · rw [hsame]
    · rw [hsame]
    · rw [freeMapNodes_eq hfile', hnodes, ← freeMapNodes_eq hfile]
    · rw [freeMapNodes_eq hfile]
      exact hframe

/-! ## Allocation and release -/

@[simp] theorem setUsed_used (b : Bool) : (s.setUsed x b).used = Function.update s.used x b := rfl
@[simp] theorem setUsed_disk (b : Bool) : (s.setUsed x b).disk = s.disk := rfl
@[simp] theorem setUsed_size (b : Bool) : (s.setUsed x b).size = s.size := rfl
@[simp] theorem setUsed_notes (b : Bool) : (s.setUsed x b).notes = s.notes := rfl
@[simp] theorem setUsed_freeMapFile (b : Bool) : (s.setUsed x b).freeMapFile = s.freeMapFile := rfl

theorem Store.FreeMapOk.mark (h : s.FreeMapOk) (hx : x < s.size) : (s.setUsed x true).FreeMapOk := by
  refine h.congr rfl rfl (fun _ _ => rfl) ?_ ?_ ?_
  · by_cases hzero : (0 : Sector) = x
    · rw [setUsed_used, hzero, Function.update_self]
    · rw [setUsed_used, Function.update_of_ne hzero]
      exact h.zero_used
  · intro y hy
    by_cases heq : y = x
    · rwa [heq]
    · rw [setUsed_used, Function.update_of_ne heq] at hy
      exact h.inRange y hy
  · intro y hy
    by_cases heq : y = x
    · rw [setUsed_used, heq, Function.update_self]
    · rw [setUsed_used, Function.update_of_ne heq]
      exact h.nodes_used y hy

theorem Store.FreeMapOk.clear (h : s.FreeMapOk) (hzero : x ≠ 0) (hx : x ∉ s.freeMapNodes) :
    (s.setUsed x false).FreeMapOk := by
  refine h.congr rfl rfl (fun _ _ => rfl) ?_ ?_ ?_
  · rw [setUsed_used, Function.update_of_ne hzero.symm]
    exact h.zero_used
  · intro y hy
    by_cases heq : y = x
    · rw [setUsed_used, heq, Function.update_self] at hy
      cases hy
    · rw [setUsed_used, Function.update_of_ne heq] at hy
      exact h.inRange y hy
  · intro y hy
    rw [setUsed_used, Function.update_of_ne (ne_of_mem_of_not_mem hy hx)]
    exact h.nodes_used y hy

theorem Store.FreeMapOk.noted (h : s.FreeMapOk) (n : Note) : (s.noted n).FreeMapOk :=
  ⟨h.zero_used, h.inRange, h.sound, h.length, h.nodes_used⟩

theorem bitmapWritten_spec (h : s.FreeMapOk) :
    ∃ s', bitmapWritten s = .ok true s' ∧ FreeMapSet s s' s.used [] := by
  rw [bitmapWritten, get_bind]
  split_ifs with hnone
  · exact ⟨s, rfl, h, rfl, (List.append_nil _).symm, rfl, rfl, rfl, fun _ _ => rfl⟩
  · obtain ⟨d, hd⟩ := Option.ne_none_iff_exists'.mp hnone
    exact bitmapWrite_spec h hd

theorem set_bind {σ ε β : Type} {f : PUnit → EStateM ε σ β} {s t : σ} :
    (set t >>= f) s = f ⟨⟩ t := rfl

/-- A free sector is allocated, the first one. -/
theorem freeMapAllocate_spec (h : s.FreeMapOk) (hfree : s.freeSectors = x :: rest) :
    ∃ s', freeMapAllocate s = .ok (some x) s' ∧
      FreeMapSet s s' (Function.update s.used x true) [.allocated x] ∧ s'.freeSectors = rest := by
  have hx : x < s.size := (mem_freeSectors.mp (by rw [hfree]; exact List.mem_cons_self)).1
  obtain ⟨t, hwrite, hok, hused, hnotes, hsize, hfile, hnodes, hframe⟩ :=
    bitmapWritten_spec (h.mark hx)
  refine ⟨t.noted (.allocated x), ?_, ⟨hok.noted _, hused, ?_, hsize, hfile, hnodes, hframe⟩, ?_⟩
  · rw [freeMapAllocate, get_bind, bitmapScan_eq_some.mpr ⟨rest, hfree⟩]
    dsimp only
    rw [set_bind, bind_of_ok hwrite]
    rfl
  · rw [noted_notes, hnotes, List.append_nil, setUsed_notes]
  · rw [freeSectors_congr (show (t.noted (.allocated x)).size = (s.setUsed x true).size from hsize)
      (show (t.noted (.allocated x)).used = (s.setUsed x true).used from hused)]
    exact freeSectors_setUsed hfree

/-- On a full disk nothing is allocated. -/
theorem freeMapAllocate_full (hfree : s.freeSectors = []) :
    freeMapAllocate s = .ok none (s.noted .exhausted) := by
  have hscan : s.bitmapScan = none := by rw [bitmapScan_eq, hfree]; rfl
  rw [freeMapAllocate, get_bind, hscan]
  rfl

/-- A sector outside the free map file is released if it is marked. -/
theorem freeMapRelease_spec (h : s.FreeMapOk) (hfile : s.freeMapFile = some d)
    (hx : s.used x = true) (hzero : x ≠ 0) (hnode : x ∉ s.freeMapNodes) :
    ∃ s', freeMapRelease x s = .ok () s' ∧
      FreeMapSet s s' (Function.update s.used x false) [.released x] := by
  obtain ⟨t, hwrite, hset⟩ := @bitmapWrite_spec ((s.setUsed x false).noted (.released x)) d
    ((h.clear hzero hnode).noted _) hfile
  refine ⟨t, ?_, ?_⟩
  · rw [freeMapRelease, get_bind, bind_of_ok (assert_of ⟨h.inRange x hx, hx⟩), set_bind,
      bind_of_ok hwrite]
    rfl
  · refine ⟨hset.ok, hset.used, ?_, hset.size, hset.file, hset.nodes, hset.frame⟩
    rw [hset.notes, List.append_nil]
    rfl

/-! ## A free map file of one sector -/

/-- The inode of the free map file of a device of at most 4096 sectors; its data are in sector 2. -/
def smallFreeMapFile (size : Sector) : InodeDisk where
  directBlocks := 2 :: List.replicate 122 0
  indirectBlock := 0
  doublyIndirectBlock := 0
  isDir := false
  length := Int32.ofNat (bitmapFileSize size)
  magic := inodeMagic

theorem smallFreeMapFile_roots (size : Sector) : (smallFreeMapFile size).roots =
    [(0, 2)] ++ (List.replicate 122 (0, 0) ++ [(1, 0)] ++ [(2, 0)]) := by
  rw [roots, smallFreeMapFile, List.map_cons, List.map_replicate]
  rfl

/-- The entries behind the first one. -/
theorem zero_of_mem_rest {r : Nat × Sector}
    (h : r ∈ List.replicate 122 ((0 : Nat), (0 : Sector)) ++ [(1, 0)] ++ [(2, 0)]) : r.2 = 0 := by
  simp only [List.mem_append, List.mem_singleton] at h
  rcases h with (h | h) | h
  · rw [List.eq_of_mem_replicate h]
  · rw [h]
  · rw [h]

theorem smallFreeMapFile_nodes (size : Sector) (disk : Sector → Block) :
    (smallFreeMapFile size).nodes disk = [2] := by
  rw [InodeDisk.nodes, smallFreeMapFile_roots, TreeFormat.nodes_append,
    TreeFormat.nodes_of_zero fun _ => zero_of_mem_rest, TreeFormat.nodes_leaf]
  rfl

theorem smallFreeMapFile_sound {size : Sector} (disk : Sector → Block) (h2 : 2 < size)
    (h : size.toNat ≤ 4096) : (smallFreeMapFile size).Sound disk size := by
  have hlt := UInt32.lt_iff_toNat_lt.mp h2
  have htwo : (2 : UInt32).toNat = 2 := rfl
  have hlen : (smallFreeMapFile size).length.toInt = bitmapFileSize size := by
    apply Int32.toInt_ofNat_of_lt
    unfold bitmapFileSize
    omega
  have hnum : (smallFreeMapFile size).numSectors = 1 := by
    rw [numSectors, hlen, bitmapFileSize]
    omega
  refine ⟨rfl, ?_, ?_, ?_, ?_, ?_⟩
  · rw [smallFreeMapFile_nodes]
    exact List.nodup_singleton 2
  · rw [smallFreeMapFile_nodes]
    intro x hx
    rwa [List.mem_singleton.mp hx]
  · rw [hnum, smallFreeMapFile_roots, TreeFormat.filled_append]
    refine ⟨?_, TreeFormat.filled_of_zero fun _ => zero_of_mem_rest⟩
    rw [TreeFormat.filled_leaf]
    decide
  · rw [hlen]
    exact Int.natCast_nonneg _
  · rw [hnum]
    decide

/-- A store with the small free map file is in order if the sectors 0 and 2 are marked. -/
theorem freeMapOk_of_small (hfile : s.freeMapFile = some (smallFreeMapFile s.size))
    (h : s.size.toNat ≤ 4096) (hrange : ∀ x, s.used x = true → x < s.size)
    (h0 : s.used 0 = true) (h2 : s.used 2 = true) : s.FreeMapOk where
  zero_used := h0
  inRange := hrange
  sound := by
    intro d hd
    cases hfile.symm.trans hd
    exact smallFreeMapFile_sound s.disk (hrange 2 h2) h
  length := by
    intro d hd
    cases hfile.symm.trans hd
    apply Int32.toInt_ofNat_of_lt
    unfold bitmapFileSize
    omega
  nodes_used := by
    rw [freeMapNodes_eq hfile, smallFreeMapFile_nodes]
    intro x hx
    rwa [List.mem_singleton.mp hx]

end CSE130.Filesys
