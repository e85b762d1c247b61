import CSE130.Filesys.Archive

/-!
# Reading an archive

`fsutil_extract` creates the files of an archive one after the other, as long as the entry that stands for
the root directory itself is marked as used. Otherwise the first file takes that entry and cannot be
opened.
-/

namespace CSE130.Filesys

open CSE130.Library OpenInodes

/-! ## Sectors that are read -/

namespace Device

variable {d : Device} {k : Nat} {b : Block} {l l' : List Block}

/-- The sectors of the list are read from sector `k` on. -/
def Reads (d : Device) (k : Nat) (l : List Block) : Prop :=
  ∀ i b, l[i]? = some b → d.blockRead (UInt32.ofNat (k + i)) = .ok b

theorem Reads.head (h : d.Reads k (b :: l)) : d.blockRead (UInt32.ofNat k) = .ok b := h 0 b rfl

theorem Reads.tail (h : d.Reads k (b :: l)) : d.Reads (k + 1) l := by
  intro i b' hi
  rw [Nat.add_assoc, Nat.add_comm 1 i]
  exact h (i + 1) b' hi

theorem Reads.left (h : d.Reads k (l ++ l')) : d.Reads k l := by
  intro i b hi
  apply h i b
  rw [List.getElem?_append_left (List.getElem?_eq_some_iff.mp hi).1]
  exact hi

theorem Reads.right (h : d.Reads k (l ++ l')) : d.Reads (k + l.length) l' := by
  intro i b hi
  rw [Nat.add_assoc]
  apply h (l.length + i) b
  rw [List.getElem?_append_right (Nat.le_add_right _ _), Nat.add_sub_cancel_left]
  exact hi

theorem reads_overlay (hfits : l.length ≤ d.size) (hsize : d.size ≤ 2 ^ 32) : (d.overlay l).Reads 0 l := by
  intro i b hi
  have hlt : i < d.size := Nat.lt_of_lt_of_le (List.getElem?_eq_some_iff.mp hi).1 hfits
  have hnat := toNat_sector hlt hsize
  rw [Nat.zero_add, blockRead_of_lt (by rw [hnat, overlay_size]; exact hlt), overlay]
  dsimp only
  rw [hnat, List.getD_eq_getElem?_getD, hi]
  rfl

end Device

/-! ## Copying the bytes -/

namespace FsState

variable {fs : FsState} {p : Nat} {inode : InodeRef} {bytes buffer done : List UInt8} {n : Nat}
  {s s' : Sector}

/-- The file system with other bytes in a file. -/
def withBytes (fs : FsState) (s : Sector) (bytes : List UInt8) : FsState where
  opened := { fs.opened with
    vol := { fs.opened.vol with bytes := Function.update fs.opened.vol.bytes s bytes } }
  free := fs.free

theorem withBytes_self (h : fs.opened.vol.bytes s = bytes) : fs.withBytes s bytes = fs := by
  rw [withBytes, ← h, Function.update_eq_self]

theorem withBytes_withBytes (fs : FsState) (s : Sector) (bytes bytes' : List UInt8) :
    (fs.withBytes s bytes).withBytes s bytes' = fs.withBytes s bytes' := by
  simp only [withBytes, Function.update_idem]

theorem bytes_withBytes_self : (fs.withBytes s bytes).opened.vol.bytes s = bytes :=
  Function.update_self _ _ _

theorem bytes_withBytes_of_ne (h : s' ≠ s) :
    (fs.withBytes s bytes).opened.vol.bytes s' = fs.opened.vol.bytes s' := Function.update_of_ne h _ _

/-- Writing over the zeros behind the bytes that have been written. -/
theorem fileWrite_ok (hp : fs.opened.inodes p = some inode)
    (hbytes : fs.opened.vol.bytes inode.sector = done ++ List.replicate n 0) (hne : buffer ≠ [])
    (hlen : buffer.length ≤ n) (hmax : done.length + n ≤ maxLength) :
    fs.fileWrite ⟨p, done.length⟩ buffer = .ok (buffer.length, ⟨p, done.length + buffer.length⟩,
      fs.withBytes inode.sector (done ++ buffer ++ List.replicate (n - buffer.length) 0)) := by
  have hat : fs.opened.inodeAt p = .ok inode := by rw [inodeAt, hp]
  have hold : (fs.opened.vol.bytes inode.sector).length = done.length + n := by
    rw [hbytes, List.length_append, List.length_replicate]
  have hwritten : writeAt (fs.opened.vol.bytes inode.sector) done.length buffer =
      done ++ buffer ++ List.replicate (n - buffer.length) 0 := by
    rw [writeAt, if_neg hne, hold, hbytes, List.take_left, Nat.sub_eq_zero_of_le (Nat.le_add_right _ _),
      ← List.drop_drop, List.drop_left, List.drop_replicate]
    simp
  have hnew : (done ++ buffer ++ List.replicate (n - buffer.length) (0 : UInt8)).length =
      done.length + n := by
    rw [List.length_append, List.length_append, List.length_replicate]
    omega
  have hwrite : ∀ grows, fs.opened.vol.inodeWriteAt grows inode.sector buffer done.length =
      (buffer.length, (fs.withBytes inode.sector
        (done ++ buffer ++ List.replicate (n - buffer.length) 0)).opened.vol) := by
    intro grows
    rw [Volume.inodeWriteAt, if_pos (.inr (by rw [hold]; omega)), hwritten]
    rfl
  rw [fileWrite]
  dsimp only
  rw [hat, mapError_ok, ok_bind, hwrite]
  dsimp only
  rw [grown_of_le (by rw [bytes_withBytes_self, hnew]; exact hmax), bytes_withBytes_self, hnew, hold,
    Nat.sub_self]
  rfl

end FsState

namespace Fsutil

variable {x : ExtractState} {fs : FsState} {src : Device} {k p : Nat} {inode : InodeRef}
  {bytes done fileName : List UInt8} {e : Nat → DirEntry}

/-- One round of the inner loop of `fsutil_extract`. -/
theorem copyOut_step {rounds : Nat} (hp : fs.opened.inodes p = some inode)
    (hbytes : fs.opened.vol.bytes inode.sector = done ++ List.replicate bytes.length 0)
    (hne : bytes ≠ []) (hmax : done.length + bytes.length ≤ maxLength)
    (hread : src.blockRead (UInt32.ofNat k) = .ok (toBlock bytes)) :
    copyOut fileName (rounds + 1) ⟨UInt32.ofNat k, src, fs⟩ ⟨p, done.length⟩ bytes.length =
      copyOut fileName rounds ⟨UInt32.ofNat (k + 1), src, fs.withBytes inode.sector
        (done ++ bytes.take 512 ++ List.replicate (bytes.drop 512).length 0)⟩
        ⟨p, (done ++ bytes.take 512).length⟩ (bytes.drop 512).length := by
  have htake : bytes.take 512 ≠ [] := by
    intro hnil
    rcases List.take_eq_nil_iff.mp hnil with h | h
    · cases h
    · exact hne h
  have hlen : (bytes.take 512).length ≤ bytes.length := by
    rw [List.length_take]
    exact Nat.min_le_right _ _
  have hwrite := FsState.fileWrite_ok hp hbytes htake hlen hmax
  have hrest : bytes.length - (bytes.take 512).length = (bytes.drop 512).length := by
    rw [length_take_chunkSize, ← drop_chunkSize, List.length_drop]
  have hsector : UInt32.ofNat k + 1 = UInt32.ofNat (k + 1) := by
    rw [UInt32.ofNat_add]
    rfl
  rw [copyOut, if_neg fun h => hne (List.length_eq_zero_iff.mp h)]
  dsimp only
  rw [hread, mapError_ok, ok_bind, toBlock_take_chunkSize, hwrite, mapError_ok, ok_bind]
  dsimp only
  rw [length_take_chunkSize, if_neg (not_not.mpr rfl), ← length_take_chunkSize, hrest, hsector,
    List.length_append]

/-- The loop writes the bytes to the file. -/
theorem copyOut_ok {rounds : Nat} (hp : fs.opened.inodes p = some inode)
    (hbytes : fs.opened.vol.bytes inode.sector = done ++ List.replicate bytes.length 0)
    (hmax : done.length + bytes.length ≤ maxLength) (hrounds : bytes.length ≤ rounds)
    (hread : src.Reads k (dataBlocks bytes)) :
    copyOut fileName rounds ⟨UInt32.ofNat k, src, fs⟩ ⟨p, done.length⟩ bytes.length = .ok
      (⟨UInt32.ofNat (k + (dataBlocks bytes).length), src, fs.withBytes inode.sector (done ++ bytes)⟩,
        ⟨p, (done ++ bytes).length⟩) := by
  induction rounds generalizing bytes done k fs with
  | zero =>
    have hnil : bytes = [] := List.length_eq_zero_iff.mp (Nat.le_zero.mp hrounds)
    subst hnil
    have hself : fs.withBytes inode.sector (done ++ []) = fs := FsState.withBytes_self hbytes
    rw [hself, List.append_nil]
    rfl
  | succ rounds ih =>
    by_cases hnil : bytes = []
    · subst hnil
      have hself : fs.withBytes inode.sector (done ++ []) = fs := FsState.withBytes_self hbytes
      rw [hself, List.append_nil]
      rfl
    · have hpos := List.length_pos_iff.mpr hnil
      rw [dataBlocks_cons hnil] at hread
      have hsum : (bytes.take 512).length + (bytes.drop 512).length = bytes.length := by
        rw [← List.length_append, List.take_append_drop]
      have hnext := @ih (fs.withBytes inode.sector
        (done ++ bytes.take 512 ++ List.replicate (bytes.drop 512).length 0)) (k + 1) (bytes.drop 512)
        (done ++ bytes.take 512) hp FsState.bytes_withBytes_self
        (by rw [List.length_append]; omega) (by rw [List.length_drop]; omega) hread.tail
      rw [copyOut_step hp hbytes hnil hmax hread.head, hnext, FsState.withBytes_withBytes,
        List.append_assoc, List.take_append_drop, dataBlocks_cons hnil, List.length_cons,
        Nat.add_assoc k, Nat.add_comm 1]

end Fsutil

/-! ## One file after the other -/

theorem sectorsFor_mono {n m : Nat} (h : n ≤ m) : sectorsFor n ≤ sectorsFor m := by
  have hdiv : divRoundUp n 512 ≤ divRoundUp m 512 := Nat.div_le_div_right (by omega)
  have hindex : divRoundUp (divRoundUp n 512 - (directBlocksCount + indirectBlocksPerSector))
      indirectBlocksPerSector ≤ divRoundUp (divRoundUp m 512 -
        (directBlocksCount + indirectBlocksPerSector)) indirectBlocksPerSector :=
    Nat.div_le_div_right (by omega)
  unfold sectorsFor reservedSectors
  split_ifs <;> omega

/-- The sectors that have to be left for files. -/
def roomFor (files : List NamedFile) : Nat := (files.map fun f => 1 + sectorsFor f.bytes.length).sum

theorem roomFor_cons (f : NamedFile) (files : List NamedFile) :
    roomFor (f :: files) = 1 + sectorsFor f.bytes.length + roomFor files := rfl

/-- The bytes of the root directory with so many files. -/
def rootLength (count : Nat) : Nat := entrySize * (max 15 count + 1)

/-- `done` has been extracted, and there is room for `rest`. -/
structure Extracted (fs : FsState) (refs : List Nat) (first : DirEntry) (done rest : List NamedFile)
    (tail : List DirEntry) (map : NameMap) : Prop where
  counted : Counted fs.opened refs
  noneRemoved : NoneRemoved fs.opened
  dir : DirOk fs.opened.vol rootDirSector rootDirSector first tail map
  names : ∀ name, (map name).isSome = true ↔ name ∈ done.map NamedFile.name
  files : ∀ f ∈ done, ∃ s, map f.name = some s ∧ s ∉ fs.free ∧ s ≠ rootDirSector ∧
    fs.opened.vol.bytes s = f.bytes ∧ fs.opened.vol.isDir s = false
  nodup : fs.free.Nodup
  root : rootDirSector ∉ fs.free
  slots : tail.length ≤ max 15 done.length
  room : roomFor rest + sectorsFor (rootLength (done.length + rest.length)) ≤
    fs.free.length + sectorsFor (entrySize * (tail.length + 1))

/-- What the files are that go through an archive. -/
structure Portable (files : List NamedFile) : Prop where
  plain : ∀ f ∈ files, PlainName f.name
  nodup : (files.map NamedFile.name).Nodup
  length : ∀ f ∈ files, f.bytes.length ≤ maxLength
  root : rootLength files.length ≤ maxLength

namespace Extracted

open FsState

variable {fs : FsState} {refs : List Nat} {first : DirEntry} {done rest : List NamedFile}
  {tail : List DirEntry} {map : NameMap} {f : NamedFile} {e : Nat → DirEntry} {src : Device} {k : Nat}

theorem perm (h : Extracted fs refs first done rest tail map) (hnodup : (done.map NamedFile.name).Nodup) :
    ((entries tail).map Prod.fst).Perm (done.map NamedFile.name) :=
  (List.perm_ext_iff_of_nodup h.dir.lists.nodup hnodup).mpr fun name => by
    rw [← h.dir.lists.isSome, h.names]

/-- Where no slot is free, every slot behind the first is that of a file. -/
theorem full (h : Extracted fs refs first done rest tail map) (hnodup : (done.map NamedFile.name).Nodup)
    (hfull : ∀ y ∈ tail, y.inUse ≠ 0) : tail.length = done.length := by
  have hfilter : (tail.filter fun y => y.inUse ≠ 0) = tail :=
    List.filter_eq_self.mpr fun y hy => by simpa using hfull y hy
  have hlen := (h.perm hnodup).length_eq
  rw [List.length_map, List.length_map, entries, List.length_map, hfilter] at hlen
  exact hlen

/-- A sector is left for the inode of the next file, and sectors for its bytes. -/
theorem free_eq (h : Extracted fs refs first done (f :: rest) tail map) :
    ∃ sector free, fs.free = sector :: free ∧ sector ≠ rootDirSector ∧
      roomFor rest + sectorsFor f.bytes.length +
          sectorsFor (rootLength (done.length + (f :: rest).length)) ≤
        free.length + sectorsFor (entrySize * (tail.length + 1)) ∧
      sectorsFor (entrySize * (tail.length + 1)) ≤
        sectorsFor (rootLength (done.length + (f :: rest).length)) := by
  have hroom := h.room
  have hslots := h.slots
  have hmono : sectorsFor (entrySize * (tail.length + 1)) ≤
      sectorsFor (rootLength (done.length + (f :: rest).length)) :=
    sectorsFor_mono (Nat.mul_le_mul_left _ (by omega))
  rw [roomFor_cons] at hroom
  cases hfree : fs.free with
  | nil =>
    rw [hfree, List.length_nil] at hroom
    omega
  | cons sector free =>
    have hroot := h.root
    have hcons : (sector :: free).length = free.length + 1 := rfl
    rw [hfree] at hroom hroot
    refine ⟨sector, free, rfl, fun heq => hroot (heq ▸ List.mem_cons_self), ?_, hmono⟩
    omega

/-- The file system after a file has been created and its bytes have been written. -/
theorem step (h : Extracted fs refs first done (f :: rest) tail map) {fs₁ fs₂ : FsState}
    {sector : Sector} {free : List Sector} {tail' : List DirEntry}
    (hports : Portable (done ++ f :: rest)) (hfree : fs.free = sector :: free)
    (hsector : sector ≠ rootDirSector)
    (hdir : DirOk fs₁.opened.vol rootDirSector rootDirSector first tail'
      (Function.update map f.name (some sector)))
    (htail : tail'.length = tail.length ∨ tail'.length = tail.length + 1 ∧ ∀ y ∈ tail, y.inUse ≠ 0)
    (hisDir : fs₁.opened.vol.isDir sector = false)
    (hothers : ∀ s, s ≠ rootDirSector → s ≠ sector →
      fs₁.opened.vol.bytes s = fs.opened.vol.bytes s ∧ fs₁.opened.vol.isDir s = fs.opened.vol.isDir s)
    (hfree₁ : fs₁.free = (free.drop (sectorsFor f.bytes.length)).drop
      (sectorsFor (entrySize * (tail'.length + 1)) - sectorsFor (entrySize * (tail.length + 1))))
    (hvol : fs₂.opened.vol = (fs₁.withBytes sector f.bytes).opened.vol) (hfree₂ : fs₂.free = fs₁.free)
    (hcounted : Counted fs₂.opened refs) (hremoved : NoneRemoved fs₂.opened) :
    Extracted fs₂ refs first (done ++ [f]) rest tail' (Function.update map f.name (some sector)) := by
  have hnodup := h.nodup
  have hroot := h.root
  rw [hfree] at hnodup hroot
  have hsub : ∀ s ∈ fs₂.free, s ∈ free := by
    intro s hs
    rw [hfree₂, hfree₁] at hs
    exact List.mem_of_mem_drop (List.mem_of_mem_drop hs)
  have hnames : (done.map NamedFile.name).Nodup ∧ f.name ∉ done.map NamedFile.name := by
    have hall := hports.nodup
    rw [List.map_append, List.map_cons, List.nodup_append] at hall
    exact ⟨hall.1, fun hin => hall.2.2 _ hin _ List.mem_cons_self rfl⟩
  have hslots : tail'.length ≤ max 15 (done.length + 1) := by
    have hslots := h.slots
    rcases htail with heq | ⟨heq, hfull⟩
    · omega
    · have hcount := h.full hnames.1 hfull
      omega
  refine ⟨hcounted, hremoved, ?_, ?_, ?_, ?_, ?_, ?_, ?_⟩
  · refine hdir.congr ?_
    rw [hvol]
    exact bytes_withBytes_of_ne hsector.symm
  · intro name
    rw [List.map_append, List.mem_append]
    by_cases hname : name = f.name
    · rw [hname, Function.update_self]
      exact iff_of_true rfl (.inr (List.mem_singleton_self _))
    · rw [Function.update_of_ne hname, h.names]
      simp [hname]
  · intro f' hf'
    rcases List.mem_append.mp hf' with hold | hnew
    · obtain ⟨s, hs, hout, hne, hbytes, hdir'⟩ := h.files f' hold
      rw [hfree] at hout
      have hother : s ≠ sector := fun heq => hout (heq ▸ List.mem_cons_self)
      have hname : f'.name ≠ f.name := fun heq => hnames.2 (heq ▸ List.mem_map_of_mem hold)
      refine ⟨s, ?_, fun hin => hout (List.mem_cons_of_mem _ (hsub s hin)), hne, ?_, ?_⟩
      · rw [Function.update_of_ne hname, hs]
      · rw [hvol, bytes_withBytes_of_ne hother, (hothers s hne hother).1, hbytes]
      · rw [hvol]
        exact (hothers s hne hother).2.trans hdir'
    · rw [List.mem_singleton.mp hnew]
      refine ⟨sector, Function.update_self _ _ _, ?_, hsector, ?_, ?_⟩
      · exact fun hin => (List.nodup_cons.mp hnodup).1 (hsub sector hin)
      · rw [hvol, bytes_withBytes_self]
      · rw [hvol]
        exact hisDir
  · rw [hfree₂, hfree₁]
    exact ((List.nodup_cons.mp hnodup).2.sublist (List.drop_sublist _ _)).sublist
      (List.drop_sublist _ _)
  · exact fun hin => hroot (List.mem_cons_of_mem _ (hsub _ hin))
  · rw [List.length_append, List.length_singleton]
    exact hslots
  · have hroom := h.room
    have hcons : (sector :: free).length = free.length + 1 := rfl
    have htotal : (done ++ [f]).length + rest.length = done.length + (f :: rest).length := by
      rw [List.length_append, List.length_singleton, List.length_cons, Nat.add_assoc, Nat.add_comm 1]
    have hlower : sectorsFor (entrySize * (tail.length + 1)) ≤
        sectorsFor (entrySize * (tail'.length + 1)) :=
      sectorsFor_mono (Nat.mul_le_mul_left _ (by omega))
    have hupper : sectorsFor (entrySize * (tail'.length + 1)) ≤
        sectorsFor (rootLength (done.length + (f :: rest).length)) :=
      sectorsFor_mono (Nat.mul_le_mul_left _ (by rw [List.length_cons]; omega))
    rw [roomFor_cons, hfree] at hroom
    rw [htotal, hfree₂, hfree₁, List.length_drop, List.length_drop]
    omega

theorem map_none (h : Extracted fs refs first done (f :: rest) tail map)
    (hports : Portable (done ++ f :: rest)) : map f.name = none := by
  have hall := hports.nodup
  rw [List.map_append, List.map_cons, List.nodup_append] at hall
  rw [← Option.not_isSome_iff_eq_none, h.names]
  exact fun hin => hall.2.2 _ hin _ List.mem_cons_self rfl

theorem root_le (h : Extracted fs refs first done (f :: rest) tail map)
    (hports : Portable (done ++ f :: rest)) : entrySize * (tail.length + 1) ≤ maxLength := by
  have hslots := h.slots
  have hroot := hports.root
  rw [List.length_append, List.length_cons] at hroot
  exact Nat.le_trans (Nat.mul_le_mul_left _ (by omega)) hroot

/-- The slots of the root directory can grow for the next file. -/
theorem grow (h : Extracted fs refs first done (f :: rest) tail map)
    (hports : Portable (done ++ f :: rest)) {sector : Sector} {free : List Sector}
    (hfree : fs.free = sector :: free) (hfull : ∀ y ∈ tail, y.inUse ≠ 0) :
    entrySize * (tail.length + 2) ≤ maxLength ∧
      sectorsFor (entrySize * (tail.length + 2)) + sectorsFor f.bytes.length ≤
        sectorsFor (entrySize * (tail.length + 1)) + free.length := by
  have hnames := hports.nodup
  rw [List.map_append, List.nodup_append] at hnames
  have hcount := h.full hnames.1 hfull
  have hle : entrySize * (tail.length + 2) ≤ rootLength (done.length + (f :: rest).length) :=
    Nat.mul_le_mul_left _ (by rw [List.length_cons]; omega)
  have hroot := hports.root
  rw [List.length_append] at hroot
  have hmono := sectorsFor_mono hle
  have hroom := h.room
  have hcons : (sector :: free).length = free.length + 1 := rfl
  rw [roomFor_cons, hfree] at hroom
  exact ⟨Nat.le_trans hle hroot, by omega⟩

end Extracted

namespace Fsutil

variable {fs : FsState} {refs : List Nat} {first : DirEntry} {done rest : List NamedFile}
  {tail : List DirEntry} {map : NameMap} {f : NamedFile} {e : Nat → DirEntry} {src : Device} {k : Nat}

/-- `fsutil_extract` of a regular file. -/
theorem putFile_ok (h : Extracted fs refs first done (f :: rest) tail map)
    (hports : Portable (done ++ f :: rest)) (hused : first.inUse ≠ 0)
    (hread : src.Reads k (dataBlocks f.bytes)) :
    ∃ fs' tail' map', putFile e ⟨UInt32.ofNat k, src, fs⟩ f.name f.bytes.length =
        .ok ⟨UInt32.ofNat (k + (dataBlocks f.bytes).length), src, fs'⟩ ∧
      Extracted fs' refs first (done ++ [f]) rest tail' map' := by
  have hf : f ∈ done ++ f :: rest := List.mem_append_right _ List.mem_cons_self
  have hname := hports.plain f hf
  have hmax := hports.length f hf
  obtain ⟨sector, free, hfree, hsector, hroom, hmono⟩ := h.free_eq
  obtain ⟨fs₁, tail', hcreate, hcounted₁, hremoved₁, hdir₁, htail', hzeros, hisDir, hothers, hfree₁⟩ :=
    @FsState.filesysCreate_marked fs refs e f.name first sector rootDirSector free f.bytes.length tail map
      h.counted h.noneRemoved h.dir hused hname (h.map_none hports) hfree hsector hmax (by omega)
      (h.root_le hports) (h.grow hports hfree)
  have hlookup : fs₁.opened.vol.dirLookup (e 0) rootDirSector f.name = some sector := by
    rw [hdir₁.isMap.lookup (e 0) f.name hname.ne_dot hname.ne_dotDot, Function.update_self]
  obtain ⟨p, st₂, inode, hopen, hcounted₂, hagrees₂, hp, hinode⟩ :=
    filesysOpen_some hcounted₁ hremoved₁.not_removed hname hlookup hremoved₁.not_removed
  have hcopy := @copyOut_ok { fs₁ with opened := st₂ } src k p inode f.bytes [] f.name f.bytes.length hp
    (by rw [hagrees₂.vol, hinode, hzeros]; rfl) (by rw [List.length_nil, Nat.zero_add]; exact hmax)
    (Nat.le_refl _) hread
  rw [List.nil_append, hinode, List.length_nil] at hcopy
  generalize hfs₃ : ({ fs₁ with opened := st₂ } : FsState).withBytes sector f.bytes = fs₃ at hcopy
  have hcounted₃ : Counted fs₃.opened (p :: refs) := hfs₃ ▸ hcounted₂.withVol _
  have hvol₃ : fs₃.opened.vol = (fs₁.withBytes sector f.bytes).opened.vol := by
    rw [← hfs₃, FsState.withBytes, FsState.withBytes, hagrees₂.vol]
  have hremoved₃ : NoneRemoved fs₃.opened := hfs₃ ▸ hagrees₂.noneRemoved hremoved₁
  obtain ⟨st₄, hclose, hcounted₄, hagrees₄⟩ := inodeClose_ok hcounted₃ List.mem_cons_self
  rw [List.erase_cons_head] at hcounted₄
  have hfree₃ : fs₃.free = fs₁.free := hfs₃ ▸ rfl
  refine ⟨{ fs₃ with opened := st₄ }, tail', Function.update map f.name (some sector), ?_,
    h.step hports hfree hsector hdir₁ htail' hisDir hothers hfree₁ (hagrees₄.vol.trans hvol₃) hfree₃
      hcounted₄ (hagrees₄.noneRemoved hremoved₃)⟩
  rw [putFile]
  dsimp only
  rw [hcreate, mapError_ok, ok_bind]
  dsimp only
  rw [if_pos rfl, hopen, mapError_ok, ok_bind]
  dsimp only
  rw [hcopy, ok_bind]
  dsimp only
  rw [FsState.fileClose, hclose]
  rfl

/-- Where the first slot of the root directory is not marked, the first file cannot be opened. -/
theorem putFile_unmarked (h : Extracted fs refs first done (f :: rest) tail map)
    (hports : Portable (done ++ f :: rest)) (hunused : first.inUse = 0) :
    putFile e ⟨UInt32.ofNat k, src, fs⟩ f.name f.bytes.length = .error (.openFailed f.name) := by
  have hf : f ∈ done ++ f :: rest := List.mem_append_right _ List.mem_cons_self
  have hname := hports.plain f hf
  obtain ⟨sector, free, hfree, hsector, hroom, hmono⟩ := h.free_eq
  obtain ⟨fs₁, hcreate, hcounted₁, hremoved₁, hnone⟩ :=
    @FsState.filesysCreate_unmarked fs refs e f.name first sector rootDirSector free f.bytes.length tail
      map h.counted h.noneRemoved h.dir hunused hname (h.map_none hports) hfree hsector
      (hports.length f hf) (by omega) (h.root_le hports)
  obtain ⟨st₂, hopen⟩ := filesysOpen_none hcounted₁ hremoved₁.not_removed hname (hnone (e 0))
  rw [putFile]
  dsimp only
  rw [hcreate, mapError_ok, ok_bind]
  dsimp only
  rw [if_pos rfl, hopen]
  rfl

theorem next_sector_nat (k : Nat) : UInt32.ofNat k + 1 = UInt32.ofNat (k + 1) := by
  rw [UInt32.ofNat_add]
  rfl

theorem ustarParseHeader_zeros :
    ustarParseHeader zeros = .ok { fileName := [], type := .eof, size := 0 } := by
  have hzeros : isAllZeros zeros.val = true := by
    refine List.all_eq_true.mpr fun b hb => ?_
    rw [List.eq_of_mem_replicate hb]
    rfl
  rw [ustarParseHeader, if_pos hzeros]

theorem parse_header (hports : Portable (done ++ f :: rest)) :
    ustarParseHeader (regularHeader f.name f.bytes.length).toBlock =
      .ok { fileName := f.name, type := .regular, size := f.bytes.length } := by
  have hf : f ∈ done ++ f :: rest := List.mem_append_right _ List.mem_cons_self
  refine ustarParseHeader_regular (hports.plain f hf) (Nat.le_trans (hports.length f hf) ?_)
  decide

/-- The outer loop up to a sector of zeros. -/
theorem extractLoop_ok {rounds : Nat} {e : Sector → Nat → DirEntry}
    (h : Extracted fs refs first done rest tail map) (hports : Portable (done ++ rest))
    (hused : rest ≠ [] → first.inUse ≠ 0) (hrounds : rest.length < rounds)
    (hread : src.Reads k (archive rest ++ [zeros])) :
    ∃ fs' tail' map', extractLoop e rounds ⟨UInt32.ofNat k, src, fs⟩ =
        .ok ⟨UInt32.ofNat (k + (archive rest).length + 1), src, fs'⟩ ∧
      Extracted fs' refs first (done ++ rest) [] tail' map' := by
  induction rest generalizing rounds fs done tail map k with
  | nil =>
    obtain ⟨rounds, rfl⟩ := Nat.exists_eq_add_one_of_ne_zero (Nat.ne_of_gt hrounds)
    refine ⟨fs, tail, map, ?_, by rw [List.append_nil]; exact h⟩
    rw [extractLoop]
    dsimp only
    rw [hread.head, mapError_ok, ok_bind, ustarParseHeader_zeros, mapError_ok, ok_bind, next_sector_nat]
    rfl
  | cons f rest ih =>
    rw [List.length_cons] at hrounds
    obtain ⟨rounds, rfl⟩ := Nat.exists_eq_add_one_of_ne_zero (Nat.ne_zero_of_lt hrounds)
    have hblocks : archive (f :: rest) ++ [zeros] =
        (regularHeader f.name f.bytes.length).toBlock ::
          (dataBlocks f.bytes ++ (archive rest ++ [zeros])) := by
      rw [archive, List.flatMap_cons, fileBlocks, List.cons_append, List.cons_append, List.append_assoc]
      rfl
    have hmarked := hused (List.cons_ne_nil f rest)
    rw [hblocks] at hread
    obtain ⟨fs₁, tail₁, map₁, hput, h₁⟩ := @putFile_ok fs refs first done rest tail map f
      (e (UInt32.ofNat k)) src (k + 1) h hports hmarked hread.tail.left
    have hsplit : done ++ f :: rest = done ++ [f] ++ rest := by
      rw [List.append_assoc, List.singleton_append]
    rw [hsplit] at hports ⊢
    obtain ⟨fs', tail', map', hloop, h'⟩ := @ih fs₁ (done ++ [f]) tail₁ map₁ _ rounds h₁ hports
      (fun _ => hmarked) (by omega) hread.tail.right
    refine ⟨fs', tail', map', ?_, h'⟩
    have hcount : k + 1 + (dataBlocks f.bytes).length + (archive rest).length + 1 =
        k + (archive (f :: rest)).length + 1 := by
      have hlen := congrArg List.length hblocks
      simp only [List.length_append, List.length_cons, List.length_nil] at hlen
      omega
    rw [extractLoop]
    dsimp only
    rw [hread.head, mapError_ok, ok_bind, parse_header (hsplit ▸ hports), mapError_ok, ok_bind]
    dsimp only
    rw [next_sector_nat, hput, ok_bind, hloop, hcount]

/-- The outer loop where the first file cannot be opened. -/
theorem extractLoop_unmarked {rounds : Nat} {e : Sector → Nat → DirEntry}
    (h : Extracted fs refs first done (f :: rest) tail map) (hports : Portable (done ++ f :: rest))
    (hunused : first.inUse = 0)
    (hread : src.blockRead (UInt32.ofNat k) = .ok (regularHeader f.name f.bytes.length).toBlock) :
    extractLoop e (rounds + 1) ⟨UInt32.ofNat k, src, fs⟩ = .error (.openFailed f.name) := by
  rw [extractLoop]
  dsimp only
  rw [hread, mapError_ok, ok_bind, parse_header hports, mapError_ok, ok_bind]
  dsimp only
  rw [next_sector_nat, putFile_unmarked h hports hunused]
  rfl

end Fsutil

end CSE130.Filesys
