import CSE130.Filesys.Fsutil

/-!
# The layout of an archive

The sectors of an archive, as a list: for every file its header and its bytes, the last sector filled up
with zeros. Calls of `fsutil_append` write the archive of their files from the first sector on.
-/

namespace CSE130.Filesys

open CSE130.Library OpenInodes

/-- A file: its name and its bytes. -/
structure NamedFile where
  name : List UInt8
  bytes : List UInt8
  deriving DecidableEq

/-- The sectors with the bytes of a file. -/
def dataBlocks (bytes : List UInt8) : List Block :=
  (List.range (divRoundUp bytes.length 512)).map fun i => toBlock (bytes.drop (512 * i))

/-- The sectors of a file in an archive. -/
def fileBlocks (f : NamedFile) : List Block :=
  (regularHeader f.name f.bytes.length).toBlock :: dataBlocks f.bytes

/-- The sectors of an archive. -/
def archive (files : List NamedFile) : List Block := files.flatMap fileBlocks

/-- The number of sectors of an archive. -/
def archiveSectors (files : List NamedFile) : Nat :=
  (files.map fun f => 1 + divRoundUp f.bytes.length 512).sum

theorem length_archive (files : List NamedFile) : (archive files).length = archiveSectors files := by
  rw [archive, List.length_flatMap, archiveSectors]
  congr 1
  apply List.map_congr_left
  intro f _
  rw [fileBlocks, List.length_cons, dataBlocks, List.length_map, List.length_range, Nat.add_comm]

section Data

variable {bytes : List UInt8}

theorem dataBlocks_nil : dataBlocks [] = [] := rfl

theorem dataBlocks_cons (h : bytes ≠ []) :
    dataBlocks bytes = toBlock bytes :: dataBlocks (bytes.drop 512) := by
  have hpos := List.length_pos_iff.mpr h
  have hcount : divRoundUp bytes.length 512 = divRoundUp (bytes.length - 512) 512 + 1 := by
    unfold divRoundUp
    omega
  rw [dataBlocks, hcount, List.range_succ_eq_map, List.map_cons, List.map_map, dataBlocks,
    List.length_drop]
  congr 1
  apply List.map_congr_left
  intro i _
  rw [List.drop_drop, Function.comp_apply, Nat.mul_succ, Nat.add_comm]

theorem chunkSize_eq (size : Nat) : Fsutil.chunkSize size = min 512 size := by
  unfold Fsutil.chunkSize
  split_ifs <;> omega

theorem take_chunkSize (bytes : List UInt8) :
    bytes.take (Fsutil.chunkSize bytes.length) = bytes.take 512 := by
  rw [chunkSize_eq, ← List.take_take, List.take_length]

theorem length_take_chunkSize (bytes : List UInt8) :
    (bytes.take 512).length = Fsutil.chunkSize bytes.length := by
  rw [chunkSize_eq, List.length_take]

theorem drop_chunkSize (bytes : List UInt8) :
    bytes.drop (Fsutil.chunkSize bytes.length) = bytes.drop 512 := by
  rw [chunkSize_eq]
  rcases Nat.le_total 512 bytes.length with hle | hle
  · rw [Nat.min_eq_left hle]
  · rw [Nat.min_eq_right hle, List.drop_length, List.drop_eq_nil_of_le hle]

theorem toBlock_take (bytes : List UInt8) : toBlock (bytes.take 512) = toBlock bytes := by
  have hmin : 512 - min 512 bytes.length = 512 - bytes.length := by omega
  apply Subtype.ext
  unfold toBlock
  dsimp only
  rw [List.take_append, List.take_append, List.take_take, List.length_take, hmin, Nat.min_self]

/-- The part of a sector that belongs to the file. -/
theorem toBlock_take_chunkSize (bytes : List UInt8) :
    (toBlock bytes).val.take (Fsutil.chunkSize bytes.length) = bytes.take 512 := by
  have hmin : min (min 512 bytes.length) 512 = min 512 bytes.length := by omega
  rw [toBlock, chunkSize_eq]
  dsimp only
  rw [List.take_take, hmin, List.take_append_of_le_length (Nat.min_le_right _ _), ← List.take_take,
    List.take_length]

end Data

/-! ## Sectors on a device -/

namespace Device

variable {d : Device} {l : List Block} {b : Block} {k : Nat}

/-- The device with a list of sectors at its start. -/
def overlay (d : Device) (l : List Block) : Device :=
  { d with data := fun x => l.getD x.toNat (d.data x) }

theorem overlay_size (d : Device) (l : List Block) : (d.overlay l).size = d.size := rfl

theorem toNat_sector {n : Nat} (h : n < d.size) (hsize : d.size ≤ 2 ^ 32) :
    (UInt32.ofNat n).toNat = n :=
  UInt32.toNat_ofNat_of_lt (Nat.lt_of_lt_of_le h hsize)

/-- Writing behind the list, or over one more sector that follows it. -/
theorem blockWrite_overlay {t : Option Block} (hfits : l.length < d.size) (hsize : d.size ≤ 2 ^ 32) :
    (d.overlay (l ++ t.toList)).blockWrite (UInt32.ofNat l.length) b = .ok (d.overlay (l ++ [b])) := by
  have hnat := toNat_sector hfits hsize
  rw [blockWrite_of_lt (by rw [hnat]; exact hfits)]
  congr 1
  have hdata : Function.update (d.overlay (l ++ t.toList)).data (UInt32.ofNat l.length) b =
      (d.overlay (l ++ [b])).data := by
    funext x
    by_cases hx : x = UInt32.ofNat l.length
    · rw [hx, Function.update_self, overlay]
      dsimp only
      rw [hnat]
      simp
    · have hne : x.toNat ≠ l.length := fun heq => hx (by rw [← heq, UInt32.ofNat_toNat])
      rw [Function.update_of_ne hx]
      simp only [overlay, List.getD_eq_getElem?_getD]
      rcases Nat.lt_or_gt_of_ne hne with hlt | hgt
      · rw [List.getElem?_append_left hlt, List.getElem?_append_left hlt]
      · have htail : ∀ l' : List Block, l'.length ≤ 1 → (l ++ l')[x.toNat]? = none := by
          intro l' hl'
          rw [List.getElem?_eq_none]
          rw [List.length_append]
          omega
        rw [htail _ (by cases t <;> simp), htail [b] (Nat.le_refl 1)]
  rw [hdata]
  rfl

end Device

/-! ## Writing an archive -/

/-- The bytes of a file of the root directory. -/
def content (vol : Volume) (name : List UInt8) : List UInt8 :=
  match vol.lookup rootDirSector name with
  | some (x, _) => vol.bytes x.inodeSector
  | none => []

/-- A name stands for a file in the root directory that has not been removed. -/
def HasFile (st : OpenInodes) (name : List UInt8) : Prop :=
  ∃ x ofs, st.vol.lookup rootDirSector name = some (x, ofs) ∧ ¬ Removed st x.inodeSector

namespace Fsutil

variable {st : OpenInodes} {refs : List Nat} {d : Device} {l : List Block} {t : Option Block} {p : Nat}
  {inode : InodeRef} {c : AppendCall} {fileName : List UInt8}

theorem next_sector (l : List Block) (b : Block) :
    UInt32.ofNat l.length + 1 = UInt32.ofNat (l ++ [b]).length := by
  rw [List.length_append, List.length_singleton, UInt32.ofNat_add]
  rfl

theorem fileRead_ok {size pos : Nat} (hp : st.inodes p = some inode) :
    fileRead st ⟨p, pos⟩ size = .ok (((st.vol.bytes inode.sector).drop pos).take size,
      ⟨p, pos + (((st.vol.bytes inode.sector).drop pos).take size).length⟩) := by
  have hat : st.inodeAt p = .ok inode := by rw [inodeAt, hp]
  rw [fileRead]
  dsimp only
  rw [hat]
  rfl

/-- One round of the loop of `fsutil_append`. -/
theorem copyIn_step {rounds pos : Nat} {bytes : List UInt8} (hp : st.inodes p = some inode)
    (hbytes : (st.vol.bytes inode.sector).drop pos = bytes) (hne : bytes ≠ [])
    (hfits : l.length < d.size) (hsize : d.size ≤ 2 ^ 32) :
    copyIn fileName (rounds + 1) ⟨UInt32.ofNat l.length, d.overlay l, st⟩ ⟨p, pos⟩ bytes.length =
      copyIn fileName rounds
        ⟨UInt32.ofNat (l ++ [toBlock bytes]).length, d.overlay (l ++ [toBlock bytes]), st⟩
        ⟨p, pos + chunkSize bytes.length⟩ (bytes.drop 512).length := by
  have hread := @fileRead_ok st p inode (chunkSize bytes.length) pos hp
  rw [hbytes, take_chunkSize, length_take_chunkSize] at hread
  have hwrite := @Device.blockWrite_overlay d l (toBlock (bytes.take 512)) none hfits hsize
  rw [Option.toList_none, List.append_nil, toBlock_take] at hwrite
  have hspace : ¬ (d.overlay l).size ≤ (UInt32.ofNat l.length).toNat := by
    rw [Device.toNat_sector hfits hsize, Device.overlay_size]
    omega
  rw [copyIn, if_neg fun h => hne (List.length_eq_zero_iff.mp h)]
  dsimp only
  rw [if_neg hspace, hread, mapError_ok, ok_bind]
  dsimp only
  rw [length_take_chunkSize, if_neg (not_not.mpr rfl), toBlock_take, hwrite, mapError_ok, ok_bind,
    next_sector, ← drop_chunkSize, List.length_drop]

/-- The loop writes the sectors of the bytes from the position of the file on. -/
theorem copyIn_ok {rounds pos : Nat} {bytes : List UInt8} (hp : st.inodes p = some inode)
    (hbytes : (st.vol.bytes inode.sector).drop pos = bytes) (hrounds : bytes.length ≤ rounds)
    (hfits : l.length + (dataBlocks bytes).length ≤ d.size) (hsize : d.size ≤ 2 ^ 32) :
    copyIn fileName rounds ⟨UInt32.ofNat l.length, d.overlay l, st⟩ ⟨p, pos⟩ bytes.length = .ok
      (⟨UInt32.ofNat (l ++ dataBlocks bytes).length, d.overlay (l ++ dataBlocks bytes), st⟩,
        ⟨p, pos + bytes.length⟩) := by
  induction rounds generalizing pos bytes l with
  | zero =>
    have hnil : bytes = [] := List.length_eq_zero_iff.mp (Nat.le_zero.mp hrounds)
    rw [hnil, dataBlocks_nil, List.append_nil]
    rfl
  | succ rounds ih =>
    by_cases hnil : bytes = []
    · rw [hnil, dataBlocks_nil, List.append_nil]
      rfl
    · have hpos := List.length_pos_iff.mpr hnil
      rw [dataBlocks_cons hnil, List.length_cons] at hfits
      have hrest : (st.vol.bytes inode.sector).drop (pos + chunkSize bytes.length) =
          bytes.drop 512 := by
        rw [← List.drop_drop, hbytes, drop_chunkSize]
      have hend : pos + chunkSize bytes.length + (bytes.drop 512).length = pos + bytes.length := by
        rw [chunkSize_eq, List.length_drop]
        omega
      have hnext := @ih (l ++ [toBlock bytes]) (pos + chunkSize bytes.length) (bytes.drop 512) hrest
        (by rw [List.length_drop]; omega)
        (by rw [List.length_append, List.length_singleton]; omega)
      rw [copyIn_step hp hbytes hnil (by omega) hsize, hnext, dataBlocks_cons hnil, hend,
        List.append_assoc, List.singleton_append]

/-- `fsutil_append` of an open file writes its sectors, and over them the two that should end the
archive. -/
theorem appendFile_ok (hp : st.inodes p = some inode) (hrefs : Counted st (p :: refs))
    (hname : PlainName c.fileName)
    (hfits : l.length + (fileBlocks ⟨c.fileName, st.vol.bytes inode.sector⟩).length < d.size)
    (hsize : d.size ≤ 2 ^ 32) :
    ∃ st', appendFile ⟨UInt32.ofNat l.length, d.overlay (l ++ t.toList), st⟩ c ⟨p, 0⟩
        (st.vol.bytes inode.sector).length =
      .ok ⟨UInt32.ofNat (l ++ fileBlocks ⟨c.fileName, st.vol.bytes inode.sector⟩).length,
        d.overlay (l ++ fileBlocks ⟨c.fileName, st.vol.bytes inode.sector⟩ ++ [secondMarker c.adjacent]),
        st'⟩ ∧ Counted st' refs ∧ Agrees st st' := by
  obtain ⟨st', hclose, hcounted, hagrees⟩ := inodeClose_ok hrefs List.mem_cons_self
  rw [List.erase_cons_head] at hcounted
  refine ⟨st', ?_, hcounted, hagrees⟩
  generalize hbytes : st.vol.bytes inode.sector = bytes at hfits ⊢
  have hblocks : l ++ fileBlocks ⟨c.fileName, bytes⟩ =
      l ++ [(regularHeader c.fileName bytes.length).toBlock] ++ dataBlocks bytes := by
    rw [fileBlocks, List.append_assoc, List.singleton_append]
  rw [hblocks]
  rw [fileBlocks, List.length_cons] at hfits
  dsimp only at hfits
  have hheader := @Device.blockWrite_overlay d l (regularHeader c.fileName bytes.length).toBlock t
    (by omega) hsize
  have hcopy := @copyIn_ok st d (l ++ [(regularHeader c.fileName bytes.length).toBlock]) p inode
    c.fileName bytes.length 0 bytes hp (by rw [List.drop_zero, hbytes]) (Nat.le_refl _)
    (by rw [List.length_append, List.length_singleton]; omega) hsize
  have hend : (l ++ [(regularHeader c.fileName bytes.length).toBlock] ++ dataBlocks bytes).length <
      d.size := by
    rw [List.length_append, List.length_append, List.length_singleton]
    omega
  have hfirst := @Device.blockWrite_overlay d _ zeros none hend hsize
  have hsecond := @Device.blockWrite_overlay d _ (secondMarker c.adjacent) (some zeros) hend hsize
  rw [Option.toList_none, List.append_nil] at hfirst
  rw [Option.toList_some] at hsecond
  rw [appendFile, ustarMakeHeader_plain hname, mapError_ok, ok_bind]
  dsimp only
  rw [hheader, mapError_ok, ok_bind, next_sector, hcopy, ok_bind]
  dsimp only
  rw [hfirst, mapError_ok, ok_bind, hsecond, mapError_ok, ok_bind, hclose]
  rfl

/-- The file that a call appends. -/
def AppendCall.file (c : AppendCall) (vol : Volume) : NamedFile := ⟨c.fileName, content vol c.fileName⟩

/-- `fsutil_append` of a file of the root directory. -/
theorem fsutilAppend_ok (hrefs : Counted st refs) (hroot : ¬ Removed st rootDirSector)
    (hname : PlainName c.fileName) (hfile : HasFile st c.fileName)
    (hfits : l.length + (fileBlocks (c.file st.vol)).length < d.size) (hsize : d.size ≤ 2 ^ 32) :
    ∃ st', fsutilAppend ⟨UInt32.ofNat l.length, d.overlay (l ++ t.toList), st⟩ c =
      .ok ⟨UInt32.ofNat (l ++ fileBlocks (c.file st.vol)).length,
        d.overlay (l ++ fileBlocks (c.file st.vol) ++ [secondMarker c.adjacent]), st'⟩ ∧
      Counted st' refs ∧ Agrees st st' := by
  obtain ⟨x, ofs, hlookup, hremoved⟩ := hfile
  have hdirLookup : st.vol.dirLookup (c.e 0) rootDirSector c.fileName = some x.inodeSector := by
    rw [Volume.dirLookup, if_neg hname.ne_dot, if_neg hname.ne_dotDot, hlookup]
    rfl
  obtain ⟨p, st₁, inode, hopen, hcounted₁, hagrees₁, hp, hsector⟩ :=
    filesysOpen_some hrefs hroot hname hdirLookup hremoved
  have hcontent : st₁.vol.bytes inode.sector = content st.vol c.fileName := by
    rw [hagrees₁.vol, hsector, content, hlookup]
  have hat : st₁.inodeAt p = .ok inode := by rw [inodeAt, hp]
  have hlength : fileLength st₁ ⟨p, 0⟩ = .ok (st₁.vol.bytes inode.sector).length := by
    rw [fileLength]
    dsimp only
    rw [hat]
    rfl
  have happend := @appendFile_ok st₁ refs d l t p inode c hp hcounted₁ hname (by
    rw [hcontent]
    exact hfits) hsize
  rw [hcontent] at happend hlength
  obtain ⟨st₂, hrun, hcounted₂, hagrees₂⟩ := happend
  refine ⟨st₂, ?_, hcounted₂, hagrees₁.trans hrefs hagrees₂⟩
  rw [fsutilAppend]
  dsimp only
  rw [hopen, mapError_ok, ok_bind]
  dsimp only
  rw [hlength, mapError_ok, ok_bind]
  exact hrun

/-- The files of a list of calls. -/
def filesOf (vol : Volume) (calls : List AppendCall) : List NamedFile := calls.map (·.file vol)

/-- The sector behind the archive, as the last call leaves it. -/
def lastMarker (calls : List AppendCall) (t : Option Block) : Option Block :=
  calls.foldl (fun _ c => some (secondMarker c.adjacent)) t

theorem hasFile_agrees {st' : OpenInodes} {name : List UInt8} (h : HasFile st name)
    (hrefs : Counted st refs) (hrefs' : Counted st' refs) (hagrees : Agrees st st') :
    HasFile st' name := by
  obtain ⟨x, ofs, hlookup, hremoved⟩ := h
  refine ⟨x, ofs, by rw [hagrees.vol]; exact hlookup, ?_⟩
  rwa [removed_iff hrefs' hagrees fun p i hi _ => hrefs.mem hi]

/-- The calls write the archive of their files. -/
theorem appends_ok {calls : List AppendCall} (hrefs : Counted st refs)
    (hroot : ¬ Removed st rootDirSector) (hnames : ∀ c ∈ calls, PlainName c.fileName)
    (hfiles : ∀ c ∈ calls, HasFile st c.fileName)
    (hfits : l.length + (archive (filesOf st.vol calls)).length < d.size) (hsize : d.size ≤ 2 ^ 32) :
    ∃ st', calls.foldlM fsutilAppend ⟨UInt32.ofNat l.length, d.overlay (l ++ t.toList), st⟩ =
      .ok ⟨UInt32.ofNat (l ++ archive (filesOf st.vol calls)).length,
        d.overlay (l ++ archive (filesOf st.vol calls) ++ (lastMarker calls t).toList), st'⟩ := by
  induction calls generalizing st l t with
  | nil =>
    refine ⟨st, ?_⟩
    rw [filesOf, List.map_nil, archive, List.flatMap_nil, List.append_nil]
    rfl
  | cons c calls ih =>
    have hsplit : archive (filesOf st.vol (c :: calls)) =
        fileBlocks (c.file st.vol) ++ archive (filesOf st.vol calls) := rfl
    rw [hsplit, List.length_append] at hfits
    obtain ⟨st₁, hrun, hrefs₁, hagrees⟩ := @fsutilAppend_ok st refs d l t c hrefs hroot
      (hnames c List.mem_cons_self) (hfiles c List.mem_cons_self) (by omega) hsize
    have hroot₁ : ¬ Removed st₁ rootDirSector := by
      rwa [removed_iff hrefs₁ hagrees fun p i hi _ => hrefs.mem hi]
    have hrest := @ih st₁ (l ++ fileBlocks (c.file st.vol)) (some (secondMarker c.adjacent)) hrefs₁ hroot₁
      (fun c' hc' => hnames c' (List.mem_cons_of_mem _ hc'))
      (fun c' hc' => hasFile_agrees (hfiles c' (List.mem_cons_of_mem _ hc')) hrefs hrefs₁ hagrees)
      (by rw [hagrees.vol, List.length_append]; omega)
    rw [hagrees.vol] at hrest
    obtain ⟨st', hrest⟩ := hrest
    refine ⟨st', ?_⟩
    rw [List.foldlM_cons, hrun, ok_bind, hsplit, ← List.append_assoc]
    exact hrest

end Fsutil

end CSE130.Filesys
