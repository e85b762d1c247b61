import CSE130.Filesys.Extract
import CSE130.Filesys.RefRuns

/-!
# Through an archive and back

Files that are appended to an archive and extracted from it are the same files again, if the byte behind
the buffer of the last `fsutil_append` is zero, the sector behind the first one of the end marker holds
zeros already, and formatting has left the first slot of the root directory marked.
-/

namespace CSE130.Filesys

open CSE130.Library OpenInodes Fsutil

/-- A freshly formatted file system; `entry` has the bytes that the variable in `dir_create` had. -/
structure Formatted (fs : FsState) (refs : List Nat) (entry : DirEntry) : Prop where
  counted : Counted fs.opened refs
  noneRemoved : NoneRemoved fs.opened
  root : ∃ vol : Volume, vol.dirCreate true entry rootDirSector 16 = (true, fs.opened.vol)
  nodup : fs.free.Nodup
  notFree : rootDirSector ∉ fs.free

/-- The root directory holds these files and no others. -/
structure HoldsExactly (vol : Volume) (files : List NamedFile) : Prop where
  names : (vol.names rootDirSector).Perm (files.map NamedFile.name)
  files : ∀ f ∈ files, ∃ s, (∀ x, vol.dirLookup x rootDirSector f.name = some s) ∧
    vol.isDir s = false ∧ vol.bytes s = f.bytes

/-- The files are there, and they fit on the scratch device and in the new file system. -/
structure FitsDevices (st : OpenInodes) (refs : List Nat) (calls : List AppendCall) (scratch : Device)
    (fs : FsState) : Prop where
  counted : Counted st refs
  root : ¬ Removed st rootDirSector
  exist : ∀ c ∈ calls, HasFile st c.fileName
  portable : Portable (filesOf st.vol calls)
  sectors : archiveSectors (filesOf st.vol calls) + 2 ≤ scratch.size
  size : scratch.size < 2 ^ 32
  room : roomFor (filesOf st.vol calls) + sectorsFor (rootLength calls.length) ≤
    fs.free.length + sectorsFor (rootLength 0)

/-- The files are appended, and extracting makes the same files again and stops at an end marker of two
sectors of zeros behind the last file. -/
def RoundTrips (st : OpenInodes) (calls : List AppendCall) (scratch : Device)
    (e : Sector → Nat → DirEntry) (fs : FsState) : Prop :=
  ∃ a x, calls.foldlM fsutilAppend { sector := 0, dst := scratch, st := st } = .ok a ∧
    fsutilExtract e { sector := 0, src := a.dst, fs := fs } = .ok x ∧
    HoldsExactly x.fs.opened.vol (filesOf st.vol calls) ∧ x.sector = a.sector + 1 ∧
    a.dst.data a.sector = zeros ∧ a.dst.data (a.sector + 1) = zeros

/-- The byte behind the buffer of the last call is zero, the sectors of the end marker that no call writes
hold zeros, and the first slot of the root directory is marked if a file comes. -/
structure EndsInZeros (calls : List AppendCall) (scratch : Device) (sectors : Nat) (entry : DirEntry) :
    Prop where
  marked : calls ≠ [] → entry.inUse ≠ 0
  adjacent : ∀ c, calls.getLast? = some c → c.adjacent = 0
  start : calls = [] → scratch.data 0 = zeros
  next : scratch.data (UInt32.ofNat (sectors + 1)) = zeros

/-! ## The end marker -/

theorem secondMarker_val (adjacent : UInt8) :
    (secondMarker adjacent).val = List.replicate 511 0 ++ [adjacent] := by
  have hdrop : zeros.val.drop 1 = List.replicate 511 0 := List.drop_replicate
  rw [secondMarker, hdrop, toBlock_of_length]
  rw [List.length_append, List.length_replicate, List.length_singleton]

theorem secondMarker_eq_zeros {adjacent : UInt8} : secondMarker adjacent = zeros ↔ adjacent = 0 := by
  have hzeros : zeros.val = List.replicate 511 0 ++ [0] := List.replicate_succ'
  rw [← Subtype.val_inj, secondMarker_val, hzeros, List.append_cancel_left_eq, List.singleton_inj]

theorem lastMarker_eq (calls : List AppendCall) (t : Option Block) :
    lastMarker calls t = (calls.getLast?.map fun c => secondMarker c.adjacent).or t := by
  induction calls generalizing t with
  | nil => rfl
  | cons c calls ih =>
    have hstep : lastMarker (c :: calls) t = lastMarker calls (some (secondMarker c.adjacent)) := rfl
    rw [hstep, ih, List.getLast?_cons]
    cases calls.getLast? <;> rfl

namespace Device

variable {d : Device} {l : List Block} {b : Block} {n : Nat}

theorem data_over_of_ge (hn : l.length ≤ n) (hlt : n < 2 ^ 32) :
    (d.overlay l).data (UInt32.ofNat n) = d.data (UInt32.ofNat n) := by
  have hnat : (UInt32.ofNat n).toNat = n := UInt32.toNat_ofNat_of_lt hlt
  rw [overlay]
  dsimp only
  rw [hnat, List.getD_eq_getElem?_getD, List.getElem?_eq_none hn]
  rfl

theorem data_over_last (hlt : l.length < 2 ^ 32) :
    (d.overlay (l ++ [b])).data (UInt32.ofNat l.length) = b := by
  have hnat : (UInt32.ofNat l.length).toNat = l.length := UInt32.toNat_ofNat_of_lt hlt
  rw [overlay]
  dsimp only
  rw [hnat, List.getD_eq_getElem?_getD, List.getElem?_concat_length]
  rfl

theorem overlay_zeros (h : d.data 0 = zeros) : d.overlay [zeros] = d := by
  have hdata : (d.overlay [zeros]).data = d.data := by
    funext x
    by_cases hx : x.toNat = 0
    · have hzero : x = 0 := UInt32.toNat_inj.mp hx
      rw [hzero, h]
      rfl
    · rw [overlay]
      dsimp only
      rw [List.getD_eq_getElem?_getD,
        List.getElem?_eq_none (by rw [List.length_singleton]; omega)]
      rfl
  calc d.overlay [zeros] = { size := d.size, data := (d.overlay [zeros]).data } := rfl
    _ = d := by rw [hdata]

end Device

/-! ## Extracting what has been appended -/

section RoundTrip

variable {st : OpenInodes} {refs refs' : List Nat} {calls : List AppendCall} {scratch : Device}
  {fs : FsState} {entry : DirEntry} {e : Sector → Nat → DirEntry}

theorem length_filesOf (vol : Volume) (calls : List AppendCall) :
    (filesOf vol calls).length = calls.length := List.length_map ..

/-- The scratch device after the calls of `fsutil_append`. -/
def appended (st : OpenInodes) (calls : List AppendCall) (scratch : Device) : Device :=
  scratch.overlay (archive (filesOf st.vol calls) ++ (lastMarker calls none).toList)

theorem FitsDevices.appends (h : FitsDevices st refs calls scratch fs) :
    ∃ st', calls.foldlM fsutilAppend { sector := 0, dst := scratch, st := st } = .ok {
      sector := UInt32.ofNat (archive (filesOf st.vol calls)).length
      dst := appended st calls scratch
      st := st' } := by
  have hnames : ∀ c ∈ calls, PlainName c.fileName := fun c hc =>
    h.portable.plain (c.file st.vol) (List.mem_map_of_mem hc)
  have hsectors := h.sectors
  have hsize := h.size
  obtain ⟨st', hrun⟩ := @appends_ok st refs scratch [] none calls h.counted h.root hnames h.exist
    (by rw [List.length_nil, length_archive]; omega) (Nat.le_of_lt hsize)
  exact ⟨st', hrun⟩

/-- Nothing has been extracted yet. -/
theorem FitsDevices.extracted (h : FitsDevices st refs calls scratch fs)
    (hfresh : Formatted fs refs' entry) : Extracted fs refs' { entry with inodeSector := rootDirSector } []
      (filesOf st.vol calls) (List.replicate 15 DirEntry.zero) fun _ => none := by
  obtain ⟨vol, hcreate⟩ := hfresh.root
  have hroom := h.room
  refine ⟨hfresh.counted, hfresh.noneRemoved, ⟨dirCreate_slots hcreate, rfl, ?_⟩, ?_, nofun,
    hfresh.nodup, hfresh.notFree, ?_, ?_⟩
  · rw [entries_of_free]
    · exact ⟨List.nodup_nil, fun n s => iff_of_false nofun List.not_mem_nil⟩
    · intro y hy
      rw [List.eq_of_mem_replicate hy]
      rfl
  · exact fun name => iff_of_false nofun List.not_mem_nil
  · rw [List.length_replicate, List.length_nil]
    exact Nat.le_refl _
  · rw [List.length_nil, Nat.zero_add, length_filesOf, List.length_replicate]
    exact hroom

/-- The file system after everything has been extracted. -/
theorem Extracted.holdsExactly {first : DirEntry} {files : List NamedFile} {tail : List DirEntry}
    {map : NameMap} (h : Extracted fs refs first files [] tail map) (hports : Portable files) :
    HoldsExactly fs.opened.vol files := by
  have hmap := h.dir.isMap
  refine ⟨(List.perm_ext_iff_of_nodup hmap.nodup hports.nodup).mpr ?_, ?_⟩
  · intro name
    rw [hmap.names, h.names]
  · intro f hf
    have hname := hports.plain f hf
    obtain ⟨s, hs, -, -, hbytes, hdir⟩ := h.files f hf
    refine ⟨s, fun x => ?_, hdir, hbytes⟩
    rw [hmap.lookup x f.name hname.ne_dot hname.ne_dotDot, hs]

theorem length_le_archiveSectors (files : List NamedFile) : files.length ≤ archiveSectors files := by
  induction files with
  | nil => exact Nat.le_refl 0
  | cons f files ih =>
    have hcons : archiveSectors (f :: files) =
        1 + divRoundUp f.bytes.length 512 + archiveSectors files := rfl
    rw [hcons, List.length_cons]
    omega

/-- The end marker is there if and only if its bytes have been zeros. -/
theorem marker_iff (hsize : archiveSectors (filesOf st.vol calls) + 2 < 2 ^ 32) :
    (appended st calls scratch).data (UInt32.ofNat (archive (filesOf st.vol calls)).length) = zeros ↔
      (∀ c, calls.getLast? = some c → c.adjacent = 0) ∧ (calls = [] → scratch.data 0 = zeros) := by
  rw [appended, lastMarker_eq, Option.or_none]
  cases hlast : calls.getLast? with
  | none =>
    have hnil : calls = [] := List.getLast?_eq_none_iff.mp hlast
    subst hnil
    exact ⟨fun hzero => ⟨nofun, fun _ => hzero⟩, fun h => h.2 rfl⟩
  | some c =>
    have hne : calls ≠ [] := by
      intro hnil
      rw [hnil] at hlast
      cases hlast
    rw [Option.map_some, Option.toList_some,
      Device.data_over_last (by rw [length_archive]; omega), secondMarker_eq_zeros]
    constructor
    · intro hzero
      exact ⟨fun c' hc' => Option.some.inj hc' ▸ hzero, fun hnil => absurd hnil hne⟩
    · exact fun h => h.1 c rfl

theorem length_lastMarker (calls : List AppendCall) : (lastMarker calls none).toList.length ≤ 1 := by
  cases lastMarker calls none with
  | none => exact Nat.zero_le 1
  | some b => exact Nat.le_refl 1

theorem next_marker (hsize : archiveSectors (filesOf st.vol calls) + 2 < 2 ^ 32) :
    (appended st calls scratch).data (UInt32.ofNat (archive (filesOf st.vol calls)).length + 1) =
      scratch.data (UInt32.ofNat (archiveSectors (filesOf st.vol calls) + 1)) := by
  have hone := length_lastMarker calls
  rw [appended, next_sector_nat, length_archive, Device.data_over_of_ge _ (by omega)]
  rw [List.length_append, length_archive]
  omega

theorem erase_ok (d : Device) (h : 2 ≤ d.size) :
    ∃ d₁ d₂, d.blockWrite 0 zeros = .ok d₁ ∧ d₁.blockWrite 1 zeros = .ok d₂ := by
  have hzero : (0 : Sector).toNat < d.size := Nat.lt_of_lt_of_le (by decide) h
  have hone : (1 : Sector).toNat < d.size := Nat.lt_of_lt_of_le (by decide) h
  exact ⟨_, _, Device.blockWrite_of_lt hzero, Device.blockWrite_of_lt hone⟩

theorem appended_eq (hadjacent : ∀ c, calls.getLast? = some c → c.adjacent = 0)
    (hstart : calls = [] → scratch.data 0 = zeros) :
    appended st calls scratch = scratch.overlay (archive (filesOf st.vol calls) ++ [zeros]) := by
  rw [appended, lastMarker_eq, Option.or_none]
  cases hlast : calls.getLast? with
  | none =>
    have hnil : calls = [] := List.getLast?_eq_none_iff.mp hlast
    subst hnil
    exact (Device.overlay_zeros (hstart rfl)).symm
  | some c =>
    rw [Option.map_some, Option.toList_some, secondMarker_eq_zeros.mpr (hadjacent c hlast)]

/-- With the end marker in place, everything is extracted. -/
theorem FitsDevices.extract (h : FitsDevices st refs calls scratch fs)
    (hfresh : Formatted fs refs' entry)
    (hready : EndsInZeros calls scratch (archiveSectors (filesOf st.vol calls)) entry) :
    ∃ x, fsutilExtract e { sector := 0, src := appended st calls scratch, fs := fs } = .ok x ∧
      HoldsExactly x.fs.opened.vol (filesOf st.vol calls) ∧
      x.sector = UInt32.ofNat (archive (filesOf st.vol calls)).length + 1 := by
  have hsectors := h.sectors
  have hsize := h.size
  have hlength := length_archive (filesOf st.vol calls)
  have hcount := length_le_archiveSectors (filesOf st.vol calls)
  have hread : (appended st calls scratch).Reads 0 (archive (filesOf st.vol calls) ++ [zeros]) := by
    rw [appended_eq hready.adjacent hready.start]
    exact Device.reads_overlay (by rw [List.length_append, List.length_singleton]; omega)
      (Nat.le_of_lt hsize)
  have hmarked : filesOf st.vol calls ≠ [] →
      ({ entry with inodeSector := rootDirSector } : DirEntry).inUse ≠ 0 := by
    intro hne
    exact hready.marked fun hnil => hne (by rw [hnil]; rfl)
  obtain ⟨fs', tail', map', hloop, hextracted⟩ := @extractLoop_ok fs refs' _ [] (filesOf st.vol calls) _
    _ (appended st calls scratch) 0 (scratch.size + 1) e (h.extracted hfresh) h.portable hmarked
    (by omega) hread
  rw [List.nil_append] at hextracted
  obtain ⟨d₁, d₂, hfirst, hsecond⟩ := erase_ok (appended st calls scratch)
    (Nat.le_trans (Nat.le_add_left 2 _) hsectors)
  rw [Nat.zero_add, ← next_sector_nat] at hloop
  have hrun : extractLoop e ((appended st calls scratch).size + 1)
      { sector := 0, src := appended st calls scratch, fs := fs } = .ok {
        sector := UInt32.ofNat (archive (filesOf st.vol calls)).length + 1
        src := appended st calls scratch
        fs := fs' } := hloop
  refine ⟨{
    sector := UInt32.ofNat (archive (filesOf st.vol calls)).length + 1
    src := d₂
    fs := fs' }, ?_, hextracted.holdsExactly h.portable, rfl⟩
  rw [fsutilExtract]
  dsimp only
  rw [hrun, ok_bind]
  dsimp only
  rw [hfirst, mapError_ok, ok_bind, hsecond]
  rfl

/-- Without a mark in the first slot of the root directory, the first file cannot be opened. -/
theorem FitsDevices.extract_unmarked (h : FitsDevices st refs calls scratch fs)
    (hfresh : Formatted fs refs' entry) (hne : calls ≠ []) (hunused : entry.inUse = 0) :
    ∃ p, fsutilExtract e { sector := 0, src := appended st calls scratch, fs := fs } = .error p := by
  have hsectors := h.sectors
  obtain ⟨c, rest, hcalls⟩ := List.exists_cons_of_ne_nil hne
  have hfiles : filesOf st.vol calls = c.file st.vol :: filesOf st.vol rest := by
    rw [hcalls]
    rfl
  have hmarker := length_lastMarker calls
  have hread : (appended st calls scratch).Reads 0
      (archive (filesOf st.vol calls) ++ (lastMarker calls none).toList) :=
    Device.reads_overlay (by rw [List.length_append, length_archive]; omega) (Nat.le_of_lt h.size)
  have hextracted := h.extracted hfresh
  have hports := h.portable
  rw [hfiles] at hread hextracted hports
  have hloop := @extractLoop_unmarked fs refs' _ [] (filesOf st.vol rest) _ _ (c.file st.vol)
    (appended st calls scratch) 0 scratch.size e hextracted hports hunused hread.head
  have hrun : extractLoop e ((appended st calls scratch).size + 1)
      { sector := 0, src := appended st calls scratch, fs := fs } =
        .error (.openFailed (c.file st.vol).name) := hloop
  refine ⟨.openFailed (c.file st.vol).name, ?_⟩
  rw [fsutilExtract]
  dsimp only
  rw [hrun]
  rfl

/-- Appending files and extracting them makes the same files if and only if the end marker is in place and
the first slot of the root directory is marked. -/
theorem archive_roundTrips_iff (h : FitsDevices st refs calls scratch fs)
    (hfresh : Formatted fs refs' entry) :
    RoundTrips st calls scratch e fs ↔
      EndsInZeros calls scratch (archiveSectors (filesOf st.vol calls)) entry := by
  have hsectors := h.sectors
  have hsize := h.size
  obtain ⟨st', happends⟩ := h.appends
  constructor
  · intro hround
    obtain ⟨a, x, ha, hx, -, -, hfirst, hsecond⟩ := hround
    rw [happends] at ha
    cases ha
    dsimp only at hx hfirst hsecond
    rw [marker_iff (by omega)] at hfirst
    rw [next_marker (by omega)] at hsecond
    refine ⟨fun hne hunused => ?_, hfirst.1, hfirst.2, hsecond⟩
    obtain ⟨p, herror⟩ := @FitsDevices.extract_unmarked _ _ _ _ _ _ _ e h hfresh hne hunused
    rw [herror] at hx
    cases hx
  · intro hready
    obtain ⟨x, hx, hholds, hend⟩ := @FitsDevices.extract _ _ _ _ _ _ _ e h hfresh hready
    refine ⟨_, x, happends, hx, hholds, hend, ?_, ?_⟩
    · dsimp only
      rw [marker_iff (by omega)]
      exact ⟨hready.adjacent, hready.start⟩
    · dsimp only
      rw [next_marker (by omega)]
      exact hready.next

end RoundTrip

/-! ## One file -/

/-- The volume after formatting, on an empty one. -/
def newVolume (entry : DirEntry) : Volume :=
  (Volume.dirCreate { bytes := fun _ => [], isDir := fun _ => false } true entry rootDirSector 16).2

/-- The entry of a directory that is marked as used. -/
def markedEntry : DirEntry := { DirEntry.zero with inUse := 1 }

/-- A file system with a root directory and four free sectors. -/
def newSystem : FsState where
  opened := (OpenFiles.start (newVolume markedEntry)).st
  free := [3, 4, 5, 6]

/-- A volume with the file `f` of three bytes. -/
def sourceVolume : Volume :=
  (Volume.inodeWriteAt ((newVolume markedEntry).dirAdd true .zero rootDirSector [102] 5 false).2 true 5
    [1, 2, 3] 0).2

/-- A scratch device of zeros. -/
def emptyDevice : Device where
  size := 8
  data := fun _ => zeros

/-- A call that appends `f`. -/
def appendF (adjacent : UInt8) : AppendCall where
  fileName := [102]
  e := fun _ => .zero
  adjacent := adjacent

theorem archive_roundTrips_oneFile : RoundTrips (OpenFiles.start sourceVolume).st [appendF 0] emptyDevice
    (fun _ _ => .zero) newSystem := by
  have hcontent : content sourceVolume [102] = [1, 2, 3] := by decide +kernel
  have hfiles : filesOf (OpenFiles.start sourceVolume).st.vol [appendF 0] = [⟨[102], [1, 2, 3]⟩] := by
    have hvol : (OpenFiles.start sourceVolume).st.vol = sourceVolume := rfl
    rw [hvol, filesOf, List.map_singleton, AppendCall.file, appendF, hcontent]
  have hfound : (sourceVolume.lookup rootDirSector [102]).isSome = true := by decide +kernel
  obtain ⟨⟨x, ofs⟩, hlookup⟩ := Option.isSome_iff_exists.mp hfound
  have hremoved : ∀ s, ¬ Removed (OpenFiles.start sourceVolume).st s := by
    intro s hs
    obtain ⟨p, inode, hp, -⟩ := hs
    cases hp
  have hplain : PlainName [102] :=
    ⟨by decide, by decide, by decide, by decide, by decide, by decide⟩
  have hports : Portable [⟨[102], [1, 2, 3]⟩] := by
    refine ⟨?_, List.nodup_singleton _, ?_, by decide +kernel⟩
    · intro f hf
      rw [List.mem_singleton.mp hf]
      exact hplain
    · intro f hf
      rw [List.mem_singleton.mp hf]
      decide +kernel
  have hfits : FitsDevices (OpenFiles.start sourceVolume).st [] [appendF 0] emptyDevice newSystem := by
    refine ⟨OpenFiles.start_counted _, hremoved _, ?_, hfiles ▸ hports, ?_, by decide, ?_⟩
    · intro c hc
      rw [List.mem_singleton.mp hc]
      exact ⟨x, ofs, hlookup, hremoved _⟩
    · rw [hfiles]
      decide +kernel
    · rw [hfiles]
      decide +kernel
  have hnone : NoneRemoved newSystem.opened := by
    intro p inode hp
    cases hp
  have hfresh : Formatted newSystem [] markedEntry :=
    ⟨OpenFiles.start_counted _, hnone, ⟨_, Prod.ext (by decide +kernel) rfl⟩, by decide, by decide⟩
  exact (archive_roundTrips_iff hfits hfresh).mpr
    ⟨fun _ => by decide, by intro c hc; cases hc; rfl, by simp, rfl⟩

/-- Where the byte behind the buffer is not zero, the sector behind the archive is taken for a header. -/
theorem extract_meets_badHeader : ¬ RoundTrips (OpenFiles.start sourceVolume).st [appendF 1] emptyDevice
    (fun _ _ => .zero) newSystem := by
  intro h
  obtain ⟨a, x, ha, hx, -⟩ := h
  have hfails : ([appendF 1].foldlM fsutilAppend
      { sector := 0, dst := emptyDevice, st := (OpenFiles.start sourceVolume).st } >>= fun a =>
        fsutilExtract (fun _ _ => .zero) { sector := 0, src := a.dst, fs := newSystem }).isOk = false := by
    decide +kernel
  rw [ha, ok_bind, hx] at hfails
  cases hfails

end CSE130.Filesys
