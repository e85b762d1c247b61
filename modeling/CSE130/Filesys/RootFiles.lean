import CSE130.Filesys.DirectoryCalls
import CSE130.Filesys.RefExact
import CSE130.Filesys.Reserve
import CSE130.Filesys.Ustar

/-!
# Files of the root directory

Rendering of `filesys_create`, of `file.c` and of what they change, for a kernel thread without a working
directory. The free map is the list of the sectors that are not marked, in the order in which
`free_map_allocate` takes them. Nobody denies writes here, and `malloc` and `calloc` are taken to succeed (the
structures of `file_open`, `dir_open` and `inode_open`, the copy of the path, the blocks of `inode.c`).
-/

namespace CSE130.Filesys

open CSE130.Library OpenInodes

/-- The reasons for which the kernel stops. -/
inductive FsPanic where
  | useAfterFree (u : UseAfterFree)
  | panic (p : Panic)
  deriving DecidableEq, Repr

@[simp] theorem mapError_ok {ε ε' α : Type} (f : ε → ε') (a : α) :
    (Except.ok a : Except ε α).mapError f = .ok a := rfl

/-- `struct file`. -/
structure File where
  inode : Nat
  pos : Nat
  deriving DecidableEq

/-- The inodes, and the sectors that are not marked in the free map. -/
structure FsState where
  opened : OpenInodes
  free : List Sector

/-- The number of sectors that `inode_reserve` allocates for so many data sectors, with the index
blocks. -/
def reservedSectors (n : Nat) : Nat :=
  n + (if directBlocksCount < n then 1 else 0) +
    if directBlocksCount + indirectBlocksPerSector < n then
      1 + divRoundUp (n - (directBlocksCount + indirectBlocksPerSector)) indirectBlocksPerSector
    else 0

/-- The number of sectors that a file of so many bytes has. -/
def sectorsFor (length : Nat) : Nat := reservedSectors (divRoundUp length 512)

/-- The size of the largest file. -/
def maxLength : Nat := 512 * InodeDisk.maxSectors

/-- `file_length` (`file.c:144-149`). -/
def fileLength (st : OpenInodes) (f : File) : Except UseAfterFree Nat := do
  let inode ← st.inodeAt f.inode
  pure (st.vol.bytes inode.sector).length

/-- `file_read` (`file.c:68-74`): the bytes that are read. -/
def fileRead (st : OpenInodes) (f : File) (size : Nat) : Except UseAfterFree (List UInt8 × File) := do
  let inode ← st.inodeAt f.inode
  let bytes := st.vol.inodeReadAt inode.sector size f.pos
  pure (bytes, { f with pos := f.pos + bytes.length })

namespace FsState

/-- Whether sectors are left for a file of `old` bytes to have `length` bytes. -/
def hasRoom (fs : FsState) (old length : Nat) : Bool :=
  sectorsFor length ≤ sectorsFor old + fs.free.length

/-- The inodes have changed to `vol`, and the one in `sector` had `old` bytes: the sectors that it has
more are taken. -/
def grown (fs : FsState) (vol : Volume) (sector : Sector) (old : Nat) : Except FsPanic FsState := do
  let length := (vol.bytes sector).length
  check (length ≤ maxLength) (.panic .assertFailed)
  pure {
    opened := { fs.opened with vol := vol }
    free := fs.free.drop (sectorsFor length - sectorsFor old) }

/-- `file_write` (`file.c:94-100`): the number of bytes written. When the file cannot grow, the free list is
as before here; in the source the sectors that `inode_reserve` has allocated by then stay marked. -/
def fileWrite (fs : FsState) (f : File) (buffer : List UInt8) :
    Except FsPanic (Nat × File × FsState) := do
  let inode ← (fs.opened.inodeAt f.inode).mapError .useAfterFree
  let old := (fs.opened.vol.bytes inode.sector).length
  let (written, vol) := fs.opened.vol.inodeWriteAt (fs.hasRoom old (f.pos + buffer.length)) inode.sector
    buffer f.pos
  let fs ← fs.grown vol inode.sector old
  pure (written, { f with pos := f.pos + written }, fs)

/-- `file_close` (`file.c:45-54`). -/
def fileClose (fs : FsState) (f : File) : Except FsPanic FsState := do
  let st ← (fs.opened.inodeClose f.inode).mapError .useAfterFree
  pure { fs with opened := st }

/-- `inode_create` (`inode.c:147-173`) of a file. When it fails, the sectors that `inode_reserve` has
allocated before it failed stay marked in the free map in the source; here the free list is as before. -/
def inodeCreate (fs : FsState) (sector : Sector) (length : Nat) : Except FsPanic (Bool × FsState) := do
  let (success, vol) := fs.opened.vol.inodeCreate (fs.hasRoom 0 length) sector length false
  if success then do
    let fs ← fs.grown vol sector 0
    pure (true, fs)
  else pure (false, fs)

/-- `dir_add` (`directory.c:282-334`) of a file. -/
def dirAdd (fs : FsState) (x : DirEntry) (dir : Sector) (name : List UInt8) (sector : Sector) :
    Except FsPanic (Bool × FsState) := do
  let old := (fs.opened.vol.bytes dir).length
  let (success, vol) := fs.opened.vol.dirAdd (fs.hasRoom old (old + entrySize)) x dir name sector false
  let fs ← fs.grown vol dir old
  pure (success, fs)

/-- The part of `filesys_create` from `free_map_allocate` on, with what `free_map_release` does when it
fails. -/
def createIn (fs : FsState) (x : DirEntry) (dir : Sector) (name : List UInt8) (initialSize : Nat) :
    Except FsPanic (Bool × FsState) :=
  match fs.free with
  | [] => pure (false, fs)
  | sector :: free => do
    let (created, fs) ← { fs with free := free }.inodeCreate sector initialSize
    let (success, fs) ← if created then fs.dirAdd x dir name sector else pure (false, fs)
    if success = false ∧ sector ≠ 0 then pure (false, { fs with free := sector :: fs.free })
    else pure (success, fs)

/-- `filesys_create` (`filesys.c:54-75`) of a file; `is_dir` is false. -/
def filesysCreate (fs : FsState) (e : Nat → DirEntry) (path : List UInt8) (initialSize : Nat) :
    Except FsPanic (Bool × FsState) := do
  let (dir, st) ← (fs.opened.dirOpenPath e none (splitPathFilename path).1).mapError .useAfterFree
  match dir with
  | none => pure (false, { fs with opened := st })
  | some p => do
    let inode ← (st.inodeAt p).mapError .useAfterFree
    let (success, fs) ←
      { fs with opened := st }.createIn (e 0) inode.sector (splitPathFilename path).2 initialSize
    let st ← (fs.opened.inodeClose p).mapError .useAfterFree
    pure (success, { fs with opened := st })

end FsState

/-! ## Opening a file -/

section Opening

variable {st st' : OpenInodes} {refs : List Nat} {e : Nat → DirEntry} {name : List UInt8} {s : Sector}

/-- No open inode has been removed. -/
def NoneRemoved (st : OpenInodes) : Prop := ∀ p inode, st.inodes p = some inode → inode.removed = false

theorem NoneRemoved.not_removed (h : NoneRemoved st) : ¬ Removed st s := by
  intro hremoved
  obtain ⟨p, inode, hp, -, hr⟩ := hremoved
  rw [h p inode hp] at hr
  cases hr

theorem Agrees.noneRemoved (hagrees : Agrees st st') (h : NoneRemoved st) : NoneRemoved st' := by
  intro p inode' hp'
  cases hp : st.inodes p with
  | none => exact (hagrees.new p inode' hp hp').2
  | some inode => rw [(hagrees.old p inode inode' hp hp').2, h p inode hp]

theorem splitPathFilename_plain (h : PlainName name) : splitPathFilename name = ([], name) := by
  have hhead : name.head? ≠ some slash := fun hs => h.noSlash (List.mem_of_mem_head? hs)
  have hsingle : name.splitOnP (· = slash) = [name] := by
    apply List.splitOnP_eq_singleton
    intro c hc
    rw [decide_eq_false_iff_not]
    exact fun heq => h.noSlash (heq ▸ hc)
  have hwords : words slash name = [name] := by
    rw [words, hsingle, List.filter_cons_of_pos (by simpa using h.ne_nil), List.filter_nil]
  rw [splitPathFilename, hwords, if_neg hhead]
  rfl

/-- The empty path leads to the root directory. -/
theorem leads_root : Leads st e none [] s ↔ s = rootDirSector ∧ ¬ Removed st rootDirSector := by
  have hresolve : resolve st.vol e (startSector st none []) (words slash []) = some rootDirSector := rfl
  rw [Leads, hresolve, Option.some_inj]
  constructor
  · intro h
    exact ⟨h.1.symm, h.1 ▸ h.2⟩
  · intro h
    exact ⟨h.1.symm, h.1 ▸ h.2⟩

theorem dirOpenPath_root (h : Counted st refs) (hroot : ¬ Removed st rootDirSector) :
    ∃ p st' inode, st.dirOpenPath e none [] = .ok (some p, st') ∧ Counted st' (p :: refs) ∧
      Agrees st st' ∧ st'.inodes p = some inode ∧ inode.sector = rootDirSector := by
  obtain ⟨r, st', hrun, hcounted, hagrees, hfound, hlost⟩ := @dirOpenPath_ok st refs [] none e h nofun
  cases r with
  | none => exact absurd (leads_root.mpr ⟨rfl, hroot⟩) (hlost rfl rootDirSector)
  | some p =>
    obtain ⟨inode, hinode, hleads⟩ := hfound p rfl
    exact ⟨p, st', inode, hrun, hcounted, hagrees, hinode, (leads_root.mp hleads).1⟩

/-- `filesys_open` of a name that is not in the root directory. -/
theorem filesysOpen_none (h : Counted st refs) (hroot : ¬ Removed st rootDirSector)
    (hname : PlainName name) (hnone : st.vol.dirLookup (e 0) rootDirSector name = none) :
    ∃ st', st.filesysOpen e none name = .ok (none, st') := by
  obtain ⟨p, st₁, inode, hrun₁, hcounted₁, hagrees₁, hinode, hsector⟩ := @dirOpenPath_root st refs e h hroot
  obtain ⟨r, st₂, hrun₂, -, -, -, -, hsome⟩ :=
    @openInDir_ok st₁ refs p inode name (e 0) hcounted₁ hinode
  refine ⟨st₂, ?_⟩
  rw [filesysOpen, if_neg hname.ne_nil, splitPathFilename_plain hname]
  dsimp only
  rw [hrun₁, ok_bind]
  dsimp only
  rw [hrun₂]
  cases r with
  | none => rfl
  | some q =>
    obtain ⟨j, -, hlookup⟩ := hsome hname.ne_nil q rfl
    rw [hagrees₁.vol, hsector, hnone] at hlookup
    cases hlookup

/-- `filesys_open` of a file of the root directory. -/
theorem filesysOpen_some (h : Counted st refs) (hroot : ¬ Removed st rootDirSector)
    (hname : PlainName name) (hs : st.vol.dirLookup (e 0) rootDirSector name = some s)
    (hremoved : ¬ Removed st s) :
    ∃ p st' inode, st.filesysOpen e none name = .ok (some p, st') ∧ Counted st' (p :: refs) ∧
      Agrees st st' ∧ st'.inodes p = some inode ∧ inode.sector = s := by
  obtain ⟨p, st₁, inode, hrun₁, hcounted₁, hagrees₁, hinode, hsector⟩ := @dirOpenPath_root st refs e h hroot
  obtain ⟨r, st₂, hrun₂, hcounted₂, hagrees₂, -, hnone, hsome⟩ :=
    @openInDir_ok st₁ refs p inode name (e 0) hcounted₁ hinode
  rw [hagrees₁.vol, hsector] at hnone hsome
  cases r with
  | none =>
    rw [hnone hname.ne_nil rfl] at hs
    cases hs
  | some q =>
    have hagrees := hagrees₁.trans h hagrees₂
    obtain ⟨j, hj, hlookup⟩ := hsome hname.ne_nil q rfl
    rw [hs] at hlookup
    have hjs : j.sector = s := (Option.some.inj hlookup).symm
    have hat : st₂.inodeAt q = .ok j := by rw [inodeAt, hj]
    have hkept : j.removed = false := by
      by_contra hr
      rw [Bool.not_eq_false] at hr
      have hiff : Removed st₂ s ↔ Removed st s :=
        removed_iff hcounted₂ hagrees fun p i hi _ => List.mem_append_right _ (h.mem hi)
      exact hremoved (hiff.mp ⟨q, j, hj, hjs, hr⟩)
    refine ⟨q, st₂, j, ?_, hcounted₂, hagrees, hj, hjs⟩
    rw [filesysOpen, if_neg hname.ne_nil, splitPathFilename_plain hname]
    dsimp only
    rw [hrun₁, ok_bind]
    dsimp only
    rw [hrun₂, ok_bind]
    dsimp only
    rw [hat, ok_bind, hkept]
    rfl

end Opening

/-! ## Creating a file -/

namespace Volume

variable {vol vol' : Volume} {grows : Bool} {e : DirEntry} {name : List UInt8} {d s sector : Sector}

/-- The inodes with a new file of zeros. -/
def withFile (vol : Volume) (sector : Sector) (length : Nat) : Volume where
  bytes := Function.update vol.bytes sector (List.replicate length 0)
  isDir := Function.update vol.isDir sector false

theorem writeSlot_isDir : (vol.writeSlot grows e d name sector).2.isDir = vol.isDir := by
  unfold writeSlot inodeWriteAt
  dsimp only
  split_ifs <;> rfl

/-- `dir_add` of a file changes nothing but the directory. -/
theorem dirAdd_file_others (hs : s ≠ d) :
    (vol.dirAdd grows e d name sector false).2.bytes s = vol.bytes s ∧
      (vol.dirAdd grows e d name sector false).2.isDir = vol.isDir := by
  by_cases hreach : ReachesSlots vol grows e d name sector false
  · rw [dirAdd_of hreach]
    exact ⟨writeSlot_others hs, writeSlot_isDir⟩
  · rw [dirAdd_of_not hreach]
    exact ⟨rfl, rfl⟩

end Volume

namespace FsState

variable {fs : FsState} {refs : List Nat} {e : Nat → DirEntry} {name : List UInt8} {x first : DirEntry}
  {dir sector p : Sector} {free : List Sector} {size old : Nat} {vol : Volume} {tail : List DirEntry}
  {map : NameMap}

theorem grown_of_le (h : (vol.bytes sector).length ≤ maxLength) : fs.grown vol sector old = .ok {
    opened := { fs.opened with vol := vol }
    free := fs.free.drop (sectorsFor (vol.bytes sector).length - sectorsFor old) } := check_bind h

/-- The file system with a new file, for which its sectors have been taken. -/
def created (fs : FsState) (free : List Sector) (sector : Sector) (size : Nat) : FsState where
  opened := { fs.opened with vol := fs.opened.vol.withFile sector size }
  free := free.drop (sectorsFor size)

theorem inodeCreate_ok (hroom : sectorsFor size ≤ free.length) (hmax : size ≤ maxLength) :
    { fs with free := free }.inodeCreate sector size = .ok (true, fs.created free sector size) := by
  have hzero : sectorsFor 0 = 0 := rfl
  have hhas : { fs with free := free }.hasRoom 0 size = true := by
    rw [hasRoom, hzero, Nat.zero_add, decide_eq_true_eq]
    exact hroom
  have hbytes : (fs.opened.vol.withFile sector size).bytes sector = List.replicate size 0 :=
    Function.update_self _ _ _
  have hcreate : fs.opened.vol.inodeCreate true sector size false =
      (true, fs.opened.vol.withFile sector size) := if_pos (.inl rfl)
  rw [inodeCreate, hhas]
  dsimp only
  rw [hcreate]
  dsimp only
  rw [if_pos rfl, grown_of_le, hbytes, List.length_replicate, hzero, Nat.sub_zero]
  · rfl
  · rw [hbytes, List.length_replicate]
    exact hmax

/-- Creating a file, where there is room for it and `dir_add` succeeds. -/
theorem createIn_ok (hfree : fs.free = sector :: free) (hmax : size ≤ maxLength)
    (hroom : sectorsFor size ≤ free.length)
    (hold : ((fs.opened.vol.withFile sector size).bytes dir).length = old)
    (hadd : (fs.opened.vol.withFile sector size).dirAdd
      (sectorsFor (old + entrySize) ≤ sectorsFor old + (free.length - sectorsFor size))
      x dir name sector false = (true, vol))
    (hlen : (vol.bytes dir).length ≤ maxLength) :
    fs.createIn x dir name size = .ok (true, {
      opened := { fs.opened with vol := vol }
      free := (free.drop (sectorsFor size)).drop
        (sectorsFor (vol.bytes dir).length - sectorsFor old) }) := by
  have hhas : (fs.created free sector size).hasRoom old (old + entrySize) =
      decide (sectorsFor (old + entrySize) ≤ sectorsFor old + (free.length - sectorsFor size)) := by
    rw [hasRoom, created, List.length_drop]
  have hdirAdd : (fs.created free sector size).dirAdd x dir name sector = .ok (true, {
      opened := { fs.opened with vol := vol }
      free := (free.drop (sectorsFor size)).drop
        (sectorsFor (vol.bytes dir).length - sectorsFor old) }) := by
    have holdCreated : ((fs.created free sector size).opened.vol.bytes dir).length = old := hold
    have haddCreated : (fs.created free sector size).opened.vol.dirAdd
        ((fs.created free sector size).hasRoom old (old + entrySize)) x dir name sector false =
        (true, vol) := by
      rw [hhas]
      exact hadd
    rw [dirAdd, holdCreated]
    dsimp only
    rw [haddCreated]
    dsimp only
    rw [grown_of_le hlen]
    rfl
  have hsuccess : ¬ (true = false ∧ sector ≠ 0) := fun hfalse => by cases hfalse.1
  rw [createIn, hfree]
  dsimp only
  rw [inodeCreate_ok hroom hmax, ok_bind]
  dsimp only
  rw [if_pos rfl, hdirAdd, ok_bind]
  dsimp only
  rw [if_neg hsuccess]
  rfl

/-- `filesys_create` in the root directory. -/
theorem filesysCreate_ok (h : Counted fs.opened refs) (hremoved : NoneRemoved fs.opened)
    (hname : PlainName name) (hfree : fs.free = sector :: free) (hmax : size ≤ maxLength)
    (hroom : sectorsFor size ≤ free.length)
    (hold : ((fs.opened.vol.withFile sector size).bytes rootDirSector).length = old)
    (hadd : (fs.opened.vol.withFile sector size).dirAdd
      (sectorsFor (old + entrySize) ≤ sectorsFor old + (free.length - sectorsFor size))
      (e 0) rootDirSector name sector false = (true, vol))
    (hlen : (vol.bytes rootDirSector).length ≤ maxLength) :
    ∃ fs', fs.filesysCreate e name size = .ok (true, fs') ∧ Counted fs'.opened refs ∧
      NoneRemoved fs'.opened ∧ fs'.opened.vol = vol ∧
      fs'.free = (free.drop (sectorsFor size)).drop
        (sectorsFor (vol.bytes rootDirSector).length - sectorsFor old) := by
  obtain ⟨p, st₁, inode, hrun₁, hcounted₁, hagrees₁, hinode, hsector⟩ :=
    @dirOpenPath_root fs.opened refs e h hremoved.not_removed
  have hat : st₁.inodeAt p = .ok inode := by rw [inodeAt, hinode]
  have hcreate := @createIn_ok { fs with opened := st₁ } name (e 0) rootDirSector sector free size old
    vol hfree hmax hroom (by rw [hagrees₁.vol]; exact hold) (by rw [hagrees₁.vol]; exact hadd) hlen
  obtain ⟨st₂, hrun₂, hcounted₂, hagrees₂⟩ := inodeClose_ok (hcounted₁.withVol vol) List.mem_cons_self
  rw [List.erase_cons_head] at hcounted₂
  refine ⟨{
    opened := st₂
    free := (free.drop (sectorsFor size)).drop
      (sectorsFor (vol.bytes rootDirSector).length - sectorsFor old) },
    ?_, hcounted₂, ?_, hagrees₂.vol, rfl⟩
  · rw [filesysCreate, splitPathFilename_plain hname]
    dsimp only
    rw [hrun₁, mapError_ok, ok_bind]
    dsimp only
    rw [hat, mapError_ok, ok_bind, hsector, hcreate, ok_bind]
    dsimp only
    rw [hrun₂]
    rfl
  · exact hagrees₂.noneRemoved (hagrees₁.noneRemoved hremoved)

theorem withFile_dirOk (size : Nat) (h : DirOk vol dir p first tail map) (hne : sector ≠ dir) :
    DirOk (vol.withFile sector size) dir p first tail map :=
  h.congr (Function.update_of_ne hne.symm _ _)

/-- Where the first slot of the root directory is marked, the new name is added to its map. -/
theorem filesysCreate_marked (h : Counted fs.opened refs) (hremoved : NoneRemoved fs.opened)
    (hdir : DirOk fs.opened.vol rootDirSector p first tail map) (hused : first.inUse ≠ 0)
    (hname : PlainName name) (hnone : map name = none) (hfree : fs.free = sector :: free)
    (hsector : sector ≠ rootDirSector) (hmax : size ≤ maxLength) (hroom : sectorsFor size ≤ free.length)
    (hshort : entrySize * (tail.length + 1) ≤ maxLength)
    (hgrow : (∀ y ∈ tail, y.inUse ≠ 0) → entrySize * (tail.length + 2) ≤ maxLength ∧
      sectorsFor (entrySize * (tail.length + 2)) + sectorsFor size ≤
        sectorsFor (entrySize * (tail.length + 1)) + free.length) :
    ∃ fs' tail', fs.filesysCreate e name size = .ok (true, fs') ∧ Counted fs'.opened refs ∧
      NoneRemoved fs'.opened ∧
      DirOk fs'.opened.vol rootDirSector p first tail' (Function.update map name (some sector)) ∧
      (tail'.length = tail.length ∨ tail'.length = tail.length + 1 ∧ ∀ y ∈ tail, y.inUse ≠ 0) ∧
      fs'.opened.vol.bytes sector = List.replicate size 0 ∧ fs'.opened.vol.isDir sector = false ∧
      (∀ s, s ≠ rootDirSector → s ≠ sector → fs'.opened.vol.bytes s = fs.opened.vol.bytes s ∧
        fs'.opened.vol.isDir s = fs.opened.vol.isDir s) ∧
      fs'.free = (free.drop (sectorsFor size)).drop (sectorsFor (entrySize * (tail'.length + 1)) -
        sectorsFor (entrySize * (tail.length + 1))) := by
  have hdir₁ := withFile_dirOk size hdir hsector
  generalize hgrows : decide (sectorsFor (entrySize * (tail.length + 1) + entrySize) ≤
    sectorsFor (entrySize * (tail.length + 1)) + (free.length - sectorsFor size)) = grows
  have hadd := @dirAdd_file _ rootDirSector p sector (e 0) first tail name grows map hdir₁ hname.ne_nil
    hname.le hnone
  rcases @writeSlot_keeps _ rootDirSector p sector (e 0) first tail name grows map hdir₁ hused hname.le
    hname.noNull hnone with ⟨-, hfalse, hfull⟩ | ⟨vol', tail', hwrite, hdir', htail'⟩
  · have hspace := (hgrow hfull).2
    have hnext : entrySize * (tail.length + 1) + entrySize = entrySize * (tail.length + 2) := rfl
    rw [hfalse, decide_eq_false_iff_not, hnext] at hgrows
    omega
  · have hlen' : (vol'.bytes rootDirSector).length ≤ maxLength := by
      rw [hdir'.length_bytes]
      rcases htail' with heq | ⟨heq, hfull⟩
      · rw [heq]
        exact hshort
      · rw [heq]
        exact (hgrow hfull).1
    have hfile := hadd.trans hwrite
    have hothers : ∀ s, s ≠ rootDirSector →
        vol'.bytes s = (fs.opened.vol.withFile sector size).bytes s ∧
          vol'.isDir = (fs.opened.vol.withFile sector size).isDir := by
      intro s hs
      have hsame := @Volume.dirAdd_file_others (fs.opened.vol.withFile sector size) grows (e 0) name
        rootDirSector s sector hs
      rw [hfile] at hsame
      exact hsame
    rw [← hgrows] at hfile
    obtain ⟨fs', hrun, hcounted, hremoved', hvol, hfree'⟩ :=
      filesysCreate_ok h hremoved hname hfree hmax hroom hdir₁.length_bytes hfile hlen'
    refine ⟨fs', tail', hrun, hcounted, hremoved', hvol ▸ hdir', htail', ?_, ?_, ?_, ?_⟩
    · rw [hvol, (hothers sector hsector).1]
      exact Function.update_self _ _ _
    · rw [hvol, (hothers sector hsector).2]
      exact Function.update_self _ _ _
    · intro s hs hne
      rw [hvol, (hothers s hs).1, (hothers s hs).2]
      exact ⟨Function.update_of_ne hne _ _, Function.update_of_ne hne _ _⟩
    · rw [hfree', hdir'.length_bytes]

/-- Where it is not marked, the new name takes that slot, and a lookup does not find it. -/
theorem filesysCreate_unmarked (h : Counted fs.opened refs) (hremoved : NoneRemoved fs.opened)
    (hdir : DirOk fs.opened.vol rootDirSector p first tail map) (hunused : first.inUse = 0)
    (hname : PlainName name) (hnone : map name = none) (hfree : fs.free = sector :: free)
    (hsector : sector ≠ rootDirSector) (hmax : size ≤ maxLength) (hroom : sectorsFor size ≤ free.length)
    (hshort : entrySize * (tail.length + 1) ≤ maxLength) :
    ∃ fs', fs.filesysCreate e name size = .ok (true, fs') ∧ Counted fs'.opened refs ∧
      NoneRemoved fs'.opened ∧ ∀ x, fs'.opened.vol.dirLookup x rootDirSector name = none := by
  have hdir₁ := withFile_dirOk size hdir hsector
  generalize hgrows : decide (sectorsFor (entrySize * (tail.length + 1) + entrySize) ≤
    sectorsFor (entrySize * (tail.length + 1)) + (free.length - sectorsFor size)) = grows
  have hadd := @dirAdd_file _ rootDirSector p sector (e 0) first tail name grows map hdir₁ hname.ne_nil
    hname.le hnone
  obtain ⟨vol', p', first', hwrite, hdir'⟩ := @writeSlot_first _ rootDirSector p sector (e 0) first tail
    name grows map hdir₁ hunused
  have hfile := hadd.trans hwrite
  rw [← hgrows] at hfile
  obtain ⟨fs', hrun, hcounted, hremoved', hvol, -⟩ :=
    filesysCreate_ok h hremoved hname hfree hmax hroom hdir₁.length_bytes hfile
      (by rw [hdir'.length_bytes]; exact hshort)
  refine ⟨fs', hrun, hcounted, hremoved', ?_⟩
  intro x
  rw [hvol, hdir'.isMap.lookup x name hname.ne_dot hname.ne_dotDot, hnone]

end FsState

end CSE130.Filesys
