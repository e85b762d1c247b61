import CSE130.Filesys.InodeTable
import CSE130.Filesys.OpenFiles

/-!
# Creating files

Rendering of `filesys_create` of `filesys/filesys.c`, with what it uses of `filesys/directory.c` and
`filesys/inode.c`, on the sectors of the device. `inode_open` makes one structure for a sector, so that
an in-memory inode is known by its sector; a directory is known by that of its inode. A local
`struct dir_entry` is handed in with the bytes that it happens to have.
-/

namespace CSE130.Filesys

open CSE130.Library

/-- The store, and the inodes of the list `open_inodes`. -/
structure Mount where
  store : Store
  inodes : Sector → Option Inode

/-- The reasons for which a function on a mounted file system stops: the kernel panics, or an inode is
used that is not open. -/
inductive Fault where
  | panic (p : Panic)
  | notOpen (x : Sector)
  deriving DecidableEq, Repr

/-- A function of the kernel on a mounted file system. -/
abbrev MountM := EStateM Fault Mount

namespace Mount

/-- A function on the store. -/
def onDisk {α : Type} (m : StoreM α) : MountM α := fun st =>
  match m st.store with
  | .ok a s => .ok a { st with store := s }
  | .error p s => .error (.panic p) { st with store := s }

/-- The in-memory inode of a sector. -/
def inodeAt (x : Sector) : MountM Inode := fun st =>
  match st.inodes x with
  | some inode => .ok inode st
  | none => .error (.notOpen x) st

/-- The inodes after that of a sector has changed. -/
def withInode (st : Mount) (x : Sector) (inode : Option Inode) : Mount :=
  { st with inodes := Function.update st.inodes x inode }

/-- Changes the in-memory inode of a sector. -/
def setInode (x : Sector) (inode : Option Inode) : MountM Unit := fun st =>
  .ok () (st.withInode x inode)

/-! ## In-memory inodes -/

/-- `inode_reopen` (`inode.c:213-219`). -/
def inodeReopen (x : Sector) : MountM Unit := do
  let inode ← inodeAt x
  setInode x (some { inode with openCnt := inode.openCnt + 1 })

/-- `inode_open` (`inode.c:178-210`). -/
def inodeOpen (x : Sector) : MountM Unit := do
  let st ← get
  match st.inodes x with
  | some _ => inodeReopen x
  | none => do
    let b ← onDisk (bufferCacheRead x)
    setInode x (some
      { sector := x, openCnt := 1, removed := false, denyWriteCnt := 0, data := InodeDisk.ofSector b })

/-- `inode_close` (`inode.c:231-253`) of an inode that is not `NULL`. -/
def inodeClose (x : Sector) : MountM Unit := do
  let inode ← inodeAt x
  if inode.openCnt - 1 = 0 then do
    setInode x none
    if inode.removed then onDisk (FileSystem.releaseInode inode) else pure ()
  else setInode x (some { inode with openCnt := inode.openCnt - 1 })

/-- `inode_read_at` (`inode.c:267-317`) of the inode of a sector. -/
def readInode (x : Sector) (size offset : Nat) : MountM (List UInt8) := do
  let inode ← inodeAt x
  onDisk (inodeReadAt inode.data size offset)

/-- `inode_write_at` (`inode.c:324-397`) of the inode of a sector. -/
def writeInode (x : Sector) (buffer : List UInt8) (offset : Nat) : MountM Nat := do
  let inode ← inodeAt x
  let (written, inode) ← onDisk (inodeWriteAt inode buffer offset)
  setInode x (some inode)
  pure written

/-! ## Directories -/

open DirEntry

/-- The loops of `directory.c`, with a bound on their rounds: entries are read one after the other into
`e` up to one for which `p` holds. The result tells whether there was one, and the entry and the offset
at the end. -/
def scanLoop (dir : Sector) (p : DirEntry → Bool) :
    Nat → DirEntry → Nat → MountM (Bool × DirEntry × Nat)
  | 0, _, _ => throw (.panic .outOfFuel)
  | rounds + 1, e, ofs => do
    let bs ← readInode dir entrySize ofs
    if bs.length = entrySize then
      if p (e.refill bs) then pure (true, e.refill bs, ofs)
      else scanLoop dir p rounds (e.refill bs) (ofs + entrySize)
    else pure (false, e.refill bs, ofs)

/-- The loop, with as many rounds as it can make. -/
def scanDir (dir : Sector) (p : DirEntry → Bool) (e : DirEntry) (ofs : Nat) :
    MountM (Bool × DirEntry × Nat) := do
  let inode ← inodeAt dir
  scanLoop dir p (inode.data.length.toInt.toNat + 1) e ofs

/-- `lookup` (`directory.c:202-224`). -/
def lookup (dir : Sector) (name : List UInt8) : MountM (Option (DirEntry × Nat)) := do
  let (found, e, ofs) ← scanDir dir (fun e => e.inUse ≠ 0 ∧ name = e.cname) zero entrySize
  pure (if found then some (e, ofs) else none)

/-- `dir_lookup` (`directory.c:247-273`): the sector of the inode, which is open then. -/
def dirLookup (e : DirEntry) (dir : Sector) (name : List UInt8) : MountM (Option Sector) :=
  if name = Volume.dot then do
    inodeReopen dir
    pure (some dir)
  else if name = Volume.dotDot then do
    let bs ← readInode dir entrySize 0
    let x := (e.refill bs).inodeSector
    inodeOpen x
    pure (some x)
  else do
    match ← lookup dir name with
    | none => pure none
    | some (e, _) => do
      inodeOpen e.inodeSector
      pure (some e.inodeSector)

/-- The directory that `dir_open_path` starts from. `cwd` is that of the thread. -/
def openStart (cwd : Option Sector) (path : List UInt8) : MountM Sector :=
  if path.head? = some OpenInodes.slash then do
    inodeOpen OpenInodes.rootDirSector
    pure OpenInodes.rootDirSector
  else match cwd with
    | none => do
      inodeOpen OpenInodes.rootDirSector
      pure OpenInodes.rootDirSector
    | some x => do
      inodeReopen x
      pure x

/-- The loop of `dir_open_path`, and what follows. `e` has the bytes of the variable in `dir_lookup`, for
each number of tokens left. -/
def walkPath (e : Nat → DirEntry) : Sector → List (List UInt8) → MountM (Option Sector)
  | curr, [] => do
    let inode ← inodeAt curr
    if inode.removed then do
      inodeClose curr
      pure none
    else pure (some curr)
  | curr, token :: tokens => do
    let next ← dirLookup (e tokens.length) curr token
    inodeClose curr
    match next with
    | none => pure none
    | some x => walkPath e x tokens

/-- `dir_open_path` (`directory.c:119-168`): the directory, if there is one. -/
def dirOpenPath (e : Nat → DirEntry) (cwd : Option Sector) (path : List UInt8) :
    MountM (Option Sector) := do
  let curr ← openStart cwd path
  walkPath e curr (words OpenInodes.slash path)

/-- The part of `dir_add` that links a directory to its parent. -/
def linkParent (e : DirEntry) (dir inodeSector : Sector) (isDir : Bool) : MountM (Bool × DirEntry) :=
  if isDir then do
    inodeOpen inodeSector
    let e := { e with inodeSector := dir }
    let written ← writeInode inodeSector e.toBytes 0
    inodeClose inodeSector
    pure (written = entrySize, e)
  else pure (true, e)

/-- The part of `dir_add` that writes the entry into a free slot. -/
def writeSlot (e : DirEntry) (dir : Sector) (name : List UInt8) (inodeSector : Sector) :
    MountM Bool := do
  let (_, e, ofs) ← scanDir dir (fun e => e.inUse = 0) e 0
  let e := { e.setName name with inUse := 1, inodeSector := inodeSector }
  let written ← writeInode dir e.toBytes ofs
  pure (written = entrySize)

/-- `dir_add` (`directory.c:282-334`). -/
def dirAdd (e : DirEntry) (dir : Sector) (name : List UInt8) (inodeSector : Sector) (isDir : Bool) :
    MountM Bool :=
  if name = [] ∨ nameMax < name.length then pure false
  else do
    let found ← lookup dir name
    if found.isSome then pure false
    else do
      let (linked, e) ← linkParent e dir inodeSector isDir
      if linked then writeSlot e dir name inodeSector else pure false

/-! ## `filesys_create` -/

/-- The allocation of a sector for the inode, its creation and its entry in the directory: whether all
of it succeeds, and `inode_sector`. -/
def createIn (e : DirEntry) (dir : Sector) (fileName : List UInt8) (initialSize : Int32)
    (isDir : Bool) : MountM (Bool × Sector) := do
  match ← onDisk freeMapAllocate with
  | none => pure (false, 0)
  | some inodeSector => do
    let created ← onDisk (inodeCreate inodeSector initialSize isDir)
    if created then do
      let added ← dirAdd e dir fileName inodeSector isDir
      pure (added, inodeSector)
    else pure (false, inodeSector)

/-- The release of the inode's sector in `filesys_create`. -/
def releaseUnused (success : Bool) (inodeSector : Sector) : MountM Unit :=
  if success = false ∧ inodeSector ≠ 0 then onDisk (freeMapRelease inodeSector) else pure ()

/-- `filesys_create` (`filesys.c:54-75`). `e` has the bytes of the variables in `dir_lookup`, `e'` those of
the one in `dir_add`. -/
def filesysCreate (e : Nat → DirEntry) (e' : DirEntry) (cwd : Option Sector) (path : List UInt8)
    (initialSize : Int32) (isDir : Bool) : MountM Bool := do
  let dir ← dirOpenPath e cwd (OpenInodes.splitPathFilename path).1
  match dir with
  | none => pure false
  | some dir => do
    let (success, inodeSector) ← createIn e' dir (OpenInodes.splitPathFilename path).2 initialSize isDir
    releaseUnused success inodeSector
    inodeClose dir
    pure success

end Mount

end CSE130.Filesys
