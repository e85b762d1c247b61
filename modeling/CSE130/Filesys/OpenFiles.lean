import CSE130.Filesys.Directory
import CSE130.Library.Words

/-!
# Open files and directories

Rendering of how `filesys.c`, `file.c`, `directory.c` and `inode.c` count the references to an in-memory
inode. An inode structure is known by its address; an address is not used again. A step that uses an
inode that has been freed is an error here. `malloc` and `calloc` are taken to succeed.
-/

namespace CSE130.Filesys

open CSE130.Library DirEntry

/-- What the counting needs of `struct inode`. -/
structure InodeRef where
  sector : Sector
  openCnt : Nat
  removed : Bool
  deriving DecidableEq

/-- The inode structures that are not freed, the list `open_inodes`, and the inodes on disk. -/
structure OpenInodes where
  inodes : Nat → Option InodeRef
  openInodes : List Nat
  next : Nat
  vol : Volume

/-- The use of an inode after it has been freed. -/
inductive UseAfterFree where
  | inode (p : Nat)
  deriving DecidableEq, Repr

namespace OpenInodes

/-- The inode at an address. -/
def inodeAt (st : OpenInodes) (p : Nat) : Except UseAfterFree InodeRef :=
  match st.inodes p with
  | some inode => .ok inode
  | none => .error (.inode p)

/-- The inodes after that at `p` has changed. -/
def setInode (st : OpenInodes) (p : Nat) (inode : Option InodeRef) : OpenInodes :=
  { st with inodes := Function.update st.inodes p inode }

@[simp] theorem setInode_self (st : OpenInodes) (p : Nat) (inode : Option InodeRef) :
    (st.setInode p inode).inodes p = inode := Function.update_self _ _ _

theorem setInode_of_ne {st : OpenInodes} {p q : Nat} {inode : Option InodeRef} (h : q ≠ p) :
    (st.setInode p inode).inodes q = st.inodes q := Function.update_of_ne h _ _

/-- The inodes with a new structure for a sector, at the address `next`. -/
def newInode (st : OpenInodes) (sector : Sector) : OpenInodes where
  inodes := Function.update st.inodes st.next
    (some { sector := sector, openCnt := 1, removed := false })
  openInodes := st.next :: st.openInodes
  next := st.next + 1
  vol := st.vol

theorem newInode_next (st : OpenInodes) (sector : Sector) : (st.newInode sector).inodes st.next =
    some { sector := sector, openCnt := 1, removed := false } := Function.update_self _ _ _

theorem newInode_of_ne {st : OpenInodes} {sector : Sector} {q : Nat} (h : q ≠ st.next) :
    (st.newInode sector).inodes q = st.inodes q := Function.update_of_ne h _ _

/-- The address of the inode for a sector in `open_inodes`. -/
def findInode (st : OpenInodes) (sector : Sector) : Option Nat :=
  st.openInodes.find? fun p => (st.inodes p).any fun inode => inode.sector = sector

/-- `inode_reopen` (`inode.c:213-219`). -/
def inodeReopen (st : OpenInodes) (p : Nat) : Except UseAfterFree OpenInodes := do
  let inode ← st.inodeAt p
  pure (st.setInode p (some { inode with openCnt := inode.openCnt + 1 }))

/-- `inode_open` (`inode.c:178-210`), with the address that it returns. -/
def inodeOpen (st : OpenInodes) (sector : Sector) : Except UseAfterFree (Nat × OpenInodes) :=
  match st.findInode sector with
  | some p => do
    let st ← st.inodeReopen p
    pure (p, st)
  | none => pure (st.next, st.newInode sector)

/-- `inode_close` (`inode.c:231-253`) of an inode that is not `NULL`. -/
def inodeClose (st : OpenInodes) (p : Nat) : Except UseAfterFree OpenInodes := do
  let inode ← st.inodeAt p
  if inode.openCnt - 1 = 0 then
    pure { st.setInode p none with openInodes := st.openInodes.erase p }
  else pure (st.setInode p (some { inode with openCnt := inode.openCnt - 1 }))

/-- `inode_remove` (`inode.c:257-262`). -/
def inodeRemove (st : OpenInodes) (p : Nat) : Except UseAfterFree OpenInodes := do
  let inode ← st.inodeAt p
  pure (st.setInode p (some { inode with removed := true }))

/-! ## Directories -/

/-- `dir_lookup` (`directory.c:247-273`) in the directory with the inode at `p`. -/
def dirLookup (st : OpenInodes) (e : DirEntry) (p : Nat) (name : List UInt8) :
    Except UseAfterFree (Option Nat × OpenInodes) :=
  if name = Volume.dot then do
    let st ← st.inodeReopen p
    pure (some p, st)
  else do
    let dir ← st.inodeAt p
    match st.vol.dirLookup e dir.sector name with
    | none => pure (none, st)
    | some sector => do
      let (q, st) ← st.inodeOpen sector
      pure (some q, st)

/-- The character `/`. -/
def slash : UInt8 := 47

/-- `ROOT_DIR_SECTOR`. -/
def rootDirSector : Sector := 1

/-- The directory that `dir_open_path` starts from. -/
def openStart (st : OpenInodes) (cwd : Option Nat) (path : List UInt8) :
    Except UseAfterFree (Nat × OpenInodes) :=
  if path.head? = some slash then st.inodeOpen rootDirSector
  else match cwd with
    | none => st.inodeOpen rootDirSector
    | some p => do
      let st ← st.inodeReopen p
      pure (p, st)

/-- The loop of `dir_open_path`, and what follows. `e` has the bytes of the variable in `dir_lookup`, for
each number of tokens left. -/
def walk (e : Nat → DirEntry) : OpenInodes → Nat → List (List UInt8) →
    Except UseAfterFree (Option Nat × OpenInodes)
  | st, curr, [] => do
    let inode ← st.inodeAt curr
    if inode.removed then do
      let st ← st.inodeClose curr
      pure (none, st)
    else pure (some curr, st)
  | st, curr, token :: tokens => do
    let (inode, st) ← st.dirLookup (e tokens.length) curr token
    let st ← st.inodeClose curr
    match inode with
    | none => pure (none, st)
    | some next => walk e st next tokens

/-- `dir_open_path` (`directory.c:119-168`): the inode of the directory, if there is one. -/
def dirOpenPath (st : OpenInodes) (e : Nat → DirEntry) (cwd : Option Nat) (path : List UInt8) :
    Except UseAfterFree (Option Nat × OpenInodes) := do
  let (curr, st) ← st.openStart cwd path
  walk e st curr (words slash path)

/-- The end of `dir_remove`, with the entry that was found and the inode of its sector. -/
def eraseEntry (st : OpenInodes) (dir : Sector) (e : DirEntry) (ofs inode : Nat) :
    Except UseAfterFree (Bool × OpenInodes) := do
  let (written, vol) := st.vol.inodeWriteAt false dir { e with inUse := 0 }.toBytes ofs
  let st := { st with vol := vol }
  if written = entrySize then do
    let st ← st.inodeRemove inode
    let st ← st.inodeClose inode
    pure (true, st)
  else do
    let st ← st.inodeClose inode
    pure (false, st)

/-- `dir_remove` (`directory.c:339-380`) in the directory with the inode at `p`. `dir_open` takes over the
reference of `dir_remove` to a directory, and `dir_close` gives it up. -/
def dirRemove (st : OpenInodes) (p : Nat) (name : List UInt8) :
    Except UseAfterFree (Bool × OpenInodes) := do
  let dir ← st.inodeAt p
  match st.vol.lookup dir.sector name with
  | none => pure (false, st)
  | some (e, ofs) => do
    let (inode, st) ← st.inodeOpen e.inodeSector
    let target ← st.inodeAt inode
    if st.vol.isDir target.sector then do
      let isEmpty := st.vol.dirIsEmpty target.sector
      let st ← st.inodeClose inode
      if isEmpty then st.eraseEntry dir.sector e ofs inode
      else do
        let st ← st.inodeClose inode
        pure (false, st)
    else st.eraseEntry dir.sector e ofs inode

/-! ## Paths -/

/-- The loop of `split_path_filename`: the directory and the last token. -/
def splitLoop : List (List UInt8) → List UInt8 → List UInt8 → List UInt8 × List UInt8
  | [], dir, last => (dir, last)
  | token :: tokens, dir, last =>
    splitLoop tokens (if last ≠ [] then dir ++ last ++ [slash] else dir) token

/-- `split_path_filename` (`directory.c:30-64`). -/
def splitPathFilename (path : List UInt8) : List UInt8 × List UInt8 :=
  splitLoop (words slash path) (if path.head? = some slash then [slash] else []) []

/-- The inode that `filesys_open` looks for in the directory, whose own reference it gives up or
keeps. -/
def openInDir (st : OpenInodes) (e : DirEntry) (dir : Nat) (fileName : List UInt8) :
    Except UseAfterFree (Option Nat × OpenInodes) :=
  if fileName ≠ [] then do
    let (inode, st) ← st.dirLookup e dir fileName
    let st ← st.inodeClose dir
    pure (inode, st)
  else pure (some dir, st)

/-- `filesys_open` (`filesys.c:82-110`): the inode of the new file. -/
def filesysOpen (st : OpenInodes) (e : Nat → DirEntry) (cwd : Option Nat) (name : List UInt8) :
    Except UseAfterFree (Option Nat × OpenInodes) :=
  if name = [] then pure (none, st)
  else do
    let (dir, st) ← st.dirOpenPath e cwd (splitPathFilename name).1
    match dir with
    | none => pure (none, st)
    | some dir => do
      let (inode, st) ← st.openInDir (e 0) dir (splitPathFilename name).2
      match inode with
      | none => pure (none, st)
      | some p => do
        let inode ← st.inodeAt p
        pure (if inode.removed then none else some p, st)

/-- `filesys_remove` (`filesys.c:116-128`). -/
def filesysRemove (st : OpenInodes) (e : Nat → DirEntry) (cwd : Option Nat) (name : List UInt8) :
    Except UseAfterFree (Bool × OpenInodes) := do
  let (dir, st) ← st.dirOpenPath e cwd (splitPathFilename name).1
  match dir with
  | none => pure (false, st)
  | some dir => do
    let (success, st) ← st.dirRemove dir (splitPathFilename name).2
    let st ← st.inodeClose dir
    pure (success, st)

end OpenInodes

/-! ## Calls -/

/-- The inodes, with the inode of each open file and each open directory. -/
structure OpenFiles where
  st : OpenInodes
  files : List Nat
  dirs : List Nat

/-- The calls. A current working directory is an open directory. A file or directory is given by its
inode; in `other` the inodes on disk come to have other bytes. -/
inductive FilesysCall where
  | filesysOpen (e : Nat → DirEntry) (cwd : Option Nat) (name : List UInt8)
  | fileClose (p : Nat)
  | dirOpenPath (e : Nat → DirEntry) (cwd : Option Nat) (path : List UInt8)
  | dirClose (p : Nat)
  | filesysRemove (e : Nat → DirEntry) (cwd : Option Nat) (name : List UInt8)
  | other (vol : Volume)

namespace OpenFiles

/-- The inodes of all open files and directories. -/
def handles (os : OpenFiles) : List Nat := os.files ++ os.dirs

/-- One call. -/
def step (os : OpenFiles) : FilesysCall → Except UseAfterFree OpenFiles
  | .filesysOpen e cwd name => do
    let (file, st) ← os.st.filesysOpen e cwd name
    pure { os with st := st, files := file.toList ++ os.files }
  | .fileClose p => do
    let st ← os.st.inodeClose p
    pure { os with st := st, files := os.files.erase p }
  | .dirOpenPath e cwd path => do
    let (dir, st) ← os.st.dirOpenPath e cwd path
    pure { os with st := st, dirs := dir.toList ++ os.dirs }
  | .dirClose p => do
    let st ← os.st.inodeClose p
    pure { os with st := st, dirs := os.dirs.erase p }
  | .filesysRemove e cwd name => do
    let (_, st) ← os.st.filesysRemove e cwd name
    pure { os with st := st }
  | .other vol => pure { os with st := { os.st with vol := vol } }

/-- The working directory is open, and what is closed is open. -/
def Admissible (os : OpenFiles) : FilesysCall → Prop
  | .filesysOpen _ cwd _ => ∀ p ∈ cwd, p ∈ os.dirs
  | .fileClose p => p ∈ os.files
  | .dirOpenPath _ cwd _ => ∀ p ∈ cwd, p ∈ os.dirs
  | .dirClose p => p ∈ os.dirs
  | .filesysRemove _ cwd _ => ∀ p ∈ cwd, p ∈ os.dirs
  | .other _ => True

end OpenFiles

end CSE130.Filesys
