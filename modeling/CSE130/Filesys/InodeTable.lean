import CSE130.Filesys.Deallocate

/-!
# Open inodes

The list `open_inodes` of `filesys/inode.c` with the functions that work on it, and the calls of the
code above this layer as steps of one machine. An in-memory inode is known by a number that stands for
its address; `malloc` returns a new one.
-/

namespace CSE130.Filesys

open CSE130.Library

/-- The store and `open_inodes`. The sectors that were obtained for inodes and have none yet, and those
of the inodes that exist, are recorded for the calls that may be made. -/
structure FileSystem where
  store : Store
  openInodes : List (Nat × Inode)
  nextInode : Nat
  reserved : List Sector
  live : List Sector

/-- The reasons for which a run ends. -/
inductive Stop where
  | panic (p : Panic)
  | exhausted
  | notAllowed
  deriving DecidableEq, Repr

/-- Runs a function on the store; the run ends where a sector could not be allocated. -/
def onStore {α : Type} (m : StoreM α) (s : Store) : Except Stop (α × Store) :=
  match m s with
  | .error p _ => .error (.panic p)
  | .ok a s' =>
    if .exhausted ∈ s'.notes.drop s.notes.length then .error .exhausted else .ok (a, s')

namespace FileSystem

/-- The in-memory inode at an address. -/
def inodeAt (fs : FileSystem) (p : Nat) : Option Inode :=
  (fs.openInodes.find? fun q => q.1 = p).map Prod.snd

/-- The list after the inode at an address has changed. -/
def setInode (fs : FileSystem) (p : Nat) (inode : Inode) : FileSystem :=
  { fs with openInodes := fs.openInodes.map fun q => if q.1 = p then (p, inode) else q }

/-- `inode_open` (`inode.c:178-210`), with the address that it returns. -/
def inodeOpen (fs : FileSystem) (sector : Sector) : Except Stop (Nat × FileSystem) :=
  match fs.openInodes.find? fun q => q.2.sector = sector with
  | some (p, inode) => .ok (p, fs.setInode p { inode with openCnt := inode.openCnt + 1 })
  | none => do
    let (b, store) ← onStore (bufferCacheRead sector) fs.store
    let inode : Inode :=
      { sector := sector, openCnt := 1, removed := false, denyWriteCnt := 0,
        data := InodeDisk.ofSector b }
    pure (fs.nextInode, { fs with
      store := store
      openInodes := (fs.nextInode, inode) :: fs.openInodes
      nextInode := fs.nextInode + 1 })

/-- The release of the sectors of a removed inode in `inode_close`. -/
def releaseInode (inode : Inode) : StoreM Unit := do
  freeMapRelease inode.sector
  let _ ← inodeDeallocate inode.data
  pure ()

/-- `inode_close` (`inode.c:231-253`) of the inode at `p`. -/
def inodeClose (fs : FileSystem) (p : Nat) (inode : Inode) : Except Stop FileSystem :=
  if inode.openCnt - 1 = 0 then
    let fs := { fs with openInodes := fs.openInodes.filter fun q => q.1 ≠ p }
    if inode.removed then do
      let (_, store) ← onStore (releaseInode inode) fs.store
      pure { fs with store := store, live := fs.live.erase inode.sector }
    else .ok fs
  else .ok (fs.setInode p { inode with openCnt := inode.openCnt - 1 })

/-- `inode_remove` (`inode.c:257-262`). -/
def inodeRemove (fs : FileSystem) (p : Nat) (inode : Inode) : FileSystem :=
  fs.setInode p { inode with removed := true }

end FileSystem

/-- The calls; an inode is given by its address. -/
inductive InodeCall where
  | allocate
  | create (sector : Sector) (length : Int32) (isDir : Bool)
  | openAt (sector : Sector)
  | write (p : Nat) (buffer : List UInt8) (offset : Nat)
  | read (p : Nat) (size offset : Nat)
  | remove (p : Nat)
  | close (p : Nat)
  deriving DecidableEq, Repr

/-- What a call returns. -/
inductive Reply where
  | none
  | sector (x : Sector)
  | inode (p : Nat)
  | count (n : Nat)
  | bytes (bs : List UInt8)
  deriving DecidableEq, Repr

namespace FileSystem

/-- The inode at an address that the caller has from `inode_open`. -/
def inodeOf (fs : FileSystem) (p : Nat) : Except Stop Inode :=
  match fs.inodeAt p with
  | some inode => .ok inode
  | none => .error .notAllowed

/-- `free_map_allocate` (`free-map.c:27-41`) for an inode. -/
def allocate (fs : FileSystem) : Except Stop (Reply × FileSystem) := do
  let (sector, store) ← onStore freeMapAllocate fs.store
  match sector with
  | none => .error .exhausted
  | some x => pure (.sector x, { fs with store := store, reserved := x :: fs.reserved })

/-- `inode_create` (`inode.c:147-173`) on a sector that was obtained for it. -/
def create (fs : FileSystem) (sector : Sector) (length : Int32) (isDir : Bool) :
    Except Stop (Reply × FileSystem) := do
  check (sector ∈ fs.reserved) .notAllowed
  let (success, store) ← onStore (inodeCreate sector length isDir) fs.store
  check (success = true) .exhausted
  pure (.none, { fs with
    store := store
    reserved := fs.reserved.erase sector
    live := sector :: fs.live })

/-- `inode_write_at` (`inode.c:324-397`) of at least one byte. -/
def write (fs : FileSystem) (p : Nat) (buffer : List UInt8) (offset : Nat) :
    Except Stop (Reply × FileSystem) := do
  check (0 < buffer.length ∧ buffer.length < 2 ^ 31 ∧ offset < 2 ^ 31) .notAllowed
  let inode ← fs.inodeOf p
  let ((written, inode), store) ← onStore (inodeWriteAt inode buffer offset) fs.store
  pure (.count written, { fs with store := store }.setInode p inode)

/-- `inode_read_at` (`inode.c:267-317`). -/
def read (fs : FileSystem) (p : Nat) (size offset : Nat) : Except Stop (Reply × FileSystem) := do
  let inode ← fs.inodeOf p
  let (bytes, store) ← onStore (inodeReadAt inode.data size offset) fs.store
  pure (.bytes bytes, { fs with store := store })

/-- One call. An inode is opened by the sector of an inode that exists. -/
def step (fs : FileSystem) : InodeCall → Except Stop (Reply × FileSystem)
  | .allocate => fs.allocate
  | .create sector length isDir => fs.create sector length isDir
  | .openAt sector => do
    check (sector ∈ fs.live) .notAllowed
    let (p, fs) ← fs.inodeOpen sector
    pure (.inode p, fs)
  | .write p buffer offset => fs.write p buffer offset
  | .read p size offset => fs.read p size offset
  | .remove p => do
    let inode ← fs.inodeOf p
    pure (.none, fs.inodeRemove p inode)
  | .close p => do
    let inode ← fs.inodeOf p
    let fs ← fs.inodeClose p inode
    pure (.none, fs)

end FileSystem

end CSE130.Filesys
