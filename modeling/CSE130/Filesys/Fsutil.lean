import CSE130.Filesys.OnDisk
import CSE130.Filesys.RootFiles

/-!
# Archives on the scratch device

Rendering of `fsutil_append` and `fsutil_extract` of `filesys/fsutil.c`. A call of `fsutil_append` is given
with the byte that lies behind its buffer in memory, which the last write takes for the sector. The buffers
of both functions are taken to be there.
-/

namespace CSE130.Filesys

open CSE130.Library OpenInodes

/-- The reasons for which `fsutil.c` stops the kernel, with what they report. -/
inductive FsutilPanic where
  | fs (p : FsPanic)
  | badHeader (sector : Sector) (error : String)
  | createFailed (fileName : List UInt8)
  | openFailed (fileName : List UInt8)
  | writeFailed (fileName : List UInt8) (unwritten : Nat)
  | nameTooLong (fileName : List UInt8)
  | outOfSpace (fileName : List UInt8)
  | readFailed (fileName : List UInt8) (unread : Nat)
  deriving DecidableEq, Repr

namespace FsutilPanic

/-- A panic in `block.c`. -/
def ofPanic (p : Panic) : FsutilPanic := .fs (.panic p)

/-- The use of an inode after it has been freed. -/
def ofUse (u : UseAfterFree) : FsutilPanic := .fs (.useAfterFree u)

end FsutilPanic

namespace Fsutil

/-- `chunk_size`. -/
def chunkSize (size : Nat) : Nat := if 512 < size then 512 else size

/-! ## Appending -/

/-- `sector` of `fsutil_append`, the scratch device and the file system. -/
structure AppendState where
  sector : Sector
  dst : Device
  st : OpenInodes

/-- A call of `fsutil_append`: its argument, the bytes that local variables happen to have, and the byte
behind the buffer. -/
structure AppendCall where
  fileName : List UInt8
  e : Nat → DirEntry
  adjacent : UInt8

/-- The loop of `fsutil_append`. In every round some byte is copied. -/
def copyIn (fileName : List UInt8) :
    Nat → AppendState → File → Nat → Except FsutilPanic (AppendState × File)
  | 0, a, src, _ => pure (a, src)
  | rounds + 1, a, src, size =>
    if size = 0 then pure (a, src)
    else if a.dst.size ≤ a.sector.toNat then .error (.outOfSpace fileName)
    else do
      let (bytes, src) ← (fileRead a.st src (chunkSize size)).mapError .ofUse
      if bytes.length ≠ chunkSize size then .error (.readFailed fileName size)
      else do
        let dst ← (a.dst.blockWrite a.sector (toBlock bytes)).mapError .ofPanic
        copyIn fileName rounds { a with sector := a.sector + 1, dst := dst } src (size - chunkSize size)

/-- The sector that starts with the second byte of a buffer of zeros. -/
def secondMarker (adjacent : UInt8) : Block := toBlock (zeros.val.drop 1 ++ [adjacent])

/-- `fsutil_append` (`fsutil.c:166-223`) from the file's size on. -/
def appendFile (a : AppendState) (c : AppendCall) (src : File) (size : Nat) :
    Except FsutilPanic AppendState := do
  match ← (ustarMakeHeader c.fileName .regular size).mapError .ofPanic with
  | none => .error (.nameTooLong c.fileName)
  | some header => do
    let dst ← (a.dst.blockWrite a.sector header.toBlock).mapError .ofPanic
    let (a, src) ← copyIn c.fileName size { a with sector := a.sector + 1, dst := dst } src size
    let dst ← (a.dst.blockWrite a.sector zeros).mapError .ofPanic
    let dst ← (dst.blockWrite a.sector (secondMarker c.adjacent)).mapError .ofPanic
    let st ← (a.st.inodeClose src.inode).mapError .ofUse
    pure { a with dst := dst, st := st }

/-- `fsutil_append` (`fsutil.c:166-223`). -/
def fsutilAppend (a : AppendState) (c : AppendCall) : Except FsutilPanic AppendState := do
  let (p, st) ← (a.st.filesysOpen c.e none c.fileName).mapError .ofUse
  match p with
  | none => .error (.openFailed c.fileName)
  | some p => do
    let src : File := { inode := p, pos := 0 }
    let size ← (fileLength st src).mapError .ofUse
    appendFile { a with st := st } c src size

/-! ## Extracting -/

/-- `sector` of `fsutil_extract`, the scratch device and the file system. -/
structure ExtractState where
  sector : Sector
  src : Device
  fs : FsState

/-- The inner loop of `fsutil_extract`. In every round some byte is copied. -/
def copyOut (fileName : List UInt8) :
    Nat → ExtractState → File → Nat → Except FsutilPanic (ExtractState × File)
  | 0, x, dst, _ => pure (x, dst)
  | rounds + 1, x, dst, size =>
    if size = 0 then pure (x, dst)
    else do
      let data ← (x.src.blockRead x.sector).mapError .ofPanic
      let (written, dst, fs) ← (x.fs.fileWrite dst (data.val.take (chunkSize size))).mapError .fs
      if written ≠ chunkSize size then .error (.writeFailed fileName size)
      else copyOut fileName rounds { x with sector := x.sector + 1, fs := fs } dst (size - chunkSize size)

/-- The part of `fsutil_extract` for a regular file. -/
def putFile (e : Nat → DirEntry) (x : ExtractState) (fileName : List UInt8) (size : Nat) :
    Except FsutilPanic ExtractState := do
  let (success, fs) ← (x.fs.filesysCreate e fileName size).mapError .fs
  if success then do
    let (p, st) ← (fs.opened.filesysOpen e none fileName).mapError .ofUse
    match p with
    | none => .error (.openFailed fileName)
    | some p => do
      let (x, dst) ← copyOut fileName size { x with fs := { fs with opened := st } }
        { inode := p, pos := 0 } size
      let fs ← (x.fs.fileClose dst).mapError .fs
      pure { x with fs := fs }
  else .error (.createFailed fileName)

/-- The outer loop of `fsutil_extract`. `e` has the bytes that local variables happen to have, for the
sector of each header. -/
def extractLoop (e : Sector → Nat → DirEntry) : Nat → ExtractState → Except FsutilPanic ExtractState
  | 0, _ => .error (.ofPanic .outOfFuel)
  | rounds + 1, x => do
    let header ← (x.src.blockRead x.sector).mapError .ofPanic
    let entry ← (ustarParseHeader header).mapError (.badHeader x.sector)
    match entry.type with
    | .eof => pure { x with sector := x.sector + 1 }
    | .directory => extractLoop e rounds { x with sector := x.sector + 1 }
    | .regular => do
      let x ← putFile (e x.sector) { x with sector := x.sector + 1 } entry.fileName entry.size
      extractLoop e rounds x

/-- `fsutil_extract` (`fsutil.c:72-156`). The outer loop goes on to the next sector in every round. -/
def fsutilExtract (e : Sector → Nat → DirEntry) (x : ExtractState) : Except FsutilPanic ExtractState := do
  let x ← extractLoop e (x.src.size + 1) x
  let src ← (x.src.blockWrite 0 zeros).mapError .ofPanic
  let src ← (src.blockWrite 1 zeros).mapError .ofPanic
  pure { x with src := src }

end Fsutil

end CSE130.Filesys
