import CSE130.Filesys.Device
import CSE130.Library.Stdio
import CSE130.Library.WordArray

/-!
# Directories

Rendering of `filesys/directory.c` on inodes that are growable byte arrays. A local `struct dir_entry` is
handed in with the bytes that it happens to have. Where a file has to grow, `grows` tells whether the
sectors can be allocated; the `calloc` of `dir_open` and of `inode_create` is taken to succeed.
-/

namespace CSE130.Filesys

open CSE130.Library

/-- `NAME_MAX`. -/
abbrev nameMax : Nat := 14

/-- `sizeof (struct dir_entry)`. -/
abbrev entrySize : Nat := 20

/-- `struct dir_entry`. -/
structure DirEntry where
  inodeSector : Sector
  name : List UInt8
  inUse : UInt8
  size : name.length = nameMax + 1
  deriving DecidableEq

namespace DirEntry

/-- The bytes of an entry. -/
def toBytes (e : DirEntry) : List UInt8 := wordBytes e.inodeSector ++ e.name ++ [e.inUse]

/-- Bytes as an entry. -/
def ofBytes (bs : List UInt8) : DirEntry where
  inodeSector := (unpack (bs.take 4)).getD 0 0
  name := (List.range (nameMax + 1)).map fun i => bs.getD (4 + i) 0
  inUse := bs.getD 19 0
  size := by rw [List.length_map, List.length_range]

/-- The entry after bytes have been read over its first ones. -/
def refill (e : DirEntry) (bs : List UInt8) : DirEntry := ofBytes (bs ++ e.toBytes.drop bs.length)

/-- The name as a string. If none of the 15 bytes is 0 the string ends with them here; in C it runs on into
`in_use`, the byte behind them. The names that `dir_add` writes have a 0. -/
def cname (e : DirEntry) : List UInt8 := e.name.takeWhile (· ≠ 0)

/-- `strlcpy (e.name, name, sizeof e.name)`. -/
def setName (e : DirEntry) (name : List UInt8) : DirEntry where
  inodeSector := e.inodeSector
  name := (name.take nameMax ++ [0] ++ e.name.drop ((name.take nameMax).length + 1)).take (nameMax + 1)
  inUse := e.inUse
  size := by
    have hsize := e.size
    simp only [List.length_take, List.length_append, List.length_drop, List.length_singleton]
    omega

/-- An entry of zeros. -/
def zero : DirEntry := ⟨0, List.replicate (nameMax + 1) 0, 0, rfl⟩

end DirEntry

/-- The inodes: their bytes, and which are directories. -/
structure Volume where
  bytes : Sector → List UInt8
  isDir : Sector → Bool

namespace Volume

open DirEntry

/-- `inode_read_at` (`inode.c:267-317`). -/
def inodeReadAt (vol : Volume) (inode : Sector) (size offset : Nat) : List UInt8 :=
  ((vol.bytes inode).drop offset).take size

/-- `inode_write_at` (`inode.c:324-397`). -/
def inodeWriteAt (vol : Volume) (grows : Bool) (inode : Sector) (buffer : List UInt8) (offset : Nat) :
    Nat × Volume :=
  if grows = true ∨ offset + buffer.length ≤ (vol.bytes inode).length then
    (buffer.length, { vol with
      bytes := Function.update vol.bytes inode (writeAt (vol.bytes inode) offset buffer) })
  else (0, vol)

/-- `inode_create` (`inode.c:147-173`). -/
def inodeCreate (vol : Volume) (grows : Bool) (sector : Sector) (length : Nat) (isDir : Bool) :
    Bool × Volume :=
  if grows = true ∨ length = 0 then
    (true, {
      bytes := Function.update vol.bytes sector (List.replicate length 0)
      isDir := Function.update vol.isDir sector isDir })
  else (false, vol)

/-- The loops of `directory.c`: entries are read one after the other into `e` up to one for which `p`
holds. The result tells whether there was one, and the entry and the offset at the end. -/
def scan (vol : Volume) (dir : Sector) (p : DirEntry → Bool) : Nat → DirEntry → Nat → Bool × DirEntry × Nat
  | 0, e, ofs => (false, e, ofs)
  | rounds + 1, e, ofs =>
    let bs := vol.inodeReadAt dir entrySize ofs
    if bs.length = entrySize then
      if p (e.refill bs) then (true, e.refill bs, ofs)
      else scan vol dir p rounds (e.refill bs) (ofs + entrySize)
    else (false, e.refill bs, ofs)

/-- The loop, with as many rounds as it can make. -/
def scanFrom (vol : Volume) (dir : Sector) (p : DirEntry → Bool) (e : DirEntry) (ofs : Nat) :
    Bool × DirEntry × Nat :=
  vol.scan dir p ((vol.bytes dir).length + 1) e ofs

/-- `lookup` (`directory.c:202-224`). -/
def lookup (vol : Volume) (dir : Sector) (name : List UInt8) : Option (DirEntry × Nat) :=
  let (found, e, ofs) :=
    vol.scanFrom dir (fun e => e.inUse ≠ 0 ∧ name = e.cname) zero entrySize
  if found then some (e, ofs) else none

/-- `dir_is_empty` (`directory.c:227-241`). -/
def dirIsEmpty (vol : Volume) (dir : Sector) : Bool :=
  !(vol.scanFrom dir (fun e => e.inUse ≠ 0) zero entrySize).1

/-- The names `.` and `..`. -/
def dot : List UInt8 := [46]

@[inherit_doc dot]
def dotDot : List UInt8 := [46, 46]

/-- `dir_lookup` (`directory.c:247-273`): the sector of the inode. -/
def dirLookup (vol : Volume) (e : DirEntry) (dir : Sector) (name : List UInt8) : Option Sector :=
  if name = dot then some dir
  else if name = dotDot then some (e.refill (vol.inodeReadAt dir entrySize 0)).inodeSector
  else (vol.lookup dir name).map fun r => r.1.inodeSector

/-- `dir_create` (`directory.c:69-88`). -/
def dirCreate (vol : Volume) (grows : Bool) (e : DirEntry) (sector : Sector) (entryCnt : Nat) :
    Bool × Volume :=
  let (success, vol) := vol.inodeCreate grows sector (entryCnt * entrySize) true
  if success then
    let (written, vol) := vol.inodeWriteAt grows sector { e with inodeSector := sector }.toBytes 0
    (written = entrySize, vol)
  else (false, vol)

/-- The part of `dir_add` that links a directory to its parent. -/
def linkParent (vol : Volume) (grows : Bool) (e : DirEntry) (dir inodeSector : Sector) (isDir : Bool) :
    Bool × DirEntry × Volume :=
  if isDir then
    let e := { e with inodeSector := dir }
    let (written, vol) := vol.inodeWriteAt grows inodeSector e.toBytes 0
    (written = entrySize, e, vol)
  else (true, e, vol)

/-- The part of `dir_add` that writes the entry into a free slot. -/
def writeSlot (vol : Volume) (grows : Bool) (e : DirEntry) (dir : Sector) (name : List UInt8)
    (inodeSector : Sector) : Bool × Volume :=
  let (_, e, ofs) := vol.scanFrom dir (fun e => e.inUse = 0) e 0
  let e := { e.setName name with inUse := 1, inodeSector := inodeSector }
  let (written, vol) := vol.inodeWriteAt grows dir e.toBytes ofs
  (written = entrySize, vol)

/-- `dir_add` (`directory.c:282-334`). -/
def dirAdd (vol : Volume) (grows : Bool) (e : DirEntry) (dir : Sector) (name : List UInt8)
    (inodeSector : Sector) (isDir : Bool) : Bool × Volume :=
  if name = [] ∨ nameMax < name.length then (false, vol)
  else if (vol.lookup dir name).isSome then (false, vol)
  else
    let (linked, e, vol) := vol.linkParent grows e dir inodeSector isDir
    if linked then vol.writeSlot grows e dir name inodeSector else (false, vol)

/-- `dir_remove` (`directory.c:339-380`): what becomes of the bytes of the directory. -/
def dirRemove (vol : Volume) (grows : Bool) (dir : Sector) (name : List UInt8) : Bool × Volume :=
  match vol.lookup dir name with
  | none => (false, vol)
  | some (e, ofs) =>
    if vol.isDir e.inodeSector = true ∧ vol.dirIsEmpty e.inodeSector = false then (false, vol)
    else
      let (written, vol) := vol.inodeWriteAt grows dir { e with inUse := 0 }.toBytes ofs
      (written = entrySize, vol)

/-- `dir_readdir` (`directory.c:385-400`): the name, and the position after it. -/
def dirReaddir (vol : Volume) (dir : Sector) (pos : Nat) : Option (List UInt8 × Nat) :=
  let (found, e, ofs) := vol.scanFrom dir (fun e => e.inUse ≠ 0) zero pos
  if found then some (e.cname, ofs + entrySize) else none

/-- The names that `dir_readdir` yields, call after call. -/
def readNames (vol : Volume) (dir : Sector) : Nat → Nat → List (List UInt8)
  | 0, _ => []
  | calls + 1, pos =>
    match vol.dirReaddir dir pos with
    | none => []
    | some (name, pos) => name :: readNames vol dir calls pos

/-- The names from a newly opened directory on. -/
def names (vol : Volume) (dir : Sector) : List (List UInt8) :=
  vol.readNames dir ((vol.bytes dir).length + 1) entrySize

end Volume

end CSE130.Filesys
