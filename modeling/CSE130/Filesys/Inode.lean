import CSE130.Filesys.ReserveSpec

/-!
# Inodes

Rendering of the rest of `filesys/inode.c`: creating, growing and writing, and deallocating. A function
that changes an in-memory inode through its pointer is given the inode here and returns it. `calloc` in
`inode_create` and `malloc` of `bounce` in `inode_write_at` are taken to succeed.
-/

namespace CSE130.Filesys

open CSE130.Library

/-- `struct inode`, without its list element. -/
structure Inode where
  sector : Sector
  openCnt : Nat
  removed : Bool
  denyWriteCnt : Nat
  data : InodeDisk

/-- `inode_create` (`inode.c:147-173`); the inode is calloc'ed. -/
def inodeCreate (sector : Sector) (length : Int32) (isDir : Bool) : StoreM Bool := do
  assert (0 ≤ length)
  let d : InodeDisk :=
    { directBlocks := List.replicate directBlocksCount 0, indirectBlock := 0, doublyIndirectBlock := 0,
      isDir := isDir, length := length, magic := inodeMagic }
  let (success, d) ← inodeReserve d d.length
  if success then do
    bufferCacheWrite sector d.toSector
    pure true
  else pure false

/-- The growth of a file in `inode_write_at`. -/
def inodeExtend (inode : Inode) (fileEnd : Int32) : StoreM (Bool × Inode) := do
  let (success, d) ← inodeReserve inode.data fileEnd
  if success then do
    let d := { d with length := fileEnd }
    bufferCacheWrite inode.sector d.toSector
    pure (true, { inode with data := d })
  else pure (false, { inode with data := d })

/-- The first part of `inode_write_at`: growth, if the last byte lies behind the end of the file. -/
def inodeMakeRoom (inode : Inode) (fileEnd : Int32) : StoreM (Bool × Inode) := do
  let sector ← byteToSector inode.data (fileEnd - 1).toInt
  if sector = noSector then inodeExtend inode fileEnd else pure (true, inode)

/-- `inode_write_at` (`inode.c:324-397`): the number of bytes written, and the inode. The sum of the offset
and the size is one of values of type `off_t`. -/
def inodeWriteAt (inode : Inode) (buffer : List UInt8) (offset : Nat) : StoreM (Nat × Inode) :=
  if inode.denyWriteCnt ≠ 0 then pure (0, inode)
  else do
    let (success, inode) ← inodeMakeRoom inode (Int32.ofNat (offset + buffer.length))
    if success then do
      let written ← writeLoop inode.data (buffer.length + 1) buffer offset
      pure (written, inode)
    else pure (0, inode)

/-- The loop of `inode_deallocate_indirect` over the first entries: the number of sectors that
remain. -/
def deallocateEntries (deallocate : Sector → Nat → StoreM Unit) (unit : Nat) :
    Nat → List Sector → Nat → StoreM Nat
  | 0, _, numSectors => pure numSectors
  | _ + 1, [], numSectors => pure numSectors
  | l + 1, entry :: entries, numSectors => do
    let subsize := min numSectors unit
    deallocate entry subsize
    deallocateEntries deallocate unit l entries (numSectors - subsize)

/-- `inode_deallocate_indirect` (`inode.c:531-556`). -/
def inodeDeallocateIndirect : Nat → Sector → Nat → StoreM Unit
  | 0, entry, _ => freeMapRelease entry
  | level + 1, entry, numSectors => do
    assert (level + 1 ≤ 2)
    let b ← bufferCacheRead entry
    let unit := indirectUnit (level + 1)
    let numSectors ← deallocateEntries (inodeDeallocateIndirect level) unit
      (divRoundUp numSectors unit) (blocks b) numSectors
    assert (numSectors = 0)
    freeMapRelease entry

/-- Parts (2) and (3) of `inode_deallocate`: the tree of an entry, if there are sectors left for it. -/
def deallocateTree (level : Nat) (entry : Sector) (l : Nat) : StoreM Unit :=
  if 0 < l then inodeDeallocateIndirect level entry l else pure ()

/-- `inode_deallocate` (`inode.c:559-591`). The loop over the direct blocks takes one sector for each. -/
def inodeDeallocate (d : InodeDisk) : StoreM Bool :=
  if d.length < 0 then pure false
  else do
    let numSectors := bytesToSectors d.length
    let l := min numSectors directBlocksCount
    let _ ← deallocateEntries (fun entry _ => freeMapRelease entry) 1 l d.directBlocks l
    let numSectors := numSectors - l
    let l := min numSectors indirectBlocksPerSector
    deallocateTree 1 d.indirectBlock l
    let numSectors := numSectors - l
    let l := min numSectors (indirectBlocksPerSector * indirectBlocksPerSector)
    deallocateTree 2 d.doublyIndirectBlock l
    assert (numSectors - l = 0)
    pure true

/-! ## The end of a write -/

section FileEnd

variable {s : Store} {d : InodeDisk} {n offset size : Nat}

theorem fileEnd_of_lt (h : n < 2 ^ 31) : (Int32.ofNat n).toInt = n := Int32.toInt_ofNat_of_lt h

theorem fileEnd_of_ge (h : 2 ^ 31 ≤ n) (hlt : n < 2 ^ 32) : (Int32.ofNat n).toInt = n - 2 ^ 32 := by
  have hsize : Int32.size = 2 ^ 32 := rfl
  rw [Int32.toInt_ofNat', hsize, Int.bmod_def]
  split_ifs <;> omega

/-- The last byte of a write that goes behind the end of the file has no sector. -/
theorem byteToSector_behind (hpos : 0 < size) (hsize : size < 2 ^ 31) (hoffset : offset < 2 ^ 31)
    (h : d.length.toInt < offset + size) :
    byteToSector d (Int32.ofNat (offset + size) - 1).toInt s = .ok noSector s := by
  have hout : ¬ (0 ≤ (Int32.ofNat (offset + size) - 1).toInt ∧
      (Int32.ofNat (offset + size) - 1).toInt < d.length.toInt) := by
    have h1 : (1 : Int32).toInt = 1 := by decide
    have hmax := d.length.toInt_lt
    rw [Int32.toInt_sub, h1, Int.bmod_def]
    by_cases hlt : offset + size < 2 ^ 31
    · rw [fileEnd_of_lt hlt]
      push_cast
      split_ifs <;> omega
    · rw [fileEnd_of_ge (by omega) (by omega)]
      push_cast
      split_ifs <;> omega
  rw [byteToSector, if_neg hout]
  rfl

end FileEnd

end CSE130.Filesys
