import CSE130.Filesys.FreeMap

/-!
# Growing a file

Rendering of `inode_reserve` and `inode_reserve_indirect` of `filesys/inode.c`. An entry that C changes
through a pointer is given and returned here; the structure that holds it changes in the same way.
-/

namespace CSE130.Filesys

open CSE130.Library

/-- `DIV_ROUND_UP` of two values of type `size_t`. -/
def divRoundUp (x step : Nat) : Nat := (x + step - 1) / step

/-- `bytes_to_sectors` (`inode.c:41-45`): the division is one of signed values, and the result is not. -/
def bytesToSectors (size : Int32) : Nat := ((size + 512 - 1) / 512).toUInt32.toNat

/-- A `buffer_cache_write` of `inode_reserve` or `inode_reserve_indirect`. -/
def reserveWrite (sector : Sector) (b : Block) : StoreM Unit := do
  note (.wrote sector)
  bufferCacheWrite sector b

/-- The allocation of a data sector, if the entry has none: whether it succeeds, and the entry. -/
def reserveSector (entry : Sector) : StoreM (Bool × Sector) :=
  if entry = 0 then do
    match ← freeMapAllocate with
    | none => pure (false, entry)
    | some sector => do
      reserveWrite sector zeros
      pure (true, sector)
  else pure (true, entry)

/-- The allocation of an index block, if the entry has none. The result of `free_map_allocate` is not
looked at. -/
def reserveIndexBlock (entry : Sector) : StoreM Sector :=
  if entry = 0 then do
    let sector ← freeMapAllocate
    let entry := sector.getD entry
    reserveWrite entry zeros
    pure entry
  else pure entry

/-- A loop over the first entries of an array, each of which takes `unit` of the sectors that remain:
whether it succeeds, the array, and the number of sectors that remain. -/
def reserveEntries (reserve : Sector → Nat → StoreM (Bool × Sector)) (unit : Nat) :
    Nat → List Sector → Nat → StoreM (Bool × List Sector × Nat)
  | 0, entries, numSectors => pure (true, entries, numSectors)
  | _ + 1, [], numSectors => pure (true, [], numSectors)
  | l + 1, entry :: entries, numSectors => do
    let subsize := min numSectors unit
    let (success, entry) ← reserve entry subsize
    if success then do
      let (success, entries, numSectors) ← reserveEntries reserve unit l entries (numSectors - subsize)
      pure (success, entry :: entries, numSectors)
    else pure (false, entry :: entries, numSectors)

/-- `unit` of `inode_reserve_indirect` and `inode_deallocate_indirect`. -/
def indirectUnit (level : Nat) : Nat := if level = 1 then 1 else indirectBlocksPerSector

/-- `inode_reserve_indirect` (`inode.c:446-485`) from the read of the index block on. -/
def reserveBelow (reserve : Sector → Nat → StoreM (Bool × Sector)) (unit : Nat) (entry : Sector)
    (numSectors : Nat) : StoreM (Bool × Sector) := do
  let b ← bufferCacheRead entry
  let (success, entries, numSectors) ←
    reserveEntries reserve unit (divRoundUp numSectors unit) (blocks b) numSectors
  if success then do
    assert (numSectors = 0)
    reserveWrite entry (indirectBlockSector entries)
    pure (true, entry)
  else pure (false, entry)

/-- `inode_reserve_indirect` (`inode.c:446-485`): whether it succeeds, and `*p_entry`. -/
def inodeReserveIndirect : Nat → Sector → Nat → StoreM (Bool × Sector)
  | 0, entry, _ => reserveSector entry
  | level + 1, entry, numSectors => do
    assert (level + 1 ≤ 2)
    let entry ← reserveIndexBlock entry
    reserveBelow (inodeReserveIndirect level) (indirectUnit (level + 1)) entry numSectors

/-- Part (3) of `inode_reserve`, with the number of sectors that remain. -/
def reserveDoublyIndirect (d : InodeDisk) (numSectors : Nat) : StoreM (Bool × InodeDisk) := do
  let l := min numSectors (indirectBlocksPerSector * indirectBlocksPerSector)
  let (success, entry) ← inodeReserveIndirect 2 d.doublyIndirectBlock l
  let d := { d with doublyIndirectBlock := entry }
  if success then
    if numSectors - l = 0 then pure (true, d)
    else do
      assert (numSectors - l = 0)
      pure (false, d)
  else pure (false, d)

/-- Parts (2) and (3) of `inode_reserve`. -/
def reserveIndirect (d : InodeDisk) (numSectors : Nat) : StoreM (Bool × InodeDisk) := do
  let l := min numSectors indirectBlocksPerSector
  let (success, entry) ← inodeReserveIndirect 1 d.indirectBlock l
  let d := { d with indirectBlock := entry }
  if success then
    if numSectors - l = 0 then pure (true, d) else reserveDoublyIndirect d (numSectors - l)
  else pure (false, d)

/-- `inode_reserve` (`inode.c:491-529`) after the check of its argument. The loop over the direct blocks takes
one sector for each. -/
def reserveSectors (d : InodeDisk) (numSectors : Nat) : StoreM (Bool × InodeDisk) := do
  let l := min numSectors directBlocksCount
  let (success, entries, _) ← reserveEntries (fun entry _ => reserveSector entry) 1 l d.directBlocks l
  let d := { d with directBlocks := entries }
  if success then
    if numSectors - l = 0 then pure (true, d) else reserveIndirect d (numSectors - l)
  else pure (false, d)

/-- `inode_reserve` (`inode.c:491-529`): whether it succeeds, and `*disk_inode`. -/
def inodeReserve (d : InodeDisk) (length : Int32) : StoreM (Bool × InodeDisk) :=
  if length < 0 then pure (false, d) else reserveSectors d (bytesToSectors length)

end CSE130.Filesys
