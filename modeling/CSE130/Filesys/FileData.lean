import CSE130.Filesys.Store

/-!
# The data of a file

Rendering of the look-up of sectors, of `inode_read_at`, and of the loop of `inode_write_at` in
`filesys/inode.c`. Offsets and sizes are not negative.
-/

namespace CSE130.Filesys

open CSE130.Library

/-- The result `-1` of `byte_to_sector`. -/
def noSector : Sector := 0xffffffff

/-- `index_to_sector` (`inode.c:64-112`). -/
def indexToSector (d : InodeDisk) (index : Nat) : StoreM Sector :=
  if index < directBlocksCount then pure (d.directBlocks.getD index 0)
  else if index < directBlocksCount + indirectBlocksPerSector then do
    let b ← bufferCacheRead d.indirectBlock
    pure ((blocks b).getD (index - directBlocksCount) 0)
  else if index < InodeDisk.maxSectors then do
    let base := directBlocksCount + indirectBlocksPerSector
    let b ← bufferCacheRead d.doublyIndirectBlock
    let b ← bufferCacheRead ((blocks b).getD ((index - base) / indirectBlocksPerSector) 0)
    pure ((blocks b).getD ((index - base) % indirectBlocksPerSector) 0)
  else pure noSector

/-- `byte_to_sector` (`inode.c:118-129`). -/
def byteToSector (d : InodeDisk) (pos : Int) : StoreM Sector :=
  if 0 ≤ pos ∧ pos < d.length.toInt then indexToSector d (pos / 512).toNat else pure noSector

/-- `chunk_size`: how much of `size` lies in the inode and in the sector. -/
def chunkSize (d : InodeDisk) (size offset : Nat) : Int :=
  let inodeLeft := d.length.toInt - offset
  let sectorLeft := 512 - ((offset % 512 : Nat) : Int)
  let minLeft := if inodeLeft < sectorLeft then inodeLeft else sectorLeft
  if size < minLeft then size else minLeft

/-- The bytes of a sector that `inode_read_at` copies, at once or through the bounce buffer. -/
def readChunk (sector : Sector) (ofs chunk : Nat) : StoreM (List UInt8) := do
  let b ← bufferCacheRead sector
  pure (if ofs = 0 ∧ chunk = 512 then b.val else (b.val.drop ofs).take chunk)

/-- The loop of `inode_read_at`, with a bound on its rounds. -/
def readLoop (d : InodeDisk) : Nat → Nat → Nat → StoreM (List UInt8)
  | 0, _, _ => throw .outOfFuel
  | rounds + 1, size, offset =>
    if size = 0 then pure []
    else do
      let sector ← byteToSector d offset
      let chunk := chunkSize d size offset
      if chunk ≤ 0 then pure []
      else do
        let bytes ← readChunk sector (offset % 512) chunk.toNat
        let rest ← readLoop d rounds (size - chunk.toNat) (offset + chunk.toNat)
        pure (bytes ++ rest)

/-- `inode_read_at` (`inode.c:267-317`): the bytes read. -/
def inodeReadAt (d : InodeDisk) (size offset : Nat) : StoreM (List UInt8) :=
  readLoop d (size + 1) size offset

/-- The bounce buffer of `inode_write_at` before the chunk is copied into it. -/
def bounceBuffer (sector : Sector) (ofs chunk : Nat) : StoreM Block :=
  if 0 < ofs ∨ chunk < 512 - ofs then bufferCacheRead sector else pure zeros

/-- The write of a chunk, at once or through the bounce buffer. -/
def writeChunk (sector : Sector) (ofs : Nat) (bytes : List UInt8) : StoreM Unit :=
  if ofs = 0 ∧ bytes.length = 512 then bufferCacheWrite sector (toBlock bytes)
  else do
    let bounce ← bounceBuffer sector ofs bytes.length
    bufferCacheWrite sector (toBlock (overwrite bounce.val ofs bytes))

/-- The loop of `inode_write_at`, with a bound on its rounds: the number of bytes written. -/
def writeLoop (d : InodeDisk) : Nat → List UInt8 → Nat → StoreM Nat
  | 0, _, _ => throw .outOfFuel
  | rounds + 1, buffer, offset =>
    if buffer = [] then pure 0
    else do
      let sector ← byteToSector d offset
      let chunk := chunkSize d buffer.length offset
      if chunk ≤ 0 then pure 0
      else do
        writeChunk sector (offset % 512) (buffer.take chunk.toNat)
        let rest ← writeLoop d rounds (buffer.drop chunk.toNat) (offset + chunk.toNat)
        pure (chunk.toNat + rest)

end CSE130.Filesys
