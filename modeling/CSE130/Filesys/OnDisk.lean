import CSE130.Filesys.Device
import CSE130.Library.TreeGrowth
import CSE130.Library.WordArray
import Mathlib.Data.UInt

/-!
# Inodes and index blocks on the disk

The sectors of `filesys/inode.c` that are read as structures: `struct inode_disk` and
`struct inode_indirect_block_sector`.
-/

namespace CSE130.Filesys

open CSE130.Library

/-- `DIRECT_BLOCKS_COUNT`. -/
abbrev directBlocksCount : Nat := 123

/-- `INDIRECT_BLOCKS_PER_SECTOR`. -/
abbrev indirectBlocksPerSector : Nat := 128

/-- `INODE_MAGIC`. -/
def inodeMagic : UInt32 := 0x494e4f44

/-- A sector that starts with the given bytes. -/
def toBlock (bytes : List UInt8) : Block :=
  ⟨(bytes ++ List.replicate 512 0).take 512, by
    rw [List.length_take, List.length_append, List.length_replicate]
    omega⟩

theorem toBlock_of_length {bytes : List UInt8} (h : bytes.length = 512) :
    toBlock bytes = ⟨bytes, h⟩ := by
  apply Subtype.ext
  exact List.take_left' h

theorem toBlock_val (b : Block) : toBlock b.val = b := toBlock_of_length b.property

/-! ## `struct inode_indirect_block_sector` -/

/-- `blocks` of a `struct inode_indirect_block_sector`. -/
def blocks (b : Block) : List Sector := unpack b.val

/-- The sector of a `struct inode_indirect_block_sector`. -/
def indirectBlockSector (es : List Sector) : Block := toBlock (pack es)

theorem length_blocks (b : Block) : (blocks b).length = indirectBlocksPerSector :=
  length_unpack b.property

theorem blocks_indirectBlockSector (es : List Sector) (h : es.length = indirectBlocksPerSector) :
    blocks (indirectBlockSector es) = es := by
  have hlen : (pack es).length = 512 := (length_pack es).trans (congrArg (4 * ·) h)
  rw [indirectBlockSector, toBlock_of_length hlen, blocks, unpack_pack]

theorem indirectBlockSector_blocks (b : Block) : indirectBlockSector (blocks b) = b := by
  have hpack : pack (unpack b.val) = b.val :=
    @pack_unpack _ indirectBlocksPerSector b.property
  rw [indirectBlockSector, blocks, hpack, toBlock_val]

theorem blocks_zeros : blocks zeros = List.replicate indirectBlocksPerSector 0 :=
  unpack_replicate_zero indirectBlocksPerSector

/-- The index blocks of the file system. -/
def indexFormat : TreeFormat Sector Block where
  fanOut := indirectBlocksPerSector
  words := blocks
  ofWords := indirectBlockSector
  blank := zeros
  pos := by decide
  length_words := length_blocks
  words_ofWords := blocks_indirectBlockSector
  ofWords_words := indirectBlockSector_blocks
  words_blank := blocks_zeros

/-! ## `struct inode_disk` -/

/-- `struct inode_disk`. -/
structure InodeDisk where
  directBlocks : List Sector
  indirectBlock : Sector
  doublyIndirectBlock : Sector
  isDir : Bool
  length : Int32
  magic : UInt32
  deriving DecidableEq

namespace InodeDisk

/-- The array `direct_blocks` has its `DIRECT_BLOCKS_COUNT` elements. -/
def Proper (d : InodeDisk) : Prop := d.directBlocks.length = directBlocksCount

/-- The words of the structure; `is_dir` is the first byte of its own one. -/
def toWords (d : InodeDisk) : List UInt32 :=
  d.directBlocks ++ [d.indirectBlock, d.doublyIndirectBlock, if d.isDir then 1 else 0,
    d.length.toUInt32, d.magic]

/-- The structure as a sector. -/
def toSector (d : InodeDisk) : Block := toBlock (pack d.toWords)

/-- A sector as the structure. -/
def ofSector (b : Block) : InodeDisk :=
  let ws := unpack b.val
  { directBlocks := ws.take directBlocksCount
    indirectBlock := ws.getD 123 0
    doublyIndirectBlock := ws.getD 124 0
    isDir := (ws.getD 125 0).toUInt8 != 0
    length := (ws.getD 126 0).toInt32
    magic := ws.getD 127 0 }

theorem ofSector_proper (b : Block) : (ofSector b).Proper := by
  have hlen : (unpack b.val).length = 128 := length_unpack b.property
  rw [Proper, ofSector, List.length_take, hlen]
  rfl

theorem ofSector_toSector {d : InodeDisk} (h : d.Proper) : ofSector d.toSector = d := by
  have hlen : (pack d.toWords).length = 512 := by
    rw [length_pack]
    simp [toWords, show d.directBlocks.length = 123 from h]
  have hget : ∀ (ws : List UInt32) (i : Nat), (d.directBlocks ++ ws).getD (123 + i) 0 = ws.getD i 0 := by
    intro ws i
    have hle : d.directBlocks.length ≤ 123 + i := by
      rw [show d.directBlocks.length = 123 from h]
      omega
    rw [List.getD_eq_getElem?_getD, List.getElem?_append_right hle,
      show d.directBlocks.length = 123 from h, Nat.add_sub_cancel_left, List.getD_eq_getElem?_getD]
  unfold ofSector
  rw [toSector, toBlock_of_length hlen, unpack_pack]
  obtain ⟨direct, indirect, doubly, isDir, length, magic⟩ := d
  simp only [toWords] at hget ⊢
  have h123 := hget [indirect, doubly, if isDir then 1 else 0, length.toUInt32, magic] 0
  have h124 := hget [indirect, doubly, if isDir then 1 else 0, length.toUInt32, magic] 1
  have h125 := hget [indirect, doubly, if isDir then 1 else 0, length.toUInt32, magic] 2
  have h126 := hget [indirect, doubly, if isDir then 1 else 0, length.toUInt32, magic] 3
  have h127 := hget [indirect, doubly, if isDir then 1 else 0, length.toUInt32, magic] 4
  simp only [Nat.add_zero, Nat.reduceAdd] at h123 h124 h125 h126 h127
  rw [h123, h124, h125, h126, h127]
  have hlength : direct.length = directBlocksCount := h
  have htake : ∀ ws : List UInt32, (direct ++ ws).take directBlocksCount = direct := by
    intro ws
    rw [← hlength, List.take_left]
  rw [htake]
  cases isDir <;> simp

/-- The trees of the index: the direct blocks, the indirect block and the doubly indirect block. -/
def roots (d : InodeDisk) : List (Nat × Sector) :=
  d.directBlocks.map (fun e => (0, e)) ++ [(1, d.indirectBlock)] ++ [(2, d.doublyIndirectBlock)]

/-- The largest number of data sectors of a file. -/
abbrev maxSectors : Nat :=
  directBlocksCount + indirectBlocksPerSector + indirectBlocksPerSector * indirectBlocksPerSector

theorem capacity_roots {d : InodeDisk} (h : d.Proper) : indexFormat.capacity d.roots = maxSectors := by
  have hlen : d.directBlocks.length = 123 := h
  rw [roots, TreeFormat.capacity_append, TreeFormat.capacity_append, TreeFormat.capacity_map, hlen]
  rfl

end InodeDisk

end CSE130.Filesys
