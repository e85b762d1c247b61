import CSE130.Library.Fuel

/-!
# Partition tables of Lab 3

Rendering of `devices/partition.c`: a device is searched for partitions, starting from the table in its
first sector, and a table may refer to further tables. The recursion is given fuel. Memory for the
tables and for the descriptors of the partitions is taken to be there.
-/

namespace CSE130.Devices

open CSE130.Library

/-- `block_sector_t`. -/
abbrev BlockSector := UInt32

/-- `struct block`: its name, its size, and the bytes that its driver reads from each sector. -/
structure Block where
  name : String
  size : BlockSector
  sector : BlockSector → Nat → UInt8

/-- The types of `enum block_type` that a partition can have. -/
inductive BlockType where
  | kernel
  | filesys
  | scratch
  | swap
  | foreign
  deriving DecidableEq, Repr

/-! ## Partition tables -/

/-- `struct partition_table_entry`, but for the fields that are not read. -/
structure PartitionTableEntry where
  type : UInt8
  offset : BlockSector
  size : UInt32
  deriving DecidableEq, Repr

/-- `struct partition_table`, but for the loader. -/
structure PartitionTable where
  partitions : List PartitionTableEntry
  signature : UInt16

/-- A `uint16_t` in memory. -/
def word16 (bytes : Nat → UInt8) (p : Nat) : UInt16 :=
  (bytes p).toUInt16 ||| (bytes (p + 1)).toUInt16 <<< 8

/-- A `uint32_t` in memory. -/
def word32 (bytes : Nat → UInt8) (p : Nat) : UInt32 :=
  (bytes p).toUInt32 ||| (bytes (p + 1)).toUInt32 <<< 8 ||| (bytes (p + 2)).toUInt32 <<< 16 |||
    (bytes (p + 3)).toUInt32 <<< 24

/-- The entry at a position of the sector. -/
def partitionTableEntry (bytes : Nat → UInt8) (p : Nat) : PartitionTableEntry where
  type := bytes (p + 4)
  offset := word32 bytes (p + 8)
  size := word32 bytes (p + 12)

/-- A sector, taken as a partition table. -/
def partitionTable (bytes : Nat → UInt8) : PartitionTable where
  partitions := (List.range 4).map fun i => partitionTableEntry bytes (446 + 16 * i)
  signature := word16 bytes 510

/-- The entry is ignored. -/
def PartitionTableEntry.isEmpty (e : PartitionTableEntry) : Bool := e.size = 0 ∨ e.type = 0

/-- The types of extended partitions. -/
def isExtended (type : UInt8) : Bool := type = 0x05 ∨ type = 0x0f ∨ type = 0x85 ∨ type = 0xc5

/-! ## The scan -/

/-- A partition that has been registered as a block device. -/
structure Partition where
  name : String
  partNr : Nat
  type : BlockType
  start : BlockSector
  size : UInt32
  deriving DecidableEq, Repr

/-- `*part_nr`, and what the scan has registered and printed. -/
structure Scan where
  partNr : Nat
  registered : List Partition
  printed : List String

/-- Why a call does not return. -/
inductive Stop where
  | outOfFuel
  /-- The panic of `check_sector`. -/
  | pastEnd
  deriving DecidableEq, Repr

/-- `printf`. -/
def Scan.print (st : Scan) (text : String) : Scan := { st with printed := st.printed ++ [text] }

namespace Block

/-- `block_read` (`block.c:120-126`). -/
def blockRead (block : Block) (sector : BlockSector) : Except Stop (Nat → UInt8) :=
  if block.size ≤ sector then .error .pastEnd else .ok (block.sector sector)

/-- The type of the block device for a partition. -/
def blockType (partType : UInt8) : BlockType :=
  if partType = 0x20 then .kernel
  else if partType = 0x21 then .filesys
  else if partType = 0x22 then .scratch
  else if partType = 0x23 then .swap
  else .foreign

/-- The name of a partition, in an array of 16 bytes. -/
def partitionName (block : Block) (partNr : Nat) : String :=
  String.ofList ((block.name ++ toString partNr).toList.take 15)

/-- `found_partition` (`partition.c:153-186`). -/
def foundPartition (block : Block) (partType : UInt8) (start size : UInt32) (partNr : Nat)
    (st : Scan) : Scan :=
  if block.size ≤ start then
    st.print (block.name ++ toString partNr ++ ": Partition starts past end of device (sector " ++
      toString start ++ ")\n")
  else if start + size < start ∨ block.size < start + size then
    st.print (block.name ++ toString partNr ++ ": Partition end (" ++ toString (start + size) ++
      ") past end of device (" ++ toString block.size ++ ")\n")
  else
    let partition :=
      { name := block.partitionName partNr, partNr, type := blockType partType, start, size }
    { st with registered := st.registered ++ [partition] }

/-- The body of the loop over the entries, where `readTable` is the recursive call. -/
def scanEntry (block : Block) (sector primaryExtendedSector : BlockSector)
    (readTable : BlockSector → BlockSector → Scan → Except Stop Scan) (st : Scan)
    (e : PartitionTableEntry) : Except Stop Scan :=
  if e.isEmpty then pure st
  else if isExtended e.type then
    let st := st.print (block.name ++ ": Extended partition in sector " ++ toString sector ++ "\n")
    if sector = 0 then readTable e.offset e.offset st
    else readTable (e.offset + primaryExtendedSector) primaryExtendedSector st
  else
    let st := { st with partNr := st.partNr + 1 }
    pure (block.foundPartition e.type (e.offset + sector) e.size st.partNr st)

/-- `read_partition_table` (`partition.c:49-146`). -/
def readPartitionTable (block : Block) :
    Nat → BlockSector → BlockSector → Scan → Except Stop Scan
  | 0, _, _, _ => .error .outOfFuel
  | fuel + 1, sector, primaryExtendedSector, st =>
    if block.size ≤ sector then
      pure (st.print (block.name ++ ": Partition table at sector " ++ toString sector ++
        " past end of device.\n"))
    else do
      let pt ← partitionTable <$> block.blockRead 0
      if pt.signature ≠ 0xaa55 then
        if primaryExtendedSector = 0 then
          pure (st.print (block.name ++ ": Invalid partition table signature\n"))
        else
          pure (st.print (block.name ++ ": Invalid extended partition table in sector " ++
            toString sector ++ "\n"))
      else
        pt.partitions.foldlM
          (block.scanEntry sector primaryExtendedSector (block.readPartitionTable fuel)) st

/-- `partition_scan` (`partition.c:27-34`). -/
def partitionScan (block : Block) (fuel : Nat) : Except Stop Scan := do
  let st ← block.readPartitionTable fuel 0 0 { partNr := 0, registered := [], printed := [] }
  if st.partNr = 0 then
    pure (st.print (block.name ++ ": Device contains no partitions\n"))
  else pure st

end Block

end CSE130.Devices
