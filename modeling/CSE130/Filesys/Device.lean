import CSE130.Library.Run
import Mathlib.Logic.Function.Basic

/-!
# The block device of Lab 3

Rendering of the parts of `devices/block.c` that the file system uses. A kernel panic is an error;
what a driver does to a sector in range is taken to succeed.
-/

namespace CSE130.Filesys

open CSE130.Library

/-- `block_sector_t`. -/
abbrev Sector := UInt32

/-- `BLOCK_SECTOR_SIZE` bytes. -/
abbrev Block := { bytes : List UInt8 // bytes.length = 512 }

/-- A sector of zeros. -/
def zeros : Block := ⟨List.replicate 512 0, List.length_replicate⟩

/-- The reasons for which the kernel stops. That the free map file has to grow while the free map is
written to it stops the model only. -/
inductive Panic where
  | assertFailed
  | pastEndOfDevice (sector : Sector)
  | nullPointer
  | freeMapFileGrows
  | outOfFuel
  deriving DecidableEq, Repr

/-- `struct block`: a device of `size` sectors. -/
structure Device where
  size : Nat
  data : Sector → Block

namespace Device

variable {d : Device} {sector : Sector} {buffer : Block}

/-- `block_read` (`block.c:120-126`), with the check of `check_sector` (`block.c:104-114`). -/
def blockRead (d : Device) (sector : Sector) : Except Panic Block := do
  check (sector.toNat < d.size) (.pastEndOfDevice sector)
  pure (d.data sector)

/-- `block_write` (`block.c:133-140`). -/
def blockWrite (d : Device) (sector : Sector) (buffer : Block) : Except Panic Device := do
  check (sector.toNat < d.size) (.pastEndOfDevice sector)
  pure { d with data := Function.update d.data sector buffer }

theorem blockRead_of_lt (h : sector.toNat < d.size) : d.blockRead sector = .ok (d.data sector) :=
  check_bind h

theorem blockWrite_of_lt (h : sector.toNat < d.size) :
    d.blockWrite sector buffer = .ok { d with data := Function.update d.data sector buffer } :=
  check_bind h

end Device

end CSE130.Filesys
