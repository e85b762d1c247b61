import CSE130.Filesys.Device
import Mathlib.Data.Fintype.Card

/-!
# The buffer cache of Lab 3

Rendering of `filesys/cache.c`. Every call of `buffer_cache_read` and `buffer_cache_write` runs under
`buffer_cache_lock` from its first to its last action, so that a call is one step here and the
assertions about the lock are left out.
-/

namespace CSE130.Filesys

open CSE130.Library

/-- `BUFFER_CACHE_SIZE`. -/
abbrev bufferCacheSize : Nat := 64

/-- `struct buffer_cache_entry_t`. -/
structure Slot where
  occupied : Bool
  diskSector : Sector
  buffer : Block
  dirty : Bool
  access : Bool

/-- The variables of `cache.c`, the static `clock` of `buffer_cache_evict`, and `fs_device`. -/
structure BufferCache where
  device : Device
  cache : Fin bufferCacheSize → Slot
  clock : Fin bufferCacheSize

namespace BufferCache

/-- An assignment to `cache[i]`. -/
def setSlot (c : BufferCache) (i : Fin bufferCacheSize) (slot : Slot) : BufferCache :=
  { c with cache := Function.update c.cache i slot }

/-- `buffer_cache_init` (`cache.c:25-36`). -/
def bufferCacheInit (c : BufferCache) : BufferCache :=
  { c with cache := fun i => { c.cache i with occupied := false } }

/-- `buffer_cache_flush` (`cache.c:42-52`). -/
def bufferCacheFlush (c : BufferCache) (i : Fin bufferCacheSize) : Except Panic BufferCache := do
  check ((c.cache i).occupied = true) .assertFailed
  if (c.cache i).dirty then
    let device ← c.device.blockWrite (c.cache i).diskSector (c.cache i).buffer
    pure { c.setSlot i { c.cache i with dirty := false } with device := device }
  else pure c

/-- The loop of `buffer_cache_close` over the slots `is`. -/
def closeLoop (c : BufferCache) : List (Fin bufferCacheSize) → Except Panic BufferCache
  | [] => pure c
  | i :: is =>
    if (c.cache i).occupied = false then c.closeLoop is
    else do
      let c ← c.bufferCacheFlush i
      c.closeLoop is

/-- `buffer_cache_close` (`cache.c:54-68`). -/
def bufferCacheClose (c : BufferCache) : Except Panic BufferCache :=
  c.closeLoop (List.finRange bufferCacheSize)

/-- `buffer_cache_lookup` (`cache.c:75-88`). -/
def bufferCacheLookup (c : BufferCache) (sector : Sector) : Option (Fin bufferCacheSize) :=
  (List.finRange bufferCacheSize).find? fun i =>
    (c.cache i).occupied && (c.cache i).diskSector == sector

/-- The loop of `buffer_cache_evict`, with a bound on its rounds: the slots, and where the clock
stops. -/
def evictLoop : Nat → (Fin bufferCacheSize → Slot) → Fin bufferCacheSize →
    Option ((Fin bufferCacheSize → Slot) × Fin bufferCacheSize)
  | 0, _, _ => none
  | rounds + 1, cache, clock =>
    if (cache clock).occupied = false then some (cache, clock)
    else if (cache clock).access then
      evictLoop rounds (Function.update cache clock { cache clock with access := false }) (clock + 1)
    else some (cache, clock)

/-- The write-back of the victim of `buffer_cache_evict`. -/
def writeBack (c : BufferCache) (i : Fin bufferCacheSize) : Except Panic BufferCache :=
  if (c.cache i).dirty then c.bufferCacheFlush i else pure c

/-- `buffer_cache_evict` (`cache.c:95-127`). -/
def bufferCacheEvict (c : BufferCache) : Except Panic (BufferCache × Fin bufferCacheSize) :=
  match evictLoop (bufferCacheSize + 1) c.cache c.clock with
  | none => .error .outOfFuel
  | some (cache, clock) =>
    let c : BufferCache := { c with cache := cache, clock := clock }
    if (c.cache clock).occupied = false then pure (c, clock)
    else do
      let c ← c.writeBack clock
      pure (c.setSlot clock { c.cache clock with occupied := false }, clock)

/-- The first part of `buffer_cache_read` and `buffer_cache_write`: the slot of the sector. -/
def fetch (c : BufferCache) (sector : Sector) : Except Panic (BufferCache × Fin bufferCacheSize) :=
  match c.bufferCacheLookup sector with
  | some i => pure (c, i)
  | none => do
    let (c, i) ← c.bufferCacheEvict
    check ((c.cache i).occupied = false) .assertFailed
    let buffer ← c.device.blockRead sector
    pure (c.setSlot i
      { c.cache i with occupied := true, diskSector := sector, dirty := false, buffer := buffer }, i)

/-- `buffer_cache_read` (`cache.c:130-153`). -/
def bufferCacheRead (c : BufferCache) (sector : Sector) : Except Panic (Block × BufferCache) := do
  let (c, i) ← c.fetch sector
  pure ((c.cache i).buffer, c.setSlot i { c.cache i with access := true })

/-- `buffer_cache_write` (`cache.c:155-179`). -/
def bufferCacheWrite (c : BufferCache) (sector : Sector) (source : Block) :
    Except Panic BufferCache := do
  let (c, i) ← c.fetch sector
  pure (c.setSlot i { c.cache i with access := true, dirty := true, buffer := source })

end BufferCache

end CSE130.Filesys
