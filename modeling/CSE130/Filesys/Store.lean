import CSE130.Filesys.CacheContent
import CSE130.Filesys.OnDisk

/-!
# What the inode layer works on

`filesys/inode.c` and `filesys/free-map.c` see the disk through the buffer cache, which is transparent,
so that the disk is a function from sectors to their bytes here. What they allocate, release and reserve is
noted in the order in which it happens.

`malloc` and `calloc` are taken to succeed in all modules over this one: the index blocks and the inode of
`inode_create`, the structures of `inode_open`, `dir_open` and `file_open`, the block `bounce` of
`inode_read_at` and `inode_write_at`, and the copy of the path in `split_path_filename`. What these functions
do when a block is not there is left out.
-/

namespace CSE130.Filesys

open CSE130.Library

/-- What happened to the free map, and the writes of `inode_reserve`. -/
inductive Note where
  | allocated (sector : Sector)
  | exhausted
  | released (sector : Sector)
  | wrote (sector : Sector)
  deriving DecidableEq, Repr

/-- The file system device behind the buffer cache, and the variables of `free-map.c`: `free_map` and
the inode of `free_map_file`. -/
structure Store where
  size : Sector
  disk : Sector → Block
  used : Sector → Bool
  freeMapFile : Option InodeDisk
  notes : List Note

/-- A function of the kernel on a store; a panic leaves the store as it is. -/
abbrev StoreM := EStateM Panic Store

namespace Store

/-- The store after a sector has been written. -/
def write (s : Store) (sector : Sector) (b : Block) : Store :=
  { s with disk := Function.update s.disk sector b }

/-- The store after a note has been made. -/
def noted (s : Store) (n : Note) : Store := { s with notes := s.notes ++ [n] }

@[simp] theorem write_size (s : Store) (a : Sector) (b : Block) : (s.write a b).size = s.size := rfl
@[simp] theorem write_used (s : Store) (a : Sector) (b : Block) : (s.write a b).used = s.used := rfl
@[simp] theorem write_notes (s : Store) (a : Sector) (b : Block) :
    (s.write a b).notes = s.notes := rfl
@[simp] theorem write_freeMapFile (s : Store) (a : Sector) (b : Block) :
    (s.write a b).freeMapFile = s.freeMapFile := rfl
theorem write_disk (s : Store) (a : Sector) (b : Block) :
    (s.write a b).disk = Function.update s.disk a b := rfl
@[simp] theorem noted_size (s : Store) (n : Note) : (s.noted n).size = s.size := rfl
@[simp] theorem noted_used (s : Store) (n : Note) : (s.noted n).used = s.used := rfl
@[simp] theorem noted_disk (s : Store) (n : Note) : (s.noted n).disk = s.disk := rfl
@[simp] theorem noted_notes (s : Store) (n : Note) : (s.noted n).notes = s.notes ++ [n] := rfl
@[simp] theorem noted_freeMapFile (s : Store) (n : Note) :
    (s.noted n).freeMapFile = s.freeMapFile := rfl

end Store

/-! ## Computations on a store -/

section Bind

variable {σ ε α β : Type} {x : EStateM ε σ α} {f : α → EStateM ε σ β} {s s' : σ} {a : α} {e : ε}

theorem bind_of_ok (h : x s = .ok a s') : (x >>= f) s = f a s' := by
  simp only [bind, EStateM.bind, h]

theorem get_bind {f : σ → EStateM ε σ β} : (get >>= f) s = f s s := rfl

theorem bind_of_error (h : x s = .error e s') : (x >>= f) s = .error e s' := by
  simp only [bind, EStateM.bind, h]

end Bind

/-- `buffer_cache_read` (`cache.c:130-153`). -/
def bufferCacheRead (sector : Sector) : StoreM Block := fun s =>
  if sector < s.size then .ok (s.disk sector) s else .error (.pastEndOfDevice sector) s

/-- `buffer_cache_write` (`cache.c:155-179`). -/
def bufferCacheWrite (sector : Sector) (b : Block) : StoreM Unit := fun s =>
  if sector < s.size then .ok () (s.write sector b) else .error (.pastEndOfDevice sector) s

/-- Makes a note. -/
def note (n : Note) : StoreM Unit := fun s => .ok () (s.noted n)

/-- `ASSERT`. -/
def assert (p : Prop) [Decidable p] : StoreM Unit := fun s =>
  if p then .ok () s else .error .assertFailed s

section Lemmas

variable {s : Store} {sector : Sector} {b : Block}

theorem bufferCacheRead_of_lt (h : sector < s.size) :
    bufferCacheRead sector s = .ok (s.disk sector) s := if_pos h

theorem bufferCacheWrite_of_lt (h : sector < s.size) :
    bufferCacheWrite sector b s = .ok () (s.write sector b) := if_pos h

theorem note_eq (n : Note) : note n s = .ok () (s.noted n) := rfl

theorem assert_of {p : Prop} [Decidable p] (h : p) : assert p s = .ok () s := if_pos h

theorem assert_of_not {p : Prop} [Decidable p] (h : ¬ p) : assert p s = .error .assertFailed s :=
  if_neg h

end Lemmas

/-! ## The buffer cache shows the disk -/

/-- The cache has the size and the content of the store. -/
structure Shows (c : BufferCache) (s : Store) : Prop where
  inv : c.Inv
  content : c.content = s.disk
  size : c.device.size = s.size.toNat

namespace Shows

variable {c : BufferCache} {s s' : Store} {sector : Sector} {b : Block}

/-- What is read from the store is read from the cache. -/
theorem read (h : Shows c s) (hread : bufferCacheRead sector s = .ok b s') :
    ∃ c', c.bufferCacheRead sector = .ok (b, c') ∧ Shows c' s' := by
  unfold bufferCacheRead at hread
  split_ifs at hread with hlt
  cases hread
  obtain ⟨c', hc, hinv, hcontent, hsize⟩ := @BufferCache.bufferCacheRead_spec c sector h.inv (by
    rw [h.size]
    exact UInt32.lt_iff_toNat_lt.mp hlt)
  rw [h.content] at hc hcontent
  exact ⟨c', hc, hinv, hcontent, hsize.trans h.size⟩

/-- What is written to the store is written to the cache. -/
theorem write (h : Shows c s) (hwrite : bufferCacheWrite sector b s = .ok () s') :
    ∃ c', c.bufferCacheWrite sector b = .ok c' ∧ Shows c' s' := by
  unfold bufferCacheWrite at hwrite
  split_ifs at hwrite with hlt
  cases hwrite
  obtain ⟨c', hc, hinv, hcontent, hsize⟩ := @BufferCache.bufferCacheWrite_spec c sector h.inv (by
    rw [h.size]
    exact UInt32.lt_iff_toNat_lt.mp hlt) b
  rw [h.content] at hcontent
  exact ⟨c', hc, hinv, hcontent, hsize.trans h.size⟩

end Shows

end CSE130.Filesys
