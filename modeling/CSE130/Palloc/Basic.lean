import CSE130.KernelLib.Bitmap
import CSE130.Malloc.Basic

/-!
# The page allocator of Lab 3

Rendering of `threads/palloc.c`. Memory is divided into a pool of pages for the kernel and one for
user programs; the bitmap of a pool has one bit for each page. The bitmaps are kept beside the bytes
of the memory. A call is one step here, as if it ran under the lock of its pool as a whole.
-/

namespace CSE130.Palloc

open CSE130.Library CSE130.KernelLib
open CSE130.Malloc (pgSize pgOfs)

/-- `PHYS_BASE`, where physical memory is mapped. -/
abbrev physBase : Nat := 0xc0000000

/-- `pg_no` (`vaddr.h:29-31`). -/
def pgNo (va : Nat) : Nat := va / pgSize

/-- `enum palloc_flags`. -/
structure PallocFlags where
  assert : Bool
  zero : Bool
  user : Bool
  deriving DecidableEq, Repr

/-- `struct pool`, without its lock. -/
structure Pool where
  usedMap : Bitmap
  base : Nat

/-- `page_from_pool` (`palloc.c:174-182`). -/
def pageFromPool (pool : Pool) (page : Nat) : Bool :=
  pgNo pool.base ≤ pgNo page ∧ pgNo page < pgNo pool.base + pool.usedMap.bitCnt

/-- The two pools, and the bytes of the memory. -/
structure Pages where
  kernelPool : Pool
  userPool : Pool
  bytes : Nat → UInt8

/-- `bitmap_buf_size` (`bitmap.c:114-118`). -/
def bitmapBufSize (bitCnt : Nat) : Nat := 8 + byteCnt bitCnt

/-- `bm_pages` in `init_pool`. -/
def bmPages (pageCnt : Nat) : Nat := (bitmapBufSize pageCnt + pgSize - 1) / pgSize

/-- `init_pool` (`palloc.c:153-170`), with the words that the memory of the bitmap holds before. -/
def initPool (base pageCnt : Nat) (words : Nat → UInt32) (h : pageCnt < 2 ^ 32) :
    Except Panic Pool := do
  check (bmPages pageCnt ≤ pageCnt) .noMemoryForBitmap
  check (bitmapBufSize (pageCnt - bmPages pageCnt) ≤ bmPages pageCnt * pgSize) .assertFailed
  let usedMap ← Bitmap.createInBuf (pageCnt - bmPages pageCnt) words
    (Nat.lt_of_le_of_lt (Nat.sub_le _ _) h)
  pure { usedMap := usedMap, base := base + bmPages pageCnt * pgSize }

/-- `free_pages` in `palloc_init`, where the memory has `initRamPages` pages. -/
def freePages (initRamPages : UInt32) : Nat := (initRamPages.toNat + 2 ^ 32 - 256) % 2 ^ 32

/-- `user_pages` in `palloc_init`. -/
def userPages (initRamPages userPageLimit : UInt32) : Nat :=
  min (freePages initRamPages / 2) userPageLimit.toNat

theorem freePages_lt (initRamPages : UInt32) : freePages initRamPages < 2 ^ 32 :=
  Nat.mod_lt _ (by decide)

/-- `palloc_init` (`palloc.c:45-62`). -/
def pallocInit (initRamPages userPageLimit : UInt32) (words : Nat → Nat → UInt32)
    (bytes : Nat → UInt8) : Except Panic Pages := do
  check (initRamPages.toNat * pgSize % 2 ^ 32 < physBase) .assertFailed
  let freeStart := physBase + 1024 * 1024
  let kernelPages := freePages initRamPages - userPages initRamPages userPageLimit
  let userStart := freeStart + kernelPages * pgSize
  let kernelPool ← initPool freeStart kernelPages (words freeStart)
    (Nat.lt_of_le_of_lt (Nat.sub_le _ _) (freePages_lt initRamPages))
  let userPool ← initPool userStart (userPages initRamPages userPageLimit) (words userStart)
    (Nat.lt_of_le_of_lt (Nat.le_trans (Nat.min_le_left _ _) (Nat.div_le_self _ _))
      (freePages_lt initRamPages))
  pure { kernelPool := kernelPool, userPool := userPool, bytes := bytes }

namespace Pages

/-- The pool that the flags ask for. -/
def pool (m : Pages) (user : Bool) : Pool := if user then m.userPool else m.kernelPool

/-- A change of the bitmap of a pool. -/
def setMap (m : Pages) (user : Bool) (usedMap : Bitmap) : Pages :=
  if user then { m with userPool := { m.userPool with usedMap := usedMap } }
  else { m with kernelPool := { m.kernelPool with usedMap := usedMap } }

/-- `memset`. -/
def fill (m : Pages) (dst : Nat) (value : UInt8) (size : Nat) : Pages :=
  { m with bytes := fun x => if dst ≤ x ∧ x < dst + size then value else m.bytes x }

/-- `palloc_get_multiple` (`palloc.c:70-101`): the address, or 0. -/
def pallocGetMultiple (m : Pages) (flags : PallocFlags) (pageCnt : Nat) :
    Except Panic (Nat × Pages) :=
  if pageCnt = 0 then pure (0, m)
  else do
    let (pageIdx, usedMap) ← (m.pool flags.user).usedMap.scanAndFlip 0 pageCnt false
    let m := m.setMap flags.user usedMap
    let pages :=
      match pageIdx with
      | some idx => ((m.pool flags.user).base + pgSize * idx) % 2 ^ 32
      | none => 0
    if pages ≠ 0 then
      pure (pages, if flags.zero then m.fill pages 0 (pgSize * pageCnt) else m)
    else if flags.assert then .error .outOfPages
    else pure (pages, m)

/-- `palloc_get_page` (`palloc.c:110-114`). -/
def pallocGetPage (m : Pages) (flags : PallocFlags) : Except Panic (Nat × Pages) :=
  m.pallocGetMultiple flags 1

/-- The pool of a page that is freed. -/
def poolOf (m : Pages) (pages : Nat) : Except Panic Bool :=
  if pageFromPool m.kernelPool pages then pure false
  else if pageFromPool m.userPool pages then pure true
  else .error .notReached

/-- `palloc_free_multiple` (`palloc.c:117-142`). -/
def pallocFreeMultiple (m : Pages) (pages pageCnt : Nat) : Except Panic Pages := do
  check (pgOfs pages = 0) .assertFailed
  if pages = 0 ∨ pageCnt = 0 then pure m
  else do
    let user ← m.poolOf pages
    let pageIdx := pgNo pages - pgNo (m.pool user).base
    let m := m.fill pages 0xcc (pgSize * pageCnt)
    let allUsed ← (m.pool user).usedMap.all pageIdx pageCnt
    check (allUsed = true) .assertFailed
    let usedMap ← (m.pool user).usedMap.setMultiple pageIdx pageCnt false
    pure (m.setMap user usedMap)

/-- `palloc_free_page` (`palloc.c:145-149`). -/
def pallocFreePage (m : Pages) (page : Nat) : Except Panic Pages := m.pallocFreeMultiple page 1

/-! ## Runs -/

/-- Page number `q` is page `i` of a pool. -/
def IsPage (pool : Pool) (i q : Nat) : Prop := i < pool.usedMap.bitCnt ∧ q = pgNo pool.base + i

/-- A page that has been handed out and not freed. -/
def Held (m : Pages) (q : Nat) : Prop :=
  ∃ user i, IsPage (m.pool user) i q ∧ (m.pool user).usedMap.bit i = true

/-- The pages `page, …, page + cnt - 1` have been handed out. -/
def HeldRun (m : Pages) (page cnt : Nat) : Prop := ∀ q, page ≤ q → q < page + cnt → m.Held q

/-- A call of the page allocator. -/
inductive Call where
  | get (flags : PallocFlags) (pageCnt : Nat)
  | free (pages pageCnt : Nat)

/-- The memory after a call. -/
def step (m : Pages) : Call → Except Panic Pages
  | .get flags pageCnt => (m.pallocGetMultiple flags pageCnt).map Prod.snd
  | .free pages pageCnt => m.pallocFreeMultiple pages pageCnt

/-- Pages are freed only if they have been handed out. -/
def Admits (m : Pages) : Call → Prop
  | .get _ pageCnt => pageCnt < 2 ^ 32
  | .free pages pageCnt => pgOfs pages = 0 ∧ (pages ≠ 0 → m.HeldRun (pgNo pages) pageCnt)

end Pages

end CSE130.Palloc
