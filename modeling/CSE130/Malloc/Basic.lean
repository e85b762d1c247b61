import CSE130.Library.Run
import Mathlib.Algebra.Ring.Nat
import Mathlib.Data.List.FinRange
import Mathlib.Logic.Function.Basic

/-!
# The block allocator of Lab 3

Rendering of `threads/malloc.c`. Addresses and pages are numbers, with the address 0 for `NULL`. The
memory holds the arena headers at the starts of the pages, and a free list is the list of the
addresses of its blocks. A call of `malloc` comes with the pages that `palloc_get_multiple` returns for
it, and may only come with pages that are free; `Palloc.HeapPages` puts the heap over the page allocator
itself. What `palloc` has handed out and the blocks in use are recorded beside the variables of the
source. Calls run under the lock of their descriptor and are single steps.
-/

namespace CSE130.Malloc

open CSE130.Library

/-- `PGSIZE`. -/
abbrev pgSize : Nat := 4096

/-- `sizeof (struct arena)`. -/
abbrev sizeofArena : Nat := 12

/-- `pg_ofs` (`vaddr.h:24-26`). -/
def pgOfs (va : Nat) : Nat := va % pgSize

/-- The page of `pg_round_down`. -/
def pgRoundDown (va : Nat) : Nat := va / pgSize

/-! ## Descriptors and arenas -/

/-- The constants of a `struct desc`. -/
structure Desc where
  blockSize : Nat
  blocksPerArena : Nat
  deriving DecidableEq, Repr

/-- The loop of `malloc_init` (`malloc.c:71-85`) that fills `descs`, an array of ten. -/
def mallocInit : Nat → Nat → List Desc
  | 0, _ => []
  | n + 1, blockSize =>
    if blockSize < pgSize / 2 then
      { blockSize := blockSize, blocksPerArena := (pgSize - sizeofArena) / blockSize } ::
        mallocInit n (blockSize * 2)
    else []

/-- `descs` after `malloc_init`. -/
def descs : List Desc := mallocInit 10 16

/-- A pointer into `descs`. -/
abbrev DescId := Fin descs.length

/-- `d->block_size`. -/
def blockSize (d : DescId) : Nat := (descs.get d).blockSize

/-- `d->blocks_per_arena`. -/
def blocksPerArena (d : DescId) : Nat := (descs.get d).blocksPerArena

/-- `ARENA_MAGIC`. -/
def arenaMagic : Nat := 0x9a548eed

/-- `struct arena`. -/
structure Arena where
  magic : Nat
  desc : Option DescId
  freeCnt : Nat

/-- The memory of the allocator. -/
structure Heap where
  arena : Nat → Arena
  freeList : DescId → List Nat
  /-- The runs of pages obtained from `palloc`: the first page and their number. -/
  granted : List (Nat × Nat)
  /-- The blocks that have been returned and not freed. -/
  live : List Nat

/-- The reasons for which a call stops the kernel. -/
inductive Panic where
  | assertFailed
  | nullPointer
  | notInList
  | notGranted
  deriving DecidableEq, Repr

namespace Heap

/-- `block_to_arena` (`malloc.c:267-282`). -/
def blockToArena (h : Heap) (b : Nat) : Except Panic Nat := do
  let a := pgRoundDown b
  check (a ≠ 0) .assertFailed
  check ((h.arena a).magic = arenaMagic) .assertFailed
  match (h.arena a).desc with
  | none =>
    check (pgOfs b = sizeofArena) .assertFailed
    pure a
  | some d =>
    check ((pgOfs b + 2 ^ 32 - sizeofArena) % 2 ^ 32 % blockSize d = 0) .assertFailed
    pure a

/-- The address that `arena_to_block` computes. -/
def blockAt (a : Nat) (d : DescId) (idx : Nat) : Nat := a * pgSize + sizeofArena + idx * blockSize d

/-- `arena_to_block` (`malloc.c:285-294`). -/
def arenaToBlock (h : Heap) (a : Nat) (idx : Nat) : Except Panic Nat := do
  check (a ≠ 0) .assertFailed
  check ((h.arena a).magic = arenaMagic) .assertFailed
  match (h.arena a).desc with
  | none => .error .nullPointer
  | some d =>
    check (idx < blocksPerArena d) .assertFailed
    pure (blockAt a d idx)

/-- An assignment to the header of an arena. -/
def setArena (h : Heap) (a : Nat) (header : Arena) : Heap :=
  { h with arena := Function.update h.arena a header }

/-- An assignment to `d->free_list`. -/
def setFreeList (h : Heap) (d : DescId) (list : List Nat) : Heap :=
  { h with freeList := Function.update h.freeList d list }

/-- `palloc_get_multiple` (`palloc.c:70-101`), where the pages are those given. -/
def pallocGet (h : Heap) (a : Nat) (pageCnt : Nat) : Heap :=
  { h with granted := (a, pageCnt) :: h.granted }

/-- `palloc_free_multiple` (`palloc.c:117-142`). -/
def pallocFree (h : Heap) (a : Nat) (pageCnt : Nat) : Except Panic Heap := do
  check ((a, pageCnt) ∈ h.granted) .notGranted
  pure { h with granted := h.granted.erase (a, pageCnt) }

/-! ## `malloc` -/

/-- The loop of `malloc` that puts the blocks of a new arena on the free list. -/
def pushBlocks (h : Heap) (a : Nat) (d : DescId) : List Nat → Except Panic Heap
  | [] => pure h
  | i :: is => do
    let b ← h.arenaToBlock a i
    (h.setFreeList d (h.freeList d ++ [b])).pushBlocks a d is

/-- The part of `malloc` that makes a new arena if the free list is empty; `none` if there is no
page. -/
def refill (h : Heap) (d : DescId) (grant : Option Nat) : Except Panic (Option Heap) :=
  if h.freeList d = [] then
    match grant with
    | none => pure none
    | some a => do
      let h := (h.pallocGet a 1).setArena a
        { magic := arenaMagic, desc := some d, freeCnt := blocksPerArena d }
      let h ← h.pushBlocks a d (List.range (blocksPerArena d))
      pure (some h)
  else pure (some h)

/-- The last part of `malloc`: a block from the free list. -/
def takeBlock (h : Heap) (d : DescId) : Except Panic (Nat × Heap) :=
  match h.freeList d with
  | [] => .error .assertFailed
  | b :: rest => do
    let h := h.setFreeList d rest
    let a ← h.blockToArena b
    let h := h.setArena a { h.arena a with freeCnt := (h.arena a).freeCnt - 1 }
    pure (b, { h with live := b :: h.live })

/-- `page_cnt` for a block that is too big for every descriptor. -/
def pageCnt (size : Nat) : Nat := (size + sizeofArena + (pgSize - 1)) % 2 ^ 32 / pgSize

/-- The part of `malloc` for such blocks. -/
def mallocBig (h : Heap) (size : Nat) : Option Nat → Option Nat × Heap
  | none => (none, h)
  | some a =>
    let h := (h.pallocGet a (pageCnt size)).setArena a
      { magic := arenaMagic, desc := none, freeCnt := pageCnt size }
    let b := a * pgSize + sizeofArena
    (some b, { h with live := b :: h.live })

/-- The smallest descriptor for a request. -/
def findDesc (size : Nat) : Option DescId :=
  (List.finRange descs.length).find? fun d => size ≤ blockSize d

/-- `malloc` (`malloc.c:89-154`), with the page that `palloc_get_page` or `palloc_get_multiple` would
return. -/
def malloc (h : Heap) (size : Nat) (grant : Option Nat) : Except Panic (Option Nat × Heap) :=
  if size = 0 then pure (none, h)
  else
    match findDesc size with
    | none => pure (h.mallocBig size grant)
    | some d => do
      match ← h.refill d grant with
      | none => pure (none, h)
      | some h =>
        let (b, h) ← h.takeBlock d
        pure (some b, h)

/-! ## `free` -/

/-- The loop of `free` that takes the blocks of an unused arena off the free list. -/
def removeBlocks (h : Heap) (a : Nat) (d : DescId) : List Nat → Except Panic Heap
  | [] => pure h
  | i :: is => do
    let b ← h.arenaToBlock a i
    check (b ∈ h.freeList d) .notInList
    (h.setFreeList d ((h.freeList d).erase b)).removeBlocks a d is

/-- The part of `free` that puts a block of arena `a` on the free list. -/
def putBack (h : Heap) (a : Nat) (d : DescId) (p : Nat) : Heap :=
  ({ h with live := h.live.erase p }.setFreeList d (p :: h.freeList d)).setArena a
    { h.arena a with freeCnt := (h.arena a).freeCnt + 1 }

/-- The part of `free` for a block of arena `a`. -/
def freeBlock (h : Heap) (a : Nat) (d : DescId) (p : Nat) : Except Panic Heap :=
  let h := h.putBack a d p
  if blocksPerArena d ≤ (h.arena a).freeCnt then do
    check ((h.arena a).freeCnt = blocksPerArena d) .assertFailed
    let h ← h.removeBlocks a d (List.range (blocksPerArena d))
    h.pallocFree a 1
  else pure h

/-- `free` (`malloc.c:218-264`). -/
def free (h : Heap) (p : Nat) : Except Panic Heap :=
  if p = 0 then pure h
  else do
    let a ← h.blockToArena p
    match (h.arena a).desc with
    | some d => h.freeBlock a d p
    | none => pallocFree { h with live := h.live.erase p } a (h.arena a).freeCnt

/-- `block_size`: the number of bytes of a block. -/
def bytesOf (h : Heap) (b : Nat) : Nat :=
  match (h.arena (pgRoundDown b)).desc with
  | some d => blockSize d
  | none => pgSize * (h.arena (pgRoundDown b)).freeCnt - pgOfs b

/-! ## Runs -/

/-- The heap after `malloc_init`. -/
def start (memory : Nat → Arena) : Heap where
  arena := memory
  freeList := fun _ => []
  granted := []
  live := []

/-- A call of `malloc` or `free`. -/
inductive Event where
  | malloc (size : Nat) (grant : Option Nat)
  | free (p : Nat)
  deriving DecidableEq, Repr

/-- The heap after a call. -/
def step (h : Heap) : Event → Except Panic Heap
  | .malloc size grant => (h.malloc size grant).map Prod.snd
  | .free p => h.free p

/-- The number of pages that `malloc` asks `palloc` for. -/
def pagesAsked (size : Nat) : Nat := if findDesc size = none then pageCnt size else 1

/-- Two runs of pages have no page in common. -/
def Apart (g g' : Nat × Nat) : Prop := g.1 + g.2 ≤ g'.1 ∨ g'.1 + g'.2 ≤ g.1

/-- `palloc` returns pages other than page 0 that it has not handed out already. -/
def PageFree (h : Heap) (a : Nat) (pageCnt : Nat) : Prop :=
  a ≠ 0 ∧ (a + pageCnt) * pgSize ≤ 2 ^ 32 ∧ ∀ g ∈ h.granted, Apart (a, pageCnt) g

/-- The calls that may be made: sizes up to 1 MB, and a block is freed once, or `NULL`. -/
def Admits (h : Heap) : Event → Prop
  | .malloc size grant => size ≤ 2 ^ 20 ∧ ∀ a ∈ grant, h.PageFree a (pagesAsked size)
  | .free p => p = 0 ∨ p ∈ h.live

instance (g g' : Nat × Nat) : Decidable (Apart g g') :=
  inferInstanceAs (Decidable (_ ∨ _))

instance (h : Heap) (a n : Nat) : Decidable (h.PageFree a n) :=
  inferInstanceAs (Decidable (_ ∧ _ ∧ _))

instance (h : Heap) : (e : Event) → Decidable (h.Admits e)
  | .malloc size none => decidable_of_iff (size ≤ 2 ^ 20) (by simp [Admits])
  | .malloc size (some a) =>
    decidable_of_iff (size ≤ 2 ^ 20 ∧ h.PageFree a (pagesAsked size)) (by simp [Admits])
  | .free p => inferInstanceAs (Decidable (p = 0 ∨ p ∈ h.live))

end Heap

end CSE130.Malloc
