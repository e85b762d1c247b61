import CSE130.Malloc.HeapOk

/-!
# The bytes of the blocks

The allocator's own data are in the same memory as the blocks: the arena headers, and in each free block
the element of its list. What `malloc` and `free` write there is given for each call, and the places
are those of the source. `free` fills what it gets back with `0xcc`.
-/

namespace CSE130.Malloc

open CSE130.Library

/-- `sizeof (struct list_elem)`. -/
abbrev sizeofListElem : Nat := 8

/-- The heap together with the memory. -/
structure Store where
  heap : Heap
  bytes : Nat → UInt8

/-- The reasons for which a call does not return. -/
inductive Fault where
  | panic (p : Panic)
  /-- Bytes past the end of a block are written. -/
  | outOfBlock
  deriving DecidableEq, Repr

/-- Address `x` is one of the `n` from `p` on. -/
def Among (p n x : Nat) : Prop := p ≤ x ∧ x < p + n

instance (p n x : Nat) : Decidable (Among p n x) := inferInstanceAs (Decidable (_ ∧ _))

/-- Address `x` is in the header of arena `a`. -/
def InHeader (a x : Nat) : Prop := Among (a * pgSize) sizeofArena x

instance (a x : Nat) : Decidable (InHeader a x) := inferInstanceAs (Decidable (Among _ _ _))

/-- Address `x` is in the list element of one of the blocks. -/
def InElem (bs : List Nat) (x : Nat) : Prop := ∃ b ∈ bs, Among b sizeofListElem x

instance (bs : List Nat) (x : Nat) : Decidable (InElem bs x) :=
  inferInstanceAs (Decidable (∃ b ∈ bs, Among b sizeofListElem x))

/-- The memory after the addresses of `W` have been written. -/
def overwrite (bytes : Nat → UInt8) (W : Nat → Prop) [DecidablePred W] (value : Nat → UInt8) :
    Nat → UInt8 :=
  fun x => if W x then value x else bytes x

/-- `memset (p, value, n)`. -/
def memset (bytes : Nat → UInt8) (p : Nat) (value : UInt8) (n : Nat) : Nat → UInt8 :=
  overwrite bytes (Among p n) fun _ => value

/-- `memcpy (dst, src, n)`. -/
def memcpy (bytes : Nat → UInt8) (dst src n : Nat) : Nat → UInt8 :=
  overwrite bytes (Among dst n) fun x => bytes (src + (x - dst))

namespace Store

/-- The blocks whose list elements `malloc` writes: all that are on the list when it takes `b` from it. -/
def listed (h : Heap) (size b : Nat) : List Nat :=
  match Heap.findDesc size with
  | some d => b :: h.freeList d
  | none => []

/-- `malloc` (`malloc.c:89-154`), where `words` is what it writes into headers and list elements. -/
def malloc (s : Store) (size : Nat) (grant : Option Nat) (words : Nat → UInt8) :
    Except Fault (Option Nat × Store) := do
  let (r, h) ← (s.heap.malloc size grant).mapError .panic
  match r with
  | none => pure (none, { s with heap := h })
  | some b =>
    let bytes := overwrite s.bytes
      (fun x => InHeader (pgRoundDown b) x ∨ InElem (listed h size b) x) words
    pure (some b, { heap := h, bytes })

/-- The memory after `free`, which has left the heap `h`. -/
def freedBytes (s : Store) (h : Heap) (p : Nat) (words : Nat → UInt8) : Nat → UInt8 :=
  let a := pgRoundDown p
  match (s.heap.arena a).desc with
  | some d =>
    let bytes := overwrite (memset s.bytes p 0xcc (blockSize d))
      (fun x => InHeader a x ∨ InElem (p :: h.freeList d) x) words
    -- `palloc_free_page` fills the page that it gets back
    if h.granted.contains (a, 1) then bytes else memset bytes (a * pgSize) 0xcc pgSize
  | none => memset s.bytes (a * pgSize) 0xcc (pgSize * (s.heap.arena a).freeCnt)

/-- `free` (`malloc.c:218-264`), where `words` is what it writes into headers and list elements. -/
def free (s : Store) (p : Nat) (words : Nat → UInt8) : Except Fault Store := do
  let h ← (s.heap.free p).mapError .panic
  pure { heap := h, bytes := if p = 0 then s.bytes else s.freedBytes h p words }

/-- `calloc` (`malloc.c:158-175`). -/
def calloc (s : Store) (a b : Nat) (grant : Option Nat) (words : Nat → UInt8) :
    Except Fault (Option Nat × Store) :=
  let size := a * b % 2 ^ 32
  if size < a ∨ size < b then pure (none, s)
  else do
    let (r, s) ← s.malloc size grant words
    match r with
    | none => pure (none, s)
    | some p =>
      check (size ≤ s.heap.bytesOf p) .outOfBlock
      pure (some p, { s with bytes := memset s.bytes p 0 size })

/-- `realloc` (`malloc.c:194-214`), where `words` is what its call of `malloc` writes, and `words'` what its
call of `free` does. -/
def realloc (s : Store) (oldBlock newSize : Nat) (grant : Option Nat) (words words' : Nat → UInt8) :
    Except Fault (Option Nat × Store) :=
  if newSize = 0 then do
    let s ← s.free oldBlock words'
    pure (none, s)
  else do
    let (r, s) ← s.malloc newSize grant words
    match r with
    | none => pure (none, s)
    | some newBlock =>
      if oldBlock = 0 then pure (some newBlock, s)
      else
        let _ ← (s.heap.blockToArena oldBlock).mapError .panic
        let oldSize := s.heap.bytesOf oldBlock
        let minSize := if newSize < oldSize then newSize else oldSize
        check (minSize ≤ s.heap.bytesOf newBlock) .outOfBlock
        let bytes := memcpy s.bytes newBlock oldBlock minSize
        let s ← { s with bytes }.free oldBlock words'
        pure (some newBlock, s)

end Store

end CSE130.Malloc
