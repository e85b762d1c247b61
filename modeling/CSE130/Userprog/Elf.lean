import CSE130.Userprog.SystemCall
import Mathlib.Logic.Function.Basic

/-!
# Loading the segments of an executable of Lab 3

Rendering of `validate_segment`, `load_segment` and the part of `elf_load` that handles a segment
(`userprog/elf.c`), in 32-bit arithmetic. The code is that of a build without `VM`, where `load_segment` reads
every page from the file at once. With `VM`, which `filesys/Make.vars` defines, the kernel does not compile:
`struct thread` has no `supt`, and there is no `threads/synch.h`, which `vm/page.c` includes.
-/

namespace CSE130.Userprog

/-! ## Types -/

/-- `struct Elf32_Phdr`. -/
structure Elf32Phdr where
  pType : UInt32
  pOffset : UInt32
  pVaddr : UInt32
  pPaddr : UInt32
  pFilesz : UInt32
  pMemsz : UInt32
  pFlags : UInt32
  pAlign : UInt32
  deriving DecidableEq, Repr

/-- The executable, to which nothing is written meanwhile. Its length is an `off_t`. -/
structure ExecFile where
  bytes : List UInt8
  length_lt : bytes.length < 2 ^ 31

/-- `file_length` (`file.c:144-149`). -/
def ExecFile.fileLength (file : ExecFile) : Int32 := Int32.ofNat file.bytes.length

/-- The bytes that `file_read` copies from an offset that is not negative. -/
def ExecFile.readAt (file : ExecFile) (pos : Int32) (size : UInt32) : List UInt8 :=
  (file.bytes.drop pos.toInt.toNat).take size.toNat

/-- A page of the process. -/
structure UserPage where
  bytes : List UInt8
  writable : Bool

/-- The page directory of a process, by the addresses of pages. -/
structure AddressSpace where
  pagedir : UInt32 → Option UserPage

/-- The assertions that the loading of a segment checks. -/
inductive LoadAssert where
  | byteCounts
  | upageAligned
  | offsetAligned
  | newPos
  | userVaddr
  deriving DecidableEq, Repr

/-- Why the loading of a segment does not return: a failed assertion, or a bound on the rounds of the loop
that was too small. -/
inductive LoadFault where
  | assertion (a : LoadAssert)
  | outOfRounds
  deriving DecidableEq, Repr

/-! ## Addresses -/

/-- `PGSIZE`, in an expression of type `uint32_t`. -/
def pgsizeWord : UInt32 := 4096

/-- `PGMASK`. -/
def pgmask : UInt32 := 4095

/-- `is_user_vaddr` (`vaddr.h:56-60`). -/
def isUserVaddr (vaddr : UInt32) : Bool := vaddr < 0xc0000000

/-- `ROUND_UP` in unsigned arithmetic. -/
def roundUp (x step : UInt32) : UInt32 := (x + step - 1) / step * step

/-- `validate_segment` (`elf.c:156-197`). -/
def validateSegment (phdr : Elf32Phdr) (file : ExecFile) : Bool :=
  if phdr.pOffset &&& pgmask ≠ phdr.pVaddr &&& pgmask then false
  else if file.fileLength.toUInt32 < phdr.pOffset then false
  else if phdr.pMemsz < phdr.pFilesz then false
  else if phdr.pMemsz = 0 then false
  else if ¬ isUserVaddr phdr.pVaddr then false
  else if ¬ isUserVaddr (phdr.pVaddr + phdr.pMemsz) then false
  else if phdr.pVaddr + phdr.pMemsz < phdr.pVaddr then false
  else if phdr.pVaddr < pgsizeWord then false
  else true

/-- The variables of `elf_load` for a segment. -/
structure Segment where
  writable : Bool
  filePage : UInt32
  memPage : UInt32
  readBytes : UInt32
  zeroBytes : UInt32

/-- What `elf_load` computes from a program header. -/
def segmentOf (phdr : Elf32Phdr) : Segment :=
  let pageOffset := phdr.pVaddr &&& pgmask
  let readBytes := if 0 < phdr.pFilesz then pageOffset + phdr.pFilesz else 0
  { writable := phdr.pFlags &&& 2 ≠ 0
    filePage := phdr.pOffset &&& ~~~pgmask
    memPage := phdr.pVaddr &&& ~~~pgmask
    readBytes := readBytes
    zeroBytes :=
      if 0 < phdr.pFilesz then roundUp (pageOffset + phdr.pMemsz) pgsizeWord - readBytes
      else roundUp (pageOffset + phdr.pMemsz) pgsizeWord }

/-! ## `load_segment` -/

/-- `upage`, `page_read_bytes` and `page_zero_bytes` in a round of the loop. -/
structure PageFill where
  upage : UInt32
  readBytes : UInt32
  zeroBytes : UInt32
  deriving DecidableEq

/-- The loop of `load_segment`, with a bound on its rounds. What is done for a page may end the loop with
`false`. -/
def loadLoop {σ : Type} (fill : σ → PageFill → Except LoadFault (Option σ)) :
    Nat → UInt32 → UInt32 → UInt32 → σ → Except LoadFault (Option σ)
  | 0, _, _, _, _ => .error .outOfRounds
  | rounds + 1, upage, readBytes, zeroBytes, s =>
    if 0 < readBytes ∨ 0 < zeroBytes then
      let pageReadBytes := if readBytes < pgsizeWord then readBytes else pgsizeWord
      let pageZeroBytes := pgsizeWord - pageReadBytes
      match fill s ⟨upage, pageReadBytes, pageZeroBytes⟩ with
      | .error fault => .error fault
      | .ok none => .ok none
      | .ok (some s) => loadLoop fill rounds (upage + pgsizeWord) (readBytes - pageReadBytes)
          (zeroBytes - pageZeroBytes) s
    else .ok (some s)

/-- The address space, with the position in the file. -/
structure LoadState where
  pos : Int32
  space : AddressSpace

/-- For which pages there is a frame, and for which there is a page table. -/
structure Allocation where
  frame : UInt32 → Bool
  table : UInt32 → Bool

/-- What the loop does for a page: `vm_frame_allocate`, which is `palloc_get_page`, `file_read`, `memset` and
`install_page` (`elf.c:247-263`). -/
def loadPage (env : Allocation) (file : ExecFile) (writable : Bool) (s : LoadState) (p : PageFill) :
    Except LoadFault (Option LoadState) :=
  if ¬ env.frame p.upage then .ok none
  else
    let bytes := file.readAt s.pos p.readBytes
    if bytes.length ≠ p.readBytes.toNat then .ok none
    else if ¬ isUserVaddr p.upage then .error (.assertion .userVaddr)
    else if (s.space.pagedir p.upage).isSome ∨ ¬ env.table p.upage then .ok none
    else
      let page := { bytes := bytes ++ List.replicate p.zeroBytes.toNat 0, writable := writable }
      .ok (some
        { pos := s.pos + Int32.ofNat bytes.length
          space := { pagedir := Function.update s.space.pagedir p.upage (some page) } })

/-- `load_segment` (`elf.c:220-276`): the address space when it returns `true`. -/
def loadSegment (env : Allocation) (rounds : Nat) (file : ExecFile) (ofs : Int32)
    (upage readBytes zeroBytes : UInt32) (writable : Bool) (space : AddressSpace) :
    Except LoadFault (Option AddressSpace) :=
  if (readBytes + zeroBytes) % pgsizeWord ≠ 0 then .error (.assertion .byteCounts)
  else if upage &&& pgmask ≠ 0 then .error (.assertion .upageAligned)
  else if ofs % 4096 ≠ 0 then .error (.assertion .offsetAligned)
  else if ofs < 0 then .error (.assertion .newPos)
  else do
    let s ← loadLoop (loadPage env file writable) rounds upage readBytes zeroBytes ⟨ofs, space⟩
    pure (s.map (·.space))

/-- The part of `elf_load` (`elf.c:301-405`) for a header of type `PT_LOAD`. -/
def loadHeader (env : Allocation) (rounds : Nat) (file : ExecFile) (phdr : Elf32Phdr)
    (space : AddressSpace) : Except LoadFault (Option AddressSpace) :=
  if validateSegment phdr file then
    loadSegment env rounds file (segmentOf phdr).filePage.toInt32 (segmentOf phdr).memPage
      (segmentOf phdr).readBytes (segmentOf phdr).zeroBytes (segmentOf phdr).writable space
  else .ok none

/-! ## The process image -/

/-- The byte that the process reads at an address, if there is a page. -/
def readByte (space : AddressSpace) (vaddr : UInt32) : Option UInt8 :=
  (space.pagedir (vaddr &&& ~~~pgmask)).bind fun page => page.bytes[(vaddr &&& pgmask).toNat]?

end CSE130.Userprog
