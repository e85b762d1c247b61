import CSE130.Library.ByteMemory
import CSE130.Userprog.SystemCall

/-!
# The arguments of a new process of Lab 3

Rendering of `push_command` (`userprog/process.c`), which lays the command line out on the stack of a
new process. Addresses and indices are integers. The memory accesses are recorded with the object
that each is meant for. `pushCommand` is the function where `malloc` and `calloc` succeed, and
`pushCommandWith` the one where each of them may fail.
-/

namespace CSE130.Userprog

open Library (Mem store leBytes loadWord Holds)

/-- A NUL-terminated string, by the bytes before the terminator. -/
structure CString where
  bytes : List UInt8
  noNul : (0 : UInt8) ∉ bytes

/-- `' '`. -/
def space : UInt8 := 32

/-- `cmdline2[i]`. The terminator and whatever lies outside of the string read as 0. -/
def CString.charAt (line : CString) (i : Int) : UInt8 :=
  if i < 0 then 0 else line.bytes.getD i.toNat 0

/-- An access to an object: `len` bytes of the command line read from index `start` on, `len` bytes
of a buffer of `size` bytes, an entry of the array `offsets`, `len` bytes of the stack, `len` bytes
of a page from the kernel pool, or a write through a null pointer. -/
inductive Access where
  | source (start len : Int)
  | buffer (len size : Int)
  | offset (index : Int)
  | stack (addr len : Int)
  | page (start len : Int)
  | null
  deriving DecidableEq, Repr

/-- The variables of `push_command` that change as it goes on: the stack pointer, the stack, the
entries of `offsets`, and the accesses so far, the newest first. -/
structure Push where
  esp : Int
  mem : Mem
  offsets : List Int
  accesses : List Access

namespace Push

/-- Writes to the stack. -/
def write (p : Push) (addr : Int) (bs : List UInt8) : Push :=
  { p with mem := store p.mem addr bs, accesses := .stack addr bs.length :: p.accesses }

/-- `*esp -= n`. -/
def lower (p : Push) (n : Int) : Push := { p with esp := p.esp - n }

/-- A word of `len` bytes from index `start` on: it is copied into a zeroed buffer of `len + 1`
bytes and pushed with its terminator (`process.c:90-93` and `104-107`). -/
def pushString (p : Push) (line : CString) (start len : Int) : Push :=
  let str := (List.range len.toNat).map fun (i : Nat) => line.charAt (start + i)
  let p := { p with accesses := .buffer len (len + 1) :: .source start len :: p.accesses }
  let p := p.lower (len + 1)
  p.write p.esp (str ++ [0])

/-- A word is pushed, and its size is noted (`process.c:90-95` and `104-109`). -/
def pushWord (p : Push) (line : CString) (start len : Int) : Push :=
  let p := p.pushString line start len
  { p with
    offsets := p.offsets ++ [len + 1]
    accesses := .offset p.offsets.length :: p.accesses }

/-- The loop that pushes the pointers to the words (`process.c:114-118`). -/
def pushPointers (p : Push) (base : Int) : List Int → Push
  | [] => p
  | o :: os =>
    let p := p.lower 4
    let base := base - o
    (p.write p.esp (leBytes base)).pushPointers base os

/-- The padding and the null pointer `argv[argc]` (`process.c:110-113`). -/
def pushNull (p : Push) : Push :=
  let wAlign := 4 - p.esp % 4
  let p := p.lower wAlign
  let p := p.lower 4
  p.write p.esp [0]

/-- `argv`, `argc` and the return address, the last two as a single byte each
(`process.c:119-124`). -/
def pushHeader (p : Push) : Push :=
  let p := p.lower 4
  let p := p.write p.esp (leBytes (p.esp + 4))
  let p := p.lower 4
  let p := p.write p.esp [UInt8.ofNat p.offsets.length]
  let p := p.lower 4
  p.write p.esp [0]

end Push

/-- The loop of `push_command` (`process.c:84-102`), with `start_ind` as a natural number. Its result
is the final `end_ind` with the other variables. -/
def pushLoop (line : CString) : Nat → Int → Bool → Push → Int × Push
  | 0, endInd, _, p => (endInd, p)
  | n + 1, endInd, prevSpace, p =>
    let startInd : Int := n + 1
    if line.charAt startInd = space then
      if prevSpace then pushLoop line n (startInd - 1) true p
      else pushLoop line n (startInd - 1) true (p.pushWord line (startInd + 1) (endInd - startInd))
    else pushLoop line n endInd false p

/-- `push_command` up to the last word (`process.c:76-109`). For the empty line `start_ind` is -1. -/
def pushWords (line : CString) (p : Push) : Push :=
  let totLen : Int := line.bytes.length
  let (endInd, p) := pushLoop line (totLen - 1).toNat (totLen - 1) false p
  let startInd := min (totLen - 1) 0
  let endInd := endInd + 1
  p.pushWord line startInd (endInd - startInd)

/-- The rest of `push_command` (`process.c:110-124`). -/
def pushTable (base : Int) (p : Push) : Push :=
  let p := p.pushNull
  (p.pushPointers base p.offsets).pushHeader

/-- `push_command` (`process.c:73-136`). -/
def pushCommand (line : CString) (esp : Int) (mem : Mem) : Push :=
  let base := esp - esp % 4
  pushTable base (pushWords line { esp := base, mem := mem, offsets := [], accesses := [] })

/-! ## Where `malloc` or `calloc` fails -/

/-- Whether `malloc (1000*sizeof(int))` gives an array for `offsets`, and whether the calls of `calloc`
in `push_command` give buffers, by the number of the call. -/
structure HeapAnswers where
  offsets : Bool
  calloc : Nat → Bool

/-- `pushWord`, or the state in which the kernel stops. -/
def Push.pushWordWith (heap : HeapAnswers) (p : Push) (line : CString) (start len : Int) :
    Except Push Push :=
  if heap.calloc p.offsets.length then
    if heap.offsets then .ok (p.pushWord line start len)
    else
      let p := p.pushString line start len
      .error { p with accesses := .null :: p.accesses }
  -- an assertion of `memcpy` fails before the word is read or written
  else .error p

/-- The loop of `push_command` (`process.c:84-102`), up to a word where the kernel stops. -/
def pushLoopWith (heap : HeapAnswers) (line : CString) :
    Nat → Int → Bool → Push → Except Push (Int × Push)
  | 0, endInd, _, p => .ok (endInd, p)
  | n + 1, endInd, prevSpace, p =>
    let startInd : Int := n + 1
    if line.charAt startInd = space then
      if prevSpace then pushLoopWith heap line n (startInd - 1) true p
      else do
        let p ← p.pushWordWith heap line (startInd + 1) (endInd - startInd)
        pushLoopWith heap line n (startInd - 1) true p
    else pushLoopWith heap line n endInd false p

/-- `push_command` up to the last word (`process.c:76-109`). -/
def pushWordsWith (heap : HeapAnswers) (line : CString) (p : Push) : Except Push Push := do
  let totLen : Int := line.bytes.length
  let (endInd, p) ← pushLoopWith heap line (totLen - 1).toNat (totLen - 1) false p
  let startInd := min (totLen - 1) 0
  let endInd := endInd + 1
  p.pushWordWith heap line startInd (endInd - startInd)

/-- `push_command` (`process.c:73-136`), or the state in which the kernel stops. -/
def pushCommandWith (heap : HeapAnswers) (line : CString) (esp : Int) (mem : Mem) :
    Except Push Push := do
  let base := esp - esp % 4
  let p ← pushWordsWith heap line { esp := base, mem := mem, offsets := [], accesses := [] }
  pure (pushTable base p)

/-- The state in which `push_command` returns or the kernel stops. -/
def finalPush : Except Push Push → Push
  | .ok p => p
  | .error p => p

/-! ## What `main` reads -/

/-- A user program reads `args` as its arguments: `argc` at `esp + 4`, `argv` at `esp + 8`, the
NUL-terminated string `argv[i]` for each `i < argc`, and the null pointer `argv[argc]`. -/
structure MainReads (mem : Mem) (esp : Int) (args : List (List UInt8)) : Prop where
  argc : loadWord mem (esp + 4) = args.length
  argv : ∀ i (h : i < args.length),
    Holds mem (loadWord mem (loadWord mem (esp + 8) + 4 * i)) (args[i] ++ [0])
  null : loadWord mem (loadWord mem (esp + 8) + 4 * args.length) = 0

end CSE130.Userprog
