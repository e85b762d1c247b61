import CSE130.Library.Run
import CSE130.MergeSort.Task

/-!
# Merge sort with processes

Rendering of the two versions of `multiProcessMergeSort` (`Assignment1/psort.c`, `usort.c`) as a parent
process and a child process that take their steps in any order. Each of them has its own copy of the
array; the segment at `shmem` is the same one for both. The loops of the source are unrolled. The
calls that set up the segment and the child are taken to succeed. Indices and sizes are exact numbers
here, where the source has `int`s; `MergeSort.SegmentBounds` says for which ranges they fit.
-/

namespace CSE130.MergeSort.Processes

open Library

/-- The arrays that the program sorts. -/
inductive Target where
  | arr
  | shmem
  deriving DecidableEq, Repr

inductive Instr where
  /-- `mmap` of this many bytes, or `shmget` and `shmat`. -/
  | map (bytes : Int)
  /-- `shmem[i] = arr[j]`. -/
  | store (i j : Int)
  /-- `arr[i] = shmem[j]`. -/
  | load (i j : Int)
  /-- `fork ()`; the child sorts `left .. right` of `shmem`, detaches it and exits. -/
  | fork (left right : Int)
  | sort (target : Target) (left right : Int)
  | wait
  | merge (l m r : Int)
  /-- `munmap`, or `shmdt`. -/
  | unmap
  deriving DecidableEq, Repr

/-- The branch of the child (`psort.c:56-60`, `usort.c:57-61`). -/
def childBranch (left right : Int) : List Instr := [.sort .shmem left right, .unmap]

/-- The part that the two versions share (`psort.c:48-70`, `usort.c:47-71`). The `int`s of the source
are taken to fit. -/
def sortInHalves (left right : Int) : List Instr :=
  let relLeft := 0
  let relMid := (left + right).tdiv 2 - left + 1
  let relRight := 1 + (right - left)
  let mid := (left + right).tdiv 2
  [Instr.map ((4 * (1 + (right - left))).tdiv 2)] ++
    (List.range relMid.toNat).map (fun i : Nat => Instr.store i (i + left)) ++
    [Instr.fork relLeft (relMid - 1), .sort .arr (left + relMid) (left + relRight - 1), .wait] ++
    (List.range relMid.toNat).map (fun i : Nat => Instr.load (i + left) i) ++
    [Instr.merge left mid right, .unmap]

/-- The functions that sort with processes. -/
inductive Version where
  | psort
  | usort
  | singleProcess
  deriving DecidableEq, Repr

/-- `multiProcessMergeSort` of `psort.c:42-74` and `usort.c:40-74`, and `singleProcessMergeSort`. -/
def Version.body (left right : Int) : Version → List Instr
  | psort => sortInHalves left right
  | usort => if right - left ≤ 0 then [] else sortInHalves left right
  | singleProcess => [.sort .arr left right]

/-- The system maps whole pages. -/
def pageSize : Int := 4096

def roundUp (bytes : Int) : Int := (bytes + pageSize - 1) / pageSize * pageSize

/-- The ints `l .. r` are in the segment of this many bytes; `none` where there is no segment. -/
def inSegment : Option Int → Int → Int → Bool
  | none, _, _ => false
  | some bytes, l, r => decide (0 ≤ l ∧ 4 * (r + 1) ≤ bytes)

/-- A process: `stack` is what it is inside of, for the array `target`, and `prog` what it does
afterwards. -/
structure Process (code : MergeCode) where
  arr : Arr
  segment : Option Int
  prog : List Instr
  target : Target
  stack : List (Frame code)

structure State (code : MergeCode) where
  shmem : Arr
  parent : Process code
  child : Option (Process code)

/-- The process that takes a step. -/
inductive Actor where
  | parent
  | child
  deriving DecidableEq, Repr

/-- Why a process takes no step. -/
inductive NoStep where
  | waits
  | ended
  /-- It leaves the segment. -/
  | fault
  deriving DecidableEq, Repr

variable {code : MergeCode}

namespace Process

/-- The process has returned or exited. -/
def Ended (p : Process code) : Prop := p.prog = [] ∧ p.stack = []

instance (p : Process code) : Decidable p.Ended :=
  decidable_of_iff (p.prog.isEmpty = true ∧ p.stack.isEmpty = true) (by simp [Ended])

/-- The `merge` that the process is inside of stays in its array. -/
def reaches (p : Process code) : Bool :=
  match p.target, p.stack with
  | .shmem, .merging l _ r _ :: _ => inSegment p.segment l r
  | _, _ => true

/-- A step inside a sort or a merge, if there is one. -/
def task (p : Process code) (shmem : Arr) : Option (Process code × Arr) :=
  match p.target with
  | .arr => (taskStep p.stack p.arr).map fun (st, a) => ({ p with stack := st, arr := a }, shmem)
  | .shmem => (taskStep p.stack shmem).map fun (st, a) => ({ p with stack := st }, a)

/-- The next instruction, if it concerns this process alone. -/
def instrStep (p : Process code) (shmem : Arr) : Except NoStep (Process code × Arr) :=
  match p.prog with
  | .map bytes :: prog => .ok ({ p with segment := some (roundUp bytes), prog := prog }, shmem)
  | .store i j :: prog =>
    if inSegment p.segment i i then
      .ok ({ p with prog := prog }, Function.update shmem i (p.arr j))
    else .error .fault
  | .load i j :: prog =>
    if inSegment p.segment j j then
      .ok ({ p with arr := Function.update p.arr i (shmem j), prog := prog }, shmem)
    else .error .fault
  | .sort target left right :: prog =>
    .ok ({ p with target := target, stack := [.sort left right], prog := prog }, shmem)
  | .merge l m r :: prog =>
    .ok ({ p with target := .arr, stack := [.merge l m r], prog := prog }, shmem)
  | .unmap :: prog => .ok ({ p with segment := none, prog := prog }, shmem)
  | _ => .error .ended

/-- A step that concerns this process alone. -/
def step (p : Process code) (shmem : Arr) : Except NoStep (Process code × Arr) :=
  if p.reaches then
    match p.task shmem with
    | some next => .ok next
    | none => p.instrStep shmem
  else .error .fault

end Process

namespace State

/-- The function is called in a process that has no child. -/
def start (code : MergeCode) (version : Version) (arr : Arr) (left right : Int) : State code where
  shmem _ := 0
  parent :=
    { arr := arr, segment := none, prog := version.body left right, target := .arr, stack := [] }
  child := none

/-- A step of one of the processes. -/
def step (s : State code) : Actor → Except NoStep (State code)
  | .parent =>
    match s.parent.stack, s.parent.prog with
    | [], .fork left right :: prog =>
      .ok { s with
        parent := { s.parent with prog := prog }
        child := some { s.parent with prog := childBranch left right } }
    | [], .wait :: prog =>
      if ∀ c ∈ s.child, c.Ended then .ok { s with parent := { s.parent with prog := prog } }
      else .error .waits
    | _, _ => do
      let (p, shmem) ← s.parent.step s.shmem
      pure { s with parent := p, shmem := shmem }
  | .child =>
    match s.child with
    | none => .error .ended
    | some c => do
      let (c, shmem) ← c.step s.shmem
      pure { s with child := some c, shmem := shmem }

/-- The function has returned. -/
def Finished (s : State code) : Prop := s.parent.Ended

end State

/-- The states that a call of the function can be in. -/
abbrev ProcReachable (code : MergeCode) (version : Version) (arr : Arr) (left right : Int) :
    State code → Prop :=
  Reachable State.step (fun _ _ => True) (State.start code version arr left right)

end CSE130.MergeSort.Processes
