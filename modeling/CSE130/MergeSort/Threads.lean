import CSE130.Library.Run
import CSE130.MergeSort.Task

/-!
# Merge sort with threads

Rendering of `multiThreadedMergeSort`, `Test` and `Test2` (`Assignment2/sort.c`) as four threads that
take their steps in any order. The calling thread runs through a list of instructions, in which the
loops of the source are unrolled; a helper thread reads its argument when it starts.
-/

namespace CSE130.MergeSort

open Library

/-- `struct sort_struct`; its member `arr` is always the one array. -/
structure SortStruct where
  left : Int
  right : Int
  deriving DecidableEq, Repr

/-- The function of a helper thread. -/
inductive Routine where
  | test
  | test2
  deriving DecidableEq, Repr

/-- What a helper thread calls (`sort.c:35-46`). -/
def Routine.body {code : MergeCode} (v : SortStruct) : Routine → List (Frame code)
  | test => [.sort v.left v.right]
  | test2 => [.merge v.left ((v.left + v.right).tdiv 2) v.right]

/-- The thread `threads[i]`. -/
inductive Helper (code : MergeCode) where
  | absent
  /-- It has not read its argument yet. -/
  | created (fn : Routine)
  /-- It has these calls to make, or has returned. -/
  | running (st : List (Frame code))

/-- What the calling thread does. -/
inductive Instr where
  | setStruct (i : Fin 3) (v : SortStruct)
  /-- `pthread_create (&threads[i], NULL, fn, &structs[i])`. -/
  | create (i : Fin 3) (fn : Routine)
  | sort (left right : Int)
  | merge (l m r : Int)
  /-- `pthread_join (threads[i], NULL)`. -/
  | join (i : Fin 3)
  deriving DecidableEq, Repr

/-- `multiThreadedMergeSort` (`sort.c:48-73`). -/
def multiThreadedMergeSort (left right : Int) : List Instr :=
  if right - left ≤ 4 then [.sort left right]
  else
    let baseNum := (right - left).tdiv 4
    let start (i : Fin 3) : List Instr :=
      [.setStruct i { left := left + i * baseNum + i, right := left + (i + 1) * baseNum + i },
        .create i .test]
    start 0 ++ start 1 ++ start 2 ++
      [Instr.sort (left + 3 * baseNum + 3) right, .join 0, .join 1, .join 2,
        .setStruct 0 { left := left, right := left + 2 * baseNum + 1 }, .create 0 .test2,
        .merge (left + baseNum * 2 + 2) (left + baseNum * 3 + 2) right, .join 0,
        .merge left (left + 2 * baseNum + 1) right]

/-- The state of the program: `stack` is what the calling thread is inside of, `prog` what it does
afterwards. -/
structure State (code : MergeCode) where
  arr : Arr
  structs : Fin 3 → SortStruct
  helper : Fin 3 → Helper code
  prog : List Instr
  stack : List (Frame code)

/-- The thread that takes a step. -/
inductive Actor where
  | main
  | helper (i : Fin 3)
  deriving DecidableEq, Repr

/-- Why a thread takes no step. -/
inductive NoStep where
  | waits
  | ended
  deriving DecidableEq, Repr

namespace State

variable {code : MergeCode}

/-- `multiThreadedMergeSort (arr, left, right)` is called. -/
def start (code : MergeCode) (arr : Arr) (left right : Int) : State code where
  arr := arr
  structs _ := { left := 0, right := 0 }
  helper _ := .absent
  prog := multiThreadedMergeSort left right
  stack := []

/-- The next instruction of the calling thread. -/
def instrStep (s : State code) : Except NoStep (State code) :=
  match s.prog with
  | [] => .error .ended
  | .setStruct i v :: prog =>
    .ok { s with structs := Function.update s.structs i v, prog := prog }
  | .create i fn :: prog =>
    .ok { s with helper := Function.update s.helper i (.created fn), prog := prog }
  | .sort left right :: prog => .ok { s with stack := [.sort left right], prog := prog }
  | .merge l m r :: prog => .ok { s with stack := [.merge l m r], prog := prog }
  | .join i :: prog =>
    match s.helper i with
    | .running [] => .ok { s with prog := prog }
    | _ => .error .waits

/-- A step of one of the threads. -/
def step (s : State code) : Actor → Except NoStep (State code)
  | .main =>
    match taskStep s.stack s.arr with
    | some (st, arr) => .ok { s with stack := st, arr := arr }
    | none => s.instrStep
  | .helper i =>
    match s.helper i with
    | .absent => .error .ended
    | .created fn =>
      .ok { s with helper := Function.update s.helper i (.running (fn.body (s.structs i))) }
    | .running st =>
      match taskStep st s.arr with
      | some (st, arr) =>
        .ok { s with helper := Function.update s.helper i (.running st), arr := arr }
      | none => .error .ended

variable {s : State code} {i : Fin 3} {fn : Routine} {st st' : List (Frame code)} {arr : Arr}

theorem step_main_task (h : taskStep s.stack s.arr = some (st, arr)) :
    s.step .main = .ok { s with stack := st, arr := arr } := by
  rw [step, h]

theorem step_main_instr (h : taskStep s.stack s.arr = none) : s.step .main = s.instrStep := by
  rw [step, h]

theorem step_created (h : s.helper i = .created fn) : s.step (.helper i) =
    .ok { s with helper := Function.update s.helper i (.running (fn.body (s.structs i))) } := by
  simp only [step, h]

theorem step_running (h : s.helper i = .running st) (hst : taskStep st s.arr = some (st', arr)) :
    s.step (.helper i) =
      .ok { s with helper := Function.update s.helper i (.running st'), arr := arr } := by
  simp only [step, h, hst]

theorem instrStep_join {prog : List Instr} (h : s.prog = .join i :: prog)
    (hdone : s.helper i = .running []) : s.instrStep = .ok { s with prog := prog } := by
  simp only [instrStep, h, hdone]

/-- `multiThreadedMergeSort` has returned. -/
def Finished (s : State code) : Prop := s.prog = [] ∧ s.stack = []

/-- The calls that a thread has to make. -/
def calls (s : State code) : Actor → List (Frame code)
  | .main => s.stack
  | .helper i =>
    match s.helper i with
    | .absent => []
    | .created fn => fn.body (s.structs i)
    | .running st => st

/-- The index is in the range of a call that the thread has to make. -/
def Handles (s : State code) (t : Actor) (x : Int) : Prop := ∃ f ∈ s.calls t, f.lo ≤ x ∧ x ≤ f.hi

/-- The threads work on disjoint parts of `left .. right`, and every `merge` that is about to be
called gets two adjacent ranges that are sorted. -/
structure Safe (left right : Int) (s : State code) : Prop where
  inside : ∀ t x, s.Handles t x → left ≤ x ∧ x ≤ right
  disjoint : ∀ t u x, t ≠ u → s.Handles t x → ¬ s.Handles u x
  merges : ∀ t l m r rest, s.calls t = .merge l m r :: rest → CanMerge s.arr l m r

end State

/-- The states that a call of `multiThreadedMergeSort` can be in. -/
abbrev SortReachable (code : MergeCode) (arr : Arr) (left right : Int) : State code → Prop :=
  Reachable State.step (fun _ _ => True) (State.start code arr left right)

end CSE130.MergeSort
