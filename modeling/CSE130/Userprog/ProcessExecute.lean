import CSE130.Library.Run
import CSE130.Userprog.PushCommand

/-!
# Starting a process of Lab 3

Rendering of `process_execute` and `start_process` (`userprog/process.c`) as a parent and a child that
take their steps in any order. What `palloc_get_page`, `thread_create`, `elf_load`, `malloc` and
`calloc` answer is given from outside. A process that runs does not touch the copies of its command
line any more.
-/

namespace CSE130.Userprog

open Library

/-- A page of the kernel pool. -/
abbrev Page := Nat

/-- The answers that one execution gets: the three pages (`none` for `NULL`), the result of
`thread_create` (`none` for `TID_ERROR`), that of `elf_load`, and what `push_command` gets from the
heap. -/
structure Outcomes where
  copyPage : Option Page
  linePage : Option Page
  namePage : Option Page
  created : Option Nat
  loaded : Bool
  heap : HeapAnswers

/-- Where the parent is in `process_execute`. -/
inductive ParentAt where
  | copyPage
  | linePage
  | namePage
  | threadCreate
  | semaphoreDown (tid : Option Nat)
  | returned (tid : Option Nat)
  | panicked
  deriving DecidableEq, Repr

/-- Where the child is in `start_process`. It is `stopped` where the kernel panics in `push_command`. -/
inductive ChildAt where
  | absent
  | elfLoad
  | freePage
  | semaphoreUp
  | finished
  | stopped
  deriving DecidableEq, Repr

/-- An execution: the two threads, the value of the semaphore `s`, the pages that are taken from the
kernel pool, and the accesses so far, the newest first. -/
structure Execution where
  parent : ParentAt
  child : ChildAt
  sema : Nat
  taken : List Page
  accesses : List Access

/-- The thread that takes a step. -/
inductive Actor where
  | parent
  | child
  deriving DecidableEq, Repr

/-- Why a thread takes no step. -/
inductive NoStep where
  | waits
  | ended
  deriving DecidableEq, Repr

/-- What `strlcpy` leaves of a string in a buffer of `size` bytes (`lib/string.c:325-343`). -/
def strlcpy (line : CString) (size : Nat) : CString where
  bytes := line.bytes.take (size - 1)
  noNul h := line.noNul (List.mem_of_mem_take h)

/-- The writes of `strlcpy` to a page. -/
def strlcpyAccesses (line : CString) : List Access :=
  [.page (strlcpy line pgsize).bytes.length 1, .page 0 (strlcpy line pgsize).bytes.length]

/-- `x` after the loop of `process_execute` (`process.c:195-197`): the index of the first space, or
else the length of the line. -/
def nameLength (line : CString) : Nat := (line.bytes.takeWhile (· ≠ space)).length

/-- `memcpy (cmd_no_args, cmdline, x)` and `cmd_no_args[x-1] = 0` (`process.c:198-200`). -/
def nameAccesses (line : CString) : List Access :=
  let x : Int := nameLength line + 1
  [.page (x - 1) 1, .page 0 x]

namespace Execution

/-- `process_execute` is called. -/
def start (pool : List Page) : Execution where
  parent := .copyPage
  child := .absent
  sema := 0
  taken := pool
  accesses := []

/-- A step of `process_execute` (`process.c:176-213`). -/
def parentStep (line : CString) (o : Outcomes) (s : Execution) : Except NoStep Execution :=
  match s.parent with
  | .copyPage =>
    match o.copyPage with
    | none => .ok { s with parent := .returned none }
    | some page => .ok { s with
        parent := .linePage
        taken := page :: s.taken
        accesses := strlcpyAccesses line ++ s.accesses }
  | .linePage =>
    match o.linePage with
    | none => .ok { s with parent := .returned none }
    | some page => .ok { s with
        parent := .namePage
        taken := page :: s.taken
        accesses := strlcpyAccesses line ++ s.accesses }
  | .namePage =>
    -- the result is not compared with `NULL`, and `memcpy` asserts that its destination is not
    match o.namePage with
    | none => .ok { s with parent := .panicked }
    | some page => .ok { s with
        parent := .threadCreate
        taken := page :: s.taken
        accesses := nameAccesses line ++ s.accesses }
  | .threadCreate =>
    match o.created with
    | none => .ok { s with parent := .semaphoreDown none }
    | some tid => .ok { s with parent := .semaphoreDown (some tid), child := .elfLoad }
  | .semaphoreDown tid =>
    if s.sema = 0 then .error .waits
    else .ok { s with parent := .returned tid, sema := s.sema - 1 }
  | .returned _ | .panicked => .error .ended

/-- The call of `push_command` in `start_process` (`process.c:152-153`), with where the child is after
it. The stack page is zero after `elf_load`. -/
def pushArguments (line : CString) (o : Outcomes) : ChildAt × List Access :=
  if o.loaded then
    match pushCommandWith o.heap (strlcpy line pgsize) physBase fun _ => 0 with
    | .ok p => (.freePage, p.accesses)
    | .error p => (.stopped, p.accesses)
  else (.freePage, [])

/-- A step of `start_process` (`process.c:143-168`). -/
def childStep (line : CString) (o : Outcomes) (s : Execution) : Except NoStep Execution :=
  match s.child with
  | .absent => .error .waits
  | .elfLoad =>
    let (next, accesses) := pushArguments line o
    .ok { s with child := next, accesses := accesses ++ s.accesses }
  | .freePage =>
    match o.namePage with
    | none => .ok { s with child := .semaphoreUp }
    | some page => .ok { s with child := .semaphoreUp, taken := s.taken.erase page }
  | .semaphoreUp => .ok { s with child := .finished, sema := s.sema + 1 }
  | .finished | .stopped => .error .ended

/-- A step of one of the two threads. -/
def step (line : CString) (o : Outcomes) (s : Execution) : Actor → Except NoStep Execution
  | .parent => s.parentStep line o
  | .child => s.childStep line o

end Execution

/-- The states that an execution can be in. -/
abbrev ExecReachable (line : CString) (o : Outcomes) (pool : List Page) : Execution → Prop :=
  Reachable (Execution.step line o) (fun _ _ => True) (Execution.start pool)

end CSE130.Userprog
