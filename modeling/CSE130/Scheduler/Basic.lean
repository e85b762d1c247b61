import CSE130.Library.Run
import CSE130.Pager.Basic

/-!
# The scheduler of Assignment 4

Rendering of `Assignment4/scheduler.c`: a set of callbacks that the simulator calls, and that call
`sim_dispatch` in return. The `times` records live in a store and are passed by reference, as in the
source. `malloc` succeeds. Queues are lists with the head first, and `queue_sort` is a parameter, as
for the pager.
-/

namespace CSE130.Scheduler

open Pager (toInt32 Consistent)

/-- `enum algorithm` (`simulator.h`). -/
inductive Algorithm where
  | firstComeFirstServed
  | roundRobin
  | nonPreemptivePriority
  | preemptivePriority
  | nonPreemptiveShortestJobFirst
  | preemptiveShortestJobFirst
  | nonPreemptiveShortestRemainingTimeFirst
  | preemptiveShortestRemainingTimeFirst
  deriving DecidableEq, Repr

/-- `thread_t`, by its identity and the member that the callbacks read. -/
structure Thread where
  tid : UInt32
  priority : UInt32
  deriving DecidableEq, Repr

/-- `struct times`. -/
structure Times where
  t : Thread
  runningTime : Int
  waitingTime : Int
  lastOn : Int
  begTime : Int
  deriving DecidableEq, Repr

/-- `times *`, less `NULL`. -/
abbrev Ref := Nat

/-- The only way in which a callback can fail. -/
inductive Fault where
  | nullPointer
  deriving DecidableEq, Repr

/-- The callbacks of `scheduler.h`. -/
inductive Callback where
  | sysExec (t : Thread)
  | tick
  | sysExit (t : Thread)
  | sysRead (t : Thread)
  | sysWrite (t : Thread)
  | ioComplete (t : Thread)
  | ioStarting (t : Thread)
  deriving DecidableEq, Repr

/-- What happens in a run: the callbacks with the threads that they name, the threads that are
enqueued on `ready_queue`, and the calls of `sim_dispatch` with the threads that are in
`ready_queue` at that moment. A call of `tick` is noted when it returns, with the threads that were
in `ready_queue` when it was made. -/
inductive Event where
  | exec (t : Thread)
  | exit (t : Thread)
  | request (t : Thread)
  | starting (t : Thread)
  | complete (t : Thread)
  | ready (t : Thread)
  | dispatch (t : Thread) (ready : List Thread)
  | ticked (ready : List Thread)
  deriving DecidableEq, Repr

/-- The global variables of `scheduler.c`, the store of the records, and the events so far, the
newest first. -/
structure State where
  store : Ref → Times
  fresh : Ref
  readyQueue : List Ref
  ioQueue : List Ref
  doneQueue : List Ref
  curT : Option Ref
  ioT : Option Ref
  ticks : Int
  lastOnTotal : Int
  alg : Algorithm
  quant : Int
  trace : List Event

/-- `queue_sort` for a queue of references, as `queue.h` documents it. -/
structure QueueSort where
  sort : (Ref → Ref → Int) → List Ref → List Ref
  perm : ∀ cmp q, (sort cmp q).Perm q
  sorted : ∀ cmp q, Consistent cmp q → (sort cmp q).Pairwise fun a b => cmp a b ≤ 0

/-- Insertion sort is such a `queue_sort`. -/
def insertionQueueSort : QueueSort where
  sort := Pager.insertionSorted
  perm := Pager.insertionSorted_perm
  sorted _ _ h := Pager.insertionSorted_pairwise h

/-- `scheduler` (`scheduler.c:52-59`), on the initial values of the variables. `quantum` is an `unsigned int`,
`quant` an `int`. -/
def scheduler (algorithm : Algorithm) (quantum : UInt32) : State where
  store := fun _ => { t := ⟨0, 0⟩, runningTime := 0, waitingTime := 0, lastOn := 0, begTime := 0 }
  fresh := 0
  readyQueue := []
  ioQueue := []
  doneQueue := []
  curT := none
  ioT := none
  ticks := 0
  lastOnTotal := 0
  alg := algorithm
  quant := toInt32 quantum.toNat
  trace := []

namespace State

/-- `r->t`. -/
def thread (s : State) (r : Ref) : Thread := (s.store r).t

/-- Notes an event. -/
def note (s : State) (e : Event) : State := { s with trace := e :: s.trace }

/-- Assigns to members of a record. -/
def modify (s : State) (r : Ref) (f : Times → Times) : State :=
  { s with store := Function.update s.store r (f (s.store r)) }

/-- `r->last_on = ticks`. -/
def stamp (s : State) (r : Ref) : State := s.modify r fun x => { x with lastOn := s.ticks }

/-- `queue_enqueue(ready_queue, r)`. -/
def enqueueReady (s : State) (r : Ref) : State :=
  { s with readyQueue := s.readyQueue ++ [r] }.note (.ready (s.thread r))

/-- `sim_dispatch(r->t)`. -/
def simDispatch (s : State) (r : Ref) : State :=
  s.note (.dispatch (s.thread r) (s.readyQueue.map s.thread))

/-- What is done wherever a record `r` that was waiting in `ready_queue` has been assigned to
`cur_t`: `cur_t->waiting_time += ticks-cur_t->last_on; cur_t->last_on = ticks;
sim_dispatch(cur_t->t)`. -/
def resume (s : State) (r : Ref) : State :=
  let s := { s with curT := some r }
  let s := s.modify r fun x => { x with waitingTime := toInt32 (x.waitingTime + (s.ticks - x.lastOn)) }
  (s.stamp r).simDispatch r

/-- `malloc` of a record and the assignments to its members in `sys_exec`. -/
def alloc (s : State) (t : Thread) : State :=
  { s with
    store := Function.update s.store s.fresh
      { t := t, runningTime := 0, waitingTime := 0, lastOn := s.ticks, begTime := s.ticks }
    fresh := s.fresh + 1 }

end State

/-- The record behind a pointer that is dereferenced. -/
def deref : Option Ref → Except Fault Ref
  | some r => .ok r
  | none => .error .nullPointer

/-- `sort_priority` (`scheduler.c:47-49`): the difference is taken in `unsigned int` and read back as
`int`. -/
def sortPriority (s : State) (a b : Ref) : Int :=
  toInt32 ((s.thread a).priority.toNat - (s.thread b).priority.toNat)

/-- `queue_sort(ready_queue, sort_priority)`. -/
def sortReady (lib : QueueSort) (s : State) : State :=
  { s with readyQueue := lib.sort (sortPriority s) s.readyQueue }

/-- The part of `priority_sort` that compares the head of `ready_queue` with `cur_t`
(`scheduler.c:65-74`). -/
def preemptByHead (s : State) : State :=
  match s.curT, s.readyQueue with
  | some c, h :: rest =>
    if (s.thread h).priority < (s.thread c).priority then
      (({ s with readyQueue := rest }.enqueueReady c).stamp c).resume h
    else s
  | _, _ => s

/-- `priority_sort(ready_queue)` (`scheduler.c:62-75`). -/
def prioritySort (lib : QueueSort) (s : State) : State :=
  let s := sortReady lib s
  if s.alg = .preemptivePriority then preemptByHead s else s

/-- `sys_exec` (`scheduler.c:79-100`). -/
def sysExec (s : State) (t : Thread) : State :=
  let s := s.note (.exec t)
  let ti := s.fresh
  if s.readyQueue = [] ∧ s.curT = none ∧ s.alg ≠ .nonPreemptivePriority ∧
      s.alg ≠ .preemptivePriority then
    { s.alloc t with curT := some ti }.simDispatch ti
  else
    (s.alloc t).enqueueReady ti

/-- `cur_t = queue_dequeue(ready_queue)` on an idle CPU, and what `tick` does with the result
(`scheduler.c:113-118`). -/
def dequeueIdle (s : State) : State :=
  match s.readyQueue with
  | [] => s
  | r :: rest => { s with readyQueue := rest, lastOnTotal := 0 }.resume r

/-- The part of `tick` that ends the slice of `c` (`scheduler.c:119-127`). -/
def tickRotate (s : State) (c : Ref) : State :=
  if s.alg = .roundRobin ∧ s.quant ≤ s.lastOnTotal ∧ s.readyQueue ≠ [] then
    let s := (s.stamp c).enqueueReady c
    match s.readyQueue with
    | [] => s
    | r :: rest => { { s with readyQueue := rest }.resume r with lastOnTotal := 0 }
  else s

/-- The end of `tick` (`scheduler.c:128-132`). -/
def tickCount (s : State) : State :=
  let s :=
    if s.curT ≠ none then { s with lastOnTotal := toInt32 (s.lastOnTotal + 1) }
    else if s.lastOnTotal = s.quant then { s with lastOnTotal := 0 }
    else s
  { s with ticks := toInt32 (s.ticks + 1) }

/-- `tick` (`scheduler.c:107-133`). -/
def tick (lib : QueueSort) (s : State) : State :=
  let ready := s.readyQueue.map s.thread
  let s := if s.alg = .preemptivePriority then prioritySort lib s else s
  let s := match s.curT with
    | none => dequeueIdle (if s.alg = .nonPreemptivePriority then prioritySort lib s else s)
    | some c => tickRotate s c
  (tickCount s).note (.ticked ready)

/-- `sys_exit` (`scheduler.c:138-142`). -/
def sysExit (s : State) (t : Thread) : Except Fault State := do
  let s := s.note (.exit t)
  let c ← deref s.curT
  let s := s.modify c fun x => { x with runningTime := toInt32 (s.ticks - x.begTime) }
  pure { s with doneQueue := s.doneQueue ++ [c], curT := none }

/-- `sys_read` (`scheduler.c:149-159`). -/
def sysRead (s : State) (t : Thread) : Except Fault State := do
  let s := s.note (.request t)
  let c ← deref s.curT
  let s :=
    if s.ioQueue = [] ∧ s.ioT = none then { s with ioT := some c }.stamp c
    else { s.stamp c with ioQueue := s.ioQueue ++ [c] }
  pure { s with curT := none }

/-- `sys_write` (`scheduler.c:166-176`), which stamps the record after it has been enqueued. -/
def sysWrite (s : State) (t : Thread) : Except Fault State := do
  let s := s.note (.request t)
  let c ← deref s.curT
  let s :=
    if s.ioQueue = [] ∧ s.ioT = none then { s with ioT := some c }.stamp c
    else { s with ioQueue := s.ioQueue ++ [c] }.stamp c
  pure { s with curT := none }

/-- `io_complete` (`scheduler.c:182-194`). -/
def ioComplete (s : State) (t : Thread) : Except Fault State := do
  let s := s.note (.complete t)
  let i ← deref s.ioT
  let s := (s.stamp i).enqueueReady i
  let s := { s with ioT := s.ioQueue.head?, ioQueue := s.ioQueue.tail }
  if s.curT = none then
    match s.readyQueue with
    | [] => pure s
    | r :: rest => pure ({ s with readyQueue := rest }.resume r)
  else pure s

/-- `io_starting` (`scheduler.c:200-205`). The second sum adds the difference of `ticks` and
itself. -/
def ioStarting (s : State) (t : Thread) : Except Fault State := do
  let s := s.note (.starting t)
  let i ← deref s.ioT
  let s := s.modify i fun x =>
    { x with waitingTime := toInt32 (x.waitingTime + (s.ticks - 1 - x.lastOn)) }
  let s := s.stamp i
  let s := s.modify i fun x => { x with waitingTime := toInt32 (x.waitingTime + (s.ticks - x.lastOn)) }
  pure (s.stamp i)

/-- One callback. -/
def step (lib : QueueSort) (s : State) : Callback → Except Fault State
  | .sysExec t => .ok (sysExec s t)
  | .tick => .ok (tick lib s)
  | .sysExit t => sysExit s t
  | .sysRead t => sysRead s t
  | .sysWrite t => sysWrite s t
  | .ioComplete t => ioComplete s t
  | .ioStarting t => ioStarting s t

end CSE130.Scheduler
