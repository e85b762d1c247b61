import CSE130.Library.InsertBefore
import CSE130.Library.Run
import Mathlib.Algebra.Ring.Int.Defs
import Mathlib.Algebra.Ring.Nat

/-!
# Threads and the scheduler

Rendering of `threads/thread.c` and of the interrupt level of `threads/interrupt.c`, for Lab 1 and
Lab 2, which differ in the order of the ready list and in preemption. A thread carries on its
stack the actions that are still to be executed of the calls it is inside. The scheduler switches
threads in the middle of a call; what the call does after the switch is then an action on the
stack of the thread that was switched from.
-/

namespace CSE130.Pintos

open CSE130.Library

/-- The lab whose version of the kernel is meant. -/
inductive Lab where
  | lab1
  | lab2
  deriving DecidableEq, Repr

/-- A thread is named by the page of its `struct thread`. -/
abbrev Tid := Nat

/-- `enum thread_status` (`thread.h`). -/
inductive ThreadStatus where
  | running
  | ready
  | blocked
  | dying
  deriving DecidableEq, Repr

/-- `enum intr_level` (`interrupt.h`). -/
inductive IntrLevel where
  | off
  | on
  deriving DecidableEq, Repr

/-- The locks: `tid_lock` of `thread.c` and the locks of the threads' own code. -/
inductive LockId where
  | tidLock
  | user (n : Nat)
  deriving DecidableEq, Repr

/-- A condition variable, together with the one lock it is used with. -/
structure CondId where
  lock : Nat
  index : Nat
  deriving DecidableEq, Repr

/-- The semaphores: the one of `thread_start`, those of the threads' own code, the one inside each
lock, and the private one of thread `t` in `condvar_wait` on `c`. -/
inductive SemaId where
  | idleStarted
  | user (n : Nat)
  | lock (l : LockId)
  | waiter (t : Tid) (c : CondId)
  deriving DecidableEq, Repr

/-- The addresses of the list elements of `timer_list`: its head, its tail, and the member
`timer_elem` of each thread. -/
inductive Elem where
  | head
  | tail
  | thread (t : Tid)
  deriving DecidableEq, Repr

/-- The function that a new thread runs. -/
inductive ThreadFunction where
  | idle
  | user
  deriving DecidableEq, Repr

/-- What a thread does without an interrupt or another thread coming in between. -/
inductive Action where
  /-- `intr_set_level (level)`, also as `intr_enable` and `intr_disable`. -/
  | intrSetLevel (level : IntrLevel)
  /-- The return from an interrupt that came with interrupts enabled. -/
  | iret
  /-- `ASSERT (!intr_context ())`. -/
  | contextCheck
  /-- `thread_create` up to `init_thread`, with the page that `palloc_get_page` finds. -/
  | threadCreate (t : Tid) (priority : Int) (function : ThreadFunction)
  | threadUnblock (t : Tid)
  /-- The call `thread_unblock (t)` at the end of `thread_create`. -/
  | createUnblock (t : Tid)
  /-- `thread_block`, called with interrupts disabled for it. -/
  | threadBlock
  /-- The return from that `thread_block`. -/
  | threadBlockReturn (old : IntrLevel)
  | threadYield
  | threadExit
  /-- `thread_current ()->priority = new_priority` in `thread_set_priority`. -/
  | storePriority (priority : Int)
  /-- `idle_thread = thread_current ()` in `idle`. -/
  | idleStart
  /-- The loop of `idle`. -/
  | idleLoop
  | semaphoreInit (s : SemaId) (value : Nat)
  | semaphoreDown (s : SemaId)
  /-- The loop of `semaphore_down` after `thread_block` has returned. -/
  | semaphoreRetest (s : SemaId) (old : IntrLevel)
  | semaphoreUp (s : SemaId)
  /-- `ASSERT (!lock_held_by_current_thread (lock))` in `lock_acquire`. -/
  | notHeldCheck (l : LockId)
  /-- `lock->holder = thread_current ()`. -/
  | setHolder (l : LockId)
  /-- `ASSERT (lock_held_by_current_thread (lock))`. -/
  | heldCheck (l : LockId)
  /-- `lock->holder = NULL`. -/
  | clearHolder (l : LockId)
  /-- The loop of `condvar_wait`: its start, its test of one element, its step to the next. -/
  | waitScan (c : CondId)
  | waitInspect (c : CondId) (el : Option Tid)
  | waitNext (c : CondId) (el : Tid)
  /-- `list_insert (end, &waiter.sharedelem)` in `condvar_wait`. -/
  | waitLink (c : CondId) (before : Option Tid)
  /-- The end of `condvar_wait`. -/
  | waitReturn (c : CondId)
  /-- The body of `condvar_signal` after its assertions. -/
  | signalWaiter (c : CondId)
  /-- The loop of `condvar_broadcast`. -/
  | broadcast (c : CondId)
  /-- `timer_sleep` up to its test of `ticks`. -/
  | sleepStart (ticks : Int)
  /-- `cur_thread->wake_up_tick = total_ticks`. -/
  | sleepStore (total : Int)
  /-- The start of the scan of `timer_list`. -/
  | sleepScan (total : Int)
  /-- The outer loop at `x`: its test, and its step to the next element. -/
  | sleepOuter (total : Int) (x : Elem)
  | sleepOuterNext (total : Int) (x : Elem)
  /-- The inner loop at `x`: its test, and its step to the next element. -/
  | sleepInner (x : Elem)
  | sleepInnerNext (x : Elem)
  /-- `list_insert (insert_elem, &cur_thread->timer_elem)`. -/
  | sleepLink (before : Elem)
  /-- `intr_disable ()` at the end of `timer_sleep`. -/
  | sleepDisable
  /-- `thread_block ()` at the end of `timer_sleep`. -/
  | sleepBlock
  /-- The return from that `thread_block`. -/
  | sleepReturn
  deriving DecidableEq, Repr

/-- `struct thread`, as far as the functions below use it. The member `magic` tells whether it is
`THREAD_MAGIC`; `timer_elem` is in the state of the timer. -/
structure Thread where
  status : ThreadStatus := .blocked
  priority : Int := 0
  wakeUpTick : Int := 0
  magic : Bool := false
  stack : List Action := []

/-- The assertions that can fail. -/
inductive Panic where
  | intrEnableContext
  | intrYieldOnReturnContext
  | intrHandlerLevel
  | intrHandlerContext
  | contextCheck
  | threadCurrentIsThread
  | threadCurrentRunning
  | threadBlockContext
  | threadBlockLevel
  | threadUnblockIsThread
  | threadUnblockBlocked
  | threadYieldContext
  | threadExitContext
  | initThreadPriority
  | scheduleLevel
  | scheduleStatus
  | scheduleIsThread
  | scheduleTailLevel
  | scheduleTailPrev
  | semaphoreDownContext
  | lockNotHeld
  | lockHeld
  | listFront
  | listNext
  | listInsert
  | listRemove
  /-- Not an assertion: a pointer to a list head or tail is read as a thread. -/
  | wildPointer
  /-- Not an assertion: the loop of `timer_interrupt` does not end. -/
  | timerSpin
  deriving DecidableEq, Repr

/-- `PRI_MIN`, `PRI_DEFAULT` and `PRI_MAX` (`thread.h`). -/
def priMin : Int := 0
def priDefault : Int := 31
def priMax : Int := 63

/-- `TIME_SLICE`. -/
def timeSlice : Nat := 4

/-- The variables of `thread.c` and `interrupt.c`, and the thread pages. `running` is the thread
on whose stack the processor runs. -/
structure Sched where
  thread : Tid → Thread
  running : Tid
  initialThread : Tid
  idleThread : Option Tid
  readyList : List Tid
  allList : List Tid
  level : IntrLevel
  inExternalIntr : Bool
  yieldOnReturn : Bool
  threadTicks : Nat

namespace Sched

/-- A change of one thread. -/
def modify (t : Tid) (f : Thread → Thread) (s : Sched) : Sched :=
  { s with thread := Function.update s.thread t (f (s.thread t)) }

def setStatus (t : Tid) (status : ThreadStatus) (s : Sched) : Sched :=
  s.modify t fun th => { th with status := status }

/-- The running thread has `actions` to execute before what is on its stack. -/
def push (actions : List Action) (s : Sched) : Sched :=
  s.modify s.running fun th => { th with stack := actions ++ th.stack }

/-- The running thread takes the next action from its stack. -/
def pop (s : Sched) : Sched :=
  s.modify s.running fun th => { th with stack := th.stack.tail }

/-- `intr_disable` (`interrupt.c:103-114`). -/
def intrDisable (s : Sched) : Sched := { s with level := .off }

/-- `intr_set_level` (`interrupt.c:80-84`); enabling interrupts asserts `!intr_context ()`. -/
def intrSetLevel (level : IntrLevel) (s : Sched) : Except Panic Sched :=
  match level with
  | .on => do
    check (s.inExternalIntr = false) .intrEnableContext
    return { s with level := .on }
  | .off => return s.intrDisable

/-- `thread_current` (`thread.c:256-270` in Lab 1, `thread.c:253-267` in Lab 2). -/
def threadCurrent (s : Sched) : Except Panic Tid := do
  check ((s.thread s.running).magic = true) .threadCurrentIsThread
  check ((s.thread s.running).status = .running) .threadCurrentRunning
  return s.running

/-- `insert_ordered_thread_priority` (`thread.c:318-328`, Lab 2). -/
def insertOrderedThreadPriority (s : Sched) (ls : List Tid) (t : Tid) : List Tid :=
  insertBefore (fun hold => (s.thread hold).priority < (s.thread t).priority) t ls

/-- How a thread is put on a list of threads: in Lab 1 by `list_push_back` (`list.c:216-220`). -/
def enqueue (lab : Lab) (s : Sched) (ls : List Tid) (t : Tid) : List Tid :=
  match lab with
  | .lab1 => ls ++ [t]
  | .lab2 => s.insertOrderedThreadPriority ls t

/-- `next_thread_to_run` (`thread.c:491-498` in Lab 1, `thread.c:506-513` in Lab 2). -/
def nextThreadToRun (s : Sched) : Option Tid × Sched :=
  match s.readyList with
  | [] => (s.idleThread, s)
  | t :: ts => (some t, { s with readyList := ts })

/-- `thread_schedule_tail` (`thread.c:516-544` in Lab 1, `thread.c:531-559` in Lab 2). The page of a
dying thread is given back. -/
def threadScheduleTail (prev : Option Tid) (s : Sched) : Except Panic Sched := do
  check (s.level = .off) .scheduleTailLevel
  let s := { s.setStatus s.running .running with threadTicks := 0 }
  match prev with
  | none => return s
  | some prev =>
    if (s.thread prev).status = .dying ∧ prev ≠ s.initialThread then do
      check (prev ≠ s.running) .scheduleTailPrev
      return s.modify prev fun _ => {}
    else return s

/-- `schedule` (`thread.c:553-567` in Lab 1, `thread.c:568-582` in Lab 2). -/
def schedule (s : Sched) : Except Panic Sched := do
  let cur := s.running
  let (next, s) := s.nextThreadToRun
  check (s.level = .off) .scheduleLevel
  check ((s.thread cur).status ≠ .running) .scheduleStatus
  match next with
  | none => throw .scheduleIsThread
  | some next => do
    check ((s.thread next).magic = true) .scheduleIsThread
    ({ s with running := next } : Sched).threadScheduleTail (if cur ≠ next then some cur else none)

/-- `thread_block` (`thread.c:214-222` in Lab 1, `thread.c:211-219` in Lab 2). -/
def threadBlock (s : Sched) : Except Panic Sched := do
  check (s.inExternalIntr = false) .threadBlockContext
  check (s.level = .off) .threadBlockLevel
  let cur ← s.threadCurrent
  (s.setStatus cur .blocked).schedule

/-- `thread_yield` (`thread.c:302-316` in Lab 1, `thread.c:299-314` in Lab 2). -/
def threadYield (lab : Lab) (s : Sched) : Except Panic Sched := do
  let cur ← s.threadCurrent
  check (s.inExternalIntr = false) .threadYieldContext
  let old := s.level
  let s := s.intrDisable
  let s := if some cur ≠ s.idleThread then
    { s with readyList := s.enqueue lab s.readyList cur } else s
  ((s.setStatus cur .ready).push [.intrSetLevel old]).schedule

/-- `thread_unblock` (`thread.c:232-244` in Lab 1, `thread.c:229-241` in Lab 2). In Lab 2 a thread
of higher priority takes the processor at once, unless the idle thread runs. -/
def threadUnblock (lab : Lab) (t : Tid) (s : Sched) : Except Panic Sched := do
  check ((s.thread t).magic = true) .threadUnblockIsThread
  let old := s.level
  let s := s.intrDisable
  check ((s.thread t).status = .blocked) .threadUnblockBlocked
  let s := { s with readyList := s.enqueue lab s.readyList t }
  let s := s.setStatus t .ready
  match lab with
  | .lab1 => s.intrSetLevel old
  | .lab2 => do
    let cur ← s.threadCurrent
    if (s.thread t).priority > (s.thread cur).priority ∧ some cur ≠ s.idleThread then
      (s.push [.intrSetLevel old]).threadYield lab
    else s.intrSetLevel old

/-- `thread_exit` (`thread.c:281-298` in Lab 1, `thread.c:278-295` in Lab 2). -/
def threadExit (s : Sched) : Except Panic Sched := do
  check (s.inExternalIntr = false) .threadExitContext
  let s := s.intrDisable
  let cur ← s.threadCurrent
  (({ s with allList := s.allList.erase cur } : Sched).setStatus cur .dying).schedule

/-- `thread_tick` (`thread.c:123-141`), without the statistics. -/
def threadTick (s : Sched) : Except Panic Sched := do
  let _ ← s.threadCurrent
  let ticked := { s with threadTicks := s.threadTicks + 1 }
  if ticked.threadTicks ≥ timeSlice then do
    check (s.inExternalIntr = true) .intrYieldOnReturnContext
    return { ticked with yieldOnReturn := true }
  else return ticked

/-- What a new thread executes first: `kernel_thread` (`thread.c:419-427` in Lab 1,
`thread.c:434-442` in Lab 2) enables interrupts and calls the function of the thread. -/
def startStack : ThreadFunction → List Action
  | .idle => [.intrSetLevel .on, .idleStart, .semaphoreUp .idleStarted, .idleLoop]
  | .user => [.intrSetLevel .on]

/-- `init_thread` (`thread.c:452-471` in Lab 1, `thread.c:467-486` in Lab 2), on a page that
`palloc_get_page` has filled with zeros. -/
def initThread (t : Tid) (priority : Int) (function : ThreadFunction) (s : Sched) :
    Except Panic Sched := do
  check (priMin ≤ priority ∧ priority ≤ priMax) .initThreadPriority
  let s := s.modify t fun _ => { priority := priority, magic := true, stack := startStack function }
  return { s with allList := s.allList ++ [t] }

end Sched

end CSE130.Pintos
