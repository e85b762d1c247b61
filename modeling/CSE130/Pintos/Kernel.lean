import CSE130.Library.LinkedList
import CSE130.Pintos.Thread

/-!
# Semaphores, locks, condition variables and the timer

Rendering of `threads/semaphore.c`, `threads/lock.c`, `threads/condvar.c` and `devices/timer.c`
for Lab 1 and Lab 2, and of the kernel as one machine. The running thread executes the actions on
its stack one by one, with an empty stack it may call any function, and while interrupts are
enabled a timer tick may come between two actions. Interrupts stay off between the actions of an
interrupt-disabled section, so that only a switch of threads ends it early.

The list `timer_list`, which is changed with interrupts enabled, is modelled by its pointers; the
other lists by their contents.
-/

namespace CSE130.Pintos

open CSE130.Library

/-- `struct semaphore`. The member `value` is `unsigned`. -/
structure Semaphore where
  value : Nat
  waiters : List Tid

/-- Events of a run that the properties below speak about. -/
inductive Note where
  /-- `semaphore_down` by `t` has decremented `s`. -/
  | down (s : SemaId) (t : Tid)
  /-- `semaphore_up` has incremented `s`. -/
  | up (s : SemaId)
  /-- `condvar_wait` has put the waiter of `t` on the list of `c`. -/
  | enqueue (c : CondId) (t : Tid)
  /-- `condvar_signal` has taken the waiter of `t` off the list of `c`. -/
  | signal (c : CondId) (t : Tid)
  /-- `condvar_wait` on `c` has returned in `t`. -/
  | waitReturn (c : CondId) (t : Tid)
  /-- `timer_sleep` has put `t` on `timer_list`. -/
  | link (t : Tid)
  /-- `timer_interrupt` has passed `t` to `thread_unblock` at a tick. -/
  | wake (t : Tid) (tick : Int)
  deriving DecidableEq, Repr

/-- The state of the kernel. `held` tells which locks the calls of a thread leave it with, and
`trace` the events so far; the code has neither. -/
structure Kernel where
  sched : Sched
  sema : SemaId → Semaphore
  holder : LockId → Option Tid
  waiters : CondId → List Tid
  ticks : Int
  timerList : Memory Elem
  held : Tid → LockId → Bool
  trace : List Note

/-- The value of an `int64_t` after an operation whose exact result is `z`. -/
def toInt64 (z : Int) : Int := z.bmod (2 ^ 64)

namespace Kernel

/-- The thread `t`. -/
abbrev thread (k : Kernel) (t : Tid) : Thread := k.sched.thread t

/-- The running thread. -/
abbrev running (k : Kernel) : Tid := k.sched.running

/-- What thread `t` still has to execute of the calls it is inside. -/
abbrev stack (k : Kernel) (t : Tid) : List Action := (k.sched.thread t).stack

/-- A function of `thread.c`. -/
def onSched (f : Sched → Except Panic Sched) (k : Kernel) : Except Panic Kernel := do
  let s ← f k.sched
  return { k with sched := s }

def push (actions : List Action) (k : Kernel) : Kernel :=
  { k with sched := k.sched.push actions }

def note (n : Note) (k : Kernel) : Kernel := { k with trace := n :: k.trace }

def setSema (s : SemaId) (x : Semaphore) (k : Kernel) : Kernel :=
  { k with sema := Function.update k.sema s x }

def setHolder (l : LockId) (t : Option Tid) (k : Kernel) : Kernel :=
  { k with holder := Function.update k.holder l t }

def setWaiters (c : CondId) (ts : List Tid) (k : Kernel) : Kernel :=
  { k with waiters := Function.update k.waiters c ts }

/-! ## `semaphore.c` -/

/-- The loop of `semaphore_down`, up to its end or to the next `thread_block`. -/
def semaphoreTest (lab : Lab) (s : SemaId) (old : IntrLevel) (k : Kernel) :
    Except Panic Kernel := do
  let x := k.sema s
  if x.value = 0 then do
    let cur ← k.sched.threadCurrent
    (k.setSema s { x with waiters := k.sched.enqueue lab x.waiters cur }).onSched fun sched =>
      (sched.push [.semaphoreRetest s old]).threadBlock
  else
    ((k.setSema s { x with value := x.value - 1 }).note (.down s k.running)).onSched
      (Sched.intrSetLevel old)

/-- `semaphore_down` (`semaphore.c:60-76`). -/
def semaphoreDown (lab : Lab) (s : SemaId) (k : Kernel) : Except Panic Kernel := do
  check (k.sched.inExternalIntr = false) .semaphoreDownContext
  let old := k.sched.level
  ({ k with sched := k.sched.intrDisable } : Kernel).semaphoreTest lab s old

/-- `semaphore_up` (`semaphore.c:82-95` in Lab 1, `semaphore.c:85-99` in Lab 2). Lab 1 increments
after `thread_unblock`, which does not switch threads there. -/
def semaphoreUp (lab : Lab) (s : SemaId) (k : Kernel) : Except Panic Kernel :=
  let old := k.sched.level
  let x := k.sema s
  let value := (x.value + 1) % 2 ^ 32
  let k := ({ k with sched := k.sched.intrDisable } : Kernel).note (.up s)
  match x.waiters with
  | [] => (k.setSema s { value := value, waiters := [] }).onSched (Sched.intrSetLevel old)
  | t :: ts => (k.setSema s { value := value, waiters := ts }).onSched fun sched =>
      (sched.push [.intrSetLevel old]).threadUnblock lab t

/-! ## `lock.c` -/

/-- `lock_held_by_current_thread` (`lock.c:96-102`). -/
def lockHeldByCurrentThread (l : LockId) (k : Kernel) : Except Panic Bool := do
  let cur ← k.sched.threadCurrent
  return decide (k.holder l = some cur)

/-- `lock_acquire` (`lock.c:67-76`). -/
def lockAcquire (l : LockId) : List Action :=
  [.contextCheck, .notHeldCheck l, .semaphoreDown (.lock l), .setHolder l]

/-- `lock_release` (`lock.c:83-91`). -/
def lockRelease (l : LockId) : List Action :=
  [.heldCheck l, .clearHolder l, .semaphoreUp (.lock l)]

/-! ## `condvar.c` -/

/-- The lock that `c` is used with. -/
def condLock (c : CondId) : LockId := .user c.lock

/-- `condvar_wait` (`condvar.c:72-94`), called by `t`. -/
def condvarWait (t : Tid) (c : CondId) : List Action :=
  [Action.contextCheck, .heldCheck (condLock c), .semaphoreInit (.waiter t c) 0, .waitScan c] ++
    lockRelease (condLock c) ++ [Action.semaphoreDown (.waiter t c)] ++ lockAcquire (condLock c) ++
    [Action.waitReturn c]

/-- `condvar_signal` (`condvar.c:103-113`). -/
def condvarSignal (c : CondId) : List Action :=
  [.contextCheck, .heldCheck (condLock c), .signalWaiter c]

/-- The element behind `el` on a list; `none` is the end of the list. -/
def nextOn (el : Tid) : List Tid → Option Tid
  | [] => none
  | t :: ts => if t = el then ts.head? else nextOn el ts

/-- The test of the loop of `condvar_wait` at the element `el`. The front of the semaphore of `el`
is compared with the running thread. -/
def waitInspect (c : CondId) (el : Option Tid) (k : Kernel) : Except Panic Kernel := do
  match el with
  | none => return k.push [.waitLink c none]
  | some w => do
    let cur ← k.sched.threadCurrent
    match (k.sema (.waiter w c)).waiters with
    | [] => throw .listFront
    | front :: _ =>
      if (k.thread cur).priority > (k.thread front).priority then
        return k.push [.waitLink c (some w)]
      else return k.push [.waitNext c w]

/-- The insertion of `condvar_wait`, in front of the element `before`. -/
def waitLink (c : CondId) (before : Option Tid) (k : Kernel) : Kernel :=
  (k.setWaiters c (insertBefore (fun w => some w = before) k.running (k.waiters c))).note
    (.enqueue c k.running)

/-- The body of `condvar_signal`. -/
def signalWaiter (c : CondId) (k : Kernel) : Kernel :=
  match k.waiters c with
  | [] => k
  | w :: ws => ((k.setWaiters c ws).note (.signal c w)).push [.semaphoreUp (.waiter w c)]

/-! ## `timer.c` -/

/-- `list_begin (&timer_list)`. -/
def listBegin (k : Kernel) : Except Panic Elem :=
  match k.timerList.next .head with
  | some x => return x
  | none => throw .wildPointer

/-- `list_next` (`list.c:81-86`), which asserts that `x` is a head or an interior element. -/
def listNext (x : Elem) (k : Kernel) : Except Panic Elem :=
  match k.timerList.next x with
  | some y => return y
  | none => throw .listNext

/-- `list_insert` (`list.c:168-178`), which asserts that `before` is an interior element or a
tail. -/
def listInsert (before x : Elem) (k : Kernel) : Except Panic Kernel := do
  check ((k.timerList.prev before).isSome) .listInsert
  return { k with timerList := k.timerList.insert before x }

/-- `list_pop_front (&timer_list)`: `list_front` (`list.c:279-284`) asserts that the list is not
empty, `list_remove` (`list.c:248-255`) that the front is an interior element. -/
def listPopFront (k : Kernel) : Except Panic Kernel := do
  let front ← k.listBegin
  check (front ≠ .tail) .listFront
  check ((k.timerList.prev front).isSome ∧ (k.timerList.next front).isSome) .listRemove
  return { k with timerList := k.timerList.remove front }

/-- `timer_sleep` (`timer.c:104-128` in Lab 1, `timer.c:104-140` in Lab 2) up to its test of
`ticks`. -/
def sleepStart (ticks : Int) (k : Kernel) : Except Panic Kernel := do
  let _ ← k.sched.threadCurrent
  let total := toInt64 (k.ticks + ticks)
  if ticks ≤ 0 then return k else return k.push [.sleepStore total]

/-- The test of the outer loop of `timer_sleep` at `x`. Lab 1 has no inner loop. -/
def sleepOuter (lab : Lab) (total : Int) (x : Elem) (k : Kernel) : Except Panic Kernel :=
  match x with
  | .tail => return k.push [.sleepLink .tail]
  | .head => throw .wildPointer
  | .thread hold =>
    if lab = .lab2 ∧ (k.thread hold).wakeUpTick = total then return k.push [.sleepInner x]
    else if (k.thread hold).wakeUpTick ≥ total then return k.push [.sleepLink x]
    else return k.push [.sleepOuterNext total x]

/-- The test of the inner loop of `timer_sleep` at `x` (Lab 2). -/
def sleepInner (x : Elem) (k : Kernel) : Except Panic Kernel :=
  match x with
  | .tail => return k.push [.sleepLink .tail]
  | .head => throw .wildPointer
  | .thread hold =>
    if (k.thread hold).priority ≤ (k.thread k.running).priority then
      return k.push [.sleepLink x]
    else return k.push [.sleepInnerNext x]

/-- The loop of `timer_interrupt` from the element `e`. Each round makes a blocked thread ready,
so that there are no more rounds than threads; `fuel` bounds the rounds. -/
def timerWake (lab : Lab) : Nat → Elem → Kernel → Except Panic Kernel
  | _, .tail, k => return k
  | _, .head, _ => throw .wildPointer
  | fuel, .thread hold, k =>
    if k.ticks < (k.thread hold).wakeUpTick then return k
    else
      match fuel with
      | 0 => throw .timerSpin
      | fuel + 1 => do
        let e ← k.listNext (.thread hold)
        let k ← (k.note (.wake hold k.ticks)).onSched (Sched.threadUnblock lab hold)
        let k ← k.listPopFront
        timerWake lab fuel e k

/-- `timer_interrupt` (`timer.c:201-219` in Lab 1, `timer.c:212-230` in Lab 2). -/
def timerInterrupt (lab : Lab) (k : Kernel) : Except Panic Kernel := do
  let k := { k with ticks := toInt64 (k.ticks + 1) }
  let k ← k.onSched Sched.threadTick
  let e ← k.listBegin
  timerWake lab k.sched.allList.length e k

/-- `intr_handler` (`interrupt.c:344-389`) for the timer interrupt, which comes through an interrupt
gate and so with interrupts disabled. -/
def intrHandler (lab : Lab) (k : Kernel) : Except Panic Kernel := do
  let k := { k with sched := (k.sched.push [.iret]).intrDisable }
  check (k.sched.level = .off) .intrHandlerLevel
  check (k.sched.inExternalIntr = false) .intrHandlerContext
  let k := { k with sched := { k.sched with inExternalIntr := true, yieldOnReturn := false } }
  let k ← k.timerInterrupt lab
  check (k.sched.level = .off) .intrHandlerLevel
  check (k.sched.inExternalIntr = true) .intrHandlerContext
  let k := { k with sched := { k.sched with inExternalIntr := false } }
  if k.sched.yieldOnReturn then k.onSched (Sched.threadYield lab) else return k

/-! ## The machine -/

/-- `thread_create` (`thread.c:166-206` in Lab 1, `thread.c:166-203` in Lab 2) up to `init_thread`;
the rest of the call goes on the stack. The page `t` is the one that `palloc_get_page` returns,
filled with zeros; a page in use stands for a failed allocation. -/
def threadCreate (t : Tid) (priority : Int) (function : ThreadFunction) (k : Kernel) :
    Except Panic Kernel :=
  if (k.thread t).magic then return k
  else do
    let k ← k.onSched (Sched.initThread t priority function)
    let k := { k with timerList := k.timerList.clear (.thread t) }
    return k.push (lockAcquire .tidLock ++ lockRelease .tidLock ++ [.createUnblock t])

/-- The running thread executes `a`, which is no longer on its stack. -/
def exec (lab : Lab) (k : Kernel) : Action → Except Panic Kernel
  | .intrSetLevel level => k.onSched (Sched.intrSetLevel level)
  | .iret => return { k with sched := { k.sched with level := .on } }
  | .contextCheck => do
    check (k.sched.inExternalIntr = false) .contextCheck
    return k
  | .threadCreate t priority function => k.threadCreate t priority function
  | .threadUnblock t | .createUnblock t => k.onSched (Sched.threadUnblock lab t)
  | .threadBlock => k.onSched fun sched =>
    (sched.intrDisable.push [.threadBlockReturn sched.level]).threadBlock
  | .threadBlockReturn old => k.onSched (Sched.intrSetLevel old)
  | .threadYield => k.onSched (Sched.threadYield lab)
  | .threadExit => k.onSched Sched.threadExit
  | .storePriority priority => do
    let cur ← k.sched.threadCurrent
    return { k with sched := k.sched.modify cur fun th => { th with priority := priority } }
  | .idleStart => do
    let cur ← k.sched.threadCurrent
    return { k with sched := { k.sched with idleThread := some cur } }
  | .idleLoop => k.onSched fun sched =>
    (sched.intrDisable.push [.intrSetLevel .on, .idleLoop]).threadBlock
  | .semaphoreInit s value => return k.setSema s { value := value, waiters := [] }
  | .semaphoreDown s => k.semaphoreDown lab s
  | .semaphoreRetest s old => k.semaphoreTest lab s old
  | .semaphoreUp s => k.semaphoreUp lab s
  | .notHeldCheck l => do
    let held ← k.lockHeldByCurrentThread l
    check (held = false) .lockNotHeld
    return k
  | .setHolder l => do
    let cur ← k.sched.threadCurrent
    return k.setHolder l (some cur)
  | .heldCheck l => do
    let held ← k.lockHeldByCurrentThread l
    check (held = true) .lockHeld
    return k
  | .clearHolder l => return k.setHolder l none
  | .waitScan c =>
    match lab with
    | .lab1 => return k.push [.waitLink c none]
    | .lab2 => return k.push [.waitInspect c (k.waiters c).head?]
  | .waitInspect c el => k.waitInspect c el
  | .waitNext c el => return k.push [.waitInspect c (nextOn el (k.waiters c))]
  | .waitLink c before => return k.waitLink c before
  | .waitReturn c => return k.note (.waitReturn c k.running)
  | .signalWaiter c => return k.signalWaiter c
  | .broadcast c =>
    if k.waiters c = [] then return k else return k.push (condvarSignal c ++ [.broadcast c])
  | .sleepStart ticks => k.sleepStart ticks
  | .sleepStore total =>
    return { k with
      sched := (k.sched.modify k.running fun th => { th with wakeUpTick := total }).push
        [.sleepScan total] }
  | .sleepScan total => do
    let x ← k.listBegin
    return k.push [.sleepOuter total x]
  | .sleepOuter total x => k.sleepOuter lab total x
  | .sleepOuterNext total x => do
    let y ← k.listNext x
    return k.push [.sleepOuter total y]
  | .sleepInner x => k.sleepInner x
  | .sleepInnerNext x => do
    let y ← k.listNext x
    return k.push [.sleepInner y]
  | .sleepLink before => do
    let k ← k.listInsert before (.thread k.running)
    return (k.note (.link k.running)).push [.sleepDisable]
  | .sleepDisable => return ({ k with sched := k.sched.intrDisable } : Kernel).push [.sleepBlock]
  | .sleepBlock => k.onSched fun sched => (sched.push [.sleepReturn]).threadBlock
  | .sleepReturn => return k

end Kernel

/-- The calls that the code of a thread makes. -/
inductive Op where
  | threadCreate (t : Tid) (priority : Int)
  | threadUnblock (t : Tid)
  | threadBlock
  | threadYield
  | threadExit
  | threadSetPriority (priority : Int)
  | intrSetLevel (level : IntrLevel)
  | semaphoreDown (n : Nat)
  | semaphoreUp (n : Nat)
  | lockAcquire (n : Nat)
  | lockRelease (n : Nat)
  | condvarWait (c : CondId)
  | condvarSignal (c : CondId)
  | condvarBroadcast (c : CondId)
  | timerSleep (ticks : Int)
  deriving DecidableEq, Repr

/-- The body of a function, as called by `cur`. In Lab 1 `thread_set_priority` does not yield. -/
def Op.body (lab : Lab) (cur : Tid) : Op → List Action
  | .threadCreate t priority => [.threadCreate t priority .user]
  | .threadUnblock t => [.threadUnblock t]
  | .threadBlock => [.threadBlock]
  | .threadYield => [.threadYield]
  | .threadExit => [.threadExit]
  | .threadSetPriority priority =>
    match lab with
    | .lab1 => [.storePriority priority]
    | .lab2 => [.storePriority priority, .threadYield]
  | .intrSetLevel level => [.intrSetLevel level]
  | .semaphoreDown n => [.semaphoreDown (.user n)]
  | .semaphoreUp n => [.semaphoreUp (.user n)]
  | .lockAcquire n => Kernel.lockAcquire (.user n)
  | .lockRelease n => Kernel.lockRelease (.user n)
  | .condvarWait c => Kernel.condvarWait cur c
  | .condvarSignal c => Kernel.condvarSignal c
  | .condvarBroadcast c => [.broadcast c]
  | .timerSleep ticks => [.sleepStart ticks]

inductive Event where
  /-- The running thread executes the next action on its stack. -/
  | act
  /-- The code of the running thread calls a function. -/
  | call (op : Op)
  /-- The timer interrupts the running thread. -/
  | tick
  deriving DecidableEq, Repr

namespace Kernel

/-- The locks that thread `t` holds after a call, as its own code sees it. -/
def heldAfter (op : Op) (held : LockId → Bool) : LockId → Bool :=
  match op with
  | .lockAcquire n => Function.update held (.user n) true
  | .lockRelease n => Function.update held (.user n) false
  | _ => held

/-- When an event can happen. -/
def Enabled (k : Kernel) : Event → Prop
  | .act => k.stack k.running ≠ []
  | .call _ => k.stack k.running = []
  | .tick => k.sched.level = .on

instance (k : Kernel) (e : Event) : Decidable (k.Enabled e) := by
  cases e <;> unfold Enabled <;> infer_instance

/-- One step of the kernel. -/
def step (lab : Lab) (k : Kernel) : Event → Except Panic Kernel
  | .act =>
    match k.stack k.running with
    | [] => return k
    | a :: _ => ({ k with sched := k.sched.pop } : Kernel).exec lab a
  | .call op => return {
      k with
      sched := k.sched.push (op.body lab k.running)
      held := Function.update k.held k.running (heldAfter op (k.held k.running)) }
  | .tick => k.intrHandler lab

/-- What is left of `thread_start` (`thread.c:106-119`) when it is called: it creates the idle
thread, enables interrupts and waits for the idle thread to run. -/
def threadStart : List Action :=
  [.threadCreate 1 priMin .idle, .intrSetLevel .on, .semaphoreDown .idleStarted]

/-- The state in which `main` calls `thread_start`: after `thread_init` (`thread.c:88-102`) only the
initial thread, thread 0, exists, and interrupts are off. The semaphores of the threads' own code
start with the values `init`. -/
def boot (init : Nat → Nat) : Kernel where
  sched := {
    thread := Function.update (fun _ => {}) 0
      { status := .running, priority := priDefault, magic := true, stack := threadStart }
    running := 0
    initialThread := 0
    idleThread := none
    readyList := []
    allList := [0]
    level := .off
    inExternalIntr := false
    yieldOnReturn := false
    threadTicks := 0 }
  sema s :=
    match s with
    | .idleStarted => { value := 0, waiters := [] }
    | .user n => { value := init n % 2 ^ 32, waiters := [] }
    | .lock _ => { value := 1, waiters := [] }
    | .waiter _ _ => { value := 0, waiters := [] }
  holder _ := none
  waiters _ := []
  ticks := 0
  timerList := {
    next := fun x => if x = .head then some .tail else none
    prev := fun x => if x = .tail then some .head else none }
  held _ _ := false
  trace := []

end Kernel

end CSE130.Pintos
