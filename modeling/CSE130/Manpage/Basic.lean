import Mathlib.Logic.Equiv.Defs
import Mathlib.Logic.Function.Basic
import CSE130.Library.Run

/-!
# Manpage

Rendering of `Assignment3_1/manpage.c`: the paragraphs of a manual page are shown by one thread each,
and a thread waits until the paragraphs before its own have been shown. The threads take their steps
in any order, and `pthread_cond_wait` may return without a broadcast. `getParagraphId` and
`showParagraph` are there in object code only; the model keeps account of the calls of
`showParagraph`. The program makes seven threads, the model any number of them.
-/

namespace CSE130.Manpage

open Library

/-- Where a thread is in `print_page` once it has its paragraph (`manpage.c:60-69`). -/
inductive Pc where
  | lock
  /-- At the condition of the `while`. -/
  | test
  | wait
  /-- Inside `pthread_cond_wait`. -/
  | asleep
  /-- Inside `pthread_cond_wait`, about to take the mutex again. -/
  | woken
  | showParagraph
  | incr
  | unlock
  | broadcast
  /-- `print_page` has returned. -/
  | returned
  deriving DecidableEq, Repr

/-- A thread that runs `print_page`. -/
inductive Thread where
  /-- It has not been created yet. -/
  | away
  /-- It is about to call `getParagraphId`. -/
  | created
  | running (pid : Nat) (pc : Pc)
  deriving DecidableEq, Repr

/-- Where the thread that calls `manpage` is (`manpage.c:46-56`). -/
inductive Main where
  /-- In the first loop, with the counter `i`. -/
  | create (i : Nat)
  /-- In the second loop. -/
  | join (i : Nat)
  | returned
  deriving DecidableEq, Repr

/-- `shown` has the threads that have called `showParagraph`. -/
structure State (n : Nat) where
  main : Main
  /-- The thread that holds `page_mut`. -/
  mutex : Option (Fin n)
  curPage : Nat
  thread : Fin n → Thread
  shown : List (Fin n)

/-- What happens next. -/
inductive Event (n : Nat) where
  /-- The thread that called `manpage` takes a step. -/
  | main
  | thread (t : Fin n)
  /-- A spurious wake-up. -/
  | wake (t : Fin n)
  deriving DecidableEq, Repr

/-- Why an event does not happen. -/
inductive NoStep where
  | disabled
  deriving DecidableEq, Repr

/-- A thread inside `pthread_cond_wait` wakes up. -/
def Thread.wake : Thread → Thread
  | .running pid .asleep => .running pid .woken
  | t => t

/-- `print_page` has returned. -/
def Thread.ended : Thread → Bool
  | .running _ .returned => true
  | _ => false

namespace State

variable {n : Nat}

/-- `manpage` has been called. -/
def start (n : Nat) : State n where
  main := .create 0
  mutex := none
  curPage := 0
  thread _ := .away
  shown := []

def setThread (s : State n) (t : Fin n) (x : Thread) : State n :=
  { s with thread := Function.update s.thread t x }

/-- `pthread_mutex_lock (&page_mut)`. -/
def lockMutex (s : State n) (t : Fin n) : Except NoStep (State n) :=
  if s.mutex = none then .ok { s with mutex := some t } else .error .disabled

def unlockMutex (s : State n) : State n := { s with mutex := none }

/-- `pthread_cond_broadcast (&cond_page)`. -/
def broadcast (s : State n) : State n := { s with thread := fun t => (s.thread t).wake }

/-- The step of a thread that is at `pc`: the new state, but for the thread itself, and where the thread
is then. -/
def pcStep (s : State n) (t : Fin n) (pid : Nat) : Pc → Except NoStep (State n × Pc)
  | .lock => do
    let s ← s.lockMutex t
    pure (s, .test)
  | .test => .ok (s, if pid ≠ s.curPage then .wait else .showParagraph)
  | .wait => .ok (s.unlockMutex, .asleep)
  | .asleep => .error .disabled
  | .woken => do
    let s ← s.lockMutex t
    pure (s, .test)
  | .showParagraph => .ok ({ s with shown := s.shown ++ [t] }, .incr)
  | .incr => .ok ({ s with curPage := s.curPage + 1 }, .unlock)
  | .unlock => .ok (s.unlockMutex, .broadcast)
  | .broadcast => .ok (s.broadcast, .returned)
  | .returned => .error .disabled

/-- A step of a thread, where `ids` has what `getParagraphId` returns in each thread. -/
def threadStep (ids : Equiv.Perm (Fin n)) (s : State n) (t : Fin n) : Except NoStep (State n) :=
  match s.thread t with
  | .away => .error .disabled
  | .created => .ok (s.setThread t (.running (ids t) .lock))
  | .running pid pc => do
    let (s, pc) ← s.pcStep t pid pc
    pure (s.setThread t (.running pid pc))

/-- A step of the thread that called `manpage` (`manpage.c:46-56`): `pthread_create` or `pthread_join`. -/
def mainStep (s : State n) : Except NoStep (State n) :=
  match s.main with
  | .create i =>
    if h : i < n then .ok ({ s with main := .create (i + 1) }.setThread ⟨i, h⟩ .created)
    else .ok { s with main := .join 0 }
  | .join i =>
    if h : i < n then
      if (s.thread ⟨i, h⟩).ended then .ok { s with main := .join (i + 1) } else .error .disabled
    else .ok { s with main := .returned }
  | .returned => .error .disabled

/-- The effect of an event. -/
def step (ids : Equiv.Perm (Fin n)) (s : State n) : Event n → Except NoStep (State n)
  | .main => s.mainStep
  | .thread t => s.threadStep ids t
  | .wake t =>
    match s.thread t with
    | .running _ .asleep => .ok (s.setThread t (s.thread t).wake)
    | _ => .error .disabled

end State

/-- The states that the program can be in. -/
abbrev PageReachable {n : Nat} (ids : Equiv.Perm (Fin n)) : State n → Prop :=
  Reachable (State.step ids) (fun _ _ => True) (State.start n)

end CSE130.Manpage
