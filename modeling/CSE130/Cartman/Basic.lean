import Mathlib.Logic.Function.Basic
import Mathlib.Data.List.Count
import CSE130.Library.Run

/-!
# Cartman

Rendering of `Assignment3/cartman.c`: carts cross tracks that are arranged in a ring, each in a thread
of its own. The threads take their steps in any order, and `pthread_cond_wait` may return without a
broadcast. The functions of `cartman.h` that the program is given, `reserve`, `release` and `cross`,
are there in object code only; the model keeps account of the calls.
-/

namespace CSE130.Cartman

open Library

/-- `enum track` and `enum junction` are unsigned ints. -/
abbrev Track := UInt32
abbrev Junction := UInt32

/-- The length of the arrays `locks` and `c_moves`. -/
def arraySize : Nat := 10000

/-- `struct cart_move`. -/
structure CartMove where
  cartNum : Nat
  trackNum : Track
  juncNum : Junction
  deriving DecidableEq, Repr

/-- A call of one of the functions that the program is given. -/
inductive Call where
  | reserve (cart : Nat) (junction : Junction)
  | cross (cart : Nat) (track : Track) (junction : Junction)
  | release (cart : Nat) (junction : Junction)
  deriving DecidableEq, Repr

def Call.cart : Call → Nat
  | reserve cart _ | cross cart _ _ | release cart _ => cart

/-- Where a thread is in `reserve2`, `cross` and `release2` (`cartman.c:69-89`). -/
inductive Pc where
  | lock1
  /-- At the condition of the `while`. -/
  | test
  | wait
  /-- Inside `pthread_cond_wait`. -/
  | asleep
  /-- Inside `pthread_cond_wait`, about to take the mutex again. -/
  | woken
  | set1
  | set2
  | reserve1
  | reserve2
  | unlock1
  | cross
  | lock2
  | clear1
  | clear2
  | release1
  | release2
  | unlock2
  | broadcast
  /-- After `pthread_exit`. -/
  | exited
  deriving DecidableEq, Repr

/-- The thread of a cart. -/
inductive Thread where
  /-- The cart has not arrived. -/
  | away
  /-- It is about to run `cart_start`. -/
  | created
  /-- It has called `reserve2 (cart, junc1, junc2)` and what follows it. -/
  | running (cMove : CartMove) (junc1 junc2 : Junction) (pc : Pc)
  /-- `cart_start` has returned. -/
  | returned
  deriving DecidableEq, Repr

/-- What `cart_start` passes to `reserve2` and `release2`, if it calls them (`cartman.c:42-66`). All
comparisons are made with unsigned ints. -/
def cartStart (numTracks : UInt32) (cMove : CartMove) : Option (Junction × Junction) :=
  let track := cMove.trackNum
  let junction := cMove.juncNum
  if track = junction then
    if junction + 1 = numTracks then some (junction, 0) else some (junction, junction + 1)
  else if junction - 1 = track ∨ (junction = 0 ∧ track = numTracks - 1) then
    if junction - 1 = -1 then some (junction, numTracks - 1) else some (junction, junction - 1)
  else none

/-- The junction at the other end of a track of a ring of `n`. -/
def nextJunction (n : UInt32) (track : Track) : Junction := if track + 1 = n then 0 else track + 1

/-- A cart that arrives at one of the ends of its track. -/
structure Arrival (n : UInt32) where
  track : Track
  junction : Junction
  track_lt : track < n
  atEnd : junction = track ∨ junction = nextJunction n track

/-- The carts that are to arrive, by their numbers. -/
structure Carts (n : UInt32) where
  arrival : Nat → Option (Arrival n)
  number_lt : ∀ {cart a}, arrival cart = some a → cart < arraySize

/-- `reserved` has for each junction the carts that have called `reserve` and not yet `release`. -/
structure State where
  numTracks : UInt32
  locks : Junction → Int
  cMoves : Nat → CartMove
  /-- The thread that holds `reserve_mut`. -/
  mutex : Option Nat
  thread : Nat → Thread
  reserved : Junction → List Nat
  calls : List Call

/-- What happens next. -/
inductive Event where
  /-- `arrive` is called for the cart. -/
  | arrive (cart : Nat)
  /-- The thread of the cart takes a step. -/
  | thread (cart : Nat)
  /-- A spurious wake-up. -/
  | wake (cart : Nat)
  deriving DecidableEq, Repr

/-- Why an event does not happen. -/
inductive NoStep where
  | disabled
  /-- An access past the end of an array. -/
  | outOfBounds
  deriving DecidableEq, Repr

namespace State

/-- `cartman (tracks)` has been called. -/
def start (tracks : UInt32) : State where
  numTracks := tracks
  locks _ := 0
  cMoves _ := { cartNum := 0, trackNum := 0, juncNum := 0 }
  mutex := none
  thread _ := .away
  reserved _ := []
  calls := []

def setThread (s : State) (cart : Nat) (t : Thread) : State :=
  { s with thread := Function.update s.thread cart t }

/-- `locks[junction]`. -/
def readLock (s : State) (junction : Junction) : Except NoStep Int :=
  if junction.toNat < arraySize then .ok (s.locks junction) else .error .outOfBounds

/-- `locks[junction] = value`. -/
def writeLock (s : State) (junction : Junction) (value : Int) : Except NoStep State :=
  if junction.toNat < arraySize then
    .ok { s with locks := Function.update s.locks junction value }
  else .error .outOfBounds

/-- `pthread_mutex_lock (&reserve_mut)`. -/
def lockMutex (s : State) (cart : Nat) : Except NoStep State :=
  if s.mutex = none then .ok { s with mutex := some cart } else .error .disabled

def unlockMutex (s : State) : State := { s with mutex := none }

def reserve (s : State) (cart : Nat) (junction : Junction) : State :=
  { s with
    reserved := Function.update s.reserved junction (cart :: s.reserved junction)
    calls := s.calls ++ [.reserve cart junction] }

def cross (s : State) (cart : Nat) (track : Track) (junction : Junction) : State :=
  { s with calls := s.calls ++ [.cross cart track junction] }

def release (s : State) (cart : Nat) (junction : Junction) : State :=
  { s with
    reserved := Function.update s.reserved junction ((s.reserved junction).erase cart)
    calls := s.calls ++ [.release cart junction] }

end State

/-- A thread inside `pthread_cond_wait` wakes up. -/
def Thread.wake : Thread → Thread
  | .running cMove junc1 junc2 .asleep => .running cMove junc1 junc2 .woken
  | t => t

namespace State

/-- `arrive (cart, track, junction)` (`cartman.c:27-35`). -/
def arrive {n : UInt32} (carts : Carts n) (s : State) (cart : Nat) : Except NoStep State :=
  match s.thread cart, carts.arrival cart with
  | .away, some a =>
    if cart < arraySize then
      let cMove := { cartNum := cart, trackNum := a.track, juncNum := a.junction }
      .ok ({ s with cMoves := Function.update s.cMoves cart cMove }.setThread cart .created)
    else .error .outOfBounds
  | _, _ => .error .disabled

/-- The step of a thread that is at `pc`: the new state, but for the thread itself, and where the thread
is then. -/
def pcStep (s : State) (cart : Nat) (cMove : CartMove) (junc1 junc2 : Junction) :
    Pc → Except NoStep (State × Pc)
  | .lock1 => do
    let s ← s.lockMutex cart
    pure (s, .test)
  | .test => do
    let lock1 ← s.readLock junc1
    if lock1 ≠ 0 then pure (s, .wait)
    else do
      let lock2 ← s.readLock junc2
      if lock2 ≠ 0 then pure (s, .wait) else pure (s, .set1)
  | .wait => .ok (s.unlockMutex, .asleep)
  | .asleep => .error .disabled
  | .woken => do
    let s ← s.lockMutex cart
    pure (s, .test)
  | .set1 => do
    let s ← s.writeLock junc1 1
    pure (s, .set2)
  | .set2 => do
    let s ← s.writeLock junc2 1
    pure (s, .reserve1)
  | .reserve1 => .ok (s.reserve cMove.cartNum junc1, .reserve2)
  | .reserve2 => .ok (s.reserve cMove.cartNum junc2, .unlock1)
  | .unlock1 => .ok (s.unlockMutex, .cross)
  | .cross => .ok (s.cross cMove.cartNum cMove.trackNum cMove.juncNum, .lock2)
  | .lock2 => do
    let s ← s.lockMutex cart
    pure (s, .clear1)
  | .clear1 => do
    let s ← s.writeLock junc1 0
    pure (s, .clear2)
  | .clear2 => do
    let s ← s.writeLock junc2 0
    pure (s, .release1)
  | .release1 => .ok (s.release cMove.cartNum junc1, .release2)
  | .release2 => .ok (s.release cMove.cartNum junc2, .unlock2)
  | .unlock2 => .ok (s.unlockMutex, .broadcast)
  | .broadcast => .ok ({ s with thread := fun c => (s.thread c).wake }, .exited)
  | .exited => .error .disabled

/-- A step of the thread of a cart. -/
def threadStep (s : State) (cart : Nat) : Except NoStep State :=
  match s.thread cart with
  | .away | .returned => .error .disabled
  | .created =>
    match cartStart s.numTracks (s.cMoves cart) with
    | some (junc1, junc2) =>
      .ok (s.setThread cart (.running (s.cMoves cart) junc1 junc2 .lock1))
    | none => .ok (s.setThread cart .returned)
  | .running cMove junc1 junc2 pc => do
    let (s, pc) ← s.pcStep cart cMove junc1 junc2 pc
    pure (s.setThread cart (.running cMove junc1 junc2 pc))

/-- The effect of an event. -/
def step {n : UInt32} (carts : Carts n) (s : State) : Event → Except NoStep State
  | .arrive cart => s.arrive carts cart
  | .thread cart => s.threadStep cart
  | .wake cart =>
    match s.thread cart with
    | .running _ _ _ .asleep => .ok (s.setThread cart (s.thread cart).wake)
    | _ => .error .disabled

/-- The cart has crossed its track, and its thread has ended. -/
def Finished (s : State) (cart : Nat) : Prop :=
  ∃ cMove junc1 junc2, s.thread cart = .running cMove junc1 junc2 .exited

/-- The call that the thread makes at its next step. -/
def nextCall (s : State) (cart : Nat) : Option Call :=
  match s.thread cart with
  | .running cMove junc1 _ .reserve1 => some (.reserve cMove.cartNum junc1)
  | .running cMove _ junc2 .reserve2 => some (.reserve cMove.cartNum junc2)
  | .running cMove _ _ .cross => some (.cross cMove.cartNum cMove.trackNum cMove.juncNum)
  | .running cMove junc1 _ .release1 => some (.release cMove.cartNum junc1)
  | .running cMove _ junc2 .release2 => some (.release cMove.cartNum junc2)
  | _ => none

end State

/-- The states that the program can be in. -/
abbrev CartReachable {n : UInt32} (carts : Carts n) : State → Prop :=
  Reachable (State.step carts) (fun _ _ => True) (State.start n)

end CSE130.Cartman
