import CSE130.Library.StableQueue
import CSE130.Pintos.KernelStep
import Mathlib.Data.Int.Order.Basic

/-!
# The order in which threads are served

In Lab 2 `insert_ordered_thread_priority` puts threads on the ready list and on the lists of waiters
of the semaphores, and `next_thread_to_run` and `semaphore_up` take them off at the front. Beside
the kernel the arrivals are recorded that have not been served: each list is the stable priority
queue of its arrivals, so that the thread served is the first arrival of the greatest priority.
-/

namespace CSE130.Pintos

open CSE130.Library

/-- The lists that are kept in the order of the priorities. -/
inductive QueueId where
  | ready
  | waiters (s : SemaId)
  deriving DecidableEq, Repr

inductive QueueEvent where
  /-- `insert_ordered_thread_priority`. -/
  | put (q : QueueId) (t : Tid)
  /-- `list_pop_front`. -/
  | take (q : QueueId) (t : Tid)
  deriving DecidableEq, Repr

/-- The service of a list. -/
def takeFront (q : QueueId) : List Tid → List QueueEvent
  | [] => []
  | t :: _ => [.take q t]

namespace Sched

/-- The priorities. -/
def prio (s : Sched) (t : Tid) : Int := (s.thread t).priority

/-- What `thread_yield` does with the ready list. -/
def yieldEvents (s : Sched) : List QueueEvent :=
  if some s.running ≠ s.idleThread then
    .put .ready s.running :: takeFront .ready (insertByKey s.prio s.running s.readyList)
  else takeFront .ready s.readyList

/-- What `thread_unblock` does with the ready list. -/
def unblockEvents (t : Tid) (s : Sched) : List QueueEvent :=
  .put .ready t :: if s.Preempts .lab2 t then (s.readying .lab2 t).yieldEvents else []

end Sched

namespace Kernel

def queue (k : Kernel) : QueueId → List Tid
  | .ready => k.sched.readyList
  | .waiters s => (k.sema s).waiters

/-- What an action does with the lists, in the order in which it does it. -/
def actionEvents (k : Kernel) : Action → List QueueEvent
  | .threadUnblock t | .createUnblock t => k.sched.unblockEvents t
  | .threadBlock | .idleLoop | .sleepBlock | .threadExit => takeFront .ready k.sched.readyList
  | .threadYield => k.sched.yieldEvents
  | .semaphoreDown s | .semaphoreRetest s _ =>
    if (k.sema s).value = 0 then
      .put (.waiters s) k.running :: takeFront .ready k.sched.readyList
    else []
  | .semaphoreUp s =>
    match (k.sema s).waiters with
    | [] => []
    | t :: _ => .take (.waiters s) t :: k.sched.unblockEvents t
  | _ => []

/-- What an event does with the lists, while no thread is asleep. -/
def queueEvents (k : Kernel) : Event → List QueueEvent
  | .act =>
    match k.stack k.running with
    | [] => []
    | a :: _ => k.actionEvents a
  | .call _ => []
  | .tick => if k.sched.threadTicks + 1 ≥ timeSlice then k.sched.yieldEvents else []

end Kernel

/-- The arrivals after an event. -/
def QueueEvent.record (arrivals : QueueId → List Tid) : QueueEvent → QueueId → List Tid
  | .put q t => Function.update arrivals q (arrivals q ++ [t])
  | .take q t => Function.update arrivals q ((arrivals q).erase t)

/-- The kernel of Lab 2, and for each list the threads that were put there and have not been taken
off, in the order in which they were put there. -/
structure QueueRun where
  kernel : Kernel
  arrivals : QueueId → List Tid

namespace QueueRun

def step (s : QueueRun) (e : Event) : Except Panic QueueRun := do
  let k ← s.kernel.step .lab2 e
  return { kernel := k, arrivals := (s.kernel.queueEvents e).foldl QueueEvent.record s.arrivals }

/-- The events of the runs in which threads use `thread_unblock` properly and never sleep. -/
def Admits (s : QueueRun) (e : Event) : Prop := s.kernel.Admits e

/-- The state in which `main` calls `thread_start`. -/
def boot (init : Nat → Nat) : QueueRun where
  kernel := .boot init
  arrivals _ := []

end QueueRun

/-! ## Lists and arrivals -/

/-- The lists after a sequence of events. -/
inductive Runs (prio : Tid → Int) :
    (QueueId → List Tid) → List QueueEvent → (QueueId → List Tid) → Prop where
  | nil (queue : QueueId → List Tid) : Runs prio queue [] queue
  | put {queue queue' : QueueId → List Tid} {q : QueueId} {t : Tid} {es : List QueueEvent} :
      Runs prio (Function.update queue q (insertByKey prio t (queue q))) es queue' →
        Runs prio queue (.put q t :: es) queue'
  | take {queue queue' : QueueId → List Tid} {q : QueueId} {t : Tid} {rest : List Tid}
      {es : List QueueEvent} : queue q = t :: rest →
        Runs prio (Function.update queue q rest) es queue' →
          Runs prio queue (.take q t :: es) queue'

/-- Each thread that is taken off a list is the first of those of the greatest priority. -/
def ServedInOrder (prio : Tid → Int) : (QueueId → List Tid) → List QueueEvent → Prop
  | _, [] => True
  | arrivals, .put q t :: es => ServedInOrder prio ((QueueEvent.put q t).record arrivals) es
  | arrivals, .take q t :: es => FirstOfMax prio (arrivals q) t ∧
      ServedInOrder prio ((QueueEvent.take q t).record arrivals) es

/-- The lists are the stable queues of the arrivals. -/
def Stable (prio : Tid → Int) (queue arrivals : QueueId → List Tid) : Prop :=
  ∀ q, queue q = stableQueue prio (arrivals q)

/-- The lists after a sequence of events, in which the thread taken off the ready list is `next`. -/
structure Serves (prio : Tid → Int) (queue : QueueId → List Tid) (es : List QueueEvent)
    (queue' : QueueId → List Tid) (next : Tid) : Prop where
  runs : Runs prio queue es queue'
  dispatches : ∀ t, .take .ready t ∈ es → next = t

section Runs

variable {prio : Tid → Int} {queue queue' arrivals : QueueId → List Tid} {es : List QueueEvent}
  {q : QueueId} {s : SemaId} {t next : Tid} {rest : List Tid}

theorem Serves.nil (prio : Tid → Int) (queue : QueueId → List Tid) (next : Tid) :
    Serves prio queue [] queue next :=
  ⟨.nil queue, by simp⟩

theorem Serves.put (h : Serves prio (Function.update queue q (insertByKey prio t (queue q))) es
    queue' next) : Serves prio queue (.put q t :: es) queue' next :=
  ⟨.put h.runs, fun u hu => h.dispatches u (by simpa using hu)⟩

theorem Serves.takeWaiter (hq : queue (.waiters s) = t :: rest)
    (h : Serves prio (Function.update queue (.waiters s) rest) es queue' next) :
    Serves prio queue (.take (.waiters s) t :: es) queue' next :=
  ⟨.take hq h.runs, fun u hu => h.dispatches u (by simpa using hu)⟩

theorem Runs.eq_of_nil (h : Runs prio queue [] queue') : queue' = queue := by
  cases h
  rfl

theorem Runs.mem_of_takeFront {q' : QueueId} {ts : List Tid}
    (h : Runs prio queue (takeFront q ts) queue') (ht : t ∈ queue' q') : t ∈ queue q' := by
  cases ts with
  | nil => exact h.eq_of_nil ▸ ht
  | cons u us =>
    cases h with
    | take hq h =>
      rw [h.eq_of_nil] at ht
      by_cases hqq : q' = q
      · subst hqq
        rw [Function.update_self] at ht
        rw [hq]
        exact List.mem_cons_of_mem u ht
      · rwa [Function.update_of_ne hqq] at ht

theorem Stable.put (h : Stable prio queue arrivals) :
    Stable prio (Function.update queue q (insertByKey prio t (queue q)))
      ((QueueEvent.put q t).record arrivals) := by
  intro q'
  by_cases hq : q' = q
  · subst hq
    simp only [QueueEvent.record, Function.update_self, stableQueue_concat]
    rw [h q']
  · simpa only [QueueEvent.record, Function.update_of_ne hq] using h q'

theorem Stable.take (h : Stable prio queue arrivals) (hq : queue q = t :: rest) :
    Stable prio (Function.update queue q rest) ((QueueEvent.take q t).record arrivals) := by
  intro q'
  by_cases hqq : q' = q
  · subst hqq
    simp only [QueueEvent.record, Function.update_self]
    exact (stableQueue_serve ((h q').symm.trans hq)).symm
  · simpa only [QueueEvent.record, Function.update_of_ne hqq] using h q'

/-- Lists that are stable queues stay so, and serve their threads in order. -/
theorem Runs.stable (h : Runs prio queue es queue') (hstable : Stable prio queue arrivals) :
    Stable prio queue' (es.foldl QueueEvent.record arrivals) ∧ ServedInOrder prio arrivals es := by
  induction h generalizing arrivals with
  | nil => exact ⟨hstable, trivial⟩
  | put _ ih => exact ih hstable.put
  | @take queue _ q _ _ _ hq _ ih =>
    obtain ⟨hrest, hserved⟩ := ih (hstable.take hq)
    exact ⟨hrest, firstOfMax_of_stableQueue_eq ((hstable q).symm.trans hq), hserved⟩

/-- With other priorities, but not of the threads on the lists. -/
theorem Stable.congr {prio' : Tid → Int} (h : Stable prio queue arrivals)
    (hprio : ∀ q, ∀ t ∈ queue q, prio' t = prio t) : Stable prio' queue arrivals := by
  intro q
  rw [h q]
  refine (stableQueue_congr fun t ht => hprio q t ?_).symm
  rw [h q]
  exact mem_stableQueue.mpr ht

end Runs

/-! ## The scheduler -/

namespace Sched

variable {s s' : Sched} {next t : Tid} {rest : List Tid} {queue : QueueId → List Tid}

@[simp] theorem push_prio (actions : List Action) : (s.push actions).prio = s.prio := by
  funext u
  by_cases hu : u = s.running <;> simp [prio, hu]

@[simp] theorem setStatus_prio (status : ThreadStatus) : (s.setStatus t status).prio = s.prio := by
  funext u
  by_cases hu : u = t <;> simp [prio, hu]

@[simp] theorem pop_prio : s.pop.prio = s.prio := by
  funext u
  by_cases hu : u = s.running <;> simp [prio, hu]

theorem yielding_prio : (s.yielding .lab2).prio = s.prio := by
  rw [yielding, push_prio, setStatus_prio]
  rfl

theorem readying_prio : (s.readying .lab2 t).prio = s.prio := by
  rw [readying, setStatus_prio]
  rfl

theorem switchTo_prio (h : (s.thread s.running).status ≠ .dying) :
    (s.switchTo next rest).prio = s.prio := by
  funext u
  unfold prio switchTo
  by_cases hu : u = next
  · simp [hu]
  · have hkeep : ¬ (u = s.running ∧ (s.thread u).status = .dying ∧ u ≠ s.initialThread) := by
      rintro ⟨rfl, hdying, -⟩
      exact h hdying
    simp only [if_neg hu, if_neg hkeep]

/-- `next_thread_to_run` serves the ready list. -/
theorem Next.serves {prio : Tid → Int} (h : s.Next next rest)
    (hqueue : queue .ready = s.readyList) :
    Serves prio queue (takeFront .ready s.readyList) (Function.update queue .ready rest) next := by
  rcases h with hlist | ⟨hlist, rfl, -⟩
  · rw [hlist] at hqueue ⊢
    exact ⟨.take hqueue (.nil _), fun t ht => by simpa [takeFront, eq_comm] using ht⟩
  · rw [hlist] at hqueue ⊢
    have hsame : Function.update queue .ready [] = queue := by
      rw [← hqueue, Function.update_eq_self]
    rw [hsame]
    exact .nil prio queue next

theorem threadBlock_serves {prio : Tid → Int} (hs : s.threadBlock = .ok s')
    (hqueue : queue .ready = s.readyList) :
    Serves prio queue (takeFront .ready s.readyList) (Function.update queue .ready s'.readyList)
      s'.running ∧ s'.prio = s.prio := by
  obtain ⟨-, -, -, next, rest, hnext, -, rfl⟩ := threadBlock_eq_ok.mp hs
  refine ⟨hnext.serves hqueue, ?_⟩
  rw [switchTo_prio (by simp), setStatus_prio]

theorem threadExit_serves {prio : Tid → Int} (hs : s.threadExit = .ok s')
    (hqueue : queue .ready = s.readyList) :
    Serves prio queue (takeFront .ready s.readyList) (Function.update queue .ready s'.readyList)
      s'.running := by
  obtain ⟨-, -, next, rest, hnext, -, rfl⟩ := threadExit_eq_ok.mp hs
  exact hnext.serves hqueue

theorem threadYield_serves (hs : s.threadYield .lab2 = .ok s')
    (hqueue : queue .ready = s.readyList) :
    Serves s.prio queue s.yieldEvents (Function.update queue .ready s'.readyList) s'.running ∧
      s'.prio = s.prio := by
  obtain ⟨-, -, next, rest, hnext, -, rfl⟩ := threadYield_eq_ok.mp hs
  have hready : (s.yielding .lab2).readyList =
      if some s.running ≠ s.idleThread then insertByKey s.prio s.running s.readyList
      else s.readyList := rfl
  refine ⟨?_, ?_⟩
  · unfold yieldEvents
    split_ifs at hready ⊢ with hidle
    · refine .put ?_
      have hrun := @Next.serves _ _ _ (Function.update queue .ready
        (insertByKey s.prio s.running s.readyList)) s.prio hnext
        (by rw [hready, Function.update_self])
      rw [hready, Function.update_idem] at hrun
      rwa [hqueue]
    · have hrun := @Next.serves _ _ _ queue s.prio hnext (hqueue.trans hready.symm)
      rwa [hready] at hrun
  · rw [switchTo_prio (by simp [yielding]), yielding_prio]

theorem yieldEvents_congr (hprio : s'.prio = s.prio) (hrunning : s'.running = s.running)
    (hidle : s'.idleThread = s.idleThread) (hready : s'.readyList = s.readyList) :
    s'.yieldEvents = s.yieldEvents := by
  rw [yieldEvents, yieldEvents, hprio, hrunning, hidle, hready]

theorem unblockEvents_congr (hprio : s'.prio = s.prio) (hrunning : s'.running = s.running)
    (hidle : s'.idleThread = s.idleThread) (hready : s'.readyList = s.readyList) :
    s'.unblockEvents t = s.unblockEvents t := by
  have hpreempts : s'.Preempts .lab2 t ↔ s.Preempts .lab2 t := by
    change _ ∧ s'.prio t > s'.prio s'.running ∧ _ ↔ _ ∧ s.prio t > s.prio s.running ∧ _
    rw [hprio, hrunning, hidle]
  have hreadying : (s'.readying .lab2 t).yieldEvents = (s.readying .lab2 t).yieldEvents := by
    refine yieldEvents_congr (by rw [readying_prio, readying_prio, hprio]) hrunning hidle ?_
    change insertByKey s'.prio t s'.readyList = insertByKey s.prio t s.readyList
    rw [hprio, hready]
  simp only [unblockEvents, hpreempts, hreadying]

theorem threadUnblock_serves (hrunning : s.RunningOk) (hs : s.threadUnblock .lab2 t = .ok s')
    (hqueue : queue .ready = s.readyList) :
    Serves s.prio queue (s.unblockEvents t) (Function.update queue .ready s'.readyList) s'.running ∧
      s'.prio = s.prio := by
  obtain ⟨-, -, hs⟩ := (threadUnblock_eq_ok hrunning).mp hs
  have hready : (s.readying .lab2 t).readyList = insertByKey s.prio t s.readyList := rfl
  unfold unblockEvents
  split_ifs at hs ⊢ with hpreempts
  · have hput : (Function.update queue .ready (insertByKey s.prio t (queue .ready))) .ready =
        (s.readying .lab2 t).readyList := by
      rw [Function.update_self, hqueue, hready]
    obtain ⟨hserves, hprio⟩ := threadYield_serves hs hput
    rw [yieldEvents_congr (push_prio _) rfl rfl rfl, push_prio, readying_prio,
      Function.update_idem] at hserves
    exact ⟨.put hserves, hprio.trans (by rw [push_prio, readying_prio])⟩
  · obtain ⟨-, rfl⟩ := hs
    refine ⟨.put ?_, readying_prio⟩
    rw [hqueue]
    exact .nil _ _ _

end Sched

/-! ## The kernel -/

/-- The actions that change no list. -/
def Action.servesNone : Action → Bool
  | .threadUnblock _ | .createUnblock _ | .threadBlock | .idleLoop | .sleepBlock | .threadExit
  | .threadYield | .semaphoreDown _ | .semaphoreRetest _ _ | .semaphoreUp _
  | .semaphoreInit _ _ => false
  | _ => true

/-- The actions that change the priority of a thread. -/
def Action.setsPriority : Action → Bool
  | .threadCreate _ _ _ | .storePriority _ | .threadExit => true
  | _ => false

namespace Kernel

variable {k k' : Kernel} {lab : Lab} {a : Action} {s : SemaId} {t : Tid} {rest : List Action}

/-- Most actions neither change the ready list nor a priority. -/
theorem exec_quiet (ha : a.servesNone = true) (hk : k.exec lab a = .ok k') :
    k'.sched.readyList = k.sched.readyList ∧
      (a.setsPriority = false → k'.sched.prio = k.sched.prio) := by
  cases a
  case contextCheck | notHeldCheck | heldCheck | waitScan | waitInspect | waitNext | broadcast |
      sleepStart | sleepScan | sleepOuter | sleepOuterNext | sleepInner | sleepInnerNext |
      sleepReturn =>
    rcases exec_steers rfl hk with ⟨-, rfl⟩ | ⟨pushed, -, rfl⟩
    · exact ⟨rfl, fun _ => rfl⟩
    · exact ⟨rfl, fun _ => Sched.push_prio pushed⟩
  all_goals simp only [exec, onSched_eq_ok, bind_eq_ok] at hk
  case threadUnblock | createUnblock | threadBlock | idleLoop | sleepBlock | threadExit |
      threadYield | semaphoreDown | semaphoreRetest | semaphoreUp | semaphoreInit => cases ha
  case intrSetLevel | threadBlockReturn =>
    obtain ⟨s, hs, rfl⟩ := hk
    obtain ⟨-, rfl⟩ := Sched.intrSetLevel_eq_ok.mp hs
    exact ⟨rfl, fun _ => rfl⟩
  case threadCreate t priority function =>
    rcases threadCreate_eq_ok.mp hk with ⟨-, rfl⟩ | ⟨-, -, rfl⟩
    · exact ⟨rfl, fun _ => rfl⟩
    · exact ⟨rfl, fun hno => by cases hno⟩
  case storePriority priority =>
    obtain ⟨cur, -, hk⟩ := hk
    cases pure_eq_ok.mp hk
    exact ⟨rfl, fun hno => by cases hno⟩
  case idleStart | setHolder =>
    obtain ⟨cur, -, hk⟩ := hk
    cases pure_eq_ok.mp hk
    exact ⟨rfl, fun _ => rfl⟩
  case iret | clearHolder | waitReturn | waitLink =>
    cases pure_eq_ok.mp hk
    exact ⟨rfl, fun _ => rfl⟩
  case sleepDisable =>
    cases pure_eq_ok.mp hk
    exact ⟨rfl, fun _ => Sched.push_prio _⟩
  case sleepStore total =>
    cases pure_eq_ok.mp hk
    refine ⟨rfl, fun _ => (Sched.push_prio _).trans ?_⟩
    funext u
    by_cases hu : u = k.running <;> simp [Sched.prio, hu]
  case signalWaiter c =>
    cases pure_eq_ok.mp hk
    unfold signalWaiter
    split
    · exact ⟨rfl, fun _ => rfl⟩
    · exact ⟨rfl, fun _ => Sched.push_prio _⟩
  case sleepLink before =>
    obtain ⟨k₁, hinsert, hk⟩ := hk
    simp only [listInsert, bind_eq_ok, check_eq_ok, pure_eq_ok, exists_const] at hinsert hk
    obtain ⟨-, rfl⟩ := hinsert
    subst hk
    exact ⟨rfl, fun _ => Sched.push_prio _⟩

theorem queue_of_sema (h : k'.sema = k.sema) :
    k'.queue = Function.update k.queue .ready k'.sched.readyList := by
  funext q
  cases q with
  | ready => rw [Function.update_self]; rfl
  | waiters s =>
    rw [Function.update_of_ne (by simp)]
    exact congrArg (fun sema => (sema s).waiters) h

theorem queue_of_setSema {x : Semaphore} (h : k'.sema = Function.update k.sema s x) :
    k'.queue = Function.update (Function.update k.queue (.waiters s) x.waiters) .ready
      k'.sched.readyList := by
  funext q
  cases q with
  | ready => rw [Function.update_self]; rfl
  | waiters s' =>
    rw [Function.update_of_ne (by simp)]
    simp only [queue, h]
    by_cases hs : s' = s
    · rw [hs, Function.update_self, Function.update_self]
    · rw [Function.update_of_ne hs, Function.update_of_ne (by simpa using hs)]
      rfl

/-- A semaphore is changed, but not its waiters. -/
theorem queue_eq_of_setSema {x : Semaphore} (h : k'.sema = Function.update k.sema s x)
    (hx : x.waiters = (k.sema s).waiters) (hready : k'.sched.readyList = k.sched.readyList) :
    k'.queue = k.queue := by
  rw [queue_of_setSema h, hready, hx, show (k.sema s).waiters = k.queue (.waiters s) from rfl,
    Function.update_eq_self]
  exact Function.update_eq_self QueueId.ready k.queue

theorem semaphoreTest_serves {old : IntrLevel} (hk : k.semaphoreTest .lab2 s old = .ok k') :
    Serves k.sched.prio k.queue (k.actionEvents (.semaphoreRetest s old)) k'.queue k'.running ∧
      k'.sched.prio = k.sched.prio := by
  simp only [actionEvents]
  have hsema := (semaphoreTest_framed hk).sema
  simp only [semaAfter] at hsema
  rcases semaphoreTest_eq_ok.mp hk with ⟨hvalue, -, sched, hs, rfl⟩ | ⟨hvalue, sched, hs, rfl⟩
  · obtain ⟨hserves, hprio⟩ := @Sched.threadBlock_serves _ _ (Function.update k.queue (.waiters s)
      (insertByKey k.sched.prio k.running (k.queue (.waiters s)))) k.sched.prio hs
      (Function.update_of_ne (by simp) _ _)
    refine ⟨?_, hprio.trans (Sched.push_prio _)⟩
    rw [if_pos hvalue] at hsema ⊢
    rw [queue_of_setSema hsema]
    exact .put hserves
  · obtain ⟨-, rfl⟩ := Sched.intrSetLevel_eq_ok.mp hs
    refine ⟨?_, rfl⟩
    rw [if_neg hvalue] at hsema ⊢
    rw [queue_eq_of_setSema hsema rfl rfl]
    exact .nil _ _ _

theorem semaphoreUp_serves (h : k.sched.Inv) (hk : k.semaphoreUp .lab2 s = .ok k') :
    Serves k.sched.prio k.queue (k.actionEvents (.semaphoreUp s)) k'.queue k'.running ∧
      k'.sched.prio = k.sched.prio := by
  have hsema := (@exec_framed k k' .lab2 (.semaphoreUp s) hk).sema
  obtain ⟨sched, hs, hk'⟩ := semaphoreUp_eq_ok.mp hk
  have hsched : k'.sched = sched := congrArg Kernel.sched hk'
  simp only [semaAfter, actionEvents] at hsema ⊢
  cases hw : (k.sema s).waiters with
  | nil =>
    rw [hw] at hs
    obtain ⟨-, rfl⟩ := Sched.intrSetLevel_eq_ok.mp hs
    rw [queue_eq_of_setSema hsema (by rw [hw, List.tail_nil]) (by rw [hsched]; rfl), hsched]
    exact ⟨.nil _ _ _, rfl⟩
  | cons t ts =>
    rw [hw] at hs hsema
    rw [queue_of_setSema hsema, show k'.running = sched.running from congrArg Sched.running hsched,
      hsched]
    have hoff : (k.sched.intrDisable.push [.intrSetLevel k.sched.level]).Inv :=
      (h.setLevel .off).push _
    obtain ⟨hserves, hprio⟩ := @Sched.threadUnblock_serves _ _ t
      (Function.update k.queue (.waiters s) ts) hoff.runningOk hs
      (Function.update_of_ne (by simp) _ _)
    have hsame : (k.sched.intrDisable.push [.intrSetLevel k.sched.level]).prio = k.sched.prio :=
      Sched.push_prio _
    rw [@Sched.unblockEvents_congr k.sched _ t hsame rfl rfl rfl, hsame] at hserves
    exact ⟨.takeWaiter hw hserves, hprio.trans hsame⟩

/-- What an action does with the lists. -/
theorem exec_serves (h : k.sched.Inv)
    (hinit : ∀ s value, a = .semaphoreInit s value → (k.sema s).waiters = [])
    (hk : k.exec .lab2 a = .ok k') :
    Serves k.sched.prio k.queue (k.actionEvents a) k'.queue k'.running ∧
      (a.setsPriority = false → k'.sched.prio = k.sched.prio) := by
  cases hquiet : a.servesNone with
  | true =>
    obtain ⟨hready, hprio⟩ := exec_quiet hquiet hk
    refine ⟨?_, hprio⟩
    have hnone : k.actionEvents a = [] := by cases a <;> first | rfl | cases hquiet
    have hsema : k'.sema = k.sema := by
      rw [(exec_framed hk).sema]
      cases a <;> first | rfl | cases hquiet
    have hsame : Function.update k.queue .ready k.sched.readyList = k.queue :=
      Function.update_eq_self _ _
    rw [hnone, queue_of_sema hsema, hready, hsame]
    exact .nil _ _ _
  | false =>
    have hsched : ∀ {f : Sched → Except Panic Sched}, k.onSched f = .ok k' →
        ∃ sched, f k.sched = .ok sched ∧ k'.sched = sched ∧ k'.running = sched.running ∧
          k'.queue = Function.update k.queue .ready sched.readyList := by
      intro f hf
      obtain ⟨sched, hs, rfl⟩ := onSched_eq_ok.mp hf
      exact ⟨sched, hs, rfl, rfl, @queue_of_sema k { k with sched := sched } rfl⟩
    cases a <;> try (cases hquiet; done)
    case semaphoreDown s =>
      obtain ⟨-, hk⟩ := semaphoreDown_eq_ok.mp hk
      obtain ⟨hserves, hprio⟩ := semaphoreTest_serves hk
      exact ⟨hserves, fun _ => hprio⟩
    case semaphoreRetest s old =>
      obtain ⟨hserves, hprio⟩ := semaphoreTest_serves hk
      exact ⟨hserves, fun _ => hprio⟩
    case semaphoreUp s =>
      obtain ⟨hserves, hprio⟩ := semaphoreUp_serves h hk
      exact ⟨hserves, fun _ => hprio⟩
    case semaphoreInit s value =>
      have hsema := (exec_framed hk).sema
      cases pure_eq_ok.mp hk
      refine ⟨?_, fun _ => rfl⟩
      rw [queue_eq_of_setSema hsema (hinit s value rfl).symm rfl]
      exact .nil _ _ _
    case threadUnblock t | createUnblock t =>
      obtain ⟨sched, hs, hsame, hrunning, hqueue⟩ := hsched hk
      rw [hqueue, hrunning, hsame]
      obtain ⟨hserves, hprio⟩ := @Sched.threadUnblock_serves _ _ t k.queue h.runningOk hs rfl
      exact ⟨hserves, fun _ => hprio⟩
    case threadBlock | idleLoop =>
      simp only [exec] at hk
      obtain ⟨sched, hs, hsame, hrunning, hqueue⟩ := hsched hk
      rw [hqueue, hrunning, hsame]
      obtain ⟨hserves, hprio⟩ := @Sched.threadBlock_serves _ _ k.queue k.sched.prio hs rfl
      exact ⟨hserves, fun _ => hprio.trans (@Sched.push_prio k.sched.intrDisable _)⟩
    case sleepBlock =>
      simp only [exec] at hk
      obtain ⟨sched, hs, hsame, hrunning, hqueue⟩ := hsched hk
      rw [hqueue, hrunning, hsame]
      obtain ⟨hserves, hprio⟩ := @Sched.threadBlock_serves _ _ k.queue k.sched.prio hs rfl
      exact ⟨hserves, fun _ => hprio.trans (Sched.push_prio _)⟩
    case threadExit =>
      obtain ⟨sched, hs, hsame, hrunning, hqueue⟩ := hsched hk
      rw [hqueue, hrunning, hsame]
      exact ⟨Sched.threadExit_serves hs rfl, fun hno => by cases hno⟩
    case threadYield =>
      obtain ⟨sched, hs, hsame, hrunning, hqueue⟩ := hsched hk
      rw [hqueue, hrunning, hsame]
      obtain ⟨hserves, hprio⟩ := @Sched.threadYield_serves _ _ k.queue hs rfl
      exact ⟨hserves, fun _ => hprio⟩

/-! ## Steps -/

theorem popped_queue : k.popped.queue = k.queue := by
  funext q
  cases q <;> rfl

theorem popped_actionEvents : k.popped.actionEvents a = k.actionEvents a := by
  have hyield : k.popped.sched.yieldEvents = k.sched.yieldEvents :=
    Sched.yieldEvents_congr Sched.pop_prio rfl rfl rfl
  have hunblock : ∀ t, k.popped.sched.unblockEvents t = k.sched.unblockEvents t :=
    fun t => Sched.unblockEvents_congr Sched.pop_prio rfl rfl rfl
  cases a <;> simp only [actionEvents, hyield, hunblock] <;> rfl

/-- A thread on a list does not run. -/
theorem BlockInv.of_mem_queue {q : QueueId} (h : k.BlockInv) (ht : t ∈ k.queue q) :
    t ≠ k.running ∧ (k.thread t).magic = true := by
  cases q with
  | ready =>
    refine ⟨?_, h.sched.magic t ht⟩
    rintro rfl
    exact h.sched.running_notMem ht
  | waiters s =>
    obtain ⟨hne, -, hmagic, -⟩ := h.waiter ((h.waits s t).mp ht)
    exact ⟨hne, hmagic⟩

/-- A thread keeps its priority in an action, unless it changes its own or ends. -/
theorem act_prio (h : k.BlockInv) (hstack : k.stack k.running = a :: rest)
    (hk : k.step .lab2 .act = .ok k') (hmagic : (k.thread t).magic = true)
    (hown : t = k.running → (∀ priority, a ≠ .storePriority priority) ∧ a ≠ .threadExit) :
    k'.sched.prio t = k.sched.prio t := by
  rw [step_act hstack] at hk
  rw [← @Sched.pop_prio k.sched]
  cases hsets : a.setsPriority with
  | false =>
    have hinit : ∀ s value, a = .semaphoreInit s value → (k.popped.sema s).waiters = [] := by
      rintro s value rfl
      exact h.init_waiters hstack
    exact congrFun ((exec_serves h.sched.pop hinit hk).2 hsets) t
  | true =>
    cases a <;> try (cases hsets; done)
    case storePriority priority =>
      have hne : t ≠ k.sched.running := fun ht => (hown ht).1 priority rfl
      simp only [exec, bind_eq_ok] at hk
      obtain ⟨cur, hcur, hk⟩ := hk
      obtain ⟨-, rfl⟩ := Sched.threadCurrent_eq_ok.mp hcur
      cases pure_eq_ok.mp hk
      simp [Sched.prio, hne]
    case threadCreate v priority function =>
      rcases threadCreate_eq_ok.mp hk with ⟨-, rfl⟩ | ⟨hfree, -, rfl⟩
      · rfl
      · have htv : t ≠ v := by
          rintro rfl
          rw [popped_magic, hmagic] at hfree
          cases hfree
        rw [Sched.prio, Sched.creating_thread_of_ne htv]
        exact congrFun (@Sched.push_prio k.popped.sched _) t
    case threadExit =>
      obtain ⟨s, hs, rfl⟩ := onSched_eq_ok.mp hk
      exact (h.sched.pop.threadExit_exits hs).priority t fun ht => (hown ht).2 rfl

theorem act_serves (h : k.BlockInv) (hstack : k.stack k.running = a :: rest)
    (hk : k.step .lab2 .act = .ok k') :
    Serves k.sched.prio k.queue (k.queueEvents .act) k'.queue k'.running ∧
      ∀ q, ∀ t ∈ k'.queue q, k'.sched.prio t = k.sched.prio t := by
  have hevents : k.queueEvents .act = k.actionEvents a := by
    simp only [queueEvents, hstack]
  have hexec := hk
  rw [step_act hstack] at hexec
  have hinit : ∀ s value, a = .semaphoreInit s value → (k.popped.sema s).waiters = [] := by
    rintro s value rfl
    exact h.init_waiters hstack
  obtain ⟨hserves, hprio⟩ := exec_serves h.sched.pop hinit hexec
  rw [popped_actionEvents, popped_queue, Sched.pop_prio] at hserves
  rw [hevents]
  refine ⟨hserves, ?_⟩
  intro q t ht
  cases hsets : a.setsPriority with
  | false => rw [hprio hsets, Sched.pop_prio]
  | true =>
    -- such an action puts no thread on a list
    have hmem : t ∈ k.queue q := by
      cases a <;> try (cases hsets; done)
      case storePriority | threadCreate => exact hserves.runs.eq_of_nil ▸ ht
      case threadExit => exact hserves.runs.mem_of_takeFront ht
    obtain ⟨hne, hmagic⟩ := h.of_mem_queue hmem
    exact act_prio h hstack hk hmagic fun hrunning => absurd hrunning hne

/-- While no thread is asleep, a timer interrupt does at most what `thread_yield` does. -/
theorem tick_serves (hempty : k.timerList.next .head = some .tail)
    (hk : k.step .lab2 .tick = .ok k') :
    Serves k.sched.prio k.queue (k.queueEvents .tick) k'.queue k'.running ∧
      k'.sched.prio = k.sched.prio := by
  obtain ⟨-, k₁, hk₁, -, -, hk'⟩ := intrHandler_eq_ok.mp hk
  obtain ⟨s, e, hs, he, hwake⟩ := timerInterrupt_eq_ok.mp hk₁
  obtain ⟨-, -, rfl⟩ := Sched.threadTick_eq_ok.mp hs
  have htail : e = .tail := by
    have hbegin : k.listBegin = .ok e := he
    simp only [listBegin, hempty, pure_eq_ok] at hbegin
    exact hbegin.symm
  have hk₁' : k₁ = k.ticking := by
    subst htail
    cases hlen : k.sched.allList.length <;>
      rw [show k.interrupted.sched.allList.length = _ from hlen] at hwake <;>
      exact (pure_eq_ok.mp hwake).symm
  subst hk₁'
  have hyields : k.ticking.sched.yieldOnReturn = true ↔ k.sched.threadTicks + 1 ≥ timeSlice := by
    simp [ticking]
  have hprio : ({ k.ticking.sched with inExternalIntr := false } : Sched).prio = k.sched.prio :=
    @Sched.push_prio k.sched [.iret]
  simp only [queueEvents]
  by_cases hslice : k.sched.threadTicks + 1 ≥ timeSlice
  · rw [if_pos hslice]
    rw [if_pos (hyields.mpr hslice)] at hk'
    obtain ⟨sched, hs, rfl⟩ := hk'
    obtain ⟨hserves, hsame⟩ := @Sched.threadYield_serves _ _ k.queue hs rfl
    rw [@Sched.yieldEvents_congr k.sched _ hprio rfl rfl rfl, hprio] at hserves
    refine ⟨?_, hsame.trans hprio⟩
    rw [@queue_of_sema k { k.ticking with sched := sched } rfl]
    exact hserves
  · rw [if_neg hslice]
    rw [if_neg (fun hno => hslice (hyields.mp hno))] at hk'
    subst hk'
    refine ⟨?_, hprio⟩
    have hsame : ({ k.ticking with
        sched := { k.ticking.sched with inExternalIntr := false } } : Kernel).queue = k.queue := by
      funext q
      cases q <;> rfl
    rw [hsame]
    exact .nil _ _ _

/-- What a step does with the lists. -/
theorem step_serves {e : Event} (h : k.BlockInv) (hawake : k.AwakeInv) (he : k.Enabled e)
    (hk : k.step .lab2 e = .ok k') :
    Serves k.sched.prio k.queue (k.queueEvents e) k'.queue k'.running ∧
      ∀ q, ∀ t ∈ k'.queue q, k'.sched.prio t = k.sched.prio t := by
  cases e with
  | act =>
    obtain ⟨a, rest, hstack⟩ := List.exists_cons_of_ne_nil he
    exact act_serves h hstack hk
  | call op =>
    cases pure_eq_ok.mp hk
    refine ⟨?_, fun q t _ => congrFun (Sched.push_prio _) t⟩
    have hsame : ∀ held, ({ k with
        sched := k.sched.push (op.body .lab2 k.running), held := held } : Kernel).queue =
        k.queue := by
      intro held
      funext q
      cases q <;> rfl
    rw [hsame]
    exact .nil _ _ _
  | tick =>
    obtain ⟨hserves, hprio⟩ := tick_serves hawake.timerList hk
    exact ⟨hserves, fun q t _ => congrFun hprio t⟩

end Kernel

/-! ## Runs -/

namespace QueueRun

variable {s s' : QueueRun} {e : Event} {init : Nat → Nat}

theorem step_eq_ok : s.step e = .ok s' ↔ s.kernel.step .lab2 e = .ok s'.kernel ∧
    s'.arrivals = (s.kernel.queueEvents e).foldl QueueEvent.record s.arrivals := by
  obtain ⟨k', arrivals'⟩ := s'
  simp only [step, bind_eq_ok, pure_eq_ok, mk.injEq]
  constructor
  · rintro ⟨k, hk, rfl, rfl⟩
    exact ⟨hk, rfl⟩
  · rintro ⟨hk, rfl⟩
    exact ⟨k', hk, rfl, rfl⟩

structure QueueInv (s : QueueRun) : Prop where
  block : s.kernel.BlockInv
  awake : s.kernel.AwakeInv
  stable : Stable s.kernel.sched.prio s.kernel.queue s.arrivals

theorem QueueInv.step (h : s.QueueInv) (he : s.Admits e) (hs : s.step e = .ok s') :
    s'.QueueInv := by
  obtain ⟨hk, harrivals⟩ := step_eq_ok.mp hs
  obtain ⟨hserves, hprio⟩ := Kernel.step_serves h.block h.awake he.1 hk
  refine ⟨h.block.step h.awake he hk, h.awake.step h.block.sched he.1 he.2.2 hk, ?_⟩
  rw [harrivals]
  exact (hserves.runs.stable h.stable).1.congr hprio

theorem boot_queueInv (init : Nat → Nat) : (boot init).QueueInv := by
  refine ⟨Kernel.boot_blockInv init, Kernel.boot_awakeInv init, ?_⟩
  intro q
  cases q with
  | ready => rfl
  | waiters s => cases s <;> rfl

theorem reachable_queueInv (hr : Reachable step Admits (boot init) s) : s.QueueInv :=
  Reachable.invariant (boot_queueInv init) (fun _ _ _ _ h he hs => h.step he hs) s hr

/-- In Lab 2 the ready list and the list of waiters of each semaphore are the stable priority queues
of the threads put there and not yet taken off. Whenever a thread is taken off, it is the first of
those of the greatest priority, and the thread taken off the ready list is the one that runs. -/
theorem queues_are_stable (hr : Reachable step Admits (boot init) s) :
    Stable s.kernel.sched.prio s.kernel.queue s.arrivals ∧
    ∀ e s', s.Admits e → s.step e = .ok s' →
      Serves s.kernel.sched.prio s.kernel.queue (s.kernel.queueEvents e) s'.kernel.queue
        s'.kernel.running ∧
      ServedInOrder s.kernel.sched.prio s.arrivals (s.kernel.queueEvents e) := by
  have h := reachable_queueInv hr
  refine ⟨h.stable, ?_⟩
  intro e s' he hs
  obtain ⟨hserves, -⟩ := Kernel.step_serves h.block h.awake he.1 (step_eq_ok.mp hs).1
  exact ⟨hserves, (hserves.runs.stable h.stable).2⟩

instance (s : QueueRun) (e : Event) : Decidable (s.Admits e) :=
  inferInstanceAs (Decidable (s.kernel.Admits e))

/-- The state after a sequence of events from boot, all of them admitted. -/
def runQueues (init : Nat → Nat) (events : List Event) : Option QueueRun :=
  run step (fun s e => decide (s.Admits e)) (boot init) events

theorem reachable_of_runQueues {events : List Event} (h : runQueues init events = some s) :
    Reachable step Admits (boot init) s :=
  reachable_of_run (fun _ _ he => of_decide_eq_true he) .start h

/-- `main` creates two threads of its own priority and calls `thread_yield`. -/
def createTwo : List Event :=
  Kernel.starting ++ Event.call (.threadCreate 2 31) :: List.replicate 9 Event.act ++
    Event.call (.threadCreate 3 31) :: List.replicate 9 Event.act ++ [Event.call .threadYield]

theorem queues_are_stable_createTwo : ∃ s s' : QueueRun,
    runQueues (fun _ => 0) createTwo = some s ∧ s.arrivals .ready = [2, 3] ∧
    s.step .act = .ok s' ∧ s'.kernel.running = 2 ∧
    FirstOfMax s.kernel.sched.prio [2, 3, 0] 2 := by
  have hrun : (runQueues (fun _ => 0) createTwo).map (fun s =>
      (s.arrivals .ready, s.kernel.queueEvents .act, decide (s.Admits .act),
        (s.step .act).isOk)) =
      some ([2, 3], [.put .ready 0, .take .ready 2], true, true) := by
    decide +kernel
  obtain ⟨s, hs, heq⟩ := Option.map_eq_some_iff.mp hrun
  simp only [Prod.mk.injEq, decide_eq_true_eq] at heq
  obtain ⟨harrivals, hevents, hadmits, hstep⟩ := heq
  cases hs' : s.step .act with
  | error p =>
    rw [hs'] at hstep
    cases hstep
  | ok s' =>
    obtain ⟨hserves, hserved⟩ :=
      (queues_are_stable (reachable_of_runQueues hs)).2 .act s' hadmits hs'
    rw [hevents] at hserves hserved
    refine ⟨s, s', hs, harrivals, hs', hserves.dispatches 2 (by simp), ?_⟩
    have hfirst := hserved.1
    simp only [QueueEvent.record, Function.update_self, harrivals] at hfirst
    exact hfirst

end QueueRun

end CSE130.Pintos
