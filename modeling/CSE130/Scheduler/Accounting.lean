import CSE130.Library.Spans
import CSE130.Scheduler.Custody

/-!
# The times in a record

The member `last_on` of a record serves three kinds of waiting: in `ready_queue`, for the start of an
I/O request, and after a preemption. The events say when a thread entered and left each of them; the
members `waiting_time` and `running_time` of a finished record agree with the events, as `int`s.
-/

namespace CSE130.Scheduler

open Pager (toInt32)
open Library (Reachable)
open scoped List

/-! ## The times that the events give -/

def isTicked : Event → Bool
  | .ticked _ => true
  | _ => false

def isReady (t : Thread) : Event → Bool
  | .ready u => u = t
  | _ => false

def isDispatch (t : Thread) : Event → Bool
  | .dispatch u _ => u = t
  | _ => false

def isRequest (t : Thread) : Event → Bool
  | .request u => u = t
  | _ => false

def isStarting (t : Thread) : Event → Bool
  | .starting u => u = t
  | _ => false

def isExec (t : Thread) : Event → Bool
  | .exec u => u = t
  | _ => false

def isExit (t : Thread) : Event → Bool
  | .exit u => u = t
  | _ => false

/-- The number of calls of `tick` that have returned. -/
abbrev time : List Event → Nat := Library.clock isTicked

/-- The stays of a thread in `ready_queue` that are over: when it was enqueued and when it was
dispatched. -/
def stays (t : Thread) : List Event → List (Nat × Nat) :=
  Library.spans isTicked (isReady t) (isDispatch t)

/-- The I/O requests of a thread that have been started: when it made them and when they were. -/
def requests (t : Thread) : List Event → List (Nat × Nat) :=
  Library.spans isTicked (isRequest t) (isStarting t)

/-- When the thread entered `ready_queue`, if it is there. -/
def readySince (t : Thread) : List Event → Option Nat :=
  Library.openSince isTicked (isReady t) (isDispatch t)

/-- When the thread made the request that has not been started. -/
def requestSince (t : Thread) : List Event → Option Nat :=
  Library.openSince isTicked (isRequest t) (isStarting t)

def execTimes (t : Thread) : List Event → List Nat := Library.timesOf isTicked (isExec t)

def exitTimes (t : Thread) : List Event → List Nat := Library.timesOf isTicked (isExit t)

/-- The time that a thread has waited: in `ready_queue` from entry to dispatch, and for I/O from the
request to the tick before its start. -/
def waited (t : Thread) (trace : List Event) : Int :=
  ((stays t trace).map fun p => (p.2 - p.1 : Int)).sum +
    ((requests t trace).map fun p => (p.2 - 1 - p.1 : Int)).sum

/-- The thread that an event is about. -/
def Event.about : Event → Option Thread
  | .exec t => some t
  | .exit t => some t
  | .request t => some t
  | .starting t => some t
  | .complete t => some t
  | .ready t => some t
  | .dispatch t _ => some t
  | .ticked _ => none

/-! ## The phases of a thread -/

/-- What a record is waiting for. -/
inductive Phase where
  | waiting (since : Nat)
  | running
  | requested (since : Nat)
  | served
  | finished
  deriving DecidableEq, Repr

def Phase.readySince : Phase → Option Nat
  | .waiting a => some a
  | _ => none

def Phase.requestSince : Phase → Option Nat
  | .requested a => some a
  | _ => none

/-- The thread of a record has been executed once and has not exited. -/
structure Alive (trace : List Event) (x : Times) : Prop where
  began : ∃ a, execTimes x.t trace = [a] ∧ a ≤ time trace ∧ x.begTime = toInt32 a
  exits : exitTimes x.t trace = []

/-- The members of a record in phase `p` agree with the events. -/
structure Accounts (trace : List Event) (x : Times) (p : Phase) : Prop where
  ready : readySince x.t trace = p.readySince
  request : requestSince x.t trace = p.requestSince
  lastOn : ∀ a, p = .waiting a ∨ p = .requested a → x.lastOn = toInt32 a
  waited : x.waitingTime = toInt32 (waited x.t trace)
  alive : p ≠ .finished → Alive trace x
  closed : p = .finished → ∃ a b, execTimes x.t trace = [a] ∧ exitTimes x.t trace = [b] ∧ a ≤ b ∧
    x.runningTime = toInt32 (b - a)

section Transitions

variable {trace : List Event} {x : Times} {p : Phase} {e : Event} {t : Thread}

theorem toInt32_congr {a b : Int} (h : (2 : Int) ^ 32 ∣ a - b) : toInt32 a = toInt32 b := by
  unfold toInt32
  rw [Int.bmod_eq_bmod_iff_bmod_sub_eq_zero]
  exact Int.dvd_iff_bmod_eq_zero.mp h

theorem dvd_toInt32 (a : Int) : (2 : Int) ^ 32 ∣ toInt32 a - a :=
  Int.dvd_bmod_sub_self

/-- The difference of two times in `int`s, added to a sum in `int`s. -/
theorem toInt32_add_sub (w b a : Int) :
    toInt32 (toInt32 w + (toInt32 b - toInt32 a)) = toInt32 (w + (b - a)) := by
  apply toInt32_congr
  have hw := dvd_toInt32 w
  have hb := dvd_toInt32 b
  have ha := dvd_toInt32 a
  omega

theorem isTicked_of_about (h : e.about = some t) : isTicked e = false := by
  cases e <;> simp_all [Event.about, isTicked]

/-- An event that is not about a thread is none of its events. -/
theorem not_of_about_ne (h : e.about ≠ some t) :
    isReady t e = false ∧ isDispatch t e = false ∧ isRequest t e = false ∧
      isStarting t e = false ∧ isExec t e = false ∧ isExit t e = false := by
  cases e <;> simp_all [Event.about, isReady, isDispatch, isRequest, isStarting, isExec, isExit]

theorem time_le (e : Event) (trace : List Event) : time trace ≤ time (e :: trace) := by
  simp [time, Library.clock, List.countP_cons]

/-- An event that neither starts nor ends the thread keeps it alive. -/
theorem Alive.note {x' : Times} (h : Alive trace x) (hexec : isExec x.t e = false)
    (hexit : isExit x.t e = false) (ht : x'.t = x.t) (hbeg : x'.begTime = x.begTime) :
    Alive (e :: trace) x' := by
  obtain ⟨a, ha, hle, hbegin⟩ := h.began
  constructor
  · refine ⟨a, ?_, hle.trans (time_le e trace), hbeg.trans hbegin⟩
    rw [ht]
    exact (Library.timesOf_cons_of_neg hexec).trans ha
  · rw [ht]
    exact (Library.timesOf_cons_of_neg hexit).trans h.exits

/-- An event that is not about its thread leaves a record as it is. -/
theorem Accounts.other (h : Accounts trace x p) (he : e.about ≠ some x.t) :
    Accounts (e :: trace) x p := by
  obtain ⟨hready, hdispatch, hrequest, hstarting, hexec, hexit⟩ := not_of_about_ne he
  constructor
  · exact (Library.openSince_other hdispatch hready).trans h.ready
  · exact (Library.openSince_other hstarting hrequest).trans h.request
  · exact h.lastOn
  · have hstays : stays x.t (e :: trace) = stays x.t trace := Library.spans_other hdispatch
    have hrequests : requests x.t (e :: trace) = requests x.t trace :=
      Library.spans_other hstarting
    rw [h.waited, Scheduler.waited, Scheduler.waited, hstays, hrequests]
  · exact fun hp => (h.alive hp).note hexec hexit rfl rfl
  · intro hp
    obtain ⟨a, b, ha, hb, hle, hrun⟩ := h.closed hp
    exact ⟨a, b, (Library.timesOf_cons_of_neg hexec).trans ha,
      (Library.timesOf_cons_of_neg hexit).trans hb, hle, hrun⟩

/-- The thread enters `ready_queue`. -/
theorem Accounts.enqueue (h : Accounts trace x p) (hp : p = .running ∨ p = .served) :
    Accounts (.ready x.t :: trace) { x with lastOn := toInt32 (time trace) }
      (.waiting (time trace)) := by
  have hopen : isReady x.t (.ready x.t) = true := by simp [isReady]
  have hfinished : p ≠ .finished := by rcases hp with rfl | rfl <;> simp
  have hrequest : p.requestSince = none := by rcases hp with rfl | rfl <;> rfl
  constructor
  · exact Library.openSince_open rfl hopen
  · exact ((Library.openSince_other rfl rfl).trans h.request).trans hrequest
  · rintro a (ha | ha)
    · simp only [Phase.waiting.inj ha]
    · cases ha
  · exact h.waited
  · exact fun _ => (h.alive hfinished).note rfl rfl rfl rfl
  · exact fun hfin => by cases hfin

/-- The thread leaves `ready_queue` for the CPU. -/
theorem Accounts.dispatch {a : Nat} (h : Accounts trace x (.waiting a)) (ready : List Thread) :
    Accounts (.dispatch x.t ready :: trace)
      { x with
        waitingTime := toInt32 (x.waitingTime + (toInt32 (time trace) - x.lastOn))
        lastOn := toInt32 (time trace) } .running := by
  have hclose : isDispatch x.t (.dispatch x.t ready) = true := by simp [isDispatch]
  constructor
  · exact Library.openSince_close hclose
  · exact (Library.openSince_other rfl rfl).trans h.request
  · rintro b (hb | hb) <;> cases hb
  · have hstays : stays x.t (.dispatch x.t ready :: trace) = (a, time trace) :: stays x.t trace :=
      Library.spans_close hclose h.ready
    have hrequests : requests x.t (.dispatch x.t ready :: trace) = requests x.t trace :=
      Library.spans_other rfl
    simp only
    rw [h.waited, h.lastOn a (.inl rfl), toInt32_add_sub, Scheduler.waited, Scheduler.waited,
      hstays, hrequests, List.map_cons, List.sum_cons]
    congr 1
    omega
  · exact fun _ => (h.alive (by simp)).note rfl rfl rfl rfl
  · exact fun hfin => by cases hfin

/-- The thread is dispatched without having been in `ready_queue`. -/
theorem Accounts.dispatch_new (h : Accounts trace x .running) (ready : List Thread) :
    Accounts (.dispatch x.t ready :: trace) x .running := by
  have hclose : isDispatch x.t (.dispatch x.t ready) = true := by simp [isDispatch]
  constructor
  · exact Library.openSince_close hclose
  · exact (Library.openSince_other rfl rfl).trans h.request
  · exact h.lastOn
  · have hstays : stays x.t (.dispatch x.t ready :: trace) = stays x.t trace :=
      Library.spans_close_none hclose h.ready
    have hrequests : requests x.t (.dispatch x.t ready :: trace) = requests x.t trace :=
      Library.spans_other rfl
    rw [h.waited, Scheduler.waited, Scheduler.waited, hstays, hrequests]
  · exact fun _ => (h.alive (by simp)).note rfl rfl rfl rfl
  · exact fun hfin => by cases hfin

/-- The thread leaves the CPU for I/O. -/
theorem Accounts.makeRequest (h : Accounts trace x .running) :
    Accounts (.request x.t :: trace) { x with lastOn := toInt32 (time trace) }
      (.requested (time trace)) := by
  have hopen : isRequest x.t (.request x.t) = true := by simp [isRequest]
  constructor
  · exact (Library.openSince_other rfl rfl).trans h.ready
  · exact Library.openSince_open rfl hopen
  · rintro a (ha | ha)
    · cases ha
    · simp only [Phase.requested.inj ha]
  · exact h.waited
  · exact fun _ => (h.alive (by simp)).note rfl rfl rfl rfl
  · exact fun hfin => by cases hfin

/-- The request of the thread is started. -/
theorem Accounts.serve {a : Nat} (h : Accounts trace x (.requested a)) :
    Accounts (.starting x.t :: trace)
      { x with
        waitingTime := toInt32 (x.waitingTime + (toInt32 (time trace) - 1 - x.lastOn))
        lastOn := toInt32 (time trace) } .served := by
  have hclose : isStarting x.t (.starting x.t) = true := by simp [isStarting]
  constructor
  · exact (Library.openSince_other rfl rfl).trans h.ready
  · exact Library.openSince_close hclose
  · rintro b (hb | hb) <;> cases hb
  · have hstays : stays x.t (.starting x.t :: trace) = stays x.t trace := Library.spans_other rfl
    have hrequests : requests x.t (.starting x.t :: trace) =
        (a, time trace) :: requests x.t trace :=
      Library.spans_close hclose h.request
    have hint : toInt32 (toInt32 (Scheduler.waited x.t trace) +
        (toInt32 (time trace) - 1 - toInt32 a)) =
        toInt32 (Scheduler.waited x.t trace + (time trace - 1 - a)) := by
      apply toInt32_congr
      have hw := dvd_toInt32 (Scheduler.waited x.t trace)
      have hb := dvd_toInt32 (time trace)
      have ha := dvd_toInt32 a
      omega
    simp only
    rw [h.waited, h.lastOn a (.inr rfl), hint, Scheduler.waited, Scheduler.waited, hstays,
      hrequests, List.map_cons, List.sum_cons]
    congr 1
    omega
  · exact fun _ => (h.alive (by simp)).note rfl rfl rfl rfl
  · exact fun hfin => by cases hfin

/-- The request of the thread has completed. -/
theorem Accounts.complete (h : Accounts trace x .served) :
    Accounts (.complete x.t :: trace) x .served := by
  refine ⟨?_, ?_, h.lastOn, h.waited, ?_, ?_⟩
  · exact (Library.openSince_other rfl rfl).trans h.ready
  · exact (Library.openSince_other rfl rfl).trans h.request
  · exact fun _ => (h.alive (by simp)).note rfl rfl rfl rfl
  · exact fun hfin => by cases hfin

/-- The thread finishes. -/
theorem Accounts.finish (h : Accounts trace x .running) :
    Accounts (.exit x.t :: trace)
      { x with runningTime := toInt32 (toInt32 (time trace) - x.begTime) } .finished := by
  have hexit : isExit x.t (.exit x.t) = true := by simp [isExit]
  obtain ⟨⟨a, ha, hle, hbeg⟩, hnone⟩ := h.alive (by simp)
  refine ⟨?_, ?_, ?_, h.waited, ?_, ?_⟩
  · exact (Library.openSince_other rfl rfl).trans h.ready
  · exact (Library.openSince_other rfl rfl).trans h.request
  · rintro b (hb | hb) <;> cases hb
  · exact fun hfin => absurd rfl hfin
  · intro _
    refine ⟨a, time trace, (Library.timesOf_cons_of_neg rfl).trans ha, ?_, hle, ?_⟩
    · rw [← hnone]
      exact Library.timesOf_cons_of_pos hexit
    · simp only
      rw [hbeg]
      apply toInt32_congr
      have hb := dvd_toInt32 (time trace)
      have ha := dvd_toInt32 a
      omega

/-- A new record. -/
theorem accounts_new (hnew : ∀ e ∈ trace, e.about ≠ some t) :
    Accounts (.exec t :: trace)
      { t := t, runningTime := 0, waitingTime := 0, lastOn := toInt32 (time trace),
        begTime := toInt32 (time trace) } .running := by
  have hexec : isExec t (.exec t) = true := by simp [isExec]
  have hready : ∀ e ∈ trace, isReady t e = false := fun e he => (not_of_about_ne (hnew e he)).1
  have hrequest : ∀ e ∈ trace, isRequest t e = false :=
    fun e he => (not_of_about_ne (hnew e he)).2.2.1
  have hdispatch : ∀ e ∈ trace, isDispatch t e = false :=
    fun e he => (not_of_about_ne (hnew e he)).2.1
  have hstarting : ∀ e ∈ trace, isStarting t e = false :=
    fun e he => (not_of_about_ne (hnew e he)).2.2.2.1
  have hexecs : execTimes t trace = [] :=
    Library.timesOf_eq_nil fun e he => (not_of_about_ne (hnew e he)).2.2.2.2.1
  have hexits : exitTimes t trace = [] :=
    Library.timesOf_eq_nil fun e he => (not_of_about_ne (hnew e he)).2.2.2.2.2
  constructor
  · exact (Library.openSince_other rfl rfl).trans (Library.openSince_eq_none hready)
  · exact (Library.openSince_other rfl rfl).trans (Library.openSince_eq_none hrequest)
  · rintro a (ha | ha) <;> cases ha
  · have hstays : stays t (.exec t :: trace) = [] :=
      (Library.spans_other rfl).trans (Library.spans_eq_nil hdispatch)
    have hrequests : requests t (.exec t :: trace) = [] :=
      (Library.spans_other rfl).trans (Library.spans_eq_nil hstarting)
    simp [Scheduler.waited, hstays, hrequests, toInt32]
  · intro _
    refine ⟨⟨time trace, ?_, time_le _ trace, by simp only⟩, ?_⟩
    · rw [← hexecs]
      exact Library.timesOf_cons_of_pos hexec
    · exact (Library.timesOf_cons_of_neg rfl).trans hexits
  · exact fun hfin => by cases hfin

end Transitions

/-! ## The books of the scheduler -/

/-- The phases that a record can be in at its place. -/
def Fits (s : State) (r : Ref) : Phase → Prop
  | .waiting _ => r ∈ s.readyQueue
  | .running => s.curT = some r
  | .requested _ => s.ioT = some r ∨ r ∈ s.ioQueue
  | .served => s.ioT = some r
  | .finished => r ∈ s.doneQueue

/-- The invariant: the records held wrap different threads, every event is about one of them, and
each agrees with the events in a phase that fits its place. -/
structure Booked (s : State) : Prop where
  ticks_eq : s.ticks = toInt32 (time s.trace)
  nodup : s.held.Nodup
  lt_fresh : ∀ r ∈ s.held, r < s.fresh
  inj : ∀ r ∈ s.held, ∀ r' ∈ s.held, s.thread r = s.thread r' → r = r'
  known : ∀ e ∈ s.trace, ∀ t, e.about = some t → ∃ r ∈ s.held, s.thread r = t
  accounts : ∀ r ∈ s.held, ∃ p, Fits s r p ∧ Accounts s.trace (s.store r) p

section Places

variable {s : State} {r : Ref} {p : Phase}

/-- A record is at one place only. -/
theorem count_le_one (h : s.held.Nodup) (r : Ref) :
    s.curT.toList.count r + s.readyQueue.count r + s.ioT.toList.count r + s.ioQueue.count r +
      s.doneQueue.count r ≤ 1 := by
  have hle := List.nodup_iff_count_le_one.mp h r
  simpa [State.held, Nat.add_assoc] using hle

/-- How often a record is at the place where its phase puts it. -/
def placeCount (s : State) (r : Ref) : Phase → Nat
  | .waiting _ => s.readyQueue.count r
  | .running => s.curT.toList.count r
  | .requested _ => s.ioT.toList.count r + s.ioQueue.count r
  | .served => s.ioT.toList.count r + s.ioQueue.count r
  | .finished => s.doneQueue.count r

theorem placeCount_pos (hp : Fits s r p) : 0 < placeCount s r p := by
  cases p with
  | waiting a => exact List.count_pos_iff.mpr hp
  | running =>
    have hc : s.curT = some r := hp
    simp [placeCount, hc]
  | requested a =>
    rcases hp with hi | hq
    · simp only [placeCount, hi, Option.toList_some, List.count_singleton_self]
      omega
    · exact Nat.add_pos_right _ (List.count_pos_iff.mpr hq)
  | served =>
    have hi : s.ioT = some r := hp
    simp only [placeCount, hi, Option.toList_some, List.count_singleton_self]
    omega
  | finished => exact List.count_pos_iff.mpr hp

theorem fits_cur (h : s.held.Nodup) (hr : s.curT = some r) (hp : Fits s r p) : p = .running := by
  have hle := count_le_one h r
  have hpos := placeCount_pos hp
  have hcur : s.curT.toList.count r = 1 := by simp [hr]
  cases p <;> simp only [placeCount, reduceCtorEq] at hpos ⊢ <;> omega

theorem fits_ready (h : s.held.Nodup) (hr : r ∈ s.readyQueue) (hp : Fits s r p) :
    ∃ a, p = .waiting a := by
  have hle := count_le_one h r
  have hpos := placeCount_pos hp
  have hready := List.count_pos_iff.mpr hr
  cases p with
  | waiting a => exact ⟨a, rfl⟩
  | _ => simp only [placeCount] at hpos; omega

theorem fits_ioT (h : s.held.Nodup) (hr : s.ioT = some r) (hp : Fits s r p) :
    p = .served ∨ ∃ a, p = .requested a := by
  have hle := count_le_one h r
  have hpos := placeCount_pos hp
  have hio : s.ioT.toList.count r = 1 := by simp [hr]
  cases p with
  | requested a => exact .inr ⟨a, rfl⟩
  | served => exact .inl rfl
  | _ => simp only [placeCount] at hpos; omega

theorem fits_done (h : s.held.Nodup) (hr : r ∈ s.doneQueue) (hp : Fits s r p) :
    p = .finished := by
  have hle := count_le_one h r
  have hpos := placeCount_pos hp
  have hdone := List.count_pos_iff.mpr hr
  cases p <;> simp only [placeCount, reduceCtorEq] at hpos ⊢ <;> omega

/-- A record that stays, or moves on within its phase, keeps a phase that fits. -/
theorem Fits.mono {s' : State} (hp : Fits s r p) (hready : r ∈ s.readyQueue → r ∈ s'.readyQueue)
    (hcur : s.curT = some r → s'.curT = some r) (hio : s.ioT = some r → s'.ioT = some r)
    (hwaits : r ∈ s.ioQueue → s'.ioT = some r ∨ r ∈ s'.ioQueue)
    (hdone : r ∈ s.doneQueue → r ∈ s'.doneQueue) : Fits s' r p := by
  cases p with
  | waiting a => exact hready hp
  | running => exact hcur hp
  | requested a =>
    cases hp with
    | inl h => exact .inl (hio h)
    | inr h => exact hwaits h
  | served => exact hio hp
  | finished => exact hdone hp

/-- A place for one record does not hold another one. -/
theorem ne_some_of_ne {place : Option Ref} {c : Ref} (hc : place = some c) (hr : r ≠ c) :
    place ≠ some r := by
  rw [hc]
  exact fun heq => hr (Option.some.inj heq).symm

end Places

section Stages

variable {s s' : State} {c r : Ref} {p : Phase} {e : Event} {t : Thread} {y : Times}

theorem time_about (h : e.about = some t) (trace : List Event) : time (e :: trace) = time trace :=
  Library.clock_cons_of_not_tick (isTicked_of_about h)

/-- An event about one record: the others keep their phases. -/
theorem Booked.touch (h : Booked s) (hc : c ∈ s.held) (he : e.about = some (s.thread c))
    (htrace : s'.trace = e :: s.trace)
    (hstore : s'.store = Function.update s.store c y) (hticks : s'.ticks = s.ticks)
    (hfresh : s'.fresh = s.fresh) (hheld : s'.held ~ s.held)
    (hfits : ∀ r ∈ s.held, r ≠ c → ∀ p, Fits s r p → Fits s' r p) (hp : Fits s' c p)
    (hacc : Accounts (e :: s.trace) y p) (hy : y.t = s.thread c) : Booked s' := by
  have hself : s'.store c = y := by rw [hstore, Function.update_self]
  have hother : ∀ r, r ≠ c → s'.store r = s.store r := by
    intro r hr
    rw [hstore, Function.update_of_ne hr]
  have hthread : s'.thread = s.thread := by
    funext r
    by_cases hr : r = c
    · subst hr
      rw [State.thread, hself, hy]
    · rw [State.thread, hother r hr]
      rfl
  constructor
  · rw [hticks, htrace, time_about he]
    exact h.ticks_eq
  · exact hheld.nodup_iff.mpr h.nodup
  · intro r hr
    rw [hfresh]
    exact h.lt_fresh r (hheld.mem_iff.mp hr)
  · intro r hr r' hr'
    rw [hthread]
    exact h.inj r (hheld.mem_iff.mp hr) r' (hheld.mem_iff.mp hr')
  · intro e' he' t ht
    rw [hthread]
    rw [htrace] at he'
    rcases List.mem_cons.mp he' with rfl | he'
    · refine ⟨c, hheld.mem_iff.mpr hc, ?_⟩
      exact Option.some.inj (he.symm.trans ht)
    · obtain ⟨r, hr, hrt⟩ := h.known e' he' t ht
      exact ⟨r, hheld.mem_iff.mpr hr, hrt⟩
  · intro r hr
    have hr' := hheld.mem_iff.mp hr
    rw [htrace]
    by_cases hrc : r = c
    · subst hrc
      rw [hself]
      exact ⟨p, hp, hacc⟩
    · obtain ⟨q, hq, haccounts⟩ := h.accounts r hr'
      rw [hother r hrc]
      refine ⟨q, hfits r hr' hrc q hq, haccounts.other ?_⟩
      rw [he]
      intro heq
      exact hrc (h.inj r hr' c hc (Option.some.inj heq).symm)

theorem mem_held_cur (hc : s.curT = some c) : c ∈ s.held := by
  simp [State.held, hc]

theorem mem_held_io (hi : s.ioT = some c) : c ∈ s.held := by
  simp [State.held, hi]

theorem mem_held_ready (hr : r ∈ s.readyQueue) : r ∈ s.held := by
  simp [State.held, hr]

/-- The record in `cur_t`. -/
theorem Booked.accounts_cur (h : Booked s) (hc : s.curT = some c) :
    Accounts s.trace (s.store c) .running := by
  obtain ⟨p, hp, hacc⟩ := h.accounts c (mem_held_cur hc)
  cases fits_cur h.nodup hc hp
  exact hacc

/-- The record at the head of `ready_queue` gets the idle CPU. -/
theorem booked_resume {rest : List Ref} (h : Booked s) (hc : s.curT = none)
    (hq : s.readyQueue = r :: rest) (hs : s' = { s with readyQueue := rest }.resume r) :
    Booked s' := by
  have hmem : r ∈ s.readyQueue := by simp [hq]
  obtain ⟨p, hp, hacc⟩ := h.accounts r (mem_held_ready hmem)
  obtain ⟨a, rfl⟩ := fits_ready h.nodup hmem hp
  subst hs
  rw [State.resume_eq]
  have hdispatch := hacc.dispatch (rest.map s.thread)
  rw [← h.ticks_eq] at hdispatch
  refine h.touch (mem_held_ready hmem) rfl rfl rfl rfl rfl ?_ ?_ ?_ hdispatch rfl
  · apply List.perm_iff_count.mpr
    intro x
    simp [State.held, hc, hq]
  · intro x _ hx p hp
    apply hp.mono
    · intro hmem
      rw [hq, List.mem_cons] at hmem
      exact hmem.resolve_left hx
    · intro hcur
      rw [hc] at hcur
      cases hcur
    · exact id
    · exact .inr
    · exact id
  · rfl

/-- The record in `cur_t` goes back to `ready_queue`. -/
theorem booked_yield (h : Booked s) (hc : s.curT = some c)
    (hs : s' = ({ s with curT := none }.enqueueReady c).stamp c) : Booked s' := by
  have hacc := h.accounts_cur hc
  subst hs
  have henqueue := hacc.enqueue (.inl rfl)
  rw [← h.ticks_eq] at henqueue
  refine h.touch (mem_held_cur hc) rfl rfl rfl rfl rfl ?_ ?_ ?_ henqueue rfl
  · apply List.perm_iff_count.mpr
    intro x
    simp [State.held, State.enqueueReady, State.stamp, State.modify, State.note, hc, List.count_cons]
    omega
  · intro x _ hx p hp
    apply hp.mono
    · exact List.mem_append_left _
    · exact fun hcur => absurd hcur (ne_some_of_ne hc hx)
    · exact id
    · exact .inr
    · exact id
  · change c ∈ s.readyQueue ++ [c]
    simp

theorem booked_exited (h : Booked s) (hc : s.curT = some c) (ht : s.thread c = t) :
    Booked (exited s t c) := by
  subst ht
  have hfinish := (h.accounts_cur hc).finish
  rw [← h.ticks_eq] at hfinish
  refine h.touch (mem_held_cur hc) rfl rfl rfl rfl rfl ?_ ?_ ?_ hfinish rfl
  · apply List.perm_iff_count.mpr
    intro x
    simp [State.held, exited, State.modify, State.note, hc, List.count_cons]
    omega
  · intro x _ hx p hp
    apply hp.mono
    · exact id
    · exact fun hcur => absurd hcur (ne_some_of_ne hc hx)
    · exact id
    · exact .inr
    · exact List.mem_append_left _
  · change c ∈ s.doneQueue ++ [c]
    simp

theorem booked_requested (h : Booked s) (hc : s.curT = some c) (ht : s.thread c = t) :
    Booked (requested s t c) := by
  subst ht
  have hrequest := (h.accounts_cur hc).makeRequest
  rw [← h.ticks_eq] at hrequest
  by_cases hidle : s.ioQueue = [] ∧ s.ioT = none
  · rw [requested_idle hidle]
    refine h.touch (mem_held_cur hc) rfl rfl rfl rfl rfl ?_ ?_ ?_ hrequest rfl
    · apply List.perm_iff_count.mpr
      intro x
      simp [State.held, State.stamp, State.modify, State.note, hc, hidle.1, hidle.2, List.count_cons]
      omega
    · intro x _ hx p hp
      apply hp.mono
      · exact id
      · exact fun hcur => absurd hcur (ne_some_of_ne hc hx)
      · intro hio
        rw [hidle.2] at hio
        cases hio
      · intro hmem
        rw [hidle.1] at hmem
        cases hmem
      · exact id
    · exact .inl rfl
  · rw [requested_busy hidle]
    refine h.touch (mem_held_cur hc) rfl rfl rfl rfl rfl ?_ ?_ ?_ hrequest rfl
    · apply List.perm_iff_count.mpr
      intro x
      simp [State.held, State.stamp, State.modify, State.note, hc, List.count_cons]
      omega
    · intro x _ hx p hp
      apply hp.mono
      · exact id
      · exact fun hcur => absurd hcur (ne_some_of_ne hc hx)
      · exact id
      · exact fun hmem => .inr (List.mem_append_left _ hmem)
      · exact id
    · refine .inr ?_
      change c ∈ s.ioQueue ++ [c]
      simp

/-- The record in `io_t`, whose request has been started or not. -/
theorem Booked.accounts_io (h : Booked s) (hi : s.ioT = some c) :
    (requestSince (s.thread c) s.trace = none → Accounts s.trace (s.store c) .served) ∧
      (requestSince (s.thread c) s.trace ≠ none →
        ∃ a, Accounts s.trace (s.store c) (.requested a)) := by
  obtain ⟨p, hp, hacc⟩ := h.accounts c (mem_held_io hi)
  have hrequest := hacc.request
  change requestSince (s.thread c) s.trace = p.requestSince at hrequest
  rcases fits_ioT h.nodup hi hp with rfl | ⟨a, rfl⟩
  · exact ⟨fun _ => hacc, fun hne => absurd hrequest hne⟩
  · refine ⟨fun hnone => ?_, fun _ => ⟨a, hacc⟩⟩
    rw [hnone] at hrequest
    cases hrequest

theorem booked_served (h : Booked s) (hi : s.ioT = some c) (ht : s.thread c = t)
    (hwaits : requestSince t s.trace ≠ none) :
    Booked ((s.note (.starting t)).modify c (served s)) := by
  subst ht
  obtain ⟨a, hacc⟩ := (h.accounts_io hi).2 hwaits
  have hserve := hacc.serve
  rw [← h.ticks_eq] at hserve
  refine h.touch (mem_held_io hi) rfl rfl rfl rfl rfl (List.Perm.refl _) ?_ ?_ hserve rfl
  · exact fun _ _ _ _ hp => hp
  · exact hi

/-- The record in `io_t` goes to `ready_queue`. -/
theorem booked_completed (h : Booked s) (hi : s.ioT = some c) (ht : s.thread c = t)
    (hserved : requestSince t s.trace = none) : Booked (completed s t c) := by
  subst ht
  have hacc := (h.accounts_io hi).1 hserved
  have hstore : s.store = Function.update s.store c (s.store c) := by
    rw [Function.update_eq_self]
  have hnoted : Booked (s.note (.complete (s.thread c))) :=
    h.touch (mem_held_io hi) rfl rfl hstore rfl rfl (List.Perm.refl _) (fun _ _ _ _ hp => hp)
      (by exact hi) hacc.complete rfl
  have hdone := (hnoted.accounts_io hi).1 (hacc.complete.request)
  have henqueue := hdone.enqueue (.inr rfl)
  rw [← hnoted.ticks_eq] at henqueue
  have htrace := @completed_trace s (s.thread c) c
  refine hnoted.touch (mem_held_io hi) rfl htrace rfl rfl rfl ?_ ?_ ?_ henqueue rfl
  · apply List.perm_iff_count.mpr
    intro x
    cases hq : s.ioQueue with
    | nil =>
      simp [State.held, completed, State.enqueueReady, State.stamp, State.modify, State.note, hi, hq]
    | cons j q =>
      simp [State.held, completed, State.enqueueReady, State.stamp, State.modify, State.note, hi, hq]
  · intro x _ hx p hp
    apply hp.mono
    · exact List.mem_append_left _
    · exact id
    · exact fun hio => absurd hio (ne_some_of_ne hi hx)
    · -- the head of `io_queue` moves to `io_t`
      intro hmem
      change x ∈ s.ioQueue at hmem
      change s.ioQueue.head? = some x ∨ x ∈ s.ioQueue.tail
      cases hq : s.ioQueue with
      | nil => simp [hq] at hmem
      | cons j q =>
        rw [hq, List.mem_cons] at hmem
        simpa [eq_comm] using hmem
    · exact id
  · change c ∈ s.readyQueue ++ [c]
    simp

theorem booked_tickSort (lib : QueueSort) (h : Booked s) : Booked (tickSort lib s) := by
  unfold tickSort
  split_ifs
  · have hperm := lib.perm (sortPriority s) s.readyQueue
    have hheld : (sortReady lib s).held ~ s.held := by
      apply List.perm_iff_count.mpr
      intro x
      simp [State.held, sortReady, hperm.count_eq x]
    constructor
    · exact h.ticks_eq
    · exact hheld.nodup_iff.mpr h.nodup
    · exact fun r hr => h.lt_fresh r (hheld.mem_iff.mp hr)
    · exact fun r hr r' hr' => h.inj r (hheld.mem_iff.mp hr) r' (hheld.mem_iff.mp hr')
    · intro e he t ht
      obtain ⟨r, hr, hrt⟩ := h.known e he t ht
      exact ⟨r, hheld.mem_iff.mpr hr, hrt⟩
    · intro r hr
      obtain ⟨p, hp, hacc⟩ := h.accounts r (hheld.mem_iff.mp hr)
      exact ⟨p, hp.mono hperm.mem_iff.mpr id id .inr id, hacc⟩
  · exact h

/-- The end of `tick`. -/
theorem booked_ticked (h : Booked s) (ready : List Thread) :
    Booked ((tickCount s).note (.ticked ready)) := by
  obtain ⟨total, hcount⟩ := tickCount_eq s
  rw [hcount]
  have htime : time (.ticked ready :: s.trace) = time s.trace + 1 :=
    Library.clock_cons_of_tick rfl
  constructor
  · change toInt32 (s.ticks + 1) = toInt32 (time (.ticked ready :: s.trace))
    rw [h.ticks_eq, htime]
    apply toInt32_congr
    have hdvd := dvd_toInt32 (time s.trace)
    push_cast
    omega
  · exact h.nodup
  · exact h.lt_fresh
  · exact h.inj
  · intro e he t ht
    rcases List.mem_cons.mp he with rfl | he
    · cases ht
    · exact h.known e he t ht
  · intro r hr
    obtain ⟨p, hp, hacc⟩ := h.accounts r hr
    exact ⟨p, hp, hacc.other (by simp [Event.about])⟩

theorem Booked.total (h : Booked s) (total : Int) : Booked { s with lastOnTotal := total } :=
  ⟨h.ticks_eq, h.nodup, h.lt_fresh, h.inj, h.known, h.accounts⟩

/-- The CPU passes on by way of `ready_queue`. -/
theorem booked_switch {rest : List Ref} (h : Booked s) (hc : s.curT = some c)
    (hq : s.readyQueue = r :: rest) : Booked (s.switch c r rest) := by
  have hyield := booked_yield h hc rfl
  have hqueue : (({ s with curT := none }.enqueueReady c).stamp c).readyQueue =
      r :: (rest ++ [c]) := by
    change s.readyQueue ++ [c] = _
    rw [hq]
    rfl
  apply booked_resume hyield rfl hqueue
  rw [State.switch, State.resume_eq, State.resume_eq]
  rfl

/-- A move of `tick`. -/
theorem booked_move {u : State} (h : Booked s) (hmove : TickMove s u) : Booked u := by
  cases hmove with
  | idle => exact h
  | keep => exact h
  | start r rest hc hq =>
    have hcur : { s with lastOnTotal := 0 }.curT = none := hc
    have hqueue : { s with lastOnTotal := 0 }.readyQueue = r :: rest := hq
    exact booked_resume (h.total 0) hcur hqueue rfl
  | rotate c r rest hc hq => exact (booked_switch h hc hq).total 0
  | preempt c r rest hc hq => exact booked_switch h hc hq

theorem booked_tick (lib : QueueSort) (h : Booked s) : Booked (tick lib s) := by
  obtain ⟨u, hmove, heq⟩ := tick_move lib s
  rw [heq]
  exact booked_ticked (booked_move (booked_tickSort lib h) hmove) _

/-- The threads of the records held have been executed. -/
theorem Booked.execd (h : Booked s) (hr : r ∈ s.held) : .exec (s.thread r) ∈ s.trace := by
  obtain ⟨p, -, hacc⟩ := h.accounts r hr
  have hne : execTimes (s.thread r) s.trace ≠ [] := by
    by_cases hp : p = .finished
    · obtain ⟨a, b, ha, -⟩ := hacc.closed hp
      exact fun hnil => by cases ha.symm.trans hnil
    · obtain ⟨a, ha, -⟩ := (hacc.alive hp).began
      exact fun hnil => by cases ha.symm.trans hnil
  obtain ⟨e, he, hexec⟩ := Library.mem_of_timesOf_ne_nil hne
  cases e with
  | exec u =>
    rw [← of_decide_eq_true hexec]
    exact he
  | _ => cases hexec

/-- A record that is allocated, in the place that `sys_exec` gives it. -/
theorem booked_new (h : Booked s) (hnew : .exec t ∉ s.trace) (he : e.about = some t)
    (htrace : s'.trace = e :: .exec t :: s.trace)
    (hstore : s'.store = Function.update s.store s.fresh y) (hticks : s'.ticks = s.ticks)
    (hfresh : s'.fresh = s.fresh + 1) (hheld : s'.held ~ s.fresh :: s.held)
    (hfits : ∀ r ∈ s.held, ∀ p, Fits s r p → Fits s' r p) (hp : Fits s' s.fresh p)
    (hacc : Accounts (e :: .exec t :: s.trace) y p) (hy : y.t = t) : Booked s' := by
  have hnotheld : s.fresh ∉ s.held := fun hmem => Nat.lt_irrefl _ (h.lt_fresh _ hmem)
  have hself : s'.store s.fresh = y := by rw [hstore, Function.update_self]
  have hother : ∀ r ∈ s.held, s'.store r = s.store r := by
    intro r hr
    rw [hstore, Function.update_of_ne (Nat.ne_of_lt (h.lt_fresh r hr))]
  have hthread : ∀ r ∈ s.held, s'.thread r = s.thread r := by
    intro r hr
    rw [State.thread, hother r hr]
    rfl
  have hthread' : s'.thread s.fresh = t := by rw [State.thread, hself, hy]
  have hdistinct : ∀ r ∈ s.held, s.thread r ≠ t := by
    intro r hr hrt
    exact hnew (hrt ▸ h.execd hr)
  have hmem : ∀ r ∈ s'.held, r = s.fresh ∨ r ∈ s.held := by
    intro r hr
    exact List.mem_cons.mp (hheld.mem_iff.mp hr)
  constructor
  · rw [hticks, htrace, time_about he, time_about rfl]
    exact h.ticks_eq
  · exact hheld.nodup_iff.mpr (List.nodup_cons.mpr ⟨hnotheld, h.nodup⟩)
  · intro r hr
    rw [hfresh]
    rcases hmem r hr with rfl | hr
    · exact Nat.lt_succ_self _
    · exact Nat.lt_succ_of_lt (h.lt_fresh r hr)
  · intro r hr r' hr' heq
    rcases hmem r hr with rfl | hr <;> rcases hmem r' hr' with rfl | hr'
    · rfl
    · rw [hthread', hthread r' hr'] at heq
      exact absurd heq.symm (hdistinct r' hr')
    · rw [hthread', hthread r hr] at heq
      exact absurd heq (hdistinct r hr)
    · rw [hthread r hr, hthread r' hr'] at heq
      exact h.inj r hr r' hr' heq
  · intro e' he' u hu
    rw [htrace, List.mem_cons, List.mem_cons] at he'
    rcases he' with rfl | rfl | he'
    · refine ⟨s.fresh, hheld.mem_iff.mpr List.mem_cons_self, ?_⟩
      rw [hthread']
      exact Option.some.inj (he.symm.trans hu)
    · refine ⟨s.fresh, hheld.mem_iff.mpr List.mem_cons_self, ?_⟩
      rw [hthread']
      exact Option.some.inj hu
    · obtain ⟨r, hr, hrt⟩ := h.known e' he' u hu
      exact ⟨r, hheld.mem_iff.mpr (List.mem_cons_of_mem _ hr), (hthread r hr).trans hrt⟩
  · intro r hr
    rw [htrace]
    rcases hmem r hr with rfl | hr
    · rw [hself]
      exact ⟨p, hp, hacc⟩
    · obtain ⟨q, hq, haccounts⟩ := h.accounts r hr
      have hne : some t ≠ some (s.thread r) := fun heq =>
        hdistinct r hr (Option.some.inj heq).symm
      rw [hother r hr]
      refine ⟨q, hfits r hr q hq, (haccounts.other ?_).other ?_⟩
      · exact hne
      · rw [he]
        exact hne

theorem booked_exec (h : Booked s) (hnew : .exec t ∉ s.trace) : Booked (sysExec s t) := by
  have hsilent : ∀ e ∈ s.trace, e.about ≠ some t := by
    intro e he ht
    obtain ⟨r, hr, hrt⟩ := h.known e he t ht
    exact hnew (hrt ▸ h.execd hr)
  have hacc := accounts_new hsilent
  have hthread := (s.note (.exec t)).thread_alloc_fresh t
  rcases sysExec_cases s t with ⟨hready, hcur, -, -, heq⟩ | ⟨-, heq⟩
  · have hdispatch := hacc.dispatch_new
      (s.readyQueue.map ((s.note (.exec t)).alloc t).thread)
    rw [← h.ticks_eq] at hdispatch
    have htrace : (sysExec s t).trace =
        .dispatch t (s.readyQueue.map ((s.note (.exec t)).alloc t).thread) ::
          .exec t :: s.trace := by
      rw [heq]
      change Event.dispatch (((s.note (.exec t)).alloc t).thread (s.note (.exec t)).fresh) _ :: _ = _
      rw [hthread]
      rfl
    refine booked_new h hnew rfl htrace ?_ ?_ ?_ ?_ ?_ ?_ hdispatch rfl
    all_goals rw [heq]
    · rfl
    · rfl
    · rfl
    · apply List.perm_iff_count.mpr
      intro x
      simp [State.held, State.simDispatch, State.note, State.alloc, hready, hcur, List.count_cons]
    · intro r _ p hp
      apply hp.mono
      · exact id
      · intro hcur'
        rw [hcur] at hcur'
        cases hcur'
      · exact id
      · exact .inr
      · exact id
    · rfl
  · have henqueue := hacc.enqueue (.inl rfl)
    rw [time_about rfl, ← h.ticks_eq] at henqueue
    have htrace : (sysExec s t).trace = .ready t :: .exec t :: s.trace := by
      rw [heq]
      change Event.ready (((s.note (.exec t)).alloc t).thread (s.note (.exec t)).fresh) :: _ = _
      rw [hthread]
      rfl
    refine booked_new h hnew rfl htrace ?_ ?_ ?_ ?_ ?_ ?_ henqueue rfl
    all_goals rw [heq]
    · rfl
    · rfl
    · rfl
    · apply List.perm_iff_count.mpr
      intro x
      simp [State.held, State.enqueueReady, State.note, State.alloc, List.count_cons]
      omega
    · intro r _ p hp
      apply hp.mono
      · exact List.mem_append_left _
      · exact id
      · exact id
      · exact .inr
      · exact id
    · change s.fresh ∈ s.readyQueue ++ [s.fresh]
      simp

end Stages

/-! ## Runs -/

/-- The callback follows the life of its thread: a thread is executed once, and each of its requests
is started once before it completes. -/
def InOrder (trace : List Event) : Callback → Prop
  | .sysExec t => .exec t ∉ trace
  | .ioStarting t => requestSince t trace ≠ none
  | .ioComplete t => requestSince t trace = none
  | _ => True

instance (trace : List Event) (cb : Callback) : Decidable (InOrder trace cb) :=
  match cb with
  | .sysExec t => inferInstanceAs (Decidable (.exec t ∉ trace))
  | .ioStarting t => inferInstanceAs (Decidable (requestSince t trace ≠ none))
  | .ioComplete t => inferInstanceAs (Decidable (requestSince t trace = none))
  | .tick | .sysExit _ | .sysRead _ | .sysWrite _ => inferInstanceAs (Decidable True)

/-- The callbacks of the simulator's protocol, which name the thread in `cur_t` or `io_t`. -/
def Follows (s : State) (cb : Callback) : Prop := Named s cb ∧ InOrder s.trace cb

instance (s : State) (cb : Callback) : Decidable (Follows s cb) :=
  inferInstanceAs (Decidable (_ ∧ _))

section Runs

variable {lib : QueueSort} {s s' : State}

/-- The step lemma. -/
theorem Booked.step {cb : Callback} (h : Booked s) (hfollows : Follows s cb)
    (hs : Scheduler.step lib s cb = .ok s') : Booked s' := by
  obtain ⟨hnamed, horder⟩ := hfollows
  cases cb with
  | sysExec t =>
    cases hs
    exact booked_exec h horder
  | tick =>
    cases hs
    exact booked_tick lib h
  | sysExit t =>
    obtain ⟨c, hc, rfl⟩ := sysExit_eq_ok.mp hs
    obtain ⟨c', hc', ht⟩ := hnamed
    cases hc.symm.trans hc'
    exact booked_exited h hc ht
  | sysRead t =>
    obtain ⟨c, hc, rfl⟩ := sysRead_eq_ok.mp hs
    obtain ⟨c', hc', ht⟩ := hnamed
    cases hc.symm.trans hc'
    exact booked_requested h hc ht
  | sysWrite t =>
    obtain ⟨c, hc, rfl⟩ := sysRead_eq_ok.mp hs
    obtain ⟨c', hc', ht⟩ := hnamed
    cases hc.symm.trans hc'
    exact booked_requested h hc ht
  | ioComplete t =>
    obtain ⟨i, hi, hcases⟩ := ioComplete_eq_ok.mp hs
    obtain ⟨i', hi', ht⟩ := hnamed
    cases hi.symm.trans hi'
    have hdone := booked_completed h hi ht horder
    rcases hcases with ⟨c, -, rfl⟩ | ⟨hc, r, rest, hq, rfl⟩
    · exact hdone
    · exact booked_resume hdone hc hq rfl
  | ioStarting t =>
    obtain ⟨i, hi, rfl⟩ := ioStarting_eq_ok.mp hs
    obtain ⟨i', hi', ht⟩ := hnamed
    cases hi.symm.trans hi'
    exact booked_served h hi ht horder

theorem scheduler_booked (algorithm : Algorithm) (quantum : UInt32) :
    Booked (scheduler algorithm quantum) := by
  constructor <;> simp [scheduler, State.held, toInt32, Library.clock]

/-- In every run each finished record has the time from `sys_exec` to `sys_exit` as its
`running_time`, and the time that its thread has waited as its `waiting_time`. Both are the exact
numbers where these are in the range of `int`. -/
theorem finished_times (lib : QueueSort) (algorithm : Algorithm) (quantum : UInt32) (s : State)
    (h : Reachable (Scheduler.step lib) Follows (scheduler algorithm quantum) s) :
    ∀ r ∈ s.doneQueue, ∃ a b : Nat, execTimes (s.thread r) s.trace = [a] ∧
      exitTimes (s.thread r) s.trace = [b] ∧ a ≤ b ∧
      (s.store r).runningTime = toInt32 (b - a) ∧
      (s.store r).waitingTime = toInt32 (waited (s.thread r) s.trace) ∧
      ((b : Int) - a < 2 ^ 31 → (s.store r).runningTime = b - a) ∧
      (-2 ^ 31 ≤ waited (s.thread r) s.trace → waited (s.thread r) s.trace < 2 ^ 31 →
        (s.store r).waitingTime = waited (s.thread r) s.trace) := by
  have hs : Booked s := by
    refine Reachable.invariant (scheduler_booked algorithm quantum) ?_ s h
    intro u cb u' _ hu hfollows hstep
    exact hu.step hfollows hstep
  intro r hr
  obtain ⟨p, hp, hacc⟩ := hs.accounts r (by simp [State.held, hr])
  cases fits_done hs.nodup hr hp
  obtain ⟨a, b, ha, hb, hle, hrun⟩ := hacc.closed rfl
  have hwait := hacc.waited
  refine ⟨a, b, ha, hb, hle, hrun, hwait, ?_, ?_⟩
  · intro hlt
    rw [hrun, Pager.toInt32_of_lt] <;> omega
  · intro hge hlt
    rw [hwait]
    exact Pager.toInt32_of_lt hge hlt

end Runs

/-- Thread 1 waits for the CPU after a preemption, and for I/O while that of thread 2 is served. -/
theorem finished_times_twoThreads : ∃ s, Reachable (Scheduler.step insertionQueueSort) Follows
    (scheduler .roundRobin 1) s ∧ 0 ∈ s.doneQueue ∧
    (s.store 0).waitingTime = toInt32 (waited (s.thread 0) s.trace) ∧
    (s.store 0).waitingTime = 3 := by
  have hrun : (Library.run (Scheduler.step insertionQueueSort) (fun s cb => decide (Follows s cb))
      (scheduler .roundRobin 1)
      [.sysExec ⟨1, 0⟩, .sysExec ⟨2, 0⟩, .tick, .tick, .sysRead ⟨2, 0⟩, .tick, .sysWrite ⟨1, 0⟩,
        .tick, .ioStarting ⟨2, 0⟩, .tick, .ioComplete ⟨2, 0⟩, .tick, .ioStarting ⟨1, 0⟩, .tick,
        .ioComplete ⟨1, 0⟩, .tick, .sysExit ⟨1, 0⟩]).map
      (fun s => (s.doneQueue, (s.store 0).waitingTime)) = some ([0], 3) := by
    decide +kernel
  obtain ⟨s, hs, hres⟩ := Option.map_eq_some_iff.mp hrun
  obtain ⟨hdone, hwait⟩ := Prod.mk.inj hres
  have hreach : Reachable (Scheduler.step insertionQueueSort) Follows (scheduler .roundRobin 1) s :=
    Library.reachable_of_run (fun _ _ => of_decide_eq_true) .start hs
  have hmem : 0 ∈ s.doneQueue := by simp [hdone]
  obtain ⟨a, b, -, -, -, -, hwaited, -⟩ :=
    finished_times insertionQueueSort .roundRobin 1 s hreach 0 hmem
  exact ⟨s, hreach, hmem, hwaited, hwait⟩

end CSE130.Scheduler
