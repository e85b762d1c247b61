import CSE130.Pintos.TimerTick

/-!
# The alarm clock under preemption

A timer interrupt may come between any two steps of `timer_sleep`. As long as none comes between
the insertion of a thread that is due and its `intr_disable`, and no thread inserts itself in front
of an element that a timer interrupt has removed, `timer_interrupt` passes only blocked threads to
`thread_unblock` and `timer_list` loses no thread. The handler then completes, unless it wakes a
thread of a higher priority than the one it has interrupted.
-/

namespace CSE130.Pintos

open CSE130.Library

namespace Kernel

variable {k k' : Kernel} {lab : Lab} {t : Tid} {ts : List Tid} {e : Event} {init : Nat → Nat}

/-! ## Runs -/

/-- The events of the runs in which threads use `thread_unblock` properly. -/
def SleepAdmits (k : Kernel) (e : Event) : Prop := k.Enabled e ∧ k.properUnblock e = true

/-- The running thread inserts itself into `timer_list` only in front of an element of it. -/
def insertsOnList (k : Kernel) : Event → Bool
  | .act =>
    match (k.stack k.running).head? with
    | some (.sleepLink .head) => false
    | some (.sleepLink .tail) => true
    | some (.sleepLink (.thread t)) => t ∈ k.timerThreads
    | _ => true
  | _ => true

/-- A step in which no timer interrupt has come at a bad moment. -/
def Undisrupted (k : Kernel) (e : Event) : Prop :=
  k.insertsOnList e = true ∧ (e = .tick → k.NoneFallingAsleep)

instance : Decidable k.NoneFallingAsleep := by
  unfold NoneFallingAsleep
  infer_instance

instance : Decidable (k.SleepAdmits e) := by
  unfold SleepAdmits
  infer_instance

instance : Decidable (k.Undisrupted e) := by
  unfold Undisrupted
  infer_instance

/-- The events of the runs in which every step is undisrupted. -/
def UndisruptedAdmits (k : Kernel) (e : Event) : Prop := k.SleepAdmits e ∧ k.Undisrupted e

instance : Decidable (k.UndisruptedAdmits e) := by
  unfold UndisruptedAdmits
  infer_instance

/-- Where the running thread inserts itself. -/
theorem TimerInv.exists_split {before : Elem} {rest : List Action} (ht : k.TimerInv ts)
    (hstack : k.stack k.running = .sleepLink before :: rest) (hon : k.insertsOnList .act = true) :
    ∃ pre post, ts = pre ++ post ∧ (post.map Elem.thread ++ [Elem.tail]).head? = some before := by
  simp only [insertsOnList, hstack, List.head?_cons, ht.timerThreads_eq] at hon
  cases before with
  | head => cases hon
  | tail => exact ⟨ts, [], by simp, rfl⟩
  | thread t =>
    obtain ⟨pre, post, rfl⟩ := List.append_of_mem (of_decide_eq_true hon)
    exact ⟨pre, t :: post, rfl, rfl⟩

theorem TimerInv.step (h : k.BlockInv) (ht : k.TimerInv ts) (he : k.UndisruptedAdmits e)
    (hk : k.step lab e = .ok k') : k'.BlockInv ∧ ∃ ts', k'.TimerInv ts' := by
  obtain ⟨⟨henabled, hproper⟩, hinserts, hfalling⟩ := he
  cases e with
  | act =>
    obtain ⟨a, rest, hstack⟩ := List.exists_cons_of_ne_nil henabled
    have hun := unblockOk_of_properUnblock hstack hproper
    refine ⟨h.act hstack hk hun, ?_⟩
    cases ha : a.links with
    | false => exact ⟨ts, ht.act h hun hstack hk ha⟩
    | true =>
      cases a
      case sleepLink before =>
        obtain ⟨pre, post, rfl, hbefore⟩ := ht.exists_split hstack hinserts
        exact ⟨_, TimerInv.link h ht hstack hk hbefore⟩
      all_goals cases ha
  | call op => exact ⟨h.call henabled hk, ts, ht.call h henabled hk⟩
  | tick =>
    have hquiet := hfalling rfl
    rcases @tick_outcome k lab ts h ht henabled hquiet with
      ⟨-, herr⟩ | ⟨-, k₁, rest, hk₁, hw, rfl, hl⟩
    · rw [hk] at herr
      cases herr
    · obtain rfl : k' = k₁ := Except.ok.inj (hk.symm.trans hk₁)
      have hasleep := ht.due_asleep henabled hquiet
      refine ⟨h.tick henabled hk hw ?_, rest, ht.tick h henabled hquiet hk hw hl⟩
      intro t hdue
      rw [(hasleep t hdue).1, List.head?_cons]

theorem reachable_timerInv (hr : Reachable (step lab) UndisruptedAdmits (boot init) k) :
    k.BlockInv ∧ ∃ ts, k.TimerInv ts := by
  refine @Reachable.invariant _ _ _ (Kernel.step lab) UndisruptedAdmits (boot init)
    (fun k => k.BlockInv ∧ ∃ ts, k.TimerInv ts)
    ⟨boot_blockInv init, [], boot_timerInv init⟩ ?_ k hr
  intro k e k' _ h he hk
  obtain ⟨hblock, ts, ht⟩ := h
  exact ht.step hblock he hk

/-- The state after a sequence of events from boot, all of them admitted and undisrupted. -/
def runUndisrupted (lab : Lab) (init : Nat → Nat) (events : List Event) : Option Kernel :=
  run (Kernel.step lab) (fun k e => decide (k.UndisruptedAdmits e)) (boot init) events

theorem reachable_of_runUndisrupted {events : List Event}
    (h : runUndisrupted lab init events = some k) :
    Reachable (Kernel.step lab) UndisruptedAdmits (boot init) k :=
  reachable_of_run (fun _ _ he => of_decide_eq_true he) .start h

/-- The state after a sequence of events from boot, all of them admitted. -/
def runSleeping (lab : Lab) (init : Nat → Nat) (events : List Event) : Option Kernel :=
  run (Kernel.step lab) (fun k e => decide (k.SleepAdmits e)) (boot init) events

theorem reachable_of_runSleeping {events : List Event} (h : runSleeping lab init events = some k) :
    Reachable (Kernel.step lab) SleepAdmits (boot init) k :=
  reachable_of_run (fun _ _ he => of_decide_eq_true he) .start h

/-! ## What a timer interrupt finds -/

/-- `timer_list` holds exactly the threads that have inserted themselves and have not been woken
since, and `timer_interrupt` passes only blocked threads to `thread_unblock`. -/
theorem timer_interrupt_wakes_blocked
    (hr : Reachable (Kernel.step lab) UndisruptedAdmits (boot init) k) :
    (k.timerList.Linked .head .tail (k.timerThreads.map .thread) ∧
      ∀ t, k.trace.count (.link t) =
        k.trace.countP (Note.wakes t) + k.timerThreads.count t) ∧
    (k.Enabled .tick → k.NoneFallingAsleep →
      (∀ t ∈ k.dueThreads, (k.thread t).status = .blocked) ∧
      k.step lab .tick ≠ .error .threadUnblockBlocked ∧
      ∀ k', k.step lab .tick = .ok k' →
        k'.trace = (k.dueThreads.map fun t => .wake t k'.ticks).reverse ++ k.trace) := by
  obtain ⟨h, ts, ht⟩ := reachable_timerInv hr
  refine ⟨?_, ?_⟩
  · rw [ht.timerThreads_eq]
    exact ⟨ht.linked, ht.account⟩
  · intro he hfalling
    refine ⟨fun t hdue => (ht.due_asleep he hfalling t hdue).2, ?_⟩
    rcases @tick_outcome k lab ts h ht he hfalling with ⟨-, herr⟩ | ⟨-, k₁, _, hk₁, hw, -, -⟩
    · rw [herr]
      exact ⟨by simp, fun k' hk' => nomatch hk'⟩
    · rw [hk₁]
      refine ⟨by simp, ?_⟩
      intro k' hk'
      obtain rfl := Except.ok.inj hk'
      exact hw.trace

/-- `main` sleeps for one tick, and the idle thread runs. -/
def sleepMain : List Event := starting ++ Event.call (.timerSleep 1) :: List.replicate 8 Event.act

theorem timer_interrupt_wakes_blocked_sleepMain : ∃ k,
    runUndisrupted .lab2 (fun _ => 0) sleepMain = some k ∧ k.dueThreads = [0] ∧
    k.step .lab2 .tick ≠ .error .threadUnblockBlocked := by
  have hrun : (runUndisrupted .lab2 (fun _ => 0) sleepMain).map (fun k =>
      (decide (k.Enabled .tick), decide k.NoneFallingAsleep, k.dueThreads)) =
      some (true, true, [0]) := by
    decide +kernel
  obtain ⟨k, hk, heq⟩ := Option.map_eq_some_iff.mp hrun
  simp only [Prod.mk.injEq, decide_eq_true_eq] at heq
  obtain ⟨he, hfalling, hdue⟩ := heq
  have hwake := timer_interrupt_wakes_blocked (reachable_of_runUndisrupted hk)
  exact ⟨k, hk, hdue, (hwake.2 he hfalling).2.1⟩

/-- `main` has inserted itself into `timer_list` and has not disabled interrupts yet. -/
def insertMain : List Event := starting ++ Event.call (.timerSleep 1) :: List.replicate 5 Event.act

/-- A timer interrupt that comes then passes the running thread to `thread_unblock`. -/
theorem timer_interrupt_wakes_running : ∃ k,
    Reachable (Kernel.step .lab2) SleepAdmits (boot fun _ => 0) k ∧ k.SleepAdmits .tick ∧
    k.dueThreads = [k.running] ∧ k.step .lab2 .tick = .error .threadUnblockBlocked := by
  have hrun : (runSleeping .lab2 (fun _ => 0) insertMain).map (fun k =>
      (decide (k.SleepAdmits .tick), k.running, k.dueThreads, k.failure .lab2 .tick)) =
      some (true, 0, [0], some .threadUnblockBlocked) := by
    decide +kernel
  obtain ⟨k, hk, heq⟩ := Option.map_eq_some_iff.mp hrun
  simp only [Prod.mk.injEq, decide_eq_true_eq] at heq
  obtain ⟨hadmits, hrunning, hdue, hfail⟩ := heq
  exact ⟨k, reachable_of_runSleeping hk, hadmits, by rw [hdue, hrunning],
    failure_eq_some.mp hfail⟩

/-! ## When the handler completes -/

/-- The handler of the timer completes exactly if no due thread has a higher priority than the
interrupted one, or the idle thread is the interrupted one. -/
theorem timer_interrupt_completes_iff
    (hr : Reachable (Kernel.step .lab2) UndisruptedAdmits (boot init) k) (he : k.Enabled .tick)
    (hfalling : k.NoneFallingAsleep) :
    (∃ k', k.step .lab2 .tick = .ok k') ↔ some k.running = k.sched.idleThread ∨
      ∀ t ∈ k.dueThreads, (k.thread t).priority ≤ (k.thread k.running).priority := by
  obtain ⟨h, ts, ht⟩ := reachable_timerInv hr
  have hpreempts : (∀ t ∈ k.dueThreads, ¬ k.sched.Preempts .lab2 t) ↔
      some k.running = k.sched.idleThread ∨
        ∀ t ∈ k.dueThreads, (k.thread t).priority ≤ (k.thread k.running).priority := by
    by_cases hidle : some k.running = k.sched.idleThread
    · simp [Sched.Preempts, hidle]
    · simp [Sched.Preempts, hidle]
  rw [← hpreempts]
  rcases @tick_outcome k .lab2 ts h ht he hfalling with
    ⟨⟨t, hdue, hp⟩, herr⟩ | ⟨hno, k₁, _, hk₁, -, -, -⟩
  · rw [herr]
    exact iff_of_false (by simp) fun hall => hall t hdue hp
  · exact iff_of_true ⟨k₁, hk₁⟩ hno

theorem timer_interrupt_completes_iff_sleepMain : ∃ k k',
    runUndisrupted .lab2 (fun _ => 0) sleepMain = some k ∧ k.step .lab2 .tick = .ok k' := by
  have hrun : (runUndisrupted .lab2 (fun _ => 0) sleepMain).map (fun k =>
      (decide (k.Enabled .tick), decide k.NoneFallingAsleep, k.running, k.sched.idleThread)) =
      some (true, true, 1, some 1) := by
    decide +kernel
  obtain ⟨k, hk, heq⟩ := Option.map_eq_some_iff.mp hrun
  simp only [Prod.mk.injEq, decide_eq_true_eq] at heq
  obtain ⟨he, hfalling, hrunning, hidle⟩ := heq
  obtain ⟨k', hk'⟩ := (timer_interrupt_completes_iff (reachable_of_runUndisrupted hk) he
    hfalling).mpr (.inl (by rw [hrunning, hidle]))
  exact ⟨k, k', hk, hk'⟩

/-- A thread of priority 40 sleeps for one tick while `main` goes on. -/
def sleepHigher : List Event :=
  starting ++ Event.call (.threadCreate 2 40) :: List.replicate 9 Event.act ++
    Event.act :: Event.call (.timerSleep 1) :: List.replicate 9 Event.act

/-- The timer interrupt that wakes it then stops at an assertion of `thread_yield`, although it
comes at no bad moment. -/
theorem timer_interrupt_preempts : ∃ k,
    Reachable (Kernel.step .lab2) UndisruptedAdmits (boot fun _ => 0) k ∧
    k.UndisruptedAdmits .tick ∧ k.step .lab2 .tick = .error .threadYieldContext := by
  have hrun : (runUndisrupted .lab2 (fun _ => 0) sleepHigher).map (fun k =>
      (decide (k.UndisruptedAdmits .tick), k.failure .lab2 .tick)) =
      some (true, some .threadYieldContext) := by
    decide +kernel
  obtain ⟨k, hk, heq⟩ := Option.map_eq_some_iff.mp hrun
  simp only [Prod.mk.injEq, decide_eq_true_eq] at heq
  exact ⟨k, reachable_of_runUndisrupted hk, heq.1, failure_eq_some.mp heq.2⟩

end Kernel

end CSE130.Pintos
