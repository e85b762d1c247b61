import CSE130.Scheduler.Custody

/-!
# First come, first served

Under `FIRST_COME_FIRST_SERVED` the three dispatch sites together behave like one queue: what has
become ready is what has been dispatched, followed by what is in `ready_queue`.
-/

namespace CSE130.Scheduler

open Library (Reachable)

/-- The threads that have become ready, by `sys_exec` or by `io_complete`, in this order. -/
def arrivals : List Event → List Thread
  | [] => []
  | .exec t :: trace => arrivals trace ++ [t]
  | .complete t :: trace => arrivals trace ++ [t]
  | _ :: trace => arrivals trace

/-- The threads that have been dispatched, in this order. -/
def dispatches : List Event → List Thread
  | [] => []
  | .dispatch t _ :: trace => dispatches trace ++ [t]
  | _ :: trace => dispatches trace

/-- The threads that `tick` and `io_complete` find ready on an idle CPU. `io_complete` has put its own
thread into `ready_queue` by then. -/
def readyAt (s : State) : Callback → List Thread
  | .tick => s.readyQueue.map s.thread
  | .ioComplete t => s.readyQueue.map s.thread ++ [t]
  | _ => []

/-- The invariant: what has become ready has been dispatched in its order or is in the queue. -/
structure Served (s : State) : Prop extends InStep s where
  alg_eq : s.alg = .firstComeFirstServed
  order : dispatches s.trace ++ s.readyQueue.map s.thread = arrivals s.trace

section Steps

variable {lib : QueueSort} {s s' u : State}

theorem order_exec (t : Thread) (h : Served s) :
    dispatches (sysExec s t).trace ++ (sysExec s t).readyQueue.map (sysExec s t).thread =
      arrivals (sysExec s t).trace := by
  have hnew := (s.note (.exec t)).thread_alloc_fresh t
  rcases sysExec_cases s t with ⟨hready, -, -, -, heq⟩ | ⟨-, heq⟩
  · have horder := h.order
    rw [hready, List.map_nil, List.append_nil] at horder
    rw [heq]
    change (dispatches s.trace ++ [((s.note (.exec t)).alloc t).thread (s.note (.exec t)).fresh]) ++
      s.readyQueue.map _ = arrivals s.trace ++ [t]
    rw [hnew, hready, horder]
    simp
  · have hqueue : s.readyQueue.map ((s.note (.exec t)).alloc t).thread =
        s.readyQueue.map s.thread := by
      apply List.map_congr_left
      intro r hr
      apply h.thread_alloc t
      simp [State.held, hr]
    rw [heq]
    change dispatches s.trace ++
      (s.readyQueue ++ [(s.note (.exec t)).fresh]).map ((s.note (.exec t)).alloc t).thread =
      arrivals s.trace ++ [t]
    rw [List.map_append, hqueue, List.map_singleton, hnew, ← List.append_assoc, h.order]

/-- The head of the queue is dispatched. -/
theorem order_resume {r : Ref} {rest : List Ref} {v : State}
    (horder : dispatches s.trace ++ (r :: rest).map s.thread = arrivals s.trace)
    (htrace : v.trace = s.trace) (hthread : v.thread = s.thread) (hqueue : v.readyQueue = rest) :
    dispatches (v.resume r).trace ++ (v.resume r).readyQueue.map (v.resume r).thread =
      arrivals (v.resume r).trace := by
  rw [State.resume_trace, State.thread_resume, hthread, htrace]
  change (dispatches s.trace ++ [s.thread r]) ++ v.readyQueue.map s.thread = arrivals s.trace
  rw [hqueue, ← horder]
  simp

theorem tick_fcfs (lib : QueueSort) (halg : s.alg = .firstComeFirstServed) :
    ∃ u, tick lib s = (tickCount u).note (.ticked (s.readyQueue.map s.thread)) ∧
      ((s.curT = none ∧ s.readyQueue = [] ∧ u = s) ∨
        (∃ c, s.curT = some c ∧ u = s) ∨
        (s.curT = none ∧ ∃ r rest, s.readyQueue = r :: rest ∧
          u = { s with readyQueue := rest, lastOnTotal := 0 }.resume r)) := by
  have hsort : tickSort lib s = s := by simp [tickSort, halg]
  obtain ⟨u, hmove, heq⟩ := tick_move lib s
  rw [hsort] at hmove
  refine ⟨u, heq, ?_⟩
  cases hmove with
  | idle hc hq => exact .inl ⟨hc, hq, rfl⟩
  | start r rest hc hq => exact .inr (.inr ⟨hc, r, rest, hq, rfl⟩)
  | keep c hc => exact .inr (.inl ⟨c, hc, rfl⟩)
  | rotate c r rest hc hq hround => simp [halg] at hround
  | preempt c r rest hc hq hpre => simp [halg] at hpre

theorem order_tick (lib : QueueSort) (h : Served s) :
    dispatches (tick lib s).trace ++ (tick lib s).readyQueue.map (tick lib s).thread =
      arrivals (tick lib s).trace := by
  obtain ⟨u, heq, hcases⟩ := tick_fcfs lib h.alg_eq
  have hu : dispatches u.trace ++ u.readyQueue.map u.thread = arrivals u.trace := by
    rcases hcases with ⟨-, -, rfl⟩ | ⟨c, -, rfl⟩ | ⟨-, r, rest, hq, rfl⟩
    · exact h.order
    · exact h.order
    · have horder := h.order
      rw [hq] at horder
      exact order_resume horder rfl rfl rfl
  obtain ⟨total, hcount⟩ := tickCount_eq u
  rw [heq, hcount]
  exact hu

/-- The step lemma. -/
theorem Served.step {cb : Callback} (h : Served s) (hadm : Admits s cb)
    (hs : step lib s cb = .ok s') : Served s' := by
  have hnamed := (h.named cb).mp hadm
  refine ⟨h.toInStep.step hadm hs, (step_alg hs).trans h.alg_eq, ?_⟩
  cases cb with
  | sysExec t =>
    cases hs
    exact order_exec t h
  | tick =>
    cases hs
    exact order_tick lib h
  | sysExit t =>
    obtain ⟨c, -, rfl⟩ := sysExit_eq_ok.mp hs
    rw [thread_exited]
    exact h.order
  | sysRead t =>
    obtain ⟨c, -, rfl⟩ := sysRead_eq_ok.mp hs
    rw [thread_requested, requested_trace, requested_readyQueue]
    exact h.order
  | sysWrite t =>
    obtain ⟨c, -, rfl⟩ := sysRead_eq_ok.mp hs
    rw [thread_requested, requested_trace, requested_readyQueue]
    exact h.order
  | ioComplete t =>
    obtain ⟨i, hi, hcases⟩ := ioComplete_eq_ok.mp hs
    obtain ⟨i', hi', ht⟩ := hnamed
    cases hi.symm.trans hi'
    have hdone : dispatches (completed s t i).trace ++
        (completed s t i).readyQueue.map (completed s t i).thread =
        arrivals (completed s t i).trace := by
      rw [thread_completed, completed_trace]
      change dispatches s.trace ++ (s.readyQueue ++ [i]).map s.thread = arrivals s.trace ++ [t]
      rw [List.map_append, ← List.append_assoc, h.order, ← ht]
      rfl
    rcases hcases with ⟨c, -, rfl⟩ | ⟨-, r, rest, hq, rfl⟩
    · exact hdone
    · have hqueue : (completed s t i).readyQueue = r :: rest := hq
      rw [hqueue] at hdone
      exact order_resume hdone rfl rfl rfl
  | ioStarting t =>
    obtain ⟨i, -, rfl⟩ := ioStarting_eq_ok.mp hs
    rw [thread_served]
    exact h.order

/-- The thread on the CPU leaves it by its own callbacks only. -/
theorem Served.stays {cb : Callback} {c : Ref} (h : Served s) (hadm : Admits s cb)
    (hs : Scheduler.step lib s cb = .ok s') (hc : s.curT = some c) :
    s'.curT = some c ∨ cb = .sysExit (s.thread c) ∨ cb = .sysRead (s.thread c) ∨
      cb = .sysWrite (s.thread c) := by
  have hnamed := (h.named cb).mp hadm
  cases cb with
  | sysExec t =>
    cases hs
    rcases sysExec_cases s t with ⟨-, hnone, -⟩ | ⟨-, heq⟩
    · rw [hc] at hnone
      cases hnone
    · rw [heq]
      exact .inl hc
  | tick =>
    cases hs
    obtain ⟨u, heq, ⟨hnone, -⟩ | ⟨c', -, rfl⟩ | ⟨hnone, -⟩⟩ := tick_fcfs lib h.alg_eq
    · rw [hc] at hnone
      cases hnone
    · obtain ⟨total, hcount⟩ := tickCount_eq u
      rw [heq, hcount]
      exact .inl hc
    · rw [hc] at hnone
      cases hnone
  | sysExit t =>
    obtain ⟨c', hc', rfl⟩ := hnamed
    cases hc.symm.trans hc'
    exact .inr (.inl rfl)
  | sysRead t =>
    obtain ⟨c', hc', rfl⟩ := hnamed
    cases hc.symm.trans hc'
    exact .inr (.inr (.inl rfl))
  | sysWrite t =>
    obtain ⟨c', hc', rfl⟩ := hnamed
    cases hc.symm.trans hc'
    exact .inr (.inr (.inr rfl))
  | ioComplete t =>
    obtain ⟨i, -, ⟨c', -, rfl⟩ | ⟨hnone, -⟩⟩ := ioComplete_eq_ok.mp hs
    · exact .inl hc
    · rw [hc] at hnone
      cases hnone
  | ioStarting t =>
    obtain ⟨i, -, rfl⟩ := ioStarting_eq_ok.mp hs
    exact .inl hc

/-- The first thread of a queue is on the CPU, and the others are still in the queue. -/
theorem resume_head {r : Ref} {rest : List Ref} {v : State} {t : Thread} {others : List Thread}
    (hready : (r :: rest).map s.thread = t :: others) (hthread : v.thread = s.thread)
    (hqueue : v.readyQueue = rest) :
    (v.resume r).curT.map (v.resume r).thread = some t ∧
      (v.resume r).readyQueue.map (v.resume r).thread = others ∧
      dispatches (v.resume r).trace = dispatches v.trace ++ [t] := by
  obtain ⟨rfl, rfl⟩ := List.cons.inj hready
  rw [State.resume_trace, State.thread_resume, hthread, ← hqueue]
  exact ⟨rfl, rfl, rfl⟩

/-- On an idle CPU the head of the queue is dispatched. -/
theorem Served.dispatchesHead {cb : Callback} {t : Thread} {others : List Thread} (h : Served s)
    (hadm : Admits s cb) (hs : Scheduler.step lib s cb = .ok s') (hc : s.curT = none)
    (hready : readyAt s cb = t :: others) :
    s'.curT.map s'.thread = some t ∧ s'.readyQueue.map s'.thread = others ∧
      dispatches s'.trace = dispatches s.trace ++ [t] := by
  have hnamed := (h.named cb).mp hadm
  cases cb with
  | tick =>
    cases hs
    change s.readyQueue.map s.thread = _ at hready
    obtain ⟨u, heq, ⟨-, hempty, -⟩ | ⟨c, hbusy, -⟩ | ⟨-, r, rest, hq, rfl⟩⟩ :=
      tick_fcfs lib h.alg_eq
    · rw [hempty] at hready
      cases hready
    · rw [hc] at hbusy
      cases hbusy
    · rw [hq] at hready
      have hhead := @resume_head s r rest { s with readyQueue := rest, lastOnTotal := 0 } _ _
        hready rfl rfl
      obtain ⟨total, hcount⟩ := tickCount_eq
        (State.resume { s with readyQueue := rest, lastOnTotal := 0 } r)
      rw [heq, hcount]
      exact hhead
  | ioComplete ti =>
    obtain ⟨i, hi, ⟨c, hbusy, -⟩ | ⟨-, r, rest, hq, rfl⟩⟩ := ioComplete_eq_ok.mp hs
    · rw [hc] at hbusy
      cases hbusy
    · obtain ⟨i', hi', ht⟩ := hnamed
      cases hi.symm.trans hi'
      change s.readyQueue.map s.thread ++ [ti] = _ at hready
      rw [← ht, ← List.map_singleton, ← List.map_append, hq] at hready
      have hhead := @resume_head s r rest { completed s ti i with readyQueue := rest } _ _ hready
        (thread_completed i) rfl
      have htrace : dispatches (completed s ti i).trace = dispatches s.trace := by
        rw [completed_trace]
        rfl
      rwa [← htrace]
  | _ => cases hready

end Steps

/-! ## Runs -/

/-- In every run under `FIRST_COME_FIRST_SERVED` the threads are dispatched in the order in which
they become ready, each as often as it does, less those still in `ready_queue`; a thread leaves the
CPU by its own `sys_exit`, `sys_read` or `sys_write` only; and `tick` and `io_complete` do not leave an
idle CPU to itself, they dispatch the head of `ready_queue`. -/
theorem fcfs_order (lib : QueueSort) (quantum : UInt32) (s : State)
    (h : Reachable (step lib) Admits (scheduler .firstComeFirstServed quantum) s) :
    dispatches s.trace ++ s.readyQueue.map s.thread = arrivals s.trace ∧
      (∀ cb s' c, Admits s cb → step lib s cb = .ok s' → s.curT = some c →
        s'.curT = some c ∨ cb = .sysExit (s.thread c) ∨ cb = .sysRead (s.thread c) ∨
          cb = .sysWrite (s.thread c)) ∧
      ∀ cb s' t others, Admits s cb → step lib s cb = .ok s' → s.curT = none →
        readyAt s cb = t :: others →
          s'.curT.map s'.thread = some t ∧ s'.readyQueue.map s'.thread = others ∧
            dispatches s'.trace = dispatches s.trace ++ [t] := by
  have hs : Served s := by
    refine Reachable.invariant ⟨scheduler_inStep _ quantum, rfl, rfl⟩ ?_ s h
    intro u cb u' _ hu hadm hstep
    exact hu.step hadm hstep
  refine ⟨hs.order, ?_, ?_⟩
  · intro cb s' c hadm hstep hc
    exact hs.stays hadm hstep hc
  · intro cb s' t others hadm hstep hc hready
    exact hs.dispatchesHead hadm hstep hc hready

/-- Three threads, of which the first becomes ready again behind the third. -/
theorem fcfs_order_threeThreads : ∃ s, Reachable (step insertionQueueSort) Admits
    (scheduler .firstComeFirstServed 0) s ∧ arrivals s.trace = [⟨1, 0⟩, ⟨2, 0⟩, ⟨3, 0⟩, ⟨1, 0⟩] ∧
    dispatches s.trace ++ s.readyQueue.map s.thread = arrivals s.trace := by
  have hrun : (simulate insertionQueueSort (scheduler .firstComeFirstServed 0)
      [.sysExec ⟨1, 0⟩, .sysExec ⟨2, 0⟩, .tick, .sysRead ⟨1, 0⟩, .tick, .ioStarting ⟨1, 0⟩,
        .sysExec ⟨3, 0⟩, .ioComplete ⟨1, 0⟩, .sysExit ⟨2, 0⟩, .tick]).map
      (fun s => arrivals s.trace) = some [⟨1, 0⟩, ⟨2, 0⟩, ⟨3, 0⟩, ⟨1, 0⟩] := by
    decide +kernel
  obtain ⟨s, hs, harrivals⟩ := Option.map_eq_some_iff.mp hrun
  have hreach := reachable_of_simulate hs
  obtain ⟨horder, -, -⟩ := fcfs_order insertionQueueSort 0 s hreach
  exact ⟨s, hreach, harrivals, horder⟩

end CSE130.Scheduler
