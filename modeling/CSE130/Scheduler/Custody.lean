import CSE130.Scheduler.Simulator

/-!
# Every thread is in one place

The callbacks act on `cur_t` and `io_t` whatever thread they are called for. The records move
between the two pointers and the three queues without being lost or doubled, and the two pointers
stay in step with what the simulator sees.
-/

namespace CSE130.Scheduler

open Library (Reachable)
open scoped List

/-- The records that the scheduler holds. -/
def State.held (s : State) : List Ref :=
  s.curT.toList ++ s.readyQueue ++ s.ioT.toList ++ s.ioQueue ++ s.doneQueue

/-- The invariant of all runs: the records allocated are held once each, their threads are those
given to `sys_exec`, and `cur_t` wraps the thread on the CPU. -/
structure Custody (s : State) : Prop where
  held : s.held ~ List.range s.fresh
  threads : (List.range s.fresh).map s.thread = execs s.trace
  cpu : s.curT.map s.thread = onCpu s.trace
  ioNext : s.ioT = none → s.ioQueue = []

/-- The threads that wait for I/O, the one in `io_t` first. -/
def State.waitingForIo (s : State) : List Thread := (s.ioT.toList ++ s.ioQueue).map s.thread

/-- The invariant of the runs of the simulator: the requests are served in their order, too. -/
structure InStep (s : State) : Prop extends Custody s where
  io : s.waitingForIo = outstanding s.trace

/-- The callback names the thread that the scheduler holds in its place. -/
def Named (s : State) : Callback → Prop
  | .sysExit t | .sysRead t | .sysWrite t => ∃ c, s.curT = some c ∧ s.thread c = t
  | .ioComplete t | .ioStarting t => ∃ i, s.ioT = some i ∧ s.thread i = t
  | .sysExec _ | .tick => True

instance (s : State) (cb : Callback) : Decidable (Named s cb) :=
  match cb with
  | .sysExit t | .sysRead t | .sysWrite t =>
    decidable_of_iff (s.curT.map s.thread = some t) (by simp [Named])
  | .ioComplete t | .ioStarting t =>
    decidable_of_iff (s.ioT.map s.thread = some t) (by simp [Named])
  | .sysExec _ | .tick => isTrue trivial

section Steps

variable {lib : QueueSort} {s s' u : State}

theorem InStep.named (h : InStep s) (cb : Callback) : Admits s cb ↔ Named s cb := by
  have hio : (outstanding s.trace).head? = s.ioT.map s.thread := by
    rw [← h.io, State.waitingForIo]
    cases hi : s.ioT with
    | none => simp [h.ioNext hi]
    | some i => simp
  cases cb <;> simp [Admits, Named, hio, ← h.cpu]

theorem Custody.lt_fresh (h : Custody s) {r : Ref} (hr : r ∈ s.held) : r < s.fresh :=
  List.mem_range.mp (h.held.mem_iff.mp hr)

/-- The records held after a callback that allocates none. -/
theorem Custody.held_of_count (h : Custody s) (hfresh : u.fresh = s.fresh)
    (hcount : ∀ x, u.held.count x = s.held.count x) : u.held ~ List.range u.fresh := by
  rw [hfresh]
  exact (List.perm_iff_count.mpr hcount).trans h.held

/-- A record that is allocated changes no thread held. -/
theorem Custody.thread_alloc (h : Custody s) (t : Thread) :
    ∀ r ∈ s.held, ((s.note (.exec t)).alloc t).thread r = s.thread r := by
  intro r hr
  exact (s.note (.exec t)).thread_alloc_of_ne t (Nat.ne_of_lt (h.lt_fresh hr))

theorem custody_sysExec (t : Thread) (h : Custody s) : Custody (sysExec s t) := by
  have hsame := h.thread_alloc t
  have hthreads : (List.range (s.fresh + 1)).map ((s.note (.exec t)).alloc t).thread =
      execs s.trace ++ [t] := by
    rw [List.range_succ, List.map_append, ← h.threads]
    congr 1
    · apply List.map_congr_left
      intro r hr
      exact hsame r (h.held.mem_iff.mpr hr)
    · exact congrArg (fun u => [u]) ((s.note (.exec t)).thread_alloc_fresh t)
  have hrange : s.held ++ [s.fresh] ~ List.range (s.fresh + 1) := by
    rw [List.range_succ]
    exact h.held.append_right _
  rcases sysExec_cases s t with ⟨hready, hcur, -, -, heq⟩ | ⟨-, heq⟩
  · rw [heq]
    constructor
    · refine List.Perm.trans (List.perm_iff_count.mpr fun x => ?_) hrange
      simp [State.held, State.simDispatch, State.note, State.alloc, hready, hcur, List.count_cons]
      omega
    · exact hthreads
    · rfl
    · exact h.ioNext
  · rw [heq]
    constructor
    · refine List.Perm.trans (List.perm_iff_count.mpr fun x => ?_) hrange
      simp [State.held, State.enqueueReady, State.note, State.alloc, List.count_cons]
      omega
    · exact hthreads
    · change s.curT.map _ = onCpu s.trace
      rw [← h.cpu]
      apply Option.map_congr
      intro c hc
      apply hsame
      simp [State.held, Option.mem_def.mp hc]
    · exact h.ioNext

theorem custody_exited {t : Thread} {c : Ref} (h : Custody s) (hc : s.curT = some c) :
    Custody (exited s t c) := by
  constructor
  · refine h.held_of_count rfl fun x => ?_
    simp [State.held, exited, State.modify, State.note, hc, List.count_cons]
    omega
  · rw [thread_exited]
    exact h.threads
  · rfl
  · exact h.ioNext

theorem custody_requested {t : Thread} {c : Ref} (h : Custody s) (hc : s.curT = some c) :
    Custody (requested s t c) := by
  have hthread := @thread_requested s t c
  by_cases hidle : s.ioQueue = [] ∧ s.ioT = none
  · rw [requested_idle hidle] at hthread ⊢
    constructor
    · refine h.held_of_count rfl fun x => ?_
      simp [State.held, State.stamp, State.modify, State.note, hc, hidle.1, hidle.2,
        List.count_cons]
      omega
    · rw [hthread]
      exact h.threads
    · rfl
    · intro hnone
      cases hnone
  · rw [requested_busy hidle] at hthread ⊢
    constructor
    · refine h.held_of_count rfl fun x => ?_
      simp [State.held, State.stamp, State.modify, State.note, hc, List.count_cons]
      omega
    · rw [hthread]
      exact h.threads
    · rfl
    · intro hnone
      exact absurd ⟨h.ioNext hnone, hnone⟩ hidle

theorem custody_completed {t : Thread} {i : Ref} (h : Custody s) (hi : s.ioT = some i) :
    Custody (completed s t i) := by
  constructor
  · refine h.held_of_count rfl fun x => ?_
    cases hq : s.ioQueue with
    | nil =>
      simp [State.held, completed, State.enqueueReady, State.stamp, State.modify, State.note, hi, hq]
    | cons j q =>
      simp [State.held, completed, State.enqueueReady, State.stamp, State.modify, State.note, hi, hq]
  · rw [thread_completed]
    exact h.threads
  · rw [thread_completed]
    exact h.cpu
  · change s.ioQueue.head? = none → s.ioQueue.tail = []
    cases s.ioQueue <;> simp

/-- The head of the ready queue gets the idle CPU. -/
theorem custody_resume {r : Ref} {rest : List Ref} {total : Int} (h : Custody s)
    (hc : s.curT = none) (hq : s.readyQueue = r :: rest) :
    Custody ({ s with readyQueue := rest, lastOnTotal := total }.resume r) := by
  constructor
  · refine h.held_of_count rfl fun x => ?_
    simp [State.held, State.resume_eq, hc, hq]
  · rw [State.thread_resume, State.resume_trace]
    exact h.threads
  · rw [State.thread_resume, State.resume_trace]
    rfl
  · exact h.ioNext

theorem custody_switch {c r : Ref} {rest : List Ref} {total : Int} (h : Custody s)
    (hc : s.curT = some c) (hq : s.readyQueue = r :: rest) :
    Custody { s.switch c r rest with lastOnTotal := total } := by
  have hthread : { s.switch c r rest with lastOnTotal := total }.thread = s.thread :=
    s.thread_switch r c rest
  have htrace : { s.switch c r rest with lastOnTotal := total }.trace =
      .dispatch (s.thread r) ((rest ++ [c]).map s.thread) :: .ready (s.thread c) :: s.trace :=
    s.switch_trace r c rest
  constructor
  · refine h.held_of_count rfl fun x => ?_
    simp [State.held, State.switch, State.resume_eq, State.stamp, State.modify, State.enqueueReady,
      State.note, hc, hq, List.count_cons]
    omega
  · rw [hthread, htrace]
    exact h.threads
  · rw [hthread, htrace]
    rfl
  · exact h.ioNext

theorem custody_tickSort (lib : QueueSort) (h : Custody s) : Custody (tickSort lib s) := by
  unfold tickSort
  split_ifs
  · refine ⟨?_, h.threads, h.cpu, h.ioNext⟩
    refine h.held_of_count rfl fun x => ?_
    have hcount := (lib.perm (sortPriority s) s.readyQueue).count_eq x
    simp [State.held, sortReady, hcount]
  · exact h

theorem custody_move (hmove : TickMove s u) (h : Custody s) : Custody u := by
  cases hmove with
  | idle => exact h
  | start r rest hc hq => exact custody_resume h hc hq
  | keep => exact h
  | rotate c r rest hc hq => exact custody_switch h hc hq
  | preempt c r rest hc hq => exact custody_switch h hc hq

theorem custody_tick (lib : QueueSort) (h : Custody s) : Custody (tick lib s) := by
  obtain ⟨u, hmove, heq⟩ := tick_move lib s
  have hu := custody_move hmove (custody_tickSort lib h)
  obtain ⟨total, hcount⟩ := tickCount_eq u
  rw [heq, hcount]
  exact ⟨hu.held, hu.threads, hu.cpu, hu.ioNext⟩

/-- The step lemma, for every callback that succeeds. -/
theorem Custody.step {cb : Callback} (h : Custody s) (hs : step lib s cb = .ok s') :
    Custody s' := by
  cases cb with
  | sysExec t =>
    cases hs
    exact custody_sysExec t h
  | tick =>
    cases hs
    exact custody_tick lib h
  | sysExit t =>
    obtain ⟨c, hc, rfl⟩ := sysExit_eq_ok.mp hs
    exact custody_exited h hc
  | sysRead t =>
    obtain ⟨c, hc, rfl⟩ := sysRead_eq_ok.mp hs
    exact custody_requested h hc
  | sysWrite t =>
    obtain ⟨c, hc, rfl⟩ := sysRead_eq_ok.mp hs
    exact custody_requested h hc
  | ioComplete t =>
    obtain ⟨i, hi, hcases⟩ := ioComplete_eq_ok.mp hs
    have hdone := @custody_completed s t i h hi
    rcases hcases with ⟨c, -, rfl⟩ | ⟨hc, r, rest, hq, rfl⟩
    · exact hdone
    · exact custody_resume hdone hc hq
  | ioStarting t =>
    obtain ⟨i, hi, rfl⟩ := ioStarting_eq_ok.mp hs
    have hthread := @thread_served s t i
    refine ⟨h.held, ?_, ?_, h.ioNext⟩
    · rw [hthread]
      exact h.threads
    · rw [hthread]
      exact h.cpu

/-! ## The order of the requests -/

theorem io_sysExec (t : Thread) (h : InStep s) :
    (sysExec s t).waitingForIo = outstanding (sysExec s t).trace := by
  have hio : (s.ioT.toList ++ s.ioQueue).map ((s.note (.exec t)).alloc t).thread =
      outstanding s.trace := by
    rw [← h.io]
    apply List.map_congr_left
    intro r hr
    apply h.thread_alloc t
    simp only [State.held, List.mem_append] at hr ⊢
    tauto
  rcases sysExec_cases s t with ⟨-, -, -, -, heq⟩ | ⟨-, heq⟩
  · rw [heq]
    exact hio
  · rw [heq]
    exact hio

theorem io_move (hmove : TickMove s u) (hio : s.waitingForIo = outstanding s.trace) :
    u.waitingForIo = outstanding u.trace := by
  cases hmove with
  | idle => exact hio
  | start r rest hc hq =>
    rw [State.waitingForIo, State.thread_resume, State.resume_trace]
    exact hio
  | keep => exact hio
  | rotate c r rest hc hq =>
    change (s.ioT.toList ++ s.ioQueue).map (s.switch c r rest).thread =
      outstanding (s.switch c r rest).trace
    rw [s.thread_switch r c rest, s.switch_trace r c rest]
    exact hio
  | preempt c r rest hc hq =>
    rw [State.waitingForIo, s.thread_switch r c rest, s.switch_trace r c rest]
    exact hio

theorem io_tick (lib : QueueSort) (hio : s.waitingForIo = outstanding s.trace) :
    (tick lib s).waitingForIo = outstanding (tick lib s).trace := by
  have hsort : (tickSort lib s).waitingForIo = outstanding (tickSort lib s).trace := by
    unfold tickSort
    split_ifs
    · exact hio
    · exact hio
  obtain ⟨u, hmove, heq⟩ := tick_move lib s
  have hu := io_move hmove hsort
  obtain ⟨total, hcount⟩ := tickCount_eq u
  rw [heq, hcount]
  exact hu

theorem io_requested {t : Thread} {c : Ref} (hio : s.waitingForIo = outstanding s.trace)
    (ht : s.thread c = t) :
    (requested s t c).waitingForIo = outstanding (requested s t c).trace := by
  rw [State.waitingForIo, thread_requested]
  by_cases hidle : s.ioQueue = [] ∧ s.ioT = none
  · rw [requested_idle hidle]
    change ([c] ++ s.ioQueue).map s.thread = outstanding s.trace ++ [t]
    rw [← hio, State.waitingForIo, hidle.1, hidle.2, ← ht]
    rfl
  · rw [requested_busy hidle]
    change (s.ioT.toList ++ (s.ioQueue ++ [c])).map s.thread = outstanding s.trace ++ [t]
    rw [← hio, State.waitingForIo, ← ht, ← List.append_assoc, List.map_append]
    rfl

theorem io_completed {t : Thread} {i : Ref} (hio : s.waitingForIo = outstanding s.trace)
    (hi : s.ioT = some i) :
    (completed s t i).waitingForIo = outstanding (completed s t i).trace := by
  rw [State.waitingForIo, thread_completed]
  change (s.ioQueue.head?.toList ++ s.ioQueue.tail).map s.thread = (outstanding s.trace).tail
  rw [← hio, State.waitingForIo, hi]
  cases s.ioQueue <;> simp

/-- The step lemma, for the callbacks of the simulator. -/
theorem InStep.step {cb : Callback} (h : InStep s) (hadm : Admits s cb)
    (hs : step lib s cb = .ok s') : InStep s' := by
  have hnamed := (h.named cb).mp hadm
  refine ⟨h.toCustody.step hs, ?_⟩
  cases cb with
  | sysExec t =>
    cases hs
    exact io_sysExec t h
  | tick =>
    cases hs
    exact io_tick lib h.io
  | sysExit t =>
    obtain ⟨c, -, rfl⟩ := sysExit_eq_ok.mp hs
    rw [State.waitingForIo, thread_exited]
    exact h.io
  | sysRead t =>
    obtain ⟨c, hc, rfl⟩ := sysRead_eq_ok.mp hs
    obtain ⟨c', hc', ht⟩ := hnamed
    cases hc.symm.trans hc'
    exact io_requested h.io ht
  | sysWrite t =>
    obtain ⟨c, hc, rfl⟩ := sysRead_eq_ok.mp hs
    obtain ⟨c', hc', ht⟩ := hnamed
    cases hc.symm.trans hc'
    exact io_requested h.io ht
  | ioComplete t =>
    obtain ⟨i, hi, hcases⟩ := ioComplete_eq_ok.mp hs
    have hdone := @io_completed s t i h.io hi
    rcases hcases with ⟨c, -, rfl⟩ | ⟨-, r, rest, -, rfl⟩
    · exact hdone
    · rw [State.waitingForIo, State.thread_resume, State.resume_trace]
      exact hdone
  | ioStarting t =>
    obtain ⟨i, -, rfl⟩ := ioStarting_eq_ok.mp hs
    rw [State.waitingForIo, thread_served]
    exact h.io

/-- A callback for the thread in its place succeeds. -/
theorem step_of_named {cb : Callback} (h : Named s cb) : ∃ s', step lib s cb = .ok s' := by
  cases cb with
  | sysExec t => exact ⟨_, rfl⟩
  | tick => exact ⟨_, rfl⟩
  | sysExit t =>
    obtain ⟨c, hc, -⟩ := h
    exact ⟨_, sysExit_eq_ok.mpr ⟨c, hc, rfl⟩⟩
  | sysRead t =>
    obtain ⟨c, hc, -⟩ := h
    exact ⟨_, sysRead_eq_ok.mpr ⟨c, hc, rfl⟩⟩
  | sysWrite t =>
    obtain ⟨c, hc, -⟩ := h
    exact ⟨_, sysRead_eq_ok.mpr ⟨c, hc, rfl⟩⟩
  | ioComplete t =>
    obtain ⟨i, hi, -⟩ := h
    cases hc : s.curT with
    | some c => exact ⟨_, ioComplete_eq_ok.mpr ⟨i, hi, .inl ⟨c, hc, rfl⟩⟩⟩
    | none =>
      obtain ⟨r, rest, hq⟩ := List.exists_cons_of_ne_nil
        (List.append_ne_nil_of_right_ne_nil s.readyQueue (List.cons_ne_nil i []))
      exact ⟨_, ioComplete_eq_ok.mpr ⟨i, hi, .inr ⟨hc, r, rest, hq, rfl⟩⟩⟩
  | ioStarting t =>
    obtain ⟨i, hi, -⟩ := h
    exact ⟨_, ioStarting_eq_ok.mpr ⟨i, hi, rfl⟩⟩

end Steps

/-! ## Runs -/

section Runs

variable (lib : QueueSort) (algorithm : Algorithm) (quantum : UInt32)

theorem scheduler_inStep : InStep (scheduler algorithm quantum) := by
  refine ⟨⟨?_, ?_, ?_, ?_⟩, ?_⟩ <;>
    simp [scheduler, State.held, execs, onCpu, outstanding, State.waitingForIo]

theorem reachable_inStep (s : State)
    (h : Reachable (step lib) Admits (scheduler algorithm quantum) s) : InStep s := by
  refine Reachable.invariant (scheduler_inStep algorithm quantum) ?_ s h
  intro s cb s' _ hs hadm hstep
  exact hs.step hadm hstep

/-- In every run of the simulator each call of `sys_exec` accounts for one record, which is in one
of the two pointers and three queues, once. The pointer `io_t` is `NULL` only when nothing waits for
I/O, and `cur_t` wraps the thread on the CPU. No callback fails, and each finds in its pointer the
thread that it is called for. -/
theorem threads_kept_once (s : State)
    (h : Reachable (step lib) Admits (scheduler algorithm quantum) s) :
    s.held.Nodup ∧ s.held.map s.thread ~ execs s.trace ∧ (s.ioT = none → s.ioQueue = []) ∧
      s.curT.map s.thread = onCpu s.trace ∧
      ∀ cb, Admits s cb → Named s cb ∧ ∃ s', step lib s cb = .ok s' := by
  have hs := reachable_inStep lib algorithm quantum s h
  refine ⟨?_, ?_, hs.ioNext, hs.cpu, ?_⟩
  · exact hs.held.nodup_iff.mpr List.nodup_range
  · rw [← hs.threads]
    exact hs.held.map s.thread
  · intro cb hadm
    have hnamed := (hs.named cb).mp hadm
    exact ⟨hnamed, step_of_named hnamed⟩

end Runs

/-- Two threads, of which the first waits for I/O while the second finishes. -/
theorem threads_kept_once_twoThreads : ∃ s, Reachable (step insertionQueueSort) Admits
    (scheduler .roundRobin 2) s ∧ s.held.length = 2 ∧ s.held.Nodup ∧
    s.held.map s.thread ~ execs s.trace := by
  have hrun : (simulate insertionQueueSort (scheduler .roundRobin 2)
      [.sysExec ⟨1, 0⟩, .sysExec ⟨2, 0⟩, .tick, .tick, .tick, .sysExit ⟨2, 0⟩, .tick,
        .sysRead ⟨1, 0⟩, .ioStarting ⟨1, 0⟩]).map (fun s => s.held.length) = some 2 := by
    decide +kernel
  obtain ⟨s, hs, hlength⟩ := Option.map_eq_some_iff.mp hrun
  have hreach := reachable_of_simulate hs
  have hkept := threads_kept_once insertionQueueSort .roundRobin 2 s hreach
  exact ⟨s, hreach, hlength, hkept.1, hkept.2.1⟩

end CSE130.Scheduler
