import CSE130.Scheduler.Simulator

/-!
# Which thread the priority schedulers dispatch

`tick` sorts `ready_queue` before it dispatches. `io_complete` on an idle CPU dispatches the head of
a queue that nothing has sorted since the last `tick`. The thread dispatched has the least priority
number of all in `ready_queue` just where that head happens to have it. When `tick` returns the CPU
is idle only if nothing is ready, and under `PREEMPTIVE_PRIORITY` the thread in `cur_t` has the least
number again, whatever has happened before.
-/

namespace CSE130.Scheduler

open Pager (toInt32 Consistent)

/-- Every dispatch so far selects a thread that no thread in `ready_queue` precedes. -/
def BestDispatched (trace : List Event) : Prop :=
  ∀ t ready, .dispatch t ready ∈ trace → ∀ u ∈ ready, t.priority ≤ u.priority

/-- Where `io_complete` finds the CPU idle, the head of the queue that it leaves with `io_t` at its
end has the least priority number. -/
def HeadIsLeast (s : State) : Callback → Prop
  | .ioComplete _ => s.curT = none → ∀ i, s.ioT = some i →
    ∀ r ∈ (s.readyQueue ++ [i]).head?, ∀ x ∈ s.readyQueue ++ [i],
      (s.thread r).priority ≤ (s.thread x).priority
  | _ => True

section Sorting

variable {s : State} {a b : Ref}

/-- Priorities for which `sort_priority` does not overflow. -/
def SmallPriorities (s : State) : Prop := ∀ r, (s.thread r).priority.toNat < 2 ^ 31

theorem sortPriority_le (h : SmallPriorities s) :
    sortPriority s a b ≤ 0 ↔ (s.thread a).priority ≤ (s.thread b).priority := by
  have ha := h a
  have hb := h b
  unfold sortPriority
  rw [Pager.toInt32_of_lt, UInt32.le_iff_toNat_le] <;> omega

theorem sortPriority_consistent (h : SmallPriorities s) (q : List Ref) :
    Consistent (sortPriority s) q := by
  constructor
  · intro a _ b _
    rw [sortPriority_le h, sortPriority_le h]
    exact Std.le_total
  · intro a _ b _ c _
    rw [sortPriority_le h, sortPriority_le h, sortPriority_le h]
    exact Std.le_trans

/-- The head of a sorted queue comes first. -/
theorem head_least (lib : QueueSort) (h : SmallPriorities s) {r : Ref} {rest : List Ref}
    (hq : lib.sort (sortPriority s) s.readyQueue = r :: rest) :
    ∀ x ∈ rest, (s.thread r).priority ≤ (s.thread x).priority := by
  intro x hx
  have hsorted := lib.sorted (sortPriority s) s.readyQueue (sortPriority_consistent h s.readyQueue)
  rw [hq] at hsorted
  exact (sortPriority_le h).mp ((List.pairwise_cons.mp hsorted).1 x hx)

end Sorting

section Steps

variable {lib : QueueSort} {s s' u : State} {trace : List Event} {e : Event}

theorem bestDispatched_note (he : ∀ t ready, e ≠ .dispatch t ready) :
    BestDispatched (e :: trace) ↔ BestDispatched trace := by
  constructor
  · intro h t ready hmem
    exact h t ready (List.mem_cons_of_mem e hmem)
  · intro h t ready hmem
    rcases List.mem_cons.mp hmem with heq | hmem
    · exact absurd heq.symm (he t ready)
    · exact h t ready hmem

theorem bestDispatched_dispatch {t : Thread} {ready : List Thread} :
    BestDispatched (.dispatch t ready :: trace) ↔
      BestDispatched trace ∧ ∀ u ∈ ready, t.priority ≤ u.priority := by
  constructor
  · intro h
    refine ⟨fun t' ready' hmem => h t' ready' (List.mem_cons_of_mem _ hmem), ?_⟩
    exact h t ready List.mem_cons_self
  · rintro ⟨h, hbest⟩ t' ready' hmem
    rcases List.mem_cons.mp hmem with heq | hmem
    · cases heq
      exact hbest
    · exact h t' ready' hmem

/-- A move of `tick` dispatches from a sorted queue. -/
theorem bestDispatched_move (hmove : TickMove (tickSort lib s) u)
    (halg : s.alg = .nonPreemptivePriority ∨ s.alg = .preemptivePriority)
    (h : SmallPriorities s) : BestDispatched u.trace ↔ BestDispatched s.trace := by
  have htrace : (tickSort lib s).trace = s.trace := by
    unfold tickSort
    split_ifs <;> rfl
  have hthread := thread_tickSort lib s
  cases hmove with
  | idle => rw [htrace]
  | keep => rw [htrace]
  | start r rest hc hq =>
    have hsorted : tickSort lib s = sortReady lib s := by
      have hcur : s.curT = none := by
        rw [← hc]
        unfold tickSort
        split_ifs <;> rfl
      rcases halg with halg | halg <;> simp [tickSort, halg, hcur]
    rw [hsorted] at hq
    have hleast := head_least lib h hq
    rw [State.resume_trace, bestDispatched_dispatch]
    change (BestDispatched (tickSort lib s).trace ∧ _) ↔ _
    rw [htrace]
    refine and_iff_left ?_
    intro t ht
    obtain ⟨x, hx, rfl⟩ := List.mem_map.mp ht
    change ((tickSort lib s).thread r).priority ≤ ((tickSort lib s).thread x).priority
    rw [hthread]
    exact hleast x hx
  | rotate c r rest hc hq hround =>
    rw [tickSort_alg] at hround
    rcases halg with halg | halg <;> simp [halg] at hround
  | preempt c r rest hc hq hpre hlt =>
    rw [tickSort_alg] at hpre
    have hsorted : tickSort lib s = sortReady lib s := by simp [tickSort, hpre]
    rw [hsorted] at hq
    have hleast := head_least lib h hq
    rw [State.switch_trace, bestDispatched_dispatch, bestDispatched_note (by simp), htrace]
    refine and_iff_left ?_
    rw [hthread] at hlt ⊢
    intro t ht
    obtain ⟨x, hx, rfl⟩ := List.mem_map.mp ht
    rcases List.mem_append.mp hx with hx | hx
    · exact hleast x hx
    · rw [List.mem_singleton.mp hx]
      exact UInt32.le_of_lt hlt

theorem bestDispatched_tick (lib : QueueSort)
    (halg : s.alg = .nonPreemptivePriority ∨ s.alg = .preemptivePriority)
    (h : SmallPriorities s) : BestDispatched (tick lib s).trace ↔ BestDispatched s.trace := by
  obtain ⟨u, hmove, heq⟩ := tick_move lib s
  obtain ⟨total, hcount⟩ := tickCount_eq u
  have htrace : (tick lib s).trace = .ticked (s.readyQueue.map s.thread) :: u.trace := by
    rw [heq, hcount]
    rfl
  rw [htrace, bestDispatched_note (by simp)]
  exact bestDispatched_move hmove halg h

/-- The priority schedulers dispatch nothing in `sys_exec`. -/
theorem bestDispatched_exec (t : Thread)
    (halg : s.alg = .nonPreemptivePriority ∨ s.alg = .preemptivePriority) :
    BestDispatched (sysExec s t).trace ↔ BestDispatched s.trace := by
  rcases sysExec_cases s t with ⟨-, -, hnon, hpre, -⟩ | ⟨-, heq⟩
  · exact absurd halg (not_or.mpr ⟨hnon, hpre⟩)
  · rw [heq]
    exact (bestDispatched_note (by simp)).trans (bestDispatched_note (by simp))

/-- `io_complete` on an idle CPU dispatches the head of the queue as it is. -/
theorem bestDispatched_complete {t : Thread} {i r : Ref} {rest : List Ref} (hc : s.curT = none)
    (hi : s.ioT = some i) (hq : s.readyQueue ++ [i] = r :: rest) :
    BestDispatched ({ completed s t i with readyQueue := rest }.resume r).trace ↔
      BestDispatched s.trace ∧ HeadIsLeast s (.ioComplete t) := by
  have hthread : { completed s t i with readyQueue := rest }.thread = s.thread :=
    thread_completed i
  have htrace : { completed s t i with readyQueue := rest }.trace =
      .ready (s.thread i) :: .complete t :: s.trace :=
    completed_trace i
  rw [State.resume_trace, bestDispatched_dispatch, hthread, htrace,
    bestDispatched_note (by simp), bestDispatched_note (by simp)]
  refine and_congr_right fun _ => ?_
  constructor
  · intro h _ i' hi' r' hr' x hx
    cases hi.symm.trans hi'
    rw [hq] at hr' hx
    cases hr'
    rcases List.mem_cons.mp hx with rfl | hx
    · exact UInt32.le_refl _
    · exact h _ (List.mem_map_of_mem hx)
  · intro h u hu
    obtain ⟨x, hx, rfl⟩ := List.mem_map.mp hu
    apply h hc i hi r
    · rw [hq]
      rfl
    · rw [hq]
      exact List.mem_cons_of_mem r hx

/-- The step lemma: a callback keeps the dispatches best just where the condition holds. -/
theorem bestDispatched_step {cb : Callback}
    (halg : s.alg = .nonPreemptivePriority ∨ s.alg = .preemptivePriority)
    (h : SmallPriorities s) (hs : step lib s cb = .ok s') :
    BestDispatched s'.trace ↔ BestDispatched s.trace ∧ HeadIsLeast s cb := by
  cases cb with
  | sysExec t =>
    cases hs
    exact (bestDispatched_exec t halg).trans (and_iff_left trivial).symm
  | tick =>
    cases hs
    exact (bestDispatched_tick lib halg h).trans (and_iff_left trivial).symm
  | sysExit t =>
    obtain ⟨c, -, rfl⟩ := sysExit_eq_ok.mp hs
    exact (bestDispatched_note (by simp)).trans (and_iff_left trivial).symm
  | sysRead t =>
    obtain ⟨c, -, rfl⟩ := sysRead_eq_ok.mp hs
    rw [requested_trace]
    exact (bestDispatched_note (by simp)).trans (and_iff_left trivial).symm
  | sysWrite t =>
    obtain ⟨c, -, rfl⟩ := sysRead_eq_ok.mp hs
    rw [requested_trace]
    exact (bestDispatched_note (by simp)).trans (and_iff_left trivial).symm
  | ioComplete t =>
    obtain ⟨i, hi, ⟨c, hc, rfl⟩ | ⟨hc, r, rest, hq, rfl⟩⟩ := ioComplete_eq_ok.mp hs
    · have hidle : HeadIsLeast s (.ioComplete t) := by
        intro hnone
        rw [hc] at hnone
        cases hnone
      rw [completed_trace, bestDispatched_note (by simp), bestDispatched_note (by simp)]
      exact (and_iff_left hidle).symm
    · exact bestDispatched_complete hc hi hq
  | ioStarting t =>
    obtain ⟨i, -, rfl⟩ := ioStarting_eq_ok.mp hs
    exact (bestDispatched_note (by simp)).trans (and_iff_left trivial).symm

theorem smallPriorities_step {cb : Callback} (h : SmallPriorities s)
    (hcb : ∀ t, cb = .sysExec t → t.priority.toNat < 2 ^ 31) (hs : step lib s cb = .ok s') :
    SmallPriorities s' := by
  by_cases hexec : ∃ t, cb = .sysExec t
  · obtain ⟨t, rfl⟩ := hexec
    cases hs
    have hthread : ∀ r, (sysExec s t).thread r = ((s.note (.exec t)).alloc t).thread r := by
      intro r
      rcases sysExec_cases s t with ⟨-, -, -, -, heq⟩ | ⟨-, heq⟩ <;> rw [heq] <;> rfl
    intro r
    rw [hthread]
    by_cases hr : r = s.fresh
    · subst hr
      have hnew := (s.note (.exec t)).thread_alloc_fresh t
      change (((s.note (.exec t)).alloc t).thread (s.note (.exec t)).fresh).priority.toNat < _
      rw [hnew]
      exact hcb t rfl
    · rw [(s.note (.exec t)).thread_alloc_of_ne t hr]
      exact h r
  · have hthread := step_thread (fun t ht => hexec ⟨t, ht⟩) hs
    intro r
    rw [hthread]
    exact h r

end Steps

/-! ## Runs -/

/-- The state after a sequence of callbacks none of which fails. -/
def callbacks (lib : QueueSort) (s : State) (cbs : List Callback) : Option State :=
  Library.run (step lib) (fun _ _ => true) s cbs

theorem callbacks_cons {lib : QueueSort} {s s' : State} {cb : Callback} {cbs : List Callback} :
    callbacks lib s (cb :: cbs) = some s' ↔
      ∃ u, step lib s cb = .ok u ∧ callbacks lib u cbs = some s' := by
  unfold callbacks
  rw [Library.run, if_pos rfl]
  cases hs : step lib s cb with
  | ok u => simp
  | error _ => simp

theorem bestDispatched_run (lib : QueueSort) {s s' : State} {cbs : List Callback}
    (halg : s.alg = .nonPreemptivePriority ∨ s.alg = .preemptivePriority)
    (h : SmallPriorities s) (hcbs : ∀ t, .sysExec t ∈ cbs → t.priority.toNat < 2 ^ 31)
    (hrun : callbacks lib s cbs = some s') :
    BestDispatched s'.trace ↔ BestDispatched s.trace ∧
      ∀ pre cb post u, cbs = pre ++ cb :: post → callbacks lib s pre = some u →
        HeadIsLeast u cb := by
  induction cbs generalizing s with
  | nil =>
    cases hrun
    refine (and_iff_left ?_).symm
    intro pre cb post u hnil
    simp at hnil
  | cons cb cbs ih =>
    obtain ⟨u, hs, hrest⟩ := callbacks_cons.mp hrun
    have halg' := halg
    rw [← step_alg hs] at halg'
    have hsmall := smallPriorities_step h (fun t ht => hcbs t (ht ▸ List.mem_cons_self)) hs
    rw [ih halg' hsmall (fun t ht => hcbs t (List.mem_cons_of_mem cb ht)) hrest,
      bestDispatched_step halg h hs, and_assoc]
    refine and_congr_right fun _ => ?_
    constructor
    · rintro ⟨hcond, hlater⟩ pre cb' post v hsplit hpre
      cases pre with
      | nil =>
        rw [List.nil_append, List.cons.injEq] at hsplit
        cases hpre
        exact hsplit.1 ▸ hcond
      | cons cb'' pre =>
        rw [List.cons_append, List.cons.injEq] at hsplit
        obtain ⟨rfl, hsplit⟩ := hsplit
        obtain ⟨u', hs', hpre⟩ := callbacks_cons.mp hpre
        cases hs.symm.trans hs'
        exact hlater pre cb' post v hsplit hpre
    · intro hall
      refine ⟨hall [] cb cbs s rfl rfl, ?_⟩
      intro pre cb' post v hsplit hpre
      apply hall (cb :: pre) cb' post v
      · rw [hsplit]
        rfl
      · exact callbacks_cons.mpr ⟨u, hs, hpre⟩

/-- In a run under a priority scheduler every thread dispatched has the least priority number in
`ready_queue` if and only if each `io_complete` that finds the CPU idle finds such a thread at the
head. -/
theorem priority_dispatch_iff (lib : QueueSort) (algorithm : Algorithm)
    (halg : algorithm = .nonPreemptivePriority ∨ algorithm = .preemptivePriority)
    (quantum : UInt32) (cbs : List Callback) (s : State)
    (hcbs : ∀ t, .sysExec t ∈ cbs → t.priority.toNat < 2 ^ 31)
    (hrun : callbacks lib (scheduler algorithm quantum) cbs = some s) :
    BestDispatched s.trace ↔
      ∀ pre cb post u, cbs = pre ++ cb :: post →
        callbacks lib (scheduler algorithm quantum) pre = some u → HeadIsLeast u cb := by
  have hsmall : SmallPriorities (scheduler algorithm quantum) := by
    intro r
    simp [State.thread, scheduler]
  have hstart : BestDispatched (scheduler algorithm quantum).trace := by
    intro t ready hmem
    cases hmem
  rw [bestDispatched_run lib halg hsmall hcbs hrun]
  exact and_iff_right hstart

/-- A run in which a request completes while the CPU is idle. -/
theorem priority_dispatch_iff_idle : ∃ s, callbacks insertionQueueSort
    (scheduler .preemptivePriority 0) [.sysExec ⟨1, 3⟩, .tick, .sysRead ⟨1, 3⟩, .ioStarting ⟨1, 3⟩,
      .sysExec ⟨2, 5⟩, .ioComplete ⟨1, 3⟩] = some s ∧ onCpu s.trace = some ⟨2, 5⟩ ∧
    (BestDispatched s.trace ↔ ∀ pre cb post u,
      [.sysExec ⟨1, 3⟩, .tick, .sysRead ⟨1, 3⟩, .ioStarting ⟨1, 3⟩, .sysExec ⟨2, 5⟩,
        .ioComplete ⟨1, 3⟩] = pre ++ cb :: post →
      callbacks insertionQueueSort (scheduler .preemptivePriority 0) pre = some u →
        HeadIsLeast u cb) := by
  have hrun : (callbacks insertionQueueSort (scheduler .preemptivePriority 0)
      [.sysExec ⟨1, 3⟩, .tick, .sysRead ⟨1, 3⟩, .ioStarting ⟨1, 3⟩, .sysExec ⟨2, 5⟩,
        .ioComplete ⟨1, 3⟩]).map (fun s => onCpu s.trace) = some (some ⟨2, 5⟩) := by
    decide +kernel
  obtain ⟨s, hs, hcpu⟩ := Option.map_eq_some_iff.mp hrun
  refine ⟨s, hs, hcpu, ?_⟩
  apply priority_dispatch_iff insertionQueueSort .preemptivePriority (.inr rfl) 0 _ s ?_ hs
  intro t ht
  simp only [List.mem_cons, Callback.sysExec.injEq, reduceCtorEq, List.not_mem_nil, or_false,
    false_or] at ht
  rcases ht with rfl | rfl <;> decide

/-- Thread 3 arrives first and thread 4 is more urgent. When thread 2 has left and the request of
thread 1 completes, thread 3 is at the head of the queue. -/
theorem ioComplete_dispatches_unsorted : ∃ s, Library.Reachable (step insertionQueueSort) Admits
    (scheduler .nonPreemptivePriority 0) s ∧ ¬ BestDispatched s.trace := by
  have hrun : (simulate insertionQueueSort (scheduler .nonPreemptivePriority 0)
      [.sysExec ⟨1, 0⟩, .tick, .sysExec ⟨2, 5⟩, .sysRead ⟨1, 0⟩, .tick, .sysExec ⟨3, 9⟩,
        .sysExec ⟨4, 1⟩, .ioStarting ⟨1, 0⟩, .sysExit ⟨2, 5⟩, .ioComplete ⟨1, 0⟩]).map
      (fun s => s.trace.head?) = some (some (.dispatch ⟨3, 9⟩ [⟨4, 1⟩, ⟨1, 0⟩])) := by
    decide +kernel
  obtain ⟨s, hs, hhead⟩ := Option.map_eq_some_iff.mp hrun
  refine ⟨s, reachable_of_simulate hs, fun hbest => ?_⟩
  have hle := hbest _ _ (List.mem_of_mem_head? hhead) ⟨4, 1⟩ (by simp)
  revert hle
  decide

/-! ## After a tick -/

section AfterTick

variable {lib : QueueSort} {s u : State}

/-- A move of `tick` leaves the CPU idle only if nothing is ready. -/
theorem TickMove.idle_imp (hmove : TickMove s u) (hidle : u.curT = none) : u.readyQueue = [] := by
  cases hmove with
  | idle hc hq => exact hq
  | start r rest hc hq => cases hidle
  | keep c hc => simp [hc] at hidle
  | rotate c r rest hc hq => cases hidle
  | preempt c r rest hc hq => cases hidle

/-- From a sorted queue a move under `PREEMPTIVE_PRIORITY` leads to a thread in `cur_t` that no ready
one precedes. -/
theorem TickMove.least (hmove : TickMove s u) (halg : s.alg = .preemptivePriority)
    (hsorted : s.readyQueue.Pairwise fun a b => (s.thread a).priority ≤ (s.thread b).priority) :
    ∀ c, u.curT = some c → ∀ r ∈ u.readyQueue, (s.thread c).priority ≤ (s.thread r).priority := by
  cases hmove with
  | idle hc => simp [hc]
  | start r rest hc hq =>
    rintro c ⟨⟩ x hx
    rw [hq] at hsorted
    exact (List.pairwise_cons.mp hsorted).1 x hx
  | keep c hc _ hkeep =>
    intro c' hc' x hx
    cases hc.symm.trans hc'
    obtain ⟨h, rest, hq⟩ := List.exists_cons_of_ne_nil (List.ne_nil_of_mem hx)
    -- the head does not precede `c`, and no other one precedes the head
    have hhead : (s.thread c).priority ≤ (s.thread h).priority :=
      UInt32.not_lt.mp (hkeep halg h (by simp [hq]))
    rw [hq] at hsorted hx
    rcases List.mem_cons.mp hx with rfl | hx
    · exact hhead
    · exact UInt32.le_trans hhead ((List.pairwise_cons.mp hsorted).1 x hx)
  | rotate c r rest hc hq hround => simp [halg] at hround
  | preempt c r rest hc hq _ hlt =>
    rintro c' ⟨⟩ x hx
    rw [hq] at hsorted
    have hx' : x ∈ rest ++ [c] := hx
    rcases List.mem_append.mp hx' with hx' | hx'
    · exact (List.pairwise_cons.mp hsorted).1 x hx'
    · rw [List.mem_singleton.mp hx']
      exact UInt32.le_of_lt hlt

/-- What `tick` leaves of a move in `cur_t` and `ready_queue`. -/
theorem tick_curT_readyQueue (lib : QueueSort) (s : State) : ∃ u, TickMove (tickSort lib s) u ∧
    (tick lib s).curT = u.curT ∧ (tick lib s).readyQueue = u.readyQueue := by
  obtain ⟨u, hmove, heq⟩ := tick_move lib s
  obtain ⟨total, hcount⟩ := tickCount_eq u
  refine ⟨u, hmove, ?_, ?_⟩ <;> rw [heq, hcount] <;> rfl

theorem sortReady_sorted (lib : QueueSort) (h : SmallPriorities s) :
    (sortReady lib s).readyQueue.Pairwise fun a b =>
      (s.thread a).priority ≤ (s.thread b).priority := by
  have hsorted := lib.sorted (sortPriority s) s.readyQueue (sortPriority_consistent h s.readyQueue)
  exact hsorted.imp fun hle => (sortPriority_le h).mp hle

theorem callbacks_alg {cbs : List Callback} (hrun : callbacks lib s cbs = some u) :
    u.alg = s.alg := by
  induction cbs generalizing s with
  | nil =>
    cases hrun
    rfl
  | cons cb cbs ih =>
    obtain ⟨v, hs, hrest⟩ := callbacks_cons.mp hrun
    exact (ih hrest).trans (step_alg hs)

theorem callbacks_smallPriorities {cbs : List Callback} (h : SmallPriorities s)
    (hcbs : ∀ t, .sysExec t ∈ cbs → t.priority.toNat < 2 ^ 31)
    (hrun : callbacks lib s cbs = some u) : SmallPriorities u := by
  induction cbs generalizing s with
  | nil =>
    cases hrun
    exact h
  | cons cb cbs ih =>
    obtain ⟨v, hs, hrest⟩ := callbacks_cons.mp hrun
    have hsmall := smallPriorities_step h (fun t ht => hcbs t (ht ▸ List.mem_cons_self)) hs
    exact ih hsmall (fun t ht => hcbs t (List.mem_cons_of_mem cb ht)) hrest

end AfterTick

/-- After any run and a `tick`, `cur_t` is `NULL` only if `ready_queue` is empty, and under
`PREEMPTIVE_PRIORITY` no thread in `ready_queue` has a smaller priority number than the one in
`cur_t`. -/
theorem tick_postcondition (lib : QueueSort) (algorithm : Algorithm) (quantum : UInt32)
    (cbs : List Callback) (s : State)
    (hrun : callbacks lib (scheduler algorithm quantum) cbs = some s) :
    ((tick lib s).curT = none → (tick lib s).readyQueue = []) ∧
      (algorithm = .preemptivePriority →
        (∀ t, .sysExec t ∈ cbs → t.priority.toNat < 2 ^ 31) →
        ∀ c, (tick lib s).curT = some c → ∀ r ∈ (tick lib s).readyQueue,
          ((tick lib s).thread c).priority ≤ ((tick lib s).thread r).priority) := by
  obtain ⟨u, hmove, hcur, hqueue⟩ := tick_curT_readyQueue lib s
  rw [hcur, hqueue, thread_tick]
  refine ⟨hmove.idle_imp, ?_⟩
  intro hpre hcbs
  have halg : s.alg = .preemptivePriority := (callbacks_alg hrun).trans hpre
  have hstart : SmallPriorities (scheduler algorithm quantum) := by
    intro r
    simp [State.thread, scheduler]
  have hsmall := callbacks_smallPriorities hstart hcbs hrun
  have hsort : tickSort lib s = sortReady lib s := by simp [tickSort, halg]
  rw [hsort] at hmove
  exact hmove.least halg (sortReady_sorted lib hsmall)

/-- A thread that arrives preempts the running one, which is enqueued behind a third one. -/
theorem tick_postcondition_preempts : ∃ s, callbacks insertionQueueSort
    (scheduler .preemptivePriority 0)
      [.sysExec ⟨1, 3⟩, .tick, .sysExec ⟨2, 5⟩, .sysExec ⟨3, 1⟩] = some s ∧
    (tick insertionQueueSort s).curT = some 2 ∧ (tick insertionQueueSort s).readyQueue = [1, 0] ∧
    ((tick insertionQueueSort s).curT = none → (tick insertionQueueSort s).readyQueue = []) ∧
    ∀ r ∈ (tick insertionQueueSort s).readyQueue,
      ((tick insertionQueueSort s).thread 2).priority ≤
        ((tick insertionQueueSort s).thread r).priority := by
  have hrun : (callbacks insertionQueueSort (scheduler .preemptivePriority 0)
      [.sysExec ⟨1, 3⟩, .tick, .sysExec ⟨2, 5⟩, .sysExec ⟨3, 1⟩]).map
      (fun s => ((tick insertionQueueSort s).curT, (tick insertionQueueSort s).readyQueue)) =
      some (some 2, [1, 0]) := by
    decide +kernel
  obtain ⟨s, hs, hres⟩ := Option.map_eq_some_iff.mp hrun
  obtain ⟨hcur, hqueue⟩ := Prod.mk.inj hres
  obtain ⟨hidle, hleast⟩ :=
    tick_postcondition insertionQueueSort .preemptivePriority 0 _ s hs
  refine ⟨s, hs, hcur, hqueue, hidle, hleast rfl ?_ 2 hcur⟩
  intro t ht
  simp only [List.mem_cons, Callback.sysExec.injEq, reduceCtorEq, List.not_mem_nil, or_false,
    false_or] at ht
  rcases ht with rfl | rfl | rfl <;> decide

end CSE130.Scheduler
