import CSE130.Scheduler.Custody
import Mathlib.Algebra.BigOperators.Ring.Finset
import Mathlib.Algebra.Order.BigOperators.Group.List
import Mathlib.Algebra.Order.Ring.Int

/-!
# The statistics at the end

`stats` empties `done_queue` into an array of records, adds up their times and divides the two sums by
the number of records. In every run the queue has the threads that have called `sys_exit`, in the
order of these calls. When there are none the division is one by zero, and from 2^31 of them on the
`int` that counts the records overflows. The two calls of `malloc` are taken to succeed.
-/

namespace CSE130.Scheduler

open Pager (toInt32 toUInt32 toInt32_of_lt)
open Library (Reachable)

/-- A `stats_t` at the second level. The members are `unsigned int`. -/
structure ThreadStats where
  tid : UInt32
  waitingTime : Nat
  turnaroundTime : Nat
  threadCount : Nat
  deriving DecidableEq, Repr

/-- The `stats_t` at the top level. -/
structure Stats where
  waitingTime : Nat
  turnaroundTime : Nat
  threadCount : Nat
  tstats : List ThreadStats
  deriving DecidableEq, Repr

/-- The ways in which `stats` can fail. -/
inductive StatsFault where
  | nullPointer
  | divisionByZero
  | intOverflow
  deriving DecidableEq, Repr

/-- The record in `tstats` for a finished thread. -/
def threadStats (threadCount : Nat) (x : Times) : ThreadStats where
  tid := x.t.tid
  waitingTime := toUInt32 x.waitingTime
  turnaroundTime := toUInt32 x.runningTime
  threadCount := threadCount

/-- A sum of `int`s. C leaves open what comes of one that does not fit. -/
def addInt (a b : Int) : Except StatsFault Int :=
  if -2 ^ 31 ≤ a + b ∧ a + b < 2 ^ 31 then .ok (a + b) else .error .intOverflow

/-- The loop of `stats` from the round of `int i` on, with what is left in `done_queue`: the records
that it writes, and `mean_turn` and `mean_wait` at its end. -/
def statsLoop (s : State) (threadCount : Nat) (queue : List Ref) (i meanTurn meanWait : Int) :
    Except StatsFault (List ThreadStats × Int × Int) :=
  -- `thread_count` is unsigned, so that `i` is converted before it is compared
  if toUInt32 i < threadCount then
    match queue with
    | [] => .error .nullPointer
    | ti :: queue => do
      let x := s.store ti
      let meanTurn ← addInt meanTurn x.runningTime
      let meanWait ← addInt meanWait x.waitingTime
      let next ← addInt i 1
      let (tstats, meanTurn, meanWait) ← statsLoop s threadCount queue next meanTurn meanWait
      pure (threadStats threadCount x :: tstats, meanTurn, meanWait)
  else .ok ([], meanTurn, meanWait)

/-- A quotient of `unsigned int`s, the first of which is converted from an `int`. -/
def divideUInt32 (a : Int) (b : Nat) : Except StatsFault Nat :=
  if b = 0 then .error .divisionByZero else .ok (toUInt32 a / b)

/-- `stats` (`scheduler.c:213-235`). The queues that it destroys are of no use afterwards. -/
def stats (s : State) : Except StatsFault Stats := do
  let threadCount := toUInt32 (toInt32 s.doneQueue.length)
  let (tstats, meanTurn, meanWait) ← statsLoop s threadCount s.doneQueue 0 0 0
  let turnaroundTime ← divideUInt32 meanTurn threadCount
  let waitingTime ← divideUInt32 meanWait threadCount
  pure { waitingTime, turnaroundTime, threadCount, tstats }

/-- The threads that have called `sys_exit`, the oldest call first. -/
def exits : List Event → List Thread
  | [] => []
  | .exit t :: trace => exits trace ++ [t]
  | _ :: trace => exits trace

/-! ## The order in `done_queue` -/

section Steps

variable {lib : QueueSort} {s s' u : State}

/-- `done_queue` has the threads that have called `sys_exit`. -/
def DoneInOrder (s : State) : Prop := s.doneQueue.map s.thread = exits s.trace

theorem TickMove.doneInOrder (hmove : TickMove s u) (h : DoneInOrder s) : DoneInOrder u := by
  have hthread := hmove.thread_eq
  unfold DoneInOrder
  rw [hthread]
  cases hmove with
  | idle => exact h
  | start r rest =>
    rw [State.resume_trace]
    exact h
  | keep => exact h
  | rotate c r rest =>
    change s.doneQueue.map s.thread = exits (s.switch c r rest).trace
    rw [s.switch_trace r c rest]
    exact h
  | preempt c r rest =>
    rw [s.switch_trace r c rest]
    exact h

theorem doneInOrder_tick (lib : QueueSort) (h : DoneInOrder s) : DoneInOrder (tick lib s) := by
  have hsort : DoneInOrder (tickSort lib s) := by
    unfold tickSort
    split_ifs
    · exact h
    · exact h
  obtain ⟨u, hmove, heq⟩ := tick_move lib s
  have hu := hmove.doneInOrder hsort
  obtain ⟨total, hcount⟩ := tickCount_eq u
  rw [heq, hcount]
  exact hu

theorem doneInOrder_sysExec (t : Thread) (hcustody : Custody s) (h : DoneInOrder s) :
    DoneInOrder (sysExec s t) := by
  have hdone : s.doneQueue.map ((s.note (.exec t)).alloc t).thread = exits s.trace := by
    rw [← h]
    apply List.map_congr_left
    intro r hr
    apply hcustody.thread_alloc t
    simp [State.held, hr]
  rcases sysExec_cases s t with ⟨-, -, -, -, heq⟩ | ⟨-, heq⟩
  · rw [heq]
    exact hdone
  · rw [heq]
    exact hdone

/-- The step lemma. -/
theorem DoneInOrder.step {cb : Callback} (hin : InStep s) (h : DoneInOrder s)
    (hadm : Admits s cb) (hs : Scheduler.step lib s cb = .ok s') : DoneInOrder s' := by
  have hnamed := (hin.named cb).mp hadm
  cases cb with
  | sysExec t =>
    cases hs
    exact doneInOrder_sysExec t hin.toCustody h
  | tick =>
    cases hs
    exact doneInOrder_tick lib h
  | sysExit t =>
    obtain ⟨c, hc, rfl⟩ := sysExit_eq_ok.mp hs
    obtain ⟨c', hc', ht⟩ := hnamed
    cases hc.symm.trans hc'
    unfold DoneInOrder
    rw [thread_exited]
    change (s.doneQueue ++ [c]).map s.thread = exits s.trace ++ [t]
    rw [List.map_append, List.map_singleton, ht, h]
  | sysRead t =>
    obtain ⟨c, -, rfl⟩ := sysRead_eq_ok.mp hs
    unfold DoneInOrder
    rw [thread_requested, requested_trace, requested_doneQueue]
    exact h
  | sysWrite t =>
    obtain ⟨c, -, rfl⟩ := sysRead_eq_ok.mp hs
    unfold DoneInOrder
    rw [thread_requested, requested_trace, requested_doneQueue]
    exact h
  | ioComplete t =>
    obtain ⟨i, -, hcases⟩ := ioComplete_eq_ok.mp hs
    have hdone : DoneInOrder (completed s t i) := by
      unfold DoneInOrder
      rw [thread_completed, completed_trace]
      exact h
    rcases hcases with ⟨c, -, rfl⟩ | ⟨-, r, rest, -, rfl⟩
    · exact hdone
    · unfold DoneInOrder
      rw [State.thread_resume, State.resume_trace]
      exact hdone
  | ioStarting t =>
    obtain ⟨i, -, rfl⟩ := ioStarting_eq_ok.mp hs
    unfold DoneInOrder
    rw [thread_served]
    exact h

/-- The run lemma. -/
theorem reachable_doneInOrder (lib : QueueSort) (algorithm : Algorithm) (quantum : UInt32)
    (s : State) (h : Reachable (step lib) Admits (scheduler algorithm quantum) s) :
    DoneInOrder s := by
  refine Reachable.invariant (by rfl) ?_ s h
  intro s cb s' hreach hs hadm hstep
  exact hs.step (reachable_inStep lib algorithm quantum s hreach) hadm hstep

end Steps

/-! ## The sums and the means -/

/-- The times of the finished records are not negative, and their sums fit into an `int`. -/
structure TimesFit (s : State) : Prop where
  turnaround_nonneg : ∀ r ∈ s.doneQueue, 0 ≤ (s.store r).runningTime
  waiting_nonneg : ∀ r ∈ s.doneQueue, 0 ≤ (s.store r).waitingTime
  turnaround_lt : (s.doneQueue.map fun r => (s.store r).runningTime).sum < 2 ^ 31
  waiting_lt : (s.doneQueue.map fun r => (s.store r).waitingTime).sum < 2 ^ 31

/-- The statistics have one record for each thread that has called `sys_exit`, in the order of the
calls and with the times of that thread, and the means of these times. -/
structure Stats.Exact (s : State) (st : Stats) : Prop where
  threadCount_eq : st.threadCount = (exits s.trace).length
  tids_eq : st.tstats.map ThreadStats.tid = (exits s.trace).map Thread.tid
  times_eq : st.tstats.map (fun x => ((x.turnaroundTime : Int), (x.waitingTime : Int))) =
    s.doneQueue.map fun r => ((s.store r).runningTime, (s.store r).waitingTime)
  turnaround_eq :
    st.turnaroundTime = (st.tstats.map ThreadStats.turnaroundTime).sum / st.threadCount
  waiting_eq : st.waitingTime = (st.tstats.map ThreadStats.waitingTime).sum / st.threadCount

section Means

variable {s : State} {queue : List Ref} {n : Nat}

theorem sum_nonneg {f : Ref → Int} (h : ∀ r ∈ queue, 0 ≤ f r) : 0 ≤ (queue.map f).sum := by
  apply List.sum_nonneg
  intro z hz
  obtain ⟨r, hr, rfl⟩ := List.mem_map.mp hz
  exact h r hr

theorem cast_toUInt32 {z : Int} (h : 0 ≤ z) (h' : z < 2 ^ 31) : (toUInt32 z : Int) = z :=
  Pager.toUInt32_of_lt h (by omega)

theorem addInt_of_lt {a b : Int} (h : 0 ≤ a + b) (h' : a + b < 2 ^ 31) : addInt a b = .ok (a + b) :=
  if_pos ⟨by omega, h'⟩

theorem addInt_eq_ok {a b c : Int} (h : addInt a b = .ok c) : c = a + b ∧ c < 2 ^ 31 := by
  unfold addInt at h
  split_ifs at h with hfits
  cases h
  exact ⟨rfl, hfits.2⟩

theorem toUInt32_natCast {i : Nat} (h : i < 2 ^ 31) : toUInt32 (i : Int) = i := by
  have hcast := cast_toUInt32 (Int.natCast_nonneg i) (by omega)
  omega

/-- Nothing overflows in the loop, and it ends with the queue. -/
theorem statsLoop_eq (queue : List Ref) {threadCount i : Nat} {meanTurn meanWait : Int}
    (hcount : threadCount = i + queue.length) (hlt : threadCount < 2 ^ 31)
    (hturn : 0 ≤ meanTurn) (hwait : 0 ≤ meanWait)
    (hturns : ∀ r ∈ queue, 0 ≤ (s.store r).runningTime)
    (hwaits : ∀ r ∈ queue, 0 ≤ (s.store r).waitingTime)
    (hturnSum : meanTurn + (queue.map fun r => (s.store r).runningTime).sum < 2 ^ 31)
    (hwaitSum : meanWait + (queue.map fun r => (s.store r).waitingTime).sum < 2 ^ 31) :
    statsLoop s threadCount queue i meanTurn meanWait =
      .ok (queue.map fun r => threadStats threadCount (s.store r),
        meanTurn + (queue.map fun r => (s.store r).runningTime).sum,
        meanWait + (queue.map fun r => (s.store r).waitingTime).sum) := by
  induction queue generalizing i meanTurn meanWait with
  | nil =>
    have hi := toUInt32_natCast (i := i) (by omega)
    rw [statsLoop, hi, if_neg (by simp [hcount])]
    simp
  | cons r queue ih =>
    have hturnR := hturns r List.mem_cons_self
    have hwaitR := hwaits r List.mem_cons_self
    have hturnRest := sum_nonneg fun x hx => hturns x (List.mem_cons_of_mem r hx)
    have hwaitRest := sum_nonneg fun x hx => hwaits x (List.mem_cons_of_mem r hx)
    simp only [List.map_cons, List.sum_cons] at hturnSum hwaitSum
    rw [List.length_cons] at hcount
    have hi := toUInt32_natCast (i := i) (by omega)
    have hturnStep := addInt_of_lt (a := meanTurn) (b := (s.store r).runningTime) (by omega)
      (by omega)
    have hwaitStep := addInt_of_lt (a := meanWait) (b := (s.store r).waitingTime) (by omega)
      (by omega)
    have hnext : addInt i 1 = .ok ((i + 1 : Nat) : Int) := addInt_of_lt (by omega) (by omega)
    have hrest := @ih (i + 1) (meanTurn + (s.store r).runningTime)
      (meanWait + (s.store r).waitingTime) (by omega) (by omega) (by omega)
      (fun x hx => hturns x (List.mem_cons_of_mem r hx))
      (fun x hx => hwaits x (List.mem_cons_of_mem r hx)) (by omega) (by omega)
    rw [statsLoop, hi, if_pos (by omega)]
    simp only [hturnStep, hwaitStep, hnext, hrest, Library.ok_bind, List.map_cons, List.sum_cons,
      Int.add_assoc]
    rfl

/-- The loop comes to its end only if `int i` gets as far. -/
theorem threadCount_lt_of_statsLoop {threadCount : Nat} {i meanTurn meanWait : Int}
    {res : List ThreadStats × Int × Int} (hi : 0 ≤ i) (hlt : i < 2 ^ 31)
    (h : statsLoop s threadCount queue i meanTurn meanWait = .ok res) : threadCount < 2 ^ 31 := by
  induction queue generalizing i meanTurn meanWait res with
  | nil =>
    have hcast := cast_toUInt32 hi hlt
    rw [statsLoop] at h
    split_ifs at h with hmore
    omega
  | cons r queue ih =>
    have hcast := cast_toUInt32 hi hlt
    rw [statsLoop] at h
    split_ifs at h with hmore
    · simp only [Library.bind_eq_ok] at h
      obtain ⟨turn, -, wait, -, next, hnext, rest, hrest, -⟩ := h
      obtain ⟨rfl, hnextLt⟩ := addInt_eq_ok hnext
      exact ih (by omega) hnextLt hrest
    · omega

/-- The number of records as the `unsigned int` that `thread_count` is. -/
theorem threadCount_eq_mod (n : Nat) : toUInt32 (toInt32 n) = n % 2 ^ 32 := by
  unfold toUInt32 toInt32
  rw [Int.bmod_def]
  split <;> omega

theorem stats_threadCount {st : Stats} (h : stats s = .ok st) :
    st.threadCount = s.doneQueue.length % 2 ^ 32 ∧ st.threadCount ≠ 0 ∧
      st.threadCount < 2 ^ 31 := by
  simp only [stats, Library.bind_eq_ok, divideUInt32, threadCount_eq_mod] at h
  obtain ⟨⟨tstats, meanTurn, meanWait⟩, hloop, turnaround, hturn, waiting, -, hst⟩ := h
  split_ifs at hturn with hzero
  cases hst
  exact ⟨rfl, hzero, threadCount_lt_of_statsLoop (Int.le_refl 0) (by decide) hloop⟩

/-- A time is not larger than the sum of all. -/
theorem le_sum {f : Ref → Int} (h : ∀ r ∈ queue, 0 ≤ f r) {r : Ref} (hr : r ∈ queue) :
    f r ≤ (queue.map f).sum := by
  apply List.single_le_sum
  · intro z hz
    obtain ⟨x, hx, rfl⟩ := List.mem_map.mp hz
    exact h x hx
  · exact List.mem_map_of_mem hr

/-- The sum of the times as `unsigned int`s is the sum of the times. -/
theorem sum_toUInt32 {f : Ref → Int} (h : ∀ r ∈ queue, 0 ≤ f r)
    (hlt : (queue.map f).sum < 2 ^ 31) :
    (queue.map fun r => toUInt32 (f r)).sum = toUInt32 (queue.map f).sum := by
  have hcast : (((queue.map fun r => toUInt32 (f r)).sum : Nat) : Int) = (queue.map f).sum := by
    rw [Nat.cast_list_sum, List.map_map]
    congr 1
    apply List.map_congr_left
    intro r hr
    have hle := le_sum h hr
    exact cast_toUInt32 (h r hr) (by omega)
  have hsum := cast_toUInt32 (sum_nonneg h) hlt
  omega

theorem stats_eq (hfit : TimesFit s) (hpos : 0 < s.doneQueue.length)
    (hlt : s.doneQueue.length < 2 ^ 31) :
    stats s = .ok
      { waitingTime :=
          toUInt32 (s.doneQueue.map fun r => (s.store r).waitingTime).sum / s.doneQueue.length
        turnaroundTime :=
          toUInt32 (s.doneQueue.map fun r => (s.store r).runningTime).sum / s.doneQueue.length
        threadCount := s.doneQueue.length
        tstats := s.doneQueue.map fun r => threadStats s.doneQueue.length (s.store r) } := by
  obtain ⟨hturns, hwaits, hturnSum, hwaitSum⟩ := hfit
  have hcount : toUInt32 (toInt32 s.doneQueue.length) = s.doneQueue.length := by
    rw [threadCount_eq_mod, Nat.mod_eq_of_lt (by omega)]
  have hloop := @statsLoop_eq s s.doneQueue _ 0 0 0 (Nat.zero_add _).symm hlt (by omega) (by omega)
    hturns hwaits (by omega) (by omega)
  rw [Int.natCast_zero] at hloop
  simp only [stats, hcount, hloop, Library.ok_bind, divideUInt32, if_neg (Nat.ne_of_gt hpos),
    Int.zero_add]
  rfl

/-- Where there are finished threads, `stats` returns and is exact. -/
theorem stats_exact (hdone : DoneInOrder s) (hfit : TimesFit s) (hpos : 0 < s.doneQueue.length)
    (hlt : s.doneQueue.length < 2 ^ 31) : ∃ st, stats s = .ok st ∧ st.Exact s := by
  obtain ⟨hturns, hwaits, hturnSum, hwaitSum⟩ := hfit
  have hexits : s.doneQueue.length = (exits s.trace).length := by
    rw [← hdone, List.length_map]
  refine ⟨_, stats_eq ⟨hturns, hwaits, hturnSum, hwaitSum⟩ hpos hlt, ?_⟩
  constructor
  · exact hexits
  · rw [← hdone, List.map_map, List.map_map]
    rfl
  · rw [List.map_map]
    apply List.map_congr_left
    intro r hr
    have hturn := le_sum hturns hr
    have hwait := le_sum hwaits hr
    exact Prod.ext (cast_toUInt32 (hturns r hr) (by omega))
      (cast_toUInt32 (hwaits r hr) (by omega))
  · rw [List.map_map, ← sum_toUInt32 hturns hturnSum]
    rfl
  · rw [List.map_map, ← sum_toUInt32 hwaits hwaitSum]
    rfl

end Means

/-- In a reachable state with times that fit, `stats` returns exact statistics if and only if some
thread has called `sys_exit`, and fewer than 2^31 have: the last `++i` of 2^31 rounds overflows. -/
theorem stats_exact_iff (lib : QueueSort) (algorithm : Algorithm) (quantum : UInt32) (s : State)
    (h : Reachable (step lib) Admits (scheduler algorithm quantum) s) (hfit : TimesFit s) :
    (∃ st, stats s = .ok st ∧ st.Exact s) ↔
      0 < (exits s.trace).length ∧ (exits s.trace).length < 2 ^ 31 := by
  have hdone := reachable_doneInOrder lib algorithm quantum s h
  have hlen : s.doneQueue.length = (exits s.trace).length := by rw [← hdone, List.length_map]
  constructor
  · rintro ⟨st, hst, hexact⟩
    obtain ⟨hcount, hne, hlt⟩ := stats_threadCount hst
    have heq := hexact.threadCount_eq
    omega
  · rintro ⟨hpos, hlt⟩
    exact stats_exact hdone hfit (by omega) (by omega)

/-- Two threads that run for two ticks and for one. -/
theorem stats_exact_iff_twoThreads : ∃ s, Reachable (step insertionQueueSort) Admits
    (scheduler .firstComeFirstServed 0) s ∧ (exits s.trace).length = 2 ∧
    ∃ st, stats s = .ok st ∧ st.Exact s := by
  have hrun : (simulate insertionQueueSort (scheduler .firstComeFirstServed 0)
      [.sysExec ⟨1, 0⟩, .sysExec ⟨2, 0⟩, .tick, .tick, .sysExit ⟨1, 0⟩, .tick, .sysExit ⟨2, 0⟩]).map
      (fun s => (exits s.trace, s.doneQueue.map s.store)) =
      some ([⟨1, 0⟩, ⟨2, 0⟩], [⟨⟨1, 0⟩, 2, 0, 0, 0⟩, ⟨⟨2, 0⟩, 3, 2, 2, 0⟩]) := by
    decide +kernel
  obtain ⟨s, hs, hres⟩ := Option.map_eq_some_iff.mp hrun
  obtain ⟨hexits, hstore⟩ := Prod.mk.inj hres
  have hturn : s.doneQueue.map (fun r => (s.store r).runningTime) = [2, 3] := by
    simpa [Function.comp_def] using congrArg (List.map Times.runningTime) hstore
  have hwait : s.doneQueue.map (fun r => (s.store r).waitingTime) = [0, 2] := by
    simpa [Function.comp_def] using congrArg (List.map Times.waitingTime) hstore
  have hfit : TimesFit s := by
    constructor
    · intro r hr
      have hmem := List.mem_map_of_mem (f := fun r => (s.store r).runningTime) hr
      rw [hturn] at hmem
      simp at hmem
      omega
    · intro r hr
      have hmem := List.mem_map_of_mem (f := fun r => (s.store r).waitingTime) hr
      rw [hwait] at hmem
      simp at hmem
      omega
    · rw [hturn]
      decide
    · rw [hwait]
      decide
  have hreach := reachable_of_simulate hs
  refine ⟨s, hreach, by rw [hexits]; rfl, ?_⟩
  rw [stats_exact_iff insertionQueueSort .firstComeFirstServed 0 s hreach hfit, hexits]
  decide

/-- Before any thread has called `sys_exit` there is nothing to divide by. -/
theorem stats_dividesByZero : ∃ s, Reachable (step insertionQueueSort) Admits
    (scheduler .firstComeFirstServed 0) s ∧ TimesFit s ∧ stats s = .error .divisionByZero := by
  refine ⟨scheduler .firstComeFirstServed 0, .start, ?_, ?_⟩
  · constructor <;> simp [scheduler]
  · have hcount : toUInt32 (toInt32 (0 : Nat)) = 0 := threadCount_eq_mod 0
    simp only [stats, scheduler, List.length_nil, hcount, statsLoop]
    rfl

end CSE130.Scheduler
