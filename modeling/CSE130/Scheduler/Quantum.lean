import CSE130.Scheduler.Custody

/-!
# The quantum of round robin

One counter, `last_on_total`, measures the slice of the thread on the CPU. `tick` restarts it when
it dispatches a thread; `sys_exec` and `io_complete` dispatch without restarting it. As long as they
find it at zero, a thread loses the CPU after its quantum, or at the first later tick at which
another thread is ready.
-/

namespace CSE130.Scheduler

open Pager (toInt32)
open Library (Reachable)

/-- The calls of `tick` since the last dispatch, each by the threads that were ready when it was
made, the oldest first. -/
def slice : List Event → List (List Thread)
  | [] => []
  | .dispatch _ _ :: _ => []
  | .ticked ready :: trace => slice trace ++ [ready]
  | _ :: trace => slice trace

/-- A slice is over: it has `quantum` ticks, and no other thread was ready at those that follow. -/
def Expired (quantum : Nat) (ticks : List (List Thread)) : Prop :=
  quantum ≤ ticks.length ∧ ∀ ready ∈ ticks.drop quantum, ready = []

/-- Wherever a thread is dispatched while another is on the CPU, the slice of that one is over. -/
def QuantumLaw (quantum : Nat) (trace : List Event) : Prop :=
  ∀ newer t ready older c, trace = newer ++ .dispatch t ready :: older → onCpu older = some c →
    Expired quantum (slice older)

/-- The dispatches of `sys_exec` and of `io_complete` find the counter at zero, and a `tick` that goes
on counting for the thread on the CPU does not overflow it. -/
def Restarted (s : State) : Callback → Prop
  | .sysExec _ => s.readyQueue = [] → s.curT = none → s.lastOnTotal = 0
  | .ioComplete _ => s.curT = none → s.lastOnTotal = 0
  | .tick => s.curT ≠ none → (s.readyQueue = [] ∨ s.lastOnTotal < s.quant) →
    s.lastOnTotal < 2 ^ 31 - 1
  | _ => True

instance (s : State) (cb : Callback) : Decidable (Restarted s cb) :=
  match cb with
  | .sysExec _ =>
    inferInstanceAs (Decidable (s.readyQueue = [] → s.curT = none → s.lastOnTotal = 0))
  | .ioComplete _ => inferInstanceAs (Decidable (s.curT = none → s.lastOnTotal = 0))
  | .tick => inferInstanceAs (Decidable (s.curT ≠ none →
      (s.readyQueue = [] ∨ s.lastOnTotal < s.quant) → s.lastOnTotal < 2 ^ 31 - 1))
  | .ioStarting _ | .sysExit _ | .sysRead _ | .sysWrite _ => inferInstanceAs (Decidable True)

section Law

variable {quantum : Nat} {trace : List Event} {e : Event}

theorem QuantumLaw.cons (h : QuantumLaw quantum trace)
    (hdispatch : ∀ t ready c, e = .dispatch t ready → onCpu trace = some c →
      Expired quantum (slice trace)) : QuantumLaw quantum (e :: trace) := by
  intro newer t ready older c heq hcpu
  cases newer with
  | nil =>
    rw [List.nil_append, List.cons.injEq] at heq
    obtain ⟨rfl, rfl⟩ := heq
    exact hdispatch t ready c rfl hcpu
  | cons e' newer =>
    rw [List.cons_append, List.cons.injEq] at heq
    exact h newer t ready older c heq.2 hcpu

/-- Other events than dispatches keep the law. -/
theorem QuantumLaw.note (h : QuantumLaw quantum trace) (he : ∀ t ready, e ≠ .dispatch t ready) :
    QuantumLaw quantum (e :: trace) := by
  apply h.cons
  intro t ready c heq
  exact absurd heq (he t ready)

/-- A dispatch on an idle CPU keeps the law. -/
theorem QuantumLaw.dispatch (h : QuantumLaw quantum trace) (hcpu : onCpu trace = none)
    (t : Thread) (ready : List Thread) : QuantumLaw quantum (.dispatch t ready :: trace) := by
  apply h.cons
  intro t' ready' c _ hc
  rw [hcpu] at hc
  cases hc

end Law

/-- The invariant: the law holds so far, and the counter has the length of the slice of the thread
on the CPU, during which `tick` has passed over no ready thread once the quantum was used up. -/
structure Sliced (quantum : Nat) (s : State) : Prop where
  custody : Custody s
  alg_eq : s.alg = .roundRobin
  quant_eq : s.quant = quantum
  law : QuantumLaw quantum s.trace
  total_eq : s.curT ≠ none → s.lastOnTotal = (slice s.trace).length
  passed : s.curT ≠ none → ∀ ready ∈ (slice s.trace).drop quantum, ready = []

section Steps

variable {lib : QueueSort} {quantum : Nat} {s s' u : State}

theorem Sliced.cpu_none (h : Sliced quantum s) (hc : s.curT = none) : onCpu s.trace = none := by
  rw [← h.custody.cpu, hc]
  rfl

theorem sliced_exec (t : Thread) (h : Sliced quantum s) (hr : Restarted s (.sysExec t)) :
    Sliced quantum (sysExec s t) := by
  have hlaw : QuantumLaw quantum (.exec t :: s.trace) := h.law.note (by simp)
  have hcustody := custody_sysExec t h.custody
  rcases sysExec_cases s t with ⟨hready, hcur, -, -, heq⟩ | ⟨-, heq⟩
  · rw [heq] at hcustody ⊢
    refine ⟨hcustody, h.alg_eq, h.quant_eq, ?_, ?_, ?_⟩
    · exact hlaw.dispatch (h.cpu_none hcur) _ _
    · exact fun _ => hr hready hcur
    · simp [State.simDispatch, State.note, slice]
  · rw [heq] at hcustody ⊢
    refine ⟨hcustody, h.alg_eq, h.quant_eq, ?_, h.total_eq, h.passed⟩
    exact hlaw.note (by simp)

/-- What a move of `tick` leaves for the count. -/
theorem sliced_move (hq : 1 ≤ quantum) (h : Sliced quantum s) (hr : Restarted s .tick)
    (hmove : TickMove s u) :
    QuantumLaw quantum u.trace ∧ u.alg = s.alg ∧ u.quant = s.quant ∧
      (u.curT ≠ none →
        u.lastOnTotal = (slice u.trace).length ∧ u.lastOnTotal < 2 ^ 31 - 1 ∧
        ∀ ready ∈ (slice u.trace ++ [s.readyQueue.map s.thread]).drop quantum, ready = []) := by
  have hzero : (0 : Int) < 2 ^ 31 - 1 := by decide
  have hfirst : ∀ ready : List Thread, ([ready] : List (List Thread)).drop quantum = [] := by
    intro ready
    apply List.drop_eq_nil_of_le
    exact hq
  cases hmove with
  | idle hc => exact ⟨h.law, rfl, rfl, fun hne => absurd hc hne⟩
  | start r rest hc =>
    rw [State.resume_trace]
    refine ⟨h.law.dispatch (h.cpu_none hc) _ _, rfl, rfl, fun _ => ⟨rfl, hzero, ?_⟩⟩
    simp [slice, hfirst]
  | keep c hc hrotate =>
    have hne : s.curT ≠ none := by simp [hc]
    have hcounts : s.readyQueue = [] ∨ s.lastOnTotal < s.quant := by
      by_cases hless : s.lastOnTotal < s.quant
      · exact Or.inr hless
      · exact Or.inl (hrotate h.alg_eq (Int.not_lt.mp hless))
    refine ⟨h.law, rfl, rfl, fun _ => ⟨h.total_eq hne, hr hne hcounts, ?_⟩⟩
    intro ready hmem
    rw [List.drop_append, List.mem_append] at hmem
    rcases hmem with hmem | hmem
    · exact h.passed hne ready hmem
    · -- The tick itself counts against the law only if the quantum is used up.
      have hlast := List.mem_of_mem_drop hmem
      rw [List.mem_singleton] at hlast
      have hused : quantum ≤ (slice s.trace).length := by
        by_contra hlt
        rw [List.drop_eq_nil_of_le] at hmem
        · cases hmem
        · rw [List.length_singleton]
          omega
      have hempty := hrotate h.alg_eq (by rw [h.quant_eq, h.total_eq hne]; exact_mod_cast hused)
      rw [hlast, hempty]
      rfl
  | rotate c r rest hc hready halg hquant =>
    have hne : s.curT ≠ none := by simp [hc]
    change QuantumLaw quantum (s.switch c r rest).trace ∧ _ ∧ _ ∧ (_ →
      _ = ((slice (s.switch c r rest).trace).length : Int) ∧ _ ∧
      ∀ ready ∈ (slice (s.switch c r rest).trace ++ _).drop quantum, ready = [])
    rw [State.switch_trace]
    refine ⟨?_, rfl, rfl, fun _ => ⟨rfl, hzero, ?_⟩⟩
    · apply (h.law.note (by simp)).cons
      intro _ _ _ _ _
      refine ⟨?_, h.passed hne⟩
      rw [h.quant_eq, h.total_eq hne] at hquant
      exact_mod_cast hquant
    · simp [slice, hfirst]
  | preempt c r rest hc hready halg => simp [h.alg_eq] at halg

theorem sliced_tick (lib : QueueSort) (hq : 1 ≤ quantum) (h : Sliced quantum s)
    (hr : Restarted s .tick) : Sliced quantum (tick lib s) := by
  have hcustody := custody_tick lib h.custody
  have hsort : tickSort lib s = s := by simp [tickSort, h.alg_eq]
  obtain ⟨u, hmove, heq⟩ := tick_move lib s
  rw [hsort] at hmove
  obtain ⟨hlaw, halg, hquant, hbusy⟩ := sliced_move hq h hr hmove
  rw [heq] at hcustody ⊢
  by_cases hc : u.curT = none
  · obtain ⟨total, hcount⟩ := tickCount_eq u
    rw [hcount] at hcustody ⊢
    refine ⟨hcustody, halg.trans h.alg_eq, hquant.trans h.quant_eq, hlaw.note (by simp), ?_, ?_⟩
    · exact fun hne => absurd hc hne
    · exact fun hne => absurd hc hne
  · obtain ⟨htotal, hlt, hpassed⟩ := hbusy hc
    rw [tickCount_busy hc] at hcustody ⊢
    refine ⟨hcustody, halg.trans h.alg_eq, hquant.trans h.quant_eq, hlaw.note (by simp), ?_, ?_⟩
    · intro _
      change toInt32 (u.lastOnTotal + 1) = ((slice u.trace ++ [_]).length : Int)
      rw [List.length_append, List.length_singleton, Pager.toInt32_of_lt] <;> push_cast <;> omega
    · exact fun _ => hpassed

/-- A callback that takes the thread off the CPU keeps the invariant. -/
theorem Sliced.leave (h : Sliced quantum s) (hcustody : Custody u) (halg : u.alg = s.alg)
    (hquant : u.quant = s.quant) {e : Event} (htrace : u.trace = e :: s.trace)
    (he : ∀ t ready, e ≠ .dispatch t ready) (hc : u.curT = none) : Sliced quantum u := by
  refine ⟨hcustody, halg.trans h.alg_eq, hquant.trans h.quant_eq, ?_, ?_, ?_⟩
  · rw [htrace]
    exact h.law.note he
  · exact fun hne => absurd hc hne
  · exact fun hne => absurd hc hne

/-- The step lemma. -/
theorem Sliced.step {cb : Callback} (hq : 1 ≤ quantum) (h : Sliced quantum s)
    (hr : Restarted s cb) (hs : step lib s cb = .ok s') : Sliced quantum s' := by
  have hcustody := h.custody.step hs
  cases cb with
  | sysExec t =>
    cases hs
    exact sliced_exec t h hr
  | tick =>
    cases hs
    exact sliced_tick lib hq h hr
  | sysExit t =>
    obtain ⟨c, -, rfl⟩ := sysExit_eq_ok.mp hs
    exact @Sliced.leave _ _ _ h hcustody rfl rfl (.exit t) rfl (by simp) rfl
  | sysRead t =>
    obtain ⟨c, -, rfl⟩ := sysRead_eq_ok.mp hs
    exact h.leave hcustody (by simp) (by simp) (requested_trace c) (by simp) (requested_curT c)
  | sysWrite t =>
    obtain ⟨c, -, rfl⟩ := sysRead_eq_ok.mp hs
    exact h.leave hcustody (by simp) (by simp) (requested_trace c) (by simp) (requested_curT c)
  | ioComplete t =>
    obtain ⟨i, hi, hcases⟩ := ioComplete_eq_ok.mp hs
    have hdone : Sliced quantum (completed s t i) := by
      have htrace := @completed_trace s t i
      refine ⟨custody_completed h.custody hi, h.alg_eq, h.quant_eq, ?_, ?_, ?_⟩
      · rw [htrace]
        exact (h.law.note (by simp)).note (by simp)
      · rw [htrace]
        exact h.total_eq
      · rw [htrace]
        exact h.passed
    rcases hcases with ⟨c, -, rfl⟩ | ⟨hc, r, rest, -, rfl⟩
    · exact hdone
    · refine ⟨hcustody, h.alg_eq, h.quant_eq, ?_, ?_, ?_⟩
      · rw [State.resume_trace]
        exact hdone.law.dispatch (hdone.cpu_none hc) _ _
      · intro _
        rw [State.resume_trace]
        exact hr hc
      · rw [State.resume_trace]
        simp [slice]
  | ioStarting t =>
    obtain ⟨i, -, rfl⟩ := ioStarting_eq_ok.mp hs
    exact ⟨hcustody, h.alg_eq, h.quant_eq, h.law.note (by simp), h.total_eq, h.passed⟩

end Steps

/-! ## Runs -/

/-- In every run under round robin in which the dispatches of `sys_exec` and `io_complete` find the
counter at zero, a thread that loses the CPU has had its quantum since its own dispatch, and loses it
at the first tick from then on at which another thread is ready. -/
theorem roundRobin_quantum (lib : QueueSort) (quantum : UInt32) (hq : 1 ≤ quantum.toNat)
    (hlt : quantum.toNat < 2 ^ 31) (s : State)
    (h : Reachable (step lib) Restarted (scheduler .roundRobin quantum) s) :
    QuantumLaw quantum.toNat s.trace := by
  have hstart : Sliced quantum.toNat (scheduler .roundRobin quantum) := by
    refine ⟨(scheduler_inStep _ _).toCustody, rfl, ?_, ?_, ?_, ?_⟩
    · unfold scheduler
      rw [Pager.toInt32_of_lt] <;> omega
    · intro newer t ready older c heq
      simp [scheduler] at heq
    · simp [scheduler]
    · simp [scheduler]
  refine (Reachable.invariant hstart ?_ s h).law
  intro s cb s' _ hs hadm hstep
  exact hs.step hq hadm hstep

/-- The third tick rotates two threads under a quantum of two. -/
theorem roundRobin_quantum_rotation : ∃ s, Reachable (step insertionQueueSort) Restarted
    (scheduler .roundRobin 2) s ∧ onCpu s.trace = some ⟨2, 0⟩ ∧ QuantumLaw 2 s.trace := by
  have hrun : (Library.run (step insertionQueueSort) (fun s cb => decide (Restarted s cb))
      (scheduler .roundRobin 2)
      [.sysExec ⟨1, 0⟩, .sysExec ⟨2, 0⟩, .tick, .tick, .tick]).map (fun s => onCpu s.trace) =
      some (some ⟨2, 0⟩) := by
    decide +kernel
  obtain ⟨s, hs, hcpu⟩ := Option.map_eq_some_iff.mp hrun
  have hreach : Reachable (step insertionQueueSort) Restarted (scheduler .roundRobin 2) s :=
    Library.reachable_of_run (fun _ _ => of_decide_eq_true) .start hs
  exact ⟨s, hreach, hcpu,
    roundRobin_quantum insertionQueueSort 2 (by decide) (by decide) s hreach⟩

/-- Under a quantum of four, thread 2 arrives when thread 1 has left after three ticks, and loses the
CPU after one tick. -/
theorem sysExec_keeps_the_count : ∃ s, Reachable (step insertionQueueSort) Admits
    (scheduler .roundRobin 4) s ∧ ¬ QuantumLaw 4 s.trace := by
  have hrun : (simulate insertionQueueSort (scheduler .roundRobin 4)
      [.sysExec ⟨1, 0⟩, .tick, .tick, .tick, .sysExit ⟨1, 0⟩, .sysExec ⟨2, 0⟩, .sysExec ⟨3, 0⟩,
        .tick, .tick]).map State.trace =
      some ([Event.ticked [⟨3, 0⟩]] ++ Event.dispatch ⟨3, 0⟩ [⟨2, 0⟩] ::
        [Event.ready ⟨2, 0⟩, Event.ticked [⟨3, 0⟩], Event.ready ⟨3, 0⟩, Event.exec ⟨3, 0⟩,
          Event.dispatch ⟨2, 0⟩ [], Event.exec ⟨2, 0⟩, Event.exit ⟨1, 0⟩, Event.ticked [],
          Event.ticked [], Event.ticked [], Event.dispatch ⟨1, 0⟩ [], Event.exec ⟨1, 0⟩]) := by
    decide +kernel
  obtain ⟨s, hs, htrace⟩ := Option.map_eq_some_iff.mp hrun
  refine ⟨s, reachable_of_simulate hs, fun hlaw => ?_⟩
  have hexpired := hlaw _ _ _ _ _ htrace rfl
  revert hexpired
  unfold Expired
  decide

end CSE130.Scheduler
