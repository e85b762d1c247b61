import CSE130.Scheduler.Basic

/-!
# The simulator's side of a run

What the simulator knows is read off the events: which thread is on the CPU, which I/O requests are
outstanding and how often `tick` has been called. The callbacks are brought into the form of one
record update each.
-/

namespace CSE130.Scheduler

open Pager (toInt32)

/-! ## Reading the events -/

/-- The thread last passed to `sim_dispatch`, if it has not left the CPU since. -/
def onCpu : List Event → Option Thread
  | [] => none
  | .dispatch t _ :: _ => some t
  | .exit _ :: _ => none
  | .request _ :: _ => none
  | _ :: trace => onCpu trace

/-- The threads whose I/O requests are outstanding, the oldest first. -/
def outstanding : List Event → List Thread
  | [] => []
  | .request t :: trace => outstanding trace ++ [t]
  | .complete _ :: trace => (outstanding trace).tail
  | _ :: trace => outstanding trace

/-- The threads given to `sys_exec`, the oldest first. -/
def execs : List Event → List Thread
  | [] => []
  | .exec t :: trace => execs trace ++ [t]
  | _ :: trace => execs trace

/-- A callback is called only for the thread that the simulator sees in its place: `sys_exit`,
`sys_read` and `sys_write` for the one on the CPU, `io_starting` and `io_complete` for the oldest
outstanding request. -/
def Admits (s : State) : Callback → Prop
  | .sysExit t | .sysRead t | .sysWrite t => onCpu s.trace = some t
  | .ioComplete t | .ioStarting t => (outstanding s.trace).head? = some t
  | .sysExec _ | .tick => True

instance (s : State) (cb : Callback) : Decidable (Admits s cb) := by
  cases cb <;> unfold Admits <;> infer_instance

/-- The state after a sequence of callbacks, if the simulator makes each of them. -/
def simulate (lib : QueueSort) (s : State) (cbs : List Callback) : Option State :=
  Library.run (step lib) (fun s cb => decide (Admits s cb)) s cbs

theorem reachable_of_simulate {lib : QueueSort} {s s' : State} {cbs : List Callback}
    (h : simulate lib s cbs = some s') : Library.Reachable (step lib) Admits s s' :=
  Library.reachable_of_run (fun _ _ => of_decide_eq_true) .start h

/-! ## The operations as record updates -/

namespace State

variable (s : State) (r : Ref) (e : Event)

@[simp] theorem thread_note : (s.note e).thread = s.thread := rfl

theorem thread_modify {f : Times → Times} (h : (f (s.store r)).t = (s.store r).t) :
    (s.modify r f).thread = s.thread := by
  funext x
  by_cases hx : x = r
  · subst hx
    simp [thread, modify, h]
  · simp [thread, modify, Function.update_of_ne hx]

@[simp] theorem thread_stamp : (s.stamp r).thread = s.thread := s.thread_modify r rfl

@[simp] theorem thread_enqueueReady : (s.enqueueReady r).thread = s.thread := rfl

@[simp] theorem thread_simDispatch : (s.simDispatch r).thread = s.thread := rfl

/-- The record that is resumed, with the time that it has waited. -/
def resumed : Times :=
  { s.store r with
    waitingTime := toInt32 ((s.store r).waitingTime + (s.ticks - (s.store r).lastOn))
    lastOn := s.ticks }

@[simp] theorem thread_resume : (s.resume r).thread = s.thread := by
  unfold resume
  rw [thread_simDispatch, thread_stamp, thread_modify]
  · rfl
  · rfl

theorem resume_eq : s.resume r =
    { s with
      curT := some r
      store := Function.update s.store r (s.resumed r)
      trace := .dispatch (s.thread r) (s.readyQueue.map s.thread) :: s.trace } := by
  have hthread : (({ s with curT := some r }.modify r fun y =>
      { y with waitingTime := toInt32 (y.waitingTime + (s.ticks - y.lastOn)) }).stamp r).thread =
      s.thread := by
    rw [thread_stamp, thread_modify]
    · rfl
    · rfl
  simp only [resume, simDispatch, note, hthread]
  simp [stamp, modify, resumed]

@[simp] theorem resume_trace : (s.resume r).trace =
    .dispatch (s.thread r) (s.readyQueue.map s.thread) :: s.trace := by
  rw [resume_eq]

/-- The CPU passes from `c` to `r`; `rest` is what remains of the queue in front of `c`. -/
def switch (s : State) (c r : Ref) (rest : List Ref) : State :=
  (({ s with readyQueue := rest }.enqueueReady c).stamp c).resume r

variable (c : Ref) (rest : List Ref)

@[simp] theorem thread_switch : (s.switch c r rest).thread = s.thread := by
  rw [switch, thread_resume, thread_stamp, thread_enqueueReady]
  rfl

theorem switch_trace : (s.switch c r rest).trace =
    .dispatch (s.thread r) ((rest ++ [c]).map s.thread) :: .ready (s.thread c) :: s.trace := by
  rw [switch, resume_trace, thread_stamp]
  rfl

end State

section Alloc

variable (s : State) (t : Thread)

@[simp] theorem State.thread_alloc_fresh : (s.alloc t).thread s.fresh = t := by
  simp [State.thread, State.alloc]

theorem State.thread_alloc_of_ne {r : Ref} (h : r ≠ s.fresh) :
    (s.alloc t).thread r = s.thread r := by
  simp [State.thread, State.alloc, Function.update_of_ne h]

/-- The two ways of `sys_exec`. -/
theorem sysExec_cases :
    (s.readyQueue = [] ∧ s.curT = none ∧ s.alg ≠ .nonPreemptivePriority ∧
        s.alg ≠ .preemptivePriority ∧
        sysExec s t = { (s.note (.exec t)).alloc t with curT := some s.fresh }.simDispatch s.fresh) ∨
      (¬ (s.readyQueue = [] ∧ s.curT = none ∧ s.alg ≠ .nonPreemptivePriority ∧
        s.alg ≠ .preemptivePriority) ∧
        sysExec s t = ((s.note (.exec t)).alloc t).enqueueReady s.fresh) := by
  by_cases h : s.readyQueue = [] ∧ s.curT = none ∧ s.alg ≠ .nonPreemptivePriority ∧
      s.alg ≠ .preemptivePriority
  · exact .inl ⟨h.1, h.2.1, h.2.2.1, h.2.2.2, if_pos h⟩
  · exact .inr ⟨h, if_neg h⟩

end Alloc

@[simp] theorem deref_eq_ok {p : Option Ref} {r : Ref} : deref p = .ok r ↔ p = some r := by
  cases p <;> simp [deref]

/-! ## The callbacks that end a stay on the CPU or at the device -/

section Callbacks

variable {s s' : State} {t : Thread}

/-- The state after `sys_exit` with `c` in `cur_t`. -/
def exited (s : State) (t : Thread) (c : Ref) : State :=
  { (s.note (.exit t)).modify c fun x => { x with runningTime := toInt32 (s.ticks - x.begTime) } with
    doneQueue := s.doneQueue ++ [c]
    curT := none }

@[simp] theorem thread_exited (c : Ref) : (exited s t c).thread = s.thread :=
  @State.thread_modify (s.note (.exit t)) c
    (fun x => { x with runningTime := toInt32 (s.ticks - x.begTime) }) rfl

theorem sysExit_eq_ok : sysExit s t = .ok s' ↔ ∃ c, s.curT = some c ∧ s' = exited s t c := by
  simp only [sysExit, Library.bind_eq_ok, deref_eq_ok, Library.pure_eq_ok]
  constructor
  · rintro ⟨c, hc, rfl⟩
    exact ⟨c, hc, rfl⟩
  · rintro ⟨c, hc, rfl⟩
    exact ⟨c, hc, rfl⟩

/-- The state after `sys_read` or `sys_write` with `c` in `cur_t`. -/
def requested (s : State) (t : Thread) (c : Ref) : State :=
  if s.ioQueue = [] ∧ s.ioT = none then
    { (s.note (.request t)).stamp c with ioT := some c, curT := none }
  else { (s.note (.request t)).stamp c with ioQueue := s.ioQueue ++ [c], curT := none }

theorem requested_idle {c : Ref} (h : s.ioQueue = [] ∧ s.ioT = none) : requested s t c =
    { (s.note (.request t)).stamp c with ioT := some c, curT := none } :=
  if_pos h

theorem requested_busy {c : Ref} (h : ¬ (s.ioQueue = [] ∧ s.ioT = none)) : requested s t c =
    { (s.note (.request t)).stamp c with ioQueue := s.ioQueue ++ [c], curT := none } :=
  if_neg h

@[simp] theorem thread_requested (c : Ref) : (requested s t c).thread = s.thread := by
  unfold requested
  split_ifs
  · exact (s.note (.request t)).thread_stamp c
  · exact (s.note (.request t)).thread_stamp c

@[simp] theorem requested_curT (c : Ref) : (requested s t c).curT = none := by
  unfold requested
  split_ifs <;> rfl

@[simp] theorem requested_trace (c : Ref) : (requested s t c).trace = .request t :: s.trace := by
  unfold requested
  split_ifs <;> rfl

@[simp] theorem requested_readyQueue (c : Ref) :
    (requested s t c).readyQueue = s.readyQueue := by
  unfold requested
  split_ifs <;> rfl

@[simp] theorem requested_doneQueue (c : Ref) :
    (requested s t c).doneQueue = s.doneQueue := by
  unfold requested
  split_ifs <;> rfl

@[simp] theorem requested_alg (c : Ref) : (requested s t c).alg = s.alg := by
  unfold requested
  split_ifs <;> rfl

@[simp] theorem requested_quant (c : Ref) : (requested s t c).quant = s.quant := by
  unfold requested
  split_ifs <;> rfl

theorem sysRead_eq_ok : sysRead s t = .ok s' ↔ ∃ c, s.curT = some c ∧ s' = requested s t c := by
  have hbody : sysRead s t = deref s.curT >>= fun c => pure (requested s t c) := by
    unfold sysRead requested
    by_cases h : s.ioQueue = [] ∧ s.ioT = none
    · simp only [State.note, h, and_self, if_true]
      rfl
    · simp only [State.note, h, if_false]
  rw [hbody, Library.bind_eq_ok]
  simp only [deref_eq_ok, Library.pure_eq_ok, @eq_comm _ (requested _ _ _)]

/-- The order in which `sys_write` enqueues and stamps makes no difference. -/
theorem sysWrite_eq_sysRead : sysWrite s t = sysRead s t := rfl

/-- The state in which `io_complete` looks for an idle CPU, with `i` in `io_t`. -/
def completed (s : State) (t : Thread) (i : Ref) : State :=
  { ((s.note (.complete t)).stamp i).enqueueReady i with
    ioT := s.ioQueue.head?
    ioQueue := s.ioQueue.tail }

@[simp] theorem thread_completed (i : Ref) : (completed s t i).thread = s.thread :=
  (s.note (.complete t)).thread_stamp i

theorem completed_trace (i : Ref) :
    (completed s t i).trace = .ready (s.thread i) :: .complete t :: s.trace := by
  change Event.ready (((s.note (.complete t)).stamp i).thread i) :: _ = _
  rw [State.thread_stamp]
  rfl

theorem ioComplete_eq_ok : ioComplete s t = .ok s' ↔ ∃ i, s.ioT = some i ∧
    ((∃ c, s.curT = some c ∧ s' = completed s t i) ∨
      (s.curT = none ∧ ∃ r rest, s.readyQueue ++ [i] = r :: rest ∧
        s' = { completed s t i with readyQueue := rest }.resume r)) := by
  simp only [ioComplete, Library.bind_eq_ok, deref_eq_ok]
  refine exists_congr fun i => and_congr_right fun _ => ?_
  change (if s.curT = none then _ else _) = _ ↔ _
  cases hcur : s.curT with
  | some c =>
    change pure (completed s t i) = _ ↔ _
    rw [Library.pure_eq_ok]
    simp [eq_comm]
  | none =>
    rw [if_pos rfl]
    split
    case h_1 hnil =>
      exact absurd hnil (List.append_ne_nil_of_right_ne_nil s.readyQueue (List.cons_ne_nil i []))
    case h_2 r rest hcons =>
      have hqueue : s.readyQueue ++ [i] = r :: rest := hcons
      change pure ({ completed s t i with readyQueue := rest }.resume r) = _ ↔ _
      rw [Library.pure_eq_ok, hqueue]
      simp [eq_comm]

/-- The record of a request that starts. -/
def served (s : State) (x : Times) : Times :=
  { x with
    waitingTime := toInt32 (x.waitingTime + (s.ticks - 1 - x.lastOn))
    lastOn := s.ticks }

@[simp] theorem thread_served (i : Ref) :
    ((s.note (.starting t)).modify i (served s)).thread = s.thread :=
  (s.note (.starting t)).thread_modify i rfl

theorem ioStarting_eq_ok : ioStarting s t = .ok s' ↔ ∃ i, s.ioT = some i ∧
    s' = (s.note (.starting t)).modify i (served s) := by
  simp only [ioStarting, Library.bind_eq_ok, deref_eq_ok, Library.pure_eq_ok]
  refine exists_congr fun i => and_congr_right fun _ => ?_
  rw [eq_comm]
  simp [State.modify, State.stamp, State.note, served, toInt32]

end Callbacks

/-! ## The moves of `tick` -/

/-- The state as `tick` leaves it after sorting. -/
def tickSort (lib : QueueSort) (s : State) : State :=
  if s.alg = .preemptivePriority ∨ (s.alg = .nonPreemptivePriority ∧ s.curT = none) then
    sortReady lib s
  else s

/-- What `tick` does between sorting and counting. -/
inductive TickMove (s : State) : State → Prop
  | idle : s.curT = none → s.readyQueue = [] → TickMove s s
  | start (r : Ref) (rest : List Ref) :
      s.curT = none → s.readyQueue = r :: rest →
        TickMove s ({ s with readyQueue := rest, lastOnTotal := 0 }.resume r)
  | keep (c : Ref) :
      s.curT = some c → (s.alg = .roundRobin → s.quant ≤ s.lastOnTotal → s.readyQueue = []) →
      (s.alg = .preemptivePriority →
        ∀ r ∈ s.readyQueue.head?, ¬ (s.thread r).priority < (s.thread c).priority) → TickMove s s
  | rotate (c r : Ref) (rest : List Ref) :
      s.curT = some c → s.readyQueue = r :: rest → s.alg = .roundRobin →
      s.quant ≤ s.lastOnTotal → TickMove s { s.switch c r rest with lastOnTotal := 0 }
  | preempt (c r : Ref) (rest : List Ref) :
      s.curT = some c → s.readyQueue = r :: rest → s.alg = .preemptivePriority →
      (s.thread r).priority < (s.thread c).priority → TickMove s (s.switch c r rest)

theorem switch_eq_rotate (s : State) (c r : Ref) (rest : List Ref) :
    { (s.stamp c).enqueueReady c with readyQueue := rest ++ [c] }.resume r = s.switch c r rest := by
  have hcomm : { (s.stamp c).enqueueReady c with readyQueue := rest ++ [c] } =
      ({ s with readyQueue := rest }.enqueueReady c).stamp c := by
    simp only [State.enqueueReady, State.thread_stamp]
    rfl
  rw [State.switch, hcomm]

theorem tickMove_rotate {s : State} {c : Ref} (hcur : s.curT = some c)
    (hpre : s.alg ≠ .preemptivePriority) : TickMove s (tickRotate s c) := by
  unfold tickRotate
  split_ifs with hcond
  · obtain ⟨halg, hquant, hne⟩ := hcond
    obtain ⟨r, rest, hr⟩ := List.exists_cons_of_ne_nil hne
    have hqueue : ((s.stamp c).enqueueReady c).readyQueue = r :: (rest ++ [c]) := by
      change s.readyQueue ++ [c] = _
      rw [hr]
      rfl
    simp only [hqueue]
    rw [switch_eq_rotate]
    exact .rotate c r rest hcur hr halg hquant
  · refine .keep c hcur ?_ fun h => absurd h hpre
    intro halg hquant
    by_contra hne
    exact hcond ⟨halg, hquant, hne⟩

theorem tickMove_preemptByHead {s : State} {c : Ref} (hcur : s.curT = some c)
    (halg : s.alg = .preemptivePriority) : TickMove s (preemptByHead s) := by
  have hround : s.alg ≠ .roundRobin := by simp [halg]
  unfold preemptByHead
  rw [hcur]
  cases hq : s.readyQueue with
  | nil =>
    apply TickMove.keep c hcur
    · exact fun h => absurd h hround
    · simp [hq]
  | cons h rest =>
    simp only
    split_ifs with hlt
    · exact .preempt c h rest hcur hq halg hlt
    · apply TickMove.keep c hcur
      · exact fun h => absurd h hround
      · simpa [hq] using fun _ => hlt

theorem tickMove_dequeueIdle {s : State} (hcur : s.curT = none) : TickMove s (dequeueIdle s) := by
  unfold dequeueIdle
  cases hq : s.readyQueue with
  | nil => exact .idle hcur hq
  | cons r rest => exact .start r rest hcur hq

theorem preemptByHead_idle {s : State} (hcur : s.curT = none) : preemptByHead s = s := by
  simp [preemptByHead, hcur]

theorem preemptByHead_busy {s : State} {c : Ref} (hcur : s.curT = some c) :
    ∃ c', (preemptByHead s).curT = some c' ∧ (preemptByHead s).alg = s.alg := by
  unfold preemptByHead
  rw [hcur]
  cases s.readyQueue with
  | nil => exact ⟨c, hcur, rfl⟩
  | cons h rest =>
    simp only
    split_ifs
    · exact ⟨h, rfl, rfl⟩
    · exact ⟨c, hcur, rfl⟩

theorem tickRotate_of_ne {s : State} (c : Ref) (halg : s.alg ≠ .roundRobin) :
    tickRotate s c = s := by
  simp [tickRotate, halg]

/-- `tick` sorts, makes one move and counts. -/
theorem tick_move (lib : QueueSort) (s : State) : ∃ u, TickMove (tickSort lib s) u ∧
    tick lib s = (tickCount u).note (.ticked (s.readyQueue.map s.thread)) := by
  refine ⟨_, ?_, rfl⟩
  have hsorted : (sortReady lib s).curT = s.curT := rfl
  cases hcur : s.curT with
  | none =>
    rw [hcur] at hsorted
    by_cases hpre : s.alg = .preemptivePriority
    · have hsort : tickSort lib s = sortReady lib s := by simp [tickSort, hpre]
      have hprio : prioritySort lib s = sortReady lib s := by
        rw [prioritySort, preemptByHead_idle hsorted, ite_self]
      have halg : (sortReady lib s).alg ≠ .nonPreemptivePriority := by
        simp [sortReady, hpre]
      simp only [if_pos hpre, hprio, hsorted, if_neg halg, hsort]
      exact tickMove_dequeueIdle hsorted
    · simp only [if_neg hpre, hcur]
      by_cases hnon : s.alg = .nonPreemptivePriority
      · have hsort : tickSort lib s = sortReady lib s := by simp [tickSort, hnon, hcur]
        have hprio : prioritySort lib s = sortReady lib s := by
          rw [prioritySort, preemptByHead_idle hsorted, ite_self]
        simp only [if_pos hnon, hprio, hsort]
        exact tickMove_dequeueIdle hsorted
      · have hsort : tickSort lib s = s := by simp [tickSort, hnon, hpre]
        simp only [if_neg hnon, hsort]
        exact tickMove_dequeueIdle hcur
  | some c =>
    rw [hcur] at hsorted
    by_cases hpre : s.alg = .preemptivePriority
    · have hsort : tickSort lib s = sortReady lib s := by simp [tickSort, hpre]
      have halg : (sortReady lib s).alg = .preemptivePriority := hpre
      have hprio : prioritySort lib s = preemptByHead (sortReady lib s) := by
        rw [prioritySort, if_pos halg]
      obtain ⟨c', hcur', halg'⟩ := preemptByHead_busy hsorted
      have hround : (preemptByHead (sortReady lib s)).alg ≠ .roundRobin := by
        simp [halg', halg]
      simp only [if_pos hpre, hprio, hcur', tickRotate_of_ne c' hround, hsort]
      exact tickMove_preemptByHead hsorted halg
    · have hsort : tickSort lib s = s := by simp [tickSort, hpre, hcur]
      simp only [if_neg hpre, hcur, hsort]
      exact tickMove_rotate hcur hpre

/-- Counting changes the two counters only. -/
theorem tickCount_eq (s : State) : ∃ total, tickCount s =
    { s with lastOnTotal := total, ticks := toInt32 (s.ticks + 1) } := by
  unfold tickCount
  split_ifs
  · exact ⟨_, rfl⟩
  · exact ⟨_, rfl⟩
  · exact ⟨s.lastOnTotal, rfl⟩

theorem tickCount_busy {s : State} (h : s.curT ≠ none) : tickCount s =
    { s with lastOnTotal := toInt32 (s.lastOnTotal + 1), ticks := toInt32 (s.ticks + 1) } := by
  unfold tickCount
  rw [if_pos h]

/-! ## What no callback changes -/

section Frame

variable {lib : QueueSort} {s s' u : State}

@[simp] theorem thread_tickSort (lib : QueueSort) (s : State) :
    (tickSort lib s).thread = s.thread := by
  unfold tickSort
  split_ifs <;> rfl

@[simp] theorem tickSort_alg (lib : QueueSort) (s : State) : (tickSort lib s).alg = s.alg := by
  unfold tickSort
  split_ifs <;> rfl

theorem TickMove.thread_eq (h : TickMove s u) : u.thread = s.thread := by
  cases h with
  | idle => rfl
  | start r rest => exact State.thread_resume _ r
  | keep => rfl
  | rotate c r rest => exact s.thread_switch r c rest
  | preempt c r rest => exact s.thread_switch r c rest

theorem TickMove.alg_eq (h : TickMove s u) : u.alg = s.alg := by
  cases h <;> rfl

@[simp] theorem thread_tick (lib : QueueSort) (s : State) : (tick lib s).thread = s.thread := by
  obtain ⟨u, hmove, heq⟩ := tick_move lib s
  obtain ⟨total, hcount⟩ := tickCount_eq u
  rw [heq, hcount]
  exact hmove.thread_eq.trans (thread_tickSort lib s)

@[simp] theorem tick_alg (lib : QueueSort) (s : State) : (tick lib s).alg = s.alg := by
  obtain ⟨u, hmove, heq⟩ := tick_move lib s
  obtain ⟨total, hcount⟩ := tickCount_eq u
  rw [heq, hcount]
  exact hmove.alg_eq.trans (tickSort_alg lib s)

theorem sysExec_alg (s : State) (t : Thread) : (sysExec s t).alg = s.alg := by
  rcases sysExec_cases s t with ⟨-, -, -, -, heq⟩ | ⟨-, heq⟩ <;> rw [heq] <;> rfl

theorem step_alg {cb : Callback} (h : step lib s cb = .ok s') : s'.alg = s.alg := by
  cases cb with
  | sysExec t =>
    cases h
    exact sysExec_alg s t
  | tick =>
    cases h
    exact tick_alg lib s
  | sysExit t =>
    obtain ⟨c, -, rfl⟩ := sysExit_eq_ok.mp h
    rfl
  | sysRead t =>
    obtain ⟨c, -, rfl⟩ := sysRead_eq_ok.mp h
    exact requested_alg c
  | sysWrite t =>
    obtain ⟨c, -, rfl⟩ := sysRead_eq_ok.mp h
    exact requested_alg c
  | ioComplete t =>
    obtain ⟨i, -, ⟨c, -, rfl⟩ | ⟨-, r, rest, -, rfl⟩⟩ := ioComplete_eq_ok.mp h
    · rfl
    · rfl
  | ioStarting t =>
    obtain ⟨i, -, rfl⟩ := ioStarting_eq_ok.mp h
    rfl

/-- No callback but `sys_exec` changes which thread a record wraps. -/
theorem step_thread {cb : Callback} (hcb : ∀ t, cb ≠ .sysExec t) (h : step lib s cb = .ok s') :
    s'.thread = s.thread := by
  cases cb with
  | sysExec t => exact absurd rfl (hcb t)
  | tick =>
    cases h
    exact thread_tick lib s
  | sysExit t =>
    obtain ⟨c, -, rfl⟩ := sysExit_eq_ok.mp h
    exact thread_exited c
  | sysRead t =>
    obtain ⟨c, -, rfl⟩ := sysRead_eq_ok.mp h
    exact thread_requested c
  | sysWrite t =>
    obtain ⟨c, -, rfl⟩ := sysRead_eq_ok.mp h
    exact thread_requested c
  | ioComplete t =>
    obtain ⟨i, -, ⟨c, -, rfl⟩ | ⟨-, r, rest, -, rfl⟩⟩ := ioComplete_eq_ok.mp h
    · exact thread_completed i
    · exact (State.thread_resume _ r).trans (thread_completed i)
  | ioStarting t =>
    obtain ⟨i, -, rfl⟩ := ioStarting_eq_ok.mp h
    exact thread_served i

end Frame

end CSE130.Scheduler
