import CSE130.Pintos.CondWake
import CSE130.Pintos.ThreadStart
import CSE130.Pintos.TimerTick

/-!
# The assertions of programs with condition variables

`condvar_wait` of Lab 2 looks at the front of the semaphore of each earlier waiter. A thread puts its
own semaphore on the list before it releases the lock, and waits on it only after that, so that in
between `list_front` finds nothing. As long as no semaphore of a thread in between is looked at, no
assertion of the kernel fails.
-/

namespace CSE130.Pintos

open CSE130.Library

/-- A call that creates a thread has a legal priority, and the threads leave it to the kernel to make
threads ready. -/
def Op.monitors : Op → Bool
  | .threadCreate _ priority => priMin ≤ priority ∧ priority ≤ priMax
  | .threadUnblock _ => false
  | _ => true

/-- The same for an action. -/
def Action.monitors : Action → Bool
  | .threadCreate _ priority _ => priMin ≤ priority ∧ priority ≤ priMax
  | .threadUnblock _ => false
  | _ => true

theorem Conts.monitors {a : Action} {pushed : List Action} (h : Conts a pushed) :
    ∀ b ∈ pushed, b.monitors = true := by
  cases h <;> simp [Action.monitors, Kernel.lockAcquire, Kernel.lockRelease, Kernel.condvarSignal]

theorem body_monitors {lab : Lab} {t : Tid} {op : Op} (hop : op.monitors = true) :
    ∀ b ∈ op.body lab t, b.monitors = true := by
  intro b hb
  cases begins_of_mem hb <;> first | exact hop | rfl

/-- The wait of a thread on its private semaphore for `c`. -/
def Action.waitsPrivately (c : CondId) : Action → Bool
  | .semaphoreDown (.waiter _ c') | .semaphoreRetest (.waiter _ c') _ => c' = c
  | _ => false

theorem waiting_of_queued {a : Action} {c : CondId} {after : WaitPhase}
    (h : a.waiting c = some (.queued, after)) :
    ∃ u, a = .semaphoreDown (.waiter u c) ∨ ∃ old, a = .semaphoreRetest (.waiter u c) old := by
  cases a
  case semaphoreDown s =>
    cases s <;> simp only [Action.waiting, reduceCtorEq, Option.ite_none_right_eq_some] at h
    case waiter u c' => exact ⟨u, .inl (by rw [h.1])⟩
  case semaphoreRetest s old =>
    cases s <;> simp only [Action.waiting, reduceCtorEq, Option.ite_none_right_eq_some] at h
    case waiter u c' => exact ⟨u, .inr ⟨old, by rw [h.1]⟩⟩
  case semaphoreInit s value =>
    cases s <;> simp [Action.waiting] at h
  all_goals simp [Action.waiting] at h

/-- A thread has only one such wait to execute. -/
def Action.WaitsOnce (a b : Action) : Prop :=
  ∀ c, a.waitsPrivately c = true → b.waitsPrivately c = false

theorem Conts.waitsPrivately {a : Action} {pushed : List Action} (h : Conts a pushed) (c : CondId) :
    ∀ x ∈ pushed, x.waitsPrivately c = true → a.waitsPrivately c = true := by
  cases h <;>
    simp [Action.waitsPrivately, Kernel.lockAcquire, Kernel.lockRelease, Kernel.condvarSignal]
  case down s old => cases s <;> exact id

namespace Kernel

variable {k k' : Kernel} {lab : Lab} {a : Action} {rest : List Action} {t w : Tid} {e : Event}
  {init : Nat → Nat} {s : SemaId} {c : CondId} {l : LockId}

theorem step_monitors (h : k.sched.Inv) (he : k.Enabled e)
    (hop : ∀ op, e = .call op → op.monitors = true) (hk : k.step lab e = .ok k')
    (hP : ∀ t, ∀ a ∈ k.stack t, a.monitors = true) : ∀ t, ∀ a ∈ k'.stack t, a.monitors = true := by
  refine @step_stack_rule k k' lab (fun _ st => ∀ a ∈ st, a.monitors = true) (by simp) ?_ ?_ ?_ e
    (fun t op heq => body_monitors (hop op heq)) h he hk hP
  · intro t _ function _
    cases function <;> simp [Sched.startStack, Action.monitors]
  · intro t a st ha hst b hb
    rcases List.mem_cons.mp hb with rfl | hb
    · cases b <;> first | rfl | cases ha
    · exact hst b hb
  · intro t a pushed rest hst hconts b hb
    rcases List.mem_append.mp hb with hb | hb
    · exact hconts.monitors b hb
    · exact hst b (List.mem_cons_of_mem a hb)

theorem step_waitsOnce (h : k.sched.Inv) (he : k.Enabled e) (hk : k.step lab e = .ok k')
    (hP : ∀ t, (k.stack t).Pairwise Action.WaitsOnce) :
    ∀ t, (k'.stack t).Pairwise Action.WaitsOnce := by
  refine step_pairwise ?_ ?_ ?_ ?_ h he hk hP
  · intro a b ha c hc
    cases a <;> first | (cases ha; done) | cases hc
  · intro function
    cases function <;> simp [Sched.startStack, Action.WaitsOnce, Action.waitsPrivately]
  · intro a pushed hconts
    refine ⟨?_, fun x hx b hab c hc => hab c (hconts.waitsPrivately c x hx hc)⟩
    cases hconts <;>
      simp [Action.WaitsOnce, Action.waitsPrivately, lockAcquire, lockRelease, condvarSignal]
  · intro t op
    cases lab <;> cases op <;>
      simp [Op.body, Action.WaitsOnce, Action.waitsPrivately, lockAcquire, lockRelease, condvarWait,
        condvarSignal]

/-! ## When the functions succeed -/

theorem semaphoreTest_succeeds {old : IntrLevel} (h : k.sched.Inv)
    (hintr : k.sched.inExternalIntr = false) (hlevel : k.sched.level = .off)
    (hnext : (k.sema s).value = 0 → k.sched.HasNext) : ∃ k', k.semaphoreTest lab s old = .ok k' := by
  by_cases hvalue : (k.sema s).value = 0
  · obtain ⟨sched, hs⟩ := Sched.threadBlock_succeeds (h.push [.semaphoreRetest s old]) hintr hlevel
      ((hnext hvalue).push _)
    exact ⟨_, semaphoreTest_eq_ok.mpr (.inl ⟨hvalue, h.runningOk, sched, hs, rfl⟩)⟩
  · have hset := Sched.intrSetLevel_eq_ok.mpr ⟨fun _ : old = .on => hintr, rfl⟩
    exact ⟨_, semaphoreTest_eq_ok.mpr (.inr ⟨hvalue, _, hset, rfl⟩)⟩

/-! ## The invariant -/

/-- What holds in the runs of programs with condition variables. -/
structure MonitorInv (init : Nat → Nat) (k : Kernel) : Prop where
  cond : k.CondOrderInv
  start : StartInv init k
  monitors : ∀ t, ∀ a ∈ k.stack t, a.monitors = true
  waits : ∀ t, (k.stack t).Pairwise Action.WaitsOnce

/-- A check does not fail, nor does an action of a loop, if it finds a thread where it looks at the
front of a semaphore. -/
theorem MonitorInv.steers_succeeds (h : MonitorInv init k) (hstack : k.stack k.running = a :: rest)
    (ha : a.steers = true)
    (hinspect : ∀ c w, a = .waitInspect c (some w) → (k.sema (.waiter w c)).waiters ≠ []) :
    ∃ k', k.step .lab2 .act = .ok k' := by
  have hblock := h.cond.sync.block
  have hawake := h.cond.sync.awake.awake k.running a (by simp [hstack])
  cases a
  case notHeldCheck l => exact h.cond.sync.lock.notHeldCheck_succeeds hblock hstack
  case heldCheck l => exact h.cond.sync.lock.heldCheck_succeeds hblock hstack
  all_goals rw [step_act hstack]
  case contextCheck => exact ⟨_, check_bind hblock.intr⟩
  case waitScan c | waitNext c el => exact ⟨_, rfl⟩
  case broadcast c =>
    simp only [exec]
    split_ifs <;> exact ⟨_, rfl⟩
  case waitInspect c el =>
    cases el with
    | none => exact ⟨_, rfl⟩
    | some w =>
      have hcur : k.popped.sched.threadCurrent = .ok k.running :=
        Sched.threadCurrent_eq_ok.mpr ⟨hblock.sched.pop.runningOk, rfl⟩
      simp only [exec, waitInspect, hcur, ok_bind]
      cases hw : (k.sema (.waiter w c)).waiters with
      | nil => exact absurd hw (hinspect c w rfl)
      | cons u us =>
        simp only
        split_ifs <;> exact ⟨_, rfl⟩
  all_goals first
    | (cases ha; done)
    | cases hawake

/-- The threads that an action makes ready are blocked. -/
theorem BlockInv.blocked_of_wokenBy (h : k.BlockInv) (ha : a ∈ k.stack k.running)
    (hun : a.monitors = true) (ht : t ∈ k.wokenBy a) :
    (k.thread t).magic = true ∧ (k.thread t).status = .blocked := by
  cases a <;> simp only [wokenBy, List.mem_singleton, List.not_mem_nil] at ht
  case threadUnblock u => cases hun
  case createUnblock u =>
    subst ht
    have hborn := h.newborn _ _ ha
    exact ⟨hborn.1, hborn.2.1⟩
  case semaphoreUp s =>
    have hretest := (h.waits s t).mp (List.mem_of_mem_take ht)
    exact ⟨(h.waiter hretest).2.2.1, hretest.1⟩

theorem MonitorInv.act_succeeds (h : MonitorInv init k) (hstack : k.stack k.running = a :: rest)
    (hinspect : ∀ c w, a = .waitInspect c (some w) → (k.sema (.waiter w c)).waiters ≠ []) :
    ∃ k', k.step .lab2 .act = .ok k' := by
  have hblock := h.cond.sync.block
  have hmem : a ∈ k.stack k.running := by simp [hstack]
  have hawake := h.cond.sync.awake.awake k.running a hmem
  have hmonitors := h.monitors k.running a hmem
  have hinv := hblock.sched.pop
  have hintr : k.popped.sched.inExternalIntr = false := hblock.intr
  have hcur : k.popped.sched.threadCurrent = .ok k.running :=
    Sched.threadCurrent_eq_ok.mpr ⟨hinv.runningOk, rfl⟩
  have hnext : k.BlocksAt a ∨ a = .threadExit → k.popped.sched.HasNext := fun ha =>
    (h.start.hasNext hblock h.cond.sync.lock hstack ha).congr rfl rfl popped_magic
  have hblocks : ∀ pushed, k.BlocksAt a →
      ∃ s, (k.popped.sched.intrDisable.push pushed).threadBlock = .ok s := by
    intro pushed ha
    have hoff : k.popped.sched.intrDisable.HasNext := hnext (.inl ha)
    exact Sched.threadBlock_succeeds ((hinv.setLevel .off).push pushed) hintr rfl (hoff.push pushed)
  have hwoken : ∀ t ∈ k.popped.wokenBy a, (k.popped.thread t).magic = true ∧
      (k.popped.thread t).status = .blocked := by
    intro t ht
    rw [popped_magic, popped_status]
    exact hblock.blocked_of_wokenBy hmem hmonitors ht
  by_cases hsteers : a.steers = true
  · exact h.steers_succeeds hstack hsteers hinspect
  rw [step_act hstack]
  cases a
  case intrSetLevel level | threadBlockReturn level =>
    have hset := Sched.intrSetLevel_eq_ok.mpr ⟨fun _ : level = .on => hintr, rfl⟩
    exact ⟨_, onSched_eq_ok.mpr ⟨_, hset, rfl⟩⟩
  case iret | semaphoreInit | clearHolder | waitLink | waitReturn | signalWaiter => exact ⟨_, rfl⟩
  case storePriority | idleStart | setHolder => exact ⟨_, bind_eq_ok.mpr ⟨_, hcur, rfl⟩⟩
  case threadCreate t priority function =>
    cases hmagic : (k.popped.thread t).magic with
    | true => exact ⟨_, threadCreate_eq_ok.mpr (.inl ⟨hmagic, rfl⟩)⟩
    | false => exact ⟨_, threadCreate_eq_ok.mpr (.inr ⟨hmagic, of_decide_eq_true hmonitors, rfl⟩)⟩
  case createUnblock t =>
    obtain ⟨hmagic, hblocked⟩ := hwoken t (List.mem_singleton.mpr rfl)
    obtain ⟨s, hs⟩ := @Sched.threadUnblock_succeeds _ t .lab2 hinv hintr hmagic hblocked
    exact ⟨_, onSched_eq_ok.mpr ⟨s, hs, rfl⟩⟩
  case threadYield =>
    obtain ⟨s, hs⟩ := @Sched.threadYield_succeeds _ .lab2 hinv hintr
    exact ⟨_, onSched_eq_ok.mpr ⟨s, hs, rfl⟩⟩
  case threadExit =>
    obtain ⟨s, hs⟩ := Sched.threadExit_succeeds hinv hintr (hnext (.inr rfl))
    exact ⟨_, onSched_eq_ok.mpr ⟨s, hs, rfl⟩⟩
  case threadBlock =>
    obtain ⟨s, hs⟩ := hblocks [.threadBlockReturn k.popped.sched.level] trivial
    simp only [exec, onSched_eq_ok]
    exact ⟨_, s, hs, rfl⟩
  case idleLoop =>
    obtain ⟨s, hs⟩ := hblocks [.intrSetLevel .on, .idleLoop] trivial
    simp only [exec, onSched_eq_ok]
    exact ⟨_, s, hs, rfl⟩
  case semaphoreDown s =>
    obtain ⟨k', hk⟩ := @semaphoreTest_succeeds { k.popped with sched := k.popped.sched.intrDisable }
      .lab2 s k.popped.sched.level (hinv.setLevel .off) hintr rfl (fun hvalue => hnext (.inl hvalue))
    exact ⟨k', semaphoreDown_eq_ok.mpr ⟨hintr, hk⟩⟩
  case semaphoreRetest s old =>
    have hlevel := hblock.retestLevel s old (by rw [hstack, List.head?_cons])
    exact semaphoreTest_succeeds hinv hintr hlevel fun hvalue => hnext (.inl hvalue)
  case semaphoreUp s => exact semaphoreUp_succeeds hinv hintr hwoken
  all_goals first
    | exact absurd rfl hsteers
    | (cases hawake; done)
    | cases hmonitors

/-- No thread is asleep, and so the timer interrupt wakes none. -/
theorem AwakeInv.tick_succeeds (h : k.AwakeInv) (hblock : k.BlockInv) :
    ∃ k', k.step lab .tick = .ok k' := by
  have hbegin : k.listBegin = .ok .tail := by
    simp only [listBegin, h.timerList]
    rfl
  have hwake : ∀ fuel, timerWake lab fuel .tail k.ticking = .ok k.ticking := by
    intro fuel
    cases fuel <;> rfl
  have hinv := ticking_inv hblock.sched
  have hwaking : Waking [] k.ticking k.ticking :=
    ⟨hinv, .refl hinv.runningOk, rfl, rfl, rfl, rfl, rfl, rfl, rfl, rfl, rfl⟩
  obtain ⟨k', hk, -⟩ := intrHandler_succeeds hblock.sched hblock.intr hbegin (hwake _) hwaking
  exact ⟨k', hk⟩

/-! ## Runs -/

/-- The events of the runs of programs with condition variables: the threads use the locks in matched
pairs and call the functions of a condition variable with its lock held. -/
def MonitorAdmits (k : Kernel) (e : Event) : Prop :=
  k.LockAdmits e ∧ ∀ op, e = .call op → op.monitors = true

theorem boot_monitorInv (init : Nat → Nat) : MonitorInv init (boot init) where
  cond := boot_condOrderInv init
  start := boot_startInv init
  monitors t := by
    by_cases ht : t = 0 <;> simp [stack, boot, ht, threadStart, Action.monitors, priMin, priMax]
  waits t := by
    by_cases ht : t = 0 <;>
      simp [stack, boot, ht, threadStart, Action.WaitsOnce, Action.waitsPrivately]

theorem MonitorInv.step (h : MonitorInv init k) (he : k.MonitorAdmits e)
    (hk : k.step .lab2 e = .ok k') : MonitorInv init k' := by
  have hblock := h.cond.sync.block
  have henabled : k.Enabled e := he.1.1.1
  exact ⟨h.cond.step he.1 hk, h.start.step hblock henabled hk,
    step_monitors hblock.sched henabled he.2 hk h.monitors,
    step_waitsOnce hblock.sched henabled hk h.waits⟩

theorem reachable_monitorInv (hr : Reachable (Kernel.step .lab2) MonitorAdmits (boot init) k) :
    MonitorInv init k :=
  @Reachable.invariant _ _ _ (Kernel.step .lab2) MonitorAdmits (boot init) (MonitorInv init)
    (boot_monitorInv init) (fun _ _ _ _ h he hk => h.step he hk) k hr

/-- The waiter whose semaphore `condvar_wait` looks at in this step, if it does. -/
def inspected (k : Kernel) : Event → Option (CondId × Tid)
  | .act =>
    match (k.stack k.running).head? with
    | some (.waitInspect c (some w)) => some (c, w)
    | _ => none
  | _ => none

/-- The thread whose semaphore is looked at is queued on it. -/
def InspectsQueued (k : Kernel) (e : Event) : Prop :=
  ∀ p ∈ k.inspected e, p.2 ∈ (k.sema (.waiter p.2 p.1)).waiters

/-- The thread whose semaphore is looked at has called `semaphore_down` on it, so that it is no longer
in `lock_release`. -/
def InspectsSettled (k : Kernel) (e : Event) : Prop :=
  ∀ p ∈ k.inspected e, .semaphoreDown (.waiter p.2 p.1) ∉ k.stack p.2

/-- No assertion fails in this step. -/
def Succeeds (k : Kernel) (e : Event) : Prop := ∃ k', k.step .lab2 e = .ok k'

theorem inspected_eq_some : k.inspected e = some (c, w) ↔
    e = .act ∧ ∃ rest, k.stack k.running = .waitInspect c (some w) :: rest := by
  cases e with
  | call op => simp [inspected]
  | tick => simp [inspected]
  | act =>
    cases hst : k.stack k.running with
    | nil => simp [inspected, hst]
    | cons a rest =>
      simp only [inspected, hst, List.head?_cons]
      split
      · rename_i c' w' heq
        cases heq
        simp
      · rename_i hno
        refine iff_of_false (by simp) ?_
        rintro ⟨-, rest', heq⟩
        exact hno c w (congrArg some (List.cons.inj heq).1)

/-- A thread inside the loop of `semaphore_down` on its private semaphore, with its waiter still on
the list, is queued on the semaphore. -/
theorem MonitorInv.mem_of_retest {old : IntrLevel} (h : MonitorInv init k) (hw : w ∈ k.waiters c)
    (hretest : .semaphoreRetest (.waiter w c) old ∈ k.stack w) :
    w ∈ (k.sema (.waiter w c)).waiters := by
  have hblock := h.cond.sync.block
  have hacc : k.Account c w := h.cond.sync.cond.account c w
  obtain ⟨hphase, hsignals⟩ := hacc.unsignalled hw
  have hhead : (k.stack w).head? = some (.semaphoreRetest (.waiter w c) old) := by
    have htop := hblock.retestTop w (.waiter w c) old
    cases hst : k.stack w with
    | nil =>
      rw [hst] at hretest
      cases hretest
    | cons a rest =>
      rw [hst] at hretest htop
      rw [List.head?_cons, (List.mem_cons.mp hretest).resolve_right htop]
  have hvalue : (k.sema (.waiter w c)).value = 0 := by
    have hdowns := hacc.downs
    rw [hphase] at hdowns
    simp only [reduceCtorEq, if_false, Nat.add_zero] at hdowns
    by_contra hne
    have hmore := (hacc.value_ne_zero.mp hne).1
    omega
  have hblocked := (h.cond.sync.cond.asleep w c old hhead).mpr hvalue
  exact (hblock.waits _ w).mpr ⟨hblocked, old, hhead⟩

/-- A thread whose waiter is on the list is queued on its semaphore once it has called
`semaphore_down`. -/
theorem MonitorInv.queued_iff (h : MonitorInv init k) (hw : w ∈ k.waiters c) :
    w ∈ (k.sema (.waiter w c)).waiters ↔ .semaphoreDown (.waiter w c) ∉ k.stack w := by
  have hblock := h.cond.sync.block
  constructor
  · intro hmem hdown
    obtain ⟨-, old, hhead⟩ := (hblock.waits _ w).mp hmem
    obtain ⟨rest, hstack⟩ := List.head?_eq_some_iff.mp hhead
    have hwaits := h.waits w
    rw [hstack] at hwaits hdown
    have hrest := (List.mem_cons.mp hdown).resolve_left (by simp)
    have honce := List.rel_of_pairwise_cons hwaits hrest c (by simp [Action.waitsPrivately])
    simp [Action.waitsPrivately] at honce
  · intro hdown
    have hphase := ((h.cond.sync.cond.account c w).unsignalled hw).1
    have hinside : k.waitPhase c w ≠ .outside := by simp [hphase]
    obtain ⟨b, hb, after, hwaiting⟩ := exists_of_phaseOf_ne hinside
    rw [show phaseOf (Action.waiting c) .outside (k.stack w) = .queued from hphase] at hwaiting
    have hown := (hblock.stackOk w).ok b hb
    obtain ⟨u, rfl | ⟨old, rfl⟩⟩ := waiting_of_queued hwaiting
    · obtain rfl := hown u c rfl
      exact absurd hb hdown
    · obtain rfl := hown u c rfl
      exact h.mem_of_retest hw hb

/-- The waiter that is looked at is on the list. -/
theorem MonitorInv.mem_of_inspected (h : MonitorInv init k)
    (hp : k.inspected e = some (c, w)) : w ∈ k.waiters c := by
  obtain ⟨-, rest, hstack⟩ := inspected_eq_some.mp hp
  obtain ⟨front, back, heq, hel, -⟩ :=
    h.cond.scan k.running (.waitInspect c (some w)) (by simp [hstack])
  rw [heq]
  exact List.mem_append_right _ (List.mem_of_mem_head? hel)

theorem MonitorInv.succeeds_iff (h : MonitorInv init k) (he : k.MonitorAdmits e) :
    k.Succeeds e ∧ k.InspectsQueued e ↔ k.InspectsSettled e := by
  have hiff : k.InspectsQueued e ↔ k.InspectsSettled e :=
    forall₂_congr fun _ hp => h.queued_iff (h.mem_of_inspected hp)
  refine ⟨fun hs => hiff.mp hs.2, fun hsettled => ⟨?_, hiff.mpr hsettled⟩⟩
  have henabled : k.Enabled e := he.1.1.1
  cases e with
  | call op => exact ⟨_, rfl⟩
  | tick => exact h.cond.sync.awake.tick_succeeds h.cond.sync.block
  | act =>
    obtain ⟨a, rest, hstack⟩ := List.exists_cons_of_ne_nil henabled
    refine h.act_succeeds hstack ?_
    rintro c w rfl
    have hp := inspected_eq_some.mpr ⟨rfl, rest, hstack⟩
    exact List.ne_nil_of_mem (hiff.mpr hsettled (c, w) hp)

/-- In a run of a program with condition variables no assertion fails and every thread whose
semaphore `condvar_wait` looks at is queued on it, if and only if none of these threads is still
before its call of `semaphore_down`. -/
theorem condvar_assertions_hold_iff {es : List Event}
    (hes : Along (Kernel.step .lab2) MonitorAdmits (boot init) es) :
    Along (Kernel.step .lab2) (fun k e => k.Succeeds e ∧ k.InspectsQueued e) (boot init) es ↔
      Along (Kernel.step .lab2) InspectsSettled (boot init) es :=
  along_congr (fun _ _ hr he => (reachable_monitorInv hr).succeeds_iff he) .start hes

/-- A test that an event is admitted; it leaves out `thread_exit`. -/
def monitorAdmits (k : Kernel) (e : Event) : Bool :=
  k.lockAdmits e &&
    match e with
    | .call op => op.monitors
    | _ => true

theorem monitorAdmits_of_eq_true (h : k.monitorAdmits e = true) : k.MonitorAdmits e := by
  obtain ⟨hlock, hop⟩ := Bool.and_eq_true_iff.mp h
  refine ⟨lockAdmits_of_eq_true hlock, ?_⟩
  rintro op rfl
  exact hop

instance : Decidable (k.InspectsSettled e) := by
  unfold InspectsSettled
  infer_instance

/-- The state after a sequence of events from boot in the runs of programs with condition variables. -/
def runMonitors (init : Nat → Nat) (events : List Event) : Option Kernel :=
  run (Kernel.step .lab2) monitorAdmits (boot init) events

theorem reachable_of_runMonitors {events : List Event} (h : runMonitors init events = some k) :
    Reachable (Kernel.step .lab2) MonitorAdmits (boot init) k :=
  reachable_of_run (fun _ _ => monitorAdmits_of_eq_true) .start h

/-- A thread of priority 40 waits on a condition variable, and then `main` calls `condvar_wait`. -/
def waitInTurn : List Event :=
  starting ++ Event.call (.threadCreate 2 40) :: List.replicate 10 Event.act ++
    Event.call (.lockAcquire 0) :: List.replicate 4 Event.act ++
    Event.call (.condvarWait ⟨0, 0⟩) :: List.replicate 12 Event.act ++
    Event.call (.lockAcquire 0) :: List.replicate 4 Event.act ++
    Event.call (.condvarWait ⟨0, 0⟩) :: List.replicate 4 Event.act

theorem condvar_assertions_hold_iff_waitInTurn : ∃ k,
    runMonitors (fun _ => 0) waitInTurn = some k ∧ k.inspected .act = some (⟨0, 0⟩, 2) ∧
    Along (Kernel.step .lab2) (fun k e => k.Succeeds e ∧ k.InspectsQueued e) (boot fun _ => 0)
      (waitInTurn ++ [.act]) := by
  have hrun : (runMonitors (fun _ => 0) waitInTurn).map (fun k => k.inspected .act) =
      some (some (⟨0, 0⟩, 2)) := by
    decide +kernel
  have hlater : (run (Kernel.step .lab2) (fun k e => k.monitorAdmits e && k.InspectsSettled e)
      (boot fun _ => 0) (waitInTurn ++ [.act])).isSome = true := by
    decide +kernel
  obtain ⟨k, hk, hinspected⟩ := Option.map_eq_some_iff.mp hrun
  obtain ⟨k', hk'⟩ := Option.isSome_iff_exists.mp hlater
  have hadmits : Along (Kernel.step .lab2) MonitorAdmits (boot fun _ => 0) (waitInTurn ++ [.act]) :=
    along_of_run (fun _ _ hok => monitorAdmits_of_eq_true (Bool.and_eq_true_iff.mp hok).1) hk'
  refine ⟨k, hk, hinspected, (condvar_assertions_hold_iff hadmits).mpr ?_⟩
  exact along_of_run (fun _ _ hok => of_decide_eq_true (Bool.and_eq_true_iff.mp hok).2) hk'

/-- `main` waits while a thread of priority 40 waits for the lock. That thread preempts `main` in
`lock_release`, and calls `condvar_wait` as well. -/
def waitDuringRelease : List Event :=
  starting ++ Event.call (.lockAcquire 0) :: List.replicate 4 Event.act ++
    Event.call (.threadCreate 2 40) :: List.replicate 10 Event.act ++
    Event.call (.lockAcquire 0) :: List.replicate 5 Event.act ++
    Event.call (.condvarWait ⟨0, 0⟩) :: List.replicate 11 Event.act ++
    Event.call (.condvarWait ⟨0, 0⟩) :: List.replicate 4 Event.act

/-- `list_front` fails on the semaphore of `main`, whose waiter is on the list. -/
theorem condvar_wait_fails : ∃ k,
    Reachable (Kernel.step .lab2) MonitorAdmits (boot fun _ => 0) k ∧ k.MonitorAdmits .act ∧
    k.inspected .act = some (⟨0, 0⟩, 0) ∧ 0 ∈ k.waiters ⟨0, 0⟩ ∧
    (k.sema (.waiter 0 ⟨0, 0⟩)).waiters = [] ∧ k.step .lab2 .act = .error .listFront := by
  have hrun : (runMonitors (fun _ => 0) waitDuringRelease).map (fun k => (k.monitorAdmits .act,
      k.inspected .act, (k.sema (.waiter 0 ⟨0, 0⟩)).waiters, k.failure .lab2 .act)) =
      some (true, some (⟨0, 0⟩, 0), [], some .listFront) := by
    decide +kernel
  obtain ⟨k, hk, heq⟩ := Option.map_eq_some_iff.mp hrun
  simp only [Prod.mk.injEq] at heq
  obtain ⟨hadmits, hinspected, hsema, hfailure⟩ := heq
  have hr := reachable_of_runMonitors hk
  exact ⟨k, hr, monitorAdmits_of_eq_true hadmits, hinspected,
    (reachable_monitorInv hr).mem_of_inspected hinspected, hsema, failure_eq_some.mp hfailure⟩

end Kernel

end CSE130.Pintos
