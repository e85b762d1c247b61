import CSE130.Pintos.SchedInvariant

/-!
# What one step of the machine does

`Conts` lists what an action may leave to do on the stack. `exec_moves` and `exec_inv` describe
the scheduler after an action, and the lemmas behind them the other parts of the state.
-/

namespace CSE130.Pintos

open CSE130.Library

/-- The actions that always leave the thread something to do. -/
def Action.goesOn : Action → Bool
  | .threadBlock | .idleLoop | .waitScan _ | .waitInspect _ _ | .waitNext _ _ | .sleepStore _
  | .sleepScan _ | .sleepOuter _ _ | .sleepOuterNext _ _ | .sleepInner _ | .sleepInnerNext _
  | .sleepLink _ | .sleepDisable | .sleepBlock => true
  | _ => false

/-- What the running thread has to do once it has executed an action, apart from what was behind
the action on its stack. -/
inductive Conts : Action → List Action → Prop where
  | done (a : Action) (h : a.goesOn = false) : Conts a []
  | create (t : Tid) (priority : Int) (function : ThreadFunction) :
      Conts (.threadCreate t priority function)
        (Kernel.lockAcquire .tidLock ++ Kernel.lockRelease .tidLock ++ [.createUnblock t])
  | block (old : IntrLevel) : Conts .threadBlock [.threadBlockReturn old]
  | idle : Conts .idleLoop [.intrSetLevel .on, .idleLoop]
  | down (s : SemaId) (old : IntrLevel) : Conts (.semaphoreDown s) [.semaphoreRetest s old]
  | retest (s : SemaId) (old : IntrLevel) : Conts (.semaphoreRetest s old) [.semaphoreRetest s old]
  | scanEnd (c : CondId) : Conts (.waitScan c) [.waitLink c none]
  | scan (c : CondId) (el : Option Tid) : Conts (.waitScan c) [.waitInspect c el]
  | inspectEnd (c : CondId) (el : Option Tid) : Conts (.waitInspect c el) [.waitLink c el]
  | inspect (c : CondId) (el : Tid) : Conts (.waitInspect c (some el)) [.waitNext c el]
  | next (c : CondId) (el : Tid) (el' : Option Tid) : Conts (.waitNext c el) [.waitInspect c el']
  | signal (c : CondId) (w : Tid) : Conts (.signalWaiter c) [.semaphoreUp (.waiter w c)]
  | broadcast (c : CondId) : Conts (.broadcast c) (Kernel.condvarSignal c ++ [.broadcast c])
  | sleepStart (ticks total : Int) : Conts (.sleepStart ticks) [.sleepStore total]
  | sleepStore (total : Int) : Conts (.sleepStore total) [.sleepScan total]
  | sleepScan (total : Int) (x : Elem) : Conts (.sleepScan total) [.sleepOuter total x]
  | outerEnd (total : Int) (x : Elem) : Conts (.sleepOuter total x) [.sleepLink x]
  | outerEqual (total : Int) (x : Elem) : Conts (.sleepOuter total x) [.sleepInner x]
  | outer (total : Int) (x : Elem) : Conts (.sleepOuter total x) [.sleepOuterNext total x]
  | outerNext (total : Int) (x y : Elem) : Conts (.sleepOuterNext total x) [.sleepOuter total y]
  | innerEnd (x : Elem) : Conts (.sleepInner x) [.sleepLink x]
  | inner (x : Elem) : Conts (.sleepInner x) [.sleepInnerNext x]
  | innerNext (x y : Elem) : Conts (.sleepInnerNext x) [.sleepInner y]
  | sleepLink (x : Elem) : Conts (.sleepLink x) [.sleepDisable]
  | sleepDisable : Conts .sleepDisable [.sleepBlock]
  | sleepBlock : Conts .sleepBlock [.sleepReturn]

/-- The actions that the body of a function consists of, as called by thread `t`. -/
inductive Begins (t : Tid) : Op → Action → Prop where
  | threadCreate (u : Tid) (priority : Int) :
      Begins t (.threadCreate u priority) (.threadCreate u priority .user)
  | threadUnblock (u : Tid) : Begins t (.threadUnblock u) (.threadUnblock u)
  | threadBlock : Begins t .threadBlock .threadBlock
  | threadYield (op : Op) : Begins t op .threadYield
  | threadExit : Begins t .threadExit .threadExit
  | storePriority (priority : Int) :
      Begins t (.threadSetPriority priority) (.storePriority priority)
  | intrSetLevel (level : IntrLevel) : Begins t (.intrSetLevel level) (.intrSetLevel level)
  | userDown (n : Nat) : Begins t (.semaphoreDown n) (.semaphoreDown (.user n))
  | userUp (n : Nat) : Begins t (.semaphoreUp n) (.semaphoreUp (.user n))
  | contextCheck (op : Op) : Begins t op .contextCheck
  | notHeldCheck (op : Op) (l : LockId) : Begins t op (.notHeldCheck l)
  | lockDown (op : Op) (l : LockId) : Begins t op (.semaphoreDown (.lock l))
  | setHolder (op : Op) (l : LockId) : Begins t op (.setHolder l)
  | heldCheck (op : Op) (l : LockId) : Begins t op (.heldCheck l)
  | clearHolder (op : Op) (l : LockId) : Begins t op (.clearHolder l)
  | lockUp (op : Op) (l : LockId) : Begins t op (.semaphoreUp (.lock l))
  | waiterInit (c : CondId) : Begins t (.condvarWait c) (.semaphoreInit (.waiter t c) 0)
  | waiterDown (c : CondId) : Begins t (.condvarWait c) (.semaphoreDown (.waiter t c))
  | waitScan (c : CondId) : Begins t (.condvarWait c) (.waitScan c)
  | waitReturn (c : CondId) : Begins t (.condvarWait c) (.waitReturn c)
  | signalWaiter (c : CondId) : Begins t (.condvarSignal c) (.signalWaiter c)
  | broadcast (c : CondId) : Begins t (.condvarBroadcast c) (.broadcast c)
  | sleepStart (ticks : Int) : Begins t (.timerSleep ticks) (.sleepStart ticks)

theorem begins_of_mem {lab : Lab} {t : Tid} {op : Op} {a : Action} (h : a ∈ op.body lab t) :
    Begins t op a := by
  have hall : ∀ b ∈ op.body lab t, Begins t op b := by
    cases lab <;> cases op <;>
      simp only [Op.body, Kernel.lockAcquire, Kernel.lockRelease, Kernel.condvarWait,
        Kernel.condvarSignal, List.forall_mem_append, List.forall_mem_cons, List.not_mem_nil,
        false_implies, implies_true, and_true] <;>
      repeat' constructor
  exact hall a h

/-- An action that changes nothing but what the thread does next. -/
def Action.steers : Action → Bool
  | .contextCheck | .notHeldCheck _ | .heldCheck _ | .waitScan _ | .waitInspect _ _ | .waitNext _ _
  | .broadcast _ | .sleepStart _ | .sleepScan _ | .sleepOuter _ _ | .sleepOuterNext _ _
  | .sleepInner _ | .sleepInnerNext _ | .sleepReturn => true
  | _ => false

/-- An action that neither creates nor ends a thread and leaves `idle_thread` as it is. -/
def Action.plain : Action → Bool
  | .threadCreate _ _ _ | .threadExit | .idleStart => false
  | _ => true

namespace Kernel

variable {k k' : Kernel} {lab : Lab} {a : Action}

@[simp] theorem onSched_eq_ok {f : Sched → Except Panic Sched} :
    k.onSched f = .ok k' ↔ ∃ s, f k.sched = .ok s ∧ k' = { k with sched := s } := by
  simp only [onSched, bind_eq_ok, pure_eq_ok, @eq_comm _ k']

@[simp] theorem push_sched {actions : List Action} : (k.push actions).sched = k.sched.push actions := rfl
@[simp] theorem note_sched {n : Note} : (k.note n).sched = k.sched := rfl
@[simp] theorem setSema_sched {s : SemaId} {x : Semaphore} : (k.setSema s x).sched = k.sched := rfl
@[simp] theorem setHolder_sched {l : LockId} {t : Option Tid} : (k.setHolder l t).sched = k.sched := rfl
@[simp] theorem setWaiters_sched {c : CondId} {ts : List Tid} : (k.setWaiters c ts).sched = k.sched := rfl

/-! ## Semaphores -/

theorem semaphoreTest_eq_ok {s : SemaId} {old : IntrLevel} :
    k.semaphoreTest lab s old = .ok k' ↔
      ((k.sema s).value = 0 ∧ k.sched.RunningOk ∧ ∃ sched,
        (k.sched.push [.semaphoreRetest s old]).threadBlock = .ok sched ∧
        k' = { k.setSema s { (k.sema s) with
          waiters := k.sched.enqueue lab (k.sema s).waiters k.running } with sched := sched }) ∨
      ((k.sema s).value ≠ 0 ∧ ∃ sched, k.sched.intrSetLevel old = .ok sched ∧
        k' = { (k.setSema s { (k.sema s) with value := (k.sema s).value - 1 }).note
          (.down s k.running) with sched := sched }) := by
  unfold semaphoreTest
  by_cases h : (k.sema s).value = 0
  · simp only [h, if_true, bind_eq_ok, Sched.threadCurrent_eq_ok, onSched_eq_ok, true_and, ne_eq,
      not_true_eq_false, false_and, or_false, setSema_sched]
    constructor
    · rintro ⟨_, ⟨hrunning, rfl⟩, hblock⟩
      exact ⟨hrunning, hblock⟩
    · rintro ⟨hrunning, hblock⟩
      exact ⟨_, ⟨hrunning, rfl⟩, hblock⟩
  · simp only [h, if_false, onSched_eq_ok, false_and, false_or, ne_eq, not_false_eq_true, true_and,
      note_sched, setSema_sched]

theorem semaphoreDown_eq_ok {s : SemaId} :
    k.semaphoreDown lab s = .ok k' ↔ k.sched.inExternalIntr = false ∧
      ({ k with sched := k.sched.intrDisable } : Kernel).semaphoreTest lab s k.sched.level = .ok k' := by
  simp only [semaphoreDown, bind_eq_ok, check_eq_ok, exists_const]

/-- `semaphore_up` takes the first waiter off the list and wakes it. -/
theorem semaphoreUp_eq_ok {s : SemaId} :
    k.semaphoreUp lab s = .ok k' ↔ ∃ sched,
      (match (k.sema s).waiters with
        | [] => k.sched.intrDisable.intrSetLevel k.sched.level
        | t :: _ => (k.sched.intrDisable.push [.intrSetLevel k.sched.level]).threadUnblock lab t) =
          .ok sched ∧
      k' = { (k.note (.up s)).setSema s {
        value := ((k.sema s).value + 1) % 2 ^ 32
        waiters := (k.sema s).waiters.tail } with sched := sched } := by
  simp only [semaphoreUp]
  cases (k.sema s).waiters with
  | nil =>
    rw [onSched_eq_ok]
    rfl
  | cons t ts =>
    rw [onSched_eq_ok]
    rfl

theorem lockHeldByCurrentThread_eq_ok {l : LockId} {held : Bool} :
    k.lockHeldByCurrentThread l = .ok held ↔
      k.sched.RunningOk ∧ held = decide (k.holder l = some k.running) := by
  simp only [lockHeldByCurrentThread, bind_eq_ok, Sched.threadCurrent_eq_ok, pure_eq_ok]
  constructor
  · rintro ⟨_, ⟨h, rfl⟩, hheld⟩
    exact ⟨h, hheld.symm⟩
  · rintro ⟨h, hheld⟩
    exact ⟨_, ⟨h, rfl⟩, hheld.symm⟩

/-! ## The scheduler after an action -/

/-- The threads that an action makes ready. -/
def wokenBy (k : Kernel) : Action → List Tid
  | .threadUnblock t | .createUnblock t => [t]
  | .semaphoreUp s => (k.sema s).waiters.take 1
  | _ => []

/-- The running thread blocks in an action. -/
def BlocksAt (k : Kernel) : Action → Prop
  | .threadBlock | .idleLoop | .sleepBlock => True
  | .semaphoreDown s | .semaphoreRetest s _ => (k.sema s).value = 0
  | _ => False

theorem semaphoreTest_moves {s : SemaId} {old : IntrLevel} (h : k.sched.Inv)
    (hk : k.semaphoreTest lab s old = .ok k') :
    k'.sched.Inv ∧ Sched.Moves [] ((k.sema s).value = 0)
      (if (k.sema s).value = 0 then [.semaphoreRetest s old] else []) k.sched k'.sched := by
  rcases semaphoreTest_eq_ok.mp hk with ⟨hvalue, -, sched, hblock, rfl⟩ | ⟨hvalue, sched, hset, rfl⟩
  · refine ⟨(h.push _).threadBlock hblock, ?_⟩
    simpa only [hvalue, if_true] using ((h.push _).threadBlock_moves hblock).of_push
  · obtain ⟨-, rfl⟩ := Sched.intrSetLevel_eq_ok.mp hset
    refine ⟨h.setLevel _, ?_⟩
    simpa only [hvalue, if_false] using Sched.Moves.setLevel h.runningOk old

theorem semaphoreUp_moves {s : SemaId} (h : k.sched.Inv) (hk : k.semaphoreUp lab s = .ok k') :
    k'.sched.Inv ∧ Sched.Moves ((k.sema s).waiters.take 1) False [] k.sched k'.sched := by
  obtain ⟨sched, hs, rfl⟩ := semaphoreUp_eq_ok.mp hk
  have hoff : k.sched.intrDisable.Inv := h.setLevel .off
  cases hw : (k.sema s).waiters with
  | nil =>
    rw [hw] at hs
    obtain ⟨-, rfl⟩ := Sched.intrSetLevel_eq_ok.mp hs
    exact ⟨h.setLevel _, Sched.Moves.setLevel h.runningOk _⟩
  | cons t ts =>
    rw [hw] at hs
    have hpush := Sched.Moves.pushLevel hoff.runningOk
      (LevelOnly.singleton_intrSetLevel k.sched.level)
    refine ⟨(hoff.push _).threadUnblock hs, ?_⟩
    exact (hpush.trans rfl ((hoff.push _).threadUnblock_moves hs)).of_setLevel

/-- The checks and the loops over lists only push what the thread does next. -/
theorem exec_steers (ha : a.steers = true) (hk : k.exec lab a = .ok k') :
    a.goesOn = false ∧ k' = k ∨ ∃ pushed, Conts a pushed ∧ k' = k.push pushed := by
  have hpush : ∀ {pushed}, k.push pushed = k' → Conts a pushed →
      a.goesOn = false ∧ k' = k ∨ ∃ pushed, Conts a pushed ∧ k' = k.push pushed :=
    fun heq hconts => Or.inr ⟨_, hconts, heq.symm⟩
  cases a <;> simp only [exec, bind_eq_ok, pure_eq_ok, check_eq_ok, exists_const] at hk
  case contextCheck => exact Or.inl ⟨rfl, hk.2.symm⟩
  case notHeldCheck l | heldCheck l =>
    obtain ⟨_, -, -, rfl⟩ := hk
    exact Or.inl ⟨rfl, rfl⟩
  case sleepReturn => exact Or.inl ⟨rfl, hk.symm⟩
  case waitScan c =>
    cases lab with
    | lab1 => exact hpush (pure_eq_ok.mp hk) (.scanEnd c)
    | lab2 => exact hpush (pure_eq_ok.mp hk) (.scan c _)
  case waitInspect c el =>
    cases el with
    | none => exact hpush (pure_eq_ok.mp hk) (.inspectEnd c none)
    | some w =>
      simp only [waitInspect, bind_eq_ok] at hk
      obtain ⟨cur, -, hk⟩ := hk
      split at hk
      · cases hk
      · split_ifs at hk
        · exact hpush (pure_eq_ok.mp hk) (.inspectEnd c (some w))
        · exact hpush (pure_eq_ok.mp hk) (.inspect c w)
  case waitNext c el => exact hpush hk (.next c el _)
  case broadcast c =>
    split_ifs at hk
    · exact Or.inl ⟨rfl, (pure_eq_ok.mp hk).symm⟩
    · exact hpush (pure_eq_ok.mp hk) (.broadcast c)
  case sleepStart ticks =>
    simp only [sleepStart, bind_eq_ok] at hk
    obtain ⟨_, -, hk⟩ := hk
    split_ifs at hk
    · exact Or.inl ⟨rfl, (pure_eq_ok.mp hk).symm⟩
    · exact hpush (pure_eq_ok.mp hk) (.sleepStart ticks _)
  case sleepScan total =>
    obtain ⟨x, -, hk⟩ := hk
    exact hpush hk (.sleepScan total x)
  case sleepOuter total x =>
    cases x with
    | head => cases hk
    | tail => exact hpush (pure_eq_ok.mp hk) (.outerEnd total _)
    | thread hold =>
      simp only [sleepOuter] at hk
      split_ifs at hk
      · exact hpush (pure_eq_ok.mp hk) (.outerEqual total _)
      · exact hpush (pure_eq_ok.mp hk) (.outerEnd total _)
      · exact hpush (pure_eq_ok.mp hk) (.outer total _)
  case sleepOuterNext total x =>
    obtain ⟨y, -, hk⟩ := hk
    exact hpush hk (.outerNext total x y)
  case sleepInner x =>
    cases x with
    | head => cases hk
    | tail => exact hpush (pure_eq_ok.mp hk) (.innerEnd _)
    | thread hold =>
      simp only [sleepInner] at hk
      split_ifs at hk
      · exact hpush (pure_eq_ok.mp hk) (.innerEnd _)
      · exact hpush (pure_eq_ok.mp hk) (.inner _)
  case sleepInnerNext x =>
    obtain ⟨y, -, hk⟩ := hk
    exact hpush hk (.innerNext x y)
  all_goals cases ha

/-- One action on the scheduler. -/
theorem exec_moves (h : k.sched.Inv) (ha : a.plain = true) (hk : k.exec lab a = .ok k') :
    ∃ pushed, Conts a pushed ∧ k'.sched.Inv ∧
      Sched.Moves (k.wokenBy a) (k.BlocksAt a) pushed k.sched k'.sched := by
  have hrefl := Sched.Moves.refl h.runningOk
  have hstay : a.goesOn = false → k'.sched = k.sched → ∃ pushed, Conts a pushed ∧ k'.sched.Inv ∧
      Sched.Moves [] False pushed k.sched k'.sched := by
    intro hend heq
    rw [heq]
    exact ⟨[], .done a hend, h, hrefl⟩
  have hblock : ∀ {pushed sched}, Conts a pushed →
      (k.sched.intrDisable.push pushed).threadBlock = .ok sched → ∃ pushed, Conts a pushed ∧
      sched.Inv ∧ Sched.Moves [] True pushed k.sched sched := by
    intro pushed sched hconts hs
    have hinv : (k.sched.push pushed).Inv := h.push _
    refine ⟨pushed, hconts, (hinv.setLevel .off).threadBlock hs, ?_⟩
    exact ((hinv.setLevel .off).threadBlock_moves hs).of_setLevel.of_push
  cases a
  case threadCreate | threadExit | idleStart => cases ha
  case contextCheck | notHeldCheck | heldCheck | waitScan | waitInspect | waitNext | broadcast |
      sleepStart | sleepScan | sleepOuter | sleepOuterNext | sleepInner | sleepInnerNext |
      sleepReturn =>
    rcases exec_steers rfl hk with ⟨hend, rfl⟩ | ⟨pushed, hconts, rfl⟩
    · exact ⟨[], .done _ hend, h, hrefl⟩
    · exact ⟨pushed, hconts, h.push _, Sched.Moves.push h.runningOk _⟩
  all_goals simp only [exec, onSched_eq_ok, bind_eq_ok, pure_eq_ok] at hk
  case intrSetLevel level | threadBlockReturn level =>
    obtain ⟨s, hs, rfl⟩ := hk
    obtain ⟨-, rfl⟩ := Sched.intrSetLevel_eq_ok.mp hs
    exact ⟨[], .done _ rfl, h.setLevel _, Sched.Moves.setLevel h.runningOk _⟩
  case iret =>
    subst hk
    exact ⟨[], .done _ rfl, h.setLevel _, Sched.Moves.setLevel h.runningOk _⟩
  case threadUnblock t | createUnblock t =>
    obtain ⟨s, hs, rfl⟩ := hk
    exact ⟨[], .done _ rfl, h.threadUnblock hs, h.threadUnblock_moves hs⟩
  case threadBlock =>
    obtain ⟨s, hs, rfl⟩ := hk
    exact hblock (.block k.sched.level) hs
  case idleLoop =>
    obtain ⟨s, hs, rfl⟩ := hk
    exact hblock .idle hs
  case threadYield =>
    obtain ⟨s, hs, rfl⟩ := hk
    exact ⟨[], .done _ rfl, h.threadYield hs, h.threadYield_moves hs⟩
  case storePriority priority =>
    obtain ⟨cur, hcur, rfl⟩ := hk
    obtain ⟨-, rfl⟩ := Sched.threadCurrent_eq_ok.mp hcur
    let store := fun th : Thread => { th with priority := priority }
    have hinv := @Sched.Inv.modify _ k.running h store (fun _ => rfl) (fun _ => rfl)
    have hmoves := @Sched.Moves.modify _ h.runningOk store [] (fun _ => rfl) (fun _ => rfl)
      (fun _ => rfl)
    exact ⟨[], .done _ rfl, hinv, hmoves⟩
  case semaphoreInit s value =>
    subst hk
    exact hstay rfl rfl
  case semaphoreDown s =>
    obtain ⟨-, hk⟩ := semaphoreDown_eq_ok.mp hk
    obtain ⟨hinv, hmoves⟩ := semaphoreTest_moves (h.setLevel .off) hk
    refine ⟨_, ?_, hinv, hmoves.of_setLevel⟩
    split_ifs
    · exact .down s _
    · exact .done _ rfl
  case semaphoreRetest s old =>
    obtain ⟨hinv, hmoves⟩ := semaphoreTest_moves h hk
    refine ⟨_, ?_, hinv, hmoves⟩
    split_ifs
    · exact .retest s old
    · exact .done _ rfl
  case semaphoreUp s =>
    obtain ⟨hinv, hmoves⟩ := semaphoreUp_moves h hk
    exact ⟨[], .done _ rfl, hinv, hmoves⟩
  case setHolder l =>
    obtain ⟨_, -, rfl⟩ := hk
    exact hstay rfl rfl
  case clearHolder l | waitReturn c =>
    subst hk
    exact hstay rfl rfl
  case waitLink c before =>
    subst hk
    exact hstay rfl rfl
  case signalWaiter c =>
    subst hk
    unfold signalWaiter
    split
    · exact ⟨[], .done _ rfl, h, hrefl⟩
    · exact ⟨_, .signal c _, h.push _, Sched.Moves.push h.runningOk _⟩
  case sleepStore total =>
    subst hk
    let store := fun th : Thread =>
      { th with wakeUpTick := total, stack := .sleepScan total :: th.stack }
    have hinv := @Sched.Inv.modify _ k.running h store (fun _ => rfl) (fun _ => rfl)
    have hmoves := @Sched.Moves.modify _ h.runningOk store [.sleepScan total] (fun _ => rfl)
      (fun _ => rfl) (fun _ => rfl)
    have hsched : k.sched.modify k.running store =
        (k.sched.modify k.running fun th => { th with wakeUpTick := total }).push
          [.sleepScan total] := by
      simp [Sched.modify, store]
    rw [hsched] at hinv
    exact ⟨_, .sleepStore total, hinv, hsched ▸ hmoves⟩
  case sleepLink before =>
    obtain ⟨k₁, hinsert, rfl⟩ := hk
    simp only [listInsert, bind_eq_ok, check_eq_ok, pure_eq_ok, exists_const] at hinsert
    obtain ⟨-, rfl⟩ := hinsert
    exact ⟨_, .sleepLink before, h.push _, Sched.Moves.push h.runningOk _⟩
  case sleepDisable =>
    subst hk
    exact ⟨_, .sleepDisable, (h.setLevel .off).push _,
      (Sched.Moves.push (h.setLevel .off).runningOk _).of_setLevel⟩
  case sleepBlock =>
    obtain ⟨s, hs, rfl⟩ := hk
    exact ⟨_, .sleepBlock, (h.push _).threadBlock hs, ((h.push _).threadBlock_moves hs).of_push⟩

/-- `thread_create` either finds a free page or leaves everything as it is. -/
theorem threadCreate_eq_ok {t : Tid} {priority : Int} {function : ThreadFunction} :
    k.threadCreate t priority function = .ok k' ↔
      (k.thread t).magic = true ∧ k' = k ∨ (k.thread t).magic = false ∧
        (priMin ≤ priority ∧ priority ≤ priMax) ∧
        k' = { k with
          sched := k.sched.creating t priority function
            (lockAcquire .tidLock ++ lockRelease .tidLock ++ [.createUnblock t])
          timerList := k.timerList.clear (.thread t) } := by
  unfold threadCreate
  cases hmagic : (k.thread t).magic with
  | true => simp only [if_true, pure_eq_ok, true_and, @eq_comm _ k', reduceCtorEq, false_and, or_false]
  | false =>
    simp only [Bool.false_eq_true, if_false, bind_eq_ok, onSched_eq_ok, pure_eq_ok, false_and,
      false_or, true_and]
    constructor
    · rintro ⟨_, ⟨s, hs, rfl⟩, rfl⟩
      obtain ⟨hrange, rfl⟩ := Sched.initThread_eq_ok.mp hs
      exact ⟨hrange, rfl⟩
    · rintro ⟨hrange, rfl⟩
      exact ⟨_, ⟨_, Sched.initThread_eq_ok.mpr ⟨hrange, rfl⟩, rfl⟩, rfl⟩

theorem idleStart_eq_ok :
    k.exec lab .idleStart = .ok k' ↔ k.sched.RunningOk ∧
      k' = { k with sched := { k.sched with idleThread := some k.running } } := by
  simp only [exec, bind_eq_ok, Sched.threadCurrent_eq_ok, pure_eq_ok]
  constructor
  · rintro ⟨_, ⟨h, rfl⟩, rfl⟩
    exact ⟨h, rfl⟩
  · rintro ⟨h, rfl⟩
    exact ⟨_, ⟨h, rfl⟩, rfl⟩

/-- The rule for properties of the scheduler: what every change that the functions of the kernel
make to it keeps, an action keeps. -/
theorem exec_sched_rule {Q : Sched → Prop} (hpush : ∀ s actions, Q s → Q (s.push actions))
    (hlevel : ∀ s level, Q s → Q { s with level := level })
    (hblock : ∀ s s', Q s → s.threadBlock = .ok s' → Q s')
    (hyield : ∀ s s', Q s → s.threadYield lab = .ok s' → Q s')
    (hunblock : ∀ s s' t, Q s → s.threadUnblock lab t = .ok s' → Q s')
    (hexit : ∀ s s', Q s → s.threadExit = .ok s' → Q s')
    (hcreate : ∀ s t priority function pushed, Q s → (s.thread t).magic = false →
      Q (s.creating t priority function pushed))
    (hidle : a = .idleStart → Q k.sched → Q { k.sched with idleThread := some k.running })
    (hwake : ∀ s total, Q s → Q (s.modify s.running fun th => { th with wakeUpTick := total }))
    (hpriority : ∀ priority, a = .storePriority priority → Q k.sched →
      Q (k.sched.modify k.running fun th => { th with priority := priority }))
    (h : Q k.sched) (hk : k.exec lab a = .ok k') : Q k'.sched := by
  have hset : ∀ s s' level, Q s → s.intrSetLevel level = .ok s' → Q s' := by
    intro s s' level hs hs'
    obtain ⟨-, rfl⟩ := Sched.intrSetLevel_eq_ok.mp hs'
    exact hlevel s level hs
  have htest : ∀ k s old, Q k.sched → semaphoreTest lab s old k = .ok k' → Q k'.sched := by
    intro k s old hs hs'
    rcases semaphoreTest_eq_ok.mp hs' with ⟨-, -, sched, hsched, rfl⟩ | ⟨-, sched, hsched, rfl⟩
    · exact hblock _ _ (hpush _ _ hs) hsched
    · exact hset _ _ _ hs hsched
  cases a
  case contextCheck | notHeldCheck | heldCheck | waitScan | waitInspect | waitNext | broadcast |
      sleepStart | sleepScan | sleepOuter | sleepOuterNext | sleepInner | sleepInnerNext |
      sleepReturn =>
    rcases exec_steers rfl hk with ⟨-, rfl⟩ | ⟨pushed, -, rfl⟩
    · exact h
    · exact hpush _ _ h
  all_goals simp only [exec, onSched_eq_ok, bind_eq_ok] at hk
  case threadCreate t priority function =>
    rcases threadCreate_eq_ok.mp hk with ⟨-, rfl⟩ | ⟨hfree, -, rfl⟩
    · exact h
    · exact hcreate _ _ _ _ _ h hfree
  case threadExit =>
    obtain ⟨s, hs, rfl⟩ := hk
    exact hexit _ _ h hs
  case idleStart =>
    obtain ⟨cur, hcur, hk⟩ := hk
    obtain ⟨-, rfl⟩ := Sched.threadCurrent_eq_ok.mp hcur
    cases pure_eq_ok.mp hk
    exact hidle rfl h
  case intrSetLevel level | threadBlockReturn level =>
    obtain ⟨s, hs, rfl⟩ := hk
    exact hset _ _ _ h hs
  case iret =>
    cases pure_eq_ok.mp hk
    exact hlevel _ _ h
  case threadUnblock t | createUnblock t =>
    obtain ⟨s, hs, rfl⟩ := hk
    exact hunblock _ _ _ h hs
  case threadBlock | idleLoop =>
    obtain ⟨s, hs, rfl⟩ := hk
    exact hblock _ _ (hpush _ _ (hlevel _ _ h)) hs
  case threadYield =>
    obtain ⟨s, hs, rfl⟩ := hk
    exact hyield _ _ h hs
  case storePriority priority =>
    obtain ⟨cur, hcur, hk⟩ := hk
    obtain ⟨-, rfl⟩ := Sched.threadCurrent_eq_ok.mp hcur
    cases pure_eq_ok.mp hk
    exact hpriority priority rfl h
  case semaphoreDown s =>
    obtain ⟨-, hk⟩ := semaphoreDown_eq_ok.mp hk
    exact htest _ _ _ (hlevel _ .off h) hk
  case semaphoreRetest s old => exact htest _ _ _ h hk
  case semaphoreUp s =>
    obtain ⟨sched, hs, rfl⟩ := semaphoreUp_eq_ok.mp hk
    have hoff := hlevel _ .off h
    split at hs
    · exact hset _ _ _ hoff hs
    · exact hunblock _ _ _ (hpush _ _ hoff) hs
  case setHolder l =>
    obtain ⟨_, -, hk⟩ := hk
    cases pure_eq_ok.mp hk
    exact h
  case semaphoreInit | clearHolder | waitReturn | waitLink =>
    cases pure_eq_ok.mp hk
    exact h
  case signalWaiter c =>
    cases pure_eq_ok.mp hk
    unfold signalWaiter
    split
    · exact h
    · exact hpush _ _ h
  case sleepStore total =>
    cases pure_eq_ok.mp hk
    exact hpush _ _ (hwake _ total h)
  case sleepLink before =>
    obtain ⟨k₁, hinsert, hk⟩ := hk
    simp only [listInsert, bind_eq_ok, check_eq_ok, pure_eq_ok, exists_const] at hinsert hk
    obtain ⟨-, rfl⟩ := hinsert
    subst hk
    exact hpush _ _ h
  case sleepDisable =>
    cases pure_eq_ok.mp hk
    exact hpush _ _ (hlevel _ .off h)
  case sleepBlock =>
    obtain ⟨s, hs, rfl⟩ := hk
    exact hblock _ _ (hpush _ _ h) hs

/-- An action keeps the invariant of the scheduler. -/
theorem exec_inv (h : k.sched.Inv) (hk : k.exec lab a = .ok k') : k'.sched.Inv := by
  refine exec_sched_rule (fun _ actions h => h.push actions) (fun _ level h => h.setLevel level)
    (fun _ _ h hs => h.threadBlock hs) (fun _ _ h hs => h.threadYield hs)
    (fun _ _ _ h hs => h.threadUnblock hs) (fun _ _ h hs => h.threadExit hs) ?_ ?_ ?_ ?_ h hk
  · intro s t priority function pushed hs hfree
    exact hs.creating hfree
  · intro _ hs
    exact ⟨⟨hs.magic, hs.status, hs.nodup⟩, hs.runningOk⟩
  · intro s total hs
    exact hs.modify (fun _ => rfl) (fun _ => rfl)
  · intro priority _ hs
    exact hs.modify (fun _ => rfl) (fun _ => rfl)

/-! ## The rest of the state after an action -/

/-- The semaphores after an action. -/
def semaAfter (lab : Lab) (k : Kernel) : Action → SemaId → Semaphore
  | .semaphoreInit s value => Function.update k.sema s { value := value, waiters := [] }
  | .semaphoreDown s | .semaphoreRetest s _ => Function.update k.sema s
      (if (k.sema s).value = 0 then
        { (k.sema s) with waiters := k.sched.enqueue lab (k.sema s).waiters k.running }
      else { (k.sema s) with value := (k.sema s).value - 1 })
  | .semaphoreUp s => Function.update k.sema s
      { value := ((k.sema s).value + 1) % 2 ^ 32, waiters := (k.sema s).waiters.tail }
  | _ => k.sema

/-- The holders of the locks after an action. -/
def holderAfter (k : Kernel) : Action → LockId → Option Tid
  | .setHolder l => Function.update k.holder l (some k.running)
  | .clearHolder l => Function.update k.holder l none
  | _ => k.holder

/-- The lists of the condition variables after an action. -/
def waitersAfter (k : Kernel) : Action → CondId → List Tid
  | .waitLink c before => Function.update k.waiters c
      (insertBefore (fun w => some w = before) k.running (k.waiters c))
  | .signalWaiter c => Function.update k.waiters c (k.waiters c).tail
  | _ => k.waiters

/-- The pointers of `timer_list` after an action. -/
def timerListAfter (k : Kernel) : Action → Memory Elem
  | .threadCreate t _ _ =>
      if (k.thread t).magic then k.timerList else k.timerList.clear (.thread t)
  | .sleepLink before => k.timerList.insert before (.thread k.running)
  | _ => k.timerList

/-- What an action adds to the trace. -/
def notesOf (k : Kernel) : Action → List Note
  | .semaphoreDown s | .semaphoreRetest s _ =>
      if (k.sema s).value = 0 then [] else [.down s k.running]
  | .semaphoreUp s => [.up s]
  | .waitLink c _ => [.enqueue c k.running]
  | .signalWaiter c => (k.waiters c).head?.toList.map (.signal c)
  | .waitReturn c => [.waitReturn c k.running]
  | .sleepLink _ => [.link k.running]
  | _ => []

/-- The parts of the state other than the scheduler after an action. -/
structure Framed (lab : Lab) (a : Action) (k k' : Kernel) : Prop where
  sema : k'.sema = k.semaAfter lab a
  holder : k'.holder = k.holderAfter a
  waiters : k'.waiters = k.waitersAfter a
  trace : k'.trace = k.notesOf a ++ k.trace
  timerList : k'.timerList = k.timerListAfter a
  held : k'.held = k.held
  ticks : k'.ticks = k.ticks

theorem semaphoreTest_framed {s : SemaId} {old : IntrLevel}
    (hk : k.semaphoreTest lab s old = .ok k') : Framed lab (.semaphoreRetest s old) k k' := by
  rcases semaphoreTest_eq_ok.mp hk with ⟨hvalue, -, sched, -, rfl⟩ | ⟨hvalue, sched, -, rfl⟩
  · refine ⟨?_, rfl, rfl, ?_, rfl, rfl, rfl⟩
    · simp only [semaAfter, hvalue, if_true, setSema]
    · simp only [notesOf, hvalue, if_true, setSema, List.nil_append]
  · refine ⟨?_, rfl, rfl, ?_, rfl, rfl, rfl⟩
    · simp only [semaAfter, hvalue, if_false, setSema, note]
    · simp only [notesOf, hvalue, if_false, setSema, note, List.singleton_append]

/-- An action with no effect on the rest of the state. -/
theorem Framed.of_eq (hsema : k.semaAfter lab a = k.sema) (hholder : k.holderAfter a = k.holder)
    (hwaiters : k.waitersAfter a = k.waiters) (hnotes : k.notesOf a = [])
    (htimer : k.timerListAfter a = k.timerList)
    (h : k'.sema = k.sema ∧ k'.holder = k.holder ∧ k'.waiters = k.waiters ∧ k'.trace = k.trace ∧
      k'.timerList = k.timerList ∧ k'.held = k.held ∧ k'.ticks = k.ticks) : Framed lab a k k' := by
  obtain ⟨h1, h2, h3, h4, h5, h6, h7⟩ := h
  refine ⟨h1.trans hsema.symm, h2.trans hholder.symm, h3.trans hwaiters.symm, ?_,
    h5.trans htimer.symm, h6, h7⟩
  rw [h4, hnotes, List.nil_append]

theorem exec_framed (hk : k.exec lab a = .ok k') : Framed lab a k k' := by
  cases a
  case contextCheck | notHeldCheck | heldCheck | waitScan | waitInspect | waitNext | broadcast |
      sleepStart | sleepScan | sleepOuter | sleepOuterNext | sleepInner | sleepInnerNext |
      sleepReturn =>
    refine Framed.of_eq rfl rfl rfl rfl rfl ?_
    rcases exec_steers rfl hk with ⟨-, rfl⟩ | ⟨pushed, -, rfl⟩
    · exact ⟨rfl, rfl, rfl, rfl, rfl, rfl, rfl⟩
    · exact ⟨rfl, rfl, rfl, rfl, rfl, rfl, rfl⟩
  all_goals simp only [exec, onSched_eq_ok, bind_eq_ok] at hk
  case semaphoreDown s =>
    obtain ⟨-, hk⟩ := semaphoreDown_eq_ok.mp hk
    have h := semaphoreTest_framed hk
    exact ⟨h.sema, h.holder, h.waiters, h.trace, h.timerList, h.held, h.ticks⟩
  case semaphoreRetest s old => exact semaphoreTest_framed hk
  case semaphoreUp s =>
    obtain ⟨sched, -, rfl⟩ := semaphoreUp_eq_ok.mp hk
    exact ⟨rfl, rfl, rfl, rfl, rfl, rfl, rfl⟩
  case semaphoreInit | clearHolder | waitReturn | waitLink =>
    cases pure_eq_ok.mp hk
    exact ⟨rfl, rfl, rfl, rfl, rfl, rfl, rfl⟩
  case setHolder l =>
    obtain ⟨cur, hcur, hk⟩ := hk
    obtain ⟨-, rfl⟩ := Sched.threadCurrent_eq_ok.mp hcur
    cases pure_eq_ok.mp hk
    exact ⟨rfl, rfl, rfl, rfl, rfl, rfl, rfl⟩
  case signalWaiter c =>
    cases pure_eq_ok.mp hk
    unfold signalWaiter
    split
    · rename_i hnil
      refine ⟨rfl, rfl, ?_, ?_, rfl, rfl, rfl⟩
      · simp [waitersAfter, hnil]
      · simp [notesOf, hnil]
    · rename_i w ws hcons
      refine ⟨rfl, rfl, ?_, ?_, rfl, rfl, rfl⟩
      · simp [waitersAfter, hcons, push, note, setWaiters]
      · simp [notesOf, hcons, push, note, setWaiters]
  case sleepLink before =>
    obtain ⟨k₁, hinsert, hk⟩ := hk
    simp only [listInsert, bind_eq_ok, check_eq_ok, pure_eq_ok, exists_const] at hinsert hk
    obtain ⟨-, rfl⟩ := hinsert
    subst hk
    exact ⟨rfl, rfl, rfl, rfl, rfl, rfl, rfl⟩
  case threadCreate t priority function =>
    rcases threadCreate_eq_ok.mp hk with ⟨hmagic, rfl⟩ | ⟨hmagic, -, rfl⟩
    · exact ⟨rfl, rfl, rfl, rfl, by simp only [timerListAfter, hmagic, if_true], rfl, rfl⟩
    · refine ⟨rfl, rfl, rfl, rfl, ?_, rfl, rfl⟩
      simp only [timerListAfter, hmagic, Bool.false_eq_true, if_false]
  all_goals refine Framed.of_eq rfl rfl rfl rfl rfl ?_
  case intrSetLevel | threadBlockReturn | threadUnblock | createUnblock | threadBlock | idleLoop |
      threadYield | threadExit | sleepBlock =>
    obtain ⟨s, -, rfl⟩ := hk
    exact ⟨rfl, rfl, rfl, rfl, rfl, rfl, rfl⟩
  case storePriority | idleStart =>
    obtain ⟨cur, -, hk⟩ := hk
    cases pure_eq_ok.mp hk
    exact ⟨rfl, rfl, rfl, rfl, rfl, rfl, rfl⟩
  case iret | sleepStore | sleepDisable =>
    cases pure_eq_ok.mp hk
    exact ⟨rfl, rfl, rfl, rfl, rfl, rfl, rfl⟩

/-! ## The timer interrupt -/

/-- The state in which `intr_handler` calls the handler of the timer. -/
def interrupted (k : Kernel) : Kernel :=
  { k with sched := { (k.sched.push [.iret]) with
      level := .off, inExternalIntr := true, yieldOnReturn := false } }

theorem intrHandler_eq_ok :
    k.intrHandler lab = .ok k' ↔ k.sched.inExternalIntr = false ∧ ∃ k₁,
      k.interrupted.timerInterrupt lab = .ok k₁ ∧ k₁.sched.level = .off ∧
      k₁.sched.inExternalIntr = true ∧
      if k₁.sched.yieldOnReturn = true then ∃ s,
        ({ k₁.sched with inExternalIntr := false } : Sched).threadYield lab = .ok s ∧
        k' = { k₁ with sched := s }
      else k' = { k₁ with sched := { k₁.sched with inExternalIntr := false } } := by
  have hcheck : k.intrHandler lab = (do
      check (k.sched.inExternalIntr = false) .intrHandlerContext
      let k ← k.interrupted.timerInterrupt lab
      check (k.sched.level = .off) .intrHandlerLevel
      check (k.sched.inExternalIntr = true) .intrHandlerContext
      let k := { k with sched := { k.sched with inExternalIntr := false } }
      if k.sched.yieldOnReturn then k.onSched (Sched.threadYield lab) else return k) := rfl
  rw [hcheck]
  simp only [bind_eq_ok, check_eq_ok, exists_const]
  refine and_congr_right fun _ => exists_congr fun k₁ => and_congr_right fun _ =>
    and_congr_right fun _ => and_congr_right fun _ => ?_
  split_ifs
  · exact onSched_eq_ok
  · simp only [pure_eq_ok, @eq_comm _ k']

/-- In the handler no thread is preempted. -/
theorem threadUnblock_handler {s s' : Sched} {t : Tid} (h : s.RunningOk)
    (hintr : s.inExternalIntr = true) (hs : s.threadUnblock lab t = .ok s') :
    ¬ s.Preempts lab t ∧ s.level = .off ∧ s' = { s.readying lab t with level := s.level } := by
  obtain ⟨-, hblocked, hs⟩ := (Sched.threadUnblock_eq_ok h).mp hs
  split_ifs at hs with hpreempts
  · obtain ⟨-, hno, -⟩ := Sched.threadYield_eq_ok.mp hs
    change s.inExternalIntr = false at hno
    rw [hintr] at hno
    cases hno
  · refine ⟨hpreempts, ?_, hs.2⟩
    cases hlevel : s.level with
    | off => rfl
    | on =>
      have hno := hs.1 hlevel
      rw [hintr] at hno
      cases hno

/-- What each round of the loop of `timer_interrupt` keeps holds when the loop ends. -/
theorem timerWake_rule {Q : Kernel → Prop}
    (hround : ∀ k hold s timerList, Q k → k.sched.threadUnblock lab hold = .ok s →
      Q { k.note (.wake hold k.ticks) with sched := s, timerList := timerList })
    {fuel : Nat} {e : Elem} (h : Q k) (hk : timerWake lab fuel e k = .ok k') : Q k' := by
  induction fuel generalizing e k with
  | zero =>
    cases e with
    | head => cases hk
    | tail => exact pure_eq_ok.mp hk ▸ h
    | thread hold =>
      simp only [timerWake] at hk
      split_ifs at hk
      exact pure_eq_ok.mp hk ▸ h
  | succ fuel ih =>
    cases e with
    | head => cases hk
    | tail => exact pure_eq_ok.mp hk ▸ h
    | thread hold =>
      simp only [timerWake] at hk
      split_ifs at hk
      · exact pure_eq_ok.mp hk ▸ h
      · simp only [bind_eq_ok, onSched_eq_ok, listPopFront, check_eq_ok, pure_eq_ok,
          exists_const] at hk
        obtain ⟨e', -, k₁, ⟨s, hs, rfl⟩, k₂, ⟨front, -, -, -, rfl⟩, hk⟩ := hk
        exact ih (hround k hold s _ h hs) hk

theorem timerInterrupt_eq_ok :
    k.timerInterrupt lab = .ok k' ↔ ∃ s e, k.sched.threadTick = .ok s ∧
      k.listBegin = .ok e ∧ timerWake lab s.allList.length e
        { k with ticks := toInt64 (k.ticks + 1), sched := s } = .ok k' := by
  simp only [timerInterrupt, bind_eq_ok, onSched_eq_ok]
  constructor
  · rintro ⟨_, ⟨s, hs, rfl⟩, e, he, hk⟩
    exact ⟨s, e, hs, he, hk⟩
  · rintro ⟨s, e, hs, he, hk⟩
    exact ⟨_, ⟨s, hs, rfl⟩, e, he, hk⟩

/-- The rule for properties of the scheduler under a timer interrupt. -/
theorem tick_sched_rule {Q : Sched → Prop} (hpush : ∀ s actions, Q s → Q (s.push actions))
    (hintr : ∀ s level intr yield ticks, Q s → Q { s with
      level := level, inExternalIntr := intr, yieldOnReturn := yield, threadTicks := ticks })
    (hyield : ∀ s s', Q s → s.threadYield lab = .ok s' → Q s')
    (hunblock : ∀ s s' t, Q s → s.threadUnblock lab t = .ok s' → Q s')
    (h : Q k.sched) (hk : k.intrHandler lab = .ok k') : Q k'.sched := by
  obtain ⟨-, k₁, hk₁, -, -, hk'⟩ := intrHandler_eq_ok.mp hk
  obtain ⟨s, e, hs, -, hwake⟩ := timerInterrupt_eq_ok.mp hk₁
  obtain ⟨-, -, rfl⟩ := Sched.threadTick_eq_ok.mp hs
  have hinterrupted : Q k.interrupted.sched :=
    hintr _ .off true false k.sched.threadTicks (hpush _ [.iret] h)
  have hwoken : Q k₁.sched := by
    refine @timerWake_rule _ _ lab (fun k => Q k.sched) ?_ _ _ ?_ hwake
    · intro k hold s timerList hk hs
      exact hunblock _ _ _ hk hs
    · exact hintr _ _ _ _ _ hinterrupted
  have hleave : Q { k₁.sched with inExternalIntr := false } := hintr _ _ _ _ _ hwoken
  split_ifs at hk'
  · obtain ⟨s, hs, rfl⟩ := hk'
    exact hyield _ _ hleave hs
  · subst hk'
    exact hleave

/-- What the loop of `timer_interrupt` does besides changing `timer_list`, from `k` to `k₁`. -/
structure Waking (woken : List Tid) (k k₁ : Kernel) : Prop where
  inv : k₁.sched.Inv
  moves : Sched.Moves woken False [] k.sched k₁.sched
  running : k₁.running = k.running
  inExternalIntr : k₁.sched.inExternalIntr = true
  level : k₁.sched.level = .off
  sema : k₁.sema = k.sema
  holder : k₁.holder = k.holder
  waiters : k₁.waiters = k.waiters
  held : k₁.held = k.held
  ticks : k₁.ticks = k.ticks
  trace : k₁.trace = (woken.map fun t => .wake t k.ticks).reverse ++ k.trace

theorem timerWake_waking {fuel : Nat} {e : Elem} (h : k.sched.Inv)
    (hintr : k.sched.inExternalIntr = true) (hlevel : k.sched.level = .off)
    (hk : timerWake lab fuel e k = .ok k') : ∃ woken, Waking woken k k' := by
  refine @timerWake_rule k k' lab (fun k₁ => ∃ woken, Waking woken k k₁) ?_ fuel e ?_ hk
  · rintro k₁ hold s timerList ⟨woken, hw⟩ hs
    have hmoves := hw.inv.threadUnblock_moves hs
    have hinv := hw.inv.threadUnblock hs
    obtain ⟨-, hoff, rfl⟩ := threadUnblock_handler hw.inv.runningOk hw.inExternalIntr hs
    refine ⟨woken ++ [hold], hinv, hw.moves.trans hw.running hmoves, hw.running,
      hw.inExternalIntr, hoff, hw.sema, hw.holder, hw.waiters, hw.held, hw.ticks, ?_⟩
    simp [note, hw.trace, hw.ticks]
  · exact ⟨[], h, Sched.Moves.refl h.runningOk, rfl, hintr, hlevel, rfl, rfl, rfl, rfl, rfl, rfl⟩

/-- What a timer interrupt does besides changing `timer_list`. -/
structure Ticked (woken : List Tid) (k k' : Kernel) : Prop where
  inv : k'.sched.Inv
  moves : Sched.Moves woken False [] k.sched k'.sched
  sema : k'.sema = k.sema
  holder : k'.holder = k.holder
  waiters : k'.waiters = k.waiters
  held : k'.held = k.held
  ticks : k'.ticks = toInt64 (k.ticks + 1)
  trace : k'.trace = (woken.map fun t => .wake t k'.ticks).reverse ++ k.trace

/-- The state in which the loop of `timer_interrupt` starts. -/
def ticking (k : Kernel) : Kernel :=
  { k.interrupted with
    ticks := toInt64 (k.ticks + 1)
    sched := { k.interrupted.sched with
      threadTicks := k.sched.threadTicks + 1
      yieldOnReturn := if k.sched.threadTicks + 1 ≥ timeSlice then true else false } }

theorem ticking_inv (h : k.sched.Inv) : k.ticking.sched.Inv := by
  have hpush := h.push [.iret]
  exact ⟨⟨hpush.magic, hpush.status, hpush.nodup⟩, hpush.runningOk⟩

/-- A timer interrupt is the loop of `timer_interrupt`, and a yield when the time slice is over. -/
theorem intrHandler_waking (h : k.sched.Inv) (hk : k.intrHandler lab = .ok k') :
    k.sched.inExternalIntr = false ∧ ∃ e k₁, k.listBegin = .ok e ∧
      timerWake lab k.sched.allList.length e k.ticking = .ok k₁ ∧ k'.timerList = k₁.timerList ∧
      ∀ woken, Waking woken k.ticking k₁ → Ticked woken k k' := by
  obtain ⟨hintr, k₁, hk₁, -, -, hk'⟩ := intrHandler_eq_ok.mp hk
  obtain ⟨s, e, hs, he, hwake⟩ := timerInterrupt_eq_ok.mp hk₁
  obtain ⟨-, -, rfl⟩ := Sched.threadTick_eq_ok.mp hs
  have htimer : k'.timerList = k₁.timerList := by
    split_ifs at hk'
    · obtain ⟨s, -, rfl⟩ := hk'
      rfl
    · rw [hk']
  refine ⟨hintr, e, k₁, he, hwake, htimer, ?_⟩
  intro woken hw
  have hmoves : Sched.Moves woken False [] k.sched
      { k₁.sched with inExternalIntr := false } := by
    have hm := hw.moves
    have hleave : Sched.Moves woken False [] (k.sched.push [.iret])
        { k₁.sched with inExternalIntr := false } :=
      ⟨hm.magic, hm.priority, hm.wakeUpTick, hm.stack, hm.stackRunning, hm.stackBlocked,
        hm.blocked, hm.dying, fun _ => hw.level, hm.allList, hm.idleThread, hm.initialThread,
        hintr.symm⟩
    exact (Sched.Moves.pushLevel h.runningOk LevelOnly.singleton_iret).trans rfl hleave
  have hinv₁ : ({ k₁.sched with inExternalIntr := false } : Sched).Inv :=
    ⟨⟨hw.inv.magic, hw.inv.status, hw.inv.nodup⟩, hw.inv.runningOk⟩
  split_ifs at hk'
  · obtain ⟨s, hs, rfl⟩ := hk'
    refine ⟨hinv₁.threadYield hs, ?_, hw.sema, hw.holder, hw.waiters, hw.held, hw.ticks, ?_⟩
    · have hyield := hmoves.trans hw.running (hinv₁.threadYield_moves hs)
      rwa [List.append_nil] at hyield
    · rw [hw.trace, ← hw.ticks]
      rfl
  · subst hk'
    refine ⟨hinv₁, hmoves, hw.sema, hw.holder, hw.waiters, hw.held, hw.ticks, ?_⟩
    rw [hw.trace, ← hw.ticks]
    rfl

theorem intrHandler_ticked (h : k.sched.Inv) (hk : k.intrHandler lab = .ok k') :
    ∃ woken, Ticked woken k k' := by
  obtain ⟨-, e, k₁, -, hwake, -, hticked⟩ := intrHandler_waking h hk
  obtain ⟨woken, hw⟩ := timerWake_waking (ticking_inv h) rfl rfl hwake
  exact ⟨woken, hticked woken hw⟩

/-- While no thread is asleep, a timer interrupt wakes none. -/
theorem intrHandler_ticked_nil (h : k.sched.Inv) (hempty : k.timerList.next .head = some .tail)
    (hk : k.intrHandler lab = .ok k') : Ticked [] k k' ∧ k'.timerList = k.timerList := by
  obtain ⟨-, e, k₁, he, hwake, htimer, hticked⟩ := intrHandler_waking h hk
  simp only [listBegin, hempty, pure_eq_ok] at he
  subst he
  have hsame : k.ticking = k₁ := by
    cases hlen : k.sched.allList.length <;> rw [hlen] at hwake <;> exact pure_eq_ok.mp hwake
  subst hsame
  have hinv := ticking_inv h
  exact ⟨hticked [] ⟨hinv, .refl hinv.runningOk, rfl, rfl, rfl, rfl, rfl, rfl, rfl, rfl, rfl⟩, htimer⟩

/-- Every step keeps the invariant of the scheduler. -/
theorem step_inv {e : Event} (h : k.sched.Inv) (hk : k.step lab e = .ok k') : k'.sched.Inv := by
  cases e with
  | act =>
    simp only [step] at hk
    split at hk
    · exact pure_eq_ok.mp hk ▸ h
    · exact exec_inv h.pop hk
  | call op => exact pure_eq_ok.mp hk ▸ h.push _
  | tick =>
    obtain ⟨woken, hw⟩ := intrHandler_ticked h hk
    exact hw.inv

/-! ## Stacks -/

/-- The state in which the action on top of the running thread's stack is executed. -/
abbrev popped (k : Kernel) : Kernel := { k with sched := k.sched.pop }

theorem step_act {rest : List Action} (hstack : k.stack k.running = a :: rest) :
    k.step lab .act = k.popped.exec lab a := by
  simp only [step, hstack]

theorem popped_stack_running {rest : List Action} (hstack : k.stack k.running = a :: rest) :
    k.popped.stack k.running = rest := by
  have htail : k.popped.stack k.running = (k.stack k.running).tail := by
    simp [stack]
  rw [htail, hstack, List.tail_cons]

theorem popped_stack_of_ne {u : Tid} (hu : u ≠ k.running) : k.popped.stack u = k.stack u := by
  simp [stack, hu]

/-- The stacks after an action: the running thread has replaced the action by what it leaves to
do, and no other stack changes, except that of a new thread. -/
theorem exec_stack (h : k.sched.Inv) (hk : k.exec lab a = .ok k') :
    (∀ u, u ≠ k.running → k'.stack u = k.stack u ∨ ∃ priority function,
      a = .threadCreate u priority function ∧ (k.thread u).magic = false ∧
      k'.stack u = Sched.startStack function ∧ (k'.thread u).magic = true) ∧
    ((∃ ns pushed, LevelOnly ns ∧ Conts a pushed ∧
      k'.stack k.running = ns ++ pushed ++ k.stack k.running) ∨
      a = .threadExit ∧ k'.stack k.running = []) := by
  cases ha : a.plain with
  | true =>
    obtain ⟨pushed, hconts, -, hmoves⟩ := exec_moves h ha hk
    obtain ⟨ns, hns, hstack⟩ := hmoves.stackRunning
    exact ⟨fun u hu => Or.inl (hmoves.stack u hu), Or.inl ⟨ns, pushed, hns, hconts, hstack⟩⟩
  | false =>
    cases a
    case threadCreate t priority function =>
      rcases threadCreate_eq_ok.mp hk with ⟨-, rfl⟩ | ⟨hfree, -, rfl⟩
      · exact ⟨fun u _ => Or.inl rfl, Or.inl ⟨[], [], by simp, .done _ rfl, rfl⟩⟩
      · have hne : k.running ≠ t := by
          intro heq
          rw [← heq, h.runningOk.1] at hfree
          cases hfree
        refine ⟨?_, Or.inl ⟨[], _, by simp, .create t priority function, ?_⟩⟩
        · intro u hu
          by_cases hut : u = t
          · subst hut
            exact Or.inr ⟨priority, function, rfl, hfree,
              congrArg Thread.stack (Sched.creating_thread_self hne),
              congrArg Thread.magic (Sched.creating_thread_self hne)⟩
          · refine Or.inl ((congrArg Thread.stack (Sched.creating_thread_of_ne hut)).trans ?_)
            simp [hu]
        · refine (congrArg Thread.stack (Sched.creating_thread_of_ne hne)).trans ?_
          simp
    case threadExit =>
      obtain ⟨s, hs, rfl⟩ := onSched_eq_ok.mp hk
      have hexits := h.threadExit_exits hs
      refine ⟨fun u hu => Or.inl (hexits.stack u hu), ?_⟩
      rcases hexits.page with hpage | ⟨-, hkeep, -⟩
      · exact Or.inr ⟨rfl, congrArg Thread.stack hpage⟩
      · exact Or.inl ⟨[], [], by simp, .done _ rfl, hkeep⟩
    case idleStart =>
      obtain ⟨-, rfl⟩ := idleStart_eq_ok.mp hk
      exact ⟨fun u _ => Or.inl rfl, Or.inl ⟨[], [], by simp, .done _ rfl, rfl⟩⟩
    all_goals cases ha

theorem act_stack {rest : List Action} (h : k.sched.Inv) (hstack : k.stack k.running = a :: rest)
    (hk : k.step lab .act = .ok k') :
    (∀ u, u ≠ k.running → k'.stack u = k.stack u ∨ ∃ priority function,
      a = .threadCreate u priority function ∧ (k.thread u).magic = false ∧
      k'.stack u = Sched.startStack function ∧ (k'.thread u).magic = true) ∧
    ((∃ ns pushed, LevelOnly ns ∧ Conts a pushed ∧
      k'.stack k.running = ns ++ pushed ++ rest) ∨ a = .threadExit ∧ k'.stack k.running = []) := by
  rw [step_act hstack] at hk
  obtain ⟨hother, hrunning⟩ := exec_stack h.pop hk
  refine ⟨?_, ?_⟩
  · intro u hu
    rcases hother u hu with heq | ⟨priority, function, ha, hfree, heq⟩
    · exact Or.inl (heq.trans (popped_stack_of_ne hu))
    · refine Or.inr ⟨priority, function, ha, ?_, heq⟩
      simpa [thread, hu] using hfree
  · rcases hrunning with ⟨ns, pushed, hns, hconts, heq⟩ | hexit
    · refine Or.inl ⟨ns, pushed, hns, hconts, heq.trans ?_⟩
      exact congrArg (ns ++ pushed ++ ·) (popped_stack_running hstack)
    · exact Or.inr hexit

/-- A call puts the body of the function on the stack of the running thread. -/
theorem call_stack {op : Op} (he : k.Enabled (.call op)) (hk : k.step lab (.call op) = .ok k') :
    k'.stack k.running = op.body lab k.running ∧ ∀ t, t ≠ k.running → k'.stack t = k.stack t := by
  have hempty : (k.sched.thread k.sched.running).stack = [] := he
  cases pure_eq_ok.mp hk
  refine ⟨by simp [stack, hempty], ?_⟩
  intro t ht
  simp [stack, ht]

/-- A timer interrupt only adds actions that set the interrupt level. -/
theorem tick_stack (h : k.sched.Inv) (hk : k.step lab .tick = .ok k') (t : Tid) :
    ∃ ns, LevelOnly ns ∧ k'.stack t = ns ++ k.stack t := by
  obtain ⟨woken, hw⟩ := intrHandler_ticked h hk
  by_cases ht : t = k.running
  · subst ht
    obtain ⟨ns, hns, heq⟩ := hw.moves.stackRunning
    refine ⟨ns, hns, ?_⟩
    rw [show k'.stack k.running = _ from heq, List.append_nil]
  · exact ⟨[], LevelOnly.nil, hw.moves.stack t ht⟩

/-- The rule for properties of the stacks: what holds of the empty stack, of the stack of a new
thread and of the body of a call, and is kept by each action, holds of all stacks. -/
theorem step_stack_rule {P : Tid → List Action → Prop} (hempty : ∀ t, P t [])
    (hstart : ∀ t priority function, .threadCreate t priority function ∈ k.stack k.running →
      P t (Sched.startStack function))
    (hlevel : ∀ t a st, a.setsLevel = true → P t st → P t (a :: st))
    (hact : ∀ t a pushed rest, P t (a :: rest) → Conts a pushed → P t (pushed ++ rest))
    {e : Event} (hcall : ∀ t op, e = .call op → P t (Op.body lab t op)) (h : k.sched.Inv) (he : k.Enabled e)
    (hk : k.step lab e = .ok k') (hP : ∀ t, P t (k.stack t)) : ∀ t, P t (k'.stack t) := by
  have hnoise : ∀ t ns st, LevelOnly ns → P t st → P t (ns ++ st) := by
    intro t ns st hns hst
    induction ns with
    | nil => exact hst
    | cons a ns ih =>
      exact hlevel t a _ (hns a (by simp)) (ih fun b hb => hns b (by simp [hb]))
  cases e with
  | act =>
    obtain ⟨a, rest, hstack⟩ := List.exists_cons_of_ne_nil he
    obtain ⟨hother, hrunning⟩ := act_stack h hstack hk
    intro t
    by_cases ht : t = k.running
    · subst ht
      rcases hrunning with ⟨ns, pushed, hns, hconts, heq⟩ | ⟨-, heq⟩
      · have hcur := hP k.running
        rw [hstack] at hcur
        rw [heq, List.append_assoc]
        exact hnoise _ _ _ hns (hact _ _ _ _ hcur hconts)
      · rw [heq]
        exact hempty _
    · rcases hother t ht with heq | ⟨priority, _, rfl, -, heq, -⟩
      · rw [heq]
        exact hP t
      · rw [heq]
        exact hstart t priority _ (by simp [hstack])
  | call op =>
    obtain ⟨hrunning, hother⟩ := call_stack he hk
    intro t
    by_cases ht : t = k.running
    · subst ht
      rw [hrunning]
      exact hcall k.running op rfl
    · rw [hother t ht]
      exact hP t
  | tick =>
    intro t
    obtain ⟨ns, hns, heq⟩ := tick_stack h hk t
    rw [heq]
    exact hnoise t ns _ hns (hP t)

/-! ## Runs from boot -/

theorem boot_inv (init : Nat → Nat) : (boot init).sched.Inv := by
  refine ⟨⟨?_, ?_, List.nodup_nil⟩, ?_, ?_⟩
  · intro t ht
    cases ht
  · intro t ht
    cases ht
  · simp [boot]
  · simp [boot]

/-- The states of a run of Lab 2 from boot. -/
abbrev Lab2Reachable (init : Nat → Nat) : Kernel → Prop :=
  Reachable (step .lab2) Enabled (boot init)

/-- The state after a sequence of events from boot. -/
def runFrom (lab : Lab) (init : Nat → Nat) (events : List Event) : Option Kernel :=
  run (step lab) (fun k e => decide (k.Enabled e)) (boot init) events

/-- The assertion that fails in a step, if one does. -/
def failure (lab : Lab) (e : Event) (k : Kernel) : Option Panic :=
  match k.step lab e with
  | .ok _ => none
  | .error p => some p

theorem failure_eq_some {e : Event} {p : Panic} :
    k.failure lab e = some p ↔ k.step lab e = .error p := by
  unfold failure
  cases k.step lab e <;> simp

/-- `thread_start`, up to its return in `main`. -/
def starting : List Event := List.replicate 17 .act

theorem reachable_of_runFrom {init : Nat → Nat} {events : List Event}
    (h : runFrom lab init events = some k) : Reachable (step lab) Enabled (boot init) k :=
  reachable_of_run (fun _ _ he => of_decide_eq_true he) .start h

end Kernel

end CSE130.Pintos
