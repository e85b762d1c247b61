import CSE130.Pintos.KernelStep

/-!
# The interrupt level after a sleep

`timer_msleep`, `timer_usleep` and `timer_nsleep` (`devices/timer.c`) call `real_time_sleep`, which
asserts that interrupts are enabled. `timer_sleep` disables them before it blocks. What the level is
when a call returns is read off the stack of the thread, whatever other threads do in between.
-/

namespace CSE130.Pintos

open CSE130.Library

/-- `TIMER_FREQ`. -/
def timerFreq : Int := 100

/-- A call of a function of `timer.c` that sleeps. -/
inductive SleepCall where
  | timerSleep (ticks : Int)
  | timerMsleep (ms : Int)
  | timerUsleep (us : Int)
  | timerNsleep (ns : Int)
  deriving DecidableEq, Repr

namespace SleepCall

/-- The arguments of `real_time_sleep`. -/
def realTime : SleepCall → Option (Int × Int)
  | timerSleep _ => none
  | timerMsleep ms => some (ms, 1000)
  | timerUsleep us => some (us, 1000 * 1000)
  | timerNsleep ns => some (ns, 1000 * 1000 * 1000)

/-- The ticks to sleep. `real_time_sleep` rounds them towards zero. -/
def ticks : SleepCall → Int
  | timerSleep ticks => ticks
  | timerMsleep ms => (toInt64 (ms * timerFreq)).tdiv 1000
  | timerUsleep us => (toInt64 (us * timerFreq)).tdiv (1000 * 1000)
  | timerNsleep ns => (toInt64 (ns * timerFreq)).tdiv (1000 * 1000 * 1000)

end SleepCall

/-- The assertions that can fail in a run with such calls. -/
inductive SleepPanic where
  | kernel (p : Panic)
  /-- `ASSERT (intr_get_level () == INTR_ON)` in `real_time_sleep`. -/
  | realTimeSleepLevel
  /-- `ASSERT (denom % 1000 == 0)` in `real_time_delay`. -/
  | realTimeDelayDenom
  deriving DecidableEq, Repr

/-- The kernel, and the calls that each thread has made. -/
structure SleepRun where
  kernel : Kernel
  calls : Tid → List SleepCall

inductive SleepEvent where
  | kernel (e : Event)
  /-- The code of the running thread calls a function that sleeps. -/
  | sleep (c : SleepCall)
  deriving DecidableEq, Repr

namespace SleepRun

/-- A step of the kernel. -/
def kernelStep (lab : Lab) (e : Event) (k : Kernel) : Except SleepPanic Kernel :=
  (k.step lab e).mapError .kernel

/-- `real_time_delay` (`timer.c:282-289` in Lab 1, `timer.c:293-300` in Lab 2), whose loop leaves
the state as it is. -/
def realTimeDelay (denom : Int) (k : Kernel) : Except SleepPanic Kernel := do
  check (denom.tmod 1000 = 0) SleepPanic.realTimeDelayDenom
  return k

/-- `real_time_sleep` (`timer.c:254-279` in Lab 1, `timer.c:265-290` in Lab 2), of which `ticks` is
the number of ticks. -/
def realTimeSleep (lab : Lab) (ticks denom : Int) (k : Kernel) : Except SleepPanic Kernel := do
  check (k.sched.level = .on) SleepPanic.realTimeSleepLevel
  if ticks > 0 then kernelStep lab (.call (.timerSleep ticks)) k else realTimeDelay denom k

/-- What the running thread does when it calls the function. -/
def callSleep (lab : Lab) (c : SleepCall) (k : Kernel) : Except SleepPanic Kernel :=
  match c.realTime with
  | none => kernelStep lab (.call (.timerSleep c.ticks)) k
  | some (_, denom) => realTimeSleep lab c.ticks denom k

def step (lab : Lab) (s : SleepRun) : SleepEvent → Except SleepPanic SleepRun
  | .kernel e => do
    let k ← kernelStep lab e s.kernel
    return { s with kernel := k }
  | .sleep c => do
    let k ← callSleep lab c s.kernel
    let cur := s.kernel.running
    return { kernel := k, calls := Function.update s.calls cur (s.calls cur ++ [c]) }

/-- The code of `t` calls no other functions; the other threads do what they like. -/
def Admits (t : Tid) (s : SleepRun) : SleepEvent → Prop
  | .kernel (.call op) => s.kernel.Enabled (.call op) ∧ s.kernel.running ≠ t
  | .kernel .act => s.kernel.Enabled .act
  | .kernel .tick => s.kernel.Enabled .tick
  | .sleep _ => s.kernel.stack s.kernel.running = []

instance (t : Tid) (s : SleepRun) : (e : SleepEvent) → Decidable (s.Admits t e)
  | .kernel (.call op) =>
    inferInstanceAs (Decidable (s.kernel.Enabled (.call op) ∧ s.kernel.running ≠ t))
  | .kernel .act => inferInstanceAs (Decidable (s.kernel.Enabled .act))
  | .kernel .tick => inferInstanceAs (Decidable (s.kernel.Enabled .tick))
  | .sleep _ => inferInstanceAs (Decidable (s.kernel.stack s.kernel.running = []))

/-- The run begins. -/
def start (k : Kernel) : SleepRun where
  kernel := k
  calls _ := []

end SleepRun

/-! ## The level with which a call returns -/

/-- The interrupt level after an action of a call that sleeps. From the store of the wake-up tick on
the call is going to disable interrupts. -/
def Action.levelAfter (level : IntrLevel) : Action → IntrLevel
  | .intrSetLevel level' => level'
  | .iret => .on
  | .sleepStart ticks => if ticks ≤ 0 then level else .off
  | .sleepStore _ | .sleepScan _ | .sleepOuter _ _ | .sleepOuterNext _ _ | .sleepInner _
  | .sleepInnerNext _ | .sleepLink _ | .sleepDisable | .sleepBlock => .off
  | _ => level

/-- The level once all actions on the stack have been executed. -/
def returnLevel (level : IntrLevel) (st : List Action) : IntrLevel :=
  st.foldl Action.levelAfter level

/-- The actions of a call that sleeps, and of interrupts. -/
def Action.ofSleep : Action → Bool
  | .intrSetLevel _ | .iret | .sleepStart _ | .sleepStore _ | .sleepScan _ | .sleepOuter _ _
  | .sleepOuterNext _ _ | .sleepInner _ | .sleepInnerNext _ | .sleepLink _ | .sleepDisable
  | .sleepBlock | .sleepReturn => true
  | _ => false

/-- The actions that do not end the call. -/
def Action.leadsToBlock : Action → Bool
  | .sleepStore _ | .sleepScan _ | .sleepOuter _ _ | .sleepOuterNext _ _ | .sleepInner _
  | .sleepInnerNext _ | .sleepLink _ | .sleepDisable => true
  | _ => false

namespace Kernel

variable {k k' : Kernel} {lab : Lab} {a b : Action} {t : Tid} {st rest : List Action}
  {level : IntrLevel}

/-- The interrupt level of a thread; one that does not run is switched to with interrupts off. -/
def levelOf (k : Kernel) (t : Tid) : IntrLevel := if k.running = t then k.sched.level else .off

theorem returnLevel_append {ns : List Action} :
    returnLevel level (ns ++ st) = returnLevel (returnLevel level ns) st :=
  List.foldl_append

theorem leadsToBlock_levelAfter (ha : a.leadsToBlock = true) : a.levelAfter level = .off := by
  cases a <;> first | rfl | cases ha

/-- Such an action is followed by another one, or by the call of `thread_block`. -/
theorem Conts.leadsToBlock {pushed : List Action} (ha : a.leadsToBlock = true)
    (h : Conts a pushed) : ∃ b, pushed = [b] ∧ b.ofSleep = true ∧ ∀ l, b.levelAfter l = .off := by
  have hgoes : a.goesOn = true := by cases a <;> first | rfl | cases ha
  cases h
  case done hno =>
    rw [hgoes] at hno
    cases hno
  all_goals first | exact ⟨_, rfl, rfl, fun _ => rfl⟩ | cases ha

theorem LevelOnly.ofSleep {ns : List Action} (h : LevelOnly ns) : ∀ a ∈ ns, a.ofSleep = true := by
  intro a ha
  have hset := h a ha
  cases a <;> first | rfl | cases hset

/-- After an action of a call that sleeps, the call will return with the level that it would have
returned with before. -/
theorem act_returnLevel (h : k.sched.Inv) (hstack : k.stack k.running = a :: rest)
    (ha : a.ofSleep = true) (hk : k.step lab .act = .ok k') :
    ∃ pushed, k'.stack k.running = pushed ++ rest ∧ (∀ b ∈ pushed, b.ofSleep = true) ∧
      returnLevel (k'.levelOf k.running) (pushed ++ rest) =
        returnLevel (a.levelAfter k.sched.level) rest := by
  have hpopped := popped_stack_running hstack
  rw [step_act hstack] at hk
  cases hleads : a.leadsToBlock with
  | true =>
    have hplain : a.plain = true := by cases a <;> first | rfl | cases hleads
    obtain ⟨pushed, hconts, -, hmoves⟩ := exec_moves h.pop hplain hk
    obtain ⟨ns, hns, heq⟩ := hmoves.stackRunning
    obtain ⟨b, rfl, hb, hoff⟩ := Conts.leadsToBlock hleads hconts
    have hk'stack : k'.stack k.running = ns ++ [b] ++ rest := heq.trans (by rw [← hpopped]; rfl)
    refine ⟨ns ++ [b], hk'stack, ?_, ?_⟩
    · intro c hc
      rcases List.mem_append.mp hc with hc | hc
      · exact LevelOnly.ofSleep hns c hc
      · rwa [List.mem_singleton.mp hc]
    · rw [returnLevel_append, returnLevel_append, leadsToBlock_levelAfter hleads]
      simp only [returnLevel, List.foldl_cons, List.foldl_nil, hoff]
  | false =>
    have hstay : returnLevel (k'.levelOf k.running) rest =
          returnLevel (a.levelAfter k.sched.level) rest → k'.stack k.running = rest →
        ∃ pushed, k'.stack k.running = pushed ++ rest ∧ (∀ b ∈ pushed, b.ofSleep = true) ∧
          returnLevel (k'.levelOf k.running) (pushed ++ rest) =
            returnLevel (a.levelAfter k.sched.level) rest :=
      fun hlevel hrest => ⟨[], hrest, by simp, hlevel⟩
    cases a <;> try (first | (cases ha; done) | (cases hleads; done))
    case intrSetLevel l =>
      obtain ⟨s, hs, rfl⟩ := onSched_eq_ok.mp hk
      obtain ⟨-, rfl⟩ := Sched.intrSetLevel_eq_ok.mp hs
      exact hstay (congrArg (returnLevel · rest) (if_pos rfl)) hpopped
    case iret =>
      cases pure_eq_ok.mp hk
      exact hstay (congrArg (returnLevel · rest) (if_pos rfl)) hpopped
    case sleepReturn =>
      cases pure_eq_ok.mp hk
      exact hstay (congrArg (returnLevel · rest) (if_pos rfl)) hpopped
    case sleepStart ticks =>
      simp only [exec, sleepStart, bind_eq_ok] at hk
      obtain ⟨-, -, hk⟩ := hk
      split_ifs at hk with hticks
      · cases pure_eq_ok.mp hk
        rw [Action.levelAfter, if_pos hticks] at hstay ⊢
        exact hstay (congrArg (returnLevel · rest) (if_pos rfl)) hpopped
      · cases pure_eq_ok.mp hk
        refine ⟨[.sleepStore (toInt64 (k.popped.ticks + ticks))], ?_, by simp [Action.ofSleep], ?_⟩
        · rw [← hpopped]
          simp [stack]
        · rw [Action.levelAfter, if_neg hticks]
          rfl
    case sleepBlock =>
      obtain ⟨pushed, hconts, -, hmoves⟩ := exec_moves h.pop rfl hk
      have hoff : k'.levelOf k.running = .off := by
        have hlevel : k'.sched.level = .off := hmoves.level (Or.inr trivial)
        rw [levelOf, hlevel, ite_self]
      cases hconts with
      | done _ hno => cases hno
      | sleepBlock =>
        refine ⟨[.sleepReturn], ?_, by simp [Action.ofSleep], ?_⟩
        · rw [← hpopped]
          exact hmoves.stackBlocked trivial
        · rw [hoff]
          rfl

/-- A timer interrupt leaves the return from it on the stack of the running thread. -/
theorem tick_stack_running (h : k.sched.Inv) (hk : k.step lab .tick = .ok k') :
    ∃ ns, LevelOnly ns ∧ k'.stack k.running = ns ++ .iret :: k.stack k.running := by
  obtain ⟨hintr, k₁, hk₁, hlevel, -, hk'⟩ := intrHandler_eq_ok.mp hk
  obtain ⟨s, e, hs, -, hwake⟩ := timerInterrupt_eq_ok.mp hk₁
  obtain ⟨-, -, rfl⟩ := Sched.threadTick_eq_ok.mp hs
  obtain ⟨woken, hw⟩ := timerWake_waking (ticking_inv h) rfl rfl hwake
  obtain ⟨ns, hns, hstack⟩ := hw.moves.stackRunning
  have hpushed : (k.ticking.thread k.running).stack = .iret :: k.stack k.running := by
    simp [ticking, interrupted, thread, stack]
  have hk₁stack : k₁.stack k.running = ns ++ .iret :: k.stack k.running := by
    rw [← hpushed, ← List.append_nil ns]
    exact hstack
  split_ifs at hk'
  · obtain ⟨s, hs, rfl⟩ := hk'
    have hinv₁ : ({ k₁.sched with inExternalIntr := false } : Sched).Inv :=
      ⟨⟨hw.inv.magic, hw.inv.status, hw.inv.nodup⟩, hw.inv.runningOk⟩
    obtain ⟨ns', hns', hstack'⟩ := (hinv₁.threadYield_moves hs).stackRunning
    have hyield : (s.thread k₁.running).stack = ns' ++ [] ++ k₁.stack k₁.running := hstack'
    rw [show k₁.running = k.running from hw.running, hk₁stack, List.append_nil,
      ← List.append_assoc] at hyield
    exact ⟨ns' ++ ns, hns'.append hns, hyield⟩
  · subst hk'
    exact ⟨ns, hns, hk₁stack⟩

theorem tick_level (h : k.sched.Inv) (hk : k.step lab .tick = .ok k')
    (hswitch : k'.running ≠ k.running) : k'.sched.level = .off := by
  obtain ⟨woken, hw⟩ := intrHandler_ticked h hk
  exact hw.moves.level (Or.inl hswitch)

end Kernel

/-! ## Runs of a thread that only sleeps -/

namespace SleepRun

variable {lab : Lab} {s s' : SleepRun} {t : Tid} {c : SleepCall} {k k' : Kernel}

/-- The level that the calls so far leave a thread with. -/
def levelAfterCalls (calls : List SleepCall) : IntrLevel :=
  if ∀ c ∈ calls, c.ticks ≤ 0 then .on else .off

/-- Thread `t` will have that level once it returns. -/
structure LevelInv (t : Tid) (s : SleepRun) : Prop where
  sched : s.kernel.sched.Inv
  magic : (s.kernel.thread t).magic = true
  ofSleep : ∀ a ∈ s.kernel.stack t, a.ofSleep = true
  level : returnLevel (s.kernel.levelOf t) (s.kernel.stack t) = levelAfterCalls (s.calls t)

theorem kernelStep_eq_ok {e : Event} : kernelStep lab e k = .ok k' ↔ k.step lab e = .ok k' := by
  rw [kernelStep]
  cases k.step lab e <;> simp [Except.mapError]

/-- A step of another thread. -/
theorem levelOf_of_ne (ht : t ≠ k.running) (hoff : k'.running ≠ k.running → k'.sched.level = .off) :
    k'.levelOf t = k.levelOf t := by
  have hold : k.levelOf t = .off := if_neg (Ne.symm ht)
  rw [hold, Kernel.levelOf]
  split_ifs with heq
  · exact hoff fun hsame => ht (heq.symm.trans hsame)
  · rfl

/-- A step of another thread that leaves the stack of `t` as it is. -/
theorem LevelInv.other (h : LevelInv t s) (ht : t ≠ s.kernel.running) (hinv : k'.sched.Inv)
    (hmagic : (k'.thread t).magic = true) (hstack : k'.stack t = s.kernel.stack t)
    (hoff : k'.running ≠ s.kernel.running → k'.sched.level = .off) :
    LevelInv t { s with kernel := k' } := by
  refine ⟨hinv, hmagic, ?_, ?_⟩
  · simpa only [hstack] using h.ofSleep
  · simpa only [hstack, levelOf_of_ne ht hoff] using h.level

theorem LevelInv.act {a : Action} {rest : List Action} (h : LevelInv t s)
    (hstack : s.kernel.stack s.kernel.running = a :: rest)
    (hk : s.kernel.step lab .act = .ok k') : LevelInv t { s with kernel := k' } := by
  have hinv := Kernel.step_inv h.sched hk
  have hexec := hk
  rw [Kernel.step_act hstack] at hexec
  by_cases ht : t = s.kernel.running
  · subst ht
    have hall := h.ofSleep
    rw [hstack] at hall
    have ha : a.ofSleep = true := hall a List.mem_cons_self
    obtain ⟨pushed, heq, hpushed, hlevel⟩ := Kernel.act_returnLevel h.sched hstack ha hk
    refine ⟨hinv, ?_, ?_, ?_⟩
    · rcases Kernel.exec_magic h.sched.pop hexec s.kernel.running with
        hmagic | ⟨rfl, -, -⟩ | ⟨_, _, -, -, hmagic, -⟩
      · exact hmagic.trans ((Kernel.popped_magic _).trans h.magic)
      · cases ha
      · exact hmagic
    · intro b hb
      rw [show k'.stack s.kernel.running = _ from heq] at hb
      rcases List.mem_append.mp hb with hb | hb
      · exact hpushed b hb
      · exact hall b (List.mem_cons_of_mem _ hb)
    · have hbefore := h.level
      rw [hstack, Kernel.levelOf, if_pos rfl] at hbefore
      rw [show k'.stack s.kernel.running = _ from heq, hlevel]
      exact hbefore
  · have hmagic : (k'.thread t).magic = true := by
      rcases Kernel.exec_magic h.sched.pop hexec t with
        hmagic | ⟨-, heq, -⟩ | ⟨_, _, -, -, hmagic, -⟩
      · exact hmagic.trans ((Kernel.popped_magic _).trans h.magic)
      · exact absurd heq ht
      · exact hmagic
    have hkeep : k'.stack t = s.kernel.stack t := by
      rcases (Kernel.act_stack h.sched hstack hk).1 t ht with heq | ⟨_, _, -, hfree, -, -⟩
      · exact heq
      · rw [h.magic] at hfree
        cases hfree
    exact h.other ht hinv hmagic hkeep (@Kernel.exec_level s.kernel.popped _ _ _ h.sched.pop hexec)

theorem LevelInv.tick (h : LevelInv t s) (he : s.kernel.sched.level = .on)
    (hk : s.kernel.step lab .tick = .ok k') : LevelInv t { s with kernel := k' } := by
  have hinv := Kernel.step_inv h.sched hk
  obtain ⟨woken, hw⟩ := Kernel.intrHandler_ticked h.sched hk
  have hmagic : (k'.thread t).magic = true := (hw.moves.magic t).trans h.magic
  by_cases ht : t = s.kernel.running
  · subst ht
    obtain ⟨ns, hns, heq⟩ := Kernel.tick_stack_running h.sched hk
    refine ⟨hinv, hmagic, ?_, ?_⟩
    · intro a ha
      rw [show k'.stack s.kernel.running = _ from heq] at ha
      rcases List.mem_append.mp ha with ha | ha
      · exact Kernel.LevelOnly.ofSleep hns a ha
      · rcases List.mem_cons.mp ha with rfl | ha
        · rfl
        · exact h.ofSleep a ha
    · have hbefore := h.level
      rw [Kernel.levelOf, if_pos rfl, he] at hbefore
      rw [show k'.stack s.kernel.running = _ from heq, Kernel.returnLevel_append]
      exact hbefore
  · exact h.other ht hinv hmagic (hw.moves.stack t ht) (Kernel.tick_level h.sched hk)

/-- A call of another thread. -/
theorem LevelInv.call {op : Op} (h : LevelInv t s) (ht : t ≠ s.kernel.running)
    (he : s.kernel.Enabled (.call op)) (hk : s.kernel.step lab (.call op) = .ok k') :
    LevelInv t { s with kernel := k' } := by
  have hinv := Kernel.step_inv h.sched hk
  have hkeep := (Kernel.call_stack he hk).2 t ht
  cases pure_eq_ok.mp hk
  refine h.other ht hinv ?_ hkeep fun hswitch => absurd rfl hswitch
  simpa [Kernel.thread, ht] using h.magic

theorem LevelInv.calls {calls : Tid → List SleepCall} (h : LevelInv t s)
    (hcalls : calls t = s.calls t) : LevelInv t { s with calls := calls } :=
  ⟨h.sched, h.magic, h.ofSleep, h.level.trans (congrArg levelAfterCalls hcalls.symm)⟩

/-- What a call does, apart from its assertions. -/
theorem callSleep_cases (hk : callSleep lab c k = .ok k') :
    k.step lab (.call (.timerSleep c.ticks)) = .ok k' ∨ c.ticks ≤ 0 ∧ k' = k := by
  unfold callSleep at hk
  split at hk
  · exact Or.inl (kernelStep_eq_ok.mp hk)
  · unfold realTimeSleep at hk
    obtain ⟨-, -, hk⟩ := bind_eq_ok.mp hk
    split_ifs at hk with hticks
    · exact Or.inl (kernelStep_eq_ok.mp hk)
    · obtain ⟨-, -, hk⟩ := bind_eq_ok.mp hk
      exact Or.inr ⟨by omega, (pure_eq_ok.mp hk).symm⟩

theorem levelAfterCalls_append {calls : List SleepCall} : levelAfterCalls (calls ++ [c]) =
    if c.ticks ≤ 0 then levelAfterCalls calls else .off := by
  simp only [levelAfterCalls, List.forall_mem_append, List.forall_mem_singleton]
  split_ifs <;> simp_all

/-- A call of the thread itself. -/
theorem LevelInv.sleep (h : LevelInv s.kernel.running s)
    (hempty : s.kernel.stack s.kernel.running = []) (hk : callSleep lab c s.kernel = .ok k') :
    LevelInv s.kernel.running
      ⟨k', Function.update s.calls s.kernel.running (s.calls s.kernel.running ++ [c])⟩ := by
  have hbefore := h.level
  rw [hempty, Kernel.levelOf, if_pos rfl] at hbefore
  have hlevel : s.kernel.sched.level = levelAfterCalls (s.calls s.kernel.running) := hbefore
  have hafter : levelAfterCalls (Function.update s.calls s.kernel.running
      (s.calls s.kernel.running ++ [c]) s.kernel.running) =
      if c.ticks ≤ 0 then s.kernel.sched.level else .off := by
    rw [Function.update_self, levelAfterCalls_append, hlevel]
  rcases callSleep_cases hk with hcall | ⟨hticks, rfl⟩
  · have hinv := Kernel.step_inv h.sched hcall
    have hstack : k'.stack s.kernel.running = [.sleepStart c.ticks] :=
      (Kernel.call_stack hempty hcall).1
    have hkernel : k'.running = s.kernel.running ∧ k'.sched.level = s.kernel.sched.level ∧
        (k'.thread s.kernel.running).magic = (s.kernel.thread s.kernel.running).magic := by
      cases pure_eq_ok.mp hcall
      refine ⟨rfl, rfl, ?_⟩
      simp [Kernel.thread]
    refine ⟨hinv, hkernel.2.2.trans h.magic, ?_, ?_⟩
    · intro a ha
      rw [show k'.stack s.kernel.running = _ from hstack, List.mem_singleton] at ha
      rw [ha]
      rfl
    · rw [show k'.stack s.kernel.running = _ from hstack, Kernel.levelOf, if_pos hkernel.1,
        hkernel.2.1]
      exact hafter.symm
  · refine ⟨h.sched, h.magic, h.ofSleep, h.level.trans ?_⟩
    rw [← hlevel]
    exact ((if_pos hticks).symm.trans hafter.symm)

theorem LevelInv.step {e : SleepEvent} (h : LevelInv t s) (he : s.Admits t e)
    (hs : s.step lab e = .ok s') : LevelInv t s' := by
  cases e with
  | kernel e =>
    obtain ⟨k', hk, hs⟩ := bind_eq_ok.mp hs
    cases pure_eq_ok.mp hs
    have hk := kernelStep_eq_ok.mp hk
    cases e with
    | act =>
      obtain ⟨a, rest, hstack⟩ := List.exists_cons_of_ne_nil he
      exact h.act hstack hk
    | call op => exact h.call (Ne.symm he.2) he.1 hk
    | tick => exact h.tick he hk
  | sleep c =>
    obtain ⟨k', hk, hs⟩ := bind_eq_ok.mp hs
    cases pure_eq_ok.mp hs
    by_cases ht : t = s.kernel.running
    · subst ht
      exact h.sleep he hk
    · have hcalls : Function.update s.calls s.kernel.running (s.calls s.kernel.running ++ [c]) t =
          s.calls t := Function.update_of_ne ht _ _
      rcases callSleep_cases hk with hcall | ⟨-, rfl⟩
      · exact (h.call ht he hcall).calls hcalls
      · exact h.calls hcalls

/-- A thread that runs with interrupts enabled begins. -/
theorem start_levelInv (hinv : k.sched.Inv) (hempty : k.stack k.running = [])
    (hlevel : k.sched.level = .on) : LevelInv k.running (start k) := by
  refine ⟨hinv, hinv.runningOk.1, ?_, ?_⟩
  · intro a ha
    rw [show (start k).kernel.stack k.running = _ from hempty] at ha
    cases ha
  · rw [show (start k).kernel.stack k.running = _ from hempty]
    exact (if_pos rfl).trans hlevel

theorem kernelStep_ne_error {e : Event} : kernelStep lab e k ≠ .error .realTimeSleepLevel := by
  rw [kernelStep]
  cases k.step lab e <;> simp [Except.mapError]

/-- The assertion of `real_time_sleep` at a call. -/
theorem callSleep_fails_iff (hreal : c.realTime.isSome = true) :
    callSleep lab c k = .error .realTimeSleepLevel ↔ k.sched.level = .off := by
  obtain ⟨⟨num, denom⟩, heq⟩ := Option.isSome_iff_exists.mp hreal
  have hdenom : denom.tmod 1000 = 0 := by cases c <;> cases heq <;> rfl
  simp only [callSleep, heq, realTimeSleep]
  cases hlevel : k.sched.level with
  | off => simp [check, bind, Except.bind]
  | on =>
    rw [check_bind rfl]
    simp only [reduceCtorEq, iff_false]
    split_ifs
    · exact kernelStep_ne_error
    · rw [realTimeDelay, check_bind hdenom]
      simp [pure, Except.pure]

theorem step_sleep_fails_iff (hreal : c.realTime.isSome = true) :
    s.step lab (.sleep c) = .error .realTimeSleepLevel ↔ s.kernel.sched.level = .off := by
  rw [← @callSleep_fails_iff lab c s.kernel hreal, step]
  cases callSleep lab c s.kernel <;> simp [bind, Except.bind, pure, Except.pure]

/-- A thread that runs with interrupts enabled begins to make calls that sleep. Whenever one has
returned, interrupts are enabled if and only if none of the calls so far asked for a positive number
of ticks, and this is when the assertion of `real_time_sleep` does not fail at the next call. -/
theorem sleep_keeps_level_iff {init : Nat → Nat} {k₀ : Kernel}
    (h₀ : Reachable (Kernel.step lab) Kernel.Enabled (Kernel.boot init) k₀)
    (hbegins : k₀.stack k₀.running = []) (hlevel : k₀.sched.level = .on)
    (hr : Reachable (step lab) (Admits k₀.running) (start k₀) s)
    (hruns : s.kernel.running = k₀.running) (hreturned : s.kernel.stack k₀.running = []) :
    (s.kernel.sched.level = .on ↔ ∀ c ∈ s.calls k₀.running, c.ticks ≤ 0) ∧
    ∀ c : SleepCall, c.realTime.isSome = true →
      (s.step lab (.sleep c) ≠ .error .realTimeSleepLevel ↔
        ∀ c ∈ s.calls k₀.running, c.ticks ≤ 0) := by
  have hinv₀ : k₀.sched.Inv :=
    @Reachable.invariant _ _ _ (Kernel.step lab) Kernel.Enabled (Kernel.boot init)
      (fun k => k.sched.Inv) (Kernel.boot_inv init)
      (fun _ _ _ _ h _ hk => Kernel.step_inv h hk) k₀ h₀
  have h : LevelInv k₀.running s :=
    Reachable.invariant (start_levelInv hinv₀ hbegins hlevel) (fun _ _ _ _ h he hs => h.step he hs)
      s hr
  have heq := h.level
  rw [hreturned, Kernel.levelOf, if_pos hruns] at heq
  have hiff : s.kernel.sched.level = .on ↔ ∀ c ∈ s.calls k₀.running, c.ticks ≤ 0 := by
    rw [show s.kernel.sched.level = _ from heq, levelAfterCalls]
    split_ifs with hcalls
    · exact iff_of_true rfl hcalls
    · exact iff_of_false (by simp) hcalls
  refine ⟨hiff, ?_⟩
  intro c hreal
  rw [← hiff, Ne, step_sleep_fails_iff hreal]
  cases s.kernel.sched.level <;> simp

/-- The state after a sequence of events, all of them admitted. -/
def runSleeps (lab : Lab) (t : Tid) (s : SleepRun) (events : List SleepEvent) : Option SleepRun :=
  run (step lab) (fun s e => decide (s.Admits t e)) s events

theorem reachable_of_runSleeps {events : List SleepEvent} (h : runSleeps lab t s events = some s') :
    Reachable (step lab) (Admits t) s s' :=
  reachable_of_run (fun _ _ he => of_decide_eq_true he) .start h

/-- `main` sleeps for one tick, in which the idle thread runs. -/
def sleepOne : List SleepEvent :=
  .sleep (.timerSleep 1) :: List.replicate 10 (.kernel .act) ++
    .kernel .tick :: List.replicate 3 (.kernel .act)

/-- `thread_start` (`thread.c:106-119`), and then a run of calls by `main`. -/
def runMain (lab : Lab) (events : List SleepEvent) : Option (Kernel × SleepRun) := do
  let k ← Kernel.runFrom lab (fun _ => 0) Kernel.starting
  let s ← runSleeps lab 0 (start k) events
  return (k, s)

theorem runMain_eq_some {events : List SleepEvent} :
    runMain lab events = some (k, s) ↔
      Kernel.runFrom lab (fun _ => 0) Kernel.starting = some k ∧
        runSleeps lab 0 (start k) events = some s := by
  simp only [runMain, Option.bind_eq_bind, Option.bind_eq_some_iff, Option.pure_def,
    Option.some.injEq, Prod.mk.injEq]
  constructor
  · rintro ⟨_, hk, _, hs, rfl, rfl⟩
    exact ⟨hk, hs⟩
  · rintro ⟨hk, hs⟩
    exact ⟨k, hk, s, hs, rfl, rfl⟩

theorem sleep_keeps_level_sleepOne : ∃ s : SleepRun,
    (runMain .lab2 sleepOne).map Prod.snd = some s ∧ s.calls 0 = [.timerSleep 1] ∧
    ¬s.kernel.sched.level = .on := by
  have hrun : (runMain .lab2 sleepOne).map (fun p =>
      ((p.1.running, p.1.stack 0, p.1.sched.level),
        (p.2.kernel.running, p.2.kernel.stack 0, p.2.calls 0))) =
      some ((0, [], .on), (0, [], [.timerSleep 1])) := by
    decide +kernel
  obtain ⟨⟨k, s⟩, hks, heq⟩ := Option.map_eq_some_iff.mp hrun
  simp only [Prod.mk.injEq] at heq
  obtain ⟨⟨hmain, hbegins, hon⟩, hruns, hreturned, hcalls⟩ := heq
  obtain ⟨hk, hs⟩ := runMain_eq_some.mp hks
  rw [← hmain] at hbegins hruns hreturned hcalls hs
  refine ⟨s, by rw [hks]; rfl, hmain ▸ hcalls, ?_⟩
  rw [(sleep_keeps_level_iff (Kernel.reachable_of_runFrom hk) hbegins hon
    (reachable_of_runSleeps hs) hruns hreturned).1, hcalls]
  decide

/-- `main` runs with interrupts enabled, returns from `timer_sleep` with interrupts disabled, and
`timer_msleep` fails. -/
theorem sleep_loses_level : ∃ k s,
    Kernel.runFrom .lab1 (fun _ => 0) Kernel.starting = some k ∧ k.running = 0 ∧ k.stack 0 = [] ∧
    k.sched.level = .on ∧ runSleeps .lab1 0 (start k) sleepOne = some s ∧
    s.kernel.running = 0 ∧ s.kernel.stack 0 = [] ∧ s.kernel.sched.level = .off ∧
    s.step .lab1 (.sleep (.timerMsleep 10)) = .error .realTimeSleepLevel := by
  have hrun : (runMain .lab1 sleepOne).map (fun p =>
      ((p.1.running, p.1.stack 0, p.1.sched.level),
        (p.2.kernel.running, p.2.kernel.stack 0, p.2.kernel.sched.level))) =
      some ((0, [], .on), (0, [], .off)) := by
    decide +kernel
  obtain ⟨⟨k, s⟩, hks, heq⟩ := Option.map_eq_some_iff.mp hrun
  simp only [Prod.mk.injEq] at heq
  obtain ⟨⟨hmain, hbegins, hon⟩, hruns, hreturned, hoff⟩ := heq
  obtain ⟨hk, hs⟩ := runMain_eq_some.mp hks
  exact ⟨k, s, hk, hmain, hbegins, hon, hs, hruns, hreturned, hoff,
    (step_sleep_fails_iff rfl).mpr hoff⟩

end SleepRun

end CSE130.Pintos
