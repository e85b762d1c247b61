import CSE130.Pintos.AlarmOrder
import CSE130.Pintos.IdleThread

/-!
# The alarm clock of Lab 1

In Lab 1 `timer_sleep` has no inner loop and `thread_unblock` does not preempt. If the calls of
`timer_sleep` are atomic, `timer_list` is therefore always in the order of the wake-up ticks, no
call and no timer interrupt fails, and every thread that falls asleep is woken once, by the
interrupt that counts its wake-up tick.
-/

namespace CSE130.Pintos

open CSE130.Library

/-- The inner loop of `timer_sleep` (Lab 2). -/
def Action.inner : Action → Bool
  | .sleepInner _ | .sleepInnerNext _ => true
  | _ => false

theorem Conts.inner_eq_false {a : Action} {pushed : List Action} (h : Conts a pushed)
    (ha : a.inner = false) (houter : ∀ total x, a ≠ .sleepOuter total x) :
    ∀ b ∈ pushed, b.inner = false := by
  cases h
  case outerEnd total x | outerEqual total x | outer total x => exact absurd rfl (houter total x)
  all_goals simp [Action.inner, Kernel.lockAcquire, Kernel.lockRelease, Kernel.condvarSignal]
    at ha ⊢

namespace Kernel

variable {k k₁ k' : Kernel} {a b : Action} {rest : List Action} {t : Tid} {ts : List Tid}
  {e : Event} {init : Nat → Nat} {total : Int} {x : Elem}

/-- No thread is in the inner loop of `timer_sleep`. -/
def NoInner (k : Kernel) : Prop := ∀ t, ∀ a ∈ k.stack t, a.inner = false

/-! ## No inner loop -/

theorem pushed_mem {c : Action} (hstack : k.stack k.running = a :: rest)
    (hmem : b ∈ (k.popped.push [c]).stack t) : b = c ∨ b ∈ k.stack t := by
  by_cases ht : t = k.sched.running
  · have hold : (k.sched.thread k.sched.running).stack = a :: rest := hstack
    subst ht
    simp [stack, hold] at hmem ⊢
    tauto
  · exact .inr (by simpa [stack, ht] using hmem)

/-- The outer loop goes on to its next test or to the insertion. -/
theorem NoInner.act_sleepOuter (h : k.NoInner)
    (hstack : k.stack k.running = .sleepOuter total x :: rest)
    (hk : k.step .lab1 .act = .ok k') : k'.NoInner := by
  have hpush : ∀ c : Action, c.inner = false → (k.popped.push [c]).NoInner := by
    intro c hc t b hmem
    rcases pushed_mem hstack hmem with rfl | hmem
    · exact hc
    · exact h t b hmem
  rw [step_act hstack] at hk
  cases x with
  | head => cases hk
  | tail =>
    cases hk
    exact hpush _ rfl
  | thread u =>
    simp only [exec, sleepOuter, reduceCtorEq, false_and, if_false] at hk
    split_ifs at hk <;> cases hk <;> exact hpush _ rfl

theorem NoInner.act (h : k.NoInner) (hinv : k.sched.Inv) (hstack : k.stack k.running = a :: rest)
    (hk : k.step .lab1 .act = .ok k') : k'.NoInner := by
  by_cases houter : ∃ total x, a = .sleepOuter total x
  · obtain ⟨total, x, rfl⟩ := houter
    exact h.act_sleepOuter hstack hk
  simp only [not_exists] at houter
  have hold : ∀ b ∈ a :: rest, b.inner = false := hstack ▸ h k.running
  obtain ⟨hother, hrunning⟩ := act_stack hinv hstack hk
  intro t b hmem
  by_cases ht : t = k.running
  · subst ht
    rcases hrunning with ⟨ns, pushed, hns, hconts, heq⟩ | ⟨-, heq⟩
    · rw [heq, List.append_assoc] at hmem
      rcases List.mem_append.mp hmem with hmem | hmem
      · have hlevel := hns b hmem
        cases b <;> first | rfl | cases hlevel
      · rcases List.mem_append.mp hmem with hmem | hmem
        · exact hconts.inner_eq_false (hold a List.mem_cons_self) houter b hmem
        · exact hold b (List.mem_cons_of_mem a hmem)
    · rw [heq] at hmem
      cases hmem
  · rcases hother t ht with heq | ⟨_, function, -, -, heq, -⟩
    · exact h t b (heq ▸ hmem)
    · rw [heq] at hmem
      revert b
      cases function <;> simp [Sched.startStack, Action.inner]

theorem NoInner.step (h : k.NoInner) (hinv : k.sched.Inv) (he : k.Enabled e)
    (hk : k.step .lab1 e = .ok k') : k'.NoInner := by
  cases e with
  | act =>
    obtain ⟨a, rest, hstack⟩ := List.exists_cons_of_ne_nil he
    exact h.act hinv hstack hk
  | call op =>
    obtain ⟨hrunning, hother⟩ := call_stack he hk
    intro t b hmem
    by_cases ht : t = k.running
    · subst ht
      rw [hrunning] at hmem
      cases begins_of_mem hmem <;> rfl
    · exact h t b (hother t ht ▸ hmem)
  | tick =>
    intro t b hmem
    obtain ⟨ns, hns, heq⟩ := tick_stack hinv hk t
    rw [heq] at hmem
    rcases List.mem_append.mp hmem with hmem | hmem
    · have hlevel := hns b hmem
      cases b <;> first | rfl | cases hlevel
    · exact h t b hmem

theorem boot_noInner (init : Nat → Nat) : (boot init).NoInner := by
  intro t
  by_cases ht : t = 0 <;> simp [stack, boot, ht, threadStart, Action.inner]

/-! ## The invariant -/

/-- The invariant of the alarm clock of Lab 1. -/
structure ClockInv (init : Nat → Nat) (k : Kernel) (ts : List Tid) : Prop where
  block : k.BlockInv
  timer : k.TimerInv ts
  alarm : k.AlarmInv ts
  noInner : k.NoInner
  idle : IdleInv init k

/-- Without the inner loop every step passes equal wake-up ticks only. -/
theorem NoInner.orderedAdmits (h : k.NoInner) (he : k.AtomicAdmits e) : k.OrderedAdmits e := by
  refine ⟨he, ?_⟩
  cases e with
  | act =>
    simp only [passesEqual]
    split
    · rename_i t hhead
      cases h k.running _ (List.mem_of_mem_head? hhead)
    · rfl
  | call op => rfl
  | tick => rfl

theorem ClockInv.step (h : ClockInv init k ts) (he : k.AtomicAdmits e)
    (hk : k.step .lab1 e = .ok k') : ∃ ts', ClockInv init k' ts' := by
  have henabled := he.1.1
  obtain ⟨hblock, ts', htimer, halarm⟩ :=
    h.alarm.step h.block h.timer (h.noInner.orderedAdmits he) hk
  exact ⟨ts', hblock, htimer, halarm, h.noInner.step h.block.sched henabled hk,
    h.idle.step h.block henabled hk⟩

theorem reachable_clockInv (hr : Reachable (Kernel.step .lab1) AtomicAdmits (boot init) k) :
    ∃ ts, ClockInv init k ts := by
  refine @Reachable.invariant _ _ _ (Kernel.step .lab1) AtomicAdmits (boot init)
    (fun k => ∃ ts, ClockInv init k ts) ⟨[], ?_⟩ ?_ k hr
  · exact ⟨boot_blockInv init, boot_timerInv init, boot_alarmInv init, boot_noInner init, .inl rfl⟩
  · intro k e k' _ h he hk
    obtain ⟨ts, h⟩ := h
    exact h.step he hk

/-! ## No call of `timer_sleep` fails -/

/-- An element on the list, or the end of the list, has a pointer back. -/
theorem TimerInv.prev_isSome {pre post : List Tid} (ht : k.TimerInv ts) (hx : At ts x pre post) :
    (k.timerList.prev x).isSome = true := by
  obtain ⟨hsplit, hhead⟩ := hx
  have hsegment := ht.linked.segment
  rw [hsplit, List.map_append] at hsegment
  obtain ⟨p, -, hp⟩ := Memory.segment_prev hsegment hhead
  rw [hp, Option.isSome_some]

theorem ClockInv.act_succeeds (h : ClockInv init k ts) (hstack : k.stack k.running = a :: rest)
    (ha : a.sleeps = true) : ∃ k', k.step .lab1 .act = .ok k' := by
  have hmem : a ∈ k.stack k.running := hstack ▸ List.mem_cons_self
  have hcurrent : k.popped.sched.threadCurrent = .ok k.running :=
    Sched.threadCurrent_eq_ok.mpr ⟨h.block.sched.pop.runningOk, rfl⟩
  have hscan : a.fallsAsleep = true → k.ScanOk ts a :=
    fun hfalls => (h.alarm.inside _ a hmem hfalls).2.2
  have hinner := h.noInner k.running a hmem
  rw [step_act hstack]
  cases a
  case sleepStart ticks =>
    simp only [exec, sleepStart, hcurrent, ok_bind]
    split_ifs <;> exact ⟨_, rfl⟩
  case sleepStore total => exact ⟨_, rfl⟩
  case sleepScan total =>
    obtain ⟨x, hx, -⟩ := h.timer.listBegin_eq
    have hbegin : k.popped.listBegin = .ok x := hx
    simp only [exec, bind_eq_ok]
    exact ⟨_, x, hbegin, rfl⟩
  case sleepOuter total x =>
    obtain ⟨-, -, pre, post, hat, -⟩ := hscan rfl
    cases x with
    | head => exact absurd hat At.not_head
    | tail => exact ⟨_, rfl⟩
    | thread u =>
      simp only [exec, sleepOuter]
      split_ifs <;> exact ⟨_, rfl⟩
  case sleepOuterNext total x =>
    obtain ⟨-, -, pre, u, post, hat, -⟩ := hscan rfl
    obtain ⟨y, hy, -⟩ := h.timer.listNext_eq hat
    have hnext : k.popped.listNext x = .ok y := hy
    simp only [exec, bind_eq_ok]
    exact ⟨_, y, hnext, rfl⟩
  case sleepInner x => cases hinner
  case sleepInnerNext x => cases hinner
  case sleepLink before =>
    obtain ⟨-, pre, post, hat, -⟩ := hscan rfl
    have hinsert : k.popped.listInsert before (.thread k.running) = .ok _ :=
      check_bind (h.timer.prev_isSome hat)
    simp only [exec, bind_eq_ok]
    exact ⟨_, _, hinsert, rfl⟩
  case sleepDisable => exact ⟨_, rfl⟩
  case sleepBlock =>
    have hnext : k.popped.sched.HasNext :=
      (h.idle.hasNext h.block hmem rfl rfl).congr rfl rfl popped_magic
    have hlevel := (h.timer.block k.running hmem).2.1
    obtain ⟨s, hs⟩ := Sched.threadBlock_succeeds (h.block.sched.pop.push [.sleepReturn]) h.block.intr
      hlevel (hnext.push _)
    simp only [exec, onSched_eq_ok]
    exact ⟨_, s, hs, rfl⟩
  case sleepReturn => exact ⟨_, rfl⟩
  all_goals cases ha

/-! ## The timer interrupt -/

/-- The threads that are due are those whose wake-up tick is counted next. -/
theorem ClockInv.mem_dueThreads (h : ClockInv init k ts) (hatomic : k.atomicSleep .tick = true) :
    t ∈ k.dueThreads ↔ k.Asleep t ∧ (k.thread t).wakeUpTick = toInt64 (k.ticks + 1) := by
  rw [h.alarm.mem_dueThreads h.timer, h.alarm.mem_iff h.timer hatomic]
  refine and_congr_right fun hasleep => ?_
  have hmem : t ∈ ts := (h.alarm.mem_iff h.timer hatomic).mpr hasleep
  obtain ⟨hlow, hhigh⟩ := h.alarm.ahead t hmem
  have hticks := h.alarm.low
  have hexact : toInt64 (k.ticks + 1) = k.ticks + 1 := toInt64_eq (by omega) (by omega)
  omega

/-- In Lab 1 the timer interrupt completes. -/
theorem ClockInv.tick_succeeds (h : ClockInv init k ts) (he : k.AtomicAdmits .tick) :
    ∃ k', k.step .lab1 .tick = .ok k' ∧ Ticked k.dueThreads k k' := by
  obtain ⟨⟨henabled, -⟩, hatomic⟩ := he
  rcases @tick_outcome k .lab1 ts h.block h.timer henabled (h.alarm.noneFallingAsleep hatomic) with
    ⟨⟨t, -, hpreempts⟩, -⟩ | ⟨-, k', -, hk, hw, -, -⟩
  · cases hpreempts.1
  · exact ⟨k', hk, hw⟩

theorem ClockInv.dueThreads_nodup (h : ClockInv init k ts) : k.dueThreads.Nodup := by
  have hnodup := h.timer.nodup
  rw [← h.timer.timerThreads_eq] at hnodup
  exact hnodup.sublist (List.takeWhile_sublist _)

/-! ## Runs -/

/-- Thread `t`, asleep in `k`, has not been woken up to `k'`, and its wake-up tick is to come. -/
def StillAsleep (t : Tid) (k k' : Kernel) : Prop :=
  k'.Asleep t ∧ (k'.thread t).wakeUpTick = (k.thread t).wakeUpTick ∧
    k'.ticks < (k.thread t).wakeUpTick ∧
    ∃ earlier, k'.trace = earlier ++ k.trace ∧ ∀ n ∈ earlier, n.wakes t = false

/-- Thread `t`, asleep in `k`, has been woken up to `k'`, for the first time at its wake-up tick, and
later only after it has put itself on `timer_list` again, once each time. -/
def WokenOnce (t : Tid) (k k' : Kernel) : Prop :=
  ∃ earlier later,
    k'.trace = later ++ Note.wake t (k.thread t).wakeUpTick :: (earlier ++ k.trace) ∧
    (∀ n ∈ earlier, n.wakes t = false) ∧ .link t ∉ earlier ∧
    later.countP (Note.wakes t) ≤ later.count (.link t)

/-- A thread that is asleep has put itself on the list once more than it has been woken. -/
theorem ClockInv.account_asleep (h : ClockInv init k ts) (hasleep : k.Asleep t) :
    k.trace.count (.link t) = k.trace.countP (Note.wakes t) + 1 := by
  have hmem : t ∈ ts := (h.timer.mem t).mpr (.inr (.inr hasleep))
  rw [h.timer.account, List.count_eq_one_of_mem h.timer.nodup hmem]

/-- Only the timer interrupt wakes threads. -/
theorem ClockInv.step_trace (h : ClockInv init k ts) (he : k.Enabled e)
    (hk : k.step .lab1 e = .ok k') : ∃ new, k'.trace = new ++ k.trace ∧
      (e ≠ .tick → k'.ticks = k.ticks ∧ ∀ n ∈ new, n.wakes t = false) := by
  cases e with
  | act =>
    obtain ⟨a, rest, hstack⟩ := List.exists_cons_of_ne_nil he
    rw [step_act hstack] at hk
    have hframed := exec_framed hk
    exact ⟨_, hframed.trace, fun _ => ⟨hframed.ticks, fun n hn => notesOf_not_wakes n hn⟩⟩
  | call op =>
    cases pure_eq_ok.mp hk
    exact ⟨[], rfl, fun _ => ⟨rfl, by simp⟩⟩
  | tick =>
    obtain ⟨woken, hw⟩ := intrHandler_ticked h.block.sched hk
    exact ⟨_, hw.trace, fun hne => absurd rfl hne⟩

theorem countP_wakes_eq_zero {earlier : List Note} (h : ∀ n ∈ earlier, n.wakes t = false) :
    earlier.countP (Note.wakes t) = 0 :=
  List.countP_eq_zero.mpr fun n hn => by simp [h n hn]

/-- A thread that has been woken is woken again only after it has put itself on the list. -/
theorem WokenOnce.step {k₀ : Kernel} {ts₀ ts' : List Tid} (h₀ : ClockInv init k₀ ts₀)
    (hasleep : k₀.Asleep t) (h : ClockInv init k ts) (h' : ClockInv init k' ts')
    (he : k.Enabled e) (hk : k.step .lab1 e = .ok k') (hwoken : WokenOnce t k₀ k) :
    WokenOnce t k₀ k' := by
  obtain ⟨earlier, later, htrace, hearlier, hlink, -⟩ := hwoken
  obtain ⟨new, hnew, -⟩ := @ClockInv.step_trace k k' t ts e init h he hk
  refine ⟨earlier, new ++ later, by simp [hnew, htrace], hearlier, hlink, ?_⟩
  have hbefore := h₀.account_asleep hasleep
  have hafter := h'.timer.account t
  have hnone := countP_wakes_eq_zero hearlier
  have hnever := List.count_eq_zero.mpr hlink
  rw [hnew, htrace] at hafter
  simp only [List.count_append, List.countP_append, List.count_cons, List.countP_cons, Note.wakes,
    decide_true, if_true, reduceCtorEq, beq_iff_eq, if_false] at hafter ⊢
  omega

/-- An interrupt that wakes a thread counts its wake-up tick. -/
theorem StillAsleep.wake {k₀ : Kernel} {ts₀ : List Tid} (h₀ : ClockInv init k₀ ts₀)
    (hasleep : k₀.Asleep t) (h : ClockInv init k ts) (hw : Ticked k.dueThreads k k')
    (hdue : t ∈ k.dueThreads) (hticks : (k₀.thread t).wakeUpTick = k'.ticks)
    (hstill : StillAsleep t k₀ k) : WokenOnce t k₀ k' := by
  obtain ⟨hnow, -, -, earlier, htrace, hearlier⟩ := hstill
  obtain ⟨pre, post, hsplit⟩ := List.append_of_mem hdue
  have hnodup := h.dueThreads_nodup
  rw [hsplit] at hnodup
  obtain ⟨hpre, hpost⟩ : t ∉ pre ∧ t ∉ post := by
    have hmiddle := List.nodup_middle.mp hnodup
    simpa [not_or] using (List.nodup_cons.mp hmiddle).1
  have hothers : ∀ us : List Tid, t ∉ us →
      ∀ n ∈ (us.map fun u => Note.wake u k'.ticks).reverse, n.wakes t = false ∧ n ≠ .link t := by
    intro us hus n hn
    obtain ⟨u, hu, rfl⟩ := List.mem_map.mp (List.mem_reverse.mp hn)
    refine ⟨decide_eq_false ?_, by simp⟩
    rintro rfl
    exact hus hu
  have hbefore := h₀.account_asleep hasleep
  have hstill := h.account_asleep hnow
  have hlink : .link t ∉ earlier := by
    rw [htrace, List.count_append, List.countP_append, countP_wakes_eq_zero hearlier] at hstill
    exact List.count_eq_zero.mp (by omega)
  refine ⟨(pre.map fun u => Note.wake u k'.ticks).reverse ++ earlier,
    (post.map fun u => Note.wake u k'.ticks).reverse, ?_, ?_, ?_, ?_⟩
  · rw [hw.trace, hsplit, htrace, hticks]
    simp
  · intro n hn
    rcases List.mem_append.mp hn with hn | hn
    · exact (hothers pre hpre n hn).1
    · exact hearlier n hn
  · intro hmem
    rcases List.mem_append.mp hmem with hmem | hmem
    · exact (hothers pre hpre _ hmem).2 rfl
    · exact hlink hmem
  · rw [countP_wakes_eq_zero fun n hn => (hothers post hpost n hn).1]
    exact Nat.zero_le _

theorem StillAsleep.tick {k₀ : Kernel} {ts₀ : List Tid} (h₀ : ClockInv init k₀ ts₀)
    (hasleep : k₀.Asleep t) (h : ClockInv init k ts) (he : k.AtomicAdmits .tick)
    (hk : k.step .lab1 .tick = .ok k') (hstill : StillAsleep t k₀ k) :
    StillAsleep t k₀ k' ∨ WokenOnce t k₀ k' := by
  obtain ⟨hnow, hwake, hahead, earlier, htrace, hearlier⟩ := hstill
  obtain ⟨k₁, hk₁, hw⟩ := h.tick_succeeds he
  obtain rfl : k' = k₁ := Except.ok.inj (hk.symm.trans hk₁)
  have hdueIff := @ClockInv.mem_dueThreads k t ts init h he.2
  by_cases hdue : t ∈ k.dueThreads
  · right
    refine StillAsleep.wake h₀ hasleep h hw hdue ?_ ⟨hnow, hwake, hahead, earlier, htrace, hearlier⟩
    rw [hw.ticks, ← hwake]
    exact (hdueIff.mp hdue).2
  · left
    have hne : (k₀.thread t).wakeUpTick ≠ k'.ticks := by
      intro heq
      refine hdue (hdueIff.mpr ⟨hnow, ?_⟩)
      rw [hwake, heq, hw.ticks]
    have hbound : (k₀.thread t).wakeUpTick < 2 ^ 63 := by
      rw [← hwake]
      exact (h.alarm.ahead t ((h.timer.mem t).mpr (.inr (.inr hnow)))).2
    have hlow := h.alarm.low
    have hexact : k'.ticks = k.ticks + 1 := hw.ticks.trans (toInt64_eq (by omega) (by omega))
    refine ⟨(tick_asleep h.block hw).mpr ⟨hnow, hdue⟩, ?_, by omega,
      (k.dueThreads.map fun u => Note.wake u k'.ticks).reverse ++ earlier, ?_, ?_⟩
    · exact (hw.moves.wakeUpTick t (h.block.ne_running hnow.2)).trans hwake
    · rw [hw.trace, htrace, ← List.append_assoc]
    · intro n hn
      rcases List.mem_append.mp hn with hn | hn
      · obtain ⟨u, hu, rfl⟩ := List.mem_map.mp (List.mem_reverse.mp hn)
        refine decide_eq_false ?_
        rintro rfl
        exact hdue hu
      · exact hearlier n hn

theorem StillAsleep.step {k₀ : Kernel} {ts₀ : List Tid} (h₀ : ClockInv init k₀ ts₀)
    (hasleep : k₀.Asleep t) (h : ClockInv init k ts) (he : k.AtomicAdmits e)
    (hk : k.step .lab1 e = .ok k') (hstill : StillAsleep t k₀ k) :
    StillAsleep t k₀ k' ∨ WokenOnce t k₀ k' := by
  by_cases htick : e = .tick
  · subst htick
    exact hstill.tick h₀ hasleep h he hk
  · left
    obtain ⟨hnow, hwake, hahead, earlier, htrace, hearlier⟩ := hstill
    obtain ⟨new, hnew, hquiet⟩ := @ClockInv.step_trace k k' t ts e init h he.1.1 hk
    obtain ⟨hticks, hnone⟩ := hquiet htick
    rcases step_asleep h.block h.timer h.alarm (h.noInner.orderedAdmits he) hk hnow with
      ⟨hnow', hwake'⟩ | ⟨heq, -⟩
    · refine ⟨hnow', hwake'.trans hwake, hticks ▸ hahead, new ++ earlier, ?_, ?_⟩
      · rw [hnew, htrace, List.append_assoc]
      · intro n hn
        rcases List.mem_append.mp hn with hn | hn
        · exact hnone n hn
        · exact hearlier n hn
    · exact absurd heq htick

/-- In a run from a state in which `t` is asleep, it is woken at its wake-up tick. -/
theorem asleep_run (hr : Reachable (Kernel.step .lab1) AtomicAdmits (boot init) k)
    (hasleep : k.Asleep t) (hrun : Reachable (Kernel.step .lab1) AtomicAdmits k k') :
    StillAsleep t k k' ∨ WokenOnce t k k' := by
  obtain ⟨ts₀, h₀⟩ := reachable_clockInv hr
  refine @Reachable.invariant _ _ _ (Kernel.step .lab1) AtomicAdmits k
    (fun k' => StillAsleep t k k' ∨ WokenOnce t k k') (.inl ?_) ?_ k' hrun
  · have hmem : t ∈ ts₀ := (h₀.timer.mem t).mpr (.inr (.inr hasleep))
    exact ⟨hasleep, rfl, (h₀.alarm.ahead t hmem).1, [], rfl, by simp⟩
  · intro s e s' hrs hor he hs
    obtain ⟨ts, h⟩ := reachable_clockInv (hr.trans hrs)
    obtain ⟨ts', h'⟩ := h.step he hs
    rcases hor with hstill | hwoken
    · exact hstill.step h₀ hasleep h he hs
    · exact .inr (hwoken.step h₀ hasleep h h' he.1.1 hs)

/-- In Lab 1, with atomic calls of `timer_sleep`, `timer_list` is in the order of the wake-up ticks
and holds exactly the threads that are asleep; no call of `timer_sleep` and no timer interrupt fails;
an interrupt wakes the threads whose wake-up tick it counts, and no others; and every thread that is
asleep is woken once, at its wake-up tick. -/
theorem timer_sleep_wakes_exactly
    (hr : Reachable (Kernel.step .lab1) AtomicAdmits (boot init) k) :
    (k.timerThreads.Pairwise fun t u => (k.thread t).wakeUpTick ≤ (k.thread u).wakeUpTick) ∧
    (k.atomicSleep .tick = true →
      k.timerThreads.Nodup ∧ ∀ t, t ∈ k.timerThreads ↔ k.Asleep t) ∧
    (∀ a, (k.stack k.running).head? = some a → a.sleeps = true →
      ∃ k', k.step .lab1 .act = .ok k') ∧
    (k.AtomicAdmits .tick → ∃ k' : Kernel, ∃ woken : List Tid,
      k.step .lab1 .tick = .ok k' ∧ k'.ticks = toInt64 (k.ticks + 1) ∧
      k'.trace = (woken.map fun t => Note.wake t k'.ticks).reverse ++ k.trace ∧ woken.Nodup ∧
      ∀ t, t ∈ woken ↔ k.Asleep t ∧ (k.thread t).wakeUpTick = k'.ticks) ∧
    ∀ t, k.Asleep t → ∀ k', Reachable (Kernel.step .lab1) AtomicAdmits k k' →
      StillAsleep t k k' ∨ WokenOnce t k k' := by
  obtain ⟨ts, h⟩ := reachable_clockInv hr
  refine ⟨?_, ?_, ?_, ?_, fun t hasleep k' hrun => asleep_run hr hasleep hrun⟩
  · rw [h.timer.timerThreads_eq]
    exact h.alarm.sorted
  · intro hatomic
    rw [h.timer.timerThreads_eq]
    exact ⟨h.timer.nodup, fun t => h.alarm.mem_iff h.timer hatomic⟩
  · intro a hhead ha
    obtain ⟨rest, hstack⟩ := List.head?_eq_some_iff.mp hhead
    exact h.act_succeeds hstack ha
  · intro he
    obtain ⟨k', hk, hw⟩ := h.tick_succeeds he
    refine ⟨k', k.dueThreads, hk, hw.ticks, hw.trace, h.dueThreads_nodup, ?_⟩
    intro t
    rw [hw.ticks]
    exact h.mem_dueThreads he.2

/-- `main` sleeps for two ticks, then a second thread for one, and the idle thread runs. -/
def sleepTwo : List Event :=
  starting ++ Event.call (.threadCreate 2 31) :: List.replicate 9 Event.act ++
    Event.call (.timerSleep 2) :: List.replicate 8 Event.act ++
    Event.call (.timerSleep 1) :: List.replicate 8 Event.act

theorem timer_sleep_wakes_exactly_sleepTwo : ∃ k k' : Kernel, ∃ woken : List Tid,
    runAtomic .lab1 (fun _ => 0) sleepTwo = some k ∧ k.timerThreads = [2, 0] ∧
    k.step .lab1 .tick = .ok k' ∧ 2 ∈ woken ∧ 0 ∉ woken ∧
    (StillAsleep 0 k k' ∨ WokenOnce 0 k k') := by
  have hrun : (runAtomic .lab1 (fun _ => 0) sleepTwo).map (fun k =>
      (decide (k.AtomicAdmits .tick), k.timerThreads, k.ticks, (k.thread 0).wakeUpTick,
        (k.thread 2).wakeUpTick)) = some (true, [2, 0], 0, 2, 1) := by
    decide +kernel
  obtain ⟨k, hk, heq⟩ := Option.map_eq_some_iff.mp hrun
  simp only [Prod.mk.injEq, decide_eq_true_eq] at heq
  obtain ⟨hadmits, hthreads, hticks, hwake, hwake'⟩ := heq
  have hreach : Reachable (Kernel.step .lab1) AtomicAdmits (boot fun _ => 0) k :=
    reachable_of_run (fun _ _ he => of_decide_eq_true he) .start hk
  obtain ⟨-, hlist, -, htick, hruns⟩ := timer_sleep_wakes_exactly hreach
  obtain ⟨k', woken, hk', hticks', -, -, hwoken⟩ := htick hadmits
  obtain ⟨-, hasleep⟩ := hlist hadmits.2
  have hmain : k.Asleep 0 := (hasleep 0).mp (by simp [hthreads])
  have htwo : k.Asleep 2 := (hasleep 2).mp (by simp [hthreads])
  have hone : k'.ticks = 1 := by
    rw [hticks', hticks]
    rfl
  refine ⟨k, k', woken, hk, hthreads, hk', (hwoken 2).mpr ⟨htwo, hwake'.trans hone.symm⟩, ?_,
    hruns 0 hmain k' (.step .start hadmits hk')⟩
  intro hmem
  have hdue := ((hwoken 0).mp hmem).2
  rw [hwake, hone] at hdue
  cases hdue

end Kernel

end CSE130.Pintos
