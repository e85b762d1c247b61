import CSE130.Pintos.TimerList

/-!
# The timer interrupt

On a `timer_list` whose due threads are all blocked, the timer interrupt makes exactly these threads
ready, from the first one on. It fails only where `thread_unblock` wants to preempt the interrupted
thread.
-/

namespace CSE130.Pintos

open CSE130.Library

namespace Kernel

variable {k k₁ k' : Kernel} {lab : Lab} {t u : Tid} {ts woken : List Tid} {e : Elem} {fuel : Nat}

/-! ## The loop -/

/-- The threads at the front of `ts` that are due at the tick of `k`. -/
def due (k : Kernel) (ts : List Tid) : List Tid :=
  ts.takeWhile fun t => (k.thread t).wakeUpTick ≤ k.ticks

/-- The state after a round of the loop that wakes `t`. -/
def waking (lab : Lab) (t : Tid) (k : Kernel) : Kernel :=
  { k.note (.wake t k.ticks) with
    sched := k.sched.readying lab t
    timerList := k.timerList.remove (.thread t) }

/-- A preemption in the handler is the failed assertion of `thread_yield`. -/
theorem threadUnblock_preempts {s : Sched} (h : s.Inv) (hintr : s.inExternalIntr = true)
    (hmagic : (s.thread t).magic = true) (hblocked : (s.thread t).status = .blocked)
    (hpreempts : s.Preempts lab t) : s.threadUnblock lab t = .error .threadYieldContext := by
  have hinv : ((s.readying lab t).push [.intrSetLevel s.level]).Inv :=
    (h.readying hmagic hblocked).push _
  have hcontext : ¬ ((s.readying lab t).push [.intrSetLevel s.level]).inExternalIntr = false := by
    rw [show ((s.readying lab t).push [.intrSetLevel s.level]).inExternalIntr = true from hintr]
    simp
  rw [Sched.threadUnblock_eq h.runningOk hmagic hblocked, if_pos hpreempts, Sched.threadYield,
    Sched.threadCurrent_eq_ok.mpr ⟨hinv.runningOk, rfl⟩, ok_bind, check, if_neg hcontext]
  rfl

/-- A round of the loop, at the first thread of the list. -/
theorem timerWake_round (h : k.sched.Inv) (hlevel : k.sched.level = .off)
    (hl : k.timerList.Linked .head .tail ((t :: ts).map .thread))
    (hmagic : (k.thread t).magic = true) (hblocked : (k.thread t).status = .blocked)
    (hdue : (k.thread t).wakeUpTick ≤ k.ticks) (hno : ¬ k.sched.Preempts lab t)
    (he : (ts.map Elem.thread ++ [Elem.tail]).head? = some e) :
    timerWake lab (fuel + 1) (.thread t) k = timerWake lab fuel e (k.waking lab t) := by
  have hnext : k.listNext (.thread t) = .ok e := by
    have hsplit := @Memory.Linked.next_of_split Elem k.timerList .head .tail (.thread t) []
      (ts.map .thread) hl
    rw [listNext, hsplit.trans he]
    rfl
  have hunblock : k.sched.threadUnblock lab t = .ok (k.sched.readying lab t) := by
    refine (Sched.threadUnblock_eq_ok h.runningOk).mpr ⟨hmagic, hblocked, ?_⟩
    rw [if_neg hno, hlevel]
    exact ⟨by simp, rfl⟩
  have hpop : ∀ k₁ : Kernel, k₁.timerList = k.timerList →
      k₁.listPopFront = .ok { k₁ with timerList := k.timerList.remove (.thread t) } := by
    intro k₁ hsame
    obtain ⟨p, n, hp, hn⟩ := hl.interior (x := .thread t) (by simp)
    simp [listPopFront, listBegin, hsame, hl.next_head, hp, hn, check, bind, Except.bind, pure,
      Except.pure]
  rw [timerWake, if_neg (Int.not_lt.mpr hdue)]
  simp only [hnext, onSched, note, hunblock, hpop, pure, Except.pure, bind, Except.bind]
  rfl

/-- The loop stops with a failed assertion at a thread that preempts the interrupted one. -/
theorem timerWake_preempts (h : k.sched.Inv) (hintr : k.sched.inExternalIntr = true)
    (hl : k.timerList.Linked .head .tail ((t :: ts).map .thread))
    (hmagic : (k.thread t).magic = true) (hblocked : (k.thread t).status = .blocked)
    (hdue : (k.thread t).wakeUpTick ≤ k.ticks) (hpreempts : k.sched.Preempts lab t) :
    timerWake lab (fuel + 1) (.thread t) k = .error .threadYieldContext := by
  have hnext : ∃ e, k.listNext (.thread t) = .ok e := by
    obtain ⟨p, n, -, hn⟩ := hl.interior (x := .thread t) (by simp)
    exact ⟨n, by rw [listNext, hn]; rfl⟩
  obtain ⟨e, he⟩ := hnext
  rw [timerWake, if_neg (Int.not_lt.mpr hdue)]
  simp only [he, ok_bind, onSched, note,
    threadUnblock_preempts h hintr hmagic hblocked hpreempts]
  rfl

theorem waking_inv (h : k.sched.Inv) (hmagic : (k.thread t).magic = true)
    (hblocked : (k.thread t).status = .blocked) : (k.waking lab t).sched.Inv :=
  h.readying hmagic hblocked

theorem waking_thread_of_ne (hu : u ≠ t) :
    (k.waking lab t).sched.thread u = k.sched.thread u :=
  Sched.readying_thread_of_ne hu

theorem waking_due : (k.waking lab t).due ts = k.due ts := by
  have hwake : ∀ u, ((k.waking lab t).thread u).wakeUpTick = (k.thread u).wakeUpTick :=
    fun _ => Sched.readying_wakeUpTick
  simp only [due, hwake]
  rfl

theorem waking_preempts : (k.waking lab t).sched.Preempts lab u ↔ k.sched.Preempts lab u :=
  Sched.readying_preempts

theorem Waking.refl (h : k.sched.Inv) (hintr : k.sched.inExternalIntr = true)
    (hlevel : k.sched.level = .off) : Waking [] k k :=
  ⟨h, .refl h.runningOk, rfl, hintr, hlevel, rfl, rfl, rfl, rfl, rfl, rfl⟩

/-- The rounds after the first one. -/
theorem Waking.cons (h : k.sched.Inv) (hblocked : (k.thread t).status = .blocked)
    (hw : Waking woken (k.waking lab t) k₁) : Waking (t :: woken) k k₁ := by
  have hmoves := (@Sched.Inv.readying_moves _ _ lab h hblocked).trans rfl hw.moves
  refine ⟨hw.inv, hmoves, hw.running, hw.inExternalIntr, hw.level, hw.sema, hw.holder, hw.waiters,
    hw.held, hw.ticks, ?_⟩
  rw [hw.trace]
  simp [waking, note]

/-- The loop on a list whose due threads are blocked. -/
theorem timerWake_linked (h : k.sched.Inv) (hintr : k.sched.inExternalIntr = true)
    (hlevel : k.sched.level = .off) (hl : k.timerList.Linked .head .tail (ts.map .thread))
    (he : (ts.map Elem.thread ++ [Elem.tail]).head? = some e) (hfuel : ts.length ≤ fuel)
    (hmagic : ∀ t ∈ k.due ts, (k.thread t).magic = true)
    (hblocked : ∀ t ∈ k.due ts, (k.thread t).status = .blocked) :
    (∃ t ∈ k.due ts, k.sched.Preempts lab t) ∧
      timerWake lab fuel e k = .error .threadYieldContext ∨
    (∀ t ∈ k.due ts, ¬ k.sched.Preempts lab t) ∧ ∃ k₁ rest, timerWake lab fuel e k = .ok k₁ ∧
      Waking (k.due ts) k k₁ ∧ ts = k.due ts ++ rest ∧
      k₁.timerList.Linked .head .tail (rest.map .thread) := by
  induction ts generalizing k e fuel with
  | nil =>
    obtain rfl : e = .tail := (Option.some.inj he).symm
    refine .inr ⟨by simp [due], k, [], ?_, Waking.refl h hintr hlevel, rfl, hl⟩
    cases fuel <;> rfl
  | cons t ts ih =>
    obtain rfl : e = .thread t := (Option.some.inj he).symm
    by_cases hdue : (k.thread t).wakeUpTick ≤ k.ticks
    · have hcons : k.due (t :: ts) = t :: k.due ts := by simp [due, hdue]
      obtain ⟨fuel, rfl⟩ : ∃ n, fuel = n + 1 := ⟨fuel - 1, by simp at hfuel; omega⟩
      rw [hcons] at hmagic hblocked ⊢
      have htmagic := hmagic t (by simp)
      have htblocked := hblocked t (by simp)
      by_cases hpreempts : k.sched.Preempts lab t
      · exact .inl ⟨⟨t, by simp, hpreempts⟩,
          timerWake_preempts h hintr hl htmagic htblocked hdue hpreempts⟩
      · have hne : ∀ u ∈ k.due ts, u ≠ t := by
          intro u hu hut
          have hnodup := (List.nodup_append.mp (List.nodup_cons.mp hl.nodup).2).1
          rw [List.map_cons, List.nodup_cons] at hnodup
          exact hnodup.1 (List.mem_map_of_mem (hut ▸ List.takeWhile_subset _ hu))
        have hthread : ∀ u ∈ k.due ts, (k.waking lab t).sched.thread u = k.sched.thread u :=
          fun u hu => waking_thread_of_ne (hne u hu)
        obtain ⟨e, he⟩ : ∃ e, (ts.map Elem.thread ++ [Elem.tail]).head? = some e := by
          cases ts <;> exact ⟨_, rfl⟩
        have hround := @timerWake_round k lab t ts e fuel h hlevel hl htmagic htblocked hdue
          hpreempts he
        have hmagic' : ∀ u ∈ k.due ts, ((k.waking lab t).thread u).magic = true := by
          intro u hu
          rw [Kernel.thread, hthread u hu]
          exact hmagic u (List.mem_cons_of_mem t hu)
        have hblocked' : ∀ u ∈ k.due ts, ((k.waking lab t).thread u).status = .blocked := by
          intro u hu
          rw [Kernel.thread, hthread u hu]
          exact hblocked u (List.mem_cons_of_mem t hu)
        have hrest := @ih (k.waking lab t) e fuel (waking_inv h htmagic htblocked) hintr rfl
          hl.remove_first he (Nat.le_of_succ_le_succ hfuel)
        simp only [waking_due, waking_preempts] at hrest
        rw [hround]
        rcases hrest hmagic' hblocked' with ⟨⟨u, hu, hup⟩, herr⟩ | ⟨hno, k₁, rest, hk₁, hw, hsplit, hl₁⟩
        · exact .inl ⟨⟨u, List.mem_cons_of_mem t hu, hup⟩, herr⟩
        · refine .inr ⟨?_, k₁, rest, hk₁, hw.cons h htblocked, ?_, hl₁⟩
          · intro u hu
            rcases List.mem_cons.mp hu with rfl | hu
            · exact hpreempts
            · exact hno u hu
          · rw [List.cons_append, ← hsplit]
    · have hnil : k.due (t :: ts) = [] := by simp [due, hdue]
      rw [hnil]
      refine .inr ⟨by simp, k, t :: ts, ?_, Waking.refl h hintr hlevel, rfl, hl⟩
      cases fuel <;> simp [timerWake, Int.not_le.mp hdue, pure, Except.pure]

/-! ## The handler -/

theorem ticking_thread : k.ticking.sched.thread t = (k.sched.push [.iret]).thread t := rfl

theorem ticking_due : k.ticking.due ts =
    ts.takeWhile fun t => (k.thread t).wakeUpTick ≤ toInt64 (k.ticks + 1) := by
  have hwake : ∀ t, (k.ticking.thread t).wakeUpTick = (k.thread t).wakeUpTick := by
    intro t
    rw [Kernel.thread, ticking_thread]
    by_cases hrunning : t = k.sched.running <;> simp [hrunning]
  simp only [due, hwake]
  rfl

theorem TimerInv.ticking_due (ht : k.TimerInv ts) : k.ticking.due ts = k.dueThreads := by
  rw [Kernel.ticking_due, dueThreads, ht.timerThreads_eq]

theorem ticking_preempts : k.ticking.sched.Preempts lab t ↔ k.sched.Preempts lab t := by
  have hpriority : ∀ t, (k.ticking.sched.thread t).priority = (k.sched.thread t).priority := by
    intro t
    rw [ticking_thread]
    by_cases hrunning : t = k.sched.running <;> simp [hrunning]
  simp only [Sched.Preempts, hpriority]
  rfl

/-- Up to the end of its loop the handler asserts nothing that could fail. -/
theorem intrHandler_eq (h : k.sched.RunningOk) (hintr : k.sched.inExternalIntr = false)
    (he : k.listBegin = .ok e) :
    k.intrHandler lab = (do
      let k₁ ← timerWake lab k.sched.allList.length e k.ticking
      check (k₁.sched.level = .off) .intrHandlerLevel
      check (k₁.sched.inExternalIntr = true) .intrHandlerContext
      let k₂ : Kernel := { k₁ with sched := { k₁.sched with inExternalIntr := false } }
      if k₂.sched.yieldOnReturn then k₂.onSched (Sched.threadYield lab) else return k₂) := by
  have htick : k.interrupted.sched.threadTick = .ok k.ticking.sched := by
    refine Sched.threadTick_eq_ok.mpr ⟨?_, fun _ => rfl, rfl⟩
    simpa [Sched.RunningOk, interrupted] using h
  have hloop : k.interrupted.timerInterrupt lab =
      timerWake lab k.sched.allList.length e k.ticking := by
    have hbegin : k.ticking.listBegin = .ok e := he
    unfold timerInterrupt onSched
    simp only [show ({ k.interrupted with ticks := toInt64 (k.interrupted.ticks + 1) } :
      Kernel).sched.threadTick = _ from htick, ok_bind]
    change k.ticking.listBegin >>= (fun e => timerWake lab k.sched.allList.length e k.ticking) = _
    rw [hbegin, ok_bind]
  rw [← hloop]
  exact check_bind hintr

/-- No timer interrupt comes between the insertion of a thread that is due and its
`intr_disable`. -/
def NoneFallingAsleep (k : Kernel) : Prop := ∀ t ∈ k.dueThreads, .sleepDisable ∉ k.stack t

/-- While interrupts are enabled, a due thread that has executed `intr_disable` is blocked. -/
theorem TimerInv.due_asleep (ht : k.TimerInv ts) (he : k.sched.level = .on)
    (hfalling : k.NoneFallingAsleep) : ∀ t ∈ k.dueThreads, k.Asleep t := by
  intro t hdue
  have hmem : t ∈ ts := ht.timerThreads_eq ▸ List.takeWhile_subset _ hdue
  rcases (ht.mem t).mp hmem with hon | hon | hon
  · exact absurd hon (hfalling t hdue)
  · have hlevel := (ht.block t hon).2.1
    rw [he] at hlevel
    cases hlevel
  · exact hon

/-- The handler returns once its loop has ended. -/
theorem intrHandler_succeeds (h : k.sched.Inv) (hintr : k.sched.inExternalIntr = false)
    (hbegin : k.listBegin = .ok e)
    (hwake : timerWake lab k.sched.allList.length e k.ticking = .ok k₁)
    (hw : Waking woken k.ticking k₁) :
    ∃ k', k.intrHandler lab = .ok k' ∧ Ticked woken k k' ∧ k'.timerList = k₁.timerList := by
  have hinv : ({ k₁.sched with inExternalIntr := false } : Sched).Inv :=
    ⟨⟨hw.inv.magic, hw.inv.status, hw.inv.nodup⟩, hw.inv.runningOk⟩
  have hok : ∃ k', k.intrHandler lab = .ok k' := by
    rw [intrHandler_eq h.runningOk hintr hbegin, hwake, ok_bind, check_bind hw.level,
      check_bind hw.inExternalIntr]
    by_cases hyield : k₁.sched.yieldOnReturn = true
    · obtain ⟨s, hs⟩ := @Sched.threadYield_succeeds _ lab hinv rfl
      exact ⟨_, (if_pos hyield).trans (onSched_eq_ok.mpr ⟨s, hs, rfl⟩)⟩
    · exact ⟨_, if_neg hyield⟩
  obtain ⟨k', hk⟩ := hok
  obtain ⟨-, e', k₁', hbegin', hwake', htimer, hticked⟩ := intrHandler_waking h hk
  obtain rfl : e' = e := Except.ok.inj (hbegin'.symm.trans hbegin)
  obtain rfl : k₁' = k₁ := Except.ok.inj (hwake'.symm.trans hwake)
  exact ⟨k', hk, hticked woken hw, htimer⟩

/-- A timer interrupt that finds all due threads blocked wakes exactly these, or fails where one of
them would preempt the interrupted thread. -/
theorem tick_outcome (h : k.BlockInv) (ht : k.TimerInv ts) (he : k.sched.level = .on)
    (hfalling : k.NoneFallingAsleep) :
    (∃ t ∈ k.dueThreads, k.sched.Preempts lab t) ∧
      k.step lab .tick = .error .threadYieldContext ∨
    (∀ t ∈ k.dueThreads, ¬ k.sched.Preempts lab t) ∧ ∃ k' rest, k.step lab .tick = .ok k' ∧
      Ticked k.dueThreads k k' ∧ ts = k.dueThreads ++ rest ∧
      k'.timerList.Linked .head .tail (rest.map .thread) := by
  have hasleep := ht.due_asleep he hfalling
  have hthread : ∀ t ∈ k.dueThreads, k.ticking.sched.thread t = k.sched.thread t := by
    intro t hdue
    have hne : t ≠ k.sched.running := h.ne_running (hasleep t hdue).2
    rw [ticking_thread]
    simp [hne]
  have hmagic : ∀ t ∈ k.dueThreads, (k.ticking.thread t).magic = true := by
    intro t hdue
    rw [Kernel.thread, hthread t hdue]
    exact ht.magic h (ht.timerThreads_eq ▸ List.takeWhile_subset _ hdue)
  have hblocked : ∀ t ∈ k.dueThreads, (k.ticking.thread t).status = .blocked := by
    intro t hdue
    rw [Kernel.thread, hthread t hdue]
    exact (hasleep t hdue).2
  obtain ⟨e, hfirst⟩ : ∃ e, (ts.map Elem.thread ++ [Elem.tail]).head? = some e := by
    cases ts <;> exact ⟨_, rfl⟩
  have hbegin : k.listBegin = .ok e := by
    rw [listBegin, ht.linked.next_head.trans hfirst]
    rfl
  rw [← ht.ticking_due] at hmagic hblocked ⊢
  rcases @timerWake_linked k.ticking lab ts e _ (ticking_inv h.sched) rfl rfl ht.linked hfirst
    ht.length_le hmagic hblocked with ⟨⟨t, hdue, hpreempts⟩, herr⟩ | ⟨hno, k₁, rest, hwake, hw, hsplit, hl⟩
  · refine .inl ⟨⟨t, hdue, ticking_preempts.mp hpreempts⟩, ?_⟩
    rw [step, intrHandler_eq h.sched.runningOk h.intr hbegin, herr]
    rfl
  · obtain ⟨k', hk, hticked, htimer⟩ := intrHandler_succeeds h.sched h.intr hbegin hwake hw
    refine .inr ⟨fun t hdue hp => hno t hdue (ticking_preempts.mpr hp), k', rest, hk, hticked,
      hsplit, ?_⟩
    rw [htimer]
    exact hl

/-! ## The invariant -/

theorem tick_mem_stack {a : Action} (hw : Ticked woken k k') (ha : a.setsLevel = false) :
    a ∈ k'.stack t ↔ a ∈ k.stack t := by
  by_cases hrunning : t = k.running
  · subst hrunning
    obtain ⟨ns, hns, heq⟩ := hw.moves.stackRunning
    have hno : a ∉ ns := by
      intro hmem
      rw [hns a hmem] at ha
      cases ha
    rw [show k'.stack k.running = _ from heq]
    simp [hno]
  · rw [show k'.stack t = _ from hw.moves.stack t hrunning]

theorem tick_asleep (h : k.BlockInv) (hw : Ticked woken k k') :
    k'.Asleep t ↔ k.Asleep t ∧ t ∉ woken := by
  have hreturn : .sleepReturn ∈ k.stack t → some t ≠ k.sched.idleThread := by
    intro hmem hidle
    rcases h.idle_mem hidle hmem with hno | hno | hno <;> cases hno
  by_cases hrunning : t = k.running
  · subst hrunning
    refine ⟨?_, fun hold => absurd hold.1 h.running_not_asleep⟩
    intro hnew
    have hidle := hreturn ((tick_mem_stack hw rfl).mp hnew.mem)
    exact ((hw.moves.blocked_running hidle).mp hnew.2).elim
  · simp only [Asleep, show k'.stack t = _ from hw.moves.stack t hrunning, and_assoc]
    refine and_congr_right fun hstack => hw.moves.blocked_of_ne hrunning (hreturn ?_)
    rw [show k.stack t = _ from hstack]
    exact List.mem_singleton_self _

theorem tick_account (hw : Ticked woken k k') (t : Tid) :
    k'.trace.count (.link t) = k.trace.count (.link t) ∧
      k'.trace.countP (Note.wakes t) = woken.count t + k.trace.countP (Note.wakes t) := by
  have hlink : ∀ tick : Int, (woken.map fun u => Note.wake u tick).count (.link t) = 0 := by
    intro tick
    rw [List.count_eq_zero]
    intro hmem
    obtain ⟨u, -, hu⟩ := List.mem_map.mp hmem
    cases hu
  have hwake : ∀ tick : Int,
      (woken.map fun u => Note.wake u tick).countP (Note.wakes t) = woken.count t := by
    intro tick
    rw [List.countP_map]
    exact List.countP_congr fun u _ => by simp [Note.wakes]
  rw [hw.trace, List.count_append, List.countP_append, List.count_reverse, List.countP_reverse,
    hlink, hwake]
  exact ⟨Nat.zero_add _, rfl⟩

/-- A timer interrupt takes the due threads off the list. -/
theorem TimerInv.tick {rest : List Tid} (h : k.BlockInv) (ht : k.TimerInv (k.dueThreads ++ rest))
    (he : k.sched.level = .on) (hfalling : k.NoneFallingAsleep) (hk : k.step lab .tick = .ok k')
    (hw : Ticked k.dueThreads k k') (hl : k'.timerList.Linked .head .tail (rest.map .thread)) :
    k'.TimerInv rest := by
  have hasleep := ht.due_asleep he hfalling
  have hnoBlock : ∀ t, .sleepBlock ∉ k.stack t := by
    intro t hmem
    have hlevel := (ht.block t hmem).2.1
    rw [he] at hlevel
    cases hlevel
  refine ⟨hl, step_sleepForm h.sched (show k.Enabled .tick from he) hk ht.form, ?_, ?_, ?_, ?_⟩
  · intro t hmem
    exact absurd ((tick_mem_stack hw rfl).mp hmem) (hnoBlock t)
  · intro t
    have hold := ht.mem t
    simp only [List.mem_append, OnTimerList, hnoBlock, false_or] at hold
    simp only [OnTimerList, tick_mem_stack hw (a := .sleepDisable) rfl,
      tick_mem_stack hw (a := .sleepBlock) rfl, hnoBlock, tick_asleep h hw, false_or]
    have hdisjoint := (List.nodup_append.mp ht.nodup).2.2
    have hdue : t ∈ k.dueThreads → .sleepDisable ∉ k.stack t := hfalling t
    have hrest : t ∈ rest → t ∉ k.dueThreads := fun hmem hdue => hdisjoint t hdue t hmem rfl
    tauto
  · intro t hmem
    rw [hw.moves.allList]
    exact ht.listed t (List.mem_append_right _ hmem)
  · intro t
    obtain ⟨hlink, hwake⟩ := tick_account hw t
    rw [hlink, hwake, ht.account, List.count_append]
    omega

/-- No function starts behind its insertion into `timer_list`. -/
theorem body_onTimerList {op : Op} {a : Action}
    (ha : a = .sleepDisable ∨ a = .sleepBlock ∨ a = .sleepReturn) : a ∉ Op.body lab t op := by
  intro hmem
  rcases ha with rfl | rfl | rfl <;> cases begins_of_mem hmem

theorem TimerInv.call {op : Op} (h : k.BlockInv) (ht : k.TimerInv ts)
    (he : k.Enabled (.call op)) (hk : k.step lab (.call op) = .ok k') : k'.TimerInv ts := by
  have hform := step_sleepForm h.sched he hk ht.form
  have hother := fun t (ht : t ≠ k.running) => @call_undisturbed k k' lab t op hk ht
  obtain ⟨hrunning, -⟩ := call_stack he hk
  have hnone : ¬ k.OnTimerList k.running := by
    rw [OnTimerList, Asleep, show k.stack k.running = [] from he]
    simp
  have hnone' : ¬ k'.OnTimerList k.running := by
    intro hon
    rcases hon with hon | hon | hon
    · rw [hrunning] at hon
      exact body_onTimerList (.inl rfl) hon
    · rw [hrunning] at hon
      exact body_onTimerList (.inr (.inl rfl)) hon
    · have hmem := hon.mem
      rw [hrunning] at hmem
      exact body_onTimerList (.inr (.inr rfl)) hmem
  have hon : ∀ t, k'.OnTimerList t ↔ k.OnTimerList t := by
    intro t
    by_cases hrun : t = k.running
    · rw [hrun]
      exact iff_of_false hnone' hnone
    · have hund := hother t hrun
      simp only [OnTimerList, Asleep, hund.stack, hund.blocked]
  refine ⟨?_, hform, ?_, fun t => (ht.mem t).trans (hon t).symm, ?_, ?_⟩
  · cases pure_eq_ok.mp hk
    exact ht.linked
  · intro t hmem
    have hrun : t ≠ k.running := by
      intro hrun
      rw [hrun, hrunning] at hmem
      exact body_onTimerList (.inr (.inl rfl)) hmem
    rw [(hother t hrun).stack] at hmem
    exact absurd (ht.block t hmem).1 hrun
  · cases pure_eq_ok.mp hk
    exact ht.listed
  · cases pure_eq_ok.mp hk
    exact ht.account

theorem boot_timerInv (init : Nat → Nat) : (boot init).TimerInv [] := by
  have hawake := (boot_awakeInv init).awake
  refine ⟨?_, ?_, ?_, ?_, fun t hmem => (List.not_mem_nil hmem).elim, fun t => rfl⟩
  · exact ⟨by simp, by simp [boot], by simp [boot], by simp [boot, Memory.Segment]⟩
  · intro t a ha hsleeps
    rw [hawake t a ha] at hsleeps
    cases hsleeps
  · intro t hmem
    cases hawake t _ hmem
  · intro t
    refine iff_of_false List.not_mem_nil ?_
    intro hon
    rcases hon with hon | hon | hon
    · cases hawake t _ hon
    · cases hawake t _ hon
    · cases hawake t _ hon.mem

end Kernel

end CSE130.Pintos
