import CSE130.Pintos.AlarmInterrupt

/-!
# The order of `timer_list`

Each call of `timer_sleep` is executed without a timer interrupt up to its `thread_block`. If in
addition its inner loop passes only threads with the same wake-up tick, `timer_list` is always in
the order of the wake-up ticks, and every thread is woken at its wake-up tick.
-/

namespace CSE130.Pintos

open CSE130.Library

/-- An action of `timer_sleep` up to its `thread_block`. -/
def Action.fallsAsleep : Action → Bool
  | .sleepReturn => false
  | a => a.sleeps

namespace Kernel

variable {k k' : Kernel} {lab : Lab} {a b : Action} {rest : List Action} {t u : Tid}
  {ts pre post : List Tid} {x : Elem} {e : Event} {total : Int} {init : Nat → Nat}

/-! ## Runs -/

/-- No timer interrupt comes inside a call of `timer_sleep` before its `thread_block`, and the
wake-up tick of the call fits into an `int64_t`. -/
def atomicSleep (k : Kernel) : Event → Bool
  | .tick => (k.stack k.running).all fun a => !a.fallsAsleep
  | .call (.timerSleep ticks) => k.ticks + ticks < 2 ^ 63
  | _ => true

/-- The inner loop of `timer_sleep` passes only threads with the wake-up tick of the caller. -/
def passesEqual (k : Kernel) : Event → Bool
  | .act =>
    match (k.stack k.running).head? with
    | some (.sleepInnerNext (.thread t)) =>
      (k.thread t).wakeUpTick = (k.thread k.running).wakeUpTick
    | _ => true
  | _ => true

/-- The events of the runs in which calls of `timer_sleep` are atomic. -/
def AtomicAdmits (k : Kernel) (e : Event) : Prop := k.SleepAdmits e ∧ k.atomicSleep e = true

/-- The events of those of these runs in which the inner loop passes equal wake-up ticks only. -/
def OrderedAdmits (k : Kernel) (e : Event) : Prop := k.AtomicAdmits e ∧ k.passesEqual e = true

instance : Decidable (k.AtomicAdmits e) := by
  unfold AtomicAdmits
  infer_instance

instance : Decidable (k.OrderedAdmits e) := by
  unfold OrderedAdmits
  infer_instance

/-! ## The invariant -/

/-- The tick `total` is to come, and fits into an `int64_t`. -/
def Ahead (k : Kernel) (total : Int) : Prop := k.ticks < total ∧ total < 2 ^ 63

/-- The threads `ts` wake up no later than the running thread. -/
def Earlier (k : Kernel) (ts : List Tid) : Prop :=
  ∀ t ∈ ts, (k.thread t).wakeUpTick ≤ (k.thread k.running).wakeUpTick

/-- The threads `ts` wake up no earlier than the running thread. -/
def Later (k : Kernel) (ts : List Tid) : Prop :=
  ∀ t ∈ ts, (k.thread k.running).wakeUpTick ≤ (k.thread t).wakeUpTick

/-- The element `x` of a list is the first one of `post`, behind the threads `pre`. -/
def At (ts : List Tid) (x : Elem) (pre post : List Tid) : Prop :=
  ts = pre ++ post ∧ (post.map Elem.thread ++ [Elem.tail]).head? = some x

/-- What holds of the walk of the running thread through the list `ts`. -/
def ScanOk (k : Kernel) (ts : List Tid) : Action → Prop
  | .sleepStart ticks => k.ticks + ticks < 2 ^ 63
  | .sleepStore total => k.Ahead total
  | .sleepScan total => k.Ahead total ∧ (k.thread k.running).wakeUpTick = total
  | .sleepOuter total x => k.Ahead total ∧ (k.thread k.running).wakeUpTick = total ∧
      ∃ pre post, At ts x pre post ∧ k.Earlier pre
  | .sleepOuterNext total x => k.Ahead total ∧ (k.thread k.running).wakeUpTick = total ∧
      ∃ pre t post, At ts x pre (t :: post) ∧ k.Earlier (pre ++ [t])
  | .sleepInner x | .sleepLink x => k.Ahead (k.thread k.running).wakeUpTick ∧
      ∃ pre post, At ts x pre post ∧ k.Earlier pre ∧ k.Later post
  | .sleepInnerNext x => k.Ahead (k.thread k.running).wakeUpTick ∧
      ∃ pre t post, At ts x pre (t :: post) ∧ k.Earlier pre ∧ k.Later (t :: post)
  | _ => True

structure AlarmInv (k : Kernel) (ts : List Tid) : Prop where
  sorted : ts.Pairwise fun t u => (k.thread t).wakeUpTick ≤ (k.thread u).wakeUpTick
  ahead : ∀ t ∈ ts, k.Ahead (k.thread t).wakeUpTick
  low : -2 ^ 63 ≤ k.ticks
  inside : ∀ t, ∀ a ∈ k.stack t, a.fallsAsleep = true →
    t = k.running ∧ k.stack t = [a] ∧ k.ScanOk ts a

theorem fallsAsleep_eq_false (ha : a.sleeps = false) : a.fallsAsleep = false := by
  cases a <;> first | exact ha | rfl

theorem Conts.fallsAsleep_eq_false {pushed : List Action} (h : Conts a pushed)
    (ha : a.fallsAsleep = false) : ∀ b ∈ pushed, b.fallsAsleep = false := by
  intro b hb
  cases hsleeps : a.sleeps with
  | false => exact Kernel.fallsAsleep_eq_false (Conts.sleeps_eq_false h hsleeps b hb)
  | true =>
    obtain rfl : a = .sleepReturn := by
      cases a <;> first | rfl | (cases hsleeps <;> cases ha)
    cases h
    cases hb

/-- Putting the running thread between earlier and later threads keeps the order. -/
theorem sorted_middle (hearlier : k.Earlier pre) (hlater : k.Later post)
    (h : (pre ++ post).Pairwise fun t u => (k.thread t).wakeUpTick ≤ (k.thread u).wakeUpTick) :
    (pre ++ k.running :: post).Pairwise
      fun t u => (k.thread t).wakeUpTick ≤ (k.thread u).wakeUpTick := by
  obtain ⟨hpre, hpost, hacross⟩ := List.pairwise_append.mp h
  refine List.pairwise_append.mpr ⟨hpre, List.pairwise_cons.mpr ⟨hlater, hpost⟩, ?_⟩
  intro t ht u hu
  rcases List.mem_cons.mp hu with rfl | hu
  · exact hearlier t ht
  · exact hacross t ht u hu

theorem scanOk_congr (hticks : k'.ticks = k.ticks) (hrunning : k'.running = k.running)
    (hwake : ∀ t, (k'.thread t).wakeUpTick = (k.thread t).wakeUpTick) :
    k'.ScanOk ts a ↔ k.ScanOk ts a := by
  cases a <;> simp only [ScanOk, Earlier, Later, Ahead, hticks, hrunning, hwake]

theorem AlarmInv.of_eq (h : k.AlarmInv ts) (hticks : k'.ticks = k.ticks)
    (hwake : ∀ t ∈ ts, (k'.thread t).wakeUpTick = (k.thread t).wakeUpTick)
    (hinside : ∀ t, ∀ a ∈ k'.stack t, a.fallsAsleep = true →
      t = k'.running ∧ k'.stack t = [a] ∧ k'.ScanOk ts a) : k'.AlarmInv ts := by
  refine ⟨?_, ?_, ?_, hinside⟩
  · refine h.sorted.imp_of_mem ?_
    intro t u ht hu hle
    rw [hwake t ht, hwake u hu]
    exact hle
  · intro t ht
    rw [hwake t ht, Ahead, hticks]
    exact h.ahead t ht
  · rw [hticks]
    exact h.low

/-- The running thread goes from one action of `timer_sleep` to the next. -/
theorem AlarmInv.goOn (h : k.AlarmInv ts) (hrunning : k'.running = k.running)
    (hticks : k'.ticks = k.ticks) (hother : ∀ t, t ≠ k.running → k'.stack t = k.stack t)
    (hwake : ∀ t ∈ ts, (k'.thread t).wakeUpTick = (k.thread t).wakeUpTick)
    (hstack : k'.stack k.running = [b]) (hscan : k'.ScanOk ts b) : k'.AlarmInv ts := by
  refine h.of_eq hticks hwake ?_
  intro t c hc hfalls
  by_cases ht : t = k.running
  · subst ht
    rw [hstack] at hc ⊢
    obtain rfl := List.mem_singleton.mp hc
    exact ⟨hrunning.symm, rfl, hscan⟩
  · rw [hother t ht] at hc
    exact absurd (h.inside t c hc hfalls).1 ht

/-! ## Positions on the list -/

theorem At.not_head : ¬ At ts .head pre post := by
  intro h
  obtain ⟨-, hhead⟩ := h
  cases post <;> cases hhead

theorem At.tail (h : At ts .tail pre post) : post = [] := by
  obtain ⟨-, hhead⟩ := h
  cases post with
  | nil => rfl
  | cons t post => cases hhead

theorem At.thread (h : At ts (.thread t) pre post) : ∃ post', post = t :: post' := by
  obtain ⟨-, hhead⟩ := h
  cases post with
  | nil => cases hhead
  | cons u post =>
    cases hhead
    exact ⟨post, rfl⟩

theorem exists_at (ts pre post : List Tid) (h : ts = pre ++ post) : ∃ x, At ts x pre post := by
  cases post with
  | nil => exact ⟨.tail, h, rfl⟩
  | cons t post => exact ⟨.thread t, h, rfl⟩

/-- `list_begin` finds the first thread. -/
theorem TimerInv.listBegin_eq (ht : k.TimerInv ts) : ∃ x, k.listBegin = .ok x ∧ At ts x [] ts := by
  obtain ⟨x, hx⟩ := exists_at ts [] ts rfl
  refine ⟨x, ?_, hx⟩
  rw [listBegin, ht.linked.next_head.trans hx.2]
  rfl

/-- `list_next` finds the next thread. -/
theorem TimerInv.listNext_eq (ht : k.TimerInv ts) (hx : At ts x pre (t :: post)) :
    ∃ y, k.listNext x = .ok y ∧ At ts y (pre ++ [t]) post := by
  obtain ⟨hsplit, hhead⟩ := hx
  obtain rfl : Elem.thread t = x := Option.some.inj hhead
  obtain ⟨y, hy⟩ := exists_at ts (pre ++ [t]) post (by simp [hsplit])
  refine ⟨y, ?_, hy⟩
  have hl := ht.linked
  rw [hsplit, List.map_append, List.map_cons] at hl
  rw [listNext, hl.next_of_split.trans hy.2]
  rfl

/-! ## One action of `timer_sleep` -/

theorem popped_wakeUpTick : (k.popped.sched.thread t).wakeUpTick = (k.sched.thread t).wakeUpTick := by
  by_cases ht : t = k.sched.running <;> simp [ht]

/-- The running thread has left `timer_sleep`, or goes on with one action. -/
theorem AlarmInv.popped (h : k.AlarmInv ts) (hstack : k.stack k.running = [a]) :
    k.popped.AlarmInv ts := by
  refine h.of_eq rfl (fun _ _ => popped_wakeUpTick) ?_
  intro t b hb hfalls
  by_cases ht : t = k.running
  · rw [ht, popped_stack_running hstack] at hb
    cases hb
  · rw [popped_stack_of_ne ht] at hb
    exact absurd (h.inside t b hb hfalls).1 ht

theorem pushed_wakeUpTick :
    ((k.popped.push [b]).thread t).wakeUpTick = (k.thread t).wakeUpTick := by
  rw [Kernel.thread, push_sched]
  by_cases ht : t = k.sched.running <;> simp [ht]

theorem pushed_stack (hstack : k.stack k.running = [a]) :
    (k.popped.push [b]).stack k.running = [b] := by
  have hsingle : (k.sched.thread k.sched.running).stack = [a] := hstack
  simp [stack, hsingle]

theorem AlarmInv.push (h : k.AlarmInv ts) (hstack : k.stack k.running = [a])
    (hscan : k.ScanOk ts b) : (k.popped.push [b]).AlarmInv ts := by
  have hscan' : (k.popped.push [b]).ScanOk ts b := 
    (@scanOk_congr k (k.popped.push [b]) b ts rfl rfl fun _ => pushed_wakeUpTick).mpr hscan
  refine h.goOn rfl rfl ?_ (fun _ _ => pushed_wakeUpTick) (pushed_stack hstack) hscan'
  intro t ht
  simp [stack, ht]

theorem toInt64_eq {z : Int} (hlow : -2 ^ 63 ≤ z) (hhigh : z < 2 ^ 63) : toInt64 z = z :=
  Int.bmod_eq_of_le (m := 2 ^ 64) (by omega) (by omega)

theorem act_sleepStart {ticks : Int} (h : k.AlarmInv ts)
    (hstack : k.stack k.running = [.sleepStart ticks]) (hk : k.step lab .act = .ok k') :
    k'.AlarmInv ts := by
  obtain ⟨-, -, hfits⟩ := h.inside k.running (.sleepStart ticks) (by simp [hstack]) rfl
  rw [step_act hstack] at hk
  simp only [exec, sleepStart, bind_eq_ok] at hk
  obtain ⟨_, -, hk⟩ := hk
  split_ifs at hk with hticks
  · cases hk
    exact h.popped hstack
  · cases hk
    refine h.push hstack ?_
    have hlow := h.low
    have heq : toInt64 (k.ticks + ticks) = k.ticks + ticks :=
      toInt64_eq (by omega) hfits
    change k.Ahead (toInt64 (k.ticks + ticks))
    rw [heq]
    exact ⟨by omega, hfits⟩

theorem act_sleepScan (ht : k.TimerInv ts) (h : k.AlarmInv ts)
    (hstack : k.stack k.running = [.sleepScan total]) (hk : k.step lab .act = .ok k') :
    k'.AlarmInv ts := by
  obtain ⟨-, -, hahead, hchosen⟩ := h.inside k.running (.sleepScan total) (by simp [hstack]) rfl
  obtain ⟨x, hx, hat⟩ := ht.listBegin_eq
  rw [step_act hstack] at hk
  simp only [exec, bind_eq_ok] at hk
  obtain ⟨y, hy, hk⟩ := hk
  obtain rfl : y = x := Except.ok.inj (hy.symm.trans hx)
  cases hk
  exact h.push hstack ⟨hahead, hchosen, [], ts, hat, by simp [Earlier]⟩

theorem act_sleepOuter (h : k.AlarmInv ts) (hstack : k.stack k.running = [.sleepOuter total x])
    (hk : k.step lab .act = .ok k') : k'.AlarmInv ts := by
  obtain ⟨-, -, hahead, hchosen, pre, post, hat, hearlier⟩ :=
    h.inside k.running (.sleepOuter total x) (by simp [hstack]) rfl
  have hahead' : k.Ahead (k.thread k.running).wakeUpTick := hchosen ▸ hahead
  rw [step_act hstack] at hk
  cases x with
  | head => exact absurd hat At.not_head
  | tail =>
    cases hk
    obtain rfl := hat.tail
    exact h.push hstack ⟨hahead', pre, [], hat, hearlier, by simp [Later]⟩
  | thread t =>
    obtain ⟨post, rfl⟩ := hat.thread
    have hsorted := h.sorted
    rw [hat.1] at hsorted
    have hbehind : ∀ u ∈ t :: post, (k.thread t).wakeUpTick ≤ (k.thread u).wakeUpTick := by
      intro u hu
      rcases List.mem_cons.mp hu with rfl | hu
      · exact Int.le_refl _
      · exact (List.pairwise_cons.mp (List.pairwise_append.mp hsorted).2.1).1 u hu
    have hlater : total ≤ (k.thread t).wakeUpTick → k.Later (t :: post) :=
      fun hle u hu => hchosen ▸ Int.le_trans hle (hbehind u hu)
    simp only [exec, sleepOuter, show (k.popped.thread t).wakeUpTick = (k.thread t).wakeUpTick from
      popped_wakeUpTick] at hk
    split_ifs at hk with hequal hbigger
    · cases hk
      exact h.push hstack ⟨hahead', pre, t :: post, hat, hearlier, hlater (Int.le_of_eq hequal.2.symm)⟩
    · cases hk
      exact h.push hstack ⟨hahead', pre, t :: post, hat, hearlier, hlater hbigger⟩
    · cases hk
      refine h.push hstack ⟨hahead, hchosen, pre, t, post, hat, ?_⟩
      intro u hu
      rcases List.mem_append.mp hu with hu | hu
      · exact hearlier u hu
      · obtain rfl := List.mem_singleton.mp hu
        rw [hchosen]
        exact Int.le_of_lt (Int.not_le.mp hbigger)

theorem act_sleepOuterNext (ht : k.TimerInv ts) (h : k.AlarmInv ts)
    (hstack : k.stack k.running = [.sleepOuterNext total x]) (hk : k.step lab .act = .ok k') :
    k'.AlarmInv ts := by
  obtain ⟨-, -, hahead, hchosen, pre, t, post, hat, hearlier⟩ :=
    h.inside k.running (.sleepOuterNext total x) (by simp [hstack]) rfl
  obtain ⟨y, hy, hat'⟩ := ht.listNext_eq hat
  rw [step_act hstack] at hk
  simp only [exec, bind_eq_ok] at hk
  obtain ⟨z, hz, hk⟩ := hk
  obtain rfl : z = y := Except.ok.inj (hz.symm.trans hy)
  cases hk
  exact h.push hstack ⟨hahead, hchosen, pre ++ [t], post, hat', hearlier⟩

theorem act_sleepInner (h : k.AlarmInv ts) (hstack : k.stack k.running = [.sleepInner x])
    (hk : k.step lab .act = .ok k') : k'.AlarmInv ts := by
  obtain ⟨-, -, hahead, pre, post, hat, hearlier, hlater⟩ :=
    h.inside k.running (.sleepInner x) (by simp [hstack]) rfl
  rw [step_act hstack] at hk
  cases x with
  | head => exact absurd hat At.not_head
  | tail =>
    cases hk
    exact h.push hstack ⟨hahead, pre, post, hat, hearlier, hlater⟩
  | thread t =>
    obtain ⟨post, rfl⟩ := hat.thread
    simp only [exec, sleepInner] at hk
    split_ifs at hk
    · cases hk
      exact h.push hstack ⟨hahead, pre, t :: post, hat, hearlier, hlater⟩
    · cases hk
      exact h.push hstack ⟨hahead, pre, t, post, hat, hearlier, hlater⟩

/-- The inner loop steps behind a thread with the same wake-up tick. -/
theorem act_sleepInnerNext (ht : k.TimerInv ts) (h : k.AlarmInv ts)
    (hpasses : k.passesEqual .act = true) (hstack : k.stack k.running = [.sleepInnerNext x])
    (hk : k.step lab .act = .ok k') : k'.AlarmInv ts := by
  obtain ⟨-, -, hahead, pre, t, post, hat, hearlier, hlater⟩ :=
    h.inside k.running (.sleepInnerNext x) (by simp [hstack]) rfl
  obtain rfl : Elem.thread t = x := Option.some.inj hat.2
  have hequal : (k.thread t).wakeUpTick = (k.thread k.running).wakeUpTick := by
    simpa [passesEqual, hstack] using hpasses
  obtain ⟨y, hy, hat'⟩ := ht.listNext_eq hat
  rw [step_act hstack] at hk
  simp only [exec, bind_eq_ok] at hk
  obtain ⟨z, hz, hk⟩ := hk
  obtain rfl : z = y := Except.ok.inj (hz.symm.trans hy)
  cases hk
  refine h.push hstack ⟨hahead, pre ++ [t], post, hat', ?_, ?_⟩
  · intro u hu
    rcases List.mem_append.mp hu with hu | hu
    · exact hearlier u hu
    · obtain rfl := List.mem_singleton.mp hu
      exact Int.le_of_eq hequal
  · exact fun u hu => hlater u (List.mem_cons_of_mem t hu)

/-- Before its insertion the running thread is not on the list. -/
theorem TimerInv.running_notMem (h : k.BlockInv) (ht : k.TimerInv ts)
    (hstack : k.stack k.running = [a]) (hdisable : a ≠ .sleepDisable) (hblock : a ≠ .sleepBlock) :
    k.running ∉ ts := by
  intro hmem
  rcases (ht.mem k.running).mp hmem with hon | hon | hon
  · rw [hstack] at hon
    exact hdisable (List.mem_singleton.mp hon).symm
  · rw [hstack] at hon
    exact hblock (List.mem_singleton.mp hon).symm
  · exact h.running_not_asleep hon

theorem act_sleepStore (hb : k.BlockInv) (ht : k.TimerInv ts) (h : k.AlarmInv ts)
    (hstack : k.stack k.running = [.sleepStore total]) (hk : k.step lab .act = .ok k') :
    k'.AlarmInv ts := by
  obtain ⟨-, -, hahead⟩ := h.inside k.running (.sleepStore total) (by simp [hstack]) rfl
  have hout := ht.running_notMem hb hstack (by simp) (by simp)
  have hsingle : (k.sched.thread k.sched.running).stack = [.sleepStore total] := hstack
  have hrunning : k.popped.running = k.sched.running := rfl
  rw [step_act hstack] at hk
  cases hk
  refine @AlarmInv.goOn k _ (.sleepScan total) ts h rfl rfl ?_ ?_ ?_ ⟨hahead, ?_⟩
  · intro t hne
    have hne' : ¬ t = k.sched.running := hne
    simp [stack, hrunning, hne']
  · intro t hmem
    have hne : ¬ t = k.sched.running := by
      intro heq
      rw [heq] at hmem
      exact hout hmem
    simp [Kernel.thread, hrunning, hne]
  · simp [stack, hrunning, hsingle]
  · simp [Kernel.running, Kernel.thread]

theorem act_sleepDisable (h : k.AlarmInv ts) (hstack : k.stack k.running = [.sleepDisable])
    (hk : k.step lab .act = .ok k') : k'.AlarmInv ts := by
  rw [step_act hstack] at hk
  cases hk
  have hpush := @AlarmInv.push k .sleepDisable .sleepBlock ts h hstack trivial
  exact ⟨hpush.sorted, hpush.ahead, hpush.low, hpush.inside⟩

theorem threadBlock_wakeUpTick {s s' : Sched} (hs : s.threadBlock = .ok s') (t : Tid) :
    (s'.thread t).wakeUpTick = (s.thread t).wakeUpTick := by
  obtain ⟨-, -, -, next, rest, -, -, rfl⟩ := Sched.threadBlock_eq_ok.mp hs
  rw [Sched.switchTo_thread (by simp)]
  by_cases ht : t = s.running <;> split_ifs <;> simp [ht]

/-- A thread that goes to sleep leaves no walk behind. -/
theorem act_sleepBlock (hb : k.BlockInv) (ht : k.TimerInv ts) (h : k.AlarmInv ts)
    (hstack : k.stack k.running = [.sleepBlock]) (hk : k.step lab .act = .ok k') :
    k'.AlarmInv ts := by
  have hasleep := (act_asleep_running hb (ht.form _) hstack hk).mpr rfl
  have hother := (act_stack hb.sched hstack hk).1
  rw [step_act hstack] at hk
  simp only [exec, onSched_eq_ok] at hk
  obtain ⟨s, hs, rfl⟩ := hk
  refine h.of_eq rfl ?_ ?_
  · intro t _
    have hwake := threadBlock_wakeUpTick hs t
    rw [Kernel.thread, hwake]
    by_cases hrun : t = k.sched.running <;> simp [hrun]
  · intro t b hmem hfalls
    by_cases hrun : t = k.running
    · rw [hrun, hasleep.1] at hmem
      rw [List.mem_singleton.mp hmem] at hfalls
      cases hfalls
    · rcases hother t hrun with heq | ⟨_, _, hcreate, -⟩
      · rw [heq] at hmem
        exact absurd (h.inside t b hmem hfalls).1 hrun
      · cases hcreate

/-- The thread that inserts itself keeps the list in order. -/
theorem act_sleepLink {before : Elem} (hb : k.BlockInv) (ht : k.TimerInv ts) (h : k.AlarmInv ts)
    (hstack : k.stack k.running = [.sleepLink before]) (hk : k.step lab .act = .ok k') :
    ∃ ts', k'.TimerInv ts' ∧ k'.AlarmInv ts' := by
  obtain ⟨-, -, hahead, pre, post, hat, hearlier, hlater⟩ :=
    h.inside k.running (.sleepLink before) (by simp [hstack]) rfl
  obtain ⟨rfl, hbefore⟩ := hat
  refine ⟨pre ++ k.running :: post, ht.link hb hstack hk hbefore, ?_⟩
  have hsorted := sorted_middle hearlier hlater h.sorted
  have hpush := @AlarmInv.push k (.sleepLink before) .sleepDisable _ h hstack trivial
  have hwake : ∀ t, ((k.popped.push [.sleepDisable]).thread t).wakeUpTick =
      (k.thread t).wakeUpTick := fun _ => pushed_wakeUpTick
  rw [step_act hstack] at hk
  simp only [exec, listInsert, bind_eq_ok, check_eq_ok, pure_eq_ok, exists_const] at hk
  obtain ⟨_, ⟨-, rfl⟩, rfl⟩ := hk
  refine ⟨?_, ?_, h.low, ?_⟩
  · refine hsorted.imp ?_
    intro t u hle
    change ((k.popped.push [.sleepDisable]).thread t).wakeUpTick ≤
      ((k.popped.push [.sleepDisable]).thread u).wakeUpTick
    rw [hwake, hwake]
    exact hle
  · intro t hmem
    have hold : k.Ahead (k.thread t).wakeUpTick := by
      simp only [List.mem_append, List.mem_cons] at hmem
      rcases hmem with hmem | rfl | hmem
      · exact h.ahead t (List.mem_append_left _ hmem)
      · exact hahead
      · exact h.ahead t (List.mem_append_right _ hmem)
    rw [← hwake] at hold
    exact hold
  · intro t a hmem hfalls
    obtain ⟨hrun, hstack', -⟩ := hpush.inside t a hmem hfalls
    refine ⟨hrun, hstack', ?_⟩
    rw [show t = k.running from hrun, pushed_stack hstack] at hstack'
    obtain ⟨rfl, -⟩ := List.cons.inj hstack'
    trivial

/-- While no thread is inside `timer_sleep`, an action or a timer interrupt lets none enter it. -/
theorem step_fallsAsleep (h : k.sched.Inv) (he : k.Enabled e) (hk : k.step lab e = .ok k')
    (hcall : ∀ op, e ≠ .call op) (hnone : ∀ t, ∀ a ∈ k.stack t, a.fallsAsleep = false) :
    ∀ t, ∀ a ∈ k'.stack t, a.fallsAsleep = false := by
  refine @step_stack_rule k k' lab (fun _ st => ∀ a ∈ st, a.fallsAsleep = false) (by simp) ?_ ?_ ?_
    e (fun _ op heq => absurd heq (hcall op)) h he hk hnone
  · intro t _ function _
    cases function <;> simp [Sched.startStack, Action.fallsAsleep, Action.sleeps]
  · intro t a st ha hst b hb
    rcases List.mem_cons.mp hb with rfl | hb
    · cases b <;> first | rfl | cases ha
    · exact hst b hb
  · intro t a pushed rest hst hconts b hb
    rcases List.mem_append.mp hb with hb | hb
    · exact Conts.fallsAsleep_eq_false hconts (hst a (by simp)) b hb
    · exact hst b (by simp [hb])

/-- An action outside `timer_sleep`, or the return from it. -/
theorem act_outside (hb : k.BlockInv) (ht : k.TimerInv ts) (h : k.AlarmInv ts)
    (hun : k.UnblockOk a) (hstack : k.stack k.running = a :: rest)
    (hk : k.step lab .act = .ok k') (ha : a.fallsAsleep = false) : k'.AlarmInv ts := by
  have hnone : ∀ t, ∀ b ∈ k.stack t, b.fallsAsleep = false := by
    intro t b hmem
    by_contra hfalls
    obtain ⟨rfl, hsingle, -⟩ := h.inside t b hmem (by simpa using hfalls)
    rw [hstack] at hsingle
    obtain ⟨rfl, -⟩ := List.cons.inj hsingle
    exact hfalls ha
  have hnone' := step_fallsAsleep hb.sched (by simp [Enabled, hstack]) hk (by simp) hnone
  refine h.of_eq ?_ ?_ ?_
  · rw [step_act hstack] at hk
    exact (exec_framed hk).ticks
  · intro t hmem
    rcases (ht.mem t).mp hmem with hon | hon | hon
    · cases hnone t _ hon
    · cases hnone t _ hon
    · exact (hb.sleeper_undisturbed hstack hk hun (hb.ne_running hon.2) hon.1).wakeUpTick
  · intro t b hmem hfalls
    rw [hnone' t b hmem] at hfalls
    cases hfalls

/-! ## Every step keeps the invariant -/

theorem AlarmInv.act (hb : k.BlockInv) (ht : k.TimerInv ts) (h : k.AlarmInv ts)
    (hun : k.UnblockOk a) (hpasses : k.passesEqual .act = true)
    (hstack : k.stack k.running = a :: rest) (hk : k.step lab .act = .ok k') :
    ∃ ts', k'.TimerInv ts' ∧ k'.AlarmInv ts' := by
  cases ha : a.fallsAsleep with
  | false =>
    have hlinks : a.links = false := by
      cases a <;> first | rfl | cases ha
    exact ⟨ts, ht.act hb hun hstack hk hlinks, act_outside hb ht h hun hstack hk ha⟩
  | true =>
    obtain ⟨-, hsingle, -⟩ := h.inside k.running a (by simp [hstack]) ha
    cases hlinks : a.links with
    | true =>
      cases a
      case sleepLink before => exact act_sleepLink hb ht h hsingle hk
      all_goals cases hlinks
    | false =>
      refine ⟨ts, ht.act hb hun hstack hk hlinks, ?_⟩
      cases a
      case sleepStart ticks => exact act_sleepStart h hsingle hk
      case sleepStore total => exact act_sleepStore hb ht h hsingle hk
      case sleepScan total => exact act_sleepScan ht h hsingle hk
      case sleepOuter total x => exact act_sleepOuter h hsingle hk
      case sleepOuterNext total x => exact act_sleepOuterNext ht h hsingle hk
      case sleepInner x => exact act_sleepInner h hsingle hk
      case sleepInnerNext x => exact act_sleepInnerNext ht h hpasses hsingle hk
      case sleepDisable => exact act_sleepDisable h hsingle hk
      case sleepBlock => exact act_sleepBlock hb ht h hsingle hk
      all_goals (cases ha <;> cases hlinks)

theorem AlarmInv.call {op : Op} (h : k.AlarmInv ts) (he : k.Enabled (.call op))
    (hatomic : k.atomicSleep (.call op) = true) (hk : k.step lab (.call op) = .ok k') :
    k'.AlarmInv ts := by
  obtain ⟨hrunning, hother⟩ := call_stack he hk
  refine h.of_eq ?_ ?_ ?_
  · cases pure_eq_ok.mp hk
    rfl
  · cases pure_eq_ok.mp hk
    intro t _
    by_cases hrun : t = k.sched.running <;> simp [Kernel.thread, hrun]
  · intro t a hmem hfalls
    by_cases hrun : t = k.running
    · subst hrun
      rw [hrunning] at hmem ⊢
      cases hop : (Event.call op).sleeps with
      | false =>
        rw [fallsAsleep_eq_false (body_sleeps_eq_false hop a hmem)] at hfalls
        cases hfalls
      | true =>
        cases op
        case timerSleep ticks =>
          cases pure_eq_ok.mp hk
          obtain rfl := List.mem_singleton.mp hmem
          have hfits : k.ticks + ticks < 2 ^ 63 := of_decide_eq_true hatomic
          exact ⟨rfl, rfl, hfits⟩
        all_goals cases hop
    · rw [hother t hrun] at hmem
      exact absurd (h.inside t a hmem hfalls).1 hrun

/-- Between calls of `timer_sleep` no thread is inside one. -/
theorem AlarmInv.none_inside (h : k.AlarmInv ts) (hatomic : k.atomicSleep .tick = true) :
    ∀ t, ∀ a ∈ k.stack t, a.fallsAsleep = false := by
  intro t a hmem
  by_contra hfalls
  obtain ⟨rfl, -, -⟩ := h.inside t a hmem (by simpa using hfalls)
  simp only [atomicSleep, List.all_eq_true, Bool.not_eq_true'] at hatomic
  exact hfalls (hatomic a hmem)

theorem AlarmInv.noneFallingAsleep (h : k.AlarmInv ts) (hatomic : k.atomicSleep .tick = true) :
    k.NoneFallingAsleep := by
  intro t _ hmem
  cases h.none_inside hatomic t _ hmem

/-- Between calls of `timer_sleep` the threads on the list are asleep. -/
theorem AlarmInv.mem_iff (ht : k.TimerInv ts) (h : k.AlarmInv ts)
    (hatomic : k.atomicSleep .tick = true) : t ∈ ts ↔ k.Asleep t := by
  have hnone := h.none_inside hatomic t
  rw [ht.mem]
  refine ⟨?_, fun hasleep => .inr (.inr hasleep)⟩
  intro hon
  rcases hon with hon | hon | hon
  · cases hnone _ hon
  · cases hnone _ hon
  · exact hon

/-- On a list in order the due threads are all those whose tick has come. -/
theorem AlarmInv.mem_dueThreads (ht : k.TimerInv ts) (h : k.AlarmInv ts) :
    t ∈ k.dueThreads ↔ t ∈ ts ∧ (k.thread t).wakeUpTick ≤ toInt64 (k.ticks + 1) := by
  rw [dueThreads, ht.timerThreads_eq, mem_takeWhile_iff]
  · simp
  · refine h.sorted.imp ?_
    intro t u hle hu
    simp only [decide_eq_true_eq] at hu ⊢
    exact Int.le_trans hle hu

/-- The threads that a timer interrupt leaves on the list are still ahead. -/
theorem AlarmInv.tick (hb : k.BlockInv) (ht : k.TimerInv (k.dueThreads ++ post))
    (h : k.AlarmInv (k.dueThreads ++ post)) (he : k.Enabled .tick)
    (hatomic : k.atomicSleep .tick = true) (hk : k.step lab .tick = .ok k')
    (hw : Ticked k.dueThreads k k') : k'.AlarmInv post := by
  have hdisjoint := (List.nodup_append.mp ht.nodup).2.2
  have hwake : ∀ t ∈ post, (k'.thread t).wakeUpTick = (k.thread t).wakeUpTick := by
    intro t hmem
    have hasleep := (h.mem_iff ht hatomic).mp (List.mem_append_right _ hmem)
    exact hw.moves.wakeUpTick t (hb.ne_running hasleep.2)
  refine ⟨?_, ?_, ?_, ?_⟩
  · refine (List.pairwise_append.mp h.sorted).2.1.imp_of_mem ?_
    intro t u hmem hmem' hle
    rw [hwake t hmem, hwake u hmem']
    exact hle
  · intro t hmem
    have hin := List.mem_append_right k.dueThreads hmem
    have hnot : t ∉ k.dueThreads := fun hdue => hdisjoint t hdue t hmem rfl
    rw [h.mem_dueThreads ht] at hnot
    rw [Ahead, hwake t hmem, hw.ticks]
    exact ⟨Int.not_le.mp fun hle => hnot ⟨hin, hle⟩, (h.ahead t hin).2⟩
  · rw [hw.ticks]
    exact Int.le_bmod (m := 2 ^ 64) (by decide)
  · intro t a hmem hfalls
    rw [step_fallsAsleep hb.sched he hk (by simp) (h.none_inside hatomic) t a hmem] at hfalls
    cases hfalls

theorem boot_alarmInv (init : Nat → Nat) : (boot init).AlarmInv [] := by
  refine ⟨List.Pairwise.nil, fun t hmem => (List.not_mem_nil hmem).elim, ?_, ?_⟩
  · change (-2 ^ 63 : Int) ≤ 0
    decide
  intro t a hmem hfalls
  rw [fallsAsleep_eq_false ((boot_awakeInv init).awake t a hmem)] at hfalls
  cases hfalls

theorem AlarmInv.step (hb : k.BlockInv) (ht : k.TimerInv ts) (h : k.AlarmInv ts)
    (he : k.OrderedAdmits e) (hk : k.step lab e = .ok k') :
    k'.BlockInv ∧ ∃ ts', k'.TimerInv ts' ∧ k'.AlarmInv ts' := by
  obtain ⟨⟨⟨henabled, hproper⟩, hatomic⟩, hpasses⟩ := he
  cases e with
  | act =>
    obtain ⟨a, rest, hstack⟩ := List.exists_cons_of_ne_nil henabled
    have hun := unblockOk_of_properUnblock hstack hproper
    exact ⟨hb.act hstack hk hun, h.act hb ht hun hpasses hstack hk⟩
  | call op =>
    exact ⟨hb.call henabled hk, ts, ht.call hb henabled hk, h.call henabled hatomic hk⟩
  | tick =>
    have hquiet := h.noneFallingAsleep hatomic
    rcases @tick_outcome k lab ts hb ht henabled hquiet with
      ⟨-, herr⟩ | ⟨-, k₁, rest, hk₁, hw, rfl, hl⟩
    · rw [hk] at herr
      cases herr
    · obtain rfl : k' = k₁ := Except.ok.inj (hk.symm.trans hk₁)
      have hasleep := ht.due_asleep henabled hquiet
      refine ⟨hb.tick henabled hk hw ?_, rest, ht.tick hb henabled hquiet hk hw hl,
        h.tick hb ht henabled hatomic hk hw⟩
      intro t hdue
      rw [(hasleep t hdue).1, List.head?_cons]

theorem reachable_alarmInv (hr : Reachable (Kernel.step lab) OrderedAdmits (boot init) k) :
    k.BlockInv ∧ ∃ ts, k.TimerInv ts ∧ k.AlarmInv ts := by
  refine @Reachable.invariant _ _ _ (Kernel.step lab) OrderedAdmits (boot init)
    (fun k => k.BlockInv ∧ ∃ ts, k.TimerInv ts ∧ k.AlarmInv ts)
    ⟨boot_blockInv init, [], boot_timerInv init, boot_alarmInv init⟩ ?_ k hr
  intro k e k' _ h he hk
  obtain ⟨hb, ts, ht, halarm⟩ := h
  exact halarm.step hb ht he hk

/-! ## When threads wake up -/

/-- A thread that is asleep stays so, with the same wake-up tick, until a timer interrupt wakes
it. -/
theorem step_asleep (hb : k.BlockInv) (ht : k.TimerInv ts) (h : k.AlarmInv ts)
    (he : k.OrderedAdmits e) (hk : k.step lab e = .ok k') (hasleep : k.Asleep t) :
    k'.Asleep t ∧ (k'.thread t).wakeUpTick = (k.thread t).wakeUpTick ∨
      e = .tick ∧ (k.thread t).wakeUpTick ≤ k'.ticks := by
  obtain ⟨⟨⟨henabled, hproper⟩, hatomic⟩, -⟩ := he
  have hne := hb.ne_running hasleep.2
  have hkeep : Undisturbed k k' t → k'.Asleep t ∧
      (k'.thread t).wakeUpTick = (k.thread t).wakeUpTick :=
    fun hund => ⟨⟨hund.stack.trans hasleep.1, hund.blocked.mpr hasleep.2⟩, hund.wakeUpTick⟩
  cases e with
  | act =>
    obtain ⟨a, rest, hstack⟩ := List.exists_cons_of_ne_nil henabled
    have hun := unblockOk_of_properUnblock hstack hproper
    exact .inl (hkeep (hb.sleeper_undisturbed hstack hk hun hne hasleep.1))
  | call op => exact .inl (hkeep (call_undisturbed hk hne))
  | tick =>
    rcases @tick_outcome k lab ts hb ht henabled (h.noneFallingAsleep hatomic) with
      ⟨-, herr⟩ | ⟨-, k₁, rest, hk₁, hw, -, -⟩
    · rw [hk] at herr
      cases herr
    · obtain rfl : k' = k₁ := Except.ok.inj (hk.symm.trans hk₁)
      by_cases hdue : t ∈ k.dueThreads
      · rw [h.mem_dueThreads ht, ← hw.ticks] at hdue
        exact .inr ⟨rfl, hdue.2⟩
      · exact .inl ⟨(tick_asleep hb hw).mpr ⟨hasleep, hdue⟩, hw.moves.wakeUpTick t hne⟩

/-- `timer_list` is in the order of the wake-up ticks, each of them is still to come and stays what
it is, and the timer interrupt of a tick wakes the threads whose wake-up tick it reaches, and no
others. It stops at a failed assertion where it would preempt the interrupted thread. -/
theorem timer_sleep_wakes_on_time
    (hr : Reachable (Kernel.step .lab2) OrderedAdmits (boot init) k) :
    (k.timerThreads.Pairwise fun t u => (k.thread t).wakeUpTick ≤ (k.thread u).wakeUpTick) ∧
    (∀ t, k.Asleep t → t ∈ k.timerThreads ∧ k.ticks < (k.thread t).wakeUpTick) ∧
    (∀ e k', k.OrderedAdmits e → k.step .lab2 e = .ok k' → ∀ t, k.Asleep t →
      k'.Asleep t ∧ (k'.thread t).wakeUpTick = (k.thread t).wakeUpTick ∨
        e = .tick ∧ (k.thread t).wakeUpTick ≤ k'.ticks) ∧
    (k.AtomicAdmits .tick →
      (∃ t ∈ k.dueThreads, k.sched.Preempts .lab2 t) ∧
        k.step .lab2 .tick = .error .threadYieldContext ∨
      ∃ k' : Kernel, ∃ woken : List Tid, k.step .lab2 .tick = .ok k' ∧ k'.ticks = toInt64 (k.ticks + 1) ∧
        k'.trace = (woken.map fun t => .wake t k'.ticks).reverse ++ k.trace ∧ woken.Nodup ∧
        ∀ t, t ∈ woken ↔ k.Asleep t ∧ (k.thread t).wakeUpTick ≤ k'.ticks) := by
  obtain ⟨hb, ts, ht, h⟩ := reachable_alarmInv hr
  refine ⟨?_, ?_, fun _ _ he hk _ => step_asleep hb ht h he hk, ?_⟩
  · rw [ht.timerThreads_eq]
    exact h.sorted
  · intro t hasleep
    have hmem : t ∈ ts := (ht.mem t).mpr (.inr (.inr hasleep))
    rw [ht.timerThreads_eq]
    exact ⟨hmem, (h.ahead t hmem).1⟩
  · intro he
    obtain ⟨⟨henabled, -⟩, hatomic⟩ := he
    rcases @tick_outcome k .lab2 ts hb ht henabled (h.noneFallingAsleep hatomic) with
      hpreempts | ⟨-, k', rest, hk, hw, hsplit, -⟩
    · exact .inl hpreempts
    · refine .inr ⟨k', k.dueThreads, hk, hw.ticks, hw.trace, ?_, ?_⟩
      · have hnodup := ht.nodup
        rw [hsplit] at hnodup
        exact (List.nodup_append.mp hnodup).1
      · intro t
        rw [h.mem_dueThreads ht, h.mem_iff ht hatomic, hw.ticks]

/-- The state after a sequence of events from boot, all of them admitted. -/
def runOrdered (lab : Lab) (init : Nat → Nat) (events : List Event) : Option Kernel :=
  run (Kernel.step lab) (fun k e => decide (k.OrderedAdmits e)) (boot init) events

theorem reachable_of_runOrdered {events : List Event} (h : runOrdered lab init events = some k) :
    Reachable (Kernel.step lab) OrderedAdmits (boot init) k :=
  reachable_of_run (fun _ _ he => of_decide_eq_true he) .start h

/-- A thread of priority 40 and `main` both sleep for one tick, and the idle thread runs. -/
def sleepBoth : List Event :=
  starting ++ Event.call (.threadCreate 2 40) :: List.replicate 9 Event.act ++
    Event.act :: Event.call (.timerSleep 1) :: List.replicate 9 Event.act ++
    Event.call (.timerSleep 1) :: List.replicate 11 Event.act

theorem timer_sleep_wakes_on_time_sleepBoth : ∃ k k' : Kernel, ∃ woken : List Tid,
    runOrdered .lab2 (fun _ => 0) sleepBoth = some k ∧ k.timerThreads = [2, 0] ∧
    k.step .lab2 .tick = .ok k' ∧
    ∀ t, t ∈ woken ↔ k.Asleep t ∧ (k.thread t).wakeUpTick ≤ k'.ticks := by
  have hrun : (runOrdered .lab2 (fun _ => 0) sleepBoth).map (fun k =>
      (decide (k.AtomicAdmits .tick), k.timerThreads, k.running, k.sched.idleThread)) =
      some (true, [2, 0], 1, some 1) := by
    decide +kernel
  obtain ⟨k, hk, heq⟩ := Option.map_eq_some_iff.mp hrun
  simp only [Prod.mk.injEq, decide_eq_true_eq] at heq
  obtain ⟨hadmits, hthreads, hrunning, hidle⟩ := heq
  obtain ⟨-, -, -, htick⟩ := timer_sleep_wakes_on_time (reachable_of_runOrdered hk)
  rcases htick hadmits with ⟨⟨t, -, hpreempts⟩, -⟩ | ⟨k', woken, hk', -, -, -, hwoken⟩
  · exact absurd (by rw [hidle, ← hrunning]) hpreempts.2.2
  · exact ⟨k, k', woken, hk, hthreads, hk', hwoken⟩

/-- The state after a sequence of events from boot, all of them admitted. -/
def runAtomic (lab : Lab) (init : Nat → Nat) (events : List Event) : Option Kernel :=
  run (Kernel.step lab) (fun k e => decide (k.AtomicAdmits e)) (boot init) events

/-- Two threads of priority 40 sleep for one and for two ticks, then `main` sleeps for one tick, and
a tick comes. -/
def sleepThree : List Event :=
  starting ++ Event.call (.threadCreate 2 40) :: List.replicate 9 Event.act ++
    Event.act :: Event.call (.timerSleep 1) :: List.replicate 9 Event.act ++
    Event.call (.threadCreate 3 40) :: List.replicate 9 Event.act ++
    Event.act :: Event.call (.timerSleep 2) :: List.replicate 11 Event.act ++
    Event.call (.timerSleep 1) :: List.replicate 13 Event.act ++ [Event.tick]

/-- The inner loop of `timer_sleep` passes the thread of the same tick and then the one of the next
tick. The first tick does not wake `main`, whose wake-up tick it is. -/
theorem timer_sleep_wakes_late : ∃ k,
    Reachable (Kernel.step .lab2) AtomicAdmits (boot fun _ => 0) k ∧ k.timerThreads = [3, 0] ∧
    k.Asleep 0 ∧ (k.thread 0).wakeUpTick = 1 ∧ (k.thread 3).wakeUpTick = 2 ∧ k.ticks = 1 := by
  have hrun : (runAtomic .lab2 (fun _ => 0) sleepThree).map (fun k =>
      (k.timerThreads, k.stack 0, (k.thread 0).status, (k.thread 0).wakeUpTick,
        (k.thread 3).wakeUpTick, k.ticks)) =
      some ([3, 0], [.sleepReturn], .blocked, 1, 2, 1) := by
    decide +kernel
  obtain ⟨k, hk, heq⟩ := Option.map_eq_some_iff.mp hrun
  simp only [Prod.mk.injEq] at heq
  obtain ⟨hthreads, hstack, hstatus, hwake, hwake', hticks⟩ := heq
  exact ⟨k, reachable_of_run (fun _ _ he => of_decide_eq_true he) .start hk, hthreads,
    ⟨hstack, hstatus⟩, hwake, hwake', hticks⟩

end Kernel

end CSE130.Pintos
