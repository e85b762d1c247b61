import CSE130.Pintos.KernelStep
import CSE130.Pintos.Progress

/-!
# The invariant of `timer_list`

The threads on `timer_list` are those that have linked themselves in `timer_sleep` and have not been
woken since. This is kept by every step in which a walk of `timer_sleep` goes on from an element of
the list, and by every timer interrupt that does not come between the insertion of a thread that is
due and its `intr_disable`.
-/

namespace CSE130.Pintos

open CSE130.Library

/-- The thread whose `timer_elem` is at this address. -/
def Elem.tid? : Elem → Option Tid
  | .thread t => some t
  | _ => none

/-- `list_insert` in `timer_sleep`. -/
def Action.links : Action → Bool
  | .sleepLink _ => true
  | _ => false

/-- `timer_interrupt` has passed thread `t` to `thread_unblock`. -/
def Note.wakes (t : Tid) : Note → Bool
  | .wake u _ => u = t
  | _ => false

@[simp] theorem filterMap_tid?_map (ts : List Tid) : (ts.map Elem.thread).filterMap Elem.tid? = ts := by
  induction ts with
  | nil => rfl
  | cons t ts ih => simp [Elem.tid?, ih]

namespace Kernel

variable {k k' : Kernel} {lab : Lab} {a : Action} {rest : List Action} {t u : Tid} {ts : List Tid}

/-- The threads on `timer_list`, in the order of the list. -/
def timerThreads (k : Kernel) : List Tid :=
  (k.timerList.contents .tail k.sched.allList.length .head).filterMap Elem.tid?

/-- The threads that the next timer interrupt finds due. -/
def dueThreads (k : Kernel) : List Tid :=
  k.timerThreads.takeWhile fun t => (k.thread t).wakeUpTick ≤ toInt64 (k.ticks + 1)

/-- Thread `t` is blocked in `timer_sleep`. -/
def Asleep (k : Kernel) (t : Tid) : Prop :=
  k.stack t = [.sleepReturn] ∧ (k.thread t).status = .blocked

theorem Asleep.mem (h : k.Asleep t) : .sleepReturn ∈ k.stack t := by
  rw [h.1]
  exact List.mem_singleton_self _

/-- Thread `t` is between its insertion into `timer_list` and its wake-up. -/
def OnTimerList (k : Kernel) (t : Tid) : Prop :=
  .sleepDisable ∈ k.stack t ∨ .sleepBlock ∈ k.stack t ∨ k.Asleep t

/-- A thread that is inside `timer_sleep` is inside nothing else. -/
def SleepForm (st : List Action) : Prop := ∀ a ∈ st, a.sleeps = true → pending st = [a]

structure TimerInv (k : Kernel) (ts : List Tid) : Prop where
  linked : k.timerList.Linked .head .tail (ts.map .thread)
  form : ∀ t, SleepForm (k.stack t)
  block : ∀ t, .sleepBlock ∈ k.stack t →
    t = k.running ∧ k.sched.level = .off ∧ k.stack t = [.sleepBlock]
  mem : ∀ t, t ∈ ts ↔ k.OnTimerList t
  listed : ∀ t ∈ ts, t ∈ k.sched.allList
  account : ∀ t, k.trace.count (.link t) = k.trace.countP (Note.wakes t) + ts.count t

theorem TimerInv.nodup (ht : k.TimerInv ts) : ts.Nodup := by
  have hnodup := (List.nodup_append.mp (List.nodup_cons.mp ht.linked.nodup).2).1
  exact hnodup.of_map

theorem TimerInv.length_le (ht : k.TimerInv ts) : ts.length ≤ k.sched.allList.length :=
  (List.subperm_of_subset ht.nodup fun t hmem => ht.listed t hmem).length_le

/-- The invariant is about what one finds by following the pointers. -/
theorem TimerInv.timerThreads_eq (ht : k.TimerInv ts) : k.timerThreads = ts := by
  have hlength : (ts.map Elem.thread).length ≤ k.sched.allList.length := by
    rw [List.length_map]
    exact ht.length_le
  rw [timerThreads, ht.linked.contents_eq hlength, filterMap_tid?_map]

/-! ## Stacks -/

theorem setsLevel_of_sleeps (ha : a.sleeps = true) : a.setsLevel = false := by
  cases a <;> first | rfl | cases ha

theorem sleepForm_nil : SleepForm [] := fun _ h => nomatch h

theorem SleepForm.level {st : List Action} (ha : a.setsLevel = true) (h : SleepForm st) :
    SleepForm (a :: st) := by
  intro b hb hsleeps
  rw [pending_cons_of_setsLevel ha]
  rcases List.mem_cons.mp hb with rfl | hb
  · rw [setsLevel_of_sleeps hsleeps] at ha
    cases ha
  · exact h b hb hsleeps

/-- An action of `timer_sleep` is the last one on its stack. -/
theorem SleepForm.rest_eq_nil (h : SleepForm (a :: rest)) (ha : a.sleeps = true) : rest = [] := by
  have hform := h a (by simp) ha
  rw [pending_cons_of_not_setsLevel (setsLevel_of_sleeps ha)] at hform
  exact (List.cons.inj hform).2

/-- Below an action that is not of `timer_sleep` there is none of them, unless the action only sets
the interrupt level. -/
theorem SleepForm.setsLevel_of_mem {b : Action} (h : SleepForm (a :: rest)) (hb : b ∈ rest)
    (hsleeps : b.sleeps = true) : a.setsLevel = true := by
  by_contra hlevel
  have hform := h b (List.mem_cons_of_mem a hb) hsleeps
  rw [pending_cons_of_not_setsLevel (by simpa using hlevel)] at hform
  obtain ⟨-, rfl⟩ := List.cons.inj hform
  cases hb

/-- What an action of `timer_sleep` leaves to do is one action of `timer_sleep`. -/
theorem Conts.sleeps_eq {pushed : List Action} (h : Conts a pushed) (ha : a.sleeps = true) :
    pushed = [] ∨ ∃ b, b.sleeps = true ∧ pushed = [b] := by
  cases h <;> first | exact .inl rfl | exact .inr ⟨_, rfl, rfl⟩ | cases ha

theorem SleepForm.act {pushed : List Action} (h : SleepForm (a :: rest)) (hconts : Conts a pushed) :
    SleepForm (pushed ++ rest) := by
  intro b hb hsleeps
  cases ha : a.sleeps with
  | true =>
    rw [h.rest_eq_nil ha, List.append_nil] at hb ⊢
    rcases Conts.sleeps_eq hconts ha with rfl | ⟨c, hc, rfl⟩
    · cases hb
    · obtain rfl := List.mem_singleton.mp hb
      exact pending_cons_of_not_setsLevel (setsLevel_of_sleeps hsleeps)
  | false =>
    have hpushed := Conts.sleeps_eq_false hconts ha
    rcases List.mem_append.mp hb with hb | hb
    · rw [hpushed b hb] at hsleeps
      cases hsleeps
    · have hlevel := h.setsLevel_of_mem hb hsleeps
      have hform := h b (List.mem_cons_of_mem a hb) hsleeps
      rw [hconts.eq_nil hlevel, List.nil_append]
      rwa [pending_cons_of_setsLevel hlevel] at hform

theorem step_sleepForm {e : Event} (h : k.sched.Inv) (he : k.Enabled e)
    (hk : k.step lab e = .ok k') (hP : ∀ t, SleepForm (k.stack t)) :
    ∀ t, SleepForm (k'.stack t) := by
  refine @step_stack_rule k k' lab (fun _ st => SleepForm st) (fun _ => sleepForm_nil) ?_
    (fun _ _ _ ha hst => hst.level ha) (fun _ _ _ _ hst hconts => hst.act hconts) e ?_ h he hk hP
  · intro t _ function _ b hb hsleeps
    cases function <;> simp only [Sched.startStack, List.mem_cons, List.not_mem_nil, or_false] at hb
    · rcases hb with rfl | rfl | rfl | rfl <;> cases hsleeps
    · subst hb
      cases hsleeps
  · intro t op _ b hb hsleeps
    cases hop : (Event.call op).sleeps with
    | false =>
      rw [body_sleeps_eq_false hop b hb] at hsleeps
      cases hsleeps
    | true =>
      cases op
      case timerSleep ticks =>
        obtain rfl := List.mem_singleton.mp hb
        rfl
      all_goals cases hop

theorem Conts.sleepDisable_mem {pushed : List Action} (h : Conts a pushed) :
    .sleepDisable ∈ pushed ↔ a.links = true := by
  cases h with
  | done a hend => cases a <;> simp [Action.goesOn, Action.links] at hend ⊢
  | _ => simp [Action.links, lockAcquire, lockRelease, condvarSignal]

theorem Conts.sleepBlock_mem {pushed : List Action} (h : Conts a pushed) :
    .sleepBlock ∈ pushed ↔ a = .sleepDisable := by
  cases h with
  | done a hend => cases a <;> simp [Action.goesOn] at hend ⊢
  | _ => simp [lockAcquire, lockRelease, condvarSignal]

theorem Conts.sleepReturn_mem {pushed : List Action} (h : Conts a pushed) :
    .sleepReturn ∈ pushed ↔ a = .sleepBlock := by
  cases h with
  | done a hend => cases a <;> simp [Action.goesOn] at hend ⊢
  | _ => simp [lockAcquire, lockRelease, condvarSignal]

/-- The stack of the running thread after an action; a thread that exits leaves an empty one. -/
theorem BlockInv.act_stack_running (h : k.BlockInv) (hstack : k.stack k.running = a :: rest)
    (hk : k.step lab .act = .ok k') :
    ∃ ns pushed, LevelOnly ns ∧ Conts a pushed ∧ k'.stack k.running = ns ++ pushed ++ rest := by
  rcases (act_stack h.sched hstack hk).2 with hgoes | ⟨rfl, heq⟩
  · exact hgoes
  · have hform := (h.stackOk k.running).threadExit (by simp [hstack])
    rw [hstack, pending_cons_of_not_setsLevel rfl] at hform
    obtain ⟨-, rfl⟩ := List.cons.inj hform
    exact ⟨[], [], LevelOnly.nil, .done _ rfl, heq⟩

theorem act_sleepDisable_mem (h : k.BlockInv) (hstack : k.stack k.running = a :: rest)
    (hk : k.step lab .act = .ok k') :
    .sleepDisable ∈ k'.stack k.running ↔ a.links = true ∨ .sleepDisable ∈ rest := by
  obtain ⟨ns, pushed, hns, hconts, heq⟩ := h.act_stack_running hstack hk
  have hno : .sleepDisable ∉ ns := fun hmem => nomatch hns _ hmem
  simp [heq, hno, Conts.sleepDisable_mem hconts]

theorem act_sleepBlock_mem (h : k.BlockInv) (hstack : k.stack k.running = a :: rest)
    (hk : k.step lab .act = .ok k') :
    .sleepBlock ∈ k'.stack k.running ↔ a = .sleepDisable ∨ .sleepBlock ∈ rest := by
  obtain ⟨ns, pushed, hns, hconts, heq⟩ := h.act_stack_running hstack hk
  have hno : .sleepBlock ∉ ns := fun hmem => nomatch hns _ hmem
  simp [heq, hno, Conts.sleepBlock_mem hconts]

theorem BlockInv.running_not_asleep (h : k.BlockInv) : ¬ k.Asleep k.running :=
  fun hasleep => h.ne_running hasleep.2 rfl

/-- The running thread falls asleep by executing the last action of `timer_sleep` before its
return. -/
theorem act_asleep_running (h : k.BlockInv) (hform : SleepForm (k.stack k.running))
    (hstack : k.stack k.running = a :: rest) (hk : k.step lab .act = .ok k') :
    k'.Asleep k.running ↔ a = .sleepBlock := by
  have hidle : ∀ b ∈ k.stack k.running, b.sleeps = true → some k.running ≠ k.sched.idleThread := by
    intro b hb hsleeps hidle
    rcases h.idle_mem hidle hb with hno | rfl | rfl
    · rw [setsLevel_of_sleeps hsleeps] at hno
      cases hno
    · cases hsleeps
    · cases hsleeps
  have hk' := hk
  rw [step_act hstack] at hk'
  rw [hstack] at hform hidle
  refine ⟨?_, ?_⟩
  · intro ⟨heq, hblocked⟩
    obtain ⟨ns, pushed, hns, hconts, heq'⟩ := h.act_stack_running hstack hk
    have hmem : .sleepReturn ∈ ns ++ pushed ++ rest := by
      rw [← heq', heq]
      exact List.mem_singleton_self _
    rw [List.mem_append, List.mem_append, Conts.sleepReturn_mem hconts] at hmem
    rcases hmem with (hmem | hmem) | hmem
    · cases hns _ hmem
    · exact hmem
    · -- only an action that sets the interrupt level stands above `sleepReturn`
      have hne := hidle _ (List.mem_cons_of_mem a hmem) rfl
      have hlevel := hform.setsLevel_of_mem hmem rfl
      have hplain : a.plain = true := by cases a <;> first | rfl | cases hlevel
      obtain ⟨_, -, -, hmoves⟩ := exec_moves h.sched.pop hplain hk'
      have hblocks := (hmoves.blocked_running hne).mp hblocked
      cases a <;> cases hlevel <;> cases hblocks
  · intro ha
    subst ha
    obtain ⟨pushed, hconts, -, hmoves⟩ := exec_moves h.sched.pop rfl hk'
    obtain rfl : pushed = [.sleepReturn] := by
      cases hconts with
      | done _ hend => cases hend
      | sleepBlock => rfl
    have hrest : rest = [] := hform.rest_eq_nil rfl
    refine ⟨?_, ?_⟩
    · refine (hmoves.stackBlocked trivial).trans ?_
      rw [show (k.popped.sched.thread k.popped.sched.running).stack = rest from
        popped_stack_running hstack, hrest]
      rfl
    · exact (hmoves.blocked_running (hidle .sleepBlock (by simp) rfl)).mpr trivial

/-! ## Other threads under an action -/

/-- No action wakes a thread that is about to return from `timer_sleep`. -/
theorem BlockInv.sleeper_not_woken (h : k.BlockInv) (hun : k.UnblockOk a)
    (ha : a ∈ k.stack k.running) (ht : k.stack t = [.sleepReturn]) : t ∉ k.wokenBy a := by
  intro hmem
  have hhead : (k.stack t).head? = some .sleepReturn := by rw [ht, List.head?_cons]
  cases a <;> simp only [wokenBy, List.mem_singleton, List.not_mem_nil] at hmem
  case threadUnblock v =>
    subst hmem
    obtain ⟨old, hold⟩ := hun t rfl
    rw [hhead] at hold
    cases hold
  case createUnblock v =>
    subst hmem
    have hborn := (h.newborn _ _ ha).head
    rw [hhead] at hborn
    cases hborn
  case semaphoreUp s =>
    obtain ⟨old, hold⟩ := h.head_of_waiter (List.mem_of_mem_take hmem)
    rw [hhead] at hold
    cases hold

theorem BlockInv.sleeper_undisturbed (h : k.BlockInv) (hstack : k.stack k.running = a :: rest)
    (hk : k.step lab .act = .ok k') (hun : k.UnblockOk a) (hne : t ≠ k.running)
    (ht : k.stack t = [.sleepReturn]) : Undisturbed k k' t := by
  have hmem : .sleepReturn ∈ k.stack t := by
    rw [ht]
    exact List.mem_singleton_self _
  have hidle : some t ≠ k.sched.idleThread := by
    intro hidle
    rcases h.idle_mem hidle hmem with hno | hno | hno <;> cases hno
  have ha : a ∈ k.stack k.running := by simp [hstack]
  exact act_undisturbed h.sched hstack hk hne hidle (h.magic_of_mem hmem)
    (h.sleeper_not_woken hun ha ht)

theorem act_onTimerList_of_ne (h : k.BlockInv) (hstack : k.stack k.running = a :: rest)
    (hk : k.step lab .act = .ok k') (hun : k.UnblockOk a) (ht : t ≠ k.running) :
    k'.OnTimerList t ↔ k.OnTimerList t := by
  rcases (act_stack h.sched hstack hk).1 t ht with heq | ⟨_, function, -, hfree, heq, -⟩
  · have hasleep : k'.Asleep t ↔ k.Asleep t := by
      simp only [Asleep, heq]
      exact and_congr_right fun hret => (h.sleeper_undisturbed hstack hk hun ht hret).blocked
    simp only [OnTimerList, hasleep, heq]
  · simp only [OnTimerList, Asleep, h.page t hfree, heq]
    cases function <;> simp [Sched.startStack]

theorem act_onTimerList_running (h : k.BlockInv) (hform : SleepForm (k.stack k.running))
    (hstack : k.stack k.running = a :: rest) (hk : k.step lab .act = .ok k') :
    k'.OnTimerList k.running ↔ a.links = true ∨ k.OnTimerList k.running := by
  have hrunning := h.running_not_asleep
  simp only [OnTimerList, act_sleepDisable_mem h hstack hk, act_sleepBlock_mem h hstack hk,
    act_asleep_running h hform hstack hk, hrunning, hstack, List.mem_cons, or_false,
    eq_comm (b := a)]
  tauto

/-- An action takes no thread off `timer_list`, and puts the running thread on it at most. -/
theorem act_onTimerList (h : k.BlockInv) (hform : SleepForm (k.stack k.running))
    (hstack : k.stack k.running = a :: rest) (hk : k.step lab .act = .ok k') (hun : k.UnblockOk a) :
    k'.OnTimerList t ↔ t = k.running ∧ a.links = true ∨ k.OnTimerList t := by
  by_cases ht : t = k.running
  · subst ht
    simp only [act_onTimerList_running h hform hstack hk, true_and]
  · simp only [act_onTimerList_of_ne h hstack hk hun ht, ht, false_and, false_or]

theorem act_block (h : k.BlockInv) (ht : k.TimerInv ts) (hstack : k.stack k.running = a :: rest)
    (hk : k.step lab .act = .ok k') (hmem : .sleepBlock ∈ k'.stack t) :
    t = k'.running ∧ k'.sched.level = .off ∧ k'.stack t = [.sleepBlock] := by
  by_cases hne : t = k.running
  · subst hne
    rcases (act_sleepBlock_mem h hstack hk).mp hmem with rfl | hmem
    · have hform := ht.form k.running
      rw [hstack] at hform
      obtain rfl := hform.rest_eq_nil rfl
      rw [step_act hstack] at hk
      cases pure_eq_ok.mp hk
      refine ⟨rfl, rfl, ?_⟩
      simp [stack, Kernel.push, show (k.sched.thread k.sched.running).stack = _ from hstack]
    · obtain ⟨-, -, hsingle⟩ := ht.block k.running (by rw [hstack]; exact List.mem_cons_of_mem a hmem)
      rw [hstack] at hsingle
      obtain ⟨-, rfl⟩ := List.cons.inj hsingle
      cases hmem
  · exfalso
    rcases (act_stack h.sched hstack hk).1 t hne with heq | ⟨_, function, -, -, heq, -⟩
    · rw [heq] at hmem
      exact hne (ht.block t hmem).1
    · rw [heq] at hmem
      cases function <;> simp [Sched.startStack] at hmem

theorem notesOf_not_wakes (n : Note) (hn : n ∈ k.notesOf a) : n.wakes t = false := by
  cases a <;> simp only [notesOf, List.not_mem_nil, List.mem_singleton, List.mem_map] at hn
  case semaphoreDown s | semaphoreRetest s old =>
    split_ifs at hn
    · cases hn
    · obtain rfl := List.mem_singleton.mp hn
      rfl
  case signalWaiter c =>
    obtain ⟨w, -, rfl⟩ := hn
    rfl
  all_goals
    subst hn
    rfl

theorem notesOf_count_link (t : Tid) : (k.notesOf a).count (.link t) =
    if t = k.running ∧ a.links = true then 1 else 0 := by
  cases a <;> simp only [notesOf, List.count_nil, Action.links, Bool.false_eq_true, and_false,
    and_true, if_false]
  case semaphoreDown s | semaphoreRetest s old => split_ifs <;> simp
  case signalWaiter c => cases (k.waiters c).head? <;> simp
  case sleepLink before =>
    by_cases ht : t = k.running
    · simp [ht]
    · have hne : Note.link k.running ≠ .link t := fun heq => ht (Note.link.inj heq).symm
      simp [ht, hne]
  all_goals simp

theorem act_timerAccount (hstack : k.stack k.running = a :: rest) (hk : k.step lab .act = .ok k')
    (t : Tid) :
    k'.trace.count (.link t) =
      (if t = k.running ∧ a.links = true then 1 else 0) + k.trace.count (.link t) ∧
    k'.trace.countP (Note.wakes t) = k.trace.countP (Note.wakes t) := by
  rw [step_act hstack] at hk
  rw [(exec_framed hk).trace, List.count_append, List.countP_append]
  refine ⟨congrArg (· + _) (notesOf_count_link t), ?_⟩
  have hnone : (k.popped.notesOf a).countP (Note.wakes t) = 0 :=
    List.countP_eq_zero.mpr fun n hn => by simp [notesOf_not_wakes n hn]
  rw [hnone, Nat.zero_add]

theorem act_timerListed (h : k.BlockInv) (ht : k.TimerInv ts) (hstack : k.stack k.running = a :: rest)
    (hk : k.step lab .act = .ok k') (hmem : t ∈ ts) : t ∈ k'.sched.allList := by
  have hlisted := ht.listed t hmem
  rw [step_act hstack] at hk
  refine exec_allList_mono h.sched.pop hk hlisted ?_
  intro hexit hrunning
  subst hexit
  have hon := (ht.mem t).mp hmem
  have hform := (h.stackOk k.running).threadExit (by simp [hstack])
  rw [hstack, pending_cons_of_not_setsLevel rfl] at hform
  obtain ⟨-, rfl⟩ := List.cons.inj hform
  rw [show t = k.running from hrunning] at hon
  rcases hon with hon | hon | hon
  · simp [hstack] at hon
  · simp [hstack] at hon
  · exact h.running_not_asleep hon

/-- Threads on the list are on pages in use. -/
theorem TimerInv.magic (h : k.BlockInv) (ht : k.TimerInv ts) (hmem : t ∈ ts) :
    (k.thread t).magic = true := by
  rcases (ht.mem t).mp hmem with hon | hon | hon
  · exact h.magic_of_mem hon
  · exact h.magic_of_mem hon
  · exact h.magic_of_mem hon.mem

theorem act_linked (h : k.BlockInv) (ht : k.TimerInv ts) (hstack : k.stack k.running = a :: rest)
    (hk : k.step lab .act = .ok k') (ha : a.links = false) :
    k'.timerList.Linked .head .tail (ts.map .thread) := by
  rw [step_act hstack] at hk
  rw [(exec_framed hk).timerList]
  cases a
  case threadCreate u priority function =>
    simp only [timerListAfter]
    split_ifs with hmagic
    · exact ht.linked
    · refine ht.linked.clear ?_
      intro hmem
      have hu : u ∈ ts := by simpa using hmem
      exact hmagic ((popped_magic u).trans (ht.magic h hu))
  case sleepLink => cases ha
  all_goals exact ht.linked

theorem TimerInv.act (h : k.BlockInv) (ht : k.TimerInv ts) (hun : k.UnblockOk a)
    (hstack : k.stack k.running = a :: rest) (hk : k.step lab .act = .ok k')
    (ha : a.links = false) : k'.TimerInv ts where
  linked := act_linked h ht hstack hk ha
  form := step_sleepForm h.sched (by simp [Enabled, hstack]) hk ht.form
  block _ hmem := act_block h ht hstack hk hmem
  mem t := by
    rw [ht.mem, act_onTimerList h (ht.form _) hstack hk hun]
    simp [ha]
  listed _ hmem := act_timerListed h ht hstack hk hmem
  account t := by
    obtain ⟨hlink, hwake⟩ := act_timerAccount hstack hk t
    rw [hlink, hwake, ht.account]
    simp [ha]

/-- The thread that links itself is put in front of the element behind `pre`. -/
theorem TimerInv.link {pre post : List Tid} {before : Elem} (h : k.BlockInv)
    (ht : k.TimerInv (pre ++ post)) (hstack : k.stack k.running = .sleepLink before :: rest)
    (hk : k.step lab .act = .ok k')
    (hbefore : (post.map Elem.thread ++ [Elem.tail]).head? = some before) :
    k'.TimerInv (pre ++ k.running :: post) := by
  have hun : k.UnblockOk (.sleepLink before) := by
    intro _ heq
    cases heq
  have hout : k.running ∉ pre ++ post := by
    intro hmem
    have hform := ht.form k.running
    rw [hstack] at hform
    obtain rfl := hform.rest_eq_nil rfl
    rcases (ht.mem k.running).mp hmem with hon | hon | hon
    · simp [hstack] at hon
    · simp [hstack] at hon
    · exact h.running_not_asleep hon
  refine ⟨?_, ?_, fun _ hmem => act_block h ht hstack hk hmem, ?_, ?_, ?_⟩
  · have hl := ht.linked
    rw [List.map_append] at hl
    have hx : Elem.thread k.running ∉
        .head :: (pre.map Elem.thread ++ post.map Elem.thread ++ [.tail]) := by
      simpa [List.mem_append] using hout
    have hins := hl.insert hx hbefore
    rw [step_act hstack] at hk
    rw [(exec_framed hk).timerList, List.map_append, List.map_cons]
    exact hins
  · exact step_sleepForm h.sched (by simp [Enabled, hstack]) hk ht.form
  · intro t
    rw [act_onTimerList h (ht.form _) hstack hk hun, ← ht.mem]
    simp only [List.mem_append, List.mem_cons, Action.links, and_true]
    tauto
  · intro t hmem
    by_cases hrunning : t = k.running
    · rw [step_act hstack] at hk
      refine exec_allList_mono h.sched.pop hk ?_ (by simp)
      rw [hrunning]
      have hok := h.sched.runningOk
      exact h.listed k.running hok.1 (by rw [show (k.thread k.running).status = _ from hok.2]; simp)
    · refine act_timerListed h ht hstack hk ?_
      simpa [hrunning] using hmem
  · intro t
    obtain ⟨hlink, hwake⟩ := act_timerAccount hstack hk t
    rw [hlink, hwake, ht.account]
    simp only [Action.links, and_true, List.count_append, List.count_cons, beq_iff_eq,
      @eq_comm _ k.running t]
    omega

end Kernel

end CSE130.Pintos
