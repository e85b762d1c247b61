import CSE130.Pintos.Kernel

/-!
# What the functions of the scheduler do

For each function of `thread.c` an equation says when it succeeds and with which state. A switch of
threads is described by `switchTo`.
-/

namespace CSE130.Pintos

open CSE130.Library

namespace Sched

variable {s s' : Sched} {t u : Tid} {lab : Lab}

/-! ## Updates of threads -/

@[simp] theorem modify_thread (f : Thread → Thread) :
    (s.modify t f).thread u = if u = t then f (s.thread t) else s.thread u := by
  simp only [modify, Function.update_apply]

@[simp] theorem modify_running (f : Thread → Thread) : (s.modify t f).running = s.running := rfl
@[simp] theorem modify_readyList (f : Thread → Thread) : (s.modify t f).readyList = s.readyList := rfl
@[simp] theorem modify_allList (f : Thread → Thread) : (s.modify t f).allList = s.allList := rfl
@[simp] theorem modify_idleThread (f : Thread → Thread) : (s.modify t f).idleThread = s.idleThread := rfl
@[simp] theorem modify_initialThread (f : Thread → Thread) :
    (s.modify t f).initialThread = s.initialThread := rfl
@[simp] theorem modify_level (f : Thread → Thread) : (s.modify t f).level = s.level := rfl
@[simp] theorem modify_inExternalIntr (f : Thread → Thread) :
    (s.modify t f).inExternalIntr = s.inExternalIntr := rfl
@[simp] theorem modify_yieldOnReturn (f : Thread → Thread) :
    (s.modify t f).yieldOnReturn = s.yieldOnReturn := rfl

attribute [simp] setStatus push pop intrDisable

@[simp] theorem enqueue_perm (ls : List Tid) : (s.enqueue lab ls t).Perm (t :: ls) := by
  cases lab with
  | lab1 => exact List.perm_append_singleton t ls
  | lab2 => exact insertBefore_perm _ t ls

@[simp] theorem mem_enqueue {ls : List Tid} : u ∈ s.enqueue lab ls t ↔ u = t ∨ u ∈ ls := by
  rw [(enqueue_perm ls).mem_iff, List.mem_cons]

theorem nodup_enqueue {ls : List Tid} : (s.enqueue lab ls t).Nodup ↔ t ∉ ls ∧ ls.Nodup := by
  rw [(enqueue_perm ls).nodup_iff, List.nodup_cons]

theorem enqueue_ne_nil {ls : List Tid} : s.enqueue lab ls t ≠ [] := by
  intro h
  have := (@enqueue_perm s t lab ls).length_eq
  simp [h] at this

/-- The order of a list of threads depends only on their priorities. -/
theorem enqueue_congr {ls : List Tid} (h : ∀ u, (s'.thread u).priority = (s.thread u).priority) :
    s'.enqueue lab ls t = s.enqueue lab ls t := by
  cases lab with
  | lab1 => rfl
  | lab2 => simp only [enqueue, insertOrderedThreadPriority, h]

/-! ## Switching threads -/

/-- The processor goes to `next`, and `rest` stays on the ready list. -/
def switchTo (next : Tid) (rest : List Tid) (s : Sched) : Sched :=
  { s with
    running := next
    readyList := rest
    threadTicks := 0
    thread := fun u =>
      if u = next then { s.thread u with status := .running }
      else if u = s.running ∧ (s.thread u).status = .dying ∧ u ≠ s.initialThread then {}
      else s.thread u }

/-- `next` is the thread that `next_thread_to_run` finds, and `rest` what it leaves. -/
def Next (s : Sched) (next : Tid) (rest : List Tid) : Prop :=
  s.readyList = next :: rest ∨ s.readyList = [] ∧ rest = [] ∧ s.idleThread = some next

theorem threadScheduleTail_eq {next : Tid} {rest : List Tid} (hlevel : s.level = .off) :
    ({ s with running := next, readyList := rest } : Sched).threadScheduleTail
      (if s.running ≠ next then some s.running else none) = .ok (s.switchTo next rest) := by
  by_cases hcur : s.running = next
  · simp only [threadScheduleTail, hlevel, hcur, check_bind, ne_eq, not_true_eq_false, if_false]
    simp only [pure, Except.pure, Except.ok.injEq, switchTo, setStatus, modify, mk.injEq, and_true,
      hlevel]
    funext u
    by_cases hu : u = next <;> simp [hu, hcur]
  · have hcur' : ¬ next = s.running := fun h => hcur h.symm
    simp only [threadScheduleTail, hlevel, check_bind, ne_eq, hcur, not_false_eq_true, if_true]
    by_cases hdying : (s.thread s.running).status = .dying ∧ s.running ≠ s.initialThread
    · simp only [setStatus, modify_thread, hcur, if_false, hdying, and_self, if_true,
        modify_initialThread, modify_running, not_false_eq_true, check_bind]
      simp only [pure, Except.pure, Except.ok.injEq, switchTo, modify, mk.injEq, and_true, hlevel]
      funext u
      by_cases hu : u = next
      · simp [hu, hcur']
      · by_cases hur : u = s.running
        · simp [hur, hcur, hdying.1, hdying.2]
        · simp [hu, hur]
    · simp only [setStatus, modify_thread, hcur, if_false, modify_initialThread]
      rw [if_neg (by simpa using hdying)]
      simp only [pure, Except.pure, Except.ok.injEq, switchTo, modify, mk.injEq, and_true, hlevel]
      funext u
      by_cases hu : u = next
      · simp [hu]
      · by_cases hur : u = s.running
        · subst hur
          have hkeep : ¬ ((s.thread s.running).status = .dying ∧ ¬ s.running = s.initialThread) :=
            hdying
          simp [hu, hkeep]
        · simp [hu, hur]

/-- `schedule` succeeds exactly with a switch to the next thread. -/
theorem schedule_eq_ok :
    s.schedule = .ok s' ↔ ∃ next rest, s.Next next rest ∧ s.level = .off ∧
      (s.thread s.running).status ≠ .running ∧ (s.thread next).magic = true ∧
      s' = s.switchTo next rest := by
  unfold schedule nextThreadToRun Next
  cases hready : s.readyList with
  | nil =>
    cases hidle : s.idleThread with
    | none => simp [throw, throwThe, MonadExceptOf.throw]
    | some next =>
      simp only [bind_eq_ok, check_eq_ok, exists_const]
      constructor
      · rintro ⟨hlevel, hstatus, hmagic, htail⟩
        refine ⟨next, [], by simp, hlevel, hstatus, hmagic, ?_⟩
        have heq := @threadScheduleTail_eq s next [] hlevel
        rw [← hready] at heq ⊢
        exact (Except.ok.inj (heq.symm.trans htail)).symm
      · rintro ⟨next', rest, hnext, hlevel, hstatus, hmagic, rfl⟩
        obtain ⟨-, rfl, hn⟩ := hnext.resolve_left (by simp)
        cases hn
        refine ⟨hlevel, hstatus, hmagic, ?_⟩
        have heq := @threadScheduleTail_eq s next [] hlevel
        rw [← hready] at heq ⊢
        exact heq
  | cons next rest =>
    simp only [bind_eq_ok, check_eq_ok, exists_const]
    constructor
    · rintro ⟨hlevel, hstatus, hmagic, htail⟩
      refine ⟨next, rest, Or.inl rfl, hlevel, hstatus, hmagic, ?_⟩
      exact (Except.ok.inj ((threadScheduleTail_eq hlevel).symm.trans htail)).symm
    · rintro ⟨next', rest', hnext, hlevel, hstatus, hmagic, rfl⟩
      cases hnext.resolve_right (by simp)
      exact ⟨hlevel, hstatus, hmagic, threadScheduleTail_eq hlevel⟩

/-! ## The calls -/

/-- What `thread_current` asserts. -/
def RunningOk (s : Sched) : Prop :=
  (s.thread s.running).magic = true ∧ (s.thread s.running).status = .running

theorem threadCurrent_eq_ok : s.threadCurrent = .ok t ↔ s.RunningOk ∧ t = s.running := by
  simp only [threadCurrent, RunningOk, bind_eq_ok, check_eq_ok, pure_eq_ok, exists_const, and_assoc,
    @eq_comm _ t]

theorem intrSetLevel_eq_ok {level : IntrLevel} :
    s.intrSetLevel level = .ok s' ↔
      (level = .on → s.inExternalIntr = false) ∧ s' = { s with level := level } := by
  cases level with
  | off => simp only [intrSetLevel, intrDisable, pure_eq_ok, reduceCtorEq, false_implies, true_and,
      @eq_comm _ s']
  | on => simp only [intrSetLevel, bind_eq_ok, check_eq_ok, pure_eq_ok, exists_const, true_implies,
      @eq_comm _ s']

theorem threadBlock_eq_ok :
    s.threadBlock = .ok s' ↔ s.inExternalIntr = false ∧ s.level = .off ∧ s.RunningOk ∧
      ∃ next rest, s.Next next rest ∧ (s.thread next).magic = true ∧
        s' = (s.setStatus s.running .blocked).switchTo next rest := by
  have hmagic : ∀ u, ((s.setStatus s.running .blocked).thread u).magic = (s.thread u).magic := by
    intro u
    by_cases hu : u = s.running <;> simp [hu]
  simp only [threadBlock, bind_eq_ok, check_eq_ok, threadCurrent_eq_ok, exists_const,
    schedule_eq_ok]
  constructor
  · rintro ⟨h1, h2, _, ⟨h3, rfl⟩, next, rest, h4, -, -, h5, h6⟩
    exact ⟨h1, h2, h3, next, rest, h4, (hmagic next).symm.trans h5, h6⟩
  · rintro ⟨h1, h2, h3, next, rest, h4, h5, h6⟩
    exact ⟨h1, h2, _, ⟨h3, rfl⟩, next, rest, h4, h2, by simp, (hmagic next).trans h5, h6⟩

/-- The state in which `thread_yield` calls `schedule`. -/
def yielding (lab : Lab) (s : Sched) : Sched :=
  (({ s with
      level := .off
      readyList := if some s.running ≠ s.idleThread then s.enqueue lab s.readyList s.running
        else s.readyList } : Sched).setStatus s.running .ready).push [.intrSetLevel s.level]

theorem threadYield_eq_ok :
    s.threadYield lab = .ok s' ↔ s.RunningOk ∧ s.inExternalIntr = false ∧
      ∃ next rest, (s.yielding lab).Next next rest ∧ (s.thread next).magic = true ∧
        s' = (s.yielding lab).switchTo next rest := by
  have hmagic : ∀ u, ((s.yielding lab).thread u).magic = (s.thread u).magic := by
    intro u
    by_cases hu : u = s.running <;> simp [yielding, hu]
  have hstatus : ((s.yielding lab).thread (s.yielding lab).running).status ≠ .running := by
    simp [yielding]
  have hyield : s.threadYield lab = (do
      let _ ← s.threadCurrent
      check (s.inExternalIntr = false) .threadYieldContext
      (s.yielding lab).schedule) := by
    unfold threadYield yielding
    cases hcur : s.threadCurrent with
    | error p => rfl
    | ok cur =>
      obtain ⟨-, rfl⟩ := threadCurrent_eq_ok.mp hcur
      simp only [ok_bind]
      congr 1
      funext _
      by_cases hidle : some s.running = s.idleThread
      · simp only [hidle, ne_eq, not_true_eq_false, if_false, intrDisable]
      · simp only [ne_eq, hidle, not_false_eq_true, if_true, intrDisable]
        have henqueue := @enqueue_congr s { s with level := .off } s.running lab s.readyList
          fun _ => rfl
        rw [henqueue]
  simp only [hyield, bind_eq_ok, check_eq_ok, threadCurrent_eq_ok, exists_const, schedule_eq_ok,
    hmagic]
  constructor
  · rintro ⟨_, ⟨h1, rfl⟩, h2, next, rest, h3, -, -, h4, h5⟩
    exact ⟨h1, h2, next, rest, h3, h4, h5⟩
  · rintro ⟨h1, h2, next, rest, h3, h4, h5⟩
    exact ⟨_, ⟨h1, rfl⟩, h2, next, rest, h3, rfl, hstatus, h4, h5⟩

/-- The state of `thread_unblock` once `t` is ready. -/
def readying (lab : Lab) (t : Tid) (s : Sched) : Sched :=
  ({ s with level := .off, readyList := s.enqueue lab s.readyList t } : Sched).setStatus t .ready

/-- `thread_unblock` gives up the processor to `t`, which Lab 1 never does. -/
def Preempts (lab : Lab) (t : Tid) (s : Sched) : Prop :=
  lab = .lab2 ∧ (s.thread t).priority > (s.thread s.running).priority ∧
    some s.running ≠ s.idleThread

instance : Decidable (s.Preempts lab t) := by
  unfold Preempts
  infer_instance

@[simp] theorem readying_priority :
    ((s.readying lab t).thread u).priority = (s.thread u).priority := by
  by_cases hu : u = t <;> simp [readying, hu]

@[simp] theorem readying_wakeUpTick :
    ((s.readying lab t).thread u).wakeUpTick = (s.thread u).wakeUpTick := by
  by_cases hu : u = t <;> simp [readying, hu]

theorem readying_preempts {lab' : Lab} :
    (s.readying lab' t).Preempts lab u ↔ s.Preempts lab u := by
  simp only [Preempts, readying_priority]
  rfl

theorem threadUnblock_eq (hrunning : s.RunningOk) (hmagic : (s.thread t).magic = true)
    (hblocked : (s.thread t).status = .blocked) :
    s.threadUnblock lab t =
      if s.Preempts lab t then ((s.readying lab t).push [.intrSetLevel s.level]).threadYield lab
      else (s.readying lab t).intrSetLevel s.level := by
  have hne : s.running ≠ t := by
    intro heq
    simp [← heq, hrunning.2] at hblocked
  cases lab with
  | lab1 =>
    have hguards : s.threadUnblock .lab1 t = (s.readying .lab1 t).intrSetLevel s.level := by
      unfold threadUnblock
      rw [check_bind hmagic]
      exact check_bind hblocked
    have hno : ¬ s.Preempts .lab1 t := fun h => by cases h.1
    rw [hguards, if_neg hno]
  | lab2 =>
    have hguards : s.threadUnblock .lab2 t = (do
        let cur ← (s.readying .lab2 t).threadCurrent
        if ((s.readying .lab2 t).thread t).priority > ((s.readying .lab2 t).thread cur).priority ∧
            some cur ≠ (s.readying .lab2 t).idleThread then
          ((s.readying .lab2 t).push [.intrSetLevel s.level]).threadYield .lab2
        else (s.readying .lab2 t).intrSetLevel s.level) := by
      unfold threadUnblock
      rw [check_bind hmagic]
      exact check_bind hblocked
    have hok : (s.readying .lab2 t).RunningOk := by
      simpa [RunningOk, readying, hne] using hrunning
    have hcurrent : (s.readying .lab2 t).threadCurrent = .ok s.running :=
      threadCurrent_eq_ok.mpr ⟨hok, rfl⟩
    have hpreempts : (((s.readying .lab2 t).thread t).priority >
        ((s.readying .lab2 t).thread s.running).priority ∧
        some s.running ≠ (s.readying .lab2 t).idleThread) ↔ s.Preempts .lab2 t := by
      simp only [readying_priority, Preempts, true_and]
      rfl
    simp only [hguards, hcurrent, ok_bind]
    by_cases h : s.Preempts .lab2 t
    · rw [if_pos (hpreempts.mpr h), if_pos h]
    · rw [if_neg (fun h' => h (hpreempts.mp h')), if_neg h]

theorem threadUnblock_eq_ok (hrunning : s.RunningOk) :
    s.threadUnblock lab t = .ok s' ↔
      (s.thread t).magic = true ∧ (s.thread t).status = .blocked ∧
      if s.Preempts lab t then
        ((s.readying lab t).push [.intrSetLevel s.level]).threadYield lab = .ok s'
      else (s.level = .on → s.inExternalIntr = false) ∧
        s' = { s.readying lab t with level := s.level } := by
  have hresult : (s.thread t).magic = true → (s.thread t).status = .blocked →
      (s.threadUnblock lab t = .ok s' ↔ if s.Preempts lab t then
        ((s.readying lab t).push [.intrSetLevel s.level]).threadYield lab = .ok s'
      else (s.level = .on → s.inExternalIntr = false) ∧
        s' = { s.readying lab t with level := s.level }) := by
    intro hmagic hblocked
    rw [threadUnblock_eq hrunning hmagic hblocked]
    split_ifs
    · rfl
    · exact intrSetLevel_eq_ok
  refine ⟨?_, fun hs => (hresult hs.1 hs.2.1).mpr hs.2.2⟩
  intro hs
  have hguards := hs
  simp only [threadUnblock, bind_eq_ok, check_eq_ok, exists_const] at hguards
  exact ⟨hguards.1, hguards.2.1, (hresult hguards.1 hguards.2.1).mp hs⟩

/-- The state in which `thread_exit` calls `schedule`. -/
def exiting (s : Sched) : Sched :=
  ({ s with level := .off, allList := s.allList.erase s.running } : Sched).setStatus s.running .dying

theorem threadExit_eq_ok :
    s.threadExit = .ok s' ↔ s.inExternalIntr = false ∧ s.RunningOk ∧
      ∃ next rest, s.Next next rest ∧ (s.thread next).magic = true ∧
        s' = s.exiting.switchTo next rest := by
  have hmagic : ∀ u, (s.exiting.thread u).magic = (s.thread u).magic := by
    intro u
    by_cases hu : u = s.running <;> simp [exiting, hu]
  have hstatus : (s.exiting.thread s.exiting.running).status ≠ .running := by
    simp [exiting]
  have hcurrent : ∀ cur, s.intrDisable.threadCurrent = .ok cur ↔ s.RunningOk ∧ cur = s.running :=
    fun cur => threadCurrent_eq_ok
  unfold threadExit
  simp only [bind_eq_ok, check_eq_ok, exists_const, hcurrent]
  refine and_congr_right fun _ => ?_
  constructor
  · rintro ⟨_, ⟨hrunning, rfl⟩, h⟩
    obtain ⟨next, rest, hnext, -, -, hm, rfl⟩ := schedule_eq_ok.mp h
    exact ⟨hrunning, next, rest, hnext, (hmagic next).symm.trans hm, rfl⟩
  · rintro ⟨hrunning, next, rest, hnext, hm, rfl⟩
    refine ⟨s.running, ⟨hrunning, rfl⟩, ?_⟩
    exact schedule_eq_ok.mpr ⟨next, rest, hnext, rfl, hstatus, (hmagic next).trans hm, rfl⟩

theorem threadTick_eq_ok :
    s.threadTick = .ok s' ↔ s.RunningOk ∧
      (s.threadTicks + 1 ≥ timeSlice → s.inExternalIntr = true) ∧
      s' = { s with
        threadTicks := s.threadTicks + 1
        yieldOnReturn := if s.threadTicks + 1 ≥ timeSlice then true else s.yieldOnReturn } := by
  unfold threadTick
  simp only [bind_eq_ok, threadCurrent_eq_ok]
  by_cases h : s.threadTicks + 1 ≥ timeSlice
  · simp only [h, if_true, bind_eq_ok, check_eq_ok, pure_eq_ok, exists_const, true_implies,
      exists_and_left, and_assoc, exists_eq_left, @eq_comm _ s']
  · simp only [h, if_false, pure_eq_ok, false_implies, true_and, @eq_comm _ s']
    simp

theorem initThread_eq_ok {priority : Int} {function : ThreadFunction} :
    s.initThread t priority function = .ok s' ↔ (priMin ≤ priority ∧ priority ≤ priMax) ∧
      s' = { s.modify t fun _ =>
          { priority := priority, magic := true, stack := startStack function } with
        allList := s.allList ++ [t] } := by
  simp only [initThread, bind_eq_ok, check_eq_ok, pure_eq_ok, exists_const, modify_allList,
    @eq_comm _ s']

end Sched

end CSE130.Pintos
