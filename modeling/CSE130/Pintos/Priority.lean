import CSE130.Pintos.StepLemmas

/-!
# Priority scheduling

Lab 2 keeps the ready list in the order of the priorities. The running thread has a priority that
no ready thread exceeds, except for the idle thread, and for a thread that has lowered its
priority in `thread_set_priority` and has not yet yielded.
-/

namespace CSE130.Pintos

open CSE130.Library

namespace Sched

variable {s s' : Sched} {t : Tid} {next : Tid} {rest : List Tid}

/-- The ready list is in the order of the priorities. -/
def Ordered (s : Sched) : Prop :=
  s.readyList.Pairwise fun a b => (s.thread b).priority ≤ (s.thread a).priority

/-- No ready thread has a higher priority than the running thread. -/
def Dominates (s : Sched) : Prop :=
  ∀ t ∈ s.readyList, (s.thread t).priority ≤ (s.thread s.running).priority

/-- The running thread dominates the ready list, or is excused. -/
def Settled (s : Sched) : Prop :=
  some s.running = s.idleThread ∨ .threadYield ∈ (s.thread s.running).stack ∨ s.Dominates

/-- The invariant of the scheduler together with the order of the priorities. -/
structure PriorityInv (s : Sched) : Prop extends s.Inv where
  ordered : s.Ordered
  settled : s.Settled

/-- The order depends only on the priorities of the threads on the list. -/
theorem Ordered.congr (h : s.Ordered) (hready : s'.readyList = s.readyList)
    (hpriority : ∀ t ∈ s.readyList, (s'.thread t).priority = (s.thread t).priority) :
    s'.Ordered := by
  unfold Ordered
  rw [hready]
  refine List.Pairwise.imp_of_mem ?_ h
  intro a b ha hb hab
  rw [hpriority a ha, hpriority b hb]
  exact hab

/-- The first thread of an ordered ready list is the one to run. -/
theorem Ordered.switchTo (h : s.Ordered) (hready : s.ReadyOk) (hnext : s.Next next rest) :
    (s.switchTo next rest).Ordered ∧ (s.switchTo next rest).Dominates := by
  have hpriority : ∀ t ∈ s.readyList,
      ((s.switchTo next rest).thread t).priority = (s.thread t).priority := by
    intro t ht
    have hstatus : (s.thread t).status ≠ .dying := by simp [hready.status t ht]
    by_cases htn : t = next <;> simp [Sched.switchTo, htn, hstatus]
  rcases hnext with hlist | ⟨-, rfl, -⟩
  · rw [Ordered, hlist, List.pairwise_cons] at h
    have hmem : ∀ t ∈ rest, t ∈ s.readyList := by
      intro t ht
      simp [hlist, ht]
    refine ⟨?_, ?_⟩
    · refine List.Pairwise.imp_of_mem ?_ h.2
      intro a b ha hb hab
      rw [hpriority a (hmem a ha), hpriority b (hmem b hb)]
      exact hab
    · intro t ht
      rw [hpriority t (hmem t ht), switchTo_running, hpriority next (by simp [hlist])]
      exact h.1 t ht
  · refine ⟨List.Pairwise.nil, ?_⟩
    intro t ht
    cases ht

/-- A thread put on an ordered list by its priority. -/
theorem Ordered.enqueue (h : s.Ordered) :
    (s.enqueue .lab2 s.readyList t).Pairwise fun a b =>
      (s.thread b).priority ≤ (s.thread a).priority := by
  refine pairwise_insertBefore ?_ ?_ ?_ h
  · intro a b c hab hbc
    exact Int.le_trans hbc hab
  · intro a _ ha
    exact Int.not_lt.mp (of_decide_eq_false ha)
  · intro a _ ha
    exact Int.le_of_lt (of_decide_eq_true ha)

/-! ## The calls -/

theorem PriorityInv.threadBlock (h : s.PriorityInv) (hs : s.threadBlock = .ok s') :
    s'.PriorityInv := by
  have hinv := h.toInv.threadBlock hs
  obtain ⟨-, -, -, next, rest, hnext, -, rfl⟩ := threadBlock_eq_ok.mp hs
  have hordered : (s.setStatus s.running .blocked).Ordered := by
    refine h.ordered.congr rfl ?_
    intro t _
    by_cases ht : t = s.running <;> simp [ht]
  obtain ⟨hordered', hdominates⟩ := hordered.switchTo (h.setStatus_readyOk .blocked) hnext
  exact ⟨hinv, hordered', Or.inr (Or.inr hdominates)⟩

theorem PriorityInv.threadExit (h : s.PriorityInv) (hs : s.threadExit = .ok s') :
    s'.PriorityInv := by
  have hinv := h.toInv.threadExit hs
  obtain ⟨-, -, next, rest, hnext, -, rfl⟩ := threadExit_eq_ok.mp hs
  have hordered : s.exiting.Ordered := by
    refine h.ordered.congr rfl ?_
    intro t ht
    by_cases htr : t = s.running
    · rw [htr, exiting_thread_running]
    · rw [exiting_thread_of_ne htr]
  obtain ⟨hordered', hdominates⟩ := hordered.switchTo h.exiting_readyOk hnext
  exact ⟨hinv, hordered', Or.inr (Or.inr hdominates)⟩

/-- After `thread_yield` the running thread dominates, whatever it was before. -/
theorem PriorityInv.of_threadYield (h : s.Inv) (hordered : s.Ordered)
    (hs : s.threadYield .lab2 = .ok s') : s'.PriorityInv := by
  have hinv := h.threadYield hs
  obtain ⟨-, -, next, rest, hnext, -, rfl⟩ := threadYield_eq_ok.mp hs
  have hpriority : ∀ t, ((s.yielding .lab2).thread t).priority = (s.thread t).priority := by
    intro t
    by_cases ht : t = s.running
    · rw [ht, yielding_thread_running]
    · rw [yielding_thread_of_ne ht]
  have hyielding : (s.yielding .lab2).Ordered := by
    unfold Ordered
    simp only [hpriority, yielding_readyList]
    split_ifs
    · exact hordered.enqueue
    · exact hordered
  obtain ⟨hordered', hdominates⟩ := hyielding.switchTo h.yielding_readyOk hnext
  exact ⟨hinv, hordered', Or.inr (Or.inr hdominates)⟩

theorem PriorityInv.threadUnblock (h : s.PriorityInv) (hs : s.threadUnblock .lab2 t = .ok s') :
    s'.PriorityInv := by
  have hinv := h.toInv.threadUnblock hs
  obtain ⟨hmagic, hblocked, hs⟩ := (threadUnblock_eq_ok h.runningOk).mp hs
  have hreadying := @Inv.readying _ _ .lab2 h.toInv hmagic hblocked
  have hordered : (s.readying .lab2 t).Ordered := by
    unfold Ordered
    simp only [readying_priority]
    exact h.ordered.enqueue
  split_ifs at hs with hpreempts
  · refine PriorityInv.of_threadYield (hreadying.push _) (hordered.congr rfl ?_) hs
    intro u _
    by_cases hu : u = s.running <;> simp [hu, readying]
  · obtain ⟨-, rfl⟩ := hs
    refine ⟨hinv, hordered, ?_⟩
    have hne : s.running ≠ t := by
      rintro rfl
      simp [h.runningOk.2] at hblocked
    have hstack : (s.readying .lab2 t).thread s.running = s.thread s.running :=
      readying_thread_of_ne hne
    -- without preemption the woken thread does not exceed the running one
    by_cases hidle : some s.running = s.idleThread
    · exact Or.inl hidle
    · rcases h.settled with h1 | h1 | h1
      · exact Or.inl h1
      · refine Or.inr (Or.inl ?_)
        exact (congrArg Thread.stack hstack) ▸ h1
      · refine Or.inr (Or.inr ?_)
        intro u hu
        change ((s.readying .lab2 t).thread u).priority ≤
          ((s.readying .lab2 t).thread s.running).priority
        rw [readying_priority, readying_priority]
        have hmem : u ∈ s.enqueue .lab2 s.readyList t := hu
        rcases mem_enqueue.mp hmem with rfl | hu
        · exact Int.not_lt.mp fun hlt => hpreempts ⟨rfl, hlt, hidle⟩
        · exact h1 u hu

/-- A change of one thread that neither changes its priority nor takes a pending yield off its
stack. -/
theorem PriorityInv.modify (h : s.PriorityInv) {f : Thread → Thread}
    (hmagic : ∀ th, (f th).magic = th.magic) (hstatus : ∀ th, (f th).status = th.status)
    (hpriority : ∀ th, (f th).priority = th.priority)
    (hstack : ∀ th, .threadYield ∈ th.stack → .threadYield ∈ (f th).stack) :
    (s.modify t f).PriorityInv := by
  have hp : ∀ u, ((s.modify t f).thread u).priority = (s.thread u).priority := by
    intro u
    by_cases hu : u = t <;> simp [hu, hpriority]
  refine ⟨h.toInv.modify hmagic hstatus, h.ordered.congr rfl fun u _ => hp u, ?_⟩
  rcases h.settled with h1 | h1 | h1
  · exact Or.inl h1
  · refine Or.inr (Or.inl ?_)
    by_cases hr : s.running = t
    · simpa [hr] using hstack _ (hr ▸ h1)
    · simpa [hr] using h1
  · refine Or.inr (Or.inr ?_)
    intro u hu
    rw [hp, hp]
    exact h1 u hu

theorem PriorityInv.push (h : s.PriorityInv) (actions : List Action) :
    (s.push actions).PriorityInv := by
  refine h.modify (fun _ => rfl) (fun _ => rfl) (fun _ => rfl) ?_
  intro th hth
  exact List.mem_append_right _ hth

theorem PriorityInv.creating {priority : Int} {function : ThreadFunction} {pushed : List Action}
    (h : s.PriorityInv) (hfree : (s.thread t).magic = false) :
    (s.creating t priority function pushed).PriorityInv := by
  have hpush := h.push pushed
  have hthread : ∀ u, (s.thread u).magic = true →
      (s.creating t priority function pushed).thread u = (s.push pushed).thread u := by
    intro u hu
    refine creating_thread_of_ne ?_
    rintro rfl
    rw [hu] at hfree
    cases hfree
  have hrunning := hthread s.running h.runningOk.1
  refine ⟨h.toInv.creating hfree, hpush.ordered.congr rfl ?_, ?_⟩
  · intro u hu
    rw [hthread u (h.magic u hu)]
  · rcases hpush.settled with h1 | h1 | h1
    · exact Or.inl h1
    · refine Or.inr (Or.inl ?_)
      exact (congrArg Thread.stack hrunning) ▸ h1
    · refine Or.inr (Or.inr ?_)
      intro u hu
      rw [hthread u (h.magic u hu)]
      exact (congrArg Thread.priority hrunning) ▸ h1 u hu

/-- `thread_set_priority` may store any priority, because it goes on to yield. -/
theorem PriorityInv.storePriority (h : s.PriorityInv) (priority : Int)
    (hyield : .threadYield ∈ (s.thread s.running).stack) :
    (s.modify s.running fun th => { th with priority := priority }).PriorityInv := by
  refine ⟨h.toInv.modify (fun _ => rfl) (fun _ => rfl), h.ordered.congr rfl ?_, ?_⟩
  · intro u hu
    have hne : u ≠ s.running := by
      rintro rfl
      exact h.running_notMem hu
    simp [hne]
  · refine Or.inr (Or.inl ?_)
    simpa using hyield

end Sched

/-! ## The machine -/

/-- In a stack, every store of a priority has a yield behind it. -/
def StoresYield : List Action → Prop
  | [] => True
  | a :: as => (∀ priority, a = .storePriority priority → .threadYield ∈ as) ∧ StoresYield as

theorem StoresYield.append {as bs : List Action} (ha : ∀ priority, .storePriority priority ∉ as)
    (hb : StoresYield bs) : StoresYield (as ++ bs) := by
  induction as with
  | nil => exact hb
  | cons a as ih =>
    refine ⟨?_, ih fun priority hmem => ha priority (by simp [hmem])⟩
    rintro priority rfl
    exact absurd (by simp) (ha priority)

namespace Kernel

variable {k k' : Kernel} {a : Action}

theorem step_storesYield {e : Event} (h : k.sched.Inv) (he : k.Enabled e)
    (hk : k.step .lab2 e = .ok k') (hP : ∀ t, StoresYield (k.stack t)) :
    ∀ t, StoresYield (k'.stack t) := by
  refine @step_stack_rule k k' .lab2 (fun _ => StoresYield) (fun _ => trivial) ?_ ?_ ?_ e ?_ h he
    hk hP
  · intro t _ function _
    cases function <;> simp [Sched.startStack, StoresYield]
  · intro t a st ha hst
    refine ⟨?_, hst⟩
    rintro priority rfl
    cases ha
  · intro t a pushed rest hst hconts
    refine StoresYield.append ?_ hst.2
    intro priority
    cases hconts <;> simp [lockAcquire, lockRelease, condvarSignal]
  · intro t op _
    cases op <;> simp [Op.body, StoresYield, lockAcquire, lockRelease, condvarWait, condvarSignal]

theorem exec_priorityInv (h : k.sched.PriorityInv)
    (hstore : ∀ priority, a = .storePriority priority → .threadYield ∈ k.stack k.running)
    (hk : k.exec .lab2 a = .ok k') : k'.sched.PriorityInv := by
  refine exec_sched_rule (fun _ actions h => h.push actions) ?_ (fun _ _ h hs => h.threadBlock hs)
    (fun _ _ h hs => Sched.PriorityInv.of_threadYield h.toInv h.ordered hs)
    (fun _ _ _ h hs => h.threadUnblock hs) (fun _ _ h hs => h.threadExit hs)
    (fun _ _ _ _ _ h hfree => h.creating hfree) ?_ ?_ ?_ h hk
  · intro s level hs
    exact ⟨hs.toInv.setLevel level, hs.ordered, hs.settled⟩
  · intro _ hs
    exact ⟨⟨⟨hs.magic, hs.status, hs.nodup⟩, hs.runningOk⟩, hs.ordered, Or.inl rfl⟩
  · intro s total hs
    exact hs.modify (fun _ => rfl) (fun _ => rfl) (fun _ => rfl) (fun _ hth => hth)
  · intro priority ha hs
    exact hs.storePriority priority (hstore priority ha)

theorem popped_priorityInv {rest : List Action} (h : k.sched.PriorityInv)
    (hstack : k.stack k.running = a :: rest) (ha : a ≠ .threadYield) :
    k.popped.sched.PriorityInv := by
  have hp : ∀ u, (k.popped.thread u).priority = (k.thread u).priority := by
    intro u
    by_cases hu : u = k.sched.running <;> simp [thread, hu]
  refine ⟨h.toInv.pop, h.ordered.congr rfl fun u _ => hp u, ?_⟩
  rcases h.settled with h1 | h1 | h1
  · exact Or.inl h1
  · refine Or.inr (Or.inl ?_)
    change .threadYield ∈ k.stack k.running at h1
    change .threadYield ∈ k.popped.stack k.running
    rw [popped_stack_running hstack]
    rw [hstack] at h1
    exact (List.mem_cons.mp h1).resolve_left fun heq => ha heq.symm
  · refine Or.inr (Or.inr ?_)
    intro u hu
    change (k.popped.thread u).priority ≤ (k.popped.thread k.running).priority
    rw [hp, hp]
    exact h1 u hu

theorem act_priorityInv (h : k.sched.PriorityInv) (hP : StoresYield (k.stack k.running))
    (hne : k.stack k.running ≠ []) (hk : k.step .lab2 .act = .ok k') : k'.sched.PriorityInv := by
  obtain ⟨a, rest, hstack⟩ := List.exists_cons_of_ne_nil hne
  rw [step_act hstack] at hk
  by_cases ha : a = .threadYield
  · subst ha
    obtain ⟨s, hs, rfl⟩ := onSched_eq_ok.mp hk
    refine Sched.PriorityInv.of_threadYield h.toInv.pop (h.ordered.congr rfl ?_) hs
    intro u _
    by_cases hu : u = k.sched.running <;> simp [hu]
  · refine exec_priorityInv (popped_priorityInv h hstack ha) ?_ hk
    rintro priority rfl
    change .threadYield ∈ k.popped.stack k.running
    rw [popped_stack_running hstack]
    rw [hstack] at hP
    exact hP.1 priority rfl

theorem tick_priorityInv (h : k.sched.PriorityInv) (hk : k.intrHandler .lab2 = .ok k') :
    k'.sched.PriorityInv := by
  obtain ⟨-, k₁, hk₁, -, -, hk'⟩ := intrHandler_eq_ok.mp hk
  obtain ⟨s, e, hs, -, hwake⟩ := timerInterrupt_eq_ok.mp hk₁
  obtain ⟨-, -, rfl⟩ := Sched.threadTick_eq_ok.mp hs
  have hpush := h.push [.iret]
  have hstart : k.interrupted.sched.PriorityInv :=
    ⟨⟨⟨hpush.magic, hpush.status, hpush.nodup⟩, hpush.runningOk⟩, hpush.ordered, hpush.settled⟩
  have hwoken : k₁.sched.PriorityInv := by
    refine @timerWake_rule _ _ .lab2 (fun k => k.sched.PriorityInv) ?_ _ _ ?_ hwake
    · intro k hold s timerList hk hs
      exact hk.threadUnblock hs
    · exact ⟨⟨⟨hstart.magic, hstart.status, hstart.nodup⟩, hstart.runningOk⟩, hstart.ordered,
        hstart.settled⟩
  have hleave : ({ k₁.sched with inExternalIntr := false } : Sched).PriorityInv :=
    ⟨⟨⟨hwoken.magic, hwoken.status, hwoken.nodup⟩, hwoken.runningOk⟩, hwoken.ordered,
      hwoken.settled⟩
  split_ifs at hk'
  · obtain ⟨s, hs, rfl⟩ := hk'
    exact Sched.PriorityInv.of_threadYield hleave.toInv hleave.ordered hs
  · subst hk'
    exact hleave

theorem reachable_priorityInv {init : Nat → Nat} (hr : Lab2Reachable init k) :
    k.sched.PriorityInv ∧ ∀ t, StoresYield (k.stack t) := by
  refine @Reachable.invariant _ _ _ (step .lab2) Enabled (boot init)
    (fun k => k.sched.PriorityInv ∧ ∀ t, StoresYield (k.stack t)) ⟨⟨boot_inv init, ?_, ?_⟩, ?_⟩ ?_ k hr
  · exact List.Pairwise.nil
  · refine Or.inr (Or.inr ?_)
    intro t ht
    cases ht
  · intro t
    by_cases ht : t = 0 <;>
      simp [stack, boot, threadStart, StoresYield, ht]
  · intro k e k' _ hinv he hk
    refine ⟨?_, step_storesYield hinv.1.toInv he hk hinv.2⟩
    cases e with
    | act => exact act_priorityInv hinv.1 (hinv.2 _) he hk
    | call op =>
      cases pure_eq_ok.mp hk
      exact hinv.1.push _
    | tick => exact tick_priorityInv hinv.1 hk

/-- No ready thread has a higher priority than the running thread, unless that is the idle thread
or is inside `thread_yield` or `thread_set_priority`. -/
theorem ready_priority_le {init : Nat → Nat} (hr : Lab2Reachable init k)
    (hidle : some k.running ≠ k.sched.idleThread) (hcalm : .threadYield ∉ k.stack k.running) :
    ∀ t ∈ k.sched.readyList, (k.thread t).priority ≤ (k.thread k.running).priority := by
  rcases (reachable_priorityInv hr).1.settled with h | h | h
  · exact absurd h hidle
  · exact absurd h hcalm
  · exact h

/-- `main` creates a thread of a lower priority, which stays on the ready list. -/
def createLow : List Event :=
  starting ++ Event.call (.threadCreate 2 10) :: List.replicate 9 Event.act

theorem ready_priority_le_createLow : ∃ k, runFrom .lab2 (fun _ => 0) createLow = some k ∧
    k.sched.readyList = [2] ∧
    ∀ t ∈ k.sched.readyList, (k.thread t).priority ≤ (k.thread k.running).priority := by
  have hrun : (runFrom .lab2 (fun _ => 0) createLow).map (fun k =>
      (k.sched.readyList, k.running, k.sched.idleThread, k.stack k.running)) =
      some ([2], 0, some 1, []) := by
    decide +kernel
  obtain ⟨k, hk, heq⟩ := Option.map_eq_some_iff.mp hrun
  simp only [Prod.mk.injEq] at heq
  obtain ⟨hready, hrunning, hidle, hstack⟩ := heq
  refine ⟨k, hk, hready, ready_priority_le (reachable_of_runFrom hk) ?_ ?_⟩
  · rw [hrunning, hidle]
    decide
  · rw [hstack]
    exact List.not_mem_nil

end Kernel

end CSE130.Pintos
