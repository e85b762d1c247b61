import CSE130.Pintos.SchedLemmas

/-!
# The invariant of the scheduler

`Inv` is what holds of the running thread and of the ready list between two steps. `Moves` says
what a step may do to the threads: which of them it wakes, whether the running thread blocks, and
what it puts on the stack of the running thread.
-/

namespace CSE130.Pintos

open CSE130.Library

/-- An action that does nothing but set the interrupt level. -/
def Action.setsLevel : Action → Bool
  | .intrSetLevel _ | .iret => true
  | _ => false

/-- Actions that do nothing but set the interrupt level. -/
def LevelOnly (as : List Action) : Prop := ∀ a ∈ as, a.setsLevel = true

@[simp] theorem LevelOnly.nil : LevelOnly [] := fun _ h => nomatch h

@[simp] theorem LevelOnly.singleton_intrSetLevel (level : IntrLevel) :
    LevelOnly [.intrSetLevel level] := by
  simp [LevelOnly, Action.setsLevel]

@[simp] theorem LevelOnly.singleton_iret : LevelOnly [.iret] := by
  simp [LevelOnly, Action.setsLevel]

theorem LevelOnly.append {as bs : List Action} (ha : LevelOnly as) (hb : LevelOnly bs) :
    LevelOnly (as ++ bs) := by
  intro a h
  rcases List.mem_append.mp h with h | h
  · exact ha a h
  · exact hb a h

namespace Sched

variable {s s' : Sched} {t u : Tid} {lab : Lab} {next : Tid} {rest : List Tid}

/-- The threads on the ready list are ready. -/
structure ReadyOk (s : Sched) : Prop where
  magic : ∀ t ∈ s.readyList, (s.thread t).magic = true
  status : ∀ t ∈ s.readyList, (s.thread t).status = .ready
  nodup : s.readyList.Nodup

structure Inv (s : Sched) : Prop extends ReadyOk s where
  runningOk : s.RunningOk

/-! ## A switch of threads -/

@[simp] theorem switchTo_running : (s.switchTo next rest).running = next := rfl
@[simp] theorem switchTo_readyList : (s.switchTo next rest).readyList = rest := rfl
@[simp] theorem switchTo_level : (s.switchTo next rest).level = s.level := rfl
@[simp] theorem switchTo_allList : (s.switchTo next rest).allList = s.allList := rfl
@[simp] theorem switchTo_idleThread : (s.switchTo next rest).idleThread = s.idleThread := rfl
@[simp] theorem switchTo_initialThread :
    (s.switchTo next rest).initialThread = s.initialThread := rfl
@[simp] theorem switchTo_inExternalIntr :
    (s.switchTo next rest).inExternalIntr = s.inExternalIntr := rfl

theorem switchTo_thread_next :
    (s.switchTo next rest).thread next = { s.thread next with status := .running } := by
  simp [switchTo]

/-- No page is given back unless the thread switched from is dying. -/
theorem switchTo_thread (hkeep : (s.thread s.running).status ≠ .dying) :
    (s.switchTo next rest).thread u =
      if u = next then { s.thread u with status := .running } else s.thread u := by
  have hno : ¬ (u = s.running ∧ (s.thread u).status = .dying ∧ u ≠ s.initialThread) := by
    rintro ⟨rfl, h, -⟩
    exact hkeep h
  simp only [switchTo, hno, if_false]

theorem switchTo_thread_of_ne (h : u ≠ s.running) :
    (s.switchTo next rest).thread u =
      if u = next then { s.thread u with status := .running } else s.thread u := by
  simp [switchTo, h]

/-- What is left on the ready list was on it, and is not the thread that runs next. -/
theorem Next.of_mem (h : s.Next next rest) (hready : s.ReadyOk) (hu : u ∈ rest) :
    u ∈ s.readyList ∧ u ≠ next := by
  rcases h with h | ⟨-, rfl, -⟩
  · have hnodup := hready.nodup
    rw [h, List.nodup_cons] at hnodup
    refine ⟨by simp [h, hu], ?_⟩
    rintro rfl
    exact hnodup.1 hu
  · cases hu

/-- The next thread comes from the ready list, unless it is the idle thread. -/
theorem Next.mem (h : s.Next next rest) (hidle : some next ≠ s.idleThread) :
    next ∈ s.readyList := by
  rcases h with h | ⟨-, -, h⟩
  · simp [h]
  · exact absurd h.symm hidle

theorem ReadyOk.running_notMem (h : s.ReadyOk) (hrunning : (s.thread s.running).status ≠ .ready) :
    s.running ∉ s.readyList := fun hmem => hrunning (h.status _ hmem)

/-- A switch from a state whose ready list is in order leads to a state that is. -/
theorem ReadyOk.switchTo (h : s.ReadyOk) (hnext : s.Next next rest)
    (hmagic : (s.thread next).magic = true) : (s.switchTo next rest).Inv := by
  have hthread : ∀ u ∈ rest, (s.switchTo next rest).thread u = s.thread u := by
    intro u hu
    obtain ⟨hmem, hne⟩ := hnext.of_mem h hu
    have hstatus : (s.thread u).status ≠ .dying := by simp [h.status u hmem]
    simp [Sched.switchTo, hne, hstatus]
  refine ⟨⟨?_, ?_, ?_⟩, ?_, ?_⟩
  · intro u hu
    rw [hthread u hu]
    exact h.magic u (hnext.of_mem h hu).1
  · intro u hu
    rw [hthread u hu]
    exact h.status u (hnext.of_mem h hu).1
  · rcases hnext with hready | ⟨-, rfl, -⟩
    · have hnodup := h.nodup
      rw [hready, List.nodup_cons] at hnodup
      exact hnodup.2
    · exact List.nodup_nil
  · rw [switchTo_running, switchTo_thread_next]
    exact hmagic
  · rw [switchTo_running, switchTo_thread_next]

/-! ## The invariant under the calls -/

theorem Inv.running_notMem (h : s.Inv) : s.running ∉ s.readyList :=
  h.toReadyOk.running_notMem (by simp [h.runningOk.2])

theorem Inv.setLevel (h : s.Inv) (level : IntrLevel) : ({ s with level := level } : Sched).Inv :=
  ⟨⟨h.magic, h.status, h.nodup⟩, h.runningOk⟩

/-- A change of a thread that keeps its status and its page keeps the invariant. -/
theorem Inv.modify (h : s.Inv) {f : Thread → Thread}
    (hmagic : ∀ th, (f th).magic = th.magic) (hstatus : ∀ th, (f th).status = th.status) :
    (s.modify t f).Inv := by
  have hm : ∀ u, ((s.modify t f).thread u).magic = (s.thread u).magic := by
    intro u
    by_cases hu : u = t <;> simp [hu, hmagic]
  have hs : ∀ u, ((s.modify t f).thread u).status = (s.thread u).status := by
    intro u
    by_cases hu : u = t <;> simp [hu, hstatus]
  refine ⟨⟨?_, ?_, h.nodup⟩, ?_, ?_⟩
  · intro u hu
    exact (hm u).trans (h.magic u hu)
  · intro u hu
    exact (hs u).trans (h.status u hu)
  · exact (hm _).trans h.runningOk.1
  · exact (hs _).trans h.runningOk.2

theorem Inv.push (h : s.Inv) (actions : List Action) : (s.push actions).Inv :=
  h.modify (fun _ => rfl) (fun _ => rfl)

theorem Inv.pop (h : s.Inv) : s.pop.Inv := h.modify (fun _ => rfl) (fun _ => rfl)

theorem Inv.setStatus_readyOk (h : s.Inv) (status : ThreadStatus) :
    (s.setStatus s.running status).ReadyOk := by
  have hne : ∀ u ∈ s.readyList, u ≠ s.running := by
    rintro u hu rfl
    exact h.running_notMem hu
  refine ⟨?_, ?_, h.nodup⟩
  · intro u hu
    simpa [hne u hu] using h.magic u hu
  · intro u hu
    simpa [hne u hu] using h.status u hu

theorem Inv.threadBlock (h : s.Inv) (hs : s.threadBlock = .ok s') : s'.Inv := by
  obtain ⟨-, -, -, next, rest, hnext, hmagic, rfl⟩ := threadBlock_eq_ok.mp hs
  refine (h.setStatus_readyOk .blocked).switchTo hnext ?_
  by_cases hu : next = s.running <;> simp [hu, h.runningOk.1, hmagic]

theorem Inv.exiting_readyOk (h : s.Inv) : s.exiting.ReadyOk :=
  have hdying := h.setStatus_readyOk .dying
  ⟨hdying.magic, hdying.status, hdying.nodup⟩

theorem Inv.threadExit (h : s.Inv) (hs : s.threadExit = .ok s') : s'.Inv := by
  obtain ⟨-, -, next, rest, hnext, hmagic, rfl⟩ := threadExit_eq_ok.mp hs
  refine h.exiting_readyOk.switchTo hnext ?_
  by_cases hu : next = s.running <;> simp [exiting, hu, h.runningOk.1, hmagic]

theorem yielding_thread_running : (s.yielding lab).thread s.running =
    { s.thread s.running with
      status := .ready
      stack := .intrSetLevel s.level :: (s.thread s.running).stack } := by
  simp [yielding]

theorem yielding_thread_of_ne (hu : u ≠ s.running) : (s.yielding lab).thread u = s.thread u := by
  simp [yielding, hu]

theorem yielding_readyList : (s.yielding lab).readyList =
    if some s.running ≠ s.idleThread then s.enqueue lab s.readyList s.running else s.readyList := rfl

theorem Inv.yielding_readyOk (h : s.Inv) : (s.yielding lab).ReadyOk := by
  have hmem : ∀ u ∈ (s.yielding lab).readyList, u = s.running ∨ u ∈ s.readyList := by
    intro u hu
    rw [yielding_readyList] at hu
    split_ifs at hu
    · exact mem_enqueue.mp hu
    · exact Or.inr hu
  have hne : ∀ u ∈ s.readyList, u ≠ s.running := by
    rintro u hu rfl
    exact h.running_notMem hu
  refine ⟨?_, ?_, ?_⟩
  · intro u hu
    rcases hmem u hu with rfl | hu
    · rw [yielding_thread_running]
      exact h.runningOk.1
    · rw [yielding_thread_of_ne (hne u hu)]
      exact h.magic u hu
  · intro u hu
    rcases hmem u hu with rfl | hu
    · rw [yielding_thread_running]
    · rw [yielding_thread_of_ne (hne u hu)]
      exact h.status u hu
  · rw [yielding_readyList]
    split_ifs
    · exact nodup_enqueue.mpr ⟨h.running_notMem, h.nodup⟩
    · exact h.nodup

theorem Inv.yielding_next_magic (h : s.Inv) (hmagic : (s.thread next).magic = true) :
    ((s.yielding lab).thread next).magic = true := by
  by_cases hu : next = s.running
  · rw [hu, yielding_thread_running]
    exact h.runningOk.1
  · rw [yielding_thread_of_ne hu]
    exact hmagic

theorem Inv.threadYield (h : s.Inv) (hs : s.threadYield lab = .ok s') : s'.Inv := by
  obtain ⟨-, -, next, rest, hnext, hmagic, rfl⟩ := threadYield_eq_ok.mp hs
  exact h.yielding_readyOk.switchTo hnext (h.yielding_next_magic hmagic)

theorem readying_thread_self : (s.readying lab t).thread t =
    { s.thread t with status := .ready } := by
  simp [readying]

theorem readying_thread_of_ne (hu : u ≠ t) : (s.readying lab t).thread u = s.thread u := by
  simp [readying, hu]

/-- Making a blocked thread ready keeps the invariant. -/
theorem Inv.readying (h : s.Inv) (hmagic : (s.thread t).magic = true)
    (hblocked : (s.thread t).status = .blocked) : (s.readying lab t).Inv := by
  have hready : t ∉ s.readyList := fun hmem => by simp [h.status t hmem] at hblocked
  have hrunning : s.running ≠ t := by
    rintro rfl
    simp [h.runningOk.2] at hblocked
  have hmem : ∀ u ∈ (s.readying lab t).readyList, u = t ∨ u ∈ s.readyList :=
    fun u hu => mem_enqueue.mp hu
  have hne : ∀ u ∈ s.readyList, u ≠ t := by
    rintro u hu rfl
    exact hready hu
  refine ⟨⟨?_, ?_, nodup_enqueue.mpr ⟨hready, h.nodup⟩⟩, ?_⟩
  · intro u hu
    rcases hmem u hu with rfl | hu
    · rw [readying_thread_self]
      exact hmagic
    · rw [readying_thread_of_ne (hne u hu)]
      exact h.magic u hu
  · intro u hu
    rcases hmem u hu with rfl | hu
    · rw [readying_thread_self]
    · rw [readying_thread_of_ne (hne u hu)]
      exact h.status u hu
  · have hkeep : (s.readying lab t).thread s.running = s.thread s.running :=
      readying_thread_of_ne hrunning
    constructor
    · exact (congrArg Thread.magic hkeep).trans h.runningOk.1
    · exact (congrArg Thread.status hkeep).trans h.runningOk.2

theorem Inv.threadUnblock (h : s.Inv) (hs : s.threadUnblock lab t = .ok s') : s'.Inv := by
  obtain ⟨hmagic, hblocked, hs⟩ := (threadUnblock_eq_ok h.runningOk).mp hs
  have hready := @Inv.readying _ _ lab h hmagic hblocked
  split_ifs at hs
  · exact (hready.push _).threadYield hs
  · obtain ⟨-, rfl⟩ := hs
    exact hready.setLevel _

/-! ## What a step does to the threads -/

/-- From `s` to `s'` the threads `woken` are made ready, the running thread blocks if `blocks`,
and has put `pushed` on its stack, with actions in front that only set the interrupt level. The
idle thread is the only one that may be found blocked and run. -/
structure Moves (woken : List Tid) (blocks : Prop) (pushed : List Action) (s s' : Sched) : Prop where
  magic : ∀ u, (s'.thread u).magic = (s.thread u).magic
  priority : ∀ u, u ≠ s.running → (s'.thread u).priority = (s.thread u).priority
  wakeUpTick : ∀ u, u ≠ s.running → (s'.thread u).wakeUpTick = (s.thread u).wakeUpTick
  stack : ∀ u, u ≠ s.running → (s'.thread u).stack = (s.thread u).stack
  stackRunning : ∃ ns, LevelOnly ns ∧
    (s'.thread s.running).stack = ns ++ pushed ++ (s.thread s.running).stack
  stackBlocked : blocks → (s'.thread s.running).stack = pushed ++ (s.thread s.running).stack
  blocked : ∀ u, some u ≠ s.idleThread → ((s'.thread u).status = .blocked ↔
    if u = s.running then blocks else (s.thread u).status = .blocked ∧ u ∉ woken)
  dying : ∀ u, some u ≠ s.idleThread →
    ((s'.thread u).status = .dying ↔ (s.thread u).status = .dying)
  level : s'.running ≠ s.running ∨ blocks → s'.level = .off
  allList : s'.allList = s.allList
  idleThread : s'.idleThread = s.idleThread
  initialThread : s'.initialThread = s.initialThread
  inExternalIntr : s'.inExternalIntr = s.inExternalIntr

theorem Moves.blocked_of_ne {woken : List Tid} {blocks : Prop} {pushed : List Action}
    (h : Moves woken blocks pushed s s') (hu : u ≠ s.running) (hidle : some u ≠ s.idleThread) :
    (s'.thread u).status = .blocked ↔ (s.thread u).status = .blocked ∧ u ∉ woken := by
  rw [h.blocked u hidle, if_neg hu]

theorem Moves.blocked_running {woken : List Tid} {blocks : Prop} {pushed : List Action}
    (h : Moves woken blocks pushed s s') (hidle : some s.running ≠ s.idleThread) :
    (s'.thread s.running).status = .blocked ↔ blocks := by
  rw [h.blocked s.running hidle, if_pos rfl]

theorem Moves.refl (h : s.RunningOk) : Moves [] False [] s s := by
  refine ⟨fun _ => rfl, fun _ _ => rfl, fun _ _ => rfl, fun _ _ => rfl, ⟨[], by simp⟩, by simp, ?_,
    fun _ _ => Iff.rfl, by simp, rfl, rfl, rfl, rfl⟩
  intro u _
  by_cases hu : u = s.running
  · simp [hu, h.2]
  · simp [hu]

/-- A change of the running thread that keeps its status and its page. -/
theorem Moves.modify (h : s.RunningOk) {f : Thread → Thread} {pushed : List Action}
    (hmagic : ∀ th, (f th).magic = th.magic) (hstatus : ∀ th, (f th).status = th.status)
    (hstack : ∀ th, (f th).stack = pushed ++ th.stack) :
    Moves [] False pushed s (s.modify s.running f) := by
  refine ⟨?_, ?_, ?_, ?_, ⟨[], by simp [hstack]⟩, by simp, ?_, ?_, by simp, rfl, rfl, rfl, rfl⟩
  · intro u
    by_cases hu : u = s.running <;> simp [hu, hmagic]
  · intro u hu
    simp [hu]
  · intro u hu
    simp [hu]
  · intro u hu
    simp [hu]
  · intro u _
    by_cases hu : u = s.running
    · simp [hu, hstatus, h.2]
    · simp [hu]
  · intro u _
    by_cases hu : u = s.running <;> simp [hu, hstatus]

theorem Moves.push (h : s.RunningOk) (pushed : List Action) :
    Moves [] False pushed s (s.push pushed) :=
  Moves.modify h (fun _ => rfl) (fun _ => rfl) (fun _ => rfl)

theorem Moves.pushLevel (h : s.RunningOk) {ns : List Action} (hns : LevelOnly ns) :
    Moves [] False [] s (s.push ns) := by
  have hpush := Moves.push h ns
  exact { hpush with stackRunning := ⟨ns, hns, by simp⟩, stackBlocked := fun h => h.elim }

theorem Moves.setLevel (h : s.RunningOk) (level : IntrLevel) :
    Moves [] False [] s { s with level := level } := by
  have hrefl := Moves.refl h
  exact ⟨hrefl.magic, hrefl.priority, hrefl.wakeUpTick, hrefl.stack, hrefl.stackRunning, by simp,
    hrefl.blocked, hrefl.dying, by simp, rfl, rfl, rfl, rfl⟩

/-- A first step in which the running thread goes on, and a second one. -/
theorem Moves.trans {s₁ : Sched} {woken₁ woken₂ : List Tid} {pushed : List Action}
    (h₁ : Moves woken₁ False pushed s s₁) (hrunning : s₁.running = s.running)
    (h₂ : Moves woken₂ False [] s₁ s') : Moves (woken₁ ++ woken₂) False pushed s s' := by
  obtain ⟨ns₁, hns₁, hstack₁⟩ := h₁.stackRunning
  obtain ⟨ns₂, hns₂, hstack₂⟩ := h₂.stackRunning
  rw [hrunning] at hstack₂
  refine ⟨fun u => (h₂.magic u).trans (h₁.magic u), ?_, ?_, ?_, ?_, fun h => h.elim, ?_, ?_, ?_,
    h₂.allList.trans h₁.allList, h₂.idleThread.trans h₁.idleThread,
    h₂.initialThread.trans h₁.initialThread, h₂.inExternalIntr.trans h₁.inExternalIntr⟩
  · intro u hu
    exact (h₂.priority u (by rwa [hrunning])).trans (h₁.priority u hu)
  · intro u hu
    exact (h₂.wakeUpTick u (by rwa [hrunning])).trans (h₁.wakeUpTick u hu)
  · intro u hu
    exact (h₂.stack u (by rwa [hrunning])).trans (h₁.stack u hu)
  · refine ⟨ns₂ ++ ns₁, hns₂.append hns₁, ?_⟩
    rw [hstack₂, hstack₁]
    simp
  · intro u hu
    rw [h₂.blocked u (by rwa [h₁.idleThread]), h₁.blocked u hu, hrunning]
    by_cases hur : u = s.running
    · simp [hur]
    · simp [hur, and_assoc]
  · intro u hu
    exact (h₂.dying u (by rwa [h₁.idleThread])).trans (h₁.dying u hu)
  · intro h
    rw [← hrunning] at h
    exact h₂.level h

/-- What the running thread has put on its stack before a step. -/
theorem Moves.of_push {woken : List Tid} {blocks : Prop} {pushed : List Action}
    (h : Moves woken blocks [] (s.push pushed) s') : Moves woken blocks pushed s s' := by
  have hother : ∀ u, u ≠ s.running → (s.push pushed).thread u = s.thread u := by
    intro u hu
    simp [hu]
  have hself : ((s.push pushed).thread s.running).stack = pushed ++ (s.thread s.running).stack := by
    simp
  obtain ⟨ns, hns, hstack⟩ := h.stackRunning
  refine ⟨?_, ?_, ?_, ?_, ⟨ns, hns, ?_⟩, ?_, ?_, ?_, h.level, h.allList, h.idleThread,
    h.initialThread, h.inExternalIntr⟩
  · intro u
    rw [h.magic]
    by_cases hu : u = s.running <;> simp [hu]
  · intro u hu
    rw [h.priority u hu, hother u hu]
  · intro u hu
    rw [h.wakeUpTick u hu, hother u hu]
  · intro u hu
    rw [h.stack u hu, hother u hu]
  · refine hstack.trans ?_
    rw [List.append_nil, List.append_assoc]
    exact congrArg (ns ++ ·) hself
  · intro hb
    exact (h.stackBlocked hb).trans hself
  · intro u hu
    refine (h.blocked u hu).trans ?_
    by_cases hur : u = s.running
    · simp only [hur, modify_running, Sched.push, if_true]
    · simp only [hur, modify_running, Sched.push, if_false, modify_thread]
  · intro u hu
    refine (h.dying u hu).trans ?_
    by_cases hur : u = s.running
    · simp [hur]
    · rw [hother u hur]

theorem Moves.of_setLevel {level : IntrLevel} {woken : List Tid} {blocks : Prop}
    {pushed : List Action} (h : Moves woken blocks pushed { s with level := level } s') :
    Moves woken blocks pushed s s' :=
  ⟨h.magic, h.priority, h.wakeUpTick, h.stack, h.stackRunning, h.stackBlocked, h.blocked, h.dying,
    h.level, h.allList, h.idleThread, h.initialThread, h.inExternalIntr⟩

/-- A switch from a state that differs from `s` in the running thread only. -/
theorem Moves.switchTo {s₁ : Sched} {blocks : Prop} {pushed : List Action}
    (h : s₁.ReadyOk) (hnext : s₁.Next next rest)
    (hother : ∀ u, u ≠ s.running → s₁.thread u = s.thread u)
    (hmagic : (s₁.thread s.running).magic = (s.thread s.running).magic)
    (hstack : ∃ ns, LevelOnly ns ∧
      (s₁.thread s.running).stack = ns ++ pushed ++ (s.thread s.running).stack)
    (hexact : blocks → (s₁.thread s.running).stack = pushed ++ (s.thread s.running).stack)
    (hblocked : (s₁.thread s.running).status = .blocked ↔ blocks)
    (hdying : (s₁.thread s.running).status ≠ .dying) (hok : s.RunningOk)
    (hrunning : s₁.running = s.running) (hlevel : s₁.level = .off)
    (hall : s₁.allList = s.allList) (hidle : s₁.idleThread = s.idleThread)
    (hinitial : s₁.initialThread = s.initialThread)
    (hintr : s₁.inExternalIntr = s.inExternalIntr) :
    Moves [] blocks pushed s (s₁.switchTo next rest) := by
  have hthread : ∀ u, (s₁.switchTo next rest).thread u =
      if u = next then { s₁.thread u with status := .running } else s₁.thread u :=
    fun u => switchTo_thread (by rwa [hrunning])
  refine ⟨?_, ?_, ?_, ?_, ?_, ?_, ?_, ?_, fun _ => hlevel, hall, hidle, hinitial, hintr⟩
  · intro u
    have hm : (s₁.thread u).magic = (s.thread u).magic := by
      by_cases hu : u = s.running
      · rw [hu, hmagic]
      · rw [hother u hu]
    rw [hthread]
    split_ifs <;> exact hm
  · intro u hu
    rw [hthread, ← hother u hu]
    split_ifs <;> rfl
  · intro u hu
    rw [hthread, ← hother u hu]
    split_ifs <;> rfl
  · intro u hu
    rw [hthread, ← hother u hu]
    split_ifs <;> rfl
  · rw [hthread]
    split_ifs <;> exact hstack
  · intro hb
    rw [hthread]
    split_ifs <;> exact hexact hb
  · intro u hu
    have hstatus : ((s₁.switchTo next rest).thread u).status = .blocked ↔
        (s₁.thread u).status = .blocked := by
      rw [hthread]
      split_ifs with hun
      · have hready := h.status u (hun ▸ hnext.mem (by rwa [← hun, hidle]))
        simp [hready]
      · rfl
    rw [hstatus]
    by_cases hur : u = s.running
    · rw [hur, hblocked, if_pos rfl]
    · rw [hother u hur]
      simp [hur]
  · intro u hu
    have hstatus : ((s₁.switchTo next rest).thread u).status = .dying ↔
        (s₁.thread u).status = .dying := by
      rw [hthread]
      split_ifs with hun
      · have hready := h.status u (hun ▸ hnext.mem (by rwa [← hun, hidle]))
        simp [hready]
      · rfl
    rw [hstatus]
    by_cases hur : u = s.running
    · rw [hur, hok.2]
      exact iff_of_false hdying (by simp)
    · rw [hother u hur]

theorem Inv.threadBlock_moves (h : s.Inv) (hs : s.threadBlock = .ok s') :
    Moves [] True [] s s' := by
  obtain ⟨-, hlevel, -, next, rest, hnext, -, rfl⟩ := threadBlock_eq_ok.mp hs
  refine Moves.switchTo (h.setStatus_readyOk .blocked) hnext ?_ ?_ ⟨[], by simp⟩ (by simp) ?_ ?_
    h.runningOk rfl hlevel rfl rfl rfl rfl
  · intro u hu
    simp [hu]
  · simp
  · simp
  · simp

theorem Inv.threadYield_moves (h : s.Inv) (hs : s.threadYield lab = .ok s') :
    Moves [] False [] s s' := by
  obtain ⟨-, -, next, rest, hnext, -, rfl⟩ := threadYield_eq_ok.mp hs
  refine Moves.switchTo h.yielding_readyOk hnext (fun u hu => yielding_thread_of_ne hu) ?_
    ⟨[.intrSetLevel s.level], by simp, ?_⟩ (fun h => h.elim) ?_ ?_ h.runningOk rfl rfl rfl
    rfl rfl rfl <;>
    rw [yielding_thread_running] <;> simp

theorem Inv.readying_moves (h : s.Inv) (hblocked : (s.thread t).status = .blocked) :
    Moves [t] False [] s (s.readying lab t) := by
  have hne : s.running ≠ t := by
    rintro rfl
    simp [h.runningOk.2] at hblocked
  refine ⟨?_, ?_, ?_, ?_, ⟨[], by simp [Sched.readying, hne]⟩, by simp, ?_, ?_,
    by simp [Sched.readying], rfl, rfl, rfl, rfl⟩
  · intro u
    by_cases hu : u = t <;> simp [Sched.readying, hu]
  · intro u _
    by_cases hu : u = t <;> simp [Sched.readying, hu]
  · intro u _
    by_cases hu : u = t <;> simp [Sched.readying, hu]
  · intro u _
    by_cases hu : u = t <;> simp [Sched.readying, hu]
  · intro u _
    by_cases hu : u = t
    · subst hu
      simp [Sched.readying]
    · by_cases hur : u = s.running
      · simp [Sched.readying, hur, hne, h.runningOk.2]
      · simp [Sched.readying, hu, hur]
  · intro u _
    by_cases hu : u = t
    · rw [hu, readying_thread_self, hblocked]
      simp
    · rw [readying_thread_of_ne hu]

theorem Inv.threadUnblock_moves (h : s.Inv) (hs : s.threadUnblock lab t = .ok s') :
    Moves [t] False [] s s' := by
  obtain ⟨hmagic, hblocked, hs⟩ := (threadUnblock_eq_ok h.runningOk).mp hs
  have hready := @Inv.readying _ _ lab h hmagic hblocked
  have hmoves := @Inv.readying_moves _ _ lab h hblocked
  split_ifs at hs
  · have hpush := Moves.pushLevel hready.runningOk (LevelOnly.singleton_intrSetLevel s.level)
    exact (hmoves.trans rfl hpush).trans rfl ((hready.push _).threadYield_moves hs)
  · obtain ⟨-, rfl⟩ := hs
    exact hmoves.trans rfl (Moves.setLevel hready.runningOk _)

/-! ## The end and the start of a thread -/

/-- From `s` to `s'` the running thread ends. The page of the initial thread is kept. -/
structure Exits (s s' : Sched) : Prop where
  magic : ∀ u, u ≠ s.running → (s'.thread u).magic = (s.thread u).magic
  priority : ∀ u, u ≠ s.running → (s'.thread u).priority = (s.thread u).priority
  wakeUpTick : ∀ u, u ≠ s.running → (s'.thread u).wakeUpTick = (s.thread u).wakeUpTick
  stack : ∀ u, u ≠ s.running → (s'.thread u).stack = (s.thread u).stack
  blocked : ∀ u, u ≠ s.running → some u ≠ s.idleThread →
    ((s'.thread u).status = .blocked ↔ (s.thread u).status = .blocked)
  dying : ∀ u, u ≠ s.running → some u ≠ s.idleThread → (s.thread u).status = .dying →
    (s'.thread u).status = .dying
  page : s'.thread s.running = {} ∨
    (s'.thread s.running).magic = true ∧
      (s'.thread s.running).stack = (s.thread s.running).stack ∧
      ((s'.thread s.running).status = .dying ∧ s.running = s.initialThread ∨
        some s.running = s.idleThread)
  level : s'.level = .off
  allList : s'.allList = s.allList.erase s.running
  idleThread : s'.idleThread = s.idleThread
  initialThread : s'.initialThread = s.initialThread
  inExternalIntr : s'.inExternalIntr = s.inExternalIntr

theorem exiting_thread_running :
    s.exiting.thread s.running = { s.thread s.running with status := .dying } := by
  simp [exiting]

theorem exiting_thread_of_ne (hu : u ≠ s.running) : s.exiting.thread u = s.thread u := by
  simp [exiting, hu]

theorem Inv.threadExit_exits (h : s.Inv) (hs : s.threadExit = .ok s') : Exits s s' := by
  obtain ⟨-, -, next, rest, hnext, -, rfl⟩ := threadExit_eq_ok.mp hs
  have hthread : ∀ u, u ≠ s.running → (s.exiting.switchTo next rest).thread u =
      if u = next then { s.thread u with status := .running } else s.thread u := by
    intro u hu
    have hu' : u ≠ s.exiting.running := hu
    rw [switchTo_thread_of_ne hu', exiting_thread_of_ne hu]
  have hnext_ready : ∀ u, some u ≠ s.idleThread → u = next → (s.thread u).status = .ready := by
    rintro u hidle rfl
    exact h.status u (hnext.mem hidle)
  refine ⟨?_, ?_, ?_, ?_, ?_, ?_, ?_, rfl, rfl, rfl, rfl, rfl⟩
  · intro u hu
    rw [hthread u hu]
    split_ifs <;> rfl
  · intro u hu
    rw [hthread u hu]
    split_ifs <;> rfl
  · intro u hu
    rw [hthread u hu]
    split_ifs <;> rfl
  · intro u hu
    rw [hthread u hu]
    split_ifs <;> rfl
  · intro u hu hidle
    rw [hthread u hu]
    split_ifs with hun
    · simp [hnext_ready u hidle hun]
    · rfl
  · intro u hu hidle hdying
    have hun : u ≠ next := by
      intro hun
      rw [hnext_ready u hidle hun] at hdying
      cases hdying
    rw [hthread u hu, if_neg hun]
    exact hdying
  · by_cases hnr : s.running = next
    · refine Or.inr ⟨?_, ?_, Or.inr ?_⟩
      · rw [hnr, switchTo_thread_next, ← hnr, exiting_thread_running]
        exact h.runningOk.1
      · rw [hnr, switchTo_thread_next, ← hnr, exiting_thread_running]
      · rcases hnext with hready | ⟨-, -, hidle⟩
        · refine absurd ?_ h.running_notMem
          rw [show s.readyList = next :: rest from hready, hnr]
          simp
        · rw [hnr]
          exact hidle.symm
    · by_cases hinitial : s.running = s.initialThread
      · refine Or.inr ?_
        have hkeep : (s.exiting.switchTo next rest).thread s.running =
            { s.thread s.running with status := .dying } := by
          rw [← exiting_thread_running]
          have hni : s.initialThread ≠ next := hinitial ▸ hnr
          simp [Sched.switchTo, exiting, hinitial, hni]
        rw [hkeep]
        exact ⟨h.runningOk.1, rfl, Or.inl ⟨rfl, hinitial⟩⟩
      · refine Or.inl ?_
        have hdying := congrArg Thread.status (@exiting_thread_running s)
        simp only [Sched.switchTo, hnr, if_false]
        rw [if_pos ⟨rfl, hdying, hinitial⟩]

/-- The state after `thread_create` has called `init_thread`, with the rest of the call. -/
def creating (t : Tid) (priority : Int) (function : ThreadFunction) (pushed : List Action)
    (s : Sched) : Sched :=
  { s.modify t fun _ => { priority := priority, magic := true, stack := startStack function } with
    allList := s.allList ++ [t] }.push pushed

variable {priority : Int} {function : ThreadFunction} {pushed : List Action}

theorem creating_thread_self (h : s.running ≠ t) :
    (s.creating t priority function pushed).thread t =
      { priority := priority, magic := true, stack := startStack function } := by
  simp [creating, h.symm]

theorem creating_thread_of_ne (hu : u ≠ t) :
    (s.creating t priority function pushed).thread u = (s.push pushed).thread u := by
  by_cases hur : u = s.running
  · subst hur
    simp [creating, hu]
  · simp [creating, hur, hu]

/-- A new thread is on a page that was not in use. -/
theorem Inv.creating (h : s.Inv) (hfree : (s.thread t).magic = false) :
    (s.creating t priority function pushed).Inv := by
  have hpush := h.push pushed
  have hne : ∀ u, (s.thread u).magic = true → u ≠ t := by
    rintro u hu rfl
    rw [hu] at hfree
    cases hfree
  have hthread : ∀ u, (s.thread u).magic = true →
      (s.creating t priority function pushed).thread u = (s.push pushed).thread u :=
    fun u hu => creating_thread_of_ne (hne u hu)
  refine ⟨⟨?_, ?_, h.nodup⟩, ?_, ?_⟩
  · intro u hu
    rw [hthread u (h.magic u hu)]
    exact hpush.magic u hu
  · intro u hu
    rw [hthread u (h.magic u hu)]
    exact hpush.status u hu
  · exact (congrArg Thread.magic (hthread _ h.runningOk.1)).trans hpush.runningOk.1
  · exact (congrArg Thread.status (hthread _ h.runningOk.1)).trans hpush.runningOk.2

end Sched

end CSE130.Pintos
