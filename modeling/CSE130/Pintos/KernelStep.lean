import CSE130.Pintos.KernelInvariant

/-!
# The invariant of blocked threads is kept

One lemma for each part of the invariant under an action, and the step lemma.
-/

namespace CSE130.Pintos

open CSE130.Library

/-- The actions of `timer_sleep`. -/
def Action.sleeps : Action → Bool
  | .sleepStart _ | .sleepStore _ | .sleepScan _ | .sleepOuter _ _ | .sleepOuterNext _ _
  | .sleepInner _ | .sleepInnerNext _ | .sleepLink _ | .sleepDisable | .sleepBlock
  | .sleepReturn => true
  | _ => false

/-- A call of `timer_sleep`. -/
def Event.sleeps : Event → Bool
  | .call (.timerSleep _) => true
  | _ => false

/-- The return from `thread_block`. -/
def Action.returnsFromBlock : Action → Bool
  | .threadBlockReturn _ => true
  | _ => false

namespace Kernel

variable {k k' : Kernel} {lab : Lab} {a : Action} {rest : List Action} {t u : Tid} {s : SemaId}

theorem step_stackOk {e : Event} (h : k.sched.Inv) (he : k.Enabled e)
    (hk : k.step lab e = .ok k') (hP : ∀ t, StackOk t (k.stack t)) : ∀ t, StackOk t (k'.stack t) := by
  have hempty : ∀ t, StackOk t [] := fun t => ⟨by simp, by simp, by simp, by simp⟩
  exact step_stack_rule hempty (fun t _ function _ => stackOk_startStack t function)
    (fun _ _ _ ha hst => hst.level ha) (fun _ _ _ _ hst hconts => hst.act hconts)
    (fun t op _ => stackOk_body lab t op) h he hk hP

/-! ## Actions -/

/-- An action on a semaphore whose loop goes on in `semaphoreRetest`. -/
theorem exec_semaphoreDown_moves (h : k.sched.Inv)
    (ha : a = .semaphoreDown s ∨ ∃ old, a = .semaphoreRetest s old)
    (hk : k.exec lab a = .ok k') : ∃ old, Sched.Moves [] ((k.sema s).value = 0)
      (if (k.sema s).value = 0 then [.semaphoreRetest s old] else []) k.sched k'.sched := by
  rcases ha with rfl | ⟨old, rfl⟩
  · obtain ⟨-, hk⟩ := semaphoreDown_eq_ok.mp hk
    exact ⟨_, (semaphoreTest_moves (h.setLevel .off) hk).2.of_setLevel⟩
  · exact ⟨old, (semaphoreTest_moves h hk).2⟩

/-- The running thread after an action: it has blocked in `semaphore_down`, or it has no loop of
`semaphore_down` to go on with. -/
theorem act_retest (h : k.BlockInv) (hstack : k.stack k.running = a :: rest)
    (hk : k.step lab .act = .ok k') :
    (∃ s old, k'.stack k.running = .semaphoreRetest s old :: rest ∧ (k.sema s).value = 0 ∧
      (a = .semaphoreDown s ∨ ∃ old, a = .semaphoreRetest s old) ∧ k'.sched.level = .off ∧
      (k'.thread k.running).status = .blocked) ∨
    (∀ s old, .semaphoreRetest s old ∉ k'.stack k.running) ∧
      ∀ s, (a = .semaphoreDown s ∨ ∃ old, a = .semaphoreRetest s old) → (k.sema s).value ≠ 0 := by
  have hrest : ∀ s old, .semaphoreRetest s old ∉ rest := by
    intro s old hmem
    have htop := h.retestTop k.running s old
    rw [hstack] at htop
    exact htop hmem
  have hnoise : ∀ {ns}, LevelOnly ns → ∀ s old, Action.semaphoreRetest s old ∉ ns := by
    intro ns hns s old hmem
    cases hns _ hmem
  by_cases ha : ∃ s, a = .semaphoreDown s ∨ ∃ old, a = .semaphoreRetest s old
  · obtain ⟨s, ha⟩ := ha
    have hk' := hk
    rw [step_act hstack] at hk'
    obtain ⟨old, hmoves⟩ := exec_semaphoreDown_moves h.sched.pop ha hk'
    have hpopped : (k.popped.sched.thread k.popped.sched.running).stack = rest :=
      popped_stack_running hstack
    by_cases hvalue : (k.sema s).value = 0
    · simp only [hvalue, if_true] at hmoves
      refine Or.inl ⟨s, old, ?_, hvalue, ha, hmoves.level (Or.inr trivial), ?_⟩
      · refine (hmoves.stackBlocked trivial).trans ?_
        rw [hpopped]
        rfl
      · refine (hmoves.blocked _ ?_).mpr (by simp)
        intro hidle
        have hmem : a ∈ k.stack k.running := by simp [hstack]
        rcases ha with rfl | ⟨old, rfl⟩ <;>
          rcases h.idle_mem hidle hmem with hno | hno | hno <;> cases hno
    · simp only [hvalue, if_false] at hmoves
      obtain ⟨ns, hns, heq⟩ := hmoves.stackRunning
      rw [hpopped, List.append_nil] at heq
      refine Or.inr ⟨?_, ?_⟩
      · intro s' old' hmem
        rw [show k'.stack k.running = _ from heq] at hmem
        rcases List.mem_append.mp hmem with hmem | hmem
        · exact hnoise hns _ _ hmem
        · exact hrest _ _ hmem
      · intro s' ha'
        have hs : s' = s := by
          rcases ha with rfl | ⟨old, rfl⟩ <;> rcases ha' with ha' | ⟨old', ha'⟩ <;> cases ha' <;> rfl
        rw [hs]
        exact hvalue
  · refine Or.inr ⟨?_, fun s hs => absurd ⟨s, hs⟩ ha⟩
    intro s old hmem
    rcases (act_stack h.sched hstack hk).2 with ⟨ns, pushed, hns, hconts, heq⟩ | ⟨-, heq⟩
    · rw [heq] at hmem
      rcases List.mem_append.mp hmem with hmem | hmem
      · rcases List.mem_append.mp hmem with hmem | hmem
        · exact hnoise hns _ _ hmem
        · cases hconts <;>
            simp [lockAcquire, lockRelease, condvarSignal] at hmem ha
      · exact hrest _ _ hmem
    · rw [heq] at hmem
      cases hmem

/-- A thread that an action wakes is not blocked after it. -/
theorem act_woken (h : k.sched.Inv) (hstack : k.stack k.running = a :: rest)
    (hk : k.step lab .act = .ok k') (ht : t ≠ k.running) (hidle : some t ≠ k.sched.idleThread)
    (hwoken : t ∈ k.wokenBy a) : (k'.thread t).status ≠ .blocked := by
  have hplain : a.plain = true := by
    cases a <;> first | rfl | cases hwoken
  rw [step_act hstack] at hk
  obtain ⟨pushed, -, -, hmoves⟩ := exec_moves h.pop hplain hk
  intro hblocked
  exact ((hmoves.blocked_of_ne ht hidle).mp hblocked).2 hwoken

/-- The head of the stack of a thread that waits on a semaphore. -/
theorem BlockInv.head_of_waiter (h : k.BlockInv) (ht : t ∈ (k.sema s).waiters) :
    ∃ old, (k.stack t).head? = some (.semaphoreRetest s old) := ((h.waits s t).mp ht).2

theorem BlockInv.newborn_not_woken (h : k.BlockInv) (hun : k.UnblockOk a) (ht : k.Newborn t)
    (hne : a ≠ .createUnblock t) : t ∉ k.wokenBy a := by
  intro hmem
  have hhead := ht.head
  cases a <;> simp only [wokenBy, List.mem_singleton, List.not_mem_nil] at hmem
  case threadUnblock v =>
    subst hmem
    obtain ⟨old, hold⟩ := hun t rfl
    rw [hhead] at hold
    cases hold
  case createUnblock v => exact hne (by rw [hmem])
  case semaphoreUp s =>
    obtain ⟨old, hold⟩ := h.head_of_waiter (List.mem_of_mem_take hmem)
    rw [hhead] at hold
    cases hold

theorem BlockInv.waiter_not_woken (h : k.BlockInv) (hun : k.UnblockOk a)
    (ha : a ∈ k.stack k.running) (ht : t ∈ (k.sema s).waiters)
    (htail : a = .semaphoreUp s → t ∈ (k.sema s).waiters.tail) : t ∉ k.wokenBy a := by
  intro hmem
  obtain ⟨old, hhead⟩ := h.head_of_waiter ht
  cases a <;> simp only [wokenBy, List.mem_singleton, List.not_mem_nil] at hmem
  case threadUnblock v =>
    subst hmem
    obtain ⟨old', hold⟩ := hun t rfl
    rw [hhead] at hold
    cases hold
  case createUnblock v =>
    subst hmem
    have hborn := (h.newborn _ _ ha).head
    rw [hhead] at hborn
    cases hborn
  case semaphoreUp s' =>
    obtain ⟨old', hold⟩ := h.head_of_waiter (List.mem_of_mem_take hmem)
    rw [hhead] at hold
    cases hold
    have hnodup := h.nodup s
    cases hw : (k.sema s).waiters with
    | nil =>
      rw [hw] at ht
      cases ht
    | cons w ws =>
      have htail' := htail rfl
      rw [hw] at hmem htail' hnodup
      rw [List.mem_singleton.mp hmem] at htail'
      exact (List.nodup_cons.mp hnodup).1 htail'

/-- A thread that stays on the list of a semaphore is left alone. -/
theorem BlockInv.waiter_undisturbed (h : k.BlockInv) (hstack : k.stack k.running = a :: rest)
    (hk : k.step lab .act = .ok k') (hun : k.UnblockOk a) (ht : t ∈ (k.sema s).waiters)
    (htail : a = .semaphoreUp s → t ∈ (k.sema s).waiters.tail) : Undisturbed k k' t := by
  obtain ⟨hne, hidle, hmagic, -⟩ := h.waiter ((h.waits s t).mp ht)
  have ha : a ∈ k.stack k.running := by simp [hstack]
  exact act_undisturbed h.sched hstack hk hne hidle hmagic (h.waiter_not_woken hun ha ht htail)

theorem AtRetest.of_undisturbed (h : k.AtRetest s t) (hund : Undisturbed k k' t) :
    k'.AtRetest s t := by
  refine ⟨hund.blocked.mpr h.1, ?_⟩
  rw [hund.stack]
  exact h.2

theorem Newborn.of_undisturbed (h : k.Newborn t) (hund : Undisturbed k k' t) : k'.Newborn t := by
  refine ⟨hund.magic.trans h.1, hund.blocked.mpr h.2.1, ?_⟩
  rw [hund.stack]
  exact h.2.2

/-- The semaphore that `condvar_wait` initialises has no waiters. -/
theorem BlockInv.init_waiters (h : k.BlockInv) {value : Nat}
    (hstack : k.stack k.running = .semaphoreInit s value :: rest) : (k.sema s).waiters = [] := by
  obtain ⟨c, rfl, -⟩ := (h.stackOk k.running).ok (.semaphoreInit s value) (by simp [hstack])
  rw [List.eq_nil_iff_forall_not_mem]
  intro t ht
  have hretest := (h.waits _ t).mp ht
  obtain ⟨old, hmem⟩ := hretest.mem
  have hown : k.running = t := (h.stackOk t).ok _ hmem _ _ rfl
  exact (h.waiter hretest).1 hown.symm

/-- The waiters of a semaphore after an action. -/
theorem act_mem_waiters (h : k.BlockInv) (hstack : k.stack k.running = a :: rest)
    (hk : k.step lab .act = .ok k') :
    t ∈ (k'.sema s).waiters ↔
      t ∈ (k.sema s).waiters ∧ (a = .semaphoreUp s → t ∈ (k.sema s).waiters.tail) ∨
      t = k.running ∧ (k.sema s).value = 0 ∧
        (a = .semaphoreDown s ∨ ∃ old, a = .semaphoreRetest s old) := by
  have hk' := hk
  rw [step_act hstack] at hk'
  rw [(exec_framed hk').sema]
  by_cases hinit : ∃ value, a = .semaphoreInit s value
  · obtain ⟨value, rfl⟩ := hinit
    simp [semaAfter, h.init_waiters hstack]
  · exact mem_semaAfter fun value heq => hinit ⟨value, heq⟩

theorem act_waits (h : k.BlockInv) (hstack : k.stack k.running = a :: rest)
    (hk : k.step lab .act = .ok k') (hun : k.UnblockOk a) (s : SemaId) (t : Tid) :
    t ∈ (k'.sema s).waiters ↔ k'.AtRetest s t := by
  rw [act_mem_waiters h hstack hk]
  constructor
  · rintro (⟨ht, htail⟩ | ⟨rfl, hvalue, ha⟩)
    · exact ((h.waits s t).mp ht).of_undisturbed (h.waiter_undisturbed hstack hk hun ht htail)
    · rcases act_retest h hstack hk with ⟨s', old, heq, -, ha', -, hblocked⟩ | ⟨-, hno⟩
      · have hs : s' = s := by
          rcases ha with rfl | ⟨old, rfl⟩ <;> rcases ha' with ha' | ⟨old', ha'⟩ <;> cases ha' <;> rfl
        subst hs
        exact ⟨hblocked, old, by rw [heq, List.head?_cons]⟩
      · exact absurd hvalue (hno s ha)
  · rintro ⟨hblocked, old, hhead⟩
    by_cases htr : t = k.running
    · subst htr
      rcases act_retest h hstack hk with ⟨s', old', heq, hvalue, ha, -, -⟩ | ⟨hno, -⟩
      · rw [heq, List.head?_cons] at hhead
        cases hhead
        exact Or.inr ⟨rfl, hvalue, ha⟩
      · exact absurd (List.mem_of_mem_head? hhead) (hno s old)
    · left
      have hsame : k'.stack t = k.stack t := by
        rcases (act_stack h.sched hstack hk).1 t htr with heq | ⟨_, function, -, -, heq, -⟩
        · exact heq
        · rw [heq] at hhead
          cases function <;> cases hhead
      rw [hsame] at hhead
      have hmem := List.mem_of_mem_head? hhead
      have hidle : some t ≠ k.sched.idleThread := by
        intro hidle
        rcases h.idle_mem hidle hmem with hno | hno | hno <;> cases hno
      have hwoken : t ∉ k.wokenBy a :=
        fun hwoken => act_woken h.sched hstack hk htr hidle hwoken hblocked
      have hund := act_undisturbed h.sched hstack hk htr hidle (h.magic_of_mem hmem) hwoken
      have ht := (h.waits s t).mpr ⟨hund.blocked.mp hblocked, old, hhead⟩
      refine ⟨ht, ?_⟩
      rintro rfl
      cases hw : (k.sema s).waiters with
      | nil =>
        rw [hw] at ht
        cases ht
      | cons w ws =>
        simp only [wokenBy, hw, List.take_succ_cons, List.take_zero, List.mem_singleton] at hwoken
        rw [hw] at ht
        exact (List.mem_cons.mp ht).resolve_left hwoken

theorem exec_inExternalIntr (h : k.sched.Inv) (hk : k.exec lab a = .ok k') :
    k'.sched.inExternalIntr = k.sched.inExternalIntr := by
  cases ha : a.plain with
  | true =>
    obtain ⟨pushed, -, -, hmoves⟩ := exec_moves h ha hk
    exact hmoves.inExternalIntr
  | false =>
    cases a
    case threadCreate t priority function =>
      rcases threadCreate_eq_ok.mp hk with ⟨-, rfl⟩ | ⟨-, -, rfl⟩ <;> rfl
    case threadExit =>
      obtain ⟨s, hs, rfl⟩ := onSched_eq_ok.mp hk
      exact (h.threadExit_exits hs).inExternalIntr
    case idleStart =>
      obtain ⟨-, rfl⟩ := idleStart_eq_ok.mp hk
      rfl
    all_goals cases ha

/-- The page of a thread is in use after an action if it was before, unless the running thread has
ended, or if the action has created the thread. -/
theorem exec_magic (h : k.sched.Inv) (hk : k.exec lab a = .ok k') (t : Tid) :
    (k'.thread t).magic = (k.thread t).magic ∨
      (a = .threadExit ∧ t = k.running ∧ k'.sched.thread t = {}) ∨
      ∃ priority function, a = .threadCreate t priority function ∧ (k.thread t).magic = false ∧
        (k'.thread t).magic = true ∧ t ≠ k.running := by
  cases ha : a.plain with
  | true =>
    obtain ⟨pushed, -, -, hmoves⟩ := exec_moves h ha hk
    exact Or.inl (hmoves.magic t)
  | false =>
    cases a
    case threadCreate v priority function =>
      rcases threadCreate_eq_ok.mp hk with ⟨-, rfl⟩ | ⟨hfree, -, rfl⟩
      · exact Or.inl rfl
      · have hrunning : k.running ≠ v := by
          intro heq
          rw [← heq, h.runningOk.1] at hfree
          cases hfree
        by_cases htv : t = v
        · subst htv
          exact Or.inr (Or.inr ⟨priority, function, rfl, hfree,
            congrArg Thread.magic (Sched.creating_thread_self hrunning), hrunning.symm⟩)
        · refine Or.inl ((congrArg Thread.magic (Sched.creating_thread_of_ne htv)).trans ?_)
          by_cases htr : t = k.sched.running <;> simp [htr]
    case threadExit =>
      obtain ⟨s, hs, rfl⟩ := onSched_eq_ok.mp hk
      have hexits := h.threadExit_exits hs
      by_cases htr : t = k.running
      · subst htr
        rcases hexits.page with hpage | ⟨hmagic, -, -⟩
        · exact Or.inr (Or.inl ⟨rfl, rfl, hpage⟩)
        · exact Or.inl (hmagic.trans h.runningOk.1.symm)
      · exact Or.inl (hexits.magic t htr)
    case idleStart =>
      obtain ⟨-, rfl⟩ := idleStart_eq_ok.mp hk
      exact Or.inl rfl
    all_goals cases ha

theorem popped_magic (t : Tid) : (k.popped.thread t).magic = (k.thread t).magic := by
  by_cases ht : t = k.sched.running <;> simp [thread, ht]

theorem popped_status (t : Tid) : (k.popped.thread t).status = (k.thread t).status := by
  by_cases ht : t = k.sched.running <;> simp [thread, ht]

theorem act_page (h : k.BlockInv) (hstack : k.stack k.running = a :: rest)
    (hk : k.step lab .act = .ok k') (hfree : (k'.thread t).magic = false) : k'.stack t = [] := by
  have hk' := hk
  rw [step_act hstack] at hk'
  rcases exec_magic h.sched.pop hk' t with hmagic | ⟨-, -, hpage⟩ | ⟨_, _, -, -, hmagic, -⟩
  · rw [hmagic, popped_magic] at hfree
    have hne : t ≠ k.running := by
      rintro rfl
      rw [show (k.thread k.running).magic = _ from h.sched.runningOk.1] at hfree
      cases hfree
    rcases (act_stack h.sched hstack hk).1 t hne with heq | ⟨_, _, -, -, -, hnew⟩
    · rw [heq]
      exact h.page t hfree
    · rw [hmagic, popped_magic, hfree] at hnew
      cases hnew
  · exact congrArg Thread.stack hpage
  · rw [hmagic] at hfree
    cases hfree

theorem creating_of_ne {s : Sched} {priority : Int} {function : ThreadFunction}
    {pushed : List Action} (htu : t ≠ u) :
    ((s.creating u priority function pushed).thread t).magic = (s.thread t).magic ∧
      ((s.creating u priority function pushed).thread t).status = (s.thread t).status := by
  rw [Sched.creating_thread_of_ne htu]
  by_cases htr : t = s.running <;> simp [htr]

/-- `all_list` has every thread that has not ended. -/
theorem exec_listed (h : k.sched.Inv)
    (hlisted : ∀ t, (k.thread t).magic = true → (k.thread t).status ≠ .dying →
      t ∈ k.sched.allList)
    (hidle : ∀ i, k.sched.idleThread = some i → i ∈ k.sched.allList)
    (hexit : a = .threadExit → some k.running ≠ k.sched.idleThread)
    (hk : k.exec lab a = .ok k') (hmagic : (k'.thread t).magic = true)
    (hstatus : (k'.thread t).status ≠ .dying) : t ∈ k'.sched.allList := by
  have hmem : (k.thread t).magic = true → (some t ≠ k.sched.idleThread →
      (k.thread t).status ≠ .dying) → t ∈ k.sched.allList := by
    intro hm hs
    by_cases hti : some t = k.sched.idleThread
    · exact hidle t hti.symm
    · exact hlisted t hm (hs hti)
  cases ha : a.plain with
  | true =>
    obtain ⟨pushed, -, -, hmoves⟩ := exec_moves h ha hk
    rw [hmoves.allList]
    refine hmem ((hmoves.magic t).symm.trans hmagic) ?_
    intro hti hdying
    exact hstatus ((hmoves.dying t hti).mpr hdying)
  | false =>
    cases a
    case threadCreate v priority function =>
      rcases threadCreate_eq_ok.mp hk with ⟨-, rfl⟩ | ⟨-, -, rfl⟩
      · exact hlisted t hmagic hstatus
      · refine List.mem_append.mpr ?_
        by_cases htv : t = v
        · exact Or.inr (by simp [htv])
        · obtain ⟨hm, hs⟩ := creating_of_ne htv
          exact Or.inl (hlisted t (hm.symm.trans hmagic) (fun hd => hstatus (hs.trans hd)))
    case threadExit =>
      obtain ⟨s, hs, rfl⟩ := onSched_eq_ok.mp hk
      have hexits := h.threadExit_exits hs
      by_cases htr : t = k.running
      · subst htr
        rcases hexits.page with hpage | ⟨-, -, ⟨hdying, -⟩ | hno⟩
        · rw [show (thread _ k.running) = _ from hpage] at hmagic
          cases hmagic
        · exact absurd hdying hstatus
        · exact absurd hno (hexit rfl)
      · rw [show _ = _ from hexits.allList]
        refine (List.mem_erase_of_ne htr).mpr (hmem ?_ ?_)
        · exact (hexits.magic t htr).symm.trans hmagic
        · intro hti hdying
          exact hstatus (hexits.dying t htr hti hdying)
    case idleStart =>
      obtain ⟨-, rfl⟩ := idleStart_eq_ok.mp hk
      exact hlisted t hmagic hstatus
    all_goals cases ha

theorem BlockInv.exit_ne_idle (h : k.BlockInv) (hstack : k.stack k.running = .threadExit :: rest) :
    some k.running ≠ k.sched.idleThread := by
  intro hidle
  rcases @BlockInv.idle_mem k .threadExit _ h hidle (by simp [hstack]) with hno | hno | hno <;>
    cases hno

theorem act_listed (h : k.BlockInv) (hstack : k.stack k.running = a :: rest)
    (hk : k.step lab .act = .ok k') (hmagic : (k'.thread t).magic = true)
    (hstatus : (k'.thread t).status ≠ .dying) : t ∈ k'.sched.allList := by
  rw [step_act hstack] at hk
  refine @exec_listed k.popped k' lab a t h.sched.pop ?_ (fun i hi => (h.idle i hi).2.1) ?_ hk hmagic
    hstatus
  · intro t hm hs
    exact h.listed t (popped_magic t ▸ hm) (popped_status t ▸ hs)
  · rintro rfl
    exact h.exit_ne_idle hstack

/-- The idle thread after an action. -/
theorem exec_idleThread (h : k.sched.Inv) (hk : k.exec lab a = .ok k') :
    k'.sched.idleThread = k.sched.idleThread ∧ a ≠ .idleStart ∨
      k'.sched.idleThread = some k.running ∧ a = .idleStart := by
  cases ha : a.plain with
  | true =>
    obtain ⟨pushed, -, -, hmoves⟩ := exec_moves h ha hk
    refine Or.inl ⟨hmoves.idleThread, ?_⟩
    rintro rfl
    cases ha
  | false =>
    cases a
    case threadCreate v priority function =>
      rcases threadCreate_eq_ok.mp hk with ⟨-, rfl⟩ | ⟨-, -, rfl⟩ <;> exact Or.inl ⟨rfl, by simp⟩
    case threadExit =>
      obtain ⟨s, hs, rfl⟩ := onSched_eq_ok.mp hk
      exact Or.inl ⟨(h.threadExit_exits hs).idleThread, by simp⟩
    case idleStart =>
      obtain ⟨-, rfl⟩ := idleStart_eq_ok.mp hk
      exact Or.inr ⟨rfl, rfl⟩
    all_goals cases ha

theorem exec_allList_mono (h : k.sched.Inv) (hk : k.exec lab a = .ok k')
    (ht : t ∈ k.sched.allList) (hexit : a = .threadExit → t ≠ k.running) :
    t ∈ k'.sched.allList := by
  cases ha : a.plain with
  | true =>
    obtain ⟨pushed, -, -, hmoves⟩ := exec_moves h ha hk
    rwa [hmoves.allList]
  | false =>
    cases a
    case threadCreate v priority function =>
      rcases threadCreate_eq_ok.mp hk with ⟨-, rfl⟩ | ⟨-, -, rfl⟩
      · exact ht
      · exact List.mem_append_left _ ht
    case threadExit =>
      obtain ⟨s, hs, rfl⟩ := onSched_eq_ok.mp hk
      rw [show _ = _ from (h.threadExit_exits hs).allList]
      exact (List.mem_erase_of_ne (hexit rfl)).mpr ht
    case idleStart =>
      obtain ⟨-, rfl⟩ := idleStart_eq_ok.mp hk
      exact ht
    all_goals cases ha

theorem act_idle (h : k.BlockInv) (hstack : k.stack k.running = a :: rest)
    (hk : k.step lab .act = .ok k') (i : Tid) (hi : k'.sched.idleThread = some i) :
    (k'.thread i).magic = true ∧ i ∈ k'.sched.allList ∧ Idling (k'.stack i) := by
  have hk' := hk
  rw [step_act hstack] at hk'
  obtain ⟨hother, hrunning⟩ := act_stack h.sched hstack hk
  rcases exec_idleThread h.sched.pop hk' with ⟨heq, -⟩ | ⟨heq, rfl⟩
  · obtain ⟨hmagic, hmem, hidling⟩ := h.idle i (heq.symm.trans hi)
    have hexit : a = .threadExit → i ≠ k.running := by
      rintro rfl rfl
      exact h.exit_ne_idle hstack (heq.symm.trans hi).symm
    refine ⟨?_, exec_allList_mono h.sched.pop hk' hmem hexit, ?_⟩
    · rcases exec_magic h.sched.pop hk' i with hsame | ⟨ha, hir, -⟩ | ⟨_, _, -, -, hnew, -⟩
      · rw [hsame, popped_magic]
        exact hmagic
      · exact absurd hir (hexit ha)
      · exact hnew
    · by_cases hir : i = k.running
      · subst hir
        rw [hstack] at hidling
        rcases hrunning with ⟨ns, pushed, hns, hconts, hst⟩ | ⟨ha, -⟩
        · rw [hst]
          exact hidling.act hns hconts
        · exact absurd rfl (hexit ha)
      · rcases hother i hir with hst | ⟨_, _, -, hfree, -⟩
        · rw [hst]
          exact hidling
        · rw [hmagic] at hfree
          cases hfree
  · obtain rfl : k.running = i := Option.some.inj (heq.symm.trans hi)
    have hstarting := (h.stackOk k.running).idleStart (by simp [hstack])
    rw [hstack, IdleStarting, pending_cons_of_not_setsLevel rfl] at hstarting
    obtain ⟨-, rfl⟩ := idleStart_eq_ok.mp hk'
    refine ⟨?_, ?_, Or.inl ?_⟩
    · exact (popped_magic k.running).trans h.sched.runningOk.1
    · exact h.listed k.running h.sched.runningOk.1 (by simp [h.sched.runningOk.2])
    · rw [show stack _ k.running = rest from popped_stack_running hstack]
      cases hstarting
      rfl

theorem act_retestTop (h : k.BlockInv) (hstack : k.stack k.running = a :: rest)
    (hk : k.step lab .act = .ok k') (t : Tid) (s : SemaId) (old : IntrLevel) :
    .semaphoreRetest s old ∉ (k'.stack t).tail := by
  by_cases htr : t = k.running
  · subst htr
    rcases act_retest h hstack hk with ⟨s', old', heq, -⟩ | ⟨hno, -⟩
    · have htop := h.retestTop k.running s old
      rw [hstack] at htop
      rw [heq]
      exact htop
    · exact fun hmem => hno s old (List.mem_of_mem_tail hmem)
  · rcases (act_stack h.sched hstack hk).1 t htr with heq | ⟨_, function, -, -, heq, -⟩
    · rw [heq]
      exact h.retestTop t s old
    · rw [heq]
      cases function <;> simp [Sched.startStack]

/-- A switch of threads leaves interrupts off. -/
theorem exec_level (h : k.sched.Inv) (hk : k.exec lab a = .ok k')
    (hswitch : k'.running ≠ k.running) : k'.sched.level = .off := by
  cases ha : a.plain with
  | true =>
    obtain ⟨pushed, -, -, hmoves⟩ := exec_moves h ha hk
    exact hmoves.level (Or.inl hswitch)
  | false =>
    cases a
    case threadCreate v priority function =>
      rcases threadCreate_eq_ok.mp hk with ⟨-, rfl⟩ | ⟨-, -, rfl⟩ <;> exact absurd rfl hswitch
    case threadExit =>
      obtain ⟨s, hs, rfl⟩ := onSched_eq_ok.mp hk
      exact (h.threadExit_exits hs).level
    case idleStart =>
      obtain ⟨-, rfl⟩ := idleStart_eq_ok.mp hk
      exact absurd rfl hswitch
    all_goals cases ha

theorem act_retestLevel (h : k.BlockInv) (hstack : k.stack k.running = a :: rest)
    (hk : k.step lab .act = .ok k') (s : SemaId) (old : IntrLevel)
    (hhead : (k'.stack k'.running).head? = some (.semaphoreRetest s old)) :
    k'.sched.level = .off := by
  by_cases hswitch : k'.running = k.running
  · rw [hswitch] at hhead
    rcases act_retest h hstack hk with ⟨s', old', -, -, -, hlevel, -⟩ | ⟨hno, -⟩
    · exact hlevel
    · exact absurd (List.mem_of_mem_head? hhead) (hno s old)
  · rw [step_act hstack] at hk
    exact exec_level h.sched.pop hk hswitch

theorem act_nodup (h : k.BlockInv) (hstack : k.stack k.running = a :: rest)
    (hk : k.step lab .act = .ok k') (s : SemaId) : (k'.sema s).waiters.Nodup := by
  have hk' := hk
  rw [step_act hstack] at hk'
  rw [(exec_framed hk').sema]
  have hnotin : k.running ∉ (k.sema s).waiters :=
    fun hmem => (h.waiter ((h.waits s _).mp hmem)).1 rfl
  have hdown : (Function.update k.sema s (if (k.sema s).value = 0 then
      { (k.sema s) with waiters := k.popped.sched.enqueue lab (k.sema s).waiters k.running }
      else { (k.sema s) with value := (k.sema s).value - 1 }) s).waiters.Nodup := by
    rw [Function.update_self]
    split_ifs
    · exact Sched.nodup_enqueue.mpr ⟨hnotin, h.nodup s⟩
    · exact h.nodup s
  cases a
  case semaphoreDown s' =>
    by_cases hs : s = s'
    · subst hs
      exact hdown
    · simpa [semaAfter, hs] using h.nodup s
  case semaphoreRetest s' old =>
    by_cases hs : s = s'
    · subst hs
      exact hdown
    · simpa [semaAfter, hs] using h.nodup s
  case semaphoreUp s' =>
    by_cases hs : s = s'
    · subst hs
      simp only [semaAfter, Function.update_self]
      exact (h.nodup s).tail
    · simpa [semaAfter, hs] using h.nodup s
  case semaphoreInit s' value =>
    by_cases hs : s = s'
    · subst hs
      simp [semaAfter]
    · simpa [semaAfter, hs] using h.nodup s
  all_goals exact h.nodup s

/-- The stack of the running thread and the new thread after `thread_create` has found a page. -/
theorem act_threadCreate (h : k.BlockInv) {v : Tid} {priority : Int} {function : ThreadFunction}
    (hstack : k.stack k.running = .threadCreate v priority function :: rest)
    (hk : k.step lab .act = .ok k') :
    k'.stack k.running = rest ∨ (k.thread v).magic = false ∧ k'.Newborn v ∧
      k'.stack k.running = lockAcquire .tidLock ++ lockRelease .tidLock ++ [.createUnblock v] ++ rest := by
  have hrest : k.popped.stack k.running = rest := popped_stack_running hstack
  rw [step_act hstack] at hk
  rcases threadCreate_eq_ok.mp hk with ⟨-, rfl⟩ | ⟨hfree, -, rfl⟩
  · exact Or.inl hrest
  · have hne : k.running ≠ v := by
      intro heq
      rw [← heq, popped_magic, show (k.thread k.running).magic = _ from h.sched.runningOk.1] at hfree
      cases hfree
    have hnew := @Sched.creating_thread_self k.popped.sched v priority function
      (lockAcquire .tidLock ++ lockRelease .tidLock ++ [.createUnblock v]) hne
    refine Or.inr ⟨popped_magic v ▸ hfree, ⟨?_, ?_, function, ?_⟩, ?_⟩
    · exact congrArg Thread.magic hnew
    · exact congrArg Thread.status hnew
    · exact congrArg Thread.stack hnew
    · refine (congrArg Thread.stack (Sched.creating_thread_of_ne hne)).trans ?_
      rw [← hrest]
      simp [stack]

/-- The calls of `thread_unblock` that `thread_create` still has to make. -/
theorem act_createUnblock (h : k.BlockInv) (hstack : k.stack k.running = a :: rest)
    (hk : k.step lab .act = .ok k') :
    (∀ t, (k'.stack k.running).count (.createUnblock t) ≤ rest.count (.createUnblock t)) ∨
    ∃ v, (k.thread v).magic = false ∧ k'.Newborn v ∧ ∀ t,
      (k'.stack k.running).count (.createUnblock t) =
        (if t = v then 1 else 0) + rest.count (.createUnblock t) := by
  by_cases ha : ∃ v priority function, a = .threadCreate v priority function
  · obtain ⟨v, priority, function, rfl⟩ := ha
    rcases act_threadCreate h hstack hk with heq | ⟨hfree, hnew, heq⟩
    · refine Or.inl fun t => Nat.le_of_eq ?_
      rw [heq]
    · refine Or.inr ⟨v, hfree, hnew, ?_⟩
      intro t
      rw [heq, List.count_append]
      congr 1
      by_cases htv : t = v
      · subst htv
        simp [lockAcquire, lockRelease]
      · simp [lockAcquire, lockRelease, htv, Ne.symm htv]
  · left
    intro t
    rcases (act_stack h.sched hstack hk).2 with ⟨ns, pushed, hns, hconts, heq⟩ | ⟨-, heq⟩
    · have hns0 : ns.count (.createUnblock t) = 0 := by
        refine List.count_eq_zero.mpr fun hmem => ?_
        cases hns _ hmem
      have hpushed0 : pushed.count (.createUnblock t) = 0 := by
        refine List.count_eq_zero.mpr fun hmem => ?_
        cases hconts <;> simp [lockAcquire, lockRelease, condvarSignal] at hmem ha
      rw [heq, List.count_append, List.count_append, hns0, hpushed0]
      omega
    · rw [heq]
      exact Nat.zero_le _

theorem act_createUnblock_mem (h : k.BlockInv) (hstack : k.stack k.running = a :: rest)
    (hk : k.step lab .act = .ok k') (hmem : .createUnblock t ∈ k'.stack u) :
    (.createUnblock t ∈ k.stack u ∧ a ≠ .createUnblock t) ∨
      u = k.running ∧ (k.thread t).magic = false ∧ k'.Newborn t := by
  by_cases hur : u = k.running
  · subst hur
    have hold : .createUnblock t ∈ rest → .createUnblock t ∈ k.stack k.running ∧
        a ≠ .createUnblock t := by
      intro hrest
      refine ⟨by simp [hstack, hrest], ?_⟩
      rintro rfl
      have honce := h.once t k.running
      rw [hstack, List.count_cons_self] at honce
      have := List.count_pos_iff.mpr hrest
      omega
    have hpos := List.count_pos_iff.mpr hmem
    rcases act_createUnblock h hstack hk with hle | ⟨v, hfree, hnew, heq⟩
    · exact Or.inl (hold (List.count_pos_iff.mp (Nat.lt_of_lt_of_le hpos (hle t))))
    · rw [heq] at hpos
      by_cases htv : t = v
      · subst htv
        exact Or.inr ⟨rfl, hfree, hnew⟩
      · rw [if_neg htv, Nat.zero_add] at hpos
        exact Or.inl (hold (List.count_pos_iff.mp hpos))
  · rcases (act_stack h.sched hstack hk).1 u hur with heq | ⟨_, function, -, -, heq, -⟩
    · rw [heq] at hmem
      refine Or.inl ⟨hmem, ?_⟩
      rintro rfl
      exact hur (h.creator t u k.running hmem (by simp [hstack]))
    · rw [heq] at hmem
      cases function <;> simp [Sched.startStack] at hmem

theorem act_newborn (h : k.BlockInv) (hstack : k.stack k.running = a :: rest)
    (hk : k.step lab .act = .ok k') (hun : k.UnblockOk a) (u t : Tid)
    (hmem : .createUnblock t ∈ k'.stack u) : k'.Newborn t := by
  rcases act_createUnblock_mem h hstack hk hmem with ⟨hold, hne⟩ | ⟨-, -, hnew⟩
  · have hborn := h.newborn u t hold
    obtain ⟨htr, hidle⟩ := h.newborn_ne hborn
    exact hborn.of_undisturbed (act_undisturbed h.sched hstack hk htr hidle hborn.1
      (h.newborn_not_woken hun hborn hne))
  · exact hnew

theorem act_creator (h : k.BlockInv) (hstack : k.stack k.running = a :: rest)
    (hk : k.step lab .act = .ok k') (t u v : Tid) (hu : .createUnblock t ∈ k'.stack u)
    (hv : .createUnblock t ∈ k'.stack v) : u = v := by
  have hused : ∀ w, .createUnblock t ∈ k.stack w → (k.thread t).magic ≠ false := by
    intro w hw
    simp [(h.newborn w t hw).1]
  rcases act_createUnblock_mem h hstack hk hu with ⟨hold, -⟩ | ⟨rfl, hfree, -⟩
  · rcases act_createUnblock_mem h hstack hk hv with ⟨hold', -⟩ | ⟨-, hfree, -⟩
    · exact h.creator t u v hold hold'
    · exact absurd hfree (hused u hold)
  · rcases act_createUnblock_mem h hstack hk hv with ⟨hold', -⟩ | ⟨rfl, -, -⟩
    · exact absurd hfree (hused v hold')
    · rfl

theorem act_once (h : k.BlockInv) (hstack : k.stack k.running = a :: rest)
    (hk : k.step lab .act = .ok k') (t u : Tid) : (k'.stack u).count (.createUnblock t) ≤ 1 := by
  by_cases hur : u = k.running
  · subst hur
    have honce := h.once t k.running
    rw [hstack, List.count_cons] at honce
    rcases act_createUnblock h hstack hk with hle | ⟨v, hfree, -, heq⟩
    · have hle := hle t
      omega
    · rw [heq]
      by_cases htv : t = v
      · subst htv
        have hnone : rest.count (.createUnblock t) = 0 := by
          refine List.count_eq_zero.mpr fun hmem => ?_
          have hborn := h.newborn k.running t (by simp [hstack, hmem])
          rw [hborn.1] at hfree
          cases hfree
        simp [hnone]
      · rw [if_neg htv]
        omega
  · rcases (act_stack h.sched hstack hk).1 u hur with heq | ⟨_, function, -, -, heq, -⟩
    · rw [heq]
      exact h.once t u
    · rw [heq]
      cases function <;> simp [Sched.startStack]

/-- An action keeps the invariant. -/
theorem BlockInv.act (h : k.BlockInv) (hstack : k.stack k.running = a :: rest)
    (hk : k.step lab .act = .ok k') (hun : k.UnblockOk a) : k'.BlockInv where
  sched := step_inv h.sched hk
  intr := by
    rw [step_act hstack] at hk
    exact (exec_inExternalIntr h.sched.pop hk).trans h.intr
  stackOk := step_stackOk h.sched (by simp [Enabled, hstack]) hk h.stackOk
  page _ hfree := act_page h hstack hk hfree
  listed _ hmagic hstatus := act_listed h hstack hk hmagic hstatus
  idle := act_idle h hstack hk
  retestTop := act_retestTop h hstack hk
  retestLevel := act_retestLevel h hstack hk
  waits := act_waits h hstack hk hun
  nodup := act_nodup h hstack hk
  newborn := act_newborn h hstack hk hun
  creator := act_creator h hstack hk
  once := act_once h hstack hk

/-! ## Calls and ticks -/

/-- A step other than an action: it leaves the semaphores alone, and wakes only threads that are
asleep. -/
theorem BlockInv.quiet {woken : List Tid} {pushed : List Action} (h : k.BlockInv)
    (hinv : k'.sched.Inv) (hstackOk : ∀ t, StackOk t (k'.stack t)) (hsema : k'.sema = k.sema)
    (hmoves : Sched.Moves woken False pushed k.sched k'.sched)
    (hwoken : ∀ t ∈ woken, (k.stack t).head? = some .sleepReturn)
    (hretest : ∀ s old, .semaphoreRetest s old ∉ pushed ++ k.stack k.running)
    (hcreate : ∀ t, .createUnblock t ∉ pushed)
    (hidle : pushed = [] ∨ k.stack k.running = []) : k'.BlockInv := by
  obtain ⟨ns, hns, hstack⟩ := hmoves.stackRunning
  rw [List.append_assoc] at hstack
  have hrunning : ∀ s old, .semaphoreRetest s old ∉ k'.stack k.running := by
    intro s old hmem
    rw [show k'.stack k.running = _ from hstack] at hmem
    rcases List.mem_append.mp hmem with hmem | hmem
    · cases hns _ hmem
    · exact hretest s old hmem
  have hcount : ∀ u t, (k'.stack u).count (.createUnblock t) = (k.stack u).count (.createUnblock t) := by
    intro u t
    by_cases hur : u = k.running
    · subst hur
      have hns0 : ns.count (.createUnblock t) = 0 := by
        refine List.count_eq_zero.mpr fun hmem => ?_
        cases hns _ hmem
      rw [show k'.stack k.running = _ from hstack, List.count_append, List.count_append, hns0,
        List.count_eq_zero.mpr (hcreate t), Nat.zero_add, Nat.zero_add]
    · rw [show k'.stack u = _ from hmoves.stack u hur]
  have hcreated : ∀ u t, .createUnblock t ∈ k'.stack u ↔ .createUnblock t ∈ k.stack u := by
    intro u t
    rw [← List.count_pos_iff, ← List.count_pos_iff, hcount]
  have hund : ∀ t, t ≠ k.running → some t ≠ k.sched.idleThread →
      (k.stack t).head? ≠ some .sleepReturn → Undisturbed k k' t := by
    intro t htr hti hhead
    exact .of_moves hmoves htr hti fun hmem => hhead (hwoken t hmem)
  refine ⟨hinv, hmoves.inExternalIntr.trans h.intr, hstackOk, ?_, ?_, ?_, ?_, ?_, ?_, ?_, ?_, ?_, ?_⟩
  · intro t hfree
    rw [show (k'.thread t).magic = _ from hmoves.magic t] at hfree
    have htr : t ≠ k.running := by
      rintro rfl
      rw [h.sched.runningOk.1] at hfree
      cases hfree
    rw [show k'.stack t = _ from hmoves.stack t htr]
    exact h.page t hfree
  · intro t hmagic hstatus
    rw [hmoves.allList]
    by_cases hti : some t = k.sched.idleThread
    · exact (h.idle t hti.symm).2.1
    · exact h.listed t ((hmoves.magic t).symm.trans hmagic)
        (fun hdying => hstatus ((hmoves.dying t hti).mpr hdying))
  · intro i hi
    rw [hmoves.idleThread] at hi
    obtain ⟨hmagic, hmem, hidling⟩ := h.idle i hi
    refine ⟨(hmoves.magic i).trans hmagic, by rwa [hmoves.allList], ?_⟩
    by_cases hir : i = k.running
    · subst hir
      unfold Idling at hidling ⊢
      rw [show k'.stack k.running = _ from hstack, pending_append hns]
      rcases hidle with rfl | hempty
      · exact hidling
      · rw [hempty] at hidling
        rcases hidling with hno | hno <;> cases hno
    · rw [show k'.stack i = _ from hmoves.stack i hir]
      exact hidling
  · intro t s old hmem
    by_cases htr : t = k.running
    · subst htr
      exact hrunning s old (List.mem_of_mem_tail hmem)
    · rw [show k'.stack t = _ from hmoves.stack t htr] at hmem
      exact h.retestTop t s old hmem
  · intro s old hhead
    by_cases hswitch : k'.running = k.running
    · rw [hswitch] at hhead
      exact absurd (List.mem_of_mem_head? hhead) (hrunning s old)
    · exact hmoves.level (Or.inl hswitch)
  · intro s t
    rw [hsema, h.waits]
    constructor
    · intro ht
      obtain ⟨htr, hti, -, -⟩ := h.waiter ht
      refine ht.of_undisturbed (hund t htr hti ?_)
      rw [ht.2.choose_spec]
      simp
    · rintro ⟨hblocked, old, hhead⟩
      have htr : t ≠ k.running := by
        rintro rfl
        exact hrunning s old (List.mem_of_mem_head? hhead)
      rw [show k'.stack t = _ from hmoves.stack t htr] at hhead
      have hti : some t ≠ k.sched.idleThread := by
        intro hti
        rcases h.idle_mem hti (List.mem_of_mem_head? hhead) with hno | hno | hno <;> cases hno
      exact ⟨((hmoves.blocked_of_ne htr hti).mp hblocked).1, old, hhead⟩
  · intro s
    rw [hsema]
    exact h.nodup s
  · intro u t hmem
    have hborn := h.newborn u t ((hcreated u t).mp hmem)
    obtain ⟨htr, hti⟩ := h.newborn_ne hborn
    refine hborn.of_undisturbed (hund t htr hti ?_)
    rw [hborn.head]
    simp
  · intro t u v hu hv
    exact h.creator t u v ((hcreated u t).mp hu) ((hcreated v t).mp hv)
  · intro t u
    rw [hcount]
    exact h.once t u

theorem BlockInv.call {op : Op} (h : k.BlockInv) (he : k.stack k.running = [])
    (hk : k.step lab (.call op) = .ok k') : k'.BlockInv := by
  have hstackOk := @step_stackOk k k' lab (.call op) h.sched he hk h.stackOk
  have hinv := step_inv h.sched hk
  cases pure_eq_ok.mp hk
  refine h.quiet hinv hstackOk rfl (Sched.Moves.push h.sched.runningOk _) (by simp) ?_ ?_ (Or.inr he)
  · intro s old hmem
    rw [he, List.append_nil] at hmem
    cases begins_of_mem hmem
  · intro t hmem
    cases begins_of_mem hmem

theorem BlockInv.tick {woken : List Tid} (h : k.BlockInv) (he : k.sched.level = .on)
    (hk : k.step lab .tick = .ok k') (hw : Ticked woken k k')
    (hwoken : ∀ t ∈ woken, (k.stack t).head? = some .sleepReturn) : k'.BlockInv := by
  have hstackOk := @step_stackOk k k' lab .tick h.sched he hk h.stackOk
  refine h.quiet hw.inv hstackOk hw.sema hw.moves hwoken ?_ (by simp) (Or.inl rfl)
  intro s old hmem
  rw [List.nil_append] at hmem
  cases hst : k.stack k.running with
  | nil =>
    rw [hst] at hmem
    cases hmem
  | cons a rest =>
    have htop := h.retestTop k.running s old
    rw [hst] at hmem htop
    rcases List.mem_cons.mp hmem with rfl | hmem
    · have hlevel := h.retestLevel s old (by rw [hst, List.head?_cons])
      rw [he] at hlevel
      cases hlevel
    · exact htop hmem

theorem boot_blockInv (init : Nat → Nat) : (boot init).BlockInv := by
  have hstack : ∀ t, (boot init).stack t = if t = 0 then threadStart else [] := by
    intro t
    by_cases ht : t = 0 <;> simp [stack, boot, ht]
  have hwaiters : ∀ s, ((boot init).sema s).waiters = [] := by
    intro s
    cases s <;> rfl
  have hnew : ∀ t u, .createUnblock t ∉ (boot init).stack u := by
    intro t u
    rw [hstack]
    split_ifs <;> simp [threadStart]
  refine ⟨boot_inv init, rfl, ?_, ?_, ?_, ?_, ?_, ?_, ?_, ?_, ?_, ?_, ?_⟩
  · intro t
    rw [hstack]
    split_ifs
    · refine ⟨by simp [threadStart, Action.Ok], ?_, ?_, ?_⟩ <;> simp [threadStart]
    · exact ⟨by simp, by simp, by simp, by simp⟩
  · intro t hfree
    rw [hstack, if_neg]
    rintro rfl
    cases hfree
  · intro t hmagic _
    by_cases ht : t = 0
    · simp [boot, ht]
    · simp [thread, boot, ht] at hmagic
  · intro i hi
    cases hi
  · intro t s old
    rw [hstack]
    split_ifs <;> simp [threadStart]
  · intro s old _
    rfl
  · intro s t
    rw [hwaiters]
    refine ⟨fun hno => (List.not_mem_nil hno).elim, ?_⟩
    rintro ⟨-, old, hhead⟩
    rw [hstack] at hhead
    split_ifs at hhead <;> cases hhead
  · intro s
    rw [hwaiters]
    exact List.nodup_nil
  · intro u t hmem
    exact absurd hmem (hnew t u)
  · intro t u v hmem
    exact absurd hmem (hnew t u)
  · intro t u
    rw [List.count_eq_zero.mpr (hnew t u)]
    exact Nat.zero_le 1

/-! ## Runs in which no thread sleeps -/

/-- No thread is inside `timer_sleep`. -/
structure AwakeInv (k : Kernel) : Prop where
  awake : ∀ t, ∀ a ∈ k.stack t, a.sleeps = false
  timerList : k.timerList.next .head = some .tail

theorem Conts.sleeps_eq_false {a : Action} {pushed : List Action} (h : Conts a pushed)
    (ha : a.sleeps = false) : ∀ b ∈ pushed, b.sleeps = false := by
  cases h <;> simp [Action.sleeps, lockAcquire, lockRelease, condvarSignal] at ha ⊢

theorem body_sleeps_eq_false {op : Op} (hop : (Event.call op).sleeps = false) :
    ∀ b ∈ Op.body lab t op, b.sleeps = false := by
  intro b hb
  cases begins_of_mem hb <;> first | rfl | cases hop

theorem AwakeInv.step {e : Event} (hinv : k.sched.Inv) (h : k.AwakeInv) (he : k.Enabled e)
    (hsleep : e.sleeps = false) (hk : k.step lab e = .ok k') :
    k'.AwakeInv := by
  refine ⟨?_, ?_⟩
  · refine @step_stack_rule k k' lab (fun _ st => ∀ a ∈ st, a.sleeps = false) (by simp) ?_ ?_ ?_ e
      ?_ hinv he hk h.awake
    · intro t _ function _
      cases function <;> simp [Sched.startStack, Action.sleeps]
    · intro t a st ha hst b hb
      rcases List.mem_cons.mp hb with rfl | hb
      · cases b <;> first | rfl | cases ha
      · exact hst b hb
    · intro t a pushed rest hst hconts b hb
      rcases List.mem_append.mp hb with hb | hb
      · exact Conts.sleeps_eq_false hconts (hst a (by simp)) b hb
      · exact hst b (by simp [hb])
    · rintro t op rfl
      exact body_sleeps_eq_false hsleep
  · cases e with
    | act =>
      obtain ⟨a, rest, hstack⟩ := List.exists_cons_of_ne_nil he
      have ha := h.awake k.running a (by simp [hstack])
      rw [step_act hstack] at hk
      rw [(exec_framed hk).timerList]
      cases a
      case threadCreate t priority function =>
        simp only [timerListAfter]
        split_ifs
        · exact h.timerList
        · simpa [Memory.clear] using h.timerList
      all_goals first | exact h.timerList | cases ha
    | call op =>
      cases pure_eq_ok.mp hk
      exact h.timerList
    | tick =>
      rw [(intrHandler_ticked_nil hinv h.timerList hk).2]
      exact h.timerList

theorem boot_awakeInv (init : Nat → Nat) : (boot init).AwakeInv := by
  refine ⟨?_, rfl⟩
  intro t
  by_cases ht : t = 0 <;> simp [stack, boot, ht, threadStart, Action.sleeps]

/-- In this step `thread_unblock` is not called for a thread that blocks otherwise than by calling
`thread_block`. -/
def properUnblock (k : Kernel) : Event → Bool
  | .act =>
    match (k.stack k.running).head? with
    | some (.threadUnblock t) => (k.stack t).head?.any Action.returnsFromBlock
    | _ => true
  | _ => true

theorem unblockOk_of_properUnblock (hstack : k.stack k.running = a :: rest)
    (h : k.properUnblock .act = true) : k.UnblockOk a := by
  rintro t rfl
  simp only [properUnblock, hstack, List.head?_cons, Option.any_eq_true] at h
  obtain ⟨b, hb, hret⟩ := h
  cases b
  case threadBlockReturn old => exact ⟨old, hb⟩
  all_goals cases hret

/-- The events of the runs in which threads use `thread_unblock` properly and never sleep. -/
def Admits (k : Kernel) (e : Event) : Prop :=
  k.Enabled e ∧ k.properUnblock e = true ∧ e.sleeps = false

instance (e : Event) : Decidable (k.Admits e) := by
  unfold Admits
  infer_instance

theorem BlockInv.step {e : Event} (h : k.BlockInv) (hawake : k.AwakeInv) (he : k.Admits e)
    (hk : k.step lab e = .ok k') : k'.BlockInv := by
  cases e with
  | act =>
    obtain ⟨a, rest, hstack⟩ := List.exists_cons_of_ne_nil he.1
    exact h.act hstack hk (unblockOk_of_properUnblock hstack he.2.1)
  | call op => exact h.call he.1 hk
  | tick =>
    exact h.tick he.1 hk (intrHandler_ticked_nil h.sched hawake.timerList hk).1 (by simp)

theorem reachable_blockInv {init : Nat → Nat} (hr : Reachable (step lab) Admits (boot init) k) :
    k.BlockInv ∧ k.AwakeInv := by
  refine @Reachable.invariant _ _ _ (step lab) Admits (boot init)
    (fun k => k.BlockInv ∧ k.AwakeInv) ⟨boot_blockInv init, boot_awakeInv init⟩ ?_ k hr
  intro k e k' _ h he hk
  exact ⟨h.1.step h.2 he hk, h.2.step h.1.sched he.1 he.2.2 hk⟩

/-- The state after a sequence of events from boot, all of them admitted. -/
def runAdmitted (lab : Lab) (init : Nat → Nat) (events : List Event) : Option Kernel :=
  run (Kernel.step lab) (fun k e => decide (k.Admits e)) (boot init) events

theorem reachable_of_runAdmitted {init : Nat → Nat} {events : List Event}
    (h : runAdmitted lab init events = some k) :
    Reachable (Kernel.step lab) Admits (boot init) k :=
  reachable_of_run (fun _ _ he => of_decide_eq_true he) .start h

end Kernel

end CSE130.Pintos
