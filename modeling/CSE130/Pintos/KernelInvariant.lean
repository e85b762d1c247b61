import CSE130.Pintos.StepLemmas

/-!
# The invariant of blocked threads

A thread waits on a semaphore exactly when it is blocked and about to test the semaphore again.
The invariant behind this fact also says where the idle thread is and that a thread under
construction is blocked until `thread_create` makes it ready. It is kept by every step in which
`thread_unblock` is called only for threads that have called `thread_block`, and in which the timer
wakes only threads that are asleep.
-/

namespace CSE130.Pintos

open CSE130.Library

/-! ## The form of the stacks -/

/-- A stack without the actions in front that only set the interrupt level. -/
def pending (st : List Action) : List Action := st.dropWhile Action.setsLevel

@[simp] theorem pending_cons_of_setsLevel {a : Action} {st : List Action} (h : a.setsLevel = true) :
    pending (a :: st) = pending st := by
  simp [pending, h]

@[simp] theorem pending_cons_of_not_setsLevel {a : Action} {st : List Action}
    (h : a.setsLevel = false) : pending (a :: st) = a :: st := by
  simp [pending, h]

theorem Conts.eq_nil {a : Action} {pushed : List Action} (h : Conts a pushed)
    (ha : a.setsLevel = true) : pushed = [] := by
  cases h <;> first | rfl | cases ha

/-- The stack of the idle thread before `idle` has set `idle_thread`. -/
def IdleStarting (st : List Action) : Prop :=
  pending st = [.idleStart, .semaphoreUp .idleStarted, .idleLoop]

/-- The stack of the idle thread afterwards. -/
def Idling (st : List Action) : Prop :=
  pending st = [.semaphoreUp .idleStarted, .idleLoop] ∨ pending st = [.idleLoop]

theorem pending_append {ns st : List Action} (hns : LevelOnly ns) :
    pending (ns ++ st) = pending st := by
  induction ns with
  | nil => rfl
  | cons a ns ih =>
    rw [List.cons_append, pending_cons_of_setsLevel (hns a (by simp))]
    exact ih fun b hb => hns b (by simp [hb])

theorem mem_pending {a : Action} {st : List Action} (ha : a ∈ st) :
    a.setsLevel = true ∨ a ∈ pending st := by
  induction st with
  | nil => cases ha
  | cons b st ih =>
    cases hb : b.setsLevel with
    | false => exact Or.inr (by rwa [pending_cons_of_not_setsLevel hb])
    | true =>
      rw [pending_cons_of_setsLevel hb]
      rcases List.mem_cons.mp ha with rfl | ha
      · exact Or.inl hb
      · exact ih ha

theorem Idling.mem {a : Action} {st : List Action} (h : Idling st) (ha : a ∈ st) :
    a.setsLevel = true ∨ a = .semaphoreUp .idleStarted ∨ a = .idleLoop := by
  rcases mem_pending ha with ha | ha
  · exact Or.inl ha
  · right
    rcases h with h | h <;> rw [h] at ha
    · simpa using ha
    · simpa using Or.inr ha

/-- The idle thread stays in its loop. -/
theorem Idling.act {a : Action} {ns pushed rest : List Action} (h : Idling (a :: rest))
    (hns : LevelOnly ns) (hconts : Conts a pushed) : Idling (ns ++ pushed ++ rest) := by
  unfold Idling at h ⊢
  rw [List.append_assoc, pending_append hns]
  cases ha : a.setsLevel with
  | true =>
    rw [hconts.eq_nil ha, List.nil_append]
    rwa [pending_cons_of_setsLevel ha] at h
  | false =>
    rw [pending_cons_of_not_setsLevel ha] at h
    rcases h with h | h <;> cases h <;> cases hconts
    · exact Or.inr rfl
    · rename_i hend
      cases hend
    · exact Or.inr rfl

/-- An action that thread `t` may have to execute: `condvar_wait` only ever uses the semaphore of
the calling thread. -/
def Action.Ok (t : Tid) : Action → Prop
  | .semaphoreInit s value => ∃ c, s = .waiter t c ∧ value = 0
  | .semaphoreDown s | .semaphoreRetest s _ => ∀ u c, s = .waiter u c → u = t
  | _ => True

/-- The form of the stack of thread `t`. -/
structure StackOk (t : Tid) (st : List Action) : Prop where
  ok : ∀ a ∈ st, a.Ok t
  idleStart : .idleStart ∈ st → IdleStarting st
  idleLoop : .idleLoop ∈ st → IdleStarting st ∨ Idling st
  threadExit : .threadExit ∈ st → pending st = [.threadExit]

/-- What an action leaves to do it may leave to do. -/
theorem Conts.ok {t : Tid} {a : Action} {pushed : List Action} (h : Conts a pushed) (ha : a.Ok t) :
    ∀ b ∈ pushed, b.Ok t := by
  cases h <;> simp_all [Action.Ok, Kernel.lockAcquire, Kernel.lockRelease, Kernel.condvarSignal]

theorem StackOk.level {t : Tid} {a : Action} {st : List Action} (ha : a.setsLevel = true)
    (h : StackOk t st) : StackOk t (a :: st) := by
  have hmem : ∀ b, b.setsLevel = false → b ∈ a :: st → b ∈ st := by
    intro b hb hmem
    refine (List.mem_cons.mp hmem).resolve_left ?_
    rintro rfl
    rw [ha] at hb
    cases hb
  refine ⟨?_, ?_, ?_, ?_⟩
  · intro b hb
    rcases List.mem_cons.mp hb with rfl | hb
    · cases b <;> trivial
    · exact h.ok b hb
  · intro hb
    rw [IdleStarting, pending_cons_of_setsLevel ha]
    exact h.idleStart (hmem _ rfl hb)
  · intro hb
    rw [IdleStarting, Idling, pending_cons_of_setsLevel ha]
    exact h.idleLoop (hmem _ rfl hb)
  · intro hb
    rw [pending_cons_of_setsLevel ha]
    exact h.threadExit (hmem _ rfl hb)

theorem StackOk.act {t : Tid} {a : Action} {pushed rest : List Action} (h : StackOk t (a :: rest))
    (hconts : Conts a pushed) : StackOk t (pushed ++ rest) := by
  have hok : ∀ b ∈ pushed ++ rest, b.Ok t := by
    intro b hb
    rcases List.mem_append.mp hb with hb | hb
    · exact hconts.ok (h.ok a (by simp)) b hb
    · exact h.ok b (by simp [hb])
  cases ha : a.setsLevel with
  | true =>
    obtain rfl := hconts.eq_nil ha
    refine ⟨hok, ?_, ?_, ?_⟩
    · intro hb
      simpa [IdleStarting, ha] using h.idleStart (by simpa using Or.inr hb)
    · intro hb
      simpa [IdleStarting, Idling, ha] using h.idleLoop (by simpa using Or.inr hb)
    · intro hb
      simpa [ha] using h.threadExit (by simpa using Or.inr hb)
  | false =>
    have hpending : pending (a :: rest) = a :: rest := pending_cons_of_not_setsLevel ha
    refine ⟨hok, ?_, ?_, ?_⟩
    · intro hb
      have hrest : .idleStart ∈ rest := by
        rcases List.mem_append.mp hb with hb | hb
        · cases hconts <;> simp [Kernel.lockAcquire, Kernel.lockRelease, Kernel.condvarSignal] at hb
        · exact hb
      have hform := h.idleStart (by simp [hrest])
      rw [IdleStarting, hpending] at hform
      cases hform
      simp at hrest
    · intro hb
      right
      rcases List.mem_append.mp hb with hb | hb
      · have hloop : a = .idleLoop ∧ pushed = [.intrSetLevel .on, .idleLoop] := by
          cases hconts <;> simp [Kernel.lockAcquire, Kernel.lockRelease, Kernel.condvarSignal] at hb ⊢
        obtain ⟨rfl, rfl⟩ := hloop
        have hform := h.idleLoop (by simp)
        simp only [IdleStarting, Idling, hpending] at hform
        rcases hform with hform | hform | hform <;> cases hform
        exact Or.inr rfl
      · have hform := h.idleLoop (by simp [hb])
        simp only [IdleStarting, Idling, hpending] at hform
        rcases hform with hform | hform | hform <;> cases hform
        · cases hconts
          exact Or.inl rfl
        · cases hconts
          exact Or.inr rfl
        · cases hb
    · intro hb
      have hrest : .threadExit ∈ rest := by
        rcases List.mem_append.mp hb with hb | hb
        · cases hconts <;> simp [Kernel.lockAcquire, Kernel.lockRelease, Kernel.condvarSignal] at hb
        · exact hb
      have hform := h.threadExit (by simp [hrest])
      rw [hpending] at hform
      cases hform
      cases hrest

theorem stackOk_startStack (t : Tid) (function : ThreadFunction) :
    StackOk t (Sched.startStack function) := by
  cases function
  · refine ⟨by simp [Sched.startStack, Action.Ok], fun _ => rfl, fun _ => Or.inl rfl, ?_⟩
    simp [Sched.startStack]
  · refine ⟨by simp [Sched.startStack, Action.Ok], ?_, ?_, ?_⟩ <;> simp [Sched.startStack]

theorem stackOk_body (lab : Lab) (t : Tid) (op : Op) : StackOk t (Op.body lab t op) := by
  refine ⟨?_, ?_, ?_, ?_⟩
  · intro b hb
    cases begins_of_mem hb <;> simp [Action.Ok]
  · intro hmem
    cases begins_of_mem hmem
  · intro hmem
    cases begins_of_mem hmem
  · intro hmem
    cases begins_of_mem hmem
    rfl

/-! ## Threads that a step leaves alone -/

namespace Kernel

variable {k k' : Kernel} {lab : Lab} {a : Action} {rest : List Action} {t u : Tid} {s : SemaId}

/-- From `k` to `k'` thread `t` has neither executed anything nor been woken. -/
structure Undisturbed (k k' : Kernel) (t : Tid) : Prop where
  magic : (k'.thread t).magic = (k.thread t).magic
  priority : (k'.thread t).priority = (k.thread t).priority
  wakeUpTick : (k'.thread t).wakeUpTick = (k.thread t).wakeUpTick
  stack : k'.stack t = k.stack t
  blocked : (k'.thread t).status = .blocked ↔ (k.thread t).status = .blocked

theorem Undisturbed.of_moves {woken : List Tid} {blocks : Prop} {pushed : List Action}
    (h : Sched.Moves woken blocks pushed k.sched k'.sched) (ht : t ≠ k.running)
    (hidle : some t ≠ k.sched.idleThread) (hwoken : t ∉ woken) : Undisturbed k k' t := by
  refine ⟨h.magic t, h.priority t ht, h.wakeUpTick t ht, h.stack t ht, ?_⟩
  exact (h.blocked_of_ne ht hidle).trans (and_iff_left hwoken)

theorem exec_undisturbed (h : k.sched.Inv) (hk : k.exec lab a = .ok k') (ht : t ≠ k.running)
    (hidle : some t ≠ k.sched.idleThread) (hmagic : (k.thread t).magic = true)
    (hwoken : t ∉ k.wokenBy a) : Undisturbed k k' t := by
  cases ha : a.plain with
  | true =>
    obtain ⟨pushed, -, -, hmoves⟩ := exec_moves h ha hk
    exact .of_moves hmoves ht hidle hwoken
  | false =>
    cases a
    case threadCreate v priority function =>
      rcases threadCreate_eq_ok.mp hk with ⟨-, rfl⟩ | ⟨hfree, -, rfl⟩
      · exact ⟨rfl, rfl, rfl, rfl, Iff.rfl⟩
      · have htv : t ≠ v := by
          rintro rfl
          rw [hmagic] at hfree
          cases hfree
        have hthread : (k.sched.creating v priority function
            (lockAcquire .tidLock ++ lockRelease .tidLock ++ [.createUnblock v])).thread t =
            k.sched.thread t := by
          rw [Sched.creating_thread_of_ne htv]
          simp [ht]
        exact ⟨congrArg Thread.magic hthread, congrArg Thread.priority hthread,
          congrArg Thread.wakeUpTick hthread, congrArg Thread.stack hthread,
          by rw [show _ = _ from congrArg Thread.status hthread]⟩
    case threadExit =>
      obtain ⟨s, hs, rfl⟩ := onSched_eq_ok.mp hk
      have hexits := h.threadExit_exits hs
      exact ⟨hexits.magic t ht, hexits.priority t ht, hexits.wakeUpTick t ht, hexits.stack t ht,
        hexits.blocked t ht hidle⟩
    case idleStart =>
      obtain ⟨-, rfl⟩ := idleStart_eq_ok.mp hk
      exact ⟨rfl, rfl, rfl, rfl, Iff.rfl⟩
    all_goals cases ha

theorem popped_undisturbed (ht : t ≠ k.running) : Undisturbed k k.popped t := by
  have hthread : k.popped.sched.thread t = k.sched.thread t := by
    simp [ht]
  exact ⟨congrArg Thread.magic hthread, congrArg Thread.priority hthread,
    congrArg Thread.wakeUpTick hthread, congrArg Thread.stack hthread,
    by rw [show _ = _ from congrArg Thread.status hthread]⟩

theorem Undisturbed.trans {k₁ : Kernel} (h₁ : Undisturbed k k₁ t) (h₂ : Undisturbed k₁ k' t) :
    Undisturbed k k' t :=
  ⟨h₂.magic.trans h₁.magic, h₂.priority.trans h₁.priority, h₂.wakeUpTick.trans h₁.wakeUpTick,
    h₂.stack.trans h₁.stack, h₂.blocked.trans h₁.blocked⟩

theorem act_undisturbed (h : k.sched.Inv) (hstack : k.stack k.running = a :: rest)
    (hk : k.step lab .act = .ok k') (ht : t ≠ k.running) (hidle : some t ≠ k.sched.idleThread)
    (hmagic : (k.thread t).magic = true) (hwoken : t ∉ k.wokenBy a) : Undisturbed k k' t := by
  rw [step_act hstack] at hk
  have hpop : Undisturbed k k.popped t := popped_undisturbed ht
  exact hpop.trans (exec_undisturbed h.pop hk ht hidle (hpop.magic.trans hmagic) hwoken)

theorem call_undisturbed {op : Op} (hk : k.step lab (.call op) = .ok k') (ht : t ≠ k.running) :
    Undisturbed k k' t := by
  cases pure_eq_ok.mp hk
  have hthread : (k.sched.push (op.body lab k.running)).thread t = k.sched.thread t := by
    simp [ht]
  exact ⟨congrArg Thread.magic hthread, congrArg Thread.priority hthread,
    congrArg Thread.wakeUpTick hthread, congrArg Thread.stack hthread,
    by rw [show _ = _ from congrArg Thread.status hthread]⟩

/-! ## The invariant -/

/-- Thread `t` is blocked in `semaphore_down` on `s`. -/
def AtRetest (k : Kernel) (s : SemaId) (t : Tid) : Prop :=
  (k.thread t).status = .blocked ∧ ∃ old, (k.stack t).head? = some (.semaphoreRetest s old)

/-- Thread `t` has been set up by `thread_create` but has not been made ready. -/
def Newborn (k : Kernel) (t : Tid) : Prop :=
  (k.thread t).magic = true ∧ (k.thread t).status = .blocked ∧
    ∃ function, k.stack t = Sched.startStack function

structure BlockInv (k : Kernel) : Prop where
  sched : k.sched.Inv
  intr : k.sched.inExternalIntr = false
  stackOk : ∀ t, StackOk t (k.stack t)
  page : ∀ t, (k.thread t).magic = false → k.stack t = []
  listed : ∀ t, (k.thread t).magic = true → (k.thread t).status ≠ .dying → t ∈ k.sched.allList
  idle : ∀ i, k.sched.idleThread = some i →
    (k.thread i).magic = true ∧ i ∈ k.sched.allList ∧ Idling (k.stack i)
  retestTop : ∀ t s old, .semaphoreRetest s old ∉ (k.stack t).tail
  retestLevel : ∀ s old, (k.stack k.running).head? = some (.semaphoreRetest s old) →
    k.sched.level = .off
  waits : ∀ s t, t ∈ (k.sema s).waiters ↔ k.AtRetest s t
  nodup : ∀ s, (k.sema s).waiters.Nodup
  newborn : ∀ u t, .createUnblock t ∈ k.stack u → k.Newborn t
  creator : ∀ t u v, .createUnblock t ∈ k.stack u → .createUnblock t ∈ k.stack v → u = v
  once : ∀ t u, (k.stack u).count (.createUnblock t) ≤ 1

/-- `thread_unblock` is called for a thread that has called `thread_block`. -/
def UnblockOk (k : Kernel) (a : Action) : Prop :=
  ∀ t, a = .threadUnblock t → ∃ old, (k.stack t).head? = some (.threadBlockReturn old)

theorem BlockInv.idle_mem (h : k.BlockInv) (hidle : some t = k.sched.idleThread)
    (ha : a ∈ k.stack t) :
    a.setsLevel = true ∨ a = .semaphoreUp .idleStarted ∨ a = .idleLoop :=
  (h.idle t hidle.symm).2.2.mem ha

theorem BlockInv.magic_of_mem (h : k.BlockInv) (ha : a ∈ k.stack t) :
    (k.thread t).magic = true := by
  by_contra hmagic
  rw [h.page t (by simpa using hmagic)] at ha
  cases ha

theorem AtRetest.mem (h : k.AtRetest s t) : ∃ old, .semaphoreRetest s old ∈ k.stack t := by
  obtain ⟨-, old, hhead⟩ := h
  exact ⟨old, List.mem_of_mem_head? hhead⟩

theorem BlockInv.ne_running (h : k.BlockInv) (hblocked : (k.thread t).status = .blocked) :
    t ≠ k.running := by
  rintro rfl
  rw [show (k.thread k.running).status = _ from h.sched.runningOk.2] at hblocked
  cases hblocked

/-- A waiting thread is not the running one, nor the idle thread. -/
theorem BlockInv.waiter (h : k.BlockInv) (ht : k.AtRetest s t) :
    t ≠ k.running ∧ some t ≠ k.sched.idleThread ∧ (k.thread t).magic = true ∧
      t ∈ k.sched.allList := by
  obtain ⟨old, hmem⟩ := ht.mem
  refine ⟨h.ne_running ht.1, ?_, h.magic_of_mem hmem, ?_⟩
  · intro hidle
    rcases h.idle_mem hidle hmem with hno | hno | hno <;> cases hno
  · exact h.listed t (h.magic_of_mem hmem) (by simp [ht.1])

theorem Newborn.head {k : Kernel} (h : k.Newborn t) :
    (k.stack t).head? = some (.intrSetLevel .on) := by
  obtain ⟨-, -, function, hstack⟩ := h
  rw [hstack]
  cases function <;> rfl

/-- A thread under construction is not the running one, nor the idle thread. -/
theorem BlockInv.newborn_ne (h : k.BlockInv) (ht : k.Newborn t) :
    t ≠ k.running ∧ some t ≠ k.sched.idleThread := by
  refine ⟨h.ne_running ht.2.1, ?_⟩
  intro hidle
  obtain ⟨-, -, function, hstack⟩ := ht
  have hidling := (h.idle t hidle.symm).2.2
  rw [hstack] at hidling
  cases function <;> rcases hidling with hform | hform <;> cases hform

/-! ## Semaphores under one action -/

theorem mem_semaAfter (hinit : ∀ value, a ≠ .semaphoreInit s value) :
    t ∈ (k.semaAfter lab a s).waiters ↔
      t ∈ (k.sema s).waiters ∧ (a = .semaphoreUp s → t ∈ (k.sema s).waiters.tail) ∨
      t = k.running ∧ (k.sema s).value = 0 ∧
        (a = .semaphoreDown s ∨ ∃ old, a = .semaphoreRetest s old) := by
  cases a
  case semaphoreInit s' value =>
    have hne : s ≠ s' := by
      rintro rfl
      exact hinit value rfl
    simp [semaAfter, hne]
  case semaphoreDown s' =>
    by_cases hs : s = s'
    · subst hs
      by_cases hvalue : (k.sema s).value = 0
      · simp [semaAfter, hvalue, or_comm]
      · simp [semaAfter, hvalue]
    · have hs' : s' ≠ s := fun heq => hs heq.symm
      simp [semaAfter, hs, hs']
  case semaphoreRetest s' old =>
    by_cases hs : s = s'
    · subst hs
      by_cases hvalue : (k.sema s).value = 0
      · simp [semaAfter, hvalue, or_comm]
      · simp [semaAfter, hvalue]
    · have hs' : s' ≠ s := fun heq => hs heq.symm
      simp [semaAfter, hs, hs']
  case semaphoreUp s' =>
    by_cases hs : s = s'
    · subst hs
      simp only [semaAfter, Function.update_self, forall_const, reduceCtorEq, exists_false,
        and_false, or_false]
      exact (and_iff_right_of_imp List.mem_of_mem_tail).symm
    · have hs' : s' ≠ s := fun heq => hs heq.symm
      simp [semaAfter, hs, hs']
  all_goals simp [semaAfter]

end Kernel

end CSE130.Pintos
