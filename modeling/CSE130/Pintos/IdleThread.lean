import CSE130.Pintos.Phases
import CSE130.Pintos.Progress

/-!
# The start of the idle thread

`thread_start` creates the idle thread and waits for it. Until `idle` has set `idle_thread`, `main`
is inside `thread_start`, there is no other thread, and no function is called. From then on
`schedule` always finds a thread to run.
-/

namespace CSE130.Pintos

open CSE130.Library

/-- The creation of the idle thread. -/
def Action.createsIdle : Action → Bool
  | .threadCreate _ _ .idle => true
  | _ => false

/-- What only the idle thread executes. -/
def Action.ofIdle : Action → Bool
  | .idleStart | .semaphoreUp .idleStarted => true
  | _ => false

/-- The wait of `thread_start` for the idle thread. -/
def Action.awaitsIdle : Action → Bool
  | .semaphoreDown .idleStarted | .semaphoreRetest .idleStarted _ => true
  | _ => false

/-- An action that may have to be executed while the idle thread has not set `idle_thread`. -/
def Action.boots : Action → Bool
  | .intrSetLevel _ | .iret | .contextCheck | .createUnblock _ | .idleStart | .idleLoop
  | .semaphoreDown _ | .semaphoreRetest _ _ | .semaphoreUp _ | .notHeldCheck _ | .setHolder _
  | .heldCheck _ | .clearHolder _ => true
  | _ => false

/-- An action of thread `t` once the idle thread, thread 1, has been created. -/
def Action.Belongs (t : Tid) (a : Action) : Prop :=
  a.createsIdle = false ∧ (a.ofIdle = true → t = 1)

section Actions

variable {a : Action} {pushed : List Action} {t : Tid} {lab : Lab} {op : Op}

theorem Action.Belongs.of_setsLevel (ha : a.setsLevel = true) : a.Belongs t := by
  cases a <;> simp [Action.Belongs, Action.createsIdle, Action.ofIdle, Action.setsLevel] at ha ⊢

theorem Action.boots_of_setsLevel (ha : a.setsLevel = true) : a.boots = true := by
  cases a <;> first | rfl | cases ha

theorem Conts.belongs (h : Conts a pushed) : ∀ b ∈ pushed, b.Belongs t := by
  cases h <;> simp [Action.Belongs, Action.createsIdle, Action.ofIdle, Kernel.lockAcquire,
    Kernel.lockRelease, Kernel.condvarSignal]

theorem body_belongs : ∀ b ∈ op.body lab t, b.Belongs t := by
  intro b hb
  cases begins_of_mem hb <;> simp [Action.Belongs, Action.createsIdle, Action.ofIdle]

theorem Conts.boots (h : Conts a pushed) (ha : a.boots = true) : ∀ b ∈ pushed, b.boots = true := by
  cases h <;> simp_all [Action.boots]

theorem Conts.idleStart_notMem (h : Conts a pushed) : .idleStart ∉ pushed := by
  cases h <;> simp [Kernel.lockAcquire, Kernel.lockRelease, Kernel.condvarSignal]

theorem Action.awaitsIdle_iff : a.awaitsIdle = true ↔
    a = .semaphoreDown .idleStarted ∨ ∃ old, a = .semaphoreRetest .idleStarted old := by
  cases a
  case semaphoreDown s | semaphoreRetest s old => cases s <;> simp [awaitsIdle]
  all_goals simp [awaitsIdle]

/-- A test of the semaphore in vain leads to the next one. -/
theorem Conts.awaitsIdle (h : Conts a pushed) (ha : a.awaitsIdle = true) (hpushed : pushed ≠ []) :
    ∃ b ∈ pushed, b.awaitsIdle = true := by
  rcases Action.awaitsIdle_iff.mp ha with rfl | ⟨old, rfl⟩
  · cases h with
    | done => exact absurd rfl hpushed
    | down _ old => exact ⟨.semaphoreRetest .idleStarted old, by simp, rfl⟩
  · cases h with
    | done => exact absurd rfl hpushed
    | retest => exact ⟨.semaphoreRetest .idleStarted old, by simp, rfl⟩

end Actions

namespace Kernel

variable {k k' : Kernel} {lab : Lab} {a : Action} {rest : List Action} {t : Tid} {e : Event}
  {init : Nat → Nat}

/-- What holds between the creation of the idle thread and its start. -/
structure Starting (k : Kernel) : Prop where
  idle : .idleStart ∈ k.stack 1
  main : ∃ a ∈ k.stack 0, a.awaitsIdle = true
  value : (k.sema .idleStarted).value = 0
  pages : ∀ t, (k.thread t).magic = true → t = 0 ∨ t = 1
  boots : ∀ t, ∀ a ∈ k.stack t, a.boots = true

/-- What holds from the creation of the idle thread on. -/
structure IdleCreated (k : Kernel) : Prop where
  belongs : ∀ t, ∀ a ∈ k.stack t, a.Belongs t
  start : .idleStart ∈ k.stack 1 → k.sched.idleThread = none
  starting : k.sched.idleThread = none → k.Starting

/-- The idle thread is created by the first action. -/
def IdleInv (init : Nat → Nat) (k : Kernel) : Prop := k = boot init ∨ k.IdleCreated

/-! ## Stacks -/

theorem step_belongs (h : k.sched.Inv) (he : k.Enabled e) (hk : k.step lab e = .ok k')
    (hP : ∀ t, ∀ a ∈ k.stack t, a.Belongs t) : ∀ t, ∀ a ∈ k'.stack t, a.Belongs t := by
  refine @step_stack_rule k k' lab (fun t st => ∀ a ∈ st, a.Belongs t) (by simp) ?_ ?_ ?_ e ?_ h he
    hk hP
  · intro t priority function hcreate
    have hcreates := (hP k.running _ hcreate).1
    cases function with
    | idle => cases hcreates
    | user => simp [Sched.startStack, Action.Belongs, Action.createsIdle, Action.ofIdle]
  · intro t a st ha hst b hb
    rcases List.mem_cons.mp hb with rfl | hb
    · exact .of_setsLevel ha
    · exact hst b hb
  · intro t a pushed rest hst hconts b hb
    rcases List.mem_append.mp hb with hb | hb
    · exact Conts.belongs hconts b hb
    · exact hst b (List.mem_cons_of_mem a hb)
  · exact fun t op _ => body_belongs

/-- An action never puts `idleStart` on a stack, unless it creates the idle thread. -/
theorem act_idleStart_mem (h : k.BlockInv) (hcreated : k.IdleCreated)
    (hstack : k.stack k.running = a :: rest) (hk : k.step lab .act = .ok k') :
    .idleStart ∈ k'.stack t ↔ .idleStart ∈ k.stack t ∧ (a = .idleStart → t ≠ k.running) := by
  by_cases ht : t = k.running
  · subst ht
    obtain ⟨ns, pushed, hns, hconts, heq, -⟩ := h.act_running hstack hk
    have hno : .idleStart ∉ ns := fun hmem => nomatch hns _ hmem
    have hrest : a = .idleStart → .idleStart ∉ rest := by
      intro ha
      subst ha
      have hform := (h.stackOk k.running).idleStart (by simp [hstack])
      rw [hstack, IdleStarting, pending_cons_of_not_setsLevel rfl] at hform
      obtain ⟨-, rfl⟩ := List.cons.inj hform
      simp
    simp only [heq, hstack, List.mem_append, List.mem_cons, hno, hconts.idleStart_notMem, false_or,
      @eq_comm _ .idleStart a, ne_eq, not_true_eq_false]
    tauto
  · rcases (act_stack h.sched hstack hk).1 t ht with heq | ⟨priority, function, rfl, hfree, heq, -⟩
    · simp [heq, ht]
    · have hcreates := (hcreated.belongs k.running _ (by rw [hstack]; exact List.mem_cons_self)).1
      cases function with
      | idle => cases hcreates
      | user => simp [heq, h.page t hfree, Sched.startStack]

/-! ## Before the start -/

/-- Only `main` and the idle thread run before the idle thread has started. -/
theorem Starting.running (h : k.Starting) (hinv : k.sched.Inv) : k.running = 0 ∨ k.running = 1 :=
  h.pages k.running hinv.runningOk.1

theorem Starting.stack_ne_nil (h : k.Starting) (hinv : k.sched.Inv) : k.stack k.running ≠ [] := by
  intro hempty
  rcases h.running hinv with hrunning | hrunning <;> rw [hrunning] at hempty
  · obtain ⟨a, ha, -⟩ := h.main
    rw [hempty] at ha
    cases ha
  · have hidle := h.idle
    rw [hempty] at hidle
    cases hidle

/-- Nobody has signalled the semaphore before the idle thread has started. -/
theorem Starting.ne_semaphoreUp (h : k.Starting) (hb : k.BlockInv) (hcreated : k.IdleCreated)
    (hstack : k.stack k.running = a :: rest) : a ≠ .semaphoreUp .idleStarted := by
  intro ha
  subst ha
  have hrunning : k.running = 1 := (hcreated.belongs k.running _ (hstack ▸ List.mem_cons_self)).2 rfl
  have hform := (hb.stackOk 1).idleStart h.idle
  rw [← hrunning, hstack, IdleStarting, pending_cons_of_not_setsLevel rfl] at hform
  cases hform

/-- `main` tests the semaphore in vain. -/
theorem Starting.act_main (h : k.Starting) (hb : k.BlockInv)
    (hstack : k.stack k.running = a :: rest) (hk : k.step lab .act = .ok k') :
    ∃ b ∈ k'.stack 0, b.awaitsIdle = true := by
  obtain ⟨b, hb', hawaits⟩ := h.main
  by_cases hrunning : k.running = 0
  · obtain ⟨ns, pushed, -, hconts, heq, hvalue⟩ := hb.act_running hstack hk
    rw [hrunning] at hstack heq
    rw [hstack] at hb'
    rw [heq]
    rcases List.mem_cons.mp hb' with rfl | hrest
    · have htest := hvalue .idleStarted (Action.awaitsIdle_iff.mp hawaits)
      have hpushed : pushed ≠ [] := fun hnil => htest.mp hnil h.value
      obtain ⟨c, hc, hcawaits⟩ := hconts.awaitsIdle hawaits hpushed
      exact ⟨c, by simp [hc], hcawaits⟩
    · exact ⟨b, by simp [hrest], hawaits⟩
  · have hne : 0 ≠ k.running := fun heq => hrunning heq.symm
    rcases hb.act_other hstack hk hne with heq | ⟨-, hempty, -⟩
    · exact ⟨b, heq ▸ hb', hawaits⟩
    · rw [hempty] at hb'
      cases hb'

theorem Starting.act_value (h : k.Starting) (hb : k.BlockInv) (hcreated : k.IdleCreated)
    (hstack : k.stack k.running = a :: rest) (hk : k.step lab .act = .ok k') :
    (k'.sema .idleStarted).value = 0 := by
  have hvalue := h.value
  have hup := h.ne_semaphoreUp hb hcreated hstack
  have hboots := h.boots k.running a (by simp [hstack])
  rw [step_act hstack] at hk
  rw [(exec_framed hk).sema]
  cases a
  case semaphoreDown s | semaphoreRetest s old =>
    by_cases hs : s = .idleStarted
    · subst hs
      simp [semaAfter, hvalue]
    · simp [semaAfter, Function.update_of_ne (Ne.symm hs), hvalue]
  case semaphoreUp s =>
    have hs : SemaId.idleStarted ≠ s := by
      intro heq
      subst heq
      exact hup rfl
    simp [semaAfter, Function.update_of_ne hs, hvalue]
  case semaphoreInit s value => cases hboots
  all_goals exact hvalue

/-- The actions before the start neither create nor end a thread. -/
theorem Starting.act_stack (h : k.Starting) (hb : k.BlockInv)
    (hstack : k.stack k.running = a :: rest) (hk : k.step lab .act = .ok k') (t : Tid) :
    (k'.thread t).magic = (k.thread t).magic ∧ ∀ b ∈ k'.stack t, b.boots = true := by
  have hboots := h.boots k.running a (by simp [hstack])
  refine ⟨?_, ?_⟩
  · rw [step_act hstack] at hk
    rcases exec_magic hb.sched.pop hk t with heq | ⟨rfl, -⟩ | ⟨_, _, rfl, -⟩
    · exact heq.trans (popped_magic t)
    · cases hboots
    · cases hboots
  · by_cases ht : t = k.running
    · subst ht
      obtain ⟨ns, pushed, hns, hconts, heq, -⟩ := hb.act_running hstack hk
      intro b hmem
      rw [heq, List.append_assoc] at hmem
      rcases List.mem_append.mp hmem with hmem | hmem
      · exact Action.boots_of_setsLevel (hns b hmem)
      · rcases List.mem_append.mp hmem with hmem | hmem
        · exact hconts.boots hboots b hmem
        · exact h.boots k.running b (by simp [hstack, hmem])
    · rcases (Kernel.act_stack hb.sched hstack hk).1 t ht with heq | ⟨_, _, rfl, -⟩
      · rw [heq]
        exact h.boots t
      · cases hboots

theorem IdleCreated.act (h : k.IdleCreated) (hb : k.BlockInv)
    (hstack : k.stack k.running = a :: rest) (hk : k.step lab .act = .ok k') : k'.IdleCreated := by
  have hne : k.stack k.running ≠ [] := by simp [hstack]
  have hidle : k'.sched.idleThread = k.sched.idleThread ∧ a ≠ .idleStart ∨
      k'.sched.idleThread = some k.running ∧ a = .idleStart := by
    have hk' := hk
    rw [step_act hstack] at hk'
    exact @exec_idleThread k.popped k' lab a hb.sched.pop hk'
  refine ⟨step_belongs (e := .act) hb.sched hne hk h.belongs, ?_, ?_⟩
  · intro hmem
    obtain ⟨hold, hnot⟩ := (act_idleStart_mem hb h hstack hk).mp hmem
    rcases hidle with ⟨heq, -⟩ | ⟨-, rfl⟩
    · exact heq.trans (h.start hold)
    · have hrunning := (h.belongs k.running .idleStart (by simp [hstack])).2 rfl
      exact absurd hrunning.symm (hnot rfl)
  · intro hnone
    rcases hidle with ⟨heq, ha⟩ | ⟨heq, -⟩
    · have hs := h.starting (heq.symm.trans hnone)
      refine ⟨?_, hs.act_main hb hstack hk, hs.act_value hb h hstack hk, ?_, ?_⟩
      · exact (act_idleStart_mem hb h hstack hk).mpr ⟨hs.idle, fun heq => absurd heq ha⟩
      · intro t hmagic
        rw [(hs.act_stack hb hstack hk t).1] at hmagic
        exact hs.pages t hmagic
      · exact fun t => (hs.act_stack hb hstack hk t).2
    · rw [heq] at hnone
      cases hnone

/-! ## Every step -/

theorem IdleCreated.call {op : Op} (h : k.IdleCreated) (hinv : k.sched.Inv)
    (he : k.Enabled (.call op)) (hk : k.step lab (.call op) = .ok k') : k'.IdleCreated := by
  obtain ⟨hrunning, hother⟩ := call_stack he hk
  refine ⟨step_belongs hinv he hk h.belongs, ?_, ?_⟩
  · intro hmem
    have hidle : k'.sched.idleThread = k.sched.idleThread := by
      cases pure_eq_ok.mp hk
      rfl
    rw [hidle]
    by_cases hrun : 1 = k.running
    · rw [hrun, hrunning] at hmem
      cases begins_of_mem hmem
    · exact h.start (hother 1 hrun ▸ hmem)
  · intro hnone
    cases pure_eq_ok.mp hk
    exact absurd he ((h.starting hnone).stack_ne_nil hinv)

theorem IdleCreated.tick (h : k.IdleCreated) (hinv : k.sched.Inv) (he : k.Enabled .tick)
    (hk : k.step lab .tick = .ok k') : k'.IdleCreated := by
  have hstack := tick_stack hinv hk
  obtain ⟨woken, hw⟩ := intrHandler_ticked hinv hk
  refine ⟨step_belongs hinv he hk h.belongs, ?_, ?_⟩
  · intro hmem
    obtain ⟨ns, hns, heq⟩ := hstack 1
    rw [heq] at hmem
    rw [hw.moves.idleThread]
    rcases List.mem_append.mp hmem with hmem | hmem
    · cases hns _ hmem
    · exact h.start hmem
  · intro hnone
    rw [hw.moves.idleThread] at hnone
    have hs := h.starting hnone
    have hkeep : ∀ t, ∀ b ∈ k.stack t, b ∈ k'.stack t := by
      intro t b hmem
      obtain ⟨ns, -, heq⟩ := hstack t
      rw [heq]
      exact List.mem_append_right ns hmem
    obtain ⟨a, ha, hawaits⟩ := hs.main
    refine ⟨hkeep 1 _ hs.idle, ⟨a, hkeep 0 a ha, hawaits⟩, ?_, ?_, ?_⟩
    · rw [hw.sema]
      exact hs.value
    · intro t hmagic
      exact hs.pages t ((hw.moves.magic t).symm.trans hmagic)
    · intro t b hmem
      obtain ⟨ns, hns, heq⟩ := hstack t
      rw [heq] at hmem
      rcases List.mem_append.mp hmem with hmem | hmem
      · exact Action.boots_of_setsLevel (hns b hmem)
      · exact hs.boots t b hmem

/-- `thread_start` creates the idle thread. -/
theorem boot_step (he : (boot init).Enabled e) (hk : (boot init).step lab e = .ok k') :
    k'.IdleCreated := by
  have hstack : (boot init).stack (boot init).running = .threadCreate 1 priMin .idle ::
      [.intrSetLevel .on, .semaphoreDown .idleStarted] := rfl
  cases e with
  | tick => cases he
  | call op => cases he
  | act =>
    have hk' := hk
    rw [step_act hstack] at hk'
    rcases threadCreate_eq_ok.mp hk' with ⟨hmagic, -⟩ | ⟨-, -, hcreated⟩
    · cases hmagic
    have hone : k'.stack 1 = Sched.startStack .idle := by
      rw [hcreated]
      rfl
    have hmain : k'.stack 0 = lockAcquire .tidLock ++ lockRelease .tidLock ++ [.createUnblock 1] ++
        [.intrSetLevel .on, .semaphoreDown .idleStarted] := by
      rw [hcreated]
      rfl
    have hother : ∀ t, t ≠ 0 → t ≠ 1 → k'.sched.thread t = {} := by
      intro t ht ht'
      rw [hcreated]
      exact (Sched.creating_thread_of_ne ht').trans (by simp [boot, ht])
    have hidle : k'.sched.idleThread = none := by
      rw [hcreated]
      rfl
    have hstacks : ∀ t, ∀ b ∈ k'.stack t, b.Belongs t ∧ b.boots = true := by
      intro t
      by_cases ht : t = 0
      · rw [ht, hmain]
        simp [Action.Belongs, Action.createsIdle, Action.ofIdle, Action.boots, lockAcquire,
          lockRelease]
      by_cases ht' : t = 1
      · rw [ht', hone]
        simp [Action.Belongs, Action.createsIdle, Action.boots, Sched.startStack]
      · rw [stack, hother t ht ht']
        simp
    refine ⟨fun t b hmem => (hstacks t b hmem).1, fun _ => hidle, fun _ => ?_⟩
    refine ⟨?_, ⟨.semaphoreDown .idleStarted, ?_, rfl⟩, ?_, ?_, fun t b hmem => (hstacks t b hmem).2⟩
    · rw [hone]
      simp [Sched.startStack]
    · rw [hmain]
      simp
    · rw [hcreated]
      rfl
    · intro t hmagic
      by_contra hne
      rw [not_or] at hne
      rw [thread, hother t hne.1 hne.2] at hmagic
      cases hmagic

theorem IdleInv.step (h : IdleInv init k) (hb : k.BlockInv) (he : k.Enabled e)
    (hk : k.step lab e = .ok k') : IdleInv init k' := by
  right
  rcases h with rfl | h
  · exact boot_step he hk
  cases e with
  | act =>
    obtain ⟨a, rest, hstack⟩ := List.exists_cons_of_ne_nil he
    exact h.act hb hstack hk
  | call op => exact h.call hb.sched he hk
  | tick => exact h.tick hb.sched he hk

/-! ## What follows -/

/-- The idle thread starts once, as thread 1. -/
theorem IdleInv.idleStart (h : IdleInv init k)
    (hstack : k.stack k.running = .idleStart :: rest) :
    k.running = 1 ∧ k.sched.idleThread = none := by
  rcases h with rfl | h
  · cases hstack
  · have hrunning : k.running = 1 :=
      (h.belongs k.running _ (hstack ▸ List.mem_cons_self)).2 rfl
    refine ⟨hrunning, h.start ?_⟩
    rw [← hrunning, hstack]
    exact List.mem_cons_self

/-- Where a thread is inside a call, `schedule` always finds a thread to run. -/
theorem IdleInv.hasNext (h : IdleInv init k) (hb : k.BlockInv) (ha : a ∈ k.stack t)
    (hboots : a.boots = false) (hcreates : a.createsIdle = false) : k.sched.HasNext := by
  have hstart : ∀ b ∈ threadStart, b.createsIdle = true ∨ b.boots = true := by
    simp [threadStart, Action.createsIdle, Action.boots]
  have hsome : k.sched.idleThread ≠ none := by
    intro hnone
    rcases h with rfl | h
    · by_cases ht : t = 0
      · subst ht
        rcases hstart a ha with hno | hno
        · rw [hcreates] at hno
          cases hno
        · rw [hboots] at hno
          cases hno
      · simp [stack, boot, ht] at ha
    · rw [(h.starting hnone).boots t a ha] at hboots
      cases hboots
  obtain ⟨i, hi⟩ := Option.ne_none_iff_exists'.mp hsome
  exact .inr ⟨i, hi, (hb.idle i hi).1⟩

end Kernel

end CSE130.Pintos
