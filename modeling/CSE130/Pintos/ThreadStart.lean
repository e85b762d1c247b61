import CSE130.Pintos.Mutex
import CSE130.Pintos.ThreadLists

/-!
# There is always a thread to run next

`schedule` takes the idle thread where the ready list is empty. Before `idle` has set `idle_thread`
there is no such thread. In that time only `main` gives up the processor, inside `thread_start`, and
by then it has made the idle thread ready.
-/

namespace CSE130.Pintos

open CSE130.Library

/-! ## Dying threads -/

namespace Sched

variable {s s' : Sched} {t next : Tid} {rest : List Tid} {lab : Lab}

/-- The page of a thread that has ended is given back, except for that of the initial thread. -/
structure Ended (s : Sched) : Prop where
  initial : s.initialThread = 0
  dying : ∀ t, (s.thread t).status = .dying → t = 0

theorem Ended.switchTo (hinitial : s.initialThread = 0)
    (hdying : ∀ t, (s.thread t).status = .dying → t = 0 ∨ t = s.running) :
    (s.switchTo next rest).Ended := by
  refine ⟨hinitial, ?_⟩
  intro t ht
  by_cases hnext : t = next
  · rw [hnext, switchTo_thread_next] at ht
    cases ht
  · simp only [Sched.switchTo, hnext, if_false, hinitial] at ht
    split_ifs at ht with hgone
    rcases hdying t ht with hzero | hrunning
    · exact hzero
    · by_contra hne
      exact hgone ⟨hrunning, ht, hne⟩

theorem Ended.modify (h : s.Ended) {f : Thread → Thread}
    (hf : ∀ th, (f th).status = .dying → th.status = .dying) : (s.modify t f).Ended := by
  refine ⟨h.initial, ?_⟩
  intro u hu
  by_cases hut : u = t
  · subst hut
    exact h.dying u (hf _ (by simpa using hu))
  · exact h.dying u (by simpa [hut] using hu)

theorem Ended.push (h : s.Ended) (actions : List Action) : (s.push actions).Ended :=
  h.modify fun _ hdying => hdying

theorem Ended.pop (h : s.Ended) : s.pop.Ended := h.modify fun _ hdying => hdying

theorem Ended.setStatus {status : ThreadStatus} (h : s.Ended) (hstatus : status ≠ .dying) :
    (s.setStatus t status).Ended :=
  h.modify fun _ hdying => absurd hdying hstatus

theorem Ended.threadBlock (h : s.Ended) (hs : s.threadBlock = .ok s') : s'.Ended := by
  obtain ⟨-, -, -, next, rest, -, -, rfl⟩ := threadBlock_eq_ok.mp hs
  have hblocked : (s.setStatus s.running .blocked).Ended := h.setStatus (by simp)
  exact .switchTo hblocked.initial fun t ht => .inl (hblocked.dying t ht)

theorem Ended.threadYield (h : s.Ended) (hs : s.threadYield lab = .ok s') : s'.Ended := by
  obtain ⟨-, -, next, rest, -, -, rfl⟩ := threadYield_eq_ok.mp hs
  have hstate : ∀ ready, ({ s with level := .off, readyList := ready } : Sched).Ended :=
    fun _ => ⟨h.initial, h.dying⟩
  have hyielding : (s.yielding lab).Ended := ((hstate _).setStatus (by simp)).push _
  exact .switchTo hyielding.initial fun t ht => .inl (hyielding.dying t ht)

theorem Ended.threadUnblock (h : s.Ended) (hrunning : s.RunningOk)
    (hs : s.threadUnblock lab t = .ok s') : s'.Ended := by
  obtain ⟨-, -, hs⟩ := (threadUnblock_eq_ok hrunning).mp hs
  have hstate : ∀ ready, ({ s with level := .off, readyList := ready } : Sched).Ended :=
    fun _ => ⟨h.initial, h.dying⟩
  have hready : (s.readying lab t).Ended := (hstate _).setStatus (by simp)
  split_ifs at hs
  · exact (hready.push _).threadYield hs
  · obtain ⟨-, rfl⟩ := hs
    exact ⟨hready.initial, hready.dying⟩

theorem Ended.threadExit (h : s.Ended) (hs : s.threadExit = .ok s') : s'.Ended := by
  obtain ⟨-, -, next, rest, -, -, rfl⟩ := threadExit_eq_ok.mp hs
  refine .switchTo h.initial ?_
  intro t ht
  by_cases hrunning : t = s.running
  · exact .inr hrunning
  · rw [exiting_thread_of_ne hrunning] at ht
    exact .inl (h.dying t ht)

theorem Ended.creating {priority : Int} {function : ThreadFunction} {pushed : List Action}
    (h : s.Ended) : (s.creating t priority function pushed).Ended := by
  have hnew : (s.modify t fun _ =>
      { priority := priority, magic := true, stack := startStack function }).Ended := by
    refine h.modify ?_
    intro _ hdying
    cases hdying
  have hlisted : ({ s.modify t fun _ =>
      { priority := priority, magic := true, stack := startStack function } with
    allList := s.allList ++ [t] } : Sched).Ended := ⟨hnew.initial, hnew.dying⟩
  exact hlisted.push pushed

end Sched

/-! ## The order of actions on a stack -/

/-- The call of `thread_unblock` for a new thread. -/
def Action.unblocksNew : Action → Bool
  | .createUnblock _ => true
  | _ => false

/-- A wait on a semaphore other than that of `tid_lock`. -/
def Action.waitsElsewhere : Action → Bool
  | .semaphoreDown s | .semaphoreRetest s _ => s ≠ .lock .tidLock
  | _ => false

/-- `thread_create` waits for `tid_lock` only, before its call of `thread_unblock`. -/
def Action.CreatesBefore (a b : Action) : Prop := b.unblocksNew = true → a.waitsElsewhere = false

theorem Conts.waitsElsewhere {a : Action} {pushed : List Action} (h : Conts a pushed)
    (ha : a.waitsElsewhere = false) : ∀ x ∈ pushed, x.waitsElsewhere = false := by
  cases h <;>
    simp [Action.waitsElsewhere, Kernel.lockAcquire, Kernel.lockRelease, Kernel.condvarSignal]
      at ha ⊢
  case down | retest => exact ha

namespace Kernel

variable {k k' : Kernel} {lab : Lab} {a : Action} {rest : List Action} {t : Tid} {e : Event}
  {init : Nat → Nat}

/-- The rule for an order of the actions on each stack. -/
theorem step_pairwise {R : Action → Action → Prop}
    (hlevel : ∀ a b, a.setsLevel = true → R a b)
    (hstart : ∀ function, (Sched.startStack function).Pairwise R)
    (hconts : ∀ {a pushed}, Conts a pushed → pushed.Pairwise R ∧ ∀ x ∈ pushed, ∀ b, R a b → R x b)
    (hbody : ∀ t op, (Op.body lab t op).Pairwise R) (h : k.sched.Inv) (he : k.Enabled e)
    (hk : k.step lab e = .ok k') (hP : ∀ t, (k.stack t).Pairwise R) :
    ∀ t, (k'.stack t).Pairwise R := by
  refine @step_stack_rule k k' lab (fun _ st => st.Pairwise R) (fun _ => .nil)
    (fun _ _ function _ => hstart function) ?_ ?_ e (fun t op _ => hbody t op) h he hk hP
  · intro t a st ha hst
    exact List.pairwise_cons.mpr ⟨fun b _ => hlevel a b ha, hst⟩
  · intro t a pushed rest hst hact
    obtain ⟨hhead, hrest⟩ := List.pairwise_cons.mp hst
    obtain ⟨hpushed, hrel⟩ := hconts hact
    exact List.pairwise_append.mpr ⟨hpushed, hrest, fun x hx b hb => hrel x hx b (hhead b hb)⟩

theorem step_creates (h : k.sched.Inv) (he : k.Enabled e) (hk : k.step lab e = .ok k')
    (hP : ∀ t, (k.stack t).Pairwise Action.CreatesBefore) :
    ∀ t, (k'.stack t).Pairwise Action.CreatesBefore := by
  have hnever : ∀ {st : List Action}, (∀ b ∈ st, b.unblocksNew = false) →
      st.Pairwise Action.CreatesBefore := by
    intro st hst
    refine List.pairwise_of_forall_mem_list fun a _ b hb hnew => ?_
    rw [hst b hb] at hnew
    cases hnew
  refine step_pairwise ?_ ?_ ?_ ?_ h he hk hP
  · intro a b ha _
    cases a <;> first | rfl | cases ha
  · intro function
    cases function <;> exact hnever (by simp [Sched.startStack, Action.unblocksNew])
  · intro a pushed hconts
    refine ⟨?_, ?_⟩
    · by_cases hcreate : ∃ t priority function, a = .threadCreate t priority function
      · obtain ⟨t, priority, function, rfl⟩ := hcreate
        cases hconts
        · exact .nil
        · simp [lockAcquire, lockRelease, Action.CreatesBefore, Action.unblocksNew,
            Action.waitsElsewhere]
      · refine hnever ?_
        cases hconts <;> simp [Action.unblocksNew, condvarSignal] at hcreate ⊢
    · exact fun x hx b hab hb => hconts.waitsElsewhere (hab hb) x hx
  · intro t op
    refine hnever fun b hb => ?_
    cases begins_of_mem hb <;> rfl

/-! ## Before the idle thread has started -/

/-- The idle thread is at its start until it has set `idle_thread`. -/
theorem Starting.idle_pending (h : k.Starting) (hb : k.BlockInv) :
    pending (k.stack 1) = [.idleStart, .semaphoreUp .idleStarted, .idleLoop] :=
  (hb.stackOk 1).idleStart h.idle

/-- The idle thread does not block before it has set `idle_thread`. -/
theorem Starting.idle_not_blocks (h : k.Starting) (hb : k.BlockInv) (hrunning : k.running = 1)
    (hstack : k.stack k.running = a :: rest) : ¬ k.BlocksAt a := by
  intro hblocks
  have hpending := h.idle_pending hb
  rw [← hrunning, hstack] at hpending
  cases ha : a.setsLevel with
  | true => cases a <;> first | (cases ha; done) | exact hblocks
  | false =>
    rw [pending_cons_of_not_setsLevel ha] at hpending
    obtain ⟨rfl, -⟩ := List.cons.inj hpending
    exact hblocks

/-- Nobody but `main` can have taken `tid_lock`. -/
theorem Starting.tidLock_value (h : k.Starting) (hb : k.BlockInv) (hlock : k.LockInv)
    (hfree : k.phase .tidLock 0 = .free) : (k.sema (.lock .tidLock)).value ≠ 0 := by
  have hnone : k.critical .tidLock = ∅ := by
    ext t
    rw [mem_critical]
    refine iff_of_false ?_ (Finset.notMem_empty t)
    rintro ⟨-, hphase⟩
    have hmagic : (k.thread t).magic = true := by
      by_contra hpage
      rw [Bool.not_eq_true] at hpage
      exact hphase (phase_of_free (hb.page t hpage) (hlock.free t hpage _))
    rcases h.pages t hmagic with rfl | rfl
    · exact hphase hfree
    · refine hphase ?_
      have hquiet : ∀ b ∈ k.stack 1, b.locking .tidLock = none := by
        intro b hmem
        rcases mem_pending hmem with hlevel | hmem
        · exact (locking_phasing _).level b hlevel
        · rw [h.idle_pending hb] at hmem
          simp only [List.mem_cons, List.not_mem_nil, or_false] at hmem
          rcases hmem with rfl | rfl | rfl <;> rfl
      rw [phase, phaseOf_of_none hquiet, hlock.tidLock]
      rfl
  have hcount := hlock.count .tidLock
  rw [hnone, Finset.card_empty] at hcount
  omega

/-- `main` does not block before it has made the idle thread ready. -/
theorem Starting.not_blocks_of_create (h : k.Starting) (hb : k.BlockInv) (hlock : k.LockInv)
    (hcreates : (k.stack 0).Pairwise Action.CreatesBefore) (hstack : k.stack 0 = a :: rest)
    (hcreate : .createUnblock 1 ∈ k.stack 0) : ¬ k.BlocksAt a := by
  have hboots := h.boots 0 a (by simp [hstack])
  have hother : ∀ s, (a = .semaphoreDown s ∨ ∃ old, a = .semaphoreRetest s old) →
      (k.sema s).value ≠ 0 := by
    intro s ha
    have hrest : .createUnblock 1 ∈ rest := by
      rw [hstack] at hcreate
      refine (List.mem_cons.mp hcreate).resolve_left ?_
      rintro rfl
      rcases ha with ha | ⟨_, ha⟩ <;> cases ha
    rw [hstack] at hcreates
    have hwaits := List.rel_of_pairwise_cons hcreates hrest rfl
    have hs : s = .lock .tidLock := by
      rcases ha with rfl | ⟨_, rfl⟩ <;> simpa [Action.waitsElsewhere] using hwaits
    subst hs
    refine h.tidLock_value hb hlock ?_
    rw [phase, hstack]
    rcases ha with rfl | ⟨_, rfl⟩ <;> exact phaseOf_cons_some rfl
  intro hblocks
  cases a
  case semaphoreDown s => exact hother s (.inl rfl) hblocks
  case semaphoreRetest s old => exact hother s (.inr ⟨old, rfl⟩) hblocks
  case idleLoop =>
    have hform := (hb.stackOk 0).idleLoop (by simp [hstack])
    have hmem := (mem_pending hcreate).resolve_left (by simp [Action.setsLevel])
    rcases hform with hform | hform | hform <;> rw [hform] at hmem <;> simp at hmem
  case threadBlock | sleepBlock => cases hboots
  all_goals exact hblocks

/-- What holds of the threads until the idle thread has set `idle_thread`. -/
structure StartInv (init : Nat → Nat) (k : Kernel) : Prop where
  status : k.sched.StatusInv
  ended : k.sched.Ended
  idle : IdleInv init k
  creates : ∀ t, (k.stack t).Pairwise Action.CreatesBefore
  ready : k.sched.idleThread = none → k = boot init ∨
    ((k.thread 1).status = .blocked → .createUnblock 1 ∈ k.stack 0)

/-- A thread that gives up the processor leaves another one to run. -/
theorem StartInv.hasNext (h : StartInv init k) (hb : k.BlockInv) (hlock : k.LockInv)
    (hstack : k.stack k.running = a :: rest) (ha : k.BlocksAt a ∨ a = .threadExit) :
    k.sched.HasNext := by
  cases hi : k.sched.idleThread with
  | some i => exact .inr ⟨i, hi, (hb.idle i hi).1⟩
  | none =>
    left
    have hne : k ≠ boot init := by
      rintro rfl
      cases hstack
      rcases ha with hno | hno
      · exact hno
      · cases hno
    have hs := (h.idle.resolve_left hne).starting hi
    have hboots := hs.boots k.running a (by simp [hstack])
    have hblocks : k.BlocksAt a := by
      refine ha.resolve_right ?_
      rintro rfl
      cases hboots
    have hrunning : k.running = 0 :=
      (hs.running hb.sched).resolve_right fun hone => hs.idle_not_blocks hb hone hstack hblocks
    -- `main` has made the idle thread ready, or is about to take `tid_lock`, which is free
    by_cases hcreate : .createUnblock 1 ∈ k.stack 0
    · exact absurd hblocks (hs.not_blocks_of_create hb hlock (h.creates 0) (hrunning ▸ hstack) hcreate)
    · have hstatus : (k.thread 1).status = .ready := by
        have hblocked := mt (((h.ready hi).resolve_left hne)) hcreate
        cases hst : (k.thread 1).status with
        | ready => rfl
        | blocked => exact absurd hst hblocked
        | running =>
          have hone := h.status.alone 1 hst
          rw [show k.sched.running = 0 from hrunning] at hone
          cases hone
        | dying => cases h.ended.dying 1 hst
      have hmem := (h.status.listed 1 hstatus).resolve_right (by rw [hi]; simp)
      exact List.ne_nil_of_mem hmem

/-! ## Every step -/

theorem exec_ended (hinv : k.sched.Inv) (h : k.sched.Ended) (hk : k.exec lab a = .ok k') :
    k'.sched.Ended := by
  have hboth : k'.sched.Inv ∧ k'.sched.Ended := by
    refine @exec_sched_rule k k' lab a (fun s => s.Inv ∧ s.Ended)
      (fun _ actions h => ⟨h.1.push actions, h.2.push actions⟩)
      (fun _ level h => ⟨h.1.setLevel level, h.2.initial, h.2.dying⟩)
      (fun _ _ h hs => ⟨h.1.threadBlock hs, h.2.threadBlock hs⟩)
      (fun _ _ h hs => ⟨h.1.threadYield hs, h.2.threadYield hs⟩)
      (fun _ _ _ h hs => ⟨h.1.threadUnblock hs, h.2.threadUnblock h.1.runningOk hs⟩)
      (fun _ _ h hs => ⟨h.1.threadExit hs, h.2.threadExit hs⟩)
      (fun _ _ _ _ _ h hfree => ⟨h.1.creating hfree, h.2.creating⟩) ?_ ?_ ?_ ⟨hinv, h⟩ hk
    · rintro - ⟨hs, hended⟩
      exact ⟨⟨⟨hs.magic, hs.status, hs.nodup⟩, hs.runningOk⟩, hended.initial, hended.dying⟩
    · rintro s total ⟨hs, hended⟩
      exact ⟨hs.modify (fun _ => rfl) (fun _ => rfl), hended.modify fun _ hdying => hdying⟩
    · rintro priority - ⟨hs, hended⟩
      exact ⟨hs.modify (fun _ => rfl) (fun _ => rfl), hended.modify fun _ hdying => hdying⟩
  exact hboth.2

theorem step_ended (hinv : k.sched.Inv) (h : k.sched.Ended) (he : k.Enabled e)
    (hk : k.step lab e = .ok k') : k'.sched.Ended := by
  cases e with
  | act =>
    obtain ⟨a, rest, hstack⟩ := List.exists_cons_of_ne_nil he
    rw [step_act hstack] at hk
    exact exec_ended hinv.pop h.pop hk
  | call op =>
    cases pure_eq_ok.mp hk
    exact h.push _
  | tick =>
    have hboth : k'.sched.Inv ∧ k'.sched.Ended := by
      refine @tick_sched_rule k k' lab (fun s => s.Inv ∧ s.Ended)
        (fun _ actions h => ⟨h.1.push actions, h.2.push actions⟩) ?_
        (fun _ _ h hs => ⟨h.1.threadYield hs, h.2.threadYield hs⟩)
        (fun _ _ _ h hs => ⟨h.1.threadUnblock hs, h.2.threadUnblock h.1.runningOk hs⟩) ⟨hinv, h⟩ hk
      rintro s level intr yield ticks ⟨hs, hended⟩
      exact ⟨⟨⟨hs.magic, hs.status, hs.nodup⟩, hs.runningOk⟩, hended.initial, hended.dying⟩
    exact hboth.2

/-- As long as the idle thread has not started, it is blocked only until `main` has made it ready. -/
theorem Starting.act_ready (h : k.Starting) (hb : k.BlockInv) (hi : k.sched.idleThread = none)
    (hready : (k.thread 1).status = .blocked → .createUnblock 1 ∈ k.stack 0)
    (hstack : k.stack k.running = a :: rest) (ha : a ≠ .idleStart) (hk : k.step lab .act = .ok k')
    (hblocked : (k'.thread 1).status = .blocked) : .createUnblock 1 ∈ k'.stack 0 := by
  have hboots := h.boots k.running a (by simp [hstack])
  have hplain : a.plain = true := by
    cases a <;> first | rfl | (cases hboots; done) | exact absurd rfl ha
  have hexec := hk
  rw [step_act hstack] at hexec
  obtain ⟨pushed, -, -, hmoves⟩ := exec_moves hb.sched.pop hplain hexec
  have hnone : some 1 ≠ k.popped.sched.idleThread := by simp [hi]
  have hstatus := (hmoves.blocked 1 hnone).mp hblocked
  split_ifs at hstatus with hone
  · exact absurd hstatus (h.idle_not_blocks hb hone.symm hstack)
  · have hrunning : k.running = 0 := (h.running hb.sched).resolve_right fun heq => hone heq.symm
    have hmem := hready ((popped_status 1).symm.trans hstatus.1)
    rw [← hrunning] at hmem ⊢
    rw [hstack] at hmem
    have hrest : .createUnblock 1 ∈ rest := by
      refine (List.mem_cons.mp hmem).resolve_left ?_
      rintro rfl
      exact hstatus.2 (List.mem_singleton.mpr rfl)
    obtain ⟨ns, pushed, -, -, heq, -⟩ := hb.act_running hstack hk
    rw [heq]
    exact List.mem_append_right _ hrest

theorem tick_ready (hinv : k.sched.Inv) (hi : k.sched.idleThread = none)
    (hready : (k.thread 1).status = .blocked → .createUnblock 1 ∈ k.stack 0)
    (hk : k.step lab .tick = .ok k') (hblocked : (k'.thread 1).status = .blocked) :
    .createUnblock 1 ∈ k'.stack 0 := by
  obtain ⟨woken, hw⟩ := intrHandler_ticked hinv hk
  have hstatus := (hw.moves.blocked 1 (by simp [hi])).mp hblocked
  split_ifs at hstatus
  obtain ⟨ns, -, heq⟩ := tick_stack hinv hk 0
  rw [heq]
  exact List.mem_append_right ns (hready hstatus.1)

/-- The first action of `main` creates the idle thread. -/
theorem boot_creates (he : (boot init).Enabled e) (hk : (boot init).step lab e = .ok k') :
    .createUnblock 1 ∈ k'.stack 0 := by
  have hstack : (boot init).stack (boot init).running = .threadCreate 1 priMin .idle ::
      [.intrSetLevel .on, .semaphoreDown .idleStarted] := rfl
  cases e with
  | tick => cases he
  | call op => cases he
  | act =>
    rw [step_act hstack] at hk
    rcases threadCreate_eq_ok.mp hk with ⟨hmagic, -⟩ | ⟨-, -, hcreated⟩
    · cases hmagic
    · have hmain : k'.stack 0 = lockAcquire .tidLock ++ lockRelease .tidLock ++ [.createUnblock 1] ++
          [.intrSetLevel .on, .semaphoreDown .idleStarted] := by
        rw [hcreated]
        rfl
      simp [hmain]

theorem StartInv.step (h : StartInv init k) (hb : k.BlockInv) (he : k.Enabled e)
    (hk : k.step lab e = .ok k') : StartInv init k' where
  status := step_statusInv h.status h.idle he hk
  ended := step_ended hb.sched h.ended he hk
  idle := h.idle.step hb he hk
  creates := step_creates hb.sched he hk h.creates
  ready hi' := by
    right
    intro hblocked
    by_cases hboot : k = boot init
    · subst hboot
      exact boot_creates he hk
    have hcreated := h.idle.resolve_left hboot
    have hready := fun hi => (h.ready hi).resolve_left hboot
    cases e with
    | act =>
      obtain ⟨a, rest, hstack⟩ := List.exists_cons_of_ne_nil he
      have hexec := hk
      rw [step_act hstack] at hexec
      rcases exec_idleThread hb.sched.pop hexec with ⟨heq, ha⟩ | ⟨heq, -⟩
      · have hi := heq.symm.trans hi'
        exact (hcreated.starting hi).act_ready hb hi (hready hi) hstack ha hk hblocked
      · rw [hi'] at heq
        cases heq
    | call op =>
      have hi : k.sched.idleThread = none := by
        cases pure_eq_ok.mp hk
        exact hi'
      exact absurd he ((hcreated.starting hi).stack_ne_nil hb.sched)
    | tick =>
      obtain ⟨woken, hw⟩ := intrHandler_ticked hb.sched hk
      have hi := hw.moves.idleThread.symm.trans hi'
      exact tick_ready hb.sched hi (hready hi) hk hblocked

theorem boot_startInv (init : Nat → Nat) : StartInv init (boot init) where
  status := boot_statusInv init
  ended := by
    refine ⟨rfl, ?_⟩
    intro t ht
    by_cases hzero : t = 0
    · exact hzero
    · simp [boot, hzero] at ht
  idle := .inl rfl
  creates t := by
    by_cases ht : t = 0 <;>
      simp [stack, boot, ht, threadStart, Action.CreatesBefore, Action.unblocksNew]
  ready _ := .inl rfl

end Kernel

end CSE130.Pintos
