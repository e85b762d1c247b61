import CSE130.Pintos.Phases
import CSE130.Pintos.SemaphoreCount

/-!
# Locks exclude each other

The position of a thread in `lock_acquire` and `lock_release` is read off its stack: it is free of
the lock, it has taken the semaphore, it owns the lock, or it has given up the ownership and not yet
the semaphore. The value of the semaphore of a lock plus the number of threads that are not free of
it is always 1, and the holder is the thread that owns the lock.
-/

namespace CSE130.Pintos

open CSE130.Library

/-- Where a thread is with respect to a lock. -/
inductive LockPhase where
  | free
  | taken
  | owner
  | cleared
  deriving DecidableEq, Repr

/-- The phases with respect to `l` before and after an action. The functions of a condition
variable are executed by the owner of its lock. -/
def Action.locking (l : LockId) : Action → Option (LockPhase × LockPhase)
  | .semaphoreDown (.lock l') | .semaphoreRetest (.lock l') _ =>
    if l' = l then some (.free, .taken) else none
  | .semaphoreUp (.lock l') => if l' = l then some (.cleared, .free) else none
  | .notHeldCheck l' => if l' = l then some (.free, .free) else none
  | .setHolder l' => if l' = l then some (.taken, .owner) else none
  | .heldCheck l' => if l' = l then some (.owner, .owner) else none
  | .clearHolder l' => if l' = l then some (.owner, .cleared) else none
  | .waitScan c | .waitInspect c _ | .waitNext c _ | .waitLink c _ | .waitReturn c
  | .signalWaiter c | .semaphoreUp (.waiter _ c) | .broadcast c =>
    if Kernel.condLock c = l then some (.owner, .owner) else none
  | .threadCreate _ _ _ => if .tidLock = l then some (.free, .free) else none
  | .threadExit => some (.free, .free)
  | _ => none

/-- The phase of a thread outside all calls. -/
def LockPhase.ofHeld (held : Bool) : LockPhase := if held then .owner else .free

theorem locking_phasing (l : LockId) : Phasing (Action.locking l) where
  level a ha := by
    cases a <;> first | rfl | cases ha
  startStack function := by
    cases function <;> simp [Sched.startStack, Action.locking]
  none := by
    intro a pushed hconts ha
    cases hconts
    case down s old | retest s old => cases s <;> simp_all [Action.locking]
    all_goals
      simp [Action.locking, Kernel.lockAcquire, Kernel.lockRelease, Kernel.condvarSignal] at ha ⊢
    all_goals exact ha
  some := by
    intro a pushed rest last before after hconts hpushed ha hrest hafter
    cases hconts
    case done => exact absurd rfl hpushed
    case down s old | retest s old =>
      have hretest : (Action.semaphoreRetest s old).locking l = some (before, after) := by
        cases s <;> exact ha
      exact ⟨(wellPhased_cons_some hretest).mpr ⟨hafter, hrest⟩, phaseOf_cons_some hretest⟩
    case create t priority function =>
      obtain ⟨rfl, rfl, rfl⟩ : .tidLock = l ∧ .free = before ∧ .free = after := by
        simpa [Action.locking] using ha
      simp [WellPhased, phaseOf, Action.locking, Kernel.lockAcquire, Kernel.lockRelease, hafter,
        hrest]
    all_goals first
      | cases ha
      | obtain ⟨rfl, rfl, rfl⟩ : Kernel.condLock _ = l ∧ .owner = before ∧ .owner = after := by
          simpa [Action.locking] using ha
        simp [WellPhased, phaseOf, Action.locking, Kernel.condvarSignal, hafter, hrest]

section Calls

variable {l : LockId}

/-- How the calls of a thread that leave it with the locks `held` may go on: in matched pairs, with
the lock of a condition variable held, and without a lock at the end. -/
def Op.respects (held : LockId → Bool) : Op → Prop
  | .lockAcquire n => held (.user n) = false
  | .lockRelease n => held (.user n) = true
  | .condvarWait c | .condvarSignal c | .condvarBroadcast c => held (Kernel.condLock c) = true
  | .threadExit => ∀ l, held l = false
  | _ => True

/-- The body of a function is in order with respect to a lock, and starts in the phase of the
calling thread. -/
theorem body_locked {lab : Lab} {t : Tid} {op : Op} {held : LockId → Bool}
    (hop : op.respects held) (htid : held .tidLock = false) :
    WellPhased (Action.locking l) (.ofHeld (Kernel.heldAfter op held l)) (op.body lab t) ∧
      phaseOf (Action.locking l) (.ofHeld (Kernel.heldAfter op held l)) (op.body lab t) =
        .ofHeld (held l) := by
  cases op
  case lockAcquire n | lockRelease n =>
    have hn := hop
    simp only [Op.respects] at hn
    by_cases hl : LockId.user n = l
    · subst hl
      simp [Op.body, Kernel.lockAcquire, Kernel.lockRelease, WellPhased, phaseOf, Action.locking,
        Kernel.heldAfter, LockPhase.ofHeld, hn]
    · simp [Op.body, Kernel.lockAcquire, Kernel.lockRelease, WellPhased, phaseOf, Action.locking,
        Kernel.heldAfter, hl, Ne.symm hl]
  case condvarWait c | condvarSignal c | condvarBroadcast c =>
    have hc : held (Kernel.condLock c) = true := hop
    by_cases hl : Kernel.condLock c = l
    · subst hl
      simp [Op.body, Kernel.condvarWait, Kernel.condvarSignal, Kernel.lockAcquire,
        Kernel.lockRelease, WellPhased, phaseOf, Action.locking, Kernel.heldAfter, LockPhase.ofHeld,
        hc]
    · simp [Op.body, Kernel.condvarWait, Kernel.condvarSignal, Kernel.lockAcquire,
        Kernel.lockRelease, WellPhased, phaseOf, Action.locking, Kernel.heldAfter, hl]
  case threadExit =>
    have hl : held l = false := hop l
    simp [Op.body, WellPhased, phaseOf, Action.locking, Kernel.heldAfter, LockPhase.ofHeld, hl]
  case threadCreate v priority =>
    by_cases hl : .tidLock = l
    · subst hl
      simp [Op.body, WellPhased, phaseOf, Action.locking, Kernel.heldAfter, LockPhase.ofHeld, htid]
    · simp [Op.body, WellPhased, phaseOf, Action.locking, Kernel.heldAfter, hl]
  case threadSetPriority priority =>
    cases lab <;> simp [Op.body, WellPhased, phaseOf, Action.locking, Kernel.heldAfter]
  all_goals simp [Op.body, WellPhased, phaseOf, Action.locking, Kernel.heldAfter]

/-- The actions on a lock other than the tests of its semaphore end in the phase in which they
start, if they leave anything to do. -/
theorem locking_goesOn {a : Action} {pushed : List Action} {before after : LockPhase}
    (hconts : Conts a pushed) (hpushed : pushed ≠ []) (ha : a.locking l = some (before, after))
    (hno : ∀ s, ¬ (a = .semaphoreDown s ∨ ∃ old, a = .semaphoreRetest s old)) :
    after = before := by
  cases hconts
  case done => exact absurd rfl hpushed
  case down s old => exact absurd (Or.inl rfl) (hno s)
  case retest s old => exact absurd (Or.inr ⟨old, rfl⟩) (hno s)
  all_goals
    simp [Action.locking] at ha
  all_goals exact ha.2.2.symm.trans ha.2.1

end Calls

namespace Kernel

variable {k k' : Kernel} {lab : Lab} {a : Action} {rest : List Action} {t : Tid} {l : LockId}

/-- The phase of thread `t` with respect to `l`. -/
def phase (k : Kernel) (l : LockId) (t : Tid) : LockPhase :=
  phaseOf (Action.locking l) (.ofHeld (k.held t l)) (k.stack t)

/-- The threads between the return of `semaphore_down` in `lock_acquire` and the `semaphore_up` in
`lock_release`. -/
def critical (k : Kernel) (l : LockId) : Finset Tid :=
  k.sched.allList.toFinset.filter fun t => k.phase l t ≠ .free

@[simp] theorem mem_critical : t ∈ k.critical l ↔ t ∈ k.sched.allList ∧ k.phase l t ≠ .free := by
  simp [critical]

/-- The invariant of the locks. -/
structure LockInv (k : Kernel) : Prop where
  wellLocked : ∀ t l, WellPhased (Action.locking l) (.ofHeld (k.held t l)) (k.stack t)
  free : ∀ t, (k.thread t).magic = false → ∀ l, k.held t l = false
  tidLock : ∀ t, k.held t .tidLock = false
  listed : ∀ t l, k.phase l t ≠ .free → t ∈ k.sched.allList
  count : ∀ l, (k.sema (.lock l)).value + (k.critical l).card = 1
  holder : ∀ l t, k.holder l = some t ↔ k.phase l t = .owner

/-- The threads use the locks in matched pairs. -/
def LockAdmits (k : Kernel) (e : Event) : Prop :=
  k.Admits e ∧ ∀ op, e = .call op → op.respects (k.held k.running)

theorem phase_of_free (hfree : k.stack t = []) (hheld : k.held t l = false) :
    k.phase l t = .free := by
  simp [phase, hfree, phaseOf, LockPhase.ofHeld, hheld]

/-- Who is critical is on `all_list`. -/
theorem exec_mem_allList (h : k.sched.Inv) (hk : k.exec lab a = .ok k')
    (ht : t ∈ k'.sched.allList) : t ∈ k.sched.allList ∨ (k.thread t).magic = false := by
  cases ha : a.plain with
  | true =>
    obtain ⟨pushed, -, -, hmoves⟩ := exec_moves h ha hk
    rw [hmoves.allList] at ht
    exact Or.inl ht
  | false =>
    cases a
    case threadCreate v priority function =>
      rcases threadCreate_eq_ok.mp hk with ⟨-, rfl⟩ | ⟨hfree, -, rfl⟩
      · exact Or.inl ht
      · rcases List.mem_append.mp ht with ht | ht
        · exact Or.inl ht
        · rw [List.mem_singleton.mp ht]
          exact Or.inr hfree
    case threadExit =>
      obtain ⟨s, hs, rfl⟩ := onSched_eq_ok.mp hk
      rw [show _ = _ from (h.threadExit_exits hs).allList] at ht
      exact Or.inl (List.mem_of_mem_erase ht)
    case idleStart =>
      obtain ⟨-, rfl⟩ := idleStart_eq_ok.mp hk
      exact Or.inl ht
    all_goals cases ha

theorem act_held (hstack : k.stack k.running = a :: rest) (hk : k.step lab .act = .ok k') :
    k'.held = k.held := by
  rw [step_act hstack] at hk
  exact (exec_framed hk).held

/-- The running thread after an action: it is in the phase that the action leads to, unless it has
blocked. -/
theorem act_phase_running (hblock : k.BlockInv) (h : k.LockInv)
    (hstack : k.stack k.running = a :: rest) (hk : k.step lab .act = .ok k') :
    WellPhased (Action.locking l) (.ofHeld (k'.held k.running l)) (k'.stack k.running) ∧
    ((∃ s, (a = .semaphoreDown s ∨ ∃ old, a = .semaphoreRetest s old) ∧ (k.sema s).value = 0) ∧
      k'.phase l k.running = k.phase l k.running ∨
    (∀ s, (a = .semaphoreDown s ∨ ∃ old, a = .semaphoreRetest s old) → (k.sema s).value ≠ 0) ∧
      (a.locking l = none → k'.phase l k.running = k.phase l k.running) ∧
      ∀ before after, a.locking l = some (before, after) → k.phase l k.running = before ∧
        k'.phase l k.running = after) := by
  have hwell := h.wellLocked k.running l
  obtain ⟨ns, pushed, hns, hconts, heq, hvalues⟩ := hblock.act_running hstack hk
  unfold phase
  rw [act_held hstack hk, heq, hstack]
  rw [hstack] at hwell
  obtain ⟨hwell', hsame, hafter⟩ := WellPhased.act (locking_phasing l) hwell hns hconts
  refine ⟨hwell', ?_⟩
  by_cases hblocked : ∃ s, (a = .semaphoreDown s ∨ ∃ old, a = .semaphoreRetest s old) ∧
      (k.sema s).value = 0
  · obtain ⟨s, ha, hvalue⟩ := hblocked
    have hpushed : pushed ≠ [] := fun hno => (hvalues s ha).mp hno hvalue
    exact Or.inl ⟨⟨s, ha, hvalue⟩, hsame (Or.inr hpushed)⟩
  · refine Or.inr ⟨fun s ha hvalue => hblocked ⟨s, ha, hvalue⟩, fun ha => hsame (Or.inl ha), ?_⟩
    intro before after ha
    refine ⟨phaseOf_cons_some ha, ?_⟩
    by_cases hpushed : pushed = []
    · exact hafter before after hpushed ha
    · rw [hsame (Or.inr hpushed), phaseOf_cons_some ha]
      refine (locking_goesOn hconts hpushed ha ?_).symm
      intro s hs
      exact hblocked ⟨s, hs, by simpa [hpushed] using hvalues s hs⟩

/-- The other threads keep their phases. -/
theorem act_phase_of_ne (hblock : k.BlockInv) (h : k.LockInv)
    (hstack : k.stack k.running = a :: rest) (hk : k.step lab .act = .ok k') (ht : t ≠ k.running) :
    WellPhased (Action.locking l) (.ofHeld (k'.held t l)) (k'.stack t) ∧
      k'.phase l t = k.phase l t := by
  unfold phase
  rw [act_held hstack hk]
  exact hblock.act_wellPhased_of_ne (locking_phasing l) hstack hk ht (h.wellLocked t l)

theorem act_critical_of_ne (hblock : k.BlockInv) (h : k.LockInv)
    (hstack : k.stack k.running = a :: rest) (hk : k.step lab .act = .ok k') (ht : t ≠ k.running) :
    t ∈ k'.critical l ↔ t ∈ k.critical l := by
  have hphase := (@act_phase_of_ne k k' lab a rest t l hblock h hstack hk ht).2
  rw [mem_critical, mem_critical, hphase]
  rw [step_act hstack] at hk
  constructor
  · rintro ⟨hmem, hne⟩
    refine ⟨?_, hne⟩
    rcases exec_mem_allList hblock.sched.pop hk hmem with hmem | hfree
    · exact hmem
    · rw [popped_magic] at hfree
      exact absurd (phase_of_free (hblock.page t hfree) (h.free t hfree l)) hne
  · rintro ⟨hmem, hne⟩
    exact ⟨exec_allList_mono hblock.sched.pop hk hmem fun _ => ht, hne⟩

theorem running_mem_critical (hblock : k.BlockInv) :
    k.running ∈ k.critical l ↔ k.phase l k.running ≠ .free := by
  rw [mem_critical]
  refine and_iff_right (hblock.listed k.running hblock.sched.runningOk.1 ?_)
  simp [hblock.sched.runningOk.2]

theorem act_running_mem_critical (hblock : k.BlockInv) (h : k.LockInv)
    (hstack : k.stack k.running = a :: rest) (hk : k.step lab .act = .ok k') :
    k.running ∈ k'.critical l ↔ k'.phase l k.running ≠ .free := by
  rw [mem_critical]
  refine and_iff_right_of_imp ?_
  intro hne
  have hexit : a ≠ .threadExit := by
    rintro rfl
    rcases (@act_phase_running k k' lab _ rest l hblock h hstack hk).2 with ⟨⟨s, ha, -⟩, -⟩ | ⟨-, -, hsome⟩
    · rcases ha with ha | ⟨_, ha⟩ <;> cases ha
    · exact hne (hsome _ _ rfl).2
  have hmem : k.running ∈ k.sched.allList :=
    hblock.listed k.running hblock.sched.runningOk.1 (by simp [hblock.sched.runningOk.2])
  rw [step_act hstack] at hk
  exact exec_allList_mono hblock.sched.pop hk hmem fun ha => absurd ha hexit

/-- The value of the semaphore of a lock under an action that does not concern it. -/
theorem act_lock_value (hblock : k.BlockInv) (hstack : k.stack k.running = a :: rest)
    (hk : k.step lab .act = .ok k')
    (hdown : ∀ s, (a = .semaphoreDown s ∨ ∃ old, a = .semaphoreRetest s old) →
      s ≠ .lock l ∨ (k.sema s).value = 0) (hup : a ≠ .semaphoreUp (.lock l)) :
    (k'.sema (.lock l)).value = (k.sema (.lock l)).value := by
  have hinit := (hblock.stackOk k.running).ok a (by simp [hstack])
  rw [step_act hstack] at hk
  rw [(exec_framed hk).sema]
  have hdowns : ∀ s, (a = .semaphoreDown s ∨ ∃ old, a = .semaphoreRetest s old) →
      (Function.update k.sema s (if (k.sema s).value = 0 then
        { (k.sema s) with waiters := k.popped.sched.enqueue lab (k.sema s).waiters k.running }
      else { (k.sema s) with value := (k.sema s).value - 1 }) (.lock l)).value =
      (k.sema (.lock l)).value := by
    intro s hs
    by_cases hsl : SemaId.lock l = s
    · subst hsl
      have hvalue := (hdown _ hs).resolve_left (fun hne => hne rfl)
      simp [hvalue]
    · rw [Function.update_of_ne hsl]
  cases a
  case semaphoreDown s => exact hdowns s (Or.inl rfl)
  case semaphoreRetest s old => exact hdowns s (Or.inr ⟨old, rfl⟩)
  case semaphoreUp s =>
    have hne : SemaId.lock l ≠ s := by
      rintro rfl
      exact hup rfl
    simp [semaAfter, hne]
  case semaphoreInit s value =>
    obtain ⟨c, rfl, -⟩ := hinit
    simp [semaAfter]
  all_goals rfl

theorem act_count_same (hblock : k.BlockInv) (h : k.LockInv)
    (hstack : k.stack k.running = a :: rest) (hk : k.step lab .act = .ok k')
    (hvalue : (k'.sema (.lock l)).value = (k.sema (.lock l)).value)
    (hphase : k'.phase l k.running = .free ↔ k.phase l k.running = .free) :
    (k'.sema (.lock l)).value + (k'.critical l).card = 1 := by
  have hcritical : k'.critical l = k.critical l := by
    ext t
    by_cases ht : t = k.running
    · subst ht
      rw [act_running_mem_critical hblock h hstack hk, running_mem_critical hblock, ne_eq, hphase]
    · exact act_critical_of_ne hblock h hstack hk ht
  rw [hvalue, hcritical]
  exact h.count l

/-- The actions that concern a lock: they take or give up its semaphore, or they start and end
outside the critical section, or inside it. -/
theorem locking_cases {before after : LockPhase} (ha : a.locking l = some (before, after)) :
    ((a = .semaphoreDown (.lock l) ∨ ∃ old, a = .semaphoreRetest (.lock l) old) ∧
      before = .free ∧ after = .taken) ∨
    (a = .semaphoreUp (.lock l) ∧ before = .cleared ∧ after = .free) ∨
    ((∀ s, ¬ (a = .semaphoreDown s ∨ ∃ old, a = .semaphoreRetest s old)) ∧
      a ≠ .semaphoreUp (.lock l) ∧ (after = .free ↔ before = .free)) := by
  have hother : ∀ {l' : LockId} {p : LockPhase × LockPhase},
      (if l' = l then some p else none) = some (before, after) → l' = l ∧ p = (before, after) := by
    intro l' p h
    split_ifs at h with heq
    cases h
    exact ⟨heq, rfl⟩
  cases a
  case semaphoreDown s | semaphoreRetest s old =>
    cases s
    case lock l' =>
      obtain ⟨rfl, hp⟩ := hother ha
      cases hp
      exact Or.inl ⟨by simp, rfl, rfl⟩
    all_goals cases ha
  case semaphoreUp s =>
    cases s
    case lock l' =>
      obtain ⟨rfl, hp⟩ := hother ha
      cases hp
      exact Or.inr (Or.inl ⟨rfl, rfl, rfl⟩)
    case waiter t c =>
      obtain ⟨-, hp⟩ := hother ha
      cases hp
      exact Or.inr (Or.inr ⟨by simp, by simp, by simp⟩)
    all_goals cases ha
  case threadExit =>
    cases ha
    exact Or.inr (Or.inr ⟨by simp, by simp, Iff.rfl⟩)
  all_goals first
    | cases ha
    | obtain ⟨-, hp⟩ := hother ha
      cases hp
      exact Or.inr (Or.inr ⟨by simp, by simp, by simp⟩)

/-- Only the assignments of `holder` change the owner. -/
theorem locking_owner {before after : LockPhase} (ha : a.locking l = some (before, after))
    (hset : a ≠ .setHolder l) (hclear : a ≠ .clearHolder l) : after = .owner ↔ before = .owner := by
  unfold Action.locking at ha
  split at ha
  all_goals try split_ifs at ha
  all_goals cases ha
  all_goals simp_all

/-- The semaphore of a lock and the critical threads add up to 1 after an action. -/
theorem LockInv.act_count (hblock : k.BlockInv) (h : k.LockInv)
    (hstack : k.stack k.running = a :: rest) (hk : k.step lab .act = .ok k') (l : LockId) :
    (k'.sema (.lock l)).value + (k'.critical l).card = 1 := by
  have hcount := h.count l
  have hne : ∀ t, t ≠ k.running → (t ∈ k'.critical l ↔ t ∈ k.critical l) :=
    fun t ht => act_critical_of_ne hblock h hstack hk ht
  have hsema : (k'.sema (.lock l)) = k.popped.semaAfter lab a (.lock l) := by
    have hk' := hk
    rw [step_act hstack] at hk'
    rw [(exec_framed hk').sema]
  rcases (@act_phase_running k k' lab a rest l hblock h hstack hk).2 with
    ⟨⟨s, ha, hvalue⟩, hphase⟩ | ⟨hvalues, hnone, hsome⟩
  · -- the thread has blocked
    refine act_count_same hblock h hstack hk (act_lock_value hblock hstack hk ?_ ?_) (by rw [hphase])
    · intro s' ha'
      have hs : s' = s := by
        rcases ha with rfl | ⟨old, rfl⟩ <;> rcases ha' with ha' | ⟨old', ha'⟩ <;> cases ha' <;> rfl
      rw [hs]
      exact Or.inr hvalue
    · rcases ha with rfl | ⟨old, rfl⟩ <;> simp
  · cases ha : a.locking l with
    | none =>
      refine act_count_same hblock h hstack hk (act_lock_value hblock hstack hk ?_ ?_)
        (by rw [hnone ha])
      · rintro s hs
        left
        rintro rfl
        rcases hs with rfl | ⟨old, rfl⟩ <;> simp [Action.locking] at ha
      · rintro rfl
        simp [Action.locking] at ha
    | some p =>
      obtain ⟨before, after⟩ := p
      obtain ⟨hbefore, hafter⟩ := hsome before after ha
      have hin := @act_running_mem_critical k k' lab a rest l hblock h hstack hk
      have hwas := @running_mem_critical k l hblock
      rw [hafter] at hin
      rw [hbefore] at hwas
      rcases locking_cases ha with ⟨hdown, rfl, rfl⟩ | ⟨rfl, rfl, rfl⟩ | ⟨hdown, hup, hfree⟩
      · -- the thread enters
        have hpos := hvalues _ hdown
        have hvalue : (k'.sema (.lock l)).value = (k.sema (.lock l)).value - 1 := by
          rw [hsema]
          rcases hdown with rfl | ⟨old, rfl⟩ <;> simp [semaAfter, hpos]
        have hcritical : k'.critical l = insert k.running (k.critical l) := by
          ext t
          by_cases ht : t = k.running
          · simp only [ht, Finset.mem_insert_self, iff_true]
            exact hin.mpr (by decide)
          · rw [hne t ht, Finset.mem_insert]
            exact (or_iff_right ht).symm
        have hnot : k.running ∉ k.critical l := fun hmem => (hwas.mp hmem) rfl
        rw [hcritical, Finset.card_insert_of_notMem hnot, hvalue]
        omega
      · -- the thread leaves
        have hmem : k.running ∈ k.critical l := hwas.mpr (by decide)
        have hpos := Finset.card_pos.mpr ⟨_, hmem⟩
        have hvalue : (k'.sema (.lock l)).value = 1 := by
          have hzero : (k.sema (.lock l)).value = 0 := by omega
          rw [hsema]
          simp [semaAfter, hzero]
        have hcritical : k'.critical l = (k.critical l).erase k.running := by
          ext t
          by_cases ht : t = k.running
          · rw [ht]
            exact iff_of_false (fun hno => hin.mp hno rfl) (Finset.notMem_erase _ _)
          · rw [hne t ht, Finset.mem_erase]
            exact (and_iff_right ht).symm
        rw [hcritical, Finset.card_erase_of_mem hmem, hvalue]
        omega
      · refine act_count_same hblock h hstack hk (act_lock_value hblock hstack hk ?_ hup) ?_
        · exact fun s hs => absurd hs (hdown s)
        · rw [hafter, hbefore, hfree]

/-- At most one thread is critical. -/
theorem LockInv.unique (h : k.LockInv) {u : Tid} (ht : k.phase l t ≠ .free)
    (hu : k.phase l u ≠ .free) : t = u := by
  have hcard : (k.critical l).card ≤ 1 := by
    have hcount := h.count l
    omega
  exact Finset.card_le_one.mp hcard t (mem_critical.mpr ⟨h.listed t l ht, ht⟩) u
    (mem_critical.mpr ⟨h.listed u l hu, hu⟩)

theorem LockInv.act_holder (hblock : k.BlockInv) (h : k.LockInv)
    (hstack : k.stack k.running = a :: rest) (hk : k.step lab .act = .ok k') (l : LockId) (t : Tid) :
    k'.holder l = some t ↔ k'.phase l t = .owner := by
  have hholder : k'.holder l = k.popped.holderAfter a l := by
    have hk' := hk
    rw [step_act hstack] at hk'
    rw [(exec_framed hk').holder]
  have hother : ∀ u, u ≠ k.running → k'.phase l u = k.phase l u :=
    fun u hu => (act_phase_of_ne hblock h hstack hk hu).2
  obtain ⟨-, hrunning⟩ := @act_phase_running k k' lab a rest l hblock h hstack hk
  have hsame : k'.holder l = k.holder l →
      (k'.phase l k.running = .owner ↔ k.phase l k.running = .owner) →
      (k'.holder l = some t ↔ k'.phase l t = .owner) := by
    intro hl hphase
    rw [hl, h.holder]
    by_cases ht : t = k.running
    · rw [ht, hphase]
    · rw [hother t ht]
  by_cases hset : a = .setHolder l
  · subst hset
    rcases hrunning with ⟨⟨s, ha, -⟩, -⟩ | ⟨-, -, hsome⟩
    · rcases ha with ha | ⟨_, ha⟩ <;> cases ha
    obtain ⟨hbefore, hafter⟩ := hsome .taken .owner (by simp [Action.locking])
    have hl : k'.holder l = some k.running := by
      simp only [hholder, holderAfter, Function.update_self]
      rfl
    rw [hl]
    constructor
    · rintro ⟨⟩
      exact hafter
    · intro howner
      by_cases ht : t = k.running
      · rw [ht]
      · rw [hother t ht] at howner
        exact congrArg some (@LockInv.unique k k.running l h t (by simp [hbefore]) (by simp [howner]))
  by_cases hclear : a = .clearHolder l
  · subst hclear
    rcases hrunning with ⟨⟨s, ha, -⟩, -⟩ | ⟨-, -, hsome⟩
    · rcases ha with ha | ⟨_, ha⟩ <;> cases ha
    obtain ⟨hbefore, hafter⟩ := hsome .owner .cleared (by simp [Action.locking])
    have hl : k'.holder l = none := by simp [hholder, holderAfter]
    rw [hl]
    refine iff_of_false (by simp) ?_
    intro howner
    by_cases ht : t = k.running
    · rw [ht, hafter] at howner
      cases howner
    · rw [hother t ht] at howner
      exact ht (@LockInv.unique k t l h k.running (by simp [howner]) (by simp [hbefore]))
  have hl : k'.holder l = k.holder l := by
    rw [hholder]
    cases a
    case setHolder l' =>
      refine Function.update_of_ne ?_ _ _
      rintro rfl
      exact hset rfl
    case clearHolder l' =>
      refine Function.update_of_ne ?_ _ _
      rintro rfl
      exact hclear rfl
    all_goals rfl
  refine hsame hl ?_
  rcases hrunning with ⟨-, hphase⟩ | ⟨-, hnone, hsome⟩
  · rw [hphase]
  · cases ha : a.locking l with
    | none => rw [hnone ha]
    | some p =>
      obtain ⟨before, after⟩ := p
      obtain ⟨hbefore, hafter⟩ := hsome before after ha
      rw [hbefore, hafter]
      exact locking_owner ha hset hclear

theorem LockInv.act_free (hblock : k.BlockInv) (h : k.LockInv)
    (hstack : k.stack k.running = a :: rest) (hk : k.step lab .act = .ok k')
    (hfree : (k'.thread t).magic = false) (l : LockId) : k'.held t l = false := by
  have hrunning := (@act_phase_running k k' lab a rest l hblock h hstack hk).2
  have hempty := act_page hblock hstack hk hfree
  rw [step_act hstack] at hk
  have hheld : k'.held = k.held := (exec_framed hk).held
  rcases exec_magic hblock.sched.pop hk t with hmagic | ⟨rfl, rfl, -⟩ | ⟨_, _, -, -, hmagic, -⟩
  · rw [hmagic, popped_magic] at hfree
    rw [hheld]
    exact h.free t hfree l
  · rcases hrunning with ⟨⟨s, ha, -⟩, -⟩ | ⟨-, -, hsome⟩
    · rcases ha with ha | ⟨_, ha⟩ <;> cases ha
    · have hphase := (hsome .free .free rfl).2
      rw [phase, show k'.stack k.running = [] from hempty] at hphase
      cases howned : k'.held k.running l with
      | false => exact howned
      | true =>
        rw [howned] at hphase
        cases hphase
  · rw [hmagic] at hfree
    cases hfree

/-- An action keeps the invariant of the locks. -/
theorem LockInv.act (hblock : k.BlockInv) (h : k.LockInv)
    (hstack : k.stack k.running = a :: rest) (hk : k.step lab .act = .ok k') : k'.LockInv where
  wellLocked t l := by
    by_cases ht : t = k.running
    · rw [ht]
      exact (act_phase_running hblock h hstack hk).1
    · exact (act_phase_of_ne hblock h hstack hk ht).1
  free t hfree l := h.act_free hblock hstack hk hfree l
  tidLock t := by
    rw [step_act hstack] at hk
    rw [(exec_framed hk).held]
    exact h.tidLock t
  listed t l hphase := by
    by_cases ht : t = k.running
    · subst ht
      exact (mem_critical.mp ((act_running_mem_critical hblock h hstack hk).mpr hphase)).1
    · have hsame := (@act_phase_of_ne k k' lab a rest t l hblock h hstack hk ht).2
      have hmem : t ∈ k.critical l := by
        rw [hsame] at hphase
        exact mem_critical.mpr ⟨h.listed t l hphase, hphase⟩
      exact (mem_critical.mp ((act_critical_of_ne hblock h hstack hk ht).mpr hmem)).1
  count l := h.act_count hblock hstack hk l
  holder l t := h.act_holder hblock hstack hk l t

/-- A step in which no thread changes its phase and no semaphore its value. -/
theorem LockInv.quiet (h : k.LockInv)
    (hwell : ∀ t l, WellPhased (Action.locking l) (.ofHeld (k'.held t l)) (k'.stack t))
    (hfree : ∀ t, (k'.thread t).magic = false → ∀ l, k'.held t l = false)
    (htid : ∀ t, k'.held t .tidLock = false) (hphase : ∀ l t, k'.phase l t = k.phase l t)
    (hall : k'.sched.allList = k.sched.allList) (hsema : k'.sema = k.sema)
    (hholder : k'.holder = k.holder) : k'.LockInv := by
  refine ⟨hwell, hfree, htid, ?_, ?_, ?_⟩
  · intro t l
    rw [hphase, hall]
    exact h.listed t l
  · intro l
    have hcritical : k'.critical l = k.critical l := by
      ext t
      rw [mem_critical, mem_critical, hphase, hall]
    rw [hsema, hcritical]
    exact h.count l
  · intro l t
    rw [hholder, hphase]
    exact h.holder l t

theorem LockInv.call {op : Op} (hblock : k.BlockInv) (h : k.LockInv)
    (hempty : k.stack k.running = []) (hop : op.respects (k.held k.running))
    (hk : k.step lab (.call op) = .ok k') : k'.LockInv := by
  have hstep := hk
  cases pure_eq_ok.mp hk
  have hself : (k.sched.push (op.body lab k.running)).thread k.running =
      { k.thread k.running with stack := op.body lab k.running ++ k.stack k.running } := by
    simp
  have hother : ∀ t, t ≠ k.running →
      (k.sched.push (op.body lab k.running)).thread t = k.thread t := by
    intro t ht
    simp [ht]
  have hbody := fun l => @body_locked l lab k.running op _ hop (h.tidLock k.running)
  have htid : heldAfter op (k.held k.running) .tidLock = k.held k.running .tidLock := by
    cases op <;> simp [heldAfter]
  refine h.quiet ?_ ?_ ?_ ?_ rfl rfl rfl
  · intro t l
    by_cases ht : t = k.running
    · subst ht
      simp only [stack, hself, hempty, List.append_nil, Function.update_self]
      exact (hbody l).1
    · simp only [stack, hother t ht, Function.update_of_ne ht]
      exact h.wellLocked t l
  · intro t hfree l
    by_cases ht : t = k.running
    · subst ht
      simp only [thread, hself] at hfree
      rw [show (k.thread k.running).magic = true from hblock.sched.runningOk.1] at hfree
      cases hfree
    · simp only [thread, hother t ht] at hfree
      simp only [Function.update_of_ne ht]
      exact h.free t hfree l
  · intro t
    by_cases ht : t = k.running
    · subst ht
      simp only [Function.update_self, htid]
      exact h.tidLock _
    · simp only [Function.update_of_ne ht]
      exact h.tidLock t
  · intro l t
    unfold phase
    by_cases ht : t = k.running
    · subst ht
      simp only [stack, hself, hempty, List.append_nil, Function.update_self]
      exact (hbody l).2
    · simp only [stack, hother t ht, Function.update_of_ne ht]

theorem LockInv.tick {woken : List Tid} (h : k.LockInv) (hw : Ticked woken k k') : k'.LockInv := by
  have hquiet : ∀ t l, WellPhased (Action.locking l) (.ofHeld (k'.held t l)) (k'.stack t) ∧
      k'.phase l t = k.phase l t := by
    intro t l
    unfold phase
    rw [hw.held]
    exact quiet_wellPhased (locking_phasing l) hw.moves (h.wellLocked t l)
  refine h.quiet (fun t l => (hquiet t l).1) ?_ ?_ (fun l t => (hquiet t l).2) hw.moves.allList
    hw.sema hw.holder
  · intro t hfree l
    rw [hw.held]
    exact h.free t ((hw.moves.magic t).symm.trans hfree) l
  · intro t
    rw [hw.held]
    exact h.tidLock t

theorem boot_lockInv (init : Nat → Nat) : (boot init).LockInv := by
  have hstack : ∀ t, (boot init).stack t = if t = 0 then threadStart else [] := by
    intro t
    by_cases ht : t = 0 <;> simp [stack, boot, ht]
  have hphase : ∀ l t, (boot init).phase l t = .free := by
    intro l t
    rw [phase, hstack]
    split_ifs
    · by_cases hl : .tidLock = l <;>
        simp [threadStart, phaseOf, Action.locking, LockPhase.ofHeld, hl, boot]
    · rfl
  refine ⟨?_, fun _ _ _ => rfl, fun _ => rfl, ?_, ?_, ?_⟩
  · intro t l
    rw [hstack]
    split_ifs
    · by_cases hl : .tidLock = l <;>
        simp [threadStart, WellPhased, phaseOf, Action.locking, LockPhase.ofHeld, hl, boot]
    · trivial
  · intro t l hno
    exact absurd (hphase l t) hno
  · intro l
    have hnone : (boot init).critical l = ∅ := by
      ext t
      simp [hphase]
    rw [hnone]
    rfl
  · intro l t
    rw [hphase]
    simp [boot]

theorem LockInv.step {e : Event} (hblock : k.BlockInv) (hawake : k.AwakeInv) (h : k.LockInv)
    (he : k.LockAdmits e) (hk : k.step lab e = .ok k') : k'.LockInv := by
  cases e with
  | act =>
    obtain ⟨a, rest, hstack⟩ := List.exists_cons_of_ne_nil he.1.1
    exact h.act hblock hstack hk
  | call op => exact h.call hblock he.1.1 (he.2 op rfl) hk
  | tick => exact h.tick (intrHandler_ticked_nil hblock.sched hawake.timerList hk).1

theorem reachable_lockInv {init : Nat → Nat}
    (hr : Reachable (Kernel.step lab) LockAdmits (boot init) k) : k.BlockInv ∧ k.LockInv := by
  refine @Reachable.invariant _ _ _ (Kernel.step lab) LockAdmits (boot init)
    (fun k => k.BlockInv ∧ k.LockInv) ⟨boot_blockInv init, boot_lockInv init⟩ ?_ k hr
  intro k e k' hr h he hk
  have hawake := (reachable_blockInv (hr.mono fun _ _ he => he.1)).2
  exact ⟨h.1.step hawake he.1 hk, h.2.step h.1 hawake he hk⟩

/-- The assertion of `lock_release` does not fail. -/
theorem LockInv.heldCheck_succeeds (h : k.LockInv) (hblock : k.BlockInv)
    (hstack : k.stack k.running = .heldCheck l :: rest) : ∃ k', k.step lab .act = .ok k' := by
  have howner : k.phase l k.running = .owner := by
    have hlocking : (Action.heldCheck l).locking l = some (.owner, .owner) := by
      simp [Action.locking]
    rw [phase, hstack]
    exact phaseOf_cons_some hlocking
  have hholder := (h.holder _ _).mpr howner
  have hheld : k.popped.lockHeldByCurrentThread l = .ok true := by
    refine lockHeldByCurrentThread_eq_ok.mpr ⟨hblock.sched.pop.runningOk, ?_⟩
    exact (decide_eq_true (show k.holder l = some k.running from hholder)).symm
  refine ⟨k.popped, ?_⟩
  rw [step_act hstack, exec, hheld]
  rfl

/-- The assertion of `lock_acquire` does not fail. -/
theorem LockInv.notHeldCheck_succeeds (h : k.LockInv) (hblock : k.BlockInv)
    (hstack : k.stack k.running = .notHeldCheck l :: rest) : ∃ k', k.step lab .act = .ok k' := by
  have hfree : k.phase l k.running = .free := by
    have hlocking : (Action.notHeldCheck l).locking l = some (.free, .free) := by
      simp [Action.locking]
    rw [phase, hstack]
    exact phaseOf_cons_some hlocking
  have hholder : k.holder l ≠ some k.running := by
    intro hholder
    rw [(h.holder _ _).mp hholder] at hfree
    cases hfree
  have hheld : k.popped.lockHeldByCurrentThread l = .ok false := by
    refine lockHeldByCurrentThread_eq_ok.mpr ⟨hblock.sched.pop.runningOk, ?_⟩
    exact (decide_eq_false hholder).symm
  refine ⟨k.popped, ?_⟩
  rw [step_act hstack, exec, hheld]
  rfl

/-- At most one thread is between the return of `semaphore_down` in `lock_acquire` and the
`semaphore_up` in `lock_release`, the value of the semaphore and the number of these threads add up
to 1, the holder is such a thread or `NULL`, and the assertion of `lock_release` does not fail. -/
theorem lock_mutual_exclusion {init : Nat → Nat} (n : Nat)
    (hr : Reachable (Kernel.step .lab2) LockAdmits (boot init) k) :
    (∀ t u, k.phase (.user n) t ≠ .free → k.phase (.user n) u ≠ .free → t = u) ∧
    (∀ t, k.phase (.user n) t ≠ .free → t ∈ k.critical (.user n)) ∧
    (k.sema (.lock (.user n))).value + (k.critical (.user n)).card = 1 ∧
    (∀ t, k.holder (.user n) = some t → k.phase (.user n) t ≠ .free) ∧
    ((k.stack k.running).head? = some (.heldCheck (.user n)) →
      ∃ k', k.step .lab2 .act = .ok k') := by
  obtain ⟨hblock, h⟩ := reachable_lockInv hr
  refine ⟨fun t u => h.unique, ?_, h.count _, ?_, ?_⟩
  · intro t ht
    exact mem_critical.mpr ⟨h.listed t _ ht, ht⟩
  · intro t ht
    rw [(h.holder _ t).mp ht]
    decide
  · intro hhead
    obtain ⟨a, rest, hstack⟩ : ∃ a rest, k.stack k.running = a :: rest := by
      cases hst : k.stack k.running with
      | nil => simp [hst] at hhead
      | cons a rest => exact ⟨a, rest, rfl⟩
    rw [hstack, List.head?_cons] at hhead
    cases hhead
    exact h.heldCheck_succeeds hblock hstack

/-- A test that an event is admitted; it leaves out `thread_exit`. -/
def lockAdmits (k : Kernel) (e : Event) : Bool :=
  decide (k.Admits e) &&
    match e with
    | .call (.lockAcquire n) => !k.held k.running (.user n)
    | .call (.lockRelease n) => k.held k.running (.user n)
    | .call (.condvarWait c) | .call (.condvarSignal c) | .call (.condvarBroadcast c) =>
      k.held k.running (condLock c)
    | .call .threadExit => false
    | _ => true

theorem lockAdmits_of_eq_true {e : Event} (h : k.lockAdmits e = true) : k.LockAdmits e := by
  obtain ⟨hadmits, hlock⟩ := Bool.and_eq_true_iff.mp h
  refine ⟨of_decide_eq_true hadmits, ?_⟩
  rintro op rfl
  cases op <;> simp_all [Op.respects]

/-- The state after a sequence of events from boot, all of them in runs that use the locks in
matched pairs. -/
def runLocked (lab : Lab) (init : Nat → Nat) (events : List Event) : Option Kernel :=
  run (Kernel.step lab) lockAdmits (boot init) events

theorem reachable_of_runLocked {init : Nat → Nat} {events : List Event}
    (h : runLocked lab init events = some k) :
    Reachable (Kernel.step lab) LockAdmits (boot init) k :=
  reachable_of_run (fun _ _ => lockAdmits_of_eq_true) .start h

/-- A run in which a thread waits for a lock: `main` acquires it, and a new thread of a higher
priority tries to. -/
def acquireByOther : List Event :=
  starting ++ Event.call (.lockAcquire 0) :: List.replicate 4 Event.act ++
    Event.call (.threadCreate 2 40) :: List.replicate 9 Event.act ++
    Event.act :: Event.call (.lockAcquire 0) :: List.replicate 5 Event.act ++
    [Event.call (.lockRelease 0)]

theorem lock_mutual_exclusion_acquireByOther : ∃ k,
    runLocked .lab2 (fun _ => 0) acquireByOther = some k ∧
    (k.stack k.running).head? = some (.heldCheck (.user 0)) ∧
    (k.sema (.lock (.user 0))).value + (k.critical (.user 0)).card = 1 ∧
    ∃ k', k.step .lab2 .act = .ok k' := by
  have hrun : (runLocked .lab2 (fun _ => 0) acquireByOther).map
      (fun k => (k.stack k.running).head?) = some (some (.heldCheck (.user 0))) := by
    decide +kernel
  obtain ⟨k, hk, hhead⟩ := Option.map_eq_some_iff.mp hrun
  obtain ⟨-, -, hcount, -, hassert⟩ := lock_mutual_exclusion 0 (reachable_of_runLocked hk)
  exact ⟨k, hk, hhead, hcount, hassert hhead⟩

end Kernel

end CSE130.Pintos
