import CSE130.Pintos.Mutex

/-!
# Condition variables lose no signal

The calls of `condvar_wait` that a thread has made on a condition variable, the signals that it has
been given, the decrements of its private semaphore and its returns are counted in the trace. The
counts agree up to where the thread is in `condvar_wait`, whether its waiter is on the list, and
whether the semaphore has been incremented for its signal.
-/

namespace CSE130.Pintos

open CSE130.Library

/-- Where a thread is in `condvar_wait`: outside, before it has put its waiter on the list, before
its `semaphore_down` has decremented the private semaphore, or behind that. -/
inductive WaitPhase where
  | outside
  | entering
  | queued
  | passed
  deriving DecidableEq, Repr

/-- The phases with respect to `c` before and after an action. -/
def Action.waiting (c : CondId) : Action → Option (WaitPhase × WaitPhase)
  | .semaphoreInit (.waiter _ c') _ => if c' = c then some (.outside, .entering) else none
  | .waitScan c' | .waitInspect c' _ | .waitNext c' _ | .waitLink c' _ =>
    if c' = c then some (.entering, .queued) else none
  | .semaphoreDown (.waiter _ c') | .semaphoreRetest (.waiter _ c') _ =>
    if c' = c then some (.queued, .passed) else none
  | .waitReturn c' => if c' = c then some (.passed, .outside) else none
  | _ => none

theorem waiting_phasing (c : CondId) : Phasing (Action.waiting c) where
  level a ha := by
    cases a <;> first | rfl | cases ha
  startStack function := by
    cases function <;> simp [Sched.startStack, Action.waiting]
  none := by
    intro a pushed hconts ha
    cases hconts
    case down s old | retest s old => cases s <;> simp_all [Action.waiting]
    all_goals
      simp [Action.waiting, Kernel.lockAcquire, Kernel.lockRelease, Kernel.condvarSignal] at ha ⊢
    all_goals exact ha
  some := by
    intro a pushed rest last before after hconts hpushed ha hrest hafter
    have hone : ∀ b, b.waiting c = some (before, after) →
        WellPhased (Action.waiting c) last ([b] ++ rest) ∧
          phaseOf (Action.waiting c) last ([b] ++ rest) = before :=
      fun b hb => ⟨(wellPhased_cons_some hb).mpr ⟨hafter, hrest⟩, phaseOf_cons_some hb⟩
    cases hconts
    case done => exact absurd rfl hpushed
    case down s old | retest s old =>
      refine hone _ ?_
      cases s <;> exact ha
    all_goals first
      | cases ha
      | exact hone _ ha

/-- The body of a function starts outside `condvar_wait`. -/
theorem body_waiting {lab : Lab} {t : Tid} {op : Op} {c : CondId} :
    WellPhased (Action.waiting c) .outside (op.body lab t) ∧
      phaseOf (Action.waiting c) .outside (op.body lab t) = .outside := by
  cases op
  case condvarWait c' =>
    by_cases hc : c' = c <;>
      simp [Op.body, Kernel.condvarWait, Kernel.lockAcquire, Kernel.lockRelease, WellPhased, phaseOf,
        Action.waiting, hc]
  case threadSetPriority priority =>
    cases lab <;> simp [Op.body, WellPhased, phaseOf, Action.waiting]
  all_goals
    simp [Op.body, Kernel.condvarSignal, Kernel.lockAcquire, Kernel.lockRelease, WellPhased, phaseOf,
      Action.waiting]

/-- The actions that are executed before everything else on the stack of their thread, except for
the setting of the interrupt level. -/
def Action.topmost : Action → Bool
  | .waitInspect _ _ | .waitNext _ _ | .waitLink _ _ | .semaphoreUp (.waiter _ _) => true
  | _ => false

def TopOk (st : List Action) : Prop := ∀ a ∈ (pending st).tail, a.topmost = false

theorem pending_tail_subset (st : List Action) : (pending st).tail ⊆ st.tail := by
  intro a ha
  induction st with
  | nil => exact ha
  | cons b st ih =>
    cases hb : b.setsLevel with
    | true =>
      rw [pending_cons_of_setsLevel hb] at ha
      exact List.mem_of_mem_tail (ih ha)
    | false =>
      rw [pending_cons_of_not_setsLevel hb] at ha
      exact ha

theorem TopOk.head {st : List Action} {a : Action} (h : TopOk st) (ha : a.topmost = true)
    (hmem : a ∈ st) : ∃ tl, pending st = a :: tl := by
  rcases mem_pending hmem with hlevel | hmem
  · cases a <;> first | (cases ha; done) | cases hlevel
  · cases hst : pending st with
    | nil =>
      rw [hst] at hmem
      cases hmem
    | cons b tl =>
      rw [hst] at hmem
      rcases List.mem_cons.mp hmem with rfl | hmem
      · exact ⟨tl, rfl⟩
      · have hno := h a (by rw [hst]; exact hmem)
        rw [ha] at hno
        cases hno

theorem Conts.tail_topmost {a : Action} {pushed : List Action} (h : Conts a pushed) :
    ∀ b ∈ pushed.tail, b.topmost = false := by
  cases h <;> simp [Action.topmost, Kernel.lockAcquire, Kernel.lockRelease, Kernel.condvarSignal]

theorem TopOk.act {a : Action} {pushed rest : List Action} (h : TopOk (a :: rest))
    (hconts : Conts a pushed) : TopOk (pushed ++ rest) := by
  intro b hb
  cases ha : a.setsLevel with
  | true =>
    obtain rfl := hconts.eq_nil ha
    exact h b (by rwa [pending_cons_of_setsLevel ha])
  | false =>
    have hrest : ∀ b ∈ rest, b.topmost = false := by
      intro b hb
      exact h b (by rwa [pending_cons_of_not_setsLevel ha])
    have hmem := pending_tail_subset _ hb
    cases pushed with
    | nil => exact hrest b (List.mem_of_mem_tail hmem)
    | cons b' pushed =>
      rcases List.mem_append.mp hmem with hmem | hmem
      · exact hconts.tail_topmost b hmem
      · exact hrest b hmem

theorem body_topmost {lab : Lab} {t : Tid} {op : Op} :
    ∀ b ∈ op.body lab t, b.topmost = false := by
  intro b hb
  cases begins_of_mem hb <;> rfl

theorem TopOk.of_topmost {st : List Action} (h : ∀ b ∈ st, b.topmost = false) : TopOk st :=
  fun b hb => h b (List.mem_of_mem_tail (pending_tail_subset st hb))

/-- A note says something about thread `t` on `c`. -/
def Note.concerns (c : CondId) (t : Tid) : Note → Bool
  | .enqueue c' t' | .signal c' t' | .waitReturn c' t' => c' = c ∧ t' = t
  | .down s _ => s = .waiter t c
  | _ => false

theorem Note.concerns_of_isDown {c : CondId} {t : Tid} {n : Note}
    (h : n.isDown (.waiter t c) = true) : n.concerns c t = true := by
  cases n with
  | down s u => exact h
  | _ => cases h

/-! ## The account of a thread -/

/-- The counts of one thread on one condition variable: `E` insertions of its waiter, `S` signals,
`R` returns of `condvar_wait` and `D` decrements of its semaphore, the value `V` of the semaphore,
how often the waiter is on the list (`n`), and whether the semaphore is still to be incremented for
a signal (`P`). -/
structure Balanced (phase : WaitPhase) (E S R D V n : Nat) (P : Prop) : Prop where
  enqueues : E = R + if phase = .queued ∨ phase = .passed then 1 else 0
  downs : D = R + if phase = .passed then 1 else 0
  signals : E = S + n
  posting : P → S = D + V + 1
  posted : ¬ P → S = D + V

section Balanced

variable {phase : WaitPhase} {E S R D V n : Nat} {P : Prop}

/-- Of the insertions, at most one has not been followed by a decrement. -/
theorem Balanced.le (h : Balanced phase E S R D V n P) : E ≤ D + 1 ∧ D ≤ S ∧ S ≤ E := by
  obtain ⟨hE, hD, hS, hP, hnP⟩ := h
  refine ⟨?_, ?_, by omega⟩
  · split_ifs at hE <;> split_ifs at hD <;> omega
  · by_cases hp : P
    · have hposting := hP hp
      omega
    · have hposted := hnP hp
      omega

theorem Balanced.init (h : Balanced .outside E S R D V n P) :
    V = 0 ∧ Balanced .entering E S R D 0 n P := by
  have hzero : V = 0 := by
    have hle := h.le
    obtain ⟨hE, hD, -, hP, hnP⟩ := h
    simp at hE hD
    by_cases hp : P
    · have hposting := hP hp
      omega
    · have hposted := hnP hp
      omega
  subst hzero
  exact ⟨rfl, ⟨by simpa using h.enqueues, by simpa using h.downs, h.signals, h.posting, h.posted⟩⟩

theorem Balanced.enqueue (h : Balanced .entering E S R D V n P) :
    Balanced .queued (E + 1) S R D V (n + 1) P := by
  obtain ⟨hE, hD, hS, hP, hnP⟩ := h
  refine ⟨by simpa using hE, by simpa using hD, by omega, hP, hnP⟩

/-- A thread whose waiter is on the list has not been signalled since it put the waiter there. -/
theorem Balanced.signal (h : Balanced phase E S R D V (n + 1) P) :
    ¬ P ∧ Balanced phase E (S + 1) R D V n True := by
  have hle := h.le
  obtain ⟨hE, hD, hS, hP, hnP⟩ := h
  have hp : ¬ P := by
    intro hp
    have hposting := hP hp
    omega
  have hposted := hnP hp
  exact ⟨hp, ⟨hE, hD, by omega, fun _ => by omega, fun hno => absurd trivial hno⟩⟩

theorem Balanced.up (h : Balanced phase E S R D V n P) (hp : P) :
    V = 0 ∧ Balanced phase E S R D 1 n False := by
  have hle := h.le
  obtain ⟨hE, hD, hS, hP, -⟩ := h
  have hposting := hP hp
  exact ⟨by omega, ⟨hE, hD, hS, False.elim, fun _ => by omega⟩⟩

theorem Balanced.down (h : Balanced .queued E S R D V n P) (hV : V ≠ 0) :
    Balanced .passed E S R (D + 1) (V - 1) n P := by
  have hle := h.le
  obtain ⟨hE, hD, hS, hP, hnP⟩ := h
  refine ⟨by simpa using hE, by simpa using hD, hS, ?_, ?_⟩
  · intro hp
    have hposting := hP hp
    omega
  · intro hp
    have hposted := hnP hp
    omega

theorem Balanced.waitReturn (h : Balanced .passed E S R D V n P) :
    Balanced .outside E S (R + 1) D V n P := by
  obtain ⟨hE, hD, hS, hP, hnP⟩ := h
  exact ⟨by simpa using hE, by simpa using hD, hS, hP, hnP⟩

end Balanced

namespace Kernel

variable {k k' : Kernel} {lab : Lab} {a : Action} {rest ns pushed : List Action} {t u : Tid}
  {c : CondId}

/-- How often `t` has put its waiter on the list of `c`. -/
def enqueues (k : Kernel) (c : CondId) (t : Tid) : Nat := k.trace.count (.enqueue c t)

/-- How often a signal has taken the waiter of `t` off the list of `c`. -/
def signals (k : Kernel) (c : CondId) (t : Tid) : Nat := k.trace.count (.signal c t)

/-- How often `condvar_wait` on `c` has returned in `t`. -/
def returns (k : Kernel) (c : CondId) (t : Tid) : Nat := k.trace.count (.waitReturn c t)

/-- The phase of `t` with respect to `c`. -/
def waitPhase (k : Kernel) (c : CondId) (t : Tid) : WaitPhase :=
  phaseOf (Action.waiting c) .outside (k.stack t)

/-- A signal has taken the waiter of `t` off the list of `c`, and still has to increment its
semaphore. -/
def Posting (k : Kernel) (c : CondId) (t : Tid) : Prop :=
  ∃ u, .semaphoreUp (.waiter t c) ∈ k.stack u

/-- The counts of `t` on `c` agree. -/
def Account (k : Kernel) (c : CondId) (t : Tid) : Prop :=
  Balanced (k.waitPhase c t) (k.enqueues c t) (k.signals c t) (k.returns c t)
    (k.downs (.waiter t c)) (k.sema (.waiter t c)).value ((k.waiters c).count t) (k.Posting c t)

/-- The invariant of the condition variables. A thread in the loop of `semaphore_down` on a private
semaphore is blocked exactly while the value is 0. -/
structure CondInv (k : Kernel) : Prop where
  wellWaiting : ∀ t c, WellPhased (Action.waiting c) .outside (k.stack t)
  top : ∀ t, TopOk (k.stack t)
  account : ∀ c t, k.Account c t
  asleep : ∀ t c old, (k.stack t).head? = some (.semaphoreRetest (.waiter t c) old) →
    ((k.thread t).status = .blocked ↔ (k.sema (.waiter t c)).value = 0)

/-- The account in terms of what a step adds to the trace. -/
theorem account_of_trace {notes : List Note} (htrace : k'.trace = notes ++ k.trace)
    (h : Balanced (k'.waitPhase c t) (k.enqueues c t + notes.count (.enqueue c t))
      (k.signals c t + notes.count (.signal c t)) (k.returns c t + notes.count (.waitReturn c t))
      (k.downs (.waiter t c) + notes.countP (Note.isDown (.waiter t c)))
      (k'.sema (.waiter t c)).value ((k'.waiters c).count t) (k'.Posting c t)) :
    k'.Account c t := by
  unfold Account enqueues signals returns downs
  rw [htrace]
  simp only [List.count_append, List.countP_append]
  unfold enqueues signals returns downs at h
  simpa only [Nat.add_comm] using h

/-- A thread that is to increment a private semaphore owns the lock. -/
theorem owner_of_topmost {st : List Action} {held : Bool} (h : TopOk st) (ha : a.topmost = true)
    (hmem : a ∈ st) (hlocking : a.locking (condLock c) = some (.owner, .owner)) :
    phaseOf (Action.locking (condLock c)) (.ofHeld held) st = .owner := by
  obtain ⟨tl, htl⟩ := h.head ha hmem
  have hsplit : ∃ ns, LevelOnly ns ∧ st = ns ++ a :: tl := by
    refine ⟨st.takeWhile Action.setsLevel, ?_, ?_⟩
    · intro b hb
      exact List.all_eq_true.mp List.all_takeWhile b hb
    · rw [← htl]
      exact (List.takeWhile_append_dropWhile).symm
  obtain ⟨ns, hns, rfl⟩ := hsplit
  rw [phaseOf_append_none ((locking_phasing _).levelOnly hns), phaseOf_cons_some hlocking]

/-- The private semaphores that are still to be incremented after an action. -/
theorem act_posting (hblock : k.BlockInv) (hlock : k.LockInv) (h : k.CondInv)
    (hstack : k.stack k.running = a :: rest) (hk : k.step lab .act = .ok k') (hns : LevelOnly ns)
    (heq : k'.stack k.running = ns ++ pushed ++ rest) :
    k'.Posting c t ↔ .semaphoreUp (.waiter t c) ∈ pushed ∨
      k.Posting c t ∧ a ≠ .semaphoreUp (.waiter t c) := by
  have hrest : a = .semaphoreUp (.waiter t c) → .semaphoreUp (.waiter t c) ∉ rest := by
    rintro rfl hmem
    have htop := h.top k.running
    rw [hstack] at htop
    have hno := htop (.semaphoreUp (.waiter t c)) (by rwa [pending_cons_of_not_setsLevel rfl])
    cases hno
  have howner : ∀ v, .semaphoreUp (.waiter t c) ∈ k.stack v → k.phase (condLock c) v = .owner :=
    fun v hv => owner_of_topmost (h.top v) rfl hv (by simp [Action.locking])
  constructor
  · rintro ⟨v, hv⟩
    by_cases hvr : v = k.running
    · subst hvr
      rw [heq] at hv
      rcases List.mem_append.mp hv with hv | hv
      · rcases List.mem_append.mp hv with hv | hv
        · cases hns _ hv
        · exact Or.inl hv
      · exact Or.inr ⟨⟨k.running, by simp [hstack, hv]⟩, fun ha => hrest ha hv⟩
    · rcases hblock.act_other hstack hk hvr with hsame | ⟨-, -, function, hnew⟩
      · rw [hsame] at hv
        refine Or.inr ⟨⟨v, hv⟩, ?_⟩
        rintro rfl
        have hrunning := howner k.running (by simp [hstack])
        have hother := howner v hv
        exact hvr (@LockInv.unique k v (condLock c) hlock k.running (by simp [hother])
          (by simp [hrunning]))
      · rw [hnew] at hv
        cases function <;> simp [Sched.startStack] at hv
  · rintro (hmem | ⟨⟨v, hv⟩, ha⟩)
    · exact ⟨k.running, by simp [heq, hmem]⟩
    · by_cases hvr : v = k.running
      · subst hvr
        rw [hstack] at hv
        refine ⟨k.running, ?_⟩
        rw [heq]
        exact List.mem_append_right _ ((List.mem_cons.mp hv).resolve_left (Ne.symm ha))
      · rcases hblock.act_other hstack hk hvr with hsame | ⟨-, hempty, -⟩
        · exact ⟨v, by rwa [hsame]⟩
        · rw [hempty] at hv
          cases hv

/-- The phases after an action. -/
theorem act_waitPhase (hblock : k.BlockInv) (h : k.CondInv)
    (hstack : k.stack k.running = a :: rest) (hk : k.step lab .act = .ok k') (hns : LevelOnly ns)
    (hconts : Conts a pushed) (heq : k'.stack k.running = ns ++ pushed ++ rest) :
    (∀ c t, WellPhased (Action.waiting c) .outside (k'.stack t)) ∧
    (∀ c t, t ≠ k.running ∨ a.waiting c = none ∨ pushed ≠ [] →
      k'.waitPhase c t = k.waitPhase c t) ∧
    ∀ c before after, a.waiting c = some (before, after) → k.waitPhase c k.running = before ∧
      (pushed = [] → k'.waitPhase c k.running = after) := by
  have hact := fun c => WellPhased.act (waiting_phasing c)
    (show WellPhased _ .outside (a :: rest) from hstack ▸ h.wellWaiting k.running c) hns hconts
  have hother := fun c t (ht : t ≠ k.running) =>
    hblock.act_wellPhased_of_ne (waiting_phasing c) hstack hk ht (h.wellWaiting t c)
  refine ⟨?_, ?_, ?_⟩
  · intro c t
    by_cases ht : t = k.running
    · rw [ht, heq]
      exact (hact c).1
    · exact (hother c t ht).1
  · intro c t hcases
    by_cases ht : t = k.running
    · subst ht
      have hsame := (hact c).2.1 (hcases.resolve_left (fun hno => hno rfl))
      rw [waitPhase, waitPhase, heq, hstack]
      exact hsame
    · exact (hother c t ht).2
  · intro c before after ha
    refine ⟨?_, ?_⟩
    · rw [waitPhase, hstack]
      exact phaseOf_cons_some ha
    · intro hpushed
      rw [waitPhase, heq]
      exact (hact c).2.2 before after hpushed ha

/-- A step that does not concern `t` on `c`. -/
theorem Account.quiet {notes : List Note} (h : k.Account c t) (htrace : k'.trace = notes ++ k.trace)
    (hnotes : ∀ n ∈ notes, n.concerns c t = false)
    (hphase : k'.waitPhase c t = k.waitPhase c t)
    (hvalue : (k'.sema (.waiter t c)).value = (k.sema (.waiter t c)).value)
    (hcount : (k'.waiters c).count t = (k.waiters c).count t)
    (hposting : k'.Posting c t ↔ k.Posting c t) : k'.Account c t := by
  have hzero : ∀ n, n.concerns c t = true → notes.count n = 0 := by
    intro n hn
    refine List.count_eq_zero.mpr fun hmem => ?_
    rw [hnotes n hmem] at hn
    cases hn
  have hdowns : notes.countP (Note.isDown (.waiter t c)) = 0 := by
    refine List.countP_eq_zero.mpr fun n hmem hdown => ?_
    have hno := hnotes n hmem
    rw [Note.concerns_of_isDown hdown] at hno
    cases hno
  refine account_of_trace htrace ?_
  rw [hzero _ (by simp [Note.concerns]), hzero _ (by simp [Note.concerns]),
    hzero _ (by simp [Note.concerns]), hdowns, hphase, hvalue, hcount, propext hposting]
  exact h

section Act

variable (hblock : k.BlockInv) (hlock : k.LockInv) (h : k.CondInv)
  (hstack : k.stack k.running = a :: rest) (hk : k.step lab .act = .ok k')

include hstack hk in
theorem act_framed : Framed lab a k.popped k' := by
  rw [step_act hstack] at hk
  exact exec_framed hk

include hblock hlock h hstack hk in
/-- An action leaves the account of `t` on `c` alone if it neither concerns it nor is an action of
`t` on `c`. -/
theorem act_account_quiet (hnotes : ∀ n ∈ k.popped.notesOf a, n.concerns c t = false)
    (hwait : t ≠ k.running ∨ a.waiting c = none ∨ a.goesOn = true)
    (hsema : (k.popped.semaAfter lab a (.waiter t c)).value = (k.sema (.waiter t c)).value)
    (hwaiters : (k.popped.waitersAfter a c).count t = (k.waiters c).count t)
    (ha : ∀ c', a ≠ .signalWaiter c') (hup : a ≠ .semaphoreUp (.waiter t c)) : k'.Account c t := by
  obtain ⟨ns, pushed, hns, hconts, heq, -⟩ := hblock.act_running hstack hk
  obtain ⟨-, hsame, -⟩ := act_waitPhase hblock h hstack hk hns hconts heq
  have hpost := @act_posting k k' lab a rest ns pushed t c hblock hlock h hstack hk hns heq
  have hframed := act_framed hstack hk
  refine (h.account c t).quiet hframed.trace hnotes ?_ (by rw [hframed.sema, hsema])
    (by rw [hframed.waiters, hwaiters]) ?_
  · refine hsame c t (hwait.imp_right (Or.imp_right fun hgoes => ?_))
    rintro rfl
    cases hconts
    rename_i hno
    rw [hgoes] at hno
    cases hno
  · have hpushed : .semaphoreUp (.waiter t c) ∉ pushed := by
      intro hmem
      cases hconts <;> simp [lockAcquire, lockRelease, condvarSignal] at hmem
      exact ha _ rfl
    rw [hpost]
    simp [hpushed, hup]

include hblock hlock h hstack hk in
/-- An action that moves the running thread to another phase on `c`, and puts nothing on its stack,
keeps the account of the thread if it keeps its counts balanced. -/
theorem act_account_own (before after : WaitPhase) (hns : LevelOnly ns) (hconts : Conts a [])
    (heq : k'.stack k.running = ns ++ [] ++ rest) (hwaiting : a.waiting c = some (before, after))
    (hbalanced :
      Balanced before (k.enqueues c k.running) (k.signals c k.running) (k.returns c k.running)
        (k.downs (.waiter k.running c)) (k.sema (.waiter k.running c)).value
        ((k.waiters c).count k.running) (k.Posting c k.running) →
      Balanced after
        (k.enqueues c k.running + (k.popped.notesOf a).count (.enqueue c k.running))
        (k.signals c k.running + (k.popped.notesOf a).count (.signal c k.running))
        (k.returns c k.running + (k.popped.notesOf a).count (.waitReturn c k.running))
        (k.downs (.waiter k.running c) +
          (k.popped.notesOf a).countP (Note.isDown (.waiter k.running c)))
        (k.popped.semaAfter lab a (.waiter k.running c)).value
        ((k.popped.waitersAfter a c).count k.running) (k.Posting c k.running)) :
    k'.Account c k.running := by
  obtain ⟨-, -, hphases⟩ := act_waitPhase hblock h hstack hk hns hconts heq
  obtain ⟨hbefore, hafter⟩ := hphases c before after hwaiting
  have hposting : k'.Posting c k.running ↔ k.Posting c k.running := by
    have hup : a ≠ .semaphoreUp (.waiter k.running c) := by
      rintro rfl
      cases hwaiting
    simp [act_posting hblock hlock h hstack hk hns heq, hup]
  have hframed := act_framed hstack hk
  have hacc := h.account c k.running
  rw [Account, hbefore] at hacc
  refine account_of_trace hframed.trace ?_
  rw [hafter rfl, hframed.sema, hframed.waiters, propext hposting]
  exact hbalanced hacc

end Act

/-- An action that is one of waiting on `c'` only, seen from another thread or condition variable. -/
theorem waiting_elsewhere {c' : CondId} (hcase : ¬ (t = k.running ∧ c = c'))
    (hother : c' ≠ c → a.waiting c = none) :
    t ≠ k.running ∨ a.waiting c = none ∨ a.goesOn = true := by
  by_cases hc : c' = c
  · exact Or.inl fun ht => hcase ⟨ht, hc.symm⟩
  · exact Or.inr (Or.inl (hother hc))

theorem act_account_waitLink {c' : CondId} {before : Option Tid} (hblock : k.BlockInv)
    (hlock : k.LockInv) (h : k.CondInv) (hstack : k.stack k.running = .waitLink c' before :: rest)
    (hk : k.step lab .act = .ok k') : k'.Account c t := by
  by_cases hcase : t = k.running ∧ c = c'
  · obtain ⟨rfl, rfl⟩ := hcase
    obtain ⟨ns, pushed, hns, hconts, heq, -⟩ := hblock.act_running hstack hk
    obtain rfl : pushed = [] := by
      cases hconts
      rfl
    have hcount : (k.popped.waitersAfter (.waitLink c before) c).count k.running =
        (k.waiters c).count k.running + 1 := by
      simp only [waitersAfter, Function.update_self, (insertBefore_perm _ _ _).count_eq]
      exact List.count_cons_self
    refine act_account_own hblock hlock h hstack hk .entering .queued hns hconts heq
      (by simp [Action.waiting]) fun hacc => ?_
    rw [hcount]
    simpa [notesOf, semaAfter, Note.isDown, show k.popped.running = k.running from rfl]
      using hacc.enqueue
  · refine act_account_quiet hblock hlock h hstack hk ?_ ?_ rfl ?_ (by simp) (by simp)
    · simp only [notesOf, List.mem_singleton, forall_eq, Note.concerns, decide_eq_false_iff_not]
      rintro ⟨hc, ht⟩
      exact hcase ⟨ht.symm, hc.symm⟩
    · exact waiting_elsewhere hcase fun hc => by simp [Action.waiting, hc]
    · by_cases hc : c = c'
      · subst hc
        have ht : k.popped.running ≠ t := fun heq => hcase ⟨heq.symm, rfl⟩
        simp only [waitersAfter, Function.update_self, (insertBefore_perm _ _ _).count_eq]
        exact List.count_cons_of_ne ht
      · simp only [waitersAfter, Function.update_of_ne hc]

theorem act_account_signalWaiter {c' : CondId} (hblock : k.BlockInv) (hlock : k.LockInv)
    (h : k.CondInv) (hstack : k.stack k.running = .signalWaiter c' :: rest)
    (hk : k.step lab .act = .ok k') : k'.Account c t := by
  have hframed := act_framed hstack hk
  obtain ⟨ns, pushed, hns, hconts, heq, -⟩ := hblock.act_running hstack hk
  obtain ⟨-, hsame, -⟩ := act_waitPhase hblock h hstack hk hns hconts heq
  have hphase : k'.waitPhase c t = k.waitPhase c t := hsame c t (Or.inr (Or.inl rfl))
  have hstep := hk
  rw [step_act hstack] at hstep
  have hk' : k.popped.signalWaiter c' = k' := pure_eq_ok.mp hstep
  have hsema : k'.sema = k.sema := hframed.sema
  have hwaiters : k'.waiters = Function.update k.waiters c' (k.waiters c').tail := hframed.waiters
  have htrace : k'.trace = (k.waiters c').head?.toList.map (.signal c') ++ k.trace := hframed.trace
  have hrest : k.popped.stack k.running = rest := popped_stack_running hstack
  unfold signalWaiter at hk'
  rw [show k.popped.waiters c' = k.waiters c' from rfl] at hk'
  cases hw : k.waiters c' with
  | nil =>
    -- the list is empty, and nothing happens
    rw [hw] at hk' hwaiters htrace
    have hposting : k'.Posting c t ↔ k.Posting c t := by
      have heq' : k'.stack k.running = [] ++ [] ++ rest := by
        rw [← hk', hrest]
        rfl
      simp [act_posting hblock hlock h hstack hk (by simp [LevelOnly]) heq']
    refine (h.account c t).quiet htrace (by simp) hphase (by rw [hsema]) ?_ hposting
    by_cases hc : c = c'
    · rw [hwaiters, hc, Function.update_self, hw]
      rfl
    · rw [hwaiters, Function.update_of_ne hc]
  | cons w ws =>
    rw [hw] at hk' hwaiters htrace
    have hposting : k'.Posting c t ↔ (t = w ∧ c = c') ∨ k.Posting c t := by
      have heq' : k'.stack k.running = [] ++ [.semaphoreUp (.waiter w c')] ++ rest := by
        rw [← hk', ← hrest]
        simp [push, note, setWaiters, stack]
      simp [act_posting hblock hlock h hstack hk (by simp [LevelOnly]) heq']
    by_cases hcase : t = w ∧ c = c'
    · obtain ⟨rfl, rfl⟩ := hcase
      have hacc := h.account c t
      rw [Account, hw, List.count_cons_self] at hacc
      refine account_of_trace htrace ?_
      rw [hphase, hsema, hwaiters, propext hposting]
      simpa [Note.isDown] using hacc.signal.2
    · refine (h.account c t).quiet htrace ?_ hphase (by rw [hsema]) ?_ ?_
      · simp only [List.head?_cons, Option.toList_some, List.map_cons, List.map_nil,
          List.mem_singleton, forall_eq, Note.concerns, decide_eq_false_iff_not]
        rintro ⟨hc, ht⟩
        exact hcase ⟨ht.symm, hc.symm⟩
      · by_cases hc : c = c'
        · subst hc
          have ht : w ≠ t := fun heq => hcase ⟨heq.symm, rfl⟩
          rw [hwaiters, Function.update_self, hw, List.count_cons_of_ne ht]
          rfl
        · rw [hwaiters, Function.update_of_ne hc]
      · simp [hposting, hcase]

/-- To decrement a semaphore that no waiter on `c` has is no part of waiting on `c`. -/
theorem waiting_eq_none_of_down {s : SemaId}
    (ha : a = .semaphoreDown s ∨ ∃ old, a = .semaphoreRetest s old) (hs : ∀ u, s ≠ .waiter u c) :
    a.waiting c = none := by
  have hother : ∀ u c', s = .waiter u c' → c' ≠ c := by
    rintro u c' rfl rfl
    exact hs u rfl
  rcases ha with rfl | ⟨old, rfl⟩
  · cases s with
    | waiter u c' => exact if_neg (hother u c' rfl)
    | _ => rfl
  · cases s with
    | waiter u c' => exact if_neg (hother u c' rfl)
    | _ => rfl

theorem act_account_down {s : SemaId} (hblock : k.BlockInv) (hlock : k.LockInv) (h : k.CondInv)
    (hstack : k.stack k.running = a :: rest) (hk : k.step lab .act = .ok k')
    (ha : a = .semaphoreDown s ∨ ∃ old, a = .semaphoreRetest s old) : k'.Account c t := by
  have hframed := act_framed hstack hk
  obtain ⟨ns, pushed, hns, hconts, heq, hvalues⟩ := hblock.act_running hstack hk
  obtain ⟨-, hsame, -⟩ := act_waitPhase hblock h hstack hk hns hconts heq
  have hpushed : .semaphoreUp (.waiter t c) ∉ pushed := by
    rcases ha with rfl | ⟨old, rfl⟩ <;> cases hconts <;> simp
  have hup : a ≠ .semaphoreUp (.waiter t c) := by
    rcases ha with rfl | ⟨old, rfl⟩ <;> simp
  have hposting : k'.Posting c t ↔ k.Posting c t := by
    simp [act_posting hblock hlock h hstack hk hns heq, hpushed, hup]
  have htrace : k'.trace =
      (if (k.sema s).value = 0 then [] else [.down s k.running]) ++ k.trace := by
    rw [hframed.trace]
    rcases ha with rfl | ⟨old, rfl⟩ <;> rfl
  have hsema : k'.sema (.waiter t c) = Function.update k.sema s
      (if (k.sema s).value = 0 then
        { (k.sema s) with waiters := k.popped.sched.enqueue lab (k.sema s).waiters k.running }
      else { (k.sema s) with value := (k.sema s).value - 1 }) (.waiter t c) := by
    rw [hframed.sema]
    rcases ha with rfl | ⟨old, rfl⟩ <;> rfl
  have hwaiters : k'.waiters = k.waiters := by
    rw [hframed.waiters]
    rcases ha with rfl | ⟨old, rfl⟩ <;> rfl
  by_cases hvalue : (k.sema s).value = 0
  · -- the thread blocks
    simp only [hvalue, if_true] at htrace hsema
    refine (h.account c t).quiet htrace (by simp) (hsame c t ?_) ?_ (by rw [hwaiters]) hposting
    · exact Or.inr (Or.inr fun hno => (hvalues s ha).mp hno hvalue)
    · rw [hsema]
      by_cases hs : SemaId.waiter t c = s
      · subst hs
        rw [Function.update_self]
        exact hvalue.symm
      · rw [Function.update_of_ne hs]
  · simp only [hvalue, if_false] at htrace hsema
    by_cases hs : SemaId.waiter t c = s
    · subst hs
      have hown : t = k.running := by
        have hok := (hblock.stackOk k.running).ok a (by simp [hstack])
        rcases ha with rfl | ⟨old, rfl⟩ <;> exact hok t c rfl
      subst hown
      have hwaiting : a.waiting c = some (.queued, .passed) := by
        rcases ha with rfl | ⟨old, rfl⟩ <;> simp [Action.waiting]
      obtain rfl : pushed = [] := (hvalues _ ha).mpr hvalue
      refine act_account_own hblock hlock h hstack hk .queued .passed hns hconts heq hwaiting
        fun hacc => ?_
      rcases ha with rfl | ⟨old, rfl⟩ <;>
        simpa [notesOf, semaAfter, waitersAfter, hvalue, Note.isDown] using hacc.down hvalue
    · refine (h.account c t).quiet htrace ?_ (hsame c t ?_) ?_ (by rw [hwaiters]) hposting
      · simpa [Note.concerns] using Ne.symm hs
      · by_cases hc : ∃ u, s = .waiter u c
        · obtain ⟨u, rfl⟩ := hc
          left
          rintro rfl
          have hok := (hblock.stackOk k.running).ok a (by simp [hstack])
          refine hs ?_
          rcases ha with rfl | ⟨old, rfl⟩ <;> rw [hok u c rfl]
        · right
          left
          exact waiting_eq_none_of_down ha fun u hu => hc ⟨u, hu⟩
      · rw [hsema, Function.update_of_ne hs]

theorem act_account_up {s : SemaId} (hblock : k.BlockInv) (hlock : k.LockInv) (h : k.CondInv)
    (hstack : k.stack k.running = .semaphoreUp s :: rest) (hk : k.step lab .act = .ok k') :
    k'.Account c t := by
  by_cases hs : SemaId.waiter t c = s
  · subst hs
    obtain ⟨ns, pushed, hns, hconts, heq, -⟩ := hblock.act_running hstack hk
    obtain rfl : pushed = [] := by
      cases hconts
      rfl
    obtain ⟨-, hsame, -⟩ := act_waitPhase hblock h hstack hk hns hconts heq
    have hposting : k'.Posting c t ↔ False := by
      simp [act_posting hblock hlock h hstack hk hns heq]
    have hframed := act_framed hstack hk
    have htrace : k'.trace = [.up (.waiter t c)] ++ k.trace := hframed.trace
    have hacc : k.Account c t := h.account c t
    obtain ⟨hzero, hbalanced⟩ := Balanced.up hacc ⟨k.running, by simp [hstack]⟩
    refine account_of_trace htrace ?_
    rw [hsame c t (Or.inr (Or.inl rfl)), hframed.sema, hframed.waiters, propext hposting]
    simpa [semaAfter, waitersAfter, hzero, Note.isDown] using hbalanced
  · refine act_account_quiet hblock hlock h hstack hk (by simp [notesOf, Note.concerns])
      (Or.inr (Or.inl rfl)) ?_ rfl (by simp) ?_
    · simp only [semaAfter, Function.update_of_ne hs]
    · intro hno
      cases hno
      exact hs rfl

theorem act_account_init {s : SemaId} {value : Nat} (hblock : k.BlockInv) (hlock : k.LockInv)
    (h : k.CondInv) (hstack : k.stack k.running = .semaphoreInit s value :: rest)
    (hk : k.step lab .act = .ok k') : k'.Account c t := by
  obtain ⟨c', rfl, rfl⟩ := (hblock.stackOk k.running).ok (.semaphoreInit s value) (by simp [hstack])
  by_cases hcase : t = k.running ∧ c = c'
  · obtain ⟨rfl, rfl⟩ := hcase
    obtain ⟨ns, pushed, hns, hconts, heq, -⟩ := hblock.act_running hstack hk
    obtain rfl : pushed = [] := by
      cases hconts
      rfl
    refine act_account_own hblock hlock h hstack hk .outside .entering hns hconts heq
      (by simp [Action.waiting]) fun hacc => ?_
    simpa [notesOf, semaAfter, waitersAfter] using hacc.init.2
  · refine act_account_quiet hblock hlock h hstack hk (by simp [notesOf]) ?_ ?_ rfl (by simp)
      (by simp)
    · exact waiting_elsewhere hcase fun hc => by simp [Action.waiting, hc]
    · have hs : SemaId.waiter t c ≠ .waiter k.running c' := by
        simpa using hcase
      simp only [semaAfter, Function.update_of_ne hs]

theorem act_account_waitReturn {c' : CondId} (hblock : k.BlockInv) (hlock : k.LockInv)
    (h : k.CondInv) (hstack : k.stack k.running = .waitReturn c' :: rest)
    (hk : k.step lab .act = .ok k') : k'.Account c t := by
  by_cases hcase : t = k.running ∧ c = c'
  · obtain ⟨rfl, rfl⟩ := hcase
    obtain ⟨ns, pushed, hns, hconts, heq, -⟩ := hblock.act_running hstack hk
    obtain rfl : pushed = [] := by
      cases hconts
      rfl
    refine act_account_own hblock hlock h hstack hk .passed .outside hns hconts heq
      (by simp [Action.waiting]) fun hacc => ?_
    simpa [notesOf, semaAfter, waitersAfter, Note.isDown,
      show k.popped.running = k.running from rfl] using hacc.waitReturn
  · refine act_account_quiet hblock hlock h hstack hk ?_ ?_ rfl rfl (by simp) (by simp)
    · simp only [notesOf, List.mem_singleton, forall_eq, Note.concerns, decide_eq_false_iff_not]
      rintro ⟨hc, ht⟩
      exact hcase ⟨ht.symm, hc.symm⟩
    · exact waiting_elsewhere hcase fun hc => by simp [Action.waiting, hc]

/-- The counts of `t` on `c` agree after an action. -/
theorem act_account (hblock : k.BlockInv) (hlock : k.LockInv) (h : k.CondInv)
    (hstack : k.stack k.running = a :: rest) (hk : k.step lab .act = .ok k') : k'.Account c t := by
  cases a
  case waitLink c' before => exact act_account_waitLink hblock hlock h hstack hk
  case signalWaiter c' => exact act_account_signalWaiter hblock hlock h hstack hk
  case semaphoreDown s => exact act_account_down hblock hlock h hstack hk (Or.inl rfl)
  case semaphoreRetest s old => exact act_account_down hblock hlock h hstack hk (Or.inr ⟨old, rfl⟩)
  case semaphoreUp s => exact act_account_up hblock hlock h hstack hk
  case semaphoreInit s value => exact act_account_init hblock hlock h hstack hk
  case waitReturn c' => exact act_account_waitReturn hblock hlock h hstack hk
  all_goals
    refine act_account_quiet hblock hlock h hstack hk (by simp [notesOf, Note.concerns])
      ?_ rfl rfl (by simp) (by simp)
    first
      | exact Or.inr (Or.inl rfl)
      | exact Or.inr (Or.inr rfl)

theorem act_asleep {old : IntrLevel} (hblock : k.BlockInv) (h : k.CondInv)
    (hstack : k.stack k.running = a :: rest) (hk : k.step lab .act = .ok k') (hun : k.UnblockOk a)
    (hhead : (k'.stack t).head? = some (.semaphoreRetest (.waiter t c) old)) :
    (k'.thread t).status = .blocked ↔ (k'.sema (.waiter t c)).value = 0 := by
  have hframed := act_framed hstack hk
  by_cases ht : t = k.running
  · -- the running thread has blocked
    subst ht
    rcases act_retest hblock hstack hk with ⟨s, old', heq, hvalue, ha, -, hblocked⟩ | ⟨hno, -⟩
    · rw [heq, List.head?_cons] at hhead
      cases hhead
      refine iff_of_true hblocked ?_
      rw [hframed.sema]
      rcases ha with rfl | ⟨_, rfl⟩ <;> simp [semaAfter, hvalue]
    · exact absurd (List.mem_of_mem_head? hhead) (hno _ _)
  · have hstack' : k'.stack t = k.stack t := by
      rcases hblock.act_other hstack hk ht with heq | ⟨-, -, function, heq⟩
      · exact heq
      · rw [heq] at hhead
        cases function <;> cases hhead
    rw [hstack'] at hhead
    have hmem := List.mem_of_mem_head? hhead
    have hidle : some t ≠ k.sched.idleThread := by
      intro hidle
      rcases hblock.idle_mem hidle hmem with hno | hno | hno <;> cases hno
    have hmagic := hblock.magic_of_mem hmem
    have hasleep := h.asleep t c old hhead
    by_cases hup : a = .semaphoreUp (.waiter t c)
    · subst hup
      have hacc : k.Account c t := h.account c t
      obtain ⟨hzero, -⟩ := Balanced.up hacc ⟨k.running, by simp [hstack]⟩
      have hwaits := (hblock.waits _ t).mpr ⟨hasleep.mpr hzero, old, hhead⟩
      have honly : ∀ v ∈ (k.sema (.waiter t c)).waiters, v = t := by
        intro v hv
        obtain ⟨_, hmem'⟩ := ((hblock.waits _ v).mp hv).mem
        exact ((hblock.stackOk v).ok _ hmem' t c rfl).symm
      have hwoken : t ∈ k.wokenBy (.semaphoreUp (.waiter t c)) := by
        cases hw : (k.sema (.waiter t c)).waiters with
        | nil =>
          rw [hw] at hwaits
          cases hwaits
        | cons w ws =>
          have hwt : w = t := honly w (by simp [hw])
          simp [wokenBy, hw, hwt]
      refine iff_of_false (act_woken hblock.sched hstack hk ht hidle hwoken) ?_
      rw [hframed.sema]
      simp [semaAfter, hzero]
    · have hwoken : t ∉ k.wokenBy a := by
        intro hwoken
        cases a <;> simp only [wokenBy, List.mem_singleton, List.not_mem_nil] at hwoken
        case threadUnblock v =>
          subst hwoken
          obtain ⟨_, hold⟩ := hun t rfl
          rw [hhead] at hold
          cases hold
        case createUnblock v =>
          subst hwoken
          have hborn := (hblock.newborn k.running t (by simp [hstack])).head
          rw [hhead] at hborn
          cases hborn
        case semaphoreUp s =>
          obtain ⟨_, hold⟩ := hblock.head_of_waiter (List.mem_of_mem_take hwoken)
          rw [hhead] at hold
          cases hold
          exact hup rfl
      have hund := act_undisturbed hblock.sched hstack hk ht hidle hmagic hwoken
      have hvalue : (k'.sema (.waiter t c)).value = (k.sema (.waiter t c)).value := by
        have hok := (hblock.stackOk k.running).ok a (by simp [hstack])
        rw [hframed.sema]
        cases a
        case semaphoreInit s value =>
          have hs : SemaId.waiter t c ≠ s := by
            rintro rfl
            obtain ⟨c', hc', -⟩ := hok
            cases hc'
            exact ht rfl
          simp [semaAfter, Function.update_of_ne hs]
        case semaphoreDown s | semaphoreRetest s _ =>
          have hs : SemaId.waiter t c ≠ s := by
            rintro rfl
            exact ht (hok t c rfl)
          simp [semaAfter, Function.update_of_ne hs]
        case semaphoreUp s =>
          have hs : SemaId.waiter t c ≠ s := by
            rintro rfl
            exact hup rfl
          simp [semaAfter, Function.update_of_ne hs]
        all_goals rfl
      rw [hund.blocked, hvalue]
      exact hasleep

theorem step_topOk {e : Event} (h : k.sched.Inv) (he : k.Enabled e) (hk : k.step lab e = .ok k')
    (htop : ∀ t, TopOk (k.stack t)) : ∀ t, TopOk (k'.stack t) := by
  refine @step_stack_rule k k' lab (fun _ => TopOk) ?_ ?_ ?_ ?_ e ?_ h he hk htop
  · exact fun _ => TopOk.of_topmost (by simp)
  · intro _ _ function _
    refine TopOk.of_topmost ?_
    cases function <;> simp [Sched.startStack, Action.topmost]
  · intro _ a st ha hst b hb
    rw [pending_cons_of_setsLevel ha] at hb
    exact hst b hb
  · exact fun _ _ _ _ hst hconts => hst.act hconts
  · exact fun t op _ => TopOk.of_topmost body_topmost

/-- An action keeps the invariant of the condition variables. -/
theorem CondInv.act (hblock : k.BlockInv) (hlock : k.LockInv) (h : k.CondInv)
    (hstack : k.stack k.running = a :: rest) (hk : k.step lab .act = .ok k') (hun : k.UnblockOk a) :
    k'.CondInv where
  wellWaiting := by
    obtain ⟨ns, pushed, hns, hconts, heq, -⟩ := hblock.act_running hstack hk
    exact fun t c => (act_waitPhase hblock h hstack hk hns hconts heq).1 c t
  top := step_topOk hblock.sched (by simp [Enabled, hstack]) hk h.top
  account _ _ := act_account hblock hlock h hstack hk
  asleep _ _ _ := act_asleep hblock h hstack hk hun

/-- A step in which no thread changes its phase on a condition variable. -/
theorem CondInv.quiet {notes : List Note} (h : k.CondInv)
    (hwell : ∀ t c, WellPhased (Action.waiting c) .outside (k'.stack t))
    (htop : ∀ t, TopOk (k'.stack t)) (hphase : ∀ c t, k'.waitPhase c t = k.waitPhase c t)
    (htrace : k'.trace = notes ++ k.trace) (hnotes : ∀ n ∈ notes, ∀ c t, n.concerns c t = false)
    (hsema : k'.sema = k.sema) (hwaiters : k'.waiters = k.waiters)
    (hup : ∀ t c u, .semaphoreUp (.waiter t c) ∈ k'.stack u ↔
      .semaphoreUp (.waiter t c) ∈ k.stack u)
    (hhead : ∀ t s old, (k'.stack t).head? = some (.semaphoreRetest s old) →
      (k.stack t).head? = some (.semaphoreRetest s old) ∧
        ((k'.thread t).status = .blocked ↔ (k.thread t).status = .blocked)) : k'.CondInv := by
  refine ⟨hwell, htop, ?_, ?_⟩
  · intro c t
    refine (h.account c t).quiet htrace (fun n hn => hnotes n hn c t) (hphase c t) (by rw [hsema])
      (by rw [hwaiters]) ?_
    exact exists_congr fun u => hup t c u
  · intro t c old hret
    obtain ⟨hold, hstatus⟩ := hhead t _ old hret
    rw [hstatus, hsema]
    exact h.asleep t c old hold

theorem CondInv.call {op : Op} (hblock : k.BlockInv) (h : k.CondInv)
    (hempty : k.stack k.running = []) (hk : k.step lab (.call op) = .ok k') : k'.CondInv := by
  have htop := @step_topOk k k' lab (.call op) hblock.sched hempty hk h.top
  cases pure_eq_ok.mp hk
  have hself : (k.sched.push (op.body lab k.running)).thread k.running =
      { k.thread k.running with stack := op.body lab k.running ++ k.stack k.running } := by
    simp
  have hother : ∀ t, t ≠ k.running →
      (k.sched.push (op.body lab k.running)).thread t = k.thread t := by
    intro t ht
    simp [ht]
  have hbody := fun c => @body_waiting lab k.running op c
  refine @CondInv.quiet k _ [] h ?_ htop ?_ rfl (by simp) rfl rfl ?_ ?_
  · intro t c
    by_cases ht : t = k.running
    · subst ht
      simp only [stack, hself, hempty, List.append_nil]
      exact (hbody c).1
    · simp only [stack, hother t ht]
      exact h.wellWaiting t c
  · intro c t
    unfold waitPhase
    by_cases ht : t = k.running
    · subst ht
      simp only [stack, hself, hempty, List.append_nil]
      exact (hbody c).2
    · simp only [stack, hother t ht]
  · intro t c u
    by_cases hu : u = k.running
    · subst hu
      simp only [stack, hself, hempty, List.append_nil, List.not_mem_nil, iff_false]
      intro hmem
      cases body_topmost _ hmem
    · simp only [stack, hother u hu]
  · intro t s old hhead
    by_cases ht : t = k.running
    · subst ht
      simp only [stack, hself, hempty, List.append_nil] at hhead
      have hmem := List.mem_of_mem_head? hhead
      cases begins_of_mem hmem
    · simp only [stack, hother t ht] at hhead
      exact ⟨hhead, by simp only [thread, hother t ht]⟩

theorem CondInv.tick (hblock : k.BlockInv) (hlevel : k.sched.level = .on) (h : k.CondInv)
    (hw : Ticked [] k k') (htop : ∀ t, TopOk (k'.stack t)) : k'.CondInv := by
  obtain ⟨ns, hns, hstack⟩ := hw.moves.stackRunning
  rw [List.append_nil] at hstack
  have hother : ∀ t, t ≠ k.running → k'.stack t = k.stack t := fun t ht => hw.moves.stack t ht
  have hquiet := fun t c => quiet_wellPhased (waiting_phasing c) hw.moves (h.wellWaiting t c)
  refine @CondInv.quiet k _ [] h (fun t c => (hquiet t c).1) htop (fun c t => (hquiet t c).2) hw.trace
    (by simp) hw.sema hw.waiters ?_ ?_
  · intro t c u
    by_cases hu : u = k.running
    · subst hu
      rw [show k'.stack k.running = _ from hstack, List.mem_append]
      refine or_iff_right fun hmem => ?_
      cases hns _ hmem
    · rw [hother u hu]
  · intro t s old hhead
    by_cases ht : t = k.running
    · -- a thread in the loop of `semaphore_down` has disabled interrupts
      subst ht
      rw [show k'.stack k.running = _ from hstack] at hhead
      cases ns with
      | nil =>
        have hoff := hblock.retestLevel s old hhead
        rw [hlevel] at hoff
        cases hoff
      | cons b ns =>
        cases Option.some.inj hhead
        cases hns (.semaphoreRetest s old) (by simp)
    · rw [hother t ht] at hhead
      refine ⟨hhead, ?_⟩
      have hidle : some t ≠ k.sched.idleThread := by
        intro hidle
        rcases hblock.idle_mem hidle (List.mem_of_mem_head? hhead) with hno | hno | hno <;> cases hno
      simpa using hw.moves.blocked_of_ne ht hidle

theorem boot_condInv (init : Nat → Nat) : (boot init).CondInv := by
  have hstack : ∀ t, (boot init).stack t = if t = 0 then threadStart else [] := by
    intro t
    by_cases ht : t = 0 <;> simp [stack, boot, ht]
  have hphase : ∀ c t, (boot init).waitPhase c t = .outside := by
    intro c t
    rw [waitPhase, hstack]
    split_ifs <;> simp [threadStart, phaseOf, Action.waiting]
  have hposting : ∀ c t, ¬ (boot init).Posting c t := by
    rintro c t ⟨u, hu⟩
    rw [hstack] at hu
    split_ifs at hu <;> simp [threadStart] at hu
  refine ⟨?_, ?_, ?_, ?_⟩
  · intro t c
    rw [hstack]
    split_ifs <;> simp [threadStart, WellPhased, phaseOf, Action.waiting]
  · intro t
    rw [hstack]
    split_ifs
    · exact TopOk.of_topmost (by simp [threadStart, Action.topmost])
    · exact TopOk.of_topmost (by simp)
  · intro c t
    unfold Account
    rw [hphase]
    exact ⟨rfl, rfl, rfl, fun hp => absurd hp (hposting c t), fun _ => rfl⟩
  · intro t c old hhead
    rw [hstack] at hhead
    split_ifs at hhead <;> cases hhead

theorem CondInv.step {e : Event} (hblock : k.BlockInv) (hawake : k.AwakeInv) (hlock : k.LockInv)
    (h : k.CondInv) (he : k.Admits e) (hk : k.step lab e = .ok k') : k'.CondInv := by
  cases e with
  | act =>
    obtain ⟨a, rest, hstack⟩ := List.exists_cons_of_ne_nil he.1
    exact h.act hblock hlock hstack hk (unblockOk_of_properUnblock hstack he.2.1)
  | call op => exact h.call hblock he.1 hk
  | tick =>
    exact h.tick hblock he.1 (intrHandler_ticked_nil hblock.sched hawake.timerList hk).1
      (step_topOk hblock.sched he.1 hk h.top)

/-- What holds in the runs in which the threads use the locks in matched pairs. -/
structure SyncInv (k : Kernel) : Prop where
  block : k.BlockInv
  awake : k.AwakeInv
  lock : k.LockInv
  cond : k.CondInv

theorem boot_syncInv (init : Nat → Nat) : (boot init).SyncInv :=
  ⟨boot_blockInv init, boot_awakeInv init, boot_lockInv init, boot_condInv init⟩

theorem SyncInv.step {e : Event} (h : k.SyncInv) (he : k.LockAdmits e)
    (hk : k.step lab e = .ok k') : k'.SyncInv :=
  ⟨h.block.step h.awake he.1 hk, h.awake.step h.block.sched he.1.1 he.1.2.2 hk,
    h.lock.step h.block h.awake he hk, h.cond.step h.block h.awake h.lock he.1 hk⟩

theorem reachable_syncInv {init : Nat → Nat}
    (hr : Reachable (Kernel.step lab) LockAdmits (boot init) k) : k.SyncInv :=
  @Reachable.invariant _ _ _ (Kernel.step lab) LockAdmits (boot init) SyncInv (boot_syncInv init)
    (fun _ _ _ _ h he hk => h.step he hk) k hr

/-! ## Signals -/

/-- `t` is inside `condvar_wait` on `c`, has put its waiter on the list, and has not been signalled
since. -/
def Unsignalled (k : Kernel) (c : CondId) (t : Tid) : Prop :=
  k.waitPhase c t = .queued ∧ k.signals c t = k.returns c t

/-- A thread whose waiter is on the list has not been signalled. -/
theorem Account.unsignalled (h : k.Account c t) (hmem : t ∈ k.waiters c) : k.Unsignalled c t := by
  have hle := Balanced.le h
  obtain ⟨hE, hD, hS, -, -⟩ := h
  have hcount := List.count_pos_iff.mpr hmem
  have hphase : k.waitPhase c t = .queued := by
    cases hp : k.waitPhase c t <;> rw [hp] at hE hD <;> simp at hE hD <;> first | rfl | omega
  rw [hphase] at hE hD
  simp only [reduceCtorEq, or_false, if_true, if_false] at hE hD
  exact ⟨hphase, by omega⟩

/-- A thread that has not been signalled has its waiter on the list. -/
theorem Account.mem_waiters (h : k.Account c t) (hun : k.Unsignalled c t) : t ∈ k.waiters c := by
  obtain ⟨hphase, hsignals⟩ := hun
  have henqueues := h.enqueues
  have hcount := h.signals
  rw [hphase] at henqueues
  simp only [reduceCtorEq, or_false, if_true] at henqueues
  refine List.count_pos_iff.mp ?_
  omega

/-- The test of a private semaphore succeeds for a thread that has been signalled more often than
it has decremented the semaphore. -/
theorem Account.value_ne_zero (h : k.Account c t) : (k.sema (.waiter t c)).value ≠ 0 ↔
    k.signals c t = k.downs (.waiter t c) + 1 ∧ ¬ k.Posting c t := by
  have hle := Balanced.le h
  by_cases hp : k.Posting c t
  · have hposting := h.posting hp
    refine iff_of_false ?_ fun hno => hno.2 hp
    omega
  · have hposted := h.posted hp
    rw [and_iff_left hp]
    omega

/-- No signal is lost. A signal given while a thread waits that has not been signalled takes the
waiter of one such thread off the list and goes on to increment its semaphore. A thread is signalled
at most once more than it has decremented its semaphore; if so, and the semaphore has been
incremented, the test of the semaphore succeeds and the thread is not blocked. A thread that returns
has been signalled for it and holds the lock. -/
theorem condvar_loses_no_signal {init : Nat → Nat} (c : CondId)
    (hr : Reachable (Kernel.step .lab2) LockAdmits (boot init) k) :
    (∀ rest, k.stack k.running = .signalWaiter c :: rest → (∃ t, k.Unsignalled c t) →
      ∃ w ws k', k.waiters c = w :: ws ∧ k.Unsignalled c w ∧ w ∉ ws ∧
        k.step .lab2 .act = .ok k' ∧ k'.waiters c = ws ∧ k'.trace = .signal c w :: k.trace ∧
        k'.stack k.running = .semaphoreUp (.waiter w c) :: rest) ∧
    (∀ t, k.downs (.waiter t c) ≤ k.signals c t ∧ k.signals c t ≤ k.downs (.waiter t c) + 1 ∧
      ((k.sema (.waiter t c)).value ≠ 0 ↔
        k.signals c t = k.downs (.waiter t c) + 1 ∧ ¬ k.Posting c t) ∧
      ((k.sema (.waiter t c)).value ≠ 0 → ¬ k.AtRetest (.waiter t c) t)) ∧
    (∀ rest, k.stack k.running = .waitReturn c :: rest →
      k.signals c k.running = k.returns c k.running + 1 ∧
        k.holder (condLock c) = some k.running) := by
  have hinv := reachable_syncInv hr
  have hacc : ∀ t, k.Account c t := hinv.cond.account c
  refine ⟨?_, ?_, ?_⟩
  · rintro rest hstack ⟨t, ht⟩
    cases hw : k.waiters c with
    | nil =>
      have hmem := (hacc t).mem_waiters ht
      rw [hw] at hmem
      cases hmem
    | cons w ws =>
      have hcount := (hacc w).signals
      have hle := Balanced.le (hacc w)
      rw [hw, List.count_cons_self] at hcount
      have hws : w ∉ ws := fun hmem => by
        have hpos := List.count_pos_iff.mpr hmem
        omega
      refine ⟨w, ws, k.popped.signalWaiter c, rfl, (hacc w).unsignalled (by simp [hw]), hws,
        step_act hstack, ?_⟩
      have hrest : k.popped.stack k.running = rest := popped_stack_running hstack
      rw [signalWaiter, show k.popped.waiters c = w :: ws from hw]
      refine ⟨Function.update_self _ _ _, rfl, ?_⟩
      rw [← hrest]
      simp [push, note, setWaiters, stack]
  · intro t
    have hle := Balanced.le (hacc t)
    refine ⟨hle.2.1, by omega, (hacc t).value_ne_zero, ?_⟩
    rintro hvalue ⟨hblocked, old, hhead⟩
    exact hvalue ((hinv.cond.asleep t c old hhead).mp hblocked)
  · intro rest hstack
    have hphase : k.waitPhase c k.running = .passed := by
      have hwaiting : (Action.waitReturn c).waiting c = some (.passed, .outside) := by
        simp [Action.waiting]
      rw [waitPhase, hstack]
      exact phaseOf_cons_some hwaiting
    have hbalanced := hacc k.running
    have hle := Balanced.le hbalanced
    obtain ⟨hE, hD, -, -, -⟩ := hbalanced
    rw [hphase] at hE hD
    simp only [reduceCtorEq, false_or, if_true] at hE hD
    refine ⟨by omega, (hinv.lock.holder _ _).mpr ?_⟩
    have hlocking : (Action.waitReturn c).locking (condLock c) = some (.owner, .owner) := by
      simp [Action.locking]
    rw [phase, hstack]
    exact phaseOf_cons_some hlocking

/-- A run in which a thread waits on a condition variable: `main` creates a thread of priority 20,
lowers its own priority to let it run, and raises it again when the thread has blocked. Then `main`
calls `condvar_signal`. -/
def signalOther : List Event :=
  starting ++ Event.call (.threadCreate 2 20) :: List.replicate 9 Event.act ++
    Event.call (.threadSetPriority 10) :: List.replicate 3 Event.act ++
    Event.call (.lockAcquire 0) :: List.replicate 4 Event.act ++
    Event.call (.condvarWait ⟨0, 0⟩) :: List.replicate 11 Event.act ++
    Event.call (.threadSetPriority 31) :: List.replicate 3 Event.act ++
    Event.call (.lockAcquire 0) :: List.replicate 4 Event.act ++
    Event.call (.condvarSignal ⟨0, 0⟩) :: List.replicate 2 Event.act

theorem condvar_loses_no_signal_signalOther : ∃ k,
    runLocked .lab2 (fun _ => 0) signalOther = some k ∧
    k.stack k.running = [.signalWaiter ⟨0, 0⟩] ∧ k.Unsignalled ⟨0, 0⟩ 2 ∧
    ∃ w ws k', k.waiters ⟨0, 0⟩ = w :: ws ∧ k.step .lab2 .act = .ok k' ∧
      k'.waiters ⟨0, 0⟩ = ws := by
  have hrun : (runLocked .lab2 (fun _ => 0) signalOther).map (fun k => (k.stack k.running,
      k.waitPhase ⟨0, 0⟩ 2, k.signals ⟨0, 0⟩ 2, k.returns ⟨0, 0⟩ 2)) =
      some ([.signalWaiter ⟨0, 0⟩], .queued, 0, 0) := by
    decide +kernel
  obtain ⟨k, hk, heq⟩ := Option.map_eq_some_iff.mp hrun
  simp only [Prod.mk.injEq] at heq
  obtain ⟨hstack, hphase, hsignals, hreturns⟩ := heq
  have hun : k.Unsignalled ⟨0, 0⟩ 2 := ⟨hphase, hsignals.trans hreturns.symm⟩
  obtain ⟨w, ws, k', hw, -, -, hk', hws, -, -⟩ :=
    (condvar_loses_no_signal ⟨0, 0⟩ (reachable_of_runLocked hk)).1 [] hstack ⟨2, hun⟩
  exact ⟨k, hk, hstack, hun, w, ws, k', hw, hk', hws⟩

/-- The same run with a second call of `condvar_signal`. -/
def signalTwice : List Event :=
  signalOther ++ List.replicate 3 Event.act ++
    Event.call (.condvarSignal ⟨0, 0⟩) :: List.replicate 2 Event.act

/-- A signal takes no waiter off the list when the only thread that has released the lock in
`condvar_wait` has already been signalled. -/
theorem second_signal_removes_none : ∃ k,
    Reachable (Kernel.step .lab2) LockAdmits (boot fun _ => 0) k ∧
    k.stack k.running = [.signalWaiter ⟨0, 0⟩] ∧ k.waitPhase ⟨0, 0⟩ 2 = .queued ∧
    k.phase (condLock ⟨0, 0⟩) 2 = .free ∧ ∃ k', k.step .lab2 .act = .ok k' ∧
      k'.waiters ⟨0, 0⟩ = k.waiters ⟨0, 0⟩ ∧ k'.trace = k.trace := by
  have hrun : (runLocked .lab2 (fun _ => 0) signalTwice).map (fun k => (k.stack k.running,
      k.waitPhase ⟨0, 0⟩ 2, k.phase (condLock ⟨0, 0⟩) 2, k.waiters ⟨0, 0⟩)) =
      some ([.signalWaiter ⟨0, 0⟩], .queued, .free, []) := by
    decide +kernel
  obtain ⟨k, hk, heq⟩ := Option.map_eq_some_iff.mp hrun
  simp only [Prod.mk.injEq] at heq
  obtain ⟨hstack, hphase, hfree, hwaiters⟩ := heq
  refine ⟨k, reachable_of_runLocked hk, hstack, hphase, hfree, k.popped.signalWaiter ⟨0, 0⟩,
    step_act hstack, ?_⟩
  have hsame : k.popped.signalWaiter ⟨0, 0⟩ = k.popped := by
    rw [signalWaiter, show k.popped.waiters ⟨0, 0⟩ = [] from hwaiters]
  rw [hsame]
  exact ⟨rfl, rfl⟩

end Kernel

end CSE130.Pintos
