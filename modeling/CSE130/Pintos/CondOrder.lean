import CSE130.Pintos.Condvar
import CSE130.Pintos.QueueOrder

/-!
# The order in which a condition variable wakes its waiters

In Lab 2 `condvar_wait` looks through the private semaphores of the earlier waiters at the threads
blocked in them, and puts its own waiter in front of the first of a lower priority. If a semaphore
has no waiters yet, `list_front` fails. In a run in which nothing fails the list of the waiters is
therefore the stable priority queue of the threads that have put their waiters there and have not
been signalled.
-/

namespace CSE130.Pintos

open CSE130.Library

/-- The threads whose waiters are on the list of `c`, in the order in which they were put there. -/
def waitArrivals (c : CondId) : List Note → List Tid
  | [] => []
  | .enqueue c' t :: notes =>
    if c' = c then waitArrivals c notes ++ [t] else waitArrivals c notes
  | .signal c' t :: notes =>
    if c' = c then (waitArrivals c notes).erase t else waitArrivals c notes
  | _ :: notes => waitArrivals c notes

/-- The notes about the list of `c`. -/
def Note.changes (c : CondId) : Note → Bool
  | .enqueue c' _ | .signal c' _ => c' = c
  | _ => false

theorem waitArrivals_append {c : CondId} {notes earlier : List Note}
    (h : ∀ n ∈ notes, n.changes c = false) :
    waitArrivals c (notes ++ earlier) = waitArrivals c earlier := by
  induction notes with
  | nil => rfl
  | cons n notes ih =>
    have hrest := ih fun m hm => h m (List.mem_cons_of_mem n hm)
    have hn := h n List.mem_cons_self
    cases n
    case enqueue c' t | signal c' t =>
      have hc : c' ≠ c := of_decide_eq_false hn
      rw [List.cons_append, waitArrivals, if_neg hc, hrest]
    all_goals exact hrest

/-! ## Calls of `thread_set_priority` -/

/-- The actions of `thread_set_priority`. -/
def Action.setsOwnPriority : Action → Bool
  | .storePriority _ | .threadYield => true
  | a => a.setsLevel

/-- A thread that is about to store its priority is in no other call. -/
def StoresAlone (st : List Action) : Prop :=
  ∀ priority, .storePriority priority ∈ st → ∀ b ∈ st, b.setsOwnPriority = true

theorem Conts.eq_nil_of_setsOwnPriority {a : Action} {pushed : List Action} (h : Conts a pushed)
    (ha : a.setsOwnPriority = true) : pushed = [] := by
  cases h <;> first | rfl | cases ha

/-- The condition variable whose list is scanned. -/
def Action.scans : Action → Option CondId
  | .waitInspect c _ | .waitNext c _ | .waitLink c _ => some c
  | _ => none

/-- The condition variable whose list is changed. -/
def Action.listOf : Action → Option CondId
  | .waitLink c _ | .signalWaiter c => some c
  | _ => none

/-- The actions of `condvar_signal` on `c`. -/
def Action.signalsOn (c : CondId) : Action → Bool
  | .contextCheck => true
  | .heldCheck l => l = Kernel.condLock c
  | .signalWaiter c' | .semaphoreUp (.waiter _ c') => c' = c
  | a => a.setsLevel

theorem startStack_scans {function : ThreadFunction} :
    ∀ b ∈ Sched.startStack function, b.scans = none := by
  cases function <;> simp [Sched.startStack, Action.scans]

theorem body_scans {lab : Lab} {t : Tid} {op : Op} : ∀ b ∈ op.body lab t, b.scans = none := by
  intro b hb
  cases begins_of_mem hb <;> rfl

/-- The actions that go on with a scan. -/
def Action.continuesScan : Action → Bool
  | .waitScan _ | .waitInspect _ _ | .waitNext _ _ => true
  | _ => false

theorem Conts.scans_eq_none {a : Action} {pushed : List Action} (h : Conts a pushed)
    (ha : a.continuesScan = false) : ∀ b ∈ pushed, b.scans = none := by
  cases h <;> simp [Action.scans, Action.continuesScan, Kernel.lockAcquire, Kernel.lockRelease,
    Kernel.condvarSignal] at ha ⊢

namespace Kernel

variable {k k' : Kernel} {a b : Action} {rest : List Action} {t u : Tid} {c : CondId}

theorem step_storesAlone {e : Event} (h : k.sched.Inv) (he : k.Enabled e)
    (hk : k.step .lab2 e = .ok k') (hP : ∀ t, StoresAlone (k.stack t)) :
    ∀ t, StoresAlone (k'.stack t) := by
  refine @step_stack_rule k k' .lab2 (fun _ => StoresAlone) ?_ ?_ ?_ ?_ e ?_ h he hk hP
  · intro t priority hmem
    cases hmem
  · intro t _ function _ priority hmem
    cases function <;> simp [Sched.startStack] at hmem
  · intro t a st ha hst priority hmem b hb
    have hold : .storePriority priority ∈ st := by
      rcases List.mem_cons.mp hmem with rfl | hmem
      · cases ha
      · exact hmem
    rcases List.mem_cons.mp hb with rfl | hb
    · cases b <;> first | rfl | cases ha
    · exact hst priority hold b hb
  · intro t a pushed rest hst hconts priority hmem b hb
    have hnot : .storePriority priority ∉ pushed := by
      cases hconts <;> simp [lockAcquire, lockRelease, condvarSignal]
    have hold := hst priority
      (List.mem_cons_of_mem a ((List.mem_append.mp hmem).resolve_left hnot))
    obtain rfl := hconts.eq_nil_of_setsOwnPriority (hold a List.mem_cons_self)
    exact hold b (List.mem_cons_of_mem a hb)
  · intro t op _ priority hmem b hb
    cases op
    case threadSetPriority p =>
      simp only [Op.body, List.mem_cons, List.not_mem_nil, or_false] at hb
      rcases hb with rfl | rfl <;> rfl
    all_goals
      simp [Op.body, lockAcquire, lockRelease, condvarWait, condvarSignal] at hmem

/-- A thread inside `condvar_wait` does not change its priority. -/
theorem act_prio_waiting (h : k.BlockInv) (halone : ∀ t, StoresAlone (k.stack t))
    (hstack : k.stack k.running = a :: rest) (hk : k.step .lab2 .act = .ok k') (hb : b ∈ k.stack t)
    (hwaits : (b.waiting c).isSome = true) : k'.sched.prio t = k.sched.prio t := by
  refine act_prio h hstack hk (h.magic_of_mem hb) ?_
  rintro rfl
  have hnot : b.setsOwnPriority = false := by
    cases b <;> first | rfl | cases hwaits
  refine ⟨?_, ?_⟩
  · rintro priority rfl
    have hown := halone k.running priority (by simp [hstack]) b hb
    rw [hnot] at hown
    cases hown
  · rintro rfl
    have hpending := (h.stackOk k.running).threadExit (by simp [hstack])
    rcases mem_pending hb with hlevel | hmem
    · cases b <;> first | cases hwaits | cases hlevel
    · rw [hpending] at hmem
      rw [List.mem_singleton.mp hmem] at hwaits
      cases hwaits

theorem mem_of_waitPhase (h : k.waitPhase c t ≠ .outside) :
    ∃ b ∈ k.stack t, (b.waiting c).isSome = true := by
  obtain ⟨b, hb, after, hwaits⟩ := exists_of_phaseOf_ne h
  exact ⟨b, hb, by simp [hwaits]⟩

theorem CondInv.waiters_nodup (h : k.CondInv) (c : CondId) : (k.waiters c).Nodup := by
  refine List.nodup_iff_count_le_one.mpr fun t => ?_
  have hle := Balanced.le (h.account c t)
  have hcount := (h.account c t).signals
  omega

/-- The thread that is blocked in the private semaphore of `w` is `w`. -/
theorem BlockInv.eq_of_mem_waiter (h : k.BlockInv) (ht : t ∈ (k.sema (.waiter u c)).waiters) :
    t = u := by
  obtain ⟨old, hmem⟩ := ((h.waits _ t).mp ht).mem
  exact ((h.stackOk t).ok _ hmem u c rfl).symm

/-! ## The scan of `condvar_wait` -/

/-- How far the scan of the list has come: no thread in front of the place where it is has a lower
priority than `t`. -/
def CondScan (k : Kernel) (t : Tid) : Action → Prop
  | .waitInspect c el => ∃ front back, k.waiters c = front ++ back ∧ back.head? = el ∧
      ∀ u ∈ front, k.sched.prio t ≤ k.sched.prio u
  | .waitNext c w => ∃ front back, k.waiters c = front ++ w :: back ∧
      ∀ u ∈ front ++ [w], k.sched.prio t ≤ k.sched.prio u
  | .waitLink c before => ∃ front back, k.waiters c = front ++ back ∧ back.head? = before ∧
      (∀ u ∈ front, k.sched.prio t ≤ k.sched.prio u) ∧
      ∀ u, before = some u → k.sched.prio u < k.sched.prio t
  | _ => True

theorem CondScan.of_not_scans (h : b.scans = none) : k.CondScan t b := by
  cases b <;> trivial

theorem CondScan.congr (h : k.CondScan t b)
    (hwaiters : ∀ c, b.scans = some c → k'.waiters c = k.waiters c)
    (ht : k'.sched.prio t = k.sched.prio t)
    (hprio : ∀ c, ∀ u ∈ k.waiters c, k'.sched.prio u = k.sched.prio u) : k'.CondScan t b := by
  cases hscans : b.scans with
  | none => exact .of_not_scans hscans
  | some c =>
    have hsame := hwaiters c hscans
    cases b <;> try (cases hscans; done)
    case waitInspect el =>
      cases hscans
      obtain ⟨front, back, heq, hel, hfront⟩ := h
      refine ⟨front, back, hsame.trans heq, hel, ?_⟩
      intro u hu
      rw [ht, hprio c u (by simp [heq, hu])]
      exact hfront u hu
    case waitNext w =>
      cases hscans
      obtain ⟨front, back, heq, hfront⟩ := h
      refine ⟨front, back, hsame.trans heq, ?_⟩
      intro u hu
      have hmem : u ∈ k.waiters c := by
        rw [heq, ← List.singleton_append, ← List.append_assoc]
        exact List.mem_append_left back hu
      rw [ht, hprio c u hmem]
      exact hfront u hu
    case waitLink before =>
      cases hscans
      obtain ⟨front, back, heq, hbefore, hfront, hlt⟩ := h
      refine ⟨front, back, hsame.trans heq, hbefore, ?_, ?_⟩
      · intro u hu
        rw [ht, hprio c u (by simp [heq, hu])]
        exact hfront u hu
      · intro u hu
        have hmem : u ∈ back := List.mem_of_mem_head? (hbefore.trans hu)
        rw [ht, hprio c u (by simp [heq, hmem])]
        exact hlt u hu

theorem nextOn_append {w : Tid} {front back : List Tid} (h : w ∉ front) :
    nextOn w (front ++ w :: back) = back.head? := by
  induction front with
  | nil => exact if_pos rfl
  | cons u us ih =>
    obtain ⟨hu, hus⟩ := not_or.mp (mt List.mem_cons.mpr h)
    rw [List.cons_append, nextOn, if_neg (Ne.symm hu), ih hus]

/-- The place that the scan has found is that of `insert_ordered_thread_priority`. -/
theorem CondScan.insert {before : Option Tid} (h : k.CondScan t (.waitLink c before))
    (hnodup : (k.waiters c).Nodup) :
    insertBefore (fun w => some w = before) t (k.waiters c) =
      insertByKey k.sched.prio t (k.waiters c) := by
  obtain ⟨front, back, heq, hbefore, hfront, hlt⟩ := h
  rw [heq] at hnodup ⊢
  have hlink : insertBefore (fun w => some w = before) t (front ++ back) = front ++ t :: back := by
    refine insertBefore_append ?_ ?_
    · intro u hu
      refine decide_eq_false ?_
      rintro rfl
      exact (List.nodup_append.mp hnodup).2.2 u hu u (List.mem_of_mem_head? hbefore) rfl
    · intro u hu
      exact decide_eq_true (hu.symm.trans hbefore)
  have hkey : insertByKey k.sched.prio t (front ++ back) = front ++ t :: back := by
    refine insertBefore_append ?_ ?_
    · intro u hu
      exact decide_eq_false (not_lt.mpr (hfront u hu))
    · intro u hu
      exact decide_eq_true (hlt u (hbefore.symm.trans hu))
  rw [hlink, hkey]

/-- The invariant of the order in which threads wait on condition variables. -/
structure CondOrderInv (k : Kernel) : Prop where
  sync : k.SyncInv
  alone : ∀ t, StoresAlone (k.stack t)
  scan : ∀ t, ∀ a ∈ k.stack t, k.CondScan t a
  ordered : ∀ c, k.waiters c = stableQueue k.sched.prio (waitArrivals c k.trace)

/-! ## Actions -/

section Act

variable (h : k.CondOrderInv) (hstack : k.stack k.running = a :: rest)
  (hk : k.step .lab2 .act = .ok k')

include h hstack hk in
theorem act_prio_waiters (hmem : u ∈ k.waiters c) : k'.sched.prio u = k.sched.prio u := by
  have hphase : k.waitPhase c u ≠ .outside := by
    rw [((h.sync.cond.account c u).unsignalled hmem).1]
    decide
  obtain ⟨b, hb, hwaits⟩ := mem_of_waitPhase hphase
  exact act_prio_waiting h.sync.block h.alone hstack hk hb hwaits

include h hstack hk in
theorem act_prio_same (ha : a.setsPriority = false) : k'.sched.prio = k.sched.prio := by
  rw [step_act hstack] at hk
  have hinit : ∀ s value, a = .semaphoreInit s value → (k.popped.sema s).waiters = [] := by
    rintro s value rfl
    exact h.sync.block.init_waiters hstack
  exact ((exec_serves h.sync.block.sched.pop hinit hk).2 ha).trans Sched.pop_prio

include hstack hk in
/-- Other actions leave the list of `c` alone. -/
theorem act_list_same (ha : a.listOf ≠ some c) :
    k'.waiters c = k.waiters c ∧ ∃ notes, k'.trace = notes ++ k.trace ∧
      ∀ n ∈ notes, n.changes c = false := by
  have hframed := act_framed hstack hk
  refine ⟨?_, k.popped.notesOf a, hframed.trace, ?_⟩
  · rw [hframed.waiters]
    cases a <;> try rfl
    case waitLink c' before | signalWaiter c' =>
      exact Function.update_of_ne (fun hc => ha (by rw [hc]; rfl)) _ _
  · intro n hn
    cases a <;> simp only [notesOf, List.not_mem_nil, List.mem_singleton] at hn
    case waitLink c' before =>
      rw [hn]
      exact decide_eq_false fun hc => ha (by rw [hc]; rfl)
    case signalWaiter c' =>
      obtain ⟨w, -, rfl⟩ := List.mem_map.mp hn
      exact decide_eq_false fun hc => ha (by rw [hc]; rfl)
    case semaphoreDown s | semaphoreRetest s old =>
      split_ifs at hn
      · cases hn
      · rw [List.mem_singleton.mp hn]
        rfl
    all_goals
      rw [hn]
      rfl

include hstack in
/-- While another thread owns the lock, the running one does nothing with the list of `c`. -/
theorem listOf_ne_of_owner (hlock : k.LockInv) (ht : t ≠ k.running)
    (howner : k.phase (condLock c) t = .owner) : a.listOf ≠ some c := by
  intro ha
  have hlocking : a.locking (condLock c) = some (.owner, .owner) := by
    cases a <;> try (cases ha; done)
    all_goals
      cases ha
      simp [Action.locking]
  have hrunning : k.phase (condLock c) k.running = .owner := by
    rw [phase, hstack]
    exact phaseOf_cons_some hlocking
  exact ht (@LockInv.unique k t (condLock c) hlock k.running (by simp [howner])
    (by simp [hrunning]))

include h hstack hk in
theorem act_ordered (c : CondId) :
    k'.waiters c = stableQueue k'.sched.prio (waitArrivals c k'.trace) := by
  have hold := h.ordered c
  have hframed := act_framed hstack hk
  by_cases hlink : ∃ before, a = .waitLink c before
  · obtain ⟨before, rfl⟩ := hlink
    have htrace : k'.trace = .enqueue c k.running :: k.trace := hframed.trace
    have hscan := h.scan k.running (.waitLink c before) (by simp [hstack])
    have hinsert := hscan.insert (h.sync.cond.waiters_nodup c)
    rw [act_prio_same h hstack hk rfl, htrace, waitArrivals, if_pos rfl, stableQueue_concat, ← hold,
      ← hinsert, hframed.waiters]
    exact Function.update_self _ _ _
  by_cases hsignal : a = .signalWaiter c
  · subst hsignal
    have htrace : k'.trace = (k.waiters c).head?.toList.map (.signal c) ++ k.trace := hframed.trace
    have hwaiters : k'.waiters c = (k.waiters c).tail := by
      rw [hframed.waiters]
      exact Function.update_self _ _ _
    rw [act_prio_same h hstack hk rfl, hwaiters, htrace]
    cases hw : k.waiters c with
    | nil => rw [hw] at hold; exact hold
    | cons w ws =>
      change ws = stableQueue k.sched.prio (waitArrivals c (.signal c w :: k.trace))
      rw [waitArrivals, if_pos rfl]
      exact (stableQueue_serve (hold.symm.trans hw)).symm
  · have hlist : a.listOf ≠ some c := by
      intro ha
      cases a <;> try (cases ha; done)
      case waitLink c' before =>
        cases ha
        exact hlink ⟨before, rfl⟩
      case signalWaiter c' =>
        cases ha
        exact hsignal rfl
    obtain ⟨hwaiters, notes, htrace, hnotes⟩ := act_list_same hstack hk hlist
    rw [hwaiters, htrace, waitArrivals_append hnotes, hold]
    refine (stableQueue_congr fun u hu => act_prio_waiters h hstack hk (c := c) ?_).symm
    rw [hold]
    exact mem_stableQueue.mpr hu

/-- A step of the scan. -/
theorem CondScan.next {d : Action} (hnodup : (k.waiters c).Nodup) (hold : k.CondScan t a)
    (hscans : a.scans = some c) (hwaiters : k'.waiters = k.waiters)
    (hprio : k'.sched.prio = k.sched.prio)
    (hcase : (a = .waitInspect c none ∧ d = .waitLink c none) ∨
      (∃ w, a = .waitInspect c (some w) ∧
        if k.sched.prio t > k.sched.prio w then d = .waitLink c (some w) else d = .waitNext c w) ∨
      ∃ w, a = .waitNext c w ∧ d = .waitInspect c (nextOn w (k.waiters c))) : k'.CondScan t d := by
  have hlift : k.CondScan t d → k'.CondScan t d := fun hd =>
    hd.congr (fun c' _ => congrFun hwaiters c') (congrFun hprio t) fun _ u _ => congrFun hprio u
  refine hlift ?_
  rcases hcase with ⟨rfl, rfl⟩ | ⟨w, rfl, hd⟩ | ⟨w, rfl, rfl⟩
  · obtain ⟨front, back, heq, hel, hfront⟩ := hold
    exact ⟨front, back, heq, hel, hfront, by simp⟩
  · obtain ⟨front, back, heq, hel, hfront⟩ := hold
    split_ifs at hd with hlt
    · subst hd
      refine ⟨front, back, heq, hel, hfront, ?_⟩
      intro u hu
      cases hu
      exact hlt
    · subst hd
      obtain ⟨rest, rfl⟩ := List.head?_eq_some_iff.mp hel
      refine ⟨front, rest, heq, ?_⟩
      intro u hu
      rcases List.mem_append.mp hu with hu | hu
      · exact hfront u hu
      · rw [List.mem_singleton.mp hu]
        exact not_lt.mp hlt
  · obtain ⟨front, back, heq, hfront⟩ := hold
    rw [heq] at hnodup
    have hw : w ∉ front := fun hmem =>
      (List.nodup_append.mp hnodup).2.2 w hmem w List.mem_cons_self rfl
    refine ⟨front ++ [w], back, by simp [heq], ?_, hfront⟩
    rw [heq, nextOn_append hw]

include h hstack hk in
/-- What the running thread has to do after an action of the scan. -/
theorem act_scan_running (hb : b ∈ k'.stack k.running) (hscans : b.scans = some c)
    (ha : a.setsLevel = false) : k'.CondScan k.running b := by
  obtain ⟨ns, pushed, hns, hconts, heq, -⟩ := h.sync.block.act_running hstack hk
  have hrest : b ∉ rest := by
    intro hmem
    have htop := h.sync.cond.top k.running
    rw [hstack] at htop
    have hno := htop b (by rwa [pending_cons_of_not_setsLevel ha])
    cases b <;> first | (cases hscans; done) | cases hno
  have hmem : b ∈ pushed := by
    rw [heq] at hb
    rcases List.mem_append.mp hb with hb | hb
    · rcases List.mem_append.mp hb with hb | hb
      · have hlevel := hns b hb
        cases b <;> first | (cases hscans; done) | cases hlevel
      · exact hb
    · exact absurd hb hrest
  have hexec := hk
  rw [step_act hstack] at hexec
  have hpushed : ∀ {d}, (pure (k.popped.push [d]) : Except Panic Kernel) = .ok k' →
      k'.waiters = k.waiters ∧ k'.sched.prio = k.sched.prio ∧ b = d := by
    intro d hd
    cases pure_eq_ok.mp hd
    refine ⟨rfl, (Sched.push_prio _).trans Sched.pop_prio, ?_⟩
    have hnew : (k.popped.push [d]).stack k.running = d :: rest := by
      have hpopped : k.popped.stack k.running = rest := popped_stack_running hstack
      rw [← hpopped]
      simp [push, stack]
    rw [hnew] at hb
    exact (List.mem_cons.mp hb).resolve_right hrest
  have hnodup := fun c => h.sync.cond.waiters_nodup c
  have hold : k.CondScan k.running a := h.scan k.running a (by simp [hstack])
  cases a
  case waitScan c' =>
    obtain ⟨hwaiters, hprio, rfl⟩ := hpushed hexec
    refine ⟨[], k'.waiters c', rfl, ?_, by simp⟩
    rw [hwaiters]
  case waitInspect c' el =>
    cases el with
    | none =>
      obtain ⟨hwaiters, hprio, rfl⟩ := hpushed hexec
      exact CondScan.next (hnodup c') hold rfl hwaiters hprio (.inl ⟨rfl, rfl⟩)
    | some w =>
      simp only [exec, waitInspect, bind_eq_ok] at hexec
      obtain ⟨cur, hcur, hexec⟩ := hexec
      obtain ⟨-, rfl⟩ := Sched.threadCurrent_eq_ok.mp hcur
      split at hexec
      · cases hexec
      · rename_i front fronts hfront
        have hw : front = w := h.sync.block.eq_of_mem_waiter (u := w) (c := c')
          (by rw [show (k.sema (.waiter w c')).waiters = _ from hfront]; exact List.mem_cons_self)
        subst hw
        have hcompare : (k.popped.thread k.popped.running).priority >
            (k.popped.thread front).priority ↔ k.sched.prio k.running > k.sched.prio front := by
          rw [← @Sched.pop_prio k.sched]
          rfl
        split_ifs at hexec with hlt
        · obtain ⟨hwaiters, hprio, rfl⟩ := hpushed hexec
          refine CondScan.next (hnodup c') hold rfl hwaiters hprio (.inr (.inl ⟨front, rfl, ?_⟩))
          rw [if_pos (hcompare.mp hlt)]
        · obtain ⟨hwaiters, hprio, rfl⟩ := hpushed hexec
          refine CondScan.next (hnodup c') hold rfl hwaiters hprio (.inr (.inl ⟨front, rfl, ?_⟩))
          rw [if_neg (mt hcompare.mpr hlt)]
  case waitNext c' w =>
    obtain ⟨hwaiters, hprio, rfl⟩ := hpushed hexec
    exact CondScan.next (hnodup c') hold rfl hwaiters hprio (.inr (.inr ⟨w, rfl, rfl⟩))
  all_goals exact .of_not_scans (hconts.scans_eq_none rfl b hmem)

include h hstack hk in
theorem act_scan (t : Tid) (hb : b ∈ k'.stack t) : k'.CondScan t b := by
  cases hscans : b.scans with
  | none => exact .of_not_scans hscans
  | some c =>
    have htopmost : b.topmost = true := by
      cases b <;> first | rfl | cases hscans
    have hwaiting : (b.waiting c).isSome = true := by
      cases b <;> try (cases hscans; done)
      all_goals
        cases hscans
        simp [Action.waiting]
    have hlift : b ∈ k.stack t → a.listOf ≠ some c → k'.CondScan t b := by
      intro hold hlist
      refine (h.scan t b hold).congr ?_ ?_ fun c u hu => act_prio_waiters h hstack hk hu
      · intro c' hc'
        rw [hscans] at hc'
        cases hc'
        exact (act_list_same hstack hk hlist).1
      · exact act_prio_waiting h.sync.block h.alone hstack hk hold hwaiting
    by_cases ht : t = k.running
    · subst ht
      cases ha : a.setsLevel with
      | false => exact act_scan_running h hstack hk hb hscans ha
      | true =>
        obtain ⟨ns, pushed, hns, hconts, heq, -⟩ := h.sync.block.act_running hstack hk
        obtain rfl := hconts.eq_nil ha
        have hold : b ∈ k.stack k.running := by
          rw [heq, List.append_nil] at hb
          rw [hstack]
          rcases List.mem_append.mp hb with hb | hb
          · have hlevel := hns b hb
            cases b <;> first | (cases hscans; done) | cases hlevel
          · exact List.mem_cons_of_mem a hb
        refine hlift hold ?_
        cases a <;> first | (cases ha; done) | simp [Action.listOf]
    · rcases h.sync.block.act_other hstack hk ht with heq | ⟨-, -, function, heq⟩
      · rw [heq] at hb
        have howner : k.phase (condLock c) t = .owner := by
          refine owner_of_topmost (h.sync.cond.top t) htopmost hb ?_
          cases b <;> try (cases hscans; done)
          all_goals
            cases hscans
            simp [Action.locking]
        exact hlift hb (listOf_ne_of_owner hstack h.sync.lock ht howner)
      · rw [heq] at hb
        rw [startStack_scans b hb] at hscans
        cases hscans

end Act

theorem CondOrderInv.act (h : k.CondOrderInv) (he : k.LockAdmits .act)
    (hk : k.step .lab2 .act = .ok k') : k'.CondOrderInv := by
  obtain ⟨a, rest, hstack⟩ := List.exists_cons_of_ne_nil he.1.1
  exact ⟨h.sync.step he hk, step_storesAlone h.sync.block.sched he.1.1 hk h.alone,
    fun t b hb => act_scan h hstack hk t hb, act_ordered h hstack hk⟩

/-- A step that changes neither a list nor a priority, nor begins a scan. -/
theorem CondOrderInv.quiet (h : k.CondOrderInv) (hsync : k'.SyncInv)
    (halone : ∀ t, StoresAlone (k'.stack t)) (hwaiters : k'.waiters = k.waiters)
    (hprio : k'.sched.prio = k.sched.prio) (htrace : k'.trace = k.trace)
    (hmem : ∀ t, ∀ b ∈ k'.stack t, b.scans = none ∨ b ∈ k.stack t) : k'.CondOrderInv := by
  refine ⟨hsync, halone, ?_, ?_⟩
  · intro t b hb
    rcases hmem t b hb with hnone | hold
    · exact .of_not_scans hnone
    · exact (h.scan t b hold).congr (fun c _ => congrFun hwaiters c) (congrFun hprio t)
        fun _ u _ => congrFun hprio u
  · intro c
    rw [hwaiters, hprio, htrace]
    exact h.ordered c

theorem CondOrderInv.step {e : Event} (h : k.CondOrderInv) (he : k.LockAdmits e)
    (hk : k.step .lab2 e = .ok k') : k'.CondOrderInv := by
  have hsync := h.sync.step he hk
  have halone := step_storesAlone h.sync.block.sched he.1.1 hk h.alone
  cases e with
  | act => exact h.act he hk
  | call op =>
    have hempty : k.stack k.running = [] := he.1.1
    obtain ⟨hrunning, hother⟩ := call_stack hempty hk
    refine h.quiet hsync halone ?_ ?_ ?_ ?_
    · cases pure_eq_ok.mp hk
      rfl
    · cases pure_eq_ok.mp hk
      exact Sched.push_prio _
    · cases pure_eq_ok.mp hk
      rfl
    · intro t b hb
      by_cases ht : t = k.running
      · subst ht
        rw [hrunning] at hb
        exact .inl (body_scans b hb)
      · exact .inr (hother t ht ▸ hb)
  | tick =>
    have hticked := (intrHandler_ticked_nil h.sync.block.sched h.sync.awake.timerList hk).1
    refine h.quiet hsync halone hticked.waiters (tick_serves h.sync.awake.timerList hk).2
      hticked.trace ?_
    intro t b hb
    obtain ⟨ns, hns, heq⟩ := tick_stack h.sync.block.sched hk t
    rw [heq] at hb
    rcases List.mem_append.mp hb with hb | hb
    · left
      have hlevel := hns b hb
      cases b <;> first | rfl | cases hlevel
    · exact .inr hb

theorem boot_condOrderInv (init : Nat → Nat) : (boot init).CondOrderInv := by
  have hstack : ∀ t, (boot init).stack t = if t = 0 then threadStart else [] := by
    intro t
    by_cases ht : t = 0 <;> simp [stack, boot, ht]
  refine ⟨boot_syncInv init, ?_, ?_, fun _ => rfl⟩
  · intro t priority hmem
    rw [hstack] at hmem
    split_ifs at hmem <;> simp [threadStart] at hmem
  · intro t b hb
    rw [hstack] at hb
    refine .of_not_scans ?_
    split_ifs at hb
    · simp only [threadStart, List.mem_cons, List.not_mem_nil, or_false] at hb
      rcases hb with rfl | rfl | rfl <;> rfl
    · cases hb

theorem reachable_condOrderInv {init : Nat → Nat}
    (hr : Reachable (Kernel.step .lab2) LockAdmits (boot init) k) : k.CondOrderInv :=
  @Reachable.invariant _ _ _ (Kernel.step .lab2) LockAdmits (boot init) CondOrderInv
    (boot_condOrderInv init) (fun _ _ _ _ h he hk => h.step he hk) k hr

/-- If the earlier waiters are blocked in their semaphores, the scan does not fail. -/
theorem CondOrderInv.inspect_succeeds {el : Option Tid} (h : k.CondOrderInv)
    (hstack : k.stack k.running = .waitInspect c el :: rest)
    (hblocked : ∀ w ∈ k.waiters c, k.AtRetest (.waiter w c) w) :
    ∃ k', k.step .lab2 .act = .ok k' := by
  rw [step_act hstack]
  cases el with
  | none => exact ⟨_, rfl⟩
  | some w =>
    obtain ⟨front, back, heq, hel, -⟩ :=
      h.scan k.running (.waitInspect c (some w)) (by simp [hstack])
    have hw : w ∈ k.waiters c := by
      rw [heq]
      exact List.mem_append_right _ (List.mem_of_mem_head? hel)
    have hmem := (h.sync.block.waits (.waiter w c) w).mpr (hblocked w hw)
    have hcur : k.popped.sched.threadCurrent = .ok k.running :=
      Sched.threadCurrent_eq_ok.mpr ⟨h.sync.block.sched.pop.runningOk, rfl⟩
    simp only [exec, waitInspect, hcur, ok_bind]
    cases hsema : (k.sema (.waiter w c)).waiters with
    | nil =>
      rw [hsema] at hmem
      cases hmem
    | cons u us =>
      simp only
      split_ifs
      · exact ⟨_, rfl⟩
      · exact ⟨_, rfl⟩

end Kernel

end CSE130.Pintos
