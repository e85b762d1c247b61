import CSE130.Pintos.CondOrder
import CSE130.Pintos.Progress

/-!
# What a signal wakes

A signal takes the waiter of a thread off the list of a condition variable and increments the private
semaphore of that thread, which makes the thread ready if it is blocked there, and no other thread. A
call of `condvar_broadcast` does so for every thread on the list, in the order of the list.
-/

namespace CSE130.Pintos

open CSE130.Library

namespace Kernel

variable {k k' : Kernel} {a : Action} {rest : List Action} {t u w : Tid} {c : CondId} {s : SemaId}
  {lab : Lab}

/-! ## Incrementing a private semaphore -/

theorem semaphoreUp_succeeds (h : k.sched.Inv) (hintr : k.sched.inExternalIntr = false)
    (hwoken : ∀ t ∈ k.wokenBy (.semaphoreUp s), (k.thread t).magic = true ∧
      (k.thread t).status = .blocked) : ∃ k', k.semaphoreUp lab s = .ok k' := by
  simp only [semaphoreUp_eq_ok]
  cases hw : (k.sema s).waiters with
  | nil =>
    have hset := Sched.intrSetLevel_eq_ok (s := k.sched.intrDisable) |>.mpr
      ⟨fun _ : k.sched.level = .on => hintr, rfl⟩
    exact ⟨_, _, hset, rfl⟩
  | cons t ts =>
    obtain ⟨hmagic, hblocked⟩ := hwoken t (by simp [wokenBy, hw])
    have hne : t ≠ k.sched.running := by
      rintro rfl
      rw [show (k.thread k.running).status = .running from h.runningOk.2] at hblocked
      cases hblocked
    have hpush : (k.sched.intrDisable.push [.intrSetLevel k.sched.level]).Inv :=
      (h.setLevel .off).push _
    have hthread : (k.sched.intrDisable.push [.intrSetLevel k.sched.level]).thread t =
        k.sched.thread t := by
      simp [Sched.intrDisable, hne]
    obtain ⟨sched, hs⟩ := @Sched.threadUnblock_succeeds _ t lab hpush hintr
      ((congrArg Thread.magic hthread).trans hmagic) ((congrArg Thread.status hthread).trans hblocked)
    exact ⟨_, sched, hs, rfl⟩

/-- What incrementing the private semaphore of `w` does to the threads: `w` is woken if it is blocked
there, and of the others, none becomes blocked or ready. The idle thread is left out. -/
structure Wakes (c : CondId) (w : Tid) (k k' : Kernel) : Prop where
  value : (k'.sema (.waiter w c)).value = 1
  woken : k.AtRetest (.waiter w c) w →
    (k'.thread w).status = .ready ∨ (k'.thread w).status = .running
  others : ∀ t, t ≠ w → some t ≠ k.sched.idleThread →
    ((k'.thread t).status = .blocked ↔ (k.thread t).status = .blocked)

/-- Nobody but `w` waits on the private semaphore of `w`. -/
theorem BlockInv.mem_wokenBy_waiter (h : k.BlockInv) :
    t ∈ k.wokenBy (.semaphoreUp (.waiter w c)) ↔ t = w ∧ k.AtRetest (.waiter w c) w := by
  have honly : ∀ v ∈ (k.sema (.waiter w c)).waiters, v = w := fun v hv => h.eq_of_mem_waiter hv
  rw [← h.waits]
  cases hw : (k.sema (.waiter w c)).waiters with
  | nil => simp [wokenBy, hw]
  | cons v vs =>
    have hv : v = w := honly v (by simp [hw])
    simp [wokenBy, hw, hv]

/-- The step of `semaphore_up` in `condvar_signal`. -/
theorem SyncInv.semaphoreUp_wakes (h : k.SyncInv)
    (hstack : k.stack k.running = .semaphoreUp (.waiter w c) :: rest) :
    ∃ k', k.step .lab2 .act = .ok k' ∧ Wakes c w k k' := by
  have hpopped : k.popped.sched.Inv := h.block.sched.pop
  have hwokenPopped : ∀ t ∈ k.popped.wokenBy (.semaphoreUp (.waiter w c)),
      (k.popped.thread t).magic = true ∧ (k.popped.thread t).status = .blocked := by
    intro t ht
    obtain ⟨rfl, hrest⟩ := h.block.mem_wokenBy_waiter.mp (show t ∈ k.wokenBy _ from ht)
    obtain ⟨hne, -, hmagic, -⟩ := h.block.waiter hrest
    have hund := @popped_undisturbed k t hne
    exact ⟨hund.magic.trans hmagic, hund.blocked.mpr hrest.1⟩
  have hup : ∃ k', k.popped.semaphoreUp .lab2 (.waiter w c) = .ok k' :=
    semaphoreUp_succeeds hpopped h.block.intr hwokenPopped
  obtain ⟨k', hk⟩ := hup
  have hstep : k.step .lab2 .act = .ok k' := (step_act hstack).trans hk
  have hidle : some k.running ≠ k.sched.idleThread := by
    intro hidle
    rcases h.block.idle_mem hidle (a := .semaphoreUp (.waiter w c)) (by simp [hstack]) with
      hno | hno | hno <;> cases hno
  obtain ⟨pushed, -, -, hmoves⟩ := exec_moves hpopped (a := .semaphoreUp (.waiter w c)) rfl hk
  refine ⟨k', hstep, ?_, ?_, ?_⟩
  · have hacc : k.Account c w := h.cond.account c w
    obtain ⟨hzero, -⟩ := Balanced.up hacc ⟨k.running, by simp [hstack]⟩
    rw [(act_framed hstack hstep).sema]
    simp [semaAfter, hzero]
  · intro hrest
    obtain ⟨hne, hidleW, -, -⟩ := h.block.waiter hrest
    have hblocked := act_woken h.block.sched hstack hstep hne hidleW
      (h.block.mem_wokenBy_waiter.mpr ⟨rfl, hrest⟩)
    have hdying : (k'.thread w).status ≠ .dying := by
      intro hdying
      have hbefore := (hmoves.dying w hidleW).mp hdying
      rw [show (k.popped.sched.thread w).status = _ from
        (@popped_undisturbed k w hne).blocked.mpr hrest.1] at hbefore
      cases hbefore
    cases hstatus : (k'.thread w).status with
    | running => exact .inr rfl
    | ready => exact .inl rfl
    | blocked => exact absurd hstatus hblocked
    | dying => exact absurd hstatus hdying
  · intro t htw hidleT
    by_cases ht : t = k.running
    · subst ht
      refine iff_of_false ?_ ?_
      · intro hblocked
        exact (hmoves.blocked_running hidleT).mp hblocked
      · rw [show (k.thread k.running).status = _ from h.block.sched.runningOk.2]
        decide
    · have hstay := hmoves.blocked_of_ne ht hidleT
      have hnot : t ∉ k.wokenBy (.semaphoreUp (.waiter w c)) :=
        fun hmem => htw (h.block.mem_wokenBy_waiter.mp hmem).1
      exact hstay.trans ((and_iff_left hnot).trans (@popped_undisturbed k t ht).blocked)

/-! ## A call of `condvar_broadcast` -/

/-- The notes about the list of `c` in a run, in the order of time. -/
def changesOf (c : CondId) (notes : List Note) : List Note :=
  (notes.filter (Note.changes c)).reverse

theorem changesOf_append {notes earlier : List Note} :
    changesOf c (notes ++ earlier) = changesOf c earlier ++ changesOf c notes := by
  simp [changesOf]

theorem changesOf_eq_nil {notes : List Note} (h : ∀ n ∈ notes, n.changes c = false) :
    changesOf c notes = [] := by
  rw [changesOf, List.filter_eq_nil_iff.mpr fun n hn => by simp [h n hn], List.reverse_nil]

/-- In a run from `k₁`, in which `t` has called `condvar_broadcast`, the loop goes on: the signals
given so far and those still to be given are those for the waiters in `k₁`. -/
structure Broadcasting (c : CondId) (t : Tid) (rest : List Action) (k₁ k : Kernel) : Prop where
  stack : ∃ as, k.stack t = as ++ .broadcast c :: rest ∧ ∀ a ∈ as, a.signalsOn c = true
  notes : ∃ notes, k.trace = notes ++ k₁.trace ∧
    changesOf c notes ++ (k.waiters c).map (.signal c) = (k₁.waiters c).map (.signal c)

/-- Thread `w` need not wait any longer on its private semaphore, in which it waited in `k₁`: it has
decremented the semaphore since, or it can. -/
def Released (c : CondId) (w : Tid) (k₁ k : Kernel) : Prop :=
  k₁.downs (.waiter w c) < k.downs (.waiter w c) ∨ (k.sema (.waiter w c)).value ≠ 0

/-- The waiters in `k₁` have been signalled in their order, and released. -/
structure Broadcasted (c : CondId) (k₁ k : Kernel) : Prop where
  notes : ∃ notes, k.trace = notes ++ k₁.trace ∧
    (k₁.waiters c).map (.signal c) <+: changesOf c notes
  released : ∀ w ∈ k₁.waiters c, Released c w k₁ k

section Broadcast

variable {k₁ : Kernel}

theorem locking_of_signalsOn (h : a.signalsOn c = true) :
    a.locking (condLock c) = none ∨ a.locking (condLock c) = some (.owner, .owner) := by
  cases a <;> try (cases h; done)
  case heldCheck l =>
    right
    simp [Action.locking, show l = condLock c from of_decide_eq_true h]
  case signalWaiter c' =>
    right
    simp [Action.locking, show c' = c from of_decide_eq_true h]
  case semaphoreUp s =>
    cases s <;> try cases h
    case waiter w c' =>
      right
      simp [Action.locking, show c' = c from of_decide_eq_true h]
  all_goals exact .inl rfl

theorem phaseOf_signalsOn {last : LockPhase} {as : List Action}
    (h : ∀ a ∈ as, a.signalsOn c = true) :
    phaseOf (Action.locking (condLock c)) last (as ++ .broadcast c :: rest) = .owner := by
  induction as with
  | nil =>
    have hlocking : (Action.broadcast c).locking (condLock c) = some (.owner, .owner) := by
      simp [Action.locking]
    exact phaseOf_cons_some hlocking
  | cons a as ih =>
    have hrest := ih fun b hb => h b (List.mem_cons_of_mem a hb)
    rcases locking_of_signalsOn (h a List.mem_cons_self) with hnone | howner
    · rw [List.cons_append, phaseOf_cons_none hnone, hrest]
    · exact phaseOf_cons_some howner

/-- A step that leaves the list alone. -/
theorem Broadcasting.same (h : Broadcasting c t rest k₁ k) {as : List Action}
    (hstack : k'.stack t = as ++ .broadcast c :: rest) (has : ∀ a ∈ as, a.signalsOn c = true)
    (hwaiters : k'.waiters c = k.waiters c) {notes : List Note}
    (htrace : k'.trace = notes ++ k.trace) (hnotes : ∀ n ∈ notes, n.changes c = false) :
    Broadcasting c t rest k₁ k' := by
  obtain ⟨earlier, hearlier, hserved⟩ := h.notes
  refine ⟨⟨as, hstack, has⟩, notes ++ earlier, ?_, ?_⟩
  · rw [htrace, hearlier, List.append_assoc]
  · rw [changesOf_append, changesOf_eq_nil hnotes, List.append_nil, hwaiters, hserved]

/-- While a thread is at the head of the loop, no semaphore is still to be incremented. -/
theorem SyncInv.not_posting (h : k.SyncInv)
    (hstack : k.stack k.running = .broadcast c :: rest) : ¬ k.Posting c w := by
  rintro ⟨v, hv⟩
  have howner : k.phase (condLock c) v = .owner :=
    owner_of_topmost (h.cond.top v) rfl hv (by simp [Action.locking])
  have hrunning : k.phase (condLock c) k.running = .owner := by
    have hlocking : (Action.broadcast c).locking (condLock c) = some (.owner, .owner) := by
      simp [Action.locking]
    rw [phase, hstack]
    exact phaseOf_cons_some hlocking
  obtain rfl : v = k.running := @LockInv.unique k v (condLock c) h.lock k.running
    (by simp [howner]) (by simp [hrunning])
  obtain ⟨tl, htop⟩ := (h.cond.top k.running).head rfl hv
  rw [hstack, pending_cons_of_not_setsLevel rfl] at htop
  cases htop

/-- At the end of the loop every thread that has been signalled in it is released. -/
theorem released_of_signalled (h₁ : k₁.SyncInv) (h : k.SyncInv)
    (hstack : k.stack k.running = .broadcast c :: rest) {notes : List Note}
    (htrace : k.trace = notes ++ k₁.trace) (hw : w ∈ k₁.waiters c)
    (hsignal : .signal c w ∈ notes) : Released c w k₁ k := by
  have hacc₁ : k₁.Account c w := h₁.cond.account c w
  have hacc : k.Account c w := h.cond.account c w
  have hle := Balanced.le hacc₁
  have hcount₁ := hacc₁.signals
  have hmem := List.count_pos_iff.mpr hw
  have hposted := hacc.posted (h.not_posting hstack)
  have hmore : k₁.signals c w < k.signals c w := by
    have hpos := List.count_pos_iff.mpr hsignal
    rw [signals, signals, htrace, List.count_append]
    omega
  rw [Released]
  omega

/-- The test of the loop. -/
theorem Broadcasting.test (h₁ : k₁.SyncInv) (hinv : k.SyncInv)
    (h : Broadcasting c t rest k₁ k) (ht : t = k.running)
    (hstack : k.stack k.running = .broadcast c :: rest) (hk : k.step .lab2 .act = .ok k') :
    Broadcasting c t rest k₁ k' ∨ Broadcasted c k₁ k' := by
  subst ht
  have hexec := hk
  rw [step_act hstack, exec] at hexec
  have hpopped : k.popped.stack k.running = rest := popped_stack_running hstack
  split_ifs at hexec with hempty
  · right
    cases pure_eq_ok.mp hexec
    obtain ⟨notes, htrace, hserved⟩ := h.notes
    rw [show k.waiters c = [] from hempty, List.map_nil, List.append_nil] at hserved
    refine ⟨⟨notes, htrace, by rw [hserved]⟩, fun w hw => ?_⟩
    have hsignal : .signal c w ∈ changesOf c notes := by
      rw [hserved]
      exact List.mem_map_of_mem hw
    rw [changesOf, List.mem_reverse] at hsignal
    change Released c w k₁ k
    exact released_of_signalled h₁ hinv hstack htrace hw (List.mem_of_mem_filter hsignal)
  · left
    cases pure_eq_ok.mp hexec
    refine @Broadcasting.same _ _ _ _ _ _ h (condvarSignal c) ?_ ?_ rfl [] rfl (by simp)
    · rw [← hpopped]
      simp [push, Kernel.stack]
    · simp [condvarSignal, Action.signalsOn]

/-- An action of `condvar_signal` in the loop. -/
theorem Broadcasting.signal {as : List Action} (hinv : k.CondOrderInv)
    (h : Broadcasting c k.running rest k₁ k)
    (hstack : k.stack k.running = a :: (as ++ .broadcast c :: rest)) (ha : a.signalsOn c = true)
    (has : ∀ b ∈ as, b.signalsOn c = true) (hk : k.step .lab2 .act = .ok k') :
    Broadcasting c k.running rest k₁ k' := by
  obtain ⟨ns, pushed, hns, hconts, heq, -⟩ := hinv.sync.block.act_running hstack hk
  have hframed := act_framed hstack hk
  have hnew : k'.stack k.running = (ns ++ pushed ++ as) ++ .broadcast c :: rest := by
    rw [heq]
    simp
  have hall : ∀ b ∈ ns ++ pushed ++ as, b.signalsOn c = true := by
    intro b hb
    rcases List.mem_append.mp hb with hb | hb
    · rcases List.mem_append.mp hb with hb | hb
      · have hlevel := hns b hb
        cases b <;> first | rfl | cases hlevel
      · cases hconts <;> try cases ha
        case done => cases hb
        case signal c' w =>
          rw [List.mem_singleton.mp hb]
          exact ha
    · exact has b hb
  by_cases hlist : a.listOf = some c
  · obtain rfl : a = .signalWaiter c := by
      cases a <;> try (cases hlist; done)
      case signalWaiter c' =>
        cases hlist
        rfl
      case waitLink => cases ha
    obtain ⟨notes, htrace, hserved⟩ := h.notes
    have htrace' : k'.trace = (k.waiters c).head?.toList.map (.signal c) ++ k.trace := hframed.trace
    have hwaiters : k'.waiters c = (k.waiters c).tail := by
      rw [hframed.waiters]
      exact Function.update_self _ _ _
    refine ⟨⟨_, hnew, hall⟩, (k.waiters c).head?.toList.map (.signal c) ++ notes, ?_, ?_⟩
    · rw [htrace', htrace, List.append_assoc]
    · rw [← hserved, changesOf_append, hwaiters, List.append_assoc]
      cases k.waiters c with
      | nil => rfl
      | cons w ws => simp [changesOf, Note.changes]
  · obtain ⟨hwaiters, notes, htrace, hnotes⟩ := act_list_same hstack hk hlist
    exact h.same hnew hall hwaiters htrace hnotes

theorem step_trace {e : Event} (h : k.SyncInv) (he : k.Enabled e) (hk : k.step .lab2 e = .ok k') :
    ∃ notes, k'.trace = notes ++ k.trace := by
  cases e with
  | act =>
    obtain ⟨a, rest, hstack⟩ := List.exists_cons_of_ne_nil he
    exact ⟨_, (act_framed hstack hk).trace⟩
  | call op =>
    cases pure_eq_ok.mp hk
    exact ⟨[], rfl⟩
  | tick => exact ⟨_, (intrHandler_ticked_nil h.block.sched h.awake.timerList hk).1.trace⟩

theorem downs_le {s : SemaId} {notes : List Note} (htrace : k'.trace = notes ++ k.trace) :
    k.downs s ≤ k'.downs s := by
  rw [downs, downs, htrace, List.countP_append]
  omega

/-- A private semaphore is decremented by its own thread only, in `semaphore_down`. -/
theorem act_value (h : k.SyncInv) (hstack : k.stack k.running = a :: rest)
    (hk : k.step .lab2 .act = .ok k') (hvalue : (k.sema (.waiter w c)).value ≠ 0) :
    Released c w k k' := by
  have hframed := act_framed hstack hk
  have hsema := congrFun hframed.sema (.waiter w c)
  have hok := (h.block.stackOk k.running).ok a (by simp [hstack])
  have hsame : k.popped.semaAfter .lab2 a (.waiter w c) = k.sema (.waiter w c) →
      Released c w k k' := by
    intro heq
    right
    rwa [hsema, heq]
  cases a
  case semaphoreInit s value =>
    obtain ⟨c', rfl, rfl⟩ := hok
    by_cases hown : SemaId.waiter w c = .waiter k.running c'
    · -- it is initialised before the thread waits, when the value is 0
      obtain ⟨rfl, rfl⟩ := SemaId.waiter.inj hown
      have hacc : k.Account c k.running := h.cond.account c k.running
      have hphase : k.waitPhase c k.running = .outside := by
        have hwaiting : (Action.semaphoreInit (.waiter k.running c) 0).waiting c =
            some (.outside, .entering) := by
          simp [Action.waiting]
        rw [waitPhase, hstack]
        exact phaseOf_cons_some hwaiting
      rw [Account, hphase] at hacc
      exact absurd hacc.init.1 hvalue
    · exact hsame (Function.update_of_ne hown _ _)
  case semaphoreDown s | semaphoreRetest s old =>
    by_cases hs : SemaId.waiter w c = s
    · left
      subst hs
      have htrace : k'.trace = [.down (.waiter w c) k.running] ++ k.trace := by
        rw [hframed.trace]
        exact congrArg (· ++ k.trace) (if_neg hvalue)
      rw [downs, downs, htrace, List.countP_append]
      simp [Note.isDown]
    · exact hsame (Function.update_of_ne hs _ _)
  case semaphoreUp s =>
    by_cases hs : SemaId.waiter w c = s
    · subst hs
      have hacc : k.Account c w := h.cond.account c w
      exact absurd (Balanced.up hacc ⟨k.running, by simp [hstack]⟩).1 hvalue
    · exact hsame (Function.update_of_ne hs _ _)
  all_goals exact hsame rfl

theorem Released.step {e : Event} (hsync : k.SyncInv) (hdowns : k₁.downs (.waiter w c) ≤
    k.downs (.waiter w c)) (h : Released c w k₁ k) (he : k.Enabled e)
    (hk : k.step .lab2 e = .ok k') : Released c w k₁ k' := by
  obtain ⟨later, hlater⟩ := step_trace hsync he hk
  have hle := @downs_le k k' (.waiter w c) later hlater
  rcases h with hdown | hvalue
  · exact .inl (Nat.lt_of_lt_of_le hdown hle)
  · cases e with
    | act =>
      obtain ⟨a, rest, hstack⟩ := List.exists_cons_of_ne_nil he
      rcases act_value hsync hstack hk hvalue with hdown | hvalue'
      · exact .inl (Nat.lt_of_le_of_lt hdowns hdown)
      · exact .inr hvalue'
    | call op =>
      cases pure_eq_ok.mp hk
      exact .inr hvalue
    | tick =>
      right
      rwa [(intrHandler_ticked_nil hsync.block.sched hsync.awake.timerList hk).1.sema]

theorem Broadcasted.step {e : Event} (hsync : k.SyncInv) (h : Broadcasted c k₁ k)
    (he : k.Enabled e) (hk : k.step .lab2 e = .ok k') : Broadcasted c k₁ k' := by
  obtain ⟨⟨notes, htrace, hserved⟩, hreleased⟩ := h
  obtain ⟨later, hlater⟩ := step_trace hsync he hk
  refine ⟨⟨later ++ notes, by rw [hlater, htrace, List.append_assoc], ?_⟩, fun w hw => ?_⟩
  · rw [changesOf_append]
    exact hserved.trans (List.prefix_append _ _)
  · exact (hreleased w hw).step hsync (downs_le htrace) he hk

theorem Broadcasting.step {e : Event} (h₁ : k₁.SyncInv) (hinv : k.CondOrderInv)
    (h : Broadcasting c t rest k₁ k)
    (he : k.LockAdmits e) (hk : k.step .lab2 e = .ok k') :
    Broadcasting c t rest k₁ k' ∨ Broadcasted c k₁ k' := by
  obtain ⟨as, hst, has⟩ := h.stack
  have hblock := hinv.sync.block
  cases e with
  | act =>
    obtain ⟨a, rest', hstack⟩ := List.exists_cons_of_ne_nil he.1.1
    by_cases ht : t = k.running
    · subst ht
      cases as with
      | nil => exact h.test h₁ hinv.sync rfl hst hk
      | cons a as =>
        exact .inl (h.signal hinv hst (has a List.mem_cons_self)
          (fun b hb => has b (List.mem_cons_of_mem a hb)) hk)
    · left
      have howner : k.phase (condLock c) t = .owner := by
        rw [phase, hst]
        exact phaseOf_signalsOn has
      obtain ⟨hwaiters, notes, htrace, hnotes⟩ :=
        act_list_same hstack hk (listOf_ne_of_owner hstack hinv.sync.lock ht howner)
      rcases hblock.act_other hstack hk ht with heq | ⟨-, hempty, -⟩
      · exact h.same (heq.trans hst) has hwaiters htrace hnotes
      · rw [hempty] at hst
        simp at hst
  | call op =>
    left
    have hne : t ≠ k.running := by
      rintro rfl
      rw [show k.stack k.running = [] from he.1.1] at hst
      simp at hst
    have heq := (call_stack he.1.1 hk).2 t hne
    cases pure_eq_ok.mp hk
    exact @Broadcasting.same _ _ _ _ _ _ h as (heq.trans hst) has rfl [] rfl (by simp)
  | tick =>
    left
    have hticked := (intrHandler_ticked_nil hblock.sched hinv.sync.awake.timerList hk).1
    obtain ⟨ns, hns, heq⟩ := tick_stack hblock.sched hk t
    refine @Broadcasting.same _ _ _ _ _ _ h (ns ++ as) ?_ ?_ (congrFun hticked.waiters c) []
      hticked.trace (by simp)
    · rw [heq, hst, List.append_assoc]
    · intro b hb
      rcases List.mem_append.mp hb with hb | hb
      · have hlevel := hns b hb
        cases b <;> first | rfl | cases hlevel
      · exact has b hb

theorem broadcasting_run {init : Nat → Nat}
    (hr : Reachable (Kernel.step .lab2) LockAdmits (boot init) k₁)
    (hstack : k₁.stack k₁.running = .broadcast c :: rest)
    (hrun : Reachable (Kernel.step .lab2) LockAdmits k₁ k) :
    Broadcasting c k₁.running rest k₁ k ∨ Broadcasted c k₁ k := by
  refine @Reachable.invariant _ _ _ (Kernel.step .lab2) LockAdmits k₁
    (fun k => Broadcasting c k₁.running rest k₁ k ∨ Broadcasted c k₁ k) (.inl ?_) ?_ k hrun
  · exact ⟨⟨[], hstack, by simp⟩, [], rfl, rfl⟩
  · intro k e k' hrk hor he hk
    have hinv := reachable_condOrderInv (hr.trans hrk)
    rcases hor with hgoes | hdone
    · exact hgoes.step (reachable_condOrderInv hr).sync hinv he hk
    · exact .inr (hdone.step hinv.sync he.1.1 hk)

end Broadcast

/-- In Lab 2 the list of a condition variable is in the order of the priorities of the waiting
threads, and those of equal priority are in the order in which they came. A scan that finds the
earlier waiters blocked does not fail. A signal takes off the thread that came first among those of
the greatest priority, and increments its semaphore, which wakes it and no other thread. From the
call of `condvar_broadcast` to its return the list changes only by the signals for its threads, in
their order, and at the return each of these threads has gone on, or is not blocked and finds its
semaphore incremented. -/
theorem condvar_wakes_most_urgent {init : Nat → Nat} (c : CondId)
    (hr : Reachable (Kernel.step .lab2) LockAdmits (boot init) k) :
    (OrderedByKey k.sched.prio (k.waiters c) ∧ ∀ p,
      (k.waiters c).filter (fun t => k.sched.prio t = p) =
        (waitArrivals c k.trace).filter (fun t => k.sched.prio t = p)) ∧
    (∀ el rest, k.stack k.running = .waitInspect c el :: rest →
      (∀ w ∈ k.waiters c, k.AtRetest (.waiter w c) w) → ∃ k', k.step .lab2 .act = .ok k') ∧
    (∀ rest w ws, k.stack k.running = .signalWaiter c :: rest → k.waiters c = w :: ws →
      FirstOfMax k.sched.prio (waitArrivals c k.trace) w ∧ ∃ k', k.step .lab2 .act = .ok k' ∧
        k'.waiters c = ws ∧ k'.stack k.running = .semaphoreUp (.waiter w c) :: rest) ∧
    (∀ rest w, k.stack k.running = .semaphoreUp (.waiter w c) :: rest →
      ∃ k', k.step .lab2 .act = .ok k' ∧ Wakes c w k k') ∧
    (∀ rest, k.stack k.running = .broadcast c :: rest →
      ∀ k₂, Reachable (Kernel.step .lab2) LockAdmits k k₂ → k₂.stack k.running = rest →
        (∃ notes, k₂.trace = notes ++ k.trace ∧
          (k.waiters c).map (.signal c) <+: changesOf c notes) ∧
        ∀ w ∈ k.waiters c, k.downs (.waiter w c) < k₂.downs (.waiter w c) ∨
          (k₂.sema (.waiter w c)).value ≠ 0 ∧ ¬ k₂.AtRetest (.waiter w c) w) := by
  have h := reachable_condOrderInv hr
  have hordered := h.ordered c
  refine ⟨?_, fun el rest => h.inspect_succeeds, ?_, fun rest w => h.sync.semaphoreUp_wakes, ?_⟩
  · rw [hordered]
    exact ⟨stableQueue_ordered _ _, filter_stableQueue _ _⟩
  · intro rest w ws hstack hw
    refine ⟨firstOfMax_of_stableQueue_eq (hordered.symm.trans hw), k.popped.signalWaiter c,
      step_act hstack, ?_⟩
    have hrest : k.popped.stack k.running = rest := popped_stack_running hstack
    rw [signalWaiter, show k.popped.waiters c = w :: ws from hw]
    refine ⟨Function.update_self _ _ _, ?_⟩
    rw [← hrest]
    simp [push, note, setWaiters, stack]
  · intro rest hstack k₂ hrun hreturned
    rcases broadcasting_run hr hstack hrun with hgoes | hdone
    · obtain ⟨as, hst, -⟩ := hgoes.stack
      have hlen := congrArg List.length (hreturned.symm.trans hst)
      simp at hlen
      omega
    · refine ⟨hdone.notes, fun w hw => (hdone.released w hw).imp_right fun hvalue => ⟨hvalue, ?_⟩⟩
      rintro ⟨hblocked, old, hhead⟩
      have hasleep := (reachable_syncInv (hr.trans hrun)).cond.asleep w c old hhead
      exact hvalue (hasleep.mp hblocked)

/-- Two threads of priorities 20 and 25 wait, the second one first, and `main` calls
`condvar_broadcast`. -/
def waitTwo : List Event :=
  starting ++ Event.call (.threadCreate 2 20) :: List.replicate 9 Event.act ++
    Event.call (.threadCreate 3 25) :: List.replicate 9 Event.act ++
    Event.call (.threadSetPriority 10) :: List.replicate 3 Event.act ++
    Event.call (.lockAcquire 0) :: List.replicate 4 Event.act ++
    Event.call (.condvarWait ⟨0, 0⟩) :: List.replicate 11 Event.act ++
    Event.call (.lockAcquire 0) :: List.replicate 4 Event.act ++
    Event.call (.condvarWait ⟨0, 0⟩) :: List.replicate 13 Event.act ++
    Event.call (.threadSetPriority 31) :: List.replicate 3 Event.act ++
    Event.call (.lockAcquire 0) :: List.replicate 4 Event.act ++
    [Event.call (.condvarBroadcast ⟨0, 0⟩)]

theorem condvar_wakes_most_urgent_waitTwo : ∃ k k₂ : Kernel, ∃ notes : List Note,
    runLocked .lab2 (fun _ => 0) waitTwo = some k ∧ k.waiters ⟨0, 0⟩ = [3, 2] ∧
    run (Kernel.step .lab2) lockAdmits k (List.replicate 13 .act) = some k₂ ∧
    k₂.stack k.running = [] ∧ k₂.trace = notes ++ k.trace ∧
    [.signal ⟨0, 0⟩ 3, .signal ⟨0, 0⟩ 2] <+: changesOf ⟨0, 0⟩ notes := by
  have hrun : ((runLocked .lab2 (fun _ => 0) waitTwo).bind fun k =>
      (run (Kernel.step .lab2) lockAdmits k (List.replicate 13 .act)).map fun k₂ => (k, k₂)).map
      (fun p => (p.1.stack p.1.running, p.1.waiters ⟨0, 0⟩, p.2.stack p.1.running)) =
      some ([.broadcast ⟨0, 0⟩], [3, 2], []) := by
    decide +kernel
  obtain ⟨⟨k, k₂⟩, hboth, heq⟩ := Option.map_eq_some_iff.mp hrun
  simp only [Prod.mk.injEq] at heq
  obtain ⟨hstack, hwaiters, hreturned⟩ := heq
  obtain ⟨k', hk, hk₂⟩ := Option.bind_eq_some_iff.mp hboth
  obtain ⟨k₂', hk₂, hpair⟩ := Option.map_eq_some_iff.mp hk₂
  cases hpair
  have hlater : Reachable (Kernel.step .lab2) LockAdmits k k₂ :=
    reachable_of_run (fun _ _ => lockAdmits_of_eq_true) .start hk₂
  obtain ⟨-, -, -, -, hbroadcast⟩ := condvar_wakes_most_urgent ⟨0, 0⟩ (reachable_of_runLocked hk)
  obtain ⟨⟨notes, htrace, hserved⟩, -⟩ := hbroadcast [] hstack k₂ hlater hreturned
  rw [hwaiters] at hserved
  exact ⟨k, k₂, notes, hk, hwaiters, hk₂, hreturned, htrace, hserved⟩

end Kernel

end CSE130.Pintos
