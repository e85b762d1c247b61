import CSE130.Pintos.KernelStep
import Mathlib.Data.Finset.Card
import Mathlib.Data.Finset.Insert

/-!
# Semaphores lose no wake-up

The value of a semaphore is its initial value plus the increments minus the decrements, modulo
`2 ^ 32`. While threads wait on it, its value is at most the number of threads that have been woken
and have not tested it again.
-/

namespace CSE130.Pintos

open CSE130.Library

/-- The note that `semaphore_down` has decremented `s`. -/
def Note.isDown (s : SemaId) : Note → Bool
  | .down s' _ => s' = s
  | _ => false

/-- The action of going on in the loop of `semaphore_down` on `s`. -/
def Action.retests (s : SemaId) : Action → Bool
  | .semaphoreRetest s' _ => s' = s
  | _ => false

namespace Kernel

variable {k k' : Kernel} {lab : Lab} {a : Action} {rest : List Action} {t : Tid} {s : SemaId}

/-- The increments of `s` so far. -/
def ups (k : Kernel) (s : SemaId) : Nat := k.trace.count (.up s)

/-- The decrements of `s` so far. -/
def downs (k : Kernel) (s : SemaId) : Nat := k.trace.countP (Note.isDown s)

/-- The threads that have waited on `s`, have been woken, and have not tested `s` again. -/
def wokenWaiters (k : Kernel) (s : SemaId) : Finset Tid :=
  k.sched.allList.toFinset.filter fun t =>
    (k.stack t).head?.any (Action.retests s) = true ∧ (k.thread t).status ≠ .blocked

theorem mem_wokenWaiters : t ∈ k.wokenWaiters s ↔ t ∈ k.sched.allList ∧
    (∃ old, (k.stack t).head? = some (.semaphoreRetest s old)) ∧
    (k.thread t).status ≠ .blocked := by
  have hhead : (k.stack t).head?.any (Action.retests s) = true ↔
      ∃ old, (k.stack t).head? = some (.semaphoreRetest s old) := by
    rw [Option.any_eq_true]
    constructor
    · rintro ⟨b, hb, hret⟩
      cases b
      case semaphoreRetest s' old =>
        obtain rfl : s' = s := of_decide_eq_true hret
        exact ⟨old, hb⟩
      all_goals cases hret
    · rintro ⟨old, hold⟩
      exact ⟨_, hold, decide_eq_true rfl⟩
  simp only [wokenWaiters, Finset.mem_filter, List.mem_toFinset, hhead]

/-! ## The value -/

/-- The value of the semaphore `n` of the threads' own code, with the multiple of `2 ^ 32` that it
has lost by overflow. -/
def Counts (init : Nat → Nat) (n : Nat) (k : Kernel) : Prop :=
  (k.sema (.user n)).value < 2 ^ 32 ∧ ∃ q, init n % 2 ^ 32 + k.ups (.user n) =
    (k.sema (.user n)).value + k.downs (.user n) + 2 ^ 32 * q

/-- The semaphores of the threads' own code are initialised only once. -/
theorem BlockInv.init_ne_user {n : Nat} {value : Nat} (h : k.BlockInv)
    (hstack : k.stack k.running = a :: rest) : a ≠ .semaphoreInit (.user n) value := by
  rintro rfl
  obtain ⟨c, hc, -⟩ := (h.stackOk k.running).ok (.semaphoreInit (.user n) value) (by simp [hstack])
  cases hc

theorem Counts.act {init : Nat → Nat} {n : Nat} (hblock : k.BlockInv) (h : k.Counts init n)
    (hstack : k.stack k.running = a :: rest) (hk : k.step lab .act = .ok k') :
    k'.Counts init n := by
  have hinit := @BlockInv.init_ne_user k a rest n
  rw [step_act hstack] at hk
  have hframed := exec_framed hk
  obtain ⟨hlt, q, hq⟩ := h
  have hdown : ∀ s', k'.sema = Function.update k.sema s'
      (if (k.sema s').value = 0 then
        { (k.sema s') with waiters := k.popped.sched.enqueue lab (k.sema s').waiters k.running }
      else { (k.sema s') with value := (k.sema s').value - 1 }) →
      k'.trace = (if (k.sema s').value = 0 then [] else [.down s' k.running]) ++ k.trace →
      k'.Counts init n := by
    intro s' hsema htrace
    unfold Counts ups downs at *
    rw [hsema, htrace]
    by_cases hs : (SemaId.user n) = s'
    · subst hs
      rw [Function.update_self]
      split_ifs with hvalue
      · exact ⟨hlt, q, hq⟩
      · refine ⟨by simp only; omega, q, ?_⟩
        simp only [List.singleton_append, List.count_cons, List.countP_cons]
        simp [Note.isDown]
        omega
    · rw [Function.update_of_ne hs]
      refine ⟨hlt, q, ?_⟩
      split_ifs
      · exact hq
      · have hs' : s' ≠ .user n := fun heq => hs heq.symm
        simpa [List.count_cons, List.countP_cons, Note.isDown, hs'] using hq
  have hother : (k'.sema (.user n)).value = (k.sema (.user n)).value → ∀ notes,
      (∀ note ∈ notes, note ≠ .up (.user n) ∧ note.isDown (.user n) = false) →
      k'.trace = notes ++ k.trace → k'.Counts init n := by
    intro hvalue notes hnotes htrace
    have hups : notes.count (.up (.user n)) = 0 :=
      List.count_eq_zero.mpr fun hmem => (hnotes _ hmem).1 rfl
    have hdowns : notes.countP (Note.isDown (.user n)) = 0 := by
      rw [List.countP_eq_zero]
      intro note hmem
      simp [(hnotes note hmem).2]
    unfold Counts ups downs at *
    rw [hvalue, htrace, List.count_append, List.countP_append, hups, hdowns]
    exact ⟨hlt, q, by omega⟩
  cases a
  case semaphoreDown s' => exact hdown s' hframed.sema hframed.trace
  case semaphoreRetest s' old => exact hdown s' hframed.sema hframed.trace
  case semaphoreUp s' =>
    have hsema := congrFun hframed.sema (.user n)
    simp only [semaAfter] at hsema
    by_cases hs : (SemaId.user n) = s'
    · subst hs
      rw [Function.update_self] at hsema
      unfold Counts ups downs at *
      rw [hsema, hframed.trace]
      simp only [notesOf, List.singleton_append, List.count_cons_self, List.countP_cons,
        Note.isDown, Bool.false_eq_true, if_false]
      refine ⟨Nat.mod_lt _ (by decide), ?_⟩
      by_cases hwrap : (k.sema (.user n)).value + 1 = 2 ^ 32
      · refine ⟨q + 1, ?_⟩
        rw [hwrap, Nat.mod_self]
        omega
      · refine ⟨q, ?_⟩
        have hfits : (k.sema (.user n)).value + 1 < 2 ^ 32 := by omega
        rw [show (k.popped.sema (.user n)).value = (k.sema (.user n)).value from rfl,
          Nat.mod_eq_of_lt hfits]
        omega
    · rw [Function.update_of_ne hs] at hsema
      have hs' : s' ≠ .user n := fun heq => hs heq.symm
      refine hother (congrArg Semaphore.value hsema) _ ?_ hframed.trace
      simp [notesOf, Note.isDown, hs']
  case semaphoreInit s' value =>
    have hs : (SemaId.user n) ≠ s' := by
      rintro rfl
      exact hinit hblock hstack rfl
    have hsema := congrFun hframed.sema (.user n)
    simp only [semaAfter] at hsema
    rw [Function.update_of_ne hs] at hsema
    refine hother (congrArg Semaphore.value hsema) _ ?_ hframed.trace
    simp [notesOf]
  all_goals
    refine hother ?_ _ ?_ hframed.trace
    · rw [hframed.sema]
      rfl
    · simp [notesOf, Note.isDown]

/-- A step that is not an action changes neither the value nor the counts. -/
theorem Counts.quiet {init : Nat → Nat} {n : Nat} {woken : List Tid} {tick : Int}
    (h : k.Counts init n) (hsema : k'.sema = k.sema)
    (htrace : k'.trace = (woken.map fun t => .wake t tick).reverse ++ k.trace) :
    k'.Counts init n := by
  have hups : (woken.map fun t => Note.wake t tick).reverse.count (.up (.user n)) = 0 := by
    rw [List.count_eq_zero]
    simp
  have hdowns : (woken.map fun t => Note.wake t tick).reverse.countP
      (Note.isDown (.user n)) = 0 := by
    rw [List.countP_eq_zero]
    simp [Note.isDown]
  unfold Counts ups downs at *
  rw [hsema, htrace, List.count_append, List.countP_append, hups, hdowns, Nat.zero_add,
    Nat.zero_add]
  exact h

/-! ## The woken threads -/

/-- There are at least as many woken threads as the value says, while threads wait. -/
def WokenEnough (k : Kernel) : Prop :=
  ∀ s, (k.sema s).waiters ≠ [] → (k.sema s).value ≤ (k.wokenWaiters s).card

/-- The running thread has not been woken on a semaphore, unless it goes on in the loop of
`semaphore_down`. -/
theorem running_notMem_wokenWaiters (hstack : k.stack k.running = a :: rest)
    (ha : ∀ old, a ≠ .semaphoreRetest s old) : k.running ∉ k.wokenWaiters s := by
  rw [mem_wokenWaiters]
  rintro ⟨-, ⟨old, hhead⟩, -⟩
  rw [hstack, List.head?_cons] at hhead
  exact ha old (Option.some.inj hhead)

/-- Woken threads other than the running one stay so. -/
theorem act_wokenWaiters (h : k.BlockInv) (hstack : k.stack k.running = a :: rest)
    (hk : k.step lab .act = .ok k') (ht : t ∈ k.wokenWaiters s) (htr : t ≠ k.running) :
    t ∈ k'.wokenWaiters s := by
  obtain ⟨hmem, ⟨old, hhead⟩, hstatus⟩ := mem_wokenWaiters.mp ht
  have hretest := List.mem_of_mem_head? hhead
  have hmagic := h.magic_of_mem hretest
  have hidle : some t ≠ k.sched.idleThread := by
    intro hidle
    rcases h.idle_mem hidle hretest with hno | hno | hno <;> cases hno
  have hk' := hk
  rw [step_act hstack] at hk'
  refine mem_wokenWaiters.mpr ⟨exec_allList_mono h.sched.pop hk' hmem fun _ => htr, ⟨old, ?_⟩, ?_⟩
  · rcases (act_stack h.sched hstack hk).1 t htr with heq | ⟨_, _, -, hfree, -⟩
    · rwa [heq]
    · rw [hmagic] at hfree
      cases hfree
  · by_cases hwoken : t ∈ k.wokenBy a
    · exact act_woken h.sched hstack hk htr hidle hwoken
    · exact fun hblocked => hstatus
        ((act_undisturbed h.sched hstack hk htr hidle hmagic hwoken).blocked.mp hblocked)

/-- `semaphore_up` adds the first waiter to the woken threads. -/
theorem act_wokenBy_up (h : k.BlockInv) (hstack : k.stack k.running = .semaphoreUp s :: rest)
    (hk : k.step lab .act = .ok k') {ts : List Tid} (hwaiters : (k.sema s).waiters = t :: ts) :
    t ∉ k.wokenWaiters s ∧ t ∈ k'.wokenWaiters s := by
  have ht := (h.waits s t).mp (by simp [hwaiters])
  obtain ⟨htr, hidle, hmagic, hmem⟩ := h.waiter ht
  have hwoken : t ∈ k.wokenBy (.semaphoreUp s) := by simp [wokenBy, hwaiters]
  refine ⟨fun hno => (mem_wokenWaiters.mp hno).2.2 ht.1, mem_wokenWaiters.mpr ⟨?_, ?_, ?_⟩⟩
  · have hk' := hk
    rw [step_act hstack] at hk'
    exact exec_allList_mono h.sched.pop hk' hmem fun _ => htr
  · obtain ⟨old, hhead⟩ := ht.2
    refine ⟨old, ?_⟩
    rcases (act_stack h.sched hstack hk).1 t htr with heq | ⟨_, _, -, hfree, -⟩
    · rwa [heq]
    · rw [hmagic] at hfree
      cases hfree
  · exact act_woken h.sched hstack hk htr hidle hwoken

theorem act_wokenWaiters_subset (h : k.BlockInv) (hstack : k.stack k.running = a :: rest)
    (hk : k.step lab .act = .ok k') (ha : ∀ old, a ≠ .semaphoreRetest s old) :
    k.wokenWaiters s ⊆ k'.wokenWaiters s := by
  intro t ht
  refine act_wokenWaiters h hstack hk ht ?_
  rintro rfl
  exact running_notMem_wokenWaiters hstack ha ht

theorem WokenEnough.act (hblock : k.BlockInv) (h : k.WokenEnough)
    (hstack : k.stack k.running = a :: rest) (hk : k.step lab .act = .ok k') : k'.WokenEnough := by
  intro s hwaiters
  have hk' := hk
  rw [step_act hstack] at hk'
  have hsema := congrFun (exec_framed hk').sema s
  have hsame : k'.sema s = k.sema s → (∀ old, a ≠ .semaphoreRetest s old) →
      (k'.sema s).value ≤ (k'.wokenWaiters s).card := by
    intro heq ha
    rw [heq] at hwaiters ⊢
    exact (h s hwaiters).trans (Finset.card_le_card (act_wokenWaiters_subset hblock hstack hk ha))
  have hne : ∀ {s'}, s ≠ s' → ∀ x, Function.update k.sema s' x s = k.sema s :=
    fun hs x => Function.update_of_ne hs x k.sema
  cases a
  case semaphoreInit s' value =>
    by_cases hs : s = s'
    · subst hs
      simp only [semaAfter, Function.update_self] at hsema
      exact absurd (by rw [hsema]) hwaiters
    · exact hsame (hsema.trans (hne hs _)) (by simp)
  case semaphoreDown s' =>
    by_cases hs : s = s'
    · subst hs
      simp only [semaAfter, Function.update_self] at hsema
      rw [hsema] at hwaiters ⊢
      split_ifs at hwaiters ⊢ with hvalue
      · simp [hvalue]
      · have hle := (h s hwaiters).trans
          (Finset.card_le_card (act_wokenWaiters_subset hblock hstack hk (by simp)))
        simp only
        omega
    · exact hsame (hsema.trans (hne hs _)) (by simp)
  case semaphoreRetest s' old =>
    by_cases hs : s = s'
    · subst hs
      simp only [semaAfter, Function.update_self] at hsema
      rw [hsema] at hwaiters ⊢
      split_ifs at hwaiters ⊢ with hvalue
      · simp [hvalue]
      · -- the thread that tests again is the only one that is no longer woken
        have hsub : k.wokenWaiters s ⊆ insert k.running (k'.wokenWaiters s) := by
          intro t ht
          by_cases htr : t = k.running
          · simp [htr]
          · exact Finset.mem_insert_of_mem (act_wokenWaiters hblock hstack hk ht htr)
        have hcard := (Finset.card_le_card hsub).trans (Finset.card_insert_le _ _)
        have hle := h s hwaiters
        simp only
        omega
    · refine hsame (hsema.trans (hne hs _)) ?_
      rintro old' heq
      cases heq
      exact hs rfl
  case semaphoreUp s' =>
    by_cases hs : s = s'
    · subst hs
      simp only [semaAfter, Function.update_self] at hsema
      rw [hsema] at hwaiters ⊢
      cases hw : (k.sema s).waiters with
      | nil =>
        refine absurd ?_ hwaiters
        simp [hw]
      | cons t ts =>
        obtain ⟨hnot, hin⟩ := act_wokenBy_up hblock hstack hk hw
        have hsub := @act_wokenWaiters_subset _ _ _ _ _ s hblock hstack hk (by simp)
        have hcard := Finset.card_le_card (Finset.insert_subset hin hsub)
        rw [Finset.card_insert_of_notMem hnot] at hcard
        have hle := h s (by simp [hw])
        have hmod := Nat.mod_le ((k.sema s).value + 1) (2 ^ 32)
        simp only
        omega
    · exact hsame (hsema.trans (hne hs _)) (by simp)
  all_goals exact hsame hsema (by simp)

/-- A step that is not an action loses no woken thread. -/
theorem WokenEnough.quiet {woken : List Tid} {pushed : List Action} (hblock : k.BlockInv)
    (h : k.WokenEnough) (hsema : k'.sema = k.sema)
    (hmoves : Sched.Moves woken False pushed k.sched k'.sched)
    (hrunning : ∀ s old, (k.stack k.running).head? ≠ some (.semaphoreRetest s old)) :
    k'.WokenEnough := by
  intro s hwaiters
  rw [hsema] at hwaiters ⊢
  refine (h s hwaiters).trans (Finset.card_le_card ?_)
  intro t ht
  obtain ⟨hmem, ⟨old, hhead⟩, hstatus⟩ := mem_wokenWaiters.mp ht
  have htr : t ≠ k.running := by
    rintro rfl
    exact hrunning s old hhead
  have hidle : some t ≠ k.sched.idleThread := by
    intro hidle
    rcases hblock.idle_mem hidle (List.mem_of_mem_head? hhead) with hno | hno | hno <;> cases hno
  refine mem_wokenWaiters.mpr ⟨by rwa [hmoves.allList], ⟨old, ?_⟩, ?_⟩
  · rwa [show k'.stack t = _ from hmoves.stack t htr]
  · exact fun hblocked => hstatus ((hmoves.blocked_of_ne htr hidle).mp hblocked).1

/-- What the theorem on semaphores says about one state. -/
structure SemaphoreInv (init : Nat → Nat) (k : Kernel) : Prop where
  block : k.BlockInv
  awake : k.AwakeInv
  counts : ∀ n, k.Counts init n
  woken : k.WokenEnough

theorem boot_semaphoreInv (init : Nat → Nat) : (boot init).SemaphoreInv init := by
  refine ⟨boot_blockInv init, boot_awakeInv init, ?_, ?_⟩
  · intro n
    exact ⟨Nat.mod_lt _ (by decide), 0, rfl⟩
  · intro s hwaiters
    cases s <;> exact absurd rfl hwaiters

theorem SemaphoreInv.step {init : Nat → Nat} {e : Event} (h : k.SemaphoreInv init)
    (he : k.Admits e) (hk : k.step lab e = .ok k') : k'.SemaphoreInv init := by
  have hblock := h.block.step h.awake he hk
  have hawake := h.awake.step h.block.sched he.1 he.2.2 hk
  cases e with
  | act =>
    obtain ⟨a, rest, hstack⟩ := List.exists_cons_of_ne_nil he.1
    exact ⟨hblock, hawake, fun n => (h.counts n).act h.block hstack hk,
      h.woken.act h.block hstack hk⟩
  | call op =>
    have hempty : k.stack k.running = [] := he.1
    cases pure_eq_ok.mp hk
    refine ⟨hblock, hawake, h.counts, ?_⟩
    refine h.woken.quiet h.block rfl (Sched.Moves.push h.block.sched.runningOk _) ?_
    simp [hempty]
  | tick =>
    have hticked := (intrHandler_ticked_nil h.block.sched h.awake.timerList hk).1
    refine ⟨hblock, hawake, fun n => (h.counts n).quiet hticked.sema hticked.trace, ?_⟩
    refine h.woken.quiet h.block hticked.sema hticked.moves ?_
    intro s old hhead
    have hoff := h.block.retestLevel s old hhead
    rw [show k.sched.level = .on from he.1] at hoff
    cases hoff

theorem reachable_semaphoreInv {init : Nat → Nat}
    (hr : Reachable (step lab) Admits (boot init) k) : k.SemaphoreInv init :=
  @Reachable.invariant _ _ _ (step lab) Admits (boot init) (SemaphoreInv init)
    (boot_semaphoreInv init) (fun _ _ _ _ h he hk => h.step he hk) k hr

/-- A semaphore initialised to `v` has, modulo `2 ^ 32`, the value `v` plus its increments minus
its decrements, and there are never more decrements than that. While threads wait on it, at least
as many have been woken as the value says, so that no thread waits while the value is positive
and no woken thread is on its way. -/
theorem semaphore_loses_no_wakeup {init : Nat → Nat} {n : Nat}
    (hr : Reachable (step .lab2) Admits (boot init) k) :
    k.downs (.user n) ≤ init n % 2 ^ 32 + k.ups (.user n) ∧
    (k.sema (.user n)).value =
      (init n % 2 ^ 32 + k.ups (.user n) - k.downs (.user n)) % 2 ^ 32 ∧
    (∀ t, t ∈ (k.sema (.user n)).waiters ↔ k.AtRetest (.user n) t) ∧
    ((k.sema (.user n)).waiters ≠ [] →
      (k.sema (.user n)).value ≤ (k.wokenWaiters (.user n)).card) ∧
    ¬ (0 < (k.sema (.user n)).value ∧ (∃ t, k.AtRetest (.user n) t) ∧
      k.wokenWaiters (.user n) = ∅) := by
  have h := reachable_semaphoreInv hr
  obtain ⟨hlt, q, hq⟩ := h.counts n
  refine ⟨by omega, ?_, h.block.waits _, h.woken _, ?_⟩
  · rw [show init n % 2 ^ 32 + k.ups (.user n) - k.downs (.user n) =
      (k.sema (.user n)).value + 2 ^ 32 * q by omega, Nat.add_mul_mod_self_left,
      Nat.mod_eq_of_lt hlt]
  · rintro ⟨hpos, ⟨t, ht⟩, hnone⟩
    have hmem := (h.block.waits _ t).mpr ht
    have hle := h.woken (.user n) (List.ne_nil_of_mem hmem)
    rw [hnone, Finset.card_empty] at hle
    omega

/-- The value wraps around: an increment of a semaphore initialised to `2 ^ 32 - 1` makes it 0. -/
theorem semaphore_value_wraps : ∃ k,
    Reachable (step .lab2) Admits (boot fun _ => 2 ^ 32 - 1) k ∧
    ¬ (k.sema (.user 0)).value = 2 ^ 32 - 1 + k.ups (.user 0) - k.downs (.user 0) := by
  have hrun : (runAdmitted .lab2 (fun _ => 2 ^ 32 - 1)
      (starting ++ [.call (.semaphoreUp 0), .act])).map (fun k =>
        ((k.sema (.user 0)).value, k.ups (.user 0), k.downs (.user 0))) = some (0, 1, 0) := by
    decide +kernel
  obtain ⟨k, hk, heq⟩ := Option.map_eq_some_iff.mp hrun
  simp only [Prod.mk.injEq] at heq
  obtain ⟨hvalue, hups, hdowns⟩ := heq
  refine ⟨k, reachable_of_runAdmitted hk, ?_⟩
  rw [hvalue, hups, hdowns]
  decide

/-- A run in which a thread waits on a semaphore: `main` creates a thread of a higher priority
that decrements a semaphore of value 0. -/
def downByOther : List Event :=
  starting ++ Event.call (.threadCreate 2 40) :: List.replicate 9 Event.act ++
    [Event.act, Event.call (.semaphoreDown 0), Event.act]

theorem semaphore_loses_no_wakeup_downByOther : ∃ k,
    runAdmitted .lab2 (fun _ => 0) downByOther = some k ∧ (k.sema (.user 0)).waiters = [2] ∧
    ¬ (0 < (k.sema (.user 0)).value ∧ (∃ t, k.AtRetest (.user 0) t) ∧
      k.wokenWaiters (.user 0) = ∅) := by
  have hrun : (runAdmitted .lab2 (fun _ => 0) downByOther).map
      (fun k => (k.sema (.user 0)).waiters) = some [2] := by
    decide +kernel
  obtain ⟨k, hk, hwaiters⟩ := Option.map_eq_some_iff.mp hrun
  exact ⟨k, hk, hwaiters, (semaphore_loses_no_wakeup (reachable_of_runAdmitted hk)).2.2.2.2⟩

end Kernel

end CSE130.Pintos
