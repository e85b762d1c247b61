import CSE130.Pintos.IdleThread

/-!
# The lists of threads

The ready list and the lists of waiters of the semaphores share one list element for each thread.
At most one of them holds a thread at any time, and the status of a thread says which kind of list
it is on, provided that `thread_unblock` is called only for threads that have called `thread_block`.
-/

namespace CSE130.Pintos

open CSE130.Library

namespace Sched

variable {s s' s₁ : Sched} {t next : Tid} {rest : List Tid} {lab : Lab}

/-- Every ready thread is on the ready list, except for the idle thread. -/
def Listed (s : Sched) : Prop :=
  ∀ t, (s.thread t).status = .ready → t ∈ s.readyList ∨ some t = s.idleThread

/-- The invariant of the scheduler together with what the status of a thread says. -/
structure StatusInv (s : Sched) : Prop extends s.Inv where
  alone : ∀ t, (s.thread t).status = .running → t = s.running
  listed : s.Listed

/-! ## A switch of threads -/

/-- The thread switched from is no longer running, and is on the ready list if it is ready. -/
theorem StatusInv.release (h : s.StatusInv)
    (hother : ∀ u, u ≠ s.running → s₁.thread u = s.thread u)
    (hstatus : (s₁.thread s.running).status ≠ .running)
    (hready : (s₁.thread s.running).status = .ready →
      s.running ∈ s₁.readyList ∨ some s.running = s.idleThread)
    (hlist : s.readyList ⊆ s₁.readyList) (hidle : s₁.idleThread = s.idleThread) :
    (∀ t, (s₁.thread t).status ≠ .running) ∧ s₁.Listed := by
  refine ⟨?_, ?_⟩
  · intro t hrunning
    by_cases ht : t = s.running
    · exact hstatus (ht ▸ hrunning)
    · rw [hother t ht] at hrunning
      exact ht (h.alone t hrunning)
  · intro t hreadyt
    rw [hidle]
    by_cases ht : t = s.running
    · subst ht
      exact hready hreadyt
    · rw [hother t ht] at hreadyt
      exact (h.listed t hreadyt).imp_left fun hmem => hlist hmem

/-- A switch from a state in which no thread is running. -/
theorem switchTo_statusInv (hready : s.ReadyOk) (hnone : ∀ t, (s.thread t).status ≠ .running)
    (hlisted : s.Listed) (hnext : s.Next next rest) (hmagic : (s.thread next).magic = true) :
    (s.switchTo next rest).StatusInv := by
  have hother : ∀ u, u ≠ next → (s.switchTo next rest).thread u = s.thread u ∨
      (s.switchTo next rest).thread u = {} := by
    intro u hu
    simp only [Sched.switchTo, hu, if_false]
    split_ifs
    · exact .inr rfl
    · exact .inl rfl
  refine ⟨hready.switchTo hnext hmagic, ?_, ?_⟩
  · intro t hrunning
    by_contra hne
    rcases hother t hne with heq | heq <;> rw [heq] at hrunning
    · exact hnone t hrunning
    · cases hrunning
  · intro t hreadyt
    have hne : t ≠ next := by
      rintro rfl
      rw [switchTo_thread_next] at hreadyt
      cases hreadyt
    rcases hother t hne with heq | heq <;> rw [heq] at hreadyt
    · refine (hlisted t hreadyt).imp_left fun hmem => ?_
      rcases hnext with hlist | ⟨hempty, -, -⟩
      · rw [hlist] at hmem
        exact (List.mem_cons.mp hmem).resolve_left hne
      · rw [hempty] at hmem
        cases hmem
    · cases hreadyt

/-! ## The calls -/

theorem StatusInv.threadBlock (h : s.StatusInv) (hs : s.threadBlock = .ok s') : s'.StatusInv := by
  obtain ⟨-, -, -, next, rest, hnext, hmagic, rfl⟩ := threadBlock_eq_ok.mp hs
  obtain ⟨hnone, hlisted⟩ := @StatusInv.release s (s.setStatus s.running .blocked) h
    (fun u hu => by simp [hu]) (by simp) (by simp) (List.Subset.refl _) rfl
  refine switchTo_statusInv (h.setStatus_readyOk .blocked) hnone hlisted hnext ?_
  by_cases hrun : next = s.running <;> simp [hrun, h.runningOk.1, hmagic]

theorem StatusInv.threadExit (h : s.StatusInv) (hs : s.threadExit = .ok s') : s'.StatusInv := by
  obtain ⟨-, -, next, rest, hnext, hmagic, rfl⟩ := threadExit_eq_ok.mp hs
  have hdying : (s.exiting.thread s.running).status = .dying := by rw [exiting_thread_running]
  obtain ⟨hnone, hlisted⟩ := @StatusInv.release s s.exiting h
    (fun u hu => exiting_thread_of_ne hu) (by simp [hdying]) (by simp [hdying])
    (List.Subset.refl _) rfl
  refine switchTo_statusInv h.exiting_readyOk hnone hlisted hnext ?_
  by_cases hrun : next = s.running <;> simp [exiting, hrun, h.runningOk.1, hmagic]

/-- The thread that yields goes on the ready list, unless it is the idle thread. -/
theorem StatusInv.threadYield (h : s.StatusInv) (hs : s.threadYield lab = .ok s') :
    s'.StatusInv := by
  obtain ⟨-, -, next, rest, hnext, hmagic, rfl⟩ := threadYield_eq_ok.mp hs
  have hready : ((s.yielding lab).thread s.running).status = .ready := by
    rw [yielding_thread_running]
  have hlist : s.running ∈ (s.yielding lab).readyList ∨ some s.running = s.idleThread := by
    rw [yielding_readyList]
    split_ifs with hidle
    · exact .inl (mem_enqueue.mpr (.inl rfl))
    · exact .inr (not_not.mp hidle)
  have hsubset : s.readyList ⊆ (s.yielding lab).readyList := by
    intro u hu
    rw [yielding_readyList]
    split_ifs
    · exact mem_enqueue.mpr (.inr hu)
    · exact hu
  obtain ⟨hnone, hlisted⟩ := @StatusInv.release s (s.yielding lab) h
    (fun u hu => yielding_thread_of_ne hu) (by simp [hready]) (fun _ => hlist) hsubset rfl
  exact switchTo_statusInv h.yielding_readyOk hnone hlisted hnext (h.yielding_next_magic hmagic)

/-- The thread that is made ready goes on the ready list. -/
theorem StatusInv.readying (h : s.StatusInv) (hmagic : (s.thread t).magic = true)
    (hblocked : (s.thread t).status = .blocked) : (s.readying lab t).StatusInv := by
  refine ⟨h.toInv.readying hmagic hblocked, ?_, ?_⟩
  · intro u hrunning
    by_cases hu : u = t
    · rw [hu, readying_thread_self] at hrunning
      cases hrunning
    · rw [readying_thread_of_ne hu] at hrunning
      exact h.alone u hrunning
  · intro u hready
    by_cases hu : u = t
    · exact .inl (mem_enqueue.mpr (.inl hu))
    · rw [readying_thread_of_ne hu] at hready
      exact (h.listed u hready).imp_left fun hmem => mem_enqueue.mpr (.inr hmem)

theorem StatusInv.setLevel (h : s.StatusInv) (level : IntrLevel) :
    ({ s with level := level } : Sched).StatusInv :=
  ⟨h.toInv.setLevel level, h.alone, h.listed⟩

/-- A change of one thread that keeps its status and its page. -/
theorem StatusInv.modify (h : s.StatusInv) {f : Thread → Thread}
    (hmagic : ∀ th, (f th).magic = th.magic) (hstatus : ∀ th, (f th).status = th.status) :
    (s.modify t f).StatusInv := by
  have hsame : ∀ u, ((s.modify t f).thread u).status = (s.thread u).status := by
    intro u
    by_cases hu : u = t <;> simp [hu, hstatus]
  refine ⟨h.toInv.modify hmagic hstatus, ?_, ?_⟩
  · exact fun u hrunning => h.alone u ((hsame u).symm.trans hrunning)
  · exact fun u hready => h.listed u ((hsame u).symm.trans hready)

theorem StatusInv.push (h : s.StatusInv) (actions : List Action) : (s.push actions).StatusInv :=
  h.modify (fun _ => rfl) (fun _ => rfl)

theorem StatusInv.pop (h : s.StatusInv) : s.pop.StatusInv :=
  h.modify (fun _ => rfl) (fun _ => rfl)

theorem StatusInv.threadUnblock (h : s.StatusInv) (hs : s.threadUnblock lab t = .ok s') :
    s'.StatusInv := by
  obtain ⟨hmagic, hblocked, hs⟩ := (threadUnblock_eq_ok h.runningOk).mp hs
  have hreadying := @StatusInv.readying s t lab h hmagic hblocked
  split_ifs at hs
  · exact (hreadying.push _).threadYield hs
  · obtain ⟨-, rfl⟩ := hs
    exact hreadying.setLevel _

/-- A new thread is blocked. -/
theorem StatusInv.creating {priority : Int} {function : ThreadFunction} {pushed : List Action}
    (h : s.StatusInv) (hfree : (s.thread t).magic = false) :
    (s.creating t priority function pushed).StatusInv := by
  have hpush := h.push pushed
  have hrunning : s.running ≠ t := by
    rintro rfl
    rw [h.runningOk.1] at hfree
    cases hfree
  refine ⟨h.toInv.creating hfree, ?_, ?_⟩
  · intro u hu
    by_cases hut : u = t
    · rw [hut, creating_thread_self hrunning] at hu
      cases hu
    · rw [creating_thread_of_ne hut] at hu
      exact hpush.alone u hu
  · intro u hu
    by_cases hut : u = t
    · rw [hut, creating_thread_self hrunning] at hu
      cases hu
    · rw [creating_thread_of_ne hut] at hu
      exact hpush.listed u hu

/-- The running thread becomes the idle thread, where there was none. -/
theorem StatusInv.setIdle (h : s.StatusInv) (hnone : s.idleThread = none) :
    ({ s with idleThread := some t } : Sched).StatusInv := by
  refine ⟨⟨⟨h.magic, h.status, h.nodup⟩, h.runningOk⟩, h.alone, ?_⟩
  intro u hready
  left
  refine (h.listed u hready).resolve_right ?_
  rw [hnone]
  exact Option.some_ne_none u

end Sched

namespace Kernel

variable {k k' : Kernel} {lab : Lab} {a : Action} {rest : List Action} {e : Event}
  {init : Nat → Nat}

/-! ## The machine -/

theorem exec_statusInv (h : k.sched.StatusInv) (hidle : a = .idleStart → k.sched.idleThread = none)
    (hk : k.exec lab a = .ok k') : k'.sched.StatusInv := by
  refine exec_sched_rule (fun _ actions h => h.push actions) (fun _ level h => h.setLevel level)
    (fun _ _ h hs => h.threadBlock hs) (fun _ _ h hs => h.threadYield hs)
    (fun _ _ _ h hs => h.threadUnblock hs) (fun _ _ h hs => h.threadExit hs)
    (fun _ _ _ _ _ h hfree => h.creating hfree) ?_ ?_ ?_ h hk
  · exact fun ha hs => hs.setIdle (hidle ha)
  · intro s total hs
    exact hs.modify (fun _ => rfl) (fun _ => rfl)
  · intro priority _ hs
    exact hs.modify (fun _ => rfl) (fun _ => rfl)

theorem tick_statusInv (h : k.sched.StatusInv) (hk : k.intrHandler lab = .ok k') :
    k'.sched.StatusInv := by
  refine tick_sched_rule (fun _ actions h => h.push actions) ?_ (fun _ _ h hs => h.threadYield hs)
    (fun _ _ _ h hs => h.threadUnblock hs) h hk
  intro s level intr yield ticks hs
  exact ⟨⟨⟨hs.magic, hs.status, hs.nodup⟩, hs.runningOk⟩, hs.alone, hs.listed⟩

theorem step_statusInv (h : k.sched.StatusInv) (hidle : IdleInv init k) (he : k.Enabled e)
    (hk : k.step lab e = .ok k') : k'.sched.StatusInv := by
  cases e with
  | act =>
    obtain ⟨a, rest, hstack⟩ := List.exists_cons_of_ne_nil he
    rw [step_act hstack] at hk
    refine exec_statusInv h.pop ?_ hk
    rintro rfl
    exact (hidle.idleStart hstack).2
  | call op =>
    cases pure_eq_ok.mp hk
    exact h.push _
  | tick => exact tick_statusInv h hk

theorem boot_statusInv (init : Nat → Nat) : (boot init).sched.StatusInv := by
  refine ⟨boot_inv init, ?_, ?_⟩
  · intro t hrunning
    by_contra ht
    have hne : t ≠ 0 := ht
    simp [boot, hne] at hrunning
  · intro t hready
    by_cases ht : t = 0 <;> simp [boot, ht] at hready

/-! ## Runs -/

/-- The status of a thread says whether it runs and which lists it is on, and a thread is on one
list at most. -/
structure ListsOk (k : Kernel) : Prop where
  running : ∀ t, (k.thread t).status = .running ↔ t = k.running
  ready : ∀ t, some t ≠ k.sched.idleThread →
    (t ∈ k.sched.readyList ↔ (k.thread t).status = .ready)
  blocked : ∀ s, ∀ t ∈ (k.sema s).waiters, (k.thread t).status = .blocked
  readyOnce : k.sched.readyList.Nodup
  waitsOnce : ∀ s, (k.sema s).waiters.Nodup
  notBoth : ∀ s, ∀ t ∈ (k.sema s).waiters, t ∉ k.sched.readyList
  oneSema : ∀ s s' t, t ∈ (k.sema s).waiters → t ∈ (k.sema s').waiters → s = s'

theorem BlockInv.listsOk (h : k.BlockInv) (hstatus : k.sched.StatusInv) : k.ListsOk where
  running t := by
    refine ⟨hstatus.alone t, ?_⟩
    rintro rfl
    exact h.sched.runningOk.2
  ready t hidle :=
    ⟨h.sched.status t, fun hready => (hstatus.listed t hready).resolve_right hidle⟩
  blocked s t hmem := ((h.waits s t).mp hmem).1
  readyOnce := h.sched.nodup
  waitsOnce := h.nodup
  notBoth s t hmem hready := by
    have hblocked := ((h.waits s t).mp hmem).1
    rw [show (k.thread t).status = .ready from h.sched.status t hready] at hblocked
    cases hblocked
  oneSema s s' t hmem hmem' := by
    obtain ⟨-, old, hhead⟩ := (h.waits s t).mp hmem
    obtain ⟨-, old', hhead'⟩ := (h.waits s' t).mp hmem'
    rw [hhead] at hhead'
    cases hhead'
    rfl

theorem reachable_statusInv (hr : Reachable (Kernel.step lab) Admits (boot init) k) :
    k.sched.StatusInv ∧ IdleInv init k := by
  refine @Reachable.invariant _ _ _ (Kernel.step lab) Admits (boot init)
    (fun k => k.sched.StatusInv ∧ IdleInv init k) ⟨boot_statusInv init, .inl rfl⟩ ?_ k hr
  intro k e k' hr h he hk
  obtain ⟨hstatus, hidle⟩ := h
  have hblock := (reachable_blockInv hr).1
  exact ⟨step_statusInv hstatus hidle he.1 hk, hidle.step hblock he.1 hk⟩

/-- As long as `thread_unblock` is called only for threads that have called `thread_block`, the lists
of threads are in order in every state of a run from boot. -/
theorem thread_lists_ok (hr : Reachable (Kernel.step .lab2) Admits (boot init) k) : k.ListsOk :=
  (reachable_blockInv hr).1.listsOk (reachable_statusInv hr).1

/-- A thread of priority 40 waits on a semaphore of value 0, and `main` goes on. -/
def waitHigh : List Event :=
  starting ++ Event.call (.threadCreate 2 40) :: List.replicate 10 Event.act ++
    Event.call (.semaphoreDown 0) :: List.replicate 3 Event.act

theorem thread_lists_ok_waitHigh : ∃ k, runAdmitted .lab2 (fun _ => 0) waitHigh = some k ∧
    (k.sema (.user 0)).waiters = [2] ∧ (k.thread 2).status = .blocked ∧
    2 ∉ k.sched.readyList := by
  have hrun : (runAdmitted .lab2 (fun _ => 0) waitHigh).map (fun k =>
      (k.sema (.user 0)).waiters) = some [2] := by
    decide +kernel
  obtain ⟨k, hk, hwaiters⟩ := Option.map_eq_some_iff.mp hrun
  have hok := thread_lists_ok (reachable_of_runAdmitted hk)
  have hmem : 2 ∈ (k.sema (.user 0)).waiters := by simp [hwaiters]
  exact ⟨k, hk, hwaiters, hok.blocked (.user 0) 2 hmem, hok.notBoth (.user 0) 2 hmem⟩

/-- Then `main` takes the priority 50 and passes the waiting thread to `thread_unblock`. -/
def unblockWaiter : List Event :=
  waitHigh ++ Event.call (.threadSetPriority 50) :: List.replicate 3 Event.act ++
    Event.call (.threadUnblock 2) :: [Event.act]

/-- A thread that waits on a semaphore is blocked, so that `thread_unblock` accepts it and puts it
on the ready list as well. -/
theorem thread_lists_not_all : ¬ ∀ k,
    Reachable (Kernel.step .lab2) (fun k e => k.Enabled e ∧ e.sleeps = false)
      (boot fun _ => 0) k →
    (∃ i, k.sched.idleThread = some i ∧ (k.thread i).status = .blocked) → k.ListsOk := by
  intro hall
  have hrun : (run (Kernel.step .lab2) (fun k e => decide (k.Enabled e ∧ e.sleeps = false))
      (boot fun _ => 0) unblockWaiter).map (fun k =>
        (k.sched.idleThread, (k.thread 1).status, k.sched.readyList,
          (k.sema (.user 0)).waiters)) = some (some 1, .blocked, [2], [2]) := by
    decide +kernel
  obtain ⟨k, hk, heq⟩ := Option.map_eq_some_iff.mp hrun
  simp only [Prod.mk.injEq] at heq
  obtain ⟨hidle, hstatus, hready, hwaiters⟩ := heq
  have hreach := reachable_of_run (fun _ _ he => of_decide_eq_true he) .start hk
  have hok := hall k hreach ⟨1, hidle, hstatus⟩
  exact hok.notBoth (.user 0) 2 (by simp [hwaiters]) (by simp [hready])

end Kernel

end CSE130.Pintos
