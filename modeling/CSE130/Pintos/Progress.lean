import CSE130.Pintos.SchedInvariant

/-!
# When the functions of the scheduler succeed

Outside an interrupt no function of `thread.c` fails an assertion, provided that there is a thread
to run next when the running one gives up the processor.
-/

namespace CSE130.Pintos

open CSE130.Library

namespace Sched

variable {s : Sched} {t : Tid} {lab : Lab}

/-- There is a thread that `schedule` can switch to when the running one cannot go on. -/
def HasNext (s : Sched) : Prop :=
  s.readyList ≠ [] ∨ ∃ i, s.idleThread = some i ∧ (s.thread i).magic = true

theorem HasNext.congr {s' : Sched} (h : s.HasNext) (hready : s'.readyList = s.readyList)
    (hidle : s'.idleThread = s.idleThread)
    (hmagic : ∀ u, (s'.thread u).magic = (s.thread u).magic) : s'.HasNext := by
  unfold HasNext
  rw [hready, hidle]
  refine h.imp_right ?_
  rintro ⟨i, hi, him⟩
  exact ⟨i, hi, (hmagic i).trans him⟩

@[simp] theorem push_magic {actions : List Action} :
    ((s.push actions).thread t).magic = (s.thread t).magic := by
  by_cases ht : t = s.running <;> simp [ht]

theorem HasNext.push (h : s.HasNext) (actions : List Action) : (s.push actions).HasNext :=
  h.congr rfl rfl fun _ => push_magic

theorem exists_next (h : s.ReadyOk) (hnext : s.HasNext) :
    ∃ next rest, s.Next next rest ∧ (s.thread next).magic = true := by
  cases hready : s.readyList with
  | cons next rest =>
    refine ⟨next, rest, .inl hready, h.magic next ?_⟩
    rw [hready]
    exact List.mem_cons_self
  | nil =>
    cases hnext with
    | inl hne => exact absurd hready hne
    | inr hidle =>
      obtain ⟨i, hi, hmagic⟩ := hidle
      exact ⟨i, [], .inr ⟨hready, rfl, hi⟩, hmagic⟩

theorem threadBlock_succeeds (h : s.Inv) (hintr : s.inExternalIntr = false) (hlevel : s.level = .off)
    (hnext : s.HasNext) : ∃ s', s.threadBlock = .ok s' := by
  obtain ⟨next, rest, hn, hmagic⟩ := exists_next h.toReadyOk hnext
  exact ⟨_, threadBlock_eq_ok.mpr ⟨hintr, hlevel, h.runningOk, next, rest, hn, hmagic, rfl⟩⟩

theorem threadExit_succeeds (h : s.Inv) (hintr : s.inExternalIntr = false) (hnext : s.HasNext) :
    ∃ s', s.threadExit = .ok s' := by
  obtain ⟨next, rest, hn, hmagic⟩ := exists_next h.toReadyOk hnext
  exact ⟨_, threadExit_eq_ok.mpr ⟨hintr, h.runningOk, next, rest, hn, hmagic, rfl⟩⟩

/-- The thread that yields is on the ready list, or is the idle thread. -/
theorem threadYield_succeeds (h : s.Inv) (hintr : s.inExternalIntr = false) :
    ∃ s', s.threadYield lab = .ok s' := by
  have hnext : (s.yielding lab).HasNext := by
    by_cases hidle : some s.running = s.idleThread
    · right
      refine ⟨s.running, hidle.symm, ?_⟩
      rw [yielding_thread_running]
      exact h.runningOk.1
    · left
      rw [yielding_readyList, if_pos hidle]
      exact enqueue_ne_nil
  obtain ⟨next, rest, hn, hmagic⟩ := exists_next h.yielding_readyOk hnext
  have hmagic' : (s.thread next).magic = true := by
    by_cases hne : next = s.running
    · rw [hne]
      exact h.runningOk.1
    · rwa [yielding_thread_of_ne hne] at hmagic
  exact ⟨_, threadYield_eq_ok.mpr ⟨h.runningOk, hintr, next, rest, hn, hmagic', rfl⟩⟩

theorem threadUnblock_succeeds (h : s.Inv) (hintr : s.inExternalIntr = false)
    (hmagic : (s.thread t).magic = true) (hblocked : (s.thread t).status = .blocked) :
    ∃ s', s.threadUnblock lab t = .ok s' := by
  simp only [threadUnblock_eq_ok h.runningOk]
  by_cases hp : s.Preempts lab t
  · have hready : ((s.readying lab t).push [.intrSetLevel s.level]).Inv :=
      (h.readying hmagic hblocked).push _
    obtain ⟨s', hs⟩ := @threadYield_succeeds _ lab hready hintr
    refine ⟨s', hmagic, hblocked, ?_⟩
    rwa [if_pos hp]
  · refine ⟨{ s.readying lab t with level := s.level }, hmagic, hblocked, ?_⟩
    rw [if_neg hp]
    exact ⟨fun _ => hintr, rfl⟩

end Sched

end CSE130.Pintos
