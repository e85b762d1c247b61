import CSE130.Manpage.Steps
import Mathlib.Data.List.Nodup

/-!
# The paragraphs in order

The thread that shows the next paragraph is the one whose page is `cur_page`. A thread that is asleep
although its turn has come is about to be woken up: the thread before it is still to broadcast.
-/

namespace CSE130.Manpage

open Library

section Order

variable {n : Nat} {ids : Equiv.Perm (Fin n)} {s s' : State n} {t u : Fin n} {x : Thread}
  {pid : Nat} {pc : Pc} {e : Event n}

/-! ## The threads and the mutex -/

/-- What holds of the threads whatever the pages are. -/
structure Threads (ids : Equiv.Perm (Fin n)) (s : State n) : Prop where
  pid : ∀ {t pid pc}, s.thread t = .running pid pc → pid = ids t
  mutex : ∀ t, s.mutex = some t ↔ (s.thread t).critical = true
  away : ∀ t, s.thread t = .away ↔ ∃ i, s.main = .create i ∧ i ≤ t

/-- No two threads are in the critical section. -/
theorem Threads.exclusive (h : Threads ids s) (ht : (s.thread t).critical = true)
    (hu : (s.thread u).critical = true) : t = u := by
  have hmutex := (h.mutex t).mpr ht
  rw [(h.mutex u).mpr hu] at hmutex
  exact (Option.some.inj hmutex).symm

theorem threads_start : Threads ids (State.start n) where
  pid h := by cases h
  mutex t := by simp [State.start, Thread.critical]
  away t := by simp [State.start]

/-- A thread that exists goes on to another place. -/
theorem Threads.move {mutex : Option (Fin n)} {curPage : Nat} {shown : List (Fin n)}
    (h : Threads ids s) (hx : s.thread t ≠ .away)
    (hmutex : ∀ u, mutex = some u ↔
      ((s.setThread t (.running (ids t) pc)).thread u).critical = true) :
    Threads ids ({ s with mutex, curPage, shown }.setThread t (.running (ids t) pc)) where
  pid {u pid pc'} hu := by
    by_cases hut : u = t
    · subst hut
      rw [setThread_self] at hu
      exact (Thread.running.inj hu).1.symm
    · rw [setThread_of_ne hut] at hu
      exact h.pid hu
  mutex := hmutex
  away u := by
    by_cases hut : u = t
    · subst hut
      rw [setThread_self]
      refine iff_of_false (by simp) fun hnew => hx ((h.away u).mpr hnew)
    · rw [setThread_of_ne hut]
      exact h.away u

section Mutex

variable (h : Threads ids s)

include h

/-- A step outside of `lock` and `unlock`. -/
theorem Threads.mutex_same (hcrit : x.critical = (s.thread t).critical) (u : Fin n) :
    s.mutex = some u ↔ ((s.setThread t x).thread u).critical = true := by
  by_cases hut : u = t
  · subst hut
    rw [setThread_self, hcrit]
    exact h.mutex u
  · rw [setThread_of_ne hut]
    exact h.mutex u

theorem Threads.mutex_lock (hnone : s.mutex = none) (hcrit : x.critical = true) (u : Fin n) :
    some t = some u ↔ ((s.setThread t x).thread u).critical = true := by
  by_cases hut : u = t
  · subst hut
    rw [setThread_self]
    exact iff_of_true rfl hcrit
  · rw [setThread_of_ne hut]
    refine iff_of_false (fun heq => hut (Option.some.inj heq).symm) fun hu => ?_
    have hmutex := (h.mutex u).mpr hu
    rw [hnone] at hmutex
    cases hmutex

theorem Threads.mutex_unlock (hold : (s.thread t).critical = true) (hcrit : x.critical = false)
    (u : Fin n) : none = some u ↔ ((s.setThread t x).thread u).critical = true := by
  by_cases hut : u = t
  · subst hut
    rw [setThread_self, hcrit]
    simp
  · rw [setThread_of_ne hut]
    exact iff_of_false (by simp) fun hu => hut (h.exclusive hu hold)

end Mutex

/-- A broadcast wakes threads up and does nothing else. -/
theorem Threads.broadcast (h : Threads ids s) : Threads ids s.broadcast where
  pid {t pid pc} ht := by
    rcases (Thread.wake_eq_running ht).2 with hx | ⟨hx, -⟩
    · exact h.pid hx
    · exact h.pid hx
  mutex t := (h.mutex t).trans (by rw [State.broadcast, Thread.wake_critical])
  away t := Thread.wake_eq_away.trans (h.away t)

theorem Threads.afterStep (h : Threads ids s) (hx : s.thread t = .running pid pc)
    (hblocked : ¬ Blocked s pc) : Threads ids (afterStep s t pid pc) := by
  have hpid := h.pid hx
  have haway : s.thread t ≠ .away := by simp [hx]
  have hcrit : (s.thread t).critical = pc.critical := by rw [hx]; rfl
  unfold Manpage.afterStep
  subst hpid
  cases pc with
  | lock => exact h.move haway (h.mutex_lock (not_not.mp hblocked) rfl)
  | woken => exact h.move haway (h.mutex_lock (not_not.mp hblocked) rfl)
  | test =>
    refine h.move haway (h.mutex_same ?_)
    rw [hcrit]
    cases decide ((ids t : Nat) = s.curPage) <;> rfl
  | wait => exact h.move haway (h.mutex_unlock hcrit rfl)
  | asleep => exact absurd trivial hblocked
  | showParagraph => exact h.move haway (h.mutex_same hcrit.symm)
  | incr => exact h.move haway (h.mutex_same hcrit.symm)
  | unlock => exact h.move haway (h.mutex_unlock hcrit rfl)
  | broadcast =>
    have hwoken : s.broadcast.thread t = .running (ids t) .broadcast := congrArg Thread.wake hx
    refine h.broadcast.move (by simp [hwoken]) (h.broadcast.mutex_same ?_)
    rw [hwoken]
    rfl
  | returned => exact absurd trivial hblocked

theorem Threads.mainStep (h : Threads ids s) (hs : s.mainStep = .ok s') : Threads ids s' := by
  rcases mainStep_cases hs with ⟨i, hi, hmain, rfl⟩ | ⟨m, rfl, hold, hnew⟩
  · have haway : s.thread ⟨i, hi⟩ = .away := (h.away _).mpr ⟨i, hmain, Nat.le_refl i⟩
    constructor
    · intro u pid pc hu
      by_cases hut : u = ⟨i, hi⟩
      · subst hut
        rw [setThread_self] at hu
        cases hu
      · rw [setThread_of_ne hut] at hu
        exact h.pid hu
    · refine h.mutex_same ?_
      rw [haway]
      rfl
    · intro u
      by_cases hut : u = ⟨i, hi⟩
      · subst hut
        rw [setThread_self]
        refine iff_of_false (by simp) fun hlater => ?_
        obtain ⟨j, hj, hle⟩ := hlater
        cases hj
        exact absurd hle (Nat.not_succ_le_self i)
      · rw [setThread_of_ne hut]
        have hne : (u : Nat) ≠ i := fun heq => hut (Fin.ext heq)
        refine (h.away u).trans ⟨fun hcreate => ?_, fun hcreate => ?_⟩
        · obtain ⟨j, hj, hle⟩ := hcreate
          cases hmain.symm.trans hj
          exact ⟨i + 1, rfl, Nat.lt_of_le_of_ne hle hne.symm⟩
        · obtain ⟨j, hj, hle⟩ := hcreate
          cases hj
          exact ⟨i, hmain, Nat.le_of_succ_le hle⟩
  · refine ⟨h.pid, h.mutex, fun u => (h.away u).trans (iff_of_false ?_ ?_)⟩
    · intro hcreate
      obtain ⟨i, hi, hle⟩ := hcreate
      exact absurd (Nat.lt_of_le_of_lt hle u.isLt) (Nat.not_lt.mpr (hold i hi))
    · intro hcreate
      obtain ⟨i, hi, -⟩ := hcreate
      exact hnew i hi

theorem Threads.step (h : Threads ids s) (hs : s.step ids e = .ok s') : Threads ids s' := by
  rcases step_cases hs with hmain | ⟨t, hx, rfl⟩ | ⟨t, pid, pc, hx, hblocked, rfl⟩ |
    ⟨t, pid, hx, rfl⟩
  · exact h.mainStep hmain
  · exact h.move (by simp [hx]) (h.mutex_same (by rw [hx]; rfl))
  · exact h.afterStep hx hblocked
  · obtain rfl := h.pid hx
    exact h.move (by simp [hx]) (h.mutex_same (by rw [hx]; rfl))

/-! ## The pages -/

/-- The place of a thread fits its page: `count` paragraphs have been shown. -/
structure Placed (page curPage count : Nat) (x : Thread) : Prop where
  printed : x.printed = true ↔ page < count
  counted : x.counted = true ↔ page < curPage
  turn : ∀ pid, x = .running pid .showParagraph → pid = curPage
  wait : ∀ pid, x = .running pid .wait → pid ≠ curPage

/-- Which threads have shown their paragraph, and what the others wait for. -/
structure Pages (ids : Equiv.Perm (Fin n)) (s : State n) : Prop where
  shown : s.shown.map (fun t => (ids t : Nat)) = List.range s.shown.length
  level : s.shown.length = s.curPage ∨ s.shown.length = s.curPage + 1
  placed : ∀ t, Placed (ids t) s.curPage s.shown.length (s.thread t)
  asleep : ∀ t pid, s.thread t = .running pid .asleep →
    pid ≠ s.curPage ∨ ∃ d, (s.thread d).releasing = true

theorem pages_start : Pages ids (State.start n) where
  shown := rfl
  level := Or.inl rfl
  placed t := by constructor <;> simp [State.start, Thread.printed, Thread.counted]
  asleep t pid h := by cases h

/-- The ids are different. -/
theorem ids_ne (h : u ≠ t) : (ids u : Nat) ≠ ids t := fun heq => h (ids.injective (Fin.ext heq))

/-- One more paragraph has been shown, and it is not the thread's own. -/
theorem Placed.shown {page curPage : Nat} (h : Placed page curPage curPage x)
    (hne : page ≠ curPage) : Placed page curPage (curPage + 1) x where
  printed := by
    rw [h.printed]
    omega
  counted := h.counted
  turn := h.turn
  wait := h.wait

/-- One more paragraph has been counted, and it is not the thread's own. -/
theorem Placed.counts {page curPage : Nat} (h : Placed page curPage (curPage + 1) x)
    (hne : page ≠ curPage) (hcrit : x.critical = false) :
    Placed page (curPage + 1) (curPage + 1) x where
  printed := h.printed
  counted := by
    rw [h.counted]
    omega
  turn pid heq := by
    subst heq
    cases hcrit
  wait pid heq := by
    subst heq
    cases hcrit

/-- The places of the threads after one of them has changed. -/
theorem placed_setThread {curPage count : Nat} (hx : Placed (ids t) curPage count x)
    (h : ∀ u, u ≠ t → Placed (ids u) curPage count (s.thread u)) (u : Fin n) :
    Placed (ids u) curPage count ((s.setThread t x).thread u) := by
  by_cases hut : u = t
  · subst hut
    rwa [setThread_self]
  · rw [setThread_of_ne hut]
    exact h u hut

/-- A step that neither shows a paragraph nor counts one. -/
theorem Pages.move {main : Main} {mutex : Option (Fin n)} (h : Pages ids s)
    (hprinted : x.printed = (s.thread t).printed) (hcounted : x.counted = (s.thread t).counted)
    (hturn : ∀ pid, x = .running pid .showParagraph → pid = s.curPage)
    (hwait : ∀ pid, x = .running pid .wait → pid ≠ s.curPage)
    (hasleep : ∀ u pid, (s.setThread t x).thread u = .running pid .asleep →
      pid ≠ s.curPage ∨ ∃ d, ((s.setThread t x).thread d).releasing = true) :
    Pages ids ({ s with main, mutex }.setThread t x) where
  shown := h.shown
  level := h.level
  placed := by
    have hplaced := h.placed t
    refine @placed_setThread n ids s t x _ _ ⟨?_, ?_, hturn, hwait⟩ fun u _ => h.placed u
    · rw [hprinted]
      exact hplaced.printed
    · rw [hcounted]
      exact hplaced.counted
  asleep := hasleep

/-- The threads that are asleep, when one that is not to broadcast goes on. -/
theorem Pages.asleep_move (h : Pages ids s)
    (hrel : (s.thread t).releasing = true → x.releasing = true)
    (hx : ∀ pid, x = .running pid .asleep → pid ≠ s.curPage) (u : Fin n) (pid : Nat)
    (hu : (s.setThread t x).thread u = .running pid .asleep) :
    pid ≠ s.curPage ∨ ∃ d, ((s.setThread t x).thread d).releasing = true := by
  by_cases hut : u = t
  · subst hut
    rw [setThread_self] at hu
    exact Or.inl (hx pid hu)
  · rw [setThread_of_ne hut] at hu
    rcases h.asleep u pid hu with hne | ⟨d, hd⟩
    · exact Or.inl hne
    · refine Or.inr ⟨d, ?_⟩
      by_cases hdt : d = t
      · subst hdt
        rw [setThread_self]
        exact hrel hd
      · rwa [setThread_of_ne hdt]

/-- A step to a place where a thread neither shows its paragraph nor waits nor sleeps. -/
theorem Pages.pass {main : Main} {mutex : Option (Fin n)} (h : Pages ids s)
    (hprinted : x.printed = (s.thread t).printed) (hcounted : x.counted = (s.thread t).counted)
    (hrel : (s.thread t).releasing = true → x.releasing = true)
    (hturn : ∀ pid, x ≠ .running pid .showParagraph) (hwait : ∀ pid, x ≠ .running pid .wait)
    (hasleep : ∀ pid, x ≠ .running pid .asleep) :
    Pages ids ({ s with main, mutex }.setThread t x) := by
  refine h.move hprinted hcounted ?_ ?_ ?_
  · intro pid heq
    exact absurd heq (hturn pid)
  · intro pid heq
    exact absurd heq (hwait pid)
  · exact h.asleep_move hrel fun pid heq => absurd heq (hasleep pid)

/-- The thread whose turn it is shows its paragraph. -/
theorem Pages.showParagraph (h : Pages ids s) (hx : s.thread t = .running (ids t) .showParagraph) :
    Pages ids ({ s with shown := s.shown ++ [t] }.setThread t (.running (ids t) .incr)) := by
  have hplaced := h.placed t
  have hturn : (ids t : Nat) = s.curPage := hplaced.turn _ hx
  have hnot : ¬ (ids t : Nat) < s.shown.length := by
    rw [← hplaced.printed, hx]
    exact Bool.false_ne_true
  have hlength : s.shown.length = s.curPage := by
    have hlevel := h.level
    omega
  have hlast : (s.shown ++ [t]).length = s.curPage + 1 := by
    rw [List.length_append, hlength]
    rfl
  refine ⟨?_, Or.inr hlast, ?_, ?_⟩
  · change (s.shown ++ [t]).map _ = List.range (s.shown ++ [t]).length
    rw [hlast, List.range_succ, List.map_append, h.shown, hlength, ← hturn]
    rfl
  · change ∀ u, Placed (ids u) s.curPage (s.shown ++ [t]).length _
    rw [hlast]
    refine placed_setThread ⟨?_, ?_, ?_, ?_⟩ fun u hut => ?_
    · rw [hturn]
      exact iff_of_true rfl (Nat.lt_succ_self _)
    · rw [← hplaced.counted, hx]
      rfl
    · intro pid heq
      cases heq
    · intro pid heq
      cases heq
    · have hother := h.placed u
      rw [hlength] at hother
      have hne := @ids_ne n ids t u hut
      rw [hturn] at hne
      exact hother.shown hne
  · exact h.asleep_move (fun hrel => by rw [hx] at hrel; cases hrel) fun pid heq => by cases heq

/-- The thread that has shown its paragraph counts it. -/
theorem Pages.incr (h : Pages ids s) (hthreads : Threads ids s)
    (hx : s.thread t = .running (ids t) .incr) :
    Pages ids ({ s with curPage := s.curPage + 1 }.setThread t (.running (ids t) .unlock)) := by
  have hplaced := h.placed t
  have hprinted : (ids t : Nat) < s.shown.length := by
    rw [← hplaced.printed, hx]
    rfl
  have hcounted : ¬ (ids t : Nat) < s.curPage := by
    rw [← hplaced.counted, hx]
    exact Bool.false_ne_true
  have hlevel := h.level
  have hturn : (ids t : Nat) = s.curPage := by omega
  have hlength : s.shown.length = s.curPage + 1 := by omega
  refine ⟨h.shown, Or.inl hlength, ?_, ?_⟩
  · change ∀ u, Placed (ids u) (s.curPage + 1) s.shown.length _
    rw [hlength]
    refine placed_setThread ⟨?_, ?_, ?_, ?_⟩ fun u hut => ?_
    · rw [hturn]
      exact iff_of_true rfl (Nat.lt_succ_self _)
    · rw [hturn]
      exact iff_of_true rfl (Nat.lt_succ_self _)
    · intro pid heq
      cases heq
    · intro pid heq
      cases heq
    · have hother := h.placed u
      rw [hlength] at hother
      have hne := @ids_ne n ids t u hut
      rw [hturn] at hne
      -- only one thread at a time is in the critical section
      refine hother.counts hne (Bool.eq_false_iff.mpr fun hcrit => hut ?_)
      refine hthreads.exclusive hcrit ?_
      rw [hx]
      rfl
  · intro u pid _
    refine Or.inr ⟨t, ?_⟩
    rw [setThread_self]
    rfl

/-- After a broadcast nobody is asleep. -/
theorem broadcast_ne_asleep (s : State n) (u : Fin n) (pid : Nat) :
    s.broadcast.thread u ≠ .running pid .asleep :=
  fun hu => (Thread.wake_eq_running hu).1 rfl

theorem Pages.broadcast (h : Pages ids s) : Pages ids s.broadcast where
  shown := h.shown
  level := h.level
  placed t := by
    have hplaced := h.placed t
    refine ⟨?_, ?_, fun pid ht => ?_, fun pid ht => ?_⟩
    · rw [State.broadcast, Thread.wake_printed]
      exact hplaced.printed
    · rw [State.broadcast, Thread.wake_counted]
      exact hplaced.counted
    · rcases (Thread.wake_eq_running ht).2 with hx | ⟨-, hx⟩
      · exact hplaced.turn pid hx
      · cases hx
    · rcases (Thread.wake_eq_running ht).2 with hx | ⟨-, hx⟩
      · exact hplaced.wait pid hx
      · cases hx
  asleep t pid ht := absurd ht (broadcast_ne_asleep s t pid)

theorem Pages.afterStep (h : Pages ids s) (hthreads : Threads ids s)
    (hx : s.thread t = .running pid pc) (hblocked : ¬ Blocked s pc) :
    Pages ids (afterStep s t pid pc) := by
  have hpid := hthreads.pid hx
  unfold Manpage.afterStep
  subst hpid
  -- a step to a place where the thread neither sleeps nor waits nor shows its paragraph
  have hmove : ∀ {mutex : Option (Fin n)} {pc' : Pc}, pc'.printed = pc.printed →
      pc'.counted = pc.counted → (pc.releasing = true → pc'.releasing = true) →
      (pc' = .showParagraph → (ids t : Nat) = s.curPage) →
      (pc' = .wait ∨ pc' = .asleep → (ids t : Nat) ≠ s.curPage) →
      Pages ids ({ s with mutex }.setThread t (.running (ids t) pc')) := by
    intro mutex pc' hprinted hcounted hrel hturn hwait
    refine h.move (by rw [hx]; exact hprinted) (by rw [hx]; exact hcounted) ?_ ?_ ?_
    · intro pid heq
      obtain ⟨rfl, hpc⟩ := Thread.running.inj heq
      exact hturn hpc
    · intro pid heq
      obtain ⟨rfl, hpc⟩ := Thread.running.inj heq
      exact hwait (Or.inl hpc)
    · refine h.asleep_move (by rw [hx]; exact hrel) fun pid heq => ?_
      obtain ⟨rfl, hpc⟩ := Thread.running.inj heq
      exact hwait (Or.inr hpc)
  cases pc with
  | lock => exact hmove rfl rfl (fun hrel => by cases hrel) (by simp [Pc.next]) (by simp [Pc.next])
  | woken => exact hmove rfl rfl (fun hrel => by cases hrel) (by simp [Pc.next]) (by simp [Pc.next])
  | test =>
    by_cases hturn : (ids t : Nat) = s.curPage
    · rw [decide_eq_true hturn]
      exact hmove rfl rfl (fun hrel => by cases hrel) (fun _ => hturn) (by simp [Pc.next])
    · rw [decide_eq_false hturn]
      exact hmove rfl rfl (fun hrel => by cases hrel) (by simp [Pc.next]) fun _ => hturn
  | wait => exact hmove rfl rfl (fun hrel => by cases hrel) (by simp [Pc.next]) fun _ => (h.placed t).wait _ hx
  | asleep => exact absurd trivial hblocked
  | showParagraph => exact h.showParagraph hx
  | incr => exact h.incr hthreads hx
  | unlock => exact hmove rfl rfl (fun _ => rfl) (by simp [Pc.next]) (by simp [Pc.next])
  | broadcast =>
    have hwoken : s.broadcast.thread t = .running (ids t) .broadcast := congrArg Thread.wake hx
    refine h.broadcast.move (by rw [hwoken]; rfl) (by rw [hwoken]; rfl) ?_ ?_ ?_
    · intro pid heq
      cases heq
    · intro pid heq
      cases heq
    · intro u pid hu
      by_cases hut : u = t
      · subst hut
        rw [setThread_self] at hu
        cases hu
      · rw [setThread_of_ne hut] at hu
        exact absurd hu (broadcast_ne_asleep s u pid)
  | returned => exact absurd trivial hblocked

theorem Pages.step (h : Pages ids s) (hthreads : Threads ids s) (hs : s.step ids e = .ok s') :
    Pages ids s' := by
  rcases step_cases hs with hmain | ⟨t, hx, rfl⟩ | ⟨t, pid, pc, hx, hblocked, rfl⟩ |
    ⟨t, pid, hx, rfl⟩
  · rcases mainStep_cases hmain with ⟨i, hi, hcreate, rfl⟩ | ⟨m, rfl, -, -⟩
    · have haway : s.thread ⟨i, hi⟩ = .away := (hthreads.away _).mpr ⟨i, hcreate, Nat.le_refl i⟩
      exact h.pass (by rw [haway]; rfl) (by rw [haway]; rfl) (by rw [haway]; exact id) (by simp)
        (by simp) (by simp)
    · exact ⟨h.shown, h.level, h.placed, h.asleep⟩
  · exact h.pass (by rw [hx]; rfl) (by rw [hx]; rfl) (by rw [hx]; exact id) (by simp) (by simp)
      (by simp)
  · exact h.afterStep hthreads hx hblocked
  · exact h.pass (by rw [hx]; rfl) (by rw [hx]; rfl) (by rw [hx]; exact id) (by simp) (by simp)
      (by simp)

theorem reachable_inv (hr : PageReachable ids s) : Threads ids s ∧ Pages ids s := by
  have hall : ∀ s, PageReachable ids s → Threads ids s ∧ Pages ids s := by
    refine Reachable.invariant ⟨threads_start, pages_start⟩ ?_
    intro s e s' _ hinv _ hs
    exact ⟨hinv.1.step hs, hinv.2.step hinv.1 hs⟩
  exact hall s hr

end Order

end CSE130.Manpage
