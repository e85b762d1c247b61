import CSE130.Manpage.Order
import Mathlib.Logic.Equiv.Basic

/-!
# Every paragraph is shown

The threads show the paragraphs in the order of their ids, each thread one, and until all of them have
returned there is a thread that can take a step.
-/

namespace CSE130.Manpage

open Library

/-- A spurious wake-up. -/
def Event.spurious {n : Nat} : Event n → Bool
  | .wake _ => true
  | _ => false

/-- The thread waits for others, or it has returned. -/
def Thread.Resting (x : Thread) : Prop :=
  x = .away ∨ (∃ pid, x = .running pid .asleep) ∨ x.ended = true

/-- All threads have returned from `print_page`, and `manpage` has returned. -/
def State.Finished {n : Nat} (s : State n) : Prop :=
  s.main = .returned ∧ ∀ t, (s.thread t).ended = true

section Progress

variable {n : Nat} {ids : Equiv.Perm (Fin n)} {s : State n} {t : Fin n}

/-- A thread that does not rest can take a step if nobody holds the mutex. -/
theorem threadStep_of_free (hmutex : s.mutex = none) (hrest : ¬ (s.thread t).Resting) :
    ∃ s', s.step ids (.thread t) = .ok s' := by
  cases hx : s.thread t with
  | away => exact absurd (Or.inl hx) hrest
  | created => exact ⟨_, by rw [State.step, State.threadStep, hx]⟩
  | running pid pc =>
    refine ⟨_, threadStep_running hx fun hblocked => ?_⟩
    cases pc with
    | lock => exact hblocked hmutex
    | woken => exact hblocked hmutex
    | asleep => exact hrest (Or.inr (Or.inl ⟨pid, hx⟩))
    | returned =>
      refine hrest (Or.inr (Or.inr ?_))
      rw [hx]
      rfl
    | _ => exact hblocked

/-- The thread that holds the mutex can take a step. -/
theorem threadStep_of_holder (hcrit : (s.thread t).critical = true) :
    ∃ s', s.step ids (.thread t) = .ok s' := by
  cases hx : s.thread t with
  | away =>
    rw [hx] at hcrit
    cases hcrit
  | created =>
    rw [hx] at hcrit
    cases hcrit
  | running pid pc =>
    rw [hx] at hcrit
    refine ⟨_, threadStep_running hx fun hblocked => ?_⟩
    cases pc with
    | lock => cases hcrit
    | woken => cases hcrit
    | asleep => cases hcrit
    | returned => cases hcrit
    | _ => exact hblocked

theorem not_releasing_of_resting (h : (s.thread t).Resting) : (s.thread t).releasing = false := by
  rcases h with hx | ⟨pid, hx⟩ | hended
  · rw [hx]
    rfl
  · rw [hx]
    rfl
  · cases hx : s.thread t with
    | away => rfl
    | created => rfl
    | running pid pc =>
      rw [hx] at hended
      cases pc <;> first | rfl | cases hended

theorem counted_of_ended {x : Thread} (h : x.ended = true) : x.counted = true := by
  cases x with
  | away => cases h
  | created => cases h
  | running pid pc => cases pc <;> first | rfl | cases h

theorem printed_of_counted {x : Thread} (h : x.counted = true) : x.printed = true := by
  cases x with
  | away => cases h
  | created => cases h
  | running pid pc => cases pc <;> first | rfl | cases h

/-- No wake-up is lost: where all threads exist and rest, all have returned. Otherwise the thread whose
turn it is would be asleep, with nobody to wake it up. -/
theorem ended_of_resting (hthreads : Threads ids s) (hpages : Pages ids s)
    (haway : ∀ t, s.thread t ≠ .away) (hrest : ∀ t, (s.thread t).Resting) (t : Fin n) :
    (s.thread t).ended = true := by
  rcases hrest t with hx | ⟨pid, hx⟩ | hended
  · exact absurd hx (haway t)
  · exfalso
    have hcounted : ¬ (ids t : Nat) < s.curPage := by
      rw [← (hpages.placed t).counted, hx]
      exact Bool.false_ne_true
    have hlt : s.curPage < n := Nat.lt_of_le_of_lt (Nat.le_of_not_lt hcounted) (ids t).isLt
    have hturn : (ids (ids.symm ⟨s.curPage, hlt⟩) : Nat) = s.curPage := by
      rw [Equiv.apply_symm_apply]
    generalize ids.symm ⟨s.curPage, hlt⟩ = u at hturn
    rcases hrest u with hu | ⟨pid', hu⟩ | hended
    · exact haway u hu
    · rcases hpages.asleep u pid' hu with hne | ⟨d, hd⟩
      · exact hne ((hthreads.pid hu).trans hturn)
      · rw [not_releasing_of_resting (hrest d)] at hd
        cases hd
    · have hlater := (hpages.placed u).counted.mp (counted_of_ended hended)
      exact absurd hturn (Nat.ne_of_lt hlater)
  · exact hended

/-- A program that has not finished can take a step that is no spurious wake-up. -/
theorem progress (hthreads : Threads ids s) (hpages : Pages ids s) (hnot : ¬ s.Finished) :
    ∃ e s', e.spurious = false ∧ s.step ids e = .ok s' := by
  cases hmutex : s.mutex with
  | some t =>
    obtain ⟨s', hs⟩ := @threadStep_of_holder n ids s t ((hthreads.mutex t).mp hmutex)
    exact ⟨.thread t, s', rfl, hs⟩
  | none =>
    by_cases hrest : ∀ t, (s.thread t).Resting
    · -- only the thread that called `manpage` can go on
      have hended := fun haway t => ended_of_resting hthreads hpages haway hrest t
      cases hmain : s.main with
      | create i =>
        by_cases hi : i < n
        · exact ⟨.main, _, rfl, by rw [State.step, State.mainStep, hmain]; exact dif_pos hi⟩
        · exact ⟨.main, _, rfl, by rw [State.step, State.mainStep, hmain]; exact dif_neg hi⟩
      | join i =>
        have haway : ∀ t, s.thread t ≠ .away := by
          intro t hx
          obtain ⟨j, hj, -⟩ := (hthreads.away t).mp hx
          cases hmain.symm.trans hj
        by_cases hi : i < n
        · refine ⟨.main, { s with main := .join (i + 1) }, rfl, ?_⟩
          rw [State.step, State.mainStep, hmain]
          exact (dif_pos hi).trans (if_pos (hended haway ⟨i, hi⟩))
        · exact ⟨.main, _, rfl, by rw [State.step, State.mainStep, hmain]; exact dif_neg hi⟩
      | returned =>
        refine absurd ⟨hmain, hended fun t hx => ?_⟩ hnot
        obtain ⟨j, hj, -⟩ := (hthreads.away t).mp hx
        cases hmain.symm.trans hj
    · obtain ⟨t, ht⟩ := not_forall.mp hrest
      obtain ⟨s', hs⟩ := @threadStep_of_free n ids s t hmutex ht
      exact ⟨.thread t, s', rfl, hs⟩

/-! ## The calls of `showParagraph` -/

theorem mem_shown_iff (hpages : Pages ids s) :
    t ∈ s.shown ↔ (ids t : Nat) < s.shown.length := by
  rw [← List.mem_range, ← hpages.shown, List.mem_map]
  constructor
  · intro hmem
    exact ⟨t, hmem, rfl⟩
  · intro hmem
    obtain ⟨u, hu, heq⟩ := hmem
    rwa [← ids.injective (Fin.ext heq)]

theorem nodup_shown (hpages : Pages ids s) : s.shown.Nodup := by
  have hnodup : (s.shown.map fun t => (ids t : Nat)).Nodup := by
    rw [hpages.shown]
    exact List.nodup_range
  exact hnodup.of_map

/-- When all threads have returned, all paragraphs have been shown. -/
theorem shown_of_ended (hpages : Pages ids s) (hended : ∀ t, (s.thread t).ended = true) :
    s.shown.length = n := by
  refine Nat.le_antisymm (Nat.le_of_not_lt fun hlt => ?_) (Nat.le_of_not_lt fun hlt => ?_)
  · have hmem : n ∈ s.shown.map fun t => (ids t : Nat) := by
      rw [hpages.shown]
      exact List.mem_range.mpr hlt
    obtain ⟨t, -, heq⟩ := List.mem_map.mp hmem
    exact absurd heq (Nat.ne_of_lt (ids t).isLt)
  · have hprinted := (hpages.placed (ids.symm ⟨_, hlt⟩)).printed.mp
      (printed_of_counted (counted_of_ended (hended _)))
    rw [Equiv.apply_symm_apply] at hprinted
    exact absurd hprinted (Nat.lt_irrefl _)

/-- In every interleaving the paragraphs are shown in the order of their ids, with none left out, and
each thread shows one. When all threads have returned all paragraphs have been shown, and as long as
a thread has not returned some thread can take a step. -/
theorem paragraphs_in_order (hr : PageReachable ids s) :
    s.shown.map (fun t => (ids t : Nat)) = List.range s.shown.length ∧
    s.shown.Nodup ∧ (∀ t, (s.thread t).ended = true → t ∈ s.shown) ∧
    ((∀ t, (s.thread t).ended = true) →
      s.shown.map (fun t => (ids t : Nat)) = List.range n) ∧
    (¬ s.Finished → ∃ e s', e.spurious = false ∧ s.step ids e = .ok s') := by
  obtain ⟨hthreads, hpages⟩ := reachable_inv hr
  refine ⟨hpages.shown, nodup_shown hpages, fun t ht => ?_, fun hended => ?_,
    progress hthreads hpages⟩
  · rw [mem_shown_iff hpages, ← (hpages.placed t).printed]
    exact printed_of_counted (counted_of_ended ht)
  · rw [hpages.shown, shown_of_ended hpages hended]

/-- Two threads; the first has the second paragraph, goes to sleep, wakes up for no reason and goes to
sleep again before the second thread shows the first paragraph. -/
def outOfTurn : List (Event 2) :=
  [.main, .main, .thread 0, .thread 0, .thread 0, .thread 0, .wake 0, .thread 0, .thread 0, .thread 0,
    .thread 1, .thread 1, .thread 1, .thread 1, .thread 1, .thread 1, .thread 1,
    .thread 0, .thread 0, .thread 0, .thread 0, .thread 0, .thread 0, .main, .main, .main, .main]

theorem paragraphs_in_order_outOfTurn : ∃ s,
    run (State.step (Equiv.swap 0 1)) (fun _ _ => true) (State.start 2) outOfTurn = some s ∧
    s.shown = [1, 0] ∧ s.Finished ∧
    s.shown.map (fun t => (Equiv.swap (0 : Fin 2) 1 t : Nat)) = List.range 2 := by
  have hrun : (run (State.step (Equiv.swap 0 1)) (fun _ _ => true) (State.start 2)
      outOfTurn).map (fun s => (s.shown, s.main, s.thread 0, s.thread 1)) =
      some ([1, 0], .returned, .running 1 .returned, .running 0 .returned) := by
    decide +kernel
  obtain ⟨s, hs, hfields⟩ := Option.map_eq_some_iff.mp hrun
  obtain ⟨hshown, hfields⟩ := Prod.mk.inj hfields
  obtain ⟨hmain, hfields⟩ := Prod.mk.inj hfields
  obtain ⟨hfirst, hsecond⟩ := Prod.mk.inj hfields
  have hended : ∀ t, (s.thread t).ended = true := by
    refine Fin.forall_fin_two.mpr ⟨?_, ?_⟩
    · rw [hfirst]
      rfl
    · rw [hsecond]
      rfl
  have hr : PageReachable (Equiv.swap 0 1) s := reachable_of_run (fun _ _ _ => trivial) .start hs
  obtain ⟨-, -, -, hall, -⟩ := paragraphs_in_order hr
  exact ⟨s, hs, hshown, ⟨hmain, hended⟩, hall hended⟩

end Progress

end CSE130.Manpage
