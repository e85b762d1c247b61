import Mathlib.Algebra.BigOperators.Group.List.Basic

/-!
# Spans in a trace of events

A trace is a list of events, the newest first. Some events are ticks; the time of an event is the
number of ticks before it. A span lasts from an event that opens it to the next event that closes it.
-/

namespace CSE130.Library

universe u

variable {ε : Type u} (isTick isOpen isClose : ε → Bool)

/-- The number of ticks in a trace. -/
def clock (trace : List ε) : Nat := trace.countP isTick

/-- The times of the events that `p` selects, the newest first. -/
def timesOf (p : ε → Bool) : List ε → List Nat
  | [] => []
  | e :: trace =>
    if p e then clock isTick trace :: timesOf p trace else timesOf p trace

/-- The time at which the span has been opened that is open at the end of a trace. -/
def openSince : List ε → Option Nat
  | [] => none
  | e :: trace =>
    if isClose e then none
    else if isOpen e then some (clock isTick trace)
    else openSince trace

/-- The times at which the closed spans have been opened and closed, the newest first. -/
def spans : List ε → List (Nat × Nat)
  | [] => []
  | e :: trace =>
    if isClose e then
      (openSince isTick isOpen isClose trace).toList.map (fun a => (a, clock isTick trace)) ++
        spans trace
    else spans trace

section Lemmas

variable {isTick isOpen isClose} {e : ε} {trace : List ε} {p : ε → Bool}

theorem clock_cons_of_tick (h : isTick e = true) :
    clock isTick (e :: trace) = clock isTick trace + 1 := by
  simp [clock, h]

theorem clock_cons_of_not_tick (h : isTick e = false) :
    clock isTick (e :: trace) = clock isTick trace := by
  simp [clock, h]

theorem timesOf_cons_of_pos (h : p e = true) :
    timesOf isTick p (e :: trace) = clock isTick trace :: timesOf isTick p trace := by
  simp [timesOf, h]

theorem timesOf_cons_of_neg (h : p e = false) :
    timesOf isTick p (e :: trace) = timesOf isTick p trace := by
  simp [timesOf, h]

theorem mem_of_timesOf_ne_nil (h : timesOf isTick p trace ≠ []) : ∃ e ∈ trace, p e = true := by
  induction trace with
  | nil => exact absurd rfl h
  | cons e trace ih =>
    by_cases he : p e = true
    · exact ⟨e, List.mem_cons_self, he⟩
    · rw [timesOf_cons_of_neg (Bool.eq_false_iff.mpr he)] at h
      obtain ⟨e', hmem, he'⟩ := ih h
      exact ⟨e', List.mem_cons_of_mem e hmem, he'⟩

theorem timesOf_eq_nil (h : ∀ e ∈ trace, p e = false) : timesOf isTick p trace = [] := by
  by_contra hne
  obtain ⟨e, hmem, he⟩ := mem_of_timesOf_ne_nil hne
  rw [h e hmem] at he
  cases he

theorem openSince_close (h : isClose e = true) :
    openSince isTick isOpen isClose (e :: trace) = none := by
  simp [openSince, h]

theorem openSince_open (hc : isClose e = false) (ho : isOpen e = true) :
    openSince isTick isOpen isClose (e :: trace) = some (clock isTick trace) := by
  simp [openSince, hc, ho]

theorem openSince_other (hc : isClose e = false) (ho : isOpen e = false) :
    openSince isTick isOpen isClose (e :: trace) = openSince isTick isOpen isClose trace := by
  simp [openSince, hc, ho]

theorem openSince_eq_none (h : ∀ e ∈ trace, isOpen e = false) :
    openSince isTick isOpen isClose trace = none := by
  induction trace with
  | nil => rfl
  | cons e trace ih =>
    by_cases hc : isClose e = true
    · exact openSince_close hc
    · rw [openSince_other (Bool.eq_false_iff.mpr hc) (h e List.mem_cons_self)]
      exact ih fun e' he' => h e' (List.mem_cons_of_mem e he')

theorem spans_other (h : isClose e = false) :
    spans isTick isOpen isClose (e :: trace) = spans isTick isOpen isClose trace := by
  simp [spans, h]

/-- A closing event closes the span that is open. -/
theorem spans_close {a : Nat} (h : isClose e = true)
    (ho : openSince isTick isOpen isClose trace = some a) :
    spans isTick isOpen isClose (e :: trace) =
      (a, clock isTick trace) :: spans isTick isOpen isClose trace := by
  simp [spans, h, ho]

/-- A closing event without an open span is not the end of one. -/
theorem spans_close_none (h : isClose e = true)
    (ho : openSince isTick isOpen isClose trace = none) :
    spans isTick isOpen isClose (e :: trace) = spans isTick isOpen isClose trace := by
  simp [spans, h, ho]

theorem spans_eq_nil (h : ∀ e ∈ trace, isClose e = false) :
    spans isTick isOpen isClose trace = [] := by
  induction trace with
  | nil => rfl
  | cons e trace ih =>
    rw [spans_other (h e List.mem_cons_self)]
    exact ih fun e' he' => h e' (List.mem_cons_of_mem e he')

end Lemmas

end CSE130.Library
