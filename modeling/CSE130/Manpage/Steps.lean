import CSE130.Manpage.Basic

/-!
# The steps of a thread that shows a paragraph

For each place in `print_page`, what the next step does to the shared state, and which events lead from
one state to another.
-/

namespace CSE130.Manpage

open Library

/-! ## What a place in the code says -/

namespace Pc

/-- The thread holds the mutex. -/
def critical : Pc → Bool
  | test | wait | showParagraph | incr | unlock => true
  | _ => false

/-- The thread has called `showParagraph`. -/
def printed : Pc → Bool
  | incr | unlock | broadcast | returned => true
  | _ => false

/-- The thread has counted its paragraph in `cur_page`. -/
def counted : Pc → Bool
  | unlock | broadcast | returned => true
  | _ => false

/-- The thread has counted its paragraph and is still to broadcast. -/
def releasing : Pc → Bool
  | unlock | broadcast => true
  | _ => false

/-- The place after a step; `turn` says whether the page of the thread is `cur_page`. -/
def next (turn : Bool) : Pc → Pc
  | lock => test
  | test => if turn then showParagraph else wait
  | wait => asleep
  | asleep => asleep
  | woken => test
  | showParagraph => incr
  | incr => unlock
  | unlock => broadcast
  | broadcast => returned
  | returned => returned

end Pc

namespace Thread

def critical : Thread → Bool
  | running _ pc => pc.critical
  | _ => false

def printed : Thread → Bool
  | running _ pc => pc.printed
  | _ => false

def counted : Thread → Bool
  | running _ pc => pc.counted
  | _ => false

def releasing : Thread → Bool
  | running _ pc => pc.releasing
  | _ => false

theorem wake_eq_away {x : Thread} : x.wake = .away ↔ x = .away := by
  cases x with
  | away => exact Iff.rfl
  | created => exact Iff.rfl
  | running pid pc => cases pc <;> simp [wake]

theorem wake_critical (x : Thread) : x.wake.critical = x.critical := by
  cases x with
  | away => rfl
  | created => rfl
  | running pid pc => cases pc <;> rfl

theorem wake_printed (x : Thread) : x.wake.printed = x.printed := by
  cases x with
  | away => rfl
  | created => rfl
  | running pid pc => cases pc <;> rfl

theorem wake_counted (x : Thread) : x.wake.counted = x.counted := by
  cases x with
  | away => rfl
  | created => rfl
  | running pid pc => cases pc <;> rfl

/-- A thread that has been woken up is not asleep, and has the page it had. -/
theorem wake_eq_running {x : Thread} {pid : Nat} {pc : Pc} (h : x.wake = .running pid pc) :
    pc ≠ .asleep ∧ (x = .running pid pc ∨ x = .running pid .asleep ∧ pc = .woken) := by
  cases x with
  | away => cases h
  | created => cases h
  | running pid' pc' =>
    cases pc' with
    | asleep =>
      obtain ⟨rfl, rfl⟩ := Thread.running.inj h
      exact ⟨by decide, Or.inr ⟨rfl, rfl⟩⟩
    | _ =>
      obtain ⟨rfl, rfl⟩ := Thread.running.inj h
      exact ⟨by decide, Or.inl rfl⟩

end Thread

section Steps

variable {n : Nat} {ids : Equiv.Perm (Fin n)} {s s' : State n} {t u : Fin n} {x : Thread}
  {pid : Nat} {pc : Pc} {e : Event n}

theorem setThread_self : (s.setThread t x).thread t = x := Function.update_self _ _ _

theorem setThread_of_ne (h : u ≠ t) : (s.setThread t x).thread u = s.thread u :=
  Function.update_of_ne h _ _

/-- The thread cannot take its step. -/
def Blocked (s : State n) : Pc → Prop
  | .lock | .woken => s.mutex ≠ none
  | .asleep | .returned => True
  | _ => False

/-- What the step does, but for the place of the thread itself. -/
def effect (s : State n) (t : Fin n) : Pc → State n
  | .lock | .woken => { s with mutex := some t }
  | .wait | .unlock => s.unlockMutex
  | .showParagraph => { s with shown := s.shown ++ [t] }
  | .incr => { s with curPage := s.curPage + 1 }
  | .broadcast => s.broadcast
  | _ => s

theorem lockMutex_eq (h : s.mutex = none) : s.lockMutex t = .ok { s with mutex := some t } :=
  if_pos h

theorem lockMutex_ne (h : s.mutex ≠ none) : s.lockMutex t = .error .disabled := if_neg h

/-- A thread that is not blocked takes its step. -/
theorem pcStep_eq (h : ¬ Blocked s pc) :
    s.pcStep t pid pc = .ok (effect s t pc, pc.next (decide (pid = s.curPage))) := by
  cases pc with
  | lock =>
    rw [State.pcStep, lockMutex_eq (not_not.mp h)]
    rfl
  | woken =>
    rw [State.pcStep, lockMutex_eq (not_not.mp h)]
    rfl
  | test => by_cases hturn : pid = s.curPage <;> simp [State.pcStep, Pc.next, effect, hturn]
  | asleep => exact absurd trivial h
  | returned => exact absurd trivial h
  | _ => rfl

theorem pcStep_blocked (h : Blocked s pc) : s.pcStep t pid pc = .error .disabled := by
  cases pc with
  | lock =>
    rw [State.pcStep, lockMutex_ne h]
    rfl
  | woken =>
    rw [State.pcStep, lockMutex_ne h]
    rfl
  | asleep => rfl
  | returned => rfl
  | _ => exact h.elim

/-- The state after a step of a thread that has its paragraph. -/
def afterStep (s : State n) (t : Fin n) (pid : Nat) (pc : Pc) : State n :=
  (effect s t pc).setThread t (.running pid (pc.next (decide (pid = s.curPage))))

theorem threadStep_running (hx : s.thread t = .running pid pc) (h : ¬ Blocked s pc) :
    s.threadStep ids t = .ok (afterStep s t pid pc) := by
  unfold State.threadStep
  rw [hx]
  dsimp only
  rw [pcStep_eq h]
  rfl

theorem threadStep_cases (h : s.threadStep ids t = .ok s') :
    s.thread t = .created ∧ s' = s.setThread t (.running (ids t) .lock) ∨
    ∃ pid pc, s.thread t = .running pid pc ∧ ¬ Blocked s pc ∧ s' = afterStep s t pid pc := by
  cases hx : s.thread t with
  | away =>
    rw [State.threadStep, hx] at h
    cases h
  | created =>
    rw [State.threadStep, hx] at h
    exact Or.inl ⟨rfl, (Except.ok.inj h).symm⟩
  | running pid pc =>
    refine Or.inr ⟨pid, pc, rfl, ?_⟩
    by_cases hblocked : Blocked s pc
    · rw [State.threadStep, hx] at h
      dsimp only at h
      rw [pcStep_blocked hblocked] at h
      cases h
    · rw [threadStep_running hx hblocked] at h
      exact ⟨hblocked, (Except.ok.inj h).symm⟩

/-- The first loop of `manpage` creates a thread, or only the place in the loops changes. -/
theorem mainStep_cases (h : s.mainStep = .ok s') :
    (∃ i, ∃ hi : i < n, s.main = .create i ∧
      s' = { s with main := .create (i + 1) }.setThread ⟨i, hi⟩ .created) ∨
    ∃ m, s' = { s with main := m } ∧ (∀ i, s.main = .create i → n ≤ i) ∧ ∀ i, m ≠ .create i := by
  unfold State.mainStep at h
  cases hm : s.main with
  | create i =>
    rw [hm] at h
    dsimp only at h
    by_cases hi : i < n
    · rw [dif_pos hi] at h
      exact Or.inl ⟨i, hi, rfl, (Except.ok.inj h).symm⟩
    · rw [dif_neg hi] at h
      refine Or.inr ⟨.join 0, (Except.ok.inj h).symm, ?_, by simp⟩
      intro j hj
      cases hj
      exact Nat.le_of_not_lt hi
  | join i =>
    rw [hm] at h
    dsimp only at h
    right
    by_cases hi : i < n
    · rw [dif_pos hi] at h
      by_cases hend : (s.thread ⟨i, hi⟩).ended = true
      · rw [if_pos hend] at h
        exact ⟨.join (i + 1), (Except.ok.inj h).symm, by simp, by simp⟩
      · rw [if_neg hend] at h
        cases h
    · rw [dif_neg hi] at h
      exact ⟨.returned, (Except.ok.inj h).symm, by simp, by simp⟩
  | returned =>
    rw [hm] at h
    cases h

/-- The events that happen, and the state after each of them. -/
theorem step_cases (h : s.step ids e = .ok s') :
    s.mainStep = .ok s' ∨
    (∃ t, s.thread t = .created ∧ s' = s.setThread t (.running (ids t) .lock)) ∨
    (∃ t pid pc, s.thread t = .running pid pc ∧ ¬ Blocked s pc ∧ s' = afterStep s t pid pc) ∨
    ∃ t pid, s.thread t = .running pid .asleep ∧ s' = s.setThread t (.running pid .woken) := by
  cases e with
  | main => exact Or.inl h
  | thread t =>
    right
    rcases threadStep_cases h with hcreated | hrunning
    · exact Or.inl ⟨t, hcreated⟩
    · exact Or.inr (Or.inl ⟨t, hrunning⟩)
  | wake t =>
    rw [State.step] at h
    split at h
    · rename_i pid hx
      rw [hx] at h
      exact Or.inr (Or.inr (Or.inr ⟨t, pid, hx, (Except.ok.inj h).symm⟩))
    · cases h

end Steps

end CSE130.Manpage
