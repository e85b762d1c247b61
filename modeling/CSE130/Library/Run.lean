import Mathlib.Tactic.SplitIfs

/-!
# Runs of a machine whose steps may fail

A machine is a step function `σ → ε → Except π σ` from states and events. `admits` says which
events may happen in which states. A run is a sequence of admitted events none of which fails.
-/

namespace CSE130.Library

universe u v

/-! ## Computations that may fail -/

section Except

variable {π α β : Type}

@[simp] theorem bind_eq_ok {x : Except π α} {f : α → Except π β} {b : β} :
    x >>= f = .ok b ↔ ∃ a, x = .ok a ∧ f a = .ok b := by
  cases x <;> simp [bind, Except.bind]

@[simp] theorem pure_eq_ok {a b : α} : (pure a : Except π α) = .ok b ↔ a = b := by
  simp [pure, Except.pure]

@[simp] theorem ok_bind (a : α) (f : α → Except π β) : (Except.ok a : Except π α) >>= f = f a := rfl

/-- A check that fails with `e`. -/
def check (p : Prop) [Decidable p] (e : π) : Except π Unit := if p then .ok () else .error e

@[simp] theorem check_eq_ok {p : Prop} [Decidable p] {e : π} {u : Unit} :
    check p e = .ok u ↔ p := by
  unfold check
  split_ifs <;> simp_all

theorem check_bind {p : Prop} [Decidable p] {e : π} {f : Unit → Except π β} (h : p) :
    check p e >>= f = f () := by
  rw [check, if_pos h]
  rfl

/-- A fold that returns has returned at each element. -/
theorem ok_of_mem_foldlM {f : β → α → Except π β} {l : List α} {a : α} {b c : β} (ha : a ∈ l)
    (h : l.foldlM f b = .ok c) : ∃ b' c', f b' a = .ok c' := by
  induction l generalizing b with
  | nil => cases ha
  | cons x l ih =>
    rw [List.foldlM_cons] at h
    obtain ⟨b₁, hx, hl⟩ := bind_eq_ok.mp h
    cases List.mem_cons.mp ha with
    | inl heq =>
      subst heq
      exact ⟨b, b₁, hx⟩
    | inr ha => exact ih ha hl

end Except

/-! ## Reachable states -/

variable {σ : Type u} {ε : Type v} {π : Type}

/-- The states reached from `start` by admitted events. -/
inductive Reachable (step : σ → ε → Except π σ) (admits : σ → ε → Prop) (start : σ) : σ → Prop
  | start : Reachable step admits start start
  | step {s : σ} {e : ε} {s' : σ} :
      Reachable step admits start s → admits s e → step s e = .ok s' →
        Reachable step admits start s'

variable {step : σ → ε → Except π σ} {admits admits' : σ → ε → Prop} {start : σ}

/-- The invariant rule: what holds at the start and is kept by every admitted step holds in every
reachable state. The step may assume that its state is reachable. -/
theorem Reachable.invariant {Inv : σ → Prop} (h0 : Inv start)
    (hstep : ∀ s e s', Reachable step admits start s → Inv s → admits s e → step s e = .ok s' →
      Inv s') :
    ∀ s, Reachable step admits start s → Inv s := by
  intro s h
  induction h with
  | start => exact h0
  | step hr ha hs ih => exact hstep _ _ _ hr ih ha hs

/-- Fewer events reach fewer states. -/
theorem Reachable.mono (himp : ∀ s e, admits s e → admits' s e) {s : σ}
    (h : Reachable step admits start s) : Reachable step admits' start s := by
  induction h with
  | start => exact .start
  | step _ ha hs ih => exact .step ih (himp _ _ ha) hs

/-- One run may go on where another has ended. -/
theorem Reachable.trans {s s' : σ} (h : Reachable step admits start s)
    (h' : Reachable step admits s s') : Reachable step admits start s' := by
  induction h' with
  | start => exact h
  | step _ ha hs ih => exact ih.step ha hs

/-- From `s` an admitted step leads to `s'`. -/
def Next (step : σ → ε → Except π σ) (admits : σ → ε → Prop) (s' s : σ) : Prop :=
  ∃ e, admits s e ∧ step s e = .ok s'

/-- Where every admitted step goes down in a well-founded order, every run ends. -/
theorem Reachable.acc {β : Type} {r : β → β → Prop} (hwf : WellFounded r) (μ : σ → β)
    (hdown : ∀ s e s', Reachable step admits start s → admits s e → step s e = .ok s' →
      r (μ s') (μ s)) {s : σ} (h : Reachable step admits start s) :
    Acc (Next step admits) s := by
  generalize hb : μ s = b
  induction hwf.apply b generalizing s with
  | intro b _ ih =>
    refine ⟨_, fun s' hstep => ?_⟩
    obtain ⟨e, ha, hs⟩ := hstep
    subst hb
    exact ih _ (hdown s e s' h ha hs) (h.step ha hs) rfl

/-- Where every run ends, and only in a goal, some run reaches a goal. -/
theorem Reachable.exists_of_acc {Goal : σ → Prop}
    (hacc : Acc (Next step admits) start)
    (hprogress : ∀ s, Reachable step admits start s → ¬ Goal s → ∃ s', Next step admits s' s) :
    ∃ s, Reachable step admits start s ∧ Goal s := by
  have hfrom : ∀ s, Acc (Next step admits) s → Reachable step admits start s →
      ∃ s, Reachable step admits start s ∧ Goal s := by
    intro s hs
    induction hs with
    | intro s _ ih =>
      intro hr
      by_cases hgoal : Goal s
      · exact ⟨s, hr, hgoal⟩
      · obtain ⟨s', hnext⟩ := hprogress s hr hgoal
        obtain ⟨e, ha, hstep⟩ := hnext
        exact ih s' ⟨e, ha, hstep⟩ (hr.step ha hstep)
  exact hfrom start hacc .start

/-- The state after a sequence of events, if each is admitted by `ok` and none fails. -/
def run (step : σ → ε → Except π σ) (ok : σ → ε → Bool) : σ → List ε → Option σ
  | s, [] => some s
  | s, e :: es =>
    if ok s e then
      match step s e with
      | .ok s' => run step ok s' es
      | .error _ => none
    else none

theorem reachable_of_run {ok : σ → ε → Bool} (hok : ∀ s e, ok s e = true → admits s e)
    {es : List ε} {s s' : σ} (h : Reachable step admits start s) (hrun : run step ok s es = some s') :
    Reachable step admits start s' := by
  induction es generalizing s with
  | nil =>
    cases hrun
    exact h
  | cons e es ih =>
    rw [run] at hrun
    split at hrun
    · rename_i ha
      cases hs : step s e with
      | ok t =>
        rw [hs] at hrun
        exact ih (h.step (hok s e ha) hs) hrun
      | error _ =>
        rw [hs] at hrun
        cases hrun
    · cases hrun

/-! ## What holds along a run -/

/-- `P` holds of each of the events and the state in which it happens, from `s` up to the first
event that fails. -/
def Along (step : σ → ε → Except π σ) (P : σ → ε → Prop) : σ → List ε → Prop
  | _, [] => True
  | s, e :: es => P s e ∧ ∀ s', step s e = .ok s' → Along step P s' es

variable {P Q : σ → ε → Prop} {es : List ε}

/-- Along a run of admitted events, what is equivalent in every reachable state is equivalent. -/
theorem along_congr (hiff : ∀ s e, Reachable step admits start s → admits s e → (P s e ↔ Q s e))
    {s : σ} (h : Reachable step admits start s) (hes : Along step admits s es) :
    Along step P s es ↔ Along step Q s es := by
  induction es generalizing s with
  | nil => exact Iff.rfl
  | cons e es ih =>
    obtain ⟨ha, hes⟩ := hes
    refine and_congr (hiff s e h ha) ?_
    exact forall₂_congr fun s' hs => ih (h.step ha hs) (hes s' hs)

theorem along_of_run {ok : σ → ε → Bool} (hok : ∀ s e, ok s e = true → P s e) {s s' : σ}
    (hrun : run step ok s es = some s') : Along step P s es := by
  induction es generalizing s with
  | nil => trivial
  | cons e es ih =>
    rw [run] at hrun
    split at hrun
    · rename_i ha
      refine ⟨hok s e ha, ?_⟩
      intro t hs
      rw [hs] at hrun
      exact ih hrun
    · cases hrun

end CSE130.Library
