/-!
# Actions that lead from phase to phase

A signature `sig` gives some actions a phase before and a phase after them. A list of actions that
are to be executed one after the other is then in a phase: the one before the first of these
actions, or `last` if there is none. The list is well phased if each of its actions leads to the
phase of what is behind it.
-/

namespace CSE130.Library

universe u v

variable {α : Type u} {β : Type v} {sig : α → Option (β × β)} {last : β}

def phaseOf (sig : α → Option (β × β)) (last : β) : List α → β
  | [] => last
  | a :: as =>
    match sig a with
    | some (before, _) => before
    | none => phaseOf sig last as

def WellPhased (sig : α → Option (β × β)) (last : β) : List α → Prop
  | [] => True
  | a :: as =>
    (∀ before after, sig a = some (before, after) → phaseOf sig last as = after) ∧
      WellPhased sig last as

section Phases

variable {a : α} {as bs : List α}

theorem phaseOf_cons_none (h : sig a = none) : phaseOf sig last (a :: as) = phaseOf sig last as := by
  simp [phaseOf, h]

theorem phaseOf_cons_some {before after : β} (h : sig a = some (before, after)) :
    phaseOf sig last (a :: as) = before := by
  simp [phaseOf, h]

theorem wellPhased_cons_some {before after : β} (h : sig a = some (before, after)) :
    WellPhased sig last (a :: as) ↔ phaseOf sig last as = after ∧ WellPhased sig last as := by
  simp [WellPhased, h]

theorem phaseOf_append_none (h : ∀ b ∈ bs, sig b = none) :
    phaseOf sig last (bs ++ as) = phaseOf sig last as := by
  induction bs with
  | nil => rfl
  | cons b bs ih =>
    rw [List.cons_append, phaseOf_cons_none (h b (by simp))]
    exact ih fun c hc => h c (by simp [hc])

theorem WellPhased.append_none (h : ∀ b ∈ bs, sig b = none) (has : WellPhased sig last as) :
    WellPhased sig last (bs ++ as) := by
  induction bs with
  | nil => exact has
  | cons b bs ih =>
    refine ⟨?_, ih fun c hc => h c (by simp [hc])⟩
    intro before after hb
    rw [h b (by simp)] at hb
    cases hb

/-- Without an action that the signature speaks about, a list is in the last phase. -/
theorem phaseOf_of_none (h : ∀ b ∈ bs, sig b = none) : phaseOf sig last bs = last := by
  have happend := @phaseOf_append_none α β sig last [] bs h
  rwa [List.append_nil] at happend

/-- A list that is not in the last phase is in that of one of its actions. -/
theorem exists_of_phaseOf_ne (h : phaseOf sig last as ≠ last) :
    ∃ a ∈ as, ∃ after, sig a = some (phaseOf sig last as, after) := by
  induction as with
  | nil => exact absurd rfl h
  | cons a as ih =>
    cases ha : sig a with
    | none =>
      rw [phaseOf_cons_none ha] at h ⊢
      obtain ⟨b, hb, after, hsig⟩ := ih h
      exact ⟨b, List.mem_cons_of_mem a hb, after, hsig⟩
    | some p =>
      obtain ⟨before, after⟩ := p
      refine ⟨a, List.mem_cons_self, after, ?_⟩
      rw [phaseOf_cons_some ha, ha]

theorem WellPhased.of_none (h : ∀ b ∈ bs, sig b = none) : WellPhased sig last bs := by
  have happend := @WellPhased.append_none α β sig last [] bs h trivial
  rwa [List.append_nil] at happend

end Phases

end CSE130.Library
