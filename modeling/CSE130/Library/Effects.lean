import Mathlib.Order.Defs.Unbundled

/-!
# What a computation may do to the state

A computation stays within a relation if the states before and after every run that returns are in it. A
preorder is kept by the composition of computations, so that it is enough to look at the parts.
-/

namespace CSE130.Library

variable {σ ε α β : Type} {R R' : σ → σ → Prop} {m : EStateM ε σ α} {f : α → EStateM ε σ β}

/-- Every run of `m` that returns leads from a state to one that is related to it. -/
def StaysIn (R : σ → σ → Prop) (m : EStateM ε σ α) : Prop := ∀ ⦃s a s'⦄, m s = .ok a s' → R s s'

namespace StaysIn

theorem mono (h : StaysIn R m) (hle : ∀ s s', R s s' → R' s s') : StaysIn R' m :=
  fun _ _ _ hrun => hle _ _ (h hrun)

theorem throw {e : ε} : StaysIn R (throw e : EStateM ε σ α) := fun _ _ _ hrun => nomatch hrun

theorem ite {p : Prop} [Decidable p] {m' : EStateM ε σ α} (h : p → StaysIn R m)
    (h' : ¬ p → StaysIn R m') : StaysIn R (if p then m else m') := by
  by_cases hp : p
  · rw [if_pos hp]
    exact h hp
  · rw [if_neg hp]
    exact h' hp

section Preorder

variable [IsPreorder σ R]

theorem pure {a : α} : StaysIn R (pure a : EStateM ε σ α) := by
  intro s b s' hrun
  cases hrun
  exact refl_of R s

theorem bind (h : StaysIn R m) (hf : ∀ a, StaysIn R (f a)) : StaysIn R (m >>= f) := by
  intro s b s' hrun
  simp only [Bind.bind, EStateM.bind] at hrun
  cases hm : m s with
  | error e t => rw [hm] at hrun; cases hrun
  | ok a t =>
    rw [hm] at hrun
    exact trans_of R (h hm) (hf a hrun)

end Preorder

end StaysIn

end CSE130.Library
