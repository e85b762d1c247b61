import CSE130.Library.Run

/-!
# Computations with fuel

A recursion that is not structural is given fuel, and fails with an error of its own when the fuel
has run out. With more fuel it does the same or comes further. Such a computation is faultless if
running out of fuel is the only way in which it fails.
-/

namespace CSE130.Library

variable {π α β : Type} {outOfFuel : π}

/-- `x` has run out of fuel, or it is `y`. -/
def Approx (outOfFuel : π) (x y : Except π α) : Prop := x = .error outOfFuel ∨ x = y

namespace Approx

variable {x y z : Except π α}

theorem refl (x : Except π α) : Approx outOfFuel x x := Or.inr rfl

theorem error (y : Except π α) : Approx outOfFuel (.error outOfFuel) y := Or.inl rfl

theorem trans (hxy : Approx outOfFuel x y) (hyz : Approx outOfFuel y z) : Approx outOfFuel x z := by
  rcases hxy with rfl | rfl
  · exact Or.inl rfl
  · exact hyz

theorem bind {f g : α → Except π β} (h : Approx outOfFuel x y)
    (hfg : ∀ a, Approx outOfFuel (f a) (g a)) : Approx outOfFuel (x >>= f) (y >>= g) := by
  rcases h with rfl | rfl
  · exact Or.inl rfl
  · cases x with
    | error e => exact Or.inr rfl
    | ok a => exact hfg a

theorem foldlM {f g : β → α → Except π β} (h : ∀ b a, Approx outOfFuel (f b a) (g b a))
    (l : List α) (b : β) : Approx outOfFuel (l.foldlM f b) (l.foldlM g b) := by
  induction l generalizing b with
  | nil => exact refl _
  | cons a l ih =>
    rw [List.foldlM_cons, List.foldlM_cons]
    exact (h b a).bind ih

theorem eq_of_ok {a : α} (h : Approx outOfFuel x y) (hx : x = .ok a) : y = .ok a := by
  rcases h with rfl | rfl
  · cases hx
  · exact hx

theorem eq_error {e : π} {a : α} (h : Approx outOfFuel x y) (hx : x = .error e)
    (hy : y = .ok a) : e = outOfFuel := by
  rcases h with rfl | rfl
  · exact (Except.error.inj hx).symm
  · cases hx.symm.trans hy

end Approx

section Runs

variable {run : Nat → Except π α}

/-- One more unit of fuel at a time is enough. -/
theorem approx_of_le (hstep : ∀ n, Approx outOfFuel (run n) (run (n + 1))) {m n : Nat}
    (h : m ≤ n) : Approx outOfFuel (run m) (run n) := by
  induction h with
  | refl => exact .refl _
  | step _ ih => exact ih.trans (hstep _)

/-- Two computations that return, return the same. -/
theorem eq_of_ok_of_ok (hstep : ∀ n, Approx outOfFuel (run n) (run (n + 1))) {m n : Nat} {a b : α}
    (ha : run m = .ok a) (hb : run n = .ok b) : a = b := by
  rcases Nat.le_total m n with hle | hle
  · exact Except.ok.inj (((approx_of_le hstep hle).eq_of_ok ha).symm.trans hb)
  · exact Except.ok.inj (ha.symm.trans ((approx_of_le hstep hle).eq_of_ok hb))

/-- Every error is that of running out of fuel. -/
def Faultless (outOfFuel : π) (run : Nat → Except π α) : Prop :=
  ∀ fuel e, run fuel = .error e → e = outOfFuel

/-- A computation that comes to an end is faultless if and only if it returns. -/
theorem faultless_iff_returns (hstep : ∀ n, Approx outOfFuel (run n) (run (n + 1)))
    (hends : ∃ n, run n ≠ .error outOfFuel) :
    Faultless outOfFuel run ↔ ∃ n a, run n = .ok a := by
  constructor
  · intro h
    obtain ⟨n, hn⟩ := hends
    cases hrun : run n with
    | ok a => exact ⟨n, a, hrun⟩
    | error e =>
      have he := h n e hrun
      subst he
      exact absurd hrun hn
  · rintro ⟨n, a, hn⟩ m e hm
    rcases Nat.le_total m n with hle | hle
    · exact (approx_of_le hstep hle).eq_error hm hn
    · have hok := (approx_of_le hstep hle).eq_of_ok hn
      cases hm.symm.trans hok

end Runs

end CSE130.Library
