import CSE130.Library.ArrayRange
import Mathlib.Algebra.Ring.Nat

/-!
# Merge sort as a sequence of small steps

Rendering of `singleThreadedMergeSort` (`Assignment2/sort.c`) and of `singleProcessMergeSort`
(`Assignment1/psort.c` and `usort.c`), which are the same function. The recursion is a stack of calls
that are still to be made. The function `merge` is there in object code only. It is a parameter: a
program that takes steps on the array, of which it is known that it reads and writes only the range
that it is given, and that it merges two adjacent sorted ranges if nothing else writes to them.
-/

namespace CSE130.MergeSort

open Library

/-- An array of `int`. -/
abbrev Arr := Int → Int

/-- The function `merge`: its local state at the call, and the step that `merge (arr, l, m, r)` takes
next; `none` where it returns. -/
structure MergeCode where
  Local : Type
  start : Local
  step : Int → Int → Int → Local → Arr → Option (Local × Arr)

/-- From the local state `x` and the array `a`, `merge` takes `n` steps and returns with the array
`b`. -/
def MergeCode.Returns (code : MergeCode) (l m r : Int) : Nat → code.Local → Arr → Arr → Prop
  | 0, x, a, b => code.step l m r x a = none ∧ b = a
  | n + 1, x, a, b => ∃ y a', code.step l m r x a = some (y, a') ∧ code.Returns l m r n y a' b

/-- What is known of `merge`. -/
structure MergeCode.Correct (code : MergeCode) : Prop where
  frame : ∀ {l m r x a y a'}, code.step l m r x a = some (y, a') →
    ∀ i, i < l ∨ r < i → a' i = a i
  reads : ∀ {l m r x a b y a'}, AgreeOn a b l r → code.step l m r x a = some (y, a') →
    ∃ b', code.step l m r x b = some (y, b') ∧ AgreeOn a' b' l r
  merges : ∀ {l m r} (a : Arr), l ≤ m → m ≤ r → SortedOn a l m → SortedOn a (m + 1) r →
    ∃ n b, code.Returns l m r n code.start a b ∧ (values b l r).Perm (values a l r) ∧ SortedOn b l r

/-- A call that is to be made, or is under way. -/
inductive Frame (code : MergeCode) where
  | sort (left right : Int)
  | merge (l m r : Int)
  | merging (l m r : Int) (x : code.Local)

variable {code : MergeCode}

/-- The ends of the range that a call is for. -/
def Frame.lo : Frame code → Int
  | sort left _ => left
  | merge l _ _ | merging l _ _ _ => l

def Frame.hi : Frame code → Int
  | sort _ right => right
  | merge _ _ r | merging _ _ r _ => r

/-- The next step of a thread inside `singleThreadedMergeSort` (`sort.c:22-31`) or `merge`; `none`
where it has returned. -/
def taskStep : List (Frame code) → Arr → Option (List (Frame code) × Arr)
  | [], _ => none
  | .sort left right :: rest, a =>
    if left < right then
      let middle := (left + right).tdiv 2
      some (.sort left middle :: .sort (middle + 1) right :: .merge left middle right :: rest, a)
    else some (rest, a)
  | .merge l m r :: rest, a => some (.merging l m r code.start :: rest, a)
  | .merging l m r x :: rest, a =>
    match code.step l m r x a with
    | some (y, a') => some (.merging l m r y :: rest, a')
    | none => some (rest, a)

/-- `merge (arr, l, m, r)` is given two adjacent sorted ranges. -/
def CanMerge (a : Arr) (l m r : Int) : Prop :=
  l ≤ m ∧ m ≤ r ∧ SortedOn a l m ∧ SortedOn a (m + 1) r

/-- The stack brings the array into a state where `Q` holds, provided that nothing else writes to its
ranges. Every `merge` on the way is given two adjacent sorted ranges. -/
def Will : List (Frame code) → (Arr → Prop) → Arr → Prop
  | [], Q, a => Q a
  | .sort left right :: rest, Q, a =>
    ∀ b, Rearranges a b left right → SortedOn b left right → Will rest Q b
  | .merge l m r :: rest, Q, a =>
    CanMerge a l m r ∧ ∀ b, Rearranges a b l r → SortedOn b l r → Will rest Q b
  | .merging l m r x :: rest, Q, a => ∃ n b, code.Returns l m r n x a b ∧ Will rest Q b

section Merge

variable {l m r : Int} {x : code.Local} {n n' : Nat} {a b b' : Arr}

theorem CanMerge.congr (h : CanMerge a l m r) (hag : AgreeOn a b l r) : CanMerge b l m r := by
  obtain ⟨hlm, hmr, hl, hr⟩ := h
  exact ⟨hlm, hmr, hl.congr (hag.mono (Int.le_refl _) hmr),
    hr.congr (hag.mono (by omega) (Int.le_refl _))⟩

theorem MergeCode.Correct.returns_frame (hc : code.Correct) (h : code.Returns l m r n x a b) :
    ∀ i, i < l ∨ r < i → b i = a i := by
  induction n generalizing x a with
  | zero =>
    obtain ⟨-, rfl⟩ := h
    exact fun _ _ => rfl
  | succ n ih =>
    obtain ⟨y, a', hstep, hrest⟩ := h
    exact fun i hi => (ih hrest i hi).trans (hc.frame hstep i hi)

theorem MergeCode.Correct.returns_congr (hc : code.Correct) (h : code.Returns l m r n x a b)
    (hag : AgreeOn a b' l r) : ∃ c, code.Returns l m r n x b' c ∧ AgreeOn b c l r := by
  induction n generalizing x a b' with
  | zero =>
    obtain ⟨hnone, rfl⟩ := h
    refine ⟨b', ⟨?_, rfl⟩, hag⟩
    cases hsome : code.step l m r x b' with
    | none => rfl
    | some next =>
      obtain ⟨_, hstep, -⟩ := hc.reads hag.symm hsome
      rw [hnone] at hstep
      cases hstep
  | succ n ih =>
    obtain ⟨y, a', hstep, hrest⟩ := h
    obtain ⟨b'', hstep', hag'⟩ := hc.reads hag hstep
    obtain ⟨c, hc', hagc⟩ := ih hrest hag'
    exact ⟨c, ⟨y, b'', hstep', hc'⟩, hagc⟩

theorem returns_unique (h : code.Returns l m r n x a b) (h' : code.Returns l m r n' x a b') :
    n = n' := by
  induction n generalizing n' x a with
  | zero =>
    cases n' with
    | zero => rfl
    | succ n' =>
      obtain ⟨y, a', hstep, -⟩ := h'
      rw [h.1] at hstep
      cases hstep
  | succ n ih =>
    obtain ⟨y, a', hstep, hrest⟩ := h
    cases n' with
    | zero =>
      rw [h'.1] at hstep
      cases hstep
    | succ n' =>
      obtain ⟨y', a'', hstep', hrest'⟩ := h'
      rw [hstep] at hstep'
      cases hstep'
      rw [ih hrest hrest']

end Merge

section Step

variable {st st' rest : List (Frame code)} {a a' g : Arr} {Q : Arr → Prop} {left right lo hi : Int}

theorem middle_bounds (h0 : 0 ≤ left) (h : left < right) :
    left ≤ (left + right).tdiv 2 ∧ (left + right).tdiv 2 < right := by
  rw [Int.tdiv_eq_ediv_of_nonneg (by omega)]
  omega

/-- All calls are for ranges inside `lo .. hi`. -/
def Within (lo hi : Int) (st : List (Frame code)) : Prop := ∀ f ∈ st, lo ≤ f.lo ∧ f.hi ≤ hi

theorem taskStep_eq_none_iff : taskStep st a = none ↔ st = [] := by
  cases st with
  | nil => exact iff_of_true rfl rfl
  | cons f rest =>
    refine iff_of_false ?_ (List.cons_ne_nil f rest)
    cases f with
    | sort left right => simp only [taskStep]; split <;> exact Option.some_ne_none _
    | merge l m r => exact Option.some_ne_none _
    | merging l m r x => simp only [taskStep]; split <;> exact Option.some_ne_none _

/-- A step keeps what the stack is to bring about. -/
theorem Will.step (hc : code.Correct) (h0 : 0 ≤ lo) (hw : Within lo hi st) (h : Will st Q a)
    (hs : taskStep st a = some (st', a')) : Will st' Q a' := by
  rcases st with _ | ⟨⟨left, right⟩ | ⟨l, m, r⟩ | ⟨l, m, r, x⟩, rest⟩
  · cases hs
  · rw [taskStep] at hs
    by_cases hlt : left < right
    · rw [if_pos hlt] at hs
      cases hs
      have hlo := (hw (.sort left right) List.mem_cons_self).1
      simp only [Frame.lo] at hlo
      obtain ⟨hleft, hright⟩ := middle_bounds (by omega) hlt
      generalize (left + right).tdiv 2 = middle at hleft hright
      -- the two halves are sorted one after the other, then merged
      intro b hb hbsorted c hc hcsorted
      refine ⟨⟨hleft, by omega, hbsorted.congr (hc.agreeOn (Or.inl (by omega))).symm, hcsorted⟩, ?_⟩
      intro d hd hdsorted
      apply h d _ hdsorted
      exact ((hb.mono (Int.le_refl _) (by omega)).trans (hc.mono (by omega) (Int.le_refl _))).trans hd
    · rw [if_neg hlt] at hs
      cases hs
      exact h a (Rearranges.refl a left right) (sortedOn_of_le (by omega))
  · cases hs
    obtain ⟨⟨hlm, hmr, hl, hr⟩, hrest⟩ := h
    obtain ⟨n, b, hreturns, hperm, hsorted⟩ := hc.merges a hlm hmr hl hr
    exact ⟨n, b, hreturns, hrest b ⟨hperm, hc.returns_frame hreturns⟩ hsorted⟩
  · obtain ⟨n, b, hreturns, hrest⟩ := h
    rw [taskStep] at hs
    cases hstep : code.step l m r x a with
    | none =>
      rw [hstep] at hs
      cases hs
      cases n with
      | zero =>
        obtain ⟨-, rfl⟩ := hreturns
        exact hrest
      | succ n =>
        obtain ⟨_, _, hsome, -⟩ := hreturns
        rw [hstep] at hsome
        cases hsome
    | some next =>
      rw [hstep] at hs
      cases hs
      cases n with
      | zero =>
        rw [hreturns.1] at hstep
        cases hstep
      | succ n =>
        obtain ⟨y, b', hsome, hreturns⟩ := hreturns
        rw [hstep] at hsome
        cases hsome
        exact ⟨n, b, hreturns, hrest⟩

/-- A step depends on and changes only the range of the stack. -/
theorem taskStep_local (hc : code.Correct) (h0 : 0 ≤ lo) (hw : Within lo hi st)
    (hag : AgreeOn a g lo hi) (hs : taskStep st a = some (st', a')) :
    (∃ g', taskStep st g = some (st', g') ∧ AgreeOn a' g' lo hi) ∧
      (∀ i, i < lo ∨ hi < i → a' i = a i) ∧ Within lo hi st' := by
  rcases st with _ | ⟨⟨left, right⟩ | ⟨l, m, r⟩ | ⟨l, m, r, x⟩, rest⟩
  · cases hs
  · have hf := hw (.sort left right) List.mem_cons_self
    have hrest : Within lo hi rest := fun f hf => hw f (List.mem_cons_of_mem _ hf)
    simp only [Frame.lo, Frame.hi] at hf
    rw [taskStep] at hs ⊢
    by_cases hlt : left < right
    · rw [if_pos hlt] at hs ⊢
      cases hs
      obtain ⟨hleft, hright⟩ := middle_bounds (by omega) hlt
      refine ⟨⟨g, rfl, hag⟩, fun _ _ => rfl, ?_⟩
      intro f hmem
      simp only [List.mem_cons] at hmem
      rcases hmem with rfl | rfl | rfl | hmem
      · exact ⟨hf.1, by simp only [Frame.hi]; omega⟩
      · exact ⟨by simp only [Frame.lo]; omega, hf.2⟩
      · exact hf
      · exact hrest f hmem
    · rw [if_neg hlt] at hs ⊢
      cases hs
      exact ⟨⟨g, rfl, hag⟩, fun _ _ => rfl, hrest⟩
  · cases hs
    refine ⟨⟨g, rfl, hag⟩, fun _ _ => rfl, ?_⟩
    intro f hmem
    rcases List.mem_cons.mp hmem with rfl | hmem
    · exact hw (.merge l m r) List.mem_cons_self
    · exact hw f (List.mem_cons_of_mem _ hmem)
  · have hf := hw (.merging l m r x) List.mem_cons_self
    have hrest : Within lo hi rest := fun f hf => hw f (List.mem_cons_of_mem _ hf)
    simp only [Frame.lo, Frame.hi] at hf
    have hrange : AgreeOn a g l r := hag.mono hf.1 hf.2
    rw [taskStep] at hs ⊢
    cases hstep : code.step l m r x a with
    | none =>
      rw [hstep] at hs
      cases hs
      have hnone : code.step l m r x g = none := by
        obtain ⟨c, hreturns, -⟩ := hc.returns_congr (n := 0) ⟨hstep, rfl⟩ hrange
        exact hreturns.1
      rw [hnone]
      exact ⟨⟨g, rfl, hag⟩, fun _ _ => rfl, hrest⟩
    | some next =>
      obtain ⟨y, b⟩ := next
      rw [hstep] at hs
      cases hs
      obtain ⟨g', hstep', hag'⟩ := hc.reads hrange hstep
      rw [hstep']
      refine ⟨⟨g', rfl, ?_⟩, fun i hi => hc.frame hstep i (by omega), ?_⟩
      · intro i hi hi'
        by_cases hin : l ≤ i ∧ i ≤ r
        · exact hag' i hin.1 hin.2
        · rw [hc.frame hstep i (by omega), hc.frame hstep' i (by omega)]
          exact hag i hi hi'
      · intro f hmem
        rcases List.mem_cons.mp hmem with rfl | hmem
        · exact hf
        · exact hrest f hmem

/-! ## A thread and its range -/

/-- The range `lo .. hi` belongs to a thread with this stack: as far as the range goes, the array is
one in which the stack is to bring about `Q`. -/
structure Owns (lo hi : Int) (st : List (Frame code)) (Q : Arr → Prop) (a : Arr) : Prop where
  within : Within lo hi st
  will : ∃ g, Will st Q g ∧ AgreeOn a g lo hi

/-- A step of the thread itself. -/
theorem Owns.step (hc : code.Correct) (h0 : 0 ≤ lo) (h : Owns lo hi st Q a)
    (hs : taskStep st a = some (st', a')) : Owns lo hi st' Q a' := by
  obtain ⟨g, hwill, hag⟩ := h.will
  obtain ⟨⟨g', hs', hag'⟩, -, hwithin⟩ := taskStep_local hc h0 h.within hag hs
  exact ⟨hwithin, g', hwill.step hc h0 h.within hs', hag'⟩

/-- A step of another thread, outside the range. -/
theorem Owns.frame (h : Owns lo hi st Q a) (hag : AgreeOn a' a lo hi) : Owns lo hi st Q a' := by
  obtain ⟨g, hwill, hag'⟩ := h.will
  exact ⟨h.within, g, hwill, hag.trans hag'⟩

theorem Will.mono {Q' : Arr → Prop} (h : Will st Q a) (hQ : ∀ b, Q b → Q' b) : Will st Q' a := by
  induction st generalizing a with
  | nil => exact hQ a h
  | cons f rest ih =>
    cases f with
    | sort left right => exact fun b hb hsorted => ih (h b hb hsorted)
    | merge l m r => exact ⟨h.1, fun b hb hsorted => ih (h.2 b hb hsorted)⟩
    | merging l m r x =>
      obtain ⟨n, b, hreturns, hrest⟩ := h
      exact ⟨n, b, hreturns, ih hrest⟩

theorem Owns.mono {Q' : Arr → Prop} (h : Owns lo hi st Q a) (hQ : ∀ b, Q b → Q' b) :
    Owns lo hi st Q' a := by
  obtain ⟨g, hwill, hag⟩ := h.will
  exact ⟨h.within, g, hwill.mono hQ, hag⟩

/-- A `merge` that is about to be called gets two adjacent sorted ranges. -/
theorem Owns.merge {l m r : Int} (h : Owns lo hi (.merge l m r :: rest) Q a) :
    CanMerge a l m r := by
  obtain ⟨g, ⟨hmerge, -⟩, hag⟩ := h.will
  have hf := h.within (.merge l m r) List.mem_cons_self
  exact hmerge.congr (hag.symm.mono hf.1 hf.2)

/-! ## Termination -/

/-- An upper bound for the calls that are still to be made or to return. -/
def Frame.weight : Frame code → Nat
  | sort left right => 4 * (right - left).toNat + 1
  | merge _ _ _ => 2
  | merging _ _ _ _ => 1

def weight (st : List (Frame code)) : Nat := (st.map Frame.weight).sum

open Classical in
/-- The number of steps that `merge` takes before it returns. -/
noncomputable def stepsLeft (l m r : Int) (x : code.Local) (a : Arr) : Nat :=
  if h : ∃ n b, code.Returns l m r n x a b then Nat.find h else 0

/-- The number of steps that the `merge` under way, if there is one, still takes. -/
noncomputable def mergeLeft : List (Frame code) → Arr → Nat
  | .merging l m r x :: _, a => stepsLeft l m r x a
  | _, _ => 0

theorem stepsLeft_eq {l m r : Int} {x : code.Local} {n : Nat} {b : Arr}
    (h : code.Returns l m r n x a b) : stepsLeft l m r x a = n := by
  classical
  have hex : ∃ n b, code.Returns l m r n x a b := ⟨n, b, h⟩
  obtain ⟨b', hfound⟩ := Nat.find_spec hex
  rw [stepsLeft, dif_pos hex]
  exact returns_unique hfound h

/-- A `merge` under way returns. -/
theorem Owns.returns (hc : code.Correct) {l m r : Int} {x : code.Local}
    (h : Owns lo hi (.merging l m r x :: rest) Q a) : ∃ n b, code.Returns l m r n x a b := by
  obtain ⟨g, ⟨n, b, hreturns, -⟩, hag⟩ := h.will
  have hf := h.within (.merging l m r x) List.mem_cons_self
  obtain ⟨c, hreturns', -⟩ := hc.returns_congr hreturns (hag.symm.mono hf.1 hf.2)
  exact ⟨n, c, hreturns'⟩

/-- A step brings the thread nearer to its end. -/
theorem taskStep_decreases (hc : code.Correct) (h0 : 0 ≤ lo) (h : Owns lo hi st Q a)
    (hs : taskStep st a = some (st', a')) :
    weight st' < weight st ∨ weight st' = weight st ∧ mergeLeft st' a' < mergeLeft st a := by
  rcases st with _ | ⟨⟨left, right⟩ | ⟨l, m, r⟩ | ⟨l, m, r, x⟩, rest⟩
  · cases hs
  · left
    rw [taskStep] at hs
    by_cases hlt : left < right
    · rw [if_pos hlt] at hs
      cases hs
      have hlo := (h.within (.sort left right) List.mem_cons_self).1
      simp only [Frame.lo] at hlo
      obtain ⟨hleft, hright⟩ := middle_bounds (by omega) hlt
      simp only [weight, List.map_cons, List.sum_cons, Frame.weight]
      omega
    · rw [if_neg hlt] at hs
      cases hs
      simp only [weight, List.map_cons, List.sum_cons, Frame.weight]
      omega
  · cases hs
    left
    simp only [weight, List.map_cons, List.sum_cons, Frame.weight]
    omega
  · obtain ⟨n, b, hreturns⟩ := h.returns hc
    rw [taskStep] at hs
    cases hstep : code.step l m r x a with
    | none =>
      rw [hstep] at hs
      cases hs
      left
      simp only [weight, List.map_cons, List.sum_cons, Frame.weight]
      omega
    | some next =>
      rw [hstep] at hs
      cases hs
      right
      refine ⟨rfl, ?_⟩
      cases n with
      | zero =>
        rw [hreturns.1] at hstep
        cases hstep
      | succ n =>
        obtain ⟨y, a'', hsome, hrest⟩ := hreturns
        rw [hstep] at hsome
        cases hsome
        have hnow : stepsLeft l m r x a = n + 1 := stepsLeft_eq ⟨_, _, hstep, hrest⟩
        have hnext := stepsLeft_eq hrest
        simp only [mergeLeft]
        omega

/-- A step of another thread leaves it as far from its end as it was. -/
theorem mergeLeft_congr (hc : code.Correct) (h : Owns lo hi st Q a) (hag : AgreeOn a' a lo hi) :
    mergeLeft st a' = mergeLeft st a := by
  rcases st with _ | ⟨⟨left, right⟩ | ⟨l, m, r⟩ | ⟨l, m, r, x⟩, rest⟩
  · rfl
  · rfl
  · rfl
  · obtain ⟨n, b, hreturns⟩ := h.returns hc
    have hf := h.within (.merging l m r x) List.mem_cons_self
    obtain ⟨c, hreturns', -⟩ := hc.returns_congr hreturns (hag.symm.mono hf.1 hf.2)
    simp only [mergeLeft]
    rw [stepsLeft_eq hreturns, stepsLeft_eq hreturns']

end Step

/-! ## A merge that is as assumed -/

/-- The array with the values of the range in order. -/
def inOrder (a : Arr) (l r : Int) : Arr := fun i =>
  if l ≤ i ∧ i ≤ r then ((values a l r).insertionSort (· ≤ ·)).getD (i - l).toNat 0 else a i

/-- A `merge` that does its work in a single step. -/
def sortingMerge : MergeCode where
  Local := Bool
  start := false
  step l _ r done a := if done then none else some (true, inOrder a l r)

section SortingMerge

variable {a b : Arr} {l r : Int}

theorem values_length (a : Arr) (l r : Int) : (values a l r).length = (r + 1 - l).toNat := by
  simp [values]

theorem values_inOrder (a : Arr) (l r : Int) :
    values (inOrder a l r) l r = (values a l r).insertionSort (· ≤ ·) := by
  apply List.ext_getElem
  · rw [List.length_insertionSort, values_length, values_length]
  · intro i hi hi'
    rw [values_length] at hi
    have hindex : (l + (i : Int) - l).toNat = i := by omega
    have hrange : l ≤ l + (i : Int) ∧ l + (i : Int) ≤ r := by omega
    have hat : inOrder a l r (l + (i : Int)) = ((values a l r).insertionSort (· ≤ ·))[i] := by
      rw [inOrder, if_pos hrange, hindex, List.getD_eq_getElem?_getD,
        List.getElem?_eq_getElem hi', Option.getD_some]
    rw [← hat]
    simp [values]

theorem inOrder_sortedOn (a : Arr) (l r : Int) : SortedOn (inOrder a l r) l r := by
  have hsorted : (values (inOrder a l r) l r).Pairwise (· ≤ ·) := by
    rw [values_inOrder]
    exact List.pairwise_insertionSort _ _
  intro i j hi hij hj
  by_cases heq : i = j
  · rw [heq]
  · rw [values, List.pairwise_map, List.pairwise_iff_getElem] at hsorted
    have hle := hsorted (i - l).toNat (j - l).toNat (by simp; omega) (by simp; omega) (by omega)
    have hi' : l + ((i - l).toNat : Int) = i := by omega
    have hj' : l + ((j - l).toNat : Int) = j := by omega
    simpa only [List.getElem_range, hi', hj'] using hle

theorem sortingMerge_correct : sortingMerge.Correct where
  frame := by
    intro l m r x a y a' hstep i hi
    cases x <;> cases hstep
    exact if_neg (by omega)
  reads := by
    intro l m r x a b y a' hag hstep
    cases x <;> cases hstep
    refine ⟨inOrder b l r, rfl, fun i hi hi' => ?_⟩
    rw [inOrder, inOrder, if_pos ⟨hi, hi'⟩, if_pos ⟨hi, hi'⟩, values_congr hag]
  merges := by
    intro l m r a _ _ _ _
    refine ⟨1, inOrder a l r, ⟨true, inOrder a l r, rfl, rfl, rfl⟩, ?_, inOrder_sortedOn a l r⟩
    rw [values_inOrder]
    exact List.perm_insertionSort _ _

end SortingMerge

end CSE130.MergeSort
