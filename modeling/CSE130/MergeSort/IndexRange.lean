import CSE130.MergeSort.ThreadedSort
import Mathlib.Algebra.Ring.Int.Defs

/-!
# The range of the index arithmetic

The `int` expressions of `singleThreadedMergeSort`, `multiThreadedMergeSort` and its helper threads
(`Assignment2/sort.c`); `singleProcessMergeSort` (`Assignment1/psort.c`) is the first of these. The
steps of the model compute with exact numbers. They are those of the code as long as all values fit,
so that the code comes to a first value that does not fit just where the model does.
-/

namespace CSE130.MergeSort

open Library

variable {code : MergeCode}

/-- The value is one of an `int`. -/
def FitsInt (x : Int) : Prop := -2 ^ 31 ≤ x ∧ x < 2 ^ 31

/-- `(left + right) / 2`, where the sum wraps around. -/
def wrappedMiddle (left right : Int) : Int := ((left + right).bmod (2 ^ 32)).tdiv 2

/-- The sum and the middle index that are made of the ends of a range (`sort.c:25`, `sort.c:38`) fit,
and the index lies between the ends. -/
structure MiddleFits (left right : Int) : Prop where
  sum : FitsInt (left + right)
  middle : FitsInt ((left + right).tdiv 2)
  inside : left ≤ wrappedMiddle left right ∧ wrappedMiddle left right ≤ right

/-- What the next step of a call evaluates fits (`sort.c:24-27`). -/
def Frame.Fits : Frame code → Prop
  | .sort left right =>
    left < right → MiddleFits left right ∧ FitsInt ((left + right).tdiv 2 + 1)
  | .merge _ _ _ | .merging _ _ _ _ => True

/-- What the next step of a stack of calls evaluates fits. -/
def StackFits : List (Frame code) → Prop
  | [] => True
  | f :: _ => f.Fits

/-- What a helper thread evaluates when it starts fits (`sort.c:35-46`). -/
def Routine.Fits (v : SortStruct) : Routine → Prop
  | test => True
  | test2 => MiddleFits v.left v.right

/-- The expressions in the body of `multiThreadedMergeSort` (`sort.c:50-72`). -/
def bodyExprs (left right : Int) : List Int :=
  if right - left ≤ 4 then [right - left]
  else
    let baseNum := (right - left).tdiv 4
    [right - left, baseNum] ++
      [0, 1, 2].flatMap (fun i =>
        [i * baseNum, left + i * baseNum, left + i * baseNum + i, i + 1, (i + 1) * baseNum,
          left + (i + 1) * baseNum, left + (i + 1) * baseNum + i]) ++
      [3 * baseNum, left + 3 * baseNum, left + 3 * baseNum + 3, 2 * baseNum, left + 2 * baseNum,
        left + 2 * baseNum + 1, baseNum * 2, left + baseNum * 2, left + baseNum * 2 + 2,
        baseNum * 3, left + baseNum * 3, left + baseNum * 3 + 2]

/-- What the thread evaluates in its next step fits. The body of `multiThreadedMergeSort` is left to
`bodyExprs`. -/
def State.Fits (s : State code) : Actor → Prop
  | .main => StackFits s.stack
  | .helper i =>
    match s.helper i with
    | .absent => True
    | .created fn => fn.Fits (s.structs i)
    | .running st => StackFits st

/-- A step of a thread that is alone. -/
def aloneStep (x : List (Frame code) × Arr) (_ : Unit) : Except NoStep (List (Frame code) × Arr) :=
  match taskStep x.1 x.2 with
  | some y => .ok y
  | none => .error .ended

/-- From one stack and array a thread that is alone comes to another. -/
abbrev Alone : List (Frame code) × Arr → List (Frame code) × Arr → Prop :=
  Reachable aloneStep (fun _ _ => True)

/-- All that a call of `singleThreadedMergeSort` evaluates fits. -/
def SingleFits (code : MergeCode) (arr : Arr) (left right : Int) : Prop :=
  ∀ x : List (Frame code) × Arr, Alone ([.sort left right], arr) x → StackFits x.1

/-- All that a call of `multiThreadedMergeSort` evaluates fits, in every order of steps of its
threads. -/
def MultiFits (code : MergeCode) (arr : Arr) (left right : Int) : Prop :=
  (∀ x ∈ bodyExprs left right, FitsInt x) ∧
    ∀ s, SortReachable code arr left right s → ∀ t, s.Fits t

/-! ## Ranges that are small enough -/

/-- A call for this range evaluates nothing that does not fit. -/
def SmallRange (left right : Int) : Prop := 0 ≤ left ∧ (right ≤ left ∨ right ≤ 2 ^ 30)

/-- What a helper thread needs of its argument. -/
def SortStruct.Small (v : SortStruct) : Prop :=
  0 ≤ v.left ∧ v.left ≤ v.right ∧ v.right ≤ 2 ^ 30 ∧ v.left + v.right < 2 ^ 31
  deriving Decidable

def Frame.Small : Frame code → Prop
  | .sort left right => SmallRange left right
  | .merge _ _ _ | .merging _ _ _ _ => True

def Instr.Small : Instr → Prop
  | .setStruct _ v => v.Small
  | .sort left right => SmallRange left right
  | .create _ _ | .merge _ _ _ | .join _ => True

def Helper.Small : Helper code → Prop
  | .running st => ∀ f ∈ st, f.Small
  | .absent | .created _ => True

/-- The threads work on small ranges only. -/
structure State.Small (s : State code) : Prop where
  stack : ∀ f ∈ s.stack, f.Small
  prog : ∀ instr ∈ s.prog, instr.Small
  structs : ∀ i, (s.structs i).Small
  helpers : ∀ i, (s.helper i).Small

section Small

variable {left right : Int} {st st' : List (Frame code)} {a a' : Arr} {s s' : State code}
  {v : SortStruct} {fn : Routine}

theorem middleFits_of_le (h0 : 0 ≤ left) (hle : left ≤ right) (hsum : left + right < 2 ^ 31) :
    MiddleFits left right := by
  have hmiddle : (left + right).tdiv 2 = (left + right) / 2 :=
    Int.tdiv_eq_ediv_of_nonneg (by omega)
  have hwrapped : wrappedMiddle left right = (left + right) / 2 := by
    have hbmod : (left + right).bmod (2 ^ 32) = left + right := by
      apply Int.bmod_eq_of_le <;> omega
    rw [wrappedMiddle, hbmod, hmiddle]
  refine ⟨⟨by omega, hsum⟩, ?_, ?_⟩
  · rw [hmiddle]
    constructor <;> omega
  · rw [hwrapped]
    omega

theorem Frame.Small.fits {f : Frame code} (h : f.Small) : f.Fits := by
  cases f with
  | sort left right =>
    intro hlt
    obtain ⟨h0, hsmall⟩ := h
    refine ⟨middleFits_of_le h0 (by omega) (by omega), ?_⟩
    rw [Int.tdiv_eq_ediv_of_nonneg (by omega)]
    constructor <;> omega
  | merge l m r => trivial
  | merging l m r x => trivial

theorem stackFits_of_small (h : ∀ f ∈ st, f.Small) : StackFits st := by
  cases st with
  | nil => trivial
  | cons f rest => exact (h f List.mem_cons_self).fits

theorem SortStruct.Small.fits (h : v.Small) (fn : Routine) : fn.Fits v := by
  cases fn with
  | test => trivial
  | test2 => exact middleFits_of_le h.1 h.2.1 h.2.2.2

theorem SortStruct.Small.body (h : v.Small) : ∀ f ∈ (fn.body v : List (Frame code)), f.Small := by
  intro f hf
  cases fn <;> cases List.mem_singleton.mp hf
  · exact ⟨h.1, Or.inr h.2.2.1⟩
  · trivial

/-- The two halves of a small range are small. -/
theorem taskStep_small (h : ∀ f ∈ st, f.Small) (hs : taskStep st a = some (st', a')) :
    ∀ f ∈ st', f.Small := by
  rcases st with _ | ⟨⟨left, right⟩ | ⟨l, m, r⟩ | ⟨l, m, r, x⟩, rest⟩
  · cases hs
  · obtain ⟨h0, hsmall⟩ := h _ List.mem_cons_self
    have hrest : ∀ f ∈ rest, f.Small := fun f hf => h f (List.mem_cons_of_mem _ hf)
    rw [taskStep] at hs
    split_ifs at hs with hlt
    · cases hs
      obtain ⟨hleft, hright⟩ := middle_bounds h0 hlt
      intro f hf
      simp only [List.mem_cons] at hf
      rcases hf with rfl | rfl | rfl | hf
      · exact ⟨h0, by omega⟩
      · exact ⟨by omega, by omega⟩
      · trivial
      · exact hrest f hf
    · cases hs
      exact hrest
  · cases hs
    intro f hf
    rcases List.mem_cons.mp hf with rfl | hf
    · trivial
    · exact h f (List.mem_cons_of_mem _ hf)
  · rw [taskStep] at hs
    split at hs
    · cases hs
      intro f hf
      rcases List.mem_cons.mp hf with rfl | hf
      · trivial
      · exact h f (List.mem_cons_of_mem _ hf)
    · cases hs
      exact fun f hf => h f (List.mem_cons_of_mem _ hf)

theorem State.Small.fits (h : s.Small) (t : Actor) : s.Fits t := by
  cases t with
  | main => exact stackFits_of_small h.stack
  | helper i =>
    have hsmall := h.helpers i
    rw [State.Fits]
    cases hhelper : s.helper i with
    | absent => trivial
    | created fn => exact (h.structs i).fits fn
    | running st =>
      rw [hhelper] at hsmall
      exact stackFits_of_small hsmall

theorem small_update {h : Fin 3 → Helper code} (hh : ∀ i, (h i).Small) (new : Helper code)
    (hnew : new.Small) (i : Fin 3) : ∀ j, (Function.update h i new j).Small :=
  (Function.forall_update_iff h fun _ x => x.Small).mpr ⟨hnew, fun j _ => hh j⟩

theorem State.Small.instrStep (h : s.Small) (hs : s.instrStep = .ok s') : s'.Small := by
  have hprog := h.prog
  rw [State.instrStep] at hs
  cases hp : s.prog with
  | nil =>
    rw [hp] at hs
    cases hs
  | cons instr prog =>
    rw [hp] at hs hprog
    have hinstr := hprog instr List.mem_cons_self
    have hrest : ∀ instr ∈ prog, instr.Small := fun _ hi => hprog _ (List.mem_cons_of_mem _ hi)
    cases instr with
    | setStruct i v =>
      cases hs
      exact ⟨h.stack, hrest, (Function.forall_update_iff s.structs fun _ x => x.Small).mpr
        ⟨hinstr, fun j _ => h.structs j⟩, h.helpers⟩
    | create i fn =>
      cases hs
      exact ⟨h.stack, hrest, h.structs, small_update h.helpers (.created fn) trivial i⟩
    | sort left right =>
      cases hs
      refine ⟨?_, hrest, h.structs, h.helpers⟩
      intro f hf
      cases List.mem_singleton.mp hf
      exact hinstr
    | merge l m r =>
      cases hs
      refine ⟨?_, hrest, h.structs, h.helpers⟩
      intro f hf
      cases List.mem_singleton.mp hf
      trivial
    | join i =>
      dsimp only at hs
      split at hs
      · cases hs
        exact ⟨h.stack, hrest, h.structs, h.helpers⟩
      · cases hs

theorem State.Small.step (h : s.Small) {t : Actor} (hs : s.step t = .ok s') : s'.Small := by
  cases t with
  | main =>
    rw [State.step] at hs
    split at hs
    · rename_i st arr htask
      cases hs
      exact ⟨taskStep_small h.stack htask, h.prog, h.structs, h.helpers⟩
    · exact h.instrStep hs
  | helper i =>
    have hhelper := h.helpers i
    rw [State.step] at hs
    cases hi : s.helper i with
    | absent =>
      rw [hi] at hs
      cases hs
    | created fn =>
      rw [hi] at hs
      cases hs
      exact ⟨h.stack, h.prog, h.structs, small_update h.helpers (.running _) (h.structs i).body i⟩
    | running st =>
      rw [hi] at hs hhelper
      dsimp only at hs
      split at hs
      · rename_i st' arr htask
        cases hs
        exact ⟨h.stack, h.prog, h.structs,
          small_update h.helpers (.running st') (taskStep_small hhelper htask) i⟩
      · cases hs

/-- The ranges for which `multiThreadedMergeSort` evaluates nothing that does not fit. The last range
is sorted by the calling thread, and may have a single element. -/
def MultiSmall (left right : Int) : Prop :=
  left = right ∨ right ≤ 2 ^ 30 ∨
    right = 2 ^ 30 + 1 ∧ (right - left = 6 ∨ right - left = 9 ∨ right - left = 12)

theorem instr_small (h0 : 0 ≤ left) (hle : left ≤ right) (h : MultiSmall left right) :
    ∀ instr ∈ multiThreadedMergeSort left right, instr.Small := by
  rw [MultiSmall] at h
  by_cases hlarge : 4 < right - left
  · obtain ⟨q, hq⟩ : ∃ q, (right - left) / 4 = q := ⟨_, rfl⟩
    rw [multiThreadedMergeSort_eq hlarge hq]
    simp only [List.forall_mem_cons, Instr.Small, SortStruct.Small, SmallRange, List.not_mem_nil,
      IsEmpty.forall_iff, implies_true, true_and, and_true]
    refine ⟨?_, ?_, ?_, ?_, ?_⟩ <;> omega
  · rw [multiThreadedMergeSort, if_pos (by omega)]
    intro instr hi
    cases List.mem_singleton.mp hi
    exact ⟨h0, by omega⟩

theorem bodyExprs_fit (h0 : 0 ≤ left) (hle : left ≤ right) (h : MultiSmall left right)
    (hmax : right < 2 ^ 31) : ∀ x ∈ bodyExprs left right, FitsInt x := by
  rw [MultiSmall] at h
  rw [bodyExprs]
  split_ifs with hsmall
  · intro x hx
    cases List.mem_singleton.mp hx
    constructor <;> omega
  · obtain ⟨q, hq⟩ : ∃ q, (right - left).tdiv 4 = q := ⟨_, rfl⟩
    have hdiv : (right - left) / 4 = q := by
      rw [← hq, Int.tdiv_eq_ediv_of_nonneg (by omega)]
    simp only [hq, List.flatMap_cons, List.flatMap_nil, List.append_nil, List.cons_append,
      List.nil_append, List.forall_mem_cons, FitsInt, List.not_mem_nil, IsEmpty.forall_iff,
      implies_true, and_true]
    omega

theorem multiFits_of_small (h0 : 0 ≤ left) (hle : left ≤ right) (hmax : right < 2 ^ 31)
    (h : MultiSmall left right) (arr : Arr) : MultiFits code arr left right := by
  refine ⟨bodyExprs_fit h0 hle h hmax, fun s hr t => ?_⟩
  have hstart : (State.start code arr left right).Small := by
    refine ⟨fun f hf => ?_, instr_small h0 hle h, fun _ => ?_, fun _ => trivial⟩
    · cases hf
    · exact (by decide : SortStruct.Small ⟨0, 0⟩)
  exact (Reachable.invariant hstart (fun _ _ _ _ h _ hs => State.Small.step h hs) s hr).fits t

theorem singleFits_of_small (h : SmallRange left right) (arr : Arr) :
    SingleFits code arr left right := by
  intro x hr
  have hsmall : ∀ f ∈ x.1, f.Small := by
    induction hr with
    | start =>
      intro f hf
      cases List.mem_singleton.mp hf
      exact h
    | step _ _ hs ih =>
      rw [aloneStep] at hs
      split at hs
      · rename_i htask
        cases hs
        exact taskStep_small ih htask
      · cases hs
  exact stackFits_of_small hsmall

end Small

/-! ## Ranges that are not -/

section Large

variable {left right l m r : Int} {st st' rest : List (Frame code)} {a b arr : Arr}
  {x : code.Local} {n : Nat} {s : State code} {i : Fin 3}

theorem alone_of_taskStep {y : List (Frame code) × Arr} (h : taskStep st a = some y) :
    Alone (st, a) y :=
  .step .start trivial (by rw [aloneStep, h] : aloneStep (st, a) () = .ok y)

theorem alone_merging (h : code.Returns l m r n x a b) :
    Alone (.merging l m r x :: rest, a) (rest, b) := by
  induction n generalizing x a with
  | zero =>
    obtain ⟨hnone, rfl⟩ := h
    exact alone_of_taskStep (by rw [taskStep, hnone])
  | succ n ih =>
    obtain ⟨y, a', hstep, hrest⟩ := h
    exact (alone_of_taskStep (by rw [taskStep, hstep])).trans (ih hrest)

theorem alone_split (h : left < right) : Alone (.sort left right :: rest, a)
    (.sort left ((left + right).tdiv 2) :: .sort ((left + right).tdiv 2 + 1) right ::
      .merge left ((left + right).tdiv 2) right :: rest, a) :=
  alone_of_taskStep (by rw [taskStep, if_pos h])

/-- A thread that is alone sorts its range. -/
theorem alone_sort (hc : code.Correct) (h0 : 0 ≤ left) (a : Arr) (rest : List (Frame code)) :
    ∃ b, Alone (.sort left right :: rest, a) (rest, b) ∧ Rearranges a b left right ∧
      SortedOn b left right := by
  generalize hn : (right - left).toNat = n
  induction n using Nat.strong_induction_on generalizing left right a rest with
  | _ n ih =>
    by_cases hlt : left < right
    swap
    · exact ⟨a, alone_of_taskStep (by rw [taskStep, if_neg hlt]), .refl a left right,
        sortedOn_of_le (by omega)⟩
    obtain ⟨hleft, hright⟩ := middle_bounds h0 hlt
    have hsplit := @alone_split code left right rest a hlt
    generalize (left + right).tdiv 2 = middle at hleft hright hsplit
    obtain ⟨b, hb, hab, hbsorted⟩ := ih (middle - left).toNat (by omega) h0 a
      (.sort (middle + 1) right :: .merge left middle right :: rest) rfl
    obtain ⟨c, hcr, hbc, hcsorted⟩ := ih (right - (middle + 1)).toNat (by omega) (by omega) b
      (.merge left middle right :: rest) rfl
    have hcleft : SortedOn c left middle := hbsorted.congr (hbc.agreeOn (Or.inl (by omega))).symm
    obtain ⟨k, d, hreturns, hperm, hdsorted⟩ := hc.merges c hleft (by omega) hcleft hcsorted
    have hmerge : Alone (.merge left middle right :: rest, c) (rest, d) :=
      (alone_of_taskStep rfl).trans (alone_merging hreturns)
    refine ⟨d, ((hsplit.trans hb).trans hcr).trans hmerge, ?_, hdsorted⟩
    exact ((hab.mono (Int.le_refl _) (by omega)).trans (hbc.mono (by omega) (Int.le_refl _))).trans
      ⟨hperm, hc.returns_frame hreturns⟩

/-- Down the right halves of its ranges, a thread that is alone comes to a sum that does not fit. -/
theorem alone_overflows (hc : code.Correct) (h0 : 0 ≤ left) (hlt : left < right)
    (hlarge : 2 ^ 30 < right) (a : Arr) (rest : List (Frame code)) :
    ∃ l rest' b, Alone (.sort left right :: rest, a) (.sort l right :: rest', b) ∧ l < right ∧
      2 ^ 31 ≤ l + right := by
  generalize hn : (right - left).toNat = n
  induction n using Nat.strong_induction_on generalizing left a rest with
  | _ n ih =>
    by_cases hsum : 2 ^ 31 ≤ left + right
    · exact ⟨left, rest, a, .start, hlt, hsum⟩
    have hmiddle : (left + right).tdiv 2 = (left + right) / 2 :=
      Int.tdiv_eq_ediv_of_nonneg (by omega)
    have hsplit := @alone_split code left right rest a hlt
    rw [hmiddle] at hsplit
    obtain ⟨b, hb, -, -⟩ := @alone_sort _ left ((left + right) / 2) hc h0 a
      (.sort ((left + right) / 2 + 1) right :: .merge left ((left + right) / 2) right :: rest)
    obtain ⟨l, rest', c, hcr, hl, hfar⟩ := @ih _ (by omega) ((left + right) / 2 + 1) (by omega)
      (by omega) b (.merge left ((left + right) / 2) right :: rest) rfl
    exact ⟨l, rest', c, (hsplit.trans hb).trans hcr, hl, hfar⟩

theorem not_stackFits (hlt : l < right) (hsum : 2 ^ 31 ≤ l + right) :
    ¬ StackFits (.sort l right :: rest : List (Frame code)) := by
  intro h
  have hfits := (h hlt).1.sum.2
  omega

theorem singleFits_iff (hc : code.Correct) (h0 : 0 ≤ left) (hle : left ≤ right) (arr : Arr) :
    SingleFits code arr left right ↔ left = right ∨ right ≤ 2 ^ 30 := by
  constructor
  · intro h
    by_contra hnot
    obtain ⟨l, rest, b, hr, hl, hsum⟩ :=
      alone_overflows hc h0 (by omega : left < right) (by omega) arr []
    exact not_stackFits hl hsum (h _ hr)
  · intro h
    exact singleFits_of_small ⟨h0, by omega⟩ arr

/-- What a thread does when it is alone, the calling thread can do. -/
theorem reachable_main {s₀ : State code} {y : List (Frame code) × Arr}
    (hr : Reachable State.step (fun _ _ => True) s₀ s) (h : Alone (s.stack, s.arr) y) :
    Reachable State.step (fun _ _ => True) s₀ { s with stack := y.1, arr := y.2 } := by
  induction h with
  | start => exact hr
  | @step y _ z _ _ hs ih =>
    refine ih.step trivial (e := .main) ?_
    rw [aloneStep] at hs
    split at hs
    · rename_i htask
      cases hs
      exact State.step_main_task htask
    · cases hs

/-- The same of a helper thread. -/
theorem reachable_helper {s₀ : State code} {y : List (Frame code) × Arr}
    (hr : Reachable State.step (fun _ _ => True) s₀ s) (hi : s.helper i = .running st)
    (h : Alone (st, s.arr) y) :
    Reachable State.step (fun _ _ => True) s₀
      { s with helper := Function.update s.helper i (.running y.1), arr := y.2 } := by
  induction h with
  | start =>
    have hsame : Function.update s.helper i (.running st) = s.helper := by
      rw [← hi, Function.update_eq_self]
    rw [hsame]
    exact hr
  | @step y _ z _ _ hs ih =>
    refine ih.step trivial (e := .helper i) ?_
    rw [aloneStep] at hs
    split at hs
    · rename_i htask
      cases hs
      rw [State.step_running (Function.update_self _ _ _) htask, Function.update_idem]
    · cases hs

/-- The calling thread goes on to its own part of a range that is shared. -/
theorem reachable_shared {q : Int} (hlarge : 4 < right - left) (hq : (right - left) / 4 = q)
    (arr : Arr) : ∃ s prog, SortReachable code arr left right s ∧ s.stack = [] ∧
      s.prog = .sort (left + 3 * q + 3) right :: prog ∧ s.helper 2 = .created .test ∧
      s.structs 2 = ⟨left + 2 * q + 2, left + 3 * q + 2⟩ := by
  have hstart : State.start code arr left right = { State.start code arr left right with
      prog := multiThreadedMergeSort left right } := rfl
  rw [multiThreadedMergeSort_eq hlarge hq] at hstart
  have h₀ : SortReachable code arr left right (State.start code arr left right) := .start
  rw [hstart] at h₀
  have h₁ := h₀.step trivial (e := .main) rfl
  have h₂ := h₁.step trivial (e := .main) rfl
  have h₃ := h₂.step trivial (e := .main) rfl
  have h₄ := h₃.step trivial (e := .main) rfl
  have h₅ := h₄.step trivial (e := .main) rfl
  have h₆ := h₅.step trivial (e := .main) rfl
  exact ⟨_, _, h₆, rfl, rfl, rfl, rfl⟩

/-- A range of the calling thread. -/
theorem not_fits_of_sort {prog : List Instr} (hc : code.Correct)
    (hr : SortReachable code arr left right s) (hstack : s.stack = [])
    (hprog : s.prog = .sort l r :: prog) (h0 : 0 ≤ l) (hlt : l < r) (hlarge : 2 ^ 30 < r) :
    ∃ s' t, SortReachable code arr left right s' ∧ ¬ s'.Fits t := by
  have hbegin : s.step .main = .ok { s with stack := [.sort l r], prog := prog } := by
    rw [State.step_main_instr (by rw [hstack]; rfl), State.instrStep, hprog]
  obtain ⟨l', rest, b, halone, hl, hsum⟩ := alone_overflows hc h0 hlt hlarge s.arr []
  have hfits : ¬ StackFits (.sort l' r :: rest) := not_stackFits hl hsum
  exact ⟨_, .main, reachable_main (hr.step trivial hbegin) halone, hfits⟩

/-- A range of a helper thread. -/
theorem not_fits_of_created (hc : code.Correct) (hr : SortReachable code arr left right s)
    (hi : s.helper i = .created .test) (hv : s.structs i = ⟨l, r⟩) (h0 : 0 ≤ l) (hlt : l < r)
    (hlarge : 2 ^ 30 < r) : ∃ s' t, SortReachable code arr left right s' ∧ ¬ s'.Fits t := by
  have hbegin := State.step_created hi
  rw [hv] at hbegin
  obtain ⟨l', rest, b, halone, hl, hsum⟩ := alone_overflows hc h0 hlt hlarge s.arr []
  have hr' := reachable_helper (hr.step trivial hbegin) (Function.update_self _ _ _) halone
  refine ⟨_, .helper i, hr', ?_⟩
  rw [State.Fits]
  simp only [Function.update_self]
  exact not_stackFits hl hsum

theorem multiFits_iff (hc : code.Correct) (h0 : 0 ≤ left) (hle : left ≤ right)
    (hmax : right < 2 ^ 31) (arr : Arr) :
    MultiFits code arr left right ↔ MultiSmall left right := by
  refine ⟨fun h => ?_, fun h => multiFits_of_small h0 hle hmax h arr⟩
  by_contra hnot
  rw [MultiSmall] at hnot
  have hbad : ∃ s t, SortReachable code arr left right s ∧ ¬ s.Fits t := by
    by_cases hlarge : 4 < right - left
    · obtain ⟨q, hq⟩ : ∃ q, (right - left) / 4 = q := ⟨_, rfl⟩
      obtain ⟨s, prog, hr, hstack, hprog, hhelper, hv⟩ :=
        @reachable_shared code left right q hlarge hq arr
      by_cases hthird : 2 ^ 30 < left + 3 * q + 2
      · exact not_fits_of_created hc hr hhelper hv (by omega) (by omega) hthird
      · -- the last range would have at most one element only where `MultiSmall` says so
        exact not_fits_of_sort hc hr hstack hprog (by omega) (by omega) (by omega)
    · have hprog : (State.start code arr left right).prog = [.sort left right] :=
        if_pos (by omega)
      exact not_fits_of_sort hc .start rfl hprog h0 (by omega) (by omega)
  obtain ⟨s, t, hr, hfits⟩ := hbad
  exact hfits (h.2 s hr t)

end Large

/-- The index arithmetic of the two sorts stays within the range of `int` just where the range has one
element or ends at `2 ^ 30` at the latest. With helper threads the last range of a call may have a
single element, so that a range of 7, 10 or 13 elements may end one place later. -/
theorem index_arithmetic_fits_iff (hc : code.Correct) (arr : Arr) {left right : Int}
    (h0 : 0 ≤ left) (hle : left ≤ right) (hmax : right < 2 ^ 31) :
    (SingleFits code arr left right ∧ MultiFits code arr left right ↔
      left = right ∨ right ≤ 2 ^ 30) ∧
    (MultiFits code arr left right ↔ MultiSmall left right) := by
  refine ⟨?_, multiFits_iff hc h0 hle hmax arr⟩
  rw [singleFits_iff hc h0 hle, multiFits_iff hc h0 hle hmax, MultiSmall]
  omega

theorem index_arithmetic_fits_six :
    SingleFits sortingMerge (fun i => -i) 0 5 ∧ MultiFits sortingMerge (fun i => -i) 0 5 :=
  (index_arithmetic_fits_iff sortingMerge_correct (fun i => -i) (Int.le_refl 0)
    (by decide : (0 : Int) ≤ 5) (by decide)).1.mpr (Or.inr (by decide))

/-- Two elements are enough. -/
theorem index_arithmetic_overflows :
    ¬ (SingleFits sortingMerge (fun i => -i) (2 ^ 30) (2 ^ 30 + 1) ∧
      MultiFits sortingMerge (fun i => -i) (2 ^ 30) (2 ^ 30 + 1)) := by
  intro h
  exact absurd (h.1 _ .start) (not_stackFits (by decide) (by decide))

end CSE130.MergeSort
