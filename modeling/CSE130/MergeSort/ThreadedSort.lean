import CSE130.MergeSort.Threads
import Mathlib.Algebra.BigOperators.Group.Finset.Basic
import Mathlib.Data.Fintype.Basic

/-!
# The threads sort

The calling thread lends a range to each helper thread when it creates it, and gets it back when it
joins it. `Plan` says of the instructions that are left that they sort the array in this way,
whatever the helpers make of their ranges as long as they sort them.
-/

namespace CSE130.MergeSort

open Library

/-- The ranges that are lent to the helper threads. -/
abbrev Lent := Fin 3 → Option SortStruct

/-- The range has no index in common with one that is lent. -/
def Apart (lent : Lent) (l r : Int) : Prop := ∀ i v, lent i = some v → v.right < l ∨ r < v.left

/-- The range is inside `left .. right` and not lent. -/
def Free (left right : Int) (lent : Lent) (l r : Int) : Prop :=
  left ≤ l ∧ r ≤ right ∧ Apart lent l r

/-- What a helper thread needs when it starts. -/
def Routine.Pre (v : SortStruct) (g : Arr) : Routine → Prop
  | test => True
  | test2 => CanMerge g v.left ((v.left + v.right).tdiv 2) v.right

/-- The instructions bring the array from `g` to one that is `a₀` with `left .. right` sorted. -/
def Plan (left right : Int) (a₀ : Arr) : List Instr → Lent → (Fin 3 → SortStruct) → Arr → Prop
  | [], lent, _, g => (∀ i, lent i = none) ∧ Rearranges a₀ g left right ∧ SortedOn g left right
  | .setStruct i v :: prog, lent, structs, g =>
    lent i = none ∧ Plan left right a₀ prog lent (Function.update structs i v) g
  | .create i fn :: prog, lent, structs, g =>
    lent i = none ∧ Free left right lent (structs i).left (structs i).right ∧
      fn.Pre (structs i) g ∧
      Plan left right a₀ prog (Function.update lent i (some (structs i))) structs g
  | .sort l r :: prog, lent, structs, g =>
    Free left right lent l r ∧
      ∀ b, Rearranges g b l r → SortedOn b l r → Plan left right a₀ prog lent structs b
  | .merge l m r :: prog, lent, structs, g =>
    Free left right lent l r ∧ CanMerge g l m r ∧
      ∀ b, Rearranges g b l r → SortedOn b l r → Plan left right a₀ prog lent structs b
  | .join i :: prog, lent, structs, g =>
    ∃ v, lent i = some v ∧ ∀ b, Rearranges g b v.left v.right → SortedOn b v.left v.right →
      Plan left right a₀ prog (Function.update lent i none) structs b

/-- What a helper thread brings about. -/
def Promise (g : Arr) (v : SortStruct) (b : Arr) : Prop :=
  (values b v.left v.right).Perm (values g v.left v.right) ∧ SortedOn b v.left v.right

theorem Promise.congr {g g' b : Arr} {v : SortStruct} (h : Promise g v b)
    (hag : AgreeOn g g' v.left v.right) : Promise g' v b :=
  ⟨values_congr hag ▸ h.1, h.2⟩

theorem Routine.Pre.congr {g g' : Arr} {v : SortStruct} {fn : Routine} (h : fn.Pre v g)
    (hag : AgreeOn g g' v.left v.right) : fn.Pre v g' := by
  cases fn with
  | test => trivial
  | test2 => exact CanMerge.congr h hag

/-! ## The plan of `multiThreadedMergeSort` -/

/-- A value for each helper thread. -/
def triple {β : Type} (x y z : β) : Fin 3 → β
  | 0 => x
  | 1 => y
  | 2 => z

section Triple

variable {β : Type} {x y z w : β} {P : Fin 3 → Prop}

theorem forall_fin3 : (∀ i, P i) ↔ P 0 ∧ P 1 ∧ P 2 := by
  constructor
  · exact fun h => ⟨h 0, h 1, h 2⟩
  · rintro ⟨h0, h1, h2⟩ ⟨_ | _ | _ | i, hi⟩
    · exact h0
    · exact h1
    · exact h2
    · omega

theorem triple_zero : triple x y z 0 = x := rfl
theorem triple_one : triple x y z 1 = y := rfl
theorem triple_two : triple x y z 2 = z := rfl

theorem update_triple_zero : Function.update (triple x y z) 0 w = triple w y z :=
  funext (forall_fin3.mpr ⟨rfl, rfl, rfl⟩)

theorem update_triple_one : Function.update (triple x y z) 1 w = triple x w z :=
  funext (forall_fin3.mpr ⟨rfl, rfl, rfl⟩)

theorem update_triple_two : Function.update (triple x y z) 2 w = triple x y w :=
  funext (forall_fin3.mpr ⟨rfl, rfl, rfl⟩)

end Triple

theorem apart_triple {x y z : Option SortStruct} {l r : Int} : Apart (triple x y z) l r ↔
    (∀ v, x = some v → v.right < l ∨ r < v.left) ∧
      (∀ v, y = some v → v.right < l ∨ r < v.left) ∧
      ∀ v, z = some v → v.right < l ∨ r < v.left :=
  forall_fin3

/-- The instructions for a range that is too long for one thread; `q` is `base_num`. -/
theorem multiThreadedMergeSort_eq {left right q : Int} (hlarge : 4 < right - left)
    (hq : (right - left) / 4 = q) :
    multiThreadedMergeSort left right =
      [.setStruct 0 ⟨left, left + q⟩, .create 0 .test,
        .setStruct 1 ⟨left + q + 1, left + 2 * q + 1⟩, .create 1 .test,
        .setStruct 2 ⟨left + 2 * q + 2, left + 3 * q + 2⟩, .create 2 .test,
        .sort (left + 3 * q + 3) right, .join 0, .join 1, .join 2,
        .setStruct 0 ⟨left, left + 2 * q + 1⟩, .create 0 .test2,
        .merge (left + 2 * q + 2) (left + 3 * q + 2) right, .join 0,
        .merge left (left + 2 * q + 1) right] := by
  have hbase : (right - left).tdiv 4 = q := by
    rw [Int.tdiv_eq_ediv_of_nonneg (by omega), hq]
  have hzero : ((0 : Fin 3) : Int) = 0 := rfl
  have hone : ((1 : Fin 3) : Int) = 1 := rfl
  have htwo : ((2 : Fin 3) : Int) = 2 := rfl
  have e0 : left + 0 * q + 0 = left := by omega
  have e1 : left + (0 + 1) * q + 0 = left + q := by omega
  have e2 : left + 1 * q + 1 = left + q + 1 := by omega
  have e3 : left + (1 + 1) * q + 1 = left + 2 * q + 1 := by omega
  have e4 : left + (2 + 1) * q + 2 = left + 3 * q + 2 := by omega
  have e5 : left + q * 2 + 2 = left + 2 * q + 2 := by omega
  have e6 : left + q * 3 + 2 = left + 3 * q + 2 := by omega
  rw [multiThreadedMergeSort, if_neg (by omega)]
  simp only [hbase, hzero, hone, htwo, e0, e1, e2, e3, e4, e5, e6, List.cons_append,
    List.nil_append]

/-- The four ranges: the quarters are sorted, then merged in pairs, then as a whole. -/
theorem plan_multiThreadedMergeSort (a₀ : Arr) {left right : Int} (h0 : 0 ≤ left) :
    Plan left right a₀ (multiThreadedMergeSort left right) (fun _ => none)
      (fun _ => { left := 0, right := 0 }) a₀ := by
  by_cases hsmall : right - left ≤ 4
  · rw [multiThreadedMergeSort, if_pos hsmall]
    refine ⟨⟨Int.le_refl _, Int.le_refl _, fun i v h => by cases h⟩, ?_⟩
    exact fun b hb hsorted => ⟨fun _ => rfl, hb, hsorted⟩
  · generalize hq : (right - left) / 4 = q
    have hnone : (fun _ => none : Lent) = triple none none none :=
      funext (forall_fin3.mpr ⟨rfl, rfl, rfl⟩)
    have hzero : (fun _ => { left := 0, right := 0 } : Fin 3 → SortStruct) =
        triple { left := 0, right := 0 } { left := 0, right := 0 } { left := 0, right := 0 } :=
      funext (forall_fin3.mpr ⟨rfl, rfl, rfl⟩)
    rw [multiThreadedMergeSort_eq (by omega) hq, hnone, hzero]
    simp only [Plan, update_triple_zero, update_triple_one, update_triple_two, triple_zero,
      triple_one, triple_two, Free, apart_triple, Routine.Pre, reduceCtorEq, false_implies,
      implies_true, true_and, and_true, Option.some.injEq, forall_eq', exists_eq_left', and_assoc]
    refine ⟨by omega, by omega, by omega, by omega, by omega, by omega, by omega, by omega,
      by omega, by omega, by omega, by omega, by omega, by omega, ?_⟩
    -- the quarters are sorted
    intro b₃ h₃ s₃ b₀ h₀ s₀ b₁ h₁ s₁ b₂ h₂ s₂
    have hmid : (left + (left + 2 * q + 1)).tdiv 2 = left + q := by
      rw [Int.tdiv_eq_ediv_of_nonneg (by omega)]
      omega
    have t₀ : SortedOn b₂ left (left + q) :=
      (s₀.rearranges h₁ (Or.inl (by omega))).rearranges h₂ (Or.inl (by omega))
    have t₁ : SortedOn b₂ (left + q + 1) (left + 2 * q + 1) := s₁.rearranges h₂ (Or.inl (by omega))
    have t₃ : SortedOn b₂ (left + 3 * q + 2 + 1) right := by
      have haddr : left + 3 * q + 2 + 1 = left + 3 * q + 3 := by omega
      rw [haddr]
      exact ((s₃.rearranges h₀ (Or.inr (by omega))).rearranges h₁ (Or.inr (by omega))).rearranges h₂
        (Or.inr (by omega))
    rw [hmid]
    refine ⟨by omega, by omega, ⟨by omega, by omega, t₀, t₁⟩, by omega, by omega, by omega,
      ⟨by omega, by omega, s₂, t₃⟩, ?_⟩
    -- the pairs are merged
    intro b₅ h₅ s₅ b₄ h₄ s₄
    have t₅ : SortedOn b₄ (left + 2 * q + 1 + 1) right := by
      have haddr : left + 2 * q + 1 + 1 = left + 2 * q + 2 := by omega
      rw [haddr]
      exact s₅.rearranges h₄ (Or.inr (by omega))
    refine ⟨by omega, by omega, ⟨by omega, by omega, s₄, t₅⟩, ?_⟩
    intro b h hsorted
    refine ⟨forall_fin3.mpr ⟨rfl, rfl, rfl⟩, ?_, hsorted⟩
    have hquarters : Rearranges a₀ b₂ left right :=
      (((h₃.mono (by omega) (by omega)).trans (h₀.mono (by omega) (by omega))).trans
        (h₁.mono (by omega) (by omega))).trans (h₂.mono (by omega) (by omega))
    have hpairs : Rearranges b₂ b₄ left right :=
      (h₅.mono (by omega) (by omega)).trans (h₄.mono (by omega) (by omega))
    exact (hquarters.trans hpairs).trans h

/-! ## The invariant -/

section Sound

variable {code : MergeCode} {left right lo hi lo' hi' : Int} {a₀ g g' : Arr} {lent : Lent}
  {s s' : State code} {st st' : List (Frame code)} {v : SortStruct} {i : Fin 3} {t : Actor}

/-- What a helper thread has of the range that it is lent. -/
def HelperOk (s : State code) (g : Arr) (v : SortStruct) (i : Fin 3) : Helper code → Prop
  | .absent => False
  | .created fn => s.structs i = v ∧ fn.Pre v g ∧ AgreeOn s.arr g v.left v.right
  | .running st => Owns v.left v.right st (Promise g v) s.arr

/-- The array as the calling thread sees it is `g`; it works in `lo .. hi`. -/
structure View (left right : Int) (a₀ : Arr) (s : State code) (lent : Lent) (g : Arr)
    (lo hi : Int) : Prop where
  will : Will s.stack (Plan left right a₀ s.prog lent s.structs) g
  within : Within lo hi s.stack
  free : Free left right lent lo hi
  agree : ∀ x, (∀ i v, lent i = some v → x < v.left ∨ v.right < x) → s.arr x = g x
  inside : ∀ i v, lent i = some v → left ≤ v.left ∧ v.right ≤ right
  apart : ∀ i j v w, i ≠ j → lent i = some v → lent j = some w → v.right < w.left ∨ w.right < v.left
  helper : ∀ i v, lent i = some v → HelperOk s g v i (s.helper i)
  idle : ∀ i, lent i = none → s.helper i = .absent ∨ s.helper i = .running []

/-- The invariant of a run. -/
def Inv (left right : Int) (a₀ : Arr) (s : State code) : Prop :=
  ∃ lent g lo hi, View left right a₀ s lent g lo hi

/-- The calling thread sees its own range as it is. -/
theorem View.agreeOn (h : View left right a₀ s lent g lo hi) : AgreeOn s.arr g lo hi := by
  intro x hlo hhi
  apply h.agree
  intro i v hv
  have := h.free.2.2 i v hv
  omega

/-- Between two tasks of its own the calling thread works in an empty range. -/
theorem free_empty (hle : left ≤ right)
    (hinside : ∀ i v, lent i = some v → left ≤ v.left ∧ v.right ≤ right) :
    Free left right lent (right + 1) right := by
  refine ⟨by omega, Int.le_refl _, fun i v hv => ?_⟩
  have := (hinside i v hv).2
  omega

theorem HelperOk.congr {h : Helper code} (hok : HelperOk s g v i h)
    (hstructs : s'.structs i = s.structs i) (harr : AgreeOn s'.arr s.arr v.left v.right)
    (hg : AgreeOn g' g v.left v.right) : HelperOk s' g' v i h := by
  cases h with
  | absent => exact hok
  | created fn =>
    obtain ⟨hv, hpre, hag⟩ := hok
    exact ⟨hstructs.trans hv, hpre.congr hg.symm, (harr.trans hag).trans hg.symm⟩
  | running st => exact (Owns.frame hok harr).mono fun b hb => hb.congr hg.symm

theorem inv_start (code : MergeCode) (a₀ : Arr) (h0 : 0 ≤ left) (hle : left ≤ right) :
    Inv left right a₀ (State.start code a₀ left right) := by
  refine ⟨fun _ => none, a₀, right + 1, right, ?_⟩
  exact {
    will := plan_multiThreadedMergeSort a₀ h0
    within := fun f hf => by cases hf
    free := free_empty hle fun i v hv => by cases hv
    agree := fun _ _ => rfl
    inside := fun i v hv => by cases hv
    apart := fun i j v w _ hv _ => by cases hv
    helper := fun i v hv => by cases hv
    idle := fun i _ => Or.inl rfl }

/-- A step of the calling thread inside a task. -/
theorem View.task {arr : Arr} (hc : code.Correct) (h0 : 0 ≤ left)
    (h : View left right a₀ s lent g lo hi) (hs : taskStep s.stack s.arr = some (st', arr)) :
    Inv left right a₀ { s with stack := st', arr := arr } := by
  have hlo : 0 ≤ lo := Int.le_trans h0 h.free.1
  obtain ⟨⟨g', hs', hag'⟩, harr, hwithin⟩ := taskStep_local hc hlo h.within h.agreeOn hs
  obtain ⟨-, hg, -⟩ := taskStep_local hc hlo h.within (fun _ _ _ => rfl) hs'
  have houtside : ∀ i v, lent i = some v → ∀ x, v.left ≤ x → x ≤ v.right → x < lo ∨ hi < x := by
    intro i v hv x hx hx'
    have := h.free.2.2 i v hv
    omega
  refine ⟨lent, g', lo, hi, {
    will := h.will.step hc hlo h.within hs'
    within := hwithin
    free := h.free
    agree := fun x hx => ?_
    inside := h.inside
    apart := h.apart
    helper := fun i v hv => ?_
    idle := h.idle }⟩
  · by_cases hin : lo ≤ x ∧ x ≤ hi
    · exact hag' x hin.1 hin.2
    · exact ((harr x (by omega)).trans (h.agree x hx)).trans (hg x (by omega)).symm
  · exact (h.helper i v hv).congr rfl (fun x hx hx' => harr x (houtside i v hv x hx hx'))
      fun x hx hx' => hg x (houtside i v hv x hx hx')

/-- A helper thread that takes steps has been lent a range. -/
theorem View.lent_of_created (h : View left right a₀ s lent g lo hi) {fn : Routine}
    (hi : s.helper i = .created fn) : ∃ v, lent i = some v := by
  cases hlent : lent i with
  | some v => exact ⟨v, rfl⟩
  | none => rcases h.idle i hlent with hidle | hidle <;> rw [hi] at hidle <;> cases hidle

theorem View.lent_of_running (h : View left right a₀ s lent g lo hi)
    (hi : s.helper i = .running st) (hne : st ≠ []) : ∃ v, lent i = some v := by
  cases hlent : lent i with
  | some v => exact ⟨v, rfl⟩
  | none =>
    rcases h.idle i hlent with hidle | hidle <;> rw [hi] at hidle <;> cases hidle
    exact absurd rfl hne

/-- A change in the state and the range of one helper thread. -/
theorem View.helperStep {arr : Arr} {new : Helper code} (h : View left right a₀ s lent g lo hi)
    (hlent : lent i = some v) (harr : ∀ x, x < v.left ∨ v.right < x → arr x = s.arr x)
    (hok : HelperOk { s with helper := Function.update s.helper i new, arr := arr } g v i new) :
    View left right a₀ { s with helper := Function.update s.helper i new, arr := arr } lent g lo hi where
  will := h.will
  within := h.within
  free := h.free
  agree x hx := (harr x (hx i v hlent)).trans (h.agree x hx)
  inside := h.inside
  apart := h.apart
  helper j w hw := by
    change HelperOk _ g w j (Function.update s.helper i new j)
    by_cases hj : j = i
    · subst hj
      rw [hlent] at hw
      cases hw
      rw [Function.update_self]
      exact hok
    · rw [Function.update_of_ne hj]
      refine (h.helper j w hw).congr rfl (fun x hx hx' => harr x ?_) fun _ _ _ => rfl
      have := h.apart j i w v hj hw hlent
      omega
  idle j hj := by
    have hne : j ≠ i := by
      rintro rfl
      rw [hlent] at hj
      cases hj
    change Function.update s.helper i new j = .absent ∨ Function.update s.helper i new j = .running []
    rw [Function.update_of_ne hne]
    exact h.idle j hj

theorem View.helper_step (hc : code.Correct) (h0 : 0 ≤ left)
    (h : View left right a₀ s lent g lo hi) (hs : s.step (.helper i) = .ok s') :
    Inv left right a₀ s' := by
  rw [State.step] at hs
  split at hs
  · cases hs
  · rename_i fn hfn
    cases hs
    obtain ⟨v, hv⟩ := h.lent_of_created hfn
    have hok := h.helper i v hv
    rw [hfn] at hok
    obtain ⟨hstruct, hpre, hag⟩ := hok
    refine ⟨lent, g, lo, hi, h.helperStep hv (fun _ _ => rfl) ⟨?_, g, ?_, hag⟩⟩
    · intro f hf
      rw [hstruct] at hf
      cases fn <;> cases List.mem_singleton.mp hf <;> exact ⟨Int.le_refl _, Int.le_refl _⟩
    · rw [hstruct]
      cases fn with
      | test => exact fun b hb hsorted => ⟨hb.perm, hsorted⟩
      | test2 => exact ⟨hpre, fun b hb hsorted => ⟨hb.perm, hsorted⟩⟩
  · rename_i st hst
    split at hs
    · rename_i st' arr htask
      cases hs
      obtain ⟨v, hv⟩ := h.lent_of_running hst (by
        rintro rfl
        cases htask)
      have hok : Owns v.left v.right st (Promise g v) s.arr := by
        have hhelper := h.helper i v hv
        rwa [hst] at hhelper
      have hlo : 0 ≤ v.left := Int.le_trans h0 (h.inside i v hv).1
      obtain ⟨-, harr, -⟩ := taskStep_local hc hlo hok.within (fun _ _ _ => rfl) htask
      exact ⟨lent, g, lo, hi, h.helperStep hv harr (hok.step hc hlo htask)⟩
    · cases hs

theorem View.setStruct_step {prog : List Instr} (hle : left ≤ right)
    (h : View left right a₀ s lent g lo hi) (hstack : s.stack = [])
    (hprog : s.prog = .setStruct i v :: prog) :
    Inv left right a₀ { s with structs := Function.update s.structs i v, prog := prog } := by
  have hwill := h.will
  rw [hstack, hprog] at hwill
  obtain ⟨hnone, hplan⟩ := hwill
  refine ⟨lent, g, right + 1, right, {
    will := by rwa [hstack]
    within := by rw [hstack]; exact fun f hf => by cases hf
    free := free_empty hle h.inside
    agree := h.agree
    inside := h.inside
    apart := h.apart
    helper := fun j w hw => (h.helper j w hw).congr ?_ (fun _ _ _ => rfl) fun _ _ _ => rfl
    idle := h.idle }⟩
  have hne : j ≠ i := by
    rintro rfl
    rw [hnone] at hw
    cases hw
  exact Function.update_of_ne hne _ _

theorem View.create_step {prog : List Instr} {fn : Routine} (hle : left ≤ right)
    (h : View left right a₀ s lent g lo hi) (hstack : s.stack = [])
    (hprog : s.prog = .create i fn :: prog) :
    Inv left right a₀ { s with helper := Function.update s.helper i (.created fn), prog := prog } := by
  have hwill := h.will
  rw [hstack, hprog] at hwill
  obtain ⟨hnone, ⟨hl, hr, hapart⟩, hpre, hplan⟩ := hwill
  have hinside : ∀ j w, Function.update lent i (some (s.structs i)) j = some w →
      left ≤ w.left ∧ w.right ≤ right := by
    intro j w hw
    by_cases hj : j = i
    · subst hj
      rw [Function.update_self] at hw
      cases hw
      exact ⟨hl, hr⟩
    · rw [Function.update_of_ne hj] at hw
      exact h.inside j w hw
  refine ⟨Function.update lent i (some (s.structs i)), g, right + 1, right, {
    will := by rwa [hstack]
    within := by rw [hstack]; exact fun f hf => by cases hf
    free := free_empty hle hinside
    agree := fun x hx => ?_
    inside := hinside
    apart := fun j k w u hjk hw hu => ?_
    helper := fun j w hw => ?_
    idle := fun j hj => ?_ }⟩
  · apply h.agree
    intro j w hw
    have hne : j ≠ i := by
      rintro rfl
      rw [hnone] at hw
      cases hw
    exact hx j w (by rwa [Function.update_of_ne hne])
  · by_cases hj : j = i
    · subst hj
      rw [Function.update_self] at hw
      cases hw
      rw [Function.update_of_ne hjk.symm] at hu
      exact (hapart k u hu).symm
    · rw [Function.update_of_ne hj] at hw
      by_cases hk : k = i
      · subst hk
        rw [Function.update_self] at hu
        cases hu
        exact hapart j w hw
      · rw [Function.update_of_ne hk] at hu
        exact h.apart j k w u hjk hw hu
  · change HelperOk _ g w j (Function.update s.helper i (.created fn) j)
    by_cases hj : j = i
    · subst hj
      rw [Function.update_self] at hw ⊢
      cases hw
      refine ⟨rfl, hpre, fun x hx hx' => h.agree x fun k u hu => ?_⟩
      have := hapart k u hu
      omega
    · rw [Function.update_of_ne hj] at hw ⊢
      exact (h.helper j w hw).congr rfl (fun _ _ _ => rfl) fun _ _ _ => rfl
  · change Function.update s.helper i (.created fn) j = .absent ∨
      Function.update s.helper i (.created fn) j = .running []
    have hne : j ≠ i := by
      rintro rfl
      rw [Function.update_self] at hj
      cases hj
    rw [Function.update_of_ne hne] at hj ⊢
    exact h.idle j hj

/-- The calling thread begins a task of its own. -/
theorem View.begin_step {prog : List Instr} (h : View left right a₀ s lent g lo hi)
    (hfree : Free left right lent lo' hi') (hwithin : Within lo' hi' st)
    (hwill : Will st (Plan left right a₀ prog lent s.structs) g) :
    Inv left right a₀ { s with stack := st, prog := prog } :=
  ⟨lent, g, lo', hi', {
    will := hwill
    within := hwithin
    free := hfree
    agree := h.agree
    inside := h.inside
    apart := h.apart
    helper := fun j w hw => (h.helper j w hw).congr rfl (fun _ _ _ => rfl) fun _ _ _ => rfl
    idle := h.idle }⟩

theorem View.join_step {prog : List Instr} (hle : left ≤ right)
    (h : View left right a₀ s lent g lo hi) (hstack : s.stack = [])
    (hprog : s.prog = .join i :: prog) (hdone : s.helper i = .running []) :
    Inv left right a₀ { s with prog := prog } := by
  have hwill := h.will
  rw [hstack, hprog] at hwill
  obtain ⟨v, hv, hplan⟩ := hwill
  have hok := h.helper i v hv
  rw [hdone] at hok
  obtain ⟨b, hpromise, hag⟩ := hok.will
  have hinside : ∀ j w, Function.update lent i none j = some w → j ≠ i ∧ lent j = some w := by
    intro j w hw
    by_cases hj : j = i
    · subst hj
      rw [Function.update_self] at hw
      cases hw
    · rw [Function.update_of_ne hj] at hw
      exact ⟨hj, hw⟩
  have hvalues : (values s.arr v.left v.right).Perm (values g v.left v.right) := by
    rw [values_congr hag]
    exact hpromise.1
  refine ⟨Function.update lent i none, splice g s.arr v.left v.right, right + 1, right, {
    will := ?_
    within := by rw [hstack]; exact fun f hf => by cases hf
    free := free_empty hle fun j w hw => h.inside j w (hinside j w hw).2
    agree := fun x hx => ?_
    inside := fun j w hw => h.inside j w (hinside j w hw).2
    apart := fun j k w u hjk hw hu => h.apart j k w u hjk (hinside j w hw).2 (hinside k u hu).2
    helper := fun j w hw => ?_
    idle := fun j hj => ?_ }⟩
  · rw [hstack]
    apply hplan _ (Rearranges.splice hvalues)
    exact (hpromise.2.congr hag.symm).congr (splice_agreeOn g s.arr v.left v.right).symm
  · by_cases hin : v.left ≤ x ∧ x ≤ v.right
    · exact (splice_agreeOn g s.arr v.left v.right x hin.1 hin.2).symm
    · rw [splice_of_not (by omega)]
      apply h.agree
      intro j w hw
      by_cases hj : j = i
      · subst hj
        rw [hv] at hw
        cases hw
        omega
      · exact hx j w (by rwa [Function.update_of_ne hj])
  · obtain ⟨hj, hw⟩ := hinside j w hw
    refine (h.helper j w hw).congr rfl (fun _ _ _ => rfl) fun x hx hx' => splice_of_not ?_
    have := h.apart j i w v hj hw hv
    omega
  · by_cases hj' : j = i
    · subst hj'
      exact Or.inr hdone
    · rw [Function.update_of_ne hj'] at hj
      exact h.idle j hj

/-- Every step keeps the invariant. -/
theorem Inv.step (hc : code.Correct) (h0 : 0 ≤ left) (hle : left ≤ right)
    (h : Inv left right a₀ s) (hs : s.step t = .ok s') : Inv left right a₀ s' := by
  obtain ⟨lent, g, lo, hi, h⟩ := h
  cases t with
  | helper i => exact h.helper_step hc h0 hs
  | main =>
    rw [State.step] at hs
    split at hs
    · rename_i st arr htask
      cases hs
      exact h.task hc h0 htask
    · rename_i htask
      have hstack : s.stack = [] := taskStep_eq_none_iff.mp htask
      have hwill := h.will
      rw [State.instrStep] at hs
      split at hs
      · cases hs
      · rename_i i v prog hprog
        cases hs
        exact h.setStruct_step hle hstack hprog
      · rename_i i fn prog hprog
        cases hs
        exact h.create_step hle hstack hprog
      · rename_i l r prog hprog
        cases hs
        rw [hstack, hprog] at hwill
        obtain ⟨hfree, hplan⟩ := hwill
        refine h.begin_step hfree ?_ hplan
        intro f hf
        cases List.mem_singleton.mp hf
        exact ⟨Int.le_refl _, Int.le_refl _⟩
      · rename_i l m r prog hprog
        cases hs
        rw [hstack, hprog] at hwill
        obtain ⟨hfree, hmerge, hplan⟩ := hwill
        refine h.begin_step hfree ?_ ⟨hmerge, hplan⟩
        intro f hf
        cases List.mem_singleton.mp hf
        exact ⟨Int.le_refl _, Int.le_refl _⟩
      · rename_i i prog hprog
        split at hs
        · rename_i hdone
          cases hs
          exact h.join_step hle hstack hprog hdone
        · cases hs

theorem SortReachable.inv (hc : code.Correct) (h0 : 0 ≤ left) (hle : left ≤ right)
    (hr : SortReachable code a₀ left right s) : Inv left right a₀ s :=
  Reachable.invariant (inv_start code a₀ h0 hle)
    (fun _ _ _ _ h _ hs => h.step hc h0 hle hs) s hr

/-! ## Disjoint work -/

/-- The calling thread owns the range that it works in. -/
theorem View.owns (h : View left right a₀ s lent g lo hi) :
    Owns lo hi s.stack (Plan left right a₀ s.prog lent s.structs) s.arr :=
  ⟨h.within, g, h.will, h.agreeOn⟩

/-- The calls of a helper thread are for the range that it has been lent. -/
theorem View.helper_calls (h : View left right a₀ s lent g lo hi) {f : Frame code}
    (hf : f ∈ s.calls (.helper i)) : ∃ v, lent i = some v ∧ v.left ≤ f.lo ∧ f.hi ≤ v.right := by
  cases hhelper : s.helper i with
  | absent =>
    rw [State.calls, hhelper] at hf
    cases hf
  | created fn =>
    obtain ⟨v, hv⟩ := h.lent_of_created hhelper
    have hok := h.helper i v hv
    rw [hhelper] at hok
    rw [State.calls, hhelper] at hf
    simp only [hok.1] at hf
    refine ⟨v, hv, ?_⟩
    cases fn <;> cases List.mem_singleton.mp hf <;> exact ⟨Int.le_refl _, Int.le_refl _⟩
  | running st =>
    rw [State.calls, hhelper] at hf
    obtain ⟨v, hv⟩ := h.lent_of_running hhelper (List.ne_nil_of_mem hf)
    have hok := h.helper i v hv
    rw [hhelper] at hok
    exact ⟨v, hv, hok.within f hf⟩

theorem View.helper_merges (h : View left right a₀ s lent g lo hi) {l m r : Int}
    (hcalls : s.calls (.helper i) = .merge l m r :: st) : CanMerge s.arr l m r := by
  obtain ⟨v, hv, -⟩ := h.helper_calls (f := .merge l m r) (by rw [hcalls]; exact List.mem_cons_self)
  have hok := h.helper i v hv
  cases hhelper : s.helper i with
  | absent =>
    rw [hhelper] at hok
    cases hok
  | created fn =>
    rw [hhelper] at hok
    obtain ⟨hstruct, hpre, hag⟩ := hok
    rw [State.calls, hhelper] at hcalls
    simp only [hstruct] at hcalls
    cases fn with
    | test => cases hcalls
    | test2 =>
      cases hcalls
      exact CanMerge.congr hpre hag.symm
  | running st' =>
    rw [hhelper] at hok
    rw [State.calls, hhelper] at hcalls
    simp only at hcalls
    subst hcalls
    exact Owns.merge hok

theorem Inv.safe (h : Inv left right a₀ s) : s.Safe left right := by
  obtain ⟨lent, g, lo, hi, h⟩ := h
  have hmain : ∀ i x, s.Handles .main x → ¬ s.Handles (.helper i) x := by
    rintro i x ⟨f, hf, hlo, hhi⟩ ⟨f', hf', hlo', hhi'⟩
    have hin := h.within f hf
    obtain ⟨v, hv, hin'⟩ := h.helper_calls hf'
    have := h.free.2.2 i v hv
    omega
  constructor
  · rintro t x ⟨f, hf, hlo, hhi⟩
    cases t with
    | main =>
      have hin := h.within f hf
      have hfree := h.free
      exact ⟨by have := hfree.1; omega, by have := hfree.2.1; omega⟩
    | helper i =>
      obtain ⟨v, hv, hin⟩ := h.helper_calls hf
      have := h.inside i v hv
      omega
  · intro t u x htu ht hu
    cases t with
    | main =>
      cases u with
      | main => exact htu rfl
      | helper j => exact hmain j x ht hu
    | helper i =>
      cases u with
      | main => exact hmain i x hu ht
      | helper j =>
        obtain ⟨f, hf, hlo, hhi⟩ := ht
        obtain ⟨f', hf', hlo', hhi'⟩ := hu
        obtain ⟨v, hv, hin⟩ := h.helper_calls hf
        obtain ⟨w, hw, hin'⟩ := h.helper_calls hf'
        have hij : i ≠ j := fun heq => htu (by rw [heq])
        have := h.apart i j v w hij hv hw
        omega
  · intro t l m r rest hcalls
    cases t with
    | main =>
      have howns := h.owns
      rw [show s.stack = _ from hcalls] at howns
      exact howns.merge
    | helper i => exact h.helper_merges hcalls

/-- When the calling thread has returned, the array is sorted. -/
theorem Inv.finished (h : Inv left right a₀ s) (hfin : s.Finished) :
    Rearranges a₀ s.arr left right ∧ SortedOn s.arr left right := by
  obtain ⟨lent, g, lo, hi, h⟩ := h
  have hwill := h.will
  rw [hfin.1, hfin.2] at hwill
  obtain ⟨hnone, hrearr, hsorted⟩ := hwill
  have harr : s.arr = g := by
    funext x
    apply h.agree
    intro i v hv
    rw [hnone i] at hv
    cases hv
  rw [harr]
  exact ⟨hrearr, hsorted⟩

/-- As long as the calling thread has not returned, some thread can take a step. -/
theorem Inv.progress (h : Inv left right a₀ s) (hfin : ¬ s.Finished) :
    ∃ t s', s.step t = .ok s' := by
  obtain ⟨lent, g, lo, hi, h⟩ := h
  cases htask : taskStep s.stack s.arr with
  | some next => exact ⟨.main, _, State.step_main_task htask⟩
  | none =>
    have hstack : s.stack = [] := taskStep_eq_none_iff.mp htask
    have hmain := State.step_main_instr htask
    have hwill := h.will
    cases hprog : s.prog with
    | nil => exact absurd ⟨hprog, hstack⟩ hfin
    | cons instr prog =>
      rw [hstack, hprog] at hwill
      cases instr with
      | setStruct i v => exact ⟨.main, _, hmain.trans (by rw [State.instrStep, hprog])⟩
      | create i fn => exact ⟨.main, _, hmain.trans (by rw [State.instrStep, hprog])⟩
      | sort l r => exact ⟨.main, _, hmain.trans (by rw [State.instrStep, hprog])⟩
      | merge l m r => exact ⟨.main, _, hmain.trans (by rw [State.instrStep, hprog])⟩
      | join i =>
        obtain ⟨v, hv, -⟩ := hwill
        have hok := h.helper i v hv
        cases hhelper : s.helper i with
        | absent =>
          rw [hhelper] at hok
          cases hok
        | created fn => exact ⟨.helper i, _, State.step_created hhelper⟩
        | running st =>
          cases hst : taskStep st s.arr with
          | some next => exact ⟨.helper i, _, State.step_running hhelper hst⟩
          | none =>
            rw [taskStep_eq_none_iff.mp hst] at hhelper
            exact ⟨.main, _, hmain.trans (State.instrStep_join hprog hhelper)⟩

/-! ## Termination -/

/-- The change of a sum in one place. -/
theorem sum_change {ι : Type} [Fintype ι] [DecidableEq ι] {f f' : ι → Nat} {i : ι}
    (h : ∀ j, j ≠ i → f' j = f j) : ∑ j, f' j + f i = ∑ j, f j + f' i := by
  have hrest : ∑ j ∈ Finset.univ.erase i, f' j = ∑ j ∈ Finset.univ.erase i, f j :=
    Finset.sum_congr rfl fun j hj => h j (Finset.ne_of_mem_erase hj)
  rw [← Finset.add_sum_erase _ f' (Finset.mem_univ i), ← Finset.add_sum_erase _ f (Finset.mem_univ i),
    hrest]
  omega

/-- An upper bound for the calls of a helper thread with this argument, and its start. -/
def SortStruct.weight (v : SortStruct) : Nat := 4 * (v.right - v.left).toNat + 3

theorem Routine.weight_body (fn : Routine) (v : SortStruct) :
    MergeSort.weight (fn.body v : List (Frame code)) < v.weight := by
  cases fn with
  | test => simp [Routine.body, MergeSort.weight, Frame.weight, SortStruct.weight]
  | test2 =>
    simp only [Routine.body, MergeSort.weight, Frame.weight, SortStruct.weight, List.map_cons,
      List.map_nil, List.sum_cons, List.sum_nil]
    omega

/-- An upper bound for the calls that the instructions lead to, and the instructions. -/
def progWeight : List Instr → (Fin 3 → SortStruct) → Nat
  | [], _ => 0
  | .setStruct i v :: prog, structs => 1 + progWeight prog (Function.update structs i v)
  | .create i _ :: prog, structs => 1 + (structs i).weight + progWeight prog structs
  | .sort l r :: prog, structs => 2 + 4 * (r - l).toNat + progWeight prog structs
  | .merge _ _ _ :: prog, structs => 3 + progWeight prog structs
  | .join _ :: prog, structs => 1 + progWeight prog structs

def helperWeight (s : State code) (i : Fin 3) : Nat :=
  match s.helper i with
  | .absent => 0
  | .created _ => (s.structs i).weight
  | .running st => weight st

noncomputable def helperLeft (s : State code) (i : Fin 3) : Nat :=
  match s.helper i with
  | .running st => mergeLeft st s.arr
  | _ => 0

/-- An upper bound for the calls that are to be made and have to return. -/
def State.weight (s : State code) : Nat :=
  progWeight s.prog s.structs + MergeSort.weight s.stack + ∑ j, helperWeight s j

/-- The steps that the merges under way still take. -/
noncomputable def State.mergeLeft (s : State code) : Nat :=
  MergeSort.mergeLeft s.stack s.arr + ∑ j, helperLeft s j

/-- The first of two numbers goes down, or it stays and the second one goes down. -/
def Decreases (s' s : State code) : Prop :=
  s'.weight < s.weight ∨ s'.weight = s.weight ∧ s'.mergeLeft < s.mergeLeft

/-- A helper thread does not notice steps outside the range that it has been lent. -/
theorem View.helperLeft_congr (hc : code.Correct) (h : View left right a₀ s lent g lo hi)
    (hhelper : s'.helper i = s.helper i)
    (harr : ∀ v, lent i = some v → AgreeOn s'.arr s.arr v.left v.right) :
    helperLeft s' i = helperLeft s i := by
  unfold helperLeft
  rw [hhelper]
  cases hi : s.helper i with
  | absent => rfl
  | created fn => rfl
  | running st =>
    cases hlent : lent i with
    | none =>
      rcases h.idle i hlent with hidle | hidle
      · rw [hi] at hidle
        cases hidle
      · rw [hi] at hidle
        cases hidle
        rfl
    | some v =>
      have hok := h.helper i v hlent
      rw [hi] at hok
      exact mergeLeft_congr hc hok (harr v hlent)

theorem helperWeight_congr (hhelper : s'.helper i = s.helper i)
    (hstructs : s'.structs i = s.structs i) : helperWeight s' i = helperWeight s i := by
  unfold helperWeight
  rw [hhelper, hstructs]

theorem View.helperWeight_idle (h : View left right a₀ s lent g lo hi) (hi : lent i = none) :
    helperWeight s i = 0 := by
  unfold helperWeight
  rcases h.idle i hi with hidle | hidle
  · rw [hidle]
  · rw [hidle]
    rfl

theorem View.task_decreases {arr : Arr} (hc : code.Correct) (h0 : 0 ≤ left)
    (h : View left right a₀ s lent g lo hi) (hs : taskStep s.stack s.arr = some (st', arr)) :
    Decreases { s with stack := st', arr := arr } s := by
  have hlo : 0 ≤ lo := Int.le_trans h0 h.free.1
  obtain ⟨-, harr, -⟩ := taskStep_local hc hlo h.within (fun _ _ _ => rfl) hs
  have hleft : helperLeft { s with stack := st', arr := arr } = helperLeft s := by
    funext i
    refine h.helperLeft_congr hc ?_ ?_
    · rfl
    · intro v hv x hx hx'
      have := h.free.2.2 i v hv
      exact harr x (by omega)
  have hweight : helperWeight { s with stack := st', arr := arr } = helperWeight s := rfl
  unfold Decreases State.weight State.mergeLeft
  rw [hleft, hweight]
  rcases taskStep_decreases hc hlo h.owns hs with hlt | ⟨heq, hlt⟩
  · left
    change progWeight s.prog s.structs + weight st' + _ < _
    omega
  · right
    change progWeight s.prog s.structs + weight st' + _ = _ ∧ MergeSort.mergeLeft st' arr + _ < _
    omega

theorem View.helper_decreases (hc : code.Correct) (h0 : 0 ≤ left)
    (h : View left right a₀ s lent g lo hi) (hs : s.step (.helper i) = .ok s') :
    Decreases s' s := by
  rw [State.step] at hs
  split at hs
  · cases hs
  · rename_i fn hfn
    cases hs
    left
    have hother : ∀ j, j ≠ i → helperWeight
        { s with helper := Function.update s.helper i (.running (fn.body (s.structs i))) } j =
          helperWeight s j :=
      fun j hj => helperWeight_congr (Function.update_of_ne hj _ _) rfl
    have hsum := sum_change hother
    have hold : helperWeight s i = (s.structs i).weight := by simp only [helperWeight, hfn]
    have hnew : helperWeight
        { s with helper := Function.update s.helper i (.running (fn.body (s.structs i))) } i =
          weight (fn.body (s.structs i) : List (Frame code)) := by
      simp only [helperWeight, Function.update_self]
    have hlt := @Routine.weight_body code fn (s.structs i)
    unfold State.weight
    change progWeight s.prog s.structs + weight s.stack + _ < _
    omega
  · rename_i st hst
    split at hs
    · rename_i st' arr htask
      cases hs
      obtain ⟨v, hv⟩ := h.lent_of_running hst (by
        rintro rfl
        cases htask)
      have hok : Owns v.left v.right st (Promise g v) s.arr := by
        have hhelper := h.helper i v hv
        rwa [hst] at hhelper
      have hlo : 0 ≤ v.left := Int.le_trans h0 (h.inside i v hv).1
      obtain ⟨-, harr, -⟩ := taskStep_local hc hlo hok.within (fun _ _ _ => rfl) htask
      have hotherWeight : ∀ j, j ≠ i → helperWeight
          { s with helper := Function.update s.helper i (.running st'), arr := arr } j =
            helperWeight s j :=
        fun j hj => helperWeight_congr (Function.update_of_ne hj _ _) rfl
      have hotherLeft : ∀ j, j ≠ i → helperLeft
          { s with helper := Function.update s.helper i (.running st'), arr := arr } j =
            helperLeft s j := by
        intro j hj
        refine h.helperLeft_congr hc ?_ ?_
        · exact Function.update_of_ne hj _ _
        · intro w hw x hx hx'
          have := h.apart j i w v hj hw hv
          exact harr x (by omega)
      have hmain : mergeLeft s.stack arr = mergeLeft s.stack s.arr := by
        apply mergeLeft_congr hc h.owns
        intro x hx hx'
        have := h.free.2.2 i v hv
        exact harr x (by omega)
      have hsumWeight := sum_change hotherWeight
      have hsumLeft := sum_change hotherLeft
      have hold : helperWeight s i = weight st ∧ helperLeft s i = mergeLeft st s.arr := by
        simp only [helperWeight, helperLeft, hst, and_self]
      have hnew : helperWeight
          { s with helper := Function.update s.helper i (.running st'), arr := arr } i =
            weight st' ∧ helperLeft
          { s with helper := Function.update s.helper i (.running st'), arr := arr } i =
            mergeLeft st' arr := by
        simp only [helperWeight, helperLeft, Function.update_self, and_self]
      unfold Decreases State.weight State.mergeLeft
      change progWeight s.prog s.structs + weight s.stack + _ < _ ∨
        progWeight s.prog s.structs + weight s.stack + _ = _ ∧ mergeLeft s.stack arr + _ < _
      have hdown := taskStep_decreases hc hlo hok htask
      omega
    · cases hs

theorem View.instr_decreases (h : View left right a₀ s lent g lo hi) (hstack : s.stack = [])
    (hs : s.instrStep = .ok s') : Decreases s' s := by
  left
  have hwill := h.will
  rw [State.instrStep] at hs
  split at hs
  · cases hs
  · rename_i i v prog hprog
    cases hs
    rw [hstack, hprog] at hwill
    have hother : ∀ j, j ≠ i → helperWeight
        { s with structs := Function.update s.structs i v, prog := prog } j = helperWeight s j :=
      fun j hj => helperWeight_congr rfl (Function.update_of_ne hj _ _)
    have hsum := sum_change hother
    have hold := h.helperWeight_idle hwill.1
    have hnew : helperWeight
        { s with structs := Function.update s.structs i v, prog := prog } i = 0 := by
      unfold helperWeight
      rcases h.idle i hwill.1 with hidle | hidle
      · simp only [hidle]
      · simp only [hidle]
        rfl
    unfold State.weight
    rw [hprog, progWeight]
    change progWeight prog (Function.update s.structs i v) + weight s.stack + _ < _
    omega
  · rename_i i fn prog hprog
    cases hs
    rw [hstack, hprog] at hwill
    have hother : ∀ j, j ≠ i → helperWeight
        { s with helper := Function.update s.helper i (.created fn), prog := prog } j =
          helperWeight s j :=
      fun j hj => helperWeight_congr (Function.update_of_ne hj _ _) rfl
    have hsum := sum_change hother
    have hold := h.helperWeight_idle hwill.1
    have hnew : helperWeight
        { s with helper := Function.update s.helper i (.created fn), prog := prog } i =
          (s.structs i).weight := by
      simp only [helperWeight, Function.update_self]
    unfold State.weight
    rw [hprog, progWeight]
    change progWeight prog s.structs + weight s.stack + _ < _
    omega
  · rename_i l r prog hprog
    cases hs
    unfold State.weight
    rw [hprog, progWeight, hstack]
    change progWeight prog s.structs + weight [(.sort l r : Frame code)] + ∑ j, helperWeight s j < _
    simp only [weight, Frame.weight, List.map_cons, List.map_nil, List.sum_cons, List.sum_nil]
    omega
  · rename_i l m r prog hprog
    cases hs
    unfold State.weight
    rw [hprog, progWeight, hstack]
    change progWeight prog s.structs + weight [(.merge l m r : Frame code)] + ∑ j, helperWeight s j < _
    simp only [weight, Frame.weight, List.map_cons, List.map_nil, List.sum_cons, List.sum_nil]
    omega
  · rename_i i prog hprog
    split at hs
    · cases hs
      unfold State.weight
      rw [hprog, progWeight]
      change progWeight prog s.structs + weight s.stack + ∑ j, helperWeight s j < _
      omega
    · cases hs

/-- Every step brings the program nearer to its end. -/
theorem Inv.decreases (hc : code.Correct) (h0 : 0 ≤ left) (h : Inv left right a₀ s)
    (hs : s.step t = .ok s') : Decreases s' s := by
  obtain ⟨lent, g, lo, hi, h⟩ := h
  cases t with
  | helper i => exact h.helper_decreases hc h0 hs
  | main =>
    rw [State.step] at hs
    split at hs
    · rename_i st arr htask
      cases hs
      exact h.task_decreases hc h0 htask
    · rename_i htask
      exact h.instr_decreases (taskStep_eq_none_iff.mp htask) hs

end Sound

/-- Under every interleaving of its threads `multiThreadedMergeSort` sorts the range and leaves the
other elements as they were; it comes to an end; its threads work on disjoint parts of the range;
and every `merge` is given two adjacent sorted ranges. -/
theorem multiThreadedMergeSort_sorts {code : MergeCode} (hc : code.Correct) (a₀ : Arr)
    {left right : Int} (h0 : 0 ≤ left) (hle : left ≤ right) :
    (∀ s, SortReachable code a₀ left right s → s.Safe left right ∧
      (s.Finished → Rearranges a₀ s.arr left right ∧ SortedOn s.arr left right) ∧
      (¬ s.Finished → ∃ t s', s.step t = .ok s')) ∧
    Acc (Next State.step fun _ _ => True) (State.start code a₀ left right) := by
  constructor
  · intro s hr
    have hinv := hr.inv hc h0 hle
    exact ⟨hinv.safe, hinv.finished, hinv.progress⟩
  · have hwf : WellFounded (Prod.Lex (· < · : Nat → Nat → Prop) (· < · : Nat → Nat → Prop)) :=
      (Prod.lex Nat.lt_wfRel Nat.lt_wfRel).wf
    have hdown : ∀ s t s', SortReachable code a₀ left right s → True → State.step s t = .ok s' →
        Prod.Lex (· < ·) (· < ·) (s'.weight, s'.mergeLeft) (s.weight, s.mergeLeft) :=
      fun s t s' hr _ hs => Prod.lex_def.mpr ((SortReachable.inv hc h0 hle hr).decreases hc h0 hs)
    exact Reachable.acc hwf (fun s : State code => (s.weight, s.mergeLeft)) hdown .start

theorem multiThreadedMergeSort_sorts_six : ∃ s,
    SortReachable sortingMerge (fun i => -i) 0 5 s ∧ s.Finished ∧ SortedOn s.arr 0 5 := by
  obtain ⟨hall, hacc⟩ := multiThreadedMergeSort_sorts sortingMerge_correct (fun i => -i)
    (Int.le_refl 0) (by decide : (0 : Int) ≤ 5)
  have hprogress : ∀ s, SortReachable sortingMerge (fun i => -i) 0 5 s → ¬ s.Finished →
      ∃ s', Next State.step (fun _ _ => True) s' s := by
    intro s hr hfin
    obtain ⟨t, s', hs⟩ := (hall s hr).2.2 hfin
    exact ⟨s', t, trivial, hs⟩
  obtain ⟨s, hr, hfin⟩ := Reachable.exists_of_acc hacc hprogress
  exact ⟨s, hr, hfin, ((hall s hr).2.1 hfin).2⟩

end CSE130.MergeSort
