import CSE130.MergeSort.Processes

/-!
# The processes sort

`Plan` says of the instructions that the parent has left that they sort the array, whatever the child
makes of its part of the segment as long as it sorts it. The parent and the child work on different
arrays, so that a step of the one is no step of the other.
-/

namespace CSE130.MergeSort.Processes

open Library

/-- From the arrays `g` and `h` the instructions lead to an array that is `a₀` with `left .. right`
sorted. The child has been given the range `lent` of the segment. -/
def Plan (left right : Int) (a₀ : Arr) :
    List Instr → Option Int → Option (Int × Int) → Arr → Arr → Prop
  | [], _, lent, g, _ => lent = none ∧ Rearranges a₀ g left right ∧ SortedOn g left right
  | .map bytes :: prog, _, lent, g, h => Plan left right a₀ prog (some (roundUp bytes)) lent g h
  | .store i j :: prog, seg, lent, g, h =>
    inSegment seg i i = true ∧ lent = none ∧
      Plan left right a₀ prog seg lent g (Function.update h i (g j))
  | .load i j :: prog, seg, lent, g, h =>
    inSegment seg j j = true ∧ lent = none ∧
      Plan left right a₀ prog seg lent (Function.update g i (h j)) h
  | .fork l r :: prog, seg, lent, g, h =>
    lent = none ∧ inSegment seg l r = true ∧ Plan left right a₀ prog seg (some (l, r)) g h
  | .sort target l r :: prog, seg, lent, g, h =>
    target = .arr ∧ 0 ≤ l ∧
      ∀ b, Rearranges g b l r → SortedOn b l r → Plan left right a₀ prog seg lent b h
  | .wait :: prog, seg, lent, g, h =>
    ∃ l r, lent = some (l, r) ∧
      ∀ b, Rearranges h b l r → SortedOn b l r → Plan left right a₀ prog seg none g b
  | .merge l m r :: prog, seg, lent, g, h =>
    0 ≤ l ∧ CanMerge g l m r ∧
      ∀ b, Rearranges g b l r → SortedOn b l r → Plan left right a₀ prog seg lent b h
  | .unmap :: prog, _, lent, g, h => Plan left right a₀ prog none lent g h

/-! ## The plan of the two versions -/

section Body

variable {left right : Int} {a₀ g g₀ h : Arr} {seg : Option Int} {rest : List Instr} {i n : Nat}

/-- The loop that fills the segment, from its index `i` on. -/
theorem plan_stores (hseg : ∀ x : Nat, x < i + n → inSegment seg x x = true)
    (hdone : ∀ x : Nat, x < i → h x = g (x + left))
    (hrest : ∀ h' : Arr, (∀ x : Nat, x < i + n → h' x = g (x + left)) →
      Plan left right a₀ rest seg none g h') :
    Plan left right a₀ ((List.range' i n).map (fun x : Nat => .store x (x + left)) ++ rest) seg none
      g h := by
  induction n generalizing i h with
  | zero => exact hrest h hdone
  | succ n ih =>
    have hlen : i + 1 + n = i + (n + 1) := by omega
    refine ⟨hseg i (by omega), rfl, ?_⟩
    apply ih
    · rwa [hlen]
    · intro x hx
      by_cases heq : x = i
      · rw [heq, Function.update_self]
      · rw [Function.update_of_ne (by omega)]
        exact hdone x (by omega)
    · rwa [hlen]

/-- The loop that reads the segment, from its index `i` on. -/
theorem plan_loads (hseg : ∀ x : Nat, x < i + n → inSegment seg x x = true)
    (hdone : ∀ x : Nat, x < i → g (x + left) = h x)
    (hframe : ∀ y, y < left ∨ left + i ≤ y → g y = g₀ y)
    (hrest : ∀ g' : Arr, (∀ x : Nat, x < i + n → g' (x + left) = h x) →
      (∀ y, y < left ∨ left + (i + n : Nat) ≤ y → g' y = g₀ y) →
      Plan left right a₀ rest seg none g' h) :
    Plan left right a₀ ((List.range' i n).map (fun x : Nat => .load (x + left) x) ++ rest) seg none
      g h := by
  induction n generalizing i g with
  | zero => exact hrest g hdone hframe
  | succ n ih =>
    have hlen : i + 1 + n = i + (n + 1) := by omega
    refine ⟨hseg i (by omega), rfl, ?_⟩
    apply ih
    · rwa [hlen]
    · intro x hx
      by_cases heq : x = i
      · rw [heq, Function.update_self]
      · rw [Function.update_of_ne (by omega)]
        exact hdone x (by omega)
    · intro y hy
      rw [Function.update_of_ne (by omega)]
      exact hframe y (by omega)
    · rwa [hlen]

/-- The segment has room for the first half. -/
theorem inSegment_half {k : Int} (h0 : 0 ≤ left) (hle : left ≤ right)
    (hk : (left + right).tdiv 2 - left + 1 = k) {l r : Int} (hl : 0 ≤ l) (hr : r < k) :
    inSegment (some (roundUp ((4 * (1 + (right - left))).tdiv 2))) l r = true := by
  rw [Int.tdiv_eq_ediv_of_nonneg (by omega)] at hk
  rw [inSegment, decide_eq_true_eq, roundUp, pageSize, Int.tdiv_eq_ediv_of_nonneg (by omega)]
  omega

theorem plan_sortInHalves (a₀ : Arr) (h : Arr) (h0 : 0 ≤ left) (hle : left ≤ right) :
    Plan left right a₀ (sortInHalves left right) none none a₀ h := by
  obtain ⟨k, hk⟩ : ∃ k : Nat, (left + right).tdiv 2 - left + 1 = k := by
    rw [Int.tdiv_eq_ediv_of_nonneg (by omega)]
    exact ⟨((left + right) / 2 - left + 1).toNat, by omega⟩
  have hmid : (left + right).tdiv 2 = k - 1 + left := by omega
  have hbounds : 1 ≤ (k : Int) ∧ left + k ≤ right + 1 := by
    rw [Int.tdiv_eq_ediv_of_nonneg (by omega)] at hk
    omega
  have hroom : ∀ {l r : Int}, 0 ≤ l → r < k → inSegment _ l r = true := inSegment_half h0 hle hk
  have hright : left + (1 + (right - left)) - 1 = right := by omega
  simp only [sortInHalves, hk, Int.toNat_natCast, List.range_eq_range', List.append_assoc, hright]
  rw [hmid]
  refine plan_stores (i := 0) (fun x hx => hroom (by omega) (by omega)) (fun x hx => by omega) ?_
  intro h₁ hh₁
  refine ⟨rfl, hroom (Int.le_refl _) (by omega), rfl, by omega, fun b₁ hb₁ hs₁ => ?_⟩
  refine ⟨0, k - 1, rfl, fun h₂ hb₂ hs₂ => ?_⟩
  have hsame : ∀ y, y < left ∨ left + (0 : Nat) ≤ y → b₁ y = b₁ y := fun _ _ => rfl
  refine plan_loads (fun x hx => hroom (by omega) (by omega)) (fun x hx => by omega) hsame ?_
  intro g hg hframe
  rw [Nat.zero_add] at hh₁ hg hframe
  -- the first half is that of the segment, the second half is the parent's own
  have hshift : ∀ i : Int, 0 ≤ i → i ≤ k - 1 → g (i + left) = h₂ i := by
    intro i hi hi'
    obtain ⟨x, rfl⟩ := Int.eq_ofNat_of_zero_le hi
    exact hg x (by omega)
  have hshift₁ : ∀ i : Int, 0 ≤ i → i ≤ k - 1 → a₀ (i + left) = h₁ i := by
    intro i hi hi'
    obtain ⟨x, rfl⟩ := Int.eq_ofNat_of_zero_le hi
    exact (hh₁ x (by omega)).symm
  have hsecond : AgreeOn b₁ g (k - 1 + left + 1) right := by
    intro y hy _
    exact (hframe y (by omega)).symm
  have hfirst := hs₂.shift hshift
  rw [Int.zero_add] at hfirst
  have hs₁' : SortedOn b₁ (k - 1 + left + 1) right := by
    have haddr : (k : Int) - 1 + left + 1 = left + k := by omega
    rwa [haddr]
  refine ⟨h0, ⟨by omega, by omega, hfirst, hs₁'.congr hsecond⟩, fun b hb hs => ⟨rfl, ?_, hs⟩⟩
  have hperm : (values g left (k - 1 + left)).Perm (values a₀ left (k - 1 + left)) := by
    have hnew := values_shift hshift
    have hold := values_shift hshift₁
    rw [Int.zero_add] at hnew hold
    rw [hnew, hold]
    exact hb₂.perm
  have hperm₁ : (values g (k - 1 + left + 1) right).Perm (values a₀ (k - 1 + left + 1) right) := by
    have haddr : (k : Int) - 1 + left + 1 = left + k := by omega
    rw [← values_congr hsecond, haddr]
    exact hb₁.perm
  have hhalves : Rearranges a₀ g left right := by
    refine ⟨?_, fun y hy => (hframe y (by omega)).trans (hb₁.frame y (by omega))⟩
    rw [@values_split _ g left (k - 1 + left) right (by omega) (by omega),
      @values_split _ a₀ left (k - 1 + left) right (by omega) (by omega)]
    exact hperm.append hperm₁
  exact hhalves.trans hb

/-- All three functions sort. -/
theorem plan_body (version : Version) (a₀ : Arr) (h : Arr) (h0 : 0 ≤ left) (hle : left ≤ right) :
    Plan left right a₀ (version.body left right) none none a₀ h := by
  cases version with
  | psort => exact plan_sortInHalves a₀ h h0 hle
  | usort =>
    rw [Version.body]
    split
    · exact ⟨rfl, Rearranges.refl a₀ left right, sortedOn_of_le (by omega)⟩
    · exact plan_sortInHalves a₀ h h0 hle
  | singleProcess => exact ⟨rfl, h0, fun b hb hs => ⟨rfl, hb, hs⟩⟩

end Body

/-! ## A process by itself -/

section Process

variable {code : MergeCode} {p c : Process code} {shm : Arr} {l r lo hi : Int} {Q : Arr → Prop}

/-- An upper bound for the steps that an instruction leads to, those inside `merge` apart. -/
def Instr.weight : Instr → Nat
  | .fork l r => 5 + 4 * (r - l).toNat
  | .sort _ l r => 2 + 4 * (r - l).toNat
  | .merge _ _ _ => 3
  | _ => 1

def Process.weight (p : Process code) : Nat :=
  (p.prog.map Instr.weight).sum + MergeSort.weight p.stack

/-- The array that the process sorts. -/
def Process.current (p : Process code) (shmem : Arr) : Arr :=
  match p.target with
  | .arr => p.arr
  | .shmem => shmem

/-- The steps that a `merge` under way still takes. -/
noncomputable def Process.mergeLeft (p : Process code) (shmem : Arr) : Nat :=
  MergeSort.mergeLeft p.stack (p.current shmem)

/-- The first of two numbers goes down, or it stays and the second one goes down. -/
def Lower (w' m' w m : Nat) : Prop := w' < w ∨ w' = w ∧ m' < m

/-- The stack brings about `Q`, and with the array to itself the process takes its next step. -/
theorem taskStep_owned (hc : code.Correct) {a : Arr} {st : List (Frame code)} (h0 : 0 ≤ lo)
    (hw : Within lo hi st) (h : Will st Q a) (hne : st ≠ []) :
    ∃ st' a', taskStep st a = some (st', a') ∧ Within lo hi st' ∧ Will st' Q a' ∧
      Lower (MergeSort.weight st') (MergeSort.mergeLeft st' a') (MergeSort.weight st)
        (MergeSort.mergeLeft st a) := by
  cases hs : taskStep st a with
  | none => exact absurd (taskStep_eq_none_iff.mp hs) hne
  | some next =>
    obtain ⟨st', a'⟩ := next
    have howns : Owns lo hi st Q a := ⟨hw, a, h, fun _ _ _ => rfl⟩
    obtain ⟨-, -, hw'⟩ := taskStep_local hc h0 hw (fun _ _ _ => rfl) hs
    exact ⟨st', a', rfl, hw', h.step hc h0 hw hs, taskStep_decreases hc h0 howns hs⟩

/-- A process between two tasks goes on to its next instruction. -/
theorem Process.step_instr (hstack : p.stack = []) : p.step shm = p.instrStep shm := by
  have hreaches : p.reaches = true := by
    unfold Process.reaches
    rw [hstack]
    split
    · rename_i heq
      cases heq
    · rfl
  have htask : p.task shm = none := by
    unfold Process.task
    rw [hstack]
    cases p.target <;> rfl
  rw [Process.step, if_pos hreaches, htask]

theorem Process.instrStep_weight {p' : Process code} {shm' : Arr} (hstack : p.stack = [])
    (hs : p.instrStep shm = .ok (p', shm')) : p'.weight < p.weight := by
  rw [Process.instrStep] at hs
  split at hs <;> rename_i hprog
  · cases hs
    simp [Process.weight, hprog, Instr.weight]
  · split at hs <;> cases hs
    simp [Process.weight, hprog, Instr.weight]
  · split at hs <;> cases hs
    simp [Process.weight, hprog, Instr.weight]
  · cases hs
    simp only [Process.weight, hstack, hprog, MergeSort.weight, Instr.weight, Frame.weight,
      List.map_cons, List.map_nil, List.sum_cons, List.sum_nil]
    omega
  · cases hs
    simp only [Process.weight, hstack, hprog, MergeSort.weight, Instr.weight, Frame.weight,
      List.map_cons, List.map_nil, List.sum_cons, List.sum_nil]
    omega
  · cases hs
    simp [Process.weight, hprog, Instr.weight]
  · cases hs

theorem Process.step_arr {st : List (Frame code)} {a : Arr} (ht : p.target = .arr)
    (hs : taskStep p.stack p.arr = some (st, a)) :
    p.step shm = .ok ({ p with stack := st, arr := a }, shm) := by
  have hreaches : p.reaches = true := by
    unfold Process.reaches
    rw [ht]
  rw [Process.step, if_pos hreaches, Process.task, ht]
  simp only [hs, Option.map_some]

theorem Process.step_shmem {st : List (Frame code)} {a : Arr} (ht : p.target = .shmem)
    (hreaches : p.reaches = true) (hs : taskStep p.stack shm = some (st, a)) :
    p.step shm = .ok ({ p with stack := st }, a) := by
  rw [Process.step, if_pos hreaches, Process.task, ht]
  simp only [hs, Option.map_some]

/-- A range inside one that is in the segment is in it, too. -/
theorem inSegment_mono {seg : Option Int} (h : inSegment seg lo hi = true) (hl : lo ≤ l)
    (hr : r ≤ hi) : inSegment seg l r = true := by
  cases seg with
  | none => cases h
  | some bytes =>
    rw [inSegment, decide_eq_true_eq] at h ⊢
    omega

theorem inSegment_nonneg {seg : Option Int} (h : inSegment seg lo hi = true) : 0 ≤ lo := by
  cases seg with
  | none => cases h
  | some bytes =>
    rw [inSegment, decide_eq_true_eq] at h
    exact h.1

theorem Process.reaches_of_within (hseg : inSegment p.segment lo hi = true)
    (hw : Within lo hi p.stack) : p.reaches = true := by
  unfold Process.reaches
  split
  · rename_i l m r x rest _ hstack
    rw [hstack] at hw
    have hf := hw _ List.mem_cons_self
    exact inSegment_mono hseg hf.1 hf.2
  · rfl

/-- How far the child is with its range of the segment, which was `h` when it was given it. -/
inductive ChildOk (l r : Int) (h : Arr) (c : Process code) (shm : Arr) : Prop
  | created : c.prog = childBranch l r → c.stack = [] → inSegment c.segment l r = true → shm = h →
      ChildOk l r h c shm
  | sorting : c.prog = [.unmap] → c.target = .shmem → inSegment c.segment l r = true →
      Within l r c.stack → Will c.stack (fun b => Rearranges h b l r ∧ SortedOn b l r) shm →
      ChildOk l r h c shm
  | ended : c.Ended → Rearranges h shm l r → SortedOn shm l r → ChildOk l r h c shm

/-- The child takes a step or has exited. -/
theorem ChildOk.step (hc : code.Correct) {h : Arr} (hok : ChildOk l r h c shm) :
    (∃ c' shm', c.step shm = .ok (c', shm') ∧ ChildOk l r h c' shm' ∧
      Lower c'.weight (c'.mergeLeft shm') c.weight (c.mergeLeft shm)) ∨
    (c.step shm = .error .ended ∧ c.Ended) := by
  cases hok with
  | created hprog hstack hseg hshm =>
    refine Or.inl ⟨{ c with target := .shmem, stack := [.sort l r], prog := [.unmap] }, shm, ?_, ?_,
      ?_⟩
    · rw [Process.step_instr hstack, Process.instrStep, hprog]
      rfl
    · refine .sorting rfl rfl hseg ?_ ?_
      · intro f hf
        rw [List.mem_singleton.mp hf]
        exact ⟨Int.le_refl _, Int.le_refl _⟩
      · subst hshm
        exact fun b hb hs => ⟨hb, hs⟩
    · left
      simp only [Process.weight, hprog, hstack, childBranch, Instr.weight, MergeSort.weight,
        Frame.weight, List.map_cons, List.map_nil, List.sum_cons, List.sum_nil]
      omega
  | sorting hprog htarget hseg hwithin hwill =>
    left
    by_cases hstack : c.stack = []
    · rw [hstack] at hwill
      refine ⟨{ c with segment := none, prog := [] }, shm, ?_, .ended ⟨rfl, hstack⟩ hwill.1 hwill.2,
        ?_⟩
      · rw [Process.step_instr hstack, Process.instrStep, hprog]
      · left
        simp [Process.weight, hprog, Instr.weight]
    · obtain ⟨st, a, hs, hwithin', hwill', hlower⟩ :=
        taskStep_owned hc (inSegment_nonneg hseg) hwithin hwill hstack
      refine ⟨{ c with stack := st }, a,
        Process.step_shmem htarget (Process.reaches_of_within hseg hwithin) hs,
        .sorting hprog htarget hseg hwithin' hwill', ?_⟩
      simp only [Lower, Process.weight, Process.mergeLeft, Process.current, htarget] at hlower ⊢
      omega
  | ended hended _ _ =>
    refine Or.inr ⟨?_, hended⟩
    rw [Process.step_instr hended.2, Process.instrStep, hended.1]

end Process

/-! ## The invariant -/

section Sound

variable {code : MergeCode} {version : Version} {left right : Int} {a₀ g h : Arr}
  {s s' : State code} {lent : Option (Int × Int)} {t : Actor}

/-- The parent sees the segment as `h`, apart from the range that it has given to the child. -/
structure View (left right : Int) (a₀ : Arr) (s : State code) (lent : Option (Int × Int)) (h : Arr) :
    Prop where
  target : s.parent.target = .arr
  will : Will s.parent.stack
    (fun b => Plan left right a₀ s.parent.prog s.parent.segment lent b h) s.parent.arr
  within : ∃ hi, Within 0 hi s.parent.stack
  child : ∀ l r, lent = some (l, r) → ∃ c, s.child = some c ∧ ChildOk l r h c s.shmem
  idle : lent = none → s.shmem = h ∧ ∀ c ∈ s.child, c.Ended

/-- The invariant of a run. -/
def Inv (left right : Int) (a₀ : Arr) (s : State code) : Prop := ∃ lent h, View left right a₀ s lent h

def State.weight (s : State code) : Nat := s.parent.weight + s.child.elim 0 Process.weight

noncomputable def State.mergeLeft (s : State code) : Nat :=
  s.parent.mergeLeft s.shmem + s.child.elim 0 (fun c => c.mergeLeft s.shmem)

def Decreases (s' s : State code) : Prop := Lower s'.weight s'.mergeLeft s.weight s.mergeLeft

theorem inv_start (code : MergeCode) (version : Version) (a₀ : Arr) (h0 : 0 ≤ left)
    (hle : left ≤ right) : Inv left right a₀ (State.start code version a₀ left right) :=
  ⟨none, fun _ => 0, {
    target := rfl
    will := plan_body version a₀ _ h0 hle
    within := ⟨0, fun f hf => by cases hf⟩
    child := fun l r hl => by cases hl
    idle := fun _ => ⟨rfl, fun c hc => by cases hc⟩ }⟩

/-- The child takes a step, or has exited or not been created. -/
theorem View.child_step (hc : code.Correct) (hv : View left right a₀ s lent h) :
    (∃ s', s.step .child = .ok s' ∧ Inv left right a₀ s' ∧ Decreases s' s) ∨
    (s.step .child = .error .ended ∧ ∀ c ∈ s.child, c.Ended) := by
  cases hlent : lent with
  | none =>
    right
    refine ⟨?_, (hv.idle hlent).2⟩
    cases hchild : s.child with
    | none => simp only [State.step, hchild]
    | some c =>
      have hended := (hv.idle hlent).2 c hchild
      have hstep : c.step s.shmem = .error .ended := by
        rw [Process.step_instr hended.2, Process.instrStep, hended.1]
      simp only [State.step, hchild, hstep]
      rfl
  | some range =>
    obtain ⟨l, r⟩ := range
    obtain ⟨c, hchild, hok⟩ := hv.child l r hlent
    rcases hok.step hc with ⟨c', shm', hstep, hok', hlower⟩ | ⟨hstep, hended⟩
    · left
      refine ⟨{ s with child := some c', shmem := shm' }, ?_, ⟨lent, h, ?_⟩, ?_⟩
      · simp only [State.step, hchild, hstep]
        rfl
      · refine { target := hv.target, will := hv.will, within := hv.within, child := ?_, idle := ?_ }
        · intro l' r' hlent'
          rw [hlent] at hlent'
          cases hlent'
          exact ⟨c', rfl, hok'⟩
        · intro hnone
          rw [hlent] at hnone
          cases hnone
      · have hparent : s.parent.mergeLeft shm' = s.parent.mergeLeft s.shmem := by
          unfold Process.mergeLeft Process.current
          rw [hv.target]
        simp only [Lower, Decreases, State.weight, State.mergeLeft, hchild, Option.elim, hparent]
          at hlower ⊢
        omega
    · right
      refine ⟨?_, ?_⟩
      · simp only [State.step, hchild, hstep]
        rfl
      · intro c' hc'
        rw [hchild] at hc'
        cases hc'
        exact hended

section Parent

variable {p : Process code} {shm h' : Arr} {prog : List Instr} {instr : Instr}

/-- A step of the parent that leaves the child alone. -/
theorem View.of_parent (hv : View left right a₀ s lent h) (htarget : p.target = .arr)
    (hwill : Will p.stack (fun b => Plan left right a₀ p.prog p.segment lent b h') p.arr)
    (hwithin : ∃ hi, Within 0 hi p.stack) (hshm : lent = none ∧ shm = h' ∨ shm = s.shmem ∧ h' = h) :
    View left right a₀ { s with parent := p, shmem := shm } lent h' where
  target := htarget
  will := hwill
  within := hwithin
  child l r hlent := by
    rcases hshm with ⟨hnone, -⟩ | ⟨rfl, rfl⟩
    · rw [hnone] at hlent
      cases hlent
    · exact hv.child l r hlent
  idle hnone := by
    obtain ⟨hshmem, hended⟩ := hv.idle hnone
    refine ⟨?_, hended⟩
    rcases hshm with ⟨-, rfl⟩ | ⟨rfl, rfl⟩
    · rfl
    · exact hshmem

theorem decreases_of_weight (hw : p.weight < s.parent.weight) :
    Decreases { s with parent := p, shmem := shm } s :=
  Or.inl (Nat.add_lt_add_right hw _)

theorem State.step_parent_instr (hstack : s.parent.stack = []) (hprog : s.parent.prog = instr :: prog)
    (hfork : ∀ l r, instr ≠ .fork l r) (hwait : instr ≠ .wait)
    (hs : s.parent.instrStep s.shmem = .ok (p, shm)) :
    s.step .parent = .ok { s with parent := p, shmem := shm } := by
  have hstep := (@Process.step_instr _ _ s.shmem hstack).trans hs
  rw [State.step]
  split
  · rename_i l r rest _ heq
    rw [hprog] at heq
    cases heq
    exact absurd rfl (hfork l r)
  · rename_i rest _ heq
    rw [hprog] at heq
    cases heq
    exact absurd rfl hwait
  · rw [hstep]
    rfl

theorem View.parent_task (hc : code.Correct) (hv : View left right a₀ s lent h)
    (hstack : s.parent.stack ≠ []) :
    ∃ s', s.step .parent = .ok s' ∧ Inv left right a₀ s' ∧ Decreases s' s := by
  obtain ⟨hi, hwithin⟩ := hv.within
  obtain ⟨st, a, hs, hwithin', hwill, hlower⟩ :=
    taskStep_owned hc (Int.le_refl 0) hwithin hv.will hstack
  refine ⟨{ s with parent := { s.parent with stack := st, arr := a } }, ?_, ⟨lent, h, ?_⟩, ?_⟩
  · rw [State.step]
    split
    · rename_i hnil _
      exact absurd hnil hstack
    · rename_i hnil _
      exact absurd hnil hstack
    · rw [Process.step_arr hv.target hs]
      rfl
  · exact hv.of_parent hv.target hwill ⟨hi, hwithin'⟩ (Or.inr ⟨rfl, rfl⟩)
  · simp only [Lower, Decreases, State.weight, State.mergeLeft, Process.weight, Process.mergeLeft,
      Process.current, hv.target] at hlower ⊢
    omega

/-- An instruction that is for the parent alone has been done. -/
theorem View.own_instr (hv : View left right a₀ s lent h) (hstack : s.parent.stack = [])
    (hprog : s.parent.prog = instr :: prog) (hfork : ∀ l r, instr ≠ .fork l r)
    (hwait : instr ≠ .wait) (hs : s.parent.instrStep s.shmem = .ok (p, shm))
    (htarget : p.target = .arr)
    (hwill : Will p.stack (fun b => Plan left right a₀ p.prog p.segment lent b h') p.arr)
    (hwithin : ∃ hi, Within 0 hi p.stack) (hshm : lent = none ∧ shm = h' ∨ shm = s.shmem ∧ h' = h) :
    ∃ s', s.step .parent = .ok s' ∧ Inv left right a₀ s' ∧ Decreases s' s :=
  ⟨_, State.step_parent_instr hstack hprog hfork hwait hs,
    ⟨lent, h', hv.of_parent htarget hwill hwithin hshm⟩,
    decreases_of_weight (Process.instrStep_weight hstack hs)⟩

/-- The parent does an instruction or waits for the child. -/
theorem View.parent_instr (hv : View left right a₀ s lent h) (hstack : s.parent.stack = [])
    (hprog : s.parent.prog = instr :: prog) :
    (∃ s', s.step .parent = .ok s' ∧ Inv left right a₀ s' ∧ Decreases s' s) ∨
    (s.step .parent = .error .waits ∧ ∃ c ∈ s.child, ¬ c.Ended) := by
  have hwill := hv.will
  rw [hstack, hprog] at hwill
  have hno : ∃ hi, Within 0 hi s.parent.stack := by
    rw [hstack]
    exact ⟨0, fun f hf => by cases hf⟩
  have hone : ∀ f : Frame code, 0 ≤ f.lo → ∃ hi, Within 0 hi [f] := by
    intro f hf
    refine ⟨f.hi, fun f' hf' => ?_⟩
    rw [List.mem_singleton.mp hf']
    exact ⟨hf, Int.le_refl _⟩
  cases instr with
  | map bytes =>
    left
    have hs : s.parent.instrStep s.shmem =
        .ok ({ s.parent with segment := some (roundUp bytes), prog := prog }, s.shmem) := by
      rw [Process.instrStep, hprog]
    refine hv.own_instr hstack hprog (by simp) (by simp) hs hv.target ?_ hno (Or.inr ⟨rfl, rfl⟩)
    rw [hstack]
    exact hwill
  | store i j =>
    left
    obtain ⟨hseg, hnone, hplan⟩ := hwill
    have hs : s.parent.instrStep s.shmem =
        .ok ({ s.parent with prog := prog }, Function.update s.shmem i (s.parent.arr j)) := by
      rw [Process.instrStep, hprog]
      exact if_pos hseg
    refine hv.own_instr hstack hprog (by simp) (by simp) hs hv.target ?_ hno (Or.inl ⟨hnone, rfl⟩)
    rw [hstack, (hv.idle hnone).1]
    exact hplan
  | load i j =>
    left
    obtain ⟨hseg, hnone, hplan⟩ := hwill
    have hs : s.parent.instrStep s.shmem =
        .ok ({ s.parent with arr := Function.update s.parent.arr i (s.shmem j), prog := prog },
          s.shmem) := by
      rw [Process.instrStep, hprog]
      exact if_pos hseg
    refine hv.own_instr hstack hprog (by simp) (by simp) hs hv.target ?_ hno (Or.inr ⟨rfl, rfl⟩)
    rw [hstack, (hv.idle hnone).1]
    exact hplan
  | fork l r =>
    left
    obtain ⟨hnone, hseg, hplan⟩ := hwill
    have hshmem := (hv.idle hnone).1
    refine ⟨{ s with
      parent := { s.parent with prog := prog }
      child := some { s.parent with prog := childBranch l r } }, ?_, ⟨some (l, r), h, ?_⟩, ?_⟩
    · simp only [State.step, hstack, hprog]
    · refine { target := hv.target, will := ?_, within := hno, child := ?_, idle := ?_ }
      · rw [hstack]
        exact hplan
      · intro l' r' hlent
        cases hlent
        exact ⟨_, rfl, .created rfl hstack hseg hshmem⟩
      · intro hsome
        cases hsome
    · left
      simp only [State.weight, Process.weight, hstack, hprog, childBranch, Instr.weight,
        MergeSort.weight, List.map_cons, List.map_nil, List.sum_cons, List.sum_nil, Option.elim]
      omega
  | sort target l r =>
    left
    obtain ⟨rfl, h0, hplan⟩ := hwill
    have hs : s.parent.instrStep s.shmem =
        .ok ({ s.parent with target := .arr, stack := [.sort l r], prog := prog }, s.shmem) := by
      rw [Process.instrStep, hprog]
    exact hv.own_instr hstack hprog (by simp) (by simp) hs rfl hplan (hone _ h0) (Or.inr ⟨rfl, rfl⟩)
  | wait =>
    obtain ⟨l, r, hlent, hplan⟩ := hwill
    obtain ⟨c, hchild, hok⟩ := hv.child l r hlent
    by_cases hended : c.Ended
    · left
      have hall : ∀ c' ∈ s.child, c'.Ended := by
        intro c' hc'
        rw [hchild] at hc'
        cases hc'
        exact hended
      have hsorted : Rearranges h s.shmem l r ∧ SortedOn s.shmem l r := by
        cases hok with
        | created hp => exact absurd (hp.symm.trans hended.1) (List.cons_ne_nil _ _)
        | sorting hp => exact absurd (hp.symm.trans hended.1) (List.cons_ne_nil _ _)
        | ended _ hb hs => exact ⟨hb, hs⟩
      refine ⟨{ s with parent := { s.parent with prog := prog } }, ?_, ⟨none, s.shmem, ?_⟩,
        decreases_of_weight ?_⟩
      · simp only [State.step, hstack, hprog]
        exact if_pos hall
      · refine { target := hv.target, will := ?_, within := hno, child := ?_, idle := ?_ }
        · rw [hstack]
          exact hplan s.shmem hsorted.1 hsorted.2
        · intro l' r' hnone
          cases hnone
        · exact fun _ => ⟨rfl, hall⟩
      · simp [Process.weight, hprog, Instr.weight]
    · right
      refine ⟨?_, c, hchild, hended⟩
      simp only [State.step, hstack, hprog]
      exact if_neg fun hall => hended (hall c hchild)
  | merge l m r =>
    left
    obtain ⟨h0, hmerge, hplan⟩ := hwill
    have hs : s.parent.instrStep s.shmem =
        .ok ({ s.parent with target := .arr, stack := [.merge l m r], prog := prog }, s.shmem) := by
      rw [Process.instrStep, hprog]
    exact hv.own_instr hstack hprog (by simp) (by simp) hs rfl ⟨hmerge, hplan⟩ (hone _ h0)
      (Or.inr ⟨rfl, rfl⟩)
  | unmap =>
    left
    have hs : s.parent.instrStep s.shmem =
        .ok ({ s.parent with segment := none, prog := prog }, s.shmem) := by
      rw [Process.instrStep, hprog]
    refine hv.own_instr hstack hprog (by simp) (by simp) hs hv.target ?_ hno (Or.inr ⟨rfl, rfl⟩)
    rw [hstack]
    exact hwill

/-- The parent takes a step, waits for the child or has returned. -/
theorem View.parent_step (hc : code.Correct) (hv : View left right a₀ s lent h) :
    (∃ s', s.step .parent = .ok s' ∧ Inv left right a₀ s' ∧ Decreases s' s) ∨
    (s.step .parent = .error .waits ∧ ∃ c ∈ s.child, ¬ c.Ended) ∨
    (s.step .parent = .error .ended ∧ s.Finished) := by
  by_cases hstack : s.parent.stack = []
  · cases hprog : s.parent.prog with
    | nil =>
      refine Or.inr (Or.inr ⟨?_, hprog, hstack⟩)
      have hstep : s.parent.step s.shmem = .error .ended := by
        rw [Process.step_instr hstack, Process.instrStep, hprog]
      simp only [State.step, hstack, hprog, hstep]
      rfl
    | cons instr prog =>
      rcases hv.parent_instr hstack hprog with hok | hwaits
      · exact Or.inl hok
      · exact Or.inr (Or.inl hwaits)
  · exact Or.inl (hv.parent_task hc hstack)

end Parent

/-- What a step leads to, whichever process takes it. -/
theorem Inv.step_cases (hc : code.Correct) (hinv : Inv left right a₀ s) (t : Actor) :
    (∃ s', s.step t = .ok s' ∧ Inv left right a₀ s' ∧ Decreases s' s) ∨
    s.step t = .error .waits ∨ s.step t = .error .ended := by
  obtain ⟨lent, h, hv⟩ := hinv
  cases t with
  | parent =>
    rcases hv.parent_step hc with hok | ⟨hwaits, -⟩ | ⟨hended, -⟩
    · exact Or.inl hok
    · exact Or.inr (Or.inl hwaits)
    · exact Or.inr (Or.inr hended)
  | child =>
    rcases hv.child_step hc with hok | ⟨hended, -⟩
    · exact Or.inl hok
    · exact Or.inr (Or.inr hended)

theorem Inv.step (hc : code.Correct) (hinv : Inv left right a₀ s) (hs : s.step t = .ok s') :
    Inv left right a₀ s' ∧ Decreases s' s := by
  rcases hinv.step_cases hc t with ⟨s'', hok, hinv', hlower⟩ | hwaits | hended
  · rw [hs] at hok
    cases hok
    exact ⟨hinv', hlower⟩
  · rw [hs] at hwaits
    cases hwaits
  · rw [hs] at hended
    cases hended

theorem Inv.no_fault (hc : code.Correct) (hinv : Inv left right a₀ s) (t : Actor) :
    s.step t ≠ .error .fault := by
  intro hfault
  rcases hinv.step_cases hc t with ⟨s', hok, -⟩ | hwaits | hended
  · rw [hfault] at hok
    cases hok
  · rw [hfault] at hwaits
    cases hwaits
  · rw [hfault] at hended
    cases hended

/-- As long as the parent has not returned, one of the processes can take a step. -/
theorem Inv.progress (hc : code.Correct) (hinv : Inv left right a₀ s) (hfin : ¬ s.Finished) :
    ∃ t s', s.step t = .ok s' := by
  obtain ⟨lent, h, hv⟩ := hinv
  rcases hv.parent_step hc with ⟨s', hok, -⟩ | ⟨-, c, hchild, hrunning⟩ | ⟨-, hended⟩
  · exact ⟨.parent, s', hok⟩
  · rcases hv.child_step hc with ⟨s', hok, -⟩ | ⟨-, hall⟩
    · exact ⟨.child, s', hok⟩
    · exact absurd (hall c hchild) hrunning
  · exact absurd hended hfin

theorem Inv.finished (hinv : Inv left right a₀ s) (hfin : s.Finished) :
    Rearranges a₀ s.parent.arr left right ∧ SortedOn s.parent.arr left right := by
  obtain ⟨lent, h, hv⟩ := hinv
  have hwill := hv.will
  rw [hfin.1, hfin.2] at hwill
  exact ⟨hwill.2.1, hwill.2.2⟩

theorem ProcReachable.inv (hc : code.Correct) (h0 : 0 ≤ left) (hle : left ≤ right)
    (hr : ProcReachable code version a₀ left right s) : Inv left right a₀ s :=
  Reachable.invariant (inv_start code version a₀ h0 hle)
    (fun _ _ _ _ hinv _ hs => (hinv.step hc hs).1) s hr

end Sound

/-- Both versions of `multiProcessMergeSort`, and `singleProcessMergeSort`, sort the range and leave
the other elements as they were, whatever the order in which the parent and the child take their
steps; they stay in the segment and come to an end, and all of them with the same array. -/
theorem multiProcessMergeSort_sorts {code : MergeCode} (hc : code.Correct) (version : Version)
    (a₀ : Arr) {left right : Int} (h0 : 0 ≤ left) (hle : left ≤ right) :
    (∀ s, ProcReachable code version a₀ left right s →
      (∀ t, s.step t ≠ .error .fault) ∧
      (s.Finished → Rearranges a₀ s.parent.arr left right ∧ SortedOn s.parent.arr left right) ∧
      (¬ s.Finished → ∃ t s', s.step t = .ok s')) ∧
    Acc (Next State.step fun _ _ => True) (State.start code version a₀ left right) ∧
    ∀ version' s s', ProcReachable code version a₀ left right s → s.Finished →
      ProcReachable code version' a₀ left right s' → s'.Finished →
        s'.parent.arr = s.parent.arr := by
  refine ⟨fun s hr => ?_, ?_, fun version' s s' hr hfin hr' hfin' => ?_⟩
  · have hinv := hr.inv hc h0 hle
    exact ⟨hinv.no_fault hc, hinv.finished, hinv.progress hc⟩
  · have hwf : WellFounded (Prod.Lex (· < · : Nat → Nat → Prop) (· < · : Nat → Nat → Prop)) :=
      (Prod.lex Nat.lt_wfRel Nat.lt_wfRel).wf
    have hdown : ∀ s t s', ProcReachable code version a₀ left right s → True →
        State.step s t = .ok s' →
        Prod.Lex (· < ·) (· < ·) (s'.weight, s'.mergeLeft) (s.weight, s.mergeLeft) :=
      fun s t s' hr _ hs => Prod.lex_def.mpr ((ProcReachable.inv hc h0 hle hr).step hc hs).2
    exact Reachable.acc hwf (fun s : State code => (s.weight, s.mergeLeft)) hdown .start
  · obtain ⟨hb, hs⟩ := (hr.inv hc h0 hle).finished hfin
    obtain ⟨hb', hs'⟩ := (hr'.inv hc h0 hle).finished hfin'
    funext i
    by_cases hi : left ≤ i ∧ i ≤ right
    · exact hs'.agreeOn hs (hb'.perm.trans hb.perm.symm) i hi.1 hi.2
    · rw [hb'.frame i (by omega), hb.frame i (by omega)]

theorem multiProcessMergeSort_sorts_six : ∃ s,
    ProcReachable sortingMerge .psort (fun i => -i) 1 6 s ∧ s.Finished ∧
      SortedOn s.parent.arr 1 6 := by
  obtain ⟨hall, hacc, -⟩ := multiProcessMergeSort_sorts sortingMerge_correct .psort (fun i => -i)
    (by decide : (0 : Int) ≤ 1) (by decide : (1 : Int) ≤ 6)
  have hprogress : ∀ s, ProcReachable sortingMerge .psort (fun i => -i) 1 6 s → ¬ s.Finished →
      ∃ s', Next State.step (fun _ _ => True) s' s := by
    intro s hr hfin
    obtain ⟨t, s', hs⟩ := (hall s hr).2.2 hfin
    exact ⟨s', t, trivial, hs⟩
  obtain ⟨s, hr, hfin⟩ := Reachable.exists_of_acc hacc hprogress
  exact ⟨s, hr, hfin, ((hall s hr).2.1 hfin).2⟩

end CSE130.MergeSort.Processes
