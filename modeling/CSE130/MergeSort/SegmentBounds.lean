import CSE130.MergeSort.IndexRange
import CSE130.MergeSort.ProcessSort
import Mathlib.Algebra.Ring.Int.Defs
import Mathlib.Tactic.ByContra

/-!
# The shared segment and the bytes that are requested

The system maps whole pages, so that an access a little behind the bytes that were requested goes
unnoticed. Here the segment has just these bytes, and a request that cannot succeed gives none. The
functions request half of the bytes of the range, rounded down, and use half of its elements, rounded
up. Both numbers are made of `int`s; where one of these does not fit, C says nothing of what is
requested and used, and this counts as leaving the request.
-/

namespace CSE130.MergeSort.Processes

open Library

variable {code : MergeCode}

/-- The number of bytes as it is passed: `sizeof (int)` makes the product a `size_t` before it is
halved. -/
def asSize (bytes : Int) : Int := 2 * bytes % 2 ^ 64 / 2

/-- The segment of a request. `mmap` and `shmget` fail for no bytes, and for more than fit into the
address space. -/
def granted (bytes : Int) : Option Int :=
  if 0 < asSize bytes ∧ asSize bytes < 2 ^ 47 then some (asSize bytes) else none

/-- A step where the segment has just the bytes that are requested. -/
def State.exactStep (s : State code) (t : Actor) : Except NoStep (State code) :=
  match t, s.parent.stack, s.parent.prog with
  | .parent, [], .map bytes :: prog =>
    .ok { s with parent := { s.parent with segment := granted bytes, prog := prog } }
  | t, _, _ => s.step t

/-- The states that a call of the function can be in. -/
abbrev ExactReachable (code : MergeCode) (version : Version) (arr : Arr) (left right : Int) :
    State code → Prop :=
  Reachable State.exactStep (fun _ _ => True) (State.start code version arr left right)

/-- Neither process ever uses an element of `shmem` outside of the bytes that are requested. -/
def InRequest (code : MergeCode) (version : Version) (arr : Arr) (left right : Int) : Prop :=
  ∀ s, ExactReachable code version arr left right s → ∀ t, s.exactStep t ≠ .error .fault

/-- The `int` expressions of the part that the two versions share, from the number of bytes to the
call of `merge` (`psort.c:48-68`, `usort.c:44-69`). -/
def sortInHalvesExprs (left right : Int) : List Int :=
  let mid := (left + right).tdiv 2
  let relMid := mid - left + 1
  let relRight := 1 + (right - left)
  [right - left, 1 + (right - left), left + right, mid, mid - left, relMid, relMid - 1,
    left + relMid, left + relRight, left + relRight - 1]

/-- The `int` expressions in the body of the function. -/
def Version.exprs (left right : Int) : Version → List Int
  | psort => sortInHalvesExprs left right
  | usort => if right - left ≤ 0 then [right - left] else sortInHalvesExprs left right
  | singleProcess => []

/-- What the function requests and uses is determined, in the body and in the sort of the child, and
the uses are within the request. The indices of the sort of `arr` are left to `SingleFits`. -/
structure StaysInRequest (code : MergeCode) (version : Version) (arr : Arr) (left right : Int) :
    Prop where
  body : ∀ x ∈ version.exprs left right, FitsInt x
  child : ∀ l r, Instr.fork l r ∈ version.body left right → ∀ a, SingleFits code a l r
  inRequest : InRequest code version arr left right

/-! ## What lies in the segment -/

section InSegment

variable {seg : Option Int} {st st' : List (Frame code)} {a a' shm : Arr} {p : Process code}

/-- What a call in the segment will use is there. -/
def Frame.InSeg (seg : Option Int) : Frame code → Prop
  | .sort left right => 0 ≤ left ∧ (left < right → inSegment seg left right = true)
  | .merge l _ r | .merging l _ r _ => inSegment seg l r = true

def Instr.InSeg (seg : Option Int) : Instr → Prop
  | .map _ => False
  | .store i _ => inSegment seg i i = true
  | .load _ j => inSegment seg j j = true
  | .fork left right | .sort .shmem left right =>
    0 ≤ left ∧ (left < right → inSegment seg left right = true)
  | .sort .arr _ _ | .wait | .merge _ _ _ | .unmap => True

/-- What a process will do is in the segment, and nothing comes after this has been detached. -/
def ProgOk (seg : Option Int) : List Instr → Prop
  | [] => True
  | .unmap :: prog => prog = []
  | instr :: prog => instr.InSeg seg ∧ ProgOk seg prog

/-- A process that has the segment, or that has ended. -/
def Process.InSeg (seg : Option Int) (p : Process code) : Prop :=
  p.segment = seg ∧ (p.target = .shmem → ∀ f ∈ p.stack, Frame.InSeg seg f) ∧ ProgOk seg p.prog ∨
    p.stack = [] ∧ p.prog = []

theorem taskStep_inSeg (h : ∀ f ∈ st, Frame.InSeg seg f) (hs : taskStep st a = some (st', a')) :
    ∀ f ∈ st', Frame.InSeg seg f := by
  rcases st with _ | ⟨⟨left, right⟩ | ⟨l, m, r⟩ | ⟨l, m, r, x⟩, rest⟩
  · cases hs
  · obtain ⟨hnonneg, hseg⟩ := h _ List.mem_cons_self
    have hrest : ∀ f ∈ rest, Frame.InSeg seg f := fun f hf => h f (List.mem_cons_of_mem _ hf)
    rw [taskStep] at hs
    split_ifs at hs with hlt
    · cases hs
      obtain ⟨hleft, hright⟩ := middle_bounds hnonneg hlt
      have hall := hseg hlt
      intro f hf
      simp only [List.mem_cons] at hf
      rcases hf with rfl | rfl | rfl | hf
      · exact ⟨hnonneg, fun _ => inSegment_mono hall (Int.le_refl _) (by omega)⟩
      · exact ⟨by omega, fun _ => inSegment_mono hall (by omega) (Int.le_refl _)⟩
      · exact hall
      · exact hrest f hf
    · cases hs
      exact hrest
  · cases hs
    intro f hf
    rcases List.mem_cons.mp hf with rfl | hf
    · exact h (.merge l m r) List.mem_cons_self
    · exact h f (List.mem_cons_of_mem _ hf)
  · rw [taskStep] at hs
    split at hs
    · cases hs
      intro f hf
      rcases List.mem_cons.mp hf with rfl | hf
      · exact h (.merging l m r x) List.mem_cons_self
      · exact h f (List.mem_cons_of_mem _ hf)
    · cases hs
      exact fun f hf => h f (List.mem_cons_of_mem _ hf)

theorem Process.InSeg.reaches (h : p.InSeg seg) : p.reaches = true := by
  unfold Process.reaches
  split
  · rename_i l m r x rest htarget hstack
    rcases h with ⟨rfl, hframes, -⟩ | ⟨hempty, -⟩
    · exact hframes htarget (.merging l m r x) (by rw [hstack]; exact List.mem_cons_self)
    · rw [hempty] at hstack
      cases hstack
  · rfl

/-- A step inside a sort or a merge. -/
theorem Process.InSeg.task {p' : Process code} {shm' : Arr} (h : p.InSeg seg)
    (hs : p.task shm = some (p', shm')) : p'.InSeg seg := by
  unfold Process.task at hs
  split at hs <;> rename_i htarget <;>
    obtain ⟨⟨st', a'⟩, htask, heq⟩ := Option.map_eq_some_iff.mp hs <;> cases heq
  · rcases h with ⟨hseg, -, hprog⟩ | ⟨hempty, -⟩
    · refine Or.inl ⟨hseg, fun hshmem => ?_, hprog⟩
      cases htarget.symm.trans hshmem
    · rw [hempty] at htask
      cases htask
  · rcases h with ⟨hseg, hframes, hprog⟩ | ⟨hempty, -⟩
    · exact Or.inl ⟨hseg, fun _ => taskStep_inSeg (hframes htarget) htask, hprog⟩
    · rw [hempty] at htask
      cases htask

/-- The next instruction of a process that is not inside of a sort or a merge. -/
theorem Process.InSeg.instrStep (h : p.InSeg seg) (hstack : p.stack = []) :
    p.instrStep shm ≠ .error .fault ∧
      ∀ p' shm', p.instrStep shm = .ok (p', shm') → p'.InSeg seg := by
  rcases h with ⟨rfl, -, hprog⟩ | ⟨-, hprog⟩
  swap
  · rw [Process.instrStep, hprog]
    exact ⟨by simp, by simp⟩
  have hframes : p.target = .shmem → ∀ f ∈ p.stack, Frame.InSeg p.segment f := by
    simp [hstack]
  unfold Process.instrStep
  cases hp : p.prog with
  | nil => exact ⟨by simp, by simp⟩
  | cons instr prog =>
    rw [hp] at hprog
    cases instr with
    | map bytes => exact hprog.1.elim
    | store i j =>
      have hin : inSegment p.segment i i = true := hprog.1
      simp only [hin, if_true]
      refine ⟨by simp, fun p' shm' h => ?_⟩
      cases h
      exact Or.inl ⟨rfl, hframes, hprog.2⟩
    | load i j =>
      have hin : inSegment p.segment j j = true := hprog.1
      simp only [hin, if_true]
      refine ⟨by simp, fun p' shm' h => ?_⟩
      cases h
      exact Or.inl ⟨rfl, hframes, hprog.2⟩
    | fork left right => exact ⟨by simp, by simp⟩
    | sort target left right =>
      refine ⟨by simp, fun p' shm' h => ?_⟩
      cases h
      refine Or.inl ⟨rfl, ?_, hprog.2⟩
      rintro rfl f hf
      cases List.mem_singleton.mp hf
      exact hprog.1
    | wait => exact ⟨by simp, by simp⟩
    | merge l m r =>
      refine ⟨by simp, fun p' shm' h => ?_⟩
      cases h
      exact Or.inl ⟨rfl, by simp, hprog.2⟩
    | unmap =>
      refine ⟨by simp, fun p' shm' h => ?_⟩
      cases h
      exact Or.inr ⟨hstack, hprog⟩

/-- A process that keeps to the segment goes on to keep to it. -/
theorem Process.InSeg.step (h : p.InSeg seg) : p.step shm ≠ .error .fault ∧
    ∀ p' shm', p.step shm = .ok (p', shm') → p'.InSeg seg := by
  rw [Process.step, if_pos h.reaches]
  cases htask : p.task shm with
  | some next =>
    refine ⟨by simp, fun p' shm' hs => ?_⟩
    cases hs
    exact h.task htask
  | none =>
    have hnone : ∃ a, taskStep p.stack a = none := by
      unfold Process.task at htask
      split at htask
      · exact ⟨_, Option.map_eq_none_iff.mp htask⟩
      · exact ⟨_, Option.map_eq_none_iff.mp htask⟩
    obtain ⟨a, ha⟩ := hnone
    exact h.instrStep (taskStep_eq_none_iff.mp ha)

end InSegment

/-! ## Runs that keep to the segment -/

section Runs

variable {s s' : State code} {seg : Option Int} {t : Actor}

/-- The segment has not been requested yet, or both processes keep to it. -/
inductive State.InSeg (seg : Option Int) (s : State code) : Prop
  | unmapped (bytes : Int) (prog : List Instr) : s.parent.stack = [] →
      s.parent.prog = .map bytes :: prog → granted bytes = seg → ProgOk seg prog → s.child = none →
      InSeg seg s
  | mapped : s.parent.InSeg seg → (∀ c ∈ s.child, c.InSeg seg) → InSeg seg s

/-- A step of the parent after the request. -/
theorem State.step_parent_inSeg (hparent : s.parent.InSeg seg) (hchild : ∀ c ∈ s.child, c.InSeg seg) :
    s.step .parent ≠ .error .fault ∧ ∀ s', s.step .parent = .ok s' → s'.InSeg seg := by
  rw [State.step]
  split
  · rename_i left right prog hstack hprog
    refine ⟨by simp, fun s' hs => ?_⟩
    cases hs
    rcases hparent with ⟨hseg, hframes, hok⟩ | ⟨-, hempty⟩
    · rw [hprog] at hok
      refine .mapped (Or.inl ⟨hseg, hframes, hok.2⟩) ?_
      intro c hc
      cases hc
      exact Or.inl ⟨hseg, hframes, hok.1, rfl⟩
    · rw [hprog] at hempty
      cases hempty
  · rename_i prog hstack hprog
    split
    · refine ⟨by simp, fun s' hs => ?_⟩
      cases hs
      rcases hparent with ⟨hseg, hframes, hok⟩ | ⟨-, hempty⟩
      · rw [hprog] at hok
        exact .mapped (Or.inl ⟨hseg, hframes, hok.2⟩) hchild
      · rw [hprog] at hempty
        cases hempty
    · exact ⟨by simp, by simp⟩
  · obtain ⟨hfault, hok⟩ := @Process.InSeg.step _ seg s.shmem s.parent hparent
    cases hp : s.parent.step s.shmem with
    | error e =>
      rw [hp] at hfault
      refine ⟨fun h => ?_, by simp⟩
      cases h
      exact hfault rfl
    | ok next =>
      refine ⟨by simp, fun s' hs => ?_⟩
      cases hs
      exact .mapped (hok _ _ hp) hchild

theorem State.step_child_inSeg (hparent : s.parent.InSeg seg) (hchild : ∀ c ∈ s.child, c.InSeg seg) :
    s.step .child ≠ .error .fault ∧ ∀ s', s.step .child = .ok s' → s'.InSeg seg := by
  rw [State.step]
  cases hc : s.child with
  | none => exact ⟨by simp, by simp⟩
  | some c =>
    obtain ⟨hfault, hok⟩ := @Process.InSeg.step _ seg s.shmem c (hchild c hc)
    cases hp : c.step s.shmem with
    | error e =>
      rw [hp] at hfault
      simp only [hp]
      refine ⟨fun h => ?_, by simp⟩
      cases h
      exact hfault rfl
    | ok next =>
      simp only [hp]
      refine ⟨by simp, fun s' hs => ?_⟩
      cases hs
      refine .mapped hparent fun c' hc' => ?_
      cases hc'
      exact hok _ _ hp

theorem State.exactStep_map {bytes : Int} {prog : List Instr} (hstack : s.parent.stack = [])
    (hprog : s.parent.prog = .map bytes :: prog) : s.exactStep .parent =
      .ok { s with parent := { s.parent with segment := granted bytes, prog := prog } } := by
  unfold State.exactStep
  simp only [hstack, hprog]

theorem State.exactStep_store {i j : Int} {prog : List Instr} (hstack : s.parent.stack = [])
    (hprog : s.parent.prog = .store i j :: prog) : s.exactStep .parent =
      if inSegment s.parent.segment i i then
        .ok { s with
          parent := { s.parent with prog := prog }
          shmem := Function.update s.shmem i (s.parent.arr j) }
      else .error .fault := by
  have hstep : s.exactStep .parent = s.step .parent := by
    unfold State.exactStep
    simp only [hstack, hprog]
  rw [hstep, State.step]
  simp only [hstack, hprog]
  rw [Process.step_instr hstack, Process.instrStep]
  simp only [hprog]
  split_ifs
  · rw [hstack]
    rfl
  · rfl

theorem State.InSeg.exactStep (h : s.InSeg seg) (t : Actor) : s.exactStep t ≠ .error .fault ∧
    ∀ s', s.exactStep t = .ok s' → s'.InSeg seg := by
  cases h with
  | unmapped bytes prog hstack hprog hseg hok hchild =>
    cases t with
    | parent =>
      rw [State.exactStep_map hstack hprog]
      refine ⟨by simp, fun s' hs => ?_⟩
      cases hs
      exact .mapped (Or.inl ⟨hseg, by simp [hstack], hok⟩) (by simp [hchild])
    | child =>
      have hstep : s.exactStep .child = .error .ended := by
        rw [State.exactStep, State.step, hchild]
        simp
      rw [hstep]
      exact ⟨by simp, by simp⟩
  | mapped hparent hchild =>
    have hstep : s.exactStep t = s.step t := by
      unfold State.exactStep
      split
      · rename_i bytes prog hstack hprog
        rcases hparent with ⟨-, -, hok⟩ | ⟨-, hempty⟩
        · rw [hprog] at hok
          exact hok.1.elim
        · rw [hprog] at hempty
          cases hempty
      · rfl
    rw [hstep]
    cases t with
    | parent => exact State.step_parent_inSeg hparent hchild
    | child => exact State.step_child_inSeg hparent hchild

theorem State.InSeg.stays {version : Version} {arr : Arr} {left right : Int}
    (h : (State.start code version arr left right).InSeg seg) :
    InRequest code version arr left right := by
  have hall : ∀ s, ExactReachable code version arr left right s → s.InSeg seg :=
    Reachable.invariant h fun s t s' _ hinv _ hs => (hinv.exactStep t).2 s' hs
  exact fun s hs t => ((hall s hs).exactStep t).1

/-- From a run without faults the parent comes to its `i`-th store. -/
theorem reaches_store {version : Version} {arr : Arr} {left right : Int} {bytes : Int}
    {prog : List Instr} {n : Nat}
    (hbody : version.body left right = .map bytes ::
      ((List.range n).map (fun i : Nat => Instr.store i (i + left)) ++ prog))
    (hstays : InRequest code version arr left right) (i : Nat) (hi : i ≤ n) :
    ∃ s, ExactReachable code version arr left right s ∧ s.parent.stack = [] ∧
      s.parent.segment = granted bytes ∧
      s.parent.prog =
        ((List.range n).drop i).map (fun i : Nat => Instr.store i (i + left)) ++ prog := by
  induction i with
  | zero =>
    have hmap := @State.exactStep_map _ (State.start code version arr left right) bytes _ rfl hbody
    exact ⟨_, .step .start trivial hmap, rfl, rfl, rfl⟩
  | succ i ih =>
    obtain ⟨s, hs, hstack, hseg, hprog⟩ := ih (Nat.le_of_succ_le hi)
    have hdrop : (List.range n).drop i = i :: (List.range n).drop (i + 1) := by
      rw [List.drop_eq_getElem_cons (by simpa using Nat.lt_of_succ_le hi), List.getElem_range]
    rw [hdrop, List.map_cons, List.cons_append] at hprog
    have hno := hstays s hs .parent
    have hstep := State.exactStep_store hstack hprog
    split_ifs at hstep
    · exact ⟨_, .step hs trivial hstep, hstack, hseg, rfl⟩
    · exact absurd hstep hno

/-- The parent's last store is in the segment if no run leaves it. -/
theorem inSegment_of_stays {version : Version} {arr : Arr} {left right : Int} {bytes : Int}
    {prog : List Instr} {n : Nat}
    (hbody : version.body left right = .map bytes ::
      ((List.range (n + 1)).map (fun i : Nat => Instr.store i (i + left)) ++ prog))
    (hstays : InRequest code version arr left right) :
    inSegment (granted bytes) n n = true := by
  obtain ⟨s, hs, hstack, hseg, hprog⟩ := reaches_store hbody hstays n (Nat.le_succ n)
  rw [List.drop_eq_getElem_cons (by simp), List.getElem_range, List.map_cons,
    List.cons_append] at hprog
  have hstep := State.exactStep_store hstack hprog
  split_ifs at hstep with hin
  · rwa [hseg] at hin
  · exact absurd hstep (hstays s hs .parent)

end Runs

/-! ## The bounds -/

section Bounds

variable {seg : Option Int} {left right : Int} {version : Version} {arr : Arr}

theorem ProgOk.append {l prog : List Instr} (h : ∀ instr ∈ l, instr ≠ .unmap ∧ instr.InSeg seg)
    (hprog : ProgOk seg prog) : ProgOk seg (l ++ prog) := by
  induction l with
  | nil => exact hprog
  | cons instr l ih =>
    obtain ⟨hne, hin⟩ := h instr List.mem_cons_self
    have hrest := ih fun x hx => h x (List.mem_cons_of_mem _ hx)
    cases instr with
    | unmap => exact absurd rfl hne
    | _ => exact ⟨hin, hrest⟩

/-- The number of elements that are used. -/
def relMid (left right : Int) : Int := (left + right).tdiv 2 - left + 1

/-- The number of bytes that are requested, as it is computed before the conversion. -/
def requested (left right : Int) : Int := (4 * (1 + (right - left))).tdiv 2

theorem sortInHalves_eq (left right : Int) : sortInHalves left right =
    .map (requested left right) ::
      ((List.range (relMid left right).toNat).map (fun i : Nat => Instr.store i (i + left)) ++
        ([Instr.fork 0 (relMid left right - 1),
            .sort .arr (left + relMid left right) (left + (1 + (right - left)) - 1), .wait] ++
          ((List.range (relMid left right).toNat).map (fun i : Nat => Instr.load (i + left) i) ++
            [Instr.merge left ((left + right).tdiv 2) right, .unmap]))) := by
  simp only [sortInHalves, relMid, requested, List.append_assoc, List.cons_append, List.nil_append]

/-- The parts of the function that use the segment keep to it just where all the elements that are
used are there. -/
theorem sortInHalves_inRequest_iff (hbody : version.body left right = sortInHalves left right) :
    InRequest code version arr left right ↔ relMid left right ≤ 0 ∨
      inSegment (granted (requested left right)) 0 (relMid left right - 1) = true := by
  rw [sortInHalves_eq] at hbody
  constructor
  · intro hstays
    rcases lt_or_ge 0 (relMid left right) with hpos | hneg
    · obtain ⟨n, hn⟩ : ∃ n : Nat, relMid left right = n + 1 :=
        ⟨(relMid left right - 1).toNat, by omega⟩
      have hcount : (relMid left right).toNat = n + 1 := by omega
      rw [hcount] at hbody
      have hlast := inSegment_of_stays hbody hstays
      have hindex : relMid left right - 1 = n := by omega
      rw [hindex]
      cases hseg : granted (requested left right) with
      | none =>
        rw [hseg] at hlast
        cases hlast
      | some bytes =>
        rw [hseg, inSegment, decide_eq_true_eq] at hlast
        rw [inSegment, decide_eq_true_eq]
        omega
    · exact Or.inl hneg
  · intro h
    have helem : ∀ i : Nat, i < (relMid left right).toNat →
        inSegment (granted (requested left right)) i i = true := by
      intro i hi
      rcases h with h | h
      · omega
      · exact inSegment_mono h (Int.natCast_nonneg i) (by omega)
    have hchild : (0 : Int) < relMid left right - 1 →
        inSegment (granted (requested left right)) 0 (relMid left right - 1) = true :=
      fun hlt => h.resolve_left (by omega)
    have hloads : ProgOk (granted (requested left right))
        ((List.range (relMid left right).toNat).map (fun i : Nat => Instr.load (i + left) i) ++
          [Instr.merge left ((left + right).tdiv 2) right, .unmap]) := by
      refine ProgOk.append ?_ ⟨trivial, rfl⟩
      simp only [List.mem_map, List.mem_range, forall_exists_index, and_imp]
      rintro instr i hi rfl
      exact ⟨by simp, helem i hi⟩
    refine @State.InSeg.stays _ (granted (requested left right)) _ _ _ _
      (.unmapped _ _ rfl hbody rfl ?_ rfl)
    refine ProgOk.append ?_ ⟨⟨Int.le_refl _, hchild⟩, trivial, trivial, hloads⟩
    simp only [List.mem_map, List.mem_range, forall_exists_index, and_imp]
    rintro instr i hi rfl
    exact ⟨by simp, helem i hi⟩

/-- A range of `int`s is requested in full if it is not empty; the `size_t` that is made of a negative
number is too large. -/
theorem granted_requested (left right : Int32) : granted (requested left.toInt right.toInt) =
    if left.toInt ≤ right.toInt then some (2 * (1 + (right.toInt - left.toInt))) else none := by
  have hl := left.toInt_lt
  have hl' := left.le_toInt
  have hr := right.toInt_lt
  have hr' := right.le_toInt
  have hrequested : requested left.toInt right.toInt = 2 * (1 + (right.toInt - left.toInt)) := by
    have hproduct : (4 * (1 + (right.toInt - left.toInt))) =
        2 * (1 + (right.toInt - left.toInt)) * 2 := by omega
    rw [requested, hproduct, Int.mul_tdiv_cancel _ (by decide)]
  rw [hrequested, granted, asSize]
  split_ifs with hsize hle hle
  · congr 1
    omega
  · omega
  · omega
  · rfl

theorem relMid_cases (left right : Int) :
    0 ≤ left + right ∧ relMid left right = (left + right) / 2 - left + 1 ∨
      left + right < 0 ∧ relMid left right = -(-(left + right) / 2) - left + 1 := by
  rcases lt_or_ge (left + right) 0 with hneg | hnonneg
  · refine Or.inr ⟨hneg, ?_⟩
    have hdiv : (left + right).tdiv 2 = -(-(left + right)).tdiv 2 := by
      rw [Int.neg_tdiv, Int.neg_neg]
    rw [relMid, hdiv, Int.tdiv_eq_ediv_of_nonneg (by omega)]
  · exact Or.inl ⟨hnonneg, by rw [relMid, Int.tdiv_eq_ediv_of_nonneg hnonneg]⟩

/-- The halves of the two sizes meet where the sum of the ends is odd and positive. -/
theorem fits_iff (left right : Int32) : (relMid left.toInt right.toInt ≤ 0 ∨
      inSegment (granted (requested left.toInt right.toInt)) 0
        (relMid left.toInt right.toInt - 1) = true) ↔
    right.toInt < left.toInt - 1 ∨
      (left.toInt + right.toInt) % 2 = 1 ∧ 0 < left.toInt + right.toInt := by
  have hmid := relMid_cases left.toInt right.toInt
  rw [granted_requested]
  split_ifs with hle
  · rw [inSegment, decide_eq_true_eq]
    omega
  · simp only [inSegment, Bool.false_eq_true, or_false]
    omega

/-- Where the length and the sum of the ends fit, so does the rest. -/
theorem sortInHalvesExprs_fit_iff (left right : Int32) :
    (∀ x ∈ sortInHalvesExprs left.toInt right.toInt, FitsInt x) ↔
      FitsInt (right.toInt - left.toInt) ∧ FitsInt (1 + (right.toInt - left.toInt)) ∧
        FitsInt (left.toInt + right.toInt) := by
  have hl := left.toInt_lt
  have hl' := left.le_toInt
  have hr := right.toInt_lt
  have hr' := right.le_toInt
  have hmid := relMid_cases left.toInt right.toInt
  rw [relMid] at hmid
  simp only [sortInHalvesExprs, List.forall_mem_cons, List.not_mem_nil, IsEmpty.forall_iff,
    implies_true, and_true, FitsInt]
  constructor
  · rintro ⟨hlength, hcount, hsum, -⟩
    exact ⟨hlength, hcount, hsum⟩
  · rintro ⟨hlength, hcount, hsum⟩
    omega

/-- The child sorts at most 2^30 elements. -/
theorem child_fits {left right : Int32}
    (hcount : FitsInt (1 + (right.toInt - left.toInt))) {l r : Int}
    (hfork : Instr.fork l r ∈ sortInHalves left.toInt right.toInt) (a : Arr) :
    SingleFits code a l r := by
  have hmid := relMid_cases left.toInt right.toInt
  obtain ⟨-, hlt⟩ := hcount
  rw [sortInHalves_eq] at hfork
  simp at hfork
  obtain ⟨rfl, rfl⟩ := hfork
  exact singleFits_of_small ⟨Int.le_refl 0, by omega⟩ a

/-- The part that the two versions share stays in its request. -/
theorem sortInHalves_stays_iff {left right : Int32}
    (hbody : version.body left.toInt right.toInt = sortInHalves left.toInt right.toInt)
    (hexprs : version.exprs left.toInt right.toInt =
      sortInHalvesExprs left.toInt right.toInt) :
    StaysInRequest code version arr left.toInt right.toInt ↔
      (FitsInt (right.toInt - left.toInt) ∧ FitsInt (1 + (right.toInt - left.toInt)) ∧
        FitsInt (left.toInt + right.toInt)) ∧
      (right.toInt < left.toInt - 1 ∨
        (left.toInt + right.toInt) % 2 = 1 ∧ 0 < left.toInt + right.toInt) := by
  constructor
  · rintro ⟨hfits, -, hin⟩
    have hmeet := (fits_iff left right).mp ((sortInHalves_inRequest_iff hbody).mp hin)
    rw [hexprs] at hfits
    exact ⟨(sortInHalvesExprs_fit_iff left right).mp hfits, hmeet⟩
  · rintro ⟨hfits, hmeet⟩
    refine ⟨?_, ?_, ?_⟩
    · rw [hexprs]
      exact (sortInHalvesExprs_fit_iff left right).mpr hfits
    · rw [hbody]
      intro l r hfork a
      exact child_fits hfits.2.1 hfork a
    · exact (sortInHalves_inRequest_iff hbody).mpr ((fits_iff left right).mpr hmeet)

end Bounds

/-- `multiProcessMergeSort` requests what it uses just where the length and the sum of the ends fit
into an `int` and the sum is odd and positive, or where there is nothing to do and it knows so: with
`usort` in every range of at most one element, with `psort` where `right` is below `left - 1`. -/
theorem multiProcessMergeSort_staysInRequest_iff (code : MergeCode) (arr : Arr)
    (left right : Int32) :
    (StaysInRequest code .psort arr left.toInt right.toInt ↔
      (FitsInt (right.toInt - left.toInt) ∧ FitsInt (1 + (right.toInt - left.toInt)) ∧
        FitsInt (left.toInt + right.toInt)) ∧
      (right.toInt < left.toInt - 1 ∨
        (left.toInt + right.toInt) % 2 = 1 ∧ 0 < left.toInt + right.toInt)) ∧
    (StaysInRequest code .usort arr left.toInt right.toInt ↔
      FitsInt (right.toInt - left.toInt) ∧
      (right.toInt ≤ left.toInt ∨
        FitsInt (1 + (right.toInt - left.toInt)) ∧ FitsInt (left.toInt + right.toInt) ∧
          (left.toInt + right.toInt) % 2 = 1 ∧ 0 < left.toInt + right.toInt)) := by
  refine ⟨sortInHalves_stays_iff rfl rfl, ?_⟩
  by_cases hguard : right.toInt - left.toInt ≤ 0
  · have hle : right.toInt ≤ left.toInt := by omega
    have hbody : Version.usort.body left.toInt right.toInt = [] := if_pos hguard
    have hexprs : Version.usort.exprs left.toInt right.toInt = [right.toInt - left.toInt] :=
      if_pos hguard
    constructor
    · rintro ⟨hfits, -, -⟩
      rw [hexprs] at hfits
      exact ⟨hfits _ List.mem_cons_self, Or.inl hle⟩
    · rintro ⟨hfits, -⟩
      refine ⟨?_, ?_, ?_⟩
      · rw [hexprs]
        intro x hx
        cases List.mem_singleton.mp hx
        exact hfits
      · rw [hbody]
        nofun
      · exact @State.InSeg.stays _ none _ _ _ _ (.mapped (Or.inr ⟨rfl, hbody⟩) nofun)
  · have hbody : Version.usort.body left.toInt right.toInt =
        sortInHalves left.toInt right.toInt := if_neg hguard
    have hexprs : Version.usort.exprs left.toInt right.toInt =
        sortInHalvesExprs left.toInt right.toInt := if_neg hguard
    rw [sortInHalves_stays_iff hbody hexprs]
    unfold FitsInt
    omega

/-- Three elements are sorted with a request of six bytes and a use of eight; for no elements,
`psort` uses one of a segment that it has not got. -/
theorem multiProcessMergeSort_leaves_request :
    ¬ StaysInRequest sortingMerge .psort (fun i => -i) 0 2 ∧
    ¬ StaysInRequest sortingMerge .usort (fun i => -i) 0 2 ∧
    ¬ StaysInRequest sortingMerge .psort (fun i => -i) 0 (-1) := by
  refine ⟨fun h => ?_, fun h => ?_, fun h => ?_⟩
  · exact absurd ((sortInHalves_inRequest_iff rfl).mp h.inRequest) (by decide)
  · exact absurd ((sortInHalves_inRequest_iff rfl).mp h.inRequest) (by decide)
  · exact absurd ((sortInHalves_inRequest_iff rfl).mp h.inRequest) (by decide)

end CSE130.MergeSort.Processes
