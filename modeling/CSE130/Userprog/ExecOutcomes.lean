import CSE130.Userprog.ProcessExecute
import Mathlib.Tactic.ByContra

/-!
# The outcomes of `process_execute`

A clean execution returns, writes through no null pointer and gives back the pages that it took. An
execution of Lab 3 is clean if and only if it gets no page at all.
-/

namespace CSE130.Userprog

open Library

namespace Execution

/-- The child is not there or has done its part. -/
def AtRest (s : Execution) : Prop := s.child = .absent ∨ s.child = .finished

/-- An upper bound for the steps that are still to come. -/
def rank (s : Execution) : Nat :=
  (match s.parent with
    | .copyPage => 9
    | .linePage => 8
    | .namePage => 7
    | .threadCreate => 6
    | .semaphoreDown _ => 1
    | .returned _ | .panicked => 0) +
  (match s.child with
    | .elfLoad => 3
    | .freePage => 2
    | .semaphoreUp => 1
    | .absent | .finished | .stopped => 0)

/-- After `push_command` the child frees its page, or the kernel has stopped. -/
theorem pushArguments_fst (line : CString) (o : Outcomes) :
    (pushArguments line o).1 = .freePage ∨ (pushArguments line o).1 = .stopped := by
  unfold pushArguments
  split_ifs
  · split
    · exact .inl rfl
    · exact .inr rfl
  · exact .inl rfl

theorem rank_lt {line : CString} {o : Outcomes} {s s' : Execution} {a : Actor}
    (h : s.step line o a = .ok s') : s'.rank < s.rank := by
  cases a with
  | parent =>
    simp only [step, parentStep] at h
    split at h
    case h_1 hp | h_2 hp | h_3 hp =>
      split at h <;> cases h <;> simp only [rank, hp] <;> omega
    case h_4 hp =>
      split at h <;> cases h <;> simp only [rank, hp]
      · omega
      · split <;> omega
    case h_5 hp =>
      split_ifs at h
      cases h
      simp only [rank, hp]
      omega
    all_goals cases h
  | child =>
    simp only [step, childStep] at h
    split at h
    case h_2 hc =>
      cases h
      rcases pushArguments_fst line o with hnext | hnext <;> simp only [rank, hc, hnext] <;> omega
    case h_3 hc => split at h <;> cases h <;> simp only [rank, hc] <;> omega
    case h_4 hc =>
      cases h
      simp only [rank, hc]
      omega
    all_goals cases h

/-- There are no endless executions. -/
theorem step_wellFounded (line : CString) (o : Outcomes) :
    WellFounded fun s' s : Execution => ∃ a, s.step line o a = .ok s' := by
  apply Subrelation.wf _ (measure rank).wf
  intro s' s hstep
  obtain ⟨a, h⟩ := hstep
  exact rank_lt h

end Execution

/-- `process_execute` is clean when it is called with the pages of `pool` taken. -/
structure Clean (line : CString) (o : Outcomes) (pool : List Page) : Prop where
  noNull : ∀ s, ExecReachable line o pool s → .null ∉ s.accesses
  ends : WellFounded fun s' s : Execution => ∃ a, s.step line o a = .ok s'
  returns : ∀ s, ExecReachable line o pool s →
    (∃ tid, s.parent = .returned tid) ∨ ∃ a s', s.step line o a = .ok s'
  error : ∀ s tid, ExecReachable line o pool s → s.parent = .returned tid → s.child = .absent →
    tid = none
  freed : ∀ s tid, ExecReachable line o pool s → s.parent = .returned tid → s.AtRest →
    s.taken = pool

/-- Executions one after the other, each with the pages taken that the ones before have left. -/
inductive Consecutive : List (CString × Outcomes) → List Page → List Page → Prop
  | nil (pool : List Page) : Consecutive [] pool pool
  | cons {line : CString} {o : Outcomes} {pool pool' : List Page} {s : Execution}
      {tid : Option Nat} {es : List (CString × Outcomes)} :
      ExecReachable line o pool s → s.parent = .returned tid → s.AtRest →
        Consecutive es s.taken pool' → Consecutive ((line, o) :: es) pool pool'

/-- Every execution of the sequence is clean, and the whole sequence leaves the pool as it was. -/
structure AllClean (es : List (CString × Outcomes)) (pool : List Page) : Prop where
  clean : ∀ before line o after pool', es = before ++ (line, o) :: after →
    Consecutive before pool pool' → Clean line o pool'
  pool : ∀ pool', Consecutive es pool pool' → pool' = pool

section Clean

variable {line : CString} {o : Outcomes} {pool : List Page}

/-- Without the first page the parent returns at once. -/
theorem reachable_of_copyPage_none (ho : o.copyPage = none) {s : Execution}
    (h : ExecReachable line o pool s) :
    s = .start pool ∨ s = { Execution.start pool with parent := .returned none } := by
  induction h with
  | start => exact .inl rfl
  | @step s a s' _ _ hstep ih =>
    rcases ih with rfl | rfl
    · cases a with
      | parent =>
        right
        simpa [Execution.step, Execution.parentStep, Execution.start, ho] using hstep.symm
      | child => cases hstep
    · cases a with
      | parent => cases hstep
      | child => cases hstep

theorem reachable_refused (ho : o.copyPage = none) :
    ExecReachable line o pool { Execution.start pool with parent := .returned none } := by
  apply Reachable.step (e := .parent) .start trivial
  simp [Execution.step, Execution.parentStep, Execution.start, ho]

theorem clean_of_copyPage_none (ho : o.copyPage = none) : Clean line o pool := by
  constructor
  · intro s h
    rcases reachable_of_copyPage_none ho h with rfl | rfl <;> exact List.not_mem_nil
  · exact Execution.step_wellFounded line o
  · intro s h
    rcases reachable_of_copyPage_none ho h with rfl | rfl
    · right
      refine ⟨.parent, { Execution.start pool with parent := .returned none }, ?_⟩
      simp [Execution.step, Execution.parentStep, Execution.start, ho]
    · exact .inl ⟨none, rfl⟩
  · intro s tid h hret _
    rcases reachable_of_copyPage_none ho h with rfl | rfl
    · cases hret
    · cases hret
      rfl
  · intro s tid h _ _
    rcases reachable_of_copyPage_none ho h with rfl | rfl <;> rfl

/-! ### With the first page -/

theorem reachable_linePage {copy : Page} (hcopy : o.copyPage = some copy) :
    ExecReachable line o pool { Execution.start pool with
      parent := .linePage, taken := copy :: pool, accesses := strlcpyAccesses line } := by
  apply Reachable.step (e := .parent) .start trivial
  simp [Execution.step, Execution.parentStep, Execution.start, hcopy]

theorem reachable_namePage {copy copy2 : Page} (hcopy : o.copyPage = some copy)
    (hline : o.linePage = some copy2) :
    ExecReachable line o pool { Execution.start pool with
      parent := .namePage, taken := copy2 :: copy :: pool
      accesses := strlcpyAccesses line ++ strlcpyAccesses line } := by
  apply Reachable.step (e := .parent) (reachable_linePage hcopy) trivial
  simp [Execution.step, Execution.parentStep, Execution.start, hline]

theorem reachable_threadCreate {copy copy2 name : Page} (hcopy : o.copyPage = some copy)
    (hline : o.linePage = some copy2) (hname : o.namePage = some name) :
    ExecReachable line o pool { Execution.start pool with
      parent := .threadCreate, taken := name :: copy2 :: copy :: pool
      accesses := nameAccesses line ++ (strlcpyAccesses line ++ strlcpyAccesses line) } := by
  apply Reachable.step (e := .parent) (reachable_namePage hcopy hline) trivial
  simp [Execution.step, Execution.parentStep, Execution.start, hname]

/-- Without the second page the first one is not given back. -/
theorem reachable_leak {copy : Page} (hcopy : o.copyPage = some copy) (hline : o.linePage = none) :
    ExecReachable line o pool { Execution.start pool with
      parent := .returned none, taken := copy :: pool, accesses := strlcpyAccesses line } := by
  apply Reachable.step (e := .parent) (reachable_linePage hcopy) trivial
  simp [Execution.step, Execution.parentStep, Execution.start, hline]

/-- Without the third page an assertion of `memcpy` fails. -/
theorem reachable_panicked {copy copy2 : Page} (hcopy : o.copyPage = some copy)
    (hline : o.linePage = some copy2) (hname : o.namePage = none) :
    ExecReachable line o pool { Execution.start pool with
      parent := .panicked, taken := copy2 :: copy :: pool
      accesses := strlcpyAccesses line ++ strlcpyAccesses line } := by
  apply Reachable.step (e := .parent) (reachable_namePage hcopy hline) trivial
  simp [Execution.step, Execution.parentStep, Execution.start, hname]

/-- Without a child nobody calls `semaphore_up`. -/
theorem reachable_stuck {copy copy2 name : Page} (hcopy : o.copyPage = some copy)
    (hline : o.linePage = some copy2) (hname : o.namePage = some name) (hcreated : o.created = none) :
    ExecReachable line o pool { Execution.start pool with
      parent := .semaphoreDown none, taken := name :: copy2 :: copy :: pool
      accesses := nameAccesses line ++ (strlcpyAccesses line ++ strlcpyAccesses line) } := by
  apply Reachable.step (e := .parent) (reachable_threadCreate hcopy hline hname) trivial
  simp [Execution.step, Execution.parentStep, Execution.start, hcreated]

theorem reachable_elfLoad {copy copy2 name tid : Nat} (hcopy : o.copyPage = some copy)
    (hline : o.linePage = some copy2) (hname : o.namePage = some name)
    (hcreated : o.created = some tid) :
    ExecReachable line o pool { Execution.start pool with
      parent := .semaphoreDown (some tid), child := .elfLoad
      taken := name :: copy2 :: copy :: pool
      accesses := nameAccesses line ++ (strlcpyAccesses line ++ strlcpyAccesses line) } := by
  apply Reachable.step (e := .parent) (reachable_threadCreate hcopy hline hname) trivial
  simp [Execution.step, Execution.parentStep, Execution.start, hcreated]

/-- The program has been loaded, and its arguments have been pushed as far as it goes. -/
theorem reachable_pushed {copy copy2 name tid : Nat} (hcopy : o.copyPage = some copy)
    (hline : o.linePage = some copy2) (hname : o.namePage = some name)
    (hcreated : o.created = some tid) :
    ExecReachable line o pool { Execution.start pool with
      parent := .semaphoreDown (some tid), child := (Execution.pushArguments line o).1
      taken := name :: copy2 :: copy :: pool
      accesses := (Execution.pushArguments line o).2 ++
        (nameAccesses line ++ (strlcpyAccesses line ++ strlcpyAccesses line)) } :=
  Reachable.step (e := .child) (reachable_elfLoad hcopy hline hname hcreated) trivial rfl

/-- The child frees the one page that it knows, and the other two stay taken. -/
theorem reachable_returned {copy copy2 name tid : Nat} (hcopy : o.copyPage = some copy)
    (hline : o.linePage = some copy2) (hname : o.namePage = some name)
    (hcreated : o.created = some tid) (hpush : (Execution.pushArguments line o).1 = .freePage) :
    ∃ s, ExecReachable line o pool s ∧ s.parent = .returned (some tid) ∧ s.AtRest ∧
      s.taken = copy2 :: copy :: pool := by
  have hpushed := @reachable_pushed line o pool copy copy2 name tid hcopy hline hname hcreated
  rw [hpush] at hpushed
  have hfree : ExecReachable line o pool { Execution.start pool with
      parent := .semaphoreDown (some tid), child := .semaphoreUp
      taken := copy2 :: copy :: pool
      accesses := (Execution.pushArguments line o).2 ++
        (nameAccesses line ++ (strlcpyAccesses line ++ strlcpyAccesses line)) } := by
    apply Reachable.step (e := .child) hpushed trivial
    simp [Execution.step, Execution.childStep, Execution.start, hname]
  have hup := hfree.step (e := .child) trivial rfl
  have hdown := hup.step (e := .parent) trivial rfl
  exact ⟨_, hdown, rfl, .inr rfl, rfl⟩

theorem copyPage_none_of_clean (h : Clean line o pool) : o.copyPage = none := by
  cases hcopy : o.copyPage with
  | none => rfl
  | some copy =>
    exfalso
    cases hline : o.linePage with
    | none =>
      have hpool := h.freed _ none (reachable_leak hcopy hline) rfl (.inl rfl)
      exact List.cons_ne_self copy pool hpool
    | some copy2 =>
      cases hname : o.namePage with
      | none =>
        rcases h.returns _ (reachable_panicked hcopy hline hname) with ⟨tid, hret⟩ | ⟨a, s', hstep⟩
        · cases hret
        · cases a <;> cases hstep
      | some name =>
        cases hcreated : o.created with
        | none =>
          rcases h.returns _ (reachable_stuck hcopy hline hname hcreated) with
            ⟨tid, hret⟩ | ⟨a, s', hstep⟩
          · cases hret
          · cases a <;> cases hstep
        | some tid =>
          rcases Execution.pushArguments_fst line o with hpush | hpush
          · obtain ⟨s, hrun, hret, hrest, htaken⟩ :=
              @reachable_returned line o pool copy copy2 name tid hcopy hline hname hcreated hpush
            have hpool := h.freed s _ hrun hret hrest
            have hlen := congrArg List.length (htaken.symm.trans hpool)
            simp only [List.length_cons] at hlen
            omega
          · -- the parent waits for a child that has stopped
            have hpushed :=
              @reachable_pushed line o pool copy copy2 name tid hcopy hline hname hcreated
            rw [hpush] at hpushed
            rcases h.returns _ hpushed with ⟨tid', hret⟩ | ⟨a, s', hstep⟩
            · cases hret
            · cases a <;> cases hstep

end Clean

/-! ## Any number of executions -/

section Sequence

variable {line : CString} {o : Outcomes} {pool pool' : List Page} {es : List (CString × Outcomes)}

/-- An execution that gets no page leaves everything as it was. -/
theorem Consecutive.refused (ho : o.copyPage = none) (h : Consecutive es pool pool') :
    Consecutive ((line, o) :: es) pool pool' :=
  .cons (reachable_refused ho) rfl (.inl rfl) h

theorem AllClean.tail (ho : o.copyPage = none) (h : AllClean ((line, o) :: es) pool) :
    AllClean es pool := by
  constructor
  · intro before line' o' after pool' hsplit hrun
    apply h.clean ((line, o) :: before) line' o' after pool'
    · rw [hsplit, List.cons_append]
    · exact hrun.refused ho
  · intro pool' hrun
    exact h.pool pool' (hrun.refused ho)

theorem pool_of_consecutive (hes : ∀ e ∈ es, e.2.copyPage = none) (h : Consecutive es pool pool') :
    pool' = pool := by
  induction h with
  | nil => rfl
  | @cons line o pool pool' s tid es hrun hret hrest _ ih =>
    have hclean : Clean line o pool := clean_of_copyPage_none (hes _ List.mem_cons_self)
    rw [← hclean.freed s tid hrun hret hrest]
    exact ih fun e he => hes e (List.mem_cons_of_mem _ he)

end Sequence

/-- A sequence of executions is clean throughout if and only if none of them gets its first page. -/
theorem processExecute_allClean_iff (es : List (CString × Outcomes)) (pool : List Page) :
    AllClean es pool ↔ ∀ e ∈ es, e.2.copyPage = none := by
  constructor
  · intro h
    induction es with
    | nil => exact fun e he => absurd he List.not_mem_nil
    | cons d es ih =>
      obtain ⟨line, o⟩ := d
      have hfirst : o.copyPage = none :=
        copyPage_none_of_clean (h.clean [] line o es pool rfl (.nil pool))
      intro e he
      cases he with
      | head => exact hfirst
      | tail _ he => exact ih (h.tail hfirst) e he
  · intro hes
    refine ⟨?_, fun pool' => pool_of_consecutive hes⟩
    intro before line o after pool' hsplit _
    apply clean_of_copyPage_none
    apply hes (line, o)
    rw [hsplit]
    exact List.mem_append_right _ List.mem_cons_self

/-- Everything succeeds. -/
def allSucceed : Outcomes where
  copyPage := some 1
  linePage := some 2
  namePage := some 3
  created := some 7
  loaded := true
  heap := { offsets := true, calloc := fun _ => true }

/-- One execution that succeeds leaves two pages taken. -/
theorem processExecute_leaks : ¬ AllClean [(⟨[108, 115], by decide⟩, allSucceed)] [] := by
  intro h
  obtain ⟨s, hrun, hret, hrest, htaken⟩ :=
    @reachable_returned ⟨[108, 115], by decide⟩ allSucceed [] 1 2 3 7 rfl rfl rfl rfl (by decide)
  have hpool := h.pool [2, 1] (.cons hrun hret hrest (htaken ▸ .nil _))
  cases hpool

end CSE130.Userprog
