import CSE130.Userprog.ExecOutcomes
import CSE130.Userprog.PushBounds

/-!
# The buffers of `process_execute`

Which command lines stay inside the page for the program name, the array `offsets` and the stack page,
for every pattern of answers of the allocators.
-/

namespace CSE130.Userprog

open Library

/-- Nothing that is written on behalf of an execution leaves its object. -/
def ExecInBounds (line : CString) (o : Outcomes) (pool : List Page) : Prop :=
  ∀ s, ExecReachable line o pool s → ∀ a ∈ s.accesses, a.InBounds

/-- If there are pages for the line and for the program name, then that page holds the name. If the
program is loaded, then `push_command` stays inside its objects. -/
def FitsBuffers (line : CString) (o : Outcomes) : Prop :=
  o.copyPage.isSome → o.linePage.isSome → o.namePage.isSome →
    nameLength line < pgsize ∧
      (o.created.isSome → o.loaded = true → FitsPush (strlcpy line pgsize) o.heap)

/-- What the place of an execution says about the answers it got, and the bounds. -/
structure ExecInv (o : Outcomes) (s : Execution) : Prop where
  linePage : s.parent = .linePage → o.copyPage.isSome
  namePage : s.parent = .namePage → o.copyPage.isSome ∧ o.linePage.isSome
  threadCreate : s.parent = .threadCreate →
    o.copyPage.isSome ∧ o.linePage.isSome ∧ o.namePage.isSome
  child : s.child ≠ .absent →
    o.copyPage.isSome ∧ o.linePage.isSome ∧ o.namePage.isSome ∧ o.created.isSome
  bounds : ∀ a ∈ s.accesses, a.InBounds

section Execution

variable {line : CString} {o : Outcomes} {pool : List Page} {s s' : Execution}

theorem length_strlcpy (line : CString) : (strlcpy line pgsize).bytes.length < pgsize := by
  have hlen : (strlcpy line pgsize).bytes.length ≤ pgsize - 1 := by
    rw [strlcpy, List.length_take]
    exact Nat.min_le_left _ _
  have hpgsize : pgsize = 4096 := rfl
  omega

theorem strlcpy_inBounds (line : CString) : ∀ a ∈ strlcpyAccesses line, a.InBounds := by
  have hlen := length_strlcpy line
  intro a ha
  simp only [strlcpyAccesses, List.mem_cons, List.not_mem_nil, or_false] at ha
  rcases ha with rfl | rfl
  · exact ⟨by omega, by omega⟩
  · exact ⟨by omega, by omega⟩

theorem name_inBounds (h : nameLength line < pgsize) : ∀ a ∈ nameAccesses line, a.InBounds := by
  intro a ha
  simp only [nameAccesses, List.mem_cons, List.not_mem_nil, or_false] at ha
  rcases ha with rfl | rfl
  · exact ⟨by omega, by omega⟩
  · exact ⟨by omega, by omega⟩

theorem bounds_append {as bs : List Access} (has : ∀ a ∈ as, a.InBounds)
    (hbs : ∀ a ∈ bs, a.InBounds) : ∀ a ∈ as ++ bs, a.InBounds := by
  intro a ha
  rcases List.mem_append.mp ha with ha | ha
  · exact has a ha
  · exact hbs a ha

theorem parentStep_inv (hfits : FitsBuffers line o) (h : ExecInv o s)
    (hstep : s.parentStep line o = .ok s') : ExecInv o s' := by
  unfold Execution.parentStep at hstep
  split at hstep
  case h_1 hp =>
    split at hstep
    case h_1 ho =>
      cases hstep
      exact ⟨by simp, by simp, by simp, h.child, h.bounds⟩
    case h_2 page ho =>
      cases hstep
      exact ⟨by simp [ho], by simp, by simp, h.child,
        bounds_append (strlcpy_inBounds line) h.bounds⟩
  case h_2 hp =>
    have hcopy := h.linePage hp
    split at hstep
    case h_1 ho =>
      cases hstep
      exact ⟨by simp, by simp, by simp, h.child, h.bounds⟩
    case h_2 page ho =>
      cases hstep
      exact ⟨by simp, by simp [ho, hcopy], by simp, h.child,
        bounds_append (strlcpy_inBounds line) h.bounds⟩
  case h_3 hp =>
    obtain ⟨hcopy, hline⟩ := h.namePage hp
    split at hstep
    case h_1 ho =>
      cases hstep
      exact ⟨by simp, by simp, by simp, h.child, h.bounds⟩
    case h_2 page ho =>
      cases hstep
      obtain ⟨hlength, -⟩ := hfits hcopy hline (by simp [ho])
      exact ⟨by simp, by simp, by simp [hcopy, hline, ho], h.child,
        bounds_append (name_inBounds hlength) h.bounds⟩
  case h_4 hp =>
    obtain ⟨hcopy, hline, hname⟩ := h.threadCreate hp
    split at hstep
    case h_1 ho =>
      cases hstep
      exact ⟨by simp, by simp, by simp, h.child, h.bounds⟩
    case h_2 tid ho =>
      cases hstep
      exact ⟨by simp, by simp, by simp, by simp [hcopy, hline, hname, ho], h.bounds⟩
  case h_5 tid hp =>
    split_ifs at hstep
    cases hstep
    exact ⟨by simp, by simp, by simp, h.child, h.bounds⟩
  all_goals cases hstep

/-- The accesses of `push_command` in an execution. -/
theorem pushArguments_snd (line : CString) (o : Outcomes) :
    (Execution.pushArguments line o).2 = if o.loaded then
      (finalPush (pushCommandWith o.heap (strlcpy line pgsize) physBase fun _ => 0)).accesses
    else [] := by
  unfold Execution.pushArguments
  split_ifs
  · split <;> rename_i heq <;> rw [heq] <;> rfl
  · rfl

theorem pushArguments_inBounds_iff (line : CString) (o : Outcomes) :
    (∀ a ∈ (Execution.pushArguments line o).2, a.InBounds) ↔
      (o.loaded = true → FitsPush (strlcpy line pgsize) o.heap) := by
  rw [pushArguments_snd]
  split_ifs with hloaded
  · rw [pushCommandWith_inBounds_iff _ _ _ (length_strlcpy line)]
    simp [hloaded]
  · simp [hloaded]

theorem childStep_inv (hfits : FitsBuffers line o) (h : ExecInv o s)
    (hstep : s.childStep line o = .ok s') : ExecInv o s' := by
  unfold Execution.childStep at hstep
  split at hstep
  case h_2 hc =>
    have hchild := h.child (by simp [hc])
    have ⟨hcopy, hline, hname, hcreated⟩ := hchild
    have hpush := (hfits hcopy hline hname).2 hcreated
    cases hstep
    exact ⟨h.linePage, h.namePage, h.threadCreate, fun _ => hchild,
      bounds_append ((pushArguments_inBounds_iff line o).mpr hpush) h.bounds⟩
  case h_3 hc =>
    have hchild := h.child (by simp [hc])
    split at hstep <;> cases hstep <;>
      exact ⟨h.linePage, h.namePage, h.threadCreate, fun _ => hchild, h.bounds⟩
  case h_4 hc =>
    have hchild := h.child (by simp [hc])
    cases hstep
    exact ⟨h.linePage, h.namePage, h.threadCreate, fun _ => hchild, h.bounds⟩
  all_goals cases hstep

theorem execInv_of_reachable (hfits : FitsBuffers line o) :
    ∀ s, ExecReachable line o pool s → ExecInv o s := by
  apply Reachable.invariant
  · constructor <;> simp [Execution.start]
  · intro s a s' _ h _ hstep
    cases a with
    | parent => exact parentStep_inv hfits h hstep
    | child => exact childStep_inv hfits h hstep

theorem fitsBuffers_of_inBounds (h : ExecInBounds line o pool) : FitsBuffers line o := by
  intro hcopy hline hname
  obtain ⟨copy, hcopy⟩ := Option.isSome_iff_exists.mp hcopy
  obtain ⟨copy2, hline⟩ := Option.isSome_iff_exists.mp hline
  obtain ⟨name, hname⟩ := Option.isSome_iff_exists.mp hname
  constructor
  · have hlength := h _ (reachable_threadCreate hcopy hline hname) (.page 0 (nameLength line + 1))
      (by simp [nameAccesses])
    have := hlength.2
    omega
  · intro hcreated
    obtain ⟨tid, hcreated⟩ := Option.isSome_iff_exists.mp hcreated
    apply (pushArguments_inBounds_iff line o).mp
    intro a ha
    apply h _ (reachable_pushed hcopy hline hname hcreated) a
    exact List.mem_append_left _ ha

/-- An execution stays inside its buffers if and only if the program name fits its page, where there is
one, and the arguments of a loaded program fit the array and the page that they are pushed to. -/
theorem processExecute_inBounds_iff (line : CString) (o : Outcomes) (pool : List Page) :
    ExecInBounds line o pool ↔ FitsBuffers line o := by
  constructor
  · exact fitsBuffers_of_inBounds
  · intro hfits s h
    exact (execInv_of_reachable hfits s h).bounds

end Execution

/-- Letters without a space. -/
def letters (n : Nat) : CString where
  bytes := List.replicate n 97
  noNul h := absurd (List.eq_of_mem_replicate h) (by decide)

theorem nameLength_letters (n : Nat) : nameLength (letters n) = n := by
  change ((List.replicate n (97 : UInt8)).takeWhile (· ≠ space)).length = n
  induction n with
  | zero => rfl
  | succ n ih =>
    rw [List.replicate_succ, List.takeWhile_cons_of_pos (by decide), List.length_cons, ih]

/-- The name of 4096 bytes is written with its terminator to a page of 4096 bytes. -/
theorem processExecute_letters : ¬ ExecInBounds (letters 4096) allSucceed [] := by
  intro h
  have hname := (fitsBuffers_of_inBounds h rfl rfl rfl).1
  rw [nameLength_letters] at hname
  exact absurd hname (by decide)

end CSE130.Userprog
