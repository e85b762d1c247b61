import CSE130.Filesys.RefExact

/-!
# Runs of calls on files and directories

Every call from outside keeps the counts exact, unless it meets one of the two paths that give up a
reference too many or one too few.
-/

namespace CSE130.Filesys

open CSE130.Library DirEntry

namespace OpenFiles

variable {os os' : OpenFiles} {refs : List Nat} {c : FilesysCall} {calls : List FilesysCall}

/-- The count of each inode is the number of open files and directories that refer to it, and an inode
has been freed if there are none. -/
structure Exact (os : OpenFiles) : Prop where
  count : ∀ p inode, os.st.inodes p = some inode → inode.openCnt = os.handles.count p
  freed : ∀ p, os.st.inodes p = none ↔ p ∉ os.handles

/-- The call is no `filesys_remove` of a directory, and no `filesys_open` that finds a removed inode. -/
def Safe (os : OpenFiles) : FilesysCall → Prop
  | .filesysOpen e cwd name => ¬ FindsRemoved os.st e cwd name
  | .filesysRemove e cwd name => ¬ FindsDirectory os.st e cwd name
  | _ => True

/-- A condition on the calls of a run and the states before them. -/
def EveryStep (C : OpenFiles → FilesysCall → Prop) : OpenFiles → List FilesysCall → Prop
  | _, [] => True
  | os, c :: calls => C os c ∧ ∀ os', os.step c = .ok os' → EveryStep C os' calls

/-- No call uses a freed inode, and the counts are exact in every state. -/
def AlwaysExact : OpenFiles → List FilesysCall → Prop
  | os, [] => os.Exact
  | os, c :: calls => os.Exact ∧ ∃ os', os.step c = .ok os' ∧ AlwaysExact os' calls

theorem exact_of_counted (h : Counted os.st os.handles) : os.Exact := by
  refine ⟨h.count, ?_⟩
  intro p
  rw [h.held, Bool.not_eq_true, Option.isSome_eq_false_iff, Option.isNone_iff_eq_none]

/-- Exact counts leave no other references. -/
theorem Exact.perm (h : os.Exact) (hc : Counted os.st refs) : refs.Perm os.handles := by
  rw [List.perm_iff_count]
  intro p
  cases hp : os.st.inodes p with
  | none =>
    have hout : p ∉ refs := by
      rw [hc.held, hp]
      exact nofun
    rw [List.count_eq_zero_of_not_mem hout, List.count_eq_zero_of_not_mem ((h.freed p).mp hp)]
  | some inode => exact (hc.count p inode hp).symm.trans (h.count p inode hp)

/-- A call that is safe keeps the counts. -/
theorem step_safe (h : Counted os.st os.handles) (hadm : os.Admissible c) (hsafe : os.Safe c) :
    ∃ os', os.step c = .ok os' ∧ Counted os'.st os'.handles := by
  have hdirs : ∀ p, p ∈ os.dirs → p ∈ os.handles := fun p hp => List.mem_append_right _ hp
  cases c with
  | filesysOpen e cwd name =>
    obtain ⟨r, st, hrun, hcases⟩ := @filesysOpen_cases os.st _ name cwd e h fun p hp => hdirs p (hadm p hp)
    have hcounted := (hcases.resolve_right fun hbad => hsafe hbad.1).2
    refine ⟨{ os with st := st, files := r.toList ++ os.files }, ?_, ?_⟩
    · rw [step, hrun]
      rfl
    · rw [handles, List.append_assoc]
      exact hcounted
  | fileClose p =>
    obtain ⟨st, hrun, hcounted, -⟩ := inodeClose_ok h (List.mem_append_left _ hadm)
    refine ⟨{ os with st := st, files := os.files.erase p }, ?_, ?_⟩
    · rw [step, hrun]
      rfl
    · rw [handles, List.erase_append_left _ hadm] at hcounted
      exact hcounted
  | dirOpenPath e cwd path =>
    obtain ⟨r, st, hrun, hcounted, -⟩ := @dirOpenPath_ok os.st _ path cwd e h fun p hp => hdirs p (hadm p hp)
    refine ⟨{ os with st := st, dirs := r.toList ++ os.dirs }, ?_, hcounted.perm ?_⟩
    · rw [step, hrun]
      rfl
    · rw [handles, handles, ← List.append_assoc, ← List.append_assoc]
      exact List.perm_append_comm.append_right _
  | dirClose p =>
    obtain ⟨st, hrun, hcounted, -⟩ := inodeClose_ok h (hdirs p hadm)
    refine ⟨{ os with st := st, dirs := os.dirs.erase p }, ?_, hcounted.perm ?_⟩
    · rw [step, hrun]
      rfl
    · have hcomm : os.handles.Perm (os.dirs ++ os.files) := List.perm_append_comm
      refine (hcomm.erase p).trans ?_
      rw [List.erase_append_left _ hadm]
      exact List.perm_append_comm
  | filesysRemove e cwd name =>
    obtain ⟨b, st, hrun, hcounted⟩ :=
      @filesysRemove_ok os.st _ name cwd e h (fun p hp => hdirs p (hadm p hp)) hsafe
    refine ⟨{ os with st := st }, ?_, hcounted⟩
    rw [step, hrun]
    rfl
  | other vol => exact ⟨_, rfl, h.withVol vol⟩

/-- After a call that is not safe the counts are wrong, if it comes to an end. -/
theorem step_unsafe (h : Counted os.st os.handles) (hadm : os.Admissible c) (hnot : ¬ os.Safe c)
    (hrun : os.step c = .ok os') : ¬ os'.Exact := by
  have hdirs : ∀ p, p ∈ os.dirs → p ∈ os.handles := fun p hp => List.mem_append_right _ hp
  intro hexact
  cases c with
  | filesysOpen e cwd name =>
    obtain ⟨r, st, hopen, hcases⟩ := @filesysOpen_cases os.st _ name cwd e h fun p hp => hdirs p (hadm p hp)
    obtain ⟨-, hr, q, hcounted⟩ := hcases.resolve_left fun hgood => hnot hgood.1
    subst hr
    rw [step, hopen] at hrun
    cases hrun
    have hlen := (hexact.perm hcounted).length_eq
    simp only [List.length_cons, handles, Option.toList_none, List.nil_append] at hlen
    omega
  | filesysRemove e cwd name =>
    rw [step, bind_eq_ok] at hrun
    obtain ⟨⟨b, st⟩, hremove, heq⟩ := hrun
    simp only [pure_eq_ok] at heq
    subst heq
    obtain ⟨refs', hcounted, hless⟩ := filesysRemove_directory h (fun p hp => hdirs p (hadm p hp))
      (not_not.mp hnot) hremove
    have hlen := (hexact.perm hcounted).length_eq
    simp only [handles] at hlen hless
    omega
  | fileClose p => exact hnot trivial
  | dirOpenPath e cwd path => exact hnot trivial
  | dirClose p => exact hnot trivial
  | other vol => exact hnot trivial

/-- In a run from a state with exact counts no freed inode is used, and the counts are exact in every
state, if and only if every call is safe. -/
theorem refCounts_exact_iff (h : Counted os.st os.handles) (hadm : EveryStep Admissible os calls) :
    os.AlwaysExact calls ↔ EveryStep Safe os calls := by
  induction calls generalizing os with
  | nil => exact iff_of_true (exact_of_counted h) trivial
  | cons c calls ih =>
    by_cases hsafe : os.Safe c
    · obtain ⟨os₁, hrun, hcounted⟩ := step_safe h hadm.1 hsafe
      have hrest := ih hcounted (hadm.2 os₁ hrun)
      constructor
      · intro halways
        obtain ⟨-, os₂, hrun₂, htail⟩ := halways
        rw [hrun] at hrun₂
        cases hrun₂
        refine ⟨hsafe, fun os₂ hrun₂ => ?_⟩
        rw [hrun] at hrun₂
        cases hrun₂
        exact hrest.mp htail
      · exact fun hall => ⟨exact_of_counted h, os₁, hrun, hrest.mpr (hall.2 os₁ hrun)⟩
    · refine iff_of_false ?_ fun hall => hsafe hall.1
      intro halways
      obtain ⟨-, os₁, hrun, htail⟩ := halways
      have hexact : os₁.Exact := by
        cases calls with
        | nil => exact htail
        | cons c' calls => exact htail.1
      exact step_unsafe h hadm.1 hsafe hrun hexact

/-- Nothing is open. -/
def start (vol : Volume) : OpenFiles where
  st := { inodes := fun _ => none, openInodes := [], next := 0, vol := vol }
  files := []
  dirs := []

theorem start_counted (vol : Volume) : Counted (start vol).st (start vol).handles :=
  ⟨nofun, fun _ => iff_of_false List.not_mem_nil nofun, fun _ => iff_of_false List.not_mem_nil nofun,
    List.nodup_nil, nofun, fun _ _ => rfl⟩

/-- A root directory with the empty directory `d` in sector `5` and the file `f` in sector `6`. -/
def smallVolume : Volume :=
  let e : DirEntry := { zero with inUse := 1 }
  let none : Volume := { bytes := fun _ => [], isDir := fun _ => false }
  let root := ((none.dirCreate true e 1 0).2.dirCreate true e 5 0).2
  ((root.dirAdd true e 1 [100] 5 true).2.dirAdd true e 1 [102] 6 false).2

/-- Removing the empty directory `/d` frees its inode and goes on with it. -/
theorem dirRemove_uses_freed :
    ¬ (start smallVolume).AlwaysExact [.filesysRemove (fun _ => zero) none [47, 100]] := by
  intro h
  obtain ⟨-, os, hrun, -⟩ := h
  have hfails : ((start smallVolume).step (.filesysRemove (fun _ => zero) none [47, 100])).isOk =
      false := by decide +kernel
  rw [hrun] at hfails
  cases hfails

theorem refCounts_exact_openClose :
    (start smallVolume).AlwaysExact [.filesysOpen (fun _ => zero) none [47, 102], .fileClose 1] := by
  have hadm : EveryStep Admissible (start smallVolume)
      [.filesysOpen (fun _ => zero) none [47, 102], .fileClose 1] := by
    refine And.intro nofun fun os hrun => ?_
    have hfiles : ((start smallVolume).step (.filesysOpen (fun _ => zero) none [47, 102])).map
        OpenFiles.files = .ok [1] := by decide +kernel
    rw [hrun] at hfiles
    have hone : os.files = [1] := Except.ok.inj hfiles
    have hopen : 1 ∈ os.files := by rw [hone]; exact List.mem_singleton_self 1
    exact ⟨hopen, fun _ _ => trivial⟩
  have hsafe : EveryStep Safe (start smallVolume)
      [.filesysOpen (fun _ => zero) none [47, 102], .fileClose 1] := by
    refine And.intro ?_ fun _ _ => ⟨trivial, fun _ _ => trivial⟩
    intro hfinds
    obtain ⟨-, -, dir, s, -, -, p, inode, hp, -⟩ := hfinds
    cases hp
  exact (refCounts_exact_iff (start_counted smallVolume) hadm).mpr hsafe

end OpenFiles

end CSE130.Filesys
