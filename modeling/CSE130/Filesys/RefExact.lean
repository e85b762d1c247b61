import CSE130.Filesys.RefCounts

/-!
# Exact reference counts

In a run the counts are exact in every state, and no freed inode is used, if and only if `filesys_remove`
is never called for a directory and `filesys_open` never finds a removed inode.
-/

namespace CSE130.Filesys

open CSE130.Library DirEntry

variable {st st' : OpenInodes} {refs refs' : List Nat} {p q curr : Nat} {inode inode' : InodeRef}
  {s : Sector} {name path : List UInt8} {tokens : List (List UInt8)} {cwd : Option Nat}
  {e : Nat → DirEntry} {x : DirEntry}

/-! ## Where a path leads -/

/-- The sector of the inode to which some tokens lead. -/
def resolve (vol : Volume) (e : Nat → DirEntry) : Sector → List (List UInt8) → Option Sector
  | s, [] => some s
  | s, token :: tokens =>
    match vol.dirLookup (e tokens.length) s token with
    | none => none
    | some s => resolve vol e s tokens

/-- The sector of the directory that a path starts from. -/
def startSector (st : OpenInodes) (cwd : Option Nat) (path : List UInt8) : Sector :=
  if path.head? = some OpenInodes.slash then OpenInodes.rootDirSector
  else match cwd.bind st.inodes with
    | none => OpenInodes.rootDirSector
    | some inode => inode.sector

/-- The path leads to this sector, and its inode has not been removed. -/
def Leads (st : OpenInodes) (e : Nat → DirEntry) (cwd : Option Nat) (path : List UInt8) (s : Sector) :
    Prop :=
  resolve st.vol e (startSector st cwd path) (words OpenInodes.slash path) = some s ∧ ¬ Removed st s

/-- Removed inodes stay as long as they are held. -/
theorem removed_iff (h' : Counted st' refs') (hagrees : Agrees st st')
    (hheld : ∀ p i, st.inodes p = some i → i.removed = true → p ∈ refs') :
    Removed st' s ↔ Removed st s := by
  constructor
  · intro hremoved
    obtain ⟨p, i', hi', hsector, hr⟩ := hremoved
    cases hi : st.inodes p with
    | none =>
      have hfalse := (hagrees.new p i' hi hi').2
      rw [hr] at hfalse
      cases hfalse
    | some i =>
      obtain ⟨hs, hrem⟩ := hagrees.old p i i' hi hi'
      exact ⟨p, i, hi, by rw [← hs, hsector], by rw [← hrem, hr]⟩
  · intro hremoved
    obtain ⟨p, i, hi, hsector, hr⟩ := hremoved
    obtain ⟨i', hi', -⟩ := h'.inodeAt (hheld p i hi hr)
    obtain ⟨hs, hrem⟩ := hagrees.old p i i' hi hi'
    exact ⟨p, i', hi', by rw [hs, hsector], by rw [hrem, hr]⟩

theorem Agrees.held (hagrees : Agrees st st')
    (hheld : ∀ p i, st.inodes p = some i → i.removed = true → p ∈ refs) :
    ∀ p i, st'.inodes p = some i → i.removed = true → p ∈ refs := by
  intro p i' hi' hr
  cases hi : st.inodes p with
  | none =>
    have hfalse := (hagrees.new p i' hi hi').2
    rw [hr] at hfalse
    cases hfalse
  | some i => exact hheld p i hi (by rw [← (hagrees.old p i i' hi hi').2, hr])

theorem Counted.not_removed (h : Counted st refs) (hp : st.inodes p = some inode)
    (hr : inode.removed = false) : ¬ Removed st inode.sector := by
  intro hremoved
  obtain ⟨q, j, hj, hsector, hrem⟩ := hremoved
  have heq := h.sectors q p j inode hj hp hsector
  rw [heq, hp] at hj
  cases hj
  rw [hr] at hrem
  cases hrem

theorem Counted.mem (h : Counted st refs) (hp : st.inodes p = some inode) : p ∈ refs := by
  rw [h.held, hp]
  rfl

/-- `dir_lookup` gives a reference to the inode that it finds. -/
theorem dirLookup_ok (h : Counted st refs) (hp : st.inodes p = some inode) :
    ∃ r st', st.dirLookup x p name = .ok (r, st') ∧ Counted st' (r.toList ++ refs) ∧
      Agrees st st' ∧ (r = none → st.vol.dirLookup x inode.sector name = none) ∧
      ∀ q, r = some q → ∃ j, st'.inodes q = some j ∧
        st.vol.dirLookup x inode.sector name = some j.sector := by
  by_cases hdot : name = Volume.dot
  · obtain ⟨st', hrun, hcounted, hagrees⟩ := inodeReopen_ok h (h.mem hp)
    obtain ⟨j, hj, -⟩ := hcounted.inodeAt List.mem_cons_self
    refine ⟨some p, st', ?_, hcounted, hagrees, by simp, ?_⟩
    · rw [OpenInodes.dirLookup, if_pos hdot, hrun]
      rfl
    · intro q hq
      cases hq
      refine ⟨j, hj, ?_⟩
      rw [Volume.dirLookup, if_pos hdot, (hagrees.old p inode j hp hj).1]
  · have hat : st.inodeAt p = .ok inode := by rw [OpenInodes.inodeAt, hp]
    cases hlookup : st.vol.dirLookup x inode.sector name with
    | none =>
      refine ⟨none, st, ?_, h, .refl st, fun _ => rfl, by simp⟩
      rw [OpenInodes.dirLookup, if_neg hdot, hat, ok_bind, hlookup]
      rfl
    | some s =>
      obtain ⟨q, st', j, hrun, hcounted, hagrees, hj, hsector⟩ := inodeOpen_ok h s
      refine ⟨some q, st', ?_, hcounted, hagrees, by simp, ?_⟩
      · rw [OpenInodes.dirLookup, if_neg hdot, hat, ok_bind, hlookup]
        dsimp only
        rw [hrun]
        rfl
      · intro q' hq'
        cases hq'
        exact ⟨j, hj, by rw [hsector]⟩

theorem perm_erase_middle {l l' : List Nat} : ((l ++ p :: l').erase p).Perm (l ++ l') := by
  have herase := (@List.perm_middle _ p l l').erase p
  rwa [List.erase_cons_head] at herase

/-- The loop of `dir_open_path` gives up the directories on the way. -/
theorem walk_ok (h : Counted st (curr :: refs)) (hcurr : st.inodes curr = some inode)
    (hheld : ∀ p i, st.inodes p = some i → i.removed = true → p ∈ refs) :
    ∃ r st', OpenInodes.walk e st curr tokens = .ok (r, st') ∧ Counted st' (r.toList ++ refs) ∧
      Agrees st st' ∧
      (∀ p, r = some p → ∃ j, st'.inodes p = some j ∧ ¬ Removed st j.sector ∧
        resolve st.vol e inode.sector tokens = some j.sector) ∧
      (r = none → ∀ s, resolve st.vol e inode.sector tokens = some s → Removed st s) := by
  induction tokens generalizing st curr inode with
  | nil =>
    have hat : st.inodeAt curr = .ok inode := by rw [OpenInodes.inodeAt, hcurr]
    cases hr : inode.removed with
    | true =>
      obtain ⟨st', hrun, hcounted, hagrees⟩ := inodeClose_ok h List.mem_cons_self
      rw [List.erase_cons_head] at hcounted
      refine ⟨none, st', ?_, hcounted, hagrees, by simp, ?_⟩
      · rw [OpenInodes.walk, hat, ok_bind, if_pos hr, hrun]
        rfl
      · intro _ s hs
        cases hs
        exact ⟨curr, inode, hcurr, rfl, hr⟩
    | false =>
      refine ⟨some curr, st, ?_, h, .refl st, ?_, by simp⟩
      · rw [OpenInodes.walk, hat, ok_bind, if_neg (by simp [hr])]
        rfl
      · intro p hp
        cases hp
        exact ⟨inode, hcurr, h.not_removed hcurr hr, rfl⟩
  | cons token tokens ih =>
    obtain ⟨r, st₁, hrun₁, hcounted₁, hagrees₁, hnone, hsome⟩ :=
      @dirLookup_ok st _ curr inode token (e tokens.length) h hcurr
    obtain ⟨st₂, hrun₂, hcounted₂, hagrees₂⟩ := inodeClose_ok hcounted₁
      (List.mem_append_right _ (List.mem_cons_self (a := curr) (l := refs)))
    have hcounted₂ := hcounted₂.perm perm_erase_middle
    have hagrees := hagrees₁.trans h hagrees₂
    cases r with
    | none =>
      refine ⟨none, st₂, ?_, hcounted₂, hagrees, by simp, ?_⟩
      · rw [OpenInodes.walk, hrun₁, ok_bind]
        dsimp only
        rw [hrun₂]
        rfl
      · intro _ s hs
        rw [resolve, hnone rfl] at hs
        cases hs
    | some next =>
      obtain ⟨j, hj, hlookup⟩ := hsome next rfl
      obtain ⟨j₂, hj₂, -⟩ := hcounted₂.inodeAt List.mem_cons_self
      have hsector : j₂.sector = j.sector := (hagrees₂.old next j j₂ hj hj₂).1
      have hheld₂ := hagrees.held hheld
      obtain ⟨r, st₃, hrun₃, hcounted₃, hagrees₃, hfound, hlost⟩ := ih hcounted₂ hj₂ hheld₂
      have hremoved : ∀ s, Removed st₂ s ↔ Removed st s := fun s =>
        removed_iff hcounted₂ hagrees fun p i hi hr => List.mem_append_right _ (hheld p i hi hr)
      have hresolve : resolve st.vol e inode.sector (token :: tokens) =
          resolve st₂.vol e j₂.sector tokens := by
        rw [resolve, hlookup, hagrees.vol, hsector]
      refine ⟨r, st₃, ?_, hcounted₃, hagrees.trans h hagrees₃, ?_, ?_⟩
      · rw [OpenInodes.walk, hrun₁, ok_bind]
        dsimp only
        rw [hrun₂]
        exact hrun₃
      · intro p hp
        obtain ⟨i, hi, hnot, hres⟩ := hfound p hp
        refine ⟨i, hi, ?_, by rw [hresolve, hres]⟩
        rwa [← hremoved]
      · intro hr s hs
        rw [← hremoved]
        exact hlost hr s (by rw [← hresolve, hs])

theorem openStart_ok (h : Counted st refs) (hcwd : ∀ p ∈ cwd, p ∈ refs) :
    ∃ p st' inode, st.openStart cwd path = .ok (p, st') ∧ Counted st' (p :: refs) ∧ Agrees st st' ∧
      st'.inodes p = some inode ∧ inode.sector = startSector st cwd path := by
  unfold OpenInodes.openStart startSector
  split_ifs with habs
  · exact inodeOpen_ok h _
  · cases cwd with
    | none => exact inodeOpen_ok h _
    | some p =>
      have hp : p ∈ refs := hcwd p rfl
      obtain ⟨st', hrun, hcounted, hagrees⟩ := inodeReopen_ok h hp
      obtain ⟨inode, hinode, -⟩ := h.inodeAt hp
      obtain ⟨inode', hinode', -⟩ := hcounted.inodeAt List.mem_cons_self
      refine ⟨p, st', inode', ?_, hcounted, hagrees, hinode', ?_⟩
      · dsimp only
        rw [hrun]
        rfl
      · rw [Option.bind_some, hinode]
        exact (hagrees.old p inode inode' hinode hinode').1

/-- `dir_open_path` gives a reference to the directory to which the path leads. -/
theorem dirOpenPath_ok (h : Counted st refs) (hcwd : ∀ p ∈ cwd, p ∈ refs) :
    ∃ r st', st.dirOpenPath e cwd path = .ok (r, st') ∧ Counted st' (r.toList ++ refs) ∧
      Agrees st st' ∧
      (∀ p, r = some p → ∃ j, st'.inodes p = some j ∧ Leads st e cwd path j.sector) ∧
      (r = none → ∀ s, ¬ Leads st e cwd path s) := by
  obtain ⟨curr, st₁, inode, hrun₁, hcounted₁, hagrees₁, hinode, hsector⟩ :=
    @openStart_ok st refs path cwd h hcwd
  have hheld : ∀ p i, st.inodes p = some i → i.removed = true → p ∈ refs :=
    fun p i hi _ => h.mem hi
  obtain ⟨r, st₂, hrun₂, hcounted₂, hagrees₂, hfound, hlost⟩ :=
    @walk_ok st₁ refs curr inode (words OpenInodes.slash path) e hcounted₁ hinode
      (hagrees₁.held hheld)
  have hremoved : ∀ s, Removed st₁ s ↔ Removed st s := fun s =>
    removed_iff hcounted₁ hagrees₁ fun p i hi hr => List.mem_cons_of_mem _ (hheld p i hi hr)
  rw [hagrees₁.vol, hsector] at hfound hlost
  refine ⟨r, st₂, ?_, hcounted₂, hagrees₁.trans h hagrees₂, ?_, ?_⟩
  · rw [OpenInodes.dirOpenPath, hrun₁, ok_bind]
    exact hrun₂
  · intro p hp
    obtain ⟨j, hj, hnot, hres⟩ := hfound p hp
    rw [hremoved] at hnot
    exact ⟨j, hj, hres, hnot⟩
  · intro hr s hleads
    exact hleads.2 ((hremoved s).mp (hlost hr s hleads.1))

/-! ## Opening a file -/

/-- `filesys_open` finds an inode that has been removed. -/
def FindsRemoved (st : OpenInodes) (e : Nat → DirEntry) (cwd : Option Nat) (name : List UInt8) : Prop :=
  name ≠ [] ∧ (OpenInodes.splitPathFilename name).2 ≠ [] ∧
    ∃ dir s, Leads st e cwd (OpenInodes.splitPathFilename name).1 dir ∧
      st.vol.dirLookup (e 0) dir (OpenInodes.splitPathFilename name).2 = some s ∧ Removed st s

/-- Where the directory is there, `filesys_open` gives up the reference to it or hands it on. -/
theorem openInDir_ok (h : Counted st (p :: refs)) (hp : st.inodes p = some inode) :
    ∃ r st', st.openInDir x p name = .ok (r, st') ∧ Counted st' (r.toList ++ refs) ∧ Agrees st st' ∧
      (name = [] → r = some p) ∧
      (name ≠ [] → r = none → st.vol.dirLookup x inode.sector name = none) ∧
      (name ≠ [] → ∀ q, r = some q → ∃ j, st'.inodes q = some j ∧
        st.vol.dirLookup x inode.sector name = some j.sector) := by
  by_cases hname : name = []
  · refine ⟨some p, st, ?_, h, .refl st, fun _ => rfl, fun hne => absurd hname hne,
      fun hne => absurd hname hne⟩
    rw [OpenInodes.openInDir, if_neg (not_not.mpr hname)]
    rfl
  · obtain ⟨r, st₁, hrun₁, hcounted₁, hagrees₁, hnone, hsome⟩ := @dirLookup_ok st _ p inode name x h hp
    obtain ⟨st₂, hrun₂, hcounted₂, hagrees₂⟩ := inodeClose_ok hcounted₁
      (List.mem_append_right _ (List.mem_cons_self (a := p) (l := refs)))
    have hcounted := hcounted₂.perm perm_erase_middle
    refine ⟨r, st₂, ?_, hcounted, hagrees₁.trans h hagrees₂, fun heq => absurd heq hname,
      fun _ => hnone, ?_⟩
    · rw [OpenInodes.openInDir, if_pos hname, hrun₁, ok_bind]
      dsimp only
      rw [hrun₂]
      rfl
    · intro _ q hq
      subst hq
      obtain ⟨j, hj, hlookup⟩ := hsome q rfl
      obtain ⟨j₂, hj₂, -⟩ := hcounted.inodeAt List.mem_cons_self
      exact ⟨j₂, hj₂, by rw [hlookup, (hagrees₂.old q j j₂ hj hj₂).1]⟩

/-- `filesys_open` takes a reference for the file that it opens; it keeps that to a removed inode, and
returns `NULL`. -/
theorem filesysOpen_cases (h : Counted st refs) (hcwd : ∀ p ∈ cwd, p ∈ refs) :
    ∃ r st', st.filesysOpen e cwd name = .ok (r, st') ∧
      (¬ FindsRemoved st e cwd name ∧ Counted st' (r.toList ++ refs) ∨
        FindsRemoved st e cwd name ∧ r = none ∧ ∃ q, Counted st' (q :: refs)) := by
  by_cases hname : name = []
  · refine ⟨none, st, ?_, .inl ⟨fun hfinds => hfinds.1 hname, h⟩⟩
    rw [OpenInodes.filesysOpen, if_pos hname]
    rfl
  obtain ⟨dir, st₁, hrun₁, hcounted₁, hagrees₁, hfound, hlost⟩ :=
    @dirOpenPath_ok st refs (OpenInodes.splitPathFilename name).1 cwd e h hcwd
  rw [OpenInodes.filesysOpen, if_neg hname, hrun₁, ok_bind]
  cases dir with
  | none =>
    refine ⟨none, st₁, rfl, .inl ⟨?_, hcounted₁⟩⟩
    intro hfinds
    obtain ⟨-, -, dir, s, hleads, -, -⟩ := hfinds
    exact hlost rfl dir hleads
  | some dir =>
    obtain ⟨i, hi, hleads⟩ := hfound dir rfl
    obtain ⟨r, st₂, hrun₂, hcounted₂, hagrees₂, hself, hnone, hsome⟩ :=
      @openInDir_ok st₁ refs dir i (OpenInodes.splitPathFilename name).2 (e 0) hcounted₁ hi
    have hagrees := hagrees₁.trans h hagrees₂
    have hremoved : ∀ s, Removed st₂ s ↔ Removed st s := fun s =>
      removed_iff hcounted₂ hagrees fun p i hi _ => List.mem_append_right _ (h.mem hi)
    rw [hagrees₁.vol] at hnone hsome
    have hunique : ∀ d, Leads st e cwd (OpenInodes.splitPathFilename name).1 d → d = i.sector := by
      intro d hd
      have hsame := hd.1.symm.trans hleads.1
      exact Option.some.inj hsame
    dsimp only
    rw [hrun₂, ok_bind]
    cases r with
    | none =>
      refine ⟨none, st₂, rfl, .inl ⟨?_, hcounted₂⟩⟩
      intro hfinds
      obtain ⟨-, hne, d, s, hd, hs, -⟩ := hfinds
      rw [hunique d hd, hnone hne rfl] at hs
      cases hs
    | some q =>
      obtain ⟨j, hj, hat⟩ := hcounted₂.inodeAt List.mem_cons_self
      refine ⟨if j.removed then none else some q, st₂, ?_, ?_⟩
      · dsimp only
        rw [hat]
        rfl
      · cases hr : j.removed with
        | true =>
          right
          have hrem : Removed st₂ j.sector := ⟨q, j, hj, rfl, hr⟩
          have hne : (OpenInodes.splitPathFilename name).2 ≠ [] := by
            intro heq
            have hq : q = dir := Option.some.inj (hself heq)
            rw [hq] at hj
            have hsector := (hagrees₂.old dir i j hi hj).1
            rw [hremoved, hsector] at hrem
            exact hleads.2 hrem
          obtain ⟨j', hj', hlookup⟩ := hsome hne q rfl
          rw [hj] at hj'
          cases hj'
          exact ⟨⟨hname, hne, i.sector, j.sector, hleads, hlookup, (hremoved _).mp hrem⟩, rfl, q,
            hcounted₂⟩
        | false =>
          left
          refine ⟨?_, hcounted₂⟩
          intro hfinds
          obtain ⟨-, hne, d, s, hd, hs, hrem⟩ := hfinds
          obtain ⟨j', hj', hlookup⟩ := hsome hne q rfl
          rw [hj] at hj'
          cases hj'
          rw [hunique d hd, hlookup] at hs
          cases hs
          exact hcounted₂.not_removed hj hr ((hremoved _).mpr hrem)

/-! ## Removing a file -/

/-- `filesys_remove` finds a directory. -/
def FindsDirectory (st : OpenInodes) (e : Nat → DirEntry) (cwd : Option Nat) (name : List UInt8) :
    Prop :=
  ∃ dir f ofs, Leads st e cwd (OpenInodes.splitPathFilename name).1 dir ∧
    st.vol.lookup dir (OpenInodes.splitPathFilename name).2 = some (f, ofs) ∧
    st.vol.isDir f.inodeSector = true

/-- The end of `dir_remove` gives up one reference. -/
theorem eraseEntry_ok {dir : Sector} {ofs : Nat} (h : Counted st refs) (hp : p ∈ refs) :
    ∃ b st', st.eraseEntry dir x ofs p = .ok (b, st') ∧ Counted st' (refs.erase p) := by
  generalize hwrite : st.vol.inodeWriteAt false dir { x with inUse := 0 }.toBytes ofs = w
  obtain ⟨written, vol⟩ := w
  have hcounted := h.withVol vol
  by_cases hall : written = entrySize
  · obtain ⟨st₁, hrun₁, hcounted₁⟩ := inodeRemove_ok hcounted hp
    obtain ⟨st₂, hrun₂, hcounted₂, -⟩ := inodeClose_ok hcounted₁ hp
    refine ⟨true, st₂, ?_, hcounted₂⟩
    simp only [OpenInodes.eraseEntry, hwrite, if_pos hall, hrun₁, ok_bind, hrun₂]
    rfl
  · obtain ⟨st₁, hrun₁, hcounted₁, -⟩ := inodeClose_ok hcounted hp
    refine ⟨false, st₁, ?_, hcounted₁⟩
    simp only [OpenInodes.eraseEntry, hwrite, if_neg hall, hrun₁, ok_bind]
    rfl

theorem eraseEntry_eq_ok {dir : Sector} {ofs : Nat} {b : Bool} (h : Counted st refs)
    (hrun : st.eraseEntry dir x ofs p = .ok (b, st')) : p ∈ refs ∧ Counted st' (refs.erase p) := by
  by_cases hp : p ∈ refs
  · obtain ⟨b₁, st₁, hok, hcounted⟩ := @eraseEntry_ok st refs p x dir ofs h hp
    rw [hok] at hrun
    cases hrun
    exact ⟨hp, hcounted⟩
  · generalize hwrite : st.vol.inodeWriteAt false dir { x with inUse := 0 }.toBytes ofs = w
    obtain ⟨written, vol⟩ := w
    have herror := (h.withVol vol).inodeAt_error hp
    simp only [OpenInodes.eraseEntry, hwrite, OpenInodes.inodeRemove, OpenInodes.inodeClose,
      herror] at hrun
    split_ifs at hrun <;> cases hrun

/-- `dir_remove` of a file gives up the reference that it takes. -/
theorem dirRemove_ok (h : Counted st refs) (hp : st.inodes p = some inode)
    (hfile : ∀ f ofs, st.vol.lookup inode.sector name = some (f, ofs) →
      st.vol.isDir f.inodeSector = false) :
    ∃ b st', st.dirRemove p name = .ok (b, st') ∧ Counted st' refs := by
  have hat : st.inodeAt p = .ok inode := by rw [OpenInodes.inodeAt, hp]
  cases hlookup : st.vol.lookup inode.sector name with
  | none =>
    refine ⟨false, st, ?_, h⟩
    rw [OpenInodes.dirRemove, hat, ok_bind, hlookup]
    rfl
  | some found =>
    obtain ⟨f, ofs⟩ := found
    obtain ⟨q, st₁, j, hrun₁, hcounted₁, hagrees₁, hj, hsector⟩ := inodeOpen_ok h f.inodeSector
    have hat₁ : st₁.inodeAt q = .ok j := by rw [OpenInodes.inodeAt, hj]
    have hnot : ¬ st₁.vol.isDir j.sector = true := by
      simp [hagrees₁.vol, hsector, hfile f ofs hlookup]
    obtain ⟨b, st₂, hrun₂, hcounted₂⟩ :=
      @eraseEntry_ok st₁ _ q f inode.sector ofs hcounted₁ List.mem_cons_self
    rw [List.erase_cons_head] at hcounted₂
    refine ⟨b, st₂, ?_, hcounted₂⟩
    rw [OpenInodes.dirRemove, hat, ok_bind, hlookup]
    dsimp only
    rw [hrun₁, ok_bind]
    dsimp only
    rw [hat₁, ok_bind, if_neg hnot, hrun₂]

/-- Where `dir_remove` of a directory comes to an end, it has given up one reference that it had not
taken. -/
theorem dirRemove_directory {f : DirEntry} {ofs : Nat} {b : Bool} (h : Counted st refs)
    (hp : st.inodes p = some inode) (hlookup : st.vol.lookup inode.sector name = some (f, ofs))
    (hdir : st.vol.isDir f.inodeSector = true) (hrun : st.dirRemove p name = .ok (b, st')) :
    ∃ q ∈ refs, Counted st' (refs.erase q) := by
  have hat : st.inodeAt p = .ok inode := by rw [OpenInodes.inodeAt, hp]
  obtain ⟨q, st₁, j, hrun₁, hcounted₁, hagrees₁, hj, hsector⟩ := inodeOpen_ok h f.inodeSector
  have hat₁ : st₁.inodeAt q = .ok j := by rw [OpenInodes.inodeAt, hj]
  have hisDir : st₁.vol.isDir j.sector = true := by rw [hagrees₁.vol, hsector, hdir]
  obtain ⟨st₂, hrun₂, hcounted₂, -⟩ := inodeClose_ok hcounted₁ List.mem_cons_self
  rw [List.erase_cons_head] at hcounted₂
  rw [OpenInodes.dirRemove, hat, ok_bind, hlookup] at hrun
  dsimp only at hrun
  rw [hrun₁, ok_bind] at hrun
  dsimp only at hrun
  rw [hat₁, ok_bind, if_pos hisDir] at hrun
  rw [hrun₂, ok_bind] at hrun
  split_ifs at hrun with hempty
  · exact ⟨q, eraseEntry_eq_ok hcounted₂ hrun⟩
  · rw [bind_eq_ok] at hrun
    obtain ⟨st₃, hclose, heq⟩ := hrun
    rw [pure_eq_ok, Prod.mk.injEq] at heq
    obtain ⟨-, rfl⟩ := heq
    exact ⟨q, inodeClose_eq_ok hcounted₂ hclose⟩

theorem filesysRemove_ok (h : Counted st refs) (hcwd : ∀ p ∈ cwd, p ∈ refs)
    (hfile : ¬ FindsDirectory st e cwd name) :
    ∃ b st', st.filesysRemove e cwd name = .ok (b, st') ∧ Counted st' refs := by
  obtain ⟨dir, st₁, hrun₁, hcounted₁, hagrees₁, hfound, hlost⟩ :=
    @dirOpenPath_ok st refs (OpenInodes.splitPathFilename name).1 cwd e h hcwd
  cases dir with
  | none =>
    refine ⟨false, st₁, ?_, hcounted₁⟩
    rw [OpenInodes.filesysRemove, hrun₁]
    rfl
  | some dir =>
    obtain ⟨i, hi, hleads⟩ := hfound dir rfl
    obtain ⟨b, st₂, hrun₂, hcounted₂⟩ := @dirRemove_ok st₁ _ dir i
      (OpenInodes.splitPathFilename name).2 hcounted₁ hi (by
        intro f ofs hlookup
        rw [hagrees₁.vol] at hlookup ⊢
        by_contra hdir
        exact hfile ⟨i.sector, f, ofs, hleads, hlookup, by simpa using hdir⟩)
    obtain ⟨st₃, hrun₃, hcounted₃, -⟩ := inodeClose_ok hcounted₂ List.mem_cons_self
    refine ⟨b, st₃, ?_, by rwa [Option.toList_some, List.singleton_append, List.erase_cons_head] at hcounted₃⟩
    rw [OpenInodes.filesysRemove, hrun₁, ok_bind]
    dsimp only
    rw [hrun₂, ok_bind]
    dsimp only
    rw [hrun₃]
    rfl

theorem filesysRemove_directory {b : Bool} (h : Counted st refs) (hcwd : ∀ p ∈ cwd, p ∈ refs)
    (hfinds : FindsDirectory st e cwd name)
    (hrun : st.filesysRemove e cwd name = .ok (b, st')) :
    ∃ refs', Counted st' refs' ∧ refs'.length + 1 = refs.length := by
  obtain ⟨d, f, ofs, hd, hlookup, hdir⟩ := hfinds
  obtain ⟨dir, st₁, hrun₁, hcounted₁, hagrees₁, hfound, hlost⟩ :=
    @dirOpenPath_ok st refs (OpenInodes.splitPathFilename name).1 cwd e h hcwd
  rw [OpenInodes.filesysRemove, hrun₁, ok_bind] at hrun
  cases dir with
  | none => exact absurd hd (hlost rfl d)
  | some dir =>
    obtain ⟨i, hi, hleads⟩ := hfound dir rfl
    have hsector : d = i.sector := Option.some.inj (hd.1.symm.trans hleads.1)
    rw [hsector] at hlookup
    dsimp only at hrun
    rw [bind_eq_ok] at hrun
    obtain ⟨⟨b₁, st₂⟩, hremove, hrun⟩ := hrun
    dsimp only at hrun
    rw [bind_eq_ok] at hrun
    obtain ⟨st₃, hclose, heq⟩ := hrun
    rw [pure_eq_ok, Prod.mk.injEq] at heq
    obtain ⟨-, rfl⟩ := heq
    obtain ⟨q, hq, hcounted₂⟩ := dirRemove_directory hcounted₁ hi (by rwa [hagrees₁.vol])
      (by rwa [hagrees₁.vol]) hremove
    obtain ⟨hmem, hcounted₃⟩ := inodeClose_eq_ok hcounted₂ hclose
    refine ⟨_, hcounted₃, ?_⟩
    have hpos := List.length_pos_of_mem hmem
    rw [List.length_erase_of_mem hmem]
    rw [List.length_erase_of_mem hq, Option.toList_some, List.singleton_append, List.length_cons]
      at hpos ⊢
    omega

end CSE130.Filesys
