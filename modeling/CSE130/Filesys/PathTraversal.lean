import CSE130.Filesys.RefExact

/-!
# Directories on a path

Rendering of `dir_open_path` and of its callers in `filesys.c`, with the inodes that each of them uses as
directories. Inodes are known by their sectors, and what is counted of their references is left out.
`dir_open` does not look at `is_dir`, so that a regular file on the way is taken for a directory.
-/

namespace CSE130.Filesys

open CSE130.Library

/-- The inodes, and which of them have been removed. -/
structure Inodes where
  vol : Volume
  removed : Sector → Bool

namespace Inodes

open OpenInodes (slash rootDirSector splitPathFilename)

/-- The directory that `dir_open_path` starts from. `cwd` is that of the thread. -/
def start (cwd : Option Sector) (path : List UInt8) : Sector :=
  if path.head? = some slash then rootDirSector else cwd.getD rootDirSector

/-- The loop of `dir_open_path`, and what follows: the inodes in which a component is looked up, and the
directory, if there is one. `e` has the bytes of the variable in `dir_lookup`, for each number of tokens
left. -/
def walk (ns : Inodes) (e : Nat → DirEntry) : Sector → List (List UInt8) → List Sector × Option Sector
  | curr, [] => ([], if ns.removed curr then none else some curr)
  | curr, token :: tokens =>
    match ns.vol.dirLookup (e tokens.length) curr token with
    | none => ([curr], none)
    | some next => (curr :: (ns.walk e next tokens).1, (ns.walk e next tokens).2)

/-- `dir_open_path` (`directory.c:119-168`). -/
def dirOpenPath (ns : Inodes) (e : Nat → DirEntry) (cwd : Option Sector) (path : List UInt8) :
    List Sector × Option Sector :=
  ns.walk e (start cwd path) (words slash path)

/-- `filesys_open` (`filesys.c:82-110`): the inodes that are used as directories, and that of the new file. -/
def filesysOpen (ns : Inodes) (e : Nat → DirEntry) (cwd : Option Sector) (name : List UInt8) :
    List Sector × Option Sector :=
  if name = [] then ([], none)
  else
    let (used, dir) := ns.dirOpenPath e cwd (splitPathFilename name).1
    match dir with
    | none => (used, none)
    | some dir =>
      if (splitPathFilename name).2 ≠ [] then
        let inode := ns.vol.dirLookup (e 0) dir (splitPathFilename name).2
        (used ++ [dir], inode.filter fun x => !ns.removed x)
      else (used, some dir)

/-- What `filesys_create` gets: the sector of the new inode, and whether the inode and the directory can
grow. -/
structure Supply where
  inodeSector : Option Sector
  inodeGrows : Bool
  dirGrows : Bool

/-- `filesys_create` (`filesys.c:54-75`): the inodes that are used as directories, whether it succeeds, and
the inodes afterwards. -/
def filesysCreate (ns : Inodes) (e : Nat → DirEntry) (e' : DirEntry) (supply : Supply)
    (cwd : Option Sector) (path : List UInt8) (initialSize : Nat) (isDir : Bool) :
    List Sector × Bool × Volume :=
  let (used, dir) := ns.dirOpenPath e cwd (splitPathFilename path).1
  match dir, supply.inodeSector with
  | none, _ => (used, false, ns.vol)
  | some _, none => (used, false, ns.vol)
  | some dir, some inodeSector =>
    let (created, vol) := ns.vol.inodeCreate supply.inodeGrows inodeSector initialSize isDir
    if created then
      (used ++ [dir], vol.dirAdd supply.dirGrows e' dir (splitPathFilename path).2 inodeSector isDir)
    else (used, false, vol)

/-- The inodes that `dir_remove` uses as directories: the one that it is given, and the one that it
removes, if that has `is_dir` set. -/
def removeUses (ns : Inodes) (dir : Sector) (name : List UInt8) : List Sector :=
  dir :: match ns.vol.lookup dir name with
    | none => []
    | some (x, _) => if ns.vol.isDir x.inodeSector then [x.inodeSector] else []

/-- `filesys_remove` (`filesys.c:116-128`): the inodes that are used as directories, whether it succeeds, and
the inodes afterwards. -/
def filesysRemove (ns : Inodes) (e : Nat → DirEntry) (cwd : Option Sector) (name : List UInt8) :
    List Sector × Bool × Volume :=
  let (used, dir) := ns.dirOpenPath e cwd (splitPathFilename name).1
  match dir with
  | none => (used, false, ns.vol)
  | some dir =>
    (used ++ ns.removeUses dir (splitPathFilename name).2,
      ns.vol.dirRemove false dir (splitPathFilename name).2)

/-- `filesys_chdir` (`filesys.c:131-144`): the inodes that are used as directories, whether it succeeds, and
the working directory afterwards. -/
def filesysChdir (ns : Inodes) (e : Nat → DirEntry) (cwd : Option Sector) (name : List UInt8) :
    List Sector × Bool × Option Sector :=
  let (used, dir) := ns.dirOpenPath e cwd name
  match dir with
  | none => (used, false, cwd)
  | some dir => (used, true, some dir)

/-- The calls that open a directory by its path. -/
inductive PathCall where
  | filesysOpen (name : List UInt8)
  | filesysCreate (e' : DirEntry) (supply : Supply) (path : List UInt8) (initialSize : Nat)
    (isDir : Bool)
  | filesysRemove (name : List UInt8)
  | filesysChdir (name : List UInt8)

/-- The path for which a call opens a directory. -/
def PathCall.directory : PathCall → Option (List UInt8)
  | .filesysOpen name => if name = [] then none else some (splitPathFilename name).1
  | .filesysCreate _ _ path _ _ => some (splitPathFilename path).1
  | .filesysRemove name => some (splitPathFilename name).1
  | .filesysChdir name => some name

/-- The inodes that a call uses as directories. -/
def PathCall.used (ns : Inodes) (e : Nat → DirEntry) (cwd : Option Sector) : PathCall → List Sector
  | .filesysOpen name => (ns.filesysOpen e cwd name).1
  | .filesysCreate e' supply path initialSize isDir =>
    (ns.filesysCreate e e' supply cwd path initialSize isDir).1
  | .filesysRemove name => (ns.filesysRemove e cwd name).1
  | .filesysChdir name => (ns.filesysChdir e cwd name).1

/-! ## What the traversal is for -/

/-- The inode to which components lead in the tree of directories, where regular files have no entries.
`left` components come after them. -/
def treeResolve (vol : Volume) (e : Nat → DirEntry) (left : Nat) : Sector → List (List UInt8) → Option Sector
  | x, [] => some x
  | x, token :: tokens =>
    if vol.isDir x then (vol.dirLookup (e (tokens.length + left)) x token).bind fun next =>
      treeResolve vol e left next tokens
    else none

/-- No initial part of the path is the path of a regular file, except for the whole path of a removed
one. -/
def NamesNoFile (ns : Inodes) (e : Nat → DirEntry) (x : Sector) (tokens : List (List UInt8)) : Prop :=
  ∀ before after, tokens = before ++ after → ∀ f, treeResolve ns.vol e after.length x before = some f →
    ns.vol.isDir f = true ∨ after = [] ∧ ns.removed f = true

/-- `dir_open_path` stays in directories: the inodes in which it looks up a component, and the one that it
returns. -/
def StaysInDirs (ns : Inodes) (r : List Sector × Option Sector) : Prop :=
  (∀ x ∈ r.1, ns.vol.isDir x = true) ∧ ∀ x ∈ r.2, ns.vol.isDir x = true

section Traversal

variable {ns : Inodes} {e : Nat → DirEntry} {x : Sector} {token : List UInt8}
  {tokens : List (List UInt8)}

theorem namesNoFile_nil : NamesNoFile ns e x [] ↔ ns.vol.isDir x = true ∨ ns.removed x = true := by
  constructor
  · intro h
    rcases h [] [] rfl x rfl with hdir | ⟨-, hremoved⟩
    · exact Or.inl hdir
    · exact Or.inr hremoved
  · intro h before after happend f hf
    obtain ⟨rfl, rfl⟩ := List.append_eq_nil_iff.mp happend.symm
    cases hf
    rcases h with hdir | hremoved
    · exact Or.inl hdir
    · exact Or.inr ⟨rfl, hremoved⟩

theorem namesNoFile_cons : NamesNoFile ns e x (token :: tokens) ↔ ns.vol.isDir x = true ∧
    ∀ next, ns.vol.dirLookup (e tokens.length) x token = some next → NamesNoFile ns e next tokens := by
  constructor
  · intro h
    have hdir : ns.vol.isDir x = true := by
      rcases h [] (token :: tokens) rfl x rfl with hdir | ⟨hnil, -⟩
      · exact hdir
      · cases hnil
    refine ⟨hdir, ?_⟩
    intro next hnext before after happend f hf
    apply h (token :: before) after (by rw [happend, List.cons_append]) f
    have hleft : before.length + after.length = tokens.length := by
      rw [happend, List.length_append]
    rw [treeResolve, if_pos hdir, hleft, hnext]
    exact hf
  · rintro ⟨hdir, h⟩ before after happend f hf
    cases before with
    | nil =>
      cases hf
      exact Or.inl hdir
    | cons t before =>
      rw [List.cons_append, List.cons.injEq] at happend
      obtain ⟨rfl, happend⟩ := happend
      have hleft : before.length + after.length = tokens.length := by
        rw [happend, List.length_append]
      rw [treeResolve, if_pos hdir, hleft] at hf
      obtain ⟨next, hnext, hf⟩ := Option.bind_eq_some_iff.mp hf
      exact h next hnext before after happend f hf

/-- The loop stays in directories if and only if no regular file is on the way. -/
theorem walk_stays_iff : StaysInDirs ns (ns.walk e x tokens) ↔ NamesNoFile ns e x tokens := by
  induction tokens generalizing x with
  | nil =>
    rw [namesNoFile_nil, walk]
    cases hremoved : ns.removed x <;> simp [StaysInDirs]
  | cons token tokens ih =>
    rw [namesNoFile_cons, walk]
    cases hlookup : ns.vol.dirLookup (e tokens.length) x token with
    | none => simp [StaysInDirs]
    | some next =>
      have hnext : (∀ y, some next = some y → NamesNoFile ns e y tokens) ↔
          NamesNoFile ns e next tokens := by simp
      rw [hnext, ← ih]
      simp only [StaysInDirs, List.mem_cons, forall_eq_or_imp]
      exact and_assoc

theorem StaysInDirs.append {r : List Sector × Option Sector} {dir : Sector} (h : StaysInDirs ns r)
    (hdir : r.2 = some dir) : ∀ y ∈ r.1 ++ [dir], ns.vol.isDir y = true := by
  intro y hy
  rcases List.mem_append.mp hy with hy | hy
  · exact h.1 y hy
  · rw [List.mem_singleton.mp hy]
    exact h.2 dir hdir

theorem filesysOpen_used {cwd : Option Sector} {name : List UInt8} (hname : name ≠ [])
    (h : StaysInDirs ns (ns.dirOpenPath e cwd (splitPathFilename name).1)) :
    ∀ y ∈ (ns.filesysOpen e cwd name).1, ns.vol.isDir y = true := by
  rw [filesysOpen, if_neg hname]
  dsimp only
  cases hdir : (ns.dirOpenPath e cwd (splitPathFilename name).1).2 with
  | none => exact h.1
  | some dir =>
    dsimp only
    split_ifs
    · exact h.append hdir
    · exact h.1

theorem filesysCreate_used {cwd : Option Sector} {path : List UInt8} {e' : DirEntry} {supply : Supply}
    {initialSize : Nat} {isDir : Bool}
    (h : StaysInDirs ns (ns.dirOpenPath e cwd (splitPathFilename path).1)) :
    ∀ y ∈ (ns.filesysCreate e e' supply cwd path initialSize isDir).1, ns.vol.isDir y = true := by
  rw [filesysCreate]
  dsimp only
  cases hdir : (ns.dirOpenPath e cwd (splitPathFilename path).1).2 with
  | none => exact h.1
  | some dir =>
    cases supply.inodeSector with
    | none => exact h.1
    | some inodeSector =>
      dsimp only
      split_ifs
      · exact h.append hdir
      · exact h.1

/-- `dir_remove` looks at `is_dir` before it uses the inode that it removes. -/
theorem removeUses_isDir {dir : Sector} {name : List UInt8} (hdir : ns.vol.isDir dir = true) :
    ∀ y ∈ ns.removeUses dir name, ns.vol.isDir y = true := by
  intro y hy
  rcases List.mem_cons.mp hy with rfl | hy
  · exact hdir
  · cases hlookup : ns.vol.lookup dir name with
    | none => simp [hlookup] at hy
    | some found =>
      simp only [hlookup] at hy
      split_ifs at hy with htarget
      · rw [List.mem_singleton.mp hy]
        exact htarget
      · cases hy

theorem filesysRemove_used {cwd : Option Sector} {name : List UInt8}
    (h : StaysInDirs ns (ns.dirOpenPath e cwd (splitPathFilename name).1)) :
    ∀ y ∈ (ns.filesysRemove e cwd name).1, ns.vol.isDir y = true := by
  rw [filesysRemove]
  dsimp only
  cases hdir : (ns.dirOpenPath e cwd (splitPathFilename name).1).2 with
  | none => exact h.1
  | some dir =>
    intro y hy
    rcases List.mem_append.mp hy with hy | hy
    · exact h.1 y hy
    · exact removeUses_isDir (h.2 dir hdir) y hy

theorem filesysChdir_used {cwd : Option Sector} {name : List UInt8}
    (h : StaysInDirs ns (ns.dirOpenPath e cwd name)) :
    ∀ y ∈ (ns.filesysChdir e cwd name).1, ns.vol.isDir y = true := by
  rw [filesysChdir]
  dsimp only
  cases (ns.dirOpenPath e cwd name).2 <;> exact h.1

/-- Where the traversal stays in directories, so does the call. -/
theorem PathCall.used_isDir {cwd : Option Sector} {call : PathCall}
    (h : ∀ path ∈ call.directory, StaysInDirs ns (ns.dirOpenPath e cwd path)) :
    ∀ y ∈ call.used ns e cwd, ns.vol.isDir y = true := by
  cases call with
  | filesysOpen name =>
    by_cases hname : name = []
    · subst hname
      intro y hy
      cases hy
    · exact filesysOpen_used hname (h _ (if_neg hname))
  | filesysCreate e' supply path initialSize isDir => exact filesysCreate_used (h _ rfl)
  | filesysRemove name => exact filesysRemove_used (h _ rfl)
  | filesysChdir name => exact filesysChdir_used (h _ rfl)

/-! ## The traversal with reference counts -/

theorem walk_snd (ns : Inodes) (e : Nat → DirEntry) (x : Sector) (tokens : List (List UInt8)) :
    (ns.walk e x tokens).2 = (resolve ns.vol e x tokens).filter fun s => !ns.removed s := by
  induction tokens generalizing x with
  | nil =>
    rw [walk, resolve, Option.filter_some]
    cases ns.removed x <;> rfl
  | cons token tokens ih =>
    rw [walk, resolve]
    cases ns.vol.dirLookup (e tokens.length) x token with
    | none => rfl
    | some next => exact ih next

/-- `dir_open_path` with its reference counts returns the inode of the directory that it returns here. -/
theorem dirOpenPath_counted {st : OpenInodes} {refs : List Nat} {cwd : Option Nat} {path : List UInt8}
    (h : Counted st refs) (hcwd : ∀ p ∈ cwd, p ∈ refs) (hvol : ns.vol = st.vol)
    (hremoved : ∀ s, ns.removed s = true ↔ Removed st s) :
    ∃ r st', st.dirOpenPath e cwd path = .ok (r, st') ∧
      (r.bind st'.inodes).map (·.sector) =
        (ns.dirOpenPath e ((cwd.bind st.inodes).map (·.sector)) path).2 := by
  obtain ⟨r, st', hrun, -, -, hfound, hlost⟩ := @dirOpenPath_ok st refs path cwd e h hcwd
  refine ⟨r, st', hrun, ?_⟩
  have hstart : start ((cwd.bind st.inodes).map (·.sector)) path = startSector st cwd path := by
    unfold start startSector
    cases cwd.bind st.inodes <;> rfl
  rw [dirOpenPath, walk_snd, hstart, hvol]
  symm
  cases r with
  | none =>
    rw [Option.bind_none, Option.map_none, Option.filter_eq_none_iff]
    intro s hs hnot
    apply hlost rfl s ⟨hs, ?_⟩
    rw [← hremoved]
    simpa using hnot
  | some p =>
    obtain ⟨j, hj, hresolve, hnot⟩ := hfound p rfl
    have hkeep : ns.removed j.sector = false := by
      rw [← hremoved] at hnot
      simpa using hnot
    rw [hresolve, Option.bind_some, hj]
    simp [hkeep]

end Traversal

/-- A call stays in directories if and only if no initial part of the path for which it opens a directory is
the path of a regular file. -/
theorem pathCall_staysInDirs_iff (ns : Inodes) (e : Nat → DirEntry) (cwd : Option Sector)
    (call : PathCall) :
    ((∀ path ∈ call.directory, StaysInDirs ns (ns.dirOpenPath e cwd path)) ∧
      ∀ x ∈ call.used ns e cwd, ns.vol.isDir x = true) ↔
    ∀ path ∈ call.directory, NamesNoFile ns e (start cwd path) (words slash path) := by
  constructor
  · intro h path hpath
    exact walk_stays_iff.mp (h.1 path hpath)
  · intro h
    have hstays : ∀ path ∈ call.directory, StaysInDirs ns (ns.dirOpenPath e cwd path) :=
      fun path hpath => walk_stays_iff.mpr (h path hpath)
    exact ⟨hstays, PathCall.used_isDir hstays⟩

/-- A root directory with the regular file `f` in sector 5, whose bytes have the form of an entry `x` for
sector 9. -/
def forgedInodes : Inodes where
  vol :=
    { bytes := fun s =>
        if s = rootDirSector then DirEntry.zero.toBytes ++
          { DirEntry.zero.setName [102] with inUse := 1, inodeSector := 5 }.toBytes
        else if s = 5 then DirEntry.zero.toBytes ++
          { DirEntry.zero.setName [120] with inUse := 1, inodeSector := 9 }.toBytes
        else []
      isDir := fun s => s = rootDirSector }
  removed := fun _ => false

/-- `"/f/x"`. -/
def forgedPath : List UInt8 := [47, 102, 47, 120]

/-- The bytes of the file are taken for those of a directory. -/
theorem filesysChdir_forged :
    forgedInodes.filesysChdir (fun _ => DirEntry.zero) none forgedPath = ([1, 5], true, some 9) ∧
      ¬ ((∀ path ∈ (PathCall.filesysChdir forgedPath).directory,
          StaysInDirs forgedInodes (forgedInodes.dirOpenPath (fun _ => DirEntry.zero) none path)) ∧
        ∀ x ∈ (PathCall.filesysChdir forgedPath).used forgedInodes (fun _ => DirEntry.zero) none,
          forgedInodes.vol.isDir x = true) := by
  have hrun : forgedInodes.filesysChdir (fun _ => DirEntry.zero) none forgedPath =
      ([1, 5], true, some 9) := by decide
  refine ⟨hrun, fun h => ?_⟩
  have hfile := h.2 5 (by rw [PathCall.used, hrun]; decide)
  exact absurd hfile (by decide)

end Inodes

end CSE130.Filesys
