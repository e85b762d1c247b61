import CSE130.Filesys.SplitPath

/-!
# The arrays for the parts of a path

`filesys_create` and `filesys_remove` declare arrays of `strlen` of the path for the directory and the file
name, `filesys_open` arrays of one byte more. A relative path of one component is its own file name, and
its terminator does not fit; nor does that of the directory `/`.
-/

namespace CSE130.Filesys

open CSE130.Library OpenInodes

namespace PathBuffers

/-- The callers of `split_path_filename`. -/
inductive CallSite where
  | filesysCreate
  | filesysOpen
  | filesysRemove
  deriving DecidableEq, Repr

/-- The size of both arrays that a caller declares for a path. `filesys_open` returns before that when the
path is empty. -/
def CallSite.arraySize (path : List UInt8) : CallSite → Option Nat
  | .filesysCreate => some path.length
  | .filesysOpen => if path.length = 0 then none else some (path.length + 1)
  | .filesysRemove => some path.length

/-- Nothing is written outside of the arrays of a caller, whatever they hold before. -/
def CallSite.Fits (path : List UInt8) (site : CallSite) : Prop :=
  ∀ size ∈ site.arraySize path, ∀ directory filename : List UInt8,
    directory.length = size → filename.length = size →
      ∃ arrays, splitPathFilename path directory filename = .ok arrays

section Sizes

variable {path : List UInt8} {size : Nat}

/-- Arrays of a size are large enough when they have room for both strings and their terminators. -/
theorem fits_iff (hpath : (0 : UInt8) ∉ path) :
    (∀ directory filename : List UInt8, directory.length = size → filename.length = size →
      ∃ arrays, splitPathFilename path directory filename = .ok arrays) ↔
    (OpenInodes.splitPathFilename path).1.length < size ∧
      (OpenInodes.splitPathFilename path).2.length < size := by
  constructor
  · intro h
    obtain ⟨arrays, harrays⟩ := h (List.replicate size 0) (List.replicate size 0)
      List.length_replicate List.length_replicate
    rw [splitPathFilename_copyBoth _ _ hpath] at harrays
    have hroom := (copyBoth_ok_iff.mp harrays).1
    rwa [List.length_replicate] at hroom
  · rintro hroom directory filename hd hf
    rw [splitPathFilename_copyBoth _ _ hpath]
    exact ⟨_, copyBoth_ok_iff.mpr ⟨by rwa [hd, hf], rfl⟩⟩

theorem filesysOpen_fits (hpath : (0 : UInt8) ∉ path) : CallSite.filesysOpen.Fits path := by
  intro size hsize
  rw [fits_iff hpath]
  have hle := length_split_le path
  rw [CallSite.arraySize] at hsize
  split_ifs at hsize
  · cases hsize
  · cases hsize
    omega

/-- A file name is as long as the path when there is no `/` in it. -/
theorem length_fileName_lt_iff {init : List (List UInt8)} {last : List UInt8}
    (h : words slash path = init ++ [last]) : last.length < path.length ↔ slash ∈ path := by
  constructor
  · intro hlt
    by_contra hslash
    have hne : path ≠ [] := by
      rintro rfl
      exact absurd hlt (Nat.not_lt_zero _)
    have hwhole : init ++ [last] = [] ++ [path] := by
      rw [← h, words_of_notMem hslash hne, List.nil_append]
    have hlast : last = path := (List.append_singleton_inj.mp hwhole).2
    exact absurd hlt (by rw [hlast]; exact Nat.lt_irrefl _)
  · intro hslash
    have hall := @length_flatten_words _ _ slash path
    have hcount := List.count_pos_iff.mpr hslash
    rw [h, List.flatten_append, List.flatten_singleton, List.length_append] at hall
    omega

/-- The sizes in `filesys_create` and `filesys_remove`. -/
theorem length_room_iff : ((OpenInodes.splitPathFilename path).1.length < path.length ∧
    (OpenInodes.splitPathFilename path).2.length < path.length) ↔
      slash ∈ path ∧ path ≠ [slash] := by
  rcases List.eq_nil_or_concat (words slash path) with h | ⟨init, last, h⟩
  · rw [split_empty h]
    have hall := words_eq_nil_iff.mp h
    cases path with
    | nil => simp
    | cons c path =>
      have hc : c = slash := hall c List.mem_cons_self
      subst hc
      cases path <;> simp [lead]
  · rw [List.concat_eq_append] at h
    have hle := length_split_le path
    rw [split_concat h] at hle ⊢
    dsimp only at hle ⊢
    have hlast : last ≠ [] := by
      have hmem : last ∈ words slash path := h ▸ List.mem_append_right _ (List.mem_singleton_self last)
      exact (mem_words.mp hmem).2
    have hpos := List.length_pos_iff.mpr hlast
    have hroot : path ≠ [slash] := by
      rintro rfl
      simp at h
    rw [length_fileName_lt_iff h]
    constructor
    · rintro ⟨-, hslash⟩
      exact ⟨hslash, hroot⟩
    · rintro ⟨hslash, -⟩
      exact ⟨by omega, hslash⟩

end Sizes

/-- The arrays are large enough at every call if and only if there is a `/` in the path and the path is
not `/`. -/
theorem callSites_fit_iff (path : List UInt8) (hpath : (0 : UInt8) ∉ path) :
    (∀ site : CallSite, site.Fits path) ↔ slash ∈ path ∧ path ≠ [slash] := by
  rw [← length_room_iff, ← fits_iff hpath]
  constructor
  · intro h
    exact h .filesysCreate path.length rfl
  · intro h site
    cases site with
    | filesysCreate =>
      intro size hsize
      cases hsize
      exact h
    | filesysOpen => exact filesysOpen_fits hpath
    | filesysRemove =>
      intro size hsize
      cases hsize
      exact h

/-- `"a/b"`. -/
def nestedPath : List UInt8 := [97, 47, 98]

theorem callSites_fit_nestedPath :
    (0 : UInt8) ∉ nestedPath ∧ ∀ site : CallSite, site.Fits nestedPath := by
  have hpath : (0 : UInt8) ∉ nestedPath := by decide
  exact ⟨hpath, (callSites_fit_iff nestedPath hpath).mpr (by decide)⟩

/-- `"abc"`. -/
def plainPath : List UInt8 := [97, 98, 99]

/-- The terminator of the file name does not fit. -/
theorem filesysCreate_overruns :
    splitPathFilename plainPath [255, 255, 255] [255, 255, 255] = .error (.overrun .filename) ∧
      ¬ ∀ site : CallSite, site.Fits plainPath := by
  have hrun : splitPathFilename plainPath [255, 255, 255] [255, 255, 255] =
      .error (.overrun .filename) := by decide
  refine ⟨hrun, fun h => ?_⟩
  obtain ⟨arrays, harrays⟩ := h .filesysCreate 3 rfl [255, 255, 255] [255, 255, 255] rfl rfl
  rw [hrun] at harrays
  cases harrays

end PathBuffers

end CSE130.Filesys
