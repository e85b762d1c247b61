import CSE130.Fileman.FileOps
import CSE130.Library.StdioFailures
import Mathlib.Tactic.ByContra

/-!
# What the errors of the file functions leave behind

`fileman_write`, `fileman_append` and `fileman_copy` again, with calls of `fopen` and `fseek` that may
fail. Where no call fails they do what the renderings without failures do. The functions take a file
for absent when it cannot be opened for reading, go on with a stream that may be `NULL`, and return
from a failed `fseek` without closing the stream. An error changes nothing just where the run meets
none of these.
-/

namespace CSE130.Fileman.Failing

open Library

/-- `fileman_write` (`fileman.c:106-124`). -/
def filemanWrite (s : Io FileName) (fname : FileName) (foffset : Nat) (buf : Mem)
    (boffset size : Nat) : Except NullStream (Nat × Io FileName) := do
  let (f, s) := s.fopenExisting fname false
  match f with
  | some f => pure (sizeError, s.fclose f)
  | none =>
    let (f, s) := s.fopenWrite fname
    let f ← useStream f
    let (off, f, s) := s.fseekSet f (toLong foffset)
    if off ≠ 0 then pure (sizeError, s)
    else
      let (w, f, s) := s.fwrite f (slice buf boffset size)
      pure (w, s.fclose f)

/-- `fileman_append` (`fileman.c:132-143`). -/
def filemanAppend (s : Io FileName) (fname : FileName) (buf : Mem) (size : Nat) :
    Except NullStream (Nat × Io FileName) := do
  let (f, s) := s.fopenExisting fname true
  match f with
  | none => pure (sizeError, s)
  | some f =>
    let (e, f, s) := s.fseekEnd f
    if e ≠ 0 then pure (sizeError, s)
    else
      let (w, f, s) := s.fwrite f (slice buf 0 size)
      pure (w, s.fclose f)

/-- `fclose` of a stream that has been opened. -/
def closeOpened (s : Io FileName) : Option (OpenFile FileName) → Io FileName
  | some f => s.fclose f
  | none => s

/-- `fileman_copy` (`fileman.c:153-177`). Of two streams that have been opened `f2` is closed
first. -/
def filemanCopy (s : Io FileName) (fsrc fdest : FileName) :
    Except NullStream (Nat × Io FileName) := do
  let (f1, s) := s.fopenExisting fsrc false
  let (f2, s) := s.fopenExisting fdest false
  match f1, f2 with
  | some f1, none =>
    let (f2, s) := s.fopenWrite fdest
    let f2 ← useStream f2
    let r := f1.stream.fgetc
    let (stream1, stream2) := copyLoop (toChar r.1) r.2 f2.stream
    let s := s.fclose { f1 with stream := stream1 }
    pure (stream1.ftell, s.fclose { f2 with stream := stream2 })
  | f1, f2 => pure (sizeError, closeOpened (closeOpened s f2) f1)

/-- The files of a disk, none of which has 2^63 bytes or more. -/
structure Disk where
  files : Files FileName
  small : ∀ fname bytes, files fname = some bytes → bytes.length < 2 ^ 63

/-- A call that does not use a null stream and, where its result is -1, has not created, truncated or
changed a file and has closed its streams. -/
def ErrorsHarmless (disk : Disk) (r : Except NullStream (Nat × Io FileName)) : Prop :=
  ∃ n s, r = .ok (n, s) ∧
    (n = sizeError → s.touched = [] ∧ s.files = disk.files ∧ s.opened = [])

/-- A call that has not touched this file if it was there. -/
def KeepsExisting (disk : Disk) (fname : FileName)
    (r : Except NullStream (Nat × Io FileName)) : Prop :=
  disk.files fname ≠ none → ∀ n s, r = .ok (n, s) →
    fname ∉ s.touched ∧ s.files fname = disk.files fname

/-- The file is there and the `n`-th call opens it. -/
def OpensAt (disk : Disk) (fails : Nat → Bool) (n : Nat) (fname : FileName) : Prop :=
  fails n = false ∧ disk.files fname ≠ none

instance {disk : Disk} {fails : Nat → Bool} {n : Nat} {fname : FileName} :
    Decidable (OpensAt disk fails n fname) :=
  inferInstanceAs (Decidable (_ ∧ _ ≠ _))

section Calls

variable {disk : Disk} {fails : Nat → Bool} {fname fsrc fdest : FileName} {s : Io FileName}
  {foffset boffset size n : Nat} {buf : Mem} {r : Except NullStream (Nat × Io FileName)}

theorem not_errorsHarmless_of_null (h : r = .error .nullStream) : ¬ ErrorsHarmless disk r := by
  rintro ⟨n, s, hr, -⟩
  rw [h] at hr
  cases hr

theorem errorsHarmless_of_ne (h : r = .ok (n, s)) (hn : n ≠ sizeError) : ErrorsHarmless disk r :=
  ⟨n, s, h, fun heq => absurd heq hn⟩

theorem not_errorsHarmless (h : r = .ok (sizeError, s)) (hs : s.touched ≠ [] ∨ s.opened ≠ []) :
    ¬ ErrorsHarmless disk r := by
  rintro ⟨n, t, hr, hharmless⟩
  cases h.symm.trans hr
  obtain ⟨htouched, -, hopened⟩ := hharmless rfl
  exact hs.elim (fun h => h htouched) fun h => h hopened

theorem not_keepsExisting (h : r = .ok (n, s)) (hfile : disk.files fname ≠ none)
    (htouched : fname ∈ s.touched) : ¬ KeepsExisting disk fname r :=
  fun hkeeps => (hkeeps hfile n s h).1 htouched

/-- A call that has only looked. -/
theorem harmless_of_unchanged (h : r = .ok (sizeError, s)) (htouched : s.touched = [])
    (hfiles : s.files = disk.files) (hopened : s.opened = []) :
    ErrorsHarmless disk r ∧ KeepsExisting disk fname r := by
  refine ⟨⟨_, s, h, fun _ => ⟨htouched, hfiles, hopened⟩⟩, ?_⟩
  intro _ n t hrun
  cases h.symm.trans hrun
  rw [htouched, hfiles]
  exact ⟨List.not_mem_nil, rfl⟩

/-! ## `fileman_write` -/

/-- The file is found. -/
theorem filemanWrite_of_opens (h : OpensAt disk fails 0 fname) : ∃ s,
    filemanWrite (Io.start disk.files fails) fname foffset buf boffset size = .ok (sizeError, s) ∧
      s.touched = [] ∧ s.files = disk.files ∧ s.opened = [] := by
  obtain ⟨bytes, -, hopen⟩ :=
    @Io.fopenExisting_of_opens _ (Io.start disk.files fails) fname false h
  simp only [filemanWrite, hopen]
  refine ⟨_, rfl, rfl, rfl, ?_⟩
  simp [Io.fclose, Io.start]

/-- The file is not found, and cannot be created. -/
theorem filemanWrite_of_null (h : ¬ OpensAt disk fails 0 fname) (hnull : fails 1 = true) :
    filemanWrite (Io.start disk.files fails) fname foffset buf boffset size =
      .error .nullStream := by
  have hopen := @Io.fopenExisting_of_not_opens _ (Io.start disk.files fails) fname false h
  have hwrite := @Io.fopenWrite_of_fails _ _ (Io.start disk.files fails).called fname hnull
  simp only [filemanWrite, hopen, hwrite]
  rfl

/-- The call that creates the file of `fileman_write`. -/
theorem fopenWrite_second (hwrite : fails 1 = false) : ∃ s,
    (Io.start disk.files fails).called.fopenWrite fname = (some ⟨1, fname, true, ⟨[], 0⟩⟩, s) ∧
      s.calls = 2 ∧ s.fails = fails ∧ s.opened = [1] ∧ s.touched = [fname] :=
  ⟨_, Io.fopenWrite_of_not_fails hwrite, rfl, rfl, rfl, rfl⟩

/-- The file is created, but the offset is not reached. -/
theorem filemanWrite_of_seek (h : ¬ OpensAt disk fails 0 fname) (hwrite : fails 1 = false)
    (hseek : fails 2 = true ∨ toLong foffset < 0) : ∃ s,
    filemanWrite (Io.start disk.files fails) fname foffset buf boffset size = .ok (sizeError, s) ∧
      s.touched = [fname] ∧ s.opened = [1] := by
  have hopen := @Io.fopenExisting_of_not_opens _ (Io.start disk.files fails) fname false h
  obtain ⟨s, hcreate, hcalls, hfails, hopened, htouched⟩ :=
    @fopenWrite_second disk fails fname hwrite
  have hseek' : s.fails s.calls = true ∨ toLong foffset < 0 := by rwa [hcalls, hfails]
  obtain ⟨f, hoff⟩ := @Io.fseekSet_of_fails _ s ⟨1, fname, true, ⟨[], 0⟩⟩ _ hseek'
  refine ⟨s.called, ?_, htouched, hopened⟩
  simp only [filemanWrite, hopen, hcreate, useStream, ok_bind, hoff]
  rfl

/-- The file is created and the bytes are written to it. -/
theorem filemanWrite_of_created (h : ¬ OpensAt disk fails 0 fname) (hwrite : fails 1 = false)
    (hseek : fails 2 = false) (hoffset : 0 ≤ toLong foffset) : ∃ s,
    filemanWrite (Io.start disk.files fails) fname foffset buf boffset size = .ok (size, s) ∧
      fname ∈ s.touched := by
  have hopen := @Io.fopenExisting_of_not_opens _ (Io.start disk.files fails) fname false h
  obtain ⟨s, hcreate, hcalls, hfails, -, htouched⟩ := @fopenWrite_second disk fails fname hwrite
  have hseek' : s.fails s.calls = false := by rwa [hcalls, hfails]
  have hoff := @Io.fseekSet_of_not_fails _ s ⟨1, fname, true, ⟨[], 0⟩⟩ _ hseek' hoffset
  have hmem : fname ∈ s.touched := by simp [htouched]
  let f : OpenFile FileName := ⟨1, fname, true, ⟨[], (toLong foffset).toNat⟩⟩
  have hcount : (s.called.fwrite f (slice buf boffset size)).1 = size := by
    simp [Io.fwrite, Stream.fwrite, slice]
  have htouched := @Io.touched_fwrite _ s.called f fname (slice buf boffset size) hmem
  generalize hw : s.called.fwrite f (slice buf boffset size) = r at hcount htouched
  have hrun : filemanWrite (Io.start disk.files fails) fname foffset buf boffset size =
      .ok (r.1, r.2.2.fclose r.2.1) := by
    rw [← hw]
    simp only [filemanWrite, hopen, hcreate, useStream, ok_bind, hoff]
    rfl
  rw [hcount] at hrun
  exact ⟨r.2.2.fclose r.2.1, hrun, htouched⟩

/-- A call of `fileman_write` is as meant just where the file is found, or where it is absent and
every call succeeds. -/
theorem filemanWrite_harmless_iff :
    ErrorsHarmless disk
        (filemanWrite (Io.start disk.files fails) fname foffset buf boffset size) ∧
      KeepsExisting disk fname
        (filemanWrite (Io.start disk.files fails) fname foffset buf boffset size) ↔
    OpensAt disk fails 0 fname ∨ disk.files fname = none ∧ fails 1 = false ∧ fails 2 = false ∧
      0 ≤ toLong foffset ∧ size ≠ sizeError := by
  by_cases h : OpensAt disk fails 0 fname
  · obtain ⟨s, hrun, htouched, hfiles, hopened⟩ :=
      @filemanWrite_of_opens disk fails fname foffset boffset size buf h
    exact iff_of_true (harmless_of_unchanged hrun htouched hfiles hopened) (Or.inl h)
  rw [or_iff_right h]
  cases hwrite : fails 1 with
  | true =>
    have hrun := @filemanWrite_of_null disk fails fname foffset boffset size buf h hwrite
    exact iff_of_false (fun hok => not_errorsHarmless_of_null hrun hok.1) (by simp)
  | false =>
    by_cases hseek : fails 2 = true ∨ toLong foffset < 0
    · obtain ⟨s, hrun, htouched, -⟩ :=
        @filemanWrite_of_seek disk fails fname foffset boffset size buf h hwrite hseek
      refine iff_of_false (fun hok => ?_) ?_
      · exact not_errorsHarmless hrun (Or.inl (by simp [htouched])) hok.1
      · rintro ⟨-, -, hseek', hoffset, -⟩
        rcases hseek with hseek | hseek
        · rw [hseek] at hseek'
          cases hseek'
        · omega
    · obtain ⟨hseek, hoffset⟩ := not_or.mp hseek
      have hseek' : fails 2 = false := by simpa using hseek
      have hoffset' : 0 ≤ toLong foffset := by omega
      obtain ⟨s, hrun, htouched⟩ :=
        @filemanWrite_of_created disk fails fname foffset boffset size buf h hwrite hseek' hoffset'
      constructor
      · rintro ⟨hharmless, hkeeps⟩
        refine ⟨?_, rfl, hseek', hoffset', ?_⟩
        · by_contra hfile
          exact not_keepsExisting hrun hfile htouched hkeeps
        · intro hsize
          subst hsize
          refine not_errorsHarmless hrun (Or.inl ?_) hharmless
          exact List.ne_nil_of_mem htouched
      · rintro ⟨hfile, -, -, -, hsize⟩
        exact ⟨errorsHarmless_of_ne hrun hsize, fun hne => absurd hfile hne⟩

/-! ## `fileman_append` -/

/-- The first call of a function, where it opens the file. -/
theorem fopenExisting_first {writable : Bool} (h : OpensAt disk fails 0 fname) : ∃ bytes s,
    disk.files fname = some bytes ∧
      (Io.start disk.files fails).fopenExisting fname writable =
        (some ⟨0, fname, writable, ⟨bytes, 0⟩⟩, s) ∧
      s.calls = 1 ∧ s.fails = fails ∧ s.files = disk.files ∧ s.opened = [0] ∧ s.touched = [] := by
  obtain ⟨bytes, hbytes, hopen⟩ :=
    @Io.fopenExisting_of_opens _ (Io.start disk.files fails) fname writable h
  exact ⟨bytes, _, hbytes, hopen, rfl, rfl, rfl, rfl, rfl⟩

/-- A call of `fileman_append` is as meant just where the file is not found, or where the end is
reached. -/
theorem filemanAppend_harmless_iff :
    ErrorsHarmless disk (filemanAppend (Io.start disk.files fails) fname buf size) ↔
      ¬ OpensAt disk fails 0 fname ∨ fails 1 = false ∧ size ≠ sizeError := by
  by_cases h : OpensAt disk fails 0 fname
  · rw [or_iff_right (not_not.mpr h)]
    obtain ⟨bytes, s, -, hopen, hcalls, hfails, -, hopened, -⟩ :=
      @fopenExisting_first disk fails fname true h
    let f : OpenFile FileName := ⟨0, fname, true, ⟨bytes, 0⟩⟩
    cases hseek : fails 1 with
    | true =>
      have hend := @Io.fseekEnd_of_fails _ s f (by rw [hcalls, hfails, hseek])
      have hrun : filemanAppend (Io.start disk.files fails) fname buf size =
          .ok (sizeError, s.called) := by
        simp only [filemanAppend, hopen, f] at hend ⊢
        rw [hend]
        rfl
      have hopen' : s.called.opened ≠ [] := by simp [Io.called, hopened]
      exact iff_of_false (not_errorsHarmless hrun (Or.inr hopen')) (by simp)
    | false =>
      have hend := @Io.fseekEnd_of_not_fails _ s f (by rw [hcalls, hfails, hseek])
      let f' : OpenFile FileName := ⟨0, fname, true, ⟨bytes, bytes.length⟩⟩
      have hcount : (s.called.fwrite f' (slice buf 0 size)).1 = size := by
        simp [Io.fwrite, Stream.fwrite, slice]
      have htouched : size ≠ 0 →
          (s.called.fwrite f' (slice buf 0 size)).2.2.touched ≠ [] := by
        intro hsize
        simp [Io.fwrite, slice, hsize]
      generalize hw : s.called.fwrite f' (slice buf 0 size) = r at hcount htouched
      have hrun : filemanAppend (Io.start disk.files fails) fname buf size =
          .ok (r.1, r.2.2.fclose r.2.1) := by
        rw [← hw]
        simp only [filemanAppend, hopen, f] at hend ⊢
        rw [hend]
        rfl
      rw [hcount] at hrun
      refine ⟨fun hharmless => ⟨rfl, ?_⟩, fun hsize => errorsHarmless_of_ne hrun hsize.2⟩
      intro hsize
      subst hsize
      exact not_errorsHarmless hrun (Or.inl (htouched (by decide))) hharmless
  · have hopen := @Io.fopenExisting_of_not_opens _ (Io.start disk.files fails) fname true h
    have hrun : filemanAppend (Io.start disk.files fails) fname buf size =
        .ok (sizeError, (Io.start disk.files fails).called) := by
      simp only [filemanAppend, hopen]
      rfl
    exact iff_of_true (@harmless_of_unchanged disk fname _ _ hrun rfl rfl rfl).1 (Or.inl h)

/-! ## `fileman_copy` -/

/-- The number that a copy reports is not above that of bytes of the source. -/
theorem ftell_copyLoop_le (bytes : List UInt8) :
    (copyLoop (Stream.ahead bytes 0).1 (Stream.ahead bytes 0).2 ⟨[], 0⟩).1.ftell ≤
      bytes.length := by
  rw [copyLoop_ahead ⟨[], 0⟩ (Nat.zero_le _) rfl]
  have hle := stop_le bytes
  rcases Nat.lt_or_ge (stop bytes) bytes.length with hlt | hge
  · rw [Stream.ahead_of_lt (List.getElem?_eq_getElem hlt)]
    exact hlt
  · rw [Stream.ahead_of_ge hge]
    exact hle

/-- The source is not found. -/
theorem filemanCopy_of_no_source (hsrc : ¬ OpensAt disk fails 0 fsrc) : ∃ s,
    filemanCopy (Io.start disk.files fails) fsrc fdest = .ok (sizeError, s) ∧
      s.touched = [] ∧ s.files = disk.files ∧ s.opened = [] := by
  have hopen := @Io.fopenExisting_of_not_opens _ (Io.start disk.files fails) fsrc false hsrc
  by_cases hdest : OpensAt disk fails 1 fdest
  · obtain ⟨bytes, -, hopen2⟩ :=
      @Io.fopenExisting_of_opens _ (Io.start disk.files fails).called fdest false hdest
    simp only [filemanCopy, hopen, hopen2]
    refine ⟨_, rfl, rfl, rfl, ?_⟩
    simp [closeOpened, Io.fclose, Io.start, Io.called]
  · have hopen2 :=
      @Io.fopenExisting_of_not_opens _ (Io.start disk.files fails).called fdest false hdest
    simp only [filemanCopy, hopen, hopen2]
    exact ⟨_, rfl, rfl, rfl, rfl⟩

/-- The source and the destination are found. -/
theorem filemanCopy_of_dest (hsrc : OpensAt disk fails 0 fsrc) (hdest : OpensAt disk fails 1 fdest) :
    ∃ s, filemanCopy (Io.start disk.files fails) fsrc fdest = .ok (sizeError, s) ∧
      s.touched = [] ∧ s.files = disk.files ∧ s.opened = [] := by
  obtain ⟨bytes, s, -, hopen, hcalls, hfails, hfiles, hopened, htouched⟩ :=
    @fopenExisting_first disk fails fsrc false hsrc
  have hdest' : s.Opens fdest := by
    rw [Io.Opens, hcalls, hfails, hfiles]
    exact hdest
  obtain ⟨bytes2, -, hopen2⟩ := @Io.fopenExisting_of_opens _ s fdest false hdest'
  simp only [filemanCopy, hopen, hopen2]
  refine ⟨_, rfl, htouched, hfiles, ?_⟩
  simp [closeOpened, Io.fclose, hcalls, hopened]

/-- The source is found and the destination is not. -/
theorem filemanCopy_of_source (hsrc : OpensAt disk fails 0 fsrc)
    (hdest : ¬ OpensAt disk fails 1 fdest) :
    fails 2 = true ∧
        filemanCopy (Io.start disk.files fails) fsrc fdest = .error .nullStream ∨
      fails 2 = false ∧ ∃ n s, filemanCopy (Io.start disk.files fails) fsrc fdest = .ok (n, s) ∧
        n ≠ sizeError ∧ fdest ∈ s.touched := by
  obtain ⟨bytes, s, hbytes, hopen, hcalls, hfails, hfiles, -, -⟩ :=
    @fopenExisting_first disk fails fsrc false hsrc
  have hdest' : ¬ s.Opens fdest := by
    rw [Io.Opens, hcalls, hfails, hfiles]
    exact hdest
  have hopen2 := @Io.fopenExisting_of_not_opens _ s fdest false hdest'
  have hthird : s.called.fails s.called.calls = fails 2 := by
    rw [← hfails]
    exact congrArg s.fails (congrArg (· + 1) hcalls)
  cases hwrite : fails 2 with
  | true =>
    have hcreate := @Io.fopenWrite_of_fails _ _ s.called fdest (hthird.trans hwrite)
    refine Or.inl ⟨rfl, ?_⟩
    simp only [filemanCopy, hopen, hopen2, hcreate]
    rfl
  | false =>
    have hcreate := @Io.fopenWrite_of_not_fails _ _ s.called fdest (hthird.trans hwrite)
    have hle := ftell_copyLoop_le bytes
    have hsmall := disk.small fsrc bytes hbytes
    have herror : sizeError = 2 ^ 64 - 1 := rfl
    refine Or.inr ⟨rfl, ?_⟩
    simp only [filemanCopy, hopen, hopen2, hcreate]
    refine ⟨_, _, rfl, ?_, List.mem_cons_self⟩
    have hne : (copyLoop (Stream.ahead bytes 0).1 (Stream.ahead bytes 0).2 ⟨[], 0⟩).1.ftell ≠
        sizeError := by omega
    exact hne

/-- A call of `fileman_copy` is as meant just where the source is not found, where the destination
is, or where the destination is absent and can be created. -/
theorem filemanCopy_harmless_iff :
    ErrorsHarmless disk (filemanCopy (Io.start disk.files fails) fsrc fdest) ∧
      KeepsExisting disk fdest (filemanCopy (Io.start disk.files fails) fsrc fdest) ↔
    ¬ OpensAt disk fails 0 fsrc ∨ OpensAt disk fails 1 fdest ∨
      disk.files fdest = none ∧ fails 2 = false := by
  by_cases hsrc : OpensAt disk fails 0 fsrc
  swap
  · obtain ⟨s, hrun, htouched, hfiles, hopened⟩ :=
      @filemanCopy_of_no_source disk fails fsrc fdest hsrc
    exact iff_of_true (harmless_of_unchanged hrun htouched hfiles hopened) (Or.inl hsrc)
  rw [or_iff_right (not_not.mpr hsrc)]
  by_cases hdest : OpensAt disk fails 1 fdest
  · obtain ⟨s, hrun, htouched, hfiles, hopened⟩ := filemanCopy_of_dest hsrc hdest
    exact iff_of_true (harmless_of_unchanged hrun htouched hfiles hopened) (Or.inl hdest)
  rw [or_iff_right hdest]
  rcases filemanCopy_of_source hsrc hdest with ⟨hwrite, hrun⟩ | ⟨hwrite, n, s, hrun, hn, htouched⟩
  · exact iff_of_false (fun hok => not_errorsHarmless_of_null hrun hok.1) (by simp [hwrite])
  · constructor
    · rintro ⟨-, hkeeps⟩
      refine ⟨?_, hwrite⟩
      by_contra hfile
      exact not_keepsExisting hrun hfile htouched hkeeps
    · rintro ⟨hfile, -⟩
      exact ⟨errorsHarmless_of_ne hrun hn, fun hne => absurd hfile hne⟩

end Calls

/-! ## Without failures -/

section NoFailures

variable {fs : Files FileName} {fname fsrc fdest : FileName} {foffset boffset size : Nat} {buf : Mem}

/-- What the caller sees: the result and the files. -/
def seen (r : Nat × Io FileName) : Nat × Files FileName := (r.1, r.2.files)

theorem filemanWrite_noFailures :
    (filemanWrite (Io.start fs fun _ => false) fname foffset buf boffset size).map seen =
      .ok (Fileman.filemanWrite fs fname foffset buf boffset size) := by
  cases hfile : fs fname with
  | some bytes =>
    have hopen : fopenRead fs fname = some ⟨bytes, 0⟩ := by rw [fopenRead, hfile]; rfl
    simp only [filemanWrite, Io.fopenExisting, Io.start, hfile, Fileman.filemanWrite, hopen]
    rfl
  | none =>
    have hopen : fopenRead fs fname = none := by rw [fopenRead, hfile]; rfl
    simp only [filemanWrite, Io.fopenExisting, Io.start, hfile, Fileman.filemanWrite, hopen]
    by_cases hneg : toLong foffset < 0
    · simp [Io.fopenWrite, Io.openAs, Io.called, useStream, Io.fseekSet, Stream.fseekSet, hneg,
        fopenWrite, seen, Except.map, pure, Except.pure]
    · simp [Io.fopenWrite, Io.openAs, Io.called, useStream, Io.fseekSet, Stream.fseekSet, hneg,
        fopenWrite, seen, Except.map, pure, Except.pure, Io.fwrite, Stream.fwrite, Io.fclose, fclose]

theorem filemanAppend_noFailures :
    (filemanAppend (Io.start fs fun _ => false) fname buf size).map seen =
      .ok (Fileman.filemanAppend fs fname buf size) := by
  cases hfile : fs fname with
  | some bytes =>
    have hopen : fopenUpdate fs fname = some ⟨bytes, 0⟩ := by rw [fopenUpdate, fopenRead, hfile]; rfl
    simp only [filemanAppend, Io.fopenExisting, Io.start, hfile, Fileman.filemanAppend, hopen]
    rfl
  | none =>
    have hopen : fopenUpdate fs fname = none := by rw [fopenUpdate, fopenRead, hfile]; rfl
    simp only [filemanAppend, Io.fopenExisting, Io.start, hfile, Fileman.filemanAppend, hopen]
    rfl

theorem filemanCopy_noFailures :
    (filemanCopy (Io.start fs fun _ => false) fsrc fdest).map seen =
      .ok (Fileman.filemanCopy fs fsrc fdest) := by
  cases hsrc : fs fsrc <;> cases hdest : fs fdest <;>
    simp [filemanCopy, Io.fopenExisting, Io.start, Io.called, Io.openAs, hsrc, hdest, fopenRead,
      Fileman.filemanCopy, Io.fopenWrite, useStream, fopenWrite, closeOpened, Io.fclose, fclose,
      seen, Except.map, pure, Except.pure]

end NoFailures

/-! ## All three functions -/

/-- The three functions leave nothing behind an error, and `fileman_write` and `fileman_copy` leave
a destination that was there alone, just where a file that cannot be opened is absent, can be created
where the function creates it, and the offset in it is reached. -/
theorem fileman_errors_harmless_iff (disk : Disk) (fails : Nat → Bool) :
    (∀ fname foffset buf boffset size,
      ErrorsHarmless disk
          (filemanWrite (Io.start disk.files fails) fname foffset buf boffset size) ∧
        KeepsExisting disk fname
          (filemanWrite (Io.start disk.files fails) fname foffset buf boffset size) ↔
      OpensAt disk fails 0 fname ∨ disk.files fname = none ∧ fails 1 = false ∧ fails 2 = false ∧
        0 ≤ toLong foffset ∧ size ≠ sizeError) ∧
    (∀ fname buf size,
      ErrorsHarmless disk (filemanAppend (Io.start disk.files fails) fname buf size) ↔
        ¬ OpensAt disk fails 0 fname ∨ fails 1 = false ∧ size ≠ sizeError) ∧
    ∀ fsrc fdest,
      ErrorsHarmless disk (filemanCopy (Io.start disk.files fails) fsrc fdest) ∧
        KeepsExisting disk fdest (filemanCopy (Io.start disk.files fails) fsrc fdest) ↔
      ¬ OpensAt disk fails 0 fsrc ∨ OpensAt disk fails 1 fdest ∨
        disk.files fdest = none ∧ fails 2 = false :=
  ⟨fun _ _ _ _ _ => filemanWrite_harmless_iff, fun _ _ _ => filemanAppend_harmless_iff,
    fun _ _ => filemanCopy_harmless_iff⟩

/-- A disk with the file `a`, which has one byte. -/
def oneFile : Disk where
  files := fun name => if name = "a" then some [1] else none
  small := by
    intro fname bytes h
    split_ifs at h
    cases h
    decide

/-- The `k`-th call fails, and no other. -/
def onlyFails (k : Nat) : Nat → Bool := fun n => n == k

/-- `fileman_write` truncates a file that cannot be opened for reading, uses a null stream, and
returns -1 with an empty file and an open stream; `fileman_append` returns -1 with an open stream. -/
theorem fileman_errors_leave_traces :
    (∃ s, filemanWrite (Io.start oneFile.files (onlyFails 0)) "a" 0 (fun _ => 2) 0 1 = .ok (1, s) ∧
      oneFile.files "a" = some [1] ∧ s.files "a" = some [2]) ∧
    filemanWrite (Io.start oneFile.files (onlyFails 1)) "b" 0 (fun _ => 2) 0 1 =
      .error .nullStream ∧
    (∃ s, filemanWrite (Io.start oneFile.files (onlyFails 2)) "b" 0 (fun _ => 2) 0 1 =
        .ok (sizeError, s) ∧
      oneFile.files "b" = none ∧ s.files "b" = some [] ∧ s.opened = [1]) ∧
    (∃ s, filemanAppend (Io.start oneFile.files (onlyFails 1)) "a" (fun _ => 2) 1 =
      .ok (sizeError, s) ∧ s.opened = [0]) ∧
    ¬ KeepsExisting oneFile "a"
        (filemanWrite (Io.start oneFile.files (onlyFails 0)) "a" 0 (fun _ => 2) 0 1) ∧
    ¬ ErrorsHarmless oneFile
        (filemanWrite (Io.start oneFile.files (onlyFails 2)) "b" 0 (fun _ => 2) 0 1) := by
  refine ⟨⟨_, rfl, by decide, by decide⟩, rfl, ⟨_, rfl, by decide, by decide, by decide⟩,
    ⟨_, rfl, by decide⟩, ?_, ?_⟩
  · intro hkeeps
    exact absurd (hkeeps (by decide) _ _ rfl).1 (by decide)
  · intro hharmless
    obtain ⟨n, s, hrun, hn⟩ := hharmless
    cases hrun
    exact absurd (hn rfl).1 (by decide)

end CSE130.Fileman.Failing
