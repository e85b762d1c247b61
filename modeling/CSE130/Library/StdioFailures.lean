import CSE130.Library.Run
import CSE130.Library.Stdio

/-!
# Streams that fail to open

A run of calls of `fopen` and `fseek` each of which may fail: whether the `n`-th one does is given from
outside. A call for a file that does not exist fails to open it for reading in any case. The streams
that are open are known by the numbers of the calls that have opened them.
-/

namespace CSE130.Library

/-- A `FILE *` that is not `NULL`. -/
structure OpenFile (Name : Type) where
  id : Nat
  name : Name
  writable : Bool
  stream : Stream

/-- The files, the answers to come, the number of calls so far, the streams that are open, and the
files that have been created, truncated or written to. -/
structure Io (Name : Type) where
  files : Files Name
  fails : Nat → Bool
  calls : Nat
  opened : List Nat
  touched : List Name

/-- A call on a stream that is `NULL`. -/
inductive NullStream where
  | nullStream
  deriving DecidableEq, Repr

/-- The stream behind a pointer that is used. -/
def useStream {Name : Type} : Option (OpenFile Name) → Except NullStream (OpenFile Name)
  | some f => .ok f
  | none => .error .nullStream

namespace Io

variable {Name : Type} [DecidableEq Name]

/-- Before the first call. -/
def start (files : Files Name) (fails : Nat → Bool) : Io Name where
  files := files
  fails := fails
  calls := 0
  opened := []
  touched := []

/-- One call more. -/
def called (s : Io Name) : Io Name := { s with calls := s.calls + 1 }

/-- A stream that the call has opened. -/
def openAs (s : Io Name) (fname : Name) (writable : Bool) (bytes : List UInt8) :
    OpenFile Name × Io Name :=
  (⟨s.calls, fname, writable, ⟨bytes, 0⟩⟩, { s.called with opened := s.calls :: s.opened })

/-- `fopen (fname, "r")`, or `"r+"` where the stream is to be writable. -/
def fopenExisting (s : Io Name) (fname : Name) (writable : Bool) :
    Option (OpenFile Name) × Io Name :=
  if s.fails s.calls then (none, s.called)
  else
    match s.files fname with
    | none => (none, s.called)
    | some bytes =>
      let (f, s) := s.openAs fname writable bytes
      (some f, s)

/-- `fopen (fname, "w")`, which empties or creates the file unless it fails. -/
def fopenWrite (s : Io Name) (fname : Name) : Option (OpenFile Name) × Io Name :=
  if s.fails s.calls then (none, s.called)
  else
    let (f, s) := s.openAs fname true []
    let files := Function.update s.files fname (some [])
    (some f, { s with files := files, touched := fname :: s.touched })

/-- `fseek (f, offset, SEEK_SET)`, with its result. -/
def fseekSet (s : Io Name) (f : OpenFile Name) (offset : Int) : Int × OpenFile Name × Io Name :=
  if s.fails s.calls then (-1, f, s.called)
  else
    let (e, stream) := f.stream.fseekSet offset
    (e, { f with stream := stream }, s.called)

/-- `fseek (f, 0, SEEK_END)`, with its result. -/
def fseekEnd (s : Io Name) (f : OpenFile Name) : Int × OpenFile Name × Io Name :=
  if s.fails s.calls then (-1, f, s.called)
  else
    let (e, stream) := f.stream.fseekEnd
    (e, { f with stream := stream }, s.called)

/-- `fwrite`, with the number of bytes written. -/
def fwrite (s : Io Name) (f : OpenFile Name) (data : List UInt8) : Nat × OpenFile Name × Io Name :=
  let (w, stream) := f.stream.fwrite data
  let touched := if data = [] then s.touched else f.name :: s.touched
  (w, { f with stream := stream }, { s with touched := touched })

/-- `fclose`, which lets the content of a stream that is open for writing reach the file. -/
def fclose (s : Io Name) (f : OpenFile Name) : Io Name :=
  { s with
    files := if f.writable then Function.update s.files f.name (some f.stream.bytes) else s.files
    opened := s.opened.erase f.id }

variable {s : Io Name} {f : OpenFile Name} {fname : Name} {writable : Bool} {offset : Int}

/-- The file is there and the next call opens it. -/
def Opens (s : Io Name) (fname : Name) : Prop := s.fails s.calls = false ∧ s.files fname ≠ none

instance : Decidable (s.Opens fname) :=
  inferInstanceAs (Decidable (_ ∧ _ ≠ _))

omit [DecidableEq Name] in
theorem fopenExisting_of_opens (h : s.Opens fname) : ∃ bytes, s.files fname = some bytes ∧
    s.fopenExisting fname writable =
      (some ⟨s.calls, fname, writable, ⟨bytes, 0⟩⟩,
        { s.called with opened := s.calls :: s.opened }) := by
  obtain ⟨bytes, hbytes⟩ := Option.ne_none_iff_exists'.mp h.2
  refine ⟨bytes, hbytes, ?_⟩
  simp only [fopenExisting, h.1, hbytes, Bool.false_eq_true, if_false]
  rfl

omit [DecidableEq Name] in
theorem fopenExisting_of_not_opens (h : ¬ s.Opens fname) :
    s.fopenExisting fname writable = (none, s.called) := by
  unfold fopenExisting
  split_ifs with hfails
  · rfl
  · have hnone : s.files fname = none := by
      by_contra hne
      exact h ⟨by simpa using hfails, hne⟩
    rw [hnone]

theorem fopenWrite_of_fails (h : s.fails s.calls = true) :
    s.fopenWrite fname = (none, s.called) := if_pos h

theorem fopenWrite_of_not_fails (h : s.fails s.calls = false) : s.fopenWrite fname =
    (some ⟨s.calls, fname, true, ⟨[], 0⟩⟩,
      { s.called with
        opened := s.calls :: s.opened
        files := Function.update s.files fname (some [])
        touched := fname :: s.touched }) := by
  simp only [fopenWrite, h, Bool.false_eq_true, if_false]
  rfl

omit [DecidableEq Name] in
theorem fseekSet_of_fails (h : s.fails s.calls = true ∨ offset < 0) :
    ∃ f', s.fseekSet f offset = (-1, f', s.called) := by
  unfold fseekSet
  split_ifs with hfails
  · exact ⟨f, rfl⟩
  · have hneg : offset < 0 := h.resolve_left hfails
    simp only [Stream.fseekSet, if_pos hneg]
    exact ⟨_, rfl⟩

omit [DecidableEq Name] in
theorem fseekSet_of_not_fails (h : s.fails s.calls = false) (hoffset : 0 ≤ offset) :
    s.fseekSet f offset =
      (0, { f with stream := { f.stream with pos := offset.toNat } }, s.called) := by
  have hnonneg : ¬ offset < 0 := by omega
  simp only [fseekSet, h, Bool.false_eq_true, if_false, Stream.fseekSet, if_neg hnonneg]

omit [DecidableEq Name] in
theorem fseekEnd_of_fails (h : s.fails s.calls = true) :
    s.fseekEnd f = (-1, f, s.called) := if_pos h

omit [DecidableEq Name] in
theorem fseekEnd_of_not_fails (h : s.fails s.calls = false) : s.fseekEnd f =
    (0, { f with stream := { f.stream with pos := f.stream.bytes.length } }, s.called) := by
  simp only [fseekEnd, h, Bool.false_eq_true, if_false]
  rfl

omit [DecidableEq Name] in
theorem touched_fwrite {data : List UInt8} (h : fname ∈ s.touched) :
    fname ∈ (s.fwrite f data).2.2.touched := by
  simp only [fwrite]
  split_ifs
  · exact h
  · exact List.mem_cons_of_mem _ h

end Io

end CSE130.Library
