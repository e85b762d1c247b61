import CSE130.Library.ByteMemory
import CSE130.Library.Stdio

/-!
# Reading, writing and copying files

Rendering of `fileman_read`, `fileman_write`, `fileman_append` and `fileman_copy`
(`Assignment6/fileman.c`). Reading and copying keep the result of `fgetc` in a `char`, so that both
stop at the first byte `0xFF`. They are right for exactly those contents in which no such byte lies
before the last byte that is asked for.
-/

namespace CSE130.Fileman

open Library

abbrev FileName := String

/-- `-1` as a `size_t`. -/
def sizeError : Nat := 2 ^ 64 - 1

/-- `size` bytes of a buffer from `boffset` on. -/
def slice (buf : Mem) (boffset size : Nat) : List UInt8 :=
  (List.range size).map fun i : Nat => buf (boffset + i : Int)

/-- The first loop of `fileman_read` (`fileman.c:86-89`). -/
def skipLoop (foffset ind : Nat) (c : Int8) (f : Stream) : Int8 × Stream :=
  if ind < foffset ∧ c.toInt ≠ EOF then
    let r := f.fgetc
    skipLoop foffset (ind + 1) (toChar r.1) r.2
  else (c, f)
termination_by foffset - ind

/-- The second loop of `fileman_read` (`fileman.c:91-94`), with `ind` and the buffer at its end. -/
def readLoop (boffset size ind : Nat) (c : Int8) (f : Stream) (buf : Mem) : Nat × Mem :=
  if c.toInt ≠ EOF ∧ ind < size then
    let buf := Function.update buf (boffset + ind : Int) c.toUInt8
    let r := f.fgetc
    readLoop boffset size (ind + 1) (toChar r.1) r.2 buf
  else (ind, buf)
termination_by size - ind

/-- `fileman_read` (`fileman.c:74-97`): its result and the buffer. -/
def filemanRead (fs : Files FileName) (fname : FileName) (foffset : Nat) (buf : Mem)
    (boffset size : Nat) : Nat × Mem :=
  match fopenRead fs fname with
  | none => (sizeError, buf)
  | some f =>
    let r := f.fgetc
    let skipped := skipLoop foffset 0 (toChar r.1) r.2
    readLoop boffset size 0 skipped.1 skipped.2 buf

/-- The value of a `size_t` as a `long`. -/
def toLong (n : Nat) : Int := if n < 2 ^ 63 then n else n - 2 ^ 64

/-- `fileman_write` (`fileman.c:106-124`): its result and the files. -/
def filemanWrite (fs : Files FileName) (fname : FileName) (foffset : Nat) (buf : Mem)
    (boffset size : Nat) : Nat × Files FileName :=
  match fopenRead fs fname with
  | some _ => (sizeError, fs)
  | none =>
    let (f, fs) := fopenWrite fs fname
    let (off, f) := f.fseekSet (toLong foffset)
    if off ≠ 0 then (sizeError, fs)
    else
      let (w, f) := f.fwrite (slice buf boffset size)
      (w, fclose fs fname f)

/-- `fileman_append` (`fileman.c:132-143`): its result and the files. -/
def filemanAppend (fs : Files FileName) (fname : FileName) (buf : Mem) (size : Nat) :
    Nat × Files FileName :=
  match fopenUpdate fs fname with
  | none => (sizeError, fs)
  | some f =>
    let (e, f) := f.fseekEnd
    if e ≠ 0 then (sizeError, fs)
    else
      let (w, f) := f.fwrite (slice buf 0 size)
      (w, fclose fs fname f)

/-- The loop of `fileman_copy` (`fileman.c:169-172`). -/
def copyLoop (c : Int8) (f1 f2 : Stream) : Stream × Stream :=
  if _h : c.toInt ≠ EOF then
    let f2 := f2.fputc c.toUInt8
    let r := f1.fgetc
    copyLoop (toChar r.1) r.2 f2
  else (f1, f2)
termination_by f1.unread c
decreasing_by exact Stream.unread_fgetc_lt ‹_›

/-- `fileman_copy` (`fileman.c:153-177`): its result and the files. -/
def filemanCopy (fs : Files FileName) (fsrc fdest : FileName) : Nat × Files FileName :=
  match fopenRead fs fsrc, fopenRead fs fdest with
  | some f1, none =>
    let (f2, fs) := fopenWrite fs fdest
    let r := f1.fgetc
    let (f1, f2) := copyLoop (toChar r.1) r.2 f2
    (f1.ftell, fclose fs fdest f2)
  | _, _ => (sizeError, fs)

/-! ## The loops in closed form -/

section Loops

variable {bytes : List UInt8} {p ind : Nat}

/-- A loop that reads at `p`, in front of the byte that is taken for the end, goes on with the byte
there. -/
theorem ahead_of_lt_stop (h : p < stop bytes) : ∃ b, bytes[p]? = some b ∧
    (Stream.ahead bytes p).1.toInt ≠ EOF ∧ (Stream.ahead bytes p).1.toUInt8 = b := by
  have hlt : p < bytes.length := lt_of_lt_of_le h (stop_le bytes)
  refine ⟨bytes[p], List.getElem?_eq_getElem hlt, ?_, ?_⟩
  · intro heof
    have := (ahead_eq_EOF_iff (by omega)).mp heof
    omega
  · rw [Stream.ahead_of_lt (List.getElem?_eq_getElem hlt)]
    exact toUInt8_toChar _

theorem skipLoop_ahead (foffset : Nat) (hp : p ≤ stop bytes) :
    skipLoop foffset ind (Stream.ahead bytes p).1 (Stream.ahead bytes p).2 =
      Stream.ahead bytes (min (p + (foffset - ind)) (stop bytes)) := by
  induction hn : foffset - ind generalizing p ind with
  | zero =>
    have hmin : min (p + 0) (stop bytes) = p := by omega
    rw [skipLoop, if_neg (by omega), hmin]
  | succ n ih =>
    rw [skipLoop]
    by_cases hstop : p = stop bytes
    · have heof := (ahead_eq_EOF_iff hp).mpr hstop
      have hmin : min (p + (n + 1)) (stop bytes) = p := by omega
      rw [if_neg (fun h => h.2 heof), hmin]
    · obtain ⟨b, hb, heof, -⟩ := ahead_of_lt_stop (Nat.lt_of_le_of_ne hp hstop)
      have hnext := Stream.fgetc_ahead hb
      have hmin : min (p + 1 + n) (stop bytes) = min (p + (n + 1)) (stop bytes) := by omega
      have hrec := @ih (p + 1) (ind + 1) (by omega) (by omega)
      rw [← hnext] at hrec
      rw [if_pos ⟨by omega, heof⟩, ← hmin, ← hrec]

theorem readLoop_ahead (boffset size : Nat) (buf : Mem) (hp : p ≤ stop bytes) :
    readLoop boffset size ind (Stream.ahead bytes p).1 (Stream.ahead bytes p).2 buf =
      (ind + min (size - ind) (stop bytes - p),
        store buf (boffset + ind : Int)
          ((bytes.drop p).take (min (size - ind) (stop bytes - p)))) := by
  induction hn : size - ind generalizing p ind buf with
  | zero =>
    rw [readLoop, if_neg (by omega)]
    simp [store]
  | succ n ih =>
    rw [readLoop]
    by_cases hstop : p = stop bytes
    · have heof := (ahead_eq_EOF_iff hp).mpr hstop
      rw [if_neg (fun h => h.1 heof)]
      simp [hstop, store]
    · have hlt : p < stop bytes := Nat.lt_of_le_of_ne hp hstop
      obtain ⟨b, hb, heof, hchar⟩ := ahead_of_lt_stop hlt
      have hnext := Stream.fgetc_ahead hb
      have hdrop : bytes.drop p = b :: bytes.drop (p + 1) := by
        obtain ⟨hbound, rfl⟩ := List.getElem?_eq_some_iff.mp hb
        exact List.drop_eq_getElem_cons hbound
      have hcount : min (n + 1) (stop bytes - p) = min n (stop bytes - (p + 1)) + 1 := by omega
      have hind : (boffset + (ind + 1 : Nat) : Int) = boffset + ind + 1 := by
        push_cast
        omega
      have hrec := @ih (p + 1) (ind + 1) (Function.update buf (boffset + ind : Int) b) (by omega)
        (by omega)
      rw [← hnext] at hrec
      rw [if_pos ⟨heof, by omega⟩]
      simp only [hchar]
      rw [hrec, hcount, hdrop, List.take_succ_cons, store, hind]
      congr 1
      omega

theorem copyLoop_ahead (f2 : Stream) (hp : p ≤ stop bytes) (hend : f2.pos = f2.bytes.length) :
    copyLoop (Stream.ahead bytes p).1 (Stream.ahead bytes p).2 f2 =
      ((Stream.ahead bytes (stop bytes)).2,
        { bytes := f2.bytes ++ (bytes.drop p).take (stop bytes - p)
          pos := f2.pos + (stop bytes - p) }) := by
  induction hn : stop bytes - p generalizing p f2 with
  | zero =>
    have hstop : p = stop bytes := by omega
    have heof := (ahead_eq_EOF_iff hp).mpr hstop
    rw [copyLoop, dif_neg (not_not.mpr heof)]
    simp [hstop]
  | succ n ih =>
    have hlt : p < stop bytes := by omega
    obtain ⟨b, hb, heof, hchar⟩ := ahead_of_lt_stop hlt
    have hnext := Stream.fgetc_ahead hb
    have hdrop : bytes.drop p = b :: bytes.drop (p + 1) := by
      obtain ⟨hbound, rfl⟩ := List.getElem?_eq_some_iff.mp hb
      exact List.drop_eq_getElem_cons hbound
    have hput : f2.fputc b = { bytes := f2.bytes ++ [b], pos := f2.pos + 1 } := by
      simp [Stream.fputc, Stream.fwrite, hend, writeAt_length]
    have hrec := @ih (p + 1) (f2.fputc b) (by omega) (by simp [hput, hend]) (by omega)
    rw [← hnext] at hrec
    rw [copyLoop, dif_pos heof]
    simp only [hchar]
    rw [hrec, hput, hdrop, List.take_succ_cons]
    simp only [List.append_assoc, List.singleton_append, Nat.add_assoc, Nat.add_comm 1 n]

end Loops

/-! ## Copying -/

section Copy

variable {fs : Files FileName} {fsrc fdest : FileName} {bytes : List UInt8}

/-- The copy has the bytes of the source, which is as before, and their number is returned. -/
def CopiesExactly (fs : Files FileName) (fsrc fdest : FileName) (bytes : List UInt8) : Prop :=
  (filemanCopy fs fsrc fdest).2 fdest = some bytes ∧
    (filemanCopy fs fsrc fdest).2 fsrc = some bytes ∧
    (filemanCopy fs fsrc fdest).1 = bytes.length

theorem filemanCopy_eq (hsrc : fs fsrc = some bytes) (hdest : fs fdest = none) :
    filemanCopy fs fsrc fdest =
      ((Stream.ahead bytes (stop bytes)).2.ftell,
        Function.update fs fdest (some (bytes.take (stop bytes)))) := by
  have hloop := copyLoop_ahead { bytes := [], pos := 0 } (Nat.zero_le (stop bytes)) rfl
  simp only [Stream.ahead] at hloop
  simp [filemanCopy, fopenRead, fopenWrite, fclose, hsrc, hdest, hloop, Stream.ahead]

/-- `fileman_copy` is exact if and only if the source has no byte `0xFF`. -/
theorem fileman_copy_exact_iff (hsrc : fs fsrc = some bytes) (hdest : fs fdest = none) :
    CopiesExactly fs fsrc fdest bytes ↔ eofByte ∉ bytes := by
  have hne : fsrc ≠ fdest := by
    rintro rfl
    rw [hsrc] at hdest
    cases hdest
  have hle := stop_le bytes
  simp only [CopiesExactly, filemanCopy_eq hsrc hdest, eofByte_mem_iff, Function.update_self,
    Function.update_of_ne hne]
  constructor
  · rintro ⟨hcopy, -, -⟩ hlt
    have hlength : (bytes.take (stop bytes)).length = bytes.length :=
      congrArg List.length (Option.some.inj hcopy)
    rw [List.length_take] at hlength
    omega
  · intro hlt
    have hstop : stop bytes = bytes.length := by omega
    refine ⟨?_, hsrc, ?_⟩
    · rw [hstop, List.take_length]
    · rw [Stream.ahead_of_ge (by omega)]
      exact hstop

/-- A file with the bytes of a word. -/
def wordFile : Files FileName := fun name => if name = "src" then some [1, 2, 3, 4] else none

theorem fileman_copy_exact_wordFile : CopiesExactly wordFile "src" "dest" [1, 2, 3, 4] :=
  (fileman_copy_exact_iff (by decide) (by decide)).mpr (by decide)

/-- A file that begins with the byte `0xFF`. -/
def ffFile : Files FileName := fun name => if name = "src" then some [0xff, 1] else none

/-- The copy of this file is empty, and one byte is reported. -/
theorem fileman_copy_stops : ffFile "src" = some [0xff, 1] ∧ ffFile "dest" = none ∧
    filemanCopy ffFile "src" "dest" = (1, Function.update ffFile "dest" (some [])) ∧
    ¬ CopiesExactly ffFile "src" "dest" [0xff, 1] := by
  have hcopy : filemanCopy ffFile "src" "dest" = (1, Function.update ffFile "dest" (some [])) :=
    @filemanCopy_eq ffFile "src" "dest" [0xff, 1] (by decide) (by decide)
  refine ⟨rfl, rfl, hcopy, ?_⟩
  rw [CopiesExactly, hcopy]
  decide

end Copy

/-! ## Writing, appending and reading -/

section RoundTrip

variable {fs : Files FileName} {fname : FileName} {offset foffset boffset size : Nat}
  {a b bytes : List UInt8} {buf abuf bbuf : Mem}

/-- What `fileman_read` should store: the bytes from `foffset` on, `size` of them at most. -/
def wanted (bytes : List UInt8) (foffset size : Nat) : List UInt8 :=
  (bytes.drop foffset).take size

/-- The content after `a` has been written at `offset` and `b` has been appended. -/
def written (offset : Nat) (a b : List UInt8) : List UInt8 :=
  List.replicate offset 0 ++ a ++ b

theorem slice_of_holds (h : Holds buf boffset a) : slice buf boffset a.length = a := by
  induction a generalizing boffset with
  | nil => rfl
  | cons x a ih =>
    have hnext : slice buf (boffset + 1) a.length = a := ih (by exact_mod_cast h.2)
    have hshift : (fun i : Nat => buf ((boffset : Int) + (i + 1 : Nat))) =
        fun i : Nat => buf (((boffset + 1 : Nat) : Int) + i) := by
      funext i
      congr 1
      push_cast
      omega
    rw [slice] at hnext
    rw [slice, List.length_cons, List.range_succ_eq_map, List.map_cons, List.map_map]
    simp only [Function.comp_def, Nat.succ_eq_add_one, hshift, hnext]
    simp [h.1]

theorem toLong_of_lt (h : offset < 2 ^ 63) : toLong offset = offset := if_pos h

theorem filemanWrite_eq (hfresh : fs fname = none) (hoffset : offset < 2 ^ 63) (ha : a ≠ [])
    (habuf : Holds abuf boffset a) :
    filemanWrite fs fname offset abuf boffset a.length =
      (a.length, Function.update fs fname (some (List.replicate offset 0 ++ a))) := by
  have hnonneg : ¬ (offset : Int) < 0 := by omega
  simp [filemanWrite, fopenRead, fopenWrite, fclose, hfresh, Stream.fseekSet, toLong_of_lt hoffset,
    hnonneg, Stream.fwrite, slice_of_holds habuf, writeAt_nil ha]

theorem filemanAppend_eq (hfile : fs fname = some bytes) (hbbuf : Holds bbuf 0 b) :
    filemanAppend fs fname bbuf b.length =
      (b.length, Function.update fs fname (some (bytes ++ b))) := by
  have hslice : slice bbuf 0 b.length = b := slice_of_holds hbbuf
  simp [filemanAppend, fopenUpdate, fopenRead, fclose, hfile, Stream.fseekEnd, Stream.fwrite,
    hslice, writeAt_length]

theorem filemanRead_eq (hfile : fs fname = some bytes) :
    filemanRead fs fname foffset buf boffset size =
      (min size (stop bytes - min foffset (stop bytes)),
        store buf boffset ((bytes.drop (min foffset (stop bytes))).take
          (min size (stop bytes - min foffset (stop bytes))))) := by
  have hskip := @skipLoop_ahead bytes 0 0 foffset (Nat.zero_le _)
  have hread := @readLoop_ahead bytes (min foffset (stop bytes)) 0 boffset size buf
    (Nat.min_le_right _ _)
  rw [Nat.zero_add, Nat.sub_zero] at hskip
  rw [← hskip] at hread
  simpa [filemanRead, fopenRead, hfile, Stream.ahead] using hread

/-- `fileman_read` stores what is wanted, and nothing else, if and only if no byte `0xFF` lies
before the last wanted byte, or nothing is wanted. -/
theorem filemanRead_exact_iff (hfile : fs fname = some bytes) :
    filemanRead fs fname foffset buf boffset size =
        ((wanted bytes foffset size).length, store buf boffset (wanted bytes foffset size)) ↔
      size = 0 ∨ bytes.length ≤ foffset ∨ eofByte ∉ bytes.take (foffset + size) := by
  have hle := stop_le bytes
  have hlength : (wanted bytes foffset size).length = min size (bytes.length - foffset) := by
    simp [wanted]
  rw [filemanRead_eq hfile, eofByte_mem_take_iff, hlength]
  constructor
  · intro h
    have hcount := congrArg Prod.fst h
    simp only at hcount
    omega
  · intro h
    have hcount : min size (stop bytes - min foffset (stop bytes)) =
        min size (bytes.length - foffset) := by omega
    rw [hcount]
    congr 2
    by_cases hnone : min size (bytes.length - foffset) = 0
    · rw [hnone, List.take_zero]
      exact (List.eq_nil_of_length_eq_zero (hlength.trans hnone)).symm
    · have hoffset : min foffset (stop bytes) = foffset := by omega
      rw [hoffset, wanted]
      have hdrop : (bytes.drop foffset).length = bytes.length - foffset := List.length_drop
      rw [← hdrop, ← List.take_eq_take_min]

/-- A file that is written at an offset and appended to has the zeros and the two byte strings, and
reading it back is exact if and only if no byte `0xFF` lies before the last wanted byte, or nothing
is wanted. -/
theorem fileman_round_trip_iff (hfresh : fs fname = none) (hoffset : offset < 2 ^ 63) (ha : a ≠ [])
    (habuf : Holds abuf boffset a) (hbbuf : Holds bbuf 0 b) :
    ∃ fs₁ fs₂, filemanWrite fs fname offset abuf boffset a.length = (a.length, fs₁) ∧
      filemanAppend fs₁ fname bbuf b.length = (b.length, fs₂) ∧
      fs₂ fname = some (written offset a b) ∧
      ∀ foffset buf boffset size,
        filemanRead fs₂ fname foffset buf boffset size =
            ((wanted (written offset a b) foffset size).length,
              store buf boffset (wanted (written offset a b) foffset size)) ↔
          size = 0 ∨ (written offset a b).length ≤ foffset ∨
            eofByte ∉ (written offset a b).take (foffset + size) := by
  refine ⟨_, _, filemanWrite_eq hfresh hoffset ha habuf,
    filemanAppend_eq (Function.update_self ..) hbbuf, Function.update_self .., ?_⟩
  intro foffset buf boffset size
  exact filemanRead_exact_iff (Function.update_self ..)

/-- No files. -/
def noFiles : Files FileName := fun _ => none

/-- A buffer with the given bytes at its start. -/
def bufferOf (bs : List UInt8) : Mem := store (fun _ => 0) 0 bs

theorem fileman_round_trip_two : ∃ fs₁ fs₂,
    filemanWrite noFiles "f" 1 (bufferOf [7]) 0 1 = (1, fs₁) ∧
      filemanAppend fs₁ "f" (bufferOf [8]) 1 = (1, fs₂) ∧ fs₂ "f" = some [0, 7, 8] ∧
      filemanRead fs₂ "f" 1 (bufferOf []) 0 5 = (2, bufferOf [7, 8]) := by
  have hwritten : written 1 [7] [8] = [0, 7, 8] := by decide
  obtain ⟨fs₁, fs₂, hwrite, happend, hfile, hread⟩ :=
    @fileman_round_trip_iff noFiles "f" 1 0 [7] [8] (bufferOf [7]) (bufferOf [8]) rfl (by decide)
      (by decide) (store_holds _ _ _) (store_holds _ _ _)
  rw [hwritten] at hfile hread
  exact ⟨fs₁, fs₂, hwrite, happend, hfile,
    (hread 1 (bufferOf []) 0 5).mpr (Or.inr (Or.inr (by decide)))⟩

/-- Of three bytes whose second one is `0xFF` one is read back. -/
theorem fileman_round_trip_stops : ∃ fs₁ fs₂,
    filemanWrite noFiles "f" 0 (bufferOf [1, 0xff, 2]) 0 3 = (3, fs₁) ∧
      filemanAppend fs₁ "f" (bufferOf []) 0 = (0, fs₂) ∧ fs₂ "f" = some [1, 0xff, 2] ∧
      (filemanRead fs₂ "f" 0 (bufferOf []) 0 3).1 = 1 ∧
      filemanRead fs₂ "f" 0 (bufferOf []) 0 3 ≠ (3, bufferOf [1, 0xff, 2]) := by
  have hcount : (filemanRead (Function.update (Function.update noFiles "f" (some [1, 0xff, 2]))
      "f" (some [1, 0xff, 2])) "f" 0 (bufferOf []) 0 3).1 = 1 := by
    rw [filemanRead_eq (Function.update_self ..)]
    decide
  have hnothing : Holds (bufferOf []) 0 [] := trivial
  refine ⟨_, _, filemanWrite_eq rfl (by decide) (by decide) (store_holds _ _ _),
    filemanAppend_eq (Function.update_self ..) hnothing, Function.update_self .., hcount, ?_⟩
  intro h
  have hthree : 1 = 3 := hcount.symm.trans (congrArg Prod.fst h)
  cases hthree

end RoundTrip

end CSE130.Fileman
