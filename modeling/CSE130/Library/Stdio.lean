import Mathlib.Algebra.Ring.Nat
import Mathlib.Data.List.TakeWhile
import Mathlib.Logic.Function.Basic

/-!
# Files and streams of C

A file system gives the bytes of the files that exist. An open stream has the bytes of its file and
a position; what is written to it reaches the file when it is closed. Writing behind the end fills
the gap with zeros. Errors of the device are left out.

A loop `while (c != EOF) ... c = fgetc (f)` that keeps the character in a signed `char` takes the
byte `0xFF` for the end of the file. Where such a loop stands in a file is described by
`Stream.ahead`, where it stops by `stop`.
-/

namespace CSE130.Library

/-- `EOF`. -/
def EOF : Int := -1

/-- The value that an `int` has after it has been stored in a signed `char`. -/
def toChar (z : Int) : Int8 := Int8.ofInt z

theorem toInt_toChar_EOF : (toChar EOF).toInt = EOF := by decide

/-- The files that exist, with their bytes. -/
abbrev Files (Name : Type) := Name → Option (List UInt8)

/-- An open stream. -/
structure Stream where
  bytes : List UInt8
  pos : Nat
  deriving DecidableEq, Repr

/-- The bytes of a file after `data` has been written at `pos`. -/
def writeAt (bytes : List UInt8) (pos : Nat) (data : List UInt8) : List UInt8 :=
  if data = [] then bytes
  else bytes.take pos ++ List.replicate (pos - bytes.length) 0 ++ data ++
    bytes.drop (pos + data.length)

theorem writeAt_length (bytes data : List UInt8) :
    writeAt bytes bytes.length data = bytes ++ data := by
  unfold writeAt
  split_ifs with h
  · simp [h]
  · simp

theorem length_writeAt {bytes data : List UInt8} {pos : Nat} (h : data ≠ []) :
    (writeAt bytes pos data).length = max bytes.length (pos + data.length) := by
  rw [writeAt, if_neg h]
  simp only [List.length_append, List.length_take, List.length_replicate, List.length_drop]
  omega

theorem writeAt_nil {pos : Nat} {data : List UInt8} (h : data ≠ []) :
    writeAt [] pos data = List.replicate pos 0 ++ data := by
  simp [writeAt, h]

section Open

variable {Name : Type} [DecidableEq Name]

/-- `fopen (fname, "r")`; `none` for `NULL`. -/
def fopenRead (fs : Files Name) (fname : Name) : Option Stream :=
  (fs fname).map fun bytes => { bytes := bytes, pos := 0 }

/-- `fopen (fname, "w")`: the stream, and the files after the call. -/
def fopenWrite (fs : Files Name) (fname : Name) : Stream × Files Name :=
  ({ bytes := [], pos := 0 }, Function.update fs fname (some []))

/-- `fopen (fname, "r+")`. -/
def fopenUpdate (fs : Files Name) (fname : Name) : Option Stream := fopenRead fs fname

/-- `fclose` of a stream that was open for writing to `fname`. -/
def fclose (fs : Files Name) (fname : Name) (f : Stream) : Files Name :=
  Function.update fs fname (some f.bytes)

end Open

namespace Stream

/-- `fgetc`. -/
def fgetc (f : Stream) : Int × Stream :=
  match f.bytes[f.pos]? with
  | some b => (b.toNat, { f with pos := f.pos + 1 })
  | none => (EOF, f)

/-- `fwrite`, with the number of bytes written. -/
def fwrite (f : Stream) (data : List UInt8) : Nat × Stream :=
  (data.length, { bytes := writeAt f.bytes f.pos data, pos := f.pos + data.length })

/-- `fputc`. -/
def fputc (f : Stream) (b : UInt8) : Stream := (f.fwrite [b]).2

/-- `fseek (f, offset, SEEK_SET)`, with its result. -/
def fseekSet (f : Stream) (offset : Int) : Int × Stream :=
  if offset < 0 then (-1, f) else (0, { f with pos := offset.toNat })

/-- `fseek (f, 0, SEEK_END)`, with its result. -/
def fseekEnd (f : Stream) : Int × Stream := (0, { f with pos := f.bytes.length })

/-- `ftell`. -/
def ftell (f : Stream) : Nat := f.pos

/-! ## Reading character by character -/

/-- An upper bound for the rounds of a loop that reads until `c` is `EOF`. -/
def unread (c : Int8) (f : Stream) : Nat :=
  if c.toInt = EOF then 0 else f.bytes.length - f.pos + 1

theorem unread_fgetc_lt {c : Int8} {f : Stream} (hc : c.toInt ≠ EOF) :
    unread (toChar f.fgetc.1) f.fgetc.2 < unread c f := by
  have hpos : unread c f = f.bytes.length - f.pos + 1 := if_neg hc
  rw [hpos]
  unfold fgetc
  split
  · rename_i b hb
    have hlt : f.pos < f.bytes.length := (List.getElem?_eq_some_iff.mp hb).1
    unfold unread
    split
    · omega
    · change f.bytes.length - (f.pos + 1) + 1 < _
      omega
  · rw [unread, if_pos toInt_toChar_EOF]
    omega

/-- The character read at position `p`, and the stream after this. -/
def ahead (bytes : List UInt8) (p : Nat) : Int8 × Stream :=
  let r := fgetc { bytes := bytes, pos := p }
  (toChar r.1, r.2)

variable {bytes : List UInt8} {p : Nat}

theorem ahead_of_lt {b : UInt8} (h : bytes[p]? = some b) :
    ahead bytes p = (toChar b.toNat, { bytes := bytes, pos := p + 1 }) := by
  simp [ahead, fgetc, h]

theorem ahead_of_ge (h : bytes.length ≤ p) : ahead bytes p = (toChar EOF, ⟨bytes, p⟩) := by
  simp [ahead, fgetc, List.getElem?_eq_none h]

/-- The character behind the one that has been read. -/
theorem fgetc_ahead {b : UInt8} (h : bytes[p]? = some b) :
    (toChar (ahead bytes p).2.fgetc.1, (ahead bytes p).2.fgetc.2) = ahead bytes (p + 1) := by
  rw [ahead_of_lt h]
  rfl

end Stream

/-! ## The byte that is taken for the end -/

/-- The byte whose value as a signed `char` is that of `EOF`. -/
def eofByte : UInt8 := 0xff

theorem toChar_eq_EOF_iff {b : UInt8} : (toChar b.toNat).toInt = EOF ↔ b = eofByte := by
  obtain ⟨⟨i⟩⟩ := b
  revert i
  decide +kernel

theorem toUInt8_toChar (b : UInt8) : (toChar b.toNat).toUInt8 = b := by
  obtain ⟨⟨i⟩⟩ := b
  revert i
  decide +kernel

/-- The position of the first byte that is taken for the end of the file, or else the end. -/
def stop (bytes : List UInt8) : Nat := (bytes.takeWhile (· ≠ eofByte)).length

section Stop

variable {bytes : List UInt8} {p : Nat}

theorem stop_le (bytes : List UInt8) : stop bytes ≤ bytes.length :=
  (List.takeWhile_prefix _).length_le

theorem takeWhile_eq_take (bytes : List UInt8) :
    bytes.takeWhile (· ≠ eofByte) = bytes.take (stop bytes) :=
  (List.prefix_iff_eq_take.mp (List.takeWhile_prefix _))

theorem getElem?_stop (h : stop bytes < bytes.length) : bytes[stop bytes]? = some eofByte := by
  induction bytes with
  | nil => simp at h
  | cons b bytes ih =>
    by_cases hb : b = eofByte
    · simp [stop, hb]
    · have hstop : stop (b :: bytes) = stop bytes + 1 := by simp [stop, hb]
      rw [hstop] at h ⊢
      simpa using ih (by simpa using h)

theorem ne_of_lt_stop {b : UInt8} (h : p < stop bytes) (hb : bytes[p]? = some b) :
    b ≠ eofByte := by
  have hmem : b ∈ bytes.takeWhile (· ≠ eofByte) := by
    rw [takeWhile_eq_take]
    apply List.mem_of_getElem? (i := p)
    rw [List.getElem?_take_of_lt h]
    exact hb
  simpa using List.mem_takeWhile_imp hmem

theorem eofByte_mem_take_iff {n : Nat} : eofByte ∈ bytes.take n ↔
    stop bytes < n ∧ stop bytes < bytes.length := by
  constructor
  · intro h
    obtain ⟨p, hp⟩ := List.mem_iff_getElem?.mp h
    have hlt : p < (bytes.take n).length := (List.getElem?_eq_some_iff.mp hp).1
    rw [List.length_take] at hlt
    rw [List.getElem?_take_of_lt (by omega)] at hp
    have hge : ¬ p < stop bytes := fun hp' => ne_of_lt_stop hp' hp rfl
    omega
  · rintro ⟨hn, hlt⟩
    apply List.mem_of_getElem? (i := stop bytes)
    rw [List.getElem?_take_of_lt hn]
    exact getElem?_stop hlt

theorem eofByte_mem_iff : eofByte ∈ bytes ↔ stop bytes < bytes.length := by
  have h := @eofByte_mem_take_iff bytes bytes.length
  rwa [List.take_length, and_self] at h

/-- Reading stops at `stop`, and not before. -/
theorem ahead_eq_EOF_iff (h : p ≤ stop bytes) :
    (Stream.ahead bytes p).1.toInt = EOF ↔ p = stop bytes := by
  have hle := stop_le bytes
  cases hb : bytes[p]? with
  | none =>
    have hge : bytes.length ≤ p := List.getElem?_eq_none_iff.mp hb
    rw [Stream.ahead_of_ge hge]
    exact iff_of_true toInt_toChar_EOF (by omega)
  | some b =>
    have hlt : p < bytes.length := (List.getElem?_eq_some_iff.mp hb).1
    rw [Stream.ahead_of_lt hb, toChar_eq_EOF_iff]
    constructor
    · intro heof
      have hge : ¬ p < stop bytes := fun hp => ne_of_lt_stop hp hb heof
      omega
    · intro heq
      subst heq
      rw [getElem?_stop hlt] at hb
      exact (Option.some.inj hb).symm

end Stop

end CSE130.Library
