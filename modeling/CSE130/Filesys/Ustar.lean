import CSE130.Filesys.OpenFiles
import CSE130.Library.Numerals
import Mathlib.Algebra.Order.BigOperators.Group.List

/-!
# Archive headers

Rendering of `lib/ustar.c`, and of what it uses of `strlcpy` and `snprintf`. A string is the list of its
bytes, without the null byte behind them; an `unsigned long` has 32 bits.
-/

namespace CSE130.Filesys

open CSE130.Library OpenInodes

/-- An array of `n` bytes. -/
abbrev Chars (n : Nat) := { cs : List UInt8 // cs.length = n }

namespace Chars

@[simp] theorem length_val {n : Nat} (cs : Chars n) : cs.val.length = n := cs.property

/-- An array of zeros. -/
def blank (n : Nat) : Chars n := ⟨List.replicate n 0, List.length_replicate⟩

/-- `strlcpy (dst, src, n)`. -/
def strlcpy {n : Nat} (dst : Chars n) (src : List UInt8) : Chars n :=
  ⟨(src.take (n - 1) ++ [0] ++ dst.val.drop ((src.take (n - 1)).length + 1)).take n, by
    simp only [List.length_take, List.length_append, List.length_drop, List.length_singleton,
      length_val]
    omega⟩

/-- An array as a string. -/
def cstring {n : Nat} (cs : Chars n) : List UInt8 := cs.val.takeWhile (· ≠ 0)

end Chars

/-- `snprintf` with a conversion `%0..o` for a field of some width. -/
def octal (width value : Nat) : List UInt8 := (numeral 8 width value).map fun d => UInt8.ofNat (48 + d)

/-- `enum ustar_type`. -/
inductive UstarType where
  | regular
  | directory
  | eof
  deriving DecidableEq, Repr

/-- The character for a type. -/
def UstarType.typeflag : UstarType → UInt8
  | .regular => 48
  | .directory => 53
  | .eof => 255

/-- `struct ustar_header`. -/
structure UstarHeader where
  name : Chars 100
  mode : Chars 8
  uid : Chars 8
  gid : Chars 8
  size : Chars 12
  mtime : Chars 12
  chksum : Chars 8
  typeflag : UInt8
  linkname : Chars 100
  magic : Chars 6
  version : Chars 2
  uname : Chars 32
  gname : Chars 32
  devmajor : Chars 8
  devminor : Chars 8
  namePrefix : Chars 155
  padding : Chars 12
  deriving DecidableEq

namespace UstarHeader

/-- A header of zeros. -/
def zero : UstarHeader where
  name := .blank 100
  mode := .blank 8
  uid := .blank 8
  gid := .blank 8
  size := .blank 12
  mtime := .blank 12
  chksum := .blank 8
  typeflag := 0
  linkname := .blank 100
  magic := .blank 6
  version := .blank 2
  uname := .blank 32
  gname := .blank 32
  devmajor := .blank 8
  devminor := .blank 8
  namePrefix := .blank 155
  padding := .blank 12

/-- The bytes in front of `chksum`. -/
def front (h : UstarHeader) : List UInt8 :=
  h.name.val ++ (h.mode.val ++ (h.uid.val ++ (h.gid.val ++ (h.size.val ++ h.mtime.val))))

/-- The bytes behind `chksum`. -/
def back (h : UstarHeader) : List UInt8 :=
  h.typeflag :: (h.linkname.val ++ (h.magic.val ++ (h.version.val ++ (h.uname.val ++ (h.gname.val ++
    (h.devmajor.val ++ (h.devminor.val ++ (h.namePrefix.val ++ h.padding.val))))))))

theorem length_front (h : UstarHeader) : h.front.length = 148 := by
  simp only [front, List.length_append, Chars.length_val]

theorem length_back (h : UstarHeader) : h.back.length = 356 := by
  simp only [back, List.length_cons, List.length_append, Chars.length_val]

/-- The sector with a header. -/
def toBlock (h : UstarHeader) : Block :=
  ⟨h.front ++ (h.chksum.val ++ h.back), by
    rw [List.length_append, List.length_append, length_front, length_back, Chars.length_val]⟩

/-- The bytes of a sector from some offset on. -/
def field (b : Block) (ofs n : Nat) (h : ofs + n ≤ 512) : Chars n :=
  ⟨(b.val.drop ofs).take n, by
    rw [List.length_take, List.length_drop, b.property]
    omega⟩

/-- A sector as a header. -/
def ofBlock (b : Block) : UstarHeader where
  name := field b 0 100 (by decide)
  mode := field b 100 8 (by decide)
  uid := field b 108 8 (by decide)
  gid := field b 116 8 (by decide)
  size := field b 124 12 (by decide)
  mtime := field b 136 12 (by decide)
  chksum := field b 148 8 (by decide)
  typeflag := b.val.getD 156 0
  linkname := field b 157 100 (by decide)
  magic := field b 257 6 (by decide)
  version := field b 263 2 (by decide)
  uname := field b 265 32 (by decide)
  gname := field b 297 32 (by decide)
  devmajor := field b 329 8 (by decide)
  devminor := field b 337 8 (by decide)
  namePrefix := field b 345 155 (by decide)
  padding := field b 500 12 (by decide)

/-- A byte in the loop of `calculate_chksum`, with its index: those of the field `chksum` count as
spaces. -/
def chksumByte (r : UInt8 × Nat) : Nat := if 148 ≤ r.2 ∧ r.2 < 156 then 32 else r.1.toNat

/-- `calculate_chksum` (`ustar.c:36-54`). -/
def calculateChksum (h : UstarHeader) : Nat := (h.toBlock.val.zipIdx.map chksumByte).sum

end UstarHeader

/-! ## Names -/

/-- The condition of the loop in `strip_antisocial_prefixes`. -/
def antisocial (fileName : List UInt8) : Bool :=
  fileName.head? = some slash ∨ fileName.take 2 = Volume.dot ++ [slash] ∨
    fileName.take 3 = Volume.dotDot ++ [slash]

/-- The loop of `strip_antisocial_prefixes`. -/
def stripLoop : Nat → List UInt8 → List UInt8
  | 0, fileName => fileName
  | rounds + 1, fileName =>
    if antisocial fileName then stripLoop rounds ((fileName.dropWhile (· ≠ slash)).drop 1)
    else fileName

/-- `strip_antisocial_prefixes` (`ustar.c:65-73`); every round takes away a character. -/
def stripAntisocialPrefixes (fileName : List UInt8) : List UInt8 :=
  let fileName := stripLoop fileName.length fileName
  if fileName = [] ∨ fileName = Volume.dotDot then Volume.dot else fileName

/-! ## Writing and reading a header -/

/-- `ustar`. -/
def ustarChars : List UInt8 := [117, 115, 116, 97, 114]

/-- `root`. -/
def rootChars : List UInt8 := [114, 111, 111, 116]

/-- The header that `ustar_make_header` fills in, except for the checksum. -/
def fillHeader (fileName : List UInt8) (type : UstarType) (size : Nat) : UstarHeader :=
  let h := UstarHeader.zero
  { h with
    name := h.name.strlcpy fileName
    mode := h.mode.strlcpy (octal 7 (if type = .regular then 0o644 else 0o755))
    uid := h.uid.strlcpy (List.replicate 7 48)
    gid := h.gid.strlcpy (List.replicate 7 48)
    size := h.size.strlcpy (octal 11 size)
    mtime := h.mtime.strlcpy (octal 11 1136102400)
    typeflag := type.typeflag
    magic := h.magic.strlcpy ustarChars
    version := ⟨[48, 48], rfl⟩
    gname := h.gname.strlcpy rootChars
    uname := h.uname.strlcpy rootChars }

/-- The header with its checksum. -/
def withChksum (h : UstarHeader) : UstarHeader :=
  { h with chksum := h.chksum.strlcpy (octal 7 h.calculateChksum) }

/-- `ustar_make_header` (`ustar.c:82-118`): the header, if the name is not too long. -/
def ustarMakeHeader (fileName : List UInt8) (type : UstarType) (size : Nat) :
    Except Panic (Option UstarHeader) := do
  check (type = .regular ∨ type = .directory) .assertFailed
  let fileName := stripAntisocialPrefixes fileName
  if 99 < fileName.length then pure none else pure (some (withChksum (fillHeader fileName type size)))

/-- `ULONG_MAX`. -/
def ulongMax : Nat := 0xffffffff

/-- `INT_MAX`. -/
def intMax : Nat := 0x7fffffff

/-- The loop of `parse_octal_field` over the characters from `ofs` on. -/
def parseOctalLoop : List UInt8 → Nat → Nat → Option Nat
  | [], _, _ => none
  | c :: s, ofs, value =>
    if 48 ≤ c ∧ c ≤ 55 then
      if ulongMax / 8 < value then none else parseOctalLoop s (ofs + 1) (c.toNat - 48 + value * 8)
    else if c = 32 ∨ c = 0 then if 0 < ofs then some value else none
    else none

/-- `parse_octal_field` (`ustar.c:129-162`). -/
def parseOctalField {n : Nat} (s : Chars n) : Option Nat := parseOctalLoop s.val 0 0

/-- `is_all_zeros` (`ustar.c:166-173`). -/
def isAllZeros (block : List UInt8) : Bool := block.all (· = 0)

/-- What `ustar_parse_header` stores: the name, the type and the size. -/
structure UstarEntry where
  fileName : List UInt8
  type : UstarType
  size : Nat
  deriving DecidableEq, Repr

/-- The type of the entry and its size, where `ustar_parse_header` comes to them. -/
def parseTypeSize (h : UstarHeader) : Except String (UstarType × Nat) :=
  if h.typeflag ≠ UstarType.regular.typeflag ∧ h.typeflag ≠ UstarType.directory.typeflag then
    .error "unimplemented file type"
  else if h.typeflag = UstarType.regular.typeflag then
    match parseOctalField h.size with
    | none => .error "corrupt file size field"
    | some size => if intMax < size then .error "file too large" else .ok (.regular, size)
  else .ok (.directory, 0)

/-- `ustar_parse_header` (`ustar.c:181-227`). -/
def ustarParseHeader (header : Block) : Except String UstarEntry :=
  if isAllZeros header.val then .ok { fileName := [], type := .eof, size := 0 }
  else
    let h := UstarHeader.ofBlock header
    if h.magic.val ≠ ustarChars ++ [0] then .error "not a ustar archive"
    else if h.version.val ≠ [48, 48] then .error "invalid ustar version"
    else match parseOctalField h.chksum with
      | none => .error "corrupt chksum field"
      | some chksum =>
        if chksum ≠ h.calculateChksum then .error "checksum mismatch"
        else if h.name.val.getD 99 0 ≠ 0 ∨ h.namePrefix.val.getD 0 0 ≠ 0 then
          .error "file name too long"
        else do
          let (type, size) ← parseTypeSize h
          pure { fileName := stripAntisocialPrefixes h.name.cstring, type := type, size := size }

/-! ## Reading back a header -/

namespace Chars

variable {n : Nat} {src : List UInt8}

theorem drop_val {k : Nat} (cs : Chars n) (h : n ≤ k) : cs.val.drop k = [] :=
  List.drop_eq_nil_of_le (by rw [length_val]; exact h)

theorem take_val (cs : Chars n) : cs.val.take n = cs.val :=
  List.take_of_length_le (Nat.le_of_eq cs.property)

/-- What `strlcpy` of a string that fits leaves in an array of zeros. -/
theorem strlcpy_blank (h : src.length < n) :
    (strlcpy (blank n) src).val = src ++ List.replicate (n - src.length) 0 := by
  have htake : src.take (n - 1) = src := List.take_of_length_le (by omega)
  have hblank : (blank n).val = List.replicate n 0 := rfl
  have hlen : n - src.length = n - (src.length + 1) + 1 := by omega
  rw [strlcpy]
  dsimp only
  rw [htake, hblank, List.drop_replicate, hlen, List.replicate_succ, List.append_assoc,
    List.singleton_append, List.take_of_length_le]
  rw [List.length_append, List.length_cons, List.length_replicate]
  omega

theorem cstring_strlcpy (h : src.length < n) (h0 : 0 ∉ src) :
    (strlcpy (blank n) src).cstring = src := by
  have hpos : n - src.length = n - src.length - 1 + 1 := by omega
  have hall : ∀ c ∈ src, decide (c ≠ 0) = true := by
    intro c hc
    rw [decide_eq_true_eq]
    exact fun heq => h0 (heq ▸ hc)
  rw [cstring, strlcpy_blank h, hpos, List.replicate_succ, List.takeWhile_append_of_pos hall,
    List.takeWhile_cons_of_neg (by simp), List.append_nil]

end Chars

namespace UstarHeader

open Chars

variable {l : List UInt8} {i : Nat}

/-- What is written as a header is read back. -/
theorem ofBlock_toBlock (h : UstarHeader) : ofBlock h.toBlock = h := by
  obtain ⟨⟩ := h
  simp [ofBlock, toBlock, field, front, back, List.drop_append, drop_val, take_val]

theorem chksumByte_outside (h : i + l.length ≤ 148 ∨ 156 ≤ i) :
    (l.zipIdx i).map chksumByte = l.map UInt8.toNat := by
  induction l generalizing i with
  | nil => rfl
  | cons b l ih =>
    rw [List.length_cons] at h
    have hout : ¬ (148 ≤ i ∧ i < 156) := by omega
    rw [List.zipIdx_cons, List.map_cons, List.map_cons, ih (by omega), chksumByte, if_neg hout]

theorem chksumByte_inside (hi : 148 ≤ i) (h : i + l.length ≤ 156) :
    (l.zipIdx i).map chksumByte = List.replicate l.length 32 := by
  induction l generalizing i with
  | nil => rfl
  | cons b l ih =>
    rw [List.length_cons] at h
    have hin : 148 ≤ i ∧ i < 156 := by omega
    rw [List.zipIdx_cons, List.map_cons, List.length_cons, List.replicate_succ,
      ih (by omega) (by omega), chksumByte, if_pos hin]

/-- The checksum is that of the bytes around its own field. -/
theorem calculateChksum_eq (h : UstarHeader) : h.calculateChksum =
    (h.front.map UInt8.toNat ++ List.replicate 8 32 ++ h.back.map UInt8.toNat).sum := by
  have hblock : h.toBlock.val = h.front ++ (h.chksum.val ++ h.back) := rfl
  have hlen : h.chksum.val.length = 8 := h.chksum.property
  rw [calculateChksum, hblock, List.zipIdx_append, List.zipIdx_append, length_front, hlen,
    List.map_append, List.map_append, chksumByte_outside (.inl (by rw [length_front])),
    chksumByte_inside (by decide) (by rw [hlen]), hlen, chksumByte_outside (.inr (by decide)),
    List.append_assoc]

theorem calculateChksum_lt (h : UstarHeader) : h.calculateChksum < 8 ^ 7 := by
  have hbytes : ∀ x ∈ h.toBlock.val.zipIdx.map chksumByte, x ≤ 255 := by
    intro x hx
    obtain ⟨r, -, rfl⟩ := List.mem_map.mp hx
    have hr := r.1.toNat_lt
    unfold chksumByte
    split_ifs <;> omega
  have hsum := List.sum_le_card_nsmul _ 255 hbytes
  rw [List.length_map, List.length_zipIdx, h.toBlock.property] at hsum
  calc h.calculateChksum ≤ 512 • 255 := hsum
    _ < 8 ^ 7 := by decide

end UstarHeader

/-- Octal characters. -/
theorem octal_char : ∀ d < 8, 48 ≤ UInt8.ofNat (48 + d) ∧ UInt8.ofNat (48 + d) ≤ 55 ∧
    (UInt8.ofNat (48 + d)).toNat - 48 = d ∧ UInt8.ofNat (48 + d) ≠ 0 := by decide

/-- The loop of `parse_octal_field` reads digits up to a null byte. -/
theorem parseOctalLoop_digits {ds : List Nat} {ofs v : Nat} {s : List UInt8}
    (hds : ∀ d ∈ ds, d < 8) (hmax : readDigits 8 v ds ≤ ulongMax) (hpos : 0 < ofs + ds.length) :
    parseOctalLoop (ds.map (fun d => UInt8.ofNat (48 + d)) ++ 0 :: s) ofs v =
      some (readDigits 8 v ds) := by
  induction ds generalizing ofs v with
  | nil =>
    rw [List.length_nil, Nat.add_zero] at hpos
    have hdigit : ¬ ((48 : UInt8) ≤ 0 ∧ (0 : UInt8) ≤ 55) := by decide
    rw [List.map_nil, List.nil_append, parseOctalLoop, if_neg hdigit, if_pos (.inr rfl), if_pos hpos]
    rfl
  | cons d ds ih =>
    obtain ⟨hge, hle, hvalue, -⟩ := octal_char d (hds d List.mem_cons_self)
    have hnext : readDigits 8 v (d :: ds) = readDigits 8 (d + v * 8) ds := rfl
    have hmono := @le_readDigits 8 (by decide) (d + v * 8) ds
    have hfits : ¬ ulongMax / 8 < v := by
      rw [hnext] at hmax
      unfold ulongMax at hmax ⊢
      omega
    rw [List.map_cons, List.cons_append, parseOctalLoop, if_pos ⟨hge, hle⟩, if_neg hfits, hvalue,
      ih (fun d' hd' => hds d' (List.mem_cons_of_mem _ hd')) (hnext ▸ hmax) (by omega), hnext]

/-- A number that `snprintf` has written into a field is read back. -/
theorem parseOctalField_octal {n w v : Nat} (hw : 0 < w) (hv : v < 8 ^ w) (hn : w < n)
    (hmax : v ≤ ulongMax) : parseOctalField ((Chars.blank n).strlcpy (octal w v)) = some v := by
  have hlen : (octal w v).length = w := by rw [octal, List.length_map, length_numeral (by decide) hv]
  have hrest : n - w = n - w - 1 + 1 := by omega
  rw [parseOctalField, Chars.strlcpy_blank (by rw [hlen]; exact hn), hlen, hrest,
    List.replicate_succ, octal, parseOctalLoop_digits, readDigits_numeral]
  · intro d hd
    exact lt_of_mem_numeral (by decide) hd
  · rw [readDigits_numeral]
    exact hmax
  · rw [length_numeral (by decide) hv]
    omega

/-- A name without directories, as it may stand in a directory. -/
structure PlainName (name : List UInt8) : Prop where
  ne_nil : name ≠ []
  le : name.length ≤ nameMax
  noNull : 0 ∉ name
  noSlash : slash ∉ name
  ne_dot : name ≠ Volume.dot
  ne_dotDot : name ≠ Volume.dotDot

theorem antisocial_of_noSlash {name : List UInt8} (h : slash ∉ name) : antisocial name = false := by
  have hhead : name.head? ≠ some slash := fun hs => h (List.mem_of_mem_head? hs)
  have htake : ∀ k (l : List UInt8), name.take k ≠ l ++ [slash] := by
    intro k l heq
    apply h
    apply List.mem_of_mem_take
    rw [heq]
    exact List.mem_append_right _ (List.mem_singleton_self _)
  simp [antisocial, hhead, htake]

theorem stripAntisocialPrefixes_plain {name : List UInt8} (h : PlainName name) :
    stripAntisocialPrefixes name = name := by
  have hloop : stripLoop name.length name = name := by
    cases hlen : name.length with
    | zero => rfl
    | succ k =>
      rw [stripLoop, antisocial_of_noSlash h.noSlash]
      rfl
  rw [stripAntisocialPrefixes, hloop, if_neg (not_or.mpr ⟨h.ne_nil, h.ne_dotDot⟩)]

/-- The header of a regular file. -/
def regularHeader (fileName : List UInt8) (size : Nat) : UstarHeader :=
  withChksum (fillHeader fileName .regular size)

theorem ustarMakeHeader_plain {name : List UInt8} {size : Nat} (h : PlainName name) :
    ustarMakeHeader name .regular size = .ok (some (regularHeader name size)) := by
  have hle := h.le
  unfold nameMax at hle
  rw [ustarMakeHeader, check_bind (.inl rfl), stripAntisocialPrefixes_plain h, if_neg (by omega)]
  rfl

theorem calculateChksum_withChksum (h : UstarHeader) :
    (withChksum h).calculateChksum = h.calculateChksum := by
  rw [UstarHeader.calculateChksum_eq, UstarHeader.calculateChksum_eq]
  rfl

theorem isAllZeros_header {h : UstarHeader} (hmagic : 117 ∈ h.magic.val) :
    isAllZeros h.toBlock.val = false := by
  rw [isAllZeros, List.all_eq_false]
  refine ⟨117, ?_, by decide⟩
  simp [UstarHeader.toBlock, UstarHeader.back, hmagic]

/-- `ustar_parse_header` gives back what `ustar_make_header` was given. -/
theorem ustarParseHeader_regular {name : List UInt8} {size : Nat} (h : PlainName name)
    (hsize : size ≤ intMax) : ustarParseHeader (regularHeader name size).toBlock =
      .ok { fileName := name, type := .regular, size := size } := by
  have hle := h.le
  unfold nameMax at hle
  have hname : (regularHeader name size).name = (Chars.blank 100).strlcpy name := rfl
  have hmagic : (regularHeader name size).magic.val = ustarChars ++ [0] := rfl
  have hversion : (regularHeader name size).version.val = [48, 48] := rfl
  have hchksum : parseOctalField (regularHeader name size).chksum =
      some (regularHeader name size).calculateChksum := by
    have hlt := UstarHeader.calculateChksum_lt (fillHeader name .regular size)
    rw [regularHeader, calculateChksum_withChksum]
    exact parseOctalField_octal (by decide) hlt (by decide) (by unfold ulongMax; omega)
  have hlast : (regularHeader name size).name.val.getD 99 0 = 0 := by
    rw [hname, Chars.strlcpy_blank (by omega), List.getD_eq_getElem?_getD,
      List.getElem?_append_right (by omega), List.getElem?_replicate_of_lt (by omega)]
    rfl
  have htype : parseTypeSize (regularHeader name size) = .ok (.regular, size) := by
    have hfield : parseOctalField (regularHeader name size).size = some size := by
      unfold intMax at hsize
      exact parseOctalField_octal (by decide) (by omega) (by decide) (by unfold ulongMax; omega)
    have hflag : (regularHeader name size).typeflag = UstarType.regular.typeflag := rfl
    rw [parseTypeSize, if_neg (fun hne => hne.1 hflag), if_pos hflag, hfield]
    dsimp only
    rw [if_neg (Nat.not_lt.mpr hsize)]
  rw [ustarParseHeader, isAllZeros_header (by rw [hmagic]; decide), UstarHeader.ofBlock_toBlock]
  dsimp only
  rw [if_neg (by decide), if_neg (not_not.mpr hmagic), if_neg (not_not.mpr hversion),
    hchksum]
  dsimp only
  rw [if_neg (not_not.mpr rfl), if_neg, htype, hname, Chars.cstring_strlcpy (by omega) h.noNull]
  · rw [ok_bind, stripAntisocialPrefixes_plain h]
    rfl
  · rw [not_or]
    exact ⟨not_not.mpr hlast, not_not.mpr rfl⟩

end CSE130.Filesys
