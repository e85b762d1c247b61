import CSE130.Library.PageAlign
import CSE130.Userprog.Elf

/-!
# The pages of a segment

For a header that `validate_segment` accepts, nothing in `elf_load` and `load_segment` wraps around: the
byte counts are those of the segment, and the loop goes over the pages from `p_vaddr` rounded down to
`p_vaddr + p_memsz` rounded up.
-/

namespace CSE130.Userprog

open Library

@[simp] theorem toNat_pgsizeWord : pgsizeWord.toNat = 4096 := rfl

theorem toNat_and_pgmask (x : UInt32) : (x &&& pgmask).toNat = x.toNat % 4096 :=
  @toNat_and_mask x pgmask 12 rfl

theorem toNat_and_not_pgmask (x : UInt32) : (x &&& ~~~pgmask).toNat = x.toNat / 4096 * 4096 :=
  @toNat_and_not_mask x pgmask 12 (by decide) rfl

theorem toNat_roundUp {x : UInt32} (h : x.toNat + 4095 < 2 ^ 32) :
    (roundUp x pgsizeWord).toNat = (x.toNat + 4095) / 4096 * 4096 := by
  have hadd : (x + pgsizeWord - 1).toNat = x.toNat + 4095 := by
    rw [UInt32.toNat_sub, UInt32.toNat_add, toNat_pgsizeWord, UInt32.toNat_one]
    omega
  rw [roundUp, UInt32.toNat_mul, UInt32.toNat_div, hadd, toNat_pgsizeWord]
  omega

/-- What `validate_segment` checks, in numbers. -/
structure Accepted (phdr : Elf32Phdr) (file : ExecFile) : Prop where
  sameOffset : phdr.pOffset.toNat % 4096 = phdr.pVaddr.toNat % 4096
  inFile : phdr.pOffset.toNat ≤ file.bytes.length
  filesz_le : phdr.pFilesz.toNat ≤ phdr.pMemsz.toNat
  memsz_pos : 0 < phdr.pMemsz.toNat
  above : 4096 ≤ phdr.pVaddr.toNat
  below : phdr.pVaddr.toNat + phdr.pMemsz.toNat < physBase

theorem fileLength_toNat (file : ExecFile) : file.fileLength.toUInt32.toNat = file.bytes.length := by
  rw [ExecFile.fileLength, Int32.toUInt32_ofNat', UInt32.toNat_ofNat']
  exact Nat.mod_eq_of_lt (file.length_lt.trans (by decide))

theorem validateSegment_iff {phdr : Elf32Phdr} {file : ExecFile} :
    validateSegment phdr file = true ↔ Accepted phdr file := by
  have hsum : (phdr.pVaddr + phdr.pMemsz).toNat = phdr.pVaddr.toNat + phdr.pMemsz.toNat ∨
      (phdr.pVaddr + phdr.pMemsz).toNat < phdr.pVaddr.toNat ∧
        2 ^ 32 ≤ phdr.pVaddr.toNat + phdr.pMemsz.toNat := by
    have hvaddr := phdr.pVaddr.toNat_lt
    have hmemsz := phdr.pMemsz.toNat_lt
    rw [UInt32.toNat_add]
    omega
  have hoffset : phdr.pOffset &&& pgmask ≠ phdr.pVaddr &&& pgmask ↔
      phdr.pOffset.toNat % 4096 ≠ phdr.pVaddr.toNat % 4096 := by
    rw [ne_eq, ← UInt32.toNat_inj, toNat_and_pgmask, toNat_and_pgmask]
  have htop : (0xc0000000 : UInt32).toNat = physBase := rfl
  have hzero : phdr.pMemsz = 0 ↔ phdr.pMemsz.toNat = 0 := by
    rw [← UInt32.toNat_inj, UInt32.toNat_zero]
  have hbase : physBase = 3221225472 := rfl
  simp only [validateSegment, isUserVaddr, hoffset, hzero, UInt32.lt_iff_toNat_lt, fileLength_toNat,
    htop, toNat_pgsizeWord, decide_eq_true_eq]
  generalize (phdr.pVaddr + phdr.pMemsz).toNat = last at hsum
  constructor
  · intro h
    split_ifs at h
    constructor <;> omega
  · rintro ⟨h1, h2, h3, h4, h5, h6⟩
    rw [if_neg (by omega), if_neg (by omega), if_neg (by omega), if_neg (by omega), if_neg (by omega),
      if_neg (by omega), if_neg (by omega), if_neg (by omega)]

/-! ## What `elf_load` computes -/

/-- The bytes of the segment from the start of its first page on that are read from the file. -/
def readCount (phdr : Elf32Phdr) : Nat :=
  if phdr.pFilesz.toNat = 0 then 0 else phdr.pVaddr.toNat % 4096 + phdr.pFilesz.toNat

/-- The number of pages from `p_vaddr` rounded down to `p_vaddr + p_memsz` rounded up. -/
def pageCount (phdr : Elf32Phdr) : Nat :=
  (phdr.pVaddr.toNat + phdr.pMemsz.toNat + 4095) / 4096 - phdr.pVaddr.toNat / 4096

/-- The start of the page of a byte. -/
def pageStart (a : Nat) : Nat := a / 4096 * 4096

section Computed

variable {phdr : Elf32Phdr} {file : ExecFile}

theorem segmentOf_memPage (phdr : Elf32Phdr) :
    (segmentOf phdr).memPage.toNat = pageStart phdr.pVaddr.toNat := toNat_and_not_pgmask _

theorem segmentOf_filePage (phdr : Elf32Phdr) :
    (segmentOf phdr).filePage.toNat = pageStart phdr.pOffset.toNat := toNat_and_not_pgmask _

theorem Accepted.bounds (h : Accepted phdr file) :
    phdr.pVaddr.toNat % 4096 + phdr.pMemsz.toNat ≤ 4096 * pageCount phdr ∧
      4096 * pageCount phdr < phdr.pVaddr.toNat % 4096 + phdr.pMemsz.toNat + 4096 ∧
      pageStart phdr.pVaddr.toNat + 4096 * pageCount phdr ≤ physBase ∧
      readCount phdr ≤ phdr.pVaddr.toNat % 4096 + phdr.pMemsz.toNat := by
  obtain ⟨-, -, hfilesz, -, -, hbelow⟩ := h
  have hbase : physBase = 3221225472 := rfl
  unfold pageCount pageStart readCount
  refine ⟨by omega, by omega, by omega, ?_⟩
  split_ifs <;> omega

theorem Accepted.readBytes (h : Accepted phdr file) :
    (segmentOf phdr).readBytes.toNat = readCount phdr := by
  obtain ⟨hle, -, hend, -⟩ := h.bounds
  have hbase : physBase = 3221225472 := rfl
  have hfilesz := h.filesz_le
  have hpos : 0 < phdr.pFilesz ↔ ¬ phdr.pFilesz.toNat = 0 := by
    rw [UInt32.lt_iff_toNat_lt, UInt32.toNat_zero]
    omega
  simp only [segmentOf, readCount, hpos]
  by_cases hzero : phdr.pFilesz.toNat = 0
  · rw [if_neg (by omega), if_pos hzero, UInt32.toNat_zero]
  · rw [if_pos hzero, if_neg hzero, UInt32.toNat_add, toNat_and_pgmask]
    unfold pageStart at hend
    omega

/-- The zero bytes fill the last page; the subtraction does not go below zero. -/
theorem Accepted.zeroBytes (h : Accepted phdr file) :
    readCount phdr + (segmentOf phdr).zeroBytes.toNat = 4096 * pageCount phdr := by
  obtain ⟨hle, hround, hend, hread⟩ := h.bounds
  have hbase : physBase = 3221225472 := rfl
  have hfilesz := h.filesz_le
  have hbytes := h.readBytes
  have hsum : ((phdr.pVaddr &&& pgmask) + phdr.pMemsz).toNat =
      phdr.pVaddr.toNat % 4096 + phdr.pMemsz.toNat := by
    rw [UInt32.toNat_add, toNat_and_pgmask]
    unfold pageStart at hend
    omega
  have hup : (roundUp ((phdr.pVaddr &&& pgmask) + phdr.pMemsz) pgsizeWord).toNat =
      4096 * pageCount phdr := by
    rw [toNat_roundUp (by rw [hsum]; omega), hsum]
    omega
  by_cases hzero : 0 < phdr.pFilesz
  · have hsub : (segmentOf phdr).zeroBytes =
        roundUp ((phdr.pVaddr &&& pgmask) + phdr.pMemsz) pgsizeWord - (segmentOf phdr).readBytes := by
      simp only [segmentOf, if_pos hzero]
    rw [hsub, UInt32.toNat_sub_of_le _ _ (by rw [UInt32.le_iff_toNat_le, hup, hbytes]; omega), hup,
      hbytes]
    omega
  · have hnone : (segmentOf phdr).zeroBytes =
        roundUp ((phdr.pVaddr &&& pgmask) + phdr.pMemsz) pgsizeWord := by
      simp only [segmentOf, if_neg hzero]
    have hread0 : readCount phdr = 0 := by
      rw [readCount, if_pos]
      rw [UInt32.lt_iff_toNat_lt, UInt32.toNat_zero] at hzero
      omega
    rw [hnone, hup, hread0, Nat.zero_add]

end Computed

/-! ## The loop -/

/-- What the loop does for one page after the other. -/
def runPages {σ : Type} (fill : σ → PageFill → Except LoadFault (Option σ)) :
    List PageFill → σ → Except LoadFault (Option σ)
  | [], s => .ok (some s)
  | p :: ps, s =>
    match fill s p with
    | .error fault => .error fault
    | .ok none => .ok none
    | .ok (some s) => runPages fill ps s

/-- Page `i` of a segment from address `u` on of which `r` bytes are read. -/
def pageAt (u r i : Nat) : PageFill where
  upage := UInt32.ofNat (u + 4096 * i)
  readBytes := UInt32.ofNat (min (r - 4096 * i) 4096)
  zeroBytes := UInt32.ofNat (4096 - min (r - 4096 * i) 4096)

/-- The pages of a segment. -/
def pagesFrom (u r n : Nat) : List PageFill := (List.range n).map (pageAt u r)

theorem pageAt_succ (u r i : Nat) : pageAt u r (i + 1) = pageAt (u + 4096) (r - 4096) i := by
  have hu : u + 4096 * (i + 1) = u + 4096 + 4096 * i := by omega
  have hr : r - 4096 * (i + 1) = r - 4096 - 4096 * i := by omega
  rw [pageAt, pageAt, hu, hr]

theorem pagesFrom_succ (u r n : Nat) :
    pagesFrom u r (n + 1) = pageAt u r 0 :: pagesFrom (u + 4096) (r - 4096) n := by
  have hshift : pageAt u r ∘ Nat.succ = pageAt (u + 4096) (r - 4096) := by
    funext i
    exact pageAt_succ u r i
  rw [pagesFrom, List.range_succ_eq_map, List.map_cons, List.map_map, hshift, pagesFrom]

/-- The loop makes one round for each page. -/
theorem loadLoop_eq {σ : Type} (fill : σ → PageFill → Except LoadFault (Option σ))
    {rounds u r n : Nat} {upage readBytes zeroBytes : UInt32} (s : σ) (hrounds : n < rounds)
    (hu : upage = UInt32.ofNat u) (hr : readBytes.toNat = r) (hn : r + zeroBytes.toNat = 4096 * n) :
    loadLoop fill rounds upage readBytes zeroBytes s = runPages fill (pagesFrom u r n) s := by
  induction n generalizing rounds u r upage readBytes zeroBytes s with
  | zero =>
    obtain ⟨rounds, rfl⟩ := Nat.exists_eq_succ_of_ne_zero (Nat.ne_of_gt hrounds)
    rw [loadLoop, if_neg]
    · rfl
    · rw [UInt32.lt_iff_toNat_lt, UInt32.lt_iff_toNat_lt, UInt32.toNat_zero]
      omega
  | succ n ih =>
    obtain ⟨rounds, rfl⟩ := Nat.exists_eq_succ_of_ne_zero (Nat.ne_of_gt (Nat.zero_lt_of_lt hrounds))
    have hread : (if readBytes < pgsizeWord then readBytes else pgsizeWord) =
        UInt32.ofNat (min r 4096) := by
      rw [← UInt32.toNat_inj, UInt32.toNat_ofNat']
      split_ifs with hlt
      · rw [UInt32.lt_iff_toNat_lt, toNat_pgsizeWord] at hlt
        omega
      · rw [UInt32.lt_iff_toNat_lt, toNat_pgsizeWord] at hlt
        rw [toNat_pgsizeWord]
        omega
    have hmin : (UInt32.ofNat (min r 4096)).toNat = min r 4096 := by
      rw [UInt32.toNat_ofNat']
      omega
    have hzero : pgsizeWord - UInt32.ofNat (min r 4096) = UInt32.ofNat (4096 - min r 4096) := by
      rw [← UInt32.toNat_inj, UInt32.toNat_sub_of_le _ _ (by
        rw [UInt32.le_iff_toNat_le, hmin, toNat_pgsizeWord]; omega), hmin, toNat_pgsizeWord,
        UInt32.toNat_ofNat']
      omega
    have hrest : (UInt32.ofNat (4096 - min r 4096)).toNat = 4096 - min r 4096 := by
      rw [UInt32.toNat_ofNat']
      omega
    rw [loadLoop, if_pos]
    · simp only [hread, hzero]
      rw [pagesFrom_succ, runPages, pageAt, hu]
      cases fill s _ with
      | error fault => rfl
      | ok next =>
        cases next with
        | none => rfl
        | some s' =>
          apply ih s' (by omega)
          · rw [UInt32.ofNat_add]
            rfl
          · rw [UInt32.toNat_sub_of_le _ _ (by rw [UInt32.le_iff_toNat_le, hmin]; omega), hmin, hr]
            omega
          · rw [UInt32.toNat_sub_of_le _ _ (by rw [UInt32.le_iff_toNat_le, hrest]; omega), hrest]
            omega
    · rw [UInt32.lt_iff_toNat_lt, UInt32.lt_iff_toNat_lt, UInt32.toNat_zero]
      omega

end CSE130.Userprog
