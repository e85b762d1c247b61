import CSE130.Userprog.SegmentImage

/-!
# Segments in user space

What holds of a segment whose header `validate_segment` accepts. The check that `p_offset` is in the file
says nothing about `p_offset + p_filesz`: when the file ends before the segment, `load_segment` reads too few
bytes for some page and returns `false`.
-/

namespace CSE130.Userprog

open Library

/-- Page `i` of a segment. -/
def segmentPage (phdr : Elf32Phdr) (i : Nat) : UInt32 :=
  UInt32.ofNat (pageStart phdr.pVaddr.toNat + 4096 * i)

/-- The pages of a segment as the loop goes over them. -/
def segmentPages (phdr : Elf32Phdr) : List PageFill :=
  pagesFrom (pageStart phdr.pVaddr.toNat) (readCount phdr) (pageCount phdr)

/-- A segment stays in user space: the byte counts do not wrap around, the assertions on entry hold, the loop
goes over the pages from `p_vaddr` rounded down to `p_vaddr + p_memsz` rounded up, which are user pages
above the first, and after it has succeeded these pages, and no others, have been entered and the process reads
the bytes of the segment from them. It succeeds when the file has these bytes and there is memory for the
pages. -/
structure SegmentLoads (file : ExecFile) (phdr : Elf32Phdr) : Prop where
  readBytes : (segmentOf phdr).readBytes.toNat = readCount phdr
  zeroBytes : readCount phdr + (segmentOf phdr).zeroBytes.toNat = 4096 * pageCount phdr
  byteCounts : ((segmentOf phdr).readBytes + (segmentOf phdr).zeroBytes) % pgsizeWord = 0
  upageAligned : (segmentOf phdr).memPage &&& pgmask = 0
  offsetAligned : (segmentOf phdr).filePage.toInt32 % 4096 = 0
  rounds : ∀ (env : Allocation) (rounds : Nat) (s : LoadState), pageCount phdr < rounds →
    loadLoop (loadPage env file (segmentOf phdr).writable) rounds (segmentOf phdr).memPage
      (segmentOf phdr).readBytes (segmentOf phdr).zeroBytes s =
        runPages (loadPage env file (segmentOf phdr).writable) (segmentPages phdr) s
  terminates : ∀ (env : Allocation) (rounds : Nat) (space : AddressSpace), pageCount phdr < rounds →
    loadHeader env rounds file phdr space ≠ .error .outOfRounds
  roundedUp : pageStart phdr.pVaddr.toNat + 4096 * pageCount phdr =
    pageStart (phdr.pVaddr.toNat + phdr.pMemsz.toNat + 4095)
  userPages : ∀ i < pageCount phdr, (segmentPage phdr i).toNat = pageStart phdr.pVaddr.toNat + 4096 * i ∧
    pgsize ≤ (segmentPage phdr i).toNat ∧ (segmentPage phdr i).toNat + pgsize ≤ physBase
  covers : ∀ (env : Allocation) (rounds : Nat) (space space' : AddressSpace), pageCount phdr < rounds →
    loadHeader env rounds file phdr space = .ok (some space') →
      (∀ i < pageCount phdr, space.pagedir (segmentPage phdr i) = none ∧
        (space'.pagedir (segmentPage phdr i)).isSome) ∧
      ∀ a : UInt32, (∀ i < pageCount phdr, a ≠ segmentPage phdr i) →
        space'.pagedir a = space.pagedir a
  image : ∀ (env : Allocation) (rounds : Nat) (space space' : AddressSpace), pageCount phdr < rounds →
    loadHeader env rounds file phdr space = .ok (some space') → ∀ k < phdr.pMemsz.toNat,
      ∃ b, readByte space' (UInt32.ofNat (phdr.pVaddr.toNat + k)) = some b ∧
        (k < phdr.pFilesz.toNat → file.bytes[phdr.pOffset.toNat + k]? = some b) ∧
        (phdr.pFilesz.toNat ≤ k → b = 0)

  succeeds : ∀ (env : Allocation) (rounds : Nat) (space : AddressSpace), pageCount phdr < rounds →
    phdr.pOffset.toNat + phdr.pFilesz.toNat ≤ file.bytes.length →
    (∀ i < pageCount phdr, env.frame (segmentPage phdr i) = true ∧ env.table (segmentPage phdr i) = true ∧
      space.pagedir (segmentPage phdr i) = none) →
    ∃ space', loadHeader env rounds file phdr space = .ok (some space')

section Runs

variable {env : Allocation} {rounds : Nat} {file : ExecFile} {phdr : Elf32Phdr}
  {space space' : AddressSpace}

/-! ## Entry -/

theorem Accepted.offset (h : Accepted phdr file) :
    (segmentOf phdr).filePage.toInt32.toInt = (pageStart phdr.pOffset.toNat : Nat) := by
  have hlt := file.length_lt
  have hin := h.inFile
  have hofs : (segmentOf phdr).filePage.toInt32 = Int32.ofNat (pageStart phdr.pOffset.toNat) := by
    rw [← segmentOf_filePage, ← UInt32.toInt32_ofNat', UInt32.ofNat_toNat]
  rw [hofs, Int32.toInt_ofNat_of_lt]
  unfold pageStart
  omega

theorem Accepted.byteCounts (h : Accepted phdr file) :
    ((segmentOf phdr).readBytes + (segmentOf phdr).zeroBytes) % pgsizeWord = 0 := by
  have hsum := h.zeroBytes
  obtain ⟨-, -, hend, -⟩ := h.bounds
  have hbase : physBase = 3221225472 := rfl
  rw [← UInt32.toNat_inj, UInt32.toNat_mod, UInt32.toNat_add, h.readBytes, toNat_pgsizeWord,
    UInt32.toNat_zero]
  omega

theorem segmentOf_upageAligned (phdr : Elf32Phdr) : (segmentOf phdr).memPage &&& pgmask = 0 := by
  rw [← UInt32.toNat_inj, toNat_and_pgmask, segmentOf_memPage, UInt32.toNat_zero]
  exact Nat.mul_mod_left _ _

theorem Accepted.offsetAligned (h : Accepted phdr file) :
    (segmentOf phdr).filePage.toInt32 % 4096 = 0 := by
  have hmod : ((pageStart phdr.pOffset.toNat : Nat) : Int).tmod (4096 : Nat) = 0 := by
    rw [← Int.ofNat_tmod, pageStart, Nat.mul_mod_left]
    rfl
  rw [← Int32.toInt_inj, Int32.toInt_mod, h.offset]
  exact hmod

theorem Accepted.loop (h : Accepted phdr file) {σ : Type}
    (fill : σ → PageFill → Except LoadFault (Option σ)) (s : σ) (hrounds : pageCount phdr < rounds) :
    loadLoop fill rounds (segmentOf phdr).memPage (segmentOf phdr).readBytes (segmentOf phdr).zeroBytes
      s = runPages fill (segmentPages phdr) s := by
  apply loadLoop_eq fill s hrounds
  · rw [← segmentOf_memPage, UInt32.ofNat_toNat]
  · exact h.readBytes
  · exact h.zeroBytes

/-- The loading of an accepted segment is one pass over its pages. -/
theorem Accepted.loadHeader_eq (h : Accepted phdr file) (hrounds : pageCount phdr < rounds) :
    loadHeader env rounds file phdr space = (do
      let s ← runPages (loadPage env file (segmentOf phdr).writable) (segmentPages phdr)
        ⟨(segmentOf phdr).filePage.toInt32, space⟩
      pure (s.map (·.space))) := by
  have hpos : ¬ (segmentOf phdr).filePage.toInt32 < 0 := by
    rw [Int32.lt_iff_toInt_lt, h.offset]
    simp
  rw [loadHeader, if_pos (validateSegment_iff.mpr h), loadSegment, if_neg (not_not.mpr h.byteCounts),
    if_neg (not_not.mpr (segmentOf_upageAligned phdr)), if_neg (not_not.mpr h.offsetAligned),
    if_neg hpos, h.loop _ _ hrounds]

theorem Accepted.loadHeader_some (h : Accepted phdr file) (hrounds : pageCount phdr < rounds)
    (hload : loadHeader env rounds file phdr space = .ok (some space')) :
    ∃ s', runPages (loadPage env file (segmentOf phdr).writable) (segmentPages phdr)
      ⟨(segmentOf phdr).filePage.toInt32, space⟩ = .ok (some s') ∧ s'.space = space' := by
  rw [h.loadHeader_eq hrounds] at hload
  cases hrun : runPages (loadPage env file (segmentOf phdr).writable) (segmentPages phdr)
      ⟨(segmentOf phdr).filePage.toInt32, space⟩ with
  | error fault => simp [hrun, bind, Except.bind] at hload
  | ok next =>
    cases next with
    | none => simp [hrun, bind, Except.bind, pure, Except.pure] at hload
    | some s' =>
      refine ⟨s', rfl, ?_⟩
      simpa [hrun, bind, Except.bind, pure, Except.pure] using hload

theorem loadPage_inRounds (s : LoadState) (p : PageFill) (writable : Bool) :
    loadPage env file writable s p ≠ .error .outOfRounds := by
  unfold loadPage
  dsimp only
  split_ifs <;> simp

theorem runPages_inRounds {fill : LoadState → PageFill → Except LoadFault (Option LoadState)}
    (hfill : ∀ s p, fill s p ≠ .error .outOfRounds) (ps : List PageFill) (s : LoadState) :
    runPages fill ps s ≠ .error .outOfRounds := by
  induction ps generalizing s with
  | nil => simp [runPages]
  | cons p ps ih =>
    have hp := hfill s p
    rw [runPages]
    cases hfirst : fill s p with
    | error fault =>
      rw [hfirst] at hp
      simpa using hp
    | ok next =>
      cases next with
      | none => simp
      | some s' => exact ih s'

theorem Accepted.terminates (h : Accepted phdr file) (hrounds : pageCount phdr < rounds) :
    loadHeader env rounds file phdr space ≠ .error .outOfRounds := by
  have hrun := runPages_inRounds
    (fun s p => @loadPage_inRounds env file s p (segmentOf phdr).writable) (segmentPages phdr)
    ⟨(segmentOf phdr).filePage.toInt32, space⟩
  rw [h.loadHeader_eq hrounds]
  cases hload : runPages (loadPage env file (segmentOf phdr).writable) (segmentPages phdr)
      ⟨(segmentOf phdr).filePage.toInt32, space⟩ with
  | error fault =>
    rw [hload] at hrun
    simpa [bind, Except.bind] using hrun
  | ok next => simp [bind, Except.bind, pure, Except.pure]

/-! ## Pages -/

theorem pageStart_add_pageCount (phdr : Elf32Phdr) :
    pageStart phdr.pVaddr.toNat + 4096 * pageCount phdr =
      pageStart (phdr.pVaddr.toNat + phdr.pMemsz.toNat + 4095) := by
  unfold pageStart pageCount
  omega

theorem Accepted.userPages (h : Accepted phdr file) {i : Nat} (hi : i < pageCount phdr) :
    (segmentPage phdr i).toNat = pageStart phdr.pVaddr.toNat + 4096 * i ∧
      pgsize ≤ (segmentPage phdr i).toNat ∧ (segmentPage phdr i).toNat + pgsize ≤ physBase := by
  obtain ⟨-, -, hend, -⟩ := h.bounds
  have habove := h.above
  have hbase : physBase = 3221225472 := rfl
  have hsize : pgsize = 4096 := rfl
  have hpage : (segmentPage phdr i).toNat = pageStart phdr.pVaddr.toNat + 4096 * i := by
    rw [segmentPage, UInt32.toNat_ofNat']
    omega
  rw [hpage]
  refine ⟨rfl, ?_, by omega⟩
  unfold pageStart
  omega

theorem Accepted.covers (h : Accepted phdr file) (hrounds : pageCount phdr < rounds)
    (hload : loadHeader env rounds file phdr space = .ok (some space')) :
    (∀ i < pageCount phdr, space.pagedir (segmentPage phdr i) = none ∧
      (space'.pagedir (segmentPage phdr i)).isSome) ∧
    ∀ a : UInt32, (∀ i < pageCount phdr, a ≠ segmentPage phdr i) →
      space'.pagedir a = space.pagedir a := by
  obtain ⟨s', hrun, rfl⟩ := h.loadHeader_some hrounds hload
  obtain ⟨-, -, hend, -⟩ := h.bounds
  have hbase : physBase = 3221225472 := rfl
  exact runPages_covers (by omega) hrun

/-! ## Bytes -/

/-- The address of a byte of the segment, by its page. -/
theorem Accepted.address (h : Accepted phdr file) {k : Nat} (hk : k < phdr.pMemsz.toNat) :
    (phdr.pVaddr.toNat % 4096 + k) / 4096 < pageCount phdr ∧
      UInt32.ofNat (phdr.pVaddr.toNat + k) &&& ~~~pgmask =
        segmentPage phdr ((phdr.pVaddr.toNat % 4096 + k) / 4096) ∧
      (UInt32.ofNat (phdr.pVaddr.toNat + k) &&& pgmask).toNat =
        (phdr.pVaddr.toNat % 4096 + k) % 4096 := by
  obtain ⟨hle, -, -, -⟩ := h.bounds
  have hbelow := h.below
  have hbase : physBase = 3221225472 := rfl
  have hi : (phdr.pVaddr.toNat % 4096 + k) / 4096 < pageCount phdr := by omega
  have haddr : (UInt32.ofNat (phdr.pVaddr.toNat + k)).toNat = phdr.pVaddr.toNat + k := by
    rw [UInt32.toNat_ofNat']
    omega
  refine ⟨hi, ?_, ?_⟩
  · rw [← UInt32.toNat_inj, toNat_and_not_pgmask, haddr, (h.userPages hi).1, pageStart]
    omega
  · rw [toNat_and_pgmask, haddr]
    omega

/-- The bytes of the pages are those of the segment. -/
theorem Accepted.segmentByte (h : Accepted phdr file) {k : Nat} {b : UInt8}
    (hb : SegmentByte file (pageStart phdr.pOffset.toNat) (readCount phdr)
      (phdr.pVaddr.toNat % 4096 + k) b) :
    (k < phdr.pFilesz.toNat → file.bytes[phdr.pOffset.toNat + k]? = some b) ∧
      (phdr.pFilesz.toNat ≤ k → b = 0) := by
  obtain ⟨hread, hzero⟩ := hb
  have hsame := h.sameOffset
  constructor
  · intro hk
    have hindex : pageStart phdr.pOffset.toNat + (phdr.pVaddr.toNat % 4096 + k) =
        phdr.pOffset.toNat + k := by
      unfold pageStart
      omega
    rw [← hindex]
    apply hread
    rw [readCount, if_neg (by omega)]
    omega
  · intro hk
    apply hzero
    unfold readCount
    split_ifs <;> omega

theorem Accepted.image (h : Accepted phdr file) (hrounds : pageCount phdr < rounds)
    (hload : loadHeader env rounds file phdr space = .ok (some space')) {k : Nat}
    (hk : k < phdr.pMemsz.toNat) :
    ∃ b, readByte space' (UInt32.ofNat (phdr.pVaddr.toNat + k)) = some b ∧
      (k < phdr.pFilesz.toNat → file.bytes[phdr.pOffset.toNat + k]? = some b) ∧
      (phdr.pFilesz.toNat ≤ k → b = 0) := by
  obtain ⟨s', hrun, rfl⟩ := h.loadHeader_some hrounds hload
  obtain ⟨-, -, hend, -⟩ := h.bounds
  have hbase : physBase = 3221225472 := rfl
  obtain ⟨hi, hpage, hofs⟩ := h.address hk
  obtain ⟨page, hdir, hbytes⟩ := loadPages_bytes (by omega) (Or.inr h.offset) hrun _ hi
  obtain ⟨b, hb, hbyte⟩ := hbytes ((phdr.pVaddr.toNat % 4096 + k) % 4096) (Nat.mod_lt _ (by omega))
  refine ⟨b, ?_, ?_⟩
  · have hmapped : s'.space.pagedir (segmentPage phdr ((phdr.pVaddr.toNat % 4096 + k) / 4096)) =
        some page := hdir
    simpa only [readByte, hpage, hofs, hmapped, Option.bind_some] using hb
  · rw [Nat.div_add_mod] at hbyte
    exact h.segmentByte hbyte

theorem Accepted.succeeds (h : Accepted phdr file) (hrounds : pageCount phdr < rounds)
    (hfile : phdr.pOffset.toNat + phdr.pFilesz.toNat ≤ file.bytes.length)
    (hmem : ∀ i < pageCount phdr, env.frame (segmentPage phdr i) = true ∧
      env.table (segmentPage phdr i) = true ∧ space.pagedir (segmentPage phdr i) = none) :
    ∃ space', loadHeader env rounds file phdr space = .ok (some space') := by
  obtain ⟨-, -, hend, -⟩ := h.bounds
  have hread : readCount phdr = 0 ∨
      pageStart phdr.pOffset.toNat + readCount phdr ≤ file.bytes.length := by
    have hsame := h.sameOffset
    unfold readCount pageStart
    split_ifs
    · exact Or.inl rfl
    · right
      omega
  obtain ⟨s', hrun⟩ := @runPages_loads file env (segmentOf phdr).writable
    ⟨(segmentOf phdr).filePage.toInt32, space⟩ _ _ _ _ hend (Or.inr h.offset) hread
    (fun i hi => ⟨(hmem i hi).1, (hmem i hi).2.1⟩) (fun i hi => (hmem i hi).2.2)
  refine ⟨s'.space, ?_⟩
  rw [h.loadHeader_eq hrounds, segmentPages, hrun]
  rfl

end Runs

/-- Every segment that `validate_segment` accepts stays in user space. -/
theorem segmentLoads (file : ExecFile) (phdr : Elf32Phdr) (hvalid : validateSegment phdr file = true) :
    SegmentLoads file phdr := by
  have h := validateSegment_iff.mp hvalid
  exact
    { readBytes := h.readBytes
      zeroBytes := h.zeroBytes
      byteCounts := h.byteCounts
      upageAligned := segmentOf_upageAligned phdr
      offsetAligned := h.offsetAligned
      rounds := fun env rounds s hrounds => h.loop _ s hrounds
      terminates := fun env rounds space hrounds => h.terminates hrounds
      roundedUp := pageStart_add_pageCount phdr
      userPages := fun i hi => h.userPages hi
      covers := fun env rounds space space' hrounds hload => h.covers hrounds hload
      image := fun env rounds space space' hrounds hload k hk => h.image hrounds hload hk
      succeeds := fun env rounds space hrounds hfile hmem => h.succeeds hrounds hfile hmem }

/-- A file of 84 bytes. -/
def shortFile : ExecFile := ⟨List.replicate 84 0, by decide⟩

/-- A segment with the whole file in its first page, and a page of zeros. -/
def textHeader : Elf32Phdr where
  pType := 1
  pOffset := 0
  pVaddr := 0x8048000
  pPaddr := 0
  pFilesz := 84
  pMemsz := 8192
  pFlags := 5
  pAlign := 4096

theorem segmentLoads_textHeader : SegmentLoads shortFile textHeader :=
  segmentLoads shortFile textHeader (by decide)

end CSE130.Userprog
