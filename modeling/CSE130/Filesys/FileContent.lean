import CSE130.Filesys.FileData

/-!
# Files are arrays of bytes

The content of a file is that of its data sectors, one after the other, up to its length. Looking up
a byte follows the index to the data sector that holds it, reading returns a part of the content, and
the loop of `inode_write_at` overwrites a part of it.
-/

namespace CSE130.Filesys

open CSE130.Library

namespace InodeDisk

/-- The number of data sectors of a file. -/
def numSectors (d : InodeDisk) : Nat := (d.length.toInt.toNat + 511) / 512

/-- The blocks of the index and of the data of a file. -/
abbrev nodes (disk : Sector → Block) (d : InodeDisk) : List Sector := indexFormat.nodes disk d.roots

/-- The data sectors of a file, in order; `0` where there is none. -/
abbrev leaves (disk : Sector → Block) (d : InodeDisk) : List Sector := indexFormat.leaves disk d.roots

/-- The index of a file: its sectors are different ones of the device, and they are those that the
length of the file needs. -/
structure Sound (d : InodeDisk) (disk : Sector → Block) (size : Sector) : Prop where
  proper : d.Proper
  nodup : (d.nodes disk).Nodup
  inRange : ∀ x ∈ d.nodes disk, x < size
  filled : indexFormat.Filled disk d.roots d.numSectors
  nonneg : 0 ≤ d.length.toInt
  fits : d.numSectors ≤ maxSectors

/-- The index of a file whose sectors are different ones of the device, with a data sector for every
byte of the file and maybe more. -/
structure Covered (d : InodeDisk) (disk : Sector → Block) (size : Sector) : Prop where
  proper : d.Proper
  nodup : (d.nodes disk).Nodup
  inRange : ∀ x ∈ d.nodes disk, x < size
  covered : ∀ i a, (d.leaves disk)[i]? = some a → i < d.numSectors → a ≠ 0
  nonneg : 0 ≤ d.length.toInt
  fits : d.numSectors ≤ maxSectors

theorem Sound.covered {d : InodeDisk} {disk : Sector → Block} {size : Sector}
    (h : d.Sound disk size) : d.Covered disk size where
  proper := h.proper
  nodup := h.nodup
  inRange := h.inRange
  covered := fun _ _ hi => (TreeFormat.leaf_ne_zero_iff h.filled hi).mpr
  nonneg := h.nonneg
  fits := h.fits

end InodeDisk

/-- The bytes of a data sector; a missing one stands for zeros. -/
def sectorBytes (disk : Sector → Block) (a : Sector) : List UInt8 :=
  if a = 0 then zeros.val else (disk a).val

namespace InodeDisk

/-- The bytes of all data sectors that a file may have. -/
def flat (disk : Sector → Block) (d : InodeDisk) : List UInt8 :=
  (d.leaves disk).flatMap (sectorBytes disk)

/-- The bytes of a file. -/
def contents (disk : Sector → Block) (d : InodeDisk) : List UInt8 :=
  (d.flat disk).take d.length.toInt.toNat

end InodeDisk

variable {s : Store} {d : InodeDisk} {disk disk' : Sector → Block} {a : Sector} {i : Nat}

open InodeDisk

/-! ## Looking up a sector -/

theorem leaves_roots : d.leaves disk = d.directBlocks ++ indexFormat.leaves disk [(1, d.indirectBlock)] ++
    indexFormat.leaves disk [(2, d.doublyIndirectBlock)] := by
  rw [InodeDisk.leaves, roots, TreeFormat.leaves_append, TreeFormat.leaves_append,
    TreeFormat.leaves_level_zero]

theorem leaves_indirect {e : Sector} : indexFormat.leaves disk [(1, e)] = indexFormat.children disk e := by
  rw [TreeFormat.leaves_node, TreeFormat.below, TreeFormat.leaves_level_zero]

theorem getElem?_leaves_doublyIndirect {e : Sector} :
    (indexFormat.leaves disk [(2, e)])[i]? =
      (indexFormat.children disk e)[i / indirectBlocksPerSector]?.bind fun c =>
        (indexFormat.children disk c)[i % indirectBlocksPerSector]? := by
  have hmod : i % indirectBlocksPerSector < indexFormat.fanOut ^ 1 := Nat.mod_lt i (by decide)
  have h := @TreeFormat.getElem?_leaves_node _ _ _ _ indexFormat disk 1 e (i / indirectBlocksPerSector)
    (i % indirectBlocksPerSector) hmod
  have hpos : indexFormat.fanOut ^ 1 * (i / indirectBlocksPerSector) + i % indirectBlocksPerSector = i :=
    Nat.div_add_mod i indirectBlocksPerSector
  rw [hpos] at h
  simpa only [leaves_indirect] using h

/-- A block that has an address below it is there. -/
theorem children_ne_zero {e c : Sector} (h : (indexFormat.children disk e)[i]? = some c) (hc : c ≠ 0) :
    e ≠ 0 ∧ (blocks (disk e)).getD i 0 = c := by
  have he : e ≠ 0 := by
    intro hzero
    subst hzero
    rw [TreeFormat.children_zero, List.getElem?_replicate] at h
    split_ifs at h
    exact hc (Option.some.inj h).symm
  rw [TreeFormat.children_of_ne he] at h
  exact ⟨he, by rw [List.getD_eq_getElem?_getD, show (blocks (disk e))[i]? = some c from h]; rfl⟩

theorem mem_nodes_top {k : Nat} {e : Sector} (hr : (k, e) ∈ d.roots) (he : e ≠ 0) :
    e ∈ d.nodes disk := by
  rw [InodeDisk.nodes, TreeFormat.nodes, TreeFormat.gatherAll, List.mem_flatMap]
  refine ⟨_, hr, ?_⟩
  cases k with
  | zero => simp [TreeFormat.gather, TreeFormat.nodeOf, he]
  | succ k => simp [TreeFormat.gather, TreeFormat.nodeOf, he]

theorem mem_nodes_below {e c : Sector} (hr : (2, e) ∈ d.roots) (hc : c ≠ 0)
    (hchild : c ∈ indexFormat.children disk e) : c ∈ d.nodes disk := by
  rw [InodeDisk.nodes, TreeFormat.nodes, TreeFormat.gatherAll, List.mem_flatMap]
  refine ⟨_, hr, ?_⟩
  rw [TreeFormat.gather, List.mem_append, List.mem_flatMap]
  exact .inr ⟨c, hchild, by simp [TreeFormat.gather, TreeFormat.nodeOf, hc]⟩

/-- The look-up finds the data sectors of the file. -/
theorem indexToSector_spec (hproper : d.Proper) (hrange : ∀ x ∈ d.nodes s.disk, x < s.size)
    (hi : (d.leaves s.disk)[i]? = some a) (ha : a ≠ 0) : indexToSector d i s = .ok a s := by
  have hdirect : d.directBlocks.length = 123 := hproper
  have hind : (1, d.indirectBlock) ∈ d.roots := by simp [roots]
  have hdbl : (2, d.doublyIndirectBlock) ∈ d.roots := by simp [roots]
  have hindlen : (indexFormat.leaves s.disk [(1, d.indirectBlock)]).length = 128 :=
    TreeFormat.length_leaves
  have hlen : (d.leaves s.disk).length = maxSectors :=
    TreeFormat.length_leaves.trans (capacity_roots hproper)
  have hmax : i < maxSectors := hlen ▸ (List.getElem?_eq_some_iff.mp hi).1
  rw [leaves_roots, List.append_assoc, List.getElem?_append, hdirect] at hi
  unfold indexToSector
  split_ifs at hi with hlt
  · rw [if_pos hlt, List.getD_eq_getElem?_getD, hi]
    rfl
  rw [if_neg hlt]
  rw [List.getElem?_append, hindlen] at hi
  split_ifs at hi with hlt'
  · have hpos : i < directBlocksCount + indirectBlocksPerSector := by
      unfold directBlocksCount indirectBlocksPerSector
      omega
    rw [leaves_indirect] at hi
    obtain ⟨he, hget⟩ := children_ne_zero hi ha
    rw [if_pos hpos, bind_of_ok (bufferCacheRead_of_lt (hrange _ (mem_nodes_top hind he)))]
    rw [directBlocksCount, hget]
    rfl
  · have hpos : ¬ i < directBlocksCount + indirectBlocksPerSector := by
      unfold directBlocksCount indirectBlocksPerSector
      omega
    rw [getElem?_leaves_doublyIndirect, Nat.sub_sub] at hi
    obtain ⟨c, hfirst, hsecond⟩ := Option.bind_eq_some_iff.mp hi
    obtain ⟨hc, hget⟩ := children_ne_zero hsecond ha
    obtain ⟨he, hgetc⟩ := children_ne_zero hfirst hc
    have hcnode : c ∈ d.nodes s.disk := mem_nodes_below hdbl hc (List.mem_of_getElem? hfirst)
    rw [if_neg hpos, if_pos hmax,
      bind_of_ok (bufferCacheRead_of_lt (hrange _ (mem_nodes_top hdbl he)))]
    rw [directBlocksCount, hgetc, bind_of_ok (bufferCacheRead_of_lt (hrange _ hcnode)), hget]
    rfl

theorem length_leaves (h : d.Proper) : (d.leaves disk).length = maxSectors :=
  TreeFormat.length_leaves.trans (capacity_roots h)

/-- The sector of a byte of the file. -/
theorem InodeDisk.Covered.byteToSector (h : d.Covered s.disk s.size) {p : Nat}
    (hp : (p : Int) < d.length.toInt) :
    ∃ a, (d.leaves s.disk)[p / 512]? = some a ∧ a ≠ 0 ∧ byteToSector d p s = .ok a s := by
  have hnum : p / 512 < d.numSectors := by
    unfold numSectors
    omega
  have hlt : p / 512 < (d.leaves s.disk).length := by
    rw [length_leaves h.proper]
    exact Nat.lt_of_lt_of_le hnum h.fits
  have hget : (d.leaves s.disk)[p / 512]? = some (d.leaves s.disk)[p / 512] :=
    List.getElem?_eq_getElem hlt
  have hne : (d.leaves s.disk)[p / 512] ≠ 0 := h.covered _ _ hget hnum
  refine ⟨_, hget, hne, ?_⟩
  have hindex : ((p : Int) / 512).toNat = p / 512 := by omega
  rw [Filesys.byteToSector, if_pos ⟨by omega, hp⟩, hindex]
  exact indexToSector_spec h.proper h.inRange hget hne

theorem byteToSector_spec (h : d.Sound s.disk s.size) {p : Nat} (hp : (p : Int) < d.length.toInt) :
    ∃ a, (d.leaves s.disk)[p / 512]? = some a ∧ a ≠ 0 ∧ byteToSector d p s = .ok a s :=
  h.covered.byteToSector hp

theorem leaf_mem_nodes (hi : (d.leaves disk)[i]? = some a) (ha : a ≠ 0) : a ∈ d.nodes disk :=
  TreeFormat.mem_nodes_iff.mpr (.inr ⟨List.mem_of_getElem? hi, ha⟩)

theorem leaf_not_mem_inner (h : (d.nodes disk).Nodup) (hi : (d.leaves disk)[i]? = some a)
    (ha : a ≠ 0) : a ∉ indexFormat.inner disk d.roots := by
  rw [TreeFormat.nodes_perm.nodup_iff, List.nodup_append] at h
  intro hmem
  apply h.2.2 a hmem a _ rfl
  rw [List.mem_filter]
  exact ⟨List.mem_of_getElem? hi, by simpa using ha⟩

/-- Writing a data sector leaves the index as it is. -/
theorem index_update (h : (d.nodes disk).Nodup) (hi : (d.leaves disk)[i]? = some a) (ha : a ≠ 0)
    (b : Block) : ∀ x ∈ indexFormat.inner disk d.roots, Function.update disk a b x = disk x :=
  fun _ hx => Function.update_of_ne
    (fun heq => leaf_not_mem_inner h hi ha (by rw [← heq]; exact hx)) _ _

theorem InodeDisk.Covered.congr {size : Sector} (h : d.Covered disk size)
    (heq : ∀ x ∈ indexFormat.inner disk d.roots, disk' x = disk x) : d.Covered disk' size where
  proper := h.proper
  nodup := by rw [InodeDisk.nodes, TreeFormat.nodes_congr heq]; exact h.nodup
  inRange := by rw [InodeDisk.nodes, TreeFormat.nodes_congr heq]; exact h.inRange
  covered := by rw [InodeDisk.leaves, TreeFormat.leaves_congr heq]; exact h.covered
  nonneg := h.nonneg
  fits := h.fits

theorem InodeDisk.Sound.congr {size : Sector} (h : d.Sound disk size)
    (heq : ∀ x ∈ indexFormat.inner disk d.roots, disk' x = disk x) : d.Sound disk' size where
  proper := h.proper
  nodup := by rw [InodeDisk.nodes, TreeFormat.nodes_congr heq]; exact h.nodup
  inRange := by rw [InodeDisk.nodes, TreeFormat.nodes_congr heq]; exact h.inRange
  filled := (TreeFormat.filled_congr heq).mpr h.filled
  nonneg := h.nonneg
  fits := h.fits

/-! ## The bytes around a data sector -/

theorem length_sectorBytes : (sectorBytes disk a).length = 512 := by
  unfold sectorBytes
  split_ifs
  · exact zeros.property
  · exact (disk a).property

/-- A data sector stands at one place of the file. -/
theorem flat_split (h : (d.nodes disk).Nodup) (hi : (d.leaves disk)[i]? = some a) (ha : a ≠ 0) :
    ∃ pre post, pre.length = 512 * i ∧ d.flat disk = pre ++ (disk a).val ++ post ∧
      ∀ b, d.flat (Function.update disk a b) = pre ++ b.val ++ post := by
  obtain ⟨hlt, hget⟩ := List.getElem?_eq_some_iff.mp hi
  have hsplit : d.leaves disk = (d.leaves disk).take i ++ a :: (d.leaves disk).drop (i + 1) := by
    rw [← hget, ← List.drop_eq_getElem_cons hlt, List.take_append_drop]
  have hdistinct : ((d.leaves disk).filter (· ≠ 0)).Nodup := by
    rw [TreeFormat.nodes_perm.nodup_iff, List.nodup_append] at h
    exact h.2.1
  have hapart : ∀ x ∈ (d.leaves disk).take i ++ (d.leaves disk).drop (i + 1), x ≠ a := by
    rw [hsplit, List.filter_append, List.filter_cons_of_pos (by simpa using ha),
      List.nodup_middle, List.nodup_cons] at hdistinct
    intro x hx heq
    subst heq
    apply hdistinct.1
    rw [← List.filter_append, List.mem_filter]
    exact ⟨hx, by simpa using ha⟩
  refine ⟨((d.leaves disk).take i).flatMap (sectorBytes disk),
    ((d.leaves disk).drop (i + 1)).flatMap (sectorBytes disk), ?_, ?_, ?_⟩
  · rw [length_chunks fun _ _ => length_sectorBytes, List.length_take, Nat.min_eq_left (Nat.le_of_lt hlt)]
  · rw [flat]
    nth_rewrite 1 [hsplit]
    rw [List.flatMap_append, List.flatMap_cons, ← List.append_assoc]
    simp only [sectorBytes, if_neg ha]
  · intro b
    have hother : ∀ x, x ≠ a → sectorBytes (Function.update disk a b) x = sectorBytes disk x := by
      intro x hx
      unfold sectorBytes
      rw [Function.update_of_ne hx]
    have hself : sectorBytes (Function.update disk a b) a = b.val := by
      rw [sectorBytes, if_neg ha, Function.update_self]
    rw [flat, InodeDisk.leaves, TreeFormat.leaves_congr (index_update h hi ha b), ← InodeDisk.leaves]
    nth_rewrite 1 [hsplit]
    rw [List.flatMap_append, List.flatMap_cons, ← List.append_assoc, hself]
    have hpart : ∀ l : List Sector, (∀ x ∈ l, x ≠ a) →
        l.flatMap (sectorBytes (Function.update disk a b)) = l.flatMap (sectorBytes disk) :=
      fun l hl => List.flatMap_congr fun x hx => hother x (hl x hx)
    rw [hpart _ fun x hx => hapart x (List.mem_append_left _ hx),
      hpart _ fun x hx => hapart x (List.mem_append_right _ hx)]

theorem length_flat (h : d.Proper) : (d.flat disk).length = 512 * maxSectors := by
  rw [flat, length_chunks fun _ _ => length_sectorBytes, length_leaves h]

theorem not_mem_leaves_of_inner (h : (d.nodes disk).Nodup) (ha : a ∈ indexFormat.inner disk d.roots) :
    a ∉ d.leaves disk := by
  intro hmem
  have hne : a ≠ 0 := TreeFormat.ne_zero_of_mem_nodes (TreeFormat.inner_subset_nodes ha)
  obtain ⟨i, hi⟩ := List.mem_iff_getElem?.mp hmem
  exact leaf_not_mem_inner h hi hne ha

/-! ## Chunks -/

/-- A chunk is not empty before the end of the file, and lies in the file and in a sector. -/
theorem chunkSize_spec {size offset : Nat} (hsize : 0 < size) (hpos : 0 < chunkSize d size offset) :
    0 < (chunkSize d size offset).toNat ∧ (chunkSize d size offset).toNat ≤ size ∧
    (offset : Int) + (chunkSize d size offset).toNat ≤ d.length.toInt ∧
    offset % 512 + (chunkSize d size offset).toNat ≤ 512 := by
  unfold chunkSize at hpos ⊢
  dsimp only at hpos ⊢
  have hmod : offset % 512 < 512 := Nat.mod_lt _ (by decide)
  split_ifs at hpos ⊢ <;> omega

theorem chunkSize_pos_iff {size offset : Nat} (hsize : 0 < size) :
    0 < chunkSize d size offset ↔ (offset : Int) < d.length.toInt := by
  unfold chunkSize
  dsimp only
  have hmod : offset % 512 < 512 := Nat.mod_lt _ (by decide)
  split_ifs <;> omega

theorem readChunk_spec {ofs chunk : Nat} (ha : a < s.size) :
    readChunk a ofs chunk s = .ok (((s.disk a).val.drop ofs).take chunk) s := by
  rw [readChunk, bind_of_ok (bufferCacheRead_of_lt ha)]
  split_ifs with hfull
  · have htake : ((s.disk a).val.drop 0).take 512 = (s.disk a).val := by
      rw [List.drop_zero, List.take_of_length_le (Nat.le_of_eq (s.disk a).property)]
    rw [hfull.1, hfull.2, htake]
    rfl
  · rfl

theorem writeChunk_spec {ofs : Nat} {bytes : List UInt8} (ha : a < s.size)
    (hfit : ofs + bytes.length ≤ 512) : ∃ b : Block, writeChunk a ofs bytes s = .ok () (s.write a b) ∧
      b.val = overwrite (s.disk a).val ofs bytes := by
  have hlen : (s.disk a).val.length = 512 := (s.disk a).property
  have hover : (overwrite (s.disk a).val ofs bytes).length = 512 := by
    rw [length_overwrite (by rw [hlen]; exact hfit), hlen]
  unfold writeChunk
  split_ifs with hfull
  · refine ⟨_, bufferCacheWrite_of_lt ha, ?_⟩
    obtain ⟨rfl, hfull⟩ := hfull
    rw [toBlock_of_length hfull, overwrite, hfull, List.take_zero, List.nil_append, Nat.zero_add,
      List.drop_of_length_le (Nat.le_of_eq hlen), List.append_nil]
  · have hbounce : bounceBuffer a ofs bytes.length s = .ok (s.disk a) s := by
      rw [bounceBuffer, if_pos, bufferCacheRead_of_lt ha]
      by_contra hnot
      exact hfull (by omega)
    rw [bind_of_ok hbounce]
    refine ⟨_, bufferCacheWrite_of_lt ha, ?_⟩
    rw [toBlock_of_length hover]

/-! ## Reading -/

theorem length_contents_le : (d.contents disk).length ≤ d.length.toInt.toNat := by
  rw [contents, List.length_take]
  exact Nat.min_le_left _ _

theorem readLoop_spec (h : d.Covered s.disk s.size) {rounds size offset : Nat} (hrounds : size < rounds) :
    readLoop d rounds size offset s = .ok (((d.contents s.disk).drop offset).take size) s := by
  induction rounds generalizing size offset with
  | zero => cases hrounds
  | succ rounds ih =>
    unfold readLoop
    split_ifs with hsize
    · rw [hsize, List.take_zero]
      rfl
    have hpos : 0 < size := Nat.pos_of_ne_zero hsize
    by_cases hend : (offset : Int) < d.length.toInt
    · obtain ⟨a, hi, ha, hsector⟩ := h.byteToSector hend
      have hchunk : 0 < chunkSize d size offset := (chunkSize_pos_iff hpos).mpr hend
      obtain ⟨hc, hle, hfile, hfit⟩ := chunkSize_spec hpos hchunk
      rw [bind_of_ok hsector, if_neg (by omega)]
      generalize (chunkSize d size offset).toNat = c at hc hle hfile hfit ⊢
      rw [bind_of_ok (readChunk_spec (h.inRange a (leaf_mem_nodes hi ha))),
        bind_of_ok (ih (by omega))]
      obtain ⟨pre, post, hpre, hflat, -⟩ := flat_split h.nodup hi ha
      have hoffset : offset = pre.length + offset % 512 := by
        rw [hpre, Nat.div_add_mod]
      have hbytes : ((s.disk a).val.drop (offset % 512)).take c =
          ((d.contents s.disk).drop offset).take c := by
        have hmin : min c (d.length.toInt.toNat - offset) = c := by omega
        rw [contents, List.drop_take, List.take_take, hmin, hflat]
        nth_rewrite 2 [hoffset]
        symm
        apply drop_take_middle
        rw [(s.disk a).property]
        exact hfit
      have hrest : ((d.contents s.disk).drop offset).take size =
          ((d.contents s.disk).drop offset).take c ++
            ((d.contents s.disk).drop (offset + c)).take (size - c) := by
        rw [← List.drop_drop, ← List.take_add, Nat.add_sub_cancel' hle]
      rw [hbytes, hrest]
      rfl
    · have hsector : byteToSector d offset s = .ok noSector s := by
        rw [byteToSector, if_neg fun hin => hend hin.2]
        rfl
      have hchunk : ¬ 0 < chunkSize d size offset := fun hc => hend ((chunkSize_pos_iff hpos).mp hc)
      have hle := @length_contents_le d s.disk
      rw [bind_of_ok hsector, if_pos (by omega), List.drop_of_length_le (by omega), List.take_nil]
      rfl

/-- `inode_read_at` returns the bytes of the file from the offset on, up to its end. -/
theorem InodeDisk.Covered.inodeReadAt (h : d.Covered s.disk s.size) (size offset : Nat) :
    inodeReadAt d size offset s = .ok (((d.contents s.disk).drop offset).take size) s :=
  readLoop_spec h (Nat.lt_succ_self size)

theorem inodeReadAt_spec (h : d.Sound s.disk s.size) (size offset : Nat) :
    inodeReadAt d size offset s = .ok (((d.contents s.disk).drop offset).take size) s :=
  h.covered.inodeReadAt size offset

/-! ## Writing -/

/-- A part of the data of a file has been overwritten. -/
structure Overwritten (d : InodeDisk) (s s' : Store) (offset : Nat) (buffer : List UInt8) : Prop where
  others : s' = { s with disk := s'.disk }
  frame : ∀ x, x = 0 ∨ x ∉ d.leaves s.disk → s'.disk x = s.disk x
  flat : d.flat s'.disk = overwrite (d.flat s.disk) offset buffer

theorem InodeDisk.Covered.writeLoop (h : d.Covered s.disk s.size) {rounds offset : Nat}
    {buffer : List UInt8} (hrounds : buffer.length < rounds) (hfit : (offset + buffer.length : Int) ≤ d.length.toInt) :
    ∃ s', writeLoop d rounds buffer offset s = .ok buffer.length s' ∧
      Overwritten d s s' offset buffer := by
  induction rounds generalizing s offset buffer with
  | zero => cases hrounds
  | succ rounds ih =>
    unfold Filesys.writeLoop
    split_ifs with hnil
    · subst hnil
      exact ⟨s, rfl, rfl, fun _ _ => rfl, (overwrite_nil _ _).symm⟩
    have hpos : 0 < buffer.length := List.length_pos_of_ne_nil hnil
    have hend : (offset : Int) < d.length.toInt := by omega
    obtain ⟨a, hi, ha, hsector⟩ := h.byteToSector hend
    have hchunk : 0 < chunkSize d buffer.length offset := (chunkSize_pos_iff hpos).mpr hend
    obtain ⟨hc, hle, hfile, hsec⟩ := chunkSize_spec hpos hchunk
    rw [bind_of_ok hsector, if_neg (by omega)]
    generalize (chunkSize d buffer.length offset).toNat = c at hc hle hfile hsec ⊢
    have hlen : (buffer.take c).length = c := by rw [List.length_take, Nat.min_eq_left hle]
    obtain ⟨b, hwrite, hb⟩ := @writeChunk_spec s a (offset % 512) (buffer.take c)
      (h.inRange a (leaf_mem_nodes hi ha)) (by rwa [hlen])
    have hindex : ∀ x ∈ indexFormat.inner s.disk d.roots, (s.write a b).disk x = s.disk x :=
      index_update h.nodup hi ha b
    have hcovered : d.Covered (s.write a b).disk (s.write a b).size := h.congr hindex
    have hleaves : d.leaves (s.write a b).disk = d.leaves s.disk := TreeFormat.leaves_congr hindex
    have hdrop : (buffer.drop c).length = buffer.length - c := List.length_drop
    obtain ⟨s', hrest, hothers, hframe, hflat⟩ := @ih (s.write a b) hcovered (offset + c) (buffer.drop c)
      (by omega) (by push_cast; omega)
    rw [bind_of_ok hwrite, bind_of_ok hrest]
    refine ⟨s', ?_, ?_, ?_, ?_⟩
    · have hsum : c + (buffer.drop c).length = buffer.length := by omega
      rw [hsum]
      rfl
    · rw [hothers]
      rfl
    · intro x hx
      rw [hframe x (by rwa [hleaves]), Store.write_disk, Function.update_of_ne]
      intro heq
      subst heq
      exact hx.elim ha fun hnot => hnot (List.mem_of_getElem? hi)
    · obtain ⟨pre, post, hpre, hsplit, hupdate⟩ := flat_split h.nodup hi ha
      have hoffset : offset = pre.length + offset % 512 := by
        rw [hpre, Nat.div_add_mod]
      have hfirst : d.flat (s.write a b).disk = overwrite (d.flat s.disk) offset (buffer.take c) := by
        rw [Store.write_disk, hupdate, hb, hsplit]
        nth_rewrite 2 [hoffset]
        symm
        apply overwrite_middle
        rw [(s.disk a).property, hlen]
        exact hsec
      have hbound : offset ≤ (d.flat s.disk).length := by
        have hfits := h.fits
        have hnonneg := h.nonneg
        unfold numSectors at hfits
        rw [length_flat h.proper]
        omega
      have hjoin := @overwrite_overwrite _ (d.flat s.disk) (buffer.take c) (buffer.drop c) offset hbound
      rw [hlen, List.take_append_drop] at hjoin
      rw [hflat, hfirst, hjoin]

theorem writeLoop_spec (h : d.Sound s.disk s.size) {rounds offset : Nat} {buffer : List UInt8}
    (hrounds : buffer.length < rounds) (hfit : (offset + buffer.length : Int) ≤ d.length.toInt) :
    ∃ s', writeLoop d rounds buffer offset s = .ok buffer.length s' ∧
      Overwritten d s s' offset buffer :=
  h.covered.writeLoop hrounds hfit

end CSE130.Filesys
