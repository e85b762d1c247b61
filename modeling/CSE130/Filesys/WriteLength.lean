import CSE130.Filesys.FailedGrowth
import CSE130.Filesys.Growth
import CSE130.Filesys.GrowthKeeps

/-!
# The length of a file after a write

`inode_write_at` lets a file grow where the last byte to be written has no sector, and the end of the
write is its length from then on. An empty write has no last byte: at offset `0` it cuts the file off,
and behind the end of the file it lets it grow.
-/

namespace CSE130.Filesys

open CSE130.Library InodeDisk Store TreeFormat

/-- An in-memory inode is in order: every byte has its data sector, the blocks are marked in the free map
and are no blocks of the free map file, and the inode's own sector is apart from them. -/
structure InOrder (s : Store) (inode : Inode) : Prop where
  covered : inode.data.Covered s.disk s.size
  ready : Ready s inode.data.roots
  used : s.used inode.sector = true
  apart : inode.sector ∉ inode.data.nodes s.disk
  outside : inode.sector ∉ s.freeMapNodes

variable {s s' s₁ s₂ : Store} {d d' : InodeDisk} {inode inode' : Inode} {buffer : List UInt8}
  {offset size p : Nat} {fileEnd : Int32} {a : Sector} {Q : Nat → Prop}

/-! ## Reading a byte -/

/-- One byte is read where there is one. -/
theorem read_byte (h : d.Covered s.disk s.size) :
    inodeReadAt d 1 p s = .ok (d.contents s.disk)[p]?.toList s := by
  rw [h.inodeReadAt, List.take_one, List.head?_drop]

theorem getElem?_contents (h : (p : Int) < d.length.toInt) :
    (d.contents s.disk)[p]? = (d.flat s.disk)[p]? :=
  List.getElem?_take_of_lt (by omega)

theorem lt_of_contents {b : UInt8} (h : (d.contents s.disk)[p]? = some b) : (p : Int) < d.length.toInt := by
  have hlt := (List.getElem?_eq_some_iff.mp h).1
  have hle := @length_contents_le d s.disk
  omega

/-- The byte of a file at a position is in the data sector for it. -/
theorem getElem?_flat (hi : (d.leaves s.disk)[p / 512]? = some a) (ha : a ≠ 0) :
    (d.flat s.disk)[p]? = (s.disk a).val[p % 512]? := by
  have hchunk := getElem?_chunks (l := d.leaves s.disk) (f := sectorBytes s.disk) (i := p / 512)
    (fun _ _ => length_sectorBytes) (Nat.mod_lt p (by decide : 0 < 512))
  rw [Nat.div_add_mod, hi, Option.bind_some] at hchunk
  rw [flat, hchunk, sectorBytes, if_neg ha]

/-- The bytes that are kept can be read as before. -/
theorem read_kept (h : d.Covered s.disk s.size) (h' : d'.Covered s'.disk s'.size)
    (hkept : ∀ p : Nat, Q p → (p : Int) < d.length.toInt →
      (p : Int) < d'.length.toInt ∧ (d'.flat s'.disk)[p]? = (d.flat s.disk)[p]?) :
    ∀ p b, Q p → inodeReadAt d 1 p s = .ok [b] s → inodeReadAt d' 1 p s' = .ok [b] s' := by
  intro p b hQ hread
  rw [read_byte h] at hread
  have hb : (d.contents s.disk)[p]? = some b := by
    cases hget : (d.contents s.disk)[p]? with
    | none => rw [hget] at hread; cases hread
    | some c => rw [hget] at hread; cases hread; rfl
  have hlt := lt_of_contents hb
  obtain ⟨hlt', hflat⟩ := hkept p hQ hlt
  rw [read_byte h', getElem?_contents hlt', hflat, ← getElem?_contents hlt, hb]
  rfl

/-- Growth leaves the bytes of a file, whatever comes of it. -/
theorem Gained.byte (g : Gained s s' d.roots d'.roots) (hready : Ready s d.roots)
    (h : d.Covered s.disk s.size) (hp : (p : Int) < d.length.toInt) :
    (d'.flat s'.disk)[p]? = (d.flat s.disk)[p]? := by
  obtain ⟨a, hi, ha, -⟩ := h.byteToSector hp
  obtain ⟨hi', hdisk⟩ := g.leaf hready hi ha
  rw [getElem?_flat hi' ha, getElem?_flat hi ha, hdisk]

/-! ## Inodes in order -/

/-- Sectors that are no index blocks and not in the free map file do not matter to an index. -/
theorem Ready.congr {rs : List (Nat × Sector)} (h : Ready s rs) (hsize : s'.size = s.size)
    (hused : s'.used = s.used) (hfile : s'.freeMapFile = s.freeMapFile)
    (hmap : ∀ x ∈ s.freeMapNodes, s'.disk x = s.disk x)
    (hinner : ∀ x ∈ indexFormat.inner s.disk rs, s'.disk x = s.disk x) : Ready s' rs := by
  have hnodes : indexFormat.nodes s'.disk rs = indexFormat.nodes s.disk rs := nodes_congr hinner
  have hok := h.ok
  refine ⟨?_, ?_, ?_, ?_⟩
  · refine hok.congr hsize hfile hmap ?_ ?_ ?_
    · rw [hused]; exact hok.zero_used
    · rw [hused]; exact hok.inRange
    · rw [hused]; exact hok.nodes_used
  · rw [hnodes]
    exact h.nodup
  · rw [hnodes, hused]
    exact h.used
  · rw [hnodes, freeMapNodes_congr hfile hmap]
    exact h.outside

/-- An index that has gained entries belongs to an inode in order. -/
theorem InOrder.kept (h : InOrder s inode) (g : Gained s s' inode.data.roots d'.roots)
    (hcovered : d'.Covered s'.disk s'.size) : InOrder s' { inode with data := d' } where
  covered := hcovered
  ready := g.ready h.ready
  used := g.used _ h.used
  apart := by
    intro hmem
    refine (g.fresh _ hmem).elim h.apart fun hfree => ?_
    rw [h.used] at hfree
    cases hfree
  outside := by
    rw [g.nodes]
    exact h.outside

theorem InodeOk.inOrder (h : InodeOk s inode) : InOrder s inode :=
  ⟨h.sound.covered, h.ready, h.used, h.apart, h.outside⟩

/-- The inode may be written to its sector. -/
theorem InOrder.written (h : InOrder s inode) (b : Block) : InOrder (s.write inode.sector b) inode := by
  have hwrite : ∀ x, x ≠ inode.sector → (s.write inode.sector b).disk x = s.disk x :=
    fun x hx => Function.update_of_ne hx _ _
  have hmap : ∀ x ∈ s.freeMapNodes, (s.write inode.sector b).disk x = s.disk x :=
    fun x hx => hwrite x (ne_of_mem_of_not_mem hx h.outside)
  have hinner : ∀ x ∈ indexFormat.inner s.disk inode.data.roots,
      (s.write inode.sector b).disk x = s.disk x :=
    fun x hx => hwrite x (ne_of_mem_of_not_mem (inner_subset_nodes hx) h.apart)
  have hsame : (s.write inode.sector b).freeMapNodes = s.freeMapNodes := freeMapNodes_congr rfl hmap
  refine ⟨h.covered.congr hinner, h.ready.congr rfl rfl rfl hmap hinner, h.used, ?_, ?_⟩
  · rw [InodeDisk.nodes, nodes_congr hinner]
    exact h.apart
  · rw [hsame]
    exact h.outside

/-- The bytes of a file are not in the sector of its inode. -/
theorem InOrder.flat_written (h : InOrder s inode) (b : Block) :
    inode.data.flat (s.write inode.sector b).disk = inode.data.flat s.disk :=
  flat_congr fun _ hx => Function.update_of_ne (ne_of_mem_of_not_mem hx h.apart) _ _

/-- A write within a file. -/
theorem InOrder.overwritten (h : InOrder s inode)
    (hfit : (offset + buffer.length : Int) ≤ inode.data.length.toInt) :
    ∃ s', writeLoop inode.data (buffer.length + 1) buffer offset s = .ok buffer.length s' ∧
      InOrder s' inode ∧ ∀ p, p < offset ∨ offset + buffer.length ≤ p →
        (inode.data.flat s'.disk)[p]? = (inode.data.flat s.disk)[p]? := by
  obtain ⟨s', hrun, hothers, hframe, hflat⟩ := h.covered.writeLoop (Nat.lt_succ_self _) hfit
  have hinner : ∀ x ∈ indexFormat.inner s.disk inode.data.roots, s'.disk x = s.disk x :=
    fun x hx => hframe x (.inr (not_mem_leaves_of_inner h.ready.nodup hx))
  have hout : ∀ x, x ∉ inode.data.nodes s.disk → s'.disk x = s.disk x := by
    intro x hx
    refine hframe x ?_
    by_cases hzero : x = 0
    · exact .inl hzero
    · exact .inr fun hleaf => hx (mem_nodes_iff.mpr (.inr ⟨hleaf, hzero⟩))
  have hmap : ∀ x ∈ s.freeMapNodes, s'.disk x = s.disk x :=
    fun x hx => hout x fun hmem => h.ready.outside x hmem hx
  have hsize : s'.size = s.size := by rw [hothers]
  have hused : s'.used = s.used := by rw [hothers]
  have hfile : s'.freeMapFile = s.freeMapFile := by rw [hothers]
  refine ⟨s', hrun, ⟨?_, h.ready.congr hsize hused hfile hmap hinner, ?_, ?_, ?_⟩, ?_⟩
  · rw [hsize]
    exact h.covered.congr hinner
  · rw [hused]
    exact h.used
  · rw [InodeDisk.nodes, nodes_congr hinner]
    exact h.apart
  · rw [freeMapNodes_congr hfile hmap]
    exact h.outside
  · intro p hp
    have hfits := h.covered.fits
    have hnonneg := h.covered.nonneg
    unfold numSectors at hfits
    rw [hflat]
    refine getElem?_overwrite ?_ hp
    rw [length_flat h.covered.proper]
    omega

/-! ## Growth in a write -/

/-- More blocks are missing for a file of `fileEnd` bytes than sectors are free. -/
def TooFewFree (s : Store) (inode : Inode) (fileEnd : Nat) : Prop :=
  s.freeSectors.length < (needs s inode.data.roots ((fileEnd + 511) / 512)).length

/-- An inode in order that has grown or has tried to, with the bytes that it had. -/
structure Extended (s s' : Store) (inode inode' : Inode) (length : Int32) : Prop where
  inOrder : InOrder s' inode'
  length : inode'.data.length = length
  bytes : ∀ p : Nat, (p : Int) < inode.data.length.toInt →
    (inode'.data.flat s'.disk)[p]? = (inode.data.flat s.disk)[p]?

section Extend

variable {e : Nat}

theorem inodeReserve_of_lt (h : e < 2 ^ 31) :
    inodeReserve d (Int32.ofNat e) s = reserveSectors d (bytesToSectors (Int32.ofNat e)) s := by
  rw [inodeReserve, if_neg]
  rw [ofNat_lt_zero_iff (by omega)]
  omega

theorem inodeExtend_overflow (hover : 2 ^ 31 ≤ e) (hlt : e < 2 ^ 32) :
    inodeExtend inode (Int32.ofNat e) s = .ok (false, inode) s := by
  have hreserve : inodeReserve inode.data (Int32.ofNat e) s = .ok (false, inode.data) s := by
    rw [inodeReserve, if_pos ((ofNat_lt_zero_iff hlt).mpr hover)]
    rfl
  rw [inodeExtend, bind_of_ok hreserve]
  rfl

/-- Growth for which too few sectors are free. -/
theorem inodeExtend_short (h : InOrder s inode) (he : e < 2 ^ 31) (hfew : TooFewFree s inode e) :
    ∃ inode' s', inodeExtend inode (Int32.ofNat e) s = .ok (false, inode') s' ∧
      Extended s s' inode inode' inode.data.length := by
  have hneeds := @needs_bytesToSectors s inode.data h.covered.proper _ _ (fileEnd_of_lt he)
  obtain ⟨_, s', ⟨d', rfl, hsame, hres⟩, -⟩ :=
    (reserveSectors_spec h.covered.proper h.ready).short (by rw [hneeds]; exact hfew)
  rw [reserveResult, if_neg (by simp), ← inodeReserve_of_lt he] at hres
  obtain ⟨hkept, -⟩ := inodeReserve_keeps h.covered.proper h.ready hres
  have hlength : d'.length = inode.data.length := by rw [hsame]
  have hnum : d'.numSectors = inode.data.numSectors := by rw [numSectors, hlength, numSectors]
  have hcovered : d'.Covered s'.disk s'.size := by
    refine hkept.covered h.covered.proper ?_ ?_ ?_
    · rw [hlength]
      exact h.covered.nonneg
    · rw [hnum]
      exact h.covered.fits
    · rw [hnum]
      exact Holds.gain h.covered.covered (leaves_gain hkept.tops hkept.gains)
  refine ⟨{ inode with data := d' }, s', ?_, h.kept hkept hcovered, hlength, ?_⟩
  · rw [inodeExtend, bind_of_ok hres]
    rfl
  · exact fun p hp => hkept.byte h.ready h.covered hp

/-- Growth behind the largest file. -/
theorem inodeExtend_large (h : InOrder s inode) (he : e < 2 ^ 31) (hfew : ¬ TooFewFree s inode e)
    (hlarge : 512 * maxSectors < e) :
    ∃ s', inodeExtend inode (Int32.ofNat e) s = .error .assertFailed s' := by
  have hend := fileEnd_of_lt he
  have hneeds := @needs_bytesToSectors s inode.data h.covered.proper _ _ hend
  obtain ⟨_, s', _, ⟨d', rfl, -, hres⟩, -⟩ :=
    (reserveSectors_spec h.covered.proper h.ready).enough (by rw [hneeds]; exact Nat.not_lt.mp hfew)
  have hmax : maxSectors < bytesToSectors (Int32.ofNat e) := by
    rw [← Nat.not_le, bytesToSectors_le_iff (by omega)]
    omega
  rw [reserveResult, if_pos ⟨rfl, hmax⟩, ← inodeReserve_of_lt he] at hres
  exact ⟨s', by rw [inodeExtend, bind_of_error hres]⟩

/-- Growth that succeeds. -/
theorem inodeExtend_grown (h : InOrder s inode) (hfew : ¬ TooFewFree s inode e)
    (hfits : e ≤ 512 * maxSectors) :
    ∃ inode' s', inodeExtend inode (Int32.ofNat e) s = .ok (true, inode') s' ∧
      Extended s s' inode inode' (Int32.ofNat e) := by
  have hlarge : maxSectors = 16635 := rfl
  have he : e < 2 ^ 31 := by omega
  have hend := fileEnd_of_lt he
  have hneeds := @needs_bytesToSectors s inode.data h.covered.proper _ _ hend
  obtain ⟨_, s', _, ⟨d', rfl, -, hres⟩, -⟩ :=
    (reserveSectors_spec h.covered.proper h.ready).enough (by rw [hneeds]; exact Nat.not_lt.mp hfew)
  have hmax : bytesToSectors (Int32.ofNat e) ≤ maxSectors := by
    rw [bytesToSectors_le_iff (by omega)]
    omega
  rw [reserveResult, if_neg (by omega), ← inodeReserve_of_lt he] at hres
  obtain ⟨hkept, -, hholds⟩ := inodeReserve_keeps h.covered.proper h.ready hres
  have hnum : ({ d' with length := Int32.ofNat e } : InodeDisk).numSectors =
      bytesToSectors (Int32.ofNat e) := by
    rw [bytesToSectors_eq (by omega) (by omega)]
    rfl
  have hcovered : ({ d' with length := Int32.ofNat e } : InodeDisk).Covered s'.disk s'.size := by
    refine Gained.covered (d := inode.data) hkept h.covered.proper (hholds rfl).1 ?_ ?_
    · rw [hnum]
      exact hmax
    · rw [hnum]
      exact (hholds rfl).2
  have horder : InOrder s' { inode with data := { d' with length := Int32.ofNat e } } :=
    h.kept hkept hcovered
  have hlt : inode.sector < s'.size := hkept.ok.inRange _ (hkept.used _ h.used)
  refine ⟨_, _, ?_,
    horder.written ({ d' with length := Int32.ofNat e } : InodeDisk).toSector, rfl, fun p hp => ?_⟩
  · rw [inodeExtend, bind_of_ok hres]
    dsimp only
    rw [if_pos rfl, bind_of_ok (bufferCacheWrite_of_lt hlt)]
    rfl
  · rw [horder.flat_written]
    refine Gained.byte ?_ h.ready h.covered hp
    exact hkept

/-- A write that has its last byte in the file needs no growth. -/
theorem inodeMakeRoom_inside (h : InOrder s inode) (hpos : 0 < e)
    (hin : (e : Int) ≤ inode.data.length.toInt) :
    inodeMakeRoom inode (Int32.ofNat e) s = .ok (true, inode) s := by
  have hmax : maxSectors = 16635 := rfl
  have hlast : ((e - 1 : Nat) : Int) < inode.data.length.toInt := by omega
  obtain ⟨a, hi, ha, hsector⟩ := h.covered.byteToSector hlast
  have hfits := h.covered.fits
  unfold numSectors at hfits
  have hpos' : (Int32.ofNat e - 1).toInt = ((e - 1 : Nat) : Int) := by
    have h1 : (1 : Int32).toInt = 1 := by decide
    rw [Int32.toInt_sub, h1, fileEnd_of_lt (by omega), Int.bmod_def]
    split_ifs <;> omega
  rw [inodeMakeRoom, hpos', bind_of_ok hsector,
    if_neg (ne_noSector (h.covered.inRange a (leaf_mem_nodes hi ha)))]
  rfl

/-- An empty write at offset `0` and a write that goes behind the end of the file come to growth. -/
theorem inodeMakeRoom_outside (he : e < 2 ^ 32 - 1) (hout : e = 0 ∨ inode.data.length.toInt < e) :
    inodeMakeRoom inode (Int32.ofNat e) s = inodeExtend inode (Int32.ofNat e) s := by
  have hsector : byteToSector inode.data (Int32.ofNat e - 1).toInt s = .ok noSector s := by
    rcases Nat.eq_zero_or_pos e with rfl | hpos
    · have hneg : (Int32.ofNat 0 - 1).toInt = -1 := by decide
      rw [byteToSector, hneg, if_neg (by omega)]
      rfl
    · have hsum : e / 2 + (e - e / 2) = e := by omega
      have hbehind := @byteToSector_behind s inode.data (e / 2) (e - e / 2) (by omega) (by omega)
        (by omega) (by push_cast; omega)
      rwa [hsum] at hbehind
  rw [inodeMakeRoom, bind_of_ok hsector, if_pos rfl]

/-- Whatever comes of growth, the inode is in order, and after success there is room. -/
theorem inodeMakeRoom_inOrder {b : Bool} (h : InOrder s inode) (he : e < 2 ^ 32 - 1)
    (hrun : inodeMakeRoom inode (Int32.ofNat e) s = .ok (b, inode') s') :
    InOrder s' inode' ∧ (b = true → (e : Int) ≤ inode'.data.length.toInt) := by
  by_cases hin : 0 < e ∧ (e : Int) ≤ inode.data.length.toInt
  · rw [inodeMakeRoom_inside h hin.1 hin.2] at hrun
    cases hrun
    exact ⟨h, fun _ => hin.2⟩
  rw [inodeMakeRoom_outside he (by omega)] at hrun
  by_cases hover : 2 ^ 31 ≤ e
  · rw [inodeExtend_overflow hover (by omega)] at hrun
    cases hrun
    exact ⟨h, nofun⟩
  by_cases hfew : TooFewFree s inode e
  · obtain ⟨inode₁, s₁, hshort, hext⟩ := inodeExtend_short h (by omega) hfew
    rw [hshort] at hrun
    cases hrun
    exact ⟨hext.inOrder, nofun⟩
  by_cases hlarge : 512 * maxSectors < e
  · obtain ⟨s₁, herror⟩ := inodeExtend_large h (by omega) hfew hlarge
    rw [herror] at hrun
    cases hrun
  · obtain ⟨inode₁, s₁, hgrown, hext⟩ := inodeExtend_grown h hfew (Nat.not_lt.mp hlarge)
    rw [hgrown] at hrun
    cases hrun
    refine ⟨hext.inOrder, fun _ => ?_⟩
    rw [hext.length, fileEnd_of_lt (by omega)]

end Extend

/-! ## `inode_write_at` -/

/-- An inode in order is in order after every write that returns. -/
theorem inodeWriteAt_inOrder {written : Nat} (h : InOrder s inode) (hsize : buffer.length < 2 ^ 31)
    (hoffset : offset < 2 ^ 31)
    (hrun : inodeWriteAt inode buffer offset s = .ok (written, inode') s') : InOrder s' inode' := by
  rw [inodeWriteAt] at hrun
  split_ifs at hrun with hdeny
  · cases hrun
    exact h
  obtain ⟨⟨b, inode₁⟩, s₁, hroom, hrest⟩ := ok_of_bind hrun
  obtain ⟨horder, hfit⟩ := inodeMakeRoom_inOrder h (by omega) hroom
  cases b with
  | false =>
    cases hrest
    exact horder
  | true =>
    have hfit' : (offset + buffer.length : Int) ≤ inode₁.data.length.toInt := by
      have hle := hfit rfl
      push_cast at hle
      exact hle
    obtain ⟨s₂, hloop, horder₂, -⟩ := horder.overwritten hfit'
    dsimp only at hrest
    rw [if_pos rfl, bind_of_ok hloop] at hrest
    cases hrest
    exact horder₂

section Write

variable (hallowed : inode.denyWriteCnt = 0)

include hallowed

theorem inodeWriteAt_panics {e : Panic}
    (hroom : inodeMakeRoom inode (Int32.ofNat (offset + buffer.length)) s = .error e s') :
    inodeWriteAt inode buffer offset s = .error e s' := by
  rw [inodeWriteAt, if_neg (not_not.mpr hallowed), bind_of_error hroom]

/-- Where there is room, all bytes are written, and the other bytes stay as they are. -/
theorem inodeWriteAt_room (h : InOrder s₁ inode')
    (hroom : inodeMakeRoom inode (Int32.ofNat (offset + buffer.length)) s = .ok (true, inode') s₁)
    (hfit : (offset + buffer.length : Int) ≤ inode'.data.length.toInt) :
    ∃ s₂, inodeWriteAt inode buffer offset s = .ok (buffer.length, inode') s₂ ∧ InOrder s₂ inode' ∧
      ∀ p, p < offset ∨ offset + buffer.length ≤ p →
        (inode'.data.flat s₂.disk)[p]? = (inode'.data.flat s₁.disk)[p]? := by
  obtain ⟨s₂, hloop, horder, hbytes⟩ := h.overwritten hfit
  refine ⟨s₂, ?_, horder, hbytes⟩
  rw [inodeWriteAt, if_neg (not_not.mpr hallowed), bind_of_ok hroom]
  dsimp only
  rw [if_pos rfl, bind_of_ok hloop]
  rfl

end Write

/-- `inode_write_at` returns, with the old length if it has written nothing, else with the larger one of
the old length and the end of what it has written; and the bytes that could be read outside the range
can be read. -/
def NeverShortens (s : Store) (inode : Inode) (buffer : List UInt8) (offset : Nat) : Prop :=
  ∃ written inode' s', inodeWriteAt inode buffer offset s = .ok (written, inode') s' ∧
    inode'.data.length.toInt = (if written = 0 then inode.data.length.toInt
      else max inode.data.length.toInt (offset + written)) ∧
    ∀ p b, p < offset ∨ offset + written ≤ p → inodeReadAt inode.data 1 p s = .ok [b] s →
      inodeReadAt inode'.data 1 p s' = .ok [b] s'

/-- A result with the old length or the right new one is a proof of the property. -/
theorem NeverShortens.intro {written : Nat} (h : InOrder s inode) (h' : InOrder s' inode')
    (hrun : inodeWriteAt inode buffer offset s = .ok (written, inode') s')
    (hlength : inode'.data.length.toInt = (if written = 0 then inode.data.length.toInt
      else max inode.data.length.toInt (offset + written)))
    (hbytes : ∀ p : Nat, p < offset ∨ offset + written ≤ p → (p : Int) < inode.data.length.toInt →
      (inode'.data.flat s'.disk)[p]? = (inode.data.flat s.disk)[p]?) :
    NeverShortens s inode buffer offset := by
  refine ⟨written, inode', s', hrun, hlength, ?_⟩
  refine read_kept h.covered h'.covered fun p hQ hp => ⟨?_, hbytes p hQ hp⟩
  rw [hlength]
  split_ifs <;> omega

end CSE130.Filesys
