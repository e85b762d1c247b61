import CSE130.Filesys.Inode

/-!
# Growth that fails

What `inode_reserve` has allocated when it fails stays allocated, and the zeros for an index block that
could not be allocated go to sector `0`, the free map's inode. `filesys_create` releases the sector that
it has allocated when a later step fails, and `free_map_allocate` takes its bit back.
-/

namespace CSE130.Filesys

open CSE130.Library InodeDisk Store

/-! ## The sectors that are written -/

/-- The store that a computation leaves, by whatever it ends. -/
def storeAfter {α : Type} (m : StoreM α) (s : Store) : Store :=
  match m s with
  | .ok _ s' => s'
  | .error _ s' => s'

/-- What is noted in the course of a computation. -/
def notesOf {α : Type} (m : StoreM α) (s : Store) : List Note :=
  (storeAfter m s).notes.drop s.notes.length

/-- Every sector that is written in the course of the computation has been allocated there, or is an
index block of the part of the index. -/
def WritesItsOwn {α : Type} (m : StoreM α) (s : Store) (rs : List (Nat × Sector)) : Prop :=
  ∀ x ∈ wrote (notesOf m s), x ∈ allocated (notesOf m s) ∨ x ∈ indexFormat.inner s.disk rs

variable {s s' : Store} {rs rs' : List (Nat × Sector)} {n k : Nat} {e : Sector} {d : InodeDisk}
  {new : List Sector} {α : Type} {m : StoreM α}

theorem notesOf_eq {ns : List Note} (hs : storeAfter m s = s') (h : s'.notes = s.notes ++ ns) :
    notesOf m s = ns := by
  rw [notesOf, hs, h, List.drop_left]

theorem Reserved.writesItsOwn (g : Reserved s s' rs rs' n new) (hs : storeAfter m s = s') :
    WritesItsOwn m s rs := by
  obtain ⟨ns, hns, hall, -, -, hwrote⟩ := g.notes
  rw [WritesItsOwn, notesOf_eq hs hns, hall]
  exact hwrote

theorem zero_not_mem_inner : (0 : Sector) ∉ indexFormat.inner s.disk rs :=
  fun h => TreeFormat.ne_zero_of_mem_nodes (TreeFormat.inner_subset_nodes h) rfl

theorem Exhausted.writesItsOwn_iff (hok : s.FreeMapOk) (g : Exhausted s s' rs rs' n)
    (hs : storeAfter m s = s') : WritesItsOwn m s rs ↔ ¬ FailsAtIndex s rs n := by
  obtain ⟨ns, hns, hall, -, -, hwrote, hzero⟩ := g.notes
  rw [WritesItsOwn, notesOf_eq hs hns, hall]
  constructor
  · intro hown hfails
    cases hown 0 (hzero hfails) with
    | inl hfree => exact (free_ne hok hfree).1 rfl
    | inr hinner => exact zero_not_mem_inner hinner
  · intro hnot x hx
    exact (hwrote x hx).imp id fun hor => hor.resolve_right fun hand => hnot hand.2

theorem failsAtIndex_short (h : FailsAtIndex s rs n) : s.freeSectors.length < (needs s rs n).length :=
  (List.getElem?_eq_some_iff.mp h).1

/-- An attempt at growth writes its own sectors alone, unless it fails at an index block. -/
theorem Attempt.writesItsOwn_iff {P : Bool → List (Nat × Sector) → Store → Prop} (hok : s.FreeMapOk)
    (h : Attempt s rs n P) (hP : ∀ b rs' s', P b rs' s' → storeAfter m s = s') :
    WritesItsOwn m s rs ↔ ¬ FailsAtIndex s rs n := by
  by_cases hlt : s.freeSectors.length < (needs s rs n).length
  · obtain ⟨rs', s', hres, hexh⟩ := h.short hlt
    exact hexh.writesItsOwn_iff hok (hP _ _ _ hres)
  · obtain ⟨rs', s', new, hres, hgrown⟩ := h.enough (by omega)
    exact iff_of_true (hgrown.writesItsOwn (hP _ _ _ hres)) fun hf => hlt (failsAtIndex_short hf)

theorem storeAfter_reserveResult {b : Bool} {limit : Nat} {m : StoreM (Bool × InodeDisk)}
    (h : m s = reserveResult b n limit d s') : storeAfter m s = s' := by
  rw [storeAfter, h, reserveResult]
  split_ifs <;> rfl

theorem Attempt.allocated_free {P : Bool → List (Nat × Sector) → Store → Prop}
    (h : Attempt s rs n P) (hP : ∀ b rs' s', P b rs' s' → storeAfter m s = s') :
    ∀ x ∈ allocated (notesOf m s), s.used x = false := by
  by_cases hlt : s.freeSectors.length < (needs s rs n).length
  · obtain ⟨rs', s', hres, hexh⟩ := h.short hlt
    obtain ⟨ns, hns, hall, -⟩ := hexh.notes
    rw [notesOf_eq (hP _ _ _ hres) hns, hall]
    exact fun x hx => (mem_freeSectors.mp hx).2
  · obtain ⟨rs', s', new, hres, hgrown⟩ := h.enough (by omega)
    obtain ⟨ns, hns, hall, -⟩ := hgrown.notes
    rw [notesOf_eq (hP _ _ _ hres) hns, hall]
    intro x hx
    have hfree := hgrown.free
    exact (mem_freeSectors.mp (by rw [hfree]; exact List.mem_append_left _ hx)).2

/-- Growth writes its own sectors alone, and so no other sector that was marked in the free map before,
be it that of the free map's inode or of the root directory's. -/
def GrowsInItsOwn {α : Type} (m : StoreM α) (s : Store) (rs : List (Nat × Sector)) : Prop :=
  WritesItsOwn m s rs ∧
    ∀ x, s.used x = true → x ∉ indexFormat.inner s.disk rs → x ∉ wrote (notesOf m s)

theorem Attempt.growsInItsOwn_iff {P : Bool → List (Nat × Sector) → Store → Prop} (hok : s.FreeMapOk)
    (h : Attempt s rs n P) (hP : ∀ b rs' s', P b rs' s' → storeAfter m s = s') :
    GrowsInItsOwn m s rs ↔ ¬ FailsAtIndex s rs n := by
  rw [← h.writesItsOwn_iff hok hP]
  refine ⟨And.left, fun hown => ⟨hown, ?_⟩⟩
  intro x hx hinner hmem
  refine (hown x hmem).elim ?_ hinner
  intro hall
  rw [h.allocated_free hP x hall] at hx
  cases hx

/-- `inode_reserve_indirect` and `inode_reserve` write sectors allocated in the call and index blocks of
the inode alone if and only if the disk does not become full at an index block. -/
theorem inodeReserve_growsInItsOwn_iff (s : Store) :
    (∀ k e n, k ≤ 2 → 0 < n → n ≤ indexFormat.fanOut ^ k → Ready s [(k, e)] →
      (GrowsInItsOwn (inodeReserveIndirect k e n) s [(k, e)] ↔ ¬ FailsAtIndex s [(k, e)] n)) ∧
    ∀ d length, d.Proper → Ready s d.roots →
      (GrowsInItsOwn (inodeReserve d length) s d.roots ↔
        length < 0 ∨ ¬ FailsAtIndex s d.roots (bytesToSectors length)) := by
  constructor
  · intro k e n hk hn hle h
    refine (inodeReserveIndirect_spec hk hn hle h).growsInItsOwn_iff h.ok ?_
    intro b rs' s' hres
    obtain ⟨e', -, hrun⟩ := hres
    rw [storeAfter, hrun]
  · intro d length hd h
    by_cases hneg : length < 0
    · have hpure : inodeReserve d length s = .ok (false, d) s := by
        rw [inodeReserve, if_pos hneg]
        rfl
      have hnotes : notesOf (inodeReserve d length) s = [] := by
        rw [notesOf, storeAfter, hpure]
        exact List.drop_length
      refine iff_of_true ?_ (.inl hneg)
      rw [GrowsInItsOwn, WritesItsOwn, hnotes]
      exact ⟨fun x hx => absurd hx List.not_mem_nil, fun x _ _ => List.not_mem_nil⟩
    · rw [or_iff_right hneg]
      refine (reserveSectors_spec hd h).growsInItsOwn_iff h.ok ?_
      intro b rs' s' hres
      obtain ⟨d', -, -, hrun⟩ := hres
      apply storeAfter_reserveResult (b := b) (n := bytesToSectors length) (d := d')
      rw [inodeReserve, if_neg hneg]
      exact hrun

/-- A device whose sectors are all marked. -/
def fullDisk : Store where
  size := 130
  disk := fun _ => zeros
  used := fun x => x < 130
  freeMapFile := some (smallFreeMapFile 130)
  notes := []

/-- A file that has a data sector for each of its direct blocks and nothing else. -/
def directFile : InodeDisk where
  directBlocks := (List.range 123).map fun i => UInt32.ofNat (i + 4)
  indirectBlock := 0
  doublyIndirectBlock := 0
  isDir := false
  length := 62976
  magic := inodeMagic

theorem directFile_blocks : ∀ e ∈ directFile.directBlocks, 4 ≤ e.toNat ∧ e.toNat < 127 := by
  intro e he
  obtain ⟨i, hi, rfl⟩ := List.mem_map.mp he
  have hlt := List.mem_range.mp hi
  have hsize : UInt32.size = 4294967296 := rfl
  rw [UInt32.toNat_ofNat_of_lt' (by omega)]
  omega

theorem directFile_nodup : directFile.directBlocks.Nodup := by
  refine List.Nodup.map_on ?_ List.nodup_range
  intro i hi j hj heq
  have hi' := List.mem_range.mp hi
  have hj' := List.mem_range.mp hj
  have hsize : UInt32.size = 4294967296 := rfl
  have hnat := congrArg UInt32.toNat heq
  rw [UInt32.toNat_ofNat_of_lt' (by omega), UInt32.toNat_ofNat_of_lt' (by omega)] at hnat
  omega

theorem directFile_ne_zero : ∀ e ∈ directFile.directBlocks, e ≠ 0 := by
  intro e he hzero
  have hle := (directFile_blocks e he).1
  rw [hzero] at hle
  exact absurd hle (by decide)

theorem directFile_nodes (disk : Sector → Block) :
    indexFormat.nodes disk directFile.roots = directFile.directBlocks := by
  have hrest : ∀ r ∈ [((1 : Nat), (0 : Sector))] ++ [(2, 0)], r.2 = 0 := by simp
  rw [roots_eq, TreeFormat.nodes_append, TreeFormat.nodes_level_zero directFile_ne_zero]
  exact (congrArg _ (TreeFormat.nodes_of_zero hrest)).trans (List.append_nil _)

theorem fullDisk_ready : Ready fullDisk directFile.roots where
  ok := freeMapOk_of_small rfl (by decide) (fun x hx => of_decide_eq_true hx) rfl rfl
  nodup := by
    rw [directFile_nodes]
    exact directFile_nodup
  used := by
    rw [directFile_nodes]
    intro x hx
    have hlt := (directFile_blocks x hx).2
    have h130 : (130 : Sector).toNat = 130 := rfl
    exact decide_eq_true (UInt32.lt_iff_toNat_lt.mpr (by omega))
  outside := by
    rw [freeMapNodes_eq (d := smallFreeMapFile 130) rfl, smallFreeMapFile_nodes, directFile_nodes]
    intro x hx hmem
    have hle := (directFile_blocks x hx).1
    rw [List.mem_singleton.mp hmem] at hle
    exact absurd hle (by decide)

/-- Nothing is missing for the direct blocks of the file. -/
theorem directFile_needs : needs fullDisk directFile.roots 123 = [] := by
  have hcap : indexFormat.capacity (directFile.directBlocks.map fun e => (0, e)) = 123 := by
    rw [TreeFormat.capacity_map, Nat.pow_zero, Nat.mul_one]
    rfl
  rw [needs, roots_eq, TreeFormat.needs_append, TreeFormat.needs_level_zero directFile_ne_zero, hcap,
    Nat.sub_self, TreeFormat.needs_zero]
  rfl

/-- On the full disk, growth of the file by one byte needs an index block. -/
theorem inodeReserve_writes_sector_zero :
    ¬ GrowsInItsOwn (inodeReserve directFile 62977) fullDisk directFile.roots := by
  intro h
  have hwrote : 0 ∈ wrote (notesOf (inodeReserve directFile 62977) fullDisk) := by decide +kernel
  exact h.2 0 rfl zero_not_mem_inner hwrote

theorem inodeReserve_growsInItsOwn_fullDisk :
    GrowsInItsOwn (inodeReserve directFile 62976) fullDisk directFile.roots := by
  refine ((inodeReserve_growsInItsOwn_iff fullDisk).2 directFile 62976 rfl fullDisk_ready).mpr ?_
  right
  have hsectors : bytesToSectors 62976 = 123 := by decide
  rw [FailsAtIndex, hsectors, directFile_needs]
  simp

/-! ## Whether anything is left behind -/

/-- A write that the file cannot grow for: its end lies behind the largest file, or more sectors are
missing than are free. -/
structure CannotGrow (s : Store) (inode : Inode) (size offset : Nat) : Prop where
  allowed : inode.denyWriteCnt = 0
  grows : inode.data.length.toInt < offset + size
  reason : 512 * maxSectors < offset + size ∨
    s.freeSectors.length < (needs s inode.data.roots ((offset + size + 511) / 512)).length

/-- `inode_write_at` returns `0`, and the free map, the inode and all sectors are as before. -/
def FailsAtomically (s : Store) (inode : Inode) (buffer : List UInt8) (offset : Nat) : Prop :=
  ∃ s', inodeWriteAt inode buffer offset s = .ok (0, inode) s' ∧ s'.used = s.used ∧
    s'.disk = s.disk ∧ s'.freeMapFile = s.freeMapFile

/-- The end of the write overflows, or no sector is free and the first one that is missing is a data
sector, or else an index block and sector `0` has no bytes but zeros. -/
def LeavesNothing (s : Store) (inode : Inode) (size offset : Nat) : Prop :=
  2 ^ 31 ≤ offset + size ∨ s.freeSectors = [] ∧
    ((needs s inode.data.roots ((offset + size + 511) / 512)).head? = some .data ∨
      (needs s inode.data.roots ((offset + size + 511) / 512)).head? = some .index ∧
        s.disk 0 = zeros)

variable {inode : Inode} {buffer : List UInt8} {offset size : Nat}

/-- Sectors behind the largest file do not matter. -/
theorem needs_bytesToSectors (hd : d.Proper) {x : Int32} {end_ : Nat} (h : x.toInt = end_) :
    needs s d.roots (bytesToSectors x) = needs s d.roots ((end_ + 511) / 512) := by
  by_cases hle : x.toInt ≤ 2 ^ 31 - 512
  · rw [bytesToSectors_eq (by omega) hle, h, Int.toNat_natCast]
  · have hlarge := bytesToSectors_large (by omega : 2 ^ 31 - 512 < x.toInt)
    have hmax : maxSectors = 16635 := rfl
    have hcap : ∀ n, maxSectors ≤ n → needs s d.roots n = needs s d.roots maxSectors := by
      intro n hn
      have hmin : min n (indexFormat.capacity d.roots) = maxSectors := by
        rw [capacity_roots hd]
        exact Nat.min_eq_right hn
      rw [needs, ← TreeFormat.needs_min, hmin]
    rw [hcap _ (by omega), hcap ((end_ + 511) / 512) (by omega)]

theorem inodeWriteAt_eq (hallowed : inode.denyWriteCnt = 0) (hpos : 0 < buffer.length)
    (hsize : buffer.length < 2 ^ 31) (hoffset : offset < 2 ^ 31)
    (h : inode.data.length.toInt < offset + buffer.length) :
    inodeWriteAt inode buffer offset s = (do
      let (success, inode) ← inodeExtend inode (Int32.ofNat (offset + buffer.length))
      if success then do
        let written ← writeLoop inode.data (buffer.length + 1) buffer offset
        pure (written, inode)
      else pure (0, inode) : StoreM (Nat × Inode)) s := by
  have hroom : inodeMakeRoom inode (Int32.ofNat (offset + buffer.length)) s =
      inodeExtend inode (Int32.ofNat (offset + buffer.length)) s := by
    rw [inodeMakeRoom, bind_of_ok (byteToSector_behind hpos hsize hoffset h), if_pos rfl]
  rw [inodeWriteAt, if_neg (by simpa using hallowed)]
  simp only [bind, EStateM.bind, hroom]

theorem eq_of_roots_eq {d' : InodeDisk} (hsame : SameInode d d') (h : d'.roots = d.roots) : d' = d := by
  have hlen : d'.directBlocks.length = d.directBlocks.length := by
    have hlen' := congrArg List.length h
    simpa [roots] using hlen'
  rw [roots, roots, List.append_assoc, List.append_assoc] at h
  obtain ⟨hdirect, hrest⟩ := List.append_inj h (by rw [List.length_map, List.length_map, hlen])
  have hmap : d'.directBlocks = d.directBlocks :=
    List.map_injective_iff.mpr (fun _ _ heq => congrArg Prod.snd heq) hdirect
  simp only [List.cons_append, List.nil_append, List.cons.injEq, Prod.mk.injEq] at hrest
  rw [hsame, hmap, hrest.1.2, hrest.2.1.2]

theorem ofNat_lt_zero_iff {n : Nat} (h : n < 2 ^ 32) : Int32.ofNat n < 0 ↔ 2 ^ 31 ≤ n := by
  have h0 : (0 : Int32).toInt = 0 := by decide
  rw [Int32.lt_iff_toInt_lt, h0]
  by_cases hover : 2 ^ 31 ≤ n
  · rw [fileEnd_of_ge hover h]
    omega
  · rw [fileEnd_of_lt (by omega)]
    omega

/-- A write whose end overflows is refused at once. -/
theorem inodeWriteAt_overflow (hallowed : inode.denyWriteCnt = 0) (hpos : 0 < buffer.length)
    (hsize : buffer.length < 2 ^ 31) (hoffset : offset < 2 ^ 31)
    (h : inode.data.length.toInt < offset + buffer.length)
    (hover : 2 ^ 31 ≤ offset + buffer.length) :
    inodeWriteAt inode buffer offset s = .ok (0, inode) s := by
  have hneg := (ofNat_lt_zero_iff (by omega : offset + buffer.length < 2 ^ 32)).mpr hover
  have hfail : inodeReserve inode.data (Int32.ofNat (offset + buffer.length)) s =
      .ok (false, inode.data) s := by
    rw [inodeReserve, if_pos hneg]
    rfl
  rw [inodeWriteAt_eq hallowed hpos hsize hoffset h]
  simp only [inodeExtend, bind, EStateM.bind, hfail]
  rfl

/-- A write for which too few sectors are free returns `0` with what could be reserved. -/
theorem inodeWriteAt_short (hallowed : inode.denyWriteCnt = 0) (hproper : inode.data.Proper)
    (hready : Ready s inode.data.roots) (hpos : 0 < buffer.length) (hsize : buffer.length < 2 ^ 31)
    (hoffset : offset < 2 ^ 31) (h : inode.data.length.toInt < offset + buffer.length)
    (hover : ¬ 2 ^ 31 ≤ offset + buffer.length)
    (hless : s.freeSectors.length <
      (needs s inode.data.roots ((offset + buffer.length + 511) / 512)).length) :
    ∃ d' s' n, inodeWriteAt inode buffer offset s = .ok (0, { inode with data := d' }) s' ∧
      SameInode inode.data d' ∧ Exhausted s s' inode.data.roots d'.roots n ∧
      needs s inode.data.roots n =
        needs s inode.data.roots ((offset + buffer.length + 511) / 512) := by
  have hend := @fileEnd_of_lt (offset + buffer.length) (by omega)
  have hneg := mt (ofNat_lt_zero_iff (by omega : offset + buffer.length < 2 ^ 32)).mp hover
  have hneeds := @needs_bytesToSectors s inode.data hproper _ _ hend
  obtain ⟨rs', s', hres, hexh⟩ := (reserveSectors_spec hproper hready).short (by rwa [hneeds])
  obtain ⟨d', rfl, hsame, hres⟩ := hres
  refine ⟨d', s', _, ?_, hsame, hexh, hneeds⟩
  have hreserve : inodeReserve inode.data (Int32.ofNat (offset + buffer.length)) s =
      .ok (false, d') s' := by
    rw [inodeReserve, if_neg hneg, hres, reserveResult, if_neg (by simp)]
  rw [inodeWriteAt_eq hallowed hpos hsize hoffset h]
  simp only [inodeExtend, bind, EStateM.bind, hreserve]
  rfl

/-- A write behind the largest file fails in `inode_reserve`, even if sectors enough are free. -/
theorem inodeWriteAt_large (hallowed : inode.denyWriteCnt = 0) (hproper : inode.data.Proper)
    (hready : Ready s inode.data.roots) (hpos : 0 < buffer.length) (hsize : buffer.length < 2 ^ 31)
    (hoffset : offset < 2 ^ 31) (h : inode.data.length.toInt < offset + buffer.length)
    (hover : ¬ 2 ^ 31 ≤ offset + buffer.length) (hlarge : 512 * maxSectors < offset + buffer.length)
    (henough : (needs s inode.data.roots ((offset + buffer.length + 511) / 512)).length ≤
      s.freeSectors.length) :
    ∃ s', inodeWriteAt inode buffer offset s = .error .assertFailed s' := by
  have hend := @fileEnd_of_lt (offset + buffer.length) (by omega)
  have hneg := mt (ofNat_lt_zero_iff (by omega : offset + buffer.length < 2 ^ 32)).mp hover
  have hneeds := @needs_bytesToSectors s inode.data hproper _ _ hend
  obtain ⟨rs', s', new, hres, -⟩ :=
    (reserveSectors_spec hproper hready).enough (by rwa [hneeds])
  obtain ⟨d', -, -, hres⟩ := hres
  have hmax : maxSectors < bytesToSectors (Int32.ofNat (offset + buffer.length)) := by
    by_cases hle : (Int32.ofNat (offset + buffer.length)).toInt ≤ 2 ^ 31 - 512
    · rw [bytesToSectors_eq (by omega) hle, hend]
      omega
    · exact bytesToSectors_large (by omega)
  have hreserve : inodeReserve inode.data (Int32.ofNat (offset + buffer.length)) s =
      .error .assertFailed s' := by
    rw [inodeReserve, if_neg hneg, hres, reserveResult, if_pos ⟨rfl, hmax⟩]
  refine ⟨s', ?_⟩
  rw [inodeWriteAt_eq hallowed hpos hsize hoffset h]
  simp only [inodeExtend, bind, EStateM.bind, hreserve]

/-- What is reserved until the disk is full is nothing just where the disk was full and no index block
came first, or one that could not be told from sector `0`. -/
theorem Exhausted.unchanged_iff {d' : InodeDisk} (g : Exhausted s s' d.roots d'.roots n)
    (hsame : SameInode d d') (hne : needs s d.roots n ≠ []) :
    d' = d ∧ s'.used = s.used ∧ s'.disk = s.disk ↔ s.freeSectors = [] ∧
      ((needs s d.roots n).head? = some .data ∨
        (needs s d.roots n).head? = some .index ∧ s.disk 0 = zeros) := by
  by_cases hfree : s.freeSectors = []
  swap
  · refine iff_of_false ?_ fun hand => hfree hand.1
    rintro ⟨-, hused, -⟩
    exact hfree ((freeSectors_congr g.size hused).symm.trans g.free)
  obtain ⟨hroots, hused, hdisk⟩ := g.full hfree
  have hd' : d' = d := eq_of_roots_eq hsame hroots
  obtain ⟨kind, rest, hkind⟩ := List.exists_cons_of_ne_nil hne
  rw [hkind, List.head?_cons] at hdisk ⊢
  cases kind with
  | data =>
    rw [if_neg nofun] at hdisk
    exact iff_of_true ⟨hd', hused, hdisk⟩ ⟨hfree, .inl rfl⟩
  | index =>
    rw [if_pos rfl] at hdisk
    have hzero : s'.disk = s.disk ↔ s.disk 0 = zeros := by
      rw [hdisk, Function.update_eq_self_iff]
      exact eq_comm
    constructor
    · rintro ⟨-, -, hsameDisk⟩
      exact ⟨hfree, .inr ⟨rfl, hzero.mp hsameDisk⟩⟩
    · rintro ⟨-, hor⟩
      exact ⟨hd', hused, hzero.mpr (hor.resolve_left nofun).2⟩

/-- Where growth fails, everything is as before if and only if the end overflows or the disk was full,
and no index block was to be written. -/
theorem inodeWriteAt_failsAtomically_iff (s : Store) (inode : Inode) (buffer : List UInt8)
    (offset : Nat) (hproper : inode.data.Proper) (hready : Ready s inode.data.roots)
    (hpos : 0 < buffer.length) (hsize : buffer.length < 2 ^ 31) (hoffset : offset < 2 ^ 31)
    (h : CannotGrow s inode buffer.length offset) :
    FailsAtomically s inode buffer offset ↔ LeavesNothing s inode buffer.length offset := by
  by_cases hover : 2 ^ 31 ≤ offset + buffer.length
  · have hwrite := @inodeWriteAt_overflow s inode buffer offset h.allowed hpos hsize hoffset h.grows
      hover
    exact iff_of_true ⟨s, hwrite, rfl, rfl, rfl⟩ (.inl hover)
  rw [LeavesNothing, or_iff_right hover]
  by_cases hless : s.freeSectors.length <
      (needs s inode.data.roots ((offset + buffer.length + 511) / 512)).length
  · obtain ⟨d', s', n, hwrite, hsame, hexh, hneeds⟩ := inodeWriteAt_short h.allowed hproper hready
      hpos hsize hoffset h.grows hover hless
    have hne : needs s inode.data.roots n ≠ [] := by
      rw [hneeds]
      exact List.ne_nil_of_length_pos (Nat.lt_of_le_of_lt (Nat.zero_le _) hless)
    rw [← hneeds, ← hexh.unchanged_iff hsame hne]
    constructor
    · rintro ⟨t, ht, hused, hdisk, -⟩
      rw [hwrite] at ht
      simp only [EStateM.Result.ok.injEq, Prod.mk.injEq, true_and] at ht
      rw [← ht.2] at hused hdisk
      exact ⟨congrArg Inode.data ht.1, hused, hdisk⟩
    · rintro ⟨rfl, hused, hdisk⟩
      exact ⟨s', hwrite, hused, hdisk, hexh.file⟩
  · obtain ⟨s', hwrite⟩ := inodeWriteAt_large h.allowed hproper hready hpos hsize hoffset h.grows
      hover (h.reason.resolve_right hless) (by omega)
    refine iff_of_false ?_ ?_
    · rintro ⟨t, ht, -⟩
      rw [hwrite] at ht
      cases ht
    · rintro ⟨hfree, hor⟩
      rw [hfree] at hless
      have hnil : needs s inode.data.roots ((offset + buffer.length + 511) / 512) = [] :=
        List.eq_nil_of_length_eq_zero (by rw [List.length_nil] at hless; omega)
      rw [hnil] at hor
      exact hor.elim (fun hd => by cases hd) fun hi => by cases hi.1

/-- A device with one free sector, and an empty file on it. -/
def scarceDisk : Store where
  size := 5
  disk := fun _ => zeros
  used := fun x => x < 4
  freeMapFile := some (smallFreeMapFile 5)
  notes := []

/-- An empty file that is open. -/
def emptyFile : Inode where
  sector := 3
  openCnt := 1
  removed := false
  denyWriteCnt := 0
  data :=
    { directBlocks := List.replicate 123 0, indirectBlock := 0, doublyIndirectBlock := 0,
      isDir := false, length := 0, magic := inodeMagic }

theorem emptyFile_roots : ∀ r ∈ emptyFile.data.roots, r.2 = 0 := by
  have hall : emptyFile.data.roots.all (fun r => r.2 = 0) = true := by decide +kernel
  intro r hr
  simpa using List.all_eq_true.mp hall r hr

/-- The write of two sectors to the empty file returns `0` and keeps the sector that was free. -/
theorem inodeWriteAt_leaks_sector : ¬ FailsAtomically scarceDisk emptyFile (List.replicate 1024 1) 0 := by
  intro h
  obtain ⟨s', hrun, hused, -⟩ := h
  have hmarked : (storeAfter (inodeWriteAt emptyFile (List.replicate 1024 1) 0) scarceDisk).used 4 =
      true := by decide +kernel
  rw [storeAfter, hrun] at hmarked
  dsimp only at hmarked
  rw [hused] at hmarked
  cases hmarked

/-- The first block of the empty file is a data sector. -/
theorem emptyFile_needs : needs fullDisk emptyFile.data.roots 1 = [.data] := by
  have hroots : emptyFile.data.roots =
      (0, 0) :: (List.replicate 122 (0, 0) ++ [(1, 0)] ++ [(2, 0)]) := by
    rw [roots, emptyFile, List.replicate_succ, List.map_cons, List.map_replicate]
    rfl
  rw [hroots, needs, TreeFormat.needs_cons, TreeFormat.needs_leaf, Nat.pow_zero, Nat.sub_self,
    TreeFormat.needs_zero]
  rfl

theorem inodeWriteAt_failsAtomically_fullDisk : FailsAtomically fullDisk emptyFile [1] 0 := by
  have hready : Ready fullDisk emptyFile.data.roots := ready_below fullDisk_ready.ok emptyFile_roots
  have hfree : fullDisk.freeSectors = [] := by decide +kernel
  have hneeds : (needs fullDisk emptyFile.data.roots 1).head? = some .data := by
    rw [emptyFile_needs]
    rfl
  have hgrow : CannotGrow fullDisk emptyFile 1 0 := by
    refine ⟨rfl, by decide, .inr ?_⟩
    rw [hfree]
    exact (congrArg List.length emptyFile_needs).symm ▸ Nat.zero_lt_one
  exact (inodeWriteAt_failsAtomically_iff fullDisk emptyFile [1] 0 rfl hready (by decide) (by decide)
    (by decide) hgrow).mpr (.inr ⟨hfree, .inl hneeds⟩)

end CSE130.Filesys
