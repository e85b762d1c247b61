import CSE130.Filesys.MountSteps

/-!
# The steps of creating a file

Each part of `filesys_create` that can fail has taken a sector besides that of the inode, or else it has
changed nothing but maybe sector `0`.
-/

namespace CSE130.Filesys

open CSE130.Library InodeDisk Store

variable {s s' s₁ s₂ : Store} {d d' : InodeDisk} {length : Int32} {b : Bool} {x y : Sector}
  {rest : List Sector} {rs : List (Nat × Sector)} {inode inode' : Inode} {buffer : List UInt8}
  {offset : Nat}

/-! ## Growth on a full disk -/

/-- Growth by the given blocks has been refused on a full disk. -/
structure Refused (s s' : Store) (kinds : List BlockKind) : Prop where
  used : s'.used = s.used
  size : s'.size = s.size
  file : s'.freeMapFile = s.freeMapFile
  frame : ∀ y, y ≠ 0 → s'.disk y = s.disk y
  zero : s'.disk 0 = s.disk 0 ↔ kinds.head? ≠ some .index ∨ s.disk 0 = zeros

section Reserve

variable (hd : d.Proper) (h : Ready s d.roots) (hnonneg : ¬ length < 0)
  (hne : needs s d.roots (bytesToSectors length) ≠ [])
  (hrun : inodeReserve d length s = .ok (b, d') s')

include hd h hnonneg hne hrun

/-- Growth that needs blocks takes at least one of the free sectors, whatever comes of it. -/
theorem inodeReserve_marks (hfree : s.freeSectors ≠ []) : ∃ y ∈ s.freeSectors, s'.used y = true := by
  rw [inodeReserve, if_neg hnonneg] at hrun
  have hattempt := @reserveSectors_spec s (bytesToSectors length) d hd h
  obtain ⟨y, rest, hy⟩ := List.exists_cons_of_ne_nil hfree
  by_cases hless : s.freeSectors.length < (needs s d.roots (bytesToSectors length)).length
  · obtain ⟨_, t, ⟨d₁, -, -, hres⟩, hexh⟩ := hattempt.short hless
    rw [reserveResult, if_neg (by simp)] at hres
    cases hres.symm.trans hrun
    have hmem : y ∈ s.freeSectors := by rw [hy]; exact List.mem_cons_self
    refine ⟨y, hmem, ?_⟩
    by_contra hnot
    have hleft : y ∈ s'.freeSectors :=
      mem_freeSectors.mpr ⟨by rw [hexh.size]; exact (mem_freeSectors.mp hmem).1, by simpa using hnot⟩
    rw [hexh.free] at hleft
    cases hleft
  · obtain ⟨_, t, new, ⟨d₁, -, -, hres⟩, hgrown⟩ := hattempt.enough (Nat.not_lt.mp hless)
    have ht : s' = t := by
      rw [reserveResult] at hres
      split_ifs at hres
      · cases hres.symm.trans hrun
      · cases hres.symm.trans hrun
        rfl
    have hcount := hgrown.count
    obtain ⟨z, new', rfl⟩ := List.exists_cons_of_ne_nil (l := new) (by
      rintro rfl
      exact hne (List.eq_nil_of_length_eq_zero hcount.symm))
    refine ⟨z, ?_, ?_⟩
    · rw [hgrown.free]
      exact List.mem_append_left _ List.mem_cons_self
    · rw [ht, hgrown.used]
      exact .inr List.mem_cons_self

theorem inodeReserve_full (hfree : s.freeSectors = []) :
    b = false ∧ d' = d ∧ Refused s s' (needs s d.roots (bytesToSectors length)) := by
  rw [inodeReserve, if_neg hnonneg] at hrun
  have hless : s.freeSectors.length < (needs s d.roots (bytesToSectors length)).length := by
    rw [hfree]
    exact List.length_pos_of_ne_nil hne
  obtain ⟨_, t, ⟨d₁, rfl, hsame, hres⟩, hexh⟩ :=
    (@reserveSectors_spec s (bytesToSectors length) d hd h).short hless
  rw [reserveResult, if_neg (by simp)] at hres
  cases hres.symm.trans hrun
  obtain ⟨hroots, hused, hdisk⟩ := hexh.full hfree
  refine ⟨rfl, eq_of_roots_eq hsame hroots, hused, hexh.size, hexh.file, ?_, ?_⟩
  · intro y hy
    rw [hdisk]
    split_ifs
    · exact Function.update_of_ne hy _ _
    · rfl
  · rw [hdisk]
    split_ifs with hindex
    · rw [Function.update_self]
      simp [hindex, eq_comm]
    · exact iff_of_true rfl (.inl hindex)

end Reserve

/-! ## Writes -/

section Write

variable (hallowed : inode.denyWriteCnt = 0) (hpos : 0 < buffer.length)
  (hend : offset + buffer.length < 2 ^ 31)

/-- A write changes nothing but the data of the in-memory inode. -/
theorem inodeWriteAt_same {written : Nat}
    (hrun : inodeWriteAt inode buffer offset s = .ok (written, inode') s') :
    inode' = { inode with data := inode'.data } := by
  have hextend : ∀ {b : Bool} {fileEnd : Int32} {inode₁ : Inode} {t : Store},
      inodeExtend inode fileEnd s = .ok (b, inode₁) t → inode₁ = { inode with data := inode₁.data } := by
    intro b fileEnd inode₁ t hext
    obtain ⟨⟨b', d₁⟩, t', -, hrest⟩ := ok_of_bind hext
    cases b' with
    | false => cases hrest; rfl
    | true =>
      obtain ⟨_, t'', -, hrest⟩ := ok_of_bind hrest
      cases hrest
      rfl
  rw [inodeWriteAt] at hrun
  split_ifs at hrun
  · cases hrun
    rfl
  obtain ⟨⟨b, inode₁⟩, t, hroom, hrest⟩ := ok_of_bind hrun
  have hsame : inode₁ = { inode with data := inode₁.data } := by
    obtain ⟨sector, t', hsector, hroom⟩ := ok_of_bind hroom
    cases byteToSector_staysIn _ hsector
    split_ifs at hroom
    · exact hextend hroom
    · cases hroom
      rfl
  cases b with
  | false => cases hrest; exact hsame
  | true =>
    obtain ⟨_, t', -, hrest⟩ := ok_of_bind hrest
    cases hrest
    exact hsame

include hallowed hpos hend

/-- What a write does that lets the file grow by blocks. -/
theorem inodeWriteAt_grows {written : Nat} (hd : inode.data.Proper) (h : Ready s inode.data.roots)
    (hgrows : inode.data.length.toInt < offset + buffer.length)
    (hne : needs s inode.data.roots ((offset + buffer.length + 511) / 512) ≠ [])
    (hrun : inodeWriteAt inode buffer offset s = .ok (written, inode') s') :
    (s.freeSectors ≠ [] → ∃ y ∈ s.freeSectors, s'.used y = true) ∧
      (s.freeSectors = [] → written = 0 ∧ inode' = inode ∧
        Refused s s' (needs s inode.data.roots ((offset + buffer.length + 511) / 512))) := by
  have hnonneg : ¬ Int32.ofNat (offset + buffer.length) < 0 := by
    rw [ofNat_lt_zero_iff (by omega)]
    omega
  rw [← needs_bytesToSectors hd (fileEnd_of_lt hend)] at hne ⊢
  rw [inodeWriteAt_eq hallowed hpos (by omega) (by omega) hgrows] at hrun
  obtain ⟨⟨b, inode₁⟩, t, hext, hrest⟩ := ok_of_bind hrun
  obtain ⟨⟨b', d₁⟩, t', hres, hext⟩ := ok_of_bind hext
  constructor
  · intro hfree
    obtain ⟨y, hy, hused⟩ := inodeReserve_marks hd h hnonneg hne hres hfree
    refine ⟨y, hy, ?_⟩
    -- the rest of the write takes no mark away
    have hused' : t.used y = true := by
      cases b' with
      | false => cases hext; exact hused
      | true =>
        obtain ⟨_, t'', hwrite, hext⟩ := ok_of_bind hext
        cases hext
        rw [bufferCacheWrite_staysIn _ _ hwrite]
        exact hused
    cases b with
    | false => cases hrest; exact hused'
    | true =>
      obtain ⟨_, t'', hloop, hrest⟩ := ok_of_bind hrest
      cases hrest
      rw [writeLoop_staysIn _ _ _ hloop]
      exact hused'
  · intro hfree
    obtain ⟨rfl, rfl, hrefused⟩ := inodeReserve_full hd h hnonneg hne hres hfree
    cases hext
    cases hrest
    exact ⟨rfl, rfl, hrefused⟩

/-- A write that needs no further block writes all its bytes. -/
theorem inodeWriteAt_fits {written : Nat} (h : InOrder s inode)
    (hfits : inode.data.length.toInt < offset + buffer.length →
      needs s inode.data.roots ((offset + buffer.length + 511) / 512) = [])
    (hrun : inodeWriteAt inode buffer offset s = .ok (written, inode') s') :
    written = buffer.length := by
  by_cases hin : (offset + buffer.length : Int) ≤ inode.data.length.toInt
  · have hroom := inodeMakeRoom_inside (s := s) (e := offset + buffer.length) h (by omega)
      (by push_cast; exact hin)
    obtain ⟨s₂, hwrite, -⟩ := inodeWriteAt_room hallowed h hroom hin
    cases hwrite.symm.trans hrun
    rfl
  have hroom : inodeMakeRoom inode (Int32.ofNat (offset + buffer.length)) s =
      inodeExtend inode (Int32.ofNat (offset + buffer.length)) s :=
    inodeMakeRoom_outside (by omega) (.inr (by push_cast; omega))
  have henough : ¬ TooFewFree s inode (offset + buffer.length) := by
    rw [TooFewFree, hfits (by omega)]
    exact Nat.not_lt_zero _
  by_cases hlarge : 512 * maxSectors < offset + buffer.length
  · obtain ⟨t, herror⟩ := inodeExtend_large h hend henough hlarge
    have hpanic := inodeWriteAt_panics hallowed (hroom.trans herror)
    cases hpanic.symm.trans hrun
  · obtain ⟨inode₁, t, hgrown, hext⟩ := inodeExtend_grown h henough (Nat.not_lt.mp hlarge)
    have hlength : inode₁.data.length.toInt = ((offset + buffer.length : Nat) : Int) := by
      rw [hext.length, fileEnd_of_lt hend]
    obtain ⟨s₂, hwrite, -⟩ := inodeWriteAt_room hallowed hext.inOrder (hroom.trans hgrown) (by omega)
    cases hwrite.symm.trans hrun
    rfl

end Write

/-! ## One sector taken -/

/-- The sector `x` has been taken, and nothing else has changed but maybe sector `0`. -/
structure Took (s s' : Store) (x : Sector) : Prop where
  ok : s'.FreeMapOk
  used : s'.used = Function.update s.used x true
  size : s'.size = s.size
  file : s'.freeMapFile = s.freeMapFile
  nodes : s'.freeMapNodes = s.freeMapNodes
  frame : ∀ y, y ≠ x → y ≠ 0 → y ∉ s.freeMapNodes → s'.disk y = s.disk y

/-- The rest of the free sectors is what is left. -/
theorem took_allocate (h : s.FreeMapOk) (hfree : s.freeSectors = x :: rest) :
    ∃ s', freeMapAllocate s = .ok (some x) s' ∧ Took s s' x ∧ s'.disk 0 = s.disk 0 ∧
      s'.freeSectors = rest := by
  obtain ⟨s', hrun, hset, hrest⟩ := freeMapAllocate_spec h hfree
  refine ⟨s', hrun, ⟨hset.ok, hset.used, hset.size, hset.file, hset.nodes, ?_⟩, ?_, hrest⟩
  · exact fun y _ _ hy => hset.frame y hy
  · exact hset.frame 0 zero_not_mem_freeMapNodes

section Took

variable (h : Took s s₁ x)

include h

theorem Took.congr (hx : x ∉ s.freeMapNodes) (hused : s₂.used = s₁.used) (hsize : s₂.size = s₁.size)
    (hfile : s₂.freeMapFile = s₁.freeMapFile)
    (hdisk : ∀ y, y ≠ x → y ≠ 0 → s₂.disk y = s₁.disk y) : Took s s₂ x := by
  have hmap : ∀ y ∈ s₁.freeMapNodes, s₂.disk y = s₁.disk y := by
    intro y hy
    refine hdisk y ?_ (ne_of_mem_of_not_mem hy zero_not_mem_freeMapNodes)
    rw [h.nodes] at hy
    exact ne_of_mem_of_not_mem hy hx
  refine ⟨?_, hused.trans h.used, hsize.trans h.size, hfile.trans h.file, ?_, ?_⟩
  · refine h.ok.congr hsize hfile hmap ?_ ?_ ?_
    · rw [hused]; exact h.ok.zero_used
    · rw [hused]; exact h.ok.inRange
    · rw [hused]; exact h.ok.nodes_used
  · rw [freeMapNodes_congr hfile hmap, h.nodes]
  · intro y hyx hzero hout
    rw [hdisk y hyx hzero, h.frame y hyx hzero hout]

theorem Took.marked : s₁.used x = true := by
  rw [h.used, Function.update_self]

theorem Took.stays (hy : s.used y = true) : s₁.used y = true := by
  rw [h.used, Function.update_apply]
  split_ifs
  · rfl
  · exact hy

variable (hfree : s.used x = false)

include hfree

theorem Took.ne (hy : s.used y = true) : y ≠ x := by
  rintro rfl
  rw [hfree] at hy
  cases hy

/-- Files are not concerned. -/
theorem Took.same (hr : Ready s rs) : ∀ y ∈ indexFormat.nodes s.disk rs, s₁.disk y = s.disk y :=
  fun y hy => h.frame y (h.ne hfree (hr.used y hy)) (TreeFormat.ne_zero_of_mem_nodes hy)
    (hr.outside y hy)

theorem Took.ready (hr : Ready s rs) : Ready s₁ rs := by
  have hnodes : indexFormat.nodes s₁.disk rs = indexFormat.nodes s.disk rs :=
    TreeFormat.nodes_congr fun y hy => h.same hfree hr y (TreeFormat.inner_subset_nodes hy)
  refine ⟨h.ok, ?_, ?_, ?_⟩
  · rw [hnodes]
    exact hr.nodup
  · rw [hnodes]
    exact fun y hy => h.stays (hr.used y hy)
  · rw [hnodes, h.nodes]
    exact hr.outside

theorem Took.inOrder (ho : InOrder s inode) : InOrder s₁ inode := by
  have hsame := h.same hfree ho.ready
  have hinner : ∀ y ∈ indexFormat.inner s.disk inode.data.roots, s₁.disk y = s.disk y :=
    fun y hy => hsame y (TreeFormat.inner_subset_nodes hy)
  refine ⟨?_, h.ready hfree ho.ready, h.stays ho.used, ?_, ?_⟩
  · rw [h.size]
    exact ho.covered.congr hinner
  · rw [InodeDisk.nodes, TreeFormat.nodes_congr hinner]
    exact ho.apart
  · rw [h.nodes]
    exact ho.outside

theorem Took.contents (ho : InOrder s inode) :
    inode.data.contents s₁.disk = inode.data.contents s.disk := by
  rw [InodeDisk.contents, InodeDisk.contents, flat_congr (h.same hfree ho.ready)]

theorem Took.needs (hr : Ready s rs) (n : Nat) : needs s₁ rs n = needs s rs n :=
  TreeFormat.needs_congr fun y hy => h.same hfree hr y (TreeFormat.inner_subset_nodes hy)

end Took

/-! ## `inode_create` -/

theorem emptyInode_needs {isDir : Bool} {n : Nat} (hn : 0 < n) :
    (needs s (emptyInode isDir).roots n).head? = some .data := by
  have hroots : (emptyInode isDir).roots =
      (0, 0) :: (List.replicate 122 (0, 0) ++ [(1, 0)] ++ [(2, 0)]) := by
    rw [roots, emptyInode, directBlocksCount, List.replicate_succ, List.map_cons, List.map_replicate]
    rfl
  rw [hroots, Filesys.needs, TreeFormat.needs_cons, TreeFormat.needs_leaf, if_pos ⟨rfl, hn⟩]
  rfl

theorem bytesToSectors_pos (h : 0 < length.toInt) : 0 < bytesToSectors length := by
  by_cases hle : length.toInt ≤ 2 ^ 31 - 512
  · rw [bytesToSectors_eq (by omega) hle]
    omega
  · exact Nat.zero_lt_of_lt (bytesToSectors_large (by omega))

/-- The inode that `inode_create` starts from. -/
def newInode (length : Int32) (isDir : Bool) : InodeDisk := { emptyInode isDir with length := length }

theorem newInode_ready {isDir : Bool} (h : s.FreeMapOk) : Ready s (newInode length isDir).roots :=
  ready_below h fun r hr => @emptyInode_roots isDir r hr

theorem newInode_proper {isDir : Bool} : (newInode length isDir).Proper := rfl

/-- An inode with data needs a data sector first. -/
theorem newInode_needs {isDir : Bool} (hnonneg : 0 ≤ length.toInt) (hne : length ≠ 0) :
    ¬ length < 0 ∧
      (needs s (newInode length isDir).roots (bytesToSectors length)).head? = some .data := by
  have hpos : length.toInt ≠ 0 := fun hzero => hne (Int32.toInt_inj.mp hzero)
  refine ⟨?_, @emptyInode_needs s isDir _ (bytesToSectors_pos (by omega))⟩
  rw [Int32.lt_iff_toInt_lt, Int32.toInt_zero]
  omega

/-- What comes before the inode is written to its sector. -/
theorem ok_of_inodeCreate {isDir : Bool} (hrun : inodeCreate x length isDir s = .ok b s') :
    0 ≤ length.toInt ∧ ∃ d' t, inodeReserve (newInode length isDir) length s = .ok (b, d') t ∧
      s' = if b then t.write x d'.toSector else t := by
  rw [inodeCreate] at hrun
  obtain ⟨_, t₀, hassert, hrun⟩ := ok_of_bind hrun
  rw [assert] at hassert
  split_ifs at hassert with hle
  cases hassert
  rw [Int32.le_iff_toInt_le, Int32.toInt_zero] at hle
  obtain ⟨⟨b', d'⟩, t, hres, hrest⟩ := ok_of_bind hrun
  refine ⟨hle, d', t, ?_⟩
  cases b' with
  | false =>
    cases hrest
    exact ⟨hres, rfl⟩
  | true =>
    obtain ⟨_, t', hwrite, hrest⟩ := ok_of_bind hrest
    cases hrest
    rw [bufferCacheWrite] at hwrite
    split_ifs at hwrite
    cases hwrite
    exact ⟨hres, rfl⟩

section Create

variable {isDir : Bool} (hok : s.FreeMapOk) (hrun : inodeCreate x length isDir s = .ok b s')

include hok hrun

/-- An inode with data takes one of the free sectors, if there is one. -/
theorem inodeCreate_marks (hne : length ≠ 0) (hfree : s.freeSectors ≠ []) :
    ∃ y ∈ s.freeSectors, s'.used y = true := by
  obtain ⟨hnonneg, d', t, hres, rfl⟩ := ok_of_inodeCreate hrun
  obtain ⟨hneg, hhead⟩ := @newInode_needs s length isDir hnonneg hne
  have hneeds : needs s (newInode length isDir).roots (bytesToSectors length) ≠ [] := by
    intro hnil
    rw [hnil] at hhead
    cases hhead
  obtain ⟨y, hy, hused⟩ :=
    inodeReserve_marks newInode_proper (newInode_ready hok) hneg hneeds hres hfree
  refine ⟨y, hy, ?_⟩
  split_ifs
  · exact hused
  · exact hused

/-- On a full disk there is no sector for data. -/
theorem inodeCreate_full (hne : length ≠ 0) (hfree : s.freeSectors = []) :
    b = false ∧ s'.used = s.used ∧ s'.size = s.size ∧ s'.freeMapFile = s.freeMapFile ∧
      s'.disk = s.disk := by
  obtain ⟨hnonneg, d', t, hres, rfl⟩ := ok_of_inodeCreate hrun
  obtain ⟨hneg, hhead⟩ := @newInode_needs s length isDir hnonneg hne
  have hneeds : needs s (newInode length isDir).roots (bytesToSectors length) ≠ [] := by
    intro hnil
    rw [hnil] at hhead
    cases hhead
  obtain ⟨rfl, -, hrefused⟩ :=
    inodeReserve_full newInode_proper (newInode_ready hok) hneg hneeds hres hfree
  refine ⟨rfl, hrefused.used, hrefused.size, hrefused.file, ?_⟩
  funext y
  by_cases hy : y = 0
  · subst hy
    refine hrefused.zero.mpr (.inl ?_)
    rw [hhead]
    simp
  · exact hrefused.frame y hy

end Create

/-- An inode without data is only written to its sector. -/
theorem inodeCreate_empty {isDir : Bool} (hrun : inodeCreate x 0 isDir s = .ok b s') :
    b = true ∧ s' = s.write x (emptyInode isDir).toSector := by
  obtain ⟨-, d', t, hres, rfl⟩ := ok_of_inodeCreate hrun
  have hnone : inodeReserve (newInode 0 isDir) 0 s = .ok (true, emptyInode isDir) s := by
    have hzero : bytesToSectors 0 = 0 := by decide
    rw [inodeReserve, if_neg (by decide), hzero]
    rfl
  cases hnone.symm.trans hres
  exact ⟨rfl, rfl⟩

end CSE130.Filesys
