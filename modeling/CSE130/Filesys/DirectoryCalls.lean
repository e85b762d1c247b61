import CSE130.Filesys.DirectoryMap

/-!
# Runs of calls on a directory

`dir_create` and `dir_add` leave the byte `in_use` of the first slot, that of the parent, as it happens to
be. Where it is zero, the next `dir_add` on the directory takes the first slot: the parent is lost, and
the new name is not found. Otherwise the directory is a finite map.
-/

namespace CSE130.Filesys

open CSE130.Library DirEntry Volume

variable {vol vol' vol₁ vol₂ : Volume} {d p sector : Sector} {e first : DirEntry}
  {tail : List DirEntry} {name : List UInt8} {grows isDir : Bool} {map : NameMap}

/-! ## Writing an entry -/

/-- The write of an entry. -/
theorem writeEntry_cases {offset : Nat} (e : DirEntry) :
    vol.inodeWriteAt grows sector e.toBytes offset = (0, vol) ∧ grows = false ∧
      (vol.bytes sector).length < offset + entrySize ∨
    ∃ vol', vol.inodeWriteAt grows sector e.toBytes offset = (entrySize, vol') ∧
      vol'.bytes sector = writeAt (vol.bytes sector) offset e.toBytes ∧
      ∀ x, x ≠ sector → vol'.bytes x = vol.bytes x := by
  unfold inodeWriteAt
  rw [length_toBytes]
  split_ifs with h
  · right
    exact ⟨_, rfl, Function.update_self _ _ _, fun x hx => Function.update_of_ne hx _ _⟩
  · left
    rw [not_or, Nat.not_le, Bool.not_eq_true] at h
    exact ⟨rfl, h.1, h.2⟩

/-- The write of a slot that is there. -/
theorem writeEntry_slot {pre post : List DirEntry} {x y : DirEntry}
    (h : vol.bytes d = slotBytes (pre ++ x :: post)) :
    ∃ vol', vol.inodeWriteAt grows d y.toBytes (entrySize * pre.length) = (entrySize, vol') ∧
      vol'.bytes d = slotBytes (pre ++ y :: post) := by
  rcases @writeEntry_cases vol d grows (entrySize * pre.length) y with
    ⟨-, -, hshort⟩ | ⟨vol', hwrite, hbytes, -⟩
  · rw [h, length_slotBytes, List.length_append, List.length_cons] at hshort
    unfold entrySize at hshort
    omega
  · refine ⟨vol', hwrite, ?_⟩
    rw [hbytes, h, writeAt_slot]

/-! ## Adding a name -/

/-- `dir_add` gets as far as the search for a free slot. -/
def ReachesSlots (vol : Volume) (grows : Bool) (e : DirEntry) (d : Sector) (name : List UInt8)
    (sector : Sector) (isDir : Bool) : Prop :=
  name ≠ [] ∧ name.length ≤ nameMax ∧ vol.lookup d name = none ∧
    (vol.linkParent grows e d sector isDir).1 = true

theorem linkParent_of_false (h : (vol.linkParent grows e d sector isDir).1 = false) :
    (vol.linkParent grows e d sector isDir).2.2 = vol := by
  unfold linkParent at h ⊢
  cases isDir with
  | false => cases h
  | true =>
    simp only [if_true] at h ⊢
    rcases @writeEntry_cases vol sector grows 0 { e with inodeSector := d } with
      ⟨hnone, -⟩ | ⟨vol', hwrite, -⟩
    · rw [hnone]
    · rw [hwrite] at h
      simp at h

theorem linkParent_bytes (h : isDir = true → sector ≠ d) :
    (vol.linkParent grows e d sector isDir).2.2.bytes d = vol.bytes d := by
  unfold linkParent
  cases isDir with
  | false => rfl
  | true =>
    simp only [if_true]
    rcases @writeEntry_cases vol sector grows 0 { e with inodeSector := d } with
      ⟨hnone, -⟩ | ⟨vol', hwrite, -, hothers⟩
    · rw [hnone]
    · rw [hwrite]
      exact hothers d (Ne.symm (h rfl))

theorem dirAdd_of_not (h : ¬ ReachesSlots vol grows e d name sector isDir) :
    vol.dirAdd grows e d name sector isDir = (false, vol) := by
  unfold dirAdd
  split_ifs with hinvalid hused
  · rfl
  · rfl
  · have hnone : vol.lookup d name = none := by simpa using hused
    rw [not_or, Nat.not_lt] at hinvalid
    have hfalse : (vol.linkParent grows e d sector isDir).1 = false := by
      by_contra hlinked
      exact h ⟨hinvalid.1, hinvalid.2, hnone, by simpa using hlinked⟩
    rw [← linkParent_of_false hfalse]
    simp [hfalse, linkParent_of_false hfalse]

theorem dirAdd_of (h : ReachesSlots vol grows e d name sector isDir) :
    vol.dirAdd grows e d name sector isDir =
      (vol.linkParent grows e d sector isDir).2.2.writeSlot grows
        (vol.linkParent grows e d sector isDir).2.1 d name sector := by
  obtain ⟨hname, hlen, hnone, hlinked⟩ := h
  have hvalid : ¬ (name = [] ∨ nameMax < name.length) := by
    rw [not_or, Nat.not_lt]
    exact ⟨hname, hlen⟩
  rw [dirAdd, if_neg hvalid, hnone]
  simp [hlinked]

/-- The entry that `dir_add` writes. -/
theorem newEntry_entries (e : DirEntry) (hlen : name.length ≤ nameMax) (h0 : 0 ∉ name)
    (l : List DirEntry) :
    entries ({ e.setName name with inUse := 1, inodeSector := sector } :: l) =
      (name, sector) :: entries l := by
  have hname : ({ e.setName name with inUse := 1, inodeSector := sector } : DirEntry).cname = name :=
    cname_setName e hlen h0
  have hused : (1 : UInt8) ≠ 0 := by decide
  rw [entries_cons_used hused, hname]

/-- A free slot behind the first one is used, or one is added at the end. -/
theorem writeSlot_keeps (h : DirOk vol d p first tail map) (hused : first.inUse ≠ 0)
    (hlen : name.length ≤ nameMax) (h0 : 0 ∉ name) (hnone : map name = none) :
    vol.writeSlot grows e d name sector = (false, vol) ∧ grows = false ∧
      (∀ y ∈ tail, y.inUse ≠ 0) ∨
    ∃ vol' tail', vol.writeSlot grows e d name sector = (true, vol') ∧
      DirOk vol' d p first tail' (Function.update map name (some sector)) ∧
      (tail'.length = tail.length ∨ tail'.length = tail.length + 1 ∧ ∀ y ∈ tail, y.inUse ≠ 0) := by
  have hfirst : decide (first.inUse = 0) = false := by simpa using hused
  rcases first_or_none (fun e => e.inUse = 0) tail with ⟨mid, x, post, htail, hmid, hx⟩ | hfull
  · right
    have hslots : vol.bytes d = slotBytes ([] ++ (first :: mid) ++ x :: post) := by
      rw [h.slots, htail]
      rfl
    have hscan := @scanFrom_found vol d e x [] (first :: mid) post (fun e => e.inUse = 0) hslots (by
      intro y hy
      cases hy with
      | head => exact hfirst
      | tail _ hy => exact hmid y hy) hx
    rw [List.length_nil, Nat.mul_zero, List.nil_append] at hscan
    obtain ⟨vol', hwrite, hbytes⟩ := @writeEntry_slot vol d grows (first :: mid) post x
      { x.setName name with inUse := 1, inodeSector := sector } hslots
    refine ⟨vol', mid ++ { x.setName name with inUse := 1, inodeSector := sector } :: post, ?_,
      ⟨hbytes, h.parent, ?_⟩, .inl ?_⟩
    · rw [writeSlot, hscan]
      dsimp only
      rw [hwrite]
      rfl
    · have hx0 : x.inUse = 0 := by simpa using hx
      have hold := h.lists
      rw [htail, entries_append, entries_cons_free hx0] at hold
      refine (hold.insert hnone).perm ?_
      rw [entries_append, newEntry_entries x hlen h0]
      exact List.perm_middle
    · rw [htail, List.length_append, List.length_append, List.length_cons, List.length_cons]
  · have hallUsed : ∀ y ∈ tail, y.inUse ≠ 0 := fun y hy => by simpa using hfull y hy
    have hslots : vol.bytes d = slotBytes ([] ++ (first :: tail)) := h.slots
    obtain ⟨e', hscan⟩ := @scanFrom_none vol d e [] (first :: tail) (fun e => e.inUse = 0) hslots (by
      intro y hy
      cases hy with
      | head => exact hfirst
      | tail _ hy => exact hfull y hy)
    rw [List.length_nil, Nat.mul_zero, List.nil_append] at hscan
    rcases @writeEntry_cases vol d grows (entrySize * (first :: tail).length)
      { e'.setName name with inUse := 1, inodeSector := sector } with
      ⟨hwrite, hgrows, -⟩ | ⟨vol', hwrite, hbytes, -⟩
    · left
      refine ⟨?_, hgrows, hallUsed⟩
      rw [writeSlot, hscan]
      dsimp only
      rw [hwrite]
      rfl
    · right
      refine ⟨vol', tail ++ [{ e'.setName name with inUse := 1, inodeSector := sector }], ?_,
        ⟨?_, h.parent, ?_⟩, .inr ⟨?_, hallUsed⟩⟩
      · rw [writeSlot, hscan]
        dsimp only
        rw [hwrite]
        rfl
      · rw [hbytes, h.slots, writeAt_end]
        rfl
      · refine (h.lists.insert hnone).perm ?_
        rw [entries_append, newEntry_entries e' hlen h0]
        exact List.perm_append_singleton _ _
      · rw [List.length_append, List.length_singleton]

/-- Where the first slot is not marked, the new entry goes there. -/
theorem writeSlot_first (h : DirOk vol d p first tail map) (hfree : first.inUse = 0) :
    ∃ vol' p' first', vol.writeSlot grows e d name sector = (true, vol') ∧
      DirOk vol' d p' first' tail map := by
  have hslots : vol.bytes d = slotBytes ([] ++ [] ++ first :: tail) := h.slots
  have hscan := @scanFrom_found vol d e first [] [] tail (fun e => e.inUse = 0) hslots nofun
    (by simpa using hfree)
  rw [List.append_nil, List.length_nil, Nat.mul_zero] at hscan
  obtain ⟨vol', hwrite, hbytes⟩ := @writeEntry_slot vol d grows [] tail first
    { first.setName name with inUse := 1, inodeSector := sector } h.slots
  rw [List.length_nil, Nat.mul_zero] at hwrite
  refine ⟨vol', sector, { first.setName name with inUse := 1, inodeSector := sector }, ?_,
    ⟨hbytes, rfl, h.lists⟩⟩
  rw [writeSlot, hscan]
  dsimp only
  rw [hwrite]
  rfl

/-! ## Removing a name -/

theorem dirRemove_keeps (h : DirOk vol d p first tail map)
    (hfile : ∀ e ofs, vol.lookup d name = some (e, ofs) → vol.isDir e.inodeSector = false) :
    vol.dirRemove grows d name = (false, vol) ∧ map name = none ∨
    ∃ vol' tail', vol.dirRemove grows d name = (true, vol') ∧
      DirOk vol' d p first tail' (Function.update map name none) := by
  rcases @lookup_cases vol d p first tail name map h with
    ⟨pre, x, post, htail, hx, hname, hlookup, hmap⟩ | ⟨hlookup, hmap⟩
  · right
    have hslots : vol.bytes d = slotBytes ((first :: pre) ++ x :: post) := by
      rw [h.slots, htail]
      rfl
    obtain ⟨vol', hwrite, hbytes⟩ := @writeEntry_slot vol d grows (first :: pre) post x
      { x with inUse := 0 } hslots
    have hnotDir : ¬ (vol.isDir x.inodeSector = true ∧ vol.dirIsEmpty x.inodeSector = false) := by
      rw [hfile x _ hlookup]
      simp
    refine ⟨vol', pre ++ { x with inUse := 0 } :: post, ?_, hbytes, h.parent, ?_⟩
    · simp only [dirRemove, hlookup, if_neg hnotDir, hwrite]
      rfl
    · have hold := h.lists
      rw [htail, entries_append, entries_cons_used hx, hname] at hold
      rw [entries_append, entries_cons_free (by rfl)]
      exact (hold.perm List.perm_middle.symm).remove
  · left
    refine ⟨?_, hmap⟩
    simp only [dirRemove, hlookup]

/-! ## Runs -/

/-- The calls on a directory; in `other` the other inodes come to have new bytes. -/
inductive DirCall where
  | add (grows : Bool) (e : DirEntry) (name : List UInt8) (sector : Sector) (isDir : Bool)
  | remove (grows : Bool) (name : List UInt8)
  | other (vol : Volume)

/-- A name is a string, a directory is not added to itself, and what is removed is a file. -/
def Admissible (d : Sector) (vol : Volume) : DirCall → Prop
  | .add _ _ name sector isDir => 0 ∉ name ∧ (isDir = true → sector ≠ d)
  | .remove _ name =>
    ∀ e ofs, vol.lookup d name = some (e, ofs) → vol.isDir e.inodeSector = false
  | .other vol' => vol'.bytes d = vol.bytes d

/-- The first slot is marked where a free slot is searched for. -/
def ParentMarked (d : Sector) (vol : Volume) : DirCall → Prop
  | .add grows e name sector isDir => ReachesSlots vol grows e d name sector isDir →
    (ofBytes (vol.inodeReadAt d entrySize 0)).inUse ≠ 0
  | _ => True

/-- The volume after a call, and the names that have been added and not removed since. -/
def afterCall (d : Sector) (vol : Volume) (map : NameMap) : DirCall → Volume × NameMap
  | .add grows e name sector isDir =>
    let (success, vol) := vol.dirAdd grows e d name sector isDir
    (vol, if success then Function.update map name (some sector) else map)
  | .remove grows name =>
    let (success, vol) := vol.dirRemove grows d name
    (vol, if success then Function.update map name none else map)
  | .other vol => (vol, map)

/-- The states of a run. -/
def states (d : Sector) : Volume → NameMap → List DirCall → List (Volume × NameMap)
  | vol, map, [] => [(vol, map)]
  | vol, map, c :: calls =>
    (vol, map) :: states d (afterCall d vol map c).1 (afterCall d vol map c).2 calls

/-- A condition on the calls of a run and the states before them. -/
def EveryCall (C : Sector → Volume → DirCall → Prop) (d : Sector) :
    Volume → NameMap → List DirCall → Prop
  | _, _, [] => True
  | vol, map, c :: calls =>
    C d vol c ∧ EveryCall C d (afterCall d vol map c).1 (afterCall d vol map c).2 calls

variable {c : DirCall} {calls : List DirCall}

theorem DirOk.congr (h : DirOk vol d p first tail map) (hbytes : vol'.bytes d = vol.bytes d) :
    DirOk vol' d p first tail map := ⟨hbytes.trans h.slots, h.parent, h.lists⟩

theorem DirOk.firstSlot (h : DirOk vol d p first tail map) :
    ofBytes (vol.inodeReadAt d entrySize 0) = first := by
  have hread := @read_slot vol d first [] tail h.slots
  rw [List.length_nil, Nat.mul_zero] at hread
  rw [hread, ofBytes_toBytes]

theorem DirOk.length_bytes (h : DirOk vol d p first tail map) :
    (vol.bytes d).length = entrySize * (tail.length + 1) := by
  rw [h.slots, length_slotBytes, List.length_cons]

/-- `dir_add` of a file under a new name. -/
theorem dirAdd_file (h : DirOk vol d p first tail map) (hname : name ≠ []) (hlen : name.length ≤ nameMax)
    (hnone : map name = none) :
    vol.dirAdd grows e d name sector false = vol.writeSlot grows e d name sector := by
  have hlookup : vol.lookup d name = none := by
    rcases @lookup_cases vol d p first tail name map h with
      ⟨pre, y, post, -, -, -, -, hmap⟩ | ⟨hlookup, -⟩
    · rw [hnone] at hmap
      cases hmap
    · exact hlookup
  have hreach : ReachesSlots vol grows e d name sector false := ⟨hname, hlen, hlookup, rfl⟩
  exact dirAdd_of hreach

theorem mem_states (d : Sector) (vol : Volume) (map : NameMap) (calls : List DirCall) :
    (vol, map) ∈ states d vol map calls := by
  cases calls with
  | nil => exact List.mem_singleton_self _
  | cons c calls => exact List.mem_cons_self

/-- Where the first slot is marked, a call leaves a map behind. -/
theorem afterCall_ok (h : DirOk vol d p first tail map) (hadm : Admissible d vol c)
    (hmarked : ParentMarked d vol c) :
    ∃ tail', DirOk (afterCall d vol map c).1 d p first tail' (afterCall d vol map c).2 := by
  cases c with
  | add grows e name sector isDir =>
    by_cases hreach : ReachesSlots vol grows e d name sector isDir
    · have hused : first.inUse ≠ 0 := h.firstSlot ▸ hmarked hreach
      have hok := h.congr (@linkParent_bytes vol d sector e grows isDir hadm.2)
      have hnone : map name = none := map_of_lookup_none h hreach.2.2.1
      simp only [afterCall, dirAdd_of hreach]
      rcases @writeSlot_keeps _ d p sector (vol.linkParent grows e d sector isDir).2.1 _ _ name grows _
        hok hused hreach.2.1 hadm.1 hnone with ⟨hfull, -, -⟩ | ⟨vol', tail', hwrite, hok', -⟩
      · rw [hfull]
        exact ⟨tail, hok⟩
      · rw [hwrite]
        exact ⟨tail', hok'⟩
    · simp only [afterCall, dirAdd_of_not hreach]
      exact ⟨tail, h⟩
  | remove grows name =>
    simp only [afterCall]
    rcases @dirRemove_keeps vol d p first tail name grows map h hadm with
      ⟨hnone, -⟩ | ⟨vol', tail', hremove, hok⟩
    · rw [hnone]
      exact ⟨tail, h⟩
    · rw [hremove]
      exact ⟨tail', hok⟩
  | other vol' => exact ⟨tail, h.congr hadm⟩

/-- Where it is not, the new name takes the slot of the parent and cannot be found. -/
theorem afterCall_lost (h : DirOk vol d p first tail map) (hadm : Admissible d vol c)
    (hnot : ¬ ParentMarked d vol c) :
    ¬ IsMap (afterCall d vol map c).1 d p (afterCall d vol map c).2 := by
  cases c with
  | add grows e name sector isDir =>
    simp only [ParentMarked, not_forall, not_not] at hnot
    obtain ⟨hreach, hfree⟩ := hnot
    rw [h.firstSlot] at hfree
    have hok := h.congr (@linkParent_bytes vol d sector e grows isDir hadm.2)
    obtain ⟨vol', p', first', hwrite, hok'⟩ := @writeSlot_first _ d p sector
      (vol.linkParent grows e d sector isDir).2.1 _ _ name grows _ hok hfree
    have hnone : map name = none := map_of_lookup_none h hreach.2.2.1
    simp only [afterCall, dirAdd_of hreach, hwrite, if_true]
    intro hlost
    have hin := (hlost.names name).mpr (by rw [Function.update_self]; rfl)
    have hout := (hok'.isMap.names name).mp hin
    rw [hnone] at hout
    cases hout
  | remove grows name => exact absurd trivial hnot
  | other vol' => exact absurd trivial hnot

/-- A run shows a finite map in every state if and only if the first slot is marked whenever a free slot
is searched for. -/
theorem states_isMap_iff (h : DirOk vol d p first tail map)
    (hadm : EveryCall Admissible d vol map calls) :
    (∀ st ∈ states d vol map calls, IsMap st.1 d p st.2) ↔ EveryCall ParentMarked d vol map calls := by
  induction calls generalizing vol map tail with
  | nil =>
    refine iff_of_true ?_ trivial
    intro st hst
    rw [List.mem_singleton.mp hst]
    exact h.isMap
  | cons c calls ih =>
    by_cases hmarked : ParentMarked d vol c
    · obtain ⟨tail', hok⟩ := afterCall_ok h hadm.1 hmarked
      have hrest := ih hok hadm.2
      constructor
      · exact fun hall => ⟨hmarked, hrest.mp fun st hst => hall st (List.mem_cons_of_mem _ hst)⟩
      · intro hall st hst
        cases hst with
        | head => exact h.isMap
        | tail _ hst => exact hrest.mpr hall.2 st hst
    · refine iff_of_false ?_ fun hall => hmarked hall.1
      intro hall
      exact afterCall_lost h hadm.1 hmarked
        (hall _ (List.mem_cons_of_mem _ (mem_states _ _ _ _)))

/-! ## A new directory -/

theorem dirCreate_slots {cnt : Nat} (h : vol.dirCreate grows e d cnt = (true, vol₁)) :
    vol₁.bytes d = slotBytes ({ e with inodeSector := d } :: List.replicate (cnt - 1) zero) := by
  unfold dirCreate inodeCreate at h
  split_ifs at h with hgrows
  case neg => cases h
  simp only [if_true] at h
  rcases @writeEntry_cases _ d grows 0 { e with inodeSector := d } with
    ⟨hnone, -⟩ | ⟨vol', hwrite, hbytes, -⟩
  · rw [hnone] at h
    cases h
  · rw [hwrite] at h
    cases h
    dsimp only at hbytes
    rw [hbytes, Function.update_self, ← slotBytes_replicate]
    cases cnt with
    | zero => exact @writeAt_end { e with inodeSector := d } []
    | succ cnt => exact @writeAt_slot zero _ [] _

theorem linkParent_slots {l : List DirEntry}
    (hbytes : vol.bytes d = slotBytes (first :: l)) :
    (vol.linkParent grows e p d true).2.2.bytes d = slotBytes ({ e with inodeSector := p } :: l) := by
  obtain ⟨vol', hwrite, hslot⟩ := @writeEntry_slot vol d grows [] l first { e with inodeSector := p }
    hbytes
  rw [List.length_nil, Nat.mul_zero] at hwrite
  simp only [linkParent, if_true, hwrite]
  exact hslot

theorem writeSlot_others (h : d ≠ p) :
    (vol.writeSlot grows e p name sector).2.bytes d = vol.bytes d := by
  unfold writeSlot
  obtain ⟨found, e', ofs⟩ := vol.scanFrom p (fun e => e.inUse = 0) e 0
  rcases @writeEntry_cases vol p grows ofs { e'.setName name with inUse := 1, inodeSector := sector } with
    ⟨hnone, -⟩ | ⟨vol', hwrite, -, hothers⟩
  · dsimp only
    rw [hnone]
  · dsimp only
    rw [hwrite]
    exact hothers d h

/-- A directory that has been created and linked holds the empty map. Its first slot has the bytes that
the variable in `dir_add` had. -/
theorem linked_ok {cnt : Nat} {e' : DirEntry} {grows' : Bool}
    (hcreate : vol.dirCreate grows e d cnt = (true, vol₁))
    (hlink : vol₁.dirAdd grows' e' p name d true = (true, vol₂)) (hne : d ≠ p) :
    DirOk vol₂ d p { e' with inodeSector := p } (List.replicate (cnt - 1) zero) fun _ => none := by
  have hbytes := dirCreate_slots hcreate
  have hreach : ReachesSlots vol₁ grows' e' p name d true := by
    by_contra hnot
    rw [dirAdd_of_not hnot] at hlink
    cases hlink
  rw [dirAdd_of hreach] at hlink
  have hsecond := congrArg (fun r => r.2.bytes d) hlink
  dsimp only at hsecond
  rw [writeSlot_others hne, linkParent_slots hbytes] at hsecond
  refine ⟨hsecond.symm, rfl, ?_⟩
  rw [entries_of_free]
  · exact ⟨List.nodup_nil, fun n s => iff_of_false nofun List.not_mem_nil⟩
  · intro y hy
    rw [List.eq_of_mem_replicate hy]
    rfl

/-- A directory that has been created and linked shows a finite map in every state of a run if and only
if its first slot is marked whenever `dir_add` searches it for a free slot. -/
theorem directory_isMap_iff {cnt : Nat} {e' : DirEntry} {grows' : Bool}
    (hcreate : vol.dirCreate grows e d cnt = (true, vol₁))
    (hlink : vol₁.dirAdd grows' e' p name d true = (true, vol₂)) (hne : d ≠ p)
    (hadm : EveryCall Admissible d vol₂ (fun _ => none) calls) :
    (∀ st ∈ states d vol₂ (fun _ => none) calls, IsMap st.1 d p st.2) ↔
      EveryCall ParentMarked d vol₂ (fun _ => none) calls :=
  states_isMap_iff (linked_ok hcreate hlink hne) hadm

/-- Empty inodes. -/
def emptyVolume : Volume where
  bytes := fun _ => []
  isDir := fun _ => false

/-- A directory in sector `5` that has been created and linked from sector `1`, where the variable in
`dir_add` had the bytes of `e`. -/
def linkedVolume (e : DirEntry) : Volume :=
  ((emptyVolume.dirCreate true zero 5 0).2.dirAdd true e 1 [100] 5 true).2

/-- Adding a file, and removing it again. -/
def addRemove : List DirCall := [.add true zero [97] 7 false, .remove true [97]]

theorem directory_isMap_linked :
    EveryCall ParentMarked 5 (linkedVolume { zero with inUse := 1 }) (fun _ => none) addRemove ∧
      ∀ st ∈ states 5 (linkedVolume { zero with inUse := 1 }) (fun _ => none) addRemove,
        IsMap st.1 5 1 st.2 := by
  have hcreate : emptyVolume.dirCreate true zero 5 0 =
      (true, (emptyVolume.dirCreate true zero 5 0).2) := Prod.ext (by decide +kernel) rfl
  have hlink : (emptyVolume.dirCreate true zero 5 0).2.dirAdd true { zero with inUse := 1 } 1 [100] 5
      true = (true, linkedVolume { zero with inUse := 1 }) := Prod.ext (by decide +kernel) rfl
  have hadm : EveryCall Admissible 5 (linkedVolume { zero with inUse := 1 }) (fun _ => none)
      addRemove := by
    simp only [addRemove, EveryCall]
    refine ⟨⟨by decide, by simp⟩, ?_, trivial⟩
    intro e ofs hlookup
    have hfile : ((afterCall 5 (linkedVolume { zero with inUse := 1 }) (fun _ => none)
        (.add true zero [97] 7 false)).1.lookup 5 [97]).map (fun r => r.1.inodeSector) = some 7 := by
      decide +kernel
    rw [hlookup, Option.map_some, Option.some_inj] at hfile
    rw [hfile]
    decide +kernel
  have hmarked : EveryCall ParentMarked 5 (linkedVolume { zero with inUse := 1 }) (fun _ => none)
      addRemove := by
    simp only [addRemove, EveryCall]
    exact ⟨fun _ => by decide +kernel, trivial, trivial⟩
  exact ⟨hmarked, (directory_isMap_iff hcreate hlink (by decide) hadm).mpr hmarked⟩

/-- With zeros in the variable the file takes the slot of the parent. -/
theorem directory_loses_parent :
    ¬ ∀ st ∈ states 5 (linkedVolume zero) (fun _ => none) addRemove, IsMap st.1 5 1 st.2 := by
  intro h
  have hmap := h _ (List.mem_cons_of_mem _ (mem_states _ _ _ _))
  have hparent := hmap.parent zero
  have hlost : (afterCall 5 (linkedVolume zero) (fun _ => none) (.add true zero [97] 7 false)).1.dirLookup
      zero 5 dotDot = some 7 := by decide +kernel
  rw [hlost] at hparent
  cases hparent

end CSE130.Filesys
