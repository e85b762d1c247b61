import CSE130.Filesys.Directory

/-!
# Directories as finite maps

A directory is a list of slots. The slots behind the first one hold a finite map from names to sectors;
the first one holds the parent. Whether the parent stays there depends on a byte of the first slot that
is never set: the search for a free slot looks at it.
-/

namespace CSE130.Filesys

open CSE130.Library DirEntry Volume

variable {vol vol' : Volume} {d p sector : Sector} {e x y first : DirEntry}
  {slots pre mid post tail : List DirEntry} {name : List UInt8} {P : DirEntry → Bool}
  {rounds : Nat} {grows isDir : Bool}

/-! ## Entries and slots -/

theorem DirEntry.length_toBytes (e : DirEntry) : e.toBytes.length = entrySize := by
  have hsize := e.size
  simp only [toBytes, List.length_append, hsize, List.length_singleton]
  rfl

theorem DirEntry.ofBytes_toBytes (e : DirEntry) : ofBytes e.toBytes = e := by
  obtain ⟨sector, name, inUse, hsize⟩ := e
  have hbytes : toBytes ⟨sector, name, inUse, hsize⟩ = wordBytes sector ++ name ++ [inUse] := rfl
  have hword : (wordBytes sector).length = 4 := rfl
  rw [hbytes, ofBytes]
  congr 1
  · rw [List.append_assoc, List.take_left' hword, wordOf_wordBytes]
    rfl
  · apply List.ext_getElem
    · rw [List.length_map, List.length_range, hsize]
    · intro i hi hi'
      rw [List.getElem_map, List.getElem_range, List.append_assoc, List.getD_eq_getElem?_getD,
        List.getElem?_append_right (by omega), hword, Nat.add_sub_cancel_left,
        List.getElem?_append_left hi', List.getElem?_eq_getElem hi']
      rfl
  · have hlen : (wordBytes sector ++ name).length = 19 := by
      rw [List.length_append, hword, hsize]
      rfl
    rw [List.getD_eq_getElem?_getD, List.getElem?_append_right (Nat.le_of_eq hlen), hlen]
    rfl

theorem DirEntry.refill_toBytes (e x : DirEntry) : e.refill x.toBytes = x := by
  rw [refill, List.drop_eq_nil_of_le (by rw [length_toBytes, length_toBytes]), List.append_nil,
    ofBytes_toBytes]

/-- What `strlcpy` of a name leaves there. -/
theorem DirEntry.cname_setName (e : DirEntry) (h : name.length ≤ nameMax) (h0 : 0 ∉ name) :
    (e.setName name).cname = name := by
  have htake : name.take nameMax = name := List.take_of_length_le h
  have hlen : (name ++ [0]).length ≤ nameMax + 1 := by
    rw [List.length_append, List.length_singleton]
    omega
  have hset : (e.setName name).name =
      name ++ [0] ++ (e.name.drop (name.length + 1)).take (nameMax + 1 - (name ++ [0]).length) := by
    simp only [setName, htake, List.take_append, List.take_of_length_le hlen]
  rw [cname, hset, List.append_assoc, List.takeWhile_append_of_pos, List.singleton_append,
    List.takeWhile_cons_of_neg (by simp), List.append_nil]
  intro b hb
  simpa using ne_of_mem_of_not_mem hb h0

/-- The bytes of some slots. -/
def slotBytes (slots : List DirEntry) : List UInt8 := slots.flatMap toBytes

theorem length_slotBytes (slots : List DirEntry) :
    (slotBytes slots).length = entrySize * slots.length := length_chunks fun e _ => length_toBytes e

theorem slotBytes_append (l l' : List DirEntry) : slotBytes (l ++ l') = slotBytes l ++ slotBytes l' :=
  List.flatMap_append

theorem slotBytes_cons (x : DirEntry) (l : List DirEntry) :
    slotBytes (x :: l) = x.toBytes ++ slotBytes l := List.flatMap_cons

theorem slotBytes_replicate (n : Nat) :
    slotBytes (List.replicate n zero) = List.replicate (n * entrySize) 0 := by
  induction n with
  | zero => rfl
  | succ n ih =>
    have hzero : zero.toBytes = List.replicate entrySize 0 := by decide
    rw [List.replicate_succ, slotBytes_cons, ih, hzero, List.replicate_append_replicate]
    congr 1
    rw [Nat.succ_mul, Nat.add_comm]

/-- Reading a slot. -/
theorem read_slot (h : vol.bytes d = slotBytes (pre ++ x :: post)) :
    vol.inodeReadAt d entrySize (entrySize * pre.length) = x.toBytes := by
  rw [inodeReadAt, h, slotBytes_append, slotBytes_cons, List.drop_left' (length_slotBytes pre),
    List.take_left' (length_toBytes x)]

theorem read_end (h : vol.bytes d = slotBytes pre) :
    vol.inodeReadAt d entrySize (entrySize * pre.length) = [] := by
  rw [inodeReadAt, h, List.drop_eq_nil_of_le (by rw [length_slotBytes]), List.take_nil]

/-- Writing a slot. -/
theorem writeAt_slot : writeAt (slotBytes (pre ++ x :: post)) (entrySize * pre.length) y.toBytes =
    slotBytes (pre ++ y :: post) := by
  have hne : y.toBytes ≠ [] := by
    apply List.ne_nil_of_length_pos
    rw [length_toBytes]
    decide
  have hlen : (slotBytes pre ++ x.toBytes).length = entrySize * pre.length + y.toBytes.length := by
    rw [List.length_append, length_slotBytes, length_toBytes, length_toBytes]
  have hgap : entrySize * pre.length - (slotBytes (pre ++ x :: post)).length = 0 := by
    rw [length_slotBytes, List.length_append]
    exact Nat.sub_eq_zero_of_le (Nat.mul_le_mul_left _ (Nat.le_add_right _ _))
  rw [writeAt, if_neg hne, hgap, slotBytes_append, slotBytes_cons,
    List.take_left' (length_slotBytes pre), ← List.append_assoc, List.drop_left' hlen,
    slotBytes_append, slotBytes_cons]
  simp

theorem writeAt_end : writeAt (slotBytes pre) (entrySize * pre.length) y.toBytes =
    slotBytes (pre ++ [y]) := by
  have hlast : slotBytes [y] = y.toBytes := List.append_nil _
  rw [← length_slotBytes, writeAt_length, slotBytes_append, hlast]

/-! ## The loops -/

/-- The loop stops at the first slot for which the condition holds. -/
theorem scan_found (h : vol.bytes d = slotBytes (pre ++ mid ++ x :: post))
    (hmid : ∀ y ∈ mid, P y = false) (hx : P x = true) (hrounds : mid.length < rounds) :
    vol.scan d P rounds e (entrySize * pre.length) =
      (true, x, entrySize * (pre ++ mid).length) := by
  induction mid generalizing pre rounds e with
  | nil =>
    obtain ⟨rounds, rfl⟩ := Nat.exists_eq_succ_of_ne_zero (Nat.ne_of_gt hrounds)
    rw [List.append_nil] at h ⊢
    rw [scan, read_slot h]
    simp only [length_toBytes, if_true, refill_toBytes, hx]
  | cons y mid ih =>
    obtain ⟨rounds, rfl⟩ := Nat.exists_eq_succ_of_ne_zero (Nat.ne_of_gt (Nat.zero_lt_of_lt hrounds))
    have hread := h
    rw [List.append_assoc, List.cons_append] at hread
    have hy : P y = false := hmid y List.mem_cons_self
    have hnext : entrySize * pre.length + entrySize = entrySize * (pre ++ [y]).length := by
      rw [List.length_append, List.length_singleton, Nat.mul_add, Nat.mul_one]
    have hrest := @ih y (pre ++ [y]) rounds (by rw [h]; simp)
      (fun z hz => hmid z (List.mem_cons_of_mem _ hz)) (Nat.lt_of_succ_lt_succ hrounds)
    rw [scan, read_slot hread]
    simp only [length_toBytes, if_true, refill_toBytes, hy, Bool.false_eq_true, if_false]
    rw [hnext, hrest]
    simp

theorem scan_none (h : vol.bytes d = slotBytes (pre ++ mid)) (hmid : ∀ y ∈ mid, P y = false)
    (hrounds : mid.length < rounds) :
    ∃ e', vol.scan d P rounds e (entrySize * pre.length) =
      (false, e', entrySize * (pre ++ mid).length) := by
  induction mid generalizing pre rounds e with
  | nil =>
    obtain ⟨rounds, rfl⟩ := Nat.exists_eq_succ_of_ne_zero (Nat.ne_of_gt hrounds)
    rw [List.append_nil] at h ⊢
    rw [scan, read_end h]
    exact ⟨_, rfl⟩
  | cons y mid ih =>
    obtain ⟨rounds, rfl⟩ := Nat.exists_eq_succ_of_ne_zero (Nat.ne_of_gt (Nat.zero_lt_of_lt hrounds))
    have hy : P y = false := hmid y List.mem_cons_self
    have hnext : entrySize * pre.length + entrySize = entrySize * (pre ++ [y]).length := by
      rw [List.length_append, List.length_singleton, Nat.mul_add, Nat.mul_one]
    obtain ⟨e', hrest⟩ := @ih y (pre ++ [y]) rounds (by rw [h]; simp)
      (fun z hz => hmid z (List.mem_cons_of_mem _ hz)) (Nat.lt_of_succ_lt_succ hrounds)
    refine ⟨e', ?_⟩
    rw [scan, read_slot h]
    simp only [length_toBytes, if_true, refill_toBytes, hy, Bool.false_eq_true, if_false]
    rw [hnext, hrest]
    simp

/-- A list either has a first element for which the condition holds, or none. -/
theorem first_or_none (P : DirEntry → Bool) (l : List DirEntry) :
    (∃ mid x post, l = mid ++ x :: post ∧ (∀ y ∈ mid, P y = false) ∧ P x = true) ∨
      ∀ y ∈ l, P y = false := by
  cases hfind : l.find? P with
  | none =>
    right
    intro y hy
    simpa using List.find?_eq_none.mp hfind y hy
  | some x =>
    left
    obtain ⟨hx, mid, post, hl, hmid⟩ := List.find?_eq_some_iff_append.mp hfind
    refine ⟨mid, x, post, hl, ?_, hx⟩
    intro y hy
    simpa using hmid y hy

theorem scanFrom_found (h : vol.bytes d = slotBytes (pre ++ mid ++ x :: post))
    (hmid : ∀ y ∈ mid, P y = false) (hx : P x = true) :
    vol.scanFrom d P e (entrySize * pre.length) = (true, x, entrySize * (pre ++ mid).length) := by
  refine scan_found h hmid hx ?_
  rw [h, length_slotBytes, List.length_append, List.length_append]
  unfold entrySize
  omega

theorem scanFrom_none (h : vol.bytes d = slotBytes (pre ++ mid)) (hmid : ∀ y ∈ mid, P y = false) :
    ∃ e', vol.scanFrom d P e (entrySize * pre.length) =
      (false, e', entrySize * (pre ++ mid).length) := by
  refine scan_none h hmid ?_
  rw [h, length_slotBytes, List.length_append]
  unfold entrySize
  omega

/-! ## The map of a directory -/

/-- The names and sectors of the slots that are in use. -/
def entries (slots : List DirEntry) : List (List UInt8 × Sector) :=
  (slots.filter fun e => e.inUse ≠ 0).map fun e => (e.cname, e.inodeSector)

theorem entries_append (l l' : List DirEntry) : entries (l ++ l') = entries l ++ entries l' := by
  rw [entries, List.filter_append, List.map_append]
  rfl

theorem entries_cons_used (h : x.inUse ≠ 0) (l : List DirEntry) :
    entries (x :: l) = (x.cname, x.inodeSector) :: entries l := by
  simp [entries, h]

theorem entries_cons_free (h : x.inUse = 0) (l : List DirEntry) : entries (x :: l) = entries l := by
  simp [entries, h]

theorem entries_of_free (h : ∀ y ∈ slots, y.inUse = 0) : entries slots = [] := by
  induction slots with
  | nil => rfl
  | cons x slots ih =>
    rw [entries_cons_free (h x List.mem_cons_self), ih fun y hy => h y (List.mem_cons_of_mem _ hy)]

theorem mem_entries {r : List UInt8 × Sector} :
    r ∈ entries slots ↔ ∃ x ∈ slots, x.inUse ≠ 0 ∧ (x.cname, x.inodeSector) = r := by
  simp only [entries, List.mem_map, List.mem_filter, decide_eq_true_eq, and_assoc]

/-- A finite map from names to sectors. -/
abbrev NameMap := List UInt8 → Option Sector

/-- A list of names and sectors as a map. -/
structure Lists (l : List (List UInt8 × Sector)) (map : NameMap) : Prop where
  nodup : (l.map Prod.fst).Nodup
  mem : ∀ n s, map n = some s ↔ (n, s) ∈ l

/-- The directory has a first slot for the parent, and its other slots hold the map. -/
structure DirOk (vol : Volume) (d p : Sector) (first : DirEntry) (tail : List DirEntry)
    (map : NameMap) : Prop where
  slots : vol.bytes d = slotBytes (first :: tail)
  parent : first.inodeSector = p
  lists : Lists (entries tail) map

/-- `dir_lookup` and `dir_readdir` show the map and the parent. -/
structure IsMap (vol : Volume) (d p : Sector) (map : NameMap) : Prop where
  lookup : ∀ e name, name ≠ dot → name ≠ dotDot → vol.dirLookup e d name = map name
  parent : ∀ e, vol.dirLookup e d dotDot = some p
  nodup : (vol.names d).Nodup
  names : ∀ name, name ∈ vol.names d ↔ (map name).isSome = true

variable {map : NameMap} {l l' : List (List UInt8 × Sector)}

theorem Lists.isSome (h : Lists l map) : (map name).isSome = true ↔ name ∈ l.map Prod.fst := by
  rw [Option.isSome_iff_exists, List.mem_map]
  constructor
  · intro hsome
    obtain ⟨s, hs⟩ := hsome
    exact ⟨(name, s), (h.mem name s).mp hs, rfl⟩
  · intro hmem
    obtain ⟨⟨n, s⟩, hmem, rfl⟩ := hmem
    exact ⟨s, (h.mem n s).mpr hmem⟩

theorem Lists.perm (h : Lists l map) (hperm : l'.Perm l) : Lists l' map :=
  ⟨(hperm.map _).nodup_iff.mpr h.nodup, fun n s => by rw [h.mem, hperm.mem_iff]⟩

theorem Lists.insert (h : Lists l map) (hnone : map name = none) :
    Lists ((name, sector) :: l) (Function.update map name (some sector)) := by
  have hout : name ∉ l.map Prod.fst := by
    rw [← h.isSome, hnone]
    simp
  refine ⟨?_, ?_⟩
  · rw [List.map_cons, List.nodup_cons]
    exact ⟨hout, h.nodup⟩
  · intro n s
    rw [List.mem_cons, Prod.mk.injEq]
    by_cases hn : n = name
    · subst hn
      rw [Function.update_self, Option.some_inj]
      constructor
      · exact fun heq => .inl ⟨rfl, heq.symm⟩
      · intro hor
        refine hor.elim (fun heq => heq.2.symm) fun hmem => ?_
        exact absurd (List.mem_map.mpr ⟨_, hmem, rfl⟩) hout
    · rw [Function.update_of_ne hn, h.mem]
      simp [hn]

theorem Lists.remove (h : Lists ((name, sector) :: l) map) :
    Lists l (Function.update map name none) := by
  have hnodup := h.nodup
  rw [List.map_cons, List.nodup_cons] at hnodup
  refine ⟨hnodup.2, ?_⟩
  intro n s
  by_cases hn : n = name
  · subst hn
    rw [Function.update_self]
    refine iff_of_false nofun fun hmem => ?_
    exact hnodup.1 (List.mem_map.mpr ⟨_, hmem, rfl⟩)
  · rw [Function.update_of_ne hn, h.mem, List.mem_cons, Prod.mk.injEq]
    simp [hn]

/-! ## Looking up names -/

/-- What `lookup` finds. -/
theorem lookup_cases (h : DirOk vol d p first tail map) :
    (∃ pre x post, tail = pre ++ x :: post ∧ x.inUse ≠ 0 ∧ x.cname = name ∧
      vol.lookup d name = some (x, entrySize * (first :: pre).length) ∧
      map name = some x.inodeSector) ∨
    vol.lookup d name = none ∧ map name = none := by
  let found : DirEntry → Bool := fun e => e.inUse ≠ 0 ∧ name = e.cname
  have hstart : entrySize = entrySize * [first].length := rfl
  rcases first_or_none found tail with ⟨pre, x, post, htail, hpre, hx⟩ | hnone
  · left
    have hfound : x.inUse ≠ 0 ∧ name = x.cname := by simpa [found] using hx
    have hbytes : vol.bytes d = slotBytes ([first] ++ pre ++ x :: post) := by
      rw [h.slots, htail]
      rfl
    refine ⟨pre, x, post, htail, hfound.1, hfound.2.symm, ?_, ?_⟩
    · rw [lookup]
      nth_rewrite 1 [hstart]
      rw [scanFrom_found hbytes hpre hx]
      rfl
    · rw [h.lists.mem, mem_entries]
      refine ⟨x, ?_, hfound.1, by rw [hfound.2]⟩
      rw [htail]
      exact List.mem_append_right _ List.mem_cons_self
  · right
    have hbytes : vol.bytes d = slotBytes ([first] ++ tail) := h.slots
    obtain ⟨e', hscan⟩ := @scanFrom_none vol d zero [first] tail found hbytes hnone
    refine ⟨?_, ?_⟩
    · rw [lookup]
      nth_rewrite 1 [hstart]
      rw [hscan]
      rfl
    · rw [Option.eq_none_iff_forall_ne_some]
      intro s hs
      rw [h.lists.mem, mem_entries] at hs
      obtain ⟨x, hx, hused, heq⟩ := hs
      have hfalse := hnone x hx
      simp only [Prod.mk.injEq] at heq
      simp [found, hused, heq.1] at hfalse

theorem map_of_lookup_none (h : DirOk vol d p first tail map) (hnone : vol.lookup d name = none) :
    map name = none := by
  rcases lookup_cases h with ⟨pre, x, post, -, -, -, hlookup, -⟩ | ⟨-, hmap⟩
  · rw [hnone] at hlookup
    cases hlookup
  · exact hmap

/-- What `dir_readdir` yields from some position on. -/
theorem dirReaddir_slots (h : vol.bytes d = slotBytes (pre ++ tail)) :
    (∃ mid x post, tail = mid ++ x :: post ∧ x.inUse ≠ 0 ∧ entries mid = [] ∧
      vol.dirReaddir d (entrySize * pre.length) =
        some (x.cname, entrySize * (pre ++ mid ++ [x]).length)) ∨
    entries tail = [] ∧ vol.dirReaddir d (entrySize * pre.length) = none := by
  rcases first_or_none (fun e => e.inUse ≠ 0) tail with ⟨mid, x, post, htail, hmid, hx⟩ | hnone
  · left
    refine ⟨mid, x, post, htail, by simpa using hx, entries_of_free (by simpa using hmid), ?_⟩
    rw [dirReaddir, scanFrom_found (by rw [h, htail, List.append_assoc]) hmid hx]
    simp only [if_true, List.length_append, List.length_singleton, Nat.mul_add, Nat.mul_one]
  · right
    obtain ⟨e', hscan⟩ := @scanFrom_none vol d zero pre tail _ h hnone
    refine ⟨entries_of_free (by simpa using hnone), ?_⟩
    rw [dirReaddir, hscan]
    rfl

theorem readNames_slots {calls : Nat} (h : vol.bytes d = slotBytes (pre ++ tail))
    (hcalls : tail.length < calls) :
    vol.readNames d calls (entrySize * pre.length) = (entries tail).map Prod.fst := by
  induction calls generalizing pre tail with
  | zero => cases hcalls
  | succ calls ih =>
    rcases dirReaddir_slots h with ⟨mid, x, post, htail, hx, hmid, hread⟩ | ⟨hempty, hread⟩
    · have hrest := @ih (pre ++ mid ++ [x]) post (by rw [h, htail]; simp) (by
        rw [htail, List.length_append, List.length_cons] at hcalls
        omega)
      rw [readNames, hread, htail, entries_append, hmid, entries_cons_used hx]
      simp only [hrest, List.nil_append, List.map_cons]
    · rw [readNames, hread, hempty]
      rfl

/-- The slots show the map. -/
theorem DirOk.isMap (h : DirOk vol d p first tail map) : IsMap vol d p map := by
  have hnames : vol.names d = (entries tail).map Prod.fst := by
    have hbytes : vol.bytes d = slotBytes ([first] ++ tail) := h.slots
    have hread := @readNames_slots vol d [first] tail ((vol.bytes d).length + 1) hbytes (by
      rw [hbytes, length_slotBytes, List.length_append]
      unfold entrySize
      omega)
    exact hread
  refine ⟨?_, ?_, ?_, ?_⟩
  · intro e name hdot hdotDot
    rw [dirLookup, if_neg hdot, if_neg hdotDot]
    rcases @lookup_cases vol d p first tail name map h with
      ⟨pre, x, post, -, -, -, hlookup, hmap⟩ | ⟨hlookup, hmap⟩
    · rw [hlookup, hmap]
      rfl
    · rw [hlookup, hmap]
      rfl
  · intro e
    have hread := @read_slot vol d first [] tail h.slots
    have hdots : dotDot ≠ dot := by decide
    rw [List.length_nil, Nat.mul_zero] at hread
    rw [dirLookup, if_neg hdots, if_pos rfl, hread, refill_toBytes, h.parent]
  · rw [hnames]
    exact h.lists.nodup
  · intro name
    rw [hnames, h.lists.isSome]

end CSE130.Filesys
