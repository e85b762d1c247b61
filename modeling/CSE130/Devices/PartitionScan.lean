import CSE130.Devices.PartitionChain
import Mathlib.Data.List.Basic

/-!
# Which partitions are registered

`read_partition_table` reads the table of sector 0 for whatever sector it is called. What is below an
extended partition is therefore the first table once more, and the recursion ends only if the sectors
that it comes to lie past the end of the device.
-/

namespace CSE130.Devices

open CSE130.Library

namespace Block

variable {block : Block} {s p : BlockSector} {e : PartitionTableEntry} {st st' st'' : Scan}
  {es : List PartitionTableEntry} {found found' : List (BlockSector × PartitionTableEntry)}
  {n partNr : Nat}

/-! ## What a call adds -/

/-- The partition that `found_partition` registers for an entry of the table of sector `s`, if any. -/
def foundAt (block : Block) (partNr : Nat) (s : BlockSector) (e : PartitionTableEntry) :
    Option Partition :=
  let start := e.offset + s
  if block.size ≤ start ∨ start + e.size < start ∨ block.size < start + e.size then none
  else
    some { name := block.partitionName partNr, partNr, type := blockType e.type, start, size := e.size }

/-- The partitions that it registers for the entries, numbered from `n + 1` on. -/
def foundFrom (block : Block) : Nat → List (BlockSector × PartitionTableEntry) → List Partition
  | _, [] => []
  | n, (s, e) :: found => (block.foundAt (n + 1) s e).toList ++ block.foundFrom (n + 1) found

theorem foundFrom_append : block.foundFrom n (found ++ found') =
    block.foundFrom n found ++ block.foundFrom (n + found.length) found' := by
  induction found generalizing n with
  | nil => rfl
  | cons entry found ih =>
    rw [List.cons_append, foundFrom, foundFrom, ih, List.append_assoc, List.length_cons,
      Nat.add_right_comm, Nat.add_assoc]

/-- Between the two states the entries have been found, each with the sector of its table. -/
structure Adds (block : Block) (st st' : Scan) (found : List (BlockSector × PartitionTableEntry)) :
    Prop where
  partNr : st'.partNr = st.partNr + found.length
  registered : st'.registered = st.registered ++ block.foundFrom st.partNr found

namespace Adds

theorem print (st : Scan) (text : String) : block.Adds st (st.print text) [] where
  partNr := rfl
  registered := (List.append_nil _).symm

theorem refl (st : Scan) : block.Adds st st [] where
  partNr := rfl
  registered := (List.append_nil _).symm

theorem trans (h : block.Adds st st' found) (h' : block.Adds st' st'' found') :
    block.Adds st st'' (found ++ found') where
  partNr := by rw [h'.partNr, h.partNr, List.length_append, Nat.add_assoc]
  registered := by
    rw [h'.registered, h.registered, h.partNr, foundFrom_append, List.append_assoc]

end Adds

theorem foundPartition_adds : block.Adds st
    (block.foundPartition e.type (e.offset + s) e.size (st.partNr + 1)
      { st with partNr := st.partNr + 1 }) [(s, e)] := by
  unfold foundPartition
  by_cases hstart : block.size ≤ e.offset + s
  · rw [if_pos hstart]
    refine ⟨rfl, ?_⟩
    simp [foundFrom, foundAt, hstart, Scan.print]
  rw [if_neg hstart]
  by_cases hend : e.offset + s + e.size < e.offset + s ∨ block.size < e.offset + s + e.size
  · rw [if_pos hend]
    refine ⟨rfl, ?_⟩
    simp [foundFrom, foundAt, hend, Scan.print]
  · rw [if_neg hend]
    refine ⟨rfl, ?_⟩
    simp [foundFrom, foundAt, hstart, hend]

/-- The sector and the extended partition for which the table of an extended partition is read. -/
def target (s p : BlockSector) (e : PartitionTableEntry) : BlockSector × BlockSector :=
  if s = 0 then (e.offset, e.offset) else (e.offset + p, p)

/-- What is found when the entries are those of the table of sector `s`, and `below` is found below an
extended partition. -/
def entriesAt (s : BlockSector) (below : PartitionTableEntry → List (BlockSector × PartitionTableEntry))
    (es : List PartitionTableEntry) : List (BlockSector × PartitionTableEntry) :=
  es.flatMap fun e => if e.isEmpty then [] else if isExtended e.type then below e else [(s, e)]

section Loop

variable {readTable : BlockSector → BlockSector → Scan → Except Stop Scan}
  {below : PartitionTableEntry → List (BlockSector × PartitionTableEntry)}

theorem scanEntry_extends (he : e.Extends) : ∃ st₁, block.Adds st st₁ [] ∧
    block.scanEntry s p readTable st e = readTable (target s p e).1 (target s p e).2 st₁ := by
  obtain ⟨hempty, hextended⟩ := he
  refine ⟨_, .print st (block.name ++ ": Extended partition in sector " ++ toString s ++ "\n"), ?_⟩
  unfold scanEntry target
  rw [hempty, hextended]
  by_cases hs : s = 0 <;> simp [hs]

/-- The loop over the entries of a table. -/
theorem foldlM_scanEntry (hbelow : ∀ e ∈ es, e.Extends → ∀ st, ∃ st',
      readTable (target s p e).1 (target s p e).2 st = .ok st' ∧ block.Adds st st' (below e)) :
    ∃ st', es.foldlM (block.scanEntry s p readTable) st = .ok st' ∧
      block.Adds st st' (entriesAt s below es) := by
  induction es generalizing st with
  | nil => exact ⟨st, rfl, .refl st⟩
  | cons e es ih =>
    have hentry : ∃ st₁, block.scanEntry s p readTable st e = .ok st₁ ∧
        block.Adds st st₁ (entriesAt s below [e]) := by
      cases hempty : e.isEmpty with
      | true =>
        refine ⟨st, by rw [scanEntry, hempty]; rfl, ?_⟩
        simpa [entriesAt, hempty] using Adds.refl st
      | false =>
        cases hextended : isExtended e.type with
        | true =>
          obtain ⟨st₁, hprint, hcall⟩ := @scanEntry_extends block s p e st readTable ⟨hempty, hextended⟩
          obtain ⟨st₂, hread, hadds⟩ := hbelow e List.mem_cons_self ⟨hempty, hextended⟩ st₁
          refine ⟨st₂, hcall.trans hread, ?_⟩
          simpa [entriesAt, hempty, hextended] using hprint.trans hadds
        | false =>
          refine ⟨_, by rw [scanEntry, hempty, hextended]; rfl, ?_⟩
          simpa [entriesAt, hempty, hextended] using foundPartition_adds
    obtain ⟨st₁, hscan, hadds⟩ := hentry
    obtain ⟨st₂, hfold, hadds'⟩ := @ih st₁ fun e he => hbelow e (List.mem_cons_of_mem _ he)
    refine ⟨st₂, ?_, ?_⟩
    · rw [List.foldlM_cons, hscan]
      exact hfold
    · have happend : entriesAt s below (e :: es) = entriesAt s below [e] ++ entriesAt s below es := by
        simp [entriesAt]
      rw [happend]
      exact hadds.trans hadds'

end Loop

/-! ## One table -/

/-- A sector past the end of the device. -/
theorem readPartitionTable_past (hs : block.size ≤ s) : ∃ st',
    block.readPartitionTable (n + 1) s p st = .ok st' ∧ block.Adds st st' [] :=
  ⟨_, if_pos hs, .print _ _⟩

/-- The entries are those of the first table, whatever sector `s` is. -/
theorem readPartitionTable_eq (hfirst : (block.table 0).signature = 0xaa55) (hs : s < block.size) :
    block.readPartitionTable (n + 1) s p st =
      (block.table 0).partitions.foldlM (block.scanEntry s p (block.readPartitionTable n)) st := by
  have hsize : ¬ block.size ≤ 0 := fun hle => UInt32.not_lt_zero (UInt32.lt_of_lt_of_le hs hle)
  rw [readPartitionTable, if_neg (UInt32.not_le.mpr hs), blockRead, if_neg hsize]
  exact if_neg (not_not.mpr hfirst)

theorem scanEntry_approx {f g : BlockSector → BlockSector → Scan → Except Stop Scan}
    (h : ∀ s p st, Approx .outOfFuel (f s p st) (g s p st)) :
    Approx .outOfFuel (block.scanEntry s p f st e) (block.scanEntry s p g st e) := by
  unfold scanEntry
  cases e.isEmpty with
  | true => exact .refl _
  | false =>
    cases isExtended e.type with
    | true =>
      by_cases hs : s = 0
      · simpa [hs] using h _ _ _
      · simpa [hs] using h _ _ _
    | false => exact .refl _

/-- More fuel gives the same result. -/
theorem readPartitionTable_approx (n : Nat) (s p : BlockSector) (st : Scan) :
    Approx .outOfFuel (block.readPartitionTable n s p st)
      (block.readPartitionTable (n + 1) s p st) := by
  induction n generalizing s p st with
  | zero => exact .error _
  | succ n ih =>
    rw [readPartitionTable, readPartitionTable]
    by_cases hs : block.size ≤ s
    · rw [if_pos hs, if_pos hs]
      exact .refl _
    rw [if_neg hs, if_neg hs]
    refine .bind (.refl _) fun pt => ?_
    by_cases hsig : pt.signature ≠ 0xaa55
    · rw [if_pos hsig, if_pos hsig]
      exact .refl _
    · rw [if_neg hsig, if_neg hsig]
      exact .foldlM (fun st e => scanEntry_approx ih) _ _

theorem partitionScan_approx (n : Nat) :
    Approx .outOfFuel (block.partitionScan n) (block.partitionScan (n + 1)) :=
  .bind (readPartitionTable_approx n 0 0 _) fun _ => .refl _

/-! ## Scans that end -/

/-- For each extended partition of the first table, the table that would be read for it lies past the end
of the device, or those that the first table refers to, taken relative to it, do. -/
def Ends (block : Block) : Prop :=
  ∀ e ∈ (block.table 0).partitions, e.Extends → block.size ≤ e.offset ∨
    e.offset ≠ 0 ∧ ∀ e' ∈ (block.table 0).partitions, e'.Extends →
      block.size ≤ e'.offset + e.offset

/-- What is found when the first table is read in place of those that it refers to. -/
def replayed (block : Block) : List (BlockSector × PartitionTableEntry) :=
  entriesAt 0
    (fun e => if block.size ≤ e.offset then []
      else entriesAt e.offset (fun _ => []) (block.table 0).partitions)
    (block.table 0).partitions

theorem partitionScan_of_ends (hfirst : block.HoldsTable 0) (hends : block.Ends) :
    ∃ st, block.partitionScan 3 = .ok st ∧ st.registered = block.foundFrom 0 block.replayed := by
  obtain ⟨hsize, hsig⟩ := hfirst
  have hpos : (0 : BlockSector) < block.size := hsize
  -- the first table, read for the sector of one of its extended partitions
  have hbelow : ∀ e ∈ (block.table 0).partitions, e.Extends → ∀ st, ∃ st',
      block.readPartitionTable 2 (target 0 0 e).1 (target 0 0 e).2 st = .ok st' ∧
        block.Adds st st' (if block.size ≤ e.offset then []
          else entriesAt e.offset (fun _ => []) (block.table 0).partitions) := by
    intro e he hext st
    change ∃ st', block.readPartitionTable 2 e.offset e.offset st = .ok st' ∧ _
    by_cases hpast : block.size ≤ e.offset
    · rw [if_pos hpast]
      exact readPartitionTable_past hpast
    · rw [if_neg hpast, readPartitionTable_eq hsig (UInt32.not_le.mp hpast)]
      obtain ⟨hne, hfar⟩ := (hends e he hext).resolve_left hpast
      refine foldlM_scanEntry fun e' he' hext' st => ?_
      have htarget : target e.offset e.offset e' = (e'.offset + e.offset, e.offset) := if_neg hne
      rw [htarget]
      exact readPartitionTable_past (hfar e' he' hext')
  have hread : ∀ st, ∃ st', block.readPartitionTable 3 0 0 st = .ok st' ∧
      block.Adds st st' block.replayed := by
    intro st
    rw [readPartitionTable_eq hsig hpos]
    exact foldlM_scanEntry hbelow
  obtain ⟨st, hst, hadds⟩ := hread { partNr := 0, registered := [], printed := [] }
  have hregistered : st.registered = block.foundFrom 0 block.replayed := hadds.registered
  unfold partitionScan
  rw [hst, ok_bind]
  by_cases hnone : st.partNr = 0
  · rw [if_pos hnone]
    exact ⟨_, rfl, hregistered⟩
  · rw [if_neg hnone]
    exact ⟨_, rfl, hregistered⟩

/-- Without a valid table nothing is registered. -/
theorem partitionScan_of_noTable (hfirst : ¬ block.HoldsTable 0) :
    ∃ st, block.partitionScan 1 = .ok st ∧ st.registered = [] := by
  unfold partitionScan readPartitionTable
  by_cases hsize : block.size ≤ 0
  · rw [if_pos hsize]
    exact ⟨_, rfl, rfl⟩
  · have hsig : (partitionTable (block.sector 0)).signature ≠ 0xaa55 := fun heq =>
      hfirst ⟨UInt32.not_le.mp hsize, heq⟩
    rw [if_neg hsize, blockRead, if_neg hsize, map_eq_pure_bind, ok_bind, pure_bind, if_pos hsig]
    exact ⟨_, rfl, rfl⟩

/-! ## Scans that do not end -/

/-- Where each table that is read leads to another one of them, no call returns. -/
theorem readPartitionTable_ne_ok {B : BlockSector → BlockSector → Prop}
    (hfirst : (block.table 0).signature = 0xaa55)
    (hB : ∀ s p, B s p → s < block.size ∧ ∃ e ∈ (block.table 0).partitions, e.Extends ∧
      B (target s p e).1 (target s p e).2) (hs : B s p) :
    block.readPartitionTable n s p st ≠ .ok st' := by
  induction n generalizing s p st st' with
  | zero =>
    intro hread
    cases hread
  | succ n ih =>
    intro hread
    obtain ⟨hlt, e, he, hext, hnext⟩ := hB s p hs
    rw [readPartitionTable_eq hfirst hlt] at hread
    obtain ⟨st₁, st₂, hscan⟩ := ok_of_mem_foldlM he hread
    obtain ⟨st₃, -, hcall⟩ := @scanEntry_extends block s p e st₁ (block.readPartitionTable n) hext
    rw [hcall] at hscan
    exact ih hnext hscan

theorem ends_of_returns (hfirst : block.HoldsTable 0) (hreturns : block.partitionScan n = .ok st) :
    block.Ends := by
  obtain ⟨hsize, hsig⟩ := hfirst
  have hpos : (0 : BlockSector) < block.size := hsize
  obtain ⟨st₁, hread, -⟩ := bind_eq_ok.mp hreturns
  intro e he hext
  by_contra hnot
  obtain ⟨hnear, hnot⟩ := not_or.mp hnot
  -- sector 0, the extended partition, and the tables that the first one refers to from there
  refine readPartitionTable_ne_ok (B := fun s p => s = 0 ∨ s < block.size ∧ p = e.offset ∧
    (s = e.offset ∨ ∃ e' ∈ (block.table 0).partitions, e'.Extends ∧ s = e'.offset + e.offset))
    hsig ?_ (.inl rfl) hread
  intro s p hs
  by_cases hzero : s = 0
  · subst hzero
    refine ⟨hpos, e, he, hext, ?_⟩
    exact .inr ⟨UInt32.not_le.mp hnear, rfl, .inl rfl⟩
  obtain ⟨hlt, rfl, hcase⟩ := hs.resolve_left hzero
  refine ⟨hlt, ?_⟩
  have hagain : ∃ e' ∈ (block.table 0).partitions, e'.Extends ∧ e'.offset + e.offset < block.size := by
    rcases hcase with rfl | ⟨e', he', hext', rfl⟩
    · by_contra hno
      refine hnot ⟨hzero, fun e' he' hext' => UInt32.not_lt.mp fun hlt => hno ⟨e', he', hext', hlt⟩⟩
    · exact ⟨e', he', hext', hlt⟩
  obtain ⟨e', he', hext', hlt'⟩ := hagain
  have htarget : target s e.offset e' = (e'.offset + e.offset, e.offset) := if_neg hzero
  refine ⟨e', he', hext', ?_⟩
  rw [htarget]
  exact .inr ⟨hlt', rfl, .inr ⟨e', he', hext', rfl⟩⟩

/-! ## The scan and the chain -/

/-- In the first sector nothing wraps around that lies within the device. -/
theorem foundAt_zero (he : e.isEmpty = false) :
    block.foundAt partNr 0 e = block.partitionAt partNr 0 e := by
  have hsize : e.size.toNat ≠ 0 := by
    intro hzero
    have heq : e.size = 0 := UInt32.toNat_inj.mp hzero
    simp [PartitionTableEntry.isEmpty, heq] at he
  have hwithin : (block.size ≤ e.offset ∨ e.offset + e.size < e.offset ∨
      block.size < e.offset + e.size) ↔ ¬ 0 + e.offset.toNat + e.size.toNat ≤ block.size.toNat := by
    have hoffset := e.offset.toNat_lt
    have hlength := e.size.toNat_lt
    have hblock := block.size.toNat_lt
    rw [UInt32.le_iff_toNat_le, UInt32.lt_iff_toNat_lt, UInt32.lt_iff_toNat_lt, UInt32.toNat_add]
    omega
  unfold foundAt partitionAt
  rw [UInt32.add_zero]
  dsimp only
  by_cases hin : 0 + e.offset.toNat + e.size.toNat ≤ block.size.toNat
  · rw [if_neg (mt hwithin.mp (not_not.mpr hin)), if_pos hin, Nat.zero_add, UInt32.ofNat_toNat]
  · rw [if_pos (hwithin.mpr hin), if_neg hin]

/-- A table without extended partitions. -/
theorem foundFrom_of_traverse {visited : List Nat} {described : List (Nat × PartitionTableEntry)}
    {below : PartitionTableEntry → List (BlockSector × PartitionTableEntry)}
    (h : block.Traverse 0 0 es visited described) (hes : ∀ e ∈ es, ¬ e.Extends) :
    block.foundFrom n (entriesAt 0 below es) = block.partitionsAt n described := by
  induction es generalizing n visited described with
  | nil =>
    cases h
    rfl
  | cons e es ih =>
    have hrest : ∀ e ∈ es, ¬ e.Extends := fun e he => hes e (List.mem_cons_of_mem _ he)
    cases h with
    | empty hempty h =>
      have hsame : entriesAt 0 below (e :: es) = entriesAt 0 below es := by simp [entriesAt, hempty]
      rw [hsame]
      exact ih h hrest
    | partition hpart h =>
      obtain ⟨hempty, hextended⟩ := hpart
      have hcons : entriesAt 0 below (e :: es) = (0, e) :: entriesAt 0 below es := by
        simp [entriesAt, hempty, hextended]
      rw [hcons, foundFrom, partitionsAt, foundAt_zero hempty, ih h hrest]
    | extended hext => exact absurd hext (hes e List.mem_cons_self)

/-- When there is a valid table in sector 0 with an extended partition, the scan is right if and only if it
comes to an end and the chain happens to hold what the first table gives when it is read in place of the
tables that it refers to. -/
theorem scansRight_iff_coincides (block : Block) : block.ScansRight ↔
    ¬ block.HoldsTable 0 ∨ (∀ e ∈ (block.table 0).partitions, ¬ e.Extends) ∨
      block.Ends ∧ ∀ found, block.Describes found →
        block.foundFrom 0 block.replayed = block.partitionsAt 0 found := by
  by_cases hfirst : block.HoldsTable 0
  · rw [or_iff_right (not_not.mpr hfirst)]
    constructor
    · intro hright
      obtain ⟨fuel, st, hscan, hfound⟩ := hright
      have hends := ends_of_returns hfirst hscan
      obtain ⟨st', hscan', hregistered⟩ := partitionScan_of_ends hfirst hends
      obtain rfl := eq_of_ok_of_ok partitionScan_approx hscan hscan'
      exact .inr ⟨hends, fun found h => hregistered.symm.trans (hfound found h)⟩
    · intro hcond
      have hboth : block.Ends ∧ ∀ found, block.Describes found →
          block.foundFrom 0 block.replayed = block.partitionsAt 0 found := by
        rcases hcond with hnone | hboth
        · refine ⟨fun e he hext => absurd hext (hnone e he), fun found hdescribes => ?_⟩
          cases hdescribes with
          | noTable hno => exact absurd hfirst hno
          | chain _ htraverse _ => exact foundFrom_of_traverse htraverse hnone
        · exact hboth
      obtain ⟨hends, hsame⟩ := hboth
      obtain ⟨st, hscan, hregistered⟩ := partitionScan_of_ends hfirst hends
      exact ⟨3, st, hscan, fun found h => hregistered.trans (hsame found h)⟩
  · refine iff_of_true ?_ (.inl hfirst)
    obtain ⟨st, hscan, hregistered⟩ := partitionScan_of_noTable hfirst
    refine ⟨1, st, hscan, fun found hdescribes => ?_⟩
    cases hdescribes with
    | noTable => exact hregistered
    | chain h => exact absurd h hfirst

/-- The scan comes to an end if and only if there is no valid table in sector 0, or each sector that the
recursion comes to below the first table's extended partitions lies past the end of the device. It is right
when there is no valid table in sector 0, when that table has no extended partition, and when it comes to an
end on a device whose extended partitions are not a chain. -/
theorem scansRight_of_tables (block : Block) :
    ((∃ fuel st, block.partitionScan fuel = .ok st) ↔ ¬ block.HoldsTable 0 ∨ block.Ends) ∧
    (¬ block.HoldsTable 0 ∨ (∀ e ∈ (block.table 0).partitions, ¬ e.Extends) ∨
      block.Ends ∧ (∀ found, ¬ block.Describes found) → block.ScansRight) := by
  constructor
  · constructor
    · intro hreturns
      obtain ⟨fuel, st, hscan⟩ := hreturns
      by_cases hfirst : block.HoldsTable 0
      · exact .inr (ends_of_returns hfirst hscan)
      · exact .inl hfirst
    · intro hcond
      by_cases hfirst : block.HoldsTable 0
      · obtain ⟨st, hscan, -⟩ := partitionScan_of_ends hfirst (hcond.resolve_left (not_not.mpr hfirst))
        exact ⟨3, st, hscan⟩
      · obtain ⟨st, hscan, -⟩ := partitionScan_of_noTable hfirst
        exact ⟨1, st, hscan⟩
  · intro hcond
    rw [scansRight_iff_coincides]
    rcases hcond with hno | hnone | ⟨hends, hno⟩
    · exact .inl hno
    · exact .inr (.inl hnone)
    · exact .inr (.inr ⟨hends, fun found hdescribes => absurd hdescribes (hno found)⟩)

/-- The bytes of a sector that holds a valid table with one entry. -/
def oneEntry (type offset size : UInt8) (i : Nat) : UInt8 :=
  if i = 450 then type
  else if i = 454 then offset
  else if i = 458 then size
  else if i = 510 then 0x55
  else if i = 511 then 0xaa
  else 0

/-- A device of 16 sectors with a primary partition in its sectors 1 and 2. -/
def primary : Block where
  name := "hda"
  size := 16
  sector _ := oneEntry 0x20 1 2

theorem scansRight_primary : primary.HoldsTable 0 ∧ primary.ScansRight :=
  ⟨by decide +kernel, (scansRight_of_tables primary).2 (.inr (.inl (by decide +kernel)))⟩

/-- A device of 16 sectors with an extended partition from the sector given on, in which there is a
logical partition of two sectors. -/
def chained (sector : UInt8) : Block where
  name := "hda"
  size := 16
  sector s :=
    if s = 0 then oneEntry 0x05 sector 8
    else if s = sector.toUInt32 then oneEntry 0x20 1 2
    else fun _ => 0

theorem describes_chained {sector : UInt8} (hzero : sector.toUInt32.toNat ≠ 0)
    (hfirst : (chained sector).HoldsTable 0)
    (htable : ((chained sector).table 0).partitions =
      [⟨0x05, sector.toUInt32, 8⟩, ⟨0, 0, 0⟩, ⟨0, 0, 0⟩, ⟨0, 0, 0⟩])
    (hlogical : (chained sector).HoldsTable sector.toUInt32.toNat)
    (htable' : ((chained sector).table sector.toUInt32.toNat).partitions =
      [⟨0x20, 1, 2⟩, ⟨0, 0, 0⟩, ⟨0, 0, 0⟩, ⟨0, 0, 0⟩]) :
    (chained sector).Describes [(sector.toUInt32.toNat, ⟨0x20, 1, 2⟩)] := by
  have hempties : ∀ s p, (chained sector).Traverse s p [⟨0, 0, 0⟩, ⟨0, 0, 0⟩, ⟨0, 0, 0⟩] [] [] :=
    fun s p => .empty rfl (.empty rfl (.empty rfl .nil))
  have hbelow : ∀ p, (chained sector).Traverse sector.toUInt32.toNat p
      ((chained sector).table sector.toUInt32.toNat).partitions []
      [(sector.toUInt32.toNat, ⟨0x20, 1, 2⟩)] := by
    intro p
    rw [htable']
    exact .partition ⟨rfl, rfl⟩ (hempties _ _)
  have hall : (chained sector).Traverse 0 0 ((chained sector).table 0).partitions
      [sector.toUInt32.toNat] [(sector.toUInt32.toNat, ⟨0x20, 1, 2⟩)] := by
    rw [htable]
    exact Traverse.extended (s := 0) (p := 0) (e := ⟨0x05, sector.toUInt32, 8⟩) ⟨rfl, rfl⟩ hlogical
      (hbelow _) (hempties _ _)
  refine .chain hfirst hall ?_
  simpa using hzero.symm

/-- The scan of a device with a logical partition does not come to an end, or does not find it. -/
theorem scansRight_chained :
    (chained 4).Describes [(4, ⟨0x20, 1, 2⟩)] ∧ ¬ (chained 4).ScansRight ∧
    (chained 8).Describes [(8, ⟨0x20, 1, 2⟩)] ∧ ¬ (chained 8).ScansRight := by
  have hnear : (chained 4).Describes [(4, ⟨0x20, 1, 2⟩)] := by
    apply @describes_chained 4 <;> decide +kernel
  have hfar : (chained 8).Describes [(8, ⟨0x20, 1, 2⟩)] := by
    apply @describes_chained 8 <;> decide +kernel
  refine ⟨hnear, fun hright => ?_, hfar, fun hright => ?_⟩
  · obtain ⟨fuel, st, hscan, -⟩ := hright
    have hends := ends_of_returns (by decide +kernel) hscan
    have htable : ((chained 4).table 0).partitions =
        [⟨0x05, 4, 8⟩, ⟨0, 0, 0⟩, ⟨0, 0, 0⟩, ⟨0, 0, 0⟩] := by
      decide +kernel
    unfold Ends at hends
    rw [htable] at hends
    have hext : PartitionTableEntry.Extends ⟨0x05, 4, 8⟩ := ⟨rfl, rfl⟩
    rcases hends _ List.mem_cons_self hext with hpast | ⟨-, hpast⟩
    · exact absurd hpast (by decide)
    · exact absurd (hpast _ List.mem_cons_self hext) (by decide)
  · obtain ⟨fuel, st, hscan, hfound⟩ := hright
    have hnone : ((chained 8).partitionScan 3).map (fun st => st.registered.length) = .ok 0 := by
      decide +kernel
    have hone : ((chained 8).partitionsAt 0 [(8, ⟨0x20, 1, 2⟩)]).length = 1 := by
      decide +kernel
    rw [← hfound _ hfar] at hone
    cases hthree : (chained 8).partitionScan 3 with
    | error stop =>
      rw [hthree] at hnone
      cases hnone
    | ok st' =>
      obtain rfl := eq_of_ok_of_ok partitionScan_approx hscan hthree
      rw [hthree] at hnone
      exact absurd (hone.symm.trans (Except.ok.inj hnone)) (by decide)

end Block

end CSE130.Devices
