import CSE130.Devices.Partition
import Mathlib.Data.List.Nodup
import Mathlib.Data.List.Perm.Subperm

/-!
# The chain of partition tables

What the tables of a device say, each read from its own sector. Sectors are numbers here, so that nothing
wraps around.
-/

namespace CSE130.Devices

open CSE130.Library

namespace PartitionTableEntry

/-- The entry refers to a further table. -/
def Extends (e : PartitionTableEntry) : Prop := e.isEmpty = false ∧ isExtended e.type = true

instance (e : PartitionTableEntry) : Decidable e.Extends := inferInstanceAs (Decidable (_ ∧ _))

/-- The entry is a partition. -/
def IsPartition (e : PartitionTableEntry) : Prop := e.isEmpty = false ∧ isExtended e.type = false

instance (e : PartitionTableEntry) : Decidable e.IsPartition :=
  inferInstanceAs (Decidable (_ ∧ _))

end PartitionTableEntry

/-- The sector of the table that an extended partition in the table of sector `s` refers to, below the
extended partition `p` of the first table. -/
def nextSector (s p : Nat) (e : PartitionTableEntry) : Nat :=
  if s = 0 then e.offset.toNat else e.offset.toNat + p

/-- The extended partition of the first table that this one is below of. -/
def nextPrimary (s p : Nat) (e : PartitionTableEntry) : Nat :=
  if s = 0 then e.offset.toNat else p

namespace Block

variable {block : Block}

/-- The table in a sector. -/
def table (block : Block) (sector : Nat) : PartitionTable :=
  partitionTable (block.sector (UInt32.ofNat sector))

/-- The sector lies in the device and holds a valid table. -/
def HoldsTable (block : Block) (sector : Nat) : Prop :=
  sector < block.size.toNat ∧ (block.table sector).signature = 0xaa55

instance (block : Block) (sector : Nat) : Decidable (block.HoldsTable sector) :=
  inferInstanceAs (Decidable (_ ∧ _))

/-- The entries of the table in sector `s`, and of the tables that they lead to, in this order: the
sectors of these tables, and the partitions, each with the sector of its table. -/
inductive Traverse (block : Block) : (s p : Nat) → List PartitionTableEntry → List Nat →
    List (Nat × PartitionTableEntry) → Prop
  | nil {s p : Nat} : Traverse block s p [] [] []
  | empty {s p : Nat} {e : PartitionTableEntry} {es visited found} : e.isEmpty = true →
      Traverse block s p es visited found → Traverse block s p (e :: es) visited found
  | partition {s p : Nat} {e : PartitionTableEntry} {es visited found} : e.IsPartition →
      Traverse block s p es visited found → Traverse block s p (e :: es) visited ((s, e) :: found)
  | extended {s p : Nat} {e : PartitionTableEntry} {es visited visited' found found'} : e.Extends →
      block.HoldsTable (nextSector s p e) →
      Traverse block (nextSector s p e) (nextPrimary s p e)
        (block.table (nextSector s p e)).partitions visited found →
      Traverse block s p es visited' found' →
      Traverse block s p (e :: es) (nextSector s p e :: visited ++ visited') (found ++ found')

/-- The partitions of a device each of whose extended partitions refers to a sector of its own, which
holds a valid table. -/
inductive Describes (block : Block) : List (Nat × PartitionTableEntry) → Prop
  | noTable : ¬ block.HoldsTable 0 → Describes block []
  | chain {visited found} : block.HoldsTable 0 →
      Traverse block 0 0 (block.table 0).partitions visited found → (0 :: visited).Nodup →
      Describes block found

/-- The partition with a number, if it lies within the device. -/
def partitionAt (block : Block) (partNr : Nat) (s : Nat) (e : PartitionTableEntry) :
    Option Partition :=
  if s + e.offset.toNat + e.size.toNat ≤ block.size.toNat then
    some
      { name := block.partitionName partNr, partNr, type := blockType e.type
        start := UInt32.ofNat (s + e.offset.toNat), size := e.size }
  else none

/-- The partitions, numbered from `n + 1` on. -/
def partitionsAt (block : Block) : Nat → List (Nat × PartitionTableEntry) → List Partition
  | _, [] => []
  | n, (s, e) :: found => (block.partitionAt (n + 1) s e).toList ++ block.partitionsAt (n + 1) found

/-- The scan comes to an end, and if the extended partitions form a chain, it has registered the
partitions of the chain. -/
def ScansRight (block : Block) : Prop :=
  ∃ fuel st, block.partitionScan fuel = .ok st ∧
    ∀ found, block.Describes found → st.registered = block.partitionsAt 0 found

/-! ## Chains are finite -/

/-- From the table of sector `s` there are that many references to the table of another sector; with each
sector stands the extended partition of the first table that it is below of. -/
inductive Leads (block : Block) (s p : Nat) : Nat → Nat → Nat → Prop
  | here : Leads block s p 0 s p
  | next {n x q i : Nat} {e : PartitionTableEntry} : Leads block s p n x q →
      (block.table x).partitions[i]? = some e → e.Extends →
      Leads block s p (n + 1) (nextSector x q e) (nextPrimary x q e)

/-- Every extended partition of a table that is reached refers to a sector of its own, which holds a valid
table. -/
structure Chained (block : Block) : Prop where
  holds {n s p i : Nat} {e : PartitionTableEntry} : block.Leads 0 0 n s p →
    (block.table s).partitions[i]? = some e → e.Extends →
      block.HoldsTable (nextSector s p e) ∧ nextSector s p e ≠ 0
  distinct {n n' s s' p p' i i' : Nat} {e e' : PartitionTableEntry} : block.Leads 0 0 n s p →
    block.Leads 0 0 n' s' p' → (block.table s).partitions[i]? = some e →
    (block.table s').partitions[i']? = some e' → e.Extends → e'.Extends →
      nextSector s p e = nextSector s' p' e' → s = s' ∧ i = i'

section Chained

variable {s s' p p' x x' q q' n n' k : Nat} {t t' : Nat}

theorem Leads.trans (h : block.Leads s p n x q) {y r : Nat} (h' : block.Leads x q k y r) :
    block.Leads s p (n + k) y r := by
  induction h' with
  | here => exact h
  | next _ hi he ih => exact .next ih hi he

/-- Sector `x` is reached through an extended partition of the table of sector `s`, from the `i`-th entry
on. -/
def Below (block : Block) (s p i x : Nat) : Prop :=
  ∃ j e m q, i ≤ j ∧ (block.table s).partitions[j]? = some e ∧ e.Extends ∧
    block.Leads (nextSector s p e) (nextPrimary s p e) m x q

theorem Below.mono {i : Nat} (h : block.Below s p (i + 1) x) : block.Below s p i x := by
  obtain ⟨j, e, m, q, hj, hrest⟩ := h
  exact ⟨j, e, m, q, Nat.le_of_succ_le hj, hrest⟩

/-- The tables below a table can be traversed, each once. -/
def Traversed (block : Block) (s p : Nat) : Prop :=
  ∃ visited found, block.Traverse s p (block.table s).partitions visited found ∧ visited.Nodup ∧
    ∀ x ∈ visited, ∃ m q, 0 < m ∧ block.Leads s p m x q

variable (hc : block.Chained)

include hc

/-- A table is reached in one way only. -/
theorem Chained.unique (h : block.Leads 0 0 n s p) (h' : block.Leads 0 0 n' s' p') (hs : s = s') :
    n = n' ∧ p = p' := by
  induction h generalizing n' s' p' with
  | here =>
    cases h' with
    | here => exact ⟨rfl, rfl⟩
    | next hr hi he => exact absurd hs.symm (hc.holds hr hi he).2
  | next hr hi he ih =>
    cases h' with
    | here => exact absurd hs (hc.holds hr hi he).2
    | next hr' hi' he' =>
      obtain ⟨hsector, hindex⟩ := hc.distinct hr hr' hi hi' he he' hs
      obtain ⟨rfl, rfl⟩ := ih hr' hsector
      subst hsector hindex
      cases hi.symm.trans hi'
      exact ⟨rfl, rfl⟩

/-- Tables at the same depth from which the same table is reached are the same. -/
theorem Chained.ancestor (ht : block.Leads 0 0 n t p) (ht' : block.Leads 0 0 n t' p')
    (h : block.Leads t p k x q) (h' : block.Leads t' p' k x' q') (hx : x = x') : t = t' := by
  induction h generalizing x' q' with
  | here =>
    cases h'
    exact hx
  | next hr hi he ih =>
    cases h' with
    | next hr' hi' he' =>
      exact ih hr' (hc.distinct (ht.trans hr) (ht'.trans hr') hi hi' he he' hx).1

/-- The tables on the way to a table are different, so that there are no more of them than sectors. -/
theorem Chained.depth_lt (hfirst : block.HoldsTable 0) (h : block.Leads 0 0 n s p) :
    n < block.size.toNat := by
  have hway : ∃ l : List Nat, l.length = n + 1 ∧ l.Nodup ∧
      ∀ x ∈ l, x < block.size.toNat ∧ ∃ m q, m ≤ n ∧ block.Leads 0 0 m x q := by
    induction h with
    | here =>
      refine ⟨[0], rfl, List.nodup_singleton 0, fun x hx => ?_⟩
      obtain rfl := List.mem_singleton.mp hx
      exact ⟨hfirst.1, 0, 0, Nat.le_refl 0, .here⟩
    | @next n s p i e hr hi he ih =>
      obtain ⟨l, hlength, hnodup, hl⟩ := ih
      have hnew : block.Leads 0 0 (n + 1) (nextSector s p e) (nextPrimary s p e) := .next hr hi he
      refine ⟨nextSector s p e :: l, by rw [List.length_cons, hlength],
        List.nodup_cons.mpr ⟨fun hmem => ?_, hnodup⟩, fun x hx => ?_⟩
      · obtain ⟨-, m, q, hm, hold⟩ := hl _ hmem
        have hdepth := (hc.unique hnew hold rfl).1
        omega
      · cases List.mem_cons.mp hx with
        | inl heq =>
          subst heq
          exact ⟨(hc.holds hr hi he).1.1, n + 1, _, Nat.le_refl _, hnew⟩
        | inr hx =>
          obtain ⟨hlt, m, q, hm, hold⟩ := hl x hx
          exact ⟨hlt, m, q, Nat.le_succ_of_le hm, hold⟩
  obtain ⟨l, hlength, hnodup, hl⟩ := hway
  have hsub : l ⊆ List.range block.size.toNat := fun x hx => List.mem_range.mpr (hl x hx).1
  have hle := (List.subperm_of_subset hnodup hsub).length_le
  rw [hlength, List.length_range] at hle
  exact hle

/-- What is reached through one entry of a table is not reached through a later one. -/
theorem Chained.not_below (h : block.Leads 0 0 n s p) {i m : Nat} {e : PartitionTableEntry}
    (hi : (block.table s).partitions[i]? = some e) (he : e.Extends)
    (hx : block.Leads (nextSector s p e) (nextPrimary s p e) m x q) :
    ¬ block.Below s p (i + 1) x := by
  intro hbelow
  obtain ⟨j, e', m', q', hj, hj', he', hx'⟩ := hbelow
  have hchild : block.Leads 0 0 (n + 1) (nextSector s p e) (nextPrimary s p e) := .next h hi he
  have hchild' : block.Leads 0 0 (n + 1) (nextSector s p e') (nextPrimary s p e') := .next h hj' he'
  have hdepth := (hc.unique (hchild.trans hx) (hchild'.trans hx') rfl).1
  obtain rfl : m = m' := Nat.add_left_cancel hdepth
  have hsame := hc.ancestor hchild hchild' hx hx' rfl
  have hindex := (hc.distinct h h hi hj' he he' hsame).2
  omega

/-- The entries of a table from the `i`-th on are traversed if the tables that they refer to are. -/
theorem Chained.traverse_entries (h : block.Leads 0 0 n s p)
    (hnext : ∀ x q, block.Leads 0 0 (n + 1) x q → block.Traversed x q)
    (es : List PartitionTableEntry) (i : Nat) (hes : (block.table s).partitions.drop i = es) :
    ∃ visited found, block.Traverse s p es visited found ∧ visited.Nodup ∧
      ∀ x ∈ visited, block.Below s p i x := by
  induction es generalizing i with
  | nil => exact ⟨[], [], .nil, List.nodup_nil, by simp⟩
  | cons e es ih =>
    have hi : (block.table s).partitions[i]? = some e := by
      rw [← List.head?_drop, hes]
      rfl
    have hrest : (block.table s).partitions.drop (i + 1) = es := by
      rw [← List.tail_drop, hes]
      rfl
    obtain ⟨visited, found, htraverse, hnodup, hvisited⟩ := ih (i + 1) hrest
    cases hempty : e.isEmpty with
    | true => exact ⟨visited, found, .empty hempty htraverse, hnodup, fun x hx => (hvisited x hx).mono⟩
    | false =>
      cases hextended : isExtended e.type with
      | false =>
        exact ⟨visited, _, .partition ⟨hempty, hextended⟩ htraverse, hnodup,
          fun x hx => (hvisited x hx).mono⟩
      | true =>
        have he : e.Extends := ⟨hempty, hextended⟩
        have hchild : block.Leads 0 0 (n + 1) (nextSector s p e) (nextPrimary s p e) := .next h hi he
        obtain ⟨below, found', htraverse', hnodup', hbelow⟩ := hnext _ _ hchild
        have hsubtree : ∀ x ∈ nextSector s p e :: below, ∃ m q,
            block.Leads (nextSector s p e) (nextPrimary s p e) m x q := by
          intro x hx
          cases List.mem_cons.mp hx with
          | inl heq => exact heq ▸ ⟨0, _, .here⟩
          | inr hx =>
            obtain ⟨m, q, -, hm⟩ := hbelow x hx
            exact ⟨m, q, hm⟩
        refine ⟨nextSector s p e :: below ++ visited, found' ++ found,
          .extended he (hc.holds h hi he).1 htraverse' htraverse, ?_, ?_⟩
        · refine List.nodup_append.mpr ⟨List.nodup_cons.mpr ⟨fun hmem => ?_, hnodup'⟩, hnodup, ?_⟩
          · obtain ⟨m, q, hpos, hm⟩ := hbelow _ hmem
            have hdepth := (hc.unique hchild (hchild.trans hm) rfl).1
            omega
          · intro x hx y hy heq
            subst heq
            obtain ⟨m, q, hm⟩ := hsubtree x hx
            exact hc.not_below h hi he hm (hvisited x hy)
        · intro x hx
          rcases List.mem_append.mp hx with hx | hx
          · obtain ⟨m, q, hm⟩ := hsubtree x hx
            exact ⟨i, e, m, q, Nat.le_refl i, hi, he, hm⟩
          · exact (hvisited x hx).mono

theorem Chained.traversed (hfirst : block.HoldsTable 0) (h : block.Leads 0 0 n s p) :
    block.Traversed s p := by
  -- a table is less deep than the device has sectors
  generalize hk : block.size.toNat - n = k
  induction k generalizing n s p with
  | zero =>
    have hlt := hc.depth_lt hfirst h
    omega
  | succ k ih =>
    have hnext : ∀ x q, block.Leads 0 0 (n + 1) x q → block.Traversed x q :=
      fun x q hx => ih hx (by omega)
    obtain ⟨visited, found, htraverse, hnodup, hvisited⟩ := hc.traverse_entries h hnext _ 0 rfl
    refine ⟨visited, found, htraverse, hnodup, fun x hx => ?_⟩
    obtain ⟨j, e, m, q, -, hj, he, hm⟩ := hvisited x hx
    exact ⟨1 + m, q, Nat.lt_add_right m Nat.one_pos, (Leads.next .here hj he).trans hm⟩

end Chained

/-- A device whose extended partitions refer to different sectors that hold valid tables has partitions
that it describes. -/
theorem exists_describes (hc : block.HoldsTable 0 → block.Chained) :
    ∃ found, block.Describes found := by
  by_cases hfirst : block.HoldsTable 0
  · have hchained := hc hfirst
    obtain ⟨visited, found, htraverse, hnodup, hvisited⟩ :=
      hchained.traversed hfirst .here
    refine ⟨found, .chain hfirst htraverse (List.nodup_cons.mpr ⟨fun hmem => ?_, hnodup⟩)⟩
    obtain ⟨m, q, hpos, hm⟩ := hvisited 0 hmem
    exact absurd (hchained.unique hm .here rfl).1 (Nat.ne_of_gt hpos)
  · exact ⟨[], .noTable hfirst⟩

end Block

end CSE130.Devices
