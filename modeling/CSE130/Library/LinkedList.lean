import Mathlib.Data.List.Nodup
import Mathlib.Logic.Function.Basic

/-!
# Doubly linked lists

A memory gives each address a `next` and a `prev` pointer. A list lies in memory between two
sentinels: `Linked m h t xs` says that the addresses `xs` are linked in this order, in both
directions, between `h` and `t`. Insertion in front of an address and removal of an address are
the usual pointer assignments; on a linked list they do what their names say.
-/

namespace CSE130.Library

universe u

/-- The pointers stored at each address; `none` is the null pointer. -/
structure Memory (α : Type u) where
  next : α → Option α
  prev : α → Option α

namespace Memory

variable {α : Type u}

/-- `x` is linked in front of `before`. -/
def insert [DecidableEq α] (before x : α) (m : Memory α) : Memory α :=
  match m.prev before with
  | none => m
  | some p =>
    { next := Function.update (Function.update m.next x (some before)) p (some x)
      prev := Function.update (Function.update m.prev x (some p)) before (some x) }

/-- `x` is unlinked; its own pointers stay as they are. -/
def remove [DecidableEq α] (x : α) (m : Memory α) : Memory α :=
  match m.prev x, m.next x with
  | some p, some n =>
    { next := Function.update m.next p (some n), prev := Function.update m.prev n (some p) }
  | _, _ => m

/-- The pointers of `x` are set to null. -/
def clear [DecidableEq α] (x : α) (m : Memory α) : Memory α where
  next := Function.update m.next x none
  prev := Function.update m.prev x none

/-- The addresses behind `a` in front of `t`, at most `n` of them. -/
def contents [DecidableEq α] (m : Memory α) (t : α) : Nat → α → List α
  | 0, _ => []
  | n + 1, a =>
    match m.next a with
    | none => []
    | some x => if x = t then [] else x :: m.contents t n x

/-- From `a`, following the pointers through `xs`, one comes to `t`, and back. -/
def Segment (m : Memory α) : α → List α → α → Prop
  | a, [], t => m.next a = some t ∧ m.prev t = some a
  | a, x :: xs, t => m.next a = some x ∧ m.prev x = some a ∧ Segment m x xs t

/-- The list between the sentinels `h` and `t` consists of `xs`. -/
structure Linked (m : Memory α) (h t : α) (xs : List α) : Prop where
  nodup : (h :: (xs ++ [t])).Nodup
  prev_head : m.prev h = none
  next_tail : m.next t = none
  segment : m.Segment h xs t

variable {m m' : Memory α} {a h t x b : α} {xs ys pre post : List α}

/-- The pointers of a segment are its `next` pointers except the last address's, and its `prev`
pointers except the first address's. -/
theorem segment_congr (hnext : ∀ y ∈ a :: xs, m'.next y = m.next y)
    (hprev : ∀ y ∈ xs ++ [t], m'.prev y = m.prev y) :
    m'.Segment a xs t ↔ m.Segment a xs t := by
  induction xs generalizing a with
  | nil => simp [Segment, hnext a (by simp), hprev t (by simp)]
  | cons x xs ih =>
    have htail := ih (fun y hy => hnext y (List.mem_cons_of_mem a hy))
      (fun y hy => hprev y (List.mem_cons_of_mem x hy))
    simp only [Segment, htail, hnext a (by simp), hprev x (by simp)]

theorem segment_next (hs : m.Segment a xs t) : m.next a = (xs ++ [t]).head? := by
  cases xs with
  | nil => exact hs.1
  | cons x xs => exact hs.1

theorem segment_append : m.Segment a (xs ++ x :: ys) t ↔ m.Segment a xs x ∧ m.Segment x ys t := by
  induction xs generalizing a with
  | nil => simp [Segment, and_assoc]
  | cons y xs ih => simp [Segment, ih, and_assoc]

/-- The address behind a prefix of the segment points back into that prefix. -/
theorem segment_prev (hs : m.Segment a (pre ++ post) t) (hb : (post ++ [t]).head? = some b) :
    ∃ p ∈ a :: pre, m.prev b = some p := by
  induction pre generalizing a with
  | nil =>
    cases post with
    | nil =>
      cases hb
      exact ⟨a, by simp, hs.2⟩
    | cons y post =>
      cases hb
      exact ⟨a, by simp, hs.2.1⟩
  | cons y pre ih =>
    obtain ⟨p, hp, hpb⟩ := ih hs.2.2
    exact ⟨p, List.mem_cons_of_mem a hp, hpb⟩

/-- Both pointers of an address inside a segment are set. -/
theorem segment_interior (hs : m.Segment a xs t) (hx : x ∈ xs) :
    ∃ p n, m.prev x = some p ∧ m.next x = some n := by
  obtain ⟨pre, post, rfl⟩ := List.append_of_mem hx
  obtain ⟨p, -, hp⟩ := segment_prev hs rfl
  have hpost := (segment_append.mp hs).2
  cases post with
  | nil => exact ⟨p, t, hp, hpost.1⟩
  | cons y post => exact ⟨p, y, hp, hpost.1⟩

theorem Linked.next_head (hl : m.Linked h t xs) : m.next h = (xs ++ [t]).head? :=
  segment_next hl.segment

/-- The address behind `x`. -/
theorem Linked.next_of_split (hl : m.Linked h t (pre ++ x :: post)) :
    m.next x = (post ++ [t]).head? :=
  segment_next (segment_append.mp hl.segment).2

theorem Linked.interior (hl : m.Linked h t xs) (hx : x ∈ xs) :
    ∃ p n, m.prev x = some p ∧ m.next x = some n :=
  segment_interior hl.segment hx

variable [DecidableEq α]

theorem segment_contents {n : Nat} (hs : m.Segment a xs t) (ht : t ∉ xs) (hn : xs.length ≤ n) :
    m.contents t n a = xs := by
  induction xs generalizing a n with
  | nil =>
    cases n with
    | zero => rfl
    | succ n => simp [contents, hs.1]
  | cons x xs ih =>
    cases n with
    | zero => cases hn
    | succ n =>
      obtain ⟨hnext, -, htail⟩ := hs
      have hxt : x ≠ t := fun heq => ht (by simp [heq])
      have hrest := ih htail (fun hmem => ht (List.mem_cons_of_mem x hmem))
        (Nat.le_of_succ_le_succ hn)
      simp [contents, hnext, hxt, hrest]

/-- Following the pointers finds what is linked. -/
theorem Linked.contents_eq {n : Nat} (hl : m.Linked h t xs) (hn : xs.length ≤ n) :
    m.contents t n h = xs := by
  refine segment_contents hl.segment ?_ hn
  intro hmem
  have hsentinel := (List.nodup_append.mp (List.nodup_cons.mp hl.nodup).2).2.2
  exact hsentinel t hmem t (by simp) rfl

theorem segment_insert (hn : (a :: (pre ++ post ++ [t])).Nodup)
    (hx : x ∉ a :: (pre ++ post ++ [t])) (hs : m.Segment a (pre ++ post) t)
    (hb : (post ++ [t]).head? = some b) :
    (m.insert b x).Segment a (pre ++ x :: post) t := by
  have hbmem : b ∈ post ++ [t] := List.mem_of_mem_head? (by simpa using hb)
  have hxb : x ≠ b := by
    intro hxb
    apply hx
    simp only [hxb, List.mem_cons, List.append_assoc, List.mem_append] at hbmem ⊢
    tauto
  obtain ⟨p, hp, hpb⟩ := segment_prev hs hb
  have hins : m.insert b x =
      { next := Function.update (Function.update m.next x (some b)) p (some x)
        prev := Function.update (Function.update m.prev x (some p)) b (some x) } := by
    rw [insert, hpb]
  rw [hins]
  clear hins
  induction pre generalizing a with
  | nil =>
    obtain rfl : p = a := by simpa using hp
    have hxp : x ≠ p := fun h => hx (by simp [h])
    refine ⟨by simp, by simp [Function.update_of_ne hxb], ?_⟩
    cases post with
    | nil =>
      cases hb
      exact ⟨by simp [Function.update_of_ne hxp], by simp⟩
    | cons y post =>
      cases hb
      refine ⟨by simp [Function.update_of_ne hxp], by simp, ?_⟩
      refine (segment_congr ?_ ?_).mpr hs.2.2
      · intro z hz
        have hzx : z ≠ x := fun h => hx (by rw [← h]; simp at hz ⊢; tauto)
        have hzp : z ≠ p := by
          intro h
          have := (List.nodup_cons.mp hn).1
          rw [← h] at this
          simp at hz this
          tauto
        simp [Function.update_of_ne hzp, Function.update_of_ne hzx]
      · intro z hz
        have hzx : z ≠ x := fun h => hx (by rw [← h]; simp at hz ⊢; tauto)
        have hzb : z ≠ b := by
          rintro rfl
          have := (List.nodup_cons.mp hn).2
          simp only [List.nil_append, List.cons_append, List.nodup_cons] at this
          exact this.1 hz
        simp [Function.update_of_ne hzb, Function.update_of_ne hzx]
  | cons y pre ih =>
    have hn' := (List.nodup_cons.mp hn).2
    have hx' : x ∉ y :: (pre ++ post ++ [t]) := fun h => hx (List.mem_cons_of_mem a h)
    obtain ⟨p', hp', hpb'⟩ := segment_prev hs.2.2 hb
    obtain rfl : p' = p := Option.some.inj (hpb'.symm.trans hpb)
    have hap : a ≠ p' := by
      intro h
      apply (List.nodup_cons.mp hn).1
      rw [h]
      simp only [List.mem_cons, List.cons_append, List.mem_append] at hp' ⊢
      tauto
    have hax : a ≠ x := fun h => hx (by simp [h])
    have hyb : y ≠ b := by
      intro h
      have hnot : y ∉ pre ++ post ++ [t] := (List.nodup_cons.mp hn').1
      simp only [h, List.append_assoc, List.mem_append] at hnot hbmem
      tauto
    have hyx : y ≠ x := fun h => hx (by simp [h])
    exact ⟨by simp [Function.update_of_ne hap, Function.update_of_ne hax, hs.1],
      by simp [Function.update_of_ne hyb, Function.update_of_ne hyx, hs.2.1],
      ih hn' hx' hs.2.2 hp'⟩

/-- Clearing an address outside the list leaves the list alone. -/
theorem Linked.clear (hl : m.Linked h t xs) (hx : x ∉ h :: (xs ++ [t])) :
    (m.clear x).Linked h t xs := by
  obtain ⟨hn, hh, ht, hs⟩ := hl
  have hne : ∀ z ∈ h :: (xs ++ [t]), z ≠ x := fun z hz hzx => hx (hzx ▸ hz)
  refine ⟨hn, ?_, ?_, (segment_congr ?_ ?_).mpr hs⟩
  · simpa [Memory.clear, Function.update_of_ne (hne h (by simp))] using hh
  · simpa [Memory.clear, Function.update_of_ne (hne t (by simp))] using ht
  · intro z hz
    exact Function.update_of_ne (hne z (by simp at hz ⊢; tauto)) _ _
  · intro z hz
    exact Function.update_of_ne (hne z (by simp at hz ⊢; tauto)) _ _

/-- Insertion in front of the address behind `pre`. -/
theorem Linked.insert (hl : m.Linked h t (pre ++ post)) (hx : x ∉ h :: (pre ++ post ++ [t]))
    (hb : (post ++ [t]).head? = some b) : (m.insert b x).Linked h t (pre ++ x :: post) := by
  obtain ⟨hn, hh, ht, hs⟩ := hl
  obtain ⟨p, hp, hpb⟩ := segment_prev hs hb
  have hbmem : b ∈ post ++ [t] := List.mem_of_mem_head? (by simpa using hb)
  have hbt : h ≠ b := by
    intro heq
    apply (List.nodup_cons.mp hn).1
    rw [heq]
    simp only [List.append_assoc, List.mem_append] at hbmem ⊢
    tauto
  have hpt : t ≠ p := by
    rintro rfl
    have := List.nodup_append.mp (List.nodup_cons.mp hn).2
    rcases List.mem_cons.mp hp with rfl | hp
    · exact (List.nodup_cons.mp hn).1 (by simp)
    · exact this.2.2 t (by simp [hp]) t (by simp) rfl
  have hxh : h ≠ x := fun heq => hx (by simp [heq])
  have hxt : t ≠ x := fun heq => hx (by simp [heq])
  refine ⟨?_, ?_, ?_, segment_insert hn hx hs hb⟩
  · have hperm : (h :: (pre ++ x :: post ++ [t])).Perm (x :: h :: (pre ++ post ++ [t])) := by
      have : (pre ++ x :: post ++ [t]).Perm (x :: (pre ++ post ++ [t])) := by
        simp only [List.append_assoc, List.cons_append]
        exact List.perm_middle
      exact (this.cons h).trans (List.Perm.swap x h _)
    exact hperm.nodup_iff.mpr (List.nodup_cons.mpr ⟨hx, hn⟩)
  · simp [Memory.insert, hpb, Function.update_of_ne hbt, Function.update_of_ne hxh, hh]
  · simp [Memory.insert, hpb, Function.update_of_ne hpt, Function.update_of_ne hxt, ht]

/-- Removal of the first address. -/
theorem Linked.remove_first (hl : m.Linked h t (x :: xs)) : (m.remove x).Linked h t xs := by
  obtain ⟨hn, hh, ht, h1, h2, h3⟩ := hl
  have hxn := (List.nodup_cons.mp (List.nodup_cons.mp hn).2)
  have hhx : h ∉ x :: (xs ++ [t]) := (List.nodup_cons.mp hn).1
  have hhn : h ∉ xs ++ [t] := fun hc => hhx (List.mem_cons_of_mem x hc)
  have hnodup : (h :: (xs ++ [t])).Nodup := List.nodup_cons.mpr ⟨hhn, hxn.2⟩
  have hht : t ≠ h := fun heq => hhn (by simp [heq])
  obtain ⟨n, hnx⟩ : ∃ n, (xs ++ [t]).head? = some n := by
    cases xs <;> exact ⟨_, rfl⟩
  have hnext : m.next x = some n := (segment_next h3).trans hnx
  have hnmem : n ∈ xs ++ [t] := List.mem_of_mem_head? (by simpa using hnx)
  have hhne : h ≠ n := fun heq => hhn (heq ▸ hnmem)
  have hrem : m.remove x =
      { next := Function.update m.next h (some n), prev := Function.update m.prev n (some h) } := by
    rw [Memory.remove, h2, hnext]
  rw [hrem]
  refine ⟨hnodup, ?_, ?_, ?_⟩
  · simp [Function.update_of_ne hhne, hh]
  · simp [Function.update_of_ne hht, ht]
  · cases xs with
    | nil =>
      cases hnx
      exact ⟨by simp, by simp⟩
    | cons y ys =>
      cases hnx
      refine ⟨by simp, by simp, ?_⟩
      refine (segment_congr ?_ ?_).mpr h3.2.2
      · intro z hz
        have hzh : z ≠ h := fun heq => hhn (by rw [← heq]; simp at hz ⊢; tauto)
        simp [Function.update_of_ne hzh]
      · intro z hz
        have hzn : z ≠ n := by
          rintro rfl
          exact (List.nodup_cons.mp hxn.2).1 hz
        simp [Function.update_of_ne hzn]

end Memory

end CSE130.Library
