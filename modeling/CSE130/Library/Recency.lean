import Mathlib.Data.List.Dedup
import Mathlib.Data.List.DropRight

/-!
# The last occurrences of the elements of a list

`lastIndex l a` is the place of the last `a` in `l`. `l.dedup` keeps the last occurrences of `l` in
their order, and `recent n l` are the last `n` of them. When `a` is appended to `l`, the recent
elements change as a list does that moves `a` to its end and then drops what it has too much at its
head.
-/

namespace CSE130.Recency

variable {α : Type*} [DecidableEq α] {l : List α} {a b : α} {n m : Nat}

/-- The place of the last `a` in `l`. -/
def lastIndex (l : List α) (a : α) : Nat := l.length - 1 - l.reverse.idxOf a

@[simp] theorem lastIndex_append_self (l : List α) (a : α) : lastIndex (l ++ [a]) a = l.length := by
  simp [lastIndex]

theorem lastIndex_append_of_ne (hne : b ≠ a) (ha : a ∈ l) :
    lastIndex (l ++ [b]) a = lastIndex l a := by
  have hpos : 0 < l.length := List.length_pos_of_mem ha
  simp only [lastIndex, List.reverse_append, List.reverse_singleton, List.singleton_append,
    List.idxOf_cons_ne _ hne, List.length_append, List.length_singleton]
  omega

theorem lastIndex_lt (ha : a ∈ l) : lastIndex l a < l.length := by
  have hpos : 0 < l.length := List.length_pos_of_mem ha
  unfold lastIndex
  omega

/-- The element at its last place. -/
theorem getElem?_lastIndex (ha : a ∈ l) : l[lastIndex l a]? = some a := by
  induction l using List.reverseRecOn with
  | nil => simp at ha
  | append_singleton l b ih =>
    by_cases hb : b = a
    · subst hb
      simp
    · have hal : a ∈ l := by simpa [Ne.symm hb] using ha
      rw [lastIndex_append_of_ne hb hal, List.getElem?_append_left (lastIndex_lt hal)]
      exact ih hal

theorem lastIndex_inj (ha : a ∈ l) (hb : b ∈ l) (h : lastIndex l a = lastIndex l b) : a = b := by
  have hat := getElem?_lastIndex ha
  rw [h, getElem?_lastIndex hb] at hat
  exact (Option.some.inj hat).symm

theorem dedup_append_singleton (l : List α) (a : α) :
    (l ++ [a]).dedup = l.dedup.filter (· ≠ a) ++ [a] := by
  induction l with
  | nil => simp
  | cons b l ih =>
    rw [List.cons_append]
    by_cases hb : b = a
    · subst hb
      rw [List.dedup_cons_of_mem (by simp), ih]
      by_cases hbl : b ∈ l
      · rw [List.dedup_cons_of_mem hbl]
      · rw [List.dedup_cons_of_notMem hbl, List.filter_cons_of_neg (by simp)]
    · by_cases hbl : b ∈ l
      · rw [List.dedup_cons_of_mem (by simp [hbl]), List.dedup_cons_of_mem hbl, ih]
      · rw [List.dedup_cons_of_notMem (by simp [hbl, hb]), List.dedup_cons_of_notMem hbl, ih,
          List.filter_cons_of_pos (by simpa using hb), List.cons_append]

/-! ## The most recent elements -/

/-- The `n` elements of `l` that occurred last, in the order of their last occurrences. -/
def recent (n : Nat) (l : List α) : List α := l.dedup.rtake n

@[simp] theorem recent_nil (n : Nat) : recent n ([] : List α) = [] := by
  simp [recent]

theorem length_recent (n : Nat) (l : List α) : (recent n l).length = min n l.dedup.length := by
  simp only [recent, List.rtake, List.length_drop]
  omega

theorem recent_suffix (n : Nat) (l : List α) : recent n l <:+ l.dedup := List.drop_suffix _ _

/-- The recent elements are among those of a larger number. -/
theorem recent_suffix_of_le (h : n ≤ m) (l : List α) : recent n l <:+ recent m l := by
  apply List.suffix_of_suffix_length_le (recent_suffix n l) (recent_suffix m l)
  rw [length_recent, length_recent]
  omega

/-- The distinct elements before the recent ones. There are none unless `n` elements are recent. -/
theorem exists_dedup_eq (n : Nat) (l : List α) :
    ∃ old, l.dedup = old ++ recent n l ∧ (old ≠ [] → (recent n l).length = n) := by
  obtain ⟨old, hold⟩ := recent_suffix n l
  refine ⟨old, hold.symm, ?_⟩
  intro hne
  have hpos := List.length_pos_iff.mpr hne
  have hlen := congrArg List.length hold
  rw [List.length_append] at hlen
  have hmin := length_recent n l
  omega

omit [DecidableEq α] in
theorem rtake_append_of_length {l l' : List α} (h : l'.length = n) : (l ++ l').rtake n = l' := by
  subst h
  simp [List.rtake]

omit [DecidableEq α] in
theorem rtake_of_length_le {l : List α} (h : l.length ≤ n) : l.rtake n = l := by
  simp [List.rtake, Nat.sub_eq_zero_of_le h]

/-- A recent element that occurs again moves to the end. -/
theorem recent_append_of_mem (h : a ∈ recent n l) :
    recent n (l ++ [a]) = (recent n l).filter (· ≠ a) ++ [a] := by
  obtain ⟨old, hold, hfull⟩ := exists_dedup_eq n l
  have hnodup := List.nodup_dedup l
  rw [hold, List.nodup_append] at hnodup
  have hkeep : old.filter (· ≠ a) = old := by
    rw [List.filter_eq_self]
    intro b hb
    simpa using hnodup.2.2 b hb a h
  have hlen : ((recent n l).filter (· ≠ a) ++ [a]).length = (recent n l).length := by
    have herase : (recent n l).filter (· ≠ a) = (recent n l).erase a := by
      rw [hnodup.2.1.erase_eq_filter]
      exact List.filter_congr fun v _ => by rw [bne, Bool.beq_eq_decide_eq, decide_not]
    rw [herase, List.length_append, List.length_erase_of_mem h, List.length_singleton]
    have hpos := List.length_pos_of_mem h
    omega
  unfold recent at hlen ⊢
  rw [dedup_append_singleton]
  conv_lhs => rw [hold]
  rw [List.filter_append, hkeep, List.append_assoc]
  by_cases hnil : old = []
  · rw [hnil, List.nil_append]
    apply rtake_of_length_le
    unfold recent
    rw [hlen, List.rtake, List.length_drop]
    omega
  · apply rtake_append_of_length
    exact hlen.trans (hfull hnil)

/-- Any other element goes to the end, and where `n` elements are recent the first one leaves. -/
theorem recent_append_of_notMem (hn : 1 ≤ n) (h : a ∉ recent n l) :
    recent n (l ++ [a]) =
      (if (recent n l).length = n then (recent n l).tail else recent n l) ++ [a] := by
  obtain ⟨old, hold, hfull⟩ := exists_dedup_eq n l
  have hkeep : (recent n l).filter (· ≠ a) = recent n l := by
    rw [List.filter_eq_self]
    intro b hb
    simpa using fun heq : b = a => h (heq ▸ hb)
  obtain ⟨k, rfl⟩ : ∃ k, n = k + 1 := ⟨n - 1, by omega⟩
  have hsplit : recent (k + 1) (l ++ [a]) =
      (old.filter (· ≠ a) ++ recent (k + 1) l).rtake k ++ [a] := by
    conv_lhs => rw [recent, dedup_append_singleton, List.rtake_concat_succ, hold,
      List.filter_append, hkeep]
  rw [hsplit]
  split_ifs with hlen
  · obtain ⟨b, rest, hrest⟩ := List.exists_cons_of_length_pos (l := recent (k + 1) l) (by omega)
    have hk : rest.length = k := by
      rw [hrest, List.length_cons] at hlen
      omega
    rw [hrest, List.append_cons _ b rest, rtake_append_of_length hk, List.tail_cons]
  · have hnil : old = [] := by
      by_contra hne
      exact hlen (hfull hne)
    have hle : (recent (k + 1) l).length ≤ k := by
      have hmin := length_recent (k + 1) l
      omega
    rw [hnil, List.filter_nil, List.nil_append, rtake_of_length_le hle]

example : recent 2 [7, 8, 7, 9, 8] = [9, 8] := by decide

end CSE130.Recency
