import Mathlib.Data.List.TakeWhile
import Mathlib.Tactic.SplitIfs

/-!
# Words between separators

The words of a list are its maximal runs of elements that are no separators. `scanBack` collects them
in one scan from the end of the list, with the word that it is in and a flag for a separator just
passed.
-/

namespace CSE130.Library

variable {α : Type} [DecidableEq α]

/-- The maximal runs of elements other than `sep`. -/
def words (sep : α) (l : List α) : List (List α) :=
  (l.splitOnP (· = sep)).filter (· ≠ [])

/-- A scan from the end of the list: the words that it has completed, the elements before them up to
the last separator, and whether the element looked at last is a separator. -/
def scanBack (sep : α) : List α → List (List α) × List α × Bool
  | [] => ([], [], false)
  | c :: l =>
    match scanBack sep l with
    | (fs, cur, prev) =>
      if c = sep then (if prev then fs else cur :: fs, [], true) else (fs, c :: cur, false)

variable {sep c : α} {l : List α}

theorem scanBack_cons_sep : scanBack sep (sep :: l) =
    (if (scanBack sep l).2.2 then (scanBack sep l).1
      else (scanBack sep l).2.1 :: (scanBack sep l).1, [], true) := by
  simp [scanBack]

theorem scanBack_cons_of_ne (hc : c ≠ sep) :
    scanBack sep (c :: l) = ((scanBack sep l).1, c :: (scanBack sep l).2.1, false) := by
  simp [scanBack, hc]

/-- The word that the scan is in is a prefix of the list. -/
theorem scanBack_word_starts (sep : α) (l : List α) : (scanBack sep l).2.1 <+: l := by
  induction l with
  | nil => exact List.nil_prefix
  | cons c l ih =>
    by_cases hc : c = sep
    · subst hc
      rw [scanBack_cons_sep]
      exact List.nil_prefix
    · rw [scanBack_cons_of_ne hc]
      exact (List.prefix_cons_inj c).mpr ih

theorem mem_of_mem_scanBack {w : List α} (hw : w ∈ (scanBack sep l).1) {x : α} (hx : x ∈ w) :
    x ∈ l := by
  induction l with
  | nil => simp [scanBack] at hw
  | cons c l ih =>
    apply List.mem_cons_of_mem
    by_cases hc : c = sep
    · subst hc
      rw [scanBack_cons_sep] at hw
      split_ifs at hw with hprev
      · exact ih hw
      · cases hw with
        | head => exact (scanBack_word_starts c l).subset hx
        | tail _ hw => exact ih hw
    · rw [scanBack_cons_of_ne hc] at hw
      exact ih hw

/-- A separator at the end of the list is taken for the end of an empty word. -/
theorem nil_mem_scanBack (hl : l ≠ []) (hlast : l.getLast hl = sep) : [] ∈ (scanBack sep l).1 := by
  induction l with
  | nil => exact absurd rfl hl
  | cons c l ih =>
    cases l with
    | nil =>
      have hc : c = sep := hlast
      subst hc
      rw [scanBack_cons_sep]
      simp [scanBack]
    | cons d l =>
      have hrest : [] ∈ (scanBack sep (d :: l)).1 := by
        apply ih
        rw [← hlast, List.getLast_cons (List.cons_ne_nil d l)]
      by_cases hc : c = sep
      · subst hc
        rw [scanBack_cons_sep]
        split_ifs
        · exact hrest
        · exact List.mem_cons_of_mem _ hrest
      · rw [scanBack_cons_of_ne hc]
        exact hrest

/-- The scan of a list that does not end with a separator is in step with the pieces between the
separators. -/
structure ScanSplits (sep : α) (l : List α) : Prop where
  pieces : ∃ gs, l.splitOnP (· = sep) = (scanBack sep l).2.1 :: gs ∧
    gs.filter (· ≠ []) = (scanBack sep l).1
  flag : (scanBack sep l).2.2 = true ↔ (scanBack sep l).2.1 = []

theorem scanBack_splits (hl : l ≠ []) (hlast : l.getLast hl ≠ sep) : ScanSplits sep l := by
  induction l with
  | nil => exact absurd rfl hl
  | cons c l ih =>
    cases l with
    | nil =>
      have hc : c ≠ sep := hlast
      constructor
      · refine ⟨[], ?_, ?_⟩
        · simp [scanBack, List.splitOnP_cons_eq_if_modifyHead, hc]
        · simp [scanBack, hc]
      · simp [scanBack, hc]
    | cons d l =>
      have hrest : ScanSplits sep (d :: l) := by
        apply ih (List.cons_ne_nil d l)
        rw [← List.getLast_cons (a := c) (List.cons_ne_nil d l)]
        exact hlast
      obtain ⟨gs, hgs, hfs⟩ := hrest.pieces
      by_cases hc : c = sep
      · subst hc
        constructor
        · refine ⟨(scanBack c (d :: l)).2.1 :: gs, ?_, ?_⟩
          · rw [scanBack_cons_sep, List.splitOnP_cons_eq_if_modifyHead, hgs]
            simp
          · rw [scanBack_cons_sep, List.filter_cons, hfs]
            by_cases hprev : (scanBack c (d :: l)).2.2 = true
            · have hcur := hrest.flag.mp hprev
              simp [hprev, hcur]
            · have hcur := mt hrest.flag.mpr hprev
              simp [hprev, hcur]
        · rw [scanBack_cons_sep]
          simp
      · constructor
        · refine ⟨gs, ?_, ?_⟩
          · rw [scanBack_cons_of_ne hc, List.splitOnP_cons_eq_if_modifyHead, hgs]
            simp [hc]
          · rw [scanBack_cons_of_ne hc]
            exact hfs
        · rw [scanBack_cons_of_ne hc]
          simp

theorem mem_words {w : List α} :
    w ∈ words sep l ↔ w ∈ l.splitOnP (· = sep) ∧ w ≠ [] := by
  simp [words, List.mem_filter]

theorem nil_notMem_words : [] ∉ words sep l := fun h => (mem_words.mp h).2 rfl

theorem ne_sep_of_mem_splitOnP {w : List α} (hw : w ∈ l.splitOnP (· = sep)) {x : α} (hx : x ∈ w) :
    x ≠ sep ∧ x ∈ l := by
  induction l generalizing w with
  | nil =>
    rw [List.splitOnP_nil, List.mem_singleton] at hw
    simp [hw] at hx
  | cons c l ih =>
    obtain ⟨cur, gs, hgs⟩ := List.exists_cons_of_ne_nil (List.splitOnP_ne_nil (· = sep) l)
    rw [hgs] at ih
    rw [List.splitOnP_cons_eq_if_modifyHead, hgs] at hw
    by_cases hc : c = sep
    · simp only [hc, decide_true, if_true, List.mem_cons] at hw
      rcases hw with rfl | hw
      · cases hx
      · have hrest := ih (List.mem_cons.mpr hw) hx
        exact ⟨hrest.1, List.mem_cons_of_mem c hrest.2⟩
    · simp only [hc, decide_false, Bool.false_eq_true, if_false, List.modifyHead_cons,
        List.mem_cons] at hw
      rcases hw with rfl | hw
      · cases hx with
        | head => exact ⟨hc, List.mem_cons_self⟩
        | tail _ hx =>
          have hrest := ih List.mem_cons_self hx
          exact ⟨hrest.1, List.mem_cons_of_mem c hrest.2⟩
      · have hrest := ih (List.mem_cons_of_mem cur hw) hx
        exact ⟨hrest.1, List.mem_cons_of_mem c hrest.2⟩

theorem sep_notMem_of_mem_words {w : List α} (hw : w ∈ words sep l) : sep ∉ w :=
  fun hmem => (ne_sep_of_mem_splitOnP (mem_words.mp hw).1 hmem).1 rfl

theorem mem_of_mem_words {w : List α} (hw : w ∈ words sep l) {x : α} (hx : x ∈ w) : x ∈ l :=
  (ne_sep_of_mem_splitOnP (mem_words.mp hw).1 hx).2

/-- The scan finds the words of a list that neither starts nor ends with a separator, also where it
does not look at the first element. -/
theorem words_cons (hc : c ≠ sep) (hlast : (c :: l).getLast (List.cons_ne_nil c l) ≠ sep) :
    words sep (c :: l) = (c :: (scanBack sep l).2.1) :: (scanBack sep l).1 := by
  cases l with
  | nil => simp [words, scanBack, List.splitOnP_cons_eq_if_modifyHead, hc]
  | cons d l =>
    have hsplits : ScanSplits sep (d :: l) := by
      apply scanBack_splits (List.cons_ne_nil d l)
      rw [← List.getLast_cons (a := c) (List.cons_ne_nil d l)]
      exact hlast
    obtain ⟨gs, hgs, hfs⟩ := hsplits.pieces
    rw [words, List.splitOnP_cons_eq_if_modifyHead, hgs, ← hfs]
    simp [hc]

/-! ## Composition -/

section Composition

variable {w : List α}

@[simp] theorem words_nil : words sep ([] : List α) = [] := by
  simp [words]

@[simp] theorem words_cons_sep : words sep (sep :: l) = words sep l := by
  simp [words, List.splitOnP_cons_eq_if_modifyHead]

theorem words_of_notMem (hw : sep ∉ w) (hne : w ≠ []) : words sep w = [w] := by
  have hpieces : w.splitOnP (· = sep) = [w] := by
    apply List.splitOnP_eq_singleton
    intro x hx
    exact decide_eq_false fun h => hw (h ▸ hx)
  simp [words, hpieces, hne]

/-- The words of two lists with a separator between them. -/
theorem words_append_sep (l l' : List α) : words sep (l ++ sep :: l') = words sep l ++ words sep l' := by
  have hpieces : (l ++ sep :: l').splitOnP (· = sep) =
      l.splitOnP (· = sep) ++ l'.splitOnP (· = sep) :=
    List.splitOnP_append_cons l l' (decide_eq_true rfl)
  rw [words, hpieces, List.filter_append]
  rfl

theorem words_word_append (hw : sep ∉ w) (hne : w ≠ []) :
    words sep (w ++ sep :: l) = w :: words sep l := by
  rw [words_append_sep, words_of_notMem hw hne, List.singleton_append]

/-- The words of words that are followed by a separator each. -/
theorem words_flatMap {ws : List (List α)} (hws : ∀ w ∈ ws, sep ∉ w ∧ w ≠ []) :
    words sep (ws.flatMap (· ++ [sep])) = ws := by
  induction ws with
  | nil => simp
  | cons w ws ih =>
    obtain ⟨hw, hne⟩ := hws w List.mem_cons_self
    rw [List.flatMap_cons, List.append_assoc, List.singleton_append, words_word_append hw hne,
      ih fun v hv => hws v (List.mem_cons_of_mem w hv)]

theorem words_dropWhile (l : List α) : words sep (l.dropWhile (· = sep)) = words sep l := by
  induction l with
  | nil => rfl
  | cons c l ih =>
    by_cases hc : c = sep
    · subst hc
      rw [List.dropWhile_cons_of_pos (by simp), ih, words_cons_sep]
    · rw [List.dropWhile_cons_of_neg (by simpa using hc)]

/-- The first word goes to the first separator. -/
theorem words_cons_of_ne (hc : c ≠ sep) : words sep (c :: l) =
    (c :: l).takeWhile (· ≠ sep) :: words sep ((c :: l).dropWhile (· ≠ sep)) := by
  have hnot : sep ∉ (c :: l).takeWhile (· ≠ sep) := by
    intro hmem
    simpa using List.mem_takeWhile_imp hmem
  have hne : (c :: l).takeWhile (· ≠ sep) ≠ [] := by
    rw [List.takeWhile_cons_of_pos (by simpa using hc)]
    exact List.cons_ne_nil _ _
  have hsplit : (c :: l).takeWhile (· ≠ sep) ++ (c :: l).dropWhile (· ≠ sep) = c :: l :=
    List.takeWhile_append_dropWhile
  generalize hw : (c :: l).takeWhile (· ≠ sep) = w at hnot hne hsplit
  cases hrest : (c :: l).dropWhile (· ≠ sep) with
  | nil =>
    rw [hrest, List.append_nil] at hsplit
    rw [← hsplit, words_of_notMem hnot hne, words_nil]
  | cons d rest =>
    have hd : d = sep := by
      have hhead := List.head?_dropWhile_not (fun x => decide (x ≠ sep)) (c :: l)
      rw [hrest] at hhead
      simpa using hhead
    rw [hrest, hd] at hsplit
    rw [hd]
    rw [← hsplit, words_word_append hnot hne, words_cons_sep]

end Composition

/-! ## Lengths -/

theorem words_eq_nil_iff : words sep l = [] ↔ ∀ x ∈ l, x = sep := by
  induction l with
  | nil => simp
  | cons c l ih =>
    by_cases hc : c = sep
    · subst hc
      simp [ih]
    · rw [words_cons_of_ne hc]
      simp [hc]

/-- Every element is a separator or in a word. -/
theorem length_flatten_words (l : List α) : (words sep l).flatten.length + l.count sep = l.length := by
  rw [words, List.flatten_filter_ne_nil]
  induction l with
  | nil => rfl
  | cons c l ih =>
    obtain ⟨cur, gs, hgs⟩ := List.exists_cons_of_ne_nil (List.splitOnP_ne_nil (· = sep) l)
    rw [hgs] at ih
    rw [List.splitOnP_cons_eq_if_modifyHead, hgs, List.count_cons]
    by_cases hc : c = sep
    · simp [hc] at ih ⊢
      omega
    · simp [hc] at ih ⊢
      omega

theorem length_splitOnP (l : List α) : (l.splitOnP (· = sep)).length = l.count sep + 1 := by
  induction l with
  | nil => rfl
  | cons c l ih =>
    rw [List.splitOnP_cons_eq_if_modifyHead]
    by_cases hc : c = sep <;> simp [hc, ih]

/-- No word is empty. -/
theorem length_words_le_length (l : List α) : (words sep l).length ≤ l.length := by
  have hle : (words sep l).length ≤ (words sep l).flatten.length := by
    have hne : ∀ w ∈ words sep l, w ≠ [] := fun w hw => (mem_words.mp hw).2
    generalize words sep l = ws at hne
    induction ws with
    | nil => exact Nat.le_refl 0
    | cons w ws ih =>
      have hw := List.length_pos_iff.mpr (hne w List.mem_cons_self)
      have hrest := ih fun v hv => hne v (List.mem_cons_of_mem w hv)
      rw [List.flatten_cons, List.length_append, List.length_cons]
      omega
  have hall := @length_flatten_words α _ sep l
  omega

/-- There is a separator between two words. -/
theorem length_words_le (l : List α) : (words sep l).length ≤ l.count sep + 1 :=
  length_splitOnP l ▸ List.length_filter_le _ _

end CSE130.Library
