import CSE130.Filesys.OpenFiles
import CSE130.Library.Chunks

/-!
# Splitting a path

Rendering of `strtok_r` (`lib/string.c`) and of `split_path_filename` (`filesys/directory.c`) on the bytes
of their buffers. A pointer into a buffer is an offset; `none` is the literal `""`. No caller hands in a
null pointer for `directory`, and the block that `malloc` returns is there.
-/

namespace CSE130.Filesys

open CSE130.Library OpenInodes

/-- The string at an offset of a buffer. -/
def stringFrom (s : List UInt8) (i : Nat) : List UInt8 := (s.drop i).takeWhile (· ≠ 0)

/-- `strtok_r` (`string.c:234-275`) from the offset `p` on: the token, the buffer and the offset saved. -/
def strtokR (delimiters s : List UInt8) (p : Nat) : Option Nat × List UInt8 × Nat :=
  let token := p + ((s.drop p).takeWhile fun c => c ≠ 0 ∧ c ∈ delimiters).length
  if s.getD token 0 = 0 then (none, s, token)
  else
    let stop := token + ((s.drop token).takeWhile fun c => c ≠ 0 ∧ c ∉ delimiters).length
    if s.getD stop 0 ≠ 0 then (some token, s.set stop 0, stop + 1) else (some token, s, stop)

/-! ## Tokens -/

section Tokens

variable {s r w z : List UInt8} {ws : List (List UInt8)} {i p : Nat}

theorem stringFrom_of_drop (h : s.drop i = w ++ 0 :: z) (hw : (0 : UInt8) ∉ w) :
    stringFrom s i = w := by
  have hpos : ∀ c ∈ w, decide (c ≠ 0) = true := by
    intro c hc
    exact decide_eq_true fun h0 => hw (h0 ▸ hc)
  rw [stringFrom, h, List.takeWhile_append_of_pos hpos, List.takeWhile_cons_of_neg (by simp),
    List.append_nil]

theorem takeWhile_set {α : Type} {test : α → Bool} {l : List α} {k : Nat} (a : α)
    (h : (l.takeWhile test).length < k) : (l.set k a).takeWhile test = l.takeWhile test := by
  induction l generalizing k with
  | nil => rfl
  | cons c l ih =>
    cases k with
    | zero => exact absurd h (Nat.not_lt_zero _)
    | succ k =>
      rw [List.set_cons_succ]
      by_cases hc : test c = true
      · rw [List.takeWhile_cons_of_pos hc, List.length_cons] at h
        rw [List.takeWhile_cons_of_pos hc, List.takeWhile_cons_of_pos hc, ih (by omega)]
      · rw [List.takeWhile_cons_of_neg hc, List.takeWhile_cons_of_neg hc]

/-- A byte that is set behind the end of a string. -/
theorem stringFrom_set {k : Nat} (h : i + (stringFrom s i).length < k) :
    stringFrom (s.set k 0) i = stringFrom s i := by
  rw [stringFrom, List.drop_set, if_neg (by omega)]
  apply takeWhile_set
  rw [stringFrom] at h
  omega

/-- `r` is left of the path in the buffer, from `p` on up to its terminator. -/
structure Rest (s : List UInt8) (p : Nat) (r : List UInt8) : Prop where
  drop : s.drop p = r ++ [0]
  noNul : (0 : UInt8) ∉ r

/-- What the buffer holds behind the first bytes of the rest. -/
theorem Rest.drop_add (h : Rest s p (w ++ r)) : s.drop (p + w.length) = r ++ [0] := by
  rw [← List.drop_drop, h.drop, List.append_assoc, List.drop_left]

theorem Rest.getD_add (h : Rest s p (w ++ r)) : s.getD (p + w.length) 0 = r.headD 0 := by
  have hdrop := h.drop_add
  have hget : s[p + w.length]? = (r ++ [0])[0]? := by rw [← hdrop, List.getElem?_drop, Nat.add_zero]
  rw [List.getD_eq_getElem?_getD, hget]
  cases r <;> rfl

/-- The delimiters at the beginning of the rest, and the bytes that are none. -/
theorem Rest.takeWhile (h : Rest s p r) (test : UInt8 → Bool) :
    (s.drop p).takeWhile (fun c => c ≠ 0 ∧ test c) = r.takeWhile test := by
  obtain ⟨hdrop, hnul⟩ := h
  rw [hdrop]
  clear hdrop
  induction r with
  | nil => simp
  | cons c r ih =>
    rw [List.mem_cons, not_or] at hnul
    obtain ⟨hc, hnul⟩ := hnul
    rw [List.cons_append]
    by_cases ht : test c = true
    · rw [List.takeWhile_cons_of_pos ht, List.takeWhile_cons_of_pos (by simpa using ⟨Ne.symm hc, ht⟩),
        ih hnul]
    · rw [List.takeWhile_cons_of_neg ht, List.takeWhile_cons_of_neg (by simp [ht])]

/-- What `strtok_r` has done where the first word of the rest is `w`. -/
structure TokenRead (s : List UInt8) (p : Nat) (w : List UInt8) (ws : List (List UInt8)) (token : Nat)
    (s' : List UInt8) (p' : Nat) : Prop where
  rest : ∃ r, Rest s' p' r ∧ words slash r = ws
  string : stringFrom s' token = w
  below : token + w.length ≤ p'
  frame : ∀ i, i + (stringFrom s i).length ≤ p → stringFrom s' i = stringFrom s i

theorem Rest.mono (h : Rest s p (w ++ r)) : Rest s (p + w.length) r :=
  ⟨h.drop_add, fun hmem => h.noNul (List.mem_append_right w hmem)⟩

/-- The offset of the first byte that is no delimiter. -/
theorem Rest.skip (h : Rest s p r) :
    p + ((s.drop p).takeWhile fun c => c ≠ 0 ∧ c ∈ [slash]).length =
      p + (r.takeWhile (· = slash)).length := by
  have htake := h.takeWhile fun c => decide (c ∈ [slash])
  simp only [decide_eq_true_eq] at htake
  rw [htake]
  simp only [List.mem_singleton]

theorem strtokR_none (h : Rest s p r) (hr : words slash r = []) :
    ∃ p', strtokR [slash] s p = (none, s, p') := by
  have hall : r.takeWhile (· = slash) = r := by
    apply List.takeWhile_eq_self_iff.mpr
    intro c hc
    exact decide_eq_true (words_eq_nil_iff.mp hr c hc)
  have hend := Rest.getD_add (w := r) (r := []) (by rwa [List.append_nil])
  refine ⟨p + r.length, ?_⟩
  simp only [strtokR, h.skip, hall, hend, List.headD_nil, if_true]

theorem strtokR_some (h : Rest s p r) (hr : words slash r = w :: ws) :
    ∃ token s' p', strtokR [slash] s p = (some token, s', p') ∧
      TokenRead s p w ws token s' p' := by
  have hsplit : r.takeWhile (· = slash) ++ r.dropWhile (· = slash) = r :=
    List.takeWhile_append_dropWhile
  have hwords : words slash (r.dropWhile (· = slash)) = w :: ws := (words_dropWhile r).trans hr
  have hskip := h.skip
  generalize r.takeWhile (· = slash) = a at hsplit hskip
  have hhead := List.head?_dropWhile_not (fun c => decide (c = slash)) r
  generalize r.dropWhile (· = slash) = b at hsplit hwords hhead
  cases b with
  | nil => simp at hwords
  | cons c b =>
    have hc : c ≠ slash := by simpa using hhead
    have hrest : Rest s (p + a.length) (c :: b) := Rest.mono (hsplit ▸ h)
    have hfirst : s.getD (p + a.length) 0 = c := Rest.getD_add (hsplit ▸ h)
    have hnul : c ≠ 0 := fun h0 => hrest.noNul (h0 ▸ List.mem_cons_self)
    have hspan := hrest.takeWhile fun c => decide (c ∉ [slash])
    have hmem : (fun c => decide (c ∉ [slash])) = fun c => decide (c ≠ slash) := by
      simp only [List.mem_singleton, ne_eq]
    simp only [decide_eq_true_eq] at hspan
    rw [hmem] at hspan
    rw [words_cons_of_ne hc] at hwords
    obtain ⟨hw, hws⟩ := List.cons.inj hwords
    have hlen : 0 < w.length := by
      rw [← hw, List.takeWhile_cons_of_pos (by simpa using hc)]
      exact Nat.succ_pos _
    have hword : (c :: b).takeWhile (· ≠ slash) ++ (c :: b).dropWhile (· ≠ slash) = c :: b :=
      List.takeWhile_append_dropWhile
    have hnext := List.head?_dropWhile_not (fun c => decide (c ≠ slash)) (c :: b)
    rw [hw] at hword hspan
    have hwnul : (0 : UInt8) ∉ w := fun hmem =>
      hrest.noNul (hword ▸ List.mem_append_left _ hmem)
    generalize (c :: b).dropWhile (· ≠ slash) = r' at hword hws hnext
    rw [← hword] at hrest
    cases r' with
    | nil =>
      have hend : s.getD (p + a.length + w.length) 0 = 0 := hrest.getD_add
      refine ⟨p + a.length, s, p + a.length + w.length, ?_, ?_⟩
      · simp only [strtokR, hskip, hfirst, if_neg hnul, hspan, hend, ne_eq, not_true_eq_false,
          if_false]
      · constructor
        · exact ⟨[], hrest.mono, hws⟩
        · apply stringFrom_of_drop (z := []) _ hwnul
          rw [hrest.drop, List.append_nil]
        · exact Nat.le_refl _
        · exact fun i _ => rfl
    | cons d r' =>
      have hd : d = slash := by simpa using hnext
      subst hd
      have hend : s.getD (p + a.length + w.length) 0 = slash := hrest.getD_add
      refine ⟨p + a.length, s.set (p + a.length + w.length) 0, p + a.length + w.length + 1, ?_, ?_⟩
      · simp only [strtokR, hskip, hfirst, if_neg hnul, hspan, hend]
        rfl
      · rw [words_cons_sep] at hws
        constructor
        · refine ⟨r', ?_, hws⟩
          have hbehind := hrest.mono
          constructor
          · rw [List.drop_set_of_lt (by omega), ← List.drop_drop, hbehind.drop]
            rfl
          · exact fun hmem => hbehind.noNul (List.mem_cons_of_mem slash hmem)
        · apply stringFrom_of_drop (z := r' ++ [0]) _ hwnul
          rw [List.drop_set, if_neg (by omega), hrest.drop, Nat.add_sub_cancel_left,
            List.append_assoc, List.set_append_right _ _ (Nat.le_refl _), Nat.sub_self]
          rfl
        · omega
        · intro i hi
          exact stringFrom_set (by omega)

end Tokens

namespace PathBuffers

/-- The arrays that `split_path_filename` fills. -/
inductive PathArray where
  | directory
  | filename
  deriving DecidableEq, Repr

/-- Why a call does not end: a write that does not fit an array, or a bound on the rounds of the loop
that was too small. -/
inductive PathFault where
  | overrun (array : PathArray)
  | outOfRounds
  deriving DecidableEq, Repr

/-- `memcpy` (`string.c:6-19`) into an array, from an offset on. -/
def copyTo (which : PathArray) (array : List UInt8) (ofs : Nat) (bytes : List UInt8) :
    Except PathFault (List UInt8) :=
  if ofs + bytes.length ≤ array.length then .ok (overwrite array ofs bytes)
  else .error (.overrun which)

/-- The variables of `split_path_filename`. -/
structure Split where
  s : List UInt8
  p : Nat
  directory : List UInt8
  dir : Nat
  lastToken : Option Nat

/-- The string at `last_token`. -/
def lastString (s : List UInt8) (lastToken : Option Nat) : List UInt8 :=
  match lastToken with
  | none => []
  | some i => stringFrom s i

/-- `last_token` and a `/` are appended to the directory. -/
def appendLast (sp : Split) : Except PathFault Split :=
  if 0 < (lastString sp.s sp.lastToken).length then do
    let last := lastString sp.s sp.lastToken
    let directory ← copyTo .directory sp.directory sp.dir last
    let directory ← copyTo .directory directory (sp.dir + last.length) [slash]
    pure { sp with directory := directory, dir := sp.dir + (last.length + 1) }
  else pure sp

/-- The loop, with a bound on its rounds. -/
def splitTokens : Nat → Split → Except PathFault Split
  | 0, _ => .error .outOfRounds
  | rounds + 1, sp =>
    match strtokR [slash] sp.s sp.p with
    | (none, s, p) => .ok { sp with s := s, p := p }
    | (some token, s, p) => do
      let sp ← appendLast { sp with s := s, p := p }
      splitTokens rounds { sp with lastToken := some token }

/-- What follows the loop. -/
def finish (filename : List UInt8) (sp : Split) : Except PathFault (List UInt8 × List UInt8) := do
  let directory ← copyTo .directory sp.directory sp.dir [0]
  let filename ← copyTo .filename filename 0 (lastString sp.s sp.lastToken ++ [0])
  pure (directory, filename)

/-- The `/` that the directory of an absolute path begins with. -/
def startDirectory (path directory : List UInt8) : Except PathFault (List UInt8 × Nat) :=
  if path.head? = some slash then do
    let directory ← copyTo .directory directory 0 [slash]
    pure (directory, 1)
  else pure (directory, 0)

/-- `split_path_filename` (`directory.c:30-64`) of a path without its terminator: the arrays afterwards. -/
def splitPathFilename (path directory filename : List UInt8) :
    Except PathFault (List UInt8 × List UInt8) := do
  let (directory, dir) ← startDirectory path directory
  let sp ← splitTokens (path.length + 1)
    { s := path ++ [0], p := 0, directory := directory, dir := dir, lastToken := none }
  finish filename sp

/-! ## What is written -/

section Written

variable {which : PathArray} {array array' bs bs' : List UInt8} {ofs : Nat}

theorem copyTo_ok (h : copyTo which array ofs bs = .ok array') :
    array'.length = array.length ∧ ofs + bs.length ≤ array.length := by
  unfold copyTo at h
  split_ifs at h with hfits
  cases h
  exact ⟨length_overwrite hfits, hfits⟩

/-- Two writes, one behind the other, are one. -/
theorem copyTo_append (hofs : ofs ≤ array.length) : copyTo which array ofs (bs ++ bs') = (do
    let array ← copyTo which array ofs bs
    copyTo which array (ofs + bs.length) bs') := by
  unfold copyTo
  by_cases hfits : ofs + bs.length ≤ array.length
  · rw [if_pos hfits]
    simp only [bind, Except.bind]
    rw [length_overwrite hfits, overwrite_overwrite hofs, List.length_append, Nat.add_assoc]
  · rw [if_neg hfits, if_neg]
    · rfl
    · rw [List.length_append]
      omega

/-- The directory and the last token, each with its terminator, are copied to the arrays. -/
def copyBoth (directory : List UInt8) (dir : Nat) (filename : List UInt8)
    (names : List UInt8 × List UInt8) : Except PathFault (List UInt8 × List UInt8) := do
  let directory ← copyTo .directory directory dir (names.1 ++ [0])
  let filename ← copyTo .filename filename 0 (names.2 ++ [0])
  pure (directory, filename)

theorem copyBoth_append {directory filename d last : List UInt8} {dir : Nat}
    (hdir : dir ≤ directory.length) : copyBoth directory dir filename (bs ++ d, last) = (do
      let directory ← copyTo .directory directory dir bs
      copyBoth directory (dir + bs.length) filename (d, last)) := by
  simp only [copyBoth, List.append_assoc, copyTo_append hdir, bind_assoc]

/-- The loop on tokens appends to the directory that it has. -/
theorem splitLoop_append (tokens : List (List UInt8)) (d last : List UInt8) :
    splitLoop tokens d last =
      (d ++ (splitLoop tokens [] last).1, (splitLoop tokens [] last).2) := by
  induction tokens generalizing d last with
  | nil => simp [splitLoop]
  | cons token tokens ih =>
    simp only [splitLoop]
    by_cases hlast : last = []
    · rw [if_neg (by simp [hlast]), if_neg (by simp [hlast])]
      exact ih d token
    · rw [if_pos hlast, if_pos hlast, ih (d ++ last ++ [slash]), ih ([] ++ last ++ [slash])]
      simp

/-- What a round of the loop appends. -/
def piece (last : List UInt8) : List UInt8 := if last ≠ [] then last ++ [slash] else []

theorem splitLoop_cons (token : List UInt8) (tokens : List (List UInt8)) (last : List UInt8) :
    splitLoop (token :: tokens) [] last =
      (piece last ++ (splitLoop tokens [] token).1, (splitLoop tokens [] token).2) := by
  rw [splitLoop, splitLoop_append, List.nil_append, piece]

theorem appendLast_eq {sp : Split} (hdir : sp.dir ≤ sp.directory.length) : appendLast sp = (do
    let directory ← copyTo .directory sp.directory sp.dir (piece (lastString sp.s sp.lastToken))
    pure { sp with
      directory := directory, dir := sp.dir + (piece (lastString sp.s sp.lastToken)).length }) := by
  unfold appendLast piece
  by_cases hlast : lastString sp.s sp.lastToken = []
  · rw [if_neg (by simp [hlast]), if_neg (by simp [hlast]), copyTo, if_pos (by simpa using hdir),
      overwrite_nil]
    rfl
  · rw [if_pos (List.length_pos_iff.mpr hlast), if_pos hlast, copyTo_append hdir, List.length_append,
      List.length_singleton]
    simp only [bind_assoc]

/-- The loop and what follows it, from any of its rounds. -/
theorem splitTokens_finish {rounds : Nat} {sp : Split} {r filename : List UInt8}
    (hrest : Rest sp.s sp.p r) (hrounds : (words slash r).length < rounds)
    (hdir : sp.dir ≤ sp.directory.length)
    (hlast : ∀ i ∈ sp.lastToken, i + (stringFrom sp.s i).length ≤ sp.p) :
    (splitTokens rounds sp >>= finish filename) = copyBoth sp.directory sp.dir filename
      (splitLoop (words slash r) [] (lastString sp.s sp.lastToken)) := by
  induction rounds generalizing sp r with
  | zero => exact absurd hrounds (Nat.not_lt_zero _)
  | succ rounds ih =>
    cases hr : words slash r with
    | nil =>
      obtain ⟨p', hread⟩ := strtokR_none hrest hr
      rw [splitTokens, hread]
      rfl
    | cons w ws =>
      obtain ⟨token, s', p', hread, hafter⟩ := strtokR_some hrest hr
      obtain ⟨r', hrest', hws⟩ := hafter.rest
      have hkeep : lastString s' sp.lastToken = lastString sp.s sp.lastToken := by
        cases hl : sp.lastToken with
        | none => rfl
        | some i => exact hafter.frame i (hlast i hl)
      have happend := @appendLast_eq { sp with s := s', p := p' } hdir
      simp only [hkeep] at happend
      rw [splitTokens, hread, splitLoop_cons, copyBoth_append hdir]
      simp only [happend, bind_assoc, pure_bind]
      cases hcopy : copyTo .directory sp.directory sp.dir (piece (lastString sp.s sp.lastToken)) with
      | error fault => rfl
      | ok directory =>
        obtain ⟨hlen, hfits⟩ := copyTo_ok hcopy
        have hnext : lastString s' (some token) = w := hafter.string
        rw [hr, List.length_cons] at hrounds
        have hloop : (splitTokens rounds _ >>= finish filename) = _ :=
          @ih ⟨s', p', directory, sp.dir + (piece (lastString sp.s sp.lastToken)).length, some token⟩
            r' hrest' (by rw [hws]; omega) (by rw [hlen]; exact hfits) (by
              intro i hi
              cases hi
              rw [hafter.string]
              exact hafter.below)
        rw [hws, hnext] at hloop
        exact hloop

/-- The arrays hold the directory and the file name that the tokens of the path make. -/
theorem splitPathFilename_copyBoth {path : List UInt8} (directory filename : List UInt8)
    (hpath : (0 : UInt8) ∉ path) : splitPathFilename path directory filename =
      copyBoth directory 0 filename (OpenInodes.splitPathFilename path) := by
  have hrest : Rest (path ++ [0]) 0 path := ⟨rfl, hpath⟩
  have hrounds : (words slash path).length < path.length + 1 :=
    Nat.lt_succ_of_le (length_words_le_length path)
  have hlast : ∀ i ∈ (none : Option Nat), i + (stringFrom (path ++ [0]) i).length ≤ 0 := by
    intro i hi
    cases hi
  have hloop : ∀ array dir, dir ≤ array.length →
      (splitTokens (path.length + 1) ⟨path ++ [0], 0, array, dir, none⟩ >>= finish filename) =
        copyBoth array dir filename (splitLoop (words slash path) [] []) := by
    intro array dir hdir
    exact @splitTokens_finish _ ⟨path ++ [0], 0, array, dir, none⟩ path filename hrest hrounds hdir hlast
  rw [splitPathFilename, OpenInodes.splitPathFilename, startDirectory, splitLoop_append]
  by_cases habs : path.head? = some slash
  · rw [if_pos habs, if_pos habs, copyBoth_append (Nat.zero_le _)]
    simp only [bind_assoc, pure_bind]
    cases hcopy : copyTo .directory directory 0 [slash] with
    | error fault => rfl
    | ok array =>
      obtain ⟨hlen, hfits⟩ := copyTo_ok hcopy
      exact hloop array 1 (by rw [hlen]; exact hfits)
  · rw [if_neg habs, if_neg habs, List.nil_append]
    exact hloop directory 0 (Nat.zero_le _)

end Written

/-! ## The two parts of a path -/

/-- `directory` and `filename` are what a path is made of: the components of the one, and the other as the
last component. -/
structure Decomposes (path directory filename : List UInt8) : Prop where
  absolute : directory.head? = some slash ↔ path.head? = some slash
  components : words slash directory ++ (if filename ≠ [] then [filename] else []) = words slash path
  noSlash : slash ∉ filename
  empty : filename = [] ↔ words slash path = []

section Parts

variable {path last : List UInt8} {init : List (List UInt8)}

/-- The `/` of an absolute path. -/
def lead (path : List UInt8) : List UInt8 := if path.head? = some slash then [slash] else []

theorem splitLoop_concat (init : List (List UInt8)) (last w : List UInt8) :
    splitLoop (init ++ [last]) [] w = (piece w ++ init.flatMap piece, last) := by
  induction init generalizing w with
  | nil => simp [splitLoop_cons, splitLoop]
  | cons t init ih => rw [List.cons_append, splitLoop_cons, ih, List.flatMap_cons]

theorem split_empty (h : words slash path = []) :
    OpenInodes.splitPathFilename path = (lead path, []) := by
  rw [OpenInodes.splitPathFilename, h]
  rfl

theorem split_concat (h : words slash path = init ++ [last]) :
    OpenInodes.splitPathFilename path = (lead path ++ init.flatMap (· ++ [slash]), last) := by
  have hpiece : ∀ w ∈ init, piece w = w ++ [slash] := by
    intro w hw
    have hmem : w ∈ words slash path := h ▸ List.mem_append_left _ hw
    exact if_pos (mem_words.mp hmem).2
  rw [OpenInodes.splitPathFilename, h, splitLoop_append, splitLoop_concat, List.flatMap_congr hpiece]
  rfl

theorem words_lead_append (l : List UInt8) : words slash (lead path ++ l) = words slash l := by
  unfold lead
  split_ifs
  · exact words_cons_sep
  · rfl

/-- A relative path begins with its first component. -/
theorem head_directory (h : ∀ w ∈ init, slash ∉ w ∧ w ≠ []) :
    (lead path ++ init.flatMap (· ++ [slash])).head? = some slash ↔ path.head? = some slash := by
  unfold lead
  split_ifs with habs
  · simp [habs]
  · simp only [habs, List.nil_append, iff_false]
    cases init with
    | nil => simp
    | cons w init =>
      obtain ⟨hw, hne⟩ := h w List.mem_cons_self
      obtain ⟨c, w', rfl⟩ := List.exists_cons_of_ne_nil hne
      intro hhead
      have hc : c = slash := by simpa using hhead
      exact hw (hc ▸ List.mem_cons_self)

theorem split_decomposes (path : List UInt8) : Decomposes path
    (OpenInodes.splitPathFilename path).1 (OpenInodes.splitPathFilename path).2 := by
  rcases List.eq_nil_or_concat (words slash path) with h | ⟨init, last, h⟩
  · rw [split_empty h]
    constructor
    · simpa using @head_directory path [] (by simp)
    · have hlead := @words_lead_append path []
      rw [List.append_nil, words_nil] at hlead
      simp [h, hlead]
    · simp
    · simp [h]
  · rw [List.concat_eq_append] at h
    rw [split_concat h]
    have hword : ∀ w ∈ init ++ [last], slash ∉ w ∧ w ≠ [] := by
      intro w hw
      rw [← h] at hw
      exact ⟨sep_notMem_of_mem_words hw, (mem_words.mp hw).2⟩
    have hinit : ∀ w ∈ init, slash ∉ w ∧ w ≠ [] := fun w hw => hword w (List.mem_append_left _ hw)
    obtain ⟨hslash, hne⟩ := hword last (List.mem_append_right _ (List.mem_singleton_self last))
    constructor
    · exact head_directory hinit
    · rw [words_lead_append, words_flatMap hinit, if_pos hne, h]
    · exact hslash
    · simp [hne, h]

theorem length_lead_add_words (path : List UInt8) :
    (lead path).length + (words slash path).length ≤ path.count slash + 1 := by
  unfold lead
  split_ifs with habs
  · obtain ⟨l, rfl⟩ := List.head?_eq_some_iff.mp habs
    have hle := @length_words_le _ _ slash l
    rw [words_cons_sep, List.count_cons_self, List.length_singleton]
    omega
  · simpa using @length_words_le _ _ slash path

/-- Behind every component of the directory there is a `/` in the path. -/
theorem length_split_le (path : List UInt8) : (OpenInodes.splitPathFilename path).1.length +
    (OpenInodes.splitPathFilename path).2.length ≤ path.length := by
  rcases List.eq_nil_or_concat (words slash path) with h | ⟨init, last, h⟩
  · rw [split_empty h, lead]
    split_ifs with habs
    · obtain ⟨l, rfl⟩ := List.head?_eq_some_iff.mp habs
      simp
    · simp
  · rw [List.concat_eq_append] at h
    rw [split_concat h]
    have hcount := length_lead_add_words path
    have hall := @length_flatten_words _ _ slash path
    have hinit : (init.flatMap (· ++ [slash])).length = init.flatten.length + init.length := by
      clear h
      induction init with
      | nil => rfl
      | cons w init ih =>
        simp only [List.flatMap_cons, List.flatten_cons, List.length_append, List.length_cons, ih,
          List.length_nil]
        omega
    rw [h] at hcount hall
    simp only [List.length_append, List.flatten_append, List.flatten_singleton,
      List.length_singleton, hinit] at hcount hall ⊢
    omega

theorem notMem_split {x : UInt8} (hx : x ∉ path) (hslash : x ≠ slash) :
    x ∉ (OpenInodes.splitPathFilename path).1 ∧ x ∉ (OpenInodes.splitPathFilename path).2 := by
  have hlead : x ∉ lead path := by
    unfold lead
    split_ifs <;> simp [hslash]
  rcases List.eq_nil_or_concat (words slash path) with h | ⟨init, last, h⟩
  · rw [split_empty h]
    exact ⟨hlead, by simp⟩
  · rw [List.concat_eq_append] at h
    rw [split_concat h]
    have hword : ∀ w ∈ init ++ [last], x ∉ w := by
      intro w hw hmem
      exact hx (mem_of_mem_words (h ▸ hw) hmem)
    refine ⟨?_, hword last (List.mem_append_right _ (List.mem_singleton_self last))⟩
    rw [List.mem_append, List.mem_flatMap]
    rintro (hmem | ⟨w, hw, hmem⟩)
    · exact hlead hmem
    · rcases List.mem_append.mp hmem with hmem | hmem
      · exact hword w (List.mem_append_left _ hw) hmem
      · exact hslash (List.mem_singleton.mp hmem)

theorem stringFrom_overwrite {array w : List UInt8} (hw : (0 : UInt8) ∉ w) :
    stringFrom (overwrite array 0 (w ++ [0])) 0 = w := by
  have hdrop : (overwrite array 0 (w ++ [0])).drop 0 = w ++ 0 :: array.drop (0 + (w ++ [0]).length) := by
    simp [overwrite]
  exact stringFrom_of_drop hdrop hw

/-- Copying both strings succeeds when there is room for each. -/
theorem copyBoth_ok_iff {directory filename : List UInt8} {names r : List UInt8 × List UInt8} :
    copyBoth directory 0 filename names = .ok r ↔
      (names.1.length < directory.length ∧ names.2.length < filename.length) ∧
        r = (overwrite directory 0 (names.1 ++ [0]), overwrite filename 0 (names.2 ++ [0])) := by
  simp only [copyBoth, copyTo, List.length_append, List.length_singleton, Nat.zero_add,
    Nat.succ_le_iff]
  by_cases hd : names.1.length < directory.length
  · by_cases hf : names.2.length < filename.length
    · rw [if_pos hd, if_pos hf]
      simp only [bind, Except.bind, pure, Except.pure, Except.ok.injEq, hd, hf, and_self, true_and]
      exact eq_comm
    · rw [if_pos hd, if_neg hf]
      simp [bind, Except.bind, hf]
  · rw [if_neg hd]
    simp [bind, Except.bind, hd]

end Parts

/-- `split_path_filename` ends when the arrays are longer than the path, and the strings that it leaves in
the arrays are the two parts of the path. -/
theorem splitPathFilename_decomposes (path directory filename : List UInt8)
    (hpath : (0 : UInt8) ∉ path) :
    (path.length < directory.length → path.length < filename.length →
      ∃ arrays, splitPathFilename path directory filename = .ok arrays) ∧
    ∀ arrays, splitPathFilename path directory filename = .ok arrays →
      Decomposes path (stringFrom arrays.1 0) (stringFrom arrays.2 0) := by
  rw [splitPathFilename_copyBoth directory filename hpath]
  have hle := length_split_le path
  obtain ⟨hdirectory, hfilename⟩ := notMem_split hpath (by decide)
  refine ⟨fun hd hf => ⟨_, copyBoth_ok_iff.mpr ⟨⟨by omega, by omega⟩, rfl⟩⟩, ?_⟩
  intro arrays harrays
  obtain ⟨-, rfl⟩ := copyBoth_ok_iff.mp harrays
  rw [stringFrom_overwrite hdirectory, stringFrom_overwrite hfilename]
  exact split_decomposes path

/-- `"//a/bc/"`. -/
def slashedPath : List UInt8 := [47, 47, 97, 47, 98, 99, 47]

theorem splitPathFilename_decomposes_slashedPath :
    (slashedPath.length < 8 → slashedPath.length < 8 →
      ∃ arrays, splitPathFilename slashedPath (List.replicate 8 255) (List.replicate 8 255) = .ok arrays) ∧
    ∀ arrays,
      splitPathFilename slashedPath (List.replicate 8 255) (List.replicate 8 255) = .ok arrays →
        Decomposes slashedPath (stringFrom arrays.1 0) (stringFrom arrays.2 0) :=
  splitPathFilename_decomposes slashedPath (List.replicate 8 255) (List.replicate 8 255) (by decide)

end PathBuffers

end CSE130.Filesys
