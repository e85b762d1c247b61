import CSE130.Userprog.ArgumentBlock
import Mathlib.Tactic.ByContra

/-!
# The bounds of `push_command`

Which command lines stay inside the array `offsets` and the stack page, where `malloc` and `calloc`
succeed and where they may fail.
-/

namespace CSE130.Userprog

open Library

/-- The access stays inside its object: the line from index 0 on, the 1000 entries of `offsets`, the
stack page, a page of the kernel pool. -/
def Access.InBounds : Access → Prop
  | .source start _ => 0 ≤ start
  | .buffer len size => 0 ≤ len ∧ len ≤ size
  | .offset index => 0 ≤ index ∧ index < 1000
  | .stack addr len => stackBottom ≤ addr ∧ addr + len ≤ physBase
  | .page start len => 0 ≤ start ∧ start + len ≤ pgsize
  | .null => False

/-- The bytes that are passed over below strings of `n` bytes. -/
def padding (n : Nat) : Nat := if n % 4 = 0 then 4 else n % 4

/-- The size of an argument block: the strings, the padding, a pointer for each string, and the null
pointer, `argv`, `argc` and the return address. -/
def blockSize (args : List (List UInt8)) : Nat :=
  (strings args).length + padding (strings args).length + 4 * args.length + 16

/-- Accesses of a stack in its page that uses as many entries of `offsets` as there are. -/
theorem Access.Within.inBounds {esp : Int} {count : Nat} {a : Access}
    (h : a.Within esp physBase count) (hesp : stackBottom ≤ esp) (hcount : count ≤ 1000) :
    a.InBounds := by
  cases a with
  | source start len => exact h
  | buffer len size => exact h
  | offset index =>
    refine ⟨h.1, ?_⟩
    have := h.2
    omega
  | stack addr len => exact ⟨Int.le_trans hesp h.1, h.2⟩
  | page start len => exact h.elim
  | null => exact h.elim

section PushCommand

variable {line : CString} {mem : Mem}

theorem length_le_strings (args : List (List UInt8)) : args.length ≤ (strings args).length := by
  induction args with
  | nil => exact Nat.le_refl _
  | cons w args ih =>
    rw [strings_cons, List.length_append, List.length_append, List.length_cons,
      List.length_singleton]
    omega

/-- A block that fits the page has few strings. -/
theorem length_le_of_blockSize {args : List (List UInt8)} (h : blockSize args ≤ pgsize) :
    args.length ≤ 1000 := by
  have hcount := length_le_strings args
  have hpgsize : pgsize = 4096 := rfl
  rw [blockSize] at h
  omega

/-- The stack pointer and the accesses do not depend on what is in the memory. -/
theorem pushed_anyMemory (mem : Mem) (hne : line.bytes ≠ []) :
    Pushed physBase physBase (pushedStrings line.bytes)
      (pushWords line { esp := physBase, mem := mem, offsets := [], accesses := [] }) :=
  pushed_words hne fun _ hle hlt => absurd hlt (Int.not_lt.mpr hle)

theorem pushCommand_esp (hne : line.bytes ≠ []) :
    (pushCommand line physBase mem).esp = physBase - blockSize (pushedStrings line.bytes) := by
  have hpushed := pushed_anyMemory mem hne
  have hesp := hpushed.esp
  have htop : (physBase : Int) = 0xc0000000 := by decide
  rw [pushCommand_eq, pushTable_esp, hpushed.offsets_length, blockSize, padding]
  split_ifs <;> push_cast <;> omega

theorem pushCommand_offsets (hne : line.bytes ≠ []) :
    (pushCommand line physBase mem).offsets.length = (pushedStrings line.bytes).length := by
  rw [pushCommand_eq, ← (pushed_anyMemory mem hne).offsets_length]
  have hheader : ∀ p : Push, p.pushHeader.offsets = p.offsets := fun _ => rfl
  rw [pushTable, hheader, pushPointers_offsets]
  rfl

theorem pushCommand_logged (hne : line.bytes ≠ []) :
    (pushCommand line physBase mem).Logged physBase := by
  have hpushed := pushed_anyMemory mem hne
  rw [pushCommand_eq]
  apply hpushed.logged.pushTable
  have := hpushed.esp
  omega

/-- The last write of `push_command`. -/
theorem stack_mem_pushCommand (line : CString) (mem : Mem) :
    .stack (pushCommand line physBase mem).esp 1 ∈ (pushCommand line physBase mem).accesses :=
  List.mem_cons_self

/-- For the empty line the last word starts before the line. -/
theorem source_mem_pushCommand (hnil : line.bytes = []) :
    .source (-1) 1 ∈ (pushCommand line physBase mem).accesses := by
  have hword : Access.source (-1) 1 ∈ (pushWords line
      { esp := physBase, mem := mem, offsets := [], accesses := [] }).accesses := by
    have hmin : min ((0 : Nat) - 1 : Int) 0 = -1 := by decide
    simp only [pushWords, hnil, List.length_nil, hmin]
    exact List.mem_cons_of_mem _ (List.mem_cons_of_mem _ (List.mem_cons_of_mem _ List.mem_cons_self))
  have hheader : ∀ (p : Push) (a : Access), a ∈ p.accesses → a ∈ p.pushHeader.accesses := by
    intro p a ha
    exact List.mem_cons_of_mem _ (List.mem_cons_of_mem _ (List.mem_cons_of_mem _ ha))
  rw [pushCommand_eq, pushTable]
  exact hheader _ _ (mem_pushPointers (List.mem_cons_of_mem _ hword) _ _)

/-- `push_command` stays inside its objects if and only if the line is not empty and its argument
block fits the stack page. -/
theorem pushCommand_inBounds_iff (line : CString) (mem : Mem) :
    (∀ a ∈ (pushCommand line physBase mem).accesses, a.InBounds) ↔
      line.bytes ≠ [] ∧ blockSize (pushedStrings line.bytes) ≤ pgsize := by
  constructor
  · intro h
    have hne : line.bytes ≠ [] := by
      intro hnil
      have hstart : (0 : Int) ≤ -1 := h _ (source_mem_pushCommand hnil)
      omega
    refine ⟨hne, ?_⟩
    have hlast := (h _ (stack_mem_pushCommand line mem)).1
    rw [pushCommand_esp hne, stackBottom] at hlast
    omega
  · rintro ⟨hne, hfits⟩ a ha
    have hwithin := pushCommand_logged hne a ha
    have hcount := length_le_of_blockSize hfits
    apply hwithin.inBounds
    · rw [pushCommand_esp hne, stackBottom]
      omega
    · rw [pushCommand_offsets hne]
      omega

end PushCommand

/-! ## Where `malloc` or `calloc` fails -/

/-- The number of the words that `push_command` pushes. For the empty line it takes the byte in front
of it for a word. -/
def wordCount (line : CString) : Nat := max 1 (pushedStrings line.bytes).length

/-- `push_command` stays inside its objects: `calloc` fails for one of the first 1001 words, so that
the kernel stops there, or the line is not empty and its argument block fits the stack page. Without an
array for `offsets` the kernel has to stop at the first word. -/
def FitsPush (line : CString) (heap : HeapAnswers) : Prop :=
  if heap.offsets then
    (∃ i < wordCount line, i ≤ 1000 ∧ heap.calloc i = false) ∨
      line.bytes ≠ [] ∧ blockSize (pushedStrings line.bytes) ≤ pgsize
  else heap.calloc 0 = false

section Failures

variable {heap : HeapAnswers} {line : CString} {n : Nat} {endInd start len : Int}
  {prevSpace : Bool} {p q : Push}

theorem pushWord_offsets_length (p : Push) (line : CString) (start len : Int) :
    (p.pushWord line start len).offsets.length = p.offsets.length + 1 := by
  rw [Push.pushWord, List.length_append]
  rfl

theorem pushWordWith_eq_ok : p.pushWordWith heap line start len = .ok q ↔
    heap.offsets = true ∧ heap.calloc p.offsets.length = true ∧ q = p.pushWord line start len := by
  unfold Push.pushWordWith
  split_ifs with hcalloc hoffsets
  · simp [hcalloc, hoffsets, eq_comm]
  · simp [hoffsets]
  · simp [hcalloc]

theorem pushWordWith_eq_error (hoffsets : heap.offsets = true) :
    p.pushWordWith heap line start len = .error q ↔
      heap.calloc p.offsets.length = false ∧ q = p := by
  unfold Push.pushWordWith
  split_ifs with hcalloc
  · simp [hcalloc]
  · simp [hcalloc, eq_comm]

theorem le_pushLoop_offsets (line : CString) (n : Nat) (endInd : Int) (prevSpace : Bool) (p : Push) :
    p.offsets.length ≤ (pushLoop line n endInd prevSpace p).2.offsets.length := by
  induction n generalizing endInd prevSpace p with
  | zero => exact Nat.le_refl _
  | succ n ih =>
    rw [pushLoop]
    split_ifs
    · exact ih _ _ _
    · have hword := ih (n + 1 - 1) true (p.pushWord line (n + 1 + 1) (endInd - (n + 1)))
      rw [pushWord_offsets_length] at hword
      exact Nat.le_of_succ_le hword
    · exact ih _ _ _

/-- Where nothing fails the loop is the one of `pushCommand`. -/
theorem pushLoopWith_eq_ok {res : Int × Push}
    (h : pushLoopWith heap line n endInd prevSpace p = .ok res) :
    res = pushLoop line n endInd prevSpace p ∧
      ∀ j, p.offsets.length ≤ j → j < res.2.offsets.length → heap.calloc j = true := by
  induction n generalizing endInd prevSpace p with
  | zero =>
    cases h
    exact ⟨rfl, fun j hle hlt => absurd hlt (Nat.not_lt.mpr hle)⟩
  | succ n ih =>
    rw [pushLoopWith] at h
    rw [pushLoop]
    split_ifs at h ⊢ with hsep hspace
    · exact ih h
    · obtain ⟨u, hword, hloop⟩ := bind_eq_ok.mp h
      obtain ⟨-, hcalloc, rfl⟩ := pushWordWith_eq_ok.mp hword
      obtain ⟨hres, hcalls⟩ := ih hloop
      rw [pushWord_offsets_length] at hcalls
      refine ⟨hres, fun j hle hlt => ?_⟩
      rcases Nat.eq_or_lt_of_le hle with rfl | hlt'
      · exact hcalloc
      · exact hcalls j hlt' hlt
    · exact ih h

/-- The kernel stops in the loop where `calloc` fails. -/
theorem pushLoopWith_eq_error (hoffsets : heap.offsets = true)
    (h : pushLoopWith heap line n endInd prevSpace p = .error q) :
    heap.calloc q.offsets.length = false ∧
      q.offsets.length < (pushLoop line n endInd prevSpace p).2.offsets.length := by
  induction n generalizing endInd prevSpace p with
  | zero => cases h
  | succ n ih =>
    rw [pushLoopWith] at h
    rw [pushLoop]
    split_ifs at h ⊢ with hsep hspace
    · exact ih h
    · cases hword : p.pushWordWith heap line (n + 1 + 1) (endInd - (n + 1)) with
      | error u =>
        rw [hword] at h
        cases h
        obtain ⟨hcalloc, rfl⟩ := (pushWordWith_eq_error hoffsets).mp hword
        have hle := le_pushLoop_offsets line n (n + 1 - 1) true
          (q.pushWord line (n + 1 + 1) (endInd - (n + 1)))
        rw [pushWord_offsets_length] at hle
        exact ⟨hcalloc, hle⟩
      | ok u =>
        rw [hword] at h
        obtain ⟨-, -, rfl⟩ := pushWordWith_eq_ok.mp hword
        exact ih h
    · exact ih h

theorem pushWordsWith_eq_ok (h : pushWordsWith heap line p = .ok q) :
    heap.offsets = true ∧ q = pushWords line p ∧
      ∀ j, p.offsets.length ≤ j → j < q.offsets.length → heap.calloc j = true := by
  obtain ⟨⟨e, u⟩, hloop, hword⟩ := bind_eq_ok.mp h
  obtain ⟨hres, hcalls⟩ := pushLoopWith_eq_ok hloop
  obtain ⟨hoffsets, hcalloc, rfl⟩ := pushWordWith_eq_ok.mp hword
  refine ⟨hoffsets, ?_, fun j hle hlt => ?_⟩
  · rw [pushWords, ← hres]
  · rw [pushWord_offsets_length] at hlt
    rcases Nat.eq_or_lt_of_le (Nat.lt_succ_iff.mp hlt) with rfl | hlt'
    · exact hcalloc
    · exact hcalls j hle hlt'

theorem pushWordsWith_eq_error (hoffsets : heap.offsets = true)
    (h : pushWordsWith heap line p = .error q) :
    heap.calloc q.offsets.length = false ∧
      q.offsets.length < (pushWords line p).offsets.length := by
  rw [pushWords, pushWord_offsets_length]
  rw [pushWordsWith] at h
  cases hloop : pushLoopWith heap line ((line.bytes.length : Int) - 1).toNat
      ((line.bytes.length : Int) - 1) false p with
  | error u =>
    rw [hloop] at h
    cases h
    obtain ⟨hcalloc, hlt⟩ := pushLoopWith_eq_error hoffsets hloop
    exact ⟨hcalloc, Nat.lt_succ_of_lt hlt⟩
  | ok res =>
    rw [hloop] at h
    obtain ⟨hres, -⟩ := pushLoopWith_eq_ok hloop
    obtain ⟨hcalloc, rfl⟩ := (pushWordWith_eq_error hoffsets).mp h
    rw [← hres]
    exact ⟨hcalloc, Nat.lt_succ_self _⟩

/-! ### Up to the word where the kernel stops -/

/-- What has been pushed leaves the part of the line up to `end_ind` on the stack page, and each word
has used an entry of `offsets`. -/
structure Roomy (heap : HeapAnswers) (line : CString) (endInd : Int) (p : Push) : Prop where
  calls : ∀ j < p.offsets.length, heap.calloc j = true ∧ .offset j ∈ p.accesses
  esp_le : p.esp ≤ physBase
  room : physBase - p.esp + endInd < line.bytes.length
  logged : p.Logged physBase

theorem Roomy.word (h : Roomy heap line endInd p) (hstart : 0 ≤ start) (hlen : 0 ≤ len)
    (hcalloc : heap.calloc p.offsets.length = true) :
    Roomy heap line (endInd - len - 1) (p.pushWord line start len) := by
  have hesp : (p.pushWord line start len).esp = p.esp - (len + 1) := rfl
  refine ⟨?_, ?_, ?_, h.logged.pushWord hstart hlen h.esp_le⟩
  · intro j hj
    rw [pushWord_offsets_length] at hj
    rcases Nat.eq_or_lt_of_le (Nat.lt_succ_iff.mp hj) with rfl | hlt
    · exact ⟨hcalloc, List.mem_cons_self⟩
    · obtain ⟨hcall, hmem⟩ := h.calls j hlt
      refine ⟨hcall, ?_⟩
      exact List.mem_cons_of_mem _ (List.mem_cons_of_mem _ (List.mem_cons_of_mem _
        (List.mem_cons_of_mem _ hmem)))
  · have := h.esp_le
    omega
  · have := h.room
    omega

theorem Roomy.pushLoopWith (hoffsets : heap.offsets = true) (h : Roomy heap line endInd p)
    (hn : (n : Int) ≤ endInd) :
    (∀ res, Userprog.pushLoopWith heap line n endInd prevSpace p = .ok res →
      0 ≤ res.1 ∧ Roomy heap line res.1 res.2) ∧
    ∀ q, Userprog.pushLoopWith heap line n endInd prevSpace p = .error q →
      ∃ e, 0 ≤ e ∧ Roomy heap line e q := by
  induction n generalizing endInd prevSpace p with
  | zero =>
    constructor
    · intro res hres
      cases hres
      exact ⟨hn, h⟩
    · intro q hq
      cases hq
  | succ n ih =>
    have hlt : ((n : Int) + 1) ≤ endInd := by exact_mod_cast hn
    have hskip : Roomy heap line (n + 1 - 1) p := by
      refine ⟨h.calls, h.esp_le, ?_, h.logged⟩
      have := h.room
      omega
    rw [Userprog.pushLoopWith]
    split_ifs with hsep hspace
    · exact ih hskip (by omega)
    · cases hword : p.pushWordWith heap line (n + 1 + 1) (endInd - (n + 1)) with
      | error u =>
        obtain ⟨-, rfl⟩ := (pushWordWith_eq_error hoffsets).mp hword
        refine ⟨nofun, fun q hq => ?_⟩
        cases hq
        exact ⟨endInd, by omega, h⟩
      | ok u =>
        obtain ⟨-, hcalloc, rfl⟩ := pushWordWith_eq_ok.mp hword
        have hpushed : Roomy heap line (endInd - (endInd - (n + 1)) - 1)
            (p.pushWord line (n + 1 + 1) (endInd - (n + 1))) :=
          h.word (by omega) (by omega) hcalloc
        have hend : endInd - (endInd - ((n : Int) + 1)) - 1 = n + 1 - 1 := by omega
        rw [hend] at hpushed
        exact ih hpushed (by omega)
    · exact ih h (by omega)

/-- The stack that `push_command` starts with. -/
def emptyStack (mem : Mem) : Push := { esp := physBase, mem := mem, offsets := [], accesses := [] }

/-- A state in which the kernel stops because `calloc` has failed: for the empty line this is the
first one. -/
theorem roomy_of_error (hoffsets : heap.offsets = true) {mem : Mem}
    (h : pushWordsWith heap line (emptyStack mem) = .error q) :
    q = emptyStack mem ∨ ∃ e, 0 ≤ e ∧ Roomy heap line e q := by
  rw [pushWordsWith] at h
  rcases Nat.eq_zero_or_pos line.bytes.length with hnil | hpos
  · left
    rw [hnil] at h
    exact ((pushWordWith_eq_error hoffsets).mp h).2
  · right
    have hstart : Roomy heap line (line.bytes.length - 1) (emptyStack mem) := by
      refine ⟨?_, Int.le_refl _, ?_, ?_⟩
      · simp [emptyStack]
      · simp only [emptyStack]
        omega
      · exact fun a ha => absurd ha List.not_mem_nil
    obtain ⟨hok, herror⟩ := @Roomy.pushLoopWith heap line ((line.bytes.length : Int) - 1).toNat _ false
      _ hoffsets hstart (by omega)
    cases hloop : pushLoopWith heap line ((line.bytes.length : Int) - 1).toNat
        ((line.bytes.length : Int) - 1) false (emptyStack mem) with
    | error u =>
      rw [hloop] at h
      cases h
      exact herror q hloop
    | ok res =>
      rw [hloop] at h
      obtain ⟨-, rfl⟩ := (pushWordWith_eq_error hoffsets).mp h
      exact ⟨res.1, hok res hloop⟩

/-- Without an array for `offsets` the kernel stops at the first word: before anything has been done
for it, or where its size is written through the null pointer. -/
def StopsAtFirst (heap : HeapAnswers) (p q : Push) : Prop :=
  heap.calloc p.offsets.length = false ∧ q = p ∨
    heap.calloc p.offsets.length = true ∧ .null ∈ q.accesses

theorem pushWordWith_stops (hoffsets : heap.offsets = false) (start len : Int) :
    ∃ q, p.pushWordWith heap line start len = .error q ∧ StopsAtFirst heap p q := by
  unfold Push.pushWordWith
  rw [hoffsets]
  split_ifs with hcalloc hfalse
  · exact absurd hfalse (by decide)
  · exact ⟨_, rfl, .inr ⟨hcalloc, List.mem_cons_self⟩⟩
  · exact ⟨p, rfl, .inl ⟨(Bool.not_eq_true _).mp hcalloc, rfl⟩⟩

theorem pushLoopWith_stops (hoffsets : heap.offsets = false) (n : Nat) (endInd : Int)
    (prevSpace : Bool) : (∃ e, pushLoopWith heap line n endInd prevSpace p = .ok (e, p)) ∨
      ∃ q, pushLoopWith heap line n endInd prevSpace p = .error q ∧ StopsAtFirst heap p q := by
  induction n generalizing endInd prevSpace with
  | zero => exact .inl ⟨endInd, rfl⟩
  | succ n ih =>
    rw [pushLoopWith]
    split_ifs
    · exact ih _ _
    · obtain ⟨q, hword, hstop⟩ := @pushWordWith_stops heap line p hoffsets (n + 1 + 1)
        (endInd - (n + 1))
      rw [hword]
      exact .inr ⟨q, rfl, hstop⟩
    · exact ih _ _

theorem pushWordsWith_stops (hoffsets : heap.offsets = false) (p : Push) :
    ∃ q, pushWordsWith heap line p = .error q ∧ StopsAtFirst heap p q := by
  rw [pushWordsWith]
  rcases @pushLoopWith_stops heap line p hoffsets ((line.bytes.length : Int) - 1).toNat
    (line.bytes.length - 1) false with ⟨e, hloop⟩ | ⟨q, hloop, hstop⟩
  · rw [hloop]
    exact pushWordWith_stops hoffsets _ _
  · rw [hloop]
    exact ⟨q, rfl, hstop⟩

/-! ### The bounds -/

theorem pushWords_count (line : CString) (mem : Mem) :
    (pushWords line (emptyStack mem)).offsets.length = wordCount line := by
  by_cases hne : line.bytes = []
  · have hcount : wordCount line = 1 := by simp [wordCount, hne, pushedStrings]
    rw [hcount, pushWords, pushWord_offsets_length, hne]
    rfl
  · have hpushed := (pushed_anyMemory mem hne).offsets_length
    obtain ⟨c, rest, hline⟩ := List.exists_cons_of_ne_nil hne
    have hpos : 1 ≤ (pushedStrings line.bytes).length := by
      rw [hline, pushedStrings, List.length_cons]
      omega
    rw [wordCount, max_eq_right hpos]
    exact hpushed

theorem pushCommandWith_eq (heap : HeapAnswers) (line : CString) (mem : Mem) :
    pushCommandWith heap line physBase mem =
      (pushWordsWith heap line (emptyStack mem)).map (pushTable physBase) := by
  have hbase : (physBase : Int) - physBase % 4 = physBase := by decide
  simp only [pushCommandWith, hbase]
  change (do let p ← pushWordsWith heap line (emptyStack mem); pure (pushTable physBase p)) = _
  cases pushWordsWith heap line (emptyStack mem) <;> rfl

/-- Whether or not `malloc` and `calloc` fail, `push_command` stays inside its objects if and only if
the line fits. -/
theorem pushCommandWith_inBounds_iff (heap : HeapAnswers) (line : CString) (mem : Mem)
    (hlen : line.bytes.length < pgsize) :
    (∀ a ∈ (finalPush (pushCommandWith heap line physBase mem)).accesses, a.InBounds) ↔
      FitsPush line heap := by
  have hcount := pushWords_count line mem
  rw [pushCommandWith_eq, FitsPush]
  cases hwords : pushWordsWith heap line (emptyStack mem) with
  | ok q =>
    obtain ⟨hoffsets, rfl, hcalls⟩ := pushWordsWith_eq_ok hwords
    rw [hcount] at hcalls
    have hplain : finalPush ((Except.ok (pushWords line (emptyStack mem))).map
        (pushTable physBase)) = pushCommand line physBase mem := (pushCommand_eq line mem).symm
    rw [hplain, pushCommand_inBounds_iff, if_pos hoffsets]
    constructor
    · exact .inr
    · rintro (⟨i, hlt, -, hcalloc⟩ | hfits)
      · rw [hcalls i (Nat.zero_le i) hlt] at hcalloc
        cases hcalloc
      · exact hfits
  | error q =>
    change (∀ a ∈ q.accesses, a.InBounds) ↔ _
    cases hoffsets : heap.offsets with
    | true =>
      obtain ⟨hcalloc, hlt⟩ := pushWordsWith_eq_error hoffsets hwords
      rw [hcount] at hlt
      rw [if_pos rfl]
      rcases roomy_of_error hoffsets hwords with rfl | ⟨e, he, hroomy⟩
      · refine iff_of_true (fun a ha => absurd ha List.not_mem_nil) (.inl ?_)
        exact ⟨0, hlt, Nat.zero_le _, hcalloc⟩
      · constructor
        · intro h
          refine .inl ⟨q.offsets.length, hlt, ?_, hcalloc⟩
          by_contra hmany
          have hindex := (h _ (hroomy.calls 1000 (by omega)).2).2
          exact absurd hindex (by decide)
        · intro hfits a ha
          have hroom := hroomy.room
          have hesp : stackBottom ≤ q.esp := by
            rw [stackBottom]
            omega
          apply (hroomy.logged a ha).inBounds hesp
          -- the words before the first failure are at most 1000
          have hfirst : ∀ i, heap.calloc i = false → q.offsets.length ≤ i := by
            intro i hi
            by_contra hbefore
            rw [(hroomy.calls i (by omega)).1] at hi
            cases hi
          rcases hfits with ⟨i, -, hle, hi⟩ | ⟨hne, hsize⟩
          · exact Nat.le_trans (hfirst i hi) hle
          · have hstrings := length_le_of_blockSize hsize
            rw [wordCount] at hlt
            omega
    | false =>
      rw [if_neg (by decide)]
      obtain ⟨q', hwords', hstop⟩ := @pushWordsWith_stops heap line hoffsets (emptyStack mem)
      cases hwords.symm.trans hwords'
      rcases hstop with ⟨hcalloc, rfl⟩ | ⟨hcalloc, hnull⟩
      · exact iff_of_true (fun a ha => absurd ha List.not_mem_nil) hcalloc
      · refine iff_of_false (fun h => h _ hnull) ?_
        change heap.calloc 0 = true at hcalloc
        rw [hcalloc]
        decide

end Failures

end CSE130.Userprog
