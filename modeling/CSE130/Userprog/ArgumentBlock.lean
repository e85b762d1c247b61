import CSE130.Library.Words
import CSE130.Userprog.PushCommand

/-!
# The argument block that `push_command` leaves

The strings that `push_command` pushes, the addresses of the words of the block, and what a user
program reads from it.
-/

namespace CSE130.Userprog

open Library

/-- The strings that `push_command` pushes, from the lowest address up. The character at index 0 is
not looked at. -/
def pushedStrings : List UInt8 → List (List UInt8)
  | [] => []
  | c :: rest => (c :: (scanBack space rest).2.1) :: (scanBack space rest).1

/-- Strings one after the other, each with its terminator. -/
def strings (args : List (List UInt8)) : List UInt8 := args.flatMap (· ++ [0])

@[simp] theorem strings_nil : strings [] = [] := rfl

@[simp] theorem strings_cons (w : List UInt8) (args : List (List UInt8)) :
    strings (w :: args) = w ++ [0] ++ strings args := rfl

@[simp] theorem strings_append (as bs : List (List UInt8)) :
    strings (as ++ bs) = strings as ++ strings bs := List.flatMap_append

/-! ## The accesses -/

/-- An access of a state with this stack pointer, where the stack starts at `base` and `count` entries
of `offsets` are used. -/
def Access.Within (esp base : Int) (count : Nat) : Access → Prop
  | .source start _ => 0 ≤ start
  | .buffer len size => 0 ≤ len ∧ len ≤ size
  | .offset index => 0 ≤ index ∧ index < count
  | .stack addr len => esp ≤ addr ∧ addr + len ≤ base
  | .page _ _ | .null => False

/-- All accesses so far are within their objects, as far as these are used. -/
def Push.Logged (base : Int) (p : Push) : Prop :=
  ∀ a ∈ p.accesses, a.Within p.esp base p.offsets.length

section Accesses

variable {base : Int} {p : Push} {line : CString}

theorem Access.Within.mono {esp esp' : Int} {count count' : Nat} {a : Access}
    (h : a.Within esp base count) (hesp : esp' ≤ esp) (hcount : count ≤ count') :
    a.Within esp' base count' := by
  cases a with
  | source start len => exact h
  | buffer len size => exact h
  | offset index =>
    refine ⟨h.1, ?_⟩
    have := h.2
    omega
  | stack addr len => exact ⟨Int.le_trans hesp h.1, h.2⟩
  | page start len => exact h
  | null => exact h

theorem Push.Logged.lower (h : p.Logged base) {n : Int} (hn : 0 ≤ n) : (p.lower n).Logged base := by
  intro a ha
  apply (h a ha).mono _ (Nat.le_refl _)
  simp only [Push.lower]
  omega

/-- The stack pointer is lowered by `n` and at most `n` bytes are written there. -/
theorem Push.Logged.push (h : p.Logged base) (hbase : p.esp ≤ base) {n : Int} (bs : List UInt8)
    (hn : (bs.length : Int) ≤ n) : ((p.lower n).write (p.lower n).esp bs).Logged base := by
  intro a ha
  cases ha with
  | head =>
    simp only [Push.write, Push.lower]
    exact ⟨Int.le_refl _, by omega⟩
  | tail _ ha => exact h.lower (by omega) a ha

theorem Push.Logged.pushWord (h : p.Logged base) {start len : Int} (hstart : 0 ≤ start)
    (hlen : 0 ≤ len) (hbase : p.esp ≤ base) : (p.pushWord line start len).Logged base := by
  have hread : Push.Logged base
      { p with accesses := .buffer len (len + 1) :: .source start len :: p.accesses } := by
    intro a ha
    cases ha with
    | head => exact ⟨hlen, by omega⟩
    | tail _ ha =>
      cases ha with
      | head => exact hstart
      | tail _ ha => exact h a ha
  have hwrite := hread.push hbase (n := len + 1)
    ((List.range len.toNat).map (fun (i : Nat) => line.charAt (start + i)) ++ [0]) (by
      rw [List.length_append, List.length_map, List.length_range, List.length_singleton]
      omega)
  intro a ha
  cases ha with
  | head =>
    simp only [Push.pushWord, Push.pushString, Push.write, Push.lower, List.length_append,
      List.length_singleton]
    exact ⟨by omega, by push_cast; omega⟩
  | tail _ ha =>
    apply (hwrite a ha).mono (Int.le_refl _)
    simp only [Push.pushWord, Push.pushString, Push.write, Push.lower, List.length_append]
    omega

theorem Push.Logged.pushPointers (h : p.Logged base) (addr : Int) (os : List Int)
    (hbase : p.esp ≤ base) : (p.pushPointers addr os).Logged base := by
  induction os generalizing p addr with
  | nil => exact h
  | cons o os ih =>
    apply ih
    · exact h.push hbase (leBytes (addr - o)) (Int.le_refl 4)
    · simp only [Push.lower, Push.write]
      omega

theorem mem_pushPointers {a : Access} (ha : a ∈ p.accesses) (addr : Int) (os : List Int) :
    a ∈ (p.pushPointers addr os).accesses := by
  induction os generalizing p addr with
  | nil => exact ha
  | cons o os ih => exact ih (List.mem_cons_of_mem _ ha) _

end Accesses

/-! ## The strings -/

/-- The strings have been pushed below `base`. -/
structure Pushed (low base : Int) (args : List (List UInt8)) (p : Push) : Prop where
  esp : p.esp = base - (strings args).length
  offsets : p.offsets = (args.map fun w => (w.length + 1 : Int)).reverse
  stack : StackHolds p.mem low p.esp (strings args)
  logged : p.Logged base

section Words

variable {low base : Int} {args : List (List UInt8)} {p : Push} {line : CString} {w : List UInt8}

theorem charAt_natCast (line : CString) (i : Nat) : line.charAt i = line.bytes.getD i 0 := by
  unfold CString.charAt
  rw [if_neg (by omega), Int.toNat_natCast]

/-- `memcpy` out of the command line. -/
theorem map_charAt {start : Nat} (h : w <+: line.bytes.drop start) :
    ((List.range w.length).map fun (i : Nat) => line.charAt (start + i)) = w := by
  obtain ⟨rest, hrest⟩ := h
  apply List.ext_getElem
  · rw [List.length_map, List.length_range]
  · intro i _ hi
    have hchar : (line.bytes.drop start)[i]? = some w[i] := by
      rw [← hrest, List.getElem?_append_left hi, List.getElem?_eq_getElem hi]
    rw [List.getElem?_drop] at hchar
    rw [List.getElem_map, List.getElem_range, ← Int.natCast_add, charAt_natCast,
      List.getD_eq_getElem?_getD, hchar, Option.getD_some]

theorem Pushed.word (h : Pushed low base args p) {start : Nat}
    (hw : w <+: line.bytes.drop start) :
    Pushed low base (w :: args) (p.pushWord line start w.length) := by
  have hstack := h.stack.push (w ++ [0])
  have hesp : p.esp - ((w ++ [0]).length : Int) = p.esp - (w.length + 1) := by
    rw [List.length_append, List.length_singleton]
    push_cast
    rfl
  rw [hesp] at hstack
  constructor
  · have := h.esp
    simp only [Push.pushWord, Push.pushString, Push.lower, Push.write, strings_cons,
      List.length_append, List.length_singleton]
    push_cast
    omega
  · simp only [Push.pushWord, Push.pushString, Push.lower, Push.write, h.offsets, List.map_cons,
      List.reverse_cons]
  · simp only [Push.pushWord, Push.pushString, Push.lower, Push.write, Int.toNat_natCast,
      map_charAt hw]
    exact hstack
  · apply h.logged.pushWord (Int.natCast_nonneg _) (Int.natCast_nonneg _)
    have := h.esp
    omega

theorem charAt_succ {c : UInt8} {rest : List UInt8} (hline : line.bytes = c :: rest) {n : Nat}
    (hn : n < rest.length) : line.charAt ((n : Int) + 1) = rest[n] := by
  rw [← Int.natCast_succ, charAt_natCast, hline]
  simp [List.getElem?_eq_getElem hn]

/-- The loop is at `start_ind = n`. What it has pushed, the word before that and the flag are those
of the scan of the characters from index `n + 1` on. -/
theorem pushed_pushLoop {c : UInt8} {rest : List UInt8} (hline : line.bytes = c :: rest) {n : Nat}
    (hn : n ≤ rest.length) {endInd : Int} {prevSpace : Bool}
    (hend : endInd = n + (scanBack space (rest.drop n)).2.1.length)
    (hprev : prevSpace = (scanBack space (rest.drop n)).2.2)
    (h : Pushed low base (scanBack space (rest.drop n)).1 p) :
    (pushLoop line n endInd prevSpace p).1 = (scanBack space rest).2.1.length ∧
      Pushed low base (scanBack space rest).1 (pushLoop line n endInd prevSpace p).2 := by
  induction n generalizing p endInd prevSpace with
  | zero =>
    rw [List.drop_zero] at h hend
    refine ⟨?_, h⟩
    rw [pushLoop, hend]
    push_cast
    omega
  | succ n ih =>
    have hget : rest.drop n = rest[n] :: rest.drop (n + 1) := List.drop_eq_getElem_cons hn
    rw [hget] at ih
    simp only [pushLoop, charAt_succ hline hn]
    by_cases hsep : rest[n] = space
    · rw [hsep, scanBack_cons_sep] at ih
      rw [if_pos hsep]
      split_ifs with hspace
      · rw [← hprev, if_pos hspace] at ih
        apply ih (by omega) _ rfl h
        simp
      · rw [← hprev, if_neg hspace] at ih
        apply ih (by omega) _ rfl
        · have hword : (scanBack space (rest.drop (n + 1))).2.1 <+: line.bytes.drop (n + 2) := by
            rw [hline]
            exact scanBack_word_starts space _
          have hlen : endInd - ((n : Int) + 1) = (scanBack space (rest.drop (n + 1))).2.1.length := by
            rw [hend]
            push_cast
            omega
          rw [hlen]
          exact h.word hword
        · simp
    · rw [scanBack_cons_of_ne hsep] at ih
      rw [if_neg hsep]
      apply ih (by omega) _ rfl h
      rw [hend, List.length_cons]
      push_cast
      omega

/-- `push_command` pushes the strings of a line that is not empty. -/
theorem pushed_pushWords (hne : line.bytes ≠ []) (h : Pushed low base [] p) :
    Pushed low base (pushedStrings line.bytes) (pushWords line p) := by
  obtain ⟨c, rest, hline⟩ := List.exists_cons_of_ne_nil hne
  have hlen : ((line.bytes.length : Int) - 1) = rest.length := by
    rw [hline, List.length_cons]
    push_cast
    omega
  have hnil : scanBack space (rest.drop rest.length) = ([], [], false) := by
    rw [List.drop_length]
    rfl
  have hloop : (pushLoop line rest.length rest.length false p).1 =
      (scanBack space rest).2.1.length ∧
      Pushed low base (scanBack space rest).1
        (pushLoop line rest.length rest.length false p).2 := by
    apply pushed_pushLoop hline (Nat.le_refl _)
    · rw [hnil]
      simp
    · rw [hnil]
    · rw [hnil]
      exact h
  have hword : c :: (scanBack space rest).2.1 <+: line.bytes.drop 0 := by
    rw [hline, List.drop_zero]
    exact (List.prefix_cons_inj c).mpr (scanBack_word_starts space rest)
  have hmin : min (rest.length : Int) 0 = (0 : Nat) := by omega
  have hfirst := hloop.2.word hword
  rw [List.length_cons] at hfirst
  simp only [pushWords, hlen, Int.toNat_natCast, hloop.1, hmin]
  rw [hline, pushedStrings]
  simpa using hfirst

end Words

/-! ## The words of the block -/

/-- The addresses of strings that follow one another from `addr` on. -/
def pointers (addr : Int) : List (List UInt8) → List Int
  | [] => []
  | w :: args => addr :: pointers (addr + (w.length + 1)) args

/-- The argument block from `esp` on, with the strings at `addr`. -/
def block (esp addr : Int) (pad : Nat) (args : List (List UInt8)) : List UInt8 :=
  [0, 0, 0, 0] ++ ([UInt8.ofNat args.length, 0, 0, 0] ++ (leBytes (esp + 12) ++
    ((pointers addr args).flatMap leBytes ++
      ([0, 0, 0, 0] ++ (List.replicate pad 0 ++ strings args)))))

section Table

variable {low base : Int} {args : List (List UInt8)} {p : Push} {bs : List UInt8}

@[simp] theorem pointers_length (addr : Int) (args : List (List UInt8)) :
    (pointers addr args).length = args.length := by
  induction args generalizing addr with
  | nil => rfl
  | cons w args ih => rw [pointers, List.length_cons, List.length_cons, ih]

theorem pointers_concat (addr : Int) (args : List (List UInt8)) (w : List UInt8) :
    pointers addr (args ++ [w]) = pointers addr args ++ [addr + (strings args).length] := by
  induction args generalizing addr with
  | nil => simp [pointers]
  | cons v args ih =>
    have haddr : addr + (v.length + 1) + ((strings args).length : Int) =
        addr + (strings (v :: args)).length := by
      rw [strings_cons, List.length_append, List.length_append, List.length_singleton]
      push_cast
      omega
    rw [List.cons_append, pointers, pointers, ih, haddr, List.cons_append]

theorem pushPointers_esp (p : Push) (base : Int) (os : List Int) :
    (p.pushPointers base os).esp = p.esp - 4 * os.length := by
  induction os generalizing p base with
  | nil => simp [Push.pushPointers]
  | cons o os ih =>
    rw [Push.pushPointers, ih, List.length_cons]
    simp only [Push.write, Push.lower]
    push_cast
    omega

theorem pushPointers_offsets (p : Push) (base : Int) (os : List Int) :
    (p.pushPointers base os).offsets = p.offsets := by
  induction os generalizing p base with
  | nil => rfl
  | cons o os ih => rw [Push.pushPointers, ih]; rfl

/-- The pointers are pushed from the last string to the first. -/
theorem pushPointers_holds (base : Int) (ws : List (List UInt8))
    (h : StackHolds p.mem low p.esp bs) :
    StackHolds (p.pushPointers base (ws.map fun w => (w.length + 1 : Int))).mem low
      (p.esp - 4 * ws.length)
      ((pointers (base - (strings ws.reverse).length) ws.reverse).flatMap leBytes ++ bs) := by
  induction ws generalizing p base bs with
  | nil => simpa [Push.pushPointers, pointers] using h
  | cons w ws ih =>
    -- the address of `w` comes to lie right below `bs`
    have hword := ih (base - (w.length + 1)) (p := (p.lower 4).write (p.lower 4).esp
      (leBytes (base - (w.length + 1)))) (h.push (leBytes (base - (w.length + 1))))
    have hesp : ((p.lower 4).write (p.lower 4).esp (leBytes (base - (w.length + 1)))).esp -
        4 * (ws.length : Int) = p.esp - 4 * ((w :: ws).length : Int) := by
      simp only [Push.write, Push.lower, List.length_cons]
      push_cast
      omega
    have hstart : base - ((strings (w :: ws).reverse).length : Int) =
        base - (w.length + 1) - (strings ws.reverse).length := by
      simp only [List.reverse_cons, strings_append, strings_cons, strings_nil, List.length_append,
        List.length_singleton, List.length_nil]
      push_cast
      omega
    have hlast : base - (w.length + 1) - ((strings ws.reverse).length : Int) +
        (strings ws.reverse).length = base - (w.length + 1) := by omega
    rw [hesp] at hword
    rw [List.map_cons, Push.pushPointers, hstart, List.reverse_cons, pointers_concat, hlast,
      List.flatMap_append, List.append_assoc]
    simpa using hword

theorem pushTable_esp (base : Int) (p : Push) :
    (pushTable base p).esp = p.esp - (4 - p.esp % 4) - 4 * p.offsets.length - 16 := by
  simp only [pushTable, Push.pushHeader, Push.write, Push.lower, pushPointers_esp, Push.pushNull]
  omega

theorem Pushed.offsets_length (h : Pushed low base args p) : p.offsets.length = args.length := by
  rw [h.offsets, List.length_reverse, List.length_map]

theorem pushNull_holds {pad : Nat} (hpad : (pad : Int) = 4 - p.esp % 4)
    (hlow : low ≤ p.esp - pad - 4) (h : StackHolds p.mem low p.esp bs) :
    StackHolds p.pushNull.mem low p.pushNull.esp
      ([0, 0, 0, 0] ++ (List.replicate pad 0 ++ bs)) := by
  have hnull := (h.skip (n := pad) (by omega)).pushByte 0 (by omega)
  rw [hpad] at hnull
  exact hnull

theorem pushHeader_holds (h : StackHolds p.mem low p.esp bs) (hlow : low ≤ p.pushHeader.esp) :
    StackHolds p.pushHeader.mem low p.pushHeader.esp ([0, 0, 0, 0] ++
      ([UInt8.ofNat p.offsets.length, 0, 0, 0] ++ (leBytes (p.pushHeader.esp + 12) ++ bs))) := by
  have hesp : p.pushHeader.esp = p.esp - 4 - 4 - 4 := rfl
  have hargv : p.pushHeader.esp + 12 = p.esp - 4 + 4 := by omega
  have hstack : StackHolds _ low (p.esp - 4) (leBytes (p.esp - 4 + 4) ++ bs) :=
    h.push (leBytes (p.esp - 4 + 4))
  rw [hargv]
  exact (hstack.pushByte (UInt8.ofNat p.offsets.length) (by omega)).pushByte 0 (by omega)

/-- The table of `push_command` makes the strings on the stack an argument block. -/
theorem pushTable_holds (h : Pushed low base args p) (hlow : low ≤ (pushTable base p).esp) :
    ∃ pad : Nat, (pushTable base p).esp = p.esp - pad - 4 * args.length - 16 ∧
      Holds (pushTable base p).mem (pushTable base p).esp
        (block (pushTable base p).esp p.esp pad args) := by
  have hesp := pushTable_esp base p
  rw [h.offsets_length] at hesp
  obtain ⟨pad, hpad⟩ : ∃ pad : Nat, (pad : Int) = 4 - p.esp % 4 :=
    ⟨(4 - p.esp % 4).toNat, by omega⟩
  rw [← hpad] at hesp
  refine ⟨pad, hesp, ?_⟩
  have hnull := pushNull_holds hpad (by omega) h.stack
  have hptrs := pushPointers_holds base args.reverse hnull
  have hoffsets : (args.reverse.map fun w => (w.length + 1 : Int)) = p.pushNull.offsets := by
    rw [List.map_reverse]
    exact h.offsets.symm
  have hcount : (args.reverse.length : Int) = p.pushNull.offsets.length := by
    rw [← hoffsets, List.length_map]
  have hstart : base - ((strings args).length : Int) = p.esp := h.esp.symm
  rw [hoffsets, hcount, ← pushPointers_esp p.pushNull base, List.reverse_reverse, hstart] at hptrs
  have hheader := pushHeader_holds hptrs hlow
  rw [pushPointers_offsets] at hheader
  have hlen : p.pushNull.offsets.length = args.length := h.offsets_length
  rw [hlen] at hheader
  exact hheader.holds

theorem Push.Logged.pushNull (h : p.Logged base) (hbase : p.esp ≤ base) :
    p.pushNull.Logged base := by
  apply (h.lower (n := 4 - p.esp % 4) (by omega)).push _ [0] (by decide)
  simp only [Push.lower]
  omega

theorem Push.Logged.pushHeader (h : p.Logged base) (hbase : p.esp ≤ base) :
    p.pushHeader.Logged base := by
  apply Push.Logged.push _ _ [0] (by decide)
  · apply Push.Logged.push _ _ [UInt8.ofNat p.offsets.length] (by simp)
    · exact h.push hbase (leBytes (p.esp - 4 + 4)) (Int.le_refl 4)
    · simp only [Push.lower, Push.write]
      omega
  · simp only [Push.lower, Push.write]
    omega

theorem Push.Logged.pushTable (h : p.Logged base) (hbase : p.esp ≤ base) :
    (pushTable base p).Logged base := by
  have hnull : p.pushNull.esp ≤ base := by
    simp only [Push.pushNull, Push.lower, Push.write]
    omega
  apply ((h.pushNull hbase).pushPointers base p.pushNull.offsets hnull).pushHeader
  rw [pushPointers_esp]
  omega

end Table

/-! ## Reading the block -/

section Reading

variable {m : Mem} {esp addr : Int} {pad : Nat} {args ws : List (List UInt8)}

theorem mem_pointers {x : Int} (h : x ∈ pointers addr args) :
    addr ≤ x ∧ x < addr + (strings args).length := by
  induction args generalizing addr with
  | nil => cases h
  | cons w args ih =>
    rw [strings_cons, List.length_append, List.length_append, List.length_singleton]
    push_cast
    cases h with
    | head => omega
    | tail _ h =>
      have := ih h
      omega

theorem holds_pointer {vs : List Int} (h : Holds m addr (vs.flatMap leBytes)) {i : Nat}
    (hi : i < vs.length) : Holds m (addr + 4 * i) (leBytes vs[i]) := by
  induction vs generalizing addr i with
  | nil => cases hi
  | cons v vs ih =>
    rw [List.flatMap_cons, holds_append, leBytes_length] at h
    cases i with
    | zero => simpa using h.1
    | succ i =>
      have hrest := ih h.2 (Nat.lt_of_succ_lt_succ hi)
      have haddr : addr + 4 * ((i + 1 : Nat) : Int) = addr + (4 : Nat) + 4 * (i : Int) := by
        push_cast
        omega
      rw [haddr]
      exact hrest

theorem holds_string (h : Holds m addr (strings args)) {i : Nat} (hi : i < args.length)
    (hp : i < (pointers addr args).length) :
    Holds m (pointers addr args)[i] (args[i] ++ [0]) := by
  induction args generalizing addr i with
  | nil => cases hi
  | cons w args ih =>
    rw [strings_cons, holds_append, List.length_append, List.length_singleton] at h
    cases i with
    | zero => exact h.1
    | succ i => exact ih h.2 (Nat.lt_of_succ_lt_succ hi) (Nat.lt_of_succ_lt_succ hp)

/-- What the words of an argument block are, read as `main` reads them. -/
structure BlockReads (m : Mem) (esp : Int) (args : List (List UInt8)) : Prop where
  argc : loadWord m (esp + 4) = (args.length % 256 : Nat)
  argv : loadWord m (esp + 8) = esp + 12
  string : ∀ i (h : i < args.length),
    loadWord m (esp + 12 + 4 * i) ≠ 0 ∧
      Holds m (loadWord m (esp + 12 + 4 * i)) (args[i] ++ [0])
  null : loadWord m (esp + 12 + 4 * args.length) = 0

theorem flatMap_leBytes_length (vs : List Int) : (vs.flatMap leBytes).length = 4 * vs.length := by
  induction vs with
  | nil => rfl
  | cons v vs ih =>
    rw [List.flatMap_cons, List.length_append, ih, leBytes_length, List.length_cons]
    omega

/-- The parts of an argument block, each at its address. -/
theorem holds_block (h : Holds m esp (block esp addr pad args))
    (haddr : addr = esp + 16 + 4 * args.length + pad) :
    Holds m (esp + 4) [UInt8.ofNat args.length, 0, 0, 0] ∧ Holds m (esp + 8) (leBytes (esp + 12)) ∧
      Holds m (esp + 12) ((pointers addr args).flatMap leBytes) ∧
      Holds m (esp + 12 + 4 * args.length) [0, 0, 0, 0] ∧ Holds m addr (strings args) := by
  rw [block, holds_append, holds_append, holds_append, holds_append, holds_append, holds_append,
    flatMap_leBytes_length, pointers_length, leBytes_length, List.length_replicate] at h
  obtain ⟨-, hargc, hargv, hptrs, hnull, -, hstrings⟩ := h
  simp only [List.length_cons, List.length_nil] at hargc hargv hptrs hnull hstrings
  push_cast at hargc hargv hptrs hnull hstrings
  have htable : esp + 12 = esp + 4 + 4 + 4 := by omega
  have hargvAddr : esp + 8 = esp + 4 + 4 := by omega
  have hfirst : addr = esp + 12 + 4 * args.length + 4 + pad := by omega
  rw [← htable] at hptrs hnull hstrings
  rw [← hargvAddr] at hargv
  rw [← hfirst] at hstrings
  exact ⟨hargc, hargv, hptrs, hnull, hstrings⟩

/-- The pointers of a block below 2^32, as they are read. -/
theorem loadWord_pointer (hptrs : Holds m (esp + 12) ((pointers addr args).flatMap leBytes))
    (hpos : 0 ≤ addr) (htop : addr + (strings args).length < 2 ^ 32) {i : Nat}
    (hp : i < (pointers addr args).length) :
    loadWord m (esp + 12 + 4 * i) = (pointers addr args)[i] := by
  have hbound := mem_pointers (List.getElem_mem hp)
  rw [loadWord_of_holds (holds_pointer hptrs hp)]
  omega

theorem blockReads (h : Holds m esp (block esp addr pad args)) (hesp : 0 < esp)
    (haddr : addr = esp + 16 + 4 * args.length + pad)
    (htop : addr + (strings args).length < 2 ^ 32) : BlockReads m esp args := by
  obtain ⟨hargc, hargv, hptrs, hnull, hstrings⟩ := holds_block h haddr
  constructor
  · have hread := loadWord_of_bytes hargc
    rw [UInt8.toNat_ofNat'] at hread
    rw [hread]
    rfl
  · have hread := loadWord_of_holds hargv
    rw [hread]
    omega
  · intro i hi
    have hp : i < (pointers addr args).length := by rwa [pointers_length]
    have hbound := mem_pointers (List.getElem_mem hp)
    rw [loadWord_pointer hptrs (by omega) htop hp]
    exact ⟨by omega, holds_string hstrings hi hp⟩
  · exact loadWord_of_bytes hnull

/-- `main` reads the strings of the block if and only if the lowest byte of `argc` is all of it. -/
theorem BlockReads.mainReads_iff (h : BlockReads m esp args) (hargs : ∀ w ∈ args, (0 : UInt8) ∉ w)
    (hws : ∀ w ∈ ws, (0 : UInt8) ∉ w) : MainReads m esp ws ↔ ws = args ∧ args.length ≤ 255 := by
  constructor
  · intro hmain
    have hargc : ws.length = args.length % 256 := by
      have := hmain.argc.symm.trans h.argc
      omega
    have hlen : ws.length = args.length := by
      by_contra hne
      have hlt : ws.length < args.length := by omega
      have hnull := hmain.null
      rw [h.argv] at hnull
      exact (h.string _ hlt).1 hnull
    refine ⟨?_, by omega⟩
    apply List.ext_getElem hlen
    intro i hi hi'
    have hstring := hmain.argv i hi
    rw [h.argv] at hstring
    exact eq_of_holds_terminated (hws _ (List.getElem_mem hi)) (hargs _ (List.getElem_mem hi'))
      hstring (h.string i hi').2
  · rintro ⟨rfl, hcount⟩
    constructor
    · rw [h.argc, Nat.mod_eq_of_lt (by omega)]
    · intro i hi
      rw [h.argv]
      exact (h.string i hi).2
    · rw [h.argv]
      exact h.null

end Reading

/-! ## The round trip -/

/-- The lowest address of the stack page that `setup_stack` (`elf.c:282-299`) maps. -/
def stackBottom : Int := physBase - pgsize

section RoundTrip

variable {line : CString} {mem : Mem}

theorem notMem_of_mem_pushedStrings {l : List UInt8} (hl : (0 : UInt8) ∉ l) {w : List UInt8}
    (hw : w ∈ pushedStrings l) : (0 : UInt8) ∉ w := by
  intro hzero
  apply hl
  cases l with
  | nil => cases hw
  | cons c rest =>
    rw [pushedStrings] at hw
    cases hw with
    | head =>
      exact ((List.prefix_cons_inj c).mpr (scanBack_word_starts space rest)).subset hzero
    | tail _ hw => exact List.mem_cons_of_mem c (mem_of_mem_scanBack hw hzero)

/-- The strings pushed are the words of the line if and only if no space is at either end. -/
theorem words_eq_pushedStrings_iff {l : List UInt8} (hne : l ≠ []) :
    words space l = pushedStrings l ↔ l.head hne ≠ space ∧ l.getLast hne ≠ space := by
  obtain ⟨c, rest, rfl⟩ := List.exists_cons_of_ne_nil hne
  constructor
  · intro h
    have hhead : c ≠ space := by
      intro hc
      have hmem : c :: (scanBack space rest).2.1 ∈ words space (c :: rest) := by
        rw [h, pushedStrings]
        exact List.mem_cons_self
      rw [hc] at hmem
      exact sep_notMem_of_mem_words hmem List.mem_cons_self
    refine ⟨hhead, ?_⟩
    intro hlast
    have hrest : rest ≠ [] := by
      rintro rfl
      exact hhead hlast
    have hmem : [] ∈ words space (c :: rest) := by
      rw [h, pushedStrings]
      apply List.mem_cons_of_mem
      apply nil_mem_scanBack hrest
      rw [← hlast, List.getLast_cons hrest]
    exact nil_notMem_words hmem
  · rintro ⟨hhead, hlast⟩
    exact words_cons hhead hlast

theorem pushed_words {low : Int} (hne : line.bytes ≠ [])
    (hzero : ∀ x, low ≤ x → x < physBase → mem x = 0) :
    Pushed low physBase (pushedStrings line.bytes)
      (pushWords line { esp := physBase, mem := mem, offsets := [], accesses := [] }) := by
  apply pushed_pushWords hne
  constructor
  · simp
  · rfl
  · exact ⟨trivial, hzero⟩
  · exact fun a ha => absurd ha List.not_mem_nil

theorem pushCommand_eq (line : CString) (mem : Mem) : pushCommand line physBase mem =
    pushTable physBase
      (pushWords line { esp := physBase, mem := mem, offsets := [], accesses := [] }) := by
  have hbase : (physBase : Int) - physBase % 4 = physBase := by decide
  simp only [pushCommand, hbase]

/-- A block that fits the stack page reads as the strings that have been pushed. -/
theorem pushCommand_blockReads (hne : line.bytes ≠ [])
    (hzero : ∀ x, stackBottom ≤ x → x < physBase → mem x = 0)
    (hfits : stackBottom ≤ (pushCommand line physBase mem).esp) :
    BlockReads (pushCommand line physBase mem).mem (pushCommand line physBase mem).esp
      (pushedStrings line.bytes) := by
  have hpushed := pushed_words hne hzero
  rw [pushCommand_eq] at hfits ⊢
  obtain ⟨pad, hesp, hholds⟩ := pushTable_holds hpushed hfits
  have hlen := hpushed.esp
  have hbottom : stackBottom = 0xbffff000 := by decide
  have htop : (physBase : Int) = 0xc0000000 := by decide
  apply blockReads hholds
  · omega
  · omega
  · omega

/-- A command line whose argument block fits the stack page is read as its words if and only if it
neither starts nor ends with a space and has at most 255 words. -/
theorem pushCommand_reads_words_iff (line : CString) (mem : Mem) (hne : line.bytes ≠ [])
    (hzero : ∀ x, stackBottom ≤ x → x < physBase → mem x = 0)
    (hfits : stackBottom ≤ (pushCommand line physBase mem).esp) :
    MainReads (pushCommand line physBase mem).mem (pushCommand line physBase mem).esp
        (words space line.bytes) ↔
      line.bytes.head hne ≠ space ∧ line.bytes.getLast hne ≠ space ∧
        (words space line.bytes).length ≤ 255 := by
  have hread := pushCommand_blockReads hne hzero hfits
  have hargs : ∀ w ∈ pushedStrings line.bytes, (0 : UInt8) ∉ w :=
    fun w hw => notMem_of_mem_pushedStrings line.noNul hw
  have hwords : ∀ w ∈ words space line.bytes, (0 : UInt8) ∉ w :=
    fun w hw hmem => line.noNul (mem_of_mem_words hw hmem)
  rw [hread.mainReads_iff hargs hwords, ← and_assoc, ← words_eq_pushedStrings_iff hne]
  constructor
  · rintro ⟨heq, hcount⟩
    rw [heq]
    exact ⟨rfl, hcount⟩
  · rintro ⟨heq, hcount⟩
    rw [heq] at hcount
    exact ⟨heq, hcount⟩

end RoundTrip

/-- `"ls -l"`. -/
def listCommand : CString := ⟨[108, 115, 32, 45, 108], by decide⟩

theorem pushCommand_reads_words_listCommand :
    MainReads (pushCommand listCommand physBase fun _ => 0).mem
      (pushCommand listCommand physBase fun _ => 0).esp [[108, 115], [45, 108]] := by
  have hwords : words space listCommand.bytes = [[108, 115], [45, 108]] := by decide +kernel
  rw [← hwords]
  apply (pushCommand_reads_words_iff listCommand (fun _ => 0) (by decide) (fun _ _ _ => rfl)
    (by decide +kernel)).mpr
  decide +kernel

/-- `"a "`. -/
def trailingSpace : CString := ⟨[97, 32], by decide⟩

/-- `argc` is 2 for a word and a space after it. -/
theorem pushCommand_trailingSpace :
    stackBottom ≤ (pushCommand trailingSpace physBase fun _ => 0).esp ∧
    ¬ MainReads (pushCommand trailingSpace physBase fun _ => 0).mem
      (pushCommand trailingSpace physBase fun _ => 0).esp (words space trailingSpace.bytes) := by
  constructor
  · decide +kernel
  · intro h
    have hargc := h.argc
    revert hargc
    decide +kernel

end CSE130.Userprog
