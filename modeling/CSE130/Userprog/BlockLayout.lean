import CSE130.Userprog.PushBounds

/-!
# The layout of an argument block

From the stack pointer up an argument block consists of the return address, `argc` and `argv`, the
pointers to the strings with a null pointer behind them, some padding, and the strings.
`push_command` pads by `4 - esp % 4` bytes, which are `esp % 4` bytes where this is even, so that the
stack pointer ends at a multiple of 4 only if the strings have an even number of bytes.
-/

namespace CSE130.Userprog

open Library

/-- `argv[i]`, as `main` reads it. -/
def Push.argument (p : Push) (i : Nat) : Int := loadWord p.mem (loadWord p.mem (p.esp + 8) + 4 * i)

/-- The block that has been pushed is well formed: `esp` is a multiple of 4, `argc` is the number of
the pointers, `argv` points to them, right above itself, each of them points to its string, and a
null pointer follows. The strings lie one after the other between the pointers and the top of the
stack. -/
structure WellFormed (p : Push) (args : List (List UInt8)) : Prop where
  aligned : p.esp % 4 = 0
  argc : loadWord p.mem (p.esp + 4) = p.offsets.length
  pointers : p.offsets.length = args.length
  argv : loadWord p.mem (p.esp + 8) = p.esp + 12
  string : ∀ i (h : i < args.length), Holds p.mem (p.argument i) (args[i] ++ [0])
  null : p.argument args.length = 0
  above : ∀ i, i < args.length → p.esp + 12 + 4 * (args.length + 1) ≤ p.argument i
  apart : ∀ i j (_ : i < j) (h : j < args.length),
    p.argument i + (args[i].length + 1) ≤ p.argument j
  below : ∀ i (h : i < args.length), p.argument i + (args[i].length + 1) ≤ physBase

/-- The strings that are pushed for a line without a space at either end: its words. For the empty
line the byte in front of it is taken for a word. -/
def arguments (line : CString) : List (List UInt8) :=
  if line.bytes = [] then [[line.charAt (-1)]] else words space line.bytes

/-! ## The pointers -/

section Pointers

variable {addr : Int} {args : List (List UInt8)} {i j : Nat}

theorem pointer_below (hi : i < args.length) (hp : i < (pointers addr args).length) :
    (pointers addr args)[i] + (args[i].length + 1) ≤ addr + (strings args).length := by
  induction args generalizing addr i with
  | nil => cases hi
  | cons w args ih =>
    rw [strings_cons, List.length_append, List.length_append, List.length_singleton]
    push_cast
    cases i with
    | zero =>
      simp only [pointers, List.getElem_cons_zero]
      omega
    | succ i =>
      have hrest := ih (Nat.lt_of_succ_lt_succ hi) (Nat.lt_of_succ_lt_succ hp)
      simp only [pointers, List.getElem_cons_succ]
      omega

/-- Each string ends where the next one begins, or before. -/
theorem pointers_apart (hij : i < j) (hj : j < args.length)
    (hi' : i < (pointers addr args).length) (hj' : j < (pointers addr args).length) :
    (pointers addr args)[i] + (args[i].length + 1) ≤ (pointers addr args)[j] := by
  induction args generalizing addr i j with
  | nil => cases hj
  | cons w args ih =>
    obtain ⟨j, rfl⟩ : ∃ k, j = k + 1 := ⟨j - 1, by omega⟩
    have hj'' : j < (pointers (addr + (w.length + 1)) args).length := Nat.lt_of_succ_lt_succ hj'
    cases i with
    | zero =>
      have hbound := mem_pointers (List.getElem_mem hj'')
      simp only [pointers, List.getElem_cons_zero, List.getElem_cons_succ]
      exact hbound.1
    | succ i =>
      simp only [pointers, List.getElem_cons_succ]
      exact ih (by omega) (Nat.lt_of_succ_lt_succ hj) _ hj''

end Pointers

/-! ## The whole block -/

section Layout

variable {low : Int} {args : List (List UInt8)} {p : Push}

theorem pushTable_offsets (base : Int) (p : Push) : (pushTable base p).offsets = p.offsets := by
  have hheader : ∀ q : Push, q.pushHeader.offsets = q.offsets := fun _ => rfl
  rw [pushTable, hheader, pushPointers_offsets]
  rfl

/-- The block is well formed but for the alignment and for the width of `argc`. -/
theorem wellFormed_pushTable_iff (h : Pushed low physBase args p)
    (hlow : low ≤ (pushTable physBase p).esp) (hpos : 0 < (pushTable physBase p).esp) :
    WellFormed (pushTable physBase p) args ↔
      (strings args).length % 2 = 0 ∧ args.length ≤ 255 := by
  obtain ⟨pad, hesp, hholds⟩ := pushTable_holds h hlow
  have htable := pushTable_esp physBase p
  have hstart := h.esp
  have hcount := h.offsets_length
  have htop : (physBase : Int) = 0xc0000000 := by decide
  have haddr : p.esp = (pushTable physBase p).esp + 16 + 4 * args.length + pad := by omega
  have hend : p.esp + (strings args).length < 2 ^ 32 := by omega
  have hread := blockReads hholds hpos haddr hend
  obtain ⟨-, -, hptrs, -, -⟩ := holds_block hholds haddr
  have halign : (pushTable physBase p).esp % 4 = 0 ↔ (strings args).length % 2 = 0 := by omega
  have hoffsets : (pushTable physBase p).offsets.length = args.length := by
    rw [pushTable_offsets, hcount]
  have hptr : ∀ i (hp : i < (pointers p.esp args).length),
      (pushTable physBase p).argument i = (pointers p.esp args)[i] := by
    intro i hp
    rw [Push.argument, hread.argv]
    exact loadWord_pointer hptrs (by omega) hend hp
  have hsome : ∀ i, i < args.length → i < (pointers p.esp args).length := by
    intro i hi
    rwa [pointers_length]
  rw [← halign]
  constructor
  · intro hwell
    have hargc := hwell.argc.symm.trans hread.argc
    rw [hoffsets] at hargc
    exact ⟨hwell.aligned, by omega⟩
  · rintro ⟨haligned, hwidth⟩
    refine ⟨haligned, ?_, hoffsets, hread.argv, ?_, ?_, ?_, ?_, ?_⟩
    · rw [hread.argc, hoffsets, Nat.mod_eq_of_lt (by omega)]
    · intro i hi
      rw [Push.argument, hread.argv]
      exact (hread.string i hi).2
    · rw [Push.argument, hread.argv]
      exact hread.null
    · intro i hi
      have hbound := mem_pointers (List.getElem_mem (hsome i hi))
      rw [hptr i (hsome i hi)]
      omega
    · intro i j hij hj
      rw [hptr i (hsome i (by omega)), hptr j (hsome j hj)]
      exact pointers_apart hij hj _ _
    · intro i hi
      have hbelow := pointer_below hi (hsome i hi)
      rw [hptr i (hsome i hi)]
      omega

end Layout

/-! ## The strings of a line -/

/-- Two states of `push_command` that differ in the accesses recorded at most. -/
structure SameStack (p q : Push) : Prop where
  esp_eq : p.esp = q.esp
  mem_eq : p.mem = q.mem
  offsets_eq : p.offsets = q.offsets

namespace SameStack

variable {p q : Push}

theorem lower (h : SameStack p q) (n : Int) : SameStack (p.lower n) (q.lower n) :=
  ⟨congrArg (· - n) h.esp_eq, h.mem_eq, h.offsets_eq⟩

theorem write (h : SameStack p q) (addr : Int) (bs : List UInt8) :
    SameStack (p.write addr bs) (q.write addr bs) :=
  ⟨h.esp_eq, congrArg (store · addr bs) h.mem_eq, h.offsets_eq⟩

theorem pushNull (h : SameStack p q) : SameStack p.pushNull q.pushNull := by
  simp only [Push.pushNull, Push.lower, Push.write, h.esp_eq, h.mem_eq, h.offsets_eq]
  exact ⟨rfl, rfl, rfl⟩

theorem pushPointers (h : SameStack p q) (base : Int) (os : List Int) :
    SameStack (p.pushPointers base os) (q.pushPointers base os) := by
  induction os generalizing p q base with
  | nil => exact h
  | cons o os ih =>
    simp only [Push.pushPointers, (h.lower 4).esp_eq]
    exact ih ((h.lower 4).write _ _) _

theorem pushHeader (h : SameStack p q) : SameStack p.pushHeader q.pushHeader := by
  simp only [Push.pushHeader, Push.lower, Push.write, h.esp_eq, h.mem_eq, h.offsets_eq]
  exact ⟨rfl, rfl, rfl⟩

theorem pushTable (h : SameStack p q) (base : Int) :
    SameStack (pushTable base p) (pushTable base q) := by
  simp only [Userprog.pushTable, h.pushNull.offsets_eq]
  exact (h.pushNull.pushPointers base _).pushHeader

end SameStack

theorem WellFormed.congr {p q : Push} {args : List (List UInt8)} (h : SameStack p q) :
    WellFormed p args ↔ WellFormed q args := by
  obtain ⟨esp, mem, offsets, accesses⟩ := p
  obtain ⟨esp', mem', offsets', accesses'⟩ := q
  obtain ⟨hesp, hmem, hoffsets⟩ := h
  cases hesp
  cases hmem
  cases hoffsets
  constructor
  · rintro ⟨h1, h2, h3, h4, h5, h6, h7, h8, h9⟩
    exact ⟨h1, h2, h3, h4, h5, h6, h7, h8, h9⟩
  · rintro ⟨h1, h2, h3, h4, h5, h6, h7, h8, h9⟩
    exact ⟨h1, h2, h3, h4, h5, h6, h7, h8, h9⟩

section PushCommand

variable {line : CString} {mem : Mem} {low : Int}

/-- The state after the word that is pushed for the empty line, less the accesses. -/
def emptyLinePushed (line : CString) (mem : Mem) : Push where
  esp := physBase - 2
  mem := store mem (physBase - 2) [line.charAt (-1), 0]
  offsets := [2]
  accesses := []

/-- The strings of a line have been pushed when the pointers follow. -/
theorem pushed_arguments
    (hends : ∀ h : line.bytes ≠ [], line.bytes.head h ≠ space ∧ line.bytes.getLast h ≠ space)
    (hzero : ∀ x, low ≤ x → x < physBase → mem x = 0) :
    ∃ p, Pushed low physBase (arguments line) p ∧
      SameStack p (pushWords line (emptyStack mem)) := by
  by_cases hnil : line.bytes = []
  · have hlen : (line.bytes.length : Int) - 1 = -1 := by simp [hnil]
    have hstart : StackHolds mem low physBase [] := ⟨trivial, hzero⟩
    rw [arguments, if_pos hnil]
    refine ⟨emptyLinePushed line mem, ⟨rfl, rfl, hstart.push [line.charAt (-1), 0], ?_⟩, ?_⟩
    · exact fun a ha => absurd ha List.not_mem_nil
    · simp only [pushWords, hlen]
      exact ⟨rfl, rfl, rfl⟩
  · rw [arguments, if_neg hnil, (words_eq_pushedStrings_iff hnil).mpr (hends hnil)]
    exact ⟨_, pushed_words hnil hzero, ⟨rfl, rfl, rfl⟩⟩

/-- The argument block of a command line without a space at either end that fits the zeroed stack page
is well formed if and only if the strings have an even number of bytes and are at most 255. -/
theorem pushCommand_wellFormed_iff (line : CString) (mem : Mem)
    (hends : ∀ h : line.bytes ≠ [], line.bytes.head h ≠ space ∧ line.bytes.getLast h ≠ space)
    (hzero : ∀ x, stackBottom ≤ x → x < physBase → mem x = 0)
    (hfits : stackBottom ≤ (pushCommand line physBase mem).esp) :
    WellFormed (pushCommand line physBase mem) (arguments line) ↔
      ((arguments line).map fun w => w.length + 1).sum % 2 = 0 ∧
        (arguments line).length ≤ 255 := by
  obtain ⟨p, hpushed, hsame⟩ := pushed_arguments hends hzero
  have htable := hsame.pushTable physBase
  have hbottom : stackBottom = 0xbffff000 := by decide
  have hbytes : ((arguments line).map fun w => w.length + 1).sum =
      (strings (arguments line)).length := by
    rw [strings, List.length_flatMap]
    simp
  rw [pushCommand_eq] at hfits ⊢
  change stackBottom ≤ (pushTable physBase (pushWords line (emptyStack mem))).esp at hfits
  change WellFormed (pushTable physBase (pushWords line (emptyStack mem))) _ ↔ _
  rw [← htable.esp_eq] at hfits
  rw [← WellFormed.congr htable, hbytes]
  exact wellFormed_pushTable_iff hpushed hfits (by omega)

end PushCommand

/-- The two strings of `ls -l` have six bytes. -/
theorem pushCommand_wellFormed_listCommand :
    WellFormed (pushCommand listCommand physBase fun _ => 0) [[108, 115], [45, 108]] := by
  have hargs : arguments listCommand = [[108, 115], [45, 108]] := by decide +kernel
  rw [← hargs]
  apply (pushCommand_wellFormed_iff listCommand (fun _ => 0) (by decide)
    (fun _ _ _ => rfl) (by decide +kernel)).mpr
  rw [hargs]
  decide

/-- `"ls"`. -/
def plainCommand : CString := ⟨[108, 115], by decide⟩

/-- The string of `ls` has three bytes, and the stack pointer is left at an address of the form
`4 * k + 2`. -/
theorem pushCommand_plainCommand_misaligned :
    stackBottom ≤ (pushCommand plainCommand physBase fun _ => 0).esp ∧
      (pushCommand plainCommand physBase fun _ => 0).esp % 4 = 2 ∧
      ¬ WellFormed (pushCommand plainCommand physBase fun _ => 0) [[108, 115]] := by
  have hesp : (pushCommand plainCommand physBase fun _ => 0).esp % 4 = 2 := by decide +kernel
  refine ⟨by decide +kernel, hesp, ?_⟩
  intro h
  have haligned := h.aligned
  omega

end CSE130.Userprog
