import CSE130.Userprog.BlockLayout
import CSE130.Userprog.ProcessExecute

/-!
# The program name and `argv[0]`

`process_execute` cuts the program name out of the command line by a scan to the first space. The scan
of `push_command` comes from the end of the line and does not look at index 0, whose character begins
`argv[0]` in any case. The two strings are the same unless this character is a space.
-/

namespace CSE130.Userprog

open Library

/-- The NUL-terminated string at an address. -/
def StringAt (m : Mem) (a : Int) (w : List UInt8) : Prop := (0 : UInt8) ∉ w ∧ Holds m a (w ++ [0])

/-- The page `cmd_no_args` after `memcpy (cmd_no_args, cmdline, x)` and `cmd_no_args[x-1] = 0`
(`process.c:195-200`). Addresses are relative to the page, which has the bytes of `m` before. -/
def cmdNoArgs (line : CString) (m : Mem) : Mem :=
  let x := nameLength line + 1
  store (store m 0 ((line.bytes ++ [0]).take x)) (x - 1) [0]

section Strings

variable {m : Mem} {a : Int} {w w' : List UInt8} {line : CString}

theorem StringAt.unique (h : StringAt m a w) (h' : StringAt m a w') : w = w' :=
  eq_of_holds_terminated h.1 h'.1 h.2 h'.2

theorem holds_store_below {bs cs : List UInt8} {b : Int} (h : Holds m a bs)
    (hb : a + bs.length ≤ b) : Holds (store m b cs) a bs := by
  induction bs generalizing a with
  | nil => trivial
  | cons c bs ih =>
    rw [List.length_cons] at hb
    push_cast at hb
    exact ⟨(store_of_lt (by omega)).trans h.1, ih h.2 (by omega)⟩

/-- The page `cmd_no_args` holds the line up to the first space. -/
theorem stringAt_cmdNoArgs (line : CString) (m : Mem) :
    StringAt (cmdNoArgs line m) 0 (line.bytes.takeWhile (· ≠ space)) := by
  have hstarts : line.bytes.takeWhile (· ≠ space) <+: line.bytes := List.takeWhile_prefix _
  have hcopy : ∃ c, (line.bytes ++ [0]).take (nameLength line + 1) =
      line.bytes.takeWhile (· ≠ space) ++ [c] := by
    obtain ⟨rest, hrest⟩ := hstarts
    have hlen : nameLength line = (line.bytes.takeWhile (· ≠ space)).length := rfl
    generalize line.bytes.takeWhile (· ≠ space) = name at hrest hlen
    rw [← hrest, hlen, List.append_assoc, List.take_length_add_append]
    cases rest with
    | nil => exact ⟨0, rfl⟩
    | cons c rest => exact ⟨c, rfl⟩
  obtain ⟨c, hcopy⟩ := hcopy
  refine ⟨fun hmem => line.noNul (hstarts.subset hmem), ?_⟩
  have hx : (((nameLength line + 1 : Nat) : Int) - 1) =
      0 + ((line.bytes.takeWhile (· ≠ space)).length : Nat) := by
    rw [nameLength]
    omega
  simp only [cmdNoArgs, hcopy, hx]
  rw [holds_append]
  refine ⟨holds_store_below ?_ (Int.le_refl _), store_holds _ _ [0]⟩
  exact (holds_append.mp (store_holds m 0 _)).1

/-- The word that the backward scan is in goes to the first separator. -/
theorem scanBack_word_eq (l : List UInt8) : (scanBack space l).2.1 = l.takeWhile (· ≠ space) := by
  induction l with
  | nil => rfl
  | cons c l ih =>
    by_cases hc : c = space
    · subst hc
      rw [scanBack_cons_sep, List.takeWhile_cons_of_neg (by simp)]
    · rw [scanBack_cons_of_ne hc, List.takeWhile_cons_of_pos (by simpa using hc), ih]

/-- The string that is pushed last. -/
theorem pushedStrings_head (hne : line.bytes ≠ []) : ∃ args, pushedStrings line.bytes =
    (line.bytes.head hne :: line.bytes.tail.takeWhile (· ≠ space)) :: args := by
  obtain ⟨c, rest, hline⟩ := List.exists_cons_of_ne_nil hne
  refine ⟨(scanBack space rest).1, ?_⟩
  simp only [hline, pushedStrings, scanBack_word_eq, List.head_cons, List.tail_cons]

end Strings

section ArgvZero

variable {line : CString}

theorem strings_length_le (l : List UInt8) :
    (strings (scanBack space l).1).length + (scanBack space l).2.1.length ≤ 2 * l.length := by
  induction l with
  | nil => exact Nat.le_refl 0
  | cons c l ih =>
    by_cases hc : c = space
    · subst hc
      rw [scanBack_cons_sep]
      split_ifs with hprev
      · simp only [List.length_nil, List.length_cons]
        omega
      · simp only [strings_cons, List.length_append, List.length_nil, List.length_cons]
        omega
    · rw [scanBack_cons_of_ne hc]
      simp only [List.length_cons]
      omega

/-- `argv[0]` is the first string pushed, whether the block fits the stack page or not. -/
theorem stringAt_argvZero (hne : line.bytes ≠ []) (hlen : line.bytes.length ≤ 4095) :
    StringAt (pushCommand line physBase fun _ => 0).mem
      ((pushCommand line physBase fun _ => 0).argument 0)
      (line.bytes.head hne :: line.bytes.tail.takeWhile (· ≠ space)) := by
  obtain ⟨args, hargs⟩ := pushedStrings_head hne
  have hsize : (strings (pushedStrings line.bytes)).length ≤ 2 * line.bytes.length := by
    obtain ⟨c, rest, hline⟩ := List.exists_cons_of_ne_nil hne
    have hle := strings_length_le rest
    rw [hline, pushedStrings, strings_cons, List.length_append, List.length_append,
      List.length_cons, List.length_singleton, List.length_cons]
    omega
  have hcount := length_le_strings (pushedStrings line.bytes)
  have htop : (physBase : Int) = 0xc0000000 := by decide
  have hpad : padding (strings (pushedStrings line.bytes)).length ≤ 4 := by
    unfold padding
    split_ifs <;> omega
  have hesp := @pushCommand_esp line (fun _ => 0) hne
  rw [blockSize] at hesp
  have hpushed := @pushed_words line (fun _ => 0) (pushCommand line physBase fun _ => 0).esp hne
    fun _ _ _ => rfl
  have hlow := Int.le_refl (pushCommand line physBase fun _ => 0).esp
  rw [pushCommand_eq] at hlow hpushed hesp ⊢
  obtain ⟨pad, htable, hholds⟩ := pushTable_holds hpushed hlow
  have hstart := hpushed.esp
  have hread := blockReads hholds (by omega) (by omega) (by omega)
  have hfirst := hread.string 0 (by rw [hargs]; exact Nat.succ_pos _)
  rw [Push.argument, hread.argv]
  simp only [hargs, List.getElem_cons_zero] at hfirst
  refine ⟨?_, hfirst.2⟩
  apply notMem_of_mem_pushedStrings line.noNul
  rw [hargs]
  exact List.mem_cons_self

end ArgvZero

/-- For a line of at most 4095 bytes, the string that `process_execute` cuts out is the one that
`push_command` makes `argv[0]` if and only if the line does not begin with a space. -/
theorem tokenizers_agree_iff (line : CString) (m : Mem) (hne : line.bytes ≠ [])
    (hlen : line.bytes.length ≤ 4095) :
    (∃ name, StringAt (cmdNoArgs line m) 0 name ∧
      StringAt (pushCommand (strlcpy line pgsize) physBase fun _ => 0).mem
        ((pushCommand (strlcpy line pgsize) physBase fun _ => 0).argument 0) name) ↔
      line.bytes.head hne ≠ space := by
  have hcopy : strlcpy line pgsize = line := by
    obtain ⟨bytes, noNul⟩ := line
    have htake : bytes.take (pgsize - 1) = bytes := List.take_of_length_le hlen
    simp only [strlcpy, htake]
  have hname := stringAt_cmdNoArgs line m
  have hargv := stringAt_argvZero hne hlen
  obtain ⟨c, rest, hline⟩ := List.exists_cons_of_ne_nil hne
  simp only [hline, List.head_cons, List.tail_cons] at hname hargv ⊢
  rw [hcopy]
  constructor
  · rintro ⟨name, hname', hargv'⟩ hc
    have hempty := hname.unique hname'
    have hfull := hargv.unique hargv'
    rw [← hempty, List.takeWhile_cons_of_neg (by simpa using hc)] at hfull
    cases hfull
  · intro hc
    rw [List.takeWhile_cons_of_pos (by simpa using hc)] at hname
    exact ⟨_, hname, hargv⟩

theorem tokenizers_agree_listCommand : ∃ name, StringAt (cmdNoArgs listCommand fun _ => 0) 0 name ∧
    StringAt (pushCommand (strlcpy listCommand pgsize) physBase fun _ => 0).mem
      ((pushCommand (strlcpy listCommand pgsize) physBase fun _ => 0).argument 0) name :=
  (tokenizers_agree_iff listCommand (fun _ => 0) (by decide) (by decide)).mpr (by decide)

/-- `" a"`. -/
def leadingSpace : CString := ⟨[32, 97], by decide⟩

/-- The program name is the empty string, and `argv[0]` is the whole line. -/
theorem tokenizers_leadingSpace :
    StringAt (cmdNoArgs leadingSpace fun _ => 0) 0 [] ∧
      StringAt (pushCommand (strlcpy leadingSpace pgsize) physBase fun _ => 0).mem
        ((pushCommand (strlcpy leadingSpace pgsize) physBase fun _ => 0).argument 0) [32, 97] ∧
      ¬ ∃ name, StringAt (cmdNoArgs leadingSpace fun _ => 0) 0 name ∧
        StringAt (pushCommand (strlcpy leadingSpace pgsize) physBase fun _ => 0).mem
          ((pushCommand (strlcpy leadingSpace pgsize) physBase fun _ => 0).argument 0) name := by
  have hname : StringAt (cmdNoArgs leadingSpace fun _ => 0) 0 [] :=
    stringAt_cmdNoArgs leadingSpace fun _ => 0
  have hargv : StringAt (pushCommand (strlcpy leadingSpace pgsize) physBase fun _ => 0).mem
      ((pushCommand (strlcpy leadingSpace pgsize) physBase fun _ => 0).argument 0) [32, 97] :=
    @stringAt_argvZero leadingSpace (by decide) (by decide)
  refine ⟨hname, hargv, ?_⟩
  rintro ⟨name, hname', hargv'⟩
  have hfull := hargv.unique hargv'
  rw [← hname.unique hname'] at hfull
  cases hfull

end CSE130.Userprog
