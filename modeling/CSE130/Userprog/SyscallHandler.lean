import CSE130.Userprog.SystemCall

/-!
# The system call handler of Lab 3

Rendering of `syscall_handler`, `exit_handler` and `write_handler` (`userprog/syscall.c`), of
`umem_read` (`userprog/umem.c`) and of `putbuf` (`lib/kernel/console.c`). The words that the handler
works with come from the stack of the caller, whose pointer and contents are arbitrary. An address
that does not pass `umem_get` ends in a failed assertion. `putbuf` reads the buffer without
`umem_get`; there `page_fault` goes on at the address that `eax` holds by chance.
-/

namespace CSE130.Userprog

/-- What the kernel can read during a system call: the user pages, and from `PHYS_BASE` on the
RAM, of which `start.S` prepares 64 MB at most. -/
structure KernelMemory where
  user : UserMemory
  initRamPages : Nat
  capped : initRamPages ≤ 0x4000

/-- A read of the kernel that does not go through `umem_get`; `none` is a page fault. -/
def KernelMemory.load (m : KernelMemory) (addr : UInt32) : Option UInt8 :=
  if addr.toNat < physBase then
    if m.user.mapped (addr.toNat / pgsize) then some (m.user.byte addr) else none
  else if addr.toNat < physBase + m.initRamPages * pgsize then some (m.user.byte addr)
  else none

/-- How a system call ends. -/
inductive Ending where
  /-- It returns `eax` to its caller, and `putbuf` has written `console`. -/
  | returned (eax : UInt32) (console : List UInt8)
  /-- `shutdown_power_off`. -/
  | poweredOff
  /-- `thread_exit` of the caller after the output `console`. -/
  | exited (console : String)
  /-- A failed assertion. -/
  | panicked
  /-- `page_fault` has resumed the kernel at the former value of `eax`. -/
  | strayed
  deriving DecidableEq, Repr

/-- How a system call ends whose handler comes to its end or stops before it. -/
def conclude : Except Stop Ending → Ending
  | .ok ending => ending
  | .error .panic => .panicked
  | .error .exit => .exited ""

/-- `SYS_HALT`, `SYS_EXIT` and `SYS_WRITE` (`lib/syscall-nr.h`). -/
def SyscallNr.halt : Int := 0
def SyscallNr.exit : Int := 1
def SyscallNr.write : Int := 9

/-- `umem_read` (`umem.c:72-83`): the bytes that it stores at `dst`. -/
def umemRead (m : UserMemory) (src : UInt32) : Nat → Except Stop (List UInt8)
  | 0 => pure []
  | bytes + 1 => do
    let value := umemGet m src
    if value = -1 then throw .panic
    else do
      let rest ← umemRead m (src + 1) bytes
      return UInt8.ofNat value.toNat :: rest

/-- The 32-bit word that the bytes make up, the lowest byte first. -/
def wordOfBytes (bytes : List UInt8) : UInt32 :=
  UInt32.ofNat (bytes.foldr (fun b w => b.toNat + 2 ^ 8 * w) 0)

/-- `umem_read` (`umem.c:72-83`) of a variable of four bytes. -/
def umemReadWord (m : UserMemory) (src : UInt32) : Except Stop UInt32 := do
  let bytes ← umemRead m src 4
  return wordOfBytes bytes

/-- A word as an `int`. -/
def intOfWord (w : UInt32) : Int := w.toInt32.toInt

/-- `putbuf` (`console.c:155-161`): the characters that it writes. -/
def putbuf (m : KernelMemory) (buffer : UInt32) : Nat → Option (List UInt8)
  | 0 => some []
  | n + 1 => do
    let c ← m.load buffer
    let rest ← putbuf m (buffer + 1) n
    return c :: rest

/-- `sys_exit` (`syscall.c:63-67`). -/
def sysExit (name : String) (exitcode : Int) : Ending :=
  .exited (name ++ ": exit(" ++ toString exitcode ++ ")\n")

/-- `exit_handler` (`syscall.c:69-74`). -/
def exitHandler (m : KernelMemory) (name : String) (esp : UInt32) : Except Stop Ending := do
  let exitcode ← umemReadWord m.user (esp + 4)
  return sysExit name (intOfWord exitcode)

/-- `write_handler` (`syscall.c:94-105`). -/
def writeHandler (m : KernelMemory) (esp : UInt32) : Except Stop Ending := do
  let fd ← umemReadWord m.user (esp + 4)
  let buffer ← umemReadWord m.user (esp + 8)
  let size ← umemReadWord m.user (esp + 12)
  let r ← sysWrite m.user (intOfWord fd) buffer size
  match r.putbuf with
  | none => return .returned r.ret []
  | some (buffer, size) =>
    match putbuf m buffer size.toNat with
    | none => return .strayed
    | some console => return .returned r.ret console

/-- The default of the `switch` (`syscall.c:140-143`). -/
def unimplemented (syscall : Int) : Ending :=
  .exited ("[ERROR] system call " ++ toString syscall ++ " is unimplemented!\n")

/-- The body of `syscall_handler` (`syscall.c:112-145`), called by the process `name` with the stack
pointer `esp`. -/
def handle (m : KernelMemory) (name : String) (esp : UInt32) : Except Stop Ending := do
  let syscall ← umemReadWord m.user esp
  if intOfWord syscall = SyscallNr.halt then return .poweredOff
  else if intOfWord syscall = SyscallNr.exit then exitHandler m name esp
  else if intOfWord syscall = SyscallNr.write then writeHandler m esp
  else return unimplemented (intOfWord syscall)

/-- `syscall_handler` (`syscall.c:112-145`). -/
def syscallHandler (m : KernelMemory) (name : String) (esp : UInt32) : Ending :=
  conclude (handle m name esp)

/-! ## What the reads decide -/

/-- The call returns, powers the machine off, or ends the caller and nothing else. -/
def Ending.SparesKernel : Ending → Prop
  | .returned _ _ | .poweredOff | .exited _ => True
  | .panicked | .strayed => False

/-- The four bytes of the word at `src` lie in the mapped user memory. -/
def WordReadable (m : UserMemory) (src : UInt32) : Prop :=
  ∀ i < 4, Readable m (src + UInt32.ofNat i).toNat

/-- The word at `src`. -/
def wordAt (m : UserMemory) (src : UInt32) : UInt32 :=
  wordOfBytes ((List.range 4).map fun i => m.byte (src + UInt32.ofNat i))

section Reads

variable {m : UserMemory} {src : UInt32}

theorem umemGet_of_readable (h : Readable m src.toNat) : umemGet m src = (m.byte src).toNat := by
  unfold umemGet
  rw [if_neg (not_not.mpr h.1), if_pos h.2]

theorem add_ofNat_succ (src : UInt32) (i : Nat) :
    src + UInt32.ofNat (i + 1) = src + 1 + UInt32.ofNat i := by
  rw [UInt32.ofNat_add, UInt32.add_comm (UInt32.ofNat i), ← UInt32.add_assoc]
  rfl

theorem umemRead_of_readable {bytes : Nat}
    (h : ∀ i < bytes, Readable m (src + UInt32.ofNat i).toNat) :
    umemRead m src bytes =
      .ok ((List.range bytes).map fun i => m.byte (src + UInt32.ofNat i)) := by
  induction bytes generalizing src with
  | zero => rfl
  | succ bytes ih =>
    have hfirst : Readable m src.toNat := by simpa using h 0 (by omega)
    have hrest : umemRead m (src + 1) bytes =
        .ok ((List.range bytes).map fun i => m.byte (src + 1 + UInt32.ofNat i)) := by
      apply ih
      intro i hi
      rw [← add_ofNat_succ]
      exact h (i + 1) (by omega)
    have hvalue : ¬ ((m.byte src).toNat : Int) = -1 := by omega
    simp only [umemRead, umemGet_of_readable hfirst, if_neg hvalue, hrest, List.range_succ_eq_map,
      List.map_cons, List.map_map, Function.comp_def, Nat.succ_eq_add_one, add_ofNat_succ]
    simp [bind, Except.bind, pure, Except.pure]

theorem umemRead_of_not {bytes : Nat}
    (h : ¬ ∀ i < bytes, Readable m (src + UInt32.ofNat i).toNat) :
    umemRead m src bytes = .error .panic := by
  induction bytes generalizing src with
  | zero => exact absurd (fun i hi => absurd hi (by omega)) h
  | succ bytes ih =>
    rw [umemRead]
    by_cases hfirst : Readable m src.toNat
    · have hrest : umemRead m (src + 1) bytes = .error .panic := by
        apply ih
        intro hall
        apply h
        intro i hi
        cases i with
        | zero => simpa using hfirst
        | succ i =>
          rw [add_ofNat_succ]
          exact hall i (by omega)
      have hvalue : ¬ ((m.byte src).toNat : Int) = -1 := by omega
      simp only [umemGet_of_readable hfirst, if_neg hvalue, hrest]
      rfl
    · simp only [umemGet_eq_neg_one_iff.mpr hfirst, if_true]
      rfl

theorem umemReadWord_of_readable (h : WordReadable m src) :
    umemReadWord m src = .ok (wordAt m src) := by
  rw [umemReadWord, umemRead_of_readable h]
  rfl

theorem umemReadWord_of_not (h : ¬ WordReadable m src) : umemReadWord m src = .error .panic := by
  rw [umemReadWord, umemRead_of_not h]
  rfl

end Reads

section Putbuf

variable {m : KernelMemory} {buffer size : UInt32}

/-- The last byte of the address space is not in the RAM. -/
theorem load_last : m.load (-1) = none := by
  have hlast : (-1 : UInt32).toNat = 2 ^ 32 - 1 := by decide
  have hcap := m.capped
  unfold KernelMemory.load physBase pgsize
  rw [hlast, if_neg (by omega), if_neg (by omega)]

theorem load_of_readable {addr : UInt32} (h : Readable m.user addr.toNat) :
    m.load addr = some (m.user.byte addr) := by
  rw [KernelMemory.load, if_pos h.1, if_pos h.2]

theorem readable_of_load {addr : UInt32} (h : m.load addr ≠ none) (hlt : addr.toNat < physBase) :
    Readable m.user addr.toNat := by
  refine ⟨hlt, ?_⟩
  by_contra hmapped
  apply h
  rw [KernelMemory.load, if_pos hlt, if_neg hmapped]

theorem putbuf_ne_none_iff {n : Nat} :
    putbuf m buffer n ≠ none ↔ ∀ i < n, m.load (buffer + UInt32.ofNat i) ≠ none := by
  induction n generalizing buffer with
  | zero => simp [putbuf]
  | succ n ih =>
    have hsplit : putbuf m buffer (n + 1) ≠ none ↔
        m.load buffer ≠ none ∧ putbuf m (buffer + 1) n ≠ none := by
      cases hload : m.load buffer <;> cases hrest : putbuf m (buffer + 1) n <;>
        simp [putbuf, hload, hrest]
    rw [hsplit, ih]
    constructor
    · rintro ⟨hfirst, hrest⟩ i hi
      cases i with
      | zero => simpa using hfirst
      | succ i =>
        rw [add_ofNat_succ]
        exact hrest i (by omega)
    · intro h
      refine ⟨by simpa using h 0 (by omega), fun i hi => ?_⟩
      rw [← add_ofNat_succ]
      exact h (i + 1) (by omega)

/-- `putbuf` of a buffer whose ends have been checked meets no page fault if and only if the
buffer is readable. -/
theorem putbuf_ne_none_iff_rangeReadable (hends : Probed m.user buffer size) :
    putbuf m buffer size.toNat ≠ none ↔ RangeReadable m.user buffer size := by
  rw [putbuf_ne_none_iff]
  have hsize := size.toNat_lt
  constructor
  · intro h
    -- a buffer that wraps around contains the last byte of the address space
    have hwrap : ∀ i < size.toNat, buffer.toNat + i < 2 ^ 32 := by
      intro i hi
      by_contra hge
      have hb := buffer.toNat_lt
      apply h (2 ^ 32 - 1 - buffer.toNat) (by omega)
      have hlast : buffer + UInt32.ofNat (2 ^ 32 - 1 - buffer.toNat) = -1 := by
        apply UInt32.toNat_inj.mp
        rw [UInt32.toNat_add, UInt32.toNat_ofNat']
        have hneg : (-1 : UInt32).toNat = 2 ^ 32 - 1 := by decide
        omega
      rw [hlast]
      exact load_last
    intro i hi
    have haddr : (buffer + UInt32.ofNat i).toNat = buffer.toNat + i := by
      have := hwrap i hi
      rw [UInt32.toNat_add, UInt32.toNat_ofNat']
      omega
    have hlast : (buffer + size - 1).toNat = buffer.toNat + (size.toNat - 1) := by
      have := hwrap (size.toNat - 1) (by omega)
      rw [UInt32.toNat_sub, UInt32.toNat_add, UInt32.toNat_one]
      omega
    have hbelow : buffer.toNat + (size.toNat - 1) < physBase := by
      rw [← hlast]
      exact hends.2.1
    rw [← haddr]
    exact readable_of_load (h i hi) (by omega)
  · intro h i hi
    have hreadable := h i hi
    have haddr : (buffer + UInt32.ofNat i).toNat = buffer.toNat + i := by
      have := hreadable.1
      unfold physBase at this
      rw [UInt32.toNat_add, UInt32.toNat_ofNat']
      omega
    rw [load_of_readable (by rwa [haddr])]
    exact Option.some_ne_none _

end Putbuf

/-! ## Calls that spare the kernel -/

/-- The arguments of `write` are readable, both ends of its buffer are, and a buffer for the console
has no hole. -/
def WriteSafe (m : UserMemory) (esp : UInt32) : Prop :=
  WordReadable m (esp + 4) ∧ WordReadable m (esp + 8) ∧ WordReadable m (esp + 12) ∧
    Probed m (wordAt m (esp + 8)) (wordAt m (esp + 12)) ∧
    (intOfWord (wordAt m (esp + 4)) = 1 →
      RangeReadable m (wordAt m (esp + 8)) (wordAt m (esp + 12)))

/-- All the memory that a system call is to read is mapped. -/
def CallSafe (m : UserMemory) (esp : UInt32) : Prop :=
  WordReadable m esp ∧
    (intOfWord (wordAt m esp) = SyscallNr.exit → WordReadable m (esp + 4)) ∧
    (intOfWord (wordAt m esp) = SyscallNr.write → WriteSafe m esp)

section Handler

variable {m : KernelMemory} {name : String} {esp buffer size : UInt32} {fd : Int}

/-- A handler with this result spares the kernel. -/
def Spares (x : Except Stop Ending) : Prop := (conclude x).SparesKernel

theorem not_spares_panic : ¬ Spares (.error .panic) := id

/-- What a handler does with a word of the stack it does only if the word is readable. -/
theorem spares_read_bind {src : UInt32} {f : UInt32 → Except Stop Ending} :
    Spares (umemReadWord m.user src >>= f) ↔
      WordReadable m.user src ∧ Spares (f (wordAt m.user src)) := by
  by_cases hword : WordReadable m.user src
  · rw [umemReadWord_of_readable hword, and_iff_right hword]
    rfl
  · rw [umemReadWord_of_not hword]
    exact iff_of_false not_spares_panic fun h => hword h.1

theorem sysWrite_of_probed_ne (h : Probed m.user buffer size) (hfd : fd ≠ 1) :
    sysWrite m.user fd buffer size = .ok { putbuf := none, ret := -1 } := by
  unfold sysWrite
  rw [umemCheck_of_readable h.1, umemCheck_of_readable h.2, if_neg hfd]
  rfl

theorem exitHandler_spares_iff :
    Spares (exitHandler m name esp) ↔ WordReadable m.user (esp + 4) := by
  rw [exitHandler, spares_read_bind]
  exact and_iff_left trivial

theorem writeHandler_spares_iff : Spares (writeHandler m esp) ↔ WriteSafe m.user esp := by
  rw [writeHandler, spares_read_bind, spares_read_bind, spares_read_bind, WriteSafe]
  refine and_congr_right fun _ => and_congr_right fun _ => and_congr_right fun _ => ?_
  generalize wordAt m.user (esp + 8) = buffer
  generalize wordAt m.user (esp + 12) = size
  generalize intOfWord (wordAt m.user (esp + 4)) = fd
  by_cases hends : Probed m.user buffer size
  · rw [and_iff_right hends]
    by_cases hfd : fd = 1
    · subst hfd
      rw [sysWrite_of_probed hends, ← putbuf_ne_none_iff_rangeReadable hends]
      cases hput : putbuf m buffer size.toNat with
      | none => simp [Spares, conclude, hput, bind, Except.bind, pure, Except.pure,
          Ending.SparesKernel]
      | some console => simp [Spares, conclude, hput, bind, Except.bind, pure, Except.pure,
          Ending.SparesKernel]
    · rw [sysWrite_of_probed_ne hends hfd]
      exact iff_of_true trivial fun h => absurd h hfd
  · rw [sysWrite_of_not_probed hends]
    exact iff_of_false not_spares_panic fun h => hends h.1

theorem handle_spares_iff : Spares (handle m name esp) ↔ CallSafe m.user esp := by
  rw [handle, spares_read_bind, CallSafe]
  refine and_congr_right fun _ => ?_
  generalize intOfWord (wordAt m.user esp) = syscall
  by_cases hhalt : syscall = SyscallNr.halt
  · subst hhalt
    rw [if_pos rfl]
    refine iff_of_true trivial ⟨?_, ?_⟩ <;> intro h <;> cases h
  · rw [if_neg hhalt]
    by_cases hexit : syscall = SyscallNr.exit
    · subst hexit
      have hwrite : SyscallNr.exit ≠ SyscallNr.write := by decide
      simp [exitHandler_spares_iff, hwrite]
    · rw [if_neg hexit]
      by_cases hwrite : syscall = SyscallNr.write
      · subst hwrite
        simp [writeHandler_spares_iff, hexit]
      · rw [if_neg hwrite]
        exact iff_of_true trivial ⟨fun h => absurd h hexit, fun h => absurd h hwrite⟩

end Handler

/-- A system call spares the kernel if and only if all the memory that it is to read is mapped. -/
theorem syscallHandler_spares_iff (m : KernelMemory) (name : String) (esp : UInt32) :
    (syscallHandler m name esp).SparesKernel ↔ CallSafe m.user esp :=
  handle_spares_iff

/-- An address space whose stack page holds the call `write (1, 0x10123420, 123)` at
`0xbfffff00`. -/
def badPointerMemory : KernelMemory where
  user := {
    mapped page := page = 0xbffff
    byte addr :=
      if addr = 0xbfffff00 then 9
      else if addr = 0xbfffff04 then 1
      else if addr = 0xbfffff08 then 0x20
      else if addr = 0xbfffff09 then 0x34
      else if addr = 0xbfffff0a then 0x12
      else if addr = 0xbfffff0b then 0x10
      else if addr = 0xbfffff0c then 123
      else 0 }
  initRamPages := 0x400
  capped := by decide

/-- The pointer of the test `write-bad-ptr` stops the kernel. -/
theorem syscallHandler_panics :
    syscallHandler badPointerMemory "write-bad-ptr" 0xbfffff00 = .panicked ∧
    ¬ (syscallHandler badPointerMemory "write-bad-ptr" 0xbfffff00).SparesKernel := by
  have h : syscallHandler badPointerMemory "write-bad-ptr" 0xbfffff00 = .panicked := by
    decide +kernel
  refine ⟨h, ?_⟩
  rw [h]
  exact id

end CSE130.Userprog
