import CSE130.Library.Run
import Mathlib.Algebra.Ring.Nat
import Mathlib.Tactic.ByContra

/-!
# User memory and the write system call of Lab 3

Rendering of `umem_get` and `umem_check` (`userprog/umem.c`) and of `sys_write`
(`userprog/syscall.c`). The kernel checks the first and the last address of a buffer, computed in 32
bits, and stops with a failed assertion where the check fails.
-/

namespace CSE130.Userprog

/-- `PHYS_BASE`. -/
def physBase : Nat := 0xc0000000

/-- `PGSIZE`. -/
def pgsize : Nat := 4096

/-- A user address space: which of the user pages are mapped, and the bytes in them. -/
structure UserMemory where
  mapped : Nat → Bool
  byte : UInt32 → UInt8

/-- Why a system call does not return to its caller. -/
inductive Stop where
  | panic
  | exit
  deriving DecidableEq, Repr

/-- `umem_get` (`umem.c:52-60`). On an unmapped page `page_fault` sets the result to `0xffffffff`. -/
def umemGet (m : UserMemory) (uaddr : UInt32) : Int :=
  if ¬ uaddr.toNat < physBase then -1
  else if m.mapped (uaddr.toNat / pgsize) then (m.byte uaddr).toNat
  else -1

/-- `umem_check` (`umem.c:45-50`) and `throw_segmantation_fault`, which ends in `ASSERT(false)`. -/
def umemCheck (m : UserMemory) (uaddr : UInt32) : Except Stop Unit :=
  if umemGet m uaddr = -1 then .error .panic else .ok ()

/-- What `sys_write` does: the arguments of `putbuf`, if it calls it, and the value that it
returns. -/
structure WriteResult where
  putbuf : Option (UInt32 × UInt32)
  ret : UInt32
  deriving DecidableEq, Repr

/-- `sys_write` (`syscall.c:79-92`). -/
def sysWrite (m : UserMemory) (fd : Int) (buffer size : UInt32) : Except Stop WriteResult := do
  umemCheck m buffer
  umemCheck m (buffer + size - 1)
  if fd = 1 then pure { putbuf := some (buffer, size), ret := size }
  else pure { putbuf := none, ret := -1 }

/-! ## What the checks decide -/

/-- The byte at an address, taken without wrap-around, lies in the mapped user memory. -/
def Readable (m : UserMemory) (addr : Nat) : Prop :=
  addr < physBase ∧ m.mapped (addr / pgsize) = true

instance (m : UserMemory) (addr : Nat) : Decidable (Readable m addr) :=
  inferInstanceAs (Decidable (_ ∧ _))

/-- Every byte of `[buffer, buffer + size)` lies in the mapped user memory. -/
def RangeReadable (m : UserMemory) (buffer size : UInt32) : Prop :=
  ∀ i < size.toNat, Readable m (buffer.toNat + i)

/-- `sys_write` hands the buffer to `putbuf`. -/
def ReachesPutbuf (m : UserMemory) (buffer size : UInt32) : Prop :=
  ∃ r, sysWrite m 1 buffer size = .ok r ∧ r.putbuf = some (buffer, size)

/-- `sys_write` hands the readable buffers to `putbuf` and terminates the caller for all others. -/
def Validates (m : UserMemory) (buffer size : UInt32) : Prop :=
  (ReachesPutbuf m buffer size ↔ RangeReadable m buffer size) ∧
    (¬ RangeReadable m buffer size → sysWrite m 1 buffer size = .error .exit)

section Checks

variable {m : UserMemory} {uaddr buffer size : UInt32} {fd : Int}

theorem umemGet_eq_neg_one_iff : umemGet m uaddr = -1 ↔ ¬ Readable m uaddr.toNat := by
  unfold umemGet Readable
  split_ifs with hlt hmapped
  · simp [hlt, hmapped]
  · simp [hmapped]
  · simp [hlt]

theorem umemCheck_of_readable (h : Readable m uaddr.toNat) : umemCheck m uaddr = .ok () := by
  unfold umemCheck
  rw [if_neg (umemGet_eq_neg_one_iff.not.mpr (not_not.mpr h))]

theorem umemCheck_of_not (h : ¬ Readable m uaddr.toNat) : umemCheck m uaddr = .error .panic := by
  unfold umemCheck
  rw [if_pos (umemGet_eq_neg_one_iff.mpr h)]

/-- The two addresses that `sys_write` checks. -/
def Probed (m : UserMemory) (buffer size : UInt32) : Prop :=
  Readable m buffer.toNat ∧ Readable m (buffer + size - 1).toNat

theorem sysWrite_of_probed (h : Probed m buffer size) :
    sysWrite m 1 buffer size = .ok { putbuf := some (buffer, size), ret := size } := by
  unfold sysWrite
  rw [umemCheck_of_readable h.1, umemCheck_of_readable h.2]
  rfl

theorem sysWrite_of_not_probed (h : ¬ Probed m buffer size) :
    sysWrite m fd buffer size = .error .panic := by
  unfold sysWrite
  by_cases hfirst : Readable m buffer.toNat
  · have hlast : ¬ Readable m (buffer + size - 1).toNat := fun hlast => h ⟨hfirst, hlast⟩
    rw [umemCheck_of_readable hfirst, umemCheck_of_not hlast]
    rfl
  · rw [umemCheck_of_not hfirst]
    rfl

theorem reachesPutbuf_iff : ReachesPutbuf m buffer size ↔ Probed m buffer size := by
  constructor
  · rintro ⟨r, hr, -⟩
    by_contra h
    rw [sysWrite_of_not_probed h] at hr
    cases hr
  · intro h
    exact ⟨_, sysWrite_of_probed h, rfl⟩

/-- The last address of a readable buffer does not wrap around. -/
theorem probed_of_rangeReadable (h : RangeReadable m buffer size) (hne : size ≠ 0) :
    Probed m buffer size := by
  have hpos : 0 < size.toNat := by
    by_contra hzero
    apply hne
    apply UInt32.toNat_inj.mp
    simpa using Nat.eq_zero_of_not_pos hzero
  have hfirst := h 0 hpos
  have hlast := h (size.toNat - 1) (by omega)
  have haddr : (buffer + size - 1).toNat = buffer.toNat + (size.toNat - 1) := by
    have hlt := hlast.1
    unfold physBase at hlt
    rw [UInt32.toNat_sub, UInt32.toNat_add, UInt32.toNat_one]
    omega
  refine ⟨hfirst, ?_⟩
  rw [haddr]
  exact hlast

theorem rangeReadable_zero : RangeReadable m buffer 0 := by
  intro i hi
  simp at hi

end Checks

/-- `sys_write` validates a buffer if and only if the buffer is readable and, where it is empty,
`buffer` and `buffer - 1` are readable, too. The two checks alone decide whether a buffer is
readable if and only if an empty buffer has these two neighbours, and another one has no unreadable
byte between two readable ends. -/
theorem sysWrite_validates_iff (m : UserMemory) (buffer size : UInt32) :
    (Validates m buffer size ↔ RangeReadable m buffer size ∧
      (size = 0 → Readable m buffer.toNat ∧ Readable m (buffer - 1).toNat)) ∧
    ((ReachesPutbuf m buffer size ↔ RangeReadable m buffer size) ↔
      (size = 0 → Readable m buffer.toNat ∧ Readable m (buffer - 1).toNat) ∧
      (size ≠ 0 → Probed m buffer size → RangeReadable m buffer size)) := by
  have hzero : Probed m buffer 0 ↔ Readable m buffer.toNat ∧ Readable m (buffer - 1).toNat := by
    rw [Probed, UInt32.add_zero]
  constructor
  · constructor
    · intro h
      have hrange : RangeReadable m buffer size := by
        by_contra hnot
        have hexit := h.2 hnot
        by_cases hprobed : Probed m buffer size
        · rw [sysWrite_of_probed hprobed] at hexit
          cases hexit
        · rw [sysWrite_of_not_probed hprobed] at hexit
          cases hexit
      refine ⟨hrange, ?_⟩
      rintro rfl
      exact hzero.mp (reachesPutbuf_iff.mp (h.1.mpr hrange))
    · rintro ⟨hrange, hempty⟩
      refine ⟨⟨fun _ => hrange, fun _ => reachesPutbuf_iff.mpr ?_⟩, fun hnot => absurd hrange hnot⟩
      by_cases hsize : size = 0
      · subst hsize
        exact hzero.mpr (hempty rfl)
      · exact probed_of_rangeReadable hrange hsize
  · rw [reachesPutbuf_iff]
    constructor
    · intro h
      refine ⟨?_, fun _ hprobed => h.mp hprobed⟩
      rintro rfl
      exact hzero.mp (h.mpr rangeReadable_zero)
    · rintro ⟨hempty, hends⟩
      by_cases hsize : size = 0
      · subst hsize
        exact ⟨fun _ => rangeReadable_zero, fun _ => hzero.mpr (hempty rfl)⟩
      · exact ⟨hends hsize, fun hrange => probed_of_rangeReadable hrange hsize⟩

/-- An address space with two mapped pages and a hole between them. -/
def holedMemory : UserMemory where
  mapped page := page = 0x8048 ∨ page = 0x804a
  byte _ := 0

/-- A buffer that covers the hole reaches `putbuf`. -/
theorem sysWrite_misses_hole : ¬ Validates holedMemory 0x8048000 0x3000 := by
  intro h
  have hreach : ReachesPutbuf holedMemory 0x8048000 0x3000 :=
    reachesPutbuf_iff.mpr (by unfold Probed; decide +kernel)
  have hhole := h.1.mp hreach 0x1000 (by decide)
  revert hhole
  decide +kernel

end CSE130.Userprog
