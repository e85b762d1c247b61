import CSE130.Filesys.Inode
import CSE130.Library.Effects

/-!
# What the inode layer does to the store

Reading leaves the store as it is, writing data and the bitmap leaves the free map as it is, and growing a
file marks sectors and clears none.
-/

namespace CSE130.Filesys

open CSE130.Library

/-- The free map is the same. -/
def SameUsed (s s' : Store) : Prop := s'.used = s.used

/-- Every sector that is marked stays so. -/
def MarksStay (s s' : Store) : Prop := ∀ x, s.used x = true → s'.used x = true

instance : IsPreorder Store SameUsed where
  refl _ := rfl
  trans _ _ _ h h' := h'.trans h

instance : IsPreorder Store MarksStay where
  refl _ _ hx := hx
  trans _ _ _ h h' x hx := h' x (h x hx)

theorem SameUsed.marksStay {s s' : Store} (h : SameUsed s s') : MarksStay s s' := by
  intro x hx
  rw [h]
  exact hx

/-! ## Reading -/

section Reading

variable {d : InodeDisk}

theorem bufferCacheRead_staysIn (sector : Sector) : StaysIn Eq (bufferCacheRead sector) := by
  intro s b s' hrun
  rw [bufferCacheRead] at hrun
  split_ifs at hrun
  cases hrun
  rfl

theorem indexToSector_staysIn (index : Nat) : StaysIn Eq (indexToSector d index) := by
  refine .ite (fun _ => .pure) fun _ => .ite (fun _ => ?_) fun _ => .ite (fun _ => ?_) fun _ => .pure
  · exact .bind (bufferCacheRead_staysIn _) fun _ => .pure
  · exact .bind (bufferCacheRead_staysIn _) fun _ => .bind (bufferCacheRead_staysIn _) fun _ => .pure

theorem byteToSector_staysIn (pos : Int) : StaysIn Eq (byteToSector d pos) :=
  .ite (fun _ => indexToSector_staysIn _) fun _ => .pure

theorem readLoop_staysIn (rounds size offset : Nat) : StaysIn Eq (readLoop d rounds size offset) := by
  induction rounds generalizing size offset with
  | zero => exact .throw
  | succ rounds ih =>
    refine .ite (fun _ => .pure) fun _ => .bind (byteToSector_staysIn _) fun sector => ?_
    refine .ite (fun _ => .pure) fun _ => .bind ?_ fun bytes => .bind (ih _ _) fun rest => .pure
    exact .bind (bufferCacheRead_staysIn sector) fun _ => .pure

theorem inodeReadAt_staysIn (size offset : Nat) : StaysIn Eq (inodeReadAt d size offset) :=
  readLoop_staysIn _ _ _

end Reading

/-! ## Writing data and the bitmap -/

section Writing

variable {d : InodeDisk}

theorem sameUsed_of_eq {α : Type} {m : StoreM α} (h : StaysIn Eq m) : StaysIn SameUsed m :=
  h.mono fun _ _ heq => congrArg Store.used heq.symm

theorem marksStay_of_sameUsed {α : Type} {m : StoreM α} (h : StaysIn SameUsed m) : StaysIn MarksStay m :=
  h.mono fun _ _ => SameUsed.marksStay

theorem bufferCacheWrite_staysIn (sector : Sector) (b : Block) :
    StaysIn SameUsed (bufferCacheWrite sector b) := by
  intro s u s' hrun
  rw [bufferCacheWrite] at hrun
  split_ifs at hrun
  cases hrun
  rfl

theorem note_staysIn (n : Note) : StaysIn SameUsed (note n) := by
  intro s u s' hrun
  cases hrun
  rfl

theorem assert_staysIn (p : Prop) [Decidable p] : StaysIn SameUsed (assert p) := by
  intro s u s' hrun
  rw [assert] at hrun
  split_ifs at hrun
  cases hrun
  rfl

theorem writeChunk_staysIn (sector : Sector) (ofs : Nat) (bytes : List UInt8) :
    StaysIn SameUsed (writeChunk sector ofs bytes) := by
  refine .ite (fun _ => bufferCacheWrite_staysIn _ _) fun _ => .bind (.ite (fun _ => ?_) fun _ => .pure)
    fun bounce => bufferCacheWrite_staysIn _ _
  exact sameUsed_of_eq (bufferCacheRead_staysIn sector)

theorem writeLoop_staysIn (rounds : Nat) (buffer : List UInt8) (offset : Nat) :
    StaysIn SameUsed (writeLoop d rounds buffer offset) := by
  induction rounds generalizing buffer offset with
  | zero => exact .throw
  | succ rounds ih =>
    refine .ite (fun _ => .pure) fun _ => .bind (sameUsed_of_eq (byteToSector_staysIn _)) fun sector => ?_
    refine .ite (fun _ => .pure) fun _ => .bind (writeChunk_staysIn _ _ _) fun _ => ?_
    exact .bind (ih _ _) fun _ => .pure

theorem bitmapWrite_staysIn : StaysIn SameUsed bitmapWrite := by
  intro s written s' hrun
  rw [bitmapWrite, get_bind] at hrun
  cases hd : s.freeMapFile with
  | none => rw [hd] at hrun; cases hrun
  | some d =>
    have hwrite : StaysIn SameUsed (fileWriteBitmap d s.bitmapBytes) := by
      refine .bind (sameUsed_of_eq (byteToSector_staysIn _)) fun sector => .ite (fun _ => .throw) fun _ => ?_
      exact .bind (writeLoop_staysIn _ _ _) fun _ => .pure
    rw [hd] at hrun
    exact hwrite hrun

theorem bitmapWritten_staysIn : StaysIn SameUsed bitmapWritten := by
  intro s written s' hrun
  rw [bitmapWritten, get_bind] at hrun
  split_ifs at hrun
  · cases hrun
    rfl
  · exact bitmapWrite_staysIn hrun

end Writing

/-! ## Growing a file -/

section Growing

theorem freeMapAllocate_staysIn : StaysIn MarksStay freeMapAllocate := by
  intro s sector s' hrun
  rw [freeMapAllocate, get_bind] at hrun
  cases hscan : s.bitmapScan with
  | none =>
    rw [hscan] at hrun
    cases hrun
    exact refl_of MarksStay s
  | some x =>
    have hfree : s.used x = false := by
      obtain ⟨rest, hrest⟩ := bitmapScan_eq_some.mp hscan
      exact (mem_freeSectors.mp (by rw [hrest]; exact List.mem_cons_self)).2
    have hmark : MarksStay s (s.setUsed x true) := by
      intro y hy
      rw [setUsed_used, Function.update_apply]
      split_ifs
      · rfl
      · exact hy
    rw [hscan] at hrun
    dsimp only at hrun
    rw [set_bind] at hrun
    cases hwrite : bitmapWritten (s.setUsed x true) with
    | error p t => rw [bind_of_error hwrite] at hrun; cases hrun
    | ok written t =>
      have hused : t.used = (s.setUsed x true).used := bitmapWritten_staysIn hwrite
      rw [bind_of_ok hwrite] at hrun
      cases written with
      | true =>
        cases hrun
        intro y hy
        rw [Store.noted_used, hused]
        exact hmark y hy
      | false =>
        -- the mark that is taken back was not there before
        cases hrun
        intro y hy
        have hne : y ≠ x := by
          rintro rfl
          rw [hfree] at hy
          cases hy
        rw [Store.noted_used, setUsed_used, Function.update_of_ne hne, hused]
        exact hmark y hy

theorem reserveWrite_staysIn (sector : Sector) (b : Block) : StaysIn MarksStay (reserveWrite sector b) :=
  marksStay_of_sameUsed (.bind (note_staysIn _) fun _ => bufferCacheWrite_staysIn _ _)

theorem reserveSector_staysIn (entry : Sector) : StaysIn MarksStay (reserveSector entry) := by
  refine .ite (fun _ => .bind freeMapAllocate_staysIn fun sector => ?_) fun _ => .pure
  cases sector with
  | none => exact .pure
  | some x => exact .bind (reserveWrite_staysIn _ _) fun _ => .pure

theorem reserveEntries_staysIn {reserve : Sector → Nat → StoreM (Bool × Sector)} {unit : Nat}
    (hreserve : ∀ e n, StaysIn MarksStay (reserve e n)) (l : Nat) (es : List Sector) (n : Nat) :
    StaysIn MarksStay (reserveEntries reserve unit l es n) := by
  induction l generalizing es n with
  | zero => exact .pure
  | succ l ih =>
    cases es with
    | nil => exact .pure
    | cons e es =>
      refine .bind (hreserve _ _) fun r => .ite (fun _ => ?_) fun _ => .pure
      exact .bind (ih _ _) fun _ => .pure

theorem inodeReserveIndirect_staysIn (level : Nat) (entry : Sector) (n : Nat) :
    StaysIn MarksStay (inodeReserveIndirect level entry n) := by
  induction level generalizing entry n with
  | zero => exact reserveSector_staysIn entry
  | succ level ih =>
    refine .bind (marksStay_of_sameUsed (assert_staysIn _)) fun _ => .bind ?_ fun entry => ?_
    · refine .ite (fun _ => .bind freeMapAllocate_staysIn fun sector => ?_) fun _ => .pure
      exact .bind (reserveWrite_staysIn _ _) fun _ => .pure
    · refine .bind (marksStay_of_sameUsed (sameUsed_of_eq (bufferCacheRead_staysIn _))) fun b => ?_
      refine .bind (reserveEntries_staysIn ih _ _ _) fun r => .ite (fun _ => ?_) fun _ => .pure
      refine .bind (marksStay_of_sameUsed (assert_staysIn _)) fun _ => ?_
      exact .bind (reserveWrite_staysIn _ _) fun _ => .pure

variable {d : InodeDisk}

theorem inodeReserve_staysIn (length : Int32) : StaysIn MarksStay (inodeReserve d length) := by
  refine .ite (fun _ => .pure) fun _ => ?_
  refine .bind (reserveEntries_staysIn (fun e _ => reserveSector_staysIn e) _ _ _) fun r => ?_
  refine .ite (fun _ => .ite (fun _ => .pure) fun _ => ?_) fun _ => .pure
  refine .bind (inodeReserveIndirect_staysIn _ _ _) fun r => ?_
  refine .ite (fun _ => .ite (fun _ => .pure) fun _ => ?_) fun _ => .pure
  refine .bind (inodeReserveIndirect_staysIn _ _ _) fun r => ?_
  refine .ite (fun _ => .ite (fun _ => .pure) fun _ => ?_) fun _ => .pure
  exact .bind (marksStay_of_sameUsed (assert_staysIn _)) fun _ => .pure

variable {inode inode' : Inode}

theorem inodeExtend_staysIn (fileEnd : Int32) : StaysIn MarksStay (inodeExtend inode fileEnd) := by
  refine .bind (inodeReserve_staysIn _) fun r => .ite (fun _ => ?_) fun _ => .pure
  exact .bind (marksStay_of_sameUsed (bufferCacheWrite_staysIn _ _)) fun _ => .pure

theorem inodeWriteAt_staysIn (buffer : List UInt8) (offset : Nat) :
    StaysIn MarksStay (inodeWriteAt inode buffer offset) := by
  refine .ite (fun _ => .pure) fun _ => .bind ?_ fun r => .ite (fun _ => ?_) fun _ => .pure
  · refine .bind (marksStay_of_sameUsed (sameUsed_of_eq (byteToSector_staysIn _))) fun sector => ?_
    exact .ite (fun _ => inodeExtend_staysIn _) fun _ => .pure
  · exact .bind (marksStay_of_sameUsed (writeLoop_staysIn _ _ _)) fun _ => .pure

/-- A release takes one mark away. -/
theorem freeMapRelease_used {s s' : Store} {x : Sector} (hrun : freeMapRelease x s = .ok () s') :
    s'.used = Function.update s.used x false := by
  rw [freeMapRelease, get_bind] at hrun
  by_cases hassert : x < s.size ∧ s.used x = true
  · rw [bind_of_ok (assert_of hassert), set_bind] at hrun
    cases hwrite : bitmapWrite ((s.setUsed x false).noted (.released x)) with
    | error p t => rw [bind_of_error hwrite] at hrun; cases hrun
    | ok written t =>
      rw [bind_of_ok hwrite] at hrun
      cases hrun
      exact bitmapWrite_staysIn hwrite
  · rw [bind_of_error (assert_of_not hassert)] at hrun
    cases hrun

end Growing

end CSE130.Filesys
