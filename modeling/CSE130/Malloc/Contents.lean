import CSE130.Malloc.Store

/-!
# What the blocks in use contain

`malloc` and `free` write into headers, into list elements of free blocks and into what goes back to
`palloc`. None of it belongs to a block that is in use and stays so.
-/

namespace CSE130.Malloc

open CSE130.Library

theorem overwrite_of_not {bytes value : Nat → UInt8} {W : Nat → Prop} [DecidablePred W] {x : Nat}
    (h : ¬ W x) : overwrite bytes W value x = bytes x := if_neg h

/-- Every block of a descriptor has room for a list element. -/
theorem sizeofListElem_le (d : DescId) : sizeofListElem ≤ blockSize d := by
  revert d
  decide

namespace Heap

variable {h h' : Heap} {a : Nat} {b e p : Nat} {d : DescId} {g : Nat × Nat}

/-- A block in use has no byte in pages other than its own. -/
theorem Ok.pages_apart (hok : h.Ok) (hg : g ∈ h.granted) (hb : b ∈ h.live)
    (hpage : pgRoundDown b ≠ g.1) :
    b + h.bytesOf b ≤ g.1 * pgSize ∨ (g.1 + g.2) * pgSize ≤ b := by
  obtain ⟨n, hrun, hlow, hhigh⟩ := hok.extent hb
  have hapart : Apart (pgRoundDown b, n) g :=
    hok.disjoint.forall hrun hg fun heq => hpage (congrArg Prod.fst heq)
  unfold Apart at hapart
  unfold pgSize at *
  omega

/-- A block in use has no byte in the header of an arena. -/
theorem Ok.header_apart (hok : h.Ok) (hg : g ∈ h.granted) (hb : b ∈ h.live) :
    b + h.bytesOf b ≤ g.1 * pgSize ∨ g.1 * pgSize + sizeofArena ≤ b := by
  by_cases hpage : pgRoundDown b = g.1
  · right
    rw [← hpage]
    rcases hok.live b hb with ⟨a, d, -, hin⟩ | ⟨a, n, -, rfl⟩
    · rw [pgRoundDown_of_mem hin]
      obtain ⟨i, hi, rfl⟩ := mem_blocks.mp hin
      exact (@blockAt_within a d i hi).1
    · rw [pgRoundDown_bigBlock]
      exact Nat.le_refl _
  · have hpos := (hok.pages g hg).2
    refine (hok.pages_apart hg hb hpage).imp_right fun hle => Nat.le_trans ?_ hle
    rw [Nat.add_mul]
    refine Nat.add_le_add_left ?_ _
    exact Nat.le_trans (by decide) (Nat.le_mul_of_pos_left pgSize hpos)

/-- A block in use and a free block have no byte in common. -/
theorem Ok.free_apart (hok : h.Ok) (he : e ∈ h.freeList d) (hb : b ∈ h.live) :
    b + h.bytesOf b ≤ e ∨ e + blockSize d ≤ b := by
  obtain ⟨hnot, a, ha, hin⟩ := (hok.mem_free d e).mp he
  have hne : b ≠ e := fun heq => hnot (heq ▸ hb)
  by_cases hpage : pgRoundDown b = a
  · rcases hok.live b hb with ⟨a', d', ha', hin'⟩ | ⟨a', n, ha', rfl⟩
    · obtain rfl : a' = a := (pgRoundDown_of_mem hin').symm.trans hpage
      obtain rfl := ha.unique ha'
      rw [bytesOf, pgRoundDown_of_mem hin', ha.2]
      exact blocks_apart hin' hin hne
    · obtain rfl : a' = a := (pgRoundDown_bigBlock a').symm.trans hpage
      cases ha.2.symm.trans ha'.2
  · obtain ⟨i, hi, rfl⟩ := mem_blocks.mp hin
    have hwithin := @blockAt_within a d i hi
    have hapart := hok.pages_apart ha.1 hb hpage
    dsimp only at hapart
    omega

/-- A block in use keeps its size while its arena keeps its descriptor. -/
theorem bytesOf_congr (hok : h.Ok) (hok' : h'.Ok) (hb : b ∈ h.live)
    (hdesc : (h'.arena (pgRoundDown b)).desc = (h.arena (pgRoundDown b)).desc)
    (hsame : ∀ n, (pgRoundDown b, n) ∈ h.granted → (pgRoundDown b, n) ∈ h'.granted) :
    h'.bytesOf b = h.bytesOf b := by
  rcases hok.live b hb with ⟨a, d, ha, hin⟩ | ⟨a, n, ha, rfl⟩
  · rw [bytesOf, bytesOf, hdesc, pgRoundDown_of_mem hin, ha.2]
  · rw [pgRoundDown_bigBlock] at hdesc hsame
    have hbig : h'.IsBig a n := ⟨hsame n ha.1, hdesc.trans ha.2⟩
    rw [bytesOf, bytesOf, pgRoundDown_bigBlock, hdesc, ha.2]
    dsimp only
    rw [hok.bigCnt a n ha, hok'.bigCnt a n hbig]

/-! ## `free` and the descriptors -/

theorem removeBlocks_arena {is : List Nat} (hremove : h.removeBlocks a d is = .ok h') :
    h'.arena = h.arena := by
  induction is generalizing h with
  | nil =>
    cases hremove
    rfl
  | cons i is ih =>
    rw [removeBlocks, bind_eq_ok] at hremove
    obtain ⟨b, -, hremove⟩ := hremove
    obtain ⟨u, -, hremove⟩ := bind_eq_ok.mp hremove
    have harena := ih hremove
    exact harena

theorem pallocFree_arena {n : Nat} (hfree : h.pallocFree a n = .ok h') : h'.arena = h.arena := by
  obtain ⟨u, -, hfree⟩ := bind_eq_ok.mp hfree
  cases hfree
  rfl

/-- `free` leaves every arena to its descriptor. -/
theorem free_desc (hfree : h.free p = .ok h') (x : Nat) : (h'.arena x).desc = (h.arena x).desc := by
  unfold free at hfree
  by_cases hp : p = 0
  · rw [if_pos hp] at hfree
    cases hfree
    rfl
  rw [if_neg hp] at hfree
  obtain ⟨a, -, hfree⟩ := bind_eq_ok.mp hfree
  cases hdesc : (h.arena a).desc with
  | none =>
    rw [hdesc] at hfree
    rw [pallocFree_arena hfree]
  | some d =>
    rw [hdesc] at hfree
    dsimp only at hfree
    have hput : ((h.putBack a d p).arena x).desc = (h.arena x).desc := by
      by_cases hx : x = a <;> simp [putBack, Heap.setArena, setFreeList, hx]
    unfold freeBlock at hfree
    dsimp only at hfree
    split at hfree
    · obtain ⟨u, -, hfree⟩ := bind_eq_ok.mp hfree
      obtain ⟨h₁, hremove, hfree⟩ := bind_eq_ok.mp hfree
      rw [pallocFree_arena hfree, removeBlocks_arena hremove, hput]
    · cases hfree
      exact hput

/-- The blocks that are in use before and after `malloc` keep their sizes. -/
theorem NewBlock.bytesOf_eq {size : Nat} (hinv : h.Inv) (hnew : NewBlock h h' size b)
    {q : Nat} (hq : q ∈ h.live) : h'.bytesOf q = h.bytesOf q := by
  obtain ⟨m, hm⟩ := hinv.live_page hq
  refine bytesOf_congr hinv.toOk hnew.inv.toOk hq (hnew.within _ hm).2 fun n hn => ?_
  exact (hnew.within _ hn).1

theorem Freed.bytesOf_eq (hinv : h.Inv) (hfree : h.free p = .ok h') (hfreed : Freed h h' p)
    {q : Nat} (hq : q ∈ h.live) (hq' : q ∈ h'.live) : h'.bytesOf q = h.bytesOf q := by
  refine bytesOf_congr hinv.toOk hfreed.inv.toOk hq (free_desc hfree _) fun n hn => ?_
  exact (hfreed.granted _).mpr ⟨hn, q, hq', rfl⟩

end Heap

namespace Store

variable {s s' : Store} {h h' : Heap} {a b p q size i : Nat} {grant : Option Nat}
  {words : Nat → UInt8}

/-- A block has the size and the bytes that it had. -/
def Keeps (s s' : Store) (q : Nat) : Prop :=
  s'.heap.bytesOf q = s.heap.bytesOf q ∧ ∀ i < s.heap.bytesOf q, s'.bytes (q + i) = s.bytes (q + i)

/-- The bytes of a block in use are in no header and no list element of a free block. -/
theorem not_inHeader (hok : h.Ok) (hrun : ∃ n, (a, n) ∈ h.granted) (hq : q ∈ h.live)
    (hi : i < h.bytesOf q) : ¬ InHeader a (q + i) := by
  obtain ⟨n, hn⟩ := hrun
  have hapart := hok.header_apart hn hq
  unfold InHeader Among
  dsimp only at hapart
  omega

theorem not_inElem {bs : List Nat} (hok : h.Ok) (hq : q ∈ h.live)
    (hbs : ∀ e ∈ bs, (∃ d, e ∈ h.freeList d) ∨
      e ∈ h.live ∧ e ≠ q ∧ sizeofListElem ≤ h.bytesOf e)
    (hi : i < h.bytesOf q) : ¬ InElem bs (q + i) := by
  intro helem
  obtain ⟨e, he, hin⟩ := helem
  unfold Among at hin
  rcases hbs e he with ⟨d, hfree⟩ | ⟨hlive, hne, hroom⟩
  · have hapart := hok.free_apart hfree hq
    have hroom := sizeofListElem_le d
    omega
  · have hapart := hok.live_disjoint hlive hq hne
    omega

/-- `malloc` leaves the blocks in use alone. -/
theorem malloc_store (hinv : s.heap.Inv)
    (hgrant : ∀ a ∈ grant, 0 < Heap.pagesAsked size ∧ s.heap.PageFree a (Heap.pagesAsked size)) :
    ¬ s.heap.Serves size grant ∧ s.malloc size grant words = .ok (none, s) ∨
    s.heap.Serves size grant ∧ ∃ b s', s.malloc size grant words = .ok (some b, s') ∧
      Heap.NewBlock s.heap s'.heap size b ∧ ∀ q ∈ s.heap.live, Keeps s s' q := by
  unfold malloc
  rcases Heap.malloc_newBlock hinv hgrant with ⟨hserves, hnull⟩ | ⟨hserves, b, h', hblock, hnew⟩
  · left
    rw [hnull]
    exact ⟨hserves, rfl⟩
  · right
    rw [hblock]
    refine ⟨hserves, b, _, rfl, hnew, fun q hq => ⟨hnew.bytesOf_eq hinv hq, fun i hi => ?_⟩⟩
    have hok := hnew.inv.toOk
    have hb := hnew.mem_live
    have hq' : q ∈ h'.live := by
      rw [hnew.live]
      exact List.mem_cons_of_mem _ hq
    have hne := hnew.ne hq
    rw [← hnew.bytesOf_eq hinv hq] at hi
    refine overwrite_of_not
      (W := fun x => InHeader (pgRoundDown b) x ∨ InElem (listed h' size b) x) ?_
    rintro (hheader | helem)
    · exact not_inHeader hok (hok.live_page hb) hq' hi hheader
    · refine not_inElem hok hq' ?_ hi helem
      unfold listed
      cases hfind : Heap.findDesc size with
      | none => simp
      | some d =>
        intro e he
        cases List.mem_cons.mp he with
        | inl heq =>
          subst heq
          refine .inr ⟨hb, hne, ?_⟩
          rw [hnew.bytes, Heap.room, hfind]
          exact sizeofListElem_le d
        | inr he => exact .inl ⟨d, he⟩

/-- The bytes that `free` leaves alone. -/
theorem freedBytes_eq (hinv : s.heap.Inv) (hp : p ∈ s.heap.live)
    (hfree : s.heap.free p = .ok h') (hfreed : Heap.Freed s.heap h' p) (hq' : q ∈ h'.live)
    (hi : i < s.heap.bytesOf q) : s.freedBytes h' p words (q + i) = s.bytes (q + i) := by
  have hok := hinv.toOk
  obtain ⟨hne, hq⟩ : q ≠ p ∧ q ∈ s.heap.live := by
    rw [hfreed.live, hok.liveNodup.mem_erase_iff] at hq'
    exact hq'
  have hsize := hfreed.bytesOf_eq hinv hfree hq hq'
  have hi' : i < h'.bytesOf q := by rwa [hsize]
  have hapart := hok.live_disjoint hq hp hne
  unfold freedBytes
  rcases hok.live p hp with ⟨a, d, ha, hin⟩ | ⟨a, m, ha, rfl⟩
  · rw [Heap.pgRoundDown_of_mem hin, ha.2]
    have hpsize : s.heap.bytesOf p = blockSize d := by
      rw [Heap.bytesOf, Heap.pgRoundDown_of_mem hin, ha.2]
    have hown : ¬ Among p (blockSize d) (q + i) := by
      unfold Among
      omega
    have hheader : ¬ InHeader a (q + i) := not_inHeader hok ⟨1, ha.1⟩ hq hi
    have helem : ¬ InElem (p :: h'.freeList d) (q + i) := by
      intro hin
      obtain ⟨e, he, hamong⟩ := hin
      cases List.mem_cons.mp he with
      | inl heq =>
        subst heq
        have hroom := sizeofListElem_le d
        unfold Among at hown hamong
        omega
      | inr he =>
        have hfree' : ∀ e ∈ h'.freeList d, (∃ d, e ∈ h'.freeList d) ∨
            e ∈ h'.live ∧ e ≠ q ∧ sizeofListElem ≤ h'.bytesOf e := fun e he => .inl ⟨d, he⟩
        exact not_inElem hfreed.inv.toOk hq' hfree' hi' ⟨e, he, hamong⟩
    have hbytes : overwrite (memset s.bytes p 0xcc (blockSize d))
        (fun x => InHeader a x ∨ InElem (p :: h'.freeList d) x) words (q + i) = s.bytes (q + i) :=
      (overwrite_of_not (not_or.mpr ⟨hheader, helem⟩)).trans (overwrite_of_not hown)
    dsimp only
    by_cases hheld : (a, 1) ∈ h'.granted
    · rw [if_pos (List.contains_iff_mem.mpr hheld)]
      exact hbytes
    · rw [if_neg (mt List.contains_iff_mem.mp hheld)]
      have hpage : pgRoundDown q ≠ a := fun heq =>
        hheld ((hfreed.granted _).mpr ⟨ha.1, q, hq', heq⟩)
      have hpages := hok.pages_apart ha.1 hq hpage
      refine (overwrite_of_not fun hin => ?_).trans hbytes
      unfold Among pgSize at *
      dsimp only at hpages
      omega
  · rw [Heap.pgRoundDown_bigBlock, ha.2]
    dsimp only
    rw [hok.bigCnt a m ha]
    have hpage : pgRoundDown q ≠ a := fun heq => hne (hok.eq_bigBlock ha hq heq)
    have hpages := hok.pages_apart ha.1 hq hpage
    refine overwrite_of_not fun hin => ?_
    unfold Among pgSize at *
    dsimp only at hpages
    omega

/-- `free` leaves the other blocks in use alone. -/
theorem free_store (hinv : s.heap.Inv) (hp : p ∈ s.heap.live) :
    ∃ s', s.free p words = .ok s' ∧ Heap.Freed s.heap s'.heap p ∧
      ∀ q ∈ s'.heap.live, Keeps s s' q := by
  obtain ⟨h', hfree, hfreed⟩ := Heap.free_spec hinv hp
  have hne : p ≠ 0 := by
    intro heq
    obtain ⟨n, hn⟩ := hinv.live_page hp
    exact (hinv.pages _ hn).1 (by rw [heq]; rfl)
  unfold free
  rw [hfree]
  refine ⟨_, rfl, hfreed, fun q hq' => ?_⟩
  have hq : q ∈ s.heap.live := by
    rw [hfreed.live] at hq'
    exact List.mem_of_mem_erase hq'
  refine ⟨hfreed.bytesOf_eq hinv hfree hq hq', fun i hi => ?_⟩
  rw [if_neg hne]
  exact freedBytes_eq hinv hp hfree hfreed hq' hi

end Store

end CSE130.Malloc
