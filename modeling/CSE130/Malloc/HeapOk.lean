import CSE130.Malloc.Invariant

/-!
# Calls of `malloc` and `free`

Each call keeps the invariant and fails no assertion.
-/

namespace CSE130.Malloc

open CSE130.Library

namespace Heap

variable {h h' : Heap} {a : Nat} {b b' p : Nat} {d : DescId} {n size : Nat} {g : Nat × Nat}
  {grant : Option Nat}

theorem pageCnt_bounds (hsize : size ≤ 2 ^ 20) :
    0 < pageCnt size ∧ size + sizeofArena ≤ pgSize * pageCnt size := by
  unfold pageCnt sizeofArena pgSize
  omega

/-- The descriptor that `malloc` picks is big enough. -/
theorem le_blockSize (hfind : findDesc size = some d) : size ≤ blockSize d := by
  have hfound := List.find?_some hfind
  simpa using hfound

theorem Busy.mono (hbusy : h.Busy a) (hlive : ∀ b ∈ h.live, b ∈ h'.live) : h'.Busy a := by
  obtain ⟨b, hb, hpage⟩ := hbusy
  exact ⟨b, hlive b hb, hpage⟩

/-! ## `malloc` -/

/-- `palloc` has got nothing back, and the arenas belong to the descriptors they belonged to. -/
def Within (h h' : Heap) : Prop :=
  ∀ g ∈ h.granted, g ∈ h'.granted ∧ (h'.arena g.1).desc = (h.arena g.1).desc

theorem Within.refl (h : Heap) : h.Within h := fun _ hg => ⟨hg, rfl⟩

/-- New pages. -/
theorem Within.setArena {header : Arena} (hpage : ∀ g ∈ h.granted, g.1 ≠ a) :
    h.Within ((h.pallocGet a n).setArena a header) := by
  intro g hg
  refine ⟨List.mem_cons_of_mem _ hg, ?_⟩
  simp only [Heap.setArena, pallocGet, Function.update_of_ne (hpage g hg)]

/-- `refill` leaves the free list with a block in it, or there is no page. -/
theorem refill_spec (hinv : h.Inv) (hgrant : ∀ a ∈ grant, h.PageFree a 1) :
    (grant = none ∧ h.freeList d = []) ∧ h.refill d grant = .ok none ∨
    (grant ≠ none ∨ h.freeList d ≠ []) ∧
      ∃ h' b rest, h.refill d grant = .ok (some h') ∧ h'.Ok ∧ h'.live = h.live ∧ h.Within h' ∧
      h'.freeList d = b :: rest ∧
      ∀ g ∈ h'.granted, h'.Busy g.1 ∨ pgRoundDown b = g.1 := by
  unfold refill
  by_cases hempty : h.freeList d = []
  · rw [if_pos hempty]
    cases grant with
    | none => exact .inl ⟨⟨rfl, hempty⟩, rfl⟩
    | some a =>
      refine .inr ⟨.inl (by simp), ?_⟩
      have hfree := hgrant a rfl
      obtain ⟨-, hpos, -⟩ := desc_bounds d
      have hok := @Ok.newArena h a d hinv.toOk hfree
      have hblocks : ∃ rest, blocks a d = blockAt a d 0 :: rest := by
        obtain ⟨n, hn⟩ := Nat.exists_eq_add_of_lt hpos
        refine ⟨(List.map Nat.succ (List.range n)).map (blockAt a d), ?_⟩
        rw [blocks, hn, Nat.zero_add, List.range_succ_eq_map]
        rfl
      obtain ⟨rest, hrest⟩ := hblocks
      dsimp only
      rw [pushBlocks_eq hfree.1 (by simp [setArena]) (by simp [setArena]) (by simp), ok_bind]
      refine ⟨_, blockAt a d 0, rest, rfl, hok, rfl, ?_, ?_, ?_⟩
      · exact Within.setArena fun g hg => hfree.ne hinv.toOk (by decide) hg
      · change Function.update h.freeList d (h.freeList d ++ blocks a d) d = _
        rw [Function.update_self, hempty, hrest]
        rfl
      · intro g hg
        cases List.mem_cons.mp hg with
        | inl heq =>
          right
          rw [heq]
          exact pgRoundDown_blockAt hpos
        | inr hg => exact .inl (hinv.busy g hg)
  · rw [if_neg hempty]
    obtain ⟨b, rest, hlist⟩ := List.exists_cons_of_ne_nil hempty
    refine .inr ⟨.inr hempty, h, b, rest, rfl, hinv.toOk, rfl, .refl h, hlist, ?_⟩
    exact fun g hg => .inl (hinv.busy g hg)

/-- There is memory for a block: pages, or a block on the free list. -/
def Serves (h : Heap) (size : Nat) (grant : Option Nat) : Prop :=
  size ≠ 0 ∧ (grant ≠ none ∨ ∃ d, findDesc size = some d ∧ h.freeList d ≠ [])

/-- The number of bytes of a block that `malloc` returns. -/
def room (size : Nat) : Nat :=
  match findDesc size with
  | some d => blockSize d
  | none => pgSize * pageCnt size - sizeofArena

/-- The block that a call of `malloc` returns. -/
structure NewBlock (h h' : Heap) (size b : Nat) : Prop where
  inv : h'.Inv
  live : h'.live = b :: h.live
  bytes : h'.bytesOf b = room size
  within : h.Within h'

theorem NewBlock.mem_live (hnew : NewBlock h h' size b) : b ∈ h'.live := by
  rw [hnew.live]
  exact List.mem_cons_self

/-- The new block is none of those that were in use. -/
theorem NewBlock.ne (hnew : NewBlock h h' size b) (hb' : b' ∈ h.live) : b ≠ b' := by
  have hnodup := hnew.inv.liveNodup
  rw [hnew.live, List.nodup_cons] at hnodup
  exact fun heq => hnodup.1 (heq ▸ hb')

/-- For every size, `malloc` keeps the invariant, and returns `NULL` and changes nothing, or returns a
new block, which it does if there is memory for it. -/
theorem malloc_newBlock (hinv : h.Inv)
    (hgrant : ∀ a ∈ grant, 0 < pagesAsked size ∧ h.PageFree a (pagesAsked size)) :
    ¬ h.Serves size grant ∧ h.malloc size grant = .ok (none, h) ∨
    h.Serves size grant ∧ ∃ b h', h.malloc size grant = .ok (some b, h') ∧ NewBlock h h' size b := by
  unfold malloc Serves
  by_cases hzero : size = 0
  · exact .inl ⟨fun hserves => hserves.1 hzero, if_pos hzero⟩
  rw [if_neg hzero]
  unfold pagesAsked at hgrant
  cases hfind : findDesc size with
  | none =>
    rw [if_pos hfind] at hgrant
    cases grant with
    | none => exact .inl ⟨by simp, rfl⟩
    | some a =>
      right
      obtain ⟨hpos, hfree⟩ := hgrant a rfl
      refine ⟨⟨hzero, .inl (by simp)⟩, bigBlock a, _, rfl, ⟨hinv.toOk.newBig hfree hpos, ?_⟩, rfl, ?_, ?_⟩
      · intro g hg
        cases List.mem_cons.mp hg with
        | inl heq => exact ⟨bigBlock a, List.mem_cons_self, heq ▸ pgRoundDown_bigBlock a⟩
        | inr hg => exact (hinv.busy g hg).mono fun b hb => List.mem_cons_of_mem _ hb
      · simp only [bytesOf, room, hfind, pgRoundDown_bigBlock, pgOfs_bigBlock, setArena,
          Function.update_self]
      · exact Within.setArena fun g hg => hfree.ne hinv.toOk hpos hg
  | some d =>
    rw [if_neg (by simp [hfind])] at hgrant
    dsimp only
    rcases refill_spec hinv fun a ha => (hgrant a ha).2 with
      ⟨⟨hgrant, hempty⟩, hnone⟩ |
      ⟨hmemory, h₁, b, rest, hsome, hok, hlive, hwithin, hlist, hbusy⟩
    · left
      refine ⟨fun hserves => ?_, by rw [hnone]; rfl⟩
      obtain ⟨-, hpage | ⟨e, he, hlist⟩⟩ := hserves
      · exact hpage hgrant
      · cases he
        exact hlist hempty
    · right
      obtain ⟨h', htake, hok', hgranted, hlive', hdesc, a, ha, hb⟩ := takeBlock_spec hok hlist
      rw [hsome, ok_bind]
      dsimp only
      rw [htake]
      have hserves : grant ≠ none ∨ ∃ e, some d = some e ∧ h.freeList e ≠ [] :=
        hmemory.imp_right fun hlist => ⟨d, rfl, hlist⟩
      refine ⟨⟨hzero, hserves⟩, b, h', rfl, ⟨hok', ?_⟩, by rw [hlive', hlive], ?_, ?_⟩
      · intro g hg
        rw [hgranted] at hg
        cases hbusy g hg with
        | inl hbusy =>
          refine hbusy.mono fun x hx => ?_
          rw [hlive']
          exact List.mem_cons_of_mem _ hx
        | inr hpage =>
          refine ⟨b, ?_, hpage⟩
          rw [hlive']
          exact List.mem_cons_self
      · rw [bytesOf, pgRoundDown_of_mem hb, hdesc, ha.2, room, hfind]
      · intro g hg
        obtain ⟨hg', hsame⟩ := hwithin g hg
        rw [hgranted, hdesc]
        exact ⟨hg', hsame⟩

/-- `malloc` keeps the invariant, and returns `NULL` and changes nothing, or returns a new block of at
least `size` bytes. -/
theorem malloc_spec (hinv : h.Inv) (hsize : size ≤ 2 ^ 20)
    (hgrant : ∀ a ∈ grant, h.PageFree a (pagesAsked size)) :
    h.malloc size grant = .ok (none, h) ∨
    ∃ b h', h.malloc size grant = .ok (some b, h') ∧ h'.Inv ∧ h'.live = b :: h.live ∧
      size ≤ h'.bytesOf b := by
  obtain ⟨hpos, hbytes⟩ := pageCnt_bounds hsize
  have hasked : 0 < pagesAsked size := by
    unfold pagesAsked
    split
    · exact hpos
    · exact Nat.one_pos
  have hroom : size ≤ room size := by
    unfold room
    split
    · exact le_blockSize ‹_›
    · exact Nat.le_sub_of_add_le hbytes
  rcases malloc_newBlock hinv fun a ha => ⟨hasked, hgrant a ha⟩ with
    ⟨-, hnull⟩ | ⟨-, b, h', hblock, hnew⟩
  · exact .inl hnull
  · exact .inr ⟨b, h', hblock, hnew.inv, hnew.live, by rw [hnew.bytes]; exact hroom⟩

/-! ## `free` -/

/-- An arena without blocks in use is taken off the free list and goes back to `palloc`. -/
theorem returnArena_spec (hok : h.Ok) (ha : h.IsArena a d) (hall : ∀ b ∈ blocks a d, b ∉ h.live) :
    ∃ h', (h.removeBlocks a d (List.range (blocksPerArena d)) >>= fun h => h.pallocFree a 1) = .ok h' ∧
      h'.Ok ∧ h'.live = h.live ∧ h'.granted = h.granted.erase (a, 1) := by
  have hpage := (hok.pages _ ha.1).1
  have hmem : ∀ i ∈ List.range (blocksPerArena d), blockAt a d i ∈ h.freeList d := by
    intro i hi
    have hb : blockAt a d i ∈ blocks a d := mem_blocks.mpr ⟨i, List.mem_range.mp hi, rfl⟩
    exact (hok.mem_free d _).mpr ⟨hall _ hb, a, ha, hb⟩
  rw [removeBlocks_eq hpage (hok.magic _ ha.1) ha.2 (fun i hi => List.mem_range.mp hi)
    List.nodup_range (hok.freeNodup d) hmem, ok_bind]
  refine ⟨_, check_bind ha.1, ?_, rfl, rfl⟩
  have hnoBlock : ∀ b ∈ h.live, pgRoundDown b ≠ a := by
    intro b hb heq
    rcases hok.live b hb with ⟨x, e, hx, hin⟩ | ⟨x, n, hx, rfl⟩
    · obtain rfl : x = a := (pgRoundDown_of_mem hin).symm.trans heq
      obtain rfl := hx.unique ha
      exact hall b hin hb
    · obtain rfl : x = a := (pgRoundDown_bigBlock x).symm.trans heq
      cases ha.2.symm.trans hx.2
  refine hok.drop ha.1 rfl rfl hok.liveNodup ?_ ?_ ?_
  · intro b
    exact ⟨fun hb => ⟨hb, hnoBlock b hb⟩, fun hb => hb.1⟩
  · intro e
    by_cases he : e = d
    · subst he
      simpa [setFreeList] using (hok.freeNodup e).filter _
    · simpa [setFreeList, he] using hok.freeNodup e
  · intro e b
    have hpageOf : b ∈ h.freeList e → (b ∈ blocks a d ↔ pgRoundDown b = a) := by
      intro hb
      obtain ⟨-, x, hx, hin⟩ := (hok.mem_free e b).mp hb
      rw [pgRoundDown_of_mem hin]
      constructor
      · intro hin'
        exact (pgRoundDown_of_mem hin).symm.trans (pgRoundDown_of_mem hin')
      · intro heq
        subst heq
        obtain rfl := hx.unique ha
        exact hin
    have hmap : (List.range (blocksPerArena d)).map (blockAt a d) = blocks a d := rfl
    by_cases he : e = d
    · subst he
      change b ∈ Function.update h.freeList e _ e ↔ _
      rw [Function.update_self, List.mem_filter, hmap]
      refine and_congr_right fun hb => ?_
      rw [decide_eq_true_eq, hpageOf hb]
    · change b ∈ Function.update h.freeList d _ e ↔ _
      rw [Function.update_of_ne he]
      refine (and_iff_left_of_imp fun hb => ?_).symm
      obtain ⟨-, x, hx, hin⟩ := (hok.mem_free e b).mp hb
      intro heq
      obtain rfl : x = a := (pgRoundDown_of_mem hin).symm.trans heq
      exact he (hx.unique ha)

theorem live_putBack : (h.putBack a d p).live = h.live.erase p := rfl

section Free

variable (hinv : h.Inv) (hp : p ∈ h.live)

include hinv hp

theorem mem_live_erase (b : Nat) : b ∈ h.live.erase p ↔ b ≠ p ∧ b ∈ h.live := by
  have _ := hp
  exact hinv.liveNodup.mem_erase_iff

theorem busy_erase_of_ne (hx : a ≠ pgRoundDown p) (hbusy : h.Busy a) :
    ∃ b ∈ h.live.erase p, pgRoundDown b = a := by
  obtain ⟨b, hb, hpage⟩ := hbusy
  refine ⟨b, (mem_live_erase hinv hp b).mpr ⟨fun heq => hx ?_, hb⟩, hpage⟩
  rw [← hpage, heq]

/-- A block that has been put back on the free list is not in use. -/
theorem putBack_ok (ha : h.IsArena a d) (hb : p ∈ blocks a d) : (h.putBack a d p).Ok := by
  have hok := hinv.toOk
  have herase := mem_live_erase hinv hp
  have hnotErase : p ∉ h.live.erase p := fun hmem => ((herase p).mp hmem).1 rfl
  have hcnt : (h.arena a).freeCnt + 1 = (blocks a d).countP fun b => b ∉ h.live.erase p := by
    rw [countP_blocks_cons hb hnotErase, hok.freeCnt a d ha]
    congr 1
    refine (countP_blocks_congr fun x _ => ?_).symm
    rw [List.mem_cons, herase]
    by_cases hx : x = p
    · simp [hx, hp]
    · simp [hx]
  refine hok.move ha rfl rfl rfl rfl (hok.liveNodup.erase p) ?_ hcnt ?_ ?_
  · intro x hx
    rw [live_putBack, herase]
    exact and_iff_right fun heq => hx (heq ▸ hb)
  · refine List.nodup_cons.mpr ⟨fun hmem => ?_, hok.freeNodup d⟩
    exact ((hok.mem_free d p).mp hmem).1 hp
  · intro x
    rw [List.mem_cons, hok.mem_free, live_putBack, herase]
    by_cases hx : x = p
    · subst hx
      simp only [true_or, ne_eq, not_true_eq_false, false_and, not_false_eq_true, true_and,
        true_iff]
      exact ⟨a, ha, hb⟩
    · simp [hx]

end Free

/-- What `free` does: the block goes out of use, and exactly the pages with blocks in use stay. -/
structure Freed (h h' : Heap) (p : Nat) : Prop where
  inv : h'.Inv
  live : h'.live = h.live.erase p
  granted : ∀ g, g ∈ h'.granted ↔ g ∈ h.granted ∧ h'.Busy g.1

theorem freeBlock_spec (hinv : h.Inv) (hp : p ∈ h.live) (ha : h.IsArena a d) (hb : p ∈ blocks a d) :
    ∃ h', h.freeBlock a d p = .ok h' ∧ Freed h h' p := by
  have hok := putBack_ok hinv hp ha hb
  have hisArena : (h.putBack a d p).IsArena a d :=
    ⟨ha.1, by simpa [putBack, setArena] using ha.2⟩
  have hfreeCnt := hok.freeCnt a d hisArena
  have hle : ((h.putBack a d p).arena a).freeCnt ≤ blocksPerArena d := by
    rw [hfreeCnt, ← length_blocks a d]
    exact List.countP_le_length
  have hothers : ∀ g ∈ h.granted, g.1 ≠ a → ∃ b ∈ h.live.erase p, pgRoundDown b = g.1 := by
    intro g hg hga
    exact busy_erase_of_ne hinv hp (by rwa [pgRoundDown_of_mem hb]) (hinv.busy g hg)
  unfold freeBlock
  dsimp only
  by_cases hfull : blocksPerArena d ≤ ((h.putBack a d p).arena a).freeCnt
  · -- no block of the arena is in use any more
    have hall : ∀ b ∈ blocks a d, b ∉ (h.putBack a d p).live := by
      have hlength := hfreeCnt.symm.trans
        ((Nat.le_antisymm hle hfull).trans (length_blocks a d).symm)
      intro b hb
      exact of_decide_eq_true (List.countP_eq_length.mp hlength b hb)
    obtain ⟨h', hret, hok', hlive', hgranted'⟩ := returnArena_spec hok hisArena hall
    have hmem : ∀ g, g ∈ h'.granted ↔ g ∈ h.granted ∧ g.1 ≠ a := by
      intro g
      rw [hgranted']
      exact hinv.mem_granted_erase ha.1
    have hbusy : ∀ g ∈ h.granted, g.1 ≠ a → h'.Busy g.1 := by
      intro g hg hga
      obtain ⟨x, hx, hpage⟩ := hothers g hg hga
      exact ⟨x, hlive' ▸ hx, hpage⟩
    refine ⟨h', ?_, ⟨hok', fun g hg => ?_⟩, hlive', fun g => ?_⟩
    · rw [if_pos hfull, check_bind (Nat.le_antisymm hle hfull)]
      exact hret
    · obtain ⟨hg', hga⟩ := (hmem g).mp hg
      exact hbusy g hg' hga
    · rw [hmem]
      refine and_congr_right fun hg => ⟨hbusy g hg, fun hbusy' hga => ?_⟩
      obtain ⟨x, hx, hpagex⟩ := hbusy'
      obtain ⟨m, hm⟩ := hok'.live_page hx
      rw [hpagex, hga] at hm
      exact ((hmem _).mp hm).2 rfl
  · have hsome : ∃ b ∈ blocks a d, b ∈ (h.putBack a d p).live := by
      by_contra hno
      refine hfull ?_
      rw [hfreeCnt, ← length_blocks a d]
      refine (List.countP_eq_length.mpr fun x hx => ?_).ge
      exact decide_eq_true fun hin => hno ⟨x, hx, hin⟩
    have hbusy : ∀ g ∈ h.granted, (h.putBack a d p).Busy g.1 := by
      intro g hg
      by_cases hga : g.1 = a
      · obtain ⟨x, hx, hin⟩ := hsome
        exact ⟨x, hin, (pgRoundDown_of_mem hx).trans hga.symm⟩
      · exact hothers g hg hga
    refine ⟨_, if_neg hfull, ⟨hok, hbusy⟩, rfl, fun g => ?_⟩
    exact (and_iff_left_of_imp (hbusy g)).symm

/-- There is only one block in pages that belong to no descriptor. -/
theorem Ok.eq_bigBlock (hok : h.Ok) (ha : h.IsBig a n) (hb : b ∈ h.live)
    (hpage : pgRoundDown b = a) : b = bigBlock a := by
  rcases hok.live b hb with ⟨x, e, hx, hin⟩ | ⟨x, m, hx, hbig⟩
  · obtain rfl : x = a := (pgRoundDown_of_mem hin).symm.trans hpage
    cases ha.2.symm.trans hx.2
  · rw [hbig, pgRoundDown_bigBlock] at hpage
    rw [hbig, hpage]

theorem freeBig_spec (hinv : h.Inv) (ha : h.IsBig a n) (hp : bigBlock a ∈ h.live) :
    ∃ h', pallocFree { h with live := h.live.erase (bigBlock a) } a n = .ok h' ∧
      Freed h h' (bigBlock a) := by
  have hok := hinv.toOk
  have hlive : ∀ b, b ∈ h.live.erase (bigBlock a) ↔ b ∈ h.live ∧ pgRoundDown b ≠ a := by
    intro b
    rw [mem_live_erase hinv hp]
    constructor
    · intro hb
      exact ⟨hb.2, fun heq => hb.1 (hok.eq_bigBlock ha hb.2 heq)⟩
    · intro hb
      exact ⟨fun heq => hb.2 (heq ▸ pgRoundDown_bigBlock a), hb.1⟩
  have hothers : ∀ g ∈ h.granted, g.1 ≠ a →
      ∃ b ∈ h.live.erase (bigBlock a), pgRoundDown b = g.1 := by
    intro g hg hga
    exact busy_erase_of_ne hinv hp (by rwa [pgRoundDown_bigBlock]) (hinv.busy g hg)
  have hmem : ∀ g, g ∈ h.granted.erase (a, n) ↔ g ∈ h.granted ∧ g.1 ≠ a := fun g =>
    hok.mem_granted_erase ha.1
  refine ⟨_, check_bind ha.1, ⟨?_, ?_⟩, rfl, ?_⟩
  · refine hok.drop ha.1 rfl rfl (hok.liveNodup.erase _) hlive hok.freeNodup fun e b => ?_
    refine (and_iff_left_of_imp fun hb => ?_).symm
    obtain ⟨-, x, hx, hin⟩ := (hok.mem_free e b).mp hb
    intro heq
    obtain rfl : x = a := (pgRoundDown_of_mem hin).symm.trans heq
    cases ha.2.symm.trans hx.2
  · intro g hg
    obtain ⟨hg', hga⟩ := (hmem g).mp hg
    exact hothers g hg' hga
  · intro g
    refine (hmem g).trans (and_congr_right fun hg => ⟨hothers g hg, fun hbusy hga => ?_⟩)
    obtain ⟨x, hx, hpagex⟩ := hbusy
    exact ((hlive x).mp hx).2 (hpagex.trans hga)

/-- `free` of a block in use keeps the invariant. The pages of the block go back to `palloc` if it was
the last block of its arena in use, and only then. -/
theorem free_spec (hinv : h.Inv) (hp : p ∈ h.live) : ∃ h', h.free p = .ok h' ∧ Freed h h' p := by
  have hok := hinv.toOk
  have hne : p ≠ 0 := by
    intro heq
    obtain ⟨n, hn⟩ := hok.live_page hp
    exact (hok.pages _ hn).1 (by rw [heq]; rfl)
  unfold free
  rw [if_neg hne]
  rcases hok.live p hp with ⟨a, d, ha, hb⟩ | ⟨a, n, ha, rfl⟩
  · rw [blockToArena_of_mem (hok.pages _ ha.1).1 (hok.magic _ ha.1) ha.2 hb, ok_bind]
    dsimp only
    rw [ha.2]
    exact freeBlock_spec hinv hp ha hb
  · rw [blockToArena_bigBlock (hok.pages _ ha.1).1 (hok.magic _ ha.1) ha.2, ok_bind]
    dsimp only
    rw [ha.2]
    dsimp only
    rw [hok.bigCnt a n ha]
    exact freeBig_spec hinv ha hp

/-! ## Runs -/

theorem Inv.step {e : Event} (hinv : h.Inv) (he : h.Admits e) : ∃ h', h.step e = .ok h' ∧ h'.Inv := by
  cases e with
  | malloc size grant =>
    rcases malloc_spec hinv he.1 he.2 with hnull | ⟨b, h', hblock, hinv', -⟩
    · exact ⟨h, by rw [Heap.step, hnull]; rfl, hinv⟩
    · exact ⟨h', by rw [Heap.step, hblock]; rfl, hinv'⟩
  | free p =>
    cases he with
    | inl hnull => exact ⟨h, by rw [hnull]; rfl, hinv⟩
    | inr hp =>
      obtain ⟨h', hfree, hfreed⟩ := free_spec hinv hp
      exact ⟨h', hfree, hfreed.inv⟩

theorem start_inv (memory : Nat → Arena) : (start memory).Inv := by
  refine ⟨⟨List.Pairwise.nil, ?_, ?_, ?_, ?_, ?_, ?_, List.nodup_nil, fun _ => List.nodup_nil, ?_⟩, ?_⟩
  all_goals simp [start, IsArena, IsBig]

theorem reachable_inv {memory : Nat → Arena} (hr : Reachable step Admits (start memory) h) :
    h.Inv := by
  refine Reachable.invariant (start_inv memory) ?_ h hr
  intro s e s' _ hinv he hs
  obtain ⟨t, ht, hinv'⟩ := hinv.step he
  cases hs.symm.trans ht
  exact hinv'

/-- The bytes of a block in use lie within its run of pages. -/
theorem Ok.extent (hok : h.Ok) (hb : b ∈ h.live) :
    ∃ n, (pgRoundDown b, n) ∈ h.granted ∧ pgRoundDown b * pgSize ≤ b ∧
      b + h.bytesOf b ≤ (pgRoundDown b + n) * pgSize := by
  rcases hok.live b hb with ⟨a, d, ha, hin⟩ | ⟨a, n, ha, rfl⟩
  · rw [bytesOf, pgRoundDown_of_mem hin, ha.2]
    obtain ⟨i, hi, rfl⟩ := mem_blocks.mp hin
    obtain ⟨hlow, hhigh⟩ := @blockAt_within a d i hi
    exact ⟨1, ha.1, Nat.le_of_add_right_le hlow, hhigh⟩
  · rw [bytesOf, pgRoundDown_bigBlock, ha.2]
    dsimp only
    rw [hok.bigCnt a n ha, pgOfs_bigBlock]
    have hn := (hok.pages _ ha.1).2
    refine ⟨n, ha.1, ?_, ?_⟩
    all_goals
      unfold bigBlock pgSize sizeofArena at *
      omega

/-- Blocks in use have no byte in common. -/
theorem Ok.live_disjoint (hok : h.Ok) (hb : b ∈ h.live) (hb' : b' ∈ h.live) (hne : b ≠ b') :
    b + h.bytesOf b ≤ b' ∨ b' + h.bytesOf b' ≤ b := by
  by_cases hpage : pgRoundDown b = pgRoundDown b'
  · rcases hok.live b hb with ⟨a, d, ha, hin⟩ | ⟨a, n, ha, rfl⟩ <;>
      rcases hok.live b' hb' with ⟨a', d', ha', hin'⟩ | ⟨a', n', ha', rfl⟩
    · rw [bytesOf, bytesOf, pgRoundDown_of_mem hin, pgRoundDown_of_mem hin', ha.2, ha'.2]
      rw [pgRoundDown_of_mem hin, pgRoundDown_of_mem hin'] at hpage
      subst hpage
      obtain rfl := ha.unique ha'
      exact blocks_apart hin hin' hne
    · rw [pgRoundDown_of_mem hin, pgRoundDown_bigBlock] at hpage
      subst hpage
      cases ha.2.symm.trans ha'.2
    · rw [pgRoundDown_of_mem hin', pgRoundDown_bigBlock] at hpage
      subst hpage
      cases ha.2.symm.trans ha'.2
    · rw [pgRoundDown_bigBlock, pgRoundDown_bigBlock] at hpage
      exact absurd (congrArg bigBlock hpage) hne
  · obtain ⟨n, hg, hlow, hhigh⟩ := hok.extent hb
    obtain ⟨n', hg', hlow', hhigh'⟩ := hok.extent hb'
    have hapart : Apart (pgRoundDown b, n) (pgRoundDown b', n') :=
      hok.disjoint.forall hg hg' fun heq => hpage (congrArg Prod.fst heq)
    unfold Apart at hapart
    unfold pgSize at *
    omega

/-- In every state between calls the blocks in use are disjoint, the free list of each descriptor has
each block of its arenas that is not in use exactly once and nothing else, `free_cnt` is the number
of an arena's blocks on the list, and the pages held are those with a block in use. A call of
`malloc` returns `NULL` or a new block that is big enough, one of `free` gives back exactly the
pages that have no block in use any more, and neither fails an assertion. -/
theorem heap_ok {memory : Nat → Arena} (hr : Reachable step Admits (start memory) h) :
    (h.live.Nodup ∧ ∀ b ∈ h.live, ∀ b' ∈ h.live, b ≠ b' →
      b + h.bytesOf b ≤ b' ∨ b' + h.bytesOf b' ≤ b) ∧
    (∀ d, (h.freeList d).Nodup ∧
      ∀ b, b ∈ h.freeList d ↔ b ∉ h.live ∧ ∃ a, h.IsArena a d ∧ b ∈ blocks a d) ∧
    (∀ a d, h.IsArena a d →
      (h.arena a).freeCnt = (blocks a d).countP fun b => b ∈ h.freeList d) ∧
    (∀ a, (∃ n, (a, n) ∈ h.granted) ↔ ∃ b ∈ h.live, pgRoundDown b = a) ∧
    (∀ size grant, h.Admits (.malloc size grant) → ∃ r h', h.malloc size grant = .ok (r, h') ∧
      (r = none ∧ h' = h ∨ ∃ b, r = some b ∧ b ∉ h.live ∧ h'.live = b :: h.live ∧
        size ≤ h'.bytesOf b)) ∧
    ∀ p ∈ h.live, ∃ h', h.free p = .ok h' ∧ h'.live = h.live.erase p ∧
      ∀ g, g ∈ h'.granted ↔ g ∈ h.granted ∧ ∃ b ∈ h'.live, pgRoundDown b = g.1 := by
  have hinv := reachable_inv hr
  have hok := hinv.toOk
  refine ⟨⟨hok.liveNodup, fun b hb b' hb' => hok.live_disjoint hb hb'⟩,
    fun d => ⟨hok.freeNodup d, hok.mem_free d⟩, ?_, ?_, ?_, ?_⟩
  · intro a d ha
    rw [hok.freeCnt a d ha]
    refine List.countP_congr fun b hb => ?_
    simp only [decide_eq_true_eq, hok.mem_free]
    exact ⟨fun hnot => ⟨hnot, a, ha, hb⟩, fun hfree => hfree.1⟩
  · intro a
    constructor
    · intro hheld
      obtain ⟨n, hn⟩ := hheld
      exact hinv.busy _ hn
    · intro hbusy
      obtain ⟨b, hb, rfl⟩ := hbusy
      exact hok.live_page hb
  · intro size grant he
    rcases malloc_spec hinv he.1 he.2 with hnull | ⟨b, h', hblock, hinv', hlive, hsize⟩
    · exact ⟨none, h, hnull, .inl ⟨rfl, rfl⟩⟩
    · have hnodup := hinv'.liveNodup
      rw [hlive] at hnodup
      exact ⟨some b, h', hblock, .inr ⟨b, rfl, (List.nodup_cons.mp hnodup).1, hlive, hsize⟩⟩
  · intro p hp
    obtain ⟨h', hfree, hfreed⟩ := free_spec hinv hp
    exact ⟨h', hfree, hfreed.live, hfreed.granted⟩

/-- Two blocks of one arena and a block of two pages; the first block is freed. -/
def threeBlocks : List Event :=
  [.malloc 100 (some 5), .malloc 100 none, .malloc 5000 (some 6), .free 20492]

theorem heap_ok_threeBlocks : ∃ h,
    run step (fun h e => decide (h.Admits e)) (start fun _ => ⟨0, none, 0⟩) threeBlocks = some h ∧
    h.live = [24588, 20620] ∧
    (24588 + h.bytesOf 24588 ≤ 20620 ∨ 20620 + h.bytesOf 20620 ≤ 24588) := by
  have hrun : (run step (fun h e => decide (h.Admits e)) (start fun _ => ⟨0, none, 0⟩)
      threeBlocks).map (fun h => h.live) = some [24588, 20620] := by
    decide +kernel
  obtain ⟨h, hh, hlive⟩ := Option.map_eq_some_iff.mp hrun
  have hr : Reachable step Admits (start fun _ => ⟨0, none, 0⟩) h :=
    reachable_of_run (fun _ _ he => of_decide_eq_true he) .start hh
  obtain ⟨⟨-, hdisjoint⟩, -⟩ := heap_ok hr
  exact ⟨h, hh, hlive, hdisjoint _ (by simp [hlive]) _ (by simp [hlive]) (by decide)⟩

end Heap

end CSE130.Malloc
