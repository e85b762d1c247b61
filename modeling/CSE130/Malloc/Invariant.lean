import CSE130.Malloc.Basic
import Mathlib.Data.List.Nodup
import Mathlib.Data.List.Pairwise

/-!
# The invariant of the heap

The arenas are the pages that `palloc` has handed out and not got back. A block of an arena is in use
or on the free list of the arena's descriptor, and an arena has at least one block in use.
-/

namespace CSE130.Malloc

open CSE130.Library

/-! ## Blocks of an arena -/

theorem desc_bounds (d : DescId) : 0 < blockSize d ∧ 0 < blocksPerArena d ∧
    sizeofArena + blocksPerArena d * blockSize d ≤ pgSize := by
  revert d
  decide

namespace Heap

variable {h h' : Heap} {a a' : Nat} {b b' p : Nat} {d d' : DescId} {i n size : Nat} {g : Nat × Nat}

/-- The blocks of an arena. -/
def blocks (a : Nat) (d : DescId) : List Nat := (List.range (blocksPerArena d)).map (blockAt a d)

/-- A block lies within the page of its arena, behind the header. -/
theorem blockAt_within (hi : i < blocksPerArena d) :
    a * pgSize + sizeofArena ≤ blockAt a d i ∧ blockAt a d i + blockSize d ≤ (a + 1) * pgSize := by
  obtain ⟨-, -, hfits⟩ := desc_bounds d
  have hle : (i + 1) * blockSize d ≤ blocksPerArena d * blockSize d := Nat.mul_le_mul_right _ hi
  rw [Nat.add_mul, Nat.one_mul] at hle
  unfold blockAt pgSize sizeofArena at *
  omega

theorem pgRoundDown_blockAt (hi : i < blocksPerArena d) : pgRoundDown (blockAt a d i) = a := by
  obtain ⟨hpos, -, -⟩ := desc_bounds d
  have hwithin := @blockAt_within a d i hi
  unfold pgRoundDown pgSize at *
  omega

theorem pgOfs_blockAt (hi : i < blocksPerArena d) :
    pgOfs (blockAt a d i) = sizeofArena + i * blockSize d := by
  obtain ⟨hpos, -, -⟩ := desc_bounds d
  have hwithin := @blockAt_within a d i hi
  unfold pgOfs blockAt pgSize sizeofArena at *
  omega

theorem blockAt_injective (a : Nat) (d : DescId) : Function.Injective (blockAt a d) := by
  intro i j hij
  obtain ⟨hpos, -, -⟩ := desc_bounds d
  exact Nat.eq_of_mul_eq_mul_right hpos (Nat.add_left_cancel hij)

theorem mem_blocks : b ∈ blocks a d ↔ ∃ i < blocksPerArena d, blockAt a d i = b := by
  simp [blocks]

theorem nodup_blocks (a : Nat) (d : DescId) : (blocks a d).Nodup :=
  (List.nodup_range).map (blockAt_injective a d)

theorem length_blocks (a : Nat) (d : DescId) : (blocks a d).length = blocksPerArena d := by
  simp [blocks]

theorem pgRoundDown_of_mem (hb : b ∈ blocks a d) : pgRoundDown b = a := by
  obtain ⟨i, hi, rfl⟩ := mem_blocks.mp hb
  exact pgRoundDown_blockAt hi

/-- Two blocks of one size are the same or apart. -/
theorem blocks_apart (hb : b ∈ blocks a d) (hb' : b' ∈ blocks a d) (hne : b ≠ b') :
    b + blockSize d ≤ b' ∨ b' + blockSize d ≤ b := by
  obtain ⟨i, -, rfl⟩ := mem_blocks.mp hb
  obtain ⟨j, -, rfl⟩ := mem_blocks.mp hb'
  have hij : i ≠ j := fun heq => hne (by rw [heq])
  unfold blockAt sizeofArena pgSize
  rcases Nat.lt_or_gt_of_ne hij with hlt | hlt
  · left
    have hle : (i + 1) * blockSize d ≤ j * blockSize d := Nat.mul_le_mul_right _ hlt
    rw [Nat.add_mul, Nat.one_mul] at hle
    omega
  · right
    have hle : (j + 1) * blockSize d ≤ i * blockSize d := Nat.mul_le_mul_right _ hlt
    rw [Nat.add_mul, Nat.one_mul] at hle
    omega

/-! ## The invariant -/

/-- The block of a run of pages that belongs to no descriptor. -/
def bigBlock (a : Nat) : Nat := a * pgSize + sizeofArena

theorem pgRoundDown_bigBlock (a : Nat) : pgRoundDown (bigBlock a) = a := by
  unfold pgRoundDown bigBlock pgSize sizeofArena
  omega

theorem pgOfs_bigBlock (a : Nat) : pgOfs (bigBlock a) = sizeofArena := by
  unfold pgOfs bigBlock pgSize sizeofArena
  omega

/-- Nat `a` is an arena of descriptor `d`. -/
def IsArena (h : Heap) (a : Nat) (d : DescId) : Prop :=
  (a, 1) ∈ h.granted ∧ (h.arena a).desc = some d

/-- The pages `a, …, a + n - 1` are one block. -/
def IsBig (h : Heap) (a : Nat) (n : Nat) : Prop :=
  (a, n) ∈ h.granted ∧ (h.arena a).desc = none

/-- What holds in the middle of calls as well. -/
structure Ok (h : Heap) : Prop where
  disjoint : h.granted.Pairwise Apart
  pages : ∀ g ∈ h.granted, g.1 ≠ 0 ∧ 0 < g.2
  magic : ∀ g ∈ h.granted, (h.arena g.1).magic = arenaMagic
  single : ∀ g ∈ h.granted, ∀ d, (h.arena g.1).desc = some d → g.2 = 1
  bigCnt : ∀ a n, h.IsBig a n → (h.arena a).freeCnt = n
  freeCnt : ∀ a d, h.IsArena a d →
    (h.arena a).freeCnt = (blocks a d).countP fun b => b ∉ h.live
  live : ∀ b ∈ h.live,
    (∃ a d, h.IsArena a d ∧ b ∈ blocks a d) ∨ ∃ a n, h.IsBig a n ∧ b = bigBlock a
  liveNodup : h.live.Nodup
  freeNodup : ∀ d, (h.freeList d).Nodup
  mem_free : ∀ d b, b ∈ h.freeList d ↔ b ∉ h.live ∧ ∃ a, h.IsArena a d ∧ b ∈ blocks a d

/-- A run of pages has a block in use. -/
def Busy (h : Heap) (a : Nat) : Prop := ∃ b ∈ h.live, pgRoundDown b = a

/-- The invariant between calls. -/
structure Inv (h : Heap) : Prop extends Ok h where
  busy : ∀ g ∈ h.granted, h.Busy g.1

instance : Std.Symm Apart := ⟨fun _ _ h => h.symm⟩

/-- Two runs that begin with the same page are the same. -/
theorem Ok.unique {g g' : Nat × Nat} (hok : h.Ok) (hg : g ∈ h.granted) (hg' : g' ∈ h.granted)
    (heq : g.1 = g'.1) : g = g' := by
  by_contra hne
  have hpos := (hok.pages g hg).2
  have hpos' := (hok.pages g' hg').2
  have hapart : Apart g g' := hok.disjoint.forall hg hg' hne
  unfold Apart at hapart
  omega

theorem Ok.nodup (hok : h.Ok) : h.granted.Nodup := by
  refine hok.disjoint.imp_of_mem ?_
  intro g g' hg hg' hapart heq
  subst heq
  have hpos := (hok.pages g hg).2
  unfold Apart at hapart
  omega

/-- What is left after a run of pages has gone back. -/
theorem Ok.mem_granted_erase {x : Nat × Nat} (hok : h.Ok) (hg : g ∈ h.granted) :
    x ∈ h.granted.erase g ↔ x ∈ h.granted ∧ x.1 ≠ g.1 := by
  rw [hok.nodup.mem_erase_iff]
  constructor
  · intro hx
    exact ⟨hx.2, fun heq => hx.1 (hok.unique hx.2 hg heq)⟩
  · intro hx
    exact ⟨fun heq => hx.2 (congrArg Prod.fst heq), hx.1⟩

theorem IsArena.unique (ha : h.IsArena a d) (ha' : h.IsArena a d') : d = d' :=
  Option.some.inj (ha.2.symm.trans ha'.2)

/-- The run of pages that a live block is in. -/
theorem Ok.live_page (hok : h.Ok) (hb : b ∈ h.live) :
    ∃ n, (pgRoundDown b, n) ∈ h.granted := by
  rcases hok.live b hb with ⟨a, d, ha, hmem⟩ | ⟨a, n, ha, rfl⟩
  · rw [pgRoundDown_of_mem hmem]
    exact ⟨1, ha.1⟩
  · rw [pgRoundDown_bigBlock]
    exact ⟨n, ha.1⟩

/-! ## The assertions -/

theorem blockToArena_of_mem (ha : a ≠ 0) (hmagic : (h.arena a).magic = arenaMagic)
    (hdesc : (h.arena a).desc = some d) (hb : b ∈ blocks a d) : h.blockToArena b = .ok a := by
  obtain ⟨i, hi, rfl⟩ := mem_blocks.mp hb
  obtain ⟨hpos, -, hfits⟩ := desc_bounds d
  have hwithin := @blockAt_within a d i hi
  unfold blockToArena
  rw [pgRoundDown_blockAt hi, check_bind ha, check_bind hmagic, hdesc]
  dsimp only
  refine check_bind ?_
  have hofs : pgOfs (blockAt a d i) < pgSize := Nat.mod_lt _ (by decide)
  rw [pgOfs_blockAt hi] at hofs ⊢
  have hwrap : (sizeofArena + i * blockSize d + 2 ^ 32 - sizeofArena) % 2 ^ 32 = i * blockSize d := by
    unfold sizeofArena pgSize at *
    omega
  rw [hwrap, Nat.mul_mod_left]

theorem blockToArena_bigBlock (ha : a ≠ 0) (hmagic : (h.arena a).magic = arenaMagic)
    (hdesc : (h.arena a).desc = none) : h.blockToArena (bigBlock a) = .ok a := by
  unfold blockToArena
  rw [pgRoundDown_bigBlock, check_bind ha, check_bind hmagic, hdesc]
  exact check_bind (pgOfs_bigBlock a)

theorem arenaToBlock_of_lt (ha : a ≠ 0) (hmagic : (h.arena a).magic = arenaMagic)
    (hdesc : (h.arena a).desc = some d) (hi : i < blocksPerArena d) :
    h.arenaToBlock a i = .ok (blockAt a d i) := by
  unfold arenaToBlock
  rw [check_bind ha, check_bind hmagic, hdesc]
  exact check_bind hi

/-! ## The loops -/

theorem pushBlocks_eq {is : List Nat} (ha : a ≠ 0) (hmagic : (h.arena a).magic = arenaMagic)
    (hdesc : (h.arena a).desc = some d) (his : ∀ i ∈ is, i < blocksPerArena d) :
    h.pushBlocks a d is = .ok (h.setFreeList d (h.freeList d ++ is.map (blockAt a d))) := by
  induction is generalizing h with
  | nil => simp [pushBlocks, setFreeList, pure, Except.pure]
  | cons i is ih =>
    rw [pushBlocks, arenaToBlock_of_lt ha hmagic hdesc (his i List.mem_cons_self), ok_bind]
    refine (@ih (h.setFreeList d (h.freeList d ++ [blockAt a d i])) hmagic hdesc
      fun j hj => his j (List.mem_cons_of_mem _ hj)).trans ?_
    simp [setFreeList]

theorem removeBlocks_eq {is : List Nat} (ha : a ≠ 0) (hmagic : (h.arena a).magic = arenaMagic)
    (hdesc : (h.arena a).desc = some d) (his : ∀ i ∈ is, i < blocksPerArena d) (hnodup : is.Nodup)
    (hlist : (h.freeList d).Nodup) (hmem : ∀ i ∈ is, blockAt a d i ∈ h.freeList d) :
    h.removeBlocks a d is =
      .ok (h.setFreeList d ((h.freeList d).filter fun b => b ∉ is.map (blockAt a d))) := by
  induction is generalizing h with
  | nil => simp [removeBlocks, setFreeList, pure, Except.pure]
  | cons i is ih =>
    obtain ⟨hi, hnodup⟩ := List.nodup_cons.mp hnodup
    have hin : blockAt a d i ∈ h.freeList d := hmem i List.mem_cons_self
    rw [removeBlocks, arenaToBlock_of_lt ha hmagic hdesc (his i List.mem_cons_self), ok_bind]
    refine (check_bind hin).trans ?_
    rw [hlist.erase_eq_filter]
    refine (@ih (h.setFreeList d ((h.freeList d).filter (· != blockAt a d i))) hmagic hdesc
      (fun j hj => his j (List.mem_cons_of_mem _ hj)) hnodup ?_ ?_).trans ?_
    rotate_right
    · simp only [setFreeList, Function.update_self, Function.update_idem, List.filter_filter]
      congr 3
      refine List.filter_congr fun b _ => ?_
      by_cases hb : b = blockAt a d i <;> simp [hb]
    · simpa [setFreeList] using hlist.filter _
    · intro j hj
      have hne : blockAt a d j ≠ blockAt a d i := by
        intro heq
        rw [blockAt_injective a d heq] at hj
        exact hi hj
      simp [setFreeList, hmem j (List.mem_cons_of_mem _ hj), hne]

/-! ## Counting blocks -/

theorem countP_notMem_cons {l live : List Nat} (hb : b ∉ live) :
    (l.countP fun x => x ∉ live) = (l.countP fun x => x ∉ b :: live) + l.count b := by
  induction l with
  | nil => rfl
  | cons x l ih =>
    rw [List.countP_cons, List.countP_cons, List.count_cons, ih]
    by_cases hx : x = b
    · subst hx
      simp [hb]
      omega
    · by_cases hlive : x ∈ live
      · simp [hx, hlive]
      · simp [hx, hlive]
        omega

/-- The blocks of an arena that are not in use, after one more has come into use. -/
theorem countP_blocks_cons {live : List Nat} (hb : b ∈ blocks a d) (hlive : b ∉ live) :
    ((blocks a d).countP fun x => x ∉ live) = ((blocks a d).countP fun x => x ∉ b :: live) + 1 := by
  rw [countP_notMem_cons hlive, List.count_eq_one_of_mem (nodup_blocks a d) hb]

theorem countP_blocks_congr {live live' : List Nat}
    (hsame : ∀ b ∈ blocks a d, b ∈ live' ↔ b ∈ live) :
    ((blocks a d).countP fun b => b ∉ live') = (blocks a d).countP fun b => b ∉ live := by
  refine List.countP_congr fun b hb => ?_
  simp [hsame b hb]

/-! ## One arena -/

/-- The blocks of an arena come into use or go out of use. -/
theorem Ok.move (hok : h.Ok) (ha : h.IsArena a d) {cnt : Nat} {list live : List Nat}
    (harena : h'.arena = Function.update h.arena a { h.arena a with freeCnt := cnt })
    (hlists : h'.freeList = Function.update h.freeList d list) (hgranted : h'.granted = h.granted)
    (hlive : h'.live = live) (hnodup : live.Nodup)
    (hsame : ∀ b, b ∉ blocks a d → (b ∈ live ↔ b ∈ h.live))
    (hcnt : cnt = (blocks a d).countP fun b => b ∉ live) (hlistNodup : list.Nodup)
    (hlist : ∀ b, b ∈ list ↔ b ∉ live ∧ ∃ x, h.IsArena x d ∧ b ∈ blocks x d) : h'.Ok := by
  have hdesc : ∀ x, (h'.arena x).desc = (h.arena x).desc := by
    intro x
    by_cases hx : x = a <;> simp [harena, hx]
  have hmagic : ∀ x, (h'.arena x).magic = (h.arena x).magic := by
    intro x
    by_cases hx : x = a <;> simp [harena, hx]
  have hisArena : ∀ x e, h'.IsArena x e ↔ h.IsArena x e := by
    intro x e
    simp only [IsArena, hgranted, hdesc]
  have hisBig : ∀ x n, h'.IsBig x n ↔ h.IsBig x n := by
    intro x n
    simp only [IsBig, hgranted, hdesc]
  have hother : ∀ x e b, h.IsArena x e → b ∈ blocks x e → x ≠ a → (b ∈ live ↔ b ∈ h.live) := by
    intro x e b _ hb hx
    refine hsame b fun hmem => hx ?_
    rw [← pgRoundDown_of_mem hb, pgRoundDown_of_mem hmem]
  refine ⟨?_, ?_, ?_, ?_, ?_, ?_, ?_, ?_, ?_, ?_⟩
  · rw [hgranted]
    exact hok.disjoint
  · rw [hgranted]
    exact hok.pages
  · intro g hg
    rw [hgranted] at hg
    rw [hmagic]
    exact hok.magic g hg
  · intro g hg e he
    rw [hgranted] at hg
    rw [hdesc] at he
    exact hok.single g hg e he
  · intro x n hx
    rw [hisBig] at hx
    have hne : x ≠ a := by
      intro heq
      subst heq
      cases ha.2.symm.trans hx.2
    rw [harena, Function.update_of_ne hne]
    exact hok.bigCnt x n hx
  · intro x e hx
    rw [hisArena] at hx
    rw [harena, hlive]
    by_cases hne : x = a
    · subst hne
      obtain rfl := ha.unique hx
      rw [Function.update_self]
      exact hcnt
    · rw [Function.update_of_ne hne, hok.freeCnt x e hx]
      exact (countP_blocks_congr fun b hb => hother x e b hx hb hne).symm
  · intro b hb
    rw [hlive] at hb
    simp only [hisArena, hisBig]
    by_cases hmem : b ∈ blocks a d
    · exact .inl ⟨a, d, ha, hmem⟩
    · exact hok.live b ((hsame b hmem).mp hb)
  · rw [hlive]
    exact hnodup
  · intro e
    rw [hlists]
    by_cases he : e = d
    · subst he
      rw [Function.update_self]
      exact hlistNodup
    · rw [Function.update_of_ne he]
      exact hok.freeNodup e
  · intro e b
    rw [hlists, hlive]
    simp only [hisArena]
    by_cases he : e = d
    · subst he
      rw [Function.update_self]
      exact hlist b
    · rw [Function.update_of_ne he, hok.mem_free]
      have hne : ∀ x, h.IsArena x e → x ≠ a := by
        intro x hx heq
        subst heq
        exact he (hx.unique ha)
      constructor
      · intro hb
        obtain ⟨hnot, x, hx, hmem⟩ := hb
        exact ⟨fun hin => hnot ((hother x e b hx hmem (hne x hx)).mp hin), x, hx, hmem⟩
      · intro hb
        obtain ⟨hnot, x, hx, hmem⟩ := hb
        exact ⟨fun hin => hnot ((hother x e b hx hmem (hne x hx)).mpr hin), x, hx, hmem⟩

/-- Taking a block off the free list. -/
theorem takeBlock_spec {rest : List Nat} (hok : h.Ok) (hlist : h.freeList d = b :: rest) :
    ∃ h', h.takeBlock d = .ok (b, h') ∧ h'.Ok ∧ h'.granted = h.granted ∧ h'.live = b :: h.live ∧
      (∀ x, (h'.arena x).desc = (h.arena x).desc) ∧ ∃ a, h.IsArena a d ∧ b ∈ blocks a d := by
  have hmem : b ∈ h.freeList d := by
    rw [hlist]
    exact List.mem_cons_self
  obtain ⟨hnot, a, ha, hb⟩ := (hok.mem_free d b).mp hmem
  have hpage := (hok.pages _ ha.1).1
  have htoArena : (h.setFreeList d rest).blockToArena b = .ok a :=
    blockToArena_of_mem hpage (hok.magic _ ha.1) ha.2 hb
  have hnodup : (b :: rest).Nodup := by
    rw [← hlist]
    exact hok.freeNodup d
  obtain ⟨hbrest, hrest⟩ := List.nodup_cons.mp hnodup
  unfold takeBlock
  rw [hlist]
  dsimp only
  rw [htoArena, ok_bind]
  refine ⟨_, rfl, ?_, rfl, rfl, ?_, a, ha, hb⟩
  · refine hok.move ha rfl rfl rfl rfl (List.nodup_cons.mpr ⟨hnot, hok.liveNodup⟩) ?_ ?_ hrest ?_
    · intro x hx
      have hne : x ≠ b := fun heq => hx (heq ▸ hb)
      exact List.mem_cons.trans (or_iff_right hne)
    · change (h.arena a).freeCnt - 1 = _
      rw [hok.freeCnt a d ha, countP_blocks_cons hb hnot]
      rfl
    · intro x
      have hx := hok.mem_free d x
      rw [hlist, List.mem_cons] at hx
      rw [List.mem_cons]
      constructor
      · intro hin
        obtain ⟨hlive, harena⟩ := hx.mp (.inr hin)
        refine ⟨fun hor => ?_, harena⟩
        cases hor with
        | inl heq => exact hbrest (heq ▸ hin)
        | inr hin' => exact hlive hin'
      · intro hor
        obtain ⟨hno, harena⟩ := hor
        have hne : x ≠ b := fun heq => hno (.inl heq)
        exact (hx.mpr ⟨fun hin => hno (.inr hin), harena⟩).resolve_left hne
  · intro x
    by_cases hx : x = a <;> simp [setArena, setFreeList, hx]

/-! ## Pages come and go -/

theorem PageFree.ne (hok : h.Ok) (hfree : h.PageFree a n) (hn : 0 < n) (hg : g ∈ h.granted) :
    g.1 ≠ a := by
  obtain ⟨-, -, hapart⟩ := hfree
  have hpos := (hok.pages g hg).2
  have hg' := hapart g hg
  unfold Apart at hg'
  dsimp only at hg'
  omega

/-- The blocks in use are not in pages that `palloc` has not handed out. -/
theorem Ok.live_ne (hok : h.Ok) (hpage : ∀ g ∈ h.granted, g.1 ≠ a) (hb : b ∈ h.live) :
    pgRoundDown b ≠ a := by
  obtain ⟨n, hn⟩ := hok.live_page hb
  exact hpage _ hn

/-- `palloc` has handed out `n` pages from `a` on, and `header` is written at their start. -/
structure NewRun (h h' : Heap) (a n : Nat) (header : Arena) : Prop where
  arena : h'.arena = Function.update h.arena a header
  granted : h'.granted = (a, n) :: h.granted

namespace NewRun

variable {header : Arena} {x m : Nat} {e : DescId}

theorem arena_self (hrun : NewRun h h' a n header) : h'.arena a = header := by
  rw [hrun.arena]
  exact Function.update_self _ _ _

theorem arena_of_ne (hrun : NewRun h h' a n header) (hx : x ≠ a) : h'.arena x = h.arena x := by
  rw [hrun.arena]
  exact Function.update_of_ne hx _ _

theorem isArena (hrun : NewRun h h' a n header) (hpage : ∀ g ∈ h.granted, g.1 ≠ a)
    (hsingle : header.desc = some e → n = 1) :
    h'.IsArena x e ↔ x = a ∧ header.desc = some e ∨ h.IsArena x e := by
  by_cases hx : x = a
  · subst hx
    have hno : ¬ h.IsArena x e := fun hold => hpage _ hold.1 rfl
    rw [IsArena, hrun.granted, hrun.arena_self, or_iff_left hno]
    constructor
    · intro hnew
      exact ⟨rfl, hnew.2⟩
    · intro hdesc
      refine ⟨?_, hdesc.2⟩
      rw [hsingle hdesc.2]
      exact List.mem_cons_self
  · simp [IsArena, hrun.granted, hrun.arena_of_ne hx, hx]

theorem isBig (hrun : NewRun h h' a n header) (hpage : ∀ g ∈ h.granted, g.1 ≠ a) :
    h'.IsBig x m ↔ x = a ∧ m = n ∧ header.desc = none ∨ h.IsBig x m := by
  by_cases hx : x = a
  · subst hx
    have hno : (x, m) ∉ h.granted := fun hmem => hpage _ hmem rfl
    simp [IsBig, hrun.granted, hrun.arena_self, hno]
  · simp [IsBig, hrun.granted, hrun.arena_of_ne hx, hx]

/-- The new run of pages is an arena whose blocks are all free, or one block, which is in use. -/
theorem ok (hrun : NewRun h h' a n header) (hok : h.Ok) (hfree : h.PageFree a n) (hn : 0 < n)
    (hmagic : header.magic = arenaMagic) (hsingle : ∀ e, header.desc = some e → n = 1)
    (hbig : header.desc = none → header.freeCnt = n)
    (hcnt : ∀ e, header.desc = some e →
      header.freeCnt = (blocks a e).countP fun b => b ∉ h'.live)
    (hsame : ∀ x e, h.IsArena x e → ∀ b ∈ blocks x e, b ∈ h'.live ↔ b ∈ h.live)
    (hlive : ∀ b ∈ h'.live, b ∈ h.live ∨ header.desc = none ∧ b = bigBlock a)
    (hliveNodup : h'.live.Nodup) (hfreeNodup : ∀ e, (h'.freeList e).Nodup)
    (hlist : ∀ e b, b ∈ h'.freeList e ↔
      b ∉ h'.live ∧ ∃ x, (x = a ∧ header.desc = some e ∨ h.IsArena x e) ∧ b ∈ blocks x e) :
    h'.Ok := by
  have hpage : ∀ g ∈ h.granted, g.1 ≠ a := fun g hg => hfree.ne hok hn hg
  have hisArena : ∀ x e, h'.IsArena x e ↔ x = a ∧ header.desc = some e ∨ h.IsArena x e :=
    fun x e => hrun.isArena hpage (hsingle e)
  have hisBig : ∀ x m, h'.IsBig x m ↔ x = a ∧ m = n ∧ header.desc = none ∨ h.IsBig x m :=
    fun x m => hrun.isBig hpage
  refine ⟨?_, ?_, ?_, ?_, ?_, ?_, ?_, hliveNodup, hfreeNodup, ?_⟩
  · rw [hrun.granted]
    exact List.pairwise_cons.mpr ⟨hfree.2.2, hok.disjoint⟩
  · rw [hrun.granted]
    intro g hg
    cases List.mem_cons.mp hg with
    | inl heq => exact heq ▸ ⟨hfree.1, hn⟩
    | inr hg => exact hok.pages g hg
  · rw [hrun.granted]
    intro g hg
    cases List.mem_cons.mp hg with
    | inl heq => rw [heq, hrun.arena_self, hmagic]
    | inr hg =>
      rw [hrun.arena_of_ne (hpage g hg)]
      exact hok.magic g hg
  · rw [hrun.granted]
    intro g hg e he
    cases List.mem_cons.mp hg with
    | inl heq =>
      rw [heq, hrun.arena_self] at he
      rw [heq]
      exact hsingle e he
    | inr hg =>
      rw [hrun.arena_of_ne (hpage g hg)] at he
      exact hok.single g hg e he
  · intro x m hx
    cases (hisBig x m).mp hx with
    | inl hnew => rw [hnew.1, hrun.arena_self, hnew.2.1, hbig hnew.2.2]
    | inr hold =>
      rw [hrun.arena_of_ne (hpage _ hold.1)]
      exact hok.bigCnt x m hold
  · intro x e hx
    cases (hisArena x e).mp hx with
    | inl hnew =>
      obtain ⟨rfl, hdesc⟩ := hnew
      rw [hrun.arena_self]
      exact hcnt e hdesc
    | inr hold =>
      rw [hrun.arena_of_ne (hpage _ hold.1), hok.freeCnt x e hold]
      exact (countP_blocks_congr (hsame x e hold)).symm
  · intro b hb
    simp only [hisArena, hisBig]
    cases hlive b hb with
    | inl hold =>
      cases hok.live b hold with
      | inl harena =>
        obtain ⟨x, e, hx, hmem⟩ := harena
        exact .inl ⟨x, e, .inr hx, hmem⟩
      | inr hblock =>
        obtain ⟨x, m, hx, heq⟩ := hblock
        exact .inr ⟨x, m, .inr hx, heq⟩
    | inr hnew => exact .inr ⟨a, n, .inl ⟨rfl, rfl, hnew.1⟩, hnew.2⟩
  · intro e b
    simp only [hisArena]
    exact hlist e b

end NewRun

/-- `palloc` hands out pages for a new arena, whose blocks go onto the free list. -/
theorem Ok.newArena (hok : h.Ok) (hfree : h.PageFree a 1) : Ok
    { h with
      arena := Function.update h.arena a
        { magic := arenaMagic, desc := some d, freeCnt := blocksPerArena d }
      freeList := Function.update h.freeList d (h.freeList d ++ blocks a d)
      granted := (a, 1) :: h.granted } := by
  have hpage : ∀ g ∈ h.granted, g.1 ≠ a := fun g hg => hfree.ne hok (by decide) hg
  have hnotLive : ∀ b ∈ blocks a d, b ∉ h.live := by
    intro b hb hlive
    exact hok.live_ne hpage hlive (pgRoundDown_of_mem hb)
  refine @NewRun.ok h _ a 1 _ ⟨rfl, rfl⟩ hok hfree Nat.one_pos rfl (fun _ _ => rfl) ?_ ?_
    (fun _ _ _ _ _ => Iff.rfl) (fun b hb => .inl hb) hok.liveNodup ?_ ?_
  · intro hdesc
    cases hdesc
  · intro e he
    cases he
    dsimp only
    rw [← length_blocks a d]
    refine (List.countP_eq_length.mpr fun b hb => ?_).symm
    exact decide_eq_true (hnotLive b hb)
  · intro e
    dsimp only
    by_cases he : e = d
    · subst he
      rw [Function.update_self, List.nodup_append]
      refine ⟨hok.freeNodup e, nodup_blocks a e, ?_⟩
      intro b hb b' hb' heq
      subst heq
      obtain ⟨-, x, hx, hmem⟩ := (hok.mem_free e b).mp hb
      exact hpage _ hx.1 ((pgRoundDown_of_mem hmem).symm.trans (pgRoundDown_of_mem hb'))
    · rw [Function.update_of_ne he]
      exact hok.freeNodup e
  · intro e b
    dsimp only
    by_cases he : e = d
    · subst he
      rw [Function.update_self, List.mem_append, hok.mem_free]
      constructor
      · intro hb
        cases hb with
        | inl hb =>
          obtain ⟨hnot, x, hx, hmem⟩ := hb
          exact ⟨hnot, x, .inr hx, hmem⟩
        | inr hb => exact ⟨hnotLive b hb, a, .inl ⟨rfl, rfl⟩, hb⟩
      · intro hb
        obtain ⟨hnot, x, hx, hmem⟩ := hb
        cases hx with
        | inl heq => exact .inr (heq.1 ▸ hmem)
        | inr hx => exact .inl ⟨hnot, x, hx, hmem⟩
    · rw [Function.update_of_ne he, hok.mem_free]
      simp only [Option.some.injEq, Ne.symm he, and_false, false_or]

/-- `palloc` hands out pages for a block of their own. -/
theorem Ok.newBig (hok : h.Ok) (hfree : h.PageFree a n) (hn : 0 < n) : Ok
    { h with
      arena := Function.update h.arena a { magic := arenaMagic, desc := none, freeCnt := n }
      granted := (a, n) :: h.granted
      live := bigBlock a :: h.live } := by
  have hpage : ∀ g ∈ h.granted, g.1 ≠ a := fun g hg => hfree.ne hok hn hg
  have hnotLive : bigBlock a ∉ h.live := by
    intro hlive
    exact hok.live_ne hpage hlive (pgRoundDown_bigBlock a)
  have hsame : ∀ x e, h.IsArena x e → ∀ b ∈ blocks x e, b ∈ bigBlock a :: h.live ↔ b ∈ h.live := by
    intro x e hx b hb
    refine List.mem_cons.trans (or_iff_right fun heq => hpage _ hx.1 ?_)
    rw [← pgRoundDown_bigBlock a, ← heq, pgRoundDown_of_mem hb]
  refine @NewRun.ok h _ a n _ ⟨rfl, rfl⟩ hok hfree hn rfl ?_ (fun _ => rfl) ?_ hsame ?_
    (List.nodup_cons.mpr ⟨hnotLive, hok.liveNodup⟩) hok.freeNodup ?_
  · intro e he
    cases he
  · intro e he
    cases he
  · intro b hb
    cases List.mem_cons.mp hb with
    | inl heq => exact .inr ⟨rfl, heq⟩
    | inr hb => exact .inl hb
  · intro e b
    dsimp only
    rw [hok.mem_free]
    constructor
    · intro hb
      obtain ⟨hnot, x, hx, hmem⟩ := hb
      exact ⟨mt (hsame x e hx b hmem).mp hnot, x, .inr hx, hmem⟩
    · intro hb
      obtain ⟨hnot, x, hnew | hx, hmem⟩ := hb
      · cases hnew.2
      · exact ⟨mt (hsame x e hx b hmem).mpr hnot, x, hx, hmem⟩

/-- Pages go back to `palloc` together with the blocks in them. -/
theorem Ok.drop (hok : h.Ok) (hg : g ∈ h.granted) (harena : h'.arena = h.arena)
    (hgranted : h'.granted = h.granted.erase g) (hnodup : h'.live.Nodup)
    (hlive : ∀ b, b ∈ h'.live ↔ b ∈ h.live ∧ pgRoundDown b ≠ g.1)
    (hfreeNodup : ∀ e, (h'.freeList e).Nodup)
    (hfree : ∀ e b, b ∈ h'.freeList e ↔ b ∈ h.freeList e ∧ pgRoundDown b ≠ g.1) : h'.Ok := by
  have hmem : ∀ x, x ∈ h'.granted ↔ x ∈ h.granted ∧ x.1 ≠ g.1 := by
    intro x
    rw [hgranted]
    exact hok.mem_granted_erase hg
  have hisArena : ∀ x e, h'.IsArena x e ↔ h.IsArena x e ∧ x ≠ g.1 := by
    intro x e
    simp only [IsArena, hmem, harena]
    exact and_right_comm
  have hisBig : ∀ x n, h'.IsBig x n ↔ h.IsBig x n ∧ x ≠ g.1 := by
    intro x n
    simp only [IsBig, hmem, harena]
    exact and_right_comm
  refine ⟨?_, ?_, ?_, ?_, ?_, ?_, ?_, hnodup, hfreeNodup, ?_⟩
  · rw [hgranted]
    exact hok.disjoint.sublist List.erase_sublist
  · intro x hx
    exact hok.pages x ((hmem x).mp hx).1
  · intro x hx
    rw [harena]
    exact hok.magic x ((hmem x).mp hx).1
  · intro x hx e he
    rw [harena] at he
    exact hok.single x ((hmem x).mp hx).1 e he
  · intro x n hx
    rw [harena]
    exact hok.bigCnt x n ((hisBig x n).mp hx).1
  · intro x e hx
    obtain ⟨hx', hne⟩ := (hisArena x e).mp hx
    rw [harena, hok.freeCnt x e hx']
    refine (countP_blocks_congr fun b hb => ?_).symm
    rw [hlive, pgRoundDown_of_mem hb]
    exact and_iff_left hne
  · intro b hb
    obtain ⟨hb', hne⟩ := (hlive b).mp hb
    simp only [hisArena, hisBig]
    cases hok.live b hb' with
    | inl hold =>
      obtain ⟨x, e, hx, hin⟩ := hold
      rw [pgRoundDown_of_mem hin] at hne
      exact .inl ⟨x, e, ⟨hx, hne⟩, hin⟩
    | inr hold =>
      obtain ⟨x, n, hx, heq⟩ := hold
      rw [heq, pgRoundDown_bigBlock] at hne
      exact .inr ⟨x, n, ⟨hx, hne⟩, heq⟩
  · intro e b
    rw [hfree, hok.mem_free, hlive]
    simp only [hisArena]
    constructor
    · intro hb
      obtain ⟨⟨hnot, x, hx, hin⟩, hne⟩ := hb
      exact ⟨fun hl => hnot hl.1, x, ⟨hx, by rwa [pgRoundDown_of_mem hin] at hne⟩, hin⟩
    · intro hb
      obtain ⟨hnot, x, ⟨hx, hne⟩, hin⟩ := hb
      rw [pgRoundDown_of_mem hin] at hnot ⊢
      exact ⟨⟨fun hl => hnot ⟨hl, hne⟩, x, hx, hin⟩, hne⟩

end Heap

end CSE130.Malloc
