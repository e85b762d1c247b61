import CSE130.Malloc.HeapOk
import CSE130.Palloc.Pools

/-!
# The block allocator over the page allocator

`malloc` and `free` with the pages that `palloc_get_multiple` really returns and `palloc_free_multiple`
really takes back, while the rest of the kernel gets and frees pages of its own. What the block
allocator expects of its pages holds in every run.
-/

namespace CSE130.Palloc

open CSE130.Library CSE130.KernelLib CSE130.Malloc
open CSE130.Malloc.Heap (Apart findDesc pageCnt)

/-- The number of pages that a call of `malloc` asks for, 0 if it has a block on a free list. -/
def asks (h : Heap) (size : Nat) : Nat :=
  if size = 0 then 0
  else
    match findDesc size with
    | none => pageCnt size
    | some d => if h.freeList d = [] then 1 else 0

/-- The failures of the two allocators. -/
inductive Fault where
  | heap (e : Malloc.Panic)
  | pages (e : KernelLib.Panic)

/-- The block allocator, the page allocator, and the runs of pages that other parts of the kernel
have got. -/
structure Kernel where
  heap : Heap
  pages : Pages
  others : List (Nat × Nat)

namespace Kernel

/-- `palloc_get_multiple` (`palloc.c:70-101`), called with no flags. -/
def getPages (m : Pages) (pageCnt : Nat) : Except Fault (Nat × Pages) :=
  (m.pallocGetMultiple ⟨false, false, false⟩ pageCnt).mapError .pages

/-- `palloc_free_multiple` (`palloc.c:117-142`) for a run of pages. -/
def putPages (m : Pages) (g : Nat × Nat) : Except Fault Pages :=
  (m.pallocFreeMultiple (g.1 * pgSize) g.2).mapError .pages

/-- `malloc` (`malloc.c:89-154`). -/
def malloc (s : Kernel) (size : Nat) : Except Fault (Option Nat × Kernel) := do
  let (pages, m) ← getPages s.pages (asks s.heap size)
  let grant := if pages = 0 then none else some (pgNo pages)
  let (r, h) ← (s.heap.malloc size grant).mapError .heap
  pure (r, { s with heap := h, pages := m })

/-- `free` (`malloc.c:218-264`); the runs that it takes off the list of the heap go back to the page
allocator. -/
def free (s : Kernel) (p : Nat) : Except Fault Kernel := do
  let h ← (s.heap.free p).mapError .heap
  let m ← (s.heap.granted.filter fun g => !h.granted.contains g).foldlM putPages s.pages
  pure { s with heap := h, pages := m }

/-- `palloc_get_multiple` (`palloc.c:70-101`), called by another part of the kernel. -/
def palloc (s : Kernel) (flags : PallocFlags) (pageCnt : Nat) : Except Fault Kernel := do
  let (pages, m) ← (s.pages.pallocGetMultiple flags pageCnt).mapError .pages
  pure { s with pages := m, others := if pages = 0 then s.others else (pgNo pages, pageCnt) :: s.others }

/-- `palloc_free_multiple` (`palloc.c:117-142`), called by another part of the kernel. -/
def pfree (s : Kernel) (g : Nat × Nat) : Except Fault Kernel := do
  let m ← putPages s.pages g
  pure { s with pages := m, others := s.others.erase g }

/-- A call of one of the allocators. -/
inductive Event where
  | malloc (size : Nat)
  | free (p : Nat)
  | palloc (flags : PallocFlags) (pageCnt : Nat)
  | pfree (g : Nat × Nat)

/-- The state after a call. -/
def step (s : Kernel) : Event → Except Fault Kernel
  | .malloc size => (s.malloc size).map Prod.snd
  | .free p => s.free p
  | .palloc flags pageCnt => s.palloc flags pageCnt
  | .pfree g => s.pfree g

/-- The calls that may be made: `malloc` is called for at most 1 MB, a block is freed once, a run of pages by the
part that has got it, and nobody insists on pages with `PAL_ASSERT`. -/
def Admits (s : Kernel) : Event → Prop
  | .malloc size => size ≤ 2 ^ 20
  | .free p => p = 0 ∨ p ∈ s.heap.live
  | .palloc flags pageCnt => flags.assert = false ∧ pageCnt < 2 ^ 32
  | .pfree g => g ∈ s.others

instance (s : Kernel) : (e : Event) → Decidable (s.Admits e)
  | .malloc size => inferInstanceAs (Decidable (size ≤ 2 ^ 20))
  | .free p => inferInstanceAs (Decidable (p = 0 ∨ p ∈ s.heap.live))
  | .palloc flags pageCnt => inferInstanceAs (Decidable (flags.assert = false ∧ pageCnt < 2 ^ 32))
  | .pfree g => inferInstanceAs (Decidable (g ∈ s.others))

/-- The state after `palloc_init` and `malloc_init`. -/
def start (memory : Nat → Arena) (pages : Pages) : Kernel where
  heap := Heap.start memory
  pages := pages
  others := []

variable {s s' : Kernel} {m m' : Pages} {h h' : Heap} {g : Nat × Nat} {runs : List (Nat × Nat)}
  {size p q : Nat}

/-! ## The pages of the heap -/

theorem pushBlocks_granted {a : Nat} {d : DescId} {is : List Nat}
    (hpush : h.pushBlocks a d is = .ok h') : h'.granted = h.granted := by
  induction is generalizing h with
  | nil =>
    cases pure_eq_ok.mp hpush
    rfl
  | cons i is ih =>
    obtain ⟨b, -, hrest⟩ := bind_eq_ok.mp hpush
    exact (ih hrest).trans rfl

theorem takeBlock_granted {d : DescId} {b : Nat} (htake : h.takeBlock d = .ok (b, h')) :
    h'.granted = h.granted := by
  unfold Heap.takeBlock at htake
  split at htake
  · cases htake
  · obtain ⟨a, -, heq⟩ := bind_eq_ok.mp htake
    cases pure_eq_ok.mp heq
    rfl

/-- A call of `malloc` records the pages that it has asked for, if it got them. -/
theorem malloc_granted {grant r : Option Nat} (hnone : asks h size = 0 → grant = none)
    (hmalloc : h.malloc size grant = .ok (r, h')) :
    h'.granted = (grant.toList.map fun a => (a, asks h size)) ++ h.granted := by
  unfold Heap.malloc at hmalloc
  unfold asks at hnone ⊢
  by_cases hzero : size = 0
  · rw [if_pos hzero] at hmalloc hnone
    cases pure_eq_ok.mp hmalloc
    rw [hnone rfl]
    rfl
  rw [if_neg hzero] at hmalloc hnone ⊢
  cases hfind : findDesc size with
  | none =>
    rw [hfind] at hmalloc
    cases grant with
    | none =>
      cases pure_eq_ok.mp hmalloc
      rfl
    | some a =>
      cases pure_eq_ok.mp hmalloc
      rfl
  | some d =>
    rw [hfind] at hmalloc hnone
    dsimp only at hmalloc hnone ⊢
    obtain ⟨filled, hrefill, hmalloc⟩ := bind_eq_ok.mp hmalloc
    unfold Heap.refill at hrefill
    by_cases hempty : h.freeList d = []
    · rw [if_pos hempty] at hrefill ⊢
      cases grant with
      | none =>
        cases pure_eq_ok.mp hrefill
        cases pure_eq_ok.mp hmalloc
        rfl
      | some a =>
        obtain ⟨h₁, hpush, hrefill⟩ := bind_eq_ok.mp hrefill
        cases pure_eq_ok.mp hrefill
        obtain ⟨⟨b, h₂⟩, htake, heq⟩ := bind_eq_ok.mp hmalloc
        cases pure_eq_ok.mp heq
        rw [takeBlock_granted htake, pushBlocks_granted hpush]
        rfl
    · rw [if_neg hempty] at hrefill hnone
      rw [hnone rfl]
      cases pure_eq_ok.mp hrefill
      obtain ⟨⟨b, h₁⟩, htake, heq⟩ := bind_eq_ok.mp hmalloc
      cases pure_eq_ok.mp heq
      exact takeBlock_granted htake

/-! ## The invariant -/

/-- Page `q` belongs to one of the runs. -/
def InRuns (runs : List (Nat × Nat)) (q : Nat) : Prop := ∃ g ∈ runs, g.1 ≤ q ∧ q < g.1 + g.2

/-- The runs of the heap and of the other parts of the kernel have no page in common, and are what the
page allocator has handed out. -/
structure Inv (s : Kernel) : Prop where
  heap : s.heap.Inv
  pages : s.pages.Inv
  apart : (s.heap.granted ++ s.others).Pairwise Apart
  nonempty : ∀ g ∈ s.others, g.1 ≠ 0 ∧ g.2 ≠ 0
  held : ∀ q, s.pages.Held q ↔ InRuns (s.heap.granted ++ s.others) q

theorem inRuns_append {runs' : List (Nat × Nat)} :
    InRuns (runs ++ runs') q ↔ InRuns runs q ∨ InRuns runs' q := by
  simp [InRuns, or_and_right, exists_or]

theorem inRuns_cons : InRuns (g :: runs) q ↔ (g.1 ≤ q ∧ q < g.1 + g.2) ∨ InRuns runs q := by
  simp [InRuns]

/-- A free run has no page in common with those that have been handed out. -/
theorem apart_of_freeRun {flags : PallocFlags} {page cnt : Nat}
    (hheld : ∀ q, m.Held q ↔ InRuns runs q) (hfree : m.FreeRun flags.user page cnt) (hcnt : cnt ≠ 0)
    (hg : g ∈ runs) (hne : g.2 ≠ 0) : Apart (page, cnt) g := by
  by_contra hover
  unfold Apart at hover
  obtain ⟨-, hno⟩ := hfree (max page g.1) (Nat.le_max_left _ _) (by dsimp only at hover; omega)
  exact hno ((hheld _).mpr ⟨g, hg, Nat.le_max_right _ _, by dsimp only at hover; omega⟩)

/-- What has been handed out is a run of pages that may be taken back. -/
theorem heldRun_of_mem (hheld : ∀ q, m.Held q ↔ InRuns runs q) (hg : g ∈ runs) : m.HeldRun g.1 g.2 :=
  fun q hle hlt => (hheld q).mpr ⟨g, hg, hle, hlt⟩

theorem not_inRuns_of_apart {runs' : List (Nat × Nat)}
    (hapart : ∀ g ∈ runs, ∀ g' ∈ runs', Apart g g') (hq : InRuns runs q) : ¬ InRuns runs' q := by
  obtain ⟨g, hg, hle, hlt⟩ := hq
  rintro ⟨g', hg', hle', hlt'⟩
  have hgg' := hapart g hg g' hg'
  unfold Apart at hgg'
  omega

theorem mem_filter_not_contains {runs' : List (Nat × Nat)} :
    g ∈ runs.filter (fun g => !runs'.contains g) ↔ g ∈ runs ∧ g ∉ runs' := by
  rw [List.mem_filter, Bool.not_eq_true', ← Bool.not_eq_true, List.contains_iff_mem]

/-- A run of a list is on a part of the list, or among those that the part lacks. -/
theorem inRuns_iff_of_part {runs' : List (Nat × Nat)} (hpart : ∀ g ∈ runs', g ∈ runs) :
    InRuns runs q ↔ InRuns runs' q ∨ InRuns (runs.filter fun g => !runs'.contains g) q := by
  constructor
  · rintro ⟨g, hg, hin⟩
    by_cases hkept : g ∈ runs'
    · exact .inl ⟨g, hkept, hin⟩
    · exact .inr ⟨g, mem_filter_not_contains.mpr ⟨hg, hkept⟩, hin⟩
  · rintro (⟨g, hg, hin⟩ | ⟨g, hg, hin⟩)
    · exact ⟨g, hpart g hg, hin⟩
    · exact ⟨g, (mem_filter_not_contains.mp hg).1, hin⟩

theorem inRuns_perm {runs' : List (Nat × Nat)} (hperm : runs.Perm runs') :
    InRuns runs q ↔ InRuns runs' q := by
  simp only [InRuns, hperm.mem_iff]

/-- Runs that are apart are given back one after the other. -/
theorem putAll_spec (hinv : m.Inv) (hapart : runs.Pairwise Apart) (hne : ∀ g ∈ runs, g.2 ≠ 0)
    (hheld : ∀ g ∈ runs, m.HeldRun g.1 g.2) :
    ∃ m', runs.foldlM putPages m = .ok m' ∧ m'.Inv ∧
      ∀ q, m'.Held q ↔ m.Held q ∧ ¬ InRuns runs q := by
  induction runs generalizing m with
  | nil => exact ⟨m, rfl, hinv, fun q => by simp [InRuns]⟩
  | cons g runs ih =>
    obtain ⟨hfirst, hrest⟩ := List.pairwise_cons.mp hapart
    obtain ⟨m₁, hfree, hfreed⟩ :=
      hinv.free_spec (hne g List.mem_cons_self) (hheld g List.mem_cons_self)
    obtain ⟨m₂, hfold, hinv₂, hheld₂⟩ := ih hfreed.inv hrest
      (fun g' hg' => hne g' (List.mem_cons_of_mem g hg')) (by
        intro g' hg' q hle hlt
        rw [hfreed.held]
        refine ⟨hheld g' (List.mem_cons_of_mem g hg') q hle hlt, fun hin => ?_⟩
        have hgg' := hfirst g' hg'
        unfold Apart at hgg'
        omega)
    refine ⟨m₂, ?_, hinv₂, fun q => ?_⟩
    · rw [List.foldlM_cons, putPages, hfree]
      exact hfold
    · rw [hheld₂, hfreed.held, inRuns_cons, not_or, and_assoc]

/-! ## The steps -/

/-- What `malloc` gets from the page allocator is what the heap expects. -/
theorem getPages_spec (hs : s.Inv) (cnt : Nat) :
    (cnt = 0 ∨ ∀ page, ¬ s.pages.FreeRun false page cnt) ∧ getPages s.pages cnt = .ok (0, s.pages) ∨
    ∃ a m, getPages s.pages cnt = .ok (a * pgSize, m) ∧ a * pgSize ≠ 0 ∧ cnt ≠ 0 ∧
      s.heap.PageFree a cnt ∧ (∀ g ∈ s.others, Apart (a, cnt) g) ∧ m.Inv ∧
      ∀ q, m.Held q ↔ (a ≤ q ∧ q < a + cnt) ∨ s.pages.Held q := by
  by_cases hcnt : cnt = 0
  · left
    refine ⟨.inl hcnt, ?_⟩
    rw [getPages, Pages.pallocGetMultiple, if_pos hcnt]
    rfl
  · rcases hs.pages.get_spec hcnt ⟨false, false, false⟩ with
      ⟨a, m, hne, hget, hgranted⟩ | ⟨hnone, hget⟩
    · right
      have hapart : ∀ g ∈ s.heap.granted ++ s.others, Apart (a, cnt) g := by
        intro g hg
        refine apart_of_freeRun hs.held hgranted.free hcnt hg ?_
        rcases List.mem_append.mp hg with hg | hg
        · exact Nat.pos_iff_ne_zero.mp (hs.heap.pages g hg).2
        · exact (hs.nonempty g hg).2
      obtain ⟨i, hlast⟩ := (hgranted.free (a + cnt - 1) (by omega) (by omega)).1
      obtain ⟨-, hfits, -⟩ := hs.pages.numbers false
      refine ⟨a, m, by rw [getPages, hget]; rfl, Nat.mul_ne_zero hne (by decide), hcnt, ⟨hne, ?_, ?_⟩,
        ?_, hgranted.inv, hgranted.held⟩
      · obtain ⟨hi, heq⟩ := hlast
        refine le_trans (Nat.mul_le_mul_right pgSize ?_) hfits
        dsimp only at hi heq
        omega
      · exact fun g hg => hapart g (List.mem_append_left _ hg)
      · exact fun g hg => hapart g (List.mem_append_right _ hg)
    · left
      refine ⟨.inr hnone, ?_⟩
      rw [getPages, hget]
      rfl

theorem asks_eq (hasks : asks h size ≠ 0) : asks h size = Heap.pagesAsked size := by
  unfold asks Heap.pagesAsked at *
  by_cases hzero : size = 0
  · exact absurd (if_pos hzero) hasks
  rw [if_neg hzero] at hasks ⊢
  cases hfind : findDesc size with
  | none => rfl
  | some d =>
    rw [hfind] at hasks
    by_cases hempty : h.freeList d = []
    · exact if_pos hempty
    · exact absurd (if_neg hempty) hasks

/-- The heap of one state comes from that of the other by a call that the heap allows, or is the
same. -/
def HeapStep (h h' : Heap) : Prop := h' = h ∨ ∃ e, h.Admits e ∧ h.step e = .ok h'

/-- A call of `malloc` that gets no pages, or need not ask for any. -/
theorem Inv.malloc_noPages (hs : s.Inv) (hsize : size ≤ 2 ^ 20)
    (hget : getPages s.pages (asks s.heap size) = .ok (0, s.pages)) :
    ∃ r s', s.malloc size = .ok (r, s') ∧ s'.Inv ∧ HeapStep s.heap s'.heap ∧
      (r = none → ¬ s.heap.Serves size none) := by
  have hadmits : s.heap.Admits (.malloc size none) := ⟨hsize, fun _ ha => by cases ha⟩
  have hfinish : ∀ r h', s.heap.malloc size none = .ok (r, h') → h'.Inv →
      (r = none → ¬ s.heap.Serves size none) →
      ∃ r s', s.malloc size = .ok (r, s') ∧ s'.Inv ∧ HeapStep s.heap s'.heap ∧
        (r = none → ¬ s.heap.Serves size none) := by
    intro r h' hmalloc hinv hnone
    have hgranted := malloc_granted (fun _ => rfl) hmalloc
    rw [Option.toList_none, List.map_nil, List.nil_append] at hgranted
    refine ⟨r, { s with heap := h' }, ?_, ⟨hinv, hs.pages, ?_, hs.nonempty, ?_⟩,
      .inr ⟨_, hadmits, ?_⟩, hnone⟩
    · refine bind_eq_ok.mpr ⟨_, hget, bind_eq_ok.mpr ⟨(r, h'), ?_, rfl⟩⟩
      rw [if_pos rfl, hmalloc]
      rfl
    · rw [hgranted]
      exact hs.apart
    · rw [hgranted]
      exact hs.held
    · rw [Heap.step, hmalloc]
      rfl
  rcases @Heap.malloc_newBlock s.heap size none hs.heap (fun _ ha => by cases ha) with
    ⟨hserves, hmalloc⟩ | ⟨-, b, h', hmalloc, hnew⟩
  · exact hfinish none s.heap hmalloc hs.heap fun _ => hserves
  · exact hfinish (some b) h' hmalloc hnew.inv fun hnone => by cases hnone

/-- A call of `malloc` that gets the pages that it asks for. -/
theorem Inv.malloc_newPages {a : Nat} (hs : s.Inv) (hsize : size ≤ 2 ^ 20)
    (hget : getPages s.pages (asks s.heap size) = .ok (a * pgSize, m)) (hne : a * pgSize ≠ 0)
    (hasks : asks s.heap size ≠ 0) (hfree : s.heap.PageFree a (asks s.heap size))
    (hothers : ∀ g ∈ s.others, Apart (a, asks s.heap size) g) (hinv : m.Inv)
    (hheld : ∀ q, m.Held q ↔ (a ≤ q ∧ q < a + asks s.heap size) ∨ s.pages.Held q) :
    ∃ b s', s.malloc size = .ok (some b, s') ∧ s'.Inv ∧ HeapStep s.heap s'.heap := by
  have hasked := asks_eq hasks
  have hpageFree : ∀ a' ∈ some a, s.heap.PageFree a' (Heap.pagesAsked size) := by
    rintro a' ⟨⟩
    exact hasked ▸ hfree
  have hzero : size ≠ 0 := fun hzero => hasks (by rw [asks, if_pos hzero])
  rcases Heap.malloc_newBlock hs.heap
      (fun a' ha' => ⟨hasked ▸ Nat.pos_of_ne_zero hasks, hpageFree a' ha'⟩) with
    ⟨hserves, -⟩ | ⟨-, b, h', hmalloc, hnew⟩
  · exact absurd ⟨hzero, .inl (Option.some_ne_none a)⟩ hserves
  have hgranted := malloc_granted (fun hno => absurd hno hasks) hmalloc
  rw [Option.toList_some, List.map_singleton, List.singleton_append] at hgranted
  refine ⟨b, ⟨h', m, s.others⟩, ?_, ⟨hnew.inv, hinv, ?_, hs.nonempty, fun q => ?_⟩,
    .inr ⟨.malloc size (some a), ⟨hsize, hpageFree⟩, ?_⟩⟩
  · refine bind_eq_ok.mpr ⟨_, hget, bind_eq_ok.mpr ⟨(some b, h'), ?_, rfl⟩⟩
    rw [if_neg hne, Pages.pgNo_mul, hmalloc]
    rfl
  · dsimp only
    rw [hgranted, List.cons_append, List.pairwise_cons]
    refine ⟨fun g hg => ?_, hs.apart⟩
    rcases List.mem_append.mp hg with hg | hg
    · exact hfree.2.2 g hg
    · exact hothers g hg
  · dsimp only
    rw [hgranted, List.cons_append, inRuns_cons, hheld, hs.held]
  · rw [Heap.step, hmalloc]
    rfl

/-- `malloc` keeps the invariant, and returns `NULL` only if there is no memory. -/
theorem Inv.malloc_spec (hs : s.Inv) (hsize : size ≤ 2 ^ 20) :
    ∃ r s', s.malloc size = .ok (r, s') ∧ s'.Inv ∧ HeapStep s.heap s'.heap ∧
      (r = none → size ≠ 0 → asks s.heap size ≠ 0 ∧
        ∀ page, ¬ s.pages.FreeRun false page (asks s.heap size)) := by
  rcases getPages_spec hs (asks s.heap size) with
    ⟨hnone, hget⟩ | ⟨a, m, hget, hne, hasks, hfree, hothers, hinv, hheld⟩
  · obtain ⟨r, s', hmalloc, hinv, hstep, hserves⟩ := hs.malloc_noPages hsize hget
    refine ⟨r, s', hmalloc, hinv, hstep, fun hr hzero => ?_⟩
    have hasks : asks s.heap size ≠ 0 := by
      intro hasks
      refine hserves hr ⟨hzero, .inr ?_⟩
      rw [asks, if_neg hzero] at hasks
      cases hfind : findDesc size with
      | none =>
        rw [hfind] at hasks
        exact absurd hasks (Heap.pageCnt_bounds hsize).1.ne'
      | some d =>
        rw [hfind] at hasks
        exact ⟨d, rfl, fun hempty => Nat.one_ne_zero ((if_pos hempty).symm.trans hasks)⟩
    exact ⟨hasks, hnone.resolve_left hasks⟩
  · obtain ⟨b, s', hmalloc, hinv', hstep⟩ :=
      hs.malloc_newPages hsize hget hne hasks hfree hothers hinv hheld
    exact ⟨some b, s', hmalloc, hinv', hstep, fun hr => by cases hr⟩

/-- `free` gives back the run of a big block, or of an arena that has become unused. -/
theorem Inv.free_spec (hs : s.Inv) (hp : p = 0 ∨ p ∈ s.heap.live) :
    ∃ s', s.free p = .ok s' ∧ s'.Inv ∧ HeapStep s.heap s'.heap := by
  rcases hp with rfl | hp
  · have hfilter : s.heap.granted.filter (fun g => !s.heap.granted.contains g) = [] := by
      rw [List.filter_eq_nil_iff]
      simp
    refine ⟨s, ?_, hs, .inl rfl⟩
    refine bind_eq_ok.mpr ⟨s.heap, rfl, bind_eq_ok.mpr ⟨s.pages, ?_, rfl⟩⟩
    rw [hfilter]
    rfl
  obtain ⟨h', hfree, hfreed⟩ := Heap.free_spec hs.heap hp
  obtain ⟨m', hput, hinv, hheld⟩ :=
    putAll_spec hs.pages (hs.heap.disjoint.sublist List.filter_sublist)
      (fun g hg => (hs.heap.pages g (mem_filter_not_contains.mp hg).1).2.ne')
      (fun g hg => heldRun_of_mem hs.held
        (List.mem_append_left _ (mem_filter_not_contains.mp hg).1))
  obtain ⟨-, hothers, hcross⟩ := List.pairwise_append.mp hs.apart
  refine ⟨⟨h', m', s.others⟩, ?_, ⟨hfreed.inv, hinv, ?_, hs.nonempty, fun q => ?_⟩,
    .inr ⟨.free p, .inr hp, hfree⟩⟩
  · refine bind_eq_ok.mpr ⟨h', ?_, bind_eq_ok.mpr ⟨m', hput, rfl⟩⟩
    rw [hfree]
    rfl
  · exact List.pairwise_append.mpr ⟨hfreed.inv.disjoint, hothers,
      fun g hg => hcross g ((hfreed.granted g).mp hg).1⟩
  · have hkeep : ∀ runs, (∀ g ∈ runs, ∀ g' ∈ s.heap.granted, g' ∉ h'.granted → Apart g g') →
        InRuns runs q → ¬ InRuns (s.heap.granted.filter (fun g => !h'.granted.contains g)) q := by
      intro runs hruns
      refine not_inRuns_of_apart fun g hg g' hg' => ?_
      obtain ⟨hmem, hno⟩ := mem_filter_not_contains.mp hg'
      exact hruns g hg g' hmem hno
    have hheap := hkeep h'.granted fun g hg g' hg' hno =>
      hs.heap.disjoint.forall ((hfreed.granted g).mp hg).1 hg' fun heq => hno (heq ▸ hg)
    have hrest := hkeep s.others fun g hg g' hg' _ => (hcross g' hg' g hg).symm
    dsimp only
    rw [hheld, hs.held, inRuns_append, inRuns_append,
      inRuns_iff_of_part fun g hg => ((hfreed.granted g).mp hg).1]
    constructor
    · rintro ⟨(hkept | hgone) | hother, hno⟩
      exacts [.inl hkept, absurd hgone hno, .inr hother]
    · rintro (hkept | hother)
      exacts [⟨.inl (.inl hkept), hheap hkept⟩, ⟨.inr hother, hrest hother⟩]

/-- The rest of the kernel gets pages that nobody has. -/
theorem Inv.palloc_spec {flags : PallocFlags} (hs : s.Inv) (hflags : flags.assert = false)
    (cnt : Nat) : ∃ s', s.palloc flags cnt = .ok s' ∧ s'.Inv ∧ HeapStep s.heap s'.heap := by
  by_cases hcnt : cnt = 0
  · refine ⟨s, bind_eq_ok.mpr ⟨(0, s.pages), ?_, rfl⟩, hs, .inl rfl⟩
    rw [Pages.pallocGetMultiple, if_pos hcnt]
    rfl
  rcases hs.pages.get_spec hcnt flags with ⟨page, m, hne, hget, hgranted⟩ | ⟨-, hget⟩
  · have hapart : ∀ g ∈ s.heap.granted ++ s.others, Apart (page, cnt) g := by
      intro g hg
      refine apart_of_freeRun hs.held hgranted.free hcnt hg ?_
      rcases List.mem_append.mp hg with hg | hg
      · exact (hs.heap.pages g hg).2.ne'
      · exact (hs.nonempty g hg).2
    refine ⟨⟨s.heap, m, (page, cnt) :: s.others⟩, bind_eq_ok.mpr ⟨(page * pgSize, m), ?_, ?_⟩,
      ⟨hs.heap, hgranted.inv, ?_, ?_, fun q => ?_⟩, .inl rfl⟩
    · rw [hget]
      rfl
    · simp only [Pages.pgNo_mul, if_neg (Nat.mul_ne_zero hne (by decide : pgSize ≠ 0))]
      rfl
    · exact (List.perm_middle.pairwise_iff fun hxy => hxy.symm).mpr
        (List.pairwise_cons.mpr ⟨hapart, hs.apart⟩)
    · intro g hg
      rcases List.mem_cons.mp hg with rfl | hg
      · exact ⟨hne, hcnt⟩
      · exact hs.nonempty g hg
    · rw [inRuns_perm List.perm_middle, inRuns_cons, hgranted.held, hs.held]
  · rw [hflags, if_neg Bool.false_ne_true] at hget
    refine ⟨s, bind_eq_ok.mpr ⟨(0, s.pages), ?_, rfl⟩, hs, .inl rfl⟩
    rw [hget]
    rfl

/-- The rest of the kernel gives pages back. -/
theorem Inv.pfree_spec (hs : s.Inv) (hg : g ∈ s.others) :
    ∃ s', s.pfree g = .ok s' ∧ s'.Inv ∧ HeapStep s.heap s'.heap := by
  obtain ⟨m', hfree, hfreed⟩ := hs.pages.free_spec (hs.nonempty g hg).2
    (heldRun_of_mem hs.held (List.mem_append_right _ hg))
  have hperm : (s.heap.granted ++ s.others).Perm (g :: (s.heap.granted ++ s.others.erase g)) :=
    ((List.perm_cons_erase hg).append_left _).trans List.perm_middle
  obtain ⟨hfirst, hrest⟩ := List.pairwise_cons.mp
    ((hperm.pairwise_iff fun hxy => hxy.symm).mp hs.apart)
  refine ⟨⟨s.heap, m', s.others.erase g⟩, bind_eq_ok.mpr ⟨m', ?_, rfl⟩,
    ⟨hs.heap, hfreed.inv, hrest, fun g' hg' => hs.nonempty g' (List.mem_of_mem_erase hg'),
      fun q => ?_⟩, .inl rfl⟩
  · rw [putPages, hfree]
    rfl
  · rw [hfreed.held, hs.held, inRuns_perm hperm, inRuns_cons]
    have hno : InRuns (s.heap.granted ++ s.others.erase g) q → ¬ (g.1 ≤ q ∧ q < g.1 + g.2) := by
      rintro ⟨g', hg', hle, hlt⟩ hin
      have hgg' := hfirst g' hg'
      unfold Apart at hgg'
      omega
    exact ⟨fun ⟨hor, hnot⟩ => hor.resolve_left hnot, fun hin => ⟨.inr hin, hno hin⟩⟩

/-- Every call that may be made succeeds, keeps the invariant, and is a call that the heap allows. -/
theorem Inv.step {e : Event} (hs : s.Inv) (he : s.Admits e) :
    ∃ s', s.step e = .ok s' ∧ s'.Inv ∧ HeapStep s.heap s'.heap := by
  cases e with
  | malloc size =>
    obtain ⟨r, s', hmalloc, hinv, hstep, -⟩ := hs.malloc_spec he
    exact ⟨s', by rw [Kernel.step, hmalloc]; rfl, hinv, hstep⟩
  | free p => exact hs.free_spec he
  | palloc flags cnt => exact hs.palloc_spec he.1 cnt
  | pfree g => exact hs.pfree_spec he

/-! ## Runs -/

section Runs

variable {memory : Nat → Arena} {initRamPages userPageLimit : UInt32} {words : Nat → Nat → UInt32}
  {bytes : Nat → UInt8} {pages : Pages}

theorem start_inv (hpages : pages.Inv) (hnone : ∀ q, ¬ pages.Held q) :
    (start memory pages).Inv :=
  ⟨Heap.start_inv memory, hpages, List.Pairwise.nil, fun _ hg => (by cases hg),
    fun q => iff_of_false (hnone q) (by simp [InRuns, start, Heap.start])⟩

/-- The heap of a run is the heap of a run in which the page allocator is only assumed. -/
theorem reachable_inv (hlow : 256 ≤ initRamPages.toNat) (hhigh : initRamPages.toNat ≤ 2 ^ 18)
    (hstart : pallocInit initRamPages userPageLimit words bytes = .ok pages)
    (hr : Reachable step Admits (start memory pages) s) :
    s.Inv ∧ Reachable Heap.step Heap.Admits (Heap.start memory) s.heap := by
  induction hr with
  | start =>
    obtain ⟨hinv, hnone⟩ := Pages.pallocInit_spec hlow hhigh hstart
    exact ⟨start_inv hinv hnone, .start⟩
  | step _ he hs ih =>
    obtain ⟨hinv, hheap⟩ := ih
    obtain ⟨s₂, hstep, hinv₂, hheap₂⟩ := hinv.step he
    cases hs.symm.trans hstep
    refine ⟨hinv₂, ?_⟩
    rcases hheap₂ with heq | ⟨e, he, hstep⟩
    · rw [heq]
      exact hheap
    · exact .step hheap he hstep

/-- A block in use has no byte in common with the pages that another part of the kernel has got. -/
theorem Inv.block_outside (hs : s.Inv) (hp : p ∈ s.heap.live) (hg : g ∈ s.others) :
    p + s.heap.bytesOf p ≤ g.1 * pgSize ∨ (g.1 + g.2) * pgSize ≤ p := by
  obtain ⟨n, hrun, hlow, hhigh⟩ := hs.heap.toOk.extent hp
  obtain ⟨-, -, hcross⟩ := List.pairwise_append.mp hs.apart
  rcases hcross _ hrun _ hg with hle | hle
  · exact .inl (hhigh.trans (Nat.mul_le_mul_right pgSize hle))
  · exact .inr ((Nat.mul_le_mul_right pgSize hle).trans hlow)

/-- In every run of the two allocators, with sizes up to 1 MB and with other parts of the kernel getting and
freeing pages in between, the heap does what it does when its pages are only assumed to be free; its blocks
lie apart from each other and from the pages of the others; the pages handed out are exactly those of the heap
and of the others; every call that may be made succeeds; and for a size from 1 byte to 1 MB `malloc` fails only
for lack of pages. -/
theorem heap_over_palloc (hlow : 256 ≤ initRamPages.toNat) (hhigh : initRamPages.toNat ≤ 2 ^ 18)
    (hstart : pallocInit initRamPages userPageLimit words bytes = .ok pages)
    (hr : Reachable step Admits (start memory pages) s) :
    Reachable Heap.step Heap.Admits (Heap.start memory) s.heap ∧
    (∀ p ∈ s.heap.live,
      (∀ p' ∈ s.heap.live, p ≠ p' →
        p + s.heap.bytesOf p ≤ p' ∨ p' + s.heap.bytesOf p' ≤ p) ∧
      ∀ g ∈ s.others, p + s.heap.bytesOf p ≤ g.1 * pgSize ∨ (g.1 + g.2) * pgSize ≤ p) ∧
    (s.heap.granted ++ s.others).Pairwise Apart ∧
    (∀ q, s.pages.Held q ↔ InRuns (s.heap.granted ++ s.others) q) ∧
    (∀ e, s.Admits e → ∃ s', s.step e = .ok s') ∧
    ∀ size ≤ 2 ^ 20, size ≠ 0 → ∀ s', s.malloc size = .ok (none, s') →
      ∀ page, ¬ s.pages.FreeRun false page (Heap.pagesAsked size) := by
  obtain ⟨hinv, hheap⟩ := reachable_inv hlow hhigh hstart hr
  refine ⟨hheap, fun p hp => ⟨fun p' hp' hne => ?_, fun g hg => hinv.block_outside hp hg⟩, hinv.apart,
    hinv.held, fun e he => ?_, fun size hsize hzero s' hnull => ?_⟩
  · exact hinv.heap.toOk.live_disjoint hp hp' hne
  · obtain ⟨s', hstep, -⟩ := hinv.step he
    exact ⟨s', hstep⟩
  · obtain ⟨r, s₁, hmalloc, -, -, hfails⟩ := hinv.malloc_spec hsize
    cases hnull.symm.trans hmalloc
    obtain ⟨hasks, hnone⟩ := hfails rfl hzero
    rwa [← asks_eq hasks]

end Runs

/-- A block of 100 bytes, two pages for another part of the kernel, and a block of two pages. -/
def blocksAndPages : List Event := [.malloc 100, .palloc ⟨false, false, false⟩ 2, .malloc 5000]

theorem heap_over_palloc_blocksAndPages : ∃ pages s,
    pallocInit 270 2 (fun _ _ => 0) (fun _ => 0) = .ok pages ∧
    run step (fun s e => decide (s.Admits e)) (start (fun _ => ⟨0, none, 0⟩) pages) blocksAndPages =
      some s ∧
    s.heap.live = [3222290444, 3222278156] ∧ s.others = [(786690, 2)] ∧
    (3222278156 + s.heap.bytesOf 3222278156 ≤ 786690 * pgSize ∨
      (786690 + 2) * pgSize ≤ 3222278156) := by
  have hrun : ((pallocInit 270 2 (fun _ _ => 0) (fun _ => 0)).toOption.bind fun pages =>
      (run step (fun s e => decide (s.Admits e)) (start (fun _ => ⟨0, none, 0⟩) pages)
        blocksAndPages).map fun s => (s.heap.live, s.others)) =
      some ([3222290444, 3222278156], [(786690, 2)]) := by
    decide +kernel
  obtain ⟨pages, hstart⟩ : ∃ pages, pallocInit 270 2 (fun _ _ => 0) (fun _ => 0) = .ok pages := by
    cases hinit : pallocInit 270 2 (fun _ _ => 0) (fun _ => 0) with
    | error e =>
      rw [hinit] at hrun
      cases hrun
    | ok pages => exact ⟨pages, rfl⟩
  rw [hstart] at hrun
  obtain ⟨s, hs, hlists⟩ := Option.map_eq_some_iff.mp hrun
  obtain ⟨hlive, hothers⟩ := Prod.mk.inj hlists
  have hr : Reachable step Admits (start (fun _ => ⟨0, none, 0⟩) pages) s :=
    reachable_of_run (fun _ _ he => of_decide_eq_true he) .start hs
  obtain ⟨-, happart, -⟩ := heap_over_palloc (by decide) (by decide) hstart hr
  exact ⟨pages, s, hstart, hs, hlive, hothers,
    (happart 3222278156 (by simp [hlive])).2 (786690, 2) (by simp [hothers])⟩

end Kernel

end CSE130.Palloc
