import Mathlib.Algebra.Ring.Int.Defs
import Mathlib.Algebra.Ring.Nat
import Mathlib.Data.List.Sort

/-!
# The pager of Assignment 5

Rendering of `Assignment5/pager.c`. The queue library behind it is only present as the header
`queue.h`: its queues are lists here, with the head of the queue first, and `queue_sort` is a
parameter of which only what the header documents is known. The arrays `bit_refs` and
`freq_list` have 1000000 entries, so page numbers are taken from `Fin 1000000`. `malloc` succeeds.
-/

namespace CSE130.Pager

/-- `enum algorithm` (`simulator.h:21-27`). -/
inductive Algorithm where
  | firstInFirstOut
  | leastRecentlyUsed
  | leastFrequentlyUsed
  | secondChance
  | circularQueue
  deriving DecidableEq, Repr

/-- Virtual page numbers, the indices of `bit_refs` and `freq_list`. -/
abbrev Page := Fin 1000000

/-- `struct freq_page`. The three members are `unsigned int`. -/
structure FreqPage where
  uses : Nat
  page : Page
  last : Nat
  deriving DecidableEq, Repr

/-- The value of an `int` after an operation whose exact result is `z`. -/
def toInt32 (z : Int) : Int := z.bmod (2 ^ 32)

/-- The value of an `unsigned int` after an operation whose exact result is `z`. -/
def toUInt32 (z : Int) : Nat := (z % 2 ^ 32).toNat

theorem toInt32_of_lt {z : Int} (h : -2 ^ 31 ≤ z) (h' : z < 2 ^ 31) : toInt32 z = z := by
  unfold toInt32
  rw [Int.bmod_def]
  split <;> omega

theorem toUInt32_of_lt {z : Int} (h : 0 ≤ z) (h' : z < 2 ^ 32) : (toUInt32 z : Int) = z := by
  unfold toUInt32
  omega

/-! ## The queue library -/

/-- `queue_dequeue`: the head item and the rest. A page is stored as a pointer of the same
number, so that the `NULL` returned for an empty queue reads as page 0. -/
def queueDequeue : List Page → Page × List Page
  | [] => (0, [])
  | v :: q => (v, q)

/-- The loop `while (queue_size(a) > 0) queue_enqueue(b, queue_dequeue(a))`; its result is the
final content of `b`. -/
def drainInto {α : Type} : List α → List α → List α
  | [], b => b
  | v :: a, b => drainInto a (b ++ [v])

/-- A comparator that orders the elements of `q` consistently. -/
structure Consistent {α : Type} (cmp : α → α → Int) (q : List α) : Prop where
  total : ∀ a ∈ q, ∀ b ∈ q, cmp a b ≤ 0 ∨ cmp b a ≤ 0
  trans : ∀ a ∈ q, ∀ b ∈ q, ∀ c ∈ q, cmp a b ≤ 0 → cmp b c ≤ 0 → cmp a c ≤ 0

section Insertion

variable {α : Type} {cmp : α → α → Int} {q : List α}

/-- The elements of `q` by insertion sort, which compares elements of `q` only. -/
def insertionSorted (cmp : α → α → Int) (q : List α) : List α :=
  (q.attach.insertionSort fun a b => cmp a.1 b.1 ≤ 0).map Subtype.val

theorem insertionSorted_perm (cmp : α → α → Int) (q : List α) : (insertionSorted cmp q).Perm q := by
  have hperm := (List.perm_insertionSort (fun a b : { v // v ∈ q } => cmp a.1 b.1 ≤ 0) q.attach).map
    Subtype.val
  simpa [insertionSorted] using hperm

theorem insertionSorted_pairwise (h : Consistent cmp q) :
    (insertionSorted cmp q).Pairwise fun a b => cmp a b ≤ 0 := by
  let r : { v // v ∈ q } → { v // v ∈ q } → Prop := fun a b => cmp a.1 b.1 ≤ 0
  have : Std.Total r := ⟨fun a b => h.total a.1 a.2 b.1 b.2⟩
  have : IsTrans _ r := ⟨fun a b c => h.trans a.1 a.2 b.1 b.2 c.1 c.2⟩
  rw [insertionSorted, List.pairwise_map]
  exact List.pairwise_insertionSort r q.attach

end Insertion

/-- `queue_sort`, as `queue.h` documents it: the items are rearranged, and they end in the order
of the comparator where it orders them consistently. -/
structure QueueSort where
  sort : (FreqPage → FreqPage → Int) → List FreqPage → List FreqPage
  perm : ∀ cmp q, (sort cmp q).Perm q
  sorted : ∀ cmp q, Consistent cmp q → (sort cmp q).Pairwise fun a b => cmp a b ≤ 0

/-- Merge sort is such a `queue_sort`. -/
def mergeQueueSort : QueueSort where
  sort cmp q := (q.attach.mergeSort fun a b => cmp a.1 b.1 ≤ 0).map Subtype.val
  perm cmp q := by
    simpa using (List.mergeSort_perm q.attach fun a b => cmp a.1 b.1 ≤ 0).map Subtype.val
  sorted cmp q h := by
    rw [List.pairwise_map]
    let le : { v // v ∈ q } → { v // v ∈ q } → Bool := fun a b => cmp a.1 b.1 ≤ 0
    have trans : ∀ a b c, le a b → le b c → le a c := fun a b c => by
      simpa [le] using h.trans a.1 a.2 b.1 b.2 c.1 c.2
    have total : ∀ a b, le a b || le b a := fun a b => by
      simpa [le] using h.total a.1 a.2 b.1 b.2
    exact (List.pairwise_mergeSort trans total q.attach).imp fun hab => of_decide_eq_true hab

/-! ## The pager -/

/-- The global variables of `pager.c`. The variable `queue` holds page numbers, except under
`LEAST_FREQUENTLY_USED`, where it holds records: these are two fields here. -/
structure PagerState where
  maxSize : Int
  alg : Algorithm
  queue : List Page
  freqQueue : List FreqPage
  bitRefs : Page → Int
  freqList : Page → Int
  step : Int

/-- `pager_init` (`pager.c:30-38`), with the two arrays zero-filled. `frames` is an `unsigned int`,
`max_size` an `int`. -/
def pagerInit (algorithm : Algorithm) (frames : UInt32) : PagerState where
  maxSize := toInt32 frames.toNat
  alg := algorithm
  queue := []
  freqQueue := []
  bitRefs := fun _ => 0
  freqList := fun _ => 0
  step := 0

/-- The pages in physical memory. -/
def PagerState.resident (p : PagerState) : List Page :=
  if p.alg = .leastFrequentlyUsed then p.freqQueue.map FreqPage.page else p.queue

/-- The first loop of `find_elem`: it empties the queue into `temp`, with the array `bits` and
the variable `flag` as they stand. -/
def findElemLoop (alg : Algorithm) (val : Page) :
    List Page → List Page → (Page → Int) → Bool → List Page × (Page → Int) × Bool
  | [], temp, bits, flag => (temp, bits, flag)
  | v :: q, temp, bits, flag =>
    if v ≠ val then
      findElemLoop alg val q (temp ++ [v]) bits flag
    else
      let temp := if alg ≠ .leastRecentlyUsed then temp ++ [v] else temp
      let bits := if alg = .secondChance then Function.update bits val 1 else bits
      let bits := if alg = .circularQueue then Function.update bits val 0 else bits
      findElemLoop alg val q temp bits true

/-- `find_elem` (`pager.c:63-91`): whether `val` was found, and the state it leaves. -/
def findElem (p : PagerState) (val : Page) : Bool × PagerState :=
  let (temp, bits, flag) := findElemLoop p.alg val p.queue [] p.bitRefs false
  (flag, { p with queue := drainInto temp [], bitRefs := bits })

/-- The first loop of `find_elem_freq`. -/
def findElemFreqLoop (step : Int) (val : Page) :
    List FreqPage → List FreqPage → Bool → List FreqPage × Bool
  | [], temp, flag => (temp, flag)
  | v :: q, temp, flag =>
    if v.page ≠ val then
      findElemFreqLoop step val q (temp ++ [v]) flag
    else
      let v := { v with uses := toUInt32 (v.uses + 1), last := toUInt32 step }
      findElemFreqLoop step val q (temp ++ [v]) true

/-- `find_elem_freq` (`pager.c:93-118`). -/
def findElemFreq (p : PagerState) (val : Page) : Bool × PagerState :=
  let (temp, flag) := findElemFreqLoop p.step val p.freqQueue [] false
  (flag, { p with freqQueue := drainInto temp [] })

/-- `sort_freq` (`pager.c:121-126`): both differences are taken in `unsigned int` and read back as
`int`. -/
def sortFreq (a b : FreqPage) : Int :=
  let x := toInt32 (a.uses - b.uses)
  if x = 0 then toInt32 (a.last - b.last) else x

/-- `print_sorted` (`pager.c:128-139`), which empties the queue and refills it; the printed lines
are left out. -/
def printSorted (q : List FreqPage) : List FreqPage := drainInto (drainInto q []) []

/-- What a request shows outside the pager: the calls of `sim_get_page`, the page dropped from
physical memory, and how often the eviction loop went round. -/
structure Effect where
  simGetPage : List Page := []
  evicted : Option Page := none
  rotations : Nat := 0
  deriving DecidableEq, Repr

/-- What an eviction loop leaves: the page in `temp`, the queue and the array. -/
structure Scan where
  temp : Page
  queue : List Page
  bits : Page → Int
  rotations : Nat

theorem queueDequeue_append (q : List Page) (v : Page) :
    (queueDequeue (q ++ [v])).1 :: (queueDequeue (q ++ [v])).2 = q ++ [v] := by
  cases q <;> rfl

/-- Clearing the mark of `temp` lowers the number of marked pages. -/
theorem countP_clear_lt (mark : Int) (temp : Page) (queue : List Page) (bits : Page → Int)
    (h : bits temp = mark) :
    (queue ++ [temp]).countP (fun v => Function.update bits temp (1 - mark) v = mark) <
      (temp :: queue).countP (fun v => bits v = mark) := by
  have hne : (1 - mark : Int) ≠ mark := by omega
  have hle : queue.countP (fun v => Function.update bits temp (1 - mark) v = mark) ≤
      queue.countP (fun v => bits v = mark) := by
    apply List.countP_mono_left
    intro v _ hv
    by_cases hvt : v = temp
    · subst hvt; simp [hne] at hv
    · simpa [Function.update_of_ne hvt] using hv
  simp [List.countP_append, h, hne]
  omega

/-- The eviction loops of `pager_request`, entered with `temp` just dequeued:
`while (bit_refs[temp] == mark)` the mark is cleared, `temp` is enqueued again and the next page
dequeued. Under `SECOND_CHANCE` the mark is 1 and under `CIRCULAR_QUEUE` it is 0. -/
def evictLoop (mark : Int) (temp : Page) (queue : List Page) (bits : Page → Int) : Scan :=
  if _ : bits temp = mark then
    let bits := Function.update bits temp (1 - mark)
    let next := queueDequeue (queue ++ [temp])
    let scan := evictLoop mark next.1 next.2 bits
    { scan with rotations := scan.rotations + 1 }
  else
    { temp := temp, queue := queue, bits := bits, rotations := 0 }
termination_by (temp :: queue).countP fun v => bits v = mark
decreasing_by
  rw [queueDequeue_append]
  exact countP_clear_lt mark temp queue _ ‹_›

/-- The eviction of `pager_request` in a full queue by a loop that skips pages marked `mark`. -/
def evictMarked (mark : Int) (p : PagerState) (page : Page) : PagerState × Effect :=
  let (temp, queue) := queueDequeue p.queue
  let scan := evictLoop mark temp queue p.bitRefs
  ({ p with queue := scan.queue ++ [page], bitRefs := scan.bits },
    { simGetPage := [page], evicted := some scan.temp, rotations := scan.rotations })

/-- The `alg == 3` eviction (`pager.c:156-162`). -/
def evictSecondChance : PagerState → Page → PagerState × Effect := evictMarked 1

/-- The `alg == 4` eviction (`pager.c:163-170`). -/
def evictCircularQueue : PagerState → Page → PagerState × Effect := evictMarked 0

/-- `pager_request` for `alg != 2` after a miss (`pager.c:152-176`). -/
def pagerFault (p : PagerState) (page : Page) : PagerState × Effect :=
  if (p.queue.length : Int) = p.maxSize then
    if p.alg = .secondChance then evictSecondChance p page
    else if p.alg = .circularQueue then evictCircularQueue p page
    else
      let (temp, queue) := queueDequeue p.queue
      ({ p with queue := queue ++ [page] }, { simGetPage := [page], evicted := some temp })
  else
    ({ p with queue := p.queue ++ [page] }, { simGetPage := [page] })

/-- `pager_request` for `alg != 2`. -/
def pagerRequestQueue (p : PagerState) (page : Page) : PagerState × Effect :=
  let (found, p) := findElem p page
  if found then
    if p.alg = .leastRecentlyUsed then ({ p with queue := p.queue ++ [page] }, {}) else (p, {})
  else pagerFault p page

/-- `pager_request` for `alg == 2` after a miss (`pager.c:180-195`). With at least one frame a
full queue has a head `t`. -/
def pagerFaultFreq (p : PagerState) (page : Page) : PagerState × Effect :=
  let r : FreqPage :=
    { uses := toUInt32 (p.freqList page), page := page, last := toUInt32 p.step }
  if (p.freqQueue.length : Int) = p.maxSize then
    match p.freqQueue with
    | t :: queue =>
      ({ p with freqQueue := queue ++ [r], freqList := Function.update p.freqList t.page 0 },
        { simGetPage := [page], evicted := some t.page })
    | [] => ({ p with freqQueue := [r] }, { simGetPage := [page] })
  else
    ({ p with freqQueue := p.freqQueue ++ [r] }, { simGetPage := [page] })

/-- `pager_request` for `alg == 2`. -/
def pagerRequestFreq (lib : QueueSort) (p : PagerState) (page : Page) : PagerState × Effect :=
  let p := { p with freqList := Function.update p.freqList page (toInt32 (p.freqList page + 1)) }
  let (found, p) := findElemFreq p page
  let (p, effect) := if found then (p, {}) else pagerFaultFreq p page
  ({ p with freqQueue := printSorted (lib.sort sortFreq p.freqQueue) }, effect)

/-- `pager_request` (`pager.c:142-200`). -/
def pagerRequest (lib : QueueSort) (p : PagerState) (page : Page) : PagerState × Effect :=
  let p := if p.alg = .circularQueue then
    { p with bitRefs := Function.update p.bitRefs page 0 } else p
  let (p, effect) :=
    if p.alg ≠ .leastFrequentlyUsed then pagerRequestQueue p page
    else pagerRequestFreq lib p page
  ({ p with step := toInt32 (p.step + 1) }, effect)

/-- The state after a sequence of requests. -/
def pagerRun (lib : QueueSort) (p : PagerState) (requests : List Page) : PagerState :=
  requests.foldl (fun p page => (pagerRequest lib p page).1) p

end CSE130.Pager
