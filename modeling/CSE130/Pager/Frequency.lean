import CSE130.Pager.ClockRefinement

/-!
# The least frequently used page

`simulator.h` asks `LEAST_FREQUENTLY_USED` for an infinite history: the page to drop is the one with
the fewest requests since `pager_init`. Dropping a page sets its entry of `freq_list` to 0, so that
the count of a page that returns starts anew. A page that is dropped for the first time has the
fewest requests of all; a page that has been dropped before may have more than another one.
-/

namespace CSE130.Pager

/-! ## The comparator -/

/-- The members of a record fit into an `int`. -/
def FreqPage.Fits (r : FreqPage) : Prop := r.uses < 2 ^ 31 ∧ r.last < 2 ^ 31

theorem sortFreq_eq {a b : FreqPage} (ha : a.Fits) (hb : b.Fits) :
    sortFreq a b = if a.uses = b.uses then (a.last - b.last : Int) else (a.uses - b.uses : Int) := by
  obtain ⟨hau, hal⟩ := ha
  obtain ⟨hbu, hbl⟩ := hb
  have huses : toInt32 (a.uses - b.uses) = (a.uses - b.uses : Int) := by
    apply toInt32_of_lt <;> omega
  have hlast : toInt32 (a.last - b.last) = (a.last - b.last : Int) := by
    apply toInt32_of_lt <;> omega
  unfold sortFreq
  rw [huses, hlast]
  by_cases h : a.uses = b.uses
  · simp [h]
  · have hne : (a.uses - b.uses : Int) ≠ 0 := by omega
    simp [h, hne]

/-- The comparator orders the records by their uses, and equally used ones by their last use. -/
theorem sortFreq_consistent {q : List FreqPage} (h : ∀ r ∈ q, r.Fits) : Consistent sortFreq q := by
  constructor
  · intro a ha b hb
    rw [sortFreq_eq (h a ha) (h b hb), sortFreq_eq (h b hb) (h a ha)]
    split_ifs <;> omega
  · intro a ha b hb c hc
    rw [sortFreq_eq (h a ha) (h b hb), sortFreq_eq (h b hb) (h c hc), sortFreq_eq (h a ha) (h c hc)]
    split_ifs <;> omega

/-- Insertion sort is a `queue_sort`. -/
def insertionQueueSort : QueueSort where
  sort := insertionSorted
  perm := insertionSorted_perm
  sorted _ _ h := insertionSorted_pairwise h

/-! ## The history of a run -/

section History

variable (lib : QueueSort)

/-- The pages that have been dropped in the course of the requests. -/
def evictions (p : PagerState) (requests : List Page) : List Page :=
  (pagerEffects lib p requests).filterMap Effect.evicted

theorem pagerRun_append (p : PagerState) (requests : List Page) (page : Page) :
    pagerRun lib p (requests ++ [page]) = (pagerRequest lib (pagerRun lib p requests) page).1 := by
  simp [pagerRun]

theorem pagerEffects_append (p : PagerState) (requests : List Page) (page : Page) :
    pagerEffects lib p (requests ++ [page]) =
      pagerEffects lib p requests ++ [(pagerRequest lib (pagerRun lib p requests) page).2] := by
  induction requests generalizing p with
  | nil => rfl
  | cons v requests ih =>
    simp only [List.cons_append, pagerEffects, ih]
    rfl

theorem evictions_append (p : PagerState) (requests : List Page) (page : Page) :
    evictions lib p (requests ++ [page]) = evictions lib p requests ++
      (pagerRequest lib (pagerRun lib p requests) page).2.evicted.toList := by
  unfold evictions
  rw [pagerEffects_append, List.filterMap_append]
  cases h : (pagerRequest lib (pagerRun lib p requests) page).2.evicted with
  | none => simp [h]
  | some t => simp [h]

end History

/-- The records and `freq_list` after `requests`, in whose course the pages `evicted` have been
dropped: the records hold the entries of `freq_list`, and an entry is the number of requests of its
page, unless the page has been dropped. -/
structure Records (requests evicted : List Page) (queue : List FreqPage) (freqList : Page → Int) :
    Prop where
  uses_eq : ∀ r ∈ queue, (r.uses : Int) = freqList r.page
  last_le : ∀ r ∈ queue, r.last ≤ requests.length
  nonneg : ∀ q, 0 ≤ freqList q
  le_count : ∀ q, freqList q ≤ requests.count q
  eq_count : ∀ q, q ∉ evicted → freqList q = requests.count q

section Records

variable {requests evicted : List Page} {queue queue' : List FreqPage} {freqList : Page → Int}
  {page : Page}

theorem Records.fits (h : Records requests evicted queue freqList)
    (hlen : requests.length < 2 ^ 31) : ∀ r ∈ queue, r.Fits := by
  intro r hr
  have huses := h.uses_eq r hr
  have hle := h.le_count r.page
  have hlast := h.last_le r hr
  have hcount := @List.count_le_length _ _ r.page requests
  constructor <;> omega

theorem Records.perm (h : Records requests evicted queue freqList) (hp : queue'.Perm queue) :
    Records requests evicted queue' freqList where
  uses_eq r hr := h.uses_eq r (hp.mem_iff.mp hr)
  last_le r hr := h.last_le r (hp.mem_iff.mp hr)
  nonneg := h.nonneg
  le_count := h.le_count
  eq_count := h.eq_count

/-- A request increments the entry of its page and the record that it finds. -/
theorem Records.touch (h : Records requests evicted queue freqList)
    (hlen : requests.length + 1 < 2 ^ 31) :
    Records (requests ++ [page]) evicted (queue.map (touch requests.length page))
      (Function.update freqList page (toInt32 (freqList page + 1))) := by
  have hcount := @List.count_le_length _ _ page requests
  have hnonneg := h.nonneg page
  have hle := h.le_count page
  have hnext : toInt32 (freqList page + 1) = freqList page + 1 := by
    apply toInt32_of_lt <;> omega
  rw [hnext]
  constructor
  · intro r hr
    obtain ⟨v, hv, rfl⟩ := List.mem_map.mp hr
    have huses := h.uses_eq v hv
    rw [touch_page]
    unfold CSE130.Pager.touch
    split_ifs with hpage
    · rw [hpage] at huses
      rw [hpage, Function.update_self]
      simp only
      rw [toUInt32_of_lt] <;> omega
    · rw [Function.update_of_ne hpage]
      exact huses
  · intro r hr
    obtain ⟨v, hv, rfl⟩ := List.mem_map.mp hr
    have hlast := h.last_le v hv
    have hstep : (toUInt32 requests.length : Int) = requests.length := by
      apply toUInt32_of_lt <;> omega
    unfold CSE130.Pager.touch
    simp only [List.length_append, List.length_singleton]
    split_ifs
    · simp only
      omega
    · omega
  · intro q
    by_cases hq : q = page
    · subst hq
      rw [Function.update_self]
      omega
    · rw [Function.update_of_ne hq]
      exact h.nonneg q
  · intro q
    by_cases hq : q = page
    · subst hq
      rw [Function.update_self, List.count_append, List.count_singleton_self]
      omega
    · rw [Function.update_of_ne hq, List.count_append, List.count_singleton, if_neg (by simp [Ne.symm hq])]
      exact h.le_count q
  · intro q hev
    have heq := h.eq_count q hev
    by_cases hq : q = page
    · subst hq
      rw [Function.update_self, List.count_append, List.count_singleton_self]
      omega
    · rw [Function.update_of_ne hq, List.count_append, List.count_singleton, if_neg (by simp [Ne.symm hq])]
      exact heq

/-- A page that is loaded gets its entry into its record. -/
theorem Records.push {step : Int} (h : Records requests evicted queue freqList)
    (hlen : requests.length < 2 ^ 31) (hstep : 0 ≤ step) (hstep' : step ≤ requests.length) :
    Records requests evicted
      (queue ++ [{ uses := toUInt32 (freqList page), page := page, last := toUInt32 step }])
      freqList := by
  have hcount := @List.count_le_length _ _ page requests
  have hnonneg := h.nonneg page
  have hle := h.le_count page
  refine ⟨?_, ?_, h.nonneg, h.le_count, h.eq_count⟩
  · intro r hr
    rcases List.mem_append.mp hr with hr | hr
    · exact h.uses_eq r hr
    · rw [List.mem_singleton.mp hr]
      apply toUInt32_of_lt <;> omega
  · intro r hr
    rcases List.mem_append.mp hr with hr | hr
    · exact h.last_le r hr
    · have hlast : (toUInt32 step : Int) = step := by
        apply toUInt32_of_lt <;> omega
      rw [List.mem_singleton.mp hr]
      simp only
      omega

/-- A page that is dropped loses its entry. -/
theorem Records.evict {t : FreqPage} (h : Records requests evicted (t :: queue) freqList)
    (hn : t.page ∉ queue.map FreqPage.page) :
    Records requests (evicted ++ [t.page]) queue (Function.update freqList t.page 0) := by
  constructor
  · intro r hr
    have hne : r.page ≠ t.page := by
      intro heq
      exact hn (heq ▸ List.mem_map_of_mem hr)
    rw [Function.update_of_ne hne]
    exact h.uses_eq r (List.mem_cons_of_mem t hr)
  · intro r hr
    exact h.last_le r (List.mem_cons_of_mem t hr)
  · intro q
    by_cases hq : q = t.page
    · rw [hq, Function.update_self]
    · rw [Function.update_of_ne hq]
      exact h.nonneg q
  · intro q
    by_cases hq : q = t.page
    · rw [hq, Function.update_self]
      omega
    · rw [Function.update_of_ne hq]
      exact h.le_count q
  · intro q hev
    have hq : q ≠ t.page ∧ q ∉ evicted := by
      simpa [not_or, and_comm] using hev
    rw [Function.update_of_ne hq.1]
    exact h.eq_count q hq.2

/-- The records of the sorted queue are in the order of their uses. -/
theorem Records.sorted (lib : QueueSort) (h : Records requests evicted queue freqList)
    (hlen : requests.length < 2 ^ 31) :
    (lib.sort sortFreq queue).Pairwise fun a b => a.uses ≤ b.uses := by
  have hfits := h.fits hlen
  have hperm := lib.perm sortFreq queue
  have hsorted := lib.sorted sortFreq queue (sortFreq_consistent hfits)
  refine hsorted.imp_of_mem ?_
  intro a b ha hb hle
  rw [sortFreq_eq (hfits a (hperm.mem_iff.mp ha)) (hfits b (hperm.mem_iff.mp hb))] at hle
  split_ifs at hle <;> omega

end Records

/-! ## Runs -/

/-- The state after `requests`, in whose course the pages `evicted` have been dropped. -/
structure Counted (requests evicted : List Page) (p : PagerState) : Prop where
  alg_eq : p.alg = .leastFrequentlyUsed
  step_eq : p.step = requests.length
  records : Records requests evicted p.freqQueue p.freqList
  sorted : p.freqQueue.Pairwise fun a b => a.uses ≤ b.uses

theorem pagerInit_counted (frames : UInt32) :
    Counted [] [] (pagerInit .leastFrequentlyUsed frames) := by
  refine ⟨rfl, rfl, ⟨?_, ?_, ?_, ?_, ?_⟩, List.Pairwise.nil⟩ <;> simp [pagerInit]

section Request

variable {lib : QueueSort} {requests evicted : List Page} {p : PagerState} {page : Page}
  {frames : UInt32}

/-- The state in which `find_elem_freq` leaves the pager. -/
def counting (p : PagerState) (page : Page) : PagerState :=
  { p with
    freqList := Function.update p.freqList page (toInt32 (p.freqList page + 1))
    freqQueue := p.freqQueue.map (touch p.step page) }

theorem pagerRequest_eq_freq (lib : QueueSort) (halg : p.alg = .leastFrequentlyUsed) :
    pagerRequest lib p page =
      let r := if page ∈ p.freqQueue.map FreqPage.page then (counting p page, {})
        else pagerFaultFreq (counting p page) page
      ({ r.1 with freqQueue := lib.sort sortFreq r.1.freqQueue, step := toInt32 (r.1.step + 1) },
        r.2) := by
  have hcirc : p.alg ≠ .circularQueue := by simp [halg]
  have hfreq : ¬ p.alg ≠ .leastFrequentlyUsed := by simp [halg]
  simp only [pagerRequest, if_neg hcirc, if_neg hfreq, pagerRequestFreq, findElemFreq_eq,
    printSorted_eq]
  by_cases hm : page ∈ p.freqQueue.map FreqPage.page <;> simp [hm, counting, halg]

/-- The miss in `pager_request`: the records and the page that it drops. -/
theorem pagerFaultFreq_records (h : Records requests evicted p.freqQueue p.freqList)
    (hn : (p.freqQueue.map FreqPage.page).Nodup) (hm : page ∉ p.freqQueue.map FreqPage.page)
    (hlen : requests.length < 2 ^ 31) (hstep : 0 ≤ p.step) (hstep' : p.step ≤ requests.length) :
    Records requests (evicted ++ (pagerFaultFreq p page).2.evicted.toList)
      (pagerFaultFreq p page).1.freqQueue (pagerFaultFreq p page).1.freqList ∧
    (pagerFaultFreq p page).1.alg = p.alg ∧ (pagerFaultFreq p page).1.step = p.step := by
  unfold pagerFaultFreq
  by_cases hfull : (p.freqQueue.length : Int) = p.maxSize
  · simp only [hfull, if_true]
    cases hq : p.freqQueue with
    | nil =>
      rw [hq] at h
      refine ⟨?_, rfl, rfl⟩
      simpa using @Records.push _ _ _ _ page _ h hlen hstep hstep'
    | cons t queue =>
      rw [hq] at h hn hm
      simp only [List.map_cons, List.nodup_cons, List.mem_cons, not_or] at hn hm
      have hpush := @Records.push _ _ _ _ page _ (h.evict hn.1) hlen hstep hstep'
      rw [Function.update_of_ne hm.1] at hpush
      exact ⟨hpush, rfl, rfl⟩
  · simp only [hfull, if_false]
    refine ⟨?_, trivial, trivial⟩
    simpa using @Records.push _ _ _ _ page _ h hlen hstep hstep'

/-- The step lemma. -/
theorem Counted.request (lib : QueueSort) (page : Page) (hp : p.Valid frames)
    (h : Counted requests evicted p) (hlen : requests.length + 1 < 2 ^ 31) :
    Counted (requests ++ [page]) (evicted ++ (pagerRequest lib p page).2.evicted.toList)
      (pagerRequest lib p page).1 := by
  have hn := hp.nodup
  simp only [PagerState.resident, h.alg_eq, if_true] at hn
  have hlen' : (requests ++ [page]).length < 2 ^ 31 := by simpa using hlen
  have htouch : Records (requests ++ [page]) evicted (counting p page).freqQueue
      (counting p page).freqList := by
    have htouch := @Records.touch _ _ _ _ page h.records hlen
    rw [← h.step_eq] at htouch
    exact htouch
  have hpages : (counting p page).freqQueue.map FreqPage.page = p.freqQueue.map FreqPage.page := by
    simp [counting, Function.comp_def]
  have hstep : (counting p page).step = requests.length := h.step_eq
  have hnext : toInt32 (requests.length + 1) = ((requests ++ [page]).length : Int) := by
    rw [List.length_append, List.length_singleton]
    push_cast
    apply toInt32_of_lt <;> omega
  rw [pagerRequest_eq_freq lib h.alg_eq]
  by_cases hm : page ∈ p.freqQueue.map FreqPage.page
  · simp only [hm, if_true, Option.toList_none, List.append_nil]
    refine ⟨h.alg_eq, ?_, htouch.perm (lib.perm _ _), htouch.sorted lib hlen'⟩
    rw [hstep, hnext]
  · simp only [hm, if_false]
    obtain ⟨hrecords, halg, hstep'⟩ := @pagerFaultFreq_records _ _ (counting p page) page htouch
      (hpages ▸ hn) (hpages ▸ hm) hlen' (by omega)
      (by rw [hstep, List.length_append]; omega)
    refine ⟨halg.trans h.alg_eq, ?_, hrecords.perm (lib.perm _ _), hrecords.sorted lib hlen'⟩
    rw [hstep', hstep, hnext]

/-- The page that a request drops is at the head of a full queue. -/
theorem head_of_evicted {t : Page} (halg : p.alg = .leastFrequentlyUsed)
    (h : (pagerRequest lib p page).2.evicted = some t) :
    page ∉ p.resident ∧ (p.freqQueue.length : Int) = p.maxSize ∧
      ∃ r queue, p.freqQueue = r :: queue ∧ r.page = t := by
  rw [pagerRequest_eq_freq lib halg] at h
  simp only [PagerState.resident, halg, if_true]
  by_cases hm : page ∈ p.freqQueue.map FreqPage.page
  · simp [hm] at h
  · simp only [hm, if_false, pagerFaultFreq] at h
    refine ⟨hm, ?_⟩
    split_ifs at h with hfull
    refine ⟨by simpa [counting] using hfull, ?_⟩
    cases hq : p.freqQueue with
    | nil => simp [counting, hq] at h
    | cons r queue =>
      refine ⟨r, queue, rfl, ?_⟩
      simpa [counting, hq] using h

end Request

/-- If the page that a request drops has not been dropped before, it has the fewest requests. The
page is the one at the head of the full queue. -/
theorem Counted.least {requests evicted : List Page} {p : PagerState} {r : FreqPage}
    {queue : List FreqPage} (h : Counted requests evicted p) (hq : p.freqQueue = r :: queue)
    (hfresh : r.page ∉ evicted) : ∀ q ∈ p.resident, requests.count r.page ≤ requests.count q := by
  intro q hmem
  simp only [PagerState.resident, h.alg_eq, if_true] at hmem
  obtain ⟨v, hv, rfl⟩ := List.mem_map.mp hmem
  have huses : r.uses ≤ v.uses := by
    have hsorted := h.sorted
    rw [hq] at hsorted hv
    rcases List.mem_cons.mp hv with rfl | hv
    · exact Nat.le_refl _
    · exact (List.pairwise_cons.mp hsorted).1 v hv
  have hr := h.records.uses_eq r (by simp [hq])
  have hv' := h.records.uses_eq v hv
  have heq := h.records.eq_count r.page hfresh
  have hle := h.records.le_count v.page
  omega

section Run

variable (lib : QueueSort) (frames : UInt32)

/-- The state after a sequence of requests under `LEAST_FREQUENTLY_USED`. -/
abbrev freqRun (requests : List Page) : PagerState :=
  pagerRun lib (pagerInit .leastFrequentlyUsed frames) requests

/-- The pages dropped in the course of a sequence of requests under `LEAST_FREQUENTLY_USED`. -/
abbrev freqEvictions (requests : List Page) : List Page :=
  evictions lib (pagerInit .leastFrequentlyUsed frames) requests

/-- The request of `page` after `requests` finds it resident, or a free frame, or at the head of the
queue a page that has not been dropped before. -/
def DropsNoReturned (requests : List Page) (page : Page) : Prop :=
  page ∉ (freqRun lib frames requests).resident →
    ((freqRun lib frames requests).freqQueue.length : Int) = (freqRun lib frames requests).maxSize →
    ∀ r ∈ (freqRun lib frames requests).freqQueue.head?, r.page ∉ freqEvictions lib frames requests

instance (requests : List Page) (page : Page) :
    Decidable (DropsNoReturned lib frames requests page) :=
  inferInstanceAs (Decidable (_ → _ → _))

/-- If the request of `page` after `requests` drops a page, this page has the fewest requests among
the resident ones. -/
def DropsLeast (requests : List Page) (page : Page) : Prop :=
  ∀ t, (pagerRequest lib (freqRun lib frames requests) page).2.evicted = some t →
    ∀ q ∈ (freqRun lib frames requests).resident, requests.count t ≤ requests.count q

theorem freqRun_counted (hf : 1 ≤ frames.toNat) (requests : List Page)
    (hlen : requests.length < 2 ^ 31) :
    Counted requests (freqEvictions lib frames requests) (freqRun lib frames requests) := by
  induction requests using List.reverseRecOn with
  | nil => exact pagerInit_counted frames
  | append_singleton requests page ih =>
    rw [List.length_append, List.length_singleton] at hlen
    have hvalid := pagerRun_valid lib hf requests (pagerInit_valid .leastFrequentlyUsed frames)
    have hstep := (ih (by omega)).request lib page hvalid hlen
    rw [freqRun, freqEvictions, pagerRun_append, evictions_append]
    exact hstep

/-- In every run that never drops a page for the second time, each page that is dropped has the
fewest requests since `pager_init` among the resident pages. -/
theorem lfu_drops_least (hf : 1 ≤ frames) (requests : List Page) (hlen : requests.length < 2 ^ 31)
    (hkeeps : ∀ pre page post, requests = pre ++ page :: post → DropsNoReturned lib frames pre page) :
    ∀ pre page post, requests = pre ++ page :: post → DropsLeast lib frames pre page := by
  intro pre page post hsplit t hevict
  have hf' : 1 ≤ frames.toNat := UInt32.le_iff_toNat_le.mp hf
  have hpre : pre.length < 2 ^ 31 := by
    have hlength := congrArg List.length hsplit
    rw [List.length_append] at hlength
    omega
  have hcounted := freqRun_counted lib frames hf' pre hpre
  obtain ⟨hmiss, hfull, r, queue, hq, rfl⟩ := head_of_evicted hcounted.alg_eq hevict
  refine hcounted.least hq (hkeeps pre page post hsplit hmiss hfull r ?_)
  rw [hq]
  rfl

end Run

/-- Page 7 has been requested twice when page 8 is dropped. -/
theorem lfu_drops_least_firstEviction :
    (pagerRequest insertionQueueSort (freqRun insertionQueueSort 2 [7, 7, 8]) 9).2.evicted = some 8 ∧
      DropsLeast insertionQueueSort 2 [7, 7, 8] 9 := by
  refine ⟨by decide +kernel, ?_⟩
  apply lfu_drops_least insertionQueueSort 2 (by decide) [7, 7, 8, 9] (by simp) ?_ _ _ [] rfl
  intro pre page post hsplit
  rcases pre with _ | ⟨u, _ | ⟨v, _ | ⟨w, _ | ⟨x, pre⟩⟩⟩⟩ <;>
    simp only [List.nil_append, List.cons_append, List.cons.injEq] at hsplit
  · obtain ⟨rfl, -⟩ := hsplit
    decide +kernel
  · obtain ⟨rfl, rfl, -⟩ := hsplit
    decide +kernel
  · obtain ⟨rfl, rfl, rfl, -⟩ := hsplit
    decide +kernel
  · obtain ⟨rfl, rfl, rfl, rfl, -⟩ := hsplit
    decide +kernel
  · simp at hsplit

/-- With two frames page 7 is dropped, returns and is dropped again after four requests, while page
8, requested three times, stays. -/
theorem lfu_drops_returned_page :
    ¬ DropsLeast insertionQueueSort 2 [7, 7, 8, 8, 8, 9, 7, 7] 10 := by
  intro h
  have hevict : (pagerRequest insertionQueueSort
      (freqRun insertionQueueSort 2 [7, 7, 8, 8, 8, 9, 7, 7]) 10).2.evicted = some 7 := by
    decide +kernel
  have hres : (8 : Page) ∈ (freqRun insertionQueueSort 2 [7, 7, 8, 8, 8, 9, 7, 7]).resident := by
    decide +kernel
  have hle := h 7 hevict 8 hres
  revert hle
  decide +kernel

end CSE130.Pager
