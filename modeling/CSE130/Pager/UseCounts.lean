import CSE130.Pager.Frequency
import CSE130.Library.Recency

/-!
# The counters of the least frequently used page

Under `LEAST_FREQUENTLY_USED` the uses of a page are counted twice: in its record and in `freq_list`,
which outlives the record and is set back when the page is dropped. In every run both counts are the
number of requests since the page was last loaded, and the queue is in the order of the counts, with
the latest requests for the order of equal ones. A miss does not change the records of the other
pages, so that the head of the queue that the previous request has sorted is still the one to drop.
-/

namespace CSE130.Pager

open CSE130.Recency (lastIndex)

/-- The number of requests for `page` since it was last loaded, the loading request included. What
the requests have fetched is listed in `loads`. -/
def usesSince (loads : List (List Page)) (requests : List Page) (page : Page) : Nat :=
  (requests.drop (lastIndex loads [page])).count page

/-- The record `a` has fewer uses than `b`, or as many and an earlier latest request. -/
def FreqPage.Before (a b : FreqPage) : Prop := a.uses < b.uses ∨ a.uses = b.uses ∧ a.last < b.last

/-- The records and `freq_list` after `requests` that have fetched `loads`. -/
structure Tallied (requests : List Page) (loads : List (List Page)) (queue : List FreqPage)
    (freqList : Page → Int) : Prop where
  length_eq : loads.length = requests.length
  loaded : ∀ r ∈ queue, [r.page] ∈ loads
  requested : ∀ r ∈ queue, r.page ∈ requests
  uses_eq : ∀ r ∈ queue, r.uses = usesSince loads requests r.page
  last_eq : ∀ r ∈ queue, r.last = lastIndex requests r.page
  entry_eq : ∀ r ∈ queue, freqList r.page = r.uses
  entry_zero : ∀ q, q ∉ queue.map FreqPage.page → freqList q = 0

section Tallied

variable {requests : List Page} {loads : List (List Page)} {queue queue' : List FreqPage}
  {freqList : Page → Int} {page v : Page} {fetched : List Page}

theorem usesSince_append_self (hlen : loads.length = requests.length) (page : Page) :
    usesSince (loads ++ [[page]]) (requests ++ [page]) page = 1 := by
  rw [usesSince, Recency.lastIndex_append_self, hlen, List.drop_left, List.count_singleton_self]

/-- A request that does not load `v` adds to the uses of `v` only if it is for `v`. -/
theorem usesSince_append (hlen : loads.length = requests.length) (hv : [v] ∈ loads)
    (hf : fetched ≠ [v]) (page : Page) :
    usesSince (loads ++ [fetched]) (requests ++ [page]) v =
      usesSince loads requests v + if page = v then 1 else 0 := by
  have hlt := Recency.lastIndex_lt hv
  rw [usesSince, Recency.lastIndex_append_of_ne hf hv, List.drop_append_of_le_length (by omega),
    List.count_append, List.count_singleton]
  simp only [usesSince, beq_iff_eq]

theorem Tallied.uses_le (h : Tallied requests loads queue freqList) {r : FreqPage} (hr : r ∈ queue) :
    r.uses ≤ requests.length := by
  rw [h.uses_eq r hr, usesSince]
  calc (requests.drop _).count r.page ≤ (requests.drop _).length := List.count_le_length
    _ ≤ requests.length := by simp

theorem Tallied.last_lt (h : Tallied requests loads queue freqList) {r : FreqPage} (hr : r ∈ queue) :
    r.last < requests.length := by
  rw [h.last_eq r hr]
  exact Recency.lastIndex_lt (h.requested r hr)

theorem Tallied.perm (h : Tallied requests loads queue freqList) (hp : queue'.Perm queue) :
    Tallied requests loads queue' freqList where
  length_eq := h.length_eq
  loaded r hr := h.loaded r (hp.mem_iff.mp hr)
  requested r hr := h.requested r (hp.mem_iff.mp hr)
  uses_eq r hr := h.uses_eq r (hp.mem_iff.mp hr)
  last_eq r hr := h.last_eq r (hp.mem_iff.mp hr)
  entry_eq r hr := h.entry_eq r (hp.mem_iff.mp hr)
  entry_zero q hq := h.entry_zero q fun hc => hq ((hp.map FreqPage.page).mem_iff.mpr hc)

/-- What a request that fetches something else leaves of the record of another page. -/
theorem Tallied.other (h : Tallied requests loads queue freqList) {r : FreqPage} (hr : r ∈ queue)
    (hne : page ≠ r.page) (hf : fetched ≠ [r.page]) :
    r.uses = usesSince (loads ++ [fetched]) (requests ++ [page]) r.page ∧
      r.last = lastIndex (requests ++ [page]) r.page := by
  rw [usesSince_append h.length_eq (h.loaded r hr) hf, if_neg hne,
    Recency.lastIndex_append_of_ne hne (h.requested r hr)]
  exact ⟨h.uses_eq r hr, h.last_eq r hr⟩

/-- A hit: the entry and the record of the page count one use more. -/
theorem Tallied.hit (h : Tallied requests loads queue freqList)
    (hm : page ∈ queue.map FreqPage.page) (hlen : requests.length + 1 < 2 ^ 31) :
    Tallied (requests ++ [page]) (loads ++ [[]]) (queue.map (touch requests.length page))
      (Function.update freqList page (toInt32 (freqList page + 1))) := by
  have hstep : (toUInt32 requests.length : Int) = requests.length := by
    apply toUInt32_of_lt <;> omega
  obtain ⟨w, hw, hwpage⟩ := List.mem_map.mp hm
  have hentry := h.entry_eq w hw
  have hle := h.uses_le hw
  rw [hwpage] at hentry
  have hnext : toInt32 (freqList page + 1) = freqList page + 1 := by
    apply toInt32_of_lt <;> omega
  rw [hnext]
  have hold : ∀ r ∈ queue.map (touch requests.length page),
      ∃ s ∈ queue, touch requests.length page s = r := fun r hr => List.mem_map.mp hr
  refine ⟨by simp [h.length_eq], ?_, ?_, ?_, ?_, ?_, ?_⟩
  · intro r hr
    obtain ⟨s, hs, rfl⟩ := hold r hr
    simp [h.loaded s hs]
  · intro r hr
    obtain ⟨s, hs, rfl⟩ := hold r hr
    simp [h.requested s hs]
  · intro r hr
    obtain ⟨s, hs, rfl⟩ := hold r hr
    rw [touch_page]
    by_cases hpage : s.page = page
    · have huses := h.uses_eq s hs
      have hles := h.uses_le hs
      have hadd : (toUInt32 (s.uses + 1) : Int) = s.uses + 1 := by apply toUInt32_of_lt <;> omega
      rw [usesSince_append h.length_eq (h.loaded s hs) (by simp), if_pos hpage.symm, ← huses, touch,
        if_pos hpage]
      simp only
      omega
    · rw [touch, if_neg hpage]
      exact (h.other hs (Ne.symm hpage) (List.cons_ne_nil _ _).symm).1
  · intro r hr
    obtain ⟨s, hs, rfl⟩ := hold r hr
    rw [touch_page]
    by_cases hpage : s.page = page
    · rw [touch, if_pos hpage, hpage, Recency.lastIndex_append_self]
      simp only
      omega
    · rw [touch, if_neg hpage]
      exact (h.other hs (Ne.symm hpage) (List.cons_ne_nil _ _).symm).2
  · intro r hr
    obtain ⟨s, hs, rfl⟩ := hold r hr
    rw [touch_page]
    have hs' := h.entry_eq s hs
    by_cases hpage : s.page = page
    · have hles := h.uses_le hs
      have hadd : (toUInt32 (s.uses + 1) : Int) = s.uses + 1 := by apply toUInt32_of_lt <;> omega
      rw [hpage] at hs'
      rw [hpage, Function.update_self, touch, if_pos hpage]
      simp only
      omega
    · rw [Function.update_of_ne hpage, touch, if_neg hpage]
      exact hs'
  · intro q hq
    have hq' : q ∉ queue.map FreqPage.page := by simpa [Function.comp_def] using hq
    have hne : q ≠ page := fun heq => hq' (heq ▸ hm)
    rw [Function.update_of_ne hne]
    exact h.entry_zero q hq'

/-- A miss: the new record and the entry of the page count the loading request. -/
theorem Tallied.miss (h : Tallied requests loads queue freqList)
    (hm : page ∉ queue.map FreqPage.page) (hlen : requests.length + 1 < 2 ^ 31) :
    Tallied (requests ++ [page]) (loads ++ [[page]])
      (queue ++ [⟨toUInt32 (toInt32 (freqList page + 1)), page, toUInt32 requests.length⟩])
      (Function.update freqList page (toInt32 (freqList page + 1))) := by
  have hstep : (toUInt32 requests.length : Int) = requests.length := by
    apply toUInt32_of_lt <;> omega
  have hentry : toInt32 (freqList page + 1) = 1 := by
    rw [h.entry_zero page hm]
    rfl
  have huses : toUInt32 1 = 1 := rfl
  have hne : ∀ r ∈ queue, page ≠ r.page := fun r hr heq => hm (heq ▸ List.mem_map_of_mem hr)
  have hload : ∀ r ∈ queue, [page] ≠ [r.page] := fun r hr => by simpa using hne r hr
  rw [hentry, huses]
  refine ⟨by simp [h.length_eq], ?_, ?_, ?_, ?_, ?_, ?_⟩
  · intro r hr
    rcases List.mem_append.mp hr with hr | hr
    · simp [h.loaded r hr]
    · simp [List.mem_singleton.mp hr]
  · intro r hr
    rcases List.mem_append.mp hr with hr | hr
    · simp [h.requested r hr]
    · simp [List.mem_singleton.mp hr]
  · intro r hr
    rcases List.mem_append.mp hr with hr | hr
    · exact (h.other hr (hne r hr) (hload r hr)).1
    · rw [List.mem_singleton.mp hr, usesSince_append_self h.length_eq]
  · intro r hr
    rcases List.mem_append.mp hr with hr | hr
    · exact (h.other hr (hne r hr) (hload r hr)).2
    · rw [List.mem_singleton.mp hr, Recency.lastIndex_append_self]
      simp only
      omega
  · intro r hr
    rcases List.mem_append.mp hr with hr | hr
    · rw [Function.update_of_ne (hne r hr).symm]
      exact h.entry_eq r hr
    · rw [List.mem_singleton.mp hr, Function.update_self]
      rfl
  · intro q hq
    have hq' : q ∉ queue.map FreqPage.page ∧ q ≠ page := by simpa [not_or] using hq
    rw [Function.update_of_ne hq'.2]
    exact h.entry_zero q hq'.1

/-- The record at the head and the entry of its page are given up together. -/
theorem Tallied.evict {t : FreqPage} (h : Tallied requests loads (t :: queue) freqList)
    (hn : t.page ∉ queue.map FreqPage.page) :
    Tallied requests loads queue (Function.update freqList t.page 0) where
  length_eq := h.length_eq
  loaded r hr := h.loaded r (List.mem_cons_of_mem t hr)
  requested r hr := h.requested r (List.mem_cons_of_mem t hr)
  uses_eq r hr := h.uses_eq r (List.mem_cons_of_mem t hr)
  last_eq r hr := h.last_eq r (List.mem_cons_of_mem t hr)
  entry_eq r hr := by
    have hne : r.page ≠ t.page := fun heq => hn (heq ▸ List.mem_map_of_mem hr)
    rw [Function.update_of_ne hne]
    exact h.entry_eq r (List.mem_cons_of_mem t hr)
  entry_zero q hq := by
    by_cases hqt : q = t.page
    · rw [hqt, Function.update_self]
    · rw [Function.update_of_ne hqt]
      exact h.entry_zero q (by simp [hqt, hq])

/-- Two records with the same last request are the same page's. -/
theorem Tallied.page_eq (h : Tallied requests loads queue freqList) {a b : FreqPage}
    (ha : a ∈ queue) (hb : b ∈ queue) (hlast : a.last = b.last) : a.page = b.page := by
  rw [h.last_eq a ha, h.last_eq b hb] at hlast
  exact Recency.lastIndex_inj (h.requested a ha) (h.requested b hb) hlast

/-- Sorted by `sort_freq`, the records are in the order of their uses and their last requests. -/
theorem Tallied.sorted (lib : QueueSort) (h : Tallied requests loads queue freqList)
    (hn : (queue.map FreqPage.page).Nodup) (hlen : requests.length < 2 ^ 31) :
    (lib.sort sortFreq queue).Pairwise FreqPage.Before := by
  have hfits : ∀ r ∈ queue, r.Fits := by
    intro r hr
    have huses := h.uses_le hr
    have hlast := h.last_lt hr
    constructor <;> omega
  have hperm := lib.perm sortFreq queue
  have hsorted := lib.sorted sortFreq queue (sortFreq_consistent hfits)
  have hdistinct : (lib.sort sortFreq queue).Pairwise fun a b => a.page ≠ b.page :=
    List.pairwise_map.mp ((hperm.map FreqPage.page).nodup_iff.mpr hn)
  refine (hsorted.and hdistinct).imp_of_mem ?_
  rintro a b ha hb ⟨hle, hne⟩
  have ha' := hperm.mem_iff.mp ha
  have hb' := hperm.mem_iff.mp hb
  have hlast : a.last ≠ b.last := fun heq => hne (h.page_eq ha' hb' heq)
  rw [sortFreq_eq (hfits a ha') (hfits b hb')] at hle
  unfold FreqPage.Before
  split_ifs at hle <;> omega

end Tallied

/-! ## Runs -/

section Run

variable (lib : QueueSort) (frames : UInt32)

/-- What each of the requests has fetched under `LEAST_FREQUENTLY_USED`. -/
def freqLoads (requests : List Page) : List (List Page) :=
  (pagerEffects lib (pagerInit .leastFrequentlyUsed frames) requests).map Effect.simGetPage

theorem freqLoads_append (requests : List Page) (page : Page) :
    freqLoads lib frames (requests ++ [page]) = freqLoads lib frames requests ++
      [(pagerRequest lib (freqRun lib frames requests) page).2.simGetPage] := by
  simp only [freqLoads, pagerEffects_append, List.map_append, List.map_singleton]

/-- The state between requests. -/
structure InOrder (requests : List Page) (loads : List (List Page)) (p : PagerState) : Prop where
  alg_eq : p.alg = .leastFrequentlyUsed
  step_eq : p.step = requests.length
  tallied : Tallied requests loads p.freqQueue p.freqList
  sorted : p.freqQueue.Pairwise FreqPage.Before

variable {lib frames} {requests : List Page} {loads : List (List Page)} {p : PagerState}

theorem map_touch_of_notMem {step : Int} {page : Page} {queue : List FreqPage}
    (hm : page ∉ queue.map FreqPage.page) : queue.map (touch step page) = queue := by
  rw [List.map_congr_left (g := id), List.map_id]
  intro r hr
  have hne : r.page ≠ page := fun heq => hm (heq ▸ List.mem_map_of_mem hr)
  rw [touch, if_neg hne, id]

/-- The records and `freq_list` after a miss, before the queue is sorted. -/
theorem pagerFaultFreq_tallied (h : InOrder requests loads p) {page : Page}
    (hn : (p.freqQueue.map FreqPage.page).Nodup) (hm : page ∉ p.freqQueue.map FreqPage.page)
    (hlen : requests.length + 1 < 2 ^ 31) :
    Tallied (requests ++ [page]) (loads ++ [[page]])
        (pagerFaultFreq (counting p page) page).1.freqQueue
        (pagerFaultFreq (counting p page) page).1.freqList ∧
      (pagerFaultFreq (counting p page) page).2.simGetPage = [page] ∧
      (pagerFaultFreq (counting p page) page).1.alg = p.alg ∧
      (pagerFaultFreq (counting p page) page).1.step = p.step := by
  have htally := h.tallied
  have hqueue : (counting p page).freqQueue = p.freqQueue := map_touch_of_notMem hm
  have hlist : (counting p page).freqList page = toInt32 (p.freqList page + 1) :=
    Function.update_self ..
  have hstep : (counting p page).step = requests.length := h.step_eq
  unfold pagerFaultFreq
  simp only [hqueue, hlist, hstep]
  by_cases hfull : (p.freqQueue.length : Int) = (counting p page).maxSize
  · simp only [hfull, if_true]
    cases hq : p.freqQueue with
    | nil =>
      rw [hq] at htally
      have hmiss := @Tallied.miss _ _ _ _ page htally (by simp) hlen
      exact ⟨hmiss, rfl, rfl, h.step_eq ▸ rfl⟩
    | cons t queue =>
      rw [hq] at htally hn hm
      simp only [List.map_cons, List.nodup_cons, List.mem_cons, not_or] at hn hm
      -- the entry of the dropped page and the one of the new page are different ones
      have hmiss := @Tallied.miss _ _ _ _ page (htally.evict hn.1) hm.2 hlen
      rw [Function.update_of_ne hm.1, Function.update_comm (Ne.symm hm.1)] at hmiss
      exact ⟨hmiss, rfl, rfl, h.step_eq ▸ rfl⟩
  · simp only [hfull, if_false]
    exact ⟨htally.miss hm hlen, trivial, rfl, h.step_eq.symm⟩

/-- The step lemma. -/
theorem InOrder.request (lib : QueueSort) (page : Page) (hf : 1 ≤ frames.toNat)
    (hp : p.Valid frames) (h : InOrder requests loads p) (hlen : requests.length + 1 < 2 ^ 31) :
    InOrder (requests ++ [page]) (loads ++ [(pagerRequest lib p page).2.simGetPage])
      (pagerRequest lib p page).1 := by
  have hn := hp.nodup
  simp only [PagerState.resident, h.alg_eq, if_true] at hn
  have hnext : toInt32 (requests.length + 1) = ((requests ++ [page]).length : Int) := by
    rw [List.length_append, List.length_singleton]
    push_cast
    apply toInt32_of_lt <;> omega
  have hlen' : (requests ++ [page]).length < 2 ^ 31 := by simpa using hlen
  rw [pagerRequest_eq_freq lib h.alg_eq]
  by_cases hm : page ∈ p.freqQueue.map FreqPage.page
  · have hhit := h.tallied.hit hm hlen
    rw [← h.step_eq] at hhit
    have hn' : ((p.freqQueue.map (touch p.step page)).map FreqPage.page).Nodup := by
      simpa [Function.comp_def] using hn
    simp only [hm, if_true]
    refine ⟨h.alg_eq, ?_, hhit.perm (lib.perm _ _), hhit.sorted lib hn' hlen'⟩
    simp only [counting, h.step_eq, hnext]
  · obtain ⟨hmiss, hfetched, halg, hstep⟩ := pagerFaultFreq_tallied h hn hm hlen
    have hpages : (counting p page).freqQueue.map FreqPage.page = p.freqQueue.map FreqPage.page := by
      simp [counting, Function.comp_def]
    have hserves := (pagerFaultFreq_serves (p := counting p page) hf hp.maxSize_eq (hpages ▸ hn)
      (by simpa [hpages, PagerState.resident, h.alg_eq] using hp.length_le) (hpages ▸ hm)).2.2
    simp only [hm, if_false, hfetched]
    refine ⟨halg.trans h.alg_eq, ?_, hmiss.perm (lib.perm _ _),
      hmiss.sorted lib hserves.nodup hlen'⟩
    rw [hstep, h.step_eq, hnext]

/-- The run lemma. -/
theorem freqRun_inOrder (lib : QueueSort) (hf : 1 ≤ frames.toNat) (requests : List Page)
    (hlen : requests.length < 2 ^ 31) :
    InOrder requests (freqLoads lib frames requests) (freqRun lib frames requests) := by
  induction requests using List.reverseRecOn with
  | nil =>
    refine ⟨rfl, rfl, ⟨rfl, ?_, ?_, ?_, ?_, ?_, ?_⟩, List.Pairwise.nil⟩ <;>
      simp [pagerRun, pagerInit]
  | append_singleton requests page ih =>
    rw [List.length_append, List.length_singleton] at hlen
    have hvalid := pagerRun_valid lib hf requests (pagerInit_valid .leastFrequentlyUsed frames)
    have hstep := (ih (by omega)).request lib page hf hvalid hlen
    rw [freqRun, pagerRun_append, freqLoads_append]
    exact hstep

end Run

/-- After any requests each record counts the requests for its page since it was last loaded and
holds the step of the latest one, the queue is ordered by the two, and a page that the next request
drops has the fewest uses since it was loaded, and of the pages with as many the earliest latest
request. -/
theorem lfu_bookkeeping (lib : QueueSort) (frames : UInt32) (hf : 1 ≤ frames)
    (requests : List Page) (hlen : requests.length < 2 ^ 31) :
    let p := freqRun lib frames requests
    let loads := freqLoads lib frames requests
    (∀ r ∈ p.freqQueue,
      r.uses = usesSince loads requests r.page ∧ r.last = lastIndex requests r.page) ∧
      p.freqQueue.Pairwise FreqPage.Before ∧
      ∀ page t, (pagerRequest lib p page).2.evicted = some t → t ∈ p.resident ∧
        ∀ q ∈ p.resident, q ≠ t →
          usesSince loads requests t < usesSince loads requests q ∨
            usesSince loads requests t = usesSince loads requests q ∧
              lastIndex requests t < lastIndex requests q := by
  intro p loads
  have hf' : 1 ≤ frames.toNat := UInt32.le_iff_toNat_le.mp hf
  have h : InOrder requests loads p := freqRun_inOrder lib hf' requests hlen
  refine ⟨fun r hr => ⟨h.tallied.uses_eq r hr, h.tallied.last_eq r hr⟩, h.sorted, ?_⟩
  intro page t hevict
  obtain ⟨-, -, r, queue, hq, rfl⟩ := head_of_evicted h.alg_eq hevict
  have hsorted := h.sorted
  simp only [PagerState.resident, h.alg_eq, if_true]
  rw [hq] at hsorted ⊢
  refine ⟨by simp, ?_⟩
  intro v hv hne
  obtain ⟨s, hs, rfl⟩ := List.mem_map.mp hv
  have hsq : s ∈ queue := by
    rcases List.mem_cons.mp hs with rfl | hs
    · exact absurd rfl hne
    · exact hs
  have hbefore := (List.pairwise_cons.mp hsorted).1 s hsq
  have hr : r ∈ p.freqQueue := by simp [hq]
  have hs' : s ∈ p.freqQueue := by simp [hq, hsq]
  rw [← h.tallied.uses_eq r hr, ← h.tallied.uses_eq s hs', ← h.tallied.last_eq r hr,
    ← h.tallied.last_eq s hs']
  exact hbefore

/-- Page 7 has been requested four times, and twice since it was loaded for the second time. -/
theorem lfu_bookkeeping_returnedPage :
    usesSince (freqLoads insertionQueueSort 2 [7, 7, 8, 8, 8, 9, 7, 7])
        [7, 7, 8, 8, 8, 9, 7, 7] 7 = 2 ∧
      (∀ r ∈ (freqRun insertionQueueSort 2 [7, 7, 8, 8, 8, 9, 7, 7]).freqQueue,
        r.uses = usesSince (freqLoads insertionQueueSort 2 [7, 7, 8, 8, 8, 9, 7, 7])
            [7, 7, 8, 8, 8, 9, 7, 7] r.page ∧
          r.last = lastIndex [7, 7, 8, 8, 8, 9, 7, 7] r.page) ∧
      (freqRun insertionQueueSort 2 [7, 7, 8, 8, 8, 9, 7, 7]).freqQueue.Pairwise
        FreqPage.Before := by
  have h := lfu_bookkeeping insertionQueueSort 2 (by decide) [7, 7, 8, 8, 8, 9, 7, 7] (by decide)
  exact ⟨by decide +kernel, h.1, h.2.1⟩

end CSE130.Pager
