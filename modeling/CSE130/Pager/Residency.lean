import CSE130.Pager.Basic
import Mathlib.Data.Fintype.Card

/-!
# The resident pages

Under each of the five algorithms a request leaves the requested page resident, fetches it
exactly when it was not, and drops at most one other page. Each branch of `pager_request` is one
of three changes of the resident pages up to order: none, one page more, or one page replaced.
-/

namespace CSE130.Pager

/-! ## The queue loops in closed form -/

@[simp] theorem drainInto_eq {α : Type} (a b : List α) : drainInto a b = b ++ a := by
  induction a generalizing b with
  | nil => simp [drainInto]
  | cons v a ih => simp [drainInto, ih]

@[simp] theorem printSorted_eq (q : List FreqPage) : printSorted q = q := by
  simp [printSorted]

/-- The effect of a hit on `bit_refs`. -/
def markHit (alg : Algorithm) (val : Page) (bits : Page → Int) : Page → Int :=
  if alg = .secondChance then Function.update bits val 1
  else if alg = .circularQueue then Function.update bits val 0
  else bits

theorem markHit_markHit (alg : Algorithm) (val : Page) (bits : Page → Int) :
    markHit alg val (markHit alg val bits) = markHit alg val bits := by
  unfold markHit
  split_ifs <;> simp

theorem findElemLoop_eq (alg : Algorithm) (val : Page) (q temp : List Page) (bits : Page → Int)
    (flag : Bool) :
    findElemLoop alg val q temp bits flag =
      (temp ++ (if alg = .leastRecentlyUsed then q.filter (· ≠ val) else q),
        if val ∈ q then markHit alg val bits else bits, flag || decide (val ∈ q)) := by
  induction q generalizing temp bits flag with
  | nil => simp [findElemLoop]
  | cons v q ih =>
    by_cases hv : v = val
    · subst hv
      have hbits : (if alg = .circularQueue then
          Function.update (if alg = .secondChance then Function.update bits v 1 else bits) v 0
          else if alg = .secondChance then Function.update bits v 1 else bits) =
          markHit alg v bits := by
        unfold markHit
        cases alg <;> simp
      simp only [findElemLoop, ne_eq, not_true_eq_false, if_false, hbits, ih, markHit_markHit]
      by_cases halg : alg = .leastRecentlyUsed <;> by_cases hq : v ∈ q <;> simp [halg, hq]
    · have hv' : ¬ val = v := fun h => hv h.symm
      simp only [findElemLoop, ne_eq, hv, not_false_eq_true, if_true, ih, List.mem_cons, hv',
        false_or]
      by_cases halg : alg = .leastRecentlyUsed <;> simp [halg, hv]

theorem findElem_eq (p : PagerState) (val : Page) :
    findElem p val = (decide (val ∈ p.queue),
      { p with
        queue := if p.alg = .leastRecentlyUsed then p.queue.filter (· ≠ val) else p.queue
        bitRefs := if val ∈ p.queue then markHit p.alg val p.bitRefs else p.bitRefs }) := by
  simp [findElem, findElemLoop_eq]

/-- The effect of a hit on the records of the queue. -/
def touch (step : Int) (val : Page) (v : FreqPage) : FreqPage :=
  if v.page = val then { v with uses := toUInt32 (v.uses + 1), last := toUInt32 step } else v

@[simp] theorem touch_page (step : Int) (val : Page) (v : FreqPage) :
    (touch step val v).page = v.page := by
  unfold touch
  split_ifs <;> rfl

theorem findElemFreqLoop_eq (step : Int) (val : Page) (q temp : List FreqPage) (flag : Bool) :
    findElemFreqLoop step val q temp flag =
      (temp ++ q.map (touch step val), flag || decide (val ∈ q.map FreqPage.page)) := by
  induction q generalizing temp flag with
  | nil => simp [findElemFreqLoop]
  | cons v q ih =>
    by_cases hv : v.page = val
    · subst hv
      simp [findElemFreqLoop, ih, touch]
    · have hv' : ¬ val = v.page := fun h => hv h.symm
      simp [findElemFreqLoop, ih, touch, hv, hv']

theorem findElemFreq_eq (p : PagerState) (val : Page) :
    findElemFreq p val = (decide (val ∈ p.freqQueue.map FreqPage.page),
      { p with freqQueue := p.freqQueue.map (touch p.step val) }) := by
  simp [findElemFreq, findElemFreqLoop_eq]

/-- An eviction loop rotates the queue with `temp` at its head. -/
theorem evictLoop_perm (mark : Int) (temp : Page) (queue : List Page) (bits : Page → Int) :
    ((evictLoop mark temp queue bits).temp :: (evictLoop mark temp queue bits).queue).Perm
      (temp :: queue) := by
  fun_induction evictLoop mark temp queue bits with
  | case1 temp queue bits h bits' next scan ih =>
    refine ih.trans ?_
    rw [queueDequeue_append]
    exact List.perm_append_singleton temp queue
  | case2 temp queue bits h => exact List.Perm.refl _

/-! ## Changes of the resident pages -/

/-- What a request for `page` does to the resident pages: they stay distinct and at most
`frames`, the requested page is among them, at most one other page has left, and `sim_get_page`
was called, once and for the requested page, exactly when that page was not resident. -/
structure Serves (frames : Nat) (page : Page) (before after fetched : List Page) : Prop where
  nodup : after.Nodup
  length_le : after.length ≤ frames
  mem : page ∈ after
  left_unique : ∀ q ∈ before, ∀ q' ∈ before, q ∉ after → q' ∉ after → q = q'
  fetched_eq : fetched = if page ∈ before then [] else [page]

variable {frames : Nat} {page : Page} {before after : List Page}

theorem serves_hit (hn : before.Nodup) (hl : before.length ≤ frames) (hm : page ∈ before)
    (hp : after.Perm before) : Serves frames page before after [] where
  nodup := hp.nodup_iff.mpr hn
  length_le := hp.length_eq ▸ hl
  mem := hp.mem_iff.mpr hm
  left_unique q hq _ _ hq' := absurd (hp.mem_iff.mpr hq) hq'
  fetched_eq := by simp [hm]

theorem serves_fill (hn : before.Nodup) (hl : before.length < frames) (hm : page ∉ before)
    (hp : after.Perm (page :: before)) : Serves frames page before after [page] where
  nodup := hp.nodup_iff.mpr (List.nodup_cons.mpr ⟨hm, hn⟩)
  length_le := by rw [hp.length_eq]; exact hl
  mem := hp.mem_iff.mpr (by simp)
  left_unique q hq _ _ hq' := absurd (hp.mem_iff.mpr (by simp [hq])) hq'
  fetched_eq := by simp [hm]

theorem serves_replace {v : Page} {rest : List Page} (hn : before.Nodup)
    (hl : before.length ≤ frames) (hm : page ∉ before) (hb : before.Perm (v :: rest))
    (hp : after.Perm (page :: rest)) : Serves frames page before after [page] where
  nodup := by
    have hn' := hb.nodup_iff.mp hn
    refine hp.nodup_iff.mpr (List.nodup_cons.mpr ⟨fun h => hm ?_, (List.nodup_cons.mp hn').2⟩)
    exact hb.mem_iff.mpr (by simp [h])
  length_le := by
    have := hb.length_eq
    have := hp.length_eq
    simp only [List.length_cons] at *
    omega
  mem := hp.mem_iff.mpr (by simp)
  left_unique q hq q' hq' h h' := by
    -- only the evicted page can be missing afterwards
    have key : ∀ x ∈ before, x ∉ after → x = v := by
      intro x hx hxa
      rcases List.mem_cons.mp (hb.mem_iff.mp hx) with rfl | hxr
      · rfl
      · exact absurd (hp.mem_iff.mpr (by simp [hxr])) hxa
    rw [key q hq h, key q' hq' h']
  fetched_eq := by simp [hm]

/-- The order of the pages afterwards does not matter. -/
theorem Serves.perm {fetched after' : List Page} (h : Serves frames page before after fetched)
    (hp : after'.Perm after) : Serves frames page before after' fetched where
  nodup := hp.nodup_iff.mpr h.nodup
  length_le := hp.length_eq ▸ h.length_le
  mem := hp.mem_iff.mpr h.mem
  left_unique q hq q' hq' hn hn' :=
    h.left_unique q hq q' hq' (fun hc => hn (hp.mem_iff.mpr hc)) fun hc => hn' (hp.mem_iff.mpr hc)
  fetched_eq := h.fetched_eq

/-! ## One request -/

/-- The state of the pager between requests. -/
structure PagerState.Valid (frames : UInt32) (p : PagerState) : Prop where
  maxSize_eq : p.maxSize = toInt32 frames.toNat
  nodup : p.resident.Nodup
  length_le : p.resident.length ≤ frames.toNat

theorem length_le_of_nodup {q : List Page} (h : q.Nodup) : q.length ≤ 1000000 := by
  simpa using List.Nodup.length_le_card h

/-- The comparison `queue_size(queue) == max_size` of two `int`s tells whether every frame is in
use: with 2^31 frames or more `max_size` is negative, but then there are fewer pages than
frames. -/
theorem length_eq_maxSize_iff {frames : UInt32} {q : List Page} (h : q.Nodup) :
    (q.length : Int) = toInt32 frames.toNat ↔ q.length = frames.toNat := by
  have hq := length_le_of_nodup h
  have hf := frames.toNat_lt
  unfold toInt32
  rw [Int.bmod_def]
  split <;> omega

theorem pagerInit_valid (alg : Algorithm) (frames : UInt32) :
    (pagerInit alg frames).Valid frames := by
  constructor <;> simp [pagerInit, PagerState.resident]

/-- The result of a request serves it and keeps the pager valid. -/
structure PagerState.Step (frames : UInt32) (p : PagerState) (page : Page)
    (r : PagerState × Effect) : Prop where
  alg_eq : r.1.alg = p.alg
  maxSize_eq : r.1.maxSize = p.maxSize
  serves : Serves frames.toNat page p.resident r.1.resident r.2.simGetPage

theorem PagerState.Step.valid {frames : UInt32} {p : PagerState} {page : Page}
    {r : PagerState × Effect} (hp : p.Valid frames) (h : p.Step frames page r) :
    r.1.Valid frames where
  maxSize_eq := h.maxSize_eq.trans hp.maxSize_eq
  nodup := h.serves.nodup
  length_le := h.serves.length_le

/-- A miss, under the algorithms that keep page numbers in the queue. -/
theorem pagerFault_serves {frames : UInt32} (hf : 1 ≤ frames.toNat) {p : PagerState}
    {page : Page} (hmax : p.maxSize = toInt32 frames.toNat) (hn : p.queue.Nodup)
    (hl : p.queue.length ≤ frames.toNat) (hm : page ∉ p.queue) :
    (pagerFault p page).1.alg = p.alg ∧ (pagerFault p page).1.maxSize = p.maxSize ∧
      Serves frames.toNat page p.queue (pagerFault p page).1.queue
        (pagerFault p page).2.simGetPage := by
  unfold pagerFault
  by_cases hfull : (p.queue.length : Int) = p.maxSize
  · simp only [hfull, if_true]
    have hlen : p.queue.length = frames.toNat := by
      rw [hmax, length_eq_maxSize_iff hn] at hfull
      exact hfull
    obtain ⟨temp, queue, hq⟩ : ∃ temp queue, p.queue = temp :: queue :=
      List.exists_cons_of_length_pos (by omega)
    have marked : ∀ mark, (evictMarked mark p page).1.alg = p.alg ∧
        (evictMarked mark p page).1.maxSize = p.maxSize ∧
        Serves frames.toNat page p.queue (evictMarked mark p page).1.queue
          (evictMarked mark p page).2.simGetPage := by
      intro mark
      refine ⟨rfl, rfl, ?_⟩
      simp only [evictMarked, hq, queueDequeue]
      refine serves_replace (hq ▸ hn) (hq ▸ hl) (hq ▸ hm)
        (evictLoop_perm mark temp queue p.bitRefs).symm ?_
      exact List.perm_append_singleton _ _
    split_ifs with h3 h4
    · exact marked 1
    · exact marked 0
    · simp only [hq, queueDequeue, true_and]
      exact serves_replace (hq ▸ hn) (hq ▸ hl) (hq ▸ hm) (List.Perm.refl _)
        (List.perm_append_singleton _ _)
  · simp only [hfull, if_false, true_and]
    refine serves_fill hn ?_ hm (List.perm_append_singleton _ _)
    have hne : p.queue.length ≠ frames.toNat := by
      intro h
      exact hfull (by rw [hmax, length_eq_maxSize_iff hn]; exact h)
    omega

theorem filter_append_perm {q : List Page} {page : Page} (hn : q.Nodup) (hm : page ∈ q) :
    (q.filter (· ≠ page) ++ [page]).Perm q := by
  refine (List.perm_append_singleton _ _).trans ?_
  have herase : q.filter (· ≠ page) = q.erase page := by
    rw [hn.erase_eq_filter]
    exact List.filter_congr fun v _ => by rw [bne, Bool.beq_eq_decide_eq, decide_not]
  rw [herase]
  exact (List.perm_cons_erase hm).symm

theorem pagerRequestQueue_step {frames : UInt32} (hf : 1 ≤ frames.toNat) {p : PagerState}
    {page : Page} (halg : p.alg ≠ .leastFrequentlyUsed) (hp : p.Valid frames) :
    p.Step frames page (pagerRequestQueue p page) := by
  obtain ⟨hmax, hn, hl⟩ := hp
  simp only [PagerState.resident, halg, if_false] at hn hl
  have resident_eq : ∀ r : PagerState, r.alg = p.alg → r.resident = r.queue := by
    intro r hr
    simp [PagerState.resident, hr, halg]
  unfold pagerRequestQueue
  rw [findElem_eq]
  by_cases hm : page ∈ p.queue
  · simp only [hm, decide_true, if_true]
    by_cases hlru : p.alg = .leastRecentlyUsed
    · rw [if_pos hlru, if_pos hlru]
      exact ⟨rfl, rfl, by
        rw [resident_eq p rfl, resident_eq _ (by rfl)]
        exact serves_hit hn hl hm (filter_append_perm hn hm)⟩
    · rw [if_neg hlru, if_neg hlru]
      exact ⟨rfl, rfl, by
        rw [resident_eq p rfl, resident_eq _ (by rfl)]
        exact serves_hit hn hl hm (List.Perm.refl _)⟩
  · have hfilter : p.queue.filter (· ≠ page) = p.queue := by
      rw [List.filter_eq_self]
      intro q hq
      simpa using fun h : q = page => hm (h ▸ hq)
    simp only [hm, decide_false, if_false, Bool.false_eq_true, hfilter, ite_self]
    obtain ⟨h1, h2, h3⟩ := pagerFault_serves hf hmax hn hl hm
    refine ⟨h1, h2, ?_⟩
    rw [resident_eq p rfl, resident_eq _ h1]
    exact h3

/-- A miss under `LEAST_FREQUENTLY_USED`. -/
theorem pagerFaultFreq_serves {frames : UInt32} (hf : 1 ≤ frames.toNat) {p : PagerState}
    {page : Page} (hmax : p.maxSize = toInt32 frames.toNat)
    (hn : (p.freqQueue.map FreqPage.page).Nodup)
    (hl : (p.freqQueue.map FreqPage.page).length ≤ frames.toNat)
    (hm : page ∉ p.freqQueue.map FreqPage.page) :
    (pagerFaultFreq p page).1.alg = p.alg ∧ (pagerFaultFreq p page).1.maxSize = p.maxSize ∧
      Serves frames.toNat page (p.freqQueue.map FreqPage.page)
        ((pagerFaultFreq p page).1.freqQueue.map FreqPage.page)
        (pagerFaultFreq p page).2.simGetPage := by
  have hfull_iff := @length_eq_maxSize_iff frames _ hn
  rw [List.length_map, ← hmax] at hfull_iff
  unfold pagerFaultFreq
  by_cases hfull : (p.freqQueue.length : Int) = p.maxSize
  · have hlen := hfull_iff.mp hfull
    obtain ⟨t, queue, hq⟩ : ∃ t queue, p.freqQueue = t :: queue :=
      List.exists_cons_of_length_pos (by omega)
    simp only [hfull, if_true]
    rw [hq] at hn hl hm ⊢
    refine ⟨rfl, rfl, ?_⟩
    simp only [List.map_cons, List.map_append, List.map_nil] at hn hl hm ⊢
    exact serves_replace hn hl hm (List.Perm.refl _) (List.perm_append_singleton _ _)
  · simp only [hfull, if_false, true_and]
    simp only [List.map_append, List.map_cons, List.map_nil]
    refine serves_fill hn ?_ hm (List.perm_append_singleton _ _)
    have hne : p.freqQueue.length ≠ frames.toNat := fun h => hfull (hfull_iff.mpr h)
    rw [List.length_map] at hl ⊢
    omega

theorem pagerRequestFreq_step (lib : QueueSort) {frames : UInt32} (hf : 1 ≤ frames.toNat)
    {p : PagerState} {page : Page} (halg : p.alg = .leastFrequentlyUsed)
    (hp : p.Valid frames) : p.Step frames page (pagerRequestFreq lib p page) := by
  obtain ⟨hmax, hn, hl⟩ := hp
  simp only [PagerState.resident, halg, if_true] at hn hl
  have resident_eq : ∀ r : PagerState, r.alg = p.alg →
      r.resident = r.freqQueue.map FreqPage.page := by
    intro r hr
    simp [PagerState.resident, hr, halg]
  have sort_perm : ∀ q : List FreqPage,
      ((printSorted (lib.sort sortFreq q)).map FreqPage.page).Perm (q.map FreqPage.page) := by
    intro q
    rw [printSorted_eq]
    exact (lib.perm sortFreq q).map _
  have touch_map : ∀ q : List FreqPage,
      (q.map (touch p.step page)).map FreqPage.page = q.map FreqPage.page := by
    intro q
    simp [List.map_map, Function.comp_def]
  unfold pagerRequestFreq
  simp only [findElemFreq_eq]
  by_cases hm : page ∈ p.freqQueue.map FreqPage.page
  · simp only [hm, decide_true, if_true]
    refine ⟨rfl, rfl, ?_⟩
    rw [resident_eq p rfl, resident_eq _ (by rfl)]
    refine serves_hit hn hl hm ((sort_perm _).trans ?_)
    rw [touch_map]
  · simp only [hm, decide_false, if_false, Bool.false_eq_true]
    generalize hp' : ({ p with
      freqList := Function.update p.freqList page (toInt32 (p.freqList page + 1))
      freqQueue := p.freqQueue.map (touch p.step page) } : PagerState) = p'
    have hq' : p'.freqQueue.map FreqPage.page = p.freqQueue.map FreqPage.page := by
      rw [← hp', touch_map]
    have halg' : p'.alg = p.alg := by rw [← hp']
    have hmax' : p'.maxSize = p.maxSize := by rw [← hp']
    obtain ⟨h1, h2, h3⟩ := pagerFaultFreq_serves hf (hmax'.trans hmax) (hq' ▸ hn) (hq' ▸ hl)
      (hq' ▸ hm)
    refine ⟨h1.trans halg', h2.trans hmax', ?_⟩
    rw [resident_eq p rfl, resident_eq _ (by exact h1.trans halg')]
    exact (hq' ▸ h3).perm (sort_perm _)

/-- The step lemma: a request serves its page and keeps the pager valid. -/
theorem pagerRequest_step (lib : QueueSort) {frames : UInt32} (hf : 1 ≤ frames.toNat)
    {p : PagerState} (page : Page) (hp : p.Valid frames) :
    p.Step frames page (pagerRequest lib p page) := by
  unfold pagerRequest
  -- resetting the mark under CIRCULAR_QUEUE leaves the queue alone
  generalize hp' : (if p.alg = .circularQueue then
    { p with bitRefs := Function.update p.bitRefs page 0 } else p) = p'
  have halg : p'.alg = p.alg := by rw [← hp']; split_ifs <;> rfl
  have hmax : p'.maxSize = p.maxSize := by rw [← hp']; split_ifs <;> rfl
  have hres : p'.resident = p.resident := by rw [← hp']; split_ifs <;> rfl
  have hvalid : p'.Valid frames :=
    ⟨hmax.trans hp.maxSize_eq, hres ▸ hp.nodup, hres ▸ hp.length_le⟩
  have key : ∀ r : PagerState × Effect, p'.Step frames page r →
      p.Step frames page ({ r.1 with step := toInt32 (r.1.step + 1) }, r.2) := by
    rintro r ⟨h1, h2, h3⟩
    exact ⟨h1.trans halg, h2.trans hmax, hres ▸ h3⟩
  by_cases hlfu : p'.alg = .leastFrequentlyUsed
  · simp only [ne_eq, hlfu, not_true_eq_false, if_false]
    exact key _ (pagerRequestFreq_step lib hf hlfu hvalid)
  · simp only [ne_eq, hlfu, not_false_eq_true, if_true]
    exact key _ (pagerRequestQueue_step hf hlfu hvalid)

/-- The run lemma. -/
theorem pagerRun_valid (lib : QueueSort) {frames : UInt32} (hf : 1 ≤ frames.toNat)
    (requests : List Page) {p : PagerState} (hp : p.Valid frames) :
    (pagerRun lib p requests).Valid frames := by
  induction requests generalizing p with
  | nil => exact hp
  | cons page requests ih => exact ih ((pagerRequest_step lib hf page hp).valid hp)

/-- Every request of every run, under each of the five algorithms, serves its page. -/
theorem pagerRequest_serves (lib : QueueSort) (alg : Algorithm) (frames : UInt32)
    (hf : 1 ≤ frames) (requests : List Page) (page : Page) :
    let before := pagerRun lib (pagerInit alg frames) requests
    let after := pagerRequest lib before page
    Serves frames.toNat page before.resident after.1.resident after.2.simGetPage := by
  have hf' : 1 ≤ frames.toNat := UInt32.le_iff_toNat_le.mp hf
  exact (pagerRequest_step lib hf' page
    (pagerRun_valid lib hf' requests (pagerInit_valid alg frames))).serves

theorem pagerRequest_serves_two_frames :
    let before := pagerRun mergeQueueSort (pagerInit .leastFrequentlyUsed 2) [7, 8, 7]
    let after := pagerRequest mergeQueueSort before 9
    Serves 2 9 before.resident after.1.resident after.2.simGetPage :=
  pagerRequest_serves mergeQueueSort .leastFrequentlyUsed 2 (by decide) [7, 8, 7] 9

end CSE130.Pager
