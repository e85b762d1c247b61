import CSE130.Library.Clock
import CSE130.Pager.Residency

/-!
# SECOND_CHANCE and CIRCULAR_QUEUE are the clock

The queue of the two algorithms is the view of a clock from its hand: the free frames come first,
then the pages in queue order, each with its mark. A referenced page has 1 in `bit_refs` under
`SECOND_CHANCE` and 0 under `CIRCULAR_QUEUE`. One rotation of the queue is one turn of the hand.
-/

namespace CSE130.Pager

open CSE130.Library

/-- The entry of `bit_refs` that marks a referenced page. -/
def markValue (alg : Algorithm) : Int := if alg = .secondChance then 1 else 0

/-- The frame of a page in the queue. -/
def toFrame (mark : Int) (bits : Page → Int) (q : Page) : Option (Page × Bool) :=
  some (q, decide (bits q = mark))

/-- The clock `c` is the pager `p`. -/
structure RefinesClock {n : Nat} (p : PagerState) (c : Clock Page n) : Prop where
  view_eq : c.view = List.replicate (n - p.queue.length) none ++
    p.queue.map (toFrame (markValue p.alg) p.bitRefs)
  unmarked : p.alg = .secondChance → ∀ q, q ∉ p.queue → p.bitRefs q ≠ 1

/-- What a request shows of the pager, as an outcome of the clock. -/
def Effect.outcome (e : Effect) : Outcome Page where
  hit := e.simGetPage.isEmpty
  evicted := e.evicted

/-- The effects of a sequence of requests. -/
def pagerEffects (lib : QueueSort) : PagerState → List Page → List Effect
  | _, [] => []
  | p, page :: pages =>
    (pagerRequest lib p page).2 :: pagerEffects lib (pagerRequest lib p page).1 pages

theorem map_toFrame_congr {mark : Int} {bits bits' : Page → Int} {q : List Page}
    (h : ∀ v ∈ q, bits' v = bits v) : q.map (toFrame mark bits') = q.map (toFrame mark bits) :=
  List.map_congr_left fun v hv => by rw [toFrame, toFrame, h v hv]

/-! ## The eviction loop and the hand -/

/-- An eviction loop goes round at most once for each marked page. -/
theorem evictLoop_rotations_le (mark : Int) (temp : Page) (queue : List Page)
    (bits : Page → Int) :
    (evictLoop mark temp queue bits).rotations ≤
      (temp :: queue).countP (fun v => bits v = mark) := by
  fun_induction evictLoop mark temp queue bits with
  | case1 temp queue bits h bits' next scan ih =>
    rw [queueDequeue_append] at ih
    have lt := countP_clear_lt mark temp queue bits h
    exact Nat.lt_of_le_of_lt ih lt
  | case2 temp queue bits h => exact Nat.zero_le _

/-- The loop does what the hand does: if the clock shows the queue with `temp` at its head, then
after the sweep it shows the queue that the loop leaves, with the page to evict at its head. -/
theorem evictLoop_sweep {n : Nat} (mark : Int) (temp : Page) (queue : List Page)
    (bits : Page → Int) (c : Clock Page n) (hn : (temp :: queue).Nodup)
    (hview : c.view = (temp :: queue).map (toFrame mark bits)) :
    let scan := evictLoop mark temp queue bits
    c.sweep.view = (scan.temp :: scan.queue).map (toFrame mark scan.bits) ∧
      scan.bits scan.temp ≠ mark ∧ ∀ q, q ∉ temp :: queue → scan.bits q = bits q := by
  fun_induction evictLoop mark temp queue bits generalizing c with
  | case1 temp queue bits h bits' next scan ih =>
    have hnext : next.1 :: next.2 = queue ++ [temp] := queueDequeue_append queue temp
    have hcurrent : c.current = some (temp, true) := by
      rw [Clock.current_of_view hview]
      simp [toFrame, h]
    have hmem : temp ∉ queue := (List.nodup_cons.mp hn).1
    have hperm : (queue ++ [temp]).Perm (temp :: queue) := List.perm_append_singleton temp queue
    -- the page that goes to the end of the queue is the frame that the hand clears
    have hturn : (c.turn (some (temp, false))).view = (next.1 :: next.2).map (toFrame mark bits') := by
      have hkeep : ∀ v ∈ queue, bits' v = bits v := by
        intro v hv
        have hne : v ≠ temp := fun hvt => hmem (hvt ▸ hv)
        exact Function.update_of_ne hne _ _
      have hclear : toFrame mark bits' temp = some (temp, false) := by
        have : (1 - mark : Int) ≠ mark := by omega
        simp [toFrame, bits', this]
      rw [Clock.view_turn hview, hnext, List.map_append, map_toFrame_congr hkeep]
      simp [hclear]
    obtain ⟨h1, h2, h3⟩ := ih _ (hnext ▸ hperm.nodup_iff.mpr hn) hturn
    refine ⟨?_, h2, ?_⟩
    · rw [Clock.sweep_referenced hcurrent]
      exact h1
    · intro q hq
      have hq' : q ∉ next.1 :: next.2 := by
        rw [hnext, hperm.mem_iff]
        exact hq
      rw [h3 q hq']
      exact Function.update_of_ne (fun hqt => hq (by simp [hqt])) _ _
  | case2 temp queue bits h =>
    have hcurrent : c.current = toFrame mark bits temp := Clock.current_of_view hview
    refine ⟨?_, h, fun _ _ => rfl⟩
    rw [Clock.sweep_stop (by rw [hcurrent]; simp [toFrame, Clock.referenced, h])]
    exact hview

/-! ## One request -/

section Request

variable {n : Nat} {p : PagerState} {c : Clock Page n} {page : Page}

theorem RefinesClock.holds_iff (h : RefinesClock p c) (page : Page) :
    c.Holds page ↔ page ∈ p.queue := by
  simp only [Clock.Holds, ← Clock.mem_view, h.view_eq, List.mem_append, List.mem_replicate,
    List.mem_map, toFrame]
  constructor
  · rintro ⟨mark, ⟨-, h⟩ | ⟨q, hq, h⟩⟩
    · cases h
    · cases h
      exact hq
  · intro hq
    exact ⟨_, Or.inr ⟨page, hq, rfl⟩⟩

/-- A hit marks the page in both. -/
theorem RefinesClock.hit (halg : p.alg = .secondChance ∨ p.alg = .circularQueue)
    (h : RefinesClock p c) (hm : page ∈ p.queue) :
    RefinesClock { p with bitRefs := markHit p.alg page p.bitRefs } (c.reference page) where
  view_eq := by
    rw [Clock.view_reference, h.view_eq, List.map_append, List.map_replicate, List.map_map]
    congr 1
    refine List.map_congr_left fun q _ => ?_
    by_cases hq : q = page
    · subst hq
      rcases halg with halg | halg <;> simp [toFrame, markHit, markValue, halg]
    · rcases halg with halg | halg <;>
        simp [toFrame, markHit, markValue, halg, hq]
  unmarked := by
    intro hsc q hq
    have hne : q ≠ page := fun hqp => hq (hqp ▸ hm)
    have hkeep : markHit p.alg page p.bitRefs q = p.bitRefs q := by
      rw [markHit, if_pos hsc, Function.update_of_ne hne]
    exact hkeep.trans_ne (h.unmarked hsc q hq)

/-- The mark of a page that is about to be loaded. -/
theorem RefinesClock.loaded (halg : p.alg = .secondChance ∨ p.alg = .circularQueue)
    (h : RefinesClock p c) (hm : page ∉ p.queue)
    (hreset : p.alg = .circularQueue → p.bitRefs page = 0) :
    toFrame (markValue p.alg) p.bitRefs page =
      some (page, decide (p.alg = .circularQueue)) := by
  rcases halg with halg | halg
  · simp [toFrame, markValue, halg, h.unmarked halg page hm]
  · simp [toFrame, markValue, halg, hreset halg]

/-- A page is loaded into a free frame. -/
theorem RefinesClock.fill (halg : p.alg = .secondChance ∨ p.alg = .circularQueue)
    (h : RefinesClock p c) (hl : p.queue.length < n) (hm : page ∉ p.queue)
    (hreset : p.alg = .circularQueue → p.bitRefs page = 0) :
    c.sweep.current = none ∧
      RefinesClock { p with queue := p.queue ++ [page] }
        (c.sweep.turn (some (page, decide (p.alg = .circularQueue)))) := by
  obtain ⟨k, hk⟩ : ∃ k, n - p.queue.length = k + 1 := ⟨n - p.queue.length - 1, by omega⟩
  have hview : c.view = none :: (List.replicate k none ++
      p.queue.map (toFrame (markValue p.alg) p.bitRefs)) := by
    rw [h.view_eq, hk, List.replicate_succ, List.cons_append]
  have hcurrent : c.current = none := Clock.current_of_view hview
  have hsweep : c.sweep = c := Clock.sweep_stop (by rw [hcurrent]; rfl)
  rw [hsweep]
  refine ⟨hcurrent, ?_, ?_⟩
  · have hlen : n - (p.queue ++ [page]).length = k := by
      simp only [List.length_append, List.length_singleton]
      omega
    rw [Clock.view_turn hview, hlen, List.map_append, List.append_assoc]
    simp [h.loaded halg hm hreset]
  · intro hsc q hq
    exact h.unmarked hsc q fun hq' => hq (by simp [hq'])

/-- A page is loaded into the frame where the hand stops, and that page is evicted. -/
theorem RefinesClock.evict (halg : p.alg = .secondChance ∨ p.alg = .circularQueue)
    (h : RefinesClock p c) (hn : p.queue.Nodup) (hl : p.queue.length = n) (hpos : 0 < n)
    (hm : page ∉ p.queue) (hreset : p.alg = .circularQueue → p.bitRefs page = 0) :
    let r := evictMarked (markValue p.alg) p page
    c.sweep.current.map Prod.fst = r.2.evicted ∧ r.2.rotations ≤ n ∧
      RefinesClock r.1 (c.sweep.turn (some (page, decide (p.alg = .circularQueue)))) := by
  obtain ⟨temp, queue, hq⟩ : ∃ temp queue, p.queue = temp :: queue :=
    List.exists_cons_of_length_pos (by omega)
  have hview : c.view = (temp :: queue).map (toFrame (markValue p.alg) p.bitRefs) := by
    rw [h.view_eq, hl, hq]
    simp
  have hperm := evictLoop_perm (markValue p.alg) temp queue p.bitRefs
  have hrot := evictLoop_rotations_le (markValue p.alg) temp queue p.bitRefs
  obtain ⟨h1, h2, h3⟩ := evictLoop_sweep (markValue p.alg) temp queue p.bitRefs c (hq ▸ hn) hview
  simp only [evictMarked, hq, queueDequeue]
  generalize evictLoop (markValue p.alg) temp queue p.bitRefs = scan at *
  rw [hq] at hm hl
  have hlen : scan.queue.length + 1 = n := by
    have := hperm.length_eq
    simp only [List.length_cons] at this hl
    omega
  refine ⟨?_, ?_, ?_, ?_⟩
  · rw [Clock.current_of_view h1]
    rfl
  · exact hrot.trans (List.countP_le_length.trans hl.le)
  · have hpage : toFrame (markValue p.alg) scan.bits page =
        some (page, decide (p.alg = .circularQueue)) := by
      rw [← h.loaded halg (hq ▸ hm) hreset, toFrame, toFrame, h3 page hm]
    have hzero : n - (scan.queue ++ [page]).length = 0 := by
      simp only [List.length_append, List.length_singleton]
      omega
    rw [Clock.view_turn h1, hzero]
    simp [hpage]
  · -- the evicted page has lost its mark, the others out of the queue never had one
    intro hsc q hq'
    simp only [List.mem_append, List.mem_singleton, not_or] at hq'
    by_cases hqt : q = scan.temp
    · have hmark : markValue p.alg = 1 := by rw [markValue, if_pos hsc]
      rw [hmark] at h2
      exact hqt ▸ h2
    · have hout : q ∉ temp :: queue := by
        rw [← hperm.mem_iff]
        simp [hqt, hq'.1]
      exact (h3 q hout).trans_ne (h.unmarked hsc q (hq ▸ hout))

end Request

/-- The request of the clock that corresponds to a result of the pager. -/
structure SimulatesRequest {n : Nat} (alg : Algorithm) (c : Clock Page n) (page : Page)
    (r : PagerState × Effect) : Prop where
  outcome_eq : (c.request (decide (alg = .circularQueue)) page).2 = r.2.outcome
  rotations_le : r.2.rotations ≤ n
  refines : RefinesClock r.1 (c.request (decide (alg = .circularQueue)) page).1

theorem pagerFault_simulates {frames : UInt32} {p : PagerState} {c : Clock Page frames.toNat}
    {page : Page} (halg : p.alg = .secondChance ∨ p.alg = .circularQueue)
    (hp : p.Valid frames) (hf : 1 ≤ frames.toNat) (h : RefinesClock p c) (hm : page ∉ p.queue)
    (hreset : p.alg = .circularQueue → p.bitRefs page = 0) :
    SimulatesRequest p.alg c page (pagerFault p page) := by
  obtain ⟨hmax, hn, hl⟩ := hp
  have hlfu : p.alg ≠ .leastFrequentlyUsed := by rcases halg with halg | halg <;> simp [halg]
  simp only [PagerState.resident, hlfu, if_false] at hn hl
  have hmiss : ¬ c.Holds page := fun hc => hm ((h.holds_iff page).mp hc)
  have hrequest : c.request (decide (p.alg = .circularQueue)) page =
      (c.sweep.turn (some (page, decide (p.alg = .circularQueue))),
        { hit := false, evicted := c.sweep.current.map Prod.fst }) := by
    rw [Clock.request, if_neg hmiss]
  by_cases hfull : (p.queue.length : Int) = p.maxSize
  · have hlen : p.queue.length = frames.toNat := by
      rw [hmax, length_eq_maxSize_iff hn] at hfull
      exact hfull
    have hfault : pagerFault p page = evictMarked (markValue p.alg) p page := by
      rcases halg with halg | halg <;>
        simp [pagerFault, hfull, halg, evictSecondChance, evictCircularQueue, markValue]
    obtain ⟨h1, h2, h3⟩ := h.evict halg hn hlen hf hm hreset
    rw [hfault]
    refine ⟨?_, h2, hrequest ▸ h3⟩
    rw [hrequest]
    simp only [Effect.outcome, h1]
    rfl
  · have hlt : p.queue.length < frames.toNat := by
      have hne : p.queue.length ≠ frames.toNat := by
        intro hlen
        exact hfull (by rw [hmax, length_eq_maxSize_iff hn]; exact hlen)
      omega
    obtain ⟨h1, h2⟩ := h.fill halg hlt hm hreset
    have hfault : pagerFault p page =
        ({ p with queue := p.queue ++ [page] }, { simGetPage := [page] }) := by
      rw [pagerFault, if_neg hfull]
    rw [hfault]
    refine ⟨?_, Nat.zero_le _, hrequest ▸ h2⟩
    rw [hrequest, h1]
    rfl

/-- The simulation step. -/
theorem pagerRequest_simulates (lib : QueueSort) {frames : UInt32} {p : PagerState}
    {c : Clock Page frames.toNat} (page : Page)
    (halg : p.alg = .secondChance ∨ p.alg = .circularQueue) (hp : p.Valid frames)
    (hf : 1 ≤ frames.toNat) (h : RefinesClock p c) :
    SimulatesRequest p.alg c page (pagerRequest lib p page) := by
  have hlfu : p.alg ≠ .leastFrequentlyUsed := by rcases halg with halg | halg <;> simp [halg]
  have hlru : p.alg ≠ .leastRecentlyUsed := by rcases halg with halg | halg <;> simp [halg]
  -- the state after `bit_refs[page] = 0`
  generalize hp' : (if p.alg = .circularQueue then
    { p with bitRefs := Function.update p.bitRefs page 0 } else p) = p'
  have halg' : p'.alg = p.alg := by rw [← hp']; split_ifs <;> rfl
  have hqueue : p'.queue = p.queue := by rw [← hp']; split_ifs <;> rfl
  have hreset : p'.alg = .circularQueue → p'.bitRefs page = 0 := by
    intro hc
    rw [halg'] at hc
    rw [← hp', if_pos hc]
    simp
  have hvalid : p'.Valid frames := by
    have hmax : p'.maxSize = p.maxSize := by rw [← hp']; split_ifs <;> rfl
    have hres : p'.resident = p.resident := by rw [← hp']; split_ifs <;> rfl
    exact ⟨hmax.trans hp.maxSize_eq, hres ▸ hp.nodup, hres ▸ hp.length_le⟩
  -- the counter `step` plays no part in the simulation
  have key : ∀ r : PagerState × Effect, SimulatesRequest p'.alg c page r →
      SimulatesRequest p.alg c page ({ r.1 with step := toInt32 (r.1.step + 1) }, r.2) := by
    rintro r ⟨h1, h2, h3⟩
    rw [halg'] at h1 h3
    exact ⟨h1, h2, h3.view_eq, h3.unmarked⟩
  have hrequest : pagerRequest lib p page =
      ({ (pagerRequestQueue p' page).1 with
        step := toInt32 ((pagerRequestQueue p' page).1.step + 1) },
        (pagerRequestQueue p' page).2) := by
    have hlfu' : p'.alg ≠ .leastFrequentlyUsed := halg' ▸ hlfu
    simp only [pagerRequest, hp', ne_eq, hlfu', not_false_eq_true, if_true]
  rw [hrequest]
  apply key
  have hne : ¬ p'.alg = .leastRecentlyUsed := halg' ▸ hlru
  simp only [pagerRequestQueue, findElem_eq, hne, if_false, hqueue]
  by_cases hm : page ∈ p.queue
  · -- a hit marks the page, whether its mark was reset before or not
    have hstate : ({ p' with queue := p.queue, bitRefs := markHit p'.alg page p'.bitRefs } :
        PagerState) = { p with bitRefs := markHit p.alg page p.bitRefs } := by
      rw [← hp']
      rcases halg with halg | halg <;> simp [halg, markHit]
    simp only [hm, decide_true, if_true, hstate]
    have hhit : c.request (decide (p.alg = .circularQueue)) page =
        (c.reference page, { hit := true, evicted := none }) := by
      rw [Clock.request, if_pos ((h.holds_iff page).mpr hm)]
    rw [halg']
    refine ⟨?_, Nat.zero_le _, ?_⟩
    · rw [hhit]
      rfl
    · rw [hhit]
      exact h.hit halg hm
  · have h' : RefinesClock p' c := by
      rw [← hp']
      split_ifs with hc
      · refine ⟨?_, fun hsc => absurd (hc.symm.trans hsc) (by simp)⟩
        rw [h.view_eq]
        congr 1
        refine (map_toFrame_congr fun v hv => ?_).symm
        have hne : v ≠ page := fun hvp => hm (hvp ▸ hv)
        exact Function.update_of_ne hne _ _
      · exact h
    have hsame : ({ p' with queue := p.queue, bitRefs := p'.bitRefs } : PagerState) = p' := by
      rw [← hqueue]
    simp only [hm, decide_false, Bool.false_eq_true, if_false, hsame]
    exact pagerFault_simulates (halg' ▸ halg) hvalid hf h' (hqueue ▸ hm) hreset

/-! ## Runs -/

theorem pagerInit_refines (alg : Algorithm) (frames : UInt32) (hpos : 0 < frames.toNat) :
    RefinesClock (pagerInit alg frames) (Clock.empty frames.toNat hpos) where
  view_eq := by simp [Clock.view_empty, pagerInit]
  unmarked := by simp [pagerInit]

theorem pagerEffects_simulate (lib : QueueSort) {frames : UInt32} (hf : 1 ≤ frames.toNat)
    (requests : List Page) {p : PagerState} {c : Clock Page frames.toNat}
    (halg : p.alg = .secondChance ∨ p.alg = .circularQueue) (hp : p.Valid frames)
    (h : RefinesClock p c) :
    (pagerEffects lib p requests).map Effect.outcome =
        c.outcomes (decide (p.alg = .circularQueue)) requests ∧
      ∀ e ∈ pagerEffects lib p requests, e.rotations ≤ frames.toNat := by
  induction requests generalizing p c with
  | nil => simp [pagerEffects, Clock.outcomes]
  | cons page requests ih =>
    have step := pagerRequest_step lib hf page hp
    have sim := pagerRequest_simulates lib page halg hp hf h
    obtain ⟨ih1, ih2⟩ := ih (step.alg_eq ▸ halg) (step.valid hp) sim.refines
    constructor
    · simp only [pagerEffects, Clock.outcomes, List.map_cons, sim.outcome_eq, ih1, step.alg_eq]
    · intro e he
      rcases List.mem_cons.mp he with rfl | he
      · exact sim.rotations_le
      · exact ih2 e he

/-- `SECOND_CHANCE` and `CIRCULAR_QUEUE` show the hits, faults and evicted pages of the clock in
which a loaded page is unreferenced, respectively referenced, and no eviction loop goes round more
often than there are frames. -/
theorem pager_refines_clock (lib : QueueSort) (alg : Algorithm)
    (halg : alg = .secondChance ∨ alg = .circularQueue) (frames : UInt32)
    (hf : 0 < frames.toNat) (requests : List Page) :
    (pagerEffects lib (pagerInit alg frames) requests).map Effect.outcome =
        (Clock.empty frames.toNat hf).outcomes (decide (alg = .circularQueue)) requests ∧
      ∀ e ∈ pagerEffects lib (pagerInit alg frames) requests, e.rotations ≤ frames.toNat :=
  pagerEffects_simulate lib hf requests halg (pagerInit_valid alg frames)
    (pagerInit_refines alg frames hf)

theorem pager_refines_clock_two_frames :
    (pagerEffects mergeQueueSort (pagerInit .secondChance 2) [7, 8, 7, 9]).map Effect.outcome =
        (Clock.empty 2 (by decide)).outcomes false [7, 8, 7, 9] ∧
      ∀ e ∈ pagerEffects mergeQueueSort (pagerInit .secondChance 2) [7, 8, 7, 9],
        e.rotations ≤ 2 :=
  pager_refines_clock mergeQueueSort .secondChance (Or.inl rfl) 2 (by decide) [7, 8, 7, 9]

end CSE130.Pager
