import CSE130.Pager.Frequency
import CSE130.Library.Recency

/-!
# The least recently used page

`LEAST_RECENTLY_USED` uses neither of the arrays of `pager.c`, so that any `unsigned int` may be
requested under it. The definitions below follow `pager.c` for `alg == 1`, on the page numbers and on
the numbers of frames that an `unsigned int` holds; on the page numbers below 1000000 they agree
with those of the five algorithms. The queue is the list of the most recently requested pages, which
makes the algorithm a stack algorithm: what is resident with some frames is resident with more.
-/

namespace CSE130.Pager

open CSE130.Recency (recent)

/-- The variables of `pager.c` that a request uses for `alg == 1`. -/
structure RecentState where
  maxSize : Int
  queue : List UInt32
  step : Int

/-- `pager_init(LEAST_RECENTLY_USED, frames)`. -/
def recentInit (frames : UInt32) : RecentState where
  maxSize := toInt32 frames.toNat
  queue := []
  step := 0

/-- The first loop of `find_elem` for `alg == 1`: a page that is found is not put into `temp`. -/
def findElemRecentLoop (val : UInt32) : List UInt32 → List UInt32 → Bool → List UInt32 × Bool
  | [], temp, flag => (temp, flag)
  | v :: q, temp, flag =>
    if v ≠ val then findElemRecentLoop val q (temp ++ [v]) flag
    else findElemRecentLoop val q temp true

/-- `find_elem` (`pager.c:63-91`) for `alg == 1`. -/
def findElemRecent (p : RecentState) (val : UInt32) : Bool × RecentState :=
  let (temp, flag) := findElemRecentLoop val p.queue [] false
  (flag, { p with queue := drainInto temp [] })

/-- `pager_request` (`pager.c:142-200`) for `alg == 1`, with the calls of `sim_get_page`. The result
of `queue_size` is an `int`. -/
def recentRequest (p : RecentState) (page : UInt32) : RecentState × List UInt32 :=
  let (found, p) := findElemRecent p page
  let (p, fetched) :=
    if found then ({ p with queue := p.queue ++ [page] }, [])
    else if toInt32 p.queue.length = p.maxSize then
      ({ p with queue := p.queue.tail ++ [page] }, [page])
    else ({ p with queue := p.queue ++ [page] }, [page])
  ({ p with step := toInt32 (p.step + 1) }, fetched)

/-- The state after a sequence of requests with a number of frames. -/
def recentRun (frames : UInt32) (requests : List UInt32) : RecentState :=
  requests.foldl (fun p page => (recentRequest p page).1) (recentInit frames)

/-- The number of calls of `sim_get_page` in the course of the requests. -/
def recentFaults (p : RecentState) : List UInt32 → Nat
  | [] => 0
  | page :: requests =>
    (recentRequest p page).2.length + recentFaults (recentRequest p page).1 requests

/-! ## The queue -/

theorem findElemRecentLoop_eq (val : UInt32) (q temp : List UInt32) (flag : Bool) :
    findElemRecentLoop val q temp flag = (temp ++ q.filter (· ≠ val), flag || decide (val ∈ q)) := by
  induction q generalizing temp flag with
  | nil => simp [findElemRecentLoop]
  | cons v q ih =>
    by_cases hv : v = val
    · subst hv
      simp [findElemRecentLoop, ih]
    · have hv' : ¬ val = v := fun h => hv h.symm
      simp [findElemRecentLoop, ih, hv, hv']

theorem findElemRecent_eq (p : RecentState) (val : UInt32) :
    findElemRecent p val =
      (decide (val ∈ p.queue), { p with queue := p.queue.filter (· ≠ val) }) := by
  simp [findElemRecent, findElemRecentLoop_eq]

theorem filter_eq_of_notMem {α : Type} [DecidableEq α] {q : List α} {a : α} (h : a ∉ q) :
    q.filter (· ≠ a) = q := by
  rw [List.filter_eq_self]
  intro v hv
  simpa using fun heq : v = a => h (heq ▸ hv)

/-- What a request does: a resident page moves to the tail, another one goes there, and in a full
queue the head leaves. -/
theorem recentRequest_eq (p : RecentState) (page : UInt32) :
    recentRequest p page =
      if page ∈ p.queue then
        ({ p with queue := p.queue.filter (· ≠ page) ++ [page], step := toInt32 (p.step + 1) }, [])
      else
        ({ p with
            queue := (if toInt32 p.queue.length = p.maxSize then p.queue.tail else p.queue) ++ [page]
            step := toInt32 (p.step + 1) }, [page]) := by
  unfold recentRequest
  rw [findElemRecent_eq]
  by_cases hm : page ∈ p.queue
  · simp only [hm, decide_true, if_true]
  · simp only [hm, decide_false, if_false, Bool.false_eq_true, filter_eq_of_notMem hm]
    split_ifs <;> rfl

/-- Two numbers of pages up to 2^32 - 1 are equal when their `int`s are. -/
theorem toInt32_inj {a b : Nat} (ha : a < 2 ^ 32) (hb : b < 2 ^ 32) :
    toInt32 a = toInt32 b ↔ a = b := by
  unfold toInt32
  rw [Int.bmod_def, Int.bmod_def]
  split <;> split <;> omega

theorem recentRun_append (frames : UInt32) (requests : List UInt32) (page : UInt32) :
    recentRun frames (requests ++ [page]) = (recentRequest (recentRun frames requests) page).1 := by
  simp [recentRun]

theorem recentFaults_append (p : RecentState) (requests : List UInt32) (page : UInt32) :
    recentFaults p (requests ++ [page]) = recentFaults p requests +
      (recentRequest (requests.foldl (fun p page => (recentRequest p page).1) p) page).2.length := by
  induction requests generalizing p with
  | nil => simp [recentFaults]
  | cons v requests ih => simp [recentFaults, ih, Nat.add_assoc]

section Run

variable {frames : UInt32}

/-- The run lemma: the queue holds the most recently requested pages, in the order of their last
requests. -/
theorem recentRun_queue (hf : 1 ≤ frames.toNat) (requests : List UInt32) :
    (recentRun frames requests).maxSize = toInt32 frames.toNat ∧
      (recentRun frames requests).queue = recent frames.toNat requests := by
  induction requests using List.reverseRecOn with
  | nil => simp [recentRun, recentInit]
  | append_singleton requests page ih =>
    obtain ⟨hmax, hqueue⟩ := ih
    have hlen := Recency.length_recent frames.toNat requests
    have hlt := frames.toNat_lt
    rw [recentRun_append, recentRequest_eq, hmax, hqueue]
    by_cases hm : page ∈ recent frames.toNat requests
    · simp only [if_pos hm, true_and]
      exact (Recency.recent_append_of_mem hm).symm
    · have hcount := @toInt32_inj (recent frames.toNat requests).length _ (by omega) hlt
      simp only [if_neg hm, true_and, hcount]
      exact (Recency.recent_append_of_notMem hf hm).symm

/-- A request fetches its page exactly when this is not among the recent ones. -/
theorem recentRequest_fetched (hf : 1 ≤ frames.toNat) (requests : List UInt32) (page : UInt32) :
    (recentRequest (recentRun frames requests) page).2.length =
      if page ∈ recent frames.toNat requests then 0 else 1 := by
  rw [recentRequest_eq, (recentRun_queue hf requests).2]
  split_ifs <;> rfl

/-- More frames do not cause more faults. -/
theorem recentFaults_le {n m : UInt32} (hn : 1 ≤ n.toNat) (hnm : n.toNat ≤ m.toNat)
    (requests : List UInt32) :
    recentFaults (recentInit m) requests ≤ recentFaults (recentInit n) requests := by
  induction requests using List.reverseRecOn with
  | nil => exact Nat.le_refl 0
  | append_singleton requests page ih =>
    have hfetchedN := recentRequest_fetched hn requests page
    have hfetchedM := recentRequest_fetched (hn.trans hnm) requests page
    have hsub : page ∈ recent n.toNat requests → page ∈ recent m.toNat requests :=
      fun h => (Recency.recent_suffix_of_le hnm requests).mem h
    rw [recentFaults_append, recentFaults_append]
    change _ + (recentRequest (recentRun m requests) page).2.length ≤
      _ + (recentRequest (recentRun n requests) page).2.length
    rw [hfetchedN, hfetchedM]
    split_ifs with hm hn' hn'
    · exact ih
    · omega
    · exact absurd (hsub hn') hm
    · omega

end Run

/-- After any requests the queue is the list of the most recently requested pages, as many as there
are frames, in the order of their last requests. What is resident with `n` frames is resident with
`m`, and the run with `m` frames does not have more faults. -/
theorem lru_stack (n m : UInt32) (hn : 1 ≤ n) (hnm : n ≤ m) (requests : List UInt32) :
    (recentRun n requests).queue = recent n.toNat requests ∧
      (recentRun n requests).queue.length = min n.toNat requests.dedup.length ∧
      (∀ page ∈ (recentRun n requests).queue, page ∈ (recentRun m requests).queue) ∧
      recentFaults (recentInit m) requests ≤ recentFaults (recentInit n) requests := by
  have hn' : 1 ≤ n.toNat := UInt32.le_iff_toNat_le.mp hn
  have hnm' : n.toNat ≤ m.toNat := UInt32.le_iff_toNat_le.mp hnm
  have hqueueN := (recentRun_queue hn' requests).2
  have hqueueM := (recentRun_queue (hn'.trans hnm') requests).2
  rw [hqueueN, hqueueM]
  refine ⟨rfl, Recency.length_recent _ _, ?_, recentFaults_le hn' hnm' requests⟩
  intro page hpage
  exact (Recency.recent_suffix_of_le hnm' requests).mem hpage

theorem lru_stack_twoFrames :
    (recentRun 2 [7, 8, 7, 4294967295]).queue = [7, 4294967295] ∧
      (recentRun 2 [7, 8, 7, 4294967295]).queue.length = 2 ∧
      (∀ page ∈ (recentRun 2 [7, 8, 7, 4294967295]).queue,
        page ∈ (recentRun 3 [7, 8, 7, 4294967295]).queue) ∧
      recentFaults (recentInit 3) [7, 8, 7, 4294967295] ≤
        recentFaults (recentInit 2) [7, 8, 7, 4294967295] := by
  obtain ⟨hqueue, hlen, hsub, hfaults⟩ :=
    lru_stack 2 3 (by decide) (by decide) [7, 8, 7, 4294967295]
  exact ⟨hqueue.trans (by decide +kernel), hlen.trans (by decide +kernel), hsub, hfaults⟩

/-! ## The pages below 1000000 -/

/-- A page number as the `unsigned int` that it is. -/
def Page.toUInt32 (v : Page) : UInt32 := UInt32.ofNat v.val

theorem Page.toUInt32_injective : Function.Injective Page.toUInt32 := by
  intro v w h
  have h' := congrArg UInt32.toNat h
  have hv := v.isLt
  have hw := w.isLt
  simp only [Page.toUInt32, UInt32.toNat_ofNat'] at h'
  apply Fin.ext
  omega

/-- The pager of the five algorithms and this one go through the same states. -/
structure SameRecent (p : PagerState) (r : RecentState) : Prop where
  alg_eq : p.alg = .leastRecentlyUsed
  maxSize_eq : r.maxSize = p.maxSize
  queue_eq : r.queue = p.queue.map Page.toUInt32
  step_eq : r.step = p.step

theorem SameRecent.request (lib : QueueSort) {frames : UInt32} {p : PagerState} {r : RecentState}
    (hp : p.Valid frames) (h : SameRecent p r) (page : Page) :
    SameRecent (pagerRequest lib p page).1 (recentRequest r page.toUInt32).1 ∧
      (recentRequest r page.toUInt32).2 =
        (pagerRequest lib p page).2.simGetPage.map Page.toUInt32 := by
  obtain ⟨halg, hmax, hqueue, hstep⟩ := h
  have hnodup : p.queue.Nodup := by simpa [PagerState.resident, halg] using hp.nodup
  have hlen : toInt32 p.queue.length = (p.queue.length : Int) := by
    have hle := length_le_of_nodup hnodup
    apply toInt32_of_lt <;> omega
  have hmem : page.toUInt32 ∈ r.queue ↔ page ∈ p.queue := by
    rw [hqueue, List.mem_map_of_injective Page.toUInt32_injective]
  have hcirc : p.alg ≠ .circularQueue := by simp [halg]
  have hfreq : p.alg ≠ .leastFrequentlyUsed := by simp [halg]
  rw [recentRequest_eq]
  simp only [pagerRequest, if_neg hcirc, if_pos hfreq, pagerRequestQueue, findElem_eq, if_pos halg]
  by_cases hm : page ∈ p.queue
  · have hfilter : r.queue.filter (· ≠ page.toUInt32) =
        (p.queue.filter (· ≠ page)).map Page.toUInt32 := by
      rw [hqueue, List.filter_map]
      refine congrArg _ (List.filter_congr ?_)
      intro v _
      simp [Page.toUInt32_injective.eq_iff]
    simp only [hmem, hm, decide_true, if_true]
    refine ⟨⟨halg, hmax, ?_, ?_⟩, rfl⟩
    · rw [hfilter, List.map_append, List.map_singleton]
    · simp only [hstep]
  · simp only [hmem, hm, decide_false, if_false, Bool.false_eq_true, pagerFault,
      filter_eq_of_notMem hm]
    have hlen' : toInt32 r.queue.length = (p.queue.length : Int) := by
      rw [hqueue, List.length_map, hlen]
    rw [hlen', hmax]
    by_cases hfull : (p.queue.length : Int) = p.maxSize
    · simp only [hfull, if_true, halg, reduceCtorEq, if_false]
      refine ⟨⟨rfl, rfl, ?_, ?_⟩, rfl⟩
      · cases hq : p.queue <;> simp [hqueue, hq, queueDequeue]
      · simp only [hstep]
    · simp only [hfull, if_false]
      refine ⟨⟨halg, rfl, ?_, ?_⟩, rfl⟩
      · simp [hqueue]
      · simp only [hstep]

/-- On page numbers below 1000000 the run is the one of the five algorithms. -/
theorem pagerRun_sameRecent (lib : QueueSort) {frames : UInt32} (hf : 1 ≤ frames.toNat)
    (requests : List Page) :
    SameRecent (pagerRun lib (pagerInit .leastRecentlyUsed frames) requests)
      (recentRun frames (requests.map Page.toUInt32)) := by
  induction requests using List.reverseRecOn with
  | nil => exact ⟨rfl, rfl, rfl, rfl⟩
  | append_singleton requests page ih =>
    have hvalid := pagerRun_valid lib hf requests (pagerInit_valid .leastRecentlyUsed frames)
    rw [List.map_append, List.map_singleton, recentRun_append, pagerRun_append]
    exact (ih.request lib hvalid page).1

end CSE130.Pager
