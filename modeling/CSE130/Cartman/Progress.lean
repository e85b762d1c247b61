import CSE130.Cartman.Exclusion

/-!
# No cart waits in vain

A cart is asleep only while one of its junctions is marked in `locks`, or while some other cart that
has cleared its marks is still to broadcast.
-/

namespace CSE130.Cartman

open Library

/-- Inside `release2`, with a mark cleared and the broadcast to make. -/
def Pc.releasing : Pc → Bool
  | clear2 | release1 | release2 | unlock2 | broadcast => true
  | _ => false

def Thread.releasing : Thread → Bool
  | running _ _ _ pc => pc.releasing
  | _ => false

section Progress

variable {n : UInt32} {carts : Carts n} {s s' : State} {c d : Nat} {j j₁ j₂ i₁ i₂ : Junction}
  {m : CartMove} {pc : Pc}

/-- A cart that waits for the junctions has a reason to. -/
structure Hindered (s : State) : Prop where
  waits : ∀ {c m j₁ j₂}, s.thread c = .running m j₁ j₂ .wait → busy s j₁ j₂ = true
  asleep : ∀ {c m j₁ j₂}, s.thread c = .running m j₁ j₂ .asleep →
    busy s j₁ j₂ = true ∨ ∃ d, (s.thread d).releasing = true

/-- Only a thread that holds the mutex changes `locks`. -/
theorem effect_locks (hcrit : pc.critical = false) : (effect s c m j₁ j₂ pc).locks = s.locks := by
  cases pc <;> simp only [Pc.critical, Bool.true_eq_false] at hcrit <;> rfl

/-- A cart that clears a mark is then about to broadcast. -/
theorem effect_busy (b : Bool) (h : busy s i₁ i₂ = true) :
    busy (effect s c m j₁ j₂ pc) i₁ i₂ = true ∨ (pc.next b).releasing = true := by
  have hset : ∀ j, busy { s with locks := Function.update s.locks j 1 } i₁ i₂ = true := by
    intro j
    simp only [busy, decide_eq_true_eq, Function.update_apply] at h ⊢
    rcases h with h | h
    · left
      split
      · decide
      · exact h
    · right
      split
      · decide
      · exact h
  cases pc
  case set1 => exact Or.inl (hset j₁)
  case set2 => exact Or.inl (hset j₂)
  case clear1 => exact Or.inr rfl
  case clear2 => exact Or.inr rfl
  all_goals exact Or.inl h

theorem next_releasing (b : Bool) (h : pc.releasing = true) (hpc : pc ≠ .broadcast) :
    (pc.next b).releasing = true := by
  cases pc <;> simp [Pc.releasing, Pc.next] at h hpc ⊢

theorem next_eq_wait {b : Bool} (h : pc.next b = .wait) : pc = .test ∧ b = true := by
  cases pc <;> cases b <;> simp [Pc.next] at h ⊢

theorem next_eq_asleep {b : Bool} (h : pc.next b = .asleep) : pc = .wait ∨ pc = .asleep := by
  cases pc <;> cases b <;> simp [Pc.next] at h ⊢

theorem hindered_start : Hindered (State.start n) where
  waits h := by cases h
  asleep h := by cases h

/-- A thread that starts or wakes up hinders nobody and is not hindered. -/
theorem Hindered.setThread (h : Hindered s) {t : Thread} {moves : Nat → CartMove}
    (hold : (s.thread c).releasing = false) (hwait : ∀ m j₁ j₂, t ≠ .running m j₁ j₂ .wait)
    (hasleep : ∀ m j₁ j₂, t ≠ .running m j₁ j₂ .asleep) :
    Hindered ({ s with cMoves := moves }.setThread c t) where
  waits {d m j₁ j₂} hd := by
    by_cases hdc : d = c
    · subst hdc
      rw [setThread_self] at hd
      exact absurd hd (hwait m j₁ j₂)
    · rw [setThread_of_ne hdc] at hd
      exact h.waits hd
  asleep {d m j₁ j₂} hd := by
    by_cases hdc : d = c
    · subst hdc
      rw [setThread_self] at hd
      exact absurd hd (hasleep m j₁ j₂)
    · rw [setThread_of_ne hdc] at hd
      rcases h.asleep hd with hbusy | ⟨e, he⟩
      · exact Or.inl hbusy
      · refine Or.inr ⟨e, ?_⟩
        have hec : e ≠ c := by
          rintro rfl
          rw [hold] at he
          cases he
        rw [setThread_of_ne hec]
        exact he

/-- A step inside `reserve2`, `cross` or `release2` other than the broadcast. -/
theorem Hindered.run (hinv : Inv carts s) (h : Hindered s) (ht : s.thread c = .running m j₁ j₂ pc)
    (hblocked : ¬ Blocked s pc) (hpc : pc ≠ .broadcast) : Hindered
      ((effect s c m j₁ j₂ pc).setThread c (.running m j₁ j₂ (pc.next (busy s j₁ j₂)))) := by
  have hthread : (effect s c m j₁ j₂ pc).thread = s.thread := by
    cases pc with
    | broadcast => exact absurd rfl hpc
    | _ => rfl
  have hother : ∀ {d}, d ≠ c → ((effect s c m j₁ j₂ pc).setThread c
      (.running m j₁ j₂ (pc.next (busy s j₁ j₂)))).thread d = s.thread d :=
    fun hd => (setThread_of_ne hd).trans (congrFun hthread _)
  constructor
  · intro d m' i₁ i₂ hd
    by_cases hdc : d = c
    · subst hdc
      rw [setThread_self] at hd
      obtain ⟨rfl, rfl, rfl, hnext⟩ := Thread.running.inj hd
      obtain ⟨rfl, hbusy⟩ := next_eq_wait hnext
      exact hbusy
    · rw [hother hdc] at hd
      -- the waiting cart holds the mutex, so that this step leaves `locks` alone
      have hmutex : s.mutex = some d := (hinv.mutex d).mpr (by rw [hd]; rfl)
      have hcrit : pc.critical = false := by
        refine Bool.eq_false_iff.mpr fun hcrit => hdc ?_
        have hc : s.mutex = some c := (hinv.mutex c).mpr (by rw [ht]; exact hcrit)
        rw [hmutex] at hc
        exact Option.some.inj hc
      have hbusy := h.waits hd
      unfold busy at hbusy ⊢
      change decide ((effect s c m j₁ j₂ pc).locks i₁ ≠ 0 ∨ (effect s c m j₁ j₂ pc).locks i₂ ≠ 0) = true
      rwa [effect_locks hcrit]
  · intro d m' i₁ i₂ hd
    have hself : (pc.next (busy s j₁ j₂)).releasing = true → ∃ e, (((effect s c m j₁ j₂ pc).setThread c
        (.running m j₁ j₂ (pc.next (busy s j₁ j₂)))).thread e).releasing = true := by
      intro hrel
      refine ⟨c, ?_⟩
      rw [setThread_self]
      exact hrel
    by_cases hdc : d = c
    · subst hdc
      rw [setThread_self] at hd
      obtain ⟨rfl, rfl, rfl, hnext⟩ := Thread.running.inj hd
      rcases next_eq_asleep hnext with rfl | rfl
      · exact Or.inl (h.waits ht)
      · exact absurd (Or.inl rfl) hblocked
    · rw [hother hdc] at hd
      rcases h.asleep hd with hbusy | ⟨e, he⟩
      · rcases effect_busy (busy s j₁ j₂) hbusy with hbusy' | hrel
        · exact Or.inl hbusy'
        · exact Or.inr (hself hrel)
      · right
        by_cases hec : e = c
        · subst hec
          rw [ht] at he
          exact hself (next_releasing _ he hpc)
        · refine ⟨e, ?_⟩
          rw [hother hec]
          exact he

/-- After the broadcast no cart is asleep. -/
theorem Hindered.broadcast (h : Hindered s) : Hindered
      ({ s with thread := fun d => (s.thread d).wake }.setThread c (.running m j₁ j₂ .exited)) where
  waits {d m' i₁ i₂} hd := by
    by_cases hdc : d = c
    · subst hdc
      rw [setThread_self] at hd
      cases hd
    · rw [setThread_of_ne hdc] at hd
      change (s.thread d).wake = _ at hd
      rcases (s.thread d).wake_cases with hwake | ⟨_, _, _, -, hwake⟩
      · rw [hwake] at hd
        exact h.waits hd
      · rw [hwake] at hd
        cases hd
  asleep {d m' i₁ i₂} hd := by
    by_cases hdc : d = c
    · subst hdc
      rw [setThread_self] at hd
      cases hd
    · rw [setThread_of_ne hdc] at hd
      change (s.thread d).wake = _ at hd
      cases htd : s.thread d with
      | running m'' k₁ k₂ pc =>
        rw [htd] at hd
        cases pc <;> cases hd
      | _ =>
        rw [htd] at hd
        cases hd

theorem Transition.hindered (hinv : Inv carts s) (h : Hindered s) (htrans : Transition carts s s') :
    Hindered s' := by
  cases htrans with
  | arrive ht ha =>
    refine h.setThread ?_ ?_ ?_
    · rw [ht]
      rfl
    · intro m j₁ j₂ heq
      cases heq
    · intro m j₁ j₂ heq
      cases heq
  | start ht hstart =>
    refine h.setThread ?_ ?_ ?_
    · rw [ht]
      rfl
    · intro m j₁ j₂ heq
      cases heq
    · intro m j₁ j₂ heq
      cases heq
  | @run c m j₁ j₂ pc ht hblocked =>
    by_cases hpc : pc = .broadcast
    · subst hpc
      exact h.broadcast
    · exact h.run hinv ht hblocked hpc
  | wake ht =>
    refine h.setThread ?_ ?_ ?_
    · rw [ht]
      rfl
    · intro m j₁ j₂ heq
      cases heq
    · intro m j₁ j₂ heq
      cases heq

theorem CartReachable.hindered (hn : 2 ≤ n) (hfits : carts.Fits) (hr : CartReachable carts s) :
    Hindered s := by
  refine Reachable.invariant hindered_start ?_ s hr
  intro s e s' hr h _ hs
  have hinv := CartReachable.inv hn hfits hr
  exact (hinv.transition hn hfits hs).hindered hinv h

/-- An event other than a spurious wake-up. -/
def Event.proper : Event → Bool
  | wake _ => false
  | _ => true

/-- Some event other than a spurious wake-up can happen. -/
def CanGoOn (carts : Carts n) (s : State) : Prop :=
  ∃ e s', Event.proper e = true ∧ s.step carts e = .ok s'

theorem Inv.canGoOn_of_not_blocked (hfits : carts.Fits) (hinv : Inv carts s)
    (ht : s.thread c = .running m j₁ j₂ pc) (hblocked : ¬ Blocked s pc) : CanGoOn carts s := by
  obtain ⟨h₁, h₂⟩ := hinv.bounds hfits ht
  exact ⟨.thread c, _, rfl, threadStep_running ht h₁ h₂ hblocked⟩

/-- A thread that holds the mutex is not blocked. -/
theorem not_blocked_of_critical (h : pc.critical = true) : ¬ Blocked s pc := by
  cases pc <;> simp [Pc.critical, Blocked, Pc.takes] at h ⊢

/-- While the mutex is free, a thread is blocked only if it is asleep or has ended. -/
theorem not_blocked_of_free (hmutex : s.mutex = none) (h : pc ≠ .asleep) (h' : pc ≠ .exited) :
    ¬ Blocked s pc := by
  rintro (rfl | rfl | ⟨-, hne⟩)
  · exact h rfl
  · exact h' rfl
  · exact hne hmutex

/-- While the mutex is free, the owner of a junction is not blocked. -/
theorem Inv.canGoOn_of_mark (hfits : carts.Fits) (hinv : Inv carts s) (hmutex : s.mutex = none)
    (hmark : s.locks j ≠ 0) : CanGoOn carts s := by
  have hown : ∃ c, (s.thread c).Owns j := by
    by_contra hnone
    exact hmark (hinv.free j (not_exists.mp hnone)).1
  obtain ⟨c, hc⟩ := hown
  cases ht : s.thread c with
  | running m j₁ j₂ pc =>
    rw [ht] at hc
    refine hinv.canGoOn_of_not_blocked hfits ht (not_blocked_of_free hmutex ?_ ?_)
    · rintro rfl
      cases hc.1
    · rintro rfl
      cases hc.1
  | _ =>
    rw [ht] at hc
    exact hc.elim

/-- As long as a cart has not crossed its track, something can happen. -/
theorem Inv.canGoOn (hn : 2 ≤ n) (hfits : carts.Fits) (hinv : Inv carts s) (h : Hindered s)
    {a : Arrival n} (ha : carts.arrival c = some a) (hfin : ¬ s.Finished c) : CanGoOn carts s := by
  have hok := hinv.ok c
  cases ht : s.thread c with
  | away =>
    have hstep : s.step carts (.arrive c) = .ok ({ s with
        cMoves := Function.update s.cMoves c (a.move c) }.setThread c .created) := by
      simp only [State.step, State.arrive, ht, ha]
      exact if_pos (carts.number_lt ha)
    exact ⟨.arrive c, _, rfl, hstep⟩
  | returned =>
    rw [ht] at hok
    exact hok.elim
  | created =>
    rw [ht] at hok
    obtain ⟨a', ha', hmove⟩ := hok
    obtain ⟨j₁, j₂, hstart, -⟩ := cartStart_ends hn a' c
    rw [← Arrival.move, ← hmove, ← hinv.tracks] at hstart
    have hstep : s.step carts (.thread c) =
        .ok (s.setThread c (.running (s.cMoves c) j₁ j₂ .lock1)) := by
      simp only [State.step, State.threadStep, ht, hstart]
    exact ⟨.thread c, _, rfl, hstep⟩
  | running m j₁ j₂ pc =>
    cases hmutex : s.mutex with
    | some d =>
      have hcrit := (hinv.mutex d).mp hmutex
      cases htd : s.thread d with
      | running m' i₁ i₂ pc' =>
        rw [htd] at hcrit
        exact hinv.canGoOn_of_not_blocked hfits htd (not_blocked_of_critical hcrit)
      | _ =>
        rw [htd] at hcrit
        cases hcrit
    | none =>
      by_cases hasleep : pc = .asleep
      · subst hasleep
        rcases h.asleep ht with hbusy | ⟨d, hd⟩
        · rw [busy, decide_eq_true_eq] at hbusy
          rcases hbusy with hmark | hmark
          · exact hinv.canGoOn_of_mark hfits hmutex hmark
          · exact hinv.canGoOn_of_mark hfits hmutex hmark
        · cases htd : s.thread d with
          | running m' i₁ i₂ pc' =>
            rw [htd] at hd
            refine hinv.canGoOn_of_not_blocked hfits htd (not_blocked_of_free hmutex ?_ ?_)
            · rintro rfl
              cases hd
            · rintro rfl
              cases hd
          | _ =>
            rw [htd] at hd
            cases hd
      · refine hinv.canGoOn_of_not_blocked hfits ht (not_blocked_of_free hmutex hasleep ?_)
        rintro rfl
        exact hfin ⟨m, j₁, j₂, ht⟩

end Progress

/-- In no state is there a cart that has not crossed its track and nothing that can happen, even
without spurious wake-ups; and no cart is asleep while both its junctions are free and no other cart
is still to broadcast. -/
theorem cartman_progresses {n : UInt32} (hn : 2 ≤ n) {carts : Carts n} (hfits : carts.Fits) {s : State}
    (hr : CartReachable carts s) :
    (∀ c a, carts.arrival c = some a → ¬ s.Finished c → CanGoOn carts s) ∧
    ∀ c m j₁ j₂, s.thread c = .running m j₁ j₂ .asleep → s.locks j₁ = 0 → s.locks j₂ = 0 →
      ∃ d, (s.thread d).releasing = true := by
  have hinv := hr.inv hn hfits
  have h := hr.hindered hn hfits
  refine ⟨fun c a ha hfin => hinv.canGoOn hn hfits h ha hfin, ?_⟩
  intro c m j₁ j₂ ht h₁ h₂
  rcases h.asleep ht with hbusy | hreleasing
  · rw [busy, decide_eq_true_eq] at hbusy
    exact absurd hbusy (by simp [h₁, h₂])
  · exact hreleasing

/-- The second cart sleeps until the first one broadcasts. -/
theorem cartman_progresses_twoCarts : ∃ s m, CartReachable twoCarts s ∧
    s.thread 1 = .running m 1 0 .asleep ∧ CanGoOn twoCarts s := by
  have hrun : (run (State.step twoCarts) (fun _ _ => true) (State.start 2)
      (twoCartsRun.take 14)).map (fun s => s.thread 1) =
      some (.running { cartNum := 1, trackNum := 0, juncNum := 1 } 1 0 .asleep) := by
    decide +kernel
  obtain ⟨s, hs, ht⟩ := Option.map_eq_some_iff.mp hrun
  have hr : CartReachable twoCarts s := reachable_of_run (fun _ _ _ => trivial) .start hs
  refine ⟨s, _, hr, ht, (cartman_progresses (by decide) twoCarts_fits hr).1 1 _ rfl ?_⟩
  rintro ⟨m, j₁, j₂, hfin⟩
  rw [ht] at hfin
  cases hfin

/-- The cart that is about to read past the end of `locks` is not finished, and nothing can happen. -/
theorem cartman_progresses_not_all : ¬ ∀ (n : UInt32) (carts : Carts n) (s : State), 2 ≤ n →
    CartReachable carts s → ∀ c a, carts.arrival c = some a → ¬ s.Finished c → CanGoOn carts s := by
  intro h
  have h₁ := Reachable.step (@Reachable.start _ _ _ (State.step farCart) (fun _ _ => True)
    (State.start 10001)) (e := .arrive 0) trivial rfl
  have h₂ := Reachable.step h₁ (e := .thread 0) trivial rfl
  have h₃ := Reachable.step h₂ (e := .thread 0) trivial rfl
  obtain ⟨e, s', hproper, hs⟩ := h 10001 farCart _ (by decide) h₃ 0 _ rfl (by
    rintro ⟨m, j₁, j₂, hfin⟩
    cases hfin)
  cases e with
  | wake c => cases hproper
  | arrive c =>
    match c, hs with
    | 0, hs => cases hs
    | c + 1, hs => cases hs
  | thread c =>
    match c, hs with
    | 0, hs => cases hs
    | c + 1, hs => cases hs

end CSE130.Cartman
