import CSE130.Cartman.Steps

/-!
# The carts exclude each other

From the test of the `while` that it passes to its second `release`, a cart owns the two junctions of
its track. The place where its thread is says what `locks` and the reservations of the two are, and
which calls it has made.
-/

namespace CSE130.Cartman

open Library

/-! ## The invariant -/

section Invariant

variable {n : UInt32} {carts : Carts n} {s s' s₁ : State} {c d : Nat} {t : Thread} {j j₁ j₂ : Junction}
  {m : CartMove} {pc pc' : Pc}

/-- The thread is one of a cart that arrives, and it has what `arrive` was called with. -/
def ThreadOk (carts : Carts n) (s : State) (c : Nat) : Thread → Prop
  | .away => True
  | .created => ∃ a, carts.arrival c = some a ∧ s.cMoves c = a.move c
  | .running m j₁ j₂ _ => ∃ a, carts.arrival c = some a ∧ m = a.move c ∧ a.Ends j₁ j₂
  | .returned => False

/-- What the shared state says of a junction that the cart owns. -/
def OwnedAt (s : State) (c : Nat) (t : Thread) (j : Junction) : Prop :=
  s.locks j = t.markAt j ∧ s.reserved j = if t.holdsAt j then [c] else []

/-- The invariant of a run. -/
structure Inv (carts : Carts n) (s : State) : Prop where
  tracks : s.numTracks = n
  ok : ∀ c, ThreadOk carts s c (s.thread c)
  mutex : ∀ c, s.mutex = some c ↔ (s.thread c).critical = true
  exclusive : ∀ c d j, (s.thread c).Owns j → (s.thread d).Owns j → c = d
  owned : ∀ c j, (s.thread c).Owns j → OwnedAt s c (s.thread c) j
  free : ∀ j, (∀ c, ¬ (s.thread c).Owns j) → s.locks j = 0 ∧ s.reserved j = []
  made : ∀ c, s.calls.filter (fun call => call.cart = c) = (s.thread c).made

theorem inv_start (carts : Carts n) : Inv carts (State.start n) where
  tracks := rfl
  ok _ := trivial
  mutex _ := by simp [State.start, Thread.critical]
  exclusive _ _ _ h := h.elim
  owned _ _ h := h.elim
  free _ _ := ⟨rfl, rfl⟩
  made _ := rfl

/-- What a step of the thread of `c` does that leaves the thread itself to be set to `t`. -/
structure Advance (carts : Carts n) (s s₁ : State) (c : Nat) (t : Thread) : Prop where
  tracks : s₁.numTracks = s.numTracks
  thread : s₁.thread = s.thread
  moves : ∀ d, d ≠ c → s₁.cMoves d = s.cMoves d
  ok : ThreadOk carts s₁ c t
  mutex : t.critical = (s.thread c).critical ∧ s₁.mutex = s.mutex ∨
    s.mutex = none ∧ s₁.mutex = some c ∧ t.critical = true ∨
    (s.thread c).critical = true ∧ s₁.mutex = none ∧ t.critical = false
  gain : ∀ j, t.Owns j → (s.thread c).Owns j ∨ ∀ d, ¬ (s.thread d).Owns j
  outside : ∀ j, ¬ (s.thread c).Owns j → ¬ t.Owns j →
    s₁.locks j = s.locks j ∧ s₁.reserved j = s.reserved j
  inside : ∀ j, t.Owns j → OwnedAt s₁ c t j
  lose : ∀ j, (s.thread c).Owns j → ¬ t.Owns j → s₁.locks j = 0 ∧ s₁.reserved j = []
  made : ∃ new, s₁.calls = s.calls ++ new ∧ (∀ call ∈ new, call.cart = c) ∧
    t.made = (s.thread c).made ++ new

theorem ThreadOk.congr (h : ThreadOk carts s c t) (hmoves : s'.cMoves c = s.cMoves c) :
    ThreadOk carts s' c t := by
  cases t with
  | away => trivial
  | created =>
    obtain ⟨a, ha, hmove⟩ := h
    exact ⟨a, ha, hmoves.trans hmove⟩
  | running m j₁ j₂ pc => exact h
  | returned => exact h

theorem setThread_self : (s.setThread c t).thread c = t := Function.update_self _ _ _

theorem setThread_of_ne (h : d ≠ c) : (s.setThread c t).thread d = s.thread d :=
  Function.update_of_ne h _ _

/-- The step keeps the invariant. -/
theorem Advance.inv (h : Inv carts s) (ha : Advance carts s s₁ c t) :
    Inv carts (s₁.setThread c t) := by
  have hother : ∀ {d}, d ≠ c → (s₁.setThread c t).thread d = s.thread d :=
    fun hd => (setThread_of_ne hd).trans (congrFun ha.thread _)
  have hself : (s₁.setThread c t).thread c = t := setThread_self
  -- what `c` owns after the step, no other cart owned before it
  have hgain : ∀ d j, d ≠ c → t.Owns j → ¬ (s.thread d).Owns j := by
    intro d j hd hj hdj
    rcases ha.gain j hj with hc | hnone
    · exact hd (h.exclusive d c j hdj hc)
    · exact hnone d hdj
  have hkeep : ∀ d j, d ≠ c → (s.thread d).Owns j →
      s₁.locks j = s.locks j ∧ s₁.reserved j = s.reserved j :=
    fun d j hd hdj => ha.outside j (fun hcj => hd (h.exclusive d c j hdj hcj))
      fun hj => hgain d j hd hj hdj
  refine ⟨ha.tracks.trans h.tracks, ?_, ?_, ?_, ?_, ?_, ?_⟩
  · intro d
    by_cases hd : d = c
    · subst hd
      rw [hself]
      exact ha.ok
    · rw [hother hd]
      exact (h.ok d).congr (ha.moves d hd)
  · intro d
    change s₁.mutex = some d ↔ _
    by_cases hd : d = c
    · subst hd
      rw [hself]
      rcases ha.mutex with ⟨hcrit, hmutex⟩ | ⟨-, hmutex, hcrit⟩ | ⟨-, hmutex, hcrit⟩
      · rw [hcrit, hmutex]
        exact h.mutex d
      · exact iff_of_true hmutex hcrit
      · rw [hmutex, hcrit]
        exact iff_of_false (by simp) (by simp)
    · rw [hother hd, ← h.mutex d]
      rcases ha.mutex with ⟨-, hmutex⟩ | ⟨hnone, hmutex, -⟩ | ⟨hcrit, hmutex, -⟩
      · rw [hmutex]
      · rw [hmutex, hnone]
        exact iff_of_false (fun heq => hd (Option.some.inj heq).symm) (by simp)
      · rw [hmutex, (h.mutex c).mpr hcrit]
        exact iff_of_false (by simp) (fun heq => hd (Option.some.inj heq).symm)
  · intro d e j hd he
    by_cases hdc : d = c
    · by_cases hec : e = c
      · exact hdc.trans hec.symm
      · rw [hdc, hself] at hd
        rw [hother hec] at he
        exact absurd he (hgain e j hec hd)
    · rw [hother hdc] at hd
      by_cases hec : e = c
      · rw [hec, hself] at he
        exact absurd hd (hgain d j hdc he)
      · rw [hother hec] at he
        exact h.exclusive d e j hd he
  · intro d j hj
    by_cases hd : d = c
    · subst hd
      rw [hself] at hj ⊢
      exact ha.inside j hj
    · rw [hother hd] at hj ⊢
      obtain ⟨hlocks, hreserved⟩ := hkeep d j hd hj
      exact ⟨hlocks.trans (h.owned d j hj).1, hreserved.trans (h.owned d j hj).2⟩
  · intro j hj
    have htj : ¬ t.Owns j := hself ▸ hj c
    by_cases hcj : (s.thread c).Owns j
    · exact ha.lose j hcj htj
    · obtain ⟨hlocks, hreserved⟩ := ha.outside j hcj htj
      have hfree : ∀ d, ¬ (s.thread d).Owns j := by
        intro d
        by_cases hd : d = c
        · exact hd ▸ hcj
        · exact hother hd ▸ hj d
      exact ⟨hlocks.trans (h.free j hfree).1, hreserved.trans (h.free j hfree).2⟩
  · intro d
    obtain ⟨new, hcalls, hcart, hmade⟩ := ha.made
    change s₁.calls.filter _ = _
    rw [hcalls, List.filter_append, h.made d]
    by_cases hd : d = c
    · subst hd
      rw [hself, hmade]
      congr 1
      exact List.filter_eq_self.mpr fun call hcall => decide_eq_true (hcart call hcall)
    · rw [hother hd]
      have hnone : new.filter (fun call => call.cart = d) = [] := by
        rw [List.filter_eq_nil_iff]
        intro call hcall heq
        exact hd ((of_decide_eq_true heq).symm.trans (hcart call hcall))
      rw [hnone, List.append_nil]

/-! ## Steps keep the invariant -/

/-- What the shared state says of the two junctions of a cart that owns them. -/
structure PairAt (s : State) (c : Nat) (j₁ j₂ : Junction) (pc : Pc) : Prop where
  lock1 : s.locks j₁ = pc.marks.1
  lock2 : s.locks j₂ = pc.marks.2
  reserved1 : s.reserved j₁ = if pc.holds.1 then [c] else []
  reserved2 : s.reserved j₂ = if pc.holds.2 then [c] else []

/-- The step keeps what is said of the two junctions. -/
theorem PairAt.effect (hne : j₁ ≠ j₂) (hm : m.cartNum = c) (hown : pc.owns = true) {b : Bool}
    (h : PairAt s c j₁ j₂ pc) : PairAt (effect s c m j₁ j₂ pc) c j₁ j₂ (pc.next b) := by
  obtain ⟨h1, h2, h3, h4⟩ := h
  cases pc <;> simp only [Pc.owns, Bool.false_eq_true] at hown
  case set1 => exact ⟨Function.update_self _ _ _, (Function.update_of_ne hne.symm _ _).trans h2, h3, h4⟩
  case set2 => exact ⟨(Function.update_of_ne hne _ _).trans h1, Function.update_self _ _ _, h3, h4⟩
  case reserve1 =>
    refine ⟨h1, h2, (Function.update_self _ _ _).trans ?_, (Function.update_of_ne hne.symm _ _).trans h4⟩
    rw [h3, hm]
    rfl
  case reserve2 =>
    refine ⟨h1, h2, (Function.update_of_ne hne _ _).trans h3, (Function.update_self _ _ _).trans ?_⟩
    rw [h4, hm]
    rfl
  case unlock1 => exact ⟨h1, h2, h3, h4⟩
  case cross => exact ⟨h1, h2, h3, h4⟩
  case lock2 => exact ⟨h1, h2, h3, h4⟩
  case clear1 => exact ⟨Function.update_self _ _ _, (Function.update_of_ne hne.symm _ _).trans h2, h3, h4⟩
  case clear2 => exact ⟨(Function.update_of_ne hne _ _).trans h1, Function.update_self _ _ _, h3, h4⟩
  case release1 =>
    refine ⟨h1, h2, (Function.update_self _ _ _).trans ?_, (Function.update_of_ne hne.symm _ _).trans h4⟩
    rw [h3, hm]
    exact List.erase_cons_head _ _
  case release2 =>
    refine ⟨h1, h2, (Function.update_of_ne hne _ _).trans h3, (Function.update_self _ _ _).trans ?_⟩
    rw [h4, hm]
    exact List.erase_cons_head _ _

theorem PairAt.ownedAt (h : PairAt s c j₁ j₂ pc) (hj : j = j₁ ∨ j = j₂) :
    OwnedAt s c (.running m j₁ j₂ pc) j := by
  by_cases heq : j = j₁
  · have hmark : (Thread.running m j₁ j₂ pc).markAt j = pc.marks.1 := if_pos heq
    have hhold : (Thread.running m j₁ j₂ pc).holdsAt j = pc.holds.1 := if_pos heq
    rw [OwnedAt, hmark, hhold, heq]
    exact ⟨h.lock1, h.reserved1⟩
  · have hmark : (Thread.running m j₁ j₂ pc).markAt j = pc.marks.2 := if_neg heq
    have hhold : (Thread.running m j₁ j₂ pc).holdsAt j = pc.holds.2 := if_neg heq
    rw [OwnedAt, hmark, hhold, hj.resolve_left heq]
    exact ⟨h.lock2, h.reserved2⟩

theorem Inv.pairAt (h : Inv carts s) (hne : j₁ ≠ j₂) (ht : s.thread c = .running m j₁ j₂ pc)
    (hown : pc.owns = true) : PairAt s c j₁ j₂ pc := by
  have hat : ∀ j, j = j₁ ∨ j = j₂ → OwnedAt s c (.running m j₁ j₂ pc) j := by
    intro j hj
    have hj' : (s.thread c).Owns j := by
      rw [ht]
      exact ⟨hown, hj⟩
    exact ht ▸ h.owned c j hj'
  obtain ⟨h1, h3⟩ := hat j₁ (Or.inl rfl)
  obtain ⟨h2, h4⟩ := hat j₂ (Or.inr rfl)
  simp only [Thread.markAt, Thread.holdsAt, if_true, if_neg hne.symm] at h1 h2 h3 h4
  exact ⟨h1, h2, h3, h4⟩

/-- A cart that holds the mutex and finds its junctions free becomes their owner. -/
theorem Inv.not_owns (h : Inv carts s) (hmutex : s.mutex = some c) (hown : ¬ (s.thread c).Owns j)
    (hfree : s.locks j = 0) (d : Nat) : ¬ (s.thread d).Owns j := by
  intro hd
  have hdc : d ≠ c := by
    rintro rfl
    exact hown hd
  have hcrit : (s.thread d).critical = false := by
    refine Bool.eq_false_iff.mpr fun hcrit => ?_
    rw [← h.mutex d, hmutex] at hcrit
    exact hdc (Option.some.inj hcrit).symm
  have hmark := (h.owned d j hd).1
  cases htd : s.thread d with
  | running m' i₁ i₂ pc' =>
    rw [htd] at hd hcrit hmark
    have hmarks := (marks_of_owns hd.1 hcrit).1
    rw [hfree, Thread.markAt, hmarks] at hmark
    split at hmark <;> cases hmark
  | _ =>
    rw [htd] at hd
    exact hd

/-- The step of a thread inside `reserve2`, `cross` or `release2`. -/
theorem Inv.advance (hn : 2 ≤ n) (h : Inv carts s) (ht : s.thread c = .running m j₁ j₂ pc)
    (hblocked : ¬ Blocked s pc) (hpc : pc ≠ .broadcast) :
    Advance carts s (effect s c m j₁ j₂ pc) c (.running m j₁ j₂ (pc.next (busy s j₁ j₂))) := by
  have hok := h.ok c
  rw [ht] at hok
  obtain ⟨a, ha, rfl, hends⟩ := hok
  have hne := hends.ne hn
  have hfree : pc = .test → busy s j₁ j₂ = false → ∀ j, j = j₁ ∨ j = j₂ →
      ∀ d, ¬ (s.thread d).Owns j := by
    rintro rfl hbusy j hj
    simp only [busy, decide_eq_false_iff_not, not_or, not_not] at hbusy
    apply h.not_owns
    · rw [h.mutex c, ht]
      rfl
    · rw [ht]
      exact fun hown => by cases hown.1
    · rcases hj with rfl | rfl
      · exact hbusy.1
      · exact hbusy.2
  have hpair : (pc.owns = true ∨ (pc.next (busy s j₁ j₂)).owns = true) →
      PairAt (effect s c (a.move c) j₁ j₂ pc) c j₁ j₂ (pc.next (busy s j₁ j₂)) := by
    intro hown
    by_cases hpcown : pc.owns = true
    · exact PairAt.effect (m := a.move c) hne rfl hpcown (h.pairAt hne ht hpcown)
    · rcases next_owns (hown.resolve_left hpcown) with hpcown' | ⟨rfl, hbusy⟩
      · exact absurd hpcown' hpcown
      · obtain ⟨h1, h3⟩ := h.free j₁ (hfree rfl hbusy j₁ (Or.inl rfl))
        obtain ⟨h2, h4⟩ := h.free j₂ (hfree rfl hbusy j₂ (Or.inr rfl))
        rw [hbusy]
        exact ⟨h1, h2, h3, h4⟩
  exact {
    tracks := by cases pc <;> rfl
    thread := by
      cases pc with
      | broadcast => exact absurd rfl hpc
      | _ => rfl
    moves := fun d _ => by cases pc <;> rfl
    ok := ⟨a, ha, rfl, hends⟩
    mutex := by
      rw [ht]
      rcases @effect_mutex s c j₁ j₂ (a.move c) pc (busy s j₁ j₂) with hsame | ⟨htakes, hnew⟩ | hgives
      · exact Or.inl hsame
      · refine Or.inr (Or.inl ⟨by_contra fun hmutex => ?_, hnew⟩)
        exact hblocked (Or.inr (Or.inr ⟨htakes, hmutex⟩))
      · exact Or.inr (Or.inr hgives)
    gain := by
      intro j hj
      rw [ht]
      rcases next_owns hj.1 with hown | ⟨hpc', hbusy⟩
      · exact Or.inl ⟨hown, hj.2⟩
      · exact Or.inr (hfree hpc' hbusy j hj.2)
    outside := by
      intro j hj _
      rw [ht] at hj
      apply effect_frame
      by_cases hown : pc.owns = true
      · exact Or.inr (not_or.mp fun hor => hj ⟨hown, hor⟩)
      · exact Or.inl (Bool.eq_false_iff.mpr hown)
    inside := fun j hj => (hpair (Or.inr hj.1)).ownedAt hj.2
    lose := by
      intro j hj hj'
      rw [ht] at hj
      have hlost : (pc.next (busy s j₁ j₂)).owns = false :=
        Bool.eq_false_iff.mpr fun hown => hj' ⟨hown, hj.2⟩
      obtain ⟨hmarks, hholds⟩ := marks_of_not_owns hlost
      have hat := (hpair (Or.inl hj.1)).ownedAt (m := a.move c) hj.2
      simpa [OwnedAt, Thread.markAt, Thread.holdsAt, hmarks, hholds] using hat
    made := by
      obtain ⟨new, hcalls, hcart, hmade⟩ := @effect_calls s c j₁ j₂ (a.move c) pc (busy s j₁ j₂)
      rw [ht]
      exact ⟨new, hcalls, hcart, hmade⟩ }

/-- Some of the sleeping threads wake up. -/
theorem Inv.wake (h : Inv carts s) {threads : Nat → Thread}
    (ht : ∀ d, threads d = s.thread d ∨ threads d = (s.thread d).wake) :
    Inv carts { s with thread := threads } := by
  have hcases : ∀ d, threads d = s.thread d ∨ ∃ m j₁ j₂,
      s.thread d = .running m j₁ j₂ .asleep ∧ threads d = .running m j₁ j₂ .woken := by
    intro d
    rcases ht d with hd | hd
    · exact Or.inl hd
    · rw [hd]
      exact (s.thread d).wake_cases
  have hcrit : ∀ d, (threads d).critical = (s.thread d).critical := by
    intro d
    rcases hcases d with hd | ⟨m, j₁, j₂, hd, hd'⟩
    · rw [hd]
    · rw [hd, hd']
      rfl
  have howns : ∀ d j, (threads d).Owns j → threads d = s.thread d := by
    intro d j hj
    rcases hcases d with hd | ⟨m, j₁, j₂, -, hd'⟩
    · exact hd
    · rw [hd'] at hj
      cases hj.1
  have howned : ∀ d j, (s.thread d).Owns j → (threads d).Owns j := by
    intro d j hj
    rcases hcases d with hd | ⟨m, j₁, j₂, hd, -⟩
    · rwa [hd]
    · rw [hd] at hj
      cases hj.1
  refine ⟨h.tracks, ?_, ?_, ?_, ?_, ?_, ?_⟩
  · intro d
    change ThreadOk carts _ d (threads d)
    have hok := h.ok d
    rcases hcases d with hd | ⟨m, j₁, j₂, hd, hd'⟩
    · rw [hd]
      exact hok.congr rfl
    · rw [hd] at hok
      rw [hd']
      exact hok
  · intro d
    exact (h.mutex d).trans (by rw [← hcrit d])
  · intro d e j hd he
    exact h.exclusive d e j (howns d j hd ▸ hd) (howns e j he ▸ he)
  · intro d j hd
    have heq := howns d j hd
    have howned' := h.owned d j (heq ▸ hd)
    rw [← heq] at howned'
    exact howned'
  · intro j hj
    exact h.free j fun d hd => hj d (howned d j hd)
  · intro d
    refine (h.made d).trans ?_
    change _ = (threads d).made
    rcases hcases d with hd | ⟨m, j₁, j₂, hd, hd'⟩
    · rw [hd]
    · rw [hd, hd']
      rfl

/-- A step that makes no call, of a thread that neither holds the mutex nor owns a junction, before or
after it. -/
theorem Advance.quiet {moves : Nat → CartMove} (hmoves : ∀ d, d ≠ c → moves d = s.cMoves d)
    (hok : ThreadOk carts { s with cMoves := moves } c t) (hcrit : (s.thread c).critical = false)
    (hcrit' : t.critical = false) (hown : ∀ j, ¬ (s.thread c).Owns j) (hown' : ∀ j, ¬ t.Owns j)
    (hmade : t.made = (s.thread c).made) :
    Advance carts s { s with cMoves := moves } c t where
  tracks := rfl
  thread := rfl
  moves := hmoves
  ok := hok
  mutex := Or.inl ⟨hcrit'.trans hcrit.symm, rfl⟩
  gain j hj := absurd hj (hown' j)
  outside _ _ _ := ⟨rfl, rfl⟩
  inside j hj := absurd hj (hown' j)
  lose j hj _ := absurd hj (hown j)
  made := ⟨[], (List.append_nil _).symm, List.forall_mem_nil _, hmade.trans (List.append_nil _).symm⟩

/-- The junctions of a cart have an entry in `locks`. -/
theorem Inv.bounds (hfits : carts.Fits) (h : Inv carts s) (ht : s.thread c = .running m j₁ j₂ pc) :
    j₁.toNat < arraySize ∧ j₂.toNat < arraySize := by
  have hok := h.ok c
  rw [ht] at hok
  obtain ⟨a, ha, -, hends⟩ := hok
  obtain ⟨htrack, hnext⟩ := hfits c a ha
  rcases hends with ⟨rfl, rfl⟩ | ⟨rfl, rfl⟩
  · exact ⟨htrack, hnext⟩
  · exact ⟨hnext, htrack⟩

/-- Every event keeps the invariant. -/
theorem Transition.inv (hn : 2 ≤ n) (h : Inv carts s) (htrans : Transition carts s s') :
    Inv carts s' := by
  cases htrans with
  | @arrive c a ht ha =>
    refine Advance.inv h (Advance.quiet ?_ ?_ ?_ rfl ?_ (fun _ => id) ?_)
    · exact fun d hd => Function.update_of_ne hd _ _
    · exact ⟨a, ha, Function.update_self _ _ _⟩
    · rw [ht]
      rfl
    · rw [ht]
      exact fun _ => id
    · rw [ht]
      rfl
  | @start c j₁ j₂ ht hstart =>
    have hok := h.ok c
    rw [ht] at hok
    obtain ⟨a, ha, hmove⟩ := hok
    obtain ⟨i₁, i₂, hstart', hends⟩ := cartStart_ends hn a c
    rw [h.tracks, hmove, Arrival.move, hstart'] at hstart
    cases hstart
    refine Advance.inv h (Advance.quiet (fun _ _ => rfl) ⟨a, ha, hmove, hends⟩ ?_ rfl ?_ ?_ ?_)
    · rw [ht]
      rfl
    · rw [ht]
      exact fun _ => id
    · exact fun j hj => by cases hj.1
    · rw [ht]
      rfl
  | @run c m j₁ j₂ pc ht hblocked =>
    by_cases hpc : pc = .broadcast
    · subst hpc
      -- first all sleepers wake up, then the thread itself goes on
      have hwake : Inv carts { s with thread := fun d => (s.thread d).wake } :=
        h.wake fun d => Or.inr rfl
      have ht' : (s.thread c).wake = .running m j₁ j₂ .broadcast := by
        rw [ht]
        rfl
      have hok := hwake.ok c
      refine Advance.inv hwake (Advance.quiet (fun _ _ => rfl) ?_ ?_ rfl ?_ ?_ ?_)
      · change ThreadOk carts _ c (s.thread c).wake at hok
        rw [ht'] at hok
        exact hok
      · exact congrArg Thread.critical ht'
      · intro j hj
        change (s.thread c).wake.Owns j at hj
        rw [ht'] at hj
        cases hj.1
      · exact fun j hj => by cases hj.1
      · exact (congrArg Thread.made ht').symm
    · exact Advance.inv h (h.advance hn ht hblocked hpc)
  | @wake c m j₁ j₂ ht =>
    apply h.wake
    intro d
    by_cases hd : d = c
    · subst hd
      right
      rw [ht]
      exact Function.update_self _ _ _
    · exact Or.inl (Function.update_of_ne hd _ _)

/-- What an event leads to. -/
theorem Inv.step_cases (hn : 2 ≤ n) (hfits : carts.Fits) (h : Inv carts s) (e : Event) :
    (∃ s', s.step carts e = .ok s' ∧ Transition carts s s') ∨ s.step carts e = .error .disabled := by
  cases e with
  | arrive c =>
    simp only [State.step, State.arrive]
    split
    · rename_i a ht ha
      rw [if_pos (carts.number_lt ha)]
      exact Or.inl ⟨_, rfl, .arrive ht ha⟩
    · exact Or.inr rfl
  | thread c =>
    rw [State.step]
    cases ht : s.thread c with
    | away => exact Or.inr (by rw [State.threadStep, ht])
    | returned => exact Or.inr (by rw [State.threadStep, ht])
    | created =>
      left
      have hok := h.ok c
      rw [ht] at hok
      obtain ⟨a, ha, hmove⟩ := hok
      obtain ⟨j₁, j₂, hstart, -⟩ := cartStart_ends hn a c
      have hstart' : cartStart s.numTracks (s.cMoves c) = some (j₁, j₂) := by
        rw [h.tracks, hmove]
        exact hstart
      refine ⟨_, ?_, .start ht hstart'⟩
      simp only [State.threadStep, ht, hstart']
    | running m j₁ j₂ pc =>
      by_cases hblocked : Blocked s pc
      · exact Or.inr (threadStep_blocked ht hblocked)
      · obtain ⟨h₁, h₂⟩ := h.bounds hfits ht
        exact Or.inl ⟨_, threadStep_running ht h₁ h₂ hblocked, .run ht hblocked⟩
  | wake c =>
    simp only [State.step]
    split
    · rename_i m j₁ j₂ ht
      refine Or.inl ⟨_, rfl, ?_⟩
      rw [ht]
      exact .wake ht
    · exact Or.inr rfl

theorem Inv.transition (hn : 2 ≤ n) (hfits : carts.Fits) (h : Inv carts s) {e : Event}
    (hs : s.step carts e = .ok s') : Transition carts s s' := by
  rcases h.step_cases hn hfits e with ⟨s'', hok, htrans⟩ | hdisabled
  · rw [hs] at hok
    cases hok
    exact htrans
  · rw [hs] at hdisabled
    cases hdisabled

theorem CartReachable.inv (hn : 2 ≤ n) (hfits : carts.Fits) (hr : CartReachable carts s) :
    Inv carts s :=
  Reachable.invariant (inv_start carts)
    (fun _ _ _ _ hinv _ hs => (hinv.transition hn hfits hs).inv hn hinv) s hr

/-! ## What the carts can rely on -/

/-- The call is one that the system accepts: a cart reserves only free junctions, crosses only its own
track and holds both ends of it, and releases only what it has reserved. -/
def Allowed (carts : Carts n) (s : State) : Call → Prop
  | .reserve _ j => s.reserved j = []
  | .cross c t j => ∃ a, carts.arrival c = some a ∧ t = a.track ∧ j = a.junction ∧
      s.reserved t = [c] ∧ s.reserved (nextJunction n t) = [c]
  | .release c j => s.reserved j = [c]

/-- How often the cart has to reserve and to release the junction. -/
def Arrival.share (a : Arrival n) (j : Junction) : Nat :=
  if j = a.track ∨ j = nextJunction n a.track then 1 else 0

/-- The carts exclude each other. -/
structure Safe (carts : Carts n) (s : State) : Prop where
  defined : ∀ e, s.step carts e ≠ .error .outOfBounds
  single : ∀ j, (s.reserved j).length ≤ 1
  locks : s.mutex = none → ∀ j, s.locks j = 1 ↔ s.reserved j ≠ []
  calls : ∀ c call, s.nextCall c = some call → call.cart = c ∧ Allowed carts s call
  once : ∀ c a j, carts.arrival c = some a →
    s.calls.count (.release c j) ≤ s.calls.count (.reserve c j) ∧
      s.calls.count (.reserve c j) ≤ a.share j
  finished : ∀ c a j, carts.arrival c = some a → s.Finished c →
    s.calls.count (.reserve c j) = a.share j ∧ s.calls.count (.release c j) = a.share j

theorem Inv.reserved_le (h : Inv carts s) (j : Junction) : (s.reserved j).length ≤ 1 := by
  by_cases hown : ∃ c, (s.thread c).Owns j
  · obtain ⟨c, hc⟩ := hown
    rw [(h.owned c j hc).2]
    split
    · exact Nat.le_refl 1
    · exact Nat.zero_le 1
  · rw [(h.free j (not_exists.mp hown)).2]
    exact Nat.zero_le 1

theorem Inv.locks_iff (hn : 2 ≤ n) (h : Inv carts s) (hmutex : s.mutex = none) (j : Junction) :
    s.locks j = 1 ↔ s.reserved j ≠ [] := by
  by_cases hown : ∃ c, (s.thread c).Owns j
  · obtain ⟨c, hc⟩ := hown
    have hcrit : (s.thread c).critical = false := by
      refine Bool.eq_false_iff.mpr fun hcrit => ?_
      rw [← h.mutex c, hmutex] at hcrit
      cases hcrit
    cases ht : s.thread c with
    | running m j₁ j₂ pc =>
      rw [ht] at hc hcrit
      have hok := h.ok c
      rw [ht] at hok
      obtain ⟨a, -, -, hends⟩ := hok
      obtain ⟨hmarks, hholds⟩ := marks_of_owns hc.1 hcrit
      obtain ⟨h1, h2, h3, h4⟩ := h.pairAt (hends.ne hn) ht hc.1
      rw [hmarks] at h1 h2
      rw [hholds] at h3 h4
      rcases hc.2 with rfl | rfl
      · exact iff_of_true h1 (by rw [h3]; exact List.cons_ne_nil _ _)
      · exact iff_of_true h2 (by rw [h4]; exact List.cons_ne_nil _ _)
    | _ =>
      rw [ht] at hc
      exact hc.elim
  · obtain ⟨hlocks, hreserved⟩ := h.free j (not_exists.mp hown)
    rw [hlocks, hreserved]
    exact iff_of_false (by decide) (fun hne => hne rfl)

theorem Inv.calls_allowed (hn : 2 ≤ n) (h : Inv carts s) {call : Call}
    (hcall : s.nextCall c = some call) : call.cart = c ∧ Allowed carts s call := by
  unfold State.nextCall at hcall
  have hok := h.ok c
  have hpair : ∀ m j₁ j₂ pc, s.thread c = .running m j₁ j₂ pc → pc.owns = true → j₁ ≠ j₂ →
      PairAt s c j₁ j₂ pc := fun m j₁ j₂ pc ht hown hne => h.pairAt hne ht hown
  split at hcall <;> cases hcall <;> rename_i ht
  · rw [ht] at hok
    obtain ⟨a, ha, rfl, hends⟩ := hok
    exact ⟨rfl, (hpair _ _ _ _ ht rfl (hends.ne hn)).reserved1⟩
  · rw [ht] at hok
    obtain ⟨a, ha, rfl, hends⟩ := hok
    exact ⟨rfl, (hpair _ _ _ _ ht rfl (hends.ne hn)).reserved2⟩
  · rw [ht] at hok
    obtain ⟨a, ha, rfl, hends⟩ := hok
    obtain ⟨-, -, h3, h4⟩ := hpair _ _ _ _ ht rfl (hends.ne hn)
    refine ⟨rfl, a, ha, rfl, rfl, ?_⟩
    rcases hends with ⟨rfl, rfl⟩ | ⟨rfl, rfl⟩
    · exact ⟨h3, h4⟩
    · exact ⟨h4, h3⟩
  · rw [ht] at hok
    obtain ⟨a, ha, rfl, hends⟩ := hok
    exact ⟨rfl, (hpair _ _ _ _ ht rfl (hends.ne hn)).reserved1⟩
  · rw [ht] at hok
    obtain ⟨a, ha, rfl, hends⟩ := hok
    exact ⟨rfl, (hpair _ _ _ _ ht rfl (hends.ne hn)).reserved2⟩

/-- How often each junction has been reserved and released at a place in the code. -/
theorem made_count (hne : j₁ ≠ j₂) (hm : m.cartNum = c) (j : Junction) :
    (pc.made m j₁ j₂).count (.release c j) ≤ (pc.made m j₁ j₂).count (.reserve c j) ∧
      (pc.made m j₁ j₂).count (.reserve c j) ≤ if j = j₁ ∨ j = j₂ then 1 else 0 := by
  subst hm
  by_cases h₁ : j = j₁
  · subst h₁
    cases pc <;> simp [Pc.made, hne.symm]
  · by_cases h₂ : j = j₂
    · subst h₂
      cases pc <;> simp [Pc.made, hne]
    · cases pc <;> simp [Pc.made, h₁, h₂, eq_comm (b := j)]

theorem made_count_exited (hne : j₁ ≠ j₂) (hm : m.cartNum = c) (j : Junction) :
    (Pc.exited.made m j₁ j₂).count (.reserve c j) = (if j = j₁ ∨ j = j₂ then 1 else 0) ∧
      (Pc.exited.made m j₁ j₂).count (.release c j) = if j = j₁ ∨ j = j₂ then 1 else 0 := by
  subst hm
  by_cases h₁ : j = j₁
  · subst h₁
    simp [Pc.made, hne.symm]
  · by_cases h₂ : j = j₂
    · subst h₂
      simp [Pc.made, hne]
    · simp [Pc.made, h₁, h₂, eq_comm (b := j)]

theorem Arrival.Ends.share {a : Arrival n} (h : a.Ends j₁ j₂) (j : Junction) :
    a.share j = if j = j₁ ∨ j = j₂ then 1 else 0 := by
  unfold Arrival.share
  rcases h with ⟨rfl, rfl⟩ | ⟨rfl, rfl⟩
  · rfl
  · simp only [or_comm]

theorem Inv.count (h : Inv carts s) {call : Call} (hcart : call.cart = c) :
    s.calls.count call = (s.thread c).made.count call := by
  rw [← h.made c, List.count_filter (by simpa using hcart)]

theorem Inv.safe (hn : 2 ≤ n) (hfits : carts.Fits) (h : Inv carts s) : Safe carts s where
  defined e hout := by
    rcases h.step_cases hn hfits e with ⟨s', hok, -⟩ | hdisabled
    · rw [hout] at hok
      cases hok
    · rw [hout] at hdisabled
      cases hdisabled
  single := h.reserved_le
  locks := h.locks_iff hn
  calls _ _ := h.calls_allowed hn
  once c a j ha := by
    rw [h.count (c := c) rfl, h.count (c := c) rfl]
    have hok := h.ok c
    cases ht : s.thread c with
    | running m j₁ j₂ pc =>
      rw [ht] at hok
      obtain ⟨a', ha', rfl, hends⟩ := hok
      rw [ha] at ha'
      cases ha'
      rw [hends.share]
      exact made_count (m := a.move c) (hends.ne hn) rfl j
    | _ => exact ⟨Nat.le_refl 0, Nat.zero_le _⟩
  finished c a j ha hfin := by
    rw [h.count (c := c) rfl, h.count (c := c) rfl]
    obtain ⟨m, j₁, j₂, ht⟩ := hfin
    have hok := h.ok c
    rw [ht] at hok ⊢
    obtain ⟨a', ha', rfl, hends⟩ := hok
    rw [ha] at ha'
    cases ha'
    rw [hends.share]
    exact made_count_exited (m := a.move c) (hends.ne hn) rfl j

end Invariant

/-- With any number of carts on a ring of any number of tracks, in every order of steps, the carts
exclude each other, as long as the junctions that they come to have an entry in `locks`. -/
theorem cartman_excludes {n : UInt32} (hn : 2 ≤ n) {carts : Carts n} (hfits : carts.Fits) {s : State}
    (hr : CartReachable carts s) : Safe carts s :=
  (hr.inv hn hfits).safe hn hfits

/-- Two carts come to the two junctions of a ring of two tracks. -/
def twoCarts : Carts 2 where
  arrival
    | 0 => some { track := 0, junction := 0, track_lt := by decide, atEnd := Or.inl rfl }
    | 1 => some { track := 0, junction := 1, track_lt := by decide, atEnd := Or.inr rfl }
    | _ => none
  number_lt {c a} h := by
    match c, h with
    | 0, _ => decide
    | 1, _ => decide

theorem twoCarts_fits : twoCarts.Fits := by
  intro c a ha
  match c, ha with
  | 0, ha =>
    cases ha
    exact ⟨by decide, by decide⟩
  | 1, ha =>
    cases ha
    exact ⟨by decide, by decide⟩

/-- The second cart goes to sleep while the first one has both junctions. -/
def twoCartsRun : List Event :=
  [Event.arrive 0, .arrive 1] ++ List.replicate 8 (Event.thread 0) ++
    List.replicate 4 (Event.thread 1) ++ List.replicate 8 (Event.thread 0) ++
    List.replicate 15 (Event.thread 1)

theorem cartman_excludes_twoCarts : ∃ s, CartReachable twoCarts s ∧ s.Finished 0 ∧ s.Finished 1 ∧
    Safe twoCarts s := by
  have hrun : (run (State.step twoCarts) (fun _ _ => true) (State.start 2) twoCartsRun).map
      (fun s => (s.thread 0, s.thread 1)) =
      some (.running { cartNum := 0, trackNum := 0, juncNum := 0 } 0 1 .exited,
        .running { cartNum := 1, trackNum := 0, juncNum := 1 } 1 0 .exited) := by
    decide +kernel
  obtain ⟨s, hs, hthreads⟩ := Option.map_eq_some_iff.mp hrun
  obtain ⟨h0, h1⟩ := Prod.mk.inj hthreads
  have hr : CartReachable twoCarts s := reachable_of_run (fun _ _ _ => trivial) .start hs
  exact ⟨s, hr, ⟨_, _, _, h0⟩, ⟨_, _, _, h1⟩, cartman_excludes (by decide) twoCarts_fits hr⟩

/-- A single cart comes to the last junction of a ring of 10001 tracks. -/
def farCart : Carts 10001 where
  arrival
    | 0 => some { track := 10000, junction := 10000, track_lt := by decide, atEnd := Or.inl rfl }
    | _ => none
  number_lt {c a} h := by
    match c, h with
    | 0, _ => decide

/-- The cart is about to read `locks[10000]`. -/
theorem farCart_leaves_locks : ∃ s, CartReachable farCart s ∧ (∃ m, s.thread 0 = .running m 10000 0 .test) ∧
    s.step farCart (.thread 0) = .error .outOfBounds := by
  have h₁ := Reachable.step
    (@Reachable.start _ _ _ (State.step farCart) (fun _ _ => True) (State.start 10001))
    (e := .arrive 0) trivial rfl
  have h₂ := Reachable.step h₁ (e := .thread 0) trivial rfl
  have h₃ := Reachable.step h₂ (e := .thread 0) trivial rfl
  exact ⟨_, h₃, ⟨_, rfl⟩, rfl⟩

theorem cartman_excludes_not_all :
    ¬ ∀ (n : UInt32) (carts : Carts n) (s : State), 2 ≤ n → CartReachable carts s → Safe carts s := by
  intro h
  obtain ⟨s, hr, -, hout⟩ := farCart_leaves_locks
  exact (h 10001 farCart s (by decide) hr).defined _ hout

end CSE130.Cartman
