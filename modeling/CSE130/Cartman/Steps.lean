import CSE130.Cartman.Basic

/-!
# The steps of a cart

For each place in the code of a cart, what its next step does to the shared state, and which events
lead from one state to another.
-/

namespace CSE130.Cartman

open Library

/-! ## What a place in the code says -/

/-- The thread holds the mutex. -/
def Pc.critical : Pc → Bool
  | test | wait | set1 | set2 | reserve1 | reserve2 | unlock1 => true
  | clear1 | clear2 | release1 | release2 | unlock2 => true
  | _ => false

/-- The cart owns its two junctions. -/
def Pc.owns : Pc → Bool
  | set1 | set2 | reserve1 | reserve2 | unlock1 | cross | lock2 => true
  | clear1 | clear2 | release1 | release2 => true
  | _ => false

/-- `locks` of the two junctions. -/
def Pc.marks : Pc → Int × Int
  | set2 => (1, 0)
  | reserve1 | reserve2 | unlock1 | cross | lock2 | clear1 => (1, 1)
  | clear2 => (0, 1)
  | _ => (0, 0)

/-- Which of the two junctions the cart has reserved. -/
def Pc.holds : Pc → Bool × Bool
  | reserve2 => (true, false)
  | unlock1 | cross | lock2 | clear1 | clear2 | release1 => (true, true)
  | release2 => (false, true)
  | _ => (false, false)

/-- The calls that the thread has made. -/
def Pc.made (m : CartMove) (j₁ j₂ : Junction) : Pc → List Call
  | reserve2 => [.reserve m.cartNum j₁]
  | unlock1 | cross => [.reserve m.cartNum j₁, .reserve m.cartNum j₂]
  | lock2 | clear1 | clear2 | release1 =>
    [.reserve m.cartNum j₁, .reserve m.cartNum j₂, .cross m.cartNum m.trackNum m.juncNum]
  | release2 =>
    [.reserve m.cartNum j₁, .reserve m.cartNum j₂, .cross m.cartNum m.trackNum m.juncNum,
      .release m.cartNum j₁]
  | unlock2 | broadcast | exited =>
    [.reserve m.cartNum j₁, .reserve m.cartNum j₂, .cross m.cartNum m.trackNum m.juncNum,
      .release m.cartNum j₁, .release m.cartNum j₂]
  | _ => []

namespace Thread

def critical : Thread → Bool
  | running _ _ _ pc => pc.critical
  | _ => false

def Owns : Thread → Junction → Prop
  | running _ j₁ j₂ pc, j => pc.owns = true ∧ (j = j₁ ∨ j = j₂)
  | _, _ => False

/-- `locks[j]`, if the cart owns `j`. -/
def markAt : Thread → Junction → Int
  | running _ j₁ _ pc, j => if j = j₁ then pc.marks.1 else pc.marks.2
  | _, _ => 0

def holdsAt : Thread → Junction → Bool
  | running _ j₁ _ pc, j => if j = j₁ then pc.holds.1 else pc.holds.2
  | _, _ => false

def made : Thread → List Call
  | running m j₁ j₂ pc => pc.made m j₁ j₂
  | _ => []

end Thread

/-! ## The ends of a track -/

section Ends

variable {n : UInt32} {j₁ j₂ : Junction}

/-- The two junctions are the ends of the track, in either order. -/
def Arrival.Ends (a : Arrival n) (j₁ j₂ : Junction) : Prop :=
  j₁ = a.track ∧ j₂ = nextJunction n a.track ∨ j₁ = nextJunction n a.track ∧ j₂ = a.track

theorem nextJunction_ne (hn : 2 ≤ n) (t : Track) : nextJunction n t ≠ t := by
  rw [UInt32.le_iff_toNat_le] at hn
  have htwo : (2 : UInt32).toNat = 2 := rfl
  have hlt := t.toNat_lt
  intro h
  have hnat := congrArg UInt32.toNat h
  by_cases hlast : t + 1 = n
  · have hlast' := congrArg UInt32.toNat hlast
    rw [nextJunction, if_pos hlast] at hnat
    rw [UInt32.toNat_add] at hlast'
    simp at hnat hlast'
    omega
  · rw [nextJunction, if_neg hlast, UInt32.toNat_add] at hnat
    simp at hnat
    omega

theorem Arrival.Ends.ne (hn : 2 ≤ n) {a : Arrival n} (h : a.Ends j₁ j₂) : j₁ ≠ j₂ := by
  rcases h with ⟨rfl, rfl⟩ | ⟨rfl, rfl⟩
  · exact (nextJunction_ne hn _).symm
  · exact nextJunction_ne hn _

/-- `cart_start` finds the two ends of the track, from whichever of them the cart comes. -/
theorem cartStart_ends (hn : 2 ≤ n) (a : Arrival n) (cart : Nat) : ∃ j₁ j₂,
    cartStart n { cartNum := cart, trackNum := a.track, juncNum := a.junction } = some (j₁, j₂) ∧
      a.Ends j₁ j₂ := by
  have hne := nextJunction_ne hn a.track
  rcases a.atEnd with hj | hj
  · simp only [cartStart, hj, if_true]
    by_cases hlast : a.track + 1 = n
    · refine ⟨a.track, 0, if_pos hlast, Or.inl ⟨rfl, ?_⟩⟩
      rw [nextJunction, if_pos hlast]
    · refine ⟨a.track, a.track + 1, if_neg hlast, Or.inl ⟨rfl, ?_⟩⟩
      rw [nextJunction, if_neg hlast]
  · simp only [cartStart, hj, if_neg hne.symm]
    by_cases hlast : a.track + 1 = n
    · have hnext : nextJunction n a.track = 0 := if_pos hlast
      have htrack : a.track = n - 1 :=
        (UInt32.add_sub_cancel a.track 1).symm.trans (congrArg (· - 1) hlast)
      rw [hnext, if_pos (Or.inr ⟨rfl, htrack⟩), if_pos (by decide)]
      exact ⟨0, n - 1, rfl, Or.inr ⟨hnext.symm, htrack.symm⟩⟩
    · have hnext : nextJunction n a.track = a.track + 1 := if_neg hlast
      have hback : a.track + 1 - 1 = a.track := UInt32.add_sub_cancel _ _
      have hbig : a.track ≠ -1 := by
        intro h
        have hlt := a.track_lt
        rw [h, UInt32.lt_iff_toNat_lt] at hlt
        have hmax := n.toNat_lt
        have hone : (-1 : UInt32).toNat = 2 ^ 32 - 1 := by decide
        omega
      rw [hnext, hback, if_pos (Or.inl rfl), if_neg hbig]
      exact ⟨a.track + 1, a.track, rfl, Or.inr ⟨hnext.symm, rfl⟩⟩

end Ends

section Steps

variable {n : UInt32} {carts : Carts n} {s : State} {c : Nat} {j j₁ j₂ : Junction} {m : CartMove}
  {pc : Pc}

/-! ## One step of a thread -/

/-- The thread is about to take the mutex. -/
def Pc.takes : Pc → Bool
  | lock1 | woken | lock2 => true
  | _ => false

/-- A thread that is there has to wait, or has ended. -/
def Blocked (s : State) (pc : Pc) : Prop :=
  pc = .asleep ∨ pc = .exited ∨ pc.takes = true ∧ s.mutex ≠ none

/-- The state after the step of a thread that is not blocked. -/
def effect (s : State) (c : Nat) (m : CartMove) (j₁ j₂ : Junction) : Pc → State
  | .lock1 | .woken | .lock2 => { s with mutex := some c }
  | .wait | .unlock1 | .unlock2 => s.unlockMutex
  | .set1 => { s with locks := Function.update s.locks j₁ 1 }
  | .set2 => { s with locks := Function.update s.locks j₂ 1 }
  | .reserve1 => s.reserve m.cartNum j₁
  | .reserve2 => s.reserve m.cartNum j₂
  | .cross => s.cross m.cartNum m.trackNum m.juncNum
  | .clear1 => { s with locks := Function.update s.locks j₁ 0 }
  | .clear2 => { s with locks := Function.update s.locks j₂ 0 }
  | .release1 => s.release m.cartNum j₁
  | .release2 => s.release m.cartNum j₂
  | .broadcast => { s with thread := fun c => (s.thread c).wake }
  | .test | .asleep | .exited => s

/-- The condition of the `while` in `reserve2`. -/
def busy (s : State) (j₁ j₂ : Junction) : Bool := decide (s.locks j₁ ≠ 0 ∨ s.locks j₂ ≠ 0)

/-- Where the thread is after the step; `b` is the condition of the `while`. -/
def Pc.next (b : Bool) : Pc → Pc
  | lock1 | woken => test
  | test => if b then wait else set1
  | wait => asleep
  | set1 => set2
  | set2 => reserve1
  | reserve1 => reserve2
  | reserve2 => unlock1
  | unlock1 => cross
  | cross => lock2
  | lock2 => clear1
  | clear1 => clear2
  | clear2 => release1
  | release1 => release2
  | release2 => unlock2
  | unlock2 => broadcast
  | broadcast | exited => exited
  | asleep => asleep

theorem pcStep_blocked (h : Blocked s pc) : s.pcStep c m j₁ j₂ pc = .error .disabled := by
  rcases h with rfl | rfl | ⟨htakes, hmutex⟩
  · rfl
  · rfl
  · have hlock : s.lockMutex c = .error .disabled := if_neg hmutex
    cases pc <;> simp only [Pc.takes, Bool.false_eq_true] at htakes <;>
      simp only [State.pcStep, hlock] <;> rfl

theorem pcStep_ok (h₁ : j₁.toNat < arraySize) (h₂ : j₂.toNat < arraySize) (h : ¬ Blocked s pc) :
    s.pcStep c m j₁ j₂ pc = .ok (effect s c m j₁ j₂ pc, pc.next (busy s j₁ j₂)) := by
  have hread : ∀ j : Junction, j.toNat < arraySize → s.readLock j = .ok (s.locks j) :=
    fun j hj => if_pos hj
  have hwrite : ∀ (j : Junction) (v : Int), j.toNat < arraySize →
      s.writeLock j v = .ok { s with locks := Function.update s.locks j v } :=
    fun j v hj => if_pos hj
  have hlock : pc.takes = true → s.lockMutex c = .ok { s with mutex := some c } := by
    intro htakes
    exact if_pos (by_contra fun hmutex => h (Or.inr (Or.inr ⟨htakes, hmutex⟩)))
  cases pc with
  | lock1 => simp only [State.pcStep, hlock rfl]; rfl
  | woken => simp only [State.pcStep, hlock rfl]; rfl
  | lock2 => simp only [State.pcStep, hlock rfl]; rfl
  | test =>
    simp only [State.pcStep, hread _ h₁, hread _ h₂, ok_bind, effect, Pc.next, busy]
    by_cases hj₁ : s.locks j₁ = 0
    · by_cases hj₂ : s.locks j₂ = 0
      · simp [hj₁, hj₂, pure, Except.pure]
      · simp [hj₁, hj₂, pure, Except.pure]
    · simp [hj₁, pure, Except.pure]
  | asleep => exact absurd (Or.inl rfl) h
  | exited => exact absurd (Or.inr (Or.inl rfl)) h
  | set1 => simp only [State.pcStep, hwrite _ _ h₁]; rfl
  | set2 => simp only [State.pcStep, hwrite _ _ h₂]; rfl
  | clear1 => simp only [State.pcStep, hwrite _ _ h₁]; rfl
  | clear2 => simp only [State.pcStep, hwrite _ _ h₂]; rfl
  | _ => rfl

/-- The step leaves the other junctions alone, and all of them where the cart does not own its
own. -/
theorem effect_frame (hj : pc.owns = false ∨ j ≠ j₁ ∧ j ≠ j₂) :
    (effect s c m j₁ j₂ pc).locks j = s.locks j ∧
      (effect s c m j₁ j₂ pc).reserved j = s.reserved j := by
  cases pc <;> simp [effect, State.unlockMutex, State.reserve, State.cross, State.release, Pc.owns] at hj ⊢
  all_goals simp [hj]

theorem effect_mutex (b : Bool) :
    (pc.next b).critical = pc.critical ∧ (effect s c m j₁ j₂ pc).mutex = s.mutex ∨
    pc.takes = true ∧ (effect s c m j₁ j₂ pc).mutex = some c ∧ (pc.next b).critical = true ∨
    pc.critical = true ∧ (effect s c m j₁ j₂ pc).mutex = none ∧ (pc.next b).critical = false := by
  cases pc <;> cases b <;>
    simp [effect, Pc.next, Pc.critical, Pc.takes, State.unlockMutex, State.reserve, State.cross,
      State.release]

theorem effect_calls (b : Bool) : ∃ new, (effect s c m j₁ j₂ pc).calls = s.calls ++ new ∧
    (∀ call ∈ new, call.cart = m.cartNum) ∧ (pc.next b).made m j₁ j₂ = pc.made m j₁ j₂ ++ new := by
  cases pc
  case reserve1 => exact ⟨[.reserve m.cartNum j₁], rfl, by simp [Call.cart], rfl⟩
  case reserve2 => exact ⟨[.reserve m.cartNum j₂], rfl, by simp [Call.cart], rfl⟩
  case cross => exact ⟨[.cross m.cartNum m.trackNum m.juncNum], rfl, by simp [Call.cart], rfl⟩
  case release1 => exact ⟨[.release m.cartNum j₁], rfl, by simp [Call.cart], rfl⟩
  case release2 => exact ⟨[.release m.cartNum j₂], rfl, by simp [Call.cart], rfl⟩
  case test => cases b <;> exact ⟨[], (List.append_nil _).symm, by simp, rfl⟩
  all_goals exact ⟨[], (List.append_nil _).symm, by simp, rfl⟩

theorem next_owns {b : Bool} (h : (pc.next b).owns = true) :
    pc.owns = true ∨ pc = .test ∧ b = false := by
  cases pc <;> cases b <;> simp [Pc.next, Pc.owns] at h ⊢

theorem marks_of_not_owns (h : pc.owns = false) : pc.marks = (0, 0) ∧ pc.holds = (false, false) := by
  cases pc <;> simp [Pc.owns, Pc.marks, Pc.holds] at h ⊢

/-- Outside the mutex an owner has marked and reserved both junctions. -/
theorem marks_of_owns (h : pc.owns = true) (hcrit : pc.critical = false) :
    pc.marks = (1, 1) ∧ pc.holds = (true, true) := by
  cases pc <;> simp [Pc.owns, Pc.critical, Pc.marks, Pc.holds] at h hcrit ⊢

theorem threadStep_blocked (ht : s.thread c = .running m j₁ j₂ pc) (h : Blocked s pc) :
    s.threadStep c = .error .disabled := by
  simp only [State.threadStep, ht, pcStep_blocked h]
  rfl

theorem threadStep_running (ht : s.thread c = .running m j₁ j₂ pc) (h₁ : j₁.toNat < arraySize)
    (h₂ : j₂.toNat < arraySize) (h : ¬ Blocked s pc) : s.threadStep c =
      .ok ((effect s c m j₁ j₂ pc).setThread c (.running m j₁ j₂ (pc.next (busy s j₁ j₂)))) := by
  simp only [State.threadStep, ht, pcStep_ok h₁ h₂ h]
  rfl

/-! ## Every event -/

/-- `struct cart_move` of a cart that arrives so. -/
def Arrival.move (a : Arrival n) (c : Nat) : CartMove :=
  { cartNum := c, trackNum := a.track, juncNum := a.junction }

/-- The end junctions of all tracks that carts come on have an entry in `locks`. -/
def Carts.Fits (carts : Carts n) : Prop := ∀ c a, carts.arrival c = some a →
  a.track.toNat < arraySize ∧ (nextJunction n a.track).toNat < arraySize

theorem Thread.wake_cases (t : Thread) : t.wake = t ∨
    ∃ m j₁ j₂, t = .running m j₁ j₂ .asleep ∧ t.wake = .running m j₁ j₂ .woken := by
  unfold Thread.wake
  split
  · exact Or.inr ⟨_, _, _, rfl, rfl⟩
  · exact Or.inl rfl

/-- The events, with what is known of the threads that they are about. -/
inductive Transition (carts : Carts n) (s : State) : State → Prop
  | arrive {c : Nat} {a : Arrival n} : s.thread c = .away → carts.arrival c = some a →
      Transition carts s ({ s with cMoves := Function.update s.cMoves c (a.move c) }.setThread c .created)
  | start {c : Nat} {j₁ j₂ : Junction} : s.thread c = .created →
      cartStart s.numTracks (s.cMoves c) = some (j₁, j₂) →
      Transition carts s (s.setThread c (.running (s.cMoves c) j₁ j₂ .lock1))
  | run {c : Nat} {m : CartMove} {j₁ j₂ : Junction} {pc : Pc} :
      s.thread c = .running m j₁ j₂ pc → ¬ Blocked s pc →
      Transition carts s
        ((effect s c m j₁ j₂ pc).setThread c (.running m j₁ j₂ (pc.next (busy s j₁ j₂))))
  | wake {c : Nat} {m : CartMove} {j₁ j₂ : Junction} : s.thread c = .running m j₁ j₂ .asleep →
      Transition carts s (s.setThread c (.running m j₁ j₂ .woken))

end Steps

end CSE130.Cartman
