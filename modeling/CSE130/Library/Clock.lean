import Mathlib.Data.List.Rotate

/-!
# The clock replacement algorithm

A fixed array of frames with a hand, over an arbitrary type of pages. A frame is free or holds a
page with a referenced mark. The hand skips the referenced frames, clears their marks, and stops
at the first other frame, which takes the new page. The clock is compared with queues through its
`view`, the frames in the order in which the hand meets them.
-/

namespace CSE130.Library

universe u

/-- A clock of `n` frames. -/
structure Clock (α : Type u) (n : Nat) where
  frames : List (Option (α × Bool))
  hand : Nat
  length_eq : frames.length = n
  hand_lt : hand < n

/-- What one request shows. -/
structure Outcome (α : Type u) where
  hit : Bool
  evicted : Option α
  deriving DecidableEq, Repr

namespace Clock

variable {α : Type u} {n : Nat}

/-- The clock with all frames free. -/
def empty (n : Nat) (h : 0 < n) : Clock α n where
  frames := List.replicate n none
  hand := 0
  length_eq := List.length_replicate
  hand_lt := h

theorem hand_lt_length (c : Clock α n) : c.hand < c.frames.length := by
  rw [c.length_eq]
  exact c.hand_lt

/-- The frame at the hand. -/
def current (c : Clock α n) : Option (α × Bool) := c.frames.get ⟨c.hand, c.hand_lt_length⟩

/-- The frame at the hand is replaced and the hand moves on. -/
def turn (c : Clock α n) (x : Option (α × Bool)) : Clock α n where
  frames := c.frames.set c.hand x
  hand := (c.hand + 1) % n
  length_eq := by simpa using c.length_eq
  hand_lt := Nat.mod_lt _ (by have := c.hand_lt; omega)

/-- A frame that the hand skips. -/
def referenced (x : Option (α × Bool)) : Bool :=
  match x with
  | some (_, mark) => mark
  | none => false

theorem countP_set_lt {β : Type*} (p : β → Bool) (l : List β) (i : Nat) (h : i < l.length)
    (x : β) (hp : p (l.get ⟨i, h⟩) = true) (hx : p x = false) :
    (l.set i x).countP p < l.countP p := by
  have hpos : 0 < l.countP p := List.countP_pos_iff.mpr ⟨_, List.get_mem l ⟨i, h⟩, hp⟩
  have hi : p l[i] = true := by simpa using hp
  rw [List.countP_set h, hx, hi]
  simp only [if_true, Bool.false_eq_true, if_false]
  omega

/-- The hand moves to the first frame that is not referenced, clearing the marks it passes. -/
def sweep (c : Clock α n) : Clock α n :=
  match _ : c.current with
  | some (q, true) => sweep (c.turn (some (q, false)))
  | _ => c
termination_by c.frames.countP referenced
decreasing_by
  exact countP_set_lt _ _ _ _ _ (by rw [← current, ‹c.current = _›]; rfl) rfl

/-- A hit sets the mark of the frame that holds the page. -/
def reference [DecidableEq α] (page : α) (c : Clock α n) : Clock α n where
  frames := c.frames.map fun x => x.map fun f => if f.1 = page then (f.1, true) else f
  hand := c.hand
  length_eq := by simpa using c.length_eq
  hand_lt := c.hand_lt

/-- The page is in a frame. -/
def Holds (c : Clock α n) (page : α) : Prop := ∃ mark, some (page, mark) ∈ c.frames

instance [DecidableEq α] (c : Clock α n) (page : α) : Decidable (c.Holds page) :=
  decidable_of_iff (some (page, true) ∈ c.frames ∨ some (page, false) ∈ c.frames)
    ⟨fun h => h.elim (fun h => ⟨_, h⟩) fun h => ⟨_, h⟩, fun ⟨mark, h⟩ => by
      cases mark <;> simp [h]⟩

/-- One request; a freshly loaded page gets the mark `loaded`. -/
def request [DecidableEq α] (loaded : Bool) (c : Clock α n) (page : α) : Clock α n × Outcome α :=
  if c.Holds page then (c.reference page, { hit := true, evicted := none })
  else (c.sweep.turn (some (page, loaded)),
    { hit := false, evicted := c.sweep.current.map Prod.fst })

/-- The outcomes of a sequence of requests. -/
def outcomes [DecidableEq α] (loaded : Bool) : Clock α n → List α → List (Outcome α)
  | _, [] => []
  | c, page :: pages => (c.request loaded page).2 :: outcomes loaded (c.request loaded page).1 pages

/-! ## The view from the hand -/

/-- The frames in the order in which the hand meets them. -/
def view (c : Clock α n) : List (Option (α × Bool)) := c.frames.rotate c.hand

theorem view_eq (c : Clock α n) :
    c.view = c.current :: (c.frames.drop (c.hand + 1) ++ c.frames.take c.hand) := by
  have hlt := c.hand_lt_length
  rw [view, List.rotate_eq_drop_append_take hlt.le, List.drop_eq_getElem_cons hlt]
  rfl

theorem mem_view {c : Clock α n} {x : Option (α × Bool)} : x ∈ c.view ↔ x ∈ c.frames := by
  simp [view]

/-- Turning moves the head of the view to its end. -/
theorem view_turn {c : Clock α n} {y : Option (α × Bool)} {rest : List (Option (α × Bool))}
    (h : c.view = y :: rest) (x : Option (α × Bool)) : (c.turn x).view = rest ++ [x] := by
  have hlt := c.hand_lt_length
  have hrest : rest = c.frames.drop (c.hand + 1) ++ c.frames.take c.hand := by
    rw [view_eq] at h
    exact (List.cons.inj h).2.symm
  have hset : c.frames.set c.hand x =
      (c.frames.take c.hand ++ [x]) ++ c.frames.drop (c.hand + 1) := by
    rw [List.set_eq_take_append_cons_drop, if_pos hlt]
    simp
  have hlen : (c.frames.take c.hand ++ [x]).length = c.hand + 1 := by
    simp
    omega
  calc (c.turn x).view
      = (c.frames.set c.hand x).rotate (c.hand + 1) := by
        simp only [view, turn]
        rw [← List.rotate_mod _ (c.hand + 1), List.length_set, c.length_eq]
    _ = c.frames.drop (c.hand + 1) ++ (c.frames.take c.hand ++ [x]) := by
        rw [hset, ← hlen, List.rotate_append_length_eq]
    _ = rest ++ [x] := by rw [hrest, List.append_assoc]

theorem view_reference [DecidableEq α] (page : α) (c : Clock α n) :
    (c.reference page).view =
      c.view.map fun x => x.map fun f => if f.1 = page then (f.1, true) else f := by
  simp [view, reference, List.map_rotate]

theorem view_empty (h : 0 < n) : (empty n h : Clock α n).view = List.replicate n none := by
  simp [view, empty]

theorem current_of_view {c : Clock α n} {y : Option (α × Bool)} {rest : List (Option (α × Bool))}
    (h : c.view = y :: rest) : c.current = y := by
  rw [view_eq] at h
  exact (List.cons.inj h).1

/-- The hand passes a referenced frame. -/
theorem sweep_referenced {c : Clock α n} {q : α} (h : c.current = some (q, true)) :
    c.sweep = (c.turn (some (q, false))).sweep := by
  rw [sweep]
  split
  · rename_i q' h'
    rw [h] at h'
    cases h'
    rfl
  · rename_i hne
    exact absurd h (hne q)

/-- The hand stops at any other frame. -/
theorem sweep_stop {c : Clock α n} (h : referenced c.current = false) : c.sweep = c := by
  rw [sweep]
  split
  · rename_i h'
    rw [h'] at h
    exact absurd h (by simp [referenced])
  · rfl

end Clock

end CSE130.Library
