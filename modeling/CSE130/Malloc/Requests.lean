import CSE130.Malloc.Contents

/-!
# Blocks that are too short

Sizes are numbers modulo 2 ^ 32. The page count of a block of more than 2 ^ 32 - 12 bytes comes out as one
page, and the test of `calloc` misses products that exceed 2 ^ 32 and wrap around to a number above both
factors. All other requests get a block that is long enough, or none.
-/

namespace CSE130.Malloc

open CSE130.Library

theorem blockSize_le (d : DescId) : blockSize d ≤ 1024 := by
  revert d
  decide

namespace Heap

variable {h : Heap} {p size : Nat}

theorem le_room_iff (hsize : size < 2 ^ 32) (hasked : 0 < pagesAsked size) :
    size ≤ room size ↔ size < 2 ^ 32 - 11 := by
  unfold pagesAsked at hasked
  unfold room
  cases hfind : findDesc size with
  | some d =>
    have hle := le_blockSize hfind
    exact iff_of_true hle (Nat.lt_of_le_of_lt (Nat.le_trans hle (blockSize_le d)) (by decide))
  | none =>
    rw [if_pos hfind] at hasked
    unfold pageCnt sizeofArena pgSize at *
    dsimp only
    omega

/-- No block has 2 ^ 32 bytes. -/
theorem room_lt (size : Nat) : room size < 2 ^ 32 := by
  unfold room
  split
  · rename_i d _
    exact Nat.lt_of_le_of_lt (blockSize_le d) (by decide)
  · unfold pageCnt sizeofArena pgSize
    omega

/-- The assertions on a block in use hold. -/
theorem Ok.blockToArena_live (hok : h.Ok) (hp : p ∈ h.live) : ∃ a, h.blockToArena p = .ok a := by
  rcases hok.live p hp with ⟨a, d, ha, hin⟩ | ⟨a, n, ha, rfl⟩
  · exact ⟨a, blockToArena_of_mem (hok.pages _ ha.1).1 (hok.magic _ ha.1) ha.2 hin⟩
  · exact ⟨a, blockToArena_bigBlock (hok.pages _ ha.1).1 (hok.magic _ ha.1) ha.2⟩

end Heap

/-- A call for a block. -/
inductive Request where
  | malloc (size : Nat)
  | calloc (a b : Nat)
  | realloc (oldBlock newSize : Nat)
  deriving DecidableEq, Repr

namespace Request

/-- The size that `malloc` is called with. -/
def size : Request → Nat
  | malloc size => size
  | calloc a b => a * b % 2 ^ 32
  | realloc _ newSize => newSize

/-- The number of bytes that are asked for. -/
def wanted : Request → Nat
  | malloc size => size
  | calloc a b => a * b
  | realloc _ newSize => newSize

end Request

/-- A call, or a byte that the owner of a block stores in it. -/
inductive StoreEvent where
  | request (r : Request) (grant : Option Nat) (words words' : Nat → UInt8)
  | free (p : Nat) (words : Nat → UInt8)
  | write (p i : Nat) (value : UInt8)

namespace Store

variable {s s' : Store} {a b p q n size : Nat} {grant : Option Nat} {words words' : Nat → UInt8}
  {r : Request} {e : StoreEvent}

/-! ## Calls and runs -/

/-- What the call returns, and the memory after it. -/
def serve (s : Store) (grant : Option Nat) (words words' : Nat → UInt8) :
    Request → Except Fault (Option Nat × Store)
  | .malloc size => s.malloc size grant words
  | .calloc a b => s.calloc a b grant words
  | .realloc oldBlock newSize => s.realloc oldBlock newSize grant words words'

def step (s : Store) : StoreEvent → Except Fault Store
  | .request r grant words words' => (s.serve grant words words' r).map Prod.snd
  | .free p words => s.free p words
  | .write p i value => .ok { s with bytes := Function.update s.bytes (p + i) value }

/-- The arguments are of the type `size_t`, and a block that is passed is in use. -/
def Valid (s : Store) : Request → Prop
  | .malloc size => size < 2 ^ 32
  | .calloc a b => a < 2 ^ 32 ∧ b < 2 ^ 32
  | .realloc oldBlock newSize => (oldBlock = 0 ∨ oldBlock ∈ s.heap.live) ∧ newSize < 2 ^ 32

/-- What `palloc` may return: `NULL` if no page is asked for, and no page that is not free. -/
def MayGrant (s : Store) (size : Nat) (grant : Option Nat) : Prop :=
  ∀ a ∈ grant, 0 < Heap.pagesAsked size ∧ s.heap.PageFree a (Heap.pagesAsked size)

/-- The calls that may be made, and the bytes that may be stored. -/
def Admits (s : Store) : StoreEvent → Prop
  | .request r grant _ _ => s.Valid r ∧ s.MayGrant r.size grant
  | .free p _ => p = 0 ∨ p ∈ s.heap.live
  | .write p i _ => p ∈ s.heap.live ∧ i < s.heap.bytesOf p

/-- The memory after `malloc_init`. -/
def start (memory : Nat → Arena) (bytes : Nat → UInt8) : Store where
  heap := Heap.start memory
  bytes := bytes

/-- What the block that is returned contains. -/
def Content (s s' : Store) (q : Nat) : Request → Prop
  | .malloc _ => True
  | .calloc a b => ∀ i < a * b, s'.bytes (q + i) = 0
  | .realloc oldBlock newSize => oldBlock ≠ 0 →
    ∀ i < min (s.heap.bytesOf oldBlock) newSize, s'.bytes (q + i) = s.bytes (oldBlock + i)

/-- The call returns, and it returns `NULL` or a block of at least the bytes asked for, with the right
contents. -/
def Meets (s : Store) (grant : Option Nat) (words words' : Nat → UInt8) (r : Request) : Prop :=
  ∃ res s', s.serve grant words words' r = .ok (res, s') ∧
    ∀ q ∈ res, q ∈ s'.heap.live ∧ r.wanted ≤ s'.heap.bytesOf q ∧ s.Content s' q r

/-- The test of `calloc` for a product that does not fit. -/
def Caught : Request → Prop
  | .calloc a b => a * b % 2 ^ 32 < a ∨ a * b % 2 ^ 32 < b
  | _ => False

/-- At least 12 bytes less than 2 ^ 32 are asked for, or the test of `calloc` finds that the product
does not fit, or there is no memory. -/
def Fits (s : Store) (grant : Option Nat) (r : Request) : Prop :=
  r.wanted < 2 ^ 32 - 11 ∨ Caught r ∨ ¬ s.heap.Serves r.size grant

/-! ## The three calls -/

/-- Where there is memory, a page is asked for. -/
theorem MayGrant.asked_pos (hgrant : s.MayGrant size grant) (hserves : s.heap.Serves size grant) :
    0 < Heap.pagesAsked size := by
  obtain ⟨-, hpage | ⟨d, hfind, -⟩⟩ := hserves
  · obtain ⟨a, ha⟩ := Option.ne_none_iff_exists'.mp hpage
    exact (hgrant a ha).1
  · rw [Heap.pagesAsked, if_neg (by simp [hfind])]
    exact Nat.one_pos

/-- `calloc` returns `NULL`, or a block that is zero as far as `size` goes, or writes past its end. -/
theorem calloc_cases (hinv : s.heap.Inv) (hgrant : s.MayGrant (a * b % 2 ^ 32) grant) :
    (Caught (.calloc a b) ∨ ¬ s.heap.Serves (a * b % 2 ^ 32) grant) ∧
      s.calloc a b grant words = .ok (none, s) ∨
    ¬ Caught (.calloc a b) ∧ s.heap.Serves (a * b % 2 ^ 32) grant ∧
      (Heap.room (a * b % 2 ^ 32) < a * b % 2 ^ 32 ∧
        s.calloc a b grant words = .error .outOfBlock ∨
      ∃ p s', s.calloc a b grant words = .ok (some p, s') ∧
        Heap.NewBlock s.heap s'.heap (a * b % 2 ^ 32) p ∧
        ∀ i < a * b % 2 ^ 32, s'.bytes (p + i) = 0) := by
  unfold calloc
  dsimp only
  generalize hsize : a * b % 2 ^ 32 = size at *
  have hcaught : Caught (.calloc a b) ↔ size < a ∨ size < b := by
    rw [← hsize]
    exact Iff.rfl
  by_cases hc : size < a ∨ size < b
  · exact .inl ⟨.inl (hcaught.mpr hc), if_pos hc⟩
  rw [if_neg hc]
  rcases @malloc_store s size grant words hinv hgrant with
    ⟨hserves, hnull⟩ | ⟨hserves, p, s', hblock, hnew, -⟩
  · left
    rw [hnull]
    exact ⟨.inr hserves, rfl⟩
  · refine .inr ⟨mt hcaught.mp hc, hserves, ?_⟩
    rw [hblock, ok_bind]
    dsimp only
    rw [hnew.bytes]
    by_cases hroom : size ≤ Heap.room size
    · right
      rw [check_bind hroom]
      refine ⟨p, _, rfl, hnew, fun i hi => ?_⟩
      have hin : Among p size (p + i) := ⟨Nat.le_add_right p i, Nat.add_lt_add_left hi p⟩
      exact if_pos hin
    · left
      rw [check, if_neg hroom]
      exact ⟨Nat.lt_of_not_le hroom, rfl⟩

/-- `realloc` to a size other than 0 returns `NULL`, or a block with what the old one contains, or
writes past its end. -/
theorem realloc_cases (hinv : s.heap.Inv) (hp : p = 0 ∨ p ∈ s.heap.live) (hn : n ≠ 0)
    (hgrant : s.MayGrant n grant) :
    ¬ s.heap.Serves n grant ∧ s.realloc p n grant words words' = .ok (none, s) ∨
    s.heap.Serves n grant ∧
      (Heap.room n < n ∧ s.realloc p n grant words words' = .error .outOfBlock ∨
      ∃ q s', s.realloc p n grant words words' = .ok (some q, s') ∧ s'.heap.Inv ∧
        q ∈ s'.heap.live ∧ s'.heap.bytesOf q = Heap.room n ∧
        (n ≤ Heap.room n → s.Content s' q (.realloc p n))) := by
  unfold realloc
  rw [if_neg hn]
  rcases @malloc_store s n grant words hinv hgrant with
    ⟨hserves, hnull⟩ | ⟨hserves, q, s₁, hblock, hnew, hkeeps⟩
  · left
    rw [hnull]
    exact ⟨hserves, rfl⟩
  refine .inr ⟨hserves, ?_⟩
  rw [hblock, ok_bind]
  dsimp only
  by_cases hzero : p = 0
  · right
    rw [if_pos hzero]
    exact ⟨q, s₁, rfl, hnew.inv, hnew.mem_live, hnew.bytes,
      fun _ hne => absurd hzero hne⟩
  rw [if_neg hzero]
  have hlive := hp.resolve_left hzero
  have hlive₁ : p ∈ s₁.heap.live := by
    rw [hnew.live]
    exact List.mem_cons_of_mem _ hlive
  have hqp := hnew.ne hlive
  obtain ⟨a, ha⟩ := hnew.inv.toOk.blockToArena_live hlive₁
  obtain ⟨hsize, hbytes⟩ := hkeeps p hlive
  rw [ha, hsize, hnew.bytes]
  have hmin : (if n < s.heap.bytesOf p then n else s.heap.bytesOf p) = min (s.heap.bytesOf p) n := by
    split <;> omega
  rw [hmin]
  dsimp only [Except.mapError, bind, Except.bind]
  by_cases hroom : min (s.heap.bytesOf p) n ≤ Heap.room n
  · right
    rw [check, if_pos hroom]
    dsimp only
    generalize hcopy : memcpy s₁.bytes q p (min (s.heap.bytesOf p) n) = bytes
    obtain ⟨s₂, hfree, hfreed, hkeeps₂⟩ := @free_store { s₁ with bytes } p words' hnew.inv hlive₁
    rw [hfree]
    have hq : q ∈ s₂.heap.live := by
      rw [hfreed.live]
      exact (List.mem_erase_of_ne hqp).mpr (hnew.mem_live)
    obtain ⟨hsize₂, hbytes₂⟩ := hkeeps₂ q hq
    refine ⟨q, s₂, rfl, hfreed.inv, hq, hsize₂.trans hnew.bytes, fun _ _ i hi => ?_⟩
    have hiq : i < s₁.heap.bytesOf q := by
      rw [hnew.bytes]
      exact Nat.lt_of_lt_of_le hi hroom
    have hip : i < s.heap.bytesOf p := Nat.lt_of_lt_of_le hi (Nat.min_le_left _ _)
    calc s₂.bytes (q + i) = bytes (q + i) := hbytes₂ i hiq
      _ = s₁.bytes (p + (q + i - q)) := by
        rw [← hcopy]
        exact if_pos ⟨Nat.le_add_right q i, Nat.add_lt_add_left hi q⟩
      _ = s₁.bytes (p + i) := by rw [Nat.add_sub_cancel_left]
      _ = s.bytes (p + i) := hbytes i hip
  · left
    rw [check, if_neg hroom]
    exact ⟨Nat.lt_of_not_le fun hle => hroom (Nat.le_trans (Nat.min_le_right _ _) hle), rfl⟩

/-- `free` of `NULL` or of a block in use. -/
theorem free_inv (hinv : s.heap.Inv) (hp : p = 0 ∨ p ∈ s.heap.live) :
    ∃ s', s.free p words = .ok s' ∧ s'.heap.Inv := by
  cases hp with
  | inl hnull =>
    subst hnull
    exact ⟨s, rfl, hinv⟩
  | inr hp =>
    obtain ⟨s', hfree, hfreed, -⟩ := @free_store s p words hinv hp
    exact ⟨s', hfree, hfreed.inv⟩

/-- A call returns `NULL`, or a block of the length that `malloc` has found for it, or writes past the
end of that block. -/
theorem serve_cases (hinv : s.heap.Inv) (hvalid : s.Valid r) (hgrant : s.MayGrant r.size grant) :
    (Caught r ∨ ¬ s.heap.Serves r.size grant) ∧
      (∃ s', s.serve grant words words' r = .ok (none, s') ∧ s'.heap.Inv) ∨
    (¬ Caught r ∧ s.heap.Serves r.size grant) ∧
      (Heap.room r.size < r.size ∧ s.serve grant words words' r = .error .outOfBlock ∨
      ∃ q s', s.serve grant words words' r = .ok (some q, s') ∧ s'.heap.Inv ∧ q ∈ s'.heap.live ∧
        s'.heap.bytesOf q = Heap.room r.size ∧
        (r.wanted = r.size → r.size ≤ Heap.room r.size → s.Content s' q r)) := by
  cases r with
  | malloc size =>
    rcases @malloc_store s size grant words hinv hgrant with
      ⟨hserves, hnull⟩ | ⟨hserves, b, s', hblock, hnew, -⟩
    · exact .inl ⟨.inr hserves, s, hnull, hinv⟩
    · exact .inr ⟨⟨id, hserves⟩, .inr ⟨b, s', hblock, hnew.inv, hnew.mem_live, hnew.bytes,
        fun _ _ => trivial⟩⟩
  | calloc a b =>
    rcases @calloc_cases s a b grant words hinv hgrant with
      ⟨hnone, hnull⟩ | ⟨hcaught, hserves, hfault | ⟨p, s', hblock, hnew, hzero⟩⟩
    · exact .inl ⟨hnone, s, hnull, hinv⟩
    · exact .inr ⟨⟨hcaught, hserves⟩, .inl hfault⟩
    · refine .inr ⟨⟨hcaught, hserves⟩, .inr ⟨p, s', hblock, hnew.inv, hnew.mem_live, hnew.bytes, ?_⟩⟩
      intro hwanted _ i hi
      exact hzero i (Nat.lt_of_lt_of_eq hi hwanted)
  | realloc p n =>
    by_cases hn : n = 0
    · obtain ⟨s', hfree, hinv'⟩ := @free_inv s p words' hinv hvalid.1
      refine .inl ⟨.inr fun hserves => hserves.1 hn, s', ?_, hinv'⟩
      rw [serve, realloc, if_pos hn, hfree]
      rfl
    rcases @realloc_cases s p n grant words words' hinv hvalid.1 hn hgrant with
      ⟨hserves, hnull⟩ | ⟨hserves, hfault | ⟨q, s', hblock, hinv', hq, hbytes, hcontent⟩⟩
    · exact .inl ⟨.inr hserves, s, hnull, hinv⟩
    · exact .inr ⟨⟨id, hserves⟩, .inl hfault⟩
    · exact .inr ⟨⟨id, hserves⟩, .inr ⟨q, s', hblock, hinv', hq, hbytes, fun _ => hcontent⟩⟩

/-! ## The invariant -/

theorem step_inv (hinv : s.heap.Inv) (he : s.Admits e) (hs : s.step e = .ok s') : s'.heap.Inv := by
  cases e with
  | request r grant words words' =>
    rw [step] at hs
    rcases @serve_cases s grant words words' r hinv he.1 he.2 with
      ⟨-, s₁, hserve, hinv₁⟩ | ⟨-, ⟨-, hfault⟩ | ⟨q, s₁, hserve, hinv₁, -⟩⟩
    · rw [hserve] at hs
      cases hs
      exact hinv₁
    · rw [hfault] at hs
      cases hs
    · rw [hserve] at hs
      cases hs
      exact hinv₁
  | free p words =>
    obtain ⟨s₁, hfree, hinv₁⟩ := @free_inv s p words hinv he
    cases hfree.symm.trans hs
    exact hinv₁
  | write p i value =>
    cases hs
    exact hinv

theorem reachable_heap_inv {memory : Nat → Arena} {bytes : Nat → UInt8}
    (hr : Reachable step Admits (start memory bytes) s) : s.heap.Inv := by
  have hall : ∀ s, Reachable step Admits (start memory bytes) s → s.heap.Inv := by
    refine Reachable.invariant (Heap.start_inv memory) ?_
    intro s e s' _ hinv he hs
    exact step_inv hinv he hs
  exact hall s hr

/-! ## Short blocks -/

/-- A product that fits is the size that `malloc` is called with. -/
theorem size_eq_wanted (h : r.wanted < 2 ^ 32) : r.wanted = r.size := by
  cases r with
  | malloc size => rfl
  | calloc a b => exact (Nat.mod_eq_of_lt h).symm
  | realloc p n => rfl

theorem size_lt (hvalid : s.Valid r) : r.size < 2 ^ 32 := by
  cases r with
  | malloc size => exact hvalid
  | calloc a b => exact Nat.mod_lt _ (by decide)
  | realloc p n => exact hvalid.2

/-- In every state of every run, a call for a block does what it should if and only if fewer than
2 ^ 32 - 11 bytes are asked for, or the test of `calloc` catches the product, or there is no memory for
a block of the size that `malloc` is called with. -/
theorem request_meets_iff {memory : Nat → Arena} {bytes : Nat → UInt8}
    (hr : Reachable step Admits (start memory bytes) s) (hvalid : s.Valid r)
    (hgrant : s.MayGrant r.size grant) :
    s.Meets grant words words' r ↔ s.Fits grant r := by
  have hsize := size_lt hvalid
  have hlong := fun hserves => Heap.le_room_iff hsize (hgrant.asked_pos hserves)
  unfold Meets Fits
  rcases @serve_cases s grant words words' r (reachable_heap_inv hr) hvalid hgrant with
    ⟨hnone, s', hserve, -⟩ | ⟨⟨hcaught, hserves⟩, hblock⟩
  · refine iff_of_true ⟨none, s', hserve, fun q hq => ?_⟩ (.inr hnone)
    cases hq
  · constructor
    · intro hmeets
      obtain ⟨res, s', hserve, hres⟩ := hmeets
      rcases hblock with ⟨-, hfault⟩ | ⟨q, s₁, hserve', -, -, hbytes, -⟩
      · cases hfault.symm.trans hserve
      · cases hserve'.symm.trans hserve
        obtain ⟨-, hwanted, -⟩ := hres q rfl
        rw [hbytes] at hwanted
        have heq := size_eq_wanted (Nat.lt_of_le_of_lt hwanted (Heap.room_lt r.size))
        rw [heq] at hwanted ⊢
        exact .inl ((hlong hserves).mp hwanted)
    · intro hfits
      have hwanted : r.wanted < 2 ^ 32 - 11 := by
        rcases hfits with hwanted | hc | hno
        · exact hwanted
        · exact absurd hc hcaught
        · exact absurd hserves hno
      have heq := size_eq_wanted (Nat.lt_of_lt_of_le hwanted (by decide))
      have hroom : r.size ≤ Heap.room r.size := (hlong hserves).mpr (heq ▸ hwanted)
      rcases hblock with ⟨hshort, -⟩ | ⟨q, s', hserve, -, hq, hbytes, hcontent⟩
      · exact absurd hroom (Nat.not_le.mpr hshort)
      · refine ⟨some q, s', hserve, fun q' hq' => ?_⟩
        cases hq'
        refine ⟨hq, ?_, hcontent heq hroom⟩
        rw [hbytes, heq]
        exact hroom

/-- No memory is in use yet, and its bytes are 1. -/
def fresh : Store := start (fun _ => ⟨0, none, 0⟩) fun _ => 1

theorem fresh_mayGrant (hasked : 0 < Heap.pagesAsked size ∧ Heap.pagesAsked size ≤ 100) :
    fresh.MayGrant size (some 5) := by
  intro a ha
  cases ha
  refine ⟨hasked.1, by decide, ?_, fun g hg => by cases hg⟩
  unfold pgSize
  omega

theorem request_meets_iff_calloc : ∃ res s',
    fresh.serve (some 5) (fun _ => 7) (fun _ => 7) (.calloc 10 20) = .ok (res, s') ∧
      ∀ q ∈ res, q ∈ s'.heap.live ∧ 200 ≤ s'.heap.bytesOf q ∧ ∀ i < 200, s'.bytes (q + i) = 0 := by
  have hvalid : fresh.Valid (.calloc 10 20) := ⟨by decide, by decide⟩
  exact (request_meets_iff .start hvalid (fresh_mayGrant (by decide))).mpr (.inl (by decide))

/-- Of 2 ^ 32 - 1 bytes that are asked for, there are 4084, and of 65537 times 65537, there are
135156. -/
theorem request_short :
    (fresh.Valid (.malloc (2 ^ 32 - 1)) ∧ fresh.MayGrant (2 ^ 32 - 1) (some 5) ∧
      ¬ fresh.Meets (some 5) (fun _ => 7) (fun _ => 7) (.malloc (2 ^ 32 - 1))) ∧
    fresh.Valid (.calloc 65537 65537) ∧ fresh.MayGrant (65537 * 65537 % 2 ^ 32) (some 5) ∧
      ¬ fresh.Meets (some 5) (fun _ => 7) (fun _ => 7) (.calloc 65537 65537) := by
  have hmalloc : (fresh.serve (some 5) (fun _ => 7) (fun _ => 7) (.malloc (2 ^ 32 - 1))).map
      (fun x => (x.1, x.2.heap.bytesOf 20492)) = .ok (some 20492, 4084) := by
    decide +kernel
  have hcalloc : (fresh.serve (some 5) (fun _ => 7) (fun _ => 7) (.calloc 65537 65537)).map
      (fun x => (x.1, x.2.heap.bytesOf 20492)) = .ok (some 20492, 135156) := by
    decide +kernel
  refine ⟨⟨(by decide : 2 ^ 32 - 1 < 2 ^ 32), fresh_mayGrant (by decide), fun hmeets => ?_⟩,
    ⟨by decide, by decide⟩, fresh_mayGrant (by decide), fun hmeets => ?_⟩
  · obtain ⟨res, s', hserve, hres⟩ := hmeets
    rw [hserve] at hmalloc
    obtain ⟨rfl, hbytes⟩ := Prod.mk.inj (Except.ok.inj hmalloc)
    have hlong := (hres 20492 rfl).2.1
    rw [hbytes] at hlong
    exact absurd hlong (by decide)
  · obtain ⟨res, s', hserve, hres⟩ := hmeets
    rw [hserve] at hcalloc
    obtain ⟨rfl, hbytes⟩ := Prod.mk.inj (Except.ok.inj hcalloc)
    have hlong := (hres 20492 rfl).2.1
    rw [hbytes] at hlong
    exact absurd hlong (by decide)

end Store

end CSE130.Malloc
