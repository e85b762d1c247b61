import CSE130.Userprog.SegmentPages

/-!
# The process image of a segment

What one pass over the pages of a segment leaves: pages that hold the bytes of the file and zeros behind them.
The pass goes through when there is memory for every page and the file has the bytes.
-/

namespace CSE130.Userprog

open Library

/-- Byte `j` of the pages of a segment, whose first page is at offset `P` of the file, when `r` bytes are read
from the file. -/
def SegmentByte (file : ExecFile) (P r j : Nat) (b : UInt8) : Prop :=
  (j < r → file.bytes[P + j]? = some b) ∧ (r ≤ j → b = 0)

section Pages

variable {file : ExecFile} {env : Allocation} {writable : Bool} {s s' : LoadState}
  {P u r n i t : Nat}

theorem SegmentByte.shift {b : UInt8} (h : SegmentByte file (P + 4096) (r - 4096) t b) :
    SegmentByte file P r (4096 + t) b := by
  obtain ⟨hread, hzero⟩ := h
  constructor
  · intro hlt
    rw [← hread (by omega)]
    congr 1
    omega
  · exact fun hle => hzero (by omega)

/-- A page with the bytes that have been read and zeros behind them. -/
theorem getElem?_page {pos : Int32} {m : Nat} (hm : m ≤ 4096)
    (hlen : (file.readAt pos (UInt32.ofNat m)).length = m) (hpos : m = 0 ∨ pos.toInt = P) (ht : t < 4096) :
    ∃ b, (file.readAt pos (UInt32.ofNat m) ++ List.replicate (4096 - m) 0)[t]? = some b ∧
      SegmentByte file P m t b := by
  have hsize : (UInt32.ofNat m).toNat = m := by
    rw [UInt32.toNat_ofNat']
    omega
  by_cases hlt : t < m
  · have hread : (file.readAt pos (UInt32.ofNat m))[t]? = file.bytes[P + t]? := by
      have hstart : pos.toInt.toNat = P := by omega
      rw [ExecFile.readAt, hsize, hstart, List.getElem?_take_of_lt hlt, List.getElem?_drop]
    obtain ⟨b, hb⟩ : ∃ b, (file.readAt pos (UInt32.ofNat m))[t]? = some b :=
      Option.isSome_iff_exists.mp (by simpa [hlen] using hlt)
    refine ⟨b, ?_, fun _ => by rw [← hread, hb], fun hle => absurd hlt (by omega)⟩
    rw [List.getElem?_append_left (by rwa [hlen]), hb]
  · refine ⟨0, ?_, fun h => absurd h hlt, fun _ => rfl⟩
    rw [List.getElem?_append_right (by rw [hlen]; omega), hlen, List.getElem?_replicate, if_pos (by omega)]

/-- What one round has done when it goes on. -/
theorem loadPage_some {p : PageFill} (h : loadPage env file writable s p = .ok (some s')) :
    (file.readAt s.pos p.readBytes).length = p.readBytes.toNat ∧ s.space.pagedir p.upage = none ∧
      s'.pos = s.pos + Int32.ofNat p.readBytes.toNat ∧
      s'.space.pagedir = Function.update s.space.pagedir p.upage (some
        { bytes := file.readAt s.pos p.readBytes ++ List.replicate p.zeroBytes.toNat 0
          writable := writable }) := by
  unfold loadPage at h
  dsimp only at h
  split_ifs at h with hframe hlen hvaddr hinstall <;> cases h
  rw [not_not] at hlen
  refine ⟨hlen, ?_, by rw [hlen], rfl⟩
  cases hpage : s.space.pagedir p.upage with
  | none => rfl
  | some page => simp [hpage] at hinstall

/-- When a round goes on: there is memory, the file has the bytes, and the page is a user page that is not
there yet. -/
theorem loadPage_goesOn {p : PageFill} (hframe : env.frame p.upage = true)
    (htable : env.table p.upage = true) (huser : isUserVaddr p.upage = true)
    (hlen : (file.readAt s.pos p.readBytes).length = p.readBytes.toNat)
    (hfree : s.space.pagedir p.upage = none) :
    ∃ s', loadPage env file writable s p = .ok (some s') := by
  unfold loadPage
  dsimp only
  rw [if_neg (not_not.mpr hframe), if_neg (not_not.mpr hlen), if_neg (not_not.mpr huser),
    if_neg (by simp [hfree, htable])]
  exact ⟨_, rfl⟩

/-- The pass enters every page, none of which was there, and no other page. -/
theorem runPages_covers (hu : u + 4096 * n ≤ 2 ^ 32)
    (h : runPages (loadPage env file writable) (pagesFrom u r n) s = .ok (some s')) :
    (∀ i < n, s.space.pagedir (UInt32.ofNat (u + 4096 * i)) = none ∧
      (s'.space.pagedir (UInt32.ofNat (u + 4096 * i))).isSome) ∧
    ∀ a : UInt32, (∀ i < n, a ≠ UInt32.ofNat (u + 4096 * i)) →
      s'.space.pagedir a = s.space.pagedir a := by
  induction n generalizing u r s with
  | zero =>
    cases h
    exact ⟨fun i hi => absurd hi (Nat.not_lt_zero i), fun _ _ => rfl⟩
  | succ n ih =>
    rw [pagesFrom_succ, runPages] at h
    cases hfirst : loadPage env file writable s (pageAt u r 0) with
    | error fault => simp [hfirst] at h
    | ok next =>
      cases next with
      | none => simp [hfirst] at h
      | some s₁ =>
        simp only [hfirst] at h
        obtain ⟨-, hnone, -, hdir⟩ := loadPage_some hfirst
        obtain ⟨hin, hout⟩ := ih (by omega) h
        have hne : ∀ i < n, UInt32.ofNat u ≠ UInt32.ofNat (u + 4096 + 4096 * i) := by
          intro i hi
          rw [ne_eq, ← UInt32.toNat_inj, UInt32.toNat_ofNat', UInt32.toNat_ofNat']
          omega
        constructor
        · intro i hi
          cases i with
          | zero =>
            refine ⟨hnone, ?_⟩
            rw [Nat.mul_zero, Nat.add_zero, hout _ hne, hdir, pageAt, Nat.mul_zero, Nat.add_zero,
              Function.update_self]
            rfl
          | succ i =>
            have haddr : u + 4096 * (i + 1) = u + 4096 + 4096 * i := by omega
            rw [haddr]
            obtain ⟨hbefore, hafter⟩ := hin i (by omega)
            refine ⟨?_, hafter⟩
            rw [← hbefore, hdir, Function.update_of_ne]
            exact fun heq => hne i (by omega) heq.symm
        · intro a ha
          rw [hout a, hdir, Function.update_of_ne]
          · exact ha 0 (Nat.succ_pos n)
          · intro i hi
            have haddr : u + 4096 + 4096 * i = u + 4096 * (i + 1) := by omega
            rw [haddr]
            exact ha (i + 1) (by omega)

theorem readAt_length_le {pos : Int32} {size : UInt32} :
    (file.readAt pos size).length ≤ file.bytes.length - pos.toInt.toNat := by
  rw [ExecFile.readAt, List.length_take, List.length_drop]
  exact Nat.min_le_right _ _

theorem toNat_pageAt_readBytes (u r i : Nat) :
    (pageAt u r i).readBytes.toNat = min (r - 4096 * i) 4096 := by
  rw [pageAt, UInt32.toNat_ofNat']
  omega

theorem toNat_pageAt_zeroBytes (u r i : Nat) :
    (pageAt u r i).zeroBytes.toNat = 4096 - min (r - 4096 * i) 4096 := by
  rw [pageAt, UInt32.toNat_ofNat']
  omega

/-- While there are bytes to be read, the position in the file is that of the page. -/
theorem pos_next {pos : Int32}
    (hlen : (file.readAt pos (UInt32.ofNat (min r 4096))).length = min r 4096)
    (hpos : r = 0 ∨ pos.toInt = P) :
    r - 4096 = 0 ∨ (pos + Int32.ofNat (min r 4096)).toInt = ((P + 4096 : Nat) : Int) := by
  by_cases hr : r ≤ 4096
  · exact Or.inl (by omega)
  · right
    have hle := @readAt_length_le file pos (UInt32.ofNat (min r 4096))
    have hlt := file.length_lt
    rw [Int32.toInt_add, Int32.toInt_ofNat_of_lt (by omega), Int.bmod_eq_of_le (by omega) (by omega)]
    omega

/-- The pages hold the bytes of the segment. -/
theorem loadPages_bytes (hu : u + 4096 * n ≤ 2 ^ 32) (hpos : r = 0 ∨ s.pos.toInt = P)
    (h : runPages (loadPage env file writable) (pagesFrom u r n) s = .ok (some s')) :
    ∀ i < n, ∃ page, s'.space.pagedir (UInt32.ofNat (u + 4096 * i)) = some page ∧
      ∀ t < 4096, ∃ b, page.bytes[t]? = some b ∧ SegmentByte file P r (4096 * i + t) b := by
  induction n generalizing u r s P with
  | zero => exact fun i hi => absurd hi (Nat.not_lt_zero i)
  | succ n ih =>
    rw [pagesFrom_succ, runPages] at h
    cases hfirst : loadPage env file writable s (pageAt u r 0) with
    | error fault => simp [hfirst] at h
    | ok next =>
      cases next with
      | none => simp [hfirst] at h
      | some s₁ =>
        simp only [hfirst] at h
        obtain ⟨hlen, -, hpos₁, hdir⟩ := loadPage_some hfirst
        rw [toNat_pageAt_readBytes] at hlen hpos₁
        rw [toNat_pageAt_zeroBytes] at hdir
        simp only [pageAt, Nat.mul_zero, Nat.sub_zero, Nat.add_zero] at hlen hpos₁ hdir
        intro i hi
        cases i with
        | zero =>
          have hkeep : s'.space.pagedir (UInt32.ofNat u) = s₁.space.pagedir (UInt32.ofNat u) := by
            refine (runPages_covers (by omega) h).2 _ ?_
            intro i hi
            rw [ne_eq, ← UInt32.toNat_inj, UInt32.toNat_ofNat', UInt32.toNat_ofNat']
            omega
          rw [Nat.mul_zero, Nat.add_zero, hkeep, hdir, Function.update_self]
          refine ⟨_, rfl, ?_⟩
          intro t ht
          obtain ⟨b, hb, hread, hzero⟩ :=
            @getElem?_page file P t s.pos (min r 4096) (by omega) hlen (by omega) ht
          refine ⟨b, hb, ?_⟩
          rw [Nat.zero_add]
          exact ⟨fun hlt => hread (by omega), fun hle => hzero (by omega)⟩
        | succ i =>
          have hnext := pos_next hlen hpos
          rw [← hpos₁] at hnext
          obtain ⟨page, hpage, hbytes⟩ := ih (by omega) hnext h i (by omega)
          have haddr : u + 4096 * (i + 1) = u + 4096 + 4096 * i := by omega
          rw [haddr]
          refine ⟨page, hpage, ?_⟩
          intro t ht
          obtain ⟨b, hb, hbyte⟩ := hbytes t ht
          refine ⟨b, hb, ?_⟩
          have hindex : 4096 * (i + 1) + t = 4096 + (4096 * i + t) := by omega
          rw [hindex]
          exact hbyte.shift

/-- The pass goes through when there is memory for every page, no page is there yet and the file has the bytes
that are read. -/
theorem runPages_loads (hu : u + 4096 * n ≤ physBase) (hpos : r = 0 ∨ s.pos.toInt = P)
    (hfile : r = 0 ∨ P + r ≤ file.bytes.length)
    (hmem : ∀ i < n, env.frame (UInt32.ofNat (u + 4096 * i)) = true ∧
      env.table (UInt32.ofNat (u + 4096 * i)) = true)
    (hfree : ∀ i < n, s.space.pagedir (UInt32.ofNat (u + 4096 * i)) = none) :
    ∃ s', runPages (loadPage env file writable) (pagesFrom u r n) s = .ok (some s') := by
  have hbase : physBase = 3221225472 := rfl
  induction n generalizing u r s P with
  | zero => exact ⟨s, rfl⟩
  | succ n ih =>
    have huser : isUserVaddr (pageAt u r 0).upage = true := by
      have htop : (0xc0000000 : UInt32).toNat = 3221225472 := rfl
      rw [isUserVaddr, decide_eq_true_eq, UInt32.lt_iff_toNat_lt, htop, pageAt, UInt32.toNat_ofNat']
      omega
    have hlen : (file.readAt s.pos (UInt32.ofNat (min r 4096))).length = min r 4096 := by
      have hsize : (UInt32.ofNat (min r 4096)).toNat = min r 4096 := by
        rw [UInt32.toNat_ofNat']
        omega
      rw [ExecFile.readAt, hsize, List.length_take, List.length_drop]
      omega
    obtain ⟨hframe, htable⟩ := hmem 0 (Nat.succ_pos n)
    obtain ⟨s₁, hfirst⟩ := @loadPage_goesOn file env writable s (pageAt u r 0) hframe htable huser
      (by rw [toNat_pageAt_readBytes]; exact hlen) (hfree 0 (Nat.succ_pos n))
    obtain ⟨-, -, hpos₁, hdir⟩ := loadPage_some hfirst
    rw [toNat_pageAt_readBytes, Nat.mul_zero, Nat.sub_zero] at hpos₁
    have hnext := pos_next hlen hpos
    rw [← hpos₁] at hnext
    have haddr : ∀ i, u + 4096 + 4096 * i = u + 4096 * (i + 1) := fun i => by omega
    have hrest := ih (u := u + 4096) (r := r - 4096) (s := s₁) (P := P + 4096) (by omega) hnext (by omega)
      (fun i hi => by rw [haddr]; exact hmem (i + 1) (by omega)) (by
        intro i hi
        have hne : UInt32.ofNat (u + 4096 * (i + 1)) ≠ (pageAt u r 0).upage := by
          rw [ne_eq, ← UInt32.toNat_inj, pageAt, UInt32.toNat_ofNat', UInt32.toNat_ofNat']
          omega
        rw [haddr, hdir, Function.update_of_ne hne]
        exact hfree (i + 1) (by omega))
    rw [pagesFrom_succ, runPages, hfirst]
    exact hrest

end Pages

end CSE130.Userprog
