import CSE130.Filesys.BufferCache

/-!
# The buffer cache is transparent

The content of a cache gives each sector the bytes of its slot, or those of the device. Reading keeps
the content and writing changes it at one sector, whatever slots come and go; closing brings it to the
device.
-/

namespace CSE130.Filesys

open CSE130.Library

namespace BufferCache

variable {c c' : BufferCache} {s t : Sector} {b : Block} {i j clock clock' : Fin bufferCacheSize}
  {cache cache' : Fin bufferCacheSize → Slot} {d : Device}

/-- Slot `i` holds sector `s`. -/
def Caches (c : BufferCache) (i : Fin bufferCacheSize) (s : Sector) : Prop :=
  (c.cache i).occupied = true ∧ (c.cache i).diskSector = s

/-- A sector has at most one slot, and a clean slot has the bytes of the device. -/
structure Inv (c : BufferCache) : Prop where
  unique : ∀ i j s, c.Caches i s → c.Caches j s → i = j
  clean : ∀ i s, c.Caches i s → (c.cache i).dirty = false → (c.cache i).buffer = c.device.data s
  inRange : ∀ i s, c.Caches i s → s.toNat < c.device.size

/-- The bytes of a sector as the callers of the cache see them. -/
def content (c : BufferCache) (s : Sector) : Block :=
  match c.bufferCacheLookup s with
  | some i => (c.cache i).buffer
  | none => c.device.data s

theorem lookup_eq_some (h : c.bufferCacheLookup s = some i) : c.Caches i s := by
  have hfound := List.find?_some h
  simpa [Caches] using hfound

theorem lookup_eq_none (h : c.bufferCacheLookup s = none) : ∀ i, ¬ c.Caches i s := by
  intro i hi
  have hnone := List.find?_eq_none.mp h i (List.mem_finRange i)
  simp [hi.1, hi.2] at hnone

theorem content_of_caches (h : c.Inv) (hi : c.Caches i s) : c.content s = (c.cache i).buffer := by
  unfold content
  cases hl : c.bufferCacheLookup s with
  | none => exact absurd hi (lookup_eq_none hl i)
  | some j => rw [h.unique i j s hi (lookup_eq_some hl)]

theorem content_of_not_caches (h : ∀ i, ¬ c.Caches i s) : c.content s = c.device.data s := by
  unfold content
  cases hl : c.bufferCacheLookup s with
  | none => rfl
  | some j => exact absurd (lookup_eq_some hl) (h j)

/-! ## Changing a slot -/

theorem cache_setSlot (c : BufferCache) (i j : Fin bufferCacheSize) (slot : Slot) :
    (c.setSlot i slot).cache j = if j = i then slot else c.cache j := by
  simp only [setSlot, Function.update_apply]

theorem caches_setSlot_of_ne {slot : Slot} (hj : j ≠ i) :
    (c.setSlot i slot).Caches j s ↔ c.Caches j s := by
  simp [Caches, cache_setSlot, hj]

theorem caches_setSlot_self {slot : Slot} :
    (c.setSlot i slot).Caches i s ↔ slot.occupied = true ∧ slot.diskSector = s := by
  simp [Caches, cache_setSlot]

/-- A change of access bits alone. -/
structure SameData (c c' : BufferCache) : Prop where
  device : c'.device = c.device
  caches : ∀ i s, c'.Caches i s ↔ c.Caches i s
  buffer : ∀ i, (c'.cache i).buffer = (c.cache i).buffer
  dirty : ∀ i, (c'.cache i).dirty = (c.cache i).dirty

theorem SameData.inv (hs : SameData c c') (h : c.Inv) : c'.Inv := by
  refine ⟨?_, ?_, ?_⟩
  · intro i j s hi hj
    exact h.unique i j s ((hs.caches i s).mp hi) ((hs.caches j s).mp hj)
  · intro i s hi hclean
    rw [hs.buffer, hs.device]
    rw [hs.dirty] at hclean
    exact h.clean i s ((hs.caches i s).mp hi) hclean
  · intro i s hi
    rw [hs.device]
    exact h.inRange i s ((hs.caches i s).mp hi)

theorem SameData.content (hs : SameData c c') (h : c.Inv) : c'.content = c.content := by
  funext s
  by_cases hcached : ∃ i, c.Caches i s
  · obtain ⟨i, hi⟩ := hcached
    rw [content_of_caches h hi, content_of_caches (hs.inv h) ((hs.caches i s).mpr hi), hs.buffer]
  · have hnone : ∀ i, ¬ c.Caches i s := fun i hi => hcached ⟨i, hi⟩
    rw [content_of_not_caches hnone,
      content_of_not_caches fun i hi => hnone i ((hs.caches i s).mp hi), hs.device]

/-- Setting access bits. -/
theorem sameData_setAccess (c : BufferCache) (i : Fin bufferCacheSize) :
    SameData c (c.setSlot i { c.cache i with access := true }) := by
  refine ⟨rfl, ?_, ?_, ?_⟩
  · intro j s
    by_cases hj : j = i
    · subst hj
      rw [caches_setSlot_self]
      rfl
    · exact caches_setSlot_of_ne hj
  all_goals
    intro j
    rw [cache_setSlot]
    split_ifs with hj
    · rw [hj]
    · rfl

/-! ## The clock loop -/

/-- The slots with the access bit set. -/
def accessed (cache : Fin bufferCacheSize → Slot) : Finset (Fin bufferCacheSize) :=
  Finset.univ.filter fun i => (cache i).access = true

/-- Each round before the last clears an access bit. -/
theorem accessed_clear (h : (cache clock).access = true) :
    (accessed (Function.update cache clock { cache clock with access := false })).card <
      (accessed cache).card := by
  refine Finset.card_lt_card ?_
  rw [Finset.ssubset_iff_of_subset]
  · exact ⟨clock, by simp [accessed, h]⟩
  · intro i hi
    by_cases heq : i = clock
    · simp [accessed, heq] at hi
    · simpa [accessed, heq] using hi

/-- The loop ends after at most as many rounds as there are slots with the access bit, and one. -/
theorem evictLoop_isSome {rounds : Nat} (h : (accessed cache).card < rounds) :
    (evictLoop rounds cache clock).isSome := by
  induction rounds generalizing cache clock with
  | zero => cases h
  | succ rounds ih =>
    unfold evictLoop
    split_ifs with hempty haccess
    · rfl
    · apply ih
      have hclear := accessed_clear haccess
      omega
    · rfl

theorem evictLoop_terminates (cache : Fin bufferCacheSize → Slot) (clock : Fin bufferCacheSize) :
    (evictLoop (bufferCacheSize + 1) cache clock).isSome := by
  apply evictLoop_isSome
  have hle := Finset.card_le_univ (accessed cache)
  rw [Fintype.card_fin] at hle
  omega

theorem evictLoop_sameData {rounds : Nat}
    (h : evictLoop rounds cache clock = some (cache', clock')) :
    SameData ⟨d, cache, i⟩ ⟨d, cache', j⟩ := by
  induction rounds generalizing cache clock with
  | zero => cases h
  | succ rounds ih =>
    unfold evictLoop at h
    split_ifs at h with hempty haccess
    · cases h
      exact ⟨rfl, fun _ _ => Iff.rfl, fun _ => rfl, fun _ => rfl⟩
    · have hrest := ih h
      refine ⟨rfl, fun k s => (hrest.caches k s).trans ?_, fun k => (hrest.buffer k).trans ?_,
        fun k => (hrest.dirty k).trans ?_⟩
      all_goals
        by_cases hk : k = clock
        · subst hk
          simp [Caches]
        · simp [Caches, hk]
    · cases h
      exact ⟨rfl, fun _ _ => Iff.rfl, fun _ => rfl, fun _ => rfl⟩

/-! ## Writing back -/

/-- What `buffer_cache_flush` does to a slot that holds sector `s`. -/
structure Flushed (c c' : BufferCache) (i : Fin bufferCacheSize) : Prop where
  inv : c'.Inv
  content : c'.content = c.content
  size : c'.device.size = c.device.size
  caches : ∀ j s, c'.Caches j s ↔ c.Caches j s
  clean : (c'.cache i).dirty = false
  others : ∀ j, (c.cache j).dirty = false → (c'.cache j).dirty = false

theorem bufferCacheFlush_spec (h : c.Inv) (hi : c.Caches i s) :
    ∃ c', c.bufferCacheFlush i = .ok c' ∧ Flushed c c' i := by
  unfold bufferCacheFlush
  rw [check_bind hi.1]
  cases hdirty : (c.cache i).dirty with
  | false => exact ⟨c, rfl, h, rfl, rfl, fun _ _ => Iff.rfl, hdirty, fun _ hj => hj⟩
  | true =>
    rw [if_pos rfl, hi.2, Device.blockWrite_of_lt (h.inRange i s hi), ok_bind]
    refine ⟨_, rfl, ?_⟩
    generalize hc' : ({ c.setSlot i { c.cache i with dirty := false } with
      device := { c.device with data := Function.update c.device.data s (c.cache i).buffer } } :
        BufferCache) = c'
    have hcache : ∀ j, c'.cache j = if j = i then { c.cache i with dirty := false } else c.cache j :=
      fun j => by rw [← hc', ← cache_setSlot]
    have hdata : c'.device.data = Function.update c.device.data s (c.cache i).buffer := by
      rw [← hc']
    have hsize : c'.device.size = c.device.size := by rw [← hc']
    have hcaches : ∀ j t, c'.Caches j t ↔ c.Caches j t := by
      intro j t
      by_cases hj : j = i <;> simp [Caches, hcache, hj]
    have hbuffer : ∀ j, (c'.cache j).buffer = (c.cache j).buffer := by
      intro j
      by_cases hj : j = i <;> simp [hcache, hj]
    have hinv : c'.Inv := by
      refine ⟨?_, ?_, ?_⟩
      · intro j k t hj hk
        exact h.unique j k t ((hcaches j t).mp hj) ((hcaches k t).mp hk)
      · intro j t hj hclean
        have hj' : c.Caches j t := (hcaches j t).mp hj
        rw [hbuffer, hdata]
        by_cases ht : t = s
        · subst ht
          rw [Function.update_self, h.unique j i t hj' hi]
        · have hne : j ≠ i := by
            intro heq
            subst heq
            exact ht (hj'.2.symm.trans hi.2)
          rw [hcache, if_neg hne] at hclean
          rw [Function.update_of_ne ht]
          exact h.clean j t hj' hclean
      · intro j t hj
        rw [hsize]
        exact h.inRange j t ((hcaches j t).mp hj)
    refine ⟨hinv, ?_, hsize, hcaches, ?_, ?_⟩
    · funext t
      by_cases hcached : ∃ j, c.Caches j t
      · obtain ⟨j, hj⟩ := hcached
        rw [content_of_caches h hj, content_of_caches hinv ((hcaches j t).mpr hj), hbuffer]
      · have hnone : ∀ j, ¬ c.Caches j t := fun j hj => hcached ⟨j, hj⟩
        have ht : t ≠ s := fun heq => hnone i (heq ▸ hi)
        rw [content_of_not_caches hnone, content_of_not_caches fun j hj => hnone j ((hcaches j t).mp hj),
          hdata, Function.update_of_ne ht]
    · simp [hcache]
    · intro j hj
      rw [hcache]
      split_ifs
      · rfl
      · exact hj

/-! ## Eviction -/

/-- Giving up a clean slot. -/
theorem drop_spec (h : c.Inv) (hi : c.Caches i s) (hclean : (c.cache i).dirty = false) :
    (c.setSlot i { c.cache i with occupied := false }).Inv ∧
    (c.setSlot i { c.cache i with occupied := false }).content = c.content := by
  have hcaches : ∀ j t, (c.setSlot i { c.cache i with occupied := false }).Caches j t ↔
      j ≠ i ∧ c.Caches j t := by
    intro j t
    by_cases hj : j = i
    · subst hj
      simp [caches_setSlot_self]
    · simp [caches_setSlot_of_ne hj, hj]
  have hcache : ∀ j, j ≠ i → (c.setSlot i { c.cache i with occupied := false }).cache j = c.cache j :=
    fun j hj => by rw [cache_setSlot, if_neg hj]
  have hinv : (c.setSlot i { c.cache i with occupied := false }).Inv := by
    refine ⟨?_, ?_, ?_⟩
    · intro j k t hj hk
      exact h.unique j k t ((hcaches j t).mp hj).2 ((hcaches k t).mp hk).2
    · intro j t hj hdirty
      obtain ⟨hne, hj'⟩ := (hcaches j t).mp hj
      rw [hcache j hne] at hdirty ⊢
      exact h.clean j t hj' hdirty
    · intro j t hj
      exact h.inRange j t ((hcaches j t).mp hj).2
  refine ⟨hinv, ?_⟩
  funext t
  by_cases hcached : ∃ j, c.Caches j t
  · obtain ⟨j, hj⟩ := hcached
    by_cases hne : j = i
    · subst hne
      have hnone : ∀ k, ¬ (c.setSlot j { c.cache j with occupied := false }).Caches k t := by
        intro k hk
        obtain ⟨hkne, hk'⟩ := (hcaches k t).mp hk
        exact hkne (h.unique k j t hk' hj)
      rw [content_of_caches h hj, content_of_not_caches hnone]
      exact (h.clean j t hj hclean).symm
    · rw [content_of_caches h hj, content_of_caches hinv ((hcaches j t).mpr ⟨hne, hj⟩), hcache j hne]
  · have hnone : ∀ j, ¬ c.Caches j t := fun j hj => hcached ⟨j, hj⟩
    rw [content_of_not_caches hnone, content_of_not_caches fun j hj => hnone j ((hcaches j t).mp hj).2]
    rfl

/-- The result of `buffer_cache_evict`: an empty slot, and no sector comes into the cache. -/
structure Evicted (c c' : BufferCache) (i : Fin bufferCacheSize) : Prop where
  inv : c'.Inv
  content : c'.content = c.content
  size : c'.device.size = c.device.size
  empty : (c'.cache i).occupied = false
  caches : ∀ j s, c'.Caches j s → c.Caches j s

theorem bufferCacheEvict_spec (h : c.Inv) :
    ∃ c' i, c.bufferCacheEvict = .ok (c', i) ∧ Evicted c c' i := by
  obtain ⟨⟨cache, clock⟩, hloop⟩ := Option.isSome_iff_exists.mp (evictLoop_terminates c.cache c.clock)
  have hsame : SameData c ⟨c.device, cache, clock⟩ := evictLoop_sameData hloop
  have hinv := hsame.inv h
  have hcontent := hsame.content h
  unfold bufferCacheEvict
  rw [hloop]
  dsimp only
  by_cases hempty : (cache clock).occupied = false
  · rw [if_pos hempty]
    exact ⟨_, _, rfl, hinv, hcontent, rfl, hempty, fun j s => (hsame.caches j s).mp⟩
  rw [if_neg hempty]
  have hi : (⟨c.device, cache, clock⟩ : BufferCache).Caches clock (cache clock).diskSector :=
    ⟨by simpa using hempty, rfl⟩
  have hflush : ∃ c', (⟨c.device, cache, clock⟩ : BufferCache).writeBack clock = .ok c' ∧
      Flushed ⟨c.device, cache, clock⟩ c' clock := by
    unfold writeBack
    dsimp only
    cases hdirty : (cache clock).dirty with
    | true =>
      rw [if_pos rfl]
      exact bufferCacheFlush_spec hinv hi
    | false => exact ⟨_, rfl, hinv, rfl, rfl, fun _ _ => Iff.rfl, hdirty, fun _ hj => hj⟩
  obtain ⟨c', hc', hflushed⟩ := hflush
  rw [hc', ok_bind]
  obtain ⟨hinv', hcontent'⟩ := drop_spec hflushed.inv ((hflushed.caches _ _).mpr hi) hflushed.clean
  refine ⟨_, _, rfl, hinv', hcontent'.trans (hflushed.content.trans hcontent), hflushed.size, ?_, ?_⟩
  · simp [cache_setSlot]
  · intro j s hj
    have hne : j ≠ clock := by
      rintro rfl
      simp [Caches, cache_setSlot] at hj
    exact (hsame.caches j s).mp ((hflushed.caches j s).mp ((caches_setSlot_of_ne hne).mp hj))

/-! ## Reading and writing -/

/-- Filling an empty slot from the device. -/
theorem fill_spec (h : c.Inv) (hempty : (c.cache i).occupied = false)
    (hnone : ∀ j, ¬ c.Caches j s) (hs : s.toNat < c.device.size) :
    (c.setSlot i { c.cache i with
      occupied := true, diskSector := s, dirty := false, buffer := c.device.data s }).Inv ∧
    (c.setSlot i { c.cache i with
      occupied := true, diskSector := s, dirty := false, buffer := c.device.data s }).content =
        c.content := by
  generalize hfilled : c.setSlot i { c.cache i with
    occupied := true, diskSector := s, dirty := false, buffer := c.device.data s } = c'
  have hcache : ∀ j, c'.cache j = if j = i then { c.cache i with
      occupied := true, diskSector := s, dirty := false, buffer := c.device.data s } else c.cache j :=
    fun j => by rw [← hfilled, cache_setSlot]
  have hdevice : c'.device = c.device := by rw [← hfilled]; rfl
  have hself : c'.Caches i s := by simp [Caches, hcache]
  have hbuffer : (c'.cache i).buffer = c.device.data s := by simp [hcache]
  have hcaches : ∀ j t, c'.Caches j t → (j = i ∧ t = s) ∨ (j ≠ i ∧ c.Caches j t) := by
    intro j t hj
    by_cases hne : j = i
    · subst hne
      exact .inl ⟨rfl, hj.2.symm.trans hself.2⟩
    · simp only [Caches, hcache, hne, if_false] at hj
      exact .inr ⟨hne, hj⟩
  have hother : ∀ j t, c.Caches j t → j ≠ i ∧ c'.Caches j t := by
    intro j t hj
    have hne : j ≠ i := by
      rintro rfl
      rw [hj.1] at hempty
      cases hempty
    refine ⟨hne, ?_⟩
    simpa only [Caches, hcache, hne, if_false] using hj
  have hinv : c'.Inv := by
    refine ⟨?_, ?_, ?_⟩
    · intro j k t hj hk
      rcases hcaches j t hj with ⟨rfl, rfl⟩ | ⟨-, hj'⟩ <;>
        rcases hcaches k _ hk with ⟨hk', ht⟩ | ⟨-, hk'⟩
      · exact hk'.symm
      · exact absurd hk' (hnone k)
      · exact absurd (ht ▸ hj') (hnone j)
      · exact h.unique j k t hj' hk'
    · intro j t hj hclean
      rw [hdevice]
      rcases hcaches j t hj with ⟨rfl, rfl⟩ | ⟨hne, hj'⟩
      · exact hbuffer
      · simp only [hcache, hne, if_false] at hclean ⊢
        exact h.clean j t hj' hclean
    · intro j t hj
      rw [hdevice]
      rcases hcaches j t hj with ⟨-, rfl⟩ | ⟨-, hj'⟩
      · exact hs
      · exact h.inRange j t hj'
  refine ⟨hinv, ?_⟩
  funext t
  by_cases hcached : ∃ j, c.Caches j t
  · obtain ⟨j, hj⟩ := hcached
    obtain ⟨hne, hj'⟩ := hother j t hj
    rw [content_of_caches h hj, content_of_caches hinv hj', hcache, if_neg hne]
  · have hnone' : ∀ j, ¬ c.Caches j t := fun j hj => hcached ⟨j, hj⟩
    rw [content_of_not_caches hnone']
    by_cases ht : t = s
    · rw [ht, content_of_caches hinv hself, hbuffer]
    · rw [content_of_not_caches, hdevice]
      intro j hj
      rcases hcaches j t hj with ⟨-, rfl⟩ | ⟨-, hj'⟩
      · exact ht rfl
      · exact hnone' j hj'

theorem fetch_spec (h : c.Inv) (hs : s.toNat < c.device.size) :
    ∃ c' i, c.fetch s = .ok (c', i) ∧ c'.Inv ∧ c'.content = c.content ∧
      c'.device.size = c.device.size ∧ c'.Caches i s := by
  unfold fetch
  cases hl : c.bufferCacheLookup s with
  | some i => exact ⟨c, i, rfl, h, rfl, rfl, lookup_eq_some hl⟩
  | none =>
    obtain ⟨c', i, hevict, he⟩ := bufferCacheEvict_spec h
    have hs' : s.toNat < c'.device.size := by rwa [he.size]
    have hnone : ∀ j, ¬ c'.Caches j s := fun j hj => lookup_eq_none hl j (he.caches j s hj)
    obtain ⟨hinv, hcontent⟩ := fill_spec he.inv he.empty hnone hs'
    dsimp only
    rw [hevict, ok_bind]
    dsimp only
    rw [check_bind he.empty, Device.blockRead_of_lt hs', ok_bind]
    refine ⟨_, _, rfl, hinv, hcontent.trans he.content, he.size, ?_⟩
    rw [caches_setSlot_self]
    exact ⟨rfl, rfl⟩

/-- `buffer_cache_read` gives the content of the sector and changes no content. -/
theorem bufferCacheRead_spec (h : c.Inv) (hs : s.toNat < c.device.size) :
    ∃ c', c.bufferCacheRead s = .ok (c.content s, c') ∧ c'.Inv ∧ c'.content = c.content ∧
      c'.device.size = c.device.size := by
  obtain ⟨c₁, i, hfetch, hinv, hcontent, hsize, hi⟩ := fetch_spec h hs
  unfold bufferCacheRead
  rw [hfetch, ok_bind, ← hcontent, content_of_caches hinv hi]
  have hsame := sameData_setAccess c₁ i
  exact ⟨_, rfl, hsame.inv hinv, hsame.content hinv, hsize⟩

/-- Filling the slot of a sector with new bytes. -/
theorem overwrite_spec (h : c.Inv) (hi : c.Caches i s) :
    (c.setSlot i { c.cache i with access := true, dirty := true, buffer := b }).Inv ∧
    (c.setSlot i { c.cache i with access := true, dirty := true, buffer := b }).content =
      Function.update c.content s b := by
  have hcaches : ∀ j t,
      (c.setSlot i { c.cache i with access := true, dirty := true, buffer := b }).Caches j t ↔
        c.Caches j t := by
    intro j t
    by_cases hj : j = i
    · subst hj
      rw [caches_setSlot_self]
      rfl
    · exact caches_setSlot_of_ne hj
  have hinv :
      (c.setSlot i { c.cache i with access := true, dirty := true, buffer := b }).Inv := by
    refine ⟨?_, ?_, ?_⟩
    · intro j k t hj hk
      exact h.unique j k t ((hcaches j t).mp hj) ((hcaches k t).mp hk)
    · intro j t hj hclean
      rw [cache_setSlot] at hclean ⊢
      split_ifs at hclean ⊢
      exact h.clean j t ((hcaches j t).mp hj) hclean
    · intro j t hj
      exact h.inRange j t ((hcaches j t).mp hj)
  refine ⟨hinv, ?_⟩
  funext t
  by_cases hcached : ∃ j, c.Caches j t
  · obtain ⟨j, hj⟩ := hcached
    rw [content_of_caches hinv ((hcaches j t).mpr hj), cache_setSlot]
    by_cases ht : t = s
    · subst ht
      rw [if_pos (h.unique j i t hj hi), Function.update_self]
    · have hne : j ≠ i := by
        rintro rfl
        exact ht (hj.2.symm.trans hi.2)
      rw [if_neg hne, Function.update_of_ne ht, content_of_caches h hj]
  · have hnone : ∀ j, ¬ c.Caches j t := fun j hj => hcached ⟨j, hj⟩
    have ht : t ≠ s := fun heq => hnone i (heq ▸ hi)
    rw [Function.update_of_ne ht, content_of_not_caches hnone,
      content_of_not_caches fun j hj => hnone j ((hcaches j t).mp hj)]
    rfl

/-- `buffer_cache_write` changes the content of the sector. -/
theorem bufferCacheWrite_spec (h : c.Inv) (hs : s.toNat < c.device.size) (b : Block) :
    ∃ c', c.bufferCacheWrite s b = .ok c' ∧ c'.Inv ∧
      c'.content = Function.update c.content s b ∧ c'.device.size = c.device.size := by
  obtain ⟨c₁, i, hfetch, hinv, hcontent, hsize, hi⟩ := fetch_spec h hs
  unfold bufferCacheWrite
  rw [hfetch, ok_bind]
  obtain ⟨hinv', hcontent'⟩ := overwrite_spec hinv hi
  exact ⟨_, rfl, hinv', by rw [hcontent', hcontent], hsize⟩

/-! ## Closing -/

theorem closeLoop_spec {is : List (Fin bufferCacheSize)} (h : c.Inv) :
    ∃ c', c.closeLoop is = .ok c' ∧ c'.Inv ∧ c'.content = c.content ∧
      (∀ j s, c'.Caches j s ↔ c.Caches j s) ∧
      (∀ j, (c.cache j).dirty = false → (c'.cache j).dirty = false) ∧
      ∀ j s, j ∈ is → c'.Caches j s → (c'.cache j).dirty = false := by
  induction is generalizing c with
  | nil => exact ⟨c, rfl, h, rfl, fun _ _ => Iff.rfl, fun _ hj => hj, fun _ _ hmem => by cases hmem⟩
  | cons i is ih =>
    unfold closeLoop
    by_cases hempty : (c.cache i).occupied = false
    · rw [if_pos hempty]
      obtain ⟨c', hc', hinv, hcontent, hcaches, hothers, hclean⟩ := ih h
      refine ⟨c', hc', hinv, hcontent, hcaches, hothers, ?_⟩
      intro j s hmem hj
      cases List.mem_cons.mp hmem with
      | inl heq =>
        have hocc := ((hcaches j s).mp hj).1
        rw [heq, hempty] at hocc
        cases hocc
      | inr hmem => exact hclean j s hmem hj
    · rw [if_neg hempty]
      have hi : c.Caches i (c.cache i).diskSector := ⟨by simpa using hempty, rfl⟩
      obtain ⟨c₁, hflush, hf⟩ := bufferCacheFlush_spec h hi
      obtain ⟨c', hc', hinv, hcontent, hcaches, hothers, hclean⟩ := ih hf.inv
      rw [hflush, ok_bind]
      refine ⟨c', hc', hinv, hcontent.trans hf.content,
        fun j s => (hcaches j s).trans (hf.caches j s), fun j hj => hothers j (hf.others j hj), ?_⟩
      intro j s hmem hj
      cases List.mem_cons.mp hmem with
      | inl heq =>
        rw [heq]
        exact hothers i hf.clean
      | inr hmem => exact hclean j s hmem hj

/-- `buffer_cache_close` brings the content to the device. -/
theorem bufferCacheClose_spec (h : c.Inv) :
    ∃ c', c.bufferCacheClose = .ok c' ∧ c'.device.data = c.content := by
  obtain ⟨c', hc', hinv, hcontent, -, -, hclean⟩ :=
    @closeLoop_spec c (List.finRange bufferCacheSize) h
  refine ⟨c', hc', ?_⟩
  rw [← hcontent]
  funext s
  by_cases hcached : ∃ j, c'.Caches j s
  · obtain ⟨j, hj⟩ := hcached
    rw [content_of_caches hinv hj]
    exact (hinv.clean j s hj (hclean j s (List.mem_finRange j) hj)).symm
  · exact (content_of_not_caches fun j hj => hcached ⟨j, hj⟩).symm

/-! ## Runs -/

/-- A call of `buffer_cache_read` or `buffer_cache_write`. -/
inductive Call where
  | read (sector : Sector)
  | write (sector : Sector) (source : Block)

/-- The sector that a call is about. -/
def Call.sector : Call → Sector
  | .read sector => sector
  | .write sector _ => sector

/-- The calls one after another, with what the reads return. -/
def runCalls (c : BufferCache) : List Call → Except Panic (List Block × BufferCache)
  | [] => pure ([], c)
  | .read sector :: calls => do
    let (b, c) ← c.bufferCacheRead sector
    let (bs, c) ← c.runCalls calls
    pure (b :: bs, c)
  | .write sector source :: calls => do
    let c ← c.bufferCacheWrite sector source
    c.runCalls calls

/-- The bytes that were written last to each sector, from the bytes `m` before the calls. -/
def lastWritten (m : Sector → Block) : List Call → Sector → Block
  | [] => m
  | .read _ :: calls => lastWritten m calls
  | .write sector source :: calls => lastWritten (Function.update m sector source) calls

/-- What the reads find if each finds the bytes that were written last to its sector. -/
def lastWrittenReads (m : Sector → Block) : List Call → List Block
  | [] => []
  | .read sector :: calls => m sector :: lastWrittenReads m calls
  | .write sector source :: calls => lastWrittenReads (Function.update m sector source) calls

theorem runCalls_spec {calls : List Call} (h : c.Inv)
    (hs : ∀ call ∈ calls, call.sector.toNat < c.device.size) :
    ∃ c', c.runCalls calls = .ok (lastWrittenReads c.content calls, c') ∧ c'.Inv ∧
      c'.content = lastWritten c.content calls := by
  induction calls generalizing c with
  | nil => exact ⟨c, rfl, h, rfl⟩
  | cons call calls ih =>
    have hcall : call.sector.toNat < c.device.size := hs call List.mem_cons_self
    have hcalls : ∀ x ∈ calls, x.sector.toNat < c.device.size :=
      fun x hx => hs x (List.mem_cons_of_mem _ hx)
    cases call with
    | read sector =>
      obtain ⟨c₁, hread, hinv, hcontent, hsize⟩ := @bufferCacheRead_spec c sector h hcall
      obtain ⟨c', hrun, hinv', hcontent'⟩ := ih hinv (by rwa [hsize])
      refine ⟨c', ?_, hinv', by rw [hcontent', hcontent, lastWritten]⟩
      rw [runCalls, hread, ok_bind]
      dsimp only
      rw [hrun, hcontent]
      rfl
    | write sector source =>
      obtain ⟨c₁, hwrite, hinv, hcontent, hsize⟩ := @bufferCacheWrite_spec c sector h hcall source
      obtain ⟨c', hrun, hinv', hcontent'⟩ := ih hinv (by rwa [hsize])
      refine ⟨c', ?_, hinv', by rw [hcontent', hcontent, lastWritten]⟩
      rw [runCalls, hwrite, ok_bind, hrun, hcontent]
      rfl

theorem bufferCacheInit_inv (c : BufferCache) : c.bufferCacheInit.Inv := by
  have hnone : ∀ i s, ¬ c.bufferCacheInit.Caches i s := by
    intro i s hi
    cases hi.1
  exact ⟨fun i _ s hi => absurd hi (hnone i s), fun i s hi => absurd hi (hnone i s),
    fun i s hi => absurd hi (hnone i s)⟩

theorem bufferCacheInit_content (c : BufferCache) : c.bufferCacheInit.content = c.device.data := by
  funext s
  exact content_of_not_caches fun i hi => by cases hi.1

/-- The buffer cache is transparent: whatever is read and written, a read returns the bytes written
last to its sector, a sector has at most one slot and a clean slot has the bytes of the device;
closing brings to the device what was written last. The clock loop ends from every state. -/
theorem bufferCache_transparent (c : BufferCache) (calls : List Call)
    (h : ∀ call ∈ calls, call.sector.toNat < c.device.size) :
    (∀ cache clock, (evictLoop (bufferCacheSize + 1) cache clock).isSome) ∧
    ∃ c', c.bufferCacheInit.runCalls calls = .ok (lastWrittenReads c.device.data calls, c') ∧
      (∀ i j s, c'.Caches i s → c'.Caches j s → i = j) ∧
      (∀ i s, c'.Caches i s → (c'.cache i).dirty = false →
        (c'.cache i).buffer = c'.device.data s) ∧
      ∃ closed, c'.bufferCacheClose = .ok closed ∧
        closed.device.data = lastWritten c.device.data calls := by
  refine ⟨evictLoop_terminates, ?_⟩
  obtain ⟨c', hrun, hinv, hcontent⟩ := runCalls_spec (bufferCacheInit_inv c) h
  rw [bufferCacheInit_content] at hrun hcontent
  obtain ⟨closed, hclose, hdata⟩ := bufferCacheClose_spec hinv
  exact ⟨c', hrun, hinv.unique, hinv.clean, closed, hclose, hdata.trans hcontent⟩

/-- A sector of bytes 1. -/
def ones : Block := ⟨List.replicate 512 1, List.length_replicate⟩

/-- A cache in front of a device of four sectors of zeros. -/
def smallCache : BufferCache where
  device := { size := 4, data := fun _ => zeros }
  cache := fun _ =>
    { occupied := false, diskSector := 0, buffer := zeros, dirty := false, access := false }
  clock := ⟨0, by decide⟩

theorem bufferCache_transparent_smallCache : ∃ c',
    smallCache.bufferCacheInit.runCalls [.write 1 ones, .read 1, .read 2] =
      .ok ([ones, zeros], c') := by
  have hsectors : ∀ call ∈ [Call.write 1 ones, Call.read 1, Call.read 2],
      call.sector.toNat < smallCache.device.size := by
    simp [Call.sector, smallCache]
  obtain ⟨-, c', hrun, -⟩ := bufferCache_transparent smallCache _ hsectors
  exact ⟨c', hrun⟩

end BufferCache

end CSE130.Filesys
