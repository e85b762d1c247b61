import CSE130.Palloc.Basic

/-!
# The calls of the page allocator

A call hands out the first run of free pages of its pool, and a run that has been handed out can be
given back. The pools are apart, with the bitmap of the user pool between them.
-/

namespace CSE130.Palloc

open CSE130.Library CSE130.KernelLib
open CSE130.Malloc (pgSize pgOfs)

/-- A pool lies in the memory and begins with a page. -/
structure Pool.Ok (p : Pool) : Prop where
  aligned : p.base % pgSize = 0
  pos : 0 < p.base
  fits : p.base + p.usedMap.bitCnt * pgSize ≤ 2 ^ 32

theorem bmPages_pos (pageCnt : Nat) : 0 < bmPages pageCnt := by
  unfold bmPages bitmapBufSize pgSize
  omega

/-- A new pool follows its bitmap and extends to the end of the memory that is given to it. -/
theorem initPool_spec {base pageCnt : Nat} {words : Nat → UInt32} {h : pageCnt < 2 ^ 32} {p : Pool}
    (hbase : base % pgSize = 0) (hend : base + pageCnt * pgSize ≤ 2 ^ 32)
    (hp : initPool base pageCnt words h = .ok p) :
    p.Ok ∧ base + pgSize ≤ p.base ∧ p.base + p.usedMap.bitCnt * pgSize = base + pageCnt * pgSize ∧
      ∀ i < p.usedMap.bitCnt, p.usedMap.bit i = false := by
  simp only [initPool, bind_eq_ok, check_eq_ok, pure_eq_ok] at hp
  obtain ⟨-, hle, -, -, usedMap, hmap, rfl⟩ := hp
  obtain ⟨b, hb, hcnt, hbits⟩ := Bitmap.createInBuf_spec words
    (Nat.lt_of_le_of_lt (Nat.sub_le pageCnt (bmPages pageCnt)) h)
  cases hmap.symm.trans hb
  have hpos := bmPages_pos pageCnt
  have hsum : (pageCnt - bmPages pageCnt) * pgSize + bmPages pageCnt * pgSize = pageCnt * pgSize := by
    rw [← Nat.add_mul, Nat.sub_add_cancel hle]
  have hpage : pgSize ≤ bmPages pageCnt * pgSize := Nat.le_mul_of_pos_left _ hpos
  have hpg : 0 < pgSize := by decide
  have hmod : (base + bmPages pageCnt * pgSize) % pgSize = 0 := by
    rw [Nat.add_mul_mod_self_right, hbase]
  refine ⟨⟨hmod, ?_, ?_⟩, ?_, ?_, ?_⟩
  · dsimp only
    omega
  · dsimp only
    rw [hcnt]
    omega
  · dsimp only
    omega
  · dsimp only
    rw [hcnt]
    omega
  · dsimp only
    rw [hcnt]
    exact hbits

namespace Pages

variable {m m' : Pages} {user user' : Bool} {i j q page cnt : Nat} {flags : PallocFlags}

/-- The pools do not touch. -/
structure Inv (m : Pages) : Prop where
  kernel : m.kernelPool.Ok
  user : m.userPool.Ok
  apart : m.kernelPool.base + m.kernelPool.usedMap.bitCnt * pgSize < m.userPool.base

theorem Inv.pool (h : m.Inv) (user : Bool) : (m.pool user).Ok := by
  cases user with
  | false => exact h.kernel
  | true => exact h.user

/-- After `palloc_init` no page has been handed out. -/
theorem pallocInit_spec {initRamPages userPageLimit : UInt32} {words : Nat → Nat → UInt32}
    {bytes : Nat → UInt8} (hlow : 256 ≤ initRamPages.toNat) (hhigh : initRamPages.toNat ≤ 2 ^ 18)
    (h : pallocInit initRamPages userPageLimit words bytes = .ok m) : m.Inv ∧ ∀ q, ¬ m.Held q := by
  simp only [pallocInit, bind_eq_ok, pure_eq_ok] at h
  obtain ⟨-, -, kernelPool, hkernel, userPool, huser, rfl⟩ := h
  have hfree : freePages initRamPages = initRamPages.toNat - 256 := by
    unfold freePages
    omega
  have husers : userPages initRamPages userPageLimit ≤ freePages initRamPages / 2 := Nat.min_le_left _ _
  obtain ⟨hok, -, hend, hbits⟩ := initPool_spec (by decide) (by
    unfold physBase pgSize
    omega) hkernel
  obtain ⟨hok', hbase', hend', hbits'⟩ := initPool_spec (by
    unfold physBase pgSize
    omega) (by
    unfold physBase pgSize
    omega) huser
  refine ⟨⟨hok, hok', ?_⟩, ?_⟩
  · dsimp only
    unfold pgSize at *
    omega
  · rintro q ⟨user, i, ⟨hi, -⟩, hbit⟩
    cases user with
    | false =>
      rw [show Pages.pool _ false = kernelPool from rfl] at hi hbit
      rw [hbits i hi] at hbit
      cases hbit
    | true =>
      rw [show Pages.pool _ true = userPool from rfl] at hi hbit
      rw [hbits' i hi] at hbit
      cases hbit

/-! ## Pages of the pools -/

theorem pool_setMap (b : Bitmap) : (m.setMap user b).pool user' =
    if user' = user then { m.pool user with usedMap := b } else m.pool user' := by
  cases user <;> cases user' <;> rfl

@[simp] theorem bytes_setMap (b : Bitmap) : (m.setMap user b).bytes = m.bytes := by
  cases user <;> rfl

@[simp] theorem pool_fill {dst size : Nat} {value : UInt8} :
    (m.fill dst value size).pool user = m.pool user := by
  cases user <;> rfl

/-- Both pools have their pages as before. -/
def SamePools (m m' : Pages) : Prop :=
  ∀ user, (m'.pool user).base = (m.pool user).base ∧
    (m'.pool user).usedMap.bitCnt = (m.pool user).usedMap.bitCnt

theorem samePools_setMap {b : Bitmap} (hb : b.bitCnt = (m.pool user).usedMap.bitCnt) :
    m.SamePools (m.setMap user b) := by
  intro user'
  rw [pool_setMap]
  split_ifs with huser
  · subst huser
    exact ⟨rfl, hb⟩
  · exact ⟨rfl, rfl⟩

theorem samePools_fill {dst size : Nat} {value : UInt8} : m.SamePools (m.fill dst value size) := by
  intro user
  rw [pool_fill]
  exact ⟨rfl, rfl⟩

theorem SamePools.trans {m'' : Pages} (h : m.SamePools m') (h' : m'.SamePools m'') :
    m.SamePools m'' :=
  fun user => ⟨(h' user).1.trans (h user).1, (h' user).2.trans (h user).2⟩

/-- A change of a bitmap keeps the places of the pools. -/
theorem Inv.setMap (h : m.Inv) {b : Bitmap} (hb : b.bitCnt = (m.pool user).usedMap.bitCnt) :
    (m.setMap user b).Inv := by
  obtain ⟨⟨hka, hkp, hkf⟩, ⟨hua, hup, huf⟩, hapart⟩ := h
  cases user with
  | false =>
    replace hb : b.bitCnt = m.kernelPool.usedMap.bitCnt := hb
    exact ⟨⟨hka, hkp, by rw [← hb] at hkf; exact hkf⟩, ⟨hua, hup, huf⟩, by rw [← hb] at hapart; exact hapart⟩
  | true =>
    replace hb : b.bitCnt = m.userPool.usedMap.bitCnt := hb
    exact ⟨⟨hka, hkp, hkf⟩, ⟨hua, hup, by rw [← hb] at huf; exact huf⟩, hapart⟩

theorem Inv.fill (h : m.Inv) (dst size : Nat) (value : UInt8) : (m.fill dst value size).Inv :=
  ⟨h.kernel, h.user, h.apart⟩

/-- The numbers of the pages of a pool. -/
theorem Inv.numbers (h : m.Inv) (user : Bool) :
    (m.pool user).base = pgNo (m.pool user).base * pgSize ∧
      (pgNo (m.pool user).base + (m.pool user).usedMap.bitCnt) * pgSize ≤ 2 ^ 32 ∧
      0 < pgNo (m.pool user).base := by
  obtain ⟨haligned, hpos, hfits⟩ := h.pool user
  have hbase : (m.pool user).base = pgNo (m.pool user).base * pgSize :=
    (Nat.div_mul_cancel (Nat.dvd_of_mod_eq_zero haligned)).symm
  refine ⟨hbase, ?_, ?_⟩
  · rwa [Nat.add_mul, ← hbase]
  · unfold pgNo pgSize at *
    omega

/-- A page of the kernel pool, then one that is in neither pool, then one of the user pool. -/
theorem Inv.gap (h : m.Inv) :
    pgNo m.kernelPool.base + m.kernelPool.usedMap.bitCnt < pgNo m.userPool.base := by
  obtain ⟨hk, -, -⟩ := h.numbers false
  obtain ⟨hu, -, -⟩ := h.numbers true
  have hapart := h.apart
  change m.kernelPool.base = pgNo m.kernelPool.base * pgSize at hk
  change m.userPool.base = pgNo m.userPool.base * pgSize at hu
  rw [hk, hu, ← Nat.add_mul] at hapart
  exact Nat.lt_of_mul_lt_mul_right hapart

theorem Inv.isPage_unique (h : m.Inv) (hi : IsPage (m.pool user) i q)
    (hj : IsPage (m.pool user') j q) : user = user' ∧ i = j := by
  have hgap := h.gap
  obtain ⟨hi, rfl⟩ := hi
  obtain ⟨hj, heq⟩ := hj
  cases user <;> cases user' <;> simp only [Pages.pool, Bool.false_eq_true, if_true, if_false] at hi hj heq
  · exact ⟨rfl, by omega⟩
  · omega
  · omega
  · exact ⟨rfl, by omega⟩

theorem Inv.held_iff (h : m.Inv) (hi : IsPage (m.pool user) i q) :
    m.Held q ↔ (m.pool user).usedMap.bit i = true := by
  constructor
  · rintro ⟨user', j, hj, hbit⟩
    obtain ⟨rfl, rfl⟩ := h.isPage_unique hj hi
    exact hbit
  · exact fun hbit => ⟨user, i, hi, hbit⟩

/-- A bitmap of which a range has been changed. -/
theorem Inv.held_setMap (h : m.Inv) {b : Bitmap} {value : Bool}
    (hset : Bitmap.SetTo (m.pool user).usedMap b i cnt value)
    (hfits : i + cnt ≤ (m.pool user).usedMap.bitCnt) (hpage : page = pgNo (m.pool user).base + i) :
    (m.setMap user b).Held q ↔ if page ≤ q ∧ q < page + cnt then value = true else m.Held q := by
  have hinv := h.setMap hset.bitCnt
  have hpool : (m.setMap user b).pool user = { m.pool user with usedMap := b } := by
    rw [pool_setMap, if_pos rfl]
  split_ifs with hq
  · have hnew : IsPage ((m.setMap user b).pool user) (q - pgNo (m.pool user).base) q := by
      rw [hpool]
      refine ⟨?_, ?_⟩
      · dsimp only
        rw [hset.bitCnt]
        omega
      · dsimp only
        omega
    rw [hinv.held_iff hnew, hpool]
    dsimp only
    rw [hset.bit, if_pos (by omega)]
  · constructor
    · rintro ⟨user', j, hj, hbit⟩
      rw [pool_setMap] at hj hbit
      by_cases huser : user' = user
      · rw [if_pos huser] at hj hbit
        obtain ⟨hlt, rfl⟩ := hj
        dsimp only at hlt hbit hq
        rw [hset.bit, if_neg (by omega)] at hbit
        exact ⟨user, j, ⟨hset.bitCnt ▸ hlt, rfl⟩, hbit⟩
      · rw [if_neg huser] at hj hbit
        exact ⟨user', j, hj, hbit⟩
    · rintro ⟨user', j, hj, hbit⟩
      refine ⟨user', j, ?_, ?_⟩
      · rw [pool_setMap]
        split_ifs with huser
        · subst huser
          exact ⟨hset.bitCnt.symm ▸ hj.1, hj.2⟩
        · exact hj
      · rw [pool_setMap]
        split_ifs with huser
        · subst huser
          obtain ⟨hlt, rfl⟩ := hj
          dsimp only
          rw [hset.bit, if_neg (by omega)]
          exact hbit
        · exact hbit

@[simp] theorem held_fill {dst size : Nat} {value : UInt8} :
    (m.fill dst value size).Held q ↔ m.Held q := by
  simp only [Held, pool_fill]

theorem bytes_fill {value : UInt8} (x : Nat) : (m.fill (page * pgSize) value (pgSize * cnt)).bytes x =
    if page * pgSize ≤ x ∧ x < (page + cnt) * pgSize then value else m.bytes x := by
  rw [Nat.add_mul, Nat.mul_comm cnt]
  rfl

/-! ## `palloc_get_multiple` -/

/-- Pages of a pool that have not been handed out. -/
def FreeRun (m : Pages) (user : Bool) (page cnt : Nat) : Prop :=
  ∀ q, page ≤ q → q < page + cnt → (∃ i, IsPage (m.pool user) i q) ∧ ¬ m.Held q

/-- The first run of free pages has been handed out, and nothing else has changed. -/
structure Granted (m m' : Pages) (flags : PallocFlags) (page cnt : Nat) : Prop where
  inv : m'.Inv
  pools : m.SamePools m'
  free : m.FreeRun flags.user page cnt
  first : ∀ page' < page, ¬ m.FreeRun flags.user page' cnt
  held : ∀ q, m'.Held q ↔ (page ≤ q ∧ q < page + cnt) ∨ m.Held q
  bytes : ∀ x, m'.bytes x =
    if flags.zero = true ∧ page * pgSize ≤ x ∧ x < (page + cnt) * pgSize then 0 else m.bytes x

/-- A run of free pages is a group of bits. -/
theorem Inv.freeRun_iff (h : m.Inv) (hcnt : cnt ≠ 0) : m.FreeRun user page cnt ↔
    ∃ i, page = pgNo (m.pool user).base + i ∧ (m.pool user).usedMap.Group i cnt false := by
  constructor
  · intro hfree
    obtain ⟨⟨i, hi, hpage⟩, -⟩ := hfree page le_rfl (by omega)
    obtain ⟨⟨i', hi', hlast⟩, -⟩ := hfree (page + cnt - 1) (by omega) (by omega)
    refine ⟨i, hpage, by omega, fun j hle hlt => ?_⟩
    obtain ⟨-, hno⟩ := hfree (pgNo (m.pool user).base + j) (by omega) (by omega)
    rw [h.held_iff ⟨by omega, rfl⟩, Bool.not_eq_true] at hno
    exact hno
  · rintro ⟨i, rfl, hfits, hbits⟩ q hle hlt
    have hpage : IsPage (m.pool user) (q - pgNo (m.pool user).base) q := ⟨by omega, by omega⟩
    refine ⟨⟨_, hpage⟩, ?_⟩
    rw [h.held_iff hpage, hbits _ (by omega) (by omega)]
    exact Bool.false_ne_true

/-- The first run of free pages is handed out, if there is one. -/
theorem Inv.get_spec (h : m.Inv) (hcnt : cnt ≠ 0) (flags : PallocFlags) :
    (∃ page m', page ≠ 0 ∧ m.pallocGetMultiple flags cnt = .ok (page * pgSize, m') ∧
      Granted m m' flags page cnt) ∨
    (∀ page, ¬ m.FreeRun flags.user page cnt) ∧
      m.pallocGetMultiple flags cnt = if flags.assert then .error .outOfPages else .ok (0, m) := by
  obtain ⟨r, b, hscan, hfinds, hflipped⟩ :=
    @Bitmap.scanAndFlip_spec (m.pool flags.user).usedMap 0 cnt false (Nat.zero_le _)
  rw [pallocGetMultiple, if_neg hcnt, hscan]
  simp only [ok_bind]
  have hmap : ((m.setMap flags.user b).pool flags.user).base = (m.pool flags.user).base := by
    rw [pool_setMap, if_pos rfl]
  cases r with
  | none =>
    right
    refine ⟨?_, ?_⟩
    · intro page hfree
      obtain ⟨i, -, hgroup⟩ := (h.freeRun_iff hcnt).mp hfree
      exact hfinds i (Nat.zero_le i) hgroup
    · obtain rfl : b = (m.pool flags.user).usedMap := hflipped
      have hsame : m.setMap flags.user (m.pool flags.user).usedMap = m := by
        cases flags.user <;> rfl
      simp only [hsame, ne_eq, not_true_eq_false, if_false]
      rfl
  | some idx =>
    left
    obtain ⟨-, hgroup, hfirst⟩ := hfinds
    obtain ⟨hbase, hfits, hpos⟩ := h.numbers flags.user
    have hidx : idx + cnt ≤ (m.pool flags.user).usedMap.bitCnt := hgroup.1
    have haddr : ((m.pool flags.user).base + pgSize * idx) % 2 ^ 32 =
        (pgNo (m.pool flags.user).base + idx) * pgSize := by
      rw [Nat.add_mul, ← hbase, Nat.mul_comm pgSize]
      apply Nat.mod_eq_of_lt
      rw [Nat.add_mul, ← hbase] at hfits
      have hlt : idx * pgSize < (m.pool flags.user).usedMap.bitCnt * pgSize :=
        Nat.mul_lt_mul_of_pos_right (by omega) (by decide)
      omega
    have hne : (pgNo (m.pool flags.user).base + idx) * pgSize ≠ 0 :=
      Nat.mul_ne_zero (by omega) (by decide)
    have hset : Bitmap.SetTo (m.pool flags.user).usedMap b idx cnt true := hflipped
    have hheld : ∀ q, (m.setMap flags.user b).Held q ↔
        (pgNo (m.pool flags.user).base + idx ≤ q ∧ q < pgNo (m.pool flags.user).base + idx + cnt) ∨
          m.Held q := by
      intro q
      rw [h.held_setMap hset hidx rfl]
      split_ifs with hq
      · exact iff_of_true rfl (.inl hq)
      · exact (or_iff_right hq).symm
    have hfree : m.FreeRun flags.user (pgNo (m.pool flags.user).base + idx) cnt :=
      (h.freeRun_iff hcnt).mpr ⟨idx, rfl, hgroup⟩
    have hno : ∀ page' < pgNo (m.pool flags.user).base + idx, ¬ m.FreeRun flags.user page' cnt := by
      intro page' hlt hfree'
      obtain ⟨i, rfl, hgroup'⟩ := (h.freeRun_iff hcnt).mp hfree'
      exact hfirst i (Nat.zero_le i) (by omega) hgroup'
    refine ⟨pgNo (m.pool flags.user).base + idx,
      if flags.zero then (m.setMap flags.user b).fill ((pgNo (m.pool flags.user).base + idx) * pgSize) 0
        (pgSize * cnt) else m.setMap flags.user b, by omega, ?_, ?_⟩
    · simp only [hmap, haddr, ne_eq, hne, not_false_eq_true, if_true]
      rfl
    · have hinv := h.setMap hset.bitCnt
      cases hzero : flags.zero with
      | true =>
        refine ⟨hinv.fill _ _ _, (samePools_setMap hset.bitCnt).trans samePools_fill, hfree, hno,
          fun q => held_fill.trans (hheld q), fun x => ?_⟩
        rw [if_pos rfl, bytes_fill, bytes_setMap, hzero]
        simp only [true_and]
      | false =>
        refine ⟨hinv, samePools_setMap hset.bitCnt, hfree, hno, hheld, fun x => ?_⟩
        rw [hzero, if_neg Bool.false_ne_true, if_neg (by simp), bytes_setMap]

/-! ## `palloc_free_multiple` -/

/-- The pages of a run are free again, and nothing else has changed but for the bytes of the run. -/
structure Freed (m m' : Pages) (page cnt : Nat) : Prop where
  inv : m'.Inv
  pools : m.SamePools m'
  held : ∀ q, m'.Held q ↔ m.Held q ∧ ¬ (page ≤ q ∧ q < page + cnt)
  bytes : ∀ x, m'.bytes x =
    if page * pgSize ≤ x ∧ x < (page + cnt) * pgSize then 0xcc else m.bytes x

/-- Adjacent pages that have been handed out are of one pool. -/
theorem Inv.heldRun_iff (h : m.Inv) (hcnt : cnt ≠ 0) : m.HeldRun page cnt ↔
    ∃ user i, page = pgNo (m.pool user).base + i ∧ (m.pool user).usedMap.Group i cnt true := by
  constructor
  · intro hheld
    have hgap := h.gap
    obtain ⟨user, i, ⟨hi, rfl⟩, -⟩ := hheld page le_rfl (by omega)
    have hsame : ∀ q, pgNo (m.pool user).base + i ≤ q → q < pgNo (m.pool user).base + i + cnt →
        ∃ j, IsPage (m.pool user) j q ∧ (m.pool user).usedMap.bit j = true := by
      intro q hle hlt
      obtain ⟨user', j, hj, hbit⟩ := hheld q hle hlt
      by_cases huser : user' = user
      · subst huser
        exact ⟨j, hj, hbit⟩
      · obtain ⟨hj, rfl⟩ := hj
        cases user with
        | true =>
          rw [Bool.not_eq_true] at huser
          subst huser
          simp only [Pages.pool, Bool.false_eq_true, if_true, if_false] at *
          omega
        | false =>
          rw [Bool.not_eq_false] at huser
          subst huser
          -- the page behind the kernel pool would have been handed out
          obtain ⟨user'', k, ⟨hk, heq⟩, -⟩ :=
            hheld (pgNo m.kernelPool.base + m.kernelPool.usedMap.bitCnt)
              (by simp only [Pages.pool, Bool.false_eq_true, if_true, if_false] at *; omega)
              (by simp only [Pages.pool, Bool.false_eq_true, if_true, if_false] at *; omega)
          cases user'' <;> simp only [Pages.pool, Bool.false_eq_true, if_true, if_false] at hk heq <;>
            omega
    refine ⟨user, i, rfl, ?_, fun j hle hlt => ?_⟩
    · obtain ⟨j, ⟨hj, heq⟩, -⟩ := hsame (pgNo (m.pool user).base + i + cnt - 1) (by omega) (by omega)
      omega
    · obtain ⟨k, ⟨-, heq⟩, hbit⟩ := hsame (pgNo (m.pool user).base + j) (by omega) (by omega)
      rwa [Nat.add_left_cancel heq]
  · rintro ⟨user, i, rfl, hfits, hbits⟩ q hle hlt
    exact ⟨user, q - pgNo (m.pool user).base, ⟨by omega, by omega⟩, hbits _ (by omega) (by omega)⟩

theorem pgOfs_mul (page : Nat) : pgOfs (page * pgSize) = 0 := Nat.mul_mod_left page pgSize

theorem pgNo_mul (page : Nat) : pgNo (page * pgSize) = page := Nat.mul_div_cancel page (by decide)

theorem Inv.poolOf_eq (h : m.Inv) (hi : IsPage (m.pool user) i page) :
    m.poolOf (page * pgSize) = .ok user := by
  have hgap := h.gap
  obtain ⟨hi, rfl⟩ := hi
  have hfrom : pageFromPool (m.pool user) ((pgNo (m.pool user).base + i) * pgSize) = true := by
    rw [pageFromPool, pgNo_mul, decide_eq_true_iff]
    exact ⟨Nat.le_add_right _ _, Nat.add_lt_add_left hi _⟩
  rw [poolOf]
  cases user with
  | false => exact if_pos hfrom
  | true =>
    have hnot : ¬ pageFromPool m.kernelPool ((pgNo (m.pool true).base + i) * pgSize) = true := by
      rw [pageFromPool, pgNo_mul, decide_eq_true_iff]
      rintro ⟨-, hlt⟩
      simp only [Pages.pool, if_true] at hlt
      omega
    rw [if_neg hnot, if_pos]
    · rfl
    · exact hfrom

/-- Pages that have been handed out are freed without a failure. -/
theorem Inv.free_spec (h : m.Inv) (hcnt : cnt ≠ 0) (hheld : m.HeldRun page cnt) :
    ∃ m', m.pallocFreeMultiple (page * pgSize) cnt = .ok m' ∧ Freed m m' page cnt := by
  obtain ⟨user, i, rfl, hgroup⟩ := (h.heldRun_iff hcnt).mp hheld
  have hfits := hgroup.1
  obtain ⟨-, -, hpos⟩ := h.numbers user
  have hne : (pgNo (m.pool user).base + i) * pgSize ≠ 0 := Nat.mul_ne_zero (by omega) (by decide)
  obtain ⟨allUsed, hall, hiff⟩ := Bitmap.all_spec hfits
  obtain ⟨b, hset, hsetTo⟩ := Bitmap.setMultiple_spec false hfits
  have hidx : pgNo (m.pool user).base + i - pgNo (m.pool user).base = i :=
    Nat.add_sub_cancel_left _ _
  refine ⟨((m.fill ((pgNo (m.pool user).base + i) * pgSize) 0xcc (pgSize * cnt)).setMap user b), ?_, ?_⟩
  · rw [pallocFreeMultiple, check_bind (pgOfs_mul _), if_neg (by simp [hne, hcnt]),
      h.poolOf_eq ⟨by omega, rfl⟩]
    simp only [ok_bind, pool_fill, pgNo_mul, hidx, hall, hset,
      check_bind (hiff.mpr hgroup.2)]
    rfl
  · have hinv := h.fill ((pgNo (m.pool user).base + i) * pgSize) (pgSize * cnt) 0xcc
    have hbitCnt : b.bitCnt = ((m.fill ((pgNo (m.pool user).base + i) * pgSize) 0xcc
        (pgSize * cnt)).pool user).usedMap.bitCnt := by rw [pool_fill, hsetTo.bitCnt]
    refine ⟨hinv.setMap hbitCnt, samePools_fill.trans (samePools_setMap hbitCnt), fun q => ?_,
      fun x => ?_⟩
    · have hheld' := @Inv.held_setMap _ user i q _ cnt hinv b false (by rwa [pool_fill]) (by rwa [pool_fill])
        (by rw [pool_fill])
      rw [hheld']
      split_ifs with hq
      · exact iff_of_false (by simp) fun hand => hand.2 hq
      · rw [held_fill]
        exact (and_iff_left hq).symm
    · rw [bytes_setMap, bytes_fill]

/-! ## Runs -/

theorem Inv.step (h : m.Inv) {c : Call} (hc : m.Admits c) (hs : m.step c = .ok m') : m'.Inv := by
  cases c with
  | get flags pageCnt =>
    rw [Pages.step] at hs
    by_cases hcnt : pageCnt = 0
    · rw [pallocGetMultiple, if_pos hcnt] at hs
      cases hs
      exact h
    · rcases h.get_spec hcnt flags with ⟨page, m₁, -, heq, hgranted⟩ | ⟨-, heq⟩
      · rw [heq] at hs
        cases hs
        exact hgranted.inv
      · rw [heq] at hs
        split_ifs at hs
        · cases hs
        · cases hs
          exact h
  | free pages pageCnt =>
    obtain ⟨hofs, hheld⟩ := hc
    by_cases hnone : pages = 0 ∨ pageCnt = 0
    · replace hs : m.pallocFreeMultiple pages pageCnt = .ok m' := hs
      rw [pallocFreeMultiple, check_bind hofs, if_pos hnone] at hs
      cases hs
      exact h
    · obtain ⟨hpages, hcnt⟩ := not_or.mp hnone
      have hpage : pages = pgNo pages * pgSize :=
        (Nat.div_mul_cancel (Nat.dvd_of_mod_eq_zero hofs)).symm
      obtain ⟨m₁, hfree, hfreed⟩ := h.free_spec hcnt (hheld hpages)
      rw [← hpage] at hfree
      cases hfree.symm.trans hs
      exact hfreed.inv

variable {initRamPages userPageLimit : UInt32} {words : Nat → Nat → UInt32} {bytes : Nat → UInt8}
  {start : Pages}

theorem reachable_inv (hlow : 256 ≤ initRamPages.toNat) (hhigh : initRamPages.toNat ≤ 2 ^ 18)
    (hstart : pallocInit initRamPages userPageLimit words bytes = .ok start)
    (hr : Reachable step Admits start m) : m.Inv :=
  @Reachable.invariant _ _ _ step Admits start Inv (pallocInit_spec hlow hhigh hstart).1
    (fun _ _ _ _ h hc hs => h.step hc hs) m hr

/-- In every run, a call of `palloc_get_multiple` hands out the first run of free pages of its pool
if there is one, and a call of `palloc_free_multiple` takes back pages that have been handed out. -/
theorem palloc_exact (hlow : 256 ≤ initRamPages.toNat) (hhigh : initRamPages.toNat ≤ 2 ^ 18)
    (hstart : pallocInit initRamPages userPageLimit words bytes = .ok start)
    (hr : Reachable step Admits start m) :
    (∀ q, ¬ start.Held q) ∧
    (∀ flags cnt, cnt ≠ 0 →
      (∃ page m', page ≠ 0 ∧ m.pallocGetMultiple flags cnt = .ok (page * pgSize, m') ∧
        Granted m m' flags page cnt) ∨
      (∀ page, ¬ m.FreeRun flags.user page cnt) ∧
        m.pallocGetMultiple flags cnt = if flags.assert then .error .outOfPages else .ok (0, m)) ∧
    ∀ page cnt, cnt ≠ 0 → m.HeldRun page cnt →
      ∃ m', m.pallocFreeMultiple (page * pgSize) cnt = .ok m' ∧ Freed m m' page cnt := by
  have hinv := reachable_inv hlow hhigh hstart hr
  exact ⟨(pallocInit_spec hlow hhigh hstart).2, fun flags cnt hcnt => hinv.get_spec hcnt flags,
    fun page cnt hcnt hheld => hinv.free_spec hcnt hheld⟩

/-- With one page in each pool, the page of the user pool is handed out and freed. -/
theorem palloc_exact_onePage : ∃ start m,
    pallocInit 260 2 (fun _ _ => 0) (fun _ => 0) = .ok start ∧
    start.pallocGetMultiple ⟨false, true, true⟩ 1 = .ok (0xc0103 * pgSize, m) ∧
    Granted start m ⟨false, true, true⟩ 0xc0103 1 ∧
    ∃ m', m.pallocFreeMultiple (0xc0103 * pgSize) 1 = .ok m' ∧ Freed m m' 0xc0103 1 := by
  have hrun : (do
      let start ← pallocInit 260 2 (fun _ _ => 0) (fun _ => 0)
      let r ← start.pallocGetMultiple ⟨false, true, true⟩ 1
      pure r.1 : Except Panic Nat).toOption = some (0xc0103 * pgSize) := by
    decide +kernel
  obtain ⟨start, hstart⟩ : ∃ start, pallocInit 260 2 (fun _ _ => 0) (fun _ => 0) = .ok start := by
    cases h : pallocInit 260 2 (fun _ _ => 0) (fun _ => 0) with
    | error e =>
      rw [h] at hrun
      cases hrun
    | ok start => exact ⟨start, rfl⟩
  have hexact := palloc_exact (by decide) (by decide) hstart .start
  rw [hstart, ok_bind] at hrun
  rcases hexact.2.1 ⟨false, true, true⟩ 1 Nat.one_ne_zero with ⟨page, m, -, hget, hgranted⟩ | ⟨-, hget⟩
  · rw [hget] at hrun
    obtain rfl : page = 0xc0103 := Nat.eq_of_mul_eq_mul_right (by decide) (Option.some.inj hrun)
    have hadmits : start.Admits (.get ⟨false, true, true⟩ 1) := show 1 < 2 ^ 32 by decide
    have hr : Reachable step Admits start m := .step .start hadmits (by rw [Pages.step, hget]; rfl)
    have hheld : m.HeldRun 0xc0103 1 := fun q hle hlt => (hgranted.held q).mpr (.inl ⟨hle, hlt⟩)
    exact ⟨start, m, hstart, hget, hgranted,
      (palloc_exact (by decide) (by decide) hstart hr).2.2 0xc0103 1 Nat.one_ne_zero hheld⟩
  · rw [hget] at hrun
    cases hrun

end Pages

end CSE130.Palloc
