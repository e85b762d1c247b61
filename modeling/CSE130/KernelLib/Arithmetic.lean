import CSE130.Library.Quotient
import Mathlib.Tactic.IntervalCases
import Mathlib.Tactic.NormNum

/-!
# 64-bit division

Rendering of `lib/arithmetic.c` of Lab 3: the functions that the compiler calls for the division of
64-bit integers, which have only the instruction DIVL to divide with. A division that traps has no
result.
-/

namespace CSE130.KernelLib

open CSE130.Library

/-- `divl` (`arithmetic.c:25-37`); the quotient has to fit in 32 bits. -/
def divl (n : UInt64) (d : UInt32) : Option UInt32 :=
  if d = 0 ∨ 2 ^ 32 ≤ n.toNat / d.toNat then none else some (UInt32.ofNat (n.toNat / d.toNat))

/-- One of the tests of `nlz`: `x` and `n` afterwards. -/
def nlzStep (bound : UInt32) (bits : Nat) (p : UInt32 × Nat) : UInt32 × Nat :=
  if p.1 ≤ bound then (p.1 <<< UInt32.ofNat bits, p.2 + bits) else p

/-- The tests of `nlz` that shift. -/
def nlzShifts (x : UInt32) : UInt32 × Nat :=
  nlzStep 0x3FFFFFFF 2 (nlzStep 0x0FFFFFFF 4 (nlzStep 0x00FFFFFF 8 (nlzStep 0x0000FFFF 16 (x, 0))))

/-- `nlz` (`arithmetic.c:41-73`). -/
def nlz (x : UInt32) : Nat :=
  if (nlzShifts x).1 ≤ 0x7FFFFFFF then (nlzShifts x).2 + 1 else (nlzShifts x).2

/-- The branch of `udiv64` for a divisor of 32 bits. -/
def udivShort (n : UInt64) (d0 : UInt32) : Option UInt64 := do
  let b := (1 : UInt64) <<< 32
  let n1 := (n >>> 32).toUInt32
  let n0 := n.toUInt32
  -- the remainder traps as well
  if d0 = 0 then none
  else
    let q ← divl (b * (n1 % d0).toUInt64 + n0.toUInt64) d0
    pure (q.toUInt64 + b * (n1 / d0).toUInt64)

/-- The branch of `udiv64` for a longer divisor that is not greater than `n`. -/
def udivLong (n d : UInt64) : Option UInt64 := do
  let d1 := (d >>> 32).toUInt32
  let s := nlz d1
  let q ← divl (n >>> 1) ((d <<< UInt64.ofNat s) >>> 32).toUInt32
  let q := (q >>> UInt32.ofNat (31 - s)).toUInt64
  pure (if n - (q - 1) * d < d then q - 1 else q)

/-- `udiv64` (`arithmetic.c:77-127`). -/
def udiv64 (n d : UInt64) : Option UInt64 :=
  if d >>> 32 = 0 then udivShort n d.toUInt32
  else if n < d then some 0
  else udivLong n d

/-- `umod64` (`arithmetic.c:131-135`), which returns 32 bits. -/
def umod64 (n d : UInt64) : Option UInt32 := do
  let q ← udiv64 n d
  pure (n - d * q).toUInt32

/-- The absolute value of a signed integer, as it is taken in `sdiv64`. -/
def abs64 (n : Int64) : UInt64 := if 0 ≤ n then n.toUInt64 else -n.toUInt64

/-- `sdiv64` (`arithmetic.c:139-146`). -/
def sdiv64 (n d : Int64) : Option Int64 := do
  let q ← udiv64 (abs64 n) (abs64 d)
  pure (if (n < 0) = (d < 0) then q.toInt64 else -q.toInt64)

/-- `smod64` (`arithmetic.c:150-154`), which returns 32 bits. -/
def smod64 (n d : Int64) : Option Int32 := do
  let q ← sdiv64 n d
  pure (n - d * q).toInt32

/-- `__divdi3` (`arithmetic.c:164-168`). -/
def divdi3 (n d : Int64) : Option Int64 := sdiv64 n d

/-- `__moddi3` (`arithmetic.c:171-175`). -/
def moddi3 (n d : Int64) : Option Int64 := (smod64 n d).map Int32.toInt64

/-- `__udivdi3` (`arithmetic.c:178-182`). -/
def udivdi3 (n d : UInt64) : Option UInt64 := udiv64 n d

/-- `__umoddi3` (`arithmetic.c:185-189`). -/
def umoddi3 (n d : UInt64) : Option UInt64 := (umod64 n d).map UInt32.toUInt64

variable {n d : UInt64} {x : UInt32} {s : Nat}

/-! ## Leading zeros -/

/-- `p` is `x` shifted, and at least `2 ^ low`. -/
def Shifted (x : UInt32) (low : Nat) (p : UInt32 × Nat) : Prop :=
  p.1.toNat = x.toNat * 2 ^ p.2 ∧ 2 ^ low ≤ p.1.toNat

theorem nlzStep_shifted {bound : UInt32} {bits low : Nat} {p : UInt32 × Nat} (hbits : bits < 32)
    (hbound : bound.toNat + 1 = 2 ^ (32 - bits)) (hp : Shifted x low p)
    (hlow : low + bits ≤ 32 - bits) : Shifted x (low + bits) (nlzStep bound bits p) := by
  obtain ⟨hx, hle⟩ := hp
  unfold nlzStep
  split_ifs with hshort
  · rw [UInt32.le_iff_toNat_le] at hshort
    have hsmall : p.1.toNat * 2 ^ bits < 2 ^ 32 := by
      calc p.1.toNat * 2 ^ bits < 2 ^ (32 - bits) * 2 ^ bits :=
            Nat.mul_lt_mul_of_pos_right (by omega) (Nat.two_pow_pos bits)
        _ = 2 ^ 32 := by rw [← Nat.pow_add, Nat.sub_add_cancel hbits.le]
    have hshift : (p.1 <<< UInt32.ofNat bits).toNat = p.1.toNat * 2 ^ bits := by
      rw [UInt32.toNat_shiftLeft, UInt32.toNat_ofNat_of_lt' (hbits.trans (by decide)),
        Nat.mod_eq_of_lt hbits, Nat.shiftLeft_eq, Nat.mod_eq_of_lt hsmall]
    refine ⟨?_, ?_⟩
    · rw [hshift, hx, Nat.pow_add, Nat.mul_assoc]
    · rw [hshift, Nat.pow_add]
      exact Nat.mul_le_mul_right _ hle
  · rw [UInt32.le_iff_toNat_le, Nat.not_le] at hshort
    refine ⟨hx, ?_⟩
    calc 2 ^ (low + bits) ≤ 2 ^ (32 - bits) := Nat.pow_le_pow_right (by decide) hlow
      _ = bound.toNat + 1 := hbound.symm
      _ ≤ p.1.toNat := hshort

theorem nlzShifts_shifted (hx : x ≠ 0) : Shifted x 30 (nlzShifts x) := by
  have hpos : 0 < x.toNat := Nat.pos_of_ne_zero fun h => hx (UInt32.toNat_inj.mp h)
  have h0 : Shifted x 0 (x, 0) := ⟨(Nat.mul_one _).symm, hpos⟩
  have h16 := @nlzStep_shifted x 0x0000FFFF 16 0 _ (by decide) rfl h0 (by decide)
  have h24 := @nlzStep_shifted x 0x00FFFFFF 8 16 _ (by decide) rfl h16 (by decide)
  have h28 := @nlzStep_shifted x 0x0FFFFFFF 4 24 _ (by decide) rfl h24 (by decide)
  exact @nlzStep_shifted x 0x3FFFFFFF 2 28 _ (by decide) rfl h28 (by decide)

theorem nlz_spec (hx : x ≠ 0) : 2 ^ 31 ≤ x.toNat * 2 ^ nlz x ∧ x.toNat * 2 ^ nlz x < 2 ^ 32 := by
  obtain ⟨heq, hle⟩ := nlzShifts_shifted hx
  have hlt := (nlzShifts x).1.toNat_lt
  have hbound : (0x7FFFFFFF : UInt32).toNat = 2 ^ 31 - 1 := rfl
  unfold nlz
  split_ifs with hshort
  · rw [UInt32.le_iff_toNat_le] at hshort
    have hdouble : x.toNat * 2 ^ ((nlzShifts x).2 + 1) = (nlzShifts x).1.toNat * 2 := by
      rw [Nat.pow_succ, ← Nat.mul_assoc, ← heq]
    omega
  · rw [UInt32.le_iff_toNat_le, Nat.not_le] at hshort
    rw [← heq]
    omega

theorem nlz_lt (hx : x ≠ 0) : nlz x < 32 := by
  have hpos : 0 < x.toNat := Nat.pos_of_ne_zero fun h => hx (UInt32.toNat_inj.mp h)
  have hlt : 1 * 2 ^ nlz x < 2 ^ 32 := (Nat.mul_le_mul_right _ hpos).trans_lt (nlz_spec hx).2
  rw [Nat.one_mul] at hlt
  exact (Nat.pow_lt_pow_iff_right (by decide)).mp hlt

/-! ## Unsigned division -/

theorem divl_eq_some {d : UInt32} (hd : d ≠ 0) (hq : n.toNat / d.toNat < 2 ^ 32) :
    ∃ q, divl n d = some q ∧ q.toNat = n.toNat / d.toNat := by
  refine ⟨UInt32.ofNat (n.toNat / d.toNat), ?_, UInt32.toNat_ofNat_of_lt' hq⟩
  rw [divl, if_neg (by simpa [hd] using hq)]

/-- The upper half of a number. -/
theorem toNat_high (n : UInt64) : (n >>> 32).toNat = n.toNat / 2 ^ 32 := by
  rw [UInt64.toNat_shiftRight, Nat.shiftRight_eq_div_pow]
  rfl

theorem toNat_high32 (n : UInt64) : (n >>> 32).toUInt32.toNat = n.toNat / 2 ^ 32 := by
  have hlt := n.toNat_lt
  rw [UInt64.toNat_toUInt32, toNat_high, Nat.mod_eq_of_lt (by omega)]

/-- Long division by a single digit: the quotient of the upper digit, and that of what remains of it
together with the lower digit. -/
theorem div_two_digits (n b d : Nat) (hd : 0 < d) :
    n / d = (b * (n / b % d) + n % b) / d + b * (n / b / d) := by
  have hsplit : n = b * (n / b % d) + n % b + b * (n / b / d) * d := by
    calc n = b * (n / b) + n % b := (Nat.div_add_mod n b).symm
      _ = b * (n / b / d * d + n / b % d) + n % b := by rw [Nat.div_add_mod']
      _ = b * (n / b % d) + n % b + b * (n / b / d) * d := by ring
  conv_lhs => rw [hsplit]
  rw [Nat.add_mul_div_right _ _ hd]

theorem udivShort_eq {d0 : UInt32} (hd : d0 ≠ 0) : udivShort n d0 = some (n / d0.toUInt64) := by
  have hdpos : 0 < d0.toNat := Nat.pos_of_ne_zero fun h => hd (UInt32.toNat_inj.mp h)
  have hdlt := d0.toNat_lt
  have hnlt := n.toNat_lt
  have hn1 : n.toNat / 2 ^ 32 % d0.toNat < d0.toNat := Nat.mod_lt _ hdpos
  have hn0 : n.toNat % 2 ^ 32 < 2 ^ 32 := Nat.mod_lt _ (by decide)
  have hb : ((1 : UInt64) <<< 32).toNat = 2 ^ 32 := rfl
  have harg : ((1 : UInt64) <<< 32 * ((n >>> 32).toUInt32 % d0).toUInt64 + n.toUInt32.toUInt64).toNat =
      2 ^ 32 * (n.toNat / 2 ^ 32 % d0.toNat) + n.toNat % 2 ^ 32 := by
    rw [UInt64.toNat_add, UInt64.toNat_mul, hb, UInt32.toNat_toUInt64, UInt32.toNat_mod, toNat_high32,
      UInt32.toNat_toUInt64, UInt64.toNat_toUInt32]
    omega
  have hfits : (2 ^ 32 * (n.toNat / 2 ^ 32 % d0.toNat) + n.toNat % 2 ^ 32) / d0.toNat < 2 ^ 32 := by
    apply Nat.div_lt_of_lt_mul
    have hle : 2 ^ 32 * (n.toNat / 2 ^ 32 % d0.toNat + 1) ≤ 2 ^ 32 * d0.toNat :=
      Nat.mul_le_mul_left _ hn1
    rw [Nat.mul_comm d0.toNat]
    omega
  obtain ⟨q, hdivl, hq⟩ := divl_eq_some hd (by rwa [harg])
  have hwhole := div_two_digits n.toNat (2 ^ 32) d0.toNat hdpos
  have hle : n.toNat / d0.toNat ≤ n.toNat := Nat.div_le_self _ _
  rw [udivShort]
  simp only [if_neg hd, hdivl, Option.bind_eq_bind, Option.bind_some, Option.pure_def, Option.some.injEq]
  apply UInt64.toNat_inj.mp
  rw [UInt64.toNat_div, UInt64.toNat_add, UInt64.toNat_mul, hb, UInt32.toNat_toUInt64,
    UInt32.toNat_toUInt64, UInt32.toNat_toUInt64, UInt32.toNat_div, toNat_high32, hq, harg]
  -- only the sum matters from here on
  generalize (2 ^ 32 * (n.toNat / 2 ^ 32 % d0.toNat) + n.toNat % 2 ^ 32) / d0.toNat = low at hwhole ⊢
  generalize n.toNat / 2 ^ 32 / d0.toNat = high at hwhole ⊢
  generalize n.toNat / d0.toNat = whole at hwhole hle ⊢
  omega

/-- The divisor of the estimate, and how far `nlz` moves it. -/
theorem shifted_divisor (hs : s = nlz (d >>> 32).toUInt32) (hd : 2 ^ 32 ≤ d.toNat) :
    s < 32 ∧ 2 ^ 63 ≤ d.toNat * 2 ^ s ∧ d.toNat * 2 ^ s < 2 ^ 64 ∧
      ((d <<< UInt64.ofNat s) >>> 32).toUInt32.toNat = d.toNat / 2 ^ (32 - s) := by
  have hdlt := d.toNat_lt
  have hne : (d >>> 32).toUInt32 ≠ 0 := by
    intro heq
    have hzero := congrArg UInt32.toNat heq
    rw [toNat_high32, show (0 : UInt32).toNat = 0 from rfl] at hzero
    omega
  have hlt := nlz_lt hne
  obtain ⟨hlow, hhigh⟩ := nlz_spec hne
  rw [← hs] at hlt hlow hhigh
  rw [toNat_high32] at hlow hhigh
  have hpos : 0 < 2 ^ s := Nat.two_pow_pos s
  have hle : d.toNat / 2 ^ 32 * 2 ^ 32 * 2 ^ s ≤ d.toNat * 2 ^ s :=
    Nat.mul_le_mul_right _ (Nat.div_mul_le_self _ _)
  have hge : d.toNat * 2 ^ s < (d.toNat / 2 ^ 32 + 1) * 2 ^ 32 * 2 ^ s :=
    Nat.mul_lt_mul_of_pos_right (by omega) hpos
  have hpow : 2 ^ s ≤ 2 ^ 31 := Nat.pow_le_pow_right (by decide) (by omega)
  have hlow' : 2 ^ 63 ≤ d.toNat * 2 ^ s := by
    refine le_trans ?_ hle
    rw [Nat.mul_right_comm]
    omega
  have hhigh' : d.toNat * 2 ^ s < 2 ^ 64 := by
    have hhead : (d.toNat / 2 ^ 32 + 1) * 2 ^ s ≤ 2 ^ 32 := by
      have hfree : 2 ^ 32 = 2 ^ (32 - s) * 2 ^ s := by rw [← Nat.pow_add, Nat.sub_add_cancel hlt.le]
      rw [hfree] at hhigh ⊢
      exact Nat.mul_le_mul_right _ (Nat.lt_of_mul_lt_mul_right hhigh)
    refine hge.trans_le ?_
    rw [Nat.mul_right_comm]
    exact Nat.mul_le_mul_right _ hhead
  refine ⟨hlt, hlow', hhigh', ?_⟩
  have hsplit : 2 ^ (32 - s) * 2 ^ s = 2 ^ 32 := by rw [← Nat.pow_add, Nat.sub_add_cancel hlt.le]
  have hs64 : (UInt64.ofNat s).toNat = s := UInt64.toNat_ofNat_of_lt' (hlt.trans (by decide))
  have hshift : (d <<< UInt64.ofNat s).toNat = d.toNat * 2 ^ s := by
    rw [UInt64.toNat_shiftLeft, hs64, Nat.mod_eq_of_lt (hlt.trans (by decide)), Nat.shiftLeft_eq,
      Nat.mod_eq_of_lt hhigh']
  rw [toNat_high32, hshift, ← hsplit, Nat.mul_div_mul_right _ _ hpos]

/-- The digits that are cut from the divisor weigh little enough. -/
theorem cut_weight {n d s : Nat} (hs : s < 32) (hlow : 2 ^ 63 ≤ d * 2 ^ s) (hn : n < 2 ^ 64) :
    2 ^ 31 ≤ d / 2 ^ (32 - s) ∧
      (n / d + 1) * (d % 2 ^ (32 - s)) ≤ d / 2 ^ (32 - s) * 2 ^ (32 - s) := by
  have hpos : 0 < 2 ^ s := Nat.two_pow_pos s
  have hw : 0 < 2 ^ (32 - s) := Nat.two_pow_pos _
  have hsplit : 2 ^ (32 - s) * 2 ^ s = 2 ^ 32 := by rw [← Nat.pow_add, Nat.sub_add_cancel hs.le]
  have hhigh : 2 ^ 31 ≤ d / 2 ^ (32 - s) := by
    rw [Nat.le_div_iff_mul_le hw]
    apply Nat.le_of_mul_le_mul_right (c := 2 ^ s) _ hpos
    rwa [Nat.mul_assoc, hsplit]
  refine ⟨hhigh, ?_⟩
  have hquot : n / d < 2 ^ (s + 1) := by
    apply Nat.div_lt_of_lt_mul
    rw [Nat.pow_succ, ← Nat.mul_assoc]
    omega
  have hmod : d % 2 ^ (32 - s) < 2 ^ (32 - s) := Nat.mod_lt _ hw
  calc (n / d + 1) * (d % 2 ^ (32 - s)) ≤ 2 ^ (s + 1) * (2 ^ (32 - s) - 1) :=
        Nat.mul_le_mul hquot (Nat.le_sub_one_of_lt hmod)
    _ ≤ 2 ^ 31 * 2 ^ (32 - s) := by
        rcases Nat.lt_or_ge s 31 with hshort | hlong
        · have hfour : 2 ^ 2 ≤ 2 ^ (32 - s) := Nat.pow_le_pow_right (by decide) (by omega)
          have hone : 2 ^ (s + 1) * 2 ^ (32 - s) = 2 ^ 33 := by
            rw [← Nat.pow_add, show s + 1 + (32 - s) = 33 by omega]
          rw [Nat.mul_sub, hone]
          omega
        · obtain rfl : s = 31 := by omega
          decide
    _ ≤ d / 2 ^ (32 - s) * 2 ^ (32 - s) := Nat.mul_le_mul_right _ hhigh

theorem udivLong_eq (hd : 2 ^ 32 ≤ d.toNat) (hn : d ≤ n) : udivLong n d = some (n / d) := by
  obtain ⟨hs, hlow, -, hdivisor⟩ := shifted_divisor rfl hd
  have hnlt := n.toNat_lt
  have hle : d.toNat ≤ n.toNat := UInt64.le_iff_toNat_le.mp hn
  generalize hsd : nlz (d >>> 32).toUInt32 = s at hs hlow hdivisor
  obtain ⟨hbig, hcut⟩ := cut_weight hs hlow hnlt
  have hhalf : (n >>> 1).toNat = n.toNat / 2 := by
    rw [UInt64.toNat_shiftRight, Nat.shiftRight_eq_div_pow]
    rfl
  have hvne : ((d <<< UInt64.ofNat s) >>> 32).toUInt32 ≠ 0 := by
    intro heq
    rw [heq, show (0 : UInt32).toNat = 0 from rfl] at hdivisor
    omega
  obtain ⟨q, hdivl, hq⟩ := @divl_eq_some (n >>> 1) _ hvne (by
    rw [hhalf, hdivisor]
    exact Nat.div_lt_of_lt_mul (by omega))
  -- the quotient by the divisor that `nlz` and the shifts have cut
  have hestimate : (q >>> UInt32.ofNat (31 - s)).toUInt64.toNat =
      n.toNat / (d.toNat / 2 ^ (32 - s) * 2 ^ (32 - s)) := by
    have hamount : (UInt32.ofNat (31 - s)).toNat % 32 = 31 - s := by
      rw [UInt32.toNat_ofNat_of_lt' (lt_of_le_of_lt (Nat.sub_le 31 s) (by decide)),
        Nat.mod_eq_of_lt (by omega)]
    have hpow : 2 * 2 ^ (31 - s) = 2 ^ (32 - s) := by
      rw [← Nat.pow_succ', Nat.succ_eq_add_one, show 31 - s + 1 = 32 - s by omega]
    rw [UInt32.toNat_toUInt64, UInt32.toNat_shiftRight, hamount, Nat.shiftRight_eq_div_pow, hq, hhalf,
      hdivisor, Nat.div_div_eq_div_mul, Nat.div_div_eq_div_mul, ← hpow, Nat.mul_left_comm 2]
  have hqle := div_le_div_cut (n := n.toNat) (by omega : 0 < d.toNat / 2 ^ (32 - s))
  have hqge := div_cut_le (by omega : 0 < d.toNat / 2 ^ (32 - s)) hcut
  rw [← hestimate] at hqle hqge
  have hright := correct_estimate (by omega) hle hqle hqge
  simp only [udivLong, hsd, hdivl, Option.bind_eq_bind, Option.bind_some, Option.pure_def,
    Option.some.injEq]
  generalize (q >>> UInt32.ofNat (31 - s)).toUInt64 = q' at hqle hqge hright ⊢
  have hpos : 0 < n.toNat / d.toNat := Nat.div_pos hle (by omega)
  have hprev : (q' - 1).toNat = q'.toNat - 1 := UInt64.toNat_sub_of_le _ _ (by
    rw [UInt64.le_iff_toNat_le]
    exact hpos.trans_le hqle)
  have hprod : (q'.toNat - 1) * d.toNat ≤ n.toNat :=
    (Nat.mul_le_mul_right _ (by omega)).trans (Nat.div_mul_le_self n.toNat d.toNat)
  have hmul : ((q' - 1) * d).toNat = (q'.toNat - 1) * d.toNat := by
    rw [UInt64.toNat_mul, hprev, Nat.mod_eq_of_lt (hprod.trans_lt hnlt)]
  have hrest : (n - (q' - 1) * d).toNat = n.toNat - (q'.toNat - 1) * d.toNat := by
    rw [UInt64.toNat_sub_of_le _ _ (by rwa [UInt64.le_iff_toNat_le, hmul]), hmul]
  apply UInt64.toNat_inj.mp
  simp only [apply_ite UInt64.toNat, UInt64.lt_iff_toNat_lt, hrest, hprev, UInt64.toNat_div]
  exact hright

/-- `udiv64` divides, and traps for the divisor 0 only. -/
theorem udiv64_eq (n d : UInt64) : udiv64 n d = if d = 0 then none else some (n / d) := by
  have hdlt := d.toNat_lt
  have hhigh : d >>> 32 = 0 ↔ d.toNat < 2 ^ 32 := by
    rw [← UInt64.toNat_inj, toNat_high, show (0 : UInt64).toNat = 0 from rfl]
    omega
  by_cases hd : d = 0
  · subst hd
    rfl
  rw [if_neg hd, udiv64]
  split_ifs with hshort hlt
  · rw [hhigh] at hshort
    have hcut : d.toUInt32.toUInt64 = d := by
      apply UInt64.toNat_inj.mp
      rw [UInt32.toNat_toUInt64, UInt64.toNat_toUInt32, Nat.mod_eq_of_lt hshort]
    rw [udivShort_eq, hcut]
    intro hcast
    rw [hcast] at hcut
    exact hd hcut.symm
  · congr 1
    apply UInt64.toNat_inj.mp
    rw [UInt64.toNat_div, Nat.div_eq_of_lt (UInt64.lt_iff_toNat_lt.mp hlt)]
    rfl
  · rw [hhigh, Nat.not_lt] at hshort
    exact udivLong_eq hshort (UInt64.not_lt.mp hlt)

/-! ## Signed division -/

theorem abs64_toBitVec (n : Int64) :
    (abs64 n).toBitVec = if n.toBitVec.msb then -n.toBitVec else n.toBitVec := by
  have hsign : 0 ≤ n ↔ ¬ n.toBitVec.msb = true := by
    rw [Int64.le_iff_toInt_le, BitVec.msb_eq_toInt]
    simp
  rw [abs64]
  by_cases h : n.toBitVec.msb = true
  · rw [if_pos h, if_neg (by rw [hsign]; simpa using h)]
    rfl
  · rw [if_neg h, if_pos (hsign.mpr h)]
    rfl

theorem abs64_eq_zero {n : Int64} : abs64 n = 0 ↔ n = 0 := by
  rw [← UInt64.toBitVec_inj, abs64_toBitVec, ← Int64.toBitVec_inj]
  split_ifs
  · exact BitVec.neg_eq_zero_iff
  · exact Iff.rfl

/-- `sdiv64` divides and rounds towards zero, and traps for the divisor 0 only. -/
theorem sdiv64_eq (n d : Int64) : sdiv64 n d = if d = 0 then none else some (n / d) := by
  rw [sdiv64, udiv64_eq]
  by_cases hd : d = 0
  · rw [if_pos (abs64_eq_zero.mpr hd), if_pos hd]
    rfl
  · rw [if_neg (mt abs64_eq_zero.mp hd), if_neg hd]
    simp only [Option.bind_eq_bind, Option.bind_some, Option.pure_def, Option.some.injEq]
    have hn0 : n < 0 ↔ n.toBitVec.msb = true := by
      rw [Int64.lt_iff_toInt_lt, BitVec.msb_eq_toInt]
      simp
    have hd0 : d < 0 ↔ d.toBitVec.msb = true := by
      rw [Int64.lt_iff_toInt_lt, BitVec.msb_eq_toInt]
      simp
    have hquot : (abs64 n / abs64 d).toInt64.toBitVec = (abs64 n).toBitVec / (abs64 d).toBitVec := rfl
    apply Int64.toBitVec_inj.mp
    rw [Int64.toBitVec_div, BitVec.sdiv_eq, apply_ite Int64.toBitVec, Int64.toBitVec_neg, hquot,
      abs64_toBitVec, abs64_toBitVec]
    simp only [eq_iff_iff, hn0, hd0]
    cases n.toBitVec.msb <;> cases d.toBitVec.msb <;> simp [BitVec.udiv_eq]

/-! ## The functions that the compiler calls -/

/-- The division functions divide, and trap for the divisor 0 only. -/
theorem division_exact : (∀ n d : UInt64, udivdi3 n d = if d = 0 then none else some (n / d)) ∧
    ∀ n d : Int64, divdi3 n d = if d = 0 then none else some (n / d) :=
  ⟨udiv64_eq, sdiv64_eq⟩

theorem umod64_eq (n d : UInt64) : umod64 n d = if d = 0 then none else some (n % d).toUInt32 := by
  rw [umod64, udiv64_eq]
  split_ifs with hd
  · rfl
  · have hrest : n - d * (n / d) = n % d := by
      apply UInt64.toNat_inj.mp
      have hle : d.toNat * (n.toNat / d.toNat) ≤ n.toNat := Nat.mul_div_le _ _
      have hmul : (d * (n / d)).toNat = d.toNat * (n.toNat / d.toNat) := by
        rw [UInt64.toNat_mul, UInt64.toNat_div, Nat.mod_eq_of_lt (hle.trans_lt n.toNat_lt)]
      rw [UInt64.toNat_sub_of_le _ _ (by rwa [UInt64.le_iff_toNat_le, hmul]), hmul, UInt64.toNat_mod,
        Nat.mod_eq_sub_mul_div]
    simp only [Option.bind_eq_bind, Option.bind_some, Option.pure_def, hrest]

theorem smod64_eq (n d : Int64) : smod64 n d = if d = 0 then none else some (n % d).toInt32 := by
  rw [smod64, sdiv64_eq]
  split_ifs with hd
  · rfl
  · have hrest : n - d * (n / d) = n % d := by
      apply Int64.toInt_inj.mp
      have hself : (n % d).toInt.bmod (2 ^ 64) = (n % d).toInt := Int64.toInt_bmod _
      rw [Int64.toInt_sub, Int64.toInt_mul, Int64.toInt_div, Int.mul_bmod_bmod, Int.sub_bmod_bmod,
        ← hself, Int64.toInt_mod, Int.tmod_def]
    simp only [Option.bind_eq_bind, Option.bind_some, Option.pure_def, hrest]

/-- The remainder functions return the remainder if it fits in 32 bits, and otherwise cut it. -/
theorem remainder_exact_iff :
    (∀ n d : UInt64, umoddi3 n d = some (n % d) ↔ d ≠ 0 ∧ (n % d).toNat < 2 ^ 32) ∧
    ∀ n d : Int64, moddi3 n d = some (n % d) ↔
      d ≠ 0 ∧ -2 ^ 31 ≤ (n % d).toInt ∧ (n % d).toInt < 2 ^ 31 := by
  constructor
  · intro n d
    rw [umoddi3, umod64_eq]
    split_ifs with hd
    · simp [hd]
    · rw [Option.map_some, Option.some.injEq, ← UInt64.toNat_inj, UInt32.toNat_toUInt64,
        UInt64.toNat_toUInt32]
      simp only [ne_eq, hd, not_false_eq_true, true_and]
      omega
  · intro n d
    rw [moddi3, smod64_eq]
    split_ifs with hd
    · simp [hd]
    · rw [Option.map_some, Option.some.injEq, ← Int64.toInt_inj, Int32.toInt_toInt64,
        Int64.toInt_toInt32]
      simp only [ne_eq, hd, not_false_eq_true, true_and]
      rw [Int.bmod_def]
      omega

end CSE130.KernelLib
