import Mathlib.Algebra.Order.Ring.Abs
import Mathlib.Data.Nat.Log
import Mathlib.Data.Rat.Floor
import Mathlib.Tactic.Linarith
import Mathlib.Tactic.Positivity
import Mathlib.Tactic.Ring

/-!
# Doubles

The value of a double is a rational, and an operation rounds its exact result to the
nearest one, to the even one of two.  The exponents are not bounded here, so nothing
overflows and nothing is subnormal.  A rounding moves a number by at most its
`2 ^ 52`nd part (`abs_toDouble_sub_le`), and the integers that it leaves alone are those of
at most 53 bits and zeros behind them (`isDouble_iff`).
-/

namespace Doubles

/-- Round half to even. -/
def roundEven (q : ℚ) : ℤ :=
  let low := ⌊q⌋
  if q - low < 1 / 2 then low
  else if q - low > 1 / 2 then low + 1
  else if low % 2 = 0 then low else low + 1

/-- The double nearest to a number whose denominator is a power of two, as that of a sum
or a product of doubles is.  Of other numbers it takes `1 / 10` alone, which is the next
example. -/
def toDouble (q : ℚ) : ℚ :=
  let exponent : ℤ := Nat.log2 q.num.natAbs - Nat.log2 q.den - 52
  roundEven (q / 2 ^ exponent) * 2 ^ exponent

example : toDouble (1 / 10) = 3602879701896397 / 2 ^ 55 := by
  decide +kernel

theorem roundEven_intCast (n : ℤ) : roundEven n = n := by
  simp [roundEven]

/-- Rounding leaves integers alone, and nothing else. -/
theorem roundEven_eq_self_iff {q : ℚ} : (roundEven q : ℚ) = q ↔ ∃ n : ℤ, q = n := by
  constructor
  · intro heq
    exact ⟨_, heq.symm⟩
  · rintro ⟨n, rfl⟩
    rw [roundEven_intCast]

theorem abs_roundEven_sub_le (q : ℚ) : |(roundEven q : ℚ) - q| ≤ 1 / 2 := by
  have hlow := Int.floor_le q
  have hhigh := Int.lt_floor_add_one q
  unfold roundEven
  dsimp only
  split_ifs with hbelow habove heven
  · rw [abs_le]
    constructor <;> linarith
  · rw [abs_le]
    push_cast
    constructor <;> linarith
  · rw [abs_le]
    constructor <;> linarith
  · rw [abs_le]
    push_cast
    constructor <;> linarith

/-- The power of two at a number is less than twice the number. -/
theorem zpow_log2_le {q : ℚ} (hq : 0 < q) :
    (2 : ℚ) ^ ((Nat.log2 q.num.natAbs : ℤ) - Nat.log2 q.den) ≤ 2 * q := by
  have hnum : 0 < q.num := Rat.num_pos.mpr hq
  have hpow : ((2 : ℚ) ^ Nat.log2 q.num.natAbs) ≤ q.num := by
    have hle : 2 ^ Nat.log2 q.num.natAbs ≤ q.num.natAbs := Nat.log2_self_le (by omega)
    have hcast : ((q.num.natAbs : ℤ) : ℚ) = q.num := by
      rw [Int.natAbs_of_nonneg hnum.le]
    rw [← hcast]
    exact_mod_cast hle
  have hden : (q.den : ℚ) < 2 ^ (Nat.log2 q.den + 1) := by
    exact_mod_cast Nat.lt_log2_self
  have hpos : (0 : ℚ) < 2 ^ Nat.log2 q.den := by positivity
  calc (2 : ℚ) ^ ((Nat.log2 q.num.natAbs : ℤ) - Nat.log2 q.den)
      = 2 ^ Nat.log2 q.num.natAbs / 2 ^ Nat.log2 q.den := by
        rw [zpow_sub₀ two_ne_zero, zpow_natCast, zpow_natCast]
    _ ≤ q.num / 2 ^ Nat.log2 q.den := by gcongr
    _ = q * (q.den / 2 ^ Nat.log2 q.den) := by
        rw [mul_div_assoc', Rat.mul_den_eq_num]
    _ ≤ q * 2 := by
        refine mul_le_mul_of_nonneg_left ?_ hq.le
        rw [div_le_iff₀ hpos]
        rw [pow_succ] at hden
        linarith
    _ = 2 * q := mul_comm _ _

/-- **The error of a rounding.** -/
theorem abs_toDouble_sub_le {q : ℚ} (hq : 0 ≤ q) : |toDouble q - q| ≤ q / 2 ^ 52 := by
  rcases hq.eq_or_lt with rfl | hpos
  · simp [toDouble, roundEven]
  · have hlog := zpow_log2_le hpos
    unfold toDouble
    dsimp only
    generalize hscale : (2 : ℚ) ^ ((Nat.log2 q.num.natAbs : ℤ) - Nat.log2 q.den - 52) = scale
    have hpower : (2 : ℚ) ^ ((Nat.log2 q.num.natAbs : ℤ) - Nat.log2 q.den) = scale * 2 ^ 52 := by
      rw [← hscale, ← zpow_natCast, ← zpow_add₀ two_ne_zero]
      congr 1
      omega
    have hscalePos : 0 < scale := by
      rw [← hscale]
      exact zpow_pos two_pos _
    calc |(roundEven (q / scale) : ℚ) * scale - q|
        = |((roundEven (q / scale) : ℚ) - q / scale) * scale| := by
          rw [sub_mul, div_mul_cancel₀ q hscalePos.ne']
      _ = |(roundEven (q / scale) : ℚ) - q / scale| * scale := by
          rw [abs_mul, abs_of_pos hscalePos]
      _ ≤ 1 / 2 * scale :=
          mul_le_mul_of_nonneg_right (abs_roundEven_sub_le _) hscalePos.le
      _ ≤ q / 2 ^ 52 := by
          rw [le_div_iff₀ (by positivity)]
          rw [hpower] at hlog
          linarith

/-- A rounding moves a number by less than a thousandth. -/
theorem toDouble_mem_Icc {q : ℚ} (hq : 0 ≤ q) :
    999 / 1000 * q ≤ toDouble q ∧ toDouble q ≤ 1001 / 1000 * q := by
  obtain ⟨hlow, hhigh⟩ := abs_le.mp (abs_toDouble_sub_le hq)
  have hsmall : q / 2 ^ 52 ≤ 1 / 1000 * q := by
    rw [div_le_iff₀ (by positivity)]
    nlinarith
  constructor <;> linarith

theorem toDouble_pos {q : ℚ} (hq : 0 < q) : 0 < toDouble q := by
  have hlow := (toDouble_mem_Icc hq.le).1
  linarith

theorem toDouble_nonpos {q : ℚ} (hq : q ≤ 0) : toDouble q ≤ 0 := by
  unfold toDouble
  dsimp only
  generalize hscale : (2 : ℚ) ^ ((Nat.log2 q.num.natAbs : ℤ) - Nat.log2 q.den - 52) = scale
  have hscalePos : 0 < scale := by
    rw [← hscale]
    exact zpow_pos two_pos _
  have hquotient : q / scale ≤ 0 := div_nonpos_of_nonpos_of_nonneg hq hscalePos.le
  have hround : roundEven (q / scale) ≤ 0 := by
    have hnear := (abs_le.mp (abs_roundEven_sub_le (q / scale))).2
    have hlt : (roundEven (q / scale) : ℚ) < 1 := by linarith
    have hint : roundEven (q / scale) < 1 := by exact_mod_cast hlt
    omega
  exact mul_nonpos_of_nonpos_of_nonneg (by exact_mod_cast hround) hscalePos.le

/-! ## Integers -/

/-- The integer is a double. -/
def IsDouble (n : ℤ) : Prop :=
  ∃ (mantissa : ℤ) (exponent : ℕ), mantissa.natAbs ≤ 2 ^ 53 ∧ n = mantissa * 2 ^ exponent

/-- The place of the last bit of the double that is nearest to an integer. -/
def ulp (n : ℤ) : ℕ :=
  Nat.log2 n.natAbs - 52

theorem exists_mul_zpow_iff {n e : ℤ} :
    (∃ k : ℤ, (n : ℚ) / 2 ^ e = k) ↔ (2 : ℤ) ^ e.toNat ∣ n := by
  have hpow : (2 : ℚ) ^ e ≠ 0 := zpow_ne_zero e (by norm_num)
  rcases le_or_gt e 0 with hneg | hpos
  · obtain ⟨d, rfl⟩ := Int.eq_ofNat_of_zero_le (neg_nonneg.mpr hneg) |>.imp fun d h =>
      (neg_eq_iff_eq_neg.mp h)
    refine iff_of_true ⟨n * 2 ^ d, ?_⟩ (by simp)
    rw [zpow_neg, div_inv_eq_mul, zpow_natCast]
    push_cast
    rfl
  · lift e to ℕ using hpos.le
    rw [Int.toNat_natCast]
    constructor
    · rintro ⟨k, hk⟩
      refine ⟨k, ?_⟩
      rw [div_eq_iff hpow, zpow_natCast, mul_comm] at hk
      exact_mod_cast hk
    · rintro ⟨k, rfl⟩
      refine ⟨k, ?_⟩
      rw [div_eq_iff hpow, zpow_natCast]
      push_cast
      ring

theorem toDouble_eq_self_iff (n : ℤ) : toDouble n = n ↔ (2 : ℤ) ^ ulp n ∣ n := by
  have hpow : ∀ e : ℤ, (2 : ℚ) ^ e ≠ 0 := fun e => zpow_ne_zero e (by norm_num)
  have hulp : ((Nat.log2 n.natAbs : ℤ) - 52).toNat = ulp n := by
    unfold ulp
    omega
  rw [toDouble, Rat.num_intCast, Rat.den_intCast]
  rw [show Nat.log2 1 = 0 from rfl, Nat.cast_zero, sub_zero, ← eq_div_iff (hpow _),
    roundEven_eq_self_iff, exists_mul_zpow_iff, hulp]

theorem isDouble_iff (n : ℤ) : IsDouble n ↔ (2 : ℤ) ^ ulp n ∣ n := by
  constructor
  · rintro ⟨mantissa, exponent, hmantissa, rfl⟩
    by_cases hn : mantissa * 2 ^ exponent = 0
    · rw [hn]
      exact dvd_zero _
    -- the mantissa has at most 53 bits, or it is the next power of two
    rcases hmantissa.lt_or_eq with hlt | heq
    · have habs : (mantissa * 2 ^ exponent).natAbs < 2 ^ (exponent + 53) := by
        rw [Int.natAbs_mul, Int.natAbs_pow, pow_add, mul_comm]
        exact Nat.mul_lt_mul_of_pos_left hlt (by positivity)
      have hlog := (Nat.log2_lt (Int.natAbs_ne_zero.mpr hn)).mpr habs
      have hle : ulp (mantissa * 2 ^ exponent) ≤ exponent := by
        unfold ulp
        omega
      exact (pow_dvd_pow 2 hle).trans (dvd_mul_left _ _)
    · have hpow : (2 : ℤ) ^ (exponent + 1) ∣ mantissa * 2 ^ exponent := by
        rw [pow_succ, mul_comm]
        refine mul_dvd_mul ?_ dvd_rfl
        rw [← Int.natAbs_dvd_natAbs, heq]
        norm_num
      have hlog : ulp (mantissa * 2 ^ exponent) = exponent + 1 := by
        rw [ulp, Int.natAbs_mul, Int.natAbs_pow, heq]
        change Nat.log2 (2 ^ 53 * 2 ^ exponent) - 52 = _
        rw [← pow_add, Nat.log2_two_pow]
        omega
      rwa [hlog]
  · rintro ⟨mantissa, hmantissa⟩
    refine ⟨mantissa, ulp n, ?_, by rw [mul_comm]; exact hmantissa⟩
    by_cases hn : n = 0
    · have hzero : mantissa = 0 := by
        rw [hn] at hmantissa
        exact (mul_eq_zero.mp hmantissa.symm).resolve_left (by positivity)
      rw [hzero]
      norm_num
    have habs : n.natAbs < 2 ^ (ulp n + 53) := by
      refine (Nat.log2_lt (Int.natAbs_ne_zero.mpr hn)).mp ?_
      unfold ulp
      omega
    rw [pow_add] at habs
    nth_rewrite 1 [hmantissa] at habs
    rw [Int.natAbs_mul, Int.natAbs_pow] at habs
    exact (Nat.lt_of_mul_lt_mul_left habs).le

/-- The double nearest to an integer is an integer. -/
theorem exists_toDouble_eq (n : ℤ) : ∃ k : ℤ, toDouble n = k := by
  rcases le_or_gt (Nat.log2 n.natAbs) 52 with hle | hgt
  · refine ⟨n, (toDouble_eq_self_iff n).mpr ?_⟩
    rw [ulp, Nat.sub_eq_zero_of_le hle, pow_zero]
    exact one_dvd n
  · obtain ⟨e, he⟩ := Nat.exists_eq_add_of_lt hgt
    rw [toDouble, Rat.num_intCast, Rat.den_intCast, he]
    have hexp : ((52 + e + 1 : ℕ) : ℤ) - Nat.log2 1 - 52 = ((e + 1 : ℕ) : ℤ) := by
      rw [show Nat.log2 1 = 0 from rfl]
      push_cast
      ring
    rw [hexp, zpow_natCast]
    exact ⟨roundEven ((n : ℚ) / 2 ^ (e + 1)) * 2 ^ (e + 1), by push_cast; rfl⟩

theorem toDouble_of_natAbs_le {n : ℤ} (hn : n.natAbs ≤ 2 ^ 53) : toDouble n = n :=
  (toDouble_eq_self_iff n).mpr ((isDouble_iff n).mp ⟨n, 0, hn, by simp⟩)

theorem le_roundEven {k : ℤ} {q : ℚ} (hk : (k : ℚ) ≤ q) : k ≤ roundEven q := by
  have hfloor : k ≤ ⌊q⌋ := Int.le_floor.mpr hk
  unfold roundEven
  dsimp only
  split_ifs <;> omega

theorem le_toDouble {n : ℕ} (hn : 2 ^ 53 ≤ n) : (2 : ℚ) ^ 53 ≤ toDouble n := by
  have hlog : 53 ≤ Nat.log2 n := (Nat.le_log2 (by omega)).mpr hn
  have hself : (2 : ℚ) ^ Nat.log2 n ≤ n := by exact_mod_cast Nat.log2_self_le (by omega)
  rw [toDouble, Rat.num_natCast, Rat.den_natCast]
  rw [Int.natAbs_natCast, show Nat.log2 1 = 0 from rfl]
  obtain ⟨e, he⟩ := Nat.exists_eq_add_of_le hlog
  rw [he] at hself ⊢
  have hexp : ((53 + e : ℕ) : ℤ) - (0 : ℕ) - 52 = ((e + 1 : ℕ) : ℤ) := by push_cast; ring
  rw [hexp, zpow_natCast]
  have hround : (2 : ℤ) ^ 52 ≤ roundEven ((n : ℚ) / 2 ^ (e + 1)) := by
    refine le_roundEven ?_
    rw [le_div_iff₀ (by positivity)]
    calc ((2 ^ 52 : ℤ) : ℚ) * 2 ^ (e + 1) = 2 ^ (53 + e) := by push_cast; ring
      _ ≤ n := hself
  have hcast : ((2 : ℚ) ^ 52) ≤ roundEven ((n : ℚ) / 2 ^ (e + 1)) := by exact_mod_cast hround
  calc (2 : ℚ) ^ 53 = 2 ^ 52 * 2 ^ 1 := by norm_num
    _ ≤ (roundEven ((n : ℚ) / 2 ^ (e + 1)) : ℚ) * 2 ^ (e + 1) :=
        mul_le_mul hcast (pow_le_pow_right₀ (by norm_num) (by omega)) (by positivity)
          (le_trans (by positivity) hcast)

/-- Below `2 ^ 53` nothing else is rounded to a number. -/
theorem eq_of_toDouble_eq {m n : ℕ} (hn : n < 2 ^ 53) (heq : toDouble m = n) : m = n := by
  rcases le_or_gt (2 ^ 53) m with hle | hlt
  · have hbig := le_toDouble hle
    rw [heq] at hbig
    have hcast : 2 ^ 53 ≤ n := by exact_mod_cast hbig
    omega
  · have hself := @toDouble_of_natAbs_le m (by omega)
    rw [Int.cast_natCast, heq] at hself
    exact_mod_cast hself.symm

end Doubles
