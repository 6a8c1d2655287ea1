import Mathlib.Algebra.Order.Group.Unbundled.Int
import Mathlib.Tactic.Linarith
import Mathlib.Tactic.Ring

/-!
# Checked 64-bit arithmetic

`SafeIntAdd`, `SafeIntSub` and `SafeIntMul` of `utils/base_int.h`, at the only type
the ledger uses them with.  Each computes the wrapped result first and then looks
at the signs, or divides back, to see whether it was the true one; the result is
written only when it is.

`safeIntAdd_eq_some_iff` and `safeIntSub_eq_some_iff` say that the sign tests are
exact, `toInt_of_safeIntMul` that a product that passed the division test is the
true product.
-/

namespace CegChain

/-- `utils::SafeIntAdd`. -/
def safeIntAdd (x y : Int64) : Option Int64 :=
  let sum := x + y
  let negOver := x < 0 ∧ y < 0 ∧ sum ≥ 0
  let posOver := x ≥ 0 ∧ y ≥ 0 ∧ sum < 0
  if ¬negOver ∧ ¬posOver then some sum else none

/-- `utils::SafeIntSub`. -/
def safeIntSub (x y : Int64) : Option Int64 :=
  let dif := x - y
  let negOver := x < 0 ∧ y ≥ 0 ∧ dif ≥ 0
  let posOver := x ≥ 0 ∧ y < 0 ∧ dif ≤ 0
  if ¬negOver ∧ ¬posOver then some dif else none

/-- `utils::SafeIntMul`. -/
def safeIntMul (x y : Int64) : Option Int64 :=
  let mul := x * y
  if x = 0 ∨ mul / x = y then some mul else none

/-! ## Exactness -/

/-- Wrapping leaves a number alone, or moves it by `2 ^ 64`. -/
theorem bmod_cases {n : ℤ} (hlow : -2 ^ 64 ≤ n) (hhigh : n < 2 ^ 64) :
    n < -2 ^ 63 ∧ n.bmod (2 ^ 64) = n + 2 ^ 64 ∨
      -2 ^ 63 ≤ n ∧ n < 2 ^ 63 ∧ n.bmod (2 ^ 64) = n ∨
      2 ^ 63 ≤ n ∧ n.bmod (2 ^ 64) = n - 2 ^ 64 := by
  rw [Int.bmod_def]
  split_ifs with hlt <;> omega

theorem safeIntAdd_eq_some_iff {x y z : Int64} :
    safeIntAdd x y = some z ↔ z.toInt = x.toInt + y.toInt := by
  have hx := x.toInt_lt
  have hx' := x.le_toInt
  have hy := y.toInt_lt
  have hy' := y.le_toInt
  have hz := z.toInt_lt
  have hz' := z.le_toInt
  unfold safeIntAdd
  simp only [Int64.lt_iff_toInt_lt, Int64.le_iff_toInt_le, ge_iff_le, Int64.toInt_add,
    Int64.toInt_zero, Option.ite_none_right_eq_some, Option.some.injEq, ← Int64.toInt_inj]
  rcases bmod_cases (n := x.toInt + y.toInt) (by omega) (by omega) with h | h | h <;> omega

theorem safeIntSub_eq_some_iff {x y z : Int64} :
    safeIntSub x y = some z ↔ z.toInt = x.toInt - y.toInt := by
  have hx := x.toInt_lt
  have hx' := x.le_toInt
  have hy := y.toInt_lt
  have hy' := y.le_toInt
  have hz := z.toInt_lt
  have hz' := z.le_toInt
  unfold safeIntSub
  simp only [Int64.lt_iff_toInt_lt, Int64.le_iff_toInt_le, ge_iff_le, Int64.toInt_sub,
    Int64.toInt_zero, Option.ite_none_right_eq_some, Option.some.injEq, ← Int64.toInt_inj]
  rcases bmod_cases (n := x.toInt - y.toInt) (by omega) (by omega) with h | h | h <;> omega

/-- A sum that fits is computed. -/
theorem exists_safeIntAdd {x y : Int64} (hlow : -2 ^ 63 ≤ x.toInt + y.toInt)
    (hhigh : x.toInt + y.toInt < 2 ^ 63) :
    ∃ z, safeIntAdd x y = some z ∧ z.toInt = x.toInt + y.toInt := by
  refine ⟨Int64.ofInt (x.toInt + y.toInt), ?_⟩
  have hvalue := Int64.toInt_ofInt_of_le hlow hhigh
  exact ⟨safeIntAdd_eq_some_iff.mpr hvalue, hvalue⟩

/-- A difference that fits is computed. -/
theorem exists_safeIntSub {x y : Int64} (hlow : -2 ^ 63 ≤ x.toInt - y.toInt)
    (hhigh : x.toInt - y.toInt < 2 ^ 63) :
    ∃ z, safeIntSub x y = some z ∧ z.toInt = x.toInt - y.toInt := by
  refine ⟨Int64.ofInt (x.toInt - y.toInt), ?_⟩
  have hvalue := Int64.toInt_ofInt_of_le hlow hhigh
  exact ⟨safeIntSub_eq_some_iff.mpr hvalue, hvalue⟩

/-- The wrapped product differs from the true one by a multiple of `2 ^ 64`. -/
theorem emod_wrapped_sub (x y : Int64) : ((x * y).toInt - x.toInt * y.toInt) % 2 ^ 64 = 0 := by
  rw [Int64.toInt_mul, ← Int.emod_emod_of_dvd _ (dvd_refl _), Int.sub_emod,
    show ((2 : ℤ) ^ 64) = ((2 ^ 64 : ℕ) : ℤ) by norm_num, Int.bmod_emod, sub_self]
  simp

/-- A product that divides back to the second factor did not wrap: the remainder of the division
would be a multiple of `2 ^ 64`, and it is smaller than the first factor. -/
theorem toInt_mul_of_tdiv {x y : Int64} (hx : x.toInt ≠ 0)
    (hback : (x * y).toInt.tdiv x.toInt = y.toInt) : (x * y).toInt = x.toInt * y.toInt := by
  have hlow := x.le_toInt
  have hhigh := x.toInt_lt
  have hcongr := emod_wrapped_sub x y
  have hrem := Int.tmod_add_tdiv_mul (x * y).toInt x.toInt
  have hlt : ((x * y).toInt.tmod x.toInt).natAbs < x.toInt.natAbs := by
    rw [Int.natAbs_tmod]
    exact Nat.mod_lt _ (Int.natAbs_pos.mpr hx)
  rw [hback, mul_comm] at hrem
  omega

theorem toInt_ne_zero {x : Int64} (hx : x ≠ 0) : x.toInt ≠ 0 := by
  intro hzero
  exact hx (Int64.toInt_inj.mp (hzero.trans Int64.toInt_zero.symm))

/-- Turning the sign of any number but the smallest does not wrap. -/
theorem toInt_neg_one_mul {y : Int64} (hy : y ≠ Int64.minValue) : (-1 * y).toInt = -y.toInt := by
  have hlow := y.le_toInt
  have hhigh := y.toInt_lt
  have hne : y.toInt ≠ -2 ^ 63 := by
    intro heq
    exact hy (Int64.toInt_inj.mp (heq.trans Int64.toInt_minValue.symm))
  rw [Int64.toInt_mul, show (-1 : Int64).toInt = -1 from rfl]
  rcases @bmod_cases (-1 * y.toInt) (by omega) (by omega) with h | h | h <;> omega

theorem neg_one_mul_eq_minValue_iff {y : Int64} :
    -1 * y = Int64.minValue ↔ y = Int64.minValue := by
  constructor
  · intro hmul
    by_contra hy
    have hneg := toInt_neg_one_mul hy
    rw [hmul, Int64.toInt_minValue] at hneg
    have hhigh := y.toInt_lt
    omega
  · rintro rfl
    rfl

/-- The division test of `SafeIntMul` is exact, except at `-1` times the smallest number, where
the division itself wraps. -/
theorem safeIntMul_eq_some_iff {x y z : Int64} (hmin : ¬ (x = -1 ∧ y = Int64.minValue)) :
    safeIntMul x y = some z ↔ z.toInt = x.toInt * y.toInt := by
  unfold safeIntMul
  simp only [Option.ite_none_right_eq_some, Option.some.injEq]
  by_cases hzero : x = 0
  · subst hzero
    simp [← Int64.toInt_inj, eq_comm]
  have hx := toInt_ne_zero hzero
  by_cases hone : x = -1
  · subst hone
    have hmul : (-1 * y).toInt = (-1 : Int64).toInt * y.toInt := by
      rw [toInt_neg_one_mul fun hy => hmin ⟨rfl, hy⟩]
      exact (neg_one_mul _).symm
    constructor
    · rintro ⟨-, rfl⟩
      exact hmul
    · intro hz
      have heq : -1 * y = z := Int64.toInt_inj.mp (hmul.trans hz.symm)
      refine ⟨Or.inr ?_, heq⟩
      rw [← Int64.toInt_inj, Int64.toInt_div, hmul, Int.mul_tdiv_cancel_left _ hx,
        Int64.toInt_bmod]
  · constructor
    · rintro ⟨htest, rfl⟩
      refine toInt_mul_of_tdiv hx ?_
      rw [← Int64.toInt_div_of_ne_right _ _ hone, htest.resolve_left hzero]
    · intro hz
      have heq : x * y = z := by
        rw [← Int64.toInt_inj, Int64.toInt_mul, ← hz]
        exact Int.bmod_eq_of_le (by have := z.le_toInt; omega) (by have := z.toInt_lt; omega)
      refine ⟨Or.inr ?_, heq⟩
      rw [heq, ← Int64.toInt_inj, Int64.toInt_div_of_ne_right _ _ hone, hz,
        Int.mul_tdiv_cancel_left _ hx]

/-- A product with a first factor that is not negative passes the division test only when
it did not wrap. -/
theorem toInt_of_safeIntMul {x y z : Int64} (hx : 0 ≤ x.toInt)
    (hmul : safeIntMul x y = some z) : z.toInt = x.toInt * y.toInt := by
  refine (safeIntMul_eq_some_iff ?_).mp hmul
  rintro ⟨rfl, -⟩
  exact absurd hx (by decide)

/-! ## Division that traps -/

/-- The division of the machine, which stops the process when the divisor is zero and when the
quotient does not fit. -/
def int64Div (x y : Int64) : Option Int64 :=
  if y = 0 ∨ x = Int64.minValue ∧ y = -1 then none else some (x / y)

/-- `utils::SafeIntMul` as the machine runs it: `none` if the process is stopped. -/
def runSafeIntMul (x y : Int64) : Option (Option Int64) :=
  let mul := x * y
  if x = 0 then some (some mul)
  else (int64Div mul x).map fun quotient => if quotient = y then some mul else none

theorem runSafeIntMul_eq (x y : Int64) : runSafeIntMul x y =
    if x = -1 ∧ y = Int64.minValue then none else some (safeIntMul x y) := by
  unfold runSafeIntMul safeIntMul int64Div
  by_cases hzero : x = 0
  · subst hzero
    simp [show (0 : Int64) ≠ -1 by decide]
  · have hmin : x * y = Int64.minValue ∧ x = -1 ↔ x = -1 ∧ y = Int64.minValue := by
      rw [and_comm]
      refine and_congr_right ?_
      rintro rfl
      exact neg_one_mul_eq_minValue_iff
    simp only [hzero, false_or, if_false, hmin]
    split_ifs with htrap hback
    · rfl
    · simp [hback]
    · simp [hback]

end CegChain
