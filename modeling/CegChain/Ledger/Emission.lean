import CegChain.Ledger.Wire
import Mathlib.Algebra.BigOperators.Intervals
import Mathlib.Algebra.Order.BigOperators.Group.Finset
import Mathlib.Data.Int.ConditionallyCompleteOrder

/-!
# Emission

The reward of a block depends on its period alone, and from one period to the next it
shrinks by a quarter, rounded one way down to 4 and the other way below.  Either way a
period and eight times what comes after it are at most eight times the period
(`add_nextReward_le`), so that all periods together give at most eight times the first
(`sum_periodReward_le`).  With the supply of the genesis block this is far from `2 ^ 63`.
-/

namespace CegChain

open Finset

/-! ## One period after another -/

/-- One round of the loop of `GetBlockReward`. -/
def nextReward (result : ℤ) : ℤ :=
  if result ≤ 0 then 0
  else if result < 4 then result * 3 / 4
  else result - result / 4

theorem nextReward_zero : nextReward 0 = 0 := rfl

theorem nextReward_nonneg (result : ℤ) : 0 ≤ nextReward result := by
  unfold nextReward
  split_ifs <;> omega

theorem nextReward_le {result : ℤ} (hresult : 0 ≤ result) : nextReward result ≤ result := by
  unfold nextReward
  split_ifs <;> omega

theorem nextReward_lt {result : ℤ} (hresult : 0 < result) : nextReward result < result := by
  unfold nextReward
  split_ifs <;> omega

/-- The two roundings lose nothing that matters here. -/
theorem add_nextReward_le {result : ℤ} (hresult : 0 ≤ result) :
    result + 8 * nextReward result ≤ 8 * result := by
  unfold nextReward
  split_ifs <;> omega

theorem rewardAfter_zero_right (periods : ℕ) : rewardAfter periods 0 = 0 := by
  cases periods <;> rfl

/-- The loop is the iteration of its round: where it returns early the round gives 0. -/
theorem rewardAfter_eq_iterate (periods : ℕ) (result : ℤ) :
    rewardAfter periods result = nextReward^[periods] result := by
  induction periods generalizing result with
  | zero => rfl
  | succ periods ih =>
      rw [Function.iterate_succ_apply, ← ih, rewardAfter, nextReward]
      split_ifs
      · rw [rewardAfter_zero_right]
      · rfl
      · rfl

/-- The reward of the blocks of a period. -/
def periodReward (period : ℕ) : ℤ :=
  rewardAfter period rewardInitValue

theorem periodReward_succ (period : ℕ) :
    periodReward (period + 1) = nextReward (periodReward period) := by
  simp only [periodReward, rewardAfter_eq_iterate, Function.iterate_succ_apply']

theorem periodReward_nonneg (period : ℕ) : 0 ≤ periodReward period := by
  induction period with
  | zero => norm_num [periodReward, rewardAfter, rewardInitValue]
  | succ period _ =>
      rw [periodReward_succ]
      exact nextReward_nonneg _

theorem periodReward_antitone : Antitone periodReward := by
  apply antitone_nat_of_succ_le
  intro period
  rw [periodReward_succ]
  exact nextReward_le (periodReward_nonneg period)

/-- As long as there is a reward, each period takes something off it. -/
theorem periodReward_add_le (period : ℕ) :
    periodReward period = 0 ∨ periodReward period + period ≤ rewardInitValue := by
  induction period with
  | zero => exact .inr (by simp [periodReward, rewardAfter])
  | succ period ih =>
      rw [periodReward_succ]
      rcases (periodReward_nonneg period).eq_or_lt with hzero | hpos
      · exact .inl (by rw [← hzero, nextReward_zero])
      · have hlt := nextReward_lt hpos
        right
        push_cast
        omega

theorem periodReward_eq_zero {period : ℕ} (hperiod : rewardInitValue < period) :
    periodReward period = 0 := by
  have hnonneg := periodReward_nonneg period
  rcases periodReward_add_le period with hzero | hle
  · exact hzero
  · omega

/-- The sum of the rewards of all periods, one block of each. -/
theorem sum_periodReward_le (periods : ℕ) :
    ∑ period ∈ range periods, periodReward period + 8 * periodReward periods ≤
      8 * rewardInitValue := by
  induction periods with
  | zero => simp [periodReward, rewardAfter]
  | succ periods ih =>
      have hnext := add_nextReward_le (periodReward_nonneg periods)
      calc ∑ period ∈ range (periods + 1), periodReward period +
            8 * periodReward (periods + 1)
          = ∑ period ∈ range periods, periodReward period +
              (periodReward periods + 8 * nextReward (periodReward periods)) := by
            rw [sum_range_succ, periodReward_succ, add_assoc]
        _ ≤ ∑ period ∈ range periods, periodReward period + 8 * periodReward periods := by
            omega
        _ ≤ 8 * rewardInitValue := ih

/-! ## Block by block -/

/-- Blocks in each period. -/
def periodLength : ℕ := 15768000

theorem getBlockReward_natCast (height : ℕ) :
    getBlockReward height = periodReward (height / periodLength) := by
  have hperiod : rewardPeriod = (periodLength : ℤ) := rfl
  rw [getBlockReward, periodReward, hperiod, ← Int.ofNat_tdiv, Int.toNat_natCast]

/-- Whole periods, each with all its blocks. -/
theorem sum_periods {f : ℕ → ℤ} {length : ℕ} (hlength : 0 < length) (periods : ℕ) :
    ∑ height ∈ range (length * periods), f (height / length) =
      length * ∑ period ∈ range periods, f period := by
  induction periods with
  | zero => simp
  | succ periods ih =>
      have hlast : ∀ block ∈ range length,
          f ((length * periods + block) / length) = f periods := by
        intro block hblock
        rw [Nat.mul_add_div hlength, Nat.div_eq_of_lt (mem_range.mp hblock), add_zero]
      rw [Nat.mul_succ, sum_range_add, ih, sum_congr rfl hlast, sum_const, card_range,
        sum_range_succ, nsmul_eq_mul]
      ring

theorem getBlockReward_nonneg (height : ℕ) : 0 ≤ getBlockReward height := by
  rw [getBlockReward_natCast]
  exact periodReward_nonneg _

theorem sum_getBlockReward_le (heights : ℕ) :
    ∑ height ∈ range heights, getBlockReward height ≤ periodLength * (8 * rewardInitValue) := by
  have hlength : 0 < periodLength := by norm_num [periodLength]
  have hsubset : range heights ⊆ range (periodLength * (heights / periodLength + 1)) := by
    rw [range_subset_range]
    exact (Nat.lt_mul_div_succ heights hlength).le
  have hperiods := sum_periodReward_le (heights / periodLength + 1)
  have hrest := periodReward_nonneg (heights / periodLength + 1)
  calc ∑ height ∈ range heights, getBlockReward height
      ≤ ∑ height ∈ range (periodLength * (heights / periodLength + 1)), getBlockReward height :=
        sum_le_sum_of_subset_of_nonneg hsubset fun height _ _ => getBlockReward_nonneg height
    _ = periodLength * ∑ period ∈ range (heights / periodLength + 1), periodReward period := by
        rw [← sum_periods hlength]
        exact sum_congr rfl fun height _ => getBlockReward_natCast height
    _ ≤ periodLength * (8 * rewardInitValue) := by
        apply mul_le_mul_of_nonneg_left _ (Int.natCast_nonneg periodLength)
        omega

/-! ## The supply -/

/-- What the accounts of the genesis block have. -/
def genesisSupply (node : Node) : ℤ :=
  ((LedgerManager.genesisAccounts node).map fun account => account.2.balance.toInt).sum

theorem genesisSupply_eq (node : Node) : genesisSupply node = 10 ^ 17 := by
  have hvalidators : ∀ validators : List Address,
      ((validators.map fun address => ((decodeAddress address).getD [],
        AccountFrm.creatAccountFrm address 0)).map
          fun account => account.2.balance.toInt).sum = 0 := by
    intro validators
    induction validators with
    | nil => rfl
    | cons address validators ih =>
        simp only [List.map_cons, List.sum_cons, ih]
        rfl
  have hgenesis : (100000000000000000 : Int64).toInt = 10 ^ 17 := by decide +kernel
  rw [genesisSupply, LedgerManager.genesisAccounts, List.map_cons, List.sum_cons, hvalidators,
    add_zero]
  exact hgenesis

/-- What has been issued with the block of this height. -/
def issuedSupply (node : Node) (height : ℕ) : ℤ :=
  genesisSupply node + ∑ h ∈ range (height + 1), getBlockReward h

theorem issuedSupply_lt (node : Node) (height : ℕ) : issuedSupply node height < 2 ^ 63 := by
  have hrewards := sum_getBlockReward_le (height + 1)
  calc issuedSupply node height
      ≤ 10 ^ 17 + periodLength * (8 * rewardInitValue) := by
        rw [issuedSupply, genesisSupply_eq]
        omega
    _ < 2 ^ 63 := by norm_num [periodLength, rewardInitValue]

/-- Balances that add up to less than `2 ^ 63` can be added, one after another. -/
theorem foldlM_safeIntAdd {balances : List Int64} (hnonneg : ∀ b ∈ balances, 0 ≤ b.toInt)
    {start : Int64} (hstart : 0 ≤ start.toInt)
    (hsum : start.toInt + (balances.map Int64.toInt).sum < 2 ^ 63) :
    ∃ sum, balances.foldlM safeIntAdd start = some sum ∧
      sum.toInt = start.toInt + (balances.map Int64.toInt).sum := by
  induction balances generalizing start with
  | nil => exact ⟨start, rfl, (add_zero _).symm⟩
  | cons balance balances ih =>
      have hbalance := hnonneg balance List.mem_cons_self
      have hrest : 0 ≤ (balances.map Int64.toInt).sum := by
        apply List.sum_nonneg
        intro value hvalue
        obtain ⟨other, hother, rfl⟩ := List.mem_map.mp hvalue
        exact hnonneg other (List.mem_cons_of_mem _ hother)
      rw [List.map_cons, List.sum_cons] at hsum
      obtain ⟨next, hadd, hnext⟩ : ∃ z, safeIntAdd start balance = some z ∧
          z.toInt = start.toInt + balance.toInt :=
        exists_safeIntAdd (by omega) (by omega)
      have hnext0 : 0 ≤ next.toInt := by omega
      have hnextsum : next.toInt + (balances.map Int64.toInt).sum < 2 ^ 63 := by omega
      obtain ⟨sum, hfold, hvalue⟩ :=
        ih (fun other hmem => hnonneg other (List.mem_cons_of_mem _ hmem)) hnext0 hnextsum
      refine ⟨sum, ?_, ?_⟩
      · rw [List.foldlM_cons, hadd]
        exact hfold
      · rw [hvalue, hnext, List.map_cons, List.sum_cons, add_assoc]

/-- **Emission is bounded.**  The reward is never negative, never rises, and comes to an
end; and as all that was ever issued is below `2 ^ 63`, balances that add up to it can be
added in 64 bits. -/
theorem emission_bounded (node : Node) :
    (∀ height : ℕ, 0 ≤ getBlockReward height) ∧
      (Antitone fun height : ℕ => getBlockReward height) ∧
      (∃ last : ℕ, ∀ height : ℕ, last ≤ height → getBlockReward height = 0) ∧
      genesisSupply node = 10 ^ 17 ∧
      (∀ height, issuedSupply node height < 2 ^ 63) ∧
      ∀ (height : ℕ) (balances : List Int64), (∀ b ∈ balances, 0 ≤ b.toInt) →
        (balances.map Int64.toInt).sum = issuedSupply node height →
        ∃ sum, balances.foldlM safeIntAdd 0 = some sum ∧
          sum.toInt = issuedSupply node height := by
  refine ⟨getBlockReward_nonneg, ?_, ⟨periodLength * 800000001, ?_⟩, genesisSupply_eq node,
    issuedSupply_lt node, ?_⟩
  · intro height later hle
    simp only [getBlockReward_natCast]
    exact periodReward_antitone (Nat.div_le_div_right hle)
  · intro height hheight
    rw [getBlockReward_natCast]
    apply periodReward_eq_zero
    have hperiod : 800000001 ≤ height / periodLength :=
      (Nat.le_div_iff_mul_le (by norm_num [periodLength])).mpr
        ((Nat.mul_comm _ _).trans_le hheight)
    have hinit : rewardInitValue = 800000000 := by norm_num [rewardInitValue]
    rw [hinit]
    exact_mod_cast Nat.lt_of_succ_le hperiod
  · intro height balances hnonneg hsum
    have hlt := issuedSupply_lt node height
    have hstart : (0 : Int64).toInt + (balances.map Int64.toInt).sum < 2 ^ 63 := by
      rw [Int64.toInt_zero]
      omega
    obtain ⟨sum, hfold, hvalue⟩ := foldlM_safeIntAdd hnonneg (by decide) hstart
    refine ⟨sum, hfold, ?_⟩
    rw [hvalue, Int64.toInt_zero, zero_add, hsum]

/-- The genesis account with the reward of the first block. -/
theorem emission_bounded_first : ∃ sum,
    [100000000000000000, 800000000].foldlM safeIntAdd 0 = some sum ∧
      sum.toInt = issuedSupply (.sample true) 0 :=
  (emission_bounded (.sample true)).2.2.2.2.2 0 _ (by
    intro b hmem
    rcases List.mem_pair.mp hmem with rfl | rfl
    · decide
    · decide) (by
    rw [issuedSupply, genesisSupply_eq]
    decide)

end CegChain
