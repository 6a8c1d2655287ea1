import CegChain.Ledger.CoinConservation
import CegChain.Ledger.AssetChain
import CegChain.Ledger.Emission

/-!
# Coins over a chain of blocks

At the end of a block `AllocateReward` pays what the block has collected and the block's own
reward: to the account of the dpos contract, or else in equal shares to the validators, one
of which gets what is left (`toInt_averageFee`).  No sum overflows, as a balance and what has
been collected are parts of the total (`short_credit`).  So a block adds its reward to the
coins in the tree (`totalCoins_treeAfter`), and with the bound of the emission a chain never
comes near the limit of 64 bits: `coins_conserved`.
-/

namespace CegChain

open Layers AtomMap Totals LedgerContext LedgerFrm

variable {lib : Library} {lcl : Closed} {rt : Runtime} {c c' c₁ c₂ : LedgerContext}
  {address : Address} {account : AccountFrm} {amount : ℤ}

namespace LedgerFrm

/-! ## Rewards -/

theorem canonical_of_deref (hsolid : Solid lcl 0 c) (hderef : c.deref 0 address = some account) :
    Canonical address := by
  obtain ⟨buff, data, rest, htables⟩ := exists_tables (length_tables hsolid.wide 0)
  have hcanonical := hsolid.canonical
  rw [htables] at hcanonical
  rw [deref_eq htables] at hderef
  obtain ⟨r, hlookup, -⟩ := Option.bind_eq_some_iff.mp hderef
  exact hcanonical buff List.mem_cons_self address (AList.lookup_isSome.mp (by rw [hlookup]; rfl))

/-- **A reward is paid** to an account that was looked up: the sum does not overflow. -/
theorem short_credit (htree : Solvent lcl.tree) (hshort : Short lcl c amount)
    (hderef : c.deref 0 address = some account) (reward : Int64) (hreward : 0 ≤ reward.toInt)
    (hlow : totalCoins lcl.tree - amount + reward.toInt < 2 ^ 63) :
    ∃ balance, safeIntAdd account.balance reward = some balance ∧
      Short lcl (c.modifyEntry 0 address (·.setBalance balance)) (amount - reward.toInt) := by
  have hnonneg := hshort.solid.balance_nonneg hderef
  have hbound := hshort.balance_add_le htree (canonical_of_deref hshort.solid hderef)
    (view_of_deref hshort.solid.wide hderef)
  obtain ⟨balance, hadd, hsum⟩ := exists_safeIntAdd (x := account.balance) (y := reward)
    (by omega) (by omega)
  have hpaid := hshort.solid.credit ∅ hderef (show account.balance.toInt ≤ balance.toInt by omega)
  exact ⟨balance, hadd, (hshort.paid hpaid).congr (by omega)⟩

/-- The account of a validator is there, created when it was missing. -/
theorem short_validator (hshort : Short lcl c amount) {found : Option AccountFrm}
    (hget : c.getEntry lcl 0 address = (found, c₁)) (frm : AccountFrm) (hfrm : frm.balance = 0)
    (hsighted : (if found = none then c₁.addEntry 0 address (found.getD frm) else c₁).Sighted lcl) :
    Short lcl (if found = none then c₁.addEntry 0 address (found.getD frm) else c₁) amount ∧
      (if found = none then c₁.addEntry 0 address (found.getD frm) else c₁).deref 0 address =
        some (found.getD frm) := by
  cases found with
  | none =>
      rw [if_pos rfl, Option.getD_none] at hsighted ⊢
      have hsighted₁ := hsighted.of_effects (Effects.create _ (absent_of_getEntry hget))
      obtain ⟨hread, hnone⟩ := hshort.solid.read ∅ hget hsighted₁
      obtain rfl : (c.getEntry lcl 0 address).2 = c₁ := by rw [hget]
      have hnew := hread.solid.addEntry ∅ hnone
        (hsighted₁.canonical (c.tables 0) address List.mem_cons_self) frm
        (by rw [hfrm]; exact le_rfl)
      refine ⟨(hshort.paid (hnew.after hread)).congr ?_, deref_addEntry hread.solid.wide _ _⟩
      rw [hfrm, Int64.toInt_zero, sub_zero]
  | some account =>
      rw [if_neg (Option.some_ne_none _)] at hsighted ⊢
      exact ⟨(hshort.paid (hshort.solid.read ∅ hget hsighted).1).congr (sub_zero _).symm,
        deref_getEntry hget⟩

/-- Each validator gets the average. -/
theorem short_rewardEach (htree : Solvent lcl.tree) {averageFee : Int64}
    (haverage : 0 ≤ averageFee.toInt) {validators : List Address} :
    ∀ {c : LedgerContext} {amount : ℤ}, Short lcl c amount →
      totalCoins lcl.tree - amount + validators.length * averageFee.toInt < 2 ^ 63 →
      (rewardEach lcl averageFee validators c).2.Sighted lcl →
      (rewardEach lcl averageFee validators c).1 = true ∧
        Short lcl (rewardEach lcl averageFee validators c).2
          (amount - validators.length * averageFee.toInt) := by
  induction validators with
  | nil =>
      intro c amount hshort hlow hsighted
      exact ⟨rfl, hshort.congr (by simp)⟩
  | cons address validators ih =>
      intro c amount hshort hlow hsighted
      have hrest : 0 ≤ (validators.length : ℤ) * averageFee.toInt :=
        mul_nonneg (Int.natCast_nonneg _) haverage
      rw [List.length_cons, Nat.cast_succ, add_mul, one_mul] at hlow ⊢
      dsimp only [rewardEach] at hsighted ⊢
      rcases hget : c.getEntry lcl 0 address with ⟨found, c₁⟩
      rw [hget] at hsighted
      dsimp only at hsighted ⊢
      have hthere := short_validator hshort hget (AccountFrm.creatAccountFrm address 0) rfl
      generalize hc₂ : (if found = none then c₁.addEntry 0 address
        (found.getD (AccountFrm.creatAccountFrm address 0)) else c₁) = c₂ at hsighted hthere ⊢
      have hsighted₂ : c₂.Sighted lcl := by
        split at hsighted
        · exact hsighted
        · exact hsighted.of_effects ((Effects.setBalance 0 _ _).trans (effects_rewardEach ..))
      obtain ⟨hshort₂, hderef⟩ := hthere hsighted₂
      obtain ⟨balance, hadd, hcredit⟩ :=
        short_credit htree hshort₂ hderef averageFee haverage (by omega)
      rw [hadd] at hsighted ⊢
      obtain ⟨hdone, hend⟩ := ih hcredit (by omega) hsighted
      exact ⟨hdone, hend.congr (by omega)⟩

/-- The average and what is left of the reward. -/
theorem toInt_averageFee {totalReward : Int64} (htotal : 0 ≤ totalReward.toInt) {n : ℕ}
    (hn : 0 < n) (hlow : n < 2 ^ 63) :
    let averageFee := totalReward / Int64.ofNat n
    0 ≤ averageFee.toInt ∧ n * averageFee.toInt ≤ totalReward.toInt ∧
      (totalReward - Int64.ofNat n * averageFee).toInt =
        totalReward.toInt - n * averageFee.toInt := by
  have hmax := totalReward.toInt_lt
  have hlength : (Int64.ofNat n).toInt = n := Int64.toInt_ofNat_of_lt hlow
  have hdiv : (totalReward / Int64.ofNat n).toInt = totalReward.toInt / n := by
    rw [Int64.toInt_div, hlength, Int.tdiv_eq_ediv_of_nonneg htotal]
    have hle := Int.ediv_le_self n htotal
    have hnonneg : 0 ≤ totalReward.toInt / n := Int.ediv_nonneg htotal (Int.natCast_nonneg n)
    exact Int.bmod_eq_of_le (by omega) (by omega)
  have hmul : (n : ℤ) * (totalReward.toInt / n) ≤ totalReward.toInt :=
    Int.mul_ediv_self_le (by omega)
  have hnonneg : 0 ≤ (n : ℤ) * (totalReward.toInt / n) :=
    mul_nonneg (Int.natCast_nonneg n) (Int.ediv_nonneg htotal (Int.natCast_nonneg n))
  dsimp only
  rw [hdiv]
  refine ⟨Int.ediv_nonneg htotal (Int.natCast_nonneg n), hmul, ?_⟩
  have hprod : (Int64.ofNat n * (totalReward / Int64.ofNat n)).toInt =
      n * (totalReward.toInt / n) := by
    rw [Int64.toInt_mul, hlength, hdiv]
    exact Int.bmod_eq_of_le (by omega) (by omega)
  rw [Int64.toInt_sub, hprod]
  exact Int.bmod_eq_of_le (by omega) (by omega)

/-- **The reward of the validators**, when there are any: each gets the average, and one of
them what is left. -/
theorem short_allocateRewardDirectly (htree : Solvent lcl.tree) (hshort : Short lcl c amount)
    {validators : List Address} (hvalidators : lcl.validatorsOfLast = some validators)
    (hne : validators ≠ []) (hlength : validators.length < 2 ^ 63) {seq : ℤ} (hseq : 0 ≤ seq)
    {totalReward : Int64} (htotal : 0 ≤ totalReward.toInt)
    (hlow : totalCoins lcl.tree - amount + totalReward.toInt < 2 ^ 63)
    (hsighted : (allocateRewardDirectly lcl seq totalReward c).2.Sighted lcl) :
    (allocateRewardDirectly lcl seq totalReward c).1 = true ∧
      Short lcl (allocateRewardDirectly lcl seq totalReward c).2
        (amount - totalReward.toInt) := by
  have hpos : 0 < validators.length := List.length_pos_iff.mpr hne
  obtain ⟨haverage, hshares, hleft⟩ := toInt_averageFee htotal hpos hlength
  dsimp only [allocateRewardDirectly] at hsighted ⊢
  rw [hvalidators] at hsighted ⊢
  simp only [hpos.ne', if_false] at hsighted ⊢
  generalize totalReward / Int64.ofNat validators.length = averageFee at *
  have heach := @short_rewardEach lcl htree averageFee haverage validators c amount hshort
    (by omega)
  rcases hrewards : rewardEach lcl averageFee validators c with ⟨done, c₁⟩
  rw [hrewards] at heach hsighted
  have hsighted₁ : c₁.Sighted lcl := by
    cases done with
    | false => exact hsighted
    | true =>
        dsimp only at hsighted
        split at hsighted
        · split at hsighted
          · exact hsighted.of_effects Effects.crash
          · split at hsighted
            · exact hsighted
            · exact hsighted.of_effects (Effects.setBalance ..)
        · exact hsighted
  obtain ⟨rfl, hshort₁⟩ := heach hsighted₁
  dsimp only at hsighted hshort₁ ⊢
  by_cases hsome : totalReward - Int64.ofNat validators.length * averageFee > 0
  · -- the validator that gets the rest was rewarded before, so its record is there
    rw [if_pos hsome]
    have hindex : seq.tmod validators.length = (seq.toNat % validators.length : ℕ) := by
      rw [Int.natCast_mod, Int.toNat_of_nonneg hseq, Int.tmod_eq_emod_of_nonneg hseq]
    have hbound : seq.toNat % validators.length < validators.length := Nat.mod_lt _ hpos
    have hthere := isSome_deref_rewardEach hshort.solid.wide hrewards
      (.inl (List.getElem_mem hbound))
    obtain ⟨account, hderef⟩ := Option.isSome_iff_exists.mp hthere
    rw [hindex, if_neg (by omega), Int.toNat_natCast, List.getElem?_eq_getElem hbound,
      Option.bind_some, hderef, Option.map_some]
    dsimp only
    obtain ⟨balance, hadd, hcredit⟩ := short_credit htree hshort₁ hderef
      (totalReward - Int64.ofNat validators.length * averageFee) (by rw [hleft]; omega)
      (by rw [hleft]; omega)
    rw [hadd]
    exact ⟨rfl, hcredit.congr (by rw [hleft]; omega)⟩
  · rw [if_neg hsome]
    rw [gt_iff_lt, Int64.lt_iff_toInt_lt, Int64.toInt_zero, hleft] at hsome
    exact ⟨rfl, hshort₁.congr (by omega)⟩

/-- A root that a block leaves: what its accounts are short of. -/
structure Closes (lcl : Closed) (c : LedgerContext) (amount : ℤ) : Prop
    extends Short lcl c amount where
  settles : Settles lcl c

theorem Closes.commit (hshort : Short lcl c amount) : Closes lcl (c.commit 0) amount :=
  ⟨hshort.commit, hshort.solid.settles_commit⟩

/-- How a block ends that has collected these fees: the rewards put them back and add the
block's own, or there was no one to pay. -/
def Rewarded (lcl : Closed) (height : ℕ) (totalFee : ℤ) (r : Bool × LedgerContext) : Prop :=
  (r.1 = true ∧ Closes lcl r.2 (-getBlockReward height)) ∨
    r.1 = false ∧ (∀ validators ∈ lcl.validatorsOfLast, validators = []) ∧
      Closes lcl r.2 totalFee

theorem effects_commitReward (seq : ℤ) (totalReward : Int64) (c : LedgerContext) :
    Effects lcl c (commitReward (allocateRewardDirectly lcl seq totalReward c)).2 := by
  have heffects := @effects_allocateRewardDirectly lcl seq totalReward c
  rcases hpaid : allocateRewardDirectly lcl seq totalReward c with ⟨_ | _, c₁⟩
  · rw [hpaid] at heffects
    exact heffects
  · rw [hpaid] at heffects
    exact heffects.trans (.single (.commit _ 0))

theorem rewarded_commitReward (htree : Solvent lcl.tree) (hreconciled : Reconciled lcl c)
    (hvalidators : ∀ validators ∈ lcl.validatorsOfLast, validators.length < 2 ^ 63) {height : ℕ}
    {totalReward : Int64} (hnonneg : 0 ≤ totalReward.toInt)
    (htotal : totalReward.toInt = c.totalFee.toInt + getBlockReward height)
    (hlow : totalCoins lcl.tree + getBlockReward height < 2 ^ 63)
    (hsighted : (commitReward (allocateRewardDirectly lcl height totalReward c)).2.Sighted lcl) :
    Rewarded lcl height c.totalFee.toInt
      (commitReward (allocateRewardDirectly lcl height totalReward c)) := by
  have hkept : Closes lcl c c.totalFee.toInt := ⟨hreconciled.toShort, hreconciled.settles⟩
  cases hlast : lcl.validatorsOfLast with
  | none =>
      rw [allocateRewardDirectly, hlast]
      refine .inr ⟨rfl, fun others hmem => ?_, hkept⟩
      rw [hlast] at hmem
      cases hmem
  | some validators =>
      by_cases hempty : validators = []
      · rw [allocateRewardDirectly, hlast]
        dsimp only
        rw [if_pos (by rw [hempty]; rfl)]
        refine .inr ⟨rfl, fun others hmem => ?_, hkept⟩
        rw [hlast] at hmem
        exact Option.some.inj hmem ▸ hempty
      · have hpaid := short_allocateRewardDirectly htree hkept.toShort hlast hempty
          (hvalidators validators hlast) (Int.natCast_nonneg height) hnonneg (by omega)
        rcases hdone : allocateRewardDirectly lcl height totalReward c with ⟨done, c₁⟩
        rw [hdone] at hpaid hsighted
        have hsighted₁ : c₁.Sighted lcl := by
          cases done with
          | false => exact hsighted
          | true => exact hsighted.of_effects (.single (.commit _ 0))
        obtain ⟨rfl, hshort⟩ := hpaid hsighted₁
        exact .inl ⟨rfl, .commit (hshort.congr (by omega))⟩

/-- **The end of a block.** -/
theorem rewarded_allocateReward (hbounded : Bounded lcl) (hreconciled : Reconciled lcl c)
    (hvalidators : ∀ validators ∈ lcl.validatorsOfLast, validators.length < 2 ^ 63) {height : ℕ}
    (hsighted : (allocateReward lcl height c).2.Sighted lcl) :
    Rewarded lcl height c.totalFee.toInt (allocateReward lcl height c) := by
  have hnonneg := hreconciled.nonneg
  have hle := hreconciled.toShort.amount_le hbounded.tree
  have hlow := hbounded.low
  have hreward := getBlockReward_nonneg height
  have hmax : getBlockReward height ≤ 800000000 := by
    rw [getBlockReward_natCast]
    exact periodReward_antitone (Nat.zero_le _)
  have hblock : (Int64.ofInt (getBlockReward height)).toInt = getBlockReward height :=
    Int64.toInt_ofInt_of_le (by omega) (by omega)
  have htotal : (c.totalFee + Int64.ofInt (getBlockReward height)).toInt =
      c.totalFee.toInt + getBlockReward height := by
    rw [Int64.toInt_add, hblock]
    exact Int.bmod_eq_of_le (by omega) (by omega)
  rw [allocateReward] at hsighted ⊢
  generalize c.totalFee + Int64.ofInt (getBlockReward height) = totalReward at *
  by_cases hzero : totalReward = 0
  · rw [if_pos hzero]
    rw [hzero, Int64.toInt_zero] at htotal
    exact .inl ⟨rfl, hreconciled.toShort.congr (by omega), hreconciled.settles⟩
  · rw [if_neg hzero] at hsighted ⊢
    by_cases hversion : lcl.version > 1002
    · rw [if_pos hversion] at hsighted ⊢
      rcases hget : c.getEntry lcl 0 lcl.validatorAddress with ⟨_ | account, c₁⟩
      · rw [hget] at hsighted
        have hread := (hreconciled.read ∅ hget (hsighted.of_effects (effects_commitReward ..))).1
        have hfees : c₁.totalFee = c.totalFee := by
          obtain rfl : (c.getEntry lcl 0 lcl.validatorAddress).2 = c₁ := by rw [hget]
          rfl
        rw [← hfees] at htotal hnonneg ⊢
        exact rewarded_commitReward hbounded.tree hread hvalidators (by omega) htotal (by omega)
          hsighted
      · rw [hget] at hsighted
        dsimp only at hsighted ⊢
        have hsighted₁ : c₁.Sighted lcl := by
          split at hsighted
          · exact hsighted
          · exact hsighted.of_effects ((Effects.setBalance ..).trans (.single (.commit _ 0)))
        have hread := (hreconciled.solid.read ∅ hget hsighted₁).1
        have hshort := (hreconciled.toShort.paid hread).congr (sub_zero _).symm
        obtain ⟨balance, hadd, hcredit⟩ := short_credit hbounded.tree hshort
          (deref_getEntry hget) totalReward (by omega) (by omega)
        rw [hadd]
        exact .inl ⟨rfl, .commit (hcredit.congr (by omega))⟩
    · rw [if_neg hversion] at hsighted ⊢
      exact rewarded_commitReward hbounded.tree hreconciled hvalidators (by omega) htotal (by omega)
        hsighted

end LedgerFrm

/-! ## A block -/

/-- A new block. -/
theorem reconciled_empty (htree : Solvent lcl.tree) : Reconciled lcl {} := by
  have hfunded : Funded lcl lcl.accountFromDB :=
    ⟨fun address account hfound => htree _ account hfound, fun _ hsome => hsome⟩
  refine ⟨⟨⟨⟨⟨le_rfl, le_rfl⟩, ?_, hfunded⟩, .of_eq fun _ => rfl⟩, le_rfl⟩, hfunded, fun _ => rfl⟩
  intro table htable address haddress
  have hempty : table = ∅ := by
    simpa [tables, EnvStack.enter, EnvStack.root] using htable
  rw [hempty] at haddress
  exact absurd haddress (AList.notMem_empty _)

namespace Executed

variable {b : Executed}

/-- A block that a validator proposes or checks, in which every read has found the newest
record. -/
structure OnCoins (lib : Library) (b : Executed) : Prop where
  mode : b.mode ≠ .follow
  reserve : 0 ≤ b.lcl.fees.baseReserve.toInt
  validators : ∀ validators ∈ b.lcl.validatorsOfLast, validators.length < 2 ^ 63
  sighted : (b.applied lib).context.Sighted b.lcl

/-- The coins that the block adds: its reward, or when no one could be paid, what it has
collected and not paid. -/
def minted (lib : Library) (b : Executed) : ℤ :=
  if (b.applied lib).rewarded = some true then getBlockReward b.value.ledgerSeq
  else -(lastState {} (b.turns lib)).totalFee.toInt

theorem bounded (hon : b.OnCoins lib) (htree : Solvent b.lcl.tree)
    (hlow : totalCoins b.lcl.tree ≤ 2 ^ 62) : Bounded b.lcl :=
  ⟨hon.reserve, htree, hlow⟩

/-- The block up to its rewards. -/
theorem reconciled_lastState (hon : b.OnCoins lib) (hbounded : Bounded b.lcl)
    (haccepted : (b.applied lib).accepted = true) :
    Reconciled b.lcl (lastState {} (b.turns lib)) ∧ ∀ t ∈ b.turns lib, Billed lib b.lcl b.rt t := by
  apply billed_turns hbounded hon.mode _ (reconciled_empty hbounded.tree)
    (LedgerFrm.Rested.empty b.lcl)
  have hsighted := hon.sighted
  rw [context_of_accepted haccepted] at hsighted
  exact hsighted.of_effects (effects_allocateReward ..)

/-- **One block.** -/
theorem totalCoins_treeAfter (hon : b.OnCoins lib) (hbounded : Bounded b.lcl)
    (haccepted : (b.applied lib).accepted = true) {height : ℕ} (hseq : b.value.ledgerSeq = height) :
    totalCoins (b.treeAfter lib) = totalCoins b.lcl.tree + b.minted lib ∧
      Solvent (b.treeAfter lib) ∧ b.minted lib ≤ getBlockReward height ∧
      ((∃ validators ∈ b.lcl.validatorsOfLast, validators ≠ []) →
        b.minted lib = getBlockReward height) := by
  have hreconciled := (reconciled_lastState hon hbounded haccepted).1
  have hsighted := hon.sighted
  rw [context_of_accepted haccepted, hseq] at hsighted
  have hrewarded := rewarded_allocateReward hbounded hreconciled hon.validators hsighted
  have hreturned : (b.applied lib).rewarded = some (LedgerFrm.allocateReward b.lcl
      b.value.ledgerSeq (lastState {} (b.turns lib))).1 :=
    congrArg Prod.fst (rewarded_of_accepted haccepted)
  rw [treeAfter, minted, hreturned, context_of_accepted haccepted, hseq]
  rcases hrewarded with ⟨hpaid, hcloses⟩ | ⟨hlost, hnone, hcloses⟩
  · rw [hpaid, if_pos rfl, hcloses.totalCoins_commit hcloses.settles, sub_neg_eq_add]
    exact ⟨rfl, hcloses.solvent_commit hcloses.settles hbounded.tree, le_rfl, fun _ => rfl⟩
  · have hreward := getBlockReward_nonneg height
    have hnonneg := hreconciled.nonneg
    rw [hlost, if_neg (by simp), hcloses.totalCoins_commit hcloses.settles, sub_eq_add_neg]
    refine ⟨rfl, hcloses.solvent_commit hcloses.settles hbounded.tree, by omega, ?_⟩
    rintro ⟨validators, hmem, hne⟩
    exact absurd (hnone validators hmem) hne

/-- The blocks have the heights that follow this one. -/
def Numbered : ℕ → List Executed → Prop
  | _, [] => True
  | height, b :: chain => b.value.ledgerSeq = (height + 1 : ℕ) ∧ Numbered (height + 1) chain

end Executed

theorem issuedSupply_succ (node : Node) (height : ℕ) :
    issuedSupply node (height + 1) =
      issuedSupply node height + getBlockReward (height + 1 : ℕ) := by
  rw [issuedSupply, issuedSupply, Finset.sum_range_succ, add_assoc]

theorem issuedSupply_le (node : Node) (height : ℕ) : issuedSupply node height ≤ 2 ^ 62 := by
  have hrewards := sum_getBlockReward_le (height + 1)
  calc issuedSupply node height
      ≤ 10 ^ 17 + periodLength * (8 * rewardInitValue) := by
        rw [issuedSupply, genesisSupply_eq]
        omega
    _ ≤ 2 ^ 62 := by norm_num [periodLength, rewardInitValue]

/-- What the root of the block reads as the balance of an address. -/
def LedgerContext.balance (lcl : Closed) (address : Address) (c : LedgerContext) : ℤ :=
  (c.getEntry lcl 0 address).1.elim 0 fun account => account.balance.toInt

theorem Solid.balance_eq (hsolid : Solid lcl 0 c) (address : Address) :
    c.balance lcl address = coins (c.reads lcl) address := by
  rw [LedgerContext.balance, getEntry_zero_fst hsolid.wide]
  rfl

open Executed

/-- Each block of a chain begins on a tree on which no sum overflows. -/
theorem bounded_chain {node : Node} {height : ℕ} {tree : Table (Option Bytes) AccountFrm}
    {chain : List Executed} (htree : Solvent tree)
    (hsupply : totalCoins tree ≤ issuedSupply node height) (hchain : IsChain lib tree chain)
    (hnumbered : Numbered height chain) (hon : ∀ b ∈ chain, b.OnCoins lib) :
    totalCoins (lastTree lib tree chain) =
        totalCoins tree + (chain.map (·.minted lib)).sum ∧
      totalCoins (lastTree lib tree chain) ≤ issuedSupply node (height + chain.length) ∧
      Solvent (lastTree lib tree chain) ∧
      ∀ b ∈ chain, Bounded b.lcl ∧ (b.applied lib).accepted = true ∧
        ∃ seq : ℕ, b.value.ledgerSeq = seq := by
  induction chain generalizing tree height with
  | nil =>
      exact ⟨(add_zero _).symm, hsupply, htree, fun b hmem => absurd hmem List.not_mem_nil⟩
  | cons b chain ih =>
      obtain ⟨rfl, haccepted, hchain⟩ := hchain
      obtain ⟨hseq, hnumbered⟩ := hnumbered
      have hb := hon b List.mem_cons_self
      have hbounded := bounded hb htree (hsupply.trans (issuedSupply_le node height))
      obtain ⟨htotal, hafter, hle, -⟩ := totalCoins_treeAfter hb hbounded haccepted hseq
      have hsupplied : totalCoins (b.treeAfter lib) ≤ issuedSupply node (height + 1) := by
        rw [issuedSupply_succ]
        omega
      obtain ⟨hlast, hissued, hsolvent, hrest⟩ := ih hafter hsupplied hchain hnumbered
        fun other hmem => hon other (List.mem_cons_of_mem _ hmem)
      refine ⟨?_, ?_, hsolvent, fun other hmem => ?_⟩
      · rw [lastTree, hlast, htotal, List.map_cons, List.sum_cons, add_assoc]
      · rw [List.length_cons, ← Nat.add_assoc, Nat.add_right_comm]
        exact hissued
      · rcases List.mem_cons.mp hmem with rfl | hmem
        · exact ⟨hbounded, haccepted, height + 1, hseq⟩
        · exact hrest other hmem

/-- **Coins are conserved.**  Over any chain of blocks that were proposed or checked, each with
any transactions and contracts, on a tree that has no more coins than were issued: what all
accounts have is what they had at first and the rewards of the blocks, a block without
validators to pay apart; this is at most what was issued by then; no account has less than
nothing; and each transaction that comes up moves as many coins out of the accounts as the
fees of the block grow by. -/
theorem coins_conserved {node : Node} {height : ℕ} {tree : Table (Option Bytes) AccountFrm}
    {chain : List Executed} (htree : Solvent tree)
    (hsupply : totalCoins tree ≤ issuedSupply node height) (hchain : IsChain lib tree chain)
    (hnumbered : Numbered height chain) (hon : ∀ b ∈ chain, b.OnCoins lib) :
    totalCoins (lastTree lib tree chain) =
        totalCoins tree + (chain.map (·.minted lib)).sum ∧
      totalCoins (lastTree lib tree chain) ≤ issuedSupply node (height + chain.length) ∧
      Solvent (lastTree lib tree chain) ∧
      ∀ b ∈ chain, Solvent (b.treeAfter lib) ∧
        ((∃ validators ∈ b.lcl.validatorsOfLast, validators ≠ []) →
          b.minted lib = getBlockReward b.value.ledgerSeq) ∧
        ∀ t ∈ b.turns lib,
          (∀ address, 0 ≤ t.after.balance b.lcl address) ∧
          0 ≤ t.after.totalFee.toInt ∧
          Shifts (fun address => t.before.balance b.lcl address)
            (fun address => t.after.balance b.lcl address)
            (t.before.totalFee.toInt - t.after.totalFee.toInt) := by
  obtain ⟨htotal, hissued, hsolvent, hblocks⟩ :=
    bounded_chain htree hsupply hchain hnumbered hon
  refine ⟨htotal, hissued, hsolvent, fun b hmem => ?_⟩
  obtain ⟨hbounded, haccepted, seq, hseq⟩ := hblocks b hmem
  obtain ⟨-, hafter, -, hminted⟩ := totalCoins_treeAfter (hon b hmem) hbounded haccepted hseq
  refine ⟨hafter, hseq ▸ hminted, fun t hturn => ?_⟩
  have hbilled := (reconciled_lastState (hon b hmem) hbounded haccepted).2 t hturn
  have hbalance := hbilled.before.solid.balance_eq
  have hbalance' := hbilled.after.solid.balance_eq
  refine ⟨fun address => ?_, hbilled.after.nonneg,
    hbilled.levied.shifts.congr hbalance hbalance'⟩
  rw [hbalance']
  exact hbilled.after.solid.funded.coins_nonneg address

/-- What a transaction has cost. -/
def Turn.cost (t : Turn) : ℤ :=
  t.after.totalFee.toInt - t.before.totalFee.toInt

/-- The fees of a block are what its transactions have cost. -/
theorem sum_cost (mode : Mode) (rt : Runtime) (expireTxs : Finset ℤ) (i : ℕ)
    (txs : List TransactionEnv) (c : LedgerContext) :
    ((LedgerFrm.turns lib lcl mode rt expireTxs i txs c).map Turn.cost).sum =
      (lastState c (LedgerFrm.turns lib lcl mode rt expireTxs i txs c)).totalFee.toInt -
        c.totalFee.toInt := by
  induction txs generalizing i c with
  | nil => exact (sub_self _).symm
  | cons env txs ih =>
      rw [LedgerFrm.turns]
      split
      · exact (sub_self _).symm
      · dsimp only
        split
        · rw [List.map_singleton, List.sum_singleton]
          rfl
        · rw [List.map_cons, List.sum_cons, ih]
          show _ - _ + _ = (lastState _ _).totalFee.toInt - _
          exact sub_add_sub_cancel' ..

/-- **What transactions cost.**  In the blocks of such a chain a transaction that is passed
over costs nothing, and one that fails or expires costs its fee limit.  One that succeeds
costs some gas at its price, from version 1003 on at least its own, and never more than the
limit; or just the limit, if it has caught an expiry.  What a block collects is what its
transactions cost. -/
theorem transactions_cost {node : Node} {height : ℕ} {tree : Table (Option Bytes) AccountFrm}
    {chain : List Executed} (htree : Solvent tree)
    (hsupply : totalCoins tree ≤ issuedSupply node height) (hchain : IsChain lib tree chain)
    (hnumbered : Numbered height chain) (hon : ∀ b ∈ chain, b.OnCoins lib) :
    ∀ b ∈ chain,
      (lastState {} (b.turns lib)).totalFee.toInt = ((b.turns lib).map Turn.cost).sum ∧
      ∀ t ∈ b.turns lib, Costs lib b.lcl b.rt t.env t.cost t.status := by
  intro b hmem
  obtain ⟨hbounded, haccepted, -⟩ :=
    (bounded_chain htree hsupply hchain hnumbered hon).2.2.2 b hmem
  have hbilled := (reconciled_lastState (hon b hmem) hbounded haccepted).2
  exact ⟨(sub_zero _).symm.trans (sum_cost ..).symm, fun t hturn => (hbilled t hturn).costs⟩

/-- **Only who signs pays.**  In the blocks of such a chain a transaction can only give to an
account whose code it has not run, and whose signers have not signed for it: neither for the
transaction, nor for one of its operations with this source.  The account stays as it is,
with no less coins and no less of any asset. -/
theorem unsigned_account_spared {node : Node} {height : ℕ}
    {tree : Table (Option Bytes) AccountFrm} {chain : List Executed} (htree : Solvent tree)
    (hsupply : totalCoins tree ≤ issuedSupply node height) (hchain : IsChain lib tree chain)
    (hnumbered : Numbered height chain) (hon : ∀ b ∈ chain, b.OnCoins lib) {b : Executed}
    (hb : b ∈ chain) {t : Turn} (ht : t ∈ b.turns lib)
    (hfound : (t.before.getEntry b.lcl 0 address).1 = some account)
    (hruns : t.after.runs address = t.before.runs address)
    (hsource : address = t.env.transaction.sourceAddress →
      TransactionFrm.signerHashPriv lib t.env account (-1) = false)
    (hoperations : ∀ ope ∈ t.env.transaction.operations,
      t.env.transaction.operationSource ope = address →
        TransactionFrm.signerHashPriv lib t.env account ope.body.type = false) :
    ∃ account', (t.after.getEntry b.lcl 0 address).1 = some account' ∧
      account.Spared account' := by
  obtain ⟨hbounded, haccepted, -⟩ :=
    (bounded_chain htree hsupply hchain hnumbered hon).2.2.2 b hb
  have hbilled := (reconciled_lastState (hon b hb) hbounded haccepted).2 t ht
  rw [getEntry_zero_fst hbilled.before.solid.wide] at hfound
  rw [getEntry_zero_fst hbilled.after.solid.wide]
  refine hbilled.levied.spares.spared address account (fun hmem => ?_) hruns hfound
  rcases hmem account hfound with ⟨hsame, hpriv⟩ | ⟨ope, hope, hsame, hpriv⟩
  · rw [hsource hsame] at hpriv
    cases hpriv
  · rw [hoperations ope hope hsame] at hpriv
    cases hpriv

/-! ### A contract that pays -/

/-- The payer pays 5 coins to the caller, who calls the contract, which pays one coin to
`dest`; the block is checked. -/
def calledBlock (dest : Address) : Executed where
  toBlock := callBlock dest
  mode := .check

/-- The payer pays again; the block is proposed. -/
def paidBlock (dest : Address) : Executed where
  toBlock := { nextBlock dest 2 with
    lcl := { sampleClosed with seq := 2, tree := (calledBlock dest).treeAfter sampleLibrary } }
  mode := .propose

/-- The address that was looked up. -/
def Mark.readAddress? : Mark → Option Address
  | .read _ address => some address
  | _ => none

instance (lcl : Closed) (c : LedgerContext) : Decidable (c.Sighted lcl) :=
  decidable_of_iff ((∀ entry ∈ c.journal, ∀ address ∈ entry.readAddress?, Canonical address) ∧
      ∀ entry ∈ c.journal, Mark.FoundNewest lcl entry) <| by
    rw [← readsNewest_iff]
    refine ⟨fun h => ⟨fun tables address hmem => h.1 _ hmem address rfl, h.2⟩,
      fun h => ⟨fun entry hmem address haddress => ?_, h.newest⟩⟩
    cases entry with
    | read tables other =>
        obtain rfl := Option.some.inj haddress
        exact h.canonical tables other hmem
    | _ => cases haddress

instance (lib : Library) (b : Executed) : Decidable (b.OnCoins lib) :=
  decidable_of_iff (b.mode ≠ .follow ∧ 0 ≤ b.lcl.fees.baseReserve.toInt ∧
      (∀ validators ∈ b.lcl.validatorsOfLast, validators.length < 2 ^ 63) ∧
      (b.applied lib).context.Sighted b.lcl)
    ⟨fun h => ⟨h.1, h.2.1, h.2.2.1, h.2.2.2⟩, fun h => ⟨h.mode, h.reserve, h.validators, h.sighted⟩⟩

theorem solvent_of_entries {tree : Table (Option Bytes) AccountFrm}
    (hentries : ∀ entry ∈ tree.entries, 0 ≤ entry.2.balance.toInt) : Solvent tree :=
  fun key account hfound => hentries ⟨key, account⟩ (AList.mem_lookup_iff.mp hfound)

theorem solvent_sampleClosed : Solvent sampleClosed.tree :=
  solvent_of_entries (by decide +kernel)

theorem totalCoins_sampleClosed : totalCoins sampleClosed.tree ≤ issuedSupply (.sample true) 1 := by
  rw [issuedSupply, genesisSupply_eq]
  decide +kernel

/-- Two blocks with three transactions, the contract pays its caller: there are the coins of
the three accounts and two rewards. -/
theorem coins_conserved_paid :
    totalCoins (lastTree sampleLibrary sampleClosed.tree
        [calledBlock callerAddress, paidBlock callerAddress]) = 300 + 2 * 800000000 ∧
      ((calledBlock callerAddress).turns sampleLibrary).map Turn.status =
        [some .succeeded, some .succeeded] := by
  have hlinked : (paidBlock callerAddress).lcl.tree =
      (calledBlock callerAddress).treeAfter sampleLibrary := by
    simp only [paidBlock]
  have hchain : IsChain sampleLibrary sampleClosed.tree
      [calledBlock callerAddress, paidBlock callerAddress] :=
    ⟨rfl, by decide +kernel, hlinked, by decide +kernel, trivial⟩
  have hon : ∀ b ∈ [calledBlock callerAddress, paidBlock callerAddress],
      b.OnCoins sampleLibrary := by
    decide +kernel
  refine ⟨(coins_conserved solvent_sampleClosed totalCoins_sampleClosed hchain
    ⟨rfl, rfl, trivial⟩ hon).1.trans ?_, ?_⟩
  · decide +kernel
  · decide +kernel

/-- The sample library with transactions of 10 bytes. -/
def pricedLibrary : Library :=
  { sampleLibrary with byteSize := fun _ => 10 }

/-- A payment at the gas price 2, with a limit. -/
def priced (feeLimit : Int64) (env : TransactionEnv) : TransactionEnv :=
  { env with transaction := { env.transaction with gasPrice := 2, feeLimit := feeLimit } }

/-- A payment, a call of the contract, and another whose limit is too low for it. -/
def pricedBlock : Executed where
  lcl := sampleClosed
  rt := payingOut callerAddress
  value := {
    txset := [priced 50 (payment payerAddress callerAddress 5 1),
      priced 50 (payment callerAddress calleeAddress 0 1),
      priced 30 (payment callerAddress calleeAddress 0 2)]
    ledgerSeq := 2 }
  mode := .propose

theorem isChain_pricedBlock :
    IsChain pricedLibrary sampleClosed.tree [pricedBlock] ∧
      ∀ b ∈ [pricedBlock], b.OnCoins pricedLibrary :=
  ⟨⟨rfl, by decide +kernel, trivial⟩, by decide +kernel⟩

/-- The call pays for the transaction of the contract as well, and the one that fails pays
its limit. -/
theorem transactions_cost_priced :
    (lastState {} (pricedBlock.turns pricedLibrary)).totalFee.toInt = 20 + 40 + 30 ∧
      (∀ t ∈ pricedBlock.turns pricedLibrary,
        Costs pricedLibrary sampleClosed pricedBlock.rt t.env t.cost t.status) ∧
      (pricedBlock.turns pricedLibrary).map Turn.status =
        [some .succeeded, some .succeeded, some .failed] := by
  obtain ⟨hchain, hon⟩ := isChain_pricedBlock
  obtain ⟨htotal, hcosts⟩ := transactions_cost solvent_sampleClosed totalCoins_sampleClosed
    hchain ⟨rfl, trivial⟩ hon pricedBlock List.mem_cons_self
  have hsum : ((pricedBlock.turns pricedLibrary).map Turn.cost).sum = 20 + 40 + 30 := by
    decide +kernel
  exact ⟨htotal.trans hsum, hcosts, by decide +kernel⟩

/-- The payment to the caller leaves it as it was, with five coins more. -/
theorem unsigned_account_spared_paid :
    ∃ t ∈ pricedBlock.turns pricedLibrary, ∃ account account',
      (t.before.getEntry sampleClosed 0 callerAddress).1 = some account ∧
      (t.after.getEntry sampleClosed 0 callerAddress).1 = some account' ∧
      account.Spared account' ∧ account'.balance = account.balance + 5 := by
  obtain ⟨hchain, hon⟩ := isChain_pricedBlock
  have hpaid : ∃ t ∈ pricedBlock.turns pricedLibrary,
      ((t.before.getEntry sampleClosed 0 callerAddress).1.isSome ∧
        t.after.runs callerAddress = t.before.runs callerAddress ∧
        callerAddress ≠ t.env.transaction.sourceAddress ∧
        ∀ ope ∈ t.env.transaction.operations,
          t.env.transaction.operationSource ope ≠ callerAddress) ∧
      (t.after.getEntry sampleClosed 0 callerAddress).1.map (·.balance) =
        (t.before.getEntry sampleClosed 0 callerAddress).1.map (·.balance + 5) := by
    decide +kernel
  obtain ⟨t, ht, ⟨hsome, hruns, hsource, hoperations⟩, hbalance⟩ := hpaid
  obtain ⟨account, hfound⟩ := Option.isSome_iff_exists.mp hsome
  obtain ⟨account', hfound', hspared⟩ := unsigned_account_spared solvent_sampleClosed
    totalCoins_sampleClosed hchain ⟨rfl, trivial⟩ hon List.mem_cons_self ht hfound hruns
    (fun hsame => absurd hsame hsource) fun ope hope hsame => absurd hsame (hoperations ope hope)
  rw [hfound, show (t.after.getEntry sampleClosed 0 callerAddress).1 = _ from hfound'] at hbalance
  exact ⟨t, ht, account, account', hfound, hfound', hspared, Option.some.inj hbalance⟩

/-- The contract pays the payer instead, whose account its frame reads as it was before the
block: the five coins that the payer has paid are there twice. -/
theorem coins_appear :
    ¬ ((calledBlock payerAddress).applied sampleLibrary).context.Sighted sampleClosed ∧
      ((calledBlock payerAddress).applied sampleLibrary).accepted = true ∧
      totalCoins ((calledBlock payerAddress).treeAfter sampleLibrary) = 300 + 800000000 + 5 := by
  decide +kernel

end CegChain
