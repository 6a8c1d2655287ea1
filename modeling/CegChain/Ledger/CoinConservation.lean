import CegChain.Ledger.CoinContracts
import CegChain.Ledger.Turns

/-!
# Coins are conserved

A block takes the fee limit of each transaction before it is applied, and gives back what
is left of it when the transaction succeeded.  `Pooled` says that what the accounts are
short of is what the block has collected, and that this is not negative; then no sum of a
balance and a fee overflows, since both are parts of the total.  Between two transactions
the root is `Reconciled`: what it has committed is what it reads.

On the way it is said what a transaction costs (`Costs`), and whom it spares: everyone who
has not signed for it, its source and the sources of its operations apart (`signers`).
-/

namespace CegChain

open Layers AtomMap Totals LedgerContext LedgerFrm

/-- The root of a block whose accounts are short of an amount. -/
structure Short (lcl : Closed) (c : LedgerContext) (amount : ℤ) : Prop where
  solid : Solid lcl 0 c
  shifts : Shifts (coins lcl.accountFromDB) (coins (c.reads lcl)) (-amount)

/-- The root of a block that has collected what its accounts are short of. -/
structure Pooled (lcl : Closed) (c : LedgerContext) : Prop
    extends Short lcl c c.totalFee.toInt where
  nonneg : 0 ≤ c.totalFee.toInt

/-- What a block has committed is what its root reads. -/
structure Settles (lcl : Closed) (c : LedgerContext) : Prop where
  funded : Funded lcl (shown lcl c.data)
  coins_eq : ∀ address, coins (shown lcl c.data) address = coins (c.reads lcl) address

/-- The root of a block between two transactions. -/
structure Reconciled (lcl : Closed) (c : LedgerContext) : Prop extends Pooled lcl c where
  settles : Settles lcl c

/-- A step on the root of a block that collects what leaves the accounts. -/
structure Levied (lcl : Closed) (actors : Set Address) (c c' : LedgerContext) : Prop where
  solid : Solid lcl 0 c'
  shifts : Shifts (coins (c.reads lcl)) (coins (c'.reads lcl))
    (c.totalFee.toInt - c'.totalFee.toInt)
  spares : Spares actors c c' (c.reads lcl) (c'.reads lcl)

/-- Who has signed for a transaction, by the accounts before it: its source, and the sources
of its operations. -/
def signers (lib : Library) (env : TransactionEnv) (state : Address → Option AccountFrm) :
    Set Address :=
  {address | ∀ account, state address = some account →
    address = env.transaction.sourceAddress ∧
        TransactionFrm.signerHashPriv lib env account (-1) = true ∨
      ∃ ope ∈ env.transaction.operations, env.transaction.operationSource ope = address ∧
        TransactionFrm.signerHashPriv lib env account ope.body.type = true}

/-- What a transaction costs: nothing when it is passed over, its limit when it fails, and
otherwise its gas at its price, but not more than the limit.  From version 1003 on its own
gas is a part of that.  It also costs its limit if it has caught an expiry. -/
def Costs (lib : Library) (lcl : Closed) (rt : Runtime) (env : TransactionEnv) (cost : ℤ) :
    Option LedgerFrm.TxStatus → Prop
  | none => cost = 0
  | some .succeeded => (0 ≤ cost ∧ cost ≤ env.transaction.feeLimit.toInt) ∧
      ((∃ gas : ℤ, cost = gas * env.transaction.gasPrice.toInt ∧
          (lcl.version > 1002 → (TransactionFrm.getSelfGas lib env).toInt ≤ gas)) ∨
        ((∃ applied, rt.caughtExpiry env applied = true) ∧
          cost = env.transaction.feeLimit.toInt))
  | some _ => 0 ≤ cost ∧ cost = env.transaction.feeLimit.toInt

/-- No account of a tree has less than nothing. -/
def Solvent (tree : Table (Option Bytes) AccountFrm) : Prop :=
  ∀ key account, tree.lookup key = some account → 0 ≤ account.balance.toInt

variable {lib : Library} {lcl : Closed} {rt : Runtime} {c c' c₁ c₂ : LedgerContext}
  {actors : Set Address} {env : TransactionEnv} {address : Address} {account : AccountFrm}
  {amount amount' : ℤ}

/-! ## The root -/

namespace Solid

theorem spelled (hsolid : Solid lcl 0 c) : Spelled c :=
  ⟨⟨hsolid.stands.accounts, hsolid.stands.settings⟩, hsolid.canonical⟩

theorem commit_zero (hsolid : Solid lcl 0 c) : Solid lcl 0 (c.commit 0) := by
  have hspelled := hsolid.spelled.commit
  refine ⟨⟨hspelled.rooted.accounts, hspelled.rooted.settings⟩, hspelled.canonical, ?_⟩
  show Funded lcl ((c.commit 0).reads lcl)
  rw [hsolid.spelled.reads_commit]
  exact hsolid.funded

/-- A commit settles the root. -/
theorem settles_commit (hsolid : Solid lcl 0 c) : Settles lcl (c.commit 0) := by
  refine ⟨?_, fun address => ?_⟩
  · rw [hsolid.spelled.shown_commit]
    exact hsolid.funded
  · rw [hsolid.spelled.shown_commit, hsolid.spelled.reads_commit]

end Solid

namespace Short

theorem paid (hshort : Short lcl c amount) (hpaid : Paid lcl 0 actors c c' amount') :
    Short lcl c' (amount - amount') := by
  refine ⟨hpaid.solid, ?_⟩
  have hshifts := hshort.shifts.trans hpaid.shifts
  rwa [show -amount + amount' = -(amount - amount') by ring] at hshifts

theorem congr (hshort : Short lcl c amount) (heq : amount' = amount) : Short lcl c amount' :=
  heq ▸ hshort

theorem commit (hshort : Short lcl c amount) : Short lcl (c.commit 0) amount := by
  refine ⟨hshort.solid.commit_zero, ?_⟩
  rw [hshort.solid.spelled.reads_commit]
  exact hshort.shifts

/-- What is in the tree when the block is written. -/
theorem totalCoins_commit (hshort : Short lcl c amount) (hsettles : Settles lcl c) :
    totalCoins (LedgerFrm.commit lcl c) = totalCoins lcl.tree - amount := by
  rw [sub_eq_add_neg]
  exact hshort.solid.spelled.total_commit hsettles.funded.kept (fun _ _ _ => rfl)
    (hshort.shifts.congr (fun _ => rfl) hsettles.coins_eq)

theorem solvent_commit (hshort : Short lcl c amount) (hsettles : Settles lcl c)
    (htree : Solvent lcl.tree) : Solvent (LedgerFrm.commit lcl c) := by
  intro key account hfound
  by_cases hmem : ∃ address ∈ c.data, decodeAddress address = key
  · obtain ⟨address, hmem, rfl⟩ := hmem
    rw [hshort.solid.spelled.lookup_commit hsettles.funded.kept hmem] at hfound
    obtain ⟨old, hshown, rfl⟩ := Option.map_eq_some_iff.mp hfound
    exact hsettles.funded.nonneg address old hshown
  · push Not at hmem
    rw [LedgerFrm.lookup_commit_of_forall_ne hmem] at hfound
    exact htree key account hfound

/-- **No account has more than there is in all.**  What an account has and what the
accounts are short of are two parts of the total. -/
theorem balance_add_le (hshort : Short lcl c amount) (htree : Solvent lcl.tree)
    (haddress : Canonical address) (hread : c.reads lcl address = some account) :
    account.balance.toInt + amount ≤ totalCoins lcl.tree := by
  have hspelled := hshort.solid.spelled
  have hsettles := hshort.solid.settles_commit
  have hshown : shown lcl (c.commit 0).data address = some account := by
    rw [hspelled.shown_commit]
    exact hread
  have hweight : weight (fun _ account => account.balance.toInt)
      (LedgerFrm.commit lcl (c.commit 0)) (decodeAddress address) = account.balance.toInt := by
    by_cases hmem : address ∈ (c.commit 0).data
    · rw [weight, hspelled.commit.lookup_commit hsettles.funded.kept hmem, hshown]
      rfl
    · have hne : ∀ other ∈ (c.commit 0).data, decodeAddress other ≠ decodeAddress address :=
        fun other hother hdecode => hmem <|
          (hspelled.commit.canonical_data hother).eq_of_decodeAddress haddress hdecode ▸ hother
      rw [shown, view_cons_of_not_mem (AList.lookup_eq_none.mpr hmem)] at hshown
      rw [weight, LedgerFrm.lookup_commit_of_forall_ne hne]
      exact congrArg (Option.elim · 0 fun account => account.balance.toInt) hshown
  have hle := weight_le_total (decodeAddress address)
    (hshort.commit.solvent_commit hsettles htree)
  rw [hweight] at hle
  have htotal := hshort.commit.totalCoins_commit hsettles
  rw [totalCoins] at htotal
  omega

/-- What the accounts are short of has come out of the tree. -/
theorem amount_le (hshort : Short lcl c amount) (htree : Solvent lcl.tree) :
    amount ≤ totalCoins lcl.tree := by
  have hsettles := hshort.solid.settles_commit
  have hrest : 0 ≤ totalCoins (LedgerFrm.commit lcl (c.commit 0)) :=
    total_nonneg (hshort.commit.solvent_commit hsettles htree)
  rw [hshort.commit.totalCoins_commit hsettles] at hrest
  omega

end Short

namespace Levied

theorem refl (hsolid : Solid lcl 0 c) : Levied lcl actors c c := by
  refine ⟨hsolid, ?_, .of_eq (List.suffix_refl _) fun _ => rfl⟩
  rw [sub_self]
  exact .of_eq fun _ => rfl

theorem trans (hfirst : Levied lcl actors c c₁) (hsecond : Levied lcl actors c₁ c') :
    Levied lcl actors c c' := by
  refine ⟨hsecond.solid, ?_, hfirst.spares.trans hsecond.spares⟩
  have hshifts := hfirst.shifts.trans hsecond.shifts
  rwa [sub_add_sub_cancel] at hshifts

/-- Two steps, where who acts in the second may depend on what the first has left. -/
theorem trans_of {first second : Set Address} (hfirst : Levied lcl first c c₁)
    (hsecond : Levied lcl second c₁ c') (hsubset : first ⊆ actors)
    (hactors : ∀ address account account', address ∉ actors → c.reads lcl address = some account →
      c₁.reads lcl address = some account' → account.Spared account' → address ∉ second) :
    Levied lcl actors c c' := by
  refine ⟨hsecond.solid, ?_, hfirst.spares.trans_of hsecond.spares hsubset hactors⟩
  have hshifts := hfirst.shifts.trans hsecond.shifts
  rwa [sub_add_sub_cancel] at hshifts

/-- What is paid is collected. -/
theorem of_paid (hpaid : Paid lcl 0 actors c c' amount)
    (hfee : c'.totalFee.toInt = c.totalFee.toInt - amount) : Levied lcl actors c c' := by
  refine ⟨hpaid.solid, ?_, hpaid.spares⟩
  rw [hfee, sub_sub_cancel]
  exact hpaid.shifts

/-- Only the environment and the fees matter. -/
theorem of_environment (hsolid : Solid lcl 0 c) (henvironment : c'.environment = c.environment)
    (htotalFee : c'.totalFee = c.totalFee) (hjournal : c.journal <:+ c'.journal) :
    Levied lcl actors c c' := by
  have hreads : c'.reads lcl = c.reads lcl := by rw [reads, reads, tables, tables, henvironment]
  refine ⟨hsolid.of_environment henvironment, ?_, .of_eq hjournal (congrFun hreads)⟩
  rw [hreads, htotalFee, sub_self]
  exact .of_eq fun _ => rfl

theorem commit (hsolid : Solid lcl 0 c) : Levied lcl actors c (c.commit 0) := by
  have hreads : (c.commit 0).reads lcl = c.reads lcl := hsolid.spelled.reads_commit lcl
  have hjournal : c.journal <:+ (c.commit 0).journal :=
    (show Effects lcl c (c.commit 0) from .single (.commit c 0)).journal_suffix
  refine ⟨hsolid.commit_zero, ?_, .of_eq hjournal
    (congrFun hreads)⟩
  rw [hreads, show (c.commit 0).totalFee = c.totalFee from rfl, sub_self]
  exact .of_eq fun _ => rfl

end Levied

namespace Pooled

theorem levied (hpooled : Pooled lcl c) (hlevied : Levied lcl actors c c')
    (hnonneg : 0 ≤ c'.totalFee.toInt) : Pooled lcl c' := by
  refine ⟨⟨hlevied.solid, ?_⟩, hnonneg⟩
  have hshifts := hpooled.shifts.trans hlevied.shifts
  rwa [show -c.totalFee.toInt + (c.totalFee.toInt - c'.totalFee.toInt) = -c'.totalFee.toInt by
    ring] at hshifts

/-- Only the environment and the fees matter. -/
theorem of_environment (hpooled : Pooled lcl c) (henvironment : c'.environment = c.environment)
    (htotalFee : c'.totalFee = c.totalFee) : Pooled lcl c' := by
  refine ⟨⟨hpooled.solid.of_environment henvironment, ?_⟩, htotalFee ▸ hpooled.nonneg⟩
  rw [reads, tables, henvironment, htotalFee]
  exact hpooled.shifts

theorem commit (hpooled : Pooled lcl c) : Reconciled lcl (c.commit 0) where
  toShort := hpooled.toShort.commit
  nonneg := hpooled.nonneg
  settles := hpooled.solid.settles_commit

end Pooled

namespace Reconciled

/-- Only the environment and the fees matter. -/
theorem of_environment (hreconciled : Reconciled lcl c)
    (henvironment : c'.environment = c.environment) (htotalFee : c'.totalFee = c.totalFee) :
    Reconciled lcl c' := by
  refine ⟨hreconciled.toPooled.of_environment henvironment htotalFee, ?_, fun address => ?_⟩
  · rw [LedgerContext.data, henvironment]
    exact hreconciled.settles.funded
  · rw [LedgerContext.data, reads, tables, henvironment]
    exact hreconciled.settles.coins_eq address

/-- A read. -/
theorem read (hreconciled : Reconciled lcl c) (actors : Set Address) {found : Option AccountFrm}
    (hget : c.getEntry lcl 0 address = (found, c')) (hsighted : c'.Sighted lcl) :
    Reconciled lcl c' ∧ Levied lcl actors c c' := by
  have hlevied : Levied lcl actors c c' := .of_paid (hreconciled.solid.read actors hget hsighted).1
    (by rw [getEntry_totalFee hget, sub_zero])
  obtain rfl : (c.getEntry lcl 0 address).2 = c' := by rw [hget]
  have hreads : (c.getEntry lcl 0 address).2.reads lcl = c.reads lcl :=
    funext fun other => view_getEntry hreconciled.solid.wide address other
  refine ⟨⟨hreconciled.toPooled.levied hlevied hreconciled.nonneg, ?_, fun other => ?_⟩, hlevied⟩
  · rw [data_getEntry hreconciled.solid.wide]
    exact hreconciled.settles.funded
  · rw [data_getEntry hreconciled.solid.wide, hreads]
    exact hreconciled.settles.coins_eq other

end Reconciled

/-! ## The fee limit -/

namespace TransactionFrm

theorem validForParameter_of_validForApply
    (hvalid : validForApply lib lcl env 0 c = (.success, c')) :
    validForParameter lib lcl env 0 = .success := by
  unfold validForApply at hvalid
  split at hvalid
  · rename_i hparameter
    exact hparameter
  · rename_i hcode
    exact absurd (congrArg Prod.fst hvalid) hcode

/-- The transaction at the bottom of the stack has a fee limit and a gas price. -/
theorem nonneg_of_validForParameter (hvalid : validForParameter lib lcl env 0 = .success) :
    0 ≤ env.transaction.feeLimit.toInt ∧ 0 ≤ env.transaction.gasPrice.toInt := by
  unfold validForParameter at hvalid
  dsimp only at hvalid
  split_ifs at hvalid with _ _ _ _ _ _ hlimit hprice
  rw [not_and, Int64.lt_iff_toInt_lt, Int64.toInt_zero] at hlimit
  rw [not_and, Int64.lt_iff_toInt_lt] at hprice
  have hlimit := hlimit rfl
  have hprice := hprice rfl
  have hmax : max 0 lcl.fees.gasPrice =
      if (0 : Int64) ≤ lcl.fees.gasPrice then lcl.fees.gasPrice else 0 := rfl
  rw [hmax] at hprice
  split at hprice
  · rename_i hnonneg
    rw [Int64.le_iff_toInt_le, Int64.toInt_zero] at hnonneg
    omega
  · rw [Int64.toInt_zero] at hprice
    omega

/-- An account that passed `CheckFee` can pay the fee limit. -/
theorem exists_of_checkFee (hcheck : checkFee lib lcl env account = .success) :
    ∃ limitBalance, safeIntSub account.balance env.transaction.feeLimit = some limitBalance ∧
      lcl.fees.baseReserve.toInt ≤ limitBalance.toInt := by
  unfold checkFee at hcheck
  dsimp only at hcheck
  split at hcheck
  · cases hcheck
  · rename_i limitBalance hsub
    split_ifs at hcheck with hlow
    rw [Int64.lt_iff_toInt_lt] at hlow
    exact ⟨limitBalance, hsub, by omega⟩

/-- Looking at a transaction reads its source at most. -/
theorem validForApply_cases (lib : Library) (lcl : Closed) (env : TransactionEnv)
    (c : LedgerContext) :
    (validForApply lib lcl env 0 c).2 = c ∨ (validForApply lib lcl env 0 c).2 =
      (c.getEntry lcl 0 env.transaction.sourceAddress).2 := by
  unfold validForApply
  split
  · right
    rcases hget : c.getEntry lcl 0 env.transaction.sourceAddress with ⟨_ | account, c₁⟩
    · rfl
    · dsimp only
      split
      · rfl
      · split <;> rfl
  · exact .inl rfl

theorem reconciled_validForApply (hreconciled : Reconciled lcl c) (actors : Set Address)
    (hsighted : (validForApply lib lcl env 0 c).2.Sighted lcl) :
    Reconciled lcl (validForApply lib lcl env 0 c).2 ∧
      Levied lcl actors c (validForApply lib lcl env 0 c).2 := by
  rcases validForApply_cases lib lcl env c with hsame | hread
  · rw [hsame]
    exact ⟨hreconciled, .refl hreconciled.solid⟩
  · rw [hread] at hsighted ⊢
    exact hreconciled.read actors (Prod.ext rfl rfl) hsighted

/-- The source of an accepted transaction has signed for it. -/
theorem signed_of_validForApply (hvalid : validForApply lib lcl env 0 c = (.success, c₁)) :
    ∃ account, c.getEntry lcl 0 env.transaction.sourceAddress = (some account, c₁) ∧
      signerHashPriv lib env account (-1) = true := by
  obtain ⟨account, hget, -⟩ := validForApply_success hvalid
  refine ⟨account, hget, ?_⟩
  unfold validForApply at hvalid
  rw [validForParameter_of_validForApply hvalid, hget] at hvalid
  dsimp only at hvalid
  split at hvalid
  · cases hvalid
  · split at hvalid
    · cases hvalid
    · rename_i hpriv
      exact (Bool.not_eq_false _).mp hpriv

theorem mem_signers_of_valid (hsolid : Solid lcl 0 c)
    (hvalid : validForApply lib lcl env 0 c = (.success, c₁)) (hsighted : c₁.Sighted lcl) :
    env.transaction.sourceAddress ∈ signers lib env (c.reads lcl) := by
  obtain ⟨account, hget, hpriv⟩ := signed_of_validForApply hvalid
  intro found hfound
  have hread := (hsolid.read ∅ hget hsighted).2
  rw [← hsolid.readsAt_read hget hsighted] at hread
  obtain rfl := Option.some.inj (hread.symm.trans hfound)
  exact .inl ⟨rfl, hpriv⟩

/-- What `PayFee` finds of a transaction that was accepted: it can pay its limit. -/
theorem payFee_of_valid (hvalid : validForApply lib lcl env 0 c = (.success, c₁))
    (hreserve : 0 ≤ lcl.fees.baseReserve.toInt) :
    ∃ account balance, (c₁.getEntry lcl 0 env.transaction.sourceAddress).1 = some account ∧
      safeIntSub account.balance env.transaction.feeLimit = some balance ∧ 0 ≤ balance.toInt := by
  obtain ⟨account, hget, -, hcheck⟩ := validForApply_success hvalid
  obtain ⟨limitBalance, hsub, hlow⟩ := exists_of_checkFee hcheck
  exact ⟨account, limitBalance, getEntry_twice hget, hsub, by omega⟩

/-- **The fee limit is taken.**  An accepted transaction pays it or is passed over. -/
theorem levied_payFee (hreconciled : Reconciled lcl c)
    (hvalid : validForApply lib lcl env 0 c = (.success, c₁))
    (hreserve : 0 ≤ lcl.fees.baseReserve.toInt)
    (hactor : env.transaction.sourceAddress ∈ actors) {paid : Bool}
    (hpay : payFee lcl env 0 c₁ = (paid, c₂)) (hsighted : c₂.Sighted lcl) :
    Levied lcl actors c c₂ ∧
      (paid = false → Reconciled lcl c₂ ∧ c₂.totalFee = c.totalFee) ∧
      (paid = true →
        c₂.totalFee.toInt = c.totalFee.toInt + env.transaction.feeLimit.toInt ∧
        (c₂.reads lcl env.transaction.sourceAddress).isSome) := by
  have hvalidated := effects_validForApply lib lcl env 0 c
  have hpaying := effects_payFee lcl env 0 c₁
  have hlooked := @reconciled_validForApply lib lcl c env hreconciled actors
  rw [hvalid] at hvalidated hlooked
  rw [hpay] at hpaying
  obtain ⟨hreconciled₁, hlevied₁⟩ := hlooked (hsighted.of_effects hpaying)
  obtain ⟨account, balance, hfound, hsub, hrest⟩ := payFee_of_valid hvalid hreserve
  obtain ⟨_, hread₁, -⟩ := validForApply_success hvalid
  have hfees₁ := getEntry_totalFee hread₁
  unfold payFee at hpay
  dsimp only at hpay
  rcases hget : c₁.getEntry lcl 0 env.transaction.sourceAddress with ⟨found, c₃⟩
  rw [hget] at hfound hpay
  obtain rfl : found = some account := hfound
  have hfees₃ := getEntry_totalFee hget
  dsimp only at hpay
  rw [hsub] at hpay
  split at hpay
  · obtain ⟨rfl, rfl⟩ := Prod.mk.inj hpay
    obtain ⟨hreconciled₃, hlevied₃⟩ := hreconciled₁.read actors hget hsighted
    exact ⟨hlevied₁.trans hlevied₃, fun _ => ⟨hreconciled₃, hfees₃.trans hfees₁⟩, nofun⟩
  · rename_i totalFee hadd
    obtain ⟨rfl, rfl⟩ := Prod.mk.inj hpay
    obtain ⟨hreconciled₃, hlevied₃⟩ := hreconciled₁.read actors hget (hsighted.of_effects
      ((Effects.fee totalFee).trans (Effects.setBalance 0 _ balance)))
    have hraised : Paid lcl 0 actors c₃ { c₃ with totalFee := totalFee } 0 :=
      .of_environment hreconciled₃.solid rfl (.of_eq rfl) (List.suffix_refl _)
    have hderef : ({ c₃ with totalFee := totalFee } : LedgerContext).deref 0
        env.transaction.sourceAddress = some account := by
      show c₃.deref 0 env.transaction.sourceAddress = some account
      exact deref_getEntry hget
    have hdebit := (hraised.solid.setBalance hactor hderef hrest).after hraised
    have hsum := safeIntAdd_eq_some_iff.mp hadd
    have hdiff := safeIntSub_eq_some_iff.mp hsub
    have htaken : Levied lcl actors c₃ (LedgerContext.modifyEntry 0
        env.transaction.sourceAddress (·.setBalance balance) { c₃ with totalFee := totalFee }) := by
      refine .of_paid hdebit ?_
      show totalFee.toInt = _
      omega
    refine ⟨(hlevied₁.trans hlevied₃).trans htaken, nofun, fun _ => ⟨?_, ?_⟩⟩
    · show totalFee.toInt = _
      rw [hsum, hfees₃, hfees₁]
    · refine htaken.spares.kept _ ?_
      rw [reads, view_of_deref hreconciled₃.solid.wide hderef]
      rfl

/-- The last part of `ReturnFee`, with what is left of the fee limit. -/
def refund (lcl : Closed) (env : TransactionEnv) (fee : Int64) (c : LedgerContext) :
    LedgerContext :=
  match c.getEntry lcl 0 env.transaction.sourceAddress with
  | (none, c) => c
  | (some account, c) =>
      match safeIntSub c.totalFee fee with
      | none => c
      | some totalFee =>
          let c := { c with totalFee := totalFee }
          match safeIntAdd account.balance fee with
          | none => c
          | some newBalance =>
              c.modifyEntry 0 env.transaction.sourceAddress (·.setBalance newBalance)

/-- Nothing is given back to a transaction whose result is not a success. -/
theorem returnFee_of_ne_success {result : ErrCode} (hresult : result ≠ .success) (gas : Int64)
    (c : LedgerContext) : returnFee lcl env result gas 0 c = c := by
  dsimp only [returnFee]
  split
  · rfl
  · split
    · rfl
    · exact if_pos (.inl hresult)

/-- Nothing is given back, or what the fee leaves of the limit. -/
theorem returnFee_eq (lcl : Closed) {gas actualFee : Int64}
    (hmul : safeIntMul gas env.transaction.gasPrice = some actualFee)
    (hactual : 0 ≤ actualFee.toInt ∧ actualFee.toInt ≤ env.transaction.feeLimit.toInt)
    (c : LedgerContext) :
    ∃ fee : Int64, fee.toInt = env.transaction.feeLimit.toInt - actualFee.toInt ∧
      returnFee lcl env .success gas 0 c = if fee ≤ 0 then c else refund lcl env fee c := by
  have hhigh := env.transaction.feeLimit.toInt_lt
  obtain ⟨fee, hsub, hfee⟩ := exists_safeIntSub (x := env.transaction.feeLimit)
    (y := actualFee) (by omega) (by omega)
  refine ⟨fee, hfee, ?_⟩
  dsimp only [returnFee]
  rw [hmul]
  dsimp only
  rw [hsub]
  simp only [ne_eq, not_true_eq_false, false_or]
  rfl

/-- A part of what was collected goes back to the source, which has an account: the sum with
its balance is not more than there is in all. -/
theorem levied_refund (hpooled : Pooled lcl c) (htree : Solvent lcl.tree)
    (hlow : totalCoins lcl.tree < 2 ^ 63) {fee : Int64} (hpos : 0 < fee.toInt)
    (hpart : fee.toInt ≤ c.totalFee.toInt)
    (hsource : (c.reads lcl env.transaction.sourceAddress).isSome)
    (hsighted : (refund lcl env fee c).Sighted lcl) :
    Levied lcl actors c (refund lcl env fee c) ∧
      (refund lcl env fee c).totalFee.toInt = c.totalFee.toInt - fee.toInt := by
  unfold refund at hsighted ⊢
  rcases hget : c.getEntry lcl 0 env.transaction.sourceAddress with ⟨_ | account, c₁⟩
  · rw [hget] at hsighted
    have hnone := (hpooled.solid.read actors hget hsighted).2
    rw [← hpooled.solid.readsAt_read hget hsighted] at hnone
    rw [show c.reads lcl env.transaction.sourceAddress = none from hnone] at hsource
    cases hsource
  · rw [hget] at hsighted
    dsimp only at hsighted ⊢
    have hfees := getEntry_totalFee hget
    have hhigh := c.totalFee.toInt_lt
    obtain ⟨totalFee, hsub, hrest⟩ := exists_safeIntSub (x := c₁.totalFee) (y := fee)
      (by rw [hfees]; omega) (by rw [hfees]; omega)
    rw [hfees] at hrest
    have hsighted₁ : ∀ c₂, Effects lcl { c₁ with totalFee := totalFee } c₂ → c₂.Sighted lcl →
        c₁.Sighted lcl := fun c₂ heffects hsighted₂ =>
      hsighted₂.of_effects ((Effects.fee totalFee).trans heffects)
    rw [hsub] at hsighted ⊢
    dsimp only at hsighted ⊢
    have hsighted₁ : c₁.Sighted lcl := by
      cases hadd : safeIntAdd account.balance fee with
      | none =>
          rw [hadd] at hsighted
          exact hsighted₁ _ .refl hsighted
      | some balance =>
          rw [hadd] at hsighted
          exact hsighted₁ _ (Effects.setBalance 0 _ balance) hsighted
    obtain ⟨hread, hfound⟩ := hpooled.solid.read actors hget hsighted₁
    have hlowered : Paid lcl 0 actors c₁ { c₁ with totalFee := totalFee } 0 :=
      .of_environment hread.solid rfl (.of_eq rfl) (List.suffix_refl _)
    have hlowering := hlowered.after hread
    have hcanonical : Canonical env.transaction.sourceAddress := by
      obtain rfl : (c.getEntry lcl 0 env.transaction.sourceAddress).2 = c₁ := by rw [hget]
      exact hsighted₁.canonical (c.tables 0) _ List.mem_cons_self
    have hderef : ({ c₁ with totalFee := totalFee } : LedgerContext).deref 0
        env.transaction.sourceAddress = some account := by
      show c₁.deref 0 env.transaction.sourceAddress = some account
      exact deref_getEntry hget
    have hnonneg := hlowering.solid.balance_nonneg hderef
    have hbound := hpooled.toShort.balance_add_le htree hcanonical
      ((hpooled.solid.readsAt_read hget hsighted₁).trans hfound)
    obtain ⟨balance, hadd, hsum⟩ := exists_safeIntAdd (x := account.balance) (y := fee)
      (by omega) (by omega)
    rw [hadd]
    have hcredit := (hlowering.solid.credit actors hderef
      (show account.balance.toInt ≤ balance.toInt by omega)).after hlowering
    refine ⟨.of_paid hcredit ?_, hrest⟩
    show totalFee.toInt = _
    omega

/-- **What is left of the fee limit is given back.** -/
theorem levied_returnFee (hpooled : Pooled lcl c) (htree : Solvent lcl.tree)
    (hlow : totalCoins lcl.tree < 2 ^ 63)
    (hlimit : env.transaction.feeLimit.toInt ≤ c.totalFee.toInt) {gas actualFee : Int64}
    (hmul : safeIntMul gas env.transaction.gasPrice = some actualFee)
    (hactual : 0 ≤ actualFee.toInt ∧ actualFee.toInt ≤ env.transaction.feeLimit.toInt)
    (hsource : (c.reads lcl env.transaction.sourceAddress).isSome)
    {result : ErrCode} (hsighted : (returnFee lcl env result gas 0 c).Sighted lcl) :
    Levied lcl actors c (returnFee lcl env result gas 0 c) ∧
      (returnFee lcl env result gas 0 c).totalFee.toInt =
        if result = .success then
          c.totalFee.toInt - env.transaction.feeLimit.toInt + actualFee.toInt
        else c.totalFee.toInt := by
  by_cases hresult : result ≠ .success
  · rw [returnFee_of_ne_success hresult, if_neg hresult]
    exact ⟨.refl hpooled.solid, rfl⟩
  obtain rfl := not_not.mp hresult
  rw [if_pos rfl]
  obtain ⟨fee, hfee, hreturn⟩ := returnFee_eq lcl hmul hactual c
  rw [hreturn] at hsighted ⊢
  by_cases hzero : fee ≤ 0
  · rw [if_pos hzero]
    rw [Int64.le_iff_toInt_le, Int64.toInt_zero] at hzero
    exact ⟨.refl hpooled.solid, by omega⟩
  · rw [if_neg hzero] at hsighted ⊢
    rw [Int64.le_iff_toInt_le, Int64.toInt_zero] at hzero
    obtain ⟨hlevied, hrest⟩ := @levied_refund lcl c actors env hpooled htree hlow fee
      (by omega) (by omega) hsource hsighted
    exact ⟨hlevied, by omega⟩

end TransactionFrm

/-! ## A transaction -/

/-- The gas of a metered transaction at its price. -/
theorem LedgerContext.Metered.ownGas_mul_le {size : ℕ} (hmetered : c.Metered env size)
    (hlimit : 0 ≤ env.transaction.feeLimit.toInt) (hprice : 0 < env.transaction.gasPrice.toInt) :
    0 ≤ (ownGas size c).toInt ∧
      (ownGas size c).toInt * env.transaction.gasPrice.toInt ≤
        env.transaction.feeLimit.toInt := by
  unfold ownGas
  cases htx : c.transactionStack.reverse[size]? with
  | none =>
      refine ⟨le_rfl, ?_⟩
      rw [Option.map_none, Option.getD_none, Int64.toInt_zero, zero_mul]
      exact hlimit
  | some tx => exact (hmetered tx htx).actualGas hprice

/-- The fee of a metered transaction, some gas at its price. -/
theorem LedgerContext.Metered.exists_fee {size : ℕ} (hmetered : c.Metered env size)
    (hlimit : 0 ≤ env.transaction.feeLimit.toInt) (hprice : 0 ≤ env.transaction.gasPrice.toInt)
    (selfGas : Int64) :
    ∃ (actualFee : Int64) (gas : ℤ),
      safeIntMul (ownGas size c) env.transaction.gasPrice = some actualFee ∧
      (0 ≤ actualFee.toInt ∧ actualFee.toInt ≤ env.transaction.feeLimit.toInt) ∧
      actualFee.toInt = gas * env.transaction.gasPrice.toInt ∧
      ((0 < env.transaction.gasPrice.toInt → selfGas.toInt ≤ (ownGas size c).toInt) →
        selfGas.toInt ≤ gas) := by
  have hmin : ¬ (ownGas size c = -1 ∧ env.transaction.gasPrice = Int64.minValue) := by
    rintro ⟨-, hmin⟩
    rw [hmin, Int64.toInt_minValue] at hprice
    omega
  rcases hprice.eq_or_lt with hzero | hpos
  · -- nothing is paid for any gas
    refine ⟨0, selfGas.toInt, (safeIntMul_eq_some_iff hmin).mpr ?_, ⟨le_rfl, hlimit⟩, ?_,
      fun _ => le_rfl⟩
    · rw [← hzero, mul_zero, Int64.toInt_zero]
    · rw [← hzero, mul_zero, Int64.toInt_zero]
  · obtain ⟨hgas, hle⟩ := hmetered.ownGas_mul_le hlimit hpos
    have hnonneg := mul_nonneg hgas hprice
    have hhigh := env.transaction.feeLimit.toInt_lt
    have hvalue := Int64.toInt_ofInt_of_le (show -2 ^ 63 ≤ (ownGas size c).toInt *
      env.transaction.gasPrice.toInt by omega) (by omega)
    exact ⟨_, _, (safeIntMul_eq_some_iff hmin).mpr hvalue, hvalue.symm ▸ ⟨hnonneg, hle⟩, hvalue,
      fun hself => hself hpos⟩

namespace LedgerFrm

theorem totalFee_charge (lcl : Closed) (env : TransactionEnv) (c : LedgerContext) :
    (charge lcl env c).totalFee = c.totalFee :=
  (TransactionFrm.within_nonceIncrease (Nat.zero_le 0) lcl env (c.push { env := env })).totalFee

/-- The nonce of the source grows, and the charge is committed. -/
theorem reconciled_charge (hpooled : Pooled lcl c)
    (hactor : env.transaction.sourceAddress ∈ actors)
    (hsighted : (charge lcl env c).Sighted lcl) :
    Reconciled lcl (charge lcl env c) ∧ Levied lcl actors c (charge lcl env c) := by
  have hpushed : Levied lcl actors c (c.push { env := env }) :=
    .of_environment hpooled.solid rfl rfl (List.suffix_refl _)
  have hfees : (TransactionFrm.nonceIncrease lcl env 0 (c.push { env := env })).totalFee =
      c.totalFee := totalFee_charge lcl env c
  have hnonce := paid_nonceIncrease hpushed.solid hactor
    ((hsighted.of_suffix (List.suffix_cons _ _)).of_effects (.single (.commit _ 0)))
  have hraised := hpushed.trans (.of_paid hnonce (by rw [hfees, sub_zero]; rfl))
  have hpooled' := hpooled.levied hraised (hfees ▸ hpooled.nonneg)
  refine ⟨hpooled'.commit.of_environment rfl rfl, ?_⟩
  exact (hraised.trans (.commit hraised.solid)).trans
    (.of_environment hraised.solid.commit_zero rfl rfl (List.suffix_cons _ _))

/-- The transaction that was charged has used no gas yet. -/
theorem metered_charge (hvalid : TransactionFrm.validForParameter lib lcl env 0 = .success)
    (hlimit : env.transaction.feeLimit.toInt ≤ 2 ^ 62) (c : LedgerContext) (level : ℕ) :
    ((charge lcl env c).setTopEnvironment level).Metered env c.transactionStack.length := by
  obtain ⟨hnonneg, hprice⟩ := TransactionFrm.nonneg_of_validForParameter hvalid
  intro tx htx
  rw [setTopEnvironment, stack_charge, List.modifyHead_cons, List.reverse_cons,
    List.getElem?_append_right (by rw [List.length_reverse]), List.length_reverse, Nat.sub_self]
    at htx
  obtain rfl := Option.some.inj htx
  refine ⟨rfl, hprice, hlimit, fun _ => ⟨le_rfl, ?_⟩⟩
  rw [show ({ env := env, environment := some level } : StackTx).actualGas.toInt = 0 from rfl,
    zero_mul]
  exact hnonneg

/-- A transaction that is alone on the stack has used its own gas when it begins. -/
theorem ownGas_addActualFee (hstack : c.transactionStack = [])
    (hfee : ((charge lcl env c).setTopEnvironment 0).addActualFee lib env = (.success, c₁)) :
    ownGas c.transactionStack.length c₁ = TransactionFrm.getSelfGas lib env := by
  have hadded : c₁.transactionStack = (((charge lcl env c).setTopEnvironment 0).addActualGas
      (TransactionFrm.getSelfGas lib env)).transactionStack := by
    unfold addActualFee at hfee
    dsimp only at hfee
    split at hfee
    · obtain ⟨-, rfl⟩ := Prod.mk.inj hfee
      rfl
    · split at hfee
      · cases hfee
      · split at hfee
        · cases hfee
        · obtain ⟨-, rfl⟩ := Prod.mk.inj hfee
          rfl
  have hreverse := reverse_addActualGas (TransactionFrm.getSelfGas lib env)
    ((charge lcl env c).setTopEnvironment 0)
  have hbelow : ((charge lcl env c).setTopEnvironment 0).transactionStack =
      [{ env := env, environment := some 0 }] := by
    rw [setTopEnvironment, stack_charge, hstack]
    rfl
  rw [ownGas, hadded, hreverse, hbelow, hstack]
  exact Int64.zero_add _

/-- A transaction that succeeded, before what is left of its limit is given back. -/
theorem levied_execute (hreserve : 0 ≤ lcl.fees.baseReserve.toInt)
    (hvalid : TransactionFrm.validForParameter lib lcl env 0 = .success)
    (hlimit : env.transaction.feeLimit.toInt ≤ 2 ^ 62) (hsolid : Solid lcl 0 (charge lcl env c))
    (hexecute : execute lib lcl rt env (charge lcl env c) = (.success, c'))
    (hsighted : c'.Sighted lcl) :
    Levied lcl (TransactionFrm.acting lib env false env.transaction.operations
        ((charge lcl env c).reads lcl)) (charge lcl env c) c' ∧
      c'.Metered env c.transactionStack.length ∧
      (c.transactionStack = [] → 0 < env.transaction.gasPrice.toInt →
        (TransactionFrm.getSelfGas lib env).toInt ≤
          (ownGas c.transactionStack.length c').toInt) := by
  have hstack := stack_charge lcl env c
  have hne : (charge lcl env c).transactionStack ≠ [] := hstack ▸ List.cons_ne_nil _ _
  have htop : Solid lcl 0 ((charge lcl env c).setTopEnvironment 0) := hsolid.of_environment rfl
  obtain ⟨c₁, hfee, hadded, hrun⟩ := TransactionFrm.paid_apply
    (fun index => (Program.conserves hreserve
      (rt.program env (charge lcl env c) index)).execution 0) hreserve htop hne hvalid
    hexecute hsighted
  have hfees := (@beneath_execute_charge lcl lib rt env c).totalFee
  rw [hexecute] at hfees
  have hlength : c.transactionStack.length <
      ((charge lcl env c).setTopEnvironment 0).transactionStack.length := by
    rw [setTopEnvironment, hstack, List.modifyHead_cons, List.length_cons]
    exact Nat.lt_succ_self _
  have hstarted := ((hadded ∅).stacked.metered _ _ hlength (metered_charge hvalid hlimit c 0)).1
  obtain ⟨hmetered, hgas⟩ := hrun.stacked.metered _ _
    (hlength.trans_eq (hadded ∅).stacked.length_eq.symm) hstarted
  refine ⟨?_, hmetered, fun hempty hprice => ?_⟩
  · have hbegun : Levied lcl (TransactionFrm.acting lib env false env.transaction.operations
        ((charge lcl env c).reads lcl)) (charge lcl env c)
        ((charge lcl env c).setTopEnvironment 0) :=
      .of_environment hsolid rfl rfl (List.suffix_refl _)
    refine hbegun.trans (.of_paid (hrun.after (hadded _)) ?_)
    rw [hfees, sub_zero]
    rfl
  · rw [← ownGas_addActualFee hempty hfee]
    exact hgas hprice

/-- A closed ledger on which no sum of coins overflows. -/
structure Bounded (lcl : Closed) : Prop where
  reserve : 0 ≤ lcl.fees.baseReserve.toInt
  tree : Solvent lcl.tree
  low : totalCoins lcl.tree ≤ 2 ^ 62

/-- **A transaction whose fee limit was taken**, whatever becomes of it. -/
theorem reconciled_applyCharged (hbounded : Bounded lcl) (hpooled : Pooled lcl c)
    (hrested : Rested lcl c) (hcharged : Reconciled lcl (charge lcl env c))
    (hvalid : TransactionFrm.validForParameter lib lcl env 0 = .success)
    (hlimit : env.transaction.feeLimit.toInt ≤ c.totalFee.toInt)
    (hsource : ((charge lcl env c).reads lcl env.transaction.sourceAddress).isSome)
    (hsighted : (applyCharged lib lcl rt env c).2.Sighted lcl) :
    Reconciled lcl (applyCharged lib lcl rt env c).2 ∧
      Levied lcl (TransactionFrm.acting lib env false env.transaction.operations
        ((charge lcl env c).reads lcl)) (charge lcl env c) (applyCharged lib lcl rt env c).2 ∧
      Costs lib lcl rt env ((applyCharged lib lcl rt env c).2.totalFee.toInt -
          (c.totalFee.toInt - env.transaction.feeLimit.toInt))
        (some (applyCharged lib lcl rt env c).1) := by
  obtain ⟨hnonneg, hprice⟩ := TransactionFrm.nonneg_of_validForParameter hvalid
  by_cases hsucceeded : (applyCharged lib lcl rt env c).1 = .succeeded
  · -- what is left of the limit is given back, and committed
    have hlow : env.transaction.feeLimit.toInt ≤ 2 ^ 62 :=
      (hlimit.trans (hpooled.amount_le hbounded.tree)).trans hbounded.low
    unfold applyCharged at hsucceeded hsighted ⊢
    dsimp only at hsucceeded hsighted ⊢
    split at hsucceeded
    · cases hsucceeded
    · rename_i hexpired
      rw [if_neg hexpired] at hsighted ⊢
      split at hsucceeded
      · cases hsucceeded
      · rename_i hcode
        rw [if_neg hcode] at hsighted ⊢
        rcases hexecute : execute lib lcl rt env (charge lcl env c) with ⟨code, c₁⟩
        rw [hexecute] at hcode hsighted
        obtain rfl : code = .success := not_not.mp hcode
        dsimp only [settle] at hsighted ⊢
        have hreturned := hsighted.of_effects
          (((Relation.ReflTransGen.single (.commit _ 0)).trans (.single (.clear _ 0))).trans
            Effects.pop)
        obtain ⟨hexecuted, hmetered, hgas⟩ := levied_execute hbounded.reserve hvalid hlow
          hcharged.solid hexecute (hreturned.of_effects (TransactionFrm.effects_returnFee ..))
        have hfees := (@beneath_execute_charge lcl lib rt env c).totalFee
        rw [hexecute, totalFee_charge] at hfees
        obtain ⟨actualFee, gas, hmul, hactual, hcost, hown⟩ :=
          hmetered.exists_fee hnonneg hprice (TransactionFrm.getSelfGas lib env)
        obtain ⟨hrefunded, htotal⟩ := TransactionFrm.levied_returnFee
          (hcharged.toPooled.levied hexecuted (hfees ▸ hpooled.nonneg)) hbounded.tree
          (hbounded.low.trans_lt (by norm_num)) (hfees ▸ hlimit) hmul hactual
          (hexecuted.spares.kept _ hsource) hreturned
        have hdone := hexecuted.trans hrefunded
        rw [hfees] at htotal
        have hlast : 0 ≤ (TransactionFrm.returnFee lcl env (noted rt env c₁)
            (ownGas c.transactionStack.length c₁) 0 c₁).totalFee.toInt := by
          rw [htotal]
          split <;> omega
        have hclear := clearChangeBuf_commit (TransactionFrm.returnFee lcl env (noted rt env c₁)
          (ownGas c.transactionStack.length c₁) 0 c₁)
        refine ⟨(hcharged.toPooled.levied hdone hlast).commit.of_environment hclear rfl, ?_, ?_⟩
        · exact (hdone.trans (.commit hdone.solid)).trans
            (.of_environment hdone.solid.commit_zero hclear rfl (List.suffix_refl _))
        · have hpaid : (TransactionFrm.returnFee lcl env (noted rt env c₁)
              (ownGas c.transactionStack.length c₁) 0 c₁).totalFee.toInt -
                (c.totalFee.toInt - env.transaction.feeLimit.toInt) =
              if noted rt env c₁ = .success then actualFee.toInt
              else env.transaction.feeLimit.toInt := by
            rw [htotal]
            split <;> omega
          have hcosts : Costs lib lcl rt env (if noted rt env c₁ = .success then
              actualFee.toInt else env.transaction.feeLimit.toInt) (some .succeeded) := by
            split
            · exact ⟨hactual, .inl ⟨gas, hcost, fun hversion =>
                hown (hgas (hrested.stack hversion))⟩⟩
            · rename_i hnoted
              have hcaught : rt.caughtExpiry env c₁ = true := by
                by_contra hnot
                exact hnoted (if_neg hnot)
              exact ⟨⟨hnonneg, le_rfl⟩, .inr ⟨⟨c₁, hcaught⟩, rfl⟩⟩
          rw [← hpaid] at hcosts
          exact hcosts
  · obtain ⟨henvironment, htotalFee⟩ := @environment_applyCharged lib lcl rt env c
      hpooled.solid.spelled.rooted hsucceeded
    refine ⟨hcharged.of_environment henvironment htotalFee,
      .of_environment hcharged.solid henvironment htotalFee (journal_suffix_applyCharged rt env c),
      ?_⟩
    rw [htotalFee, totalFee_charge, sub_sub_cancel]
    cases hstatus : (applyCharged lib lcl rt env c).1 with
    | succeeded => exact absurd hstatus hsucceeded
    | failed => exact ⟨hnonneg, rfl⟩
    | expired => exact ⟨hnonneg, rfl⟩

/-- A turn of a block that is proposed or checked, between two transactions. -/
structure Billed (lib : Library) (lcl : Closed) (rt : Runtime) (t : Turn) : Prop where
  before : Reconciled lcl t.before
  after : Reconciled lcl t.after
  levied : Levied lcl (signers lib t.env (t.before.reads lcl)) t.before t.after
  costs : Costs lib lcl rt t.env (t.after.totalFee.toInt - t.before.totalFee.toInt) t.status

/-- Between two transactions the stack is as it should be. -/
theorem rested_turn {mode : Mode} (hmode : mode ≠ .follow) (listed : Bool)
    (hrested : Rested lcl c) : Rested lcl (turn lib lcl mode rt listed env c).2 := by
  have hadmitted : Rested lcl (admitted lib lcl mode env c).2 := by
    cases mode with
    | follow => exact absurd rfl hmode
    | _ => exact rested_validForApply hrested lib env
  unfold turn
  rcases hvalid : admitted lib lcl mode env c with ⟨_ | _, c₁⟩
  · rw [hvalid] at hadmitted
    exact hadmitted
  · rw [hvalid] at hadmitted
    have hpaying := rested_payFee hadmitted env
    dsimp only
    rcases hpay : TransactionFrm.payFee lcl env 0 c₁ with ⟨_ | _, c₂⟩
    · rw [hpay] at hpaying
      exact hpaying
    · rw [hpay] at hpaying
      have happlied := rested_applyCharged hpaying lib rt env
      cases mode with
      | follow => exact absurd rfl hmode
      | _ => exact happlied

/-- What becomes of an accepted transaction whose limit was taken. -/
theorem billed_applyCharged (hbounded : Bounded lcl) (hreconciled : Reconciled lcl c)
    (hvalid : TransactionFrm.validForApply lib lcl env 0 c = (.success, c₁))
    (hpay : TransactionFrm.payFee lcl env 0 c₁ = (true, c₂)) (hrested : Rested lcl c₂)
    (hsighted : (applyCharged lib lcl rt env c₂).2.Sighted lcl) :
    Billed lib lcl rt ⟨env, c, some (applyCharged lib lcl rt env c₂).1,
      (applyCharged lib lcl rt env c₂).2⟩ := by
  have hsighted₃ : (charge lcl env c₂).Sighted lcl :=
    hsighted.of_suffix (journal_suffix_applyCharged rt env c₂)
  have hsighted₂ : c₂.Sighted lcl := hsighted₃.of_suffix (journal_suffix_charge env c₂)
  have hpaying := TransactionFrm.effects_payFee lcl env 0 c₁
  rw [hpay] at hpaying
  have hsource := TransactionFrm.mem_signers_of_valid hreconciled.solid hvalid
    (hsighted₂.of_effects hpaying)
  have hparameter := TransactionFrm.validForParameter_of_validForApply hvalid
  obtain ⟨hlimit, -⟩ := TransactionFrm.nonneg_of_validForParameter hparameter
  obtain ⟨htaken, -, hpaid⟩ := TransactionFrm.levied_payFee hreconciled hvalid
    hbounded.reserve (Set.mem_singleton _) hpay hsighted₂
  obtain ⟨hfees, hthere⟩ := hpaid rfl
  have hnonneg := hreconciled.nonneg
  have hpooled := hreconciled.toPooled.levied htaken (by omega)
  obtain ⟨hcharged, hcharge⟩ := reconciled_charge hpooled (Set.mem_singleton _) hsighted₃
  obtain ⟨hdone, happlied, hcosts⟩ := reconciled_applyCharged hbounded hpooled hrested hcharged
    hparameter (by omega) (hcharge.spares.kept _ hthere) hsighted
  refine ⟨hreconciled, hdone,
    (htaken.trans hcharge).trans_of happlied (Set.singleton_subset_iff.mpr hsource) ?_, ?_⟩
  · -- who signs for an operation by the accounts after the charge has signed before it
    intro address account account' hactor haccount haccount' hspared hmem
    refine hactor fun found hfound => .inr ?_
    obtain rfl := Option.some.inj (haccount.symm.trans hfound)
    obtain ⟨ope, hope, hoperation, hpriv⟩ := hmem account' haccount'
    rw [TransactionFrm.signerHashPriv_spared hspared] at hpriv
    exact ⟨ope, hope, hoperation, hpriv.resolve_left Bool.false_ne_true⟩
  · rw [hfees, add_sub_cancel_right] at hcosts
    exact hcosts

/-- **One transaction of a block** that is proposed or checked. -/
theorem billed_turn (hbounded : Bounded lcl) (hreconciled : Reconciled lcl c)
    (hrested : Rested lcl c) {mode : Mode} (hmode : mode ≠ .follow) (listed : Bool)
    (hsighted : (turn lib lcl mode rt listed env c).2.Sighted lcl) :
    Billed lib lcl rt ⟨env, c, (turn lib lcl mode rt listed env c).1,
      (turn lib lcl mode rt listed env c).2⟩ := by
  have hadmitted : admitted lib lcl mode env c =
      (decide ((TransactionFrm.validForApply lib lcl env 0 c).1 = .success),
        (TransactionFrm.validForApply lib lcl env 0 c).2) := by
    cases mode with
    | follow => exact absurd rfl hmode
    | _ => rfl
  unfold turn at hsighted ⊢
  rw [hadmitted] at hsighted ⊢
  have hlooked := @TransactionFrm.reconciled_validForApply lib lcl c env hreconciled
    (signers lib env (c.reads lcl))
  have hrested₁ := rested_validForApply hrested lib env
  rcases hvalid : TransactionFrm.validForApply lib lcl env 0 c with ⟨code, c₁⟩
  have hfees₁ : c₁.totalFee = c.totalFee := by
    rcases TransactionFrm.validForApply_cases lib lcl env c with hsame | hread
    · rw [← show _ = c₁ from congrArg Prod.snd hvalid, hsame]
    · rw [← show _ = c₁ from congrArg Prod.snd hvalid, hread]
      rfl
  rw [hvalid] at hsighted hlooked hrested₁
  by_cases hcode : code = .success
  · subst hcode
    simp only [decide_true] at hsighted ⊢
    have hrested₂ := rested_payFee hrested₁ env
    rcases hpay : TransactionFrm.payFee lcl env 0 c₁ with ⟨paid, c₂⟩
    rw [hpay] at hsighted hrested₂
    cases paid with
    | false =>
        have hpaying := TransactionFrm.effects_payFee lcl env 0 c₁
        rw [hpay] at hpaying
        have hsource := TransactionFrm.mem_signers_of_valid hreconciled.solid hvalid
          (hsighted.of_effects hpaying)
        obtain ⟨hlevied, hkept, -⟩ := TransactionFrm.levied_payFee hreconciled hvalid
          hbounded.reserve hsource hpay hsighted
        obtain ⟨hreconciled₂, hfees₂⟩ := hkept rfl
        refine ⟨hreconciled, hreconciled₂, hlevied, ?_⟩
        show c₂.totalFee.toInt - _ = 0
        rw [hfees₂, sub_self]
    | true =>
        have happlied : Billed lib lcl rt ⟨env, c, some (applyCharged lib lcl rt env c₂).1,
            (applyCharged lib lcl rt env c₂).2⟩ :=
          billed_applyCharged hbounded hreconciled hvalid hpay hrested₂ (by
            cases mode with
            | follow => exact absurd rfl hmode
            | _ => exact hsighted)
        cases mode with
        | follow => exact absurd rfl hmode
        | _ => exact happlied
  · simp only [hcode, decide_false] at hsighted ⊢
    obtain ⟨hrefused, hlevied⟩ := hlooked hsighted
    refine ⟨hreconciled, hrefused, hlevied, ?_⟩
    show c₁.totalFee.toInt - _ = 0
    rw [hfees₁, sub_self]

/-! ## The turns of a block -/

theorem journal_suffix_turn {mode : Mode} (hmode : mode ≠ .follow) (listed : Bool)
    (env : TransactionEnv) (c : LedgerContext) :
    c.journal <:+ (turn lib lcl mode rt listed env c).2.journal := by
  have hadmitted : c.journal <:+ (admitted lib lcl mode env c).2.journal := by
    cases mode with
    | follow => exact absurd rfl hmode
    | _ => exact (TransactionFrm.effects_validForApply lib lcl env 0 c).journal_suffix
  unfold turn
  rcases hvalid : admitted lib lcl mode env c with ⟨_ | _, c₁⟩
  · rw [hvalid] at hadmitted
    exact hadmitted
  · rw [hvalid] at hadmitted
    have hpaying := hadmitted.trans (TransactionFrm.effects_payFee lcl env 0 c₁).journal_suffix
    dsimp only
    rcases hpay : TransactionFrm.payFee lcl env 0 c₁ with ⟨_ | _, c₂⟩
    · rw [hpay] at hpaying
      exact hpaying
    · rw [hpay] at hpaying
      have happlied := hpaying.trans ((@journal_suffix_charge lcl env c₂).trans
        (@journal_suffix_applyCharged lcl lib rt env c₂))
      cases mode with
      | follow => exact absurd rfl hmode
      | _ => exact happlied

theorem journal_suffix_turns {mode : Mode} (hmode : mode ≠ .follow) (expireTxs : Finset ℤ) (i : ℕ)
    (txs : List TransactionEnv) (c : LedgerContext) :
    c.journal <:+ (lastState c (turns lib lcl mode rt expireTxs i txs c)).journal := by
  induction txs generalizing i c with
  | nil => exact List.suffix_refl _
  | cons env txs ih =>
      by_cases henabled : rt.enabled i = false
      · rw [turns, if_pos henabled]
        exact List.suffix_refl _
      · rw [lastState_turns_cons henabled]
        have hfirst := @journal_suffix_turn lib lcl rt mode hmode
          (decide ((i : ℤ) ∈ expireTxs)) env c
        dsimp only
        split
        · exact hfirst
        · exact hfirst.trans (ih ..)

/-- **A block up to its rewards.** -/
theorem billed_turns (hbounded : Bounded lcl) {mode : Mode} (hmode : mode ≠ .follow)
    (expireTxs : Finset ℤ) {txs : List TransactionEnv} :
    ∀ {i : ℕ} {c : LedgerContext}, Reconciled lcl c → Rested lcl c →
      (lastState c (turns lib lcl mode rt expireTxs i txs c)).Sighted lcl →
      Reconciled lcl (lastState c (turns lib lcl mode rt expireTxs i txs c)) ∧
        ∀ t ∈ turns lib lcl mode rt expireTxs i txs c, Billed lib lcl rt t := by
  induction txs with
  | nil =>
      intro i c hreconciled _ hsighted
      exact ⟨hreconciled, fun t hmem => absurd hmem List.not_mem_nil⟩
  | cons env txs ih =>
      intro i c hreconciled hrested hsighted
      by_cases henabled : rt.enabled i = false
      · rw [turns, if_pos henabled]
        exact ⟨hreconciled, fun t hmem => absurd hmem List.not_mem_nil⟩
      · rw [lastState_turns_cons henabled] at hsighted ⊢
        rw [turns, if_neg henabled]
        dsimp only at hsighted ⊢
        have hfirst := @billed_turn lib lcl rt c env hbounded hreconciled hrested mode hmode
          (decide ((i : ℤ) ∈ expireTxs))
        have hrested' := @rested_turn lib lcl rt c env mode hmode (decide ((i : ℤ) ∈ expireTxs))
          hrested
        generalize turn lib lcl mode rt (decide ((i : ℤ) ∈ expireTxs)) env c = r
          at hsighted hfirst hrested' ⊢
        split at hsighted
        · -- the loop stops here
          rename_i hstops
          rw [if_pos hstops, if_pos hstops]
          have hlast := hfirst hsighted
          refine ⟨hlast.after, fun t hmem => ?_⟩
          obtain rfl := List.mem_singleton.mp hmem
          exact hlast
        · rename_i hstops
          rw [if_neg hstops, if_neg hstops]
          have hlast := hfirst (hsighted.of_suffix (journal_suffix_turns hmode ..))
          obtain ⟨hend, hrest⟩ := ih hlast.after hrested' hsighted
          refine ⟨hend, fun t hmem => ?_⟩
          rcases List.mem_cons.mp hmem with rfl | hmem
          · exact hlast
          · exact hrest t hmem

end LedgerFrm

end CegChain
