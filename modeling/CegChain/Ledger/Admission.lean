import CegChain.Ledger.LedgerFrm

/-!
# The two validators of a transaction

A transaction that arrives over the network is admitted by `CheckValid`, against the
last closed ledger; a transaction of a proposed block is accepted by
`ValidForApply`, against the block so far.  The two were written apart.  Each is
reduced here to the conjunction of its checks, and the conjunctions are compared:
only `CheckValid` looks at the chain id.
-/

namespace CegChain

namespace TransactionFrm

variable (lib : Library) (lcl : Closed)

/-- `TransactionFrm::CheckValid` on a node of this chain.  The nonce of the source
account is handed out as soon as the account is found. -/
def checkValid (selfChainId lastSeq : ℤ) (checkPriv : Bool) (env : TransactionEnv) :
    ErrCode × Option ℤ :=
  let tran := env.transaction
  match lcl.accountFromDB tran.sourceAddress with
  | none => (.accountNotExist, none)
  | some account =>
      let code : ErrCode :=
        if tran.nonce ≤ account.nonce then .badSequence
        else if tran.chainId ≠ selfChainId then .invalidParameter
        else match validForParameter lib lcl env 0 with
        | .success =>
            if lastSeq = 0 ∧ tran.nonce ≠ account.nonce + 1 then .badSequence
            else if lastSeq > 0 ∧ tran.nonce ≠ lastSeq + 1 then .badSequence
            else if checkPriv ∧ signerHashPriv lib env account (-1) = false then
              .invalidSignature
            else checkFee lib lcl env account
        | code => code
      (code, some account.nonce)

/-- The nonce that `CheckValid` expects after `lastSeq` is that of the account: the
callers pass a negative `lastSeq` or zero, and have the account looked up. -/
def ExpectsNonce (lastSeq : ℤ) (account : AccountFrm) : Prop :=
  lastSeq ≤ 0 ∨ lastSeq = account.nonce

variable {lib lcl} {env : TransactionEnv} {level : ℕ} {c : LedgerContext}
  {selfChainId lastSeq : ℤ} {checkPriv : Bool} {account : AccountFrm}

/-- The checks that both validators make of the account they found. -/
structure Admissible (lib : Library) (lcl : Closed) (env : TransactionEnv)
    (account : AccountFrm) : Prop where
  parameter : validForParameter lib lcl env 0 = .success
  nonce : account.nonce + 1 = env.transaction.nonce
  signed : signerHashPriv lib env account (-1) = true
  fee : checkFee lib lcl env account = .success

/-- What `ValidForApply` accepts. -/
theorem validForApply_eq_success_iff :
    (validForApply lib lcl env level c).1 = .success ↔
      ∃ account, (c.getEntry lcl level env.transaction.sourceAddress).1 = some account ∧
        Admissible lib lcl env account := by
  unfold validForApply
  constructor
  · intro hsuccess
    split at hsuccess
    case h_1 hparameter =>
      rcases hget : c.getEntry lcl level env.transaction.sourceAddress with ⟨_ | account, c₁⟩
      · rw [hget] at hsuccess
        cases hsuccess
      · rw [hget] at hsuccess
        dsimp only at hsuccess
        split_ifs at hsuccess with hnonce hsigned
        exact ⟨account, rfl, hparameter, not_not.mp hnonce, Bool.not_eq_false _ ▸ hsigned,
          hsuccess⟩
    case h_2 hcode => exact absurd hsuccess hcode
  · rintro ⟨account, hget, hadmissible⟩
    rw [hadmissible.parameter]
    rcases hentry : c.getEntry lcl level env.transaction.sourceAddress with ⟨found, c₁⟩
    rw [hentry] at hget
    obtain rfl : found = some account := hget
    dsimp only
    rw [if_neg (not_not.mpr hadmissible.nonce), if_neg (by rw [hadmissible.signed]; simp)]
    exact hadmissible.fee

/-- `CheckValid` after the account was found and the nonce was the one expected. -/
theorem checkValid_eq_success_iff (haccount : lcl.accountFromDB env.transaction.sourceAddress =
      some account) (hnonce : account.nonce + 1 = env.transaction.nonce)
    (hexpects : ExpectsNonce lastSeq account)
    (hsigned : signerHashPriv lib env account (-1) = true) :
    (checkValid lib lcl selfChainId lastSeq checkPriv env).1 = .success ↔
      env.transaction.chainId = selfChainId ∧ validForParameter lib lcl env 0 = .success ∧
        checkFee lib lcl env account = .success := by
  unfold checkValid
  dsimp only
  rw [haccount]
  dsimp only
  rw [if_neg (by omega)]
  by_cases hchain : env.transaction.chainId = selfChainId
  · rw [if_neg (not_not.mpr hchain)]
    have hzero : ¬ (lastSeq = 0 ∧ env.transaction.nonce ≠ account.nonce + 1) :=
      fun h => h.2 hnonce.symm
    have hlast : ¬ (lastSeq > 0 ∧ env.transaction.nonce ≠ lastSeq + 1) := by
      rcases hexpects with hle | rfl
      · exact fun h => absurd h.1 (not_lt.mpr hle)
      · exact fun h => h.2 hnonce.symm
    split
    case h_1 hparameter =>
      rw [if_neg hzero, if_neg hlast, if_neg (by rw [hsigned]; simp)]
      simp [hchain, hparameter]
    case h_2 hcode =>
      exact ⟨fun h => absurd h hcode, fun h => absurd h.2.1 hcode⟩
  · rw [if_pos hchain]
    exact ⟨nofun, fun h => absurd h.1 hchain⟩

/-- **What is put in a block is admissible on its chain alone.**  Where both
validators read one account and expect one nonce, `CheckValid` accepts what
`ValidForApply` has accepted exactly when its chain id is that of the node. -/
theorem checkValid_of_validForApply_iff
    (hsame : (c.getEntry lcl level env.transaction.sourceAddress).1 =
      lcl.accountFromDB env.transaction.sourceAddress)
    (hexpects : ∀ account, lcl.accountFromDB env.transaction.sourceAddress = some account →
      ExpectsNonce lastSeq account)
    (hvalid : (validForApply lib lcl env level c).1 = .success) :
    (checkValid lib lcl selfChainId lastSeq checkPriv env).1 = .success ↔
      env.transaction.chainId = selfChainId := by
  obtain ⟨account, hget, hadmissible⟩ := validForApply_eq_success_iff.mp hvalid
  have haccount : lcl.accountFromDB env.transaction.sourceAddress = some account :=
    hsame.symm.trans hget
  rw [checkValid_eq_success_iff haccount hadmissible.nonce (hexpects account haccount)
    hadmissible.signed]
  exact and_iff_left ⟨hadmissible.parameter, hadmissible.fee⟩

/-! ## A payment of another chain -/

/-- The payment, made out to a chain. -/
def paymentOn (chainId : ℤ) : TransactionEnv :=
  let env := payment payerAddress callerAddress 5 1
  { env with transaction := { env.transaction with chainId := chainId } }

theorem checkValid_paymentOn_own :
    (validForApply sampleLibrary sampleClosed (paymentOn 3) 0 {}).1 = .success ∧
      (checkValid sampleLibrary sampleClosed 3 (-1) true (paymentOn 3)).1 = .success := by
  have hvalid : (validForApply sampleLibrary sampleClosed (paymentOn 3) 0 {}).1 = .success := by
    decide +kernel
  have hexpects : ∀ account, sampleClosed.accountFromDB
      (paymentOn 3).transaction.sourceAddress = some account → ExpectsNonce (-1) account :=
    fun _ _ => .inl (by decide)
  have hsame : (LedgerContext.getEntry sampleClosed 0 (paymentOn 3).transaction.sourceAddress
      {}).1 = sampleClosed.accountFromDB (paymentOn 3).transaction.sourceAddress := by
    decide +kernel
  exact ⟨hvalid, (checkValid_of_validForApply_iff hsame hexpects hvalid).mpr rfl⟩

/-- A block with a payment of chain 7 passes the check on chain 3, and the payment
itself does not. -/
theorem checkValid_paymentOn_other :
    (validForApply sampleLibrary sampleClosed (paymentOn 7) 0 {}).1 = .success ∧
      (LedgerFrm.applyCheck sampleLibrary sampleClosed (payingOut payerAddress)
        { txset := [paymentOn 7], ledgerSeq := 2 }).accepted = true ∧
      (checkValid sampleLibrary sampleClosed 3 (-1) true (paymentOn 7)).1 =
        .invalidParameter := by
  decide +kernel

end TransactionFrm

end CegChain
