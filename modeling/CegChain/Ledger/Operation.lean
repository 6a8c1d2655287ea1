import CegChain.Ledger.Context

/-!
# Applying operations and transactions

`OperationFrm::Apply` with the nine operations of `ledger/operation_frm.cpp`, and
`PayFee`, `ReturnFee`, `NonceIncrease` and `Apply` of
`ledger/transaction_frm.cpp`.

An operation that reaches an account with contract code ends by running that
code.  What the code does is the argument `execute` here; `Ledger/Program.lean`
supplies it.
-/

namespace CegChain

/-- What running the contract at an address does. -/
abbrev Execution := Address → LedgerContext → ErrCode × LedgerContext

namespace OperationFrm

variable (lib : Library) (lcl : Closed)

/-- The address of a contract that is created without one. -/
def contractAddress (tran : Transaction) (index : ℕ) : Address :=
  getEncAddress lib.calcHash .ed25519 (tran.sourceAddress ++ [45] ++ String64.toBytes tran.nonce ++
    [45] ++ String64.decimal index)

/-- `dest_address` of `CreateAccount`. -/
def createdAddress (tran : Transaction) (index : ℕ) (message : OperationCreateAccount) : Address :=
  if message.destAddress = [] then contractAddress lib tran index else message.destAddress

/-- The metadata of a new account, unless a version is neither 0 nor 1. -/
def withMetadatas : List KeyPair → AccountFrm → Option AccountFrm
  | [], account => some account
  | kp :: metadatas, account =>
      if kp.version ≠ 0 ∧ kp.version ≠ 1 then none
      else withMetadatas metadatas (account.setMetaData { kp with version := 1 })

/-- `OperationFrm::CreateAccount`. -/
def createAccount (execute : Execution) (tran : Transaction) (index : ℕ) (level : ℕ)
    (source : Address) (sourceAccount : AccountFrm) (message : OperationCreateAccount)
    (c : LedgerContext) : ErrCode × LedgerContext :=
  let destAddress := createdAddress lib tran index message
  match c.getEntry lcl level destAddress with
  | (some _, c) => (.accountDestExist, c)
  | (none, c) =>
      let baseReserve := lcl.fees.baseReserve
      if message.initBalance < baseReserve then (.accountInitLowReserve, c)
      else match safeIntSub sourceAccount.balance baseReserve with
      | none => (.mathOverflow, c)
      | some limitBalance =>
          if limitBalance < message.initBalance then (.accountLowReserve, c)
          else match safeIntAdd sourceAccount.balance (-1 * message.initBalance) with
          | none => (.mathOverflow, c)
          | some balance =>
              let c := c.modifyEntry level source (·.setBalance balance)
              let account : AccountFrm := {
                address := destAddress
                priv := message.priv.getD {}
                contract := message.contract
                balance := message.initBalance }
              match withMetadatas message.metadatas account with
              | none => (.invalidDataversion, c)
              | some account =>
                  let c := c.addEntry level destAddress account
                  if message.contract.payload = [] then (.success, c) else execute destAddress c

/-- `OperationFrm::IssueAsset`. -/
def issueAsset (level : ℕ) (source : Address) (sourceAccount : AccountFrm)
    (message : OperationIssueAsset) (c : LedgerContext) : ErrCode × LedgerContext :=
  let key : AssetKey := { issuer := sourceAccount.address, code := message.code }
  match sourceAccount.getAsset key with
  | none => (.success, c.modifyEntry level source (·.setAsset key message.amount))
  | some held =>
      match safeIntAdd held message.amount with
      | none => (.mathOverflow, c)
      | some amount => (.success, c.modifyEntry level source (·.setAsset key amount))

/-- The transfer of `PayAsset`, when the message has an asset. -/
def transferAsset (level : ℕ) (source dest : Address) (sourceAccount : AccountFrm) :
    Option Asset → LedgerContext → ErrCode × LedgerContext
  | none, c => (.success, c)
  | some asset, c =>
      match sourceAccount.getAsset asset.key with
      | none => (.accountAssetLowReserve, c)
      | some held =>
          if asset.key.type ≠ 0 then (.assetInvalid, c)
          else match safeIntSub held asset.amount with
          | none => (.mathOverflow, c)
          | some senderAmount =>
              if senderAmount < 0 then (.accountAssetLowReserve, c)
              else
                let c := c.modifyEntry level source (·.setAsset asset.key senderAmount)
                match (c.deref level dest).bind (·.getAsset asset.key) with
                | none => (.success, c.modifyEntry level dest (·.setAsset asset.key asset.amount))
                | some destHeld =>
                    match safeIntAdd destHeld asset.amount with
                    | none => (.mathOverflow, c)
                    | some receiverAmount =>
                        (.success, c.modifyEntry level dest (·.setAsset asset.key receiverAmount))

/-- `OperationFrm::PayAsset`. -/
def payAsset (execute : Execution) (level : ℕ) (source : Address) (sourceAccount : AccountFrm)
    (message : OperationPayAsset) (c : LedgerContext) : ErrCode × LedgerContext :=
  match c.getEntry lcl level message.destAddress with
  | (none, c) => (.accountNotExist, c)
  | (some destAccount, c) =>
      match transferAsset level source message.destAddress sourceAccount message.asset c with
      | (.success, c) =>
          if destAccount.contract.payload = [] then (.success, c)
          else execute message.destAddress c
      | failed => failed

/-- The new metadata of an account under `SetMetaData`, or the code it fails with. -/
def metadataChange (message : OperationSetMetadata) (account : AccountFrm) :
    Except ErrCode (AccountFrm → AccountFrm) :=
  match message.deleteFlag, account.getMetaData message.key with
  | true, some keypair =>
      if message.version ≠ 0 ∧ keypair.version ≠ message.version then .error .invalidDataversion
      else if message.key = [] then .error .invalidParameter
      else .ok (·.deleteMetaData keypair)
  | true, none => .error .notExist
  | false, some keypair =>
      if message.version ≠ 0 ∧ keypair.version + 1 ≠ message.version then
        .error .invalidDataversion
      else .ok (·.setMetaData
        { keypair with version := keypair.version + 1, value := message.value })
  | false, none =>
      if message.version ≠ 1 ∧ message.version ≠ 0 then .error .invalidDataversion
      else .ok (·.setMetaData ⟨message.key, message.value, 1⟩)

/-- `OperationFrm::SetMetaData`. -/
def setMetaData (level : ℕ) (source : Address) (sourceAccount : AccountFrm)
    (message : OperationSetMetadata) (c : LedgerContext) : ErrCode × LedgerContext :=
  match metadataChange message sourceAccount with
  | .error code => (code, c)
  | .ok change => (.success, c.modifyEntry level source change)

/-- What `SetSignerWeight` does to the source account. -/
def signerWeightChange (message : OperationSetSignerWeight) (account : AccountFrm) : AccountFrm :=
  let account :=
    if message.masterWeight ≥ 0 then account.setProtoMasterWeight message.masterWeight else account
  message.signers.foldl (fun account signer => account.updateSigner signer) account

/-- What `SetThreshold` does to the source account. -/
def thresholdChange (message : OperationSetThreshold) (account : AccountFrm) : AccountFrm :=
  let account :=
    if message.txThreshold ≥ 0 then account.setProtoTxThreshold message.txThreshold else account
  message.typeThresholds.foldl
    (fun account typeThreshold => account.updateTypeThreshold typeThreshold) account

/-- What `SetPrivilege` does to the source account. -/
def privilegeChange (message : OperationSetPrivilege) (account : AccountFrm) : AccountFrm :=
  let account :=
    if message.masterWeight ≠ [] ∧ String64.stoi64 message.masterWeight ≥ 0 then
      account.setProtoMasterWeight (String64.stoi64 message.masterWeight)
    else account
  let account := message.signers.foldl (fun account signer => account.updateSigner signer) account
  let account :=
    if message.txThreshold ≠ [] ∧ String64.stoi64 message.txThreshold ≥ 0 then
      account.setProtoTxThreshold (String64.stoi64 message.txThreshold)
    else account
  message.typeThresholds.foldl
    (fun account typeThreshold => account.updateTypeThreshold typeThreshold) account

/-- The account that a first payment creates. -/
def paidAccount (address : Address) : AccountFrm :=
  { address := address
    priv := { masterWeight := 1, thresholds := some { txThreshold := 1 } } }

/-- `OperationFrm::PayCoin`. -/
def payCoin (execute : Execution) (level : ℕ) (source : Address) (sourceAccount : AccountFrm)
    (message : OperationPayCoin) (c : LedgerContext) : ErrCode × LedgerContext :=
  let reserveCoin := lcl.fees.baseReserve
  let address := message.destAddress
  match safeIntAdd message.amount reserveCoin with
  | none => (.mathOverflow, c)
  | some minBalance =>
      if sourceAccount.balance < minBalance then (.accountLowReserve, c)
      else
        let r := c.getEntry lcl level address
        if r.1 = none ∧ message.amount < reserveCoin then (.accountInitLowReserve, r.2)
        else
          let c := if r.1 = none then r.2.addEntry level address (paidAccount address) else r.2
          match safeIntSub sourceAccount.balance message.amount with
          | none => (.mathOverflow, c)
          | some srcBalance =>
              let c := c.modifyEntry level source (·.setBalance srcBalance)
              match c.deref level address with
              | none => (.success, c.crash)
              | some destAccount =>
                  match safeIntAdd destAccount.balance message.amount with
                  | none => (.mathOverflow, c)
                  | some destBalance =>
                      let c := c.modifyEntry level address (·.setBalance destBalance)
                      if destAccount.contract.payload = [] then (.success, c)
                      else execute address c

/-- `OperationFrm::CheckSignature`. -/
def checkSignature (env : TransactionEnv) (level : ℕ) (ope : Operation) (c : LedgerContext) :
    ErrCode × LedgerContext :=
  match c.getEntry lcl level (env.transaction.operationSource ope) with
  | (none, c) => (.accountNotExist, c)
  | (some account, c) =>
      if TransactionFrm.signerHashPriv lib env account ope.body.type then (.success, c)
      else (.invalidSignature, c)

/-- `OperationFrm::Apply`. -/
def apply (execute : Execution) (env : TransactionEnv) (index : ℕ) (level : ℕ) (ope : Operation)
    (c : LedgerContext) : ErrCode × LedgerContext :=
  let source := env.transaction.operationSource ope
  match c.getEntry lcl level source with
  | (none, c) => (.accountNotExist, c)
  | (some account, c) =>
      match ope.body with
      | .unknown => (.success, c)
      | .createAccount message =>
          createAccount lib lcl execute env.transaction index level source account message c
      | .payAsset message => payAsset lcl execute level source account message c
      | .issueAsset message => issueAsset level source account message c
      | .setMetadata message => setMetaData level source account message c
      | .setSignerWeight message =>
          (.success, c.modifyEntry level source (signerWeightChange message))
      | .setThreshold message =>
          (.success, c.modifyEntry level source (thresholdChange message))
      | .payCoin message => payCoin lcl execute level source account message c
      | .log _ => (.success, c)
      | .setPrivilege message =>
          (.success, c.modifyEntry level source (privilegeChange message))
      | .other type _ =>
          if OperationBody.isSentinel type then (.success, c) else (.invalidParameter, c)

end OperationFrm

namespace TransactionFrm

variable (lib : Library) (lcl : Closed)

/-- `TransactionFrm::ValidForApply`, with signatures checked. -/
def validForApply (env : TransactionEnv) (level : ℕ) (c : LedgerContext) :
    ErrCode × LedgerContext :=
  match validForParameter lib lcl env 0 with
  | .success =>
      match c.getEntry lcl level env.transaction.sourceAddress with
      | (none, c) => (.accountNotExist, c)
      | (some account, c) =>
          if account.nonce + 1 ≠ env.transaction.nonce then (.badSequence, c)
          else if signerHashPriv lib env account (-1) = false then (.invalidSignature, c)
          else (checkFee lib lcl env account, c)
  | code => (code, c)

/-- `TransactionFrm::PayFee`.  The block's total is written before the balance is
looked at. -/
def payFee (env : TransactionEnv) (level : ℕ) (c : LedgerContext) : Bool × LedgerContext :=
  let fee := env.transaction.feeLimit
  match c.getEntry lcl level env.transaction.sourceAddress with
  | (none, c) => (false, c)
  | (some account, c) =>
      match safeIntAdd c.totalFee fee with
      | none => (false, c)
      | some newTotalFee =>
          let c := { c with totalFee := newTotalFee }
          match safeIntSub account.balance fee with
          | none => (false, c)
          | some newBalance =>
              (true, c.modifyEntry level env.transaction.sourceAddress (·.setBalance newBalance))

/-- `TransactionFrm::ReturnFee` of a transaction with this result and gas. -/
def returnFee (env : TransactionEnv) (result : ErrCode) (actualGas : Int64) (level : ℕ)
    (c : LedgerContext) : LedgerContext :=
  let tran := env.transaction
  match safeIntMul actualGas tran.gasPrice with
  | none => c
  | some actualFee =>
      match safeIntSub tran.feeLimit actualFee with
      | none => c
      | some fee =>
          if result ≠ .success ∨ fee ≤ 0 then c
          else match c.getEntry lcl level tran.sourceAddress with
          | (none, c) => c
          | (some account, c) =>
              match safeIntSub c.totalFee fee with
              | none => c
              | some totalFee =>
                  let c := { c with totalFee := totalFee }
                  match safeIntAdd account.balance fee with
                  | none => c
                  | some newBalance =>
                      c.modifyEntry level tran.sourceAddress (·.setBalance newBalance)

/-- `TransactionFrm::NonceIncrease`. -/
def nonceIncrease (env : TransactionEnv) (level : ℕ) (c : LedgerContext) : LedgerContext :=
  match c.getEntry lcl level env.transaction.sourceAddress with
  | (none, c) => c
  | (some _, c) => c.modifyEntry level env.transaction.sourceAddress (·.nonceIncrease)

/-- The loop over the operations of `Apply`.  Signatures are not checked for the
transactions of contracts. -/
def applyOperations (execute : ℕ → Execution) (env : TransactionEnv) (level : ℕ)
    (boolContract : Bool) : ℕ → List Operation → LedgerContext → ErrCode × LedgerContext
  | _, [], c => (.success, c)
  | index, ope :: operations, c =>
      let checked : ErrCode × LedgerContext :=
        if boolContract then (.success, c)
        else OperationFrm.checkSignature lib lcl env level ope c
      match checked with
      | (.success, c) =>
          match OperationFrm.apply lib lcl (execute index) env index level ope c with
          | (.success, c) =>
              applyOperations execute env level boolContract (index + 1) operations c
          | failed => failed
      | failed => failed

/-- `TransactionFrm::Apply`: the code is `success` exactly when it returns true. -/
def apply (execute : ℕ → Execution) (env : TransactionEnv) (level : ℕ) (boolContract : Bool)
    (c : LedgerContext) : ErrCode × LedgerContext :=
  match (c.setTopEnvironment level).addActualFee lib env with
  | (.success, c) =>
      applyOperations lib lcl execute env level boolContract 0 env.transaction.operations c
  | failed => failed

end TransactionFrm

end CegChain
