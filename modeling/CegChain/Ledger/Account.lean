import CegChain.Common.PrivateKey
import CegChain.Utils.BaseInt

/-!
# Accounts

The messages of `proto/chain.proto` that an account is made of, and
`ledger/account.cpp`.  An `AccountFrm` caches the assets and the metadata it has
read from the account's tries; here both are part of the account's value.
Coins and asset amounts are 64-bit integers, since the code tests their sums for
overflow; nonces, weights, thresholds and versions are plain integers.

The operations that are not payments change an account through the functions of
this file, and none of these touches its balance or its nonce
(`AccountFrm.SameFunds`).
-/

namespace CegChain

/-- An address string. -/
abbrev Address := Bytes

/-- `protocol::ERRORCODE`, the codes the ledger gives. -/
inductive ErrCode where
  | success
  | invalidParameter
  | notExist
  | mathOverflow
  | assetInvalid
  | invalidSignature
  | invalidAddress
  | missingOperations
  | tooManyOperations
  | badSequence
  | accountLowReserve
  | accountSourcedestEqual
  | accountDestExist
  | accountNotExist
  | accountAssetLowReserve
  | accountInitLowReserve
  | feeNotEnough
  | weightNotValid
  | thresholdNotValid
  | invalidDataversion
  | txSizeTooBig
  | contractExecuteFail
  | contractSyntaxError
  | contractTooManyRecursion
  | contractTooManyTransactions
  | contractExecuteExpired
  deriving DecidableEq, Repr

/-- `protocol::Signer`. -/
structure Signer where
  address : Address
  weight : ℤ
  deriving DecidableEq

/-- `protocol::OperationTypeThreshold`. -/
structure OperationTypeThreshold where
  type : ℤ
  threshold : ℤ
  deriving DecidableEq

/-- `protocol::AccountThreshold`. -/
structure AccountThreshold where
  txThreshold : ℤ := 0
  typeThresholds : List OperationTypeThreshold := []
  deriving DecidableEq

/-- `protocol::AccountPrivilege`. -/
structure AccountPrivilege where
  masterWeight : ℤ := 0
  signers : List Signer := []
  thresholds : Option AccountThreshold := none
  deriving DecidableEq

/-- `protocol::Contract`. -/
structure Contract where
  type : ℤ := 0
  payload : Bytes := []
  deriving DecidableEq

/-- `protocol::AssetKey`. -/
structure AssetKey where
  issuer : Address
  code : Bytes
  type : ℤ := 0
  deriving DecidableEq

/-- `protocol::KeyPair`. -/
structure KeyPair where
  key : Bytes
  value : Bytes
  version : ℤ
  deriving DecidableEq

/-- `AccountFrm`: the account message with its assets and its metadata. -/
structure AccountFrm where
  address : Address
  nonce : ℤ := 0
  priv : AccountPrivilege := {}
  contract : Contract := {}
  balance : Int64 := 0
  assets : List (AssetKey × Int64) := []
  metadata : List (Bytes × KeyPair) := []
  deriving DecidableEq

/-- `Signer_Limit_SIGNER`. -/
def signerLimit : ℕ := 100

namespace AccountFrm

/-- `priv().thresholds()`, a default message when it was never set. -/
def thresholds (account : AccountFrm) : AccountThreshold :=
  account.priv.thresholds.getD {}

/-- `account_info_.set_balance`. -/
def setBalance (balance : Int64) (account : AccountFrm) : AccountFrm :=
  { account with balance := balance }

/-- `AccountFrm::NonceIncrease`. -/
def nonceIncrease (account : AccountFrm) : AccountFrm :=
  { account with nonce := account.nonce + 1 }

/-- `SetProtoMasterWeight`. -/
def setProtoMasterWeight (weight : ℤ) (account : AccountFrm) : AccountFrm :=
  { account with priv := { account.priv with masterWeight := weight } }

/-- Write `mutable_priv()->mutable_thresholds()`. -/
def setThresholds (thresholds : AccountThreshold) (account : AccountFrm) : AccountFrm :=
  { account with priv := { account.priv with thresholds := some thresholds } }

/-- `SetProtoTxThreshold`. -/
def setProtoTxThreshold (threshold : ℤ) (account : AccountFrm) : AccountFrm :=
  account.setThresholds { account.thresholds with txThreshold := threshold }

/-- `AccountFrm::UpdateSigner`: a positive weight sets every entry of the signer,
or adds one while there is room; another weight removes them all. -/
def updateSigner (signer : Signer) (account : AccountFrm) : AccountFrm :=
  let signers := account.priv.signers
  let found := signers.any (·.address = signer.address)
  let updated :=
    if signer.weight > 0 then
      if found then
        signers.map fun old => if old.address = signer.address then signer else old
      else if signers.length ≥ signerLimit then signers
      else signers ++ [signer]
    else signers.filter (·.address ≠ signer.address)
  { account with priv := { account.priv with signers := updated } }

/-- `AccountFrm::GetTypeThreshold`. -/
def getTypeThreshold (type : ℤ) (account : AccountFrm) : ℤ :=
  match account.thresholds.typeThresholds.find? (·.type = type) with
  | some typeThreshold => typeThreshold.threshold
  | none => 0

/-- `AccountFrm::UpdateTypeThreshold`, which treats the type thresholds as
`updateSigner` treats the signers. -/
def updateTypeThreshold (typeThreshold : OperationTypeThreshold) (account : AccountFrm) :
    AccountFrm :=
  let olds := account.thresholds.typeThresholds
  let found := olds.any (·.type = typeThreshold.type)
  let updated :=
    if typeThreshold.threshold > 0 then
      if found then
        olds.map fun old => if old.type = typeThreshold.type then typeThreshold else old
      else if olds.length ≥ signerLimit then olds
      else olds ++ [typeThreshold]
    else olds.filter (·.type ≠ typeThreshold.type)
  account.setThresholds { account.thresholds with typeThresholds := updated }

/-- `AccountFrm::GetAsset`. -/
def getAsset (key : AssetKey) (account : AccountFrm) : Option Int64 :=
  account.assets.lookup key

/-- `AccountFrm::SetAsset`. -/
def setAsset (key : AssetKey) (amount : Int64) (account : AccountFrm) : AccountFrm :=
  { account with assets := (key, amount) :: account.assets.filter (·.1 ≠ key) }

/-- `AccountFrm::GetMetaData`. -/
def getMetaData (key : Bytes) (account : AccountFrm) : Option KeyPair :=
  account.metadata.lookup key

/-- `AccountFrm::SetMetaData`. -/
def setMetaData (keypair : KeyPair) (account : AccountFrm) : AccountFrm :=
  { account with metadata :=
      (keypair.key, keypair) :: account.metadata.filter (·.1 ≠ keypair.key) }

/-- `AccountFrm::DeleteMetaData`. -/
def deleteMetaData (keypair : KeyPair) (account : AccountFrm) : AccountFrm :=
  { account with metadata := account.metadata.filter (·.1 ≠ keypair.key) }

/-- `AccountFrm::UpdateHash`: an asset of amount 0 is deleted from the trie. -/
def updateHash (account : AccountFrm) : AccountFrm :=
  { account with assets := account.assets.filter (·.2 ≠ 0) }

/-- `AccountFrm::CreatAccountFrm`. -/
def creatAccountFrm (address : Address) (balance : Int64) : AccountFrm :=
  ({ address := address, balance := balance } : AccountFrm).setProtoMasterWeight 1
    |>.setProtoTxThreshold 1

/-! ## Changes that leave the funds alone -/

/-- Two states of an account with the same balance and the same nonce. -/
structure SameFunds (before after : AccountFrm) : Prop where
  balance : after.balance = before.balance
  nonce : after.nonce = before.nonce

variable (account : AccountFrm)

@[simp] theorem SameFunds.rfl : SameFunds account account := ⟨.refl _, .refl _⟩

theorem SameFunds.trans {a b c : AccountFrm} (hab : SameFunds a b) (hbc : SameFunds b c) :
    SameFunds a c :=
  ⟨hbc.balance.trans hab.balance, hbc.nonce.trans hab.nonce⟩

theorem sameFunds_setProtoMasterWeight (weight : ℤ) :
    SameFunds account (account.setProtoMasterWeight weight) := ⟨.refl _, .refl _⟩

theorem sameFunds_setProtoTxThreshold (threshold : ℤ) :
    SameFunds account (account.setProtoTxThreshold threshold) := ⟨.refl _, .refl _⟩

theorem sameFunds_updateSigner (signer : Signer) :
    SameFunds account (account.updateSigner signer) := ⟨.refl _, .refl _⟩

theorem sameFunds_updateTypeThreshold (typeThreshold : OperationTypeThreshold) :
    SameFunds account (account.updateTypeThreshold typeThreshold) := ⟨.refl _, .refl _⟩

theorem sameFunds_setAsset (key : AssetKey) (amount : Int64) :
    SameFunds account (account.setAsset key amount) := ⟨.refl _, .refl _⟩

theorem sameFunds_setMetaData (keypair : KeyPair) :
    SameFunds account (account.setMetaData keypair) := ⟨.refl _, .refl _⟩

theorem sameFunds_deleteMetaData (keypair : KeyPair) :
    SameFunds account (account.deleteMetaData keypair) := ⟨.refl _, .refl _⟩

theorem sameFunds_updateHash : SameFunds account account.updateHash := ⟨.refl _, .refl _⟩

/-- Changes made one after another leave the funds alone when each of them does. -/
theorem sameFunds_foldl {β : Type*} (change : AccountFrm → β → AccountFrm)
    (hchange : ∀ account b, SameFunds account (change account b)) (changes : List β) :
    SameFunds account (changes.foldl change account) := by
  induction changes generalizing account with
  | nil => exact SameFunds.rfl account
  | cons b changes ih => exact (hchange account b).trans (ih (change account b))

end AccountFrm

end CegChain
