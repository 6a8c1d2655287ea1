import CegChain.Ledger.Account
import CegChain.Lib.Layers
import CegChain.Utils.Strings

/-!
# Transactions and their checks

The transactions and operations of `proto/chain.proto`, and the checks of
`ledger/transaction_frm.cpp` and `ledger/operation_frm.cpp` that look at a
transaction before it is applied: `CheckValid` of an operation,
`ValidForParameter`, `SignerHashPriv` and `CheckFee`.

What the node takes from elsewhere is a parameter.  `Library` has the functions
of the libraries it is linked with (hashes, signatures, protobuf, V8), `Closed`
what it reads of the last closed ledger and of its configuration while it
executes the next block.

A check returns the code it leaves in the result; the texts that go with the
codes are not modelled.
-/

namespace CegChain

open Layers

/-! ## Messages -/

/-- `protocol::OperationCreateAccount`. -/
structure OperationCreateAccount where
  destAddress : Address := []
  contract : Contract := {}
  priv : Option AccountPrivilege := none
  metadatas : List KeyPair := []
  initBalance : Int64 := 0
  initInput : Bytes := []
  deriving DecidableEq

/-- `protocol::OperationIssueAsset`. -/
structure OperationIssueAsset where
  code : Bytes := []
  amount : Int64 := 0
  deriving DecidableEq

/-- `protocol::Asset`. -/
structure Asset where
  key : AssetKey
  amount : Int64
  deriving DecidableEq

/-- `protocol::OperationPayAsset`. -/
structure OperationPayAsset where
  destAddress : Address := []
  asset : Option Asset := none
  input : Bytes := []
  deriving DecidableEq

/-- `protocol::OperationSetMetadata`. -/
structure OperationSetMetadata where
  key : Bytes := []
  value : Bytes := []
  version : ℤ := 0
  deleteFlag : Bool := false
  deriving DecidableEq

/-- `protocol::OperationSetSignerWeight`. -/
structure OperationSetSignerWeight where
  masterWeight : ℤ := 0
  signers : List Signer := []
  deriving DecidableEq

/-- `protocol::OperationSetThreshold`. -/
structure OperationSetThreshold where
  txThreshold : ℤ := 0
  typeThresholds : List OperationTypeThreshold := []
  deriving DecidableEq

/-- `protocol::OperationPayCoin`. -/
structure OperationPayCoin where
  destAddress : Address := []
  amount : Int64 := 0
  input : Bytes := []
  deriving DecidableEq

/-- `protocol::OperationLog`. -/
structure OperationLog where
  topic : Bytes := []
  datas : List Bytes := []
  deriving DecidableEq

/-- `protocol::OperationSetPrivilege`, where a number is a string so that it can
be left out. -/
structure OperationSetPrivilege where
  masterWeight : Bytes := []
  signers : List Signer := []
  txThreshold : Bytes := []
  typeThresholds : List OperationTypeThreshold := []
  deriving DecidableEq

/-- The type of an operation with the message that belongs to it; the enumeration
is open, so any other number can be sent as well. -/
inductive OperationBody where
  | unknown
  | createAccount (message : OperationCreateAccount)
  | issueAsset (message : OperationIssueAsset)
  | payAsset (message : OperationPayAsset)
  | setMetadata (message : OperationSetMetadata)
  | setSignerWeight (message : OperationSetSignerWeight)
  | setThreshold (message : OperationSetThreshold)
  | payCoin (message : OperationPayCoin)
  | log (message : OperationLog)
  | setPrivilege (message : OperationSetPrivilege)
  | other (type : ℤ) (hother : type < 0 ∨ 9 < type)
  deriving DecidableEq

/-- `Operation::type()`. -/
def OperationBody.type : OperationBody → ℤ
  | unknown => 0
  | createAccount _ => 1
  | issueAsset _ => 2
  | payAsset _ => 3
  | setMetadata _ => 4
  | setSignerWeight _ => 5
  | setThreshold _ => 6
  | payCoin _ => 7
  | log _ => 8
  | setPrivilege _ => 9
  | other type _ => type

/-- `Operation_Type_INT_MIN_SENTINEL_DO_NOT_USE_` or
`Operation_Type_INT_MAX_SENTINEL_DO_NOT_USE_`. -/
def OperationBody.isSentinel (type : ℤ) : Bool :=
  type = -2 ^ 31 || type = 2 ^ 31 - 1

/-- `protocol::Operation`. -/
structure Operation where
  sourceAddress : Address := []
  metadata : Bytes := []
  body : OperationBody
  deriving DecidableEq

/-- `protocol::Transaction`. -/
structure Transaction where
  sourceAddress : Address := []
  nonce : ℤ := 0
  feeLimit : Int64 := 0
  gasPrice : Int64 := 0
  ceilLedgerSeq : ℤ := 0
  metadata : Bytes := []
  operations : List Operation := []
  chainId : ℤ := 0
  deriving DecidableEq

/-- `protocol::Signature`. -/
structure TxSignature where
  publicKey : Bytes
  signData : Bytes
  deriving DecidableEq

/-- `protocol::TransactionEnv`. -/
structure TransactionEnv where
  transaction : Transaction
  signatures : List TxSignature := []
  deriving DecidableEq

/-- `operation.source_address()`, or the transaction's when it is empty. -/
def Transaction.operationSource (tran : Transaction) (ope : Operation) : Address :=
  if ope.sourceAddress = [] then tran.sourceAddress else ope.sourceAddress

/-! ## Reserved addresses -/

/-- `CONTRACT_VALIDATOR_ADDRESS`, "cegQtxgoaDrVJGtoPT66YnA2S84yE8FbBqQDJ". -/
def contractValidatorAddress : Address :=
  [99, 101, 103, 81, 116, 120, 103, 111, 97, 68, 114, 86, 74, 71, 116, 111, 80, 84, 54, 54, 89,
    110, 65, 50, 83, 56, 52, 121, 69, 56, 70, 98, 66, 113, 81, 68, 74]

/-- `CONTRACT_FEE_ADDRESS`, "cegQiQgRerQM1fUM3GkqUftpNxGzNg2AdJBpe". -/
def contractFeeAddress : Address :=
  [99, 101, 103, 81, 105, 81, 103, 82, 101, 114, 81, 77, 49, 102, 85, 77, 51, 71, 107, 113, 85,
    102, 116, 112, 78, 120, 71, 122, 78, 103, 50, 65, 100, 74, 66, 112, 101]

/-- `RESERVED_CREATOR_ADDRESS`, "cegQgCBN4MSZMWRfJbksh9PWpKqgY3tSEMM4d". -/
def reservedCreatorAddress : Address :=
  [99, 101, 103, 81, 103, 67, 66, 78, 52, 77, 83, 90, 77, 87, 82, 102, 74, 98, 107, 115, 104,
    57, 80, 87, 112, 75, 113, 103, 89, 51, 116, 83, 69, 77, 77, 52, 100]

/-- `CONTRACT_DPOS_ADDRESS`, "cegQqzdS9YSnokDjvzg4YaNatcFQfkgXqk6ss". -/
def contractDposAddress : Address :=
  [99, 101, 103, 81, 113, 122, 100, 83, 57, 89, 83, 110, 111, 107, 68, 106, 118, 122, 103, 52,
    89, 97, 78, 97, 116, 99, 70, 81, 102, 107, 103, 88, 113, 107, 54, 115, 115]

/-- `RESERVED_ADDRESS4`, "cegQcHGxxpPDBcPKys8cD5NY1CAiyAfFBjgtg". -/
def reservedAddress4 : Address :=
  [99, 101, 103, 81, 99, 72, 71, 120, 120, 112, 80, 68, 66, 99, 80, 75, 121, 115, 56, 99, 68,
    53, 78, 89, 49, 67, 65, 105, 121, 65, 102, 70, 66, 106, 103, 116, 103]

/-- `RESERVED_ADDRESS5`, "cegQraU2Y5niuYyDdS7FNfJYRrGe8q21RmWc3". -/
def reservedAddress5 : Address :=
  [99, 101, 103, 81, 114, 97, 85, 50, 89, 53, 110, 105, 117, 89, 121, 68, 100, 83, 55, 70, 78,
    102, 74, 89, 82, 114, 71, 101, 56, 113, 50, 49, 82, 109, 87, 99, 51]

/-- `RESERVED_ADDRESS6`, "cegQXoma4baahLbAcnZdC7hFqCHoAxbnytYxd". -/
def reservedAddress6 : Address :=
  [99, 101, 103, 81, 88, 111, 109, 97, 52, 98, 97, 97, 104, 76, 98, 65, 99, 110, 90, 100, 67,
    55, 104, 70, 113, 67, 72, 111, 65, 120, 98, 110, 121, 116, 89, 120, 100]

/-- `RESERVED_ADDRESS7`, "cegQVpA6eKpuDcNfubXsgG9ihN32psE1jyygm". -/
def reservedAddress7 : Address :=
  [99, 101, 103, 81, 86, 112, 65, 54, 101, 75, 112, 117, 68, 99, 78, 102, 117, 98, 88, 115,
    103, 71, 57, 105, 104, 78, 51, 50, 112, 115, 69, 49, 106, 121, 121, 103, 109]

/-- `RESERVED_ADDRESS8`, "cegQa9pRC8B38zd8Z47q97D4X5WwqhMry3VEm". -/
def reservedAddress8 : Address :=
  [99, 101, 103, 81, 97, 57, 112, 82, 67, 56, 66, 51, 56, 122, 100, 56, 90, 52, 55, 113, 57,
    55, 68, 52, 88, 53, 87, 119, 113, 104, 77, 114, 121, 51, 86, 69, 109]

/-! ## What the node takes from elsewhere -/

/-- The functions of the libraries the node is linked with. -/
structure Library where
  /-- The hash functions behind addresses. -/
  calcHash : SignatureType → Bytes → Bytes
  /-- `HashWrapper::Crypto`. -/
  crypto : Bytes → Bytes
  /-- `Transaction::SerializeAsString`. -/
  serialize : Transaction → Bytes
  /-- `TransactionEnv::ByteSize`. -/
  byteSize : TransactionEnv → ℕ
  /-- `GetEncAddress` of a public key, absent for a string that is not a key. -/
  pubkeyAddress : Bytes → Option Address
  /-- `PublicKey::Verify` of data, signature and public key. -/
  verify : Bytes → Bytes → Bytes → Bool
  /-- The result of `V8Contract::SourceCodeCheck`. -/
  sourceCodeCheck : Bytes → ErrCode

/-- `protocol::FeeConfig`. -/
structure FeeConfig where
  gasPrice : Int64
  baseReserve : Int64
  deriving DecidableEq

/-- What the execution of a block reads of the last closed ledger, through
`LedgerManager`, and of the configuration of the node. -/
structure Closed where
  /-- `GetLastClosedLedger().version()`. -/
  version : ℕ
  /-- `GetLastClosedLedger().seq()`. -/
  seq : ℤ
  /-- `GetCurFeeConfig()`. -/
  fees : FeeConfig
  /-- `tree_`, by the bytes of an address. -/
  tree : Table (Option Bytes) AccountFrm
  /-- `GetValidators` of the last closed ledger, absent when it fails. -/
  validatorsOfLast : Option (List Address)
  /-- `Validators()`, with their pledges. -/
  validators : List (Address × ℤ)
  /-- `forbid_addrs_`. -/
  forbidAddrs : List Address

namespace Closed

variable (lcl : Closed)

/-- `Environment::AccountFromDB`. -/
def accountFromDB (address : Address) : Option AccountFrm :=
  lcl.tree.lookup (decodeAddress address)

/-- `GET_CONTRACT_VALIDATOR_ADDRESS`. -/
def validatorAddress : Address :=
  if lcl.version > 1002 then contractDposAddress else contractValidatorAddress

/-- `GET_CONTRACT_FEE_ADDRESS`. -/
def feeAddress : Address :=
  if lcl.version > 1002 then contractDposAddress else contractFeeAddress

end Closed

/-! ## Operations -/

/-- `METADATA_KEY_MAXSIZE`. -/
def metadataKeyMaxsize : ℕ := 1024

/-- `METADATA_MAX_VALUE_SIZE`. -/
def metadataMaxValueSize : ℕ := 256 * 1024

/-- `CONTRACT_CODE_LIMIT`. -/
def contractCodeLimit : ℕ := 256 * 1024

/-- `CONTRACT_MAX_RECURSIVE_DEPTH`. -/
def contractMaxRecursiveDepth : ℕ := 4

/-- `ASSET_CODE_MAX_SIZE`. -/
def assetCodeMaxSize : ℕ := 64

/-- `UINT32_MAX`. -/
def uint32Max : ℤ := 2 ^ 32 - 1

namespace OperationFrm

/-- `OperationFrm::isReservedAddress`. -/
def isReservedAddress (addr : Address) : Bool :=
  addr = contractDposAddress || addr = reservedAddress4 || addr = reservedAddress5 ||
    addr = reservedAddress6 || addr = reservedAddress7 || addr = reservedAddress8

variable (lib : Library) (lcl : Closed)

/-- `OperationFrm::ReservedAddrAvailable`. -/
def reservedAddrAvailable (src dest : Address) : Bool :=
  !(isReservedAddress dest && decide (src ≠ reservedCreatorAddress) &&
    (lcl.accountFromDB dest).isNone)

/-- `ContractManager::SourceCodeCheck`. -/
def sourceCodeCheck (code : Bytes) (stackSize : ℕ) : ErrCode :=
  if lcl.version > 1001 ∧ stackSize > contractMaxRecursiveDepth then .contractTooManyRecursion
  else lib.sourceCodeCheck code

/-- The signers of a new privilege, up to the first that is refused: a weight out
of range, the account itself, no address, one listed before. -/
def checkSigners (self : Address) : List Signer → List Address → ErrCode
  | [], _ => .success
  | signer :: signers, seen =>
      if signer.weight < 0 ∨ signer.weight > uint32Max then .weightNotValid
      else if signer.address = self then .invalidAddress
      else if isAddressValid lib.calcHash signer.address = false then .invalidAddress
      else if signer.address ∈ seen then .invalidParameter
      else checkSigners self signers (signer.address :: seen)

/-- The type thresholds of a new privilege, up to the first that is refused. -/
def checkTypeThresholds : List OperationTypeThreshold → List ℤ → ErrCode
  | [], _ => .success
  | typeThreshold :: rest, seen =>
      if typeThreshold.type > 100 ∨ typeThreshold.type ≤ 0 then .invalidParameter
      else if typeThreshold.threshold < 0 then .thresholdNotValid
      else if typeThreshold.type ∈ seen then .invalidParameter
      else checkTypeThresholds rest (typeThreshold.type :: seen)

/-- The metadata of a new account.  The loop has no `break`: one bad pair decides. -/
def checkMetadatas (result : ErrCode) (metadatas : List KeyPair) : ErrCode :=
  if metadatas.any fun kp => decide (kp.key.length = 0 ∨ kp.key.length > metadataKeyMaxsize ∨
      kp.value.length > metadataMaxValueSize) then .invalidParameter
  else result

/-- The privilege of a new account without signers or type thresholds. -/
def isPlainPriv (masterWeight : ℤ) (priv : AccountPrivilege) (threshold : AccountThreshold) :
    Bool :=
  priv.masterWeight = masterWeight && priv.signers.isEmpty && threshold.txThreshold = 1 &&
    threshold.typeThresholds.isEmpty

/-- `OperationFrm::CheckCreateAccountGt1000`.  A refused type threshold only
leaves its code; the source check of a contract overwrites it. -/
def checkCreateAccountGt1000 (createAccount : OperationCreateAccount) (stackSize : ℕ) : ErrCode :=
  let isCreateContract := createAccount.contract.payload ≠ []
  let destAddress := createAccount.destAddress
  if isCreateContract ∧ destAddress ≠ [] ∧ destAddress ≠ lcl.validatorAddress ∧
      destAddress ≠ lcl.feeAddress then .invalidAddress
  else if ¬isCreateContract ∧ isAddressValid lib.calcHash destAddress = false then .invalidAddress
  else match createAccount.priv with
  | none => .invalidParameter
  | some priv =>
      if priv.masterWeight < 0 ∨ priv.masterWeight > uint32Max then .weightNotValid
      else match priv.thresholds with
      | none => .invalidParameter
      | some threshold =>
          if threshold.txThreshold < 0 then .thresholdNotValid
          else
            let result := checkTypeThresholds threshold.typeThresholds []
            if isCreateContract then
              if createAccount.contract.payload.length > contractCodeLimit then .invalidParameter
              else if isPlainPriv 0 priv threshold = false then .invalidParameter
              else
                let result := sourceCodeCheck lib lcl createAccount.contract.payload stackSize
                checkMetadatas result createAccount.metadatas
            else if isPlainPriv 1 priv threshold = false then .invalidParameter
            else checkMetadatas result createAccount.metadatas

/-- `CREATE_ACCOUNT` before ledger version 1001. -/
def checkCreateAccount (createAccount : OperationCreateAccount) (sourceAddress : Address)
    (stackSize : ℕ) : ErrCode :=
  let destAddress := createAccount.destAddress
  if isAddressValid lib.calcHash destAddress = false then .invalidAddress
  else if reservedAddrAvailable lcl sourceAddress destAddress = false then .invalidAddress
  else match createAccount.priv with
  | none => .invalidParameter
  | some priv =>
      if priv.masterWeight < 0 ∨ priv.masterWeight > uint32Max then .weightNotValid
      else match checkSigners lib destAddress priv.signers [] with
      | .success =>
          match priv.thresholds with
          | none => .invalidParameter
          | some threshold =>
              if threshold.txThreshold < 0 then .thresholdNotValid
              else
                let result := checkTypeThresholds threshold.typeThresholds []
                if createAccount.contract.payload ≠ [] then
                  if createAccount.contract.payload.length > contractCodeLimit then
                    .invalidParameter
                  else if isPlainPriv 0 priv threshold = false then .invalidParameter
                  else
                    let result := sourceCodeCheck lib lcl createAccount.contract.payload stackSize
                    checkMetadatas result createAccount.metadatas
                else checkMetadatas result createAccount.metadatas
      | code => code

/-- `PAY_ASSET`. -/
def checkPayAsset (payAsset : OperationPayAsset) (sourceAddress : Address) : ErrCode :=
  let assetCode : ErrCode :=
    match payAsset.asset with
    | none => .success
    | some asset =>
        if asset.key.type ≠ 0 then .assetInvalid
        else if asset.amount ≤ 0 then .assetInvalid
        else if asset.key.code.length = 0 ∨ asset.key.code.length > assetCodeMaxSize then
          .assetInvalid
        else if isAddressValid lib.calcHash asset.key.issuer = false then .assetInvalid
        else .success
  match assetCode with
  | .success =>
      if sourceAddress = payAsset.destAddress then .accountSourcedestEqual
      else if isAddressValid lib.calcHash payAsset.destAddress = false then .invalidAddress
      else .success
  | code => code

/-- `ISSUE_ASSET`. -/
def checkIssueAsset (issueAsset : OperationIssueAsset) : ErrCode :=
  let trimCode := String64.trim issueAsset.code
  if issueAsset.amount ≤ 0 then .assetInvalid
  else if trimCode.length = 0 ∨ trimCode.length > assetCodeMaxSize ∨
      trimCode.length ≠ issueAsset.code.length then .assetInvalid
  else .success

/-- `SET_METADATA`. -/
def checkSetMetadata (setMetadata : OperationSetMetadata) : ErrCode :=
  if setMetadata.key.length = 0 ∨ setMetadata.key.length > metadataKeyMaxsize then
    .invalidParameter
  else if setMetadata.value.length > metadataMaxValueSize then .invalidParameter
  else .success

/-- The signers of `SET_SIGNER_WEIGHT`, which may be listed twice. -/
def checkSignerWeights (sourceAddress : Address) : List Signer → ErrCode
  | [] => .success
  | signer :: signers =>
      if signer.weight < 0 ∨ signer.weight > uint32Max then .weightNotValid
      else if signer.address = sourceAddress then .invalidAddress
      else if isAddressValid lib.calcHash signer.address = false then .invalidAddress
      else checkSignerWeights sourceAddress signers

/-- `SET_SIGNER_WEIGHT`. -/
def checkSetSignerWeight (message : OperationSetSignerWeight) (sourceAddress : Address) : ErrCode :=
  if message.masterWeight < -1 ∨ message.masterWeight > uint32Max then .weightNotValid
  else checkSignerWeights lib sourceAddress message.signers

/-- The type thresholds of `SET_THRESHOLD`, which may be listed twice; both
refusals have the same code here. -/
def checkThresholdTypes : List OperationTypeThreshold → ErrCode
  | [] => .success
  | typeThreshold :: rest =>
      if typeThreshold.type > 100 ∨ typeThreshold.type ≤ 0 then .thresholdNotValid
      else if typeThreshold.threshold < 0 then .thresholdNotValid
      else checkThresholdTypes rest

/-- `SET_THRESHOLD`. -/
def checkSetThreshold (message : OperationSetThreshold) : ErrCode :=
  if message.txThreshold < -1 then .thresholdNotValid
  else checkThresholdTypes message.typeThresholds

/-- `PAY_COIN`. -/
def checkPayCoin (payCoin : OperationPayCoin) (sourceAddress : Address) : ErrCode :=
  if payCoin.amount < 0 then .invalidParameter
  else if sourceAddress = payCoin.destAddress then .accountSourcedestEqual
  else if isAddressValid lib.calcHash payCoin.destAddress = false then .invalidAddress
  else if reservedAddrAvailable lcl sourceAddress payCoin.destAddress = false then .invalidAddress
  else .success

/-- `LOG`. -/
def checkLog (log : OperationLog) : ErrCode :=
  if log.topic.length = 0 ∨ log.topic.length > 128 then .invalidParameter
  else if log.datas.any fun data => decide (data.length = 0 ∨ data.length > 1024) then
    .invalidParameter
  else .success

/-- `OperationFrm::CheckSetPrivilege`. -/
def checkSetPrivilege (message : OperationSetPrivilege) (sourceAddress : Address) : ErrCode :=
  let inRange (low high : ℤ) (str : Bytes) : Bool :=
    match String64.safeStoi64 str with
    | some n => low ≤ n && n ≤ high
    | none => false
  if message.masterWeight ≠ [] ∧ inRange 0 uint32Max message.masterWeight = false then
    .weightNotValid
  else match checkSigners lib sourceAddress message.signers [] with
  | .success =>
      if message.txThreshold ≠ [] ∧ inRange 0 (2 ^ 63 - 1) message.txThreshold = false then
        .thresholdNotValid
      else checkTypeThresholds message.typeThresholds []
  | code => code

/-- `OperationFrm::CheckValid`. -/
def checkValid (operation : Operation) (sourceAddress : Address) (stackSize : ℕ) : ErrCode :=
  if isAddressValid lib.calcHash sourceAddress = false then .invalidAddress
  else if sourceAddress ∈ lcl.forbidAddrs then .invalidAddress
  else match operation.body with
  | .createAccount message =>
      if lcl.version > 1000 then
        if reservedAddrAvailable lcl sourceAddress message.destAddress = false then .invalidAddress
        else checkCreateAccountGt1000 lib lcl message stackSize
      else checkCreateAccount lib lcl message sourceAddress stackSize
  | .payAsset message => checkPayAsset lib message sourceAddress
  | .issueAsset message => checkIssueAsset message
  | .setMetadata message => checkSetMetadata message
  | .setSignerWeight message => checkSetSignerWeight lib message sourceAddress
  | .setThreshold message => checkSetThreshold message
  | .payCoin message => checkPayCoin lib lcl message sourceAddress
  | .log message => checkLog message
  | .setPrivilege message => checkSetPrivilege lib message sourceAddress
  | .unknown => .invalidParameter
  | .other type _ => if OperationBody.isSentinel type then .success else .invalidParameter

end OperationFrm

/-! ## Transactions -/

/-- `TRANSACTION_LIMIT_SIZE`. -/
def transactionLimitSize : ℕ := 1024 * 1024

/-- `MAX_OPERATIONS_NUM_PER_TRANSACTION`. -/
def maxOperationsNumPerTransaction : ℕ := 100

/-- `FeeCalculate::GetOperationTypeGas`. -/
def getOperationTypeGas : OperationBody → Int64
  | .createAccount message => if message.contract.payload = [] then 0 else 1000000
  | .issueAsset _ => 5000000
  | _ => 0

namespace TransactionFrm

variable (lib : Library) (lcl : Closed)

/-- `hash_`. -/
def getContentHash (tran : Transaction) : Bytes :=
  lib.crypto (lib.serialize tran)

/-- `valid_signature_` as `Initialize` computes it. -/
def validSignature (env : TransactionEnv) : List Address :=
  env.signatures.filterMap fun signature =>
    match lib.pubkeyAddress signature.publicKey with
    | some address =>
        if lib.verify (lib.serialize env.transaction) signature.signData signature.publicKey then
          some address
        else none
    | none => none

/-- `TransactionFrm::GetSelfGas`. -/
def getSelfGas (env : TransactionEnv) : Int64 :=
  env.transaction.operations.foldl (fun gas ope => gas + getOperationTypeGas ope.body)
    (Int64.ofNat (lib.byteSize env))

/-- The loop over the operations of `ValidForParameter`, up to the first that is
refused. -/
def checkOperations (tran : Transaction) (stackSize : ℕ) : List Operation → ErrCode
  | [] => .success
  | ope :: operations =>
      let opeSource := tran.operationSource ope
      if isAddressValid lib.calcHash opeSource = false then .invalidAddress
      else if ope.metadata.length > metadataMaxValueSize then .invalidParameter
      else match OperationFrm.checkValid lib lcl ope opeSource stackSize with
      | .success => checkOperations tran stackSize operations
      | code => code

/-- `TransactionFrm::ValidForParameter`. -/
def validForParameter (env : TransactionEnv) (stackSize : ℕ) : ErrCode :=
  let tran := env.transaction
  if lib.byteSize env ≥ transactionLimitSize then .txSizeTooBig
  else if tran.operations.length = 0 then .missingOperations
  else if tran.operations.length > maxOperationsNumPerTransaction then .tooManyOperations
  else if tran.metadata.length > metadataMaxValueSize then .invalidParameter
  else if tran.ceilLedgerSeq > 0 ∧ tran.ceilLedgerSeq < lcl.seq + 1 then .invalidParameter
  else if tran.ceilLedgerSeq < 0 then .invalidParameter
  -- only the first transaction of the stack pays, so only its prices are checked
  else if stackSize = 0 ∧ tran.feeLimit < 0 then .invalidParameter
  else if stackSize = 0 ∧ tran.gasPrice < max 0 lcl.fees.gasPrice then .invalidParameter
  else checkOperations lib lcl tran stackSize tran.operations

/-- The loop over the signers of `SignerHashPriv`. -/
def signersReach (signed : List Address) : ℤ → List Signer → Bool
  | _, [] => false
  | threshold, signer :: signers =>
      let threshold := if signer.address ∈ signed then threshold - signer.weight else threshold
      if threshold ≤ 0 then true else signersReach signed threshold signers

/-- `TransactionFrm::SignerHashPriv`. -/
def signerHashPriv (env : TransactionEnv) (account : AccountFrm) (type : ℤ) : Bool :=
  let signed := validSignature lib env
  let typeThreshold := account.getTypeThreshold type
  let threshold := if typeThreshold > 0 then typeThreshold else account.thresholds.txThreshold
  let threshold :=
    if account.address ∈ signed then threshold - account.priv.masterWeight else threshold
  if threshold ≤ 0 then true else signersReach signed threshold account.priv.signers

/-- `TransactionFrm::CheckFee`. -/
def checkFee (env : TransactionEnv) (account : AccountFrm) : ErrCode :=
  let tran := env.transaction
  match safeIntSub account.balance tran.feeLimit with
  | none => .mathOverflow
  | some limitBalance =>
      if limitBalance < lcl.fees.baseReserve then .accountLowReserve
      else match safeIntMul (getSelfGas lib env) tran.gasPrice with
      | none => .invalidParameter
      | some txFee => if tran.feeLimit < txFee then .feeNotEnough else .success

end TransactionFrm

end CegChain
