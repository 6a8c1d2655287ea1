import CegChain.Ledger.LedgerFrm
import CegChain.Trie.KVTrie

/-!
# The ledger manager

`ledger/ledger_manager.cpp`: the closing of ledgers and the start of a node.  A closed
ledger is written in two batches, first to the database of ledgers and then to the
database of accounts; between the two the node may die, and `Initialize` starts from
what it then finds.

The keys of a database begin with a word for their kind (`acc`, `validators-`, `fees-`,
`max_seq`, `last_proof`; `max_seq`, `ldg_`), so that each kind is a table of its own
here, and a number that the code prints and reads back is kept as a number.  `none` is
the end of the process.
-/

namespace CegChain

open Layers AtomMap

/-! ## Messages -/

/-- `protocol::ValidatorSet`: the addresses with their pledges. -/
abbrev ValidatorSet := List (Address × ℤ)

/-- `protocol::LedgerUpgrade`. -/
structure LedgerUpgrade where
  newLedgerVersion : ℤ := 0
  newValidator : Address := []
  deriving DecidableEq

/-- A `protocol::ConsensusValue` with what the closing of a ledger reads of it. -/
structure ClosingValue extends ConsensusValue where
  closeTime : ℤ := 0
  previousLedgerHash : Bytes := []
  previousProof : Bytes := []
  ledgerUpgrade : Option LedgerUpgrade := none
  deriving DecidableEq

/-- `protocol::LedgerHeader`. -/
structure LedgerHeader where
  seq : ℤ
  hash : Bytes := []
  previousHash : Bytes := []
  accountTreeHash : Bytes
  closeTime : ℤ := 0
  consensusValueHash : Bytes
  version : ℤ
  txCount : ℤ := 0
  validatorsHash : Bytes := []
  feesHash : Bytes := []
  reserve : Bytes := []
  chainId : ℤ := 0
  deriving DecidableEq

/-- `GenesisConfigure`. -/
structure GenesisConfigure where
  account : Address
  validators : List Address
  fees : FeeConfig
  chainId : ℤ
  slogan : Bytes

/-- A node: how it was built and configured, and how it hashes, serializes and checks
proofs. -/
structure Node where
  /-- `OS_LINUX` is defined. -/
  linux : Bool
  genesis : GenesisConfigure
  /-- `hardfork_points_`. -/
  hardforkPoints : List Bytes
  /-- `Consensus::CheckProof`. -/
  checkProof : ValidatorSet → Bytes → Bytes → Bool
  /-- `HashWrapper::Crypto`, and the records of the account trie. -/
  codec : Trie.Codec
  /-- `AccountFrm::Serializer`. -/
  serializeAccount : AccountFrm → Bytes
  serializeRequest : ClosingValue → Bytes
  serializeLedger : LedgerHeader → List TransactionEnv → Bytes
  serializeHeader : LedgerHeader → Bytes
  parseHeader : Bytes → LedgerHeader
  parse_header : ∀ header, parseHeader (serializeHeader header) = header
  serializeValidators : ValidatorSet → Bytes
  parseValidators : Bytes → Option ValidatorSet
  parse_validators : ∀ set, parseValidators (serializeValidators set) = some set
  serializeFees : FeeConfig → Bytes
  parseFees : Bytes → Option FeeConfig
  parse_fees : ∀ fees, parseFees (serializeFees fees) = some fees

/-- `HashWrapper::Crypto`. -/
abbrev Node.crypto (node : Node) : Bytes → Bytes := node.codec.crypto

/-- `General::LEDGER_VERSION`. -/
def ledgerVersion : ℤ := 1003

/-- `General::ACCOUNT_PREFIX`, "acc". -/
def accountStart : Bytes := [97, 99, 99]

/-! ## The databases -/

/-- `account_db`. -/
structure AccountDb where
  /-- The records and leaves of the account trie. -/
  nodes : Trie.Db := ∅
  /-- `KEY_LEDGER_SEQ`. -/
  maxSeq : Option ℤ := none
  /-- The validator sets, by their hash. -/
  validators : Table Bytes Bytes := ∅
  /-- The fees, by their hash. -/
  fees : Table Bytes Bytes := ∅
  /-- `LAST_PROOF`. -/
  lastProof : Option Bytes := none

/-- An entry of the batch for `account_db`, other than those of the trie. -/
inductive Entry where
  | maxSeq (seq : ℤ)
  | validators (hash value : Bytes)
  | fees (hash value : Bytes)
  | lastProof (proof : Bytes)
  deriving DecidableEq

namespace AccountDb

/-- One entry is written. -/
def put (db : AccountDb) : Entry → AccountDb
  | .maxSeq seq => { db with maxSeq := some seq }
  | .validators hash value => { db with validators := db.validators.insert hash value }
  | .fees hash value => { db with fees := db.fees.insert hash value }
  | .lastProof proof => { db with lastProof := some proof }

/-- `WriteBatch`: the entries are written in order. -/
def writeBatch (writes : List Trie.Write) (entries : List Entry) (db : AccountDb) : AccountDb :=
  entries.foldl put { db with nodes := Trie.writeBatch writes db.nodes }

end AccountDb

/-- `ledger_db`. -/
structure LedgerDb where
  /-- `KEY_LEDGER_SEQ`. -/
  maxSeq : Option ℤ := none
  /-- The headers, by their sequence. -/
  headers : Table ℤ Bytes := ∅

/-- `Storage`. -/
structure Storage where
  accountDb : AccountDb := {}
  ledgerDb : LedgerDb := {}

section Node

variable (node : Node)

/-- `LedgerFrm::AddToDb`. -/
def LedgerDb.addToDb (header : LedgerHeader) (db : LedgerDb) : LedgerDb where
  maxSeq := some header.seq
  headers := db.headers.insert header.seq (node.serializeHeader header)

/-- `LedgerFrm::LoadFromDb`. -/
def LedgerDb.loadFromDb (seq : ℤ) (db : LedgerDb) : Option LedgerHeader :=
  (db.headers.lookup seq).map node.parseHeader

/-- `LedgerManager::GetMaxLedger`. -/
def LedgerDb.getMaxLedger (db : LedgerDb) : ℤ :=
  db.maxSeq.getD 0

/-- `LedgerManager::ValidatorsGet`. -/
def AccountDb.validatorsGet (hash : Bytes) (db : AccountDb) : Option ValidatorSet :=
  (db.validators.lookup hash).bind node.parseValidators

/-- `LedgerManager::ValidatorsSet`. -/
def validatorsSet (validators : ValidatorSet) : Entry :=
  .validators (node.crypto (node.serializeValidators validators))
    (node.serializeValidators validators)

/-- `LedgerManager::FeesConfigGet`. -/
def AccountDb.feesConfigGet (hash : Bytes) (db : AccountDb) : Option FeeConfig :=
  (db.fees.lookup hash).bind node.parseFees

/-- `LedgerManager::FeesConfigSet`. -/
def feesConfigSet (fees : FeeConfig) : Entry :=
  .fees (node.crypto (node.serializeFees fees)) (node.serializeFees fees)

/-- `LedgerManager::GetValidators`. -/
def Storage.getValidators (seq : ℤ) (storage : Storage) : Option ValidatorSet := do
  let header ← storage.ledgerDb.loadFromDb node seq
  storage.accountDb.validatorsGet node header.validatorsHash

/-- `LedgerManager::CheckAndRepairLedgerSeq`. -/
def Storage.checkAndRepairLedgerSeq (storage : Storage) : Option Storage :=
  if node.linux then some storage
  else match storage.ledgerDb.maxSeq, storage.accountDb.maxSeq with
    | none, none => some storage
    | some ledgerDbSeq, some accountDbSeq =>
        if accountDbSeq = ledgerDbSeq then some storage
        else if accountDbSeq ≠ ledgerDbSeq - 1 then none
        else some { storage with
          ledgerDb := { storage.ledgerDb with maxSeq := some accountDbSeq } }
    | _, _ => none

end Node

/-! ## Votes -/

namespace LedgerContext

/-- `Environment::GetVotedFee`: whether the fees change, and what they are. -/
def getVotedFee (oldFee : FeeConfig) (c : LedgerContext) : Bool × FeeConfig :=
  match ((c.environment.enter 0).getSetting 0 EnvStack.feesKey).1 with
  | some (.fees prices) =>
      prices.foldl (fun r price =>
        if price.1 = 1 ∧ r.2.gasPrice ≠ Int64.ofInt price.2 then
          (true, { r.2 with gasPrice := Int64.ofInt price.2 })
        else if price.1 = 2 ∧ r.2.baseReserve ≠ Int64.ofInt price.2 then
          (true, { r.2 with baseReserve := Int64.ofInt price.2 })
        else r) (false, oldFee)
  | _ => (false, oldFee)

/-- `Environment::GetVotedValidators`: whether there was a vote, and the set. -/
def getVotedValidators (oldValidator : ValidatorSet) (c : LedgerContext) : Bool × ValidatorSet :=
  match ((c.environment.enter 0).getSetting 0 EnvStack.validatorsKey).1 with
  | some (.validators members) => (true, members)
  | _ => (false, oldValidator)

end LedgerContext

/-! ## The manager -/

/-- `LedgerManager`. -/
structure LedgerManager where
  storage : Storage
  /-- `tree_`, which works on `account_db`. -/
  tree : Trie.KVTrie
  /-- What else is in `tree_->batch_`. -/
  entries : List Entry := []
  validators : ValidatorSet := []
  fees : FeeConfig := ⟨0, 0⟩
  proof : Bytes := []
  /-- The header of `last_closed_ledger_`. -/
  lastClosed : LedgerHeader

namespace LedgerManager

variable (node : Node)

/-- `account_db()->WriteBatch(*tree_->batch_)`. -/
def writeAccounts (lm : LedgerManager) : LedgerManager :=
  let accountDb := lm.storage.accountDb.writeBatch lm.tree.batch lm.entries
  { lm with
    storage := { lm.storage with accountDb := accountDb }
    tree := { lm.tree with db := accountDb.nodes } }

/-- `tree_->Set` of an account. -/
def setAccount (key : Bytes) (account : AccountFrm) (tree : Trie.KVTrie) : Option Trie.KVTrie :=
  (tree.set node.codec accountStart key (node.serializeAccount account)).map Prod.snd

/-! ### The start -/

/-- The accounts that `CreateGenesisAccount` makes, with the bytes of their addresses. -/
def genesisAccounts : List (Bytes × AccountFrm) :=
  ((decodeAddress node.genesis.account).getD [],
      .creatAccountFrm node.genesis.account 100000000000000000) ::
    node.genesis.validators.map fun address =>
      ((decodeAddress address).getD [], .creatAccountFrm address 0)

/-- The header of the first ledger. -/
def genesisHeader (accountTreeHash : Bytes) : LedgerHeader :=
  let request : ClosingValue :=
    { txset := [], ledgerSeq := 0, ledgerUpgrade := some { newLedgerVersion := 1000 } }
  let header : LedgerHeader :=
    { seq := 1
      accountTreeHash := accountTreeHash
      consensusValueHash := node.crypto (node.serializeRequest request)
      version := 1000
      validatorsHash := node.crypto
        (node.serializeValidators (node.genesis.validators.map fun address => (address, 0)))
      feesHash := node.crypto (node.serializeFees node.genesis.fees)
      reserve := node.genesis.slogan
      chainId := node.genesis.chainId }
  { header with hash := node.crypto (node.serializeLedger header []) }

/-- `LedgerManager::CreateGenesisAccount`.  The batch is written and not emptied. -/
def createGenesisAccount (storage : Storage) (tree : Trie.KVTrie) : Option LedgerManager :=
  if node.genesis.account ∈ node.genesis.validators then none
  else do
    let tree ← (genesisAccounts node).foldlM (fun tree account =>
      setAccount node account.1 account.2 tree) tree
    let tree := tree.updateHash node.codec accountStart
    let validators := node.genesis.validators.map fun address => (address, 0)
    let header := genesisHeader node tree.rootHash
    let lm : LedgerManager :=
      { storage := { storage with ledgerDb := storage.ledgerDb.addToDb node header }
        tree := tree
        entries := [.maxSeq 1, validatorsSet node validators, feesConfigSet node node.genesis.fees]
        validators := validators
        fees := node.genesis.fees
        lastClosed := header }
    some lm.writeAccounts

/-- The last closed ledger is loaded, or the first one is made. -/
def openLast (storage : Storage) (tree : Trie.KVTrie) : Option LedgerManager :=
  match storage.accountDb.maxSeq with
  | some _ =>
      (storage.ledgerDb.loadFromDb node storage.ledgerDb.getMaxLedger).map fun header =>
        { storage := storage, tree := tree, lastClosed := header }
  | none => createGenesisAccount node storage tree

/-- `LedgerManager::Initialize`. -/
def initializeNode (storage : Storage) : Option LedgerManager := do
  let storage ← storage.checkAndRepairLedgerSeq node
  let tree ← Trie.KVTrie.init node.codec accountStart storage.accountDb.nodes 4
  let lm ← openLast node storage tree
  let tree := lm.tree.updateHash node.codec accountStart
  let validators ← lm.storage.accountDb.validatorsGet node lm.lastClosed.validatorsHash
  let fees ← lm.storage.accountDb.feesConfigGet node lm.lastClosed.feesHash
  if lm.lastClosed.accountTreeHash ≠ tree.rootHash then none
  else if lm.lastClosed.version > ledgerVersion then none
  else some { lm with
    tree := tree
    validators := validators
    fees := fees
    proof := lm.storage.accountDb.lastProof.getD lm.proof }

/-! ### Closing a ledger -/

/-- The part of `GlueManager::CheckValueHelper` about the upgrade. -/
def checkUpgrade (value : ClosingValue) (lm : LedgerManager) : Bool :=
  match value.ledgerUpgrade with
  | none => true
  | some upgrade =>
      decide (upgrade.newLedgerVersion ≠ 0 →
          lm.lastClosed.version < upgrade.newLedgerVersion ∧
            upgrade.newLedgerVersion ≤ ledgerVersion) &&
        decide (upgrade.newValidator ≠ [] →
          node.crypto (node.serializeRequest value) ∈ node.hardforkPoints)

/-- The part of `GlueManager::CheckValueHelper` about the proof of the previous block. -/
def checkPreviousProof (value : ClosingValue) (lm : LedgerManager) : Bool :=
  if lm.lastClosed.seq = 1 then decide (value.previousProof = [])
  else if lm.lastClosed.seq > 1 then
    match lm.storage.getValidators node (value.ledgerSeq - 2) with
    | none => false
    | some set =>
        decide (lm.lastClosed.consensusValueHash ∈ node.hardforkPoints) ||
          node.checkProof set lm.lastClosed.consensusValueHash value.previousProof
  else true

/-- `GlueManager::CheckValueHelper`, which does not look at the time when a ledger is
closed. -/
def checkValueHelper (value : ClosingValue) (lm : LedgerManager) : Bool :=
  decide ((node.serializeRequest value).length < (16 + 2) * 1024 * 1024) &&
    decide (value.ledgerSeq = lm.lastClosed.seq + 1) &&
    decide (value.previousLedgerHash = lm.lastClosed.hash) &&
    checkUpgrade node value lm && checkPreviousProof node value lm

/-- `GlueManager::CheckValueAndProof`. -/
def checkValueAndProof (value : ClosingValue) (proof : Bytes) (lm : LedgerManager) : Bool :=
  match lm.storage.getValidators node (value.ledgerSeq - 1) with
  | none => false
  | some set =>
      let hash := node.crypto (node.serializeRequest value)
      checkValueHelper node value lm &&
        (node.checkProof set hash proof || decide (hash ∈ node.hardforkPoints))

/-- What `LedgerFrm::Commit` sets in the trie, in its order. -/
def committed (ledger : LedgerContext) : List (Bytes × AccountFrm) :=
  ledger.data.entries.filterMap fun entry =>
    entry.2.value?.map fun account => ((decodeAddress entry.1).getD [], account.updateHash)

/-- `LedgerFrm::Commit`. -/
def commit (ledger : LedgerContext) (tree : Trie.KVTrie) : Option Trie.KVTrie :=
  (committed ledger).foldlM (fun tree account => setAccount node account.1 account.2 tree) tree

/-- The validators that a hard fork puts in force. -/
def forkedSet (value : ClosingValue) : ValidatorSet :=
  match value.ledgerUpgrade with
  | some upgrade => if upgrade.newValidator ≠ [] then [(upgrade.newValidator, 0)] else []
  | none => []

/-- Whether the validators of a ledger are written, and what they are. -/
def newValidators (value : ClosingValue) (ledger : LedgerContext) (lm : LedgerManager) :
    Bool × ValidatorSet :=
  if forkedSet value ≠ [] then (true, forkedSet value)
  else ledger.getVotedValidators lm.validators

/-- `header.version` of the ledger. -/
def newVersion (value : ClosingValue) (lm : LedgerManager) : ℤ :=
  match value.ledgerUpgrade with
  | some upgrade =>
      if upgrade.newLedgerVersion > 0 then upgrade.newLedgerVersion else lm.lastClosed.version
  | none => lm.lastClosed.version

/-- A ledger that is ready to be written, and the manager that writes it. -/
structure Closing where
  header : LedgerHeader
  manager : LedgerManager

/-- `LedgerManager::CloseLedger` from the execution of the block to the writes: `ledger`
is the executed block, with the transactions `txs`. -/
def prepare (value : ClosingValue) (proof : Bytes) (ledger : LedgerContext)
    (txs : List TransactionEnv) (lm : LedgerManager) : Option Closing := do
  let tree ← commit node ledger lm.tree
  let tree := tree.updateHash node.codec accountStart
  let set := newValidators value ledger lm
  let fees := ledger.getVotedFee lm.fees
  let header : LedgerHeader :=
    { seq := value.ledgerSeq
      previousHash := value.previousLedgerHash
      accountTreeHash := tree.rootHash
      closeTime := value.closeTime
      consensusValueHash := node.crypto (node.serializeRequest value)
      version := newVersion value lm
      txCount := lm.lastClosed.txCount + txs.length
      validatorsHash := node.crypto (node.serializeValidators set.2)
      feesHash := node.crypto (node.serializeFees (if fees.1 then fees.2 else lm.fees))
      chainId := node.genesis.chainId }
  some
    { header := { header with hash := node.crypto (node.serializeLedger header txs) }
      manager := { lm with
        tree := tree
        entries := lm.entries ++ .maxSeq value.ledgerSeq ::
          ((if set.1 then [validatorsSet node set.2] else []) ++
            (if fees.1 then [feesConfigSet node fees.2] else []) ++ [.lastProof proof])
        validators := if set.1 then set.2 else lm.validators
        fees := if fees.1 then fees.2 else lm.fees
        proof := proof } }

/-- The batch of the ledger is written. -/
def Closing.writeLedger (closing : Closing) : LedgerManager :=
  { closing.manager with storage := { closing.manager.storage with
      ledgerDb := closing.manager.storage.ledgerDb.addToDb node closing.header } }

/-- Both batches are written, and the memory of the trie is freed. -/
def Closing.finish (closing : Closing) : LedgerManager :=
  let lm := (closing.writeLedger node).writeAccounts
  { lm with
    lastClosed := closing.header
    tree := { lm.tree with batch := [] }.freeMemory 4
    entries := [] }

/-- `LedgerManager::CloseLedger`, when the execution of the block (`SyncProcess`) gives
`executed`: whether the ledger was closed, and the manager afterwards. -/
def closeLedger (value : ClosingValue) (proof : Bytes)
    (executed : Option (LedgerContext × List TransactionEnv)) (lm : LedgerManager) :
    Option (Bool × LedgerManager) :=
  if checkValueAndProof node value proof lm = false then some (false, lm)
  else match executed with
    | none => some (false, lm)
    | some (ledger, txs) =>
        (prepare node value proof ledger txs lm).map fun closing => (true, closing.finish node)

end LedgerManager

end CegChain
