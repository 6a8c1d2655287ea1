import CegChain.Ledger.Program

/-!
# Executing a block

`LedgerFrm` of `ledger/ledger_frm.cpp`: a block is executed to propose it, to
check a proposal or to follow a block that was agreed on.  The three loops share
what they do with a transaction whose fee was charged (`charge`, `execute`,
`settle`); they differ in which checks come first and in what a failure means.

What a block meets outside of the ledger is its `Runtime`: the programs of the
contracts its transactions reach, the verdict of `IsExpire`, the clock and the
flag `enabled_` that another thread may clear.
-/

namespace CegChain

open Layers AtomMap

/-- `protocol::ConsensusValueValidation`. -/
structure ConsensusValueValidation where
  expireTxIds : List ℤ := []
  errorTxIds : List ℤ := []
  deriving DecidableEq

/-- The parts of `protocol::ConsensusValue` that the execution reads. -/
structure ConsensusValue where
  txset : List TransactionEnv
  ledgerSeq : ℤ
  validation : Option ConsensusValueValidation := none
  deriving DecidableEq

/-- What a block meets outside of the ledger. -/
structure Runtime where
  /-- The program of the contract that an operation of a transaction reaches, from
  the state in which the transaction is applied. -/
  program : TransactionEnv → LedgerContext → ℕ → Program
  /-- The verdict of `IsExpire` on a transaction that was applied. -/
  isExpire : TransactionEnv → LedgerContext → Bool
  /-- `IsExpire` was true while the contracts ran that brought a transaction to this
  state, and they caught what `InternalCheckTime` threw. -/
  caughtExpiry : TransactionEnv → LedgerContext → Bool
  /-- `enabled_` when the transaction of this index comes up. -/
  enabled : ℕ → Bool
  /-- More than `BLOCK_EXECUTE_TIME_OUT` has passed after the transaction of this
  index. -/
  timedOut : ℕ → Bool

/-- `REWARD_PERIOD`. -/
def rewardPeriod : ℤ := 5 * 365 * 24 * 60 * 60 / 10

/-- `REWARD_INIT_VALUE`. -/
def rewardInitValue : ℤ := 8 * 100000000

/-- The loop of `GetBlockReward`. -/
def rewardAfter : ℕ → ℤ → ℤ
  | 0, result => result
  | periods + 1, result =>
      if result ≤ 0 then 0
      else if result < 4 then rewardAfter periods (result * 3 / 4)
      else rewardAfter periods (result - result / 4)

/-- `GetBlockReward`. -/
def getBlockReward (curBlockHeight : ℤ) : ℤ :=
  rewardAfter (curBlockHeight.tdiv rewardPeriod).toNat rewardInitValue

namespace LedgerFrm

variable (lib : Library) (lcl : Closed)

/-- The loop of `CheckConsValueValidation` over one list of ids, with the ids seen
so far. -/
def checkTxIds (txSize : ℕ) : List ℤ → List ℤ → Option (List ℤ)
  | [], seen => some seen
  | tid :: tids, seen =>
      if tid ≥ txSize ∨ tid < 0 ∨ tid ∈ seen then none
      else checkTxIds txSize tids (tid :: seen)

/-- `LedgerFrm::CheckConsValueValidation`: the two sets, unless the value is
refused. -/
def checkConsValueValidation (request : ConsensusValue) : Option (Finset ℤ × Finset ℤ) :=
  match request.validation with
  | none => some (∅, ∅)
  | some validation =>
      (checkTxIds request.txset.length validation.expireTxIds []).bind fun seen =>
        (checkTxIds request.txset.length validation.errorTxIds seen).map fun _ =>
          (validation.expireTxIds.toFinset, validation.errorTxIds.toFinset)

/-- A transaction whose fee was paid goes on the stack, its source's nonce grows,
and both are committed. -/
def charge (env : TransactionEnv) (c : LedgerContext) : LedgerContext :=
  let c := (TransactionFrm.nonceIncrease lcl env 0 (c.push { env := env })).commit 0
  c.mark (.charged env c.data)

/-- `Apply` of a transaction of the block. -/
def execute (rt : Runtime) (env : TransactionEnv) (c : LedgerContext) : ErrCode × LedgerContext :=
  TransactionFrm.apply lib lcl
    (fun index this => ContractManager.execute lcl 0 this
      ((rt.program env c index).run lib lcl this false .success))
    env 0 false c

/-- `actual_gas_` of the transaction that was pushed on a stack of this size. -/
def ownGas (size : ℕ) (c : LedgerContext) : Int64 :=
  (c.transactionStack.reverse[size]?.map StackTx.actualGas).getD 0

/-- The end of a transaction: only one that succeeded, with the code that `result_` has then,
gets a refund and is committed, and the buffer is cleared. -/
def settle (env : TransactionEnv) (size : ℕ) (succeeded : Option ErrCode) (c : LedgerContext) :
    LedgerContext :=
  let c := match succeeded with
    | some result => (TransactionFrm.returnFee lcl env result (ownGas size c) 0 c).commit 0
    | none => c
  (c.clearChangeBuf 0).pop

/-- What became of a transaction that was applied. -/
inductive TxStatus where
  | succeeded
  | failed
  | expired
  deriving DecidableEq, Repr

/-- The code of `result_` when a transaction has succeeded under `EnableChecked`: `IsExpire` has
set it if it was true once. -/
def noted (rt : Runtime) (env : TransactionEnv) (c : LedgerContext) : ErrCode :=
  if rt.caughtExpiry env c then .contractExecuteExpired else .success

/-- The part of the loops of `ApplyPropose` and `ApplyCheck` after the fee. -/
def applyCharged (rt : Runtime) (env : TransactionEnv) (c : LedgerContext) :
    TxStatus × LedgerContext :=
  let size := c.transactionStack.length
  let r := execute lib lcl rt env (charge lcl env c)
  if rt.isExpire env r.2 then (.expired, settle lcl env size none r.2)
  else if r.1 ≠ .success then (.failed, settle lcl env size none r.2)
  else (.succeeded, settle lcl env size (some (noted rt env r.2)) r.2)

/-! ## Rewards -/

/-- The loop of `AllocateRewardDirectly`: each validator, an account created for
it when it has none, gets the average. -/
def rewardEach (averageFee : Int64) : List Address → LedgerContext → Bool × LedgerContext
  | [], c => (true, c)
  | address :: validators, c =>
      let r := c.getEntry lcl 0 address
      let account := r.1.getD (AccountFrm.creatAccountFrm address 0)
      let c := if r.1 = none then r.2.addEntry 0 address account else r.2
      match safeIntAdd account.balance averageFee with
      | none => (false, c)
      | some newBalance =>
          rewardEach averageFee validators (c.modifyEntry 0 address (·.setBalance newBalance))

/-- `LedgerFrm::AllocateRewardDirectly`. -/
def allocateRewardDirectly (seq : ℤ) (totalReward : Int64) (c : LedgerContext) :
    Bool × LedgerContext :=
  match lcl.validatorsOfLast with
  | none => (false, c)
  | some validators =>
      if validators.length = 0 then (false, c)
      else
        let averageFee := totalReward / Int64.ofNat validators.length
        match rewardEach lcl averageFee validators c with
        | (false, c) => (false, c)
        | (true, c) =>
            let leftReward := totalReward - Int64.ofNat validators.length * averageFee
            if leftReward > 0 then
              let randomIndex := seq.tmod validators.length
              let random := if randomIndex < 0 then none else validators[randomIndex.toNat]?
              match random.bind fun address => (c.deref 0 address).map fun account =>
                (address, account) with
              | none => (false, c.crash)
              | some (address, account) =>
                  match safeIntAdd account.balance leftReward with
                  | none => (false, c)
                  | some newBalance =>
                      (true, c.modifyEntry 0 address (·.setBalance newBalance))
            else (true, c)

/-- How `allocateReward` ends when it has paid the rewards. -/
def commitReward : Bool × LedgerContext → Bool × LedgerContext
  | (true, c) => (true, c.commit 0)
  | (false, c) => (false, c)

/-- `LedgerFrm::AllocateReward`. -/
def allocateReward (seq : ℤ) (c : LedgerContext) : Bool × LedgerContext :=
  let totalReward := c.totalFee + Int64.ofInt (getBlockReward seq)
  if totalReward = 0 then (true, c)
  else if lcl.version > 1002 then
    match c.getEntry lcl 0 lcl.validatorAddress with
    | (some account, c) =>
        match safeIntAdd account.balance totalReward with
        | none => (false, c)
        | some newBalance =>
            (true, (c.modifyEntry 0 lcl.validatorAddress (·.setBalance newBalance)).commit 0)
    | (none, c) => commitReward (allocateRewardDirectly lcl seq totalReward c)
  else commitReward (allocateRewardDirectly lcl seq totalReward c)

/-! ## The three loops -/

/-- The ids that a loop collects. -/
structure TxIds where
  /-- `need_dropped_tx_`. -/
  dropped : Finset ℤ := ∅
  expire : Finset ℤ := ∅
  error : Finset ℤ := ∅

/-- Note what became of the transaction with this id. -/
def TxIds.note (ids : TxIds) (id : ℤ) : TxStatus → TxIds
  | .succeeded => ids
  | .failed => { ids with error := insert id ids.error }
  | .expired => { ids with expire := insert id ids.expire }

/-- The loop of `ApplyPropose`, which stops without a result at a timeout.  Ids
are counted without the transactions dropped so far. -/
def proposeLoop (rt : Runtime) : ℕ → List TransactionEnv → TxIds → LedgerContext →
    Option TxIds × LedgerContext
  | _, [], ids, c => (some ids, c)
  | i, env :: txs, ids, c =>
      if rt.enabled i = false then (some ids, c)
      else match TransactionFrm.validForApply lib lcl env 0 c with
      | (.success, c) =>
          match TransactionFrm.payFee lcl env 0 c with
          | (true, c) =>
              let r := applyCharged lib lcl rt env c
              let ids := ids.note (i - ids.dropped.card) r.1
              if rt.timedOut i then (none, r.2) else proposeLoop rt (i + 1) txs ids r.2
          | (false, c) =>
              proposeLoop rt (i + 1) txs { ids with dropped := insert (i : ℤ) ids.dropped } c
      | (_, c) => proposeLoop rt (i + 1) txs { ids with dropped := insert (i : ℤ) ids.dropped } c

/-- The loop of `ApplyCheck`, which stops at the first transaction it refuses. -/
def checkLoop (rt : Runtime) : ℕ → List TransactionEnv → TxIds → LedgerContext →
    Option TxIds × LedgerContext
  | _, [], ids, c => (some ids, c)
  | i, env :: txs, ids, c =>
      if rt.enabled i = false then (some ids, c)
      else match TransactionFrm.validForApply lib lcl env 0 c with
      | (.success, c) =>
          match TransactionFrm.payFee lcl env 0 c with
          | (true, c) =>
              let r := applyCharged lib lcl rt env c
              if rt.timedOut i then (none, r.2)
              else checkLoop rt (i + 1) txs (ids.note i r.1) r.2
          | (false, c) => (none, c)
      | (_, c) => (none, c)

/-- The part of the loop of `ApplyFollow` after the fee: a transaction listed as
expired is not applied, and `IsExpire` is not enabled for the others. -/
def followCharged (rt : Runtime) (listed : Bool) (env : TransactionEnv) (c : LedgerContext) :
    TxStatus × LedgerContext :=
  let size := c.transactionStack.length
  let c := charge lcl env c
  if listed then (.expired, settle lcl env size none c)
  else
    let r := execute lib lcl rt env c
    if r.1 ≠ .success then (.failed, settle lcl env size none r.2)
    else (.succeeded, settle lcl env size (some .success) r.2)

/-- The loop of `ApplyFollow`: nothing is validated, and a transaction that cannot
pay is passed over. -/
def followLoop (rt : Runtime) (expireTxs : Finset ℤ) : ℕ → List TransactionEnv → TxIds →
    LedgerContext → TxIds × LedgerContext
  | _, [], ids, c => (ids, c)
  | i, env :: txs, ids, c =>
      if rt.enabled i = false then (ids, c)
      else match TransactionFrm.payFee lcl env 0 c with
      | (true, c) =>
          let r := followCharged lib lcl rt (decide ((i : ℤ) ∈ expireTxs)) env c
          followLoop rt expireTxs (i + 1) txs (ids.note i r.1) r.2
      | (false, c) => followLoop rt expireTxs (i + 1) txs ids c

/-- What is left of a block that was executed. -/
structure Applied where
  /-- What the function returned. -/
  accepted : Bool
  /-- What `AllocateReward` returned, absent when it was not called. -/
  rewarded : Option Bool
  ids : TxIds
  context : LedgerContext

/-- A block that was given up before the rewards. -/
def Applied.refused (c : LedgerContext) : Applied :=
  ⟨false, none, {}, c⟩

/-- `LedgerFrm::ApplyPropose`. -/
def applyPropose (rt : Runtime) (request : ConsensusValue) : Applied :=
  if request.validation ≠ none then .refused {}
  else match proposeLoop lib lcl rt 0 request.txset {} {} with
  | (none, c) => .refused c
  | (some ids, c) =>
      let r := allocateReward lcl request.ledgerSeq c
      ⟨!r.2.crashed, some r.1, ids, r.2⟩

/-- `LedgerFrm::ApplyCheck`. -/
def applyCheck (rt : Runtime) (request : ConsensusValue) : Applied :=
  match checkConsValueValidation request with
  | none => .refused {}
  | some (expireTxs, errorTxs) =>
      match checkLoop lib lcl rt 0 request.txset {} {} with
      | (none, c) => .refused c
      | (some ids, c) =>
          let r := allocateReward lcl request.ledgerSeq c
          ⟨decide (ids.expire = expireTxs ∧ ids.error = errorTxs) && !r.2.crashed, some r.1, ids,
            r.2⟩

/-- `LedgerFrm::ApplyFollow`. -/
def applyFollow (rt : Runtime) (request : ConsensusValue) : Applied :=
  match checkConsValueValidation request with
  | none => .refused {}
  | some (expireTxs, _) =>
      let (ids, c) := followLoop lib lcl rt expireTxs 0 request.txset {} {}
      let r := allocateReward lcl request.ledgerSeq c
      ⟨!r.2.crashed, some r.1, ids, r.2⟩

/-- `LedgerFrm::Commit`: the accounts of the block are written to the tree under
the bytes of their addresses, in the order of an `unordered_map`. -/
def commit (c : LedgerContext) : Table (Option Bytes) AccountFrm :=
  c.data.entries.foldl (fun tree entry =>
    match entry.2.value? with
    | some account => tree.insert (decodeAddress entry.1) account.updateHash
    | none => tree) lcl.tree

end LedgerFrm

/-! ## A small ledger -/

/-- Hash and signature functions under which the addresses below are valid. -/
def sampleLibrary : Library where
  calcHash := constantHash
  crypto := id
  serialize tran := tran.sourceAddress ++ String64.toBytes tran.nonce
  byteSize _ := 100
  pubkeyAddress publicKey := some publicKey
  verify _ signData publicKey := decide (signData = publicKey)
  sourceCodeCheck _ := .success

/-- "buQU7RFD8N18qGcjog4ei556MsLcBGXL8FVK". -/
def payerAddress : Address :=
  [98, 117, 81, 85, 55, 82, 70, 68, 56, 78, 49, 56, 113, 71, 99, 106, 111, 103, 52, 101, 105, 53,
    53, 54, 77, 115, 76, 99, 66, 71, 88, 76, 56, 70, 86, 75]

/-- "buQUfGWtApKr28wBXVGHSqbDMZJk6xhhYCmF". -/
def callerAddress : Address :=
  [98, 117, 81, 85, 102, 71, 87, 116, 65, 112, 75, 114, 50, 56, 119, 66, 88, 86, 71, 72, 83, 113,
    98, 68, 77, 90, 74, 107, 54, 120, 104, 104, 89, 67, 109, 70]

/-- "buQUqtGmrJS5kRiYmRfVh5svMTJ7wXRpgbrZ", a contract. -/
def calleeAddress : Address :=
  [98, 117, 81, 85, 113, 116, 71, 109, 114, 74, 83, 53, 107, 82, 105, 89, 109, 82, 102, 86, 104,
    53, 115, 118, 77, 84, 74, 55, 119, 88, 82, 112, 103, 98, 114, 90]

/-- Three accounts with 100 coins each. -/
def sampleClosed : Closed where
  version := 1003
  seq := 1
  fees := ⟨0, 0⟩
  tree := [payerAddress, callerAddress, calleeAddress].foldl (fun tree address =>
    tree.insert (decodeAddress address)
      { AccountFrm.creatAccountFrm address 100 with
        contract := if address = calleeAddress then { payload := [123, 125] } else {} }) ∅
  validatorsOfLast := some [callerAddress]
  validators := []
  forbidAddrs := []

/-- A signed payment. -/
def payment (source dest : Address) (amount : Int64) (nonce : ℤ) : TransactionEnv where
  transaction := {
    sourceAddress := source
    nonce := nonce
    operations := [{ body := .payCoin { destAddress := dest, amount := amount } }] }
  signatures := [⟨source, source⟩]

/-- A contract that pays one coin to `dest` when it is called. -/
def payingOut (dest : Address) : Runtime where
  program _ _ _ := .transact (.payCoin { destAddress := dest, amount := 1 }) []
    (.finish .returned) fun _ => .finish .returned
  isExpire _ _ := false
  caughtExpiry _ _ := false
  enabled _ := true
  timedOut _ := false

end CegChain
