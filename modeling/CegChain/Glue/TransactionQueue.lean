import CegChain.Ledger.Transaction
import CegChain.Lib.Nodes
import Mathlib.Data.List.AList

/-!
# The transaction pool

`TransactionQueue` of `glue/transaction_queue.cpp`.  Four containers hold the same
transactions: `queue_` in the order in which they are proposed, `time_queue_` in the order
in which they have come in, `queue_by_address_and_nonce_` with iterators into these two,
and `queue_by_hash_`.  `account_nonce_` has the nonce of every account with transactions in
the pool.

`queue_` is ordered by a comparison that reads `account_nonce_`, which changes while the
transactions are in the queue; where the tree puts a new one is therefore left open
(`place`).  The comparison of gas prices in floating point is the parameter `outbids`.

A loop that does not end, and an iterator that points nowhere, is `none`.
-/

namespace CegChain

/-- `TransactionFrm` as the pool sees it. -/
structure QueuedTransaction where
  env : TransactionEnv
  /-- `incoming_time_`. -/
  incomingTime : ℤ
  deriving DecidableEq

namespace QueuedTransaction

variable (tx : QueuedTransaction)

/-- `GetSourceAddress`. -/
def sourceAddress : Address := tx.env.transaction.sourceAddress

/-- `GetNonce`. -/
def nonce : ℤ := tx.env.transaction.nonce

/-- `GetGasPrice`. -/
def gasPrice : Int64 := tx.env.transaction.gasPrice

/-- `GetContentHash`. -/
def contentHash (lib : Library) : Bytes := TransactionFrm.getContentHash lib tx.env.transaction

/-- `CheckTimeout`. -/
def checkTimeout (expireTime : ℤ) : Bool := decide (tx.incomingTime < expireTime)

end QueuedTransaction

/-- `QueueByNonce`: for every nonce the iterators into the two queues. -/
abbrev QueueByNonce := AList fun _ : ℤ => ℕ × ℕ

/-- `TransactionQueue`. -/
structure TransactionQueue where
  /-- `queue_`. -/
  queue : List (ℕ × QueuedTransaction) := []
  /-- `time_queue_`. -/
  timeQueue : List (ℕ × QueuedTransaction) := []
  queueByAddressAndNonce : AList (fun _ : Address => QueueByNonce) := ∅
  queueByHash : AList (fun _ : Bytes => QueuedTransaction) := ∅
  accountNonce : AList (fun _ : Address => ℤ) := ∅
  /-- The name of the next node of the two queues. -/
  nextNode : ℕ := 0

/-- `QUEUE_TRANSACTION_TIMEOUT`. -/
def queueTransactionTimeout : ℤ := 600 * 1000000

/-- What `Import` returns: its result, and whether it has set
`ERRCODE_TX_INSERT_QUEUE_FAIL`. -/
structure ImportResult where
  inserted : Bool
  insertQueueFail : Bool
  deriving DecidableEq

/-- What the pool is configured with and where its functions come from. -/
structure PoolConfig where
  lib : Library
  /-- `queue_limit_`. -/
  queueLimit : ℕ
  /-- `account_txs_limit_`. -/
  accountTxsLimit : ℕ
  /-- Before how many elements of `queue_` a new transaction is put. -/
  place : QueuedTransaction → TransactionQueue → ℕ
  /-- `(tx->GetGasPrice() - p) >= (p * 0.1)`, with `p` the second argument. -/
  outbids : Int64 → Int64 → Bool

namespace TransactionQueue

variable (cfg : PoolConfig)

/-- `Remove(account_it, tx_it, del_empty)`. -/
def removeAt (address : Address) (byNonce : QueueByNonce) (nonce : ℤ) (iters : ℕ × ℕ)
    (delEmpty : Bool) (q : TransactionQueue) : TransactionQueue × Option QueuedTransaction :=
  let ptr := Nodes.deref iters.1 q.queue
  let byNonce := byNonce.erase nonce
  let q := { q with
    queue := Nodes.erase iters.1 q.queue
    timeQueue := Nodes.erase iters.2 q.timeQueue
    queueByAddressAndNonce := q.queueByAddressAndNonce.insert address byNonce
    queueByHash := match ptr with
      | some tx => q.queueByHash.erase (tx.contentHash cfg.lib)
      | none => q.queueByHash }
  if delEmpty && byNonce.entries.isEmpty then
    ({ q with
      queueByAddressAndNonce := q.queueByAddressAndNonce.erase address
      accountNonce := q.accountNonce.erase address }, ptr)
  else (q, ptr)

/-- `Remove(account_address, nonce)`. -/
def remove (address : Address) (nonce : ℤ) (q : TransactionQueue) :
    TransactionQueue × Option QueuedTransaction :=
  match q.queueByAddressAndNonce.lookup address with
  | some byNonce =>
      match byNonce.lookup nonce with
      | some iters => removeAt cfg address byNonce nonce iters true q
      | none => (q, none)
  | none => (q, none)

/-- The place of a transaction in `time_queue_`: behind those that have not come in later. -/
def timePlace (tx : QueuedTransaction) (q : TransactionQueue) : ℕ :=
  (q.timeQueue.takeWhile fun entry => decide (entry.2.incomingTime ≤ tx.incomingTime)).length

/-- `Insert`. -/
def insert (tx : QueuedTransaction) (q : TransactionQueue) : TransactionQueue :=
  let byNonce := (q.queueByAddressAndNonce.lookup tx.sourceAddress).getD ∅
  { q with
    queueByAddressAndNonce := q.queueByAddressAndNonce.insert tx.sourceAddress
      (byNonce.insert tx.nonce (q.nextNode, q.nextNode))
    queue := Nodes.emplace (cfg.place tx q) q.nextNode tx q.queue
    timeQueue := Nodes.emplace (timePlace tx q) q.nextNode tx q.timeQueue
    queueByHash := q.queueByHash.insert (tx.contentHash cfg.lib) tx
    nextNode := q.nextNode + 1 }

/-- One round of the loop of `Import` that deletes the transaction at the end of the queue. -/
def evictRound (q : TransactionQueue) : TransactionQueue × Option QueuedTransaction :=
  match q.queue.getLast? with
  | some (_, t) => ((remove cfg t.sourceAddress t.nonce q).1, some t)
  | none => (q, none)

/-- The loop of `Import` over the end of the queue, at most `fuel` rounds of it. -/
def evictLoop (tx : QueuedTransaction) :
    ℕ → TransactionQueue → ImportResult → Option (TransactionQueue × ImportResult)
  | fuel, q, result =>
      if cfg.queueLimit < q.queue.length then
        match fuel with
        | 0 => none
        | fuel + 1 =>
            let (q, t) := evictRound cfg q
            let result :=
              if t.map (·.contentHash cfg.lib) = some (tx.contentHash cfg.lib) then ⟨false, true⟩
              else result
            evictLoop tx fuel q result
      else some (q, result)

/-- The end of `Import`: insert the transaction, if the account has room for it, and keep the
queue within its limit.  Every round of the loop takes one transaction away, so as many
rounds as there are transactions are enough. -/
def importInsert (tx : QueuedTransaction) (replace : Bool) (accountTxsSize : ℕ)
    (q : TransactionQueue) : Option (TransactionQueue × ImportResult) :=
  let inserted? :=
    if replace || accountTxsSize < cfg.accountTxsLimit then
      let q := insert cfg tx q
      evictLoop cfg tx q.queue.length q ⟨true, false⟩
    else some (q, ⟨false, false⟩)
  inserted?.map fun (q, result) =>
    if cfg.accountTxsLimit ≤ accountTxsSize then (q, ⟨false, true⟩) else (q, result)

/-- How far `Import` gets before it inserts the transaction. -/
inductive ImportStep where
  /-- The transaction is dropped because of its low fee. -/
  | dropped (q : TransactionQueue)
  /-- The transaction can be inserted: `replace` and `account_txs_size`. -/
  | go (q : TransactionQueue) (replace : Bool) (accountTxsSize : ℕ)

/-- The first half of `Import`: set the nonce of the account, and make room for a transaction
that replaces another. -/
def importPrepare (tx : QueuedTransaction) (curSourceNonce : ℤ) (q : TransactionQueue) :
    Option ImportStep :=
  let q := { q with accountNonce := q.accountNonce.insert tx.sourceAddress curSourceNonce }
  match q.queueByAddressAndNonce.lookup tx.sourceAddress with
  | none => some (.go q false 0)
  | some byNonce =>
      match byNonce.lookup tx.nonce with
      | none => some (.go q false byNonce.entries.length)
      | some iters =>
          match Nodes.deref iters.1 q.queue with
          | none => none
          | some old =>
              if cfg.outbids tx.gasPrice old.gasPrice then
                let q := (removeAt cfg tx.sourceAddress byNonce tx.nonce iters true q).1
                let q := { q with
                  accountNonce := q.accountNonce.insert tx.sourceAddress curSourceNonce }
                some (.go q true (byNonce.entries.length - 1))
              else some (.dropped q)

/-- `Import`. -/
def importTx (tx : QueuedTransaction) (curSourceNonce : ℤ) (q : TransactionQueue) :
    Option (TransactionQueue × ImportResult) :=
  (importPrepare cfg tx curSourceNonce q).bind fun
    | .dropped q => some (q, ⟨false, true⟩)
    | .go q replace accountTxsSize => importInsert cfg tx replace accountTxsSize q

/-- The update of the account's nonce in `RemoveTxs`. -/
def updateNonce (address : Address) (nonce : ℤ) (closeLedger : Bool) (q : TransactionQueue) :
    TransactionQueue :=
  match q.accountNonce.lookup address with
  | some accountNonce =>
      if closeLedger && accountNonce < nonce then
        { q with accountNonce := q.accountNonce.insert address nonce }
      else q
  | none => q

/-- `RemoveTxs`, of a set of transactions or of a vector of pointers; the number of
transactions that were removed. -/
def removeTxs (closeLedger : Bool) : List TransactionEnv → TransactionQueue → TransactionQueue × ℕ
  | [], q => (q, 0)
  | env :: txs, q =>
      let sourceAddress := env.transaction.sourceAddress
      let nonce := env.transaction.nonce
      let (q, ptr) := remove cfg sourceAddress nonce q
      let (q, ret) := removeTxs closeLedger txs (updateNonce sourceAddress nonce closeLedger q)
      (q, if ptr.isSome then ret + 1 else ret)

/-- `SafeRemoveTx`. -/
def safeRemoveTx (address : Address) (nonce : ℤ) (q : TransactionQueue) : TransactionQueue :=
  (remove cfg address nonce q).1

/-- The transaction that the next round of the loop of `CheckTimeoutAndDel` deletes. -/
def timedOut? (currentTime : ℤ) (q : TransactionQueue) : Option QueuedTransaction :=
  match q.timeQueue with
  | (_, tx) :: _ =>
      if tx.checkTimeout (currentTime - queueTransactionTimeout) then some tx else none
  | [] => none

/-- One round of the loop of `CheckTimeoutAndDel`. -/
def timeoutRound (currentTime : ℤ) (q : TransactionQueue) : TransactionQueue :=
  match timedOut? currentTime q with
  | some tx => (remove cfg tx.sourceAddress tx.nonce q).1
  | none => q

/-- The loop of `CheckTimeoutAndDel`, at most `fuel` rounds of it. -/
def timeoutLoop (currentTime : ℤ) :
    ℕ → TransactionQueue → List QueuedTransaction →
      Option (TransactionQueue × List QueuedTransaction)
  | fuel, q, timeoutTxs =>
      match timedOut? currentTime q with
      | some tx =>
          match fuel with
          | 0 => none
          | fuel + 1 =>
              timeoutLoop currentTime fuel (timeoutRound cfg currentTime q) (timeoutTxs ++ [tx])
      | none => some (q, timeoutTxs)

/-- `CheckTimeoutAndDel`; as many rounds as there are transactions are enough. -/
def checkTimeoutAndDel (currentTime : ℤ) (q : TransactionQueue) :
    Option (TransactionQueue × List QueuedTransaction) :=
  timeoutLoop cfg currentTime q.timeQueue.length q []

/-! ## Runs -/

/-- The calls that change the pool. -/
inductive Call where
  | importTx (tx : QueuedTransaction) (curSourceNonce : ℤ)
  | removeTxs (txs : List TransactionEnv) (closeLedger : Bool)
  | safeRemoveTx (address : Address) (nonce : ℤ)
  | checkTimeoutAndDel (currentTime : ℤ)

/-- One call; nothing if it does not return. -/
def step (q : TransactionQueue) : Call → Option TransactionQueue
  | .importTx tx curSourceNonce => (importTx cfg tx curSourceNonce q).map Prod.fst
  | .removeTxs txs closeLedger => some (removeTxs cfg closeLedger txs q).1
  | .safeRemoveTx address nonce => some (safeRemoveTx cfg address nonce q)
  | .checkTimeoutAndDel currentTime => (checkTimeoutAndDel cfg currentTime q).map Prod.fst

/-- A sequence of calls on a new pool. -/
def run (calls : List Call) : Option TransactionQueue :=
  calls.foldlM (step cfg) {}

end TransactionQueue

end CegChain
