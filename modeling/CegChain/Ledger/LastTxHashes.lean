import CegChain.Ledger.LedgerManager
import CegChain.Lib.Protobuf
import CegChain.Utils.BaseInt

/-!
# The last transactions

`LedgerFrm::AddToDb` of `ledger/ledger_frm.cpp`, with all that it writes to `ledger_db`.
Beside the transactions of the ledger it keeps, under `LAST_TX_HASHS`, the hashes of the
last hundred transactions of the chain, the newest first.  The list is rebuilt from the
new hashes alone when they are a hundred or more, and else from them and the list that
is there.  After any ledgers it is the end of the sequence of all hashes, reversed
(`lastTxHashs_exact`).

The database answers and takes every batch; the process ends where it does not take one.
-/

namespace CegChain

open Layers Protobuf

/-! ## Keys -/

/-- `ledger_db`: strings by strings. -/
abbrev KeyValueDb := Table Bytes Bytes

/-- `WRITE_BATCH`: what is put, in order. -/
abbrev WriteBatch := List (Bytes × Bytes)

/-- `KeyValueDb::WriteBatch`. -/
def KeyValueDb.writeBatch (batch : WriteBatch) (db : KeyValueDb) : KeyValueDb :=
  batch.foldl (fun db put => db.insert put.1 put.2) db

/-- `ComposePrefix`. -/
def composePrefix (start value : Bytes) : Bytes :=
  start ++ 95 :: value

namespace General

/-- `KEY_LEDGER_SEQ`, "max_seq". -/
def keyLedgerSeq : Bytes := [109, 97, 120, 95, 115, 101, 113]

/-- `LAST_TX_HASHS`, "last_tx_hashs". -/
def lastTxHashs : Bytes := [108, 97, 115, 116, 95, 116, 120, 95, 104, 97, 115, 104, 115]

/-- `LEDGER_PREFIX`, "ldg". -/
def ledgerStart : Bytes := [108, 100, 103]

/-- `TRANSACTION_PREFIX`, "tx". -/
def transactionStart : Bytes := [116, 120]

/-- `LEDGER_TRANSACTION_PREFIX`, "lgtx". -/
def ledgerTransactionStart : Bytes := [108, 103, 116, 120]

/-- `CONSENSUS_VALUE_PREFIX`, "cosv". -/
def consensusValueStart : Bytes := [99, 111, 115, 118]

/-- `LAST_TX_HASHS_LIMIT`. -/
def lastTxHashsLimit : ℕ := 100

end General

/-! ## The functions of the source -/

/-- `protocol::TransactionEnvStore`. -/
structure TransactionEnvStore where
  transactionEnv : TransactionEnv
  errorCode : ℤ := 0
  errorDesc : Bytes := []
  ledgerSeq : ℤ := 0
  closeTime : ℤ := 0
  hash : Bytes := []
  actualFee : Int64 := 0
  contractTxHashes : List Bytes := []

/-- `protocol::EntryList`. -/
abbrev EntryList := List Bytes

/-- `EntryList::SerializeAsString`. -/
def EntryList.serialize (list : EntryList) : Bytes :=
  repeated 10 list

/-- `EntryList::ParseFromString`.  What is read here was written by `serialize`. -/
def EntryList.parse (bytes : Bytes) : EntryList :=
  (readRepeated bytes.length bytes).getD []

/-- What `AddToDb` reads of a `TransactionFrm`. -/
structure AppliedTx where
  transactionEnv : TransactionEnv
  contentHash : Bytes
  /-- `GetResult().code()`. -/
  code : ℤ
  /-- `GetResult().desc()`. -/
  desc : Bytes := []
  feeLimit : Int64
  actualGas : Int64
  gasPrice : Int64
  /-- The transactions that contracts made on the way. -/
  instructions : List TransactionEnvStore := []

/-- What `AddToDb` reads of a `LedgerFrm`, and the consensus value that is in the batch
before, which the first ledger has not. -/
structure AppliedLedger where
  header : LedgerHeader
  applyTxFrms : List AppliedTx
  consensusValue : Option Bytes := none

/-- How the messages of a ledger are hashed and serialized. -/
structure StoreCodec where
  /-- `HashWrapper::Crypto`. -/
  crypto : Bytes → Bytes
  serializeHeader : LedgerHeader → Bytes
  serializeTransaction : Transaction → Bytes
  serializeStore : TransactionEnvStore → Bytes

/-- What the loops of `AddToDb` fill. -/
structure Stored where
  batch : WriteBatch
  list : EntryList := []

namespace AppliedLedger

variable (codec : StoreCodec)

/-- The hash under which the transaction of a contract is stored. -/
def instructionHash (envSto : TransactionEnvStore) : Bytes :=
  codec.crypto (codec.serializeTransaction envSto.transactionEnv.transaction)

/-- The body of the loop over `instructions_`. -/
def addInstruction (header : LedgerHeader) (s : Stored × TransactionEnvStore)
    (envSto : TransactionEnvStore) : Stored × TransactionEnvStore :=
  let hash := instructionHash codec envSto
  let envSto := { envSto with
    ledgerSeq := header.seq, closeTime := header.closeTime, hash := hash }
  ({ batch := s.1.batch ++
        [(composePrefix General.transactionStart hash, codec.serializeStore envSto)]
     list := s.1.list ++ [hash] },
    { s.2 with contractTxHashes := s.2.contractTxHashes ++ [hash] })

/-- `actual_fee`.  A product that overflows is left out. -/
def actualFee (ptr : AppliedTx) : Int64 :=
  if ptr.code ≠ 0 then ptr.feeLimit else (safeIntMul ptr.actualGas ptr.gasPrice).getD 0

/-- The body of the loop over `apply_tx_frms_`. -/
def addTx (header : LedgerHeader) (s : Stored) (ptr : AppliedTx) : Stored :=
  let envStore : TransactionEnvStore :=
    { transactionEnv := ptr.transactionEnv
      ledgerSeq := header.seq
      closeTime := header.closeTime
      errorCode := ptr.code
      errorDesc := ptr.desc
      actualFee := actualFee ptr }
  let s := { s with list := s.list ++ [ptr.contentHash] }
  let r := if ptr.code = 0 then ptr.instructions.foldl (addInstruction codec header) (s, envStore)
    else (s, envStore)
  { r.1 with batch := r.1.batch ++
      [(composePrefix General.transactionStart ptr.contentHash, codec.serializeStore r.2)] }

/-- `for (i = size - 1; ...; i--)`, over `count` entries: each is appended to `out`. -/
def copyDown (list : EntryList) : ℕ → ℕ → EntryList → EntryList
  | i + 1, count + 1, out => copyDown list i count (out ++ [list.getD i []])
  | _, _, out => out

/-- The loop over the entries that are there, while there is room. -/
def copyUp : EntryList → EntryList → EntryList
  | [], out => out
  | entry :: exist, out =>
      if out.length < General.lastTxHashsLimit then copyUp exist (out ++ [entry]) else out

/-- `new_last_hashs`. -/
def newLastHashs (list exist : EntryList) : EntryList :=
  if list.length < General.lastTxHashsLimit then
    copyUp exist (copyDown list list.length list.length [])
  else copyDown list list.length General.lastTxHashsLimit []

/-- The batch that the ledger finds. -/
def firstPuts (ledger : AppliedLedger) : WriteBatch :=
  match ledger.consensusValue with
  | none => []
  | some value =>
      [(composePrefix General.consensusValueStart (String64.toBytes ledger.header.seq), value)]

/-- The batch and the hashes of the ledger after the loop over the transactions. -/
def addTxs (ledger : AppliedLedger) : Stored :=
  ledger.applyTxFrms.foldl (addTx codec ledger.header)
    { batch := ledger.firstPuts ++
        [(General.keyLedgerSeq, String64.toBytes ledger.header.seq),
          (composePrefix General.ledgerStart (String64.toBytes ledger.header.seq),
            codec.serializeHeader ledger.header)] }

/-- `LedgerFrm::AddToDb`. -/
def addToDb (ledger : AppliedLedger) (db : KeyValueDb) : KeyValueDb :=
  let s := ledger.addTxs codec
  let batch := s.batch ++
    [(composePrefix General.ledgerTransactionStart (String64.toBytes ledger.header.seq),
      EntryList.serialize s.list)]
  let batch :=
    if s.list.length > 0 then
      let exist :=
        match db.lookup General.lastTxHashs with
        | some strLastHashs => EntryList.parse strLastHashs
        | none => []
      batch ++ [(General.lastTxHashs, EntryList.serialize (newLastHashs s.list exist))]
    else batch
  db.writeBatch batch

/-- A chain: every ledger is added in turn. -/
def addAll (ledgers : List AppliedLedger) : KeyValueDb :=
  ledgers.foldl (fun db ledger => ledger.addToDb codec db) ∅

/-! ## The hashes of a ledger -/

/-- The hash of a transaction, and those of the transactions it made when it succeeded. -/
def hashesOf (ptr : AppliedTx) : EntryList :=
  ptr.contentHash :: if ptr.code = 0 then ptr.instructions.map (instructionHash codec) else []

/-- The hash list of a ledger. -/
def hashList (ledger : AppliedLedger) : EntryList :=
  ledger.applyTxFrms.flatMap (hashesOf codec)

/-! ## What is put -/

/-- A batch that does not put a key leaves it alone. -/
theorem lookup_writeBatch_of_forall_ne {batch : WriteBatch} {key : Bytes}
    (hne : ∀ put ∈ batch, put.1 ≠ key) (db : KeyValueDb) :
    (db.writeBatch batch).lookup key = db.lookup key := by
  induction batch generalizing db with
  | nil => rfl
  | cons put batch ih =>
      rw [KeyValueDb.writeBatch, List.foldl_cons]
      calc (KeyValueDb.writeBatch batch (db.insert put.1 put.2)).lookup key
          = (db.insert put.1 put.2).lookup key :=
            ih (fun p hp => hne p (List.mem_cons_of_mem _ hp)) _
        _ = db.lookup key := AList.lookup_insert_ne (hne put (List.mem_cons_self ..)).symm

theorem lookup_writeBatch_concat (batch : WriteBatch) (key value : Bytes) (db : KeyValueDb) :
    (db.writeBatch (batch ++ [(key, value)])).lookup key = some value := by
  rw [KeyValueDb.writeBatch, List.foldl_append]
  exact AList.lookup_insert _

/-- No put of a batch is to the list of the last transactions. -/
def Others (batch : WriteBatch) : Prop :=
  ∀ put ∈ batch, put.1 ≠ General.lastTxHashs

theorem Others.concat {batch : WriteBatch} {key : Bytes} (hothers : Others batch)
    (hkey : key ≠ General.lastTxHashs) (value : Bytes) : Others (batch ++ [(key, value)]) := by
  intro put hput
  rcases List.mem_append.mp hput with hput | hput
  · exact hothers put hput
  · rw [List.mem_singleton.mp hput]
    exact hkey

theorem transactionKey_ne (hash : Bytes) :
    composePrefix General.transactionStart hash ≠ General.lastTxHashs := by
  simp [composePrefix, General.transactionStart, General.lastTxHashs]

theorem foldl_addInstruction (header : LedgerHeader) (instructions : List TransactionEnvStore)
    (s : Stored × TransactionEnvStore) (hothers : Others s.1.batch) :
    (instructions.foldl (addInstruction codec header) s).1.list =
        s.1.list ++ instructions.map (instructionHash codec) ∧
      Others (instructions.foldl (addInstruction codec header) s).1.batch := by
  induction instructions generalizing s with
  | nil => exact ⟨(List.append_nil _).symm, hothers⟩
  | cons envSto instructions ih =>
      have hstep := ih (addInstruction codec header s envSto)
        (hothers.concat (transactionKey_ne _) _)
      refine ⟨?_, hstep.2⟩
      rw [List.foldl_cons, hstep.1, List.map_cons, addInstruction, List.append_assoc]
      rfl

/-- One transaction adds its hashes to the list. -/
theorem addTx_spec (header : LedgerHeader) (s : Stored) (ptr : AppliedTx)
    (hothers : Others s.batch) :
    (addTx codec header s ptr).list = s.list ++ hashesOf codec ptr ∧
      Others (addTx codec header s ptr).batch := by
  by_cases hcode : ptr.code = 0
  · have hloop := foldl_addInstruction codec header ptr.instructions
      ({ s with list := s.list ++ [ptr.contentHash] },
        { transactionEnv := ptr.transactionEnv, ledgerSeq := header.seq,
          closeTime := header.closeTime, errorCode := ptr.code, errorDesc := ptr.desc,
          actualFee := actualFee ptr }) hothers
    simp only [addTx, if_pos hcode, hashesOf]
    refine ⟨?_, hloop.2.concat (transactionKey_ne _) _⟩
    rw [hloop.1, List.append_assoc]
    rfl
  · simp only [addTx, if_neg hcode, hashesOf]
    exact ⟨trivial, hothers.concat (transactionKey_ne _) _⟩

theorem foldl_addTx (header : LedgerHeader) (ptrs : List AppliedTx) (s : Stored)
    (hothers : Others s.batch) :
    (ptrs.foldl (addTx codec header) s).list = s.list ++ ptrs.flatMap (hashesOf codec) ∧
      Others (ptrs.foldl (addTx codec header) s).batch := by
  induction ptrs generalizing s with
  | nil => exact ⟨(List.append_nil _).symm, hothers⟩
  | cons ptr ptrs ih =>
      obtain ⟨hlist, hbatch⟩ := addTx_spec codec header s ptr hothers
      obtain ⟨hrest, hothers'⟩ := ih _ hbatch
      refine ⟨?_, hothers'⟩
      rw [List.foldl_cons, hrest, hlist, List.flatMap_cons, List.append_assoc]

/-- The loops collect the hash list, and put it nowhere yet. -/
theorem addTxs_spec (ledger : AppliedLedger) :
    (ledger.addTxs codec).list = ledger.hashList codec ∧ Others (ledger.addTxs codec).batch := by
  have hfirst : Others ledger.firstPuts := by
    intro put hput
    rw [firstPuts] at hput
    cases hvalue : ledger.consensusValue with
    | none =>
        rw [hvalue] at hput
        cases hput
    | some value =>
        rw [hvalue] at hput
        rw [List.mem_singleton.mp hput]
        simp [composePrefix, General.consensusValueStart, General.lastTxHashs]
  have hbatch : Others (ledger.firstPuts ++
      [(General.keyLedgerSeq, String64.toBytes ledger.header.seq),
        (composePrefix General.ledgerStart (String64.toBytes ledger.header.seq),
          codec.serializeHeader ledger.header)]) := by
    rw [List.append_cons]
    refine (hfirst.concat (by decide) _).concat ?_ _
    simp [composePrefix, General.ledgerStart, General.lastTxHashs]
  exact foldl_addTx codec ledger.header ledger.applyTxFrms _ hbatch

/-! ## The two branches -/

/-- Going down from `i` copies the entries below it in reverse. -/
theorem copyDown_eq (list : EntryList) {i : ℕ} (hi : i ≤ list.length) (count : ℕ)
    (out : EntryList) :
    copyDown list i count out = out ++ (list.take i).reverse.take count := by
  induction i generalizing count out with
  | zero => simp [copyDown]
  | succ i ih =>
      have hget : list.getD i [] = list[i] := by
        rw [List.getD_eq_getElem?_getD, List.getElem?_eq_getElem hi, Option.getD_some]
      have htake : (list.take (i + 1)).reverse = list[i] :: (list.take i).reverse := by
        rw [List.take_succ_eq_append_getElem hi, List.reverse_append, List.reverse_singleton,
          List.singleton_append]
      cases count with
      | zero => simp [copyDown]
      | succ count =>
          rw [copyDown, ih (Nat.le_of_succ_le hi), htake, List.take_succ_cons, hget,
            List.append_assoc, List.singleton_append]

/-- Going up copies what there is room for. -/
theorem copyUp_eq (exist out : EntryList) :
    copyUp exist out = out ++ exist.take (General.lastTxHashsLimit - out.length) := by
  induction exist generalizing out with
  | nil => simp [copyUp]
  | cons entry exist ih =>
      by_cases hroom : out.length < General.lastTxHashsLimit
      · have hone : General.lastTxHashsLimit - out.length =
            General.lastTxHashsLimit - (out ++ [entry]).length + 1 := by
          rw [List.length_append, List.length_singleton]
          omega
        rw [copyUp, if_pos hroom, ih, hone, List.take_succ_cons, List.append_assoc,
          List.singleton_append]
      · rw [copyUp, if_neg hroom, Nat.sub_eq_zero_of_le (not_lt.mp hroom), List.take_zero,
          List.append_nil]

/-- Either branch leaves the new hashes in reverse, then what there was, up to the limit. -/
theorem newLastHashs_eq (list exist : EntryList) :
    newLastHashs list exist = (list.reverse ++ exist).take General.lastTxHashsLimit := by
  rw [newLastHashs, copyDown_eq list le_rfl, copyDown_eq list le_rfl, List.take_length,
    List.nil_append, List.nil_append, copyUp_eq]
  have hall : list.reverse.take list.length = list.reverse :=
    List.take_of_length_le (List.length_reverse).le
  split_ifs with hshort
  · have hwhole : list.reverse.take General.lastTxHashsLimit = list.reverse :=
      List.take_of_length_le (by rw [List.length_reverse]; exact hshort.le)
    rw [hall, List.take_append, hwhole]
  · rw [List.take_append_of_le_length (by rw [List.length_reverse]; omega)]

/-- The last hashes of a chain, the newest first. -/
def recent (all : EntryList) : EntryList :=
  all.reverse.take General.lastTxHashsLimit

theorem recent_append (all list : EntryList) :
    recent (all ++ list) = newLastHashs list (recent all) := by
  rw [newLastHashs_eq, recent, recent, List.reverse_append, List.take_append, List.take_append,
    List.take_take, Nat.min_eq_left (Nat.sub_le ..)]

theorem parse_serialize (list : EntryList) : EntryList.parse (EntryList.serialize list) = list := by
  rw [EntryList.parse, EntryList.serialize,
    readRepeated_repeated_of_le 10 (length_le_length_repeated 10 list), Option.getD_some]

/-! ## The list -/

/-- The record after ledgers with these hashes: none while there are no hashes. -/
def recorded (all : EntryList) : Option Bytes :=
  if all = [] then none else some (EntryList.serialize (recent all))

/-- One ledger: the record of the chain before it becomes that of the chain with it. -/
theorem addToDb_recorded (ledger : AppliedLedger) {db : KeyValueDb} {all : EntryList}
    (hdb : db.lookup General.lastTxHashs = recorded all) :
    (ledger.addToDb codec db).lookup General.lastTxHashs =
      recorded (all ++ ledger.hashList codec) := by
  obtain ⟨hlist, hothers⟩ := addTxs_spec codec ledger
  have hkey : composePrefix General.ledgerTransactionStart
      (String64.toBytes ledger.header.seq) ≠ General.lastTxHashs := by
    simp [composePrefix, General.ledgerTransactionStart, General.lastTxHashs]
  have hothers' := hothers.concat hkey (EntryList.serialize (ledger.addTxs codec).list)
  rw [addToDb, hlist]
  dsimp only
  by_cases hempty : ledger.hashList codec = []
  · -- nothing is put under the key
    rw [hempty, if_neg (by simp), List.append_nil, ← hdb, ← hempty, ← hlist]
    exact lookup_writeBatch_of_forall_ne hothers' db
  · have hexist : (match db.lookup General.lastTxHashs with
        | some strLastHashs => EntryList.parse strLastHashs
        | none => []) = recent all := by
      rw [hdb, recorded]
      split_ifs with hall
      · rw [hall]
        rfl
      · exact parse_serialize _
    rw [if_pos (List.length_pos_iff.mpr hempty), lookup_writeBatch_concat, hexist,
      ← recent_append, recorded, if_neg (by simp [hempty])]

/-- **The list of the last transactions is exact.**  After any ledgers it holds the last
hundred hashes of all that were added, the newest first, and while there was none there is
no record. -/
theorem lastTxHashs_exact (codec : StoreCodec) (ledgers : List AppliedLedger) :
    (addAll codec ledgers).lookup General.lastTxHashs =
        (if ledgers.flatMap (hashList codec) = [] then none
          else some (EntryList.serialize
            ((ledgers.flatMap (hashList codec)).reverse.take General.lastTxHashsLimit))) ∧
      (∀ value ∈ (addAll codec ledgers).lookup General.lastTxHashs,
        EntryList.parse value =
            (ledgers.flatMap (hashList codec)).reverse.take General.lastTxHashsLimit ∧
          (EntryList.parse value).length ≤ General.lastTxHashsLimit) := by
  have hrecorded : (addAll codec ledgers).lookup General.lastTxHashs =
      recorded (ledgers.flatMap (hashList codec)) := by
    induction ledgers using List.reverseRecOn with
    | nil => rfl
    | append_singleton ledgers ledger ih =>
        rw [addAll, List.foldl_append, List.flatMap_append, List.flatMap_singleton]
        exact addToDb_recorded codec ledger ih
  refine ⟨hrecorded, fun value hvalue => ?_⟩
  rw [hrecorded, recorded] at hvalue
  split_ifs at hvalue with hall
  · cases hvalue
  · obtain rfl := Option.some.inj hvalue
    rw [parse_serialize]
    exact ⟨rfl, List.length_take_le _ _⟩

end AppliedLedger

end CegChain
