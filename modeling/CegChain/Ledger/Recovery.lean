import CegChain.Ledger.Recorded
import CegChain.Trie.Reload

/-!
# Starting after a crash

`CloseLedger` writes the ledger first and the accounts second.  A node that dies between
the two writes has the new header and the old accounts.  `CheckAndRepairLedgerSeq` is
made for this: it takes the last ledger back by one.  On Linux it returns before it looks
(`#ifdef OS_LINUX`), so that `Initialize` holds the new header against the old trie.

`Rooted` is the invariant of every run: the database of accounts stands for a map, and
the header of the last closed ledger has its root hash.  A start succeeds from every
state in which it holds (`Rooted.exists_initializeNode`); from the state between the two
writes it succeeds on Linux only when the block leaves the map as it was and puts nothing
new in force (`recovers_iff`), and elsewhere always (`recovers_elsewhere`).
-/

namespace CegChain

open Layers Trie

theorem AccountDb.nodes_foldl (entries : List Entry) (db : AccountDb) :
    (entries.foldl put db).nodes = db.nodes := by
  induction entries generalizing db with
  | nil => rfl
  | cons entry entries ih =>
      rw [List.foldl_cons, ih]
      cases entry <;> rfl

namespace LedgerManager

variable (node : Node)

/-- Where a node dies that closes a ledger. -/
inductive CrashPoint where
  | before
  /-- The ledger is written, and the accounts are not. -/
  | between
  | after
  deriving DecidableEq

/-- What a node finds that died there. -/
def Closing.storageAt (closing : Closing) : CrashPoint → Storage
  | .before => closing.manager.storage
  | .between => (closing.writeLedger node).storage
  | .after => (closing.finish node).storage

/-- The trie stands for `M`, and the last closed ledger has its root hash. -/
structure Rooted (lm : LedgerManager) (M : Content) : Prop where
  nodes : lm.storage.accountDb.nodes = lm.tree.db
  version : lm.lastClosed.version ≤ ledgerVersion
  loaded : Loaded node.codec accountStart lm.tree M
  root : ∃ info, lm.lastClosed.accountTreeHash = node.crypto (node.codec.serialize info) ∧
    RootRecord node.codec accountStart lm.tree.db M info

/-- What a block sets, as bytes. -/
def committedItems (ledger : LedgerContext) : List (Bytes × Bytes) :=
  (committed ledger).map fun account => (account.1, node.serializeAccount account.2)

variable {node} {lm lm' : LedgerManager} {M : Content}

/-! ## Starting -/

/-- A start that succeeds has compared the root with the header. -/
theorem rootHash_of_initializeNode {storage : Storage}
    (hstart : initializeNode node storage = some lm) :
    lm.lastClosed.accountTreeHash = lm.tree.rootHash := by
  obtain ⟨-, -, lm₀, -, -, -, -, -, hroot, -, heq⟩ := initializeNode_eq_some hstart
  rw [heq]
  exact hroot

/-- **When a start succeeds**, on a database of accounts that stands for a map. -/
theorem exists_initializeNode_iff {storage storage' : Storage} {tree : KVTrie} {info : Info}
    {header : LedgerHeader} (hrepair : storage.checkAndRepairLedgerSeq node = some storage')
    (hloaded : Loaded node.codec accountStart tree M)
    (hnodes : storage'.accountDb.nodes = tree.db)
    (hopen : ∀ tree', openLast node storage' tree' =
      some { storage := storage', tree := tree', lastClosed := header })
    (hrecord : RootRecord node.codec accountStart tree.db M info) :
    (∃ lm, initializeNode node storage = some lm) ↔
      (storage'.accountDb.validatorsGet node header.validatorsHash).isSome ∧
        (storage'.accountDb.feesConfigGet node header.feesHash).isSome ∧
        header.accountTreeHash = node.crypto (node.codec.serialize info) ∧
        header.version ≤ ledgerVersion := by
  obtain ⟨tree', hinit, hdb, hloaded'⟩ := hloaded.init 4
  obtain ⟨-, info', hhash, hrecord'⟩ := hloaded'.updateHash
  obtain rfl : info' = info := hrecord'.unique hrecord
  have hrooted : (tree'.updateHash node.codec accountStart).rootHash =
      node.crypto (node.codec.serialize info') := hhash
  rw [← hnodes] at hinit
  constructor
  · rintro ⟨lm, hstart⟩
    obtain ⟨storage'', tree'', lm₀, hrepair', hinit', hopen', hvalidators, hfees, hroot, hversion,
      -⟩ := initializeNode_eq_some hstart
    rw [hrepair] at hrepair'
    obtain rfl := Option.some.inj hrepair'
    rw [hinit] at hinit'
    obtain rfl := Option.some.inj hinit'
    rw [hopen] at hopen'
    obtain rfl := Option.some.inj hopen'
    refine ⟨?_, ?_, ?_, hversion⟩
    · exact Option.isSome_iff_exists.mpr ⟨_, hvalidators⟩
    · exact Option.isSome_iff_exists.mpr ⟨_, hfees⟩
    · exact hroot.trans hrooted
  · rintro ⟨hvalidators, hfees, hroot, hversion⟩
    obtain ⟨validators, hvalidators⟩ := Option.isSome_iff_exists.mp hvalidators
    obtain ⟨fees, hfees⟩ := Option.isSome_iff_exists.mp hfees
    rw [← hrooted] at hroot
    unfold initializeNode
    rw [hrepair, Option.bind_eq_bind, Option.bind_some, hinit, Option.bind_eq_bind,
      Option.bind_some, hopen, Option.bind_eq_bind, Option.bind_some]
    dsimp only
    rw [hvalidators, Option.bind_eq_bind, Option.bind_some, hfees, Option.bind_eq_bind,
      Option.bind_some, if_neg (not_not.mpr hroot), if_neg (not_lt.mpr hversion)]
    exact ⟨_, rfl⟩

/-- **A start from what a run leaves succeeds.** -/
theorem Rooted.exists_initializeNode (hrooted : Rooted node lm M) (hrecorded : Recorded node lm) :
    ∃ lm', initializeNode node lm.storage = some lm' := by
  obtain ⟨info, hroot, hrecord⟩ := hrooted.root
  refine (exists_initializeNode_iff hrecorded.checkAndRepairLedgerSeq hrooted.loaded hrooted.nodes
    hrecorded.openLast hrecord).mpr ⟨?_, ?_, hroot, hrooted.version⟩
  · rw [hrecorded.validatorsHash, validatorsGet_of_has hrecorded.validators]
    rfl
  · rw [hrecorded.feesHash, feesConfigGet_of_has hrecorded.fees]
    rfl

/-- Hashing the trie once more changes nothing. -/
theorem Rooted.updateHash (hrooted : Rooted node lm M) (validators : ValidatorSet)
    (fees : FeeConfig) (proof : Bytes) :
    Rooted node { lm with
      tree := lm.tree.updateHash node.codec accountStart
      validators := validators
      fees := fees
      proof := proof } M :=
  ⟨hrooted.nodes, hrooted.version, hrooted.loaded.updateHash.1, hrooted.root⟩

theorem Rooted.restart (hrooted : Rooted node lm M) (hrecorded : Recorded node lm)
    (hstart : initializeNode node lm.storage = some lm') : Rooted node lm' M := by
  obtain ⟨storage', tree, lm₀, hrepair, hinit, hopen, -, -, -, -, heq⟩ :=
    initializeNode_eq_some hstart
  rw [hrecorded.checkAndRepairLedgerSeq] at hrepair
  obtain rfl := Option.some.inj hrepair
  rw [hrecorded.openLast] at hopen
  obtain rfl := Option.some.inj hopen
  obtain ⟨tree', hinit', hdb, hloaded⟩ := hrooted.loaded.init 4
  rw [hrooted.nodes, hinit'] at hinit
  obtain rfl := Option.some.inj hinit
  have hrooted' : Rooted node { storage := lm.storage, tree := tree', lastClosed := lm.lastClosed }
      M := by
    refine ⟨hrooted.nodes.trans hdb.symm, hrooted.version, hloaded, ?_⟩
    change ∃ info, _ ∧ RootRecord node.codec accountStart tree'.db M info
    rw [hdb]
    exact hrooted.root
  rw [heq]
  exact hrooted'.updateHash _ _ _

/-! ## The first ledger -/

/-- What is set in the trie, as a list of items. -/
theorem exists_setAccounts {tree : KVTrie} {M₀ : Content}
    (hsound : Sound node.codec accountStart { tree with batch := [] } M₀ M)
    (accounts : List (Bytes × AccountFrm)) :
    ∃ tree', accounts.foldlM (fun tree account => setAccount node account.1 account.2 tree) tree =
        some tree' ∧ tree'.db = tree.db ∧ tree'.batch = tree.batch ∧
      Sound node.codec accountStart { tree' with batch := [] } M₀ (overwrite M
        (accounts.map fun account => (account.1, node.serializeAccount account.2))) := by
  obtain ⟨tree', hsets, hrest⟩ := exists_sets
    (accounts.map fun account => (account.1, node.serializeAccount account.2)) hsound
  rw [List.foldlM_map] at hsets
  exact ⟨tree', hsets, hrest⟩

theorem tree_writeAccounts (hnodes : lm.storage.accountDb.nodes = lm.tree.db) :
    lm.writeAccounts.tree = { lm.tree with db := writeBatch lm.tree.batch lm.tree.db } ∧
      lm.writeAccounts.storage.accountDb.nodes = writeBatch lm.tree.batch lm.tree.db := by
  have hwritten : (lm.storage.accountDb.writeBatch lm.tree.batch lm.entries).nodes =
      writeBatch lm.tree.batch lm.tree.db := by
    rw [AccountDb.writeBatch, AccountDb.nodes_foldl, hnodes]
  refine ⟨?_, hwritten⟩
  rw [writeAccounts]
  dsimp only
  rw [hwritten]

theorem rooted_writeAccounts (hnodes : lm.storage.accountDb.nodes = lm.tree.db)
    (hversion : lm.lastClosed.version ≤ ledgerVersion)
    (hloaded : Loaded node.codec accountStart
      { lm.tree with db := writeBatch lm.tree.batch lm.tree.db } M)
    (hroot : ∃ info, lm.lastClosed.accountTreeHash = node.crypto (node.codec.serialize info) ∧
      RootRecord node.codec accountStart (writeBatch lm.tree.batch lm.tree.db) M info) :
    Rooted node lm.writeAccounts M := by
  obtain ⟨htree, hnodes'⟩ := tree_writeAccounts hnodes
  refine ⟨?_, hversion, ?_, ?_⟩
  · rw [hnodes', htree]
  · rw [htree]
    exact hloaded
  · rw [htree]
    exact hroot

/-- The accounts of the first ledger, over what the trie had before. -/
def genesisContent (node : Node) (M : Content) : Content :=
  overwrite M ((genesisAccounts node).map fun account =>
    (account.1, node.serializeAccount account.2))

theorem rooted_genesisContent {tree : KVTrie} (hempty : tree.db = ∅)
    (hsound : Sound node.codec accountStart tree M M)
    (hgenesis : createGenesisAccount node {} tree = some lm) :
    Rooted node lm (genesisContent node M) := by
  rw [createGenesisAccount] at hgenesis
  split at hgenesis
  · cases hgenesis
  obtain ⟨tree₁, hsets, hgenesis⟩ := Option.bind_eq_some_iff.mp hgenesis
  have hbatch := hsound.batch
  have hsound' : Sound node.codec accountStart { tree with batch := [] } M M := by
    rw [← hbatch]
    exact hsound
  obtain ⟨tree₂, hsets', hdb, hbatch', hsound₁⟩ :=
    exists_setAccounts hsound' (genesisAccounts node)
  obtain rfl : tree₂ = tree₁ := Option.some.inj (hsets'.symm.trans hsets)
  have hsettled : Trie.Settled tree₂.batch tree₂.db := by
    rw [hbatch', hbatch]
    exact settled_nil _
  obtain ⟨hloaded, -, info, hhash, hrecord⟩ := loaded_flush hsound₁ hsettled
  obtain rfl := Option.some.inj hgenesis
  refine rooted_writeAccounts ?_ ?_ hloaded ⟨info, hhash, hrecord⟩
  · exact (hdb.trans hempty).symm
  · change (1000 : ℤ) ≤ 1003
    norm_num

/-- A node that starts for the first time has the accounts of the first ledger. -/
theorem rooted_first (hstart : initializeNode node {} = some lm) :
    Rooted node lm (genesisContent node (content fun _ => none)) := by
  obtain ⟨storage', tree, lm₀, hrepair, hinit, hopen, -, -, -, -, heq⟩ :=
    initializeNode_eq_some hstart
  obtain rfl := eq_of_repair_empty hrepair
  obtain ⟨tree₀, hinit', hsound, -⟩ := sound_unused node.codec (unused_empty accountStart) 4
  obtain rfl : tree₀ = tree := Option.some.inj (hinit'.symm.trans hinit)
  rw [heq]
  exact (rooted_genesisContent (db_init hinit) hsound hopen).updateHash _ _ _

theorem rooted_initializeNode (hstart : initializeNode node {} = some lm) :
    ∃ M, Rooted node lm M :=
  ⟨_, rooted_first hstart⟩

/-! ## Closing -/

section Closing

variable {value : ClosingValue} {proof : Bytes} {ledger : LedgerContext}
  {txs : List TransactionEnv} {closing : Closing}

theorem newVersion_le (hversion : lm.lastClosed.version ≤ ledgerVersion)
    (hcheck : checkUpgrade node value lm = true) : newVersion value lm ≤ ledgerVersion := by
  unfold checkUpgrade at hcheck
  unfold newVersion
  split
  · rename_i upgrade hupgrade
    rw [hupgrade] at hcheck
    simp only [Bool.and_eq_true, decide_eq_true_eq] at hcheck
    split
    · rename_i hpos
      exact (hcheck.1 (by omega)).2
    · exact hversion
  · exact hversion

/-- What `CloseLedger` has in its hands before it writes: the map of the trie has the
accounts of the block. -/
structure Closing.Ready (node : Node) (lm : LedgerManager) (M : Content) (closing : Closing) :
    Prop where
  storage : closing.manager.storage = lm.storage
  db : closing.manager.tree.db = lm.tree.db
  loaded : Loaded node.codec accountStart { closing.manager.tree with
    db := writeBatch closing.manager.tree.batch lm.tree.db
    batch := [] } M
  root : ∃ info, closing.header.accountTreeHash = node.crypto (node.codec.serialize info) ∧
    RootRecord node.codec accountStart (writeBatch closing.manager.tree.batch lm.tree.db) M info

/-- **A block that was accepted can be written.** -/
theorem exists_prepare (hloaded : Loaded node.codec accountStart lm.tree M) (value : ClosingValue)
    (proof : Bytes) (ledger : LedgerContext) (txs : List TransactionEnv) :
    ∃ closing, prepare node value proof ledger txs lm = some closing ∧
      closing.header.version = newVersion value lm ∧
      closing.Ready node lm (overwrite M (committedItems node ledger)) := by
  obtain ⟨tree, hsets, hdb, hbatch, hsound⟩ := exists_setAccounts hloaded.sound (committed ledger)
  have hsettled : Trie.Settled tree.batch tree.db := by
    rw [hdb, hbatch]
    exact hloaded.settled
  obtain ⟨-, hloaded', info, hhash, hrecord⟩ := loaded_flush hsound hsettled
  have hupdate : (tree.updateHash node.codec accountStart).db = lm.tree.db := hdb
  rw [hupdate] at hloaded' hrecord
  have hcommit : commit node ledger lm.tree = some tree := hsets
  unfold prepare
  rw [hcommit, Option.bind_eq_bind, Option.bind_some]
  exact ⟨_, rfl, rfl, rfl, hdb, hloaded', info, hhash, hrecord⟩

/-- **A ledger that is written** is in the trie and in the database of accounts. -/
theorem Closing.Ready.finish {M' : Content} (hready : closing.Ready node lm M')
    (hnodes : lm.storage.accountDb.nodes = lm.tree.db) :
    (closing.finish node).storage.accountDb.nodes = (closing.finish node).tree.db ∧
      (closing.finish node).tree.db = writeBatch closing.manager.tree.batch lm.tree.db ∧
      Loaded node.codec accountStart (closing.finish node).tree M' := by
  have hnodes' : (closing.writeLedger node).storage.accountDb.nodes =
      (closing.writeLedger node).tree.db := by
    change closing.manager.storage.accountDb.nodes = closing.manager.tree.db
    rw [hready.storage, hready.db, hnodes]
  obtain ⟨htree, hwritten⟩ := tree_writeAccounts hnodes'
  have hdb : writeBatch (closing.writeLedger node).tree.batch (closing.writeLedger node).tree.db =
      writeBatch closing.manager.tree.batch lm.tree.db := by
    rw [← hready.db]
    rfl
  rw [hdb] at htree hwritten
  have hfinish : (closing.finish node).tree =
      ({ closing.manager.tree with
        db := writeBatch closing.manager.tree.batch lm.tree.db
        batch := [] } : KVTrie).freeMemory 4 := by
    change ({ (closing.writeLedger node).writeAccounts.tree with batch := [] } : KVTrie).freeMemory
      4 = _
    rw [htree]
    rfl
  rw [hfinish]
  exact ⟨hwritten, rfl, hready.loaded.freeMemory 4⟩

/-- **A ledger that is written is rooted.** -/
theorem Rooted.finish (hrooted : Rooted node lm M) {M' : Content}
    (hready : closing.Ready node lm M') (hversion : closing.header.version ≤ ledgerVersion) :
    Rooted node (closing.finish node) M' := by
  obtain ⟨hnodes, hdb, hloaded⟩ := hready.finish hrooted.nodes
  refine ⟨hnodes, hversion, hloaded, ?_⟩
  rw [hdb]
  exact hready.root

end Closing

/-! ## Whole runs -/

theorem Rooted.step (hrooted : Rooted node lm M) (hrecorded : Recorded node lm) {event : Event}
    (hrun : event.run node lm = some lm') : ∃ M', Rooted node lm' M' := by
  cases event with
  | restart => exact ⟨M, hrooted.restart hrecorded hrun⟩
  | close value proof executed =>
      obtain ⟨⟨closed, lm''⟩, hclose, rfl⟩ := Option.map_eq_some_iff.mp hrun
      rcases closeLedger_eq_some hclose with
        ⟨-, rfl⟩ | ⟨-, ledger, txs, closing, -, hcheck, hprepare, rfl⟩
      · exact ⟨M, hrooted⟩
      · obtain ⟨closing', hprepare', hversion, hready⟩ :=
          exists_prepare hrooted.loaded value proof ledger txs
        obtain rfl := Option.some.inj (hprepare'.symm.trans hprepare)
        refine ⟨_, hrooted.finish hready ?_⟩
        rw [hversion]
        exact newVersion_le hrooted.version (of_checkValueAndProof hcheck).2

theorem Rooted.runFrom (hcrypto : Function.Injective node.crypto) (hrooted : Rooted node lm M)
    (hrecorded : Recorded node lm) {events : List Event}
    (hrun : runFrom node lm events = some lm') : ∃ M', Rooted node lm' M' := by
  induction events generalizing lm M with
  | nil =>
      cases hrun
      exact ⟨M, hrooted⟩
  | cons event events ih =>
      rw [LedgerManager.runFrom, List.foldlM_cons] at hrun
      obtain ⟨lm₁, hevent, hrun⟩ := Option.bind_eq_some_iff.mp hrun
      obtain ⟨M₁, hrooted₁⟩ := hrooted.step hrecorded hevent
      exact ih hrooted₁ (hrecorded.step hcrypto hevent).1 hrun

theorem rooted_run (hcrypto : Function.Injective node.crypto) {events : List Event}
    (hrun : run node events = some lm) : ∃ M, Rooted node lm M := by
  obtain ⟨lm₀, hstart, hrun⟩ := Option.bind_eq_some_iff.mp hrun
  obtain ⟨M, hrooted⟩ := rooted_initializeNode hstart
  exact hrooted.runFrom hcrypto (recorded_initializeNode hcrypto hstart) hrun

/-! ## The map after a block -/

/-- The last value that is set under a key. -/
def lastSet (items : List (Bytes × Bytes)) (key : Bytes) : Option Bytes :=
  (items.reverse.find? fun item => item.1 = key).map Prod.snd

theorem overwrite_concat (M : Content) (items : List (Bytes × Bytes)) (item : Bytes × Bytes) :
    overwrite M (items ++ [item]) =
      Function.update (overwrite M items) (nibbles item.1) (some item.2) := by
  rw [overwrite, List.foldl_append]
  rfl

theorem overwrite_nibbles (M : Content) (items : List (Bytes × Bytes)) (key : Bytes) :
    overwrite M items (nibbles key) = (lastSet items key).or (M (nibbles key)) := by
  induction items using List.reverseRecOn with
  | nil => rfl
  | append_singleton items item ih =>
      rw [overwrite_concat, lastSet, List.reverse_append, List.reverse_singleton,
        List.singleton_append, List.find?_cons]
      by_cases heq : item.1 = key
      · rw [heq, Function.update_self]
        simp
      · rw [Function.update_of_ne fun h => heq (nibbles_injective h).symm, ih, lastSet]
        simp [heq]

theorem overwrite_of_forall_ne {items : List (Bytes × Bytes)} {q : Path}
    (hne : ∀ key, q ≠ nibbles key) : overwrite M items q = M q := by
  induction items using List.reverseRecOn with
  | nil => rfl
  | append_singleton items item ih => rw [overwrite_concat, Function.update_of_ne (hne _), ih]

/-- A block leaves the map as it was when every value it sets is there already. -/
theorem overwrite_eq_iff (M : Content) (items : List (Bytes × Bytes)) :
    overwrite M items = M ↔
      ∀ key value, lastSet items key = some value → M (nibbles key) = some value := by
  constructor
  · intro heq key value hlast
    rw [← heq, overwrite_nibbles, hlast, Option.some_or]
  · intro hsame
    funext q
    by_cases hkey : ∃ key, q = nibbles key
    · obtain ⟨key, rfl⟩ := hkey
      rw [overwrite_nibbles]
      cases hlast : lastSet items key with
      | none => rfl
      | some value => rw [hsame key value hlast, Option.some_or]
    · exact overwrite_of_forall_ne fun key heq => hkey ⟨key, heq⟩

/-! ## A crash -/

/-- The fees after a block. -/
def newFees (ledger : LedgerContext) (lm : LedgerManager) : FeeConfig :=
  if (ledger.getVotedFee lm.fees).1 then (ledger.getVotedFee lm.fees).2 else lm.fees

variable (node) in
/-- The database of accounts has what the block would leave there: every account that the
block sets, and the validators and the fees that it puts in force. -/
structure Harmless (value : ClosingValue) (ledger : LedgerContext) (lm : LedgerManager) :
    Prop where
  accounts : ∀ key bytes, lastSet (committedItems node ledger) key = some bytes →
    (lm.tree.get node.codec accountStart key).map Prod.fst = some (some bytes)
  validators : (lm.storage.accountDb.validatorsGet node (node.crypto
    (node.serializeValidators (newValidators value ledger lm).2))).isSome
  fees : (lm.storage.accountDb.feesConfigGet node (node.crypto
    (node.serializeFees (newFees ledger lm)))).isSome

section Crash

variable {value : ClosingValue} {proof : Bytes} {ledger : LedgerContext}
  {txs : List TransactionEnv} {closing : Closing}

theorem header_hashes (hprepare : prepare node value proof ledger txs lm = some closing) :
    closing.header.validatorsHash =
        node.crypto (node.serializeValidators (newValidators value ledger lm).2) ∧
      closing.header.feesHash = node.crypto (node.serializeFees (newFees ledger lm)) := by
  obtain ⟨tree, -, hclosing⟩ := Option.bind_eq_some_iff.mp hprepare
  cases hclosing
  exact ⟨rfl, rfl⟩

/-- Between the two writes, the header is the new one. -/
theorem openLast_between (hrecorded : Recorded node lm)
    (hstorage : closing.manager.storage = lm.storage) (tree : KVTrie) :
    openLast node (closing.storageAt node .between) tree =
      some { storage := closing.storageAt node .between, tree := tree,
             lastClosed := closing.header } := by
  have hmax : (closing.storageAt node .between).accountDb.maxSeq = some lm.lastClosed.seq := by
    change closing.manager.storage.accountDb.maxSeq = _
    rw [hstorage]
    exact hrecorded.maxSeq
  have hload : (closing.storageAt node .between).ledgerDb.loadFromDb node
      (closing.storageAt node .between).ledgerDb.getMaxLedger = some closing.header :=
    loadFromDb_addToDb _ _
  rw [LedgerManager.openLast, hmax, hload]
  rfl

/-- **Between the two writes, on Linux.** -/
theorem initializeNode_between_iff (hcrypto : Function.Injective node.crypto)
    (hlinux : node.linux = true) (hrecorded : Recorded node lm) (hrooted : Rooted node lm M)
    (hcheck : checkValueAndProof node value proof lm = true)
    (hprepare : prepare node value proof ledger txs lm = some closing)
    (hready : closing.Ready node lm (overwrite M (committedItems node ledger)))
    (hversion : closing.header.version = newVersion value lm) :
    (∃ lm', initializeNode node (closing.storageAt node .between) = some lm') ↔
      Harmless node value ledger lm := by
  obtain ⟨info, -, hrecord⟩ := hrooted.root
  obtain ⟨info', hroot', hrecord'⟩ := hready.root
  obtain ⟨hvalidators, hfees⟩ := header_hashes hprepare
  have hrepair : (closing.storageAt node .between).checkAndRepairLedgerSeq node =
      some (closing.storageAt node .between) := by
    rw [Storage.checkAndRepairLedgerSeq, if_pos hlinux]
  have haccounts : (closing.storageAt node .between).accountDb = lm.storage.accountDb := by
    change closing.manager.storage.accountDb = _
    rw [hready.storage]
  rw [exists_initializeNode_iff hrepair hrooted.loaded
    (by rw [haccounts]; exact hrooted.nodes) (openLast_between hrecorded hready.storage) hrecord,
    haccounts, hvalidators, hfees]
  -- the header has the root of the map after the block
  have hsame : closing.header.accountTreeHash = node.crypto (node.codec.serialize info) ↔
      overwrite M (committedItems node ledger) = M := by
    rw [hroot']
    constructor
    · exact fun hhash => hrecord'.content_eq hcrypto hrecord hhash
    · intro heq
      rw [heq] at hrecord'
      rw [hrecord'.unique hrecord]
  rw [hsame, overwrite_eq_iff]
  constructor
  · rintro ⟨hset, hfee, haccounts, -⟩
    refine ⟨fun key bytes hlast => ?_, hset, hfee⟩
    rw [hrooted.loaded.get key, haccounts key bytes hlast]
  · intro hharmless
    refine ⟨hharmless.validators, hharmless.fees, fun key bytes hlast => ?_, ?_⟩
    · have hget := hharmless.accounts key bytes hlast
      rw [hrooted.loaded.get key] at hget
      exact Option.some.inj hget
    · rw [hversion]
      exact newVersion_le hrooted.version (of_checkValueAndProof hcheck).2

/-- **Recovery on Linux.** A ledger that was accepted is written, and the node dies before,
between or after the two writes.  It starts again, with a ledger that has the root of its
trie, unless it died between the writes of a block that changes an account or puts
validators or fees in force that are not stored yet. -/
theorem recovers_iff (hcrypto : Function.Injective node.crypto) (hlinux : node.linux = true)
    {events : List Event} (hrun : run node events = some lm)
    (hcheck : checkValueAndProof node value proof lm = true) (ledger : LedgerContext)
    (txs : List TransactionEnv) :
    ∃ closing, prepare node value proof ledger txs lm = some closing ∧ ∀ point,
      (∃ lm', initializeNode node (closing.storageAt node point) = some lm' ∧
          lm'.lastClosed.accountTreeHash = lm'.tree.rootHash) ↔
        (point = .between → Harmless node value ledger lm) := by
  have hrecorded := recorded_run hcrypto hrun
  obtain ⟨M, hrooted⟩ := rooted_run hcrypto hrun
  obtain ⟨closing, hprepare, hversion, hready⟩ :=
    exists_prepare hrooted.loaded value proof ledger txs
  obtain ⟨hseq, hupgrade⟩ := of_checkValueAndProof hcheck
  refine ⟨closing, hprepare, fun point => ?_⟩
  have hstarts : (∃ lm', initializeNode node (closing.storageAt node point) = some lm' ∧
        lm'.lastClosed.accountTreeHash = lm'.tree.rootHash) ↔
      ∃ lm', initializeNode node (closing.storageAt node point) = some lm' :=
    ⟨fun ⟨lm', hstart, _⟩ => ⟨lm', hstart⟩,
      fun ⟨lm', hstart⟩ => ⟨lm', hstart, rootHash_of_initializeNode hstart⟩⟩
  rw [hstarts]
  cases point with
  | before =>
      refine iff_of_true ?_ nofun
      change ∃ lm', initializeNode node closing.manager.storage = some lm'
      rw [hready.storage]
      exact hrooted.exists_initializeNode hrecorded
  | between =>
      rw [initializeNode_between_iff hcrypto hlinux hrecorded hrooted hcheck hprepare hready
        hversion]
      exact ⟨fun hharmless _ => hharmless, fun hharmless => hharmless rfl⟩
  | after =>
      refine iff_of_true ?_ nofun
      have hversion' : closing.header.version ≤ ledgerVersion := by
        rw [hversion]
        exact newVersion_le hrooted.version hupgrade
      exact (hrooted.finish hready hversion').exists_initializeNode
        (hrecorded.finish hcrypto hprepare hseq).1

/-- **Recovery elsewhere.** Where `CheckAndRepairLedgerSeq` is compiled, a node that died
between the two writes starts again from the ledger before. -/
theorem recovers_elsewhere (hlinux : node.linux = false) (hrecorded : Recorded node lm)
    (hrooted : Rooted node lm M) (hseq : value.ledgerSeq = lm.lastClosed.seq + 1)
    (hprepare : prepare node value proof ledger txs lm = some closing) :
    ∃ lm', initializeNode node (closing.storageAt node .between) = some lm' := by
  obtain ⟨hheader, -, -, hstorage⟩ := header_prepare hprepare
  obtain ⟨info, hroot, hrecord⟩ := hrooted.root
  have hbetween : closing.storageAt node .between = { lm.storage with
      ledgerDb := lm.storage.ledgerDb.addToDb node closing.header } := by
    change { closing.manager.storage with
      ledgerDb := closing.manager.storage.ledgerDb.addToDb node closing.header } = _
    rw [hstorage]
  set repaired : Storage := { lm.storage with
    ledgerDb := { lm.storage.ledgerDb.addToDb node closing.header with
      maxSeq := some lm.lastClosed.seq } } with hrepaired
  have hrepair : (closing.storageAt node .between).checkAndRepairLedgerSeq node =
      some repaired := by
    rw [hbetween, Storage.checkAndRepairLedgerSeq, hlinux, if_neg Bool.false_ne_true,
      hrecorded.maxSeq]
    change (if lm.lastClosed.seq = closing.header.seq then _
      else if lm.lastClosed.seq ≠ closing.header.seq - 1 then _ else _) = _
    rw [if_neg (by omega), if_neg (by omega)]
  have hload : repaired.ledgerDb.loadFromDb node lm.lastClosed.seq = some lm.lastClosed := by
    rw [← hrecorded.loadFromDb, LedgerDb.loadFromDb, LedgerDb.loadFromDb]
    exact congrArg (Option.map node.parseHeader) (AList.lookup_insert_ne (by omega))
  have hopen : ∀ tree, openLast node repaired tree =
      some { storage := repaired, tree := tree, lastClosed := lm.lastClosed } := by
    intro tree
    have hmax : repaired.accountDb.maxSeq = some lm.lastClosed.seq := hrecorded.maxSeq
    have hload' : repaired.ledgerDb.loadFromDb node repaired.ledgerDb.getMaxLedger =
        some lm.lastClosed := hload
    rw [openLast, hmax, hload']
    rfl
  refine (exists_initializeNode_iff hrepair hrooted.loaded hrooted.nodes hopen hrecord).mpr
    ⟨?_, ?_, hroot, hrooted.version⟩
  · rw [hrecorded.validatorsHash]
    exact Option.isSome_iff_exists.mpr ⟨_, validatorsGet_of_has hrecorded.validators⟩
  · rw [hrecorded.feesHash]
    exact Option.isSome_iff_exists.mpr ⟨_, feesConfigGet_of_has hrecorded.fees⟩

end Crash

/-- The value after the first ledger. -/
def secondValue (lm : LedgerManager) : ClosingValue :=
  { txset := [], ledgerSeq := 2, previousLedgerHash := lm.lastClosed.hash }

/-- A block that pays the reward to the validator. -/
def rewarding : LedgerContext :=
  (({} : LedgerContext).addEntry 0 [51] (.creatAccountFrm [51] 800000000)).commit 0

/-- A node that dies while it closes a block without accounts starts again. -/
theorem recovers_empty_block :
    ∃ lm, run (.sample true) [] = some lm ∧
      checkValueAndProof (.sample true) (secondValue lm) [] lm = true ∧
      Harmless (.sample true) (secondValue lm) {} lm ∧
      ∃ closing, prepare (.sample true) (secondValue lm) [] {} [] lm = some closing ∧
        ∀ point, ∃ lm', initializeNode (.sample true)
            (closing.storageAt (.sample true) point) = some lm' ∧
          lm'.lastClosed.accountTreeHash = lm'.tree.rootHash := by
  have hcrypto : Function.Injective (Node.sample true).crypto := fun _ _ heq => heq
  have hstart : ∃ lm, run (.sample true) [] = some lm ∧
      checkValueAndProof (.sample true) (secondValue lm) [] lm = true ∧
      (lm.storage.accountDb.validatorsGet (.sample true) ((Node.sample true).crypto
        ((Node.sample true).serializeValidators
          (newValidators (secondValue lm) {} lm).2))).isSome ∧
      (lm.storage.accountDb.feesConfigGet (.sample true) ((Node.sample true).crypto
        ((Node.sample true).serializeFees (newFees {} lm)))).isSome := by
    decide +kernel
  obtain ⟨lm, hrun, hcheck, hvalidators, hfees⟩ := hstart
  have hharmless : Harmless (.sample true) (secondValue lm) {} lm :=
    ⟨nofun, hvalidators, hfees⟩
  obtain ⟨closing, hprepare, hpoints⟩ := recovers_iff hcrypto rfl hrun hcheck {} []
  exact ⟨lm, hrun, hcheck, hharmless, closing, hprepare,
    fun point => (hpoints point).mpr fun _ => hharmless⟩

/-- A node that dies between the writes of a block with a reward does not start again. -/
theorem recovers_not_rewarding :
    ∃ lm, run (.sample true) [] = some lm ∧
      checkValueAndProof (.sample true) (secondValue lm) [] lm = true ∧
      ∃ closing, prepare (.sample true) (secondValue lm) [] rewarding [] lm = some closing ∧
        initializeNode (.sample true) (closing.storageAt (.sample true) .between) = none := by
  have hfails : ∃ lm, run (.sample true) [] = some lm ∧
      checkValueAndProof (.sample true) (secondValue lm) [] lm = true ∧
      ∃ closing, prepare (.sample true) (secondValue lm) [] rewarding [] lm = some closing ∧
        (initializeNode (.sample true)
          (closing.storageAt (.sample true) .between)).isNone = true := by
    decide +kernel
  obtain ⟨lm, hrun, hcheck, closing, hprepare, hnone⟩ := hfails
  exact ⟨lm, hrun, hcheck, closing, hprepare, Option.isNone_iff_eq_none.mp hnone⟩

end LedgerManager

end CegChain
