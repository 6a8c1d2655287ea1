import CegChain.Ledger.Recovery
import CegChain.Trie.Pending

/-!
# The number of accounts

`CloseLedger` adds the accounts that `LedgerFrm::Commit` finds to be new to
`statistics_["account_count"]` and writes the statistics with the accounts; the first
ledger counts the accounts of the genesis list.  `CreateHardforkLedger` commits a ledger
as well, and leaves the count of its new accounts where it is.

`Counted` is the invariant of every run of a node: the count, and what was left out of it,
are the number of accounts in the trie.
-/

namespace CegChain

open Layers Trie

namespace LedgerManager

/-- A manager with its statistics. -/
structure CountingManager where
  manager : LedgerManager
  /-- `statistics_["account_count"]`. -/
  accountCount : ℤ := 0
  /-- What `account_db` has under `STATISTICS`. -/
  statistics : Option ℤ := none

variable (node : Node)

/-- The trie, `new_count` and `change_count`. -/
abbrev Counts := KVTrie × ℤ × ℤ

/-- One round of the loop of `LedgerFrm::Commit`. -/
def commitOne (counts : Counts) (account : Bytes × AccountFrm) : Option Counts := do
  let (isNew, tree) ← counts.1.set node.codec accountStart account.1
    (node.serializeAccount account.2)
  some (if isNew then (tree, counts.2.1 + 1, counts.2.2)
    else (tree, counts.2.1, counts.2.2 + 1))

/-- `LedgerFrm::Commit`, with what it counts. -/
def commitCounts (ledger : LedgerContext) (tree : KVTrie) : Option Counts :=
  (committed ledger).foldlM (commitOne node) (tree, 0, 0)

/-- `LedgerManager::Initialize`, with the statistics. -/
def initializeCounting (storage : Storage) (statistics : Option ℤ) : Option CountingManager :=
  (initializeNode node storage).map fun manager =>
    match storage.accountDb.maxSeq with
    | some _ => ⟨manager, statistics.getD 0, statistics⟩
    | none =>
        let accountCount : ℤ := (genesisAccounts node).length
        ⟨manager, accountCount, some accountCount⟩

/-- `LedgerManager::CloseLedger`, with the statistics. -/
def closeCounting (value : ClosingValue) (proof : Bytes)
    (executed : Option (LedgerContext × List TransactionEnv)) (c : CountingManager) :
    Option (Bool × CountingManager) :=
  if checkValueAndProof node value proof c.manager = false then some (false, c)
  else match executed with
    | none => some (false, c)
    | some (ledger, txs) => do
        let (_, newCount, _) ← commitCounts node ledger c.manager.tree
        let closing ← prepare node value proof ledger txs c.manager
        let accountCount := c.accountCount + newCount
        some (true, ⟨closing.finish node, accountCount, some accountCount⟩)

/-- The value of a hard-fork ledger. -/
def hardforkRequest (thisNodeAddress : Address) (closeInterval : ℤ) (proof : Bytes)
    (lastClosedLedger : LedgerHeader) : ClosingValue where
  txset := []
  ledgerSeq := lastClosedLedger.seq + 1
  closeTime := lastClosedLedger.closeTime + closeInterval
  previousLedgerHash := lastClosedLedger.hash
  previousProof := proof
  ledgerUpgrade := some { newValidator := thisNodeAddress }

/-- The header of a hard-fork ledger. -/
def hardforkHeader (request : ClosingValue) (validators : ValidatorSet)
    (accountTreeHash : Bytes) (lastClosedLedger : LedgerHeader) : LedgerHeader :=
  let header : LedgerHeader :=
    { seq := request.ledgerSeq
      previousHash := lastClosedLedger.hash
      accountTreeHash := accountTreeHash
      closeTime := request.closeTime
      consensusValueHash := node.crypto (node.serializeRequest request)
      version := lastClosedLedger.version
      txCount := lastClosedLedger.txCount
      validatorsHash := node.crypto (node.serializeValidators validators)
      feesHash := lastClosedLedger.feesHash
      chainId := lastClosedLedger.chainId }
  { header with hash := node.crypto (node.serializeLedger header []) }

/-- `LedgerManager::CreateHardforkLedger`, when `ApplyPropose` gives `ledger`: what is
stored afterwards.  What the commit counts is not used. -/
def createHardforkLedger (thisNodeAddress : Address) (closeInterval : ℤ) (ledger : LedgerContext)
    (lm : LedgerManager) : Option Storage :=
  match lm.storage.ledgerDb.loadFromDb node (lm.storage.accountDb.maxSeq.getD 0) with
  | none => some lm.storage
  | some lastClosedLedger => do
      let proof := lm.storage.accountDb.lastProof.getD []
      let request := hardforkRequest thisNodeAddress closeInterval proof lastClosedLedger
      let validators : ValidatorSet := [(thisNodeAddress, 0)]
      let (tree, _, _) ← commitCounts node ledger lm.tree
      let tree := tree.updateHash node.codec accountStart
      let header := hardforkHeader node request validators tree.rootHash lastClosedLedger
      let accountDb := lm.storage.accountDb.writeBatch tree.batch lm.entries
      some
        { ledgerDb := lm.storage.ledgerDb.addToDb node header
          accountDb := accountDb.writeBatch []
            [.maxSeq header.seq, .lastProof [], validatorsSet node validators] }

/-! ## Runs -/

/-- What happens to a node that counts. -/
inductive CountingEvent where
  /-- A block has consensus, or is synchronized: `CloseLedger`. -/
  | close (value : ClosingValue) (proof : Bytes)
      (executed : Option (LedgerContext × List TransactionEnv))
  /-- The node dies in `CloseLedger` between the two writes, and is started again. -/
  | crash (value : ClosingValue) (proof : Bytes) (ledger : LedgerContext)
      (txs : List TransactionEnv)
  /-- The node is stopped and started. -/
  | restart
  /-- The node is stopped, a hard-fork ledger is made, and the node is started again. -/
  | hardfork (thisNodeAddress : Address) (closeInterval : ℤ) (ledger : LedgerContext)

/-- The node after an event. -/
def CountingEvent.run (c : CountingManager) : CountingEvent → Option CountingManager
  | .close value proof executed => (closeCounting node value proof executed c).map Prod.snd
  | .crash value proof ledger txs =>
      if checkValueAndProof node value proof c.manager = false then
        initializeCounting node c.manager.storage c.statistics
      else do
        let closing ← prepare node value proof ledger txs c.manager
        initializeCounting node (closing.storageAt node .between) c.statistics
  | .restart => initializeCounting node c.manager.storage c.statistics
  | .hardfork thisNodeAddress closeInterval ledger => do
      let c ← initializeCounting node c.manager.storage c.statistics
      let storage ← createHardforkLedger node thisNodeAddress closeInterval ledger c.manager
      initializeCounting node storage c.statistics

/-- The node after these events, from an empty storage. -/
def runCounting (events : List CountingEvent) : Option CountingManager := do
  let c ← initializeCounting node {} none
  events.foldlM (CountingEvent.run node) c

/-- The accounts in the trie. -/
def accountsIn (tree : KVTrie) : Set Bytes :=
  {key | ∃ value tree', tree.get node.codec accountStart key = some (some value, tree')}

/-- What an event would set in the trie. -/
def CountingEvent.accounts : CountingEvent → List (Bytes × AccountFrm)
  | .close _ _ (some (ledger, _)) => committed ledger
  | .crash _ _ ledger _ => committed ledger
  | .hardfork _ _ ledger => committed ledger
  | _ => []

/-- A hard-fork ledger sets accounts that are there already. -/
def Knows (c : CountingManager) : CountingEvent → Prop
  | .hardfork _ _ ledger =>
      ∀ account ∈ committed ledger, account.1 ∈ accountsIn node c.manager.tree
  | _ => True

/-- So does every hard-fork ledger of these events. -/
def KnowsAll (c : CountingManager) : List CountingEvent → Prop
  | [] => True
  | event :: events =>
      Knows node c event ∧ ∀ c', event.run node c = some c' → KnowsAll c' events

variable {node} {lm : LedgerManager} {c c' : CountingManager} {tree : KVTrie} {M M₀ : Content}
  {length : ℕ} {number missing : ℤ}

/-! ## What is counted is what is committed -/

theorem foldlM_commitOne (accounts : List (Bytes × AccountFrm)) (counts : Counts) :
    (accounts.foldlM (commitOne node) counts).map Prod.fst =
      accounts.foldlM (fun tree account => setAccount node account.1 account.2 tree) counts.1 := by
  induction accounts generalizing counts with
  | nil => rfl
  | cons account accounts ih =>
      rw [List.foldlM_cons, List.foldlM_cons, commitOne, setAccount]
      cases counts.1.set node.codec accountStart account.1 (node.serializeAccount account.2) with
      | none => rfl
      | some result =>
          obtain ⟨isNew, tree⟩ := result
          cases isNew with
          | true => exact ih (tree, counts.2.1 + 1, counts.2.2)
          | false => exact ih (tree, counts.2.1, counts.2.2 + 1)

/-- The trie is the one that `commit` gives. -/
theorem commitCounts_tree (ledger : LedgerContext) (tree : KVTrie) :
    (commitCounts node ledger tree).map Prod.fst = commit node ledger tree :=
  foldlM_commitOne _ _

theorem manager_closeCounting (value : ClosingValue) (proof : Bytes)
    (executed : Option (LedgerContext × List TransactionEnv)) (c : CountingManager) :
    (closeCounting node value proof executed c).map (fun r => (r.1, r.2.manager)) =
      closeLedger node value proof executed c.manager := by
  unfold closeCounting closeLedger
  split
  · rfl
  cases executed with
  | none => rfl
  | some block =>
      obtain ⟨ledger, txs⟩ := block
      have htree : (commitCounts node ledger c.manager.tree).map Prod.fst =
          commit node ledger c.manager.tree := commitCounts_tree _ _
      dsimp only
      cases hcounts : commitCounts node ledger c.manager.tree with
      | none =>
          -- what cannot be counted cannot be committed
          rw [hcounts] at htree
          have hprepare : prepare node value proof ledger txs c.manager = none := by
            rw [prepare, ← htree]
            rfl
          rw [hprepare]
          rfl
      | some counts =>
          cases prepare node value proof ledger txs c.manager <;> rfl

theorem manager_initializeCounting (storage : Storage) (statistics : Option ℤ) :
    (initializeCounting node storage statistics).map CountingManager.manager =
      initializeNode node storage := by
  rw [initializeCounting, Option.map_map]
  refine (congrArg (Option.map · _) (funext fun manager => ?_)).trans Option.map_id_apply
  dsimp only [Function.comp_apply]
  split <;> rfl

/-- An event of a node, as one of a node that counts. -/
def Event.counting : Event → CountingEvent
  | .close value proof executed => .close value proof executed
  | .restart => .restart

theorem manager_run (event : Event) (c : CountingManager) :
    (event.counting.run node c).map CountingManager.manager = event.run node c.manager := by
  cases event with
  | restart => exact manager_initializeCounting _ _
  | close value proof executed =>
      rw [Event.run, ← manager_closeCounting, Option.map_map]
      exact Option.map_map _ _ _

/-- **Counting changes nothing else.** -/
theorem manager_runCounting (events : List Event) :
    (runCounting node (events.map Event.counting)).map CountingManager.manager =
      run node events := by
  have hfold : ∀ c : CountingManager,
      ((events.map Event.counting).foldlM (CountingEvent.run node) c).map
          CountingManager.manager =
        runFrom node c.manager events := by
    induction events with
    | nil => exact fun c => rfl
    | cons event events ih =>
        intro c
        rw [List.map_cons, List.foldlM_cons, runFrom, List.foldlM_cons, ← manager_run]
        cases event.counting.run node c with
        | none => rfl
        | some c' => exact ih c'
  rw [runCounting, run, ← manager_initializeCounting {} none]
  cases initializeCounting node {} none with
  | none => rfl
  | some c => exact hfold c

/-- **What a commit counts**: the accounts that were not there. -/
theorem exists_commitOne (accounts : List (Bytes × AccountFrm)) :
    ∀ {tree : KVTrie} {M : Content} {number : ℤ}, Live node.codec accountStart tree M₀ M →
      Numbered M length number → (∀ account ∈ accounts, account.1.length = length) →
      ∀ newCount changeCount : ℤ, ∃ tree' added changeCount',
        accounts.foldlM (commitOne node) (tree, newCount, changeCount) =
            some (tree', newCount + added, changeCount') ∧
          tree'.db = tree.db ∧ tree'.batch = tree.batch ∧
          Live node.codec accountStart tree' M₀ (overwrite M
            (accounts.map fun account => (account.1, node.serializeAccount account.2))) ∧
          Numbered (overwrite M
            (accounts.map fun account => (account.1, node.serializeAccount account.2))) length
            (number + added) ∧
          0 ≤ added ∧ (added = 0 ↔ ∀ account ∈ accounts, account.1 ∈ keysOf M) := by
  induction accounts with
  | nil =>
      intro tree M number hlive hnumbered hlength newCount changeCount
      refine ⟨tree, 0, changeCount, ?_, rfl, rfl, hlive, ?_, le_rfl, by simp⟩
      · rw [add_zero]
        rfl
      · rw [add_zero]
        exact hnumbered
  | cons account accounts ih =>
      intro tree M number hlive hnumbered hlength newCount changeCount
      have hkey : account.1.length = length := hlength account List.mem_cons_self
      obtain ⟨isNew, tree₁, hset, hdb, hbatch, hlive₁, hiff⟩ :=
        hlive.set account.1 (node.serializeAccount account.2)
      obtain ⟨hiff, hnumbered₁⟩ := hnumbered.set hkey (node.serializeAccount account.2)
        (hiff (by rw [hkey]; exact hnumbered.sized))
      obtain ⟨tree', added, changeCount', hrest, hdb', hbatch', hlive', hnumbered', hnonneg,
        hzero⟩ :=
        ih hlive₁ hnumbered₁ (fun later hlater => hlength later (List.mem_cons_of_mem _ hlater))
          (newCount + if isNew then 1 else 0) (changeCount + if isNew then 0 else 1)
      refine ⟨tree', (if isNew then 1 else 0) + added, changeCount', ?_, hdb'.trans hdb,
        hbatch'.trans hbatch, hlive', ?_, ?_, ?_⟩
      · rw [List.foldlM_cons, commitOne, hset, ← add_assoc, ← hrest]
        cases isNew <;> simp
      · rw [← add_assoc]
        exact hnumbered'
      · split <;> omega
      · rw [keysOf_update] at hzero
        rw [List.forall_mem_cons]
        cases isNew with
        | true =>
            have hnew : account.1 ∉ keysOf M := hiff.mp rfl
            refine iff_of_false ?_ fun hall => hnew hall.1
            rw [if_pos rfl]
            omega
        | false =>
            have hold : account.1 ∈ keysOf M := by
              by_contra hnew
              cases hiff.mpr hnew
            rw [Set.insert_eq_of_mem hold] at hzero
            rw [if_neg Bool.false_ne_true, zero_add, hzero]
            exact ⟨fun hall => ⟨hold, hall⟩, And.right⟩

/-! ## The invariant -/

variable (node) in
/-- The header of the sequence that `account_db` has is in `ledger_db`. -/
def Filed (storage : Storage) : Prop :=
  ∃ seq header, storage.accountDb.maxSeq = some seq ∧
    storage.ledgerDb.loadFromDb node seq = some header

variable (node length) in
/-- The storage of a node that is stopped, with this number of accounts. -/
structure Stopped (storage : Storage) (M : Content) (number : ℤ) : Prop where
  tree : ∃ tree, storage.accountDb.nodes = tree.db ∧ Loaded node.codec accountStart tree M
  filed : Filed node storage
  numbered : Numbered M length number

variable (node length) in
/-- The count, and what was left out of it, are the number of accounts in the trie. -/
structure Counted (c : CountingManager) (M : Content) (missing : ℤ) : Prop where
  nodes : c.manager.storage.accountDb.nodes = c.manager.tree.db
  loaded : Loaded node.codec accountStart c.manager.tree M
  populated : Populated c.manager.tree M
  filed : Filed node c.manager.storage
  statistics : c.statistics = some c.accountCount
  numbered : Numbered M length (c.accountCount + missing)

theorem filed_addToDb {storage : Storage} (hfiled : Filed node storage) (header : LedgerHeader) :
    Filed node { storage with ledgerDb := storage.ledgerDb.addToDb node header } := by
  obtain ⟨seq, old, hseq, hload⟩ := hfiled
  by_cases heq : seq = header.seq
  · exact ⟨seq, header, hseq, by rw [heq]; exact loadFromDb_addToDb _ _⟩
  · refine ⟨seq, old, hseq, ?_⟩
    rw [← hload, LedgerDb.loadFromDb, LedgerDb.loadFromDb]
    exact congrArg (Option.map node.parseHeader) (AList.lookup_insert_ne heq)

/-- A header that is written under its sequence is found. -/
theorem filed_of_addToDb {storage : Storage} {db : LedgerDb} {header : LedgerHeader}
    (hseq : storage.accountDb.maxSeq = some header.seq)
    (hledger : storage.ledgerDb = db.addToDb node header) : Filed node storage := by
  refine ⟨header.seq, header, hseq, ?_⟩
  rw [hledger]
  exact loadFromDb_addToDb _ _

theorem Counted.stopped (hcounted : Counted node length c M missing) :
    Stopped node length c.manager.storage M (c.accountCount + missing) :=
  ⟨⟨_, hcounted.nodes, hcounted.loaded⟩, hcounted.filed, hcounted.numbered⟩

/-- `Get` finds the accounts of the map. -/
theorem Counted.accountsIn_eq (hcounted : Counted node length c M missing) :
    accountsIn node c.manager.tree = keysOf M := by
  ext key
  have hget := hcounted.loaded.get key
  rw [mem_keysOf]
  constructor
  · rintro ⟨value, tree', heq⟩ hnone
    rw [heq, hnone] at hget
    cases hget
  · intro hkey
    obtain ⟨value, hvalue⟩ := Option.ne_none_iff_exists'.mp hkey
    obtain ⟨⟨found, tree'⟩, heq, hfound⟩ := Option.map_eq_some_iff.mp hget
    rw [hvalue] at hfound
    cases hfound
    exact ⟨value, tree', heq⟩

/-! ## Starting -/

/-- The repair touches the sequence of `ledger_db` only. -/
theorem repair_keeps {storage storage' : Storage}
    (hrepair : storage.checkAndRepairLedgerSeq node = some storage') :
    storage'.accountDb = storage.accountDb ∧
      storage'.ledgerDb.headers = storage.ledgerDb.headers := by
  unfold Storage.checkAndRepairLedgerSeq at hrepair
  split at hrepair
  · cases hrepair
    exact ⟨rfl, rfl⟩
  split at hrepair
  · cases hrepair
    exact ⟨rfl, rfl⟩
  · split at hrepair
    · cases hrepair
      exact ⟨rfl, rfl⟩
    split at hrepair
    · cases hrepair
    · cases hrepair
      exact ⟨rfl, rfl⟩
  · cases hrepair

/-- **A node that starts** has the count of its statistics. -/
theorem Stopped.start {storage : Storage} {accountCount : ℤ}
    (hstopped : Stopped node length storage M (accountCount + missing))
    (hstart : initializeCounting node storage (some accountCount) = some c) :
    Counted node length c M missing := by
  obtain ⟨tree, hnodes, hloaded⟩ := hstopped.tree
  obtain ⟨seq, header, hseq, hload⟩ := hstopped.filed
  obtain ⟨lm, hinitialize, rfl⟩ := Option.map_eq_some_iff.mp hstart
  obtain ⟨storage', tree₁, lm₀, hrepair, hinit, hopen, -, -, -, -, heq⟩ :=
    initializeNode_eq_some hinitialize
  obtain ⟨haccounts, hheaders⟩ := repair_keeps hrepair
  rw [haccounts, hnodes] at hinit
  obtain ⟨tree₂, hinit', hdb, hloaded'⟩ := hloaded.init 4
  obtain rfl : tree₂ = tree₁ := Option.some.inj (hinit'.symm.trans hinit)
  have hpopulated : Populated tree₂ M := hloaded.sound.stands.populated_init hinit
  rw [openLast, haccounts, hseq] at hopen
  obtain ⟨header', -, rfl⟩ := Option.map_eq_some_iff.mp hopen
  rw [hseq]
  refine ⟨?_, ?_, ?_, ?_, rfl, hstopped.numbered⟩
  · rw [heq]
    change storage'.accountDb.nodes = tree₂.db
    rw [haccounts, hnodes, hdb]
  · rw [heq]
    exact hloaded'.updateHash.1
  · rw [heq]
    exact populated_updateHash hpopulated
  · rw [heq]
    refine ⟨seq, header, ?_, ?_⟩
    · change storage'.accountDb.maxSeq = some seq
      rw [haccounts, hseq]
    · rw [← hload, LedgerDb.loadFromDb, LedgerDb.loadFromDb, ← hheaders]

/-- The parts of the first ledger. -/
theorem createGenesisAccount_eq_some {storage : Storage}
    (hgenesis : createGenesisAccount node storage tree = some lm) :
    ∃ tree' : KVTrie, ∃ lm' : LedgerManager, (genesisAccounts node).foldlM (fun tree account =>
        setAccount node account.1 account.2 tree) tree = some tree' ∧
      lm'.tree = tree'.updateHash node.codec accountStart ∧
      lm'.storage.accountDb = storage.accountDb ∧ lm = lm'.writeAccounts ∧
      lm.storage.accountDb.maxSeq = some lm.lastClosed.seq ∧
      lm.storage.ledgerDb = storage.ledgerDb.addToDb node lm.lastClosed := by
  rw [createGenesisAccount] at hgenesis
  split at hgenesis
  · cases hgenesis
  obtain ⟨tree', hsets, hgenesis⟩ := Option.bind_eq_some_iff.mp hgenesis
  cases hgenesis
  exact ⟨tree', _, hsets, rfl, rfl, rfl, rfl, rfl⟩

variable (node) in
/-- What the first ledger sets, as bytes. -/
def genesisItems : List (Bytes × Bytes) :=
  (genesisAccounts node).map fun account => (account.1, node.serializeAccount account.2)

theorem numbered_genesis (hnodup : ((genesisAccounts node).map Prod.fst).Nodup)
    (hlength : ∀ account ∈ genesisAccounts node, account.1.length = length) :
    Numbered (overwrite (content fun _ => none) (genesisItems node)) length
      (genesisAccounts node).length := by
  have hcount : (genesisItems node).length = (genesisAccounts node).length := List.length_map _
  rw [← hcount]
  refine numbered_overwrite (fun q => by rw [content, ite_self]) (List.cons_ne_nil _ _) ?_ ?_
  · rw [genesisItems, List.map_map]
    exact hnodup
  · intro item hitem
    obtain ⟨account, haccount, rfl⟩ := List.mem_map.mp hitem
    exact hlength account haccount

/-- **The first ledger** counts the accounts of the genesis list. -/
theorem counted_genesis (hnodup : ((genesisAccounts node).map Prod.fst).Nodup)
    (hlength : ∀ account ∈ genesisAccounts node, account.1.length = length)
    (hstart : initializeCounting node {} none = some c) : ∃ M, Counted node length c M 0 := by
  obtain ⟨lm, hinitialize, rfl⟩ := Option.map_eq_some_iff.mp hstart
  obtain ⟨storage', tree, lm₀, hrepair, hinit, hopen, -, -, -, -, heq⟩ :=
    initializeNode_eq_some hinitialize
  obtain rfl := eq_of_repair_empty hrepair
  obtain ⟨tree₀, hinit', hdb, hbatch, hlive⟩ :=
    live_unused node.codec (unused_empty accountStart) 4
  obtain rfl : tree₀ = tree := Option.some.inj (hinit'.symm.trans hinit)
  obtain ⟨tree₁, hsets, hdb₁, hbatch₁, hlive₁⟩ := hlive.sets (genesisItems node)
  rw [genesisItems, List.foldlM_map] at hsets
  obtain ⟨tree₂, lm₁, hsets', htree, haccounts, rfl, hseq, hledger⟩ :=
    createGenesisAccount_eq_some (show createGenesisAccount node {} tree₀ = some lm₀ from hopen)
  obtain rfl : tree₁ = tree₂ := Option.some.inj (hsets.symm.trans hsets')
  have hsettled : Trie.Settled tree₁.batch tree₁.db := by
    rw [hbatch₁, hbatch]
    exact settled_nil _
  obtain ⟨hloaded, -, -⟩ := loaded_flush hlive₁.sound hsettled
  have hempty : lm₁.storage.accountDb.nodes = lm₁.tree.db := by
    rw [haccounts, htree]
    exact (hdb₁.trans hdb).symm
  obtain ⟨hwritten, hnodes⟩ := tree_writeAccounts hempty
  rw [htree] at hwritten hnodes
  refine ⟨overwrite (content fun _ => none) (genesisItems node), ?_, ?_, ?_, ?_, rfl, ?_⟩
  · rw [heq]
    change lm₁.writeAccounts.storage.accountDb.nodes = lm₁.writeAccounts.tree.db
    rw [hnodes, hwritten]
  · rw [heq]
    change Loaded node.codec accountStart
      (lm₁.writeAccounts.tree.updateHash node.codec accountStart) _
    rw [hwritten]
    exact hloaded.updateHash.1
  · rw [heq]
    change Populated (lm₁.writeAccounts.tree.updateHash node.codec accountStart) _
    rw [hwritten]
    exact populated_updateHash (populated_updateHash hlive₁.populated)
  · rw [heq]
    exact filed_of_addToDb hseq hledger
  · rw [add_zero]
    exact numbered_genesis hnodup hlength

/-! ## Closing -/

section Closing

variable {value : ClosingValue} {proof : Bytes} {ledger : LedgerContext}
  {txs : List TransactionEnv} {closing : Closing} {counts : Counts}

/-- **A ledger that is closed** is counted. -/
theorem Counted.close (hcounted : Counted node length c M missing)
    (hlength : ∀ account ∈ committed ledger, account.1.length = length)
    (hcommit : commitCounts node ledger c.manager.tree = some counts)
    (hprepare : prepare node value proof ledger txs c.manager = some closing) :
    Counted node length ⟨closing.finish node, c.accountCount + counts.2.1,
        some (c.accountCount + counts.2.1)⟩
      (overwrite M (committedItems node ledger)) missing := by
  obtain ⟨tree', added, changeCount, hcommit', -, -, hlive, hnumbered, -, -⟩ :=
    exists_commitOne (committed ledger) ⟨hcounted.loaded.sound, hcounted.populated⟩
      hcounted.numbered hlength 0 0
  obtain rfl := Option.some.inj (hcommit'.symm.trans hcommit)
  obtain ⟨closing', hprepare', -, hready⟩ :=
    exists_prepare hcounted.loaded value proof ledger txs
  obtain rfl : closing' = closing := Option.some.inj (hprepare'.symm.trans hprepare)
  obtain ⟨hnodes, -, hloaded⟩ := hready.finish hcounted.nodes
  obtain ⟨hmaxSeq, hledger⟩ := storage_finish hprepare
  -- the trie that is closed is the one that was counted
  have htree : closing'.manager.tree = tree'.updateHash node.codec accountStart := by
    obtain ⟨tree, hcommitted, hclosing⟩ := Option.bind_eq_some_iff.mp hprepare
    rw [← commitCounts_tree, hcommit] at hcommitted
    cases hcommitted
    cases hclosing
    rfl
  refine ⟨hnodes, hloaded, ?_, filed_of_addToDb hmaxSeq hledger, rfl, ?_⟩
  · have hpopulated :
        Populated closing'.manager.tree (overwrite M (committedItems node ledger)) := by
      rw [htree]
      exact populated_updateHash hlive.populated
    have hemptied : Populated
        ({ (closing'.writeLedger node).writeAccounts.tree with batch := [] } : KVTrie)
        (overwrite M (committedItems node ledger)) := hpopulated
    exact populated_freeMemory hemptied 4
  · have hsum : c.accountCount + (0 + added) + missing = c.accountCount + missing + added := by
      ring
    rw [hsum]
    exact hnumbered

/-- **A hard-fork ledger** is not counted. -/
theorem Counted.hardfork (hcounted : Counted node length c M missing)
    (hlength : ∀ account ∈ committed ledger, account.1.length = length)
    {thisNodeAddress : Address} {closeInterval : ℤ} {storage : Storage}
    (hfork : createHardforkLedger node thisNodeAddress closeInterval ledger c.manager =
      some storage) :
    ∃ added, Stopped node length storage (overwrite M (committedItems node ledger))
        (c.accountCount + (missing + added)) ∧ 0 ≤ added ∧
      (added = 0 ↔ Knows node c (.hardfork thisNodeAddress closeInterval ledger)) := by
  obtain ⟨tree', added, changeCount, hcommit, hdb, hbatch, hlive, hnumbered, hnonneg, hzero⟩ :=
    exists_commitOne (committed ledger) ⟨hcounted.loaded.sound, hcounted.populated⟩
      hcounted.numbered hlength 0 0
  have hcounts : commitCounts node ledger c.manager.tree =
      some (tree', 0 + added, changeCount) := hcommit
  have hsettled : Trie.Settled tree'.batch tree'.db := by
    rw [hdb, hbatch]
    exact hcounted.loaded.settled
  obtain ⟨hloaded, -, -⟩ := loaded_flush hlive.sound hsettled
  obtain ⟨seq, header, hseq, hload⟩ := hcounted.filed
  rw [createHardforkLedger, hseq, Option.getD_some, hload] at hfork
  dsimp only at hfork
  rw [hcounts] at hfork
  cases hfork
  refine ⟨added, ⟨⟨_, ?_, hloaded⟩, filed_of_addToDb ?_ rfl, ?_⟩, hnonneg, ?_⟩
  · rw [AccountDb.writeBatch, AccountDb.nodes_foldl, AccountDb.writeBatch, AccountDb.nodes_foldl,
      hcounted.nodes, ← hdb]
    rfl
  · rfl
  · rw [← add_assoc]
    exact hnumbered
  · rw [Knows, hcounted.accountsIn_eq]
    exact hzero

end Closing

/-! ## Whole runs -/

/-- **One event.** -/
theorem Counted.step (hcounted : Counted node length c M missing) {event : CountingEvent}
    (hlength : ∀ account ∈ event.accounts, account.1.length = length)
    (hrun : event.run node c = some c') :
    ∃ M' added, Counted node length c' M' (missing + added) ∧ 0 ≤ added ∧
      (added = 0 ↔ Knows node c event) := by
  have hstatistics := hcounted.statistics
  cases event with
  | restart =>
      rw [CountingEvent.run, hstatistics] at hrun
      refine ⟨M, 0, ?_, le_rfl, iff_of_true rfl trivial⟩
      rw [add_zero]
      exact hcounted.stopped.start hrun
  | close value proof executed =>
      obtain ⟨⟨closed, c''⟩, hclose, rfl⟩ := Option.map_eq_some_iff.mp hrun
      suffices hcounted' : ∃ M', Counted node length c'' M' missing by
        obtain ⟨M', hcounted'⟩ := hcounted'
        refine ⟨M', 0, ?_, le_rfl, iff_of_true rfl trivial⟩
        rw [add_zero]
        exact hcounted'
      unfold closeCounting at hclose
      split at hclose
      · cases hclose
        exact ⟨M, hcounted⟩
      cases executed with
      | none =>
          cases hclose
          exact ⟨M, hcounted⟩
      | some block =>
          obtain ⟨counts, hcommit, hclose⟩ := Option.bind_eq_some_iff.mp hclose
          obtain ⟨closing, hprepare, hclose⟩ := Option.bind_eq_some_iff.mp hclose
          cases hclose
          exact ⟨_, hcounted.close hlength hcommit hprepare⟩
  | crash value proof ledger txs =>
      refine ⟨M, 0, ?_, le_rfl, iff_of_true rfl trivial⟩
      rw [add_zero]
      rw [CountingEvent.run, hstatistics] at hrun
      split at hrun
      · exact hcounted.stopped.start hrun
      · obtain ⟨closing, hprepare, hrun⟩ := Option.bind_eq_some_iff.mp hrun
        obtain ⟨-, -, -, hstorage⟩ := header_prepare hprepare
        -- the header of the ledger is written, and nothing else
        have hbetween : closing.storageAt node .between = { c.manager.storage with
            ledgerDb := c.manager.storage.ledgerDb.addToDb node closing.header } := by
          rw [← hstorage]
          rfl
        rw [hbetween] at hrun
        have hstopped : Stopped node length { c.manager.storage with
            ledgerDb := c.manager.storage.ledgerDb.addToDb node closing.header } M
            (c.accountCount + missing) :=
          ⟨hcounted.stopped.tree, filed_addToDb hcounted.filed _, hcounted.numbered⟩
        exact hstopped.start hrun
  | hardfork thisNodeAddress closeInterval ledger =>
      obtain ⟨c₁, hstart, hrun⟩ := Option.bind_eq_some_iff.mp hrun
      obtain ⟨storage, hfork, hrun⟩ := Option.bind_eq_some_iff.mp hrun
      rw [hstatistics] at hstart
      have hcounted₁ : Counted node length c₁ M missing := hcounted.stopped.start hstart
      obtain ⟨added, hstopped, hnonneg, hzero⟩ := hcounted₁.hardfork hlength hfork
      rw [hcounted₁.statistics] at hrun
      refine ⟨_, added, hstopped.start hrun, hnonneg, ?_⟩
      rw [hzero, Knows, Knows, hcounted₁.accountsIn_eq, hcounted.accountsIn_eq]

/-- **Every run.** -/
theorem Counted.run {events : List CountingEvent} : ∀ {c : CountingManager} {M : Content}
    {missing : ℤ}, Counted node length c M missing →
      (∀ event ∈ events, ∀ account ∈ event.accounts, account.1.length = length) →
      events.foldlM (CountingEvent.run node) c = some c' →
      ∃ M' added, Counted node length c' M' (missing + added) ∧ 0 ≤ added ∧
        (added = 0 ↔ KnowsAll node c events) := by
  induction events with
  | nil =>
      intro c M missing hcounted hlength hrun
      cases hrun
      refine ⟨M, 0, ?_, le_rfl, iff_of_true rfl trivial⟩
      rw [add_zero]
      exact hcounted
  | cons event events ih =>
      intro c M missing hcounted hlength hrun
      rw [List.foldlM_cons] at hrun
      obtain ⟨c₁, hevent, hrun⟩ := Option.bind_eq_some_iff.mp hrun
      obtain ⟨M₁, first, hcounted₁, hfirst, hzero⟩ :=
        hcounted.step (hlength event List.mem_cons_self) hevent
      obtain ⟨M', later, hcounted', hlater, hzero'⟩ :=
        ih hcounted₁ (fun e he => hlength e (List.mem_cons_of_mem _ he)) hrun
      refine ⟨M', first + later, ?_, by omega, ?_⟩
      · rw [← add_assoc]
        exact hcounted'
      · have hnext : (∀ c', event.run node c = some c' → KnowsAll node c' events) ↔
            KnowsAll node c₁ events := by
          rw [hevent]
          simp
        rw [KnowsAll, hnext, ← hzero, ← hzero']
        omega

/-- **How far accounts are counted.** `Set` answers true for a new key, after every history of
keys of one length, unless the key is the empty one and new; and the count of a node is the
number of the accounts in its trie as long as its hard-fork ledgers make no new account. -/
theorem accounts_counted_iff (codec : Codec) (start : Bytes) (db : Db) (depth : ℤ)
    (steps : List Step) (node : Node) (events : List CountingEvent) (c : CountingManager)
    (length : ℕ) :
    (Unused start db → SetsSized length steps → ({} : Maps).AllowsAll steps →
      ∀ key value : Bytes, key.length = length →
        ∃ trie added trie', runSteps codec start db depth steps = some trie ∧
          trie.set codec start key value = some (added, trie') ∧
          ((added = true ↔ (({} : Maps).afterAll steps).now key = none) ↔
            (key = [] → (({} : Maps).afterAll steps).now key ≠ none))) ∧
      (((genesisAccounts node).map Prod.fst).Nodup →
        (∀ account ∈ genesisAccounts node, account.1.length = length) →
        (∀ event ∈ events, ∀ account ∈ event.accounts, account.1.length = length) →
        runCounting node events = some c →
          (accountsIn node c.manager.tree).Finite ∧
            (c.accountCount = ((accountsIn node c.manager.tree).ncard : ℤ) ↔
              ∀ c₀, initializeCounting node {} none = some c₀ → KnowsAll node c₀ events)) := by
  constructor
  · intro hunused hsets hallows key value hkey
    obtain ⟨trie, added, trie', hrun, hset, hadded⟩ :=
      runSteps_set codec hunused depth hsets hallows hkey value
    refine ⟨trie, added, trie', hrun, hset, ?_⟩
    rw [hadded]
    constructor
    · rintro hiff rfl hnone
      exact (hiff.mpr hnone).1 rfl
    · intro hempty
      exact ⟨And.right, fun hnone => ⟨fun heq => hempty heq hnone, hnone⟩⟩
  · intro hnodup hgenesis hlength hrun
    obtain ⟨c₀, hstart, hrun⟩ := Option.bind_eq_some_iff.mp hrun
    obtain ⟨M, hcounted⟩ := counted_genesis hnodup hgenesis hstart
    obtain ⟨M', added, hcounted', -, hzero⟩ := hcounted.run hlength hrun
    rw [hcounted'.accountsIn_eq, hcounted'.numbered.number]
    refine ⟨hcounted'.numbered.finite, ?_⟩
    have hknows : (∀ c₁, initializeCounting node {} none = some c₁ → KnowsAll node c₁ events) ↔
        KnowsAll node c₀ events := by
      rw [hstart]
      simp
    rw [hknows, ← hzero]
    omega

/-! ## Two hard forks -/

/-- A node whose accounts part at the root of the trie. -/
def spreadNode : Node :=
  { Node.sample true with genesis := ⟨[50], [[72]], ⟨1000, 10000000⟩, 1, []⟩ }

/-- What a block without transactions is executed on, when these accounts are known. -/
def rewardClosed (seq : ℤ) (validator : Address) (known : List Address) : Closed where
  version := 1000
  seq := seq
  fees := ⟨1000, 10000000⟩
  tree := known.foldl (fun tree address =>
    tree.insert (decodeAddress address) (AccountFrm.creatAccountFrm address 0)) ∅
  validatorsOfLast := some [validator]
  validators := []
  forbidAddrs := []

/-- A block without transactions: it pays the block reward to the last validator. -/
def rewardLedger (seq : ℤ) (validator : Address) (known : List Address) : LedgerContext :=
  (LedgerFrm.applyPropose sampleLibrary (rewardClosed seq validator known) (payingOut [])
    { txset := [], ledgerSeq := seq + 1 }).context

/-- The second hard-fork ledger pays the validator of the first, who has no account. -/
def twoForks : List CountingEvent :=
  [.hardfork [90] 10 (rewardLedger 1 [72] [[50], [72]]),
    .hardfork [90] 10 (rewardLedger 2 [90] [[50], [72]])]

/-- The next block. -/
def nextBlock (c : CountingManager) (ledger : LedgerContext) : CountingEvent :=
  .close { txset := []
           ledgerSeq := c.manager.lastClosed.seq + 1
           previousLedgerHash := c.manager.lastClosed.hash } [] (some (ledger, []))

theorem mem_accountsIn {key : Bytes}
    (hget : (tree.get node.codec accountStart key).map (fun r => r.1.isSome) = some true) :
    key ∈ accountsIn node tree := by
  obtain ⟨⟨found, tree'⟩, hget, hfound⟩ := Option.map_eq_some_iff.mp hget
  obtain ⟨value, rfl⟩ := Option.isSome_iff_exists.mp hfound
  exact ⟨value, tree', hget⟩

/-- The empty key is new, and `Set` answers false.  After two hard forks and the next block
the node counts two accounts and has three. -/
theorem accounts_not_counted :
    (∃ trie result, runSteps (.protobuf id) accountStart ∅ 4 [] = some trie ∧
        trie.set (.protobuf id) accountStart [] [7] = some result ∧ result.1 = false) ∧
      (({} : Maps).afterAll []).now [] = none ∧
      ∃ c, runCounting spreadNode twoForks = some c ∧ ∃ c',
        (nextBlock c (rewardLedger 3 [90] [[50], [72], [90]])).run spreadNode c = some c' ∧
          c'.manager.lastClosed.seq = 4 ∧
          c'.accountCount ≠ ((accountsIn spreadNode c'.manager.tree).ncard : ℤ) := by
  refine ⟨⟨_, _, rfl, rfl, rfl⟩, rfl, ?_⟩
  have hrun : ∃ c, runCounting spreadNode twoForks = some c ∧ ∃ c',
      (nextBlock c (rewardLedger 3 [90] [[50], [72], [90]])).run spreadNode c = some c' ∧
        c'.manager.lastClosed.seq = 4 ∧ c'.accountCount = 2 ∧
        ∀ key ∈ [[1], [16], [32]], (c'.manager.tree.get spreadNode.codec accountStart key).map
          (fun r => r.1.isSome) = some true := by
    decide +kernel
  obtain ⟨c, htwo, c', hnext, hseq, hcount, hkeys⟩ := hrun
  refine ⟨c, htwo, c', hnext, hseq, ?_⟩
  rw [hcount]
  intro heq
  have hfinite : (accountsIn spreadNode c'.manager.tree).Finite :=
    Set.finite_of_ncard_ne_zero (by omega)
  have hmem : ∀ key ∈ [[1], [16], [32]], key ∈ accountsIn spreadNode c'.manager.tree :=
    fun key hkey => mem_accountsIn (hkeys key hkey)
  have hlt : 2 < (accountsIn spreadNode c'.manager.tree).ncard :=
    (Set.two_lt_ncard_iff hfinite).mpr ⟨[1], [16], [32], hmem _ (by simp), hmem _ (by simp),
      hmem _ (by simp), by simp, by simp, by simp⟩
  omega

/-- A key that is set after a restart is new, and a block that makes an account is counted. -/
theorem accounts_counted_reward :
    (∃ trie added trie', runSteps (.protobuf id) accountStart ∅ 4
        [.set [1] [7], .updateHash, .addToDB, .freeMemory 0, .init 4] = some trie ∧
      trie.set (.protobuf id) accountStart [2] [8] = some (added, trie') ∧ added = true) ∧
      ∃ c, runCounting spreadNode [] = some c ∧ ∃ c',
        runCounting spreadNode [nextBlock c (rewardLedger 1 [90] [[50], [72]])] = some c' ∧
          c'.accountCount = 3 ∧ (accountsIn spreadNode c'.manager.tree).ncard = 3 := by
  have hrun : ∃ c, runCounting spreadNode [] = some c ∧ ∃ c',
      runCounting spreadNode [nextBlock c (rewardLedger 1 [90] [[50], [72]])] = some c' ∧
        c'.accountCount = 3 := by
    decide +kernel
  obtain ⟨c, hstart, c', hnext, hcount⟩ := hrun
  obtain ⟨hset, hcounted⟩ := accounts_counted_iff (.protobuf id) accountStart ∅ 4
    [.set [1] [7], .updateHash, .addToDB, .freeMemory 0, .init 4] spreadNode
    [nextBlock c (rewardLedger 1 [90] [[50], [72]])] c' 1
  constructor
  · obtain ⟨trie, added, trie', hrun, hset, hiff⟩ := hset (unused_empty _) (by simp [SetsSized])
      ⟨trivial, trivial, trivial, ⟨rfl, rfl⟩, trivial, trivial⟩ [2] [8] rfl
    exact ⟨trie, added, trie', hrun, hset, (hiff.mpr nofun).mpr (by decide)⟩
  · have hlength : ∀ account ∈ committed (rewardLedger 1 [90] [[50], [72]]),
        account.1.length = 1 := by
      decide +kernel
    obtain ⟨-, hiff⟩ := hcounted (by decide +kernel) (by decide +kernel)
      (fun event hevent => by
        obtain rfl := List.mem_singleton.mp hevent
        exact hlength) hnext
    have hknown := hiff.mpr fun c₀ _ => ⟨trivial, fun _ _ => trivial⟩
    exact ⟨c, hstart, c', hnext, hcount, by omega⟩

end LedgerManager

end CegChain
