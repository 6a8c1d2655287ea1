import CegChain.Ledger.Snapshots

/-!
# A node is a replica

`Replica` connects a node with a chain that its log may leave: the log is what the
node has stored of the consensus values, and the chain is what their executions have made.  It
holds after every run, whatever peers send, however blocks are executed and however often the
node is started anew (`replica_run`).

The parts of `CloseLedger` are taken one by one: a value is checked against the chain alone
(`Replica.check_iff`), and what is written is the snapshot after it (`At.finish`).
-/

namespace CegChain

open Layers Trie NumberedLists LedgerManager SyncManager

/-- The manager is where `snap` was taken. -/
structure At (node : Node) (lm : LedgerManager) (snap : Snapshot) : Prop where
  rooted : Rooted node lm snap.accounts
  header : lm.lastClosed = snap.header
  validators : lm.validators = snap.validators
  fees : lm.fees = snap.fees

/-- The node has closed the ledgers of `log`, and `chain` are their snapshots. -/
structure Replica (node : Node) (m : SyncManager) (log : List ClosingValue)
    (chain : List Snapshot) : Prop where
  chainOf : ChainOf node log chain
  acceptable : AllAcceptable node chain log
  recorded : Recorded node m.toLedgerManager
  current : ∃ snap, chain[log.length]? = some snap ∧ At node m.toLedgerManager snap
  seq : m.lastClosed.seq = log.length + 1
  headers : ∀ seq, m.storage.ledgerDb.headers.lookup seq =
    (numbered 1 chain seq).map fun snap => node.serializeHeader snap.header
  sets : ∀ snap ∈ chain, m.storage.accountDb.Has (validatorsSet node snap.validators)
  values : ∀ seq, m.values.lookup seq = numbered 2 log seq
  proof : ∀ j before, log.length = j + 1 → chain[j]? = some before →
    Proven node before.validators m.lastClosed.consensusValueHash m.proof
  lastProof : m.storage.accountDb.lastProof.getD [] = m.proof

variable {node : Node} {m m' : SyncManager} {lm : LedgerManager} {log : List ClosingValue}
  {chain : List Snapshot} {snap : Snapshot} {value : ClosingValue} {proof : Bytes} {i : ℕ}

/-! ## Reading -/

section Reading

variable (hreplica : Replica node m log chain)

include hreplica

theorem Replica.length : chain.length = log.length + 1 :=
  hreplica.chainOf.length

theorem Replica.loadFromDb (seq : ℤ) :
    m.storage.ledgerDb.loadFromDb node seq =
      (numbered 1 chain seq).map Snapshot.header := by
  rw [LedgerDb.loadFromDb, hreplica.headers, Option.map_map]
  congr 1
  funext snap
  exact node.parse_header snap.header

theorem Replica.getValidators (hsnap : chain[i]? = some snap) {seq : ℤ} (hseq : seq = 1 + i) :
    m.storage.getValidators node seq = some snap.validators := by
  rw [hseq, Storage.getValidators, hreplica.loadFromDb, numbered_add, hsnap, Option.map_some,
    Option.bind_eq_bind, Option.bind_some, hreplica.chainOf.validatorsHash hsnap]
  exact validatorsGet_of_has (hreplica.sets snap (List.mem_of_getElem? hsnap))

end Reading

/-! ## Checking -/

theorem checkUpgrade_iff :
    checkUpgrade node value lm = true ↔
      UpgradeAllowed node value lm.lastClosed.version := by
  unfold checkUpgrade UpgradeAllowed
  cases value.ledgerUpgrade with
  | none => simp
  | some upgrade =>
      rw [Bool.and_eq_true, decide_eq_true_eq, decide_eq_true_eq]
      constructor
      · rintro ⟨hversion, hvalidator⟩ upgrade' heq
        cases heq
        exact ⟨hversion, hvalidator⟩
      · intro hall
        exact hall upgrade rfl

theorem Replica.checkPreviousProof_iff (hreplica : Replica node m log chain)
    (hsnap : chain[log.length]? = some snap) (hat : At node m.toLedgerManager snap)
    (hseq : value.ledgerSeq = m.lastClosed.seq + 1) :
    checkPreviousProof node value m.toLedgerManager = true ↔
      (log.length = 0 → value.previousProof = []) ∧
      ∀ j before last, log.length = j + 1 → chain[j]? = some before →
        chain[log.length]? = some last →
        Proven node before.validators last.header.consensusValueHash value.previousProof := by
  have hlast := hreplica.seq
  have hlength := hreplica.length
  unfold checkPreviousProof
  cases hcount : log.length with
  | zero =>
      rw [if_pos (by omega), decide_eq_true_eq]
      constructor
      · intro hproof
        exact ⟨fun _ => hproof, fun j before last heq => by omega⟩
      · intro hall
        exact hall.1 rfl
  | succ j =>
      have hbefore : chain[j]? = some chain[j] := List.getElem?_eq_getElem (by omega)
      have hset : m.storage.getValidators node (value.ledgerSeq - 2) =
          some chain[j].validators := by
        apply hreplica.getValidators hbefore
        omega
      rw [if_neg (by omega), if_pos (by omega), hset]
      dsimp only
      rw [Bool.or_eq_true, decide_eq_true_eq, hat.header]
      rw [hcount] at hsnap
      constructor
      · intro hproof
        refine ⟨fun heq => by omega, fun j' before last heq hbefore' hlast' => ?_⟩
        obtain rfl : j = j' := by omega
        rw [hbefore] at hbefore'
        rw [hsnap] at hlast'
        cases hbefore'
        cases hlast'
        exact hproof.symm
      · intro hall
        exact (hall.2 j _ _ rfl hbefore hsnap).symm

/-- **A value is checked against the chain.** -/
theorem Replica.check_iff (hreplica : Replica node m log chain)
    (hsnap : chain[log.length]? = some snap) (hat : At node m.toLedgerManager snap) :
    checkValueAndProof node value proof m.toLedgerManager = true ↔
      Acceptable node chain log.length value ∧
        Proven node snap.validators (valueHash node value) proof := by
  have hlast := hreplica.seq
  have hset : value.ledgerSeq = m.lastClosed.seq + 1 →
      m.storage.getValidators node (value.ledgerSeq - 1) = some snap.validators := by
    intro hseq
    apply hreplica.getValidators hsnap
    omega
  have hiff : value.ledgerSeq = m.lastClosed.seq + 1 →
      (checkValueAndProof node value proof m.toLedgerManager = true ↔
        ((((node.serializeRequest value).length < (16 + 2) * 1024 * 1024 ∧
          value.ledgerSeq = m.lastClosed.seq + 1) ∧
          value.previousLedgerHash = m.lastClosed.hash) ∧
          checkUpgrade node value m.toLedgerManager = true) ∧
          checkPreviousProof node value m.toLedgerManager = true ∧
          Proven node snap.validators (valueHash node value) proof) := by
    intro hseq
    rw [checkValueAndProof, hset hseq]
    dsimp only
    rw [checkValueHelper]
    simp only [Bool.and_eq_true, Bool.or_eq_true, decide_eq_true_eq, and_assoc]
    rfl
  constructor
  · intro hcheck
    have hseq := (of_checkValueAndProof hcheck).1
    obtain ⟨⟨⟨⟨hsize, -⟩, hprevious⟩, hupgrade⟩, hproof, hproven⟩ := (hiff hseq).mp hcheck
    rw [hat.header] at hprevious
    rw [checkUpgrade_iff, hat.header] at hupgrade
    rw [hreplica.checkPreviousProof_iff hsnap hat hseq] at hproof
    refine ⟨⟨hsize, by omega, fun last hlast' => ?_, fun last hlast' => ?_, hproof.1, hproof.2⟩,
      hproven⟩
    · rw [hsnap] at hlast'
      cases hlast'
      exact hprevious
    · rw [hsnap] at hlast'
      cases hlast'
      exact hupgrade
  · rintro ⟨haccept, hproven⟩
    have hseq : value.ledgerSeq = m.lastClosed.seq + 1 := by
      have := haccept.seq
      omega
    refine (hiff hseq).mpr ⟨⟨⟨⟨haccept.size, hseq⟩, ?_⟩, ?_⟩, ?_, hproven⟩
    · rw [hat.header]
      exact haccept.previousLedgerHash snap hsnap
    · rw [checkUpgrade_iff, hat.header]
      exact haccept.upgrade snap hsnap
    · rw [hreplica.checkPreviousProof_iff hsnap hat hseq]
      exact ⟨haccept.second, haccept.previousProof⟩

/-! ## Closing -/

section Closing

variable {ledger : LedgerContext} {txs : List TransactionEnv} {closing : Closing}

theorem newValidators_eq (value : ClosingValue) (ledger : LedgerContext)
    (hvalidators : lm.validators = snap.validators) :
    (newValidators value ledger lm).2 = validatorsAfter value ledger snap.validators := by
  rw [newValidators, validatorsAfter, hvalidators]
  split <;> rfl

/-- Validators that are not written are the old ones. -/
theorem newValidators_of_not (hset : (newValidators value ledger lm).1 ≠ true) :
    (newValidators value ledger lm).2 = lm.validators := by
  unfold newValidators at hset ⊢
  split at hset
  · exact absurd rfl hset
  · rename_i hforked
    rw [if_neg hforked]
    unfold LedgerContext.getVotedValidators at hset ⊢
    split at hset
    · exact absurd rfl hset
    · rfl

/-- What `CloseLedger` has before it writes is the next snapshot. -/
theorem At.prepared (hat : At node lm snap)
    (hprepare : prepare node value proof ledger txs lm = some closing)
    (hready : closing.Ready node lm
      (overwrite snap.accounts (committedItems node ledger))) :
    closing.header = (snapshotAfter node value ledger txs snap).header ∧
      closing.manager.validators = validatorsAfter value ledger snap.validators ∧
      closing.manager.fees = feesAfter ledger snap.fees ∧ closing.manager.proof = proof := by
  obtain ⟨info, hroot, hrecord⟩ := hready.root
  obtain ⟨-, hvalidatorsHash, -, -⟩ := header_prepare hprepare
  have hset := newValidators_eq value ledger hat.validators
  have hversion : newVersion value lm = versionAfter value snap.header.version := by
    unfold newVersion
    rw [hat.header]
    rfl
  obtain ⟨tree, -, hclosing⟩ := Option.bind_eq_some_iff.mp hprepare
  obtain rfl := Option.some.inj hclosing
  have htree : (tree.updateHash node.codec accountStart).rootHash =
      rootHashOf node.codec (overwrite snap.accounts (committedItems node ledger)) := by
    rw [rootHashOf_eq hrecord]
    exact hroot
  refine ⟨?_, ?_, ?_, rfl⟩
  · simp only [snapshotAfter, headerAfter, htree, hset, hversion, feesAfter, hat.header, hat.fees]
  · by_cases hnew : (newValidators value ledger lm).1 = true
    · simp only [hnew, if_true, hset]
    · simp only [hnew, ← hset, newValidators_of_not hnew]
      rfl
  · simp only [feesAfter, hat.fees]

/-- **A ledger that is written** is the next snapshot. -/
theorem At.finish (hat : At node lm snap)
    (hversion : UpgradeAllowed node value lm.lastClosed.version)
    (hprepare : prepare node value proof ledger txs lm = some closing) :
    At node (closing.finish node) (snapshotAfter node value ledger txs snap) := by
  obtain ⟨closing', hprepare', hnewVersion, hready⟩ :=
    exists_prepare hat.rooted.loaded value proof ledger txs
  obtain rfl := Option.some.inj (hprepare'.symm.trans hprepare)
  obtain ⟨hheader, hvalidators, hfees, -⟩ := hat.prepared hprepare hready
  refine ⟨hat.rooted.finish hready ?_, hheader, hvalidators, hfees⟩
  rw [hnewVersion]
  exact newVersion_le hat.rooted.version (checkUpgrade_iff.mpr hversion)

/-- The proof is the last entry of the batch. -/
theorem entries_prepare_proof
    (hprepare : prepare node value proof ledger txs lm = some closing) :
    ∃ entries, closing.manager.entries = entries ++ [.lastProof proof] := by
  obtain ⟨tree, -, hclosing⟩ := Option.bind_eq_some_iff.mp hprepare
  obtain rfl := Option.some.inj hclosing
  exact ⟨_, (List.append_assoc lm.entries (_ :: (_ ++ _)) [.lastProof proof]).symm⟩

theorem lastProof_finish (hprepare : prepare node value proof ledger txs lm = some closing) :
    (closing.finish node).storage.accountDb.lastProof = some proof := by
  obtain ⟨entries, hentries⟩ := entries_prepare_proof hprepare
  change (closing.manager.storage.accountDb.writeBatch closing.manager.tree.batch
    closing.manager.entries).lastProof = some proof
  rw [AccountDb.writeBatch, hentries, List.foldl_append]
  rfl

theorem proof_finish (hprepare : prepare node value proof ledger txs lm = some closing) :
    (closing.finish node).proof = proof := by
  obtain ⟨tree, -, hclosing⟩ := Option.bind_eq_some_iff.mp hprepare
  obtain rfl := Option.some.inj hclosing
  rfl

end Closing

/-- **One more ledger.** A node that closes a ledger is a replica of the longer log. -/
theorem Replica.close (hcrypto : Function.Injective node.crypto)
    (hreplica : Replica node m log chain) (hcloses : Closes node value proof m m') :
    ∃ snap, Replica node m' (log ++ [value]) (chain ++ [snap]) := by
  obtain ⟨last, hlast, hat⟩ := hreplica.current
  obtain ⟨ledger, txs, closing, hprepare, hmanager⟩ := hcloses.closing
  obtain ⟨haccept, hproven⟩ := (hreplica.check_iff hlast hat).mp hcloses.check
  have hlength := hreplica.length
  have hseq := (of_checkValueAndProof hcloses.check).1
  have hat' : At node m'.toLedgerManager (snapshotAfter node value ledger txs last) := by
    rw [hmanager]
    apply hat.finish _ hprepare
    rw [hat.header]
    exact haccept.upgrade last hlast
  have hbelow : ∀ {i}, i ≤ log.length → ∀ j ≤ i,
      chain[j]? = (chain ++ [snapshotAfter node value ledger txs last])[j]? := by
    intro i hi j hj
    rw [List.getElem?_append_left (by omega)]
  obtain ⟨hrecorded, hkeeps⟩ := hreplica.recorded.finish hcrypto hprepare hseq
  have hlastProof := lastProof_finish hprepare
  have hproof := proof_finish hprepare
  obtain ⟨-, hledgerDb⟩ := storage_finish hprepare
  have hheader : m'.lastClosed = closing.header := congrArg LedgerManager.lastClosed hmanager
  rw [← hmanager] at hrecorded hkeeps hlastProof hproof hledgerDb
  have hheaderSeq : m'.lastClosed.seq = log.length + 2 := by
    rw [hat'.header]
    exact haccept.seq
  refine ⟨snapshotAfter node value ledger txs last, ?_⟩
  constructor
  · exact hreplica.chainOf.concat hlast value ledger txs
  · intro i value' hvalue'
    rcases Nat.lt_or_ge i log.length with hlt | hge
    · rw [List.getElem?_append_left hlt] at hvalue'
      exact (hreplica.acceptable i value' hvalue').congr (hbelow hlt.le)
    · rw [List.getElem?_append_right hge, List.getElem?_singleton] at hvalue'
      split at hvalue'
      · obtain rfl : i = log.length := by omega
        cases hvalue'
        exact haccept.congr (hbelow le_rfl)
      · cases hvalue'
  · exact hrecorded
  · refine ⟨_, ?_, hat'⟩
    rw [List.getElem?_append_right (by simp; omega)]
    simp [hlength]
  · rw [hheaderSeq]
    simp
    omega
  · intro seq
    rw [hledgerDb, LedgerDb.addToDb, ← hheader]
    dsimp only
    rw [lookup_insert_eq, hreplica.headers, hheaderSeq, numbered_concat, hlength]
    by_cases hlater : seq = log.length + 2
    · rw [if_pos hlater, if_pos (by push_cast; omega), Option.map_some, hat'.header]
    · rw [if_neg hlater, if_neg (by push_cast; omega)]
  · intro snap hsnap
    rcases List.mem_append.mp hsnap with hold | hnew
    · exact (hreplica.sets snap hold).keeps hkeeps.accounts
    · rw [List.mem_singleton.mp hnew, ← hat'.validators]
      exact hrecorded.validators
  · intro seq
    rw [hcloses.values, lookup_insert_eq, hreplica.values, numbered_concat, haccept.seq]
    by_cases hlater : seq = log.length + 2
    · rw [if_pos hlater, if_pos (by omega)]
    · rw [if_neg hlater, if_neg (by omega)]
  · intro j before hj hbefore
    obtain rfl : j = log.length := by simpa using hj.symm
    rw [List.getElem?_append_left (by omega), hlast] at hbefore
    cases hbefore
    rw [hproof, hat'.header]
    exact hproven
  · rw [hlastProof, hproof]
    rfl

/-! ## Starting -/

/-- A start reads the proof that was written last. -/
theorem proof_restart (hrecorded : Recorded node lm) {lm' : LedgerManager}
    (hstart : initializeNode node lm.storage = some lm') :
    lm'.proof = lm.storage.accountDb.lastProof.getD [] := by
  obtain ⟨storage', tree, lm₀, hrepair, -, hopen, -, -, -, -, heq⟩ :=
    initializeNode_eq_some hstart
  rw [hrecorded.checkAndRepairLedgerSeq] at hrepair
  obtain rfl := Option.some.inj hrepair
  rw [hrecorded.openLast] at hopen
  obtain rfl := Option.some.inj hopen
  rw [heq]

theorem Replica.restart (hreplica : Replica node m log chain)
    (hstart : startNode node m.storage m.values = some m') : Replica node m' log chain := by
  obtain ⟨lm', hinitialize, rfl⟩ := Option.map_eq_some_iff.mp hstart
  obtain ⟨last, hlast, hat⟩ := hreplica.current
  have hproof := proof_restart hreplica.recorded hinitialize
  have hrecorded := (hreplica.recorded.recorded_restart hinitialize).1
  obtain ⟨hstorage, hlastClosed, hvalidators, hfees, -⟩ := hreplica.recorded.restart hinitialize
  constructor
  · exact hreplica.chainOf
  · exact hreplica.acceptable
  · exact hrecorded
  · exact ⟨last, hlast, hat.rooted.restart hreplica.recorded hinitialize,
      hlastClosed.trans hat.header, hvalidators.trans hat.validators, hfees.trans hat.fees⟩
  · rw [hlastClosed]
    exact hreplica.seq
  · rw [hstorage]
    exact hreplica.headers
  · rw [hstorage]
    exact hreplica.sets
  · exact hreplica.values
  · rw [hproof, hreplica.lastProof, hlastClosed]
    exact hreplica.proof
  · rw [hstorage, hproof]

/-- What the first ledger is. -/
theorem createGenesisAccount_eq_some {tree : KVTrie}
    (hgenesis : createGenesisAccount node {} tree = some lm) :
    ∃ root, lm.lastClosed = genesisHeader node root ∧
      lm.validators = (firstSnapshot node).validators ∧ lm.fees = (firstSnapshot node).fees ∧
      lm.storage.ledgerDb = ({} : LedgerDb).addToDb node lm.lastClosed ∧
      lm.storage.accountDb.lastProof = none ∧ lm.proof = [] := by
  rw [createGenesisAccount] at hgenesis
  split at hgenesis
  · cases hgenesis
  obtain ⟨tree', -, hgenesis⟩ := Option.bind_eq_some_iff.mp hgenesis
  obtain rfl := Option.some.inj hgenesis
  exact ⟨_, rfl, rfl, rfl, rfl, rfl, rfl⟩

/-- A node that starts for the first time is at the first ledger. -/
theorem first_initializeNode (hcrypto : Function.Injective node.crypto)
    (hstart : initializeNode node {} = some lm) :
    At node lm (firstSnapshot node) ∧
      lm.storage.ledgerDb = ({} : LedgerDb).addToDb node lm.lastClosed ∧
      lm.storage.accountDb.lastProof = none ∧ lm.proof = [] := by
  have hrooted := rooted_first hstart
  obtain ⟨info, hroot, hrecord⟩ := hrooted.root
  obtain ⟨storage', tree, lm₀, hrepair, -, hopen, hvalidators, hfees, -, -, heq⟩ :=
    initializeNode_eq_some hstart
  rw [eq_of_repair_empty hrepair, openLast_empty] at hopen
  have hrecorded := recorded_genesis hcrypto hopen
  obtain ⟨root, hheader, hset, hprices, hledgerDb, hlastProof, hproof⟩ :=
    createGenesisAccount_eq_some hopen
  rw [hrecorded.validatorsHash, validatorsGet_of_has hrecorded.validators] at hvalidators
  rw [hrecorded.feesHash, feesConfigGet_of_has hrecorded.fees] at hfees
  have hlastClosed : lm.lastClosed = genesisHeader node root := by
    rw [heq]
    exact hheader
  have hrootHash : root = rootHashOf node.codec
      (genesisContent node (content fun _ => none)) := by
    rw [rootHashOf_eq hrecord]
    rw [hlastClosed] at hroot
    exact hroot
  refine ⟨⟨hrooted, ?_, ?_, ?_⟩, ?_, ?_, ?_⟩
  · rw [hlastClosed, hrootHash]
    rfl
  · rw [← Option.some.inj hvalidators, hset]
  · rw [← Option.some.inj hfees, hprices]
  · rw [heq]
    exact hledgerDb
  · rw [heq]
    exact hlastProof
  · rw [heq]
    dsimp only
    rw [hlastProof]
    exact hproof

/-- A node that starts for the first time is a replica of the empty log. -/
theorem replica_first (hcrypto : Function.Injective node.crypto)
    (hstart : startNode node {} ∅ = some m) : Replica node m [] [firstSnapshot node] := by
  obtain ⟨lm, hinitialize, rfl⟩ := Option.map_eq_some_iff.mp hstart
  obtain ⟨hat, hledgerDb, hlastProof, hproof⟩ := first_initializeNode hcrypto hinitialize
  have hrecorded := recorded_initializeNode hcrypto hinitialize
  constructor
  · exact .nil
  · nofun
  · exact hrecorded
  · exact ⟨_, rfl, hat⟩
  · rw [hat.header]
    rfl
  · intro seq
    have hone : numbered 1 [firstSnapshot node] seq =
        if seq = 1 then some (firstSnapshot node) else none := by
      rw [← List.nil_append [firstSnapshot node], numbered_concat, numbered_nil]
      rfl
    have hseq : (firstSnapshot node).header.seq = 1 := rfl
    rw [hledgerDb, LedgerDb.addToDb, hone]
    dsimp only
    rw [lookup_insert_eq, hat.header, hseq]
    split <;> rfl
  · intro snap hsnap
    rw [List.mem_singleton.mp hsnap, ← hat.validators]
    exact hrecorded.validators
  · intro seq
    rw [numbered_nil]
    rfl
  · intro j before hj
    cases hj
  · rw [hlastProof, hproof]
    rfl

/-! ## Runs -/

theorem Replica.congr (hreplica : Replica node m log chain)
    (hmanager : m'.toLedgerManager = m.toLedgerManager) (hvalues : m'.values = m.values) :
    Replica node m' log chain := by
  obtain ⟨lm', values', sync', max'⟩ := m'
  obtain rfl : lm' = m.toLedgerManager := hmanager
  obtain rfl : values' = m.values := hvalues
  exact ⟨hreplica.chainOf, hreplica.acceptable, hreplica.recorded, hreplica.current, hreplica.seq,
    hreplica.headers, hreplica.sets, hreplica.values, hreplica.proof, hreplica.lastProof⟩

theorem Replica.reaches (hcrypto : Function.Injective node.crypto)
    (hreplica : Replica node m log chain) (hreaches : Reaches node m m') :
    ∃ log' chain', Replica node m' (log ++ log') (chain ++ chain') := by
  induction hreaches with
  | same hmanager hvalues => exact ⟨[], [], by simpa using hreplica.congr hmanager hvalues⟩
  | close _ hcloses ih =>
      obtain ⟨log', chain', hreplica'⟩ := ih
      obtain ⟨snap, hclosed⟩ := hreplica'.close hcrypto hcloses
      exact ⟨log' ++ _, chain' ++ _, by simpa only [List.append_assoc] using hclosed⟩

/-- **One event.** The node is still a replica, and its log has only grown. -/
theorem Replica.step (hcrypto : Function.Injective node.crypto)
    (hreplica : Replica node m log chain) {event : SyncManager.Event}
    (hrun : event.run node m = some m') :
    ∃ log' chain', Replica node m' (log ++ log') (chain ++ chain') := by
  rcases run_cases hrun with ⟨-, hstart⟩ | hreaches
  · exact ⟨[], [], by simpa using hreplica.restart hstart⟩
  · exact hreplica.reaches hcrypto hreaches

theorem Replica.runFrom (hcrypto : Function.Injective node.crypto)
    (hreplica : Replica node m log chain) {events : List SyncManager.Event}
    (hrun : events.foldlM (SyncManager.Event.run node) m = some m') :
    ∃ log' chain', Replica node m' (log ++ log') (chain ++ chain') := by
  induction events generalizing m log chain with
  | nil =>
      cases hrun
      exact ⟨[], [], by simpa using hreplica⟩
  | cons event events ih =>
      rw [List.foldlM_cons] at hrun
      obtain ⟨m₁, hevent, hrun⟩ := Option.bind_eq_some_iff.mp hrun
      obtain ⟨log₁, chain₁, hreplica₁⟩ := hreplica.step hcrypto hevent
      obtain ⟨log₂, chain₂, hreplica₂⟩ := ih hreplica₁ hrun
      refine ⟨log₁ ++ log₂, chain₁ ++ chain₂, ?_⟩
      simpa only [List.append_assoc] using hreplica₂

/-- **Every node is a replica**, after any events in any order. -/
theorem replica_run (hcrypto : Function.Injective node.crypto) {events : List SyncManager.Event}
    (hrun : SyncManager.run node events = some m) : ∃ log chain, Replica node m log chain := by
  obtain ⟨m₀, hstart, hrun⟩ := Option.bind_eq_some_iff.mp hrun
  obtain ⟨log, chain, hreplica⟩ := (replica_first hcrypto hstart).runFrom hcrypto hrun
  exact ⟨_, _, hreplica⟩

end CegChain
