import CegChain.Ledger.Wire
import CegChain.Lib.Addressed

/-!
# What the headers record

A header names its validators and its fees by a hash.  The set itself is written only
when a ledger changes it, and a set that is in force again after others may be written
again; the table is addressed by content, so that neither hides what an earlier header
names.

`Recorded` is the invariant of every run of a node: the header of the last closed ledger
is in the database and names what is in force.  `Keeps` says what a step leaves of the
past.
-/

namespace CegChain

open Layers

/-! ## One batch -/

/-- An entry that is addressed by its content. -/
def Entry.Named (crypto : Bytes → Bytes) : Entry → Prop
  | .validators hash value => crypto value = hash
  | .fees hash value => crypto value = hash
  | .maxSeq _ | .lastProof _ => True

namespace AccountDb

variable {crypto : Bytes → Bytes} {db db' db'' : AccountDb} {entries : List Entry}

/-- The tables of a database are addressed by content. -/
structure Named (crypto : Bytes → Bytes) (db : AccountDb) : Prop where
  validators : Addressed crypto db.validators
  fees : Addressed crypto db.fees

/-- The tables lose nothing. -/
structure Keeps (db db' : AccountDb) : Prop where
  validators : Grows db.validators db'.validators
  fees : Grows db.fees db'.fees

theorem Keeps.refl (db : AccountDb) : Keeps db db :=
  ⟨.refl _, .refl _⟩

theorem Keeps.trans (hfirst : Keeps db db') (hsecond : Keeps db' db'') : Keeps db db'' :=
  ⟨hfirst.validators.trans hsecond.validators, hfirst.fees.trans hsecond.fees⟩

theorem named_put (hnamed : Named crypto db) {entry : Entry} (hentry : entry.Named crypto) :
    Named crypto (db.put entry) := by
  cases entry with
  | maxSeq seq => exact ⟨hnamed.validators, hnamed.fees⟩
  | lastProof proof => exact ⟨hnamed.validators, hnamed.fees⟩
  | validators hash value =>
      obtain rfl : crypto value = hash := hentry
      exact ⟨hnamed.validators.insert value, hnamed.fees⟩
  | fees hash value =>
      obtain rfl : crypto value = hash := hentry
      exact ⟨hnamed.validators, hnamed.fees.insert value⟩

theorem keeps_put (hcrypto : Function.Injective crypto) (hnamed : Named crypto db)
    {entry : Entry} (hentry : entry.Named crypto) : Keeps db (db.put entry) := by
  cases entry with
  | maxSeq seq => exact ⟨.refl _, .refl _⟩
  | lastProof proof => exact ⟨.refl _, .refl _⟩
  | validators hash value =>
      obtain rfl : crypto value = hash := hentry
      exact ⟨hnamed.validators.grows_insert hcrypto value, .refl _⟩
  | fees hash value =>
      obtain rfl : crypto value = hash := hentry
      exact ⟨.refl _, hnamed.fees.grows_insert hcrypto value⟩

theorem named_foldl (hcrypto : Function.Injective crypto) (hnamed : Named crypto db)
    (hentries : ∀ entry ∈ entries, entry.Named crypto) :
    Named crypto (entries.foldl put db) ∧ Keeps db (entries.foldl put db) := by
  induction entries generalizing db with
  | nil => exact ⟨hnamed, .refl db⟩
  | cons entry entries ih =>
      have hentry := hentries entry (List.mem_cons_self ..)
      obtain ⟨hnamed', hkeeps⟩ := ih (named_put hnamed hentry)
        fun later hlater => hentries later (List.mem_cons_of_mem _ hlater)
      exact ⟨hnamed', (keeps_put hcrypto hnamed hentry).trans hkeeps⟩

/-- What an entry is about is in the database. -/
def Has (db : AccountDb) : Entry → Prop
  | .validators hash value => db.validators.lookup hash = some value
  | .fees hash value => db.fees.lookup hash = some value
  | .maxSeq _ | .lastProof _ => True

theorem has_put (db : AccountDb) (entry : Entry) : (db.put entry).Has entry := by
  cases entry with
  | maxSeq seq => trivial
  | lastProof proof => trivial
  | validators hash value => exact AList.lookup_insert _
  | fees hash value => exact AList.lookup_insert _

theorem Has.keeps {entry : Entry} (hhas : db.Has entry) (hkeeps : Keeps db db') :
    db'.Has entry := by
  cases entry with
  | maxSeq seq => trivial
  | lastProof proof => trivial
  | validators hash value => exact hkeeps.validators hash value hhas
  | fees hash value => exact hkeeps.fees hash value hhas

/-- **The entries of a batch are there once it is written.** -/
theorem has_foldl (hcrypto : Function.Injective crypto) (hnamed : Named crypto db)
    (hentries : ∀ entry ∈ entries, entry.Named crypto) :
    ∀ entry ∈ entries, (entries.foldl put db).Has entry := by
  induction entries generalizing db with
  | nil => nofun
  | cons first entries ih =>
      intro entry hmem
      have hnamed' := named_put hnamed (hentries first (List.mem_cons_self ..))
      have hlater : ∀ entry ∈ entries, entry.Named crypto :=
        fun later hlater => hentries later (List.mem_cons_of_mem _ hlater)
      rcases List.mem_cons.mp hmem with rfl | hmem
      · exact (has_put db entry).keeps (named_foldl hcrypto hnamed' hlater).2
      · exact ih hnamed' hlater entry hmem

theorem maxSeq_foldl (hentries : ∀ entry ∈ entries, ∀ seq, entry ≠ .maxSeq seq)
    (db : AccountDb) : (entries.foldl put db).maxSeq = db.maxSeq := by
  induction entries generalizing db with
  | nil => rfl
  | cons entry entries ih =>
      rw [List.foldl_cons, ih fun later hlater => hentries later (List.mem_cons_of_mem _ hlater)]
      cases entry with
      | maxSeq seq => exact absurd rfl (hentries _ (List.mem_cons_self ..) seq)
      | validators hash value => rfl
      | fees hash value => rfl
      | lastProof proof => rfl

end AccountDb

/-! ## Runs -/

namespace LedgerManager

/-- What happens to a node. -/
inductive Event where
  /-- A block has consensus, or is synchronized: `CloseLedger`. -/
  | close (value : ClosingValue) (proof : Bytes)
      (executed : Option (LedgerContext × List TransactionEnv))
  /-- The node is stopped and started. -/
  | restart

variable (node : Node)

/-- The manager after an event. -/
def Event.run (lm : LedgerManager) : Event → Option LedgerManager
  | .close value proof executed => (closeLedger node value proof executed lm).map Prod.snd
  | .restart => initializeNode node lm.storage

/-- The manager after further events. -/
def runFrom (lm : LedgerManager) (events : List Event) : Option LedgerManager :=
  events.foldlM (Event.run node) lm

/-- The manager after these events, from an empty storage. -/
def run (events : List Event) : Option LedgerManager :=
  (initializeNode node {}).bind fun lm => runFrom node lm events

/-- The last closed ledger is in the database and names what is in force. -/
structure Recorded (lm : LedgerManager) : Prop where
  named : lm.storage.accountDb.Named node.crypto
  entries : ∀ entry ∈ lm.entries, entry.Named node.crypto
  maxSeq : lm.storage.accountDb.maxSeq = some lm.lastClosed.seq
  ledgerSeq : lm.storage.ledgerDb.maxSeq = some lm.lastClosed.seq
  header : lm.storage.ledgerDb.headers.lookup lm.lastClosed.seq =
    some (node.serializeHeader lm.lastClosed)
  validatorsHash : lm.lastClosed.validatorsHash =
    node.crypto (node.serializeValidators lm.validators)
  validators : lm.storage.accountDb.Has (validatorsSet node lm.validators)
  feesHash : lm.lastClosed.feesHash = node.crypto (node.serializeFees lm.fees)
  fees : lm.storage.accountDb.Has (feesConfigSet node lm.fees)

/-- The past is kept. -/
structure Keeps (lm lm' : LedgerManager) : Prop where
  seq : lm.lastClosed.seq ≤ lm'.lastClosed.seq
  headers : ∀ seq ≤ lm.lastClosed.seq,
    lm'.storage.ledgerDb.headers.lookup seq = lm.storage.ledgerDb.headers.lookup seq
  accounts : lm.storage.accountDb.Keeps lm'.storage.accountDb

variable {node} {lm lm' lm'' : LedgerManager}

theorem Keeps.refl (lm : LedgerManager) : Keeps lm lm :=
  ⟨le_rfl, fun _ _ => rfl, .refl _⟩

theorem Keeps.trans (hfirst : Keeps lm lm') (hsecond : Keeps lm' lm'') : Keeps lm lm'' := by
  refine ⟨hfirst.seq.trans hsecond.seq, fun seq hseq => ?_, hfirst.accounts.trans hsecond.accounts⟩
  rw [hsecond.headers seq (hseq.trans hfirst.seq), hfirst.headers seq hseq]

/-! ### Starting -/

theorem named_validatorsSet (set : ValidatorSet) : (validatorsSet node set).Named node.crypto :=
  rfl

theorem named_feesConfigSet (fees : FeeConfig) : (feesConfigSet node fees).Named node.crypto :=
  rfl

/-- The parts of a start that succeeds. -/
theorem initializeNode_eq_some {storage : Storage}
    (hstart : initializeNode node storage = some lm) :
    ∃ storage' tree lm₀, storage.checkAndRepairLedgerSeq node = some storage' ∧
      Trie.KVTrie.init node.codec accountStart storage'.accountDb.nodes 4 = some tree ∧
      openLast node storage' tree = some lm₀ ∧
      lm₀.storage.accountDb.validatorsGet node lm₀.lastClosed.validatorsHash =
        some lm.validators ∧
      lm₀.storage.accountDb.feesConfigGet node lm₀.lastClosed.feesHash = some lm.fees ∧
      lm₀.lastClosed.accountTreeHash = (lm₀.tree.updateHash node.codec accountStart).rootHash ∧
      lm₀.lastClosed.version ≤ ledgerVersion ∧
      lm = { lm₀ with
        tree := lm₀.tree.updateHash node.codec accountStart
        validators := lm.validators
        fees := lm.fees
        proof := lm₀.storage.accountDb.lastProof.getD lm₀.proof } := by
  obtain ⟨storage', hrepair, hstart⟩ := Option.bind_eq_some_iff.mp hstart
  obtain ⟨tree, hinit, hstart⟩ := Option.bind_eq_some_iff.mp hstart
  obtain ⟨lm₀, hopen, hstart⟩ := Option.bind_eq_some_iff.mp hstart
  obtain ⟨validators, hvalidators, hstart⟩ := Option.bind_eq_some_iff.mp hstart
  obtain ⟨fees, hfees, hstart⟩ := Option.bind_eq_some_iff.mp hstart
  split at hstart
  · cases hstart
  rename_i hroot
  split at hstart
  · cases hstart
  rename_i hversion
  cases hstart
  exact ⟨storage', tree, lm₀, hrepair, hinit, hopen, hvalidators, hfees, not_not.mp hroot,
    not_lt.mp hversion, rfl⟩

theorem validatorsGet_of_has {db : AccountDb} {set : ValidatorSet}
    (hhas : db.Has (validatorsSet node set)) :
    db.validatorsGet node (node.crypto (node.serializeValidators set)) = some set := by
  have hlookup : db.validators.lookup (node.crypto (node.serializeValidators set)) =
      some (node.serializeValidators set) := hhas
  rw [AccountDb.validatorsGet, hlookup, Option.bind_some, node.parse_validators]

theorem feesConfigGet_of_has {db : AccountDb} {fees : FeeConfig}
    (hhas : db.Has (feesConfigSet node fees)) :
    db.feesConfigGet node (node.crypto (node.serializeFees fees)) = some fees := by
  have hlookup : db.fees.lookup (node.crypto (node.serializeFees fees)) =
      some (node.serializeFees fees) := hhas
  rw [AccountDb.feesConfigGet, hlookup, Option.bind_some, node.parse_fees]

theorem Recorded.checkAndRepairLedgerSeq (hrecorded : Recorded node lm) :
    lm.storage.checkAndRepairLedgerSeq node = some lm.storage := by
  rw [Storage.checkAndRepairLedgerSeq, hrecorded.maxSeq, hrecorded.ledgerSeq]
  dsimp only
  rw [if_pos rfl, ite_self]

theorem Recorded.loadFromDb (hrecorded : Recorded node lm) :
    lm.storage.ledgerDb.loadFromDb node lm.lastClosed.seq = some lm.lastClosed := by
  rw [LedgerDb.loadFromDb, hrecorded.header, Option.map_some, node.parse_header]

theorem Recorded.openLast (hrecorded : Recorded node lm) (tree : Trie.KVTrie) :
    openLast node lm.storage tree =
      some { storage := lm.storage, tree := tree, lastClosed := lm.lastClosed } := by
  rw [LedgerManager.openLast, hrecorded.maxSeq, LedgerDb.getMaxLedger, hrecorded.ledgerSeq,
    Option.getD_some, hrecorded.loadFromDb]
  rfl

theorem loadFromDb_addToDb (header : LedgerHeader) (db : LedgerDb) :
    (db.addToDb node header).loadFromDb node header.seq = some header := by
  rw [LedgerDb.loadFromDb, LedgerDb.addToDb]
  dsimp only
  rw [AList.lookup_insert, Option.map_some, node.parse_header]

/-- What a start leaves of a manager. -/
theorem Recorded.restart (hrecorded : Recorded node lm)
    (hstart : initializeNode node lm.storage = some lm') :
    lm'.storage = lm.storage ∧ lm'.lastClosed = lm.lastClosed ∧
      lm'.validators = lm.validators ∧ lm'.fees = lm.fees ∧ lm'.entries = [] := by
  obtain ⟨storage', tree, lm₀, hrepair, -, hopen, hvalidators, hfees, -, -, heq⟩ :=
    initializeNode_eq_some hstart
  rw [hrecorded.checkAndRepairLedgerSeq] at hrepair
  obtain rfl := Option.some.inj hrepair
  rw [hrecorded.openLast tree] at hopen
  obtain rfl := Option.some.inj hopen
  have hvalidators' : some lm.validators = some lm'.validators := by
    rw [← hvalidators, hrecorded.validatorsHash]
    exact (validatorsGet_of_has hrecorded.validators).symm
  have hfees' : some lm.fees = some lm'.fees := by
    rw [← hfees, hrecorded.feesHash]
    exact (feesConfigGet_of_has hrecorded.fees).symm
  rw [heq]
  exact ⟨rfl, rfl, (Option.some.inj hvalidators').symm, (Option.some.inj hfees').symm, rfl⟩

theorem Recorded.recorded_restart (hrecorded : Recorded node lm)
    (hstart : initializeNode node lm.storage = some lm') :
    Recorded node lm' ∧ Keeps lm lm' := by
  obtain ⟨hstorage, hlast, hvalidators, hfees, hentries⟩ := hrecorded.restart hstart
  constructor
  · constructor
    · rw [hstorage]
      exact hrecorded.named
    · rw [hentries]
      nofun
    · rw [hstorage, hlast]
      exact hrecorded.maxSeq
    · rw [hstorage, hlast]
      exact hrecorded.ledgerSeq
    · rw [hstorage, hlast]
      exact hrecorded.header
    · rw [hlast, hvalidators]
      exact hrecorded.validatorsHash
    · rw [hstorage, hvalidators]
      exact hrecorded.validators
    · rw [hlast, hfees]
      exact hrecorded.feesHash
    · rw [hstorage, hfees]
      exact hrecorded.fees
  · refine ⟨hlast ▸ le_rfl, fun seq _ => ?_, ?_⟩
    · rw [hstorage]
    · rw [hstorage]
      exact .refl _

/-! ### The first ledger -/

theorem openLast_empty (tree : Trie.KVTrie) :
    LedgerManager.openLast node {} tree = createGenesisAccount node {} tree :=
  rfl

theorem recorded_genesis (hcrypto : Function.Injective node.crypto) {tree : Trie.KVTrie}
    (hgenesis : createGenesisAccount node {} tree = some lm) : Recorded node lm := by
  rw [createGenesisAccount] at hgenesis
  split at hgenesis
  · cases hgenesis
  obtain ⟨tree', -, hgenesis⟩ := Option.bind_eq_some_iff.mp hgenesis
  cases hgenesis
  have hnamed : ∀ entry ∈ [Entry.maxSeq 1, validatorsSet node
        (node.genesis.validators.map fun address => (address, 0)),
      feesConfigSet node node.genesis.fees], entry.Named node.crypto := by
    intro entry hmem
    simp only [List.mem_cons, List.not_mem_nil, or_false] at hmem
    rcases hmem with rfl | rfl | rfl
    · trivial
    · exact named_validatorsSet _
    · exact named_feesConfigSet _
  have hempty : ∀ nodes : Trie.Db, AccountDb.Named node.crypto { nodes := nodes } :=
    fun _ => ⟨addressed_empty, addressed_empty⟩
  have hhas := fun nodes => AccountDb.has_foldl hcrypto (hempty nodes) hnamed
  constructor
  · exact (AccountDb.named_foldl hcrypto (hempty _) hnamed).1
  · exact hnamed
  · rfl
  · rfl
  · exact AList.lookup_insert _
  · rfl
  · exact hhas _ _ (List.mem_cons_of_mem _ (List.mem_cons_self ..))
  · rfl
  · exact hhas _ _ (List.mem_cons_of_mem _ (List.mem_cons_of_mem _ (List.mem_cons_self ..)))

/-! ### Closing -/

section Closing

variable {value : ClosingValue} {proof : Bytes} {ledger : LedgerContext}
  {txs : List TransactionEnv} {closing : Closing}

/-- The entries that a closing adds to the batch. -/
theorem entries_prepare (hprepare : prepare node value proof ledger txs lm = some closing) :
    ∃ added, closing.manager.entries = lm.entries ++ .maxSeq value.ledgerSeq :: added ∧
      (∀ entry ∈ added, entry.Named node.crypto ∧ ∀ seq, entry ≠ .maxSeq seq) ∧
      (validatorsSet node closing.manager.validators ∈ added ∨
        closing.manager.validators = lm.validators) ∧
      (feesConfigSet node closing.manager.fees ∈ added ∨ closing.manager.fees = lm.fees) := by
  obtain ⟨tree, -, hclosing⟩ := Option.bind_eq_some_iff.mp hprepare
  cases hclosing
  refine ⟨_, rfl, ?_, ?_, ?_⟩
  · intro entry hmem
    simp only [List.mem_append, List.mem_singleton] at hmem
    rcases hmem with (hmem | hmem) | rfl
    · split at hmem
      · rw [List.mem_singleton.mp hmem]
        exact ⟨named_validatorsSet _, nofun⟩
      · cases hmem
    · split at hmem
      · rw [List.mem_singleton.mp hmem]
        exact ⟨named_feesConfigSet _, nofun⟩
      · cases hmem
    · exact ⟨trivial, nofun⟩
  · by_cases hset : (newValidators value ledger lm).1
    · exact .inl (by simp [hset])
    · exact .inr (by simp [hset])
  · by_cases hfees : (ledger.getVotedFee lm.fees).1
    · exact .inl (by simp [hfees])
    · exact .inr (by simp [hfees])

/-- The header names the validators and the fees of the manager. -/
theorem header_prepare (hprepare : prepare node value proof ledger txs lm = some closing) :
    closing.header.seq = value.ledgerSeq ∧
      closing.header.validatorsHash =
        node.crypto (node.serializeValidators closing.manager.validators) ∧
      closing.header.feesHash = node.crypto (node.serializeFees closing.manager.fees) ∧
      closing.manager.storage = lm.storage := by
  obtain ⟨tree, -, hclosing⟩ := Option.bind_eq_some_iff.mp hprepare
  cases hclosing
  refine ⟨rfl, ?_, rfl, rfl⟩
  by_cases hset : (newValidators value ledger lm).1
  · simp [hset]
  · have hold : (newValidators value ledger lm).2 = lm.validators := by
      rw [newValidators] at hset ⊢
      split at hset
      · exact absurd rfl hset
      · rename_i hforked
        rw [if_neg hforked]
        rw [LedgerContext.getVotedValidators] at hset ⊢
        split at hset
        · exact absurd rfl hset
        · rfl
    simp [hset, hold]

/-- The sequence and the headers after the two writes. -/
theorem storage_finish (hprepare : prepare node value proof ledger txs lm = some closing) :
    (closing.finish node).storage.accountDb.maxSeq = some closing.header.seq ∧
      (closing.finish node).storage.ledgerDb =
        lm.storage.ledgerDb.addToDb node closing.header := by
  obtain ⟨added, hentries, hadded, -, -⟩ := entries_prepare hprepare
  obtain ⟨hheader, -, -, hstorage⟩ := header_prepare hprepare
  constructor
  · change (closing.manager.storage.accountDb.writeBatch closing.manager.tree.batch
      closing.manager.entries).maxSeq = _
    rw [AccountDb.writeBatch, hentries, List.foldl_append, List.foldl_cons,
      AccountDb.maxSeq_foldl fun entry hmem => (hadded entry hmem).2]
    exact congrArg some hheader.symm
  · change closing.manager.storage.ledgerDb.addToDb node closing.header = _
    rw [hstorage]

/-- **A closed ledger is recorded, and hides none of the past.** -/
theorem Recorded.finish (hcrypto : Function.Injective node.crypto) (hrecorded : Recorded node lm)
    (hprepare : prepare node value proof ledger txs lm = some closing)
    (hseq : value.ledgerSeq = lm.lastClosed.seq + 1) :
    Recorded node (closing.finish node) ∧ Keeps lm (closing.finish node) := by
  obtain ⟨added, hentries, hadded, hvalidators, hfees⟩ := entries_prepare hprepare
  obtain ⟨hheader, hvalidatorsHash, hfeesHash, hstorage⟩ := header_prepare hprepare
  have hnamed : ∀ entry ∈ closing.manager.entries, entry.Named node.crypto := by
    rw [hentries]
    intro entry hmem
    rcases List.mem_append.mp hmem with hmem | hmem
    · exact hrecorded.entries entry hmem
    · rcases List.mem_cons.mp hmem with rfl | hmem
      · trivial
      · exact (hadded entry hmem).1
  -- the batch of the trie goes to another table
  set db : AccountDb := { lm.storage.accountDb with
    nodes := Trie.writeBatch closing.manager.tree.batch lm.storage.accountDb.nodes } with hdb
  have hbefore : db.Named node.crypto := ⟨hrecorded.named.validators, hrecorded.named.fees⟩
  have hafter : (closing.finish node).storage.accountDb =
    closing.manager.entries.foldl .put db := by
    change AccountDb.writeBatch _ _ closing.manager.storage.accountDb = _
    rw [hstorage]
    rfl
  obtain ⟨hmaxSeq, hledger⟩ := storage_finish hprepare
  obtain ⟨hnamed', hkeeps⟩ := AccountDb.named_foldl hcrypto hbefore hnamed
  have hkeeps' : lm.storage.accountDb.Keeps (closing.finish node).storage.accountDb := by
    rw [hafter]
    exact ⟨hkeeps.validators, hkeeps.fees⟩
  have hhas : ∀ entry ∈ added, (closing.finish node).storage.accountDb.Has entry := by
    intro entry hmem
    rw [hafter]
    refine AccountDb.has_foldl hcrypto hbefore hnamed entry ?_
    rw [hentries]
    exact List.mem_append_right _ (List.mem_cons_of_mem _ hmem)
  constructor
  · constructor
    · rw [hafter]
      exact hnamed'
    · nofun
    · exact hmaxSeq
    · rw [hledger]
      rfl
    · rw [hledger]
      exact AList.lookup_insert _
    · exact hvalidatorsHash
    · rcases hvalidators with hmem | hold
      · exact hhas _ hmem
      · change (closing.finish node).storage.accountDb.Has
          (validatorsSet node closing.manager.validators)
        rw [hold]
        exact hrecorded.validators.keeps hkeeps'
    · exact hfeesHash
    · rcases hfees with hmem | hold
      · exact hhas _ hmem
      · change (closing.finish node).storage.accountDb.Has
          (feesConfigSet node closing.manager.fees)
        rw [hold]
        exact hrecorded.fees.keeps hkeeps'
  · have hlater : lm.lastClosed.seq < closing.header.seq := by
      rw [hheader, hseq]
      omega
    refine ⟨hlater.le, fun seq hle => ?_, hkeeps'⟩
    rw [hledger]
    exact AList.lookup_insert_ne (by omega)

/-- What an accepted value says of its sequence and its version. -/
theorem of_checkValueAndProof (hcheck : checkValueAndProof node value proof lm = true) :
    value.ledgerSeq = lm.lastClosed.seq + 1 ∧ checkUpgrade node value lm = true := by
  rw [checkValueAndProof] at hcheck
  split at hcheck
  · cases hcheck
  · simp only [checkValueHelper, Bool.and_eq_true, decide_eq_true_eq] at hcheck
    exact ⟨hcheck.1.1.1.1.2, hcheck.1.1.2⟩

/-- A value is refused, or its ledger is closed. -/
theorem closeLedger_eq_some {executed : Option (LedgerContext × List TransactionEnv)}
    {closed : Bool}
    (hclose : closeLedger node value proof executed lm = some (closed, lm')) :
    (closed = false ∧ lm' = lm) ∨ (closed = true ∧ ∃ ledger txs closing,
      executed = some (ledger, txs) ∧ checkValueAndProof node value proof lm = true ∧
      prepare node value proof ledger txs lm = some closing ∧ lm' = closing.finish node) := by
  unfold closeLedger at hclose
  split at hclose
  · cases hclose
    exact .inl ⟨rfl, rfl⟩
  rename_i hcheck
  rw [Bool.not_eq_false] at hcheck
  cases executed with
  | none =>
      cases hclose
      exact .inl ⟨rfl, rfl⟩
  | some block =>
      obtain ⟨closing, hprepare, heq⟩ := Option.map_eq_some_iff.mp hclose
      cases heq
      exact .inr ⟨rfl, block.1, block.2, closing, rfl, hcheck, hprepare, rfl⟩

end Closing

/-! ### Whole runs -/

theorem Recorded.step (hcrypto : Function.Injective node.crypto) (hrecorded : Recorded node lm)
    {event : Event} (hrun : event.run node lm = some lm') : Recorded node lm' ∧ Keeps lm lm' := by
  cases event with
  | restart => exact hrecorded.recorded_restart hrun
  | close value proof executed =>
      obtain ⟨⟨closed, lm''⟩, hclose, rfl⟩ := Option.map_eq_some_iff.mp hrun
      rcases closeLedger_eq_some hclose with
        ⟨-, rfl⟩ | ⟨-, ledger, txs, closing, -, hcheck, hprepare, rfl⟩
      · exact ⟨hrecorded, .refl _⟩
      · exact hrecorded.finish hcrypto hprepare (of_checkValueAndProof hcheck).1

theorem Recorded.runFrom (hcrypto : Function.Injective node.crypto) (hrecorded : Recorded node lm)
    {events : List Event} (hrun : runFrom node lm events = some lm') :
    Recorded node lm' ∧ Keeps lm lm' := by
  induction events generalizing lm with
  | nil =>
      cases hrun
      exact ⟨hrecorded, .refl _⟩
  | cons event events ih =>
      rw [LedgerManager.runFrom, List.foldlM_cons] at hrun
      obtain ⟨lm₁, hevent, hrun⟩ := Option.bind_eq_some_iff.mp hrun
      obtain ⟨hrecorded₁, hkeeps₁⟩ := hrecorded.step hcrypto hevent
      obtain ⟨hrecorded', hkeeps⟩ := ih hrecorded₁ hrun
      exact ⟨hrecorded', hkeeps₁.trans hkeeps⟩

theorem eq_of_repair_empty {storage : Storage}
    (hrepair : Storage.checkAndRepairLedgerSeq node {} = some storage) : storage = {} := by
  rw [Storage.checkAndRepairLedgerSeq] at hrepair
  split at hrepair
  · exact (Option.some.inj hrepair).symm
  · exact (Option.some.inj hrepair).symm

/-- The first start of a node is a genesis ledger that is loaded at once. -/
theorem recorded_initializeNode (hcrypto : Function.Injective node.crypto)
    (hstart : initializeNode node {} = some lm) : Recorded node lm := by
  obtain ⟨storage', tree, lm₀, hrepair, -, hopen, hvalidators, hfees, -, -, heq⟩ :=
    initializeNode_eq_some hstart
  rw [eq_of_repair_empty hrepair, openLast_empty] at hopen
  have hrecorded := recorded_genesis hcrypto hopen
  rw [hrecorded.validatorsHash, validatorsGet_of_has hrecorded.validators] at hvalidators
  rw [hrecorded.feesHash, feesConfigGet_of_has hrecorded.fees] at hfees
  rw [heq, ← Option.some.inj hvalidators, ← Option.some.inj hfees]
  exact ⟨hrecorded.named, hrecorded.entries, hrecorded.maxSeq, hrecorded.ledgerSeq,
    hrecorded.header, hrecorded.validatorsHash, hrecorded.validators, hrecorded.feesHash,
    hrecorded.fees⟩

theorem recorded_run (hcrypto : Function.Injective node.crypto) {events : List Event}
    (hrun : run node events = some lm) : Recorded node lm := by
  obtain ⟨lm₀, hstart, hrun⟩ := Option.bind_eq_some_iff.mp hrun
  exact ((recorded_initializeNode hcrypto hstart).runFrom hcrypto hrun).1

/-- **What a header records can be read for ever.** Whatever ledgers are closed after a
ledger `s`, with votes, with forks and with restarts in any order, `GetValidators` of `s`
gives the set that was in force when `s` had been closed, and the fees of its header are
those that were in force then. -/
theorem recorded_resolves (hcrypto : Function.Injective node.crypto) {events later : List Event}
    (hrun : run node events = some lm) (hlater : runFrom node lm later = some lm') :
    lm'.storage.getValidators node lm.lastClosed.seq = some lm.validators ∧
      ∃ header, lm'.storage.ledgerDb.loadFromDb node lm.lastClosed.seq = some header ∧
        lm'.storage.accountDb.feesConfigGet node header.feesHash = some lm.fees := by
  have hrecorded := recorded_run hcrypto hrun
  obtain ⟨-, hkeeps⟩ := hrecorded.runFrom hcrypto hlater
  have hload : lm'.storage.ledgerDb.loadFromDb node lm.lastClosed.seq = some lm.lastClosed := by
    rw [LedgerDb.loadFromDb, hkeeps.headers _ le_rfl]
    exact hrecorded.loadFromDb
  refine ⟨?_, lm.lastClosed, hload, ?_⟩
  · rw [Storage.getValidators, hload, Option.bind_eq_bind, Option.bind_some,
      hrecorded.validatorsHash]
    exact validatorsGet_of_has (hrecorded.validators.keeps hkeeps.accounts)
  · rw [hrecorded.feesHash]
    exact feesConfigGet_of_has (hrecorded.fees.keeps hkeeps.accounts)

/-- A block after the first one, in which validators and a gas price are voted. -/
def votingBlock (lm : LedgerManager) : Event :=
  .close { txset := [], ledgerSeq := 2, previousLedgerHash := lm.lastClosed.hash } []
    (some ((({} : LedgerContext).updateNewValidators 0 (.validators [([52], 7), ([53], 5)]))
      |>.updateFeeConfig 0 (.fees [(1, 2000)]), []))

/-- The validators and the fees of the first ledger are still found when others were voted
and the node was started again. -/
theorem recorded_resolves_voted :
    ∃ lm lm', run (.sample true) [] = some lm ∧
      runFrom (.sample true) lm [votingBlock lm, .restart] = some lm' ∧
      lm'.lastClosed.seq = 2 ∧ lm'.validators = [([52], 7), ([53], 5)] ∧
      lm'.storage.getValidators (.sample true) 1 = some [([51], 0)] ∧
      ∃ header, lm'.storage.ledgerDb.loadFromDb (.sample true) 1 = some header ∧
        lm'.storage.accountDb.feesConfigGet (.sample true) header.feesHash =
          some ⟨1000, 10000000⟩ := by
  have hstart : ∃ lm, run (.sample true) [] = some lm ∧ lm.lastClosed.seq = 1 ∧
      lm.validators = [([51], 0)] ∧ lm.fees = ⟨1000, 10000000⟩ ∧
      ∃ lm', runFrom (.sample true) lm [votingBlock lm, .restart] = some lm' ∧
        lm'.lastClosed.seq = 2 ∧ lm'.validators = [([52], 7), ([53], 5)] := by
    decide +kernel
  obtain ⟨lm, hrun, hseq, hvalidators, hfees, lm', hlater, hseq', hvalidators'⟩ := hstart
  have hcrypto : Function.Injective (Node.sample true).crypto := fun _ _ heq => heq
  have hresolves := recorded_resolves hcrypto hrun hlater
  rw [hseq, hvalidators, hfees] at hresolves
  exact ⟨lm, lm', hrun, hlater, hseq', hvalidators', hresolves⟩

end LedgerManager

end CegChain
