import CegChain.Consensus.Proof
import CegChain.Ledger.Replica

/-!
# Forks

What a node has stored can be checked by anyone: every header names the one before it,
and the proof of each value is there to be sent (`stored_chain_proven`).  The hash of one header
pins all headers before it (`same_hash_same_chain`), the accounts and what is in force
(`same_hash_same_state`), in whatever way each of two nodes has executed its blocks.

Where the headers of two nodes differ for the first time, the same validators were in force on
both sides.  Either the nodes have executed one value differently, or their values differ.  Both
have a proof, and two proofs have more signers in common than may be faulty: such a fork can
be blamed on validators that have signed twice (`fork_is_blamed`).
-/

namespace CegChain

open Layers Trie NumberedLists LedgerManager SyncManager

/-! ## A network of four validators -/

namespace SampleNetwork

/-- A COMMIT of the validator `51 + index` for a digest. -/
def commit (digest : Bytes) (index : UInt8) : PbftEnv where
  pbft := {
    (default : Pbft) with
    roundNumber := 1
    type := .commit
    commit? := some
      { viewNumber := 0, sequence := 2, replicaId := index.toNat, valueDigest := digest }
    chainId := 1 }
  signature := ⟨[51 + index], [51 + index]⟩

/-- Keys are their own address and their own signature; a proof is a digest of one byte and
the indexes of the validators that have signed it. -/
def crypto : Crypto where
  selfChainId := 1
  encAddress := id
  verify _ signData publicKey := signData == publicKey
  hash := id
  serializeProof _ := []
  parseProof
    | digest :: indexes => some ⟨indexes.map (commit [digest])⟩
    | [] => none

/-- A node of the network. -/
def node : Node :=
  { Node.sample true with
    genesis := ⟨[50], [[51], [52], [53], [54]], ⟨1000, 10000000⟩, 1, []⟩
    checkProof := fun validators hash proof =>
      checkProof crypto (validators.map Prod.fst) hash proof
    serializeRequest := fun value => [UInt8.ofNat value.closeTime.toNat] }

/-- Executions that leave the accounts as they are; their contexts may differ elsewhere. -/
def idle (totalFee : Int64) : Process :=
  fun _ => some ({ totalFee := totalFee }, [])

/-- The hash of the first header. -/
def genesisHash : Bytes :=
  ((startNode node {} ∅).map fun m => m.lastClosed.hash).getD []

/-- A value that may follow the first ledger. -/
def second (closeTime : ℤ) : ClosingValue where
  txset := []
  ledgerSeq := 2
  closeTime := closeTime
  previousLedgerHash := genesisHash

/-- The value is brought to consensus, and the node stopped and started. -/
def agreed : List SyncManager.Event :=
  [.consent (second 1) [1, 0, 1, 2] 5 (idle 0), .restart]

/-- Another value is brought to consensus by some of the same validators. -/
def forked : List SyncManager.Event :=
  [.consent (second 2) [2, 1, 2, 3] 5 (idle 0)]

/-- A node asks a peer that is connected, and gets the first value. -/
def synchronized : List SyncManager.Event :=
  [.timer 40000000 [7],
    .receive { values := [second 1], maxSeq := 2, proof := [1, 3, 0, 2], chainId := 1 } 7 41000000
      (idle 3)]

theorem crypto_injective : Function.Injective node.crypto :=
  fun _ _ heq => heq

theorem serializeLedger_injective (header header' : LedgerHeader) (txs txs' : List TransactionEnv)
    (heq : node.serializeLedger header txs = node.serializeLedger header' txs') :
    header = header' := by
  have hparse : LedgerHeader.parse header.serialize = LedgerHeader.parse header'.serialize :=
    congrArg LedgerHeader.parse heq
  rwa [LedgerHeader.parse_serialize, LedgerHeader.parse_serialize] at hparse

end SampleNetwork

/-! ## What is stored -/

variable {node : Node} {m m' : SyncManager} {log log' : List ClosingValue}
  {chain chain' : List Snapshot} {snap snap' : Snapshot} {value : ClosingValue} {i : ℕ}

theorem Replica.consensusValueFromDB (hreplica : Replica node m log chain) (i : ℕ) :
    m.consensusValueFromDB (i + 2) = log[i]? := by
  rw [SyncManager.consensusValueFromDB, hreplica.values, add_comm, numbered_add]

theorem Replica.loadFromDb_add (hreplica : Replica node m log chain) (i : ℕ) :
    m.storage.ledgerDb.loadFromDb node (i + 1) = chain[i]?.map Snapshot.header := by
  rw [hreplica.loadFromDb, add_comm, numbered_add]

/-- The snapshot of the last closed ledger. -/
theorem Replica.lastClosed (hreplica : Replica node m log chain)
    (hsnap : chain[log.length]? = some snap) : At node m.toLedgerManager snap := by
  obtain ⟨snap', hsnap', hat⟩ := hreplica.current
  rw [hsnap] at hsnap'
  cases hsnap'
  exact hat

/-- The proof of a value is in the value after it. -/
theorem Replica.proven_next (hreplica : Replica node m log chain) {next : ClosingValue}
    (hvalue : log[i]? = some value) (hlater : log[i + 1]? = some next)
    (hsnap : chain[i]? = some snap) :
    Proven node snap.validators (valueHash node value) next.previousProof := by
  obtain ⟨made, hmade, hheader⟩ := hreplica.chainOf.made hvalue
  rw [← hheader.consensusValueHash]
  exact (hreplica.acceptable (i + 1) next hlater).previousProof i snap made rfl hsnap hmade

/-- **The proof that is sent with a value carries it.** -/
theorem Replica.proven (hreplica : Replica node m log chain) (hvalue : log[i]? = some value)
    (hsnap : chain[i]? = some snap) :
    Proven node snap.validators (valueHash node value) (m.proofFor (i + 2)) := by
  have hi : i < log.length := (List.getElem?_eq_some_iff.mp hvalue).1
  rw [proofFor, hreplica.seq]
  by_cases hlast : i + 1 = log.length
  · -- the proof of the last value is in memory
    obtain ⟨next, hnext, hmade⟩ := hreplica.chainOf.made hvalue
    rw [if_pos (by omega), ← hmade.consensusValueHash]
    rw [hlast] at hnext
    have hproof := hreplica.proof i snap hlast.symm hsnap
    rwa [(hreplica.lastClosed hnext).header] at hproof
  · have hlater : log[i + 1]? = some log[i + 1] := List.getElem?_eq_getElem (by omega)
    have hread : m.consensusValueFromDB (i + 2 + 1) = some log[i + 1] := by
      rw [← hlater, ← hreplica.consensusValueFromDB (i + 1),
        show ((i + 1 : ℕ) : ℤ) + 2 = i + 2 + 1 by push_cast; ring]
    rw [if_neg (by omega), hread]
    exact hreplica.proven_next hvalue hlater hsnap

/-- **What a node has stored can be checked.**  After any run, the headers from 1 to the last
closed ledger and the consensus values from 2 on are stored, and no others; each header
names the hash of the one before it and that of its value, and the proof that is sent with
the value is accepted under the validators that the header before it names. -/
theorem stored_chain_proven (hcrypto : Function.Injective node.crypto)
    {events : List SyncManager.Event} (hrun : SyncManager.run node events = some m) (seq : ℤ) :
    ((m.storage.ledgerDb.loadFromDb node seq).isSome ↔
      1 ≤ seq ∧ seq ≤ m.lastClosed.seq) ∧
    ((m.consensusValueFromDB seq).isSome ↔ 2 ≤ seq ∧ seq ≤ m.lastClosed.seq) ∧
    ∀ value, m.consensusValueFromDB seq = some value →
      ∃ before header validators,
        m.storage.ledgerDb.loadFromDb node (seq - 1) = some before ∧
        m.storage.ledgerDb.loadFromDb node seq = some header ∧
        m.storage.getValidators node (seq - 1) = some validators ∧
        value.ledgerSeq = seq ∧ header.seq = seq ∧
        header.previousHash = before.hash ∧ value.previousLedgerHash = before.hash ∧
        header.consensusValueHash = valueHash node value ∧
        Proven node validators (valueHash node value) (m.proofFor seq) := by
  obtain ⟨log, chain, hreplica⟩ := replica_run hcrypto hrun
  have hlength := hreplica.length
  have hlast := hreplica.seq
  have hsome : ∀ {α : Type} (start : ℤ) (list : List α),
      (numbered start list seq).isSome ↔ start ≤ seq ∧ seq < start + list.length := by
    intro α start list
    unfold numbered
    split
    · simp
      omega
    · simp
      omega
  refine ⟨?_, ?_, fun value hvalue => ?_⟩
  · rw [hreplica.loadFromDb, Option.isSome_map, hsome]
    omega
  · rw [SyncManager.consensusValueFromDB, hreplica.values, hsome]
    omega
  · rw [SyncManager.consensusValueFromDB, hreplica.values] at hvalue
    obtain ⟨i, rfl, hentry⟩ := numbered_eq_some hvalue
    have hi : i < log.length := (List.getElem?_eq_some_iff.mp hentry).1
    obtain ⟨next, hnext, hmade⟩ := hreplica.chainOf.made hentry
    have hbefore : chain[i]? = some chain[i] := List.getElem?_eq_getElem (by omega)
    have haccept := hreplica.acceptable i value hentry
    have hprevious := haccept.previousLedgerHash _ hbefore
    have hseq := haccept.seq
    refine ⟨chain[i].header, next.header, chain[i].validators, ?_, ?_, ?_, by omega, ?_, ?_,
      hprevious, hmade.consensusValueHash, ?_⟩
    · rw [show (2 : ℤ) + i - 1 = i + 1 by ring, hreplica.loadFromDb_add, hbefore]
      rfl
    · rw [show (2 : ℤ) + i = (i + 1 : ℕ) + 1 by push_cast; ring, hreplica.loadFromDb_add, hnext]
      rfl
    · exact hreplica.getValidators hbefore (by ring)
    · rw [hmade.seq, hseq]
      ring
    · rw [hmade.previousHash, hprevious]
    · rw [add_comm]
      exact hreplica.proven hentry hbefore

/-- A value that was synchronized is stored with a proof that can be sent on. -/
theorem stored_chain_proven_synchronized :
    ∃ m, SyncManager.run SampleNetwork.node SampleNetwork.synchronized = some m ∧
      m.lastClosed.seq = 2 ∧ ∃ value validators, m.consensusValueFromDB 2 = some value ∧
        Proven SampleNetwork.node validators (valueHash SampleNetwork.node value)
          (m.proofFor 2) := by
  have hrun : ∃ m, SyncManager.run SampleNetwork.node SampleNetwork.synchronized = some m ∧
      m.lastClosed.seq = 2 := by
    decide +kernel
  obtain ⟨m, hrun, hlast⟩ := hrun
  obtain ⟨-, hvalues, hproven⟩ := stored_chain_proven SampleNetwork.crypto_injective hrun 2
  obtain ⟨value, hvalue⟩ := Option.isSome_iff_exists.mp (hvalues.mpr (by omega))
  obtain ⟨-, -, validators, -, -, -, -, -, -, -, -, hproof⟩ := hproven value hvalue
  exact ⟨m, hrun, hlast, value, validators, hvalue, hproof⟩

/-! ## One hash pins the chain -/

theorem header_eq_of_hash (hcrypto : Function.Injective node.crypto)
    (hledger : ∀ header header' txs txs', node.serializeLedger header txs =
      node.serializeLedger header' txs' → header = header')
    (hchain : ChainOf node log chain) (hchain' : ChainOf node log' chain')
    {i' : ℕ} (hsnap : chain[i]? = some snap) (hsnap' : chain'[i']? = some snap')
    (hhash : snap.header.hash = snap'.header.hash) : snap.header = snap'.header := by
  obtain ⟨txs, heq⟩ := hchain.hash hsnap
  obtain ⟨txs', heq'⟩ := hchain'.hash hsnap'
  have hsame := hledger _ _ txs txs' (hcrypto (heq.symm.trans (hhash.trans heq')))
  calc snap.header = { { snap.header with hash := [] } with hash := snap.header.hash } := rfl
    _ = { { snap'.header with hash := [] } with hash := snap'.header.hash } := by
        rw [hsame, hhash]
    _ = snap'.header := rfl

theorem Replica.seq_header (hreplica : Replica node m log chain) (hsnap : chain[i]? = some snap) :
    snap.header.seq = i + 1 := by
  cases i with
  | zero =>
      rw [hreplica.chainOf.first] at hsnap
      cases hsnap
      rfl
  | succ i =>
      obtain ⟨value, last, ledger, txs, hvalue, -, rfl⟩ := hreplica.chainOf.exists_made hsnap
      have hseq := (hreplica.acceptable i value hvalue).seq
      rw [show (snapshotAfter node value ledger txs last).header.seq = value.ledgerSeq from rfl,
        hseq]
      push_cast
      ring

theorem Replica.previousHash (hreplica : Replica node m log chain) (hsnap : chain[i]? = some snap)
    (hnext : chain[i + 1]? = some snap') : snap'.header.previousHash = snap.header.hash := by
  obtain ⟨value, last, ledger, txs, hvalue, -, rfl⟩ := hreplica.chainOf.exists_made hnext
  exact (hreplica.acceptable i value hvalue).previousLedgerHash snap hsnap

/-- Equal headers have equal headers below them. -/
theorem Replica.headers_eq (hcrypto : Function.Injective node.crypto)
    (hledger : ∀ header header' txs txs', node.serializeLedger header txs =
      node.serializeLedger header' txs' → header = header')
    (hreplica : Replica node m log chain) (hreplica' : Replica node m' log' chain')
    (hsnap : chain[i]? = some snap) (hsnap' : chain'[i]? = some snap')
    (heq : snap.header = snap'.header) :
    ∀ j ≤ i, chain[j]?.map Snapshot.header = chain'[j]?.map Snapshot.header := by
  induction i generalizing snap snap' with
  | zero =>
      intro j hj
      obtain rfl : j = 0 := by omega
      rw [hsnap, hsnap', Option.map_some, Option.map_some, heq]
  | succ i ih =>
      intro j hj
      rcases Nat.lt_or_eq_of_le hj with hlt | rfl
      · have hi : i < chain.length := by
          have := (List.getElem?_eq_some_iff.mp hsnap).1
          omega
        have hi' : i < chain'.length := by
          have := (List.getElem?_eq_some_iff.mp hsnap').1
          omega
        have hbefore := List.getElem?_eq_getElem hi
        have hbefore' := List.getElem?_eq_getElem hi'
        -- the header names the hash of the one before it
        have hhash : chain[i].header.hash = chain'[i].header.hash := by
          rw [← hreplica.previousHash hbefore hsnap, ← hreplica'.previousHash hbefore' hsnap', heq]
        have hheader := header_eq_of_hash hcrypto hledger hreplica.chainOf hreplica'.chainOf
          hbefore hbefore' hhash
        exact ih hbefore hbefore' hheader j (by omega)
      · rw [hsnap, hsnap', Option.map_some, Option.map_some, heq]

/-- **One hash pins the chain.**  If a header of one node has the hash of a header of another
one, both are headers of the same ledger, and all headers before them are the same. -/
theorem same_hash_same_chain (hcrypto : Function.Injective node.crypto)
    (hledger : ∀ header header' txs txs', node.serializeLedger header txs =
      node.serializeLedger header' txs' → header = header')
    {events events' : List SyncManager.Event} (hrun : SyncManager.run node events = some m)
    (hrun' : SyncManager.run node events' = some m') {seq seq' : ℤ} {header header' : LedgerHeader}
    (hheader : m.storage.ledgerDb.loadFromDb node seq = some header)
    (hheader' : m'.storage.ledgerDb.loadFromDb node seq' = some header')
    (hhash : header.hash = header'.hash) :
    seq = seq' ∧ ∀ s ≤ seq, m.storage.ledgerDb.loadFromDb node s =
      m'.storage.ledgerDb.loadFromDb node s := by
  obtain ⟨log, chain, hreplica⟩ := replica_run hcrypto hrun
  obtain ⟨log', chain', hreplica'⟩ := replica_run hcrypto hrun'
  rw [hreplica.loadFromDb] at hheader
  rw [hreplica'.loadFromDb] at hheader'
  obtain ⟨snap, hnumbered, rfl⟩ := Option.map_eq_some_iff.mp hheader
  obtain ⟨snap', hnumbered', rfl⟩ := Option.map_eq_some_iff.mp hheader'
  obtain ⟨i, rfl, hsnap⟩ := numbered_eq_some hnumbered
  obtain ⟨i', rfl, hsnap'⟩ := numbered_eq_some hnumbered'
  have heq := header_eq_of_hash hcrypto hledger hreplica.chainOf hreplica'.chainOf hsnap hsnap'
    hhash
  obtain rfl : i = i' := by
    have hseq := hreplica.seq_header hsnap
    have hseq' := hreplica'.seq_header hsnap'
    rw [heq] at hseq
    omega
  refine ⟨rfl, fun s hs => ?_⟩
  rw [hreplica.loadFromDb, hreplica'.loadFromDb]
  by_cases hpos : 1 ≤ s
  · obtain ⟨j, rfl⟩ : ∃ j : ℕ, s = 1 + j := ⟨(s - 1).toNat, by omega⟩
    rw [numbered_add, numbered_add]
    exact hreplica.headers_eq hcrypto hledger hreplica' hsnap hsnap' heq j (by omega)
  · rw [numbered, numbered, if_neg hpos, if_neg hpos]

/-- The header after a restart is that of a node that has synchronized. -/
theorem same_hash_same_chain_synchronized :
    ∃ m m', SyncManager.run SampleNetwork.node SampleNetwork.synchronized = some m ∧
      SyncManager.run SampleNetwork.node SampleNetwork.agreed = some m' ∧
      ∀ s ≤ 2, m.storage.ledgerDb.loadFromDb SampleNetwork.node s =
        m'.storage.ledgerDb.loadFromDb SampleNetwork.node s := by
  have hrun : ∃ m, SyncManager.run SampleNetwork.node SampleNetwork.synchronized = some m ∧
      ∃ m', SyncManager.run SampleNetwork.node SampleNetwork.agreed = some m' ∧
      ∃ header, m.storage.ledgerDb.loadFromDb SampleNetwork.node 2 = some header ∧
      ∃ header', m'.storage.ledgerDb.loadFromDb SampleNetwork.node 2 = some header' ∧
        header.hash = header'.hash := by
    decide +kernel
  obtain ⟨m, hrun, m', hrun', header, hheader, header', hheader', hhash⟩ := hrun
  exact ⟨m, m', hrun, hrun', (same_hash_same_chain SampleNetwork.crypto_injective
    SampleNetwork.serializeLedger_injective hrun hrun' hheader hheader' hhash).2⟩

/-- A header names the validators. -/
theorem ChainOf.validators_eq (hcrypto : Function.Injective node.crypto)
    (hchain : ChainOf node log chain) (hchain' : ChainOf node log' chain') {i' : ℕ}
    (hsnap : chain[i]? = some snap) (hsnap' : chain'[i']? = some snap')
    (hheader : snap.header = snap'.header) : snap.validators = snap'.validators := by
  have hnamed := hchain.validatorsHash hsnap
  rw [hheader, hchain'.validatorsHash hsnap'] at hnamed
  have hparse := congrArg node.parseValidators (hcrypto hnamed)
  rw [node.parse_validators, node.parse_validators] at hparse
  exact (Option.some.inj hparse).symm

/-- **One hash pins the state.**  Nodes whose last ledgers have one hash have the same validators
and fees in force and the same accounts, whatever way they came there: by consensus, from their
neighbours, or after a restart. -/
theorem same_hash_same_state (hcrypto : Function.Injective node.crypto)
    (hledger : ∀ header header' txs txs', node.serializeLedger header txs =
      node.serializeLedger header' txs' → header = header')
    {events events' : List SyncManager.Event} (hrun : SyncManager.run node events = some m)
    (hrun' : SyncManager.run node events' = some m')
    (hhash : m.lastClosed.hash = m'.lastClosed.hash) :
    m.lastClosed = m'.lastClosed ∧ m.validators = m'.validators ∧ m.fees = m'.fees ∧
      ∀ key, (m.tree.get node.codec accountStart key).map Prod.fst =
        (m'.tree.get node.codec accountStart key).map Prod.fst := by
  obtain ⟨log, chain, hreplica⟩ := replica_run hcrypto hrun
  obtain ⟨log', chain', hreplica'⟩ := replica_run hcrypto hrun'
  obtain ⟨snap, hsnap, hat⟩ := hreplica.current
  obtain ⟨snap', hsnap', hat'⟩ := hreplica'.current
  rw [hat.header, hat'.header] at hhash
  have hheader := header_eq_of_hash hcrypto hledger hreplica.chainOf hreplica'.chainOf hsnap
    hsnap' hhash
  have hvalidators :=
    hreplica.chainOf.validators_eq hcrypto hreplica'.chainOf hsnap hsnap' hheader
  have hfees : snap.fees = snap'.fees := by
    have hnamed := hreplica.chainOf.feesHash hsnap
    have hnamed' := hreplica'.chainOf.feesHash hsnap'
    rw [hheader, hnamed'] at hnamed
    have hparse := congrArg node.parseFees (hcrypto hnamed)
    rw [node.parse_fees, node.parse_fees] at hparse
    exact (Option.some.inj hparse).symm
  have haccounts : snap.accounts = snap'.accounts := by
    obtain ⟨info, hroot, hrecord⟩ := hat.rooted.root
    obtain ⟨info', hroot', hrecord'⟩ := hat'.rooted.root
    refine hrecord.content_eq hcrypto hrecord' ?_
    calc node.crypto (node.codec.serialize info)
        = m.lastClosed.accountTreeHash := hroot.symm
      _ = m'.lastClosed.accountTreeHash := by rw [hat.header, hat'.header, hheader]
      _ = node.crypto (node.codec.serialize info') := hroot'
  refine ⟨hat.header.trans (hheader.trans hat'.header.symm), ?_, ?_, fun key => ?_⟩
  · rw [hat.validators, hvalidators, hat'.validators]
  · rw [hat.fees, hfees, hat'.fees]
  · rw [hat.rooted.loaded.get, hat'.rooted.loaded.get, haccounts]

/-- A node that has synchronized and one that was started anew. -/
theorem same_hash_same_state_synchronized :
    ∃ m m', SyncManager.run SampleNetwork.node SampleNetwork.synchronized = some m ∧
      SyncManager.run SampleNetwork.node SampleNetwork.agreed = some m' ∧ m.lastClosed.seq = 2 ∧
      m.validators = m'.validators ∧ m.fees = m'.fees ∧
      ∀ key, (m.tree.get SampleNetwork.node.codec accountStart key).map Prod.fst =
        (m'.tree.get SampleNetwork.node.codec accountStart key).map Prod.fst := by
  have hrun : ∃ m, SyncManager.run SampleNetwork.node SampleNetwork.synchronized = some m ∧
      ∃ m', SyncManager.run SampleNetwork.node SampleNetwork.agreed = some m' ∧
        m.lastClosed.seq = 2 ∧ m.lastClosed.hash = m'.lastClosed.hash := by
    decide +kernel
  obtain ⟨m, hrun, m', hrun', hlast, hhash⟩ := hrun
  obtain ⟨-, hvalidators, hfees, haccounts⟩ := same_hash_same_state SampleNetwork.crypto_injective
    SampleNetwork.serializeLedger_injective hrun hrun' hhash
  exact ⟨m, m', hrun, hrun', hlast, hvalidators, hfees, haccounts⟩

/-! ## Blame -/

/-- Two proofs for one set of validators have more signers in common than may be faulty. -/
theorem exists_common_signers {crypto : Crypto} {validators : List Bytes}
    (hnodup : validators.Nodup) {digest digest' proof proof' : Bytes}
    (haccept : checkProof crypto validators digest proof = true)
    (haccept' : checkProof crypto validators digest' proof' = true) :
    ∃ signers : Finset Bytes, signers ⊆ validators.toFinset ∧
      faultNumber validators.length < signers.card ∧
      ∀ a ∈ signers, SignedCommitIn crypto validators proof digest a ∧
        SignedCommitIn crypto validators proof' digest' a := by
  obtain ⟨evidence, hparse, hvalid, hsigners, hquorum⟩ := checkProof_iff.mp haccept
  obtain ⟨evidence', hparse', hvalid', hsigners', hquorum'⟩ := checkProof_iff.mp haccept'
  rw [ValidatorMap.length_ofSet hnodup] at hquorum hquorum'
  have hsubset := PbftProof.signers_subset hnodup hvalid
  refine ⟨evidence.signers crypto ∩ evidence'.signers crypto,
    Finset.inter_subset_left.trans hsubset, ?_, ?_⟩
  · have hquorums : validators.toFinset.card + faultNumber validators.length <
        2 * (getQuorumSize validators.length + 1) := by
      rw [List.toFinset_card_of_nodup hnodup]
      exact add_faultNumber_lt_two_mul_quorum _
    refine Quorum.lt_card_inter hsubset (PbftProof.signers_subset hnodup hvalid') ?_ ?_ hquorums
    · rwa [PbftProof.card_signers hsigners]
    · rwa [PbftProof.card_signers hsigners']
  · intro a ha
    obtain ⟨hin, hin'⟩ := Finset.mem_inter.mp ha
    obtain ⟨env, henv, haddress⟩ := List.mem_map.mp (List.mem_toFinset.mp hin)
    obtain ⟨env', henv', haddress'⟩ := List.mem_map.mp (List.mem_toFinset.mp hin')
    exact ⟨⟨evidence, env, hparse, henv, haddress, hvalid env henv⟩,
      ⟨evidence', env', hparse', henv', haddress', hvalid' env' henv'⟩⟩

/-- Nodes whose headers differ have closed the same ledgers up to some value. -/
theorem Replica.exists_first_header (hreplica : Replica node m log chain)
    (hreplica' : Replica node m' log' chain') {seq : ℤ} (hseq : 1 ≤ seq)
    (hfork : m.storage.ledgerDb.loadFromDb node seq ≠ m'.storage.ledgerDb.loadFromDb node seq) :
    ∃ i : ℕ, (i : ℤ) + 2 ≤ seq ∧
      (∀ t < (i : ℤ) + 2,
        m.storage.ledgerDb.loadFromDb node t = m'.storage.ledgerDb.loadFromDb node t) ∧
      m.storage.ledgerDb.loadFromDb node (i + 2) ≠ m'.storage.ledgerDb.loadFromDb node (i + 2) := by
  have hload : ∀ (s : ℤ) (n : ℕ), s = 1 + n →
      (m.storage.ledgerDb.loadFromDb node s = m'.storage.ledgerDb.loadFromDb node s ↔
        (chain.map Snapshot.header)[n]? = (chain'.map Snapshot.header)[n]?) := by
    rintro s n rfl
    rw [hreplica.loadFromDb, hreplica'.loadFromDb, numbered_add, numbered_add, List.getElem?_map,
      List.getElem?_map]
  obtain ⟨k, rfl⟩ : ∃ k : ℕ, seq = 1 + k := ⟨(seq - 1).toNat, by omega⟩
  obtain ⟨n, hn, hdiffer, hsame⟩ :=
    exists_first_difference fun heq => hfork ((hload _ k rfl).mpr heq)
  cases n with
  | zero =>
      -- every node has the same first ledger
      rw [List.getElem?_map, List.getElem?_map, hreplica.chainOf.first,
        hreplica'.chainOf.first] at hdiffer
      exact absurd rfl hdiffer
  | succ i =>
      refine ⟨i, by omega, fun t ht => ?_, ?_⟩
      · by_cases hpos : 1 ≤ t
        · obtain ⟨j, rfl⟩ : ∃ j : ℕ, t = 1 + j := ⟨(t - 1).toNat, by omega⟩
          exact (hload _ j rfl).mpr (hsame j (by omega))
        · rw [hreplica.loadFromDb, hreplica'.loadFromDb, numbered, numbered, if_neg hpos,
            if_neg hpos]
      · rwa [Ne, hload _ (i + 1) (by push_cast; ring)]

/-- **A fork can be blamed.**  If two nodes have different headers of one ledger, there is
a first ledger whose headers differ, and the validators that the header before it names are the
same on both sides.  Unless both nodes have executed one value (or two that are serialized to the
same bytes), or one of the two values is a hard fork point, more than `f` of these validators
have signed COMMITs for both, as the proofs show that the nodes hold. -/
theorem fork_is_blamed {crypto : Crypto} (hcrypto : Function.Injective node.crypto)
    (hcheck : ∀ (validators : ValidatorSet) (hash proof : Bytes),
      node.checkProof validators hash proof =
        checkProof crypto (validators.map Prod.fst) hash proof)
    {events events' : List SyncManager.Event} (hrun : SyncManager.run node events = some m)
    (hrun' : SyncManager.run node events' = some m') {seq : ℤ}
    (hseq : 1 ≤ seq ∧ seq ≤ m.lastClosed.seq) (hseq' : seq ≤ m'.lastClosed.seq)
    (hfork : m.storage.ledgerDb.loadFromDb node seq ≠ m'.storage.ledgerDb.loadFromDb node seq) :
    ∃ s value value' validators, 2 ≤ s ∧ s ≤ seq ∧
      (∀ t < s, m.storage.ledgerDb.loadFromDb node t = m'.storage.ledgerDb.loadFromDb node t) ∧
      m.storage.ledgerDb.loadFromDb node s ≠ m'.storage.ledgerDb.loadFromDb node s ∧
      m.consensusValueFromDB s = some value ∧ m'.consensusValueFromDB s = some value' ∧
      m.storage.getValidators node (s - 1) = some validators ∧
      m'.storage.getValidators node (s - 1) = some validators ∧
      (node.serializeRequest value = node.serializeRequest value' ∨
        valueHash node value ∈ node.hardforkPoints ∨ valueHash node value' ∈ node.hardforkPoints ∨
        ((validators.map Prod.fst).Nodup → ∃ signers : Finset Bytes,
          signers ⊆ (validators.map Prod.fst).toFinset ∧
          faultNumber validators.length < signers.card ∧ ∀ a ∈ signers,
            SignedCommitIn crypto (validators.map Prod.fst) (m.proofFor s)
              (valueHash node value) a ∧
            SignedCommitIn crypto (validators.map Prod.fst) (m'.proofFor s)
              (valueHash node value') a)) := by
  obtain ⟨log, chain, hreplica⟩ := replica_run hcrypto hrun
  obtain ⟨log', chain', hreplica'⟩ := replica_run hcrypto hrun'
  have hlast := hreplica.seq
  have hlast' := hreplica'.seq
  have hlength := hreplica.length
  have hlength' := hreplica'.length
  obtain ⟨i, hi, hbefore, hdiffer⟩ := hreplica.exists_first_header hreplica' hseq.1 hfork
  have hvalue : log[i]? = some log[i] := List.getElem?_eq_getElem (by omega)
  have hvalue' : log'[i]? = some log'[i] := List.getElem?_eq_getElem (by omega)
  have hsnap : chain[i]? = some chain[i] := List.getElem?_eq_getElem (by omega)
  have hsnap' : chain'[i]? = some chain'[i] := List.getElem?_eq_getElem (by omega)
  have hheader : chain[i].header = chain'[i].header := by
    have heq := hbefore (i + 1) (by omega)
    rw [hreplica.loadFromDb_add, hreplica'.loadFromDb_add, hsnap, hsnap'] at heq
    exact Option.some.inj heq
  have hvalidators :=
    hreplica.chainOf.validators_eq hcrypto hreplica'.chainOf hsnap hsnap' hheader
  refine ⟨i + 2, log[i], log'[i], chain[i].validators, by omega, by omega, hbefore, hdiffer, ?_, ?_,
    ?_, ?_, ?_⟩
  · rw [hreplica.consensusValueFromDB, hvalue]
  · rw [hreplica'.consensusValueFromDB, hvalue']
  · exact hreplica.getValidators hsnap (by ring)
  · rw [hvalidators]
    exact hreplica'.getValidators hsnap' (by ring)
  · rcases hreplica.proven hvalue hsnap with haccept | hpoint
    · -- both proofs are checked under the same validators
      have hproven' := hreplica'.proven hvalue' hsnap'
      rw [← hvalidators] at hproven'
      rcases hproven' with haccept' | hpoint'
      · right; right; right
        intro hnodup
        rw [hcheck] at haccept haccept'
        have hsigners := exists_common_signers hnodup haccept haccept'
        rwa [List.length_map] at hsigners
      · exact .inr (.inr (.inl hpoint'))
    · exact .inr (.inl hpoint)

/-- Two nodes of the network fork, and more validators than may be faulty have signed twice. -/
theorem fork_is_blamed_second :
    ∃ m m', SyncManager.run SampleNetwork.node SampleNetwork.agreed = some m ∧
      SyncManager.run SampleNetwork.node SampleNetwork.forked = some m' ∧
      ∃ value value' validators s, ∃ signers : Finset Bytes, 1 < signers.card ∧ ∀ a ∈ signers,
        SignedCommitIn SampleNetwork.crypto validators (m.proofFor s)
            (valueHash SampleNetwork.node value) a ∧
          SignedCommitIn SampleNetwork.crypto validators (m'.proofFor s)
            (valueHash SampleNetwork.node value') a := by
  have hrun : ∃ m, SyncManager.run SampleNetwork.node SampleNetwork.agreed = some m ∧
      ∃ m', SyncManager.run SampleNetwork.node SampleNetwork.forked = some m' ∧
      m.lastClosed.seq = 2 ∧ m'.lastClosed.seq = 2 ∧
      m.storage.ledgerDb.loadFromDb SampleNetwork.node 2 ≠
        m'.storage.ledgerDb.loadFromDb SampleNetwork.node 2 ∧
      m.consensusValueFromDB 2 = some (SampleNetwork.second 1) ∧
      m'.consensusValueFromDB 2 = some (SampleNetwork.second 2) ∧
      m.storage.getValidators SampleNetwork.node 1 =
        some [([51], 0), ([52], 0), ([53], 0), ([54], 0)] := by
    decide +kernel
  obtain ⟨m, hrun, m', hrun', hlast, hlast', hfork, hvalue, hvalue', hvalidators⟩ := hrun
  have hcheck : ∀ (validators : ValidatorSet) (hash proof : Bytes),
      SampleNetwork.node.checkProof validators hash proof =
        checkProof SampleNetwork.crypto (validators.map Prod.fst) hash proof :=
    fun _ _ _ => rfl
  obtain ⟨s, value, value', validators, htwo, hle, -, -, hread, hread', hset, -, hblame⟩ :=
    fork_is_blamed SampleNetwork.crypto_injective hcheck hrun hrun' ⟨one_le_two, hlast.ge⟩ hlast'.ge
      hfork
  obtain rfl : s = 2 := by omega
  rw [hvalue] at hread
  rw [hvalue'] at hread'
  cases hread
  cases hread'
  rw [show (2 : ℤ) - 1 = 1 by rfl, hvalidators] at hset
  cases hset
  rcases hblame with hserialize | hpoint | hpoint | hblame
  · exact absurd hserialize (by decide)
  · cases hpoint
  · cases hpoint
  · obtain ⟨signers, -, hcard, hsigned⟩ := hblame (by decide)
    exact ⟨m, m', hrun, hrun', _, _, _, 2, signers, hcard, hsigned⟩

end CegChain
