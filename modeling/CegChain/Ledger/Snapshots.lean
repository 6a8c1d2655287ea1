import CegChain.Ledger.Synchronize
import CegChain.Lib.NumberedLists

/-!
# The chain that a log of values leaves

What the nodes of a network replicate, without their databases, tries, proofs and
restarts.  A `Snapshot` is what a closed ledger leaves: its header, the accounts as a
map, and what is in force.  The ledgers of a log of consensus values are the snapshot of the
first one, and one for each value (`ChainOf`): what its execution has made of the one before.
How a value was executed is left open, so that a log does not determine its chain.

`Acceptable` says which values may be the next ones, and `Proven` which proofs carry
them; both read the chain and nothing else of a node.
-/

namespace CegChain

open Layers Trie NumberedLists LedgerManager

/-- What a closed ledger leaves. -/
structure Snapshot where
  header : LedgerHeader
  accounts : Content
  validators : ValidatorSet
  fees : FeeConfig

instance : Nonempty Info :=
  ⟨{}⟩

/-- The root hash of every trie that stands for `M`. -/
noncomputable def rootHashOf (codec : Codec) (M : Content) : Bytes :=
  codec.crypto (codec.serialize (Classical.epsilon fun info =>
    ∃ db, RootRecord codec accountStart db M info))

theorem rootHashOf_eq {codec : Codec} {db : Db} {M : Content} {info : Info}
    (hrecord : RootRecord codec accountStart db M info) :
    rootHashOf codec M = codec.crypto (codec.serialize info) := by
  obtain ⟨db', hrecord'⟩ := Classical.epsilon_spec (p := fun info =>
    ∃ db, RootRecord codec accountStart db M info) ⟨info, db, hrecord⟩
  rw [rootHashOf, hrecord'.unique hrecord]

section Node

variable (node : Node)

/-- The hash of a consensus value. -/
abbrev valueHash (value : ClosingValue) : Bytes :=
  node.crypto (node.serializeRequest value)

/-! ## One ledger -/

/-- The validators that a block leaves. -/
def validatorsAfter (value : ClosingValue) (ledger : LedgerContext) (validators : ValidatorSet) :
    ValidatorSet :=
  if forkedSet value ≠ [] then forkedSet value else (ledger.getVotedValidators validators).2

/-- The fees that a block leaves. -/
def feesAfter (ledger : LedgerContext) (fees : FeeConfig) : FeeConfig :=
  if (ledger.getVotedFee fees).1 then (ledger.getVotedFee fees).2 else fees

/-- The version that a block leaves. -/
def versionAfter (value : ClosingValue) (version : ℤ) : ℤ :=
  match value.ledgerUpgrade with
  | some upgrade => if upgrade.newLedgerVersion > 0 then upgrade.newLedgerVersion else version
  | none => version

/-- The header of a ledger whose accounts are `accounts`. -/
noncomputable def headerAfter (value : ClosingValue) (ledger : LedgerContext)
    (txs : List TransactionEnv) (accounts : Content) (last : Snapshot) : LedgerHeader :=
  let header : LedgerHeader :=
    { seq := value.ledgerSeq
      previousHash := value.previousLedgerHash
      accountTreeHash := rootHashOf node.codec accounts
      closeTime := value.closeTime
      consensusValueHash := valueHash node value
      version := versionAfter value last.header.version
      txCount := last.header.txCount + txs.length
      validatorsHash := node.crypto
        (node.serializeValidators (validatorsAfter value ledger last.validators))
      feesHash := node.crypto (node.serializeFees (feesAfter ledger last.fees))
      chainId := node.genesis.chainId }
  { header with hash := node.crypto (node.serializeLedger header txs) }

/-- The snapshot after a block that was executed to `ledger`. -/
noncomputable def snapshotAfter (value : ClosingValue) (ledger : LedgerContext)
    (txs : List TransactionEnv) (last : Snapshot) : Snapshot where
  header := headerAfter node value ledger txs
    (overwrite last.accounts (committedItems node ledger)) last
  accounts := overwrite last.accounts (committedItems node ledger)
  validators := validatorsAfter value ledger last.validators
  fees := feesAfter ledger last.fees

/-- The snapshot of the first ledger. -/
noncomputable def firstSnapshot : Snapshot where
  header := genesisHeader node
    (rootHashOf node.codec (genesisContent node (content fun _ => none)))
  accounts := genesisContent node (content fun _ => none)
  validators := node.genesis.validators.map fun address => (address, 0)
  fees := node.genesis.fees

/-- **What a log of values leaves**: the snapshots of all ledgers, the first one first.  Each is
what some execution of its value makes of the one before. -/
structure ChainOf (log : List ClosingValue) (chain : List Snapshot) : Prop where
  length : chain.length = log.length + 1
  first : chain[0]? = some (firstSnapshot node)
  next : ∀ i value last, log[i]? = some value → chain[i]? = some last →
    ∃ ledger txs, chain[i + 1]? = some (snapshotAfter node value ledger txs last)

/-! ## What may come next -/

/-- A proof carries the value with this hash. -/
def Proven (validators : ValidatorSet) (hash proof : Bytes) : Prop :=
  node.checkProof validators hash proof = true ∨ hash ∈ node.hardforkPoints

/-- An upgrade that a value may ask for. -/
def UpgradeAllowed (value : ClosingValue) (version : ℤ) : Prop :=
  ∀ upgrade, value.ledgerUpgrade = some upgrade →
    (upgrade.newLedgerVersion ≠ 0 →
      version < upgrade.newLedgerVersion ∧ upgrade.newLedgerVersion ≤ ledgerVersion) ∧
    (upgrade.newValidator ≠ [] → valueHash node value ∈ node.hardforkPoints)

/-- The value may be entry `i` of the log, when `chain` are the snapshots before it. -/
structure Acceptable (chain : List Snapshot) (i : ℕ) (value : ClosingValue) : Prop where
  size : (node.serializeRequest value).length < (16 + 2) * 1024 * 1024
  seq : value.ledgerSeq = i + 2
  previousLedgerHash : ∀ last, chain[i]? = some last → value.previousLedgerHash = last.header.hash
  upgrade : ∀ last, chain[i]? = some last → UpgradeAllowed node value last.header.version
  second : i = 0 → value.previousProof = []
  previousProof : ∀ j before last, i = j + 1 → chain[j]? = some before → chain[i]? = some last →
    Proven node before.validators last.header.consensusValueHash value.previousProof

/-- Every entry of the log was acceptable. -/
def AllAcceptable (chain : List Snapshot) (log : List ClosingValue) : Prop :=
  ∀ i value, log[i]? = some value → Acceptable node chain i value

end Node

variable {node : Node} {log log' : List ClosingValue} {chain chain' : List Snapshot}
  {snap : Snapshot} {value : ClosingValue} {i j k : ℕ}

/-- Before any value, there is the first ledger. -/
theorem ChainOf.nil : ChainOf node [] [firstSnapshot node] :=
  ⟨rfl, rfl, nofun⟩

/-- One more value. -/
theorem ChainOf.concat (hchain : ChainOf node log chain)
    (hlast : chain[log.length]? = some snap) (value : ClosingValue) (ledger : LedgerContext)
    (txs : List TransactionEnv) :
    ChainOf node (log ++ [value]) (chain ++ [snapshotAfter node value ledger txs snap]) where
  length := by simp [hchain.length]
  first := by
    rw [List.getElem?_append_left (by simp [hchain.length])]
    exact hchain.first
  next i value' last hvalue hbefore := by
    have hlength := hchain.length
    rcases Nat.lt_or_ge i log.length with hlt | hge
    · -- the old entries have made the old snapshots
      rw [List.getElem?_append_left hlt] at hvalue
      rw [List.getElem?_append_left (by omega)] at hbefore
      obtain ⟨ledger', txs', hnext⟩ := hchain.next i value' last hvalue hbefore
      exact ⟨ledger', txs', by rw [List.getElem?_append_left (by omega), hnext]⟩
    · rw [List.getElem?_append_right hge, List.getElem?_singleton] at hvalue
      split at hvalue
      · obtain rfl : i = log.length := by omega
        cases hvalue
        rw [List.getElem?_append_left (by omega), hlast] at hbefore
        cases hbefore
        refine ⟨ledger, txs, ?_⟩
        rw [List.getElem?_append_right (by omega), hlength]
        simp
      · cases hvalue

/-- Every ledger but the first was made by its value. -/
theorem ChainOf.exists_made (hchain : ChainOf node log chain)
    (hsnap : chain[i + 1]? = some snap) :
    ∃ value last ledger txs, log[i]? = some value ∧ chain[i]? = some last ∧
      snap = snapshotAfter node value ledger txs last := by
  have hlength := hchain.length
  have hlt : i + 1 < chain.length := (List.getElem?_eq_some_iff.mp hsnap).1
  have hvalue : log[i]? = some log[i] := List.getElem?_eq_getElem (by omega)
  have hlast : chain[i]? = some chain[i] := List.getElem?_eq_getElem (by omega)
  obtain ⟨ledger, txs, hnext⟩ := hchain.next i _ _ hvalue hlast
  exact ⟨log[i], chain[i], ledger, txs, hvalue, hlast, Option.some.inj (hsnap.symm.trans hnext)⟩

/-- An entry of the log and the ledger it made. -/
structure Made (node : Node) (value : ClosingValue) (snap : Snapshot) : Prop where
  seq : snap.header.seq = value.ledgerSeq
  previousHash : snap.header.previousHash = value.previousLedgerHash
  consensusValueHash : snap.header.consensusValueHash = valueHash node value
  validatorsHash : snap.header.validatorsHash =
    node.crypto (node.serializeValidators snap.validators)

theorem ChainOf.made (hchain : ChainOf node log chain) (hvalue : log[i]? = some value) :
    ∃ snap, chain[i + 1]? = some snap ∧ Made node value snap := by
  have hi : i < log.length := (List.getElem?_eq_some_iff.mp hvalue).1
  have hlength := hchain.length
  have hlast : chain[i]? = some chain[i] := List.getElem?_eq_getElem (by omega)
  obtain ⟨ledger, txs, hnext⟩ := hchain.next i value _ hvalue hlast
  exact ⟨_, hnext, rfl, rfl, rfl, rfl⟩

/-- Every snapshot names its validators. -/
theorem ChainOf.validatorsHash (hchain : ChainOf node log chain)
    (hsnap : chain[i]? = some snap) :
    snap.header.validatorsHash = node.crypto (node.serializeValidators snap.validators) := by
  cases i with
  | zero =>
      rw [hchain.first] at hsnap
      cases hsnap
      rfl
  | succ i =>
      obtain ⟨value, last, ledger, txs, -, -, rfl⟩ := hchain.exists_made hsnap
      rfl

/-- Every snapshot names its fees. -/
theorem ChainOf.feesHash (hchain : ChainOf node log chain) (hsnap : chain[i]? = some snap) :
    snap.header.feesHash = node.crypto (node.serializeFees snap.fees) := by
  cases i with
  | zero =>
      rw [hchain.first] at hsnap
      cases hsnap
      rfl
  | succ i =>
      obtain ⟨value, last, ledger, txs, -, -, rfl⟩ := hchain.exists_made hsnap
      rfl

/-- Every header has the hash of its ledger. -/
theorem ChainOf.hash (hchain : ChainOf node log chain) (hsnap : chain[i]? = some snap) :
    ∃ txs, snap.header.hash =
      node.crypto (node.serializeLedger { snap.header with hash := [] } txs) := by
  cases i with
  | zero =>
      rw [hchain.first] at hsnap
      cases hsnap
      exact ⟨[], rfl⟩
  | succ i =>
      obtain ⟨value, last, ledger, txs, -, -, rfl⟩ := hchain.exists_made hsnap
      exact ⟨txs, rfl⟩

/-- What may come next depends on the chain up to there. -/
theorem Acceptable.congr (haccept : Acceptable node chain i value)
    (hsame : ∀ j ≤ i, chain[j]? = chain'[j]?) : Acceptable node chain' i value where
  size := haccept.size
  seq := haccept.seq
  previousLedgerHash last hlast := haccept.previousLedgerHash last ((hsame i le_rfl).trans hlast)
  upgrade last hlast := haccept.upgrade last ((hsame i le_rfl).trans hlast)
  second := haccept.second
  previousProof j before last hi hbefore hlast :=
    haccept.previousProof j before last hi ((hsame j (by omega)).trans hbefore)
      ((hsame i le_rfl).trans hlast)

end CegChain
