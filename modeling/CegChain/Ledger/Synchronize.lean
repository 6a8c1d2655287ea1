import CegChain.Ledger.Recovery

/-!
# Synchronizing ledgers

The part of `ledger/ledger_manager.cpp` by which a node that is behind gets the blocks
that it has missed.  `OnTimer` asks every free neighbour for the next ledger,
`OnRequestLedgers` answers with the consensus values and the proof of the last one, and
`OnReceiveLedgers` closes what it is sent and asks for more.

How blocks are executed comes in with the events (`Process`), as clocks and the peers that are
connected do.  A node takes the context that it has kept since it proposed or checked the block,
or executes it anew, so that one value may be executed differently at every event.
-/

namespace CegChain

open Layers Trie LedgerManager

/-! ## Messages -/

/-- `protocol::GetLedgers`. -/
structure GetLedgers where
  beginSeq : ℤ := 0
  endSeq : ℤ := 0
  timestamp : ℤ := 0
  chainId : ℤ := 0
  deriving DecidableEq

/-- `protocol::Ledgers`. -/
structure Ledgers where
  values : List ClosingValue := []
  maxSeq : ℤ := 0
  proof : Bytes := []
  chainId : ℤ := 0
  deriving DecidableEq

/-! ## The state -/

/-- `SyncStat`: what is known of a peer. -/
structure SyncStat where
  sendTime : ℤ := 0
  gl : GetLedgers := {}
  probation : ℤ := 0
  deriving DecidableEq

/-- `Sync`. -/
structure Sync where
  updateTime : ℤ := 0
  peers : Table ℤ SyncStat := ∅

/-- `LedgerContextManager::SyncProcess`: what a value is executed to, from a context that is
kept or by `ApplyFollow`. -/
abbrev Process :=
  ClosingValue → Option (LedgerContext × List TransactionEnv)

/-- `LedgerManager` with what the synchronization works on. -/
structure SyncManager extends LedgerManager where
  /-- The consensus values in `ledger_db`, by their sequence. -/
  values : Table ℤ ClosingValue := ∅
  sync : Sync := {}
  chainMaxLedgerProbaly : ℤ := 0

/-- `MICRO_UNITS_PER_SEC`. -/
def microUnitsPerSec : ℤ := 1000000

namespace SyncManager

variable (node : Node) (process : Process)

/-- `General::GetSelfChainId`. -/
abbrev selfChainId : ℤ := node.genesis.chainId

/-! ## Closing -/

/-- `LedgerManager::CloseLedger`. -/
def closeLedger (value : ClosingValue) (proof : Bytes) (m : SyncManager) :
    Option (Bool × SyncManager) :=
  (LedgerManager.closeLedger node value proof (process value) m.toLedgerManager).map fun r =>
    (r.1, { m with
      toLedgerManager := r.2
      values := if r.1 then m.values.insert value.ledgerSeq value else m.values })

/-- `LedgerManager::OnConsent`. -/
def onConsent (value : ClosingValue) (proof : Bytes) (now : ℤ) (m : SyncManager) :
    Option SyncManager :=
  if m.lastClosed.seq ≥ value.ledgerSeq then some m
  else if m.lastClosed.seq + 1 = value.ledgerSeq then
    (closeLedger node process value proof
      { m with sync := { m.sync with updateTime := now } }).map Prod.snd
  else some m

/-! ## Requests -/

/-- `LedgerManager::ConsensusValueFromDB`. -/
def consensusValueFromDB (seq : ℤ) (m : SyncManager) : Option ClosingValue :=
  m.values.lookup seq

/-- The sequences from `beginSeq` to `endSeq`. -/
def seqsOf (message : GetLedgers) : List ℤ :=
  (List.range (message.endSeq - message.beginSeq + 1).toNat).map fun i : ℕ => message.beginSeq + i

/-- The proof that is sent with the values. -/
def proofFor (seq : ℤ) (m : SyncManager) : Bytes :=
  if seq = m.lastClosed.seq then m.proof
  else match m.consensusValueFromDB (seq + 1) with
    | some next => next.previousProof
    | none => []

/-- `LedgerManager::OnRequestLedgers`: what is sent back. -/
def onRequestLedgers (message : GetLedgers) (m : SyncManager) : Option Ledgers :=
  if message.chainId ≠ selfChainId node then none
  else if message.endSeq - message.beginSeq + 1 > 5 then none
  else if message.endSeq - message.beginSeq < 0 then none
  else if m.lastClosed.seq < message.endSeq then none
  else ((seqsOf message).mapM m.consensusValueFromDB).map fun values =>
    { values := values
      maxSeq := m.lastClosed.seq
      proof := m.proofFor message.endSeq
      chainId := selfChainId node }

/-- `LedgerManager::RequestConsensusValues`, without the message. -/
def requestConsensusValues (pid : ℤ) (gl : GetLedgers) (time : ℤ) (m : SyncManager) :
    SyncManager :=
  { m with sync :=
    { peers := m.sync.peers.insert pid
        { ((m.sync.peers.lookup pid).getD {}) with gl := gl, sendTime := time }
      updateTime := time } }

/-! ## Answers -/

/-- The proof of a value in `OnReceiveLedgers`: it is in the value after it, or comes with
the message. -/
def proofOf (proof : Bytes) : List ClosingValue → Bytes
  | next :: _ => next.previousProof
  | [] => proof

/-- The loop of `OnReceiveLedgers`: whether the last value that was next has been closed,
and whether one has failed. -/
def closeLedgers (proof : Bytes) : List ClosingValue → Bool → SyncManager →
    Option (Bool × Bool × SyncManager)
  | [], valid, m => some (valid, false, m)
  | value :: rest, valid, m =>
      if value.ledgerSeq = m.lastClosed.seq + 1 then do
        let (closed, m) ← closeLedger node process value (proofOf proof rest) m
        if closed then closeLedgers proof rest true m else some (false, true, m)
      else closeLedgers proof rest valid m

/-- A record of `sync_.peers_` is changed. -/
def setPeer (pid : ℤ) (stat : SyncStat) (m : SyncManager) : SyncManager :=
  { m with sync := { m.sync with peers := m.sync.peers.insert pid stat } }

/-- The end of `OnReceiveLedgers`: more is asked for when a ledger was closed. -/
def askForMore (ledgers : Ledgers) (peerId now : ℤ) (m : SyncManager) :
    SyncManager × List (ℤ × GetLedgers) :=
  let next := m.lastClosed.seq + 1
  let gl : GetLedgers :=
    { beginSeq := next
      endSeq := min ledgers.maxSeq (next + 4)
      timestamp := now
      chainId := selfChainId node }
  let r := if next ≤ ledgers.maxSeq then (m.requestConsensusValues peerId gl now, [(peerId, gl)])
    else (m, [])
  (if ledgers.maxSeq > m.chainMaxLedgerProbaly then
    { r.1 with chainMaxLedgerProbaly := ledgers.maxSeq } else r.1, r.2)

/-- `LedgerManager::OnReceiveLedgers`, with the requests that are sent. -/
def onReceiveLedgers (ledgers : Ledgers) (peerId now : ℤ) (m : SyncManager) :
    Option (SyncManager × List (ℤ × GetLedgers)) :=
  if ledgers.chainId ≠ selfChainId node then some (m, [])
  else match ledgers.values.head?, ledgers.values.getLast?, m.sync.peers.lookup peerId with
    | some first, some last, some itm =>
        let itm := { itm with sendTime := 0 }
        let cleared := { itm with gl := { itm.gl with beginSeq := 0, endSeq := 0 } }
        let probation := now + 60 * microUnitsPerSec
        if first.ledgerSeq ≠ itm.gl.beginSeq ∨ last.ledgerSeq ≠ itm.gl.endSeq then
          some (m.setPeer peerId { cleared with probation := probation }, [])
        else do
          let (valid, failed, m) ← closeLedgers node process ledgers.proof ledgers.values false
            (m.setPeer peerId cleared)
          let m := if failed then m.setPeer peerId { cleared with probation := probation } else m
          some (if valid then askForMore node ledgers peerId now m else (m, []))
    | _, _, _ => some (m, [])

/-! ## The timer -/

/-- What `OnTimer` makes of the record of a peer, and whether the peer is asked. -/
def checkPeer (currentTime : ℤ) (st : SyncStat) : SyncStat × Bool :=
  let st := if currentTime - st.sendTime > 30 * microUnitsPerSec then { st with sendTime := 0 }
    else st
  (st, !(decide (st.probation > currentTime) || decide (st.sendTime ≠ 0)))

/-- The records after `OnTimer` has looked at them. -/
def checkedPeers (currentTime : ℤ) (active : List ℤ) (peers : Table ℤ SyncStat) :
    Table ℤ SyncStat :=
  active.foldl (fun peers pid =>
    match peers.lookup pid with
    | some st => peers.insert pid (checkPeer currentTime st).1
    | none => peers)
    ((peers.keys.filter fun pid => pid ∉ active).foldl (fun peers pid => peers.erase pid) peers)

/-- The peers that `OnTimer` asks. -/
def enablePeers (currentTime : ℤ) (active : List ℤ) (peers : Table ℤ SyncStat) : List ℤ :=
  active.filter fun pid =>
    match peers.lookup pid with
    | some st => (checkPeer currentTime st).2
    | none => true

/-- `LedgerManager::OnTimer`, with the requests that are sent; `active` are the ids of the
active peers. -/
def onTimer (currentTime : ℤ) (active : List ℤ) (m : SyncManager) :
    SyncManager × List (ℤ × GetLedgers) :=
  if currentTime - m.sync.updateTime ≤ 30 * microUnitsPerSec then (m, [])
  else
    let nextSeq := m.lastClosed.seq + 1
    let gl : GetLedgers :=
      { beginSeq := nextSeq
        endSeq := nextSeq
        timestamp := currentTime
        chainId := selfChainId node }
    let enabled := enablePeers currentTime active m.sync.peers
    let m := { m with sync :=
      { updateTime := currentTime
        peers := checkedPeers currentTime active m.sync.peers } }
    (enabled.foldl (fun m pid => m.requestConsensusValues pid gl currentTime) m,
      enabled.map fun pid => (pid, gl))

/-! ## Runs -/

/-- What happens to a node. -/
inductive Event where
  /-- `OnConsent`. -/
  | consent (value : ClosingValue) (proof : Bytes) (now : ℤ) (process : Process)
  /-- `OnRequestLedgers`. -/
  | request (message : GetLedgers)
  /-- `OnReceiveLedgers`. -/
  | receive (ledgers : Ledgers) (peerId now : ℤ) (process : Process)
  /-- `OnTimer`. -/
  | timer (currentTime : ℤ) (active : List ℤ)
  /-- The node is stopped and started. -/
  | restart

/-- The first start and every later one: what is not in a database is lost. -/
def startNode (storage : Storage) (values : Table ℤ ClosingValue) : Option SyncManager :=
  (initializeNode node storage).map fun lm => { toLedgerManager := lm, values := values }

/-- The manager after an event. -/
def Event.run (m : SyncManager) : Event → Option SyncManager
  | .consent value proof now process => m.onConsent node process value proof now
  | .request _ => some m
  | .receive ledgers peerId now process =>
      (m.onReceiveLedgers node process ledgers peerId now).map Prod.fst
  | .timer currentTime active => some (m.onTimer node currentTime active).1
  | .restart => startNode node m.storage m.values

/-- The manager after these events, from an empty storage. -/
def run (events : List Event) : Option SyncManager :=
  (startNode node {} ∅).bind fun m => events.foldlM (Event.run node) m

/-! ## What a step does to the chain -/

/-- A ledger is closed; nothing is said of the peers. -/
structure Closes (value : ClosingValue) (proof : Bytes) (m m' : SyncManager) : Prop where
  check : checkValueAndProof node value proof m.toLedgerManager = true
  closing : ∃ ledger txs closing,
    prepare node value proof ledger txs m.toLedgerManager = some closing ∧
    m'.toLedgerManager = closing.finish node
  values : m'.values = m.values.insert value.ledgerSeq value

/-- Some ledgers are closed, one after the other; nothing is said of the peers. -/
inductive Reaches (m : SyncManager) : SyncManager → Prop
  | same {m' : SyncManager} (hmanager : m'.toLedgerManager = m.toLedgerManager)
      (hvalues : m'.values = m.values) : Reaches m m'
  | close {m₁ m' : SyncManager} {value : ClosingValue} {proof : Bytes} (hbefore : Reaches m m₁)
      (hcloses : Closes node value proof m₁ m') : Reaches m m'

variable {node process} {m m' m'' : SyncManager} {value : ClosingValue} {proof : Bytes}

theorem Closes.congr_right (hcloses : Closes node value proof m m')
    (hmanager : m''.toLedgerManager = m'.toLedgerManager) (hvalues : m''.values = m'.values) :
    Closes node value proof m m'' := by
  obtain ⟨ledger, txs, closing, hprepare, hfinish⟩ := hcloses.closing
  exact ⟨hcloses.check, ⟨ledger, txs, closing, hprepare, hmanager.trans hfinish⟩,
    hvalues.trans hcloses.values⟩

theorem Reaches.refl (m : SyncManager) : Reaches node m m :=
  .same rfl rfl

theorem Reaches.congr_right (hreaches : Reaches node m m')
    (hmanager : m''.toLedgerManager = m'.toLedgerManager) (hvalues : m''.values = m'.values) :
    Reaches node m m'' := by
  cases hreaches with
  | same hmanager' hvalues' => exact .same (hmanager.trans hmanager') (hvalues.trans hvalues')
  | close hbefore hcloses => exact .close hbefore (hcloses.congr_right hmanager hvalues)

theorem Reaches.trans (hfirst : Reaches node m m') (hsecond : Reaches node m' m'') :
    Reaches node m m'' := by
  induction hsecond with
  | same hmanager hvalues => exact hfirst.congr_right hmanager hvalues
  | close _ hcloses ih => exact .close ih hcloses

theorem Reaches.congr_left (hreaches : Reaches node m' m'')
    (hmanager : m'.toLedgerManager = m.toLedgerManager) (hvalues : m'.values = m.values) :
    Reaches node m m'' :=
  Reaches.trans (.same hmanager hvalues) hreaches

/-- **`CloseLedger`** refuses a value and changes nothing, or closes its ledger. -/
theorem closeLedger_cases {closed : Bool}
    (hclose : closeLedger node process value proof m = some (closed, m')) :
    (closed = false ∧ m' = m) ∨
      (closed = true ∧ m'.sync = m.sync ∧ Closes node value proof m m') := by
  obtain ⟨⟨closed', lm⟩, hmanager, heq⟩ := Option.map_eq_some_iff.mp hclose
  cases heq
  rcases closeLedger_eq_some hmanager with
    ⟨rfl, rfl⟩ | ⟨rfl, ledger, txs, closing, -, hcheck, hprepare, rfl⟩
  · exact .inl ⟨rfl, rfl⟩
  · exact .inr ⟨rfl, rfl, hcheck, ⟨ledger, txs, closing, hprepare, rfl⟩, rfl⟩

theorem reaches_closeLedger {closed : Bool}
    (hclose : closeLedger node process value proof m = some (closed, m')) : Reaches node m m' := by
  rcases closeLedger_cases hclose with ⟨-, rfl⟩ | ⟨-, -, hcloses⟩
  · exact .refl m'
  · exact .close (.refl m) hcloses

theorem reaches_closeLedgers {values : List ClosingValue} {valid valid' failed : Bool}
    (hclose : closeLedgers node process proof values valid m = some (valid', failed, m')) :
    Reaches node m m' := by
  induction values generalizing valid m with
  | nil =>
      cases hclose
      exact .refl m'
  | cons value rest ih =>
      unfold closeLedgers at hclose
      split at hclose
      · obtain ⟨⟨closed, m₁⟩, hfirst, hclose⟩ := Option.bind_eq_some_iff.mp hclose
        have hreaches := reaches_closeLedger hfirst
        cases closed with
        | false =>
            cases hclose
            exact hreaches
        | true => exact hreaches.trans (ih hclose)
      · exact ih hclose

theorem reaches_askForMore (ledgers : Ledgers) (peerId now : ℤ) (m : SyncManager) :
    Reaches node m (askForMore node ledgers peerId now m).1 := by
  unfold askForMore
  dsimp only
  apply Reaches.same <;> split_ifs <;> rfl

/-- **`OnReceiveLedgers`** closes ledgers one after the other. -/
theorem reaches_onReceiveLedgers {ledgers : Ledgers} {peerId now : ℤ}
    {sent : List (ℤ × GetLedgers)}
    (hreceive : onReceiveLedgers node process ledgers peerId now m = some (m', sent)) :
    Reaches node m m' := by
  unfold onReceiveLedgers at hreceive
  split at hreceive
  · cases hreceive
    exact .refl _
  split at hreceive
  · dsimp only at hreceive
    split at hreceive
    · cases hreceive
      exact .same rfl rfl
    · obtain ⟨⟨valid, failed, m₁⟩, hclose, hreceive⟩ := Option.bind_eq_some_iff.mp hreceive
      have hreaches : Reaches node m m₁ := (reaches_closeLedgers hclose).congr_left rfl rfl
      dsimp only at hreceive
      cases failed <;> cases valid <;> cases hreceive
      · exact hreaches
      · exact hreaches.trans (reaches_askForMore ..)
      · exact hreaches.congr_right rfl rfl
      · exact hreaches.trans ((reaches_askForMore ..).congr_left rfl rfl)
  · cases hreceive
    exact .refl _

theorem reaches_requests (gl : GetLedgers) (time : ℤ) (pids : List ℤ) (m : SyncManager) :
    Reaches node m (pids.foldl (fun m pid => m.requestConsensusValues pid gl time) m) := by
  induction pids generalizing m with
  | nil => exact .refl m
  | cons pid pids ih => exact (ih _).congr_left rfl rfl

theorem reaches_onTimer (currentTime : ℤ) (active : List ℤ) (m : SyncManager) :
    Reaches node m (m.onTimer node currentTime active).1 := by
  unfold onTimer
  split
  · exact .refl m
  · exact (reaches_requests ..).congr_left rfl rfl

theorem reaches_onConsent {now : ℤ}
    (hconsent : m.onConsent node process value proof now = some m') : Reaches node m m' := by
  unfold onConsent at hconsent
  split at hconsent
  · cases hconsent
    exact .refl _
  split at hconsent
  · obtain ⟨⟨closed, m₁⟩, hclose, rfl⟩ := Option.map_eq_some_iff.mp hconsent
    exact (reaches_closeLedger hclose).congr_left rfl rfl
  · cases hconsent
    exact .refl _

/-- **What a step does to the chain.** The node is started anew, or closes some ledgers. -/
theorem run_cases {event : Event} (hrun : event.run node m = some m') :
    (event = .restart ∧ startNode node m.storage m.values = some m') ∨ Reaches node m m' := by
  cases event with
  | consent value proof now process => exact .inr (reaches_onConsent hrun)
  | request message =>
      cases hrun
      exact .inr (.refl _)
  | receive ledgers peerId now process =>
      obtain ⟨⟨m₁, sent⟩, hreceive, rfl⟩ := Option.map_eq_some_iff.mp hrun
      exact .inr (reaches_onReceiveLedgers hreceive)
  | timer currentTime active =>
      cases hrun
      exact .inr (reaches_onTimer ..)
  | restart => exact .inl ⟨rfl, hrun⟩

end SyncManager

end CegChain
