import CegChain.Consensus.Instance

/-!
# The replica

The class `Pbft` of `consensus/bft.cpp` as a state and its handlers.  What a replica
hands to `notify_` (messages to send, values that are committed, view changes) is
appended to `outputs` and stays there, so that the state records the whole run.

The clock is read through the argument `now`.  Persisting values, log texts, the status
report and the counters of abnormal leaders are left out.

Two callbacks reach back into the replica, and both are posted to another thread: a sent
message is received by its own sender, and a closed ledger calls `UpdateValidators`.
They are events of their own (`Event`).
-/

namespace CegChain

/-- What a replica hands to `notify_`. -/
inductive Output where
  | send (env : PbftEnv)
  | valueCommited (sequence : ℤ) (value : Bytes) (proof : PbftProof)
  | viewChanged (lastConsvalue : Bytes)
  | resetCloseTimer

/-- The key a replica signs with. -/
structure PrivateKey where
  /-- `GetEncPublicKey`. -/
  encPublicKey : Bytes
  /-- `Sign(pbft.SerializeAsString())`. -/
  sign : Pbft → Bytes

/-- The state of `Pbft` (and of `Consensus`, which it extends). -/
structure PbftState where
  isValidator : Bool := false
  replicaId : ℤ := -1
  validators : ValidatorMap := []
  instances : List (PbftInstanceIndex × PbftInstance) := []
  viewNumber : ℤ := 0
  lastExeSeq : ℤ := 1
  viewActive : Bool := true
  vcInstances : List (ℤ × PbftVcInstance) := []
  outPbftInstances : List (PbftInstanceIndex × PbftInstance) := []
  /-- `new_view_repond_timer_`. -/
  newViewRepondTimer : ℕ := 0
  /-- The timers that are running: their id, the view they wait for and the prepared set. -/
  timers : List (ℕ × ℤ × PbftPreparedSet) := []
  /-- The id of the next timer. -/
  nextTimer : ℕ := 1
  outputs : List Output := []

/-- `ckp_interval_`. -/
def ckpInterval : ℤ := 10

namespace PbftState

/-- Hand something to `notify_`. -/
def output (o : Output) (st : PbftState) : PbftState :=
  { st with outputs := st.outputs ++ [o] }

/-- `Consensus::SendMessage`. -/
def sendMessage (env : PbftEnv) (st : PbftState) : PbftState :=
  if st.isValidator then st.output (.send env) else st

/-- `instances_[index]`. -/
def getInstance (index : PbftInstanceIndex) (st : PbftState) : PbftInstance :=
  (st.instances.lookup index).getD {}

/-- Write through the reference to an instance. -/
def setInstance (index : PbftInstanceIndex) (pinstance : PbftInstance) (st : PbftState) :
    PbftState :=
  { st with instances := OrderedMap.insert index pinstance st.instances }

/-- Erase the instances that do not satisfy `keep`. -/
def keepInstances (keep : PbftInstanceIndex → PbftInstance → Bool) (st : PbftState) : PbftState :=
  { st with instances := st.instances.filter fun entry => keep entry.1 entry.2 }

/-- `GetQuorumSize()`. -/
def quorumSize (st : PbftState) : ℕ := getQuorumSize st.validators.length

/-- `view_number_ % validators_.size() == replica_id_`. -/
def isPrimary (viewNumber : ℤ) (st : PbftState) : Bool :=
  primaryOf st.validators.length viewNumber == st.replicaId

/-- `InWaterMark`. -/
def inWaterMark (seq : ℤ) (st : PbftState) : Bool :=
  decide (st.lastExeSeq ≤ seq) && decide (seq ≤ st.lastExeSeq + ckpInterval)

end PbftState

section Replica

variable (crypto : Crypto) (key : PrivateKey)

/-! ## Building messages -/

/-- Sign a message. -/
def signEnv (pbft : Pbft) : PbftEnv :=
  ⟨pbft, ⟨key.encPublicKey, key.sign pbft⟩⟩

/-- A message with its round and type, without sub-messages. -/
def newPbft (roundNumber : ℤ) (type : PbftMessageType) : Pbft :=
  { (default : Pbft) with roundNumber := roundNumber, type := type, chainId := crypto.selfChainId }

/-- `NewPrePrepare`. -/
def newPrePrepare (value : Bytes) (sequence : ℤ) (st : PbftState) : PbftEnv :=
  signEnv key { newPbft crypto 1 .preprepare with
    prePrepare? := some {
      viewNumber := st.viewNumber
      sequence := sequence
      replicaId := st.replicaId
      value := value
      valueDigest := crypto.hash value } }

/-- `NewPrepare`. -/
def newPrepare (prePrepare : PbftPrePrepare) (roundNumber : ℤ) (st : PbftState) : PbftEnv :=
  signEnv key { newPbft crypto roundNumber .prepare with
    prepare? := some {
      viewNumber := prePrepare.viewNumber
      sequence := prePrepare.sequence
      replicaId := st.replicaId
      valueDigest := prePrepare.valueDigest } }

/-- `NewCommit`. -/
def newCommit (prepare : PbftPrepare) (roundNumber : ℤ) (st : PbftState) : PbftEnv :=
  signEnv key { newPbft crypto roundNumber .commit with
    commit? := some {
      viewNumber := prepare.viewNumber
      sequence := prepare.sequence
      replicaId := st.replicaId
      valueDigest := prepare.valueDigest } }

/-- The prepared set of the last instance that is PREPARED and not executed. -/
def lastPreparedSet (st : PbftState) : Option PbftPreparedSet :=
  (st.instances.reverse.find? fun entry =>
    decide (st.lastExeSeq < entry.1.sequence) && entry.2.phase == .prepared).map fun entry =>
      ⟨some (entry.2.prePrepareBuf.headD default), entry.2.prepareBuf⟩

/-- `NewViewChangeRawValue`. -/
def newViewChangeRawValue (viewNumber : ℤ) (preparedSet : PbftPreparedSet) (st : PbftState) :
    PbftEnv :=
  let preparedSet? :=
    if preparedSet.prePrepare?.isSome then some preparedSet else lastPreparedSet st
  let inner : Pbft := { newPbft crypto 0 .viewchange with
    viewChange? := some {
      viewNumber := viewNumber
      sequence := st.lastExeSeq
      prepredValueDigest :=
        (preparedSet?.map fun set => set.prePrepare.pbft.prePrepare.valueDigest).getD []
      replicaId := st.replicaId } }
  signEnv key { newPbft crypto 0 .viewchangWithRawvalue with
    viewChangeWithRawvalue? := some ⟨some (signEnv key inner), preparedSet?⟩ }

/-- `NewNewView`. -/
def newNewView (vcInstance : PbftVcInstance) (st : PbftState) : PbftEnv :=
  signEnv key { newPbft crypto 0 .newview with
    newView? := some {
      viewNumber := vcInstance.viewNumber
      sequence := vcInstance.seq
      replicaId := st.replicaId
      viewChanges := vcInstance.msgBuf.map fun env => env.pbft.viewChangeWithRawvalue.viewChangeEnv
      prePrepare? := vcInstance.prePreparedEnvSet.prePrepare? } }

/-- `IncPeerMessageRound`. -/
def incPeerMessageRound (message : PbftEnv) (roundNumber : ℤ) : PbftEnv :=
  signEnv key
    { message.pbft with roundNumber := roundNumber, chainId := crypto.selfChainId }

/-! ## Agreement on a value -/

/-- `OnPrePrepare`. -/
def onPrePrepare (pbft : Pbft) (index : PbftInstanceIndex) (checkValueRet : CheckValueResult)
    (st : PbftState) : PbftState × Bool :=
  if st.isPrimary st.viewNumber && st.validators.length != 1 then (st, true)
  else
    let prePrepare := pbft.prePrepare
    let pinstance := st.getInstance index
    if prePrepare.valueDigest ≠ crypto.hash prePrepare.value then (st, false)
    else if checkValueRet = .invalid then (st, false)
    else if pinstance.phase ≠ .none then
      if pinstance.prePrepare.value ≠ prePrepare.value then (st, false)
      else if checkValueRet ≠ .valid then (st, true)
      else (st.sendMessage (newPrepare crypto key prePrepare pbft.roundNumber st), true)
    else
      let st := st.setInstance index { pinstance with
        phase := .preprepared
        phaseItem := 0
        prePrepare := prePrepare
        checkValueResult := checkValueRet }
      if checkValueRet ≠ .valid then (st, true)
      else (st.sendMessage (newPrepare crypto key prePrepare 1 st), true)

/-- `OnPrepare`. -/
def onPrepare (pbft : Pbft) (index : PbftInstanceIndex) (now : ℤ) (st : PbftState) :
    PbftState × Bool :=
  let prepare := pbft.prepare
  let pinstance := st.getInstance index
  if pinstance.prePrepare.valueDigest ≠ prepare.valueDigest then (st, false)
  else
    let pinstance := { pinstance with
      prepares := OrderedMap.insertNew prepare.replicaId prepare pinstance.prepares }
    if st.quorumSize ≤ pinstance.prepares.length then
      let pinstance :=
        if pinstance.phase.toNat < PbftInstancePhase.prepared.toNat then
          { pinstance with phase := .prepared, phaseItem := 0 }
        else pinstance
      if pinstance.checkValueResult = .valid then
        let st := st.setInstance index { pinstance with lastCommitSendTime := now }
        (st.sendMessage (newCommit crypto key prepare pbft.roundNumber st), true)
      else (st.setInstance index pinstance, true)
    else (st.setInstance index pinstance, true)

/-- The commit envelopes that `TryExecuteValue` puts into the proof: the first one of
every public key. -/
def proofCommits : List PbftEnv → List Bytes → List PbftEnv
  | [], _ => []
  | env :: vec, commitNode =>
      if env.signature.publicKey ∈ commitNode then proofCommits vec commitNode
      else env :: proofCommits vec (env.signature.publicKey :: commitNode)

/-- The loop of `TryExecuteValue` over the instances.  Erasing an instance does not
change what the rest of the loop sees: its sequence has been executed. -/
def tryExecuteLoop : List (PbftInstanceIndex × PbftInstance) → PbftState → PbftState
  | [], st => st
  | (index, pinstance) :: rest, st =>
      if index.sequence ≤ st.lastExeSeq then tryExecuteLoop rest st
      else if index.sequence = st.lastExeSeq + 1 ∧
          PbftInstancePhase.commited.toNat ≤ pinstance.phase.toNat then
        let st := { st with lastExeSeq := st.lastExeSeq + 1 }
        let proof : PbftProof := ⟨proofCommits pinstance.commitBuf []⟩
        let st := st.output (.valueCommited index.sequence pinstance.prePrepare.value proof)
        tryExecuteLoop rest
          (st.keepInstances fun other _ => index.sequence - ckpInterval / 2 < other.sequence)
      else st

/-- `TryExecuteValue`. -/
def tryExecuteValue (st : PbftState) : PbftState :=
  tryExecuteLoop st.instances st

/-- `OnCommit`. -/
def onCommit (pbft : Pbft) (index : PbftInstanceIndex) (now : ℤ) (st : PbftState) :
    PbftState × Bool :=
  let commit := pbft.commit
  let pinstance := st.getInstance index
  if pinstance.prePrepare.valueDigest ≠ commit.valueDigest then (st, false)
  else if (pinstance.commits.lookup commit.replicaId).isSome then (st, true)
  else
    let pinstance := { pinstance with
      commits := OrderedMap.insert commit.replicaId commit pinstance.commits }
    if st.quorumSize + 1 ≤ pinstance.commits.length ∧
        pinstance.phase.toNat < PbftInstancePhase.commited.toNat then
      let st := st.setInstance index
        { pinstance with phase := .commited, phaseItem := 0, endTime := now }
      (tryExecuteValue st, true)
    else (st.setInstance index pinstance, true)

/-- The handler of a message of an instance. -/
def onPhaseMessage (pbft : Pbft) (index : PbftInstanceIndex) (checkValue : CheckValueResult)
    (now : ℤ) (st : PbftState) : PbftState × Bool :=
  match pbft.type with
  | .preprepare => onPrePrepare crypto key pbft index checkValue st
  | .prepare => onPrepare crypto key pbft index now st
  | .commit => onCommit pbft index now st
  | _ => (st, false)

/-- The loop of `PbftInstance::Go`: run through the buffer of the current phase.  Every
round takes a message of a buffer for good, so as many rounds as there are buffered
messages are enough. -/
def goLoop (index : PbftInstanceIndex) (checkValue : CheckValueResult) (now : ℤ) :
    ℕ → Bool → PbftState → PbftState × Bool
  | 0, doret, st => (st, doret)
  | fuel + 1, doret, st =>
      let pinstance := st.getInstance index
      match pinstance.phaseBuf[pinstance.phaseItem]? with
      | none => (st, doret)
      | some env =>
          let st := st.setInstance index { pinstance with phaseItem := pinstance.phaseItem + 1 }
          let (st, doret) := onPhaseMessage crypto key env.pbft index checkValue now st
          goLoop index checkValue now fuel doret st

/-- `(int32_t)type` of the messages of an instance. -/
def PbftMessageType.phaseNat : PbftMessageType → ℕ
  | .preprepare => 0
  | .prepare => 1
  | _ => 2

/-- `PbftInstance::Go`. -/
def go (env : PbftEnv) (index : PbftInstanceIndex) (checkValue : CheckValueResult) (now : ℤ)
    (st : PbftState) : PbftState × Bool :=
  let pinstance := st.getInstance index
  if env.pbft.type.phaseNat < pinstance.phase.toNat then
    ((onPhaseMessage crypto key env.pbft index checkValue now st).1, false)
  else
    goLoop crypto key index checkValue now
      (pinstance.prePrepareBuf.length + pinstance.prepareBuf.length + pinstance.commitBuf.length)
      false st

/-! ## Messages from other views -/

/-- `TryDoTraceOut`. -/
def tryDoTraceOut (index : PbftInstanceIndex) (pinstance : PbftInstance) (st : PbftState) :
    PbftState :=
  if st.quorumSize + 1 ≤ pinstance.commits.length ∧
      ckpInterval ≤ index.sequence - st.lastExeSeq then
    let st := { st with
      viewActive := true
      viewNumber := index.viewNumber
      lastExeSeq := index.sequence
      vcInstances := st.vcInstances.filter fun entry => entry.2.viewChangeMsg?.isNone
      outPbftInstances := [] }
    (st.keepInstances fun other _ => st.lastExeSeq < other.sequence).output .resetCloseTimer
  else st

/-- `TraceOutPbftCommit`. -/
def traceOutPbftCommit (env : PbftEnv) (now : ℤ) (st : PbftState) : PbftState :=
  let commit := env.pbft.commit
  let index : PbftInstanceIndex := ⟨commit.viewNumber, commit.sequence⟩
  if (st.instances.lookup index).isSome then (onCommit env.pbft index now st).1
  else
    let instanceExist := (st.outPbftInstances.lookup index).getD
      { PbftInstance.new now with prePrepare := { valueDigest := commit.valueDigest } }
    if instanceExist.prePrepare.valueDigest ≠ commit.valueDigest then st
    else
      let instanceExist := { instanceExist with
        commits := OrderedMap.insertNew commit.replicaId commit instanceExist.commits }
      tryDoTraceOut index instanceExist { st with
        outPbftInstances := OrderedMap.insert index instanceExist st.outPbftInstances }

/-- The view and the sequence of a message of an instance. -/
def Pbft.index? (pbft : Pbft) : Option PbftInstanceIndex :=
  match pbft.type with
  | .preprepare => some ⟨pbft.prePrepare.viewNumber, pbft.prePrepare.sequence⟩
  | .prepare => some ⟨pbft.prepare.viewNumber, pbft.prepare.sequence⟩
  | .commit => some ⟨pbft.commit.viewNumber, pbft.commit.sequence⟩
  | _ => none

/-- `CreateInstanceIfNotExist`: the state and whether there is an instance to go on with. -/
def createInstanceIfNotExist (env : PbftEnv) (index : PbftInstanceIndex) (now : ℤ)
    (st : PbftState) : PbftState × Bool :=
  if ¬ st.inWaterMark index.sequence ∨ st.viewNumber ≠ index.viewNumber then
    if st.lastExeSeq < index.sequence ∧ env.pbft.type = .commit then
      (traceOutPbftCommit env now st, false)
    else (st, false)
  else if ¬ st.viewActive then (st, false)
  else if index.sequence ≤ st.lastExeSeq then (st, false)
  else
    let st :=
      if (st.instances.lookup index).isSome then st
      else
        (st.setInstance index (.new now)).keepInstances fun other _ =>
          !(other.viewNumber < index.viewNumber && other.sequence == index.sequence)
    (st.setInstance index ((st.getInstance index).pushBack env), true)

/-! ## View changes -/

/-- `ClearViewChanges`, and the same loop in `UpdateValidators`. -/
def clearViewChanges (st : PbftState) : PbftState :=
  { st with vcInstances := st.vcInstances.filter fun entry =>
      !(entry.2.endTime == 0 || decide (entry.2.viewNumber < st.viewNumber - 5)) }

/-- Entering a view keeps the instances that are COMMITED, or PREPARED and not executed. -/
def keepPrepared (st : PbftState) : PbftState :=
  st.keepInstances fun index pinstance => pinstance.phase == .commited ||
    pinstance.phase == .prepared && decide (st.lastExeSeq < index.sequence)

/-- `ProcessQuorumViewChange` of the view-change instance of the given view. -/
def processQuorumViewChange (viewNumber now : ℤ) (st : PbftState) : PbftState × Bool :=
  let vcInstance := (st.vcInstances.lookup viewNumber).getD {}
  if ¬ st.isPrimary vcInstance.viewNumber then
    ({ st with
      timers := st.timers ++ [(st.nextTimer, vcInstance.viewNumber, vcInstance.prePreparedEnvSet)]
      newViewRepondTimer := st.nextTimer
      nextTimer := st.nextTimer + 1 }, true)
  else
    let msg := newNewView crypto key vcInstance st
    let vcInstance := { vcInstance with lastNewviewTime := now, newview := msg }
    let st := st.sendMessage msg
    let lastConsValue := vcInstance.prePreparedEnvSet.prePrepare.pbft.prePrepare.value
    let st := keepPrepared st
    let vcInstance := { vcInstance with endTime := now }
    let st := { st with
      viewNumber := vcInstance.viewNumber
      viewActive := true
      vcInstances := OrderedMap.insert viewNumber vcInstance st.vcInstances }
    (((clearViewChanges st).output .resetCloseTimer).output (.viewChanged lastConsValue), true)

/-- What `OnViewChangeWithRawValue` writes into the view-change instance: the replica's own
message to repeat, the view change if the sender is new, and the prepared set if its sequence
is higher. -/
def PbftVcInstance.receive (pbftEnv : PbftEnv) (replicaId lastExeSeq : ℤ)
    (vcInstance : PbftVcInstance) : PbftVcInstance :=
  let viewChangeRaw := pbftEnv.pbft.viewChangeWithRawvalue
  let viewChange := viewChangeRaw.viewChangeEnv.pbft.viewChange
  let vcInstance :=
    if viewChange.replicaId = replicaId ∧ vcInstance.viewChangeMsg?.isNone then
      { vcInstance with viewChangeMsg? := some pbftEnv }
    else vcInstance
  let vcInstance :=
    if (vcInstance.viewchanges.lookup viewChange.replicaId).isNone then
      { vcInstance with
        msgBuf := vcInstance.msgBuf ++ [pbftEnv]
        viewchanges := OrderedMap.insert viewChange.replicaId viewChange vcInstance.viewchanges }
    else vcInstance
  match viewChangeRaw.preparedSet? with
  | none => vcInstance
  | some preparedSet =>
      let msgSeq := preparedSet.prePrepare.pbft.prePrepare.sequence
      let lastSeq := vcInstance.prePreparedEnvSet.prePrepare.pbft.prePrepare.sequence
      if lastSeq < msgSeq ∧ lastExeSeq < msgSeq then
        { vcInstance with prePreparedEnvSet := preparedSet }
      else vcInstance

/-- `OnViewChangeWithRawValue`. -/
def onViewChangeWithRawValue (pbftEnv : PbftEnv) (now : ℤ) (st : PbftState) : PbftState × Bool :=
  let viewChange := pbftEnv.pbft.viewChangeWithRawvalue.viewChangeEnv.pbft.viewChange
  if viewChange.viewNumber = st.viewNumber then (st, true)
  else if viewChange.viewNumber < st.viewNumber then (st, false)
  else
    let vcInstance := ((st.vcInstances.lookup viewChange.viewNumber).getD
      { PbftVcInstance.new viewChange.viewNumber now with seq := viewChange.sequence }).receive
        pbftEnv st.replicaId st.lastExeSeq
    let st := { st with
      vcInstances := OrderedMap.insert viewChange.viewNumber vcInstance st.vcInstances }
    if st.quorumSize < vcInstance.viewchanges.length ∧ vcInstance.endTime = 0 then
      processQuorumViewChange crypto key viewChange.viewNumber now st
    else (st, true)

/-- The loop of `OnNewView` over the view-change envelopes.  It calls `CheckMessageItem`
on the NEW-VIEW envelope itself. -/
def checkViewChanges (pbftEnv : PbftEnv) (validators : ValidatorMap) (viewNumber : ℤ) :
    List PbftEnv → Bool
  | [] => true
  | viewChangeEnv :: rest =>
      checkMessageItem crypto validators pbftEnv &&
        viewChangeEnv.pbft.viewChange.viewNumber == viewNumber &&
        checkViewChanges pbftEnv validators viewNumber rest

/-- `OnNewView`. -/
def onNewView (pbftEnv : PbftEnv) (now : ℤ) (st : PbftState) : PbftState × Bool :=
  let newView := pbftEnv.pbft.newView
  if newView.viewNumber = st.viewNumber then (st, true)
  else if newView.viewNumber < st.viewNumber then (st, false)
  else
    let st := { st with timers := st.timers.filter fun timer => timer.1 ≠ st.newViewRepondTimer }
    if st.isPrimary newView.viewNumber then (st, true)
    else
      let replicaSet := (newView.viewChanges.map fun env => env.pbft.viewChange.replicaId).toFinset
      if ¬ checkViewChanges crypto pbftEnv st.validators newView.viewNumber
          newView.viewChanges then (st, false)
      else if replicaSet.card ≤ st.quorumSize then (st, false)
      else
        let st := keepPrepared st
        let st := { st with viewNumber := newView.viewNumber, viewActive := true }
        let st := { st with
          vcInstances := st.vcInstances.map fun entry =>
            if entry.1 = st.viewNumber then (entry.1, { entry.2 with endTime := now }) else entry }
        ((clearViewChanges st).output (.viewChanged []), true)

/-- `OnTxTimeout`. -/
def onTxTimeout (st : PbftState) : PbftState :=
  if st.isValidator then
    let st := { st with viewActive := false }
    st.sendMessage (newViewChangeRawValue crypto key (st.viewNumber + 1) default st)
  else st

/-- The callback of the timer that waits for a NEW-VIEW. -/
def onNewViewRepondTimer (timer : ℕ) (st : PbftState) : PbftState :=
  match st.timers.lookup timer with
  | none => st
  | some (viewNumber, preparedSet) =>
      let st := { st with timers := st.timers.filter fun other => other.1 ≠ timer }
      if st.viewActive then st
      else st.sendMessage (newViewChangeRawValue crypto key (viewNumber + 1) preparedSet st)

/-! ## Entry points -/

/-- `Request`. -/
def request (value : Bytes) (now : ℤ) (st : PbftState) : PbftState × Bool :=
  if ¬ st.isPrimary st.viewNumber then (st, false)
  else if ¬ st.viewActive then (st, false)
  else
    let st := st.keepInstances fun index pinstance =>
      !(decide (st.lastExeSeq < index.sequence) &&
        pinstance.phase.toNat < PbftInstancePhase.commited.toNat)
    let sequence := st.lastExeSeq + 1
    let env := newPrePrepare crypto key value sequence st
    let st := st.setInstance ⟨st.viewNumber, sequence⟩ { PbftInstance.new now with
      prePrepareMsg? := some env
      phase := .preprepared
      prePrepare := env.pbft.prePrepare
      prePrepareBuf := [env] }
    (st.sendMessage env, true)

/-- `OnRecv`. -/
def onRecv (env : PbftEnv) (checkValue : CheckValueResult) (now : ℤ) (st : PbftState) :
    PbftState × Bool :=
  if ¬ checkMessageItem crypto st.validators env then (st, false)
  else
    match env.pbft.index? with
    | some index =>
        -- only a PRE-PREPARE has its value checked
        let ret := if env.pbft.type = .preprepare then checkValue else .valid
        let (st, found) := createInstanceIfNotExist env index now st
        if found then go crypto key env index ret now st else (st, false)
    | none =>
        match env.pbft.type with
        | .viewchangWithRawvalue => onViewChangeWithRawValue crypto key env now st
        | .newview => onNewView crypto env now st
        | _ => (st, false)

/-- The resending of the primary's PRE-PREPARE in the first loop of `OnTimer`. -/
def sendPrepareAgain (currentTime : ℤ) (index : PbftInstanceIndex) (pinstance : PbftInstance)
    (st : PbftState) : PbftState :=
  match pinstance.prePrepareMsg? with
  | some prePrepareMsg =>
      if pinstance.needSendAgain currentTime && st.viewActive then
        let pinstance := { pinstance with
          prePrepareRound := pinstance.prePrepareRound + 1
          lastProposeTime := currentTime }
        (st.setInstance index pinstance).sendMessage
          (incPeerMessageRound crypto key prePrepareMsg pinstance.prePrepareRound)
      else st
  | none => st

/-- The body of the first loop of `OnTimer`. -/
def onTimerInstance (currentTime : ℤ) (st : PbftState) (index : PbftInstanceIndex) : PbftState :=
  match st.instances.lookup index with
  | none => st
  | some pinstance =>
      if pinstance.isExpire currentTime && !pinstance.haveSendViewchange then
        let pinstance := { pinstance with haveSendViewchange := true }
        sendPrepareAgain crypto key currentTime index pinstance
          ((onTxTimeout crypto key st).setInstance index pinstance)
      else sendPrepareAgain crypto key currentTime index pinstance st

/-- The repetition of the COMMIT of the last prepared instance in `OnTimer`. -/
def onTimerCommit (currentTime : ℤ) (st : PbftState) : PbftState :=
  match (st.instances.filter fun entry => 2 ≤ entry.2.phase.toNat).getLast? with
  | none => st
  | some (index, pinstance) =>
      if pinstance.checkValueResult == .valid && pinstance.needSendCommitAgain currentTime then
        let commitMsg := newCommit crypto key ((pinstance.prepares.map Prod.snd).headD default)
          (pinstance.commitRound + 1) st
        (st.sendMessage commitMsg).setInstance index { pinstance with
          commitRound := pinstance.commitRound + 1
          lastCommitSendTime := currentTime }
      else st

/-- The body of the second loop of `OnTimer`. -/
def onTimerViewChange (currentTime : ℤ) (st : PbftState) (viewNumber : ℤ) : PbftState :=
  match st.vcInstances.lookup viewNumber with
  | none => st
  | some vcInstance =>
      match vcInstance.viewChangeMsg? with
      | none => st
      | some viewChangeMsg =>
          if vcInstance.needSendAgain currentTime then
            let vcInstance := { vcInstance with
              viewChangeRound := vcInstance.viewChangeRound + 1
              lastProposeTime := currentTime }
            let st := { st with
              vcInstances := OrderedMap.insert viewNumber vcInstance st.vcInstances }
            st.sendMessage
              (incPeerMessageRound crypto key viewChangeMsg vcInstance.viewChangeRound)
          else st

/-- The repetition of the last NEW-VIEW in `OnTimer`. -/
def onTimerNewView (currentTime : ℤ) (st : PbftState) : PbftState :=
  match (st.vcInstances.filter fun entry =>
      entry.2.needSendNewViewAgain currentTime && st.isPrimary entry.2.viewNumber).getLast? with
  | none => st
  | some (viewNumber, vcInstance) =>
      let vcInstance := { vcInstance with
        newViewRound := vcInstance.newViewRound + 1
        lastNewviewTime := currentTime }
      let st := { st with
        vcInstances := OrderedMap.insert viewNumber vcInstance st.vcInstances }
      st.sendMessage (incPeerMessageRound crypto key vcInstance.newview vcInstance.newViewRound)

/-- `OnTimer`. -/
def onTimer (currentTime : ℤ) (st : PbftState) : PbftState :=
  let st := (st.instances.map Prod.fst).foldl (onTimerInstance crypto key currentTime) st
  let st := onTimerCommit crypto key currentTime st
  let st := (st.vcInstances.map Prod.fst).foldl (onTimerViewChange crypto key currentTime) st
  onTimerNewView crypto key currentTime st

/-- `ClearNotCommitedInstance`. -/
def clearNotCommitedInstance (st : PbftState) : PbftState :=
  st.keepInstances fun _ pinstance => pinstance.phase == .commited

/-- `Consensus::UpdateValidators`. -/
def setValidators (validators : List Bytes) (st : PbftState) : PbftState :=
  let nodeAddress := crypto.encAddress key.encPublicKey
  { st with
    validators := .ofSet validators
    isValidator := nodeAddress ∈ validators
    replicaId := getValidatorIndex nodeAddress (.ofSet validators) }

/-- The comparison of the validators in `UpdateValidators`. -/
def validatorChanged (validators : List Bytes) (st : PbftState) : Bool :=
  validators.length != st.validators.length ||
    validators.zipIdx.any fun entry => st.validators.lookup entry.1 != some (entry.2 : ℤ)

/-- `+ 1` of an `int64_t`, which wraps around. -/
def int64Succ (n : ℤ) : ℤ :=
  if n = 2 ^ 63 - 1 then -2 ^ 63 else n + 1

/-- The view and the sequence that `UpdateValidators` takes from a proof; a negative
number stands for none. -/
def proofTarget (proof : PbftProof) (st : PbftState) : ℤ × ℤ :=
  match proof.commits with
  | [] => (-1, -1)
  | env :: _ =>
      let commit := env.pbft.commit
      (if st.viewNumber ≤ commit.viewNumber then int64Succ commit.viewNumber else -1,
        if st.lastExeSeq < commit.sequence then commit.sequence else -1)

/-- The second half of `UpdateValidators`: enter the new view and sequence. -/
def enterTarget (newViewNumber newSeq : ℤ) (st : PbftState) : PbftState :=
  let st := if 0 < newSeq then { st with lastExeSeq := newSeq } else st
  if 0 < newViewNumber ∨ 0 < newSeq then
    let st := clearNotCommitedInstance st
    let st := { st with
      viewNumber := if 0 < newViewNumber then newViewNumber else st.viewNumber
      viewActive := true }
    (clearViewChanges st).output .resetCloseTimer
  else st

/-- `UpdateValidators`. -/
def updateValidators (validators : List Bytes) (proof : Bytes) (st : PbftState) :
    PbftState × Bool :=
  let target? : Option (ℤ × ℤ) :=
    if proof = [] then some (0, -1)
    else (crypto.parseProof proof).map fun pbftProof => proofTarget pbftProof st
  match target? with
  | none => (st, false)
  | some (newViewNumber, newSeq) =>
      let st :=
        if validatorChanged validators st then
          (clearNotCommitedInstance (setValidators crypto key validators st)).output
            .resetCloseTimer
        else st
      (enterTarget newViewNumber newSeq st, true)

/-! ## Runs -/

/-- What can happen to a replica. -/
inductive Event where
  /-- A message arrives; `checkValue` is what `CheckValue` says about its value. -/
  | recv (env : PbftEnv) (checkValue : CheckValueResult) (now : ℤ)
  | request (value : Bytes) (now : ℤ)
  | timer (currentTime : ℤ)
  | txTimeout
  | newViewRepondTimer (timer : ℕ)
  | updateValidators (validators : List Bytes) (proof : Bytes)

/-- One event. -/
def step (st : PbftState) : Event → PbftState
  | .recv env checkValue now => (onRecv crypto key env checkValue now st).1
  | .request value now => (request crypto key value now st).1
  | .timer currentTime => onTimer crypto key currentTime st
  | .txTimeout => onTxTimeout crypto key st
  | .newViewRepondTimer timer => onNewViewRepondTimer crypto key timer st
  | .updateValidators validators proof => (updateValidators crypto key validators proof st).1

/-- The replica of a node that has just been told the validators. -/
def initialState (validators : List Bytes) : PbftState :=
  setValidators crypto key validators {}

/-- A run. -/
def run (validators : List Bytes) (events : List Event) : PbftState :=
  events.foldl (step crypto key) (initialState crypto key validators)

end Replica

end CegChain
