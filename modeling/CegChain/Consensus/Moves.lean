import CegChain.Consensus.Replica
import Mathlib.Logic.Relation

/-!
# What a replica can do

Every event of a replica is a sequence of moves.  A move changes one thing: it puts a
message into a buffer, counts a COMMIT, sends a message, executes a value.  `Move` lists
the moves together with what the code has checked before it makes them, and
`step_moves` (in `Handlers`) says that there are no others.  An invariant of the replica
is then proved by looking at the moves, not at the handlers.

What the event itself brings in is the `Trigger` of the moves: the message that has
arrived, with the instance it is for; the COMMIT that is counted without having been put
into a buffer (`TraceOutPbftCommit` hands it to `OnCommit` directly); the PRE-PREPARE of
a value that is requested.
-/

namespace CegChain

open Relation

/-- The messages that an instance has buffered. -/
def PbftInstance.buffered (pinstance : PbftInstance) : List PbftEnv :=
  pinstance.prePrepareBuf ++ pinstance.prepareBuf ++ pinstance.commitBuf

/-- The buffered message is handled in the phase of the instance: the phase waits for it, or
it comes late. -/
def PbftInstance.Due (pinstance : PbftInstance) (env : PbftEnv) : Prop :=
  env ∈ pinstance.phaseBuf ∨
    env ∈ pinstance.buffered ∧ env.pbft.type.phaseNat < pinstance.phase.toNat

/-- Two instances differ only in their clocks, counters and the position in the buffer. -/
structure PbftInstance.SameAgreement (pinstance pinstance' : PbftInstance) : Prop where
  phase_eq : pinstance'.phase = pinstance.phase
  prePrepare_eq : pinstance'.prePrepare = pinstance.prePrepare
  prepares_eq : pinstance'.prepares = pinstance.prepares
  commits_eq : pinstance'.commits = pinstance.commits
  prePrepareBuf_eq : pinstance'.prePrepareBuf = pinstance.prePrepareBuf
  prepareBuf_eq : pinstance'.prepareBuf = pinstance.prepareBuf
  commitBuf_eq : pinstance'.commitBuf = pinstance.commitBuf
  prePrepareMsg_eq : pinstance'.prePrepareMsg? = pinstance.prePrepareMsg?

/-- Neither the message nor the view change in it is a COMMIT. -/
def PbftEnv.NoCommit (env : PbftEnv) : Prop :=
  env.pbft.type ≠ .commit ∧
    env.pbft.viewChangeWithRawvalue.viewChangeEnv.pbft.type ≠ .commit

/-- The instance and the digest that a PRE-PREPARE, a PREPARE or a COMMIT is for. -/
def Pbft.vote? (pbft : Pbft) : Option (PbftInstanceIndex × Bytes) :=
  match pbft.type with
  | .preprepare => pbft.prePrepare?.map fun m => (⟨m.viewNumber, m.sequence⟩, m.valueDigest)
  | .prepare => pbft.prepare?.map fun m => (⟨m.viewNumber, m.sequence⟩, m.valueDigest)
  | .commit => pbft.commit?.map fun m => (⟨m.viewNumber, m.sequence⟩, m.valueDigest)
  | _ => none

/-- The view that a VIEW-CHANGE asks for. -/
def Pbft.asksFor? (pbft : Pbft) : Option ℤ :=
  if pbft.type = .viewchangWithRawvalue then
    some pbft.viewChangeWithRawvalue.viewChangeEnv.pbft.viewChange.viewNumber
  else none

/-- A view-change instance is filed under its view, and the messages that it keeps to repeat
them are a VIEW-CHANGE and a NEW-VIEW, or nothing yet. -/
structure PbftVcInstance.Typed (viewNumber : ℤ) (vcInstance : PbftVcInstance) : Prop where
  viewNumber_eq : vcInstance.viewNumber = viewNumber
  viewChangeMsg : ∀ env ∈ vcInstance.viewChangeMsg?, env.NoCommit
  newview : vcInstance.newview.NoCommit
  viewChangeMsg_type : ∀ env ∈ vcInstance.viewChangeMsg?,
    env.pbft.type = .viewchangWithRawvalue
  newview_vote : vcInstance.newview.pbft.vote? = none ∧ vcInstance.newview.pbft.asksFor? = none

/-- Two states differ only in the view, the last executed sequence, the view changes and the
timers. -/
structure PbftState.SameCore (st st' : PbftState) : Prop where
  isValidator_eq : st'.isValidator = st.isValidator
  replicaId_eq : st'.replicaId = st.replicaId
  validators_eq : st'.validators = st.validators
  instances_eq : st'.instances = st.instances
  outputs_eq : st'.outputs = st.outputs
  viewNumber_le : st.viewNumber ≤ st'.viewNumber
  lastExeSeq_le : st.lastExeSeq ≤ st'.lastExeSeq
  typed : (∀ entry ∈ st.vcInstances, entry.2.Typed entry.1) →
    ∀ entry ∈ st'.vcInstances, entry.2.Typed entry.1

/-- `pinstance` with one more PREPARE, moved on to PREPARED if there is a quorum. -/
def PbftInstance.withPrepare (quorumSize : ℕ) (prepare : PbftPrepare) (pinstance : PbftInstance) :
    PbftInstance :=
  let pinstance := { pinstance with
    prepares := OrderedMap.insertNew prepare.replicaId prepare pinstance.prepares }
  if quorumSize ≤ pinstance.prepares.length then
    if pinstance.phase.toNat < PbftInstancePhase.prepared.toNat then
      { pinstance with phase := .prepared, phaseItem := 0 }
    else pinstance
  else pinstance

/-- `pinstance` with one more COMMIT, moved on to COMMITED if there is a quorum. -/
def PbftInstance.withCommit (quorumSize : ℕ) (commit : PbftCommit) (now : ℤ)
    (pinstance : PbftInstance) : PbftInstance :=
  let pinstance := { pinstance with
    commits := OrderedMap.insert commit.replicaId commit pinstance.commits }
  if quorumSize + 1 ≤ pinstance.commits.length ∧
      pinstance.phase.toNat < PbftInstancePhase.commited.toNat then
    { pinstance with phase := .commited, phaseItem := 0, endTime := now }
  else pinstance

/-- The instance that the primary starts with its own PRE-PREPARE. -/
def PbftInstance.proposed (env : PbftEnv) (now : ℤ) : PbftInstance :=
  { PbftInstance.new now with
    prePrepareMsg? := some env
    phase := .preprepared
    prePrepare := env.pbft.prePrepare
    prePrepareBuf := [env] }

/-- The instance that has taken a value. -/
def PbftInstance.accepted (prePrepare : PbftPrePrepare) (checkValueRet : CheckValueResult)
    (pinstance : PbftInstance) : PbftInstance :=
  { pinstance with
    phase := .preprepared
    phaseItem := 0
    prePrepare := prePrepare
    checkValueResult := checkValueRet }

/-- The PREPARE that a COMMIT is sent for: from `OnPrepare` one of the current view that is
counted, or again from `OnTimer` the first one of the instance. -/
def PbftInstance.CommitsFor (viewNumber : ℤ) (index : PbftInstanceIndex) (prepare : PbftPrepare)
    (pinstance : PbftInstance) : Prop :=
  (index.viewNumber = viewNumber ∧ pinstance.prepares ≠ [] ∧
      ∃ env ∈ pinstance.buffered, env.pbft.type = .prepare ∧ env.pbft.prepare = prepare ∧
        pinstance.prePrepare.valueDigest = prepare.valueDigest) ∨
    pinstance.lastCommitSendTime ≠ 0 ∧
      prepare = (pinstance.prepares.map Prod.snd).headD default

/-- The replica has sent a VIEW-CHANGE that asks for the view. -/
def PbftState.Promised (st : PbftState) (viewNumber : ℤ) : Prop :=
  ∃ env, .send env ∈ st.outputs ∧ env.pbft.asksFor? = some viewNumber

/-- The prepared set is kept by a view-change instance, or for a timer. -/
def PbftState.Holds (st : PbftState) (preparedSet : PbftPreparedSet) : Prop :=
  (∃ entry ∈ st.vcInstances, entry.2.prePreparedEnvSet = preparedSet) ∨
    ∃ timer ∈ st.timers, timer.2.2 = preparedSet

/-- What an event brings in. -/
structure Trigger where
  /-- In this state the message is put into the buffer of the instance. -/
  received : PbftState → PbftInstance → PbftEnv → Prop
  /-- The COMMIT is counted without being buffered. -/
  stray : PbftEnv → Prop
  /-- In this state the PRE-PREPARE is proposed. -/
  proposed : PbftState → PbftEnv → Prop
  /-- In this state the instance is erased although it is still to be agreed on. -/
  dropped : PbftState → PbftInstanceIndex → Prop
  /-- In this state the view is entered. -/
  enters : PbftState → ℤ → Prop
  /-- In this state the COMMIT of the instance is sent again by the timer. -/
  again : PbftState → PbftInstanceIndex → Prop
  /-- In this state a VIEW-CHANGE that asks for the view is sent again by the timer. -/
  repeats : PbftState → ℤ → Prop
  /-- The prepared set is put into a view-change instance. -/
  brings : PbftPreparedSet → Prop

/-- The messages other than COMMITs that are sent, with what has been checked before. -/
inductive PbftState.Sends (crypto : Crypto) (trigger : Trigger) (st : PbftState) (env : PbftEnv) :
    Prop
  /-- The PRE-PREPARE that an instance has been proposed with. -/
  | prePrepare {index : PbftInstanceIndex} {pinstance : PbftInstance} {msg : PbftEnv}
      (hmem : (index, pinstance) ∈ st.instances) (hmsg : msg ∈ pinstance.prePrepareMsg?)
      (htype : env.pbft.type = .preprepare) (hvote : env.pbft.vote? = msg.pbft.vote?)
  /-- The PREPARE that answers a PRE-PREPARE of an instance of the active view. -/
  | prepare {index : PbftInstanceIndex} {pinstance : PbftInstance} {source : PbftEnv}
      (hmem : (index, pinstance) ∈ st.instances) (hphase : pinstance.phase ≠ .none)
      (hsource : source ∈ pinstance.buffered) (hpre : source.pbft.type = .preprepare)
      (hactive : st.viewActive = true) (hview : index.viewNumber = st.viewNumber)
      (htype : env.pbft.type = .prepare)
      (hvote : env.pbft.vote? = some
        (⟨source.pbft.prePrepare.viewNumber, source.pbft.prePrepare.sequence⟩,
          crypto.hash pinstance.prePrepare.value))
  /-- A VIEW-CHANGE, when the view is not active or again. -/
  | viewChange {viewNumber : ℤ} (htype : env.pbft.type = .viewchangWithRawvalue)
      (hasks : env.pbft.asksFor? = some viewNumber)
      (hactive : st.viewActive = false ∨ trigger.repeats st viewNumber)
  | other (hvote : env.pbft.vote? = none) (hasks : env.pbft.asksFor? = none)

/-- A view becomes active only by being entered, and the prepared sets that are kept come from
somewhere. -/
structure PbftState.Continues (trigger : Trigger) (st st' : PbftState) : Prop where
  active : st'.viewActive = true → st.viewActive = true ∨ trigger.enters st st'.viewNumber
  sets : ∀ preparedSet, st'.Holds preparedSet → st.Holds preparedSet ∨ trigger.brings preparedSet

/-- The moves of a replica. -/
inductive Move (crypto : Crypto) (key : PrivateKey) (trigger : Trigger) :
    PbftState → PbftState → Prop
  /-- The view, the sequence, the view changes or the timers change. -/
  | other {st st' : PbftState} (hsame : st.SameCore st') (hcontinues : st.Continues trigger st') :
      Move crypto key trigger st st'
  /-- `TryDoTraceOut` jumps to a sequence beyond the watermark. -/
  | traceOut {st st' : PbftState} (hsequence : st.lastExeSeq + ckpInterval ≤ st'.lastExeSeq)
      (hmid : PbftState.SameCore st { st' with
        instances := st.instances, outputs := st.outputs, viewNumber := st.viewNumber })
      (hinstances : st'.instances =
        st.instances.filter fun entry => decide (st'.lastExeSeq < entry.1.sequence))
      (houtputs : st'.outputs = st.outputs) (henters : trigger.enters st st'.viewNumber)
      (hsets : ∀ preparedSet, st'.Holds preparedSet → st.Holds preparedSet) :
      Move crypto key trigger st st'
  | viewChanged (st : PbftState) (value : Bytes) :
      Move crypto key trigger st (st.output (.viewChanged value))
  | resetCloseTimer (st : PbftState) : Move crypto key trigger st (st.output .resetCloseTimer)
  /-- A message other than a COMMIT is sent. -/
  | sendOther (st : PbftState) {env : PbftEnv} (hcommit : env.NoCommit)
      (hsends : st.Sends crypto trigger env) :
      Move crypto key trigger st (st.output (.send env))
  /-- Instances are erased; what is still to be agreed on only if the event drops it. -/
  | erase (st : PbftState) (keep : PbftInstanceIndex → PbftInstance → Bool)
      (hdropped : ∀ entry ∈ st.instances, keep entry.1 entry.2 = false →
        entry.1.sequence ≤ st.lastExeSeq ∨ entry.1.viewNumber < st.viewNumber ∨
          trigger.dropped st entry.1) :
      Move crypto key trigger st (st.keepInstances keep)
  /-- A new instance replaces the ones of older views at its sequence. -/
  | create {st : PbftState} {index : PbftInstanceIndex} (now : ℤ)
      (hview : index.viewNumber = st.viewNumber) (hlast : st.lastExeSeq < index.sequence)
      (hwater : index.sequence ≤ st.lastExeSeq + ckpInterval)
      (hnone : st.instances.lookup index = none) :
      Move crypto key trigger st ((st.setInstance index (.new now)).keepInstances fun other _ =>
        !(other.viewNumber < index.viewNumber && other.sequence == index.sequence))
  /-- The message that has arrived is put into the buffer of its instance. -/
  | buffer {st : PbftState} {index : PbftInstanceIndex} {pinstance : PbftInstance} {env : PbftEnv}
      (hmem : (index, pinstance) ∈ st.instances) (hreceived : trigger.received st pinstance env)
      (hindex : env.pbft.index? = some index) :
      Move crypto key trigger st (st.setInstance index (pinstance.pushBack env))
  /-- Clocks, counters and the position in the buffer of an instance change. -/
  | tick {st : PbftState} {index : PbftInstanceIndex} {pinstance pinstance' : PbftInstance}
      (hmem : (index, pinstance) ∈ st.instances) (hsame : pinstance.SameAgreement pinstance')
      (htime : pinstance'.lastCommitSendTime = pinstance.lastCommitSendTime) :
      Move crypto key trigger st (st.setInstance index pinstance')
  /-- The primary drops what is not COMMITED and starts an instance with its own PRE-PREPARE. -/
  | propose {st : PbftState} {env : PbftEnv} (now : ℤ) (hproposed : trigger.proposed st env)
      (hindex : env.pbft.index? = some ⟨st.viewNumber, st.lastExeSeq + 1⟩)
      (htype : env.pbft.type = .preprepare) (hcommit : env.NoCommit)
      (hdigest : env.pbft.prePrepare.valueDigest = crypto.hash env.pbft.prePrepare.value) :
      Move crypto key trigger st ((st.keepInstances fun index pinstance =>
        !(decide (st.lastExeSeq < index.sequence) &&
          pinstance.phase.toNat < PbftInstancePhase.commited.toNat)).setInstance
        ⟨st.viewNumber, st.lastExeSeq + 1⟩ (.proposed env now))
  /-- `OnPrePrepare` takes a value. -/
  | accept {st : PbftState} {index : PbftInstanceIndex} {pinstance : PbftInstance} {env : PbftEnv}
      (checkValueRet : CheckValueResult) (hmem : (index, pinstance) ∈ st.instances)
      (hphase : pinstance.phase = .none) (hdue : pinstance.Due env)
      (hdigest : env.pbft.prePrepare.valueDigest = crypto.hash env.pbft.prePrepare.value) :
      Move crypto key trigger st
        (st.setInstance index (pinstance.accepted env.pbft.prePrepare checkValueRet))
  /-- `OnPrepare` counts a PREPARE. -/
  | prepare {st : PbftState} {index : PbftInstanceIndex} {pinstance : PbftInstance} {env : PbftEnv}
      (hmem : (index, pinstance) ∈ st.instances) (hdue : pinstance.Due env)
      (htype : env.pbft.type = .prepare)
      (hdigest : pinstance.prePrepare.valueDigest = env.pbft.prepare.valueDigest) :
      Move crypto key trigger st
        (st.setInstance index (pinstance.withPrepare st.quorumSize env.pbft.prepare))
  /-- A COMMIT is sent and the clocks of its instance are set. -/
  | sendCommit {st : PbftState} {index : PbftInstanceIndex} {pinstance pinstance' : PbftInstance}
      {prepare : PbftPrepare} (roundNumber : ℤ) (hmem : (index, pinstance) ∈ st.instances)
      (hphase : PbftInstancePhase.prepared.toNat ≤ pinstance.phase.toNat)
      (hsame : pinstance.SameAgreement pinstance')
      (hprepare : pinstance.CommitsFor st.viewNumber index prepare)
      (hagain : st.viewActive = true ∧ index.viewNumber = st.viewNumber ∨ trigger.again st index) :
      Move crypto key trigger st ((st.sendMessage
        (newCommit crypto key prepare roundNumber st)).setInstance index pinstance')
  /-- `OnCommit` counts a COMMIT. -/
  | commit {st : PbftState} {index : PbftInstanceIndex} {pinstance : PbftInstance} {env : PbftEnv}
      (now : ℤ) (hmem : (index, pinstance) ∈ st.instances)
      (hsource : pinstance.Due env ∨ trigger.stray env ∧ env.pbft.index? = some index)
      (htype : env.pbft.type = .commit)
      (hdigest : pinstance.prePrepare.valueDigest = env.pbft.commit.valueDigest)
      (hnew : pinstance.commits.lookup env.pbft.commit.replicaId = none) :
      Move crypto key trigger st
        (st.setInstance index (pinstance.withCommit st.quorumSize env.pbft.commit now))
  /-- `TryExecuteValue` executes a value. -/
  | execute {st : PbftState} {index : PbftInstanceIndex} {pinstance : PbftInstance}
      (hmem : (index, pinstance) ∈ st.instances) (hphase : pinstance.phase = .commited)
      (hsequence : index.sequence = st.lastExeSeq + 1) :
      Move crypto key trigger st ({ st with lastExeSeq := st.lastExeSeq + 1 }.output
        (.valueCommited index.sequence pinstance.prePrepare.value
          ⟨proofCommits pinstance.commitBuf []⟩))

/-- A sequence of moves. -/
abbrev Moves (crypto : Crypto) (key : PrivateKey) (trigger : Trigger) :
    PbftState → PbftState → Prop :=
  ReflTransGen (Move crypto key trigger)

section Moves

variable {crypto : Crypto} {key : PrivateKey} {trigger : Trigger} {st st' : PbftState}
  {index : PbftInstanceIndex} {pinstance : PbftInstance} {env : PbftEnv}

/-! ## Instances -/

theorem mem_setInstance {entry : PbftInstanceIndex × PbftInstance} :
    entry ∈ (st.setInstance index pinstance).instances ↔
      entry = (index, pinstance) ∨ entry ∈ st.instances ∧ entry.1 ≠ index :=
  OrderedMap.mem_insert

theorem mem_setInstance_self : (index, pinstance) ∈ (st.setInstance index pinstance).instances :=
  mem_setInstance.mpr (Or.inl rfl)

/-- What holds of all instances still holds when one is written that satisfies it. -/
theorem forall_mem_setInstance {good : PbftInstanceIndex × PbftInstance → Prop}
    (hold : ∀ entry ∈ st.instances, good entry) (hnew : good (index, pinstance)) :
    ∀ entry ∈ (st.setInstance index pinstance).instances, good entry := by
  intro entry hentry
  rcases mem_setInstance.mp hentry with rfl | ⟨hmem, -⟩
  · exact hnew
  · exact hold entry hmem

@[simp] theorem sendMessage_vcInstances : (st.sendMessage env).vcInstances = st.vcInstances := by
  unfold PbftState.sendMessage
  split <;> rfl

@[simp] theorem sendMessage_instances : (st.sendMessage env).instances = st.instances := by
  unfold PbftState.sendMessage
  split <;> rfl

theorem mem_buffered_of_phaseBuf (hmem : env ∈ pinstance.phaseBuf) : env ∈ pinstance.buffered := by
  unfold PbftInstance.phaseBuf at hmem
  unfold PbftInstance.buffered
  cases hphase : pinstance.phase <;> simp_all

theorem PbftInstance.Due.mem_buffered (hdue : pinstance.Due env) : env ∈ pinstance.buffered :=
  hdue.elim mem_buffered_of_phaseBuf And.left

/-! ## What no move changes -/

/-- What every move keeps, a sequence of moves keeps. -/
theorem Moves.invariant {inv : PbftState → Prop} (hmoves : Moves crypto key trigger st st')
    (hmove : ∀ mid mid', Move crypto key trigger mid mid' → inv mid → inv mid')
    (hinv : inv st) : inv st' := by
  induction hmoves with
  | refl => exact hinv
  | tail _ hlast ih => exact hmove _ _ hlast ih

/-- The messages that a replica keeps to repeat them are what they should be, and its
instances are in order, of no later view and within the watermark. -/
structure PbftState.Typed (st : PbftState) : Prop where
  prePrepareMsg : ∀ entry ∈ st.instances, ∀ env ∈ entry.2.prePrepareMsg?, env.NoCommit
  vcInstances : ∀ entry ∈ st.vcInstances, entry.2.Typed entry.1
  prePrepareMsg_type : ∀ entry ∈ st.instances, ∀ env ∈ entry.2.prePrepareMsg?,
    env.pbft.type = .preprepare
  view_le : ∀ entry ∈ st.instances, entry.1.viewNumber ≤ st.viewNumber
  sequence_le : ∀ entry ∈ st.instances, entry.1.sequence ≤ st.lastExeSeq + ckpInterval
  sorted : st.instances.Pairwise fun entry entry' => entry.1 ≤ entry'.1
  nodup : (st.instances.map Prod.fst).Nodup

theorem pushBack_prePrepareMsg :
    (pinstance.pushBack env).prePrepareMsg? = pinstance.prePrepareMsg? := by
  unfold PbftInstance.pushBack
  split <;> rfl

theorem pushBack_phase : (pinstance.pushBack env).phase = pinstance.phase := by
  unfold PbftInstance.pushBack
  split <;> rfl

theorem pushBack_prePrepare : (pinstance.pushBack env).prePrepare = pinstance.prePrepare := by
  unfold PbftInstance.pushBack
  split <;> rfl

theorem withPrepare_prePrepareMsg (quorumSize : ℕ) (prepare : PbftPrepare) :
    (pinstance.withPrepare quorumSize prepare).prePrepareMsg? = pinstance.prePrepareMsg? := by
  unfold PbftInstance.withPrepare
  simp only
  split_ifs <;> rfl

theorem withCommit_prePrepareMsg (quorumSize : ℕ) (commit : PbftCommit) (now : ℤ) :
    (pinstance.withCommit quorumSize commit now).prePrepareMsg? = pinstance.prePrepareMsg? := by
  unfold PbftInstance.withCommit
  simp only
  split_ifs <;> rfl

theorem withPrepare_phase_ne_none (quorumSize : ℕ) (prepare : PbftPrepare)
    (hphase : pinstance.phase ≠ .none) :
    (pinstance.withPrepare quorumSize prepare).phase ≠ .none := by
  unfold PbftInstance.withPrepare
  simp only
  split_ifs
  · simp
  · exact hphase
  · exact hphase

theorem withCommit_prePrepare (quorumSize : ℕ) (commit : PbftCommit) (now : ℤ) :
    (pinstance.withCommit quorumSize commit now).prePrepare = pinstance.prePrepare := by
  unfold PbftInstance.withCommit
  simp only
  split_ifs <;> rfl

theorem withCommit_phase_ne_none (quorumSize : ℕ) (commit : PbftCommit) (now : ℤ)
    (hphase : pinstance.phase ≠ .none) :
    (pinstance.withCommit quorumSize commit now).phase ≠ .none := by
  unfold PbftInstance.withCommit
  simp only
  split_ifs
  · simp
  · exact hphase

theorem PbftState.Typed.setInstance (htyped : st.Typed)
    (hnew : ∀ env ∈ pinstance.prePrepareMsg?, env.NoCommit ∧ env.pbft.type = .preprepare)
    (hview : index.viewNumber ≤ st.viewNumber)
    (hsequence : index.sequence ≤ st.lastExeSeq + ckpInterval) :
    (st.setInstance index pinstance).Typed where
  prePrepareMsg := forall_mem_setInstance htyped.prePrepareMsg fun env henv => (hnew env henv).1
  vcInstances := htyped.vcInstances
  prePrepareMsg_type :=
    forall_mem_setInstance htyped.prePrepareMsg_type fun env henv => (hnew env henv).2
  view_le := forall_mem_setInstance htyped.view_le hview
  sequence_le := forall_mem_setInstance htyped.sequence_le hsequence
  sorted := OrderedMap.pairwise_insert index pinstance htyped.sorted
  nodup := OrderedMap.nodup_insert index pinstance htyped.nodup

/-- An instance is written that keeps the message of the old one. -/
theorem PbftState.Typed.replace {old : PbftInstance} (htyped : st.Typed)
    (hmem : (index, old) ∈ st.instances) (hmsg : pinstance.prePrepareMsg? = old.prePrepareMsg?) :
    (st.setInstance index pinstance).Typed := by
  refine htyped.setInstance (fun env henv => ?_) (htyped.view_le _ hmem)
    (htyped.sequence_le _ hmem)
  rw [hmsg] at henv
  exact ⟨htyped.prePrepareMsg _ hmem env henv, htyped.prePrepareMsg_type _ hmem env henv⟩

theorem PbftState.Typed.keepInstances (htyped : st.Typed)
    (keep : PbftInstanceIndex → PbftInstance → Bool) : (st.keepInstances keep).Typed where
  prePrepareMsg entry hentry := htyped.prePrepareMsg entry (List.mem_of_mem_filter hentry)
  vcInstances := htyped.vcInstances
  prePrepareMsg_type entry hentry :=
    htyped.prePrepareMsg_type entry (List.mem_of_mem_filter hentry)
  view_le entry hentry := htyped.view_le entry (List.mem_of_mem_filter hentry)
  sequence_le entry hentry := htyped.sequence_le entry (List.mem_of_mem_filter hentry)
  sorted := htyped.sorted.sublist List.filter_sublist
  nodup := htyped.nodup.sublist (List.filter_sublist.map _)

/-- Views and sequences only grow, and the instances stay. -/
theorem PbftState.Typed.mono (htyped : st.Typed) (hinstances : st'.instances = st.instances)
    (hview : st.viewNumber ≤ st'.viewNumber) (hlast : st.lastExeSeq ≤ st'.lastExeSeq)
    (hvc : ∀ entry ∈ st'.vcInstances, entry.2.Typed entry.1) : st'.Typed where
  prePrepareMsg := hinstances ▸ htyped.prePrepareMsg
  vcInstances := hvc
  prePrepareMsg_type := hinstances ▸ htyped.prePrepareMsg_type
  view_le entry hentry := by
    rw [hinstances] at hentry
    exact (htyped.view_le entry hentry).trans hview
  sequence_le entry hentry := by
    rw [hinstances] at hentry
    have hle := htyped.sequence_le entry hentry
    omega
  sorted := hinstances ▸ htyped.sorted
  nodup := hinstances ▸ htyped.nodup

/-- Beyond the watermark there are no instances. -/
theorem PbftState.Typed.filter_eq_nil (htyped : st.Typed) {sequence : ℤ}
    (hsequence : st.lastExeSeq + ckpInterval ≤ sequence) :
    (st.instances.filter fun entry => decide (sequence < entry.1.sequence)) = [] := by
  rw [List.filter_eq_nil_iff]
  intro entry hentry
  simp only [decide_eq_true_eq, not_lt]
  exact (htyped.sequence_le entry hentry).trans hsequence

theorem Move.typed (hmove : Move crypto key trigger st st') (htyped : st.Typed) : st'.Typed := by
  cases hmove with
  | other hsame =>
      exact htyped.mono hsame.instances_eq hsame.viewNumber_le hsame.lastExeSeq_le
        (hsame.typed htyped.vcInstances)
  | traceOut hsequence hmid hinstances =>
      rw [htyped.filter_eq_nil hsequence] at hinstances
      refine ⟨?_, hmid.typed htyped.vcInstances, ?_, ?_, ?_, ?_, ?_⟩ <;> simp [hinstances]
  | viewChanged | resetCloseTimer | sendOther =>
      exact htyped.mono rfl le_rfl le_rfl htyped.vcInstances
  | execute => exact htyped.mono rfl le_rfl (Int.le_add_one le_rfl) htyped.vcInstances
  | erase => exact htyped.keepInstances _
  | create _ hview _ hwater =>
      exact (htyped.setInstance (by simp [PbftInstance.new]) hview.le hwater).keepInstances _
  | buffer hmem => exact htyped.replace hmem pushBack_prePrepareMsg
  | tick hmem hsame => exact htyped.replace hmem hsame.prePrepareMsg_eq
  | propose _ _ _ htype hcommit =>
      refine (htyped.keepInstances _).setInstance ?_ le_rfl ?_
      · simpa [PbftInstance.proposed] using ⟨hcommit, htype⟩
      · exact add_le_add_right (by decide) _
  | accept _ hmem => exact htyped.replace hmem rfl
  | prepare hmem => exact htyped.replace hmem (withPrepare_prePrepareMsg _ _)
  | sendCommit _ hmem _ hsame =>
      have hsent : ∀ env, (st.sendMessage env).Typed := by
        intro env
        unfold PbftState.sendMessage
        split
        · exact htyped.mono rfl le_rfl le_rfl htyped.vcInstances
        · exact htyped
      refine (hsent _).replace ?_ hsame.prePrepareMsg_eq
      rwa [sendMessage_instances]
  | commit _ hmem => exact htyped.replace hmem (withCommit_prePrepareMsg _ _ _)

theorem Moves.typed (hmoves : Moves crypto key trigger st st') (htyped : st.Typed) : st'.Typed :=
  hmoves.invariant (fun _ _ hmove => hmove.typed) htyped

/-- The replica has been told the validators. -/
structure PbftState.Configured (crypto : Crypto) (key : PrivateKey) (validators : List Bytes)
    (st : PbftState) : Prop where
  validators_eq : st.validators = .ofSet validators
  isValidator_eq : st.isValidator = decide (crypto.encAddress key.encPublicKey ∈ validators)
  replicaId_eq : st.replicaId =
    getValidatorIndex (crypto.encAddress key.encPublicKey) (.ofSet validators)

variable {validators : List Bytes}

theorem initialState_configured :
    (initialState crypto key validators).Configured crypto key validators :=
  ⟨rfl, rfl, rfl⟩

theorem initialState_typed : (initialState crypto key validators).Typed := by
  constructor <;> simp [initialState, setValidators]

theorem Move.configured (hmove : Move crypto key trigger st st')
    (hconf : st.Configured crypto key validators) : st'.Configured crypto key validators := by
  obtain ⟨hvalidators, hvalidator, hreplica⟩ := hconf
  cases hmove with
  | other hsame =>
      exact ⟨hsame.validators_eq.trans hvalidators, hsame.isValidator_eq.trans hvalidator,
        hsame.replicaId_eq.trans hreplica⟩
  | traceOut _ hmid =>
      exact ⟨hmid.validators_eq.trans hvalidators, hmid.isValidator_eq.trans hvalidator,
        hmid.replicaId_eq.trans hreplica⟩
  | sendCommit =>
      unfold PbftState.sendMessage
      split <;> exact ⟨hvalidators, hvalidator, hreplica⟩
  | _ => exact ⟨hvalidators, hvalidator, hreplica⟩

theorem Moves.configured (hmoves : Moves crypto key trigger st st')
    (hconf : st.Configured crypto key validators) : st'.Configured crypto key validators :=
  hmoves.invariant (fun _ _ hmove => hmove.configured) hconf

/-- What has been handed out stays handed out. -/
theorem Move.outputs_subset (hmove : Move crypto key trigger st st') :
    st.outputs ⊆ st'.outputs := by
  cases hmove with
  | other hsame => exact hsame.outputs_eq ▸ List.Subset.refl _
  | traceOut _ _ _ houtputs => exact houtputs ▸ List.Subset.refl _
  | viewChanged | resetCloseTimer | sendOther | execute => exact List.subset_append_left _ _
  | sendCommit =>
      unfold PbftState.sendMessage
      split
      · exact List.subset_append_left _ _
      · exact List.Subset.refl _
  | _ => exact List.Subset.refl _

/-- A value that is handed out is the value of a COMMITED instance. -/
theorem Move.of_valueCommited {sequence : ℤ} {value : Bytes} {proof : PbftProof}
    (hmove : Move crypto key trigger st st')
    (houtput : .valueCommited sequence value proof ∈ st'.outputs) :
    .valueCommited sequence value proof ∈ st.outputs ∨
      ∃ index pinstance, (index, pinstance) ∈ st.instances ∧ pinstance.phase = .commited ∧
        sequence = index.sequence ∧ value = pinstance.prePrepare.value ∧
        proof = ⟨proofCommits pinstance.commitBuf []⟩ := by
  cases hmove with
  | other hsame => exact Or.inl (hsame.outputs_eq ▸ houtput)
  | traceOut _ _ _ houtputs => exact Or.inl (houtputs ▸ houtput)
  | viewChanged | resetCloseTimer | sendOther =>
      simp only [PbftState.output, List.mem_append, List.mem_singleton, reduceCtorEq,
        or_false] at houtput
      exact Or.inl houtput
  | sendCommit =>
      simp only [PbftState.setInstance, PbftState.sendMessage] at houtput
      split at houtput
      · simp only [PbftState.output, List.mem_append, List.mem_singleton, reduceCtorEq,
          or_false] at houtput
        exact Or.inl houtput
      · exact Or.inl houtput
  | @execute index pinstance hmem hphase hsequence =>
      rcases List.mem_append.mp houtput with hold | hnew
      · exact Or.inl hold
      · obtain ⟨rfl, rfl, rfl⟩ := Output.valueCommited.inj (List.mem_singleton.mp hnew)
        exact Or.inr ⟨index, pinstance, hmem, hphase, rfl, rfl, rfl⟩
  | _ => exact Or.inl houtput

theorem Moves.outputs_subset (hmoves : Moves crypto key trigger st st') :
    st.outputs ⊆ st'.outputs := by
  induction hmoves with
  | refl => exact List.Subset.refl _
  | tail _ hlast ih => exact List.Subset.trans ih hlast.outputs_subset

end Moves

end CegChain
