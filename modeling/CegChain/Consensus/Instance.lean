import CegChain.Consensus.Check

/-!
# Instances

The bookkeeping classes of `consensus/bft_instance.h`: a `PbftInstance` for every view
and sequence that is being agreed on, and a `PbftVcInstance` for every view that
replicas want to move to.

`msg_buf_` has one vector for every phase, indexed by the message type that the phase
waits for; the vector of the last phase stays empty.
-/

namespace CegChain

/-- `PbftInstancePhase`. -/
inductive PbftInstancePhase where
  | none
  | preprepared
  | prepared
  | commited
  deriving DecidableEq, Repr

/-- `(int32_t)phase_`. -/
def PbftInstancePhase.toNat : PbftInstancePhase → ℕ
  | .none => 0
  | .preprepared => 1
  | .prepared => 2
  | .commited => 3

/-- `Consensus::CheckValueResult`. -/
inductive CheckValueResult where
  | valid
  | mayvalid
  | invalid
  deriving DecidableEq, Repr

/-- `PbftInstanceIndex`. -/
structure PbftInstanceIndex where
  viewNumber : ℤ
  sequence : ℤ
  deriving DecidableEq, Repr

/-- `PbftInstanceIndex::operator<`. -/
def PbftInstanceIndex.lt (a b : PbftInstanceIndex) : Bool :=
  a.viewNumber < b.viewNumber || a.viewNumber == b.viewNumber && a.sequence < b.sequence

instance : LE PbftInstanceIndex := ⟨fun a b => b.lt a = false⟩

instance : DecidableLE PbftInstanceIndex := fun a b =>
  inferInstanceAs (Decidable (b.lt a = false))

theorem PbftInstanceIndex.le_iff {a b : PbftInstanceIndex} :
    a ≤ b ↔ a.viewNumber < b.viewNumber ∨
      a.viewNumber = b.viewNumber ∧ a.sequence ≤ b.sequence := by
  change b.lt a = false ↔ _
  simp only [PbftInstanceIndex.lt, Bool.or_eq_false_iff, decide_eq_false_iff_not,
    Bool.and_eq_false_iff, beq_eq_false_iff_ne]
  omega

instance : Std.Total (α := PbftInstanceIndex) (· ≤ ·) :=
  ⟨fun a b => by simp only [PbftInstanceIndex.le_iff]; omega⟩

instance : IsTrans PbftInstanceIndex (· ≤ ·) :=
  ⟨fun a b c hab hbc => by simp only [PbftInstanceIndex.le_iff] at *; omega⟩

/-- `PbftInstance`. -/
structure PbftInstance where
  phase : PbftInstancePhase := .none
  phaseItem : ℕ := 0
  prePrepare : PbftPrePrepare := {}
  prepares : List (ℤ × PbftPrepare) := []
  commits : List (ℤ × PbftCommit) := []
  /-- `msg_buf_[PBFT_TYPE_PREPREPARE]`. -/
  prePrepareBuf : List PbftEnv := []
  /-- `msg_buf_[PBFT_TYPE_PREPARE]`. -/
  prepareBuf : List PbftEnv := []
  /-- `msg_buf_[PBFT_TYPE_COMMIT]`. -/
  commitBuf : List PbftEnv := []
  prePrepareMsg? : Option PbftEnv := .none
  startTime : ℤ := 0
  endTime : ℤ := 0
  lastProposeTime : ℤ := 0
  lastCommitSendTime : ℤ := 0
  haveSendViewchange : Bool := false
  prePrepareRound : ℤ := 1
  commitRound : ℤ := 1
  checkValueResult : CheckValueResult := .valid

namespace PbftInstance

/-- `PbftInstance()` at the given time. -/
def new (now : ℤ) : PbftInstance :=
  { startTime := now, lastProposeTime := now }

/-- `msg_buf_[phase_]`. -/
def phaseBuf (pinstance : PbftInstance) : List PbftEnv :=
  match pinstance.phase with
  | .none => pinstance.prePrepareBuf
  | .preprepared => pinstance.prepareBuf
  | .prepared => pinstance.commitBuf
  | .commited => []

/-- `msg_buf_[env.pbft().type()].push_back(env)`. -/
def pushBack (env : PbftEnv) (pinstance : PbftInstance) : PbftInstance :=
  match env.pbft.type with
  | .preprepare => { pinstance with prePrepareBuf := pinstance.prePrepareBuf ++ [env] }
  | .prepare => { pinstance with prepareBuf := pinstance.prepareBuf ++ [env] }
  | .commit => { pinstance with commitBuf := pinstance.commitBuf ++ [env] }
  | _ => pinstance

/-- `utils::MICRO_UNITS_PER_SEC`. -/
def microUnitsPerSec : ℤ := 1000000

/-- `g_pbft_instance_timeout_`. -/
def instanceTimeout : ℤ := 30 * microUnitsPerSec

/-- `g_pbft_commit_send_interval`. -/
def commitSendInterval : ℤ := 15 * microUnitsPerSec

variable (currentTime : ℤ) (pinstance : PbftInstance)

/-- `IsExpire`. -/
def isExpire : Bool :=
  decide (instanceTimeout ≤ currentTime - pinstance.startTime) && pinstance.phase.toNat < 3

/-- `NeedSendAgain`. -/
def needSendAgain : Bool :=
  decide (instanceTimeout / 4 ≤ currentTime - pinstance.lastProposeTime) &&
    pinstance.phase.toNat < 3

/-- `NeedSendCommitAgain`. -/
def needSendCommitAgain : Bool :=
  pinstance.lastCommitSendTime != 0 &&
    decide (commitSendInterval ≤ currentTime - pinstance.lastCommitSendTime) &&
    2 ≤ pinstance.phase.toNat

end PbftInstance

/-- `PbftVcInstance`. -/
structure PbftVcInstance where
  viewChangeMsg? : Option PbftEnv := none
  viewNumber : ℤ := 0
  seq : ℤ := 0
  viewchanges : List (ℤ × PbftViewChange) := []
  prePreparedEnvSet : PbftPreparedSet := default
  viewChangeRound : ℤ := 0
  msgBuf : List PbftEnv := []
  startTime : ℤ := 0
  lastProposeTime : ℤ := 0
  endTime : ℤ := 0
  lastNewviewTime : ℤ := 0
  newview : PbftEnv := default
  newViewRound : ℤ := 1

namespace PbftVcInstance

/-- `PbftVcInstance(view_number)` at the given time. -/
def new (viewNumber now : ℤ) : PbftVcInstance :=
  { viewNumber := viewNumber, startTime := now, lastProposeTime := now }

/-- `g_pbft_vcinstance_timeout_`. -/
def vcinstanceTimeout : ℤ := 60 * PbftInstance.microUnitsPerSec

/-- `g_pbft_newview_send_interval`. -/
def newviewSendInterval : ℤ := 15 * PbftInstance.microUnitsPerSec

variable (currentTime : ℤ) (vcInstance : PbftVcInstance)

/-- `NeedSendAgain`. -/
def needSendAgain : Bool :=
  decide (vcinstanceTimeout < currentTime - vcInstance.lastProposeTime) && vcInstance.endTime == 0

/-- `NeedSendNewViewAgain`; a message of proto3 is always initialized. -/
def needSendNewViewAgain : Bool :=
  decide (newviewSendInterval < currentTime - vcInstance.lastNewviewTime) &&
    decide (0 < vcInstance.endTime)

end PbftVcInstance

end CegChain
