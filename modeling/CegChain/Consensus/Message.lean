import CegChain.Utils.Base58

/-!
# Messages of the consensus

The messages of `proto/consensus.proto` that `Pbft` reads.  The fields of `Pbft`
are not a `oneof`: an envelope has a type and may carry several sub-messages at
once, whatever its type says.  A sub-message that is absent is `none` (`has_x()`
is `x?.isSome`) and reads as the default instance (`x()` is `x`).

Envelopes nest: a view change carries envelopes, which may again be view changes.
-/

namespace CegChain

/-- `PbftMessageType`.  The enumeration is open: a message may carry any number. -/
inductive PbftMessageType where
  | preprepare
  | prepare
  | commit
  | viewchange
  | newview
  | viewchangWithRawvalue
  | unknown (value : ℤ)
  deriving DecidableEq, Repr

/-- `PbftPrePrepare`. -/
structure PbftPrePrepare where
  viewNumber : ℤ := 0
  sequence : ℤ := 0
  replicaId : ℤ := 0
  value : Bytes := []
  valueDigest : Bytes := []
  deriving DecidableEq, Repr

/-- `PbftPrepare`. -/
structure PbftPrepare where
  viewNumber : ℤ := 0
  sequence : ℤ := 0
  replicaId : ℤ := 0
  valueDigest : Bytes := []
  deriving DecidableEq, Repr

/-- `PbftCommit`. -/
structure PbftCommit where
  viewNumber : ℤ := 0
  sequence : ℤ := 0
  replicaId : ℤ := 0
  valueDigest : Bytes := []
  deriving DecidableEq, Repr

/-- `PbftViewChange`. -/
structure PbftViewChange where
  viewNumber : ℤ := 0
  sequence : ℤ := 0
  prepredValueDigest : Bytes := []
  replicaId : ℤ := 0
  deriving DecidableEq, Repr

/-- `Signature`. -/
structure Signature where
  publicKey : Bytes := []
  signData : Bytes := []
  deriving DecidableEq, Repr

mutual

/-- `PbftEnv`. -/
structure PbftEnv where
  pbft : Pbft
  signature : Signature

/-- `Pbft`. -/
structure Pbft where
  roundNumber : ℤ
  type : PbftMessageType
  prePrepare? : Option PbftPrePrepare
  prepare? : Option PbftPrepare
  commit? : Option PbftCommit
  viewChange? : Option PbftViewChange
  newView? : Option PbftNewView
  viewChangeWithRawvalue? : Option PbftViewChangeWithRawValue
  chainId : ℤ

/-- `PbftPreparedSet`. -/
structure PbftPreparedSet where
  prePrepare? : Option PbftEnv
  prepare : List PbftEnv

/-- `PbftViewChangeWithRawValue`. -/
structure PbftViewChangeWithRawValue where
  viewChangeEnv? : Option PbftEnv
  preparedSet? : Option PbftPreparedSet

/-- `PbftNewView`. -/
structure PbftNewView where
  viewNumber : ℤ
  sequence : ℤ
  replicaId : ℤ
  viewChanges : List PbftEnv
  prePrepare? : Option PbftEnv

end

/-- `PbftProof`. -/
structure PbftProof where
  commits : List PbftEnv

/-! ## Default instances -/

instance : Inhabited PbftPrePrepare := ⟨{}⟩
instance : Inhabited PbftPrepare := ⟨{}⟩
instance : Inhabited PbftCommit := ⟨{}⟩
instance : Inhabited PbftViewChange := ⟨{}⟩
instance : Inhabited Signature := ⟨{}⟩

instance : Inhabited Pbft :=
  ⟨⟨0, .preprepare, none, none, none, none, none, none, 0⟩⟩

instance : Inhabited PbftEnv := ⟨⟨default, default⟩⟩
instance : Inhabited PbftPreparedSet := ⟨⟨none, []⟩⟩
instance : Inhabited PbftViewChangeWithRawValue := ⟨⟨none, none⟩⟩
instance : Inhabited PbftNewView := ⟨⟨0, 0, 0, [], none⟩⟩

namespace Pbft

variable (pbft : Pbft)

/-- `pre_prepare()`. -/
def prePrepare : PbftPrePrepare := pbft.prePrepare?.getD default

/-- `prepare()`. -/
def prepare : PbftPrepare := pbft.prepare?.getD default

/-- `commit()`. -/
def commit : PbftCommit := pbft.commit?.getD default

/-- `view_change()`. -/
def viewChange : PbftViewChange := pbft.viewChange?.getD default

/-- `new_view()`. -/
def newView : PbftNewView := pbft.newView?.getD default

/-- `view_change_with_rawvalue()`. -/
def viewChangeWithRawvalue : PbftViewChangeWithRawValue :=
  pbft.viewChangeWithRawvalue?.getD default

end Pbft

/-- `pre_prepare()` of a prepared set. -/
def PbftPreparedSet.prePrepare (preparedSet : PbftPreparedSet) : PbftEnv :=
  preparedSet.prePrepare?.getD default

namespace PbftViewChangeWithRawValue

variable (viewChangeRaw : PbftViewChangeWithRawValue)

/-- `view_change_env()`. -/
def viewChangeEnv : PbftEnv := viewChangeRaw.viewChangeEnv?.getD default

/-- `prepared_set()`. -/
def preparedSet : PbftPreparedSet := viewChangeRaw.preparedSet?.getD default

end PbftViewChangeWithRawValue

end CegChain
