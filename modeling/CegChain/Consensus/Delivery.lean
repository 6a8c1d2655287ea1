import CegChain.Consensus.Primary

/-!
# The order of delivery

The messages of one instance arrive at a backup in any order and any number of times.
`PbftInstance::Go` runs through the buffer of the current phase only, so a PREPARE that
comes before its PRE-PREPARE and a COMMIT that comes before the PREPAREs wait for their turn.

What an instance has counted is what has been taken from the buffer of its phase
(`PbftInstance.Counted`), and between two messages that is the whole buffer.  So the phase is
a function of the set of messages (`agreedPhase`).
-/

namespace CegChain

/-- A valid message for the given value at the given view and sequence. -/
structure PbftEnv.ValidFor (crypto : Crypto) (validators : ValidatorMap)
    (index : PbftInstanceIndex) (value : Bytes) (env : PbftEnv) : Prop where
  check : checkMessageItem crypto validators env = true
  index_eq : env.pbft.index? = some index
  prePrepare : env.pbft.type = .preprepare →
    env.pbft.prePrepare.value = value ∧ env.pbft.prePrepare.valueDigest = crypto.hash value
  prepare : env.pbft.type = .prepare → env.pbft.prepare.valueDigest = crypto.hash value
  commit : env.pbft.type = .commit → env.pbft.commit.valueDigest = crypto.hash value

/-- The messages of a type. -/
def ofType (type : PbftMessageType) (envs : List PbftEnv) : List PbftEnv :=
  envs.filter fun env => env.pbft.type = type

/-- The distinct senders of PREPAREs. -/
def prepareSenders (envs : List PbftEnv) : Finset ℤ :=
  ((ofType .prepare envs).map fun env => env.pbft.prepare.replicaId).toFinset

/-- The distinct senders of COMMITs. -/
def commitSenders (envs : List PbftEnv) : Finset ℤ :=
  ((ofType .commit envs).map fun env => env.pbft.commit.replicaId).toFinset

/-- The phase that a set of messages brings an instance to. -/
def agreedPhase (quorumSize : ℕ) (envs : List PbftEnv) : PbftInstancePhase :=
  if ofType .preprepare envs = [] then .none
  else if (prepareSenders envs).card < quorumSize then .preprepared
  else if (commitSenders envs).card < quorumSize + 1 then .prepared
  else .commited

/-- The phase of an instance; one that has been executed, and may be erased, was COMMITED. -/
def PbftState.phaseAt (index : PbftInstanceIndex) (st : PbftState) : PbftInstancePhase :=
  if index.sequence ≤ st.lastExeSeq then .commited else (st.getInstance index).phase

/-- Messages arrive one after the other, each with the time of its arrival. -/
def deliverAll (crypto : Crypto) (key : PrivateKey) (deliveries : List (PbftEnv × ℤ))
    (st : PbftState) : PbftState :=
  (deliveries.map fun delivery => Event.recv delivery.1 .valid delivery.2).foldl
    (step crypto key) st

/-- What an instance has counted is what it has taken from the buffer of its phase. -/
def PbftInstance.Counted (quorumSize : ℕ) (pinstance : PbftInstance) : Prop :=
  match pinstance.phase with
  | .none => pinstance.phaseItem = 0 ∧ pinstance.prepares = [] ∧ pinstance.commits = []
  | .preprepared =>
      OrderedMap.KeyedBy ((pinstance.prepareBuf.take pinstance.phaseItem).map
          fun env => env.pbft.prepare.replicaId) pinstance.prepares ∧
        pinstance.prepares.length < quorumSize ∧ pinstance.commits = []
  | .prepared =>
      quorumSize ≤ (pinstance.prepareBuf.map fun env => env.pbft.prepare.replicaId).toFinset.card ∧
        OrderedMap.KeyedBy ((pinstance.commitBuf.take pinstance.phaseItem).map
          fun env => env.pbft.commit.replicaId) pinstance.commits ∧
        pinstance.commits.length < quorumSize + 1
  | .commited => False

/-- The messages in the buffers that the phases of an instance have still to go through. -/
def PbftInstance.remaining (pinstance : PbftInstance) : ℕ :=
  match pinstance.phase with
  | .none => pinstance.prePrepareBuf.length - pinstance.phaseItem + pinstance.prepareBuf.length +
      pinstance.commitBuf.length
  | .preprepared => pinstance.prepareBuf.length - pinstance.phaseItem + pinstance.commitBuf.length
  | .prepared => pinstance.commitBuf.length - pinstance.phaseItem
  | .commited => 0

/-- An instance that has received the given messages and is not COMMITED yet. -/
structure PbftInstance.Gathers (crypto : Crypto) (value : Bytes) (quorumSize : ℕ)
    (envs : List PbftEnv) (pinstance : PbftInstance) : Prop where
  prePrepareBuf_eq : pinstance.prePrepareBuf = ofType .preprepare envs
  prepareBuf_eq : pinstance.prepareBuf = ofType .prepare envs
  commitBuf_eq : pinstance.commitBuf = ofType .commit envs
  item_le : pinstance.phaseItem ≤ pinstance.phaseBuf.length
  proposed : pinstance.phase ≠ .none → pinstance.prePrepareBuf ≠ [] ∧
    pinstance.prePrepare.value = value ∧ pinstance.prePrepare.valueDigest = crypto.hash value
  counted : pinstance.Counted quorumSize

/-- The parts of the state that the messages of an instance do not change before it is
COMMITED. -/
structure PbftState.SameSetting (st st' : PbftState) : Prop where
  lastExeSeq_eq : st'.lastExeSeq = st.lastExeSeq
  validators_eq : st'.validators = st.validators
  viewNumber_eq : st'.viewNumber = st.viewNumber
  viewActive_eq : st'.viewActive = st.viewActive
  replicaId_eq : st'.replicaId = st.replicaId

/-- The instance is COMMITED, or it has been executed and erased. -/
def PbftState.Commited (index : PbftInstanceIndex) (st : PbftState) : Prop :=
  (∃ pinstance, st.instances.lookup index = some pinstance ∧ pinstance.phase = .commited) ∨
    st.instances.lookup index = none ∧ index.sequence ≤ st.lastExeSeq

section Delivery

variable {crypto : Crypto} {key : PrivateKey} {st st' start : PbftState}
  {index : PbftInstanceIndex} {pinstance : PbftInstance} {env : PbftEnv} {envs : List PbftEnv}
  {value : Bytes} {quorumSize : ℕ}

/-! ## Counting -/

theorem ofType_append (type : PbftMessageType) (envs : List PbftEnv) (env : PbftEnv) :
    ofType type (envs ++ [env]) =
      ofType type envs ++ if env.pbft.type = type then [env] else [] := by
  unfold ofType
  rw [List.filter_append]
  by_cases htype : env.pbft.type = type
  · simp [htype]
  · simp [htype]

theorem mem_ofType {type : PbftMessageType} : env ∈ ofType type envs ↔
    env ∈ envs ∧ env.pbft.type = type := by
  simp [ofType]

/-- Only the set of messages matters. -/
theorem agreedPhase_congr {envs' : List PbftEnv} (hsame : ∀ env, env ∈ envs ↔ env ∈ envs')
    (quorumSize : ℕ) : agreedPhase quorumSize envs = agreedPhase quorumSize envs' := by
  have hmem : ∀ type env, env ∈ ofType type envs ↔ env ∈ ofType type envs' := by
    intro type env
    rw [mem_ofType, mem_ofType, hsame]
  have hnil : ofType .preprepare envs = [] ↔ ofType .preprepare envs' = [] := by
    simp only [List.eq_nil_iff_forall_not_mem, hmem]
  have hprepares : prepareSenders envs = prepareSenders envs' := by
    ext replicaId
    simp only [prepareSenders, List.mem_toFinset, List.mem_map, hmem]
  have hcommits : commitSenders envs = commitSenders envs' := by
    ext replicaId
    simp only [commitSenders, List.mem_toFinset, List.mem_map, hmem]
  unfold agreedPhase
  rw [hprepares, hcommits]
  simp only [hnil]

theorem agreedPhase_eq_commited_iff : agreedPhase quorumSize envs = .commited ↔
    (∃ env ∈ envs, env.pbft.type = .preprepare) ∧ quorumSize ≤ (prepareSenders envs).card ∧
      quorumSize + 1 ≤ (commitSenders envs).card := by
  have hsome : (∃ env ∈ envs, env.pbft.type = .preprepare) ↔ ofType .preprepare envs ≠ [] := by
    simp only [ne_eq, List.eq_nil_iff_forall_not_mem, not_forall, not_not, mem_ofType]
  rw [hsome]
  unfold agreedPhase
  split_ifs with hnone hprepares hcommits
  · simp [hnone]
  · simp [hprepares]
  · simp only [false_iff, not_and]
    omega
  · simp only [not_lt] at hprepares hcommits
    simp [hnone, hprepares, hcommits]

/-- More messages do not undo an agreement. -/
theorem agreedPhase_append (hphase : agreedPhase quorumSize envs = .commited) (env : PbftEnv) :
    agreedPhase quorumSize (envs ++ [env]) = .commited := by
  rw [agreedPhase_eq_commited_iff] at hphase ⊢
  obtain ⟨⟨proposal, hproposal, htype⟩, hprepares, hcommits⟩ := hphase
  have hsub : ∀ type, ofType type envs ⊆ ofType type (envs ++ [env]) := by
    intro type
    rw [ofType_append]
    exact List.subset_append_left _ _
  refine ⟨⟨proposal, List.mem_append_left _ hproposal, htype⟩, hprepares.trans ?_,
    hcommits.trans ?_⟩
  · refine Finset.card_le_card fun replicaId hmem => ?_
    simp only [prepareSenders, List.mem_toFinset, List.mem_map] at hmem ⊢
    obtain ⟨other, hother, heq⟩ := hmem
    exact ⟨other, hsub _ hother, heq⟩
  · refine Finset.card_le_card fun replicaId hmem => ?_
    simp only [commitSenders, List.mem_toFinset, List.mem_map] at hmem ⊢
    obtain ⟨other, hother, heq⟩ := hmem
    exact ⟨other, hsub _ hother, heq⟩

/-! ## Instances -/

theorem pushBack_prePrepareBuf : (pinstance.pushBack env).prePrepareBuf =
    pinstance.prePrepareBuf ++ if env.pbft.type = .preprepare then [env] else [] := by
  unfold PbftInstance.pushBack
  cases env.pbft.type <;> simp

theorem pushBack_prepareBuf : (pinstance.pushBack env).prepareBuf =
    pinstance.prepareBuf ++ if env.pbft.type = .prepare then [env] else [] := by
  unfold PbftInstance.pushBack
  cases env.pbft.type <;> simp

theorem pushBack_commitBuf : (pinstance.pushBack env).commitBuf =
    pinstance.commitBuf ++ if env.pbft.type = .commit then [env] else [] := by
  unfold PbftInstance.pushBack
  cases env.pbft.type <;> simp

theorem pushBack_counts : (pinstance.pushBack env).phaseItem = pinstance.phaseItem ∧
    (pinstance.pushBack env).prepares = pinstance.prepares ∧
    (pinstance.pushBack env).commits = pinstance.commits := by
  unfold PbftInstance.pushBack
  cases env.pbft.type <;> exact ⟨rfl, rfl, rfl⟩

/-- The buffer of the phase grows at its end. -/
theorem exists_phaseBuf_pushBack (pinstance : PbftInstance) (env : PbftEnv) :
    ∃ more, (pinstance.pushBack env).phaseBuf = pinstance.phaseBuf ++ more := by
  unfold PbftInstance.phaseBuf
  rw [pushBack_phase]
  cases pinstance.phase with
  | none => exact ⟨_, pushBack_prePrepareBuf⟩
  | preprepared => exact ⟨_, pushBack_prepareBuf⟩
  | prepared => exact ⟨_, pushBack_commitBuf⟩
  | commited => exact ⟨[], rfl⟩

theorem card_senders_append (sender : PbftEnv → ℤ) (buf more : List PbftEnv) :
    (buf.map sender).toFinset.card ≤ ((buf ++ more).map sender).toFinset.card := by
  refine Finset.card_le_card fun replicaId hmem => ?_
  rw [List.map_append, List.toFinset_append]
  exact Finset.mem_union_left _ hmem

theorem card_senders_take (sender : PbftEnv → ℤ) (buf : List PbftEnv) (item : ℕ) :
    ((buf.take item).map sender).toFinset.card ≤ (buf.map sender).toFinset.card := by
  have hle := card_senders_append sender (buf.take item) (buf.drop item)
  rwa [List.take_append_drop] at hle

/-- The next message goes to the end of those that have been taken. -/
theorem take_next {buf : List PbftEnv} {item : ℕ} (hitem : buf[item]? = some env)
    (sender : PbftEnv → ℤ) :
    (buf.take (item + 1)).map sender = (buf.take item).map sender ++ [sender env] := by
  rw [List.take_add_one, hitem, List.map_append]
  rfl

theorem PbftInstance.Gathers.new (now : ℤ) :
    (PbftInstance.new now).Gathers crypto value quorumSize [] where
  prePrepareBuf_eq := rfl
  prepareBuf_eq := rfl
  commitBuf_eq := rfl
  item_le := le_rfl
  proposed hphase := absurd rfl hphase
  counted := ⟨rfl, rfl, rfl⟩

/-- A message that is put into its buffer is not counted yet. -/
theorem PbftInstance.Gathers.pushBack (hgathers : pinstance.Gathers crypto value quorumSize envs)
    (env : PbftEnv) :
    (pinstance.pushBack env).Gathers crypto value quorumSize (envs ++ [env]) where
  prePrepareBuf_eq := by rw [pushBack_prePrepareBuf, ofType_append, hgathers.prePrepareBuf_eq]
  prepareBuf_eq := by rw [pushBack_prepareBuf, ofType_append, hgathers.prepareBuf_eq]
  commitBuf_eq := by rw [pushBack_commitBuf, ofType_append, hgathers.commitBuf_eq]
  item_le := by
    obtain ⟨more, hmore⟩ := exists_phaseBuf_pushBack pinstance env
    rw [hmore, pushBack_counts.1, List.length_append]
    exact hgathers.item_le.trans (Nat.le_add_right _ _)
  proposed hphase := by
    rw [pushBack_phase] at hphase
    rw [pushBack_prePrepareBuf, pushBack_prePrepare]
    exact ⟨List.append_ne_nil_of_left_ne_nil (hgathers.proposed hphase).1 _,
      (hgathers.proposed hphase).2⟩
  counted := by
    obtain ⟨hitem, hprepares, hcommits⟩ := @pushBack_counts pinstance env
    have hcounted := hgathers.counted
    have hle := hgathers.item_le
    unfold PbftInstance.Counted at hcounted ⊢
    unfold PbftInstance.phaseBuf at hle
    rw [pushBack_phase, hitem, hprepares, hcommits]
    cases hphase : pinstance.phase with
    | none =>
        rw [hphase] at hcounted
        exact hcounted
    | preprepared =>
        rw [hphase] at hcounted hle
        dsimp only
        rw [pushBack_prepareBuf, List.take_append_of_le_length hle]
        exact hcounted
    | prepared =>
        rw [hphase] at hcounted hle
        dsimp only
        rw [pushBack_commitBuf, List.take_append_of_le_length hle, pushBack_prepareBuf]
        exact ⟨hcounted.1.trans (card_senders_append _ _ _), hcounted.2⟩
    | commited =>
        rw [hphase] at hcounted
        exact hcounted.elim

/-- The value is taken: the PREPAREs are next. -/
theorem PbftInstance.Gathers.accepted (hgathers : pinstance.Gathers crypto value quorumSize envs)
    (hquorum : 0 < quorumSize) (hphase : pinstance.phase = .none)
    (hbuf : pinstance.prePrepareBuf ≠ []) {prePrepare : PbftPrePrepare}
    (hvalue : prePrepare.value = value ∧ prePrepare.valueDigest = crypto.hash value)
    (checkValueRet : CheckValueResult) :
    (pinstance.accepted prePrepare checkValueRet).Gathers crypto value quorumSize envs ∧
      (pinstance.accepted prePrepare checkValueRet).remaining < pinstance.remaining := by
  have hcounted := hgathers.counted
  unfold PbftInstance.Counted at hcounted
  rw [hphase] at hcounted
  obtain ⟨hitem, hprepares, hcommits⟩ := hcounted
  refine ⟨⟨hgathers.prePrepareBuf_eq, hgathers.prepareBuf_eq, hgathers.commitBuf_eq,
    Nat.zero_le _, fun _ => ⟨hbuf, hvalue⟩, ?_⟩, ?_⟩
  · simp only [PbftInstance.Counted, PbftInstance.accepted, hprepares, hcommits, List.take_zero,
      List.map_nil, List.length_nil]
    exact ⟨.nil, hquorum, trivial⟩
  · have hpos := List.length_pos_iff.mpr hbuf
    simp only [PbftInstance.remaining, PbftInstance.accepted, hphase, hitem]
    omega

/-- Sending a COMMIT sets a clock only. -/
theorem PbftInstance.Gathers.sendCommit (hgathers : pinstance.Gathers crypto value quorumSize envs)
    (now : ℤ) :
    PbftInstance.Gathers crypto value quorumSize envs
      { pinstance with lastCommitSendTime := now } :=
  ⟨hgathers.prePrepareBuf_eq, hgathers.prepareBuf_eq, hgathers.commitBuf_eq, hgathers.item_le,
    hgathers.proposed, hgathers.counted⟩

/-- A PREPARE is taken from the buffer and counted. -/
theorem PbftInstance.Gathers.takePrepare
    (hgathers : pinstance.Gathers crypto value quorumSize envs)
    (hphase : pinstance.phase = .preprepared)
    (hitem : pinstance.prepareBuf[pinstance.phaseItem]? = some env) {pinstance' : PbftInstance}
    (htaken : pinstance' = PbftInstance.withPrepare quorumSize env.pbft.prepare
      { pinstance with phaseItem := pinstance.phaseItem + 1 }) :
    pinstance'.Gathers crypto value quorumSize envs ∧
      pinstance'.remaining < pinstance.remaining := by
  have hcounted := hgathers.counted
  have hproposed := hgathers.proposed (by rw [hphase]; decide)
  unfold PbftInstance.Counted at hcounted
  rw [hphase] at hcounted
  obtain ⟨hkeyed, -, hcommits⟩ := hcounted
  have hlt := (List.getElem?_eq_some_iff.mp hitem).1
  have hkeyed' := hkeyed.insertNew env.pbft.prepare.replicaId env.pbft.prepare
  rw [← take_next hitem fun env => env.pbft.prepare.replicaId] at hkeyed'
  simp only [PbftInstance.withPrepare, hphase, PbftInstancePhase.toNat, Nat.one_lt_ofNat,
    if_true] at htaken
  split_ifs at htaken with hquorum
  · -- the quorum is complete: the COMMITs are next
    subst htaken
    refine ⟨⟨hgathers.prePrepareBuf_eq, hgathers.prepareBuf_eq, hgathers.commitBuf_eq,
      Nat.zero_le _, fun _ => hproposed, ?_, ?_, ?_⟩, ?_⟩
    · rw [hkeyed'.length_eq] at hquorum
      exact hquorum.trans (card_senders_take _ _ _)
    · simp only [hcommits, List.take_zero, List.map_nil]
      exact .nil
    · simp [hcommits]
    · simp only [PbftInstance.remaining, hphase]
      omega
  · subst htaken
    refine ⟨⟨hgathers.prePrepareBuf_eq, hgathers.prepareBuf_eq, hgathers.commitBuf_eq, ?_,
      fun _ => hproposed, ?_⟩, ?_⟩
    · exact hlt
    · simp only [PbftInstance.Counted]
      exact ⟨hkeyed', not_le.mp hquorum, hcommits⟩
    · simp only [PbftInstance.remaining, hphase]
      omega

/-- A COMMIT is taken from the buffer and counted. -/
theorem PbftInstance.Gathers.takeCommit
    (hgathers : pinstance.Gathers crypto value quorumSize envs)
    (hphase : pinstance.phase = .prepared)
    (hitem : pinstance.commitBuf[pinstance.phaseItem]? = some env)
    {commits : List (ℤ × PbftCommit)}
    (hcommits : (pinstance.commits.lookup env.pbft.commit.replicaId).isSome = true ∧
        commits = pinstance.commits ∨
      commits = OrderedMap.insert env.pbft.commit.replicaId env.pbft.commit pinstance.commits) :
    (commits.length < quorumSize + 1 →
      PbftInstance.Gathers crypto value quorumSize envs { pinstance with
        phaseItem := pinstance.phaseItem + 1, commits := commits } ∧
      PbftInstance.remaining { pinstance with
        phaseItem := pinstance.phaseItem + 1, commits := commits } < pinstance.remaining) ∧
      (quorumSize + 1 ≤ commits.length → agreedPhase quorumSize envs = .commited) := by
  have hcounted := hgathers.counted
  have hproposed := hgathers.proposed (by rw [hphase]; decide)
  unfold PbftInstance.Counted at hcounted
  rw [hphase] at hcounted
  obtain ⟨hprepares, hkeyed, -⟩ := hcounted
  have hlt := (List.getElem?_eq_some_iff.mp hitem).1
  have hkeyed' : OrderedMap.KeyedBy ((pinstance.commitBuf.take (pinstance.phaseItem + 1)).map
      fun env => env.pbft.commit.replicaId) commits := by
    rw [take_next hitem]
    rcases hcommits with ⟨hsome, rfl⟩ | rfl
    · refine hkeyed.of_mem ?_
      by_contra hnot
      rw [OrderedMap.lookup_eq_none_iff.mpr hnot] at hsome
      exact absurd hsome (by simp)
    · exact hkeyed.insert _ _
  constructor
  · intro hless
    refine ⟨⟨hgathers.prePrepareBuf_eq, hgathers.prepareBuf_eq, hgathers.commitBuf_eq, ?_,
      fun _ => hproposed, ?_⟩, ?_⟩
    · simp only [PbftInstance.phaseBuf, hphase]
      exact hlt
    · simp only [PbftInstance.Counted, hphase]
      exact ⟨hprepares, hkeyed', hless⟩
    · simp only [PbftInstance.remaining, hphase]
      omega
  · intro hquorum
    rw [agreedPhase_eq_commited_iff, prepareSenders, commitSenders, ← hgathers.prepareBuf_eq,
      ← hgathers.commitBuf_eq]
    refine ⟨?_, hprepares, ?_⟩
    · obtain ⟨proposal, hproposal⟩ := List.exists_mem_of_ne_nil _ hproposed.1
      rw [hgathers.prePrepareBuf_eq, mem_ofType] at hproposal
      exact ⟨proposal, hproposal⟩
    · rw [hkeyed'.length_eq] at hquorum
      exact hquorum.trans (card_senders_take _ _ _)

/-! ## One message -/

namespace PbftState.SameSetting

theorem refl (st : PbftState) : st.SameSetting st :=
  ⟨rfl, rfl, rfl, rfl, rfl⟩

theorem setInstance (hsame : start.SameSetting st) (index : PbftInstanceIndex)
    (pinstance : PbftInstance) : start.SameSetting (st.setInstance index pinstance) :=
  ⟨hsame.lastExeSeq_eq, hsame.validators_eq, hsame.viewNumber_eq, hsame.viewActive_eq,
    hsame.replicaId_eq⟩

theorem sendMessage (hsame : start.SameSetting st) (env : PbftEnv) :
    start.SameSetting (st.sendMessage env) := by
  unfold PbftState.sendMessage
  split
  · exact ⟨hsame.lastExeSeq_eq, hsame.validators_eq, hsame.viewNumber_eq, hsame.viewActive_eq,
      hsame.replicaId_eq⟩
  · exact hsame

theorem quorumSize_eq (hsame : start.SameSetting st) : st.quorumSize = start.quorumSize := by
  rw [PbftState.quorumSize, PbftState.quorumSize, hsame.validators_eq]

theorem isPrimary_eq (hsame : start.SameSetting st) :
    st.isPrimary st.viewNumber = start.isPrimary start.viewNumber := by
  rw [PbftState.isPrimary, PbftState.isPrimary, hsame.validators_eq, hsame.viewNumber_eq,
    hsame.replicaId_eq]

end PbftState.SameSetting

/-- The state of a replica whose instance gathers messages. -/
structure PbftState.Gathering (crypto : Crypto) (index : PbftInstanceIndex) (value : Bytes)
    (start : PbftState) (envs : List PbftEnv) (pinstance : PbftInstance) (st : PbftState) :
    Prop where
  setting : start.SameSetting st
  lookup : st.instances.lookup index = some pinstance
  gathers : pinstance.Gathers crypto value start.quorumSize envs

namespace PbftState.Gathering

/-- The instance is written. -/
theorem set (hsetting : start.SameSetting st)
    (hgathers : pinstance.Gathers crypto value start.quorumSize envs) :
    Gathering crypto index value start envs pinstance (st.setInstance index pinstance) :=
  ⟨hsetting.setInstance index pinstance, lookup_setInstance_self, hgathers⟩

theorem sendMessage (hgathering : Gathering crypto index value start envs pinstance st)
    (env : PbftEnv) : Gathering crypto index value start envs pinstance (st.sendMessage env) := by
  refine ⟨hgathering.setting.sendMessage env, ?_, hgathering.gathers⟩
  rw [sendMessage_instances]
  exact hgathering.lookup

end PbftState.Gathering

/-- A backup takes the value of the first PRE-PREPARE. -/
theorem onPrePrepare_first {pbft : Pbft} (hlookup : st.instances.lookup index = some pinstance)
    (hbackup : st.isPrimary st.viewNumber = false) (hphase : pinstance.phase = .none)
    (hdigest : pbft.prePrepare.valueDigest = crypto.hash pbft.prePrepare.value) :
    (onPrePrepare crypto key pbft index .valid st).1 =
      (st.setInstance index (pinstance.accepted pbft.prePrepare .valid)).sendMessage
        (newPrepare crypto key pbft.prePrepare 1
          (st.setInstance index (pinstance.accepted pbft.prePrepare .valid))) := by
  simp [onPrePrepare, getInstance_of_lookup hlookup, hbackup, hphase, hdigest,
    PbftInstance.accepted]

/-- A backup answers the PRE-PREPARE of a value that it has taken. -/
theorem onPrePrepare_again {pbft : Pbft} (hlookup : st.instances.lookup index = some pinstance)
    (hphase : pinstance.phase ≠ .none) :
    (onPrePrepare crypto key pbft index .valid st).1 = st ∨
      ∃ env, (onPrePrepare crypto key pbft index .valid st).1 = st.sendMessage env := by
  simp only [onPrePrepare, getInstance_of_lookup hlookup]
  split_ifs
  all_goals first
    | exact Or.inl rfl
    | exact Or.inr ⟨_, rfl⟩

/-- Executing keeps a COMMITED instance, or erases it after its turn. -/
theorem tryExecuteLoop_lookup (rest : List (PbftInstanceIndex × PbftInstance)) (st : PbftState)
    (hlookup : st.instances.lookup index = some pinstance ∨
      st.instances.lookup index = none ∧ index.sequence ≤ st.lastExeSeq) :
    (tryExecuteLoop rest st).instances.lookup index = some pinstance ∨
      (tryExecuteLoop rest st).instances.lookup index = none ∧
        index.sequence ≤ (tryExecuteLoop rest st).lastExeSeq := by
  induction rest generalizing st with
  | nil => exact hlookup
  | cons head rest ih =>
      rw [tryExecuteLoop]
      split_ifs with hpassed hnext
      · exact ih st hlookup
      · refine ih _ ?_
        dsimp only [PbftState.keepInstances, PbftState.output]
        rw [OrderedMap.lookup_filter fun other : PbftInstanceIndex =>
          decide (head.1.sequence - ckpInterval / 2 < other.sequence)]
        split
        · rcases hlookup with hsome | ⟨hnone, hle⟩
          · exact Or.inl hsome
          · exact Or.inr ⟨hnone, hle.trans (Int.le_add_one le_rfl)⟩
        · rename_i herased
          have hinterval : (0 : ℤ) ≤ ckpInterval / 2 := by decide
          refine Or.inr ⟨rfl, ?_⟩
          simp only [decide_eq_true_eq, not_lt] at herased
          omega
      · exact hlookup

/-- The instance is moved on by the COMMIT that completes the quorum. -/
theorem tryExecuteValue_commited (hphase : pinstance.phase = .commited) :
    (tryExecuteValue (st.setInstance index pinstance)).Commited index := by
  rcases tryExecuteLoop_lookup (st.setInstance index pinstance).instances _
    (Or.inl lookup_setInstance_self) with hsome | hnone
  · exact Or.inl ⟨pinstance, hsome, hphase⟩
  · exact Or.inr hnone

/-- One round of the loop of `Go`: the next message of the buffer is counted. -/
theorem PbftState.Gathering.round
    (hgathering : Gathering crypto index value start envs pinstance st)
    (hquorum : 0 < start.quorumSize) (hbackup : start.isPrimary start.viewNumber = false)
    (hvalid : ∀ env ∈ envs, env.ValidFor crypto start.validators index value) (now : ℤ)
    (hitem : pinstance.phaseBuf[pinstance.phaseItem]? = some env) {next : PbftState}
    (hnext : next = (onPhaseMessage crypto key env.pbft index .valid now
      (st.setInstance index { pinstance with phaseItem := pinstance.phaseItem + 1 })).1) :
    (∃ pinstance', Gathering crypto index value start envs pinstance' next ∧
        pinstance'.remaining < pinstance.remaining) ∨
      next.Commited index ∧ agreedPhase start.quorumSize envs = .commited := by
  obtain ⟨hsetting, hlookup, hgathers⟩ := hgathering
  set taken : PbftInstance := { pinstance with phaseItem := pinstance.phaseItem + 1 } with htaken
  have hsetting' := hsetting.setInstance index taken
  have hlookup' : (st.setInstance index taken).instances.lookup index = some taken :=
    lookup_setInstance_self
  unfold PbftInstance.phaseBuf at hitem
  cases hphase : pinstance.phase with
  | none =>
      -- the PRE-PREPARE
      rw [hphase] at hitem
      have hmem := List.mem_of_getElem? hitem
      rw [hgathers.prePrepareBuf_eq, mem_ofType] at hmem
      obtain ⟨hvalue, hdigest⟩ := (hvalid env hmem.1).prePrepare hmem.2
      have hbuf : pinstance.prePrepareBuf ≠ [] :=
        List.ne_nil_of_mem (List.mem_of_getElem? hitem)
      obtain ⟨haccepted, hless⟩ := hgathers.accepted hquorum hphase hbuf ⟨hvalue, hdigest⟩ .valid
      rw [onPhaseMessage, hmem.2] at hnext
      dsimp only at hnext
      rw [onPrePrepare_first hlookup' (hsetting'.isPrimary_eq.trans hbackup) hphase
        (hdigest.trans (by rw [hvalue]))] at hnext
      rw [hnext]
      exact Or.inl ⟨_, (PbftState.Gathering.set hsetting' haccepted).sendMessage _, hless⟩
  | preprepared =>
      -- a PREPARE
      rw [hphase] at hitem
      have hmem := List.mem_of_getElem? hitem
      rw [hgathers.prepareBuf_eq, mem_ofType] at hmem
      have hdigest := (hvalid env hmem.1).prepare hmem.2
      have hproposed := hgathers.proposed (by rw [hphase]; decide)
      obtain ⟨hcounted, hless⟩ := hgathers.takePrepare hphase hitem rfl
      rw [onPhaseMessage, hmem.2] at hnext
      dsimp only at hnext
      rw [onPrepare_eq now hlookup', if_neg (not_not.mpr (hproposed.2.2.trans hdigest.symm)),
        hsetting'.quorumSize_eq] at hnext
      dsimp only at hnext
      left
      rw [hnext]
      split
      · exact ⟨_, PbftState.Gathering.sendMessage
          (PbftState.Gathering.set hsetting' (hcounted.sendCommit now)) _, hless⟩
      · exact ⟨_, PbftState.Gathering.set hsetting' hcounted, hless⟩
  | prepared =>
      -- a COMMIT
      rw [hphase] at hitem
      have hmem := List.mem_of_getElem? hitem
      rw [hgathers.commitBuf_eq, mem_ofType] at hmem
      have hdigest := (hvalid env hmem.1).commit hmem.2
      have hproposed := hgathers.proposed (by rw [hphase]; decide)
      have hcounted := hgathers.counted
      rw [PbftInstance.Counted, hphase] at hcounted
      rw [onPhaseMessage, hmem.2] at hnext
      simp only [onCommit, getInstance_of_lookup hlookup', setInstance_setInstance,
        hsetting'.quorumSize_eq] at hnext
      rw [if_neg (not_not.mpr (hproposed.2.2.trans hdigest.symm))] at hnext
      rw [hnext]
      by_cases hseen : (taken.commits.lookup env.pbft.commit.replicaId).isSome = true
      · -- it has been counted before
        rw [if_pos hseen]
        obtain ⟨hgathers', hless⟩ :=
          (hgathers.takeCommit hphase hitem (Or.inl ⟨hseen, rfl⟩)).1 hcounted.2.2
        exact Or.inl ⟨taken, PbftState.Gathering.set hsetting hgathers', hless⟩
      · rw [if_neg hseen]
        obtain ⟨hfew, hmany⟩ := hgathers.takeCommit hphase hitem (Or.inr rfl)
        split
        · rename_i hcomplete
          exact Or.inr ⟨tryExecuteValue_commited rfl, hmany hcomplete.1⟩
        · rename_i hwaiting
          have hless := not_le.mp fun hcomplete => hwaiting ⟨hcomplete, by rw [hphase]; decide⟩
          obtain ⟨hgathers', hless'⟩ := hfew hless
          exact Or.inl ⟨_, PbftState.Gathering.set hsetting hgathers', hless'⟩
  | commited =>
      have hcounted := hgathers.counted
      rw [PbftInstance.Counted, hphase] at hcounted
      exact hcounted.elim

/-- Nothing is left to be taken from the buffer of the phase. -/
def PbftInstance.Exhausted (pinstance : PbftInstance) : Prop :=
  pinstance.phaseItem = pinstance.phaseBuf.length

/-- What is known of the state of a replica between two messages. -/
def PbftState.Rests (crypto : Crypto) (index : PbftInstanceIndex) (value : Bytes)
    (start : PbftState) (envs : List PbftEnv) (st : PbftState) : Prop :=
  (∃ pinstance, Gathering crypto index value start envs pinstance st ∧ pinstance.Exhausted) ∨
    st.Commited index ∧ agreedPhase start.quorumSize envs = .commited

theorem PbftInstance.Gathers.exhausted_of_remaining
    (hgathers : pinstance.Gathers crypto value quorumSize envs) (hzero : pinstance.remaining = 0) :
    pinstance.Exhausted := by
  have hle := hgathers.item_le
  unfold PbftInstance.Exhausted
  unfold PbftInstance.phaseBuf at *
  unfold PbftInstance.remaining at hzero
  cases hphase : pinstance.phase <;> rw [hphase] at hle hzero
  · dsimp only at *
    omega
  · dsimp only at *
    omega
  · dsimp only at *
    omega
  · exact Nat.le_zero.mp hle

/-- A COMMITED instance has nothing in its buffer. -/
theorem goLoop_of_commited (hcommited : st.Commited index) (checkValue : CheckValueResult)
    (now : ℤ) (fuel : ℕ) (doret : Bool) :
    (goLoop crypto key index checkValue now fuel doret st).1 = st := by
  have hbuf : (st.getInstance index).phaseBuf = [] := by
    rcases hcommited with ⟨pinstance, hlookup, hphase⟩ | ⟨hnone, -⟩
    · rw [getInstance_of_lookup hlookup, PbftInstance.phaseBuf, hphase]
    · rw [PbftState.getInstance, hnone]
      rfl
  cases fuel with
  | zero => rfl
  | succ fuel => simp [goLoop, hbuf]

/-- The loop of `Go` goes on until the buffer of the phase is exhausted. -/
theorem goLoop_rests
    (hquorum : 0 < start.quorumSize) (hbackup : start.isPrimary start.viewNumber = false)
    (hvalid : ∀ env ∈ envs, env.ValidFor crypto start.validators index value) (now : ℤ)
    (fuel : ℕ) (doret : Bool) (pinstance : PbftInstance) (st : PbftState)
    (hgathering : PbftState.Gathering crypto index value start envs pinstance st)
    (hfuel : pinstance.remaining ≤ fuel) :
    PbftState.Rests crypto index value start envs
      (goLoop crypto key index .valid now fuel doret st).1 := by
  -- a round takes a message from the buffers, so the fuel is never short
  induction fuel generalizing doret pinstance st with
  | zero =>
      exact Or.inl ⟨pinstance, hgathering,
        hgathering.gathers.exhausted_of_remaining (Nat.le_zero.mp hfuel)⟩
  | succ fuel ih =>
      rw [goLoop, getInstance_of_lookup hgathering.lookup]
      dsimp only
      cases hitem : pinstance.phaseBuf[pinstance.phaseItem]? with
      | none =>
          exact Or.inl ⟨pinstance, hgathering, le_antisymm hgathering.gathers.item_le
            (List.getElem?_eq_none_iff.mp hitem)⟩
      | some env =>
          dsimp only
          rcases hgathering.round hquorum hbackup hvalid now hitem rfl with
            ⟨pinstance', hgathering', hless⟩ | ⟨hcommited, hagreed⟩
          · exact ih _ pinstance' _ hgathering' (by omega)
          · rw [goLoop_of_commited hcommited]
            exact Or.inr ⟨hcommited, hagreed⟩

/-- A message of a phase that has passed does not go into the buffer of the phase. -/
theorem exhausted_pushBack (hexhausted : pinstance.Exhausted)
    (hlate : env.pbft.type.phaseNat < pinstance.phase.toNat) :
    (pinstance.pushBack env).Exhausted := by
  have hbuf : (pinstance.pushBack env).phaseBuf = pinstance.phaseBuf := by
    unfold PbftInstance.phaseBuf
    rw [pushBack_phase]
    cases hphase : pinstance.phase <;> cases htype : env.pbft.type <;>
      simp_all [PbftMessageType.phaseNat, PbftInstancePhase.toNat, pushBack_prepareBuf,
        pushBack_commitBuf]
  rw [PbftInstance.Exhausted, hbuf, pushBack_counts.1]
  exact hexhausted

/-- One more PREPARE changes nothing when there is a quorum. -/
theorem PbftInstance.Gathers.withPrepare_late
    (hgathers : pinstance.Gathers crypto value quorumSize envs)
    (hphase : pinstance.phase = .prepared) (hexhausted : pinstance.Exhausted)
    (prepare : PbftPrepare) :
    (pinstance.withPrepare quorumSize prepare).Gathers crypto value quorumSize envs ∧
      (pinstance.withPrepare quorumSize prepare).Exhausted := by
  have hsame : pinstance.withPrepare quorumSize prepare = { pinstance with
      prepares := OrderedMap.insertNew prepare.replicaId prepare pinstance.prepares } := by
    simp [PbftInstance.withPrepare, hphase]
  have hcounted := hgathers.counted
  rw [PbftInstance.Counted, hphase] at hcounted
  rw [hsame]
  refine ⟨⟨hgathers.prePrepareBuf_eq, hgathers.prepareBuf_eq, hgathers.commitBuf_eq,
    hgathers.item_le, hgathers.proposed, ?_⟩, hexhausted⟩
  simp only [PbftInstance.Counted, hphase]
  exact hcounted

/-- A message of a phase that has passed leaves the phase alone. -/
theorem PbftState.Gathering.late
    (hgathering : Gathering crypto index value start envs pinstance st)
    (hexhausted : pinstance.Exhausted)
    (hvalid : env.ValidFor crypto start.validators index value)
    (hlate : env.pbft.type.phaseNat < pinstance.phase.toNat) (now : ℤ) :
    Rests crypto index value start envs
      (onPhaseMessage crypto key env.pbft index .valid now st).1 := by
  obtain ⟨hsetting, hlookup, hgathers⟩ := hgathering
  have hindex := hvalid.index_eq
  unfold Pbft.index? at hindex
  left
  cases htype : env.pbft.type with
  | preprepare =>
      have hphase : pinstance.phase ≠ .none := by
        intro hnone
        simp [hnone, PbftInstancePhase.toNat] at hlate
      rw [onPhaseMessage, htype]
      dsimp only
      rcases @onPrePrepare_again crypto key st index pinstance env.pbft hlookup hphase with
        heq | ⟨answer, heq⟩
      · rw [heq]
        exact ⟨pinstance, ⟨hsetting, hlookup, hgathers⟩, hexhausted⟩
      · rw [heq]
        exact ⟨pinstance, Gathering.sendMessage ⟨hsetting, hlookup, hgathers⟩ _, hexhausted⟩
  | prepare =>
      have hphase : pinstance.phase = .prepared := by
        have hcounted := hgathers.counted
        cases hcase : pinstance.phase with
        | prepared => rfl
        | commited =>
            rw [PbftInstance.Counted, hcase] at hcounted
            exact hcounted.elim
        | _ => simp [htype, hcase, PbftMessageType.phaseNat, PbftInstancePhase.toNat] at hlate
      have hproposed := hgathers.proposed (by rw [hphase]; decide)
      obtain ⟨hgathers', hexhausted'⟩ :=
        hgathers.withPrepare_late hphase hexhausted env.pbft.prepare
      rw [onPhaseMessage, htype]
      dsimp only
      rw [onPrepare_eq now hlookup,
        if_neg (not_not.mpr (hproposed.2.2.trans (hvalid.prepare htype).symm)),
        hsetting.quorumSize_eq]
      dsimp only
      split
      · exact ⟨_, Gathering.sendMessage (Gathering.set hsetting (hgathers'.sendCommit now)) _,
          hexhausted'⟩
      · exact ⟨_, Gathering.set hsetting hgathers', hexhausted'⟩
  | commit =>
      have hcounted := hgathers.counted
      cases hcase : pinstance.phase with
      | commited =>
          rw [PbftInstance.Counted, hcase] at hcounted
          exact hcounted.elim
      | _ => simp [htype, hcase, PbftMessageType.phaseNat, PbftInstancePhase.toNat] at hlate
  | _ => simp [htype] at hindex

/-! ## All messages -/

/-- A backup in the active view, before the messages of an instance arrive. -/
structure PbftState.Awaits (index : PbftInstanceIndex) (st : PbftState) : Prop where
  backup : st.isPrimary st.viewNumber = false
  quorum : 0 < st.quorumSize
  active : st.viewActive = true
  view : index.viewNumber = st.viewNumber
  last : st.lastExeSeq < index.sequence
  water : index.sequence ≤ st.lastExeSeq + ckpInterval
  fresh : st.instances.lookup index = none

/-- The instance is found or made. -/
theorem PbftState.Awaits.create (hawaits : start.Awaits index) (hsetting : start.SameSetting st)
    {now : ℤ} (hinstance : st.instances.lookup index = some pinstance ∨
      st.instances.lookup index = none ∧ pinstance = .new now) (env : PbftEnv) :
    ∃ st₀, createInstanceIfNotExist env index now st =
      (st₀.setInstance index (pinstance.pushBack env), true) ∧ start.SameSetting st₀ := by
  have hin : st.inWaterMark index.sequence = true := by
    have hlast := hawaits.last
    have hwater := hawaits.water
    simp only [PbftState.inWaterMark, hsetting.lastExeSeq_eq, Bool.and_eq_true, decide_eq_true_eq]
    omega
  have hview : st.viewNumber = index.viewNumber := by rw [hsetting.viewNumber_eq, hawaits.view]
  have hactive : st.viewActive = true := hsetting.viewActive_eq.trans hawaits.active
  have hlast : ¬ index.sequence ≤ st.lastExeSeq := by
    rw [hsetting.lastExeSeq_eq]
    exact not_le.mpr hawaits.last
  simp only [createInstanceIfNotExist, hin, hview, hactive, hlast, not_true, ne_eq, or_self,
    if_false]
  rcases hinstance with hsome | ⟨hnone, rfl⟩
  · rw [hsome, Option.isSome_some, if_pos rfl, getInstance_of_lookup hsome]
    exact ⟨st, rfl, hsetting⟩
  · rw [hnone, Option.isSome_none, if_neg Bool.false_ne_true,
      getInstance_of_lookup (lookup_keepInstances_new st index now)]
    exact ⟨_, rfl, ⟨hsetting.lastExeSeq_eq, hsetting.validators_eq, hsetting.viewNumber_eq,
      hsetting.viewActive_eq, hsetting.replicaId_eq⟩⟩

theorem remaining_le (pinstance : PbftInstance) : pinstance.remaining ≤
    pinstance.prePrepareBuf.length + pinstance.prepareBuf.length + pinstance.commitBuf.length := by
  unfold PbftInstance.remaining
  split <;> omega

/-- A message arrives at an instance that is not COMMITED. -/
theorem PbftState.Awaits.recv (hawaits : start.Awaits index) (hsetting : start.SameSetting st)
    {now : ℤ} (hinstance : st.instances.lookup index = some pinstance ∨
      st.instances.lookup index = none ∧ pinstance = .new now)
    (hgathers : pinstance.Gathers crypto value start.quorumSize envs)
    (hexhausted : pinstance.Exhausted)
    (hvalid : ∀ other ∈ envs ++ [env], other.ValidFor crypto start.validators index value) :
    Rests crypto index value start (envs ++ [env])
      (step crypto key st (.recv env .valid now)) := by
  have henv := hvalid env (List.mem_append_right _ (List.mem_singleton_self env))
  obtain ⟨st₀, hcreate, hsetting₀⟩ := hawaits.create hsetting hinstance env
  have hcheck : checkMessageItem crypto st.validators env = true := by
    rw [hsetting.validators_eq]
    exact henv.check
  have hgathering : Gathering crypto index value start (envs ++ [env]) (pinstance.pushBack env)
      (st₀.setInstance index (pinstance.pushBack env)) :=
    Gathering.set hsetting₀ (hgathers.pushBack env)
  rw [step_recv_found hcheck henv.index_eq hcreate, ite_self, go,
    getInstance_of_lookup hgathering.lookup]
  split
  · rename_i hlate
    have hlate' : env.pbft.type.phaseNat < pinstance.phase.toNat := by
      rwa [pushBack_phase] at hlate
    exact hgathering.late (exhausted_pushBack hexhausted hlate') henv hlate now
  · exact goLoop_rests hawaits.quorum hawaits.backup hvalid now _ _ _ _ hgathering
      (remaining_le _)

theorem onCommit_commited (hlookup : st.instances.lookup index = some pinstance)
    (hphase : pinstance.phase = .commited) (pbft : Pbft) (now : ℤ) :
    (onCommit pbft index now st).1.Commited index := by
  left
  simp only [onCommit, getInstance_of_lookup hlookup, hphase, lt_irrefl, and_false, if_false]
  split_ifs
  · exact ⟨pinstance, hlookup, hphase⟩
  · exact ⟨pinstance, hlookup, hphase⟩
  · exact ⟨_, lookup_setInstance_self, rfl⟩

/-- No handler moves a COMMITED instance back. -/
theorem onPhaseMessage_commited (hlookup : st.instances.lookup index = some pinstance)
    (hphase : pinstance.phase = .commited) (now : ℤ) :
    (onPhaseMessage crypto key env.pbft index .valid now st).1.Commited index := by
  unfold onPhaseMessage
  split
  · left
    rcases @onPrePrepare_again crypto key st index pinstance env.pbft hlookup
      (by rw [hphase]; decide) with heq | ⟨answer, heq⟩
    · rw [heq]
      exact ⟨pinstance, hlookup, hphase⟩
    · rw [heq, sendMessage_instances]
      exact ⟨pinstance, hlookup, hphase⟩
  · have hkept : (pinstance.withPrepare st.quorumSize env.pbft.prepare).phase = .commited := by
      simp [PbftInstance.withPrepare, hphase, PbftInstancePhase.toNat]
    left
    rw [onPrepare_eq now hlookup]
    dsimp only
    split_ifs
    · exact ⟨pinstance, hlookup, hphase⟩
    · rw [sendMessage_instances]
      exact ⟨_, lookup_setInstance_self, hkept⟩
    · exact ⟨_, lookup_setInstance_self, hkept⟩
  · exact onCommit_commited hlookup hphase env.pbft now
  · exact Or.inl ⟨pinstance, hlookup, hphase⟩

theorem traceOutPbftCommit_commited (hlookup : st.instances.lookup index = some pinstance)
    (hphase : pinstance.phase = .commited) (hindex : env.pbft.index? = some index)
    (htype : env.pbft.type = .commit) (now : ℤ) :
    (traceOutPbftCommit env now st).Commited index := by
  unfold Pbft.index? at hindex
  rw [htype] at hindex
  have hkey : (⟨env.pbft.commit.viewNumber, env.pbft.commit.sequence⟩ : PbftInstanceIndex) =
      index := Option.some.inj hindex
  unfold traceOutPbftCommit
  dsimp only
  rw [hkey, hlookup, Option.isSome_some, if_pos rfl]
  exact onCommit_commited hlookup hphase env.pbft now

/-- A COMMITED instance stays COMMITED, whatever arrives. -/
theorem PbftState.Commited.recv (hcommited : st.Commited index)
    (hindex : env.pbft.index? = some index) (now : ℤ) :
    (step crypto key st (.recv env .valid now)).Commited index := by
  rw [step, onRecv]
  by_cases hcheck : checkMessageItem crypto st.validators env = true
  swap
  · rw [if_pos hcheck]
    exact hcommited
  rw [if_neg (not_not.mpr hcheck), hindex]
  dsimp only
  rw [ite_self]
  rcases hcommited with ⟨pinstance, hlookup, hphase⟩ | ⟨hnone, hdone⟩
  · -- the instance is there: the message is dropped, counted as a stray, or too late
    have hstays : st.Commited index := Or.inl ⟨pinstance, hlookup, hphase⟩
    have hcreate : (createInstanceIfNotExist env index now st).2 = false ∧
          (createInstanceIfNotExist env index now st).1.Commited index ∨
        createInstanceIfNotExist env index now st =
          (st.setInstance index (pinstance.pushBack env), true) := by
      simp only [createInstanceIfNotExist, hlookup, Option.isSome_some, if_true,
        getInstance_of_lookup hlookup]
      split_ifs with _ hstray
      · exact Or.inl ⟨rfl, traceOutPbftCommit_commited hlookup hphase hindex hstray.2 now⟩
      · exact Or.inl ⟨rfl, hstays⟩
      · exact Or.inl ⟨rfl, hstays⟩
      · exact Or.inr rfl
      · exact Or.inl ⟨rfl, hstays⟩
    rcases hcreate with ⟨hlost, hcreated⟩ | hfound
    · rw [hlost, if_neg Bool.false_ne_true]
      exact hcreated
    · rw [hfound]
      have hlate : env.pbft.type.phaseNat < (pinstance.pushBack env).phase.toNat := by
        rw [pushBack_phase, hphase]
        cases env.pbft.type <;> simp [PbftMessageType.phaseNat, PbftInstancePhase.toNat]
      simp only [if_true, go, getInstance_of_lookup lookup_setInstance_self, hlate]
      exact onPhaseMessage_commited lookup_setInstance_self (pushBack_phase.trans hphase) now
  · have hdropped : createInstanceIfNotExist env index now st = (st, false) := by
      simp only [createInstanceIfNotExist, not_lt.mpr hdone, false_and, if_false, hdone, if_true,
        ite_self]
    rw [hdropped]
    exact Or.inr ⟨hnone, hdone⟩

/-- What one message does between two states at rest. -/
theorem PbftState.Rests.recv (hawaits : start.Awaits index)
    (hvalid : ∀ other ∈ envs ++ [env], other.ValidFor crypto start.validators index value)
    (hrests : Rests crypto index value start envs st) (now : ℤ) :
    Rests crypto index value start (envs ++ [env])
      (step crypto key st (.recv env .valid now)) := by
  rcases hrests with ⟨pinstance, hgathering, hexhausted⟩ | ⟨hcommited, hagreed⟩
  · exact hawaits.recv hgathering.setting (Or.inl hgathering.lookup) hgathering.gathers hexhausted
      hvalid
  · have henv := hvalid env (List.mem_append_right _ (List.mem_singleton_self env))
    exact Or.inr ⟨hcommited.recv henv.index_eq now, agreedPhase_append hagreed env⟩

theorem deliverAll_concat (deliveries : List (PbftEnv × ℤ)) (delivery : PbftEnv × ℤ) :
    deliverAll crypto key (deliveries ++ [delivery]) st =
      step crypto key (deliverAll crypto key deliveries st)
        (.recv delivery.1 .valid delivery.2) := by
  simp [deliverAll]

theorem rests_deliverAll (hawaits : start.Awaits index) {deliveries : List (PbftEnv × ℤ)}
    (hne : deliveries ≠ [])
    (hvalid : ∀ env ∈ deliveries.map Prod.fst, env.ValidFor crypto start.validators index value) :
    PbftState.Rests crypto index value start (deliveries.map Prod.fst)
      (deliverAll crypto key deliveries start) := by
  induction deliveries using List.reverseRecOn with
  | nil => exact absurd rfl hne
  | append_singleton deliveries delivery ih =>
      rw [List.map_append, List.map_singleton] at hvalid ⊢
      rw [deliverAll_concat]
      by_cases hnil : deliveries = []
      · -- the first message makes the instance
        subst hnil
        exact hawaits.recv (.refl start) (Or.inr ⟨hawaits.fresh, rfl⟩) (.new _) rfl hvalid
      · exact (ih hnil fun env henv => hvalid env (List.mem_append_left _ henv)).recv hawaits
          hvalid delivery.2

/-- An instance that has exhausted its buffer is in the phase of its messages. -/
theorem PbftInstance.Gathers.phase_eq (hgathers : pinstance.Gathers crypto value quorumSize envs)
    (hexhausted : pinstance.Exhausted) : pinstance.phase = agreedPhase quorumSize envs := by
  have hcounted := hgathers.counted
  unfold PbftInstance.Counted at hcounted
  unfold PbftInstance.Exhausted PbftInstance.phaseBuf at hexhausted
  unfold agreedPhase prepareSenders commitSenders
  rw [← hgathers.prePrepareBuf_eq, ← hgathers.prepareBuf_eq, ← hgathers.commitBuf_eq]
  cases hphase : pinstance.phase with
  | none =>
      rw [hphase] at hcounted hexhausted
      rw [if_pos (List.length_eq_zero_iff.mp (hexhausted.symm.trans hcounted.1))]
  | preprepared =>
      rw [hphase] at hcounted hexhausted
      have hproposed := (hgathers.proposed (by rw [hphase]; decide)).1
      have hless := hcounted.2.1
      rw [hcounted.1.length_eq, hexhausted, List.take_length] at hless
      rw [if_neg hproposed, if_pos hless]
  | prepared =>
      rw [hphase] at hcounted hexhausted
      have hproposed := (hgathers.proposed (by rw [hphase]; decide)).1
      have hless := hcounted.2.2
      rw [hcounted.2.1.length_eq, hexhausted, List.take_length] at hless
      rw [if_neg hproposed, if_neg (not_lt.mpr hcounted.1), if_pos hless]
  | commited =>
      rw [hphase] at hcounted
      exact hcounted.elim

/-- **The phase is a function of the set of messages.** -/
theorem phaseAt_deliverAll (hawaits : start.Awaits index) (deliveries : List (PbftEnv × ℤ))
    (hvalid : ∀ env ∈ deliveries.map Prod.fst, env.ValidFor crypto start.validators index value) :
    (deliverAll crypto key deliveries start).phaseAt index =
      agreedPhase start.quorumSize (deliveries.map Prod.fst) := by
  by_cases hnil : deliveries = []
  · subst hnil
    have hphase : (start.getInstance index).phase = .none := by
      rw [PbftState.getInstance, hawaits.fresh]
      rfl
    rw [PbftState.phaseAt, deliverAll, List.map_nil, List.foldl_nil,
      if_neg (not_le.mpr hawaits.last), hphase]
    rfl
  · rcases @rests_deliverAll crypto key start index value hawaits deliveries hnil hvalid with
      ⟨pinstance, ⟨hsetting, hlookup, hgathers⟩, hexhausted⟩ | ⟨hcommited, hagreed⟩
    · rw [PbftState.phaseAt, hsetting.lastExeSeq_eq, if_neg (not_le.mpr hawaits.last),
        getInstance_of_lookup hlookup]
      exact hgathers.phase_eq hexhausted
    · rw [hagreed, PbftState.phaseAt]
      rcases hcommited with ⟨pinstance, hlookup, hphase⟩ | ⟨-, hdone⟩
      · rw [getInstance_of_lookup hlookup, hphase, ite_self]
      · rw [if_pos hdone]

/-! ## Backups -/

theorem getQuorumSize_pos {size : ℕ} (hsize : size ≠ 1) : 0 < getQuorumSize size := by
  unfold getQuorumSize
  split_ifs with hzero htwo
  · decide
  · exact Nat.one_pos
  · dsimp only
    split_ifs <;> omega

/-- Telling the validators one by one keeps the ones that are there, and adds the others. -/
theorem ValidatorMap.foldl_keeps (rest : List (Bytes × ℕ)) (map : ValidatorMap) :
    let result := rest.foldl (fun map entry =>
      if (map.lookup entry.1).isSome then map else map ++ [(entry.1, (entry.2 : ℤ))]) map
    map <+: result ∧ ∀ a ∈ rest.map Prod.fst, a ∈ result.map Prod.fst := by
  induction rest generalizing map with
  | nil => exact ⟨List.prefix_rfl, by simp⟩
  | cons entry rest ih =>
      rw [List.foldl_cons]
      set next := if (map.lookup entry.1).isSome then map
        else map ++ [(entry.1, (entry.2 : ℤ))] with hnext
      have hstep : map <+: next ∧ entry.1 ∈ next.map Prod.fst := by
        by_cases hsome : (map.lookup entry.1).isSome = true
        · obtain ⟨found, hfound⟩ := Option.isSome_iff_exists.mp hsome
          rw [hnext, if_pos hsome]
          exact ⟨List.prefix_rfl, List.mem_map_of_mem (OrderedMap.mem_of_lookup hfound)⟩
        · rw [hnext, if_neg hsome]
          exact ⟨List.prefix_append _ _, by simp⟩
      obtain ⟨hkept, hmem⟩ := ih next
      refine ⟨hstep.1.trans hkept, fun a ha => ?_⟩
      rcases List.mem_cons.mp ha with rfl | ha
      · exact (hkept.map Prod.fst).subset hstep.2
      · exact hmem a ha

/-- A single validator is the primary of every view, so a backup has a quorum of others. -/
theorem quorumSize_pos_of_backup {validators : List Bytes}
    (hconf : st.Configured crypto key validators) (hvalidator : st.isValidator = true)
    (hbackup : st.isPrimary st.viewNumber = false) : 0 < st.quorumSize := by
  refine getQuorumSize_pos fun hone => ?_
  have hmem : crypto.encAddress key.encPublicKey ∈ validators :=
    of_decide_eq_true (hconf.isValidator_eq.symm.trans hvalidator)
  have hzero : st.replicaId = 0 := by
    cases validators with
    | nil => exact absurd hmem List.not_mem_nil
    | cons first rest =>
        -- the first validator has index 0, and there is no other
        obtain ⟨⟨more, hmore⟩, hall⟩ :=
          ValidatorMap.foldl_keeps (rest.zipIdx 1) [(first, (0 : ℤ))]
        have hset : ValidatorMap.ofSet (first :: rest) = (first, (0 : ℤ)) :: more := hmore.symm
        rw [hconf.validators_eq, hset, List.length_cons, Nat.add_eq_right,
          List.length_eq_zero_iff] at hone
        rw [hone] at hset hmore
        have hfirst : crypto.encAddress key.encPublicKey = first := by
          rcases List.mem_cons.mp hmem with heq | hrest
          · exact heq
          · have hkey := hall _ (by rwa [List.zipIdx_map_fst])
            rw [← hmore] at hkey
            simpa using hkey
        rw [hconf.replicaId_eq, hset, hfirst]
        simp [getValidatorIndex]
  rw [PbftState.isPrimary, hzero, primaryOf, hone, Nat.cast_one, Int.emod_one] at hbackup
  exact absurd hbackup (by decide)

theorem run_configured (validators : List Bytes) (events : List Event) :
    ∃ told, (run crypto key validators events).Configured crypto key told := by
  induction events using List.reverseRecOn with
  | nil => exact ⟨validators, initialState_configured⟩
  | append_singleton events event ih =>
      rw [run, List.foldl_concat]
      have hmoves := @step_moves_told crypto key _ event
        (@run_typed crypto key validators events)
      rcases told_cases event with heq | ⟨told, heq⟩
      · rw [heq] at hmoves
        exact ih.imp fun _ hconf => hmoves.configured hconf
      · rw [heq] at hmoves
        exact ⟨told, hmoves.configured ⟨rfl, rfl, rfl⟩⟩

/-- **The order of the messages does not matter.**  A backup that is in an active view and has no
instance at a sequence inside of the watermark receives the same set of valid messages for a
value, in two orders and with repetitions.  The instance ends in the same phase, and it is
COMMITED exactly when the PRE-PREPARE, a quorum of PREPAREs and one more than a quorum of COMMITs
are among them. -/
theorem phase_order_independent (crypto : Crypto) (key : PrivateKey) (validators : List Bytes)
    (events : List Event) (index : PbftInstanceIndex) (value : Bytes)
    (deliveries deliveries' : List (PbftEnv × ℤ)) (st : PbftState)
    (hst : st = run crypto key validators events) (hvalidator : st.isValidator = true)
    (hbackup : st.isPrimary st.viewNumber = false) (hactive : st.viewActive = true)
    (hview : index.viewNumber = st.viewNumber) (hlast : st.lastExeSeq < index.sequence)
    (hwater : index.sequence ≤ st.lastExeSeq + ckpInterval)
    (hfresh : st.instances.lookup index = none)
    (hvalid : ∀ env ∈ deliveries.map Prod.fst, env.ValidFor crypto st.validators index value)
    (hsame : ∀ env, env ∈ deliveries.map Prod.fst ↔ env ∈ deliveries'.map Prod.fst) :
    (deliverAll crypto key deliveries st).phaseAt index =
        (deliverAll crypto key deliveries' st).phaseAt index ∧
      ((deliverAll crypto key deliveries st).phaseAt index = .commited ↔
        (∃ env ∈ deliveries.map Prod.fst, env.pbft.type = .preprepare) ∧
          st.quorumSize ≤ (prepareSenders (deliveries.map Prod.fst)).card ∧
          st.quorumSize + 1 ≤ (commitSenders (deliveries.map Prod.fst)).card) := by
  obtain ⟨told, hconf⟩ := @run_configured crypto key validators events
  rw [← hst] at hconf
  have hawaits : st.Awaits index :=
    ⟨hbackup, quorumSize_pos_of_backup hconf hvalidator hbackup, hactive, hview, hlast, hwater,
      hfresh⟩
  have hvalid' : ∀ env ∈ deliveries'.map Prod.fst,
      env.ValidFor crypto st.validators index value := fun env henv =>
    hvalid env ((hsame env).mpr henv)
  rw [phaseAt_deliverAll hawaits deliveries hvalid, phaseAt_deliverAll hawaits deliveries' hvalid']
  exact ⟨agreedPhase_congr hsame st.quorumSize, agreedPhase_eq_commited_iff⟩

end Delivery

instance (crypto : Crypto) (validators : ValidatorMap) (index : PbftInstanceIndex)
    (value : Bytes) (env : PbftEnv) : Decidable (env.ValidFor crypto validators index value) :=
  decidable_of_iff
    (checkMessageItem crypto validators env = true ∧ env.pbft.index? = some index ∧
      (env.pbft.type = .preprepare →
        env.pbft.prePrepare.value = value ∧ env.pbft.prePrepare.valueDigest = crypto.hash value) ∧
      (env.pbft.type = .prepare → env.pbft.prepare.valueDigest = crypto.hash value) ∧
      (env.pbft.type = .commit → env.pbft.commit.valueDigest = crypto.hash value))
    ⟨fun ⟨hcheck, hindex, hpre, hprepare, hcommit⟩ => ⟨hcheck, hindex, hpre, hprepare, hcommit⟩,
      fun h => ⟨h.check, h.index_eq, h.prePrepare, h.prepare, h.commit⟩⟩

open Sample in
/-- Replica 2 agrees on the value of the primary, also when the messages come backwards first. -/
theorem phase_backwards :
    let deliveries : List (PbftEnv × ℤ) := [(proposal 0 0 [7], 0), (prepareFor 2 0 [7], 1),
      (prepareFor 3 0 [7], 2), (commitFor 1 0 [7], 3), (commitFor 2 0 [7], 4),
      (commitFor 3 0 [7], 5)]
    (deliverAll Sample.crypto (Sample.key 2) deliveries (replica 2)).phaseAt ⟨0, 2⟩ = .commited ∧
      (deliverAll Sample.crypto (Sample.key 2) (deliveries.reverse ++ deliveries)
        (replica 2)).phaseAt ⟨0, 2⟩ = .commited := by
  intro deliveries
  have hsame : ∀ env, env ∈ deliveries.map Prod.fst ↔
      env ∈ (deliveries.reverse ++ deliveries).map Prod.fst := by
    intro env
    simp
  obtain ⟨heq, hiff⟩ := phase_order_independent Sample.crypto (Sample.key 2) Sample.validators []
    ⟨0, 2⟩ [7] deliveries (deliveries.reverse ++ deliveries) (replica 2) rfl (by decide)
    (by decide) (by decide) (by decide) (by decide) (by decide) (by decide) (by decide +kernel)
    hsame
  have hcommited := hiff.mpr (by decide +kernel)
  exact ⟨hcommited, heq.symm.trans hcommited⟩

end CegChain
