import CegChain.Consensus.Message
import CegChain.Lib.OrderedMap
import CegChain.Lib.Quorum
import Mathlib.Data.List.Nodup

/-!
# Checking messages

The checks of `consensus/bft.cpp` that look at messages alone: the quorum size,
`CheckMessageItem` with `CheckViewChangeWithRawValue`, which call each other on
nested envelopes, and `CheckProof`.

An envelope is accepted when the sub-message selected by its type is there and
names the index of the key that signed the envelope.  Whatever else the envelope
carries is not looked at.
-/

namespace CegChain

/-- What the consensus takes from the keys, the hash and the serialisation. -/
structure Crypto where
  /-- `General::GetSelfChainId`. -/
  selfChainId : ℤ
  /-- `PublicKey(public_key).GetEncAddress()`. -/
  encAddress : Bytes → Bytes
  /-- `PublicKey::Verify(pbft.SerializeAsString(), sign_data, public_key)`. -/
  verify : Pbft → Bytes → Bytes → Bool
  /-- `HashWrapper::Crypto`. -/
  hash : Bytes → Bytes
  /-- `PbftProof::SerializeAsString`. -/
  serializeProof : PbftProof → Bytes
  /-- `PbftProof::ParseFromString`. -/
  parseProof : Bytes → Option PbftProof

/-! ## Validators -/

/-- `ValidatorMap`: addresses with their index. -/
abbrev ValidatorMap := List (Bytes × ℤ)

namespace ValidatorMap

/-- The map that `CheckProof` and `Consensus::UpdateValidators` build from a
validator set: `insert` keeps the first index of an address, the counter moves on. -/
def ofSet (validators : List Bytes) : ValidatorMap :=
  validators.zipIdx.foldl (fun map entry =>
    if (map.lookup entry.1).isSome then map else map ++ [(entry.1, (entry.2 : ℤ))]) []

/-- `validators.erase(address)`. -/
def erase (address : Bytes) (validators : ValidatorMap) : ValidatorMap :=
  validators.filter fun entry => entry.1 ≠ address

end ValidatorMap

/-- `Consensus::GetValidatorIndex`. -/
def getValidatorIndex (nodeAddress : Bytes) (validators : ValidatorMap) : ℤ :=
  (validators.lookup nodeAddress).getD (-1)

/-- `Pbft::GetQuorumSize(size)`. -/
def getQuorumSize (size : ℕ) : ℕ :=
  if size = 0 then
    -- `size - 1` wraps around to `2 ^ 64 - 1`, and `3 * fault_number + 1` to 0
    2 * ((2 ^ 64 - 1) / 3)
  else if size = 1 then 0
  else if size = 2 ∨ size = 3 then 1
  else
    let faultNumber := (size - 1) / 3
    if size = 3 * faultNumber + 1 then 2 * faultNumber
    else if size = 3 * faultNumber + 2 then 2 * faultNumber + 1
    else if size = 3 * faultNumber + 3 then 2 * faultNumber + 1
    else size

/-- `view_number % validators.size()`, computed in unsigned 64-bit arithmetic: the
index of the primary of a view. -/
def primaryOf (size : ℕ) (viewNumber : ℤ) : ℤ :=
  viewNumber % 2 ^ 64 % size

/-! ## Envelopes -/

section Check

variable (crypto : Crypto)

/-- The address that an envelope claims as its signer. -/
def PbftEnv.address (env : PbftEnv) : Bytes :=
  crypto.encAddress env.signature.publicKey

/-- The tests of `CheckMessageItem` around the switch over the type: the chain, the
signer among the validators, its index equal to `replicaId`, the signature. -/
def checkSender (validators : ValidatorMap) (pbft : Pbft) (sig : Signature) (replicaId : ℤ) :
    Bool :=
  let shouldReplicaId := getValidatorIndex (crypto.encAddress sig.publicKey) validators
  pbft.chainId == crypto.selfChainId && decide (0 ≤ shouldReplicaId) &&
    replicaId == shouldReplicaId && crypto.verify pbft sig.signData sig.publicKey

variable (validators : ValidatorMap)

mutual

/-- `Pbft::CheckMessageItem(env, validators)`. -/
def checkMessageItem : PbftEnv → Bool
  | ⟨⟨round, type, prePrepare?, prepare?, commit?, viewChange?, newView?, raw?, chain⟩, sig⟩ =>
      let pbft : Pbft :=
        ⟨round, type, prePrepare?, prepare?, commit?, viewChange?, newView?, raw?, chain⟩
      match type with
      | .preprepare => prePrepare?.any fun m => checkSender crypto validators pbft sig m.replicaId
      | .prepare => prepare?.any fun m => checkSender crypto validators pbft sig m.replicaId
      | .commit => commit?.any fun m => checkSender crypto validators pbft sig m.replicaId
      | .viewchange => viewChange?.any fun m => checkSender crypto validators pbft sig m.replicaId
      | .viewchangWithRawvalue =>
          match raw? with
          | none => false
          | some raw => checkViewChangeWithRawValue raw &&
              checkSender crypto validators pbft sig raw.viewChangeEnv.pbft.viewChange.replicaId
      | .newview => newView?.any fun m => checkSender crypto validators pbft sig m.replicaId
      | .unknown _ => false

/-- `Pbft::CheckViewChangeWithRawValue`. -/
def checkViewChangeWithRawValue : PbftViewChangeWithRawValue → Bool
  | ⟨none, _⟩ => false
  | ⟨some viewChangeEnv, preparedSet?⟩ =>
      viewChangeEnv.pbft.type == .viewchange && checkMessageItem viewChangeEnv &&
        let pValueDigest := viewChangeEnv.pbft.viewChange.prepredValueDigest
        match preparedSet? with
        | none => pValueDigest == []
        -- an absent envelope reads as the default one, which has no pre-prepare message
        | some ⟨none, _⟩ => false
        | some ⟨some prePrepareEnv, prepares⟩ =>
            let prePrepare := prePrepareEnv.pbft.prePrepare
            let replicaIds := (prepares.map fun env => env.pbft.prepare.replicaId).toFinset
            checkMessageItem prePrepareEnv && checkPrepares prePrepare prepares &&
              decide (getQuorumSize validators.length ≤ replicaIds.card) &&
              pValueDigest == prePrepare.valueDigest

/-- The loop of `CheckViewChangeWithRawValue` over the prepare envelopes. -/
def checkPrepares (prePrepare : PbftPrePrepare) : List PbftEnv → Bool
  | [] => true
  | prepareEnv :: prepares =>
      let prepare := prepareEnv.pbft.prepare
      checkMessageItem prepareEnv && prepare.viewNumber == prePrepare.viewNumber &&
        prepare.sequence == prePrepare.sequence && prepare.valueDigest == prePrepare.valueDigest &&
        checkPrepares prePrepare prepares

end

/-- The loop of `Pbft::CheckProof`, which erases every validator it has counted from
the map the next envelopes are checked against. -/
def checkCommits (previousValueHash : Bytes) :
    List PbftEnv → ValidatorMap → Option ValidatorMap
  | [], tempVs => some tempVs
  | env :: commits, tempVs =>
      if checkMessageItem crypto tempVs env && env.pbft.type == .commit &&
          env.pbft.commit?.isSome && env.pbft.commit.valueDigest == previousValueHash &&
          (tempVs.lookup (env.address crypto)).isSome then
        checkCommits previousValueHash commits (tempVs.erase (env.address crypto))
      else none

/-- `Pbft::CheckProof`. -/
def checkProof (validators : List Bytes) (previousValueHash proof : Bytes) : Bool :=
  let tempVs := ValidatorMap.ofSet validators
  let totalSize := tempVs.length
  let qsize := getQuorumSize tempVs.length + 1
  match crypto.parseProof proof with
  | none => false
  | some pbftEvidence =>
      match checkCommits crypto previousValueHash pbftEvidence.commits tempVs with
      | none => false
      | some left => decide (qsize ≤ totalSize - left.length)

end Check

/-! ## Validators and quorums -/

namespace ValidatorMap

theorem foldl_insert_eq (rest : List (Bytes × ℕ)) (map : ValidatorMap)
    (hnodup : (rest.map Prod.fst).Nodup) (hnew : ∀ a ∈ rest.map Prod.fst, map.lookup a = none) :
    rest.foldl (fun map entry =>
      if (map.lookup entry.1).isSome then map else map ++ [(entry.1, (entry.2 : ℤ))]) map =
      map ++ rest.map fun entry => (entry.1, (entry.2 : ℤ)) := by
  induction rest generalizing map with
  | nil => simp
  | cons entry rest ih =>
      rw [List.map_cons, List.nodup_cons] at hnodup
      have hentry : map.lookup entry.1 = none := hnew entry.1 (by simp)
      rw [List.foldl_cons, hentry, if_neg (by simp), ih _ hnodup.2, List.append_assoc]
      · rfl
      · intro a ha
        have hne : a ≠ entry.1 := fun heq => hnodup.1 (heq ▸ ha)
        rw [List.lookup_append, hnew a (by simp [ha]), List.lookup_cons, beq_false_of_ne hne]
        rfl

variable {validators : List Bytes}

theorem ofSet_eq (hnodup : validators.Nodup) :
    ofSet validators = validators.zipIdx.map fun entry => (entry.1, (entry.2 : ℤ)) := by
  unfold ofSet
  rw [foldl_insert_eq, List.nil_append]
  · rwa [List.zipIdx_map_fst]
  · intro a _
    rfl

theorem map_fst_ofSet (hnodup : validators.Nodup) :
    (ofSet validators).map Prod.fst = validators := by
  rw [ofSet_eq hnodup, List.map_map]
  exact List.zipIdx_map_fst _ _

theorem length_ofSet (hnodup : validators.Nodup) :
    (ofSet validators).length = validators.length := by
  rw [ofSet_eq hnodup, List.length_map, List.length_zipIdx]

theorem lookup_ofSet (hnodup : validators.Nodup) {a : Bytes} {index : ℤ} :
    (ofSet validators).lookup a = some index ↔ ∃ i : ℕ, index = i ∧ validators[i]? = some a := by
  rw [OrderedMap.lookup_eq_some_iff (by rwa [map_fst_ofSet hnodup]), ofSet_eq hnodup, List.mem_map]
  constructor
  · rintro ⟨⟨b, i⟩, hmem, heq⟩
    obtain ⟨rfl, rfl⟩ := Prod.mk.inj heq
    exact ⟨i, rfl, List.mem_zipIdx_iff_getElem?.mp hmem⟩
  · rintro ⟨i, rfl, hi⟩
    exact ⟨(a, i), List.mem_zipIdx_iff_getElem?.mpr hi, rfl⟩

/-- Entries that are added with new keys and growing indices keep keys and indices apart. -/
theorem nodup_foldl_insert (rest : List Bytes) (next : ℕ) (map : ValidatorMap)
    (hkeys : (map.map Prod.fst).Nodup) (hindices : (map.map Prod.snd).Nodup)
    (hlt : ∀ index ∈ map.map Prod.snd, index < (next : ℤ)) :
    let result := (rest.zipIdx next).foldl (fun map entry =>
      if (map.lookup entry.1).isSome then map else map ++ [(entry.1, (entry.2 : ℤ))]) map
    (result.map Prod.fst).Nodup ∧ (result.map Prod.snd).Nodup := by
  induction rest generalizing next map with
  | nil => exact ⟨hkeys, hindices⟩
  | cons a rest ih =>
      rw [List.zipIdx_cons, List.foldl_cons]
      split
      · exact ih (next + 1) map hkeys hindices fun index hindex => by
          have := hlt index hindex
          push_cast
          omega
      · rename_i hnew
        have hnot : a ∉ map.map Prod.fst := by
          rw [← OrderedMap.lookup_eq_none_iff]
          exact Option.not_isSome_iff_eq_none.mp hnew
        have hfresh : (next : ℤ) ∉ map.map Prod.snd := fun hmem => lt_irrefl _ (hlt _ hmem)
        refine ih (next + 1) _ ?_ ?_ ?_
        · rw [List.map_append, List.map_singleton, ← List.concat_eq_append]
          exact hkeys.concat hnot
        · rw [List.map_append, List.map_singleton, ← List.concat_eq_append]
          exact hindices.concat hfresh
        · intro index hindex
          rw [List.map_append, List.mem_append] at hindex
          push_cast
          rcases hindex with hindex | hindex
          · have := hlt index hindex
            omega
          · simp only [List.map_cons, List.map_nil, List.mem_singleton] at hindex
            omega

theorem nodup_ofSet (validators : List Bytes) :
    ((ofSet validators).map Prod.fst).Nodup ∧ ((ofSet validators).map Prod.snd).Nodup :=
  nodup_foldl_insert validators 0 [] List.nodup_nil List.nodup_nil (by simp)

/-- Two validators with the same index are one. -/
theorem eq_of_lookup {a b : Bytes} {index : ℤ}
    (ha : (ofSet validators).lookup a = some index)
    (hb : (ofSet validators).lookup b = some index) : a = b := by
  have hindices := (nodup_ofSet validators).2
  exact (Prod.mk.inj (List.inj_on_of_nodup_map hindices (OrderedMap.mem_of_lookup ha)
    (OrderedMap.mem_of_lookup hb) rfl)).1

end ValidatorMap

/-- The number of faulty validators the protocol tolerates. -/
def faultNumber (size : ℕ) : ℕ :=
  (size - 1) / 3

/-- Two quorums have more than `faultNumber` validators in common. -/
theorem add_faultNumber_lt_two_mul_quorum (size : ℕ) :
    size + faultNumber size < 2 * (getQuorumSize size + 1) := by
  simp only [getQuorumSize, faultNumber]
  split_ifs <;> omega

theorem faultNumber_le_quorum (size : ℕ) : faultNumber size ≤ getQuorumSize size := by
  simp only [getQuorumSize, faultNumber]
  split_ifs <;> omega

/-- The validators that are not faulty are a quorum. -/
theorem quorum_le_sub_faultNumber {size : ℕ} (hsize : size ≠ 0) :
    getQuorumSize size + 1 ≤ size - faultNumber size := by
  simp only [getQuorumSize, faultNumber]
  split_ifs <;> omega

/-! ## What an accepted envelope says -/

/-- The replica id that `CheckMessageItem` compares with the index of the signer. -/
def Pbft.replicaId? (pbft : Pbft) : Option ℤ :=
  match pbft.type with
  | .preprepare => pbft.prePrepare?.map PbftPrePrepare.replicaId
  | .prepare => pbft.prepare?.map PbftPrepare.replicaId
  | .commit => pbft.commit?.map PbftCommit.replicaId
  | .viewchange => pbft.viewChange?.map PbftViewChange.replicaId
  | .viewchangWithRawvalue =>
      pbft.viewChangeWithRawvalue?.map fun raw => raw.viewChangeEnv.pbft.viewChange.replicaId
  | .newview => pbft.newView?.map PbftNewView.replicaId
  | .unknown _ => none

section Spec

variable {crypto : Crypto} {validators : ValidatorMap} {env : PbftEnv}

theorem checkSender_iff {pbft : Pbft} {sig : Signature} {replicaId : ℤ} :
    checkSender crypto validators pbft sig replicaId = true ↔
      pbft.chainId = crypto.selfChainId ∧ 0 ≤ replicaId ∧
        validators.lookup (crypto.encAddress sig.publicKey) = some replicaId ∧
        crypto.verify pbft sig.signData sig.publicKey = true := by
  unfold checkSender getValidatorIndex
  cases hlookup : validators.lookup (crypto.encAddress sig.publicKey) with
  | none => simp
  | some index =>
      simp only [Option.getD_some, Bool.and_eq_true, beq_iff_eq, decide_eq_true_eq,
        Option.some.injEq]
      constructor
      · rintro ⟨⟨⟨hchain, hindex⟩, rfl⟩, hverify⟩
        exact ⟨hchain, hindex, rfl, hverify⟩
      · rintro ⟨hchain, hindex, rfl, hverify⟩
        exact ⟨⟨⟨hchain, hindex⟩, rfl⟩, hverify⟩

/-- Only a view change with its raw value is checked beyond its signer. -/
theorem checkMessageItem_of_ne (htype : env.pbft.type ≠ .viewchangWithRawvalue) :
    checkMessageItem crypto validators env =
      env.pbft.replicaId?.any (checkSender crypto validators env.pbft env.signature) := by
  obtain ⟨⟨round, type, prePrepare?, prepare?, commit?, viewChange?, newView?, raw?, chain⟩, sig⟩ :=
    env
  cases type with
  | viewchangWithRawvalue => exact absurd rfl htype
  | preprepare => cases prePrepare? <;> rfl
  | prepare => cases prepare? <;> rfl
  | commit => cases commit? <;> rfl
  | viewchange => cases viewChange? <;> rfl
  | newview => cases newView? <;> rfl
  | unknown value => rfl

/-- An accepted envelope names the index of its signer. -/
theorem exists_sender (hcheck : checkMessageItem crypto validators env = true) :
    ∃ replicaId, env.pbft.replicaId? = some replicaId ∧
      checkSender crypto validators env.pbft env.signature replicaId = true := by
  by_cases htype : env.pbft.type = .viewchangWithRawvalue
  · obtain ⟨⟨round, type, prePrepare?, prepare?, commit?, viewChange?, newView?, raw?, chain⟩,
      sig⟩ := env
    obtain rfl : type = .viewchangWithRawvalue := htype
    cases raw? with
    | none => simp [checkMessageItem] at hcheck
    | some raw =>
        rw [checkMessageItem, Bool.and_eq_true] at hcheck
        exact ⟨_, rfl, hcheck.2⟩
  · rw [checkMessageItem_of_ne htype] at hcheck
    cases hreplica : env.pbft.replicaId? with
    | none => simp [hreplica] at hcheck
    | some replicaId => exact ⟨replicaId, rfl, by simpa [hreplica] using hcheck⟩

theorem viewChangeEnv_type {viewChangeRaw : PbftViewChangeWithRawValue}
    (hcheck : checkViewChangeWithRawValue crypto validators viewChangeRaw = true) :
    viewChangeRaw.viewChangeEnv.pbft.type = .viewchange := by
  obtain ⟨viewChangeEnv?, preparedSet?⟩ := viewChangeRaw
  cases viewChangeEnv? with
  | none => simp [checkViewChangeWithRawValue] at hcheck
  | some viewChangeEnv =>
      rw [checkViewChangeWithRawValue, Bool.and_eq_true, Bool.and_eq_true, beq_iff_eq] at hcheck
      exact hcheck.1.1

/-- An accepted view change with its raw value has been checked as such. -/
theorem checkViewChangeWithRawValue_of_check
    (hcheck : checkMessageItem crypto validators env = true)
    (htype : env.pbft.type = .viewchangWithRawvalue) :
    checkViewChangeWithRawValue crypto validators env.pbft.viewChangeWithRawvalue = true := by
  obtain ⟨⟨round, type, prePrepare?, prepare?, commit?, viewChange?, newView?, raw?, chain⟩,
    sig⟩ := env
  obtain rfl : type = .viewchangWithRawvalue := htype
  cases raw? with
  | none => simp [checkMessageItem] at hcheck
  | some raw =>
      rw [checkMessageItem, Bool.and_eq_true] at hcheck
      exact hcheck.1

/-- The envelope in an accepted view change with its raw value is a view change. -/
theorem viewChangeEnv_type_of_check (hcheck : checkMessageItem crypto validators env = true)
    (htype : env.pbft.type = .viewchangWithRawvalue) :
    env.pbft.viewChangeWithRawvalue.viewChangeEnv.pbft.type = .viewchange :=
  viewChangeEnv_type (checkViewChangeWithRawValue_of_check hcheck htype)

theorem checkPrepares_iff {prePrepare : PbftPrePrepare} {prepares : List PbftEnv} :
    checkPrepares crypto validators prePrepare prepares = true ↔
      ∀ prepareEnv ∈ prepares, checkMessageItem crypto validators prepareEnv = true ∧
        prepareEnv.pbft.prepare.viewNumber = prePrepare.viewNumber ∧
        prepareEnv.pbft.prepare.sequence = prePrepare.sequence ∧
        prepareEnv.pbft.prepare.valueDigest = prePrepare.valueDigest := by
  induction prepares with
  | nil => simp [checkPrepares]
  | cons prepareEnv prepares ih =>
      simp only [checkPrepares, Bool.and_eq_true, beq_iff_eq, ih, List.forall_mem_cons, and_assoc]

/-- The default envelope is never accepted. -/
theorem checkMessageItem_default : checkMessageItem crypto validators default = false := rfl

/-- An accepted view change with a prepared set. -/
theorem checkViewChangeWithRawValue_iff {viewChangeRaw : PbftViewChangeWithRawValue}
    {preparedSet : PbftPreparedSet} (hset : viewChangeRaw.preparedSet? = some preparedSet) :
    checkViewChangeWithRawValue crypto validators viewChangeRaw = true ↔
      viewChangeRaw.viewChangeEnv?.isSome = true ∧
      viewChangeRaw.viewChangeEnv.pbft.type = .viewchange ∧
      checkMessageItem crypto validators viewChangeRaw.viewChangeEnv = true ∧
      checkMessageItem crypto validators preparedSet.prePrepare = true ∧
      checkPrepares crypto validators preparedSet.prePrepare.pbft.prePrepare
        preparedSet.prepare = true ∧
      getQuorumSize validators.length ≤
        (preparedSet.prepare.map fun env => env.pbft.prepare.replicaId).toFinset.card ∧
      viewChangeRaw.viewChangeEnv.pbft.viewChange.prepredValueDigest =
        preparedSet.prePrepare.pbft.prePrepare.valueDigest := by
  obtain ⟨viewChangeEnv?, preparedSet?⟩ := viewChangeRaw
  obtain rfl : preparedSet? = some preparedSet := hset
  obtain ⟨prePrepare?, prepares⟩ := preparedSet
  cases viewChangeEnv? with
  | none => simp [checkViewChangeWithRawValue]
  | some viewChangeEnv =>
      cases prePrepare? with
      | none =>
          simp [checkViewChangeWithRawValue, PbftPreparedSet.prePrepare, checkMessageItem_default]
      | some prePrepareEnv =>
          simp only [checkViewChangeWithRawValue, PbftViewChangeWithRawValue.viewChangeEnv,
            PbftPreparedSet.prePrepare, Option.getD_some, Option.isSome_some, Bool.and_eq_true,
            beq_iff_eq, decide_eq_true_eq, true_and, and_assoc]

end Spec

end CegChain
