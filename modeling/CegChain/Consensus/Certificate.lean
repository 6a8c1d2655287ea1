import CegChain.Consensus.Proof

/-!
# Prepared certificates

A view change with its raw value may carry a prepared set: a PRE-PREPARE and the
PREPAREs that a replica has collected for it.  `CheckViewChangeWithRawValue` passes
every envelope of the set to `CheckMessageItem`, which validates the sub-message
selected by the envelope's type, and then reads the `pre_prepare` and `prepare`
sub-messages, whatever the types are.  It never asks who the primary of the view is,
nor compares the digest with the value.

`preparedCertificate_iff` says what has to hold in addition for the set to be the
certificate it is taken for.

Unforgeable signatures are stated through the history `signed` of signing operations:
whenever a signature in a message is valid, the owner of the key has signed.
-/

namespace CegChain

/-- The signature of an envelope is not a forgery. -/
def Authentic (crypto : Crypto) (signed : Bytes → Pbft → Prop) (env : PbftEnv) : Prop :=
  crypto.verify env.pbft env.signature.signData env.signature.publicKey = true →
    signed (env.address crypto) env.pbft

/-- The history in which nothing has been signed beyond the signatures of some envelopes. -/
def carriedBy (crypto : Crypto) (envs : List PbftEnv) (a : Bytes) (pbft : Pbft) : Prop :=
  ∃ env ∈ envs, env.address crypto = a ∧ env.pbft = pbft ∧
    crypto.verify env.pbft env.signature.signData env.signature.publicKey = true

theorem authentic_carriedBy {crypto : Crypto} {envs : List PbftEnv} :
    ∀ env ∈ envs, Authentic crypto (carriedBy crypto envs) env :=
  fun env henv hverify => ⟨env, henv, rfl, rfl, hverify⟩

/-- The validator with the given index has signed `pbft`. -/
def SignedByIndex (signed : Bytes → Pbft → Prop) (validators : ValidatorMap) (index : ℤ)
    (pbft : Pbft) : Prop :=
  ∃ a, validators.lookup a = some index ∧ signed a pbft

/-- What a prepared set is taken for: the PRE-PREPARE of the primary of its view for the
hash of its value, and PREPAREs of a quorum of validators for the same view, sequence and
digest. -/
structure PreparedCertificate (crypto : Crypto) (signed : Bytes → Pbft → Prop)
    (validators : ValidatorMap) (preparedSet : PbftPreparedSet) : Prop where
  type_eq : preparedSet.prePrepare.pbft.type = .preprepare
  primary : SignedByIndex signed validators
    (primaryOf validators.length preparedSet.prePrepare.pbft.prePrepare.viewNumber)
    preparedSet.prePrepare.pbft
  digest_eq : preparedSet.prePrepare.pbft.prePrepare.valueDigest =
    crypto.hash preparedSet.prePrepare.pbft.prePrepare.value
  prepared : ∃ signers : Finset Bytes, (∀ a ∈ signers, (validators.lookup a).isSome = true) ∧
    getQuorumSize validators.length ≤ signers.card ∧
    ∀ a ∈ signers, ∃ pbft, signed a pbft ∧ pbft.type = .prepare ∧ pbft.prepare?.isSome = true ∧
      pbft.prepare.viewNumber = preparedSet.prePrepare.pbft.prePrepare.viewNumber ∧
      pbft.prepare.sequence = preparedSet.prePrepare.pbft.prePrepare.sequence ∧
      pbft.prepare.valueDigest = preparedSet.prePrepare.pbft.prePrepare.valueDigest

section Certificate

variable {crypto : Crypto} {validators : List Bytes}

/-- When envelopes name the index of their signer, different names are different
signers. -/
theorem card_signers_eq {envs : List PbftEnv} {name : PbftEnv → ℤ}
    (hname : ∀ env ∈ envs,
      (ValidatorMap.ofSet validators).lookup (env.address crypto) = some (name env)) :
    (envs.map name).toFinset.card = (envs.map (PbftEnv.address crypto)).toFinset.card := by
  have himage : (envs.map name).toFinset =
      (envs.map (PbftEnv.address crypto)).toFinset.image
        fun a => getValidatorIndex a (.ofSet validators) := by
    ext index
    simp only [List.mem_toFinset, List.mem_map, Finset.mem_image, exists_exists_and_eq_and]
    refine exists_congr fun env => and_congr_right fun henv => ?_
    rw [getValidatorIndex, hname env henv, Option.getD_some]
  rw [himage, Finset.card_image_of_injOn]
  intro a ha b hb hab
  obtain ⟨env, henv, rfl⟩ := List.mem_map.mp (List.mem_toFinset.mp (Finset.mem_coe.mp ha))
  obtain ⟨env', henv', rfl⟩ := List.mem_map.mp (List.mem_toFinset.mp (Finset.mem_coe.mp hb))
  simp only [getValidatorIndex, hname env henv, hname env' henv', Option.getD_some] at hab
  exact ValidatorMap.eq_of_lookup (hab ▸ hname env henv) (hname env' henv')

/-- The signer of an accepted envelope is the validator the envelope names. -/
theorem lookup_of_check {map : ValidatorMap} {env : PbftEnv} {replicaId : ℤ}
    (hcheck : checkMessageItem crypto map env = true)
    (hreplica : env.pbft.replicaId? = some replicaId) :
    map.lookup (env.address crypto) = some replicaId ∧
      crypto.verify env.pbft env.signature.signData env.signature.publicKey = true := by
  obtain ⟨index, hindex, hsender⟩ := exists_sender hcheck
  obtain ⟨-, -, hlookup, hverify⟩ := checkSender_iff.mp hsender
  rw [hreplica] at hindex
  rw [Option.some.inj hindex]
  exact ⟨hlookup, hverify⟩

/-- An accepted envelope of a type other than a view change with its raw value carries the
sub-message of its type. -/
theorem isSome_prepare_of_check {map : ValidatorMap} {env : PbftEnv}
    (hcheck : checkMessageItem crypto map env = true) (htype : env.pbft.type = .prepare) :
    env.pbft.prepare?.isSome = true ∧
      env.pbft.replicaId? = some env.pbft.prepare.replicaId := by
  obtain ⟨replicaId, hreplica, -⟩ := exists_sender hcheck
  simp only [Pbft.replicaId?, htype, Option.map_eq_some_iff] at hreplica
  obtain ⟨prepare, hprepare, rfl⟩ := hreplica
  simp [Pbft.replicaId?, Pbft.prepare, htype, hprepare]

theorem replicaId_prePrepare_of_check {map : ValidatorMap} {env : PbftEnv}
    (hcheck : checkMessageItem crypto map env = true) (htype : env.pbft.type = .preprepare) :
    env.pbft.replicaId? = some env.pbft.prePrepare.replicaId := by
  obtain ⟨replicaId, hreplica, -⟩ := exists_sender hcheck
  simp only [Pbft.replicaId?, htype, Option.map_eq_some_iff] at hreplica
  obtain ⟨prePrepare, hprePrepare, rfl⟩ := hreplica
  simp [Pbft.replicaId?, Pbft.prePrepare, htype, hprePrepare]

/-- The envelopes of a prepared set that are PREPAREs by their type. -/
def PbftPreparedSet.realPrepares (preparedSet : PbftPreparedSet) : List PbftEnv :=
  preparedSet.prepare.filter fun env => env.pbft.type == .prepare

theorem mem_realPrepares {preparedSet : PbftPreparedSet} {env : PbftEnv} :
    env ∈ preparedSet.realPrepares ↔ env ∈ preparedSet.prepare ∧ env.pbft.type = .prepare := by
  simp [PbftPreparedSet.realPrepares, List.mem_filter]

/-- **When a prepared set is a certificate.**  For an accepted view change with a prepared
set, the set is what it is taken for, whatever else has been signed, exactly when its first
envelope is a PRE-PREPARE by its type, names the primary of its view and the hash of its
value, and the envelopes that are PREPAREs by their type name a quorum of replicas. -/
theorem preparedCertificate_iff {viewChangeRaw : PbftViewChangeWithRawValue}
    {preparedSet : PbftPreparedSet}
    (hset : viewChangeRaw.preparedSet? = some preparedSet)
    (haccept : checkViewChangeWithRawValue crypto (.ofSet validators) viewChangeRaw = true) :
    (∀ signed : Bytes → Pbft → Prop,
      (∀ env ∈ preparedSet.prePrepare :: preparedSet.prepare, Authentic crypto signed env) →
      PreparedCertificate crypto signed (.ofSet validators) preparedSet) ↔
    preparedSet.prePrepare.pbft.type = .preprepare ∧
      preparedSet.prePrepare.pbft.prePrepare.replicaId =
        primaryOf (ValidatorMap.ofSet validators).length
          preparedSet.prePrepare.pbft.prePrepare.viewNumber ∧
      preparedSet.prePrepare.pbft.prePrepare.valueDigest =
        crypto.hash preparedSet.prePrepare.pbft.prePrepare.value ∧
      getQuorumSize (ValidatorMap.ofSet validators).length ≤
        (preparedSet.realPrepares.map fun env => env.pbft.prepare.replicaId).toFinset.card := by
  obtain ⟨-, -, -, hprePrepare, hprepares, -⟩ :=
    (checkViewChangeWithRawValue_iff hset).mp haccept
  rw [checkPrepares_iff] at hprepares
  have hname : ∀ env ∈ preparedSet.realPrepares,
      (ValidatorMap.ofSet validators).lookup (env.address crypto) =
        some env.pbft.prepare.replicaId := by
    intro env henv
    obtain ⟨hmem, htype⟩ := mem_realPrepares.mp henv
    have hcheck := (hprepares env hmem).1
    exact (lookup_of_check hcheck (isSome_prepare_of_check hcheck htype).2).1
  rw [card_signers_eq hname]
  constructor
  · intro hcertificate
    obtain ⟨htype, ⟨a, ha, hsigned⟩, hdigest, signers, -, hquorum, hsigners⟩ :=
      hcertificate _ authentic_carriedBy
    refine ⟨htype, ?_, hdigest, ?_⟩
    · -- any envelope with this content names the same index
      obtain ⟨env, henv, haddress, hpbft, -⟩ := hsigned
      have hcheck : checkMessageItem crypto (.ofSet validators) env = true := by
        rcases List.mem_cons.mp henv with rfl | henv
        · exact hprePrepare
        · exact (hprepares env henv).1
      have hreplica : env.pbft.replicaId? =
          some preparedSet.prePrepare.pbft.prePrepare.replicaId := by
        rw [hpbft]
        exact replicaId_prePrepare_of_check hprePrepare htype
      have hlookup := (lookup_of_check hcheck hreplica).1
      rw [haddress, ha] at hlookup
      exact (Option.some.inj hlookup).symm
    · refine hquorum.trans (Finset.card_le_card fun b hb => ?_)
      obtain ⟨pbft, ⟨env, henv, haddress, hpbft, -⟩, hprepare, -⟩ := hsigners b hb
      have hmem : env ∈ preparedSet.realPrepares := by
        refine mem_realPrepares.mpr ⟨?_, by rw [hpbft, hprepare]⟩
        rcases List.mem_cons.mp henv with rfl | henv
        · rw [hpbft, hprepare] at htype
          cases htype
        · exact henv
      exact List.mem_toFinset.mpr (List.mem_map.mpr ⟨env, hmem, haddress⟩)
  · rintro ⟨htype, hprimary, hdigest, hquorum⟩ signed hauthentic
    obtain ⟨hlookup, hverify⟩ :=
      lookup_of_check hprePrepare (replicaId_prePrepare_of_check hprePrepare htype)
    refine ⟨htype, ⟨_, hprimary ▸ hlookup, ?_⟩, hdigest, _, ?_, hquorum, ?_⟩
    · exact hauthentic _ (List.mem_cons_self ..) hverify
    · intro a ha
      obtain ⟨env, henv, rfl⟩ := List.mem_map.mp (List.mem_toFinset.mp ha)
      rw [hname env henv, Option.isSome_some]
    · intro a ha
      obtain ⟨env, henv, rfl⟩ := List.mem_map.mp (List.mem_toFinset.mp ha)
      obtain ⟨hmem, hprepare⟩ := mem_realPrepares.mp henv
      obtain ⟨hcheck, hview, hsequence, hvalue⟩ := hprepares env hmem
      obtain ⟨hsome, hreplica⟩ := isSome_prepare_of_check hcheck hprepare
      exact ⟨env.pbft, hauthentic env (List.mem_cons_of_mem _ hmem)
        (lookup_of_check hcheck hreplica).2, hprepare, hsome, hview, hsequence, hvalue⟩

end Certificate

namespace Sample

/-- An envelope on the sample chain, signed with the key of the validator with the given
index. -/
def sign (signer : UInt8) (pbft : Pbft) : PbftEnv :=
  ⟨{ pbft with chainId := 1 }, ⟨[10 + signer], [10 + signer]⟩⟩

/-- The PRE-PREPARE of the primary of view 0 for the sample value at sequence 2. -/
def prePrepare (signer : UInt8) : PbftEnv :=
  sign signer { (default : Pbft) with
    type := .preprepare
    prePrepare? := some ⟨0, 2, signer.toNat, [7], digest⟩ }

/-- The PREPARE of a validator. -/
def prepare (signer : UInt8) : PbftEnv :=
  sign signer { (default : Pbft) with
    type := .prepare
    prepare? := some ⟨0, 2, signer.toNat, digest⟩ }

/-- A COMMIT of `signer` that also carries a PREPARE in the name of another replica. -/
def prepareInName (signer : UInt8) (replicaId : ℤ) : PbftEnv :=
  sign signer { (default : Pbft) with
    type := .commit
    prepare? := some ⟨0, 2, replicaId, digest⟩
    commit? := some ⟨0, 2, signer.toNat, digest⟩ }

/-- The view change of validator 3 to view 1 with a prepared set. -/
def viewChange (prePrepare : PbftEnv) (prepares : List PbftEnv) : PbftViewChangeWithRawValue where
  viewChangeEnv? := some (sign 3 { (default : Pbft) with
    type := .viewchange
    viewChange? := some ⟨1, 1, digest, 3⟩ })
  preparedSet? := some ⟨some prePrepare, prepares⟩

end Sample

open Sample in
/-- The prepared set of an honest replica is a certificate. -/
theorem preparedCertificate_of_honest :
    checkViewChangeWithRawValue Sample.crypto (.ofSet Sample.validators)
      (viewChange (prePrepare 0) [prepare 1, prepare 2]) = true ∧
    ∀ signed : Bytes → Pbft → Prop,
      (∀ env ∈ prePrepare 0 :: [prepare 1, prepare 2], Authentic Sample.crypto signed env) →
      PreparedCertificate Sample.crypto signed (.ofSet Sample.validators)
        ⟨some (prePrepare 0), [prepare 1, prepare 2]⟩ := by
  have haccept : checkViewChangeWithRawValue Sample.crypto (.ofSet Sample.validators)
      (viewChange (prePrepare 0) [prepare 1, prepare 2]) = true := by decide
  have hset : (viewChange (prePrepare 0) [prepare 1, prepare 2]).preparedSet? =
      some ⟨some (prePrepare 0), [prepare 1, prepare 2]⟩ := rfl
  exact ⟨haccept, (preparedCertificate_iff hset haccept).mpr (by decide)⟩

open Sample in
/-- Validator 3 alone makes up a prepared set that is accepted, although no other validator
has signed anything: a PRE-PREPARE in a view it does not lead, and two COMMITs of its own
that carry PREPAREs in the names of the replicas 0 and 1. -/
theorem preparedCertificate_forged :
    ∃ viewChangeRaw preparedSet, viewChangeRaw.preparedSet? = some preparedSet ∧
      checkViewChangeWithRawValue Sample.crypto (.ofSet Sample.validators) viewChangeRaw = true ∧
      ∃ signed : Bytes → Pbft → Prop,
        (∀ env ∈ preparedSet.prePrepare :: preparedSet.prepare,
          Authentic Sample.crypto signed env) ∧
        ¬ PreparedCertificate Sample.crypto signed (.ofSet Sample.validators) preparedSet := by
  refine ⟨viewChange (prePrepare 3) [prepareInName 3 0, prepareInName 3 1], _, rfl, by decide,
    fun a _ => a = [13], ?_, ?_⟩
  · intro env henv _
    simp only [PbftPreparedSet.prePrepare, Option.getD_some, List.mem_cons,
      List.not_mem_nil, or_false] at henv
    rcases henv with rfl | rfl | rfl <;> decide
  · rintro ⟨-, ⟨a, ha, rfl⟩, -⟩
    exact absurd ha (by decide)

end CegChain
