import CegChain.Consensus.Check

/-!
# Proofs of a block

A proof is a list of COMMIT envelopes.  `CheckProof` accepts it exactly when the
envelopes are valid COMMITs of different validators for the hash and there are
more of them than the quorum size (`checkProof_iff`): erasing the validators that
have been counted is what makes them different, whatever order the envelopes are in.

`checkProof_quorum` draws the consequence: two accepted proofs share more validators
than can be faulty, and the COMMITs of all correct validators are always enough.
-/

namespace CegChain

section CheckProof

variable {crypto : Crypto}

/-- A COMMIT for `digest` on this chain, validly signed by one of the validators,
under its own index. -/
structure ValidCommit (crypto : Crypto) (validators : ValidatorMap) (digest : Bytes)
    (env : PbftEnv) : Prop where
  type_eq : env.pbft.type = .commit
  isSome_commit : env.pbft.commit?.isSome = true
  digest_eq : env.pbft.commit.valueDigest = digest
  sender : checkSender crypto validators env.pbft env.signature env.pbft.commit.replicaId = true

theorem checkMessageItem_commit {validators : ValidatorMap} {env : PbftEnv}
    (htype : env.pbft.type = .commit) (hsome : env.pbft.commit?.isSome = true) :
    checkMessageItem crypto validators env =
      checkSender crypto validators env.pbft env.signature env.pbft.commit.replicaId := by
  rw [checkMessageItem_of_ne (by simp [htype])]
  obtain ⟨commit, hcommit⟩ := Option.isSome_iff_exists.mp hsome
  simp [Pbft.replicaId?, Pbft.commit, htype, hcommit]

/-- The test of one round of the loop of `CheckProof`. -/
theorem validCommit_iff {validators : ValidatorMap} {digest : Bytes} {env : PbftEnv} :
    ValidCommit crypto validators digest env ↔
      (checkMessageItem crypto validators env && env.pbft.type == .commit &&
        env.pbft.commit?.isSome && env.pbft.commit.valueDigest == digest &&
        (validators.lookup (env.address crypto)).isSome) = true := by
  simp only [Bool.and_eq_true, beq_iff_eq]
  constructor
  · rintro ⟨htype, hsome, hdigest, hsender⟩
    have hlookup := (checkSender_iff.mp hsender).2.2.1
    refine ⟨⟨⟨⟨?_, htype⟩, hsome⟩, hdigest⟩, ?_⟩
    · rwa [checkMessageItem_commit htype hsome]
    · rw [PbftEnv.address, hlookup, Option.isSome_some]
  · rintro ⟨⟨⟨⟨hcheck, htype⟩, hsome⟩, hdigest⟩, -⟩
    rw [checkMessageItem_commit htype hsome] at hcheck
    exact ⟨htype, hsome, hdigest, hcheck⟩

/-- A COMMIT that passes `CheckMessageItem` is valid. -/
theorem validCommit_of_check {validators : ValidatorMap} {digest : Bytes} {env : PbftEnv}
    (hcheck : checkMessageItem crypto validators env = true)
    (htype : env.pbft.type = .commit) (hdigest : env.pbft.commit.valueDigest = digest) :
    ValidCommit crypto validators digest env := by
  obtain ⟨replicaId, hreplica, hsender⟩ := exists_sender hcheck
  simp only [Pbft.replicaId?, htype, Option.map_eq_some_iff] at hreplica
  obtain ⟨commit, hcommit, rfl⟩ := hreplica
  have hsome : env.pbft.commit?.isSome = true := by rw [hcommit, Option.isSome_some]
  refine ⟨htype, hsome, hdigest, ?_⟩
  rw [← checkMessageItem_commit htype hsome]
  exact hcheck

theorem ValidCommit.lookup {validators : ValidatorMap} {digest : Bytes} {env : PbftEnv}
    (hvalid : ValidCommit crypto validators digest env) :
    validators.lookup (env.address crypto) = some env.pbft.commit.replicaId :=
  (checkSender_iff.mp hvalid.sender).2.2.1

theorem ValidatorMap.lookup_erase (a b : Bytes) (validators : ValidatorMap) :
    (validators.erase a).lookup b = if b = a then none else validators.lookup b := by
  unfold ValidatorMap.erase
  rw [OrderedMap.lookup_filter fun key => decide (key ≠ a)]
  by_cases h : b = a <;> simp [h]

/-- Against the map without `a`, the COMMITs of `a` are refused and no others. -/
theorem validCommit_erase {validators : ValidatorMap} {digest a : Bytes} {env : PbftEnv} :
    ValidCommit crypto (validators.erase a) digest env ↔
      ValidCommit crypto validators digest env ∧ env.address crypto ≠ a := by
  constructor
  · rintro ⟨htype, hsome, hdigest, hsender⟩
    obtain ⟨hchain, hindex, hlookup, hverify⟩ := checkSender_iff.mp hsender
    rw [ValidatorMap.lookup_erase] at hlookup
    split at hlookup
    · cases hlookup
    · rename_i hne
      exact ⟨⟨htype, hsome, hdigest, checkSender_iff.mpr ⟨hchain, hindex, hlookup, hverify⟩⟩, hne⟩
  · rintro ⟨⟨htype, hsome, hdigest, hsender⟩, hne⟩
    obtain ⟨hchain, hindex, hlookup, hverify⟩ := checkSender_iff.mp hsender
    refine ⟨htype, hsome, hdigest, checkSender_iff.mpr ⟨hchain, hindex, ?_, hverify⟩⟩
    rw [ValidatorMap.lookup_erase]
    exact (if_neg hne).trans hlookup

/-- **The loop of `CheckProof`.**  It gets through exactly the lists of valid
COMMITs of different validators, and leaves the validators that are not among them. -/
theorem checkCommits_iff {digest : Bytes} {commits : List PbftEnv} {tempVs left : ValidatorMap} :
    checkCommits crypto digest commits tempVs = some left ↔
      (∀ env ∈ commits, ValidCommit crypto tempVs digest env) ∧
        (commits.map (PbftEnv.address crypto)).Nodup ∧
        left = tempVs.filter fun entry => entry.1 ∉ commits.map (PbftEnv.address crypto) := by
  induction commits generalizing tempVs with
  | nil => simp [checkCommits, eq_comm]
  | cons env commits ih =>
      rw [checkCommits, List.forall_mem_cons, List.map_cons, List.nodup_cons]
      by_cases hvalid : ValidCommit crypto tempVs digest env
      · -- the other envelopes are checked against the map without this signer
        rw [if_pos (validCommit_iff.mp hvalid), ih]
        have hothers : (∀ other ∈ commits,
            ValidCommit crypto (tempVs.erase (env.address crypto)) digest other) ↔
            (∀ other ∈ commits, ValidCommit crypto tempVs digest other) ∧
              env.address crypto ∉ commits.map (PbftEnv.address crypto) := by
          simp only [validCommit_erase, List.mem_map, not_exists, not_and, imp_and, forall_and,
            ne_eq]
        have hfilter : ((tempVs.erase (env.address crypto)).filter fun entry =>
            entry.1 ∉ commits.map (PbftEnv.address crypto)) =
            tempVs.filter fun entry =>
              entry.1 ∉ env.address crypto :: commits.map (PbftEnv.address crypto) := by
          rw [ValidatorMap.erase, List.filter_filter]
          congr 1
          funext entry
          simp [List.mem_cons, Bool.and_comm]
        rw [hothers, hfilter]
        tauto
      · rw [if_neg fun h => hvalid (validCommit_iff.mpr h)]
        simp [hvalid]

/-- The validators that a list of different validators leaves out. -/
theorem length_filter_not_mem {validators : ValidatorMap} {signers : List Bytes}
    (hkeys : (validators.map Prod.fst).Nodup) (hsigners : signers.Nodup)
    (hsub : ∀ a ∈ signers, a ∈ validators.map Prod.fst) :
    (validators.filter fun entry => entry.1 ∉ signers).length + signers.length =
      validators.length := by
  have hperm : ((validators.map Prod.fst).filter fun a => a ∈ signers).Perm signers := by
    refine (List.perm_ext_iff_of_nodup (hkeys.filter _) hsigners).mpr fun a => ?_
    rw [List.mem_filter, decide_eq_true_eq]
    exact ⟨And.right, fun ha => ⟨hsub a ha, ha⟩⟩
  have hmap : (validators.filter fun entry => entry.1 ∈ signers).length = signers.length := by
    rw [← hperm.length_eq, List.filter_map, List.length_map]
    rfl
  have hsplit := List.length_eq_length_filter_add (l := validators) fun entry =>
    decide (entry.1 ∈ signers)
  simp only [decide_not]
  omega

/-- **`CheckProof`.**  A proof is accepted exactly when it consists of valid COMMITs
for the hash, of different validators, more of them than the quorum size. -/
theorem checkProof_iff {validators : List Bytes} {digest proof : Bytes} :
    checkProof crypto validators digest proof = true ↔
      ∃ evidence, crypto.parseProof proof = some evidence ∧
        (∀ env ∈ evidence.commits, ValidCommit crypto (.ofSet validators) digest env) ∧
        (evidence.commits.map (PbftEnv.address crypto)).Nodup ∧
        getQuorumSize (ValidatorMap.ofSet validators).length < evidence.commits.length := by
  have hcount : ∀ commits : List PbftEnv,
      (∀ env ∈ commits, ValidCommit crypto (.ofSet validators) digest env) →
      (commits.map (PbftEnv.address crypto)).Nodup →
      ((ValidatorMap.ofSet validators).filter fun entry =>
        entry.1 ∉ commits.map (PbftEnv.address crypto)).length + commits.length =
        (ValidatorMap.ofSet validators).length := by
    intro commits hvalid hsigners
    have hlength := length_filter_not_mem (ValidatorMap.nodup_ofSet validators).1 hsigners (by
      intro a ha
      obtain ⟨env, henv, rfl⟩ := List.mem_map.mp ha
      exact List.mem_map_of_mem (OrderedMap.mem_of_lookup (hvalid env henv).lookup))
    rwa [List.length_map] at hlength
  simp only [checkProof]
  cases hparse : crypto.parseProof proof with
  | none => simp
  | some evidence =>
      simp only [Option.some.injEq, exists_eq_left']
      constructor
      · intro haccept
        cases hcommits : checkCommits crypto digest evidence.commits (.ofSet validators) with
        | none => simp [hcommits] at haccept
        | some left =>
            rw [hcommits] at haccept
            obtain ⟨hvalid, hsigners, rfl⟩ := checkCommits_iff.mp hcommits
            have hlength := hcount _ hvalid hsigners
            have hquorum := of_decide_eq_true haccept
            exact ⟨hvalid, hsigners, by omega⟩
      · rintro ⟨hvalid, hsigners, hquorum⟩
        have hlength := hcount _ hvalid hsigners
        rw [checkCommits_iff.mpr ⟨hvalid, hsigners, rfl⟩]
        exact decide_eq_true (by omega)

/-- The validators whose COMMITs are in a proof. -/
def PbftProof.signers (crypto : Crypto) (evidence : PbftProof) : Finset Bytes :=
  (evidence.commits.map (PbftEnv.address crypto)).toFinset

theorem PbftProof.card_signers {evidence : PbftProof}
    (hsigners : (evidence.commits.map (PbftEnv.address crypto)).Nodup) :
    (evidence.signers crypto).card = evidence.commits.length := by
  rw [PbftProof.signers, List.toFinset_card_of_nodup hsigners, List.length_map]

theorem PbftProof.signers_subset {validators : List Bytes} (hnodup : validators.Nodup)
    {digest : Bytes} {evidence : PbftProof}
    (hvalid : ∀ env ∈ evidence.commits, ValidCommit crypto (.ofSet validators) digest env) :
    evidence.signers crypto ⊆ validators.toFinset := by
  intro a ha
  obtain ⟨env, henv, rfl⟩ := List.mem_map.mp (List.mem_toFinset.mp ha)
  obtain ⟨i, -, hi⟩ := (ValidatorMap.lookup_ofSet hnodup).mp (hvalid env henv).lookup
  exact List.mem_toFinset.mpr (List.mem_of_getElem? hi)

/-- `a` has validly signed a COMMIT for `digest`, and the proof carries it. -/
def SignedCommitIn (crypto : Crypto) (validators : List Bytes) (proof digest a : Bytes) : Prop :=
  ∃ evidence env, crypto.parseProof proof = some evidence ∧ env ∈ evidence.commits ∧
    env.address crypto = a ∧ ValidCommit crypto (.ofSet validators) digest env

/-- **Quorum intersection of proofs.**  Two accepted proofs have more signers in common
than validators can be faulty, and any COMMITs of `n - f` different validators make an
accepted proof. -/
theorem checkProof_quorum {validators : List Bytes} (hne : validators ≠ [])
    (hnodup : validators.Nodup) :
    (∀ digest₁ digest₂ proof₁ proof₂ : Bytes,
      checkProof crypto validators digest₁ proof₁ = true →
      checkProof crypto validators digest₂ proof₂ = true →
      ∃ signers : Finset Bytes, signers ⊆ validators.toFinset ∧
        faultNumber validators.length + 1 ≤ signers.card ∧
        ∀ a ∈ signers, SignedCommitIn crypto validators proof₁ digest₁ a ∧
          SignedCommitIn crypto validators proof₂ digest₂ a) ∧
    (∀ (digest proof : Bytes) (commits : List PbftEnv),
      crypto.parseProof proof = some ⟨commits⟩ →
      (∀ env ∈ commits, ValidCommit crypto (.ofSet validators) digest env) →
      (commits.map (PbftEnv.address crypto)).Nodup →
      commits.length = validators.length - faultNumber validators.length →
      checkProof crypto validators digest proof = true) := by
  have hlength : validators.length ≠ 0 := fun h => hne (List.length_eq_zero_iff.mp h)
  refine ⟨fun digest₁ digest₂ proof₁ proof₂ haccept₁ haccept₂ => ?_,
    fun digest proof commits hparse hvalid hsigners hcount => ?_⟩
  · obtain ⟨evidence₁, hparse₁, hvalid₁, hsigners₁, hquorum₁⟩ := checkProof_iff.mp haccept₁
    obtain ⟨evidence₂, hparse₂, hvalid₂, hsigners₂, hquorum₂⟩ := checkProof_iff.mp haccept₂
    rw [ValidatorMap.length_ofSet hnodup] at hquorum₁ hquorum₂
    have hsub₁ := PbftProof.signers_subset hnodup hvalid₁
    refine ⟨evidence₁.signers crypto ∩ evidence₂.signers crypto,
      Finset.inter_subset_left.trans hsub₁, ?_, ?_⟩
    · have hsize₁ : getQuorumSize validators.length + 1 ≤ (evidence₁.signers crypto).card := by
        rwa [PbftProof.card_signers hsigners₁]
      have hsize₂ : getQuorumSize validators.length + 1 ≤ (evidence₂.signers crypto).card := by
        rwa [PbftProof.card_signers hsigners₂]
      refine Quorum.lt_card_inter hsub₁ (PbftProof.signers_subset hnodup hvalid₂) hsize₁ hsize₂ ?_
      rw [List.toFinset_card_of_nodup hnodup]
      exact add_faultNumber_lt_two_mul_quorum _
    · intro a ha
      obtain ⟨ha₁, ha₂⟩ := Finset.mem_inter.mp ha
      obtain ⟨env₁, henv₁, haddress₁⟩ := List.mem_map.mp (List.mem_toFinset.mp ha₁)
      obtain ⟨env₂, henv₂, haddress₂⟩ := List.mem_map.mp (List.mem_toFinset.mp ha₂)
      exact ⟨⟨evidence₁, env₁, hparse₁, henv₁, haddress₁, hvalid₁ env₁ henv₁⟩,
        ⟨evidence₂, env₂, hparse₂, henv₂, haddress₂, hvalid₂ env₂ henv₂⟩⟩
  · have hquorum := quorum_le_sub_faultNumber hlength
    exact checkProof_iff.mpr ⟨⟨commits⟩, hparse, hvalid, hsigners, by
      simp only [hcount, ValidatorMap.length_ofSet hnodup]
      omega⟩

end CheckProof

/-! ## A chain with four validators -/

namespace Sample

/-- The addresses of four validators. -/
def validators : List Bytes := [[10], [11], [12], [13]]

/-- The digest of the value of the sample proofs. -/
def digest : Bytes := [1, 7]

/-- A COMMIT by the validator `code % 4`: for `digest` at view 0 and sequence 2, or, for a
`code` from 4 to 7, at view 1000 and sequence 500; from 8 on for an empty digest. -/
def commit (code : UInt8) : PbftEnv where
  pbft := {
    (default : Pbft) with
    roundNumber := 1
    type := .commit
    commit? := some {
      viewNumber := if code / 4 = 1 then 1000 else 0
      sequence := if code / 4 = 1 then 500 else 2
      replicaId := (code % 4).toNat
      valueDigest := if code < 8 then digest else [] }
    chainId := 1 }
  signature := ⟨[10 + code % 4], [10 + code % 4]⟩

/-- Keys that are their own address and their own signature, a hash that writes a byte
in front, and a wire format in which a proof is the list of the codes of its COMMITs. -/
def crypto : Crypto where
  selfChainId := 1
  encAddress := id
  verify _ signData publicKey := signData == publicKey
  hash value := 1 :: value
  serializeProof proof := proof.commits.map fun env =>
    UInt8.ofNat (env.pbft.commit.replicaId.toNat +
      (if env.pbft.commit.viewNumber = 0 then 0 else 4) +
      if env.pbft.commit.valueDigest = digest then 0 else 8)
  parseProof bytes := some ⟨bytes.map commit⟩

/-- The COMMIT of any of the four validators is valid. -/
theorem validCommit_commit : ∀ index ∈ [0, 1, 2, 3],
    ValidCommit crypto (.ofSet validators) digest (commit index) := by
  simp only [validCommit_iff]
  decide +kernel

end Sample

open Sample in
/-- Three of four validators make a proof in any order, and two such proofs share two
validators. -/
theorem checkProof_quorum_four :
    checkProof Sample.crypto validators digest [2, 0, 1] = true ∧
      checkProof Sample.crypto validators digest [1, 3, 2] = true ∧
      ∃ signers : Finset Bytes, signers ⊆ validators.toFinset ∧ 1 + 1 ≤ signers.card ∧
        ∀ a ∈ signers, SignedCommitIn Sample.crypto validators [2, 0, 1] digest a ∧
          SignedCommitIn Sample.crypto validators [1, 3, 2] digest a := by
  obtain ⟨hinter, haccept⟩ :=
    @checkProof_quorum Sample.crypto validators (by decide) (by decide)
  have hleft : checkProof Sample.crypto validators digest [2, 0, 1] = true :=
    haccept digest [2, 0, 1] [commit 2, commit 0, commit 1] rfl
      (by simp [validCommit_commit]) (by decide) (by decide)
  have hright : checkProof Sample.crypto validators digest [1, 3, 2] = true :=
    haccept digest [1, 3, 2] [commit 1, commit 3, commit 2] rfl
      (by simp [validCommit_commit]) (by decide) (by decide)
  exact ⟨hleft, hright, hinter digest digest _ _ hleft hright⟩

end CegChain
