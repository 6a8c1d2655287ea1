import CegChain.Consensus.Certificate
import CegChain.Consensus.Replica

/-!
# Entering a view on the word of others

A replica moves to a view it has not agreed on itself in two ways: a NEW-VIEW message,
and the proof of a closed ledger.  Both are meant to carry evidence that enough others
are there.

`OnNewView` runs through the view changes in the message, but the envelope it passes to
`CheckMessageItem` in every round is the NEW-VIEW itself, and it never asks whether the
sender is the primary of the view.  `newViewCertificate_iff` says what has to hold in
addition.

`CheckProof` looks at the signers and digests of the COMMITs in a proof,
`UpdateValidators` at the view and the sequence of the first one.
`proofTarget_pinned_iff` says when these are backed by an honest validator.
-/

namespace CegChain

/-! ## NEW-VIEW messages -/

section NewView

variable {crypto : Crypto} {key : PrivateKey}

/-- The replica moves to `viewNumber` because of the NEW-VIEW `env`. -/
def EntersByNewView (crypto : Crypto) (key : PrivateKey) (env : PbftEnv)
    (checkValue : CheckValueResult) (now : ℤ) (st : PbftState) (viewNumber : ℤ) : Prop :=
  env.pbft.type = .newview ∧ st.viewNumber ≠ viewNumber ∧
    (onRecv crypto key env checkValue now st).1.viewNumber = viewNumber

/-- A VIEW-CHANGE for `viewNumber` on this chain, validly signed by one of the validators,
under its own index. -/
structure ValidViewChange (crypto : Crypto) (validators : ValidatorMap) (viewNumber : ℤ)
    (env : PbftEnv) : Prop where
  type_eq : env.pbft.type = .viewchange
  check : checkMessageItem crypto validators env = true
  view_eq : env.pbft.viewChange.viewNumber = viewNumber

/-- What a NEW-VIEW is taken for: it is signed by the primary of the view and carries view
changes to it that are signed by more than a quorum size of validators. -/
structure NewViewCertificate (crypto : Crypto) (validators : ValidatorMap) (viewNumber : ℤ)
    (env : PbftEnv) : Prop where
  primary : validators.lookup (env.address crypto) =
    some (primaryOf validators.length viewNumber) ∧
    crypto.verify env.pbft env.signature.signData env.signature.publicKey = true
  viewChanges : ∃ signers : Finset Bytes, (∀ a ∈ signers, (validators.lookup a).isSome = true) ∧
    getQuorumSize validators.length < signers.card ∧
    ∀ a ∈ signers, ∃ viewChangeEnv ∈ env.pbft.newView.viewChanges,
      viewChangeEnv.address crypto = a ∧
        ValidViewChange crypto validators viewNumber viewChangeEnv

theorem viewNumber_of_checkViewChanges {env : PbftEnv} {validators : ValidatorMap}
    {viewNumber : ℤ} {viewChanges : List PbftEnv}
    (hcheck : checkViewChanges crypto env validators viewNumber viewChanges = true) :
    ∀ viewChangeEnv ∈ viewChanges,
      viewChangeEnv.pbft.viewChange.viewNumber = viewNumber := by
  induction viewChanges with
  | nil => simp
  | cons viewChangeEnv rest ih =>
      simp only [checkViewChanges, Bool.and_eq_true, beq_iff_eq] at hcheck
      exact List.forall_mem_cons.mpr ⟨hcheck.1.2, ih hcheck.2⟩

@[simp] theorem clearViewChanges_viewNumber (st : PbftState) :
    (clearViewChanges st).viewNumber = st.viewNumber := rfl

@[simp] theorem keepPrepared_viewNumber (st : PbftState) :
    (keepPrepared st).viewNumber = st.viewNumber := rfl

/-- **What `OnNewView` has checked when it enters a view.** -/
theorem onNewView_enters {env : PbftEnv} {now viewNumber : ℤ} {st : PbftState}
    (hne : st.viewNumber ≠ viewNumber)
    (henters : (onNewView crypto env now st).1.viewNumber = viewNumber) :
    env.pbft.newView.viewNumber = viewNumber ∧
      ∀ viewChangeEnv ∈ env.pbft.newView.viewChanges,
        viewChangeEnv.pbft.viewChange.viewNumber = viewNumber := by
  unfold onNewView at henters
  simp only at henters
  split_ifs at henters with hsame hless hprimary hcheck hquorum
  · exact absurd henters hne
  · exact absurd henters hne
  · exact absurd henters hne
  · exact absurd henters hne
  · obtain rfl : env.pbft.newView.viewNumber = viewNumber := henters
    exact ⟨rfl, viewNumber_of_checkViewChanges hcheck⟩
  · exact absurd henters hne

theorem onRecv_newview {env : PbftEnv} (htype : env.pbft.type = .newview)
    (checkValue : CheckValueResult) (now : ℤ) (st : PbftState) :
    onRecv crypto key env checkValue now st =
      if checkMessageItem crypto st.validators env = true then onNewView crypto env now st
      else (st, false) := by
  unfold onRecv
  have hindex : env.pbft.index? = none := by simp [Pbft.index?, htype]
  rw [hindex, htype]
  by_cases hcheck : checkMessageItem crypto st.validators env = true <;> simp [hcheck]

/-- The embedded view changes that are VIEW-CHANGEs by their type and would themselves
pass `CheckMessageItem`. -/
def realViewChanges (crypto : Crypto) (validators : ValidatorMap) (env : PbftEnv) : List PbftEnv :=
  env.pbft.newView.viewChanges.filter fun viewChangeEnv =>
    viewChangeEnv.pbft.type == .viewchange && checkMessageItem crypto validators viewChangeEnv

theorem mem_realViewChanges {validators : ValidatorMap} {env viewChangeEnv : PbftEnv} :
    viewChangeEnv ∈ realViewChanges crypto validators env ↔
      viewChangeEnv ∈ env.pbft.newView.viewChanges ∧ viewChangeEnv.pbft.type = .viewchange ∧
        checkMessageItem crypto validators viewChangeEnv = true := by
  simp [realViewChanges, List.mem_filter]

theorem lookup_viewChange {validators : ValidatorMap} {env : PbftEnv}
    (hcheck : checkMessageItem crypto validators env = true)
    (htype : env.pbft.type = .viewchange) :
    validators.lookup (env.address crypto) = some env.pbft.viewChange.replicaId := by
  obtain ⟨replicaId, hreplica, -⟩ := exists_sender hcheck
  have hlookup := (lookup_of_check hcheck hreplica).1
  simp only [Pbft.replicaId?, htype, Option.map_eq_some_iff] at hreplica
  obtain ⟨viewChange, hviewChange, rfl⟩ := hreplica
  simpa [Pbft.viewChange, hviewChange] using hlookup

theorem lookup_newView {validators : ValidatorMap} {env : PbftEnv}
    (hcheck : checkMessageItem crypto validators env = true) (htype : env.pbft.type = .newview) :
    validators.lookup (env.address crypto) = some env.pbft.newView.replicaId ∧
      crypto.verify env.pbft env.signature.signData env.signature.publicKey = true := by
  obtain ⟨replicaId, hreplica, -⟩ := exists_sender hcheck
  obtain ⟨hlookup, hverify⟩ := lookup_of_check hcheck hreplica
  simp only [Pbft.replicaId?, htype, Option.map_eq_some_iff] at hreplica
  obtain ⟨newView, hnewView, rfl⟩ := hreplica
  exact ⟨by simpa [Pbft.newView, hnewView] using hlookup, hverify⟩

/-- **When a NEW-VIEW is a certificate.**  A NEW-VIEW that makes a backup enter a view is
what it is taken for exactly when it names the primary of the view as its sender and the
embedded envelopes that are VIEW-CHANGEs by their type and pass `CheckMessageItem`
themselves name more than a quorum size of replicas. -/
theorem newViewCertificate_iff {validators : List Bytes} {env : PbftEnv}
    {checkValue : CheckValueResult} {now viewNumber : ℤ} {st : PbftState}
    (hvalidators : st.validators = .ofSet validators)
    (henters : EntersByNewView crypto key env checkValue now st viewNumber) :
    NewViewCertificate crypto st.validators viewNumber env ↔
      env.pbft.newView.replicaId = primaryOf st.validators.length viewNumber ∧
        getQuorumSize st.validators.length <
          ((realViewChanges crypto st.validators env).map fun viewChangeEnv =>
            viewChangeEnv.pbft.viewChange.replicaId).toFinset.card := by
  obtain ⟨htype, hne, hviewNumber⟩ := henters
  rw [onRecv_newview htype] at hviewNumber
  split_ifs at hviewNumber with hcheck
  swap
  · exact absurd hviewNumber hne
  obtain ⟨-, hviews⟩ := onNewView_enters hne hviewNumber
  obtain ⟨hlookup, hverify⟩ := lookup_newView hcheck htype
  have hname : ∀ viewChangeEnv ∈ realViewChanges crypto st.validators env,
      (ValidatorMap.ofSet validators).lookup (viewChangeEnv.address crypto) =
        some viewChangeEnv.pbft.viewChange.replicaId := by
    intro viewChangeEnv hmem
    obtain ⟨-, hchange, hpass⟩ := mem_realViewChanges.mp hmem
    rw [← hvalidators]
    exact lookup_viewChange hpass hchange
  rw [card_signers_eq hname]
  constructor
  · rintro ⟨⟨hprimary, -⟩, signers, -, hquorum, hsigners⟩
    refine ⟨?_, hquorum.trans_le (Finset.card_le_card fun a ha => ?_)⟩
    · rw [hlookup] at hprimary
      exact Option.some.inj hprimary
    · obtain ⟨viewChangeEnv, hmem, rfl, hchange, hpass, -⟩ := hsigners a ha
      exact List.mem_toFinset.mpr (List.mem_map_of_mem
        (mem_realViewChanges.mpr ⟨hmem, hchange, hpass⟩))
  · rintro ⟨hprimary, hquorum⟩
    refine ⟨⟨by rw [hlookup, hprimary], hverify⟩, _, ?_, hquorum, ?_⟩
    · intro a ha
      obtain ⟨viewChangeEnv, hmem, rfl⟩ := List.mem_map.mp (List.mem_toFinset.mp ha)
      rw [hvalidators, hname viewChangeEnv hmem, Option.isSome_some]
    · intro a ha
      obtain ⟨viewChangeEnv, hmem, rfl⟩ := List.mem_map.mp (List.mem_toFinset.mp ha)
      obtain ⟨hcarried, hchange, hpass⟩ := mem_realViewChanges.mp hmem
      exact ⟨viewChangeEnv, hcarried, rfl, hchange, hpass, hviews viewChangeEnv hcarried⟩

end NewView

namespace Sample

/-- The key of the validator with the given index. -/
def key (index : UInt8) : PrivateKey :=
  ⟨[10 + index], fun _ => [10 + index]⟩

/-- A replica of the sample chain that has just started. -/
def replica (index : UInt8) : PbftState :=
  initialState crypto (key index) validators

/-- The body of a VIEW-CHANGE to view 1. -/
def viewChangeOf (replicaId : ℤ) : Pbft :=
  { (default : Pbft) with
    type := .viewchange
    viewChange? := some ⟨1, 1, [], replicaId⟩ }

/-- A NEW-VIEW for view 1. -/
def newView (signer : UInt8) (viewChanges : List PbftEnv) : PbftEnv :=
  sign signer { (default : Pbft) with
    type := .newview
    newView? := some ⟨1, 1, signer.toNat, viewChanges, none⟩ }

end Sample

open Sample in
/-- The NEW-VIEW of the primary of view 1 with three signed view changes. -/
theorem newViewCertificate_of_primary :
    let env := newView 1 [sign 0 (viewChangeOf 0), sign 1 (viewChangeOf 1), sign 3 (viewChangeOf 3)]
    EntersByNewView Sample.crypto (Sample.key 2) env .valid 0 (replica 2) 1 ∧
      NewViewCertificate Sample.crypto (replica 2).validators 1 env := by
  intro env
  have henters : EntersByNewView Sample.crypto (Sample.key 2) env .valid 0 (replica 2) 1 :=
    ⟨rfl, by decide, by decide⟩
  have hvalidators : (replica 2).validators = .ofSet Sample.validators := rfl
  exact ⟨henters, (newViewCertificate_iff hvalidators henters).mpr (by decide)⟩

open Sample in
/-- Validator 3, which is not the primary of view 1, moves replica 2 to view 1 with view
changes that nobody has signed. -/
theorem newViewCertificate_forged :
    ∃ env, EntersByNewView Sample.crypto (Sample.key 2) env .valid 0 (replica 2) 1 ∧
      (replica 2).validators.lookup (env.address Sample.crypto) ≠
        some (primaryOf (replica 2).validators.length 1) ∧
      (∀ viewChangeEnv ∈ env.pbft.newView.viewChanges,
        Sample.crypto.verify viewChangeEnv.pbft viewChangeEnv.signature.signData
          viewChangeEnv.signature.publicKey = false) ∧
      ¬ NewViewCertificate Sample.crypto (replica 2).validators 1 env := by
  let forged (replicaId : ℤ) : PbftEnv := ⟨viewChangeOf replicaId, ⟨[], [0]⟩⟩
  refine ⟨newView 3 [forged 0, forged 1, forged 2], ⟨rfl, by decide, by decide⟩, by decide,
    by decide, ?_⟩
  rintro ⟨⟨hprimary, -⟩, -⟩
  exact absurd hprimary (by decide)

/-! ## Proofs of closed ledgers -/

section Target

variable {crypto : Crypto}

/-- A validator that is not faulty has signed a COMMIT for `digest` at the given view and
sequence. -/
def HonestCommit (signed : Bytes → Pbft → Prop) (validators : ValidatorMap)
    (faulty : Finset Bytes) (digest : Bytes) (viewNumber sequence : ℤ) : Prop :=
  ∃ a, (validators.lookup a).isSome = true ∧ a ∉ faulty ∧ ∃ pbft, signed a pbft ∧
    pbft.type = .commit ∧ pbft.commit?.isSome = true ∧ pbft.commit.valueDigest = digest ∧
    pbft.commit.viewNumber = viewNumber ∧ pbft.commit.sequence = sequence

/-- The COMMITs of a proof at the view and the sequence of the given one. -/
def sameTarget (first : PbftEnv) (commits : List PbftEnv) : List PbftEnv :=
  commits.filter fun env => env.pbft.commit.viewNumber == first.pbft.commit.viewNumber &&
    env.pbft.commit.sequence == first.pbft.commit.sequence

theorem mem_sameTarget {first env : PbftEnv} {commits : List PbftEnv} :
    env ∈ sameTarget first commits ↔
      env ∈ commits ∧ env.pbft.commit.viewNumber = first.pbft.commit.viewNumber ∧
        env.pbft.commit.sequence = first.pbft.commit.sequence := by
  simp [sameTarget, List.mem_filter]

theorem enterTarget_viewNumber (newViewNumber newSeq : ℤ) (st : PbftState) :
    (enterTarget newViewNumber newSeq st).viewNumber =
      if 0 < newViewNumber then newViewNumber else st.viewNumber := by
  by_cases hview : 0 < newViewNumber <;> by_cases hseq : 0 < newSeq <;>
    simp [enterTarget, PbftState.output, clearNotCommitedInstance, PbftState.keepInstances, hview,
      hseq]

theorem enterTarget_lastExeSeq (newViewNumber newSeq : ℤ) (st : PbftState) :
    (enterTarget newViewNumber newSeq st).lastExeSeq =
      if 0 < newSeq then newSeq else st.lastExeSeq := by
  by_cases hview : 0 < newViewNumber <;> by_cases hseq : 0 < newSeq <;>
    simp [enterTarget, PbftState.output, clearNotCommitedInstance, PbftState.keepInstances,
      clearViewChanges, hview, hseq]

/-- What `UpdateValidators` does to the view and the sequence with a proof. -/
theorem updateValidators_target (key : PrivateKey) (newValidators : List Bytes) {proof : Bytes}
    (hproof : proof ≠ []) {first : PbftEnv} {rest : List PbftEnv}
    (hparse : crypto.parseProof proof = some ⟨first :: rest⟩) (st : PbftState) :
    (updateValidators crypto key newValidators proof st).1.viewNumber =
      (if st.viewNumber ≤ first.pbft.commit.viewNumber ∧ 0 ≤ first.pbft.commit.viewNumber ∧
          first.pbft.commit.viewNumber ≠ 2 ^ 63 - 1 then
        first.pbft.commit.viewNumber + 1 else st.viewNumber) ∧
    (updateValidators crypto key newValidators proof st).1.lastExeSeq =
      (if st.lastExeSeq < first.pbft.commit.sequence ∧ 0 < first.pbft.commit.sequence then
        first.pbft.commit.sequence else st.lastExeSeq) := by
  -- a change of the validators touches neither the view nor the sequence
  have hview : ((clearNotCommitedInstance (setValidators crypto key newValidators st)).output
      .resetCloseTimer).viewNumber = st.viewNumber := rfl
  have hseq : ((clearNotCommitedInstance (setValidators crypto key newValidators st)).output
      .resetCloseTimer).lastExeSeq = st.lastExeSeq := rfl
  simp only [updateValidators, hproof, if_false, hparse, Option.map_some, proofTarget,
    enterTarget_viewNumber, enterTarget_lastExeSeq, apply_ite PbftState.viewNumber,
    apply_ite PbftState.lastExeSeq, hview, hseq, ite_self]
  constructor
  · unfold int64Succ
    split_ifs <;> omega
  · split_ifs <;> omega

/-- **When a proof pins view and sequence.**  `UpdateValidators` moves a replica to the
view and the sequence of the first COMMIT of an accepted proof, unless the next view
overflows.  Whoever the faulty validators are and whatever else has been signed, these belong
to a COMMIT of an honest validator for the hash exactly when more COMMITs of the proof than
validators can be faulty carry the same view and sequence. -/
theorem proofTarget_pinned_iff {validators : List Bytes} {digest proof : Bytes}
    (hempty : crypto.parseProof [] = some ⟨[]⟩)
    (haccept : checkProof crypto validators digest proof = true) :
    ∃ first rest, crypto.parseProof proof = some ⟨first :: rest⟩ ∧
      (∀ (key : PrivateKey) (newValidators : List Bytes) (st : PbftState),
        (updateValidators crypto key newValidators proof st).1.viewNumber =
          (if st.viewNumber ≤ first.pbft.commit.viewNumber ∧ 0 ≤ first.pbft.commit.viewNumber ∧
              first.pbft.commit.viewNumber ≠ 2 ^ 63 - 1 then
            first.pbft.commit.viewNumber + 1 else st.viewNumber) ∧
        (updateValidators crypto key newValidators proof st).1.lastExeSeq =
          (if st.lastExeSeq < first.pbft.commit.sequence ∧ 0 < first.pbft.commit.sequence then
            first.pbft.commit.sequence else st.lastExeSeq)) ∧
      ((∀ (faulty : Finset Bytes) (signed : Bytes → Pbft → Prop),
        faulty.card ≤ faultNumber (ValidatorMap.ofSet validators).length →
        (∀ env ∈ first :: rest, env.address crypto ∉ faulty → Authentic crypto signed env) →
        HonestCommit signed (.ofSet validators) faulty digest first.pbft.commit.viewNumber
          first.pbft.commit.sequence) ↔
      faultNumber (ValidatorMap.ofSet validators).length <
        (sameTarget first (first :: rest)).length) := by
  obtain ⟨⟨commits⟩, hparse, hvalid, hsigners, hquorum⟩ := checkProof_iff.mp haccept
  cases commits with
  | nil => simp at hquorum
  | cons first rest =>
      have hproof : proof ≠ [] := by
        rintro rfl
        simp [hempty] at hparse
      refine ⟨first, rest, hparse, fun key newValidators st =>
        updateValidators_target key newValidators hproof hparse st, ?_⟩
      have hnodup : ((sameTarget first (first :: rest)).map (PbftEnv.address crypto)).Nodup :=
        hsigners.sublist (List.filter_sublist.map _)
      have hcard : ((sameTarget first (first :: rest)).map (PbftEnv.address crypto)).toFinset.card =
          (sameTarget first (first :: rest)).length := by
        rw [List.toFinset_card_of_nodup hnodup, List.length_map]
      rw [← hcard]
      constructor
      · -- otherwise let the signers of these COMMITs be the faulty ones
        intro hpinned
        by_contra! hfew
        obtain ⟨a, -, hhonest, pbft, ⟨env, henv, rfl, rfl, -⟩, -, -, -, hview, hsequence⟩ :=
          hpinned _ (carriedBy crypto (first :: rest)) hfew fun env henv _ =>
            authentic_carriedBy env henv
        exact hhonest (List.mem_toFinset.mpr (List.mem_map_of_mem
          (mem_sameTarget.mpr ⟨henv, hview, hsequence⟩)))
      · intro hmany faulty signed hfaulty hauthentic
        obtain ⟨a, ha, hhonest⟩ := Quorum.exists_honest hfaulty hmany
        obtain ⟨env, hmem, rfl⟩ := List.mem_map.mp (List.mem_toFinset.mp ha)
        obtain ⟨henv, hview, hsequence⟩ := mem_sameTarget.mp hmem
        have hcommit := hvalid env henv
        refine ⟨_, by rw [hcommit.lookup, Option.isSome_some], hhonest, env.pbft,
          hauthentic env henv hhonest (checkSender_iff.mp hcommit.sender).2.2.2, hcommit.type_eq,
          hcommit.isSome_commit, hcommit.digest_eq, hview, hsequence⟩

end Target

open Sample in
/-- A proof whose COMMITs agree on view 0 and sequence 2. -/
theorem proofTarget_pinned_sample :
    checkProof Sample.crypto Sample.validators digest [0, 1, 2] = true ∧
      ∀ (faulty : Finset Bytes) (signed : Bytes → Pbft → Prop), faulty.card ≤ 1 →
        (∀ env ∈ [commit 0, commit 1, commit 2], env.address Sample.crypto ∉ faulty →
          Authentic Sample.crypto signed env) →
        HonestCommit signed (.ofSet Sample.validators) faulty digest 0 2 := by
  have haccept : checkProof Sample.crypto Sample.validators digest [0, 1, 2] = true := by decide
  refine ⟨haccept, ?_⟩
  obtain ⟨first, rest, hparse, -, hiff⟩ := proofTarget_pinned_iff rfl haccept
  obtain ⟨rfl, rfl⟩ : commit 0 = first ∧ [commit 1, commit 2] = rest := by
    simpa [Sample.crypto] using hparse
  exact hiff.mpr (by decide)

open Sample in
/-- Validator 3 puts its COMMIT for view 1000 and sequence 500 in front of the COMMITs of
two honest validators: the proof is accepted and moves replica 0 there, although no honest
validator has signed a COMMIT for that view and sequence. -/
theorem proofTarget_unpinned :
    checkProof Sample.crypto Sample.validators digest [7, 0, 1] = true ∧
      (updateValidators Sample.crypto (Sample.key 0) Sample.validators [7, 0, 1]
        (replica 0)).1.viewNumber = 1000 + 1 ∧
      (updateValidators Sample.crypto (Sample.key 0) Sample.validators [7, 0, 1]
        (replica 0)).1.lastExeSeq = 500 ∧
      ∃ (faulty : Finset Bytes) (signed : Bytes → Pbft → Prop), faulty.card ≤ 1 ∧
        (∀ env ∈ [commit 7, commit 0, commit 1], Authentic Sample.crypto signed env) ∧
        ¬ HonestCommit signed (.ofSet Sample.validators) faulty digest 1000 500 := by
  refine ⟨by decide, by decide, by decide, {[13]},
    carriedBy Sample.crypto [commit 7, commit 0, commit 1], by decide, authentic_carriedBy, ?_⟩
  rintro ⟨a, -, hhonest, pbft, ⟨env, henv, rfl, rfl, -⟩, -, -, -, hview, -⟩
  simp only [List.mem_cons, List.not_mem_nil, or_false] at henv
  rcases henv with rfl | rfl | rfl
  · exact hhonest (by decide)
  · exact absurd hview (by decide)
  · exact absurd hview (by decide)

end CegChain
