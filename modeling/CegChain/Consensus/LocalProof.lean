import CegChain.Consensus.System

/-!
# The proofs that a replica builds

`TryExecuteValue` hands a value over together with the COMMITs that the instance has
buffered, the first of every public key.  `CheckProof` accepts this proof only if all
of them are for the value, and if they are by different addresses.

Neither is certain.  A COMMIT is buffered before its digest is compared, so that one
faulty validator can put a COMMIT for something else into the proof; a key has several
spellings; and a COMMIT that comes from another view is counted but not buffered.
`run_proof_verifies` shows that nothing else goes wrong: as long as the COMMITs that
arrive are compatible with those in the buffer, and none of them is stray, every proof
of the run is accepted.

The invariant is `PbftInstance.Ready`: what an instance counts is in its buffer.
-/

namespace CegChain

section LocalProof

variable {crypto : Crypto} {key : PrivateKey} {trigger : Trigger} {st st' : PbftState}
  {index : PbftInstanceIndex} {pinstance : PbftInstance} {env : PbftEnv}
  {validators : List Bytes}

/-- Two COMMITs can stand in one proof: they are for the same digest, and by different
addresses unless the keys are spelled alike. -/
def PbftEnv.Compatible (crypto : Crypto) (env other : PbftEnv) : Prop :=
  env.pbft.commit.valueDigest = other.pbft.commit.valueDigest ∧
    (env.address crypto = other.address crypto →
      env.signature.publicKey = other.signature.publicKey)

theorem PbftEnv.Compatible.symm {other : PbftEnv} (hfit : env.Compatible crypto other) :
    other.Compatible crypto env :=
  ⟨hfit.1.symm, fun haddress => (hfit.2 haddress.symm).symm⟩

/-- The COMMIT that arrives fits the ones that its instance has buffered, and it is not
counted without being buffered. -/
structure Event.CommitFits (crypto : Crypto) (event : Event) (st : PbftState) : Prop where
  compatible : ∀ pinstance env, event.Delivers crypto st pinstance env →
    env.pbft.type = .commit → ∀ other ∈ pinstance.commitBuf, env.Compatible crypto other
  not_stray : ∀ env, ¬ event.DeliversStray crypto st env

/-! ## Instances -/

/-- The COMMITs in the buffer fit together, and what is counted is among them. -/
structure PbftInstance.Ready (crypto : Crypto) (validators : List Bytes)
    (index : PbftInstanceIndex) (pinstance : PbftInstance) : Prop where
  filed : pinstance.Filed crypto validators index
  commitBuf_compatible : ∀ env ∈ pinstance.commitBuf, ∀ other ∈ pinstance.commitBuf,
    env.Compatible crypto other
  commits_buffered : ∀ entry ∈ pinstance.commits, ∃ env ∈ pinstance.commitBuf,
    env.pbft.commit.replicaId = entry.1 ∧
      env.pbft.commit.valueDigest = pinstance.prePrepare.valueDigest
  waiting : pinstance.phase = .none → pinstance.commits = []
  digest_eq : pinstance.phase ≠ .none →
    pinstance.prePrepare.valueDigest = crypto.hash pinstance.prePrepare.value
  quorum : pinstance.phase = .commited →
    getQuorumSize (ValidatorMap.ofSet validators).length < pinstance.commits.length

namespace PbftInstance.Ready

theorem pushBack (hready : pinstance.Ready crypto validators index)
    (hcheck : checkMessageItem crypto (.ofSet validators) env = true)
    (hindex : env.pbft.index? = some index)
    (hfits : env.pbft.type = .commit → ∀ other ∈ pinstance.commitBuf,
      env.Compatible crypto other) :
    (pinstance.pushBack env).Ready crypto validators index := by
  have hfiled := hready.filed.pushBack hcheck hindex
  unfold PbftInstance.pushBack at *
  split at hfiled <;> rename_i htype
  · exact { hready with filed := hfiled }
  · exact { hready with filed := hfiled }
  · refine { hready with
      filed := hfiled, commitBuf_compatible := ?_, commits_buffered := ?_ }
    · intro first hfirst second hsecond
      rcases List.mem_append.mp hfirst with hold | hnew <;>
        rcases List.mem_append.mp hsecond with hold' | hnew'
      · exact hready.commitBuf_compatible first hold second hold'
      · obtain rfl := List.mem_singleton.mp hnew'
        exact (hfits htype first hold).symm
      · obtain rfl := List.mem_singleton.mp hnew
        exact hfits htype second hold'
      · obtain rfl := List.mem_singleton.mp hnew
        obtain rfl := List.mem_singleton.mp hnew'
        exact ⟨rfl, fun _ => rfl⟩
    · intro entry hentry
      obtain ⟨other, hother, hcounted⟩ := hready.commits_buffered entry hentry
      exact ⟨other, List.mem_append_left _ hother, hcounted⟩
  · exact hready

theorem sameAgreement {pinstance' : PbftInstance}
    (hready : pinstance.Ready crypto validators index)
    (hsame : pinstance.SameAgreement pinstance') :
    pinstance'.Ready crypto validators index := by
  have hfiled := hready.filed.sameAgreement hsame
  obtain ⟨hphase, hprePrepare, -, hcommits, -, -, hcommitBuf, -⟩ := hsame
  refine ⟨hfiled, ?_, ?_, ?_, ?_, ?_⟩ <;> simp only [hphase, hprePrepare, hcommits, hcommitBuf]
  exacts [hready.commitBuf_compatible, hready.commits_buffered, hready.waiting,
    hready.digest_eq, hready.quorum]

theorem proposed (now : ℤ) (hindex : env.pbft.index? = some index)
    (htype : env.pbft.type = .preprepare)
    (hdigest : env.pbft.prePrepare.valueDigest = crypto.hash env.pbft.prePrepare.value) :
    (PbftInstance.proposed env now).Ready crypto validators index := by
  refine ⟨.proposed now hindex htype, ?_, ?_, ?_, fun _ => hdigest, ?_⟩ <;>
    simp [PbftInstance.proposed, PbftInstance.new]

theorem accepted (hready : pinstance.Ready crypto validators index)
    (checkValueRet : CheckValueResult) (hphase : pinstance.phase = .none)
    (hdigest : env.pbft.prePrepare.valueDigest = crypto.hash env.pbft.prePrepare.value) :
    (pinstance.accepted env.pbft.prePrepare checkValueRet).Ready crypto validators index := by
  -- nothing has been counted for the value that is replaced
  have hcommits := hready.waiting hphase
  refine ⟨hready.filed.accepted _ _ hphase, hready.commitBuf_compatible, ?_, ?_,
    fun _ => hdigest, ?_⟩ <;> simp [PbftInstance.accepted, hcommits]

theorem withPrepare (hready : pinstance.Ready crypto validators index) (quorumSize : ℕ)
    (hdue : pinstance.Due env) (htype : env.pbft.type = .prepare)
    (hdigest : pinstance.prePrepare.valueDigest = env.pbft.prepare.valueDigest) :
    (pinstance.withPrepare quorumSize env.pbft.prepare).Ready crypto validators index := by
  have hfiled := hready.filed.withPrepare quorumSize hdue htype hdigest
  have hphase := hready.filed.phase_ne_none hdue (by simp [htype])
  unfold PbftInstance.withPrepare at *
  simp only at *
  split_ifs at *
  · exact { hready with
      filed := hfiled, waiting := by simp, digest_eq := fun _ => hready.digest_eq hphase
      quorum := by simp }
  · exact { hready with filed := hfiled }
  · exact { hready with filed := hfiled }

theorem withCommit (hready : pinstance.Ready crypto validators index) (now : ℤ)
    (hdue : pinstance.Due env) (htype : env.pbft.type = .commit)
    (hdigest : pinstance.prePrepare.valueDigest = env.pbft.commit.valueDigest)
    (hnew : pinstance.commits.lookup env.pbft.commit.replicaId = none) :
    (pinstance.withCommit (getQuorumSize (ValidatorMap.ofSet validators).length)
      env.pbft.commit now).Ready crypto validators index := by
  have hfiled := hready.filed.withCommit (getQuorumSize (ValidatorMap.ofSet validators).length)
    env.pbft.commit now
  have hmem := hready.filed.mem_commitBuf hdue.mem_buffered htype
  have hphase := hready.filed.phase_ne_none hdue (by simp [htype])
  have hlength := OrderedMap.length_insert_of_lookup_eq_none env.pbft.commit hnew
  have hbuffered : ∀ entry ∈ OrderedMap.insert env.pbft.commit.replicaId env.pbft.commit
      pinstance.commits, ∃ other ∈ pinstance.commitBuf,
        other.pbft.commit.replicaId = entry.1 ∧
          other.pbft.commit.valueDigest = pinstance.prePrepare.valueDigest := by
    intro entry hentry
    rcases OrderedMap.mem_insert.mp hentry with rfl | ⟨hold, -⟩
    · exact ⟨env, hmem, rfl, hdigest.symm⟩
    · exact hready.commits_buffered entry hold
  unfold PbftInstance.withCommit at *
  simp only at *
  split_ifs at * with hquorum
  · exact { hready with
      filed := hfiled, commits_buffered := hbuffered, waiting := by simp
      digest_eq := fun _ => hready.digest_eq hphase, quorum := fun _ => hquorum.1 }
  · refine { hready with
      filed := hfiled, commits_buffered := hbuffered
      waiting := fun hnone => absurd hnone hphase, quorum := fun hcommited => ?_ }
    have hold := hready.quorum hcommited
    simp only [hlength]
    omega

/-- The moves keep the instances ready if what arrives fits and nothing is stray. -/
theorem kept
    (hreceived : ∀ st pinstance env, trigger.received st pinstance env →
      checkMessageItem crypto (.ofSet validators) env = true ∧
        (env.pbft.type = .commit → ∀ other ∈ pinstance.commitBuf, env.Compatible crypto other))
    (hstray : ∀ env, ¬ trigger.stray env) :
    Kept crypto trigger (getQuorumSize (ValidatorMap.ofSet validators).length)
      fun index pinstance => pinstance.Ready crypto validators index where
  new index now := by
    refine ⟨.new index now, ?_, ?_, ?_, ?_, ?_⟩ <;> simp [PbftInstance.new]
  pushBack hready hreceives hindex :=
    hready.pushBack (hreceived _ _ _ hreceives).1 hindex (hreceived _ _ _ hreceives).2
  sameAgreement hready hsame := hready.sameAgreement hsame
  proposed now _ hindex htype hdigest := proposed now hindex htype hdigest
  accepted checkValueRet hready hphase _ hdigest := hready.accepted checkValueRet hphase hdigest
  withPrepare hready hdue htype hdigest := hready.withPrepare _ hdue htype hdigest
  withCommit now hready hsource htype hdigest hnew :=
    hready.withCommit now (hsource.resolve_right fun h => hstray _ h.1) htype hdigest hnew

end PbftInstance.Ready

/-! ## The proof -/

theorem mem_proofCommits {vec : List PbftEnv} {commitNode : List Bytes}
    (hmem : env ∈ proofCommits vec commitNode) :
    env ∈ vec ∧ env.signature.publicKey ∉ commitNode := by
  induction vec generalizing commitNode with
  | nil => simp [proofCommits] at hmem
  | cons head vec ih =>
      rw [proofCommits] at hmem
      split_ifs at hmem with hseen
      · obtain ⟨hvec, hnode⟩ := ih hmem
        exact ⟨List.mem_cons_of_mem _ hvec, hnode⟩
      · rcases List.mem_cons.mp hmem with rfl | htail
        · exact ⟨List.mem_cons_self, hseen⟩
        · obtain ⟨hvec, hnode⟩ := ih htail
          exact ⟨List.mem_cons_of_mem _ hvec, fun h => hnode (List.mem_cons_of_mem _ h)⟩

theorem nodup_proofCommits (vec : List PbftEnv) (commitNode : List Bytes) :
    ((proofCommits vec commitNode).map fun env => env.signature.publicKey).Nodup := by
  induction vec generalizing commitNode with
  | nil => simp [proofCommits]
  | cons head vec ih =>
      rw [proofCommits]
      split_ifs
      · exact ih _
      · rw [List.map_cons, List.nodup_cons]
        refine ⟨fun hmem => ?_, ih _⟩
        obtain ⟨env, henv, hkey⟩ := List.mem_map.mp hmem
        exact (mem_proofCommits henv).2 (hkey ▸ List.mem_cons_self)

/-- Every key in the buffer is in the proof. -/
theorem exists_proofCommits {vec : List PbftEnv} {commitNode : List Bytes} (hmem : env ∈ vec)
    (hnode : env.signature.publicKey ∉ commitNode) :
    ∃ other ∈ proofCommits vec commitNode,
      other.signature.publicKey = env.signature.publicKey := by
  induction vec generalizing commitNode with
  | nil => simp at hmem
  | cons head vec ih =>
      rw [proofCommits]
      rcases List.mem_cons.mp hmem with rfl | htail
      · rw [if_neg hnode]
        exact ⟨env, List.mem_cons_self, rfl⟩
      · split_ifs
        · exact ih htail hnode
        · by_cases hkey : env.signature.publicKey = head.signature.publicKey
          · exact ⟨head, List.mem_cons_self, hkey.symm⟩
          · obtain ⟨other, hother, hsame⟩ :=
              ih htail (List.not_mem_cons_of_ne_of_not_mem hkey hnode)
            exact ⟨other, List.mem_cons_of_mem _ hother, hsame⟩

/-- What `CheckProof` wants of the COMMITs of a proof. -/
structure PbftProof.Verifies (crypto : Crypto) (validators : List Bytes) (digest : Bytes)
    (proof : PbftProof) : Prop where
  valid : ∀ env ∈ proof.commits, ValidCommit crypto (.ofSet validators) digest env
  nodup : (proof.commits.map (PbftEnv.address crypto)).Nodup
  quorum : getQuorumSize (ValidatorMap.ofSet validators).length < proof.commits.length

/-- **The proof of an instance that is ready and COMMITED.** -/
theorem PbftInstance.Ready.verifies (hready : pinstance.Ready crypto validators index)
    (hphase : pinstance.phase = .commited) :
    (⟨proofCommits pinstance.commitBuf []⟩ : PbftProof).Verifies crypto validators
      (crypto.hash pinstance.prePrepare.value) := by
  have hquorum := hready.quorum hphase
  have hvalue := hready.digest_eq (by simp [hphase])
  -- some COMMIT is counted, and all the others in the buffer are for the same digest
  obtain ⟨entry, hentry⟩ := List.exists_mem_of_length_pos (Nat.zero_lt_of_lt hquorum)
  obtain ⟨counted, hcounted, -, hdigest⟩ := hready.commits_buffered entry hentry
  have hvalid : ∀ env ∈ pinstance.commitBuf, ValidCommit crypto (.ofSet validators)
      (crypto.hash pinstance.prePrepare.value) env := by
    intro env henv
    refine validCommit_of_check (hready.filed.commitBuf_check env henv)
      (hready.filed.commitBuf_type env henv) ?_
    rw [(hready.commitBuf_compatible env henv counted hcounted).1, hdigest, hvalue]
  refine ⟨fun env henv => hvalid env (mem_proofCommits henv).1, ?_, ?_⟩
  · -- different keys in the buffer are different addresses
    have hpairs := List.pairwise_map.mp (nodup_proofCommits pinstance.commitBuf [])
    refine List.pairwise_map.mpr (hpairs.imp_of_mem fun hfirst hsecond hne haddress => hne ?_)
    exact (hready.commitBuf_compatible _ (mem_proofCommits hfirst).1 _
      (mem_proofCommits hsecond).1).2 haddress
  · -- the replicas that are counted are among the replicas of the proof
    have hsub : pinstance.commits.map Prod.fst ⊆
        (proofCommits pinstance.commitBuf []).map fun env => env.pbft.commit.replicaId := by
      intro replicaId hreplica
      obtain ⟨entry, hentry, rfl⟩ := List.mem_map.mp hreplica
      obtain ⟨env, henv, hreplica, -⟩ := hready.commits_buffered entry hentry
      obtain ⟨other, hother, hkey⟩ := exists_proofCommits henv List.not_mem_nil
      refine List.mem_map.mpr ⟨other, hother, ?_⟩
      have haddress : other.address crypto = env.address crypto := congrArg crypto.encAddress hkey
      have hlookup := (hvalid other (mem_proofCommits hother).1).lookup
      rw [haddress, (hvalid env henv).lookup] at hlookup
      rw [← Option.some.inj hlookup, hreplica]
    have hlength := (List.subperm_of_subset hready.filed.commits_nodup hsub).length_le
    rw [List.length_map, List.length_map] at hlength
    exact hquorum.trans_le hlength

/-! ## Runs -/

/-- All instances are ready, and the proofs that have been handed out verify. -/
structure PbftState.Ready (crypto : Crypto) (key : PrivateKey) (validators : List Bytes)
    (st : PbftState) : Prop where
  typed : st.Typed
  configured : st.Configured crypto key validators
  instances : ∀ entry ∈ st.instances, entry.2.Ready crypto validators entry.1
  verifies : ∀ sequence value proof, .valueCommited sequence value proof ∈ st.outputs →
    proof.Verifies crypto validators (crypto.hash value)

theorem PbftState.Ready.move (hready : st.Ready crypto key validators)
    (hreceived : ∀ st pinstance env, trigger.received st pinstance env →
      checkMessageItem crypto (.ofSet validators) env = true ∧
        (env.pbft.type = .commit → ∀ other ∈ pinstance.commitBuf, env.Compatible crypto other))
    (hstray : ∀ env, ¬ trigger.stray env) (hmove : Move crypto key trigger st st') :
    st'.Ready crypto key validators := by
  have hkept := PbftInstance.Ready.kept hreceived hstray
  rw [← hready.configured.validators_eq] at hkept
  refine ⟨hmove.typed hready.typed, hmove.configured hready.configured,
    hkept.move hmove hready.instances, fun sequence value proof houtput => ?_⟩
  rcases hmove.of_valueCommited houtput with hold | ⟨index, pinstance, hmem, hphase, -, rfl, rfl⟩
  · exact hready.verifies sequence value proof hold
  · exact (hready.instances _ hmem).verifies hphase

theorem PbftState.Ready.step {event : Event} (hready : st.Ready crypto key validators)
    (hkeeps : event.KeepsValidators validators) (hfits : event.CommitFits crypto st) :
    (step crypto key st event).Ready crypto key validators := by
  refine (step_moves hready.typed hready.configured hkeeps).invariant
    (fun mid mid' hmove hmid => hmid.move ?_ hfits.not_stray hmove) hready
  rintro - pinstance env ⟨hdelivers, -⟩
  have hcheck : checkMessageItem crypto st.validators env = true :=
    hdelivers.choose_spec.choose_spec.2.1
  rw [hready.configured.validators_eq] at hcheck
  exact ⟨hcheck, hfits.compatible pinstance env hdelivers⟩

/-- **The proofs of a run verify**, as long as the COMMITs that arrive fit. -/
theorem run_proof_verifies (events : List Event)
    (hmeets : RunMeets (Event.CommitFits crypto) crypto key validators events)
    (sequence : ℤ) (value : Bytes) (proof : PbftProof)
    (houtput : .valueCommited sequence value proof ∈ (run crypto key validators events).outputs)
    (hparse : crypto.parseProof (crypto.serializeProof proof) = some proof) :
    checkProof crypto validators (crypto.hash value) (crypto.serializeProof proof) = true := by
  have hready : (run crypto key validators events).Ready crypto key validators := by
    refine run_invariant ⟨initialState_typed, initialState_configured, ?_, ?_⟩
      (fun st event hkeeps hfits hready => hready.step hkeeps hfits) events hmeets
    · simp [initialState, setValidators]
    · simp [initialState, setValidators]
  obtain ⟨hvalid, hnodup, hquorum⟩ := hready.verifies sequence value proof houtput
  exact checkProof_iff.mpr ⟨proof, hparse, hvalid, hnodup, hquorum⟩

end LocalProof

/-! ## Runs of four replicas -/

section Decide

variable {crypto : Crypto} {key : PrivateKey} {validators : List Bytes}

/-- Whether the COMMIT that arrives is of the current view, within the watermark, and fits the
COMMITs in the buffer of its instance. -/
def Event.commitFits? (crypto : Crypto) (event : Event) (st : PbftState) : Bool :=
  match event with
  | .recv env _ _ => env.pbft.type != .commit ||
      st.inWaterMark env.pbft.commit.sequence && st.viewNumber == env.pbft.commit.viewNumber &&
        (st.getInstance ⟨env.pbft.commit.viewNumber, env.pbft.commit.sequence⟩).commitBuf.all
          fun other => env.pbft.commit.valueDigest == other.pbft.commit.valueDigest &&
            (env.address crypto != other.address crypto ||
              env.signature.publicKey == other.signature.publicKey)
  | _ => true

theorem commitFits_of_commitFits? (event : Event) (st : PbftState)
    (hfits : event.commitFits? crypto st = true) : event.CommitFits crypto st := by
  constructor
  · rintro pinstance env ⟨checkValue, now, rfl, -, -, index, hindex, -, -, -, hinstance⟩ htype
    simp only [Event.commitFits?, htype, bne_self_eq_false, Bool.false_or, Bool.and_eq_true,
      List.all_eq_true] at hfits
    obtain rfl : (⟨env.pbft.commit.viewNumber, env.pbft.commit.sequence⟩ : PbftInstanceIndex) =
        index := by simpa [Pbft.index?, htype] using hindex
    intro other hother
    rcases hinstance with hlookup | ⟨-, rfl⟩
    · rw [getInstance_of_lookup hlookup] at hfits
      have hcompatible := hfits.2 other hother
      simp only [beq_iff_eq, Bool.or_eq_true, bne_iff_ne] at hcompatible
      exact ⟨hcompatible.1, fun haddress => hcompatible.2.resolve_left fun hne => hne haddress⟩
    · exact absurd hother List.not_mem_nil
  · rintro env ⟨checkValue, now, rfl, -, htype, index, pinstance, hindex, haway, -⟩
    simp only [Event.commitFits?, htype, bne_self_eq_false, Bool.false_or, Bool.and_eq_true,
      beq_iff_eq] at hfits
    obtain rfl : (⟨env.pbft.commit.viewNumber, env.pbft.commit.sequence⟩ : PbftInstanceIndex) =
        index := by simpa [Pbft.index?, htype] using hindex
    rcases haway with hwater | hview
    · rw [hfits.1.1] at hwater
      exact absurd hwater (by decide)
    · exact hview hfits.1.2

end Decide

namespace Sample

/-- The validators 0, 1 and 2 agree on a value and sign COMMITs for it. -/
def agree : List (Bytes × Event) :=
  [([10], .request [7] 0), deliver 1 (proposal 0 0 [7]), deliver 2 (proposal 0 0 [7]),
    deliver 0 (prepareFor 1 0 [7]), deliver 0 (prepareFor 2 0 [7]),
    deliver 1 (prepareFor 1 0 [7]), deliver 1 (prepareFor 2 0 [7]),
    deliver 2 (prepareFor 1 0 [7]), deliver 2 (prepareFor 2 0 [7])]

/-- Their COMMITs arrive at replica 1. -/
def collect : List (Bytes × Event) :=
  [deliver 1 (commit 0), deliver 1 (commit 1), deliver 1 (commit 2)]

end Sample

open Sample in
/-- With the three COMMITs alone the proof verifies. -/
theorem run_proof_verifies_three :
    let moves := agree ++ collect
    let proof : PbftProof := ⟨[commit 0, commit 1, commit 2]⟩
    .valueCommited 2 [7] proof ∈ (run Sample.crypto (Sample.key 1) Sample.validators
        (System.eventsOf [11] moves)).outputs ∧
      checkProof Sample.crypto Sample.validators (Sample.crypto.hash [7])
        (Sample.crypto.serializeProof proof) = true := by
  intro moves proof
  have hruns : (system [13]).Runs (Event.CommitFits Sample.crypto) moves :=
    System.runs_of_runs? (Event.commitFits? Sample.crypto) commitFits_of_commitFits?
      (by decide +kernel)
  have houtput : .valueCommited 2 [7] proof ∈ (run Sample.crypto (Sample.key 1) Sample.validators
      (System.eventsOf [11] moves)).outputs := List.mem_of_getElem? (i := 2) rfl
  exact ⟨houtput, run_proof_verifies _ (hruns.runMeets [11]) 2 [7] proof houtput rfl⟩

open Sample in
/-- A faulty validator sends a COMMIT for something else before the COMMITs of the others
arrive.  The value is executed, and its proof is refused. -/
theorem run_proof_rejected :
    let moves := agree ++ Sample.deliver 1 (commit 11) :: collect
    let proof : PbftProof := ⟨[commit 11, commit 0, commit 1, commit 2]⟩
    (system [13]).Runs (fun _ _ => True) moves ∧ (system [13]).Honest [11] ∧
      .valueCommited 2 [7] proof ∈ (run Sample.crypto (Sample.key 1) Sample.validators
        (System.eventsOf [11] moves)).outputs ∧
      Sample.crypto.parseProof (Sample.crypto.serializeProof proof) = some proof ∧
      checkProof Sample.crypto Sample.validators (Sample.crypto.hash [7])
        (Sample.crypto.serializeProof proof) = false := by
  refine ⟨System.runs_of_runs? (fun _ _ => true) (fun _ _ _ => trivial) ?_, by decide, ?_, rfl, ?_⟩
  · decide +kernel
  · exact List.mem_of_getElem? (i := 2) rfl
  · decide +kernel

end CegChain
