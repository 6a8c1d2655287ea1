import CegChain.Consensus.System

/-!
# Agreement

A replica that has signed a COMMIT for a value at a sequence may sign one for another value
at the same sequence: entering a view erases nothing that would stop it, an instance of the
new view replaces the old one, and no NEW-VIEW binds the new primary to a prepared value.
So two honest replicas can execute different values with a single faulty validator
(`agreement_broken`).

What is missing is exactly this lock.  `agreement` shows that it is enough: if no honest
replica takes a PRE-PREPARE, from the network or as its own proposal, for a sequence at which
it has signed a COMMIT for another digest, then no two honest replicas ever execute different
values at one sequence.

The proof has two invariants.  `PbftInstance.Supported` says that the COMMITs an instance
counts have been signed by the honest ones among their senders.  `PbftState.Tidy` keeps the
COMMITs of a replica apart: what the instances of a sequence can still commit to is what the
replica has committed to.
-/

namespace CegChain

section Supported

variable {crypto : Crypto} (sys : System crypto) (signed : Bytes → ℤ → Bytes → Prop)

/-- The COMMITs of an instance come from validators, and the honest ones among them have
signed them. -/
structure PbftInstance.Supported (index : PbftInstanceIndex) (pinstance : PbftInstance) :
    Prop where
  filed : pinstance.Filed crypto sys.validators index
  commitBuf_signed : ∀ env ∈ pinstance.commitBuf, sys.Honest (env.address crypto) →
    signed (env.address crypto) index.sequence env.pbft.commit.valueDigest
  commits_signed : ∀ entry ∈ pinstance.commits,
    ∃ a, (ValidatorMap.ofSet sys.validators).lookup a = some entry.1 ∧
      (sys.Honest a → signed a index.sequence pinstance.prePrepare.valueDigest)
  digest_eq : pinstance.phase ≠ .none →
    pinstance.prePrepare.valueDigest = crypto.hash pinstance.prePrepare.value
  quorum : pinstance.phase = .commited →
    getQuorumSize sys.validators.length < pinstance.commits.length

/-- The validators whose COMMITs an instance counts. -/
def PbftInstance.signers (pinstance : PbftInstance) : Finset Bytes :=
  sys.validators.toFinset.filter fun a =>
    getValidatorIndex a (.ofSet sys.validators) ∈ pinstance.commits.map Prod.fst

/-- What honest validators sign is the hash of a value, and it is not empty. -/
def Hashed : Prop :=
  ∀ a sequence digest, sys.Honest a → signed a sequence digest →
    digest ≠ [] ∧ ∃ value, digest = crypto.hash value

/-- The envelope has been checked, and if it is a COMMIT of an honest validator, then this
validator has signed it. -/
structure PbftEnv.Vouched (env : PbftEnv) : Prop where
  check : checkMessageItem crypto (.ofSet sys.validators) env = true
  signed : env.pbft.type = .commit → sys.Honest (env.address crypto) →
    signed (env.address crypto) env.pbft.commit.sequence env.pbft.commit.valueDigest

variable {sys signed} {index : PbftInstanceIndex} {pinstance : PbftInstance} {env : PbftEnv}

theorem System.lookup_validator {a : Bytes} (hmem : a ∈ sys.validators) :
    (ValidatorMap.ofSet sys.validators).lookup a =
      some (getValidatorIndex a (.ofSet sys.validators)) := by
  obtain ⟨i, hi⟩ := List.mem_iff_getElem?.mp hmem
  have hlookup := (ValidatorMap.lookup_ofSet sys.nodup).mpr ⟨i, rfl, hi⟩
  rw [getValidatorIndex, hlookup, Option.getD_some]

theorem System.mem_of_lookup {a : Bytes} {replicaId : ℤ}
    (hlookup : (ValidatorMap.ofSet sys.validators).lookup a = some replicaId) :
    a ∈ sys.validators := by
  obtain ⟨i, -, hi⟩ := (ValidatorMap.lookup_ofSet sys.nodup).mp hlookup
  exact List.mem_of_getElem? hi

namespace PbftInstance.Supported

theorem length_le_card_signers (hsupported : pinstance.Supported sys signed index) :
    pinstance.commits.length ≤ (pinstance.signers sys).card := by
  have hsub : (pinstance.commits.map Prod.fst).toFinset ⊆
      (pinstance.signers sys).image fun a => getValidatorIndex a (.ofSet sys.validators) := by
    intro replicaId hreplica
    obtain ⟨entry, hentry, rfl⟩ := List.mem_map.mp (List.mem_toFinset.mp hreplica)
    obtain ⟨a, hlookup, -⟩ := hsupported.commits_signed entry hentry
    have hindex : getValidatorIndex a (.ofSet sys.validators) = entry.1 := by
      rw [getValidatorIndex, hlookup, Option.getD_some]
    refine Finset.mem_image.mpr ⟨a, Finset.mem_filter.mpr ⟨?_, ?_⟩, hindex⟩
    · exact List.mem_toFinset.mpr (System.mem_of_lookup hlookup)
    · rw [hindex]
      exact List.mem_map_of_mem hentry
  have hcard := (Finset.card_le_card hsub).trans Finset.card_image_le
  rwa [List.toFinset_card_of_nodup hsupported.filed.commits_nodup, List.length_map] at hcard

theorem signed_of_mem_signers (hsupported : pinstance.Supported sys signed index) {a : Bytes}
    (ha : a ∈ pinstance.signers sys) (hhonest : sys.Honest a) :
    signed a index.sequence pinstance.prePrepare.valueDigest := by
  obtain ⟨hmem, hindex⟩ := Finset.mem_filter.mp ha
  obtain ⟨entry, hentry, heq⟩ := List.mem_map.mp hindex
  obtain ⟨b, hlookup, hsigned⟩ := hsupported.commits_signed entry hentry
  have hlookup' := System.lookup_validator (List.mem_toFinset.mp hmem)
  rw [← heq] at hlookup'
  obtain rfl : a = b := ValidatorMap.eq_of_lookup hlookup' hlookup
  exact hsigned hhonest

/-- Before there is a value, only faulty validators are counted: the digest is empty. -/
theorem length_le_of_phase_none (hsupported : pinstance.Supported sys signed index)
    (hhashed : Hashed sys signed) (hphase : pinstance.phase = .none) :
    pinstance.commits.length ≤ getQuorumSize sys.validators.length := by
  have hsub : pinstance.signers sys ⊆ sys.faulty := by
    intro a ha
    by_contra hfaulty
    have hmem := List.mem_toFinset.mp (Finset.mem_filter.mp ha).1
    have hsigned := hsupported.signed_of_mem_signers ha ⟨hmem, hfaulty⟩
    rw [(hsupported.filed.waiting hphase).1] at hsigned
    exact (hhashed a _ _ ⟨hmem, hfaulty⟩ hsigned).1 rfl
  have hcard := (hsupported.length_le_card_signers.trans (Finset.card_le_card hsub)).trans
    sys.card_faulty
  exact hcard.trans (faultNumber_le_quorum _)

theorem new (index : PbftInstanceIndex) (now : ℤ) :
    (PbftInstance.new now).Supported sys signed index := by
  refine ⟨.new index now, ?_, ?_, ?_, ?_⟩ <;> simp [PbftInstance.new]

theorem pushBack (hsupported : pinstance.Supported sys signed index)
    (hvouched : env.Vouched sys signed) (hindex : env.pbft.index? = some index) :
    (pinstance.pushBack env).Supported sys signed index := by
  have hfiled := hsupported.filed.pushBack hvouched.check hindex
  unfold PbftInstance.pushBack at *
  split at hfiled <;> rename_i htype
  · exact { hsupported with filed := hfiled }
  · exact { hsupported with filed := hfiled }
  · refine { hsupported with filed := hfiled, commitBuf_signed := fun other hother => ?_ }
    rcases List.mem_append.mp hother with hold | hnew
    · exact hsupported.commitBuf_signed other hold
    · obtain rfl := List.mem_singleton.mp hnew
      rw [← PbftInstance.Filed.commit_sequence hindex htype]
      exact hvouched.signed htype
  · exact hsupported

theorem sameAgreement {pinstance' : PbftInstance}
    (hsupported : pinstance.Supported sys signed index)
    (hsame : pinstance.SameAgreement pinstance') :
    pinstance'.Supported sys signed index := by
  have hfiled := hsupported.filed.sameAgreement hsame
  obtain ⟨hphase, hprePrepare, -, hcommits, -, -, hcommitBuf, -⟩ := hsame
  refine ⟨hfiled, ?_, ?_, ?_, ?_⟩ <;> simp only [hphase, hprePrepare, hcommits, hcommitBuf]
  exacts [hsupported.commitBuf_signed, hsupported.commits_signed, hsupported.digest_eq,
    hsupported.quorum]

theorem proposed (now : ℤ) (hindex : env.pbft.index? = some index)
    (htype : env.pbft.type = .preprepare)
    (hdigest : env.pbft.prePrepare.valueDigest = crypto.hash env.pbft.prePrepare.value) :
    (PbftInstance.proposed env now).Supported sys signed index := by
  refine ⟨.proposed now hindex htype, ?_, ?_, fun _ => hdigest, ?_⟩ <;>
    simp [PbftInstance.proposed, PbftInstance.new]

theorem accepted (hsupported : pinstance.Supported sys signed index) (hhashed : Hashed sys signed)
    (checkValueRet : CheckValueResult) (hphase : pinstance.phase = .none)
    (hdigest : env.pbft.prePrepare.valueDigest = crypto.hash env.pbft.prePrepare.value) :
    (pinstance.accepted env.pbft.prePrepare checkValueRet).Supported sys signed index := by
  refine ⟨hsupported.filed.accepted _ _ hphase, hsupported.commitBuf_signed,
    fun entry hentry => ?_, fun _ => hdigest, by simp [PbftInstance.accepted]⟩
  -- what has been counted for the empty digest is by faulty validators
  obtain ⟨a, hlookup, hsigned⟩ := hsupported.commits_signed entry hentry
  rw [(hsupported.filed.waiting hphase).1] at hsigned
  exact ⟨a, hlookup, fun hhonest => absurd rfl (hhashed a _ _ hhonest (hsigned hhonest)).1⟩

theorem withPrepare (hsupported : pinstance.Supported sys signed index) (quorumSize : ℕ)
    (hdue : pinstance.Due env) (htype : env.pbft.type = .prepare)
    (hdigest : pinstance.prePrepare.valueDigest = env.pbft.prepare.valueDigest) :
    (pinstance.withPrepare quorumSize env.pbft.prepare).Supported sys signed index := by
  have hfiled := hsupported.filed.withPrepare quorumSize hdue htype hdigest
  have hphase := hsupported.filed.phase_ne_none hdue (by simp [htype])
  unfold PbftInstance.withPrepare at *
  simp only at *
  split_ifs at *
  · exact { hsupported with
      filed := hfiled, digest_eq := fun _ => hsupported.digest_eq hphase, quorum := by simp }
  · exact { hsupported with filed := hfiled }
  · exact { hsupported with filed := hfiled }

/-- The COMMITs with one more. -/
theorem commits_signed_insert (hsupported : pinstance.Supported sys signed index)
    (hsource : pinstance.Due env ∨ env.Vouched sys signed ∧ env.pbft.index? = some index)
    (htype : env.pbft.type = .commit)
    (hdigest : pinstance.prePrepare.valueDigest = env.pbft.commit.valueDigest) :
    ∀ entry ∈ OrderedMap.insert env.pbft.commit.replicaId env.pbft.commit pinstance.commits,
      ∃ a, (ValidatorMap.ofSet sys.validators).lookup a = some entry.1 ∧
        (sys.Honest a → signed a index.sequence pinstance.prePrepare.valueDigest) := by
  have hcheck : checkMessageItem crypto (.ofSet sys.validators) env = true ∧
      (sys.Honest (env.address crypto) →
        signed (env.address crypto) index.sequence env.pbft.commit.valueDigest) := by
    rcases hsource with hdue | ⟨hvouched, hindex⟩
    · have hmem := hsupported.filed.mem_commitBuf hdue.mem_buffered htype
      exact ⟨hsupported.filed.commitBuf_check env hmem, hsupported.commitBuf_signed env hmem⟩
    · rw [← PbftInstance.Filed.commit_sequence hindex htype]
      exact ⟨hvouched.check, hvouched.signed htype⟩
  intro entry hentry
  rcases OrderedMap.mem_insert.mp hentry with rfl | ⟨hold, -⟩
  · refine ⟨env.address crypto, (validCommit_of_check hcheck.1 htype rfl).lookup, ?_⟩
    rw [hdigest]
    exact hcheck.2
  · exact hsupported.commits_signed entry hold

/-- Nothing is COMMITED before there is a value. -/
theorem withCommit_phase (hsupported : pinstance.Supported sys signed index)
    (hhashed : Hashed sys signed) (now : ℤ)
    (hsource : pinstance.Due env ∨ env.Vouched sys signed ∧ env.pbft.index? = some index)
    (htype : env.pbft.type = .commit)
    (hdigest : pinstance.prePrepare.valueDigest = env.pbft.commit.valueDigest)
    (hphase : pinstance.phase = .none) :
    (pinstance.withCommit (getQuorumSize sys.validators.length) env.pbft.commit now).phase =
      .none := by
  have hcounted : ({ pinstance with
      commits := OrderedMap.insert env.pbft.commit.replicaId env.pbft.commit pinstance.commits } :
      PbftInstance).Supported sys signed index :=
    { hsupported with
      filed := { hsupported.filed with
        commits_nodup := OrderedMap.nodup_insert _ _ hsupported.filed.commits_nodup }
      commits_signed := hsupported.commits_signed_insert hsource htype hdigest
      quorum := by simp [hphase] }
  have hlength := hcounted.length_le_of_phase_none hhashed hphase
  unfold PbftInstance.withCommit
  simp only
  rw [if_neg fun hquorum => absurd hlength (not_le.mpr hquorum.1)]
  exact hphase

theorem withCommit (hsupported : pinstance.Supported sys signed index)
    (hhashed : Hashed sys signed) (now : ℤ)
    (hsource : pinstance.Due env ∨ env.Vouched sys signed ∧ env.pbft.index? = some index)
    (htype : env.pbft.type = .commit)
    (hdigest : pinstance.prePrepare.valueDigest = env.pbft.commit.valueDigest)
    (hnew : pinstance.commits.lookup env.pbft.commit.replicaId = none) :
    (pinstance.withCommit (getQuorumSize sys.validators.length) env.pbft.commit now).Supported
      sys signed index := by
  have hfiled := hsupported.filed.withCommit (getQuorumSize sys.validators.length)
    env.pbft.commit now
  have hcommits := hsupported.commits_signed_insert hsource htype hdigest
  have hlength := OrderedMap.length_insert_of_lookup_eq_none env.pbft.commit hnew
  have hnone := hsupported.withCommit_phase hhashed now hsource htype hdigest
  unfold PbftInstance.withCommit at *
  simp only at *
  split_ifs at * with hquorum
  · refine { hsupported with
      filed := hfiled, commits_signed := hcommits, digest_eq := fun _ => ?_
      quorum := fun _ => hquorum.1 }
    exact hsupported.digest_eq fun hphase => by simpa using hnone hphase
  · refine { hsupported with
      filed := hfiled, commits_signed := hcommits, quorum := fun hcommited => ?_ }
    have hold := hsupported.quorum hcommited
    simp only [hlength]
    omega

/-- The moves keep the instances supported if what arrives is vouched for. -/
theorem kept {trigger : Trigger} (hhashed : Hashed sys signed)
    (hreceived : ∀ st pinstance env, trigger.received st pinstance env → env.Vouched sys signed)
    (hstray : ∀ env, trigger.stray env → env.Vouched sys signed) :
    Kept crypto trigger (getQuorumSize sys.validators.length)
      fun index pinstance => pinstance.Supported sys signed index where
  new := new
  pushBack hsupported hreceives hindex := hsupported.pushBack (hreceived _ _ _ hreceives) hindex
  sameAgreement hsupported hsame := hsupported.sameAgreement hsame
  proposed now _ hindex htype hdigest := proposed now hindex htype hdigest
  accepted checkValueRet hsupported hphase _ hdigest :=
    hsupported.accepted hhashed checkValueRet hphase hdigest
  withPrepare hsupported hdue htype hdigest := hsupported.withPrepare _ hdue htype hdigest
  withCommit now hsupported hsource htype hdigest hnew :=
    hsupported.withCommit hhashed now (hsource.imp_right fun h => ⟨hstray _ h.1, h.2⟩) htype
      hdigest hnew

end PbftInstance.Supported

end Supported

/-! ## The COMMITs of one replica -/

section Tidy

variable {crypto : Crypto} {key : PrivateKey} {trigger : Trigger} {st st' : PbftState}
  {index : PbftInstanceIndex} {pinstance pinstance' : PbftInstance} {env : PbftEnv}

/-- How an instance is tied to the COMMITs that the replica has signed: `committed` are their
sequences and digests.  An instance of the current view, or one that has sent a COMMIT, is
for the digest that has been committed to, if any; before it has a value, its PRE-PREPAREs
are. -/
structure PbftInstance.Tied (crypto : Crypto) (viewNumber lastExeSeq : ℤ)
    (committed : ℤ → Bytes → Prop) (index : PbftInstanceIndex) (pinstance : PbftInstance) :
    Prop where
  view_le : index.viewNumber ≤ viewNumber
  sequence_le : index.sequence ≤ lastExeSeq + ckpInterval
  sent : pinstance.lastCommitSendTime ≠ 0 → pinstance.prepares ≠ [] ∧ pinstance.phase ≠ .none ∧
    committed index.sequence pinstance.prePrepare.valueDigest
  lock : index.viewNumber = viewNumber ∨ pinstance.lastCommitSendTime ≠ 0 →
    pinstance.phase ≠ .none → ∀ digest, committed index.sequence digest →
      digest = pinstance.prePrepare.valueDigest
  buffered : pinstance.phase = .none → ∀ env ∈ pinstance.prePrepareBuf,
    env.pbft.prePrepare.valueDigest = crypto.hash env.pbft.prePrepare.value →
    ∀ digest, committed index.sequence digest → digest = env.pbft.prePrepare.valueDigest

/-- An instance without a value is the only one of its sequence. -/
def PbftState.Single (st : PbftState) : Prop :=
  ∀ entry ∈ st.instances, entry.2.phase = .none →
    ∀ other ∈ st.instances, other.1.sequence = entry.1.sequence → other = entry

/-- The instances are tied to the COMMITs of the replica. -/
structure PbftState.Tidy (crypto : Crypto) (st : PbftState) : Prop where
  tied : ∀ entry ∈ st.instances,
    entry.2.Tied crypto st.viewNumber st.lastExeSeq st.SignedCommit entry.1
  single : st.Single

/-- Views and sequences only grow. -/
theorem PbftInstance.Tied.mono {viewNumber viewNumber' lastExeSeq lastExeSeq' : ℤ}
    {committed : ℤ → Bytes → Prop}
    (htied : pinstance.Tied crypto viewNumber lastExeSeq committed index)
    (hview : viewNumber ≤ viewNumber') (hlast : lastExeSeq ≤ lastExeSeq') :
    pinstance.Tied crypto viewNumber' lastExeSeq' committed index := by
  refine ⟨htied.view_le.trans hview, htied.sequence_le.trans (by omega), htied.sent,
    fun hcurrent => htied.lock (hcurrent.imp_left fun heq => ?_), htied.buffered⟩
  exact le_antisymm htied.view_le (hview.trans heq.ge)

theorem PbftState.Single.setInstance (hsingle : st.Single)
    (hmem : (index, pinstance) ∈ st.instances)
    (hphase : pinstance'.phase = .none → pinstance.phase = .none) :
    (st.setInstance index pinstance').Single := by
  intro entry hentry hnone other hother hseq
  rcases mem_setInstance.mp hentry with rfl | ⟨hold, hne⟩ <;>
    rcases mem_setInstance.mp hother with rfl | ⟨hold', hne'⟩
  · rfl
  · exact absurd (congrArg Prod.fst (hsingle _ hmem (hphase hnone) other hold' hseq)) hne'
  · exact absurd (congrArg Prod.fst (hsingle entry hold hnone _ hmem hseq)).symm hne
  · exact hsingle entry hold hnone other hold' hseq

theorem PbftState.Tidy.setInstance (htidy : st.Tidy crypto)
    (hmem : (index, pinstance) ∈ st.instances)
    (hphase : pinstance'.phase = .none → pinstance.phase = .none)
    (htied : pinstance'.Tied crypto st.viewNumber st.lastExeSeq st.SignedCommit index) :
    (st.setInstance index pinstance').Tidy crypto :=
  ⟨forall_mem_setInstance htidy.tied htied, htidy.single.setInstance hmem hphase⟩

theorem PbftState.Tidy.keepInstances (htidy : st.Tidy crypto)
    (keep : PbftInstanceIndex → PbftInstance → Bool) : (st.keepInstances keep).Tidy crypto :=
  ⟨fun entry hentry => htidy.tied entry (List.mem_of_mem_filter hentry),
    fun entry hentry hnone other hother =>
      htidy.single entry (List.mem_of_mem_filter hentry) hnone other
        (List.mem_of_mem_filter hother)⟩

/-- Something else than a COMMIT is handed out. -/
theorem signedCommit_output {output : Output}
    (houtput : ∀ env, output = .send env → env.NoCommit) {sequence : ℤ} {digest : Bytes} :
    (st.output output).SignedCommit sequence digest ↔ st.SignedCommit sequence digest := by
  constructor
  · rintro ⟨pbft, ⟨env, henv, hsame⟩, htype, hcommit⟩
    rcases List.mem_append.mp henv with hold | hnew
    · exact ⟨pbft, ⟨env, hold, hsame⟩, htype, hcommit⟩
    · have hno := houtput env (List.mem_singleton.mp hnew).symm
      rcases hsame with rfl | rfl
      · exact absurd htype hno.1
      · exact absurd htype hno.2
  · rintro ⟨pbft, ⟨env, henv, hsame⟩, hcommit⟩
    exact ⟨pbft, ⟨env, List.mem_append_left _ henv, hsame⟩, hcommit⟩

theorem PbftState.Tidy.output (htidy : st.Tidy crypto) {output : Output}
    (houtput : ∀ env, output = .send env → env.NoCommit) : (st.output output).Tidy crypto := by
  have hsame : (st.output output).SignedCommit = st.SignedCommit := by
    funext sequence digest
    exact propext (signedCommit_output houtput)
  refine ⟨?_, htidy.single⟩
  rw [hsame]
  exact htidy.tied

/-- What comes in is for the digest that the replica has committed to, if any. -/
structure Trigger.Respects (crypto : Crypto) (trigger : Trigger) : Prop where
  received : ∀ {st pinstance env}, trigger.received st pinstance env →
    env.pbft.type = .preprepare → pinstance.phase = .none →
    env.pbft.prePrepare.valueDigest = crypto.hash env.pbft.prePrepare.value →
    ∀ digest, st.SignedCommit env.pbft.prePrepare.sequence digest →
      digest = env.pbft.prePrepare.valueDigest
  proposed : ∀ {st env}, trigger.proposed st env →
    ∀ digest, st.SignedCommit (st.lastExeSeq + 1) digest →
      digest = env.pbft.prePrepare.valueDigest

namespace PbftInstance.Tied

variable {viewNumber lastExeSeq : ℤ} {committed : ℤ → Bytes → Prop}

theorem of_eq (htied : pinstance.Tied crypto viewNumber lastExeSeq committed index)
    (hprePrepare : pinstance'.prePrepare = pinstance.prePrepare)
    (htime : pinstance'.lastCommitSendTime = pinstance.lastCommitSendTime)
    (hbuf : pinstance'.prePrepareBuf = pinstance.prePrepareBuf)
    (hphase : pinstance'.phase = .none ↔ pinstance.phase = .none)
    (hprepares : pinstance.prepares ≠ [] → pinstance'.prepares ≠ []) :
    pinstance'.Tied crypto viewNumber lastExeSeq committed index := by
  refine ⟨htied.view_le, htied.sequence_le, ?_, ?_, ?_⟩
  · simp only [htime, hprePrepare, ne_eq, hphase]
    intro hsent
    obtain ⟨hne, hrest⟩ := htied.sent hsent
    exact ⟨hprepares hne, hrest⟩
  · simp only [htime, hprePrepare, ne_eq, hphase]
    exact htied.lock
  · rw [hphase, hbuf]
    exact htied.buffered

theorem pushBack (htied : pinstance.Tied crypto viewNumber lastExeSeq committed index)
    (hrespects : env.pbft.type = .preprepare → pinstance.phase = .none →
      env.pbft.prePrepare.valueDigest = crypto.hash env.pbft.prePrepare.value →
      ∀ digest, committed index.sequence digest → digest = env.pbft.prePrepare.valueDigest) :
    (pinstance.pushBack env).Tied crypto viewNumber lastExeSeq committed index := by
  unfold PbftInstance.pushBack
  split <;> rename_i htype
  · refine { htied with buffered := fun hnone other hother => ?_ }
    rcases List.mem_append.mp hother with hold | hnew
    · exact htied.buffered hnone other hold
    · obtain rfl := List.mem_singleton.mp hnew
      exact hrespects htype hnone
  · exact { htied with }
  · exact { htied with }
  · exact htied

theorem withPrepare (htied : pinstance.Tied crypto viewNumber lastExeSeq committed index)
    (hphase : pinstance.phase ≠ .none) (quorumSize : ℕ) (prepare : PbftPrepare) :
    (pinstance.withPrepare quorumSize prepare).Tied crypto viewNumber lastExeSeq committed
      index := by
  have hprepares : (pinstance.withPrepare quorumSize prepare).prepares ≠ [] :=
    withPrepare_prepares_ne_nil _ _
  refine htied.of_eq (withPrepare_prePrepare _ _) ?_ ?_ ?_ fun _ => hprepares
  all_goals
    unfold PbftInstance.withPrepare
    simp only
    split_ifs <;> simp [hphase]

theorem withCommit (htied : pinstance.Tied crypto viewNumber lastExeSeq committed index)
    (quorumSize : ℕ) (commit : PbftCommit) (now : ℤ)
    (hnone : pinstance.phase = .none → (pinstance.withCommit quorumSize commit now).phase = .none) :
    (pinstance.withCommit quorumSize commit now).Tied crypto viewNumber lastExeSeq committed
      index := by
  have hphase : (pinstance.withCommit quorumSize commit now).phase = .none →
      pinstance.phase = .none := by
    unfold PbftInstance.withCommit
    simp only
    split_ifs <;> simp
  refine htied.of_eq ?_ ?_ ?_ ⟨hphase, hnone⟩ ?_
  all_goals
    unfold PbftInstance.withCommit
    simp only
    split_ifs <;> simp

theorem accepted (htied : pinstance.Tied crypto viewNumber lastExeSeq committed index)
    (checkValueRet : CheckValueResult) (hphase : pinstance.phase = .none)
    (hmem : env ∈ pinstance.prePrepareBuf)
    (hdigest : env.pbft.prePrepare.valueDigest = crypto.hash env.pbft.prePrepare.value) :
    (pinstance.accepted env.pbft.prePrepare checkValueRet).Tied crypto viewNumber lastExeSeq
      committed index := by
  refine ⟨htied.view_le, htied.sequence_le, fun hsent => ?_, fun _ _ => ?_, by
    simp [PbftInstance.accepted]⟩
  · exact absurd hphase (htied.sent hsent).2.1
  · exact htied.buffered hphase env hmem hdigest

end PbftInstance.Tied

/-- After a new instance has replaced the older ones of its sequence, it is the only one. -/
theorem PbftState.Tidy.create (htidy : st.Tidy crypto) (now : ℤ)
    (hview : index.viewNumber = st.viewNumber)
    (hwater : index.sequence ≤ st.lastExeSeq + ckpInterval) :
    ((st.setInstance index (.new now)).keepInstances fun other _ =>
      !(other.viewNumber < index.viewNumber && other.sequence == index.sequence)).Tidy crypto := by
  have hnew : (PbftInstance.new now).Tied crypto st.viewNumber st.lastExeSeq st.SignedCommit
      index := by
    refine ⟨hview.le, hwater, ?_, ?_, ?_⟩ <;> simp [PbftInstance.new]
  have honly : ∀ other ∈ st.instances, other.1 ≠ index →
      (!(decide (other.1.viewNumber < index.viewNumber) &&
        other.1.sequence == index.sequence)) = true → other.1.sequence ≠ index.sequence := by
    intro other hother hne hkept hseq
    have hle := (htidy.tied other hother).view_le
    simp only [hseq, beq_self_eq_true, Bool.and_true, Bool.not_eq_true', decide_eq_false_iff_not,
      not_lt] at hkept
    have hsame : other.1.viewNumber = index.viewNumber := le_antisymm (hle.trans hview.ge) hkept
    obtain ⟨⟨otherView, otherSeq⟩, _⟩ := other
    cases index
    exact hne (by simp_all)
  refine ⟨fun entry hentry => forall_mem_setInstance htidy.tied hnew entry
    (List.mem_of_mem_filter hentry), fun entry hentry hnone other hother hseq => ?_⟩
  obtain ⟨hentry, hkept⟩ := List.mem_filter.mp hentry
  obtain ⟨hother, hkept'⟩ := List.mem_filter.mp hother
  rcases mem_setInstance.mp hentry with rfl | ⟨hold, hne⟩ <;>
    rcases mem_setInstance.mp hother with rfl | ⟨hold', hne'⟩
  · rfl
  · exact absurd hseq (honly other hold' hne' hkept')
  · exact absurd hseq.symm (honly entry hold hne hkept)
  · exact htidy.single entry hold hnone other hold' hseq

/-- A proposal drops the instances without a value at its sequence. -/
theorem PbftState.Tidy.propose (htidy : st.Tidy crypto) (now : ℤ)
    (hlock : ∀ digest, st.SignedCommit (st.lastExeSeq + 1) digest →
      digest = env.pbft.prePrepare.valueDigest) :
    ((st.keepInstances fun index pinstance => !(decide (st.lastExeSeq < index.sequence) &&
      pinstance.phase.toNat < PbftInstancePhase.commited.toNat)).setInstance
        ⟨st.viewNumber, st.lastExeSeq + 1⟩ (.proposed env now)).Tidy crypto := by
  have hnew : (PbftInstance.proposed env now).Tied crypto st.viewNumber st.lastExeSeq
      st.SignedCommit ⟨st.viewNumber, st.lastExeSeq + 1⟩ := by
    refine ⟨le_rfl, by simp [ckpInterval], ?_, fun _ _ => hlock, ?_⟩ <;>
      simp [PbftInstance.proposed, PbftInstance.new]
  set kept := st.keepInstances _ with hkept
  have hold : kept.Tidy crypto := htidy.keepInstances _
  refine ⟨forall_mem_setInstance hold.tied hnew, fun entry hentry hnone other hother hseq => ?_⟩
  rcases mem_setInstance.mp hentry with rfl | ⟨hentry, -⟩
  · simp [PbftInstance.proposed] at hnone
  · rcases mem_setInstance.mp hother with rfl | ⟨hother, -⟩
    · -- the instance without a value would have been dropped
      have hkeep := (List.mem_filter.mp hentry).2
      simp only [← hseq, hnone] at hkeep
      simp [PbftInstancePhase.toNat] at hkeep
    · exact hold.single entry hentry hnone other hother hseq

/-- A COMMIT is sent. -/
theorem signedCommit_sendMessage (prepare : PbftPrepare) (roundNumber : ℤ)
    (hvalidator : st.isValidator = true) {sequence : ℤ} {digest : Bytes} :
    (st.sendMessage (newCommit crypto key prepare roundNumber st)).SignedCommit sequence digest ↔
      st.SignedCommit sequence digest ∨
        sequence = prepare.sequence ∧ digest = prepare.valueDigest := by
  rw [PbftState.sendMessage, if_pos hvalidator]
  constructor
  · rintro ⟨pbft, ⟨env, henv, hsame⟩, htype, hsequence, hdigest⟩
    rcases List.mem_append.mp henv with hold | hnew
    · exact Or.inl ⟨pbft, ⟨env, hold, hsame⟩, htype, hsequence, hdigest⟩
    · obtain rfl := Output.send.inj (List.mem_singleton.mp hnew)
      rcases hsame with rfl | rfl
      · exact Or.inr ⟨hsequence.symm, hdigest.symm⟩
      · exact absurd htype default_noCommit.1
  · rintro (⟨pbft, ⟨env, henv, hsame⟩, hcommit⟩ | ⟨rfl, rfl⟩)
    · exact ⟨pbft, ⟨env, List.mem_append_left _ henv, hsame⟩, hcommit⟩
    · exact ⟨_, ⟨_, List.mem_append_right _ (List.mem_singleton_self _), Or.inl rfl⟩, rfl, rfl, rfl⟩

/-- The PREPARE that a COMMIT is for has the sequence and the digest of the instance. -/
theorem PbftInstance.Filed.prepare_eq {validators : List Bytes} {viewNumber lastExeSeq : ℤ}
    {committed : ℤ → Bytes → Prop} {prepare : PbftPrepare}
    (hfiled : pinstance.Filed crypto validators index)
    (htied : pinstance.Tied crypto viewNumber lastExeSeq committed index)
    (hprepare : pinstance.CommitsFor viewNumber index prepare) :
    prepare.sequence = index.sequence ∧ prepare.valueDigest = pinstance.prePrepare.valueDigest ∧
      pinstance.prepares ≠ [] := by
  rcases hprepare with ⟨-, hne, env, hmem, htype, rfl, hdigest⟩ | ⟨hsent, rfl⟩
  · exact ⟨hfiled.prepare_sequence hmem htype, hdigest.symm, hne⟩
  · have hne := (htied.sent hsent).1
    obtain ⟨entry, rest, hprepares⟩ := List.exists_cons_of_ne_nil hne
    have hentry := hfiled.prepares_eq entry (hprepares ▸ List.mem_cons_self)
    rw [hprepares, List.map_cons, List.headD_cons]
    exact ⟨hentry.1, hentry.2, List.cons_ne_nil _ _⟩

/-- Sending a COMMIT adds the digest of its instance, and nothing else has been committed to at
its sequence. -/
theorem PbftState.Tidy.signedCommit_sendCommit {validators : List Bytes} {prepare : PbftPrepare}
    (htidy : st.Tidy crypto) (key : PrivateKey) (hvalidator : st.isValidator = true)
    (roundNumber : ℤ) (hmem : (index, pinstance) ∈ st.instances)
    (hfiled : pinstance.Filed crypto validators index) (hphase : pinstance.phase ≠ .none)
    (hprepare : pinstance.CommitsFor st.viewNumber index prepare) :
    (∀ sequence digest, (st.sendMessage (newCommit crypto key prepare roundNumber
        st)).SignedCommit sequence digest ↔
      st.SignedCommit sequence digest ∨ sequence = index.sequence ∧
        digest = pinstance.prePrepare.valueDigest) ∧
    ∀ digest, st.SignedCommit index.sequence digest →
      digest = pinstance.prePrepare.valueDigest := by
  have htied := htidy.tied _ hmem
  obtain ⟨hsequence, hdigest, -⟩ := hfiled.prepare_eq htied hprepare
  refine ⟨fun sequence digest => ?_, htied.lock (hprepare.imp And.left And.left) hphase⟩
  rw [signedCommit_sendMessage prepare roundNumber hvalidator, hsequence, hdigest]

/-- Sending a COMMIT keeps the instances tied: the others of the sequence that can still commit
have committed to the same digest. -/
theorem PbftState.Tidy.sendCommit {validators : List Bytes} {prepare : PbftPrepare}
    (htidy : st.Tidy crypto) (hvalidator : st.isValidator = true) (roundNumber : ℤ)
    (hmem : (index, pinstance) ∈ st.instances)
    (hfiled : pinstance.Filed crypto validators index)
    (hphase : pinstance.phase ≠ .none) (hsame : pinstance.SameAgreement pinstance')
    (hprepare : pinstance.CommitsFor st.viewNumber index prepare) :
    ((st.sendMessage (newCommit crypto key prepare roundNumber st)).setInstance index
      pinstance').Tidy crypto := by
  have htied := htidy.tied _ hmem
  have hne := (hfiled.prepare_eq htied hprepare).2.2
  obtain ⟨hsigned, hlock⟩ := htidy.signedCommit_sendCommit key hvalidator roundNumber hmem
    hfiled hphase hprepare
  set sent := st.sendMessage (newCommit crypto key prepare roundNumber st) with hsent
  have hview : sent.viewNumber = st.viewNumber := sendMessage_viewNumber
  have hlast : sent.lastExeSeq = st.lastExeSeq := by
    rw [hsent, PbftState.sendMessage]
    split <;> rfl
  have hinstances : sent.instances = st.instances := sendMessage_instances
  -- another instance of this sequence that could still commit is for the same digest
  have hothers : ∀ entry ∈ st.instances, entry.1 ≠ index →
      entry.2.Tied crypto st.viewNumber st.lastExeSeq sent.SignedCommit entry.1 := by
    intro entry hentry hkey
    obtain ⟨hviewLe, hseqLe, hsentEntry, hlockEntry, hbuffered⟩ := htidy.tied entry hentry
    refine ⟨hviewLe, hseqLe, fun htime => ?_, fun hcurrent hvalue digest hcommitted => ?_,
      fun hnone other hother hhash digest hcommitted => ?_⟩
    · obtain ⟨hprepares, hvalue, hold⟩ := hsentEntry htime
      exact ⟨hprepares, hvalue, (hsigned _ _).mpr (Or.inl hold)⟩
    · rcases (hsigned _ _).mp hcommitted with hold | ⟨hseq, rfl⟩
      · exact hlockEntry hcurrent hvalue digest hold
      · rcases hprepare with ⟨hindex, -⟩ | ⟨hresend, -⟩
        · rcases hcurrent with heq | htime
          · refine absurd ?_ hkey
            obtain ⟨⟨entryView, entrySeq⟩, _⟩ := entry
            cases index
            simp_all
          · have hold := (hsentEntry htime).2.2
            rw [hseq] at hold
            exact (hlock _ hold).symm
        · have hold := (htied.sent hresend).2.2
          rw [← hseq] at hold
          exact hlockEntry hcurrent hvalue _ hold
    · rcases (hsigned _ _).mp hcommitted with hold | ⟨hseq, rfl⟩
      · exact hbuffered hnone other hother hhash digest hold
      · have heq := htidy.single entry hentry hnone _ hmem hseq.symm
        exact absurd (congrArg Prod.fst heq).symm hkey
  have hself : pinstance'.Tied crypto st.viewNumber st.lastExeSeq sent.SignedCommit index := by
    refine ⟨htied.view_le, htied.sequence_le, fun _ => ?_, fun _ _ digest hcommitted => ?_,
      fun hnone => ?_⟩
    · rw [hsame.prepares_eq, hsame.phase_eq, hsame.prePrepare_eq]
      exact ⟨hne, hphase, (hsigned _ _).mpr (Or.inr ⟨rfl, rfl⟩)⟩
    · rw [hsame.prePrepare_eq]
      rcases (hsigned _ _).mp hcommitted with hold | ⟨-, hnew⟩
      · exact hlock digest hold
      · exact hnew
    · rw [hsame.phase_eq] at hnone
      exact absurd hnone hphase
  constructor
  · intro entry hentry
    have htie : entry.2.Tied crypto st.viewNumber st.lastExeSeq sent.SignedCommit entry.1 := by
      rcases mem_setInstance.mp hentry with rfl | ⟨hold, hkey⟩
      · exact hself
      · rw [hinstances] at hold
        exact hothers entry hold hkey
    rw [← hview, ← hlast] at htie
    exact htie
  · have hsingle : sent.Single := by
      unfold PbftState.Single
      rw [hinstances]
      exact htidy.single
    have hmem' : (index, pinstance) ∈ sent.instances := by rwa [hinstances]
    exact hsingle.setInstance hmem' fun hnone => by rwa [hsame.phase_eq] at hnone

theorem phase_ne_none_of_prepared
    (hphase : PbftInstancePhase.prepared.toNat ≤ pinstance.phase.toNat) :
    pinstance.phase ≠ .none := by
  intro hnone
  rw [hnone] at hphase
  exact absurd hphase (by decide)

/-- What a replica does besides sending COMMITs leaves the COMMITs it has signed alone. -/
theorem Move.signedCommit_eq (hmove : Move crypto key trigger st st') :
    st'.SignedCommit = st.SignedCommit ∨
      ∃ index pinstance pinstance' prepare roundNumber, (index, pinstance) ∈ st.instances ∧
        pinstance.phase ≠ .none ∧ pinstance.SameAgreement pinstance' ∧
        pinstance.CommitsFor st.viewNumber index prepare ∧
        st' = (st.sendMessage (newCommit crypto key prepare roundNumber st)).setInstance index
          pinstance' := by
  have houtput : ∀ output : Output, (∀ env, output = .send env → env.NoCommit) →
      (st.output output).SignedCommit = st.SignedCommit := by
    intro output hno
    funext sequence digest
    exact propext (signedCommit_output hno)
  cases hmove with
  | other hsame =>
      unfold PbftState.SignedCommit PbftState.Signed
      rw [hsame.outputs_eq]
      exact Or.inl rfl
  | traceOut _ _ _ houtputs =>
      unfold PbftState.SignedCommit PbftState.Signed
      rw [houtputs]
      exact Or.inl rfl
  | viewChanged | resetCloseTimer => exact Or.inl (houtput _ (by simp))
  | sendOther hcommit => exact Or.inl (houtput _ fun env henv => Output.send.inj henv ▸ hcommit)
  | execute => exact Or.inl (houtput (.valueCommited _ _ _) (by simp))
  | sendCommit roundNumber hmem hphase hsame hprepare =>
      exact Or.inr ⟨_, _, _, _, roundNumber, hmem, phase_ne_none_of_prepared hphase, hsame,
        hprepare, rfl⟩
  | _ => exact Or.inl rfl

theorem PbftState.Tidy.move {sys : System crypto} {signed : Bytes → ℤ → Bytes → Prop}
    (htidy : st.Tidy crypto) (hvalidator : st.isValidator = true)
    (hquorum : st.quorumSize = getQuorumSize sys.validators.length)
    (hsupported : ∀ entry ∈ st.instances, entry.2.Supported sys signed entry.1)
    (hhashed : Hashed sys signed) (hstray : ∀ env, trigger.stray env → env.Vouched sys signed)
    (hrespects : trigger.Respects crypto) (hmove : Move crypto key trigger st st') :
    st'.Tidy crypto := by
  cases hmove with
  | other hsame =>
      have hsigned : st'.SignedCommit = st.SignedCommit := by
        unfold PbftState.SignedCommit PbftState.Signed
        rw [hsame.outputs_eq]
      constructor
      · rw [hsame.instances_eq, hsigned]
        exact fun entry hentry =>
          (htidy.tied entry hentry).mono hsame.viewNumber_le hsame.lastExeSeq_le
      · unfold PbftState.Single
        rw [hsame.instances_eq]
        exact htidy.single
  | traceOut hsequence _ hinstances _ =>
      -- nothing is left: all instances are within the old watermark
      have hnone : st'.instances = [] := by
        rw [hinstances, List.filter_eq_nil_iff]
        intro entry hentry
        have hle := (htidy.tied entry hentry).sequence_le
        simp only [decide_eq_true_eq, not_lt]
        exact hle.trans hsequence
      constructor
      · simp [hnone]
      · simp [PbftState.Single, hnone]
  | viewChanged | resetCloseTimer => exact htidy.output (by simp)
  | sendOther hcommit => exact htidy.output fun env henv => Output.send.inj henv ▸ hcommit
  | execute =>
      have hlast : ({ st with lastExeSeq := st.lastExeSeq + 1 } : PbftState).Tidy crypto :=
        ⟨fun entry hentry => (htidy.tied entry hentry).mono le_rfl (by simp), htidy.single⟩
      exact hlast.output (by simp)
  | erase keep => exact htidy.keepInstances keep
  | create now hview _ hwater => exact htidy.create now hview hwater
  | @buffer index pinstance env hmem hreceived hindex =>
      refine htidy.setInstance hmem (fun hnone => ?_) ((htidy.tied _ hmem).pushBack ?_)
      · unfold PbftInstance.pushBack at hnone
        split at hnone <;> exact hnone
      · intro htype hnone hdigest
        rw [← PbftInstance.Filed.prePrepare_sequence hindex htype]
        exact hrespects.received hreceived htype hnone hdigest
  | tick hmem hsame htime =>
      refine htidy.setInstance hmem (fun hnone => hsame.phase_eq ▸ hnone)
        ((htidy.tied _ hmem).of_eq hsame.prePrepare_eq htime hsame.prePrepareBuf_eq ?_ ?_)
      · rw [hsame.phase_eq]
      · rw [hsame.prepares_eq]
        exact id
  | propose now hproposed => exact htidy.propose now (hrespects.proposed hproposed)
  | accept checkValueRet hmem hphase hdue hdigest =>
      exact htidy.setInstance hmem (fun _ => hphase) ((htidy.tied _ hmem).accepted checkValueRet
        hphase (PbftInstance.Filed.mem_prePrepareBuf hdue hphase) hdigest)
  | prepare hmem hdue htype =>
      have hphase := (hsupported _ hmem).filed.phase_ne_none hdue (by simp [htype])
      refine htidy.setInstance hmem (fun hnone => ?_)
        ((htidy.tied _ hmem).withPrepare hphase st.quorumSize _)
      unfold PbftInstance.withPrepare at hnone
      simp only at hnone
      split_ifs at hnone
      · exact hnone
      · exact hnone
  | sendCommit roundNumber hmem hphase hsame hprepare =>
      exact htidy.sendCommit hvalidator roundNumber hmem (hsupported _ hmem).filed
        (phase_ne_none_of_prepared hphase) hsame hprepare
  | commit now hmem hsource htype hdigest =>
      have hnone := (hsupported _ hmem).withCommit_phase hhashed now
        (hsource.imp_right fun h => ⟨hstray _ h.1, h.2⟩) htype hdigest
      rw [← hquorum] at hnone
      refine htidy.setInstance hmem (fun hafter => ?_)
        ((htidy.tied _ hmem).withCommit _ _ now hnone)
      unfold PbftInstance.withCommit at hafter
      simp only at hafter
      split_ifs at hafter
      exact hafter

end Tidy

/-! ## All replicas -/

section Agreement

variable {crypto : Crypto} {sys : System crypto} {signed : Bytes → ℤ → Bytes → Prop}
  {trigger : Trigger} {a : Bytes} {st st' : PbftState}

/-- The value has been executed with the COMMITs of a quorum. -/
def System.Decided (sys : System crypto) (signed : Bytes → ℤ → Bytes → Prop) (sequence : ℤ)
    (value : Bytes) : Prop :=
  ∃ signers : Finset Bytes, signers ⊆ sys.validators.toFinset ∧
    getQuorumSize sys.validators.length < signers.card ∧
    ∀ b ∈ signers, sys.Honest b → signed b sequence (crypto.hash value)

/-- What holds of an honest replica; `signed` are the COMMITs of all. -/
structure PbftState.Sound (sys : System crypto) (signed : Bytes → ℤ → Bytes → Prop) (a : Bytes)
    (st : PbftState) : Prop where
  typed : st.Typed
  configured : st.Configured crypto (sys.key a) sys.validators
  supported : ∀ entry ∈ st.instances, entry.2.Supported sys signed entry.1
  tidy : st.Tidy crypto
  unique : ∀ sequence digest digest', st.SignedCommit sequence digest →
    st.SignedCommit sequence digest' → digest = digest'
  hashed : ∀ sequence digest, st.SignedCommit sequence digest →
    ∃ value, digest = crypto.hash value
  decided : ∀ sequence value proof, .valueCommited sequence value proof ∈ st.outputs →
    sys.Decided signed sequence value

/-- More signatures do no harm. -/
theorem PbftState.Sound.mono {signed' : Bytes → ℤ → Bytes → Prop} (hsound : st.Sound sys signed a)
    (hmono : ∀ b sequence digest, signed b sequence digest → signed' b sequence digest) :
    st.Sound sys signed' a := by
  refine { hsound with supported := fun entry hentry => ?_, decided := ?_ }
  · obtain ⟨hfiled, hbuf, hcommits, hdigest, hquorum⟩ := hsound.supported entry hentry
    refine ⟨hfiled, fun env henv hhonest => hmono _ _ _ (hbuf env henv hhonest),
      fun counted hcounted => ?_, hdigest, hquorum⟩
    obtain ⟨b, hlookup, hsigned⟩ := hcommits counted hcounted
    exact ⟨b, hlookup, fun hhonest => hmono _ _ _ (hsigned hhonest)⟩
  · intro sequence value proof houtput
    obtain ⟨signers, hsub, hcard, hsigned⟩ := hsound.decided sequence value proof houtput
    exact ⟨signers, hsub, hcard, fun b hb hhonest => hmono _ _ _ (hsigned b hb hhonest)⟩

/-- An instance that is COMMITED has the COMMITs of a quorum. -/
theorem PbftInstance.Supported.decided {index : PbftInstanceIndex} {pinstance : PbftInstance}
    (hsupported : pinstance.Supported sys signed index) (hphase : pinstance.phase = .commited) :
    sys.Decided signed index.sequence pinstance.prePrepare.value := by
  refine ⟨pinstance.signers sys, Finset.filter_subset _ _,
    (hsupported.quorum hphase).trans_le hsupported.length_le_card_signers, fun b hb hhonest => ?_⟩
  rw [← hsupported.digest_eq (by simp [hphase])]
  exact hsupported.signed_of_mem_signers hb hhonest

theorem PbftState.Sound.move (hsound : st.Sound sys signed a) (hhonest : sys.Honest a)
    (hhashed : Hashed sys signed)
    (hreceived : ∀ st pinstance env, trigger.received st pinstance env → env.Vouched sys signed)
    (hstray : ∀ env, trigger.stray env → env.Vouched sys signed)
    (hrespects : trigger.Respects crypto) (hmove : Move crypto (sys.key a) trigger st st') :
    st'.Sound sys signed a := by
  have hvalidator : st.isValidator = true := by
    rw [hsound.configured.isValidator_eq, sys.address_key a hhonest.1]
    exact decide_eq_true hhonest.1
  have hquorum : st.quorumSize = getQuorumSize sys.validators.length := by
    rw [PbftState.quorumSize, hsound.configured.validators_eq, ValidatorMap.length_ofSet sys.nodup]
  have hkept := PbftInstance.Supported.kept hhashed hreceived hstray
  rw [← hquorum] at hkept
  refine ⟨hmove.typed hsound.typed, hmove.configured hsound.configured,
    hkept.move hmove hsound.supported,
    hsound.tidy.move hvalidator hquorum hsound.supported hhashed hstray hrespects hmove,
    ?_, ?_, fun sequence value proof houtput => ?_⟩
  · rcases hmove.signedCommit_eq with
      heq | ⟨index, pinstance, pinstance', prepare, round, hmem, hphase, -, hprepare, rfl⟩
    · rw [heq]
      exact hsound.unique
    · obtain ⟨hsigned, hlock⟩ := hsound.tidy.signedCommit_sendCommit (sys.key a) hvalidator
        round hmem (hsound.supported _ hmem).filed hphase hprepare
      intro sequence digest digest' hdigest hdigest'
      rcases (hsigned _ _).mp hdigest with hold | ⟨rfl, rfl⟩ <;>
        rcases (hsigned _ _).mp hdigest' with hold' | ⟨hseq', rfl⟩
      · exact hsound.unique _ _ _ hold hold'
      · exact hlock _ (hseq' ▸ hold)
      · exact (hlock _ hold').symm
      · rfl
  · rcases hmove.signedCommit_eq with
      heq | ⟨index, pinstance, pinstance', prepare, round, hmem, hphase, -, hprepare, rfl⟩
    · rw [heq]
      exact hsound.hashed
    · obtain ⟨hsigned, -⟩ := hsound.tidy.signedCommit_sendCommit (sys.key a) hvalidator
        round hmem (hsound.supported _ hmem).filed hphase hprepare
      intro sequence digest hdigest
      rcases (hsigned _ _).mp hdigest with hold | ⟨-, rfl⟩
      · exact hsound.hashed _ _ hold
      · exact ⟨_, (hsound.supported _ hmem).digest_eq hphase⟩
  · rcases hmove.of_valueCommited houtput with
      hold | ⟨index, pinstance, hmem, hphase, rfl, rfl, -⟩
    · exact hsound.decided sequence value proof hold
    · exact (hsound.supported _ hmem).decided hphase

/-- **The lock.**  The event brings no PRE-PREPARE for another digest than the replica has
committed to at the sequence: neither one from the network that it would take, nor a proposal
of its own. -/
structure Event.KeepsCommits (crypto : Crypto) (event : Event) (st : PbftState) : Prop where
  delivered : ∀ pinstance env, event.Delivers crypto st pinstance env →
    env.pbft.type = .preprepare → pinstance.phase = .none →
    env.pbft.prePrepare.valueDigest = crypto.hash env.pbft.prePrepare.value →
    ∀ digest, st.SignedCommit env.pbft.prePrepare.sequence digest →
      digest = env.pbft.prePrepare.valueDigest
  proposed : ∀ digest, event.Proposes crypto st digest →
    ∀ digest', st.SignedCommit (st.lastExeSeq + 1) digest' → digest' = digest

theorem Event.KeepsCommits.respects {event : Event} (key : PrivateKey)
    (hkeeps : event.KeepsCommits crypto st) :
    (event.trigger crypto key st).Respects crypto := by
  constructor
  · rintro mid pinstance env ⟨hdelivers, houtputs⟩ htype hphase hdigest
    have hsame : mid.SignedCommit = st.SignedCommit := by
      unfold PbftState.SignedCommit PbftState.Signed
      rw [houtputs]
    rw [hsame]
    exact hkeeps.delivered pinstance env hdelivers htype hphase hdigest
  · rintro mid env ⟨rfl, hproposes, -⟩
    exact hkeeps.proposed _ hproposes

/-- A COMMIT that arrives has been signed by its sender, if this is an honest validator. -/
theorem System.Admits.vouched {states : Bytes → PbftState} {move : Bytes × Event} {env : PbftEnv}
    {checkValue : CheckValueResult} {now : ℤ} (hadmits : sys.Admits states move)
    (hrecv : move.2 = .recv env checkValue now)
    (hcheck : checkMessageItem crypto (.ofSet sys.validators) env = true) :
    env.Vouched sys fun b => (states b).SignedCommit := by
  refine ⟨hcheck, fun htype hhonest => ?_⟩
  obtain ⟨replicaId, hreplica, -⟩ := exists_sender hcheck
  have hverify := (lookup_of_check hcheck hreplica).2
  exact ⟨env.pbft, hadmits.authentic env checkValue now hrecv env .refl hverify hhonest, htype,
    rfl, rfl⟩

/-- Every honest replica is sound with respect to the COMMITs that have been signed. -/
def System.Sound (sys : System crypto) (states : Bytes → PbftState) : Prop :=
  ∀ a, sys.Honest a → (states a).Sound sys (fun b => (states b).SignedCommit) a

theorem System.start_sound : sys.Sound sys.start := by
  have hsigned : ∀ a sequence digest, ¬ (sys.start a).SignedCommit sequence digest := by
    rintro a sequence digest ⟨pbft, ⟨env, henv, -⟩, -⟩
    exact absurd henv List.not_mem_nil
  intro a _
  refine ⟨initialState_typed, initialState_configured, ?_, ⟨?_, ?_⟩, ?_, ?_, ?_⟩
  · simp [System.start, initialState, setValidators]
  · simp [System.start, initialState, setValidators]
  · simp [PbftState.Single, System.start, initialState, setValidators]
  · exact fun sequence digest digest' hdigest => absurd hdigest (hsigned a sequence digest)
  · exact fun sequence digest hdigest => absurd hdigest (hsigned a sequence digest)
  · simp [System.start, initialState, setValidators]

theorem PbftState.SignedCommit.mono {sequence : ℤ} {digest : Bytes}
    (hsigned : st.SignedCommit sequence digest) (hsub : st.outputs ⊆ st'.outputs) :
    st'.SignedCommit sequence digest := by
  obtain ⟨pbft, ⟨env, henv, hsame⟩, hcommit⟩ := hsigned
  exact ⟨pbft, ⟨env, hsub henv, hsame⟩, hcommit⟩

theorem System.Sound.next {states : Bytes → PbftState} {move : Bytes × Event}
    (hsound : sys.Sound states) (hhash : ∀ value, crypto.hash value ≠ [])
    (hadmits : sys.Admits states move) (hkeeps : move.2.KeepsCommits crypto (states move.1)) :
    sys.Sound (sys.next states move) := by
  obtain ⟨mover, event⟩ := move
  have hmover := hsound mover hadmits.honest
  have hmoves := step_moves hmover.typed hmover.configured hadmits.keeps
  have hhashed : Hashed sys fun b => (states b).SignedCommit := by
    intro b sequence digest hhonest hsigned
    obtain ⟨value, rfl⟩ := (hsound b hhonest).hashed sequence digest hsigned
    exact ⟨hhash value, value, rfl⟩
  have hcheck : ∀ env, checkMessageItem crypto (states mover).validators env = true →
      checkMessageItem crypto (.ofSet sys.validators) env = true := by
    intro env
    rw [hmover.configured.validators_eq]
    exact id
  -- the replica at which the event happens, with what had been signed before
  have hstep : (step crypto (sys.key mover) (states mover) event).Sound sys
      (fun b => (states b).SignedCommit) mover := by
    refine hmoves.invariant (fun mid mid' hmove hmid => hmid.move hadmits.honest hhashed ?_ ?_
      (hkeeps.respects _) hmove) hmover
    · rintro _ pinstance env ⟨⟨checkValue, now, hrecv, hreceives⟩, -⟩
      exact hadmits.vouched hrecv (hcheck env hreceives.1)
    · rintro env ⟨checkValue, now, hrecv, hstray⟩
      exact hadmits.vouched hrecv (hcheck env hstray.1)
  have hmono : ∀ b sequence digest, (states b).SignedCommit sequence digest →
      (sys.next states (mover, event) b).SignedCommit sequence digest := by
    intro b sequence digest hsigned
    by_cases hb : b = mover
    · subst hb
      rw [System.next, Function.update_self]
      exact hsigned.mono hmoves.outputs_subset
    · rwa [System.next, Function.update_of_ne hb]
  intro a hhonest
  by_cases ha : a = mover
  · subst ha
    have hnext : sys.next states (a, event) a = step crypto (sys.key a) (states a) event :=
      Function.update_self ..
    rw [hnext]
    exact hstep.mono hmono
  · have hnext : sys.next states (mover, event) a = states a := Function.update_of_ne ha ..
    rw [hnext]
    exact (hsound a hhonest).mono hmono

/-- **Agreement under the lock.**  In every run in which no honest replica takes a PRE-PREPARE
for another digest than it has committed to at the sequence, no two honest replicas execute
different values at one sequence. -/
theorem agreement (hinjective : Function.Injective crypto.hash)
    (hhash : ∀ value, crypto.hash value ≠ []) {moves : List (Bytes × Event)}
    (hruns : sys.Runs (Event.KeepsCommits crypto) moves) {b : Bytes} (ha : sys.Honest a)
    (hb : sys.Honest b) {sequence : ℤ} {value value' : Bytes} {proof proof' : PbftProof}
    (hvalue : .valueCommited sequence value proof ∈ (sys.run moves a).outputs)
    (hvalue' : .valueCommited sequence value' proof' ∈ (sys.run moves b).outputs) :
    value = value' := by
  have hsound : sys.Sound (sys.run moves) :=
    hruns.invariant System.start_sound fun states move hadmits hkeeps hsound =>
      hsound.next hhash hadmits hkeeps
  obtain ⟨signers, hsub, hcard, hsigned⟩ := (hsound a ha).decided _ _ _ hvalue
  obtain ⟨signers', hsub', hcard', hsigned'⟩ := (hsound b hb).decided _ _ _ hvalue'
  have hinter : faultNumber sys.validators.length < (signers ∩ signers').card := by
    refine Quorum.lt_card_inter hsub hsub' hcard hcard' ?_
    rw [List.toFinset_card_of_nodup sys.nodup]
    exact add_faultNumber_lt_two_mul_quorum _
  -- an honest validator has signed COMMITs for both values
  obtain ⟨c, hc, hfaulty⟩ := Quorum.exists_honest sys.card_faulty hinter
  obtain ⟨hcs, hcs'⟩ := Finset.mem_inter.mp hc
  have hhonest : sys.Honest c := ⟨List.mem_toFinset.mp (hsub hcs), hfaulty⟩
  exact hinjective ((hsound c hhonest).unique _ _ _ (hsigned c hcs hhonest)
    (hsigned' c hcs' hhonest))

end Agreement

/-! ## Runs of four replicas -/

section Decide

variable {crypto : Crypto} {st : PbftState}

/-- Whether all COMMITs that the replica has signed at a sequence are for one digest. -/
def PbftState.commitsOnly? (sequence : ℤ) (digest : Bytes) (st : PbftState) : Bool :=
  let fits (pbft : Pbft) : Bool := pbft.type != .commit || pbft.commit.sequence != sequence ||
    pbft.commit.valueDigest == digest
  st.outputs.all fun
    | .send env => fits env.pbft && fits env.pbft.viewChangeWithRawvalue.viewChangeEnv.pbft
    | _ => true

theorem eq_of_commitsOnly? {sequence : ℤ} {digest digest' : Bytes}
    (honly : st.commitsOnly? sequence digest = true)
    (hsigned : st.SignedCommit sequence digest') : digest' = digest := by
  obtain ⟨pbft, ⟨env, henv, hsame⟩, htype, rfl, rfl⟩ := hsigned
  have hfits := List.all_eq_true.mp honly _ henv
  simp only [Bool.and_eq_true] at hfits
  rcases hsame with rfl | rfl
  · simpa [htype] using hfits.1
  · simpa [htype] using hfits.2

/-- Whether the event keeps the COMMITs, without looking at the phase of the instance. -/
def Event.keepsCommits? (crypto : Crypto) (event : Event) (st : PbftState) : Bool :=
  match event with
  | .recv env _ _ => env.pbft.type != .preprepare ||
      st.commitsOnly? env.pbft.prePrepare.sequence env.pbft.prePrepare.valueDigest
  | .request value _ => st.commitsOnly? (st.lastExeSeq + 1) (crypto.hash value)
  | _ => true

theorem keepsCommits_of_keepsCommits? (event : Event) (st : PbftState)
    (hkeeps : event.keepsCommits? crypto st = true) : event.KeepsCommits crypto st := by
  constructor
  · rintro pinstance env ⟨checkValue, now, rfl, -⟩ htype - - digest hsigned
    simp only [Event.keepsCommits?, htype, bne_self_eq_false, Bool.false_or] at hkeeps
    exact eq_of_commitsOnly? hkeeps hsigned
  · rintro digest ⟨value, now, rfl, -, -, rfl⟩ digest' hsigned
    exact eq_of_commitsOnly? hkeeps hsigned

end Decide

namespace Sample

/-- A VIEW-CHANGE to view 1 of a validator that is prepared for the sample value. -/
def preparedChange (signer : UInt8) : PbftEnv :=
  sign signer { (default : Pbft) with
    type := .viewchange
    viewChange? := some ⟨1, 1, digest, signer.toNat⟩ }

/-- Replica 2 executes a value, the replicas 0 and 3 have only signed COMMITs for it.  After the
change to view 1, the faulty primary 1 proposes another value to them. -/
def split : List (Bytes × Event) :=
  let newView := newView 1 [preparedChange 0, preparedChange 1, preparedChange 3]
  [([10], .request [7] 0),
    deliver 2 (proposal 0 0 [7]), deliver 3 (proposal 0 0 [7]),
    deliver 0 (prepareFor 2 0 [7]), deliver 0 (prepareFor 3 0 [7]),
    deliver 2 (prepareFor 2 0 [7]), deliver 2 (prepareFor 3 0 [7]),
    deliver 3 (prepareFor 2 0 [7]), deliver 3 (prepareFor 3 0 [7]),
    deliver 2 (commitFor 0 0 [7]), deliver 2 (commitFor 2 0 [7]), deliver 2 (commitFor 3 0 [7]),
    ([10], .txTimeout), ([13], .txTimeout), deliver 0 newView, deliver 3 newView,
    deliver 0 (proposal 1 1 [8]), deliver 3 (proposal 1 1 [8]),
    deliver 0 (prepareFor 0 1 [8]), deliver 0 (prepareFor 3 1 [8]),
    deliver 3 (prepareFor 0 1 [8]), deliver 3 (prepareFor 3 1 [8]),
    deliver 0 (commitFor 0 1 [8]), deliver 0 (commitFor 1 1 [8]), deliver 0 (commitFor 3 1 [8])]

/-- A run without a view change. -/
def quiet : List (Bytes × Event) :=
  [([10], .request [7] 0), deliver 1 (proposal 0 0 [7]), deliver 2 (proposal 0 0 [7]),
    deliver 0 (prepareFor 1 0 [7]), deliver 0 (prepareFor 2 0 [7]),
    deliver 1 (prepareFor 1 0 [7]), deliver 1 (prepareFor 2 0 [7]),
    deliver 2 (prepareFor 1 0 [7]), deliver 2 (prepareFor 2 0 [7]),
    deliver 0 (commitFor 0 0 [7]), deliver 0 (commitFor 1 0 [7]), deliver 0 (commitFor 2 0 [7]),
    deliver 2 (commitFor 0 0 [7]), deliver 2 (commitFor 1 0 [7]), deliver 2 (commitFor 2 0 [7])]

end Sample

open Sample in
/-- One faulty validator of four is enough: replica 0 executes another value than replica 2. -/
theorem agreement_broken :
    Function.Injective Sample.crypto.hash ∧ (∀ value, Sample.crypto.hash value ≠ []) ∧
      (system [11]).Runs (fun _ _ => True) split ∧
      (system [11]).Honest [10] ∧ (system [11]).Honest [12] ∧
      (∃ proof, .valueCommited 2 [8] proof ∈ ((system [11]).run split [10]).outputs) ∧
      ∃ proof, .valueCommited 2 [7] proof ∈ ((system [11]).run split [12]).outputs := by
  refine ⟨hash_injective, hash_ne_nil,
    System.runs_of_runs? (fun _ _ => true) (fun _ _ _ => trivial) ?_, by decide, by decide,
    exists_of_executed ?_, exists_of_executed ?_⟩
  · decide +kernel
  · decide +kernel
  · decide +kernel

open Sample in
/-- Without a view change the replicas 0 and 2 execute the same value. -/
theorem agreement_quiet :
    (∃ proof, .valueCommited 2 [7] proof ∈ ((system [13]).run quiet [10]).outputs) ∧
      (∃ proof, .valueCommited 2 [7] proof ∈ ((system [13]).run quiet [12]).outputs) ∧
      ∀ value proof, .valueCommited 2 value proof ∈ ((system [13]).run quiet [12]).outputs →
        value = [7] := by
  have hruns : (system [13]).Runs (Event.KeepsCommits Sample.crypto) quiet :=
    System.runs_of_runs? (Event.keepsCommits? Sample.crypto) keepsCommits_of_keepsCommits?
      (by decide +kernel)
  obtain ⟨proof, hproof⟩ :
      ∃ proof, .valueCommited 2 [7] proof ∈ ((system [13]).run quiet [10]).outputs :=
    exists_of_executed (by decide +kernel)
  refine ⟨⟨proof, hproof⟩, exists_of_executed (by decide +kernel), fun value proof' hvalue => ?_⟩
  exact agreement hash_injective hash_ne_nil hruns (by decide) (by decide) hvalue hproof

end CegChain
