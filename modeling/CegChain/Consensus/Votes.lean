import CegChain.Consensus.System

/-!
# One vote for one instance

A replica votes with PRE-PREPAREs, PREPAREs and COMMITs.  Its memory of what it has voted
for is the map of the instances: as long as the instance is there, every further vote is
for the value in it (`PbftState.Remembers`).  A vote may be forgotten when its sequence has
been executed or its view has been left, since no instance of them is made again.

Two operations erase instances that are not COMMITED without leaving their view:
`Request`, before it proposes a value, and `UpdateValidators`, when the proof that it is
given raises the sequence only.  `Event.KeepsVotes` says that they forget no vote, and
`votes_unique` that nothing else makes a replica vote twice.
-/

namespace CegChain

/-- The replica has voted: it has sent a message of the type for the digest. -/
def PbftState.Voted (st : PbftState) (type : PbftMessageType) (index : PbftInstanceIndex)
    (digest : Bytes) : Prop :=
  ∃ env, .send env ∈ st.outputs ∧ env.pbft.type = type ∧ env.pbft.vote? = some (index, digest)

/-- The digest that a vote of the type is for. -/
def PbftInstance.digestFor (crypto : Crypto) (type : PbftMessageType) (pinstance : PbftInstance) :
    Bytes :=
  if type = .commit then pinstance.prePrepare.valueDigest
  else crypto.hash pinstance.prePrepare.value

section Votes

variable {crypto : Crypto} {key : PrivateKey} {trigger : Trigger} {st st' : PbftState}
  {index : PbftInstanceIndex} {pinstance : PbftInstance} {env : PbftEnv}
  {validators : List Bytes}

/-! ## Instances -/

/-- What the votes of a replica are taken from belongs to the instance: the messages in it, and
the PRE-PREPARE that it has been proposed with. -/
structure PbftInstance.Cast (crypto : Crypto) (validators : List Bytes)
    (index : PbftInstanceIndex) (pinstance : PbftInstance) : Prop where
  filed : pinstance.Filed crypto validators index
  placed : pinstance.Placed index
  prePrepareMsg : ∀ env ∈ pinstance.prePrepareMsg?, pinstance.phase ≠ .none ∧
    env.pbft.vote? = some (index, crypto.hash pinstance.prePrepare.value)

theorem vote_of_preprepare (hindex : env.pbft.index? = some index)
    (htype : env.pbft.type = .preprepare) (hsome : env.pbft.prePrepare?.isSome = true) :
    env.pbft.vote? = some (index, env.pbft.prePrepare.valueDigest) := by
  obtain ⟨prePrepare, hprePrepare⟩ := Option.isSome_iff_exists.mp hsome
  simp only [Pbft.index?, htype, Pbft.prePrepare, hprePrepare, Option.getD_some,
    Option.some.injEq] at hindex
  simp [Pbft.vote?, htype, Pbft.prePrepare, hprePrepare, ← hindex]

namespace PbftInstance.Cast

/-- The moves keep the votes of the instances apart, if what arrives has been checked and what
is proposed is a PRE-PREPARE. -/
theorem kept (quorumSize : ℕ)
    (hcheck : ∀ st pinstance env, trigger.received st pinstance env →
      checkMessageItem crypto (.ofSet validators) env = true)
    (hproposed : ∀ st env, trigger.proposed st env → env.pbft.prePrepare?.isSome = true) :
    Kept crypto trigger quorumSize fun index pinstance =>
      pinstance.Cast crypto validators index := by
  have hfiled := PbftInstance.Filed.kept quorumSize hcheck
  have hplaced := @PbftInstance.Placed.kept crypto trigger quorumSize
  constructor
  case new =>
    intro index now
    exact ⟨hfiled.new index now, hplaced.new index now, by simp [PbftInstance.new]⟩
  case pushBack =>
    intro st index pinstance env hcast hreceived hindex
    refine ⟨hfiled.pushBack hcast.filed hreceived hindex,
      hplaced.pushBack hcast.placed hreceived hindex, ?_⟩
    rw [pushBack_prePrepareMsg, pushBack_phase, pushBack_prePrepare]
    exact hcast.prePrepareMsg
  case sameAgreement =>
    intro index pinstance pinstance' hcast hsame
    refine ⟨hfiled.sameAgreement hcast.filed hsame, hplaced.sameAgreement hcast.placed hsame, ?_⟩
    rw [hsame.prePrepareMsg_eq, hsame.phase_eq, hsame.prePrepare_eq]
    exact hcast.prePrepareMsg
  case proposed =>
    intro st index env now hpropose hindex htype hdigest
    refine ⟨hfiled.proposed now hpropose hindex htype hdigest,
      hplaced.proposed now hpropose hindex htype hdigest, ?_⟩
    intro msg hmsg
    obtain rfl : env = msg := Option.some.inj hmsg
    refine ⟨by simp [PbftInstance.proposed], ?_⟩
    rw [vote_of_preprepare hindex htype (hproposed st env hpropose), hdigest]
    rfl
  case accepted =>
    intro index pinstance env checkValueRet hcast hphase hdue hdigest
    refine ⟨hfiled.accepted checkValueRet hcast.filed hphase hdue hdigest,
      hplaced.accepted checkValueRet hcast.placed hphase hdue hdigest, fun msg hmsg => ?_⟩
    exact absurd hphase (hcast.prePrepareMsg msg hmsg).1
  case withPrepare =>
    intro index pinstance env hcast hdue htype hdigest
    refine ⟨hfiled.withPrepare hcast.filed hdue htype hdigest,
      hplaced.withPrepare hcast.placed hdue htype hdigest, ?_⟩
    rw [withPrepare_prePrepareMsg, withPrepare_prePrepare]
    intro msg hmsg
    obtain ⟨hphase, hvote⟩ := hcast.prePrepareMsg msg hmsg
    exact ⟨withPrepare_phase_ne_none _ _ hphase, hvote⟩
  case withCommit =>
    intro index pinstance env now hcast hsource htype hdigest hnew
    refine ⟨hfiled.withCommit now hcast.filed hsource htype hdigest hnew,
      hplaced.withCommit now hcast.placed hsource htype hdigest hnew, ?_⟩
    rw [withCommit_prePrepareMsg, withCommit_prePrepare]
    intro msg hmsg
    obtain ⟨hphase, hvote⟩ := hcast.prePrepareMsg msg hmsg
    exact ⟨withCommit_phase_ne_none _ _ _ hphase, hvote⟩

/-- A COMMIT is sent for the digest of the instance. -/
theorem commitsFor_eq {viewNumber : ℤ} {prepare : PbftPrepare}
    (hcast : pinstance.Cast crypto validators index)
    (hbacked : pinstance.lastCommitSendTime ≠ 0 → pinstance.prepares ≠ [])
    (hprepare : pinstance.CommitsFor viewNumber index prepare) :
    (⟨prepare.viewNumber, prepare.sequence⟩ : PbftInstanceIndex) = index ∧
      prepare.valueDigest = pinstance.prePrepare.valueDigest := by
  obtain ⟨hindex, -, hdigest | ⟨entry, hentry, rfl⟩⟩ := hcast.placed.commitsFor hbacked hprepare
  · exact ⟨hindex, hdigest⟩
  · exact ⟨hindex, (hcast.filed.prepares_eq entry hentry).2⟩

end PbftInstance.Cast

/-! ## Votes -/

/-- Every vote is remembered by its instance, unless its sequence has been executed or its view
has been left. -/
structure PbftState.Remembers (crypto : Crypto) (st : PbftState) : Prop where
  within : ∀ type index digest, st.Voted type index digest →
    index.sequence ≤ st.lastExeSeq + ckpInterval
  remembered : ∀ type index digest, st.Voted type index digest →
    index.sequence ≤ st.lastExeSeq ∨ index.viewNumber < st.viewNumber ∨
      ∃ pinstance, (index, pinstance) ∈ st.instances
  digest_eq : ∀ entry ∈ st.instances, ∀ type digest, st.Voted type entry.1 digest →
    entry.2.phase ≠ .none ∧ digest = entry.2.digestFor crypto type
  unique : ∀ type index digest digest', st.Voted type index digest →
    st.Voted type index digest' → digest = digest'

/-- What comes in makes the replica forget no vote. -/
structure Trigger.KeepsVotes (trigger : Trigger) : Prop where
  proposed : ∀ {st env}, trigger.proposed st env → ∀ type index digest,
    st.Voted type index digest → index.viewNumber = st.viewNumber →
    st.lastExeSeq < index.sequence →
    if index.sequence = st.lastExeSeq + 1 then digest = env.pbft.prePrepare.valueDigest
    else ∃ pinstance, (index, pinstance) ∈ st.instances ∧ pinstance.phase = .commited
  dropped : ∀ {st index}, trigger.dropped st index → ∀ type digest, ¬ st.Voted type index digest

theorem PbftState.Voted.of_subset {type : PbftMessageType} {digest : Bytes}
    (hvoted : st'.Voted type index digest)
    (hsub : ∀ env, .send env ∈ st'.outputs → .send env ∈ st.outputs) :
    st.Voted type index digest := by
  obtain ⟨env, henv, hrest⟩ := hvoted
  exact ⟨env, hsub env henv, hrest⟩

theorem voted_output {type : PbftMessageType} {digest : Bytes} {o : Output}
    (hvoted : (st.output o).Voted type index digest) :
    st.Voted type index digest ∨
      ∃ env, o = .send env ∧ env.pbft.type = type ∧ env.pbft.vote? = some (index, digest) := by
  obtain ⟨env, henv, hrest⟩ := hvoted
  rcases List.mem_append.mp henv with hold | hnew
  · exact Or.inl ⟨env, hold, hrest⟩
  · exact Or.inr ⟨env, (List.mem_singleton.mp hnew).symm, hrest⟩

namespace PbftState.Remembers

/-- Views and sequences grow, and nothing is sent. -/
theorem mono (hremembers : st.Remembers crypto) (hinstances : st'.instances = st.instances)
    (hview : st.viewNumber ≤ st'.viewNumber) (hlast : st.lastExeSeq ≤ st'.lastExeSeq)
    (houtputs : ∀ type index digest, st'.Voted type index digest →
      st.Voted type index digest) : st'.Remembers crypto where
  within type index digest hvoted := by
    have hle := hremembers.within type index digest (houtputs _ _ _ hvoted)
    omega
  remembered type index digest hvoted := by
    rcases hremembers.remembered type index digest (houtputs _ _ _ hvoted) with hseq | hless | hmem
    · exact Or.inl (hseq.trans hlast)
    · exact Or.inr (Or.inl (hless.trans_le hview))
    · exact Or.inr (Or.inr (hinstances ▸ hmem))
  digest_eq entry hentry type digest hvoted :=
    hremembers.digest_eq entry (hinstances ▸ hentry) type digest (houtputs _ _ _ hvoted)
  unique type index digest digest' hvoted hvoted' :=
    hremembers.unique type index digest digest' (houtputs _ _ _ hvoted) (houtputs _ _ _ hvoted')

/-- Something is handed out that is no vote. -/
theorem output (hremembers : st.Remembers crypto) {o : Output}
    (hvote : ∀ env, o = .send env → env.pbft.vote? = none) : (st.output o).Remembers crypto := by
  refine hremembers.mono rfl le_rfl le_rfl fun type index digest hvoted => ?_
  rcases voted_output hvoted with hold | ⟨env, henv, -, hnew⟩
  · exact hold
  · rw [hvote env henv] at hnew
    exact absurd hnew (by simp)

/-- A vote is sent for the value of its instance. -/
theorem vote (hremembers : st.Remembers crypto) (hmem : (index, pinstance) ∈ st.instances)
    (hwithin : index.sequence ≤ st.lastExeSeq + ckpInterval)
    (hnodup : (st.instances.map Prod.fst).Nodup) (hphase : pinstance.phase ≠ .none)
    (hvote : env.pbft.vote? = some (index, pinstance.digestFor crypto env.pbft.type)) :
    (st.output (.send env)).Remembers crypto := by
  -- a vote is an old one, or the one that is sent
  have hcases : ∀ type index' digest, (st.output (.send env)).Voted type index' digest →
      st.Voted type index' digest ∨
        index' = index ∧ digest = pinstance.digestFor crypto type := by
    intro type index' digest hvoted
    rcases voted_output hvoted with hold | ⟨other, heq, rfl, hnew⟩
    · exact Or.inl hold
    · obtain rfl := Output.send.inj heq
      rw [hvote] at hnew
      obtain ⟨rfl, rfl⟩ := Prod.mk.inj (Option.some.inj hnew)
      exact Or.inr ⟨rfl, rfl⟩
  constructor
  · intro type index' digest hvoted
    rcases hcases _ _ _ hvoted with hold | ⟨rfl, -⟩
    · exact hremembers.within _ _ _ hold
    · exact hwithin
  · intro type index' digest hvoted
    rcases hcases _ _ _ hvoted with hold | ⟨rfl, -⟩
    · exact hremembers.remembered _ _ _ hold
    · exact Or.inr (Or.inr ⟨pinstance, hmem⟩)
  · rintro ⟨index', other⟩ hentry type digest hvoted
    rcases hcases _ _ _ hvoted with hold | ⟨hindex, hdigest⟩
    · exact hremembers.digest_eq _ hentry _ _ hold
    · obtain rfl : index' = index := hindex
      obtain rfl : other = pinstance :=
        congrArg Prod.snd (List.inj_on_of_nodup_map hnodup hentry hmem rfl)
      exact ⟨hphase, hdigest⟩
  · intro type index' digest digest' hvoted hvoted'
    rcases hcases _ _ _ hvoted with hold | ⟨rfl, rfl⟩ <;>
      rcases hcases _ _ _ hvoted' with hold' | ⟨hindex', rfl⟩
    · exact hremembers.unique _ _ _ _ hold hold'
    · subst hindex'
      exact (hremembers.digest_eq _ hmem _ _ hold).2
    · exact (hremembers.digest_eq _ hmem _ _ hold').2.symm
    · rfl

/-- An instance is written for the value that has been voted for, if any. -/
theorem write (hremembers : st.Remembers crypto)
    (hvalue : ∀ type digest, st.Voted type index digest →
      pinstance.phase ≠ .none ∧ digest = pinstance.digestFor crypto type) :
    (st.setInstance index pinstance).Remembers crypto where
  within := hremembers.within
  remembered type index' digest hvoted := by
    rcases hremembers.remembered type index' digest hvoted with hseq | hless | ⟨found, hfound⟩
    · exact Or.inl hseq
    · exact Or.inr (Or.inl hless)
    · refine Or.inr (Or.inr ?_)
      by_cases hkey : index' = index
      · exact ⟨pinstance, hkey ▸ mem_setInstance_self⟩
      · exact ⟨found, mem_setInstance.mpr (Or.inr ⟨hfound, hkey⟩)⟩
  digest_eq := forall_mem_setInstance hremembers.digest_eq hvalue
  unique := hremembers.unique

/-- An instance is written again, with its value if it had one. -/
theorem setInstance {old : PbftInstance} (hremembers : st.Remembers crypto)
    (hmem : (index, old) ∈ st.instances)
    (hvalue : old.phase ≠ .none → pinstance.phase ≠ .none ∧
      pinstance.prePrepare = old.prePrepare) :
    (st.setInstance index pinstance).Remembers crypto := by
  refine hremembers.write fun type digest hvoted => ?_
  obtain ⟨hphase, hdigest⟩ := hremembers.digest_eq _ hmem type digest hvoted
  obtain ⟨hphase', hsame⟩ := hvalue hphase
  refine ⟨hphase', ?_⟩
  rw [hdigest, PbftInstance.digestFor, PbftInstance.digestFor, hsame]

theorem keepInstances (hremembers : st.Remembers crypto)
    {keep : PbftInstanceIndex → PbftInstance → Bool}
    (hkeep : ∀ entry ∈ st.instances, keep entry.1 entry.2 = false →
      entry.1.sequence ≤ st.lastExeSeq ∨ entry.1.viewNumber < st.viewNumber ∨
        ∀ type digest, ¬ st.Voted type entry.1 digest) :
    (st.keepInstances keep).Remembers crypto where
  within := hremembers.within
  remembered type index digest hvoted := by
    rcases hremembers.remembered type index digest hvoted with hseq | hless | ⟨found, hfound⟩
    · exact Or.inl hseq
    · exact Or.inr (Or.inl hless)
    · by_cases hkept : keep index found = true
      · exact Or.inr (Or.inr ⟨found, List.mem_filter.mpr ⟨hfound, hkept⟩⟩)
      · rcases hkeep _ hfound (Bool.eq_false_of_not_eq_true hkept) with hseq | hless | hnot
        · exact Or.inl hseq
        · exact Or.inr (Or.inl hless)
        · exact absurd hvoted (hnot type digest)
  digest_eq entry hentry := hremembers.digest_eq entry (List.mem_of_mem_filter hentry)
  unique := hremembers.unique

/-- A new instance has not been voted for: it would have been remembered. -/
theorem create (hremembers : st.Remembers crypto) (now : ℤ)
    (hview : index.viewNumber = st.viewNumber) (hlast : st.lastExeSeq < index.sequence)
    (hnone : st.instances.lookup index = none) :
    ((st.setInstance index (.new now)).keepInstances fun other _ =>
      !(other.viewNumber < index.viewNumber && other.sequence == index.sequence)).Remembers
        crypto := by
  have hnot : ∀ type digest, ¬ st.Voted type index digest := by
    intro type digest hvoted
    rcases hremembers.remembered type index digest hvoted with hseq | hless | ⟨found, hfound⟩
    · omega
    · omega
    · exact OrderedMap.lookup_eq_none_iff.mp hnone
        (List.mem_map_of_mem (f := Prod.fst) hfound)
  have hwrite : (st.setInstance index (.new now)).Remembers crypto :=
    hremembers.write fun type digest hvoted => absurd hvoted (hnot type digest)
  refine hwrite.keepInstances fun entry _ hkeep => Or.inr (Or.inl ?_)
  rw [Bool.not_eq_false', Bool.and_eq_true, decide_eq_true_eq] at hkeep
  exact hkeep.1.trans_eq hview

/-- A proposal erases only what has not been voted for, or is for the value that has been. -/
theorem propose (hremembers : st.Remembers crypto) (htyped : st.Typed) (now : ℤ)
    (hkeeps : ∀ type index digest, st.Voted type index digest →
      index.viewNumber = st.viewNumber → st.lastExeSeq < index.sequence →
      if index.sequence = st.lastExeSeq + 1 then digest = env.pbft.prePrepare.valueDigest
      else ∃ pinstance, (index, pinstance) ∈ st.instances ∧ pinstance.phase = .commited)
    (hdigest : env.pbft.prePrepare.valueDigest = crypto.hash env.pbft.prePrepare.value) :
    ((st.keepInstances fun index pinstance =>
        !(decide (st.lastExeSeq < index.sequence) &&
          pinstance.phase.toNat < PbftInstancePhase.commited.toNat)).setInstance
        ⟨st.viewNumber, st.lastExeSeq + 1⟩ (.proposed env now)).Remembers crypto := by
  set index₀ : PbftInstanceIndex := ⟨st.viewNumber, st.lastExeSeq + 1⟩ with hindex₀
  refine ⟨hremembers.within, fun type index digest hvoted => ?_, ?_, hremembers.unique⟩
  · rcases hremembers.remembered type index digest hvoted with hseq | hless | ⟨found, hfound⟩
    · exact Or.inl hseq
    · exact Or.inr (Or.inl hless)
    by_cases hlast : index.sequence ≤ st.lastExeSeq
    · exact Or.inl hlast
    by_cases hview : index.viewNumber = st.viewNumber
    · have hcommited := hkeeps type index digest hvoted hview (not_le.mp hlast)
      refine Or.inr (Or.inr ?_)
      split at hcommited
      · rename_i hseq
        obtain rfl : index = index₀ := by
          cases index
          simp_all
        exact ⟨_, mem_setInstance_self⟩
      · rename_i hseq
        obtain ⟨pinstance, hmem, hphase⟩ := hcommited
        refine ⟨pinstance, mem_setInstance.mpr (Or.inr ⟨List.mem_filter.mpr ⟨hmem, ?_⟩, ?_⟩)⟩
        · simp [hphase]
        · rintro rfl
          exact hseq rfl
    · exact Or.inr (Or.inl (lt_of_le_of_ne (htyped.view_le _ hfound) hview))
  · refine forall_mem_setInstance (fun entry hentry => ?_) fun type digest hvoted => ?_
    · exact hremembers.digest_eq entry (List.mem_of_mem_filter hentry)
    · have hsame := hkeeps type index₀ digest hvoted rfl (lt_add_one _)
      rw [if_pos rfl] at hsame
      refine ⟨by simp [PbftInstance.proposed], ?_⟩
      rw [hsame, PbftInstance.digestFor]
      split
      · rfl
      · exact hdigest

/-- The messages other than COMMITs that are sent are for the values of their instances. -/
theorem sends (hremembers : st.Remembers crypto) (htyped : st.Typed)
    (hcast : ∀ entry ∈ st.instances, entry.2.Cast crypto validators entry.1)
    (hsends : st.Sends crypto trigger env) : (st.output (.send env)).Remembers crypto := by
  cases hsends with
  | @prePrepare index pinstance msg hmem hmsg htype hvote =>
      obtain ⟨hphase, hvote'⟩ := (hcast _ hmem).prePrepareMsg msg hmsg
      refine hremembers.vote hmem (htyped.sequence_le _ hmem) htyped.nodup hphase ?_
      rw [hvote, hvote', htype, PbftInstance.digestFor, if_neg (by decide)]
  | @prepare index pinstance source hmem hphase hsource hpre _ _ htype hvote =>
      have hindex := (hcast _ hmem).filed.buffered_index source hsource
      simp only [Pbft.index?, hpre, Option.some.injEq] at hindex
      refine hremembers.vote hmem (htyped.sequence_le _ hmem) htyped.nodup hphase ?_
      rw [hvote, hindex, htype, PbftInstance.digestFor, if_neg (by decide)]
  | viewChange htype =>
      refine hremembers.output fun other heq => ?_
      obtain rfl := Output.send.inj heq
      simp [Pbft.vote?, htype]
  | other hvote =>
      refine hremembers.output fun other heq => ?_
      obtain rfl := Output.send.inj heq
      exact hvote

theorem move (hremembers : st.Remembers crypto) (htyped : st.Typed) (hbacked : st.Backed)
    (hcast : ∀ entry ∈ st.instances, entry.2.Cast crypto validators entry.1)
    (hkeeps : trigger.KeepsVotes) (hmove : Move crypto key trigger st st') :
    st'.Remembers crypto := by
  cases hmove with
  | other hsame =>
      refine hremembers.mono hsame.instances_eq hsame.viewNumber_le hsame.lastExeSeq_le ?_
      unfold PbftState.Voted
      rw [hsame.outputs_eq]
      exact fun _ _ _ => id
  | traceOut hsequence _ hinstances houtputs =>
      -- all votes are within the old watermark
      rw [htyped.filter_eq_nil hsequence] at hinstances
      have hold : ∀ type index digest, st'.Voted type index digest →
          st.Voted type index digest := fun type index digest hvoted =>
        hvoted.of_subset fun env henv => houtputs ▸ henv
      have hexecuted : ∀ type index digest, st'.Voted type index digest →
          index.sequence ≤ st'.lastExeSeq := fun type index digest hvoted =>
        (hremembers.within _ _ _ (hold _ _ _ hvoted)).trans hsequence
      refine ⟨fun type index digest hvoted => ?_,
        fun type index digest hvoted => Or.inl (hexecuted _ _ _ hvoted), by simp [hinstances],
        fun type index digest digest' hvoted hvoted' =>
          hremembers.unique _ _ _ _ (hold _ _ _ hvoted) (hold _ _ _ hvoted')⟩
      exact (hexecuted _ _ _ hvoted).trans (Int.le_add_of_nonneg_right (by decide))
  | viewChanged | resetCloseTimer => exact hremembers.output (by simp)
  | sendOther _ hsends => exact hremembers.sends htyped hcast hsends
  | execute =>
      have hlast : ({ st with lastExeSeq := st.lastExeSeq + 1 } : PbftState).Remembers crypto :=
        hremembers.mono rfl le_rfl (Int.le_add_one le_rfl) fun _ _ _ => id
      exact hlast.output (by simp)
  | erase _ hdropped =>
      refine hremembers.keepInstances fun entry hentry hkeep => ?_
      exact (hdropped entry hentry hkeep).imp_right fun h => h.imp_right hkeeps.dropped
  | create now hview hlast _ hnone => exact hremembers.create now hview hlast hnone
  | buffer hmem =>
      refine hremembers.setInstance hmem fun hphase => ?_
      rw [pushBack_phase, pushBack_prePrepare]
      exact ⟨hphase, rfl⟩
  | tick hmem hsame =>
      refine hremembers.setInstance hmem fun hphase => ?_
      rw [hsame.phase_eq, hsame.prePrepare_eq]
      exact ⟨hphase, rfl⟩
  | propose now hproposed _ _ _ hdigest =>
      exact hremembers.propose htyped now (hkeeps.proposed hproposed) hdigest
  | accept _ hmem hphase =>
      exact hremembers.setInstance hmem fun hvalue => absurd hphase hvalue
  | prepare hmem =>
      refine hremembers.setInstance hmem fun hphase => ?_
      exact ⟨withPrepare_phase_ne_none _ _ hphase, withPrepare_prePrepare _ _⟩
  | @sendCommit index pinstance pinstance' prepare roundNumber hmem hphase hsame hprepare =>
      obtain ⟨hindex, hdigest⟩ := (hcast _ hmem).commitsFor_eq (hbacked _ hmem) hprepare
      have hvalue : pinstance.phase ≠ .none := by
        intro hnone
        rw [hnone] at hphase
        exact absurd hphase (by decide)
      have hsent : (st.sendMessage (newCommit crypto key prepare roundNumber st)).Remembers
          crypto := by
        unfold PbftState.sendMessage
        split
        · refine hremembers.vote hmem (htyped.sequence_le _ hmem) htyped.nodup hvalue ?_
          have hvote : (newCommit crypto key prepare roundNumber st).pbft.vote? =
            some (⟨prepare.viewNumber, prepare.sequence⟩, prepare.valueDigest) := rfl
          rw [hvote, hindex, hdigest]
          rfl
        · exact hremembers
      have hmem' : (index, pinstance) ∈
          (st.sendMessage (newCommit crypto key prepare roundNumber st)).instances := by
        rwa [sendMessage_instances]
      refine hsent.setInstance hmem' fun hold => ?_
      rw [hsame.phase_eq, hsame.prePrepare_eq]
      exact ⟨hold, rfl⟩
  | commit _ hmem =>
      refine hremembers.setInstance hmem fun hphase => ?_
      exact ⟨withCommit_phase_ne_none _ _ _ hphase, withCommit_prePrepare _ _ _⟩

end PbftState.Remembers

/-! ## Runs -/

/-- **No vote is forgotten.**  When the event is a proposal of a primary, the votes that it has
sent in its view above the last executed sequence are for COMMITED instances, which stay, or at
the next sequence for the value that is proposed.  When it is a call of `UpdateValidators`, the
replica has not voted for the instances that are erased although they are still to be agreed
on. -/
structure Event.KeepsVotes (crypto : Crypto) (event : Event) (st : PbftState) : Prop where
  proposed : ∀ digest, event.Proposes crypto st digest → ∀ type index digest',
    st.Voted type index digest' → index.viewNumber = st.viewNumber →
    st.lastExeSeq < index.sequence →
    if index.sequence = st.lastExeSeq + 1 then digest' = digest
    else ∃ pinstance, (index, pinstance) ∈ st.instances ∧ pinstance.phase = .commited
  updated : ∀ index, event.Forgets crypto st index →
    ∀ type digest, ¬ st.Voted type index digest

theorem Event.KeepsVotes.keepsVotes {event : Event} (hkeeps : event.KeepsVotes crypto st) :
    (event.trigger crypto key st).KeepsVotes := by
  constructor
  · rintro mid env ⟨rfl, hproposes, -⟩
    exact hkeeps.proposed _ hproposes
  · rintro mid index ⟨hsilent, hforgets⟩ type digest hvoted
    exact hkeeps.updated index hforgets type digest (hvoted.of_subset hsilent)

/-- A replica whose instances remember its votes. -/
structure PbftState.Voting (crypto : Crypto) (key : PrivateKey) (validators : List Bytes)
    (st : PbftState) : Prop where
  typed : st.Typed
  configured : st.Configured crypto key validators
  cast : ∀ entry ∈ st.instances, entry.2.Cast crypto validators entry.1
  backed : st.Backed
  remembers : st.Remembers crypto

theorem PbftState.Voting.step {event : Event} (hvoting : st.Voting crypto key validators)
    (hkeeps : event.KeepsValidators validators) (hvotes : event.KeepsVotes crypto st) :
    (step crypto key st event).Voting crypto key validators := by
  refine (step_moves hvoting.typed hvoting.configured hkeeps).invariant
    (fun mid mid' hmove hmid => ?_) hvoting
  have hkept : Kept crypto (event.trigger crypto key st) mid.quorumSize fun index pinstance =>
      pinstance.Cast crypto validators index := by
    refine PbftInstance.Cast.kept mid.quorumSize ?_ ?_
    · rintro - pinstance env ⟨⟨checkValue, now, -, hcheck, -⟩, -⟩
      rwa [hvoting.configured.validators_eq] at hcheck
    · rintro - env ⟨-, -, henv⟩
      rw [henv]
      rfl
  exact ⟨hmove.typed hmid.typed, hmove.configured hmid.configured, hkept.move hmove hmid.cast,
    hmove.backed hmid.backed,
    hmid.remembers.move hmid.typed hmid.backed hmid.cast hvotes.keepsVotes hmove⟩

/-- **One vote for one instance.**  In every run in which no event makes the replica forget a
vote, it never sends two PRE-PREPAREs, two PREPAREs or two COMMITs for different digests at one
view and sequence. -/
theorem votes_unique {events : List Event}
    (hmeets : RunMeets (Event.KeepsVotes crypto) crypto key validators events)
    {type : PbftMessageType} {digest digest' : Bytes}
    (hvoted : (run crypto key validators events).Voted type index digest)
    (hvoted' : (run crypto key validators events).Voted type index digest') :
    digest = digest' := by
  have hnot : ∀ type index digest,
      ¬ (initialState crypto key validators).Voted type index digest := by
    rintro type index digest ⟨env, henv, -⟩
    exact absurd henv List.not_mem_nil
  have hstart : (initialState crypto key validators).Remembers crypto := by
    refine ⟨fun type index digest hvoted => absurd hvoted (hnot type index digest),
      fun type index digest hvoted => absurd hvoted (hnot type index digest),
      by simp [initialState, setValidators],
      fun type index digest _ hvoted => absurd hvoted (hnot type index digest)⟩
  have hvoting : (run crypto key validators events).Voting crypto key validators :=
    run_invariant ⟨initialState_typed, initialState_configured,
      by simp [initialState, setValidators], by simp [PbftState.Backed, initialState,
        setValidators], hstart⟩
      (fun st event hkeeps hvotes hvoting => hvoting.step hkeeps hvotes) events hmeets
  exact hvoting.remembers.unique type index digest digest' hvoted hvoted'

end Votes

/-! ## Runs of a primary -/

section Decide

variable {crypto : Crypto} {st : PbftState}

/-- Whether the replica has sent a message of the type for the digest. -/
def PbftState.voted? (type : PbftMessageType) (index : PbftInstanceIndex) (digest : Bytes)
    (st : PbftState) : Bool :=
  st.outputs.any fun
    | .send env => env.pbft.type == type && env.pbft.vote? == some (index, digest)
    | _ => false

theorem voted_of_voted? {type : PbftMessageType} {index : PbftInstanceIndex} {digest : Bytes}
    (hvoted : st.voted? type index digest = true) : st.Voted type index digest := by
  obtain ⟨output, houtput, hmatch⟩ := List.any_eq_true.mp hvoted
  cases output with
  | send env =>
      rw [Bool.and_eq_true, beq_iff_eq, beq_iff_eq] at hmatch
      exact ⟨env, houtput, hmatch⟩
  | _ => exact absurd hmatch Bool.false_ne_true

/-- Whether all votes above the last executed sequence are for the digest at the next one. -/
def PbftState.votesOnly? (digest : Bytes) (st : PbftState) : Bool :=
  st.outputs.all fun
    | .send env => env.pbft.vote?.all fun vote => decide (vote.1.sequence ≤ st.lastExeSeq) ||
        vote.1.sequence == st.lastExeSeq + 1 && vote.2 == digest
    | _ => true

/-- Whether the event is no `UpdateValidators`, and forgets no vote as a proposal. -/
def Event.keepsVotes? (crypto : Crypto) (event : Event) (st : PbftState) : Bool :=
  match event with
  | .request value _ => st.votesOnly? (crypto.hash value)
  | .updateValidators _ _ => false
  | _ => true

theorem keepsVotes_of_keepsVotes? {validators : List Bytes} (event : Event) (st : PbftState)
    (hkeeps : event.keepsVotes? crypto st = true) :
    event.KeepsValidators validators ∧ event.KeepsVotes crypto st := by
  refine ⟨?_, ?_, ?_⟩
  · cases event with
    | updateValidators => exact absurd hkeeps Bool.false_ne_true
    | _ => trivial
  · rintro digest ⟨value, now, rfl, -, -, rfl⟩ type index digest' ⟨env, henv, -, hvote⟩ - hlast
    have hfits := List.all_eq_true.mp hkeeps _ henv
    simp only [hvote, Option.all_some, Bool.or_eq_true, decide_eq_true_eq, Bool.and_eq_true,
      beq_iff_eq] at hfits
    obtain ⟨hseq, hdigest⟩ := hfits.resolve_left (not_le.mpr hlast)
    rwa [if_pos hseq]
  · rintro index ⟨validators, proof, _, _, _, rfl, -⟩
    exact absurd hkeeps Bool.false_ne_true

end Decide

namespace Sample

/-- The primary proposes a value, and proposes it again after a PREPARE has arrived. -/
def proposeAgain : List Event :=
  [.request [7] 0, .recv (prepareFor 1 0 [7]) .valid 0, .request [7] 1]

end Sample

open Sample in
/-- The primary has one PRE-PREPARE digest after it has proposed a value twice. -/
theorem votes_unique_proposeAgain :
    (run Sample.crypto (Sample.key 0) Sample.validators proposeAgain).Voted .preprepare ⟨0, 2⟩
        [1, 7] ∧
      ∀ digest, (run Sample.crypto (Sample.key 0) Sample.validators proposeAgain).Voted
        .preprepare ⟨0, 2⟩ digest → digest = [1, 7] := by
  have hmeets : RunMeets (Event.KeepsVotes Sample.crypto) Sample.crypto (Sample.key 0)
      Sample.validators proposeAgain :=
    runObeys_of_obeys? (Event.keepsVotes? Sample.crypto) keepsVotes_of_keepsVotes?
      (by decide +kernel)
  have hvoted : (run Sample.crypto (Sample.key 0) Sample.validators proposeAgain).Voted
      .preprepare ⟨0, 2⟩ [1, 7] := voted_of_voted? (by decide +kernel)
  exact ⟨hvoted, fun digest hother => votes_unique hmeets hother hvoted⟩

open Sample in
/-- The primary is asked for two values, one after the other, and sends two PRE-PREPAREs. -/
theorem votes_conflict :
    let events : List Event := [.request [7] 0, .request [8] 1]
    RunMeets (fun _ _ => True) Sample.crypto (Sample.key 0) Sample.validators events ∧
      (run Sample.crypto (Sample.key 0) Sample.validators events).Voted .preprepare ⟨0, 2⟩
        [1, 7] ∧
      (run Sample.crypto (Sample.key 0) Sample.validators events).Voted .preprepare ⟨0, 2⟩
        [1, 8] := by
  refine ⟨fun before event after hsplit => ⟨?_, trivial⟩, voted_of_voted? (by decide +kernel),
    voted_of_voted? (by decide +kernel)⟩
  have hmem : event ∈ [Event.request [7] 0, .request [8] 1] := by simp [hsplit]
  rcases List.mem_pair.mp hmem with rfl | rfl <;> trivial

end CegChain
