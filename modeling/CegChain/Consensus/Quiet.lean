import CegChain.Consensus.System

/-!
# Events without a PRE-PREPARE

The messages of an instance are buffered and handled later, but a PRE-PREPARE never waits:
it is handled in the event in which it arrives (`PbftInstance.Settled`).  So every event
other than the arrival of a PRE-PREPARE takes none and sends no PREPARE
(`PbftState.Quiet`).  There is one lemma for every handler.
-/

namespace CegChain

/-! ## Between two events -/

/-- An instance between two events: the messages are in the buffers of their types, and as
long as there is no value every PRE-PREPARE has been handled. -/
structure PbftInstance.Settled (pinstance : PbftInstance) : Prop where
  prepareBuf_type : ∀ env ∈ pinstance.prepareBuf, env.pbft.type = .prepare
  commitBuf_type : ∀ env ∈ pinstance.commitBuf, env.pbft.type = .commit
  prePrepareMsg : ∀ env ∈ pinstance.prePrepareMsg?, env.pbft.type ≠ .prepare
  waiting : pinstance.phase = .none →
    pinstance.prePrepare = {} ∧ pinstance.phaseItem = pinstance.prePrepareBuf.length

/-- The messages that a view-change instance keeps to repeat them are no PREPAREs. -/
structure PbftVcInstance.Settled (vcInstance : PbftVcInstance) : Prop where
  viewChangeMsg : ∀ env ∈ vcInstance.viewChangeMsg?, env.pbft.type ≠ .prepare
  newview : vcInstance.newview.pbft.type ≠ .prepare

/-- A replica between two events. -/
structure PbftState.Settled (st : PbftState) : Prop where
  instances : ∀ entry ∈ st.instances, entry.2.Settled
  vcInstances : ∀ entry ∈ st.vcInstances, entry.2.Settled
  lastExeSeq_pos : 0 < st.lastExeSeq

/-- From `st` to `st'` no PRE-PREPARE is taken and no PREPARE is sent. -/
structure PbftState.Quiet (st st' : PbftState) : Prop where
  settled : st'.Settled
  nodup : (st.instances.map Prod.fst).Nodup → (st'.instances.map Prod.fst).Nodup
  kept : ∀ entry ∈ st'.instances, entry.2.prePrepare = {} ∨
    ∃ pinstance, (entry.1, pinstance) ∈ st.instances ∧
      pinstance.prePrepare = entry.2.prePrepare
  outputs : ∃ new, st'.outputs = st.outputs ++ new ∧
    ∀ env, .send env ∈ new → env.pbft.type ≠ .prepare

section Quiet

variable {crypto : Crypto} {key : PrivateKey} {st st' mid : PbftState}
  {index : PbftInstanceIndex} {pinstance : PbftInstance} {env : PbftEnv}

namespace PbftState.Quiet

/-- Neither the instances nor what is handed out change. -/
theorem of_eq (hsettled : st'.Settled) (hinstances : st'.instances = st.instances)
    (houtputs : st'.outputs = st.outputs) : st.Quiet st' where
  settled := hsettled
  nodup hnodup := hinstances ▸ hnodup
  kept entry hentry := Or.inr ⟨entry.2, hinstances ▸ hentry, rfl⟩
  outputs := ⟨[], by simp [houtputs], by simp⟩

theorem refl (hsettled : st.Settled) : st.Quiet st :=
  of_eq hsettled rfl rfl

theorem trans (hfirst : st.Quiet mid) (hsecond : mid.Quiet st') : st.Quiet st' where
  settled := hsecond.settled
  nodup hnodup := hsecond.nodup (hfirst.nodup hnodup)
  kept entry hentry := by
    rcases hsecond.kept entry hentry with hnone | ⟨pinstance, hmem, heq⟩
    · exact Or.inl hnone
    · rcases hfirst.kept _ hmem with hnone | ⟨pinstance', hmem', heq'⟩
      · exact Or.inl (heq ▸ hnone)
      · exact Or.inr ⟨pinstance', hmem', heq'.trans heq⟩
  outputs := by
    obtain ⟨new, houtputs, hnew⟩ := hfirst.outputs
    obtain ⟨new', houtputs', hnew'⟩ := hsecond.outputs
    refine ⟨new ++ new', by rw [houtputs', houtputs, List.append_assoc], fun env henv => ?_⟩
    rcases List.mem_append.mp henv with h | h
    · exact hnew env h
    · exact hnew' env h

/-- What comes before changes neither the instances nor what is handed out. -/
theorem of_eq_left (hquiet : mid.Quiet st') (hinstances : mid.instances = st.instances)
    (houtputs : mid.outputs = st.outputs) : st.Quiet st' :=
  ⟨hquiet.settled, hinstances ▸ hquiet.nodup, hinstances ▸ hquiet.kept, houtputs ▸ hquiet.outputs⟩

end PbftState.Quiet

namespace PbftState.Settled

/-- Something else than a PREPARE is handed out. -/
theorem output (hsettled : st.Settled) {o : Output}
    (hprepare : ∀ env, o = .send env → env.pbft.type ≠ .prepare) : st.Quiet (st.output o) where
  settled := ⟨hsettled.instances, hsettled.vcInstances, hsettled.lastExeSeq_pos⟩
  nodup := id
  kept entry hentry := Or.inr ⟨entry.2, hentry, rfl⟩
  outputs := ⟨[o], rfl, fun env henv => hprepare env (List.mem_singleton.mp henv).symm⟩

theorem sendMessage (hsettled : st.Settled) (hprepare : env.pbft.type ≠ .prepare) :
    st.Quiet (st.sendMessage env) := by
  unfold PbftState.sendMessage
  split
  · refine hsettled.output fun other heq => ?_
    obtain rfl := Output.send.inj heq
    exact hprepare
  · exact .refl hsettled

theorem keepInstances (hsettled : st.Settled) (keep : PbftInstanceIndex → PbftInstance → Bool) :
    st.Quiet (st.keepInstances keep) where
  settled := ⟨fun entry hentry => hsettled.instances entry (List.mem_of_mem_filter hentry),
    hsettled.vcInstances, hsettled.lastExeSeq_pos⟩
  nodup := .sublist (List.filter_sublist.map _)
  kept entry hentry := Or.inr ⟨entry.2, List.mem_of_mem_filter hentry, rfl⟩
  outputs := ⟨[], by simp [PbftState.keepInstances], by simp⟩

theorem set (hsettled : st.Settled) (hnew : pinstance.Settled) :
    (st.setInstance index pinstance).Settled :=
  ⟨forall_mem_setInstance hsettled.instances hnew, hsettled.vcInstances, hsettled.lastExeSeq_pos⟩

/-- An instance is written that has the value it had, or none. -/
theorem setInstance (hsettled : st.Settled) (hnew : pinstance.Settled)
    (hkept : pinstance.prePrepare = {} ∨ ∃ old, (index, old) ∈ st.instances ∧
      old.prePrepare = pinstance.prePrepare) :
    st.Quiet (st.setInstance index pinstance) where
  settled := hsettled.set hnew
  nodup := OrderedMap.nodup_insert index pinstance
  kept entry hentry := by
    rcases mem_setInstance.mp hentry with rfl | ⟨hmem, -⟩
    · exact hkept
    · exact Or.inr ⟨entry.2, hmem, rfl⟩
  outputs := ⟨[], by simp [PbftState.setInstance], by simp⟩

/-- The view changes are written. -/
theorem insertVc (hsettled : st.Settled) {viewNumber : ℤ} {vcInstance : PbftVcInstance}
    (hnew : vcInstance.Settled) :
    ∀ entry ∈ OrderedMap.insert viewNumber vcInstance st.vcInstances, entry.2.Settled := by
  intro entry hentry
  rcases OrderedMap.mem_insert.mp hentry with rfl | ⟨hold, -⟩
  · exact hnew
  · exact hsettled.vcInstances entry hold

end PbftState.Settled

/-! ## Agreement on a value -/

theorem PbftInstance.Settled.new (now : ℤ) : (PbftInstance.new now).Settled := by
  constructor <;> simp [PbftInstance.new]

/-- An instance with a value stays settled whatever is counted. -/
theorem PbftInstance.Settled.of_phase {pinstance' : PbftInstance} (hsettled : pinstance.Settled)
    (hprepareBuf : pinstance'.prepareBuf = pinstance.prepareBuf)
    (hcommitBuf : pinstance'.commitBuf = pinstance.commitBuf)
    (hmsg : pinstance'.prePrepareMsg? = pinstance.prePrepareMsg?)
    (hphase : pinstance'.phase ≠ .none) : pinstance'.Settled where
  prepareBuf_type := hprepareBuf ▸ hsettled.prepareBuf_type
  commitBuf_type := hcommitBuf ▸ hsettled.commitBuf_type
  prePrepareMsg := hmsg ▸ hsettled.prePrepareMsg
  waiting hnone := absurd hnone hphase

theorem PbftInstance.Settled.withPrepare (hsettled : pinstance.Settled) (quorumSize : ℕ)
    (prepare : PbftPrepare) (hphase : pinstance.phase ≠ .none) :
    (pinstance.withPrepare quorumSize prepare).Settled := by
  refine hsettled.of_phase ?_ ?_ (withPrepare_prePrepareMsg _ _)
    (withPrepare_phase_ne_none _ _ hphase)
  · unfold PbftInstance.withPrepare
    simp only
    split_ifs <;> rfl
  · unfold PbftInstance.withPrepare
    simp only
    split_ifs <;> rfl

theorem newCommit_type (prepare : PbftPrepare) (roundNumber : ℤ) :
    (newCommit crypto key prepare roundNumber st).pbft.type ≠ .prepare := by
  simp [newCommit, signEnv, newPbft]

theorem onPrepare_quiet (now : ℤ) (hsettled : st.Settled)
    (hlookup : st.instances.lookup index = some pinstance) (hphase : pinstance.phase ≠ .none) :
    st.Quiet (onPrepare crypto key env.pbft index now st).1 := by
  have hmem := OrderedMap.mem_of_lookup hlookup
  rw [onPrepare_eq now hlookup]
  simp only
  set pinstance' := pinstance.withPrepare st.quorumSize env.pbft.prepare with hpinstance'
  have hnew : pinstance'.Settled := (hsettled.instances _ hmem).withPrepare _ _ hphase
  have hvalue : pinstance'.prePrepare = pinstance.prePrepare := withPrepare_prePrepare _ _
  split_ifs
  · exact .refl hsettled
  · have hset : st.Quiet (st.setInstance index { pinstance' with lastCommitSendTime := now }) :=
      hsettled.setInstance ⟨hnew.prepareBuf_type, hnew.commitBuf_type, hnew.prePrepareMsg,
        hnew.waiting⟩ (Or.inr ⟨pinstance, hmem, hvalue.symm⟩)
    exact hset.trans (hset.settled.sendMessage (newCommit_type _ _))
  · exact hsettled.setInstance hnew (Or.inr ⟨pinstance, hmem, hvalue.symm⟩)

theorem tryExecuteLoop_quiet (rest : List (PbftInstanceIndex × PbftInstance)) (st : PbftState)
    (hsettled : st.Settled) : st.Quiet (tryExecuteLoop rest st) := by
  induction rest generalizing st with
  | nil => exact .refl hsettled
  | cons entry rest ih =>
      obtain ⟨index, pinstance⟩ := entry
      rw [tryExecuteLoop]
      split_ifs with hdone hnext
      · exact ih st hsettled
      · have hcount : st.Quiet { st with lastExeSeq := st.lastExeSeq + 1 } :=
          .of_eq ⟨hsettled.instances, hsettled.vcInstances, by
            have := hsettled.lastExeSeq_pos
            simp only
            omega⟩ rfl rfl
        have hout := hcount.trans (hcount.settled.output (o := .valueCommited index.sequence
          pinstance.prePrepare.value ⟨proofCommits pinstance.commitBuf []⟩) (by simp))
        have hkeep := hout.trans (hout.settled.keepInstances
          fun other _ => index.sequence - ckpInterval / 2 < other.sequence)
        exact hkeep.trans (ih _ hkeep.settled)
      · exact .refl hsettled

theorem PbftInstance.Settled.withCommit (hsettled : pinstance.Settled) (quorumSize : ℕ)
    (commit : PbftCommit) (now : ℤ) : (pinstance.withCommit quorumSize commit now).Settled := by
  unfold PbftInstance.withCommit
  simp only
  split_ifs
  · exact hsettled.of_phase rfl rfl rfl (by simp)
  · exact ⟨hsettled.prepareBuf_type, hsettled.commitBuf_type, hsettled.prePrepareMsg,
      hsettled.waiting⟩

theorem onCommit_quiet (now : ℤ) (hsettled : st.Settled)
    (hlookup : st.instances.lookup index = some pinstance) :
    st.Quiet (onCommit env.pbft index now st).1 := by
  have hmem := OrderedMap.mem_of_lookup hlookup
  have hset : st.Quiet (st.setInstance index
      (pinstance.withCommit st.quorumSize env.pbft.commit now)) :=
    hsettled.setInstance ((hsettled.instances _ hmem).withCommit _ _ _)
      (Or.inr ⟨pinstance, hmem, (withCommit_prePrepare _ _ _).symm⟩)
  simp only [onCommit, getInstance_of_lookup hlookup]
  split_ifs with hdigest hold hquorum
  · exact .refl hsettled
  · exact .refl hsettled
  · rw [PbftInstance.withCommit, if_pos hquorum] at hset
    exact hset.trans (tryExecuteLoop_quiet _ _ hset.settled)
  · rw [PbftInstance.withCommit, if_neg hquorum] at hset
    exact hset

/-- Once there is a value, the phase waits for PREPAREs or for COMMITs. -/
theorem PbftInstance.Settled.type_of_mem_phaseBuf (hsettled : pinstance.Settled)
    (hphase : pinstance.phase ≠ .none) (hmem : env ∈ pinstance.phaseBuf) :
    env.pbft.type = .prepare ∨ env.pbft.type = .commit := by
  unfold PbftInstance.phaseBuf at hmem
  cases hcase : pinstance.phase with
  | none => exact absurd hcase hphase
  | preprepared => exact Or.inl (hsettled.prepareBuf_type env (by simpa only [hcase] using hmem))
  | prepared => exact Or.inr (hsettled.commitBuf_type env (by simpa only [hcase] using hmem))
  | commited => simp [hcase] at hmem

/-- In a settled state the loop of `Go` takes no PRE-PREPARE. -/
theorem goLoop_quiet (checkValue : CheckValueResult) (now : ℤ) (fuel : ℕ) (doret : Bool)
    (st : PbftState) (hsettled : st.Settled) :
    st.Quiet (goLoop crypto key index checkValue now fuel doret st).1 := by
  induction fuel generalizing doret st with
  | zero => exact .refl hsettled
  | succ fuel ih =>
      rw [goLoop]
      simp only
      split
      · exact .refl hsettled
      · rename_i env hitem
        have hlookup := lookup_of_phaseBuf hitem
        have hmem := OrderedMap.mem_of_lookup hlookup
        have hold := hsettled.instances _ hmem
        set pinstance := st.getInstance index with hpinstance
        have hphase : pinstance.phase ≠ .none := by
          intro hnone
          rw [PbftInstance.phaseBuf, hnone, (hold.waiting hnone).2] at hitem
          simp at hitem
        have htype := hold.type_of_mem_phaseBuf hphase (List.mem_of_getElem? hitem)
        have htick : st.Quiet (st.setInstance index
            { pinstance with phaseItem := pinstance.phaseItem + 1 }) :=
          hsettled.setInstance (hold.of_phase rfl rfl rfl hphase) (Or.inr ⟨pinstance, hmem, rfl⟩)
        set st₁ := st.setInstance index { pinstance with phaseItem := pinstance.phaseItem + 1 }
        have hlookup₁ : st₁.instances.lookup index =
            some { pinstance with phaseItem := pinstance.phaseItem + 1 } := lookup_setInstance_self
        have hhandle : st₁.Quiet
            (onPhaseMessage crypto key env.pbft index checkValue now st₁).1 := by
          unfold onPhaseMessage
          rcases htype with htype | htype
          · rw [htype]
            exact onPrepare_quiet now htick.settled hlookup₁ hphase
          · rw [htype]
            exact onCommit_quiet now htick.settled hlookup₁
        exact (htick.trans hhandle).trans (ih _ _ hhandle.settled)

/-! ## Messages from other views -/

theorem tryDoTraceOut_quiet (hsettled : st.Settled) :
    st.Quiet (tryDoTraceOut index pinstance st) := by
  unfold tryDoTraceOut
  simp only
  split_ifs with hjump
  · have hsequence : 0 < index.sequence := by
      have hpos := hsettled.lastExeSeq_pos
      have hjump' := hjump.2
      unfold ckpInterval at hjump'
      omega
    have hview : st.Quiet { st with
        viewActive := true
        viewNumber := index.viewNumber
        lastExeSeq := index.sequence
        vcInstances := st.vcInstances.filter fun entry => entry.2.viewChangeMsg?.isNone
        outPbftInstances := [] } :=
      .of_eq ⟨hsettled.instances,
        fun entry hentry => hsettled.vcInstances entry (List.mem_of_mem_filter hentry), hsequence⟩
        rfl rfl
    have hkeep := hview.trans (hview.settled.keepInstances
      fun other _ => index.sequence < other.sequence)
    exact hkeep.trans (hkeep.settled.output (by simp))
  · exact .refl hsettled

theorem traceOutPbftCommit_quiet (now : ℤ) (hsettled : st.Settled) :
    st.Quiet (traceOutPbftCommit env now st) := by
  simp only [traceOutPbftCommit]
  split_ifs with hsome hdigest
  · obtain ⟨pinstance, hlookup⟩ := Option.isSome_iff_exists.mp hsome
    exact onCommit_quiet now hsettled hlookup
  · exact .refl hsettled
  · refine (tryDoTraceOut_quiet ?_).of_eq_left rfl rfl
    exact ⟨hsettled.instances, hsettled.vcInstances, hsettled.lastExeSeq_pos⟩

/-! ## View changes -/

theorem PbftVcInstance.Settled.receive {vcInstance : PbftVcInstance} (replicaId lastExeSeq : ℤ)
    (hsettled : vcInstance.Settled) (hprepare : env.pbft.type ≠ .prepare) :
    (vcInstance.receive env replicaId lastExeSeq).Settled := by
  unfold PbftVcInstance.receive
  extract_lets _ _ first second
  have hfirst : first.Settled := by
    simp only [first]
    split
    · exact ⟨by simpa using hprepare, hsettled.newview⟩
    · exact hsettled
  have hsecond : second.Settled := by
    simp only [second]
    split
    · exact ⟨hfirst.viewChangeMsg, hfirst.newview⟩
    · exact hfirst
  split
  · exact hsecond
  · dsimp only
    split
    · exact ⟨hsecond.viewChangeMsg, hsecond.newview⟩
    · exact hsecond

theorem newNewView_type (vcInstance : PbftVcInstance) :
    (newNewView crypto key vcInstance st).pbft.type ≠ .prepare := by
  simp [newNewView, signEnv, newPbft]

theorem newViewChangeRawValue_type (viewNumber : ℤ) (preparedSet : PbftPreparedSet) :
    (newViewChangeRawValue crypto key viewNumber preparedSet st).pbft.type ≠ .prepare := by
  simp [newViewChangeRawValue, signEnv, newPbft]

theorem processQuorumViewChange_quiet {viewNumber : ℤ} {vcInstance : PbftVcInstance} (now : ℤ)
    (hsettled : st.Settled) (hlookup : st.vcInstances.lookup viewNumber = some vcInstance) :
    st.Quiet (processQuorumViewChange crypto key viewNumber now st).1 := by
  have hvc := hsettled.vcInstances _ (OrderedMap.mem_of_lookup hlookup)
  simp only [processQuorumViewChange, hlookup, Option.getD_some]
  split_ifs
  · set msg := newNewView crypto key vcInstance st
    have hsend : st.Quiet (st.sendMessage msg) := hsettled.sendMessage (newNewView_type _)
    have hkeep : st.Quiet (keepPrepared (st.sendMessage msg)) :=
      hsend.trans (hsend.settled.keepInstances _)
    set st₁ := keepPrepared (st.sendMessage msg)
    have hvcs := @PbftState.Settled.insertVc _ hkeep.settled viewNumber { vcInstance with
      lastNewviewTime := now, newview := msg, endTime := now }
      ⟨hvc.viewChangeMsg, newNewView_type _⟩
    have hview : st₁.Quiet (clearViewChanges { st₁ with
        viewNumber := vcInstance.viewNumber
        viewActive := true
        vcInstances := OrderedMap.insert viewNumber { vcInstance with
          lastNewviewTime := now, newview := msg, endTime := now } st₁.vcInstances }) :=
      .of_eq ⟨hkeep.settled.instances,
        fun entry hentry => hvcs entry (List.mem_of_mem_filter hentry),
        hkeep.settled.lastExeSeq_pos⟩ rfl rfl
    have hreset :=
      (hkeep.trans hview).trans (hview.settled.output (o := .resetCloseTimer) (by simp))
    exact hreset.trans (hreset.settled.output (by simp))
  · exact .of_eq ⟨hsettled.instances, hsettled.vcInstances, hsettled.lastExeSeq_pos⟩ rfl rfl

theorem onViewChangeWithRawValue_quiet (now : ℤ) (hsettled : st.Settled)
    (hprepare : env.pbft.type ≠ .prepare) :
    st.Quiet (onViewChangeWithRawValue crypto key env now st).1 := by
  simp only [onViewChangeWithRawValue]
  set viewNumber := env.pbft.viewChangeWithRawvalue.viewChangeEnv.pbft.viewChange.viewNumber
  set vcInstance := ((st.vcInstances.lookup viewNumber).getD _).receive env _ _ with hvcInstance
  have hvc : vcInstance.Settled := by
    refine PbftVcInstance.Settled.receive _ _ ?_ hprepare
    cases hlookup : st.vcInstances.lookup viewNumber with
    | none => exact ⟨by simp [PbftVcInstance.new], by
        simp only [Option.getD_none, PbftVcInstance.new]
        decide⟩
    | some found => exact hsettled.vcInstances _ (OrderedMap.mem_of_lookup hlookup)
  have hwrite : st.Quiet { st with
      vcInstances := OrderedMap.insert viewNumber vcInstance st.vcInstances } :=
    .of_eq ⟨hsettled.instances, hsettled.insertVc hvc, hsettled.lastExeSeq_pos⟩ rfl rfl
  split_ifs with hequal hless hquorum
  · exact .refl hsettled
  · exact .refl hsettled
  · exact hwrite.trans (processQuorumViewChange_quiet now hwrite.settled
      (OrderedMap.lookup_insert_self ..))
  · exact hwrite

theorem onNewView_quiet (now : ℤ) (hsettled : st.Settled) :
    st.Quiet (onNewView crypto env now st).1 := by
  simp only [onNewView]
  set st₁ := { st with timers := st.timers.filter fun timer => timer.1 ≠ st.newViewRepondTimer }
  have htimers : st.Quiet st₁ :=
    .of_eq ⟨hsettled.instances, hsettled.vcInstances, hsettled.lastExeSeq_pos⟩ rfl rfl
  split_ifs with hequal hless
  · exact .refl hsettled
  · exact .refl hsettled
  · exact htimers
  · exact htimers
  · have hkeep : st.Quiet (keepPrepared st₁) := htimers.trans (htimers.settled.keepInstances _)
    refine hkeep.trans ((PbftState.Settled.output ?_ (by simp)).of_eq_left rfl rfl)
    refine ⟨hkeep.settled.instances, fun entry hentry => ?_, hkeep.settled.lastExeSeq_pos⟩
    obtain ⟨entry', hentry', rfl⟩ := List.mem_map.mp (List.mem_of_mem_filter hentry)
    obtain ⟨hmsg, hnewview⟩ := hkeep.settled.vcInstances entry' hentry'
    split
    · exact ⟨hmsg, hnewview⟩
    · exact ⟨hmsg, hnewview⟩
  · exact htimers

theorem onTxTimeout_quiet (hsettled : st.Settled) : st.Quiet (onTxTimeout crypto key st) := by
  unfold onTxTimeout
  split
  · refine PbftState.Quiet.of_eq_left
      (PbftState.Settled.sendMessage ?_ (newViewChangeRawValue_type _ _)) rfl rfl
    exact ⟨hsettled.instances, hsettled.vcInstances, hsettled.lastExeSeq_pos⟩
  · exact .refl hsettled

theorem onNewViewRepondTimer_quiet (timer : ℕ) (hsettled : st.Settled) :
    st.Quiet (onNewViewRepondTimer crypto key timer st) := by
  unfold onNewViewRepondTimer
  split
  · exact .refl hsettled
  · extract_lets st'
    have hother : st.Quiet st' :=
      .of_eq ⟨hsettled.instances, hsettled.vcInstances, hsettled.lastExeSeq_pos⟩ rfl rfl
    split
    · exact hother
    · exact hother.trans (hother.settled.sendMessage (newViewChangeRawValue_type _ _))

/-! ## Timers -/

theorem foldl_quiet {α : Type*} {body : PbftState → α → PbftState}
    (hbody : ∀ (st : PbftState) (a : α), st.Settled → st.Quiet (body st a))
    (items : List α) (st : PbftState) (hsettled : st.Settled) : st.Quiet (items.foldl body st) := by
  induction items generalizing st with
  | nil => exact .refl hsettled
  | cons a items ih =>
      have hfirst := hbody st a hsettled
      exact hfirst.trans (ih _ hfirst.settled)

theorem sendPrepareAgain_quiet (currentTime : ℤ) (hmem : (index, pinstance) ∈ st.instances)
    (hsettled : st.Settled) :
    st.Quiet (sendPrepareAgain crypto key currentTime index pinstance st) := by
  have hold := hsettled.instances _ hmem
  unfold sendPrepareAgain
  cases hmsg : pinstance.prePrepareMsg? with
  | none => exact .refl hsettled
  | some prePrepareMsg =>
      have hprepare := hold.prePrepareMsg prePrepareMsg hmsg
      dsimp only
      split
      · have hset := @PbftState.Settled.setInstance _ index { pinstance with
          prePrepareMsg? := some prePrepareMsg
          prePrepareRound := pinstance.prePrepareRound + 1
          lastProposeTime := currentTime } hsettled
          ⟨hold.prepareBuf_type, hold.commitBuf_type, hmsg ▸ hold.prePrepareMsg, hold.waiting⟩
          (Or.inr ⟨pinstance, hmem, rfl⟩)
        exact hset.trans (hset.settled.sendMessage hprepare)
      · exact .refl hsettled

theorem onTimerInstance_quiet (currentTime : ℤ) (st : PbftState) (index : PbftInstanceIndex)
    (hsettled : st.Settled) : st.Quiet (onTimerInstance crypto key currentTime st index) := by
  unfold onTimerInstance
  cases hlookup : st.instances.lookup index with
  | none => exact .refl hsettled
  | some pinstance =>
      have hmem := OrderedMap.mem_of_lookup hlookup
      dsimp only
      split
      · have htimeout : st.Quiet (onTxTimeout crypto key st) := onTxTimeout_quiet hsettled
        have hmem' : (index, pinstance) ∈ (onTxTimeout crypto key st).instances := by
          rwa [onTxTimeout_instances]
        have hold := hsettled.instances _ hmem
        have hflag := htimeout.trans (@PbftState.Settled.setInstance _ index
          { pinstance with haveSendViewchange := true } htimeout.settled
          ⟨hold.prepareBuf_type, hold.commitBuf_type, hold.prePrepareMsg, hold.waiting⟩
          (Or.inr ⟨pinstance, hmem', rfl⟩))
        exact hflag.trans (sendPrepareAgain_quiet currentTime mem_setInstance_self hflag.settled)
      · exact sendPrepareAgain_quiet currentTime hmem hsettled

theorem onTimerCommit_quiet (currentTime : ℤ) (hsettled : st.Settled) :
    st.Quiet (onTimerCommit crypto key currentTime st) := by
  unfold onTimerCommit
  split
  · exact .refl hsettled
  · rename_i index pinstance hlast
    obtain ⟨hmem, -⟩ := List.mem_filter.mp (List.mem_of_getLast? hlast)
    have hold := hsettled.instances _ hmem
    dsimp only
    split
    · have hsend := hsettled.sendMessage (@newCommit_type crypto key st
        ((pinstance.prepares.map Prod.snd).headD default) (pinstance.commitRound + 1))
      refine hsend.trans (hsend.settled.setInstance ?_ (Or.inr ⟨pinstance, ?_, rfl⟩))
      · exact ⟨hold.prepareBuf_type, hold.commitBuf_type, hold.prePrepareMsg, hold.waiting⟩
      · rwa [sendMessage_instances]
    · exact .refl hsettled

theorem onTimerViewChange_quiet (currentTime : ℤ) (st : PbftState) (viewNumber : ℤ)
    (hsettled : st.Settled) :
    st.Quiet (onTimerViewChange crypto key currentTime st viewNumber) := by
  unfold onTimerViewChange
  cases hlookup : st.vcInstances.lookup viewNumber with
  | none => exact .refl hsettled
  | some vcInstance =>
      have hvc := hsettled.vcInstances _ (OrderedMap.mem_of_lookup hlookup)
      dsimp only
      cases hmsg : vcInstance.viewChangeMsg? with
      | none => exact .refl hsettled
      | some viewChangeMsg =>
          have hprepare := hvc.viewChangeMsg viewChangeMsg hmsg
          dsimp only
          split
          · refine PbftState.Quiet.of_eq_left (PbftState.Settled.sendMessage ?_ hprepare) rfl rfl
            exact ⟨hsettled.instances, hsettled.insertVc ⟨hmsg ▸ hvc.viewChangeMsg, hvc.newview⟩,
              hsettled.lastExeSeq_pos⟩
          · exact .refl hsettled

theorem onTimerNewView_quiet (currentTime : ℤ) (hsettled : st.Settled) :
    st.Quiet (onTimerNewView crypto key currentTime st) := by
  unfold onTimerNewView
  split
  · exact .refl hsettled
  · rename_i viewNumber vcInstance hlast
    have hvc := hsettled.vcInstances _ (List.mem_of_mem_filter (List.mem_of_getLast? hlast))
    dsimp only
    refine PbftState.Quiet.of_eq_left (PbftState.Settled.sendMessage ?_ hvc.newview) rfl rfl
    exact ⟨hsettled.instances, hsettled.insertVc ⟨hvc.viewChangeMsg, hvc.newview⟩,
      hsettled.lastExeSeq_pos⟩

theorem onTimer_quiet (currentTime : ℤ) (hsettled : st.Settled) :
    st.Quiet (onTimer crypto key currentTime st) := by
  simp only [onTimer]
  have hinstances : st.Quiet _ :=
    foldl_quiet (@onTimerInstance_quiet crypto key currentTime)
      (st.instances.map Prod.fst) st hsettled
  have hcommit : st.Quiet _ :=
    hinstances.trans (@onTimerCommit_quiet crypto key _ currentTime hinstances.settled)
  set st₁ := onTimerCommit crypto key currentTime _
  have hviews : st.Quiet _ :=
    hcommit.trans (foldl_quiet (@onTimerViewChange_quiet crypto key currentTime)
      (st₁.vcInstances.map Prod.fst) st₁ hcommit.settled)
  exact hviews.trans (onTimerNewView_quiet currentTime hviews.settled)

/-! ## Validators -/

theorem enterTarget_quiet (newViewNumber newSeq : ℤ) (hsettled : st.Settled) :
    st.Quiet (enterTarget newViewNumber newSeq st) := by
  have hfirst : st.Quiet (if 0 < newSeq then { st with lastExeSeq := newSeq } else st) := by
    split
    · rename_i hpos
      exact .of_eq ⟨hsettled.instances, hsettled.vcInstances, hpos⟩ rfl rfl
    · exact .refl hsettled
  unfold enterTarget
  extract_lets st₁ st₂ st₃
  split
  · have hclear : st.Quiet st₂ := hfirst.trans (hfirst.settled.keepInstances _)
    refine hclear.trans (PbftState.Quiet.of_eq_left (PbftState.Settled.output ?_ (by simp)) rfl rfl)
    exact ⟨hclear.settled.instances, fun entry hentry =>
      hclear.settled.vcInstances entry (List.mem_of_mem_filter hentry),
      hclear.settled.lastExeSeq_pos⟩
  · exact hfirst

theorem updateValidators_quiet (validators : List Bytes) (proof : Bytes) (hsettled : st.Settled) :
    st.Quiet (updateValidators crypto key validators proof st).1 := by
  simp only [updateValidators]
  split
  · exact .refl hsettled
  · split
    · have hset : st.Quiet (setValidators crypto key validators st) :=
        .of_eq ⟨hsettled.instances, hsettled.vcInstances, hsettled.lastExeSeq_pos⟩ rfl rfl
      have hkeep : st.Quiet (clearNotCommitedInstance (setValidators crypto key validators st)) :=
        hset.trans (hset.settled.keepInstances _)
      have hreset := hkeep.trans (hkeep.settled.output (o := .resetCloseTimer) (by simp))
      exact hreset.trans (enterTarget_quiet _ _ hreset.settled)
    · exact enterTarget_quiet _ _ hsettled

/-! ## Arriving messages -/

/-- A message other than a PRE-PREPARE can wait in its buffer. -/
theorem PbftInstance.Settled.pushBack (hsettled : pinstance.Settled)
    (htype : env.pbft.type ≠ .preprepare) : (pinstance.pushBack env).Settled := by
  unfold PbftInstance.pushBack
  split <;> rename_i hcase
  · exact absurd hcase htype
  · refine { hsettled with prepareBuf_type := ?_ }
    simpa [or_imp, forall_and, hcase] using hsettled.prepareBuf_type
  · refine { hsettled with commitBuf_type := ?_ }
    simpa [or_imp, forall_and, hcase] using hsettled.commitBuf_type
  · exact hsettled

/-- What `CreateInstanceIfNotExist` does: nothing that matters here, or it puts the message
into the buffer of its instance. -/
theorem createInstanceIfNotExist_cases (now : ℤ) (hsettled : st.Settled)
    (hcheck : checkMessageItem crypto st.validators env = true)
    (hindex : env.pbft.index? = some index) :
    (createInstanceIfNotExist env index now st).2 = false ∧
        st.Quiet (createInstanceIfNotExist env index now st).1 ∨
      ∃ st₀ pinstance, createInstanceIfNotExist env index now st =
          (st₀.setInstance index (pinstance.pushBack env), true) ∧
        st.Quiet st₀ ∧ st₀.instances.lookup index = some pinstance ∧
        st₀.viewNumber = st.viewNumber ∧ st₀.validators = st.validators ∧
        st₀.replicaId = st.replicaId ∧ st₀.isValidator = st.isValidator ∧
        st₀.outputs = st.outputs ∧ st.Receives crypto env now pinstance := by
  simp only [createInstanceIfNotExist]
  by_cases haway : ¬ st.inWaterMark index.sequence = true ∨ st.viewNumber ≠ index.viewNumber
  · rw [if_pos haway]
    split_ifs
    · exact Or.inl ⟨rfl, traceOutPbftCommit_quiet now hsettled⟩
    · exact Or.inl ⟨rfl, .refl hsettled⟩
  rw [if_neg haway]
  obtain ⟨hwater, hview⟩ := not_or.mp haway
  by_cases hactive : st.viewActive = true
  swap
  · rw [if_pos hactive]
    exact Or.inl ⟨rfl, .refl hsettled⟩
  rw [if_neg (not_not.mpr hactive)]
  by_cases hdone : index.sequence ≤ st.lastExeSeq
  · rw [if_pos hdone]
    exact Or.inl ⟨rfl, .refl hsettled⟩
  rw [if_neg hdone]
  have hle : index.sequence ≤ st.lastExeSeq + ckpInterval := by
    simp only [PbftState.inWaterMark, Bool.and_eq_true, decide_eq_true_eq, not_not] at hwater
    exact hwater.2
  have hreceives := fun pinstance hinstance => (⟨hcheck, hactive, index, hindex, not_not.mp hview,
    not_le.mp hdone, hle, hinstance⟩ : st.Receives crypto env now pinstance)
  right
  by_cases hsome : (st.instances.lookup index).isSome = true
  · obtain ⟨pinstance, hlookup⟩ := Option.isSome_iff_exists.mp hsome
    rw [if_pos hsome, getInstance_of_lookup hlookup]
    exact ⟨st, pinstance, rfl, .refl hsettled, hlookup, rfl, rfl, rfl, rfl, rfl,
      hreceives pinstance (Or.inl hlookup)⟩
  · rw [if_neg hsome]
    have hnew := lookup_keepInstances_new st index now
    rw [getInstance_of_lookup hnew]
    have hset : st.Quiet (st.setInstance index (.new now)) :=
      hsettled.setInstance (.new now) (Or.inl rfl)
    exact ⟨_, _, rfl, hset.trans (hset.settled.keepInstances _), hnew, rfl, rfl, rfl, rfl, rfl,
      hreceives _ (Or.inr ⟨Option.not_isSome_iff_eq_none.mp hsome, rfl⟩)⟩

/-- A PREPARE or a COMMIT that has been buffered is handled without a PRE-PREPARE. -/
theorem go_quiet (checkValue : CheckValueResult) (now : ℤ) (hsettled : st.Settled)
    (hlookup : st.instances.lookup index = some pinstance)
    (htype : env.pbft.type = .prepare ∨ env.pbft.type = .commit) :
    st.Quiet (go crypto key env index checkValue now st).1 := by
  simp only [go, getInstance_of_lookup hlookup]
  split_ifs with hlate
  · have hphase : pinstance.phase ≠ .none := by
      intro hnone
      simp [hnone, PbftInstancePhase.toNat] at hlate
    unfold onPhaseMessage
    rcases htype with htype | htype
    · rw [htype]
      exact onPrepare_quiet now hsettled hlookup hphase
    · rw [htype]
      exact onCommit_quiet now hsettled hlookup
  · exact goLoop_quiet checkValue now _ _ _ hsettled

end Quiet

end CegChain
