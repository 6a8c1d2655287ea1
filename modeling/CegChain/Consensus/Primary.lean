import CegChain.Consensus.Quiet

/-!
# Who proposes

Which PRE-PREPAREs a backup acts on.  `OnPrePrepare` does not ask who has signed.
`Event.Misdirected` describes the messages that a backup acts on although they are not from
the primary of their view, and `primaryProposes_iff` says that there is no other way for a
backup to go wrong.
-/

namespace CegChain

/-- The instance that a PRE-PREPARE is for. -/
def PbftPrePrepare.index (prePrepare : PbftPrePrepare) : PbftInstanceIndex :=
  ⟨prePrepare.viewNumber, prePrepare.sequence⟩

section Primary

variable {crypto : Crypto} {key : PrivateKey} {st st' mid : PbftState}
  {index : PbftInstanceIndex} {pinstance : PbftInstance} {env : PbftEnv}

/-! ## Acting on a PRE-PREPARE -/

/-- `OnPrePrepare` takes the value of the message, or answers the message with a PREPARE. -/
def PbftInstance.ActsOn (crypto : Crypto) (env : PbftEnv) (checkValue : CheckValueResult)
    (isValidator : Bool) (pinstance : PbftInstance) : Prop :=
  env.pbft.prePrepare.valueDigest = crypto.hash env.pbft.prePrepare.value ∧
    checkValue ≠ .invalid ∧
    (pinstance.phase = .none ∨ pinstance.prePrepare.value = env.pbft.prePrepare.value ∧
      checkValue = .valid ∧ isValidator = true)

/-- The PREPARE that answers a PRE-PREPARE. -/
def PbftPrepare.Answers (prepare : PbftPrepare) (prePrepare : PbftPrePrepare) : Prop :=
  prepare.viewNumber = prePrepare.viewNumber ∧ prepare.sequence = prePrepare.sequence ∧
    prepare.valueDigest = prePrepare.valueDigest

/-- From `st` to `st'` nothing is taken but `prePrepare` for the instance `index`, and no
PREPAREs are sent but answers to it. -/
structure PbftState.Acted (index : PbftInstanceIndex) (prePrepare : PbftPrePrepare)
    (st st' : PbftState) : Prop where
  settled : st'.Settled
  nodup : (st.instances.map Prod.fst).Nodup → (st'.instances.map Prod.fst).Nodup
  taken : ∀ entry ∈ st'.instances, entry.2.prePrepare = {} ∨
    (∃ pinstance, (entry.1, pinstance) ∈ st.instances ∧
      pinstance.prePrepare = entry.2.prePrepare) ∨
    entry.1 = index ∧ entry.2.prePrepare = prePrepare
  outputs : ∃ new, st'.outputs = st.outputs ++ new ∧
    ∀ env, .send env ∈ new → env.pbft.type = .prepare → env.pbft.prepare.Answers prePrepare

namespace PbftState.Acted

variable {prePrepare : PbftPrePrepare}

theorem of_quiet (hquiet : st.Quiet st') : PbftState.Acted index prePrepare st st' where
  settled := hquiet.settled
  nodup := hquiet.nodup
  taken entry hentry := (hquiet.kept entry hentry).imp_right Or.inl
  outputs := by
    obtain ⟨new, houtputs, hnew⟩ := hquiet.outputs
    exact ⟨new, houtputs, fun env henv htype => absurd htype (hnew env henv)⟩

theorem trans (hfirst : PbftState.Acted index prePrepare st mid)
    (hsecond : PbftState.Acted index prePrepare mid st') :
    PbftState.Acted index prePrepare st st' where
  settled := hsecond.settled
  nodup hnodup := hsecond.nodup (hfirst.nodup hnodup)
  taken entry hentry := by
    rcases hsecond.taken entry hentry with hnone | ⟨pinstance, hmem, heq⟩ | htaken
    · exact Or.inl hnone
    · rw [← heq]
      exact hfirst.taken _ hmem
    · exact Or.inr (Or.inr htaken)
  outputs := by
    obtain ⟨new, houtputs, hnew⟩ := hfirst.outputs
    obtain ⟨new', houtputs', hnew'⟩ := hsecond.outputs
    refine ⟨new ++ new', by rw [houtputs', houtputs, List.append_assoc], fun env henv => ?_⟩
    rcases List.mem_append.mp henv with h | h
    · exact hnew env h
    · exact hnew' env h

/-- A PREPARE is sent. -/
theorem sendPrepare (hsettled : st.Settled) (st₀ : PbftState) (roundNumber : ℤ) :
    PbftState.Acted index prePrepare st
      (st.sendMessage (newPrepare crypto key prePrepare roundNumber st₀)) := by
  unfold PbftState.sendMessage
  split
  · refine ⟨⟨hsettled.instances, hsettled.vcInstances, hsettled.lastExeSeq_pos⟩, id,
      fun entry hentry => Or.inr (Or.inl ⟨entry.2, hentry, rfl⟩), _, rfl, fun env henv _ => ?_⟩
    obtain rfl := Output.send.inj (List.mem_singleton.mp henv)
    exact ⟨rfl, rfl, rfl⟩
  · exact .of_quiet (.refl hsettled)

/-- The value is taken. -/
theorem accept (hsettled : st.Settled) (checkValueRet : CheckValueResult)
    (hmem : (index, pinstance) ∈ st.instances) :
    PbftState.Acted index prePrepare st
      (st.setInstance index (pinstance.accepted prePrepare checkValueRet)) where
  settled := hsettled.set ((hsettled.instances _ hmem).of_phase rfl rfl rfl
    (by simp [PbftInstance.accepted]))
  nodup := OrderedMap.nodup_insert index _
  taken entry hentry := by
    rcases mem_setInstance.mp hentry with rfl | ⟨hold, -⟩
    · exact Or.inr (Or.inr ⟨rfl, rfl⟩)
    · exact Or.inr (Or.inl ⟨entry.2, hold, rfl⟩)
  outputs := ⟨[], by simp [PbftState.setInstance], by simp⟩

end PbftState.Acted

/-- What `OnPrePrepare` does at a backup. -/
theorem onPrePrepare_acted (checkValue : CheckValueResult) (hsettled : st.Settled)
    (hlookup : st.instances.lookup index = some pinstance) :
    PbftState.Acted index env.pbft.prePrepare st
        (onPrePrepare crypto key env.pbft index checkValue st).1 ∧
      (pinstance.ActsOn crypto env checkValue st.isValidator ∨
        st.Quiet (onPrePrepare crypto key env.pbft index checkValue st).1) := by
  have hmem := OrderedMap.mem_of_lookup hlookup
  have hrefl : PbftState.Acted index env.pbft.prePrepare st st := .of_quiet (.refl hsettled)
  simp only [onPrePrepare, getInstance_of_lookup hlookup]
  split_ifs with hprimary hdigest hinvalid hphase hvalue hvalid hvalid'
  · exact ⟨hrefl, Or.inr (.refl hsettled)⟩
  · exact ⟨hrefl, Or.inr (.refl hsettled)⟩
  · exact ⟨hrefl, Or.inr (.refl hsettled)⟩
  · exact ⟨hrefl, Or.inr (.refl hsettled)⟩
  · exact ⟨hrefl, Or.inr (.refl hsettled)⟩
  · refine ⟨.sendPrepare hsettled _ _, ?_⟩
    by_cases hvalidator : st.isValidator = true
    · exact Or.inl ⟨not_not.mp hdigest, hinvalid,
        Or.inr ⟨not_not.mp hvalue, not_not.mp hvalid, hvalidator⟩⟩
    · rw [PbftState.sendMessage, if_neg hvalidator]
      exact Or.inr (.refl hsettled)
  · exact ⟨.accept hsettled checkValue hmem,
      Or.inl ⟨not_not.mp hdigest, hinvalid, Or.inl (not_not.mp hphase)⟩⟩
  · have haccept : PbftState.Acted index env.pbft.prePrepare st _ :=
      .accept hsettled checkValue hmem
    exact ⟨haccept.trans (.sendPrepare haccept.settled _ _),
      Or.inl ⟨not_not.mp hdigest, hinvalid, Or.inl (not_not.mp hphase)⟩⟩

/-- The instance in which an arriving PRE-PREPARE is handled. -/
def PbftInstance.handling (env : PbftEnv) (pinstance : PbftInstance) : PbftInstance :=
  if pinstance.phase = .none then
    { pinstance.pushBack env with phaseItem := pinstance.phaseItem + 1 }
  else pinstance.pushBack env

theorem PbftInstance.Settled.handling (hsettled : pinstance.Settled)
    (htype : env.pbft.type = .preprepare) : (pinstance.handling env).Settled := by
  unfold PbftInstance.handling PbftInstance.pushBack
  rw [htype]
  split
  · rename_i hphase
    exact ⟨hsettled.prepareBuf_type, hsettled.commitBuf_type, hsettled.prePrepareMsg, fun _ =>
      ⟨(hsettled.waiting hphase).1, by simp [(hsettled.waiting hphase).2]⟩⟩
  · rename_i hphase
    exact hsettled.of_phase rfl rfl rfl hphase

theorem handling_phase : (pinstance.handling env).phase = pinstance.phase := by
  unfold PbftInstance.handling
  split <;> exact pushBack_phase

theorem handling_prePrepare : (pinstance.handling env).prePrepare = pinstance.prePrepare := by
  unfold PbftInstance.handling
  split <;> exact pushBack_prePrepare

/-- The first round of the loop of `Go` handles the PRE-PREPARE that has just been put into
the buffer. -/
theorem goLoop_prePrepare (checkValue : CheckValueResult) (now : ℤ) (fuel : ℕ) (doret : Bool)
    (hold : pinstance.Settled) (hphase : pinstance.phase = .none)
    (htype : env.pbft.type = .preprepare) :
    goLoop crypto key index checkValue now (fuel + 1) doret
        (st.setInstance index (pinstance.pushBack env)) =
      let handled := onPrePrepare crypto key env.pbft index checkValue
        (st.setInstance index (pinstance.handling env))
      goLoop crypto key index checkValue now fuel handled.2 handled.1 := by
  have hitem : (pinstance.pushBack env).phaseBuf[(pinstance.pushBack env).phaseItem]? =
      some env := by
    simp [PbftInstance.pushBack, htype, PbftInstance.phaseBuf, hphase, (hold.waiting hphase).2]
  rw [goLoop]
  simp only [getInstance_of_lookup lookup_setInstance_self, hitem, setInstance_setInstance]
  have hhandling : { pinstance.pushBack env with
      phaseItem := (pinstance.pushBack env).phaseItem + 1 } = pinstance.handling env := by
    rw [PbftInstance.handling, if_pos hphase]
    simp [PbftInstance.pushBack, htype]
  rw [hhandling]
  simp only [onPhaseMessage, htype]

/-! ## Events -/

/-- The states of a replica during an event: after every round of the loop of `Go`, and at the
end. -/
inductive During (crypto : Crypto) (key : PrivateKey) (st : PbftState) : Event → PbftState → Prop
  | round {env : PbftEnv} {checkValue : CheckValueResult} {now : ℤ} {index : PbftInstanceIndex}
      {created : PbftState} (rounds : ℕ)
      (hcheck : checkMessageItem crypto st.validators env = true)
      (hindex : env.pbft.index? = some index)
      (hcreated : createInstanceIfNotExist env index now st = (created, true))
      (hturn : ¬ env.pbft.type.phaseNat < (created.getInstance index).phase.toNat) :
      During crypto key st (.recv env checkValue now)
        (goLoop crypto key index (if env.pbft.type = .preprepare then checkValue else .valid) now
          (rounds + 1) false created).1
  | done (event : Event) : During crypto key st event (step crypto key st event)

/-- `env` arrives with the event, and it is a PRE-PREPARE that `OnPrePrepare` acts on. -/
def Event.Acts (crypto : Crypto) (event : Event) (st : PbftState) (env : PbftEnv) : Prop :=
  ∃ checkValue now pinstance, event = .recv env checkValue now ∧
    env.pbft.type = .preprepare ∧ st.Receives crypto env now pinstance ∧
    pinstance.ActsOn crypto env checkValue st.isValidator

/-- The PRE-PREPARE that is acted on is not from the primary of its view. -/
def Event.Misdirected (crypto : Crypto) (event : Event) (st : PbftState) : Prop :=
  ∃ env, event.Acts crypto st env ∧ env.pbft.prePrepare.replicaId ≠
    primaryOf st.validators.length env.pbft.prePrepare.viewNumber

/-- The event brings the PRE-PREPARE `prePrepare`, signed by the primary of its view. -/
def Event.FromPrimary (crypto : Crypto) (signed : Bytes → Pbft → Prop) (event : Event)
    (st : PbftState) (prePrepare : PbftPrePrepare) : Prop :=
  ∃ env checkValue now, event = .recv env checkValue now ∧ env.pbft.type = .preprepare ∧
    env.pbft.prePrepare = prePrepare ∧
    st.validators.lookup (env.address crypto) =
      some (primaryOf st.validators.length prePrepare.viewNumber) ∧
    signed (env.address crypto) env.pbft

/-- From `st` to `mid` the instance `index` becomes PREPREPARED: `prePrepare` is written into
it.  An instance without a PRE-PREPARE has the default one. -/
def PbftState.Takes (st mid : PbftState) (index : PbftInstanceIndex)
    (prePrepare : PbftPrePrepare) : Prop :=
  prePrepare ≠ {} ∧
    (∃ pinstance, (index, pinstance) ∈ mid.instances ∧ pinstance.prePrepare = prePrepare) ∧
    ∀ pinstance, (index, pinstance) ∈ st.instances → pinstance.prePrepare ≠ prePrepare

/-- From `st` to `mid` the PREPARE is sent. -/
def PbftState.SendsPrepare (st mid : PbftState) (prepare : PbftPrepare) : Prop :=
  ∃ new env, mid.outputs = st.outputs ++ new ∧ .send env ∈ new ∧ env.pbft.type = .prepare ∧
    env.pbft.prepare = prepare

/-- In the event, the replica acts on PRE-PREPAREs of the primary only. -/
structure PrimaryProposes (crypto : Crypto) (key : PrivateKey) (signed : Bytes → Pbft → Prop)
    (st : PbftState) (event : Event) : Prop where
  takes : ∀ mid index prePrepare, During crypto key st event mid →
    st.Takes mid index prePrepare →
    index = prePrepare.index ∧
      event.FromPrimary crypto signed st prePrepare
  prepares : ∀ mid prepare, During crypto key st event mid → st.SendsPrepare mid prepare →
    ∃ prePrepare, prepare.Answers prePrepare ∧ event.FromPrimary crypto signed st prePrepare

theorem Pbft.index_prePrepare {pbft : Pbft} (htype : pbft.type = .preprepare) :
    pbft.index? = some pbft.prePrepare.index := by
  simp only [Pbft.index?, htype, PbftPrePrepare.index]

/-- `OnRecv` of a message that finds an instance. -/
theorem step_recv_found {checkValue : CheckValueResult} {now : ℤ} {created : PbftState}
    (hcheck : checkMessageItem crypto st.validators env = true)
    (hindex : env.pbft.index? = some index)
    (hcreated : createInstanceIfNotExist env index now st = (created, true)) :
    step crypto key st (.recv env checkValue now) =
      (go crypto key env index (if env.pbft.type = .preprepare then checkValue else .valid) now
        created).1 := by
  simp [step, onRecv, hcheck, hindex, hcreated]

/-- When a PRE-PREPARE has arrived, every state during the event comes after `OnPrePrepare`. -/
theorem During.after_prePrepare {checkValue : CheckValueResult} {now : ℤ} {st₀ : PbftState}
    (hduring : During crypto key st (.recv env checkValue now) mid) (hold : pinstance.Settled)
    (hcheck : checkMessageItem crypto st.validators env = true)
    (htype : env.pbft.type = .preprepare) (hindex : env.pbft.index? = some index)
    (hcreated : createInstanceIfNotExist env index now st =
      (st₀.setInstance index (pinstance.pushBack env), true)) :
    ∃ rounds doret, mid = (goLoop crypto key index checkValue now rounds doret
      (onPrePrepare crypto key env.pbft index checkValue
        (st₀.setInstance index (pinstance.handling env))).1).1 := by
  have hret : (if env.pbft.type = .preprepare then checkValue else .valid) = checkValue :=
    if_pos htype
  cases hduring with
  | @round _ _ _ index' created rounds _ hindex' hcreated' hturn =>
      obtain rfl : index = index' := Option.some.inj (hindex.symm.trans hindex')
      obtain ⟨rfl, -⟩ := Prod.mk.inj (hcreated.symm.trans hcreated')
      have hphase : pinstance.phase = .none := by
        rw [getInstance_of_lookup lookup_setInstance_self, pushBack_phase, htype] at hturn
        revert hturn
        cases pinstance.phase <;> simp [PbftMessageType.phaseNat, PbftInstancePhase.toNat]
      rw [hret, goLoop_prePrepare checkValue now rounds false hold hphase htype]
      exact ⟨rounds, _, rfl⟩
  | done =>
      rw [step_recv_found hcheck hindex hcreated, hret]
      simp only [go, getInstance_of_lookup lookup_setInstance_self, pushBack_phase, htype]
      split_ifs with hlate
      · have hphase : pinstance.phase ≠ .none := by
          intro hnone
          simp [hnone, PbftInstancePhase.toNat] at hlate
        refine ⟨0, false, ?_⟩
        rw [PbftInstance.handling, if_neg hphase]
        simp only [goLoop, onPhaseMessage, htype]
      · have hphase : pinstance.phase = .none := by
          revert hlate
          cases pinstance.phase <;> simp [PbftMessageType.phaseNat, PbftInstancePhase.toNat]
        -- the message itself is in the buffer
        obtain ⟨rounds, hrounds⟩ : ∃ rounds, (pinstance.pushBack env).prePrepareBuf.length +
            (pinstance.pushBack env).prepareBuf.length +
            (pinstance.pushBack env).commitBuf.length = rounds + 1 := by
          refine Nat.exists_eq_add_of_le' ?_
          simp only [PbftInstance.pushBack, htype, List.length_append, List.length_singleton]
          omega
        rw [hrounds, goLoop_prePrepare checkValue now rounds false hold hphase htype]
        exact ⟨rounds, _, rfl⟩

theorem handling_actsOn {checkValue : CheckValueResult} {isValidator : Bool} :
    (pinstance.handling env).ActsOn crypto env checkValue isValidator ↔
      pinstance.ActsOn crypto env checkValue isValidator := by
  rw [PbftInstance.ActsOn, PbftInstance.ActsOn, handling_phase, handling_prePrepare]

/-- A message of an instance arrives. -/
theorem During.recv_cases {checkValue : CheckValueResult} {now : ℤ} (hsettled : st.Settled)
    (hcheck : checkMessageItem crypto st.validators env = true)
    (hindex : env.pbft.index? = some index)
    (hduring : During crypto key st (.recv env checkValue now) mid) :
    st.Quiet mid ∨ (Event.recv env checkValue now).Acts crypto st env ∧
      PbftState.Acted env.pbft.prePrepare.index
        env.pbft.prePrepare st mid := by
  rcases createInstanceIfNotExist_cases now hsettled hcheck hindex with
    ⟨hfound, hquiet⟩ | ⟨st₀, pinstance, hcreated, hquiet, hlookup, -, -, -, hvalidator, -,
      hreceives⟩
  · left
    cases hduring with
    | round rounds _ hindex' hcreated' =>
        obtain rfl := Option.some.inj (hindex.symm.trans hindex')
        simp [hcreated'] at hfound
    | done => simpa [step, onRecv, hcheck, hindex, hfound] using hquiet
  · have hmem := OrderedMap.mem_of_lookup hlookup
    have hold := hquiet.settled.instances _ hmem
    by_cases htype : env.pbft.type = .preprepare
    · obtain ⟨rounds, doret, rfl⟩ :=
        hduring.after_prePrepare hold hcheck htype hindex hcreated
      have hset : st.Quiet (st₀.setInstance index (pinstance.handling env)) :=
        hquiet.trans (hquiet.settled.setInstance (hold.handling htype)
          (Or.inr ⟨pinstance, hmem, handling_prePrepare.symm⟩))
      obtain ⟨hacted, hacts⟩ := @onPrePrepare_acted crypto key _ _ _ env
        checkValue hset.settled lookup_setInstance_self
      have hloop := @goLoop_quiet crypto key index checkValue now rounds doret _ hacted.settled
      rcases hacts with hacts | hnothing
      · refine Or.inr ⟨⟨checkValue, now, pinstance, rfl, htype, hreceives, ?_⟩, ?_⟩
        · rw [← hvalidator]
          exact handling_actsOn.mp hacts
        · obtain rfl := Option.some.inj (hindex.symm.trans (Pbft.index_prePrepare htype))
          exact ((PbftState.Acted.of_quiet hset).trans hacted).trans (.of_quiet hloop)
      · exact Or.inl ((hset.trans hnothing).trans hloop)
    · left
      have hset : st.Quiet (st₀.setInstance index (pinstance.pushBack env)) :=
        hquiet.trans (hquiet.settled.setInstance (hold.pushBack htype)
          (Or.inr ⟨pinstance, hmem, pushBack_prePrepare.symm⟩))
      have hkind : env.pbft.type = .prepare ∨ env.pbft.type = .commit := by
        unfold Pbft.index? at hindex
        cases hcase : env.pbft.type <;> simp_all
      cases hduring with
      | round rounds _ hindex' hcreated' =>
          obtain rfl := Option.some.inj (hindex.symm.trans hindex')
          obtain ⟨rfl, -⟩ := Prod.mk.inj (hcreated.symm.trans hcreated')
          exact hset.trans (goLoop_quiet _ _ _ _ _ hset.settled)
      | done =>
          rw [step_recv_found hcheck hindex hcreated]
          exact hset.trans (go_quiet _ _ hset.settled lookup_setInstance_self hkind)
/-- What happens in an event at a backup. -/
theorem During.cases {event : Event} (hsettled : st.Settled)
    (hbackup : ∀ value now, event = .request value now → st.isPrimary st.viewNumber = false)
    (hduring : During crypto key st event mid) :
    st.Quiet mid ∨ ∃ env, event.Acts crypto st env ∧
      PbftState.Acted env.pbft.prePrepare.index
        env.pbft.prePrepare st mid := by
  cases hduring with
  | round rounds hcheck hindex hcreated hturn =>
      exact (During.recv_cases hsettled hcheck hindex
        (.round rounds hcheck hindex hcreated hturn)).imp_right fun hacts => ⟨_, hacts⟩
  | done =>
      cases event with
      | recv env checkValue now =>
          by_cases hcheck : checkMessageItem crypto st.validators env = true
          · cases hindex : env.pbft.index? with
            | some index =>
                exact (During.recv_cases hsettled hcheck hindex (.done _)).imp_right
                  fun hacts => ⟨_, hacts⟩
            | none =>
                left
                simp only [step, onRecv, hcheck, not_true, if_false, hindex]
                split
                · rename_i htype
                  exact onViewChangeWithRawValue_quiet now hsettled (by simp [htype])
                · exact onNewView_quiet now hsettled
                · exact .refl hsettled
          · left
            rw [step, onRecv, if_pos hcheck]
            exact .refl hsettled
      | request value now =>
          left
          rw [step, request, if_pos (by simp [hbackup value now rfl])]
          exact .refl hsettled
      | timer currentTime => exact Or.inl (onTimer_quiet currentTime hsettled)
      | txTimeout => exact Or.inl (onTxTimeout_quiet hsettled)
      | newViewRepondTimer timer => exact Or.inl (onNewViewRepondTimer_quiet timer hsettled)
      | updateValidators validators proof =>
          exact Or.inl (updateValidators_quiet validators proof hsettled)

/-! ## Runs -/

/-- Every event leaves a replica settled for the next one. -/
theorem step_settled (event : Event) (hsettled : st.Settled)
    (hnodup : (st.instances.map Prod.fst).Nodup) :
    (step crypto key st event).Settled ∧
      ((step crypto key st event).instances.map Prod.fst).Nodup := by
  by_cases hrequest : ∃ value now, event = .request value now ∧ st.isPrimary st.viewNumber = true
  · obtain ⟨value, now, rfl, hprimary⟩ := hrequest
    simp only [step, request]
    rw [if_neg (not_not.mpr hprimary)]
    split
    · exact ⟨hsettled, hnodup⟩
    · have hkeep := hsettled.keepInstances fun index pinstance =>
        !(decide (st.lastExeSeq < index.sequence) &&
          pinstance.phase.toNat < PbftInstancePhase.commited.toNat)
      have hproposed : ∀ env : PbftEnv, env.pbft.type = .preprepare →
          (PbftInstance.proposed env now).Settled := by
        intro env htype
        constructor <;> simp [PbftInstance.proposed, PbftInstance.new, htype]
      have hset := @PbftState.Settled.set _ ⟨st.viewNumber, st.lastExeSeq + 1⟩ _ hkeep.settled
        (hproposed (newPrePrepare crypto key value (st.lastExeSeq + 1) st) rfl)
      refine ⟨(hset.sendMessage (by simp [newPrePrepare, signEnv, newPbft])).settled, ?_⟩
      rw [sendMessage_instances]
      exact OrderedMap.nodup_insert _ _ (hkeep.nodup hnodup)
  · have hbackup : ∀ value now, event = .request value now →
        st.isPrimary st.viewNumber = false := fun value now heq =>
      Bool.eq_false_iff.mpr fun hprimary => hrequest ⟨value, now, heq, hprimary⟩
    rcases During.cases hsettled hbackup (.done event) with hquiet | ⟨env, -, hacted⟩
    · exact ⟨hquiet.settled, hquiet.nodup hnodup⟩
    · exact ⟨hacted.settled, hacted.nodup hnodup⟩

theorem run_settled (validators : List Bytes) (events : List Event) :
    (run crypto key validators events).Settled ∧
      ((run crypto key validators events).instances.map Prod.fst).Nodup := by
  induction events using List.reverseRecOn with
  | nil =>
      refine ⟨⟨?_, ?_, ?_⟩, ?_⟩ <;> simp [run, initialState, setValidators]
  | append_singleton events event ih =>
      rw [run, List.foldl_concat]
      exact step_settled event ih.1 ih.2

/-- A message that an instance receives finds the instance. -/
theorem createInstanceIfNotExist_of_receives {now : ℤ} (hsettled : st.Settled)
    (hreceives : st.Receives crypto env now pinstance) (hindex : env.pbft.index? = some index) :
    ∃ st₀, createInstanceIfNotExist env index now st =
        (st₀.setInstance index (pinstance.pushBack env), true) ∧
      st.Quiet st₀ ∧ st₀.instances.lookup index = some pinstance ∧
      st₀.viewNumber = st.viewNumber ∧ st₀.validators = st.validators ∧
      st₀.replicaId = st.replicaId ∧ st₀.isValidator = st.isValidator ∧
      st₀.outputs = st.outputs := by
  obtain ⟨hcheck, hactive, index', hindex', hview, hlast, hwater, hinstance⟩ := hreceives
  obtain rfl : index = index' := Option.some.inj (hindex.symm.trans hindex')
  rcases createInstanceIfNotExist_cases now hsettled hcheck hindex with
    ⟨hfound, -⟩ | ⟨st₀, other, hcreated, hquiet, hlookup, hviewNumber, hvalidators, hreplica,
      hvalidator, houtputs, -, -, index'', hindex'', -, -, -, hother⟩
  · have hin : st.inWaterMark index.sequence = true := by
      simp only [PbftState.inWaterMark, Bool.and_eq_true, decide_eq_true_eq]
      omega
    simp [createInstanceIfNotExist, hin, hview, hactive, not_le.mpr hlast] at hfound
  · obtain rfl : index = index'' := Option.some.inj (hindex.symm.trans hindex'')
    obtain rfl : pinstance = other := by
      rcases hinstance with hold | ⟨hnone, rfl⟩ <;> rcases hother with hold' | ⟨hnone', rfl⟩
      · exact Option.some.inj (hold.symm.trans hold')
      · rw [hold] at hnone'
        exact absurd hnone' (by simp)
      · rw [hnone] at hold'
        exact absurd hold' (by simp)
      · rfl
    exact ⟨st₀, hcreated, hquiet, hlookup, hviewNumber, hvalidators, hreplica, hvalidator,
      houtputs⟩

/-- A backup takes the value of a PRE-PREPARE. -/
theorem onPrePrepare_takes {checkValue : CheckValueResult}
    (hbackup : st.isPrimary st.viewNumber = false)
    (hlookup : st.instances.lookup index = some pinstance)
    (hacts : pinstance.ActsOn crypto env checkValue st.isValidator)
    (hphase : pinstance.phase = .none) :
    ∃ taken, (index, taken) ∈ (onPrePrepare crypto key env.pbft index checkValue st).1.instances ∧
      taken.prePrepare = env.pbft.prePrepare := by
  obtain ⟨hdigest, hinvalid, -⟩ := hacts
  simp only [onPrePrepare, getInstance_of_lookup hlookup, hbackup, Bool.false_and,
    Bool.false_eq_true, if_false, hdigest, ne_eq, not_true, hinvalid, hphase]
  split
  · exact ⟨_, mem_setInstance_self, rfl⟩
  · rw [sendMessage_instances]
    exact ⟨_, mem_setInstance_self, rfl⟩

/-- A backup answers a PRE-PREPARE for the value that it has. -/
theorem onPrePrepare_answers {checkValue : CheckValueResult}
    (hbackup : st.isPrimary st.viewNumber = false)
    (hlookup : st.instances.lookup index = some pinstance)
    (hacts : pinstance.ActsOn crypto env checkValue st.isValidator)
    (hphase : pinstance.phase ≠ .none) :
    ∃ answer, (onPrePrepare crypto key env.pbft index checkValue st).1.outputs =
      st.outputs ++ [.send answer] ∧ answer.pbft.type = .prepare := by
  obtain ⟨hdigest, hinvalid, hnone | ⟨hvalue, hvalid, hvalidator⟩⟩ := hacts
  · exact absurd hnone hphase
  · simp only [onPrePrepare, getInstance_of_lookup hlookup, hbackup, Bool.false_and,
      Bool.false_eq_true, if_false, hdigest, ne_eq, not_true, hphase, not_false_eq_true, if_true,
      hvalue, hvalid, reduceCtorEq, PbftState.sendMessage, hvalidator]
    exact ⟨_, rfl, rfl⟩

/-- What a backup takes or answers can be seen. -/
theorem exists_during_of_acts {event : Event} (hsettled : st.Settled)
    (hnodup : (st.instances.map Prod.fst).Nodup)
    (hbackup : st.isPrimary st.viewNumber = false) (hacts : event.Acts crypto st env) :
    ∃ mid, During crypto key st event mid ∧
      ((∃ index, st.Takes mid index env.pbft.prePrepare) ∨
        ∃ prepare, st.SendsPrepare mid prepare) := by
  obtain ⟨checkValue, now, pinstance, rfl, htype, hreceives, hacts⟩ := hacts
  have hindex := Pbft.index_prePrepare htype
  obtain ⟨st₀, hcreated, hquiet, hlookup, hviewNumber, hvalidators, hreplica, hvalidator,
    houtputs⟩ := createInstanceIfNotExist_of_receives hsettled hreceives hindex
  have hold := hquiet.settled.instances _ (OrderedMap.mem_of_lookup hlookup)
  obtain ⟨hcheck, -, index, hindex', -, hlast, -, hinstance⟩ := hreceives
  rw [← Option.some.inj (hindex.symm.trans hindex')] at hlast hinstance
  set st₂ := st₀.setInstance _ (pinstance.handling env) with hst₂
  have hbackup₂ : st₂.isPrimary st₂.viewNumber = false := by
    rw [← hbackup]
    simp only [st₂, PbftState.isPrimary, PbftState.setInstance, hviewNumber, hvalidators, hreplica]
  have hacts₂ : (pinstance.handling env).ActsOn crypto env checkValue st₂.isValidator := by
    rw [handling_actsOn]
    exact hvalidator ▸ hacts
  by_cases hphase : pinstance.phase = .none
  · -- the instance takes the value in the first round
    have hturn : ¬ env.pbft.type.phaseNat < ((st₀.setInstance env.pbft.prePrepare.index
        (pinstance.pushBack env)).getInstance env.pbft.prePrepare.index).phase.toNat := by
      rw [getInstance_of_lookup lookup_setInstance_self, pushBack_phase, hphase]
      exact Nat.not_lt_zero _
    refine ⟨_, .round 0 hcheck hindex hcreated hturn,
      Or.inl ⟨env.pbft.prePrepare.index, ?_, ?_, ?_⟩⟩
    · intro hdefault
      have hzero : env.pbft.prePrepare.sequence = 0 := by rw [hdefault]
      have hpos := hsettled.lastExeSeq_pos
      simp only [PbftPrePrepare.index, hzero] at hlast
      omega
    · rw [if_pos htype, goLoop_prePrepare checkValue now 0 false hold hphase htype]
      exact onPrePrepare_takes hbackup₂ lookup_setInstance_self hacts₂
        (handling_phase.trans hphase)
    · intro other hother heq
      have hfound := (OrderedMap.lookup_eq_some_iff hnodup).mpr hother
      rcases hinstance with hpinstance | ⟨hnone, -⟩
      · obtain rfl := Option.some.inj (hfound.symm.trans hpinstance)
        rw [(hold.waiting hphase).1] at heq
        have hzero : env.pbft.prePrepare.sequence = 0 := by rw [← heq]
        have hpos := hsettled.lastExeSeq_pos
        simp only [PbftPrePrepare.index, hzero] at hlast
        omega
      · rw [hfound] at hnone
        exact absurd hnone (by simp)
  · obtain ⟨rounds, doret, hmid⟩ := (@During.done crypto key st
      (.recv env checkValue now)).after_prePrepare hold hcheck htype hindex hcreated
    refine ⟨_, .done _, Or.inr ?_⟩
    rw [hmid]
    obtain ⟨answer, hanswer, hprepare⟩ := @onPrePrepare_answers _ key _ _ _ _ _
      hbackup₂ lookup_setInstance_self hacts₂ (handling_phase.symm ▸ hphase)
    have hset : st.Quiet st₂ := hquiet.trans (hquiet.settled.setInstance (hold.handling htype)
      (Or.inr ⟨pinstance, OrderedMap.mem_of_lookup hlookup, handling_prePrepare.symm⟩))
    obtain ⟨hacted, -⟩ :=
      @onPrePrepare_acted crypto key _ _ _ env checkValue hset.settled lookup_setInstance_self
    have hloop := @goLoop_quiet crypto key env.pbft.prePrepare.index checkValue now rounds doret _
      hacted.settled
    obtain ⟨new, hnew, -⟩ := hloop.outputs
    refine ⟨answer.pbft.prepare, .send answer :: new, answer, ?_, List.mem_cons_self, hprepare,
      rfl⟩
    rw [hnew, hanswer, List.append_assoc, List.singleton_append]
    exact congrArg (· ++ _) houtputs

/-- **When a backup acts on the PRE-PREPAREs of the primary only**: exactly in the events that
are not misdirected. -/
theorem primaryProposes_iff {signed : Bytes → Pbft → Prop} {validators : List Bytes}
    {events : List Event} {event : Event}
    (hbackup : (run crypto key validators events).isPrimary
      (run crypto key validators events).viewNumber = false)
    (hauthentic : ∀ env checkValue now, event = .recv env checkValue now →
      Authentic crypto signed env) :
    PrimaryProposes crypto key signed (run crypto key validators events) event ↔
      ¬ event.Misdirected crypto (run crypto key validators events) := by
  obtain ⟨hsettled, hnodup⟩ := @run_settled crypto key validators events
  set st := run crypto key validators events
  have hcases := fun mid hduring =>
    @During.cases crypto key st mid event hsettled (fun _ _ _ => hbackup) hduring
  constructor
  · rintro hprimary ⟨env, hacts, hother⟩
    have hcheck : checkMessageItem crypto st.validators env = true := by
      obtain ⟨_, _, _, -, -, hreceives, -⟩ := hacts
      exact hreceives.1
    have htype : env.pbft.type = .preprepare := by
      obtain ⟨_, _, _, -, htype, -, -⟩ := hacts
      exact htype
    have hlookup := (lookup_of_check hcheck (replicaId_prePrepare_of_check hcheck htype)).1
    -- the event has one message only, and that is not from the primary
    have hfrom : ∀ prePrepare, ¬ event.FromPrimary crypto signed st prePrepare := by
      rintro prePrepare ⟨env', checkValue, now, hrecv, -, rfl, hlookup', -⟩
      obtain ⟨_, _, _, hrecv', -⟩ := hacts
      obtain ⟨rfl, -⟩ := Event.recv.inj (hrecv.symm.trans hrecv')
      exact hother (Option.some.inj (hlookup.symm.trans hlookup'))
    obtain ⟨mid, hduring, ⟨index, htakes⟩ | ⟨prepare, hsends⟩⟩ :=
      @exists_during_of_acts _ key _ _ _ hsettled hnodup hbackup hacts
    · exact hfrom _ (hprimary.takes mid index _ hduring htakes).2
    · obtain ⟨prePrepare, -, hprePrepare⟩ := hprimary.prepares mid prepare hduring hsends
      exact hfrom _ hprePrepare
  · intro hdirected
    have hfrom : ∀ env, event.Acts crypto st env →
        event.FromPrimary crypto signed st env.pbft.prePrepare := by
      intro env hacts
      have hreplica : env.pbft.prePrepare.replicaId =
          primaryOf st.validators.length env.pbft.prePrepare.viewNumber :=
        not_not.mp fun hother => hdirected ⟨env, hacts, hother⟩
      obtain ⟨checkValue, now, pinstance, rfl, htype, hreceives, -⟩ := hacts
      obtain ⟨hlookup, hverify⟩ :=
        lookup_of_check hreceives.1 (replicaId_prePrepare_of_check hreceives.1 htype)
      exact ⟨env, checkValue, now, rfl, htype, rfl, hreplica ▸ hlookup,
        hauthentic env checkValue now rfl hverify⟩
    constructor
    · rintro mid index prePrepare hduring ⟨hne, ⟨pinstance, hmem, rfl⟩, hnew⟩
      rcases hcases mid hduring with hquiet | ⟨env, hacts, hacted⟩
      · rcases hquiet.kept _ hmem with hnone | ⟨old, hold, heq⟩
        · exact absurd hnone hne
        · exact absurd heq (hnew old hold)
      · rcases hacted.taken _ hmem with hnone | ⟨old, hold, heq⟩ | ⟨hindex, heq⟩
        · exact absurd hnone hne
        · exact absurd heq (hnew old hold)
        · simp only at hindex heq
          rw [heq]
          exact ⟨hindex, hfrom env hacts⟩
    · rintro mid prepare hduring ⟨new, answer, houtputs, hanswer, htype, rfl⟩
      rcases hcases mid hduring with hquiet | ⟨env, hacts, hacted⟩
      · obtain ⟨new', houtputs', hnone⟩ := hquiet.outputs
        obtain rfl := List.append_cancel_left (houtputs.symm.trans houtputs')
        exact absurd htype (hnone answer hanswer)
      · obtain ⟨new', houtputs', hanswers⟩ := hacted.outputs
        obtain rfl := List.append_cancel_left (houtputs.symm.trans houtputs')
        exact ⟨_, hanswers answer hanswer htype, hfrom env hacts⟩

end Primary

open Sample in
/-- Replica 2 takes the PRE-PREPARE of validator 0, the primary of view 0. -/
theorem primaryProposes_zero :
    PrimaryProposes Sample.crypto (Sample.key 2)
      (carriedBy Sample.crypto [proposal 0 0 [7]])
      (run Sample.crypto (Sample.key 2) Sample.validators [])
      (.recv (proposal 0 0 [7]) .valid 0) := by
  refine (primaryProposes_iff (by decide) ?_).mpr ?_
  · intro env checkValue now heq
    obtain ⟨rfl, -⟩ := Event.recv.inj heq
    exact authentic_carriedBy _ (List.mem_singleton.mpr rfl)
  · rintro ⟨env, ⟨checkValue, now, pinstance, heq, -⟩, hother⟩
    obtain ⟨rfl, -⟩ := Event.recv.inj heq
    exact hother (by decide)

open Sample in
/-- Replica 2 takes the PRE-PREPARE of validator 3 in view 0 and sends a PREPARE for it. -/
theorem primaryProposes_broken :
    ∃ (signed : Bytes → Pbft → Prop) (env : PbftEnv), Authentic Sample.crypto signed env ∧
      (replica 2).isPrimary (replica 2).viewNumber = false ∧
      ¬ PrimaryProposes Sample.crypto (Sample.key 2) signed
        (run Sample.crypto (Sample.key 2) Sample.validators []) (.recv env .valid 0) := by
  refine ⟨carriedBy Sample.crypto [proposal 3 0 [7]], proposal 3 0 [7],
    authentic_carriedBy _ (List.mem_singleton.mpr rfl), by decide, fun hprimary => ?_⟩
  have hsends : (replica 2).SendsPrepare
      (step Sample.crypto (Sample.key 2) (replica 2) (.recv (proposal 3 0 [7]) .valid 0))
      ⟨0, 2, 2, [1, 7]⟩ := ⟨_, _, rfl, List.mem_singleton.mpr rfl, rfl, rfl⟩
  obtain ⟨prePrepare, -, env, checkValue, now, heq, -, rfl, hlookup, -⟩ :=
    hprimary.prepares _ _ (.done _) hsends
  obtain ⟨rfl, -⟩ := Event.recv.inj heq
  exact absurd hlookup (by decide)

end CegChain
