import CegChain.Consensus.Moves

/-!
# The handlers are sequences of moves

One lemma for every handler of `consensus/bft.cpp`, from the innermost ones outwards, up to
`step_moves`: what happens to a replica in an event is a sequence of the moves of `Moves`.

`Event.Delivers` and `Event.DeliversStray` say, from the state before the event, what the
event brings in.
-/

namespace CegChain

open Relation

section Handlers

variable {crypto : Crypto} {key : PrivateKey} {trigger : Trigger} {st : PbftState}
  {index : PbftInstanceIndex} {pinstance : PbftInstance} {env : PbftEnv}

theorem getInstance_of_lookup (hlookup : st.instances.lookup index = some pinstance) :
    st.getInstance index = pinstance := by
  rw [PbftState.getInstance, hlookup, Option.getD_some]

@[simp] theorem lookup_setInstance_self :
    (st.setInstance index pinstance).instances.lookup index = some pinstance :=
  OrderedMap.lookup_insert_self ..

@[simp] theorem setInstance_setInstance (pinstance' : PbftInstance) :
    (st.setInstance index pinstance').setInstance index pinstance =
      st.setInstance index pinstance := by
  simp [PbftState.setInstance]

@[simp] theorem sendMessage_viewNumber : (st.sendMessage env).viewNumber = st.viewNumber := by
  unfold PbftState.sendMessage
  split <;> rfl

@[simp] theorem sendMessage_viewActive : (st.sendMessage env).viewActive = st.viewActive := by
  unfold PbftState.sendMessage
  split <;> rfl

/-- Sending and writing an instance can be exchanged. -/
theorem setInstance_sendMessage :
    (st.sendMessage env).setInstance index pinstance =
      (st.setInstance index pinstance).sendMessage env := by
  unfold PbftState.sendMessage PbftState.setInstance
  dsimp only
  split <;> rfl

theorem sendMessage_moves (hcommit : env.NoCommit) (hsends : st.Sends crypto trigger env) :
    Moves crypto key trigger st (st.sendMessage env) := by
  unfold PbftState.sendMessage
  split
  · exact .single (.sendOther st hcommit hsends)
  · exact .refl

/-- Sending something else than a VIEW-CHANGE promises nothing. -/
theorem promised_of_sendMessage {viewNumber : ℤ} (hasks : env.pbft.asksFor? = none)
    (hpromised : (st.sendMessage env).Promised viewNumber) : st.Promised viewNumber := by
  unfold PbftState.sendMessage at hpromised
  split at hpromised
  · obtain ⟨other, hother, hview⟩ := hpromised
    rcases List.mem_append.mp hother with hold | hnew
    · exact ⟨other, hold, hview⟩
    · obtain rfl := Output.send.inj (List.mem_singleton.mp hnew)
      rw [hasks] at hview
      exact absurd hview (by simp)
  · exact hpromised

/-- The prepared sets that are kept are not new. -/
theorem PbftState.Holds.of_subset {st' : PbftState} {preparedSet : PbftPreparedSet}
    (hholds : st'.Holds preparedSet)
    (hvc : ∀ entry ∈ st'.vcInstances, ∃ entry' ∈ st.vcInstances,
      entry'.2.prePreparedEnvSet = entry.2.prePreparedEnvSet)
    (htimers : st'.timers ⊆ st.timers) : st.Holds preparedSet := by
  rcases hholds with ⟨entry, hentry, rfl⟩ | ⟨timer, htimer, rfl⟩
  · exact Or.inl (hvc entry hentry)
  · exact Or.inr ⟨timer, htimers htimer, rfl⟩

/-- Neither the view becomes active nor is a prepared set put down. -/
theorem PbftState.Continues.of_subset {st' : PbftState}
    (hactive : st'.viewActive = true → st.viewActive = true)
    (hvc : ∀ entry ∈ st'.vcInstances, ∃ entry' ∈ st.vcInstances,
      entry'.2.prePreparedEnvSet = entry.2.prePreparedEnvSet)
    (htimers : st'.timers ⊆ st.timers) : st.Continues trigger st' :=
  ⟨fun h => Or.inl (hactive h), fun _ hholds => Or.inl (hholds.of_subset hvc htimers)⟩

theorem default_noCommit : (default : PbftEnv).NoCommit :=
  ⟨by decide, by decide⟩

theorem newPrePrepare_noCommit (value : Bytes) (sequence : ℤ) :
    (newPrePrepare crypto key value sequence st).NoCommit := by
  constructor <;> simp [newPrePrepare, signEnv, newPbft, Pbft.viewChangeWithRawvalue]
  decide

theorem newPrepare_noCommit (prePrepare : PbftPrePrepare) (roundNumber : ℤ) :
    (newPrepare crypto key prePrepare roundNumber st).NoCommit := by
  constructor <;> simp [newPrepare, signEnv, newPbft, Pbft.viewChangeWithRawvalue]
  decide

theorem newNewView_noCommit (vcInstance : PbftVcInstance) :
    (newNewView crypto key vcInstance st).NoCommit := by
  constructor <;> simp [newNewView, signEnv, newPbft, Pbft.viewChangeWithRawvalue]
  decide

theorem newViewChangeRawValue_noCommit (viewNumber : ℤ) (preparedSet : PbftPreparedSet) :
    (newViewChangeRawValue crypto key viewNumber preparedSet st).NoCommit := by
  constructor <;> simp [newViewChangeRawValue, signEnv, newPbft, Pbft.viewChangeWithRawvalue,
    PbftViewChangeWithRawValue.viewChangeEnv]

theorem PbftEnv.NoCommit.incPeerMessageRound (hcommit : env.NoCommit) (roundNumber : ℤ) :
    (incPeerMessageRound crypto key env roundNumber).NoCommit :=
  hcommit

theorem newNewView_sends (vcInstance : PbftVcInstance) (st₀ : PbftState) :
    st.Sends crypto trigger (newNewView crypto key vcInstance st₀) :=
  .other rfl rfl

theorem newViewChangeRawValue_sends (viewNumber : ℤ) (preparedSet : PbftPreparedSet)
    (st₀ : PbftState) (hactive : st.viewActive = false) :
    st.Sends crypto trigger (newViewChangeRawValue crypto key viewNumber preparedSet st₀) :=
  .viewChange rfl rfl (Or.inl hactive)

/-! ## Agreement on a value -/

theorem onPrePrepare_moves (checkValueRet : CheckValueResult)
    (hlookup : st.instances.lookup index = some pinstance) (hactive : st.viewActive = true)
    (hview : index.viewNumber = st.viewNumber) (hdue : pinstance.Due env)
    (htype : env.pbft.type = .preprepare) :
    Moves crypto key trigger st
      (onPrePrepare crypto key env.pbft index checkValueRet st).1 := by
  have hmem := OrderedMap.mem_of_lookup hlookup
  simp only [onPrePrepare, getInstance_of_lookup hlookup]
  split_ifs with hprimary hdigest hinvalid hphase hvalue hvalid hvalid'
  · exact .refl
  · exact .refl
  · exact .refl
  · exact .refl
  · exact .refl
  · refine sendMessage_moves (newPrepare_noCommit _ _)
      (.prepare hmem hphase hdue.mem_buffered htype hactive hview rfl ?_)
    rw [not_not.mp hvalue, ← not_not.mp hdigest]
    rfl
  · exact .single (.accept checkValueRet hmem (not_not.mp hphase) hdue (not_not.mp hdigest))
  · refine .head (.accept checkValueRet hmem (not_not.mp hphase) hdue (not_not.mp hdigest))
      (sendMessage_moves (newPrepare_noCommit _ _) (.prepare mem_setInstance_self
        (by simp [PbftInstance.accepted]) hdue.mem_buffered htype hactive hview rfl ?_))
    rw [PbftInstance.accepted, ← not_not.mp hdigest]
    rfl

/-- `OnPrepare` counts the PREPARE and then sends a COMMIT or not. -/
theorem onPrepare_eq (now : ℤ) (hlookup : st.instances.lookup index = some pinstance) :
    (onPrepare crypto key env.pbft index now st).1 =
      if pinstance.prePrepare.valueDigest ≠ env.pbft.prepare.valueDigest then st
      else
        let pinstance' := pinstance.withPrepare st.quorumSize env.pbft.prepare
        if st.quorumSize ≤ pinstance'.prepares.length ∧ pinstance.checkValueResult = .valid then
          (st.setInstance index { pinstance' with lastCommitSendTime := now }).sendMessage
            (newCommit crypto key env.pbft.prepare env.pbft.roundNumber st)
        else st.setInstance index pinstance' := by
  simp only [onPrepare, getInstance_of_lookup hlookup, PbftInstance.withPrepare]
  by_cases hdigest : pinstance.prePrepare.valueDigest ≠ env.pbft.prepare.valueDigest
  · rw [if_pos hdigest, if_pos hdigest]
  · rw [if_neg hdigest, if_neg hdigest]
    by_cases hquorum : st.quorumSize ≤ (OrderedMap.insertNew env.pbft.prepare.replicaId
        env.pbft.prepare pinstance.prepares).length <;>
      by_cases hphase : pinstance.phase.toNat < PbftInstancePhase.prepared.toNat <;>
      by_cases hvalid : pinstance.checkValueResult = .valid <;>
      simp [hquorum, hphase, hvalid] <;> rfl

theorem withPrepare_buffered (quorumSize : ℕ) (prepare : PbftPrepare) :
    (pinstance.withPrepare quorumSize prepare).buffered = pinstance.buffered := by
  unfold PbftInstance.withPrepare PbftInstance.buffered
  simp only
  split_ifs <;> rfl

theorem withPrepare_prePrepare (quorumSize : ℕ) (prepare : PbftPrepare) :
    (pinstance.withPrepare quorumSize prepare).prePrepare = pinstance.prePrepare := by
  unfold PbftInstance.withPrepare
  simp only
  split_ifs <;> rfl

theorem insertNew_ne_nil (replicaId : ℤ) (prepare : PbftPrepare)
    (prepares : List (ℤ × PbftPrepare)) :
    OrderedMap.insertNew replicaId prepare prepares ≠ [] := by
  unfold OrderedMap.insertNew
  split
  · rintro rfl
    simp_all
  · exact List.ne_nil_of_mem (OrderedMap.mem_insert.mpr (Or.inl rfl))

theorem withPrepare_prepares_ne_nil (quorumSize : ℕ) (prepare : PbftPrepare) :
    (pinstance.withPrepare quorumSize prepare).prepares ≠ [] := by
  unfold PbftInstance.withPrepare
  simp only
  split_ifs <;> exact insertNew_ne_nil _ _ _

theorem withPrepare_phase {quorumSize : ℕ} {prepare : PbftPrepare}
    (hquorum : quorumSize ≤ (pinstance.withPrepare quorumSize prepare).prepares.length) :
    PbftInstancePhase.prepared.toNat ≤
      (pinstance.withPrepare quorumSize prepare).phase.toNat := by
  unfold PbftInstance.withPrepare at *
  simp only at *
  split_ifs at * with hquorum' hphase
  · exact le_rfl
  · exact not_lt.mp hphase
  · exact absurd hquorum hquorum'

theorem onPrepare_moves (now : ℤ) (hlookup : st.instances.lookup index = some pinstance)
    (hactive : st.viewActive = true) (hview : index.viewNumber = st.viewNumber)
    (hdue : pinstance.Due env) (htype : env.pbft.type = .prepare) :
    Moves crypto key trigger st (onPrepare crypto key env.pbft index now st).1 := by
  have hmem := OrderedMap.mem_of_lookup hlookup
  rw [onPrepare_eq now hlookup]
  simp only
  split_ifs with hdigest hsend
  · exact .refl
  · have hbuffered : env ∈ (pinstance.withPrepare st.quorumSize env.pbft.prepare).buffered := by
      rw [withPrepare_buffered]
      exact hdue.mem_buffered
    have hprePrepare : (pinstance.withPrepare st.quorumSize
        env.pbft.prepare).prePrepare.valueDigest = env.pbft.prepare.valueDigest := by
      rw [withPrepare_prePrepare]
      exact not_not.mp hdigest
    have hself : (index, pinstance.withPrepare st.quorumSize env.pbft.prepare) ∈
        (st.setInstance index _).instances := mem_setInstance_self
    have hclock : (pinstance.withPrepare st.quorumSize env.pbft.prepare).SameAgreement
        { pinstance.withPrepare st.quorumSize env.pbft.prepare with lastCommitSendTime := now } :=
      ⟨rfl, rfl, rfl, rfl, rfl, rfl, rfl, rfl⟩
    have hcommit : Move crypto key trigger _ _ := .sendCommit env.pbft.roundNumber hself
      (withPrepare_phase hsend.1) hclock
      (Or.inl ⟨hview, withPrepare_prepares_ne_nil _ _, env, hbuffered, htype, rfl, hprePrepare⟩)
      (Or.inl ⟨hactive, hview⟩)
    -- the code sets the clock first and then sends
    rw [setInstance_sendMessage, setInstance_setInstance] at hcommit
    exact .tail (.single (.prepare hmem hdue htype (not_not.mp hdigest))) hcommit
  · exact .single (.prepare hmem hdue htype (not_not.mp hdigest))

theorem tryExecuteLoop_moves (rest : List (PbftInstanceIndex × PbftInstance)) (st : PbftState)
    (hrest : ∀ entry ∈ rest, st.lastExeSeq < entry.1.sequence → entry ∈ st.instances) :
    Moves crypto key trigger st (tryExecuteLoop rest st) := by
  induction rest generalizing st with
  | nil => exact .refl
  | cons entry rest ih =>
      obtain ⟨index, pinstance⟩ := entry
      obtain ⟨hentry, hothers⟩ := List.forall_mem_cons.mp hrest
      rw [tryExecuteLoop]
      split_ifs with hdone hnext
      · exact ih st hothers
      · obtain ⟨hsequence, hphase⟩ := hnext
        have hcommited : pinstance.phase = .commited := by
          revert hphase
          cases pinstance.phase <;> simp [PbftInstancePhase.toNat]
        have herase : ∀ other : PbftInstanceIndex,
            decide (index.sequence - ckpInterval / 2 < other.sequence) = false →
              other.sequence ≤ st.lastExeSeq + 1 := by
          intro other hother
          rw [decide_eq_false_iff_not, not_lt] at hother
          unfold ckpInterval at hother
          omega
        refine .head (.execute (hentry (not_le.mp hdone)) hcommited hsequence) (.head (.erase _
          (fun other _ => index.sequence - ckpInterval / 2 < other.sequence)
          fun other _ hother => Or.inl (herase other.1 hother)) ?_)
        refine ih _ fun other hother hlater => ?_
        -- what is still to come has not been erased
        simp only [PbftState.keepInstances, PbftState.output] at hlater ⊢
        have hkept : index.sequence - ckpInterval / 2 < other.1.sequence := by
          unfold ckpInterval
          omega
        exact List.mem_filter.mpr ⟨hothers other hother (by omega), decide_eq_true hkept⟩
      · exact .refl

theorem tryExecuteValue_moves : Moves crypto key trigger st (tryExecuteValue st) :=
  tryExecuteLoop_moves _ _ fun _ hentry _ => hentry

theorem onCommit_moves (now : ℤ) (hlookup : st.instances.lookup index = some pinstance)
    (hsource : pinstance.Due env ∨
      (pinstance.prePrepare.valueDigest = env.pbft.commit.valueDigest →
        pinstance.commits.lookup env.pbft.commit.replicaId = none → trigger.stray env) ∧
      env.pbft.index? = some index)
    (htype : env.pbft.type = .commit) :
    Moves crypto key trigger st (onCommit env.pbft index now st).1 := by
  simp only [onCommit, getInstance_of_lookup hlookup]
  split_ifs with hdigest hold hquorum
  · exact .refl
  · exact .refl
  · have hnew := Option.not_isSome_iff_eq_none.mp hold
    have hcount : Move crypto key trigger st _ :=
      .commit now (OrderedMap.mem_of_lookup hlookup)
        (hsource.imp_right fun h => ⟨h.1 (not_not.mp hdigest) hnew, h.2⟩) htype
        (not_not.mp hdigest) hnew
    rw [PbftInstance.withCommit, if_pos hquorum] at hcount
    exact .head hcount tryExecuteValue_moves
  · have hnew := Option.not_isSome_iff_eq_none.mp hold
    have hcount : Move crypto key trigger st _ :=
      .commit now (OrderedMap.mem_of_lookup hlookup)
        (hsource.imp_right fun h => ⟨h.1 (not_not.mp hdigest) hnew, h.2⟩) htype
        (not_not.mp hdigest) hnew
    rw [PbftInstance.withCommit, if_neg hquorum] at hcount
    exact .single hcount

theorem onPhaseMessage_moves (checkValue : CheckValueResult) (now : ℤ)
    (hlookup : st.instances.lookup index = some pinstance) (hactive : st.viewActive = true)
    (hview : index.viewNumber = st.viewNumber) (hdue : pinstance.Due env) :
    Moves crypto key trigger st
      (onPhaseMessage crypto key env.pbft index checkValue now st).1 := by
  unfold onPhaseMessage
  split
  · exact onPrePrepare_moves checkValue hlookup hactive hview hdue (by assumption)
  · exact onPrepare_moves now hlookup hactive hview hdue (by assumption)
  · exact onCommit_moves now hlookup (Or.inl hdue) (by assumption)
  · exact .refl

/-! The handlers of an instance stay in the view. -/

theorem tryExecuteLoop_viewNumber (rest : List (PbftInstanceIndex × PbftInstance))
    (st : PbftState) : (tryExecuteLoop rest st).viewNumber = st.viewNumber := by
  induction rest generalizing st with
  | nil => rfl
  | cons entry rest ih =>
      rw [tryExecuteLoop]
      split_ifs
      · exact ih st
      · exact ih _
      · rfl

theorem onPhaseMessage_viewNumber (pbft : Pbft) (checkValue : CheckValueResult) (now : ℤ) :
    (onPhaseMessage crypto key pbft index checkValue now st).1.viewNumber = st.viewNumber := by
  unfold onPhaseMessage
  split
  · simp only [onPrePrepare]
    split_ifs <;> simp [PbftState.setInstance]
  · simp only [onPrepare]
    split_ifs <;> simp [PbftState.setInstance]
  · simp only [onCommit]
    split_ifs <;> simp [PbftState.setInstance, tryExecuteValue, tryExecuteLoop_viewNumber]
  · rfl

theorem tryExecuteLoop_viewActive (rest : List (PbftInstanceIndex × PbftInstance))
    (st : PbftState) : (tryExecuteLoop rest st).viewActive = st.viewActive := by
  induction rest generalizing st with
  | nil => rfl
  | cons entry rest ih =>
      rw [tryExecuteLoop]
      split_ifs
      · exact ih st
      · exact ih _
      · rfl

theorem onPhaseMessage_viewActive (pbft : Pbft) (checkValue : CheckValueResult) (now : ℤ) :
    (onPhaseMessage crypto key pbft index checkValue now st).1.viewActive = st.viewActive := by
  unfold onPhaseMessage
  split
  · simp only [onPrePrepare]
    split_ifs <;> simp [PbftState.setInstance]
  · simp only [onPrepare]
    split_ifs <;> simp [PbftState.setInstance]
  · simp only [onCommit]
    split_ifs <;> simp [PbftState.setInstance, tryExecuteValue, tryExecuteLoop_viewActive]
  · rfl

/-- An instance with a message in a buffer is there. -/
theorem lookup_of_phaseBuf {item : ℕ} (hitem : (st.getInstance index).phaseBuf[item]? = some env) :
    st.instances.lookup index = some (st.getInstance index) := by
  unfold PbftState.getInstance at *
  cases hlookup : st.instances.lookup index with
  | none => simp [hlookup, PbftInstance.phaseBuf] at hitem
  | some pinstance => rfl

theorem goLoop_moves (checkValue : CheckValueResult) (now : ℤ) (fuel : ℕ) (doret : Bool)
    (st : PbftState) (hactive : st.viewActive = true)
    (hview : index.viewNumber = st.viewNumber) :
    Moves crypto key trigger st
      (goLoop crypto key index checkValue now fuel doret st).1 := by
  induction fuel generalizing doret st with
  | zero => exact .refl
  | succ fuel ih =>
      rw [goLoop]
      simp only
      split
      · exact .refl
      · rename_i env hitem
        have hlookup := lookup_of_phaseBuf hitem
        set pinstance := { st.getInstance index with
          phaseItem := (st.getInstance index).phaseItem + 1 } with hpinstance
        have hdue : pinstance.Due env := Or.inl (List.mem_of_getElem? hitem)
        have htick : Move crypto key trigger st (st.setInstance index pinstance) :=
          .tick (OrderedMap.mem_of_lookup hlookup) ⟨rfl, rfl, rfl, rfl, rfl, rfl, rfl, rfl⟩ rfl
        refine .head htick
          ((onPhaseMessage_moves checkValue now lookup_setInstance_self hactive hview hdue).trans
            (ih _ _ ?_ ?_))
        · rw [onPhaseMessage_viewActive]
          exact hactive
        · rw [onPhaseMessage_viewNumber]
          exact hview

theorem go_moves (checkValue : CheckValueResult) (now : ℤ)
    (hlookup : st.instances.lookup index = some pinstance) (hactive : st.viewActive = true)
    (hview : index.viewNumber = st.viewNumber) (hmem : env ∈ pinstance.buffered) :
    Moves crypto key trigger st (go crypto key env index checkValue now st).1 := by
  simp only [go, getInstance_of_lookup hlookup]
  split_ifs with hlate
  · exact onPhaseMessage_moves checkValue now hlookup hactive hview (Or.inr ⟨hmem, hlate⟩)
  · exact goLoop_moves checkValue now _ _ _ hactive hview

/-! ## Messages from other views -/

theorem tryDoTraceOut_moves (henters : st.quorumSize + 1 ≤ pinstance.commits.length →
      st.lastExeSeq + ckpInterval ≤ index.sequence → trigger.enters st index.viewNumber) :
    Moves crypto key trigger st (tryDoTraceOut index pinstance st) := by
  unfold tryDoTraceOut
  simp only
  split_ifs
  · rename_i hjump
    have hsequence : st.lastExeSeq + ckpInterval ≤ index.sequence := by omega
    refine .tail (.single (.traceOut ?_ ?_ ?_ ?_ ?_ ?_)) (.resetCloseTimer _)
    · exact hsequence
    · exact ⟨rfl, rfl, rfl, rfl, rfl, le_rfl,
        (Int.le_add_of_nonneg_right (by decide)).trans hsequence,
        fun htyped entry hentry => htyped entry (List.mem_of_mem_filter hentry)⟩
    · rfl
    · rfl
    · exact henters hjump.1 hsequence
    · intro preparedSet hholds
      exact hholds.of_subset (fun entry hentry => ⟨entry, List.mem_of_mem_filter hentry, rfl⟩)
        (List.Subset.refl _)
  · exact .refl

/-- The entry of `out_pbft_instances_` for a COMMIT from outside, a new one if there is none. -/
def PbftState.outInstance (env : PbftEnv) (now : ℤ) (st : PbftState) : PbftInstance :=
  let commit := env.pbft.commit
  (st.outPbftInstances.lookup ⟨commit.viewNumber, commit.sequence⟩).getD
    { PbftInstance.new now with prePrepare := { valueDigest := commit.valueDigest } }

/-- The COMMIT from outside completes a quorum at a sequence beyond the watermark, and
`TryDoTraceOut` moves to its view. -/
structure PbftState.TracesOut (env : PbftEnv) (now : ℤ) (st : PbftState) : Prop where
  type_eq : env.pbft.type = .commit
  away : st.inWaterMark env.pbft.commit.sequence = false ∨
    st.viewNumber ≠ env.pbft.commit.viewNumber
  lookup_eq : st.instances.lookup ⟨env.pbft.commit.viewNumber, env.pbft.commit.sequence⟩ = none
  digest_eq : (st.outInstance env now).prePrepare.valueDigest = env.pbft.commit.valueDigest
  quorum : st.quorumSize + 1 ≤ (OrderedMap.insertNew env.pbft.commit.replicaId env.pbft.commit
    (st.outInstance env now).commits).length
  beyond : st.lastExeSeq + ckpInterval ≤ env.pbft.commit.sequence

theorem traceOutPbftCommit_moves (now : ℤ) (htype : env.pbft.type = .commit)
    (hindex : env.pbft.index? = some index)
    (haway : st.inWaterMark index.sequence = false ∨ st.viewNumber ≠ index.viewNumber)
    (hstray : ∀ pinstance, st.instances.lookup index = some pinstance →
      pinstance.prePrepare.valueDigest = env.pbft.commit.valueDigest →
      pinstance.commits.lookup env.pbft.commit.replicaId = none → trigger.stray env)
    (henters : st.TracesOut env now → ∀ mid : PbftState, mid.outputs = st.outputs →
      trigger.enters mid env.pbft.commit.viewNumber) :
    Moves crypto key trigger st (traceOutPbftCommit env now st) := by
  obtain rfl : (⟨env.pbft.commit.viewNumber, env.pbft.commit.sequence⟩ : PbftInstanceIndex) =
      index := by simpa [Pbft.index?, htype] using hindex
  simp only [traceOutPbftCommit]
  split_ifs with hsome hdigest
  · obtain ⟨pinstance, hlookup⟩ := Option.isSome_iff_exists.mp hsome
    exact onCommit_moves now hlookup (Or.inr ⟨hstray pinstance hlookup, hindex⟩) htype
  · exact .refl
  · refine .trans (.single (.other ?_ ?_)) (tryDoTraceOut_moves fun hquorum hbeyond => ?_)
    · exact ⟨rfl, rfl, rfl, rfl, rfl, le_rfl, le_rfl, id⟩
    · exact .of_subset id (fun entry hentry => ⟨entry, hentry, rfl⟩) (List.Subset.refl _)
    · exact henters ⟨htype, haway, Option.not_isSome_iff_eq_none.mp hsome, not_not.mp hdigest,
        hquorum, hbeyond⟩ _ rfl

/-! ## Arriving messages -/

/-- The message that arrives is to be put into the buffer of `pinstance`: the view is active
and is the view of the message, and the instance is there or new. -/
def PbftState.Receives (crypto : Crypto) (env : PbftEnv) (now : ℤ) (st : PbftState)
    (pinstance : PbftInstance) : Prop :=
  checkMessageItem crypto st.validators env = true ∧ st.viewActive = true ∧
    ∃ index, env.pbft.index? = some index ∧ st.viewNumber = index.viewNumber ∧
      st.lastExeSeq < index.sequence ∧ index.sequence ≤ st.lastExeSeq + ckpInterval ∧
      (st.instances.lookup index = some pinstance ∨
        st.instances.lookup index = none ∧ pinstance = .new now)

/-- The message that arrives is a COMMIT from another view, or from outside of the watermark,
for an instance that is there and counts it. -/
def PbftState.ReceivesStray (crypto : Crypto) (env : PbftEnv) (st : PbftState) : Prop :=
  checkMessageItem crypto st.validators env = true ∧ env.pbft.type = .commit ∧
    ∃ index pinstance, env.pbft.index? = some index ∧
      (st.inWaterMark index.sequence = false ∨ st.viewNumber ≠ index.viewNumber) ∧
      st.lastExeSeq < index.sequence ∧ st.instances.lookup index = some pinstance ∧
      pinstance.prePrepare.valueDigest = env.pbft.commit.valueDigest ∧
      pinstance.commits.lookup env.pbft.commit.replicaId = none

theorem mem_buffered_pushBack (hindex : env.pbft.index? = some index) :
    env ∈ (pinstance.pushBack env).buffered := by
  unfold PbftInstance.pushBack PbftInstance.buffered
  unfold Pbft.index? at hindex
  cases htype : env.pbft.type <;> simp_all

/-- The instance that `CreateInstanceIfNotExist` has made survives the erasing of the same
sequence in older views. -/
theorem lookup_keepInstances_new (st : PbftState) (index : PbftInstanceIndex) (now : ℤ) :
    ((st.setInstance index (.new now)).keepInstances fun other _ =>
      !(other.viewNumber < index.viewNumber && other.sequence == index.sequence)).instances.lookup
        index = some (.new now) := by
  simp only [PbftState.keepInstances]
  rw [OrderedMap.lookup_filter fun other : PbftInstanceIndex =>
    !(other.viewNumber < index.viewNumber && other.sequence == index.sequence)]
  simp

theorem createInstanceIfNotExist_moves {now : ℤ} (hindex : env.pbft.index? = some index)
    (hreceived : ∀ pinstance, st.viewActive = true → st.viewNumber = index.viewNumber →
      st.lastExeSeq < index.sequence → index.sequence ≤ st.lastExeSeq + ckpInterval →
      (st.instances.lookup index = some pinstance ∨
        st.instances.lookup index = none ∧ pinstance = .new now) →
      ∀ mid : PbftState, mid.outputs = st.outputs → trigger.received mid pinstance env)
    (hstray : ∀ pinstance, env.pbft.type = .commit →
      (st.inWaterMark index.sequence = false ∨ st.viewNumber ≠ index.viewNumber) →
      st.lastExeSeq < index.sequence → st.instances.lookup index = some pinstance →
      pinstance.prePrepare.valueDigest = env.pbft.commit.valueDigest →
      pinstance.commits.lookup env.pbft.commit.replicaId = none → trigger.stray env)
    (henters : st.TracesOut env now → ∀ mid : PbftState, mid.outputs = st.outputs →
      trigger.enters mid env.pbft.commit.viewNumber) :
    Moves crypto key trigger st (createInstanceIfNotExist env index now st).1 ∧
      ((createInstanceIfNotExist env index now st).2 = true →
        ∃ pinstance, (createInstanceIfNotExist env index now st).1.instances.lookup index =
          some pinstance ∧ env ∈ pinstance.buffered ∧
          (createInstanceIfNotExist env index now st).1.viewActive = true ∧
          index.viewNumber = (createInstanceIfNotExist env index now st).1.viewNumber) := by
  simp only [createInstanceIfNotExist]
  by_cases haway : ¬ st.inWaterMark index.sequence = true ∨ st.viewNumber ≠ index.viewNumber
  · rw [if_pos haway]
    split_ifs with htrace
    · have haway' : st.inWaterMark index.sequence = false ∨ st.viewNumber ≠ index.viewNumber :=
        haway.imp_left fun h => by simpa using h
      refine ⟨traceOutPbftCommit_moves now htrace.2 hindex haway' (fun pinstance hlookup => ?_)
        henters, by simp⟩
      exact hstray pinstance htrace.2 haway' htrace.1 hlookup
    · exact ⟨.refl, by simp⟩
  · rw [if_neg haway]
    obtain ⟨hwater, hview⟩ := not_or.mp haway
    by_cases hactive : st.viewActive = true
    swap
    · rw [if_pos hactive]
      exact ⟨.refl, by simp⟩
    rw [if_neg (not_not.mpr hactive)]
    by_cases hdone : index.sequence ≤ st.lastExeSeq
    · rw [if_pos hdone]
      exact ⟨.refl, by simp⟩
    rw [if_neg hdone]
    have hle : index.sequence ≤ st.lastExeSeq + ckpInterval := by
      simp only [PbftState.inWaterMark, Bool.and_eq_true, decide_eq_true_eq, not_not] at hwater
      exact hwater.2
    have hpush := fun pinstance =>
      hreceived pinstance hactive (not_not.mp hview) (not_le.mp hdone) hle
    by_cases hsome : (st.instances.lookup index).isSome = true
    · obtain ⟨pinstance, hlookup⟩ := Option.isSome_iff_exists.mp hsome
      rw [if_pos hsome, getInstance_of_lookup hlookup]
      exact ⟨.single (.buffer (OrderedMap.mem_of_lookup hlookup)
        (hpush _ (Or.inl hlookup) st rfl) hindex), fun _ =>
        ⟨_, lookup_setInstance_self, mem_buffered_pushBack hindex, hactive,
          (not_not.mp hview).symm⟩⟩
    · rw [if_neg hsome]
      have hnone := Option.not_isSome_iff_eq_none.mp hsome
      have hnew := lookup_keepInstances_new st index now
      rw [getInstance_of_lookup hnew]
      have hcreate : Move crypto key trigger st _ :=
        .create now (not_not.mp hview).symm (not_le.mp hdone) hle hnone
      exact ⟨.tail (.single hcreate) (.buffer (OrderedMap.mem_of_lookup hnew)
        (hpush _ (Or.inr ⟨hnone, rfl⟩) _ rfl) hindex), fun _ =>
        ⟨_, lookup_setInstance_self, mem_buffered_pushBack hindex, hactive,
          (not_not.mp hview).symm⟩⟩

/-! ## View changes -/

theorem typed_insert {vcInstances : List (ℤ × PbftVcInstance)} {viewNumber : ℤ}
    {vcInstance : PbftVcInstance} (hnew : vcInstance.Typed viewNumber)
    (htyped : ∀ entry ∈ vcInstances, entry.2.Typed entry.1) :
    ∀ entry ∈ OrderedMap.insert viewNumber vcInstance vcInstances, entry.2.Typed entry.1 := by
  intro entry hentry
  rcases OrderedMap.mem_insert.mp hentry with rfl | ⟨hold, -⟩
  · exact hnew
  · exact htyped entry hold

theorem PbftVcInstance.Typed.receive {vcInstance : PbftVcInstance} {viewNumber : ℤ}
    (replicaId lastExeSeq : ℤ) (htyped : vcInstance.Typed viewNumber) (hcommit : env.NoCommit)
    (htype : env.pbft.type = .viewchangWithRawvalue) :
    (vcInstance.receive env replicaId lastExeSeq).Typed viewNumber := by
  unfold PbftVcInstance.receive
  extract_lets _ _ first second
  have hfirst : first.Typed viewNumber := by
    simp only [first]
    split
    · exact ⟨htyped.viewNumber_eq, by simpa using hcommit, htyped.newview, by simpa using htype,
        htyped.newview_vote⟩
    · exact htyped
  have hsecond : second.Typed viewNumber := by
    simp only [second]
    split
    · exact { hfirst with }
    · exact hfirst
  split
  · exact hsecond
  · dsimp only
    split
    · exact { hsecond with }
    · exact hsecond

/-- The prepared set of a view-change instance that has received a message: the one it had, or
the one of the message. -/
theorem receive_prePreparedEnvSet (vcInstance : PbftVcInstance) (replicaId lastExeSeq : ℤ) :
    (vcInstance.receive env replicaId lastExeSeq).prePreparedEnvSet =
        vcInstance.prePreparedEnvSet ∨
      env.pbft.viewChangeWithRawvalue.preparedSet? =
        some (vcInstance.receive env replicaId lastExeSeq).prePreparedEnvSet := by
  unfold PbftVcInstance.receive
  extract_lets _ _ first second
  have hsecond : second.prePreparedEnvSet = vcInstance.prePreparedEnvSet := by
    simp only [second, first]
    split <;> split <;> rfl
  split
  · exact Or.inl hsecond
  · rename_i hset
    dsimp only
    split
    · exact Or.inr hset
    · exact Or.inl hsecond

theorem processQuorumViewChange_moves {viewNumber : ℤ} {vcInstance : PbftVcInstance} (now : ℤ)
    (hlookup : st.vcInstances.lookup viewNumber = some vcInstance)
    (hvc : vcInstance.Typed viewNumber) (hview : st.viewNumber < viewNumber)
    (hle : ∀ entry ∈ st.instances, entry.1.viewNumber ≤ st.viewNumber)
    (henters : st.isPrimary viewNumber = true → ∀ mid : PbftState,
      (∀ promised, mid.Promised promised → st.Promised promised) →
        trigger.enters mid viewNumber) :
    Moves crypto key trigger st
      (processQuorumViewChange crypto key viewNumber now st).1 := by
  have hmem := OrderedMap.mem_of_lookup hlookup
  simp only [processQuorumViewChange, hlookup, Option.getD_some]
  split_ifs with hprimary
  · set msg := newNewView crypto key vcInstance st
    have hsend : Moves crypto key trigger st (st.sendMessage msg) :=
      sendMessage_moves (newNewView_noCommit _) (newNewView_sends _ _)
    set sent := st.sendMessage msg
    have hsame : sent.viewNumber = st.viewNumber := sendMessage_viewNumber
    -- the view is entered first and the instances are erased then, with the same result
    have henter : Moves crypto key trigger st (clearViewChanges { sent with
        viewNumber := vcInstance.viewNumber
        viewActive := true
        vcInstances := OrderedMap.insert viewNumber { vcInstance with
          lastNewviewTime := now, newview := msg, endTime := now } sent.vcInstances }) := by
      refine hsend.tail (.other ?_ ⟨fun _ => Or.inr ?_, fun preparedSet hholds => Or.inl ?_⟩)
      · refine ⟨rfl, rfl, rfl, rfl, rfl, ?_, le_rfl, fun htyped entry hentry => ?_⟩
        · rw [hsame]
          exact hview.le.trans hvc.viewNumber_eq.ge
        · refine typed_insert ?_ htyped entry (List.mem_of_mem_filter hentry)
          exact ⟨hvc.viewNumber_eq, hvc.viewChangeMsg, newNewView_noCommit _,
            hvc.viewChangeMsg_type, rfl, rfl⟩
      · rw [hvc.viewNumber_eq] at hprimary
        have henters' := henters hprimary sent fun _ => promised_of_sendMessage rfl
        rw [← hvc.viewNumber_eq] at henters'
        exact henters'
      · refine hholds.of_subset (fun entry hentry => ?_) (List.Subset.refl _)
        rcases OrderedMap.mem_insert.mp (List.mem_of_mem_filter hentry) with rfl | ⟨hold, -⟩
        · refine ⟨(viewNumber, vcInstance), ?_, rfl⟩
          rwa [sendMessage_vcInstances]
        · exact ⟨entry, hold, rfl⟩
    refine ((henter.tail (.erase _ (fun index pinstance => pinstance.phase == .commited ||
      pinstance.phase == .prepared && decide (sent.lastExeSeq < index.sequence))
      fun entry hentry _ => Or.inr (Or.inl ?_))).tail (.resetCloseTimer _)).tail (.viewChanged _ _)
    have hentry' : entry ∈ st.instances := by
      rw [← @sendMessage_instances st msg]
      exact hentry
    exact (hle entry hentry').trans_lt (hview.trans_le hvc.viewNumber_eq.ge)
  · refine .single (.other ⟨rfl, rfl, rfl, rfl, rfl, le_rfl, le_rfl, id⟩ ⟨Or.inl, ?_⟩)
    rintro preparedSet (hkept | ⟨timer, htimer, rfl⟩)
    · exact Or.inl (Or.inl hkept)
    · rcases List.mem_append.mp htimer with hold | hnew
      · exact Or.inl (Or.inr ⟨timer, hold, rfl⟩)
      · rw [List.mem_singleton.mp hnew]
        exact Or.inl (Or.inl ⟨_, hmem, rfl⟩)

/-- The view-change instance that a VIEW-CHANGE is put into, after that. -/
def PbftState.vcReceived (env : PbftEnv) (now : ℤ) (st : PbftState) : PbftVcInstance :=
  let viewChange := env.pbft.viewChangeWithRawvalue.viewChangeEnv.pbft.viewChange
  ((st.vcInstances.lookup viewChange.viewNumber).getD
    { PbftVcInstance.new viewChange.viewNumber now with seq := viewChange.sequence }).receive
      env st.replicaId st.lastExeSeq

/-- The VIEW-CHANGE completes the quorum of a later view, and the replica is its primary. -/
structure PbftState.LeadsBy (env : PbftEnv) (now : ℤ) (st : PbftState) (viewNumber : ℤ) :
    Prop where
  type_eq : env.pbft.type = .viewchangWithRawvalue
  view_eq : env.pbft.asksFor? = some viewNumber
  later : st.viewNumber < viewNumber
  primary : st.isPrimary viewNumber = true
  quorum : st.quorumSize < (st.vcReceived env now).viewchanges.length
  endTime_eq : (st.vcReceived env now).endTime = 0

theorem onViewChangeWithRawValue_moves (now : ℤ) (htyped : st.Typed) (hcommit : env.NoCommit)
    (htype : env.pbft.type = .viewchangWithRawvalue)
    (henters : ∀ viewNumber, st.LeadsBy env now viewNumber → ∀ mid : PbftState,
      (∀ promised, mid.Promised promised → st.Promised promised) → trigger.enters mid viewNumber)
    (hbrings : ∀ preparedSet, preparedSet = default ∨
      env.pbft.viewChangeWithRawvalue.preparedSet? = some preparedSet →
        trigger.brings preparedSet) :
    Moves crypto key trigger st (onViewChangeWithRawValue crypto key env now st).1 := by
  simp only [onViewChangeWithRawValue]
  set viewNumber := env.pbft.viewChangeWithRawvalue.viewChangeEnv.pbft.viewChange.viewNumber
    with hviewNumber
  set vcInstance := ((st.vcInstances.lookup viewNumber).getD _).receive env _ _ with hvcInstance
  have hvc : vcInstance.Typed viewNumber := by
    refine PbftVcInstance.Typed.receive _ _ ?_ hcommit htype
    cases hlookup : st.vcInstances.lookup viewNumber with
    | none => exact ⟨rfl, by simp [PbftVcInstance.new], default_noCommit,
        by simp [PbftVcInstance.new], rfl, rfl⟩
    | some found => exact htyped.vcInstances _ (OrderedMap.mem_of_lookup hlookup)
  have hset : ∀ preparedSet, preparedSet = vcInstance.prePreparedEnvSet →
      st.Holds preparedSet ∨ trigger.brings preparedSet := by
    rintro - rfl
    rcases receive_prePreparedEnvSet _ st.replicaId st.lastExeSeq with hold | hnew
    · rw [hold]
      cases hlookup : st.vcInstances.lookup viewNumber with
      | none => exact Or.inr (hbrings _ (Or.inl rfl))
      | some found =>
          exact Or.inl (Or.inl ⟨_, OrderedMap.mem_of_lookup hlookup, rfl⟩)
    · exact Or.inr (hbrings _ (Or.inr hnew))
  have hwrite : Move crypto key trigger st { st with
      vcInstances := OrderedMap.insert viewNumber vcInstance st.vcInstances } := by
    refine .other ⟨rfl, rfl, rfl, rfl, rfl, le_rfl, le_rfl, typed_insert hvc⟩ ⟨Or.inl, ?_⟩
    rintro preparedSet (⟨entry, hentry, rfl⟩ | htimer)
    · rcases OrderedMap.mem_insert.mp hentry with rfl | ⟨hold, -⟩
      · exact hset _ rfl
      · exact Or.inl (Or.inl ⟨entry, hold, rfl⟩)
    · exact Or.inl (Or.inr htimer)
  split_ifs with hequal hless hquorum
  · exact .refl
  · exact .refl
  · have hlater : st.viewNumber < viewNumber := by omega
    refine .trans (.single hwrite) (processQuorumViewChange_moves now
      (OrderedMap.lookup_insert_self ..) hvc hlater htyped.view_le fun hprimary mid => ?_)
    refine henters viewNumber ⟨htype, ?_, hlater, hprimary, hquorum.1, hquorum.2⟩ mid
    rw [Pbft.asksFor?, if_pos htype]
  · exact .single hwrite

/-- The NEW-VIEW makes a backup enter a later view. -/
structure PbftState.FollowsNewView (crypto : Crypto) (env : PbftEnv) (st : PbftState)
    (viewNumber : ℤ) : Prop where
  type_eq : env.pbft.type = .newview
  view_eq : env.pbft.newView.viewNumber = viewNumber
  later : st.viewNumber < viewNumber
  backup : st.isPrimary viewNumber = false
  check : checkViewChanges crypto env st.validators viewNumber env.pbft.newView.viewChanges = true
  quorum : st.quorumSize < (env.pbft.newView.viewChanges.map fun env =>
    env.pbft.viewChange.replicaId).toFinset.card

theorem onNewView_moves (now : ℤ) (htype : env.pbft.type = .newview) (htyped : st.Typed)
    (henters : ∀ viewNumber, st.FollowsNewView crypto env viewNumber → ∀ mid : PbftState,
      mid.outputs = st.outputs → trigger.enters mid viewNumber) :
    Moves crypto key trigger st (onNewView crypto env now st).1 := by
  simp only [onNewView]
  set st₁ := { st with timers := st.timers.filter fun timer => timer.1 ≠ st.newViewRepondTimer }
    with hst₁
  have htimers : Moves crypto key trigger st st₁ :=
    .single (.other ⟨rfl, rfl, rfl, rfl, rfl, le_rfl, le_rfl, id⟩
      (.of_subset id (fun entry hentry => ⟨entry, hentry, rfl⟩) (List.filter_subset_self _)))
  split_ifs with hequal hless hprimary hcheck hquorum
  · exact .refl
  · exact .refl
  · exact htimers
  · exact htimers
  · have hlater : st.viewNumber < env.pbft.newView.viewNumber := by omega
    -- the view is entered first and the instances are erased then, with the same result
    have henter : Moves crypto key trigger st (clearViewChanges { st₁ with
        viewNumber := env.pbft.newView.viewNumber
        viewActive := true
        vcInstances := st₁.vcInstances.map fun entry =>
          if entry.1 = env.pbft.newView.viewNumber then
            (entry.1, { entry.2 with endTime := now }) else entry }) := by
      refine htimers.tail (.other ?_ ⟨fun _ => Or.inr ?_, fun preparedSet hholds => Or.inl ?_⟩)
      · refine ⟨rfl, rfl, rfl, rfl, rfl, hlater.le, le_rfl, fun hvcs entry hentry => ?_⟩
        obtain ⟨entry', hentry', rfl⟩ := List.mem_map.mp (List.mem_of_mem_filter hentry)
        have hvc := hvcs entry' hentry'
        split
        · exact { hvc with }
        · exact hvc
      · exact henters _ ⟨htype, rfl, hlater, Bool.eq_false_of_not_eq_true hprimary,
          by simpa using hcheck,
          not_le.mp hquorum⟩ st₁ rfl
      · refine hholds.of_subset (fun entry hentry => ?_) (List.Subset.refl _)
        obtain ⟨entry', hentry', rfl⟩ := List.mem_map.mp (List.mem_of_mem_filter hentry)
        refine ⟨entry', hentry', ?_⟩
        split <;> rfl
    refine (henter.tail (.erase _ (fun index pinstance => pinstance.phase == .commited ||
      pinstance.phase == .prepared && decide (st.lastExeSeq < index.sequence))
      fun entry hentry _ => Or.inr (Or.inl ?_))).tail (.viewChanged _ _)
    exact (htyped.view_le entry hentry).trans_lt hlater
  · exact htimers

theorem onTxTimeout_moves : Moves crypto key trigger st (onTxTimeout crypto key st) := by
  unfold onTxTimeout
  split
  · refine .trans (.single (.other ?_ ?_)) (sendMessage_moves
      (newViewChangeRawValue_noCommit _ _) (newViewChangeRawValue_sends _ _ _ rfl))
    · exact ⟨rfl, rfl, rfl, rfl, rfl, le_rfl, le_rfl, id⟩
    · exact .of_subset (fun hactive => absurd hactive Bool.false_ne_true)
        (fun entry hentry => ⟨entry, hentry, rfl⟩) (List.Subset.refl _)
  · exact .refl

theorem onNewViewRepondTimer_moves (timer : ℕ) :
    Moves crypto key trigger st (onNewViewRepondTimer crypto key timer st) := by
  unfold onNewViewRepondTimer
  split
  · exact .refl
  · extract_lets st'
    have hother : Moves crypto key trigger st st' :=
      .single (.other ⟨rfl, rfl, rfl, rfl, rfl, le_rfl, le_rfl, id⟩
        (.of_subset id (fun entry hentry => ⟨entry, hentry, rfl⟩) (List.filter_subset_self _)))
    split
    · exact hother
    · rename_i hactive
      exact hother.trans (sendMessage_moves (newViewChangeRawValue_noCommit _ _)
        (newViewChangeRawValue_sends _ _ _ (Bool.eq_false_of_not_eq_true hactive)))

/-! ## Entry points -/

theorem request_moves (value : Bytes) (now : ℤ)
    (hproposed : st.isPrimary st.viewNumber = true → st.viewActive = true →
      trigger.proposed st (newPrePrepare crypto key value (st.lastExeSeq + 1) st)) :
    Moves crypto key trigger st (request crypto key value now st).1 := by
  simp only [request]
  split_ifs with hprimary hactive
  · refine .trans (.single (.propose now (hproposed hprimary hactive) ?_ ?_ ?_ ?_))
      (sendMessage_moves (newPrePrepare_noCommit _ _)
        (.prePrepare mem_setInstance_self rfl rfl rfl))
    · rfl
    · rfl
    · exact newPrePrepare_noCommit _ _
    · rfl
  · exact .refl
  · exact .refl

/-- The message that arrives makes the replica enter the view. -/
def PbftState.EntersOn (crypto : Crypto) (env : PbftEnv) (now : ℤ) (st : PbftState)
    (viewNumber : ℤ) : Prop :=
  checkMessageItem crypto st.validators env = true ∧
    (st.TracesOut env now ∧ env.pbft.commit.viewNumber = viewNumber ∨
      st.LeadsBy env now viewNumber ∨ st.FollowsNewView crypto env viewNumber)

/-- The message that arrives brings a prepared set. -/
def PbftState.BringsSet (crypto : Crypto) (env : PbftEnv) (st : PbftState)
    (preparedSet : PbftPreparedSet) : Prop :=
  checkMessageItem crypto st.validators env = true ∧
    env.pbft.type = .viewchangWithRawvalue ∧
    env.pbft.viewChangeWithRawvalue.preparedSet? = some preparedSet

theorem onRecv_moves (checkValue : CheckValueResult) (now : ℤ) (htyped : st.Typed)
    (hreceived : ∀ pinstance, st.Receives crypto env now pinstance →
      ∀ mid : PbftState, mid.outputs = st.outputs → trigger.received mid pinstance env)
    (hstray : st.ReceivesStray crypto env → trigger.stray env)
    (henters : ∀ viewNumber, st.EntersOn crypto env now viewNumber → ∀ mid : PbftState,
      (∀ promised, mid.Promised promised → st.Promised promised) → trigger.enters mid viewNumber)
    (hbrings : ∀ preparedSet, preparedSet = default ∨ st.BringsSet crypto env preparedSet →
      trigger.brings preparedSet) :
    Moves crypto key trigger st (onRecv crypto key env checkValue now st).1 := by
  have hsame : ∀ mid : PbftState, mid.outputs = st.outputs →
      ∀ promised, mid.Promised promised → st.Promised promised := by
    intro mid houtputs promised hpromised
    rwa [PbftState.Promised, houtputs] at hpromised
  unfold onRecv
  by_cases hcheck : checkMessageItem crypto st.validators env = true
  swap
  · rw [if_pos hcheck]
  rw [if_neg (not_not.mpr hcheck)]
  cases hindex : env.pbft.index? with
  | none =>
      simp only
      split
      · rename_i htype
        have hinner := viewChangeEnv_type_of_check hcheck htype
        exact onViewChangeWithRawValue_moves now htyped ⟨by simp [htype], by simp [hinner]⟩ htype
          (fun viewNumber hleads => henters viewNumber ⟨hcheck, Or.inr (Or.inl hleads)⟩)
          fun preparedSet hset =>
            hbrings preparedSet (hset.imp_right fun hsome => ⟨hcheck, htype, hsome⟩)
      · rename_i htype
        exact onNewView_moves now htype htyped fun viewNumber hfollows mid houtputs =>
          henters viewNumber ⟨hcheck, Or.inr (Or.inr hfollows)⟩ mid (hsame mid houtputs)
      · exact .refl
  | some index =>
      have hboth : Moves crypto key trigger st
          (createInstanceIfNotExist env index now st).1 ∧ _ := createInstanceIfNotExist_moves hindex
        (fun pinstance hactive hview hlast hwater hinstance => hreceived pinstance
          ⟨hcheck, hactive, index, hindex, hview, hlast, hwater, hinstance⟩)
        (fun pinstance htype haway hlast hlookup hdigest hnew => hstray
          ⟨hcheck, htype, index, pinstance, hindex, haway, hlast, hlookup, hdigest, hnew⟩)
        (fun htraces mid houtputs =>
          henters _ ⟨hcheck, Or.inl ⟨htraces, rfl⟩⟩ mid (hsame mid houtputs))
      obtain ⟨hcreate, hfound⟩ := hboth
      simp only
      split
      · rename_i hgo
        obtain ⟨pinstance, hlookup, hmem, hactive, hview⟩ := hfound hgo
        exact hcreate.trans (go_moves _ _ hlookup hactive hview hmem)
      · exact hcreate

/-! ## Timers -/

/-- A loop is a sequence of moves and keeps what its body keeps. -/
theorem foldl_moves {α : Type*} {body : PbftState → α → PbftState} {inv : PbftState → Prop}
    (hbody : ∀ (st : PbftState) (a : α), st.Typed → inv st →
      Moves crypto key trigger st (body st a) ∧ inv (body st a))
    (items : List α) (st : PbftState) (htyped : st.Typed) (hinv : inv st) :
    Moves crypto key trigger st (items.foldl body st) ∧ inv (items.foldl body st) := by
  induction items generalizing st with
  | nil => exact ⟨.refl, hinv⟩
  | cons a items ih =>
      obtain ⟨hfirst, hinv'⟩ := hbody st a htyped hinv
      obtain ⟨hrest, hlast⟩ := ih _ (hfirst.typed htyped) hinv'
      exact ⟨hfirst.trans hrest, hlast⟩

/-- An instance has timed out and the replica has not asked for a view change because of it. -/
def PbftState.Expires (currentTime : ℤ) (st : PbftState) : Prop :=
  ∃ entry ∈ st.instances, entry.2.isExpire currentTime = true ∧
    entry.2.haveSendViewchange = false

/-- The COMMIT of the instance is to be sent again: it is the last one that is PREPARED. -/
def PbftState.RepeatsCommit (currentTime : ℤ) (st : PbftState) (index : PbftInstanceIndex) : Prop :=
  ∃ pinstance, (index, pinstance) ∈ st.instances ∧ 2 ≤ pinstance.phase.toNat ∧
    pinstance.checkValueResult = .valid ∧ pinstance.needSendCommitAgain currentTime = true ∧
    ∀ other ∈ st.instances, 2 ≤ other.2.phase.toNat → other.1 ≤ index

/-- A VIEW-CHANGE that asks for the view is to be sent again. -/
def PbftState.RepeatsViewChange (currentTime : ℤ) (st : PbftState) (viewNumber : ℤ) : Prop :=
  ∃ entry ∈ st.vcInstances, ∃ env ∈ entry.2.viewChangeMsg?,
    entry.2.needSendAgain currentTime = true ∧ env.pbft.asksFor? = some viewNumber

/-- What the first loop of `OnTimer` does not change of an instance. -/
structure PbftInstance.TickOf (old pinstance : PbftInstance) : Prop where
  phase_eq : pinstance.phase = old.phase
  startTime_eq : pinstance.startTime = old.startTime
  checkValueResult_eq : pinstance.checkValueResult = old.checkValueResult
  lastCommitSendTime_eq : pinstance.lastCommitSendTime = old.lastCommitSendTime
  haveSendViewchange : pinstance.haveSendViewchange = false → old.haveSendViewchange = false

theorem PbftInstance.TickOf.trans {old mid pinstance : PbftInstance} (hfirst : old.TickOf mid)
    (hsecond : mid.TickOf pinstance) : old.TickOf pinstance :=
  ⟨hsecond.phase_eq.trans hfirst.phase_eq, hsecond.startTime_eq.trans hfirst.startTime_eq,
    hsecond.checkValueResult_eq.trans hfirst.checkValueResult_eq,
    hsecond.lastCommitSendTime_eq.trans hfirst.lastCommitSendTime_eq,
    fun hnot => hfirst.haveSendViewchange (hsecond.haveSendViewchange hnot)⟩

/-- A state in the first loop of `OnTimer`, which started in `st`. -/
structure PbftState.Ticking (currentTime : ℤ) (st mid : PbftState) : Prop where
  viewNumber_eq : mid.viewNumber = st.viewNumber
  vcInstances_eq : mid.vcInstances = st.vcInstances
  active : mid.viewActive = true → st.viewActive = true
  promised : ∀ viewNumber, mid.Promised viewNumber →
    st.Promised viewNumber ∨ st.Expires currentTime
  source : ∀ entry ∈ mid.instances, ∃ old, (entry.1, old) ∈ st.instances ∧ old.TickOf entry.2
  kept : ∀ entry ∈ st.instances, ∃ pinstance, (entry.1, pinstance) ∈ mid.instances ∧
    pinstance.phase = entry.2.phase

namespace PbftState.Ticking

variable {currentTime : ℤ} {mid : PbftState}

theorem refl (currentTime : ℤ) (st : PbftState) : PbftState.Ticking currentTime st st where
  viewNumber_eq := rfl
  vcInstances_eq := rfl
  active := id
  promised _ := Or.inl
  source entry hentry := ⟨entry.2, hentry, rfl, rfl, rfl, rfl, id⟩
  kept entry hentry := ⟨entry.2, hentry, rfl⟩

theorem setInstance {old : PbftInstance} (hticking : PbftState.Ticking currentTime st mid)
    (hnodup : (mid.instances.map Prod.fst).Nodup) (hmem : (index, old) ∈ mid.instances)
    (htick : old.TickOf pinstance) :
    PbftState.Ticking currentTime st (mid.setInstance index pinstance) where
  viewNumber_eq := hticking.viewNumber_eq
  vcInstances_eq := hticking.vcInstances_eq
  active := hticking.active
  promised := hticking.promised
  source := by
    refine forall_mem_setInstance hticking.source ?_
    obtain ⟨first, hfirst, hold⟩ := hticking.source _ hmem
    exact ⟨first, hfirst, hold.trans htick⟩
  kept entry hentry := by
    obtain ⟨found, hfound, hphase⟩ := hticking.kept entry hentry
    by_cases hkey : entry.1 = index
    · subst hkey
      have heq : found = old :=
        congrArg Prod.snd (List.inj_on_of_nodup_map hnodup hfound hmem rfl)
      exact ⟨pinstance, mem_setInstance_self, by rw [htick.phase_eq, ← heq, hphase]⟩
    · exact ⟨found, mem_setInstance.mpr (Or.inr ⟨hfound, hkey⟩), hphase⟩

theorem sendMessage (hticking : PbftState.Ticking currentTime st mid)
    (hasks : env.pbft.asksFor? = none ∨ st.Expires currentTime) :
    PbftState.Ticking currentTime st (mid.sendMessage env) where
  viewNumber_eq := sendMessage_viewNumber.trans hticking.viewNumber_eq
  vcInstances_eq := sendMessage_vcInstances.trans hticking.vcInstances_eq
  active := by
    rw [sendMessage_viewActive]
    exact hticking.active
  promised viewNumber hpromised := by
    rcases hasks with hnone | hexpires
    · exact hticking.promised viewNumber (promised_of_sendMessage hnone hpromised)
    · exact Or.inr hexpires
  source := by
    rw [sendMessage_instances]
    exact hticking.source
  kept := by
    rw [sendMessage_instances]
    exact hticking.kept

theorem onTxTimeout (hticking : PbftState.Ticking currentTime st mid)
    (hexpires : st.Expires currentTime) :
    PbftState.Ticking currentTime st (onTxTimeout crypto key mid) := by
  unfold CegChain.onTxTimeout
  split
  · refine PbftState.Ticking.sendMessage ?_ (Or.inr hexpires)
    exact { hticking with active := fun hactive => absurd hactive Bool.false_ne_true }
  · exact hticking

/-- The last instance that is PREPARED is still the one it was before the loop. -/
theorem repeatsCommit (hticking : PbftState.Ticking currentTime st mid)
    (hsorted : mid.instances.Pairwise fun entry entry' => entry.1 ≤ entry'.1)
    (hlast : (mid.instances.filter fun entry => 2 ≤ entry.2.phase.toNat).getLast? =
      some (index, pinstance))
    (hvalid : pinstance.checkValueResult = .valid)
    (hagain : pinstance.needSendCommitAgain currentTime = true) :
    st.RepeatsCommit currentTime index := by
  obtain ⟨hmem, hphase⟩ := List.mem_filter.mp (List.mem_of_getLast? hlast)
  obtain ⟨old, hold, htick⟩ := hticking.source _ hmem
  refine ⟨old, hold, ?_, htick.checkValueResult_eq ▸ hvalid, ?_, fun other hother hprepared => ?_⟩
  · rw [← htick.phase_eq]
    exact of_decide_eq_true hphase
  · rwa [PbftInstance.needSendCommitAgain, ← htick.lastCommitSendTime_eq, ← htick.phase_eq]
  · obtain ⟨found, hfound, hsame⟩ := hticking.kept other hother
    have hfiltered : (other.1, found) ∈
        mid.instances.filter fun entry => decide (2 ≤ entry.2.phase.toNat) :=
      List.mem_filter.mpr ⟨hfound, decide_eq_true (by rwa [hsame])⟩
    obtain ⟨front, hfront⟩ := List.getLast?_eq_some_iff.mp hlast
    rw [hfront] at hfiltered
    rcases List.mem_append.mp hfiltered with hbefore | hself
    · have hpairs := hsorted.sublist (@List.filter_sublist _ _ _
        |>.trans (List.Sublist.refl _) : (mid.instances.filter fun entry =>
          decide (2 ≤ entry.2.phase.toNat)).Sublist mid.instances)
      rw [hfront] at hpairs
      exact (List.pairwise_append.mp hpairs).2.2 _ hbefore _ (List.mem_singleton_self _)
    · rw [(Prod.mk.inj (List.mem_singleton.mp hself)).1]
      exact (Std.Total.total (r := (· ≤ ·)) index index).elim id id

end PbftState.Ticking

theorem asksFor_of_preprepare (htype : env.pbft.type = .preprepare) :
    env.pbft.asksFor? = none := by
  rw [Pbft.asksFor?, htype, if_neg (by decide)]

theorem sendPrepareAgain_moves {st₀ : PbftState} (currentTime : ℤ)
    (hmem : (index, pinstance) ∈ st.instances) (htyped : st.Typed)
    (hticking : PbftState.Ticking currentTime st₀ st) :
    Moves crypto key trigger st
        (sendPrepareAgain crypto key currentTime index pinstance st) ∧
      PbftState.Ticking currentTime st₀
        (sendPrepareAgain crypto key currentTime index pinstance st) := by
  unfold sendPrepareAgain
  cases hmsg : pinstance.prePrepareMsg? with
  | none => exact ⟨.refl, hticking⟩
  | some prePrepareMsg =>
      have hcommit := htyped.prePrepareMsg _ hmem prePrepareMsg hmsg
      have htype := htyped.prePrepareMsg_type _ hmem prePrepareMsg hmsg
      dsimp only
      split
      · constructor
        · refine .head (.tick hmem ?_ ?_) (sendMessage_moves (hcommit.incPeerMessageRound _)
            (.prePrepare mem_setInstance_self rfl htype rfl))
          · exact ⟨rfl, rfl, rfl, rfl, rfl, rfl, rfl, hmsg.symm⟩
          · rfl
        · refine (hticking.setInstance htyped.nodup hmem ?_).sendMessage
            (Or.inl (asksFor_of_preprepare htype))
          exact ⟨rfl, rfl, rfl, rfl, id⟩
      · exact ⟨.refl, hticking⟩

theorem onTxTimeout_instances : (onTxTimeout crypto key st).instances = st.instances := by
  unfold onTxTimeout
  split
  · exact sendMessage_instances
  · rfl

theorem onTimerInstance_moves {st₀ : PbftState} (currentTime : ℤ) (st : PbftState)
    (index : PbftInstanceIndex) (htyped : st.Typed)
    (hticking : PbftState.Ticking currentTime st₀ st) :
    Moves crypto key trigger st (onTimerInstance crypto key currentTime st index) ∧
      PbftState.Ticking currentTime st₀ (onTimerInstance crypto key currentTime st index) := by
  unfold onTimerInstance
  cases hlookup : st.instances.lookup index with
  | none => exact ⟨.refl, hticking⟩
  | some pinstance =>
      have hmem := OrderedMap.mem_of_lookup hlookup
      dsimp only
      split
      · rename_i hexpire
        rw [Bool.and_eq_true, Bool.not_eq_true'] at hexpire
        have htimeout : Moves crypto key trigger st (onTxTimeout crypto key st) :=
          onTxTimeout_moves
        have hmem' : (index, pinstance) ∈ (onTxTimeout crypto key st).instances := by
          rwa [onTxTimeout_instances]
        have hflag : Moves crypto key trigger st ((onTxTimeout crypto key st).setInstance
            index { pinstance with haveSendViewchange := true }) :=
          htimeout.tail (.tick hmem' ⟨rfl, rfl, rfl, rfl, rfl, rfl, rfl, rfl⟩ rfl)
        have hexpires : st₀.Expires currentTime := by
          obtain ⟨old, hold, htick⟩ := hticking.source _ hmem
          refine ⟨_, hold, ?_, htick.haveSendViewchange hexpire.2⟩
          rw [PbftInstance.isExpire, ← htick.startTime_eq, ← htick.phase_eq]
          exact hexpire.1
        have htick := (@PbftState.Ticking.onTxTimeout crypto key _ _ _ hticking
          hexpires).setInstance (htimeout.typed htyped).nodup hmem'
          (⟨rfl, rfl, rfl, rfl, fun hnot => absurd hnot (by simp)⟩ :
            pinstance.TickOf { pinstance with haveSendViewchange := true })
        obtain ⟨hsend, hsent⟩ := @sendPrepareAgain_moves crypto key trigger _ _ _ _ currentTime
          mem_setInstance_self (hflag.typed htyped) htick
        exact ⟨hflag.trans hsend, hsent⟩
      · exact sendPrepareAgain_moves currentTime hmem htyped hticking

theorem onTimerCommit_moves (currentTime : ℤ)
    (hagain : ∀ index pinstance,
      (st.instances.filter fun entry => 2 ≤ entry.2.phase.toNat).getLast? =
        some (index, pinstance) → pinstance.checkValueResult = .valid →
      pinstance.needSendCommitAgain currentTime = true → trigger.again st index) :
    Moves crypto key trigger st (onTimerCommit crypto key currentTime st) := by
  unfold onTimerCommit
  split
  · exact .refl
  · rename_i index pinstance hlast
    obtain ⟨hmem, hphase⟩ := List.mem_filter.mp (List.mem_of_getLast? hlast)
    dsimp only
    split
    · rename_i hsend
      rw [Bool.and_eq_true, beq_iff_eq] at hsend
      have htime : pinstance.lastCommitSendTime ≠ 0 := by
        have hdue := hsend.2
        simp only [PbftInstance.needSendCommitAgain, Bool.and_eq_true, bne_iff_ne] at hdue
        exact hdue.1.1
      refine .single (.sendCommit _ hmem (of_decide_eq_true hphase) ?_ (Or.inr ⟨htime, rfl⟩)
        (Or.inr (hagain index pinstance hlast hsend.1 hsend.2)))
      exact ⟨rfl, rfl, rfl, rfl, rfl, rfl, rfl, rfl⟩
    · exact .refl

/-- A state in the second loop of `OnTimer`, which started in `st`. -/
structure PbftState.Repeating (currentTime : ℤ) (st mid : PbftState) : Prop where
  viewNumber_eq : mid.viewNumber = st.viewNumber
  active : mid.viewActive = true → st.viewActive = true
  source : ∀ entry ∈ mid.vcInstances, ∃ old ∈ st.vcInstances,
    old.2.viewChangeMsg? = entry.2.viewChangeMsg? ∧
      (entry.2.needSendAgain currentTime = true → old.2.needSendAgain currentTime = true)

theorem onTimerViewChange_moves {st₀ : PbftState} (currentTime : ℤ)
    (hrepeats : ∀ viewNumber, st₀.RepeatsViewChange currentTime viewNumber → ∀ mid : PbftState,
      (mid.viewActive = true → st₀.viewActive = true) → mid.viewNumber = st₀.viewNumber →
      trigger.repeats mid viewNumber)
    (st : PbftState) (viewNumber : ℤ) (htyped : st.Typed)
    (hrepeating : PbftState.Repeating currentTime st₀ st) :
    Moves crypto key trigger st (onTimerViewChange crypto key currentTime st viewNumber) ∧
      PbftState.Repeating currentTime st₀
        (onTimerViewChange crypto key currentTime st viewNumber) := by
  unfold onTimerViewChange
  cases hlookup : st.vcInstances.lookup viewNumber with
  | none => exact ⟨.refl, hrepeating⟩
  | some vcInstance =>
      have hmem := OrderedMap.mem_of_lookup hlookup
      have hvc := htyped.vcInstances _ hmem
      obtain ⟨old, hold, hsame, hdue⟩ := hrepeating.source _ hmem
      dsimp only
      cases hmsg : vcInstance.viewChangeMsg? with
      | none => exact ⟨.refl, hrepeating⟩
      | some viewChangeMsg =>
          have hcommit := hvc.viewChangeMsg viewChangeMsg hmsg
          have htype := hvc.viewChangeMsg_type viewChangeMsg hmsg
          have hasks : viewChangeMsg.pbft.asksFor? = some
              viewChangeMsg.pbft.viewChangeWithRawvalue.viewChangeEnv.pbft.viewChange.viewNumber :=
            if_pos htype
          dsimp only
          split
          · rename_i hsend
            set st₁ := { st with vcInstances := OrderedMap.insert viewNumber _ st.vcInstances }
            have hwrite : Move crypto key trigger st st₁ := by
              refine .other ⟨rfl, rfl, rfl, rfl, rfl, le_rfl, le_rfl, typed_insert ?_⟩
                (.of_subset id (fun entry hentry => ?_) (List.Subset.refl _))
              · exact { hvc with
                  viewChangeMsg := hmsg ▸ hvc.viewChangeMsg
                  viewChangeMsg_type := hmsg ▸ hvc.viewChangeMsg_type }
              · rcases OrderedMap.mem_insert.mp hentry with rfl | ⟨hother, -⟩
                · exact ⟨_, hmem, rfl⟩
                · exact ⟨entry, hother, rfl⟩
            have hrepeat : trigger.repeats st₁ _ :=
              hrepeats _ ⟨old, hold, viewChangeMsg, hsame.trans hmsg, hdue hsend, hasks⟩ st₁
                hrepeating.active hrepeating.viewNumber_eq
            constructor
            · exact .head hwrite (sendMessage_moves (hcommit.incPeerMessageRound _)
                (.viewChange htype hasks (Or.inr hrepeat)))
            · refine ⟨sendMessage_viewNumber.trans hrepeating.viewNumber_eq, ?_, ?_⟩
              · rw [sendMessage_viewActive]
                exact hrepeating.active
              · rw [sendMessage_vcInstances]
                intro entry hentry
                rcases OrderedMap.mem_insert.mp hentry with rfl | ⟨hother, -⟩
                · exact ⟨old, hold, hsame.trans hmsg, fun _ => hdue hsend⟩
                · exact hrepeating.source entry hother
          · exact ⟨.refl, hrepeating⟩

theorem onTimerNewView_moves (currentTime : ℤ) (htyped : st.Typed) :
    Moves crypto key trigger st (onTimerNewView crypto key currentTime st) := by
  unfold onTimerNewView
  split
  · exact .refl
  · rename_i viewNumber vcInstance hlast
    have hmem := List.mem_of_mem_filter (List.mem_of_getLast? hlast)
    have hvc := htyped.vcInstances _ hmem
    dsimp only
    set st₁ := { st with vcInstances := OrderedMap.insert viewNumber _ st.vcInstances }
    have hwrite : Move crypto key trigger st st₁ := by
      refine .other ⟨rfl, rfl, rfl, rfl, rfl, le_rfl, le_rfl, typed_insert { hvc with }⟩
        (.of_subset id (fun entry hentry => ?_) (List.Subset.refl _))
      rcases OrderedMap.mem_insert.mp hentry with rfl | ⟨hother, -⟩
      · exact ⟨_, hmem, rfl⟩
      · exact ⟨entry, hother, rfl⟩
    exact .head hwrite (sendMessage_moves (hvc.newview.incPeerMessageRound _)
      (.other hvc.newview_vote.1 hvc.newview_vote.2))

theorem onTimerCommit_viewNumber (currentTime : ℤ) :
    (onTimerCommit crypto key currentTime st).viewNumber = st.viewNumber := by
  unfold onTimerCommit
  split
  · rfl
  · dsimp only
    split
    · exact sendMessage_viewNumber
    · rfl

theorem onTimerCommit_viewActive (currentTime : ℤ) :
    (onTimerCommit crypto key currentTime st).viewActive = st.viewActive := by
  unfold onTimerCommit
  split
  · rfl
  · dsimp only
    split
    · exact sendMessage_viewActive
    · rfl

theorem onTimerCommit_vcInstances (currentTime : ℤ) :
    (onTimerCommit crypto key currentTime st).vcInstances = st.vcInstances := by
  unfold onTimerCommit
  split
  · rfl
  · dsimp only
    split
    · exact sendMessage_vcInstances
    · rfl

theorem onTimer_moves (currentTime : ℤ) (htyped : st.Typed)
    (hagain : ∀ index, st.RepeatsCommit currentTime index → ∀ mid : PbftState,
      (∀ promised, mid.Promised promised → st.Promised promised ∨ st.Expires currentTime) →
      trigger.again mid index)
    (hrepeats : ∀ viewNumber, st.RepeatsViewChange currentTime viewNumber → ∀ mid : PbftState,
      (mid.viewActive = true → st.viewActive = true) → mid.viewNumber = st.viewNumber →
      trigger.repeats mid viewNumber) :
    Moves crypto key trigger st (onTimer crypto key currentTime st) := by
  simp only [onTimer]
  obtain ⟨hinstances, hticking⟩ := @foldl_moves crypto key trigger _ _
    (PbftState.Ticking currentTime st)
    (fun mid index hmid htick => onTimerInstance_moves currentTime mid index hmid htick)
    (st.instances.map Prod.fst) st htyped (.refl currentTime st)
  set st₁ := (st.instances.map Prod.fst).foldl (onTimerInstance crypto key currentTime) st
  have hcommit : Moves crypto key trigger st (onTimerCommit crypto key currentTime st₁) :=
    hinstances.trans (onTimerCommit_moves currentTime fun index pinstance hlast hvalid hdue =>
      hagain index (hticking.repeatsCommit (hinstances.typed htyped).sorted hlast hvalid hdue) st₁
        hticking.promised)
  set st₂ := onTimerCommit crypto key currentTime st₁ with hst₂
  have hstart : PbftState.Repeating currentTime st st₂ := by
    refine ⟨?_, ?_, fun entry hentry => ⟨entry, ?_, rfl, id⟩⟩
    · rw [hst₂, onTimerCommit_viewNumber, hticking.viewNumber_eq]
    · rw [hst₂, onTimerCommit_viewActive]
      exact hticking.active
    · rwa [hst₂, onTimerCommit_vcInstances, hticking.vcInstances_eq] at hentry
  obtain ⟨hviews, -⟩ := @foldl_moves crypto key trigger _ _
    (PbftState.Repeating currentTime st)
    (fun mid viewNumber hmid hrep =>
      onTimerViewChange_moves currentTime hrepeats mid viewNumber hmid hrep)
    (st₂.vcInstances.map Prod.fst) st₂ (hcommit.typed htyped) hstart
  have hall : Moves crypto key trigger st _ := hcommit.trans hviews
  exact hall.trans (onTimerNewView_moves currentTime (hall.typed htyped))

/-! ## Validators -/

variable {validators : List Bytes}

/-- Telling the replica the same validators again changes nothing. -/
theorem setValidators_of_configured (hconf : st.Configured crypto key validators) :
    setValidators crypto key validators st = st := by
  cases st
  obtain ⟨rfl, rfl, rfl⟩ := hconf
  rfl

/-- Nothing has been sent since `st`. -/
def PbftState.Silent (st mid : PbftState) : Prop :=
  ∀ env, .send env ∈ mid.outputs → .send env ∈ st.outputs

theorem PbftState.Silent.promised {mid : PbftState} (hsilent : st.Silent mid) {viewNumber : ℤ}
    (hpromised : mid.Promised viewNumber) : st.Promised viewNumber := by
  obtain ⟨env, henv, hasks⟩ := hpromised
  exact ⟨env, hsilent env henv, hasks⟩

/-- The view and the sequence that `UpdateValidators` takes from its argument. -/
def updateTarget (crypto : Crypto) (proof : Bytes) (st : PbftState) : Option (ℤ × ℤ) :=
  if proof = [] then some (0, -1)
  else (crypto.parseProof proof).map fun pbftProof => proofTarget pbftProof st

/-- The view and the sequence that are taken from a proof are later than the own ones. -/
theorem updateTarget_lt {proof : Bytes} {newViewNumber newSeq : ℤ}
    (htarget : updateTarget crypto proof st = some (newViewNumber, newSeq)) :
    (0 < newViewNumber → st.viewNumber < newViewNumber) ∧
      (0 < newSeq → st.lastExeSeq < newSeq) := by
  unfold updateTarget at htarget
  split at htarget
  · obtain ⟨rfl, rfl⟩ := Prod.mk.inj (Option.some.inj htarget)
    constructor <;> intro hpos <;> exact absurd hpos (by decide)
  · obtain ⟨pbftProof, -, hproof⟩ := Option.map_eq_some_iff.mp htarget
    unfold proofTarget at hproof
    split at hproof
    · obtain ⟨rfl, rfl⟩ := Prod.mk.inj hproof
      constructor <;> intro hpos <;> exact absurd hpos (by decide)
    · obtain ⟨rfl, rfl⟩ := Prod.mk.inj hproof
      constructor
      · unfold int64Succ
        split_ifs <;> intro <;> omega
      · split <;> intro <;> omega

/-- The view of a replica after `UpdateValidators`. -/
def PbftState.viewAfter (newViewNumber : ℤ) (st : PbftState) : ℤ :=
  if 0 < newViewNumber then newViewNumber else st.viewNumber

/-- The last executed sequence of a replica after `UpdateValidators`. -/
def PbftState.lastExeAfter (newSeq : ℤ) (st : PbftState) : ℤ :=
  if 0 < newSeq then newSeq else st.lastExeSeq

/-- A replica that enters the view and the sequence of a proof, before it erases instances. -/
def PbftState.raised (newViewNumber newSeq : ℤ) (st : PbftState) : PbftState :=
  clearViewChanges { st with
    lastExeSeq := st.lastExeAfter newSeq
    viewNumber := st.viewAfter newViewNumber
    viewActive := true }

/-- The order in which a replica raises its view and erases instances does not matter. -/
theorem enterTarget_eq {newViewNumber newSeq : ℤ} (henter : 0 < newViewNumber ∨ 0 < newSeq) :
    enterTarget newViewNumber newSeq st =
      (clearNotCommitedInstance (st.raised newViewNumber newSeq)).output .resetCloseTimer := by
  unfold enterTarget PbftState.raised PbftState.lastExeAfter PbftState.viewAfter
  rw [if_pos henter]
  by_cases hseq : 0 < newSeq
  · rw [if_pos hseq, if_pos hseq]
    rfl
  · rw [if_neg hseq, if_neg hseq]
    rfl

theorem raised_move {newViewNumber newSeq : ℤ}
    (hview : 0 < newViewNumber → st.viewNumber < newViewNumber)
    (hseq : 0 < newSeq → st.lastExeSeq < newSeq)
    (henters : trigger.enters st (st.viewAfter newViewNumber)) :
    Move crypto key trigger st (st.raised newViewNumber newSeq) := by
  refine .other ⟨rfl, rfl, rfl, rfl, rfl, ?_, ?_, fun htyped entry hentry =>
    htyped entry (List.mem_of_mem_filter hentry)⟩ ⟨fun _ => Or.inr henters, fun _ hholds => Or.inl
    (hholds.of_subset (fun entry hentry => ⟨entry, List.mem_of_mem_filter hentry, rfl⟩)
      (List.Subset.refl _))⟩
  · simp only [PbftState.raised, clearViewChanges, PbftState.viewAfter]
    split
    · exact (hview (by assumption)).le
    · exact le_rfl
  · simp only [PbftState.raised, clearViewChanges, PbftState.lastExeAfter]
    split
    · exact (hseq (by assumption)).le
    · exact le_rfl

theorem clearNotCommitedInstance_move
    (hdropped : ∀ entry ∈ st.instances, entry.2.phase ≠ .commited →
      st.viewNumber ≤ entry.1.viewNumber → st.lastExeSeq < entry.1.sequence →
      trigger.dropped st entry.1) :
    Move crypto key trigger st (clearNotCommitedInstance st) := by
  refine .erase st _ fun entry hentry hkeep => ?_
  rw [beq_eq_false_iff_ne] at hkeep
  by_cases hseq : entry.1.sequence ≤ st.lastExeSeq
  · exact Or.inl hseq
  by_cases hview : entry.1.viewNumber < st.viewNumber
  · exact Or.inr (Or.inl hview)
  exact Or.inr (Or.inr (hdropped entry hentry hkeep (not_lt.mp hview) (not_le.mp hseq)))

theorem updateValidators_eq (validators : List Bytes) (proof : Bytes) (st : PbftState) :
    (updateValidators crypto key validators proof st).1 =
      match updateTarget crypto proof st with
      | none => st
      | some (newViewNumber, newSeq) => enterTarget newViewNumber newSeq
          (if validatorChanged validators st then
            (clearNotCommitedInstance (setValidators crypto key validators st)).output
              .resetCloseTimer
          else st) := by
  unfold updateValidators
  change (match updateTarget crypto proof st with
    | none => (st, false)
    | some (newViewNumber, newSeq) => (enterTarget newViewNumber newSeq _, true)).1 = _
  cases updateTarget crypto proof st with
  | none => rfl
  | some target => rfl

/-- `UpdateValidators` takes the validators over, if they have changed, and goes on from
there. -/
theorem updateValidators_moves (validators : List Bytes) {proof : Bytes}
    {newViewNumber newSeq : ℤ}
    (htarget : updateTarget crypto proof st = some (newViewNumber, newSeq))
    (henters : 0 < newViewNumber ∨ 0 < newSeq → ∀ mid : PbftState, st.Silent mid →
      trigger.enters mid (st.viewAfter newViewNumber))
    (hdropped : validatorChanged validators st = true ∨ 0 < newViewNumber ∨ 0 < newSeq →
      ∀ entry ∈ st.instances, entry.2.phase ≠ .commited →
      st.viewAfter newViewNumber ≤ entry.1.viewNumber →
      st.lastExeAfter newSeq < entry.1.sequence →
      ∀ mid : PbftState, st.Silent mid → trigger.dropped mid entry.1) :
    Moves crypto key trigger
      (if validatorChanged validators st then setValidators crypto key validators st else st)
      (updateValidators crypto key validators proof st).1 := by
  obtain ⟨hview, hseq⟩ := updateTarget_lt htarget
  rw [updateValidators_eq, htarget]
  dsimp only
  by_cases henter : 0 < newViewNumber ∨ 0 < newSeq
  · rw [enterTarget_eq henter]
    split
    · -- what has been erased before is erased after raising the view and the sequence
      set told := setValidators crypto key validators st
      have hraise : Move crypto key trigger told (told.raised newViewNumber newSeq) :=
        raised_move hview hseq (henters henter told fun _ => id)
      have hclear : Move crypto key trigger (told.raised newViewNumber newSeq)
          (clearNotCommitedInstance (told.raised newViewNumber newSeq)) :=
        clearNotCommitedInstance_move fun entry hentry hphase hle hlt =>
          hdropped (Or.inr henter) entry hentry hphase hle hlt _ fun _ => id
      set first := (clearNotCommitedInstance (told.raised newViewNumber newSeq)).output
        .resetCloseTimer with hfirst
      have hagain : Move crypto key trigger first (clearNotCommitedInstance first) := by
        refine clearNotCommitedInstance_move fun entry hentry hphase _ _ => ?_
        obtain ⟨-, hkeep⟩ := List.mem_filter.mp hentry
        exact absurd (beq_iff_eq.mp hkeep) hphase
      exact .tail (.tail (.tail (.tail (.single hraise) hclear) (.resetCloseTimer _)) hagain)
        (.resetCloseTimer _)
    · have hraise : Move crypto key trigger st (st.raised newViewNumber newSeq) :=
        raised_move hview hseq (henters henter st fun _ => id)
      have hclear : Move crypto key trigger (st.raised newViewNumber newSeq)
          (clearNotCommitedInstance (st.raised newViewNumber newSeq)) :=
        clearNotCommitedInstance_move fun entry hentry hphase hle hlt =>
          hdropped (Or.inr henter) entry hentry hphase hle hlt _ fun _ => id
      exact .tail (.tail (.single hraise) hclear) (.resetCloseTimer _)
  · have hstay : ∀ mid, enterTarget newViewNumber newSeq mid = mid := by
      intro mid
      simp only [enterTarget, if_neg henter, if_neg (not_or.mp henter).2]
    rw [hstay]
    split
    · rename_i hchanged
      refine .tail (.single (clearNotCommitedInstance_move
        fun entry hentry hphase hle hlt => ?_)) (.resetCloseTimer _)
      refine hdropped (Or.inl hchanged) entry hentry hphase ?_ ?_ _ fun _ => id
      · rwa [PbftState.viewAfter, if_neg (not_or.mp henter).1]
      · rwa [PbftState.lastExeAfter, if_neg (not_or.mp henter).2]
    · exact .refl

/-! ## Events -/

/-- The event does not change the validators. -/
def Event.KeepsValidators (validators : List Bytes) : Event → Prop
  | .updateValidators validators' _ => validators' = validators
  | _ => True

/-- `env` arrives with the event and is put into the buffer of `pinstance`. -/
def Event.Delivers (crypto : Crypto) (event : Event) (st : PbftState) (pinstance : PbftInstance)
    (env : PbftEnv) : Prop :=
  ∃ checkValue now, event = .recv env checkValue now ∧ st.Receives crypto env now pinstance

/-- `env` arrives with the event and is counted without being buffered. -/
def Event.DeliversStray (crypto : Crypto) (event : Event) (st : PbftState) (env : PbftEnv) : Prop :=
  ∃ checkValue now, event = .recv env checkValue now ∧ st.ReceivesStray crypto env

end Handlers

/-- The event makes a primary propose the value of the digest. -/
def Event.Proposes (crypto : Crypto) (event : Event) (st : PbftState) (digest : Bytes) : Prop :=
  ∃ value now, event = .request value now ∧ st.isPrimary st.viewNumber = true ∧
    st.viewActive = true ∧ digest = crypto.hash value

/-- The event erases an instance that is still to be agreed on after the event. -/
def Event.Forgets (crypto : Crypto) (event : Event) (st : PbftState) (index : PbftInstanceIndex) :
    Prop :=
  ∃ validators proof newViewNumber newSeq pinstance, event = .updateValidators validators proof ∧
    updateTarget crypto proof st = some (newViewNumber, newSeq) ∧
    (validatorChanged validators st = true ∨ 0 < newViewNumber ∨ 0 < newSeq) ∧
    (index, pinstance) ∈ st.instances ∧ pinstance.phase ≠ .commited ∧
    st.viewAfter newViewNumber ≤ index.viewNumber ∧ st.lastExeAfter newSeq < index.sequence

/-- The event makes the replica enter the view. -/
def Event.Enters (crypto : Crypto) (event : Event) (st : PbftState) (viewNumber : ℤ) : Prop :=
  (∃ env checkValue now, event = .recv env checkValue now ∧
      st.EntersOn crypto env now viewNumber) ∨
    ∃ validators proof newViewNumber newSeq, event = .updateValidators validators proof ∧
      updateTarget crypto proof st = some (newViewNumber, newSeq) ∧
      (0 < newViewNumber ∨ 0 < newSeq) ∧ viewNumber = st.viewAfter newViewNumber

/-- The event brings a prepared set. -/
def Event.BringsSet (crypto : Crypto) (event : Event) (st : PbftState)
    (preparedSet : PbftPreparedSet) : Prop :=
  ∃ env checkValue now, event = .recv env checkValue now ∧ st.BringsSet crypto env preparedSet

/-- What the event brings to a replica in the given state.  Before a message is buffered or a
value proposed nothing is handed out. -/
def Event.trigger (crypto : Crypto) (key : PrivateKey) (event : Event) (st : PbftState) :
    Trigger where
  received mid pinstance env := event.Delivers crypto st pinstance env ∧ mid.outputs = st.outputs
  stray := event.DeliversStray crypto st
  proposed mid env := mid = st ∧ event.Proposes crypto st env.pbft.prePrepare.valueDigest ∧
    env = newPrePrepare crypto key env.pbft.prePrepare.value (st.lastExeSeq + 1) st
  dropped mid index := st.Silent mid ∧ event.Forgets crypto st index
  enters mid viewNumber := (∀ promised, mid.Promised promised → st.Promised promised) ∧
    event.Enters crypto st viewNumber
  again mid index := ∃ currentTime, event = .timer currentTime ∧
    st.RepeatsCommit currentTime index ∧
    ∀ promised, mid.Promised promised → st.Promised promised ∨ st.Expires currentTime
  repeats mid viewNumber := ∃ currentTime, event = .timer currentTime ∧
    st.RepeatsViewChange currentTime viewNumber ∧
    (mid.viewActive = true → st.viewActive = true) ∧ mid.viewNumber = st.viewNumber
  brings preparedSet := preparedSet = default ∨ event.BringsSet crypto st preparedSet

section Runs

variable {crypto : Crypto} {key : PrivateKey} {st : PbftState} {validators : List Bytes}

/-- Other validators have been told: an event goes on from there. -/
def Event.told (crypto : Crypto) (key : PrivateKey) (event : Event) (st : PbftState) : PbftState :=
  match event with
  | .updateValidators validators proof =>
      if (updateTarget crypto proof st).isSome && validatorChanged validators st then
        setValidators crypto key validators st
      else st
  | _ => st

theorem told_cases (event : Event) : event.told crypto key st = st ∨
    ∃ validators, event.told crypto key st = setValidators crypto key validators st := by
  unfold Event.told
  split
  · split
    · exact Or.inr ⟨_, rfl⟩
    · exact Or.inl rfl
  · exact Or.inl rfl

theorem told_typed (event : Event) (htyped : st.Typed) : (event.told crypto key st).Typed := by
  rcases told_cases event with htold | ⟨_, htold⟩
  · rw [htold]
    exact htyped
  · rw [htold]
    exact htyped.mono rfl le_rfl le_rfl htyped.vcInstances

/-- **Every event is a sequence of moves**, after the validators have been told. -/
theorem step_moves_told (event : Event) (htyped : st.Typed) :
    Moves crypto key (event.trigger crypto key st) (event.told crypto key st)
      (step crypto key st event) := by
  cases event with
  | recv env checkValue now =>
      exact onRecv_moves checkValue now htyped
        (fun _ hreceives _ houtputs => ⟨⟨checkValue, now, rfl, hreceives⟩, houtputs⟩)
        (fun hstray => ⟨checkValue, now, rfl, hstray⟩)
        (fun _ henters _ hpromised =>
          ⟨hpromised, Or.inl ⟨env, checkValue, now, rfl, henters⟩⟩)
        fun _ hset => hset.imp_right fun hbrings => ⟨env, checkValue, now, rfl, hbrings⟩
  | request value now =>
      exact request_moves value now fun hprimary hactive =>
        ⟨rfl, ⟨value, now, rfl, hprimary, hactive, rfl⟩, rfl⟩
  | timer currentTime =>
      exact onTimer_moves currentTime htyped
        (fun _ hrepeats _ hpromised => ⟨currentTime, rfl, hrepeats, hpromised⟩)
        fun _ hrepeats _ hactive hview => ⟨currentTime, rfl, hrepeats, hactive, hview⟩
  | txTimeout => exact onTxTimeout_moves
  | newViewRepondTimer timer => exact onNewViewRepondTimer_moves timer
  | updateValidators validators proof =>
      rw [step, Event.told]
      cases htarget : updateTarget crypto proof st with
      | none =>
          rw [updateValidators_eq, htarget]
          exact .refl
      | some target =>
          obtain ⟨newViewNumber, newSeq⟩ := target
          refine updateValidators_moves validators htarget (fun henter mid hsilent =>
            ⟨fun _ => hsilent.promised, Or.inr ?_⟩)
            fun hclears entry hentry hphase hview hseq mid hsilent => ⟨hsilent, ?_⟩
          · exact ⟨validators, proof, newViewNumber, newSeq, rfl, htarget, henter, rfl⟩
          · exact ⟨validators, proof, newViewNumber, newSeq, entry.2, rfl, htarget, hclears,
              hentry, hphase, hview, hseq⟩

/-- Every event is a sequence of moves, as long as the validators do not change. -/
theorem step_moves {event : Event} (htyped : st.Typed)
    (hconf : st.Configured crypto key validators) (hkeeps : event.KeepsValidators validators) :
    Moves crypto key (event.trigger crypto key st) st (step crypto key st event) := by
  have htold : event.told crypto key st = st := by
    cases event with
    | updateValidators validators' proof =>
        obtain rfl : validators' = validators := hkeeps
        rw [Event.told, setValidators_of_configured hconf, ite_self]
    | _ => rfl
  have hmoves := @step_moves_told crypto key st event htyped
  rwa [htold] at hmoves

/-! ## Runs -/

theorem run_typed (events : List Event) : (run crypto key validators events).Typed := by
  induction events using List.reverseRecOn with
  | nil => exact initialState_typed
  | append_singleton events event ih =>
      rw [run, List.foldl_concat]
      exact (step_moves_told event ih).invariant (fun mid mid' hmove hmid => hmove.typed hmid)
        (told_typed event ih)

/-- Every event of the run keeps the validators and meets `good` in the state before it. -/
def RunMeets (good : Event → PbftState → Prop) (crypto : Crypto) (key : PrivateKey)
    (validators : List Bytes) (events : List Event) : Prop :=
  ∀ before event after, events = before ++ event :: after →
    event.KeepsValidators validators ∧ good event (run crypto key validators before)

theorem RunMeets.concat {good : Event → PbftState → Prop} {events : List Event} {event : Event}
    (hmeets : RunMeets good crypto key validators events)
    (hkeeps : event.KeepsValidators validators)
    (hgood : good event (run crypto key validators events)) :
    RunMeets good crypto key validators (events ++ [event]) := by
  intro before other after hsplit
  rcases List.eq_nil_or_concat after with rfl | ⟨after, last, rfl⟩
  · obtain ⟨rfl, hlast⟩ := List.append_inj' hsplit rfl
    obtain rfl := List.singleton_inj.mp hlast
    exact ⟨hkeeps, hgood⟩
  · rw [List.concat_eq_append, ← List.cons_append, ← List.append_assoc] at hsplit
    exact hmeets before other after (List.append_inj' hsplit rfl).1

/-- Every event of the run meets `good` in the state before it; the validators may change. -/
def RunObeys (good : Event → PbftState → Prop) (crypto : Crypto) (key : PrivateKey)
    (validators : List Bytes) (events : List Event) : Prop :=
  ∀ before event after, events = before ++ event :: after →
    good event (run crypto key validators before)

theorem RunObeys.of_append {good : Event → PbftState → Prop} {before after : List Event}
    (hobeys : RunObeys good crypto key validators (before ++ after)) :
    RunObeys good crypto key validators before := by
  rintro first event rest rfl
  exact hobeys first event (rest ++ after) (by simp)

/-- What holds at first and is kept by every event holds after a run. -/
theorem RunObeys.invariant {good : Event → PbftState → Prop} {inv : PbftState → Prop}
    {events : List Event} (hobeys : RunObeys good crypto key validators events)
    (hinit : inv (initialState crypto key validators))
    (hstep : ∀ st event, good event st → inv st → inv (step crypto key st event)) :
    inv (run crypto key validators events) := by
  induction events using List.reverseRecOn with
  | nil => exact hinit
  | append_singleton events event ih =>
      rw [run, List.foldl_concat]
      exact hstep _ event (hobeys events event [] rfl) (ih hobeys.of_append)

theorem run_invariant {good : Event → PbftState → Prop} {inv : PbftState → Prop}
    (hinit : inv (initialState crypto key validators))
    (hstep : ∀ st event, event.KeepsValidators validators → good event st → inv st →
      inv (step crypto key st event))
    (events : List Event) (hmeets : RunMeets good crypto key validators events) :
    inv (run crypto key validators events) := by
  have hobeys : RunObeys (fun event st => event.KeepsValidators validators ∧ good event st) crypto
    key validators events := hmeets
  exact hobeys.invariant hinit fun st event hgood => hstep st event hgood.1 hgood.2

/-- Whether the events of a run that goes on from the given state meet `good`. -/
def obeys? (good : Event → PbftState → Bool) (crypto : Crypto) (key : PrivateKey) :
    PbftState → List Event → Bool
  | _, [] => true
  | st, event :: events =>
      good event st && obeys? good crypto key (step crypto key st event) events

theorem runObeys_of_obeys? {good : Event → PbftState → Prop} (good? : Event → PbftState → Bool)
    (hgood : ∀ event st, good? event st = true → good event st) {events : List Event}
    (hobeys : obeys? good? crypto key (initialState crypto key validators) events = true) :
    RunObeys good crypto key validators events := by
  unfold RunObeys run
  generalize initialState crypto key validators = st at hobeys ⊢
  induction events generalizing st with
  | nil => simp
  | cons first events ih =>
      rw [obeys?, Bool.and_eq_true] at hobeys
      intro before event after hsplit
      cases before with
      | nil =>
          obtain ⟨rfl, -⟩ := List.cons.inj hsplit
          exact hgood _ _ hobeys.1
      | cons other before =>
          obtain ⟨rfl, hsplit'⟩ := List.cons.inj hsplit
          exact ih _ hobeys.2 before event after hsplit'

end Runs

end CegChain
