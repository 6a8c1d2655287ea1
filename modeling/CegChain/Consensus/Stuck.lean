import CegChain.Consensus.Execution
import CegChain.Consensus.System

/-!
# Committed values that get stuck

`TryExecuteValue` goes through the instances by view and then by sequence, and stops at
the first one that is neither executed nor next.  An instance of an older view with a higher
sequence therefore hides the ones after it, and a jump of the last executed sequence in
`UpdateValidators` is not followed by the loop at all.  Where neither happens, no COMMITED
instance is left next to the last executed sequence.
-/

namespace CegChain

/-- Nothing hides a COMMITED instance that is still to be executed: the instances are in
order, only one of them has a given sequence, and no older view is ahead of a COMMITED one. -/
structure PbftState.Clear (st : PbftState) : Prop where
  inOrder : OrderedMap.Ordered st.instances
  unique : ∀ entry ∈ st.instances, ∀ other ∈ st.instances, st.lastExeSeq < entry.1.sequence →
    other.1.sequence = entry.1.sequence → other.1 = entry.1
  behind : ∀ entry ∈ st.instances, entry.2.phase = .commited →
    st.lastExeSeq < entry.1.sequence → ∀ other ∈ st.instances,
      other.1.viewNumber < entry.1.viewNumber → other.1.sequence ≤ entry.1.sequence

/-- No COMMITED instance has the sequence after the last executed one. -/
def PbftState.NoneStuck (st : PbftState) : Prop :=
  ∀ entry ∈ st.instances, entry.2.phase = .commited → entry.1.sequence ≠ st.lastExeSeq + 1

/-- Nothing is stuck, and nothing is about to be. -/
structure PbftState.Flowing (st : PbftState) : Prop extends st.Clear where
  noneStuck : st.NoneStuck

section Clear

variable {crypto : Crypto} {key : PrivateKey} {st st' : PbftState} {index : PbftInstanceIndex}
  {pinstance old : PbftInstance} {env : PbftEnv}

/-- Instances go and the last executed sequence grows. -/
theorem PbftState.Clear.of_sublist (hclear : st.Clear)
    (hinstances : st'.instances.Sublist st.instances) (hlast : st.lastExeSeq ≤ st'.lastExeSeq) :
    st'.Clear where
  inOrder := ⟨hclear.inOrder.sorted.sublist hinstances,
    hclear.inOrder.nodup.sublist (hinstances.map _)⟩
  unique entry hentry other hother hseq :=
    hclear.unique entry (hinstances.subset hentry) other (hinstances.subset hother)
      (hlast.trans_lt hseq)
  behind entry hentry hphase hseq other hother :=
    hclear.behind entry (hinstances.subset hentry) hphase (hlast.trans_lt hseq) other
      (hinstances.subset hother)

/-- An instance is written over an old one, and becomes COMMITED only when no older view is
ahead of it. -/
theorem PbftState.Clear.setInstance (hclear : st.Clear) (hmem : (index, old) ∈ st.instances)
    (hnew : pinstance.phase = .commited → old.phase = .commited ∨ ∀ entry ∈ st.instances,
      entry.1.viewNumber < index.viewNumber → entry.1.sequence ≤ index.sequence) :
    (st.setInstance index pinstance).Clear := by
  -- every key of the new map is a key of the old one
  have hkeys : ∀ entry ∈ (st.setInstance index pinstance).instances,
      ∃ found, (entry.1, found) ∈ st.instances :=
    forall_mem_setInstance (fun entry hentry => ⟨entry.2, hentry⟩) ⟨old, hmem⟩
  constructor
  · exact hclear.inOrder.insert index pinstance
  · intro entry hentry other hother hseq hsame
    obtain ⟨found, hfound⟩ := hkeys entry hentry
    obtain ⟨found', hfound'⟩ := hkeys other hother
    exact hclear.unique (_, found) hfound (_, found') hfound' hseq hsame
  · intro entry hentry hphase hseq other hother hview
    obtain ⟨found', hfound'⟩ := hkeys other hother
    rcases mem_setInstance.mp hentry with rfl | ⟨hold, -⟩
    · rcases hnew hphase with hcommited | hahead
      · exact hclear.behind _ hmem hcommited hseq (_, found') hfound' hview
      · exact hahead (_, found') hfound' hview
    · exact hclear.behind entry hold hphase hseq (_, found') hfound' hview

namespace PbftState.Flowing

theorem of_eq (hflowing : st.Flowing) (hinstances : st'.instances = st.instances)
    (hlast : st'.lastExeSeq = st.lastExeSeq) : st'.Flowing := by
  refine ⟨hflowing.toClear.of_sublist (hinstances ▸ List.Sublist.refl _) hlast.ge, ?_⟩
  intro entry hentry
  rw [hlast]
  exact hflowing.noneStuck entry (hinstances ▸ hentry)

theorem keepInstances (hflowing : st.Flowing) (keep : PbftInstanceIndex → PbftInstance → Bool) :
    (st.keepInstances keep).Flowing :=
  ⟨hflowing.toClear.of_sublist List.filter_sublist le_rfl,
    fun entry hentry => hflowing.noneStuck entry (List.mem_of_mem_filter hentry)⟩

/-- An instance is written that is COMMITED only if the old one was. -/
theorem setInstance (hflowing : st.Flowing) (hmem : (index, old) ∈ st.instances)
    (hphase : pinstance.phase = .commited → old.phase = .commited) :
    (st.setInstance index pinstance).Flowing := by
  refine ⟨hflowing.toClear.setInstance hmem fun hnew => Or.inl (hphase hnew), ?_⟩
  exact forall_mem_setInstance hflowing.noneStuck fun hnew =>
    hflowing.noneStuck (index, old) hmem (hphase hnew)

theorem keepPrepared (hflowing : st.Flowing) : (keepPrepared st).Flowing :=
  hflowing.keepInstances _

theorem clearNotCommitedInstance (hflowing : st.Flowing) :
    (clearNotCommitedInstance st).Flowing :=
  hflowing.keepInstances _

theorem sendMessage (hflowing : st.Flowing) (env : PbftEnv) : (st.sendMessage env).Flowing :=
  hflowing.of_eq sendMessage_instances sendMessage_lastExeSeq

end PbftState.Flowing

/-! ## The loop -/

theorem tryExecuteLoop_sublist (rest : List (PbftInstanceIndex × PbftInstance)) (st : PbftState) :
    (tryExecuteLoop rest st).instances.Sublist st.instances ∧
      st.lastExeSeq ≤ (tryExecuteLoop rest st).lastExeSeq := by
  induction rest generalizing st with
  | nil => exact ⟨List.Sublist.refl _, le_rfl⟩
  | cons entry rest ih =>
      obtain ⟨index, pinstance⟩ := entry
      rw [tryExecuteLoop]
      split_ifs
      · exact ih st
      · obtain ⟨hsublist, hle⟩ := ih _
        exact ⟨hsublist.trans List.filter_sublist, (Int.le_add_one le_rfl).trans hle⟩
      · exact ⟨List.Sublist.refl _, le_rfl⟩

/-- When the loop stops at an instance, no COMMITED one behind it is next. -/
theorem not_next_of_stop {rest : List (PbftInstanceIndex × PbftInstance)} {full : PbftState}
    (hclear : full.Clear) (hrest : ((index, pinstance) :: rest).Sublist full.instances)
    {entry : PbftInstanceIndex × PbftInstance}
    (hentry : entry ∈ rest) (hphase : entry.2.phase = .commited)
    (hle : entry.1.sequence ≤ index.sequence) (hdue : full.lastExeSeq < entry.1.sequence) :
    False := by
  have hmem := hrest.subset (List.mem_cons_of_mem _ hentry)
  have hhead := hrest.subset List.mem_cons_self
  have hsorted := (List.pairwise_cons.mp (hclear.inOrder.sorted.sublist hrest)).1 entry hentry
  have hnodup := hclear.inOrder.nodup.sublist (hrest.map Prod.fst)
  have hne : index ≠ entry.1 := by
    intro heq
    rw [List.map_cons, List.nodup_cons] at hnodup
    rw [heq] at hnodup
    exact hnodup.1 (List.mem_map.mpr ⟨entry, hentry, rfl⟩)
  -- the two have one sequence, whether they are of one view or not
  have heq : index.sequence = entry.1.sequence := by
    rcases PbftInstanceIndex.le_iff.mp hsorted with hview | ⟨-, hseq⟩
    · exact le_antisymm (hclear.behind entry hmem hphase hdue _ hhead hview) hle
    · exact le_antisymm hseq hle
  exact hne (hclear.unique entry hmem _ hhead hdue heq)

/-- The loop leaves no COMMITED instance next to the last executed sequence.  What it has
passed is executed, and what it stops at hides nothing. -/
theorem tryExecuteLoop_noneStuck {full : PbftState} (hclear : full.Clear)
    (rest : List (PbftInstanceIndex × PbftInstance)) (st : PbftState)
    (hrest : rest.Sublist full.instances) (hlast : full.lastExeSeq ≤ st.lastExeSeq)
    (hseen : ∀ entry ∈ st.instances, entry ∈ rest ∨ entry.1.sequence ≤ st.lastExeSeq) :
    (tryExecuteLoop rest st).NoneStuck := by
  induction rest generalizing st with
  | nil =>
      intro entry hentry _ hnext
      have hpassed := (hseen entry hentry).resolve_left List.not_mem_nil
      rw [tryExecuteLoop] at hnext
      omega
  | cons head rest ih =>
      obtain ⟨index, pinstance⟩ := head
      have hrest' := (List.sublist_cons_self _ _).trans hrest
      rw [tryExecuteLoop]
      split_ifs with hpassed hnext
      · -- it has been executed
        refine ih st hrest' hlast fun entry hentry => ?_
        rcases hseen entry hentry with hmem | hdone
        · rcases List.mem_cons.mp hmem with rfl | hmem
          · exact Or.inr hpassed
          · exact Or.inl hmem
        · exact Or.inr hdone
      · -- it is executed now
        refine ih _ hrest' (hlast.trans (Int.le_add_one le_rfl)) fun entry hentry => ?_
        rcases hseen entry (List.mem_of_mem_filter hentry) with hmem | hdone
        · rcases List.mem_cons.mp hmem with rfl | hmem
          · exact Or.inr hnext.1.le
          · exact Or.inl hmem
        · exact Or.inr (hdone.trans (Int.le_add_one le_rfl))
      · -- it is waited for
        intro entry hentry hphase heq
        rcases hseen entry hentry with hmem | hdone
        · rcases List.mem_cons.mp hmem with rfl | hmem
          · exact hnext ⟨heq, by rw [hphase]⟩
          · exact not_next_of_stop hclear hrest hmem hphase (by omega) (by omega)
        · omega

/-- Where nothing is hidden, `TryExecuteValue` executes all that can be executed. -/
theorem tryExecuteValue_flowing (hclear : st.Clear) : (tryExecuteValue st).Flowing := by
  obtain ⟨hsublist, hle⟩ := tryExecuteLoop_sublist st.instances st
  exact ⟨hclear.of_sublist hsublist hle,
    tryExecuteLoop_noneStuck hclear _ st (List.Sublist.refl _) le_rfl fun _ => Or.inl⟩

/-! ## Messages of an instance -/

/-- No instance of an older view is ahead of the given one. -/
def PbftState.Leads (index : PbftInstanceIndex) (st : PbftState) : Prop :=
  ∀ entry ∈ st.instances, entry.1.viewNumber < index.viewNumber →
    entry.1.sequence ≤ index.sequence

/-- What every handler of the messages of an instance keeps. -/
structure PbftState.FlowingAt (index : PbftInstanceIndex) (st : PbftState) : Prop
    extends st.Flowing where
  leads : st.Leads index

namespace PbftState.FlowingAt

theorem sendMessage (hflowing : st.FlowingAt index) (env : PbftEnv) :
    (st.sendMessage env).FlowingAt index :=
  ⟨hflowing.toFlowing.sendMessage env, by
    unfold PbftState.Leads
    rw [sendMessage_instances]
    exact hflowing.leads⟩

theorem setInstance (hflowing : st.FlowingAt index) (hmem : (index, old) ∈ st.instances)
    (hphase : pinstance.phase = .commited → old.phase = .commited) :
    (st.setInstance index pinstance).FlowingAt index :=
  ⟨hflowing.toFlowing.setInstance hmem hphase,
    forall_mem_setInstance hflowing.leads fun hview => absurd hview (lt_irrefl _)⟩

theorem pushBack (hflowing : st.FlowingAt index)
    (hlookup : st.instances.lookup index = some pinstance) (env : PbftEnv) :
    (st.setInstance index (pinstance.pushBack env)).FlowingAt index := by
  refine hflowing.setInstance (OrderedMap.mem_of_lookup hlookup) fun hphase => ?_
  rwa [pushBack_phase] at hphase

end PbftState.FlowingAt

theorem onPrePrepare_flowing (pbft : Pbft) (checkValueRet : CheckValueResult)
    (hflowing : st.FlowingAt index) (hlookup : st.instances.lookup index = some pinstance) :
    (onPrePrepare crypto key pbft index checkValueRet st).1.FlowingAt index := by
  have hmem := OrderedMap.mem_of_lookup hlookup
  simp only [onPrePrepare, getInstance_of_lookup hlookup]
  split_ifs
  · exact hflowing
  · exact hflowing
  · exact hflowing
  · exact hflowing
  · exact hflowing
  · exact hflowing.sendMessage _
  · exact hflowing.setInstance hmem (by simp)
  · exact (hflowing.setInstance hmem (by simp)).sendMessage _

theorem onPrepare_flowing (pbft : Pbft) (now : ℤ) (hflowing : st.FlowingAt index)
    (hlookup : st.instances.lookup index = some pinstance) :
    (onPrepare crypto key pbft index now st).1.FlowingAt index := by
  have hmem := OrderedMap.mem_of_lookup hlookup
  -- counting a PREPARE makes no instance COMMITED
  have hphase : ∀ quorumSize, (pinstance.withPrepare quorumSize pbft.prepare).phase = .commited →
      pinstance.phase = .commited := by
    intro quorumSize hcommited
    unfold PbftInstance.withPrepare at hcommited
    dsimp only at hcommited
    split_ifs at hcommited
    · exact hcommited
    · exact hcommited
  have heq := @onPrepare_eq crypto key st index pinstance ⟨pbft, default⟩ now hlookup
  rw [heq]
  dsimp only
  split_ifs
  · exact hflowing
  · refine PbftState.FlowingAt.sendMessage ?_ _
    exact hflowing.setInstance hmem (hphase st.quorumSize)
  · exact hflowing.setInstance hmem (hphase _)

theorem onCommit_flowing (pbft : Pbft) (now : ℤ) (hflowing : st.FlowingAt index)
    (hlookup : st.instances.lookup index = some pinstance) :
    (onCommit pbft index now st).1.FlowingAt index := by
  have hmem := OrderedMap.mem_of_lookup hlookup
  simp only [onCommit, getInstance_of_lookup hlookup]
  split_ifs
  · exact hflowing
  · exact hflowing
  · -- the instance has become COMMITED
    refine ⟨tryExecuteValue_flowing (hflowing.toClear.setInstance hmem fun _ =>
      Or.inr hflowing.leads), fun entry hentry => ?_⟩
    have hold := (tryExecuteLoop_sublist _ _).1.subset hentry
    exact forall_mem_setInstance hflowing.leads (fun hview => absurd hview (lt_irrefl _)) _ hold
  · exact hflowing.setInstance hmem id

theorem onPhaseMessage_flowing (pbft : Pbft) (checkValue : CheckValueResult) (now : ℤ)
    (hflowing : st.FlowingAt index) (hlookup : st.instances.lookup index = some pinstance) :
    (onPhaseMessage crypto key pbft index checkValue now st).1.FlowingAt index := by
  unfold onPhaseMessage
  split
  · exact onPrePrepare_flowing pbft checkValue hflowing hlookup
  · exact onPrepare_flowing pbft now hflowing hlookup
  · exact onCommit_flowing pbft now hflowing hlookup
  · exact hflowing

theorem goLoop_flowing (checkValue : CheckValueResult) (now : ℤ) (fuel : ℕ) (doret : Bool)
    (st : PbftState) (hflowing : st.FlowingAt index) :
    (goLoop crypto key index checkValue now fuel doret st).1.FlowingAt index := by
  induction fuel generalizing doret st with
  | zero => exact hflowing
  | succ fuel ih =>
      rw [goLoop]
      simp only
      split
      · exact hflowing
      · rename_i env hitem
        have hmem := OrderedMap.mem_of_lookup (lookup_of_phaseBuf hitem)
        exact ih _ _ (onPhaseMessage_flowing _ _ _ (hflowing.setInstance hmem id)
          lookup_setInstance_self)

theorem go_flowing (checkValue : CheckValueResult) (now : ℤ) (hflowing : st.FlowingAt index)
    (hlookup : st.instances.lookup index = some pinstance) :
    (go crypto key env index checkValue now st).1.FlowingAt index := by
  unfold go
  dsimp only
  split_ifs
  · exact onPhaseMessage_flowing _ _ _ hflowing hlookup
  · exact goLoop_flowing _ _ _ _ st hflowing

/-- Beyond the watermark nothing is kept. -/
theorem tryDoTraceOut_flowing (hflowing : st.Flowing) (htyped : st.Typed) :
    (tryDoTraceOut index pinstance st).Flowing := by
  unfold tryDoTraceOut
  split_ifs with hjump
  · have hnil : (st.instances.filter fun entry => decide (index.sequence < entry.1.sequence)) =
        [] := htyped.filter_eq_nil (by omega)
    refine ⟨⟨?_, ?_, ?_⟩, ?_⟩ <;>
      simp [PbftState.keepInstances, PbftState.output, PbftState.NoneStuck, hnil,
        OrderedMap.Ordered.nil]
  · exact hflowing

theorem traceOutPbftCommit_flowing (now : ℤ) (hflowing : st.Flowing) (htyped : st.Typed)
    (hleads : st.Leads ⟨env.pbft.commit.viewNumber, env.pbft.commit.sequence⟩) :
    (traceOutPbftCommit env now st).Flowing := by
  unfold traceOutPbftCommit
  dsimp only
  split_ifs with hsome
  · obtain ⟨pinstance, hlookup⟩ := Option.isSome_iff_exists.mp hsome
    exact (onCommit_flowing _ now ⟨hflowing, hleads⟩ hlookup).toFlowing
  · exact hflowing
  · exact tryDoTraceOut_flowing (hflowing.of_eq rfl rfl)
      (htyped.mono rfl le_rfl le_rfl htyped.vcInstances)

/-- A new instance hides nothing: it replaces the ones of older views at its sequence. -/
theorem create_flowing (now : ℤ) (hflowing : st.FlowingAt index) (htyped : st.Typed)
    (hview : index.viewNumber = st.viewNumber) :
    ((st.setInstance index (.new now)).keepInstances fun other _ =>
      !(other.viewNumber < index.viewNumber && other.sequence == index.sequence)).FlowingAt
        index := by
  -- an instance that is kept is the new one, or has been there and has another sequence
  have hkept : ∀ entry ∈ ((st.setInstance index (.new now)).keepInstances fun other _ =>
      !(other.viewNumber < index.viewNumber && other.sequence == index.sequence)).instances,
      entry = (index, .new now) ∨ entry ∈ st.instances ∧ entry.1.sequence ≠ index.sequence := by
    intro entry hentry
    obtain ⟨hmem, hkeep⟩ := List.mem_filter.mp hentry
    rcases mem_setInstance.mp hmem with rfl | ⟨hold, hne⟩
    · exact Or.inl rfl
    · refine Or.inr ⟨hold, fun hseq => ?_⟩
      have hle := htyped.view_le entry hold
      have hviews : entry.1.viewNumber ≠ index.viewNumber := fun heq =>
        hne (congrArg₂ PbftInstanceIndex.mk heq hseq)
      simp only [Bool.not_eq_true', Bool.and_eq_false_iff, decide_eq_false_iff_not,
        beq_eq_false_iff_ne] at hkeep
      omega
  refine ⟨⟨⟨(hflowing.inOrder.insert _ _).filter _, ?_, ?_⟩, ?_⟩, ?_⟩
  · intro entry hentry other hother hseq hsame
    rcases hkept entry hentry with rfl | ⟨hold, hne⟩
    · rcases hkept other hother with rfl | ⟨-, hne'⟩
      · rfl
      · exact absurd hsame hne'
    · rcases hkept other hother with rfl | ⟨hold', -⟩
      · exact absurd hsame.symm hne
      · exact hflowing.unique entry hold other hold' hseq hsame
  · intro entry hentry hphase hseq other hother hless
    rcases hkept entry hentry with rfl | ⟨hold, -⟩
    · simp [PbftInstance.new] at hphase
    · rcases hkept other hother with rfl | ⟨hold', -⟩
      · have hle := htyped.view_le entry hold
        rw [← hview] at hle
        exact absurd hless hle.not_gt
      · exact hflowing.behind entry hold hphase hseq other hold' hless
  · intro entry hentry hphase
    rcases hkept entry hentry with rfl | ⟨hold, -⟩
    · simp [PbftInstance.new] at hphase
    · exact hflowing.noneStuck entry hold hphase
  · intro entry hentry hless
    rcases hkept entry hentry with rfl | ⟨hold, -⟩
    · exact le_rfl
    · exact hflowing.leads entry hold hless

theorem recvInstance_flowing (checkValue : CheckValueResult) (now : ℤ)
    (hindex : env.pbft.index? = some index) (hflowing : st.Flowing) (htyped : st.Typed)
    (hleads : st.lastExeSeq < index.sequence → st.Leads index) :
    (createInstanceIfNotExist env index now st).1.Flowing ∧
      ((createInstanceIfNotExist env index now st).2 = true →
        (go crypto key env index checkValue now
          (createInstanceIfNotExist env index now st).1).1.Flowing) := by
  simp only [createInstanceIfNotExist]
  by_cases haway : ¬ st.inWaterMark index.sequence = true ∨ st.viewNumber ≠ index.viewNumber
  · -- a message from elsewhere: a COMMIT may still be counted
    rw [if_pos haway]
    split_ifs with hstray
    · have hkey : (⟨env.pbft.commit.viewNumber, env.pbft.commit.sequence⟩ : PbftInstanceIndex) =
          index := by
        unfold Pbft.index? at hindex
        rw [hstray.2] at hindex
        exact Option.some.inj hindex
      refine ⟨traceOutPbftCommit_flowing now hflowing htyped ?_, fun h => absurd h (by simp)⟩
      rw [hkey]
      exact hleads hstray.1
    · exact ⟨hflowing, fun h => absurd h (by simp)⟩
  rw [if_neg haway]
  by_cases hactive : st.viewActive = true
  swap
  · rw [if_pos hactive]
    exact ⟨hflowing, fun h => absurd h (by simp)⟩
  rw [if_neg (not_not.mpr hactive)]
  by_cases hdone : index.sequence ≤ st.lastExeSeq
  · rw [if_pos hdone]
    exact ⟨hflowing, fun h => absurd h (by simp)⟩
  rw [if_neg hdone]
  have hview := (not_not.mp (not_or.mp haway).2).symm
  have hat : st.FlowingAt index := ⟨hflowing, hleads (not_le.mp hdone)⟩
  by_cases hsome : (st.instances.lookup index).isSome = true
  · obtain ⟨pinstance, hlookup⟩ := Option.isSome_iff_exists.mp hsome
    rw [if_pos hsome, getInstance_of_lookup hlookup]
    have hpush := hat.pushBack hlookup env
    exact ⟨hpush.toFlowing, fun _ => (go_flowing _ _ hpush lookup_setInstance_self).toFlowing⟩
  · rw [if_neg hsome]
    have hnew := lookup_keepInstances_new st index now
    rw [getInstance_of_lookup hnew]
    have hpush := (create_flowing now hat htyped hview).pushBack hnew env
    exact ⟨hpush.toFlowing, fun _ => (go_flowing _ _ hpush lookup_setInstance_self).toFlowing⟩

/-! ## View changes and timers -/

theorem processQuorumViewChange_flowing (viewNumber now : ℤ) (hflowing : st.Flowing) :
    (processQuorumViewChange crypto key viewNumber now st).1.Flowing := by
  dsimp only [processQuorumViewChange]
  split_ifs
  · exact (hflowing.sendMessage _).keepPrepared.of_eq rfl rfl
  · exact hflowing.of_eq rfl rfl

theorem onViewChangeWithRawValue_flowing (now : ℤ) (hflowing : st.Flowing) :
    (onViewChangeWithRawValue crypto key env now st).1.Flowing := by
  dsimp only [onViewChangeWithRawValue]
  split_ifs
  · exact hflowing
  · exact hflowing
  · exact processQuorumViewChange_flowing _ _ (hflowing.of_eq rfl rfl)
  · exact hflowing.of_eq rfl rfl

theorem onNewView_flowing (now : ℤ) (hflowing : st.Flowing) :
    (onNewView crypto env now st).1.Flowing := by
  dsimp only [onNewView]
  split_ifs
  · exact hflowing
  · exact hflowing
  · exact hflowing.of_eq rfl rfl
  · exact hflowing.of_eq rfl rfl
  · exact hflowing.keepPrepared.of_eq rfl rfl
  · exact hflowing.of_eq rfl rfl

theorem onTxTimeout_flowing (hflowing : st.Flowing) : (onTxTimeout crypto key st).Flowing := by
  unfold onTxTimeout
  split_ifs
  · refine PbftState.Flowing.sendMessage ?_ _
    exact hflowing.of_eq rfl rfl
  · exact hflowing

theorem onNewViewRepondTimer_flowing (timer : ℕ) (hflowing : st.Flowing) :
    (onNewViewRepondTimer crypto key timer st).Flowing := by
  unfold onNewViewRepondTimer
  split
  · exact hflowing
  · dsimp only
    split_ifs
    · exact hflowing.of_eq rfl rfl
    · refine PbftState.Flowing.sendMessage ?_ _
      exact hflowing.of_eq rfl rfl

/-- The primary drops what is not COMMITED, and a COMMITED instance does not have the sequence
that it proposes. -/
theorem propose_flowing (hflowing : st.Flowing) (htyped : st.Typed)
    (hphase : pinstance.phase ≠ .commited) :
    ((st.keepInstances fun index pinstance => !(decide (st.lastExeSeq < index.sequence) &&
        pinstance.phase.toNat < PbftInstancePhase.commited.toNat)).setInstance
      ⟨st.viewNumber, st.lastExeSeq + 1⟩ pinstance).Flowing := by
  set kept := st.keepInstances fun index pinstance => !(decide (st.lastExeSeq < index.sequence) &&
    pinstance.phase.toNat < PbftInstancePhase.commited.toNat) with hkept
  have hclear := hflowing.keepInstances fun index pinstance =>
    !(decide (st.lastExeSeq < index.sequence) &&
      pinstance.phase.toNat < PbftInstancePhase.commited.toNat)
  rw [← hkept] at hclear
  have hother : ∀ entry ∈ kept.instances, entry.1.sequence ≠ st.lastExeSeq + 1 := by
    intro entry hentry hseq
    obtain ⟨hmem, hkeep⟩ := List.mem_filter.mp hentry
    refine hflowing.noneStuck entry hmem ?_ hseq
    simp only [Bool.not_eq_true', Bool.and_eq_false_iff, decide_eq_false_iff_not] at hkeep
    have hcommited := hkeep.resolve_left (not_not.mpr (by omega))
    cases hentryPhase : entry.2.phase with
    | commited => rfl
    | _ => exact absurd (by rw [hentryPhase]; decide) hcommited
  refine ⟨⟨hclear.inOrder.insert _ _, ?_, ?_⟩, ?_⟩
  · intro entry hentry other hother' hseq hsame
    rcases mem_setInstance.mp hentry with rfl | ⟨hold, -⟩
    · rcases mem_setInstance.mp hother' with rfl | ⟨hold', -⟩
      · rfl
      · exact absurd hsame (hother other hold')
    · rcases mem_setInstance.mp hother' with rfl | ⟨hold', -⟩
      · exact absurd hsame.symm (hother entry hold)
      · exact hclear.unique entry hold other hold' hseq hsame
  · intro entry hentry hcommited hseq other hother' hless
    rcases mem_setInstance.mp hentry with rfl | ⟨hold, -⟩
    · exact absurd hcommited hphase
    · rcases mem_setInstance.mp hother' with rfl | ⟨hold', -⟩
      · exact absurd hless (htyped.view_le entry (List.mem_of_mem_filter hold)).not_gt
      · exact hclear.behind entry hold hcommited hseq other hold' hless
  · exact forall_mem_setInstance hclear.noneStuck fun hcommited => absurd hcommited hphase

theorem request_flowing (value : Bytes) (now : ℤ) (hflowing : st.Flowing) (htyped : st.Typed) :
    (request crypto key value now st).1.Flowing := by
  unfold request
  dsimp only
  split_ifs
  · refine PbftState.Flowing.sendMessage ?_ _
    exact propose_flowing hflowing htyped (by simp)
  · exact hflowing
  · exact hflowing

theorem foldl_flowing {α : Type*} {body : PbftState → α → PbftState}
    (hbody : ∀ st a, st.Flowing → (body st a).Flowing) (as : List α) (hflowing : st.Flowing) :
    (as.foldl body st).Flowing := by
  induction as generalizing st with
  | nil => exact hflowing
  | cons a as ih => exact ih (hbody st a hflowing)

theorem sendPrepareAgain_flowing (currentTime : ℤ) (hflowing : st.Flowing)
    (hmem : (index, pinstance) ∈ st.instances) :
    (sendPrepareAgain crypto key currentTime index pinstance st).Flowing := by
  unfold sendPrepareAgain
  split
  · dsimp only
    split_ifs
    · refine PbftState.Flowing.sendMessage ?_ _
      exact hflowing.setInstance hmem id
    · exact hflowing
  · exact hflowing

theorem onTimerInstance_flowing (currentTime : ℤ) (st : PbftState) (index : PbftInstanceIndex)
    (hflowing : st.Flowing) : (onTimerInstance crypto key currentTime st index).Flowing := by
  unfold onTimerInstance
  split
  · exact hflowing
  · rename_i pinstance hlookup
    have hmem := OrderedMap.mem_of_lookup hlookup
    dsimp only
    split_ifs
    · have hexpired : ((onTxTimeout crypto key st).setInstance index
          { pinstance with haveSendViewchange := true }).Flowing := by
        have hkept : (index, pinstance) ∈ (onTxTimeout crypto key st).instances := by
          rwa [onTxTimeout_instances]
        exact (onTxTimeout_flowing hflowing).setInstance hkept id
      exact sendPrepareAgain_flowing currentTime hexpired mem_setInstance_self
    · exact sendPrepareAgain_flowing currentTime hflowing hmem

theorem onTimerCommit_flowing (currentTime : ℤ) (hflowing : st.Flowing) :
    (onTimerCommit crypto key currentTime st).Flowing := by
  unfold onTimerCommit
  split
  · exact hflowing
  · rename_i index pinstance hlast
    have hmem := List.mem_of_mem_filter (List.mem_of_getLast? hlast)
    dsimp only
    split_ifs
    · have hkept : ∀ env, (index, pinstance) ∈ (st.sendMessage env).instances := by
        intro env
        rwa [sendMessage_instances]
      exact (hflowing.sendMessage _).setInstance (hkept _) id
    · exact hflowing

theorem onTimerViewChange_flowing (currentTime : ℤ) (st : PbftState) (viewNumber : ℤ)
    (hflowing : st.Flowing) : (onTimerViewChange crypto key currentTime st viewNumber).Flowing := by
  unfold onTimerViewChange
  split
  · exact hflowing
  · split
    · exact hflowing
    · dsimp only
      split_ifs
      · refine PbftState.Flowing.sendMessage ?_ _
        exact hflowing.of_eq rfl rfl
      · exact hflowing

theorem onTimerNewView_flowing (currentTime : ℤ) (hflowing : st.Flowing) :
    (onTimerNewView crypto key currentTime st).Flowing := by
  unfold onTimerNewView
  split
  · exact hflowing
  · refine PbftState.Flowing.sendMessage ?_ _
    exact hflowing.of_eq rfl rfl

theorem onTimer_flowing (currentTime : ℤ) (hflowing : st.Flowing) :
    (onTimer crypto key currentTime st).Flowing := by
  have hfirst := foldl_flowing (@onTimerInstance_flowing crypto key currentTime)
    (st.instances.map Prod.fst) hflowing
  exact onTimerNewView_flowing currentTime (foldl_flowing (onTimerViewChange_flowing currentTime)
    _ (onTimerCommit_flowing currentTime hfirst))

/-! ## Events -/

/-- Nothing hides what the event brings.  A message of an instance that is still to be
executed does not come while the replica keeps an instance of an older view with a higher
sequence, and `UpdateValidators` does not move the last executed sequence right before a
COMMITED instance. -/
def Event.Unhindered (crypto : Crypto) : Event → PbftState → Prop
  | .recv env _ _, st => ∀ index ∈ env.pbft.index?, st.lastExeSeq < index.sequence →
      st.Leads index
  | .updateValidators _ proof, st => ∀ target ∈ updateTarget crypto proof st, 0 < target.2 →
      ∀ entry ∈ st.instances, entry.2.phase = .commited → entry.1.sequence ≠ target.2 + 1
  | _, _ => True

theorem onRecv_flowing (checkValue : CheckValueResult) (now : ℤ) (hflowing : st.Flowing)
    (htyped : st.Typed) (hleads : ∀ index ∈ env.pbft.index?, st.lastExeSeq < index.sequence →
      st.Leads index) :
    (onRecv crypto key env checkValue now st).1.Flowing := by
  unfold onRecv
  by_cases hcheck : checkMessageItem crypto st.validators env = true
  swap
  · rw [if_pos hcheck]
    exact hflowing
  rw [if_neg (not_not.mpr hcheck)]
  split
  · rename_i index hindex
    obtain ⟨hcreate, hgo⟩ := @recvInstance_flowing crypto key st index env
      (if env.pbft.type = .preprepare then checkValue else .valid) now hindex hflowing htyped
      (hleads index hindex)
    dsimp only
    split
    · rename_i hfound
      exact hgo hfound
    · exact hcreate
  · split
    · exact onViewChangeWithRawValue_flowing now hflowing
    · exact onNewView_flowing now hflowing
    · exact hflowing

/-- What `UpdateValidators` does when the last executed sequence jumps over nothing COMMITED. -/
theorem enterTarget_flowing {newViewNumber newSeq : ℤ} (hflowing : st.Flowing)
    (hlast : 0 < newSeq → st.lastExeSeq < newSeq)
    (hjump : 0 < newSeq → ∀ entry ∈ st.instances, entry.2.phase = .commited →
      entry.1.sequence ≠ newSeq + 1) :
    (enterTarget newViewNumber newSeq st).Flowing := by
  by_cases henter : 0 < newViewNumber ∨ 0 < newSeq
  · rw [enterTarget_eq henter]
    have hraised : (st.raised newViewNumber newSeq).Flowing := by
      by_cases hseq : 0 < newSeq
      · have hafter : (st.raised newViewNumber newSeq).lastExeSeq = newSeq := if_pos hseq
        refine ⟨hflowing.toClear.of_sublist (List.Sublist.refl _) ?_, ?_⟩
        · rw [hafter]
          exact (hlast hseq).le
        · intro entry hentry hphase
          rw [hafter]
          exact hjump hseq entry hentry hphase
      · exact hflowing.of_eq rfl (if_neg hseq)
    exact hraised.clearNotCommitedInstance.of_eq rfl rfl
  · have hsame : enterTarget newViewNumber newSeq st = st := by
      unfold enterTarget
      rw [if_neg fun hseq => henter (Or.inr hseq), if_neg henter]
    rw [hsame]
    exact hflowing

theorem updateValidators_flowing (validators : List Bytes) (proof : Bytes)
    (hflowing : st.Flowing)
    (hjump : ∀ target ∈ updateTarget crypto proof st, 0 < target.2 →
      ∀ entry ∈ st.instances, entry.2.phase = .commited → entry.1.sequence ≠ target.2 + 1) :
    (updateValidators crypto key validators proof st).1.Flowing := by
  rw [updateValidators_eq]
  cases htarget : updateTarget crypto proof st with
  | none => exact hflowing
  | some target =>
      have hjump' := hjump target htarget
      have hlast := (updateTarget_lt htarget).2
      dsimp only
      split
      · refine enterTarget_flowing ?_ hlast fun hseq entry hentry => ?_
        · have hset : (setValidators crypto key validators st).Flowing := hflowing.of_eq rfl rfl
          exact hset.clearNotCommitedInstance.of_eq rfl rfl
        · exact hjump' hseq entry (List.mem_of_mem_filter hentry)
      · exact enterTarget_flowing hflowing hlast hjump'

theorem PbftState.Flowing.step (hflowing : st.Flowing) (htyped : st.Typed) {event : Event}
    (hevent : event.Unhindered crypto st) : (step crypto key st event).Flowing := by
  cases event with
  | recv env checkValue now => exact onRecv_flowing checkValue now hflowing htyped hevent
  | request value now => exact request_flowing value now hflowing htyped
  | timer currentTime => exact onTimer_flowing currentTime hflowing
  | txTimeout => exact onTxTimeout_flowing hflowing
  | newViewRepondTimer timer => exact onNewViewRepondTimer_flowing timer hflowing
  | updateValidators validators proof =>
      exact updateValidators_flowing validators proof hflowing hevent

/-! ## Runs -/

variable {validators : List Bytes}

theorem initialState_flowing : (initialState crypto key validators).Flowing := by
  refine ⟨⟨.nil, ?_, ?_⟩, ?_⟩ <;> simp [initialState, setValidators, PbftState.NoneStuck]

theorem run_flowing {events : List Event}
    (hobeys : RunObeys (Event.Unhindered crypto) crypto key validators events) :
    (run crypto key validators events).Flowing := by
  induction events using List.reverseRecOn with
  | nil => exact initialState_flowing
  | append_singleton events event ih =>
      rw [run, List.foldl_concat]
      exact (ih hobeys.of_append).step (run_typed events) (hobeys events event [] rfl)

/-- **Committed values are executed.**  In every run in which nothing hides what an event brings,
no COMMITED instance has, after any event, the sequence after the last executed one. -/
theorem none_stuck_of_unhindered (crypto : Crypto) (key : PrivateKey) (validators : List Bytes)
    (events : List Event)
    (hobeys : RunObeys (Event.Unhindered crypto) crypto key validators events) :
    ∀ before after, events = before ++ after →
      ∀ entry ∈ (run crypto key validators before).instances, entry.2.phase = .commited →
        entry.1.sequence ≠ (run crypto key validators before).lastExeSeq + 1 := by
  rintro before after rfl
  exact (run_flowing hobeys.of_append).noneStuck

end Clear

/-! ## A proposal ahead of its turn -/

instance (index : PbftInstanceIndex) (st : PbftState) : Decidable (st.Leads index) :=
  inferInstanceAs (Decidable (∀ entry ∈ st.instances,
    entry.1.viewNumber < index.viewNumber → entry.1.sequence ≤ index.sequence))

instance (crypto : Crypto) (st : PbftState) :
    (event : Event) → Decidable (event.Unhindered crypto st)
  | .recv env _ _ => inferInstanceAs (Decidable (∀ index ∈ env.pbft.index?,
      st.lastExeSeq < index.sequence → st.Leads index))
  | .updateValidators _ proof =>
      inferInstanceAs (Decidable (∀ target ∈ updateTarget crypto proof st,
      0 < target.2 → ∀ entry ∈ st.instances, entry.2.phase = .commited →
        entry.1.sequence ≠ target.2 + 1))
  | .request .. | .timer _ | .txTimeout | .newViewRepondTimer _ => inferInstanceAs (Decidable True)

namespace Sample

/-- The messages with which the value `[7]` is agreed on at sequence 2 of the given view. -/
def agreeOn (viewNumber : ℤ) (primary : UInt8) : List PbftEnv :=
  [proposal primary viewNumber [7], prepareFor 2 viewNumber [7], prepareFor 3 viewNumber [7],
    commitFor 1 viewNumber [7], commitFor 2 viewNumber [7], commitFor 3 viewNumber [7]]

/-- The primary of view 0 proposes a value at sequence 3, before there is one at sequence 2, and
two validators prepare it. -/
def proposeAhead : List PbftEnv :=
  [sign 0 { (default : Pbft) with
      roundNumber := 1, type := .preprepare, prePrepare? := some ⟨0, 3, 0, [8], [1, 8]⟩ },
    sign 1 { (default : Pbft) with
      roundNumber := 1, type := .prepare, prepare? := some ⟨0, 3, 1, [1, 8]⟩ },
    sign 3 { (default : Pbft) with
      roundNumber := 1, type := .prepare, prepare? := some ⟨0, 3, 3, [1, 8]⟩ }]

/-- A message arrives. -/
def receive (env : PbftEnv) : Event := .recv env .valid 0

end Sample

open Sample in
/-- Replica 2 agrees on the value at sequence 2 in view 0, and executes it. -/
theorem none_stuck_agree :
    let events := (agreeOn 0 0).map receive ++ [.updateValidators Sample.validators [0, 1, 2]]
    (run Sample.crypto (Sample.key 2) Sample.validators events).lastExeSeq = 2 ∧
      ∀ before after, events = before ++ after →
        ∀ entry ∈ (run Sample.crypto (Sample.key 2) Sample.validators before).instances,
          entry.2.phase = .commited → entry.1.sequence ≠
            (run Sample.crypto (Sample.key 2) Sample.validators before).lastExeSeq + 1 := by
  intro events
  refine ⟨by decide +kernel, none_stuck_of_unhindered Sample.crypto (Sample.key 2)
    Sample.validators events ?_⟩
  exact runObeys_of_obeys? (fun event st => decide (event.Unhindered Sample.crypto st))
    (fun _ _ => of_decide_eq_true) (by decide +kernel)

open Sample in
/-- Replica 2 has prepared the value at sequence 3 of view 0 when view 1 begins.  The value of
view 1 at sequence 2 becomes COMMITED and is not executed. -/
theorem stuck_behind_proposeAhead :
    let events := (proposeAhead ++ newView 1 [sign 0 (viewChangeOf 0), sign 1 (viewChangeOf 1),
      sign 3 (viewChangeOf 3)] :: agreeOn 1 1).map receive
    let st := run Sample.crypto (Sample.key 2) Sample.validators events
    st.lastExeSeq = 1 ∧
      ∃ entry ∈ st.instances, entry.2.phase = .commited ∧ entry.1.sequence = st.lastExeSeq + 1 := by
  decide +kernel

end CegChain
