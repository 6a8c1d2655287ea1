import CegChain.Consensus.Certificate
import CegChain.Consensus.Execution
import Mathlib.Data.Int.ConditionallyCompleteOrder
import Mathlib.Data.List.MinMax
import Mathlib.Data.Prod.Lex

/-!
# The value that a new primary proposes again

A view change may bring a prepared set, and the primary of the new view proposes the value of one
of these sets again.  `OnViewChangeWithRawValue` keeps a set while it waits for the quorum, and
replaces it by one with a higher sequence.  The view of the sets is not compared.  So the value
is that of the set that has come first among those with the highest sequence
(`handedOver_deliver`), and this need not be the one with the highest view.

The value is the right one in whatever order the messages are delivered just if in every order
the first of the sets with the highest sequence has the value of those that have the highest
view as well (`reproposes_iff`).
-/

namespace CegChain

/-! ## Prepared sets -/

namespace PbftPreparedSet

variable (preparedSet : PbftPreparedSet)

/-- The sequence of the PRE-PREPARE. -/
def sequence : ℤ := preparedSet.prePrepare.pbft.prePrepare.sequence

/-- The value of the PRE-PREPARE. -/
def value : Bytes := preparedSet.prePrepare.pbft.prePrepare.value

/-- The sequence, and then the view. -/
def rank : ℤ ×ₗ ℤ :=
  toLex (preparedSet.sequence, preparedSet.prePrepare.pbft.prePrepare.viewNumber)

end PbftPreparedSet

/-- The set is one with the highest sequence, and with the highest view of those. -/
def BestSet (sets : List PbftPreparedSet) (best : PbftPreparedSet) : Prop :=
  best ∈ sets ∧ ∀ other ∈ sets, other.rank ≤ best.rank

/-- The value is that of the best sets, and it is empty just if there are no sets. -/
structure RightValue (sets : List PbftPreparedSet) (value : Bytes) : Prop where
  best : ∀ best, BestSet sets best → value = best.value
  empty : value = [] ↔ sets = []

/-- The first of the sets with the highest sequence has the value of the best ones, which is not
empty. -/
def FirstIsRight (sets : List PbftPreparedSet) : Prop :=
  ∀ first ∈ sets.argmax PbftPreparedSet.sequence,
    first.value ≠ [] ∧ ∀ best, BestSet sets best → best.value = first.value

theorem exists_bestSet {sets : List PbftPreparedSet} (hne : sets ≠ []) :
    ∃ best, BestSet sets best := by
  cases hmax : sets.argmax PbftPreparedSet.rank with
  | none => exact absurd (List.argmax_eq_none.mp hmax) hne
  | some best =>
      exact ⟨best, List.argmax_mem hmax, fun other hother => List.le_of_mem_argmax hother hmax⟩

/-- There is at most one right value. -/
theorem RightValue.unique {sets : List PbftPreparedSet} {value value' : Bytes}
    (hright : RightValue sets value) (hright' : RightValue sets value') : value = value' := by
  by_cases hne : sets = []
  · rw [hright.empty.mpr hne, hright'.empty.mpr hne]
  · obtain ⟨best, hbest⟩ := exists_bestSet hne
    rw [hright.best best hbest, hright'.best best hbest]

theorem RightValue.of_mem_iff {sets sets' : List PbftPreparedSet} {value : Bytes}
    (hright : RightValue sets value) (hmem : ∀ set, set ∈ sets' ↔ set ∈ sets) :
    RightValue sets' value where
  best best hbest := by
    refine hright.best best ⟨(hmem best).mp hbest.1, fun other hother => ?_⟩
    exact hbest.2 other ((hmem other).mpr hother)
  empty := by
    rw [hright.empty, List.eq_nil_iff_forall_not_mem, List.eq_nil_iff_forall_not_mem]
    exact forall_congr' fun set => not_congr (hmem set).symm

/-- The value of the first set with the highest sequence is the right one, or not. -/
theorem rightValue_first_iff (sets : List PbftPreparedSet) :
    RightValue sets (((sets.argmax PbftPreparedSet.sequence).map PbftPreparedSet.value).getD []) ↔
      FirstIsRight sets := by
  cases hmax : sets.argmax PbftPreparedSet.sequence with
  | none =>
      obtain rfl := List.argmax_eq_none.mp hmax
      refine iff_of_true ⟨fun best hbest => absurd hbest.1 List.not_mem_nil, by simp⟩ ?_
      intro first hfirst
      cases hfirst
  | some first =>
      have hne : sets ≠ [] := List.ne_nil_of_mem (List.argmax_mem hmax)
      rw [Option.map_some, Option.getD_some, FirstIsRight, hmax]
      constructor
      · rintro ⟨hbest, hempty⟩ first' hfirst'
        obtain rfl := Option.some.inj hfirst'
        exact ⟨fun hnil => hne (hempty.mp hnil), fun best h => (hbest best h).symm⟩
      · intro hfirst
        obtain ⟨hvalue, hbest⟩ := hfirst first rfl
        exact ⟨fun best h => (hbest best h).symm, iff_of_false hvalue hne⟩

/-- The sets all have the same value. -/
theorem firstIsRight_of_same {sets : List PbftPreparedSet} {value : Bytes} (hvalue : value ≠ [])
    (hsame : ∀ set ∈ sets, set.value = value) : FirstIsRight sets := by
  intro first hfirst
  rw [hsame first (List.argmax_mem hfirst)]
  exact ⟨hvalue, fun best hbest => hsame best hbest.1⟩

/-! ## Deliveries -/

/-- A view change that is delivered. -/
structure Arrival where
  env : PbftEnv
  checkValue : CheckValueResult
  now : ℤ

namespace Arrival

variable (arrival : Arrival)

def event : Event := .recv arrival.env arrival.checkValue arrival.now

/-- The view change in the message. -/
def viewChange : PbftViewChange :=
  arrival.env.pbft.viewChangeWithRawvalue.viewChangeEnv.pbft.viewChange

end Arrival

/-- The replicas that have sent the messages. -/
def senders (arrivals : List Arrival) : Finset ℤ :=
  (arrivals.map fun arrival => arrival.viewChange.replicaId).toFinset

/-- The prepared sets in the messages whose sequence has not been executed. -/
def preparedSets (lastExeSeq : ℤ) (arrivals : List Arrival) : List PbftPreparedSet :=
  (arrivals.filterMap fun arrival => arrival.env.pbft.viewChangeWithRawvalue.preparedSet?).filter
    fun preparedSet => decide (lastExeSeq < preparedSet.sequence)

/-- The messages are accepted view changes for this view, of which the replica is the primary and
has not yet received any; the last one completes the quorum. -/
structure Delivery (crypto : Crypto) (st : PbftState) (view : ℤ) (arrivals : List Arrival) :
    Prop where
  primary : st.isPrimary view = true
  later : st.viewNumber < view
  fresh : st.vcInstances.lookup view = none
  accepted : ∀ arrival ∈ arrivals, checkMessageItem crypto st.validators arrival.env = true ∧
    arrival.env.pbft.type = .viewchangWithRawvalue ∧ arrival.viewChange.viewNumber = view
  before : (senders arrivals.dropLast).card ≤ st.quorumSize
  quorum : st.quorumSize < (senders arrivals).card

/-- The same messages are delivered, in another order perhaps and some of them more often. -/
def SameMessages (arrivals arrivals' : List Arrival) : Prop :=
  ∀ env, env ∈ arrivals.map Arrival.env ↔ env ∈ arrivals'.map Arrival.env

/-- The value that was handed to `OnViewChanged` last. -/
def PbftState.handedOver (st : PbftState) : Option Bytes :=
  match st.outputs.getLast? with
  | some (.viewChanged lastConsvalue) => some lastConsvalue
  | _ => none

section Choice

variable {crypto : Crypto} {key : PrivateKey} {st st' : PbftState} {view lastExeSeq : ℤ}
  {arrivals : List Arrival} {arrival : Arrival}

/-- Deliver the messages one after the other. -/
def deliver (crypto : Crypto) (key : PrivateKey) (arrivals : List Arrival) (st : PbftState) :
    PbftState :=
  (arrivals.map Arrival.event).foldl (step crypto key) st

theorem preparedSets_concat (lastExeSeq : ℤ) (arrivals : List Arrival) (arrival : Arrival) :
    preparedSets lastExeSeq (arrivals ++ [arrival]) = preparedSets lastExeSeq arrivals ++
      (arrival.env.pbft.viewChangeWithRawvalue.preparedSet?.toList.filter
        fun preparedSet => decide (lastExeSeq < preparedSet.sequence)) := by
  unfold preparedSets
  rw [List.filterMap_append, List.filter_append]
  cases hset : arrival.env.pbft.viewChangeWithRawvalue.preparedSet? <;> simp [hset]

theorem mem_preparedSets {arrivals arrivals' : List Arrival}
    (hsame : SameMessages arrivals arrivals') (preparedSet : PbftPreparedSet) :
    preparedSet ∈ preparedSets lastExeSeq arrivals ↔
      preparedSet ∈ preparedSets lastExeSeq arrivals' := by
  have hsets : ∀ list : List Arrival, preparedSet ∈ preparedSets lastExeSeq list ↔
      (∃ env ∈ list.map Arrival.env, env.pbft.viewChangeWithRawvalue.preparedSet? =
        some preparedSet) ∧ lastExeSeq < preparedSet.sequence := by
    intro list
    simp [preparedSets]
  rw [hsets, hsets]
  refine and_congr_left' (exists_congr fun env => ?_)
  rw [hsame env]

/-! ## The view-change instance -/

/-- What a view-change instance has collected from the messages. -/
structure Collected (view lastExeSeq : ℤ) (arrivals : List Arrival)
    (vcInstance : PbftVcInstance) : Prop where
  viewNumber : vcInstance.viewNumber = view
  endTime : vcInstance.endTime = 0
  nodup : (vcInstance.viewchanges.map Prod.fst).Nodup
  senders : (vcInstance.viewchanges.map Prod.fst).toFinset = senders arrivals
  set : vcInstance.prePreparedEnvSet =
    ((preparedSets lastExeSeq arrivals).argmax PbftPreparedSet.sequence).getD default

theorem Collected.length_eq {vcInstance : PbftVcInstance}
    (hcollected : Collected view lastExeSeq arrivals vcInstance) :
    vcInstance.viewchanges.length = (CegChain.senders arrivals).card := by
  rw [← hcollected.senders, List.toFinset_card_of_nodup hcollected.nodup, List.length_map]

/-- The running maximum. -/
theorem argmax_concat_set (hexecuted : 0 ≤ lastExeSeq) (sets : List PbftPreparedSet)
    (preparedSet : PbftPreparedSet) :
    ((sets ++ [preparedSet].filter fun set => decide (lastExeSeq < set.sequence)).argmax
        PbftPreparedSet.sequence).getD default =
      if ((sets.argmax PbftPreparedSet.sequence).getD default).sequence < preparedSet.sequence ∧
          lastExeSeq < preparedSet.sequence then preparedSet
      else (sets.argmax PbftPreparedSet.sequence).getD default := by
  by_cases habove : lastExeSeq < preparedSet.sequence
  · rw [List.filter_singleton, decide_eq_true habove, cond_true, List.argmax_concat]
    cases sets.argmax PbftPreparedSet.sequence with
    | none =>
        have hdefault : (default : PbftPreparedSet).sequence < preparedSet.sequence :=
          lt_of_le_of_lt hexecuted habove
        rw [Option.getD_none, if_pos ⟨hdefault, habove⟩]
        rfl
    | some first =>
        simp only [Option.getD_some, habove, and_true]
        split <;> rfl
  · simp [habove]

/-- What `receive` writes. -/
theorem receive_fields (vcInstance : PbftVcInstance) (env : PbftEnv) (replicaId lastExeSeq : ℤ) :
    (vcInstance.receive env replicaId lastExeSeq).viewNumber = vcInstance.viewNumber ∧
      (vcInstance.receive env replicaId lastExeSeq).endTime = vcInstance.endTime ∧
      (vcInstance.receive env replicaId lastExeSeq).viewchanges =
        OrderedMap.insertNew
          env.pbft.viewChangeWithRawvalue.viewChangeEnv.pbft.viewChange.replicaId
          env.pbft.viewChangeWithRawvalue.viewChangeEnv.pbft.viewChange vcInstance.viewchanges ∧
      (vcInstance.receive env replicaId lastExeSeq).prePreparedEnvSet =
        match env.pbft.viewChangeWithRawvalue.preparedSet? with
        | none => vcInstance.prePreparedEnvSet
        | some preparedSet =>
            if vcInstance.prePreparedEnvSet.sequence < preparedSet.sequence ∧
                lastExeSeq < preparedSet.sequence then preparedSet
            else vcInstance.prePreparedEnvSet := by
  unfold PbftVcInstance.receive OrderedMap.insertNew
  dsimp only
  generalize env.pbft.viewChangeWithRawvalue.viewChangeEnv.pbft.viewChange = viewChange
  generalize env.pbft.viewChangeWithRawvalue.preparedSet? = preparedSet?
  -- the own message to repeat is not among these fields
  have hown : ∃ message?, (if viewChange.replicaId = replicaId ∧
      vcInstance.viewChangeMsg?.isNone = true then
        { vcInstance with viewChangeMsg? := some env } else vcInstance) =
      { vcInstance with viewChangeMsg? := message? } := by
    split
    · exact ⟨_, rfl⟩
    · exact ⟨_, rfl⟩
  obtain ⟨message?, hmessage⟩ := hown
  rw [hmessage]
  dsimp only
  cases preparedSet? with
  | none =>
      cases vcInstance.viewchanges.lookup viewChange.replicaId with
      | none => exact ⟨rfl, rfl, rfl, rfl⟩
      | some viewChange' => exact ⟨rfl, rfl, rfl, rfl⟩
  | some preparedSet =>
      by_cases hhigher : vcInstance.prePreparedEnvSet.sequence < preparedSet.sequence ∧
        lastExeSeq < preparedSet.sequence
      all_goals
        have hsequence := hhigher
        simp only [PbftPreparedSet.sequence] at hsequence
        cases vcInstance.viewchanges.lookup viewChange.replicaId with
        | none => simp [hsequence, hhigher]
        | some viewChange' => simp [hsequence, hhigher]

theorem Collected.receive {vcInstance : PbftVcInstance} (hexecuted : 0 ≤ lastExeSeq)
    (hcollected : Collected view lastExeSeq arrivals vcInstance) (arrival : Arrival)
    (replicaId : ℤ) :
    Collected view lastExeSeq (arrivals ++ [arrival])
      (vcInstance.receive arrival.env replicaId lastExeSeq) := by
  obtain ⟨hview, hend, hchanges, hset⟩ :=
    receive_fields vcInstance arrival.env replicaId lastExeSeq
  refine ⟨hview.trans hcollected.viewNumber, hend.trans hcollected.endTime, ?_, ?_, ?_⟩
  · rw [hchanges]
    exact OrderedMap.nodup_insertNew _ _ hcollected.nodup
  · rw [hchanges]
    ext id
    have hsender := Finset.ext_iff.mp hcollected.senders id
    rw [List.mem_toFinset] at hsender ⊢
    rw [OrderedMap.mem_keys_insertNew, hsender]
    simp [CegChain.senders, Arrival.viewChange, or_comm]
  · rw [hset, hcollected.set, preparedSets_concat]
    cases arrival.env.pbft.viewChangeWithRawvalue.preparedSet? with
    | none => simp
    | some preparedSet =>
        exact (argmax_concat_set hexecuted _ preparedSet).symm

/-! ## The replica -/

/-- While the quorum is not complete, only the instance changes. -/
structure Collecting (st : PbftState) (view : ℤ) (arrivals : List Arrival) (st' : PbftState) :
    Prop where
  rest : st' = { st with vcInstances := st'.vcInstances }
  collected : ∀ now seq, Collected view st.lastExeSeq arrivals
    ((st'.vcInstances.lookup view).getD { PbftVcInstance.new view now with seq := seq })

theorem step_arrival (haccepted : checkMessageItem crypto st.validators arrival.env = true)
    (htype : arrival.env.pbft.type = .viewchangWithRawvalue) :
    step crypto key st arrival.event =
      (onViewChangeWithRawValue crypto key arrival.env arrival.now st).1 := by
  have hindex : arrival.env.pbft.index? = none := by
    unfold Pbft.index?
    rw [htype]
  change (onRecv crypto key arrival.env arrival.checkValue arrival.now st).1 = _
  unfold onRecv
  simp only [haccepted, not_true_eq_false, if_false, hindex, htype]

theorem collecting_nil (hfresh : st.vcInstances.lookup view = none) :
    Collecting st view [] st := by
  refine ⟨rfl, fun now seq => ?_⟩
  rw [hfresh]
  exact ⟨rfl, rfl, List.nodup_nil, rfl, rfl⟩

/-- The instance of the view is stored, and the quorum is processed when it is complete. -/
theorem onViewChangeWithRawValue_of_lt {env : PbftEnv} {now : ℤ} {vcInstance : PbftVcInstance}
    (hview : env.pbft.viewChangeWithRawvalue.viewChangeEnv.pbft.viewChange.viewNumber = view)
    (hlater : st.viewNumber < view)
    (hreceived : ((st.vcInstances.lookup view).getD { PbftVcInstance.new view now with
      seq := env.pbft.viewChangeWithRawvalue.viewChangeEnv.pbft.viewChange.sequence }).receive
        env st.replicaId st.lastExeSeq = vcInstance) :
    onViewChangeWithRawValue crypto key env now st =
      if st.quorumSize < vcInstance.viewchanges.length ∧ vcInstance.endTime = 0 then
        processQuorumViewChange crypto key view now
          { st with vcInstances := OrderedMap.insert view vcInstance st.vcInstances }
      else ({ st with vcInstances := OrderedMap.insert view vcInstance st.vcInstances }, true) := by
  unfold onViewChangeWithRawValue
  dsimp only
  rw [hview, if_neg hlater.ne', if_neg hlater.not_gt, hreceived]
  rfl

section Step

variable (hcollecting : Collecting st view arrivals st') (hexecuted : 0 ≤ st.lastExeSeq)
  (hlater : st.viewNumber < view)
  (haccepted : checkMessageItem crypto st.validators arrival.env = true ∧
    arrival.env.pbft.type = .viewchangWithRawvalue ∧ arrival.viewChange.viewNumber = view)

include hcollecting hexecuted hlater haccepted

/-- What the next message does. -/
theorem Collecting.step_eq : ∃ vcInstance,
    Collected view st.lastExeSeq (arrivals ++ [arrival]) vcInstance ∧
      CegChain.step crypto key st' arrival.event =
        (if st.quorumSize < (senders (arrivals ++ [arrival])).card then
          processQuorumViewChange crypto key view arrival.now
            { st with vcInstances := OrderedMap.insert view vcInstance st'.vcInstances }
        else ({ st with vcInstances := OrderedMap.insert view vcInstance st'.vcInstances },
          true)).1 := by
  obtain ⟨hcheck, htype, hview⟩ := haccepted
  have hcollected := (hcollecting.collected arrival.now arrival.viewChange.sequence).receive
    hexecuted arrival st.replicaId
  refine ⟨_, hcollected, ?_⟩
  have hlength := hcollected.length_eq
  generalize hreceived : PbftVcInstance.receive arrival.env st.replicaId st.lastExeSeq _ =
    vcInstance at hlength hcollected ⊢
  obtain ⟨hrest, -⟩ := hcollecting
  generalize st'.vcInstances = vcInstances at hrest hreceived ⊢
  subst hrest
  have hstep := @step_arrival crypto key { st with vcInstances := vcInstances } arrival hcheck htype
  have hstored := @onViewChangeWithRawValue_of_lt crypto key
    { st with vcInstances := vcInstances } view _ _ _ hview hlater hreceived
  rw [hstep, hstored, ← hlength]
  simp only [hcollected.endTime, and_true]
  rfl

/-- A message that does not complete the quorum. -/
theorem Collecting.step (hbefore : (senders (arrivals ++ [arrival])).card ≤ st.quorumSize) :
    Collecting st view (arrivals ++ [arrival]) (CegChain.step crypto key st' arrival.event) := by
  obtain ⟨vcInstance, hcollected, hstep⟩ := hcollecting.step_eq hexecuted hlater haccepted
  rw [hstep, if_neg (not_lt.mpr hbefore)]
  refine ⟨rfl, fun now seq => ?_⟩
  rw [OrderedMap.lookup_insert_self]
  exact hcollected

/-- The message that completes the quorum. -/
theorem Collecting.handedOver_step (hprimary : st.isPrimary view = true)
    (hquorum : st.quorumSize < (senders (arrivals ++ [arrival])).card) :
    (CegChain.step crypto key st' arrival.event).handedOver =
      some ((((preparedSets st.lastExeSeq (arrivals ++ [arrival])).argmax
        PbftPreparedSet.sequence).map PbftPreparedSet.value).getD []) := by
  obtain ⟨vcInstance, hcollected, hstep⟩ := hcollecting.step_eq hexecuted hlater haccepted
  rw [hstep, if_pos hquorum]
  unfold processQuorumViewChange
  dsimp only
  rw [OrderedMap.lookup_insert_self, Option.getD_some, hcollected.viewNumber]
  have hleads : ¬ ¬ PbftState.isPrimary view
      { st with vcInstances := OrderedMap.insert view vcInstance st'.vcInstances } = true :=
    not_not.mpr hprimary
  rw [if_neg hleads]
  unfold PbftState.handedOver
  have hlast : ∀ (st : PbftState) (value : Bytes),
      (st.output (.viewChanged value)).outputs.getLast? = some (.viewChanged value) := by
    intro st value
    exact List.getLast?_concat
  rw [hlast]
  refine congrArg some ?_
  change vcInstance.prePreparedEnvSet.value = _
  rw [hcollected.set]
  cases (preparedSets st.lastExeSeq (arrivals ++ [arrival])).argmax PbftPreparedSet.sequence with
  | none => rfl
  | some first => rfl

end Step

theorem deliver_concat (crypto : Crypto) (key : PrivateKey) (arrivals : List Arrival)
    (arrival : Arrival) (st : PbftState) : deliver crypto key (arrivals ++ [arrival]) st =
      step crypto key (deliver crypto key arrivals st) arrival.event := by
  simp [deliver]

/-- The messages before the one that completes the quorum. -/
theorem collecting_deliver (hexecuted : 0 ≤ st.lastExeSeq) (hlater : st.viewNumber < view)
    (hfresh : st.vcInstances.lookup view = none) (arrivals : List Arrival)
    (haccepted : ∀ arrival ∈ arrivals, checkMessageItem crypto st.validators arrival.env = true ∧
      arrival.env.pbft.type = .viewchangWithRawvalue ∧ arrival.viewChange.viewNumber = view)
    (hbefore : (senders arrivals).card ≤ st.quorumSize) :
    Collecting st view arrivals (deliver crypto key arrivals st) := by
  induction arrivals using List.reverseRecOn with
  | nil => exact collecting_nil hfresh
  | append_singleton arrivals arrival ih =>
      have hsubset : senders arrivals ⊆ senders (arrivals ++ [arrival]) := by
        intro id hid
        simp only [senders, List.map_append, List.toFinset_append]
        exact Finset.mem_union_left _ hid
      rw [deliver_concat]
      refine Collecting.step (ih (fun a ha => haccepted a (List.mem_append_left _ ha))
        ((Finset.card_le_card hsubset).trans hbefore)) hexecuted hlater
        (haccepted arrival (List.mem_append_right _ (List.mem_singleton_self arrival))) hbefore

/-- **What is proposed again** is the value of the first set with the highest sequence. -/
theorem handedOver_deliver (hexecuted : 0 ≤ st.lastExeSeq)
    (hdelivery : Delivery crypto st view arrivals) :
    (deliver crypto key arrivals st).handedOver =
      some ((((preparedSets st.lastExeSeq arrivals).argmax PbftPreparedSet.sequence).map
        PbftPreparedSet.value).getD []) := by
  obtain ⟨hprimary, hlater, hfresh, haccepted, hbefore, hquorum⟩ := hdelivery
  rcases List.eq_nil_or_concat arrivals with rfl | ⟨earlier, arrival, rfl⟩
  · exact absurd hquorum (Nat.not_lt_zero _)
  · rw [List.concat_eq_append] at *
    rw [List.dropLast_concat] at hbefore
    have hcollecting : Collecting st view earlier (deliver crypto key earlier st) :=
      collecting_deliver hexecuted hlater hfresh earlier
        (fun a ha => haccepted a (List.mem_append_left _ ha)) hbefore
    rw [deliver_concat]
    exact hcollecting.handedOver_step hexecuted hlater
      (haccepted arrival (List.mem_append_right _ (List.mem_singleton_self arrival))) hprimary
      hquorum

theorem lastExeSeq_run_nonneg (validators : List Bytes) (events : List Event) :
    0 ≤ (run crypto key validators events).lastExeSeq := by
  have hle := @lastExeSeq_le_run crypto key validators [] events
  have hone : (run crypto key validators []).lastExeSeq = 1 := rfl
  rw [List.nil_append, hone] at hle
  exact zero_le_one.trans hle

/-- **The right value is proposed again**, in whatever order the messages are delivered, just if
in every order the first of the prepared sets with the highest sequence has the value of those
that have the highest view as well. -/
theorem reproposes_iff {validators : List Bytes} {events : List Event}
    (hdelivery : Delivery crypto (run crypto key validators events) view arrivals) :
    (∃ value,
      RightValue (preparedSets (run crypto key validators events).lastExeSeq arrivals) value ∧
      ∀ arrivals', Delivery crypto (run crypto key validators events) view arrivals' →
        SameMessages arrivals' arrivals →
          (deliver crypto key arrivals' (run crypto key validators events)).handedOver =
            some value) ↔
      ∀ arrivals', Delivery crypto (run crypto key validators events) view arrivals' →
        SameMessages arrivals' arrivals →
          FirstIsRight (preparedSets (run crypto key validators events).lastExeSeq arrivals') := by
  have hexecuted := @lastExeSeq_run_nonneg crypto key validators events
  generalize run crypto key validators events = st at hdelivery hexecuted ⊢
  constructor
  · rintro ⟨value, hright, hhanded⟩ arrivals' hdelivery' hsame
    have hvalue := (handedOver_deliver hexecuted hdelivery').symm.trans
      (hhanded arrivals' hdelivery' hsame)
    rw [← rightValue_first_iff, Option.some.inj hvalue]
    exact hright.of_mem_iff (mem_preparedSets hsame)
  · intro hfirst
    have hright := (rightValue_first_iff _).mpr (hfirst arrivals hdelivery fun env => Iff.rfl)
    refine ⟨_, hright, fun arrivals' hdelivery' hsame => ?_⟩
    rw [handedOver_deliver hexecuted hdelivery']
    have hright' := (rightValue_first_iff _).mpr (hfirst arrivals' hdelivery' hsame)
    exact congrArg some
      (hright'.unique (hright.of_mem_iff (mem_preparedSets hsame)))

end Choice

/-! ## Two prepared sets -/

namespace Sample

/-- What replica 2 signs with. -/
def secondKey : PrivateKey := ⟨[12], fun _ => [12]⟩

/-- The prepared set for a value at sequence 2, by the primary of view 0 or view 1. -/
def setAt (view : UInt8) (value : Bytes) : PbftPreparedSet where
  prePrepare? := some (sign view { (default : Pbft) with
    type := .preprepare
    prePrepare? := some ⟨view.toNat, 2, view.toNat, value, 1 :: value⟩ })
  prepare := [2, 3].map fun signer => sign signer { (default : Pbft) with
    type := .prepare
    prepare? := some ⟨view.toNat, 2, signer.toNat, 1 :: value⟩ }

/-- The view change of a validator to view 2. -/
def toViewTwo (signer : UInt8) (preparedSet? : Option PbftPreparedSet) : Arrival where
  env := sign signer { (default : Pbft) with
    type := .viewchangWithRawvalue
    viewChangeWithRawvalue? := some ⟨some (sign signer { (default : Pbft) with
      type := .viewchange
      viewChange? := some ⟨2, 1,
        (preparedSet?.map fun set => set.prePrepare.pbft.prePrepare.valueDigest).getD [],
        signer.toNat⟩ }), preparedSet?⟩ }
  checkValue := .valid
  now := 1

/-- The first view change has a set of view 0, the second one a set of view 1. -/
def twoSets : List Arrival :=
  [toViewTwo 0 (some (setAt 0 [7])), toViewTwo 1 (some (setAt 1 [8])), toViewTwo 3 none]

/-- The first view change has a set. -/
def oneSet : List Arrival :=
  [toViewTwo 0 (some (setAt 0 [7])), toViewTwo 1 none, toViewTwo 3 none]

end Sample

open Sample in
theorem delivery_oneSet :
    Delivery Sample.crypto (run Sample.crypto secondKey Sample.validators []) 2 oneSet where
  primary := by decide
  later := by decide
  fresh := rfl
  accepted := by
    intro arrival harrival
    simp only [oneSet, List.mem_cons, List.not_mem_nil, or_false] at harrival
    rcases harrival with rfl | rfl | rfl <;> decide
  before := by decide
  quorum := by decide

open Sample in
theorem delivery_twoSets :
    Delivery Sample.crypto (run Sample.crypto secondKey Sample.validators []) 2 twoSets where
  primary := by decide
  later := by decide
  fresh := rfl
  accepted := by
    intro arrival harrival
    simp only [twoSets, List.mem_cons, List.not_mem_nil, or_false] at harrival
    rcases harrival with rfl | rfl | rfl <;> decide
  before := by decide
  quorum := by decide

open Sample in
/-- With one prepared set the order does not matter. -/
theorem reproposes_oneSet :
    Delivery Sample.crypto (run Sample.crypto secondKey Sample.validators []) 2 oneSet ∧
      ∃ value, RightValue (preparedSets
          (run Sample.crypto secondKey Sample.validators []).lastExeSeq oneSet) value ∧
        ∀ arrivals', Delivery Sample.crypto (run Sample.crypto secondKey Sample.validators []) 2
            arrivals' → SameMessages arrivals' oneSet →
          (deliver Sample.crypto secondKey arrivals'
            (run Sample.crypto secondKey Sample.validators [])).handedOver = some value := by
  refine ⟨delivery_oneSet, (reproposes_iff delivery_oneSet).mpr fun arrivals' _ hsame => ?_⟩
  have hvalue : ([7] : Bytes) ≠ [] := by decide
  refine firstIsRight_of_same hvalue fun set hset => ?_
  have hone : preparedSets (run Sample.crypto secondKey Sample.validators []).lastExeSeq oneSet =
      [setAt 0 [7]] := rfl
  rw [mem_preparedSets hsame, hone] at hset
  rw [List.mem_singleton.mp hset]
  rfl

open Sample in
/-- The set of view 0 has come first, and its value is proposed again instead of that of the set
of view 1. -/
theorem reproposes_lower_view :
    Delivery Sample.crypto (run Sample.crypto secondKey Sample.validators []) 2 twoSets ∧
      (deliver Sample.crypto secondKey twoSets
        (run Sample.crypto secondKey Sample.validators [])).handedOver = some [7] ∧
      ¬ RightValue (preparedSets
        (run Sample.crypto secondKey Sample.validators []).lastExeSeq twoSets) [7] := by
  have hsets : preparedSets (run Sample.crypto secondKey Sample.validators []).lastExeSeq
      twoSets = [setAt 0 [7], setAt 1 [8]] := rfl
  refine ⟨delivery_twoSets, ?_, fun hright => ?_⟩
  · rw [handedOver_deliver (by decide) delivery_twoSets, hsets]
    rfl
  · rw [hsets] at hright
    have hbest : BestSet [setAt 0 [7], setAt 1 [8]] (setAt 1 [8]) := by
      refine ⟨List.mem_cons_of_mem _ (List.mem_singleton_self _), fun other hother => ?_⟩
      rcases List.mem_cons.mp hother with rfl | hother
      · decide
      · rw [List.mem_singleton.mp hother]
    exact absurd (hright.best _ hbest) (by decide)

end CegChain
