import CegChain.Consensus.System

/-!
# The promise of a view change

A replica that sends a VIEW-CHANGE for a view promises to send no more PREPAREs and COMMITs
for smaller views.  While its view is not active it keeps the promise by taking no messages.
So what matters is when a view becomes active, and what is sent without asking whether it
is: `PbftState.Faithful` says that an active view is not below what has been promised.

A view is entered in four places (`Event.Enters`), none of which looks at what has been
promised: a NEW-VIEW, the quorum of a primary, a COMMIT from beyond the watermark, and the
proof of a closed ledger, with which the view may also stay the same.  The timer repeats the
COMMIT of the last prepared instance and the VIEW-CHANGEs of the replica, whether the view is
active or not.  `Event.KeepsPromise` says that all of these fit the promises, and
`promise_kept` that the promises are kept then.  The validators may change in a run.
-/

namespace CegChain

/-- The view that a PREPARE or a COMMIT is for. -/
def Pbft.voteView? (pbft : Pbft) : Option ℤ :=
  if pbft.type = .prepare ∨ pbft.type = .commit then
    pbft.vote?.map fun vote => vote.1.viewNumber
  else none

/-- The view that is promised by handing this out. -/
def Output.promised? : Output → Option ℤ
  | .send env => env.pbft.asksFor?
  | _ => none

/-- The view that is voted in by handing this out. -/
def Output.voteView? : Output → Option ℤ
  | .send env => env.pbft.voteView?
  | _ => none

/-- The later one is no PREPARE or COMMIT for a smaller view than the earlier one promises. -/
def Output.Respects (earlier later : Output) : Prop :=
  ∀ promised ∈ earlier.promised?, ∀ viewNumber ∈ later.voteView?, promised ≤ viewNumber

section Promise

variable {crypto : Crypto} {key : PrivateKey} {trigger : Trigger} {st st' : PbftState}
  {index : PbftInstanceIndex} {pinstance : PbftInstance} {env : PbftEnv} {o : Output}
  {validators : List Bytes}

/-- The promises have been kept so far, and the active view is not below them. -/
structure PbftState.Faithful (st : PbftState) : Prop where
  kept : st.outputs.Pairwise Output.Respects
  active : st.viewActive = true → ∀ promised, st.Promised promised → promised ≤ st.viewNumber

/-- What comes in fits what has been promised. -/
structure Trigger.KeepsPromise (trigger : Trigger) : Prop where
  enters : ∀ {st viewNumber}, trigger.enters st viewNumber →
    ∀ promised, st.Promised promised → promised ≤ viewNumber
  again : ∀ {st index}, trigger.again st index →
    ∀ promised, st.Promised promised → promised ≤ index.viewNumber
  repeats : ∀ {st viewNumber}, trigger.repeats st viewNumber → st.viewActive = true →
    viewNumber ≤ st.viewNumber

theorem promised_output {promised : ℤ} (hpromised : (st.output o).Promised promised) :
    st.Promised promised ∨ o.promised? = some promised := by
  obtain ⟨env, henv, hasks⟩ := hpromised
  rcases List.mem_append.mp henv with hold | hnew
  · exact Or.inl ⟨env, hold, hasks⟩
  · rw [← List.mem_singleton.mp hnew]
    exact Or.inr hasks

namespace PbftState.Faithful

/-- Something is handed out that neither breaks a promise nor makes one that is too high. -/
theorem output (hfaithful : st.Faithful)
    (hvote : ∀ viewNumber ∈ o.voteView?, ∀ promised, st.Promised promised →
      promised ≤ viewNumber)
    (hpromise : ∀ promised ∈ o.promised?, st.viewActive = true → promised ≤ st.viewNumber) :
    (st.output o).Faithful where
  kept := by
    refine List.pairwise_append.mpr ⟨hfaithful.kept, List.pairwise_singleton _ _, ?_⟩
    intro earlier hearlier later hlater promised hpromised viewNumber hviewNumber
    obtain rfl := List.mem_singleton.mp hlater
    refine hvote viewNumber hviewNumber promised ?_
    cases earlier with
    | send env => exact ⟨env, hearlier, hpromised⟩
    | _ => exact absurd hpromised (by simp [Output.promised?])
  active hactive promised hpromised := by
    rcases promised_output hpromised with hold | hnew
    · exact hfaithful.active hactive promised hold
    · exact hpromise promised hnew hactive

/-- Something is handed out that is neither a vote nor a promise. -/
theorem output_other (hfaithful : st.Faithful) (hvote : o.voteView? = none)
    (hpromise : o.promised? = none) : (st.output o).Faithful :=
  hfaithful.output (by simp [hvote]) (by simp [hpromise])

/-- The instances do not matter. -/
theorem of_eq (hfaithful : st.Faithful) (houtputs : st'.outputs = st.outputs)
    (hactive : st'.viewActive = true →
      ∀ promised, st.Promised promised → promised ≤ st'.viewNumber) : st'.Faithful where
  kept := houtputs ▸ hfaithful.kept
  active h promised hpromised := by
    rw [PbftState.Promised, houtputs] at hpromised
    exact hactive h promised hpromised

theorem setInstance (hfaithful : st.Faithful) : (st.setInstance index pinstance).Faithful :=
  hfaithful.of_eq rfl hfaithful.active

theorem keepInstances (hfaithful : st.Faithful)
    (keep : PbftInstanceIndex → PbftInstance → Bool) : (st.keepInstances keep).Faithful :=
  hfaithful.of_eq rfl hfaithful.active

theorem sends (hfaithful : st.Faithful)
    (hplaced : ∀ entry ∈ st.instances, entry.2.Placed entry.1) (hkeeps : trigger.KeepsPromise)
    (hsends : st.Sends crypto trigger env) : (st.output (.send env)).Faithful := by
  cases hsends with
  | prePrepare _ _ htype =>
      refine hfaithful.output_other ?_ (asksFor_of_preprepare htype)
      simp [Output.voteView?, Pbft.voteView?, htype]
  | @prepare index pinstance source hmem _ hsource hpre hactive hview htype hvote =>
      have hindex := (hplaced _ hmem).buffered_index source hsource
      simp only [Pbft.index?, hpre, Option.some.injEq] at hindex
      refine hfaithful.output (fun viewNumber hviewNumber promised hpromised => ?_) ?_
      · simp only [Output.voteView?, Pbft.voteView?, htype, hvote, true_or, if_true,
          Option.map_some, Option.mem_def, Option.some.injEq] at hviewNumber
        have hsource : source.pbft.prePrepare.viewNumber = index.viewNumber :=
          congrArg PbftInstanceIndex.viewNumber hindex
        have hle := hfaithful.active hactive promised hpromised
        omega
      · simp [Output.promised?, Pbft.asksFor?, htype]
  | @viewChange viewNumber htype hasks hinactive =>
      refine hfaithful.output ?_ fun promised hpromised hactive => ?_
      · simp [Output.voteView?, Pbft.voteView?, htype]
      · obtain rfl : viewNumber = promised := Option.some.inj (hasks.symm.trans hpromised)
        rcases hinactive with hfalse | hrepeats
        · rw [hfalse] at hactive
          exact absurd hactive Bool.false_ne_true
        · exact hkeeps.repeats hrepeats hactive
  | other hvote hasks =>
      refine hfaithful.output_other ?_ hasks
      simp [Output.voteView?, Pbft.voteView?, hvote]

theorem move (hfaithful : st.Faithful) (hbacked : st.Backed)
    (hplaced : ∀ entry ∈ st.instances, entry.2.Placed entry.1) (hkeeps : trigger.KeepsPromise)
    (hmove : Move crypto key trigger st st') : st'.Faithful := by
  cases hmove with
  | other hsame hcontinues =>
      refine hfaithful.of_eq hsame.outputs_eq fun hactive promised hpromised => ?_
      rcases hcontinues.active hactive with hold | henters
      · exact (hfaithful.active hold promised hpromised).trans hsame.viewNumber_le
      · exact hkeeps.enters henters promised hpromised
  | traceOut _ _ _ houtputs henters =>
      exact hfaithful.of_eq houtputs fun _ => hkeeps.enters henters
  | viewChanged | resetCloseTimer => exact hfaithful.output_other rfl rfl
  | sendOther _ hsends => exact hfaithful.sends hplaced hkeeps hsends
  | execute =>
      refine PbftState.Faithful.output_other ?_ rfl rfl
      exact hfaithful.of_eq rfl hfaithful.active
  | erase => exact hfaithful.keepInstances _
  | create => exact hfaithful.setInstance.keepInstances _
  | propose => exact (hfaithful.keepInstances _).setInstance
  | buffer | tick | accept | prepare | commit => exact hfaithful.setInstance
  | @sendCommit index pinstance pinstance' prepare roundNumber hmem _ _ hprepare hagain =>
      have hindex := ((hplaced _ hmem).commitsFor (hbacked _ hmem) hprepare).1
      have hview : prepare.viewNumber = index.viewNumber :=
        congrArg PbftInstanceIndex.viewNumber hindex
      refine PbftState.Faithful.setInstance ?_
      unfold PbftState.sendMessage
      split
      · refine hfaithful.output (fun viewNumber hviewNumber promised hpromised => ?_)
          (by simp [Output.promised?, Pbft.asksFor?, newCommit, signEnv, newPbft])
        obtain rfl : prepare.viewNumber = viewNumber := Option.some.inj hviewNumber
        rw [hview]
        rcases hagain with ⟨hactive, hcurrent⟩ | hagain
        · rw [hcurrent]
          exact hfaithful.active hactive promised hpromised
        · exact hkeeps.again hagain promised hpromised
      · exact hfaithful

end PbftState.Faithful

/-! ## Events -/

/-- **What a replica does fits its promises.**  A view that is entered is not below the view of
the replica nor below a view that it has asked for; a COMMIT is sent again only for such a view,
and not when the replica asks for a view change at the same time; and as long as the view is
active, no VIEW-CHANGE for a later view is sent again. -/
structure Event.KeepsPromise (crypto : Crypto) (event : Event) (st : PbftState) : Prop where
  enters : ∀ viewNumber, event.Enters crypto st viewNumber → st.viewNumber ≤ viewNumber ∧
    ∀ promised, st.Promised promised → promised ≤ viewNumber
  again : ∀ currentTime index, event = .timer currentTime → st.RepeatsCommit currentTime index →
    ¬ st.Expires currentTime ∧ ∀ promised, st.Promised promised → promised ≤ index.viewNumber
  repeats : ∀ currentTime viewNumber, event = .timer currentTime →
    st.RepeatsViewChange currentTime viewNumber → st.viewActive = true →
    viewNumber ≤ st.viewNumber

theorem Event.KeepsPromise.keepsPromise {event : Event}
    (hkeeps : event.KeepsPromise crypto st) : (event.trigger crypto key st).KeepsPromise := by
  constructor
  · rintro mid viewNumber ⟨hpromised, henters⟩ promised hmid
    exact (hkeeps.enters viewNumber henters).2 promised (hpromised promised hmid)
  · rintro mid index ⟨currentTime, hevent, hrepeats, hpromised⟩ promised hmid
    obtain ⟨hexpires, hle⟩ := hkeeps.again currentTime index hevent hrepeats
    exact hle promised ((hpromised promised hmid).resolve_right hexpires)
  · rintro mid viewNumber ⟨currentTime, hevent, hrepeats, hactive, hview⟩ hmid
    rw [hview]
    exact hkeeps.repeats currentTime viewNumber hevent hrepeats (hactive hmid)

/-- A replica that keeps its promises. -/
structure PbftState.Promising (st : PbftState) : Prop where
  typed : st.Typed
  placed : ∀ entry ∈ st.instances, entry.2.Placed entry.1
  backed : st.Backed
  faithful : st.Faithful

/-- Being told other validators changes nothing here. -/
theorem PbftState.Promising.told (hpromising : st.Promising) (event : Event) :
    (event.told crypto key st).Promising := by
  have hset : ∀ validators, (setValidators crypto key validators st).Promising := fun _ =>
    ⟨hpromising.typed.mono rfl le_rfl le_rfl hpromising.typed.vcInstances, hpromising.placed,
      hpromising.backed, hpromising.faithful.of_eq rfl hpromising.faithful.active⟩
  rcases told_cases event with htold | ⟨_, htold⟩ <;> rw [htold]
  · exact hpromising
  · exact hset _

theorem PbftState.Promising.step {event : Event} (hpromising : st.Promising)
    (hkeeps : event.KeepsPromise crypto st) : (step crypto key st event).Promising := by
  refine (step_moves_told event hpromising.typed).invariant (fun mid mid' hmove hmid => ?_)
    (hpromising.told event)
  exact ⟨hmove.typed hmid.typed,
    (PbftInstance.Placed.kept mid.quorumSize).move hmove hmid.placed, hmove.backed hmid.backed,
    hmid.faithful.move hmid.backed hmid.placed hkeeps.keepsPromise hmove⟩

/-- The view does not decrease in an event. -/
theorem viewNumber_le_step {event : Event} (htyped : st.Typed)
    (hkeeps : event.KeepsPromise crypto st) :
    st.viewNumber ≤ (step crypto key st event).viewNumber := by
  have htold : st.viewNumber ≤ (event.told crypto key st).viewNumber := by
    rcases told_cases event with htold | ⟨_, htold⟩ <;> rw [htold]
    exact le_rfl
  refine @Moves.invariant _ _ _ _ _ (fun mid => st.viewNumber ≤ mid.viewNumber)
    (step_moves_told event htyped) (fun mid mid' hmove hle => ?_) htold
  cases hmove with
  | other hsame => exact hle.trans hsame.viewNumber_le
  | traceOut _ _ _ _ henters => exact (hkeeps.enters _ henters.2).1
  | sendCommit => exact hle.trans sendMessage_viewNumber.ge
  | _ => exact hle

/-! ## Runs -/

theorem run_promising {events : List Event}
    (hobeys : RunObeys (Event.KeepsPromise crypto) crypto key validators events) :
    (run crypto key validators events).Promising := by
  refine hobeys.invariant ⟨initialState_typed, ?_, ?_, ?_⟩
    fun st event hkeeps hpromising => hpromising.step hkeeps
  · simp [initialState, setValidators]
  · simp [PbftState.Backed, initialState, setValidators]
  · refine ⟨List.Pairwise.nil, fun _ promised hpromised => ?_⟩
    obtain ⟨env, henv, -⟩ := hpromised
    exact absurd henv List.not_mem_nil

theorem viewNumber_le_run (before after : List Event)
    (hobeys : RunObeys (Event.KeepsPromise crypto) crypto key validators (before ++ after)) :
    (run crypto key validators before).viewNumber ≤
      (run crypto key validators (before ++ after)).viewNumber := by
  induction after using List.reverseRecOn with
  | nil => rw [List.append_nil]
  | append_singleton after event ih =>
      rw [← List.append_assoc] at hobeys ⊢
      have hearlier := hobeys.of_append
      refine (ih hearlier).trans ?_
      conv_rhs => rw [run, List.foldl_concat]
      exact viewNumber_le_step (run_promising hearlier).typed (hobeys _ event [] rfl)

/-- **The promise is kept.**  In every run whose events fit the promises of the replica, it sends
no PREPARE or COMMIT for a smaller view than it has asked for before, and its view never
decreases. -/
theorem promise_kept {events : List Event}
    (hobeys : RunObeys (Event.KeepsPromise crypto) crypto key validators events) :
    (run crypto key validators events).outputs.Pairwise Output.Respects ∧
      ∀ before after, events = before ++ after → (run crypto key validators before).viewNumber ≤
        (run crypto key validators events).viewNumber := by
  refine ⟨(run_promising hobeys).faithful.kept, fun before after hsplit => ?_⟩
  subst hsplit
  exact viewNumber_le_run before after hobeys

end Promise

/-! ## Runs of one replica -/

section Decide

variable {crypto : Crypto} {st : PbftState}

instance : DecidableRel Output.Respects := fun earlier later =>
  decidable_of_iff ((earlier.promised?.all fun promised =>
    later.voteView?.all fun viewNumber => decide (promised ≤ viewNumber)) = true) (by
      simp [Output.Respects, Option.all_eq_true])

/-- Whether the replica has asked for no view above the given one. -/
def PbftState.promisedUpTo? (viewNumber : ℤ) (st : PbftState) : Bool :=
  st.outputs.all fun o => o.promised?.all fun promised => decide (promised ≤ viewNumber)

theorem le_of_promisedUpTo? {viewNumber promised : ℤ}
    (hall : st.promisedUpTo? viewNumber = true) (hpromised : st.Promised promised) :
    promised ≤ viewNumber := by
  obtain ⟨env, henv, hasks⟩ := hpromised
  have hle := List.all_eq_true.mp hall _ henv
  simpa [Output.promised?, hasks] using hle

/-- Whether the event is a timeout, a proposal, a message of the view within the watermark, or a
NEW-VIEW for a view that is not below what has been promised. -/
def Event.keepsPromise? (event : Event) (st : PbftState) : Bool :=
  match event with
  | .recv env _ _ =>
      match env.pbft.type with
      | .newview => decide (st.viewNumber ≤ env.pbft.newView.viewNumber) &&
          st.promisedUpTo? env.pbft.newView.viewNumber
      | .preprepare | .prepare => true
      | _ => false
  | .request _ _ | .txTimeout => true
  | _ => false

theorem keepsPromise_of_keepsPromise? (event : Event) (st : PbftState)
    (hkeeps : event.keepsPromise? st = true) : event.KeepsPromise crypto st := by
  refine ⟨?_, ?_, ?_⟩
  · rintro viewNumber (⟨env, checkValue, now, rfl, -, henters⟩ | ⟨validators, proof, _, _, rfl, -⟩)
    · rcases henters with ⟨htraces, -⟩ | hleads | hfollows
      · simp [Event.keepsPromise?, htraces.type_eq] at hkeeps
      · simp [Event.keepsPromise?, hleads.type_eq] at hkeeps
      · obtain ⟨htype, rfl, -⟩ := hfollows
        simp only [Event.keepsPromise?, htype, Bool.and_eq_true, decide_eq_true_eq] at hkeeps
        exact ⟨hkeeps.1, fun promised => le_of_promisedUpTo? hkeeps.2⟩
    · exact absurd hkeeps Bool.false_ne_true
  · rintro currentTime index rfl
    exact absurd hkeeps Bool.false_ne_true
  · rintro currentTime viewNumber rfl
    exact absurd hkeeps Bool.false_ne_true

end Decide

namespace Sample

/-- Replica 2 asks for view 1, enters it with a NEW-VIEW and answers a PRE-PREPARE there. -/
def followView : List Event :=
  [.recv (proposal 0 0 [7]) .valid 0, .txTimeout,
    .recv (newView 1 [sign 0 (viewChangeOf 0), sign 1 (viewChangeOf 1), sign 3 (viewChangeOf 3)])
      .valid 0,
    .recv (proposal 1 1 [8]) .valid 0]

/-- The primary of view 0 is prepared and has sent its COMMIT; it asks for view 1, and the timer
sends the COMMIT again. -/
def commitAgain : List Event :=
  [.request [7] 1, .recv (prepareFor 1 0 [7]) .valid 1, .recv (prepareFor 2 0 [7]) .valid 1,
    .txTimeout, .timer 15000001]

end Sample

open Sample in
/-- Replica 2 has asked for view 1 and then sent a PREPARE in view 1. -/
theorem promise_kept_followView :
    let st := run Sample.crypto (Sample.key 2) Sample.validators followView
    st.outputs.map (fun o => (o.promised?, o.voteView?)) =
        [(none, some 0), (some 1, none), (none, none), (none, some 1)] ∧
      st.outputs.Pairwise Output.Respects ∧ 0 ≤ st.viewNumber := by
  intro st
  have hobeys : RunObeys (Event.KeepsPromise Sample.crypto) Sample.crypto (Sample.key 2)
      Sample.validators followView :=
    runObeys_of_obeys? Event.keepsPromise? keepsPromise_of_keepsPromise? (by decide +kernel)
  obtain ⟨hkept, hview⟩ := promise_kept hobeys
  exact ⟨by decide +kernel, hkept, hview [] followView rfl⟩

open Sample in
/-- The COMMIT for view 0 is sent again after the VIEW-CHANGE for view 1. -/
theorem promise_broken :
    let st := run Sample.crypto (Sample.key 0) Sample.validators commitAgain
    (∀ event ∈ commitAgain, event.KeepsValidators Sample.validators) ∧
      st.outputs.map (fun o => (o.promised?, o.voteView?)) =
        [(none, none), (none, some 0), (some 1, none), (none, some 0)] ∧
      ¬ st.outputs.Pairwise Output.Respects := by
  refine ⟨?_, by decide +kernel, by decide +kernel⟩
  intro event hevent
  simp only [commitAgain, List.mem_cons, List.not_mem_nil, or_false] at hevent
  rcases hevent with rfl | rfl | rfl | rfl | rfl <;> trivial

end CegChain
