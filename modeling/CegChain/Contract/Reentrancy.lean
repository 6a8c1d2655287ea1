import CegChain.Contract.Solvency

/-!
# Rewards under re-entrancy

`extract` pays from the rewards in `elect` and writes them back at the end of the
call.  An account that is paid may call the contract before that, and such a call
reads the rewards that are still stored.

The call itself keeps its books whatever the accounts do (`settled_extract`): what it
leaves recorded for an address and what it paid is what was recorded and what it
credited.  The calls made within its payments come on top, and what they write to the
rewards is overwritten.  So rewards are paid once when the accounts that are paid call none
of the methods that pay or credit rewards (`paidOnce_of_idle`).
-/

namespace CegChain.Dpos

open Layers Totals

variable {host : Host} {receive : Receive} {msg : Msg} {s s₁ s₂ : Run} {w w₁ : World}

/-! ## No reward is negative -/

/-- No reward that is stored is negative. -/
structure World.Rewarded (w : World) : Prop where
  valDist : Dists.Nonneg w.storage.valDist
  kolDist : Dists.Nonneg w.storage.kolDist

/-- No reward that is stored or held in `elect` is negative. -/
structure Run.Rewarded (s : Run) : Prop where
  world : s.world.Rewarded
  valDist : Dists.Nonneg s.elect.valDist
  kolDist : Dists.Nonneg s.elect.kolDist

theorem Run.Rewarded.dist (hrewarded : s.Rewarded) (role : Role) : Dists.Nonneg (s.dist role) := by
  unfold Run.dist
  split
  · exact hrewarded.valDist
  · exact hrewarded.kolDist

theorem rewarded_electInit (hrewarded : s.Rewarded) : (electInit s).Rewarded :=
  ⟨hrewarded.world, hrewarded.world.valDist, hrewarded.world.kolDist⟩

theorem rewarded_setDist (role : Role) {dist : Dists} (hrewarded : s.Rewarded)
    (hdist : Dists.Nonneg dist) : (s.setDist role dist).Rewarded := by
  cases role
  · exact ⟨hrewarded.world, hrewarded.valDist, hdist⟩
  · exact ⟨hrewarded.world, hdist, hrewarded.kolDist⟩
  · exact ⟨hrewarded.world, hrewarded.valDist, hdist⟩

theorem rewarded_rewardDistribution (hrewarded : s.Rewarded)
    (hdist : rewardDistribution s = some s₁) : s₁.Rewarded := by
  obtain ⟨reward, -, hdist⟩ := of_bind hdist
  split at hdist
  · obtain rfl := Option.some.inj hdist
    exact hrewarded
  · obtain ⟨⟨valDist, kolDist⟩, hcalc, hdist⟩ := of_bind hdist
    obtain rfl := Option.some.inj hdist
    obtain ⟨-, hval, hkol⟩ := of_calculate hcalc
    exact ⟨⟨hrewarded.world.valDist, hrewarded.world.kolDist⟩, hval hrewarded.valDist,
      hkol hrewarded.kolDist⟩

theorem rewarded_saveElection (role : Role) (sorted saved : List Candidate) (elected : Bool)
    (hrewarded : s.Rewarded) : (saveElection role sorted saved elected s).Rewarded := by
  obtain ⟨⟨hval, hkol⟩, hval', hkol'⟩ := hrewarded
  unfold saveElection
  cases role <;> cases elected <;> exact ⟨⟨hval, hkol⟩, hval', hkol'⟩

theorem rewarded_addCandidates {role : Role} {address : Address} {proposal : Proposal}
    {maxSize : ℕ} (hrewarded : s.Rewarded)
    (hadd : addCandidates role address proposal maxSize s = some s₁) : s₁.Rewarded := by
  obtain ⟨pledge, -, hadd⟩ := of_bind hadd
  obtain ⟨stake, -, hadd⟩ := of_bind hadd
  split at hadd
  · obtain rfl := Option.some.inj hadd
    exact hrewarded
  · obtain ⟨s₂, hdist, hadd⟩ := of_bind hadd
    obtain ⟨-, hadd⟩ := of_assert hadd
    obtain rfl := Option.some.inj hadd
    have hrewarded₂ := rewarded_rewardDistribution hrewarded hdist
    refine rewarded_saveElection role _ _ _ ?_
    unfold addDist
    split
    · exact hrewarded₂
    · exact rewarded_setDist role hrewarded₂ (forall_lookup_insert (hrewarded₂.dist role) le_rfl)

theorem rewarded_deleteCandidate {role : Role} {address : Address} (hrewarded : s.Rewarded)
    (hdelete : deleteCandidate role address s = some s₁) : s₁.Rewarded := by
  unfold deleteCandidate at hdelete
  split at hdelete
  · obtain ⟨s₂, hdist, hdelete⟩ := of_bind hdelete
    obtain rfl := Option.some.inj hdelete
    obtain ⟨⟨hval, hkol⟩, hval', hkol'⟩ := rewarded_rewardDistribution hrewarded hdist
    exact rewarded_saveElection role _ _ _ ⟨⟨hval, hkol⟩, hval', hkol'⟩
  · obtain rfl := Option.some.inj hdelete
    exact hrewarded

theorem rewarded_updateStake {role : Role} {found : Candidate} {formalSize amount : ℤ}
    (hrewarded : s.Rewarded) (hupdate : updateStake role found formalSize amount s = some s₁) :
    s₁.Rewarded := by
  obtain ⟨stake, -, hupdate⟩ := of_bind hupdate
  dsimp only at hupdate
  generalize hsorted : sortRows _ = sorted at hupdate
  obtain ⟨⟨hval, hkol⟩, hval', hkol'⟩ := hrewarded
  have hsaved : ((s.setCandidates role sorted).saveCandidates role sorted).Rewarded := by
    cases role <;> exact ⟨⟨hval, hkol⟩, hval', hkol'⟩
  split at hupdate
  · obtain ⟨s₂, hdist, hupdate⟩ := of_bind hupdate
    obtain ⟨⟨hval, hkol⟩, hval', hkol'⟩ := rewarded_rewardDistribution hsaved hdist
    split at hupdate
    · obtain rfl := Option.some.inj hupdate
      exact ⟨⟨hval, hkol⟩, hval', hkol'⟩
    · obtain rfl := Option.some.inj hupdate
      exact ⟨⟨hval, hkol⟩, hval', hkol'⟩
  · obtain rfl := Option.some.inj hupdate
    exact hsaved

/-- The accounts that are paid make no reward negative. -/
def ReceiveRewarded (receive : Receive) : Prop :=
  ∀ i w w', receive i w = some w' → w.Rewarded → w'.Rewarded

theorem rewarded_transferCoin (hreceive : ReceiveRewarded receive) {dest : Address} {amount : ℤ}
    {remark : Remark} (hrewarded : s.Rewarded)
    (htransfer : transferCoin host receive dest amount remark s = some s₁) : s₁.Rewarded := by
  rcases transferCoin_cases htransfer with ⟨-, rfl⟩ | ⟨w, hw, -, -, rfl⟩
  · exact hrewarded
  · refine ⟨hreceive _ _ _ hw ?_, hrewarded.valDist, hrewarded.kolDist⟩
    exact ⟨hrewarded.world.valDist, hrewarded.world.kolDist⟩

theorem rewarded_extract (hreceive : ReceiveRewarded receive) {list : Option (List Payee)}
    (hrewarded : s.Rewarded) (hextract : extract host receive msg list s = some s₁) :
    s₁.Rewarded := by
  refine extract_invariant ?_ ?_ hextract ?_
  · intro dest amount remark s₂ s₃ htransfer hrewarded₂
    exact rewarded_transferCoin hreceive hrewarded₂ htransfer
  · intro s₂ role address entry hrewarded₂
    have hzero : Dists.Nonneg ((s₂.dist role).insert address { entry with reward := 0 }) :=
      forall_lookup_insert (hrewarded₂.dist role) le_rfl
    exact ⟨rewarded_setDist role hrewarded₂ hzero,
      rewarded_setDist role hrewarded₂ (forall_lookup_erase address hzero)⟩
  · intro s₂ hdist
    exact rewarded_rewardDistribution (rewarded_electInit hrewarded) hdist

/-- The rule for what touches no rewards. -/
theorem Run.Rewarded.of_eq (hrewarded : s.Rewarded)
    (hval : s₁.world.storage.valDist = s.world.storage.valDist)
    (hkol : s₁.world.storage.kolDist = s.world.storage.kolDist) (helect : s₁.elect = s.elect) :
    s₁.Rewarded := by
  refine ⟨⟨?_, ?_⟩, ?_, ?_⟩
  · rw [hval]
    exact hrewarded.world.valDist
  · rw [hkol]
    exact hrewarded.world.kolDist
  · rw [helect]
    exact hrewarded.valDist
  · rw [helect]
    exact hrewarded.kolDist

theorem rewarded_append {role : Role} (hrewarded : s.Rewarded)
    (happend : append msg role s = some s₁) : s₁.Rewarded := by
  obtain ⟨proposal, -, happend⟩ := of_bind happend
  obtain ⟨-, happend⟩ := of_assert happend
  obtain ⟨odd, -, happend⟩ := of_bind happend
  obtain ⟨-, happend⟩ := of_assert happend
  obtain ⟨old, -, happend⟩ := of_bind happend
  obtain ⟨pledge, -, happend⟩ := of_bind happend
  dsimp only at happend
  split at happend
  · obtain rfl := Option.some.inj happend
    exact hrewarded.of_eq rfl rfl rfl
  · obtain ⟨-, happend⟩ := of_assert happend
    split at happend
    · refine rewarded_addCandidates ?_ happend
      exact rewarded_electInit (hrewarded.of_eq rfl rfl rfl)
    · obtain ⟨stake, -, hupdate⟩ := of_bind happend
      refine rewarded_updateStake ?_ hupdate
      exact rewarded_electInit (hrewarded.of_eq rfl rfl rfl)

theorem rewarded_passIn {key : ProposalKey} {proposal : Proposal} {role : Role}
    {address : Address} (hrewarded : s.Rewarded)
    (hpass : passIn msg key proposal role address s = some s₁) : s₁.Rewarded := by
  unfold passIn at hpass
  dsimp only at hpass
  split at hpass
  · split at hpass
    · obtain rfl := Option.some.inj hpass
      exact hrewarded.of_eq rfl rfl rfl
    · obtain rfl := Option.some.inj hpass
      exact hrewarded.of_eq rfl rfl rfl
  · refine rewarded_addCandidates ?_ hpass
    exact rewarded_electInit (hrewarded.of_eq rfl rfl rfl)

theorem rewarded_passOut {key : ProposalKey} {role : Role} {address : Address}
    (hrewarded : s.Rewarded) (hpass : passOut key role address s = some s₁) : s₁.Rewarded := by
  unfold passOut at hpass
  dsimp only at hpass
  split at hpass
  · obtain ⟨-, hpass⟩ := of_assert hpass
    obtain rfl := Option.some.inj hpass
    exact hrewarded.of_eq rfl rfl rfl
  · obtain ⟨s₂, hdelete, hpenalty⟩ := of_bind hpass
    obtain ⟨proposal, -, rfl⟩ := Option.map_eq_some_iff.mp hpenalty
    have hrewarded₂ : s₂.Rewarded := by
      refine rewarded_deleteCandidate ?_ hdelete
      exact rewarded_electInit (hrewarded.of_eq rfl rfl rfl)
    exact hrewarded₂.of_eq rfl rfl rfl

theorem rewarded_approve {operate : Motion} {content : Content} {address : Address}
    (hrewarded : s.Rewarded) (happrove : approve host msg operate content address s = some s₁) :
    s₁.Rewarded := by
  obtain ⟨-, happrove⟩ := of_assert happrove
  obtain ⟨-, happrove⟩ := of_assert happrove
  obtain ⟨-, happrove⟩ := of_assert happrove
  obtain ⟨proposal, -, happrove⟩ := of_bind happrove
  obtain ⟨-, happrove⟩ := of_assert happrove
  split at happrove
  · obtain rfl := Option.some.inj happrove
    exact hrewarded
  · obtain ⟨-, happrove⟩ := of_assert happrove
    dsimp only at happrove
    split at happrove
    · obtain rfl := Option.some.inj happrove
      exact hrewarded.of_eq rfl rfl rfl
    · split at happrove
      · obtain ⟨value, -, rfl⟩ := Option.map_eq_some_iff.mp happrove
        unfold updateCfg
        dsimp only
        split
        · exact hrewarded.of_eq rfl rfl rfl
        · exact hrewarded.of_eq rfl rfl rfl
      · exact rewarded_passIn hrewarded happrove
      · exact rewarded_passOut hrewarded happrove
      · cases happrove

theorem rewarded_vote {role : Role} {address : Address} (hrewarded : s.Rewarded)
    (hvote : vote host msg role address s = some s₁) : s₁.Rewarded := by
  obtain ⟨-, hvote⟩ := of_assert hvote
  obtain ⟨-, hvote⟩ := of_assert hvote
  obtain ⟨odd, -, hvote⟩ := of_bind hvote
  obtain ⟨-, hvote⟩ := of_assert hvote
  obtain ⟨voteAmount, -, hvote⟩ := of_bind hvote
  obtain ⟨found, -, hupdate⟩ := of_bind hvote
  refine rewarded_updateStake ?_ hupdate
  exact rewarded_electInit (hrewarded.of_eq rfl rfl rfl)

theorem rewarded_unVote (hreceive : ReceiveRewarded receive) {role : Role} {address : Address}
    (hrewarded : s.Rewarded) (hunvote : unVote host receive msg role address s = some s₁) :
    s₁.Rewarded := by
  obtain ⟨-, hunvote⟩ := of_assert hunvote
  obtain ⟨-, hunvote⟩ := of_assert hunvote
  obtain ⟨amount, -, hunvote⟩ := of_bind hunvote
  obtain ⟨s₂, htransfer, hunvote⟩ := of_bind hunvote
  have hrewarded₂ : s₂.Rewarded := by
    refine rewarded_transferCoin hreceive ?_ htransfer
    exact hrewarded.of_eq rfl rfl rfl
  dsimp only at hunvote
  split at hunvote
  · obtain rfl := Option.some.inj hunvote
    exact rewarded_electInit hrewarded₂
  · obtain ⟨-, hupdate⟩ := of_assert hunvote
    exact rewarded_updateStake (rewarded_electInit hrewarded₂) hupdate

theorem rewarded_withdraw (hreceive : ReceiveRewarded receive) {role : Role}
    (hrewarded : s.Rewarded) (hwithdraw : withdraw host receive msg role s = some s₁) :
    s₁.Rewarded := by
  unfold withdraw at hwithdraw
  dsimp only at hwithdraw
  split at hwithdraw
  · obtain ⟨-, hwithdraw⟩ := of_assert hwithdraw
    obtain ⟨-, hwithdraw⟩ := of_assert hwithdraw
    obtain rfl := Option.some.inj hwithdraw
    exact hrewarded.of_eq rfl rfl rfl
  · split at hwithdraw
    · obtain ⟨applicant, -, hwithdraw⟩ := of_bind hwithdraw
      obtain ⟨pledge, -, hwithdraw⟩ := of_bind hwithdraw
      split at hwithdraw
      · refine rewarded_transferCoin hreceive ?_ hwithdraw
        exact hrewarded.of_eq rfl rfl rfl
      · obtain ⟨s₂, hdelete, hwithdraw⟩ := of_bind hwithdraw
        obtain rfl := Option.some.inj hwithdraw
        have hrewarded₂ : s₂.Rewarded := by
          refine rewarded_deleteCandidate ?_ hdelete
          exact rewarded_electInit (hrewarded.of_eq rfl rfl rfl)
        exact hrewarded₂.of_eq rfl rfl rfl
    · obtain ⟨-, hwithdraw⟩ := of_assert hwithdraw
      obtain ⟨pledge, -, htransfer⟩ := of_bind hwithdraw
      refine rewarded_transferCoin hreceive ?_ htransfer
      exact hrewarded.of_eq rfl rfl rfl

theorem rewarded_setVoteDividend {role : Role} {pool : Option Address} {ratio : Option ℤ}
    (hrewarded : s.Rewarded) (hset : setVoteDividend host msg role pool ratio s = some s₁) :
    s₁.Rewarded := by
  obtain ⟨proposal, -, hset⟩ := of_bind hset
  obtain ⟨-, hset⟩ := of_assert hset
  obtain ⟨-, hset⟩ := of_assert hset
  obtain rfl := Option.some.inj hset
  obtain ⟨⟨hval, hkol⟩, hval', hkol'⟩ := hrewarded
  have hrows := fun {dist : Dists} (hnonneg : Dists.Nonneg dist) =>
    (rewards_withDividend msg.sender pool ratio dist).2 hnonneg
  cases role
  · exact ⟨⟨hval, hrows hkol⟩, hval', hkol'⟩
  · exact ⟨⟨hrows hval, hkol⟩, hval', hkol'⟩
  · exact ⟨⟨hval, hrows hkol⟩, hval', hkol'⟩

theorem rewarded_dispatch (hreceive : ReceiveRewarded receive) {method : Method}
    (hrewarded : s.Rewarded) (hdispatch : dispatch host receive msg method s = some s₁) :
    s₁.Rewarded := by
  cases method with
  | apply =>
      obtain ⟨-, happly⟩ := of_assert hdispatch
      obtain ⟨-, -, happly⟩ := of_bind happly
      obtain ⟨proposal, -, happly⟩ := of_bind happly
      obtain rfl := Option.some.inj happly
      exact hrewarded.of_eq rfl rfl rfl
  | append => exact rewarded_append hrewarded hdispatch
  | approve => exact rewarded_approve hrewarded hdispatch
  | vote => exact rewarded_vote hrewarded hdispatch
  | unVote => exact rewarded_unVote hreceive hrewarded hdispatch
  | abolish =>
      obtain ⟨-, -, habolish⟩ := of_bind hdispatch
      obtain ⟨-, habolish⟩ := of_assert habolish
      obtain ⟨applied, -, habolish⟩ := of_bind habolish
      obtain ⟨-, habolish⟩ := of_assert habolish
      obtain rfl := Option.some.inj habolish
      exact hrewarded.of_eq rfl rfl rfl
  | withdraw => exact rewarded_withdraw hreceive hrewarded hdispatch
  | extract => exact rewarded_extract hreceive hrewarded hdispatch
  | configure =>
      obtain ⟨-, hconfigure⟩ := of_assert hdispatch
      obtain ⟨-, hconfigure⟩ := of_assert hconfigure
      dsimp only at hconfigure
      split at hconfigure
      · obtain rfl := Option.some.inj hconfigure
        exact hrewarded
      · obtain rfl := Option.some.inj hconfigure
        exact hrewarded.of_eq rfl rfl rfl
  | setNodeAddress =>
      obtain ⟨-, -, hset⟩ := of_bind hdispatch
      obtain ⟨proposal, -, hset⟩ := of_bind hset
      dsimp only at hset
      split at hset
      · obtain rfl := Option.some.inj hset
        exact hrewarded.of_eq rfl rfl rfl
      · split at hset
        · obtain rfl := Option.some.inj hset
          exact hrewarded.of_eq rfl rfl rfl
        · obtain rfl := Option.some.inj hset
          exact hrewarded.of_eq rfl rfl rfl
  | setVoteDividend => exact rewarded_setVoteDividend hrewarded hdispatch
  | clean =>
      obtain ⟨-, hclean⟩ := of_assert hdispatch
      obtain ⟨proposal, -, hclean⟩ := of_bind hclean
      obtain ⟨-, hclean⟩ := of_assert hclean
      dsimp only at hclean
      split at hclean
      · split at hclean
        · refine rewarded_transferCoin hreceive ?_ hclean
          exact hrewarded.of_eq rfl rfl rfl
        · obtain rfl := Option.some.inj hclean
          exact hrewarded.of_eq rfl rfl rfl
      · obtain rfl := Option.some.inj hclean
        exact hrewarded.of_eq rfl rfl rfl
  | unknown => cases hdispatch

theorem rewarded_prepare (hrewarded : w.Rewarded) (hprepare : prepare msg w = some s) :
    s.Rewarded := by
  have hempty : Dists.Nonneg ∅ := fun address entry h => by cases h
  obtain ⟨allStake, -, ⟨-, rfl⟩ | ⟨-, rfl⟩⟩ := prepare_cases hprepare
  · exact ⟨⟨hrewarded.valDist, hrewarded.kolDist⟩, hempty, hempty⟩
  · exact ⟨hrewarded, hempty, hempty⟩

theorem rewarded_main (hreceive : ReceiveRewarded receive) {method : Method}
    (hrewarded : w.Rewarded) (hmain : main host receive msg method w = some w₁) :
    w₁.Rewarded := by
  obtain ⟨s, hprepare, hmain⟩ := of_bind hmain
  obtain ⟨-, hmain⟩ := of_assert hmain
  obtain ⟨s₁, hdispatch, hmain⟩ := of_bind hmain
  obtain rfl := Option.some.inj hmain
  have hrewarded₁ := rewarded_dispatch hreceive (rewarded_prepare hrewarded hprepare) hdispatch
  unfold saveDists
  split
  · exact ⟨hrewarded₁.valDist, hrewarded₁.kolDist⟩
  · exact ⟨hrewarded₁.world.valDist, hrewarded₁.world.kolDist⟩

theorem rewarded_react (reaction : Reaction) :
    ∀ {w w₁ : World}, react host reaction w = some w₁ → w.Rewarded → w₁.Rewarded := by
  induction reaction with
  | done =>
      intro w w₁ hreact hrewarded
      obtain rfl := Option.some.inj hreact
      exact hrewarded
  | fail =>
      intro w w₁ hreact
      cases hreact
  | call msg method reactions next ihreactions ihnext =>
      intro w w₁ hreact hrewarded
      refine ihnext hreact ?_
      unfold World.within
      split
      · rename_i w' hmain
        have hrewarded' : w'.Rewarded := by
          refine rewarded_main (fun i _ _ h => ihreactions i h) ?_ hmain
          exact ⟨hrewarded.valDist, hrewarded.kolDist⟩
        exact ⟨hrewarded'.valDist, hrewarded'.kolDist⟩
      · exact hrewarded

theorem rewarded_step (hrewarded : w.Rewarded) (st : Step) : (step host w st).Rewarded := by
  cases st with
  | reward amount => exact ⟨hrewarded.valDist, hrewarded.kolDist⟩
  | call msg method reactions =>
      unfold step
      dsimp only
      generalize hmain : main host (fun i => react host (reactions i)) msg method _ = r
      cases r with
      | none => exact ⟨hrewarded.valDist, hrewarded.kolDist⟩
      | some w₁ =>
          refine rewarded_main (fun i _ _ h => rewarded_react (reactions i) h) ?_ hmain
          exact ⟨hrewarded.valDist, hrewarded.kolDist⟩

/-- **No reward is ever negative**, whatever the accounts do that are paid. -/
theorem rewarded_states (hrewarded : w.Rewarded) (steps : List Step) :
    ∀ w' ∈ states host w steps, w'.Rewarded :=
  Runs.scanl_invariant (fun hw => rewarded_step hw _) hrewarded

theorem rewarded_initialization {logicContract : Address} {committee : List Address}
    {validators : List (Address × ℤ)} {balance : ℕ}
    (hinit : initialization host msg logicContract committee validators balance = some w) :
    w.Rewarded :=
  have hbooks := books_initialization hinit
  ⟨hbooks.valDist, hbooks.kolDist⟩

/-! ## The books of a call -/

/-- The reward of an address in a list. -/
def Dists.reward (dist : Dists) (address : Address) : ℤ :=
  weight (fun _ entry => entry.reward) dist address

/-- The reward that is recorded for an address. -/
def World.reward (w : World) (address : Address) : ℤ :=
  Dists.reward w.storage.valDist address + Dists.reward w.storage.kolDist address

namespace Mark

/-- What a line of the journal pays out of the reward of an address. -/
def paidFor (address : Address) : Mark → ℤ
  | .paid _ (.reward owner) amount => if owner = address then amount else 0
  | _ => 0

/-- What a line of the journal credits to an address. -/
def creditedTo (address : Address) : Mark → ℤ
  | .credited before valDist kolDist =>
      Dists.reward valDist address + Dists.reward kolDist address -
        (Dists.reward before.valDist address + Dists.reward before.kolDist address)
  | _ => 0

end Mark

/-- What is paid out of the reward of an address. -/
def paidFor (address : Address) (journal : List Mark) : ℤ :=
  (journal.map (Mark.paidFor address)).sum

/-- What is credited to an address. -/
def creditedTo (address : Address) (journal : List Mark) : ℤ :=
  (journal.map (Mark.creditedTo address)).sum

theorem paidFor_append (address : Address) (journal journal' : List Mark) :
    paidFor address (journal ++ journal') = paidFor address journal + paidFor address journal' := by
  simp [paidFor]

theorem creditedTo_append (address : Address) (journal journal' : List Mark) :
    creditedTo address (journal ++ journal') =
      creditedTo address journal + creditedTo address journal' := by
  simp [creditedTo]

/-- The reward that a call holds for an address. -/
def Run.reward (s : Run) (address : Address) : ℤ :=
  Dists.reward s.elect.valDist address + Dists.reward s.elect.kolDist address

/-- What a call holds and has paid is what it found and has credited. -/
structure Settled (before : ℤ) (address : Address) (s : Run) : Prop where
  loaded : s.Loaded
  balanced : s.reward address + paidFor address s.world.journal =
    before + creditedTo address s.world.journal

/-- The accounts that are paid leave the journal of the call alone. -/
def ReceiveSilent (receive : Receive) : Prop :=
  ∀ i w w', receive i w = some w' → w'.journal = w.journal

theorem silent_react (reaction : Reaction) :
    ∀ {w w₁ : World}, react host reaction w = some w₁ → w₁.journal = w.journal := by
  induction reaction with
  | done =>
      intro w w₁ hreact
      obtain rfl := Option.some.inj hreact
      rfl
  | fail =>
      intro w w₁ hreact
      cases hreact
  | call msg method reactions next _ ihnext =>
      intro w w₁ hreact
      refine (ihnext hreact).trans ?_
      unfold World.within
      split <;> rfl

/-- A payment is noted, and the rewards in `elect` stay. -/
theorem of_transferCoin_reward (hreceive : ReceiveSilent receive) {dest owner : Address}
    {amount : ℤ} (address : Address)
    (htransfer : transferCoin host receive dest amount (.reward owner) s = some s₁) :
    s₁.elect = s.elect ∧ paidFor address s₁.world.journal =
        paidFor address s.world.journal + (if owner = address then amount else 0) ∧
      creditedTo address s₁.world.journal = creditedTo address s.world.journal := by
  unfold transferCoin at htransfer
  split at htransfer
  · rename_i hzero
    obtain rfl := Option.some.inj htransfer
    refine ⟨rfl, ?_, rfl⟩
    rw [hzero, ite_self, add_zero]
  · obtain ⟨s₂, hminus, hpay⟩ := Option.bind_eq_some_iff.mp htransfer
    obtain ⟨allStake, -, hminus⟩ := of_bind hminus
    obtain rfl := Option.some.inj hminus
    obtain ⟨-, hpay⟩ := of_assert hpay
    obtain ⟨w, hw, hpay⟩ := of_bind hpay
    obtain rfl := Option.some.inj hpay
    have hjournal : w.journal = .paid (toCString dest) (.reward owner) amount :: s.world.journal :=
      hreceive _ _ _ hw
    refine ⟨rfl, ?_, ?_⟩
    · change paidFor address w.journal = _
      rw [hjournal, add_comm]
      rfl
    · change creditedTo address w.journal = _
      rw [hjournal]
      exact zero_add _

theorem of_payPayee_reward (hreceive : ReceiveSilent receive) {payee : Payee} {amount : ℤ}
    (address : Address) (hpay : payPayee host receive payee amount s = some s₁) :
    s₁.elect = s.elect ∧ paidFor address s₁.world.journal =
        paidFor address s.world.journal + (if payee.name = address then amount else 0) ∧
      creditedTo address s₁.world.journal = creditedTo address s.world.journal := by
  obtain ⟨-, htransfer⟩ := of_assert hpay
  exact of_transferCoin_reward hreceive address htransfer

theorem of_payAward_reward (hreceive : ReceiveSilent receive) {payee : Payee} {entry : Dist}
    (address : Address) (hpay : payAward host receive payee entry s = some s₁) :
    s₁.elect = s.elect ∧ paidFor address s₁.world.journal =
        paidFor address s.world.journal + (if payee.name = address then entry.reward else 0) ∧
      creditedTo address s₁.world.journal = creditedTo address s.world.journal := by
  unfold payAward at hpay
  split at hpay
  · exact of_payPayee_reward hreceive address hpay
  · split at hpay
    · exact of_transferCoin_reward hreceive address hpay
    · obtain ⟨onePercent, -, hpay⟩ := of_bind hpay
      obtain ⟨dividend, -, hpay⟩ := of_bind hpay
      obtain ⟨s₂, hfirst, hpay⟩ := of_bind hpay
      obtain ⟨reserve, hreserve, hsecond⟩ := of_bind hpay
      obtain rfl := of_int64Sub hreserve
      obtain ⟨helect₁, hpaid₁, hcredited₁⟩ := of_transferCoin_reward hreceive address hfirst
      obtain ⟨helect₂, hpaid₂, hcredited₂⟩ := of_payPayee_reward hreceive address hsecond
      refine ⟨helect₂.trans helect₁, ?_, hcredited₂.trans hcredited₁⟩
      rw [hpaid₂, hpaid₁]
      split <;> ring

theorem reward_insert (dist : Dists) (owner address : Address) (entry : Dist) :
    Dists.reward (dist.insert owner entry) address =
      if address = owner then entry.reward else Dists.reward dist address := by
  unfold Dists.reward weight
  rw [lookup_insert_eq]
  split
  · rfl
  · rfl

theorem reward_erase (dist : Dists) (owner address : Address) :
    Dists.reward (dist.erase owner) address =
      if address = owner then 0 else Dists.reward dist address := by
  unfold Dists.reward weight
  split
  · rename_i heq
    rw [heq, AList.lookup_erase]
    rfl
  · rename_i hne
    rw [AList.lookup_erase_ne hne]

/-- The rewards of a role change. -/
theorem reward_setDist (role : Role) (dist : Dists) (address : Address) :
    (s.setDist role dist).reward address =
      s.reward address - Dists.reward (s.dist role) address + Dists.reward dist address := by
  by_cases hrole : role = .validator
  · simp only [Run.reward, Run.setDist, Run.dist, if_pos hrole]
    ring
  · simp only [Run.reward, Run.setDist, Run.dist, if_neg hrole]
    ring

/-- **An award moves a reward from the records to the payments.** -/
theorem settled_award (hreceive : ReceiveSilent receive) {role : Role} {payee : Payee}
    {address : Address} {before : ℤ} (hsettled : Settled before address s)
    (haward : award host receive role payee s = some s₁) : Settled before address s₁ := by
  unfold award at haward
  split at haward
  · obtain rfl := Option.some.inj haward
    exact hsettled
  · rename_i entry hlookup
    obtain ⟨s₂, hpay, haward⟩ := of_bind haward
    obtain ⟨helect, hpaid, hcredited⟩ := of_payAward_reward hreceive address hpay
    have hbalanced := hsettled.balanced
    -- the row of the owner is empty in the end, or gone
    have hset : ∀ dist : Dists, (∀ other, Dists.reward dist other =
          if other = payee.name then 0 else Dists.reward (s₂.dist role) other) →
        Settled before address (s₂.setDist role dist) := by
      intro dist hdist
      refine ⟨loaded_of_distributed rfl, ?_⟩
      have hreward : s₂.reward address = s.reward address := by
        rw [Run.reward, helect]
        rfl
      have hrow : Dists.reward (s₂.dist role) payee.name = entry.reward := by
        rw [Run.dist, helect]
        exact weight_of_lookup hlookup
      rw [reward_setDist, hdist, hreward]
      change _ + paidFor address s₂.world.journal = _ + creditedTo address s₂.world.journal
      rw [hpaid, hcredited]
      by_cases hself : address = payee.name
      · rw [if_pos hself, if_pos hself.symm, hself, hrow, ← hself]
        linarith
      · rw [if_neg hself, if_neg fun h => hself h.symm]
        linarith
    dsimp only at haward
    split at haward
    · obtain rfl := Option.some.inj haward
      exact hset _ fun other => reward_insert ..
    · obtain rfl := Option.some.inj haward
      refine hset _ fun other => ?_
      rw [reward_erase, reward_insert]
      split <;> rfl

/-- **A distribution credits what it adds.** -/
theorem settled_rewardDistribution {address : Address} {before : ℤ}
    (hsettled : Settled before address s) (hdist : rewardDistribution s = some s₁) :
    Settled before address s₁ := by
  obtain ⟨reward, -, hdist⟩ := of_bind hdist
  split at hdist
  · obtain rfl := Option.some.inj hdist
    exact hsettled
  · obtain ⟨⟨valDist, kolDist⟩, -, hdist⟩ := of_bind hdist
    obtain rfl := Option.some.inj hdist
    refine ⟨loaded_of_distributed rfl, ?_⟩
    have hbalanced := hsettled.balanced
    change Dists.reward valDist address + Dists.reward kolDist address +
        (0 + paidFor address s.world.journal) =
      before + (Dists.reward valDist address + Dists.reward kolDist address -
        s.reward address + creditedTo address s.world.journal)
    linarith

/-- **The call keeps its books**, whatever the accounts do that are paid. -/
theorem settled_extract (hreceive : ReceiveSilent receive) {list : Option (List Payee)}
    (address : Address) (hdistributed : s.distributed = false) (hjournal : s.world.journal = [])
    (hextract : extract host receive msg list s = some s₁) :
    Settled (s.world.reward address) address s₁ := by
  have hboth : ∀ {s s₁ : Run} {payee : Payee} {before : ℤ}, Settled before address s →
      (award host receive .validator payee s).bind (award host receive .kol payee) =
        some s₁ → Settled before address s₁ := by
    intro s s₁ payee before hsettled haward
    obtain ⟨s₂, hfirst, hsecond⟩ := Option.bind_eq_some_iff.mp haward
    exact settled_award hreceive (settled_award hreceive hsettled hfirst) hsecond
  have hinit : Settled (s.world.reward address) address (electInit s) := by
    refine ⟨⟨?_, ?_⟩, ?_⟩
    · exact if_neg (by simp [electInit, hdistributed])
    · exact if_neg (by simp [electInit, hdistributed])
    · change s.world.reward address + paidFor address s.world.journal =
        s.world.reward address + creditedTo address s.world.journal
      rw [hjournal]
      rfl
  obtain ⟨s₂, hdist, hextract⟩ := of_bind hextract
  have hsettled₂ := settled_rewardDistribution hinit hdist
  dsimp only at hextract
  split at hextract
  · exact hboth hsettled₂ hextract
  · obtain ⟨-, hextract⟩ := of_assert hextract
    exact Runs.foldlM_invariant hboth hsettled₂ hextract

/-! ## Paid once -/

/-- In a call that leads from one state to another, what is paid for an address is at
most what was recorded and credited, and the rest is left. -/
def PaidOnce (address : Address) (w w' : World) : Prop :=
  let paid := paidFor address (w'.journal ++ w'.callbacks)
  let credited := creditedTo address (w'.journal ++ w'.callbacks)
  paid ≤ w.reward address + credited ∧ w'.reward address + paid = w.reward address + credited

instance (address : Address) (w w' : World) : Decidable (PaidOnce address w w') :=
  inferInstanceAs (Decidable (_ ∧ _))

/-- What `extract` leaves, with the journal of the call itself. -/
theorem balanced_extract (list : Option (List Payee)) (reactions : ℕ → Reaction)
    (address : Address) :
    (step host w (.call msg (.extract list) reactions)).reward address +
        paidFor address (step host w (.call msg (.extract list) reactions)).journal =
      w.reward address +
        creditedTo address (step host w (.call msg (.extract list) reactions)).journal := by
  unfold step
  dsimp only
  generalize hmain : main host (fun i => react host (reactions i)) msg _ _ = r
  cases r with
  | none => rfl
  | some w₁ =>
      obtain ⟨s, hprepare, hmain⟩ := of_bind hmain
      obtain ⟨hcoins, hmain⟩ := of_assert hmain
      obtain ⟨s₁, hdispatch, hmain⟩ := of_bind hmain
      obtain rfl := Option.some.inj hmain
      have hzero : msg.coinAmount = 0 := hcoins.resolve_left (by simp [Method.takesCoins])
      have hs : s.distributed = false ∧ s.world.journal = [] ∧
          s.world.reward address = w.reward address := by
        obtain ⟨read, -, ⟨hcoins, -⟩ | ⟨-, rfl⟩⟩ := prepare_cases hprepare
        · exact absurd hcoins (by rw [hzero]; exact lt_irrefl 0)
        · exact ⟨rfl, rfl, rfl⟩
      have hsettled := settled_extract (fun i _ _ h => silent_react (reactions i) h) address
        hs.1 hs.2.1 hdispatch
      have hbalanced := hsettled.balanced
      rw [hs.2.2] at hbalanced
      -- what is stored in the end is what the call holds
      have hleft : (saveDists s₁).reward address = s₁.reward address := by
        have hsheet : (saveDists s₁).storage.valDist = s₁.sheet.valDist ∧
            (saveDists s₁).storage.kolDist = s₁.sheet.kolDist := by
          unfold saveDists
          cases hdistributed : s₁.distributed <;> simp [Run.sheet, World.store, hdistributed]
        rw [World.reward, hsheet.1, hsheet.2, hsettled.loaded.1, hsettled.loaded.2]
        rfl
      have hjournal : (saveDists s₁).journal = s₁.world.journal := by
        unfold saveDists
        split <;> rfl
      rw [← hleft, ← hjournal] at hbalanced
      exact hbalanced

/-- The calls that the accounts make that are paid come on top. -/
theorem paidOnce_of_callbacks {list : Option (List Payee)} {reactions : ℕ → Reaction}
    {address : Address} (hrewarded : w.Rewarded)
    (hcallbacks : paidFor address (step host w (.call msg (.extract list) reactions)).callbacks =
      creditedTo address (step host w (.call msg (.extract list) reactions)).callbacks) :
    PaidOnce address w (step host w (.call msg (.extract list) reactions)) := by
  have hbalanced := @balanced_extract host msg w list reactions address
  have hrewarded' := @rewarded_step host w hrewarded (.call msg (.extract list) reactions)
  generalize step host w (.call msg (.extract list) reactions) = w' at *
  have hleft : 0 ≤ w'.reward address := by
    have hnonneg : ∀ {dist : Dists}, Dists.Nonneg dist → 0 ≤ Dists.reward dist address := by
      intro dist hdist
      unfold Dists.reward weight
      cases hlookup : dist.lookup address with
      | none => exact le_rfl
      | some entry => exact hdist address entry hlookup
    exact add_nonneg (hnonneg hrewarded'.valDist) (hnonneg hrewarded'.kolDist)
  unfold PaidOnce
  dsimp only
  rw [paidFor_append, creditedTo_append]
  constructor <;> linarith

/-! ## Calls without rewards -/

/-- The methods that call `rewardDistribution`. -/
def Method.settles : Method → Bool
  | .append _ | .vote .. | .unVote .. | .extract _ => true
  | .withdraw role | .approve _ (.role role) _ => decide (role ≠ .committee)
  | _ => false

/-- A line of the journal that is not about rewards. -/
def Mark.Idle (mark : Mark) : Prop :=
  ∀ address, mark.paidFor address = 0 ∧ mark.creditedTo address = 0

/-- No line of the journals is about rewards. -/
def World.Idle (w : World) : Prop :=
  (∀ mark ∈ w.journal, mark.Idle) ∧ ∀ mark ∈ w.callbacks, mark.Idle

theorem World.Idle.mark {mark : Mark} (hidle : w.Idle) (hmark : mark.Idle) : (w.mark mark).Idle :=
  ⟨List.forall_mem_cons.mpr ⟨hmark, hidle.1⟩, hidle.2⟩

/-- The calls that the accounts make that are paid neither pay rewards nor credit any. -/
def ReceiveIdle (receive : Receive) : Prop :=
  ∀ i w w', receive i w = some w' → w'.journal = w.journal ∧
    ((∀ mark ∈ w.callbacks, mark.Idle) → ∀ mark ∈ w'.callbacks, mark.Idle)

theorem idle_clean (hreceive : ReceiveIdle receive) {operate : Motion} {content : Content}
    {address : Address} (hidle : s.world.Idle)
    (hclean : clean host receive msg operate content address s = some s₁) : s₁.world.Idle := by
  obtain ⟨-, hclean⟩ := of_assert hclean
  obtain ⟨proposal, -, hclean⟩ := of_bind hclean
  obtain ⟨-, hclean⟩ := of_assert hclean
  dsimp only at hclean
  split at hclean
  · rename_i pledge _
    split at hclean
    · rcases transferCoin_cases hclean with ⟨-, rfl⟩ | ⟨w, hw, -, -, rfl⟩
      · exact hidle
      · have hmarked : (World.mark (.paid (toCString address) .refund pledge) s.world).Idle :=
          hidle.mark fun _ => ⟨rfl, rfl⟩
        obtain ⟨hjournal, hcallbacks⟩ := hreceive _ _ _ hw
        exact ⟨hjournal ▸ hmarked.1, hcallbacks hmarked.2⟩
    · obtain rfl := Option.some.inj hclean
      exact hidle
  · obtain rfl := Option.some.inj hclean
    exact hidle

theorem idle_approve {operate : Motion} {content : Content} {address : Address}
    (hsettles : (Method.approve operate content address).settles = false) (hidle : s.world.Idle)
    (happrove : approve host msg operate content address s = some s₁) : s₁.world.Idle := by
  obtain ⟨-, happrove⟩ := of_assert happrove
  obtain ⟨-, happrove⟩ := of_assert happrove
  obtain ⟨-, happrove⟩ := of_assert happrove
  obtain ⟨proposal, -, happrove⟩ := of_bind happrove
  obtain ⟨-, happrove⟩ := of_assert happrove
  split at happrove
  · obtain rfl := Option.some.inj happrove
    exact hidle
  · obtain ⟨-, happrove⟩ := of_assert happrove
    dsimp only at happrove
    split at happrove
    · obtain rfl := Option.some.inj happrove
      exact hidle
    · split at happrove
      · obtain ⟨value, -, rfl⟩ := Option.map_eq_some_iff.mp happrove
        unfold updateCfg
        dsimp only
        split
        · exact World.Idle.mark hidle fun _ => ⟨rfl, rfl⟩
        · exact hidle
      · rw [not_not.mp (of_decide_eq_false hsettles)] at happrove
        unfold passIn at happrove
        dsimp only at happrove
        rw [if_pos rfl] at happrove
        split at happrove <;> (obtain rfl := Option.some.inj happrove; exact hidle)
      · rw [not_not.mp (of_decide_eq_false hsettles)] at happrove
        unfold passOut at happrove
        dsimp only at happrove
        rw [if_pos rfl] at happrove
        obtain ⟨-, happrove⟩ := of_assert happrove
        obtain rfl := Option.some.inj happrove
        exact hidle
      · cases happrove

/-- **A method that does not distribute pays no reward and credits none.** -/
theorem idle_dispatch (hreceive : ReceiveIdle receive) {method : Method}
    (hsettles : method.settles = false) (hidle : s.world.Idle)
    (hdispatch : dispatch host receive msg method s = some s₁) : s₁.world.Idle := by
  cases method with
  | append | vote | unVote | extract => cases hsettles
  | withdraw role =>
      obtain rfl := not_not.mp (of_decide_eq_false hsettles)
      obtain ⟨-, hwithdraw⟩ := of_assert hdispatch
      obtain ⟨-, hwithdraw⟩ := of_assert hwithdraw
      obtain rfl := Option.some.inj hwithdraw
      exact hidle
  | approve => exact idle_approve hsettles hidle hdispatch
  | clean => exact idle_clean hreceive hidle hdispatch
  | apply =>
      obtain ⟨-, happly⟩ := of_assert hdispatch
      obtain ⟨-, -, happly⟩ := of_bind happly
      obtain ⟨proposal, -, happly⟩ := of_bind happly
      obtain rfl := Option.some.inj happly
      exact hidle
  | abolish =>
      obtain ⟨-, -, habolish⟩ := of_bind hdispatch
      obtain ⟨-, habolish⟩ := of_assert habolish
      obtain ⟨applied, -, habolish⟩ := of_bind habolish
      obtain ⟨-, habolish⟩ := of_assert habolish
      obtain rfl := Option.some.inj habolish
      exact hidle
  | configure =>
      obtain ⟨-, hconfigure⟩ := of_assert hdispatch
      obtain ⟨-, hconfigure⟩ := of_assert hconfigure
      dsimp only at hconfigure
      split at hconfigure <;> (obtain rfl := Option.some.inj hconfigure; exact hidle)
  | setNodeAddress =>
      obtain ⟨-, -, hset⟩ := of_bind hdispatch
      obtain ⟨proposal, -, hset⟩ := of_bind hset
      dsimp only at hset
      split at hset
      · obtain rfl := Option.some.inj hset
        exact hidle
      · split at hset <;> (obtain rfl := Option.some.inj hset; exact hidle)
  | setVoteDividend =>
      obtain ⟨proposal, -, hset⟩ := of_bind hdispatch
      obtain ⟨-, hset⟩ := of_assert hset
      obtain ⟨-, hset⟩ := of_assert hset
      obtain rfl := Option.some.inj hset
      exact hidle
  | unknown => cases hdispatch

theorem idle_main (hreceive : ReceiveIdle receive) {method : Method}
    (hsettles : method.settles = false) (hidle : w.Idle)
    (hmain : main host receive msg method w = some w₁) : w₁.Idle := by
  obtain ⟨s, hprepare, hmain⟩ := of_bind hmain
  obtain ⟨-, hmain⟩ := of_assert hmain
  obtain ⟨s₁, hdispatch, hmain⟩ := of_bind hmain
  obtain rfl := Option.some.inj hmain
  have hidle₁ : s₁.world.Idle := by
    refine idle_dispatch hreceive hsettles ?_ hdispatch
    obtain ⟨read, -, ⟨-, rfl⟩ | ⟨-, rfl⟩⟩ := prepare_cases hprepare
    · exact hidle
    · exact hidle
  unfold saveDists
  split
  · exact hidle₁
  · exact hidle₁

/-- **What the accounts call that are paid is not about rewards**, if they call none of the
methods that distribute; by induction on the calls that they make. -/
theorem idle_react (reaction : Reaction) :
    (reaction.All fun method => method.settles = false) → ∀ {w w₁ : World},
      react host reaction w = some w₁ → (∀ mark ∈ w.callbacks, mark.Idle) →
        ∀ mark ∈ w₁.callbacks, mark.Idle := by
  induction reaction with
  | done =>
      intro _ w w₁ hreact hidle
      obtain rfl := Option.some.inj hreact
      exact hidle
  | fail =>
      intro _ w w₁ hreact
      cases hreact
  | call msg method reactions next ihreactions ihnext =>
      intro ⟨hmethod, hreactions, hnext⟩ w w₁ hreact hidle
      refine ihnext hnext hreact ?_
      unfold World.within
      split
      · rename_i w' hmain
        -- the journals of the nested call begin empty
        have hidle' : w'.Idle := by
          refine idle_main (fun i _ _ h => ⟨silent_react (reactions i) h,
            ihreactions i (hreactions i) h⟩) hmethod ⟨?_, ?_⟩ hmain <;> exact nofun
        simp only [List.forall_mem_append]
        exact ⟨hidle', hidle⟩
      · exact hidle

theorem idle_callbacks_extract {reactions : ℕ → Reaction}
    (hidle : ∀ i, (reactions i).All fun method => method.settles = false)
    (list : Option (List Payee)) :
    ∀ mark ∈ (step host w (.call msg (.extract list) reactions)).callbacks, mark.Idle := by
  unfold step
  dsimp only
  generalize hmain : main host (fun i => react host (reactions i)) msg _ _ = r
  cases r with
  | none => exact nofun
  | some w₁ =>
      obtain ⟨s, hprepare, hmain⟩ := of_bind hmain
      obtain ⟨-, hmain⟩ := of_assert hmain
      obtain ⟨s₁, hdispatch, hmain⟩ := of_bind hmain
      obtain rfl := Option.some.inj hmain
      have hs : s.world.callbacks = [] := by
        obtain ⟨read, -, ⟨-, rfl⟩ | ⟨-, rfl⟩⟩ := prepare_cases hprepare <;> rfl
      have hidle₁ : ∀ mark ∈ s₁.world.callbacks, mark.Idle := by
        refine extract_invariant (p := fun s => ∀ mark ∈ s.world.callbacks, mark.Idle)
          (fun htransfer hbefore => ?_) (fun _ _ _ hbefore => ⟨hbefore, hbefore⟩) hdispatch
          (fun hdist => ?_)
        · rcases transferCoin_cases htransfer with ⟨-, rfl⟩ | ⟨w, hw, -, -, rfl⟩
          · exact hbefore
          · exact idle_react (reactions _) (hidle _) hw hbefore
        · obtain ⟨reward, -, hdist⟩ := of_bind hdist
          split at hdist
          · obtain rfl := Option.some.inj hdist
            exact hs ▸ nofun
          · obtain ⟨_, -, hdist⟩ := of_bind hdist
            obtain rfl := Option.some.inj hdist
            exact hs ▸ nofun
      unfold saveDists
      split <;> exact hidle₁

/-- **Rewards are paid once** by a call of `extract`, from any state of any history, if the
accounts that are paid call no method that distributes rewards before the payments return,
whatever else they do. -/
theorem paidOnce_of_idle {w₀ : World} {init : Msg} {logicContract : Address}
    {committee : List Address} {validators : List (Address × ℤ)} {balance : ℕ}
    (hinit : initialization host init logicContract committee validators balance = some w₀)
    {steps : List Step} (hmem : w ∈ states host w₀ steps) (msg : Msg)
    (list : Option (List Payee)) (reactions : ℕ → Reaction)
    (hidle : ∀ i, (reactions i).All fun method => method.settles = false) (address : Address) :
    PaidOnce address w (step host w (.call msg (.extract list) reactions)) := by
  refine paidOnce_of_callbacks (rewarded_states (rewarded_initialization hinit) steps w hmem) ?_
  have hmarks := @idle_callbacks_extract host msg w reactions hidle list
  generalize (step host w _).callbacks = callbacks at hmarks ⊢
  induction callbacks with
  | nil => rfl
  | cons mark callbacks ih =>
      obtain ⟨hmark, hrest⟩ := List.forall_mem_cons.mp hmarks
      rw [paidFor, creditedTo, List.map_cons, List.map_cons, List.sum_cons, List.sum_cons,
        (hmark address).1, (hmark address).2]
      exact congrArg _ (ih hrest)

/-- Two validators have been credited 100 each. -/
def creditedHistory : List Step :=
  [.reward 200, plainCall [5] 1 (.extract none)]

/-- The state after that. -/
def creditedWorld : World :=
  creditedHistory.foldl (step sampleHost) (sampleWorld [([3], 0), ([4], 0)])

theorem mem_creditedWorld : creditedWorld ∈
    states sampleHost (sampleWorld [([3], 0), ([4], 0)]) creditedHistory :=
  foldl_mem_states sampleHost creditedHistory _

/-- A validator takes its reward, and changes its dividend when it is paid. -/
theorem paidOnce_plain : PaidOnce [3] creditedWorld
    (step sampleHost creditedWorld (.call (plainMsg [3] 2) (.extract none) fun _ =>
      .call (plainMsg [3] 2) (.setVoteDividend .validator none (some 50)) (fun _ => .done)
        .done)) :=
  paidOnce_of_idle (initialization_sample _) mem_creditedWorld _ _ _
    (by simp [Reaction.All, Method.settles]) _

/-- A validator that asks again when it is paid. -/
def askAgain : Reaction :=
  .call (plainMsg [3] 2) (.extract none) (fun _ => .done) .done

/-- It was credited 100, and is paid 200 when `[5]` has its reward paid. -/
theorem paidTwice : creditedWorld.reward [3] = 100 ∧
    (let w := step sampleHost creditedWorld
      (.call (plainMsg [5] 2) (.extract (some [⟨[3], true⟩])) fun _ => askAgain)
    creditedTo [3] (w.journal ++ w.callbacks) = 0 ∧
      paidFor [3] (w.journal ++ w.callbacks) = 200 ∧ ¬ PaidOnce [3] creditedWorld w) := by
  decide +kernel

end CegChain.Dpos
