import CegChain.Contract.Register
import Mathlib.Data.Finset.Dedup

/-!
# Majorities

A proposal takes effect when its ballot has more addresses than a share of the committee.  The
ballot is stored with the proposal.  Nobody is taken off it: not when a member leaves the
committee, and not when `abolish` opens an expired abolition once more.  So the addresses on it
need not be members, nor need they have approved the proposal since it was opened.

The log of the calls says who has approved a proposal since it was last opened (`approvalsOf`).
In a history in which whoever leaves the committee is on no open ballot, and no abolition with a
ballot is opened again, every proposal that takes effect has been approved by a majority
(`approved_states`).
-/

namespace CegChain.Dpos

open Layers Totals

variable {host : Host} {receive : Receive} {s s₁ : Run} {w w₁ w₂ : World} {call : Call}
  {key : ProposalKey}

/-! ## Approvals -/

/-- Who has approved a proposal since it was last opened, after one more call.  It is opened by
`apply`, by `configure` and by the first `abolish`, and by an `abolish` that finds it expired;
`configure` and an `abolish` within the committee approve it at once. -/
def Call.approvals (key : ProposalKey) (since : List Address) (call : Call) : List Address :=
  let stored := call.before.proposals.lookup key
  match call.method with
  | .apply role _ _ _ => if key = ⟨.apply, .role role, call.msg.sender⟩ then [] else since
  | .configure item value =>
      if key = ⟨.config, .item item, call.msg.sender⟩ ∧
          sameValue (stored.bind Proposal.value) value = false then
        [call.msg.sender]
      else since
  | .abolish role address =>
      if key = proposalKey .abolish (.role role) address then
        match stored with
        | none => if role = .committee then [call.msg.sender] else []
        | some proposal => if call.msg.timestamp ≥ proposal.expiration then [] else since
      else since
  | .approve operate content address =>
      if key = proposalKey operate content address ∧
          stored.any (fun proposal => call.msg.timestamp < proposal.expiration) then
        since ++ [call.msg.sender]
      else since
  | _ => since

/-- Who has approved a proposal since it was last opened. -/
def approvalsOf (calls : List Call) (key : ProposalKey) : List Address :=
  calls.foldr (fun call since => call.approvals key since) []

theorem approvalsOf_cons (call : Call) (calls : List Call) (key : ProposalKey) :
    approvalsOf (call :: calls) key = call.approvals key (approvalsOf calls key) :=
  rfl

/-- The call makes the proposal take effect. -/
structure Call.TakesEffect (host : Host) (call : Call) (key : ProposalKey)
    (proposal : Proposal) : Prop where
  method : ∃ address, key = proposalKey key.operate key.content address ∧
    call.method = .approve key.operate key.content address
  stored : call.before.proposals.lookup key = some proposal
  unexpired : call.msg.timestamp < proposal.expiration
  passed : host.passCount call.before.committee.length (call.before.config .passRate) <
    (proposal.ballot ++ [call.msg.sender]).length

/-- More than the share of the committee that is asked for are on the ballot, and all of them
have approved the proposal since it was last opened. -/
structure Majority (host : Host) (st : Storage) (ballot approvals : List Address) : Prop where
  enough : host.passCount st.committee.length (st.config .passRate) <
    (st.committee.toFinset ∩ ballot.toFinset).card
  approved : ∀ member ∈ st.committee, member ∈ ballot → member ∈ approvals

/-- Whatever took effect had a majority. -/
def ByMajority (host : Host) (calls : List Call) : Prop :=
  ∀ call earlier, call :: earlier <:+ calls → ∀ key proposal,
    call.TakesEffect host key proposal →
      Majority host call.before (proposal.ballot ++ [call.msg.sender])
        (approvalsOf (call :: earlier) key)

/-! ## The condition -/

/-- The address is on no open ballot. -/
def Unballoted (proposals : Table ProposalKey Proposal) (address : Address) : Prop :=
  ∀ key proposal, proposals.lookup key = some proposal → proposal.passTime = none →
    address ∉ proposal.ballot

/-- An address may leave the committee: it is on no open ballot, or it is listed twice. -/
def MayLeave (proposals : Table ProposalKey Proposal) (committee : List Address)
    (address : Address) : Prop :=
  address ∈ committee.erase address ∨ Unballoted proposals address

/-- The call leaves no address on a ballot that should not be there: whoever leaves the
committee may do so, and no expired abolition that has a ballot is opened again. -/
def Call.KeepsBallots (host : Host) (call : Call) : Prop :=
  match call.method with
  | .withdraw .committee =>
      MayLeave (call.before.proposals.erase ⟨.apply, .role .committee, call.msg.sender⟩)
        call.before.committee call.msg.sender
  | .approve .abolish (.role .committee) address =>
      let key := proposalKey .abolish (.role .committee) address
      (∃ proposal, call.TakesEffect host key proposal) →
        MayLeave (call.before.proposals.erase key) call.before.committee address
  | .abolish role address =>
      let key := proposalKey .abolish (.role role) address
      ∀ proposal, call.before.proposals.lookup key = some proposal →
        call.msg.timestamp ≥ proposal.expiration → proposal.ballot = []
  | _ => True

/-! ## The invariant -/

/-- The part of the state that approvals are about. -/
structure Assembly where
  proposals : Table ProposalKey Proposal
  committee : List Address
  calls : List Call

def World.assembly (w : World) : Assembly :=
  ⟨w.storage.proposals, w.storage.committee, w.calls⟩

/-- A ballot on which every address is that of a member who has approved the proposal. -/
structure FairBallot (a : Assembly) (key : ProposalKey) (ballot : List Address) : Prop where
  nodup : ballot.Nodup
  members : ∀ address ∈ ballot, address ∈ a.committee
  approved : ∀ address ∈ ballot, address ∈ approvalsOf a.calls key

/-- The open ballot of a proposal, if there is one, is fair. -/
def FairAt (a : Assembly) (key : ProposalKey) : Prop :=
  ∀ proposal, a.proposals.lookup key = some proposal → proposal.passTime = none →
    FairBallot a key proposal.ballot

/-- All open ballots are fair. -/
def Fair (a : Assembly) : Prop :=
  ∀ key, FairAt a key

theorem fairBallot_nil (a : Assembly) (key : ProposalKey) : FairBallot a key [] :=
  ⟨List.nodup_nil, by simp, by simp⟩

/-- A proposal that is left alone. -/
theorem FairAt.of_same {a a' : Assembly} (hfair : FairAt a key)
    (hlookup : a'.proposals.lookup key = a.proposals.lookup key)
    (hcommittee : a.committee ⊆ a'.committee)
    (hcalls : approvalsOf a'.calls key = approvalsOf a.calls key) : FairAt a' key := by
  intro proposal hstored hopen
  rw [hlookup] at hstored
  obtain ⟨hnodup, hmembers, happroved⟩ := hfair proposal hstored hopen
  refine ⟨hnodup, fun address hmem => hcommittee (hmembers address hmem), fun address hmem => ?_⟩
  rw [hcalls]
  exact happroved address hmem

/-- The call is about this proposal only. -/
def Call.Only (call : Call) (key : ProposalKey) : Prop :=
  ∀ key' since, key' ≠ key → call.approvals key' since = since

/-- A call that stores this proposal. -/
theorem Fair.save {a : Assembly} {proposal : Proposal} (hfair : Fair a) (honly : call.Only key)
    (hballot : proposal.passTime = none →
      FairBallot ⟨a.proposals, a.committee, call :: a.calls⟩ key proposal.ballot) :
    Fair ⟨a.proposals.insert key proposal, a.committee, call :: a.calls⟩ := by
  intro key'
  by_cases hkey : key' = key
  · subst hkey
    intro proposal' hstored hopen
    rw [AList.lookup_insert] at hstored
    obtain rfl := Option.some.inj hstored
    obtain ⟨hnodup, hmembers, happroved⟩ := hballot hopen
    exact ⟨hnodup, hmembers, happroved⟩
  · exact (hfair key').of_same (AList.lookup_insert_ne hkey) (List.Subset.refl _)
      (honly key' _ hkey)

/-- A call that deletes proposals, and after which the committee is this one. -/
theorem Fair.delete {a : Assembly} {proposals : Table ProposalKey Proposal}
    {committee : List Address} (hfair : Fair a)
    (hcall : ∀ key' since, proposals.lookup key' ≠ none → call.approvals key' since = since)
    (hlookup : ∀ key', proposals.lookup key' = none ∨
      proposals.lookup key' = a.proposals.lookup key')
    (hcommittee : ∀ key' proposal, proposals.lookup key' = some proposal →
      proposal.passTime = none → ∀ address ∈ proposal.ballot, address ∈ a.committee →
        address ∈ committee) :
    Fair ⟨proposals, committee, call :: a.calls⟩ := by
  intro key' proposal hstored hopen
  have hfound := hstored
  rcases hlookup key' with hnone | hsame
  · cases hnone.symm.trans hstored
  · rw [hsame] at hfound
    obtain ⟨hnodup, hmembers, happroved⟩ := hfair key' proposal hfound hopen
    refine ⟨hnodup, fun address hmem => ?_, fun address hmem => ?_⟩
    · exact hcommittee key' proposal hstored hopen address hmem (hmembers address hmem)
    · have hne : proposals.lookup key' ≠ none := by
        intro hnone
        cases hnone.symm.trans hstored
      change address ∈ call.approvals key' (approvalsOf a.calls key')
      rw [hcall key' _ hne]
      exact happroved address hmem

theorem Fair.erase {a : Assembly} (hfair : Fair a) (key : ProposalKey) :
    Fair { a with proposals := a.proposals.erase key } := by
  intro key' proposal hstored hopen
  have hne : key' ≠ key := by
    rintro rfl
    cases (AList.lookup_erase _ _).symm.trans hstored
  have hsame : FairAt { a with proposals := a.proposals.erase key } key' :=
    (hfair key').of_same (AList.lookup_erase_ne hne) (List.Subset.refl _) rfl
  exact hsame proposal hstored hopen

/-- A proposal is stored with the ballot it had, or an empty one. -/
theorem Fair.resave {a : Assembly} {proposal : Proposal} (hfair : Fair a)
    (hballot : proposal.ballot = [] ∨ ∃ old, a.proposals.lookup key = some old ∧
      proposal.ballot = old.ballot ∧ proposal.passTime = old.passTime) :
    Fair { a with proposals := a.proposals.insert key proposal } := by
  intro key'
  by_cases hkey : key' = key
  · subst hkey
    intro proposal' hstored hopen
    obtain rfl := Option.some.inj ((AList.lookup_insert _).symm.trans hstored)
    rcases hballot with hnil | ⟨old, hold, hsame, htime⟩
    · rw [hnil]
      exact fairBallot_nil _ _
    · obtain ⟨hnodup, hmembers, happroved⟩ := hfair _ old hold (htime ▸ hopen)
      rw [hsame]
      exact ⟨hnodup, hmembers, happroved⟩
  · exact (hfair key').of_same (AList.lookup_insert_ne hkey) (List.Subset.refl _) rfl

/-! ## What elections leave alone -/

theorem assembly_rewardDistribution (hdist : rewardDistribution s = some s₁) :
    s₁.world.assembly = s.world.assembly := by
  obtain ⟨reward, -, hdist⟩ := of_bind hdist
  split at hdist
  · obtain rfl := Option.some.inj hdist
    rfl
  · obtain ⟨⟨valDist, kolDist⟩, -, hdist⟩ := of_bind hdist
    obtain rfl := Option.some.inj hdist
    rfl

theorem assembly_saveElection (role : Role) (sorted saved : List Candidate) (elected : Bool)
    (s : Run) : (saveElection role sorted saved elected s).world.assembly = s.world.assembly := by
  cases role <;> cases elected <;> rfl

theorem assembly_addDist (role : Role) (address : Address) (proposal : Proposal) (s : Run) :
    (addDist role address proposal s).world.assembly = s.world.assembly := by
  unfold addDist
  split <;> rfl

theorem assembly_addCandidates {role : Role} {address : Address} {proposal : Proposal}
    {maxSize : ℕ} (hadd : addCandidates role address proposal maxSize s = some s₁) :
    s₁.world.assembly = s.world.assembly := by
  obtain ⟨pledge, -, hadd⟩ := of_bind hadd
  obtain ⟨stake, -, hadd⟩ := of_bind hadd
  split at hadd
  · obtain rfl := Option.some.inj hadd
    rfl
  · obtain ⟨s₂, hdist, hadd⟩ := of_bind hadd
    obtain ⟨-, hadd⟩ := of_assert hadd
    obtain rfl := Option.some.inj hadd
    rw [assembly_saveElection, assembly_addDist, assembly_rewardDistribution hdist]

theorem assembly_deleteCandidate {role : Role} {address : Address}
    (hdelete : deleteCandidate role address s = some s₁) :
    s₁.world.assembly = s.world.assembly := by
  unfold deleteCandidate at hdelete
  split at hdelete
  · obtain ⟨s₂, hdist, hdelete⟩ := of_bind hdelete
    obtain rfl := Option.some.inj hdelete
    have hsame := assembly_rewardDistribution hdist
    rw [assembly_saveElection]
    exact hsame
  · obtain rfl := Option.some.inj hdelete
    rfl

theorem assembly_updateStake {role : Role} {found : Candidate} {formalSize amount : ℤ}
    (hupdate : updateStake role found formalSize amount s = some s₁) :
    s₁.world.assembly = s.world.assembly := by
  obtain ⟨stake, -, hupdate⟩ := of_bind hupdate
  have hsaved : ∀ candidates, ((s.setCandidates role candidates).saveCandidates role
      candidates).world.assembly = s.world.assembly := by
    intro candidates
    cases role <;> rfl
  dsimp only at hupdate
  split at hupdate
  · obtain ⟨s₂, hdist, hupdate⟩ := of_bind hupdate
    have hassembly := (assembly_rewardDistribution hdist).trans (hsaved _)
    split at hupdate
    · obtain rfl := Option.some.inj hupdate
      exact hassembly
    · obtain rfl := Option.some.inj hupdate
      exact hassembly
  · obtain rfl := Option.some.inj hupdate
    exact hsaved _

/-! ## Calls that do not approve -/

/-- What a call that succeeds does to the state, if it keeps the ballots. -/
def World.Meets (host : Host) (w : World) : Prop :=
  Fair w.assembly ∧ ByMajority host w.calls

/-- From one state to the other calls have been made, which have read their metadata, and if they
have kept the ballots, all is as it was before. -/
structure Advances (host : Host) (w w' : World) : Prop where
  calls : w.calls <:+ w'.calls
  reads : (∀ call ∈ w.calls, call.Reads) → ∀ call ∈ w'.calls, call.Reads
  meets : (∀ call ∈ w'.calls, call.KeepsBallots host) → w.Meets host → w'.Meets host

theorem Advances.refl (w : World) : Advances host w w :=
  ⟨List.suffix_refl _, id, fun _ hmeets => hmeets⟩

theorem Advances.trans (hfirst : Advances host w w₁) (hsecond : Advances host w₁ w₂) :
    Advances host w w₂ where
  calls := hfirst.calls.trans hsecond.calls
  reads := hsecond.reads ∘ hfirst.reads
  meets hkeeps hmeets := hsecond.meets hkeeps
    (hfirst.meets (fun call hmem => hkeeps call (hsecond.calls.subset hmem)) hmeets)

/-- No call has been made. -/
theorem Advances.of_fair (hcalls : w₁.calls = w.calls)
    (hfair : Fair w.assembly → Fair w₁.assembly) : Advances host w w₁ where
  calls := by rw [hcalls]
  reads := by rw [hcalls]; exact id
  meets _ hmeets := by
    refine ⟨hfair hmeets.1, ?_⟩
    rw [hcalls]
    exact hmeets.2

theorem Advances.of_eq (hassembly : w₁.assembly = w.assembly) : Advances host w w₁ :=
  .of_fair (congrArg Assembly.calls hassembly) fun hfair => hassembly ▸ hfair

/-- The accounts that are paid make such calls. -/
def ReceiveAdvances (host : Host) (receive : Receive) : Prop :=
  ∀ i w w', receive i w = some w' → Advances host w w'

variable {msg : Msg}

theorem advances_transferCoin (hreceive : ReceiveAdvances host receive) {dest : Address}
    {amount : ℤ} {remark : Remark}
    (htransfer : transferCoin host receive dest amount remark s = some s₁) :
    Advances host s.world s₁.world := by
  rcases transferCoin_cases htransfer with ⟨-, rfl⟩ | ⟨w, hw, -, -, rfl⟩
  · exact .refl _
  · refine Advances.trans ?_ (hreceive _ _ _ hw)
    exact .of_eq rfl

theorem advances_extract (hreceive : ReceiveAdvances host receive) {list : Option (List Payee)}
    (hextract : extract host receive msg list s = some s₁) :
    Advances host s.world s₁.world := by
  refine @extract_invariant host receive msg s s₁ (fun s' => Advances host s.world s'.world) ?_
    ?_ list hextract ?_
  · intro dest amount remark s₂ s₃ htransfer hadvances
    exact hadvances.trans (advances_transferCoin hreceive htransfer)
  · intro s₂ role address entry hadvances
    exact ⟨hadvances, hadvances⟩
  · intro s₂ hdist
    have hsame := assembly_rewardDistribution hdist
    exact .of_eq hsame

theorem advances_saveProposal {proposal : Proposal}
    (hballot : proposal.ballot = [] ∨ ∃ old, s.proposals.lookup key = some old ∧
      proposal.ballot = old.ballot ∧ proposal.passTime = old.passTime) :
    Advances host s.world (s.saveProposal key proposal).world :=
  .of_fair rfl fun hfair => hfair.resave hballot

theorem advances_delProposal (key : ProposalKey) (s : Run) :
    Advances host s.world (s.delProposal key).world :=
  .of_fair rfl fun hfair => hfair.erase key

theorem advances_append {role : Role} (happend : append msg role s = some s₁) :
    Advances host s.world s₁.world := by
  obtain ⟨proposal, hproposal, happend⟩ := of_bind happend
  obtain ⟨-, happend⟩ := of_assert happend
  obtain ⟨odd, -, happend⟩ := of_bind happend
  obtain ⟨-, happend⟩ := of_assert happend
  obtain ⟨old, -, happend⟩ := of_bind happend
  obtain ⟨pledge, -, happend⟩ := of_bind happend
  have hsave : Advances host s.world (s.saveProposal ⟨.apply, .role role, msg.sender⟩
      { proposal with pledge := some pledge }).world :=
    advances_saveProposal (.inr ⟨proposal, hproposal, rfl, rfl⟩)
  dsimp only at happend
  split at happend
  · obtain rfl := Option.some.inj happend
    exact hsave
  · obtain ⟨-, happend⟩ := of_assert happend
    split at happend
    · have hsame := assembly_addCandidates happend
      exact hsave.trans (.of_eq hsame)
    · obtain ⟨stake, -, hupdate⟩ := of_bind happend
      have hsame := assembly_updateStake hupdate
      exact hsave.trans (.of_eq hsame)

theorem advances_vote {role : Role} {address : Address}
    (hvote : vote host msg role address s = some s₁) : Advances host s.world s₁.world := by
  obtain ⟨-, hvote⟩ := of_assert hvote
  obtain ⟨-, hvote⟩ := of_assert hvote
  obtain ⟨odd, -, hvote⟩ := of_bind hvote
  obtain ⟨-, hvote⟩ := of_assert hvote
  obtain ⟨voteAmount, -, hvote⟩ := of_bind hvote
  obtain ⟨found, -, hupdate⟩ := of_bind hvote
  have hsame := assembly_updateStake hupdate
  exact .of_eq hsame

theorem advances_unVote (hreceive : ReceiveAdvances host receive) {role : Role}
    {address : Address} (hunvote : unVote host receive msg role address s = some s₁) :
    Advances host s.world s₁.world := by
  obtain ⟨-, hunvote⟩ := of_assert hunvote
  obtain ⟨-, hunvote⟩ := of_assert hunvote
  obtain ⟨amount, -, hunvote⟩ := of_bind hunvote
  obtain ⟨s₂, htransfer, hunvote⟩ := of_bind hunvote
  have hpaid := advances_transferCoin hreceive htransfer
  replace hpaid : Advances host s.world s₂.world := by
    refine Advances.trans ?_ hpaid
    exact .of_eq rfl
  dsimp only at hunvote
  split at hunvote
  · obtain rfl := Option.some.inj hunvote
    exact hpaid
  · obtain ⟨-, hupdate⟩ := of_assert hunvote
    have hsame := assembly_updateStake hupdate
    exact hpaid.trans (.of_eq hsame)

theorem advances_withdraw (hreceive : ReceiveAdvances host receive) {role : Role}
    (hrole : role ≠ .committee) (hwithdraw : withdraw host receive msg role s = some s₁) :
    Advances host s.world s₁.world := by
  unfold withdraw at hwithdraw
  dsimp only at hwithdraw
  rw [if_neg hrole] at hwithdraw
  split at hwithdraw
  · obtain ⟨applicant, -, hwithdraw⟩ := of_bind hwithdraw
    obtain ⟨pledge, -, hwithdraw⟩ := of_bind hwithdraw
    split at hwithdraw
    · exact (advances_delProposal _ s).trans (advances_transferCoin hreceive hwithdraw)
    · obtain ⟨s₂, hdelete, hwithdraw⟩ := of_bind hwithdraw
      obtain rfl := Option.some.inj hwithdraw
      have hsame := assembly_deleteCandidate hdelete
      have hdeleted : Advances host s.world s₂.world :=
        (advances_delProposal _ s).trans (.of_eq hsame)
      exact hdeleted.trans (advances_saveProposal (.inl rfl))
  · obtain ⟨-, hwithdraw⟩ := of_assert hwithdraw
    obtain ⟨pledge, -, htransfer⟩ := of_bind hwithdraw
    exact (advances_delProposal _ s).trans (advances_transferCoin hreceive htransfer)

theorem advances_setNodeAddress {address : Address}
    (hset : setNodeAddress host msg address s = some s₁) : Advances host s.world s₁.world := by
  obtain ⟨-, -, hset⟩ := of_bind hset
  obtain ⟨proposal, hproposal, hset⟩ := of_bind hset
  have hsave : Advances host s.world (s.saveProposal ⟨.apply, .role .validator, msg.sender⟩
      { proposal with node := some address }).world :=
    advances_saveProposal (.inr ⟨proposal, hproposal, rfl, rfl⟩)
  dsimp only at hset
  split at hset
  · obtain rfl := Option.some.inj hset
    exact hsave
  · split at hset
    · obtain rfl := Option.some.inj hset
      exact hsave.trans (.of_eq rfl)
    · obtain rfl := Option.some.inj hset
      exact hsave.trans (.of_eq rfl)

theorem advances_setVoteDividend {role : Role} {pool : Option Address} {ratio : Option ℤ}
    (hset : setVoteDividend host msg role pool ratio s = some s₁) :
    Advances host s.world s₁.world := by
  obtain ⟨proposal, hproposal, hset⟩ := of_bind hset
  obtain ⟨-, hset⟩ := of_assert hset
  obtain ⟨-, hset⟩ := of_assert hset
  obtain rfl := Option.some.inj hset
  have hsave : Advances host s.world (s.saveProposal ⟨.apply, .role role, msg.sender⟩
      { proposal with
        rewardPool := pool.or proposal.rewardPool
        rewardRatio := ratio.or proposal.rewardRatio }).world :=
    advances_saveProposal (.inr ⟨proposal, hproposal, rfl, rfl⟩)
  refine hsave.trans (.of_eq ?_)
  cases role <;> rfl

theorem advances_clean (hreceive : ReceiveAdvances host receive) {operate : Motion}
    {content : Content} {address : Address}
    (hclean : clean host receive msg operate content address s = some s₁) :
    Advances host s.world s₁.world := by
  obtain ⟨-, hclean⟩ := of_assert hclean
  obtain ⟨proposal, -, hclean⟩ := of_bind hclean
  obtain ⟨-, hclean⟩ := of_assert hclean
  have hdelete := @advances_delProposal host (proposalKey operate content address) s
  dsimp only at hclean
  split at hclean
  · split at hclean
    · exact hdelete.trans (advances_transferCoin hreceive hclean)
    · obtain rfl := Option.some.inj hclean
      exact hdelete
  · obtain rfl := Option.some.inj hclean
    exact hdelete

/-! ## Calls that open or approve a proposal -/

/-- The metadata that the call has found. -/
structure Call.Finds (call : Call) (s : Run) : Prop where
  proposals : call.before.proposals = s.proposals
  committee : call.before.committee = s.world.storage.committee
  config : call.before.config = s.cfg

theorem ballot_applicationProposal {role : Role} {pool : Address} {ratio : ℤ} {node : Address}
    {proposal : Proposal}
    (hproposal : applicationProposal host msg role pool ratio node s = some proposal) :
    proposal.ballot = [] := by
  unfold applicationProposal at hproposal
  dsimp only at hproposal
  split at hproposal
  · obtain rfl := Option.some.inj hproposal
    rfl
  · obtain ⟨-, hproposal⟩ := of_assert hproposal
    obtain ⟨-, hproposal⟩ := of_assert hproposal
    split at hproposal
    · obtain rfl := Option.some.inj hproposal
      rfl
    · obtain ⟨-, -, hproposal⟩ := of_bind hproposal
      obtain rfl := Option.some.inj hproposal
      rfl

theorem fair_apply {role : Role} {pool : Option Address} {ratio : Option ℤ}
    {node : Option Address} (hmethod : call.method = .apply role pool ratio node)
    (happly : apply host call.msg role pool ratio node s = some s₁)
    (hfair : Fair s.world.assembly) : Fair (s₁.world.log call).assembly := by
  obtain ⟨-, happly⟩ := of_assert happly
  obtain ⟨-, -, happly⟩ := of_bind happly
  obtain ⟨proposal, hproposal, happly⟩ := of_bind happly
  obtain rfl := Option.some.inj happly
  refine Fair.save hfair ?_ fun _ => ?_
  · intro key' since hkey
    simp [Call.approvals, hmethod, hkey]
  · rw [ballot_applicationProposal hproposal]
    exact fairBallot_nil _ _

theorem fair_configure {item : Item} {value : Value}
    (hmethod : call.method = .configure item value) (hfinds : call.Finds s)
    (hconfigure : configure host call.msg item value s = some s₁)
    (hfair : Fair s.world.assembly) : Fair (s₁.world.log call).assembly := by
  obtain ⟨-, hconfigure⟩ := of_assert hconfigure
  obtain ⟨hmember, hconfigure⟩ := of_assert hconfigure
  dsimp only at hconfigure
  split at hconfigure
  · rename_i hsame
    obtain rfl := Option.some.inj hconfigure
    intro key'
    refine (hfair key').of_same rfl (List.Subset.refl _) ?_
    change call.approvals key' (approvalsOf s.world.calls key') = _
    rw [Call.approvals, hmethod]
    refine if_neg fun hopens => ?_
    obtain ⟨rfl, hdiffers⟩ := hopens
    rw [hfinds.proposals, hsame] at hdiffers
    cases hdiffers
  · rename_i hdiffers
    obtain rfl := Option.some.inj hconfigure
    have honly : call.Only ⟨.config, .item item, call.msg.sender⟩ := by
      intro key' since hkey
      simp [Call.approvals, hmethod, hkey]
    refine Fair.save hfair honly fun _ => ⟨List.nodup_singleton _, ?_, ?_⟩
    · intro address hmem
      rw [List.mem_singleton.mp hmem]
      exact hmember
    · intro address hmem
      rw [approvalsOf_cons, Call.approvals, hmethod]
      dsimp only
      rwa [if_pos ⟨rfl, by rw [hfinds.proposals]; exact Bool.not_eq_true _ ▸ hdiffers⟩]

theorem fair_abolish {role : Role} {address : Address}
    (hmethod : call.method = .abolish role address) (hfinds : call.Finds s)
    (hkeeps : call.KeepsBallots host)
    (habolish : abolish host call.msg role address s = some s₁)
    (hfair : Fair s.world.assembly) : Fair (s₁.world.log call).assembly := by
  obtain ⟨u, hpermission, habolish⟩ := of_bind habolish
  obtain ⟨-, habolish⟩ := of_assert habolish
  obtain ⟨applied, -, habolish⟩ := of_bind habolish
  obtain ⟨-, habolish⟩ := of_assert habolish
  obtain rfl := Option.some.inj habolish
  have honly : call.Only (proposalKey .abolish (.role role) address) := by
    intro key' since hkey
    simp [Call.approvals, hmethod, hkey]
  refine Fair.save hfair honly fun hopen => ?_
  have happrovals : ∀ since, call.approvals (proposalKey .abolish (.role role) address) since =
      match s.proposals.lookup (proposalKey .abolish (.role role) address) with
      | none => if role = .committee then [call.msg.sender] else []
      | some proposal => if call.msg.timestamp ≥ proposal.expiration then [] else since := by
    intro since
    rw [Call.approvals, hmethod, ← hfinds.proposals]
    exact if_pos rfl
  cases hstored : s.proposals.lookup (proposalKey .abolish (.role role) address) with
  | none =>
      -- the informer of a member is a member
      rw [hstored] at happrovals
      by_cases hrole : role = .committee
      · subst hrole
        have hmember : call.msg.sender ∈ s.world.storage.committee :=
          assert_eq_some.mp hpermission
        refine ⟨List.nodup_singleton _, ?_, ?_⟩
        · intro member hmem
          rw [List.mem_singleton.mp hmem]
          exact hmember
        · intro member hmem
          rw [approvalsOf_cons, happrovals]
          exact hmem
      · simp only [Option.getD_none, if_neg hrole]
        exact fairBallot_nil _ _
  | some proposal =>
      rw [hstored] at happrovals hopen
      obtain ⟨hnodup, hmembers, happroved⟩ := hfair _ proposal hstored hopen
      refine ⟨hnodup, hmembers, fun member hmem => ?_⟩
      rw [approvalsOf_cons, happrovals]
      dsimp only
      split
      · rename_i hexpired
        simp only [Call.KeepsBallots, hmethod] at hkeeps
        rw [hfinds.proposals] at hkeeps
        have hnil := hkeeps proposal hstored hexpired
        change member ∈ proposal.ballot at hmem
        rwa [hnil] at hmem
      · exact happroved member hmem

theorem MayLeave.mem_erase {proposals : Table ProposalKey Proposal} {committee : List Address}
    {leaver address : Address} {proposal : Proposal} (hleave : MayLeave proposals committee leaver)
    (hstored : proposals.lookup key = some proposal) (hopen : proposal.passTime = none)
    (hballot : address ∈ proposal.ballot) (hmember : address ∈ committee) :
    address ∈ committee.erase leaver := by
  by_cases heq : address = leaver
  · subst heq
    rcases hleave with hstays | hunballoted
    · exact hstays
    · exact absurd hballot (hunballoted key proposal hstored hopen)
  · exact (List.mem_erase_of_ne heq).mpr hmember

theorem lookup_erase_cases (proposals : Table ProposalKey Proposal) (key key' : ProposalKey) :
    (proposals.erase key).lookup key' = none ∨
      (proposals.erase key).lookup key' = proposals.lookup key' := by
  by_cases hkey : key' = key
  · rw [hkey]
    exact .inl (AList.lookup_erase _ _)
  · exact .inr (AList.lookup_erase_ne hkey)

theorem fair_withdraw_committee (hmethod : call.method = .withdraw .committee)
    (hfinds : call.Finds s) (hkeeps : call.KeepsBallots host)
    (hwithdraw : withdraw host receive call.msg .committee s = some s₁)
    (hfair : Fair s.world.assembly) : Fair (s₁.world.log call).assembly := by
  obtain ⟨hmember, hwithdraw⟩ := of_assert hwithdraw
  obtain ⟨-, hwithdraw⟩ := of_assert hwithdraw
  obtain rfl := Option.some.inj hwithdraw
  simp only [Call.KeepsBallots, hmethod] at hkeeps
  rw [hfinds.proposals, hfinds.committee] at hkeeps
  refine Fair.delete hfair (fun key' since _ => ?_) (lookup_erase_cases _ _) ?_
  · simp [Call.approvals, hmethod]
  · intro key' proposal hstored hopen address hballot hmem
    exact hkeeps.mem_erase hstored hopen hballot hmem

/-- What `approve` does: nothing when the proposal has expired; else the sender is put on the
ballot, and the proposal takes effect or not. -/
theorem approve_cases {operate : Motion} {content : Content} {address : Address}
    (happrove : approve host msg operate content address s = some s₁) :
    msg.sender ∈ s.world.storage.committee ∧
      ∃ proposal, s.proposals.lookup (proposalKey operate content address) = some proposal ∧
        proposal.passTime = none ∧
        ((msg.timestamp ≥ proposal.expiration ∧ s₁ = s) ∨
          (msg.timestamp < proposal.expiration ∧ msg.sender ∉ proposal.ballot ∧
            (((proposal.ballot ++ [msg.sender]).length ≤
                host.passCount s.world.storage.committee.length (s.cfg .passRate) ∧
              s₁ = s.saveProposal (proposalKey operate content address)
                { proposal with ballot := proposal.ballot ++ [msg.sender] }) ∨
            (host.passCount s.world.storage.committee.length (s.cfg .passRate) <
                (proposal.ballot ++ [msg.sender]).length ∧
              ((∃ item value, operate = .config ∧ content = .item item ∧
                  s₁ = updateCfg (proposalKey operate content address) value item s) ∨
                (∃ role, operate = .apply ∧ content = .role role ∧
                  passIn msg (proposalKey operate content address)
                    { proposal with ballot := proposal.ballot ++ [msg.sender] } role address s =
                      some s₁) ∨
                ∃ role, operate = .abolish ∧ content = .role role ∧
                  passOut (proposalKey operate content address) role address s = some s₁))))) := by
  obtain ⟨-, happrove⟩ := of_assert happrove
  obtain ⟨-, happrove⟩ := of_assert happrove
  obtain ⟨hmember, happrove⟩ := of_assert happrove
  obtain ⟨proposal, hstored, happrove⟩ := of_bind happrove
  obtain ⟨hopen, happrove⟩ := of_assert happrove
  refine ⟨hmember, proposal, hstored, hopen, ?_⟩
  split at happrove
  · rename_i hexpired
    exact .inl ⟨hexpired, (Option.some.inj happrove).symm⟩
  · rename_i hexpired
    obtain ⟨hvoted, happrove⟩ := of_assert happrove
    refine .inr ⟨not_le.mp hexpired, hvoted, ?_⟩
    dsimp only at happrove
    split at happrove
    · rename_i hfew
      exact .inl ⟨hfew, (Option.some.inj happrove).symm⟩
    · rename_i hmany
      refine .inr ⟨not_le.mp hmany, ?_⟩
      split at happrove
      · obtain ⟨value, -, rfl⟩ := Option.map_eq_some_iff.mp happrove
        exact .inl ⟨_, value, rfl, rfl, rfl⟩
      · exact .inr (.inl ⟨_, rfl, rfl, happrove⟩)
      · exact .inr (.inr ⟨_, rfl, rfl, happrove⟩)
      · cases happrove

theorem assembly_log (call : Call) (w : World) : (w.log call).assembly =
    ⟨w.assembly.proposals, w.assembly.committee, call :: w.assembly.calls⟩ :=
  rfl

theorem assembly_updateCfg (key : ProposalKey) (value : Value) (item : Item) (s : Run) :
    (updateCfg key value item s).world.assembly =
      { s.world.assembly with proposals := s.proposals.erase key } := by
  unfold updateCfg
  dsimp only
  split <;> rfl

theorem assembly_passIn {proposal : Proposal} {role : Role} {address : Address}
    (hpass : passIn msg key proposal role address s = some s₁) :
    ∃ committee, s.world.storage.committee ⊆ committee ∧ s₁.world.assembly =
      ⟨s.proposals.insert key { proposal with passTime := some msg.timestamp }, committee,
        s.world.calls⟩ := by
  unfold passIn at hpass
  dsimp only at hpass
  split at hpass
  · split at hpass
    · obtain rfl := Option.some.inj hpass
      exact ⟨_, List.subset_append_left _ [address], rfl⟩
    · obtain rfl := Option.some.inj hpass
      exact ⟨_, List.Subset.refl _, rfl⟩
  · have hsame := assembly_addCandidates hpass
    exact ⟨_, List.Subset.refl _, hsame⟩

theorem assembly_passOut {role : Role} {address : Address}
    (hpass : passOut key role address s = some s₁) :
    (role = .committee ∧ s₁.world.assembly =
        ⟨s.proposals.erase key, s.world.storage.committee.erase address, s.world.calls⟩) ∨
      ∃ key', s₁.world.assembly =
        { s.world.assembly with proposals := (s.proposals.erase key).erase key' } := by
  unfold passOut at hpass
  dsimp only at hpass
  split at hpass
  · rename_i hrole
    obtain ⟨-, hpass⟩ := of_assert hpass
    obtain rfl := Option.some.inj hpass
    exact .inl ⟨hrole, rfl⟩
  · obtain ⟨s₂, hdelete, hpenalty⟩ := of_bind hpass
    have hsame := assembly_deleteCandidate hdelete
    obtain ⟨key', rfl⟩ : ∃ key', s₂.delProposal key' = s₁ := by
      obtain ⟨proposal, -, heq⟩ := Option.map_eq_some_iff.mp hpenalty
      exact ⟨_, heq⟩
    refine .inr ⟨key', ?_⟩
    change (⟨s₂.world.assembly.proposals.erase key', s₂.world.assembly.committee,
      s₂.world.assembly.calls⟩ : Assembly) = _
    rw [hsame]
    rfl

section Approve

variable {operate : Motion} {content : Content} {address : Address} {proposal : Proposal}
  (hmethod : call.method = .approve operate content address)

include hmethod

theorem only_approve : call.Only (proposalKey operate content address) := by
  intro key' since hkey
  simp [Call.approvals, hmethod, hkey]

theorem approvals_approve
    (hstored : call.before.proposals.lookup (proposalKey operate content address) = some proposal)
    (since : List Address) : call.approvals (proposalKey operate content address) since =
      if call.msg.timestamp < proposal.expiration then since ++ [call.msg.sender] else since := by
  simp [Call.approvals, hmethod, hstored]

/-- The ballot with the sender on it is fair again. -/
theorem fairBallot_approve (hfinds : call.Finds s) (hfair : Fair s.world.assembly)
    (hmember : call.msg.sender ∈ s.world.storage.committee)
    (hstored : s.proposals.lookup (proposalKey operate content address) = some proposal)
    (hopen : proposal.passTime = none) (hunexpired : call.msg.timestamp < proposal.expiration)
    (hvoted : call.msg.sender ∉ proposal.ballot) :
    FairBallot ⟨s.proposals, s.world.storage.committee, call :: s.world.calls⟩
      (proposalKey operate content address) (proposal.ballot ++ [call.msg.sender]) := by
  obtain ⟨hnodup, hmembers, happroved⟩ := hfair _ proposal hstored hopen
  refine ⟨?_, fun member hmem => ?_, fun member hmem => ?_⟩
  · rw [List.nodup_append_comm]
    exact List.nodup_cons.mpr ⟨hvoted, hnodup⟩
  · rcases List.mem_append.mp hmem with hmem | hmem
    · exact hmembers member hmem
    · rw [List.mem_singleton.mp hmem]
      exact hmember
  · rw [approvalsOf_cons, approvals_approve hmethod (hfinds.proposals ▸ hstored),
      if_pos hunexpired]
    rcases List.mem_append.mp hmem with hmem | hmem
    · exact List.mem_append_left _ (happroved member hmem)
    · exact List.mem_append_right _ hmem

/-- The call deletes its proposal, and others perhaps. -/
theorem fair_pass {proposals : Table ProposalKey Proposal} {committee : List Address}
    (hfair : Fair s.world.assembly)
    (hnone : proposals.lookup (proposalKey operate content address) = none)
    (hlookup : ∀ key', proposals.lookup key' = none ∨
      proposals.lookup key' = s.proposals.lookup key')
    (hcommittee : ∀ key' proposal, proposals.lookup key' = some proposal →
      proposal.passTime = none → ∀ member ∈ proposal.ballot, member ∈ s.world.storage.committee →
        member ∈ committee) :
    Fair ⟨proposals, committee, call :: s.world.calls⟩ := by
  refine Fair.delete hfair (fun key' since hfound => ?_) hlookup hcommittee
  refine only_approve hmethod key' since fun hkey => hfound ?_
  rw [hkey]
  exact hnone

theorem fair_approve (hfinds : call.Finds s) (hkeeps : call.KeepsBallots host)
    (happrove : approve host call.msg operate content address s = some s₁)
    (hfair : Fair s.world.assembly) : Fair (s₁.world.log call).assembly := by
  obtain ⟨hmember, proposal, hstored, hopen, hcases⟩ := approve_cases happrove
  have hbefore := hstored
  rw [← hfinds.proposals] at hbefore
  rcases hcases with ⟨hexpired, rfl⟩ | ⟨hunexpired, hvoted, hcases⟩
  · intro key'
    refine (hfair key').of_same rfl (List.Subset.refl _) ?_
    change call.approvals key' (approvalsOf s₁.world.calls key') = _
    by_cases hkey : key' = proposalKey operate content address
    · rw [hkey, approvals_approve hmethod hbefore, if_neg (not_lt.mpr hexpired)]
      rfl
    · exact only_approve hmethod key' _ hkey
  · have hballot := fairBallot_approve hmethod hfinds hfair hmember hstored hopen hunexpired hvoted
    rcases hcases with ⟨-, rfl⟩ | ⟨hpassed, hcases⟩
    · exact Fair.save hfair (only_approve hmethod) fun _ => hballot
    · rcases hcases with ⟨item, value, rfl, rfl, rfl⟩ | ⟨role, rfl, rfl, hpass⟩ |
        ⟨role, rfl, rfl, hpass⟩
      · rw [assembly_log, assembly_updateCfg]
        exact fair_pass hmethod hfair (AList.lookup_erase _ _) (lookup_erase_cases _ _)
          fun _ _ _ _ member _ hmem => hmem
      · obtain ⟨committee, hsubset, hassembly⟩ := assembly_passIn hpass
        rw [assembly_log, hassembly]
        have hsaved : Fair ⟨s.proposals.insert (proposalKey .apply (.role role) address)
            { proposal with
              ballot := proposal.ballot ++ [call.msg.sender]
              passTime := some call.msg.timestamp }, s.world.storage.committee,
            call :: s.world.calls⟩ :=
          Fair.save hfair (only_approve hmethod) nofun
        intro key'
        exact (hsaved key').of_same rfl hsubset rfl
      · rcases assembly_passOut hpass with ⟨rfl, hassembly⟩ | ⟨key', hassembly⟩
        · rw [assembly_log, hassembly]
          simp only [Call.KeepsBallots, hmethod] at hkeeps
          have hleave := hkeeps ⟨proposal, ⟨address, rfl, hmethod⟩, hbefore, hunexpired, by
            rw [hfinds.committee, hfinds.config]
            exact hpassed⟩
          rw [hfinds.proposals, hfinds.committee] at hleave
          refine fair_pass hmethod hfair (AList.lookup_erase _ _) (lookup_erase_cases _ _) ?_
          intro key' proposal' hstored' hopen' member hballot' hmem
          exact hleave.mem_erase hstored' hopen' hballot' hmem
        · rw [assembly_log, hassembly]
          refine fair_pass hmethod hfair ?_ ?_ fun _ _ _ _ member _ hmem => hmem
          · rcases lookup_erase_cases (s.proposals.erase _) key'
              (proposalKey .abolish (.role role) address) with hnone | hsame
            · exact hnone
            · rw [hsame]
              exact AList.lookup_erase _ _
          · intro key''
            rcases lookup_erase_cases (s.proposals.erase _) key' key'' with hnone | hsame
            · exact .inl hnone
            · rw [hsame]
              exact lookup_erase_cases _ _ _

/-- The addresses on a fair ballot are members. -/
theorem majority_approve (hfinds : call.Finds s)
    (happrove : approve host call.msg operate content address s = some s₁)
    (hfair : Fair s.world.assembly) {proposal : Proposal}
    (heffect : call.TakesEffect host key proposal) :
    Majority host call.before (proposal.ballot ++ [call.msg.sender])
      (approvalsOf (call :: s.world.calls) key) := by
  obtain ⟨hmember, proposal', hstored, hopen, hcases⟩ := approve_cases happrove
  have hkey : key = proposalKey operate content address := by
    obtain ⟨address', hkey, hmethod'⟩ := heffect.method
    have hsame := hmethod'.symm.trans hmethod
    cases hsame
    exact hkey
  subst hkey
  have hfound := heffect.stored
  rw [hfinds.proposals, hstored] at hfound
  obtain rfl := Option.some.inj hfound
  rcases hcases with ⟨hexpired, -⟩ | ⟨hunexpired, hvoted, -⟩
  · exact absurd heffect.unexpired (not_lt.mpr hexpired)
  · obtain ⟨hnodup, hmembers, happroved⟩ :=
      fairBallot_approve hmethod hfinds hfair hmember hstored hopen hunexpired hvoted
    refine ⟨?_, fun member _ hmem => happroved member hmem⟩
    have hsubset : (proposal'.ballot ++ [call.msg.sender]).toFinset ⊆
        call.before.committee.toFinset := by
      intro member hmem
      rw [hfinds.committee]
      exact List.mem_toFinset.mpr (hmembers member (List.mem_toFinset.mp hmem))
    rw [Finset.inter_eq_right.mpr hsubset, List.toFinset_card_of_nodup hnodup]
    exact heffect.passed

end Approve

/-! ## Histories -/

/-- The methods that open no proposal and approve none. -/
def Method.isPlain : Method → Bool
  | .apply .. | .configure .. | .abolish .. | .approve .. | .withdraw .committee => false
  | _ => true

theorem byMajority_cons {calls : List Call} (hcalls : ByMajority host calls)
    (hcall : ∀ key proposal, call.TakesEffect host key proposal →
      Majority host call.before (proposal.ballot ++ [call.msg.sender])
        (approvalsOf (call :: calls) key)) : ByMajority host (call :: calls) := by
  intro call' earlier hsuffix
  rcases List.suffix_cons_iff.mp hsuffix with heq | hsuffix
  · obtain ⟨rfl, rfl⟩ := List.cons.inj heq
    exact hcall
  · exact hcalls call' earlier hsuffix

/-- A call that approves nothing is entered in the log. -/
theorem advances_log (hplain : call.method.isPlain = true) (hreads : call.Reads) (w : World) :
    Advances host w (w.log call) where
  calls := List.suffix_cons _ _
  reads hearlier := List.forall_mem_cons.mpr ⟨hreads, hearlier⟩
  meets _ hmeets := by
    refine ⟨fun key => (hmeets.1 key).of_same rfl (List.Subset.refl _) ?_, ?_⟩
    · change call.approvals key (approvalsOf w.calls key) = _
      unfold Call.approvals
      split <;> rename_i hmethod <;> first | rfl | simp [hmethod, Method.isPlain] at hplain
    · refine byMajority_cons hmeets.2 fun key proposal heffect => ?_
      obtain ⟨address, -, hmethod⟩ := heffect.method
      simp [hmethod, Method.isPlain] at hplain

theorem advances_dispatch (hreceive : ReceiveAdvances host receive) {method : Method}
    (hplain : method.isPlain = true) (hdispatch : dispatch host receive msg method s = some s₁) :
    Advances host s.world s₁.world := by
  cases method with
  | apply role pool ratio node => cases hplain
  | append role => exact advances_append hdispatch
  | approve operate content address => cases hplain
  | vote role address => exact advances_vote hdispatch
  | unVote role address => exact advances_unVote hreceive hdispatch
  | abolish role address => cases hplain
  | withdraw role =>
      refine advances_withdraw hreceive ?_ hdispatch
      rintro rfl
      cases hplain
  | extract list => exact advances_extract hreceive hdispatch
  | configure item value => cases hplain
  | setNodeAddress address => exact advances_setNodeAddress hdispatch
  | setVoteDividend role pool ratio => exact advances_setVoteDividend hdispatch
  | clean operate content address => exact advances_clean hreceive hdispatch
  | unknown => cases hdispatch

/-- The other methods pay nobody. -/
theorem calls_dispatch {method : Method} (hplain : method.isPlain = false)
    (hdispatch : dispatch host receive msg method s = some s₁) :
    s₁.world.calls = s.world.calls := by
  cases method with
  | apply role pool ratio node =>
      obtain ⟨-, hdispatch⟩ := of_assert hdispatch
      obtain ⟨-, -, hdispatch⟩ := of_bind hdispatch
      obtain ⟨proposal, -, hdispatch⟩ := of_bind hdispatch
      obtain rfl := Option.some.inj hdispatch
      rfl
  | approve operate content address =>
      obtain ⟨-, proposal, -, -, ⟨-, rfl⟩ | ⟨-, -, ⟨-, rfl⟩ | ⟨-, hcases⟩⟩⟩ :=
        approve_cases hdispatch
      · rfl
      · rfl
      · rcases hcases with ⟨item, value, -, -, rfl⟩ | ⟨role, -, -, hpass⟩ | ⟨role, -, -, hpass⟩
        · exact congrArg Assembly.calls (assembly_updateCfg _ value item s)
        · obtain ⟨committee, -, hassembly⟩ := assembly_passIn hpass
          exact congrArg Assembly.calls hassembly
        · obtain ⟨-, hassembly⟩ | ⟨key', hassembly⟩ := assembly_passOut hpass
          · exact congrArg Assembly.calls hassembly
          · exact congrArg Assembly.calls hassembly
  | abolish role address =>
      obtain ⟨-, -, hdispatch⟩ := of_bind hdispatch
      obtain ⟨-, hdispatch⟩ := of_assert hdispatch
      obtain ⟨applied, -, hdispatch⟩ := of_bind hdispatch
      obtain ⟨-, hdispatch⟩ := of_assert hdispatch
      obtain rfl := Option.some.inj hdispatch
      rfl
  | configure item value =>
      obtain ⟨-, hdispatch⟩ := of_assert hdispatch
      obtain ⟨-, hdispatch⟩ := of_assert hdispatch
      dsimp only at hdispatch
      split at hdispatch
      · obtain rfl := Option.some.inj hdispatch
        rfl
      · obtain rfl := Option.some.inj hdispatch
        rfl
  | withdraw role =>
      cases role with
      | committee =>
          obtain ⟨-, hdispatch⟩ := of_assert hdispatch
          obtain ⟨-, hdispatch⟩ := of_assert hdispatch
          obtain rfl := Option.some.inj hdispatch
          rfl
      | validator | kol => cases hplain
  | append | vote | unVote | extract | setNodeAddress | setVoteDividend | clean | unknown =>
      cases hplain

theorem fair_dispatch (hplain : call.method.isPlain = false) (hfinds : call.Finds s)
    (hkeeps : call.KeepsBallots host)
    (hdispatch : dispatch host receive call.msg call.method s = some s₁)
    (hfair : Fair s.world.assembly) : Fair (s₁.world.log call).assembly := by
  cases hmethod : call.method with
  | apply role pool ratio node =>
      rw [hmethod] at hdispatch
      exact fair_apply hmethod hdispatch hfair
  | approve operate content address =>
      rw [hmethod] at hdispatch
      exact fair_approve hmethod hfinds hkeeps hdispatch hfair
  | abolish role address =>
      rw [hmethod] at hdispatch
      exact fair_abolish hmethod hfinds hkeeps hdispatch hfair
  | configure item value =>
      rw [hmethod] at hdispatch
      exact fair_configure hmethod hfinds hdispatch hfair
  | withdraw role =>
      rw [hmethod] at hdispatch hplain
      cases role with
      | committee =>
          exact @fair_withdraw_committee host receive s s₁ call hmethod hfinds hkeeps hdispatch
            hfair
      | validator | kol => cases hplain
  | append | vote | unVote | extract | setNodeAddress | setVoteDividend | clean | unknown =>
      rw [hmethod] at hplain
      cases hplain

theorem assembly_prepare (hprepare : prepare msg w = some s) :
    s.world.assembly = w.assembly ∧ s.cfg = w.storage.config := by
  obtain ⟨allStake, -, ⟨-, rfl⟩ | ⟨-, rfl⟩⟩ := prepare_cases hprepare
  · exact ⟨rfl, rfl⟩
  · exact ⟨rfl, rfl⟩

theorem assembly_saveDists (s : Run) : (saveDists s).assembly = s.world.assembly := by
  unfold saveDists
  split <;> rfl

/-- **One call.** -/
theorem advances_main (hreceive : ReceiveAdvances host receive) {method : Method}
    (hmain : main host receive msg method w = some w₁) : Advances host w w₁ := by
  obtain ⟨s, hprepare, hmain⟩ := of_bind hmain
  obtain ⟨-, hmain⟩ := of_assert hmain
  obtain ⟨s₁, hdispatch, hmain⟩ := of_bind hmain
  obtain rfl := Option.some.inj hmain
  obtain ⟨hassembly, hcfg⟩ := assembly_prepare hprepare
  have hsaved := assembly_saveDists s₁
  have hreads : Call.Reads ⟨msg, method, w.storage, s.loaded⟩ := loaded_prepare hprepare
  cases hplain : method.isPlain with
  | true =>
      have hstart : Advances host w s.world := .of_eq hassembly
      have hend : Advances host s₁.world (saveDists s₁) := .of_eq hsaved
      exact (hstart.trans (advances_dispatch hreceive hplain hdispatch)).trans
        (hend.trans (advances_log hplain hreads _))
  | false =>
      have hcalls : (saveDists s₁).calls = w.calls :=
        calc (saveDists s₁).calls = s₁.world.calls := congrArg Assembly.calls hsaved
          _ = s.world.calls := calls_dispatch hplain hdispatch
          _ = w.calls := congrArg Assembly.calls hassembly
      have hfinds : Call.Finds ⟨msg, method, w.storage, s.loaded⟩ s :=
        ⟨(congrArg Assembly.proposals hassembly).symm,
          (congrArg Assembly.committee hassembly).symm, hcfg.symm⟩
      refine ⟨?_, fun hearlier => ?_, fun hkeeps hmeets => ⟨?_, ?_⟩⟩
      · rw [← hcalls]
        exact List.suffix_cons _ _
      · rw [← hcalls] at hearlier
        exact List.forall_mem_cons.mpr ⟨hreads, hearlier⟩
      · rw [assembly_log, hsaved, ← assembly_log]
        exact fair_dispatch hplain hfinds (hkeeps _ List.mem_cons_self) hdispatch
          (hassembly ▸ hmeets.1)
      · change ByMajority host (⟨msg, method, w.storage, s.loaded⟩ :: (saveDists s₁).calls)
        rw [hcalls]
        refine byMajority_cons hmeets.2 fun key proposal heffect => ?_
        obtain ⟨address, -, hmethod⟩ := heffect.method
        dsimp only at hmethod
        subst hmethod
        have hmajority := majority_approve rfl hfinds hdispatch (hassembly ▸ hmeets.1) heffect
        rwa [show s.world.calls = w.calls from congrArg Assembly.calls hassembly] at hmajority

theorem advances_within {f : World → Option World}
    (hf : ∀ {w w' : World}, f w = some w' → Advances host w w') (w : World) :
    Advances host w (w.within f) := by
  unfold World.within
  split
  · rename_i w' hw'
    have hinner := hf hw'
    exact ⟨hinner.calls, hinner.reads, hinner.meets⟩
  · exact .refl w

/-- The calls that are made in a reaction, by induction on it. -/
theorem advances_react (reaction : Reaction) :
    ∀ {w w₁ : World}, react host reaction w = some w₁ → Advances host w w₁ := by
  induction reaction with
  | done =>
      intro w w₁ hreact
      obtain rfl := Option.some.inj hreact
      exact .refl _
  | fail =>
      intro w w₁ hreact
      cases hreact
  | call msg method reactions next ihreactions ihnext =>
      intro w w₁ hreact
      refine Advances.trans (advances_within (fun {w w'} hmain => ?_) w) (ihnext hreact)
      have hinner := advances_main (fun i _ _ h => ihreactions i h) hmain
      exact ⟨hinner.calls, hinner.reads, hinner.meets⟩

theorem advances_step (w : World) (st : Step) : Advances host w (step host w st) := by
  cases st with
  | reward amount => exact .of_eq rfl
  | call msg method reactions =>
      unfold step
      dsimp only
      generalize hmain : Dpos.main host (fun i => react host (reactions i)) msg method _ = r
      cases r with
      | none => exact .of_eq rfl
      | some w₁ =>
          have hinner := advances_main (fun i _ _ h => advances_react (reactions i) h) hmain
          exact ⟨hinner.calls, hinner.reads, hinner.meets⟩

theorem advances_states (steps : List Step) (w : World) :
    ∀ w' ∈ states host w steps, Advances host w w' :=
  Runs.scanl_invariant (fun hfirst => hfirst.trans (advances_step _ _)) (.refl w)

end CegChain.Dpos
