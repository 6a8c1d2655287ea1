import CegChain.Contract.Orderly
import CegChain.Lib.Callback

/-!
# Votes on leaving

`poll` adds the shares that the sender has when it votes to a sum, and asks the DPoS contract for
the pledged coins once the sum is more than half of the pledged shares.  Shares that are handed
over later stay in the sum, and who accepts them votes with them again (`polled_twice`).

The sum is that of the ballot in every history, so a call to the DPoS contract has the majority
behind it where everybody on the ballot still has the shares it voted with
(`majority_of_poll`).  They all do as long as nobody on the ballot hands shares over
(`current_states`, `majority_of_stays`).
-/

namespace CegChain.Cobuild

open Layers Totals
open Dpos (assert int64Add int64Sub int64Mod Role of_bind of_assert)

variable {host : Host} {dpos : DposContract} {msg : Msg} {w w' w₁ : World}
  {table table' : Table Address Cobuilder} {address : Address} {own : Cobuilder}
  {validPeriod : Option ℤ} {proposal : Proposal}

/-! ## Majorities -/

/-- The pledged shares of one account. -/
def pledgedBy (table : Table Address Cobuilder) (address : Address) : ℤ :=
  (table.lookup address).elim 0 Cobuilder.pledgedShare

/-- The pledged shares of all who are on a ballot. -/
def heldBy (table : Table Address Cobuilder) (ballot : Table Address ℤ) : ℤ :=
  total (fun address _ => pledgedBy table address) ballot

/-- Those on the ballot have more than half of the pledged shares. -/
def Majority (w : World) : Prop :=
  ∃ proposal ∈ w.storage.withdraw,
    w.storage.states.pledgedShares < 2 * heldBy w.storage.cobuilders proposal.ballot

/-- Those on the ballot have the shares that they voted with. -/
def Current (st : Storage) : Prop :=
  ∀ proposal ∈ st.withdraw, ∀ address share, proposal.ballot.lookup address = some share →
    share ≤ pledgedBy st.cobuilders address

/-- A call of `poll` comes down to what the DPoS contract does in `w₁` when it is asked to
withdraw. -/
def Asks (host : Host) (validPeriod : Option ℤ) (msg : Msg) (w w₁ : World) : Prop :=
  ∃ role, Callback.Asks
    (fun call => main host ⟨call, validPeriod⟩ msg .poll (w.arrive msg.coinAmount))
    (.withdraw role) w₁ id

/-! ## When the DPoS contract is asked -/

/-- The proposal with a last vote. -/
def Proposal.passed (proposal : Proposal) (address : Address) (share : ℤ) : Proposal where
  withdrawed := true
  expiration := proposal.expiration
  sum := proposal.sum + share
  ballot := proposal.ballot.insert address share

/-- The proposal on which the sender votes: the current one, or a new one. -/
def Open (withdraw : Option Proposal) (proposal : Proposal) : Prop :=
  withdraw = some proposal ∨ withdraw = none ∧ proposal.sum = 0 ∧ proposal.ballot = ∅

/-- The vote that makes a proposal pass. -/
structure Passes (msg : Msg) (w : World) (own : Cobuilder) (proposal : Proposal) : Prop where
  holder : w.storage.cobuilders.lookup msg.txSender = some own
  pledged : own.pledged = true
  current : Open w.storage.withdraw proposal
  fresh : proposal.ballot.lookup msg.txSender = none
  enough : w.storage.states.pledgedShares < 2 * (proposal.sum + own.share)

theorem withdrawing_cases (host : Host) (validPeriod : Option ℤ) (proposal : Proposal)
    (w : World) :
    (∃ r, ∀ call, withdrawing host ⟨call, validPeriod⟩ proposal w = r) ∨
      ∀ call, withdrawing host ⟨call, validPeriod⟩ proposal w =
        call (withdrawInput w.storage.states)
          (w.setWithdraw (some { proposal with withdrawed := true })) := by
  by_cases hreserve : host.baseReserve ≤ w.balance
  · right
    intro call
    simp [withdrawing, callDPOS, assert, World.setWithdraw, hreserve]
  · left
    refine ⟨none, fun call => ?_⟩
    simp [withdrawing, callDPOS, assert, World.setWithdraw, hreserve]

theorem pollOn_cases (host : Host) (validPeriod : Option ℤ) (msg : Msg) (share : ℤ)
    (proposal : Proposal) (w : World) :
    (∃ r, ∀ call, pollOn host ⟨call, validPeriod⟩ msg share proposal w = r) ∨
      w.storage.states.pledgedShares < 2 * (proposal.sum + share) ∧
      ∀ call, pollOn host ⟨call, validPeriod⟩ msg share proposal w =
        call (withdrawInput w.storage.states)
          (w.setWithdraw (some (proposal.passed msg.txSender share))) := by
  unfold pollOn
  cases hsum : int64Add proposal.sum share with
  | none => exact .inl ⟨none, fun call => rfl⟩
  | some sum =>
      cases hquotient : Dpos.int64Div w.storage.states.pledgedShares sum with
      | none => exact .inl ⟨none, fun call => by simp [hquotient]⟩
      | some quotient =>
          obtain rfl := Dpos.of_int64Add hsum
          obtain ⟨hpositive, -, hdiv⟩ := Dpos.of_int64Div hquotient
          simp only [Option.bind_eq_bind, Option.bind_some, hquotient]
          by_cases hpassed : quotient ≥ 2
          · simp only [if_pos hpassed]
            exact .inl ⟨_, fun _ => rfl⟩
          · simp only [if_neg hpassed]
            refine (withdrawing_cases host validPeriod _ w).imp id fun hasked => ⟨?_, hasked⟩
            rw [hdiv, not_le, Int.ediv_lt_iff_lt_mul hpositive] at hpassed
            exact hpassed

/-- Either the outcome of `poll` does not depend on the DPoS contract, or the vote makes the
proposal pass and the DPoS contract decides. -/
theorem poll_cases (host : Host) (validPeriod : Option ℤ) (msg : Msg) (w : World) :
    (∃ r, ∀ call, poll host ⟨call, validPeriod⟩ msg w = r) ∨
      ∃ own proposal, Passes msg w own proposal ∧
        ∀ call, poll host ⟨call, validPeriod⟩ msg w = call (withdrawInput w.storage.states)
          (w.setWithdraw (some (proposal.passed msg.txSender own.share))) := by
  unfold poll
  by_cases happlied : w.storage.states.applied = true
  swap
  · exact .inl ⟨none, fun call => by simp [assert, happlied]⟩
  cases hown : w.storage.cobuilders.lookup msg.txSender with
  | none => exact .inl ⟨none, fun call => by simp [assert, happlied]⟩
  | some own =>
      by_cases hpledged : own.pledged = true
      swap
      · exact .inl ⟨none, fun call => by simp [assert, happlied, hpledged]⟩
      simp only [assert, happlied, hpledged, if_pos, Option.bind_eq_bind, Option.bind_some]
      have hvote : ∀ proposal, Open w.storage.withdraw proposal →
          proposal.ballot.lookup msg.txSender = none →
          (∃ r, ∀ call, pollOn host ⟨call, validPeriod⟩ msg own.share proposal w = r) ∨
          ∃ own' proposal', Passes msg w own' proposal' ∧
            ∀ call, pollOn host ⟨call, validPeriod⟩ msg own.share proposal w =
              call (withdrawInput w.storage.states)
                (w.setWithdraw (some (proposal'.passed msg.txSender own'.share))) :=
        fun proposal hopen hfresh =>
          (pollOn_cases host validPeriod msg own.share proposal w).imp id fun hasked =>
            ⟨own, proposal, ⟨hown, hpledged, hopen, hfresh, hasked.1⟩, hasked.2⟩
      cases hwithdraw : w.storage.withdraw with
      | none =>
          cases hperiod : validPeriod with
          | none => exact .inl ⟨none, fun call => by simp [withdrawProposal]⟩
          | some period =>
              simp only [withdrawProposal, Option.bind_eq_bind, Option.bind_some]
              rw [hperiod] at hvote
              exact hvote _ (.inr ⟨hwithdraw, rfl, rfl⟩) (AList.lookup_empty _)
      | some proposal =>
          by_cases hnew : (proposal.ballot.lookup msg.txSender).isSome
          · simp only [hnew, if_true]
            exact .inl ⟨_, fun _ => rfl⟩
          · simp only [hnew]
            exact hvote proposal (.inl hwithdraw) (Option.not_isSome_iff_eq_none.mp hnew)

theorem main_poll_cases (host : Host) (validPeriod : Option ℤ) (msg : Msg) (w : World) :
    (∃ r, ∀ call, main host ⟨call, validPeriod⟩ msg .poll w = r) ∨
      ∃ own proposal, Passes msg w own proposal ∧
        ∀ call, main host ⟨call, validPeriod⟩ msg .poll w =
          call (withdrawInput w.storage.states)
            (w.setWithdraw (some (proposal.passed msg.txSender own.share))) := by
  by_cases hdisabled : w.storage.states.disabled = true
  · exact .inl ⟨some w, fun call => by simp [main, hdisabled]⟩
  by_cases hcoins : msg.coinAmount = 0
  · have hmain : ∀ call, main host ⟨call, validPeriod⟩ msg .poll w =
        poll host ⟨call, validPeriod⟩ msg w := by
      intro call
      simp [main, hdisabled, assert, hcoins]
    simp only [hmain]
    exact poll_cases host validPeriod msg w
  · exact .inl ⟨none, fun call => by
      simp [main, hdisabled, assert, Method.takesCoins, hcoins]⟩

/-- A DPoS contract that throws and one that does nothing tell whether it is asked. -/
theorem asks_iff : Asks host validPeriod msg w w₁ ↔
    main host ⟨fun _ _ => none, validPeriod⟩ msg .poll (w.arrive msg.coinAmount) = none ∧
    main host ⟨fun _ w => some w, validPeriod⟩ msg .poll (w.arrive msg.coinAmount) =
      some w₁ := by
  refine ⟨fun ⟨role, hasks⟩ => ⟨hasks _, hasks _⟩, fun ⟨hthrows, hreturns⟩ => ?_⟩
  rcases main_poll_cases host validPeriod msg (w.arrive msg.coinAmount) with ⟨r, hr⟩ |
    ⟨own, proposal, -, hasked⟩
  · rw [hr] at hthrows hreturns
    exact absurd (hreturns.symm.trans hthrows) (Option.some_ne_none _)
  · rw [hasked] at hreturns
    rw [← Option.some.inj hreturns]
    exact ⟨_, hasked⟩

/-- A call that the DPoS contract decides is a vote that makes the proposal pass. -/
theorem passes_of_asks (hasks : Asks host validPeriod msg w w₁) :
    ∃ own proposal, Passes msg w own proposal ∧
      w₁.storage = { w.storage with
        withdraw := some (proposal.passed msg.txSender own.share) } := by
  obtain ⟨hthrows, hreturns⟩ := asks_iff.mp hasks
  rcases main_poll_cases host validPeriod msg (w.arrive msg.coinAmount) with ⟨r, hr⟩ |
    ⟨own, proposal, ⟨hholder, hpledged, hopen, hfresh, henough⟩, hasked⟩
  · rw [hr] at hthrows hreturns
    exact absurd (hreturns.symm.trans hthrows) (Option.some_ne_none _)
  · refine ⟨own, proposal, ⟨hholder, hpledged, hopen, hfresh, henough⟩, ?_⟩
    rw [hasked] at hreturns
    rw [← Option.some.inj hreturns]
    rfl

/-! ## The majority -/

theorem pledgedBy_of_lookup (hlookup : table.lookup address = some own) :
    pledgedBy table address = own.pledgedShare := by
  rw [pledgedBy, hlookup]
  rfl

/-- Who is on an open ballot has the shares that it voted with. -/
theorem Current.of_open {st : Storage} (hst : Current st) (hopen : Open st.withdraw proposal)
    {share : ℤ} (hlookup : proposal.ballot.lookup address = some share) :
    share ≤ pledgedBy st.cobuilders address := by
  rcases hopen with hopen | ⟨-, -, hempty⟩
  · exact hst proposal hopen address share hlookup
  · rw [hempty, AList.lookup_empty] at hlookup
    cases hlookup

theorem Orderly.sum_of_open {st : Storage} (hst : Orderly st)
    (hopen : Open st.withdraw proposal) :
    proposal.sum = total (fun _ share => share) proposal.ballot := by
  rcases hopen with hopen | ⟨-, hsum, hempty⟩
  · exact hst.tally proposal hopen
  · rw [hsum, hempty, total_empty]

theorem majority_of_asks (hst : Orderly w.storage)
    (hcurrent : Current w.storage) (hasks : Asks host validPeriod msg w w₁) : Majority w₁ := by
  obtain ⟨own, proposal, hpasses, hstorage⟩ := passes_of_asks hasks
  refine ⟨proposal.passed msg.txSender own.share, Option.mem_def.mpr (by rw [hstorage]), ?_⟩
  have hsum : proposal.sum ≤ heldBy w.storage.cobuilders proposal.ballot := by
    rw [hst.sum_of_open hpasses.current]
    exact total_le_total fun address share hlookup => hcurrent.of_open hpasses.current hlookup
  -- the last vote is that of an account which was not on the ballot
  have hlast : heldBy w.storage.cobuilders (proposal.ballot.insert msg.txSender own.share) =
      heldBy w.storage.cobuilders proposal.ballot + own.share := by
    rw [heldBy, total_insert, weight_of_none hpasses.fresh, sub_zero,
      pledgedBy_of_lookup hpasses.holder, (Cobuilder.shares_of_pledged hpasses.pledged).1]
    rfl
  rw [hstorage]
  calc w.storage.states.pledgedShares
      < 2 * (proposal.sum + own.share) := hpasses.enough
    _ ≤ 2 * (heldBy w.storage.cobuilders proposal.ballot + own.share) := by omega
    _ = 2 * heldBy w.storage.cobuilders (proposal.ballot.insert msg.txSender own.share) := by
        rw [hlast]

/-! ## Nobody on the ballot hands shares over -/

/-- Nobody has fewer pledged shares than before. -/
def Gains (table table' : Table Address Cobuilder) : Prop :=
  ∀ address, pledgedBy table address ≤ pledgedBy table' address

theorem Gains.trans {table'' : Table Address Cobuilder} (hfirst : Gains table table')
    (hsecond : Gains table' table'') : Gains table table'' :=
  fun address => (hfirst address).trans (hsecond address)

/-- The rule for new holders. -/
theorem Current.setCobuilders {st : Storage} (hst : Current st)
    (hgains : Gains st.cobuilders table) : Current { st with cobuilders := table } :=
  fun proposal hproposal address share hlookup =>
    (hst proposal hproposal address share hlookup).trans (hgains address)

theorem current_none {st : Storage} (hwithdraw : st.withdraw = none) : Current st := by
  rintro proposal hproposal
  rw [hwithdraw] at hproposal
  cases hproposal

theorem gains_insert (hgains : pledgedBy table address ≤ own.pledgedShare) :
    Gains table (table.insert address own) := by
  intro other
  by_cases hother : other = address
  · rw [hother, pledgedBy_of_lookup (AList.lookup_insert _)]
    exact hgains
  · rw [pledgedBy, pledgedBy, AList.lookup_insert_ne hother]

/-- Who has no pledged shares leaves. -/
theorem gains_erase (hnone : pledgedBy table address = 0) : Gains table (table.erase address) := by
  intro other
  by_cases hother : other = address
  · rw [hother, hnone, pledgedBy, AList.lookup_erase]
    exact le_rfl
  · rw [pledgedBy, pledgedBy, AList.lookup_erase_ne hother]

theorem gains_mapValuesM {f : Cobuilder → Option Cobuilder}
    (hmap : mapValuesM (fun _ => f) table = some table')
    (hf : ∀ address cobuilder cobuilder', table.lookup address = some cobuilder →
      f cobuilder = some cobuilder' → cobuilder.pledgedShare ≤ cobuilder'.pledgedShare) :
    Gains table table' := by
  intro address
  rw [pledgedBy, pledgedBy, lookup_mapValuesM hmap]
  cases hlookup : table.lookup address with
  | none => exact le_rfl
  | some cobuilder =>
      have hsome := isSome_mapValuesM.mp (Option.isSome_of_eq_some hmap) address cobuilder hlookup
      obtain ⟨cobuilder', hcobuilder'⟩ := Option.isSome_iff_exists.mp hsome
      rw [Option.bind_some, hcobuilder']
      exact hf address cobuilder cobuilder' hlookup hcobuilder'

theorem gains_distribute {allReward : ℤ} (hdistribute : distribute msg allReward w = some w') :
    w'.storage.withdraw = w.storage.withdraw ∧
      Gains w.storage.cobuilders w'.storage.cobuilders := by
  obtain ⟨unitReward, left, cobuilders, initiator, -, -, -, -, hmap, hinitiator, rfl⟩ :=
    distribute_cases hdistribute
  have hrewarded : Gains w.storage.cobuilders cobuilders := by
    refine gains_mapValuesM hmap fun _ _ _ _ hrewarded => ?_
    rw [of_rewarded hrewarded]
    exact le_rfl
  exact ⟨rfl, hrewarded.trans (gains_insert (pledgedBy_of_lookup hinitiator).le)⟩

/-- The votes are those from before, and still good. -/
def SameVotes (w w' : World) : Prop :=
  w'.storage.withdraw = w.storage.withdraw ∧ Gains w.storage.cobuilders w'.storage.cobuilders

theorem SameVotes.refl (w : World) : SameVotes w w :=
  ⟨rfl, fun _ => le_rfl⟩

theorem SameVotes.trans (hfirst : SameVotes w w') (hsecond : SameVotes w' w₁) : SameVotes w w₁ :=
  ⟨hsecond.1.trans hfirst.1, hfirst.2.trans hsecond.2⟩

theorem SameVotes.current (hsame : SameVotes w w') (hw : Current w.storage) :
    Current w'.storage := by
  intro proposal hproposal address share hlookup
  rw [hsame.1] at hproposal
  exact (hw proposal hproposal address share hlookup).trans (hsame.2 address)

theorem sameVotes_reward {amount : ℕ}
    (hcallback : callback host msg w (.reward amount) = some w') : SameVotes w w' := by
  rcases reward_cases hcallback with ⟨-, rfl⟩ | hcallback
  · exact SameVotes.refl w
  · exact gains_distribute (w := w.arrive amount) hcallback

theorem current_received (hreceived : received msg w = some w') : Current w'.storage := by
  obtain ⟨cobuilders, -, rfl⟩ := received_cases hreceived
  exact current_none rfl

theorem current_callback {cb : Callback} (hw : Current w.storage)
    (hcallback : callback host msg w cb = some w') : Current w'.storage := by
  cases cb with
  | reward amount => exact (sameVotes_reward hcallback).current hw
  | refund =>
      rcases refund_cases hcallback with ⟨-, rfl⟩ | hcallback
      · exact hw
      · exact current_received hcallback

/-- What the DPoS contract leaves of the votes. -/
structure DposContract.Fair (dpos : DposContract) : Prop where
  current : ∀ {input w w'}, Current w.storage → dpos.call input w = some w' → Current w'.storage
  extract : ∀ {w w'}, dpos.call .extract w = some w' → SameVotes w w'

theorem fair_respond (response : Response) : (respond host msg response).Fair where
  current hw hcall := respond_invariant (p := fun w => Current w.storage) current_callback hw hcall
  extract {w _} hcall := extract_invariant (p := SameVotes w)
    (fun hfirst hreward => hfirst.trans (sameVotes_reward hreward)) (.refl w) hcall

theorem current_callDPOS {amount : ℤ} {input : Input} (hdpos : dpos.Fair)
    (hw : Current w.storage) (hcall : callDPOS host dpos amount input w = some w') :
    Current w'.storage := by
  obtain ⟨-, hcall⟩ := callDPOS_cases hcall
  refine hdpos.current ?_ hcall
  exact hw

theorem sameVotes_extract (hdpos : dpos.Fair)
    (hcall : callDPOS host dpos 0 .extract w = some w') : SameVotes w w' :=
  hdpos.extract (callDPOS_zero hcall)

theorem current_subscribe {shares : ℤ} (hw : Current w.storage)
    (hsubscribe : subscribe msg shares w = some w') : Current w'.storage := by
  obtain ⟨-, -, own, hown, rfl⟩ := subscribe_cases hsubscribe
  obtain ⟨hpledged, -, -, hnone, -⟩ := of_subscribed hown
  refine hw.setCobuilders (gains_insert ?_)
  rw [(Cobuilder.shares_of_free hpledged).1]
  exact hnone.le

theorem current_revoke (hw : Current w.storage) (hrevoke : revoke host msg w = some w') :
    Current w'.storage := by
  obtain ⟨stake, hstake, hpledged, rfl⟩ := revoke_cases hrevoke
  refine hw.setCobuilders (gains_erase ?_)
  rw [pledgedBy_of_lookup hstake]
  exact (Cobuilder.shares_of_free hpledged).1

theorem current_setStatus {states : States} (hst : Orderly w.storage) (hw : Current w.storage)
    (hstatus : setStatus states w = some w') : Current w'.storage := by
  obtain ⟨cobuilders, hmap, rfl⟩ := setStatus_cases hstatus
  refine hw.setCobuilders (gains_mapValuesM hmap fun address cobuilder _ hlookup hsome => ?_)
  have hshare := (hst.holders address cobuilder hlookup).1
  rw [← Option.some.inj hsome]
  unfold Cobuilder.pledgedShare
  split
  · exact le_rfl
  · exact hshare

theorem current_coApply {role : Role} {pool : Address} {ratio : ℤ} {node : Option Address}
    (hdpos : dpos.Fair) (hst : Orderly w.storage) (hw : Current w.storage)
    (happly : coApply host dpos msg role pool ratio node w = some w') : Current w'.storage := by
  obtain ⟨-, -, -, w₁, input, hstatus, hcall⟩ := coApply_cases happly
  exact current_callDPOS hdpos (current_setStatus hst hw hstatus) hcall

theorem current_coAppend (hdpos : dpos.Fair) (hst : Orderly w.storage) (hw : Current w.storage)
    (happend : coAppend host dpos msg w = some w') : Current w'.storage := by
  obtain ⟨-, -, w₁, input, hstatus, hcall⟩ := coAppend_cases happend
  exact current_callDPOS hdpos (current_setStatus hst hw hstatus) hcall

theorem current_coSetNodeAddress (hdpos : dpos.Fair) (hw : Current w.storage)
    (hset : coSetNodeAddress host dpos msg address w = some w') : Current w'.storage := by
  obtain ⟨input, hcall⟩ := coSetNodeAddress_cases hset
  exact current_callDPOS hdpos hw hcall

theorem current_coSetVoteDividend {pool : Option Address} {ratio : Option ℤ} (hdpos : dpos.Fair)
    (hw : Current w.storage) (hset : coSetVoteDividend host dpos msg pool ratio w = some w') :
    Current w'.storage := by
  obtain ⟨input, hcall⟩ := coSetVoteDividend_cases hset
  exact current_callDPOS hdpos hw hcall

theorem current_transfer {dest : Address} {shares : ℤ} (hw : Current w.storage)
    (htransfer : transfer host msg dest shares w = some w') : Current w'.storage := by
  rcases transfer_cases htransfer with rfl | ⟨-, rfl⟩
  · exact hw
  · exact hw

/-- Nobody on the ballot hands shares over to another. -/
def Stays (msg : Msg) (transferor : Address) (w : World) : Prop :=
  transferor ≠ msg.txSender → ∀ proposal ∈ w.storage.withdraw, transferor ∉ proposal.ballot

theorem pledgedShare_accepted {shares : ℤ} {o : Option Cobuilder} (hshares : 0 < shares)
    (haccepted : accepted shares o = some own) :
    o.elim 0 Cobuilder.pledgedShare ≤ own.pledgedShare := by
  obtain ⟨hshare, -, hpledged⟩ := accepted_cases haccepted
  cases o with
  | none =>
      rw [(Cobuilder.shares_of_pledged hpledged).1, hshare]
      exact add_nonneg le_rfl hshares.le
  | some old =>
      rw [Option.elim_some] at hshare hpledged ⊢
      unfold Cobuilder.pledgedShare
      rw [hpledged]
      split <;> omega

/-- The shares come from somebody who is not on the ballot, or go back to where they come from. -/
theorem current_takeOver {transferor : Address} {shares gain : ℤ} (hw : Current w.storage)
    (hshares : 0 < shares) (hothers : ∀ other, other ≠ transferor →
      table.lookup other = w.storage.cobuilders.lookup other)
    (hleft : ∀ old ∈ table.lookup transferor, old.pledged = true)
    (hback : ∀ proposal ∈ w.storage.withdraw, ∀ share,
      proposal.ballot.lookup transferor = some share →
        share ≤ (table.lookup transferor).elim 0 Cobuilder.share + shares)
    (hstays : Stays msg transferor w)
    (htake : takeOver host msg transferor shares gain table w = some w') :
    Current w'.storage := by
  obtain ⟨own, hown, rfl⟩ := takeOver_cases htake
  intro proposal hproposal address share hlookup
  have hafter : Gains table (table.insert msg.txSender own) :=
    gains_insert (pledgedShare_accepted hshares hown)
  change share ≤ pledgedBy (table.insert msg.txSender own) address
  by_cases haddress : address = transferor
  · have hself : msg.txSender = transferor := by
      by_contra hne
      have hnot := hstays (Ne.symm hne) proposal hproposal
      rw [← haddress, ← AList.lookup_eq_none, hlookup] at hnot
      cases hnot
    rw [hself] at hown
    obtain ⟨hflag, hshare, -, -, -⟩ := of_accepted hleft hown
    rw [haddress, hself, pledgedBy_of_lookup (AList.lookup_insert _),
      (Cobuilder.shares_of_pledged hflag).1, hshare]
    exact hback proposal hproposal share (haddress ▸ hlookup)
  · refine le_trans ?_ (hafter address)
    rw [pledgedBy, hothers address haddress]
    exact hw proposal hproposal address share hlookup

theorem current_accept {transferor : Address} (hdpos : dpos.Fair) (hst : Orderly w.storage)
    (hw : Current w.storage) (hstays : Stays msg transferor w)
    (haccept : accept host dpos msg transferor w = some w') : Current w'.storage := by
  obtain ⟨given, shares, hgiven, hpledged, hshares, hle, houtcome⟩ := accept_cases haccept
  have hpositive := hst.offers _ shares hshares
  -- what the transferor voted with, if it did
  have hvoted : ∀ proposal ∈ w.storage.withdraw, ∀ share,
      proposal.ballot.lookup transferor = some share → share ≤ given.share := by
    intro proposal hproposal share hlookup
    have hshare := hw proposal hproposal transferor share hlookup
    rwa [pledgedBy_of_lookup hgiven, (Cobuilder.shares_of_pledged hpledged).1] at hshare
  rcases houtcome with ⟨hall, w₁, given', hextract, -, htake⟩ | ⟨-, -, htake⟩
  · have hsame := sameVotes_extract hdpos hextract
    refine current_takeOver (hsame.current hw) hpositive
      (fun other hother => AList.lookup_erase_ne hother) ?_ ?_ ?_ htake
    · rw [AList.lookup_erase]
      exact nofun
    · intro proposal hproposal share hlookup
      rw [hsame.1] at hproposal
      have hshare := hvoted proposal hproposal share hlookup
      rw [AList.lookup_erase, Option.elim_none]
      omega
    · intro hne proposal hproposal
      rw [hsame.1] at hproposal
      exact hstays hne proposal hproposal
  · refine current_takeOver hw hpositive (fun other hother => AList.lookup_insert_ne hother) ?_ ?_
      hstays htake
    · rw [AList.lookup_insert]
      rintro old hold
      rw [← Option.some.inj hold]
      exact hpledged
    · intro proposal hproposal share hlookup
      have hshare := hvoted proposal hproposal share hlookup
      rw [AList.lookup_insert, Option.elim_some]
      dsimp only
      omega

theorem current_withdrawing (hdpos : dpos.Fair)
    (hproposal : Current { w.storage with withdraw := some proposal })
    (hwithdrawing : withdrawing host dpos proposal w = some w') : Current w'.storage := by
  refine current_callDPOS hdpos ?_ hwithdrawing
  rintro proposal' hproposal' address share hlookup
  rw [← Option.some.inj hproposal'] at hlookup
  exact hproposal proposal rfl address share hlookup

theorem current_coWithdraw (hdpos : dpos.Fair) (hw : Current w.storage)
    (hwithdraw : coWithdraw host dpos msg w = some w') : Current w'.storage := by
  rcases coWithdraw_cases hwithdraw with ⟨proposal, hproposal, hwithdraw⟩ | ⟨-, rfl⟩
  · obtain ⟨-, hballot⟩ := withdrawProposal_cases hproposal
    refine current_withdrawing hdpos ?_ hwithdraw
    rintro proposal' hproposal' address share hlookup
    rw [← Option.some.inj hproposal', hballot, AList.lookup_empty] at hlookup
    cases hlookup
  · exact hw

theorem current_pollOn (hdpos : dpos.Fair) (hw : Current w.storage)
    (hopen : Open w.storage.withdraw proposal)
    (hown : w.storage.cobuilders.lookup msg.txSender = some own) (hpledged : own.pledged = true)
    (hpoll : pollOn host dpos msg own.share proposal w = some w') : Current w'.storage := by
  have hvoted : ∀ address share,
      (proposal.ballot.insert msg.txSender own.share).lookup address = some share →
        share ≤ pledgedBy w.storage.cobuilders address := by
    refine forall_lookup_insert (fun address share hlookup => hw.of_open hopen hlookup) ?_
    rw [pledgedBy_of_lookup hown, (Cobuilder.shares_of_pledged hpledged).1]
  rcases pollOn_outcome hpoll with rfl | hpoll
  · rintro proposal' hproposal' address share hlookup
    rw [← Option.some.inj hproposal'] at hlookup
    exact hvoted address share hlookup
  · refine current_withdrawing hdpos ?_ hpoll
    rintro proposal' hproposal' address share hlookup
    rw [← Option.some.inj hproposal'] at hlookup
    exact hvoted address share hlookup

theorem current_poll (hdpos : dpos.Fair) (hw : Current w.storage)
    (hpoll : poll host dpos msg w = some w') : Current w'.storage := by
  obtain ⟨own, hown, hpledged, rfl | ⟨proposal, hopen, -, hpoll⟩⟩ := poll_outcome hpoll
  · exact hw
  · exact current_pollOn hdpos hw hopen hown hpledged hpoll

theorem current_takeback (hdpos : dpos.Fair) (hw : Current w.storage)
    (htakeback : takeback host dpos msg w = some w') : Current w'.storage := by
  obtain ⟨input, hcall⟩ := takeback_cases htakeback
  exact current_callDPOS hdpos hw hcall

theorem current_coExtract {list : Option (List Address)} (hdpos : dpos.Fair)
    (hw : Current w.storage) (hextract : coExtract host dpos msg list w = some w') :
    Current w'.storage := by
  refine coExtract_invariant (p := fun w => Current w.storage)
    (fun hcall => current_callDPOS hdpos hw hcall) (fun hw₁ hown => ?_) hextract
  exact hw₁.setCobuilders (gains_insert (pledgedBy_of_lookup hown).le)

theorem current_main {method : Method} (hdpos : dpos.Fair) (hst : Orderly w.storage)
    (hw : Current w.storage) (hstays : ∀ transferor, method = .accept transferor →
      Stays msg transferor w) (hmain : main host dpos msg method w = some w') :
    Current w'.storage := by
  unfold main at hmain
  split at hmain
  · obtain rfl := Option.some.inj hmain
    exact hw
  · obtain ⟨-, hmain⟩ := of_assert hmain
    cases method with
    | subscribe shares => exact current_subscribe hw hmain
    | revoke => exact current_revoke hw hmain
    | coApply role pool ratio node => exact current_coApply hdpos hst hw hmain
    | coAppend => exact current_coAppend hdpos hst hw hmain
    | coSetNodeAddress address => exact current_coSetNodeAddress hdpos hw hmain
    | coSetVoteDividend pool ratio => exact current_coSetVoteDividend hdpos hw hmain
    | transfer dest shares => exact current_transfer hw hmain
    | accept transferor => exact current_accept hdpos hst hw (hstays transferor rfl) hmain
    | coExtract list => exact current_coExtract hdpos hw hmain
    | coWithdraw => exact current_coWithdraw hdpos hw hmain
    | poll => exact current_poll hdpos hw hmain
    | takeback => exact current_takeback hdpos hw hmain
    | reward => exact SameVotes.current (gains_distribute hmain) hw
    | refund => exact current_received hmain
    | invalid => cases hmain
    | unknown =>
        obtain rfl := Option.some.inj hmain
        exact hw

/-- What is asked of a step in the state that it meets. -/
def Step.Stays (w : World) : Step → Prop
  | .call msg _ (.accept transferor) _ => Cobuild.Stays msg transferor w
  | _ => True

/-- What is asked of every step of a history. -/
def StaysAll (host : Host) : World → List Step → Prop
  | _, [] => True
  | w, s :: steps => s.Stays w ∧ StaysAll host (step host w s) steps

theorem current_step {s : Step} (hst : Orderly w.storage) (hw : Current w.storage)
    (hstays : s.Stays w) : Current (step host w s).storage := by
  cases s with
  | call msg hsender method response =>
      rw [step]
      cases hmain : main host (respond host msg response) msg method (w.arrive msg.coinAmount) with
      | none => exact hw
      | some w' =>
          refine current_main (w := w.arrive msg.coinAmount) (fair_respond response) hst hw ?_ hmain
          rintro transferor rfl
          exact hstays
  | callback msg cb =>
      rw [step]
      cases hcallback : callback host msg w cb with
      | none => exact hw
      | some w' => exact current_callback hw hcallback

theorem current_states_of {steps : List Step} (hst : Orderly w.storage) (hw : Current w.storage)
    (hstays : StaysAll host w steps) : ∀ w' ∈ states host w steps, Current w'.storage := by
  have hboth : ∀ w' ∈ states host w steps, Orderly w'.storage ∧ Current w'.storage :=
    Runs.scanl_invariant_of (p := fun w : World => Orderly w.storage ∧ Current w.storage)
      (StaysAll host)
      (fun hw hstays => ⟨⟨orderly_step hw.1, current_step hw.1 hw.2 hstays.1⟩, hstays.2⟩)
      ⟨hst, hw⟩ hstays
  exact fun w' hw' => (hboth w' hw').2

/-- Those on the ballot have what they voted with in every history in which none of them hands
shares over to another. -/
theorem current_states {unit shares : ℤ} {baseReserve : ℕ}
    (hinit : init msg unit shares baseReserve = some w) {steps : List Step}
    (hstays : StaysAll host w steps) : ∀ w' ∈ states host w steps, Current w'.storage := by
  refine current_states_of (orderly_init hinit) (current_none ?_) hstays
  unfold init at hinit
  obtain ⟨remainder, -, hinit⟩ := of_bind hinit
  obtain ⟨-, hinit⟩ := of_assert hinit
  obtain ⟨-, hinit⟩ := of_assert hinit
  obtain ⟨initFund, -, hinit⟩ := of_bind hinit
  obtain ⟨-, hinit⟩ := of_assert hinit
  obtain ⟨rest, -, hinit⟩ := of_bind hinit
  obtain ⟨-, hinit⟩ := of_assert hinit
  obtain ⟨initShare, -, hinit⟩ := of_bind hinit
  rw [← Option.some.inj hinit]

/-! ## Every history -/

/-- So it is for every vote of a history in which nobody on the ballot hands shares over. -/
theorem majority_of_stays {unit shares : ℤ} {baseReserve : ℕ} {msg₀ : Msg}
    (hinit : init msg₀ unit shares baseReserve = some w) {steps : List Step}
    (hstays : StaysAll host w steps) (hw' : w' ∈ states host w steps)
    (hasks : Asks host validPeriod msg w' w₁) : Majority w₁ :=
  majority_of_asks (orderly_states (orderly_init hinit) w' hw') (current_states hinit hstays w' hw')
    hasks

end CegChain.Cobuild
