import CegChain.Contract.Shares

/-!
# What never goes wrong in the co-build contract

The books of the contract can be made wrong (`books_broken`), but some things are right in
every history: nobody has a negative share or award, the contract is a candidate only with
pledged shares and never when it is disbanded, and the sum of a vote on leaving is the sum of
its ballot (`orderly_states`).
-/

namespace CegChain.Cobuild

open Layers Totals
open Dpos (assert int64Add int64Sub int64Mod Role of_bind of_assert)

variable {host : Host} {dpos : DposContract} {msg : Msg} {w w' w₁ : World} {st : Storage}
  {table table' : Table Address Cobuilder} {address : Address} {own : Cobuilder}

/-! ## The invariant -/

/-- Nobody owes anything. -/
def Nonneg (table : Table Address Cobuilder) : Prop :=
  ∀ address cobuilder, table.lookup address = some cobuilder →
    0 ≤ cobuilder.share ∧ 0 ≤ cobuilder.award

/-- The sum of a vote is the sum of what is on the ballot. -/
def Tallied (withdraw : Option Proposal) : Prop :=
  ∀ proposal ∈ withdraw, proposal.sum = total (fun _ share => share) proposal.ballot

/-- What is true of the metadata in every history. -/
structure Orderly (st : Storage) : Prop where
  unit : 0 < st.cfg.unit
  raise : 0 < st.cfg.raiseShares
  applied : st.states.applied = true → 0 < st.states.pledgedShares
  fits : st.states.pledgedShares < 2 ^ 63
  disabled : st.states.disabled = true → st.states.applied = false
  holders : Nonneg st.cobuilders
  offers : ∀ key shares, st.transfers.lookup key = some shares → 0 < shares
  tally : Tallied st.withdraw

theorem tallied_none : Tallied none := nofun

theorem zero_fits : (0 : ℤ) < 2 ^ 63 := by decide

/-- The rule for new holders. -/
theorem Orderly.setCobuilders (hst : Orderly st) (htable : Nonneg table) :
    Orderly { st with cobuilders := table } :=
  ⟨hst.unit, hst.raise, hst.applied, hst.fits, hst.disabled, htable, hst.offers, hst.tally⟩

/-- The rule for a sum of shares that changes. -/
theorem Orderly.setAllShares (hst : Orderly st) (allShares : ℤ) :
    Orderly { st with states := { st.states with allShares := allShares } } :=
  ⟨hst.unit, hst.raise, hst.applied, hst.fits, hst.disabled, hst.holders, hst.offers, hst.tally⟩

theorem Orderly.setWithdraw (hst : Orderly st) {withdraw : Option Proposal}
    (htally : Tallied withdraw) : Orderly { st with withdraw := withdraw } :=
  ⟨hst.unit, hst.raise, hst.applied, hst.fits, hst.disabled, hst.holders, hst.offers, htally⟩

theorem Orderly.setTransfers (hst : Orderly st) {transfers : Table (Address × Address) ℤ}
    (hoffers : ∀ key shares, transfers.lookup key = some shares → 0 < shares) :
    Orderly { st with transfers := transfers } :=
  ⟨hst.unit, hst.raise, hst.applied, hst.fits, hst.disabled, hst.holders, hoffers, hst.tally⟩

theorem Nonneg.insert (htable : Nonneg table) (hshare : 0 ≤ own.share) (haward : 0 ≤ own.award) :
    Nonneg (table.insert address own) :=
  forall_lookup_insert htable ⟨hshare, haward⟩

theorem Nonneg.erase (htable : Nonneg table) (address : Address) :
    Nonneg (table.erase address) :=
  forall_lookup_erase address htable

theorem Nonneg.elim (htable : Nonneg table) (address : Address) :
    0 ≤ (table.lookup address).elim 0 Cobuilder.share ∧
      0 ≤ (table.lookup address).elim 0 Cobuilder.award := by
  cases hlookup : table.lookup address with
  | none => exact ⟨le_rfl, le_rfl⟩
  | some own => exact htable address own hlookup

theorem nonneg_setPledged {flag : Bool}
    (hmap : mapValuesM (fun _ (cobuilder : Cobuilder) => some { cobuilder with pledged := flag })
      table = some table') (htable : Nonneg table) : Nonneg table' := by
  intro address cobuilder hlookup
  rw [lookup_mapValuesM hmap] at hlookup
  obtain ⟨cobuilder', hlookup, hsome⟩ := Option.bind_eq_some_iff.mp hlookup
  rw [← Option.some.inj hsome]
  exact htable address cobuilder' hlookup

/-! ## The calls of the DPoS contract -/

theorem orderly_distribute {allReward : ℤ} (hw : Orderly w.storage)
    (hdistribute : distribute msg allReward w = some w') : Orderly w'.storage := by
  obtain ⟨unitReward, left, cobuilders, initiator, hnonneg, hunit, hleft, hpositive, hmap,
    hinitiator, rfl⟩ := distribute_cases hdistribute
  have hunit_nonneg : 0 ≤ unitReward := hunit ▸ Int.ediv_nonneg hnonneg hpositive.le
  have hleft_nonneg : 0 ≤ left := hleft ▸ Int.emod_nonneg _ hpositive.ne'
  have hmapped : Nonneg cobuilders := by
    intro address cobuilder hlookup
    rw [lookup_mapValuesM hmap] at hlookup
    obtain ⟨cobuilder', hlookup, hrewarded⟩ := Option.bind_eq_some_iff.mp hlookup
    obtain ⟨hshare, haward⟩ := hw.holders address cobuilder' hlookup
    rw [of_rewarded hrewarded]
    exact ⟨hshare, add_nonneg haward
      (mul_nonneg hunit_nonneg (Cobuilder.pledgedShare_nonneg hshare))⟩
  obtain ⟨hshare, haward⟩ := hmapped _ initiator hinitiator
  exact hw.setCobuilders (hmapped.insert hshare (add_nonneg haward hleft_nonneg))

theorem orderly_received (hw : Orderly w.storage) (hreceived : received msg w = some w') :
    Orderly w'.storage := by
  obtain ⟨cobuilders, hmap, rfl⟩ := received_cases hreceived
  exact ⟨hw.unit, hw.raise, nofun, zero_fits, fun _ => rfl,
    nonneg_setPledged hmap hw.holders, hw.offers, tallied_none⟩

theorem orderly_callback {cb : Callback} (hw : Orderly w.storage)
    (hcallback : callback host msg w cb = some w') : Orderly w'.storage := by
  cases cb with
  | reward amount =>
      rcases reward_cases hcallback with ⟨-, rfl⟩ | hcallback
      · exact hw
      · exact orderly_distribute (w := w.arrive amount) hw hcallback
  | refund =>
      rcases refund_cases hcallback with ⟨-, rfl⟩ | hcallback
      · exact hw
      · exact orderly_received (w := { w.arrive w.deposited with deposited := 0 }) hw hcallback

/-- The DPoS contract leaves the metadata in order. -/
def DposContract.Orderly (dpos : DposContract) : Prop :=
  ∀ input w w', Cobuild.Orderly w.storage → dpos.call input w = some w' →
    Cobuild.Orderly w'.storage

theorem orderly_respond (response : Response) : (respond host msg response).Orderly :=
  fun _ _ _ hw hcall =>
    respond_invariant (p := fun w => Orderly w.storage) orderly_callback hw hcall

theorem orderly_callDPOS {amount : ℤ} {input : Input} (hdpos : dpos.Orderly)
    (hw : 0 ≤ amount → Orderly w.storage)
    (hcall : callDPOS host dpos amount input w = some w') : Orderly w'.storage := by
  obtain ⟨hamount, hcall⟩ := callDPOS_cases hcall
  exact hdpos input
    { w with balance := w.balance - amount, deposited := w.deposited + amount.toNat } w'
    (hw hamount) hcall

/-! ## The methods -/

theorem orderly_subscribe {shares : ℤ} (hw : Orderly w.storage)
    (hsubscribe : subscribe msg shares w = some w') : Orderly w'.storage := by
  obtain ⟨hshares, -, own, hown, rfl⟩ := subscribe_cases hsubscribe
  obtain ⟨-, hshare, haward, -⟩ := subscribed_cases hown
  obtain ⟨hshare_nonneg, haward_nonneg⟩ := hw.holders.elim msg.txSender
  exact (hw.setAllShares _).setCobuilders
    (hw.holders.insert (by omega) (haward ▸ haward_nonneg))

theorem orderly_revoke (hw : Orderly w.storage) (hrevoke : revoke host msg w = some w') :
    Orderly w'.storage := by
  obtain ⟨stake, -, -, rfl⟩ := revoke_cases hrevoke
  exact (hw.setAllShares _).setCobuilders (hw.holders.erase _)

/-- All shares get pledged, of which there are some. -/
theorem orderly_setStatus {states : States} (hw : Orderly w.storage)
    (hpositive : 0 < states.allShares) (hfits : states.allShares < 2 ^ 63)
    (henabled : states.disabled = false) (hstatus : setStatus states w = some w') :
    Orderly w'.storage := by
  obtain ⟨cobuilders, hmap, rfl⟩ := setStatus_cases hstatus
  exact ⟨hw.unit, hw.raise, fun _ => hpositive, hfits,
    fun htrue => absurd (henabled.symm.trans htrue) Bool.false_ne_true,
    nonneg_setPledged hmap hw.holders, hw.offers, hw.tally⟩

theorem orderly_coApply {role : Role} {pool : Address} {ratio : ℤ} {node : Option Address}
    (hdpos : dpos.Orderly) (hw : Orderly w.storage) (henabled : w.storage.states.disabled = false)
    (happly : coApply host dpos msg role pool ratio node w = some w') : Orderly w'.storage := by
  obtain ⟨-, henough, hfits, w₁, input, hstatus, hcall⟩ := coApply_cases happly
  refine orderly_callDPOS hdpos (fun _ => ?_) hcall
  refine orderly_setStatus hw ?_ ?_ ?_ hstatus
  · exact hw.raise.trans_le henough
  · exact hfits
  · exact henabled

theorem orderly_coAppend (hdpos : dpos.Orderly) (hw : Orderly w.storage)
    (henabled : w.storage.states.disabled = false)
    (happend : coAppend host dpos msg w = some w') : Orderly w'.storage := by
  obtain ⟨happlied, hfits, w₁, input, hstatus, hcall⟩ := coAppend_cases happend
  refine orderly_callDPOS hdpos (fun hnonneg => ?_) hcall
  -- the payment would throw if there were fewer shares than before
  have happended : 0 ≤ w.storage.states.allShares - w.storage.states.pledgedShares :=
    nonneg_of_mul_nonneg_right hnonneg hw.unit
  have hpledged := hw.applied happlied
  exact orderly_setStatus hw (by omega) hfits henabled hstatus

theorem orderly_coSetNodeAddress (hdpos : dpos.Orderly) (hw : Orderly w.storage)
    (hset : coSetNodeAddress host dpos msg address w = some w') : Orderly w'.storage := by
  obtain ⟨input, hcall⟩ := coSetNodeAddress_cases hset
  exact orderly_callDPOS hdpos (fun _ => hw) hcall

theorem orderly_coSetVoteDividend {pool : Option Address} {ratio : Option ℤ}
    (hdpos : dpos.Orderly) (hw : Orderly w.storage)
    (hset : coSetVoteDividend host dpos msg pool ratio w = some w') : Orderly w'.storage := by
  obtain ⟨input, hcall⟩ := coSetVoteDividend_cases hset
  exact orderly_callDPOS hdpos (fun _ => hw) hcall

theorem orderly_transfer {dest : Address} {shares : ℤ} (hw : Orderly w.storage)
    (htransfer : transfer host msg dest shares w = some w') : Orderly w'.storage := by
  rcases transfer_cases htransfer with rfl | ⟨hpositive, rfl⟩
  · exact hw.setTransfers (forall_lookup_erase _ hw.offers)
  · exact hw.setTransfers (forall_lookup_insert hw.offers hpositive)

theorem orderly_takeOver {transferor : Address} {shares gain : ℤ} (hw : Orderly w.storage)
    (hshares : 0 < shares) (htable : Nonneg table)
    (htake : takeOver host msg transferor shares gain table w = some w') :
    Orderly w'.storage := by
  obtain ⟨own, hown, rfl⟩ := takeOver_cases htake
  obtain ⟨hshare, haward, -⟩ := accepted_cases hown
  obtain ⟨hshare_nonneg, haward_nonneg⟩ := htable.elim msg.txSender
  exact (hw.setTransfers (forall_lookup_erase _ hw.offers)).setCobuilders
    (htable.insert (by omega) (haward ▸ haward_nonneg))

theorem orderly_accept {transferor : Address} (hdpos : dpos.Orderly) (hw : Orderly w.storage)
    (haccept : accept host dpos msg transferor w = some w') : Orderly w'.storage := by
  obtain ⟨given, shares, hgiven, -, hshares, hle,
    ⟨-, w₁, given', hextract, -, htake⟩ | ⟨-, -, htake⟩⟩ := accept_cases haccept
  · have hw₁ : Orderly w₁.storage := orderly_callDPOS hdpos (fun _ => hw) hextract
    exact orderly_takeOver hw₁ (hw.offers _ shares hshares) (hw₁.holders.erase _) htake
  · have haward := (hw.holders _ given hgiven).2
    refine orderly_takeOver hw (hw.offers _ shares hshares) ?_ htake
    exact hw.holders.insert (sub_nonneg.mpr hle) haward

theorem orderly_withdrawing {proposal : Proposal} (hdpos : dpos.Orderly) (hw : Orderly w.storage)
    (htally : proposal.sum = total (fun _ share => share) proposal.ballot)
    (hwithdrawing : withdrawing host dpos proposal w = some w') : Orderly w'.storage := by
  refine orderly_callDPOS hdpos (fun _ => ?_) hwithdrawing
  refine hw.setWithdraw fun proposal' hproposal' => ?_
  rw [← Option.some.inj hproposal']
  exact htally

theorem orderly_coWithdraw (hdpos : dpos.Orderly) (hw : Orderly w.storage)
    (hwithdraw : coWithdraw host dpos msg w = some w') : Orderly w'.storage := by
  rcases coWithdraw_cases hwithdraw with ⟨proposal, hproposal, hwithdraw⟩ | ⟨happlied, rfl⟩
  · obtain ⟨hsum, hballot⟩ := withdrawProposal_cases hproposal
    refine orderly_withdrawing hdpos hw ?_ hwithdraw
    rw [hsum, hballot, total_empty]
  · exact ⟨hw.unit, hw.raise, hw.applied, hw.fits, fun _ => happlied, hw.holders, hw.offers,
      hw.tally⟩

/-- A vote is added to the sum and to the ballot. -/
theorem total_ballot_insert {ballot : Table Address ℤ} (share : ℤ)
    (hnew : ballot.lookup address = none) :
    total (fun _ share => share) (ballot.insert address share) =
      total (fun _ share => share) ballot + share := by
  rw [total_insert, weight_of_none hnew, sub_zero]

theorem orderly_pollOn {share : ℤ} {proposal : Proposal} (hdpos : dpos.Orderly)
    (hw : Orderly w.storage) (hnew : proposal.ballot.lookup msg.txSender = none)
    (htally : proposal.sum = total (fun _ share => share) proposal.ballot)
    (hpoll : pollOn host dpos msg share proposal w = some w') : Orderly w'.storage := by
  have htally' := (total_ballot_insert share hnew).symm
  rw [← htally] at htally'
  rcases pollOn_outcome hpoll with rfl | hpoll
  · refine hw.setWithdraw fun proposal' hproposal' => ?_
    rw [← Option.some.inj hproposal']
    exact htally'
  · exact orderly_withdrawing hdpos hw htally' hpoll

theorem orderly_poll (hdpos : dpos.Orderly) (hw : Orderly w.storage)
    (hpoll : poll host dpos msg w = some w') : Orderly w'.storage := by
  obtain ⟨own, -, -, rfl | ⟨proposal, hopen, hnew, hpoll⟩⟩ := poll_outcome hpoll
  · exact hw
  · refine orderly_pollOn hdpos hw hnew ?_ hpoll
    rcases hopen with hopen | ⟨-, hsum, hballot⟩
    · exact hw.tally proposal hopen
    · rw [hsum, hballot, total_empty]

theorem orderly_takeback (hdpos : dpos.Orderly) (hw : Orderly w.storage)
    (htakeback : takeback host dpos msg w = some w') : Orderly w'.storage := by
  obtain ⟨input, hcall⟩ := takeback_cases htakeback
  exact orderly_callDPOS hdpos (fun _ => hw) hcall

theorem orderly_coExtract {list : Option (List Address)} (hdpos : dpos.Orderly)
    (hw : Orderly w.storage) (hextract : coExtract host dpos msg list w = some w') :
    Orderly w'.storage := by
  refine coExtract_invariant (p := fun w => Orderly w.storage)
    (fun hcall => orderly_callDPOS hdpos (fun _ => hw) hcall) (fun hw₁ hown => ?_) hextract
  exact hw₁.setCobuilders (hw₁.holders.insert (hw₁.holders _ _ hown).1 le_rfl)

/-! ## Histories -/

theorem orderly_main {method : Method} (hdpos : dpos.Orderly) (hw : Orderly w.storage)
    (hmain : main host dpos msg method w = some w') : Orderly w'.storage := by
  unfold main at hmain
  split at hmain
  · obtain rfl := Option.some.inj hmain
    exact hw
  · rename_i henabled
    have henabled : method ≠ .revoke → w.storage.states.disabled = false := fun hne =>
      Bool.eq_false_iff.mpr fun hdisabled => henabled ⟨hdisabled, hne⟩
    obtain ⟨-, hmain⟩ := of_assert hmain
    cases method with
    | subscribe shares => exact orderly_subscribe hw hmain
    | revoke => exact orderly_revoke hw hmain
    | coApply role pool ratio node => exact orderly_coApply hdpos hw (henabled (by simp)) hmain
    | coAppend => exact orderly_coAppend hdpos hw (henabled (by simp)) hmain
    | coSetNodeAddress address => exact orderly_coSetNodeAddress hdpos hw hmain
    | coSetVoteDividend pool ratio => exact orderly_coSetVoteDividend hdpos hw hmain
    | transfer dest shares => exact orderly_transfer hw hmain
    | accept transferor => exact orderly_accept hdpos hw hmain
    | coExtract list => exact orderly_coExtract hdpos hw hmain
    | coWithdraw => exact orderly_coWithdraw hdpos hw hmain
    | poll => exact orderly_poll hdpos hw hmain
    | takeback => exact orderly_takeback hdpos hw hmain
    | reward => exact orderly_distribute hw hmain
    | refund => exact orderly_received hw hmain
    | invalid => cases hmain
    | unknown =>
        obtain rfl := Option.some.inj hmain
        exact hw

theorem orderly_step {s : Step} (hw : Orderly w.storage) : Orderly (step host w s).storage := by
  cases s with
  | call msg hsender method response =>
      rw [step]
      cases hmain : main host (respond host msg response) msg method (w.arrive msg.coinAmount) with
      | none => exact hw
      | some w' =>
          exact orderly_main (w := w.arrive msg.coinAmount) (orderly_respond response) hw hmain
  | callback msg cb =>
      rw [step]
      cases hcallback : callback host msg w cb with
      | none => exact hw
      | some w' => exact orderly_callback hw hcallback

theorem orderly_states {steps : List Step} (hw : Orderly w.storage) :
    ∀ w' ∈ states host w steps, Orderly w'.storage :=
  Runs.scanl_invariant (p := fun w : World => Orderly w.storage) orderly_step hw

theorem orderly_init {unit shares : ℤ} {baseReserve : ℕ}
    (hinit : init msg unit shares baseReserve = some w) : Orderly w.storage := by
  unfold init at hinit
  obtain ⟨remainder, -, hinit⟩ := of_bind hinit
  obtain ⟨⟨-, hunit⟩, hinit⟩ := of_assert hinit
  obtain ⟨hshares, hinit⟩ := of_assert hinit
  obtain ⟨initFund, -, hinit⟩ := of_bind hinit
  obtain ⟨-, hinit⟩ := of_assert hinit
  obtain ⟨rest, -, hinit⟩ := of_bind hinit
  obtain ⟨-, hinit⟩ := of_assert hinit
  obtain ⟨initShare, hshare, hinit⟩ := of_bind hinit
  obtain ⟨hpositive, hnonneg, rfl⟩ := Dpos.of_int64Div hshare
  obtain rfl := Option.some.inj hinit
  refine ⟨hpositive, hshares, nofun, zero_fits, nofun, ?_, nofun, tallied_none⟩
  exact forall_lookup_insert nofun ⟨Int.ediv_nonneg hnonneg hpositive.le, le_rfl⟩

end CegChain.Cobuild
