import CegChain.Contract.Cobuild

/-!
# What the calls of the co-build contract do

One lemma for each method: a call that does not throw has passed these checks and leaves this
state.  The calls of the DPoS contract in it are left as they are.
-/

namespace CegChain.Cobuild

open Layers Totals
open Dpos (assert int64Add int64Sub int64Mod Role of_bind of_assert)

variable {host : Host} {dpos : DposContract} {msg : Msg} {w w' : World}
  {table table' : Table Address Cobuilder} {address : Address} {own : Cobuilder}

/-! ## Payments -/

/-- A payment, with what it is made for. -/
theorem of_transferCoin {amount : ℤ} (htransfer : transferCoin host amount w = some w') :
    w' = { w with balance := w.balance - amount } := by
  unfold transferCoin at htransfer
  split at htransfer
  · rename_i hzero
    rw [hzero, sub_zero]
    exact (Option.some.inj htransfer).symm
  · obtain ⟨-, htransfer⟩ := of_assert htransfer
    exact (Option.some.inj htransfer).symm

theorem callDPOS_cases {amount : ℤ} {input : Input}
    (hcall : callDPOS host dpos amount input w = some w') :
    0 ≤ amount ∧ dpos.call input
      { w with balance := w.balance - amount, deposited := w.deposited + amount.toNat } =
        some w' := by
  unfold callDPOS at hcall
  obtain ⟨hamount, hcall⟩ := of_assert hcall
  exact ⟨hamount.1, hcall⟩

/-- A call without coins. -/
theorem callDPOS_zero {input : Input} (hcall : callDPOS host dpos 0 input w = some w') :
    dpos.call input w = some w' := by
  obtain ⟨-, hcall⟩ := callDPOS_cases hcall
  simpa using hcall

/-! ## The calls of the DPoS contract -/

theorem reward_cases {amount : ℕ} (hcallback : callback host msg w (.reward amount) = some w') :
    w.storage.states.disabled = true ∧ w' = w.arrive amount ∨
      distribute ⟨msg.txSender, dposContract, amount, msg.timestamp⟩ amount (w.arrive amount) =
        some w' := by
  dsimp only [callback, main] at hcallback
  split at hcallback
  · rename_i hdisabled
    exact .inl ⟨hdisabled.1, (Option.some.inj hcallback).symm⟩
  · obtain ⟨-, hcallback⟩ := of_assert hcallback
    exact .inr hcallback

theorem refund_cases (hcallback : callback host msg w .refund = some w') :
    w.storage.states.disabled = true ∧ w' = { w.arrive w.deposited with deposited := 0 } ∨
      received ⟨msg.txSender, dposContract, w.deposited, msg.timestamp⟩
        { w.arrive w.deposited with deposited := 0 } = some w' := by
  dsimp only [callback, main] at hcallback
  split at hcallback
  · rename_i hdisabled
    exact .inl ⟨hdisabled.1, (Option.some.inj hcallback).symm⟩
  · obtain ⟨-, hcallback⟩ := of_assert hcallback
    exact .inr hcallback

/-- The rule for the DPoS contract: what its calls keep, it keeps. -/
theorem respond_invariant {response : Response} {input : Input} {p : World → Prop}
    (hcallbacks : ∀ {w w' cb}, p w → callback host msg w cb = some w' → p w') (hw : p w)
    (hcall : (respond host msg response).call input w = some w') : p w' := by
  simp only [respond] at hcall
  split at hcall
  · cases hcall
  · split at hcall
    · exact Runs.foldlM_invariant hcallbacks hw hcall
    · exact Runs.foldlM_invariant hcallbacks hw hcall

/-- `extract` pays rewards. -/
theorem respond_extract {response : Response}
    (hcall : (respond host msg response).call .extract w = some w') :
    (response.rewards.map Callback.reward).foldlM (callback host msg) w = some w' := by
  simp only [respond] at hcall
  split at hcall
  · cases hcall
  · exact hcall

/-- What rewards keep, `extract` keeps. -/
theorem extract_invariant {response : Response} {p : World → Prop}
    (hreward : ∀ {w w' amount}, p w → callback host msg w (.reward amount) = some w' → p w')
    (hw : p w) (hcall : (respond host msg response).call .extract w = some w') : p w' := by
  have hfold := respond_extract hcall
  rw [List.foldlM_map] at hfold
  exact Runs.foldlM_invariant hreward hw hfold

/-! ## Shares that are not pledged -/

theorem subscribed_cases {shares : ℤ} {o : Option Cobuilder}
    (hsubscribed : subscribed shares o = some own) :
    own.pledged = false ∧ own.share = o.elim 0 Cobuilder.share + shares ∧
      own.award = o.elim 0 Cobuilder.award ∧ ∀ old ∈ o, old.pledged = false := by
  cases o with
  | none =>
      obtain rfl := Option.some.inj hsubscribed
      simp
  | some old =>
      obtain ⟨hpledged, hsubscribed⟩ := of_assert hsubscribed
      obtain ⟨share, hshare, hsubscribed⟩ := of_bind hsubscribed
      obtain rfl := Dpos.of_int64Add hshare
      obtain rfl := Option.some.inj hsubscribed
      simp [hpledged]

theorem subscribe_cases {shares : ℤ} (hsubscribe : subscribe msg shares w = some w') :
    0 < shares ∧ w.storage.cfg.unit * shares = msg.coinAmount ∧
      ∃ own, subscribed shares (w.storage.cobuilders.lookup msg.txSender) = some own ∧
        w' = (w.setStates { w.storage.states with
            allShares := w.storage.states.allShares + shares }).setCobuilders
          (w.storage.cobuilders.insert msg.txSender own) := by
  unfold subscribe at hsubscribe
  obtain ⟨hshares, hsubscribe⟩ := of_assert hsubscribe
  obtain ⟨cost, hcost, hsubscribe⟩ := of_bind hsubscribe
  obtain rfl := Dpos.of_int64Mul hcost
  obtain ⟨hcoins, hsubscribe⟩ := of_assert hsubscribe
  obtain ⟨own, hown, hsubscribe⟩ := of_bind hsubscribe
  obtain ⟨allShares, hallShares, hsubscribe⟩ := of_bind hsubscribe
  obtain rfl := Dpos.of_int64Add hallShares
  exact ⟨hshares, hcoins, own, hown, (Option.some.inj hsubscribe).symm⟩

theorem revoke_cases (hrevoke : revoke host msg w = some w') :
    ∃ stake, w.storage.cobuilders.lookup msg.txSender = some stake ∧ stake.pledged = false ∧
      w' = (({ w with balance :=
            w.balance - (w.storage.cfg.unit * stake.share + stake.award) } : World).setCobuilders
          (w.storage.cobuilders.erase msg.txSender)).setStates
        { w.storage.states with allShares := w.storage.states.allShares - stake.share } := by
  unfold revoke at hrevoke
  obtain ⟨-, hrevoke⟩ := of_assert hrevoke
  obtain ⟨stake, hstake, hrevoke⟩ := of_bind hrevoke
  obtain ⟨hpledged, hrevoke⟩ := of_assert hrevoke
  obtain ⟨allShares, hallShares, hrevoke⟩ := of_bind hrevoke
  obtain rfl := Dpos.of_int64Sub hallShares
  obtain ⟨amount, hamount, hrevoke⟩ := of_bind hrevoke
  obtain rfl := Dpos.of_int64Mul hamount
  refine ⟨stake, hstake, hpledged, ?_⟩
  dsimp only at hrevoke
  split at hrevoke
  · rename_i hzero
    obtain ⟨paid, hpaid, hrevoke⟩ := of_bind hrevoke
    obtain rfl := Option.some.inj hpaid
    rw [of_transferCoin hrevoke, hzero, add_zero]
    rfl
  · obtain ⟨paid, hpaid, hrevoke⟩ := of_bind hrevoke
    obtain rfl := Dpos.of_int64Add hpaid
    rw [of_transferCoin hrevoke]
    rfl

/-! ## Pledging -/

theorem setStatus_cases {states : States} (hstatus : setStatus states w = some w') :
    ∃ cobuilders,
      mapValuesM (fun _ (cobuilder : Cobuilder) => some { cobuilder with pledged := true })
        w.storage.cobuilders = some cobuilders ∧
      w' = (w.setStates { states with
        applied := true, pledgedShares := states.allShares }).setCobuilders cobuilders := by
  unfold setStatus at hstatus
  obtain ⟨cobuilders, hmap, hstatus⟩ := of_bind hstatus
  exact ⟨cobuilders, hmap, (Option.some.inj hstatus).symm⟩

theorem coApply_cases {role : Role} {pool : Address} {ratio : ℤ} {node : Option Address}
    (happly : coApply host dpos msg role pool ratio node w = some w') :
    w.storage.states.applied = false ∧ w.storage.cfg.raiseShares ≤ w.storage.states.allShares ∧
      w.storage.states.allShares < 2 ^ 63 ∧
      ∃ w₁ input, setStatus { w.storage.states with role := some role } w = some w₁ ∧
        callDPOS host dpos (w.storage.cfg.unit * w.storage.states.allShares) input w₁ =
          some w' := by
  unfold coApply at happly
  obtain ⟨-, happly⟩ := of_assert happly
  obtain ⟨-, happly⟩ := of_assert happly
  obtain ⟨-, happly⟩ := of_assert happly
  obtain ⟨happlied, happly⟩ := of_assert happly
  obtain ⟨-, happly⟩ := of_assert happly
  obtain ⟨henough, happly⟩ := of_assert happly
  obtain ⟨w₁, hstatus, happly⟩ := of_bind happly
  obtain ⟨pledgeAmount, hamount, happly⟩ := of_bind happly
  obtain ⟨input, -, happly⟩ := of_bind happly
  obtain ⟨cobuilders, -, hw₁⟩ := setStatus_cases hstatus
  have hfits := (Dpos.lt_of_int64 hamount).2
  obtain rfl := Dpos.of_int64Mul hamount
  subst hw₁
  exact ⟨happlied, henough, hfits, _, input, hstatus, happly⟩

theorem coAppend_cases (happend : coAppend host dpos msg w = some w') :
    w.storage.states.applied = true ∧ w.storage.states.allShares < 2 ^ 63 ∧
      ∃ w₁ input, setStatus w.storage.states w = some w₁ ∧
        callDPOS host dpos (w.storage.cfg.unit *
          (w.storage.states.allShares - w.storage.states.pledgedShares)) input w₁ = some w' := by
  unfold coAppend at happend
  obtain ⟨happlied, happend⟩ := of_assert happend
  obtain ⟨-, happend⟩ := of_assert happend
  obtain ⟨appendShares, hshares, happend⟩ := of_bind happend
  have hfits := (Dpos.lt_of_int64 hshares).1
  obtain rfl := Dpos.of_int64Sub hshares
  obtain ⟨appendAmount, hamount, happend⟩ := of_bind happend
  obtain rfl := Dpos.of_int64Mul hamount
  obtain ⟨w₁, hstatus, happend⟩ := of_bind happend
  exact ⟨happlied, hfits, w₁, _, hstatus, happend⟩

/-! ## Calls that are passed on -/

theorem coSetNodeAddress_cases (hset : coSetNodeAddress host dpos msg address w = some w') :
    ∃ input, callDPOS host dpos 0 input w = some w' := by
  unfold coSetNodeAddress at hset
  obtain ⟨-, hset⟩ := of_assert hset
  obtain ⟨-, hset⟩ := of_assert hset
  exact ⟨_, hset⟩

theorem coSetVoteDividend_cases {pool : Option Address} {ratio : Option ℤ}
    (hset : coSetVoteDividend host dpos msg pool ratio w = some w') :
    ∃ input, callDPOS host dpos 0 input w = some w' := by
  unfold coSetVoteDividend at hset
  obtain ⟨-, hset⟩ := of_assert hset
  obtain ⟨-, hset⟩ := of_assert hset
  obtain ⟨-, hset⟩ := of_assert hset
  exact ⟨_, hset⟩

theorem takeback_cases (htakeback : takeback host dpos msg w = some w') :
    ∃ input, callDPOS host dpos 0 input w = some w' := by
  unfold takeback at htakeback
  obtain ⟨proposal, -, htakeback⟩ := of_bind htakeback
  obtain ⟨-, htakeback⟩ := of_assert htakeback
  exact ⟨_, htakeback⟩

/-! ## Handing over -/

theorem transfer_cases {dest : Address} {shares : ℤ}
    (htransfer : transfer host msg dest shares w = some w') :
    w' = w.setTransfers (w.storage.transfers.erase (msg.txSender, dest)) ∨
      0 < shares ∧
        w' = w.setTransfers (w.storage.transfers.insert (msg.txSender, dest) shares) := by
  unfold transfer at htransfer
  obtain ⟨-, htransfer⟩ := of_assert htransfer
  obtain ⟨hnonneg, htransfer⟩ := of_assert htransfer
  obtain ⟨own, -, htransfer⟩ := of_bind htransfer
  obtain ⟨-, htransfer⟩ := of_assert htransfer
  obtain ⟨-, htransfer⟩ := of_assert htransfer
  split at htransfer
  · exact .inl (Option.some.inj htransfer).symm
  · rename_i hne
    exact .inr ⟨by omega, (Option.some.inj htransfer).symm⟩

theorem accepted_cases {shares : ℤ} {o : Option Cobuilder}
    (haccepted : accepted shares o = some own) :
    own.share = o.elim 0 Cobuilder.share + shares ∧ own.award = o.elim 0 Cobuilder.award ∧
      own.pledged = o.elim true Cobuilder.pledged := by
  cases o with
  | none =>
      obtain rfl := Option.some.inj haccepted
      simp
  | some old =>
      obtain ⟨share, hshare, haccepted⟩ := of_bind haccepted
      obtain rfl := Dpos.of_int64Add hshare
      obtain rfl := Option.some.inj haccepted
      simp

theorem takeOver_cases {transferor : Address} {shares gain : ℤ}
    (htake : takeOver host msg transferor shares gain table w = some w') :
    ∃ own, accepted shares (table.lookup msg.txSender) = some own ∧
      w' = (({ w with balance := w.balance - (msg.coinAmount + gain) } : World).setTransfers
          (w.storage.transfers.erase (transferor, msg.txSender))).setCobuilders
        (table.insert msg.txSender own) := by
  unfold takeOver at htake
  obtain ⟨own, hown, htake⟩ := of_bind htake
  obtain ⟨amount, hamount, htake⟩ := of_bind htake
  obtain rfl := Dpos.of_int64Add hamount
  exact ⟨own, hown, of_transferCoin htake⟩

/-- A part of the shares is taken over, or all of them once the transferor has its rewards. -/
theorem accept_cases {transferor : Address}
    (haccept : accept host dpos msg transferor w = some w') :
    ∃ given shares, w.storage.cobuilders.lookup transferor = some given ∧ given.pledged = true ∧
      w.storage.transfers.lookup (transferor, msg.txSender) = some shares ∧
      shares ≤ given.share ∧
      (given.share = shares ∧ (∃ w₁ given', callDPOS host dpos 0 .extract w = some w₁ ∧
          w₁.storage.cobuilders.lookup transferor = some given' ∧
          takeOver host msg transferor shares given'.award
            (w₁.storage.cobuilders.erase transferor) w₁ = some w') ∨
        given.share ≠ shares ∧
          (∀ own ∈ w.storage.cobuilders.lookup msg.txSender, own.pledged = true) ∧
          takeOver host msg transferor shares 0 (w.storage.cobuilders.insert transferor
            { given with share := given.share - shares }) w = some w') := by
  unfold accept at haccept
  obtain ⟨-, haccept⟩ := of_assert haccept
  obtain ⟨given, hgiven, haccept⟩ := of_bind haccept
  obtain ⟨hpledged, haccept⟩ := of_assert haccept
  obtain ⟨shares, hshares, haccept⟩ := of_bind haccept
  obtain ⟨hle, haccept⟩ := of_assert haccept
  obtain ⟨cost, -, haccept⟩ := of_bind haccept
  obtain ⟨-, haccept⟩ := of_assert haccept
  obtain ⟨left, hleft, haccept⟩ := of_bind haccept
  obtain rfl := Dpos.of_int64Sub hleft
  refine ⟨given, shares, hgiven, hpledged, hshares, hle, ?_⟩
  split at haccept
  · rename_i hall
    obtain ⟨w₁, hextract, haccept⟩ := of_bind haccept
    obtain ⟨given', hgiven', haccept⟩ := of_bind haccept
    exact .inl ⟨by omega, w₁, given', hextract, hgiven', haccept⟩
  · rename_i hall
    obtain ⟨hsender, haccept⟩ := of_assert haccept
    exact .inr ⟨by omega, hsender, haccept⟩

/-! ## Leaving -/

/-- A proposal starts with an empty ballot. -/
theorem withdrawProposal_cases {proposal : Proposal}
    (hproposal : withdrawProposal dpos msg = some proposal) :
    proposal.sum = 0 ∧ proposal.ballot = ∅ := by
  obtain ⟨validPeriod, -, hproposal⟩ := of_bind hproposal
  rw [← Option.some.inj hproposal]
  exact ⟨rfl, rfl⟩

theorem coWithdraw_cases (hwithdraw : coWithdraw host dpos msg w = some w') :
    (∃ proposal, withdrawProposal dpos msg = some proposal ∧
        withdrawing host dpos proposal w = some w') ∨
      w.storage.states.applied = false ∧
        w' = w.setStates { w.storage.states with disabled := true } := by
  unfold coWithdraw at hwithdraw
  obtain ⟨-, hwithdraw⟩ := of_assert hwithdraw
  split at hwithdraw
  · obtain ⟨proposal, hproposal, hwithdraw⟩ := of_bind hwithdraw
    exact .inl ⟨proposal, hproposal, hwithdraw⟩
  · rename_i happlied
    exact .inr ⟨Bool.eq_false_iff.mpr happlied, (Option.some.inj hwithdraw).symm⟩

/-- The vote is stored, or the DPoS contract is asked. -/
theorem pollOn_outcome {share : ℤ} {proposal : Proposal}
    (hpoll : pollOn host dpos msg share proposal w = some w') :
    w' = w.setWithdraw (some { proposal with
        sum := proposal.sum + share, ballot := proposal.ballot.insert msg.txSender share }) ∨
      withdrawing host dpos { proposal with
        sum := proposal.sum + share, ballot := proposal.ballot.insert msg.txSender share } w =
        some w' := by
  unfold pollOn at hpoll
  obtain ⟨sum, hsum, hpoll⟩ := of_bind hpoll
  obtain rfl := Dpos.of_int64Add hsum
  obtain ⟨quotient, -, hpoll⟩ := of_bind hpoll
  split at hpoll
  · exact .inl (Option.some.inj hpoll).symm
  · exact .inr hpoll

/-- The sender has voted already, or votes on the current proposal or on a new one. -/
theorem poll_outcome (hpoll : poll host dpos msg w = some w') :
    ∃ own, w.storage.cobuilders.lookup msg.txSender = some own ∧ own.pledged = true ∧
      (w' = w ∨ ∃ proposal,
        (w.storage.withdraw = some proposal ∨
          w.storage.withdraw = none ∧ proposal.sum = 0 ∧ proposal.ballot = ∅) ∧
        proposal.ballot.lookup msg.txSender = none ∧
        pollOn host dpos msg own.share proposal w = some w') := by
  unfold poll at hpoll
  obtain ⟨-, hpoll⟩ := of_assert hpoll
  obtain ⟨own, hown, hpoll⟩ := of_bind hpoll
  obtain ⟨hpledged, hpoll⟩ := of_assert hpoll
  refine ⟨own, hown, hpledged, ?_⟩
  split at hpoll
  · rename_i hnone
    obtain ⟨proposal, hproposal, hpoll⟩ := of_bind hpoll
    obtain ⟨hsum, hballot⟩ := withdrawProposal_cases hproposal
    exact .inr ⟨proposal, .inr ⟨hnone, hsum, hballot⟩, by rw [hballot, AList.lookup_empty], hpoll⟩
  · rename_i proposal hproposal
    split at hpoll
    · exact .inl (Option.some.inj hpoll).symm
    · rename_i hnew
      exact .inr ⟨proposal, .inl hproposal, Option.not_isSome_iff_eq_none.mp hnew, hpoll⟩

/-- All flags are cleared, and there is no vote any more. -/
theorem received_cases (hreceived : received msg w = some w') :
    ∃ cobuilders,
      mapValuesM (fun _ (cobuilder : Cobuilder) => some { cobuilder with pledged := false })
        w.storage.cobuilders = some cobuilders ∧
      w' = ((w.setStates { w.storage.states with
        role := none, disabled := true, applied := false, pledgedShares := 0 }).setCobuilders
          cobuilders).setWithdraw none := by
  unfold received resetStatus at hreceived
  obtain ⟨-, hreceived⟩ := of_assert hreceived
  obtain ⟨w₁, hreset, hreceived⟩ := of_bind hreceived
  obtain ⟨cobuilders, hmap, hreset⟩ := of_bind hreset
  obtain rfl := Option.some.inj hreset
  exact ⟨cobuilders, hmap, (Option.some.inj hreceived).symm⟩

/-! ## Awards -/

/-- The rule for `coExtract`: what holds after the call of the DPoS contract and is kept when one
award is paid holds at the end. -/
theorem coExtract_invariant {list : Option (List Address)} {p : World → Prop}
    (hcall : ∀ {w₁}, callDPOS host dpos 0 .extract w = some w₁ → p w₁)
    (hpay : ∀ {w₁ : World} {table : Table Address Cobuilder} {address : Address} {own : Cobuilder},
      p (w₁.setCobuilders table) → table.lookup address = some own →
        p ({ w₁ with balance := w₁.balance - own.award }.setCobuilders
          (table.insert address { own with award := 0 })))
    (hextract : coExtract host dpos msg list w = some w') : p w' := by
  unfold coExtract at hextract
  obtain ⟨w₁, hfirst, hextract⟩ := of_bind hextract
  have hw₁ : p (w₁.setCobuilders w₁.storage.cobuilders) := hcall hfirst
  split at hextract
  · obtain ⟨own, hown, hextract⟩ := of_bind hextract
    rw [of_transferCoin hextract]
    exact hpay hw₁ hown
  · obtain ⟨-, hextract⟩ := of_assert hextract
    obtain ⟨r, hfold, hextract⟩ := of_bind hextract
    obtain rfl := Option.some.inj hextract
    refine Runs.foldlM_invariant (p := fun r => p (r.2.setCobuilders r.1))
      (fun {r r₁ address} hr hpaid => ?_) hw₁ hfold
    unfold payAward at hpaid
    obtain ⟨own, hown, hpaid⟩ := of_bind hpaid
    obtain ⟨w₂, htransfer, hpaid⟩ := of_bind hpaid
    obtain rfl := Option.some.inj hpaid
    rw [of_transferCoin htransfer]
    exact hpay hr hown

end CegChain.Cobuild
