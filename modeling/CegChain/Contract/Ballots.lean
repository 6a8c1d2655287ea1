import CegChain.Contract.CandidateList
import Mathlib.Data.Finset.Dedup

/-!
# The ballots of the election contract

A proposal of `contract/validators_vote.js` has a ballot, to which only validators are added,
and nobody twice (`fair_reachable`).  A vote passes when the ballot is as long as a share of
the validators that are in force.  Two things keep this from being a majority of theirs.  The
ballot keeps those who have left the validators since they voted; and the share is computed
with doubles, in which seven tenths are a little less, so that it is short of one vote for 45
validators, and for 85.

An address that goes on after a zero character names the same record as without the rest of it
(`Motion.record`).
-/

namespace CegChain.ValidatorsVote

open Layers
open Dpos (assert int64Add int64Sub Msg of_bind of_assert)

/-! ## Majorities -/

/-- Seven tenths of the validators, to the nearest number, are among the voters. -/
def Majority (validators : List Candidate) (voters : List Address) : Prop :=
  (7 * validators.length + 5) / 10 ≤
    ((validators.map Candidate.address).toFinset ∩ voters.toFinset).card

/-- The share has come out right, and no voter of a ballot has left the validators. -/
structure Standing (validators : List Candidate) (ballot : List Address) : Prop where
  exact : passCount validators.length = (7 * validators.length + 5) / 10
  stays : ∀ voter ∈ ballot, voter ∈ validators.map Candidate.address

/-- Among the sizes that the election allows, the share comes out wrong for two. -/
theorem passCount_eq_iff :
    ∀ n ≤ validatorSetSize, passCount n = (7 * n + 5) / 10 ↔ n ≠ 45 ∧ n ≠ 85 := by
  decide +kernel

theorem nodup_append_sender {ballot : List Address} {sender : Address} (hballot : ballot.Nodup)
    (hnew : sender ∉ ballot) : (ballot ++ [sender]).Nodup := by
  refine List.nodup_append.mpr ⟨hballot, List.nodup_singleton _, ?_⟩
  rintro voter hvoter _ hother rfl
  exact hnew (List.mem_singleton.mp hother ▸ hvoter)

theorem majority_of_standing {validators : List Candidate} {ballot : List Address}
    {sender : Address} (hstanding : Standing validators ballot) (hballot : ballot.Nodup)
    (hnew : sender ∉ ballot) (hsender : sender ∈ validators.map Candidate.address)
    (henough : passCount validators.length ≤ (ballot ++ [sender]).length) :
    Majority validators (ballot ++ [sender]) := by
  have hnodup := nodup_append_sender hballot hnew
  have hsubset : (ballot ++ [sender]).toFinset ⊆ (validators.map Candidate.address).toFinset := by
    intro voter hvoter
    rw [List.mem_toFinset] at hvoter ⊢
    rcases List.mem_append.mp hvoter with hold | hlast
    · exact hstanding.stays voter hold
    · exact List.mem_singleton.mp hlast ▸ hsender
  calc (7 * validators.length + 5) / 10 = passCount validators.length := hstanding.exact.symm
    _ ≤ (ballot ++ [sender]).length := henough
    _ = (ballot ++ [sender]).toFinset.card := (List.toFinset_card_of_nodup hnodup).symm
    _ = _ := by rw [Finset.inter_eq_right.mpr hsubset]

/-! ## Proposals -/

/-- What is voted on. -/
inductive Motion where
  | admission (applicant : Address)
  | removal (malicious : Address)
  deriving DecidableEq

/-- The method with which one votes. -/
def Motion.method : Motion → Method
  | .admission applicant => .voteForApplicant applicant
  | .removal malicious => .voteForAbolish malicious

/-- The motion under the address of its record. -/
def Motion.record : Motion → Motion
  | .admission applicant => .admission (toCString applicant)
  | .removal malicious => .removal (toCString malicious)

/-- The ballot of a proposal, and when it expires. -/
def Storage.proposal (st : Storage) : Motion → Option (List Address × ℤ)
  | .admission applicant => (st.applicants.lookup applicant).map fun data =>
      (data.ballot, data.expiredTime)
  | .removal malicious => (st.abolishes.lookup malicious).map fun proposal =>
      (proposal.ballot, proposal.expiredTime)

/-- The vote succeeds, and a proposal that has not expired is gone after it: the applicant is
a candidate, or the validator has been removed. -/
structure TakesEffect (host : Host) (receive : Receive) (msg : Msg) (motion : Motion)
    (w w' : World) (ballot : List Address) : Prop where
  called : call host receive msg motion.method w = some w'
  stored : ∃ expired, w.storage.proposal motion.record = some (ballot, expired) ∧
    msg.timestamp ≤ expired
  gone : w'.storage.proposal motion.record = none

/-- The states of a run.  A payment is made before the call that makes it has changed
anything, and the account that is paid may call the contract; whatever else happens may give
the system other validators. -/
inductive Reachable (host : Host) : World → Prop
  | init (validators : List Candidate) (balance : ℤ) : Reachable host (init validators balance)
  | call {w w' : World} (reaction : Reaction) (msg : Msg) (method : Method) :
      Reachable host w → call host (react host reaction) msg method w = some w' →
      Reachable host w'
  | paying {w : World} (msg : Msg) (amount : ℤ) : Reachable host w →
      Reachable host { w.arrive msg.coinAmount with
        balance := (w.arrive msg.coinAmount).balance - amount
        paid := (w.arrive msg.coinAmount).paid + amount }
  | elected {w : World} (validators : List Candidate) :
      Reachable host w → Reachable host { w with validators := validators }

/-! ## The invariant -/

/-- Nobody is on a ballot twice. -/
def Fair (st : Storage) : Prop :=
  ∀ motion ballot expired, st.proposal motion = some (ballot, expired) → ballot.Nodup

variable {host : Host} {receive : Receive} {msg : Msg} {w w₁ : World}

theorem proposal_setApplicant (address : Address) (applicant : Applicant) (w : World)
    (motion : Motion) :
    (w.setApplicant address applicant).storage.proposal motion =
      if motion = .admission address then some (applicant.ballot, applicant.expiredTime)
      else w.storage.proposal motion := by
  cases motion with
  | removal malicious => rfl
  | admission other =>
      unfold Storage.proposal World.setApplicant
      by_cases hother : other = address
      · subst hother
        simp
      · simp [AList.lookup_insert_ne hother, hother]

theorem proposal_setAbolition (address : Address) (abolition : Abolition) (w : World)
    (motion : Motion) :
    (w.setAbolition address abolition).storage.proposal motion =
      if motion = .removal address then some (abolition.ballot, abolition.expiredTime)
      else w.storage.proposal motion := by
  cases motion with
  | admission applicant => rfl
  | removal other =>
      unfold Storage.proposal World.setAbolition
      by_cases hother : other = address
      · subst hother
        simp
      · simp [AList.lookup_insert_ne hother, hother]

theorem proposal_delApplicant (address : Address) (w : World) (motion : Motion) :
    (w.delApplicant address).storage.proposal motion =
      if motion = .admission address then none else w.storage.proposal motion := by
  cases motion with
  | removal malicious => rfl
  | admission other =>
      unfold Storage.proposal World.delApplicant
      by_cases hother : other = address
      · subst hother
        simp
      · simp [AList.lookup_erase_ne hother, hother]

theorem proposal_delAbolition (address : Address) (w : World) (motion : Motion) :
    (w.delAbolition address).storage.proposal motion =
      if motion = .removal address then none else w.storage.proposal motion := by
  cases motion with
  | admission applicant => rfl
  | removal other =>
      unfold Storage.proposal World.delAbolition
      by_cases hother : other = address
      · subst hother
        simp
      · simp [AList.lookup_erase_ne hother, hother]

/-- One proposal is stored or deleted. -/
theorem Fair.update (hfair : Fair w.storage) {motion : Motion} {stored : Option (List Address × ℤ)}
    (hupdate : ∀ other, w₁.storage.proposal other =
      if other = motion then stored else w.storage.proposal other)
    (hstored : ∀ proposal ∈ stored, proposal.1.Nodup) : Fair w₁.storage := by
  intro other ballot expired hother
  rw [hupdate] at hother
  split_ifs at hother with heq
  · exact hstored _ hother
  · exact hfair other ballot expired hother

theorem Fair.setApplicant (hfair : Fair w.storage) (address : Address) {applicant : Applicant}
    (hballot : applicant.ballot.Nodup) : Fair (w.setApplicant address applicant).storage := by
  refine hfair.update (proposal_setApplicant address applicant w) fun proposal hproposal => ?_
  cases hproposal
  exact hballot

theorem Fair.setAbolition (hfair : Fair w.storage) (address : Address) {abolition : Abolition}
    (hballot : abolition.ballot.Nodup) : Fair (w.setAbolition address abolition).storage := by
  refine hfair.update (proposal_setAbolition address abolition w) fun proposal hproposal => ?_
  cases hproposal
  exact hballot

theorem Fair.delApplicant (hfair : Fair w.storage) (address : Address) :
    Fair (w.delApplicant address).storage :=
  hfair.update (proposal_delApplicant address w) fun _ hproposal => by cases hproposal

theorem Fair.delAbolition (hfair : Fair w.storage) (address : Address) :
    Fair (w.delAbolition address).storage :=
  hfair.update (proposal_delAbolition address w) fun _ hproposal => by cases hproposal

/-- The same proposals as before. -/
theorem Fair.of_eq (hfair : Fair w.storage)
    (hsame : ∀ motion, w₁.storage.proposal motion = w.storage.proposal motion) :
    Fair w₁.storage := by
  intro motion ballot expired hstored
  exact hfair motion ballot expired (hsame motion ▸ hstored)

theorem proposal_saveInserted (address : Address) (candidates : List Candidate) (w : World)
    (motion : Motion) :
    (saveInserted address candidates w).storage.proposal motion = w.storage.proposal motion := by
  unfold saveInserted
  dsimp only
  split_ifs <;> cases motion <;> rfl

theorem Fair.saveInserted (hfair : Fair w.storage) (address : Address)
    (candidates : List Candidate) : Fair (saveInserted address candidates w).storage :=
  hfair.of_eq (proposal_saveInserted address candidates w)

/-- The accounts that are paid keep the ballots fair. -/
def ReceiveFair (receive : Receive) : Prop :=
  ∀ w w', receive w = some w' → Fair w.storage → Fair w'.storage

theorem Fair.transferCoin (hreceive : ReceiveFair receive) (hfair : Fair w.storage)
    {source : Source} {dest : Address} {amount : ℤ}
    (htransfer : transferCoin host receive source dest amount w = some w₁) :
    Fair w₁.storage := by
  unfold ValidatorsVote.transferCoin at htransfer
  split at htransfer
  · obtain rfl := Option.some.inj htransfer
    exact hfair
  · obtain ⟨-, htransfer⟩ := of_assert htransfer
    obtain ⟨w', hpaid, htransfer⟩ := of_bind htransfer
    obtain rfl := Option.some.inj htransfer
    have hpaid' : Fair w'.storage := hreceive _ _ hpaid hfair
    exact hpaid'

/-! ## The methods -/

theorem fair_applyAsValidatorCandidate (hfair : Fair w.storage)
    (happly : applyAsValidatorCandidate msg w = some w₁) : Fair w₁.storage := by
  unfold applyAsValidatorCandidate at happly
  dsimp only at happly
  split at happly
  · obtain ⟨-, happly⟩ := of_assert happly
    obtain ⟨row, -, happly⟩ := of_bind happly
    obtain ⟨amount, -, happly⟩ := of_bind happly
    obtain ⟨newCandidates, -, happly⟩ := of_bind happly
    obtain rfl := Option.some.inj happly
    exact hfair.saveInserted _ _
  · split at happly
    · rename_i applicant hlookup
      obtain ⟨-, happly⟩ := of_assert happly
      obtain ⟨pledge, -, happly⟩ := of_bind happly
      obtain rfl := Option.some.inj happly
      refine hfair.setApplicant _ (hfair (.admission msg.sender) _ applicant.expiredTime ?_)
      simp [Storage.proposal, hlookup]
    · obtain ⟨-, happly⟩ := of_assert happly
      obtain rfl := Option.some.inj happly
      exact hfair.setApplicant _ List.nodup_nil

/-- What a vote for an applicant finds and does. -/
inductive VotedFor (host : Host) (receive : Receive) (msg : Msg) (applicant : Address)
    (w : World) : World → Prop
  | missing : w.storage.applicants.lookup (toCString applicant) = none →
      VotedFor host receive msg applicant w w
  | expired {data : Applicant} {w' : World} :
      w.storage.applicants.lookup (toCString applicant) = some data →
      msg.timestamp > data.expiredTime →
      transferCoin host receive (.applicant (toCString applicant)) applicant data.pledge w =
        some w' →
      VotedFor host receive msg applicant w (w'.delApplicant (toCString applicant))
  | full {data : Applicant} : w.storage.applicants.lookup (toCString applicant) = some data →
      VotedFor host receive msg applicant w w
  | voted {data : Applicant} : w.storage.applicants.lookup (toCString applicant) = some data →
      msg.sender ∉ data.ballot →
      VotedFor host receive msg applicant w
        (w.setApplicant (toCString applicant) { data with ballot := data.ballot ++ [msg.sender] })
  | admitted {data : Applicant} {newCandidates : List Candidate} :
      w.storage.applicants.lookup (toCString applicant) = some data → msg.sender ∉ data.ballot →
      findI0 w.validators msg.sender ≠ none →
      passCount w.validators.length ≤ (data.ballot ++ [msg.sender]).length →
      VotedFor host receive msg applicant w
        (saveInserted applicant newCandidates (w.delApplicant (toCString applicant)))

theorem of_voteForApplicant {applicant : Address}
    (hvote : voteForApplicant host receive msg applicant w = some w₁) :
    VotedFor host receive msg applicant w w₁ := by
  obtain ⟨-, hvote⟩ := of_assert hvote
  obtain ⟨hvalidator, hvote⟩ := of_assert hvote
  dsimp only at hvote
  split at hvote
  · rename_i hnone
    obtain rfl := Option.some.inj hvote
    exact .missing hnone
  · rename_i data hdata
    split_ifs at hvote with hexpired hfull hshort
    · obtain ⟨w', hpaid, hvote⟩ := of_bind hvote
      obtain rfl := Option.some.inj hvote
      exact .expired hdata hexpired hpaid
    · obtain rfl := Option.some.inj hvote
      exact .full hdata
    · obtain ⟨hnew, hvote⟩ := of_assert hvote
      obtain rfl := Option.some.inj hvote
      exact .voted hdata hnew
    · obtain ⟨hnew, hvote⟩ := of_assert hvote
      obtain ⟨newCandidates, -, hvote⟩ := of_bind hvote
      obtain rfl := Option.some.inj hvote
      exact .admitted hdata hnew hvalidator (not_lt.mp hshort)

theorem Fair.applicant (hfair : Fair w.storage) {applicant : Address} {data : Applicant}
    (hdata : w.storage.applicants.lookup applicant = some data) : data.ballot.Nodup :=
  hfair (.admission applicant) data.ballot data.expiredTime (by simp [Storage.proposal, hdata])

theorem Fair.abolition (hfair : Fair w.storage) {malicious : Address} {proposal : Abolition}
    (hproposal : w.storage.abolishes.lookup malicious = some proposal) :
    proposal.ballot.Nodup :=
  hfair (.removal malicious) proposal.ballot proposal.expiredTime
    (by simp [Storage.proposal, hproposal])

theorem fair_voteForApplicant (hreceive : ReceiveFair receive) (hfair : Fair w.storage)
    {applicant : Address} (hvote : voteForApplicant host receive msg applicant w = some w₁) :
    Fair w₁.storage := by
  cases of_voteForApplicant hvote with
  | missing => exact hfair
  | expired hdata hexpired hpaid => exact (hfair.transferCoin hreceive hpaid).delApplicant _
  | full => exact hfair
  | voted hdata hnew =>
      exact hfair.setApplicant _ (nodup_append_sender (hfair.applicant hdata) hnew)
  | admitted => exact (hfair.delApplicant _).saveInserted _ _

theorem fair_takebackAllPledgeCoin (hreceive : ReceiveFair receive) (hfair : Fair w.storage)
    (htake : takebackAllPledgeCoin host receive msg w = some w₁) : Fair w₁.storage := by
  unfold takebackAllPledgeCoin at htake
  dsimp only at htake
  split at htake
  · obtain ⟨w', hpaid, htake⟩ := of_bind htake
    obtain rfl := Option.some.inj htake
    exact (hfair.transferCoin hreceive hpaid).delApplicant _
  · split at htake
    · obtain rfl := Option.some.inj htake
      exact hfair
    · obtain ⟨-, htake⟩ := of_assert htake
      obtain ⟨row, -, htake⟩ := of_bind htake
      obtain ⟨w', hpaid, htake⟩ := of_bind htake
      have hpaid' := hfair.transferCoin hreceive hpaid
      split_ifs at htake
      · obtain rfl := Option.some.inj htake
        exact hpaid'.of_eq fun motion => by cases motion <;> rfl
      · obtain rfl := Option.some.inj htake
        exact hpaid'.of_eq fun motion => by cases motion <;> rfl

theorem fair_abolishValidator (hfair : Fair w.storage) {malicious : Address}
    (habolish : abolishValidator host msg malicious w = some w₁) : Fair w₁.storage := by
  obtain ⟨-, habolish⟩ := of_assert habolish
  obtain ⟨-, habolish⟩ := of_assert habolish
  obtain ⟨-, habolish⟩ := of_assert habolish
  split at habolish
  · rename_i proposal hproposal
    split_ifs at habolish
    · obtain rfl := Option.some.inj habolish
      have hballot := hfair.abolition hproposal
      exact hfair.setAbolition _ hballot
    · obtain rfl := Option.some.inj habolish
      exact hfair
  · obtain rfl := Option.some.inj habolish
    exact hfair.setAbolition _ (List.nodup_singleton _)

theorem fair_quitAbolishValidator (hfair : Fair w.storage) {malicious : Address}
    (hquit : quitAbolishValidator host msg malicious w = some w₁) : Fair w₁.storage := by
  obtain ⟨-, hquit⟩ := of_assert hquit
  obtain ⟨proposal, -, hquit⟩ := of_bind hquit
  obtain ⟨-, hquit⟩ := of_assert hquit
  obtain rfl := Option.some.inj hquit
  exact hfair.delAbolition _

/-- What a vote against a validator finds and does. -/
inductive VotedAgainst (host : Host) (receive : Receive) (msg : Msg) (malicious : Address)
    (w : World) : World → Prop
  | missing : w.storage.abolishes.lookup (toCString malicious) = none →
      VotedAgainst host receive msg malicious w w
  | expired {proposal : Abolition} :
      w.storage.abolishes.lookup (toCString malicious) = some proposal →
      msg.timestamp > proposal.expiredTime →
      VotedAgainst host receive msg malicious w (w.delAbolition (toCString malicious))
  | voted {proposal : Abolition} :
      w.storage.abolishes.lookup (toCString malicious) = some proposal →
      msg.sender ∉ proposal.ballot →
      VotedAgainst host receive msg malicious w
        (w.setAbolition (toCString malicious)
          { proposal with ballot := proposal.ballot ++ [msg.sender] })
  | removed {proposal : Abolition} {candidates : List Candidate} {leftCoin : ℤ} {w' : World} :
      w.storage.abolishes.lookup (toCString malicious) = some proposal →
      msg.sender ∉ proposal.ballot →
      findI0 w.validators msg.sender ≠ none →
      passCount w.validators.length ≤ (proposal.ballot ++ [msg.sender]).length →
      transferCoin host receive .candidates malicious leftCoin w = some w' →
      VotedAgainst host receive msg malicious w
        (setValidatorsFromCandidate candidates
          ((w'.delAbolition (toCString malicious)).setCandidates candidates))

theorem of_voteAbolishValidator {malicious : Address}
    (hvote : voteAbolishValidator host receive msg malicious w = some w₁) :
    VotedAgainst host receive msg malicious w w₁ := by
  obtain ⟨-, hvote⟩ := of_assert hvote
  obtain ⟨-, hvote⟩ := of_assert hvote
  obtain ⟨hvalidator, hvote⟩ := of_assert hvote
  obtain ⟨-, hvote⟩ := of_assert hvote
  dsimp only at hvote
  split at hvote
  · rename_i hnone
    obtain rfl := Option.some.inj hvote
    exact .missing hnone
  · rename_i proposal hproposal
    split_ifs at hvote with hexpired hshort
    · obtain rfl := Option.some.inj hvote
      exact .expired hproposal hexpired
    · obtain ⟨hnew, hvote⟩ := of_assert hvote
      obtain rfl := Option.some.inj hvote
      exact .voted hproposal hnew
    · obtain ⟨hnew, hvote⟩ := of_assert hvote
      obtain ⟨position, -, hvote⟩ := of_bind hvote
      obtain ⟨row, -, hvote⟩ := of_bind hvote
      obtain ⟨forfeit, -, hvote⟩ := of_bind hvote
      obtain ⟨leftCoin, -, hvote⟩ := of_bind hvote
      obtain ⟨w', hpaid, hvote⟩ := of_bind hvote
      obtain ⟨candidates, -, hvote⟩ := of_bind hvote
      obtain rfl := Option.some.inj hvote
      exact .removed hproposal hnew hvalidator (not_lt.mp hshort) hpaid

theorem fair_voteAbolishValidator (hreceive : ReceiveFair receive) (hfair : Fair w.storage)
    {malicious : Address}
    (hvote : voteAbolishValidator host receive msg malicious w = some w₁) :
    Fair w₁.storage := by
  cases of_voteAbolishValidator hvote with
  | missing => exact hfair
  | expired => exact hfair.delAbolition _
  | voted hproposal hnew =>
      exact hfair.setAbolition _ (nodup_append_sender (hfair.abolition hproposal) hnew)
  | removed hproposal hnew hvalidator hcount hpaid =>
      refine ((hfair.transferCoin hreceive hpaid).delAbolition (toCString malicious)).of_eq
        fun motion => ?_
      cases motion <;> rfl

theorem fair_call (hreceive : ReceiveFair receive) (hfair : Fair w.storage) {method : Method}
    (hcall : call host receive msg method w = some w₁) : Fair w₁.storage := by
  have harrived : Fair (w.arrive msg.coinAmount).storage := hfair
  unfold call main at hcall
  cases method with
  | pledgeCoin => exact fair_applyAsValidatorCandidate harrived hcall
  | voteForApplicant applicant => exact fair_voteForApplicant hreceive harrived hcall
  | takebackCoin => exact fair_takebackAllPledgeCoin hreceive harrived hcall
  | abolishValidator malicious => exact fair_abolishValidator harrived hcall
  | quitAbolish malicious => exact fair_quitAbolishValidator harrived hcall
  | voteForAbolish malicious => exact fair_voteAbolishValidator hreceive harrived hcall
  | unknown => cases hcall

theorem fair_react (reaction : Reaction) : ReceiveFair (react host reaction) := by
  induction reaction with
  | done =>
      intro w w' hreact hfair
      obtain rfl := Option.some.inj hreact
      exact hfair
  | fail =>
      intro w w' hreact
      cases hreact
  | call msg method reaction next ihreaction ihnext =>
      intro w w' hreact hfair
      refine ihnext _ _ hreact ?_
      cases hcall : call host (react host reaction) msg method w with
      | none => exact hfair
      | some w₂ => exact fair_call ihreaction hfair hcall

/-- **Nobody is on a ballot twice**, whatever happens. -/
theorem fair_reachable (hreach : Reachable host w) : Fair w.storage := by
  induction hreach with
  | init validators balance =>
      intro motion ballot expired hstored
      cases motion <;> cases hstored
  | call reaction msg method hreach hcall ih => exact fair_call (fair_react reaction) ih hcall
  | paying msg amount hreach ih => exact ih
  | elected validators hreach ih => exact ih

/-! ## Votes that take effect -/

theorem mem_of_findI0 {candidates : List Candidate} {address : Address}
    (hfind : findI0 candidates address ≠ none) : address ∈ candidates.map Candidate.address := by
  by_contra hmem
  exact hfind (findI0_eq_none_iff.mpr hmem)

/-- A vote that takes effect has a majority, if the share is right and nobody has left. -/
theorem majority_of_takesEffect {motion : Motion} {ballot : List Address}
    (hfair : Fair w.storage) (heffect : TakesEffect host receive msg motion w w₁ ballot)
    (hstanding : Standing w.validators ballot) :
    Majority w.validators (ballot ++ [msg.sender]) := by
  obtain ⟨hcalled, ⟨expired, hstored, htime⟩, hgone⟩ := heffect
  cases motion with
  | admission applicant =>
      have hvote : voteForApplicant host receive msg applicant (w.arrive msg.coinAmount) =
          some w₁ := hcalled
      obtain ⟨data, hdata, hsame⟩ := Option.map_eq_some_iff.mp hstored
      obtain ⟨rfl, rfl⟩ := Prod.mk.inj hsame
      cases of_voteForApplicant hvote with
      | missing hnone => cases hnone.symm.trans hdata
      | expired hdata' hexpired =>
          obtain rfl := Option.some.inj (hdata'.symm.trans hdata)
          omega
      | full => cases hstored.symm.trans hgone
      | voted => simp [Motion.record, Storage.proposal, World.setApplicant] at hgone
      | admitted hdata' hnew hvalidator hcount =>
          obtain rfl := Option.some.inj (hdata'.symm.trans hdata)
          exact majority_of_standing hstanding (hfair.applicant hdata) hnew
            (mem_of_findI0 hvalidator) hcount
  | removal malicious =>
      have hvote : voteAbolishValidator host receive msg malicious (w.arrive msg.coinAmount) =
          some w₁ := hcalled
      obtain ⟨proposal, hproposal, hsame⟩ := Option.map_eq_some_iff.mp hstored
      obtain ⟨rfl, rfl⟩ := Prod.mk.inj hsame
      cases of_voteAbolishValidator hvote with
      | missing hnone => cases hnone.symm.trans hproposal
      | expired hproposal' hexpired =>
          obtain rfl := Option.some.inj (hproposal'.symm.trans hproposal)
          omega
      | voted => simp [Motion.record, Storage.proposal, World.setAbolition] at hgone
      | removed hproposal' hnew hvalidator hcount =>
          obtain rfl := Option.some.inj (hproposal'.symm.trans hproposal)
          exact majority_of_standing hstanding (hfair.abolition hproposal) hnew
            (mem_of_findI0 hvalidator) hcount

end CegChain.ValidatorsVote
