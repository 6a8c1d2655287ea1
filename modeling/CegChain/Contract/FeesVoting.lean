import CegChain.Contract.Ballots
import CegChain.Utils.Strings
import CegChain.Lib.Totals

/-!
# The fee contract

`contract/fees-voting.js`.  A validator proposes a fee, the validators vote for it, and the
fee is applied when the votes reach a share of the validators that are in force.  A proposal
has a number of votes and, in a record of its own, an object with a property for each voter.
The two always agree (`counted_run`).

`none` is a call that throws; it leaves no trace.  Nobody is paid, so a call is never
interrupted.
-/

namespace CegChain.FeesVoting

open Layers Totals
open Dpos (assert Msg plainMsg of_bind of_assert)
open ValidatorsVote (Candidate passCount Majority Standing majority_of_standing nodup_append_sender)

/-! ## Data -/

/-- `effectiveProposalInterval`. -/
def effectiveProposalInterval : ℤ := 15 * 1000000 * 60 * 60 * 24

/-- `parseInt(n * passRate + 0.5)`, with the same rate as in the election of validators. -/
def thredhold (n : ℕ) : ℕ := passCount n

/-- A proposal in `proposalRecords`. -/
structure ProposalRecord where
  accountId : Address
  proposalId : Bytes
  feeType : ℤ
  price : ℤ
  voteCount : ℕ
  expireTime : ℤ
  deriving DecidableEq

/-- The metadata. -/
structure Storage where
  /-- `proposalRecordsKey`, which is not there before the first proposal. -/
  proposalRecords : Option (Table Bytes ProposalRecord) := none
  /-- The properties of each object `voteRecords_..`. -/
  voteRecords : Table Bytes (List Address) := ∅
  nonce : Option ℕ := none

/-- What the contract works on. -/
structure World where
  storage : Storage := {}
  /-- The fees that have been given to `configFee`. -/
  fees : Table ℤ ℤ := ∅

/-- `isValidator`. -/
def isValidator (validators : List Candidate) (accountId : Address) : Prop :=
  ∃ item ∈ validators, item.address = accountId

instance (validators : List Candidate) (accountId : Address) :
    Decidable (isValidator validators accountId) :=
  inferInstanceAs (Decidable (∃ item ∈ validators, item.address = accountId))

section

variable (validators : List Candidate) (msg : Msg)

/-- `voteFee`. -/
def voteFee (proposalId : Bytes) (w : World) : Option World := do
  assert (validators ≠ [])
  assert (isValidator validators msg.sender)
  let proposalRecords ← w.storage.proposalRecords
  let record ← proposalRecords.lookup proposalId
  if msg.timestamp > record.expireTime then
    some { w with storage :=
      { w.storage with
        proposalRecords := some (proposalRecords.erase proposalId)
        voteRecords := w.storage.voteRecords.erase proposalId } }
  else do
    let proposalRecordBody ← w.storage.voteRecords.lookup proposalId
    assert (msg.sender ∉ proposalRecordBody)
    let record := { record with voteCount := record.voteCount + 1 }
    let proposalRecordBody := proposalRecordBody ++ [msg.sender]
    if record.voteCount ≥ thredhold validators.length then
      some
        { storage :=
            { w.storage with
              proposalRecords := some (proposalRecords.erase proposalId)
              voteRecords := w.storage.voteRecords.erase proposalId }
          fees := w.fees.insert record.feeType record.price }
    else
      some { w with storage :=
        { w.storage with
          proposalRecords := some (proposalRecords.insert proposalId record)
          voteRecords := w.storage.voteRecords.insert proposalId proposalRecordBody } }

/-- `proposalFee`.  The loop over the proposals ends at the first one of the account, and no
account ever has a second one. -/
def proposalFee (feeType price : ℤ) (w : World) : Option World := do
  assert (validators ≠ [])
  assert (isValidator validators msg.sender)
  let nonce ← w.storage.nonce
  let nonce := nonce + 1
  let newProposalId := msg.sender ++ String64.decimal nonce
  let proposalRecords := w.storage.proposalRecords.getD ∅
  let (proposalRecords, voteRecords) :=
    match proposalRecords.entries.find? fun entry => entry.2.accountId = msg.sender with
    | some entry => (proposalRecords.erase entry.1, w.storage.voteRecords.erase entry.1)
    | none => (proposalRecords, w.storage.voteRecords)
  let record : ProposalRecord :=
    { accountId := msg.sender
      proposalId := newProposalId
      feeType := feeType
      price := price
      voteCount := 1
      expireTime := msg.timestamp + effectiveProposalInterval }
  some { w with storage :=
    { proposalRecords := some (proposalRecords.insert newProposalId record)
      voteRecords := voteRecords.insert newProposalId [msg.sender]
      nonce := some nonce } }

/-- `para.method` with its parameters; the type and the price are integers. -/
inductive Method where
  | voteFee (proposalId : Bytes)
  | proposalFee (feeType price : ℤ)
  | unknown
  deriving DecidableEq

/-- `main`. -/
def main (method : Method) (w : World) : Option World :=
  match method with
  | .voteFee proposalId => voteFee validators msg proposalId w
  | .proposalFee feeType price => do
      assert (feeType > 0 ∧ feeType < 3)
      assert (price ≤ 2 ^ 53 - 1 ∧ price ≥ 0)
      proposalFee validators msg feeType price w
  | .unknown => none

end

/-- `init`. -/
def init : World := { storage := { nonce := some 0 } }

/-- A call, with the validators that are in force. -/
structure Call where
  validators : List Candidate
  msg : Msg
  method : Method

/-- The contract after a call. -/
def step (w : World) (call : Call) : World :=
  (main call.validators call.msg call.method w).getD w

/-- The contract after these calls.  Between two of them the validators may change in any
way. -/
def run (calls : List Call) : World :=
  calls.foldl step init

/-! ## The number of votes -/

/-- Every proposal has its record of votes, in which every voter is once, and the number of
them is the number in the proposal. -/
def Counted (proposalRecords : Table Bytes ProposalRecord)
    (voteRecords : Table Bytes (List Address)) : Prop :=
  ∀ proposalId record, proposalRecords.lookup proposalId = some record →
    ∃ body, voteRecords.lookup proposalId = some body ∧ body.Nodup ∧
      record.voteCount = body.length

/-- The same for what is stored. -/
def World.Counted (w : World) : Prop :=
  FeesVoting.Counted (w.storage.proposalRecords.getD ∅) w.storage.voteRecords

variable {validators : List Candidate} {msg : Msg} {w w₁ : World}
  {records : Table Bytes ProposalRecord} {votes : Table Bytes (List Address)}

theorem Counted.insert (hcounted : Counted records votes) (proposalId : Bytes)
    {record : ProposalRecord} {body : List Address} (hbody : body.Nodup)
    (hcount : record.voteCount = body.length) :
    Counted (records.insert proposalId record) (votes.insert proposalId body) := by
  intro other record' hlookup
  rw [lookup_insert_eq] at hlookup ⊢
  split at hlookup
  · obtain rfl := Option.some.inj hlookup
    rename_i hother
    exact ⟨body, if_pos hother, hbody, hcount⟩
  · rename_i hother
    rw [if_neg hother]
    exact hcounted other record' hlookup

theorem Counted.erase (hcounted : Counted records votes) (proposalId : Bytes) :
    Counted (records.erase proposalId) (votes.erase proposalId) := by
  intro other record hlookup
  by_cases hother : other = proposalId
  · rw [hother, AList.lookup_erase] at hlookup
    cases hlookup
  · rw [AList.lookup_erase_ne hother] at hlookup ⊢
    exact hcounted other record hlookup

/-- What a vote finds and does. -/
inductive Voted (validators : List Candidate) (msg : Msg) (proposalId : Bytes) (w : World) :
    World → Prop
  | expired {records : Table Bytes ProposalRecord} {record : ProposalRecord} :
      w.storage.proposalRecords = some records →
      records.lookup proposalId = some record → msg.timestamp > record.expireTime →
      Voted validators msg proposalId w { w with storage :=
        { w.storage with
          proposalRecords := some (records.erase proposalId)
          voteRecords := w.storage.voteRecords.erase proposalId } }
  | applied {records : Table Bytes ProposalRecord} {record : ProposalRecord}
      {body : List Address} {fees : Table ℤ ℤ} :
      w.storage.proposalRecords = some records → records.lookup proposalId = some record →
      w.storage.voteRecords.lookup proposalId = some body → msg.sender ∉ body →
      isValidator validators msg.sender →
      thredhold validators.length ≤ record.voteCount + 1 →
      Voted validators msg proposalId w
        { storage :=
            { w.storage with
              proposalRecords := some (records.erase proposalId)
              voteRecords := w.storage.voteRecords.erase proposalId }
          fees := fees }
  | counted {records : Table Bytes ProposalRecord} {record : ProposalRecord} {body : List Address} :
      w.storage.proposalRecords = some records → records.lookup proposalId = some record →
      w.storage.voteRecords.lookup proposalId = some body → msg.sender ∉ body →
      Voted validators msg proposalId w { w with storage :=
        { w.storage with
          proposalRecords := some (records.insert proposalId
            { record with voteCount := record.voteCount + 1 })
          voteRecords := w.storage.voteRecords.insert proposalId (body ++ [msg.sender]) } }

theorem of_voteFee {proposalId : Bytes} (hvote : voteFee validators msg proposalId w = some w₁) :
    Voted validators msg proposalId w w₁ := by
  obtain ⟨-, hvote⟩ := of_assert hvote
  obtain ⟨hvalidator, hvote⟩ := of_assert hvote
  obtain ⟨records, hrecords, hvote⟩ := of_bind hvote
  obtain ⟨record, hrecord, hvote⟩ := of_bind hvote
  dsimp only at hvote
  split_ifs at hvote with hexpired hcount
  · obtain rfl := Option.some.inj hvote
    exact .expired hrecords hrecord hexpired
  · obtain ⟨body, hbody, hvote⟩ := of_bind hvote
    obtain ⟨hnew, hvote⟩ := of_assert hvote
    obtain rfl := Option.some.inj hvote
    exact .applied hrecords hrecord hbody hnew hvalidator hcount
  · obtain ⟨body, hbody, hvote⟩ := of_bind hvote
    obtain ⟨hnew, hvote⟩ := of_assert hvote
    obtain rfl := Option.some.inj hvote
    exact .counted hrecords hrecord hbody hnew

theorem World.Counted.of_some (hcounted : w.Counted)
    (hrecords : w.storage.proposalRecords = some records) :
    FeesVoting.Counted records w.storage.voteRecords := by
  unfold World.Counted at hcounted
  rwa [hrecords] at hcounted

theorem counted_voteFee {proposalId : Bytes} (hcounted : w.Counted)
    (hvote : voteFee validators msg proposalId w = some w₁) : w₁.Counted := by
  cases of_voteFee hvote with
  | expired hrecords => exact (hcounted.of_some hrecords).erase proposalId
  | applied hrecords => exact (hcounted.of_some hrecords).erase proposalId
  | counted hrecords hrecord hbody hnew =>
      obtain ⟨body', hbody', hnodup, hcount⟩ := hcounted.of_some hrecords _ _ hrecord
      obtain rfl := Option.some.inj (hbody.symm.trans hbody')
      refine (hcounted.of_some hrecords).insert proposalId (nodup_append_sender hnodup hnew) ?_
      rw [List.length_append, List.length_singleton, hcount]

theorem counted_proposalFee {feeType price : ℤ} (hcounted : w.Counted)
    (hpropose : proposalFee validators msg feeType price w = some w₁) : w₁.Counted := by
  obtain ⟨-, hpropose⟩ := of_assert hpropose
  obtain ⟨-, hpropose⟩ := of_assert hpropose
  obtain ⟨nonce, -, hpropose⟩ := of_bind hpropose
  obtain rfl := Option.some.inj hpropose
  -- the new proposal starts with the vote of the one who makes it
  refine Counted.insert ?_ _ (List.nodup_singleton _) rfl
  split
  · exact Counted.erase hcounted _
  · exact hcounted

theorem counted_main {method : Method} (hcounted : w.Counted)
    (hmain : main validators msg method w = some w₁) : w₁.Counted := by
  cases method with
  | voteFee proposalId => exact counted_voteFee hcounted hmain
  | proposalFee feeType price =>
      obtain ⟨-, hmain⟩ := of_assert hmain
      obtain ⟨-, hmain⟩ := of_assert hmain
      exact counted_proposalFee hcounted hmain
  | unknown => cases hmain

/-- **The votes are counted**: the number of votes is the number of voters. -/
theorem counted_run (calls : List Call) : (run calls).Counted := by
  refine List.foldlRecOn calls step (motive := World.Counted) ?_ fun w hcounted call _ => ?_
  · intro proposalId record hlookup
    cases hlookup
  · unfold step
    cases hmain : main call.validators call.msg call.method w with
    | none => exact hcounted
    | some w₁ => exact counted_main hcounted hmain

/-! ## Votes that take effect -/

/-- The vote succeeds, and a proposal that has not expired is gone after it: its fee has been
applied. -/
structure TakesEffect (validators : List Candidate) (msg : Msg) (proposalId : Bytes)
    (w w' : World) (voters : List Address) : Prop where
  voted : main validators msg (.voteFee proposalId) w = some w'
  stored : ∃ record, (w.storage.proposalRecords.getD ∅).lookup proposalId = some record ∧
    msg.timestamp ≤ record.expireTime
  recorded : w.storage.voteRecords.lookup proposalId = some voters
  gone : (w'.storage.proposalRecords.getD ∅).lookup proposalId = none

theorem majority_of_takesEffect {proposalId : Bytes} {voters : List Address}
    (hcounted : w.Counted) (heffect : TakesEffect validators msg proposalId w w₁ voters)
    (hstanding : Standing validators voters) :
    Majority validators (voters ++ [msg.sender]) := by
  obtain ⟨hvoted, ⟨record, hrecord, htime⟩, hrecorded, hgone⟩ := heffect
  cases of_voteFee hvoted with
  | expired hrecords hrecord' hexpired =>
      rw [hrecords, Option.getD_some] at hrecord
      obtain rfl := Option.some.inj (hrecord'.symm.trans hrecord)
      omega
  | applied hrecords hrecord' hbody hnew hvalidator hcount =>
      obtain ⟨body, hbody', hnodup, hlength⟩ := hcounted.of_some hrecords _ _ hrecord'
      obtain rfl := Option.some.inj (hbody'.symm.trans hrecorded)
      refine majority_of_standing hstanding hnodup ?_ (List.mem_map.mpr hvalidator) ?_
      · rwa [Option.some.inj (hbody.symm.trans hbody')] at hnew
      · rw [List.length_append, List.length_singleton, ← hlength]
        exact hcount
  | counted => simp at hgone

/-! ## Both contracts -/

/-- **Majorities of the validators.**  In every state that the election contract reaches, a
vote that takes effect has at least seven tenths of the validators in force, to the nearest
number, among the voters, if none of the voters before has left the validators and the share
has come out right.  The same is true of the fee contract, in which the number of votes is
always the number of voters. -/
theorem votes_need_majority (host : ValidatorsVote.Host) :
    (∀ w, ValidatorsVote.Reachable host w → ∀ reaction msg motion w' ballot,
      ValidatorsVote.TakesEffect host (ValidatorsVote.react host reaction) msg motion w w'
        ballot →
      Standing w.validators ballot → Majority w.validators (ballot ++ [msg.sender])) ∧
    ∀ calls, (run calls).Counted ∧ ∀ validators msg proposalId w' voters,
      TakesEffect validators msg proposalId (run calls) w' voters →
      Standing validators voters → Majority validators (voters ++ [msg.sender]) := by
  refine ⟨fun w hreach reaction msg motion w' ballot heffect hstanding => ?_, fun calls =>
    ⟨counted_run calls, fun validators msg proposalId w' voters heffect hstanding => ?_⟩⟩
  · exact ValidatorsVote.majority_of_takesEffect (ValidatorsVote.fair_reachable hreach) heffect
      hstanding
  · exact majority_of_takesEffect (counted_run calls) heffect hstanding

/-- Of three validators, `[1]` proposes a fee. -/
def proposed : List Call :=
  [⟨ValidatorsVote.sampleValidators, plainMsg [1] 0, .proposalFee 1 5⟩]

/-- Of three validators, `[1]` proposes to abolish `[3]`. -/
def abolishing : ValidatorsVote.World :=
  (ValidatorsVote.call ValidatorsVote.sampleHost some (plainMsg [1] 0) (.abolishValidator [3])
    (ValidatorsVote.init ValidatorsVote.sampleValidators 134)).getD
      (ValidatorsVote.init ValidatorsVote.sampleValidators 134)

theorem reachable_abolishing : ValidatorsVote.Reachable ValidatorsVote.sampleHost abolishing :=
  .call .done (plainMsg [1] 0) (.abolishValidator [3])
    (.init ValidatorsVote.sampleValidators 134) rfl

/-- `[2]` agrees to both. -/
theorem votes_need_majority_three :
    (∃ w', ValidatorsVote.TakesEffect ValidatorsVote.sampleHost some (plainMsg [2] 1)
      (.removal [3]) abolishing w' [[1]] ∧ Majority abolishing.validators [[1], [2]]) ∧
    ∃ w', TakesEffect ValidatorsVote.sampleValidators (plainMsg [2] 1) [1, 49] (run proposed)
      w' [[1]] ∧ Majority ValidatorsVote.sampleValidators [[1], [2]] := by
  obtain ⟨hvotes, hfees⟩ := votes_need_majority ValidatorsVote.sampleHost
  constructor
  · obtain ⟨w', hcalled, hgone⟩ := Option.map_eq_some_iff.mp (show
      (ValidatorsVote.call ValidatorsVote.sampleHost some (plainMsg [2] 1) (.voteForAbolish [3])
        abolishing).map (fun w' => w'.storage.proposal (.removal [3])) = some none by
      decide +kernel)
    have heffect : ValidatorsVote.TakesEffect ValidatorsVote.sampleHost some (plainMsg [2] 1)
        (.removal [3]) abolishing w' [[1]] :=
      ⟨hcalled, ⟨effectiveProposalInterval, by decide +kernel, by decide⟩, hgone⟩
    exact ⟨w', heffect, hvotes abolishing reachable_abolishing .done _ _ w' [[1]] heffect
      ⟨by decide +kernel, by decide +kernel⟩⟩
  · obtain ⟨w', hvoted, hgone⟩ := Option.map_eq_some_iff.mp (show
      (main ValidatorsVote.sampleValidators (plainMsg [2] 1) (.voteFee [1, 49])
        (run proposed)).map (fun w' => (w'.storage.proposalRecords.getD ∅).lookup [1, 49]) =
          some none by
      decide +kernel)
    have heffect : TakesEffect ValidatorsVote.sampleValidators (plainMsg [2] 1) [1, 49]
        (run proposed) w' [[1]] := by
      refine ⟨hvoted, ⟨⟨[1], [1, 49], 1, 5, 1, effectiveProposalInterval⟩, ?_, by decide⟩, ?_,
        hgone⟩
      · decide +kernel
      · decide +kernel
    exact ⟨w', heffect, (hfees proposed).2 _ _ _ w' [[1]] heffect
      ⟨by decide +kernel, by decide +kernel⟩⟩

/-- Four validators. -/
def fourValidators : List Candidate :=
  [⟨[1], 50⟩, ⟨[2], 50⟩, ⟨[3], 50⟩, ⟨[4], 50⟩]

/-- `[9]` applies, `[1]` votes for it, and is a validator no more. -/
def leftBehind : List (Msg × ValidatorsVote.Method) :=
  [({ plainMsg [9] 0 with coinAmount := 5000000000000, nonneg := by decide }, .pledgeCoin),
    (plainMsg [1] 1, .voteForApplicant [9]),
    (plainMsg [1] 2, .takebackCoin)]

/-- The contract after that. -/
def left : ValidatorsVote.World :=
  leftBehind.foldl
    (fun w entry => (ValidatorsVote.call ValidatorsVote.sampleHost some entry.1 entry.2 w).getD w)
    (ValidatorsVote.init fourValidators 200)

theorem reachable_left : ValidatorsVote.Reachable ValidatorsVote.sampleHost left := by
  refine List.foldlRecOn leftBehind _ (.init fourValidators 200) fun w hreach entry _ => ?_
  cases hcall : ValidatorsVote.call ValidatorsVote.sampleHost some entry.1 entry.2 w with
  | none => exact hreach
  | some w' => exact .call .done entry.1 entry.2 hreach hcall

/-- The vote of `[2]` makes `[9]` a candidate, although only one of the three validators is
among the voters. -/
theorem admitted_by_one :
    ValidatorsVote.Reachable ValidatorsVote.sampleHost left ∧
    ∃ w', ValidatorsVote.TakesEffect ValidatorsVote.sampleHost
      (ValidatorsVote.react ValidatorsVote.sampleHost .done) (plainMsg [2] 3)
      (.admission [9]) left w' [[1]] ∧ left.validators.length = 3 ∧
        ¬ Majority left.validators [[1], [2]] := by
  refine ⟨reachable_left, ?_⟩
  obtain ⟨w', hcalled, hgone⟩ := Option.map_eq_some_iff.mp (show
    (ValidatorsVote.call ValidatorsVote.sampleHost some (plainMsg [2] 3) (.voteForApplicant [9])
      left).map (fun w' => w'.storage.proposal (.admission [9])) = some none by
    decide +kernel)
  refine ⟨w', ⟨hcalled, ⟨effectiveProposalInterval, ?_, by decide⟩, hgone⟩, ?_, ?_⟩
  · decide +kernel
  · decide +kernel
  · unfold Majority
    decide +kernel

end CegChain.FeesVoting
