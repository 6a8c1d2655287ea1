import CegChain.Contract.Calls

/-!
# The validator election contract

`contract/validators_vote.js`.  Whoever pledges coins is an applicant until enough validators
have voted for it; then it is a candidate, and the candidates with the highest pledges are the
validators.  A validator that is abolished loses a tenth of its pledge to the others.

The candidates are one list in the metadata.  A method reads it, changes its copy and stores
that again.  The three methods that pay do so in between, and the account that is paid may be a
contract, which is run by the payment (`receive`).  `none` is a call that throws.

The host takes a string as a C string, so what follows a zero character is cut off a key of the
metadata, an address that is paid and a validator.  The contract compares the whole strings.
The address of a sender has no zero character.
-/

namespace CegChain.ValidatorsVote

open Layers
open Dpos (assert int64Add int64Sub int64Mod Msg)
open Doubles (toDouble)

/-! ## Data -/

/-- `validatorSetSize`. -/
def validatorSetSize : ℕ := 100

/-- `effectiveVoteInterval`. -/
def effectiveVoteInterval : ℤ := 15 * 24 * 60 * 60 * 1000 * 1000

/-- `minPledgeAmount`. -/
def minPledgeAmount : ℤ := 50000 * 100000000

theorem minPledgeAmount_nonneg : 0 ≤ minPledgeAmount := by
  decide

/-- `minSuperadditionAmount`. -/
def minSuperadditionAmount : ℤ := 100 * 100000000

/-- `parseInt(n * passRate + 0.5)`, where `passRate` is the double that is nearest to 0.7. -/
def passCount (n : ℕ) : ℕ :=
  ⌊toDouble (toDouble (n * (3152519739159347 / 2 ^ 52)) + 1 / 2)⌋.toNat

/-- A row of the candidate list. -/
structure Candidate where
  address : Address
  amount : ℤ
  deriving DecidableEq

/-- The object stored for an applicant. -/
structure Applicant where
  /-- `pledge_coin_amount`. -/
  pledge : ℤ
  ballot : List Address
  /-- `voting_expired_time`. -/
  expiredTime : ℤ
  deriving DecidableEq

/-- The object stored for a validator that is to be abolished. -/
structure Abolition where
  proposer : Address
  expiredTime : ℤ
  ballot : List Address
  deriving DecidableEq

/-- The metadata. -/
structure Storage where
  candidates : List Candidate
  applicants : Table Address Applicant
  abolishes : Table Address Abolition

/-- The record that a payment is made from. -/
inductive Source where
  | applicant (address : Address)
  | candidates
  deriving DecidableEq

/-- A payment that has been made, with the metadata from before it and from after it. -/
structure Payment where
  dest : Address
  source : Source
  before : Storage
  after : Storage

/-- The part of the ledger that the contract works on. -/
structure World where
  storage : Storage
  /-- The balance of the contract's account. -/
  balance : ℤ
  /-- What `getValidators` returns of the list last given to `setValidators`. -/
  validators : List Candidate
  /-- The coins that have come with calls.  This and what follows is not in the code. -/
  received : ℤ := 0
  /-- The coins that have been paid. -/
  paid : ℤ := 0
  /-- The payments that have been made, the latest first. -/
  payments : List Payment := []

/-- What the contract meets outside of itself. -/
structure Host where
  addressCheck : Address → Bool
  /-- The reserve that `payCoin` leaves on an account. -/
  baseReserve : ℤ

/-- What happens while a payment is under way. -/
abbrev Receive := World → Option World

namespace World

/-- `setMetaData` of the candidates. -/
def setCandidates (candidates : List Candidate) (w : World) : World :=
  { w with storage := { w.storage with candidates := candidates } }

/-- `setMetaData` of an applicant. -/
def setApplicant (address : Address) (applicant : Applicant) (w : World) : World :=
  { w with storage :=
      { w.storage with applicants := w.storage.applicants.insert address applicant } }

/-- `setMetaData` without an applicant. -/
def delApplicant (address : Address) (w : World) : World :=
  { w with storage := { w.storage with applicants := w.storage.applicants.erase address } }

/-- `setMetaData` of an abolition. -/
def setAbolition (address : Address) (abolition : Abolition) (w : World) : World :=
  { w with storage :=
      { w.storage with abolishes := w.storage.abolishes.insert address abolition } }

/-- `setMetaData` without an abolition. -/
def delAbolition (address : Address) (w : World) : World :=
  { w with storage := { w.storage with abolishes := w.storage.abolishes.erase address } }

end World

/-! ## Candidates -/

/-- `findI0`. -/
def findI0 (arr : List Candidate) (key : Address) : Option ℕ :=
  let i := arr.findIdx (·.address = key)
  if i = arr.length then none else some i

/-- `insertCandidatesSorted`; when it returns `false`, the assertion of the `findI0` that comes
next throws. -/
def insertCandidatesSorted (applicant : Address) (amount : ℤ) (candidates : List Candidate) :
    Option (List Candidate) :=
  if candidates.length ≥ validatorSetSize * 2 then none
  else
    let i := candidates.findIdx fun row => decide (row.amount ≤ amount)
    match candidates[i]? with
    | none => some (candidates ++ [⟨applicant, amount⟩])
    | some row =>
        let i :=
          if amount = row.amount then
            i + (candidates.drop i).findIdx fun row =>
              !decide (row.address < applicant) || decide (row.amount < amount)
          else i
        some (candidates.insertIdx i ⟨applicant, amount⟩)

/-- The rows as `getValidators` returns them after `setValidators`. -/
def asValidators (candidates : List Candidate) : List Candidate :=
  candidates.map fun row => { row with address := toCString row.address }

/-- `setValidatorsFromCandidate`. -/
def setValidatorsFromCandidate (candidates : List Candidate) (w : World) : World :=
  { w with validators := asValidators (candidates.take validatorSetSize) }

/-- The candidates with a new row are stored, and the validators change when it is one of
theirs. -/
def saveInserted (address : Address) (candidates : List Candidate) (w : World) : World :=
  let w := w.setCandidates candidates
  if (findI0 candidates address).getD 0 < validatorSetSize then
    setValidatorsFromCandidate candidates w
  else w

variable (host : Host) (receive : Receive) (msg : Msg)

/-- `transferCoin` from the record that is given. -/
def transferCoin (source : Source) (dest : Address) (amount : ℤ) (w : World) : Option World :=
  if amount = 0 then some w
  else do
    assert (0 ≤ amount ∧ amount + host.baseReserve ≤ w.balance)
    let w' ← receive { w with balance := w.balance - amount, paid := w.paid + amount }
    some { w' with payments := ⟨toCString dest, source, w.storage, w'.storage⟩ :: w'.payments }

/-! ## Methods -/

/-- `applyAsValidatorCandidate`. -/
def applyAsValidatorCandidate (w : World) : Option World := do
  let candidates := w.storage.candidates
  match findI0 candidates msg.sender with
  | some position => do
      assert (msg.coinAmount ≥ minSuperadditionAmount)
      let row ← candidates[position]?
      let amount ← int64Add row.amount msg.coinAmount
      let newCandidates ← insertCandidatesSorted msg.sender amount (candidates.eraseIdx position)
      some (saveInserted msg.sender newCandidates w)
  | none =>
      let expiredTime := msg.timestamp + effectiveVoteInterval
      match w.storage.applicants.lookup msg.sender with
      | some applicant => do
          assert (msg.coinAmount ≥ minSuperadditionAmount)
          let pledge ← int64Add applicant.pledge msg.coinAmount
          some (w.setApplicant msg.sender
            { applicant with pledge := pledge, expiredTime := expiredTime })
      | none => do
          assert (msg.coinAmount ≥ minPledgeAmount)
          some (w.setApplicant msg.sender ⟨msg.coinAmount, [], expiredTime⟩)

/-- `voteForApplicant`. -/
def voteForApplicant (applicant : Address) (w : World) : Option World := do
  assert (host.addressCheck applicant)
  assert (findI0 w.validators msg.sender ≠ none)
  match w.storage.applicants.lookup (toCString applicant) with
  | none => some w
  | some data =>
      if msg.timestamp > data.expiredTime then do
        let w ← transferCoin host receive (.applicant (toCString applicant)) applicant
          data.pledge w
        some (w.delApplicant (toCString applicant))
      else if w.storage.candidates.length ≥ validatorSetSize * 2 then some w
      else do
        assert (msg.sender ∉ data.ballot)
        let data := { data with ballot := data.ballot ++ [msg.sender] }
        if data.ballot.length < passCount w.validators.length then
          some (w.setApplicant (toCString applicant) data)
        else do
          let newCandidates ← insertCandidatesSorted applicant data.pledge w.storage.candidates
          some (saveInserted applicant newCandidates (w.delApplicant (toCString applicant)))

/-- `takebackAllPledgeCoin`. -/
def takebackAllPledgeCoin (w : World) : Option World :=
  match w.storage.applicants.lookup msg.sender with
  | some data => do
      let w ← transferCoin host receive (.applicant msg.sender) msg.sender data.pledge w
      some (w.delApplicant msg.sender)
  | none =>
      let candidates := w.storage.candidates
      match findI0 candidates msg.sender with
      | none => some w
      | some position => do
          assert (candidates.length > 1)
          let row ← candidates[position]?
          let w ← transferCoin host receive .candidates msg.sender row.amount w
          let candidates := candidates.eraseIdx position
          let w := w.setCandidates candidates
          if position < validatorSetSize then some (setValidatorsFromCandidate candidates w)
          else some w

/-- `abolishValidator`. -/
def abolishValidator (malicious : Address) (w : World) : Option World := do
  assert (host.addressCheck malicious)
  assert (findI0 w.validators msg.sender ≠ none)
  assert (findI0 w.validators malicious ≠ none)
  match w.storage.abolishes.lookup (toCString malicious) with
  | some proposal =>
      if msg.timestamp ≥ proposal.expiredTime then
        some (w.setAbolition (toCString malicious) { proposal with expiredTime := msg.timestamp })
      else some w
  | none => some (w.setAbolition (toCString malicious)
      ⟨msg.sender, msg.timestamp + effectiveVoteInterval, [msg.sender]⟩)

/-- `quitAbolishValidator`. -/
def quitAbolishValidator (malicious : Address) (w : World) : Option World := do
  assert (host.addressCheck malicious)
  let proposal ← w.storage.abolishes.lookup (toCString malicious)
  assert (msg.sender = proposal.proposer)
  some (w.delAbolition (toCString malicious))

/-- `candidates[i][1] = int64Add(candidates[i][1], amount)`. -/
def addAmount (amount : ℤ) (candidates : List Candidate) (i : ℕ) : Option (List Candidate) := do
  let row ← candidates[i]?
  let sum ← int64Add row.amount amount
  some (candidates.set i { row with amount := sum })

/-- The forfeit is shared out among the first rows, and the first one gets the rest. -/
def shareForfeit (forfeit : ℤ) (leftValidatorsCnt : ℕ) (candidates : List Candidate) :
    Option (List Candidate) := do
  let award ← int64Mod forfeit leftValidatorsCnt
  let average ← Dpos.int64Div forfeit leftValidatorsCnt
  let candidates ← if award = 0 then some candidates else addAmount award candidates 0
  (List.range leftValidatorsCnt).foldlM (addAmount average) candidates

/-- `voteAbolishValidator`. -/
def voteAbolishValidator (malicious : Address) (w : World) : Option World := do
  assert (host.addressCheck malicious)
  let validators := w.validators
  assert (validators.length > 1)
  assert (findI0 validators msg.sender ≠ none)
  assert (findI0 validators malicious ≠ none)
  match w.storage.abolishes.lookup (toCString malicious) with
  | none => some w
  | some proposal =>
      if msg.timestamp > proposal.expiredTime then some (w.delAbolition (toCString malicious))
      else do
        assert (msg.sender ∉ proposal.ballot)
        let proposal := { proposal with ballot := proposal.ballot ++ [msg.sender] }
        if proposal.ballot.length < passCount validators.length then
          some (w.setAbolition (toCString malicious) proposal)
        else do
          let candidates := w.storage.candidates
          let position ← findI0 candidates malicious
          let row ← candidates[position]?
          let forfeit ← Dpos.int64Div row.amount 10
          let leftCoin ← int64Sub row.amount forfeit
          let w ← transferCoin host receive .candidates malicious leftCoin w
          let candidates ← shareForfeit forfeit (validators.length - 1)
            (candidates.eraseIdx position)
          some (setValidatorsFromCandidate candidates
            ((w.delAbolition (toCString malicious)).setCandidates candidates))

/-! ## Calls -/

/-- `input.method` with its parameters. -/
inductive Method where
  | pledgeCoin
  | voteForApplicant (address : Address)
  | takebackCoin
  | abolishValidator (address : Address)
  | quitAbolish (address : Address)
  | voteForAbolish (address : Address)
  | unknown
  deriving DecidableEq

/-- `main`, once the coins that come with the call are on the account. -/
def main (method : Method) (w : World) : Option World :=
  match method with
  | .pledgeCoin => applyAsValidatorCandidate msg w
  | .voteForApplicant address => voteForApplicant host receive msg address w
  | .takebackCoin => takebackAllPledgeCoin host receive msg w
  | .abolishValidator address => abolishValidator host msg address w
  | .quitAbolish address => quitAbolishValidator host msg address w
  | .voteForAbolish address => voteAbolishValidator host receive msg address w
  | .unknown => none

/-- The coins of a call arrive. -/
def World.arrive (amount : ℤ) (w : World) : World :=
  { w with balance := w.balance + amount, received := w.received + amount }

/-- A call, with the coins that come with it. -/
def call (method : Method) (w : World) : Option World :=
  main host receive msg method (w.arrive msg.coinAmount)

/-- What an account does when it is paid, and whether the payment succeeds.  A call pays once at
most. -/
inductive Reaction where
  | done
  | fail
  /-- It calls the contract, in which the payment meets this reaction, and goes on whether the
  call throws or not. -/
  | call (msg : Msg) (method : Method) (reaction next : Reaction)

/-- Run the reaction to a payment. -/
def react : Reaction → World → Option World
  | .done, w => some w
  | .fail, _ => none
  | .call msg method reaction next, w =>
      react next ((call host (react reaction) msg method w).getD w)

/-! ## The beginning -/

/-- The comparison `by(1, byString(0))`: the first does not go after the second. -/
def goesBefore (x y : Candidate) : Bool :=
  decide (y.amount < x.amount) || decide (x.amount = y.amount) && !decide (y.address < x.address)

/-- `init`, with the validators that `getValidators` returns. -/
def init (validators : List Candidate) (balance : ℤ) : World :=
  let initCandidates := validators.insertionSort fun x y => goesBefore x y
  { storage := ⟨initCandidates, ∅, ∅⟩
    balance := balance
    validators := asValidators initCandidates }

/-- The contract after each call of a history in which the accounts that are paid do nothing; a
call that throws leaves no trace. -/
def states (w : World) (calls : List (Msg × Method)) : List World :=
  calls.scanl (fun w entry => (call host some entry.1 entry.2 w).getD w) w

end CegChain.ValidatorsVote
