import CegChain.Contract.Json
import CegChain.Ledger.Account
import CegChain.Lib.Layers
import Mathlib.Data.List.Sort

/-!
# The DPoS contract: candidates and rewards

`contract/dpos.js` elects the validators and holds the pledges, votes and
rewards.  A call of `main` works on the metadata of the contract (`Storage`) and on
global variables that live as long as the call (`Run`); `none` is a call that
throws.  The candidates and the rewards are read into the globals by `electInit` and
written back where the source does so; the rewards only at the end of `main`.

A payment runs the code of the account it goes to, and that code may call the
contract again before the payment returns; `Receive` stands for what it does.

Amounts are the integers that their decimal strings stand for.  A `Number` is a
rational; its addition rounds (`Number.add`), and an `Utils.int64` function takes it as it
is printed (`Number.print`).  The host sees a string, and so the key of a proposal or of
votes, up to its first zero character (`toCString`); the address of a sender has none.  The
texts of errors and logs and the data that no function reads back (penalties, informers,
reasons) are left out.
-/

namespace CegChain.Dpos

open Layers Doubles

/-! ## Numbers -/

/-- `+` of two numbers. -/
def Number.add (a b : ℚ) : ℚ :=
  toDouble (a + b)

/-- `utils::String::SafeStoi64` accepts the string of this integer. -/
def isInt64 (n : ℤ) : Bool :=
  decide (-2 ^ 63 ≤ n) && decide (n < 2 ^ 63)

/-- An `Utils.int64` function: both arguments and the result are in range. -/
def int64 (f : ℤ → ℤ → ℤ) (a b : ℤ) : Option ℤ :=
  if isInt64 a ∧ isInt64 b ∧ isInt64 (f a b) then some (f a b) else none

/-- `Utils.int64Add`. -/
def int64Add : ℤ → ℤ → Option ℤ := int64 (· + ·)

/-- `Utils.int64Sub`. -/
def int64Sub : ℤ → ℤ → Option ℤ := int64 (· - ·)

/-- `Utils.int64Mul`. -/
def int64Mul : ℤ → ℤ → Option ℤ := int64 (· * ·)

/-- `Utils.int64Div`, which refuses a negative dividend. -/
def int64Div (a b : ℤ) : Option ℤ :=
  if 0 < b ∧ 0 ≤ a then int64 (· / ·) a b else none

/-- `Utils.int64Mod`. -/
def int64Mod (a b : ℤ) : Option ℤ :=
  if 0 < b ∧ 0 ≤ a then int64 (· % ·) a b else none

/-- `Utils.assert`. -/
def assert (p : Prop) [Decidable p] : Option Unit :=
  if p then some () else none

/-! ## Data -/

inductive Role where
  | committee
  | validator
  | kol
  deriving DecidableEq, Repr

inductive Motion where
  | apply
  | abolish
  | withdraw
  | config
  deriving DecidableEq, Repr

/-- The items of `cfg`. -/
inductive Item where
  | gasPrice
  | baseReserve
  | committeeSize
  | kolSize
  | kolCandidateSize
  | kolMinPledge
  | validatorSize
  | validatorCandidateSize
  | validatorMinPledge
  | pledgeMagnification
  | passRate
  | validPeriod
  | voteUnit
  | rewardAllocationShare
  | logicContract
  deriving DecidableEq, Repr

/-- The value of an item. -/
inductive Value where
  | number (n : ℚ)
  | share (s₀ s₁ s₂ s₃ : ℚ)
  | address (address : Address)
  deriving DecidableEq

/-- `cfg`. -/
abbrev Config := Item → Value

/-- A number of the configuration; all but `pass_rate` are integers. -/
def Config.int (cfg : Config) (item : Item) : ℤ :=
  match cfg item with
  | .number n => n.num
  | _ => 0

/-- A number of the configuration as an `Utils.int64` function takes it. -/
def Config.printed (cfg : Config) (item : Item) : ℤ :=
  Number.print (cfg.int item)

/-- A row of the candidate lists: address, stake and, for validators, the node. -/
structure Candidate where
  address : Address
  stake : ℤ
  node : Option Address
  deriving DecidableEq

/-- A row of the reward lists: reward received, vote reward pool and ratio. -/
structure Dist where
  reward : ℤ
  pool : Address
  ratio : ℤ
  deriving DecidableEq

abbrev Dists := Table Address Dist

/-- What a proposal is about. -/
inductive Content where
  | role (role : Role)
  | item (item : Item)
  deriving DecidableEq

/-- What `proposalKey` gives. -/
structure ProposalKey where
  operate : Motion
  content : Content
  address : Address
  deriving DecidableEq

/-- `proposalKey` of an address that a caller gives, as the host sees it. -/
@[simps] def proposalKey (operate : Motion) (content : Content) (address : Address) : ProposalKey :=
  ⟨operate, content, toCString address⟩

/-- The object stored for a proposal, with the fields it may have. -/
structure Proposal where
  pledge : Option ℤ := none
  expiration : ℤ
  passTime : Option ℤ := none
  ballot : List Address := []
  rewardPool : Option Address := none
  rewardRatio : Option ℤ := none
  node : Option Address := none
  value : Option Value := none
  deriving DecidableEq

/-- What `voterKey` gives. -/
structure VoterKey where
  voter : Address
  role : Role
  candidate : Address
  deriving DecidableEq

/-- `voterKey` of a sender, as the host sees it. -/
@[simps] def voterKey (sender : Address) (role : Role) (candidate : Address) : VoterKey :=
  ⟨sender, role, toCString candidate⟩

/-- The functions that write `all_stake`. -/
inductive StakeWriter where
  | initialization
  | prepare
  | rewardDistribution
  | minusStake
  deriving DecidableEq

/-- The metadata of the contract. -/
structure Storage where
  config : Config
  /-- The amount that was last written as `all_stake`. -/
  stake : ℤ
  /-- The function that wrote it. -/
  stakeWriter : StakeWriter
  valCands : List Candidate
  kolCands : List Candidate
  valDist : Dists
  kolDist : Dists
  committee : List Address
  proposals : Table ProposalKey Proposal
  voters : Table VoterKey ℤ

/-- The text under `all_stake`: `minusStake` hands the digits to `Chain.store`, and the others
write the string by `saveObj`. -/
def Storage.stakeText (st : Storage) : Bytes :=
  if st.stakeWriter = .minusStake then String64.toBytes st.stake
  else 34 :: (String64.toBytes st.stake ++ [34])

/-- What a payment is for, which is its remark. -/
inductive Remark where
  | reward (address : Address)
  | refund
  | unVote
  deriving DecidableEq

/-- The `elect` object, as `electInit` leaves it, but for `allStake`. -/
structure Elect where
  valDist : Dists := ∅
  kolDist : Dists := ∅
  balance : ℤ := 0
  valCands : List Candidate := []
  kolCands : List Candidate := []
  validators : List Candidate := []
  kols : List Candidate := []

/-- An entry of the journals. -/
inductive Mark where
  /-- A payment. -/
  | paid (dest : Address) (remark : Remark) (amount : ℤ)
  /-- A distribution: the candidates and the rewards before it, and the rewards after. -/
  | credited (before : Elect) (valDist kolDist : Dists)
  /-- A candidate was deleted from this list. -/
  | deleted (role : Role) (candidates : List Candidate)
  /-- `configFee`. -/
  | configFee (item : Item) (value : Value)

theorem unpaid : (0 : ℤ) ≤ 0 := le_rfl

/-- `Chain.msg` and `Chain.block`; a payment is never negative, and the address of an account
has no zero character. -/
structure Msg where
  sender : Address
  coinAmount : ℤ
  timestamp : ℤ
  nonneg : 0 ≤ coinAmount
  plain : 0 ∉ sender

/-- A message without coins. -/
def plainMsg (sender : Address) (timestamp : ℤ) : Msg :=
  ⟨toCString sender, 0, timestamp, unpaid, zero_not_mem_toCString sender⟩

/-- An entry of the list of `extract`: the property that it names, and whether it is a
string.  An entry that names what every object has, such as `constructor`, is not
understood. -/
structure Payee where
  name : Address
  isString : Bool
  deriving DecidableEq

/-- `input.method` with its parameters. -/
inductive Method where
  | apply (role : Role) (pool : Option Address) (ratio : Option ℤ) (node : Option Address)
  | append (role : Role)
  | approve (operate : Motion) (content : Content) (address : Address)
  | vote (role : Role) (address : Address)
  | unVote (role : Role) (address : Address)
  | abolish (role : Role) (address : Address)
  | withdraw (role : Role)
  | extract (list : Option (List Payee))
  | configure (item : Item) (value : Value)
  | setNodeAddress (address : Address)
  | setVoteDividend (role : Role) (pool : Option Address) (ratio : Option ℤ)
  | clean (operate : Motion) (content : Content) (address : Address)
  /-- `init`, which is refused the second time, and whatever is not understood. -/
  | unknown
  deriving DecidableEq

/-- A call that has been completed, with the metadata from before it and what its `prepare` has
loaded of them for `elect.allStake`. -/
structure Call where
  msg : Msg
  method : Method
  before : Storage
  loaded : Json

/-- The part of the ledger that the contract works on. -/
structure World where
  storage : Storage
  /-- The balance of the contract's account. -/
  balance : ℤ
  /-- The list last given to `setValidators`, or the one from before. -/
  validators : List (Address × ℤ)
  /-- What the call under way has done, the latest first.  The journals are not in
  the code. -/
  journal : List Mark := []
  /-- What calls made by accounts that were paid have done. -/
  callbacks : List Mark := []
  /-- All calls that have been completed, the latest first.  This is not in the code
either. -/
  calls : List Call := []

/-- What the contract meets outside of itself. -/
structure Host where
  /-- `Utils.addressCheck`. -/
  addressCheck : Address → Bool
  /-- `parseInt(committee.length * cfg.pass_rate)`. -/
  passCount : ℕ → Value → ℕ
  /-- The reserve that `payCoin` leaves on an account. -/
  baseReserve : ℤ

/-- A call of `main` under way. -/
structure Run where
  world : World
  cfg : Config
  /-- What `prepare` loads for `elect.allStake`. -/
  loaded : Json
  /-- `elect.allStake`. -/
  allStake : ℤ
  elect : Elect := {}
  distributed : Bool := false
  /-- The number of payments made. -/
  payments : ℕ := 0

/-- What happens while a payment of the call, counted from 0, is under way. -/
abbrev Receive := ℕ → World → Option World

namespace World

/-- Write a line of the journal. -/
def mark (entry : Mark) (w : World) : World :=
  { w with journal := entry :: w.journal }

/-- Enter a call that has been completed. -/
def log (call : Call) (w : World) : World :=
  { w with calls := call :: w.calls }

/-- Change the metadata. -/
def store (f : Storage → Storage) (w : World) : World :=
  { w with storage := f w.storage }

end World

namespace Run

/-- Change the metadata. -/
def store (f : Storage → Storage) (s : Run) : Run :=
  { s with world := s.world.store f }

/-- The proposals that are stored. -/
def proposals (s : Run) : Table ProposalKey Proposal :=
  s.world.storage.proposals

/-- `saveObj` of a proposal. -/
def saveProposal (key : ProposalKey) (proposal : Proposal) (s : Run) : Run :=
  s.store fun st => { st with proposals := st.proposals.insert key proposal }

/-- `Chain.del` of a proposal. -/
def delProposal (key : ProposalKey) (s : Run) : Run :=
  s.store fun st => { st with proposals := st.proposals.erase key }

end Run

/-! ## Candidates and rewards -/

/-- `doubleSort`: the first goes before the second. -/
def doubleSort (a b : Candidate) : Bool :=
  decide (b.stake < a.stake) || decide (a.stake = b.stake) && !decide (b.address < a.address)

/-- `candidates.sort(doubleSort)`. -/
def sortRows (candidates : List Candidate) : List Candidate :=
  candidates.insertionSort fun a b => doubleSort a b

namespace Run

/-- The candidates of a role in `elect`. -/
def candidates (role : Role) (s : Run) : List Candidate :=
  if role = .validator then s.elect.valCands else s.elect.kolCands

/-- The candidates of a role in `elect` are sorted, shortened or lengthened in
place. -/
def setCandidates (role : Role) (candidates : List Candidate) (s : Run) : Run :=
  { s with elect :=
      if role = .validator then { s.elect with valCands := candidates }
      else { s.elect with kolCands := candidates } }

/-- `saveObj` of a candidate list. -/
def saveCandidates (role : Role) (candidates : List Candidate) (s : Run) : Run :=
  s.store fun st =>
    if role = .validator then { st with valCands := candidates }
    else { st with kolCands := candidates }

/-- The rewards of a role in `elect`. -/
def dist (role : Role) (s : Run) : Dists :=
  if role = .validator then s.elect.valDist else s.elect.kolDist

/-- The rewards of a role change in `elect`, and `distributed` is set. -/
def setDist (role : Role) (dist : Dists) (s : Run) : Run :=
  { s with
    elect :=
      if role = .validator then { s.elect with valDist := dist }
      else { s.elect with kolDist := dist }
    distributed := true }

end Run

/-- `electInit`. -/
def electInit (s : Run) : Run :=
  let st := s.world.storage
  { s with elect :=
      { kolDist := st.kolDist
        valDist := st.valDist
        balance := s.world.balance
        valCands := st.valCands
        kolCands := st.kolCands
        validators := st.valCands.take (s.cfg.int .validatorSize).toNat
        kols := st.kolCands.take (s.cfg.int .kolSize).toNat } }

/-- `dist[name][0] = Utils.int64Add(dist[name][0], amount)`. -/
def credit (dist : Dists) (name : Address) (amount : ℤ) : Option Dists := do
  let entry ← dist.lookup name
  let reward ← int64Add entry.reward amount
  some (dist.insert name { entry with reward := reward })

/-- `distribute`: whether there are nodes, and the rewards. -/
def distribute (nodes : List Candidate) (allReward : ℤ) (dist : Dists) : Option (Bool × Dists) :=
  match nodes with
  | [] => some (false, dist)
  | top :: _ => do
      let reward ← int64Div allReward nodes.length
      let dist ← nodes.foldlM (fun dist node => credit dist node.address reward) dist
      let left ← int64Mod allReward nodes.length
      let dist ← credit dist top.address left
      some (true, dist)

/-- `Utils.int64Mul(centi, cfg.reward_allocation_share[i])`. -/
def shareOf (centi : ℤ) (share : ℚ) : Option ℤ :=
  (Number.int? share).bind (int64Mul centi)

/-- What was not distributed goes to the next ones. -/
def orAdd (done : Bool) (share rest : ℤ) : Option ℤ :=
  if done then some share else int64Add share rest

/-- `calculate`: the rewards of the two roles. -/
def calculate (cfg : Config) (elect : Elect) (reward : ℤ) : Option (Dists × Dists) :=
  match cfg .rewardAllocationShare with
  | .share s₀ s₁ s₂ s₃ => do
      let centi ← int64Div reward 100
      let rVF ← shareOf centi s₀
      let rVC ← shareOf centi s₁
      let rKF ← shareOf centi s₂
      let rKC ← shareOf centi s₃
      let kolCands := elect.kolCands.drop (cfg.int .kolSize).toNat
      let valCands := elect.valCands.drop (cfg.int .validatorSize).toNat
      let (done, kolDist) ← distribute kolCands rKC elect.kolDist
      let rKF ← orAdd done rKF rKC
      let (done, kolDist) ← distribute elect.kols rKF kolDist
      let rVF ← orAdd done rVF rKF
      let (done, valDist) ← distribute valCands rVC elect.valDist
      let rVF ← orAdd done rVF rVC
      let (_, valDist) ← distribute elect.validators rVF valDist
      let left ← int64Mod reward 100
      let topOne ← elect.validators.head?
      let valDist ← credit valDist topOne.address left
      some (valDist, kolDist)
  | _ => none

/-- `rewardDistribution`. -/
def rewardDistribution (s : Run) : Option Run := do
  let reward ← int64Sub s.elect.balance s.allStake
  if reward = 0 then some s
  else do
    let (valDist, kolDist) ← calculate s.cfg s.elect reward
    let w := (s.world.mark (.credited s.elect valDist kolDist)).store
      fun st => { st with stake := s.elect.balance, stakeWriter := .rewardDistribution }
    some { s with
      world := w
      elect := { s.elect with valDist := valDist, kolDist := kolDist }
      distributed := true
      allStake := s.elect.balance }

/-! ## Payments -/

/-- `minusStake`. -/
def minusStake (amount : ℤ) (s : Run) : Option Run := do
  let allStake ← int64Sub s.allStake amount
  some { s.store fun st => { st with stake := allStake, stakeWriter := .minusStake } with
    allStake := allStake }

variable (host : Host) (receive : Receive) (msg : Msg)

/-- `Chain.payCoin`. -/
def payCoin (dest : Address) (amount : ℤ) (remark : Remark) (s : Run) : Option Run := do
  assert (0 ≤ amount ∧ amount + host.baseReserve ≤ s.world.balance)
  let w ← receive s.payments
    (World.mark (.paid (toCString dest) remark amount)
      { s.world with balance := s.world.balance - amount })
  some { s with world := w, payments := s.payments + 1 }

/-- `transferCoin`. -/
def transferCoin (dest : Address) (amount : ℤ) (remark : Remark) (s : Run) : Option Run :=
  if amount = 0 then some s
  else (minusStake amount s).bind (payCoin host receive dest amount remark)

/-- `transferCoin` to an entry of a list; `payCoin` takes a string only. -/
def payPayee (payee : Payee) (amount : ℤ) (s : Run) : Option Run := do
  assert (amount = 0 ∨ payee.isString)
  transferCoin host receive payee.name amount (.reward payee.name) s

/-- The payments of `award`. -/
def payAward (payee : Payee) (entry : Dist) (s : Run) : Option Run :=
  if entry.ratio = 0 then payPayee host receive payee entry.reward s
  else if entry.ratio = 100 then
    transferCoin host receive entry.pool entry.reward (.reward payee.name) s
  else do
    let onePercent ← int64Div entry.reward 100
    let dividend ← int64Mul onePercent entry.ratio
    let s ← transferCoin host receive entry.pool dividend (.reward payee.name) s
    let reserve ← int64Sub entry.reward dividend
    payPayee host receive payee reserve s

/-- `award`, if the name has a row.  It is compared to the candidates by `===`. -/
def award (role : Role) (payee : Payee) (s : Run) : Option Run :=
  match (s.dist role).lookup payee.name with
  | none => some s
  | some entry => do
      let s ← payAward host receive payee entry s
      let dist := (s.dist role).insert payee.name { entry with reward := 0 }
      if payee.isString ∧ (s.candidates role).any (·.address = payee.name) then
        some (s.setDist role dist)
      else some (s.setDist role (dist.erase payee.name))

/-- `extract`. -/
def extract (list : Option (List Payee)) (s : Run) : Option Run := do
  let s ← rewardDistribution (electInit s)
  let awardBoth := fun (s : Run) (payee : Payee) =>
    (award host receive .validator payee s).bind (award host receive .kol payee)
  match list with
  | none => awardBoth s ⟨msg.sender, true⟩
  | some list => do
      assert (list.length ≤ 100)
      list.foldlM awardBoth s

/-! ## Candidates -/

/-- `updateValidators`. -/
def updateValidators (candidates : List Candidate) (s : Run) : Run :=
  { s with world := { s.world with
      validators := (candidates.take (s.cfg.int .validatorSize).toNat).map
        fun row => (row.node.getD [], row.stake) } }

/-- The candidates were sorted, and this list of them is saved; the validators change
when one of them is concerned. -/
def saveElection (role : Role) (sorted saved : List Candidate) (elected : Bool) (s : Run) : Run :=
  let s := (s.setCandidates role sorted).saveCandidates role saved
  if role = .validator ∧ elected then updateValidators saved s else s

/-- There is no place for a candidate with this stake. -/
def isFull (role : Role) (stake : ℤ) (maxSize : ℕ) (s : Run) : Bool :=
  match (s.candidates role).getLast? with
  | none => decide (maxSize = 0)
  | some last => decide ((s.candidates role).length ≥ maxSize) && decide (stake ≤ last.stake)

/-- A candidate gets a row for its rewards, unless it has one. -/
def addDist (role : Role) (address : Address) (proposal : Proposal) (s : Run) : Run :=
  match (s.dist role).lookup address with
  | some _ => s
  | none => s.setDist role ((s.dist role).insert address
      ⟨0, proposal.rewardPool.getD [], proposal.rewardRatio.getD 0⟩)

/-- The place of a row is one of a validator; `indexOf` is -1 for a row that was cut off. -/
def isElected (candidates : List Candidate) (row : Candidate) (cfg : Config) : Bool :=
  let index := candidates.findIdx (· = row)
  decide (index = candidates.length) || decide ((index : ℤ) < cfg.int .validatorSize)

/-- `addCandidates`. -/
def addCandidates (role : Role) (address : Address) (proposal : Proposal) (maxSize : ℕ)
    (s : Run) : Option Run := do
  let pledge ← proposal.pledge
  let stake ← int64Mul pledge (s.cfg.printed .pledgeMagnification)
  if isFull role stake maxSize s then some s
  else do
    let s ← rewardDistribution s
    assert (role ≠ .validator ∨ (s.candidates role).all (·.node ≠ proposal.node))
    let addition : Candidate :=
      ⟨address, stake, if role = .validator then proposal.node else none⟩
    let sorted := sortRows (s.candidates role ++ [addition])
    some (saveElection role sorted (sorted.take maxSize)
      (isElected (sorted.take maxSize) addition s.cfg) (addDist role address proposal s))

/-- `deleteCandidate`. -/
def deleteCandidate (role : Role) (address : Address) (s : Run) : Option Run :=
  if (s.candidates role).any (·.address = address) then do
    let s ← rewardDistribution s
    let index := (s.candidates role).findIdx (·.address = address)
    let candidates := sortRows ((s.candidates role).eraseIdx index)
    some (saveElection role candidates candidates
      (decide ((index : ℤ) < s.cfg.int .validatorSize))
      { s with world := s.world.mark (.deleted role (s.candidates role)) })
  else some s

/-- A row moved across the last place of the formal ones. -/
def crosses (formalSize : ℤ) (oldPos newPos : ℕ) : Prop :=
  ((oldPos : ℤ) ≥ formalSize ∧ (newPos : ℤ) < formalSize) ∨
    ((oldPos : ℤ) < formalSize ∧ (newPos : ℤ) ≥ formalSize)

instance (formalSize : ℤ) (oldPos newPos : ℕ) : Decidable (crosses formalSize oldPos newPos) :=
  inferInstanceAs (Decidable (_ ∨ _))

/-- `updateStake` of the row of an address. -/
def updateStake (role : Role) (found : Candidate) (formalSize : ℤ) (amount : ℤ) (s : Run) :
    Option Run := do
  let oldPos := (s.candidates role).findIdx (·.address = found.address)
  let stake ← int64Add found.stake amount
  let row := { found with stake := stake }
  let sorted := sortRows ((s.candidates role).set oldPos row)
  let newPos := sorted.findIdx (· = row)
  let s := (s.setCandidates role sorted).saveCandidates role sorted
  if crosses formalSize oldPos newPos then do
    let s ← rewardDistribution s
    if role = .validator then some (updateValidators sorted s) else some s
  else some s

end CegChain.Dpos
