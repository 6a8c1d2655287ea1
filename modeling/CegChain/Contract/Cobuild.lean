import CegChain.Contract.Calls
import CegChain.Lib.Totals

/-!
# The co-build contract

`contract/cobuild.js`.  Several accounts put their coins together in shares of one `unit` each,
and the contract pledges them with the DPoS contract as one candidate.  A holder's shares are all
pledged or all not pledged, which a flag says.  Shares that are not pledged are given back by
`revoke`; pledged ones are handed over to somebody who pays for them (`transfer`, `accept`).  The
rewards of the candidate are credited to those with pledged shares.

A holder is the source of a transaction, and so no contract: a payment to it runs no code.  The
DPoS contract does run when it is called, and may call `reward` and `refund` before the call
returns.  `none` is a call that throws.
-/

namespace CegChain.Cobuild

open Layers Totals
open Dpos (assert int64Add int64Sub int64Mod Role)

/-! ## Data -/

/-- `oneCEG`. -/
def oneCEG : ℤ := 100000000

/-- `minUnit`. -/
def minUnit : ℤ := 100000 * oneCEG

/-- `minInitAmount`. -/
def minInitAmount : ℤ := 1000000 * oneCEG

/-- `dposContract`. -/
def dposContract : Address :=
  "cegQqzdS9YSnokDjvzg4YaNatcFQfkgXqk6ss".toList.map fun c => UInt8.ofNat c.toNat

/-- The object of a holder. -/
structure Cobuilder where
  share : ℤ
  pledged : Bool
  award : ℤ
  deriving DecidableEq

/-- `states`. -/
structure States where
  disabled : Bool
  applied : Bool
  role : Option Role
  allShares : ℤ
  pledgedShares : ℤ

/-- `cfg`. -/
structure Config where
  initiator : Address
  unit : ℤ
  raiseShares : ℤ

/-- The vote on leaving. -/
structure Proposal where
  withdrawed : Bool
  expiration : ℤ
  sum : ℤ
  ballot : Table Address ℤ

/-- The metadata. -/
structure Storage where
  states : States
  cfg : Config
  cobuilders : Table Address Cobuilder
  /-- The shares under `transferKey(from, to)`. -/
  transfers : Table (Address × Address) ℤ
  withdraw : Option Proposal

/-- The part of the ledger that the contract works on. -/
structure World where
  storage : Storage
  /-- The balance of the contract's account. -/
  balance : ℤ
  /-- The coins that the DPoS contract was given and has not given back. -/
  deposited : ℕ

/-- `Chain.msg`, `Chain.tx` and `Chain.block`. -/
structure Msg where
  txSender : Address
  sender : Address
  coinAmount : ℕ
  timestamp : ℤ

/-- The JSON text of a call to the DPoS contract. -/
inductive Input where
  | extract
  | apply (role : Role) (pool : Address) (ratio : ℤ) (node : Option Address)
  | append (role : Option Role)
  | setNodeAddress (address : Address)
  | setVoteDividend (role : Option Role) (pool : Option Address) (ratio : Option ℤ)
  | withdraw (role : Role)

/-- The DPoS contract, as the call meets it. -/
structure DposContract where
  /-- What it does when it is called, once it has the coins. -/
  call : Input → World → Option World
  /-- The `valid_period` that `queryDposCfg` returns. -/
  validPeriod : Option ℤ

/-- What the contract meets outside of itself. -/
structure Host where
  addressCheck : Address → Bool
  thisAddress : Address
  /-- The reserve that `payCoin` leaves on an account. -/
  baseReserve : ℤ

namespace World

/-- `saveObj` of `states`. -/
def setStates (states : States) (w : World) : World :=
  { w with storage := { w.storage with states := states } }

/-- `saveObj` of `cobuilders`. -/
def setCobuilders (cobuilders : Table Address Cobuilder) (w : World) : World :=
  { w with storage := { w.storage with cobuilders := cobuilders } }

/-- `saveObj` of the proposal, or `Chain.del`. -/
def setWithdraw (withdraw : Option Proposal) (w : World) : World :=
  { w with storage := { w.storage with withdraw := withdraw } }

/-- `Chain.store` of the shares that are to be handed over, or `Chain.del`. -/
def setTransfers (transfers : Table (Address × Address) ℤ) (w : World) : World :=
  { w with storage := { w.storage with transfers := transfers } }

/-- Coins come in. -/
def arrive (amount : ℕ) (w : World) : World :=
  { w with balance := w.balance + amount }

end World

variable (host : Host) (dpos : DposContract) (msg : Msg)

/-- `transferCoin`. -/
def transferCoin (amount : ℤ) (w : World) : Option World :=
  if amount = 0 then some w
  else do
    assert (0 ≤ amount ∧ amount + host.baseReserve ≤ w.balance)
    some { w with balance := w.balance - amount }

/-- `callDPOS`. -/
def callDPOS (amount : ℤ) (input : Input) (w : World) : Option World := do
  assert (0 ≤ amount ∧ amount + host.baseReserve ≤ w.balance)
  dpos.call input
    { w with balance := w.balance - amount, deposited := w.deposited + amount.toNat }

/-! ## Rewards -/

/-- What a holder gets of a reward. -/
def rewarded (unitReward : ℤ) (cobuilder : Cobuilder) : Option Cobuilder :=
  if cobuilder.pledged then do
    let each ← Dpos.int64Mul unitReward cobuilder.share
    let award ← int64Add cobuilder.award each
    some { cobuilder with award := award }
  else some cobuilder

/-- `distribute`. -/
def distribute (allReward : ℤ) (w : World) : Option World := do
  assert (msg.sender = dposContract)
  let unitReward ← Dpos.int64Div allReward w.storage.states.pledgedShares
  let cobuilders ← mapValuesM (fun _ => rewarded unitReward) w.storage.cobuilders
  let left ← int64Mod allReward w.storage.states.pledgedShares
  let initiator ← cobuilders.lookup w.storage.cfg.initiator
  let award ← int64Add initiator.award left
  some (w.setCobuilders
    (cobuilders.insert w.storage.cfg.initiator { initiator with award := award }))

/-! ## Shares that are not pledged -/

/-- The holder with the shares that it subscribes to. -/
def subscribed (shares : ℤ) : Option Cobuilder → Option Cobuilder
  | none => some ⟨shares, false, 0⟩
  | some own => do
      assert (own.pledged = false)
      let share ← int64Add own.share shares
      some { own with share := share }

/-- `subscribe`. -/
def subscribe (shares : ℤ) (w : World) : Option World := do
  assert (0 < shares)
  let cost ← Dpos.int64Mul w.storage.cfg.unit shares
  assert (cost = msg.coinAmount)
  let own ← subscribed shares (w.storage.cobuilders.lookup msg.txSender)
  let allShares ← int64Add w.storage.states.allShares shares
  some ((w.setStates { w.storage.states with allShares := allShares }).setCobuilders
    (w.storage.cobuilders.insert msg.txSender own))

/-- `revoke`. -/
def revoke (w : World) : Option World := do
  assert (msg.txSender = w.storage.cfg.initiator → w.storage.states.disabled = true)
  let stake ← w.storage.cobuilders.lookup msg.txSender
  assert (stake.pledged = false)
  let allShares ← int64Sub w.storage.states.allShares stake.share
  let amount ← Dpos.int64Mul w.storage.cfg.unit stake.share
  let amount ← if stake.award = 0 then some amount else int64Add amount stake.award
  transferCoin host amount
    ((w.setCobuilders (w.storage.cobuilders.erase msg.txSender)).setStates
      { w.storage.states with allShares := allShares })

/-! ## Pledging -/

/-- `applyInput`. -/
def applyInput (role : Role) (pool : Address) (ratio : ℤ) (node : Option Address) :
    Option Input :=
  if role = .kol then some (.apply role pool ratio none)
  else do
    let node ← node
    assert (host.addressCheck node ∧ node ≠ host.thisAddress)
    some (.apply role pool ratio (some node))

/-- `setStatus`, with the `states` to start from. -/
def setStatus (states : States) (w : World) : Option World := do
  let cobuilders ← mapValuesM (fun _ cobuilder => some { cobuilder with pledged := true })
    w.storage.cobuilders
  some ((w.setStates { states with applied := true, pledgedShares := states.allShares })
    |>.setCobuilders cobuilders)

/-- `coApply`. -/
def coApply (role : Role) (pool : Address) (ratio : ℤ) (node : Option Address) (w : World) :
    Option World := do
  assert (role = .validator ∨ role = .kol)
  assert (host.addressCheck pool)
  assert (0 ≤ ratio ∧ ratio ≤ 100)
  assert (w.storage.states.applied = false)
  assert (msg.txSender = w.storage.cfg.initiator)
  assert (w.storage.states.allShares ≥ w.storage.cfg.raiseShares)
  let w ← setStatus { w.storage.states with role := some role } w
  let pledgeAmount ← Dpos.int64Mul w.storage.cfg.unit w.storage.states.allShares
  let input ← applyInput host role pool ratio node
  callDPOS host dpos pledgeAmount input w

/-- `coAppend`. -/
def coAppend (w : World) : Option World := do
  assert (w.storage.states.applied = true)
  assert (msg.txSender = w.storage.cfg.initiator)
  let appendShares ← int64Sub w.storage.states.allShares w.storage.states.pledgedShares
  let appendAmount ← Dpos.int64Mul w.storage.cfg.unit appendShares
  let w ← setStatus w.storage.states w
  callDPOS host dpos appendAmount (.append w.storage.states.role) w

/-- `coSetNodeAddress`. -/
def coSetNodeAddress (address : Address) (w : World) : Option World := do
  assert (host.addressCheck address)
  assert (msg.txSender = w.storage.cfg.initiator)
  callDPOS host dpos 0 (.setNodeAddress address) w

/-- `coSetVoteDividend`. -/
def coSetVoteDividend (pool : Option Address) (ratio : Option ℤ) (w : World) : Option World := do
  assert (msg.txSender = w.storage.cfg.initiator)
  assert (∀ address ∈ pool, host.addressCheck address)
  assert (∀ n ∈ ratio, 0 ≤ n ∧ n ≤ 100)
  callDPOS host dpos 0 (.setVoteDividend w.storage.states.role pool ratio) w

/-! ## Handing over -/

/-- `transfer`. -/
def transfer (dest : Address) (shares : ℤ) (w : World) : Option World := do
  assert (host.addressCheck dest)
  assert (0 ≤ shares)
  let own ← w.storage.cobuilders.lookup msg.txSender
  assert (own.pledged = true)
  assert (shares ≤ own.share)
  if shares = 0 then some (w.setTransfers (w.storage.transfers.erase (msg.txSender, dest)))
  else some (w.setTransfers (w.storage.transfers.insert (msg.txSender, dest) shares))

/-- The holder with the shares that it accepts. -/
def accepted (shares : ℤ) : Option Cobuilder → Option Cobuilder
  | none => some ⟨shares, true, 0⟩
  | some own => do
      let share ← int64Add own.share shares
      some { own with share := share }

/-- The end of `accept`: the shares go to the sender, and the coins to the transferor. -/
def takeOver (transferor : Address) (shares gain : ℤ) (cobuilders : Table Address Cobuilder)
    (w : World) : Option World := do
  let own ← accepted shares (cobuilders.lookup msg.txSender)
  let amount ← int64Add msg.coinAmount gain
  transferCoin host amount
    ((w.setTransfers (w.storage.transfers.erase (transferor, msg.txSender))).setCobuilders
      (cobuilders.insert msg.txSender own))

/-- `accept`. -/
def accept (transferor : Address) (w : World) : Option World := do
  assert (host.addressCheck transferor)
  let given ← w.storage.cobuilders.lookup transferor
  assert (given.pledged = true)
  let shares ← w.storage.transfers.lookup (transferor, msg.txSender)
  assert (shares ≤ given.share)
  let cost ← Dpos.int64Mul w.storage.cfg.unit shares
  assert (cost = msg.coinAmount)
  let left ← int64Sub given.share shares
  if left = 0 then do
    let w ← callDPOS host dpos 0 .extract w
    let given ← w.storage.cobuilders.lookup transferor
    takeOver host msg transferor shares given.award (w.storage.cobuilders.erase transferor) w
  else do
    -- only here does it matter whether the shares of the sender are pledged
    assert (∀ own ∈ w.storage.cobuilders.lookup msg.txSender, own.pledged = true)
    takeOver host msg transferor shares 0
      (w.storage.cobuilders.insert transferor { given with share := left }) w

/-! ## Leaving -/

/-- `withdrawProposal`. -/
def withdrawProposal : Option Proposal := do
  let validPeriod ← dpos.validPeriod
  some ⟨false, msg.timestamp + validPeriod, 0, ∅⟩

/-- `withdrawInput`. -/
def withdrawInput (states : States) : Input :=
  .withdraw (states.role.getD .kol)

/-- `withdrawing`. -/
def withdrawing (proposal : Proposal) (w : World) : Option World :=
  callDPOS host dpos 0 (withdrawInput w.storage.states)
    (w.setWithdraw (some { proposal with withdrawed := true }))

/-- `coWithdraw`. -/
def coWithdraw (w : World) : Option World := do
  assert (msg.txSender = w.storage.cfg.initiator)
  if w.storage.states.applied then do
    let proposal ← withdrawProposal dpos msg
    withdrawing host dpos proposal w
  else some (w.setStates { w.storage.states with disabled := true })

/-- The end of `poll`. -/
def pollOn (share : ℤ) (proposal : Proposal) (w : World) : Option World := do
  let sum ← int64Add proposal.sum share
  let proposal := { proposal with sum := sum, ballot := proposal.ballot.insert msg.txSender share }
  let quotient ← Dpos.int64Div w.storage.states.pledgedShares sum
  if quotient ≥ 2 then some (w.setWithdraw (some proposal))
  else withdrawing host dpos proposal w

/-- `poll`. -/
def poll (w : World) : Option World := do
  assert (w.storage.states.applied = true)
  let own ← w.storage.cobuilders.lookup msg.txSender
  assert (own.pledged = true)
  match w.storage.withdraw with
  | none => do
      let proposal ← withdrawProposal dpos msg
      pollOn host dpos msg own.share proposal w
  | some proposal =>
      if (proposal.ballot.lookup msg.txSender).isSome then some w
      else pollOn host dpos msg own.share proposal w

/-- `resetStatus`. -/
def resetStatus (w : World) : Option World := do
  let cobuilders ← mapValuesM (fun _ cobuilder => some { cobuilder with pledged := false })
    w.storage.cobuilders
  some ((w.setStates { w.storage.states with
    role := none, disabled := true, applied := false, pledgedShares := 0 })
    |>.setCobuilders cobuilders)

/-- `takeback`. -/
def takeback (w : World) : Option World := do
  let proposal ← w.storage.withdraw
  assert (proposal.withdrawed = true ∧ msg.timestamp ≥ proposal.expiration)
  callDPOS host dpos 0 (withdrawInput w.storage.states) w

/-- `received`. -/
def received (w : World) : Option World := do
  assert (msg.sender = dposContract)
  let w ← resetStatus w
  some (w.setWithdraw none)

/-! ## Awards -/

/-- One address of the list: its award is paid and set to zero. -/
def payAward (r : Table Address Cobuilder × World) (address : Address) :
    Option (Table Address Cobuilder × World) := do
  let own ← r.1.lookup address
  let w ← transferCoin host own.award r.2
  some (r.1.insert address { own with award := 0 }, w)

/-- `coExtract`. -/
def coExtract (list : Option (List Address)) (w : World) : Option World := do
  let w ← callDPOS host dpos 0 .extract w
  match list with
  | none => do
      let own ← w.storage.cobuilders.lookup msg.txSender
      transferCoin host own.award (w.setCobuilders
        (w.storage.cobuilders.insert msg.txSender { own with award := 0 }))
  | some list => do
      assert (list.length ≤ 100)
      let r ← list.foldlM (payAward host) (w.storage.cobuilders, w)
      some (r.2.setCobuilders r.1)

/-! ## Calls -/

/-- `input.method` with its parameters; `invalid` is a method with parameters of another type. -/
inductive Method where
  | subscribe (shares : ℤ)
  | revoke
  | coApply (role : Role) (pool : Address) (ratio : ℤ) (node : Option Address)
  | coAppend
  | coSetNodeAddress (address : Address)
  | coSetVoteDividend (pool : Option Address) (ratio : Option ℤ)
  | transfer (dest : Address) (shares : ℤ)
  | accept (transferor : Address)
  | coExtract (list : Option (List Address))
  | coWithdraw
  | poll
  | takeback
  | reward
  | refund
  | invalid
  | unknown
  deriving DecidableEq

/-- The methods that coins may come with. -/
def Method.takesCoins : Method → Bool
  | .subscribe _ | .accept _ | .reward | .refund => true
  | _ => false

/-- `main`, once the coins that come with the call are on the account. -/
def main (method : Method) (w : World) : Option World :=
  if w.storage.states.disabled ∧ method ≠ .revoke then some w
  else do
    assert (method.takesCoins = false → msg.coinAmount = 0)
    match method with
    | .subscribe shares => subscribe msg shares w
    | .revoke => revoke host msg w
    | .coApply role pool ratio node => coApply host dpos msg role pool ratio node w
    | .coAppend => coAppend host dpos msg w
    | .coSetNodeAddress address => coSetNodeAddress host dpos msg address w
    | .coSetVoteDividend pool ratio => coSetVoteDividend host dpos msg pool ratio w
    | .transfer dest shares => transfer host msg dest shares w
    | .accept transferor => accept host dpos msg transferor w
    | .coExtract list => coExtract host dpos msg list w
    | .coWithdraw => coWithdraw host dpos msg w
    | .poll => poll host dpos msg w
    | .takeback => takeback host dpos msg w
    | .reward => distribute msg msg.coinAmount w
    | .refund => received msg w
    | .invalid => none
    | .unknown => some w

/-- A call that the DPoS contract makes. -/
inductive Callback where
  /-- It pays a reward. -/
  | reward (amount : ℕ)
  /-- It gives back what it was given. -/
  | refund

/-- Run a call of the DPoS contract; it leads to no further ones. -/
def callback (w : World) : Callback → Option World
  | .reward amount =>
      main host ⟨fun _ _ => none, none⟩ ⟨msg.txSender, dposContract, amount, msg.timestamp⟩ .reward
        (w.arrive amount)
  | .refund =>
      main host ⟨fun _ _ => none, none⟩ ⟨msg.txSender, dposContract, w.deposited, msg.timestamp⟩
        .refund { w.arrive w.deposited with deposited := 0 }

/-- What the DPoS contract does in a call. -/
structure Response where
  throws : Bool
  /-- The rewards that `extract` pays. -/
  rewards : List ℕ
  /-- What every other method calls. -/
  callbacks : List Callback
  validPeriod : Option ℤ

/-- The DPoS contract with this response. -/
def respond (response : Response) : DposContract where
  call input w :=
    if response.throws then none
    else
      match input with
      | .extract => (response.rewards.map Callback.reward).foldlM (callback host msg) w
      | _ => response.callbacks.foldlM (callback host msg) w
  validPeriod := response.validPeriod

/-- What happens to the contract. -/
inductive Step where
  /-- Somebody other than the DPoS contract calls it. -/
  | call (msg : Msg) (hsender : msg.sender ≠ dposContract) (method : Method) (response : Response)
  /-- The DPoS contract calls it. -/
  | callback (msg : Msg) (callback : Callback)

/-- One step; a call that throws leaves no trace. -/
def step (w : World) : Step → World
  | .call msg _ method response =>
      (main host (respond host msg response) msg method (w.arrive msg.coinAmount)).getD w
  | .callback msg cb => (callback host msg w cb).getD w

/-- The contract after each step of a history. -/
def states (w : World) (steps : List Step) : List World :=
  steps.scanl (step host) w

/-- `init`, with the `base_reserve` that `queryDposCfg` returns. -/
def init (unit shares : ℤ) (baseReserve : ℕ) : Option World := do
  let remainder ← int64Mod unit oneCEG
  assert (remainder = 0 ∧ unit ≥ minUnit)
  assert (0 < shares)
  let initFund ← int64Sub msg.coinAmount baseReserve
  assert (initFund ≥ minInitAmount)
  let rest ← int64Mod initFund unit
  assert (rest = 0)
  let initShare ← Dpos.int64Div initFund unit
  some {
    storage := {
      states := ⟨false, false, none, initShare, 0⟩
      cfg := ⟨msg.txSender, unit, shares⟩
      cobuilders := (∅ : Table Address Cobuilder).insert msg.txSender ⟨initShare, false, 0⟩
      transfers := ∅
      withdraw := none }
    balance := msg.coinAmount
    deposited := 0 }

end CegChain.Cobuild
