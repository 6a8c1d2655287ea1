import CegChain.Contract.Elect

/-!
# The DPoS contract: calls

The methods of `contract/dpos.js` and `main`.  A payment runs the code of the account
it goes to.  What that code does is a `Reaction`: the calls of the contract it makes,
and what the accounts that are paid in those calls do in their turn.  A history is a
list of calls from outside, each with the reactions to its payments, and of coins
that the ledger adds to the account in between.
-/

namespace CegChain.Dpos

open Layers

variable (host : Host) (receive : Receive) (msg : Msg)

/-! ## Proposals -/

/-- The row of an address among the candidates. -/
def findCandidate (role : Role) (address : Address) (s : Run) : Option Candidate :=
  (s.candidates role).find? (·.address = address)

/-- `cfg.validator_size` or `cfg.kol_size`. -/
def formalSize (role : Role) (cfg : Config) : ℤ :=
  cfg.int (if role = .validator then .validatorSize else .kolSize)

/-- `cfg.validator_candidate_size` or `cfg.kol_candidate_size`. -/
def maxSize (role : Role) (cfg : Config) : ℕ :=
  (cfg.int (if role = .validator then .validatorCandidateSize else .kolCandidateSize)).toNat

/-- `address||Chain.msg.sender`. -/
def orSender (address : Option Address) : Address :=
  match address with
  | some (byte :: bytes) => byte :: bytes
  | _ => msg.sender

/-- `nodeAddressValid`. -/
def nodeAddressValid (node : Address) (s : Run) : Option Unit := do
  assert (host.addressCheck node)
  assert (s.world.storage.valCands.all (·.node ≠ some node))

/-- `checkPledge`. -/
def checkPledge (role : Role) (s : Run) : Option Unit :=
  match role with
  | .validator => assert (isInt64 (s.cfg.printed .validatorMinPledge) ∧
      msg.coinAmount ≥ s.cfg.printed .validatorMinPledge)
  | .kol => assert (isInt64 (s.cfg.printed .kolMinPledge) ∧
      msg.coinAmount ≥ s.cfg.printed .kolMinPledge)
  | .committee => assert (msg.coinAmount = 0)

/-- `Chain.block.timestamp + cfg.valid_period`. -/
def deadline (cfg : Config) : ℤ :=
  ⌊Number.add msg.timestamp (cfg.int .validPeriod)⌋

/-- `applicationProposal`. -/
def applicationProposal (role : Role) (pool : Address) (ratio : ℤ) (node : Address) (s : Run) :
    Option Proposal :=
  let proposal : Proposal :=
    { pledge := some msg.coinAmount
      expiration := deadline msg s.cfg }
  if role = .committee then some proposal
  else do
    assert (host.addressCheck pool)
    assert (0 ≤ ratio ∧ ratio ≤ 100)
    let proposal := { proposal with rewardPool := some pool, rewardRatio := some ratio }
    if role = .kol then some proposal
    else do
      nodeAddressValid host node s
      some { proposal with node := some node }

/-- `apply`. -/
def apply (role : Role) (pool : Option Address) (ratio : Option ℤ) (node : Option Address)
    (s : Run) : Option Run := do
  let key : ProposalKey := ⟨.apply, .role role, msg.sender⟩
  assert (s.proposals.lookup key = none)
  checkPledge msg role s
  let proposal ← applicationProposal host msg role (orSender msg pool) (ratio.getD 0)
    (orSender msg node) s
  some (s.saveProposal key proposal)

/-- `append`. -/
def append (role : Role) (s : Run) : Option Run := do
  let key : ProposalKey := ⟨.apply, .role role, msg.sender⟩
  let proposal ← s.proposals.lookup key
  assert (msg.timestamp < proposal.expiration ∨ proposal.passTime ≠ none)
  let odd ← int64Mod msg.coinAmount (s.cfg.printed .voteUnit)
  assert (odd = 0)
  let old ← proposal.pledge
  let pledge ← int64Add old msg.coinAmount
  let proposal := { proposal with pledge := some pledge }
  let s := s.saveProposal key proposal
  if proposal.passTime = none then some s
  else do
    assert (role ≠ .committee)
    let s := electInit s
    match findCandidate role msg.sender s with
    | none => addCandidates role msg.sender proposal (maxSize role s.cfg) s
    | some found => do
        let stake ← int64Mul msg.coinAmount (s.cfg.printed .pledgeMagnification)
        updateStake role found (formalSize role s.cfg) stake s

/-- `penalty`. -/
def penalty (evil : Address) (role : Role) (s : Run) : Option Run :=
  let key := proposalKey .apply (.role role) evil
  let key := if s.proposals.lookup key = none then { key with operate := .withdraw } else key
  (s.proposals.lookup key).map fun _ => s.delProposal key

/-- `updateCfg`. -/
def updateCfg (key : ProposalKey) (value : Value) (item : Item) (s : Run) : Run :=
  let s := s.delProposal key
  let cfg := Function.update s.cfg item value
  let s := { s.store fun st => { st with config := cfg } with cfg := cfg }
  if item = .gasPrice ∨ item = .baseReserve then
    { s with world := s.world.mark (.configFee item value) }
  else s

/-- `passIn`. -/
def passIn (key : ProposalKey) (proposal : Proposal) (role : Role) (address : Address)
    (s : Run) : Option Run :=
  let proposal := { proposal with passTime := some msg.timestamp }
  let s := s.saveProposal key proposal
  if role = .committee then
    if (s.world.storage.committee.length : ℤ) < s.cfg.int .committeeSize then
      some (s.store fun st => { st with committee := st.committee ++ [address] })
    else some s
  else addCandidates role address proposal (maxSize role s.cfg) (electInit s)

/-- `passOut`. -/
def passOut (key : ProposalKey) (role : Role) (address : Address) (s : Run) : Option Run := do
  let s := s.delProposal key
  if role = .committee then do
    assert (address ∈ s.world.storage.committee)
    some (s.store fun st => { st with committee := st.committee.erase address })
  else do
    let s ← deleteCandidate role address (electInit s)
    penalty address role s

/-- `approve`.  Only the proposals of `configure` are about an item, and theirs
alone have a value. -/
def approve (operate : Motion) (content : Content) (address : Address) (s : Run) :
    Option Run := do
  assert (operate ≠ .withdraw)
  assert (host.addressCheck address)
  assert (msg.sender ∈ s.world.storage.committee)
  let key := proposalKey operate content address
  let proposal ← s.proposals.lookup key
  assert (proposal.passTime = none)
  if msg.timestamp ≥ proposal.expiration then some s
  else do
    assert (msg.sender ∉ proposal.ballot)
    let proposal := { proposal with ballot := proposal.ballot ++ [msg.sender] }
    if proposal.ballot.length ≤
        host.passCount s.world.storage.committee.length (s.cfg .passRate) then
      some (s.saveProposal key proposal)
    else match operate, content with
      | .config, .item item => proposal.value.map fun value => updateCfg key value item s
      | .apply, .role role => passIn msg key proposal role address s
      | .abolish, .role role => passOut key role address s
      | _, _ => none

/-! ## Votes -/

/-- The votes that a voter has given, and more. -/
def addVotes (voteAmount : Option ℤ) (amount : ℤ) : Option ℤ :=
  match voteAmount with
  | none => some amount
  | some voteAmount => int64Add voteAmount amount

/-- `vote`. -/
def vote (role : Role) (address : Address) (s : Run) : Option Run := do
  assert (role ≠ .committee)
  assert (host.addressCheck address)
  let odd ← int64Mod msg.coinAmount (s.cfg.printed .voteUnit)
  assert (odd = 0)
  let key := voterKey msg.sender role address
  let voteAmount ← addVotes (s.world.storage.voters.lookup key) msg.coinAmount
  let s := electInit (s.store fun st => { st with voters := st.voters.insert key voteAmount })
  let found ← findCandidate role address s
  updateStake role found (formalSize role s.cfg) msg.coinAmount s

/-- `unVote`. -/
def unVote (role : Role) (address : Address) (s : Run) : Option Run := do
  assert (role ≠ .committee)
  assert (host.addressCheck address)
  let key := voterKey msg.sender role address
  let amount ← s.world.storage.voters.lookup key
  let s ← transferCoin host receive msg.sender amount .unVote
    (s.store fun st => { st with voters := st.voters.erase key })
  let s := electInit s
  match findCandidate role address s with
  | none => some s
  | some found => do
      -- the string is "-0" for no votes, which is not a number
      assert (amount ≠ 0)
      updateStake role found (formalSize role s.cfg) (-amount) s

/-! ## Leaving -/

/-- `reportPermission`. -/
def reportPermission (role : Role) (s : Run) : Option Unit :=
  let st := s.world.storage
  match role with
  | .committee => assert (msg.sender ∈ st.committee)
  | .validator => assert ((st.valCands.take (s.cfg.int .validatorSize).toNat).any
      (·.address = msg.sender))
  | .kol => assert ((st.kolCands.take (s.cfg.int .kolSize).toNat).any (·.address = msg.sender))

/-- `abolish`. -/
def abolish (role : Role) (address : Address) (s : Run) : Option Run := do
  reportPermission msg role s
  assert (host.addressCheck address)
  let applied ← s.proposals.lookup (proposalKey .apply (.role role) address)
  assert (applied.passTime ≠ none)
  let key := proposalKey .abolish (.role role) address
  let expiration := deadline msg s.cfg
  let proposal := (s.proposals.lookup key).getD
    { expiration := expiration, ballot := if role = .committee then [msg.sender] else [] }
  some (s.saveProposal key { proposal with expiration := expiration })

/-- `withdraw`. -/
def withdraw (role : Role) (s : Run) : Option Run := do
  let applicantKey : ProposalKey := ⟨.apply, .role role, msg.sender⟩
  let exitKey : ProposalKey := ⟨.withdraw, .role role, msg.sender⟩
  if role = .committee then do
    assert (msg.sender ∈ s.world.storage.committee)
    assert (s.world.storage.committee.length ≥ 2)
    some ((s.delProposal applicantKey).store fun st =>
      { st with committee := st.committee.erase msg.sender })
  else match s.proposals.lookup exitKey with
  | none => do
      let applicant ← s.proposals.lookup applicantKey
      let pledge ← applicant.pledge
      let s := s.delProposal applicantKey
      if applicant.passTime = none then transferCoin host receive msg.sender pledge .refund s
      else do
        let s ← deleteCandidate role msg.sender (electInit s)
        some (s.saveProposal exitKey
          { pledge := some pledge, expiration := deadline msg s.cfg })
  | some exitInfo => do
      assert (msg.timestamp ≥ exitInfo.expiration)
      let pledge ← exitInfo.pledge
      transferCoin host receive msg.sender pledge .refund (s.delProposal exitKey)

/-! ## Settings -/

/-- `cfgValid`. -/
def cfgValid (item : Item) (value : Value) : Bool :=
  match item, value with
  | .rewardAllocationShare, .share s₀ s₁ s₂ s₃ =>
      decide (Number.add (Number.add (Number.add s₀ s₁) s₂) s₃ = 100)
  | .rewardAllocationShare, _ => false
  | .logicContract, .address address => host.addressCheck address
  | .logicContract, _ => false
  | .passRate, .number n => decide (0 < n ∧ n ≤ 1)
  | _, .number n => decide (0 < n ∧ n.den = 1)
  | _, _ => false

/-- `===` of the values of two proposals; two arrays are never the same. -/
def sameValue : Option Value → Value → Bool
  | some (.number n), .number n' => decide (n = n')
  | some (.address a), .address a' => decide (a = a')
  | _, _ => false

/-- `configure`. -/
def configure (item : Item) (value : Value) (s : Run) : Option Run := do
  assert (cfgValid host item value)
  assert (msg.sender ∈ s.world.storage.committee)
  let key : ProposalKey := ⟨.config, .item item, msg.sender⟩
  if sameValue ((s.proposals.lookup key).bind Proposal.value) value then some s
  else some (s.saveProposal key
    { value := some value
      expiration := deadline msg s.cfg
      ballot := [msg.sender] })

/-- `setNodeAddress`. -/
def setNodeAddress (address : Address) (s : Run) : Option Run := do
  nodeAddressValid host address s
  let key : ProposalKey := ⟨.apply, .role .validator, msg.sender⟩
  let proposal ← s.proposals.lookup key
  let s := s.saveProposal key { proposal with node := some address }
  let candidates := s.world.storage.valCands
  let index := candidates.findIdx (·.address = msg.sender)
  match candidates[index]? with
  | none => some s
  | some found =>
      let candidates := candidates.set index { found with node := some address }
      let s := s.saveCandidates .validator candidates
      if (index : ℤ) < s.cfg.int .validatorSize then some (updateValidators candidates s)
      else some s

/-- `setVoteDividend`. -/
def setVoteDividend (role : Role) (pool : Option Address) (ratio : Option ℤ) (s : Run) :
    Option Run := do
  let key : ProposalKey := ⟨.apply, .role role, msg.sender⟩
  let proposal ← s.proposals.lookup key
  assert (pool.all fun pool => host.addressCheck pool)
  assert (ratio.all fun ratio => decide (0 ≤ ratio ∧ ratio ≤ 100))
  let update := fun (dist : Dists) => match dist.lookup msg.sender with
    | none => dist
    | some entry => dist.insert msg.sender
        { entry with pool := pool.getD entry.pool, ratio := ratio.getD entry.ratio }
  let s := s.saveProposal key
    { proposal with
      rewardPool := pool.or proposal.rewardPool
      rewardRatio := ratio.or proposal.rewardRatio }
  some (s.store fun st =>
    if role = .validator then { st with valDist := update st.valDist }
    else { st with kolDist := update st.kolDist })

/-- `clean`. -/
def clean (operate : Motion) (content : Content) (address : Address) (s : Run) :
    Option Run := do
  assert (host.addressCheck address)
  let key := proposalKey operate content address
  let proposal ← s.proposals.lookup key
  assert (msg.timestamp ≥ proposal.expiration ∧ proposal.passTime = none)
  let s := s.delProposal key
  match proposal.pledge with
  | some pledge =>
      if 0 < pledge then transferCoin host receive address pledge .refund s else some s
  | none => some s

/-! ## Calls -/

/-- `prepare`. -/
def prepare (w : World) : Option Run := do
  let loaded ← jsonParse w.storage.stakeText
  let allStake ← loaded.amount
  if 0 < msg.coinAmount then do
    let allStake ← int64Add allStake msg.coinAmount
    some { world := w.store fun st => { st with stake := allStake, stakeWriter := .prepare }
           cfg := w.storage.config
           loaded := loaded
           allStake := allStake }
  else some { world := w, cfg := w.storage.config, loaded := loaded, allStake := allStake }

/-- The method is one that takes coins. -/
def Method.takesCoins : Method → Bool
  | .apply .. | .append .. | .vote .. => true
  | _ => false

/-- The branches of `main`. -/
def dispatch (method : Method) (s : Run) : Option Run :=
  match method with
  | .apply role pool ratio node => apply host msg role pool ratio node s
  | .append role => append msg role s
  | .approve operate content address => approve host msg operate content address s
  | .vote role address => vote host msg role address s
  | .unVote role address => unVote host receive msg role address s
  | .abolish role address => abolish host msg role address s
  | .withdraw role => withdraw host receive msg role s
  | .extract list => extract host receive msg list s
  | .configure item value => configure host msg item value s
  | .setNodeAddress address => setNodeAddress host msg address s
  | .setVoteDividend role pool ratio => setVoteDividend host msg role pool ratio s
  | .clean operate content address => clean host receive msg operate content address s
  | .unknown => none

/-- The end of `main`. -/
def saveDists (s : Run) : World :=
  if s.distributed then
    s.world.store fun st => { st with kolDist := s.elect.kolDist, valDist := s.elect.valDist }
  else s.world

/-- `main`, once the coins that come with the call are on the account. -/
def main (method : Method) (w : World) : Option World := do
  let s ← prepare msg w
  assert (method.takesCoins ∨ msg.coinAmount = 0)
  let s₁ ← dispatch host receive msg method s
  some ((saveDists s₁).log ⟨msg, method, w.storage, s.loaded⟩)

/-- What an account does when it is paid, and whether the payment succeeds. -/
inductive Reaction where
  | done
  | fail
  /-- It calls the contract, in which the payments meet these reactions, and goes
  on whether the call throws or not. -/
  | call (msg : Msg) (method : Method) (reactions : ℕ → Reaction) (next : Reaction)

/-- Every call that is made in a reaction is of a method that `q` allows. -/
def Reaction.All (q : Method → Prop) : Reaction → Prop
  | .done | .fail => True
  | .call _ method reactions next => q method ∧ (∀ i, (reactions i).All q) ∧ next.All q

theorem Reaction.All.imp {q q' : Method → Prop} (hq : ∀ method, q method → q' method)
    {reaction : Reaction} : reaction.All q → reaction.All q' := by
  induction reaction with
  | done | fail => exact fun _ => trivial
  | call msg method reactions next ihreactions ihnext =>
      rintro ⟨hmethod, hreactions, hnext⟩
      exact ⟨hq method hmethod, fun i => ihreactions i (hreactions i), ihnext hnext⟩

/-- The coins of a call arrive. -/
def World.arrive (amount : ℤ) (w : World) : World :=
  { w with balance := w.balance + amount }

/-- A call from within a payment, with a journal of its own. -/
def World.within (f : World → Option World) (w : World) : World :=
  match f { w with journal := [], callbacks := [] } with
  | some w' => { w' with
      journal := w.journal
      callbacks := w'.journal ++ w'.callbacks ++ w.callbacks }
  | none => w

/-- Run the reaction to a payment. -/
def react : Reaction → World → Option World
  | .done, w => some w
  | .fail, _ => none
  | .call msg method reactions next, w =>
      react next (w.within fun w =>
        main host (fun i => react (reactions i)) msg method (w.arrive msg.coinAmount))

/-- A step of the history of the contract: a call from outside, or coins that come
without a call. -/
inductive Step where
  | call (msg : Msg) (method : Method) (reactions : ℕ → Reaction)
  | reward (amount : ℕ)

/-- The contract after a step; a call that throws leaves no trace, and the journals
are those of the last call. -/
def step (w : World) : Step → World
  | .call msg method reactions =>
      let w := { w with journal := [], callbacks := [] }
      (main host (fun i => react host (reactions i)) msg method
        (w.arrive msg.coinAmount)).getD w
  | .reward amount => w.arrive amount

/-- The contract after each step of a history. -/
def states (w : World) (steps : List Step) : List World :=
  steps.scanl (step host) w

theorem foldl_mem_states (steps : List Step) (w : World) :
    steps.foldl (step host) w ∈ states host w steps := by
  induction steps generalizing w with
  | nil => exact List.mem_singleton_self w
  | cons st steps ih =>
      rw [states, List.scanl_cons]
      exact List.mem_cons_of_mem w (ih (step host w st))

/-! ## The beginning -/

/-- The configuration that `initialization` stores. -/
def initialConfig (logicContract : Address) : Config
  | .gasPrice => .number 1000
  | .baseReserve => .number 1000000
  | .committeeSize => .number 10
  | .kolSize => .number 21
  | .kolCandidateSize => .number 100
  | .kolMinPledge => .number 300000000000000
  | .validatorSize => .number 19
  | .validatorCandidateSize => .number 100
  | .validatorMinPledge => .number 300000000000000
  | .pledgeMagnification => .number 2
  | .passRate => .number (1 / 2)
  | .validPeriod => .number 2592000000000
  | .voteUnit => .number 1000000000
  | .rewardAllocationShare => .share 50 10 35 5
  | .logicContract => .address logicContract

/-- `initProposal`. -/
def initProposal (cfg : Config) (role : Role) (address : Address) : Proposal :=
  let time := deadline msg cfg
  let proposal : Proposal := { pledge := some 0, expiration := time, passTime := some time }
  if role = .committee then proposal
  else { proposal with rewardPool := some address, rewardRatio := some 0, node := some address }

/-- `initialization`, with the validators that `getValidators` returns, on an account
that had this balance before the call. -/
def initialization (logicContract : Address) (committee : List Address)
    (validators : List (Address × ℤ)) (balance : ℕ) : Option World := do
  let cfg := initialConfig logicContract
  assert (1 ≤ committee.length ∧ (committee.length : ℤ) ≤ cfg.int .committeeSize)
  assert (committee.all fun address => host.addressCheck address)
  let proposals := committee.foldl (fun proposals address =>
    proposals.insert (proposalKey .apply (.role .committee) address)
      (initProposal msg cfg .committee address)) ∅
  let proposals := validators.foldl (fun proposals row =>
    proposals.insert (proposalKey .apply (.role .validator) row.1)
      (initProposal msg cfg .validator row.1)) proposals
  let rows := validators.map fun row => (⟨row.1, row.2, some row.1⟩ : Candidate)
  some {
    storage :=
      { config := cfg
        stake := msg.coinAmount
        stakeWriter := .initialization
        valCands := sortRows rows
        kolCands := []
        valDist := validators.foldl (fun dist row => dist.insert row.1 ⟨0, row.1, 0⟩) ∅
        kolDist := ∅
        committee := committee
        proposals := proposals
        voters := ∅ }
    balance := balance + msg.coinAmount
    validators := validators }

/-! ## A small history -/

/-- A ledger without reserves on which every address is valid. -/
def sampleHost : Host where
  addressCheck _ := true
  passCount members _ := members / 2
  baseReserve := 0

/-- A call in which the accounts that are paid do nothing. -/
def plainCall (sender : Address) (timestamp : ℤ) (method : Method) : Step :=
  .call (plainMsg sender timestamp) method fun _ => .done

/-- A call with coins, in which nobody is paid. -/
def coinCall (sender : Address) (amount : ℕ) (timestamp : ℤ) (method : Method) : Step :=
  .call ⟨toCString sender, amount, timestamp, Int.natCast_nonneg amount,
    zero_not_mem_toCString sender⟩ method fun _ => .done

/-- The committee has two members, `[1]` and `[2]`; the validators are these. -/
def sampleWorld (validators : List (Address × ℤ)) : World :=
  (initialization sampleHost (plainMsg [1] 0) [9] [[1], [2]] validators 0).getD
    { storage := ⟨initialConfig [9], 0, .initialization, [], [], ∅, ∅, [], ∅, ∅⟩
      balance := 0
      validators := [] }

theorem initialization_sample (validators : List (Address × ℤ)) :
    initialization sampleHost (plainMsg [1] 0) [9] [[1], [2]] validators 0 =
      some (sampleWorld validators) :=
  rfl

end CegChain.Dpos
