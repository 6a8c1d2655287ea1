import CegChain.Contract.Validators
import CegChain.Lib.Totals
import Mathlib.Tactic.Linarith

/-!
# The contract can pay what it owes

The pledges, the votes and the rewards that are recorded are debts of the contract;
`all_stake` counts the coins set aside for them, and the account must hold as many.
A call takes coins into `all_stake` before it knows what they are for, pays before it
clears a reward, and distributes what the balance has grown by, so in between the
debts are off by the amount under way (`Books`).

The shares of a distribution are percentages.  `cfgValid` adds them up as doubles, and
a distribution takes each of them as it is printed; if the sum is 100 for the one and
not for the other, more may be recorded than there is.  With shares that do add up as
they are printed, the contract is solvent in every state of every history
(`solvent_states`).
-/

namespace CegChain.Dpos

open Layers Totals

variable {host : Host} {receive : Receive} {msg : Msg} {s s₁ s₂ : Run}

/-! ## The arithmetic of a distribution -/

/-- The rewards recorded in a list. -/
def Dists.rewards (dist : Dists) : ℤ :=
  total (fun _ entry => entry.reward) dist

/-- No reward is negative. -/
def Dists.Nonneg (dist : Dists) : Prop :=
  ∀ address entry, dist.lookup address = some entry → 0 ≤ entry.reward

theorem rewards_insert {dist : Dists} {address : Address} {entry : Dist}
    (hlookup : dist.lookup address = some entry) (entry' : Dist) :
    Dists.rewards (dist.insert address entry') =
      Dists.rewards dist - entry.reward + entry'.reward := by
  rw [Dists.rewards, total_insert, weight_of_lookup hlookup]
  rfl

theorem of_credit {dist dist' : Dists} {address : Address} {amount : ℤ}
    (hcredit : credit dist address amount = some dist') :
    Dists.rewards dist' = Dists.rewards dist + amount ∧
      (0 ≤ amount → Dists.Nonneg dist → Dists.Nonneg dist') := by
  obtain ⟨entry, hlookup, hcredit⟩ := of_bind hcredit
  obtain ⟨reward, hreward, hcredit⟩ := of_bind hcredit
  obtain rfl := Option.some.inj hcredit
  obtain rfl := of_int64Add hreward
  constructor
  · rw [rewards_insert hlookup]
    ring
  · intro hamount hnonneg
    exact forall_lookup_insert hnonneg (add_nonneg (hnonneg address entry hlookup) hamount)

theorem of_credit_foldlM {nodes : List Candidate} {amount : ℤ} {dist dist' : Dists}
    (hfold : nodes.foldlM (fun dist node => credit dist node.address amount) dist = some dist') :
    Dists.rewards dist' = Dists.rewards dist + nodes.length * amount ∧
      (0 ≤ amount → Dists.Nonneg dist → Dists.Nonneg dist') := by
  induction nodes generalizing dist with
  | nil =>
      obtain rfl := Option.some.inj hfold
      simp
  | cons node nodes ih =>
      rw [List.foldlM_cons] at hfold
      obtain ⟨dist₁, hfirst, hrest⟩ := of_bind hfold
      obtain ⟨hsum₁, hnonneg₁⟩ := of_credit hfirst
      obtain ⟨hsum₂, hnonneg₂⟩ := ih hrest
      constructor
      · rw [hsum₂, hsum₁, List.length_cons]
        push_cast
        ring
      · intro hamount hnonneg
        exact hnonneg₂ hamount (hnonneg₁ hamount hnonneg)

/-- What a distribution does not give to the nodes stays with `rest`. -/
theorem of_distribute {nodes : List Candidate} {allReward : ℤ} {dist dist' : Dists} {done : Bool}
    (hdist : distribute nodes allReward dist = some (done, dist')) :
    Dists.rewards dist' = Dists.rewards dist + (if done then allReward else 0) ∧
      (Dists.Nonneg dist → Dists.Nonneg dist') ∧ (done = false → nodes = []) := by
  unfold distribute at hdist
  split at hdist
  · cases hdist
    simp
  · rename_i top rest
    obtain ⟨reward, hreward, hdist⟩ := of_bind hdist
    obtain ⟨dist₁, hfold, hdist⟩ := of_bind hdist
    obtain ⟨left, hleft, hdist⟩ := of_bind hdist
    obtain ⟨dist₂, hcredit, hdist⟩ := of_bind hdist
    cases hdist
    obtain ⟨hpos, hall, rfl⟩ := of_int64Div hreward
    obtain ⟨-, -, rfl⟩ := of_int64Mod hleft
    obtain ⟨hsum₁, hnonneg₁⟩ := of_credit_foldlM hfold
    obtain ⟨hsum₂, hnonneg₂⟩ := of_credit hcredit
    refine ⟨?_, fun hnonneg => ?_, fun hdone => by cases hdone⟩
    · have hdivmod := Int.mul_ediv_add_emod allReward ((top :: rest).length : ℤ)
      rw [hsum₂, hsum₁, if_pos rfl]
      linarith
    · exact hnonneg₂ (Int.emod_nonneg _ hpos.ne') (hnonneg₁ (Int.ediv_nonneg hall hpos.le) hnonneg)

theorem done_of_head {nodes : List Candidate} {top : Candidate} {done : Bool}
    (hdone : done = false → nodes = []) (htop : nodes.head? = some top) : done = true := by
  cases done with
  | true => rfl
  | false =>
      rw [hdone rfl] at htop
      cases htop

theorem of_orAdd {done : Bool} {share rest r : ℤ} (h : orAdd done share rest = some r) :
    r = share + (if done then 0 else rest) := by
  unfold orAdd at h
  split at h
  · rename_i hdone
    rw [if_pos hdone, add_zero]
    exact (Option.some.inj h).symm
  · rename_i hdone
    rw [if_neg hdone]
    exact of_int64Add h

theorem of_shareOf {centi r : ℤ} {share : ℚ} (h : shareOf centi share = some r) :
    ∃ n, Number.int? share = some n ∧ r = centi * n := by
  obtain ⟨n, hn, hmul⟩ := Option.bind_eq_some_iff.mp h
  exact ⟨n, hn, of_int64Mul hmul⟩

/-- Shares that are percentages of a whole, as they are printed.  With one that is no integer
nothing is distributed. -/
def Value.Exact : Value → Prop
  | .share s₀ s₁ s₂ s₃ => ∀ n₀ ∈ Number.int? s₀, ∀ n₁ ∈ Number.int? s₁,
      ∀ n₂ ∈ Number.int? s₂, ∀ n₃ ∈ Number.int? s₃, n₀ + n₁ + n₂ + n₃ = 100
  | _ => True

/-- A percentage is printed with its digits. -/
theorem int?_natCast {n : ℕ} (hn : n ≤ 100) : Number.int? n = some (n : ℤ) :=
  @Number.int?_of_lt n (by rw [Int.natAbs_natCast]; omega)

theorem exact_of_sum {n₀ n₁ n₂ n₃ : ℕ} (hsum : n₀ + n₁ + n₂ + n₃ = 100) :
    (Value.share n₀ n₁ n₂ n₃).Exact := by
  simp only [Value.Exact, int?_natCast (by omega : n₀ ≤ 100), int?_natCast (by omega : n₁ ≤ 100),
    int?_natCast (by omega : n₂ ≤ 100), int?_natCast (by omega : n₃ ≤ 100)]
  rintro _ ⟨⟩ _ ⟨⟩ _ ⟨⟩ _ ⟨⟩
  exact_mod_cast hsum

/-- The steps of a distribution: the shares of the four groups, what each of them gets in the end,
and the rewards in between. -/
inductive Calculated (cfg : Config) (elect : Elect) (reward : ℤ) (valDist kolDist : Dists) : Prop
  | steps {s₀ s₁ s₂ s₃ : ℚ} {rVF rVC rKF rKC rKF' rVF' rVF'' : ℤ} {done₁ done₂ done₃ done₄ : Bool}
      {kolDist₁ valDist₁ valDist₂ : Dists} {topOne : Candidate}
      (hshare : cfg .rewardAllocationShare = .share s₀ s₁ s₂ s₃) (hreward : 0 ≤ reward)
      (hVF : shareOf (reward / 100) s₀ = some rVF) (hVC : shareOf (reward / 100) s₁ = some rVC)
      (hKF : shareOf (reward / 100) s₂ = some rKF) (hKC : shareOf (reward / 100) s₃ = some rKC)
      (hdist₁ : distribute (elect.kolCands.drop (cfg.int .kolSize).toNat) rKC elect.kolDist =
        some (done₁, kolDist₁))
      (hKF' : orAdd done₁ rKF rKC = some rKF')
      (hdist₂ : distribute elect.kols rKF' kolDist₁ = some (done₂, kolDist))
      (hVF' : orAdd done₂ rVF rKF' = some rVF')
      (hdist₃ : distribute (elect.valCands.drop (cfg.int .validatorSize).toNat) rVC
        elect.valDist = some (done₃, valDist₁))
      (hVF'' : orAdd done₃ rVF' rVC = some rVF'')
      (hdist₄ : distribute elect.validators rVF'' valDist₁ = some (done₄, valDist₂))
      (htop : elect.validators.head? = some topOne)
      (hcredit : credit valDist₂ topOne.address (reward % 100) = some valDist) :
      Calculated cfg elect reward valDist kolDist

theorem calculated_of_calculate {cfg : Config} {elect : Elect} {reward : ℤ}
    {valDist kolDist : Dists} (hcalc : calculate cfg elect reward = some (valDist, kolDist)) :
    Calculated cfg elect reward valDist kolDist := by
  unfold calculate at hcalc
  split at hcalc
  · rename_i s₀ s₁ s₂ s₃ hshare
    obtain ⟨centi, hcenti, hcalc⟩ := of_bind hcalc
    obtain ⟨rVF, hVF, hcalc⟩ := of_bind hcalc
    obtain ⟨rVC, hVC, hcalc⟩ := of_bind hcalc
    obtain ⟨rKF, hKF, hcalc⟩ := of_bind hcalc
    obtain ⟨rKC, hKC, hcalc⟩ := of_bind hcalc
    obtain ⟨⟨done₁, kolDist₁⟩, hdist₁, hcalc⟩ := of_bind hcalc
    obtain ⟨rKF', hKF', hcalc⟩ := of_bind hcalc
    obtain ⟨⟨done₂, kolDist₂⟩, hdist₂, hcalc⟩ := of_bind hcalc
    obtain ⟨rVF', hVF', hcalc⟩ := of_bind hcalc
    obtain ⟨⟨done₃, valDist₁⟩, hdist₃, hcalc⟩ := of_bind hcalc
    obtain ⟨rVF'', hVF'', hcalc⟩ := of_bind hcalc
    obtain ⟨⟨done₄, valDist₂⟩, hdist₄, hcalc⟩ := of_bind hcalc
    obtain ⟨left, hleft, hcalc⟩ := of_bind hcalc
    obtain ⟨topOne, htop, hcalc⟩ := of_bind hcalc
    obtain ⟨valDist₃, hcredit, hcalc⟩ := of_bind hcalc
    cases hcalc
    obtain ⟨-, -, rfl⟩ := of_int64Div hcenti
    obtain ⟨-, hreward, rfl⟩ := of_int64Mod hleft
    exact .steps hshare hreward hVF hVC hKF hKC hdist₁ hKF' hdist₂ hVF' hdist₃ hVF'' hdist₄ htop
      hcredit
  · cases hcalc

/-- The shares of the groups are all but the remainder, if they add up. -/
theorem sum_shares {reward rVF rVC rKF rKC : ℤ} {s₀ s₁ s₂ s₃ : ℚ}
    (hVF : shareOf (reward / 100) s₀ = some rVF) (hVC : shareOf (reward / 100) s₁ = some rVC)
    (hKF : shareOf (reward / 100) s₂ = some rKF) (hKC : shareOf (reward / 100) s₃ = some rKC)
    (hexact : (Value.share s₀ s₁ s₂ s₃).Exact) :
    rVF + rVC + rKF + rKC = reward / 100 * 100 := by
  obtain ⟨n₀, hn₀, rfl⟩ := of_shareOf hVF
  obtain ⟨n₁, hn₁, rfl⟩ := of_shareOf hVC
  obtain ⟨n₂, hn₂, rfl⟩ := of_shareOf hKF
  obtain ⟨n₃, hn₃, rfl⟩ := of_shareOf hKC
  rw [← mul_add, ← mul_add, ← mul_add, add_right_comm (n₀ + n₁), add_right_comm (n₀ + n₁),
    hexact n₀ hn₀ n₁ hn₁ n₂ hn₂ n₃ hn₃]

/-- **A distribution records what there is to distribute**, if the shares add up. -/
theorem of_calculate {cfg : Config} {elect : Elect} {reward : ℤ} {valDist kolDist : Dists}
    (hcalc : calculate cfg elect reward = some (valDist, kolDist)) :
    ((cfg .rewardAllocationShare).Exact → Dists.rewards valDist + Dists.rewards kolDist =
        Dists.rewards elect.valDist + Dists.rewards elect.kolDist + reward) ∧
      (Dists.Nonneg elect.valDist → Dists.Nonneg valDist) ∧
      (Dists.Nonneg elect.kolDist → Dists.Nonneg kolDist) := by
  obtain ⟨hshare, -, hVF, hVC, hKF, hKC, hdist₁, hKF', hdist₂, hVF', hdist₃, hVF'', hdist₄, htop,
    hcredit⟩ := calculated_of_calculate hcalc
  obtain ⟨hsum₁, hnonneg₁, -⟩ := of_distribute hdist₁
  obtain ⟨hsum₂, hnonneg₂, -⟩ := of_distribute hdist₂
  obtain ⟨hsum₃, hnonneg₃, -⟩ := of_distribute hdist₃
  obtain ⟨hsum₄, hnonneg₄, hdone₄⟩ := of_distribute hdist₄
  obtain ⟨hsum₅, hnonneg₅⟩ := of_credit hcredit
  refine ⟨fun hexact => ?_, fun hnonneg => ?_, fun hnonneg => hnonneg₂ (hnonneg₁ hnonneg)⟩
  · rw [hshare] at hexact
    have hshares := sum_shares hVF hVC hKF hKC hexact
    have hrest := Int.mul_ediv_add_emod reward 100
    -- there is a validator, or the remainder would have nobody to go to
    rw [if_pos (done_of_head hdone₄ htop)] at hsum₄
    rw [hsum₅, hsum₄, hsum₃, hsum₂, hsum₁, of_orAdd hVF'', of_orAdd hVF', of_orAdd hKF']
    split_ifs <;> linarith
  · exact hnonneg₅ (Int.emod_nonneg _ (by norm_num)) (hnonneg₄ (hnonneg₃ hnonneg))

/-! ## The books -/

/-- What the books are about: the records, and the coins that cover them. -/
structure Sheet where
  config : Config
  cfg : Config
  stake : ℤ
  allStake : ℤ
  balance : ℤ
  proposals : Table ProposalKey Proposal
  voters : Table VoterKey ℤ
  valDist : Dists
  kolDist : Dists

/-- The records of a call under way, with the rewards it will leave. -/
def Run.sheet (s : Run) : Sheet where
  config := s.world.storage.config
  cfg := s.cfg
  stake := s.world.storage.stake
  allStake := s.allStake
  balance := s.world.balance
  proposals := s.world.storage.proposals
  voters := s.world.storage.voters
  valDist := if s.distributed then s.elect.valDist else s.world.storage.valDist
  kolDist := if s.distributed then s.elect.kolDist else s.world.storage.kolDist

/-- The pledge of a proposal. -/
def Proposal.amount (proposal : Proposal) : ℤ :=
  proposal.pledge.getD 0

/-- A proposal that may be stored: the pledge is not negative, and shares that are
proposed add up. -/
structure Proposal.Sound (proposal : Proposal) : Prop where
  amount : 0 ≤ proposal.amount
  exact : ∀ value, proposal.value = some value → value.Exact

/-- All that is owed. -/
def Sheet.debts (b : Sheet) : ℤ :=
  total (fun _ proposal => proposal.amount) b.proposals + total (fun _ votes => votes) b.voters +
    (Dists.rewards b.valDist + Dists.rewards b.kolDist)

/-- The debts are covered when `extra` is added to them. -/
structure Books (extra : ℤ) (b : Sheet) : Prop where
  covered : b.debts + extra ≤ b.allStake
  stored : b.stake = b.allStake
  backed : b.allStake ≤ b.balance
  sound : ∀ key proposal, b.proposals.lookup key = some proposal → proposal.Sound
  votes : ∀ key votes, b.voters.lookup key = some votes → 0 ≤ votes
  valDist : Dists.Nonneg b.valDist
  kolDist : Dists.Nonneg b.kolDist
  cfg : (b.cfg .rewardAllocationShare).Exact
  config : (b.config .rewardAllocationShare).Exact

variable {extra : ℤ}

theorem Books.mono {b : Sheet} {extra' : ℤ} (hbooks : Books extra b) (hle : extra' ≤ extra) :
    Books extra' b :=
  { hbooks with covered := (add_le_add_right hle _).trans hbooks.covered }

theorem Books.debts_nonneg {b : Sheet} (hbooks : Books extra b) : 0 ≤ b.debts := by
  have hproposals : 0 ≤ total (fun _ proposal => proposal.amount) b.proposals :=
    total_nonneg fun key proposal h => (hbooks.sound key proposal h).amount
  have hvotes : 0 ≤ total (fun _ votes => votes) b.voters :=
    total_nonneg hbooks.votes
  have hval : 0 ≤ Dists.rewards b.valDist := total_nonneg hbooks.valDist
  have hkol : 0 ≤ Dists.rewards b.kolDist := total_nonneg hbooks.kolDist
  rw [Sheet.debts]
  positivity

/-- The pledge that is stored under a key. -/
def Run.pledge (key : ProposalKey) (s : Run) : ℤ :=
  weight (fun _ proposal => proposal.amount) s.proposals key

theorem pledge_of_lookup {key : ProposalKey} {proposal : Proposal}
    (hlookup : s.proposals.lookup key = some proposal) : s.pledge key = proposal.amount :=
  weight_of_lookup hlookup

/-- The rule for a change of the proposals. -/
theorem Books.setProposals {b : Sheet} {proposals : Table ProposalKey Proposal} {extra' : ℤ}
    (hbooks : Books extra b)
    (htotal : total (fun _ proposal => proposal.amount) proposals + extra' ≤
      total (fun _ proposal => proposal.amount) b.proposals + extra)
    (hsound : ∀ key proposal, proposals.lookup key = some proposal → proposal.Sound) :
    Books extra' { b with proposals := proposals } := by
  refine { hbooks with covered := ?_, sound := hsound }
  have hcovered := hbooks.covered
  rw [Sheet.debts] at hcovered ⊢
  linarith

/-- The rule for a change of the votes. -/
theorem Books.setVoters {b : Sheet} {voters : Table VoterKey ℤ} {extra' : ℤ}
    (hbooks : Books extra b)
    (htotal : total (fun _ votes => votes) voters + extra' ≤
      total (fun _ votes => votes) b.voters + extra)
    (hvotes : ∀ key votes, voters.lookup key = some votes → 0 ≤ votes) :
    Books extra' { b with voters := voters } := by
  refine { hbooks with covered := ?_, votes := hvotes }
  have hcovered := hbooks.covered
  rw [Sheet.debts] at hcovered ⊢
  linarith

/-- The rule for a change of the rewards. -/
theorem Books.setDists {b : Sheet} {valDist kolDist : Dists} {extra' : ℤ} (hbooks : Books extra b)
    (hrewards : Dists.rewards valDist + Dists.rewards kolDist + extra' ≤
      Dists.rewards b.valDist + Dists.rewards b.kolDist + extra)
    (hval : Dists.Nonneg valDist) (hkol : Dists.Nonneg kolDist) :
    Books extra' { b with valDist := valDist, kolDist := kolDist } := by
  refine { hbooks with covered := ?_, valDist := hval, kolDist := hkol }
  have hcovered := hbooks.covered
  rw [Sheet.debts] at hcovered ⊢
  linarith

theorem books_saveProposal (key : ProposalKey) (proposal : Proposal)
    (hbooks : Books extra s.sheet) (hsound : proposal.Sound) :
    Books (extra + s.pledge key - proposal.amount) (s.saveProposal key proposal).sheet := by
  refine hbooks.setProposals ?_ (forall_lookup_insert hbooks.sound hsound)
  have htotal := @total_insert _ _ _ (fun _ proposal => proposal.amount) s.proposals key proposal
  exact (congrArg (· + _) htotal).trans_le (le_of_eq (by rw [Run.pledge]; ring!))

/-- A proposal is stored again with the same pledge. -/
theorem books_saveProposal_same {key : ProposalKey} {old proposal : Proposal}
    (hbooks : Books extra s.sheet) (hlookup : s.proposals.lookup key = some old)
    (hpledge : proposal.pledge = old.pledge)
    (hexact : ∀ value, proposal.value = some value → value.Exact) :
    Books extra (s.saveProposal key proposal).sheet := by
  have hamount : proposal.amount = old.amount := by rw [Proposal.amount, Proposal.amount, hpledge]
  have hold := hbooks.sound key old hlookup
  have hsave := books_saveProposal key proposal hbooks ⟨hamount ▸ hold.amount, hexact⟩
  rw [pledge_of_lookup hlookup, hamount, add_sub_cancel_right] at hsave
  exact hsave

theorem books_delProposal (key : ProposalKey) (hbooks : Books extra s.sheet) :
    Books (extra + s.pledge key) (s.delProposal key).sheet := by
  refine hbooks.setProposals ?_ (forall_lookup_erase key hbooks.sound)
  have htotal := @total_erase _ _ _ (fun _ proposal => proposal.amount) s.proposals key
  exact (congrArg (· + _) htotal).trans_le (le_of_eq (by rw [Run.pledge]; ring!))

theorem pledge_nonneg (key : ProposalKey) (hbooks : Books extra s.sheet) : 0 ≤ s.pledge key := by
  rw [Run.pledge]
  cases hlookup : s.proposals.lookup key with
  | none => exact (weight_of_none hlookup).ge
  | some proposal =>
      rw [weight_of_lookup hlookup]
      exact (hbooks.sound key proposal hlookup).amount

/-- A proposal is dropped, and its pledge with it. -/
theorem books_delProposal_le (key : ProposalKey) (hbooks : Books extra s.sheet) :
    Books extra (s.delProposal key).sheet :=
  (books_delProposal key hbooks).mono (le_add_of_nonneg_right (pledge_nonneg key hbooks))

/-! ## Candidates -/

/-- The rewards in `elect` are those that the call will leave. -/
def Run.Loaded (s : Run) : Prop :=
  s.sheet.valDist = s.elect.valDist ∧ s.sheet.kolDist = s.elect.kolDist

/-- `electInit` has run, and no coins have moved since. -/
structure Run.Ready (s : Run) : Prop where
  loaded : s.Loaded
  balance : s.elect.balance = s.world.balance

theorem loaded_of_distributed (hdistributed : s.distributed = true) : s.Loaded :=
  ⟨if_pos hdistributed, if_pos hdistributed⟩

/-- The rewards and the balance are read, before the call has changed any of them. -/
theorem books_electInit (hbooks : Books extra s.sheet) (hdistributed : s.distributed = false) :
    (electInit s).Ready ∧ Books extra (electInit s).sheet := by
  have hsheet : (electInit s).sheet = s.sheet := by
    simp [Run.sheet, electInit, hdistributed]
  refine ⟨⟨⟨?_, ?_⟩, rfl⟩, hsheet ▸ hbooks⟩
  · exact if_neg (by simp [electInit, hdistributed])
  · exact if_neg (by simp [electInit, hdistributed])

/-- **What the balance has grown by becomes rewards.** -/
theorem books_rewardDistribution (hready : s.Ready) (hbooks : Books extra s.sheet)
    (hdist : rewardDistribution s = some s₁) : Books extra s₁.sheet ∧ s₁.Ready := by
  obtain ⟨reward, hreward, hdist⟩ := of_bind hdist
  split at hdist
  · obtain rfl := Option.some.inj hdist
    exact ⟨hbooks, hready⟩
  · obtain ⟨⟨valDist, kolDist⟩, hcalc, hdist⟩ := of_bind hdist
    obtain rfl := Option.some.inj hdist
    obtain rfl := of_int64Sub hreward
    obtain ⟨hsum, hval, hkol⟩ := of_calculate hcalc
    obtain ⟨hvalDist, hkolDist⟩ := hready.loaded
    refine ⟨{ hbooks with
      covered := ?_
      stored := rfl
      backed := hready.balance.le
      valDist := hval (hvalDist ▸ hbooks.valDist)
      kolDist := hkol (hkolDist ▸ hbooks.kolDist) }, loaded_of_distributed rfl, hready.balance⟩
    have hcovered := hbooks.covered
    rw [Sheet.debts, hvalDist, hkolDist] at hcovered
    change total _ _ + total _ _ + (Dists.rewards valDist + Dists.rewards kolDist) + extra ≤
      s.elect.balance
    change total _ _ + total _ _ + _ + extra ≤ s.allStake at hcovered
    rw [hsum hbooks.cfg]
    linarith!

theorem sheet_saveElection (role : Role) (sorted saved : List Candidate) (elected : Bool)
    (s : Run) : (saveElection role sorted saved elected s).sheet = s.sheet := by
  unfold saveElection
  cases role <;> cases elected <;> rfl

theorem nonneg_dist (role : Role) (hloaded : s.Loaded) (hbooks : Books extra s.sheet) :
    Dists.Nonneg (s.dist role) := by
  unfold Run.dist
  split
  · exact hloaded.1 ▸ hbooks.valDist
  · exact hloaded.2 ▸ hbooks.kolDist

/-- The rewards of a role change. -/
theorem books_setDist {role : Role} {dist : Dists} {extra' : ℤ} (hloaded : s.Loaded)
    (hbooks : Books extra s.sheet)
    (hrewards : Dists.rewards dist + extra' ≤ Dists.rewards (s.dist role) + extra)
    (hnonneg : Dists.Nonneg dist) : Books extra' (s.setDist role dist).sheet := by
  obtain ⟨hvalDist, hkolDist⟩ := hloaded
  by_cases hrole : role = .validator
  · subst hrole
    refine hbooks.setDists ?_ hnonneg (hkolDist ▸ hbooks.kolDist)
    rw [hvalDist, hkolDist]
    change Dists.rewards dist + Dists.rewards s.elect.kolDist + extra' ≤ _
    change _ ≤ Dists.rewards s.elect.valDist + extra at hrewards
    linarith
  · simp only [Run.dist, if_neg hrole] at hrewards
    simp only [Run.setDist, if_neg hrole]
    refine hbooks.setDists ?_ (hvalDist ▸ hbooks.valDist) hnonneg
    rw [hvalDist, hkolDist]
    change Dists.rewards s.elect.valDist + Dists.rewards dist + extra' ≤ _
    linarith

/-- A new row for rewards is empty. -/
theorem books_addDist (role : Role) (address : Address) (proposal : Proposal)
    (hloaded : s.Loaded) (hbooks : Books extra s.sheet) :
    Books extra (addDist role address proposal s).sheet := by
  unfold addDist
  split
  · exact hbooks
  · rename_i hlookup
    refine books_setDist hloaded hbooks ?_
      (forall_lookup_insert (nonneg_dist role hloaded hbooks) le_rfl)
    rw [Dists.rewards, total_insert, weight_of_none hlookup, sub_zero, add_zero]
    rfl

theorem books_addCandidates {role : Role} {address : Address} {proposal : Proposal} {maxSize : ℕ}
    (hready : s.Ready) (hbooks : Books extra s.sheet)
    (hadd : addCandidates role address proposal maxSize s = some s₁) : Books extra s₁.sheet := by
  obtain ⟨pledge, -, hadd⟩ := of_bind hadd
  obtain ⟨stake, -, hadd⟩ := of_bind hadd
  split at hadd
  · obtain rfl := Option.some.inj hadd
    exact hbooks
  · obtain ⟨s₂, hdist, hadd⟩ := of_bind hadd
    obtain ⟨-, hadd⟩ := of_assert hadd
    obtain rfl := Option.some.inj hadd
    obtain ⟨hbooks₂, hready₂⟩ := books_rewardDistribution hready hbooks hdist
    rw [sheet_saveElection]
    exact books_addDist role address proposal hready₂.loaded hbooks₂

theorem books_deleteCandidate {role : Role} {address : Address} (hready : s.Ready)
    (hbooks : Books extra s.sheet) (hdelete : deleteCandidate role address s = some s₁) :
    Books extra s₁.sheet := by
  unfold deleteCandidate at hdelete
  split at hdelete
  · obtain ⟨s₂, hdist, hdelete⟩ := of_bind hdelete
    obtain rfl := Option.some.inj hdelete
    obtain ⟨hbooks₂, -⟩ := books_rewardDistribution hready hbooks hdist
    rw [sheet_saveElection]
    exact hbooks₂
  · obtain rfl := Option.some.inj hdelete
    exact hbooks

theorem books_updateStake {role : Role} {found : Candidate} {formalSize amount : ℤ}
    (hready : s.Ready) (hbooks : Books extra s.sheet)
    (hupdate : updateStake role found formalSize amount s = some s₁) : Books extra s₁.sheet := by
  obtain ⟨stake, -, hupdate⟩ := of_bind hupdate
  dsimp only at hupdate
  generalize hsorted : sortRows _ = sorted at hupdate
  have hsaved : ((s.setCandidates role sorted).saveCandidates role sorted).sheet = s.sheet := by
    cases role <;> rfl
  have hready' : ((s.setCandidates role sorted).saveCandidates role sorted).Ready := by
    refine ⟨?_, ?_⟩
    · rw [Run.Loaded, hsaved]
      cases role <;> exact hready.loaded
    · cases role <;> exact hready.balance
  split at hupdate
  · obtain ⟨s₂, hdist, hupdate⟩ := of_bind hupdate
    obtain ⟨hbooks₂, -⟩ := books_rewardDistribution hready' (hsaved ▸ hbooks) hdist
    split at hupdate
    · obtain rfl := Option.some.inj hupdate
      exact hbooks₂
    · obtain rfl := Option.some.inj hupdate
      exact hbooks₂
  · obtain rfl := Option.some.inj hupdate
    exact hsaved ▸ hbooks

/-! ## Payments -/

/-- The accounts that are paid do not call the contract. -/
def QuietReceive (receive : Receive) : Prop :=
  ∀ i w w', receive i w = some w' → w' = w

/-- What a payment does to a call. -/
structure Paid (amount : ℤ) (s s₁ : Run) : Prop where
  elect : s₁.elect = s.elect
  distributed : s₁.distributed = s.distributed
  valDist : s₁.sheet.valDist = s.sheet.valDist
  kolDist : s₁.sheet.kolDist = s.sheet.kolDist
  books : ∀ {extra : ℤ}, Books extra s.sheet → Books (extra - amount) s₁.sheet

theorem Paid.trans {a b : ℤ} (h₁ : Paid a s s₁) (h₂ : Paid b s₁ s₂) : Paid (a + b) s s₂ where
  elect := h₂.elect.trans h₁.elect
  distributed := h₂.distributed.trans h₁.distributed
  valDist := h₂.valDist.trans h₁.valDist
  kolDist := h₂.kolDist.trans h₁.kolDist
  books hbooks := by
    have hboth := h₂.books (h₁.books hbooks)
    rwa [sub_sub] at hboth

theorem Paid.loaded {amount : ℤ} (hpaid : Paid amount s s₁) (hloaded : s.Loaded) : s₁.Loaded := by
  rw [Run.Loaded, hpaid.valDist, hpaid.kolDist, hpaid.elect]
  exact hloaded

theorem Paid.dist_eq {amount : ℤ} (hpaid : Paid amount s s₁) (role : Role) :
    s₁.dist role = s.dist role := by
  rw [Run.dist, Run.dist, hpaid.elect]

theorem paid_transferCoin (hquiet : QuietReceive receive) {dest : Address} {amount : ℤ}
    {remark : Remark} (htransfer : transferCoin host receive dest amount remark s = some s₁) :
    Paid amount s s₁ := by
  rcases transferCoin_cases htransfer with ⟨hzero, rfl⟩ | ⟨w, hw, -, -, rfl⟩
  · refine ⟨rfl, rfl, rfl, rfl, fun hbooks => ?_⟩
    rwa [hzero, sub_zero]
  · obtain rfl := hquiet _ _ _ hw
    refine ⟨rfl, rfl, rfl, rfl, fun {extra} hbooks => { hbooks with
      covered := ?_, stored := rfl, backed := sub_le_sub_right hbooks.backed amount }⟩
    have hcovered : s.sheet.debts + extra ≤ s.allStake := hbooks.covered
    change s.sheet.debts + (extra - amount) ≤ s.allStake - amount
    linarith

/-- The two parts of a reward are the whole of it. -/
theorem paid_payAward (hquiet : QuietReceive receive) {payee : Payee} {entry : Dist}
    (hpay : payAward host receive payee entry s = some s₁) : Paid entry.reward s s₁ := by
  unfold payAward at hpay
  split at hpay
  · exact paid_transferCoin hquiet (of_assert hpay).2
  · split at hpay
    · exact paid_transferCoin hquiet hpay
    · obtain ⟨onePercent, -, hpay⟩ := of_bind hpay
      obtain ⟨dividend, -, hpay⟩ := of_bind hpay
      obtain ⟨s₂, hfirst, hpay⟩ := of_bind hpay
      obtain ⟨reserve, hreserve, hsecond⟩ := of_bind hpay
      have hboth := (paid_transferCoin hquiet hfirst).trans
        (paid_transferCoin hquiet (of_assert hsecond).2)
      rwa [of_int64Sub hreserve, add_sub_cancel] at hboth

theorem books_award (hquiet : QuietReceive receive) {role : Role} {payee : Payee}
    (hloaded : s.Loaded) (hbooks : Books extra s.sheet)
    (haward : award host receive role payee s = some s₁) :
    Books extra s₁.sheet ∧ s₁.Loaded := by
  unfold award at haward
  split at haward
  · obtain rfl := Option.some.inj haward
    exact ⟨hbooks, hloaded⟩
  · rename_i entry hlookup
    obtain ⟨s₂, hpay, haward⟩ := of_bind haward
    have hpaid := paid_payAward hquiet hpay
    have hloaded₂ := hpaid.loaded hloaded
    have hbooks₂ := hpaid.books hbooks
    rw [← hpaid.dist_eq role] at hlookup
    have hnonneg := nonneg_dist role hloaded₂ hbooks₂
    have hzero : Dists.rewards ((s₂.dist role).insert payee.name { entry with reward := 0 }) =
        Dists.rewards (s₂.dist role) - entry.reward := by
      rw [rewards_insert hlookup, add_zero]
    dsimp only at haward
    split at haward
    · obtain rfl := Option.some.inj haward
      refine ⟨books_setDist hloaded₂ hbooks₂ ?_ (forall_lookup_insert hnonneg le_rfl),
        loaded_of_distributed rfl⟩
      rw [hzero]
      linarith
    · obtain rfl := Option.some.inj haward
      refine ⟨books_setDist hloaded₂ hbooks₂ ?_
        (forall_lookup_erase payee.name (forall_lookup_insert hnonneg le_rfl)),
        loaded_of_distributed rfl⟩
      rw [Dists.rewards, total_erase, weight_of_lookup (AList.lookup_insert _), sub_zero,
        ← Dists.rewards, hzero]
      linarith

theorem books_extract (hquiet : QuietReceive receive) {list : Option (List Payee)}
    (hdistributed : s.distributed = false) (hbooks : Books extra s.sheet)
    (hextract : extract host receive msg list s = some s₁) : Books extra s₁.sheet := by
  have hboth : ∀ {s s₁ : Run} {payee : Payee}, Books extra s.sheet ∧ s.Loaded →
      (award host receive .validator payee s).bind (award host receive .kol payee) =
        some s₁ → Books extra s₁.sheet ∧ s₁.Loaded := by
    rintro s s₁ payee ⟨hbooks, hloaded⟩ haward
    obtain ⟨s₂, hfirst, hsecond⟩ := Option.bind_eq_some_iff.mp haward
    obtain ⟨hbooks₂, hloaded₂⟩ := books_award hquiet hloaded hbooks hfirst
    exact books_award hquiet hloaded₂ hbooks₂ hsecond
  obtain ⟨s₂, hdist, hextract⟩ := of_bind hextract
  obtain ⟨hready, hbooks'⟩ := books_electInit hbooks hdistributed
  obtain ⟨hbooks₂, hready₂⟩ := books_rewardDistribution hready hbooks' hdist
  dsimp only at hextract
  split at hextract
  · exact (hboth ⟨hbooks₂, hready₂.loaded⟩ hextract).1
  · obtain ⟨-, hextract⟩ := of_assert hextract
    exact (Runs.foldlM_invariant hboth ⟨hbooks₂, hready₂.loaded⟩ hextract).1

/-! ## The methods -/

theorem books_apply {role : Role} {pool : Option Address} {ratio : Option ℤ}
    {node : Option Address} (hbooks : Books msg.coinAmount s.sheet)
    (happly : apply host msg role pool ratio node s = some s₁) : Books 0 s₁.sheet := by
  obtain ⟨hnone, happly⟩ := of_assert happly
  obtain ⟨-, -, happly⟩ := of_bind happly
  obtain ⟨proposal, hproposal, happly⟩ := of_bind happly
  obtain rfl := Option.some.inj happly
  have hfields : proposal.pledge = some msg.coinAmount ∧ proposal.value = none := by
    unfold applicationProposal at hproposal
    dsimp only at hproposal
    split at hproposal
    · obtain rfl := Option.some.inj hproposal
      exact ⟨rfl, rfl⟩
    · obtain ⟨-, hproposal⟩ := of_assert hproposal
      obtain ⟨-, hproposal⟩ := of_assert hproposal
      split at hproposal
      · obtain rfl := Option.some.inj hproposal
        exact ⟨rfl, rfl⟩
      · obtain ⟨-, -, hproposal⟩ := of_bind hproposal
        obtain rfl := Option.some.inj hproposal
        exact ⟨rfl, rfl⟩
  have hamount : proposal.amount = msg.coinAmount := by
    rw [Proposal.amount, hfields.1, Option.getD_some]
  refine (books_saveProposal ⟨.apply, .role role, msg.sender⟩ proposal hbooks
    ⟨hamount ▸ msg.nonneg, fun value hvalue => ?_⟩).mono ?_
  · rw [hfields.2] at hvalue
    cases hvalue
  · rw [hamount, Run.pledge, weight_of_none hnone]
    linarith

/-- A proposal with a larger pledge is stored. -/
theorem books_append {role : Role} (hdistributed : s.distributed = false)
    (hbooks : Books msg.coinAmount s.sheet) (happend : append msg role s = some s₁) :
    Books 0 s₁.sheet := by
  obtain ⟨proposal, hlookup, happend⟩ := of_bind happend
  obtain ⟨-, happend⟩ := of_assert happend
  obtain ⟨odd, -, happend⟩ := of_bind happend
  obtain ⟨-, happend⟩ := of_assert happend
  obtain ⟨old, hold, happend⟩ := of_bind happend
  obtain ⟨pledge, hpledge, happend⟩ := of_bind happend
  obtain rfl := of_int64Add hpledge
  have hamount : proposal.amount = old := by rw [Proposal.amount, hold, Option.getD_some]
  have hsound := hbooks.sound _ _ hlookup
  have hsave := books_saveProposal ⟨.apply, .role role, msg.sender⟩
    { proposal with pledge := some (old + msg.coinAmount) } hbooks
    ⟨add_nonneg (hamount ▸ hsound.amount) msg.nonneg, hsound.exact⟩
  have hsave' := hsave.mono (show (0 : ℤ) ≤ _ by
    rw [pledge_of_lookup hlookup, hamount]
    change 0 ≤ msg.coinAmount + old - (old + msg.coinAmount)
    linarith)
  dsimp only at happend
  split at happend
  · obtain rfl := Option.some.inj happend
    exact hsave'
  · obtain ⟨-, happend⟩ := of_assert happend
    obtain ⟨hready, hbooks'⟩ := books_electInit hsave' hdistributed
    split at happend
    · exact books_addCandidates hready hbooks' happend
    · obtain ⟨stake, -, hupdate⟩ := of_bind happend
      exact books_updateStake hready hbooks' hupdate

theorem books_penalty {evil : Address} {role : Role} (hbooks : Books extra s.sheet)
    (hpenalty : penalty evil role s = some s₁) : Books extra s₁.sheet := by
  obtain ⟨proposal, -, rfl⟩ := Option.map_eq_some_iff.mp hpenalty
  exact books_delProposal_le _ hbooks

/-- The shares that pass were proposed before. -/
theorem books_updateCfg {key : ProposalKey} {proposal : Proposal} {value : Value} {item : Item}
    (hbooks : Books extra s.sheet) (hlookup : s.proposals.lookup key = some proposal)
    (hvalue : proposal.value = some value) : Books extra (updateCfg key value item s).sheet := by
  have hdel := books_delProposal_le key hbooks
  have hvalid := (hbooks.sound key proposal hlookup).exact value hvalue
  have hexact : (Function.update s.cfg item value .rewardAllocationShare).Exact := by
    by_cases hitem : Item.rewardAllocationShare = item
    · rw [← hitem, Function.update_self]
      exact hvalid
    · rw [Function.update_of_ne hitem]
      exact hbooks.cfg
  unfold updateCfg
  dsimp only
  split
  · exact { hdel with cfg := hexact, config := hexact }
  · exact { hdel with cfg := hexact, config := hexact }

theorem books_passIn {key : ProposalKey} {old proposal : Proposal} {role : Role}
    {address : Address} (hdistributed : s.distributed = false) (hbooks : Books extra s.sheet)
    (hlookup : s.proposals.lookup key = some old) (hpledge : proposal.pledge = old.pledge)
    (hvalue : proposal.value = old.value)
    (hpass : passIn msg key proposal role address s = some s₁) : Books extra s₁.sheet := by
  have hsave : Books extra
      (s.saveProposal key { proposal with passTime := some msg.timestamp }).sheet :=
    books_saveProposal_same hbooks hlookup hpledge
      fun value h => (hbooks.sound key old hlookup).exact value (hvalue ▸ h)
  unfold passIn at hpass
  dsimp only at hpass
  split at hpass
  · split at hpass
    · obtain rfl := Option.some.inj hpass
      exact hsave
    · obtain rfl := Option.some.inj hpass
      exact hsave
  · obtain ⟨hready, hbooks'⟩ := books_electInit hsave hdistributed
    exact books_addCandidates hready hbooks' hpass

theorem books_passOut {key : ProposalKey} {role : Role} {address : Address}
    (hdistributed : s.distributed = false) (hbooks : Books extra s.sheet)
    (hpass : passOut key role address s = some s₁) : Books extra s₁.sheet := by
  have hdel := books_delProposal_le key hbooks
  unfold passOut at hpass
  dsimp only at hpass
  split at hpass
  · obtain ⟨-, hpass⟩ := of_assert hpass
    obtain rfl := Option.some.inj hpass
    exact hdel
  · obtain ⟨s₂, hdelete, hpenalty⟩ := of_bind hpass
    obtain ⟨hready, hbooks'⟩ := books_electInit hdel hdistributed
    exact books_penalty (books_deleteCandidate hready hbooks' hdelete) hpenalty

theorem books_approve {operate : Motion} {content : Content} {address : Address}
    (hdistributed : s.distributed = false) (hbooks : Books extra s.sheet)
    (happrove : approve host msg operate content address s = some s₁) : Books extra s₁.sheet := by
  obtain ⟨-, happrove⟩ := of_assert happrove
  obtain ⟨-, happrove⟩ := of_assert happrove
  obtain ⟨-, happrove⟩ := of_assert happrove
  obtain ⟨proposal, hlookup, happrove⟩ := of_bind happrove
  obtain ⟨-, happrove⟩ := of_assert happrove
  split at happrove
  · obtain rfl := Option.some.inj happrove
    exact hbooks
  · obtain ⟨-, happrove⟩ := of_assert happrove
    dsimp only at happrove
    split at happrove
    · obtain rfl := Option.some.inj happrove
      exact books_saveProposal_same hbooks hlookup rfl (hbooks.sound _ _ hlookup).exact
    · split at happrove
      · obtain ⟨value, hvalue, rfl⟩ := Option.map_eq_some_iff.mp happrove
        exact books_updateCfg hbooks hlookup hvalue
      · refine books_passIn hdistributed hbooks hlookup ?_ ?_ happrove
        · rfl
        · rfl
      · exact books_passOut hdistributed hbooks happrove
      · cases happrove

/-- The coins of a vote are added to the votes of the voter. -/
theorem books_vote {role : Role} {address : Address} (hdistributed : s.distributed = false)
    (hbooks : Books msg.coinAmount s.sheet)
    (hvote : vote host msg role address s = some s₁) : Books 0 s₁.sheet := by
  obtain ⟨-, hvote⟩ := of_assert hvote
  obtain ⟨-, hvote⟩ := of_assert hvote
  obtain ⟨odd, -, hvote⟩ := of_bind hvote
  obtain ⟨-, hvote⟩ := of_assert hvote
  obtain ⟨voteAmount, hamount, hvote⟩ := of_bind hvote
  obtain ⟨found, -, hupdate⟩ := of_bind hvote
  have hvotes : voteAmount = weight (fun _ votes => votes) s.world.storage.voters
        (voterKey msg.sender role address) + msg.coinAmount ∧ 0 ≤ voteAmount := by
    unfold addVotes at hamount
    split at hamount
    · rename_i hlookup
      obtain rfl := Option.some.inj hamount
      rw [weight_of_none hlookup, zero_add]
      exact ⟨rfl, msg.nonneg⟩
    · rename_i votes hlookup
      obtain rfl := of_int64Add hamount
      rw [weight_of_lookup hlookup]
      exact ⟨rfl, add_nonneg (hbooks.votes _ _ hlookup) msg.nonneg⟩
  have hinsert : Books 0 (s.store fun st => { st with
      voters := st.voters.insert (voterKey msg.sender role address) voteAmount }).sheet := by
    refine hbooks.setVoters ?_ (forall_lookup_insert hbooks.votes hvotes.2)
    refine (congrArg (· + (0 : ℤ)) (total_insert ..)).trans_le (le_of_eq ?_)
    rw [hvotes.1]
    ring!
  obtain ⟨hready, hbooks'⟩ := books_electInit hinsert hdistributed
  exact books_updateStake hready hbooks' hupdate

theorem books_unVote (hquiet : QuietReceive receive) {role : Role} {address : Address}
    (hdistributed : s.distributed = false) (hbooks : Books extra s.sheet)
    (hunvote : unVote host receive msg role address s = some s₁) : Books extra s₁.sheet := by
  obtain ⟨-, hunvote⟩ := of_assert hunvote
  obtain ⟨-, hunvote⟩ := of_assert hunvote
  obtain ⟨amount, hlookup, hunvote⟩ := of_bind hunvote
  obtain ⟨s₂, htransfer, hunvote⟩ := of_bind hunvote
  have hpaid := paid_transferCoin hquiet htransfer
  have hdistributed₂ : s₂.distributed = false := hpaid.distributed.trans hdistributed
  have herase : Books (extra + amount) (s.store fun st => { st with
      voters := st.voters.erase (voterKey msg.sender role address) }).sheet := by
    refine hbooks.setVoters ?_ (forall_lookup_erase _ hbooks.votes)
    refine (congrArg (· + _) (total_erase ..)).trans_le (le_of_eq ?_)
    rw [weight_of_lookup hlookup]
    ring!
  have hbooks₂ := hpaid.books herase
  rw [add_sub_cancel_right] at hbooks₂
  obtain ⟨hready, hbooks'⟩ := books_electInit hbooks₂ hdistributed₂
  dsimp only at hunvote
  split at hunvote
  · obtain rfl := Option.some.inj hunvote
    exact hbooks'
  · obtain ⟨-, hupdate⟩ := of_assert hunvote
    exact books_updateStake hready hbooks' hupdate

theorem books_abolish {role : Role} {address : Address} (hbooks : Books extra s.sheet)
    (habolish : abolish host msg role address s = some s₁) : Books extra s₁.sheet := by
  obtain ⟨-, -, habolish⟩ := of_bind habolish
  obtain ⟨-, habolish⟩ := of_assert habolish
  obtain ⟨applied, -, habolish⟩ := of_bind habolish
  obtain ⟨-, habolish⟩ := of_assert habolish
  obtain rfl := Option.some.inj habolish
  cases hlookup : s.proposals.lookup (proposalKey .abolish (.role role) address) with
  | none =>
      refine (books_saveProposal _ _ hbooks ⟨le_rfl, fun value hvalue => by cases hvalue⟩).mono ?_
      rw [Run.pledge, weight_of_none hlookup]
      change extra ≤ extra + 0 - 0
      linarith
  | some proposal =>
      exact books_saveProposal_same hbooks hlookup rfl (hbooks.sound _ _ hlookup).exact

/-- A pledge is paid back once its proposal is gone. -/
theorem books_refund (hquiet : QuietReceive receive) {key : ProposalKey} {proposal : Proposal}
    {dest : Address} {pledge : ℤ} (hbooks : Books extra s.sheet)
    (hlookup : s.proposals.lookup key = some proposal) (hpledge : proposal.pledge = some pledge)
    (htransfer : transferCoin host receive dest pledge .refund (s.delProposal key) = some s₁) :
    Books extra s₁.sheet := by
  have hdel := books_delProposal key hbooks
  have hpaid := (paid_transferCoin hquiet htransfer).books hdel
  rwa [pledge_of_lookup hlookup, Proposal.amount, hpledge, Option.getD_some,
    add_sub_cancel_right] at hpaid

theorem books_withdraw (hquiet : QuietReceive receive) {role : Role}
    (hdistributed : s.distributed = false) (hbooks : Books extra s.sheet)
    (hwithdraw : withdraw host receive msg role s = some s₁) : Books extra s₁.sheet := by
  unfold withdraw at hwithdraw
  dsimp only at hwithdraw
  split at hwithdraw
  · obtain ⟨-, hwithdraw⟩ := of_assert hwithdraw
    obtain ⟨-, hwithdraw⟩ := of_assert hwithdraw
    obtain rfl := Option.some.inj hwithdraw
    exact books_delProposal_le ⟨.apply, .role role, msg.sender⟩ hbooks
  · split at hwithdraw
    · obtain ⟨applicant, hlookup, hwithdraw⟩ := of_bind hwithdraw
      obtain ⟨pledge, hpledge, hwithdraw⟩ := of_bind hwithdraw
      split at hwithdraw
      · exact books_refund hquiet hbooks hlookup hpledge hwithdraw
      · obtain ⟨s₂, hdelete, hwithdraw⟩ := of_bind hwithdraw
        obtain rfl := Option.some.inj hwithdraw
        -- the pledge moves from one proposal to another
        have hamount : applicant.amount = pledge := by
          rw [Proposal.amount, hpledge, Option.getD_some]
        have hdel := books_delProposal ⟨.apply, .role role, msg.sender⟩ hbooks
        rw [pledge_of_lookup hlookup, hamount] at hdel
        obtain ⟨hready, hbooks'⟩ := books_electInit hdel hdistributed
        have hbooks₂ := books_deleteCandidate hready hbooks' hdelete
        have hsound := hamount ▸ (hbooks.sound _ _ hlookup).amount
        refine (books_saveProposal _ _ hbooks₂ ⟨?_, fun value hvalue => by cases hvalue⟩).mono ?_
        · exact hsound
        · have hnonneg := pledge_nonneg ⟨.withdraw, .role role, msg.sender⟩ hbooks₂
          change extra ≤ extra + pledge + s₂.pledge _ - pledge
          linarith
    · rename_i exitInfo hlookup
      obtain ⟨-, hwithdraw⟩ := of_assert hwithdraw
      obtain ⟨pledge, hpledge, htransfer⟩ := of_bind hwithdraw
      exact books_refund hquiet hbooks hlookup hpledge htransfer

/-- What is proposed adds up, if only the shares do. -/
theorem books_configure {item : Item} {value : Value} (hbooks : Books extra s.sheet)
    (hexact : item = .rewardAllocationShare → value.Exact)
    (hconfigure : configure host msg item value s = some s₁) : Books extra s₁.sheet := by
  obtain ⟨hvalid, hconfigure⟩ := of_assert hconfigure
  obtain ⟨-, hconfigure⟩ := of_assert hconfigure
  have hvalue : value.Exact := by
    cases value with
    | number => trivial
    | address => trivial
    | share => cases item <;> first | exact hexact rfl | cases hvalid
  dsimp only at hconfigure
  split at hconfigure
  · obtain rfl := Option.some.inj hconfigure
    exact hbooks
  · obtain rfl := Option.some.inj hconfigure
    refine (books_saveProposal _ _ hbooks ⟨le_rfl, fun value' h => ?_⟩).mono ?_
    · obtain rfl := Option.some.inj h
      exact hvalue
    · have hnonneg := pledge_nonneg ⟨.config, .item item, msg.sender⟩ hbooks
      change extra ≤ extra + s.pledge _ - 0
      linarith

theorem books_setNodeAddress {address : Address} (hbooks : Books extra s.sheet)
    (hset : setNodeAddress host msg address s = some s₁) : Books extra s₁.sheet := by
  obtain ⟨-, -, hset⟩ := of_bind hset
  obtain ⟨proposal, hlookup, hset⟩ := of_bind hset
  have hsave : Books extra (s.saveProposal ⟨.apply, .role .validator, msg.sender⟩
      { proposal with node := some address }).sheet :=
    books_saveProposal_same hbooks hlookup rfl (hbooks.sound _ _ hlookup).exact
  dsimp only at hset
  split at hset
  · obtain rfl := Option.some.inj hset
    exact hsave
  · split at hset
    · obtain rfl := Option.some.inj hset
      exact hsave
    · obtain rfl := Option.some.inj hset
      exact hsave

/-- The rewards are stored again, before any distribution. -/
theorem books_storeDists {valDist kolDist : Dists} (hdistributed : s.distributed = false)
    (hbooks : Books extra s.sheet)
    (hval : Dists.rewards valDist = Dists.rewards s.world.storage.valDist)
    (hkol : Dists.rewards kolDist = Dists.rewards s.world.storage.kolDist)
    (hvalDist : Dists.Nonneg s.world.storage.valDist → Dists.Nonneg valDist)
    (hkolDist : Dists.Nonneg s.world.storage.kolDist → Dists.Nonneg kolDist) :
    Books extra
      (s.store fun st => { st with valDist := valDist, kolDist := kolDist }).sheet := by
  have hstored : s.sheet.valDist = s.world.storage.valDist ∧
      s.sheet.kolDist = s.world.storage.kolDist :=
    ⟨if_neg (by simp [hdistributed]), if_neg (by simp [hdistributed])⟩
  have hsheet : Books extra { s.sheet with valDist := valDist, kolDist := kolDist } :=
    hbooks.setDists (by rw [hstored.1, hstored.2, hval, hkol])
      (hvalDist (hstored.1 ▸ hbooks.valDist)) (hkolDist (hstored.2 ▸ hbooks.kolDist))
  convert hsheet using 1
  simp [Run.sheet, Run.store, World.store, hdistributed]

/-- The rewards after the candidate `address` has chosen its pool and its ratio. -/
def withDividend (address : Address) (pool : Option Address) (ratio : Option ℤ) (dist : Dists) :
    Dists :=
  match dist.lookup address with
  | none => dist
  | some entry =>
      dist.insert address
        { entry with pool := pool.getD entry.pool, ratio := ratio.getD entry.ratio }

/-- The pool and the ratio of a row change, and the reward stays. -/
theorem rewards_withDividend (address : Address) (pool : Option Address) (ratio : Option ℤ)
    (dist : Dists) :
    Dists.rewards (withDividend address pool ratio dist) = Dists.rewards dist ∧
      (Dists.Nonneg dist → Dists.Nonneg (withDividend address pool ratio dist)) := by
  unfold withDividend
  split
  · exact ⟨rfl, id⟩
  · rename_i entry hentry
    refine ⟨?_, fun hnonneg => forall_lookup_insert hnonneg (hnonneg address entry hentry)⟩
    rw [rewards_insert hentry]
    ring

theorem books_setVoteDividend {role : Role} {pool : Option Address} {ratio : Option ℤ}
    (hdistributed : s.distributed = false) (hbooks : Books extra s.sheet)
    (hset : setVoteDividend host msg role pool ratio s = some s₁) : Books extra s₁.sheet := by
  obtain ⟨proposal, hlookup, hset⟩ := of_bind hset
  obtain ⟨-, hset⟩ := of_assert hset
  obtain ⟨-, hset⟩ := of_assert hset
  obtain rfl := Option.some.inj hset
  have hsave : Books extra (s.saveProposal ⟨.apply, .role role, msg.sender⟩
      { proposal with
        rewardPool := pool.or proposal.rewardPool
        rewardRatio := ratio.or proposal.rewardRatio }).sheet :=
    books_saveProposal_same hbooks hlookup rfl (hbooks.sound _ _ hlookup).exact
  have hrows := rewards_withDividend msg.sender pool ratio
  cases role
  · exact books_storeDists hdistributed hsave rfl (hrows _).1 id (hrows _).2
  · exact books_storeDists hdistributed hsave (hrows _).1 rfl (hrows _).2 id
  · exact books_storeDists hdistributed hsave rfl (hrows _).1 id (hrows _).2

theorem books_clean (hquiet : QuietReceive receive) {operate : Motion} {content : Content}
    {address : Address} (hbooks : Books extra s.sheet)
    (hclean : clean host receive msg operate content address s = some s₁) :
    Books extra s₁.sheet := by
  obtain ⟨-, hclean⟩ := of_assert hclean
  obtain ⟨proposal, hlookup, hclean⟩ := of_bind hclean
  obtain ⟨-, hclean⟩ := of_assert hclean
  dsimp only at hclean
  split at hclean
  · rename_i pledge hpledge
    split at hclean
    · exact books_refund hquiet hbooks hlookup hpledge hclean
    · obtain rfl := Option.some.inj hclean
      exact books_delProposal_le _ hbooks
  · obtain rfl := Option.some.inj hclean
    exact books_delProposal_le _ hbooks

/-- The method does not propose shares that do not add up. -/
def Method.Exact : Method → Prop
  | .configure .rewardAllocationShare value => value.Exact
  | _ => True

theorem books_dispatch (hquiet : QuietReceive receive) {method : Method}
    (hexact : method.Exact) (hcoins : method.takesCoins ∨ msg.coinAmount = 0)
    (hdistributed : s.distributed = false) (hbooks : Books msg.coinAmount s.sheet)
    (hdispatch : dispatch host receive msg method s = some s₁) : Books 0 s₁.sheet := by
  have hnone : method.takesCoins = false → Books 0 s.sheet := by
    intro htakes
    rw [htakes] at hcoins
    rwa [hcoins.resolve_left (by simp)] at hbooks
  cases method with
  | apply => exact books_apply hbooks hdispatch
  | append => exact books_append hdistributed hbooks hdispatch
  | approve => exact books_approve hdistributed (hnone rfl) hdispatch
  | vote => exact books_vote hdistributed hbooks hdispatch
  | unVote => exact books_unVote hquiet hdistributed (hnone rfl) hdispatch
  | abolish => exact books_abolish (hnone rfl) hdispatch
  | withdraw => exact books_withdraw hquiet hdistributed (hnone rfl) hdispatch
  | extract => exact books_extract hquiet hdistributed (hnone rfl) hdispatch
  | configure item value =>
      refine books_configure (hnone rfl) (fun hitem => ?_) hdispatch
      subst hitem
      exact hexact
  | setNodeAddress => exact books_setNodeAddress (hnone rfl) hdispatch
  | setVoteDividend => exact books_setVoteDividend hdistributed (hnone rfl) hdispatch
  | clean => exact books_clean hquiet (hnone rfl) hdispatch
  | unknown => cases hdispatch

/-! ## Calls and histories -/

/-- The records between the calls. -/
def World.sheet (w : World) : Sheet where
  config := w.storage.config
  cfg := w.storage.config
  stake := w.storage.stake
  allStake := w.storage.stake
  balance := w.balance
  proposals := w.storage.proposals
  voters := w.storage.voters
  valDist := w.storage.valDist
  kolDist := w.storage.kolDist

variable {w w₁ : World}

theorem Books.stake_nonneg (hbooks : Books 0 w.sheet) : 0 ≤ w.storage.stake := by
  have hcovered : w.sheet.debts + 0 ≤ w.storage.stake := hbooks.covered
  have hdebts := hbooks.debts_nonneg
  linarith

theorem books_arrive (amount : ℤ) (hamount : 0 ≤ amount) (hbooks : Books 0 w.sheet) :
    Books 0 (w.arrive amount).sheet :=
  { hbooks with backed := hbooks.backed.trans (le_add_of_nonneg_right hamount) }

/-- What `prepare` reads below 2^53 is what was written. -/
theorem amount_loadedStake {st : Storage} (hnonneg : 0 ≤ st.stake) (hsmall : st.stake < 2 ^ 53) :
    st.loadedStake.amount = some st.stake := by
  have hlt : st.stake.natAbs < 2 ^ 53 := by omega
  unfold Storage.loadedStake
  split
  · rw [Json.amount, Doubles.toDouble_of_natAbs_le hlt.le, Number.int?_of_lt hlt]
  · exact integer_toBytes st.stake

/-- The coins that come with a call are counted, but not yet owed. -/
theorem books_prepare (hsmall : w.storage.stake < 2 ^ 53)
    (hbooks : Books 0 w.sheet) (hprepare : prepare msg (w.arrive msg.coinAmount) = some s) :
    Books msg.coinAmount s.sheet ∧ s.distributed = false := by
  have hstake := amount_loadedStake hbooks.stake_nonneg hsmall
  have hcovered : w.sheet.debts + 0 ≤ w.storage.stake := hbooks.covered
  have hbacked : w.storage.stake ≤ w.balance := hbooks.backed
  obtain ⟨read, hread, ⟨-, rfl⟩ | ⟨hzero, rfl⟩⟩ := prepare_cases hprepare
  · obtain rfl := Option.some.inj (hstake.symm.trans hread)
    refine ⟨{ hbooks with covered := ?_, stored := rfl, backed := ?_ }, rfl⟩
    · change w.sheet.debts + msg.coinAmount ≤ w.storage.stake + msg.coinAmount
      linarith
    · exact add_le_add_left hbacked _
  · obtain rfl := Option.some.inj (hstake.symm.trans hread)
    refine ⟨{ hbooks with covered := ?_, stored := rfl, backed := ?_ }, rfl⟩
    · change w.sheet.debts + msg.coinAmount ≤ w.storage.stake
      rw [hzero]
      exact hcovered
    · change w.storage.stake ≤ w.balance + msg.coinAmount
      rw [hzero, add_zero]
      exact hbacked

theorem books_saveDists (hbooks : Books 0 s.sheet) : Books 0 (saveDists s).sheet := by
  have hstored : s.world.storage.stake = s.allStake := hbooks.stored
  have hsheet : (saveDists s).sheet = { s.sheet with
      cfg := s.world.storage.config, allStake := s.world.storage.stake } := by
    unfold saveDists
    cases hdistributed : s.distributed <;> simp [Run.sheet, World.sheet, World.store, hdistributed]
  rw [hsheet, hstored]
  exact { hbooks with cfg := hbooks.config }

/-- **One call.** -/
theorem books_main (hquiet : QuietReceive receive) {method : Method}
    (hexact : method.Exact) (hsmall : w.storage.stake < 2 ^ 53) (hbooks : Books 0 w.sheet)
    (hmain : main host receive msg method (w.arrive msg.coinAmount) = some w₁) :
    Books 0 w₁.sheet := by
  obtain ⟨s, hprepare, hmain⟩ := of_bind hmain
  obtain ⟨hcoins, hmain⟩ := of_assert hmain
  obtain ⟨s₁, hdispatch, hmain⟩ := of_bind hmain
  obtain rfl := Option.some.inj hmain
  obtain ⟨hbooks', hdistributed⟩ := books_prepare hsmall hbooks hprepare
  exact books_saveDists (books_dispatch hquiet hexact hcoins hdistributed hbooks' hdispatch)

/-- An account that is paid does not call the contract. -/
def Reaction.Quiet (reaction : Reaction) : Prop :=
  reaction = .done ∨ reaction = .fail

/-- No account calls the contract when it is paid. -/
def Step.Quiet : Step → Prop
  | .call _ _ reactions => ∀ i, (reactions i).Quiet
  | .reward _ => True

/-- The step does not propose shares that do not add up. -/
def Step.Exact : Step → Prop
  | .call _ method _ => method.Exact
  | .reward _ => True

theorem quiet_react {reactions : ℕ → Reaction} (hquiet : ∀ i, (reactions i).Quiet) :
    QuietReceive fun i => react host (reactions i) := by
  intro i w w' hreact
  change react host (reactions i) w = some w' at hreact
  rcases hquiet i with hdone | hfail
  · rw [hdone] at hreact
    exact (Option.some.inj hreact).symm
  · rw [hfail] at hreact
    cases hreact

theorem books_step {st : Step} (hquiet : st.Quiet)
    (hexact : st.Exact) (hsmall : w.storage.stake < 2 ^ 53) (hbooks : Books 0 w.sheet) :
    Books 0 (step host w st).sheet := by
  cases st with
  | reward amount => exact books_arrive amount (Int.natCast_nonneg amount) hbooks
  | call msg method reactions =>
      unfold step
      dsimp only
      generalize hmain : main host (fun i => react host (reactions i)) msg method _ = r
      cases r with
      | none => exact hbooks
      | some w₁ =>
          exact @books_main _ _ _ { w with journal := [], callbacks := [] } _
            (quiet_react hquiet) _ hexact hsmall hbooks hmain

/-- **All states of a history.** -/
theorem books_states {steps : List Step}
    (hquiet : ∀ st ∈ steps, st.Quiet) (hexact : ∀ st ∈ steps, st.Exact)
    (hsmall : ∀ w' ∈ states host w steps, w'.storage.stake < 2 ^ 53)
    (hbooks : Books 0 w.sheet) : ∀ w' ∈ states host w steps, Books 0 w'.sheet := by
  refine Runs.scanl_invariant_of (p := fun w => Books 0 w.sheet)
    (fun w steps => (∀ st ∈ steps, st.Quiet) ∧ (∀ st ∈ steps, st.Exact) ∧
      ∀ w' ∈ states host w steps, w'.storage.stake < 2 ^ 53) ?_ hbooks ⟨hquiet, hexact, hsmall⟩
  rintro w st steps hbooks ⟨hquiet, hexact, hsmall⟩
  rw [List.forall_mem_cons] at hquiet hexact
  rw [states, List.scanl_cons, List.forall_mem_cons] at hsmall
  exact ⟨books_step hquiet.1 hexact.1 hsmall.1 hbooks, hquiet.2, hexact.2, hsmall.2⟩

theorem books_initialization {logicContract : Address} {committee : List Address}
    {validators : List (Address × ℤ)} {balance : ℕ}
    (hinit : initialization host msg logicContract committee validators balance = some w) :
    Books 0 w.sheet := by
  obtain ⟨-, hinit⟩ := of_assert hinit
  obtain ⟨-, hinit⟩ := of_assert hinit
  have hw := Option.some.inj hinit
  have hnew : ∀ role address, (initProposal msg (initialConfig logicContract) role address).amount
        = 0 ∧ (initProposal msg (initialConfig logicContract) role address).value = none := by
    intro role address
    cases role <;> exact ⟨rfl, rfl⟩
  -- nothing is pledged and nothing is rewarded at first
  have hproposals : ∀ key proposal, w.storage.proposals.lookup key = some proposal →
      proposal.amount = 0 ∧ proposal.value = none := by
    rw [← hw]
    refine forall_lookup_foldl ?_ validators (forall_lookup_foldl ?_ committee ?_)
    · exact fun row => hnew .validator row.1
    · exact fun address => hnew .committee address
    · exact fun key proposal h => by cases h
  have hrewards : ∀ address entry, w.storage.valDist.lookup address = some entry →
      entry.reward = 0 := by
    rw [← hw]
    refine forall_lookup_foldl ?_ validators ?_
    · exact fun row => rfl
    · exact fun address entry h => by cases h
  have hzero : w.sheet.debts = 0 := by
    have hpledges : total (fun _ proposal => proposal.amount) w.sheet.proposals = 0 :=
      total_eq_zero fun key proposal h => (hproposals key proposal h).1
    have hval : Dists.rewards w.sheet.valDist = 0 := total_eq_zero hrewards
    rw [Sheet.debts, hpledges, hval]
    subst hw
    rfl
  subst hw
  exact
    { covered := by rw [hzero, add_zero]; exact msg.nonneg
      stored := rfl
      backed := le_add_of_nonneg_left (Int.natCast_nonneg balance)
      sound := fun key proposal h => ⟨(hproposals key proposal h).1.ge, fun value hvalue => by
        rw [(hproposals key proposal h).2] at hvalue
        cases hvalue⟩
      votes := fun key votes h => by cases h
      valDist := fun address entry h => (hrewards address entry h).ge
      kolDist := fun address entry h => by cases h
      cfg := @exact_of_sum 50 10 35 5 rfl
      config := @exact_of_sum 50 10 35 5 rfl }

/-! ## Solvency -/

namespace World

/-- The pledges that are paid back some day. -/
def refundable (w : World) : ℤ :=
  total (fun key proposal => if key.operate = .apply ∨ key.operate = .withdraw then
    proposal.amount else 0) w.storage.proposals

/-- The votes that have been given. -/
def votes (w : World) : ℤ :=
  total (fun _ votes => votes) w.storage.voters

/-- The rewards that have not been paid. -/
def rewards (w : World) : ℤ :=
  Dists.rewards w.storage.valDist + Dists.rewards w.storage.kolDist

/-- `all_stake` covers what is recorded, and the balance covers `all_stake`. -/
def Solvent (w : World) : Prop :=
  w.refundable + w.votes + w.rewards ≤ w.storage.stake ∧ w.storage.stake ≤ w.balance

instance (w : World) : Decidable w.Solvent :=
  inferInstanceAs (Decidable (_ ∧ _))

end World

theorem solvent_of_books (hbooks : Books 0 w.sheet) : w.Solvent := by
  have hcovered : w.sheet.debts + 0 ≤ w.storage.stake := hbooks.covered
  have hle : w.refundable ≤ total (fun _ proposal => proposal.amount) w.storage.proposals := by
    refine total_le_total fun key proposal hlookup => ?_
    split
    · exact le_rfl
    · exact (hbooks.sound key proposal hlookup).amount
  refine ⟨?_, hbooks.backed⟩
  calc w.refundable + w.votes + w.rewards
      ≤ total (fun _ proposal => proposal.amount) w.storage.proposals + w.votes + w.rewards := by
        linarith
    _ = w.sheet.debts + 0 := (add_zero _).symm
    _ ≤ w.storage.stake := hcovered

/-- **The contract is solvent** in every state of every history without re-entrancy in
which `all_stake` stays below 2^53, if all shares that are proposed add up to 100 as they
are printed. -/
theorem solvent_states {logicContract : Address} {committee : List Address}
    {validators : List (Address × ℤ)} {balance : ℕ}
    (hinit : initialization host msg logicContract committee validators balance = some w)
    {steps : List Step} (hquiet : ∀ st ∈ steps, st.Quiet)
    (hsmall : ∀ w' ∈ states host w steps, w'.storage.stake < 2 ^ 53)
    (hexact : ∀ st ∈ steps, st.Exact) :
    ∀ w' ∈ states host w steps, w'.Solvent := by
  intro w' hmem
  exact solvent_of_books
    (books_states hquiet hexact hsmall (books_initialization hinit) w' hmem)

/-- The committee changes the shares, coins come, and someone asks for rewards. -/
def shareHistory (s₀ s₁ s₂ s₃ : ℚ) : List Step :=
  [plainCall [1] 1 (.configure .rewardAllocationShare (.share s₀ s₁ s₂ s₃)),
   plainCall [2] 2 (.approve .config (.item .rewardAllocationShare) [1]),
   .reward 100,
   plainCall [5] 3 (.extract none)]

theorem quiet_shareHistory (s₀ s₁ s₂ s₃ : ℚ) : ∀ st ∈ shareHistory s₀ s₁ s₂ s₃, st.Quiet := by
  intro st hmem
  simp only [shareHistory, List.mem_cons, List.not_mem_nil, or_false] at hmem
  rcases hmem with rfl | rfl | rfl | rfl
  · exact fun _ => .inl rfl
  · exact fun _ => .inl rfl
  · trivial
  · exact fun _ => .inl rfl

/-- New shares that add up. -/
theorem solvent_states_share :
    ∃ w ∈ states sampleHost (sampleWorld [([3], 0)]) (shareHistory 70 10 15 5),
      w.Solvent ∧ w.storage.config .rewardAllocationShare = .share 70 10 15 5 := by
  obtain ⟨w, hw, hshare⟩ : ∃ w ∈ states sampleHost (sampleWorld [([3], 0)])
      (shareHistory 70 10 15 5),
      w.storage.config .rewardAllocationShare = .share 70 10 15 5 := by
    decide +kernel
  refine ⟨w, hw, ?_, hshare⟩
  refine solvent_states (initialization_sample _) (quiet_shareHistory 70 10 15 5)
    (by decide +kernel) ?_ w hw
  intro st hmem
  simp only [shareHistory, List.mem_cons, List.not_mem_nil, or_false] at hmem
  rcases hmem with rfl | rfl | rfl | rfl
  · exact @exact_of_sum 70 10 15 5 rfl
  · trivial
  · trivial
  · trivial

/-- The sum of these shares is 101, and 100 in doubles: of 100 coins 101 become
rewards. -/
theorem insolvent_states_share :
    cfgValid sampleHost .rewardAllocationShare (.share (2 ^ 53) 1 (-2 ^ 53) 100) = true ∧
      (∀ st ∈ shareHistory (2 ^ 53) 1 (-2 ^ 53) 100, st.Quiet) ∧
      (∀ w ∈ states sampleHost (sampleWorld [([3], 0)]) (shareHistory (2 ^ 53) 1 (-2 ^ 53) 100),
        w.storage.stake < 2 ^ 53) ∧
      ∃ w ∈ states sampleHost (sampleWorld [([3], 0)]) (shareHistory (2 ^ 53) 1 (-2 ^ 53) 100),
        w.rewards = 101 ∧ w.storage.stake = 100 ∧ ¬ w.Solvent := by
  exact ⟨by decide +kernel, quiet_shareHistory _ _ _ _, by decide +kernel, by decide +kernel⟩

end CegChain.Dpos
