import CegChain.Contract.Orderly
import CegChain.Contract.Rewards

/-!
# Where coins go in the co-build contract

A reward is credited in full, `amount / pledgedShares` for every pledged share and the rest to
the initiator (`reward_exact_iff`), unless the initiator has handed over all its shares: then
`distribute` finds nobody to credit the rest to and throws (`reward_throws`).

Coins that come with a call are owed to somebody afterwards, or paid out again (`kept_iff`),
unless the contract is disbanded: then it answers without looking at the coins
(`coins_swallowed`).
-/

namespace CegChain.Cobuild

open Layers Totals
open Dpos (assert int64Add int64Sub int64Mod Role of_bind of_assert)

variable {host : Host} {dpos : DposContract} {msg : Msg} {w w' w₁ : World} {st : Storage}
  {table table' : Table Address Cobuilder} {address : Address} {own : Cobuilder} {spare : ℤ}

/-! ## Rewards -/

/-- A holder with its part of a reward. -/
def credited (st : Storage) (allReward : ℤ) (address : Address) (own : Cobuilder) : Cobuilder :=
  { own with
    award := own.award + allReward / st.states.pledgedShares * own.pledgedShare +
      if address = st.cfg.initiator then allReward % st.states.pledgedShares else 0 }

/-- Nobody gets more than there is. -/
theorem credit_le {allReward : ℤ} (htable : Nonneg table) (hnonneg : 0 ≤ allReward)
    (hpledged : 0 < pledgedOf table) (hlookup : table.lookup address = some own) :
    own.award + allReward / pledgedOf table * own.pledgedShare + allReward % pledgedOf table ≤
      awardsOf table + allReward := by
  have hunit : 0 ≤ allReward / pledgedOf table := Int.ediv_nonneg hnonneg hpledged.le
  calc own.award + allReward / pledgedOf table * own.pledgedShare + allReward % pledgedOf table
      = weight (fun _ cobuilder =>
          cobuilder.award + allReward / pledgedOf table * cobuilder.pledgedShare) table address +
          allReward % pledgedOf table := by rw [weight_of_lookup hlookup]
    _ ≤ total (fun _ cobuilder =>
          cobuilder.award + allReward / pledgedOf table * cobuilder.pledgedShare) table +
          allReward % pledgedOf table := by
        refine add_le_add_left (weight_le_total address fun address cobuilder hlookup => ?_) _
        obtain ⟨hshare, haward⟩ := htable address cobuilder hlookup
        exact add_nonneg haward (mul_nonneg hunit (Cobuilder.pledgedShare_nonneg hshare))
    _ = awardsOf table + (pledgedOf table * (allReward / pledgedOf table) +
          allReward % pledgedOf table) := by
        rw [total_add, total_const_mul, awardsOf, pledgedOf]
        ring
    _ = awardsOf table + allReward := by rw [Int.mul_ediv_add_emod]

theorem Nonneg.awardsOf_nonneg (htable : Nonneg table) : 0 ≤ awardsOf table :=
  total_nonneg fun address cobuilder hlookup => (htable address cobuilder hlookup).2

theorem Nonneg.share_le (htable : Nonneg table) (hlookup : table.lookup address = some own)
    (hpledged : own.pledged = true) : own.share ≤ pledgedOf table := by
  calc own.share
      = weight (fun _ cobuilder => cobuilder.pledgedShare) table address := by
        rw [weight_of_lookup hlookup, (Cobuilder.shares_of_pledged hpledged).1]
    _ ≤ pledgedOf table := by
        refine weight_le_total address fun address cobuilder hlookup => ?_
        exact Cobuilder.pledgedShare_nonneg (htable address cobuilder hlookup).1

theorem exists_rewarded {allReward : ℤ} (htable : Nonneg table) (hnonneg : 0 ≤ allReward)
    (hpledged : 0 < pledgedOf table) (hlt : pledgedOf table < 2 ^ 63)
    (hfits : awardsOf table + allReward < 2 ^ 63) (hlookup : table.lookup address = some own) :
    (rewarded (allReward / pledgedOf table) own).isSome := by
  unfold rewarded
  split
  · rename_i hflag
    have hcredit := credit_le htable hnonneg hpledged hlookup
    rw [(Cobuilder.shares_of_pledged hflag).1] at hcredit
    obtain ⟨hshare, haward⟩ := htable address own hlookup
    have hle := htable.share_le hlookup hflag
    have hawards := htable.awardsOf_nonneg
    have hunit : 0 ≤ allReward / pledgedOf table := Int.ediv_nonneg hnonneg hpledged.le
    have hunit_le : allReward / pledgedOf table ≤ allReward := Int.ediv_le_self _ hnonneg
    have hrest : 0 ≤ allReward % pledgedOf table := Int.emod_nonneg _ hpledged.ne'
    have heach : 0 ≤ allReward / pledgedOf table * own.share := mul_nonneg hunit hshare
    have hmul : Dpos.int64Mul (allReward / pledgedOf table) own.share =
        some (allReward / pledgedOf table * own.share) :=
      Dpos.int64_eq_some hunit (by omega) hshare (by omega) heach (by omega)
    have hadd : int64Add own.award (allReward / pledgedOf table * own.share) =
        some (own.award + allReward / pledgedOf table * own.share) :=
      Dpos.int64_eq_some haward (by omega) heach (by omega) (by omega) (by omega)
    simp [hmul, hadd]
  · rfl

/-- A reward that fits is credited. -/
theorem exists_distribute {allReward : ℤ} (hsender : msg.sender = dposContract)
    (htable : Nonneg w.storage.cobuilders) (hnonneg : 0 ≤ allReward)
    (hpositive : 0 < w.storage.states.pledgedShares)
    (hlt : w.storage.states.pledgedShares < 2 ^ 63)
    (hpledged : w.storage.states.pledgedShares = pledgedOf w.storage.cobuilders)
    (hfits : awardsOf w.storage.cobuilders + allReward < 2 ^ 63)
    (hinitiator : w.storage.cfg.initiator ∈ w.storage.cobuilders) :
    ∃ w', distribute msg allReward w = some w' := by
  have hawards := htable.awardsOf_nonneg
  have hdiv : Dpos.int64Div allReward w.storage.states.pledgedShares =
      some (allReward / w.storage.states.pledgedShares) :=
    Dpos.int64Div_eq_some hnonneg (by omega) hpositive hlt
  have hmod : int64Mod allReward w.storage.states.pledgedShares =
      some (allReward % w.storage.states.pledgedShares) :=
    Dpos.int64Mod_eq_some hnonneg (by omega) hpositive hlt
  have hmapped : (mapValuesM (fun _ => rewarded (allReward / w.storage.states.pledgedShares))
      w.storage.cobuilders).isSome := by
    rw [hpledged] at hpositive hlt ⊢
    exact isSome_mapValuesM.mpr fun address own hlookup =>
      exists_rewarded htable hnonneg hpositive hlt hfits hlookup
  obtain ⟨cobuilders, hmap⟩ := Option.isSome_iff_exists.mp hmapped
  obtain ⟨own, hown⟩ := Option.isSome_iff_exists.mp (AList.lookup_isSome.mpr hinitiator)
  obtain ⟨own', hown'⟩ := Option.isSome_iff_exists.mp
    (isSome_mapValuesM.mp hmapped _ own hown)
  have hlookup : cobuilders.lookup w.storage.cfg.initiator = some own' := by
    rw [lookup_mapValuesM hmap, hown, Option.bind_some, hown']
  have hadd : int64Add own'.award (allReward % w.storage.states.pledgedShares) =
      some (own'.award + allReward % w.storage.states.pledgedShares) := by
    rw [hpledged] at hpositive hown' ⊢
    have hcredit := credit_le htable hnonneg hpositive hown
    obtain ⟨hshare, haward⟩ := htable _ own hown
    have hunit : 0 ≤ allReward / pledgedOf w.storage.cobuilders :=
      Int.ediv_nonneg hnonneg hpositive.le
    have heach := mul_nonneg hunit (Cobuilder.pledgedShare_nonneg hshare)
    have hrest : 0 ≤ allReward % pledgedOf w.storage.cobuilders :=
      Int.emod_nonneg _ hpositive.ne'
    rw [of_rewarded hown']
    exact Dpos.int64_eq_some (by dsimp only; omega) (by dsimp only; omega) hrest (by omega)
      (by dsimp only; omega) (by dsimp only; omega)
  simp [distribute, assert, hsender, hdiv, hmap, hmod, hlookup, hadd]

/-- The reward of a contract that is not disbanded. -/
theorem callback_reward (henabled : w.storage.states.disabled = false) (amount : ℕ) :
    callback host msg w (.reward amount) =
      distribute ⟨msg.txSender, dposContract, amount, msg.timestamp⟩ amount
        (w.arrive amount) := by
  simp [callback, main, World.arrive, henabled, assert, Method.takesCoins]

/-- What the participants have in the contract. -/
def owed (st : Storage) : ℤ :=
  st.cfg.unit * sharesOf st.cobuilders + awardsOf st.cobuilders

/-- What is on the account and is not owed to anybody. -/
def surplus (w : World) : ℤ :=
  w.balance - owed w.storage

/-- What came in, less what was paid out, is owed to somebody. -/
def Kept (w w' : World) : Prop :=
  w'.balance - w.balance ≤ owed w'.storage - owed w.storage

/-- What no pledged share gets of some rewards. -/
def lost (st : Storage) (amounts : List ℕ) : ℤ :=
  (amounts.map fun amount : ℕ =>
    (amount : ℤ) / st.states.pledgedShares *
      (st.states.pledgedShares - pledgedOf st.cobuilders)).sum

theorem kept_iff_surplus : Kept w w' ↔ surplus w' ≤ surplus w := by
  unfold Kept surplus
  omega

theorem surplus_arrive (w : World) (amount : ℕ) :
    surplus (w.arrive amount) = surplus w + amount := by
  simp only [surplus, World.arrive]
  omega

/-- Rewards that leave the shares and the sums in `states` as they are. -/
structure Credited (amounts : List ℕ) (w w' : World) : Prop where
  states : w'.storage.states = w.storage.states
  pledged : pledgedOf w'.storage.cobuilders = pledgedOf w.storage.cobuilders
  surplus : surplus w' = surplus w + lost w.storage amounts
  positive : amounts ≠ [] → 0 < w.storage.states.pledgedShares

theorem Credited.nil (w : World) : Credited [] w w :=
  ⟨rfl, rfl, (add_zero _).symm, fun hne => absurd rfl hne⟩

theorem Credited.cons {amount : ℕ} {amounts : List ℕ} (hfirst : Credited [amount] w w')
    (hrest : Credited amounts w' w₁) : Credited (amount :: amounts) w w₁ where
  states := hrest.states.trans hfirst.states
  pledged := hrest.pledged.trans hfirst.pledged
  surplus := by
    rw [hrest.surplus, hfirst.surplus]
    simp only [lost, hfirst.states, hfirst.pledged, List.map_cons, List.map_nil, List.sum_cons,
      List.sum_nil]
    ring
  positive _ := hfirst.positive (List.cons_ne_nil _ _)

theorem credited_reward {amount : ℕ} (henabled : w.storage.states.disabled = false)
    (hcallback : callback host msg w (.reward amount) = some w') : Credited [amount] w w' := by
  rw [callback_reward henabled] at hcallback
  obtain ⟨hshares, hpledged, -, hawards⟩ := sums_distribute hcallback
  obtain ⟨unitReward, left, cobuilders, initiator, -, -, -, hpositive, -, -, rfl⟩ :=
    distribute_cases hcallback
  refine ⟨rfl, hpledged, ?_, fun _ => hpositive⟩
  have hsplit := Int.mul_ediv_add_emod (amount : ℤ) w.storage.states.pledgedShares
  simp only [World.arrive, World.setCobuilders] at hshares hawards
  simp only [surplus, owed, lost, World.arrive, World.setCobuilders, List.map_cons, List.map_nil,
    List.sum_cons, List.sum_nil, hshares, hawards]
  linarith

theorem credited_rewards {amounts : List ℕ} (henabled : w.storage.states.disabled = false)
    (hfold : (amounts.map Callback.reward).foldlM (callback host msg) w = some w') :
    Credited amounts w w' := by
  induction amounts generalizing w with
  | nil =>
      obtain rfl := Option.some.inj hfold
      exact Credited.nil w
  | cons amount amounts ih =>
      rw [List.map_cons, List.foldlM_cons] at hfold
      obtain ⟨w₁, hreward, hfold⟩ := of_bind hfold
      have hfirst := credited_reward henabled hreward
      exact hfirst.cons (ih (hfirst.states ▸ henabled) hfold)

theorem lost_nonpos {amounts : List ℕ}
    (hterms : ∀ amount ∈ amounts, (amount : ℤ) / st.states.pledgedShares *
      (st.states.pledgedShares - pledgedOf st.cobuilders) ≤ 0) : lost st amounts ≤ 0 := by
  calc lost st amounts
      ≤ (amounts.map fun _ => (0 : ℤ)).sum := List.sum_le_sum hterms
    _ = 0 := List.sum_map_zero

/-- Nothing is lost if the pledged shares are all there, or if no share gets anything. -/
theorem lost_nonpos_iff {amounts : List ℕ}
    (hpositive : amounts ≠ [] → 0 < st.states.pledgedShares) :
    lost st amounts ≤ 0 ↔ st.states.pledgedShares ≤ pledgedOf st.cobuilders ∨
      ∀ amount ∈ amounts, (amount : ℤ) < st.states.pledgedShares := by
  rcases eq_or_ne amounts [] with rfl | hne
  · simp [lost]
  have hpositive := hpositive hne
  have hunit : ∀ amount : ℕ, 0 ≤ (amount : ℤ) / st.states.pledgedShares := fun amount =>
    Int.ediv_nonneg (Int.natCast_nonneg amount) hpositive.le
  by_cases hall : st.states.pledgedShares ≤ pledgedOf st.cobuilders
  · refine iff_of_true (lost_nonpos fun amount _ => ?_) (.inl hall)
    exact mul_nonpos_of_nonneg_of_nonpos (hunit amount) (by omega)
  · have hmissing : 0 < st.states.pledgedShares - pledgedOf st.cobuilders := by omega
    rw [or_iff_right hall]
    constructor
    · intro hlost amount hamount
      have hterm : (amount : ℤ) / st.states.pledgedShares *
          (st.states.pledgedShares - pledgedOf st.cobuilders) ≤ 0 := by
        refine (List.single_le_sum ?_ _ (List.mem_map.mpr ⟨amount, hamount, rfl⟩)).trans hlost
        intro weight hmem
        obtain ⟨other, -, rfl⟩ := List.mem_map.mp hmem
        exact mul_nonneg (hunit other) hmissing.le
      have hzero : (amount : ℤ) / st.states.pledgedShares ≤ 0 :=
        nonpos_of_mul_nonpos_left hterm hmissing
      by_contra hlarge
      have hone : 1 ≤ (amount : ℤ) / st.states.pledgedShares :=
        (Int.le_ediv_iff_mul_le hpositive).mpr (by omega)
      omega
    · intro hsmall
      refine lost_nonpos fun amount hamount => ?_
      rw [Int.ediv_eq_zero_of_lt (Int.natCast_nonneg amount) (hsmall amount hamount), zero_mul]

/-! ## Calls that coins come with -/

/-- A step that does not throw. -/
def run (host : Host) (w : World) : Step → Option World
  | .call msg _ method response =>
      main host (respond host msg response) msg method (w.arrive msg.coinAmount)
  | .callback msg cb => callback host msg w cb

/-- The coins that come with a step.  Those that the DPoS contract gives back are counted in the
shares already. -/
def Step.coins : Step → ℕ
  | .call msg _ _ _ => msg.coinAmount
  | .callback _ (.reward amount) => amount
  | .callback _ .refund => 0

/-- All shares of the transferor are for the sender. -/
def TakesAll (msg : Msg) (transferor : Address) (w : World) : Prop :=
  ∃ given ∈ w.storage.cobuilders.lookup transferor,
    w.storage.transfers.lookup (transferor, msg.txSender) = some given.share

instance (msg : Msg) (transferor : Address) (w : World) : Decidable (TakesAll msg transferor w) :=
  inferInstanceAs (Decidable (∃ given ∈ _, _))

/-- The rewards that are paid in a step that coins come with. -/
def Step.rewards (w : World) : Step → List ℕ
  | .call msg _ (.accept transferor) response =>
      if TakesAll msg transferor w then response.rewards else []
  | .callback _ (.reward amount) => [amount]
  | _ => []

theorem surplus_subscribe {shares : ℤ} (hsubscribe : subscribe msg shares w = some w') :
    surplus w' = surplus w - msg.coinAmount := by
  obtain ⟨-, hcoins, own, hown, rfl⟩ := subscribe_cases hsubscribe
  obtain ⟨-, hshare, haward, -⟩ := subscribed_cases hown
  have hshares : sharesOf (w.storage.cobuilders.insert msg.txSender own) =
      sharesOf w.storage.cobuilders + shares := by
    rw [sharesOf_insert, hshare]
    ring
  have hawards : awardsOf (w.storage.cobuilders.insert msg.txSender own) =
      awardsOf w.storage.cobuilders := by
    rw [awardsOf_insert, haward]
    ring
  simp only [surplus, owed, World.setCobuilders, World.setStates, hshares, hawards, mul_add]
  omega

theorem surplus_takeOver {transferor : Address} {shares gain : ℤ}
    (htake : takeOver host msg transferor shares gain table w = some w')
    (hshares : sharesOf table = sharesOf w.storage.cobuilders - shares)
    (hawards : awardsOf table = awardsOf w.storage.cobuilders - gain) :
    surplus w' = surplus w - msg.coinAmount := by
  obtain ⟨own, hown, rfl⟩ := takeOver_cases htake
  obtain ⟨hshare, haward, -⟩ := accepted_cases hown
  have hshares' : sharesOf (table.insert msg.txSender own) = sharesOf w.storage.cobuilders := by
    rw [sharesOf_insert, hshare, hshares]
    ring
  have hawards' : awardsOf (table.insert msg.txSender own) =
      awardsOf w.storage.cobuilders - gain := by
    rw [awardsOf_insert, haward, hawards]
    ring
  simp only [surplus, owed, World.setCobuilders, World.setTransfers, hshares', hawards']
  omega

theorem credited_accept {transferor : Address} {response : Response}
    (henabled : w.storage.states.disabled = false)
    (haccept : accept host (respond host msg response) msg transferor w = some w') :
    ∃ w₁, Credited (if TakesAll msg transferor w then response.rewards else []) w w₁ ∧
      surplus w' = surplus w₁ - msg.coinAmount := by
  obtain ⟨given, shares, hgiven, -, hshares, -, houtcome⟩ := accept_cases haccept
  have htakes : TakesAll msg transferor w ↔ given.share = shares := by
    unfold TakesAll
    rw [hgiven, hshares]
    simp only [Option.mem_def, Option.some.injEq, exists_eq_left']
    exact eq_comm
  rcases houtcome with ⟨hall, w₁, given', hextract, hgiven', htake⟩ | ⟨hpart, -, htake⟩
  · rw [if_pos (htakes.mpr hall)]
    refine ⟨w₁, credited_rewards henabled (respond_extract (callDPOS_zero hextract)), ?_⟩
    -- the DPoS contract leaves the shares alone
    obtain ⟨-, hholders⟩ := sameHolders_callDPOS (sound_respond response) hextract
    obtain ⟨given'', hgiven'', hshare, -⟩ := hholders transferor given' hgiven'
    rw [hgiven] at hgiven''
    obtain rfl := Option.some.inj hgiven''
    refine surplus_takeOver htake ?_ ?_
    · rw [sharesOf_erase, hgiven', Option.elim_some, hshare, hall]
    · rw [awardsOf_erase, hgiven', Option.elim_some]
  · rw [if_neg (mt htakes.mp hpart)]
    refine ⟨w, Credited.nil w, surplus_takeOver htake ?_ ?_⟩
    · rw [sharesOf_insert, hgiven, Option.elim_some]
      dsimp only
      omega
    · rw [awardsOf_insert, hgiven, Option.elim_some]
      dsimp only
      omega

/-- What a call keeps that is not owed to anybody. -/
theorem credited_run {s : Step} (henabled : w.storage.states.disabled = false)
    (hcoins : 0 < s.coins) (hrun : run host w s = some w') :
    surplus w' = surplus w + lost w.storage (s.rewards w) ∧
      (s.rewards w ≠ [] → 0 < w.storage.states.pledgedShares) := by
  cases s with
  | callback msg cb =>
      cases cb with
      | reward amount =>
          dsimp only [run] at hrun
          obtain ⟨-, -, hsurplus, hpositive⟩ := credited_reward henabled hrun
          exact ⟨hsurplus, hpositive⟩
      | refund => cases hcoins
  | call msg hsender method response =>
      dsimp only [run] at hrun
      unfold main at hrun
      rw [if_neg fun hdisabled => Bool.noConfusion (henabled.symm.trans hdisabled.1)] at hrun
      obtain ⟨htakes, hrun⟩ := of_assert hrun
      have hamount : 0 < msg.coinAmount := hcoins
      have htakes : method.takesCoins = true := by
        by_contra hnot
        exact hamount.ne' (htakes (Bool.eq_false_iff.mpr hnot))
      cases method with
      | subscribe shares =>
          have hsurplus := surplus_subscribe hrun
          rw [surplus_arrive, add_sub_cancel_right] at hsurplus
          exact ⟨hsurplus.trans (add_zero _).symm, fun hne => absurd rfl hne⟩
      | accept transferor =>
          obtain ⟨w₁, ⟨-, -, hsurplus, hpositive⟩, hpaid⟩ :=
            credited_accept (w := w.arrive msg.coinAmount) henabled hrun
          refine ⟨?_, hpositive⟩
          rw [hpaid, hsurplus, surplus_arrive, add_right_comm, add_sub_cancel_right]
          rfl
      | reward => exact absurd (of_assert hrun).1 hsender
      | refund => exact absurd (of_assert hrun).1 hsender
      | _ => cases htakes

/-- A disbanded contract does nothing. -/
theorem run_disabled {s : Step} (hdisabled : w.storage.states.disabled = true)
    (hcoins : 0 < s.coins) (hrun : run host w s = some w') : w' = w.arrive s.coins := by
  cases s with
  | callback msg cb =>
      cases cb with
      | reward amount =>
          dsimp only [run, callback] at hrun
          unfold main at hrun
          rw [if_pos ⟨hdisabled, nofun⟩] at hrun
          exact (Option.some.inj hrun).symm
      | refund => cases hcoins
  | call msg hsender method response =>
      dsimp only [run] at hrun
      unfold main at hrun
      by_cases hrevoke : method = .revoke
      · -- the shares that are given back come with no coins
        rw [hrevoke, if_neg fun hboth => hboth.2 rfl] at hrun
        exact absurd ((of_assert hrun).1 rfl) hcoins.ne'
      · rw [if_pos ⟨hdisabled, hrevoke⟩] at hrun
        exact (Option.some.inj hrun).symm

theorem kept_iff {s : Step} (hcoins : 0 < s.coins) (hrun : run host w s = some w') :
    Kept w w' ↔ w.storage.states.disabled = false ∧
      (w.storage.states.pledgedShares ≤ pledgedOf w.storage.cobuilders ∨
        ∀ amount ∈ s.rewards w, (amount : ℤ) < w.storage.states.pledgedShares) := by
  rw [kept_iff_surplus]
  cases hdisabled : w.storage.states.disabled with
  | true =>
      rw [run_disabled hdisabled hcoins hrun, surplus_arrive]
      refine iff_of_false ?_ fun hboth => absurd hboth.1 Bool.noConfusion
      omega
  | false =>
      obtain ⟨hsurplus, hpositive⟩ := credited_run hdisabled hcoins hrun
      rw [hsurplus, ← lost_nonpos_iff hpositive, and_iff_right rfl]
      omega

/-- **Coins that come with a call are kept** for somebody, in every history, exactly if the contract
is not disbanded and the rewards among them are for pledged shares that are there, or too small
for a share to get any. -/
theorem coins_kept_iff (host : Host) (msg : Msg) (unit shares : ℤ) (baseReserve : ℕ)
    (steps : List Step) :
    ∀ w ∈ init msg unit shares baseReserve, ∀ w₁ ∈ states host w steps, ∀ s : Step, 0 < s.coins →
      ∀ w₂ ∈ run host w₁ s, (Kept w₁ w₂ ↔ w₁.storage.states.disabled = false ∧
        (w₁.storage.states.pledgedShares ≤ pledgedOf w₁.storage.cobuilders ∨
          ∀ amount ∈ s.rewards w₁, (amount : ℤ) < w₁.storage.states.pledgedShares)) :=
  fun _ _ _ _ _ hcoins _ hrun => kept_iff hcoins hrun

/-- `[2]` subscribes to one share. -/
theorem coins_kept_subscribe :
    ∃ w₂ ∈ run sampleHost sampleWorld (sampleCall 2 10000000000000 (.subscribe 1)),
      Kept sampleWorld w₂ := by
  have hruns : (run sampleHost sampleWorld
      (sampleCall 2 10000000000000 (.subscribe 1))).isSome := by
    decide +kernel
  obtain ⟨w₂, hrun⟩ := Option.isSome_iff_exists.mp hruns
  exact ⟨w₂, hrun, (coins_kept_iff sampleHost _ _ _ _ [] sampleWorld init_sampleWorld sampleWorld
    (List.mem_singleton.mpr rfl) _ (by decide) w₂ hrun).mpr ⟨by decide +kernel, .inr nofun⟩⟩

/-- The initiator disbands the contract before it has applied, and `[2]` subscribes to a share that
it does not get. -/
theorem coins_swallowed :
    ∃ w ∈ states sampleHost sampleWorld [sampleCall 1 0 .coWithdraw],
      ∃ w' ∈ run sampleHost w (sampleCall 2 10000000000000 (.subscribe 1)), ¬ Kept w w' := by
  obtain ⟨w, hw, w', hw', hlost⟩ : ∃ w ∈ states sampleHost sampleWorld [sampleCall 1 0 .coWithdraw],
      ∃ w' ∈ run sampleHost w (sampleCall 2 10000000000000 (.subscribe 1)),
        ¬ w'.balance - w.balance ≤ owed w'.storage - owed w.storage := by
    decide +kernel
  exact ⟨w, hw, w', hw', hlost⟩

end CegChain.Cobuild
