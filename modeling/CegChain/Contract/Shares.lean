import CegChain.Contract.Outcomes

/-!
# The books of the co-build contract

The sums in `states` are the sums over the holders, and the account covers the shares that are
not pledged and the awards (`Balanced`).  The coins for the pledged shares are with the DPoS
contract, which is why it matters that `pledgedShares` is right when they come back.

`accept` breaks this (`books_broken`): when all shares of the transferor are handed over, it does
not look at the flag of the one who accepts, and pledged shares turn into shares that are not.
Where nobody with shares that are not pledged accepts all shares of another, the books are right
(`books_balance`).
-/

namespace CegChain.Cobuild

open Layers Totals
open Dpos (assert int64Add int64Sub int64Mod Role of_bind of_assert)

variable {host : Host} {dpos : DposContract} {msg : Msg} {w w' w₁ : World} {spare spare' : ℤ}
  {table table' : Table Address Cobuilder} {address : Address} {own : Cobuilder}

/-! ## Sums -/

namespace Cobuilder

/-- The shares that are pledged. -/
def pledgedShare (cobuilder : Cobuilder) : ℤ :=
  if cobuilder.pledged then cobuilder.share else 0

/-- The shares that are not pledged. -/
def freeShare (cobuilder : Cobuilder) : ℤ :=
  if cobuilder.pledged then 0 else cobuilder.share

theorem pledgedShare_add_freeShare (cobuilder : Cobuilder) :
    cobuilder.pledgedShare + cobuilder.freeShare = cobuilder.share := by
  unfold pledgedShare freeShare
  split <;> omega

theorem shares_of_pledged {cobuilder : Cobuilder} (hpledged : cobuilder.pledged = true) :
    cobuilder.pledgedShare = cobuilder.share ∧ cobuilder.freeShare = 0 := by
  simp [pledgedShare, freeShare, hpledged]

theorem shares_of_free {cobuilder : Cobuilder} (hpledged : cobuilder.pledged = false) :
    cobuilder.pledgedShare = 0 ∧ cobuilder.freeShare = cobuilder.share := by
  simp [pledgedShare, freeShare, hpledged]

theorem pledgedShare_nonneg {cobuilder : Cobuilder} (hshare : 0 ≤ cobuilder.share) :
    0 ≤ cobuilder.pledgedShare := by
  unfold pledgedShare
  split
  · exact hshare
  · exact le_rfl

end Cobuilder

/-- The sum of all shares. -/
def sharesOf (table : Table Address Cobuilder) : ℤ :=
  total (fun _ cobuilder => cobuilder.share) table

/-- The sum of the pledged shares. -/
def pledgedOf (table : Table Address Cobuilder) : ℤ :=
  total (fun _ cobuilder => cobuilder.pledgedShare) table

/-- The sum of the shares that are not pledged. -/
def freeOf (table : Table Address Cobuilder) : ℤ :=
  total (fun _ cobuilder => cobuilder.freeShare) table

/-- The sum of the awards. -/
def awardsOf (table : Table Address Cobuilder) : ℤ :=
  total (fun _ cobuilder => cobuilder.award) table

theorem sharesOf_eq (table : Table Address Cobuilder) :
    sharesOf table = pledgedOf table + freeOf table := by
  unfold sharesOf pledgedOf freeOf
  rw [← total_add]
  simp only [Cobuilder.pledgedShare_add_freeShare]

section Updates

variable (table : Table Address Cobuilder) (address : Address) (own : Cobuilder)

theorem sharesOf_insert : sharesOf (table.insert address own) =
    sharesOf table - (table.lookup address).elim 0 Cobuilder.share + own.share :=
  total_insert table address own

theorem pledgedOf_insert : pledgedOf (table.insert address own) =
    pledgedOf table - (table.lookup address).elim 0 Cobuilder.pledgedShare + own.pledgedShare :=
  total_insert table address own

theorem freeOf_insert : freeOf (table.insert address own) =
    freeOf table - (table.lookup address).elim 0 Cobuilder.freeShare + own.freeShare :=
  total_insert table address own

theorem awardsOf_insert : awardsOf (table.insert address own) =
    awardsOf table - (table.lookup address).elim 0 Cobuilder.award + own.award :=
  total_insert table address own

theorem sharesOf_erase : sharesOf (table.erase address) =
    sharesOf table - (table.lookup address).elim 0 Cobuilder.share :=
  total_erase table address

theorem awardsOf_erase : awardsOf (table.erase address) =
    awardsOf table - (table.lookup address).elim 0 Cobuilder.award :=
  total_erase table address

end Updates

/-! ## The invariant -/

/-- A holder is in order. -/
structure Holder (applied : Bool) (cobuilder : Cobuilder) : Prop where
  share : 0 ≤ cobuilder.share
  award : 0 ≤ cobuilder.award
  pledged : applied = false → cobuilder.pledged = false

/-- The books are right, and `spare` coins are on the account besides what it has to cover. -/
structure Balanced (spare : ℤ) (w : World) : Prop where
  allShares : w.storage.states.allShares = sharesOf w.storage.cobuilders
  pledgedShares : w.storage.states.pledgedShares = pledgedOf w.storage.cobuilders
  deposited : (w.deposited : ℤ) = w.storage.cfg.unit * w.storage.states.pledgedShares
  covered : w.storage.cfg.unit * freeOf w.storage.cobuilders + awardsOf w.storage.cobuilders +
    spare ≤ w.balance
  holders : ∀ address cobuilder, w.storage.cobuilders.lookup address = some cobuilder →
    Holder w.storage.states.applied cobuilder
  offers : ∀ key shares, w.storage.transfers.lookup key = some shares → 0 < shares
  disabled : w.storage.states.disabled = true → w.storage.states.applied = false
  unit : 0 ≤ w.storage.cfg.unit

/-- No shares are pledged before the application. -/
theorem pledgedOf_eq_zero (hholders : ∀ address cobuilder, table.lookup address =
    some cobuilder → Holder false cobuilder) : pledgedOf table = 0 := by
  refine total_eq_zero fun address cobuilder hlookup => ?_
  rw [Cobuilder.pledgedShare, (hholders address cobuilder hlookup).pledged rfl]
  rfl

theorem Balanced.pledgedShares_eq_zero (hw : Balanced spare w)
    (happlied : w.storage.states.applied = false) : w.storage.states.pledgedShares = 0 := by
  rw [hw.pledgedShares]
  refine pledgedOf_eq_zero ?_
  rw [← happlied]
  exact hw.holders

/-- The rule for what leaves the sums and the holders alone. -/
theorem Balanced.of_eq (hw : Balanced spare w) (hstates : w'.storage.states = w.storage.states)
    (hcfg : w'.storage.cfg = w.storage.cfg)
    (hcobuilders : w'.storage.cobuilders = w.storage.cobuilders)
    (hdeposited : w'.deposited = w.deposited)
    (hoffers : ∀ key shares, w'.storage.transfers.lookup key = some shares → 0 < shares)
    (hbalance : w.balance - spare ≤ w'.balance - spare') : Balanced spare' w' where
  allShares := by rw [hstates, hcobuilders, hw.allShares]
  pledgedShares := by rw [hstates, hcobuilders, hw.pledgedShares]
  deposited := by rw [hdeposited, hcfg, hstates, hw.deposited]
  covered := by
    have hcovered := hw.covered
    rw [hcfg, hcobuilders]
    omega
  holders := by
    rw [hcobuilders, hstates]
    exact hw.holders
  offers := hoffers
  disabled := by
    rw [hstates]
    exact hw.disabled
  unit := by
    rw [hcfg]
    exact hw.unit

theorem Balanced.arrive (hw : Balanced spare w) (amount : ℕ) :
    Balanced (spare + amount) (w.arrive amount) := by
  refine hw.of_eq rfl rfl rfl rfl hw.offers ?_
  simp only [World.arrive]
  omega

theorem Balanced.mono (hw : Balanced spare w) (hle : spare' ≤ spare) : Balanced spare' w :=
  hw.of_eq rfl rfl rfl rfl hw.offers (by omega)

/-- The rule for what changes the holders: `states` and the account follow. -/
theorem Balanced.of_sums (hw : Balanced spare w) (shares pledged free award : ℤ)
    (hcfg : w'.storage.cfg = w.storage.cfg)
    (hshares : sharesOf w'.storage.cobuilders = sharesOf w.storage.cobuilders + shares)
    (hpledged : pledgedOf w'.storage.cobuilders = pledgedOf w.storage.cobuilders + pledged)
    (hfree : freeOf w'.storage.cobuilders = freeOf w.storage.cobuilders + free)
    (hawards : awardsOf w'.storage.cobuilders = awardsOf w.storage.cobuilders + award)
    (hallShares : w'.storage.states.allShares = w.storage.states.allShares + shares)
    (hpledgedShares : w'.storage.states.pledgedShares = w.storage.states.pledgedShares + pledged)
    (hdeposited : (w'.deposited : ℤ) = w.deposited + w.storage.cfg.unit * pledged)
    (hbalance : w.balance - spare + w.storage.cfg.unit * free + award ≤ w'.balance - spare')
    (hholders : ∀ address cobuilder, w'.storage.cobuilders.lookup address = some cobuilder →
      Holder w'.storage.states.applied cobuilder)
    (hoffers : ∀ key shares, w'.storage.transfers.lookup key = some shares → 0 < shares)
    (hdisabled : w'.storage.states.disabled = true → w'.storage.states.applied = false) :
    Balanced spare' w' where
  allShares := by rw [hallShares, hshares, hw.allShares]
  pledgedShares := by rw [hpledgedShares, hpledged, hw.pledgedShares]
  deposited := by
    rw [hdeposited, hw.deposited, hcfg, hpledgedShares]
    ring
  covered := by
    have hcovered := hw.covered
    rw [hcfg, hfree, hawards, mul_add]
    omega
  holders := hholders
  offers := hoffers
  disabled := hdisabled
  unit := by
    rw [hcfg]
    exact hw.unit

/-! ## The calls of the DPoS contract -/

/-- The shares and the flags are those from before. -/
structure SameHolders (w w' : World) : Prop where
  cfg : w'.storage.cfg = w.storage.cfg
  holders : ∀ address cobuilder', w'.storage.cobuilders.lookup address = some cobuilder' →
    ∃ cobuilder, w.storage.cobuilders.lookup address = some cobuilder ∧
      cobuilder'.share = cobuilder.share ∧ cobuilder'.pledged = cobuilder.pledged

theorem SameHolders.refl (w : World) : SameHolders w w :=
  ⟨rfl, fun _ cobuilder hlookup => ⟨cobuilder, hlookup, rfl, rfl⟩⟩

theorem SameHolders.trans (hfirst : SameHolders w w') (hsecond : SameHolders w' w₁) :
    SameHolders w w₁ := by
  refine ⟨hsecond.cfg.trans hfirst.cfg, fun address c hlookup => ?_⟩
  obtain ⟨c', hlookup', hshare', hpledged'⟩ := hsecond.holders address c hlookup
  obtain ⟨c'', hlookup'', hshare'', hpledged''⟩ := hfirst.holders address c' hlookup'
  exact ⟨c'', hlookup'', hshare'.trans hshare'', hpledged'.trans hpledged''⟩

theorem of_rewarded {unitReward : ℤ} {cobuilder cobuilder' : Cobuilder}
    (hrewarded : rewarded unitReward cobuilder = some cobuilder') :
    cobuilder' =
      { cobuilder with award := cobuilder.award + unitReward * cobuilder.pledgedShare } := by
  unfold rewarded at hrewarded
  split at hrewarded
  · rename_i hpledged
    obtain ⟨each, heach, hrewarded⟩ := of_bind hrewarded
    obtain rfl := Dpos.of_int64Mul heach
    obtain ⟨award, haward, hrewarded⟩ := of_bind hrewarded
    obtain rfl := Dpos.of_int64Add haward
    obtain rfl := Option.some.inj hrewarded
    simp [Cobuilder.pledgedShare, hpledged]
  · rename_i hpledged
    obtain rfl := Option.some.inj hrewarded
    rw [Cobuilder.pledgedShare, if_neg hpledged, mul_zero, add_zero]

/-- What `distribute` does to the holders. -/
theorem distribute_cases {allReward : ℤ} (hdistribute : distribute msg allReward w = some w') :
    ∃ unitReward left cobuilders initiator, 0 ≤ allReward ∧
      unitReward = allReward / w.storage.states.pledgedShares ∧
      left = allReward % w.storage.states.pledgedShares ∧
      0 < w.storage.states.pledgedShares ∧
      mapValuesM (fun _ => rewarded unitReward) w.storage.cobuilders = some cobuilders ∧
      cobuilders.lookup w.storage.cfg.initiator = some initiator ∧
      w' = w.setCobuilders (cobuilders.insert w.storage.cfg.initiator
        { initiator with award := initiator.award + left }) := by
  unfold distribute at hdistribute
  obtain ⟨-, hdistribute⟩ := of_assert hdistribute
  obtain ⟨unitReward, hunit, hdistribute⟩ := of_bind hdistribute
  obtain ⟨cobuilders, hmap, hdistribute⟩ := of_bind hdistribute
  obtain ⟨left, hleft, hdistribute⟩ := of_bind hdistribute
  obtain ⟨initiator, hinitiator, hdistribute⟩ := of_bind hdistribute
  obtain ⟨award, haward, hdistribute⟩ := of_bind hdistribute
  obtain rfl := Dpos.of_int64Add haward
  obtain ⟨hpositive, hnonneg, hunit⟩ := Dpos.of_int64Div hunit
  obtain ⟨-, -, hleft⟩ := Dpos.of_int64Mod hleft
  exact ⟨unitReward, left, cobuilders, initiator, hnonneg, hunit, hleft, hpositive, hmap,
    hinitiator, (Option.some.inj hdistribute).symm⟩

theorem sameHolders_distribute {allReward : ℤ}
    (hdistribute : distribute msg allReward w = some w') : SameHolders w w' := by
  obtain ⟨unitReward, left, cobuilders, initiator, -, -, -, -, hmap, hinitiator, rfl⟩ :=
    distribute_cases hdistribute
  have hmapped : ∀ address cobuilder', cobuilders.lookup address = some cobuilder' →
      ∃ cobuilder, w.storage.cobuilders.lookup address = some cobuilder ∧
        cobuilder'.share = cobuilder.share ∧ cobuilder'.pledged = cobuilder.pledged := by
    intro address cobuilder' hlookup
    rw [lookup_mapValuesM hmap] at hlookup
    obtain ⟨cobuilder, hlookup, hrewarded⟩ := Option.bind_eq_some_iff.mp hlookup
    refine ⟨cobuilder, hlookup, ?_⟩
    rw [of_rewarded hrewarded]
    exact ⟨rfl, rfl⟩
  exact ⟨rfl, forall_lookup_insert hmapped (hmapped _ initiator hinitiator)⟩

/-- The shares stay as they are, and the awards grow by what is credited. -/
theorem sums_distribute {allReward : ℤ} (hdistribute : distribute msg allReward w = some w') :
    sharesOf w'.storage.cobuilders = sharesOf w.storage.cobuilders ∧
      pledgedOf w'.storage.cobuilders = pledgedOf w.storage.cobuilders ∧
      freeOf w'.storage.cobuilders = freeOf w.storage.cobuilders ∧
      awardsOf w'.storage.cobuilders = awardsOf w.storage.cobuilders +
        (allReward / w.storage.states.pledgedShares * pledgedOf w.storage.cobuilders +
          allReward % w.storage.states.pledgedShares) := by
  obtain ⟨unitReward, left, cobuilders, initiator, -, rfl, rfl, -, hmap, hinitiator, rfl⟩ :=
    distribute_cases hdistribute
  have hshares : sharesOf cobuilders = sharesOf w.storage.cobuilders :=
    total_mapValuesM hmap fun _ _ _ _ hrewarded => by rw [of_rewarded hrewarded]
  have hpledged : pledgedOf cobuilders = pledgedOf w.storage.cobuilders :=
    total_mapValuesM hmap fun _ _ _ _ hrewarded => by rw [of_rewarded hrewarded]; rfl
  have hfree : freeOf cobuilders = freeOf w.storage.cobuilders :=
    total_mapValuesM hmap fun _ _ _ _ hrewarded => by rw [of_rewarded hrewarded]; rfl
  have hawards : awardsOf cobuilders = awardsOf w.storage.cobuilders +
      allReward / w.storage.states.pledgedShares * pledgedOf w.storage.cobuilders := by
    rw [awardsOf, awardsOf, pledgedOf, ← total_const_mul, ← total_add]
    exact total_mapValuesM hmap fun _ _ _ _ hrewarded => by rw [of_rewarded hrewarded]
  simp only [World.setCobuilders]
  refine ⟨?_, ?_, ?_, ?_⟩
  · rw [sharesOf_insert, hinitiator, hshares]
    exact sub_add_cancel _ _
  · rw [pledgedOf_insert, hinitiator, hpledged]
    exact sub_add_cancel _ _
  · rw [freeOf_insert, hinitiator, hfree]
    exact sub_add_cancel _ _
  · rw [awardsOf_insert, hinitiator, hawards, Option.elim_some]
    dsimp only
    omega

/-- The whole reward is credited: to each what its shares are worth, and the rest to the
initiator. -/
theorem balanced_distribute {allReward : ℤ} (hw : Balanced (spare + allReward) w)
    (hdistribute : distribute msg allReward w = some w') : Balanced spare w' := by
  obtain ⟨hshares, hpledged, hfree, hawards⟩ := sums_distribute hdistribute
  obtain ⟨unitReward, left, cobuilders, initiator, hnonneg, hunit, hleft, hpositive, hmap,
    hinitiator, rfl⟩ := distribute_cases hdistribute
  have hunit_nonneg : 0 ≤ unitReward := hunit ▸ Int.ediv_nonneg hnonneg hpositive.le
  have hleft_nonneg : 0 ≤ left := hleft ▸ Int.emod_nonneg _ hpositive.ne'
  have hall : allReward / w.storage.states.pledgedShares * pledgedOf w.storage.cobuilders +
      allReward % w.storage.states.pledgedShares = allReward := by
    rw [← hw.pledgedShares, mul_comm]
    exact Int.mul_ediv_add_emod _ _
  rw [hall] at hawards
  have hmapped : ∀ address cobuilder, cobuilders.lookup address = some cobuilder →
      Holder w.storage.states.applied cobuilder := by
    intro address cobuilder hlookup
    rw [lookup_mapValuesM hmap] at hlookup
    obtain ⟨cobuilder, hlookup, hrewarded⟩ := Option.bind_eq_some_iff.mp hlookup
    obtain ⟨hshare, haward, hflag⟩ := hw.holders address cobuilder hlookup
    rw [of_rewarded hrewarded]
    exact ⟨hshare, add_nonneg haward (mul_nonneg hunit_nonneg
      (Cobuilder.pledgedShare_nonneg hshare)), hflag⟩
  have hholder := hmapped _ initiator hinitiator
  refine hw.of_sums 0 0 0 allReward rfl (hshares.trans (add_zero _).symm)
    (hpledged.trans (add_zero _).symm) (hfree.trans (add_zero _).symm) hawards
    (by simp [World.setCobuilders]) (by simp [World.setCobuilders])
    (by simp [World.setCobuilders]) ?_ ?_ hw.offers hw.disabled
  · simp only [World.setCobuilders]
    omega
  · exact forall_lookup_insert hmapped
      ⟨hholder.share, add_nonneg hholder.award hleft_nonneg, hholder.pledged⟩

/-- All flags are set to `pledged`. -/
theorem sums_mapValuesM {flag : Bool}
    (hmap : mapValuesM (fun _ (cobuilder : Cobuilder) => some { cobuilder with pledged := flag })
      table = some table') :
    sharesOf table' = sharesOf table ∧ awardsOf table' = awardsOf table ∧
      pledgedOf table' = (if flag then sharesOf table else 0) ∧
      freeOf table' = (if flag then 0 else sharesOf table) := by
  have hmapped : ∀ f g : Cobuilder → ℤ,
      (∀ cobuilder : Cobuilder, f { cobuilder with pledged := flag } = g cobuilder) →
      total (fun _ => f) table' = total (fun _ => g) table := by
    intro f g hf
    refine total_mapValuesM hmap fun _ cobuilder _ _ hsome => ?_
    rw [← Option.some.inj hsome]
    exact hf cobuilder
  refine ⟨hmapped _ _ fun _ => rfl, hmapped _ _ fun _ => rfl, ?_, ?_⟩
  · cases flag with
    | true => exact hmapped _ _ fun _ => rfl
    | false => exact (hmapped _ (fun _ => 0) fun _ => rfl).trans (total_eq_zero fun _ _ _ => rfl)
  · cases flag with
    | true => exact (hmapped _ (fun _ => 0) fun _ => rfl).trans (total_eq_zero fun _ _ _ => rfl)
    | false => exact hmapped _ _ fun _ => rfl

theorem holder_mapValuesM {flag applied applied' : Bool}
    (hmap : mapValuesM (fun _ (cobuilder : Cobuilder) => some { cobuilder with pledged := flag })
      table = some table')
    (hholders : ∀ address cobuilder, table.lookup address = some cobuilder →
      Holder applied cobuilder) (hflag : applied' = false → flag = false) :
    ∀ address cobuilder, table'.lookup address = some cobuilder → Holder applied' cobuilder := by
  intro address cobuilder hlookup
  rw [lookup_mapValuesM hmap] at hlookup
  obtain ⟨cobuilder', hlookup, hsome⟩ := Option.bind_eq_some_iff.mp hlookup
  obtain ⟨hshare, haward, -⟩ := hholders address cobuilder' hlookup
  rw [← Option.some.inj hsome]
  exact ⟨hshare, haward, hflag⟩

/-- The coins come back, and no share is pledged any more. -/
theorem balanced_received (hw : Balanced spare w)
    (hreceived : received msg { w.arrive w.deposited with deposited := 0 } = some w') :
    Balanced spare w' := by
  obtain ⟨cobuilders, hmap, rfl⟩ := received_cases hreceived
  obtain ⟨hshares, hawards, hpledged, hfree⟩ := sums_mapValuesM hmap
  have hsum := sharesOf_eq w.storage.cobuilders
  have hdeposited := hw.deposited
  have hpledgedShares := hw.pledgedShares
  simp only [World.arrive, if_neg Bool.false_ne_true] at hshares hawards hpledged hfree
  refine hw.of_sums 0 (-pledgedOf w.storage.cobuilders) (pledgedOf w.storage.cobuilders) 0 rfl
    ?_ ?_ ?_ ?_ ?_ ?_ ?_ ?_ (holder_mapValuesM hmap hw.holders fun _ => rfl) hw.offers
    fun _ => rfl
  · exact hshares.trans (add_zero _).symm
  · simp only [World.setWithdraw, World.setStates, World.setCobuilders]
    omega
  · simp only [World.setWithdraw, World.setStates, World.setCobuilders]
    omega
  · exact hawards.trans (add_zero _).symm
  · exact (add_zero _).symm
  · simp only [World.setWithdraw, World.setStates, World.setCobuilders]
    omega
  · rw [hpledgedShares] at hdeposited
    simp only [World.setWithdraw, World.setStates, World.setCobuilders, mul_neg]
    omega
  · rw [hpledgedShares] at hdeposited
    simp only [World.setWithdraw, World.setStates, World.setCobuilders, World.arrive]
    omega

theorem balanced_callback {cb : Callback} (hw : Balanced spare w)
    (hcallback : callback host msg w cb = some w') : Balanced spare w' := by
  cases cb with
  | reward amount =>
      rcases reward_cases hcallback with ⟨-, rfl⟩ | hcallback
      · exact (hw.arrive amount).mono (by omega)
      · exact balanced_distribute (hw.arrive amount) hcallback
  | refund =>
      rcases refund_cases hcallback with ⟨hdisabled, rfl⟩ | hcallback
      · -- nothing is pledged, and so nothing is given back
        have happlied := hw.disabled hdisabled
        have hdeposited : w.deposited = 0 := by
          have hdeposited := hw.deposited
          rw [hw.pledgedShares_eq_zero happlied, mul_zero] at hdeposited
          exact_mod_cast hdeposited
        refine hw.of_eq rfl rfl rfl hdeposited.symm hw.offers ?_
        simp only [World.arrive]
        omega
      · exact balanced_received hw hcallback

theorem sameHolders_reward {amount : ℕ}
    (hcallback : callback host msg w (.reward amount) = some w') : SameHolders w w' := by
  have harrive : SameHolders w (w.arrive amount) := ⟨rfl, (SameHolders.refl w).holders⟩
  rcases reward_cases hcallback with ⟨-, rfl⟩ | hcallback
  · exact harrive
  · exact harrive.trans (sameHolders_distribute hcallback)

/-- What the contract relies on when it calls the DPoS contract. -/
structure DposContract.Sound (dpos : DposContract) : Prop where
  balanced : ∀ {spare input w w'}, Balanced spare w → dpos.call input w = some w' →
    Balanced spare w'
  extract : ∀ {w w'}, dpos.call .extract w = some w' → SameHolders w w'

theorem sound_respond (response : Response) : (respond host msg response).Sound where
  balanced hw hcall := respond_invariant balanced_callback hw hcall
  extract {w _} hcall := extract_invariant (p := SameHolders w)
    (fun hfirst hreward => hfirst.trans (sameHolders_reward hreward)) (.refl w) hcall

/-! ## Payments -/

theorem sameHolders_callDPOS (hdpos : dpos.Sound)
    (hcall : callDPOS host dpos 0 .extract w = some w') : SameHolders w w' :=
  hdpos.extract (callDPOS_zero hcall)

/-! ## The methods -/

theorem of_subscribed {shares : ℤ} {o : Option Cobuilder}
    (hsubscribed : subscribed shares o = some own) :
    own.pledged = false ∧ own.share = o.elim 0 Cobuilder.share + shares ∧
      own.award = o.elim 0 Cobuilder.award ∧ o.elim 0 Cobuilder.pledgedShare = 0 ∧
      o.elim 0 Cobuilder.freeShare = o.elim 0 Cobuilder.share := by
  obtain ⟨hpledged, hshare, haward, hold⟩ := subscribed_cases hsubscribed
  refine ⟨hpledged, hshare, haward, ?_⟩
  cases o with
  | none => exact ⟨rfl, rfl⟩
  | some old => exact Cobuilder.shares_of_free (hold old rfl)

theorem of_accepted {shares : ℤ} {o : Option Cobuilder} (ho : ∀ old ∈ o, old.pledged = true)
    (haccepted : accepted shares o = some own) :
    own.pledged = true ∧ own.share = o.elim 0 Cobuilder.share + shares ∧
      own.award = o.elim 0 Cobuilder.award ∧
      o.elim 0 Cobuilder.pledgedShare = o.elim 0 Cobuilder.share ∧
      o.elim 0 Cobuilder.freeShare = 0 := by
  obtain ⟨hshare, haward, hpledged⟩ := accepted_cases haccepted
  cases o with
  | none => exact ⟨hpledged, hshare, haward, rfl, rfl⟩
  | some old => exact ⟨hpledged.trans (ho old rfl), hshare, haward,
      Cobuilder.shares_of_pledged (ho old rfl)⟩

/-- Nobody with shares that are not pledged accepts all shares of another. -/
def Keeps (msg : Msg) (transferor : Address) (w : World) : Prop :=
  ∀ own given, w.storage.cobuilders.lookup msg.txSender = some own → own.pledged = false →
    w.storage.cobuilders.lookup transferor = some given →
      w.storage.transfers.lookup (transferor, msg.txSender) ≠ some given.share

theorem Balanced.setWithdraw (hw : Balanced spare w) (withdraw : Option Proposal) :
    Balanced spare (w.setWithdraw withdraw) :=
  hw.of_eq rfl rfl rfl rfl hw.offers le_rfl

/-- An award is paid and set to zero. -/
theorem Balanced.payAward (hw : Balanced spare (w.setCobuilders table))
    (hlookup : table.lookup address = some own) :
    Balanced spare ({ w with balance := w.balance - own.award }.setCobuilders
      (table.insert address { own with award := 0 })) := by
  have hholder := hw.holders address own hlookup
  refine hw.of_sums 0 0 0 (-own.award) rfl ?_ ?_ ?_ ?_ (add_zero _).symm (add_zero _).symm ?_ ?_
    (forall_lookup_insert hw.holders ⟨hholder.share, le_rfl, hholder.pledged⟩) hw.offers
    hw.disabled
  · refine (total_insert_of_lookup hlookup _).trans ?_
    rw [sub_self]
    rfl
  · refine (total_insert_of_lookup hlookup _).trans ?_
    simp only [Cobuilder.pledgedShare, sub_self]
    rfl
  · refine (total_insert_of_lookup hlookup _).trans ?_
    simp only [Cobuilder.freeShare, sub_self]
    rfl
  · refine (total_insert_of_lookup hlookup _).trans ?_
    rw [zero_sub]
    rfl
  · rw [mul_zero, add_zero]
    rfl
  · change w.balance - spare + _ + _ ≤ w.balance - own.award - spare
    rw [mul_zero]
    omega

/-- What is asked of a step in the state that it meets. -/
def Step.Keeps (w : World) : Step → Prop
  | .call msg _ (.accept transferor) _ => Cobuild.Keeps msg transferor w
  | _ => True

/-- Every address is well formed. -/
def sampleHost : Host where
  addressCheck _ := true
  thisAddress := [9]
  baseReserve := 1000000

/-- A call by the source of a transaction. -/
def sampleMsg (sender : Address) (coinAmount : ℕ) : Msg :=
  ⟨sender, sender, coinAmount, 0⟩

/-- The DPoS contract takes what it is given. -/
def quiet : Response :=
  ⟨false, [], [], none⟩

theorem singleton_ne_dposContract (n : UInt8) : [n] ≠ dposContract := by
  intro heq
  have hlength : dposContract.length = 37 := by decide +kernel
  rw [← heq] at hlength
  cases hlength

/-- A step in which somebody calls the contract. -/
def sampleCall (n : UInt8) (coinAmount : ℕ) (method : Method) : Step :=
  .call (sampleMsg [n] coinAmount) (singleton_ne_dposContract n) method quiet

/-- `[1]` starts with ten shares. -/
def sampleInit : Option World :=
  init (sampleMsg [1] (1000000 + 10 * 10000000000000)) 10000000000000 10 1000000

def sampleWorld : World :=
  sampleInit.get (by decide +kernel)

theorem init_sampleWorld : sampleInit = some sampleWorld :=
  (Option.some_get _).symm

end CegChain.Cobuild
