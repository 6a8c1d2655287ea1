import CegChain.Ledger.Holdings

/-!
# Operations on assets

`IssueAsset` and `PayAsset` of `ledger/operation_frm.cpp`, on the root of a block and
without contracts.  An issue that succeeds adds its amount to what its source holds
(`shifted_issueAsset`).  A payment takes an amount from one account before it gives it to
another; the second sum can still overflow, and then the operation fails and the buffer is
cleared, so a payment that succeeds moves the amount as a whole (`shifted_payAsset`).
-/

namespace CegChain

open Layers AtomMap Totals LedgerContext LedgerFrm

/-- An `IssueAsset`, or a `PayAsset` to a canonical address without code. -/
def OperationBody.OnAssets (lcl : Closed) : OperationBody → Prop
  | .issueAsset _ => True
  | .payAsset message => Canonical message.destAddress ∧
      ∀ account ∈ lcl.accountFromDB message.destAddress, account.contract.payload = []
  | _ => False

instance (lcl : Closed) (body : OperationBody) : Decidable (body.OnAssets lcl) := by
  cases body <;> unfold OperationBody.OnAssets <;> infer_instance

/-- An operation on assets with canonical addresses that passes `CheckValid`. -/
structure Operation.OnAssets (lib : Library) (lcl : Closed) (tran : Transaction)
    (ope : Operation) : Prop where
  canonical : Canonical (tran.operationSource ope)
  valid : OperationFrm.checkValid lib lcl ope (tran.operationSource ope) 0 = .success
  body : ope.body.OnAssets lcl

/-- What the operation adds to the holdings of an asset when it succeeds. -/
def Operation.issued (tran : Transaction) (ope : Operation) (key : AssetKey) : ℤ :=
  match ope.body with
  | .issueAsset message =>
      if key = { issuer := tran.operationSource ope, code := message.code } then
        message.amount.toInt
      else 0
  | _ => 0

namespace OperationFrm

variable {lib : Library} {lcl : Closed} {c c' : LedgerContext} {source dest : Address}
  {account : AccountFrm} {tran : Transaction} {ope : Operation}

/-! ## What `CheckValid` has found -/

theorem toInt_pos_of_not_le {amount : Int64} (hamount : ¬amount ≤ 0) : 0 < amount.toInt := by
  rw [Int64.le_iff_toInt_le, Int64.toInt_zero] at hamount
  omega

theorem pos_of_checkIssueAsset {message : OperationIssueAsset}
    (hvalid : checkIssueAsset message = .success) : 0 < message.amount.toInt := by
  unfold checkIssueAsset at hvalid
  dsimp only at hvalid
  split_ifs at hvalid with hamount
  exact toInt_pos_of_not_le hamount

theorem of_checkPayAsset {message : OperationPayAsset}
    (hvalid : checkPayAsset lib message source = .success) :
    source ≠ message.destAddress ∧ ∀ asset ∈ message.asset, 0 < asset.amount.toInt := by
  unfold checkPayAsset at hvalid
  dsimp only at hvalid
  split at hvalid
  · rename_i hasset
    split_ifs at hvalid with hsource hdest
    refine ⟨hsource, fun asset hmem => ?_⟩
    rw [Option.mem_def.mp hmem] at hasset
    dsimp only at hasset
    split_ifs at hasset with htype hamount
    exact toInt_pos_of_not_le hamount
  · rename_i hcode
    exact absurd hvalid hcode

/-- An operation that passed has passed the check of its own kind. -/
theorem check_of_valid {stackSize : ℕ}
    (hvalid : checkValid lib lcl ope source stackSize = .success) :
    match ope.body with
    | .issueAsset message => checkIssueAsset message = .success
    | .payAsset message => checkPayAsset lib message source = .success
    | .payCoin message => checkPayCoin lib lcl message source = .success
    | _ => True := by
  unfold checkValid at hvalid
  split at hvalid
  · cases hvalid
  split at hvalid
  · cases hvalid
  split
  · rename_i hbody
    rwa [hbody] at hvalid
  · rename_i hbody
    rwa [hbody] at hvalid
  · rename_i hbody
    rwa [hbody] at hvalid
  · trivial

/-! ## Issues -/

theorem shifted_issueAsset (horder : InOrder lcl c) (hderef : c.deref 0 source = some account)
    (hsource : Canonical source) {message : OperationIssueAsset}
    (hamount : 0 < message.amount.toInt)
    (hissue : issueAsset 0 source account message c = (.success, c')) :
    Shifted lcl c c' fun key =>
      if key = { issuer := source, code := message.code } then message.amount.toInt else 0 := by
  have haccounted := horder.accounted_of_deref hderef
  unfold issueAsset at hissue
  dsimp only at hissue
  rw [haccounted.own hsource] at hissue
  split at hissue
  · -- the first issue
    rename_i hnone
    obtain ⟨-, rfl⟩ := Prod.mk.inj hissue
    refine (horder.setAsset hderef _ hamount.le).congr fun key => ?_
    rw [AccountFrm.holding_of_getAsset_none hnone, sub_zero]
  · rename_i held hheld
    split at hissue
    · cases hissue
    · rename_i amount hadd
      obtain ⟨-, rfl⟩ := Prod.mk.inj hissue
      have hsum := safeIntAdd_eq_some_iff.mp hadd
      have hnonneg : 0 ≤ held.toInt := haccounted.sound.nonneg _ (mem_of_lookup hheld)
      refine (horder.setAsset hderef _ (by omega)).congr fun key => ?_
      rw [AccountFrm.holding_of_getAsset hheld, hsum, add_sub_cancel_left]

/-! ## Payments -/

/-- The receiver has the amount on top of what it held. -/
theorem shifted_credit (horder : InOrder lcl c) {key : AssetKey} {amount : Int64}
    (hderef : c.deref 0 dest = some account) (hamount : 0 < amount.toInt) {sum : Int64}
    (hsum : sum.toInt = account.holding key + amount.toInt) :
    Shifted lcl c (c.modifyEntry 0 dest (·.setAsset key sum)) fun other =>
      if other = key then amount.toInt else 0 := by
  have hholding := (horder.accounted_of_deref hderef).sound.holding_nonneg key
  refine (horder.setAsset hderef key (by omega)).congr fun other => ?_
  rw [hsum, add_sub_cancel_left]

/-- What is taken from the source is given to the destination. -/
theorem shifted_transferAsset (horder : InOrder lcl c)
    (hsource : c.deref 0 source = some account) {destAccount : AccountFrm}
    (hdest : c.deref 0 dest = some destAccount) (hne : source ≠ dest) {asset : Option Asset}
    (hamount : ∀ a ∈ asset, 0 < a.amount.toInt)
    (htransfer : transferAsset 0 source dest account asset c = (.success, c')) :
    Shifted lcl c c' 0 := by
  cases asset with
  | none =>
      obtain ⟨-, rfl⟩ := Prod.mk.inj htransfer
      exact horder.quiet.shifted
  | some asset =>
      have hpos := hamount asset rfl
      rw [transferAsset] at htransfer
      split at htransfer
      · cases htransfer
      · rename_i held hheld
        split at htransfer
        · cases htransfer
        · split at htransfer
          · cases htransfer
          · rename_i senderAmount hsub
            split at htransfer
            · cases htransfer
            · rename_i hlow
              have hrest := safeIntSub_eq_some_iff.mp hsub
              have hnonneg : 0 ≤ senderAmount.toInt := by
                rw [Int64.lt_iff_toInt_lt, Int64.toInt_zero] at hlow
                omega
              -- the debit, after which the destination is as before
              have hdebit := horder.setAsset hsource asset.key hnonneg
              have hdest' : (c.modifyEntry 0 source
                  (·.setAsset asset.key senderAmount)).deref 0 dest = some destAccount :=
                (deref_modifyEntry_ne horder.wide hne.symm _).trans hdest
              have hcredit : ∀ {sum : Int64},
                  sum.toInt = destAccount.holding asset.key + asset.amount.toInt →
                  Shifted lcl c ((c.modifyEntry 0 source
                    (·.setAsset asset.key senderAmount)).modifyEntry 0 dest
                      (·.setAsset asset.key sum)) 0 := by
                intro sum hsum
                refine (hdebit.trans (shifted_credit hdebit.order hdest' hpos hsum)).congr
                  fun key => ?_
                rw [Pi.add_apply, AccountFrm.holding_of_getAsset hheld, hrest]
                split <;> simp
              dsimp only at htransfer
              rw [hdest', Option.bind_some] at htransfer
              split at htransfer
              · rename_i hnone
                obtain ⟨-, rfl⟩ := Prod.mk.inj htransfer
                refine hcredit ?_
                rw [AccountFrm.holding_of_getAsset_none hnone, zero_add]
              · rename_i destHeld hdestHeld
                split at htransfer
                · cases htransfer
                · rename_i receiverAmount hadd
                  obtain ⟨-, rfl⟩ := Prod.mk.inj htransfer
                  refine hcredit ?_
                  rw [AccountFrm.holding_of_getAsset hdestHeld]
                  exact safeIntAdd_eq_some_iff.mp hadd

/-- A payment to an account without code moves the amount. -/
theorem shifted_payAsset (horder : InOrder lcl c) (hsource : c.deref 0 source = some account)
    {message : OperationPayAsset} (hbody : (OperationBody.payAsset message).OnAssets lcl)
    (hvalid : checkPayAsset lib message source = .success) {execute : Execution}
    (hpay : payAsset lcl execute 0 source account message c = (.success, c')) :
    Shifted lcl c c' 0 := by
  obtain ⟨hne, hamount⟩ := of_checkPayAsset hvalid
  have hread := horder.getEntry hbody.1
  unfold payAsset at hpay
  rcases hget : c.getEntry lcl 0 message.destAddress with ⟨_ | destAccount, c₁⟩
  · rw [hget] at hpay
    cases hpay
  · rw [hget] at hpay hread
    have hsource' : c₁.deref 0 source = some account := by
      have hkept : (c.getEntry lcl 0 message.destAddress).2.deref 0 source = c.deref 0 source :=
        deref_getEntry_ne horder.wide hne
      rw [hget] at hkept
      exact hkept.trans hsource
    have hdest := deref_getEntry hget
    dsimp only at hpay
    split at hpay
    · rename_i c₂ htransfer
      have hcode : destAccount.contract.payload = [] := by
        rw [(hread.order.accounted_of_deref hdest).contract]
        cases hdb : lcl.accountFromDB message.destAddress with
        | none => rfl
        | some old => exact hbody.2 old hdb
      rw [if_pos hcode] at hpay
      obtain ⟨-, rfl⟩ := Prod.mk.inj hpay
      exact hread.shifted.trans
        (shifted_transferAsset hread.order hsource' hdest hne hamount htransfer)
    · rename_i hfailed
      exact absurd hpay (hfailed c')

/-! ## Any operation on assets -/

theorem quiet_checkSignature (horder : InOrder lcl c) {env : TransactionEnv}
    (hsource : Canonical (env.transaction.operationSource ope)) (lib : Library) :
    Quiet lcl c (checkSignature lib lcl env 0 ope c).2 := by
  have hread := horder.getEntry hsource
  unfold checkSignature
  rcases hget : c.getEntry lcl 0 (env.transaction.operationSource ope) with ⟨_ | found, c₁⟩
  · rw [hget] at hread
    exact hread
  · rw [hget] at hread
    dsimp only
    split <;> exact hread

/-- **One operation.**  When it succeeds the holdings have changed by what it issued. -/
theorem shifted_apply (horder : InOrder lcl c) {env : TransactionEnv}
    (hope : ope.OnAssets lib lcl env.transaction) {execute : Execution} {index : ℕ}
    (happly : apply lib lcl execute env index 0 ope c = (.success, c')) :
    Shifted lcl c c' (ope.issued env.transaction) := by
  have hread := horder.getEntry hope.canonical
  have hcheck := check_of_valid hope.valid
  have hbody := hope.body
  dsimp only [apply] at happly
  rcases hget : c.getEntry lcl 0 (env.transaction.operationSource ope) with ⟨_ | found, c₁⟩
  · rw [hget] at happly
    cases happly
  · rw [hget] at happly hread
    have hderef := deref_getEntry hget
    dsimp only at happly
    unfold Operation.issued
    cases hkind : ope.body with
    | issueAsset message =>
        rw [hkind] at happly hcheck
        exact (hread.shifted.trans (shifted_issueAsset hread.order hderef hope.canonical
          (pos_of_checkIssueAsset hcheck) happly)).congr fun key => (zero_add _).symm
    | payAsset message =>
        rw [hkind] at happly hcheck hbody
        exact (hread.shifted.trans (shifted_payAsset hread.order hderef hbody hcheck happly))
    | _ =>
        rw [hkind] at hbody
        exact hbody.elim

end OperationFrm

end CegChain
