import CegChain.Ledger.AssetOperations
import CegChain.Ledger.Coins

/-!
# Operations and coins

The nine operations of `ledger/operation_frm.cpp` on an environment of any level.
`CreateAccount` and `PayCoin` take an amount from one account and give it to another, the
rest leaves the balances alone.  An operation that fails may have taken the amount and not
given it, or given it to an account that is taken back; then its transaction is taken back
as a whole.  So this is about operations that succeed: they are paid by nothing in all.

What a contract does that an operation reaches is any `Execution` of which the same is
known (`Conserves`).
-/

namespace CegChain

open Layers AtomMap Totals LedgerContext LedgerFrm

/-- What is run on an environment of this level is paid by nothing when it succeeds, whoever
acts: whoever's code is run does. -/
structure Execution.Conserves (lcl : Closed) (level : ℕ) (execute : Execution) : Prop where
  effects : ∀ this c, Effects lcl c (execute this c).2
  paid : ∀ {actors : Set Address} {this c c'}, Solid lcl level c → c.topEnvironment = some level →
    execute this c = (.success, c') → c'.Sighted lcl → Paid lcl level actors c c' 0

namespace OperationFrm

variable {lib : Library} {lcl : Closed} {level : ℕ} {actors : Set Address}
  {c c' c₁ : LedgerContext}
  {execute : Execution} {source dest : Address} {account : AccountFrm}

theorem withMetadatas_balance {metadatas : List KeyPair} {before after : AccountFrm}
    (hwith : withMetadatas metadatas before = some after) : after.balance = before.balance := by
  induction metadatas generalizing before with
  | nil =>
      obtain rfl := Option.some.inj hwith
      rfl
  | cons kp metadatas ih =>
      rw [withMetadatas] at hwith
      split_ifs at hwith
      rw [ih hwith]
      exact (AccountFrm.sameFunds_setMetaData before _).balance

/-! ## Operations that leave the balances alone -/

section

variable (hsolid : Solid lcl level c) (hderef : (c.deref level source).isSome)
  (hactor : source ∈ actors)

include hsolid hderef hactor

/-- A write that is not about the funds. -/
theorem paid_writeSame {f : AccountFrm → AccountFrm}
    (hsame : ∀ account : AccountFrm, AccountFrm.SameFunds account (f account)) :
    Paid lcl level actors c (c.modifyEntry level source f) 0 :=
  hsolid.modifySame hderef (fun account => (hsame account).balance) (.inl hactor)

theorem paid_issueAsset {message : OperationIssueAsset}
    (hissue : issueAsset level source account message c = (.success, c')) :
    Paid lcl level actors c c' 0 := by
  have hwrite := fun amount => paid_writeSame hsolid hderef hactor
    (f := (·.setAsset { issuer := account.address, code := message.code } amount))
    fun _ => AccountFrm.sameFunds_setAsset ..
  dsimp only [issueAsset] at hissue
  split at hissue
  · obtain ⟨-, rfl⟩ := Prod.mk.inj hissue
    exact hwrite _
  · split at hissue
    · cases hissue
    · obtain ⟨-, rfl⟩ := Prod.mk.inj hissue
      exact hwrite _

theorem paid_setMetaData {message : OperationSetMetadata}
    (hset : setMetaData level source account message c = (.success, c')) :
    Paid lcl level actors c c' 0 := by
  unfold setMetaData at hset
  split at hset
  · rename_i code hchange
    -- no refusal is a success
    obtain ⟨rfl, -⟩ := Prod.mk.inj hset
    unfold metadataChange at hchange
    split at hchange
    all_goals first
      | (split_ifs at hchange <;> cases hchange)
      | cases hchange
  · rename_i hchange
    obtain ⟨-, rfl⟩ := Prod.mk.inj hset
    exact paid_writeSame hsolid hderef hactor (sameFunds_metadataChange hchange)

theorem paid_transferAsset (hdest : (c.deref level dest).isSome) {asset : Option Asset}
    (hamount : ∀ paid ∈ asset, 0 < paid.amount.toInt)
    (htransfer : transferAsset level source dest account asset c = (.success, c')) :
    Paid lcl level actors c c' 0 := by
  cases asset with
  | none =>
      obtain ⟨-, rfl⟩ := Prod.mk.inj htransfer
      exact hsolid.paid
  | some asset =>
      dsimp only [transferAsset] at htransfer
      split at htransfer
      · cases htransfer
      · split at htransfer
        · cases htransfer
        · split at htransfer
          · cases htransfer
          · split at htransfer
            · cases htransfer
            · rename_i senderAmount _ _
              have hpos := hamount asset rfl
              have hdebit := paid_writeSame hsolid hderef hactor
                (f := (·.setAsset asset.key senderAmount)) fun _ => AccountFrm.sameFunds_setAsset ..
              have hdest' := isSome_deref_modifyEntry hsolid.wide source
                (·.setAsset asset.key senderAmount) hdest
              -- what the receiver gets
              have hcredit : ∀ amount : Int64, (∀ found ∈ (c.modifyEntry level source
                  (·.setAsset asset.key senderAmount)).deref level dest,
                    found.holding asset.key ≤ amount.toInt) →
                  Paid lcl level actors _ ((c.modifyEntry level source
                    (·.setAsset asset.key senderAmount)).modifyEntry level dest
                      (·.setAsset asset.key amount)) 0 :=
                fun amount hle => hdebit.solid.modifySame hdest' (fun _ => rfl)
                  (.inr fun found hfound => .setAsset (hle found hfound))
              split at htransfer
              · rename_i hnone
                obtain ⟨-, rfl⟩ := Prod.mk.inj htransfer
                refine (hcredit _ fun found hfound => ?_).after hdebit
                rw [Option.mem_def.mp hfound, Option.bind_some] at hnone
                rw [AccountFrm.holding_of_getAsset_none hnone]
                exact hpos.le
              · rename_i destHeld hheld
                split at htransfer
                · cases htransfer
                · rename_i receiverAmount hadd
                  obtain ⟨-, rfl⟩ := Prod.mk.inj htransfer
                  refine (hcredit _ fun found hfound => ?_).after hdebit
                  rw [Option.mem_def.mp hfound, Option.bind_some] at hheld
                  have hsum := safeIntAdd_eq_some_iff.mp hadd
                  rw [AccountFrm.holding_of_getAsset hheld]
                  omega

end

/-! ## Operations that may reach a contract -/

/-- The end of an operation on an account that may have code. -/
theorem paid_reach (hexecute : execute.Conserves lcl level) (hpaid : Paid lcl level actors c c₁ 0)
    (htop : c.topEnvironment = some level) {payload : Bytes} {address : Address}
    (hreach : (if payload = [] then (.success, c₁) else execute address c₁) = (.success, c'))
    (hsighted : c'.Sighted lcl) : Paid lcl level actors c c' 0 := by
  split at hreach
  · obtain ⟨-, rfl⟩ := Prod.mk.inj hreach
    exact hpaid
  · have htop' : c₁.topEnvironment = some level := hpaid.topEnvironment htop
    exact (hexecute.paid hpaid.solid htop' hreach hsighted).after hpaid

/-- The state before was sighted as well. -/
theorem sighted_reach (hexecute : execute.Conserves lcl level) {payload : Bytes}
    {address : Address} {code : ErrCode}
    (hreach : (if payload = [] then (.success, c₁) else execute address c₁) = (code, c'))
    (hsighted : c'.Sighted lcl) : c₁.Sighted lcl := by
  split at hreach
  · obtain ⟨-, rfl⟩ := Prod.mk.inj hreach
    exact hsighted
  · have heffects := hexecute.effects address c₁
    rw [hreach] at heffects
    exact hsighted.of_effects heffects

/-- The account of the receiver is there, created when it was missing. -/
theorem paid_receiver (actors : Set Address) (hsolid : Solid lcl level c)
    (hderef : c.deref level source = some account)
    (hne : source ≠ dest) {found : Option AccountFrm}
    (hget : c.getEntry lcl level dest = (found, c₁)) {c₂ : LedgerContext}
    (hc₂ : c₂ = if found = none then c₁.addEntry level dest (paidAccount dest) else c₁)
    (hsighted : c₂.Sighted lcl) :
    Paid lcl level actors c c₂ 0 ∧ c₂.deref level source = some account ∧
      (c₂.deref level dest).isSome := by
  obtain rfl : (c.getEntry lcl level dest).2 = c₁ := by rw [hget]
  have hkept : (c.getEntry lcl level dest).2.deref level source = some account :=
    (deref_getEntry_ne hsolid.wide hne).trans hderef
  cases found with
  | none =>
      rw [if_pos rfl] at hc₂
      subst hc₂
      have hsighted₁ := hsighted.of_effects (Effects.create _ (absent_of_getEntry hget))
      obtain ⟨hread, hnone⟩ := hsolid.read actors hget hsighted₁
      have hnew := hread.solid.addEntry actors hnone
        (hsighted₁.canonical (c.tables level) dest List.mem_cons_self) (paidAccount dest) le_rfl
      refine ⟨hnew.after hread, (deref_addEntry_ne hread.solid.wide hne _).trans hkept, ?_⟩
      rw [deref_addEntry hread.solid.wide]
      rfl
  | some destAccount =>
      rw [if_neg (Option.some_ne_none _)] at hc₂
      subst hc₂
      refine ⟨(hsolid.read actors hget hsighted).1, hkept, ?_⟩
      rw [deref_getEntry hget]
      rfl

section

variable (hexecute : execute.Conserves lcl level) (hsolid : Solid lcl level c)
  (htop : c.topEnvironment = some level) (hderef : c.deref level source = some account)
  (hactor : source ∈ actors) (hsighted : c'.Sighted lcl)

include hexecute hsolid htop hderef hactor hsighted

theorem paid_payAsset {message : OperationPayAsset}
    (hamount : ∀ paid ∈ message.asset, 0 < paid.amount.toInt)
    (hpay : payAsset lcl execute level source account message c = (.success, c')) :
    Paid lcl level actors c c' 0 := by
  unfold payAsset at hpay
  rcases hget : c.getEntry lcl level message.destAddress with ⟨_ | destAccount, c₁⟩
  · rw [hget] at hpay
    cases hpay
  · rw [hget] at hpay
    dsimp only at hpay
    split at hpay
    · rename_i c₂ htransfer
      have heffects : Effects lcl c₁ _ :=
        effects_transferAsset level source message.destAddress account message.asset c₁
      rw [htransfer] at heffects
      have hread := (hsolid.read actors hget
        ((sighted_reach hexecute hpay hsighted).of_effects heffects)).1
      have hsource : (c₁.deref level source).isSome := by
        obtain rfl : (c.getEntry lcl level message.destAddress).2 = c₁ := by rw [hget]
        exact isSome_deref_getEntry hsolid.wide _ (by rw [hderef]; rfl)
      have hdest : (c₁.deref level message.destAddress).isSome := by
        rw [deref_getEntry hget]
        rfl
      exact paid_reach hexecute ((paid_transferAsset hread.solid hsource hactor hdest hamount
        htransfer).after hread) htop hpay hsighted
    · rename_i hfailed
      exact absurd hpay (hfailed c')

variable (hreserve : 0 ≤ lcl.fees.baseReserve.toInt)

include hreserve

/-- What is taken from the source is given to the destination. -/
theorem paid_payCoin {message : OperationPayCoin} (hamount : 0 ≤ message.amount.toInt)
    (hne : source ≠ message.destAddress)
    (hpay : payCoin lcl execute level source account message c = (.success, c')) :
    Paid lcl level actors c c' 0 := by
  unfold payCoin at hpay
  dsimp only at hpay
  split at hpay
  · cases hpay
  · rename_i minBalance hmin
    split at hpay
    · cases hpay
    · rename_i hlow
      rcases hget : c.getEntry lcl level message.destAddress with ⟨found, c₁⟩
      rw [hget] at hpay
      dsimp only at hpay
      split at hpay
      · cases hpay
      · split at hpay
        · cases hpay
        · rename_i srcBalance hsub
          have hsum := safeIntAdd_eq_some_iff.mp hmin
          have hdiff := safeIntSub_eq_some_iff.mp hsub
          have hrest : 0 ≤ srcBalance.toInt := by
            rw [Int64.lt_iff_toInt_lt] at hlow
            omega
          have hreceiver := fun hsighted => paid_receiver actors hsolid hderef hne hget rfl hsighted
          split at hpay
          · -- the pointer to the receiver is not null
            rename_i hnull
            obtain ⟨-, rfl⟩ := Prod.mk.inj hpay
            obtain ⟨hpaid, -, hdest⟩ := hreceiver (hsighted.of_effects
              ((Effects.setBalance level source srcBalance).trans Effects.crash))
            have hdest' := isSome_deref_modifyEntry hpaid.solid.wide source
              (·.setBalance srcBalance) hdest
            rw [hnull] at hdest'
            cases hdest'
          · rename_i destAccount hdest
            split at hpay
            · cases hpay
            · rename_i destBalance hadd
              obtain ⟨hpaid, hsource, -⟩ := hreceiver
                ((sighted_reach hexecute hpay hsighted).of_effects
                  ((Effects.setBalance level source srcBalance).trans
                    (Effects.setBalance level message.destAddress destBalance)))
              have hdebit := hpaid.solid.setBalance hactor hsource hrest
              have htotal := safeIntAdd_eq_some_iff.mp hadd
              have hcredit := hdebit.solid.credit actors hdest
                (show destAccount.balance.toInt ≤ destBalance.toInt by omega)
              refine paid_reach hexecute (((hdebit.trans hcredit).after hpaid).congr ?_) htop hpay
                hsighted
              omega

/-- What is taken from the source is the balance of the new account. -/
theorem paid_createAccount {tran : Transaction} {index : ℕ} {message : OperationCreateAccount}
    (hcreate : createAccount lib lcl execute tran index level source account message c =
      (.success, c')) : Paid lcl level actors c c' 0 := by
  unfold createAccount at hcreate
  dsimp only at hcreate
  generalize createdAddress lib tran index message = dest at hcreate
  rcases hget : c.getEntry lcl level dest with ⟨_ | destAccount, c₁⟩
  · rw [hget] at hcreate
    dsimp only at hcreate
    have hne : source ≠ dest := by
      rintro rfl
      have hfound : (c.getEntry lcl level source).1 = some account :=
        getEntry_of_deref (length_tables hsolid.wide level) hderef
      rw [hget] at hfound
      cases hfound
    split at hcreate
    · cases hcreate
    · rename_i hinit
      split at hcreate
      · cases hcreate
      · rename_i limitBalance hlimit
        split at hcreate
        · cases hcreate
        · rename_i hlow
          split at hcreate
          · cases hcreate
          · rename_i balance hsub
            split at hcreate
            · cases hcreate
            · rename_i created hwith
              rw [Int64.lt_iff_toInt_lt] at hinit hlow
              have hdiff := safeIntSub_eq_some_iff.mp hlimit
              have hrest := safeIntAdd_eq_some_iff.mp hsub
              have hmin : message.initBalance ≠ Int64.minValue := by
                intro heq
                rw [heq, Int64.toInt_minValue] at hinit
                omega
              rw [toInt_neg_one_mul hmin] at hrest
              have hbalance : created.balance = message.initBalance := withMetadatas_balance hwith
              have hsighted₁ := (sighted_reach hexecute hcreate hsighted).of_effects
                ((Effects.setBalance level source balance).trans (Effects.create created
                  ((absent_of_getEntry hget).modifyEntry hne.symm _)))
              obtain ⟨hread, hnone⟩ := hsolid.read actors hget hsighted₁
              have hsource : c₁.deref level source = some account := by
                obtain rfl : (c.getEntry lcl level dest).2 = c₁ := by rw [hget]
                exact (deref_getEntry_ne hsolid.wide hne).trans hderef
              have hcanonical : Canonical dest := by
                obtain rfl : (c.getEntry lcl level dest).2 = c₁ := by rw [hget]
                exact hsighted₁.canonical (c.tables level) dest List.mem_cons_self
              have hdebit := hread.solid.setBalance hactor hsource
                (show 0 ≤ balance.toInt by omega)
              have hnone' : (c₁.modifyEntry level source (·.setBalance balance)).readsAt lcl level
                  dest = none := by
                rw [readsAt, view_modifyEntry hread.solid.wide hsource, if_neg hne.symm]
                exact hnone
              have hnew := hdebit.solid.addEntry actors hnone' hcanonical
                created (by rw [hbalance]; omega)
              refine paid_reach hexecute (((hdebit.trans hnew).after hread).congr ?_) htop hcreate
                hsighted
              rw [hbalance]
              omega
  · rw [hget] at hcreate
    cases hcreate

end

/-! ## Any operation -/

theorem of_checkPayCoin {message : OperationPayCoin}
    (hvalid : checkPayCoin lib lcl message source = .success) :
    0 ≤ message.amount.toInt ∧ source ≠ message.destAddress := by
  unfold checkPayCoin at hvalid
  split_ifs at hvalid with hamount hsource
  rw [Int64.lt_iff_toInt_lt, Int64.toInt_zero] at hamount
  exact ⟨by omega, hsource⟩

/-- Signatures that were accepted are those of the source. -/
theorem paid_checkSignature (hsolid : Solid lcl level c) {env : TransactionEnv} {ope : Operation}
    (hcheck : checkSignature lib lcl env level ope c = (.success, c'))
    (hsighted : c'.Sighted lcl) :
    Paid lcl level actors c c' 0 ∧ ∃ account,
      c.readsAt lcl level (env.transaction.operationSource ope) = some account ∧
        TransactionFrm.signerHashPriv lib env account ope.body.type = true := by
  unfold checkSignature at hcheck
  rcases hget : c.getEntry lcl level (env.transaction.operationSource ope) with ⟨_ | found, c₁⟩
  · rw [hget] at hcheck
    cases hcheck
  · rw [hget] at hcheck
    dsimp only at hcheck
    split at hcheck
    · rename_i hsigned
      obtain ⟨-, rfl⟩ := Prod.mk.inj hcheck
      obtain ⟨hread, hfound⟩ := hsolid.read actors hget hsighted
      exact ⟨hread, found, (hsolid.readsAt_read hget hsighted).trans hfound, hsigned⟩
    · cases hcheck

/-- **One operation.**  When it succeeds it is paid by nothing in all. -/
theorem paid_apply (hexecute : execute.Conserves lcl level) (hsolid : Solid lcl level c)
    (htop : c.topEnvironment = some level) (hreserve : 0 ≤ lcl.fees.baseReserve.toInt)
    {env : TransactionEnv} {index stackSize : ℕ} {ope : Operation}
    (hactor : env.transaction.operationSource ope ∈ actors)
    (hvalid : checkValid lib lcl ope (env.transaction.operationSource ope) stackSize = .success)
    (happly : apply lib lcl execute env index level ope c = (.success, c'))
    (hsighted : c'.Sighted lcl) : Paid lcl level actors c c' 0 := by
  dsimp only [apply] at happly
  rcases hget : c.getEntry lcl level (env.transaction.operationSource ope) with ⟨_ | account, c₁⟩
  · rw [hget] at happly
    cases happly
  · rw [hget] at happly
    dsimp only at happly
    have hderef := deref_getEntry hget
    have hsome : (c₁.deref level (env.transaction.operationSource ope)).isSome := by
      rw [hderef]
      rfl
    have hread : c₁.Sighted lcl → Paid lcl level actors c c₁ 0 := fun hsighted =>
      (hsolid.read actors hget hsighted).1
    have hwrite : ∀ {f : AccountFrm → AccountFrm},
        (∀ account : AccountFrm, AccountFrm.SameFunds account (f account)) →
        (c₁.modifyEntry level (env.transaction.operationSource ope) f).Sighted lcl →
        Paid lcl level actors c
          (c₁.modifyEntry level (env.transaction.operationSource ope) f) 0 := by
      intro f hsame hsighted
      have hpaid := hread (hsighted.of_effects (Effects.writeSame hsame))
      exact (paid_writeSame hpaid.solid hsome hactor hsame).after hpaid
    have hbefore : ∀ {r : ErrCode × LedgerContext}, r = (.success, c') → Effects lcl c₁ r.2 →
        Paid lcl level actors c c₁ 0 := by
      rintro r rfl heffects
      exact hread (hsighted.of_effects heffects)
    have htop₁ : c₁.topEnvironment = some level := by
      obtain rfl : (c.getEntry lcl level (env.transaction.operationSource ope)).2 = c₁ := by
        rw [hget]
      exact htop
    cases hbody : ope.body with
    | unknown =>
        rw [hbody] at happly
        obtain ⟨-, rfl⟩ := Prod.mk.inj happly
        exact hread hsighted
    | createAccount message =>
        rw [hbody] at happly
        have hpaid := hbefore happly (effects_createAccount hexecute.effects _ _ _ (by
          rw [getEntry_twice hget]
          exact Option.some_ne_none _))
        exact (paid_createAccount hexecute hpaid.solid htop₁ hderef hactor hsighted hreserve
          happly).after hpaid
    | payAsset message =>
        rw [hbody] at happly
        have hcheck := check_of_valid hvalid
        rw [hbody] at hcheck
        have hpaid := hbefore happly (effects_payAsset hexecute.effects message)
        exact (paid_payAsset hexecute hpaid.solid htop₁ hderef hactor hsighted
          (of_checkPayAsset hcheck).2 happly).after hpaid
    | issueAsset message =>
        rw [hbody] at happly
        have hpaid := hbefore happly (effects_issueAsset message)
        exact (paid_issueAsset hpaid.solid hsome hactor happly).after hpaid
    | setMetadata message =>
        rw [hbody] at happly
        have hpaid := hbefore happly (effects_setMetaData message)
        exact (paid_setMetaData hpaid.solid hsome hactor happly).after hpaid
    | setSignerWeight message =>
        rw [hbody] at happly
        obtain ⟨-, rfl⟩ := Prod.mk.inj happly
        exact hwrite (sameFunds_signerWeightChange message) hsighted
    | setThreshold message =>
        rw [hbody] at happly
        obtain ⟨-, rfl⟩ := Prod.mk.inj happly
        exact hwrite (sameFunds_thresholdChange message) hsighted
    | payCoin message =>
        rw [hbody] at happly
        have hcheck := check_of_valid hvalid
        rw [hbody] at hcheck
        obtain ⟨hamount, hne⟩ := of_checkPayCoin hcheck
        have hpaid := hbefore happly (effects_payCoin hexecute.effects message)
        exact (paid_payCoin hexecute hpaid.solid htop₁ hderef hactor hsighted hreserve hamount hne
          happly).after hpaid
    | log message =>
        rw [hbody] at happly
        obtain ⟨-, rfl⟩ := Prod.mk.inj happly
        exact hread hsighted
    | setPrivilege message =>
        rw [hbody] at happly
        obtain ⟨-, rfl⟩ := Prod.mk.inj happly
        exact hwrite (sameFunds_privilegeChange message) hsighted
    | other type hother =>
        rw [hbody] at happly
        dsimp only at happly
        split at happly
        · obtain ⟨-, rfl⟩ := Prod.mk.inj happly
          exact hread hsighted
        · cases happly

end OperationFrm

end CegChain
