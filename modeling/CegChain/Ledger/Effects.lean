import CegChain.Ledger.LedgerFrm
import CegChain.Ledger.Pointers
import Mathlib.Logic.Relation

/-!
# What the execution of a block does

Everything that happens while a block is executed is a sequence of small effects
on its `LedgerContext`: an account is read, written through a pointer, or added
after a read found none; a frame is built, committed or cleared; settings, the
stack of transactions and the fees change; a contract is run.  `Effect` lists
them, and this file shows that every function of the ledger performs a sequence
of them, contracts with any program included (`Program.effects_run`).  A property
of the states of a block is then an invariant of `Effect`.

A write never lowers a nonce.
-/

namespace CegChain

open Layers AtomMap

/-! ## Effects -/

/-- One effect on the state of a block. -/
inductive Effect (lcl : Closed) : LedgerContext → LedgerContext → Prop where
  | read (c : LedgerContext) (level : ℕ) (address : Address) :
      Effect lcl c (c.getEntry lcl level address).2
  | write (c : LedgerContext) (level : ℕ) (address : Address) (f : AccountFrm → AccountFrm)
      (hnonce : ∀ account, account.nonce ≤ (f account).nonce) :
      Effect lcl c (c.modifyEntry level address f)
  | create (c : LedgerContext) (level : ℕ) (address : Address) (frm : AccountFrm)
      (habsent : c.Absent lcl level address) :
      Effect lcl c (c.addEntry level address frm)
  | commit (c : LedgerContext) (level : ℕ) : Effect lcl c (c.commit level)
  | clear (c : LedgerContext) (level : ℕ) : Effect lcl c (c.clearChangeBuf level)
  | frame (c : LedgerContext) (level : ℕ) : Effect lcl c (c.newStackFrameEnv level)
  | settings (c : LedgerContext) (level : ℕ) (settings : List (Map String Setting)) :
      Effect lcl c { c with environment := ⟨c.tables level, settings⟩ }
  /-- The stack of transactions with what is left on it, the fees and the crash flag. -/
  | books (c : LedgerContext) (stack : List StackTx) (totalFee : Int64) (crashed : Bool)
      (kept : ℕ) :
      Effect lcl c { c with
        transactionStack := stack
        totalFee := totalFee
        crashed := crashed
        kept := kept }
  | executed (c : LedgerContext) (address : Address) : Effect lcl c (c.mark (.executed address))

/-- A sequence of effects. -/
abbrev Effects (lcl : Closed) : LedgerContext → LedgerContext → Prop :=
  Relation.ReflTransGen (Effect lcl)

/-- What holds in a state and is kept by every effect holds after any sequence. -/
theorem Effects.invariant {lcl : Closed} {P : LedgerContext → Prop}
    (hstep : ∀ {c c'}, Effect lcl c c' → P c → P c') {c c' : LedgerContext}
    (heffects : Effects lcl c c') (hc : P c) : P c' := by
  induction heffects with
  | refl => exact hc
  | tail _ heffect ih => exact hstep heffect ih

namespace Effects

variable {lcl : Closed} {c c₁ c₂ : LedgerContext} {level : ℕ} {address : Address}

theorem read {found : Option AccountFrm} (hget : c.getEntry lcl level address = (found, c₁)) :
    Effects lcl c c₁ := by
  obtain rfl : (c.getEntry lcl level address).2 = c₁ := congrArg Prod.snd hget
  exact .single (.read c level address)

theorem write (f : AccountFrm → AccountFrm)
    (hnonce : ∀ account, account.nonce ≤ (f account).nonce) :
    Effects lcl c (c.modifyEntry level address f) :=
  .single (.write c level address f hnonce)

theorem setBalance (level : ℕ) (address : Address) (balance : Int64) :
    Effects lcl c (c.modifyEntry level address (·.setBalance balance)) :=
  write _ fun _ => le_rfl

/-- A change that leaves the funds alone. -/
theorem writeSame {f : AccountFrm → AccountFrm}
    (hf : ∀ account, AccountFrm.SameFunds account (f account)) :
    Effects lcl c (c.modifyEntry level address f) :=
  write _ fun account => (hf account).nonce.ge

theorem create (frm : AccountFrm) (habsent : c.Absent lcl level address) :
    Effects lcl c (c.addEntry level address frm) :=
  .single (.create c level address frm habsent)

theorem crash : Effects lcl c c.crash :=
  .single (.books c c.transactionStack c.totalFee true c.kept)

theorem push (tx : StackTx) : Effects lcl c (c.push tx) :=
  .single (.books c (tx :: c.transactionStack) c.totalFee c.crashed c.kept)

theorem pop : Effects lcl c c.pop :=
  .single (.books c c.transactionStack.tail c.totalFee c.crashed c.kept)

theorem fee (totalFee : Int64) : Effects lcl c { c with totalFee := totalFee } :=
  .single (.books c c.transactionStack totalFee c.crashed c.kept)

theorem addActualGas (gas : Int64) : Effects lcl c (c.addActualGas gas) :=
  .single (.books c _ c.totalFee c.crashed c.kept)

theorem getValidators (lcl : Closed) (level : ℕ) (c : LedgerContext) :
    Effects lcl c (c.getValidators lcl level).2 := by
  refine .single ?_
  unfold LedgerContext.getValidators EnvStack.getValidators
  dsimp only
  split
  · exact .settings c level _
  · exact .settings c level _

theorem updateFeeConfig (level : ℕ) (fees : Setting) (c : LedgerContext) :
    Effects lcl c (c.updateFeeConfig level fees) := by
  refine .single ?_
  unfold LedgerContext.updateFeeConfig EnvStack.updateFeeConfig
  dsimp only
  split
  · exact .settings c level _
  · exact .settings c level _

end Effects

/-! ## Operations -/

namespace OperationFrm

variable {lib : Library} {lcl : Closed} {execute : Execution} {level : ℕ} {source : Address}
  {account : AccountFrm} {c : LedgerContext}

theorem effects_issueAsset (message : OperationIssueAsset) :
    Effects lcl c (issueAsset level source account message c).2 := by
  dsimp only [issueAsset]
  split
  · exact Effects.writeSame fun _ => AccountFrm.sameFunds_setAsset ..
  · split
    · exact .refl
    · exact Effects.writeSame fun _ => AccountFrm.sameFunds_setAsset ..

theorem effects_transferAsset (level : ℕ) (source dest : Address) (account : AccountFrm)
    (asset : Option Asset) (c : LedgerContext) :
    Effects lcl c (transferAsset level source dest account asset c).2 := by
  cases asset with
  | none => exact .refl
  | some asset =>
      dsimp only [transferAsset]
      split
      · exact .refl
      · split
        · exact .refl
        · split
          · exact .refl
          · split
            · exact .refl
            · rename_i senderAmount _ _
              have hdebit : Effects lcl c
                  (c.modifyEntry level source (·.setAsset asset.key senderAmount)) :=
                Effects.writeSame fun other => AccountFrm.sameFunds_setAsset other _ _
              split
              · exact hdebit.trans (Effects.writeSame fun _ => AccountFrm.sameFunds_setAsset ..)
              · split
                · exact hdebit
                · exact hdebit.trans (Effects.writeSame fun _ => AccountFrm.sameFunds_setAsset ..)

/-- What `SetMetaData` does to an account leaves its funds alone. -/
theorem sameFunds_metadataChange {message : OperationSetMetadata}
    {change : AccountFrm → AccountFrm} (hchange : metadataChange message account = .ok change)
    (other : AccountFrm) : AccountFrm.SameFunds other (change other) := by
  unfold metadataChange at hchange
  split at hchange
  · split_ifs at hchange
    obtain rfl := Except.ok.inj hchange
    exact AccountFrm.sameFunds_deleteMetaData ..
  · cases hchange
  · split_ifs at hchange
    obtain rfl := Except.ok.inj hchange
    exact AccountFrm.sameFunds_setMetaData ..
  · split_ifs at hchange
    obtain rfl := Except.ok.inj hchange
    exact AccountFrm.sameFunds_setMetaData ..

theorem effects_setMetaData (message : OperationSetMetadata) :
    Effects lcl c (setMetaData level source account message c).2 := by
  unfold setMetaData
  split
  · exact .refl
  · rename_i hchange
    exact Effects.writeSame (sameFunds_metadataChange hchange)

/-- A change that is made only under a condition. -/
theorem sameFunds_ite {p : Prop} [Decidable p] {before after : AccountFrm}
    (hsame : AccountFrm.SameFunds before after) :
    AccountFrm.SameFunds before (if p then after else before) := by
  split
  · exact hsame
  · exact .rfl _

theorem sameFunds_signerWeightChange (message : OperationSetSignerWeight) (account : AccountFrm) :
    AccountFrm.SameFunds account (signerWeightChange message account) :=
  (sameFunds_ite (AccountFrm.sameFunds_setProtoMasterWeight ..)).trans
    (AccountFrm.sameFunds_foldl _ _ AccountFrm.sameFunds_updateSigner _)

theorem sameFunds_thresholdChange (message : OperationSetThreshold) (account : AccountFrm) :
    AccountFrm.SameFunds account (thresholdChange message account) :=
  (sameFunds_ite (AccountFrm.sameFunds_setProtoTxThreshold ..)).trans
    (AccountFrm.sameFunds_foldl _ _ AccountFrm.sameFunds_updateTypeThreshold _)

theorem sameFunds_privilegeChange (message : OperationSetPrivilege) (account : AccountFrm) :
    AccountFrm.SameFunds account (privilegeChange message account) :=
  (sameFunds_ite (AccountFrm.sameFunds_setProtoMasterWeight ..)).trans <|
    (AccountFrm.sameFunds_foldl _ _ AccountFrm.sameFunds_updateSigner _).trans <|
      (sameFunds_ite (AccountFrm.sameFunds_setProtoTxThreshold ..)).trans <|
        AccountFrm.sameFunds_foldl _ _ AccountFrm.sameFunds_updateTypeThreshold _

section Reaching

variable (hexecute : ∀ this c, Effects lcl c (execute this c).2)

include hexecute

theorem effects_createAccount (tran : Transaction) (index : ℕ) (message : OperationCreateAccount)
    (hsource : (c.getEntry lcl level source).1 ≠ none) :
    Effects lcl c
      (createAccount lib lcl execute tran index level source account message c).2 := by
  dsimp only [createAccount]
  rcases hget : c.getEntry lcl level (createdAddress lib tran index message) with ⟨_ | _, c₁⟩
  · have hread := Effects.read hget
    have hne : createdAddress lib tran index message ≠ source := by
      intro heq
      rw [← heq, hget] at hsource
      exact hsource rfl
    have habsent := LedgerContext.absent_of_getEntry hget
    dsimp only
    split
    · exact hread
    · split
      · exact hread
      · split
        · exact hread
        · split
          · exact hread
          · rename_i balance _
            have hwrite := hread.trans
              (Effects.setBalance level source balance)
            split
            · exact hwrite
            · rename_i created _
              have hcreate := hwrite.trans (Effects.create created (habsent.modifyEntry hne _))
              split
              · exact hcreate
              · exact hcreate.trans (hexecute _ _)
  · exact Effects.read hget

theorem effects_payAsset (message : OperationPayAsset) :
    Effects lcl c (payAsset lcl execute level source account message c).2 := by
  dsimp only [payAsset]
  rcases hget : c.getEntry lcl level message.destAddress with ⟨_ | destAccount, c₁⟩
  · exact Effects.read hget
  · have htransfer := (Effects.read hget).trans
      (effects_transferAsset level source message.destAddress account message.asset c₁)
    dsimp only
    split
    · rename_i heq
      rw [heq] at htransfer
      split
      · exact htransfer
      · exact htransfer.trans (hexecute _ _)
    · exact htransfer

theorem effects_payCoin (message : OperationPayCoin) :
    Effects lcl c (payCoin lcl execute level source account message c).2 := by
  dsimp only [payCoin]
  split
  · exact .refl
  · split
    · exact .refl
    · rcases hget : c.getEntry lcl level message.destAddress with ⟨found, c₁⟩
      have hread := Effects.read hget
      dsimp only
      split
      · exact hread
      · -- the account of the receiver is there now, created when it was missing
        have hdest : Effects lcl c (if found = none then
            c₁.addEntry level message.destAddress (paidAccount message.destAddress) else c₁) := by
          split
          · rename_i hnone
            subst hnone
            exact hread.trans (Effects.create _ (LedgerContext.absent_of_getEntry hget))
          · exact hread
        split
        · exact hdest
        · rename_i srcBalance _
          have hdebit := hdest.trans
            (Effects.setBalance level source srcBalance)
          split
          · exact hdebit.trans Effects.crash
          · split
            · exact hdebit
            · rename_i destBalance _
              have hcredit := hdebit.trans
                (Effects.setBalance level message.destAddress destBalance)
              split
              · exact hcredit
              · exact hcredit.trans (hexecute _ _)

theorem effects_apply (lib : Library) (env : TransactionEnv) (index : ℕ) (level : ℕ)
    (ope : Operation) (c : LedgerContext) :
    Effects lcl c (apply lib lcl execute env index level ope c).2 := by
  dsimp only [apply]
  rcases hget : c.getEntry lcl level (env.transaction.operationSource ope) with ⟨_ | account, c₁⟩
  · exact Effects.read hget
  · have hread := Effects.read hget
    refine hread.trans ?_
    dsimp only
    split
    · exact .refl
    · refine effects_createAccount hexecute _ _ _ ?_
      rw [LedgerContext.getEntry_twice hget]
      exact Option.some_ne_none _
    · exact effects_payAsset hexecute _
    · exact effects_issueAsset _
    · exact effects_setMetaData _
    · exact Effects.writeSame (sameFunds_signerWeightChange _)
    · exact Effects.writeSame (sameFunds_thresholdChange _)
    · exact effects_payCoin hexecute _
    · exact .refl
    · exact Effects.writeSame (sameFunds_privilegeChange _)
    · split <;> exact .refl

end Reaching

theorem effects_checkSignature (env : TransactionEnv) (level : ℕ) (ope : Operation)
    (c : LedgerContext) : Effects lcl c (checkSignature lib lcl env level ope c).2 := by
  unfold checkSignature
  rcases hget : c.getEntry lcl level (env.transaction.operationSource ope) with ⟨_ | account, c₁⟩
  · exact Effects.read hget
  · dsimp only
    split <;> exact Effects.read hget

end OperationFrm

/-! ## Transactions -/

theorem LedgerContext.effects_addActualFee (lib : Library) (lcl : Closed) (env : TransactionEnv)
    (c : LedgerContext) : Effects lcl c (c.addActualFee lib env).2 := by
  have hgas : Effects lcl c (c.addActualGas (TransactionFrm.getSelfGas lib env)) :=
    Effects.addActualGas _
  dsimp only [addActualFee]
  split
  · exact hgas.trans Effects.crash
  · split
    · exact hgas
    · split <;> exact hgas

namespace TransactionFrm

variable {lib : Library} {lcl : Closed}

theorem effects_validForApply (lib : Library) (lcl : Closed) (env : TransactionEnv) (level : ℕ)
    (c : LedgerContext) :
    Effects lcl c (validForApply lib lcl env level c).2 := by
  unfold validForApply
  split
  · rcases hget : c.getEntry lcl level env.transaction.sourceAddress with ⟨_ | account, c₁⟩
    · exact Effects.read hget
    · dsimp only
      split
      · exact Effects.read hget
      · split <;> exact Effects.read hget
  · exact .refl

theorem effects_payFee (lcl : Closed) (env : TransactionEnv) (level : ℕ) (c : LedgerContext) :
    Effects lcl c (payFee lcl env level c).2 := by
  dsimp only [payFee]
  rcases hget : c.getEntry lcl level env.transaction.sourceAddress with ⟨_ | account, c₁⟩
  · exact Effects.read hget
  · have hread := Effects.read hget
    dsimp only
    split
    · exact hread
    · rename_i newTotalFee _
      have hfee := hread.trans (Effects.fee newTotalFee)
      split
      · exact hfee
      · exact hfee.trans (Effects.setBalance ..)

theorem effects_returnFee (env : TransactionEnv) (result : ErrCode) (actualGas : Int64)
    (level : ℕ) (c : LedgerContext) :
    Effects lcl c (returnFee lcl env result actualGas level c) := by
  dsimp only [returnFee]
  split
  · exact .refl
  · split
    · exact .refl
    · split
      · exact .refl
      · rcases hget : c.getEntry lcl level env.transaction.sourceAddress with ⟨_ | account, c₁⟩
        · exact Effects.read hget
        · have hread := Effects.read hget
          dsimp only
          split
          · exact hread
          · rename_i totalFee _
            have hfee := hread.trans (Effects.fee totalFee)
            split
            · exact hfee
            · exact hfee.trans (Effects.setBalance ..)

theorem effects_nonceIncrease (env : TransactionEnv) (level : ℕ) (c : LedgerContext) :
    Effects lcl c (nonceIncrease lcl env level c) := by
  unfold nonceIncrease
  rcases hget : c.getEntry lcl level env.transaction.sourceAddress with ⟨_ | account, c₁⟩
  · exact Effects.read hget
  · refine (Effects.read hget).trans (Effects.write _ fun account => ?_)
    exact (lt_add_one account.nonce).le

variable {execute : ℕ → Execution} (hexecute : ∀ i this c, Effects lcl c (execute i this c).2)

include hexecute

theorem effects_applyOperations (env : TransactionEnv) (level : ℕ) (boolContract : Bool)
    (index : ℕ) (operations : List Operation) (c : LedgerContext) :
    Effects lcl c
      (applyOperations lib lcl execute env level boolContract index operations c).2 := by
  induction operations generalizing index c with
  | nil => exact .refl
  | cons ope operations ih =>
      dsimp only [applyOperations]
      have hchecked : Effects lcl c (if boolContract then (ErrCode.success, c)
          else OperationFrm.checkSignature lib lcl env level ope c).2 := by
        split
        · exact .refl
        · exact OperationFrm.effects_checkSignature ..
      split
      · rename_i c₁ heq
        rw [heq] at hchecked
        have happly := hchecked.trans
          (OperationFrm.effects_apply (hexecute index) lib env index level ope c₁)
        split
        · rename_i heq
          rw [heq] at happly
          exact happly.trans (ih ..)
        · exact happly
      · exact hchecked

theorem effects_apply (env : TransactionEnv) (level : ℕ) (boolContract : Bool)
    (c : LedgerContext) : Effects lcl c (apply lib lcl execute env level boolContract c).2 := by
  have hfee : Effects lcl c ((c.setTopEnvironment level).addActualFee lib env).2 :=
    Relation.ReflTransGen.trans (.single (.books c _ c.totalFee c.crashed c.kept))
      (LedgerContext.effects_addActualFee ..)
  unfold apply
  split
  · rename_i heq
    rw [heq] at hfee
    exact hfee.trans (effects_applyOperations hexecute ..)
  · exact hfee

end TransactionFrm

/-! ## Contracts -/

theorem LedgerManager.effects_endTransaction (lcl : Closed) (level : ℕ) (code : ErrCode)
    (c : LedgerContext) : Effects lcl c (endTransaction lcl level code c).2 := by
  unfold endTransaction
  split
  · dsimp only
    split
    · exact Effects.pop
    · exact .single (.books c c.transactionStack c.totalFee c.crashed (c.kept + 1))
  · refine Relation.ReflTransGen.trans ?_ Effects.pop
    split
    · exact .single (.commit c level)
    · exact .refl

theorem LedgerManager.effects_doTransaction {lib : Library} {lcl : Closed} {execute : Execution}
    (hexecute : ∀ this c, Effects lcl c (execute this c).2) (transaction : Transaction)
    (c : LedgerContext) : Effects lcl c (doTransaction lib lcl execute transaction c).2 := by
  dsimp only [doTransaction]
  split
  · exact Effects.crash
  · rename_i level _
    rcases hget : c.getEntry lcl level transaction.sourceAddress with ⟨_ | account, c₁⟩
    · exact (Effects.read hget).trans Effects.crash
    · have hread := Effects.read hget
      dsimp only
      generalize ({ transaction := { transaction with nonce := account.nonce + 1 } } :
        TransactionEnv) = env
      split
      · exact hread.trans (Effects.addActualGas _)
      · have hnonce := (hread.trans (Effects.push { env := env })).trans
          (TransactionFrm.effects_nonceIncrease env level _)
        split
        · refine hnonce.trans (Relation.ReflTransGen.trans ?_ (effects_endTransaction ..))
          exact Relation.ReflTransGen.head (.frame _ level)
            (TransactionFrm.effects_apply (fun _ => hexecute) ..)
        · have hfee := hnonce.trans (LedgerContext.effects_addActualFee lib lcl env _)
          split
          · rename_i heq
            rw [heq] at hfee
            exact hfee.trans (effects_endTransaction ..)
          · rename_i heq
            rw [heq] at hfee
            exact hfee.trans (effects_endTransaction ..)

theorem ContractManager.effects_execute {lcl : Closed}
    {run : LedgerContext → Outcome × LedgerContext} (hrun : ∀ c, Effects lcl c (run c).2)
    (type : ℤ) (this : Address) (c : LedgerContext) :
    Effects lcl c (execute lcl type this run c).2 := by
  unfold execute
  split
  · exact .refl
  · split
    · exact .refl
    · exact .head (.executed c this) (hrun _)

theorem ContractManager.effects_query {lcl : Closed}
    {run : LedgerContext → Outcome × LedgerContext} (hrun : ∀ c, Effects lcl c (run c).2)
    (type : ℤ) (this : Address) (c : LedgerContext) :
    Effects lcl c (query lcl type this run c).2 := by
  unfold query
  split
  · exact .refl
  · split
    · exact .refl
    · exact .head (.executed c this) (hrun _)

/-- A contract with any program performs a sequence of effects. -/
theorem Program.effects_run (lib : Library) (lcl : Closed) (program : Program) :
    ∀ (this : Address) (readonly : Bool) (result : ErrCode) (c : LedgerContext),
      Effects lcl c (program.run lib lcl this readonly result c).2 := by
  induction program with
  | finish ending =>
      intro this readonly result c
      exact .refl
  | getEntry address next ih =>
      intro this readonly result c
      unfold run
      dsimp only
      split
      · exact Effects.crash
      · exact .head (.read c _ address) (ih ..)
  | getValidators next ih =>
      intro this readonly result c
      unfold run
      dsimp only
      split
      · exact Effects.crash
      · exact Relation.ReflTransGen.trans (Effects.getValidators ..) (ih ..)
  | setValidators validators next ih =>
      intro this readonly result c
      unfold run
      split
      · exact ih ..
      · split
        · exact Effects.crash
        · exact .head (.settings c _ _) (ih ..)
  | configFee prices next ih =>
      intro this readonly result c
      unfold run
      split
      · exact ih ..
      · split
        · exact Effects.crash
        · exact Relation.ReflTransGen.trans (Effects.updateFeeConfig ..) (ih ..)
  | transact body metadata inner next ihinner ihnext =>
      intro this readonly result c
      unfold run
      dsimp only
      split
      · exact ihnext ..
      · refine Relation.ReflTransGen.trans ?_ (ihnext ..)
        exact LedgerManager.effects_doTransaction
          (fun callee =>
            ContractManager.effects_execute (ihinner callee false .success) 0 callee) ..
  | delegateCall address inner next ihinner ihnext =>
      intro this readonly result c
      unfold run
      dsimp only
      split
      · exact ihnext ..
      · split
        · rename_i level top _ _
          refine .head (.read c level address) ?_
          split
          · exact ihnext ..
          · refine (Effects.push top).trans (Relation.ReflTransGen.trans ?_ (ihnext ..))
            exact (ContractManager.effects_execute (ihinner this false .success) ..).trans
              Effects.pop
        · exact Effects.crash
  | query delegate address inner next ihinner ihnext =>
      intro this readonly result c
      unfold run
      dsimp only
      split
      · rename_i level top _ _
        refine .head (.read c level address) ?_
        split
        · exact ihnext ..
        · refine Relation.ReflTransGen.trans ?_ (ihnext ..)
          split
          · exact (Effects.push top).trans
              ((ContractManager.effects_query (ihinner _ true .success) ..).trans Effects.pop)
          · exact ContractManager.effects_query (ihinner _ true .success) ..
      · exact Effects.crash

/-! ## Blocks -/

namespace LedgerFrm

variable {lib : Library} {lcl : Closed}

/-- Everything that comes before the mark of a charged fee. -/
theorem effects_charge (lcl : Closed) (env : TransactionEnv) (c : LedgerContext) :
    ∃ c', Effects lcl c c' ∧
      charge lcl env c = c'.mark (.charged env c'.data) := by
  refine ⟨_, ?_, rfl⟩
  exact ((Effects.push _).trans (TransactionFrm.effects_nonceIncrease ..)).trans
    (.single (.commit _ 0))

theorem effects_execute (rt : Runtime) (env : TransactionEnv) (c : LedgerContext) :
    Effects lcl c (execute lib lcl rt env c).2 :=
  TransactionFrm.effects_apply (fun index this => ContractManager.effects_execute
    (Program.effects_run lib lcl (rt.program env c index) this false .success) 0 this) ..

theorem effects_settle (env : TransactionEnv) (size : ℕ) (succeeded : Option ErrCode)
    (c : LedgerContext) : Effects lcl c (settle lcl env size succeeded c) := by
  cases succeeded with
  | none => exact Relation.ReflTransGen.trans (.single (.clear _ 0)) Effects.pop
  | some result =>
      have hrefund : Effects lcl c _ :=
        (TransactionFrm.effects_returnFee env result (ownGas size c) 0 c).trans
          (.single (.commit _ 0))
      exact (hrefund.trans (.single (.clear _ 0))).trans Effects.pop

/-- What follows the mark of a charged fee in `ApplyPropose` and `ApplyCheck`. -/
theorem effects_applyCharged (rt : Runtime) (env : TransactionEnv) (c : LedgerContext) :
    Effects lcl (charge lcl env c) (applyCharged lib lcl rt env c).2 := by
  have hexecute : Effects lcl (charge lcl env c) (execute lib lcl rt env (charge lcl env c)).2 :=
    effects_execute rt env _
  dsimp only [applyCharged]
  split
  · exact hexecute.trans (effects_settle env c.transactionStack.length none _)
  · split
    · exact hexecute.trans (effects_settle env c.transactionStack.length none _)
    · exact hexecute.trans (effects_settle env c.transactionStack.length (some _) _)

theorem effects_rewardEach (lcl : Closed) (averageFee : Int64) (validators : List Address)
    (c : LedgerContext) :
    Effects lcl c (rewardEach lcl averageFee validators c).2 := by
  induction validators generalizing c with
  | nil => exact .refl
  | cons address validators ih =>
      dsimp only [rewardEach]
      rcases hget : c.getEntry lcl 0 address with ⟨found, c₁⟩
      dsimp only
      have hadd : Effects lcl c (if found = none then
          c₁.addEntry 0 address (found.getD (AccountFrm.creatAccountFrm address 0)) else c₁) := by
        split
        · rename_i hnone
          subst hnone
          exact (Effects.read hget).trans
            (Effects.create _ (LedgerContext.absent_of_getEntry hget))
        · exact Effects.read hget
      split
      · exact hadd
      · exact (hadd.trans (Effects.setBalance ..)).trans (ih _)

theorem effects_allocateRewardDirectly (seq : ℤ) (totalReward : Int64) (c : LedgerContext) :
    Effects lcl c (allocateRewardDirectly lcl seq totalReward c).2 := by
  dsimp only [allocateRewardDirectly]
  split
  · exact .refl
  · rename_i validators _
    split
    · exact .refl
    · have heach :=
        effects_rewardEach lcl (totalReward / Int64.ofNat validators.length) validators c
      split
      · rename_i heq
        rw [heq] at heach
        exact heach
      · rename_i heq
        rw [heq] at heach
        split
        · split
          · exact heach.trans Effects.crash
          · split
            · exact heach
            · exact heach.trans (Effects.setBalance ..)
        · exact heach

theorem effects_allocateReward (lcl : Closed) (seq : ℤ) (c : LedgerContext) :
    Effects lcl c (allocateReward lcl seq c).2 := by
  have hdirect : ∀ totalReward c₁, Effects lcl c c₁ → Effects lcl c
      (commitReward (allocateRewardDirectly lcl seq totalReward c₁)).2 := by
    intro totalReward c₁ hc₁
    have heffects := hc₁.trans (effects_allocateRewardDirectly seq totalReward c₁)
    unfold commitReward
    split
    · rename_i heq
      rw [heq] at heffects
      exact heffects.trans (.single (.commit _ 0))
    · rename_i heq
      rw [heq] at heffects
      exact heffects
  simp only [allocateReward]
  split
  · exact .refl
  · split
    · rcases hget : c.getEntry lcl 0 lcl.validatorAddress with ⟨_ | account, c₁⟩
      · exact hdirect _ _ (Effects.read hget)
      · dsimp only
        split
        · exact Effects.read hget
        · exact ((Effects.read hget).trans (Effects.setBalance ..)).trans (.single (.commit _ 0))
    · exact hdirect _ _ .refl

end LedgerFrm

end CegChain
