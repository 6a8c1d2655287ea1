import CegChain.Ledger.LedgerFrm

/-!
# Two runs in lockstep

The execution of a transaction touches the state of its block only through the
operations of `LedgerContext`.  A relation between two states that these
operations keep (`Lockstep`) is therefore kept by every function of the ledger,
up to `Program.run` for any program: both runs give the same answers and end in
related states.  The two runs of a transaction may even reach different contracts, as
long as these agree on related states.

Two relations are used with it.  One relates states that show the same accounts
and differ in what has been read so far; the other holds of a state and itself
as long as the root of the block has not been committed.
-/

namespace CegChain

/-- Equal answers and related states. -/
structure Agree {α : Type*} (R : LedgerContext → LedgerContext → Prop)
    (x y : α × LedgerContext) : Prop where
  fst : y.1 = x.1
  snd : R x.2 y.2

/-- Name the common answer and the two states. -/
theorem Agree.exists_eq {α : Type*} {R : LedgerContext → LedgerContext → Prop}
    {x y : α × LedgerContext} (hagree : Agree R x y) :
    ∃ a c d, x = (a, c) ∧ y = (a, d) ∧ R c d := by
  obtain ⟨a, c⟩ := x
  obtain ⟨a', d⟩ := y
  obtain rfl : a' = a := hagree.fst
  exact ⟨a', c, d, rfl, rfl, hagree.snd⟩

/-- Reading and writing accounts on the environments from level `low` on keeps the
relation. -/
structure EntryLockstep (lcl : Closed) (low : ℕ) (R : LedgerContext → LedgerContext → Prop) :
    Prop where
  getEntry : ∀ {c d}, R c d → ∀ {level}, low ≤ level → ∀ address,
    Agree R (c.getEntry lcl level address) (d.getEntry lcl level address)
  deref : ∀ {c d}, R c d → ∀ level address, d.deref level address = c.deref level address
  modifyEntry : ∀ {c d}, R c d → ∀ {level}, low ≤ level → ∀ address f,
    R (c.modifyEntry level address f) (d.modifyEntry level address f)
  addEntry : ∀ {c d}, R c d → ∀ {level}, low ≤ level → ∀ address frm,
    R (c.addEntry level address frm) (d.addEntry level address frm)
  crash : ∀ {c d}, R c d → R c.crash d.crash

/-- All operations of an environment keep the relation.  Nothing here commits the
root of the block. -/
structure Lockstep (lcl : Closed) (R : LedgerContext → LedgerContext → Prop) : Prop
    extends EntryLockstep lcl 0 R where
  stack_eq : ∀ {c d}, R c d → d.transactionStack = c.transactionStack
  commit : ∀ {c d}, R c d → ∀ level, R (c.commit (level + 1)) (d.commit (level + 1))
  newStackFrameEnv : ∀ {c d}, R c d → ∀ level,
    R (c.newStackFrameEnv level) (d.newStackFrameEnv level)
  getValidators : ∀ {c d}, R c d → ∀ level,
    Agree R (c.getValidators lcl level) (d.getValidators lcl level)
  updateNewValidators : ∀ {c d}, R c d → ∀ level validators,
    R (c.updateNewValidators level validators) (d.updateNewValidators level validators)
  updateFeeConfig : ∀ {c d}, R c d → ∀ level fees,
    R (c.updateFeeConfig level fees) (d.updateFeeConfig level fees)
  setStack : ∀ {c d}, R c d → ∀ stack,
    R { c with transactionStack := stack } { d with transactionStack := stack }
  executed : ∀ {c d}, R c d → ∀ address,
    R (c.mark (.executed address)) (d.mark (.executed address))
  keep : ∀ {c d}, R c d → R c.keep d.keep

namespace Lockstep

variable {lcl : Closed} {R : LedgerContext → LedgerContext → Prop} (hR : Lockstep lcl R)
  {c d : LedgerContext} (hcd : R c d)

include hR hcd

/-! ## The stack of transactions -/

theorem push (tx : StackTx) : R (c.push tx) (d.push tx) := by
  rw [LedgerContext.push, LedgerContext.push, hR.stack_eq hcd]
  exact hR.setStack hcd _

theorem pop : R c.pop d.pop := by
  rw [LedgerContext.pop, LedgerContext.pop, hR.stack_eq hcd]
  exact hR.setStack hcd _

theorem topEnvironment : d.topEnvironment = c.topEnvironment := by
  rw [LedgerContext.topEnvironment, hR.stack_eq hcd, LedgerContext.topEnvironment]

theorem setTopEnvironment (level : ℕ) :
    R (c.setTopEnvironment level) (d.setTopEnvironment level) := by
  rw [LedgerContext.setTopEnvironment, LedgerContext.setTopEnvironment, hR.stack_eq hcd]
  exact hR.setStack hcd _

theorem addActualGas (gas : Int64) : R (c.addActualGas gas) (d.addActualGas gas) := by
  rw [LedgerContext.addActualGas, LedgerContext.addActualGas, hR.stack_eq hcd]
  exact hR.setStack hcd _

theorem addActualFee (lib : Library) (env : TransactionEnv) :
    Agree R (c.addActualFee lib env) (d.addActualFee lib env) := by
  have hgas := hR.addActualGas hcd (TransactionFrm.getSelfGas lib env)
  dsimp only [LedgerContext.addActualFee]
  rw [hR.stack_eq hgas]
  split
  · exact ⟨rfl, hR.crash hgas⟩
  · split
    · exact ⟨rfl, hgas⟩
    · split
      · exact ⟨rfl, hgas⟩
      · exact ⟨rfl, hgas⟩

end Lockstep

/-! ## Operations -/

namespace OperationFrm

variable {lib : Library} {lcl : Closed} {R : LedgerContext → LedgerContext → Prop}
  {execute execute' : Execution} {low level : ℕ} {source : Address} {account : AccountFrm}
  {c d : LedgerContext}

theorem agree_issueAsset (hR : EntryLockstep lcl low R) (hlevel : low ≤ level) (hcd : R c d)
    (message : OperationIssueAsset) :
    Agree R (issueAsset level source account message c)
      (issueAsset level source account message d) := by
  dsimp only [issueAsset]
  split
  · exact ⟨rfl, hR.modifyEntry hcd hlevel ..⟩
  · split
    · exact ⟨rfl, hcd⟩
    · exact ⟨rfl, hR.modifyEntry hcd hlevel ..⟩

theorem agree_transferAsset (hR : EntryLockstep lcl low R) (hlevel : low ≤ level) (hcd : R c d)
    (source dest : Address) (account : AccountFrm) (asset : Option Asset) :
    Agree R (transferAsset level source dest account asset c)
      (transferAsset level source dest account asset d) := by
  cases asset with
  | none => exact ⟨rfl, hcd⟩
  | some asset =>
      dsimp only [transferAsset]
      split
      · exact ⟨rfl, hcd⟩
      · split
        · exact ⟨rfl, hcd⟩
        · split
          · exact ⟨rfl, hcd⟩
          · split
            · exact ⟨rfl, hcd⟩
            · rename_i senderAmount _ _
              have hdebit := hR.modifyEntry hcd hlevel source (·.setAsset asset.key senderAmount)
              rw [hR.deref hdebit]
              split
              · exact ⟨rfl, hR.modifyEntry hdebit hlevel ..⟩
              · split
                · exact ⟨rfl, hdebit⟩
                · exact ⟨rfl, hR.modifyEntry hdebit hlevel ..⟩

theorem agree_setMetaData (hR : EntryLockstep lcl low R) (hlevel : low ≤ level) (hcd : R c d)
    (message : OperationSetMetadata) :
    Agree R (setMetaData level source account message c)
      (setMetaData level source account message d) := by
  unfold setMetaData
  split
  · exact ⟨rfl, hcd⟩
  · exact ⟨rfl, hR.modifyEntry hcd hlevel ..⟩

theorem agree_checkSignature (hR : EntryLockstep lcl low R) (hlevel : low ≤ level) (hcd : R c d)
    (env : TransactionEnv)
    (ope : Operation) :
    Agree R (checkSignature lib lcl env level ope c) (checkSignature lib lcl env level ope d) := by
  unfold checkSignature
  obtain ⟨found, c₁, d₁, hc, hd, hcd₁⟩ :=
    (hR.getEntry hcd hlevel (env.transaction.operationSource ope)).exists_eq
  rw [hc, hd]
  cases found with
  | none => exact ⟨rfl, hcd₁⟩
  | some account =>
      dsimp only
      split
      · exact ⟨rfl, hcd₁⟩
      · exact ⟨rfl, hcd₁⟩

section Reaching

variable (hR : EntryLockstep lcl low R) (hlevel : low ≤ level) (hexecute : ∀ this {c d}, R c d →
  Agree R (execute this c) (execute' this d))

include hR hlevel hexecute

theorem agree_createAccount (hcd : R c d) (tran : Transaction) (index : ℕ)
    (message : OperationCreateAccount) :
    Agree R (createAccount lib lcl execute tran index level source account message c)
      (createAccount lib lcl execute' tran index level source account message d) := by
  dsimp only [createAccount]
  obtain ⟨found, c₁, d₁, hc, hd, hcd₁⟩ :=
    (hR.getEntry hcd hlevel (createdAddress lib tran index message)).exists_eq
  rw [hc, hd]
  cases found with
  | some _ => exact ⟨rfl, hcd₁⟩
  | none =>
      dsimp only
      split
      · exact ⟨rfl, hcd₁⟩
      · split
        · exact ⟨rfl, hcd₁⟩
        · split
          · exact ⟨rfl, hcd₁⟩
          · split
            · exact ⟨rfl, hcd₁⟩
            · rename_i balance _
              have hwrite := hR.modifyEntry hcd₁ hlevel source (·.setBalance balance)
              split
              · exact ⟨rfl, hwrite⟩
              · rename_i created _
                have hcreate := hR.addEntry hwrite hlevel (createdAddress lib tran index message)
                  created
                split
                · exact ⟨rfl, hcreate⟩
                · exact hexecute _ hcreate

theorem agree_payAsset (hcd : R c d) (message : OperationPayAsset) :
    Agree R (payAsset lcl execute level source account message c)
      (payAsset lcl execute' level source account message d) := by
  dsimp only [payAsset]
  obtain ⟨found, c₁, d₁, hc, hd, hcd₁⟩ := (hR.getEntry hcd hlevel message.destAddress).exists_eq
  rw [hc, hd]
  cases found with
  | none => exact ⟨rfl, hcd₁⟩
  | some destAccount =>
      dsimp only
      obtain ⟨code, c₂, d₂, hc₂, hd₂, hcd₂⟩ := (agree_transferAsset hR hlevel hcd₁ source
        message.destAddress account message.asset).exists_eq
      rw [hc₂, hd₂]
      cases code with
      | success =>
          dsimp only
          split
          · exact ⟨rfl, hcd₂⟩
          · exact hexecute _ hcd₂
      | _ => exact ⟨rfl, hcd₂⟩

theorem agree_payCoin (hcd : R c d) (message : OperationPayCoin) :
    Agree R (payCoin lcl execute level source account message c)
      (payCoin lcl execute' level source account message d) := by
  dsimp only [payCoin]
  split
  · exact ⟨rfl, hcd⟩
  · split
    · exact ⟨rfl, hcd⟩
    · obtain ⟨found, c₁, d₁, hc, hd, hcd₁⟩ :=
        (hR.getEntry hcd hlevel message.destAddress).exists_eq
      rw [hc, hd]
      dsimp only
      split
      · exact ⟨rfl, hcd₁⟩
      · have hdest : R
            (if found = none then
              c₁.addEntry level message.destAddress (paidAccount message.destAddress) else c₁)
            (if found = none then
              d₁.addEntry level message.destAddress (paidAccount message.destAddress) else d₁) := by
          split
          · exact hR.addEntry hcd₁ hlevel ..
          · exact hcd₁
        revert hdest
        generalize (if found = none then _ else c₁) = c₂
        generalize (if found = none then _ else d₁) = d₂
        intro hdest
        split
        · exact ⟨rfl, hdest⟩
        · rename_i srcBalance _
          have hdebit := hR.modifyEntry hdest hlevel source (·.setBalance srcBalance)
          rw [hR.deref hdebit]
          split
          · exact ⟨rfl, hR.crash hdebit⟩
          · split
            · exact ⟨rfl, hdebit⟩
            · rename_i destBalance _
              have hcredit := hR.modifyEntry hdebit hlevel message.destAddress
                (·.setBalance destBalance)
              split
              · exact ⟨rfl, hcredit⟩
              · exact hexecute _ hcredit

theorem agree_apply (hcd : R c d) (lib : Library) (env : TransactionEnv) (index : ℕ)
    (ope : Operation) :
    Agree R (apply lib lcl execute env index level ope c)
      (apply lib lcl execute' env index level ope d) := by
  dsimp only [apply]
  obtain ⟨found, c₁, d₁, hc, hd, hcd₁⟩ :=
    (hR.getEntry hcd hlevel (env.transaction.operationSource ope)).exists_eq
  rw [hc, hd]
  cases found with
  | none => exact ⟨rfl, hcd₁⟩
  | some account =>
      dsimp only
      split
      · exact ⟨rfl, hcd₁⟩
      · exact agree_createAccount hR hlevel hexecute hcd₁ ..
      · exact agree_payAsset hR hlevel hexecute hcd₁ _
      · exact agree_issueAsset hR hlevel hcd₁ _
      · exact agree_setMetaData hR hlevel hcd₁ _
      · exact ⟨rfl, hR.modifyEntry hcd₁ hlevel ..⟩
      · exact ⟨rfl, hR.modifyEntry hcd₁ hlevel ..⟩
      · exact agree_payCoin hR hlevel hexecute hcd₁ _
      · exact ⟨rfl, hcd₁⟩
      · exact ⟨rfl, hR.modifyEntry hcd₁ hlevel ..⟩
      · split <;> exact ⟨rfl, hcd₁⟩

end Reaching

end OperationFrm

/-! ## Transactions -/

namespace TransactionFrm

variable {lib : Library} {lcl : Closed} {R : LedgerContext → LedgerContext → Prop}
  {low level : ℕ} {c d : LedgerContext}

theorem lockstep_nonceIncrease (hR : EntryLockstep lcl low R) (hlevel : low ≤ level)
    (hcd : R c d) (env : TransactionEnv) :
    R (nonceIncrease lcl env level c) (nonceIncrease lcl env level d) := by
  unfold nonceIncrease
  obtain ⟨found, c₁, d₁, hc, hd, hcd₁⟩ :=
    (hR.getEntry hcd hlevel env.transaction.sourceAddress).exists_eq
  rw [hc, hd]
  cases found with
  | none => exact hcd₁
  | some account => exact hR.modifyEntry hcd₁ hlevel ..

variable {execute execute' : ℕ → Execution}
  (hexecute : ∀ index this {c d}, R c d → Agree R (execute index this c) (execute' index this d))

include hexecute

theorem agree_applyOperations (hR : EntryLockstep lcl low R) (hlevel : low ≤ level) (hcd : R c d)
    (env : TransactionEnv) (boolContract : Bool) (index : ℕ) (operations : List Operation) :
    Agree R (applyOperations lib lcl execute env level boolContract index operations c)
      (applyOperations lib lcl execute' env level boolContract index operations d) := by
  induction operations generalizing index c d with
  | nil => exact ⟨rfl, hcd⟩
  | cons ope operations ih =>
      dsimp only [applyOperations]
      have hchecked : Agree R
          (if boolContract then (ErrCode.success, c)
            else OperationFrm.checkSignature lib lcl env level ope c)
          (if boolContract then (ErrCode.success, d)
            else OperationFrm.checkSignature lib lcl env level ope d) := by
        split
        · exact ⟨rfl, hcd⟩
        · exact OperationFrm.agree_checkSignature hR hlevel hcd env ope
      obtain ⟨code, c₁, d₁, hc, hd, hcd₁⟩ := hchecked.exists_eq
      rw [hc, hd]
      cases code with
      | success =>
          dsimp only
          obtain ⟨code, c₂, d₂, hc₂, hd₂, hcd₂⟩ :=
            (OperationFrm.agree_apply hR hlevel (hexecute index) hcd₁ lib env index ope).exists_eq
          rw [hc₂, hd₂]
          cases code with
          | success => exact ih hcd₂ _
          | _ => exact ⟨rfl, hcd₂⟩
      | _ => exact ⟨rfl, hcd₁⟩

theorem agree_apply (hR : Lockstep lcl R) (hcd : R c d) (lib : Library) (env : TransactionEnv)
    (level : ℕ)
    (boolContract : Bool) :
    Agree R (apply lib lcl execute env level boolContract c)
      (apply lib lcl execute' env level boolContract d) := by
  unfold apply
  obtain ⟨code, c₁, d₁, hc, hd, hcd₁⟩ :=
    (hR.addActualFee (hR.setTopEnvironment hcd level) lib env).exists_eq
  rw [hc, hd]
  cases code with
  | success => exact agree_applyOperations hexecute hR.toEntryLockstep (Nat.zero_le _) hcd₁ ..
  | _ => exact ⟨rfl, hcd₁⟩

end TransactionFrm

/-! ## Contracts -/

section Contracts

variable {lib : Library} {lcl : Closed} {R : LedgerContext → LedgerContext → Prop}
  {c d : LedgerContext}

theorem LedgerManager.agree_endTransaction (hR : Lockstep lcl R) (hcd : R c d) (level : ℕ)
    (code : ErrCode) :
    Agree R (endTransaction lcl (level + 1) code c) (endTransaction lcl (level + 1) code d) := by
  unfold endTransaction
  split
  · refine ⟨rfl, ?_⟩
    dsimp only
    split
    · exact hR.pop hcd
    · exact hR.keep hcd
  · refine ⟨rfl, hR.pop ?_⟩
    split
    · exact hR.commit hcd level
    · exact hcd

theorem LedgerManager.agree_doTransaction {execute : Execution} (hR : Lockstep lcl R)
    (hexecute : ∀ this {c d}, R c d → Agree R (execute this c) (execute this d)) (hcd : R c d)
    (lib : Library) (transaction : Transaction) :
    Agree R (doTransaction lib lcl execute transaction c)
      (doTransaction lib lcl execute transaction d) := by
  dsimp only [doTransaction]
  rw [hR.topEnvironment hcd]
  split
  · exact ⟨rfl, hR.crash hcd⟩
  · rename_i level _
    obtain ⟨found, c₁, d₁, hc, hd, hcd₁⟩ :=
      (hR.getEntry hcd (Nat.zero_le level) transaction.sourceAddress).exists_eq
    rw [hc, hd]
    cases found with
    | none => exact ⟨rfl, hR.crash hcd₁⟩
    | some account =>
        dsimp only
        generalize ({ transaction := { transaction with nonce := account.nonce + 1 } } :
          TransactionEnv) = env
        rw [hR.stack_eq hcd₁]
        split
        · exact ⟨rfl, hR.addActualGas hcd₁ _⟩
        · have hnonce := TransactionFrm.lockstep_nonceIncrease hR.toEntryLockstep
            (Nat.zero_le level) (hR.push hcd₁ { env := env }) env
          rw [hR.stack_eq hnonce]
          split
          · obtain ⟨code, c₂, d₂, hc₂, hd₂, hcd₂⟩ := (TransactionFrm.agree_apply
              (fun _ this {_ _} h => hexecute this h) hR (hR.newStackFrameEnv hnonce level) lib env
              (level + 1) true).exists_eq
            rw [hc₂, hd₂]
            exact agree_endTransaction hR hcd₂ level code
          · obtain ⟨code, c₂, d₂, hc₂, hd₂, hcd₂⟩ := (hR.addActualFee hnonce lib env).exists_eq
            rw [hc₂, hd₂]
            cases code with
            | success => exact agree_endTransaction hR hcd₂ level _
            | _ => exact agree_endTransaction hR hcd₂ level _

variable {run : LedgerContext → Outcome × LedgerContext}

theorem ContractManager.agree_execute (hR : Lockstep lcl R)
    (hrun : ∀ {c d}, R c d → Agree R (run c) (run d)) (hcd : R c d) (type : ℤ)
    (this : Address) :
    Agree R (execute lcl type this run c) (execute lcl type this run d) := by
  unfold execute tooDeep
  rw [hR.stack_eq hcd]
  split
  · exact ⟨rfl, hcd⟩
  · split
    · exact ⟨rfl, hcd⟩
    · obtain ⟨outcome, c₁, d₁, hc, hd, hcd₁⟩ := (hrun (hR.executed hcd this)).exists_eq
      rw [hc, hd]
      exact ⟨rfl, hcd₁⟩

theorem ContractManager.agree_query (hR : Lockstep lcl R)
    (hrun : ∀ {c d}, R c d → Agree R (run c) (run d)) (hcd : R c d) (type : ℤ)
    (this : Address) :
    Agree R (query lcl type this run c) (query lcl type this run d) := by
  unfold query tooDeep
  rw [hR.stack_eq hcd]
  split
  · exact ⟨rfl, hcd⟩
  · split
    · exact ⟨rfl, hcd⟩
    · obtain ⟨outcome, c₁, d₁, hc, hd, hcd₁⟩ := (hrun (hR.executed hcd this)).exists_eq
      rw [hc, hd]
      exact ⟨rfl, hcd₁⟩

/-- **Contracts run in lockstep**, whatever their program is. -/
theorem Program.agree_run (hR : Lockstep lcl R) (lib : Library) (program : Program) :
    ∀ (this : Address) (readonly : Bool) (result : ErrCode) {c d : LedgerContext}, R c d →
      Agree R (program.run lib lcl this readonly result c)
        (program.run lib lcl this readonly result d) := by
  induction program with
  | finish ending =>
      intro this readonly result c d hcd
      exact ⟨rfl, hcd⟩
  | getEntry address next ih =>
      intro this readonly result c d hcd
      unfold run
      rw [hR.topEnvironment hcd]
      split
      · exact ⟨rfl, hR.crash hcd⟩
      · rename_i level _
        obtain ⟨found, c₁, d₁, hc, hd, hcd₁⟩ :=
          (hR.getEntry hcd (Nat.zero_le level) address).exists_eq
        rw [hc, hd]
        exact ih found this readonly result hcd₁
  | getValidators next ih =>
      intro this readonly result c d hcd
      unfold run
      rw [hR.topEnvironment hcd]
      split
      · exact ⟨rfl, hR.crash hcd⟩
      · rename_i level _
        obtain ⟨found, c₁, d₁, hc, hd, hcd₁⟩ := (hR.getValidators hcd level).exists_eq
        rw [hc, hd]
        exact ih found this readonly result hcd₁
  | setValidators validators next ih =>
      intro this readonly result c d hcd
      unfold run
      rw [hR.topEnvironment hcd]
      split
      · exact ih false this readonly result hcd
      · split
        · exact ⟨rfl, hR.crash hcd⟩
        · exact ih true this readonly result (hR.updateNewValidators hcd ..)
  | configFee prices next ih =>
      intro this readonly result c d hcd
      unfold run
      rw [hR.topEnvironment hcd]
      split
      · exact ih false this readonly result hcd
      · split
        · exact ⟨rfl, hR.crash hcd⟩
        · exact ih true this readonly result (hR.updateFeeConfig hcd ..)
  | transact body metadata inner next ihinner ih =>
      intro this readonly result c d hcd
      unfold run
      dsimp only
      split
      · exact ih none this readonly result hcd
      · obtain ⟨code, c₁, d₁, hc, hd, hcd₁⟩ := (LedgerManager.agree_doTransaction hR
          (fun callee {_ _} h => ContractManager.agree_execute hR (ihinner callee false .success)
            h 0 callee) hcd lib
          { sourceAddress := this,
            operations := [{ body := body, metadata := metadata }] }).exists_eq
        rw [hc, hd]
        exact ih (some code) this readonly _ hcd₁
  | delegateCall address inner next ihinner ih =>
      intro this readonly result c d hcd
      unfold run
      dsimp only
      rw [hR.topEnvironment hcd, hR.stack_eq hcd]
      split
      · exact ih none this readonly result hcd
      · split
        · rename_i level top _ _
          obtain ⟨found, c₁, d₁, hc, hd, hcd₁⟩ :=
            (hR.getEntry hcd (Nat.zero_le level) address).exists_eq
          rw [hc, hd]
          dsimp only
          split
          · exact ih none this readonly result hcd₁
          · rename_i contract _
            obtain ⟨code, c₂, d₂, hc₂, hd₂, hcd₂⟩ := (ContractManager.agree_execute hR
              (ihinner this false .success) (hR.push hcd₁ top) contract.type this).exists_eq
            rw [hc₂, hd₂]
            exact ih (some code) this readonly _ (hR.pop hcd₂)
        · exact ⟨rfl, hR.crash hcd⟩
  | query delegate address inner next ihinner ih =>
      intro this readonly result c d hcd
      unfold run
      dsimp only
      rw [hR.topEnvironment hcd, hR.stack_eq hcd]
      split
      · rename_i level top _ _
        obtain ⟨found, c₁, d₁, hc, hd, hcd₁⟩ :=
          (hR.getEntry hcd (Nat.zero_le level) address).exists_eq
        rw [hc, hd]
        dsimp only
        split
        · exact ih false this readonly result hcd₁
        · rename_i contract _
          generalize (if delegate = true then this else address) = queried
          generalize (delegate || decide (lcl.version > 1001)) = pushes
          have hpushed : R (if pushes = true then c₁.push top else c₁)
              (if pushes = true then d₁.push top else d₁) := by
            split
            · exact hR.push hcd₁ top
            · exact hcd₁
          obtain ⟨answer, c₂, d₂, hc₂, hd₂, hcd₂⟩ := (ContractManager.agree_query hR
            (fun {_ _} h => ihinner queried true .success h) hpushed contract.type
            queried).exists_eq
          rw [hc₂, hd₂]
          refine ih answer this readonly result ?_
          split
          · exact hR.pop hcd₂
          · exact hcd₂
      · exact ⟨rfl, hR.crash hcd⟩

/-- `Apply` of a transaction of the block, with the same programs. -/
theorem LedgerFrm.agree_execute {rt rt' : Runtime} {env : TransactionEnv} (hR : Lockstep lcl R)
    (lib : Library) (hprogram : rt'.program env d = rt.program env c) (hcd : R c d) :
    Agree R (execute lib lcl rt env c) (execute lib lcl rt' env d) := by
  unfold execute
  rw [hprogram]
  exact TransactionFrm.agree_apply (fun index this {_ _} h => ContractManager.agree_execute hR
    (Program.agree_run hR lib (rt.program env c index) this false .success) h 0 this) hR hcd ..

end Contracts

end CegChain
