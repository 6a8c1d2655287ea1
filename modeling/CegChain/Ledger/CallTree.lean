import CegChain.Ledger.Follow
import CegChain.Lib.Callback

/-!
# The calls below a transaction

Under a transaction of a block lies a tree of calls: `Apply` of the transaction runs
contracts with `ContractManager::Execute`; a contract makes host calls, which run
`DoTransaction` or, for a delegated call, `Execute` again; `DoTransaction` runs the
contract its operation reaches.  Each call returns a code, and a contract may catch
the exception that tells it of a failure.

`Call.Child` is one edge of the tree.  A failed child fails its parent, so it fails
every call around it up to the transaction of the block, of which nothing but the
charge is left then.
-/

namespace CegChain

open Layers AtomMap Callback

/-- A code other than success. -/
def Failed {σ : Type*} (r : ErrCode × σ) : Prop :=
  r.1 ≠ .success

theorem eq_of_not_failed {σ : Type*} {r : ErrCode × σ} (hsuccess : r.1 = .success) :
    r = (.success, r.2) :=
  Prod.ext hsuccess rfl

/-! ## Operations pass on the failure of the contract they run -/

namespace OperationFrm

variable (lib : Library) (lcl : Closed) (level : ℕ) (source : Address) (account : AccountFrm)
  (c : LedgerContext)

theorem passesOn_payCoin (message : OperationPayCoin) :
    PassesOn Failed Failed fun execute =>
      payCoin lcl execute level source account message c := by
  dsimp only [payCoin]
  cases safeIntAdd message.amount lcl.fees.baseReserve with
  | none => exact .alone _ fun _ => rfl
  | some minBalance =>
      dsimp only
      by_cases hlow : account.balance < minBalance
      · simp only [if_pos hlow]
        exact .alone _ fun _ => rfl
      · simp only [if_neg hlow]
        by_cases hinit : (c.getEntry lcl level message.destAddress).1 = none ∧
            message.amount < lcl.fees.baseReserve
        · simp only [if_pos hinit]
          exact .alone _ fun _ => rfl
        · simp only [if_neg hinit]
          cases safeIntSub account.balance message.amount with
          | none => exact .alone _ fun _ => rfl
          | some srcBalance =>
              dsimp only
              generalize LedgerContext.modifyEntry level source _ _ = c₁
              cases c₁.deref level message.destAddress with
              | none => exact .alone _ fun _ => rfl
              | some destAccount =>
                  dsimp only
                  cases safeIntAdd destAccount.balance message.amount with
                  | none => exact .alone _ fun _ => rfl
                  | some destBalance =>
                      dsimp only
                      by_cases hpayload : destAccount.contract.payload = []
                      · simp only [if_pos hpayload]
                        exact .alone _ fun _ => rfl
                      · simp only [if_neg hpayload]
                        exact .through _ _ id (fun _ => rfl) fun _ => id

theorem passesOn_payAsset (message : OperationPayAsset) :
    PassesOn Failed Failed fun execute =>
      payAsset lcl execute level source account message c := by
  dsimp only [payAsset]
  rcases c.getEntry lcl level message.destAddress with ⟨_ | destAccount, c₁⟩
  · exact .alone _ fun _ => rfl
  · dsimp only
    rcases transferAsset level source message.destAddress account message.asset c₁ with ⟨code, c₂⟩
    by_cases hcode : code = .success
    · subst hcode
      dsimp only
      by_cases hpayload : destAccount.contract.payload = []
      · simp only [if_pos hpayload]
        exact .alone _ fun _ => rfl
      · simp only [if_neg hpayload]
        exact .through _ _ id (fun _ => rfl) fun _ => id
    · refine .alone (code, c₂) fun _ => ?_
      split
      case h_1 heq => exact absurd (Prod.mk.inj heq).1 hcode
      case h_2 => rfl

theorem passesOn_createAccount (tran : Transaction) (index : ℕ)
    (message : OperationCreateAccount) :
    PassesOn Failed Failed fun execute =>
      createAccount lib lcl execute tran index level source account message c := by
  dsimp only [createAccount]
  rcases c.getEntry lcl level (createdAddress lib tran index message) with ⟨_ | found, c₁⟩
  · dsimp only
    by_cases hlow : message.initBalance < lcl.fees.baseReserve
    · simp only [if_pos hlow]
      exact .alone _ fun _ => rfl
    · simp only [if_neg hlow]
      cases safeIntSub account.balance lcl.fees.baseReserve with
      | none => exact .alone _ fun _ => rfl
      | some limitBalance =>
          dsimp only
          by_cases hlimit : limitBalance < message.initBalance
          · simp only [if_pos hlimit]
            exact .alone _ fun _ => rfl
          · simp only [if_neg hlimit]
            cases safeIntAdd account.balance (-1 * message.initBalance) with
            | none => exact .alone _ fun _ => rfl
            | some balance =>
                dsimp only
                cases withMetadatas message.metadatas _ with
                | none => exact .alone _ fun _ => rfl
                | some created =>
                    dsimp only
                    by_cases hpayload : message.contract.payload = []
                    · simp only [if_pos hpayload]
                      exact .alone _ fun _ => rfl
                    · simp only [if_neg hpayload]
                      exact .through _ _ id (fun _ => rfl) fun _ => id
  · exact .alone _ fun _ => rfl

/-- `OperationFrm::Apply` passes on the failure of the contract it runs. -/
theorem passesOn_apply (env : TransactionEnv) (index : ℕ) (ope : Operation) :
    PassesOn Failed Failed fun execute => apply lib lcl execute env index level ope c := by
  dsimp only [apply]
  rcases c.getEntry lcl level (env.transaction.operationSource ope) with ⟨_ | account, c₁⟩
  · exact .alone _ fun _ => rfl
  · dsimp only
    cases ope.body with
    | createAccount message => exact passesOn_createAccount ..
    | payAsset message => exact passesOn_payAsset ..
    | payCoin message => exact passesOn_payCoin ..
    | _ => exact .alone _ fun _ => rfl

end OperationFrm

/-! ## `DoTransaction` passes it on -/

section DoTransaction

variable (lib : Library) (lcl : Closed)

theorem TransactionFrm.applyOperations_singleton (execute : ℕ → Execution)
    (env : TransactionEnv) (level index : ℕ) (ope : Operation) (c : LedgerContext) :
    TransactionFrm.applyOperations lib lcl execute env level true index [ope] c =
      OperationFrm.apply lib lcl (execute index) env index level ope c := by
  simp only [TransactionFrm.applyOperations, if_true]
  split
  case h_1 heq => exact heq.symm
  case h_2 => rfl

/-- The transaction of a contract has one operation. -/
theorem TransactionFrm.passesOn_apply (env : TransactionEnv) (level : ℕ) (ope : Operation)
    (hope : env.transaction.operations = [ope]) (c : LedgerContext) :
    PassesOn Failed Failed fun execute =>
      TransactionFrm.apply lib lcl (fun _ => execute) env level true c := by
  dsimp only [TransactionFrm.apply]
  rcases (c.setTopEnvironment level).addActualFee lib env with ⟨code, c₁⟩
  by_cases hcode : code = .success
  · subst hcode
    dsimp only
    rw [hope]
    simp only [TransactionFrm.applyOperations_singleton]
    exact OperationFrm.passesOn_apply lib lcl level c₁ env 0 ope
  · refine .alone (code, c₁) fun _ => ?_
    split
    case h_1 heq => exact absurd (Prod.mk.inj heq).1 hcode
    case h_2 => rfl

/-- The end of a transaction keeps its code. -/
theorem LedgerManager.endTransaction_fst (level : ℕ) (code : ErrCode) (c : LedgerContext) :
    (LedgerManager.endTransaction lcl level code c).1 = code := by
  unfold LedgerManager.endTransaction
  split <;> rfl

theorem LedgerManager.passesOn_doTransaction (transaction : Transaction) (ope : Operation)
    (hope : transaction.operations = [ope]) (c : LedgerContext) :
    PassesOn Failed Failed fun execute =>
      LedgerManager.doTransaction lib lcl execute transaction c := by
  dsimp only [LedgerManager.doTransaction]
  cases c.topEnvironment with
  | none => exact .alone _ fun _ => rfl
  | some level =>
      dsimp only
      rcases c.getEntry lcl level transaction.sourceAddress with ⟨_ | account, c₁⟩
      · exact .alone _ fun _ => rfl
      · dsimp only
        by_cases hdepth : LedgerManager.checkContractDepthSafe lcl c₁.transactionStack.length =
            false
        · simp only [if_pos hdepth]
          exact .alone _ fun _ => rfl
        · simp only [if_neg hdepth]
          generalize TransactionFrm.nonceIncrease lcl _ level _ = c₂
          by_cases hvalid : TransactionFrm.validForParameter lib lcl
              { transaction := { transaction with nonce := account.nonce + 1 } }
              c₂.transactionStack.length = .success
          · simp only [hvalid]
            refine (TransactionFrm.passesOn_apply lib lcl _ (level + 1) ope hope
              (c₂.newStackFrameEnv level)).map
                (fun r => LedgerManager.endTransaction lcl (level + 1) r.1 r.2) ?_
            intro r hfailed
            unfold Failed
            rw [LedgerManager.endTransaction_fst]
            exact hfailed
          · refine .of_eq (fun _ c => (.success, c)) fun execute => ?_
            split
            case h_1 heq => exact absurd heq hvalid
            case h_2 => rfl

end DoTransaction

/-! ## The tree of calls -/

/-- A call below a transaction of the block, or the transaction itself. -/
inductive Call where
  /-- `Apply` of a transaction of the block, from the state its charge has left. -/
  | apply (rt : Runtime) (env : TransactionEnv) (c : LedgerContext)
  /-- `ContractManager::Execute` of a contract of this type. -/
  | execute (type : ℤ) (this : Address) (program : Program) (c : LedgerContext)
  /-- `LedgerManager::DoTransaction` for the contract at `this`. -/
  | doTransaction (this : Address) (body : OperationBody) (metadata : Bytes) (inner : Program)
      (c : LedgerContext)

section Calls

variable (lib : Library) (lcl : Closed)

/-- `Execute` of this program at an address. -/
def Program.execution (program : Program) : Execution := fun this =>
  ContractManager.execute lcl 0 this (program.run lib lcl this false .success)

/-- The transaction that a host call builds. -/
def Program.hostTransaction (this : Address) (body : OperationBody) (metadata : Bytes) :
    Transaction :=
  { sourceAddress := this, operations := [{ body := body, metadata := metadata }] }

/-- The code that a call returns. -/
def Call.code : Call → ErrCode
  | apply rt env c => (LedgerFrm.execute lib lcl rt env c).1
  | execute type this program c =>
      (ContractManager.execute lcl type this (program.run lib lcl this false .success) c).1
  | doTransaction this body metadata inner c =>
      (LedgerManager.doTransaction lib lcl (inner.execution lib lcl)
        (Program.hostTransaction this body metadata) c).1

/-- The run of a contract makes this call, itself or in one of its queries. -/
def Program.Makes (call : Call) : Program → Address → Bool → ErrCode → LedgerContext → Prop
  | finish _, _, _, _, _ => False
  | getEntry address next, this, readonly, result, c =>
      match c.topEnvironment with
      | none => False
      | some level =>
          let r := c.getEntry lcl level address
          (next r.1).Makes call this readonly result r.2
  | getValidators next, this, readonly, result, c =>
      match c.topEnvironment with
      | none => False
      | some level =>
          let r := c.getValidators lcl level
          (next r.1).Makes call this readonly result r.2
  | setValidators validators next, this, readonly, result, c =>
      if readonly ∨ this ≠ lcl.validatorAddress then (next false).Makes call this readonly result c
      else match c.topEnvironment with
      | none => False
      | some level => (next true).Makes call this readonly result
          (c.updateNewValidators level (.validators validators))
  | configFee prices next, this, readonly, result, c =>
      if readonly ∨ this ≠ lcl.feeAddress then (next false).Makes call this readonly result c
      else match c.topEnvironment with
      | none => False
      | some level =>
          (next true).Makes call this readonly result (c.updateFeeConfig level (.fees prices))
  | transact body metadata inner next, this, readonly, result, c =>
      if readonly then (next none).Makes call this readonly result c
      else
        let r := LedgerManager.doTransaction lib lcl (inner.execution lib lcl)
          (hostTransaction this body metadata) c
        call = .doTransaction this body metadata inner c ∨
          (next (some r.1)).Makes call this readonly (resultAfter result r.1) r.2
  | delegateCall address inner next, this, readonly, result, c =>
      if readonly then (next none).Makes call this readonly result c
      else match c.topEnvironment, c.transactionStack.head? with
      | some level, some top =>
          let r := c.getEntry lcl level address
          match contractOf r.1 with
          | none => (next none).Makes call this readonly result r.2
          | some contract =>
              let delegated := r.2.push top
              let r := ContractManager.execute lcl contract.type this
                (inner.run lib lcl this false .success) delegated
              call = .execute contract.type this inner delegated ∨
                (next (some r.1)).Makes call this readonly (resultAfter result r.1) r.2.pop
      | _, _ => False
  | query delegate address inner next, this, readonly, result, c =>
      match c.topEnvironment, c.transactionStack.head? with
      | some level, some top =>
          let r := c.getEntry lcl level address
          match contractOf r.1 with
          | none => (next false).Makes call this readonly result r.2
          | some contract =>
              let queried := if delegate then this else address
              let pushes := delegate || lcl.version > 1001
              let asked := if pushes then r.2.push top else r.2
              let r := ContractManager.query lcl contract.type queried
                (inner.run lib lcl queried true .success) asked
              inner.Makes call queried true .success (asked.mark (.executed queried)) ∨
                (next r.1).Makes call this readonly result (if pushes then r.2.pop else r.2)
      | _, _ => False

/-- The loop over the operations of a transaction runs the contract at `callee` for
the operation of index `i`. -/
def TransactionFrm.Runs (execute : ℕ → Execution) (env : TransactionEnv) (level : ℕ)
    (boolContract : Bool) (i : ℕ) (callee : Address) (c' : LedgerContext) :
    ℕ → List Operation → LedgerContext → Prop
  | _, [], _ => False
  | index, ope :: operations, c =>
      let checked : ErrCode × LedgerContext :=
        if boolContract then (.success, c)
        else OperationFrm.checkSignature lib lcl env level ope c
      match checked with
      | (.success, c) =>
          (i = index ∧ Reaches (fun execute =>
              OperationFrm.apply lib lcl execute env index level ope c) callee c') ∨
            match OperationFrm.apply lib lcl (execute index) env index level ope c with
            | (.success, c) =>
                Runs execute env level boolContract i callee c' (index + 1) operations c
            | _ => False
      | _ => False

/-- The second call is made directly by the first. -/
inductive Call.Child : Call → Call → Prop where
  | operation {rt : Runtime} {env : TransactionEnv} {c c₁ c' : LedgerContext} {index : ℕ}
      {callee : Address}
      (hfee : (c.setTopEnvironment 0).addActualFee lib env = (.success, c₁))
      (hruns : TransactionFrm.Runs lib lcl (fun i => (rt.program env c i).execution lib lcl) env 0
        false index callee c' 0 env.transaction.operations c₁) :
      Child (.apply rt env c) (.execute 0 callee (rt.program env c index) c')
  | host {this : Address} {program : Program} {c : LedgerContext} {call : Call}
      (hdepth : ContractManager.tooDeep lcl c = false)
      (hmakes : program.Makes lib lcl call this false .success (c.mark (.executed this))) :
      Child (.execute 0 this program c) call
  | contract {this callee : Address} {body : OperationBody} {metadata : Bytes} {inner : Program}
      {c c' : LedgerContext}
      (hreaches : Reaches (fun execute => LedgerManager.doTransaction lib lcl execute
        (Program.hostTransaction this body metadata) c) callee c') :
      Child (.doTransaction this body metadata inner c) (.execute 0 callee inner c')

/-- The second call lies below the first, or is the first. -/
abbrev Call.Below : Call → Call → Prop :=
  Relation.ReflTransGen (Call.Child lib lcl)

end Calls

/-! ## A failed call fails the calls around it -/

section Failures

variable {lib : Library} {lcl : Closed} {call : Call}

theorem contractExecuteFail_ne_success : ErrCode.contractExecuteFail ≠ .success := nofun

theorem Ending.code_ne_success {version : ℕ} {result : ErrCode} (hresult : result ≠ .success)
    (ending : Ending) : ending.code version result ≠ .success := by
  cases ending with
  | returned => exact hresult
  | threw =>
      show (if result = .success then _ else result) ≠ _
      rw [if_neg hresult]
      exact hresult
  | lost => exact nofun
  | scriptThrew =>
      show (if version > 1001 ∧ result = .success then _ else result) ≠ _
      rw [if_neg fun h => hresult h.2]
      exact hresult
  | notCompiled =>
      show (if version > 1001 then ErrCode.contractExecuteFail else result) ≠ _
      split
      · exact contractExecuteFail_ne_success
      · exact hresult

theorem Program.resultAfter_ne_success {result code : ErrCode}
    (hor : result ≠ .success ∨ code ≠ .success) : resultAfter result code ≠ .success := by
  unfold resultAfter
  by_cases hcode : code = .success
  · rw [if_pos hcode]
    exact hor.resolve_right (not_not.mpr hcode)
  · rw [if_neg hcode]
    exact hcode

/-- What a contract that has failed, or makes a call that fails, ends with; a query makes no
call. -/
theorem Program.code_run (program : Program) :
    ∀ (this : Address) (readonly : Bool) (result : ErrCode) (c : LedgerContext),
      (program.Makes lib lcl call this readonly result c → readonly = false) ∧
        (result ≠ .success ∨
            call.code lib lcl ≠ .success ∧ program.Makes lib lcl call this readonly result c →
          (program.run lib lcl this readonly result c).1.code ≠ .success) := by
  induction program with
  | finish ending =>
      intro this readonly result c
      exact ⟨False.elim, fun hor => ending.code_ne_success (hor.resolve_right And.right)⟩
  | getEntry address next ih =>
      intro this readonly result c
      simp only [Makes, run]
      cases c.topEnvironment with
      | none => exact ⟨False.elim, fun _ => contractExecuteFail_ne_success⟩
      | some level => exact ih _ this readonly result _
  | getValidators next ih =>
      intro this readonly result c
      simp only [Makes, run]
      cases c.topEnvironment with
      | none => exact ⟨False.elim, fun _ => contractExecuteFail_ne_success⟩
      | some level => exact ih _ this readonly result _
  | setValidators validators next ih =>
      intro this readonly result c
      simp only [Makes, run]
      by_cases hrefused : readonly ∨ this ≠ lcl.validatorAddress
      · simp only [if_pos hrefused]
        exact ih _ this readonly result _
      · simp only [if_neg hrefused]
        cases c.topEnvironment with
        | none => exact ⟨False.elim, fun _ => contractExecuteFail_ne_success⟩
        | some level => exact ih _ this readonly result _
  | configFee prices next ih =>
      intro this readonly result c
      simp only [Makes, run]
      by_cases hrefused : readonly ∨ this ≠ lcl.feeAddress
      · simp only [if_pos hrefused]
        exact ih _ this readonly result _
      · simp only [if_neg hrefused]
        cases c.topEnvironment with
        | none => exact ⟨False.elim, fun _ => contractExecuteFail_ne_success⟩
        | some level => exact ih _ this readonly result _
  | transact body metadata inner next _ ih =>
      intro this readonly result c
      simp only [Makes, run]
      cases readonly with
      | true => exact ih _ this true result _
      | false =>
          refine ⟨fun _ => rfl, ?_⟩
          rintro (hresult | ⟨hfailed, rfl | hnext⟩)
          · exact (ih _ this false _ _).2 (.inl (resultAfter_ne_success (.inl hresult)))
          · exact (ih _ this false _ _).2 (.inl (resultAfter_ne_success (.inr hfailed)))
          · exact (ih _ this false _ _).2 (.inr ⟨hfailed, hnext⟩)
  | delegateCall address inner next _ ih =>
      intro this readonly result c
      simp only [Makes, run]
      cases readonly with
      | true => exact ih _ this true result _
      | false =>
          refine ⟨fun _ => rfl, ?_⟩
          cases c.topEnvironment with
          | none => exact fun _ => contractExecuteFail_ne_success
          | some level =>
              cases c.transactionStack.head? with
              | none => exact fun _ => contractExecuteFail_ne_success
              | some top =>
                  dsimp only
                  cases contractOf (c.getEntry lcl level address).1 with
                  | none => exact (ih _ this false result _).2
                  | some contract =>
                      rintro (hresult | ⟨hfailed, rfl | hnext⟩)
                      · exact (ih _ this false _ _).2 (.inl (resultAfter_ne_success (.inl hresult)))
                      · exact (ih _ this false _ _).2 (.inl (resultAfter_ne_success (.inr hfailed)))
                      · exact (ih _ this false _ _).2 (.inr ⟨hfailed, hnext⟩)
  | query delegate address inner next ihinner ih =>
      intro this readonly result c
      simp only [Makes, run]
      cases c.topEnvironment with
      | none => exact ⟨False.elim, fun _ => contractExecuteFail_ne_success⟩
      | some level =>
          cases c.transactionStack.head? with
          | none => exact ⟨False.elim, fun _ => contractExecuteFail_ne_success⟩
          | some top =>
              dsimp only
              cases contractOf (c.getEntry lcl level address).1 with
              | none => exact ih _ this readonly result _
              | some contract =>
                  -- the queried contract makes no call, as it is read only
                  have hinner : ∀ {queried c'},
        ¬ inner.Makes lib lcl call queried true .success c' :=
                    fun hmakes => Bool.noConfusion ((ihinner _ true _ _).1 hmakes)
                  exact ⟨fun hmakes => (ih _ this readonly result _).1 (hmakes.resolve_left hinner),
                    fun hor => (ih _ this readonly result _).2
                      (hor.imp_right (And.imp_right (·.resolve_left hinner)))⟩

/-- **The result of a contract is sticky.**  Once it holds a failure the contract ends
with a failure, whatever it does. -/
theorem Program.code_run_ne_success {result : ErrCode} (hresult : result ≠ .success)
    (program : Program) (this : Address) (readonly : Bool) (c : LedgerContext) :
    (program.run lib lcl this readonly result c).1.code ≠ .success :=
  (@code_run lib lcl (.execute 0 this program c) program this readonly result c).2 (.inl hresult)

/-- A transaction of the block that runs a contract that fails, fails. -/
theorem TransactionFrm.failed_of_runs {execute : ℕ → Execution} {env : TransactionEnv}
    {level i : ℕ} {boolContract : Bool} {callee : Address} {c' : LedgerContext}
    (hfailed : Failed (execute i callee c')) {operations : List Operation} :
    ∀ {index : ℕ} {c : LedgerContext},
      TransactionFrm.Runs lib lcl execute env level boolContract i callee c' index operations c →
      Failed (TransactionFrm.applyOperations lib lcl execute env level boolContract index
        operations c) := by
  induction operations with
  | nil => exact False.elim
  | cons ope operations ih =>
      intro index c hruns
      rw [TransactionFrm.Runs] at hruns
      split at hruns
      case h_1 c₁ hchecked =>
        rw [TransactionFrm.applyOperations, hchecked]
        dsimp only
        rcases hruns with ⟨rfl, hreaches⟩ | hlater
        · have happly : Failed (OperationFrm.apply lib lcl (execute i) env i level ope c₁) :=
            (OperationFrm.passesOn_apply lib lcl level c₁ env i ope).bad_of_reaches hreaches
              hfailed
          split
          case h_1 heq =>
            rw [heq] at happly
            exact absurd rfl happly
          case h_2 => exact happly
        · split at hlater
          case h_1 c₂ happly =>
            have hrest := ih hlater
            simpa only [happly] using hrest
          case h_2 => exact hlater.elim
      case h_2 => exact hruns.elim

/-- **One edge of the tree.**  A failed call fails the call that made it. -/
theorem Call.Child.code_ne_success {parent child : Call} (hchild : Child lib lcl parent child)
    (hfailed : child.code lib lcl ≠ .success) : parent.code lib lcl ≠ .success := by
  cases hchild with
  | @operation rt env c c₁ c' index callee hfee hruns =>
      show (TransactionFrm.apply ..).1 ≠ _
      unfold TransactionFrm.apply
      rw [hfee]
      have hcallee : Failed ((rt.program env c index).execution lib lcl callee c') := hfailed
      exact TransactionFrm.failed_of_runs hcallee hruns
  | @host this program c _ hdepth hmakes =>
      have hrun := (program.code_run this false .success _).2 (.inr ⟨hfailed, hmakes⟩)
      show (ContractManager.execute ..).1 ≠ _
      unfold ContractManager.execute
      rw [hdepth]
      exact hrun
  | @contract this callee body metadata inner c c' hreaches =>
      have hcallee : Failed (inner.execution lib lcl callee c') := hfailed
      exact (LedgerManager.passesOn_doTransaction lib lcl
        (Program.hostTransaction this body metadata) _ rfl c).bad_of_reaches hreaches hcallee

/-- A failed call fails every call it lies below. -/
theorem Call.Below.code_ne_success {outer inner : Call} (hbelow : Below lib lcl outer inner)
    (hfailed : inner.code lib lcl ≠ .success) : outer.code lib lcl ≠ .success := by
  induction hbelow using Relation.ReflTransGen.head_induction_on with
  | refl => exact hfailed
  | head hchild _ ih => exact hchild.code_ne_success ih

/-- What the contract of the first operation does lies below the transaction. -/
theorem Call.below_of_operation {rt : Runtime} {env : TransactionEnv}
    {c ready checked c' : LedgerContext} {ope : Operation} {operations : List Operation}
    {callee : Address} (hope : env.transaction.operations = ope :: operations)
    (hfee : (c.setTopEnvironment 0).addActualFee lib env = (.success, ready))
    (hchecked : OperationFrm.checkSignature lib lcl env 0 ope ready = (.success, checked))
    (hreaches : Reaches (fun execute => OperationFrm.apply lib lcl execute env 0 0 ope checked)
      callee c')
    (hdepth : ContractManager.tooDeep lcl c' = false)
    (hmakes : (rt.program env c 0).Makes lib lcl call callee false .success
      (c'.mark (.executed callee))) : Below lib lcl (.apply rt env c) call := by
  refine .head (.operation hfee ?_) (.single (.host hdepth hmakes))
  rw [hope, TransactionFrm.Runs, if_neg Bool.false_ne_true, hchecked]
  exact .inl ⟨rfl, hreaches⟩

end Failures

/-! ## The transaction of the block -/

namespace LedgerFrm

variable {lib : Library} {lcl : Closed} {rt : Runtime} {env : TransactionEnv} {c : LedgerContext}

/-- The root of the block has its buffer and its data. -/
structure Rooted (c : LedgerContext) : Prop where
  accounts : 2 ≤ c.environment.accounts.length
  settings : 2 ≤ c.environment.settings.length

theorem rooted_charge (hrooted : Rooted c) (env : TransactionEnv) :
    Rooted (charge lcl env c) := by
  refine ⟨?_, wide_charge hrooted.settings env⟩
  have hkeeps := (TransactionFrm.within_nonceIncrease (Nat.zero_le 0) lcl env
    (c.push { env := env })).accounts
  show 2 ≤ (commitOn 0 _).length
  rw [commitOn, length_onFrame]
  exact LedgerContext.length_tables (hkeeps.lowest hrooted.accounts).1 0

/-- A transaction that does not succeed leaves its charge. -/
theorem environment_settle_none (hrooted : Rooted c) (lib : Library) (rt : Runtime)
    (env : TransactionEnv) (size : ℕ) :
    (settle lcl env size none (execute lib lcl rt env (charge lcl env c)).2).environment =
      ((charge lcl env c).clearChangeBuf 0).environment :=
  (beneath_execute_charge lib rt env c).clearChangeBuf_eq
    (rooted_charge hrooted env).accounts (rooted_charge hrooted env).settings

/-- **A failed nested call fails the whole transaction.**  When some call below a
transaction of the block returns a failure, whatever the contracts catch, every call
around it returns a failure, and of the transaction nothing is committed but its
charge, by a proposer or checker as well as by a follower. -/
theorem failed_call_fails_transaction {call : Call} (hrooted : Rooted c)
    (hbelow : Call.Below lib lcl (.apply rt env (charge lcl env c)) call)
    (hfailed : call.code lib lcl ≠ .success) :
    (∀ enclosing, Call.Below lib lcl (.apply rt env (charge lcl env c)) enclosing →
        Call.Below lib lcl enclosing call → enclosing.code lib lcl ≠ .success) ∧
      ((applyCharged lib lcl rt env c).1 ≠ .succeeded ∧
        (applyCharged lib lcl rt env c).2.environment =
          ((charge lcl env c).clearChangeBuf 0).environment) ∧
      ((followCharged lib lcl rt false env c).1 ≠ .succeeded ∧
        (followCharged lib lcl rt false env c).2.environment =
          ((charge lcl env c).clearChangeBuf 0).environment) := by
  have hcode : (execute lib lcl rt env (charge lcl env c)).1 ≠ .success :=
    hbelow.code_ne_success hfailed
  have hsettle := @environment_settle_none lcl c hrooted lib rt env c.transactionStack.length
  refine ⟨fun enclosing _ hinner => hinner.code_ne_success hfailed, ?_, ?_⟩
  · dsimp only [applyCharged]
    split
    · exact ⟨nofun, hsettle⟩
    · exact ⟨nofun, hsettle⟩
  · dsimp only [followCharged]
    rw [if_neg Bool.false_ne_true, if_pos hcode]
    exact ⟨nofun, hsettle⟩

/-! ## A contract that catches -/

/-- Pay more than there is. -/
def overpay : OperationBody :=
  .payCoin { destAddress := payerAddress, amount := 1000 }

/-- The contract overpays and returns as if nothing had happened. -/
def catching : Runtime where
  program _ _ _ := .transact overpay [] (.finish .returned) fun _ => .finish .returned
  isExpire _ _ := false
  caughtExpiry _ _ := false
  enabled _ := true
  timedOut _ := false

/-- The payment that calls the contract, after its charge. -/
def caught : Call :=
  let env := payment callerAddress calleeAddress 0 1
  .apply catching env (charge sampleClosed env {})

/-- Answers with a success exactly when the contract at the callee would overpay. -/
def overpays : Execution := fun callee c =>
  if callee = calleeAddress ∧ ContractManager.tooDeep sampleClosed c = false ∧
      Call.code sampleLibrary sampleClosed (.doTransaction callee overpay [] (.finish .returned)
        (c.mark (.executed callee))) ≠ .success then (.success, c)
  else (.contractExecuteFail, c)

/-- Below the payment the contract overpays. -/
theorem exists_below_caught : ∃ c, Call.Below sampleLibrary sampleClosed caught
      (.doTransaction calleeAddress overpay [] (.finish .returned) c) ∧
    Call.code sampleLibrary sampleClosed
      (.doTransaction calleeAddress overpay [] (.finish .returned) c) ≠ .success := by
  let env := payment callerAddress calleeAddress 0 1
  let charged := charge sampleClosed env {}
  let ope : Operation := { body := .payCoin { destAddress := calleeAddress, amount := 0 } }
  let ready := ((charged.setTopEnvironment 0).addActualFee sampleLibrary env).2
  let checked := (OperationFrm.checkSignature sampleLibrary sampleClosed env 0 ope ready).2
  let operation : Execution → ErrCode × LedgerContext := fun execute =>
    OperationFrm.apply sampleLibrary sampleClosed execute env 0 0 ope checked
  have hpasses : PassesOn Failed Failed operation :=
    OperationFrm.passesOn_apply sampleLibrary sampleClosed 0 checked env 0 ope
  have hanswer : (operation overpays).1 = .success := by decide +kernel
  have hrefuse : (operation fun _ c => (.contractExecuteFail, c)).1 ≠ .success := by
    decide +kernel
  have hne : operation overpays ≠ operation fun _ c => (.contractExecuteFail, c) :=
    fun heq => hrefuse (heq ▸ hanswer)
  obtain ⟨callee, c', hreaches⟩ := hpasses.exists_reaches hne
  -- the operation succeeds with `overpays`, so it asks where the contract overpays
  have hgood : ¬ Failed (overpays callee c') := fun hbad =>
    hpasses.bad_of_reaches hreaches hbad hanswer
  unfold overpays at hgood
  split at hgood
  case isFalse => exact absurd (by exact nofun) hgood
  case isTrue hcallee =>
    obtain ⟨rfl, hdepth, hcode⟩ := hcallee
    refine ⟨c'.mark (.executed calleeAddress), ?_, hcode⟩
    have hfee : (charged.setTopEnvironment 0).addActualFee sampleLibrary env =
        (.success, ready) := eq_of_not_failed (by decide +kernel)
    have hchecked : OperationFrm.checkSignature sampleLibrary sampleClosed env 0 ope ready =
        (.success, checked) := eq_of_not_failed (by decide +kernel)
    have hhost : (catching.program env charged 0).Makes sampleLibrary sampleClosed
        (.doTransaction calleeAddress overpay [] (.finish .returned)
          (c'.mark (.executed calleeAddress)))
        calleeAddress false .success (c'.mark (.executed calleeAddress)) := .inl rfl
    exact Call.below_of_operation rfl hfee hchecked hreaches hdepth hhost

theorem failed_call_fails_transaction_caught :
    (∃ c, Call.Below sampleLibrary sampleClosed caught
        (.doTransaction calleeAddress overpay [] (.finish .returned) c) ∧
      Call.code sampleLibrary sampleClosed
        (.doTransaction calleeAddress overpay [] (.finish .returned) c) ≠ .success) ∧
      (applyCharged sampleLibrary sampleClosed catching
        (payment callerAddress calleeAddress 0 1) {}).1 ≠ .succeeded := by
  refine ⟨exists_below_caught, ?_⟩
  obtain ⟨c, hbelow, hfailed⟩ := exists_below_caught
  exact (failed_call_fails_transaction ⟨by decide, by decide⟩ hbelow hfailed).2.1.1

end LedgerFrm

end CegChain
