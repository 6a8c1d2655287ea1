import CegChain.Ledger.Operation

/-!
# Contracts

The code of a contract runs in V8 and reaches the ledger through the callbacks of
`contract/v8_contract_read.cpp` and `contract/v8_contract_write.cpp`.  A contract
is therefore seen here as the tree of host calls it makes (`Program`): each call
is followed by what the contract does with the answer.  The program of a contract
that a call reaches in its turn is part of the tree, so a `Program` is everything
that happens below one `ContractManager::Execute`; any tree may occur.

`Program.run` gives each call its effect.  A call that writes builds a transaction
of the contract and hands it to `LedgerManager::DoTransaction`, which runs it on a
frame of its own.
-/

namespace CegChain

/-- How `V8Contract::ExecuteCode` comes to its end: the function returned or
threw, it does not exist, the script threw before it was called, or did not
compile. -/
inductive Ending where
  | returned
  | threw
  | lost
  | scriptThrew
  | notCompiled
  deriving DecidableEq, Repr

/-- The code that `ExecuteCode` leaves in `result_`, which a failed host call may
have set before. -/
def Ending.code (version : ℕ) (result : ErrCode) : Ending → ErrCode
  | returned => result
  | threw => if result = .success then .contractExecuteFail else result
  | lost => .contractExecuteFail
  | scriptThrew =>
      if version > 1001 ∧ result = .success then .contractExecuteFail else result
  | notCompiled => if version > 1001 then .contractExecuteFail else result

/-- The host calls of a contract and what it does after each of them. -/
inductive Program where
  | finish (ending : Ending)
  /-- `getBalance`, `getAccountAsset`, `getAccountMetadata`, `getContractProperty`
  or `storageLoad`: a look at an account. -/
  | getEntry (address : Address) (next : Option AccountFrm → Program)
  | getValidators (next : Setting → Program)
  | setValidators (validators : List (Address × ℤ)) (next : Bool → Program)
  | configFee (prices : List (ℤ × ℤ)) (next : Bool → Program)
  /-- `payCoin`, `payAsset`, `issueAsset`, `contractCall`, `contractCreate`,
  `storageStore`, `storageDel` or `tlog`: a transaction with one operation, whose
  metadata is the remark of a payment.  `inner` is the program of the contract that
  the operation reaches, if it does. -/
  | transact (body : OperationBody) (metadata : Bytes) (inner : Program)
      (next : Option ErrCode → Program)
  | delegateCall (address : Address) (inner : Program) (next : Option ErrCode → Program)
  /-- `contractQuery` or `delegateQuery`. -/
  | query (delegate : Bool) (address : Address) (inner : Program) (next : Bool → Program)

/-- What is left of a contract that has run. -/
structure Outcome where
  ending : Ending
  code : ErrCode
  deriving DecidableEq

namespace LedgerManager

variable (lib : Library) (lcl : Closed)

/-- `LedgerManager::CheckContractDepthSafe`. -/
def checkContractDepthSafe (txSize : ℕ) : Bool :=
  lcl.version > 1001 || txSize < contractMaxRecursiveDepth

/-- The last part of `DoTransaction`: the frame is committed when the transaction
succeeded.  Up to version 1002 a transaction that stops the contract stays on the
stack. -/
def endTransaction (level : ℕ) (code : ErrCode) (c : LedgerContext) : ErrCode × LedgerContext :=
  if code = .feeNotEnough ∨ code = .contractTooManyTransactions then
    (code, if lcl.version > 1002 then c.pop else c.keep)
  else (code, (if code = .success then c.commit level else c).pop)

/-- `LedgerManager::DoTransaction`.  A null environment or a missing source
account is a null pointer here. -/
def doTransaction (execute : Execution) (transaction : Transaction) (c : LedgerContext) :
    ErrCode × LedgerContext :=
  match c.topEnvironment with
  | none => (.success, c.crash)
  | some level =>
      match c.getEntry lcl level transaction.sourceAddress with
      | (none, c) => (.success, c.crash)
      | (some account, c) =>
          let env : TransactionEnv :=
            { transaction := { transaction with nonce := account.nonce + 1 } }
          if checkContractDepthSafe lcl c.transactionStack.length = false then
            (.contractTooManyRecursion, c.addActualGas (TransactionFrm.getSelfGas lib env))
          else
            let c := TransactionFrm.nonceIncrease lcl env level (c.push { env := env })
            match TransactionFrm.validForParameter lib lcl env c.transactionStack.length with
            | .success =>
                let r := TransactionFrm.apply lib lcl (fun _ => execute) env (level + 1) true
                  (c.newStackFrameEnv level)
                endTransaction lcl (level + 1) r.1 r.2
            | code =>
                match c.addActualFee lib env with
                | (.success, c) => endTransaction lcl (level + 1) code c
                | (feeCode, c) => endTransaction lcl (level + 1) feeCode c

end LedgerManager

namespace ContractManager

variable (lcl : Closed)

/-- Whether `Execute` and `Query` refuse to go deeper. -/
def tooDeep (c : LedgerContext) : Bool :=
  decide (lcl.version > 1001) && decide (c.transactionStack.length > contractMaxRecursiveDepth)

/-- `ContractManager::Execute` of a contract that runs as `run`. -/
def execute (type : ℤ) (this : Address) (run : LedgerContext → Outcome × LedgerContext)
    (c : LedgerContext) : ErrCode × LedgerContext :=
  if tooDeep lcl c then (.contractTooManyRecursion, c)
  else if type ≠ 0 then (.contractExecuteFail, c)
  else
    let r := run (c.mark (.executed this))
    (r.1.code, r.2)

/-- `ContractManager::Query`. -/
def query (type : ℤ) (this : Address) (run : LedgerContext → Outcome × LedgerContext)
    (c : LedgerContext) : Bool × LedgerContext :=
  if tooDeep lcl c then (false, c)
  else if type ≠ 0 then (false, c)
  else
    let r := run (c.mark (.executed this))
    (decide (r.1.ending = .returned), r.2)

end ContractManager

namespace Program

variable (lib : Library) (lcl : Closed)

/-- The code of a contract that a failed call leaves behind. -/
def resultAfter (result code : ErrCode) : ErrCode :=
  if code = .success then result else code

/-- The account of a contract that `delegateCall` or a query asks for. -/
def contractOf (account : Option AccountFrm) : Option Contract :=
  account.bind fun account =>
    if account.contract.payload = [] then none else some account.contract

/-- Run the contract at `this`, whose result so far is `result`.  In a query the
calls that write are not available. -/
def run : Program → Address → Bool → ErrCode → LedgerContext → Outcome × LedgerContext
  | finish ending, _, _, result, c => (⟨ending, ending.code lcl.version result⟩, c)
  | getEntry address next, this, readonly, result, c =>
      match c.topEnvironment with
      | none => (⟨.threw, .contractExecuteFail⟩, c.crash)
      | some level =>
          let r := c.getEntry lcl level address
          (next r.1).run this readonly result r.2
  | getValidators next, this, readonly, result, c =>
      match c.topEnvironment with
      | none => (⟨.threw, .contractExecuteFail⟩, c.crash)
      | some level =>
          let r := c.getValidators lcl level
          (next r.1).run this readonly result r.2
  | setValidators validators next, this, readonly, result, c =>
      if readonly ∨ this ≠ lcl.validatorAddress then (next false).run this readonly result c
      else match c.topEnvironment with
      | none => (⟨.threw, .contractExecuteFail⟩, c.crash)
      | some level =>
          (next true).run this readonly result
            (c.updateNewValidators level (.validators validators))
  | configFee prices next, this, readonly, result, c =>
      if readonly ∨ this ≠ lcl.feeAddress then (next false).run this readonly result c
      else match c.topEnvironment with
      | none => (⟨.threw, .contractExecuteFail⟩, c.crash)
      | some level =>
          (next true).run this readonly result (c.updateFeeConfig level (.fees prices))
  | transact body metadata inner next, this, readonly, result, c =>
      if readonly then (next none).run this readonly result c
      else
        let transaction : Transaction :=
          { sourceAddress := this, operations := [{ body := body, metadata := metadata }] }
        let r := LedgerManager.doTransaction lib lcl
          (fun callee => ContractManager.execute lcl 0 callee (inner.run callee false .success))
          transaction c
        (next (some r.1)).run this readonly (resultAfter result r.1) r.2
  | delegateCall address inner next, this, readonly, result, c =>
      if readonly then (next none).run this readonly result c
      else match c.topEnvironment, c.transactionStack.head? with
      | some level, some top =>
          let r := c.getEntry lcl level address
          match contractOf r.1 with
          | none => (next none).run this readonly result r.2
          | some contract =>
              let r := ContractManager.execute lcl contract.type this
                (inner.run this false .success) (r.2.push top)
              (next (some r.1)).run this readonly (resultAfter result r.1) r.2.pop
      | _, _ => (⟨.threw, .contractExecuteFail⟩, c.crash)
  | query delegate address inner next, this, readonly, result, c =>
      match c.topEnvironment, c.transactionStack.head? with
      | some level, some top =>
          let r := c.getEntry lcl level address
          match contractOf r.1 with
          | none => (next false).run this readonly result r.2
          | some contract =>
              let queried := if delegate then this else address
              -- up to version 1001 `contractQuery` did not push
              let pushes := delegate || lcl.version > 1001
              let r := ContractManager.query lcl contract.type queried
                (inner.run queried true .success) (if pushes then r.2.push top else r.2)
              (next r.1).run this readonly result (if pushes then r.2.pop else r.2)
      | _, _ => (⟨.threw, .contractExecuteFail⟩, c.crash)

end Program

end CegChain
