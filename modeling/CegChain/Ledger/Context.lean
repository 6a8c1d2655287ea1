import CegChain.Ledger.Environment
import CegChain.Ledger.Transaction

/-!
# The state of a block in execution

A `LedgerContext` is what the execution of a block works on: the root
`Environment` of the block with the frames built on it, the stack of
transactions in execution, the fees collected so far.

An environment is addressed by its `level`, 0 for the root of the block.  The
code never goes back to a frame once it has used an environment below it, so an
operation on a level drops the frames above it (`EnvStack.enter`) and every
operation acts on the innermost frame.

The `journal` is not in the code.  It records the reads of accounts with the
tables they were made on, the contracts executed, and the states committed to the
root, so that what happened in a block can be stated.
-/

namespace CegChain

open Layers AtomMap

/-- The values of `settings_`. -/
inductive Setting where
  | validators (members : List (Address × ℤ))
  | fees (prices : List (ℤ × ℤ))
  deriving DecidableEq

/-- The loop of `UpdateFeeConfig`: the new prices replace those of the same type. -/
def Setting.mergeFees : Setting → Setting → Setting
  | fees olds, fees news => fees (news ++ olds.filter fun old => old.1 ∉ news.map Prod.fst)
  | old, _ => old

/-- A `TransactionFrm` on `transaction_stack_`. -/
structure StackTx where
  env : TransactionEnv
  /-- `actual_gas_`. -/
  actualGas : Int64 := 0
  /-- `environment_`, a null pointer until `Apply`. -/
  environment : Option ℕ := none
  deriving DecidableEq

/-- An entry of the journal. -/
inductive Mark where
  /-- A `GetEntry` and the tables of the frames it was made on. -/
  | read (tables : List (Map Address AccountFrm)) (address : Address)
  /-- The code of the contract at this address is run. -/
  | executed (address : Address)
  /-- The root was committed and this is its data. -/
  | committed (data : Map Address AccountFrm)
  /-- The fee of this transaction was charged and committed. -/
  | charged (env : TransactionEnv) (data : Map Address AccountFrm)
  deriving DecidableEq

/-- The state of a block in execution. -/
structure LedgerContext where
  /-- `environment_` of the `LedgerFrm` with the frames built on it. -/
  environment : EnvStack Address AccountFrm Setting := EnvStack.root
  /-- `transaction_stack_`, the back of the deque first. -/
  transactionStack : List StackTx := []
  /-- `total_fee_`. -/
  totalFee : Int64 := 0
  /-- The process died of a null pointer. -/
  crashed : Bool := false
  /-- What happened so far, the latest first. -/
  journal : List Mark := []
  /-- How often `DoTransaction` has returned without taking its transaction off the stack.  This
  is not in the code. -/
  kept : ℕ := 0

namespace EnvStack

variable {K A J : Type*}

/-- The stack up to the environment of the given level. -/
def enter (level : ℕ) (env : EnvStack K A J) : EnvStack K A J :=
  ⟨env.accounts.drop (env.accounts.length - (level + 2)),
    env.settings.drop (env.settings.length - (level + 2))⟩

/-- A write through a pointer into the buffer of the innermost frame. -/
def writeEntry [DecidableEq K] (key : K) (f : A → A) (env : EnvStack K A J) : EnvStack K A J :=
  { env with accounts :=
      (onFrame (fun buff data => ((), AtomMap.modify buff key f, data)) 0 env.accounts).2 }

end EnvStack

namespace LedgerContext

variable (lib : Library) (lcl : Closed)

/-- `GetData()` of the root. -/
def data (c : LedgerContext) : Map Address AccountFrm :=
  c.environment.accounts.getLast?.getD ∅

/-- Write a line of the journal. -/
def mark (entry : Mark) (c : LedgerContext) : LedgerContext :=
  { c with journal := entry :: c.journal }

/-- `GetEntry` on an environment. -/
def getEntry (level : ℕ) (address : Address) (c : LedgerContext) :
    Option AccountFrm × LedgerContext :=
  let environment := c.environment.enter level
  let r := environment.getEntry lcl.accountFromDB 0 address
  (r.1, { c with
    environment := r.2
    journal := .read environment.accounts address :: c.journal })

/-- What a pointer from `GetEntry` points to now. -/
def deref (level : ℕ) (address : Address) (c : LedgerContext) : Option AccountFrm :=
  match (c.environment.enter level).accounts with
  | buff :: _ => (buff.lookup address).bind Record.value?
  | [] => none

/-- A write through a pointer from `GetEntry`. -/
def modifyEntry (level : ℕ) (address : Address) (f : AccountFrm → AccountFrm)
    (c : LedgerContext) : LedgerContext :=
  { c with environment := (c.environment.enter level).writeEntry address f }

/-- `AddEntry` on an environment. -/
def addEntry (level : ℕ) (address : Address) (frm : AccountFrm) (c : LedgerContext) :
    LedgerContext :=
  { c with environment := (c.environment.enter level).addEntry 0 address frm }

/-- `Commit` of an environment. -/
def commit (level : ℕ) (c : LedgerContext) : LedgerContext :=
  let c := { c with environment := (c.environment.enter level).commit 0 }
  if level = 0 then c.mark (.committed c.data) else c

/-- `ClearChangeBuf` of an environment. -/
def clearChangeBuf (level : ℕ) (c : LedgerContext) : LedgerContext :=
  { c with environment := (c.environment.enter level).clearChangeBuf 0 }

/-- `NewStackFrameEnv` of an environment; the new one is a level higher. -/
def newStackFrameEnv (level : ℕ) (c : LedgerContext) : LedgerContext :=
  { c with environment := (c.environment.enter level).newStackFrameEnv }

/-- `GetValidators` of an environment. -/
def getValidators (level : ℕ) (c : LedgerContext) : Setting × LedgerContext :=
  let r := (c.environment.enter level).getValidators (.validators lcl.validators) 0
  (r.1, { c with environment := r.2 })

/-- `UpdateNewValidators` of an environment. -/
def updateNewValidators (level : ℕ) (validators : Setting) (c : LedgerContext) : LedgerContext :=
  { c with environment := (c.environment.enter level).updateNewValidators 0 validators }

/-- `UpdateFeeConfig` of an environment. -/
def updateFeeConfig (level : ℕ) (fees : Setting) (c : LedgerContext) : LedgerContext :=
  { c with environment := (c.environment.enter level).updateFeeConfig Setting.mergeFees 0 fees }

/-- The process dies. -/
def crash (c : LedgerContext) : LedgerContext :=
  { c with crashed := true }

/-! ## The stack of transactions -/

/-- `transaction_stack_.push_back`. -/
def push (tx : StackTx) (c : LedgerContext) : LedgerContext :=
  { c with transactionStack := tx :: c.transactionStack }

/-- `transaction_stack_.pop_back`. -/
def pop (c : LedgerContext) : LedgerContext :=
  { c with transactionStack := c.transactionStack.tail }

/-- The transaction on top stays on the stack. -/
def keep (c : LedgerContext) : LedgerContext :=
  { c with kept := c.kept + 1 }

/-- `GetTopTx()->environment_`. -/
def topEnvironment (c : LedgerContext) : Option ℕ :=
  c.transactionStack.head?.bind StackTx.environment

/-- `environment_ = parent` in the transaction that was pushed last. -/
def setTopEnvironment (level : ℕ) (c : LedgerContext) : LedgerContext :=
  { c with
    transactionStack := c.transactionStack.modifyHead ({ · with environment := some level }) }

/-- `GetBottomTx()->AddActualGas`. -/
def addActualGas (gas : Int64) (c : LedgerContext) : LedgerContext :=
  { c with transactionStack :=
      (c.transactionStack.reverse.modifyHead fun tx =>
        { tx with actualGas := tx.actualGas + gas }).reverse }

/-- `TransactionFrm::AddActualFee` of the transaction at the bottom of the stack. -/
def addActualFee (env : TransactionEnv) (c : LedgerContext) : ErrCode × LedgerContext :=
  let c := c.addActualGas (TransactionFrm.getSelfGas lib env)
  match c.transactionStack.getLast? with
  | none => (.success, c.crash)
  | some bottom =>
      match safeIntMul bottom.actualGas bottom.env.transaction.gasPrice with
      | none => (.mathOverflow, c)
      | some actualFee =>
          if actualFee > bottom.env.transaction.feeLimit then (.feeNotEnough, c)
          else (.success, c)

end LedgerContext

end CegChain
