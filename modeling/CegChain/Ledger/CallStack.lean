import CegChain.Ledger.CallTree

/-!
# The stack of transactions in execution

`DoTransaction`, `delegateCall`, `contractQuery` and `delegateQuery` push a transaction on
`transaction_stack_`, run what they run and pop it, at exits of their own; the depth of the
stack is tested in `Execute` and `Query`, which push nothing.  From ledger version 1003 on
each of the four gives the stack back as it found it (`Balanced`), whatever a contract
does.  So a body that a contract reaches stands exactly one transaction above the body that
reached it, and the test in `Execute` and `Query` bounds how deep bodies nest.

What a program does more than `CONTRACT_MAX_RECURSIVE_DEPTH` calls deep is never run: it
may be cut off (`Program.cut`).
-/

namespace CegChain

open Callback

/-! ## Gas at the bottom of the stack -/

namespace LedgerContext

variable {c d : LedgerContext}

theorem stack_addActualGas_congr (hstack : d.transactionStack = c.transactionStack)
    (gas : Int64) :
    (d.addActualGas gas).transactionStack = (c.addActualGas gas).transactionStack := by
  simp only [addActualGas, hstack]

theorem stack_addActualGas_zero (c : LedgerContext) :
    (c.addActualGas 0).transactionStack = c.transactionStack := by
  have hsame : (fun tx : StackTx => { tx with actualGas := tx.actualGas + 0 }) = id := by
    funext tx
    simp only [Int64.add_zero, id_eq]
  simp only [addActualGas, hsame, List.modifyHead_id, id_eq, List.reverse_reverse]

theorem stack_addActualGas_add (c : LedgerContext) (gas gas' : Int64) :
    ((c.addActualGas gas).addActualGas gas').transactionStack =
      (c.addActualGas (gas + gas')).transactionStack := by
  simp only [addActualGas, List.reverse_reverse, List.modifyHead_modifyHead,
    Function.comp_def, Int64.add_assoc]

theorem length_stack_addActualGas (gas : Int64) (c : LedgerContext) :
    (c.addActualGas gas).transactionStack.length = c.transactionStack.length := by
  simp only [addActualGas, List.length_reverse, List.length_modifyHead]

/-- A transaction on top hides the bottom only when it is the bottom. -/
theorem tail_stack_addActualGas {tx : StackTx}
    (hpushed : d.transactionStack = tx :: c.transactionStack) (gas : Int64) :
    (d.addActualGas gas).transactionStack.tail = (c.addActualGas gas).transactionStack := by
  simp only [addActualGas, hpushed, List.reverse_cons]
  cases c.transactionStack.reverse with
  | nil => rfl
  | cons bottom rest => simp

end LedgerContext

/-! ## What a call leaves on the stack -/

/-- The stack holds the transactions that it held before, in their order and with their
environments; what has run since has charged its gas to the one at the bottom. -/
structure Balanced (c c' : LedgerContext) : Prop where
  stack : ∃ gas, c'.transactionStack = (c.addActualGas gas).transactionStack

namespace Balanced

variable {c c' c'' d d' : LedgerContext}

theorem of_eq (hstack : c'.transactionStack = c.transactionStack) : Balanced c c' :=
  ⟨0, hstack.trans (LedgerContext.stack_addActualGas_zero c).symm⟩

theorem refl (c : LedgerContext) : Balanced c c :=
  of_eq rfl

theorem trans (h₁ : Balanced c c') (h₂ : Balanced c' c'') : Balanced c c'' := by
  obtain ⟨gas, hstack⟩ := h₁.stack
  obtain ⟨gas', hstack'⟩ := h₂.stack
  refine ⟨gas + gas', ?_⟩
  calc c''.transactionStack = (c'.addActualGas gas').transactionStack := hstack'
    _ = ((c.addActualGas gas).addActualGas gas').transactionStack :=
        LedgerContext.stack_addActualGas_congr hstack gas'
    _ = (c.addActualGas (gas + gas')).transactionStack :=
        LedgerContext.stack_addActualGas_add c gas gas'

theorem length_eq (hbalanced : Balanced c c') :
    c'.transactionStack.length = c.transactionStack.length := by
  obtain ⟨gas, hstack⟩ := hbalanced.stack
  rw [hstack, LedgerContext.length_stack_addActualGas]

/-- A push, a balanced call and a pop. -/
theorem of_tail {tx : StackTx} (hbalanced : Balanced d d')
    (hpushed : d.transactionStack = tx :: c.transactionStack)
    (hpopped : c'.transactionStack = d'.transactionStack.tail) : Balanced c c' := by
  obtain ⟨gas, hstack⟩ := hbalanced.stack
  refine ⟨gas, ?_⟩
  rw [hpopped, hstack]
  exact LedgerContext.tail_stack_addActualGas hpushed gas

end Balanced

theorem LedgerContext.balanced_addActualFee (lib : Library) (env : TransactionEnv)
    (c : LedgerContext) : Balanced c (c.addActualFee lib env).2 := by
  have hgas : Balanced c (c.addActualGas (TransactionFrm.getSelfGas lib env)) := ⟨_, rfl⟩
  dsimp only [addActualFee]
  split
  · exact hgas.trans (.of_eq rfl)
  · split
    · exact hgas
    · split
      · exact hgas
      · exact hgas

section Transactions

variable {lib : Library} {lcl : Closed} {execute execute' : Execution} {c : LedgerContext}

/-- Reading and writing accounts leaves the stack alone. -/
theorem entryLockstep_balanced (lcl : Closed) (c₀ : LedgerContext) :
    EntryLockstep lcl 0 fun c d => d = c ∧ Balanced c₀ c where
  getEntry := by
    rintro c _ ⟨rfl, hbalanced⟩ level _ address
    exact ⟨rfl, rfl, hbalanced.trans (.of_eq rfl)⟩
  deref := by
    rintro c _ ⟨rfl, -⟩ level address
    rfl
  modifyEntry := by
    rintro c _ ⟨rfl, hbalanced⟩ level _ address f
    exact ⟨rfl, hbalanced.trans (.of_eq rfl)⟩
  addEntry := by
    rintro c _ ⟨rfl, hbalanced⟩ level _ address frm
    exact ⟨rfl, hbalanced.trans (.of_eq rfl)⟩
  crash := by
    rintro c _ ⟨rfl, hbalanced⟩
    exact ⟨rfl, hbalanced.trans (.of_eq rfl)⟩

/-- Two ways to run contracts that agree, and are balanced, on stacks of this size. -/
def AgreeAt (size : ℕ) (execute execute' : Execution) : Prop :=
  ∀ this c, c.transactionStack.length = size →
    execute this c = execute' this c ∧ Balanced c (execute this c).2

/-- `Apply` runs contracts on the stack that it was called on. -/
theorem TransactionFrm.apply_eq_and_balanced
    (hexecute : AgreeAt c.transactionStack.length execute execute') (lib : Library)
    (lcl : Closed) (env : TransactionEnv) (level : ℕ) :
    apply lib lcl (fun _ => execute) env level true c =
        apply lib lcl (fun _ => execute') env level true c ∧
      Balanced (c.setTopEnvironment level)
        (apply lib lcl (fun _ => execute) env level true c).2 := by
  have hfee := LedgerContext.balanced_addActualFee lib env (c.setTopEnvironment level)
  dsimp only [apply]
  generalize (c.setTopEnvironment level).addActualFee lib env = charged at hfee ⊢
  obtain ⟨code, c₁⟩ := charged
  cases code with
  | success =>
      have hagree : Agree (fun c' d => d = c' ∧ Balanced (c.setTopEnvironment level) c')
          (applyOperations lib lcl (fun _ => execute) env level true 0
            env.transaction.operations c₁)
          (applyOperations lib lcl (fun _ => execute') env level true 0 env.transaction.operations
            c₁) := by
        refine agree_applyOperations ?_ (entryLockstep_balanced lcl (c.setTopEnvironment level))
          (Nat.zero_le level) ⟨rfl, hfee⟩ env true 0 env.transaction.operations
        rintro index this _ d ⟨rfl, hbalanced⟩
        have hsize : d.transactionStack.length = c.transactionStack.length := by
          rw [hbalanced.length_eq]
          exact List.length_modifyHead
        obtain ⟨heq, hdone⟩ := hexecute this d hsize
        rw [← heq]
        exact ⟨rfl, rfl, hbalanced.trans hdone⟩
      exact ⟨Prod.ext hagree.fst.symm hagree.snd.1.symm, hagree.snd.2⟩
  | _ => exact ⟨rfl, hfee⟩

namespace LedgerManager

theorem checkContractDepthSafe_eq_true (hversion : lcl.version > 1002) (txSize : ℕ) :
    checkContractDepthSafe lcl txSize = true := by
  have hlater : lcl.version > 1001 := by omega
  simp [checkContractDepthSafe, hlater]

/-- Whatever became of the transaction, it is taken off the stack. -/
theorem stack_endTransaction (hversion : lcl.version > 1002) (level : ℕ) (code : ErrCode)
    (c : LedgerContext) :
    (endTransaction lcl level code c).2.transactionStack = c.transactionStack.tail := by
  have hcommit : (c.commit level).transactionStack = c.transactionStack := by
    unfold LedgerContext.commit
    dsimp only
    split
    · rfl
    · rfl
  unfold endTransaction
  split
  · rfl
  · dsimp only [LedgerContext.pop]
    split
    · rw [hcommit]
    · rfl

/-- **One nested transaction.**  `DoTransaction` runs a contract one transaction above the
caller and gives the stack back as it found it. -/
theorem doTransaction_eq_and_balanced (hversion : lcl.version > 1002)
    (hexecute : AgreeAt (c.transactionStack.length + 1) execute execute') (lib : Library)
    (transaction : Transaction) :
    doTransaction lib lcl execute transaction c = doTransaction lib lcl execute' transaction c ∧
      Balanced c (doTransaction lib lcl execute transaction c).2 := by
  dsimp only [doTransaction]
  cases c.topEnvironment with
  | none => exact ⟨rfl, .of_eq rfl⟩
  | some level =>
      dsimp only
      have hread : (c.getEntry lcl level transaction.sourceAddress).2.transactionStack =
          c.transactionStack := rfl
      generalize c.getEntry lcl level transaction.sourceAddress = found at hread ⊢
      obtain ⟨_ | account, c₁⟩ := found
      · exact ⟨rfl, .of_eq hread⟩
      · dsimp only
        generalize ({ transaction := { transaction with nonce := account.nonce + 1 } } :
          TransactionEnv) = env
        have hsafe := checkContractDepthSafe_eq_true hversion c₁.transactionStack.length
        rw [if_neg (by rw [hsafe]; exact nofun), if_neg (by rw [hsafe]; exact nofun)]
        have hpushed : (TransactionFrm.nonceIncrease lcl env level
            (c₁.push { env := env })).transactionStack = { env := env } :: c.transactionStack := by
          rw [TransactionFrm.stack_nonceIncrease]
          exact congrArg (List.cons _) hread
        generalize TransactionFrm.nonceIncrease lcl env level (c₁.push { env := env }) = c₂
          at hpushed ⊢
        split
        · -- the contract is reached from the frame of the new transaction
          have hsize : (c₂.newStackFrameEnv level).transactionStack.length =
              c.transactionStack.length + 1 := congrArg List.length hpushed
          obtain ⟨heq, hbalanced⟩ := TransactionFrm.apply_eq_and_balanced (hsize.symm ▸ hexecute)
            lib lcl env (level + 1)
          rw [← heq]
          have hown : ((c₂.newStackFrameEnv level).setTopEnvironment
              (level + 1)).transactionStack =
                { env := env, environment := some (level + 1) } :: c.transactionStack :=
            congrArg (List.modifyHead _) hpushed
          exact ⟨rfl, hbalanced.of_tail hown (stack_endTransaction hversion ..)⟩
        · have hfee := LedgerContext.balanced_addActualFee lib env c₂
          generalize c₂.addActualFee lib env = charged at hfee ⊢
          obtain ⟨feeCode, c₃⟩ := charged
          cases feeCode with
          | success => exact ⟨rfl, hfee.of_tail hpushed (stack_endTransaction hversion ..)⟩
          | _ => exact ⟨rfl, hfee.of_tail hpushed (stack_endTransaction hversion ..)⟩

end LedgerManager

/-! ## Contracts -/

namespace ContractManager

variable {run run' : LedgerContext → Outcome × LedgerContext}

theorem balanced_execute (hrun : ∀ c, Balanced c (run c).2) (lcl : Closed) (type : ℤ)
    (this : Address) (c : LedgerContext) :
    Balanced c (ContractManager.execute lcl type this run c).2 := by
  have hmark : Balanced c (c.mark (.executed this)) := .of_eq rfl
  unfold ContractManager.execute
  split
  · exact .refl c
  · split
    · exact .refl c
    · exact hmark.trans (hrun _)

theorem balanced_query (hrun : ∀ c, Balanced c (run c).2) (lcl : Closed) (type : ℤ)
    (this : Address) (c : LedgerContext) : Balanced c (query lcl type this run c).2 := by
  have hmark : Balanced c (c.mark (.executed this)) := .of_eq rfl
  unfold query
  split
  · exact .refl c
  · split
    · exact .refl c
    · exact hmark.trans (hrun _)

/-- A contract that is called with a copy of the transaction on top of the stack. -/
theorem balanced_execute_pushed (hrun : ∀ c, Balanced c (run c).2) (lcl : Closed) (type : ℤ)
    (this : Address) (level : ℕ) (address : Address) (top : StackTx) (c : LedgerContext) :
    Balanced c (ContractManager.execute lcl type this run
      ((c.getEntry lcl level address).2.push top)).2.pop :=
  (balanced_execute hrun lcl type this _).of_tail rfl rfl

theorem balanced_query_pushed (hrun : ∀ c, Balanced c (run c).2) (lcl : Closed) (type : ℤ)
    (this : Address) (level : ℕ) (address : Address) (top : StackTx) (c : LedgerContext) :
    Balanced c (query lcl type this run ((c.getEntry lcl level address).2.push top)).2.pop :=
  (balanced_query hrun lcl type this _).of_tail rfl rfl

end ContractManager

/-- **The stack is balanced around any contract**, and so around each of its host calls. -/
theorem Program.balanced_run (hversion : lcl.version > 1002) (lib : Library)
    (program : Program) :
    ∀ (this : Address) (readonly : Bool) (result : ErrCode) (c : LedgerContext),
      Balanced c (program.run lib lcl this readonly result c).2 := by
  induction program with
  | finish ending => exact fun _ _ _ c => .refl c
  | getEntry address next ih =>
      intro this readonly result c
      unfold run
      split
      · exact .of_eq rfl
      · rename_i level _
        have hread : Balanced c (c.getEntry lcl level address).2 := .of_eq rfl
        exact hread.trans (ih _ this readonly result _)
  | getValidators next ih =>
      intro this readonly result c
      unfold run
      split
      · exact .of_eq rfl
      · rename_i level _
        have hread : Balanced c (c.getValidators lcl level).2 := .of_eq rfl
        exact hread.trans (ih _ this readonly result _)
  | setValidators validators next ih =>
      intro this readonly result c
      unfold run
      split
      · exact ih false this readonly result c
      · split
        · exact .of_eq rfl
        · rename_i level _
          have hset : Balanced c (c.updateNewValidators level (.validators validators)) :=
            .of_eq rfl
          exact hset.trans (ih true this readonly result _)
  | configFee prices next ih =>
      intro this readonly result c
      unfold run
      split
      · exact ih false this readonly result c
      · split
        · exact .of_eq rfl
        · rename_i level _
          have hset : Balanced c (c.updateFeeConfig level (.fees prices)) := .of_eq rfl
          exact hset.trans (ih true this readonly result _)
  | transact body metadata inner next ihinner ih =>
      intro this readonly result c
      unfold run
      dsimp only
      split
      · exact ih none this readonly result c
      · have hexecute : AgreeAt (c.transactionStack.length + 1) (inner.execution lib lcl)
            (inner.execution lib lcl) := fun callee c' _ =>
          ⟨rfl, ContractManager.balanced_execute (ihinner callee false .success) lcl 0 callee c'⟩
        have hnested := (LedgerManager.doTransaction_eq_and_balanced hversion hexecute lib
          (hostTransaction this body metadata)).2
        exact hnested.trans (ih _ this readonly _ _)
  | delegateCall address inner next ihinner ih =>
      intro this readonly result c
      unfold run
      dsimp only
      split
      · exact ih none this readonly result c
      · split
        · rename_i level top _ _
          have hread : Balanced c (c.getEntry lcl level address).2 := .of_eq rfl
          split
          · exact hread.trans (ih none this readonly result _)
          · rename_i contract _
            have hcall := ContractManager.balanced_execute_pushed
              (ihinner this false .success) lcl contract.type this level address top c
            exact hcall.trans (ih _ this readonly _ _)
        · exact .of_eq rfl
  | query delegate address inner next ihinner ih =>
      intro this readonly result c
      unfold run
      dsimp only
      split
      · rename_i level top _ _
        have hread : Balanced c (c.getEntry lcl level address).2 := .of_eq rfl
        split
        · exact hread.trans (ih false this readonly result _)
        · rename_i contract _
          have hlater : lcl.version > 1001 := by omega
          -- `contractQuery` pushes as `delegateQuery` does
          simp only [hlater, decide_true, Bool.or_true, if_true]
          generalize (if delegate = true then this else address) = queried
          have hcall := ContractManager.balanced_query_pushed
            (ihinner queried true .success) lcl contract.type queried level address top c
          exact hcall.trans (ih _ this readonly result _)
      · exact .of_eq rfl

theorem Program.agreeAt_execution (hversion : lcl.version > 1002) (lib : Library)
    (program : Program) (size : ℕ) :
    AgreeAt size (program.execution lib lcl) (program.execution lib lcl) :=
  fun this c _ => ⟨rfl, ContractManager.balanced_execute
    (program.balanced_run hversion lib this false .success) lcl 0 this c⟩

theorem Program.balanced_doTransaction (hversion : lcl.version > 1002) (lib : Library)
    (program : Program) (transaction : Transaction) (c : LedgerContext) :
    Balanced c (LedgerManager.doTransaction lib lcl (program.execution lib lcl) transaction c).2 :=
  (LedgerManager.doTransaction_eq_and_balanced hversion
    (program.agreeAt_execution hversion lib _) lib transaction).2

end Transactions

/-! ## Bodies -/

/-- A body of a contract in execution, with the state it starts from. -/
structure Body where
  program : Program
  this : Address
  readonly : Bool
  c : LedgerContext

/-- The transactions on the stack when the body is executed. -/
def Body.depth (body : Body) : ℕ :=
  body.c.transactionStack.length

section Bodies

variable (lib : Library) (lcl : Closed)

/-- `Execute` or `Query` of a contract, called on `c`, executes this body. -/
def ContractManager.Begins (type : ℤ) (this : Address) (program : Program) (readonly : Bool)
    (c : LedgerContext) (body : Body) : Prop :=
  tooDeep lcl c = false ∧ type = 0 ∧ body = ⟨program, this, readonly, c.mark (.executed this)⟩

/-- The run of a contract executes this body in one of its own host calls. -/
def Program.Starts (body : Body) : Program → Address → Bool → ErrCode → LedgerContext → Prop
  | finish _, _, _, _, _ => False
  | getEntry address next, this, readonly, result, c =>
      match c.topEnvironment with
      | none => False
      | some level =>
          let r := c.getEntry lcl level address
          (next r.1).Starts body this readonly result r.2
  | getValidators next, this, readonly, result, c =>
      match c.topEnvironment with
      | none => False
      | some level =>
          let r := c.getValidators lcl level
          (next r.1).Starts body this readonly result r.2
  | setValidators validators next, this, readonly, result, c =>
      if readonly ∨ this ≠ lcl.validatorAddress then (next false).Starts body this readonly result c
      else match c.topEnvironment with
      | none => False
      | some level => (next true).Starts body this readonly result
          (c.updateNewValidators level (.validators validators))
  | configFee prices next, this, readonly, result, c =>
      if readonly ∨ this ≠ lcl.feeAddress then (next false).Starts body this readonly result c
      else match c.topEnvironment with
      | none => False
      | some level =>
          (next true).Starts body this readonly result (c.updateFeeConfig level (.fees prices))
  | transact body' metadata inner next, this, readonly, result, c =>
      if readonly then (next none).Starts body this readonly result c
      else
        let r := LedgerManager.doTransaction lib lcl (inner.execution lib lcl)
          (hostTransaction this body' metadata) c
        (∃ callee c', Reaches (fun execute => LedgerManager.doTransaction lib lcl execute
            (hostTransaction this body' metadata) c) callee c' ∧
          ContractManager.Begins lcl 0 callee inner false c' body) ∨
          (next (some r.1)).Starts body this readonly (resultAfter result r.1) r.2
  | delegateCall address inner next, this, readonly, result, c =>
      if readonly then (next none).Starts body this readonly result c
      else match c.topEnvironment, c.transactionStack.head? with
      | some level, some top =>
          let r := c.getEntry lcl level address
          match contractOf r.1 with
          | none => (next none).Starts body this readonly result r.2
          | some contract =>
              let delegated := r.2.push top
              let r := ContractManager.execute lcl contract.type this
                (inner.run lib lcl this false .success) delegated
              ContractManager.Begins lcl contract.type this inner false delegated body ∨
                (next (some r.1)).Starts body this readonly (resultAfter result r.1) r.2.pop
      | _, _ => False
  | query delegate address inner next, this, readonly, result, c =>
      match c.topEnvironment, c.transactionStack.head? with
      | some level, some top =>
          let r := c.getEntry lcl level address
          match contractOf r.1 with
          | none => (next false).Starts body this readonly result r.2
          | some contract =>
              let queried := if delegate then this else address
              let pushes := delegate || lcl.version > 1001
              let asked := if pushes then r.2.push top else r.2
              let r := ContractManager.query lcl contract.type queried
                (inner.run lib lcl queried true .success) asked
              ContractManager.Begins lcl contract.type queried inner true asked body ∨
                (next r.1).Starts body this readonly result (if pushes then r.2.pop else r.2)
      | _, _ => False

/-- The second body is `n` calls below the first. -/
inductive Body.Under : ℕ → Body → Body → Prop where
  | refl (body : Body) : Under 0 body body
  | starts {n : ℕ} {outer body inner : Body} (hunder : Under n outer body)
      (hstarts : body.program.Starts lib lcl inner body.this body.readonly .success body.c) :
      Under (n + 1) outer inner

/-- `stub` when no call is left, else what is there for one call less. -/
def Program.nested (stub : Program) (inner : ℕ → Program) : ℕ → Program
  | 0 => stub
  | n + 1 => inner n

/-- The program with `stub` for every body that lies more than `n` calls deep. -/
def Program.cut : Program → ℕ → Program → Program
  | finish ending, _, _ => finish ending
  | getEntry address next, n, stub => getEntry address fun account => (next account).cut n stub
  | getValidators next, n, stub => getValidators fun setting => (next setting).cut n stub
  | setValidators validators next, n, stub =>
      setValidators validators fun done => (next done).cut n stub
  | configFee prices next, n, stub => configFee prices fun done => (next done).cut n stub
  | transact body metadata inner next, n, stub =>
      transact body metadata (nested stub (fun n => inner.cut n stub) n)
        fun code => (next code).cut n stub
  | delegateCall address inner next, n, stub =>
      delegateCall address (nested stub (fun n => inner.cut n stub) n)
        fun code => (next code).cut n stub
  | query delegate address inner next, n, stub =>
      query delegate address (nested stub (fun n => inner.cut n stub) n)
        fun done => (next done).cut n stub

end Bodies

section Depth

variable {lib : Library} {lcl : Closed} {body : Body}

namespace ContractManager

variable {type : ℤ} {this : Address} {program : Program} {readonly : Bool} {c : LedgerContext}
  {run run' : LedgerContext → Outcome × LedgerContext}

/-- The test on the depth comes before the body. -/
theorem Begins.depth_le (hversion : lcl.version > 1002)
    (hbegins : Begins lcl type this program readonly c body) :
    body.depth = c.transactionStack.length ∧ body.depth ≤ contractMaxRecursiveDepth := by
  obtain ⟨hdeep, -, rfl⟩ := hbegins
  have hlater : lcl.version > 1001 := by omega
  have hle : c.transactionStack.length ≤ contractMaxRecursiveDepth := by
    simpa [tooDeep, hlater] using hdeep
  exact ⟨rfl, hle⟩

/-- `Execute` depends on the contract by the body it executes and nothing else. -/
theorem execute_congr (program : Program) (readonly : Bool)
    (hrun : ∀ body, Begins lcl type this program readonly c body → run body.c = run' body.c) :
    execute lcl type this run c = execute lcl type this run' c := by
  unfold execute
  split
  · rfl
  · rename_i hdeep
    split
    · rfl
    · rename_i htype
      rw [hrun _ ⟨Bool.eq_false_iff.mpr hdeep, not_not.mp htype, rfl⟩]

theorem query_congr (program : Program) (readonly : Bool)
    (hrun : ∀ body, Begins lcl type this program readonly c body → run body.c = run' body.c) :
    query lcl type this run c = query lcl type this run' c := by
  unfold query
  split
  · rfl
  · rename_i hdeep
    split
    · rfl
    · rename_i htype
      rw [hrun _ ⟨Bool.eq_false_iff.mpr hdeep, not_not.mp htype, rfl⟩]

end ContractManager

/-- The contract that an operation reaches runs one transaction above its caller. -/
theorem LedgerManager.length_of_reaches (hversion : lcl.version > 1002) {c c' : LedgerContext}
    {transaction : Transaction} {callee : Address}
    (hreaches : Reaches (fun execute => doTransaction lib lcl execute transaction c) callee c') :
    c'.transactionStack.length = c.transactionStack.length + 1 := by
  apply hreaches.holds (P := fun _ d => d.transactionStack.length = c.transactionStack.length + 1)
    fun _ d => (.success, d)
  intro execute execute' hanswer
  have hagree : AgreeAt (c.transactionStack.length + 1) execute execute' := by
    intro this d hsize
    obtain ⟨hexecute, hexecute'⟩ := hanswer this d hsize
    rw [hexecute, hexecute']
    exact ⟨rfl, .refl d⟩
  exact (doTransaction_eq_and_balanced hversion hagree lib transaction).1

/-- **One call deeper.**  A body that a contract starts stands one transaction above it,
and not too high. -/
theorem Program.depth_of_starts (hversion : lcl.version > 1002) {size : ℕ}
    (program : Program) :
    ∀ (this : Address) (readonly : Bool) (result : ErrCode) (c : LedgerContext),
      program.Starts lib lcl body this readonly result c → c.transactionStack.length = size →
        body.depth = size + 1 ∧ body.depth ≤ contractMaxRecursiveDepth := by
  induction program with
  | finish ending => exact fun _ _ _ _ hstarts _ => hstarts.elim
  | getEntry address next ih =>
      intro this readonly result c hstarts hsize
      rw [Starts] at hstarts
      split at hstarts
      · exact hstarts.elim
      · exact ih _ this readonly result _ hstarts hsize
  | getValidators next ih =>
      intro this readonly result c hstarts hsize
      rw [Starts] at hstarts
      split at hstarts
      · exact hstarts.elim
      · exact ih _ this readonly result _ hstarts hsize
  | setValidators validators next ih =>
      intro this readonly result c hstarts hsize
      rw [Starts] at hstarts
      split at hstarts
      · exact ih _ this readonly result _ hstarts hsize
      · split at hstarts
        · exact hstarts.elim
        · exact ih _ this readonly result _ hstarts hsize
  | configFee prices next ih =>
      intro this readonly result c hstarts hsize
      rw [Starts] at hstarts
      split at hstarts
      · exact ih _ this readonly result _ hstarts hsize
      · split at hstarts
        · exact hstarts.elim
        · exact ih _ this readonly result _ hstarts hsize
  | transact body' metadata inner next _ ih =>
      intro this readonly result c hstarts hsize
      rw [Starts] at hstarts
      split at hstarts
      · exact ih _ this readonly result _ hstarts hsize
      · rcases hstarts with ⟨callee, c', hreaches, hbegins⟩ | hnext
        · rw [← hsize, ← LedgerManager.length_of_reaches hversion hreaches]
          exact hbegins.depth_le hversion
        · have hdone := inner.balanced_doTransaction hversion lib
            (hostTransaction this body' metadata) c
          exact ih _ this readonly _ _ hnext (hdone.length_eq.trans hsize)
  | delegateCall address inner next _ ih =>
      intro this readonly result c hstarts hsize
      rw [Starts] at hstarts
      split at hstarts
      · exact ih _ this readonly result _ hstarts hsize
      · split at hstarts
        · rename_i level top _ _
          dsimp only at hstarts
          split at hstarts
          · exact ih _ this readonly result _ hstarts hsize
          · rename_i contract _
            rcases hstarts with hbegins | hnext
            · rw [← hsize]
              exact hbegins.depth_le hversion
            · have hcall := ContractManager.balanced_execute_pushed
                (inner.balanced_run hversion lib this false .success) lcl contract.type this level
                address top c
              exact ih _ this readonly _ _ hnext (hcall.length_eq.trans hsize)
        · exact hstarts.elim
  | query delegate address inner next _ ih =>
      intro this readonly result c hstarts hsize
      rw [Starts] at hstarts
      split at hstarts
      · rename_i level top _ _
        dsimp only at hstarts
        split at hstarts
        · exact ih _ this readonly result _ hstarts hsize
        · rename_i contract _
          have hlater : lcl.version > 1001 := by omega
          simp only [hlater, decide_true, Bool.or_true, if_true] at hstarts
          generalize (if delegate = true then this else address) = queried at hstarts
          rcases hstarts with hbegins | hnext
          · rw [← hsize]
            exact hbegins.depth_le hversion
          · have hcall := ContractManager.balanced_query_pushed
              (inner.balanced_run hversion lib queried true .success) lcl contract.type queried
              level address top c
            exact ih _ this readonly _ _ hnext (hcall.length_eq.trans hsize)
      · exact hstarts.elim

/-- The depth counts the calls in between. -/
theorem Body.Under.depth_eq (hversion : lcl.version > 1002) {n : ℕ} {outer inner : Body}
    (hunder : Under lib lcl n outer inner)
    (houter : outer.depth ≤ contractMaxRecursiveDepth) :
    inner.depth = outer.depth + n ∧ inner.depth ≤ contractMaxRecursiveDepth := by
  induction hunder with
  | refl body => exact ⟨rfl, houter⟩
  | @starts n outer body inner _ hstarts ih =>
      obtain ⟨hdepth, hle⟩ := Program.depth_of_starts hversion _ _ _ _ _ hstarts rfl
      refine ⟨?_, hle⟩
      calc inner.depth = body.depth + 1 := hdepth
        _ = outer.depth + n + 1 := by rw [(ih houter).1]
        _ = outer.depth + (n + 1) := Nat.add_assoc ..

section Cut

variable {stub inner : Program} {n size : ℕ}

/-- The inner program is only begun where a call is left. -/
theorem Program.run_nested (hversion : lcl.version > 1002)
    (hinner : ∀ (n : ℕ) (this : Address) (readonly : Bool) (result : ErrCode) (c : LedgerContext),
      contractMaxRecursiveDepth ≤ c.transactionStack.length + n →
        (inner.cut n stub).run lib lcl this readonly result c =
          inner.run lib lcl this readonly result c)
    (hlimit : contractMaxRecursiveDepth ≤ size + n) {type : ℤ} {this : Address}
    {readonly : Bool} {c : LedgerContext} (hsize : c.transactionStack.length = size + 1)
    (hbegins : ContractManager.Begins lcl type this inner readonly c body) :
    (nested stub (fun n => inner.cut n stub) n).run lib lcl this readonly .success body.c =
      inner.run lib lcl this readonly .success body.c := by
  obtain ⟨hdepth, hle⟩ := hbegins.depth_le hversion
  unfold Body.depth at hdepth hle
  cases n with
  | zero => omega
  | succ n =>
      apply hinner n this readonly .success body.c
      omega

/-- **What lies too deep is never run**: it may be replaced by anything. -/
theorem Program.run_cut (hversion : lcl.version > 1002) (lib : Library) (stub program : Program) :
    ∀ (n : ℕ) (this : Address) (readonly : Bool) (result : ErrCode) (c : LedgerContext),
      contractMaxRecursiveDepth ≤ c.transactionStack.length + n →
        (program.cut n stub).run lib lcl this readonly result c =
          program.run lib lcl this readonly result c := by
  induction program with
  | finish ending => exact fun _ _ _ _ _ _ => rfl
  | getEntry address next ih =>
      intro n this readonly result c hlimit
      rw [cut, run, run]
      split
      · rfl
      · exact ih _ n this readonly result _ hlimit
  | getValidators next ih =>
      intro n this readonly result c hlimit
      rw [cut, run, run]
      split
      · rfl
      · exact ih _ n this readonly result _ hlimit
  | setValidators validators next ih =>
      intro n this readonly result c hlimit
      rw [cut, run, run]
      split
      · exact ih _ n this readonly result _ hlimit
      · split
        · rfl
        · exact ih _ n this readonly result _ hlimit
  | configFee prices next ih =>
      intro n this readonly result c hlimit
      rw [cut, run, run]
      split
      · exact ih _ n this readonly result _ hlimit
      · split
        · rfl
        · exact ih _ n this readonly result _ hlimit
  | transact body metadata inner next ihinner ih =>
      intro n this readonly result c hlimit
      rw [cut, run, run]
      split
      · exact ih _ n this readonly result _ hlimit
      · have hagree : AgreeAt (c.transactionStack.length + 1)
            ((nested stub (fun n => inner.cut n stub) n).execution lib lcl)
            (inner.execution lib lcl) := by
          intro callee c' hsize
          refine ⟨?_, (agreeAt_execution hversion lib _ _ callee c' hsize).2⟩
          exact ContractManager.execute_congr inner false fun body hbegins =>
            run_nested hversion ihinner hlimit hsize hbegins
        obtain ⟨heq, hbalanced⟩ := LedgerManager.doTransaction_eq_and_balanced hversion hagree lib
          (hostTransaction this body metadata)
        rw [heq] at hbalanced
        unfold execution hostTransaction at heq hbalanced
        dsimp only
        rw [heq]
        exact ih _ n this readonly _ _ (hlimit.trans_eq (by rw [hbalanced.length_eq]))
  | delegateCall address inner next ihinner ih =>
      intro n this readonly result c hlimit
      rw [cut, run, run]
      split
      · exact ih _ n this readonly result _ hlimit
      · split
        · rename_i level top _ _
          dsimp only
          split
          · exact ih _ n this readonly result _ hlimit
          · rename_i contract _
            have hcall := ContractManager.balanced_execute_pushed
              (inner.balanced_run hversion lib this false .success) lcl contract.type this level
              address top c
            rw [ContractManager.execute_congr inner false fun body hbegins =>
              run_nested hversion ihinner hlimit rfl hbegins]
            exact ih _ n this readonly _ _ (hlimit.trans_eq (by rw [hcall.length_eq]))
        · rfl
  | query delegate address inner next ihinner ih =>
      intro n this readonly result c hlimit
      rw [cut, run, run]
      split
      · rename_i level top _ _
        dsimp only
        split
        · exact ih _ n this readonly result _ hlimit
        · rename_i contract _
          have hlater : lcl.version > 1001 := by omega
          simp only [hlater, decide_true, Bool.or_true, if_true]
          generalize (if delegate = true then this else address) = queried
          have hcall := ContractManager.balanced_query_pushed
            (inner.balanced_run hversion lib queried true .success) lcl contract.type queried level
            address top c
          rw [ContractManager.query_congr inner true fun body hbegins =>
            run_nested hversion ihinner hlimit rfl hbegins]
          exact ih _ n this readonly _ _ (hlimit.trans_eq (by rw [hcall.length_eq]))
      · rfl

end Cut

end Depth

/-! ## The stack is balanced and bounded -/

/-- **The stack of transactions is balanced and bounded.**  From ledger version 1003 on,
whatever programs the contracts have and whatever they catch: `DoTransaction`,
`delegateCall`, `contractQuery` and `delegateQuery` return with the stack as they found it;
a body that is executed has at most `CONTRACT_MAX_RECURSIVE_DEPTH` transactions on the
stack, one more for each call in which it lies; and what a program does at a depth of more
calls than that does not matter, so the recursion ends. -/
theorem callStack_balanced_and_bounded (lib : Library) {lcl : Closed}
    (hversion : lcl.version > 1002) :
    (∀ (inner : Program) (transaction : Transaction) (c : LedgerContext),
        Balanced c
          (LedgerManager.doTransaction lib lcl (inner.execution lib lcl) transaction c).2) ∧
      (∀ (address : Address) (inner : Program) (ending : Ending) (this : Address)
          (readonly : Bool) (result : ErrCode) (c : LedgerContext),
        Balanced c ((Program.delegateCall address inner fun _ => .finish ending).run lib lcl
          this readonly result c).2) ∧
      (∀ (delegate : Bool) (address : Address) (inner : Program) (ending : Ending)
          (this : Address) (readonly : Bool) (result : ErrCode) (c : LedgerContext),
        Balanced c ((Program.query delegate address inner fun _ => .finish ending).run lib lcl
          this readonly result c).2) ∧
      (∀ (type : ℤ) (this : Address) (program : Program) (readonly : Bool) (c : LedgerContext)
          (n : ℕ) (outer inner : Body),
        ContractManager.Begins lcl type this program readonly c outer →
          Body.Under lib lcl n outer inner →
            inner.depth = outer.depth + n ∧ inner.depth ≤ contractMaxRecursiveDepth) ∧
      ∀ (stub program : Program) (this : Address) (readonly : Bool) (result : ErrCode)
          (c : LedgerContext),
        (program.cut contractMaxRecursiveDepth stub).run lib lcl this readonly result c =
          program.run lib lcl this readonly result c := by
  refine ⟨?_, ?_, ?_, ?_, ?_⟩
  · intro inner transaction c
    exact inner.balanced_doTransaction hversion lib transaction c
  · intro address inner ending this readonly result c
    exact Program.balanced_run hversion lib _ this readonly result c
  · intro delegate address inner ending this readonly result c
    exact Program.balanced_run hversion lib _ this readonly result c
  · intro type this program readonly c n outer inner hbegins hunder
    exact hunder.depth_eq hversion (hbegins.depth_le hversion).2
  · intro stub program this readonly result c
    exact Program.run_cut hversion lib stub program _ this readonly result c (Nat.le_add_left ..)

/-- A contract that asks itself again and again. -/
def askingItself : ℕ → Program
  | 0 => .finish .returned
  | n + 1 => .query false calleeAddress (askingItself n) fun _ => .finish .returned

/-- The block in which a payment has come to the contract. -/
def askedBlock : LedgerContext :=
  (LedgerFrm.charge sampleClosed (payment callerAddress calleeAddress 0 1) {}).setTopEnvironment 0

theorem callStack_bounded_askingItself :
    askedBlock.transactionStack.length = 1 ∧
      (askingItself 9).run sampleLibrary sampleClosed calleeAddress false .success askedBlock =
        (((askingItself 9).cut contractMaxRecursiveDepth (.finish .threw)).run sampleLibrary
          sampleClosed calleeAddress false .success askedBlock) := by
  constructor
  · rw [askedBlock, LedgerContext.setTopEnvironment, LedgerFrm.stack_charge]
    rfl
  · exact ((callStack_balanced_and_bounded sampleLibrary (by decide)).2.2.2.2 _ _ _ _ _ _).symm

end CegChain
