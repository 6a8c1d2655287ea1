import CegChain.Ledger.CoinOperations

/-!
# Transactions, contracts and coins

The operations of a transaction one after another (`paid_applyOperations`), the
transaction of a contract on a frame of its own (`paid_doTransaction`), and with them a
contract with any program (`paid_run`).  A call that fails leaves its code with the
contract, so a contract succeeds only when everything below it does, and then each frame
was committed to the one it was built on.

The gas of all of them is added up at the bottom of the stack in 64 bits.  Each fee is
checked against the limit before anything is run, so as long as that goes well the gas
stays where it cannot wrap (`stacked_addActualFee`).
-/

namespace CegChain

open Layers AtomMap Totals LedgerContext LedgerFrm

variable {lib : Library} {lcl : Closed} {level : ℕ} {actors : Set Address}
  {c c' c₁ d : LedgerContext} {env : TransactionEnv}

/-! ## The stack of transactions -/

theorem stack_ne_nil (htop : c.topEnvironment = some level) : c.transactionStack ≠ [] := by
  intro hnil
  rw [topEnvironment, hnil] at htop
  cases htop

/-- Another transaction on top changes none below it. -/
theorem metered_cons {payer : TransactionEnv} {size : ℕ} {tx : StackTx}
    (hsize : size < c.transactionStack.length)
    (hstack : d.transactionStack = tx :: c.transactionStack) :
    d.Metered payer size ↔ c.Metered payer size := by
  rw [LedgerContext.Metered, LedgerContext.Metered, hstack, List.reverse_cons,
    List.getElem?_append_left (by rwa [List.length_reverse])]

theorem ownGas_cons {size : ℕ} {tx : StackTx} (hsize : size < c.transactionStack.length)
    (hstack : d.transactionStack = tx :: c.transactionStack) : ownGas size d = ownGas size c := by
  rw [ownGas, ownGas, hstack, List.reverse_cons,
    List.getElem?_append_left (by rwa [List.length_reverse])]

/-- What runs with another transaction on top of the stack. -/
theorem Stacked.pop {tx : StackTx} (hstacked : Stacked d c')
    (hstack : d.transactionStack = tx :: c.transactionStack) : Stacked c c'.pop := by
  have hlevels : c'.levels = tx.environment :: c.levels :=
    hstacked.levels.trans (congrArg (List.map StackTx.environment) hstack)
  have hlength : d.transactionStack.length = c.transactionStack.length + 1 := by
    rw [hstack, List.length_cons]
  have hlength' : c'.transactionStack.length = c.transactionStack.length + 1 :=
    hstacked.length_eq.trans hlength
  obtain ⟨tx', hstack'⟩ : ∃ tx', c'.transactionStack = tx' :: c'.pop.transactionStack := by
    obtain ⟨tx', rest, hrest⟩ := List.exists_cons_of_length_eq_add_one hlength'
    rw [LedgerContext.pop, hrest]
    exact ⟨tx', rfl⟩
  have hpopped : c'.pop.transactionStack.length = c.transactionStack.length := by
    rw [hstack', List.length_cons] at hlength'
    omega
  refine ⟨?_, fun payer size hsize hmetered => ?_⟩
  · rw [levels_pop, hlevels, List.tail_cons]
  · have hsize' := hsize.trans_eq hpopped.symm
    have hkept := hstacked.metered payer size (by omega) ((metered_cons hsize hstack).mpr hmetered)
    rwa [metered_cons hsize' hstack', ownGas_cons hsize hstack, ownGas_cons hsize' hstack']
      at hkept

theorem journal_commit_succ (c : LedgerContext) (level : ℕ) :
    (c.commit (level + 1)).journal = c.journal := by
  rw [LedgerContext.commit, if_neg (Nat.succ_ne_zero level)]

theorem stacked_commit (c : LedgerContext) (level : ℕ) : Stacked c (c.commit level) := by
  apply Stacked.of_eq
  unfold LedgerContext.commit
  dsimp only
  split <;> rfl

/-! ## Gas -/

theorem toInt_getOperationTypeGas (body : OperationBody) :
    0 ≤ (getOperationTypeGas body).toInt ∧ (getOperationTypeGas body).toInt ≤ 5000000 := by
  unfold getOperationTypeGas
  split
  · split <;> decide
  · decide
  · decide

/-- A transaction that passed `ValidForParameter` has little gas of its own. -/
theorem toInt_getSelfGas {stackSize : ℕ}
    (hvalid : TransactionFrm.validForParameter lib lcl env stackSize = .success) :
    0 ≤ (TransactionFrm.getSelfGas lib env).toInt ∧
      (TransactionFrm.getSelfGas lib env).toInt ≤ 2 ^ 30 := by
  have hsize : lib.byteSize env < transactionLimitSize ∧
      env.transaction.operations.length ≤ maxOperationsNumPerTransaction := by
    unfold TransactionFrm.validForParameter at hvalid
    dsimp only at hvalid
    split_ifs at hvalid
    all_goals omega
  have hlimit : transactionLimitSize = 2 ^ 20 := by decide
  have hmax : maxOperationsNumPerTransaction = 100 := rfl
  have hloop : ∀ (operations : List Operation) (gas : Int64), operations.length ≤ 100 →
      0 ≤ gas.toInt → gas.toInt + 5000000 * operations.length ≤ 2 ^ 30 →
      0 ≤ (operations.foldl (fun gas ope => gas + getOperationTypeGas ope.body) gas).toInt ∧
        (operations.foldl (fun gas ope => gas + getOperationTypeGas ope.body) gas).toInt ≤
          2 ^ 30 := by
    intro operations
    induction operations with
    | nil =>
        intro gas _ hgas hle
        exact ⟨hgas, by simpa using hle⟩
    | cons ope operations ih =>
        intro gas hlength hgas hle
        have htype := toInt_getOperationTypeGas ope.body
        rw [List.length_cons] at hlength hle
        push_cast at hle
        have hsum : (gas + getOperationTypeGas ope.body).toInt =
            gas.toInt + (getOperationTypeGas ope.body).toInt := by
          rw [Int64.toInt_add]
          exact Int.bmod_eq_of_le (by omega) (by omega)
        exact ih (gas + getOperationTypeGas ope.body) (by omega) (by omega) (by omega)
  have hbytes : (Int64.ofNat (lib.byteSize env)).toInt = lib.byteSize env :=
    Int64.toInt_ofNat_of_lt (by omega)
  refine hloop _ _ (by omega) ?_ ?_
  · rw [hbytes]
    omega
  · rw [hbytes]
    omega

/-- The fee that is not more than the limit, in integers. -/
theorem StackTx.Metered.add {tx : StackTx} (hmetered : tx.Metered env) {gas fee : Int64}
    (hgas : 0 ≤ gas.toInt ∧ gas.toInt ≤ 2 ^ 30)
    (hfee : safeIntMul (tx.actualGas + gas) env.transaction.gasPrice = some fee)
    (hle : fee.toInt ≤ env.transaction.feeLimit.toInt) :
    ({ tx with actualGas := tx.actualGas + gas } : StackTx).Metered env ∧
      (0 < env.transaction.gasPrice.toInt →
        (tx.actualGas + gas).toInt = tx.actualGas.toInt + gas.toInt) := by
  have hsum : 0 < env.transaction.gasPrice.toInt →
      0 ≤ tx.actualGas.toInt ∧ (tx.actualGas + gas).toInt = tx.actualGas.toInt + gas.toInt := by
    intro hprice
    obtain ⟨hnonneg, hlow⟩ := hmetered.actualGas hprice
    have hlimit := hmetered.feeLimit
    -- the gas is not more than the fee
    have hgasLow : tx.actualGas.toInt ≤ env.transaction.feeLimit.toInt :=
      calc tx.actualGas.toInt
          = tx.actualGas.toInt * 1 := (mul_one _).symm
        _ ≤ tx.actualGas.toInt * env.transaction.gasPrice.toInt :=
            mul_le_mul_of_nonneg_left hprice hnonneg
        _ ≤ env.transaction.feeLimit.toInt := hlow
    rw [Int64.toInt_add]
    exact ⟨hnonneg, Int.bmod_eq_of_le (by omega) (by omega)⟩
  refine ⟨⟨hmetered.env_eq, hmetered.gasPrice, hmetered.feeLimit, fun hprice => ?_⟩,
    fun hprice => (hsum hprice).2⟩
  obtain ⟨hnonneg, hadd⟩ := hsum hprice
  have hprod := toInt_of_safeIntMul (by omega) hfee
  exact ⟨hadd.symm ▸ by omega, hprod ▸ hle⟩

theorem reverse_addActualGas (gas : Int64) (c : LedgerContext) :
    (c.addActualGas gas).transactionStack.reverse =
      c.transactionStack.reverse.modifyHead fun tx =>
        { tx with actualGas := tx.actualGas + gas } :=
  List.reverse_reverse _

/-- A fee that was accepted leaves the gas metered. -/
theorem stacked_addActualFee (hgas : 0 ≤ (TransactionFrm.getSelfGas lib env).toInt ∧
      (TransactionFrm.getSelfGas lib env).toInt ≤ 2 ^ 30)
    (hfee : c.addActualFee lib env = (.success, c')) : Stacked c c' := by
  have hlevels := levels_addActualFee lib env c
  rw [hfee] at hlevels
  refine ⟨hlevels, fun payer size hsize hmetered => ?_⟩
  have hreverse := reverse_addActualGas (TransactionFrm.getSelfGas lib env) c
  obtain ⟨bottom, rest, hbottom⟩ : ∃ bottom rest, c.transactionStack.reverse = bottom :: rest := by
    apply List.exists_cons_of_ne_nil
    intro hnil
    rw [List.reverse_eq_nil_iff.mp hnil] at hsize
    exact absurd hsize (Nat.not_lt_zero size)
  rw [hbottom, List.modifyHead_cons] at hreverse
  unfold addActualFee at hfee
  dsimp only at hfee
  rw [← List.head?_reverse, hreverse, List.head?_cons] at hfee
  dsimp only at hfee
  split at hfee
  · cases hfee
  · rename_i actualFee hmul
    split at hfee
    · cases hfee
    · rename_i hle
      obtain ⟨-, rfl⟩ := Prod.mk.inj hfee
      rw [LedgerContext.Metered, hbottom] at hmetered
      rw [LedgerContext.Metered, ownGas, ownGas, hreverse, hbottom]
      cases size with
      | zero =>
          -- the transaction that pays for all of them
          have hown := hmetered bottom rfl
          rw [hown.env_eq] at hmul hle
          rw [gt_iff_lt, Int64.lt_iff_toInt_lt] at hle
          obtain ⟨hadded, hsum⟩ := hown.add hgas hmul (not_lt.mp hle)
          refine ⟨fun tx htx => Option.some.inj htx ▸ hadded, fun hprice => ?_⟩
          simp only [List.getElem?_cons_zero, Option.map_some, Option.getD_some]
          rw [hsum hprice]
          omega
      | succ size => exact ⟨hmetered, fun _ => le_rfl⟩

theorem environment_addActualFee_eq (hfee : c.addActualFee lib env = (.success, c')) :
    c'.environment = c.environment := by
  have henvironment := environment_addActualFee lib env c
  rwa [hfee] at henvironment

theorem journal_addActualFee (hfee : c.addActualFee lib env = (.success, c')) :
    c'.journal = c.journal := by
  unfold addActualFee at hfee
  dsimp only at hfee
  split at hfee
  · obtain ⟨-, rfl⟩ := Prod.mk.inj hfee
    rfl
  · split at hfee
    · cases hfee
    · split at hfee
      · cases hfee
      · obtain ⟨-, rfl⟩ := Prod.mk.inj hfee
        rfl

/-! ## Transactions -/

namespace TransactionFrm

/-- The operations passed the checks of the transaction. -/
theorem checkValid_of_checkOperations {tran : Transaction} {stackSize : ℕ}
    {operations : List Operation}
    (hcheck : checkOperations lib lcl tran stackSize operations = .success) {ope : Operation}
    (hmem : ope ∈ operations) :
    OperationFrm.checkValid lib lcl ope (tran.operationSource ope) stackSize = .success := by
  induction operations with
  | nil => cases hmem
  | cons first operations ih =>
      unfold checkOperations at hcheck
      dsimp only at hcheck
      split_ifs at hcheck
      split at hcheck
      · rename_i hvalid
        rcases List.mem_cons.mp hmem with rfl | hmem
        · exact hvalid
        · exact ih hcheck hmem
      · rename_i hcode
        exact absurd hcheck hcode

theorem checkOperations_of_valid {stackSize : ℕ}
    (hvalid : validForParameter lib lcl env stackSize = .success) :
    checkOperations lib lcl env.transaction stackSize env.transaction.operations = .success := by
  unfold validForParameter at hvalid
  dsimp only at hvalid
  split_ifs at hvalid
  exact hvalid

/-- Who acts in the operations, given the accounts before them: the sources whose signatures
meet the threshold, and for a contract every source. -/
def acting (lib : Library) (env : TransactionEnv) (boolContract : Bool)
    (operations : List Operation) (state : Address → Option AccountFrm) : Set Address :=
  {address | ∀ account, state address = some account → ∃ ope ∈ operations,
    env.transaction.operationSource ope = address ∧
      (boolContract = true ∨ signerHashPriv lib env account ope.body.type = true)}

/-- Who has been spared needs the same signatures. -/
theorem signerHashPriv_spared {account account' : AccountFrm} (hspared : account.Spared account')
    (type : ℤ) : signerHashPriv lib env account' type = signerHashPriv lib env account type := by
  have hthresholds : account'.thresholds = account.thresholds := by
    rw [AccountFrm.thresholds, AccountFrm.thresholds, hspared.priv]
  have htype : account'.getTypeThreshold type = account.getTypeThreshold type := by
    unfold AccountFrm.getTypeThreshold
    rw [hthresholds]
  unfold signerHashPriv
  rw [htype, hthresholds, hspared.priv, hspared.address]

variable {execute : ℕ → Execution} (hexecute : ∀ index, (execute index).Conserves lcl level)
  (hreserve : 0 ≤ lcl.fees.baseReserve.toInt)

include hexecute hreserve

/-- The operations, one after another.  Who does not act in any of them is spared by the
first, and so its signatures do not meet the thresholds after it either. -/
theorem paid_applyOperations (hsolid : Solid lcl level c) (htop : c.topEnvironment = some level)
    {boolContract : Bool} {index stackSize : ℕ} {operations : List Operation}
    (hvalid : ∀ ope ∈ operations, OperationFrm.checkValid lib lcl ope
      (env.transaction.operationSource ope) stackSize = .success)
    (happly : applyOperations lib lcl execute env level boolContract index operations c =
      (.success, c')) (hsighted : c'.Sighted lcl) :
    Paid lcl level (acting lib env boolContract operations (c.readsAt lcl level)) c c' 0 := by
  induction operations generalizing index c with
  | nil =>
      obtain ⟨-, rfl⟩ := Prod.mk.inj happly
      exact hsolid.paid
  | cons ope operations ih =>
      dsimp only [applyOperations] at happly
      split at happly
      · rename_i c₁ hchecked
        split at happly
        · rename_i c₂ hdone
          have hrest : Effects lcl c₂ (applyOperations lib lcl execute env level boolContract
              (index + 1) operations c₂).2 :=
            effects_applyOperations (fun index => (hexecute index).effects) ..
          have hope :=
            OperationFrm.effects_apply (hexecute index).effects lib env index level ope c₁
          rw [happly] at hrest
          rw [hdone] at hope
          have hsighted₂ := hsighted.of_effects hrest
          -- the signatures, which are not checked for a contract
          have hsigned : Paid lcl level {env.transaction.operationSource ope} c c₁ 0 ∧
              (boolContract = true ∨ ∃ account,
                c.readsAt lcl level (env.transaction.operationSource ope) = some account ∧
                  signerHashPriv lib env account ope.body.type = true) := by
            split at hchecked
            · rename_i hcontract
              obtain ⟨-, rfl⟩ := Prod.mk.inj hchecked
              exact ⟨hsolid.paid, .inl hcontract⟩
            · obtain ⟨hpaid, hsigned⟩ :=
                OperationFrm.paid_checkSignature hsolid hchecked (hsighted₂.of_effects hope)
              exact ⟨hpaid, .inr hsigned⟩
          have htop₁ := hsigned.1.topEnvironment htop
          have hfirst := (OperationFrm.paid_apply (hexecute index) hsigned.1.solid htop₁ hreserve
            (Set.mem_singleton _) (hvalid ope List.mem_cons_self) hdone hsighted₂).after hsigned.1
          have htop₂ := hfirst.topEnvironment htop
          have hlast := ih hfirst.solid htop₂ (fun other hmem => hvalid other (.tail _ hmem)) happly
          refine ⟨hlast.solid, hfirst.stacked.trans hlast.stacked,
            hfirst.shifts.trans hlast.shifts, hfirst.spares.trans_of hlast.spares ?_ ?_⟩
          · rw [Set.singleton_subset_iff]
            intro account haccount
            refine ⟨ope, List.mem_cons_self, rfl, hsigned.2.imp_right ?_⟩
            rintro ⟨found, hfound, hpriv⟩
            exact Option.some.inj (hfound.symm.trans haccount) ▸ hpriv
          · intro address account account' hactor haccount haccount' hspared hmem
            apply hactor
            intro found hfound
            obtain rfl := Option.some.inj (haccount.symm.trans hfound)
            obtain ⟨other, hother, hsource, hpriv⟩ := hmem account' haccount'
            rw [signerHashPriv_spared hspared] at hpriv
            exact ⟨other, .tail _ hother, hsource, hpriv⟩
        · rename_i hfailed
          exact absurd happly (hfailed c')
      · rename_i hfailed
        exact absurd happly (hfailed c')

/-- **One transaction**, on the stack with its environment: its own gas is added, then its
operations are applied. -/
theorem paid_apply {boolContract : Bool} {stackSize : ℕ}
    (hsolid : Solid lcl level (c.setTopEnvironment level)) (hne : c.transactionStack ≠ [])
    (hvalid : validForParameter lib lcl env stackSize = .success)
    (happly : apply lib lcl execute env level boolContract c = (.success, c'))
    (hsighted : c'.Sighted lcl) :
    ∃ c₁, (c.setTopEnvironment level).addActualFee lib env = (.success, c₁) ∧
      (∀ actors, Paid lcl level actors (c.setTopEnvironment level) c₁ 0) ∧
      Paid lcl level
        (acting lib env boolContract env.transaction.operations (c.readsAt lcl level)) c₁ c' 0 := by
  unfold apply at happly
  split at happly
  · rename_i c₁ hfee
    have henvironment := environment_addActualFee_eq hfee
    have hpaid : ∀ actors, Paid lcl level actors (c.setTopEnvironment level) c₁ 0 := fun _ =>
      .of_environment hsolid henvironment
        (stacked_addActualFee (toInt_getSelfGas hvalid) hfee)
        (journal_addActualFee hfee ▸ List.suffix_refl _)
    have htop : c₁.topEnvironment = some level := by
      rw [(hpaid ∅).stacked.topEnvironment]
      obtain ⟨tx, rest, hstack⟩ := List.exists_cons_of_ne_nil hne
      rw [topEnvironment, setTopEnvironment, hstack]
      rfl
    have hreads : c₁.readsAt lcl level = c.readsAt lcl level := by
      rw [readsAt, readsAt, tables, tables, henvironment]
      rfl
    have hrun := paid_applyOperations hexecute hreserve (hpaid ∅).solid htop
      (fun ope hmem => checkValid_of_checkOperations (checkOperations_of_valid hvalid) hmem)
      happly hsighted
    rw [hreads] at hrun
    exact ⟨c₁, hfee, hpaid, hrun⟩
  · rename_i hfailed
    exact absurd happly (hfailed c')

end TransactionFrm

/-! ## The transactions of contracts -/

theorem paid_nonceIncrease (hsolid : Solid lcl level c)
    (hactor : env.transaction.sourceAddress ∈ actors)
    (hsighted : (TransactionFrm.nonceIncrease lcl env level c).Sighted lcl) :
    Paid lcl level actors c (TransactionFrm.nonceIncrease lcl env level c) 0 := by
  unfold TransactionFrm.nonceIncrease at hsighted ⊢
  rcases hget : c.getEntry lcl level env.transaction.sourceAddress with ⟨_ | account, c₁⟩
  · rw [hget] at hsighted
    exact (hsolid.read actors hget hsighted).1
  · rw [hget] at hsighted
    have hread := (hsolid.read actors hget (hsighted.of_effects
      (Effects.write _ fun account => (lt_add_one account.nonce).le))).1
    have hderef : (c₁.deref level env.transaction.sourceAddress).isSome := by
      rw [deref_getEntry hget]
      rfl
    have hraised := hread.solid.modifySame hderef (f := (·.nonceIncrease)) (fun _ => rfl)
      (.inl hactor)
    exact hraised.after hread

namespace LedgerManager

/-- The end of a transaction that succeeded. -/
theorem endTransaction_success {code : ErrCode}
    (hend : endTransaction lcl level code c = (.success, c')) :
    code = .success ∧ c' = (c.commit level).pop := by
  unfold endTransaction at hend
  split at hend
  · rename_i hstop
    obtain ⟨rfl, -⟩ := Prod.mk.inj hend
    rcases hstop with hstop | hstop <;> cases hstop
  · obtain ⟨rfl, rfl⟩ := Prod.mk.inj hend
    rw [if_pos rfl]
    exact ⟨rfl, rfl⟩

/-- **A transaction of a contract.**  Its frame reads what its caller reads, and the caller
reads what the frame has left. -/
theorem paid_doTransaction {execute : Execution}
    (hexecute : ∀ level, execute.Conserves lcl level)
    (hreserve : 0 ≤ lcl.fees.baseReserve.toInt) (hsolid : Solid lcl level c)
    (htop : c.topEnvironment = some level) {transaction : Transaction}
    (hsource : transaction.sourceAddress ∈ actors)
    (hactors : ∀ ope ∈ transaction.operations, transaction.operationSource ope ∈ actors)
    (hdo : doTransaction lib lcl execute transaction c = (.success, c'))
    (hsighted : c'.Sighted lcl) : Paid lcl level actors c c' 0 := by
  unfold doTransaction at hdo
  rw [htop] at hdo
  dsimp only at hdo
  rcases hget : c.getEntry lcl level transaction.sourceAddress with ⟨_ | account, c₁⟩
  · rw [hget] at hdo
    obtain ⟨-, rfl⟩ := Prod.mk.inj hdo
    have hread := (hsolid.read actors hget (hsighted.of_effects Effects.crash)).1
    have hcrashed : Paid lcl level actors c₁ c₁.crash 0 :=
      .of_environment hread.solid rfl (.of_eq rfl) (List.suffix_refl _)
    exact hcrashed.after hread
  · rw [hget] at hdo
    dsimp only at hdo
    -- the transaction is given a nonce, which does not change who acts
    obtain ⟨env, henv, hsource', hactors'⟩ : ∃ env : TransactionEnv,
        { transaction := { transaction with nonce := account.nonce + 1 } } = env ∧
        env.transaction.sourceAddress ∈ actors ∧
        ∀ ope ∈ env.transaction.operations, env.transaction.operationSource ope ∈ actors :=
      ⟨_, rfl, hsource, hactors⟩
    rw [henv] at hdo
    have hstack₁ : c₁.transactionStack = c.transactionStack := by
      obtain rfl : (c.getEntry lcl level transaction.sourceAddress).2 = c₁ := by rw [hget]
      rfl
    split at hdo
    · cases hdo
    · set c₂ := TransactionFrm.nonceIncrease lcl env level (c₁.push { env := env }) with hc₂
      split at hdo
      · rename_i hvalid
        rcases hrun : TransactionFrm.apply lib lcl (fun _ => execute) env (level + 1) true
          (c₂.newStackFrameEnv level) with ⟨code, c₃⟩
        rw [hrun] at hdo
        obtain ⟨rfl, rfl⟩ := endTransaction_success hdo
        have hsighted₃ : c₃.Sighted lcl := hsighted.of_effects
          (Relation.ReflTransGen.trans (.single (.commit c₃ (level + 1))) Effects.pop)
        have happlied : Effects lcl (c₂.newStackFrameEnv level) (TransactionFrm.apply lib lcl
            (fun _ => execute) env (level + 1) true (c₂.newStackFrameEnv level)).2 :=
          TransactionFrm.effects_apply (fun _ => (hexecute (level + 1)).effects) ..
        rw [hrun] at happlied
        have hsighted₂ : c₂.Sighted lcl := hsighted₃.of_effects (.head (.frame c₂ level) happlied)
        -- the caller until the frame is built
        have hread := (hsolid.read actors hget (hsighted₂.of_effects
          ((Effects.push { env := env }).trans
            (TransactionFrm.effects_nonceIncrease env level _)))).1
        have hpushed : Solid lcl level (c₁.push { env := env }) := hread.solid.of_environment rfl
        have hraised := paid_nonceIncrease hpushed hsource' hsighted₂
        obtain ⟨hframe, hreads⟩ := hraised.solid.newStackFrameEnv
        -- the frame
        have hstack : ((c₂.newStackFrameEnv level).setTopEnvironment (level + 1)).transactionStack =
            { env := env, environment := some (level + 1) } :: c.transactionStack := by
          show c₂.transactionStack.modifyHead _ = _
          rw [hc₂, TransactionFrm.stack_nonceIncrease, ← hstack₁]
          rfl
        have hpaid : Paid lcl (level + 1) actors
            ((c₂.newStackFrameEnv level).setTopEnvironment (level + 1)) c₃ 0 := by
          have hne : (c₂.newStackFrameEnv level).transactionStack ≠ [] := by
            show c₂.transactionStack ≠ []
            rw [hc₂, TransactionFrm.stack_nonceIncrease]
            exact List.cons_ne_nil _ _
          obtain ⟨c₄, -, hadded, happlied⟩ := TransactionFrm.paid_apply
            (fun _ => hexecute (level + 1)) hreserve (hframe.of_environment rfl) hne hvalid hrun
            hsighted₃
          refine (happlied.after (hadded _)).mono fun address account hmem haccount => ?_
          obtain ⟨ope, hope, rfl, -⟩ := hmem account haccount
          exact hactors' ope hope
        -- the caller after the commit
        obtain ⟨hcommitted, hreads'⟩ := hpaid.solid.commit_succ
        have hspares : Spares actors c₂ (c₃.commit (level + 1)).pop (c₂.readsAt lcl level)
            ((c₃.commit (level + 1)).pop.readsAt lcl level) :=
          (hpaid.spares.congr hreads.symm hreads').contexts rfl (journal_commit_succ c₃ level)
        refine ⟨hcommitted.of_environment rfl, ?_, ?_,
          (hread.spares.trans (hraised.spares.contexts rfl rfl)).trans hspares⟩
        · exact (hpaid.stacked.trans (stacked_commit c₃ (level + 1))).pop hstack
        · have hshifts := (hread.shifts.trans hraised.shifts).trans
            (hpaid.shifts.congr (fun address => (congrArg (coins · address) hreads).symm)
              fun address => congrArg (coins · address) hreads')
          rwa [add_zero, add_zero] at hshifts
      · rename_i hcode
        split at hdo
        · exact absurd (endTransaction_success hdo).1 hcode
        · rename_i hfee _
          exact absurd (endTransaction_success hdo).1 hfee

end LedgerManager

/-! ## Contracts -/

theorem Solid.getValidators (hsolid : Solid lcl level c) (actors : Set Address) :
    Paid lcl level actors c (c.getValidators lcl level).2 0 := by
  have hlength := hsolid.stands.length_settings.ge
  unfold LedgerContext.getValidators EnvStack.getValidators
  dsimp only
  split
  all_goals
    refine hsolid.settings (hlength.trans_eq ?_)
    simp only [EnvStack.getSetting, getOn, setOn, length_onFrame]

theorem Solid.updateNewValidators (hsolid : Solid lcl level c) (actors : Set Address)
    (validators : Setting) :
    Paid lcl level actors c (c.updateNewValidators level validators) 0 := by
  refine hsolid.settings (hsolid.stands.length_settings.ge.trans_eq ?_)
  simp only [setOn, length_onFrame]

theorem Solid.updateFeeConfig (hsolid : Solid lcl level c) (actors : Set Address) (fees : Setting) :
    Paid lcl level actors c (c.updateFeeConfig level fees) 0 := by
  have hlength := hsolid.stands.length_settings.ge
  unfold LedgerContext.updateFeeConfig EnvStack.updateFeeConfig
  dsimp only
  split
  all_goals
    refine hsolid.settings (hlength.trans_eq ?_)
    simp only [EnvStack.getSetting, getOn, setOn, modifyOn, length_onFrame]

namespace ContractManager

variable {run : LedgerContext → Outcome × LedgerContext}

/-- A contract that succeeds was run. -/
theorem execute_success {type : ℤ} {this : Address}
    (hexecute : (execute lcl type this run c).1 = .success) :
    (execute lcl type this run c).2 = (run (c.mark (.executed this))).2 ∧
      (run (c.mark (.executed this))).1.code = .success := by
  unfold execute at hexecute ⊢
  split at hexecute
  · cases hexecute
  · split at hexecute
    · cases hexecute
    · rename_i hdeep htype
      rw [if_neg hdeep, if_neg htype]
      exact ⟨rfl, hexecute⟩

/-- A query was run or did nothing. -/
theorem query_cases (type : ℤ) (this : Address) :
    (query lcl type this run c).2 = c ∨
      (query lcl type this run c).2 = (run (c.mark (.executed this))).2 := by
  unfold query
  split
  · exact .inl rfl
  · split
    · exact .inl rfl
    · exact .inr rfl

end ContractManager

/-- A call with a copy of the topmost transaction on the stack. -/
theorem Paid.of_push {tx : StackTx} (hpaid : Paid lcl level actors (c.push tx) c' 0) :
    Paid lcl level actors c c'.pop 0 :=
  ⟨hpaid.solid.of_environment rfl, hpaid.stacked.pop rfl, hpaid.shifts,
    hpaid.spares.contexts rfl rfl⟩

/-- A call of a contract: it may act as it likes. -/
theorem Paid.of_executed {this : Address}
    (hpaid : Paid lcl level (insert this actors) (c.mark (.executed this)) c' 0) :
    Paid lcl level actors c c' 0 := by
  have hmarked : Stacked c (c.mark (.executed this)) := .of_eq rfl
  exact ⟨hpaid.solid, hmarked.trans hpaid.stacked, hpaid.shifts, hpaid.spares.executed⟩

theorem topEnvironment_push {top : StackTx} (htop : c.topEnvironment = some level)
    (hhead : c.transactionStack.head? = some top) (d : LedgerContext) :
    (d.push top).topEnvironment = some level := by
  rw [← htop, topEnvironment, topEnvironment, hhead]
  rfl

namespace Program

theorem resultAfter_success {result code : ErrCode} (hafter : resultAfter result code = .success) :
    code = .success := by
  by_contra hcode
  exact resultAfter_ne_success (.inr hcode) hafter

/-- A contract that has succeeded had not failed before. -/
theorem success_of_run {program : Program} {this : Address} {readonly : Bool} {result : ErrCode}
    (hcode : (program.run lib lcl this readonly result c).1.code = .success) :
    result = .success := by
  by_contra hresult
  exact code_run_ne_success hresult program this readonly c hcode

/-- A contract is paid by nothing when it succeeds, and when it only reads, however it
ends. -/
def Conserves (lib : Library) (lcl : Closed) (program : Program) : Prop :=
  ∀ (this : Address) (readonly : Bool) (result : ErrCode) {level : ℕ} {actors : Set Address}
    {c : LedgerContext}, this ∈ actors →
    Solid lcl level c → c.topEnvironment = some level →
    (program.run lib lcl this readonly result c).2.Sighted lcl →
    readonly = true ∨ (program.run lib lcl this readonly result c).1.code = .success →
    Paid lcl level actors c (program.run lib lcl this readonly result c).2 0

namespace Conserves

variable {program : Program} (hprogram : program.Conserves lib lcl) (hsolid : Solid lcl level c)
  (htop : c.topEnvironment = some level) {type : ℤ} {this : Address}

include hprogram hsolid htop

theorem paid_execute (actors : Set Address)
    (hcode : (ContractManager.execute lcl type this (program.run lib lcl this false .success) c).1 =
      .success)
    (hsighted : (ContractManager.execute lcl type this
      (program.run lib lcl this false .success) c).2.Sighted lcl) :
    Paid lcl level actors c
      (ContractManager.execute lcl type this (program.run lib lcl this false .success) c).2 0 := by
  obtain ⟨hafter, hsuccess⟩ := ContractManager.execute_success hcode
  have hmarked : Solid lcl level (c.mark (.executed this)) := hsolid.of_environment rfl
  rw [hafter] at hsighted ⊢
  exact (hprogram this false .success (Set.mem_insert this actors) hmarked htop hsighted
    (.inr hsuccess)).of_executed

theorem paid_query (actors : Set Address)
    (hsighted : (ContractManager.query lcl type this
      (program.run lib lcl this true .success) c).2.Sighted lcl) :
    Paid lcl level actors c
      (ContractManager.query lcl type this (program.run lib lcl this true .success) c).2 0 := by
  have hmarked : Solid lcl level (c.mark (.executed this)) := hsolid.of_environment rfl
  rcases ContractManager.query_cases type this with hafter | hafter
  · rw [hafter]
    exact hsolid.paid
  · rw [hafter] at hsighted ⊢
    exact (hprogram this true .success (Set.mem_insert this actors) hmarked htop hsighted
      (.inl rfl)).of_executed

omit hsolid htop

/-- What an operation meets that reaches the contract. -/
theorem execution (level : ℕ) : Execution.Conserves lcl level fun callee =>
    ContractManager.execute lcl 0 callee (program.run lib lcl callee false .success) where
  effects this c := ContractManager.effects_execute (effects_run lib lcl program this _ _) 0 this c
  paid := by
    intro actors this c c' hsolid htop hexecute hsighted
    have hcode := congrArg Prod.fst hexecute
    obtain rfl := congrArg Prod.snd hexecute
    exact hprogram.paid_execute hsolid htop actors hcode hsighted

end Conserves

/-- **A contract with any program.** -/
theorem conserves (hreserve : 0 ≤ lcl.fees.baseReserve.toInt) (program : Program) :
    program.Conserves lib lcl := by
  induction program with
  | finish ending =>
      intro this readonly result level actors c hthis hsolid htop hsighted hends
      exact hsolid.paid
  | getEntry address next ih =>
      intro this readonly result level actors c hthis hsolid htop hsighted hends
      simp only [run, htop] at hsighted hends ⊢
      have hread := hsolid.getEntry actors (hsighted.of_effects (effects_run ..))
      exact (ih _ this readonly result hthis hread.solid (hread.topEnvironment htop)
        hsighted hends).after hread
  | getValidators next ih =>
      intro this readonly result level actors c hthis hsolid htop hsighted hends
      simp only [run, htop] at hsighted hends ⊢
      have hread := hsolid.getValidators actors
      exact (ih _ this readonly result hthis hread.solid (hread.topEnvironment htop)
        hsighted hends).after hread
  | setValidators validators next ih =>
      intro this readonly result level actors c hthis hsolid htop hsighted hends
      rw [run] at hsighted hends ⊢
      split at hsighted
      · rename_i hrefused
        rw [if_pos hrefused] at hends ⊢
        exact ih _ this readonly result hthis hsolid htop hsighted hends
      · rename_i hrefused
        rw [if_neg hrefused] at hends ⊢
        simp only [htop] at hsighted hends ⊢
        have hset := hsolid.updateNewValidators actors (.validators validators)
        exact (ih _ this readonly result hthis hset.solid (hset.topEnvironment htop)
          hsighted hends).after hset
  | configFee prices next ih =>
      intro this readonly result level actors c hthis hsolid htop hsighted hends
      rw [run] at hsighted hends ⊢
      split at hsighted
      · rename_i hrefused
        rw [if_pos hrefused] at hends ⊢
        exact ih _ this readonly result hthis hsolid htop hsighted hends
      · rename_i hrefused
        rw [if_neg hrefused] at hends ⊢
        simp only [htop] at hsighted hends ⊢
        have hset := hsolid.updateFeeConfig actors (.fees prices)
        exact (ih _ this readonly result hthis hset.solid (hset.topEnvironment htop)
          hsighted hends).after hset
  | transact body metadata inner next ihinner ih =>
      intro this readonly result level actors c hthis hsolid htop hsighted hends
      rw [run] at hsighted hends ⊢
      split at hsighted
      · rename_i hreadonly
        rw [if_pos hreadonly] at hends ⊢
        exact ih _ this readonly result hthis hsolid htop hsighted hends
      · rename_i hreadonly
        rw [if_neg hreadonly] at hends ⊢
        dsimp only at hsighted hends ⊢
        generalize hdo : LedgerManager.doTransaction lib lcl (fun callee =>
          ContractManager.execute lcl 0 callee (inner.run lib lcl callee false .success))
          { sourceAddress := this, operations := [{ body := body, metadata := metadata }] } c = r
          at hsighted hends ⊢
        have hcode := resultAfter_success (success_of_run (hends.resolve_left hreadonly))
        have hactors : ∀ ope ∈ [({ body := body, metadata := metadata } : Operation)],
            Transaction.operationSource { sourceAddress := this, operations :=
              [{ body := body, metadata := metadata }] } ope ∈ actors := by
          intro ope hmem
          obtain rfl := List.mem_singleton.mp hmem
          exact hthis
        have hpaid := LedgerManager.paid_doTransaction ihinner.execution hreserve hsolid htop hthis
          hactors (hdo.trans (Prod.ext hcode rfl)) (hsighted.of_effects (effects_run ..))
        exact (ih _ this readonly _ hthis hpaid.solid (hpaid.topEnvironment htop)
          hsighted hends).after hpaid
  | delegateCall address inner next ihinner ih =>
      intro this readonly result level actors c hthis hsolid htop hsighted hends
      rw [run] at hsighted hends ⊢
      split at hsighted
      · rename_i hreadonly
        rw [if_pos hreadonly] at hends ⊢
        exact ih _ this readonly result hthis hsolid htop hsighted hends
      · rename_i hreadonly
        rw [if_neg hreadonly] at hends ⊢
        obtain ⟨top, hhead⟩ : ∃ top, c.transactionStack.head? = some top :=
          Option.isSome_iff_exists.mp (List.isSome_head?.mpr (stack_ne_nil htop))
        simp only [htop, hhead] at hsighted hends ⊢
        generalize hget : c.getEntry lcl level address = r at hsighted hends ⊢
        obtain ⟨found, c₁⟩ := r
        have hread : c₁.Sighted lcl → Paid lcl level actors c c₁ 0 := fun hsighted₁ =>
          (hsolid.read actors hget hsighted₁).1
        cases hcontract : contractOf found with
        | none =>
            simp only [hcontract] at hsighted hends ⊢
            have hpaid := hread (hsighted.of_effects (effects_run ..))
            exact (ih _ this readonly result hthis hpaid.solid (hpaid.topEnvironment htop) hsighted
              hends).after hpaid
        | some contract =>
            simp only [hcontract] at hsighted hends ⊢
            have hcode := resultAfter_success (success_of_run (hends.resolve_left hreadonly))
            have hcalled : Effects lcl (c₁.push top) _ := ContractManager.effects_execute
              (effects_run lib lcl inner this false .success) contract.type this (c₁.push top)
            have hsighted₂ := hsighted.of_effects (Effects.pop.trans (effects_run ..))
            have hpaid := hread (hsighted₂.of_effects ((Effects.push top).trans hcalled))
            have hpushed : Solid lcl level (c₁.push top) := hpaid.solid.of_environment rfl
            have hcall := (ihinner.paid_execute hpushed (topEnvironment_push htop hhead _) actors
              hcode hsighted₂).of_push
            have hboth := hcall.after hpaid
            exact (ih _ this readonly _ hthis hboth.solid (hboth.topEnvironment htop)
              hsighted hends).after hboth
  | query delegate address inner next ihinner ih =>
      intro this readonly result level actors c hthis hsolid htop hsighted hends
      rw [run] at hsighted hends ⊢
      obtain ⟨top, hhead⟩ : ∃ top, c.transactionStack.head? = some top :=
        Option.isSome_iff_exists.mp (List.isSome_head?.mpr (stack_ne_nil htop))
      simp only [htop, hhead] at hsighted hends ⊢
      generalize hget : c.getEntry lcl level address = r at hsighted hends ⊢
      obtain ⟨found, c₁⟩ := r
      have hread : c₁.Sighted lcl → Paid lcl level actors c c₁ 0 := fun hsighted₁ =>
        (hsolid.read actors hget hsighted₁).1
      cases hcontract : contractOf found with
      | none =>
          simp only [hcontract] at hsighted hends ⊢
          have hpaid := hread (hsighted.of_effects (effects_run ..))
          exact (ih _ this readonly result hthis hpaid.solid (hpaid.topEnvironment htop)
            hsighted hends).after hpaid
      | some contract =>
          simp only [hcontract] at hsighted hends ⊢
          generalize (if delegate = true then this else address) = queried at hsighted hends ⊢
          generalize (delegate || decide (lcl.version > 1001)) = pushes at hsighted hends ⊢
          have hqueried : ∀ c, Effects lcl c _ := fun c => ContractManager.effects_query
            (effects_run lib lcl inner queried true .success) contract.type queried c
          cases pushes with
          | true =>
              simp only [if_true] at hsighted hends ⊢
              have hsighted₂ := hsighted.of_effects (Effects.pop.trans (effects_run ..))
              have hpaid := hread (hsighted₂.of_effects ((Effects.push top).trans (hqueried _)))
              have hpushed : Solid lcl level (c₁.push top) := hpaid.solid.of_environment rfl
              have hquery := (ihinner.paid_query hpushed (topEnvironment_push htop hhead _) actors
                hsighted₂).of_push
              have hboth := hquery.after hpaid
              exact (ih _ this readonly _ hthis hboth.solid (hboth.topEnvironment htop)
                hsighted hends).after hboth
          | false =>
              simp only [Bool.false_eq_true, if_false] at hsighted hends ⊢
              have hsighted₂ := hsighted.of_effects (effects_run ..)
              have hpaid := hread (hsighted₂.of_effects (hqueried _))
              have hboth := (ihinner.paid_query hpaid.solid
                (hpaid.topEnvironment htop) actors hsighted₂).after hpaid
              exact (ih _ this readonly _ hthis hboth.solid (hboth.topEnvironment htop)
                hsighted hends).after hboth

end Program

end CegChain
