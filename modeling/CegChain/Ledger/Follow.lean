import CegChain.Ledger.Frames
import CegChain.Ledger.Propose
import CegChain.Ledger.Replay

/-!
# Validators and followers

A validator that checks a block applies every transaction and discards what an
expired one did; a follower does not apply those that are listed as expired.  What
an expired transaction does stays in the buffer of the root (`Within`), which is
cleared, so the two ends are the same as far as the accounts, the settings and the
fees go (`sameRoot_settle_expired`).

The stack of transactions is different.  Up to version 1002 `DoTransaction` leaves
a nested transaction on the stack when the fee or the number of transactions has
run out, and the transactions after it count their gas at what was left there.  A
follower that has skipped the expired transaction has nothing left on its stack.

So are the fees.  A contract may catch what is thrown when `IsExpire` is true for a while, and
its transaction succeeds, but with the result that `IsExpire` has set, for which `ReturnFee`
returns nothing.  A follower never asks `IsExpire`, and returns the rest of the fee.
-/

namespace CegChain

open Layers AtomMap

variable {lib : Library} {lcl : Closed} {c d c' : LedgerContext} {rt rt' : Runtime}
  {env : TransactionEnv} {txs : List TransactionEnv}

/-- The contracts of two runs do the same from the same state. -/
def SamePrograms (lcl : Closed) (rt rt' : Runtime) : Prop :=
  ∀ {c d}, Similar lcl c d → ∀ env, rt'.program env d = rt.program env c

/-! ## What an expired transaction leaves behind -/

theorem enter_zero_of_keeps {K V : Type*} {tables tables' : List (Map K V)}
    (hkeeps : Keeps 1 tables tables') (hwide : 2 ≤ tables.length) :
    ∃ buff buff' data, tables.drop (tables.length - 2) = [buff, data] ∧
      tables'.drop (tables'.length - 2) = [buff', data] := by
  obtain ⟨hwide', heq⟩ := hkeeps.lowest hwide
  have hends : ∀ {tables : List (Map K V)}, 2 ≤ tables.length → ∃ buff data,
      tables.drop (tables.length - 2) = [buff, data] ∧
        tables.drop (tables.length - 1) = [data] := by
    intro tables hwide
    have hlength : (tables.drop (tables.length - 2)).length = 2 := by
      rw [List.length_drop]
      omega
    obtain ⟨buff, data, htwo⟩ := List.length_eq_two.mp hlength
    refine ⟨buff, data, htwo, ?_⟩
    have hone := congrArg (List.drop 1) htwo
    rwa [List.drop_drop, show tables.length - 2 + 1 = tables.length - 1 by omega] at hone
  obtain ⟨buff, data, htwo, hone⟩ := hends hwide
  obtain ⟨buff', data', htwo', hone'⟩ := hends hwide'
  rw [hone, hone'] at heq
  obtain ⟨rfl, -⟩ := List.cons.inj heq
  exact ⟨buff, buff', data', htwo, htwo'⟩

/-- Once the buffer of the root is cleared nothing is left of a run on it. -/
theorem Beneath.clearChangeBuf_eq (hbeneath : Beneath 0 c c')
    (haccounts : 2 ≤ c.environment.accounts.length)
    (hsettings : 2 ≤ c.environment.settings.length) :
    (c'.clearChangeBuf 0).environment = (c.clearChangeBuf 0).environment := by
  obtain ⟨buff, buff', data, htables, htables'⟩ := enter_zero_of_keeps hbeneath.accounts haccounts
  obtain ⟨old, old', settings, hset, hset'⟩ := enter_zero_of_keeps hbeneath.settings hsettings
  unfold LedgerContext.clearChangeBuf EnvStack.enter
  dsimp only
  rw [Nat.zero_add, htables, htables', hset, hset']
  rfl

/-! ## Between two transactions of a check -/

/-- The root has settings, and no transaction is left over that `DoTransaction` has not left. -/
structure Rested (lcl : Closed) (c : LedgerContext) : Prop where
  wide : 2 ≤ c.environment.settings.length
  empty : c.kept = 0 → c.transactionStack = []
  kept : lcl.version > 1002 → c.kept = 0

theorem Rested.stack (hrested : Rested lcl c) (hversion : lcl.version > 1002) :
    c.transactionStack = [] :=
  hrested.empty (hrested.kept hversion)

theorem wide_enter (hwide : 2 ≤ c.environment.settings.length) (level : ℕ) :
    2 ≤ (c.environment.enter level).settings.length := by
  show 2 ≤ (c.environment.settings.drop _).length
  rw [List.length_drop]
  omega

theorem rested_validForApply (hrested : Rested lcl c) (lib : Library) (env : TransactionEnv) :
    Rested lcl (TransactionFrm.validForApply lib lcl env 0 c).2 := by
  have hread : Rested lcl (c.getEntry lcl 0 env.transaction.sourceAddress).2 :=
    ⟨wide_enter hrested.wide 0, hrested.empty, hrested.kept⟩
  unfold TransactionFrm.validForApply
  split
  · rcases hget : c.getEntry lcl 0 env.transaction.sourceAddress with ⟨_ | account, c₁⟩
    · rw [hget] at hread
      exact hread
    · rw [hget] at hread
      dsimp only
      split
      · exact hread
      · split <;> exact hread
  · exact hrested

theorem rested_payFee (hrested : Rested lcl c) (env : TransactionEnv) :
    Rested lcl (TransactionFrm.payFee lcl env 0 c).2 := by
  have hread : Rested lcl (c.getEntry lcl 0 env.transaction.sourceAddress).2 :=
    ⟨wide_enter hrested.wide 0, hrested.empty, hrested.kept⟩
  dsimp only [TransactionFrm.payFee]
  rcases hget : c.getEntry lcl 0 env.transaction.sourceAddress with ⟨_ | account, c₁⟩
  · rw [hget] at hread
    exact hread
  · rw [hget] at hread
    dsimp only
    split
    · exact hread
    · split
      · exact ⟨hread.wide, hread.empty, hread.kept⟩
      · exact ⟨wide_enter hread.wide 0, hread.empty, hread.kept⟩

namespace LedgerFrm

theorem stack_charge (lcl : Closed) (env : TransactionEnv) (c : LedgerContext) :
    (charge lcl env c).transactionStack = { env := env } :: c.transactionStack :=
  TransactionFrm.stack_nonceIncrease lcl env 0 (c.push { env := env })

theorem kept_charge (lcl : Closed) (env : TransactionEnv) (c : LedgerContext) :
    (charge lcl env c).kept = c.kept :=
  TransactionFrm.kept_nonceIncrease lcl env 0 (c.push { env := env })

theorem wide_charge (hwide : 2 ≤ c.environment.settings.length) (env : TransactionEnv) :
    2 ≤ (charge lcl env c).environment.settings.length := by
  have hkeeps := (TransactionFrm.within_nonceIncrease (Nat.zero_le 0) lcl env
    (c.push { env := env })).settings
  show 2 ≤ (commitOn 0 _).length
  rw [commitOn, length_onFrame]
  exact wide_enter (hkeeps.lowest hwide).1 0

/-- What a refund leaves alone. -/
theorem returnFee_stack_wide (hwide : 2 ≤ c.environment.settings.length) (env : TransactionEnv)
    (result : ErrCode) (gas : Int64) :
    ((TransactionFrm.returnFee lcl env result gas 0 c).transactionStack = c.transactionStack ∧
        (TransactionFrm.returnFee lcl env result gas 0 c).kept = c.kept) ∧
      2 ≤ (TransactionFrm.returnFee lcl env result gas 0 c).environment.settings.length := by
  have hread : (c.getEntry lcl 0 env.transaction.sourceAddress).2.transactionStack =
      c.transactionStack ∧ (c.getEntry lcl 0 env.transaction.sourceAddress).2.kept = c.kept :=
    ⟨rfl, rfl⟩
  have hread' : 2 ≤
      (c.getEntry lcl 0 env.transaction.sourceAddress).2.environment.settings.length :=
    wide_enter hwide 0
  dsimp only [TransactionFrm.returnFee]
  split
  · exact ⟨⟨rfl, rfl⟩, hwide⟩
  · split
    · exact ⟨⟨rfl, rfl⟩, hwide⟩
    · split
      · exact ⟨⟨rfl, rfl⟩, hwide⟩
      · rcases hget : c.getEntry lcl 0 env.transaction.sourceAddress with ⟨_ | account, c₁⟩
        · rw [hget] at hread hread'
          exact ⟨hread, hread'⟩
        · rw [hget] at hread hread'
          dsimp only
          split
          · exact ⟨hread, hread'⟩
          · split
            · exact ⟨hread, hread'⟩
            · exact ⟨hread, wide_enter hread' 0⟩

theorem settle_stack_wide (hwide : 2 ≤ c.environment.settings.length) (env : TransactionEnv)
    (size : ℕ) (succeeded : Option ErrCode) :
    ((settle lcl env size succeeded c).transactionStack = c.transactionStack.tail ∧
        (settle lcl env size succeeded c).kept = c.kept) ∧
      2 ≤ (settle lcl env size succeeded c).environment.settings.length := by
  cases succeeded with
  | some result =>
      obtain ⟨⟨hstack, hkept⟩, hreturn⟩ := @returnFee_stack_wide lcl c hwide env result
        (ownGas size c)
      refine ⟨⟨congrArg List.tail hstack, hkept⟩, ?_⟩
      show 2 ≤ (clearOn 0 _).length
      rw [clearOn, length_onFrame]
      refine wide_enter ?_ 0
      show 2 ≤ (commitOn 0 _).length
      rw [commitOn, length_onFrame]
      exact wide_enter hreturn 0
  | none =>
      refine ⟨⟨rfl, rfl⟩, ?_⟩
      show 2 ≤ (clearOn 0 _).length
      rw [clearOn, length_onFrame]
      exact wide_enter hwide 0

/-- `Apply` of a transaction of the block, on the state that its charge has left. -/
theorem beneath_execute_charge (lib : Library) (rt : Runtime) (env : TransactionEnv)
    (c : LedgerContext) :
    Beneath 0 (charge lcl env c) (execute lib lcl rt env (charge lcl env c)).2 := by
  have hwithin := @within_execute lcl lib rt env (charge lcl env c)
  exact ⟨hwithin.accounts, hwithin.settings, hwithin.totalFee, hwithin.crashed⟩

/-- What a transaction adds to the count of those left on the stack. -/
theorem kept_execute_charge (lib : Library) (rt : Runtime) (env : TransactionEnv)
    (c : LedgerContext) :
    c.kept ≤ (execute lib lcl rt env (charge lcl env c)).2.kept ∧
      (lcl.version > 1002 → (execute lib lcl rt env (charge lcl env c)).2.kept = c.kept) := by
  have hwithin := @within_execute lcl lib rt env (charge lcl env c)
  have hkept : ((charge lcl env c).setTopEnvironment 0).kept = c.kept := kept_charge lcl env c
  exact ⟨hkept ▸ hwithin.kept_le, fun hversion => (hwithin.kept_eq hversion).trans hkept⟩

/-- A transaction that was applied is alone on the stack if nothing was left there. -/
theorem stack_execute_charge (hrested : Rested lcl c) (lib : Library) (rt : Runtime)
    (env : TransactionEnv) (hnone : (execute lib lcl rt env (charge lcl env c)).2.kept = 0) :
    c.transactionStack = [] ∧
      (execute lib lcl rt env (charge lcl env c)).2.transactionStack.tail = [] := by
  have hkept := hnone ▸ (@kept_execute_charge lcl lib rt env c).1
  have hstack := hrested.empty (Nat.le_zero.mp hkept)
  refine ⟨hstack, ?_⟩
  obtain ⟨more, hlevels, -, hsame⟩ :=
    (@within_execute lcl lib rt env (charge lcl env c)).levels
  have hlength := congrArg List.length hlevels
  rw [hsame (hnone.trans ((kept_charge lcl env c).trans (Nat.le_zero.mp hkept)).symm),
    List.nil_append, LedgerContext.levels, LedgerContext.levels, List.length_map,
    List.length_map] at hlength
  have hone : ((charge lcl env c).setTopEnvironment 0).transactionStack.length = 1 := by
    unfold LedgerContext.setTopEnvironment
    dsimp only
    rw [stack_charge, hstack]
    rfl
  rw [← List.length_eq_zero_iff, List.length_tail, hlength, hone]

theorem rested_applyCharged (hrested : Rested lcl c) (lib : Library) (rt : Runtime)
    (env : TransactionEnv) : Rested lcl (applyCharged lib lcl rt env c).2 := by
  have hwide : 2 ≤
      (execute lib lcl rt env (charge lcl env c)).2.environment.settings.length :=
    ((beneath_execute_charge lib rt env c).settings.lowest (wide_charge hrested.wide env)).1
  have hsettle : ∀ succeeded, Rested lcl (settle lcl env c.transactionStack.length succeeded
      (execute lib lcl rt env (charge lcl env c)).2) := by
    intro succeeded
    obtain ⟨⟨hstack, hkept⟩, hsettings⟩ := @settle_stack_wide lcl _ hwide env
      c.transactionStack.length succeeded
    refine ⟨hsettings, fun hnone => ?_, fun hversion => ?_⟩
    · rw [hstack]
      exact (stack_execute_charge hrested lib rt env (hkept.symm.trans hnone)).2
    · rw [hkept, (kept_execute_charge lib rt env c).2 hversion]
      exact hrested.kept hversion
  dsimp only [applyCharged]
  split
  · exact hsettle none
  · split
    · exact hsettle none
    · exact hsettle (some _)

/-- **An expired transaction leaves nothing but its charge**, when the stack beneath
it is as it was. -/
theorem sameRoot_settle_expired (hcharge : Similar lcl (charge lcl env c) (charge lcl env d))
    (hwide : 2 ≤ c.environment.settings.length)
    (hstack : (execute lib lcl rt env (charge lcl env c)).2.transactionStack.tail =
      (charge lcl env c).transactionStack.tail) (size : ℕ) :
    SameRoot lcl (settle lcl env size none (execute lib lcl rt env (charge lcl env c)).2)
      (settle lcl env size none (charge lcl env d)) := by
  have hbeneath := @beneath_execute_charge lcl lib rt env c
  have hclear := hbeneath.clearChangeBuf_eq hcharge.two_le (wide_charge hwide env)
  have hroot := (similar_settle hcharge env size none).sameRoot
  have henv : (settle lcl env size none
      (execute lib lcl rt env (charge lcl env c)).2).environment =
      (settle lcl env size none (charge lcl env c)).environment := hclear
  constructor
  · rw [henv]
    exact hroot.wide
  · exact hroot.wide'
  · intro address
    simp only [LedgerContext.tables, henv]
    exact hroot.reads address
  · intro address
    rw [LedgerContext.data, LedgerContext.data, henv]
    exact hroot.data address
  · simp only [LedgerContext.rootSettings, henv]
    exact hroot.settings
  · exact hroot.stack.trans hstack.symm
  · exact hroot.totalFee.trans hbeneath.totalFee.symm
  · exact fun hcrashed => hbeneath.crashed (hroot.crashed hcrashed)

/-! ## The two loops -/

/-- The transaction is found expired at its end, and up to there `DoTransaction` has not returned
without taking its transaction off the stack; or it is not, and it has not caught an expiry if it
succeeds. -/
def Steady (lib : Library) (lcl : Closed) (rt : Runtime) (env : TransactionEnv)
    (c : LedgerContext) : Prop :=
  let applied := execute lib lcl rt env (charge lcl env c)
  if rt.isExpire env applied.2 then lcl.version > 1002 ∨ applied.2.kept = 0
  else applied.1 = .success → rt.caughtExpiry env applied.2 = false

/-- Along a check, every transaction is steady. -/
def Undisturbed (lib : Library) (lcl : Closed) (rt : Runtime) :
    List TransactionEnv → LedgerContext → Prop
  | [], _ => True
  | env :: txs, c =>
      let paid := (TransactionFrm.payFee lcl env 0
        (TransactionFrm.validForApply lib lcl env 0 c).2).2
      Steady lib lcl rt env paid ∧
        Undisturbed lib lcl rt txs (applyCharged lib lcl rt env paid).2

variable {i : ℕ} {ids ids' : TxIds}

/-- A check that is not cancelled goes past every transaction it accepts. -/
theorem checkLoop_cons_of_enabled (henabled : ∀ i, rt.enabled i = true)
    (hloop : checkLoop lib lcl rt i (env :: txs) ids c = (some ids', c')) :
    ∃ c₁ c₂, TransactionFrm.validForApply lib lcl env 0 c = (.success, c₁) ∧
      TransactionFrm.payFee lcl env 0 c₁ = (true, c₂) ∧
      checkLoop lib lcl rt (i + 1) txs (ids.note i (applyCharged lib lcl rt env c₂).1)
        (applyCharged lib lcl rt env c₂).2 = (some ids', c') := by
  refine (checkLoop_cons hloop).resolve_left fun hoff => ?_
  rw [henabled] at hoff
  exact Bool.noConfusion hoff.1

theorem TxIds.mem_expire_note {id : ℤ} (hfresh : id ∉ ids.expire) {status : TxStatus} :
    id ∈ (ids.note id status).expire ↔ status = .expired := by
  cases status with
  | succeeded => exact iff_of_false hfresh (by decide)
  | failed => exact iff_of_false hfresh (by decide)
  | expired => exact iff_of_true (Finset.mem_insert_self ..) rfl

theorem TxIds.expire_note {id id' : ℤ} {status : TxStatus}
    (hmem : id ∈ (ids.note id' status).expire) : id ∈ ids.expire ∨ id = id' := by
  cases status with
  | succeeded => exact .inl hmem
  | failed => exact .inl hmem
  | expired => exact (Finset.mem_insert.mp hmem).symm

theorem TxIds.mem_note_of_mem {id id' : ℤ} (status : TxStatus) (hmem : id ∈ ids.expire) :
    id ∈ (ids.note id' status).expire := by
  cases status with
  | succeeded => exact hmem
  | failed => exact hmem
  | expired => exact Finset.mem_insert_of_mem hmem

/-- The ids noted from here on are not among those before. -/
theorem expire_checkLoop (henabled : ∀ i, rt.enabled i = true)
    (hloop : checkLoop lib lcl rt i txs ids c = (some ids', c')) (id : ℤ) :
    (id ∈ ids.expire → id ∈ ids'.expire) ∧ (id ∈ ids'.expire → id ∈ ids.expire ∨ (i : ℤ) ≤ id) := by
  induction txs generalizing i ids c with
  | nil =>
      obtain ⟨hids, -⟩ := Prod.mk.inj hloop
      obtain rfl := Option.some.inj hids
      exact ⟨fun hmem => hmem, fun hmem => .inl hmem⟩
  | cons env txs ih =>
      obtain ⟨c₁, c₂, -, -, hrest⟩ := checkLoop_cons_of_enabled henabled hloop
      obtain ⟨hkeep, hnew⟩ := ih hrest
      refine ⟨fun hmem => hkeep (TxIds.mem_note_of_mem _ hmem), fun hmem => ?_⟩
      rcases hnew hmem with hold | hge
      · rcases TxIds.expire_note hold with hold | rfl
        · exact .inl hold
        · exact .inr le_rfl
      · exact .inr (by push_cast at hge; omega)

/-- One transaction: the follower skips it exactly when the check found it
expired. -/
theorem sameRoot_followCharged (hprogram : SamePrograms lcl rt rt') (hroot : SameRoot lcl c d)
    (hrested : Rested lcl c) (hsteady : Steady lib lcl rt env c)
    {listed : Bool} (hlisted : listed = true ↔ (applyCharged lib lcl rt env c).1 = .expired) :
    SameRoot lcl (applyCharged lib lcl rt env c).2
      (followCharged lib lcl rt' listed env d).2 := by
  have hcharge := similar_charge hroot env
  obtain ⟨code, c₁, d₁, hc, hd, hsim₁⟩ :=
    (agree_execute (lockstep_similar lcl) lib (hprogram hcharge env) hcharge).exists_eq
  have hsettle : ∀ succeeded, SameRoot lcl
      (settle lcl env c.transactionStack.length succeeded c₁)
      (settle lcl env c.transactionStack.length succeeded d₁) :=
    fun succeeded => (similar_settle hsim₁ env _ succeeded).sameRoot
  dsimp only [applyCharged, followCharged] at hlisted ⊢
  rw [hroot.stack, hd]
  split at hlisted
  · rename_i hexpired
    rw [Steady, if_pos hexpired] at hsteady
    rw [if_pos hexpired, if_pos (hlisted.mpr rfl)]
    have hnone : (execute lib lcl rt env (charge lcl env c)).2.kept = 0 :=
      hsteady.elim (fun hversion => ((kept_execute_charge lib rt env c).2 hversion).trans
        (hrested.kept hversion)) id
    obtain ⟨hstack, htail⟩ := stack_execute_charge hrested lib rt env hnone
    refine sameRoot_settle_expired hcharge hrested.wide ?_ c.transactionStack.length
    rw [htail, stack_charge, hstack]
    rfl
  · rename_i hexpired
    have hrun : ¬ listed = true := by
      intro hlist
      have hstatus := hlisted.mp hlist
      split at hstatus <;> cases hstatus
    rw [Steady, if_neg hexpired] at hsteady
    rw [if_neg hexpired, if_neg hrun, hc]
    split
    · exact hsettle none
    · rename_i hsuccess
      rw [hc] at hsteady
      have hnoted : noted rt env c₁ = .success :=
        if_neg (Bool.eq_false_iff.mp (hsteady (not_not.mp hsuccess)))
      dsimp only
      rw [hnoted]
      exact hsettle (some .success)

/-- **The two loops.**  A follower that skips what the check has found expired ends
where the check ended. -/
theorem followLoop_of_checkLoop (hprogram : SamePrograms lcl rt rt')
    (henabled : ∀ i, rt.enabled i = true) (henabled' : ∀ i, rt'.enabled i = true)
    (hloop : checkLoop lib lcl rt i txs ids c = (some ids', c')) (hroot : SameRoot lcl c d)
    (hrested : Rested lcl c) (hids : ∀ id ∈ ids.expire, id < i)
    (hundisturbed : Undisturbed lib lcl rt txs c) (before : TxIds) :
    SameRoot lcl c' (followLoop lib lcl rt' ids'.expire i txs before d).2 := by
  induction txs generalizing i ids c d before with
  | nil =>
      obtain ⟨-, rfl⟩ := Prod.mk.inj hloop
      exact hroot
  | cons env txs ih =>
      obtain ⟨c₁, c₂, hvalid, hpay, hrest⟩ := checkLoop_cons_of_enabled henabled hloop
      have hroot₁ := TransactionFrm.sameRoot_validForApply hroot lib env
      have hrested₁ := rested_validForApply hrested lib env
      rw [hvalid] at hroot₁ hrested₁
      obtain ⟨paid, c₂', d₂, hc₂, hd₂, hroot₂⟩ :=
        (TransactionFrm.agree_payFee_root hroot₁ env).exists_eq
      obtain ⟨rfl, rfl⟩ := Prod.mk.inj (hpay.symm.trans hc₂)
      have hrested₂ := rested_payFee hrested₁ env
      rw [hpay] at hrested₂
      obtain ⟨hfirst, hlater⟩ := hundisturbed
      rw [hvalid, hpay] at hfirst hlater
      rw [followLoop, henabled', if_neg (by decide), hd₂]
      dsimp only
      have hlisted : (i : ℤ) ∈ ids'.expire ↔ (applyCharged lib lcl rt env c₂).1 = .expired := by
        obtain ⟨hkeep, hnew⟩ := expire_checkLoop henabled hrest i
        rw [← TxIds.mem_expire_note (fun hmem => lt_irrefl _ (hids i hmem))]
        refine ⟨fun hmem => (hnew hmem).resolve_right fun hge => ?_, hkeep⟩
        push_cast at hge
        omega
      refine ih hrest (sameRoot_followCharged hprogram hroot₂ hrested₂ hfirst
        (decide_eq_true_iff.trans hlisted)) (rested_applyCharged hrested₂ lib rt env) ?_ hlater _
      intro id hmem
      rcases TxIds.expire_note hmem with hold | rfl
      · have hlt := hids id hold
        push_cast
        omega
      · push_cast
        omega

/-! ## Blocks -/

theorem Rested.empty (lcl : Closed) : Rested lcl {} :=
  ⟨le_rfl, fun _ => rfl, fun _ => rfl⟩

/-- **Validators and followers agree.**  A follower accepts a value that a check has
accepted and ends with the same accounts, settings and total fee, when the contracts
do the same in both runs, no transaction that succeeds has caught an expiry, and up to version
1002 no transaction has been left on the stack where one expires. -/
theorem applyFollow_of_applyCheck (hprogram : SamePrograms lcl rt rt')
    (henabled : ∀ i, rt.enabled i = true) (henabled' : ∀ i, rt'.enabled i = true)
    {request : ConsensusValue}
    (hundisturbed : Undisturbed lib lcl rt request.txset {})
    (hcheck : (applyCheck lib lcl rt request).accepted = true) :
    let checked := applyCheck lib lcl rt request
    let followed := applyFollow lib lcl rt' request
    followed.accepted = true ∧
      (∀ address, shown lcl followed.context.data address =
        shown lcl checked.context.data address) ∧
      followed.context.rootSettings = checked.context.rootSettings ∧
      followed.context.totalFee = checked.context.totalFee := by
  dsimp only
  unfold applyCheck at hcheck ⊢
  unfold applyFollow
  rcases hvalue : checkConsValueValidation request with _ | ⟨expireTxs, errorTxs⟩
  · rw [hvalue] at hcheck
    cases hcheck
  · rw [hvalue] at hcheck
    dsimp only at hcheck ⊢
    rcases hloop : checkLoop lib lcl rt 0 request.txset {} {} with ⟨_ | ids, c⟩
    · rw [hloop] at hcheck
      cases hcheck
    · rw [hloop] at hcheck
      dsimp only at hcheck ⊢
      rw [Bool.and_eq_true, decide_eq_true_eq, Bool.not_eq_true'] at hcheck
      obtain ⟨⟨rfl, -⟩, hcrashed⟩ := hcheck
      have hroot := followLoop_of_checkLoop hprogram henabled henabled' hloop
        (SameRoot.empty lcl) (Rested.empty lcl) (by simp) hundisturbed {}
      obtain ⟨rewarded, c₁, d₁, hc, hd, hend⟩ :=
        (agree_allocateReward hroot request.ledgerSeq).exists_eq
      rw [hc] at hcrashed ⊢
      rw [hd]
      refine ⟨?_, hend.data, hend.settings, hend.totalFee⟩
      rw [Bool.not_eq_true']
      exact Bool.eq_false_iff.mpr fun htrue => by simp [hend.crashed htrue] at hcrashed

/-! ## An expired call that runs out of fees -/

/-- The sample ledger at another version. -/
def closedAt (version : ℕ) : Closed :=
  { sampleClosed with version := version }

/-- A call that can pay for itself and for nothing more. -/
def scantCall : TransactionEnv where
  transaction := {
    sourceAddress := callerAddress
    nonce := 1
    feeLimit := 100
    gasPrice := 1
    operations := [{ body := .payCoin { destAddress := calleeAddress, amount := 0 } }] }
  signatures := [⟨callerAddress, callerAddress⟩]

/-- The call expires; the contract pays one coin, for which no fee is left. -/
def expiring : Runtime where
  program := (payingOut payerAddress).program
  isExpire env _ := decide (env = scantCall)
  caughtExpiry _ _ := false
  enabled _ := true
  timedOut _ := false

/-- The call and a payment, with what a check lists. -/
def scantValue (errorTxIds : List ℤ) : ConsensusValue where
  txset := [scantCall, payment payerAddress callerAddress 5 1]
  ledgerSeq := 2
  validation := some { expireTxIds := [0], errorTxIds := errorTxIds }

theorem samePrograms_expiring (lcl : Closed) : SamePrograms lcl expiring expiring :=
  fun _ _ => rfl

theorem steady_scantValue :
    Undisturbed sampleLibrary (closedAt 1003) expiring (scantValue []).txset {} := by
  refine ⟨?_, ?_, trivial⟩
  · unfold Steady
    exact .inl (by decide)
  · unfold Steady
    exact fun _ => rfl

/-- At version 1003 the payment goes through on both sides. -/
theorem applyFollow_scantValue :
    (applyCheck sampleLibrary (closedAt 1003) expiring (scantValue [])).accepted = true ∧
      (applyFollow sampleLibrary (closedAt 1003) expiring (scantValue [])).accepted = true :=
  ⟨by decide +kernel, (applyFollow_of_applyCheck (samePrograms_expiring _) (fun _ => rfl)
    (fun _ => rfl) steady_scantValue (by decide +kernel)).1⟩

/-- At version 1002 the check charges the payment's gas to the call that was left on
the stack, and the payment fails; the follower pays. -/
theorem applyFollow_differs :
    SamePrograms (closedAt 1002) expiring expiring ∧
      (applyCheck sampleLibrary (closedAt 1002) expiring (scantValue [1])).accepted = true ∧
      ¬ ∀ address,
        shown (closedAt 1002)
            (applyFollow sampleLibrary (closedAt 1002) expiring (scantValue [1])).context.data
            address =
          shown (closedAt 1002)
            (applyCheck sampleLibrary (closedAt 1002) expiring (scantValue [1])).context.data
            address := by
  refine ⟨samePrograms_expiring _, by decide +kernel, fun hsame => ?_⟩
  have hbalance := congrArg (Option.map AccountFrm.balance) (hsame payerAddress)
  revert hbalance
  decide +kernel

end LedgerFrm

end CegChain
