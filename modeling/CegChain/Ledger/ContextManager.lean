import CegChain.Ledger.Propose
import CegChain.Ledger.Replay
import CegChain.Lib.OrderedMap

/-!
# The cache of executed values

`LedgerContextManager` of `ledger/ledgercontext_manager.cpp` executes a consensus
value before the consensus on it, as a proposer or to check it, and keeps the
contexts whose execution succeeded under the hash of the value.  A value that is
found there is not executed again.

The caller's result is not filled in from the context that was found, and a
context of either mode is found, so an answer from the cache may differ from that
of an execution.
-/

namespace CegChain

open LedgerFrm

/-- `ProposeTxsResult`, without the number of transactions executed, which is for
runs that time out. -/
structure ProposeTxsResult where
  blockTimeout : Bool := false
  execResult : Bool := false
  consValidation : ConsensusValueValidation := {}
  needDroppedTx : Finset ℤ := ∅
  deriving DecidableEq

/-- A `LedgerContext` of `completed_ctxs_`. -/
structure CompletedContext where
  consensusValue : ConsensusValue
  /-- `apply_mode_` is `APPLY_MODE_PROPOSE`, not `APPLY_MODE_CHECK`. -/
  propose : Bool
  proposeResult : ProposeTxsResult
  deriving DecidableEq

/-- What the clock and the system do to a call of `SyncPreProcess`. -/
structure Timing where
  /-- The thread was started. -/
  started : Bool
  /-- More than `BLOCK_EXECUTE_TIME_OUT` passed in the waiting loop. -/
  waited : Bool
  /-- More than `BLOCK_EXECUTE_TIME_OUT` had passed in the thread after the
  transaction of this index. -/
  timedOut : ℕ → Bool

/-- A call that is not held up. -/
def Timing.prompt : Timing := ⟨true, false, fun _ => false⟩

/-- `need_dropped_tx_` when the loop of `ApplyPropose` is left, be it at a timeout. -/
def LedgerFrm.droppedBy (lib : Library) (lcl : Closed) (rt : Runtime) :
    ℕ → List TransactionEnv → Finset ℤ → LedgerContext → Finset ℤ
  | _, [], dropped, _ => dropped
  | i, env :: txs, dropped, c =>
      if rt.enabled i = false then dropped
      else match TransactionFrm.validForApply lib lcl env 0 c with
      | (.success, c) =>
          match TransactionFrm.payFee lcl env 0 c with
          | (true, c) =>
              if rt.timedOut i then dropped
              else droppedBy lib lcl rt (i + 1) txs dropped (applyCharged lib lcl rt env c).2
          | (false, c) => droppedBy lib lcl rt (i + 1) txs (insert (i : ℤ) dropped) c
      | (_, c) => droppedBy lib lcl rt (i + 1) txs (insert (i : ℤ) dropped) c

/-- `LedgerContext::Do` in the modes that have a manager. -/
def CompletedContext.run (lib : Library) (lcl : Closed) (rt : Runtime) (value : ConsensusValue)
    (propose : Bool) : ProposeTxsResult :=
  if propose then
    let applied := applyPropose lib lcl rt value
    { execResult := applied.accepted
      consValidation := setValidationToProto applied.ids.expire applied.ids.error
      needDroppedTx :=
        if value.validation ≠ none then ∅ else droppedBy lib lcl rt 0 value.txset ∅ {} }
  else { execResult := (applyCheck lib lcl rt value).accepted }

/-- `LedgerContextManager`. -/
structure LedgerContextManager (H : Type) where
  completedCtxs : List (H × CompletedContext) := []
  deriving DecidableEq

namespace LedgerContextManager

variable {H : Type} [LE H] [DecidableLE H] [DecidableEq H]
variable (lib : Library) (lcl : Closed) (rt : Runtime) (crypto : ConsensusValue → H)

/-- `CheckComplete`. -/
def checkComplete (m : LedgerContextManager H) (chash : H) : ℤ :=
  match m.completedCtxs.lookup chash with
  | some context => if context.proposeResult.execResult then 1 else 0
  | none => -1

/-- `MoveRunningToComplete`; nothing is ever put into `running_ctxs_`. -/
def moveRunningToComplete (m : LedgerContextManager H) (chash : H) (context : CompletedContext) :
    LedgerContextManager H :=
  ⟨OrderedMap.insertNew chash context m.completedCtxs⟩

/-- `SyncPreProcess`: the answer, the caller's result and the manager. -/
def syncPreProcess (timing : Timing) (consensusValue : ConsensusValue) (propose : Bool)
    (proposeResult : ProposeTxsResult) (m : LedgerContextManager H) :
    Bool × ProposeTxsResult × LedgerContextManager H :=
  let chash := crypto consensusValue
  let complete := checkComplete m chash
  if complete > 0 then (decide (complete = 1), proposeResult, m)
  else if timing.started = false then (false, { proposeResult with blockTimeout := true }, m)
  else
    let result := CompletedContext.run lib lcl { rt with timedOut := timing.timedOut }
      consensusValue propose
    -- a context that failed is deleted after a while
    let m := if result.execResult then
      m.moveRunningToComplete chash ⟨consensusValue, propose, result⟩ else m
    let proposeResult := if timing.waited then { proposeResult with blockTimeout := true }
      else proposeResult
    if proposeResult.blockTimeout then (false, proposeResult, m)
    else (result.execResult, result, m)

/-- `RemoveCompleted`. -/
def removeCompleted (ledgerSeq : ℤ) (m : LedgerContextManager H) : LedgerContextManager H :=
  ⟨m.completedCtxs.filter fun entry => ¬ entry.2.consensusValue.ledgerSeq ≤ ledgerSeq⟩

/-- The calls that change the manager on one closed ledger. -/
inductive Call where
  | syncPreProcess (timing : Timing) (consensusValue : ConsensusValue) (propose : Bool)
      (proposeResult : ProposeTxsResult)
  | removeCompleted (ledgerSeq : ℤ)

/-- The manager after a call. -/
def step (m : LedgerContextManager H) : Call → LedgerContextManager H
  | .syncPreProcess timing consensusValue propose proposeResult =>
      (syncPreProcess lib lcl rt crypto timing consensusValue propose proposeResult m).2.2
  | .removeCompleted ledgerSeq => m.removeCompleted ledgerSeq

/-- The manager after a history of calls. -/
def run (calls : List Call) : LedgerContextManager H :=
  calls.foldl (step lib lcl rt crypto) {}

/-- What the caller looks at: the verdict, the dropped transactions and the
validation. -/
def answer (r : Bool × ProposeTxsResult × LedgerContextManager H) :
    Bool × Finset ℤ × ConsensusValueValidation :=
  (r.1, r.2.1.needDroppedTx, r.2.1.consValidation)

end LedgerContextManager

/-! ## The loops without drops -/

namespace LedgerFrm

variable {lib : Library} {lcl : Closed} {rt : Runtime} {env : TransactionEnv}
  {txs : List TransactionEnv} {ids ids' : TxIds} {c c' : LedgerContext} {i : ℕ}

/-- A check that goes through all transactions is a proposal that drops none. -/
theorem proposeLoop_of_checkLoop (henabled : ∀ i, rt.enabled i = true)
    (htime : ∀ i, rt.timedOut i = false) (hdropped : ids.dropped = ∅)
    (hloop : checkLoop lib lcl rt i txs ids c = (some ids', c')) :
    proposeLoop lib lcl rt i txs ids c = (some ids', c') ∧ ids'.dropped = ∅ := by
  induction txs generalizing i ids c with
  | nil =>
      obtain ⟨hids, -⟩ := Prod.mk.inj hloop
      exact ⟨hloop, Option.some.inj hids ▸ hdropped⟩
  | cons env txs ih =>
      rcases checkLoop_cons hloop with ⟨hoff, -⟩ | ⟨c₁, c₂, hvalid, hpay, hrest⟩
      · rw [henabled] at hoff
        cases hoff
      · obtain ⟨hpropose, hdropped'⟩ := ih (by rw [TxIds.dropped_note, hdropped]) hrest
        refine ⟨?_, hdropped'⟩
        rw [proposeLoop, henabled, if_neg (by decide), hvalid]
        dsimp only
        rw [hpay]
        dsimp only
        rw [htime, if_neg (by decide), hdropped, Finset.card_empty, Nat.cast_zero, sub_zero]
        exact hpropose

/-- A proposal that has dropped none is a check that goes through. -/
theorem checkLoop_of_proposeLoop_dropped (henabled : ∀ i, rt.enabled i = true)
    (htime : ∀ i, rt.timedOut i = false) (hdropped : ids'.dropped = ∅)
    (hloop : proposeLoop lib lcl rt i txs ids c = (some ids', c')) :
    checkLoop lib lcl rt i txs ids c = (some ids', c') := by
  induction txs generalizing i ids c with
  | nil => exact hloop
  | cons env txs ih =>
      have hnone : ids.dropped = ∅ := by
        refine Finset.eq_empty_of_forall_notMem fun id hmem => ?_
        have hkept := (dropped_proposeLoop henabled htime hloop id).1 hmem
        rw [hdropped] at hkept
        exact Finset.notMem_empty id hkept
      rcases proposeLoop_cons henabled htime hloop with ⟨c₁, c₂, hvalid, hpay, hrest⟩ |
        ⟨c₁, -, hrest⟩
      · have hcheck := ih hrest
        rw [hnone, Finset.card_empty, Nat.cast_zero, sub_zero] at hcheck
        rw [checkLoop, henabled, if_neg (by decide), hvalid]
        dsimp only
        rw [hpay]
        dsimp only
        rw [htime, if_neg (by decide)]
        exact hcheck
      · have hmem := (dropped_proposeLoop henabled htime hrest i).1 (Finset.mem_insert_self ..)
        rw [hdropped] at hmem
        exact absurd hmem (Finset.notMem_empty _)

theorem droppedBy_of_proposeLoop (hloop : proposeLoop lib lcl rt i txs ids c = (some ids', c')) :
    droppedBy lib lcl rt i txs ids.dropped c = ids'.dropped := by
  induction txs generalizing i ids c with
  | nil =>
      obtain ⟨hids, -⟩ := Prod.mk.inj hloop
      rw [droppedBy, Option.some.inj hids]
  | cons env txs ih =>
      unfold proposeLoop at hloop
      unfold droppedBy
      split at hloop
      · rename_i hoff
        obtain ⟨hids, -⟩ := Prod.mk.inj hloop
        rw [if_pos hoff, Option.some.inj hids]
      · rename_i hon
        rw [if_neg hon]
        generalize TransactionFrm.validForApply lib lcl env 0 c = checked at hloop ⊢
        obtain ⟨code, c₁⟩ := checked
        cases code
        case success =>
          dsimp only at hloop ⊢
          generalize TransactionFrm.payFee lcl env 0 c₁ = paid at hloop ⊢
          obtain ⟨_ | _, c₂⟩ := paid
          · exact ih hloop
          · dsimp only at hloop ⊢
            split at hloop
            · cases hloop
            · rename_i htime
              rw [if_neg htime, ← ih hloop, TxIds.dropped_note]
        all_goals exact ih hloop

/-- The ids of a proposal that was accepted. -/
def TxIds.None (ids : TxIds) : Prop :=
  ids.dropped = ∅ ∧ ids.expire = ∅ ∧ ids.error = ∅

/-- Of a value without a validation, a check is accepted exactly when a proposal is
and has nothing to note. -/
theorem applyCheck_iff_applyPropose (henabled : ∀ i, rt.enabled i = true)
    (htime : ∀ i, rt.timedOut i = false) {value : ConsensusValue}
    (hvalue : value.validation = none) :
    (applyCheck lib lcl rt value).accepted = true ↔
      (applyPropose lib lcl rt value).accepted = true ∧
        (applyPropose lib lcl rt value).ids.None := by
  have hvalidation : checkConsValueValidation value = some (∅, ∅) := by
    rw [checkConsValueValidation, hvalue]
  unfold applyCheck applyPropose
  rw [hvalidation, if_neg (not_not.mpr hvalue)]
  dsimp only
  constructor
  · intro haccepted
    rcases hloop : checkLoop lib lcl rt 0 value.txset {} {} with ⟨_ | ids, c⟩
    · rw [hloop] at haccepted
      cases haccepted
    · rw [hloop] at haccepted
      dsimp only at haccepted
      rw [Bool.and_eq_true, decide_eq_true_eq] at haccepted
      obtain ⟨⟨hexpire, herror⟩, hcrashed⟩ := haccepted
      obtain ⟨hpropose, hdropped⟩ := proposeLoop_of_checkLoop henabled htime rfl hloop
      rw [hpropose]
      exact ⟨hcrashed, hdropped, hexpire, herror⟩
  · rintro ⟨haccepted, hnone⟩
    rcases hloop : proposeLoop lib lcl rt 0 value.txset {} {} with ⟨_ | ids, c⟩
    · rw [hloop] at haccepted
      cases haccepted
    · rw [hloop] at haccepted hnone
      obtain ⟨hdropped, hexpire, herror⟩ := hnone
      rw [checkLoop_of_proposeLoop_dropped henabled htime hdropped hloop]
      dsimp only at haccepted hexpire herror ⊢
      rw [hexpire, herror, haccepted]
      simp

/-! ## Runs that end in time -/

/-- What the loop of `ApplyPropose` does with a transaction, whatever the clock: it ends
because the ledger was cancelled, it applies the transaction and looks at the clock, or it
drops the transaction. -/
theorem proposeLoop_step (lib : Library) (lcl : Closed) (rt : Runtime) (i : ℕ)
    (env : TransactionEnv) (txs : List TransactionEnv) (ids : TxIds) (c : LedgerContext) :
    (rt.enabled i = false ∧ ∀ clock,
      proposeLoop lib lcl { rt with timedOut := clock } i (env :: txs) ids c = (some ids, c)) ∨
    (∃ status c₁, ∀ clock : ℕ → Bool,
      proposeLoop lib lcl { rt with timedOut := clock } i (env :: txs) ids c =
        if clock i then (none, c₁)
        else proposeLoop lib lcl { rt with timedOut := clock } (i + 1) txs
          (ids.note (i - ids.dropped.card) status) c₁) ∨
    ∃ c₁, ∀ clock, proposeLoop lib lcl { rt with timedOut := clock } i (env :: txs) ids c =
      proposeLoop lib lcl { rt with timedOut := clock } (i + 1) txs
        { ids with dropped := insert (i : ℤ) ids.dropped } c₁ := by
  simp only [proposeLoop]
  by_cases hoff : rt.enabled i = false
  · exact .inl ⟨hoff, fun clock => if_pos hoff⟩
  · simp only [if_neg hoff]
    generalize TransactionFrm.validForApply lib lcl env 0 c = checked
    obtain ⟨code, c₁⟩ := checked
    cases code
    case success =>
      dsimp only
      generalize TransactionFrm.payFee lcl env 0 c₁ = paid
      obtain ⟨_ | _, c₂⟩ := paid
      · exact .inr (.inr ⟨c₂, fun clock => rfl⟩)
      · exact .inr (.inl ⟨(applyCharged lib lcl rt env c₂).1, (applyCharged lib lcl rt env c₂).2,
          fun clock => rfl⟩)
    all_goals exact .inr (.inr ⟨c₁, fun clock => rfl⟩)

/-- A loop that was not stopped by the clock does not depend on it. -/
theorem proposeLoop_clock {clock : ℕ → Bool}
    (hloop : proposeLoop lib lcl { rt with timedOut := clock } i txs ids c = (some ids', c')) :
    proposeLoop lib lcl { rt with timedOut := fun _ => false } i txs ids c = (some ids', c') := by
  induction txs generalizing i ids c with
  | nil => exact hloop
  | cons env txs ih =>
      rcases proposeLoop_step lib lcl rt i env txs ids c with
        ⟨-, hend⟩ | ⟨status, c₁, happlied⟩ | ⟨c₁, hdropped⟩
      · rw [hend] at hloop ⊢
        exact hloop
      · rw [happlied] at hloop ⊢
        split at hloop
        · cases hloop
        · rw [if_neg Bool.false_ne_true]
          exact ih hloop
      · rw [hdropped] at hloop ⊢
        exact ih hloop

/-- Only the clock stops the loop. -/
theorem exists_proposeLoop (lib : Library) (lcl : Closed) (rt : Runtime) (i : ℕ)
    (txs : List TransactionEnv) (ids : TxIds) (c : LedgerContext) :
    ∃ ids' c', proposeLoop lib lcl { rt with timedOut := fun _ => false } i txs ids c =
      (some ids', c') := by
  induction txs generalizing i ids c with
  | nil => exact ⟨ids, c, rfl⟩
  | cons env txs ih =>
      rcases proposeLoop_step lib lcl rt i env txs ids c with
        ⟨-, hend⟩ | ⟨status, c₁, happlied⟩ | ⟨c₁, hdropped⟩
      · exact ⟨ids, c, hend _⟩
      · rw [happlied, if_neg Bool.false_ne_true]
        exact ih ..
      · rw [hdropped]
        exact ih ..

/-- A transaction that is dropped is one of those that the loop goes through. -/
theorem mem_dropped_proposeLoop (hloop : proposeLoop lib lcl { rt with timedOut := fun _ => false }
      i txs ids c = (some ids', c')) {id : ℤ} (hid : id ∈ ids'.dropped) :
    id ∈ ids.dropped ∨ (i : ℤ) ≤ id ∧ id < i + txs.length := by
  induction txs generalizing i ids c with
  | nil =>
      obtain ⟨hids, -⟩ := Prod.mk.inj hloop
      exact .inl (Option.some.inj hids ▸ hid)
  | cons env txs ih =>
      rw [List.length_cons]
      rcases proposeLoop_step lib lcl rt i env txs ids c with
        ⟨-, hend⟩ | ⟨status, c₁, happlied⟩ | ⟨c₁, hdropped⟩
      · rw [hend] at hloop
        obtain ⟨hids, -⟩ := Prod.mk.inj hloop
        exact .inl (Option.some.inj hids ▸ hid)
      · rw [happlied, if_neg Bool.false_ne_true] at hloop
        rcases ih hloop with hold | hnew
        · rw [TxIds.dropped_note] at hold
          exact .inl hold
        · exact .inr (by push_cast at hnew ⊢; omega)
      · rw [hdropped] at hloop
        rcases ih hloop with hold | hnew
        · rcases Finset.mem_insert.mp hold with rfl | hold
          · exact .inr (by push_cast; omega)
          · exact .inl hold
        · exact .inr (by push_cast at hnew ⊢; omega)

theorem subset_dropped_proposeLoop (hloop : proposeLoop lib lcl
      { rt with timedOut := fun _ => false } i txs ids c = (some ids', c')) :
    ids.dropped ⊆ ids'.dropped := by
  induction txs generalizing i ids c with
  | nil =>
      obtain ⟨hids, -⟩ := Prod.mk.inj hloop
      rw [Option.some.inj hids]
  | cons env txs ih =>
      rcases proposeLoop_step lib lcl rt i env txs ids c with
        ⟨-, hend⟩ | ⟨status, c₁, happlied⟩ | ⟨c₁, hdropped⟩
      · rw [hend] at hloop
        obtain ⟨hids, -⟩ := Prod.mk.inj hloop
        rw [Option.some.inj hids]
      · rw [happlied, if_neg Bool.false_ne_true] at hloop
        have hrest := ih hloop
        rwa [TxIds.dropped_note] at hrest
      · rw [hdropped] at hloop
        exact (Finset.subset_insert _ _).trans (ih hloop)

/-- **When the clock stops the loop**: at a transaction that is applied. -/
theorem proposeLoop_stopped_iff (henabled : ∀ i, rt.enabled i = true) {clock : ℕ → Bool}
    (hbefore : ∀ id ∈ ids.dropped, id < i)
    (hloop : proposeLoop lib lcl { rt with timedOut := fun _ => false } i txs ids c =
      (some ids', c')) :
    (proposeLoop lib lcl { rt with timedOut := clock } i txs ids c).1 = none ↔
      ∃ j, i ≤ j ∧ j < i + txs.length ∧ (j : ℤ) ∉ ids'.dropped ∧ clock j = true := by
  induction txs generalizing i ids c with
  | nil =>
      refine iff_of_false (fun hnone => by cases hnone) ?_
      rintro ⟨j, hle, hlt, -⟩
      rw [List.length_nil] at hlt
      omega
  | cons env txs ih =>
      rw [List.length_cons]
      rcases proposeLoop_step lib lcl rt i env txs ids c with
        ⟨hoff, -⟩ | ⟨status, c₁, happlied⟩ | ⟨c₁, hdropped⟩
      · rw [henabled] at hoff
        cases hoff
      · rw [happlied, if_neg Bool.false_ne_true] at hloop
        rw [happlied]
        have hkept : (i : ℤ) ∉ ids'.dropped := by
          intro hmem
          rcases mem_dropped_proposeLoop hloop hmem with hold | ⟨hle, -⟩
          · rw [TxIds.dropped_note] at hold
            exact lt_irrefl _ (hbefore i hold)
          · push_cast at hle
            omega
        cases hclock : clock i with
        | true => exact iff_of_true rfl ⟨i, le_rfl, by omega, hkept, hclock⟩
        | false =>
            rw [if_neg Bool.false_ne_true, ih ?_ hloop]
            · constructor
              · rintro ⟨j, hle, hlt, hj⟩
                exact ⟨j, by omega, by omega, hj⟩
              · rintro ⟨j, hle, hlt, hj⟩
                rcases hle.eq_or_lt with rfl | hlt'
                · rw [hclock] at hj
                  cases hj.2
                · exact ⟨j, hlt', by omega, hj⟩
            · intro id hid
              rw [TxIds.dropped_note] at hid
              have := hbefore id hid
              push_cast
              omega
      · rw [hdropped] at hloop
        rw [hdropped, ih ?_ hloop]
        · have hmem := subset_dropped_proposeLoop hloop (Finset.mem_insert_self _ _)
          constructor
          · rintro ⟨j, hle, hlt, hj⟩
            exact ⟨j, by omega, by omega, hj⟩
          · rintro ⟨j, hle, hlt, hj⟩
            rcases hle.eq_or_lt with rfl | hlt'
            · exact absurd hmem hj.1
            · exact ⟨j, hlt', by omega, hj⟩
        · intro id hid
          rcases Finset.mem_insert.mp hid with rfl | hid
          · push_cast
            omega
          · have := hbefore id hid
            push_cast
            omega

theorem checkLoop_clock {clock : ℕ → Bool}
    (hloop : checkLoop lib lcl { rt with timedOut := clock } i txs ids c = (some ids', c')) :
    checkLoop lib lcl { rt with timedOut := fun _ => false } i txs ids c = (some ids', c') := by
  induction txs generalizing i ids c with
  | nil => exact hloop
  | cons env txs ih =>
      unfold checkLoop at hloop ⊢
      dsimp only at hloop ⊢
      split at hloop
      · rename_i hoff
        rw [if_pos hoff]
        exact hloop
      · rename_i hon
        rw [if_neg hon]
        split at hloop
        · split at hloop
          · split at hloop
            · simp at hloop
            · rw [if_neg (by decide)]
              exact ih hloop
          · simp at hloop
        · simp at hloop

end LedgerFrm

/-- A context that was completed holds the result of a run that is not held up. -/
theorem CompletedContext.run_clock {lib : Library} {lcl : Closed} {rt : Runtime}
    {clock : ℕ → Bool} {value : ConsensusValue} {propose : Bool}
    (hexec : (run lib lcl { rt with timedOut := clock } value propose).execResult = true) :
    run lib lcl { rt with timedOut := clock } value propose =
      run lib lcl { rt with timedOut := fun _ => false } value propose := by
  unfold run at hexec ⊢
  cases propose with
  | true =>
      have haccepted : (applyPropose lib lcl { rt with timedOut := clock } value).accepted = true :=
        hexec
      rw [if_pos rfl, if_pos rfl]
      unfold applyPropose at haccepted ⊢
      split
      · rfl
      · rename_i hnone
        rw [if_neg hnone] at haccepted
        rcases hloop : proposeLoop lib lcl { rt with timedOut := clock } 0 value.txset {} {} with
          ⟨_ | ids, c⟩
        · rw [hloop] at haccepted
          cases haccepted
        · have hclock := proposeLoop_clock hloop
          have hdropped := droppedBy_of_proposeLoop hloop
          have hdropped' := droppedBy_of_proposeLoop hclock
          rw [hclock]
          dsimp only at hdropped hdropped' ⊢
          rw [hdropped, hdropped']
  | false =>
      have haccepted : (applyCheck lib lcl { rt with timedOut := clock } value).accepted = true :=
        hexec
      have heq : applyCheck lib lcl { rt with timedOut := clock } value =
          applyCheck lib lcl { rt with timedOut := fun _ => false } value := by
        unfold applyCheck at haccepted ⊢
        split
        · rfl
        · rename_i hvalue
          rw [hvalue] at haccepted
          dsimp only at haccepted
          rcases hloop : checkLoop lib lcl { rt with timedOut := clock } 0 value.txset {} {} with
            ⟨_ | ids, c⟩
          · rw [hloop] at haccepted
            cases haccepted
          · rw [checkLoop_clock hloop]
      rw [if_neg Bool.false_ne_true, if_neg Bool.false_ne_true, heq]

/-! ## What the manager holds -/

namespace LedgerContextManager

variable {H : Type} [LE H] [DecidableLE H] [DecidableEq H]
variable {lib : Library} {lcl : Closed} {rt : Runtime} {crypto : ConsensusValue → H}
  {m : LedgerContextManager H}

/-- The runtime of a call that is not held up. -/
abbrev inTime (rt : Runtime) : Runtime :=
  { rt with timedOut := fun _ => false }

/-- Every context is stored under the hash of its value and holds what an execution
in its mode has found. -/
def Holds (lib : Library) (lcl : Closed) (rt : Runtime) (crypto : ConsensusValue → H)
    (m : LedgerContextManager H) : Prop :=
  ∀ chash context, (chash, context) ∈ m.completedCtxs →
    chash = crypto context.consensusValue ∧ context.proposeResult.execResult = true ∧
      context.proposeResult =
        CompletedContext.run lib lcl (inTime rt) context.consensusValue context.propose

theorem holds_syncPreProcess (hm : Holds lib lcl rt crypto m) (timing : Timing)
    (value : ConsensusValue) (propose : Bool) (proposeResult : ProposeTxsResult) :
    Holds lib lcl rt crypto
      (syncPreProcess lib lcl rt crypto timing value propose proposeResult m).2.2 := by
  have hmoved : ∀ result, result = CompletedContext.run lib lcl
      { rt with timedOut := timing.timedOut } value propose →
      Holds lib lcl rt crypto (if result.execResult then
        m.moveRunningToComplete (crypto value) ⟨value, propose, result⟩ else m) := by
    rintro result hresult
    split
    · rename_i hexec
      intro chash context hmem
      rcases OrderedMap.mem_insertNew hmem with heq | hold
      · obtain ⟨rfl, rfl⟩ := Prod.mk.inj heq
        refine ⟨rfl, hexec, ?_⟩
        rw [hresult] at hexec ⊢
        exact CompletedContext.run_clock hexec
      · exact hm chash context hold
    · exact hm
  dsimp only [syncPreProcess]
  split
  · exact hm
  · split
    · exact hm
    · generalize (if timing.waited = true then _ else _) = proposeResult'
      split
      · exact hmoved _ rfl
      · exact hmoved _ rfl

/-- **The stored contexts**, after any history of calls. -/
theorem holds_run (lib : Library) (lcl : Closed) (rt : Runtime) (crypto : ConsensusValue → H)
    (calls : List Call) : Holds lib lcl rt crypto (run lib lcl rt crypto calls) := by
  refine List.foldlRecOn calls (step lib lcl rt crypto) ?_ fun m hm call _ => ?_
  · intro chash context hmem
    cases hmem
  · cases call with
    | syncPreProcess timing value propose proposeResult =>
        exact holds_syncPreProcess hm timing value propose proposeResult
    | removeCompleted ledgerSeq =>
        intro chash context hmem
        exact hm chash context (List.mem_of_mem_filter hmem)

/-! ## Answers from the cache -/

/-- A call that finds a context answers yes and leaves the caller's result alone. -/
theorem answer_of_stored (hm : Holds lib lcl rt crypto m) {value : ConsensusValue}
    {context : CompletedContext} (hstored : m.completedCtxs.lookup (crypto value) = some context)
    (timing : Timing) (propose : Bool) (r : ProposeTxsResult) :
    answer (syncPreProcess lib lcl rt crypto timing value propose r m) =
      (true, r.needDroppedTx, r.consValidation) := by
  have hexec := (hm _ _ (OrderedMap.mem_of_lookup hstored)).2.1
  have hcomplete : checkComplete m (crypto value) = 1 := by
    rw [checkComplete, hstored]
    exact if_pos hexec
  dsimp only [syncPreProcess]
  rw [hcomplete, if_pos Int.one_pos]
  rfl

/-- A call that finds none executes the value. -/
theorem answer_of_none {value : ConsensusValue}
    (hnone : m.completedCtxs.lookup (crypto value) = none) (propose : Bool)
    (r : ProposeTxsResult) :
    answer (syncPreProcess lib lcl rt crypto .prompt value propose r m) =
      if r.blockTimeout then (false, r.needDroppedTx, r.consValidation)
      else
        let result := CompletedContext.run lib lcl (inTime rt) value propose
        (result.execResult, result.needDroppedTx, result.consValidation) := by
  have hcomplete : checkComplete m (crypto value) = -1 := by
    rw [checkComplete, hnone]
  dsimp only [syncPreProcess]
  rw [hcomplete, if_neg (by decide), if_neg (by decide)]
  simp only [Timing.prompt, Bool.false_eq_true, if_false]
  split <;> rfl

end LedgerContextManager

/-- No transaction was dropped, expired or failed. -/
def ProposeTxsResult.Clean (r : ProposeTxsResult) : Prop :=
  r.needDroppedTx = ∅ ∧ r.consValidation = {}

namespace CompletedContext

variable {lib : Library} {lcl : Closed} {rt : Runtime} {value : ConsensusValue}

theorem setValidationToProto_eq_empty_iff {expireTxs errorTxs : Finset ℤ} :
    setValidationToProto expireTxs errorTxs = {} ↔ expireTxs = ∅ ∧ errorTxs = ∅ := by
  have hsort : ∀ ids : Finset ℤ, ids.sort (· ≤ ·) = [] ↔ ids = ∅ := by
    intro ids
    rw [← Finset.card_eq_zero, ← Finset.length_sort (· ≤ ·), List.length_eq_zero_iff]
  rw [setValidationToProto, ConsensusValueValidation.mk.injEq, hsort, hsort]

/-- A run that is not stopped reports the ids of `ApplyPropose`. -/
theorem needDroppedTx_run_propose (htime : ∀ i, rt.timedOut i = false) :
    (run lib lcl rt value true).needDroppedTx = (applyPropose lib lcl rt value).ids.dropped := by
  have hrt : rt = { rt with timedOut := fun _ => false } := by rw [← funext htime]
  unfold run applyPropose
  rw [if_pos rfl]
  dsimp only
  split
  · rfl
  · obtain ⟨ids, c, hloop⟩ := exists_proposeLoop lib lcl rt 0 value.txset {} {}
    rw [← hrt] at hloop
    have hdropped := droppedBy_of_proposeLoop hloop
    rw [hloop]
    exact hdropped

theorem clean_run_propose (htime : ∀ i, rt.timedOut i = false) :
    (run lib lcl rt value true).Clean ↔ (applyPropose lib lcl rt value).ids.None := by
  rw [ProposeTxsResult.Clean, needDroppedTx_run_propose htime]
  exact and_congr Iff.rfl setValidationToProto_eq_empty_iff

theorem clean_run_check : (run lib lcl rt value false).Clean :=
  ⟨rfl, rfl⟩

/-- Only a value without a validation can be proposed. -/
theorem validation_of_run_propose (hexec : (run lib lcl rt value true).execResult = true) :
    value.validation = none := by
  by_contra hsome
  have haccepted : (applyPropose lib lcl rt value).accepted = true := hexec
  rw [applyPropose, if_pos hsome] at haccepted
  cases haccepted

/-- The two modes of a value without a validation. -/
theorem execResult_check_iff (henabled : ∀ i, rt.enabled i = true)
    (htime : ∀ i, rt.timedOut i = false) (hvalue : value.validation = none) :
    (run lib lcl rt value false).execResult = true ↔
      (run lib lcl rt value true).execResult = true ∧ (run lib lcl rt value true).Clean := by
  rw [clean_run_propose htime]
  exact applyCheck_iff_applyPropose henabled htime hvalue

/-- A yes with these sets is what an execution in this mode says, when one in the
stored mode has succeeded. -/
theorem answer_run_iff (henabled : ∀ i, rt.enabled i = true) (htime : ∀ i, rt.timedOut i = false)
    {stored : Bool} (hexec : (run lib lcl rt value stored).execResult = true) (propose : Bool)
    (dropped : Finset ℤ) (validation : ConsensusValueValidation) :
    (true, dropped, validation) = ((run lib lcl rt value propose).execResult,
        (run lib lcl rt value propose).needDroppedTx,
        (run lib lcl rt value propose).consValidation) ↔
      dropped = (run lib lcl rt value stored).needDroppedTx ∧
        validation = (run lib lcl rt value stored).consValidation ∧
        (stored = propose ∨ (run lib lcl rt value stored).Clean ∧ value.validation = none) := by
  obtain ⟨hdropped, hvalidation⟩ := @clean_run_check lib lcl rt value
  rw [Prod.mk.injEq, Prod.mk.injEq]
  cases stored with
  | true =>
      have hvalue := validation_of_run_propose hexec
      cases propose with
      | true => simp [hexec]
      | false =>
          rw [eq_comm, execResult_check_iff henabled htime hvalue, hdropped, hvalidation]
          constructor
          · rintro ⟨⟨-, hclean⟩, rfl, rfl⟩
            exact ⟨hclean.1.symm, hclean.2.symm, .inr ⟨hclean, hvalue⟩⟩
          · rintro ⟨rfl, rfl, hmode | ⟨hclean, -⟩⟩
            · cases hmode
            · exact ⟨⟨hexec, hclean⟩, hclean.1, hclean.2⟩
  | false =>
      cases propose with
      | true =>
          rw [hdropped, hvalidation]
          constructor
          · rintro ⟨hpropose, rfl, rfl⟩
            have hvalue := validation_of_run_propose hpropose.symm
            have hclean := ((execResult_check_iff henabled htime hvalue).mp hexec).2
            exact ⟨hclean.1, hclean.2, .inr ⟨clean_run_check, hvalue⟩⟩
          · rintro ⟨rfl, rfl, hmode | ⟨-, hvalue⟩⟩
            · cases hmode
            · obtain ⟨hpropose, hclean⟩ := (execResult_check_iff henabled htime hvalue).mp hexec
              exact ⟨hpropose.symm, hclean.1.symm, hclean.2.symm⟩
      | false => simp [hexec]

end CompletedContext

namespace LedgerContextManager

variable {H : Type} [LE H] [DecidableLE H] [DecidableEq H]
variable {lib : Library} {lcl : Closed} {rt : Runtime} {crypto : ConsensusValue → H}

/-- **When the cache is transparent.**  After any history of calls on one closed
ledger, a call answers as it would with nothing stored exactly when no context is
stored for its value, or the caller's result holds the sets of the stored context
already and that context is of the same mode, or of a value without a validation
and with nothing to note. -/
theorem answer_syncPreProcess_iff (henabled : ∀ i, rt.enabled i = true) (calls : List Call)
    (value : ConsensusValue)
    (hcrypto : ∀ entry ∈ (run lib lcl rt crypto calls).completedCtxs,
      crypto entry.2.consensusValue = crypto value → entry.2.consensusValue = value)
    (propose : Bool) (r : ProposeTxsResult) :
    let m := run lib lcl rt crypto calls
    answer (syncPreProcess lib lcl rt crypto .prompt value propose r m) =
        answer (syncPreProcess lib lcl rt crypto .prompt value propose r {}) ↔
      ∀ context, m.completedCtxs.lookup (crypto value) = some context →
        r.blockTimeout = false ∧ r.needDroppedTx = context.proposeResult.needDroppedTx ∧
          r.consValidation = context.proposeResult.consValidation ∧
          (context.propose = propose ∨
            context.proposeResult.Clean ∧ value.validation = none) := by
  intro m
  have hm : Holds lib lcl rt crypto m := holds_run lib lcl rt crypto calls
  have hfresh := @answer_of_none H _ _ _ lib lcl rt crypto {} value rfl propose r
  rcases hlookup : m.completedCtxs.lookup (crypto value) with _ | context
  · rw [answer_of_none hlookup, hfresh]
    simp
  · have hmem := OrderedMap.mem_of_lookup hlookup
    obtain ⟨hhash, hexec, hresult⟩ := hm _ _ hmem
    obtain rfl : context.consensusValue = value := hcrypto _ hmem hhash.symm
    rw [answer_of_stored hm hlookup, hfresh]
    simp only [Option.some.injEq, forall_eq']
    cases htimeout : r.blockTimeout with
    | true => simp
    | false =>
        rw [hresult] at hexec
        have hiff := @CompletedContext.answer_run_iff lib lcl (inTime rt) _ henabled (fun _ => rfl)
          _ hexec propose r.needDroppedTx r.consValidation
        rw [← hresult] at hiff
        simpa using hiff

/-! ## A value that is executed twice -/

/-- A payment that goes through and, on demand, one with a wrong nonce. -/
def twoPayments (spoilt : Bool) : ConsensusValue where
  txset := payment payerAddress callerAddress 5 1 ::
    if spoilt then [payment payerAddress callerAddress 5 7] else []
  ledgerSeq := 2

/-- Two values of this kind differ in the number of their transactions. -/
def sampleCrypto (value : ConsensusValue) : ℕ :=
  value.txset.length

/-- The value is proposed once, in time. -/
def proposedOnce (value : ConsensusValue) : List Call :=
  [.syncPreProcess .prompt value true {}]

/-- With nothing to note a second proposal answers as the first. -/
theorem answer_twoPayments :
    let m := run sampleLibrary sampleClosed (payingOut payerAddress) sampleCrypto
      (proposedOnce (twoPayments false))
    answer (syncPreProcess sampleLibrary sampleClosed (payingOut payerAddress) sampleCrypto
        .prompt (twoPayments false) true {} m) =
      answer (syncPreProcess sampleLibrary sampleClosed (payingOut payerAddress) sampleCrypto
        .prompt (twoPayments false) true {} {}) := by
  refine (answer_syncPreProcess_iff (fun _ => rfl) (proposedOnce (twoPayments false))
    (twoPayments false) ?_ true {}).mpr ?_
  · decide +kernel
  · have hlookup : (run sampleLibrary sampleClosed (payingOut payerAddress) sampleCrypto
        (proposedOnce (twoPayments false))).completedCtxs.lookup
          (sampleCrypto (twoPayments false)) =
        some ⟨twoPayments false, true, { execResult := true }⟩ := by decide +kernel
    intro context hcontext
    obtain rfl := Option.some.inj (hlookup.symm.trans hcontext)
    exact ⟨rfl, rfl, rfl, .inl rfl⟩

/-- With a transaction to drop a second proposal names none, and a check accepts
what it refuses without the cache. -/
theorem answer_twoPayments_differs :
    let m := run sampleLibrary sampleClosed (payingOut payerAddress) sampleCrypto
      (proposedOnce (twoPayments true))
    answer (syncPreProcess sampleLibrary sampleClosed (payingOut payerAddress) sampleCrypto
          .prompt (twoPayments true) true {} m) = (true, ∅, {}) ∧
      answer (syncPreProcess sampleLibrary sampleClosed (payingOut payerAddress) sampleCrypto
          .prompt (twoPayments true) true {} {}) = (true, {1}, {}) ∧
      answer (syncPreProcess sampleLibrary sampleClosed (payingOut payerAddress) sampleCrypto
          .prompt (twoPayments true) false {} m) = (true, ∅, {}) ∧
      answer (syncPreProcess sampleLibrary sampleClosed (payingOut payerAddress) sampleCrypto
          .prompt (twoPayments true) false {} {}) = (false, ∅, {}) := by
  decide +kernel

end LedgerContextManager

end CegChain
