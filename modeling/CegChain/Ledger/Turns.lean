import CegChain.Ledger.Chain

/-!
# A block, transaction by transaction

The loops of `ApplyPropose`, `ApplyCheck` and `ApplyFollow` leave a context and sets of
ids.  `turns` lists what they did: each transaction that came up with the states before
and after it and with what became of it.  The list is one recursion for the three, which
differ in whether a transaction is validated, in which of them are applied, and in when
they stop; `lastState_turns` says that its last state is the one the loop leaves.
-/

namespace CegChain

open Layers AtomMap

/-- The three ways in which a node executes a block. -/
inductive Mode where
  | propose
  | check
  | follow
  deriving DecidableEq, Repr

/-- A transaction that came up: what became of it, absent when it was not charged, and the
states before and after it. -/
structure Turn where
  env : TransactionEnv
  before : LedgerContext
  status : Option LedgerFrm.TxStatus
  after : LedgerContext

/-- The state in which the turns have ended. -/
def lastState (c : LedgerContext) (turns : List Turn) : LedgerContext :=
  turns.foldl (fun _ turn => turn.after) c

namespace LedgerFrm

variable (lib : Library) (lcl : Closed)

/-- Whether the transaction comes to `PayFee`: a follower does not validate it. -/
def admitted (mode : Mode) (env : TransactionEnv) (c : LedgerContext) : Bool × LedgerContext :=
  match mode with
  | .follow => (true, c)
  | _ =>
      let r := TransactionFrm.validForApply lib lcl env 0 c
      (decide (r.1 = .success), r.2)

/-- What a loop does with a transaction. -/
def turn (mode : Mode) (rt : Runtime) (listed : Bool) (env : TransactionEnv) (c : LedgerContext) :
    Option TxStatus × LedgerContext :=
  match admitted lib lcl mode env c with
  | (false, c) => (none, c)
  | (true, c) =>
      match TransactionFrm.payFee lcl env 0 c with
      | (false, c) => (none, c)
      | (true, c) =>
          let r :=
            match mode with
            | .follow => followCharged lib lcl rt listed env c
            | _ => applyCharged lib lcl rt env c
          (some r.1, r.2)

/-- Whether the loop ends after this transaction, although more may follow. -/
def stopsAfter (rt : Runtime) (i : ℕ) (status : Option TxStatus) : Mode → Bool
  | .propose => status.isSome && rt.timedOut i
  | .check => status.isNone || rt.timedOut i
  | .follow => false

/-- The transactions that come up in a loop. -/
def turns (mode : Mode) (rt : Runtime) (expireTxs : Finset ℤ) :
    ℕ → List TransactionEnv → LedgerContext → List Turn
  | _, [], _ => []
  | i, env :: txs, c =>
      if rt.enabled i = false then []
      else
        let r := turn lib lcl mode rt (decide ((i : ℤ) ∈ expireTxs)) env c
        ⟨env, c, r.1, r.2⟩ :: if stopsAfter rt i r.1 mode then []
          else turns mode rt expireTxs (i + 1) txs r.2

/-! ## The loops -/

variable {lib lcl} {rt : Runtime} {env : TransactionEnv} {c c₁ : LedgerContext}

/-- A turn is followed by the turns of the rest. -/
theorem lastState_turns_cons {mode : Mode} {expireTxs : Finset ℤ} {i : ℕ}
    (henabled : ¬rt.enabled i = false) (env : TransactionEnv) (txs : List TransactionEnv)
    (c : LedgerContext) :
    lastState c (turns lib lcl mode rt expireTxs i (env :: txs) c) =
      let r := turn lib lcl mode rt (decide ((i : ℤ) ∈ expireTxs)) env c
      if stopsAfter rt i r.1 mode then r.2
      else lastState r.2 (turns lib lcl mode rt expireTxs (i + 1) txs r.2) := by
  rw [turns, if_neg henabled]
  dsimp only [lastState]
  rw [List.foldl_cons]
  split <;> rfl

theorem lastState_proposeLoop (i : ℕ) (txs : List TransactionEnv) (ids : TxIds)
    (c : LedgerContext) (expireTxs : Finset ℤ) :
    (proposeLoop lib lcl rt i txs ids c).2 =
      lastState c (turns lib lcl .propose rt expireTxs i txs c) := by
  induction txs generalizing i ids c with
  | nil => rfl
  | cons env txs ih =>
      by_cases henabled : rt.enabled i = false
      · rw [proposeLoop, turns, if_pos henabled, if_pos henabled]
        rfl
      · rw [lastState_turns_cons henabled, proposeLoop, if_neg henabled]
        rcases hvalid : TransactionFrm.validForApply lib lcl env 0 c with ⟨code, c₁⟩
        by_cases hcode : code = .success
        · subst hcode
          rcases hpay : TransactionFrm.payFee lcl env 0 c₁ with ⟨_ | _, c₂⟩
          · simp only [turn, admitted, hvalid, hpay, stopsAfter, decide_true]
            exact ih ..
          · simp only [turn, admitted, hvalid, hpay, stopsAfter, decide_true, Option.isSome_some,
              Bool.true_and]
            split
            · rfl
            · exact ih ..
        · have hturn : turn lib lcl .propose rt (decide ((i : ℤ) ∈ expireTxs)) env c =
              (none, c₁) := by
            simp [turn, admitted, hvalid, hcode]
          rw [hturn]
          split
          · rename_i heq
            exact absurd (Prod.mk.inj heq).1 hcode
          · rename_i c₂ _ heq
            obtain rfl : c₁ = c₂ := (Prod.mk.inj heq).2
            exact ih ..

theorem lastState_checkLoop (i : ℕ) (txs : List TransactionEnv) (ids : TxIds)
    (c : LedgerContext) (expireTxs : Finset ℤ) :
    (checkLoop lib lcl rt i txs ids c).2 =
      lastState c (turns lib lcl .check rt expireTxs i txs c) := by
  induction txs generalizing i ids c with
  | nil => rfl
  | cons env txs ih =>
      by_cases henabled : rt.enabled i = false
      · rw [checkLoop, turns, if_pos henabled, if_pos henabled]
        rfl
      · rw [lastState_turns_cons henabled, checkLoop, if_neg henabled]
        rcases hvalid : TransactionFrm.validForApply lib lcl env 0 c with ⟨code, c₁⟩
        by_cases hcode : code = .success
        · subst hcode
          rcases hpay : TransactionFrm.payFee lcl env 0 c₁ with ⟨_ | _, c₂⟩
          · simp [turn, admitted, hvalid, hpay, stopsAfter]
          · simp only [turn, admitted, hvalid, hpay, stopsAfter, decide_true, Option.isNone_some,
              Bool.false_or]
            split
            · rfl
            · exact ih ..
        · have hturn : turn lib lcl .check rt (decide ((i : ℤ) ∈ expireTxs)) env c =
              (none, c₁) := by
            simp [turn, admitted, hvalid, hcode]
          rw [hturn]
          split
          · rename_i heq
            exact absurd (Prod.mk.inj heq).1 hcode
          · rename_i c₂ _ heq
            obtain rfl : c₁ = c₂ := (Prod.mk.inj heq).2
            rfl

theorem lastState_followLoop (expireTxs : Finset ℤ) (i : ℕ) (txs : List TransactionEnv)
    (ids : TxIds) (c : LedgerContext) :
    (followLoop lib lcl rt expireTxs i txs ids c).2 =
      lastState c (turns lib lcl .follow rt expireTxs i txs c) := by
  induction txs generalizing i ids c with
  | nil => rfl
  | cons env txs ih =>
      by_cases henabled : rt.enabled i = false
      · rw [followLoop, turns, if_pos henabled, if_pos henabled]
        rfl
      · rw [lastState_turns_cons henabled, followLoop, if_neg henabled]
        rcases hpay : TransactionFrm.payFee lcl env 0 c with ⟨_ | _, c₁⟩
        · simp only [turn, admitted, hpay, stopsAfter]
          exact ih ..
        · simp only [turn, admitted, hpay, stopsAfter]
          exact ih ..

end LedgerFrm

/-! ## Blocks -/

/-- A block and the way in which it was executed. -/
structure Executed extends Block where
  mode : Mode

namespace Executed

variable (lib : Library) (b : Executed)

/-- What `ApplyPropose`, `ApplyCheck` or `ApplyFollow` leaves of the block. -/
def applied : LedgerFrm.Applied :=
  match b.mode with
  | .propose => LedgerFrm.applyPropose lib b.lcl b.rt b.value
  | .check => LedgerFrm.applyCheck lib b.lcl b.rt b.value
  | .follow => LedgerFrm.applyFollow lib b.lcl b.rt b.value

/-- The transactions of the block that came up. -/
def turns : List Turn :=
  LedgerFrm.turns lib b.lcl b.mode b.rt
    (((LedgerFrm.checkConsValueValidation b.value).map Prod.fst).getD ∅) 0 b.value.txset {}

/-- The tree that the block leaves. -/
def treeAfter : Table (Option Bytes) AccountFrm :=
  LedgerFrm.commit b.lcl (b.applied lib).context

variable {lib b}

/-- An accepted block ends with the rewards, after its last turn. -/
theorem rewarded_of_accepted (haccepted : (b.applied lib).accepted = true) :
    ((b.applied lib).rewarded, (b.applied lib).context) =
      Prod.map some id
        (LedgerFrm.allocateReward b.lcl b.value.ledgerSeq (lastState {} (b.turns lib))) := by
  unfold applied turns at *
  cases hmode : b.mode with
  | propose =>
      rw [hmode] at haccepted
      dsimp only [LedgerFrm.applyPropose] at haccepted ⊢
      split at haccepted
      · cases haccepted
      · rename_i hvalidation
        rw [if_neg hvalidation, ← LedgerFrm.lastState_proposeLoop 0 b.value.txset {} {}]
        rcases hloop : LedgerFrm.proposeLoop lib b.lcl b.rt 0 b.value.txset {} {} with
          ⟨_ | ids, c⟩
        · rw [hloop] at haccepted
          cases haccepted
        · rfl
  | check =>
      rw [hmode] at haccepted
      dsimp only [LedgerFrm.applyCheck] at haccepted ⊢
      split at haccepted
      · cases haccepted
      · rw [← LedgerFrm.lastState_checkLoop 0 b.value.txset {} {}]
        rcases hloop : LedgerFrm.checkLoop lib b.lcl b.rt 0 b.value.txset {} {} with
          ⟨_ | ids, c⟩
        · rw [hloop] at haccepted
          cases haccepted
        · rfl
  | follow =>
      rw [hmode] at haccepted
      dsimp only [LedgerFrm.applyFollow] at haccepted ⊢
      split at haccepted
      · cases haccepted
      · rename_i expireTxs errorTxs hvalidation
        rw [hvalidation]
        dsimp only
        rw [Option.map_some, Option.getD_some,
          ← LedgerFrm.lastState_followLoop expireTxs 0 b.value.txset {} {}]
        rfl

theorem context_of_accepted (haccepted : (b.applied lib).accepted = true) :
    (b.applied lib).context =
      (LedgerFrm.allocateReward b.lcl b.value.ledgerSeq (lastState {} (b.turns lib))).2 :=
  congrArg Prod.snd (rewarded_of_accepted haccepted)

end Executed

end CegChain
