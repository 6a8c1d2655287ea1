import CegChain.Ledger.CallTree

/-!
# What a failed transaction costs

`LedgerFrm::ApplyCheck` has no undo log.  A transaction is charged, the charge is
committed, and a transaction that then fails or expires is taken back by clearing
one buffer, that of the root.  This is enough because whatever the transaction did,
through its operations or the contracts it reached, stayed above the committed data
(`beneath_execute_charge`), and because the commit of the charge has left the buffer
empty.
-/

namespace CegChain

open Layers AtomMap

namespace LedgerFrm

variable {lib : Library} {lcl : Closed} {rt : Runtime} {env : TransactionEnv} {c : LedgerContext}

/-- What the loop keeps between two transactions. -/
structure Standing (lcl : Closed) (c : LedgerContext) : Prop where
  wide : c.Wide
  rested : Rested lcl c

theorem Standing.rooted (hstanding : Standing lcl c) : Rooted c :=
  ⟨hstanding.wide.two_le, hstanding.rested.wide⟩

theorem clearOn_commitOn {K V : Type*} [DecidableEq K] {tables : List (Map K V)}
    (hlength : tables.length ≤ 2) :
    clearOn 0 ((commitOn 0 tables).drop ((commitOn 0 tables).length - 2)) =
      commitOn 0 tables := by
  rcases tables with _ | ⟨buff, _ | ⟨data, _ | ⟨table, rest⟩⟩⟩
  · rfl
  · rfl
  · rfl
  · simp at hlength

/-- A commit leaves nothing in the buffer of the root. -/
theorem clearChangeBuf_commit (c : LedgerContext) :
    ((c.commit 0).clearChangeBuf 0).environment = (c.commit 0).environment := by
  have haccounts : (c.environment.enter 0).accounts.length ≤ 2 := by
    show (c.environment.accounts.drop _).length ≤ 2
    rw [List.length_drop]
    omega
  have hsettings : (c.environment.enter 0).settings.length ≤ 2 := by
    show (c.environment.settings.drop _).length ≤ 2
    rw [List.length_drop]
    omega
  exact congrArg₂ EnvStack.mk (clearOn_commitOn haccounts) (clearOn_commitOn hsettings)

/-- **What is taken back is everything but the charge.** -/
theorem environment_applyCharged (hrooted : Rooted c)
    (hfailed : (applyCharged lib lcl rt env c).1 ≠ .succeeded) :
    (applyCharged lib lcl rt env c).2.environment = (charge lcl env c).environment ∧
      (applyCharged lib lcl rt env c).2.totalFee = (charge lcl env c).totalFee := by
  have hclear : ((charge lcl env c).clearChangeBuf 0).environment =
      (charge lcl env c).environment :=
    clearChangeBuf_commit (TransactionFrm.nonceIncrease lcl env 0 (c.push { env := env }))
  have hfee := (@beneath_execute_charge lcl lib rt env c).totalFee
  have hsettle :=
    (@environment_settle_none lcl c hrooted lib rt env c.transactionStack.length).trans hclear
  dsimp only [applyCharged] at hfailed ⊢
  split at hfailed
  · rename_i hexpired
    rw [if_pos hexpired]
    exact ⟨hsettle, hfee⟩
  · rename_i hexpired
    rw [if_neg hexpired]
    split at hfailed
    · rename_i hcode
      rw [if_pos hcode]
      exact ⟨hsettle, hfee⟩
    · exact absurd rfl hfailed

end LedgerFrm

end CegChain
