import CegChain.Ledger.Effects

/-!
# Charging a transaction

The way of a transaction up to the first commit: `ValidForApply` accepts it,
`PayFee` takes the fee limit, the nonce of its source grows.  All three go through
the pointer to the source account, so what they do is said by following it.
-/

namespace CegChain

open Layers AtomMap

/-- The account that a block with this committed data shows for an address. -/
abbrev shown (lcl : Closed) (data : Map Address AccountFrm) (address : Address) :
    Option AccountFrm :=
  view Record.value? lcl.accountFromDB [data] address

namespace LedgerContext

/-- The root of the block is there, and was there at every read. -/
structure Wide (c : LedgerContext) : Prop where
  two_le : 2 ≤ c.environment.accounts.length
  reads : ∀ tables address, Mark.read tables address ∈ c.journal → 2 ≤ tables.length

variable {lcl : Closed} {c c₁ : LedgerContext} {level : ℕ} {address : Address}
  {account : AccountFrm}

theorem length_tables (hwide : 2 ≤ c.environment.accounts.length) (level : ℕ) :
    2 ≤ (c.tables level).length := by
  simp only [tables, EnvStack.enter, List.length_drop]
  omega

/-- The committed data of the root is below every frame. -/
theorem getLast?_tables (hwide : 2 ≤ c.environment.accounts.length) (level : ℕ) :
    (c.tables level).getLast?.getD ∅ = c.data := by
  simp only [tables, EnvStack.enter, data]
  rw [List.getLast?_drop, if_neg (by omega)]

/-- The root has its buffer and its committed data. -/
theorem exists_buffer (hwide : 2 ≤ c.environment.accounts.length) :
    ∃ buff, c.tables 0 = [buff, c.data] := by
  obtain ⟨buff, d, rest, htables⟩ := exists_tables (length_tables hwide 0)
  have hlength := EnvStack.length_enter_le 0 c.environment
  have hdata := getLast?_tables hwide 0
  rw [htables] at hdata
  rw [show (c.environment.enter 0).accounts = buff :: d :: rest from htables] at hlength
  obtain rfl : rest = [] := List.length_eq_zero_iff.mp (by simpa using hlength)
  exact ⟨buff, by rw [htables, ← hdata]; rfl⟩

theorem data_commit {buff : Map Address AccountFrm} (htables : c.tables 0 = [buff, c.data]) :
    (c.commit 0).data = buff ∪ c.data := by
  show (commitOn 0 (c.tables 0)).getLast?.getD ∅ = _
  rw [htables]
  rfl

/-- What a pointer of the root leads to is what a commit makes known. -/
theorem shown_commit (hwide : 2 ≤ c.environment.accounts.length)
    (hderef : c.deref 0 address = some account) :
    shown lcl (c.commit 0).data address = some account := by
  obtain ⟨buff, htables⟩ := exists_buffer hwide
  rw [deref_eq htables] at hderef
  obtain ⟨r, hlookup, hvalue⟩ := Option.bind_eq_some_iff.mp hderef
  rw [shown, data_commit htables, view_union_cons, view_cons_of_lookup hlookup, hvalue]

/-- A read keeps every pointer of its own environment. -/
theorem deref_of_getEntry {found : Option AccountFrm}
    (hlength : 2 ≤ (c.tables level).length) (hderef : c.deref level address = some account)
    (hget : c.getEntry lcl level address = (found, c₁)) :
    found = some account ∧ c₁.deref level address = some account := by
  obtain rfl : found = some account :=
    (congrArg Prod.fst hget).symm.trans (getEntry_of_deref hlength hderef)
  exact ⟨rfl, deref_getEntry hget⟩

theorem getEntry_totalFee {found : Option AccountFrm}
    (hget : c.getEntry lcl level address = (found, c₁)) : c₁.totalFee = c.totalFee := by
  obtain rfl : (c.getEntry lcl level address).2 = c₁ := congrArg Prod.snd hget
  rfl

end LedgerContext

open LedgerContext

section Wide

variable {lcl : Closed} {c c' : LedgerContext}

theorem Effect.wide (heffect : Effect lcl c c') (hwide : c.Wide) : c'.Wide := by
  have hlength := fun level => length_tables hwide.two_le level
  have hreads := hwide.reads
  cases heffect with
  | read level address =>
      constructor
      · show 2 ≤ (getOn lcl.accountFromDB 0 address (c.tables level)).2.length
        rw [getOn, length_onFrame]
        exact hlength level
      · intro tables other hmem
        rcases List.mem_cons.mp hmem with heq | hmem
        · rw [(Mark.read.inj heq).1]
          exact hlength level
        · exact hreads tables other hmem
  | write level address f hnonce =>
      exact ⟨(hlength level).trans_eq (length_onFrame _ 0 _).symm, hreads⟩
  | create level address frm habsent =>
      exact ⟨(hlength level).trans_eq (length_onFrame _ 0 _).symm, hreads⟩
  | commit level =>
      have htwo : 2 ≤ (commitOn 0 (c.tables level)).length :=
        (hlength level).trans_eq (length_onFrame _ 0 _).symm
      unfold LedgerContext.commit
      dsimp only
      split
      · refine ⟨htwo, fun tables address hmem => ?_⟩
        rcases List.mem_cons.mp hmem with heq | hmem
        · cases heq
        · exact hreads tables address hmem
      · exact ⟨htwo, hreads⟩
  | clear level =>
      exact ⟨(hlength level).trans_eq (length_onFrame _ 0 _).symm, hreads⟩
  | frame level => exact ⟨(hlength level).trans (Nat.le_succ _), hreads⟩
  | settings level settings => exact ⟨hlength level, hreads⟩
  | books stack totalFee crashed => exact ⟨hwide.two_le, hreads⟩
  | executed address =>
      refine ⟨hwide.two_le, fun tables other hmem => ?_⟩
      rcases List.mem_cons.mp hmem with heq | hmem
      · cases heq
      · exact hreads tables other hmem

theorem Effects.wide (heffects : Effects lcl c c') (hwide : c.Wide) : c'.Wide :=
  heffects.invariant Effect.wide hwide

end Wide

namespace TransactionFrm

variable {lib : Library} {lcl : Closed} {env : TransactionEnv} {level : ℕ} {c c₁ : LedgerContext}

/-- What an accepted transaction has passed. -/
theorem validForApply_success (hvalid : validForApply lib lcl env level c = (.success, c₁)) :
    ∃ account, c.getEntry lcl level env.transaction.sourceAddress = (some account, c₁) ∧
      account.nonce + 1 = env.transaction.nonce ∧ checkFee lib lcl env account = .success := by
  unfold validForApply at hvalid
  split at hvalid
  · rcases hget : c.getEntry lcl level env.transaction.sourceAddress with ⟨_ | account, c₂⟩
    · rw [hget] at hvalid
      simp at hvalid
    · rw [hget] at hvalid
      dsimp only at hvalid
      split_ifs at hvalid with hnonce hpriv
      · simp at hvalid
      · simp at hvalid
      · obtain ⟨hfee, rfl⟩ := Prod.mk.inj hvalid
        exact ⟨account, rfl, not_not.mp hnonce, hfee⟩
  · rename_i code hcode
    obtain ⟨hcode', -⟩ := Prod.mk.inj hvalid
    exact absurd hcode' hcode

/-- What `PayFee` does when it succeeds. -/
theorem payFee_true (hpay : payFee lcl env level c = (true, c₁)) :
    ∃ account c₂ totalFee balance,
      c.getEntry lcl level env.transaction.sourceAddress = (some account, c₂) ∧
      safeIntAdd c.totalFee env.transaction.feeLimit = some totalFee ∧
      safeIntSub account.balance env.transaction.feeLimit = some balance ∧
      c₁ = LedgerContext.modifyEntry level env.transaction.sourceAddress (·.setBalance balance)
        { c₂ with totalFee := totalFee } := by
  unfold payFee at hpay
  rcases hget : c.getEntry lcl level env.transaction.sourceAddress with ⟨_ | account, c₂⟩
  · rw [hget] at hpay
    simp at hpay
  · rw [hget] at hpay
    dsimp only at hpay
    rw [getEntry_totalFee hget] at hpay
    split at hpay
    · simp at hpay
    · rename_i totalFee hadd
      split at hpay
      · simp at hpay
      · rename_i balance hsub
        obtain ⟨-, rfl⟩ := Prod.mk.inj hpay
        exact ⟨account, c₂, totalFee, balance, rfl, hadd, hsub, rfl⟩

/-- The nonce grows behind the pointer to the source. -/
theorem deref_nonceIncrease {account : AccountFrm} (hwide : c.Wide)
    (hderef : c.deref level env.transaction.sourceAddress = some account) :
    (nonceIncrease lcl env level c).deref level env.transaction.sourceAddress =
      some account.nonceIncrease := by
  unfold nonceIncrease
  rcases hget : c.getEntry lcl level env.transaction.sourceAddress with ⟨found, c₂⟩
  obtain ⟨rfl, hderef'⟩ := deref_of_getEntry (length_tables hwide.two_le level) hderef hget
  have hwide₂ := (Effects.read hget).wide hwide
  exact deref_modifyEntry (length_tables hwide₂.two_le level) _ hderef'

end TransactionFrm

namespace LedgerFrm

variable {lib : Library} {lcl : Closed} {env : TransactionEnv} {c c₁ c₂ : LedgerContext}

/-- Charging commits the source account with its new nonce. -/
theorem shown_charge {account : AccountFrm} (hwide : c.Wide)
    (hderef : c.deref 0 env.transaction.sourceAddress = some account) :
    shown lcl (charge lcl env c).data env.transaction.sourceAddress =
      some account.nonceIncrease := by
  have hpushed : (c.push { env := env }).Wide := ⟨hwide.two_le, hwide.reads⟩
  have hnonce : (TransactionFrm.nonceIncrease lcl env 0 (c.push { env := env })).Wide :=
    (TransactionFrm.effects_nonceIncrease ..).wide hpushed
  exact shown_commit hnonce.two_le (TransactionFrm.deref_nonceIncrease hpushed hderef)

/-- **A charged transaction.**  The source account was found with the nonce right
before that of the transaction, and was committed with the nonce of the
transaction. -/
theorem exists_charged (hwide : c.Wide)
    (hvalid : TransactionFrm.validForApply lib lcl env 0 c = (.success, c₁))
    (hpay : TransactionFrm.payFee lcl env 0 c₁ = (true, c₂)) :
    ∃ found committed, (c.getEntry lcl 0 env.transaction.sourceAddress).1 = some found ∧
      found.nonce + 1 = env.transaction.nonce ∧
      shown lcl (charge lcl env c₂).data env.transaction.sourceAddress = some committed ∧
      committed.nonce = env.transaction.nonce := by
  obtain ⟨account, hget, hnonce, -⟩ := TransactionFrm.validForApply_success hvalid
  have hpaying : Effects lcl c₁ (TransactionFrm.payFee lcl env 0 c₁).2 :=
    TransactionFrm.effects_payFee ..
  rw [hpay] at hpaying
  obtain ⟨account', c₁', totalFee, balance, hget', -, -, rfl⟩ := TransactionFrm.payFee_true hpay
  have hwide₁ := (Effects.read hget).wide hwide
  have hwide₁' := (Effects.read hget').wide hwide₁
  obtain ⟨hfound, hderef⟩ := deref_of_getEntry (length_tables hwide₁.two_le 0)
    (deref_getEntry hget) hget'
  obtain rfl := Option.some.inj hfound
  have hpaid : (LedgerContext.modifyEntry 0 env.transaction.sourceAddress (·.setBalance balance)
      { c₁' with totalFee := totalFee }).deref 0 env.transaction.sourceAddress =
        some (account'.setBalance balance) :=
    deref_modifyEntry (length_tables hwide₁'.two_le 0) _ hderef
  refine ⟨account', _, by rw [hget], hnonce, shown_charge ?_ hpaid, hnonce⟩
  exact hpaying.wide hwide₁

end LedgerFrm

end CegChain
