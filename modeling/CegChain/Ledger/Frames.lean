import CegChain.Ledger.Lockstep
import CegChain.Ledger.Pointers

/-!
# What lies beneath a frame

A transaction runs on an environment of some level, and what it does stays in the
buffers from that level on: the tables beneath are those that were there before
(`Within`).  A nested transaction runs one level higher and commits into the
buffer of its own caller, so the rule goes through for contracts with any program
(`Program.within_run`).  For a transaction of the block, level 0, the table
beneath is the committed data of the block.

The stack of transactions is as long afterwards as it was before, except that up to
version 1002 a nested transaction that runs out of fees stays on the stack
(`LedgerContext.kept`); its environment is one of the higher ones.
-/

namespace CegChain

open Layers AtomMap

/-! ## Lowest tables -/

section Keeps

variable {α : Type*} {n m : ℕ} {tables tables₁ tables₂ : List α}

/-- The `n` lowest tables stay, and there are still others on top of them. -/
structure Keeps (n : ℕ) (tables tables' : List α) : Prop where
  lowest : n < tables.length →
    n < tables'.length ∧ tables'.drop (tables'.length - n) = tables.drop (tables.length - n)

theorem Keeps.refl (n : ℕ) (tables : List α) : Keeps n tables tables :=
  ⟨fun hlength => ⟨hlength, rfl⟩⟩

theorem Keeps.trans (h₁ : Keeps n tables tables₁) (h₂ : Keeps n tables₁ tables₂) :
    Keeps n tables tables₂ := by
  refine ⟨fun hlength => ?_⟩
  obtain ⟨hlength₁, heq₁⟩ := h₁.lowest hlength
  obtain ⟨hlength₂, heq₂⟩ := h₂.lowest hlength₁
  exact ⟨hlength₂, heq₂.trans heq₁⟩

theorem keeps_drop (hlt : n < m) (tables : List α) :
    Keeps n tables (tables.drop (tables.length - m)) := by
  refine ⟨fun hlength => ?_⟩
  refine ⟨by rw [List.length_drop]; omega, ?_⟩
  rw [List.drop_drop, List.length_drop]
  congr 1
  omega

theorem keeps_cons (n : ℕ) (table table' : α) (rest : List α) :
    Keeps n (table :: rest) (table' :: rest) := by
  refine ⟨fun hlength => ?_⟩
  rw [List.length_cons] at hlength
  refine ⟨hlength, ?_⟩
  rw [List.length_cons, List.length_cons, show rest.length + 1 - n = (rest.length - n) + 1 by omega,
    List.drop_succ_cons, List.drop_succ_cons]

theorem keeps_push (n : ℕ) (table : α) (tables : List α) : Keeps n tables (table :: tables) := by
  refine ⟨fun hlength => ?_⟩
  refine ⟨hlength.trans (Nat.lt_succ_self _), ?_⟩
  rw [List.length_cons, show tables.length + 1 - n = (tables.length - n) + 1 by omega,
    List.drop_succ_cons]

/-- One table less: enough remains on top. -/
theorem Keeps.of_succ (hkeeps : Keeps (n + 1) tables tables₁) (hlength : n + 1 < tables.length) :
    Keeps n tables tables₁ ∧ n + 1 < tables₁.length := by
  obtain ⟨hlength₁, heq⟩ := hkeeps.lowest hlength
  refine ⟨⟨fun _ => ⟨by omega, ?_⟩⟩, hlength₁⟩
  have hnext := congrArg (List.drop 1) heq
  rw [List.drop_drop, List.drop_drop] at hnext
  rwa [show tables₁.length - (n + 1) + 1 = tables₁.length - n by omega,
    show tables.length - (n + 1) + 1 = tables.length - n by omega] at hnext

variable {K V : Type*} [DecidableEq K] {β : Type*}

omit [DecidableEq K] in
/-- An operation on a frame that leaves the table beneath its buffer alone. -/
theorem keeps_onFrame (n : ℕ) {f : Map K V → Map K V → β × Map K V × Map K V}
    (hf : ∀ buff data, (f buff data).2.2 = data) (tables : List (Map K V)) :
    Keeps n tables (onFrame f 0 tables).2 := by
  rcases tables with _ | ⟨buff, _ | ⟨data, rest⟩⟩
  · exact Keeps.refl ..
  · exact Keeps.refl ..
  · show Keeps n _ ((f buff data).2.1 :: (f buff data).2.2 :: rest)
    rw [hf]
    exact keeps_cons ..

theorem keeps_getOn (n : ℕ) (db : K → Option V) (key : K) (tables : List (Map K V)) :
    Keeps n tables (getOn db 0 key tables).2 := by
  unfold getOn
  exact keeps_onFrame n (fun _ _ => rfl) tables

theorem keeps_setOn (n : ℕ) (key : K) (ptr : V) (tables : List (Map K V)) :
    Keeps n tables (setOn 0 key ptr tables) :=
  keeps_onFrame n (fun _ _ => rfl) tables

theorem keeps_modifyOn (n : ℕ) (db : K → Option V) (key : K) (f : V → V)
    (tables : List (Map K V)) : Keeps n tables (modifyOn db 0 key f tables) :=
  keeps_onFrame n (fun _ _ => rfl) tables

/-- A commit with another buffer beneath. -/
theorem keeps_commitOn {tables : List (Map K V)} (hlength : n + 1 < tables.length) :
    Keeps n tables (commitOn 0 tables) := by
  rcases tables with _ | ⟨buff, _ | ⟨data, rest⟩⟩
  · exact Keeps.refl ..
  · exact Keeps.refl ..
  · simp only [List.length_cons] at hlength
    refine ⟨fun _ => ⟨?_, ?_⟩⟩
    · show n < (∅ :: (buff ∪ data) :: rest).length
      simp only [List.length_cons]
      omega
    · show (∅ :: (buff ∪ data) :: rest).drop (rest.length + 1 + 1 - n) = _
      rw [List.length_cons, List.length_cons,
        show rest.length + 1 + 1 - n = (rest.length - n) + 1 + 1 by omega, List.drop_succ_cons,
        List.drop_succ_cons, List.drop_succ_cons, List.drop_succ_cons]

end Keeps

/-! ## Frames of a block -/

namespace LedgerContext

/-- The levels of the environments on the stack of transactions. -/
def levels (c : LedgerContext) : List (Option ℕ) :=
  c.transactionStack.map StackTx.environment

theorem topEnvironment_eq (c : LedgerContext) : c.topEnvironment = c.levels.head?.join := by
  unfold topEnvironment levels
  cases c.transactionStack <;> rfl

end LedgerContext

/-- What is beneath the environment of this level stays, and so do the fees. -/
structure Beneath (level : ℕ) (c c' : LedgerContext) : Prop where
  accounts : Keeps (level + 1) c.environment.accounts c'.environment.accounts
  settings : Keeps (level + 1) c.environment.settings c'.environment.settings
  totalFee : c'.totalFee = c.totalFee
  crashed : c.crashed = true → c'.crashed = true

/-- The stack may have grown by transactions on higher environments, if `same` is false. -/
def Grown (same : Prop) (level : ℕ) (old new : List (Option ℕ)) : Prop :=
  ∃ more, new = more ++ old ∧ (∀ l, some l ∈ more → level ≤ l) ∧ (same → more = [])

/-- What a transaction on the environment of this level may do. -/
structure Within (lcl : Closed) (level : ℕ) (c c' : LedgerContext) : Prop
    extends Beneath level c c' where
  levels : Grown (c'.kept = c.kept) level c.levels c'.levels
  kept_le : c.kept ≤ c'.kept
  kept_eq : lcl.version > 1002 → c'.kept = c.kept

/-- The transaction on top runs on this level or above. -/
def Runs (level : ℕ) (c : LedgerContext) : Prop :=
  ∀ l, c.topEnvironment = some l → level ≤ l

section Rules

variable {lcl : Closed} {level level' : ℕ} {c c₁ c₂ : LedgerContext}
  {same same' : Prop} {old new newer : List (Option ℕ)}

theorem Beneath.refl (level : ℕ) (c : LedgerContext) : Beneath level c c :=
  ⟨Keeps.refl .., Keeps.refl .., rfl, id⟩

theorem Beneath.trans (h₁ : Beneath level c c₁) (h₂ : Beneath level c₁ c₂) :
    Beneath level c c₂ where
  accounts := h₁.accounts.trans h₂.accounts
  settings := h₁.settings.trans h₂.settings
  totalFee := h₂.totalFee.trans h₁.totalFee
  crashed := h₂.crashed ∘ h₁.crashed

theorem Grown.refl (same : Prop) (level : ℕ) (old : List (Option ℕ)) : Grown same level old old :=
  ⟨[], rfl, by simp, fun _ => rfl⟩

theorem Grown.trans {both : Prop} (h₁ : Grown same level old new)
    (h₂ : Grown same' level new newer) (hboth : both → same ∧ same') :
    Grown both level old newer := by
  obtain ⟨more₁, rfl, hlevel₁, hsame₁⟩ := h₁
  obtain ⟨more₂, rfl, hlevel₂, hsame₂⟩ := h₂
  refine ⟨more₂ ++ more₁, (List.append_assoc ..).symm, fun l hmem => ?_, fun h => ?_⟩
  · rcases List.mem_append.mp hmem with hmem | hmem
    · exact hlevel₂ l hmem
    · exact hlevel₁ l hmem
  · rw [hsame₁ (hboth h).1, hsame₂ (hboth h).2]
    rfl

/-- The topmost transaction of a stack that may have grown is taken off. -/
theorem Grown.tail {own : Option ℕ} (hgrown : Grown same level (own :: old) new)
    (hown : ∀ l, own = some l → level ≤ l) : Grown same level old new.tail := by
  obtain ⟨more, rfl, hmore, hsame⟩ := hgrown
  cases more with
  | nil => exact Grown.refl ..
  | cons first more =>
      refine ⟨more ++ [own], by simp, fun l hmem => ?_,
        fun h => absurd (hsame h) (List.cons_ne_nil _ _)⟩
      rcases List.mem_append.mp hmem with hmem | hmem
      · exact hmore l (List.mem_cons_of_mem _ hmem)
      · exact hown l (List.mem_singleton.mp hmem).symm

theorem Within.refl (lcl : Closed) (level : ℕ) (c : LedgerContext) : Within lcl level c c :=
  ⟨Beneath.refl level c, Grown.refl .., le_rfl, fun _ => rfl⟩

theorem Within.trans (h₁ : Within lcl level c c₁) (h₂ : Within lcl level c₁ c₂) :
    Within lcl level c c₂ := by
  refine ⟨h₁.toBeneath.trans h₂.toBeneath, h₁.levels.trans h₂.levels fun hkept => ?_,
    h₁.kept_le.trans h₂.kept_le, fun hversion => ?_⟩
  · have hfirst := h₁.kept_le
    have hsecond := h₂.kept_le
    constructor <;> omega
  · exact (h₂.kept_eq hversion).trans (h₁.kept_eq hversion)

theorem Within.runs (hwithin : Within lcl level c c₁) (hruns : Runs level c) : Runs level c₁ := by
  obtain ⟨more, heq, hlevel, -⟩ := hwithin.levels
  intro l htop
  rw [LedgerContext.topEnvironment_eq, heq] at htop
  cases more with
  | nil => exact hruns l (by rw [LedgerContext.topEnvironment_eq]; exact htop)
  | cons first more =>
      obtain rfl : first = some l := htop
      exact hlevel l (List.mem_cons_self ..)

/-- The rule for operations that do not touch the stack. -/
theorem Within.of_eq (hbeneath : Beneath level c c₁) (hstack : c₁.levels = c.levels)
    (hkept : c₁.kept = c.kept) : Within lcl level c c₁ :=
  ⟨hbeneath, hstack ▸ Grown.refl .., hkept.ge, fun _ => hkept⟩

/-! ## Operations on an environment -/

variable (hlevel : level ≤ level')

include hlevel

theorem keeps_enter {α : Type*} (tables : List α) :
    Keeps (level + 1) tables (tables.drop (tables.length - (level' + 2))) :=
  keeps_drop (by omega) tables

theorem within_getEntry (lcl : Closed) (address : Address) (c : LedgerContext) :
    Within lcl level c (c.getEntry lcl level' address).2 :=
  .of_eq ⟨(keeps_enter hlevel _).trans (keeps_getOn ..), keeps_enter hlevel _, rfl, id⟩ rfl rfl

theorem within_modifyEntry (lcl : Closed) (address : Address) (f : AccountFrm → AccountFrm)
    (c : LedgerContext) : Within lcl level c (c.modifyEntry level' address f) := by
  refine .of_eq ⟨(keeps_enter hlevel _).trans ?_, keeps_enter hlevel _, rfl, id⟩ rfl rfl
  exact keeps_onFrame _ (fun _ _ => rfl) _

theorem within_addEntry (lcl : Closed) (address : Address) (frm : AccountFrm)
    (c : LedgerContext) : Within lcl level c (c.addEntry level' address frm) :=
  .of_eq ⟨(keeps_enter hlevel _).trans (keeps_setOn ..), keeps_enter hlevel _, rfl, id⟩ rfl rfl

theorem within_settings (lcl : Closed) {settings : List (Map String Setting)} (c : LedgerContext)
    (hkeeps : Keeps (level + 1) c.environment.settings settings) :
    Within lcl level c { c with environment := ⟨c.tables level', settings⟩ } :=
  .of_eq ⟨keeps_enter hlevel _, hkeeps, rfl, id⟩ rfl rfl

theorem within_getValidators (lcl : Closed) (c : LedgerContext) :
    Within lcl level c (c.getValidators lcl level').2 := by
  have henter := keeps_enter hlevel c.environment.settings
  unfold LedgerContext.getValidators EnvStack.getValidators
  dsimp only
  split
  · exact within_settings hlevel lcl c (henter.trans (keeps_getOn ..))
  · exact within_settings hlevel lcl c (henter.trans ((keeps_getOn ..).trans (keeps_setOn ..)))

theorem within_updateNewValidators (lcl : Closed) (validators : Setting) (c : LedgerContext) :
    Within lcl level c (c.updateNewValidators level' validators) :=
  within_settings hlevel lcl c ((keeps_enter hlevel _).trans (keeps_setOn ..))

theorem within_updateFeeConfig (lcl : Closed) (fees : Setting) (c : LedgerContext) :
    Within lcl level c (c.updateFeeConfig level' fees) := by
  have henter := keeps_enter hlevel c.environment.settings
  unfold LedgerContext.updateFeeConfig EnvStack.updateFeeConfig
  dsimp only
  split
  · exact within_settings hlevel lcl c (henter.trans ((keeps_getOn ..).trans (keeps_setOn ..)))
  · exact within_settings hlevel lcl c (henter.trans ((keeps_getOn ..).trans (keeps_modifyOn ..)))

end Rules

/-! ## Operations and transactions -/

section Transactions

variable {lib : Library} {lcl : Closed} {low level : ℕ} {c c₁ c₂ : LedgerContext}

theorem within_crash (lcl : Closed) (level : ℕ) (c : LedgerContext) : Within lcl level c c.crash :=
  .of_eq ⟨Keeps.refl .., Keeps.refl .., rfl, fun _ => rfl⟩ rfl rfl

/-- Two copies of a run that stays within its frame are in lockstep. -/
theorem entryLockstep_within (lcl : Closed) (low : ℕ) (c₀ : LedgerContext) :
    EntryLockstep lcl low fun c d => d = c ∧ Within lcl low c₀ c where
  getEntry := by
    rintro c _ ⟨rfl, hwithin⟩ level hlevel address
    exact ⟨rfl, rfl, hwithin.trans (within_getEntry hlevel lcl address _)⟩
  deref := by
    rintro c _ ⟨rfl, -⟩ level address
    rfl
  modifyEntry := by
    rintro c _ ⟨rfl, hwithin⟩ level hlevel address f
    exact ⟨rfl, hwithin.trans (within_modifyEntry hlevel lcl address f _)⟩
  addEntry := by
    rintro c _ ⟨rfl, hwithin⟩ level hlevel address frm
    exact ⟨rfl, hwithin.trans (within_addEntry hlevel lcl address frm _)⟩
  crash := by
    rintro c _ ⟨rfl, hwithin⟩
    exact ⟨rfl, hwithin.trans (within_crash ..)⟩

namespace LedgerContext

theorem levels_addActualGas (gas : Int64) (c : LedgerContext) :
    (c.addActualGas gas).levels = c.levels := by
  unfold addActualGas levels
  dsimp only
  rw [List.map_reverse, ← List.reverse_inj, List.reverse_reverse, ← List.map_reverse]
  cases c.transactionStack.reverse <;> rfl

theorem within_addActualGas (lcl : Closed) (level : ℕ) (gas : Int64) (c : LedgerContext) :
    Within lcl level c (c.addActualGas gas) :=
  .of_eq ⟨Keeps.refl .., Keeps.refl .., rfl, id⟩ (levels_addActualGas gas c) rfl

theorem levels_addActualFee (lib : Library) (env : TransactionEnv) (c : LedgerContext) :
    (c.addActualFee lib env).2.levels = c.levels := by
  rw [← levels_addActualGas (TransactionFrm.getSelfGas lib env) c]
  dsimp only [addActualFee]
  split
  · rfl
  · split
    · rfl
    · split
      · rfl
      · rfl

theorem within_addActualFee (lib : Library) (lcl : Closed) (level : ℕ) (env : TransactionEnv)
    (c : LedgerContext) : Within lcl level c (c.addActualFee lib env).2 := by
  have hgas := within_addActualGas lcl level (TransactionFrm.getSelfGas lib env) c
  dsimp only [addActualFee]
  split
  · exact hgas.trans (within_crash ..)
  · split
    · exact hgas
    · split
      · exact hgas
      · exact hgas

end LedgerContext

namespace TransactionFrm

theorem stack_nonceIncrease (lcl : Closed) (env : TransactionEnv) (level : ℕ)
    (c : LedgerContext) :
    (nonceIncrease lcl env level c).transactionStack = c.transactionStack := by
  unfold nonceIncrease
  rcases hget : c.getEntry lcl level env.transaction.sourceAddress with ⟨_ | account, c₁⟩
  · obtain rfl : (c.getEntry lcl level env.transaction.sourceAddress).2 = c₁ :=
      congrArg Prod.snd hget
    rfl
  · obtain rfl : (c.getEntry lcl level env.transaction.sourceAddress).2 = c₁ :=
      congrArg Prod.snd hget
    rfl

theorem kept_nonceIncrease (lcl : Closed) (env : TransactionEnv) (level : ℕ)
    (c : LedgerContext) : (nonceIncrease lcl env level c).kept = c.kept := by
  unfold nonceIncrease
  rcases hget : c.getEntry lcl level env.transaction.sourceAddress with ⟨_ | account, c₁⟩
  · obtain rfl : (c.getEntry lcl level env.transaction.sourceAddress).2 = c₁ :=
      congrArg Prod.snd hget
    rfl
  · obtain rfl : (c.getEntry lcl level env.transaction.sourceAddress).2 = c₁ :=
      congrArg Prod.snd hget
    rfl

theorem within_nonceIncrease (hlevel : low ≤ level) (lcl : Closed) (env : TransactionEnv)
    (c : LedgerContext) : Within lcl low c (nonceIncrease lcl env level c) :=
  (lockstep_nonceIncrease (entryLockstep_within lcl low c) hlevel ⟨rfl, Within.refl ..⟩ env).2

variable {execute : ℕ → Execution}
  (hexecute : ∀ index this c, Runs low c → Within lcl low c (execute index this c).2)

include hexecute

theorem within_applyOperations (hlevel : low ≤ level) (hruns : Runs low c) (lib : Library)
    (env : TransactionEnv) (boolContract : Bool) (index : ℕ) (operations : List Operation) :
    Within lcl low c
      (applyOperations lib lcl execute env level boolContract index operations c).2 := by
  have hagree : ∀ index this {c₁ d}, d = c₁ ∧ Within lcl low c c₁ →
      Agree (fun c₁ d => d = c₁ ∧ Within lcl low c c₁) (execute index this c₁)
        (execute index this d) := by
    rintro index this c₁ _ ⟨rfl, hwithin⟩
    exact ⟨rfl, rfl, hwithin.trans (hexecute index this _ (hwithin.runs hruns))⟩
  exact (agree_applyOperations hagree (entryLockstep_within lcl low c) hlevel ⟨rfl, Within.refl ..⟩
    env boolContract index operations).snd.2

theorem within_apply (hlevel : low ≤ level) (lib : Library) (env : TransactionEnv)
    (boolContract : Bool) (c : LedgerContext) :
    Within lcl low (c.setTopEnvironment level)
      (apply lib lcl execute env level boolContract c).2 := by
  have hruns : Runs low (c.setTopEnvironment level) := by
    intro l htop
    unfold LedgerContext.topEnvironment LedgerContext.setTopEnvironment at htop
    cases hstack : c.transactionStack with
    | nil => simp [hstack] at htop
    | cons tx rest =>
        obtain rfl : level = l := by simpa [hstack] using htop
        exact hlevel
  have hfee := LedgerContext.within_addActualFee lib lcl low env (c.setTopEnvironment level)
  unfold apply
  split
  · rename_i heq
    rw [heq] at hfee
    exact hfee.trans (within_applyOperations hexecute hlevel (hfee.runs hruns) ..)
  · exact hfee

end TransactionFrm

/-! ## Nested transactions -/

namespace LedgerContext

theorem levels_pop (c : LedgerContext) : c.pop.levels = c.levels.tail :=
  List.map_tail

theorem levels_commit (level : ℕ) (c : LedgerContext) : (c.commit level).levels = c.levels := by
  unfold commit
  dsimp only
  split <;> rfl

end LedgerContext

/-- A frame more, on which a nested transaction runs. -/
theorem keeps_newStackFrameEnv {α : Type*} {level level' : ℕ} (hlevel : level ≤ level') (table : α)
    (tables : List α) :
    Keeps (level + 1) tables (table :: tables.drop (tables.length - (level' + 2))) ∧
      (level + 1 < tables.length →
        level + 1 + 1 < (table :: tables.drop (tables.length - (level' + 2))).length) := by
  refine ⟨(keeps_enter hlevel tables).trans (keeps_push ..), fun hlength => ?_⟩
  rw [List.length_cons, List.length_drop]
  omega

/-- What a nested run and its commit keep of the tables below. -/
theorem keeps_nested {K V : Type*} [DecidableEq K] {level level' : ℕ} (hlevel : level ≤ level')
    {tables before after : List (Map K V)} (hbefore : Keeps (level + 1) tables before)
    (hlength : level + 1 < tables.length → level + 1 + 1 < before.length)
    (hafter : Keeps (level + 1 + 1) before after) :
    Keeps (level + 1) tables after ∧ Keeps (level + 1) tables
      (commitOn 0 (after.drop (after.length - (level' + 1 + 2)))) := by
  by_cases hshort : level + 1 < tables.length
  · obtain ⟨hkeeps, hlong⟩ := hafter.of_succ (hlength hshort)
    have hnested := hbefore.trans hkeeps
    refine ⟨hnested, hnested.trans (Keeps.trans (keeps_drop (by omega) _) (keeps_commitOn ?_))⟩
    rw [List.length_drop]
    omega
  · exact ⟨⟨fun h => absurd h hshort⟩, ⟨fun h => absurd h hshort⟩⟩

namespace LedgerManager

/-- The end of a nested transaction, which is on the stack as `own`. -/
theorem within_endTransaction {level level' : ℕ} {code : ErrCode} {c c' : LedgerContext}
    {own : Option ℕ} (hbeneath : Beneath level c c')
    (hcommit : code = .success → Beneath level c (c'.commit level'))
    (hlevels : Grown (c'.kept = c.kept) level (own :: c.levels) c'.levels)
    (hown : ∀ l, own = some l → level ≤ l) (hle : c.kept ≤ c'.kept)
    (hversion : lcl.version > 1002 → c'.kept = c.kept) :
    Within lcl level c (endTransaction lcl level' code c').2 := by
  have hpop := hlevels.tail hown
  unfold endTransaction
  split
  · dsimp only
    split
    · refine ⟨⟨hbeneath.accounts, hbeneath.settings, hbeneath.totalFee, hbeneath.crashed⟩, ?_,
        hle, hversion⟩
      rw [LedgerContext.levels_pop]
      exact hpop
    · -- the transaction stays, and is counted
      rename_i hold
      obtain ⟨more, hmore, hhigher, -⟩ := hlevels
      refine ⟨⟨hbeneath.accounts, hbeneath.settings, hbeneath.totalFee, hbeneath.crashed⟩,
        ⟨more ++ [own], hmore.trans (List.append_cons ..), fun l hmem => ?_, fun hkept => ?_⟩,
        Nat.le_succ_of_le hle, fun hnew => absurd hnew hold⟩
      · rcases List.mem_append.mp hmem with hmem | hmem
        · exact hhigher l hmem
        · exact hown l (List.mem_singleton.mp hmem).symm
      · exact absurd hkept (Nat.lt_succ_of_le hle).ne'
  · dsimp only
    split
    · rename_i hsuccess
      obtain ⟨haccounts, hsettings, htotal, hcrashed⟩ := hcommit hsuccess
      have hkept : (c'.commit level').pop.kept = c'.kept := by
        unfold LedgerContext.commit
        dsimp only
        split <;> rfl
      refine ⟨⟨haccounts, hsettings, htotal, hcrashed⟩, ?_, hkept ▸ hle, hkept ▸ hversion⟩
      rw [LedgerContext.levels_pop, LedgerContext.levels_commit, hkept]
      exact hpop
    · refine ⟨⟨hbeneath.accounts, hbeneath.settings, hbeneath.totalFee, hbeneath.crashed⟩, ?_,
        hle, hversion⟩
      rw [LedgerContext.levels_pop]
      exact hpop

/-- A nested transaction stays within the frame of its caller. -/
theorem within_doTransaction {execute : Execution} {level : ℕ} {c : LedgerContext}
    (hexecute : ∀ level this c, Runs level c → Within lcl level c (execute this c).2)
    (hruns : Runs level c) (lib : Library) (transaction : Transaction) :
    Within lcl level c (doTransaction lib lcl execute transaction c).2 := by
  unfold doTransaction
  split
  · exact within_crash ..
  · rename_i level' htop
    have hlevel : level ≤ level' := hruns level' htop
    have hget := within_getEntry hlevel lcl transaction.sourceAddress c
    rcases hfound : c.getEntry lcl level' transaction.sourceAddress with ⟨_ | account, c₁⟩
    · rw [hfound] at hget
      exact hget.trans (within_crash ..)
    · have hstack : c₁.transactionStack = c.transactionStack := by
        obtain rfl : (c.getEntry lcl level' transaction.sourceAddress).2 = c₁ :=
          congrArg Prod.snd hfound
        rfl
      rw [hfound] at hget
      dsimp only
      generalize ({ transaction := { transaction with nonce := account.nonce + 1 } } :
        TransactionEnv) = env
      split
      · exact hget.trans (LedgerContext.within_addActualGas ..)
      · set c₂ := TransactionFrm.nonceIncrease lcl env level' (c₁.push { env := env }) with hc₂
        have hlevels₂ : c₂.levels = none :: c.levels := by
          rw [LedgerContext.levels, hc₂, TransactionFrm.stack_nonceIncrease, LedgerContext.levels,
            ← hstack]
          rfl
        have hpush : Beneath level c₁ (c₁.push { env := env }) :=
          ⟨Keeps.refl .., Keeps.refl .., rfl, id⟩
        have hbeneath₂ : Beneath level c c₂ := (hget.toBeneath.trans hpush).trans
          (TransactionFrm.within_nonceIncrease hlevel lcl env _).toBeneath
        have hkept₂ : c₂.kept = c.kept := by
          obtain rfl : (c.getEntry lcl level' transaction.sourceAddress).2 = c₁ :=
            congrArg Prod.snd hfound
          exact TransactionFrm.kept_nonceIncrease ..
        split
        · -- the transaction runs on a frame of its own
          have happly := TransactionFrm.within_apply (fun _ this c => hexecute (level + 1) this c)
            (Nat.succ_le_succ hlevel) lib env true (c₂.newStackFrameEnv level')
          set r := TransactionFrm.apply lib lcl (fun _ => execute) env (level' + 1) true
            (c₂.newStackFrameEnv level')
          have hset : ((c₂.newStackFrameEnv level').setTopEnvironment (level' + 1)).levels =
              some (level' + 1) :: c.levels := by
            have hhead : ((c₂.newStackFrameEnv level').setTopEnvironment (level' + 1)).levels =
                c₂.levels.modifyHead fun _ => some (level' + 1) := by
              unfold LedgerContext.levels LedgerContext.setTopEnvironment
              dsimp only [LedgerContext.newStackFrameEnv]
              cases c₂.transactionStack <;> rfl
            rw [hhead, hlevels₂]
            rfl
          have hlevels : Grown (r.2.kept = c.kept) level (some (level' + 1) :: c.levels)
              r.2.levels := by
            obtain ⟨more, hmore, hhigher, hsame⟩ := happly.levels
            rw [hset] at hmore
            exact ⟨more, hmore, fun l hmem => Nat.le_of_succ_le (hhigher l hmem),
              fun hkept => hsame (hkept.trans hkept₂.symm)⟩
          have hnested : ∀ {K V : Type} [DecidableEq K] {tables before after : List (Map K V)},
              Keeps (level + 1) tables before →
              Keeps (level + 1 + 1) (∅ :: before.drop (before.length - (level' + 2))) after →
              Keeps (level + 1) tables after ∧ Keeps (level + 1) tables
                (commitOn 0 (after.drop (after.length - (level' + 1 + 2)))) := by
            intro K V _ tables before after hbefore hafter
            obtain ⟨hnew, hlength⟩ := keeps_newStackFrameEnv hlevel (∅ : Map K V) before
            exact keeps_nested hlevel (hbefore.trans hnew)
              (fun h => hlength (hbefore.lowest h).1) hafter
          obtain ⟨haccounts, haccounts'⟩ := hnested hbeneath₂.accounts happly.accounts
          obtain ⟨hsettings, hsettings'⟩ := hnested hbeneath₂.settings happly.settings
          have hfee : r.2.totalFee = c.totalFee := happly.totalFee.trans hbeneath₂.totalFee
          have hcrashed : c.crashed = true → r.2.crashed = true :=
            fun h => happly.crashed (hbeneath₂.crashed h)
          refine within_endTransaction ⟨haccounts, hsettings, hfee, hcrashed⟩ (fun _ => ?_)
            hlevels ?_ (hkept₂ ▸ happly.kept_le)
            fun hversion => (happly.kept_eq hversion).trans hkept₂
          · rw [LedgerContext.commit, if_neg (Nat.succ_ne_zero level')]
            exact ⟨haccounts', hsettings', hfee, hcrashed⟩
          · rintro l hl
            obtain rfl := Option.some.inj hl
            exact hlevel.trans (Nat.le_succ _)
        · rename_i hcode
          have hfee := LedgerContext.within_addActualFee lib lcl level env c₂
          rcases hcase : c₂.addActualFee lib env with ⟨feeCode, c₃⟩
          rw [hcase] at hfee
          have hlevels := hfee.levels
          rw [hlevels₂, hkept₂] at hlevels
          have hend : ∀ code, code ≠ .success →
              Within lcl level c (endTransaction lcl (level' + 1) code c₃).2 :=
            fun code hcode => within_endTransaction (hbeneath₂.trans hfee.toBeneath)
              (fun h => absurd h hcode) hlevels (by simp) (hkept₂ ▸ hfee.kept_le)
              fun hversion => (hfee.kept_eq hversion).trans hkept₂
          cases feeCode with
          | success => exact hend _ hcode
          | _ => exact hend _ (by simp)

end LedgerManager

/-! ## Contracts -/

namespace ContractManager

variable {run : LedgerContext → Outcome × LedgerContext}

theorem within_mark (lcl : Closed) (level : ℕ) (entry : Mark) (c : LedgerContext) :
    Within lcl level c (c.mark entry) :=
  .of_eq ⟨Keeps.refl .., Keeps.refl .., rfl, id⟩ rfl rfl

theorem within_execute (hrun : ∀ c, Runs level c → Within lcl level c (run c).2)
    (hruns : Runs level c) (type : ℤ) (this : Address) :
    Within lcl level c (execute lcl type this run c).2 := by
  have hmark := within_mark lcl level (.executed this) c
  unfold execute
  split
  · exact Within.refl ..
  · split
    · exact Within.refl ..
    · exact hmark.trans (hrun _ (hmark.runs hruns))

theorem within_query (hrun : ∀ c, Runs level c → Within lcl level c (run c).2)
    (hruns : Runs level c) (type : ℤ) (this : Address) :
    Within lcl level c (query lcl type this run c).2 := by
  have hmark := within_mark lcl level (.executed this) c
  unfold query
  split
  · exact Within.refl ..
  · split
    · exact Within.refl ..
    · exact hmark.trans (hrun _ (hmark.runs hruns))

end ContractManager

theorem runs_push_top {top : StackTx} (hruns : Runs level c)
    (hhead : c.transactionStack.head? = some top) (c' : LedgerContext) :
    Runs level (c'.push top) := by
  intro l htop
  refine hruns l ?_
  rw [LedgerContext.topEnvironment, hhead]
  exact htop

/-- A call that runs with a copy of the transaction on top of the stack. -/
theorem Within.of_push {tx : StackTx} (hwithin : Within lcl level (c.push tx) c₁)
    (hruns : Runs level (c.push tx)) : Within lcl level c c₁.pop := by
  refine ⟨⟨hwithin.accounts, hwithin.settings, hwithin.totalFee, hwithin.crashed⟩, ?_,
    hwithin.kept_le, hwithin.kept_eq⟩
  rw [LedgerContext.levels_pop]
  exact hwithin.levels.tail hruns

/-- **Contracts stay within their frame**, whatever their program is. -/
theorem Program.within_run (lib : Library) (program : Program) :
    ∀ (this : Address) (readonly : Bool) (result : ErrCode) (level : ℕ) (c : LedgerContext),
      Runs level c → Within lcl level c (program.run lib lcl this readonly result c).2 := by
  induction program with
  | finish ending =>
      intro this readonly result level c hruns
      exact Within.refl ..
  | getEntry address next ih =>
      intro this readonly result level c hruns
      unfold run
      split
      · exact within_crash ..
      · rename_i level' htop
        have hget := within_getEntry (hruns level' htop) lcl address c
        exact hget.trans (ih _ this readonly result level _ (hget.runs hruns))
  | getValidators next ih =>
      intro this readonly result level c hruns
      unfold run
      split
      · exact within_crash ..
      · rename_i level' htop
        have hget := within_getValidators (hruns level' htop) lcl c
        exact hget.trans (ih _ this readonly result level _ (hget.runs hruns))
  | setValidators validators next ih =>
      intro this readonly result level c hruns
      unfold run
      split
      · exact ih false this readonly result level c hruns
      · split
        · exact within_crash ..
        · rename_i level' htop
          have hset := within_updateNewValidators (hruns level' htop) lcl (.validators validators) c
          exact hset.trans (ih true this readonly result level _ (hset.runs hruns))
  | configFee prices next ih =>
      intro this readonly result level c hruns
      unfold run
      split
      · exact ih false this readonly result level c hruns
      · split
        · exact within_crash ..
        · rename_i level' htop
          have hset := within_updateFeeConfig (hruns level' htop) lcl (.fees prices) c
          exact hset.trans (ih true this readonly result level _ (hset.runs hruns))
  | transact body metadata inner next ihinner ih =>
      intro this readonly result level c hruns
      unfold run
      dsimp only
      split
      · exact ih none this readonly result level c hruns
      · have hnested := LedgerManager.within_doTransaction
          (fun _ callee _ h => ContractManager.within_execute
            (fun c h => ihinner callee false .success _ c h) h 0 callee)
          hruns lib
            { sourceAddress := this, operations := [{ body := body, metadata := metadata }] }
        exact hnested.trans (ih _ this readonly _ level _ (hnested.runs hruns))
  | delegateCall address inner next ihinner ih =>
      intro this readonly result level c hruns
      unfold run
      dsimp only
      split
      · exact ih none this readonly result level c hruns
      · split
        · rename_i level' top htop hhead
          have hget := within_getEntry (hruns level' htop) lcl address c
          split
          · exact hget.trans (ih none this readonly result level _ (hget.runs hruns))
          · rename_i contract _
            have hpushed : Runs level ((c.getEntry lcl level' address).2.push top) :=
              runs_push_top hruns hhead _
            have hcall := (ContractManager.within_execute
              (fun c h => ihinner this false .success level c h) hpushed
                contract.type this).of_push hpushed
            have hdone := hget.trans hcall
            exact hdone.trans (ih _ this readonly _ level _ (hdone.runs hruns))
        · exact within_crash ..
  | query delegate address inner next ihinner ih =>
      intro this readonly result level c hruns
      unfold run
      dsimp only
      split
      · rename_i level' top htop hhead
        have hget := within_getEntry (hruns level' htop) lcl address c
        split
        · exact hget.trans (ih false this readonly result level _ (hget.runs hruns))
        · rename_i contract _
          generalize (if delegate = true then this else address) = queried
          generalize (delegate || decide (lcl.version > 1001)) = pushes
          have hrun := fun c h => ihinner queried true .success level c h
          cases pushes with
          | true =>
              have hpushed : Runs level ((c.getEntry lcl level' address).2.push top) :=
                runs_push_top hruns hhead _
              have hdone := hget.trans
                ((ContractManager.within_query hrun hpushed contract.type queried).of_push hpushed)
              exact hdone.trans (ih _ this readonly result level _ (hdone.runs hruns))
          | false =>
              have hdone := hget.trans
                (ContractManager.within_query hrun (hget.runs hruns) contract.type queried)
              exact hdone.trans (ih _ this readonly result level _ (hdone.runs hruns))
      · exact within_crash ..

/-- `Apply` of a transaction of the block changes nothing beneath the buffer of the
root. -/
theorem LedgerFrm.within_execute (lib : Library) (rt : Runtime) (env : TransactionEnv)
    (c : LedgerContext) :
    Within lcl 0 (c.setTopEnvironment 0) (execute lib lcl rt env c).2 :=
  TransactionFrm.within_apply (fun _ this _ hruns => ContractManager.within_execute
    (fun c h => Program.within_run lib _ this false .success 0 c h) hruns 0 this) le_rfl ..

end Transactions

end CegChain
