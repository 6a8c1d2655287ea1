import CegChain.Ledger.CallTree

/-!
# The frame of a nested transaction

`LedgerManager::DoTransaction` runs the transaction of a contract on a frame whose
`data_` is the change buffer of the caller.  The nonce of the source is raised in
the caller's environment before anything is validated; after that nothing reaches
the caller but the `Commit` of a transaction that succeeded.

Everything is said in tables.  The environment of the caller stands on the lowest
`level + 2` tables of the stack, which a run on the level above keeps (`Within`), so
at its end the child stands on one more table, its own buffer (`exists_child`).
-/

namespace CegChain

open Layers AtomMap

/-! ## Tables -/

section Tables

variable {K V : Type*} [DecidableEq K] {db : K → Option V} {key key' : K}
  {tables tables' : List (Map K V)}

/-- A read of another key changes no answer. -/
theorem getOn_zero_getOn_ne (hne : key' ≠ key) :
    (getOn db 0 key' (getOn db 0 key tables).2).1 = (getOn db 0 key' tables).1 := by
  rcases tables with _ | ⟨buff, _ | ⟨data, rest⟩⟩
  · rfl
  · rfl
  · show (getValue db (getValue db buff data key).2 data key').1 = (getValue db buff data key').1
    rw [getValue_fst, getValue_fst, newest_cons, newest_cons buff,
      getValue_snd_lookup_ne db buff data hne]

theorem lookup_modify_ne (hne : key' ≠ key) (buff : Map K V) (f : V → V) :
    (modify buff key f).lookup key' = buff.lookup key' := by
  unfold AtomMap.modify
  split
  · exact AList.lookup_insert_ne hne
  · rfl

/-- A write through a pointer changes no other answer. -/
theorem getOn_zero_modify_ne (hne : key' ≠ key) (f : V → V) :
    (getOn db 0 key' (onFrame (fun buff data => ((), modify buff key f, data)) 0 tables).2).1 =
      (getOn db 0 key' tables).1 := by
  rcases tables with _ | ⟨buff, _ | ⟨data, rest⟩⟩
  · rfl
  · rfl
  · show (getValue db (modify buff key f) data key').1 = (getValue db buff data key').1
    rw [getValue_fst, getValue_fst, newest_cons, newest_cons buff, lookup_modify_ne hne]

omit [DecidableEq K] in
/-- The tables on top of which a run was made, with the buffer it has left. -/
theorem exists_child {n : ℕ} {before after : List (Map K V)} (hlength : before.length = n)
    (hkeeps : Keeps n (∅ :: before) after) :
    ∃ buff, after.drop (after.length - (n + 1)) = buff :: before ∧
      after.drop (after.length - n) = before := by
  have hlt : n < ((∅ : Map K V) :: before).length := by
    rw [List.length_cons, hlength]
    exact Nat.lt_succ_self n
  obtain ⟨hafter, heq⟩ := hkeeps.lowest hlt
  rw [List.length_cons, hlength, Nat.add_sub_cancel_left, List.drop_succ_cons,
    List.drop_zero] at heq
  have hdrop := List.drop_eq_getElem_cons (l := after) (i := after.length - (n + 1)) (by omega)
  rw [show after.length - (n + 1) + 1 = after.length - n by omega, heq] at hdrop
  exact ⟨_, hdrop, heq⟩

/-- After the commit of a child its caller answers what the child answered, for the
keys that the child could see, and what it answered before, for those that the child
has no record of. -/
theorem getOn_zero_commit {n : ℕ} {buff : Map K V} (hlength : tables.length = n + 2)
    (hchild : tables' = buff :: tables) :
    let after := (commitOn 0 tables').drop ((commitOn 0 tables').length - (n + 2))
    (∀ key, SeesNewest db (tables'.take 3) key →
        (getOn db 0 key after).1 = (getOn db 0 key tables').1) ∧
      ∀ key, key ∉ tables'.headD ∅ → (getOn db 0 key after).1 = (getOn db 0 key tables).1 := by
  rcases tables with _ | ⟨own, _ | ⟨data, rest⟩⟩
  · simp at hlength
  · simp at hlength
  · subst hchild
    have hafter : (commitOn 0 (buff :: own :: data :: rest)).drop
        ((commitOn 0 (buff :: own :: data :: rest)).length - (n + 2)) =
        (buff ∪ own) :: data :: rest := by
      show (∅ :: (buff ∪ own) :: data :: rest).drop (rest.length + 1 + 1 + 1 - (n + 2)) = _
      rw [List.length_cons, List.length_cons] at hlength
      rw [show rest.length + 1 + 1 + 1 - (n + 2) = 1 by omega]
      rfl
    have hread : ∀ key, (getOn db 0 key ((buff ∪ own) :: data :: rest)).1 =
        readThrough db [buff, own, data] key := by
      intro key
      rw [getOn_zero_fst, readThrough, readThrough, newest_union_cons]
    rw [hafter]
    refine ⟨fun key hsees => ?_, fun key hmem => ?_⟩
    · have hthree : 2 ≤ [buff, own, data].length := Nat.le_succ 2
      rw [hread, ← (getOn_zero_eq_readThrough_iff db key hthree).mpr hsees, getOn_zero_fst,
        getOn_zero_fst]
    · have hnone : buff.lookup key = none := AList.lookup_eq_none.mpr hmem
      rw [hread, getOn_zero_fst, readThrough, readThrough, newest_cons_of_not_mem hnone]

end Tables

theorem EnvStack.settings_enter_enter {K A J : Type*} (level : ℕ) (env : EnvStack K A J) :
    ((env.enter level).enter level).settings = (env.enter level).settings := by
  simp only [EnvStack.enter, List.length_drop, List.drop_drop]
  congr 1
  omega

/-! ## What an environment answers -/

namespace LedgerContext

variable {lcl : Closed} {level : ℕ} {source address : Address} {account : AccountFrm}
  {c c₁ : LedgerContext}

/-- The account that `GetEntry` finds on an environment. -/
def account? (lcl : Closed) (level : ℕ) (c : LedgerContext) (address : Address) :
    Option AccountFrm :=
  (c.getEntry lcl level address).1

/-- The setting that `settings_.Get` finds on an environment. -/
def setting? (level : ℕ) (c : LedgerContext) (key : String) : Option Setting :=
  ((c.environment.enter level).getSetting 0 key).1

/-- The accounts with the nonce of one of them raised. -/
def raised (source : Address) (accounts : Address → Option AccountFrm) :
    Address → Option AccountFrm :=
  Function.update accounts source ((accounts source).map AccountFrm.nonceIncrease)

/-- The buffers of the accounts and of the settings, and the tables beneath them, of
the environment of this level. -/
structure Stands (level : ℕ) (c : LedgerContext) : Prop where
  accounts : level + 2 ≤ c.environment.accounts.length
  settings : level + 2 ≤ c.environment.settings.length

theorem account?_eq_of_tables {d : LedgerContext} (htables : d.tables level = c.tables level) :
    d.account? lcl level = c.account? lcl level := by
  funext address
  show (getOn _ 0 address (d.tables level)).1 = (getOn _ 0 address (c.tables level)).1
  rw [htables]

theorem setting?_eq_of_settings {d : LedgerContext}
    (hsettings : (d.environment.enter level).settings = (c.environment.enter level).settings) :
    d.setting? level = c.setting? level := by
  funext key
  show (getOn _ 0 key (d.environment.enter level).settings).1 =
    (getOn _ 0 key (c.environment.enter level).settings).1
  rw [hsettings]

/-- The answers come from the environment. -/
theorem answers_eq_of_environment (lcl : Closed) (level : ℕ) {d : LedgerContext}
    (heq : d.environment = c.environment) :
    d.account? lcl level = c.account? lcl level ∧ d.setting? level = c.setting? level := by
  refine ⟨account?_eq_of_tables ?_, setting?_eq_of_settings ?_⟩
  · rw [tables, tables, heq]
  · rw [heq]

theorem environment_addActualFee (lib : Library) (env : TransactionEnv) (c : LedgerContext) :
    (c.addActualFee lib env).2.environment = c.environment := by
  dsimp only [addActualFee]
  split
  · rfl
  · split
    · rfl
    · split <;> rfl

/-- A read changes no answer. -/
theorem account?_getEntry (lcl : Closed) (level : ℕ) (source : Address) (c : LedgerContext) :
    (c.getEntry lcl level source).2.account? lcl level = c.account? lcl level := by
  funext address
  show (getOn _ 0 address ((c.getEntry lcl level source).2.tables level)).1 =
    (getOn _ 0 address (c.tables level)).1
  rw [tables_getEntry]
  by_cases heq : address = source
  · subst heq
    cases hfound : (getOn lcl.accountFromDB 0 address (c.tables level)).1 with
    | none => rw [getOn_zero_snd_of_none hfound, hfound]
    | some account => exact getOn_zero_twice hfound
  · exact getOn_zero_getOn_ne heq

/-- A write changes the answer for its own account. -/
theorem account?_modifyEntry (hlength : 2 ≤ (c.tables level).length)
    (hderef : c.deref level source = some account) (f : AccountFrm → AccountFrm) :
    (c.modifyEntry level source f).account? lcl level =
      Function.update (c.account? lcl level) source (some (f account)) := by
  funext address
  by_cases heq : address = source
  · rw [heq, Function.update_self]
    refine getEntry_of_deref ?_ (deref_modifyEntry hlength f hderef)
    rw [tables_modifyEntry, length_onFrame]
    exact hlength
  · rw [Function.update_of_ne heq]
    show (getOn _ 0 address ((c.modifyEntry level source f).tables level)).1 =
      (getOn _ 0 address (c.tables level)).1
    rw [tables_modifyEntry, getOn_zero_modify_ne heq]

/-- `NonceIncrease` raises the nonce of the source. -/
theorem account?_nonceIncrease (hwide : 2 ≤ (c.tables level).length) {env : TransactionEnv}
    (hsource : c.account? lcl level env.transaction.sourceAddress = some account) :
    (TransactionFrm.nonceIncrease lcl env level c).account? lcl level =
      raised env.transaction.sourceAddress (c.account? lcl level) := by
  rcases hget : c.getEntry lcl level env.transaction.sourceAddress with ⟨found, c₁⟩
  obtain rfl : found = some account := (congrArg Prod.fst hget).symm.trans hsource
  have hderef := deref_getEntry hget
  obtain rfl : (c.getEntry lcl level env.transaction.sourceAddress).2 = c₁ :=
    congrArg Prod.snd hget
  have hlength : 2 ≤
      ((c.getEntry lcl level env.transaction.sourceAddress).2.tables level).length := by
    rw [tables_getEntry, getOn, length_onFrame]
    exact hwide
  rw [TransactionFrm.nonceIncrease, hget]
  dsimp only
  rw [account?_modifyEntry hlength hderef, account?_getEntry, raised, hsource, Option.map_some]

theorem Stands.within (hstands : c.Stands level) (hwithin : Within lcl level c c₁) :
    c₁.Stands level :=
  ⟨(hwithin.accounts.lowest hstands.accounts).1, (hwithin.settings.lowest hstands.settings).1⟩

theorem Stands.length_tables (hstands : c.Stands level) :
    (c.tables level).length = level + 2 := by
  have hlength := hstands.accounts
  rw [tables, EnvStack.enter, List.length_drop]
  omega

theorem Stands.length_settings (hstands : c.Stands level) :
    (c.environment.enter level).settings.length = level + 2 := by
  have hlength := hstands.settings
  rw [EnvStack.enter, List.length_drop]
  omega

end LedgerContext

/-! ## The exits of `DoTransaction` -/

namespace LedgerManager

open LedgerContext

variable {lib : Library} {lcl : Closed} {execute : Execution} {transaction : Transaction}
  {level : ℕ} {account : AccountFrm} {c c₁ : LedgerContext}

/-- The transaction with the nonce that comes after that of its source. -/
def nestedEnv (transaction : Transaction) (account : AccountFrm) : TransactionEnv :=
  { transaction := { transaction with nonce := account.nonce + 1 } }

/-- The transaction is on the stack and the nonce of its source is raised. -/
def raisedContext (lcl : Closed) (transaction : Transaction) (level : ℕ) (account : AccountFrm)
    (c : LedgerContext) : LedgerContext :=
  let env := nestedEnv transaction account
  TransactionFrm.nonceIncrease lcl env level
    ((c.getEntry lcl level transaction.sourceAddress).2.push { env := env })

/-- The transaction on its own frame, before `DoTransaction` commits it. -/
def runNested (lib : Library) (lcl : Closed) (execute : Execution) (transaction : Transaction)
    (level : ℕ) (account : AccountFrm) (c : LedgerContext) : ErrCode × LedgerContext :=
  TransactionFrm.apply lib lcl (fun _ => execute) (nestedEnv transaction account) (level + 1) true
    ((raisedContext lcl transaction level account c).newStackFrameEnv level)

theorem doTransaction_eq (htop : c.topEnvironment = some level)
    (hsource : c.account? lcl level transaction.sourceAddress = some account) :
    doTransaction lib lcl execute transaction c =
      let env := nestedEnv transaction account
      let raised := raisedContext lcl transaction level account c
      if checkContractDepthSafe lcl c.transactionStack.length = false then
        (.contractTooManyRecursion, (c.getEntry lcl level transaction.sourceAddress).2.addActualGas
          (TransactionFrm.getSelfGas lib env))
      else match TransactionFrm.validForParameter lib lcl env raised.transactionStack.length with
        | .success =>
            let r := runNested lib lcl execute transaction level account c
            endTransaction lcl (level + 1) r.1 r.2
        | code =>
            match raised.addActualFee lib env with
            | (.success, c) => endTransaction lcl (level + 1) code c
            | (feeCode, c) => endTransaction lcl (level + 1) feeCode c := by
  have hget : c.getEntry lcl level transaction.sourceAddress =
      (some account, (c.getEntry lcl level transaction.sourceAddress).2) := Prod.ext hsource rfl
  unfold doTransaction
  rw [htop]
  dsimp only
  rw [hget]
  rfl

/-- The exits of `DoTransaction`: too deep, refused before it ran, and run. -/
theorem doTransaction_cases (lib : Library) (execute : Execution)
    (htop : c.topEnvironment = some level)
    (hsource : c.account? lcl level transaction.sourceAddress = some account) :
    let depthSafe := checkContractDepthSafe lcl c.transactionStack.length
    let result := doTransaction lib lcl execute transaction c
    (depthSafe = false ∧ result = (.contractTooManyRecursion,
        (c.getEntry lcl level transaction.sourceAddress).2.addActualGas
          (TransactionFrm.getSelfGas lib (nestedEnv transaction account)))) ∨
      (depthSafe = true ∧ ∃ code ≠ .success, result = endTransaction lcl (level + 1) code
        ((raisedContext lcl transaction level account c).addActualFee lib
          (nestedEnv transaction account)).2) ∨
      (depthSafe = true ∧
        let r := runNested lib lcl execute transaction level account c
        result = endTransaction lcl (level + 1) r.1 r.2) := by
  dsimp only
  rw [doTransaction_eq htop hsource]
  dsimp only
  cases hdepth : checkContractDepthSafe lcl c.transactionStack.length with
  | false => exact .inl ⟨rfl, rfl⟩
  | true =>
      right
      rw [if_neg (by decide)]
      split
      · exact .inr ⟨rfl, rfl⟩
      · rename_i hcode
        refine .inl ⟨rfl, ?_⟩
        -- what is missing for the fee comes before what is wrong with the parameters
        split
        · rename_i heq
          exact ⟨_, hcode, by rw [heq]⟩
        · rename_i hfee heq
          exact ⟨_, hfee, by rw [heq]⟩

/-- Unless the transaction succeeded, its end touches no table. -/
theorem environment_endTransaction (lcl : Closed) {code : ErrCode} (hcode : code ≠ .success)
    (level : ℕ)
    (c : LedgerContext) : (endTransaction lcl level code c).2.environment = c.environment := by
  unfold endTransaction
  split
  · dsimp only
    split
    · rfl
    · rfl
  · rfl

section Frame

variable (hstands : c.Stands level)
  (hsource : c.account? lcl level transaction.sourceAddress = some account)

include hstands in
theorem stands_raisedContext (lcl : Closed) (transaction : Transaction) (account : AccountFrm) :
    (raisedContext lcl transaction level account c).Stands level := by
  have hread := hstands.within (within_getEntry le_rfl lcl transaction.sourceAddress c)
  have hpushed : ((c.getEntry lcl level transaction.sourceAddress).2.push
      { env := nestedEnv transaction account }).Stands level := ⟨hread.accounts, hread.settings⟩
  exact hpushed.within (TransactionFrm.within_nonceIncrease le_rfl lcl _ _)

include hstands hsource in
theorem account?_raisedContext :
    (raisedContext lcl transaction level account c).account? lcl level =
      raised transaction.sourceAddress (c.account? lcl level) := by
  have hread : ((c.getEntry lcl level transaction.sourceAddress).2.push
      { env := nestedEnv transaction account }).account? lcl level = c.account? lcl level :=
    account?_getEntry lcl level transaction.sourceAddress c
  have hwide : 2 ≤ (((c.getEntry lcl level transaction.sourceAddress).2.push
      { env := nestedEnv transaction account }).tables level).length := by
    show 2 ≤ ((c.getEntry lcl level transaction.sourceAddress).2.tables level).length
    rw [tables_getEntry, getOn, length_onFrame, hstands.length_tables]
    omega
  rw [← hread]
  exact account?_nonceIncrease hwide ((congrFun hread _).trans hsource)

theorem setting?_raisedContext (lcl : Closed) (transaction : Transaction) (level : ℕ)
    (account : AccountFrm) (c : LedgerContext) :
    (raisedContext lcl transaction level account c).setting? level = c.setting? level := by
  refine setting?_eq_of_settings ?_
  have hnonce : ∀ {env : TransactionEnv} {c : LedgerContext},
      ((TransactionFrm.nonceIncrease lcl env level c).environment.enter level).settings =
        (c.environment.enter level).settings := by
    intro env c
    rw [TransactionFrm.nonceIncrease]
    rcases hget : c.getEntry lcl level env.transaction.sourceAddress with ⟨_ | found, c₁⟩
    · obtain rfl : (c.getEntry lcl level env.transaction.sourceAddress).2 = c₁ :=
        congrArg Prod.snd hget
      exact EnvStack.settings_enter_enter level c.environment
    · obtain rfl : (c.getEntry lcl level env.transaction.sourceAddress).2 = c₁ :=
        congrArg Prod.snd hget
      exact (EnvStack.settings_enter_enter ..).trans (EnvStack.settings_enter_enter ..)
  exact hnonce.trans (EnvStack.settings_enter_enter level c.environment)

/-- The run of the transaction has left the tables of its caller, and a buffer on top
of them. -/
theorem exists_buffers (hexecute : ∀ level this c, Runs level c →
      Within lcl level c (execute this c).2) (hstands : c.Stands level) (lib : Library)
    (transaction : Transaction) (account : AccountFrm) :
    let raised := raisedContext lcl transaction level account c
    let child := (runNested lib lcl execute transaction level account c).2
    (∃ buff, child.tables (level + 1) = buff :: raised.tables level) ∧
      child.tables level = raised.tables level ∧
      (∃ buff, (child.environment.enter (level + 1)).settings =
        buff :: (raised.environment.enter level).settings) ∧
      (child.environment.enter level).settings = (raised.environment.enter level).settings := by
  intro raised child
  have hraised : raised.Stands level := stands_raisedContext hstands lcl transaction account
  have hwithin := TransactionFrm.within_apply (fun _ this c => hexecute (level + 1) this c)
    (le_refl (level + 1)) lib (nestedEnv transaction account) true
    (raised.newStackFrameEnv level)
  obtain ⟨buff, hown, hcaller⟩ := exists_child hraised.length_tables hwithin.accounts
  obtain ⟨settings, hownSettings, hcallerSettings⟩ :=
    exists_child hraised.length_settings hwithin.settings
  exact ⟨⟨buff, hown⟩, hcaller, ⟨settings, hownSettings⟩, hcallerSettings⟩

end Frame

/-- A failed nested transaction raises the nonce of its source, unless it was too
deep to be started. -/
theorem account?_of_failed (hexecute : ∀ level this c, Runs level c →
      Within lcl level c (execute this c).2) (hstands : c.Stands level)
    (htop : c.topEnvironment = some level)
    (hsource : c.account? lcl level transaction.sourceAddress = some account)
    (hfailed : (doTransaction lib lcl execute transaction c).1 ≠ .success) :
    let after := (doTransaction lib lcl execute transaction c).2
    after.account? lcl level =
        (if checkContractDepthSafe lcl c.transactionStack.length then
          raised transaction.sourceAddress (c.account? lcl level) else c.account? lcl level) ∧
      after.setting? level = c.setting? level := by
  have hraised := account?_raisedContext hstands hsource
  have hsettings := setting?_raisedContext lcl transaction level account c
  dsimp only
  rcases doTransaction_cases lib execute htop hsource with
    ⟨hdepth, heq⟩ | ⟨hdepth, code, hcode, heq⟩ | ⟨hdepth, heq⟩
  · rw [heq, hdepth, if_neg (by decide)]
    refine ⟨account?_getEntry lcl level transaction.sourceAddress c, ?_⟩
    exact setting?_eq_of_settings (EnvStack.settings_enter_enter level c.environment)
  · rw [heq, hdepth, if_pos rfl, ← hraised, ← hsettings]
    refine answers_eq_of_environment lcl level ?_
    rw [environment_endTransaction lcl hcode, environment_addActualFee]
  · obtain ⟨-, hcaller, -, hcallerSettings⟩ :=
      exists_buffers hexecute hstands lib transaction account
    rw [heq, endTransaction_fst] at hfailed
    rw [heq, hdepth, if_pos rfl, ← hraised, ← hsettings]
    have hend := environment_endTransaction lcl hfailed (level + 1)
      (runNested lib lcl execute transaction level account c).2
    obtain ⟨haccount, hsetting⟩ := answers_eq_of_environment lcl level hend
    exact ⟨haccount.trans (account?_eq_of_tables hcaller),
      hsetting.trans (setting?_eq_of_settings hcallerSettings)⟩

/-- After a success the buffer of the child is in that of its caller. -/
theorem environment_of_succeeded (lib : Library) (execute : Execution)
    (htop : c.topEnvironment = some level)
    (hsource : c.account? lcl level transaction.sourceAddress = some account)
    (hsucceeded : (doTransaction lib lcl execute transaction c).1 = .success) :
    (doTransaction lib lcl execute transaction c).2.environment =
      ((runNested lib lcl execute transaction level account c).2.environment.enter
        (level + 1)).commit 0 := by
  rcases doTransaction_cases lib execute htop hsource with
    ⟨-, heq⟩ | ⟨-, code, hcode, heq⟩ | ⟨-, heq⟩
  · rw [heq] at hsucceeded
    cases hsucceeded
  · rw [heq, endTransaction_fst] at hsucceeded
    exact absurd hsucceeded hcode
  · dsimp only at heq
    rw [heq, endTransaction_fst] at hsucceeded
    rw [hsucceeded] at heq
    rw [heq]
    rfl

/-- What the environment of the caller answers after a nested transaction with this
result, when `child` is its frame before the commit.  A transaction that was not
started has not raised the nonce of its source. -/
structure AllOrNothing (lcl : Closed) (level : ℕ) (source : Address) (started : Bool)
    (c child : LedgerContext) (result : ErrCode × LedgerContext) : Prop where
  failed : result.1 ≠ .success →
    result.2.account? lcl level =
        (if started then raised source (c.account? lcl level) else c.account? lcl level) ∧
      result.2.setting? level = c.setting? level
  /-- The accounts that the child could see. -/
  account : result.1 = .success → ∀ address,
    SeesNewest lcl.accountFromDB ((child.tables (level + 1)).take 3) address →
      result.2.account? lcl level address = child.account? lcl (level + 1) address
  /-- The accounts that the child has no record of. -/
  untouched : result.1 = .success → ∀ address, address ∉ (child.tables (level + 1)).headD ∅ →
    result.2.account? lcl level address = raised source (c.account? lcl level) address
  setting : result.1 = .success → ∀ key,
    SeesNewest (fun _ => none) ((child.environment.enter (level + 1)).settings.take 3) key →
      result.2.setting? level key = child.setting? (level + 1) key
  untouchedSetting : result.1 = .success → ∀ key,
    key ∉ (child.environment.enter (level + 1)).settings.headD ∅ →
      result.2.setting? level key = c.setting? level key

/-- A nested transaction that succeeded gives the caller what its frame answered, as
far as that frame could see, and leaves alone what it has no record of. -/
theorem allOrNothing_doTransaction (hexecute : ∀ level this c, Runs level c →
      Within lcl level c (execute this c).2) (hstands : c.Stands level)
    (htop : c.topEnvironment = some level)
    (hsource : c.account? lcl level transaction.sourceAddress = some account) :
    AllOrNothing lcl level transaction.sourceAddress
      (checkContractDepthSafe lcl c.transactionStack.length) c
      (runNested lib lcl execute transaction level account c).2
      (doTransaction lib lcl execute transaction c) := by
  have hraised := account?_raisedContext hstands hsource
  have hsettings := setting?_raisedContext lcl transaction level account c
  have hstands' := stands_raisedContext hstands lcl transaction account
  obtain ⟨⟨buff, hown⟩, -, ⟨settings, hownSettings⟩, -⟩ :=
    exists_buffers hexecute hstands lib transaction account
  obtain ⟨hsees, hkeeps⟩ := @getOn_zero_commit _ _ _ lcl.accountFromDB _ _ level buff
    hstands'.length_tables hown
  obtain ⟨hseesSettings, hkeepsSettings⟩ := @getOn_zero_commit String Setting _ (fun _ => none)
    _ _ level settings hstands'.length_settings hownSettings
  have hafter := environment_of_succeeded lib execute htop hsource
  refine ⟨account?_of_failed hexecute hstands htop hsource, fun hsucceeded address hin => ?_,
    fun hsucceeded address hout => ?_, fun hsucceeded key hin => ?_,
    fun hsucceeded key hout => ?_⟩
  · show (getOn _ 0 address (EnvStack.enter level _).accounts).1 = _
    rw [hafter hsucceeded]
    exact hsees address hin
  · show (getOn _ 0 address (EnvStack.enter level _).accounts).1 = _
    rw [hafter hsucceeded, ← hraised]
    exact hkeeps address hout
  · show (getOn _ 0 key (EnvStack.enter level _).settings).1 = _
    rw [hafter hsucceeded]
    exact hseesSettings key hin
  · show (getOn _ 0 key (EnvStack.enter level _).settings).1 = _
    rw [hafter hsucceeded, ← hsettings]
    exact hkeepsSettings key hout

/-- **Nested frames commit all or nothing.**  For every nested transaction of a
contract, whatever the contracts below it do. -/
theorem nested_commit_all_or_nothing {program : Program} (hstands : c.Stands level)
    (htop : c.topEnvironment = some level)
    (hreturns : (doTransaction lib lcl (program.execution lib lcl) transaction c).2.crashed =
      false) :
    ∃ account, c.account? lcl level transaction.sourceAddress = some account ∧
      AllOrNothing lcl level transaction.sourceAddress
        (checkContractDepthSafe lcl c.transactionStack.length) c
        (runNested lib lcl (program.execution lib lcl) transaction level account c).2
        (doTransaction lib lcl (program.execution lib lcl) transaction c) := by
  cases hsource : c.account? lcl level transaction.sourceAddress with
  | none =>
      -- a null pointer
      rcases hget : c.getEntry lcl level transaction.sourceAddress with ⟨found, c₁⟩
      obtain rfl : found = none := (congrArg Prod.fst hget).symm.trans hsource
      rw [doTransaction, htop] at hreturns
      dsimp only at hreturns
      rw [hget] at hreturns
      cases hreturns
  | some account =>
      refine ⟨account, rfl, allOrNothing_doTransaction (fun level this c hruns => ?_) hstands htop
        hsource⟩
      exact ContractManager.within_execute
        (fun c hruns => program.within_run lib this false .success level c hruns) hruns 0 this

/-! ## Two contracts that call each other -/

/-- Both the caller and the callee are contracts, in the version that counts the depth
here. -/
def twoContracts : Closed :=
  { sampleClosed with
    version := 1001
    tree := [payerAddress, callerAddress, calleeAddress].foldl (fun tree address =>
      tree.insert (decodeAddress address)
        { AccountFrm.creatAccountFrm address 100 with
          contract := if address = payerAddress then {} else { payload := [123, 125] } }) ∅ }

/-- A contract calls another one. -/
def calls (this dest : Address) : Transaction :=
  Program.hostTransaction this (.payCoin { destAddress := dest, amount := 0 }) []

/-- Stops where the contract would start. -/
def stopped : Execution := fun _ c => (.contractExecuteFail, c)

/-- A payment of the block starts the first contract. -/
def started : LedgerContext :=
  let env := payment payerAddress callerAddress 0 1
  (TransactionFrm.apply sampleLibrary twoContracts (fun _ => stopped) env 0 false
    (LedgerFrm.charge twoContracts env {})).2

/-- The contract at `this`, running on this level, has called the one at `dest`, which
starts. -/
def deeper (this dest : Address) (level : ℕ) (c : LedgerContext) : LedgerContext :=
  match c.account? twoContracts level this with
  | some account =>
      (runNested sampleLibrary twoContracts stopped (calls this dest) level account c).2
  | none => c

/-- Four transactions are on the stack. -/
def fourDeep : LedgerContext :=
  deeper callerAddress calleeAddress 2
    (deeper calleeAddress callerAddress 1 (deeper callerAddress calleeAddress 0 started))

/-- The first contract calls the second. -/
theorem nested_commit_of_started :
    let execute := (Program.finish .returned).execution sampleLibrary twoContracts
    let transaction := calls callerAddress calleeAddress
    ∃ account, started.account? twoContracts 0 transaction.sourceAddress = some account ∧
      AllOrNothing twoContracts 0 transaction.sourceAddress
        (checkContractDepthSafe twoContracts started.transactionStack.length) started
        (runNested sampleLibrary twoContracts execute transaction 0 account started).2
        (doTransaction sampleLibrary twoContracts execute transaction started) := by
  have hstands : started.Stands 0 := ⟨by decide +kernel, by decide +kernel⟩
  have htop : started.topEnvironment = some 0 := by decide +kernel
  have hreturns : (doTransaction sampleLibrary twoContracts
      ((Program.finish .returned).execution sampleLibrary twoContracts)
      (calls callerAddress calleeAddress) started).2.crashed = false := by decide +kernel
  exact nested_commit_all_or_nothing hstands htop hreturns

/-- Four transactions deep the next one is refused before the nonce of its source is
raised. -/
theorem nested_refusal_keeps_nonce :
    ¬ ∀ (program : Program) (transaction : Transaction) (level : ℕ) (c : LedgerContext),
      c.Stands level → c.topEnvironment = some level →
      let result := doTransaction sampleLibrary twoContracts
        (program.execution sampleLibrary twoContracts) transaction c
      result.2.crashed = false → result.1 ≠ .success →
      result.2.account? twoContracts level =
        raised transaction.sourceAddress (c.account? twoContracts level) := by
  intro hraises
  have hstands : fourDeep.Stands 3 := ⟨by decide +kernel, by decide +kernel⟩
  have htop : fourDeep.topEnvironment = some 3 := by decide +kernel
  have hnonce := congrFun (hraises (.finish .returned) (calls calleeAddress callerAddress) 3
    fourDeep hstands htop (by decide +kernel) (by decide +kernel)) calleeAddress
  exact absurd hnonce (by decide +kernel)

end LedgerManager

end CegChain
