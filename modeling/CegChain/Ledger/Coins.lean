import CegChain.Ledger.Assets
import CegChain.Ledger.Spelling

/-!
# Coins of an environment

What the accounts have in coins, as an environment of a block reads them through all its
tables.  An environment is `Solid` as long as the addresses in its tables are canonical, no
account of the tree has been lost, and no balance is negative.  `Paid` says of a step on an
environment that it keeps it solid, by how much the balances have changed in all, and that
it has spared every account that had no part in it: others may have given it something, and
that is all (`AccountFrm.Spared`).  A step that only reads is paid by nothing.

A read on the frame of a contract looks at two tables and then at the tree
(`EnvStack.getEntry_eq_readThrough_iff`), so it may find an account as it was before the
block and bring it back with the next write.  What is said here is about blocks in which
that did not happen: every read found the newest record, under a canonical address
(`Sighted`).
-/

namespace CegChain

open Layers AtomMap Totals LedgerContext LedgerFrm

/-- The coins of the account of an address. -/
def coins (state : Address → Option AccountFrm) (address : Address) : ℤ :=
  (state address).elim 0 fun account => account.balance.toInt

/-- The coins of all accounts of a tree. -/
def totalCoins (tree : Table (Option Bytes) AccountFrm) : ℤ :=
  total (fun _ account => account.balance.toInt) tree

/-- The account that an environment of this level reads through all its tables. -/
abbrev LedgerContext.readsAt (lcl : Closed) (level : ℕ) (c : LedgerContext) :
    Address → Option AccountFrm :=
  view Record.value? lcl.accountFromDB (c.tables level)

/-- Every account was looked up under its canonical address, and its newest record was
found. -/
structure LedgerContext.Sighted (lcl : Closed) (c : LedgerContext) : Prop where
  canonical : ∀ tables address, Mark.read tables address ∈ c.journal → Canonical address
  newest : c.ReadsNewest lcl

/-- The accounts of a block: no balance is negative, and no account has been lost. -/
structure Funded (lcl : Closed) (state : Address → Option AccountFrm) : Prop where
  nonneg : ∀ address account, state address = some account → 0 ≤ account.balance.toInt
  kept : ∀ address, (lcl.accountFromDB address).isSome → (state address).isSome

/-- An environment whose addresses are canonical and whose accounts are funded. -/
structure Solid (lcl : Closed) (level : ℕ) (c : LedgerContext) : Prop where
  stands : c.Stands level
  canonical : ∀ table ∈ c.tables level, ∀ address ∈ table, Canonical address
  funded : Funded lcl (c.readsAt lcl level)

/-- A transaction on the stack whose fee so far is within its limit. -/
structure StackTx.Metered (env : TransactionEnv) (tx : StackTx) : Prop where
  env_eq : tx.env = env
  gasPrice : 0 ≤ env.transaction.gasPrice.toInt
  feeLimit : env.transaction.feeLimit.toInt ≤ 2 ^ 62
  actualGas : 0 < env.transaction.gasPrice.toInt → 0 ≤ tx.actualGas.toInt ∧
    tx.actualGas.toInt * env.transaction.gasPrice.toInt ≤ env.transaction.feeLimit.toInt

/-- So for the transaction that was pushed on a stack of this size. -/
def LedgerContext.Metered (env : TransactionEnv) (size : ℕ) (c : LedgerContext) : Prop :=
  ∀ tx ∈ c.transactionStack.reverse[size]?, tx.Metered env

/-- The same environments on the stack of transactions, all still metered, and their gas not
less than before. -/
structure Stacked (c c' : LedgerContext) : Prop where
  levels : c'.levels = c.levels
  metered : ∀ env size, size < c.transactionStack.length → c.Metered env size →
    c'.Metered env size ∧
      (0 < env.transaction.gasPrice.toInt → (ownGas size c).toInt ≤ (ownGas size c').toInt)

/-- What others can do to an account: they give it coins and assets. -/
structure AccountFrm.Spared (before after : AccountFrm) : Prop where
  address : after.address = before.address
  nonce : after.nonce = before.nonce
  priv : after.priv = before.priv
  contract : after.contract = before.contract
  metadata : after.metadata = before.metadata
  balance : before.balance.toInt ≤ after.balance.toInt
  holding : ∀ key, before.holding key ≤ after.holding key

/-- How often the code of an account has been run. -/
def LedgerContext.runs (address : Address) (c : LedgerContext) : ℕ :=
  c.journal.count (.executed address)

/-- From the accounts before to those after a step, everyone is spared who did not act and
whose code was not run. -/
structure Spares (actors : Set Address) (c c' : LedgerContext)
    (before after : Address → Option AccountFrm) : Prop where
  journal : c.journal <:+ c'.journal
  kept : ∀ address, (before address).isSome → (after address).isSome
  spared : ∀ address account, address ∉ actors → c'.runs address = c.runs address →
    before address = some account → ∃ account', after address = some account' ∧
      account.Spared account'

/-- A step on an environment that changes the balances by `amount` in all, and the accounts
of the actors at most as they like. -/
structure Paid (lcl : Closed) (level : ℕ) (actors : Set Address) (c c' : LedgerContext)
    (amount : ℤ) : Prop where
  solid : Solid lcl level c'
  stacked : Stacked c c'
  shifts : Shifts (coins (c.readsAt lcl level)) (coins (c'.readsAt lcl level)) amount
  spares : Spares actors c c' (c.readsAt lcl level) (c'.readsAt lcl level)

variable {lcl : Closed} {level : ℕ} {actors : Set Address} {c c' c'' : LedgerContext}
  {address : Address} {account : AccountFrm} {amount amount' : ℤ}

@[simp] theorem AccountFrm.Spared.refl (account : AccountFrm) : account.Spared account :=
  ⟨rfl, rfl, rfl, rfl, rfl, le_rfl, fun _ => le_rfl⟩

theorem AccountFrm.Spared.trans {account' account'' : AccountFrm}
    (hfirst : account.Spared account') (hsecond : account'.Spared account'') :
    account.Spared account'' where
  address := hsecond.address.trans hfirst.address
  nonce := hsecond.nonce.trans hfirst.nonce
  priv := hsecond.priv.trans hfirst.priv
  contract := hsecond.contract.trans hfirst.contract
  metadata := hsecond.metadata.trans hfirst.metadata
  balance := hfirst.balance.trans hsecond.balance
  holding key := (hfirst.holding key).trans (hsecond.holding key)

/-- Coins are given. -/
theorem AccountFrm.Spared.setBalance {balance : Int64}
    (hle : account.balance.toInt ≤ balance.toInt) : account.Spared (account.setBalance balance) :=
  ⟨rfl, rfl, rfl, rfl, rfl, hle, fun _ => le_rfl⟩

/-- An asset is given. -/
theorem AccountFrm.Spared.setAsset {key : AssetKey} {held : Int64}
    (hle : account.holding key ≤ held.toInt) : account.Spared (account.setAsset key held) := by
  refine ⟨rfl, rfl, rfl, rfl, rfl, le_rfl, fun other => ?_⟩
  rw [AccountFrm.holding_setAsset]
  split
  · rename_i hother
    exact hother ▸ hle
  · exact le_rfl

theorem LedgerContext.runs_le (hjournal : c.journal <:+ c'.journal) (address : Address) :
    c.runs address ≤ c'.runs address :=
  hjournal.sublist.count_le _

namespace Spares

variable {before middle after : Address → Option AccountFrm}

/-- The accounts are the same. -/
theorem of_eq (hjournal : c.journal <:+ c'.journal)
    (heq : ∀ address, after address = before address) : Spares actors c c' before after :=
  ⟨hjournal, fun address hsome => (heq address).symm ▸ hsome, fun address account _ _ hbefore =>
    ⟨account, (heq address).trans hbefore, .refl account⟩⟩

/-- Two steps, where who acts in the second may depend on what the first has left. -/
theorem trans_of {first second : Set Address} (hfirst : Spares first c c' before middle)
    (hsecond : Spares second c' c'' middle after) (hsubset : first ⊆ actors)
    (hactors : ∀ address account account', address ∉ actors → before address = some account →
      middle address = some account' → account.Spared account' → address ∉ second) :
    Spares actors c c'' before after := by
  refine ⟨hfirst.journal.trans hsecond.journal, fun address hsome =>
    hsecond.kept address (hfirst.kept address hsome), ?_⟩
  intro address account hactor hruns hbefore
  have hle := runs_le hfirst.journal address
  have hle' := runs_le hsecond.journal address
  obtain ⟨account', hmiddle, hspared⟩ := hfirst.spared address account
    (fun hmem => hactor (hsubset hmem)) (by omega) hbefore
  obtain ⟨account'', hafter, hspared'⟩ := hsecond.spared address account'
    (hactors address account account' hactor hbefore hmiddle hspared) (by omega) hmiddle
  exact ⟨account'', hafter, hspared.trans hspared'⟩

theorem trans (hfirst : Spares actors c c' before middle)
    (hsecond : Spares actors c' c'' middle after) : Spares actors c c'' before after :=
  hfirst.trans_of hsecond subset_rfl fun _ _ _ hactor _ _ _ => hactor

/-- Only who has an account can be spared. -/
theorem mono {actors' : Set Address} (hspares : Spares actors c c' before after)
    (hsubset : ∀ address account, address ∈ actors → before address = some account →
      address ∈ actors') : Spares actors' c c' before after :=
  ⟨hspares.journal, hspares.kept, fun address account hactor hruns hbefore =>
    hspares.spared address account (fun hmem => hactor (hsubset address account hmem hbefore)) hruns
      hbefore⟩

theorem congr (hspares : Spares actors c c' before after)
    {before' after' : Address → Option AccountFrm} (hbefore : before' = before)
    (hafter : after' = after) : Spares actors c c' before' after' :=
  hbefore ▸ hafter ▸ hspares

/-- Only the journals matter. -/
theorem contexts (hspares : Spares actors c c' before after) {d d' : LedgerContext}
    (hbefore : d.journal = c.journal) (hafter : d'.journal = c'.journal) :
    Spares actors d d' before after := by
  refine ⟨hbefore ▸ hafter ▸ hspares.journal, hspares.kept, fun address account hactor hruns => ?_⟩
  rw [runs, runs, hbefore, hafter] at hruns
  exact hspares.spared address account hactor hruns

/-- One account is replaced, or added. -/
theorem update (hjournal : c.journal <:+ c'.journal)
    (hafter : ∀ other, after other = if other = address then some account else before other)
    (hspared : ∀ old, before address = some old → address ∈ actors ∨ old.Spared account) :
    Spares actors c c' before after := by
  refine ⟨hjournal, fun other hsome => ?_, fun other old hactor _ hbefore => ?_⟩
  · rw [hafter]
    split
    · rfl
    · exact hsome
  rw [hafter]
  split
  · rename_i heq
    subst heq
    exact ⟨account, rfl, (hspared old hbefore).resolve_left hactor⟩
  · exact ⟨old, hbefore, .refl old⟩

/-- Whoever's code was run has acted. -/
theorem executed (hspares : Spares (insert address actors) (c.mark (.executed address)) c'
    before after) : Spares actors c c' before after := by
  have hsuffix : c.journal <:+ c'.journal := (List.suffix_cons _ _).trans hspares.journal
  refine ⟨hsuffix, hspares.kept, fun other old hactor hruns hbefore => ?_⟩
  have hmark : (c.mark (.executed address)).runs other =
      c.runs other + if other = address then 1 else 0 := by
    rw [runs, runs, mark, List.count_cons]
    simp only [beq_iff_eq, Mark.executed.injEq]
    simp only [eq_comm]
  have hle := runs_le hspares.journal other
  have hne : other ≠ address := by
    rintro rfl
    rw [hmark, if_pos rfl] at hle
    omega
  refine hspares.spared other old (fun hmem => ?_) ?_ hbefore
  · exact (Set.mem_insert_iff.mp hmem).elim hne hactor
  · rw [hmark, if_neg hne, add_zero, hruns]

end Spares

theorem coins_of_eq_some {state : Address → Option AccountFrm}
    (hstate : state address = some account) : coins state address = account.balance.toInt := by
  rw [coins, hstate]
  rfl

theorem Funded.coins_nonneg {state : Address → Option AccountFrm} (hfunded : Funded lcl state)
    (address : Address) : 0 ≤ coins state address := by
  unfold coins
  cases hstate : state address with
  | none => exact le_rfl
  | some account => exact hfunded.nonneg address account hstate

/-- One account is replaced, or added. -/
theorem Funded.update {before after : Address → Option AccountFrm} (hfunded : Funded lcl before)
    (hbalance : 0 ≤ account.balance.toInt)
    (hafter : ∀ other, after other = if other = address then some account else before other) :
    Funded lcl after := by
  constructor
  · intro other found hfound
    rw [hafter] at hfound
    split at hfound
    · obtain rfl := Option.some.inj hfound
      exact hbalance
    · exact hfunded.nonneg other found hfound
  · intro other hsome
    rw [hafter]
    split
    · rfl
    · exact hfunded.kept other hsome

/-- The balances change by what the account has more than before. -/
theorem shifts_update {before after : Address → Option AccountFrm}
    (hafter : ∀ other, after other = if other = address then some account else before other) :
    Shifts (coins before) (coins after) (account.balance.toInt - coins before address) := by
  have hshift : Shifts (coins before) (coins after) (coins after address - coins before address) :=
    .of_ne address fun other hne => by rw [coins, coins, hafter, if_neg hne]
  rwa [coins_of_eq_some (show after address = some account by rw [hafter, if_pos rfl])] at hshift

/-! ## Steps one after another -/

theorem LedgerContext.Sighted.of_suffix (hsighted : c'.Sighted lcl)
    (hsuffix : c.journal <:+ c'.journal) : c.Sighted lcl where
  canonical tables address hmem := hsighted.canonical tables address (hsuffix.mem hmem)
  newest := hsighted.newest.of_suffix hsuffix

theorem LedgerContext.Sighted.of_effects (hsighted : c'.Sighted lcl)
    (heffects : Effects lcl c c') : c.Sighted lcl :=
  hsighted.of_suffix heffects.journal_suffix

theorem Stacked.refl (c : LedgerContext) : Stacked c c :=
  ⟨rfl, fun _ _ _ hmetered => ⟨hmetered, fun _ => le_rfl⟩⟩

theorem Stacked.length_eq (hstacked : Stacked c c') :
    c'.transactionStack.length = c.transactionStack.length := by
  simpa [LedgerContext.levels] using congrArg List.length hstacked.levels

theorem Stacked.trans (hfirst : Stacked c c') (hsecond : Stacked c' c'') : Stacked c c'' := by
  refine ⟨hsecond.levels.trans hfirst.levels, fun env size hsize hmetered => ?_⟩
  obtain ⟨hmetered', hle⟩ := hfirst.metered env size hsize hmetered
  obtain ⟨hmetered'', hle'⟩ :=
    hsecond.metered env size (hsize.trans_eq hfirst.length_eq.symm) hmetered'
  exact ⟨hmetered'', fun hprice => (hle hprice).trans (hle' hprice)⟩

theorem Stacked.of_eq (hstack : c'.transactionStack = c.transactionStack) : Stacked c c' := by
  refine ⟨congrArg (List.map StackTx.environment) hstack, fun env size _ => ?_⟩
  rw [LedgerContext.Metered, LedgerContext.Metered, ownGas, ownGas, hstack]
  exact fun hmetered => ⟨hmetered, fun _ => le_rfl⟩

theorem Stacked.topEnvironment (hstacked : Stacked c c') :
    c'.topEnvironment = c.topEnvironment := by
  rw [topEnvironment_eq, topEnvironment_eq, hstacked.levels]

theorem Solid.paid (hsolid : Solid lcl level c) : Paid lcl level actors c c 0 :=
  ⟨hsolid, .refl c, .of_eq fun _ => rfl, .of_eq (List.suffix_refl _) fun _ => rfl⟩

namespace Paid

theorem trans (hfirst : Paid lcl level actors c c' amount)
    (hsecond : Paid lcl level actors c' c'' amount') :
    Paid lcl level actors c c'' (amount + amount') :=
  ⟨hsecond.solid, hfirst.stacked.trans hsecond.stacked, hfirst.shifts.trans hsecond.shifts,
    hfirst.spares.trans hsecond.spares⟩

theorem congr (hpaid : Paid lcl level actors c c' amount) (heq : amount' = amount) :
    Paid lcl level actors c c' amount' :=
  heq ▸ hpaid

theorem topEnvironment (hpaid : Paid lcl level actors c c' amount)
    (htop : c.topEnvironment = some level) : c'.topEnvironment = some level :=
  hpaid.stacked.topEnvironment.trans htop

/-- A step after one that is paid by nothing. -/
theorem after (hsecond : Paid lcl level actors c' c'' amount)
    (hfirst : Paid lcl level actors c c' 0) : Paid lcl level actors c c'' amount :=
  (hfirst.trans hsecond).congr (zero_add _).symm

theorem mono {actors' : Set Address} (hpaid : Paid lcl level actors c c' amount)
    (hsubset : ∀ address account, address ∈ actors → c.readsAt lcl level address = some account →
      address ∈ actors') : Paid lcl level actors' c c' amount :=
  ⟨hpaid.solid, hpaid.stacked, hpaid.shifts, hpaid.spares.mono hsubset⟩

/-- The same tables of accounts. -/
theorem of_tables (hsolid : Solid lcl level c) (hstands : c'.Stands level)
    (htables : c'.tables level = c.tables level) (hstacked : Stacked c c')
    (hjournal : c.journal <:+ c'.journal) : Paid lcl level actors c c' 0 := by
  have hreads : c'.readsAt lcl level = c.readsAt lcl level := by rw [readsAt, htables]
  refine ⟨⟨hstands, ?_, ?_⟩, hstacked, ?_, .of_eq hjournal (congrFun hreads)⟩
  · rw [htables]
    exact hsolid.canonical
  · rw [hreads]
    exact hsolid.funded
  · rw [hreads]
    exact .of_eq fun _ => rfl

end Paid

/-- What is not on the environment does not matter. -/
theorem Solid.of_environment (hsolid : Solid lcl level c)
    (henvironment : c'.environment = c.environment) : Solid lcl level c' := by
  have htables : c'.tables level = c.tables level := by rw [tables, henvironment]
  refine ⟨⟨?_, ?_⟩, ?_, ?_⟩
  · exact henvironment ▸ hsolid.stands.accounts
  · exact henvironment ▸ hsolid.stands.settings
  · rw [htables]
    exact hsolid.canonical
  · rw [readsAt, htables]
    exact hsolid.funded

theorem Paid.of_environment (hsolid : Solid lcl level c)
    (henvironment : c'.environment = c.environment) (hstacked : Stacked c c')
    (hjournal : c.journal <:+ c'.journal) : Paid lcl level actors c c' 0 :=
  .of_tables hsolid (hsolid.of_environment henvironment).stands
    (by rw [tables, henvironment]) hstacked hjournal

/-! ## The steps -/

namespace Solid

theorem wide (hsolid : Solid lcl level c) : 2 ≤ c.environment.accounts.length :=
  (Nat.le_add_left 2 level).trans hsolid.stands.accounts

/-- Another buffer, whose addresses are canonical as well. -/
theorem canonical_of_buffer (hsolid : Solid lcl level c) {buff buff' : Map Address AccountFrm}
    {rest : List (Map Address AccountFrm)} (htables : c.tables level = buff :: rest)
    (hafter : c'.tables level = buff' :: rest)
    (hkeys : ∀ other ∈ buff', other ∈ buff ∨ Canonical other) :
    ∀ table ∈ c'.tables level, ∀ other ∈ table, Canonical other := by
  have hcanonical := hsolid.canonical
  rw [htables] at hcanonical
  rw [hafter]
  intro table htable other hother
  rcases List.mem_cons.mp htable with rfl | htable
  · rcases hkeys other hother with hother | hother
    · exact hcanonical buff List.mem_cons_self other hother
    · exact hother
  · exact hcanonical table (List.mem_cons_of_mem _ htable) other hother

/-- A read that finds the newest record finds what is read through all tables, and cannot
be noticed. -/
theorem readsAt_getEntry (hsolid : Solid lcl level c)
    (hsees : SeesNewest lcl.accountFromDB (c.tables level) address) :
    (c.getEntry lcl level address).1 = c.readsAt lcl level address ∧
      (c.getEntry lcl level address).2.readsAt lcl level = c.readsAt lcl level := by
  have hlength := length_tables hsolid.wide level
  have hfound : (c.getEntry lcl level address).1 = c.readsAt lcl level address := by
    rw [readsAt, ← readThrough_eq_view]
    exact (getOn_zero_eq_readThrough_iff _ address hlength).mpr hsees
  refine ⟨hfound, funext fun other => ?_⟩
  obtain ⟨buff, data, rest, htables⟩ := exists_tables hlength
  have hafter : (c.getEntry lcl level address).2.tables level =
      (getValue lcl.accountFromDB buff data address).2 :: data :: rest := by
    rw [tables_getEntry, htables]
    rfl
  have hvalue : (getValue lcl.accountFromDB buff data address).1 =
      c.readsAt lcl level address := by
    rw [← hfound]
    show _ = (getOn lcl.accountFromDB 0 address (c.tables level)).1
    rw [htables]
    rfl
  rw [readsAt, hafter]
  by_cases hother : other = address
  · subst hother
    cases hread : (getValue lcl.accountFromDB buff data other).1 with
    | none => rw [getValue_snd_of_none hread, readsAt, htables]
    | some account =>
        obtain ⟨r, hlookup, hr⟩ := getValue_snd_value hread
        rw [view_cons_of_lookup hlookup, ← hvalue, hread, hr]
  · rw [readsAt, htables]
    refine view_congr ?_
    rw [newest_cons, newest_cons buff, getValue_snd_lookup_ne _ _ _ hother]

/-- A read. -/
theorem getEntry (hsolid : Solid lcl level c) (actors : Set Address)
    (hsighted : (c.getEntry lcl level address).2.Sighted lcl) :
    Paid lcl level actors c (c.getEntry lcl level address).2 0 := by
  have hmark : Mark.read (c.tables level) address ∈
      (c.getEntry lcl level address).2.journal := List.mem_cons_self
  have hreads := (hsolid.readsAt_getEntry (hsighted.newest _ _ hmark)).2
  obtain ⟨buff, data, rest, htables⟩ := exists_tables (length_tables hsolid.wide level)
  have hafter : (c.getEntry lcl level address).2.tables level =
      (getValue lcl.accountFromDB buff data address).2 :: data :: rest := by
    rw [tables_getEntry, htables]
    rfl
  refine ⟨⟨hsolid.stands.within (within_getEntry le_rfl lcl address c), ?_, ?_⟩, .of_eq rfl, ?_,
    .of_eq (List.suffix_cons _ _) (congrFun hreads)⟩
  · refine hsolid.canonical_of_buffer htables hafter fun other hother => ?_
    -- the only new key of the buffer is the address itself
    by_cases heq : other = address
    · exact .inr (heq ▸ hsighted.canonical _ _ hmark)
    · refine .inl ?_
      rwa [← AList.lookup_isSome, ← getValue_snd_lookup_ne _ _ _ heq, AList.lookup_isSome]
  · rw [hreads]
    exact hsolid.funded
  · rw [hreads]
    exact .of_eq fun _ => rfl

/-- The same with what was found. -/
theorem read (hsolid : Solid lcl level c) (actors : Set Address) {found : Option AccountFrm}
    (hget : c.getEntry lcl level address = (found, c')) (hsighted : c'.Sighted lcl) :
    Paid lcl level actors c c' 0 ∧ c'.readsAt lcl level address = found := by
  obtain ⟨rfl, rfl⟩ : (c.getEntry lcl level address).1 = found ∧
      (c.getEntry lcl level address).2 = c' := by
    rw [hget]
    exact ⟨rfl, rfl⟩
  have hread := hsolid.readsAt_getEntry (hsighted.newest _ _ List.mem_cons_self)
  exact ⟨hsolid.getEntry actors hsighted, (congrFun hread.2 address).trans hread.1.symm⟩

theorem readsAt_read (hsolid : Solid lcl level c) {found : Option AccountFrm}
    (hget : c.getEntry lcl level address = (found, c')) (hsighted : c'.Sighted lcl)
    {other : Address} : c.readsAt lcl level other = c'.readsAt lcl level other := by
  obtain rfl : (c.getEntry lcl level address).2 = c' := by rw [hget]
  exact congrFun (hsolid.readsAt_getEntry (hsighted.newest _ _ List.mem_cons_self)).2.symm other

/-- A write through a pointer. -/
theorem modifyEntry (hsolid : Solid lcl level c) (hderef : c.deref level address = some account)
    (f : AccountFrm → AccountFrm) (hbalance : 0 ≤ (f account).balance.toInt)
    (hspared : address ∈ actors ∨ account.Spared (f account)) :
    Paid lcl level actors c (c.modifyEntry level address f)
      ((f account).balance.toInt - account.balance.toInt) := by
  have hafter : ∀ other, (c.modifyEntry level address f).readsAt lcl level other =
      if other = address then some (f account) else c.readsAt lcl level other :=
    view_modifyEntry hsolid.wide hderef f
  have hread : c.readsAt lcl level address = some account := view_of_deref hsolid.wide hderef
  have hshift := shifts_update hafter
  rw [coins_of_eq_some hread] at hshift
  refine ⟨⟨hsolid.stands.within (within_modifyEntry le_rfl lcl address f c), ?_,
    hsolid.funded.update hbalance hafter⟩, .of_eq rfl, hshift,
    .update (List.suffix_refl _) hafter fun old hold => ?_⟩
  swap
  · exact Option.some.inj (hread.symm.trans hold) ▸ hspared
  obtain ⟨buff, data, rest, htables⟩ := exists_tables (length_tables hsolid.wide level)
  have hmodified : (c.modifyEntry level address f).tables level =
      AtomMap.modify buff address f :: data :: rest := by
    rw [tables_modifyEntry, htables]
    rfl
  refine hsolid.canonical_of_buffer htables hmodified fun other hother => .inl ?_
  by_cases heq : other = address
  · -- a write needs a record to write to
    rw [deref_eq htables] at hderef
    obtain ⟨r, hlookup, -⟩ := Option.bind_eq_some_iff.mp hderef
    rw [heq, ← AList.lookup_isSome, hlookup]
    rfl
  · rwa [← AList.lookup_isSome, ← lookup_modify_ne heq buff f, AList.lookup_isSome]

theorem balance_nonneg (hsolid : Solid lcl level c)
    (hderef : c.deref level address = some account) : 0 ≤ account.balance.toInt :=
  hsolid.funded.nonneg address account (view_of_deref hsolid.wide hderef)

/-- An actor's balance is written. -/
theorem setBalance (hsolid : Solid lcl level c) (hactor : address ∈ actors)
    (hderef : c.deref level address = some account) {balance : Int64}
    (hbalance : 0 ≤ balance.toInt) :
    Paid lcl level actors c (c.modifyEntry level address (·.setBalance balance))
      (balance.toInt - account.balance.toInt) :=
  hsolid.modifyEntry hderef (·.setBalance balance) hbalance (.inl hactor)

/-- Anyone is given coins. -/
theorem credit (hsolid : Solid lcl level c) (actors : Set Address)
    (hderef : c.deref level address = some account) {balance : Int64}
    (hle : account.balance.toInt ≤ balance.toInt) :
    Paid lcl level actors c (c.modifyEntry level address (·.setBalance balance))
      (balance.toInt - account.balance.toInt) :=
  hsolid.modifyEntry hderef (·.setBalance balance) ((hsolid.balance_nonneg hderef).trans hle)
    (.inr (.setBalance hle))

/-- A write that is not about the balance. -/
theorem modifySame (hsolid : Solid lcl level c) (hderef : (c.deref level address).isSome)
    {f : AccountFrm → AccountFrm}
    (hf : ∀ account : AccountFrm, (f account).balance = account.balance)
    (hspared : address ∈ actors ∨ ∀ account ∈ c.deref level address, account.Spared (f account)) :
    Paid lcl level actors c (c.modifyEntry level address f) 0 := by
  obtain ⟨account, haccount⟩ := Option.isSome_iff_exists.mp hderef
  refine (hsolid.modifyEntry haccount f ?_ (hspared.imp_right (· account haccount))).congr ?_
  · rw [hf]
    exact hsolid.balance_nonneg haccount
  · rw [hf, sub_self]

/-- A new account. -/
theorem addEntry (hsolid : Solid lcl level c) (actors : Set Address)
    (hnone : c.readsAt lcl level address = none) (haddress : Canonical address)
    (frm : AccountFrm) (hbalance : 0 ≤ frm.balance.toInt) :
    Paid lcl level actors c (c.addEntry level address frm) frm.balance.toInt := by
  have hafter : ∀ other, (c.addEntry level address frm).readsAt lcl level other =
      if other = address then some frm else c.readsAt lcl level other :=
    view_addEntry hsolid.wide address frm
  have hshift := shifts_update hafter
  rw [show coins (c.readsAt lcl level) address = 0 by rw [coins, hnone]; rfl, sub_zero] at hshift
  refine ⟨⟨hsolid.stands.within (within_addEntry le_rfl lcl address frm c), ?_,
    hsolid.funded.update hbalance hafter⟩, .of_eq rfl, hshift,
    .update (List.suffix_refl _) hafter fun old hold => ?_⟩
  swap
  · exact absurd (hnone.symm.trans hold) (Option.some_ne_none old).symm
  obtain ⟨buff, rest, htables, hadded⟩ := exists_tables_addEntry hsolid.wide level address frm
  refine hsolid.canonical_of_buffer htables hadded fun other hother => ?_
  rcases (AList.mem_insert _).mp hother with rfl | hother
  · exact .inr haddress
  · exact .inl hother

/-! ## Frames -/

/-- Other settings. -/
theorem settings (hsolid : Solid lcl level c) {settings : List (Map String Setting)}
    (hlength : level + 2 ≤ settings.length) :
    Paid lcl level actors c { c with environment := ⟨c.tables level, settings⟩ } 0 := by
  have haccounts := hsolid.stands.length_tables
  refine .of_tables hsolid ⟨haccounts.ge, hlength⟩ ?_ (.of_eq rfl) (List.suffix_refl _)
  exact EnvStack.enter_accounts_of_le haccounts.le

/-- The tables of a new frame. -/
theorem tables_newStackFrameEnv (hstands : c.Stands level) :
    (c.newStackFrameEnv level).tables (level + 1) = ∅ :: c.tables level :=
  EnvStack.enter_accounts_of_le (Nat.succ_le_succ hstands.length_tables.le)

/-- A new frame reads what the environment reads that it is built on. -/
theorem newStackFrameEnv (hsolid : Solid lcl level c) :
    Solid lcl (level + 1) (c.newStackFrameEnv level) ∧
      (c.newStackFrameEnv level).readsAt lcl (level + 1) = c.readsAt lcl level := by
  have htables := tables_newStackFrameEnv hsolid.stands
  have hreads : (c.newStackFrameEnv level).readsAt lcl (level + 1) = c.readsAt lcl level := by
    funext other
    rw [readsAt, htables, view_empty_cons]
  refine ⟨⟨⟨?_, ?_⟩, ?_, ?_⟩, hreads⟩
  · exact Nat.succ_le_succ hsolid.stands.length_tables.ge
  · exact Nat.succ_le_succ hsolid.stands.length_settings.ge
  · rw [htables]
    intro table htable other hother
    rcases List.mem_cons.mp htable with rfl | htable
    · exact absurd hother (AList.notMem_empty _)
    · exact hsolid.canonical table htable other hother
  · rw [hreads]
    exact hsolid.funded

/-- The tables of the caller after the commit of a frame. -/
theorem exists_tables_commit (hstands : c.Stands (level + 1)) :
    ∃ buff own rest, c.tables (level + 1) = buff :: own :: rest ∧
      (c.commit (level + 1)).tables level = (buff ∪ own) :: rest := by
  have hlength := hstands.length_tables
  obtain ⟨buff, own, rest, htables⟩ := exists_tables (hlength.ge.trans' (Nat.le_add_left 2 _))
  refine ⟨buff, own, rest, htables, ?_⟩
  have haccounts : (c.commit (level + 1)).environment.accounts = ∅ :: (buff ∪ own) :: rest := by
    rw [LedgerContext.commit, if_neg (Nat.succ_ne_zero level)]
    show commitOn 0 (c.tables (level + 1)) = _
    rw [htables]
    rfl
  rw [htables, List.length_cons, List.length_cons] at hlength
  rw [tables, EnvStack.enter, haccounts]
  dsimp only
  rw [List.length_cons, List.length_cons, show rest.length + 1 + 1 - (level + 2) = 1 by omega]
  rfl

/-- The caller reads what the frame has read. -/
theorem commit_succ (hsolid : Solid lcl (level + 1) c) :
    Solid lcl level (c.commit (level + 1)) ∧
      (c.commit (level + 1)).readsAt lcl level = c.readsAt lcl (level + 1) := by
  obtain ⟨buff, own, rest, htables, hafter⟩ := exists_tables_commit hsolid.stands
  have hreads : (c.commit (level + 1)).readsAt lcl level = c.readsAt lcl (level + 1) := by
    funext other
    rw [readsAt, hafter, view_union_cons, readsAt, htables]
  refine ⟨⟨⟨?_, ?_⟩, ?_, ?_⟩, hreads⟩
  · rw [LedgerContext.commit, if_neg (Nat.succ_ne_zero level)]
    show level + 2 ≤ (commitOn 0 (c.tables (level + 1))).length
    rw [commitOn, length_onFrame, hsolid.stands.length_tables]
    exact Nat.le_succ _
  · rw [LedgerContext.commit, if_neg (Nat.succ_ne_zero level)]
    show level + 2 ≤ (commitOn 0 (c.environment.enter (level + 1)).settings).length
    rw [commitOn, length_onFrame, hsolid.stands.length_settings]
    exact Nat.le_succ _
  · have hcanonical := hsolid.canonical
    rw [htables] at hcanonical
    rw [hafter]
    intro table htable other hother
    rcases List.mem_cons.mp htable with rfl | htable
    · rcases AList.mem_union.mp hother with hother | hother
      · exact hcanonical buff List.mem_cons_self other hother
      · exact hcanonical own (List.mem_cons_of_mem _ List.mem_cons_self) other hother
    · exact hcanonical table (List.mem_cons_of_mem _ (List.mem_cons_of_mem _ htable)) other hother
  · rw [hreads]
    exact hsolid.funded

end Solid

end CegChain
