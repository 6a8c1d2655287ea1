import CegChain.Ledger.Assets
import CegChain.Ledger.Spelling

/-!
# Holdings of a block

What the accounts hold of an asset, as the root of a block reads them.  Transactions
without contracts work on the root alone, so each of their steps reads, writes through a
pointer, or adds an account there.  Most leave every holding as it is (`Quiet`); the
others say by how much the holdings have changed in all (`Shifted`).  Addresses are
`Canonical` here.
-/

namespace CegChain

open Layers AtomMap Totals LedgerContext LedgerFrm

/-- What the account of an address holds. -/
def held (key : AssetKey) (state : Address → Option AccountFrm) (address : Address) : ℤ :=
  (state address).elim 0 (AccountFrm.holding key)

/-- An account as a block may have it under an address: its assets are in order, its own
address is the one it is found under, and it has the code it had before the block, none if
it is new. -/
structure Accounted (lcl : Closed) (address : Address) (account : AccountFrm) : Prop where
  sound : account.Sound
  own : Canonical address → account.address = address
  contract : account.contract = (lcl.accountFromDB address).elim {} AccountFrm.contract

/-- The accounts of a block: none has been lost. -/
structure Proper (lcl : Closed) (state : Address → Option AccountFrm) : Prop where
  accounted : ∀ address account, state address = some account → Accounted lcl address account
  kept : ∀ address, (lcl.accountFromDB address).isSome → (state address).isSome

/-- The root of a block whose addresses are canonical and whose accounts are proper. -/
structure InOrder (lcl : Closed) (c : LedgerContext) : Prop where
  rooted : Rooted c
  canonical : ∀ table ∈ c.tables 0, ∀ address ∈ table, Canonical address
  proper : Proper lcl (c.reads lcl)

/-- A step that leaves every holding, and what was committed. -/
structure Quiet (lcl : Closed) (c c' : LedgerContext) : Prop where
  order : InOrder lcl c'
  data : c'.data = c.data
  held : ∀ key address, held key (c'.reads lcl) address = held key (c.reads lcl) address

/-- A step that changes the holdings of each asset by `issued` in all. -/
structure Shifted (lcl : Closed) (c c' : LedgerContext) (issued : AssetKey → ℤ) : Prop where
  order : InOrder lcl c'
  data : c'.data = c.data
  shifts : ∀ key, Shifts (CegChain.held key (c.reads lcl)) (CegChain.held key (c'.reads lcl))
    (issued key)

variable {lcl : Closed} {c c' c'' : LedgerContext} {address : Address} {account : AccountFrm}

theorem held_of_eq_some {key : AssetKey} {state : Address → Option AccountFrm}
    (hstate : state address = some account) : held key state address = account.holding key := by
  rw [held, hstate]
  rfl

/-- No holding is negative. -/
theorem Proper.held_nonneg {state : Address → Option AccountFrm} (hproper : Proper lcl state)
    (key : AssetKey) (address : Address) : 0 ≤ held key state address := by
  unfold held
  cases hstate : state address with
  | none => exact le_rfl
  | some account => exact (hproper.accounted address account hstate).sound.holding_nonneg key

/-- One account is replaced, or added. -/
theorem Proper.update {before after : Address → Option AccountFrm} (hproper : Proper lcl before)
    (haccounted : Accounted lcl address account)
    (hafter : ∀ other, after other = if other = address then some account else before other) :
    Proper lcl after := by
  constructor
  · intro other found hfound
    rw [hafter] at hfound
    split at hfound
    · rename_i heq
      obtain rfl := Option.some.inj hfound
      exact heq ▸ haccounted
    · exact hproper.accounted other found hfound
  · intro other hsome
    rw [hafter]
    split
    · rfl
    · exact hproper.kept other hsome

theorem InOrder.spelled (horder : InOrder lcl c) : Spelled c :=
  ⟨horder.rooted, horder.canonical⟩

theorem InOrder.of_spelled (hspelled : Spelled c) (hproper : Proper lcl (c.reads lcl)) :
    InOrder lcl c :=
  ⟨hspelled.rooted, hspelled.canonical, hproper⟩

/-! ## Steps one after another -/

theorem InOrder.quiet (horder : InOrder lcl c) : Quiet lcl c c :=
  ⟨horder, rfl, fun _ _ => rfl⟩

namespace Quiet

theorem trans (hfirst : Quiet lcl c c') (hsecond : Quiet lcl c' c'') : Quiet lcl c c'' :=
  ⟨hsecond.order, hsecond.data.trans hfirst.data,
    fun key address => (hsecond.held key address).trans (hfirst.held key address)⟩

theorem shifted (hquiet : Quiet lcl c c') : Shifted lcl c c' 0 :=
  ⟨hquiet.order, hquiet.data, fun key => .of_eq (hquiet.held key)⟩

/-- What is not on the environment does not matter. -/
theorem of_environment (horder : InOrder lcl c) (henvironment : c'.environment = c.environment) :
    Quiet lcl c c' := by
  have htables : c'.tables 0 = c.tables 0 := by rw [tables, henvironment]
  refine ⟨.of_spelled (horder.spelled.of_environment henvironment) ?_, ?_, fun key address => ?_⟩
  · rw [reads, htables]
    exact horder.proper
  · rw [LedgerContext.data, henvironment, LedgerContext.data]
  · rw [reads, htables]

end Quiet

theorem Shifted.trans {issued issued' : AssetKey → ℤ} (hfirst : Shifted lcl c c' issued)
    (hsecond : Shifted lcl c' c'' issued') : Shifted lcl c c'' (issued + issued') :=
  ⟨hsecond.order, hsecond.data.trans hfirst.data,
    fun key => (hfirst.shifts key).trans (hsecond.shifts key)⟩

theorem Shifted.congr {issued issued' : AssetKey → ℤ} (hshifted : Shifted lcl c c' issued)
    (heq : ∀ key, issued' key = issued key) : Shifted lcl c c' issued' :=
  (funext heq : issued' = issued) ▸ hshifted

/-! ## The steps -/

namespace InOrder

theorem wide (horder : InOrder lcl c) : 2 ≤ c.environment.accounts.length :=
  horder.rooted.accounts

/-- A read. -/
theorem getEntry (horder : InOrder lcl c) (haddress : Canonical address) :
    Quiet lcl c (c.getEntry lcl 0 address).2 := by
  have hreads : (c.getEntry lcl 0 address).2.reads lcl = c.reads lcl :=
    funext fun other => view_getEntry horder.wide address other
  refine ⟨.of_spelled (horder.spelled.getEntry haddress lcl) ?_, data_getEntry horder.wide address,
    fun key other => by rw [hreads]⟩
  rw [hreads]
  exact horder.proper

/-- What a write through a pointer keeps in order. -/
theorem modify (horder : InOrder lcl c) (hderef : c.deref 0 address = some account)
    {f : AccountFrm → AccountFrm} (haccounted : Accounted lcl address (f account)) :
    InOrder lcl (c.modifyEntry 0 address f) :=
  .of_spelled (horder.spelled.modifyEntry hderef f) <|
    horder.proper.update haccounted fun other => view_modifyEntry horder.wide hderef f other

theorem accounted_of_deref (horder : InOrder lcl c) (hderef : c.deref 0 address = some account) :
    Accounted lcl address account :=
  horder.proper.accounted address account (view_of_deref horder.wide hderef)

/-- A write that is not about the assets. -/
theorem modifyEntry (horder : InOrder lcl c) (hderef : c.deref 0 address = some account)
    (f : AccountFrm → AccountFrm) (hassets : (f account).assets = account.assets)
    (haddress : (f account).address = account.address)
    (hcontract : (f account).contract = account.contract) :
    Quiet lcl c (c.modifyEntry 0 address f) := by
  have haccounted := horder.accounted_of_deref hderef
  refine ⟨horder.modify hderef ⟨haccounted.sound.of_assets hassets,
      fun hcanonical => haddress.trans (haccounted.own hcanonical),
      hcontract.trans haccounted.contract⟩, data_modifyEntry horder.wide .., fun key other => ?_⟩
  rw [held, held, reads, view_modifyEntry horder.wide hderef]
  split
  · rename_i heq
    rw [heq, reads, view_of_deref horder.wide hderef]
    simp only [Option.elim_some, AccountFrm.holding, AccountFrm.getAsset, hassets]
  · rfl

/-- A write of the amount of an asset. -/
theorem setAsset (horder : InOrder lcl c) (hderef : c.deref 0 address = some account)
    (key : AssetKey) {amount : Int64} (hamount : 0 ≤ amount.toInt) :
    Shifted lcl c (c.modifyEntry 0 address (·.setAsset key amount)) fun other =>
      if other = key then amount.toInt - account.holding key else 0 := by
  have haccounted := horder.accounted_of_deref hderef
  have hreads : c.reads lcl address = some account := view_of_deref horder.wide hderef
  have hafter : ∀ other, (c.modifyEntry 0 address (·.setAsset key amount)).reads lcl other =
      if other = address then some (account.setAsset key amount) else c.reads lcl other :=
    fun other => view_modifyEntry horder.wide hderef (·.setAsset key amount) other
  refine ⟨horder.modify hderef ⟨haccounted.sound.setAsset key hamount, haccounted.own,
    haccounted.contract⟩, data_modifyEntry horder.wide .., fun other => ?_⟩
  have hheld : CegChain.held other ((c.modifyEntry 0 address (·.setAsset key amount)).reads lcl)
      address = (account.setAsset key amount).holding other :=
    held_of_eq_some (by rw [hafter, if_pos rfl])
  have hbefore : CegChain.held other (c.reads lcl) address = account.holding other :=
    held_of_eq_some hreads
  have hshift : Shifts (CegChain.held other (c.reads lcl)) (CegChain.held other
      ((c.modifyEntry 0 address (·.setAsset key amount)).reads lcl)) _ :=
    .of_ne address fun b hb => by rw [held, held, hafter, if_neg hb]
  rw [hheld, hbefore, AccountFrm.holding_setAsset] at hshift
  by_cases heq : other = key
  · subst heq
    simpa using hshift
  · simpa [heq] using hshift

/-- A new account without assets or code. -/
theorem addEntry (horder : InOrder lcl c) (hnone : c.reads lcl address = none)
    (haddress : Canonical address) {frm : AccountFrm} (hassets : frm.assets = [])
    (hown : frm.address = address) (hcontract : frm.contract = {}) :
    Quiet lcl c (c.addEntry 0 address frm) := by
  have hdb : lcl.accountFromDB address = none := by
    by_contra hsome
    have hkeeps := horder.proper.kept address (Option.isSome_iff_ne_none.mpr hsome)
    rw [hnone] at hkeeps
    cases hkeeps
  have hsound : frm.Sound := by
    refine ⟨?_, fun entry hmem => ?_⟩
    · rw [hassets]
      exact List.nodup_nil
    · rw [hassets] at hmem
      cases hmem
  refine ⟨.of_spelled (horder.spelled.addEntry haddress frm)
    (horder.proper.update ⟨hsound, fun _ => hown, ?_⟩ fun other =>
      view_addEntry horder.wide address frm other),
    data_addEntry horder.wide .., fun key other => ?_⟩
  · rw [hcontract, hdb]
    rfl
  · rw [held, held, reads, view_addEntry horder.wide]
    split
    · rename_i heq
      rw [heq, hnone]
      simp [AccountFrm.holding, AccountFrm.getAsset, hassets]
    · rfl

theorem commit (horder : InOrder lcl c) : InOrder lcl (c.commit 0) := by
  refine .of_spelled horder.spelled.commit ?_
  rw [horder.spelled.reads_commit]
  exact horder.proper

end InOrder

end CegChain
