import CegChain.Ledger.Charge
import CegChain.Ledger.Lockstep

/-!
# States that show the same accounts

Reading an account leaves a copy of it in the buffer, and committing the buffer
leaves the copy in the data of the block.  Such copies are invisible: two states
whose buffers hold the same values and whose data show the same accounts over the
database (`Similar`) give the same answers to every operation and stay similar
(`lockstep_similar`), so they run through a whole block in lockstep.

The copies are invisible although a nested frame does not look at the data of the
block: it does not look at it on either side.
-/

namespace CegChain

open Layers AtomMap

/-! ## Tables -/

section Tables

variable {K V : Type*} [DecidableEq K] {db : K → Option V}

/-- The same keys with the same values; how a record came about may differ. -/
def SameTable (t t' : Map K V) : Prop :=
  ∀ key, (t'.lookup key).map Record.value? = (t.lookup key).map Record.value?

/-- The same buffers over data that show the same values. -/
inductive SameTables (db : K → Option V) : List (Map K V) → List (Map K V) → Prop where
  | data {t t' : Map K V}
      (hview : ∀ key, view Record.value? db [t'] key = view Record.value? db [t] key) :
      SameTables db [t] [t']
  | cons {t t' : Map K V} {rest rest' : List (Map K V)} (htable : SameTable t t')
      (hrest : SameTables db rest rest') : SameTables db (t :: rest) (t' :: rest')

theorem SameTable.refl (t : Map K V) : SameTable t t := fun _ => rfl

theorem SameTable.view_cons {t t' : Map K V} (htable : SameTable t t') {rest rest' : List (Map K V)}
    {key : K} (hrest : view Record.value? db rest' key = view Record.value? db rest key) :
    view Record.value? db (t' :: rest') key = view Record.value? db (t :: rest) key := by
  have hkey := htable key
  cases ht : t.lookup key with
  | none =>
      rw [ht, Option.map_none, Option.map_eq_none_iff] at hkey
      rw [view_cons_of_not_mem ht, view_cons_of_not_mem hkey, hrest]
  | some r =>
      rw [ht, Option.map_some, Option.map_eq_some_iff] at hkey
      obtain ⟨r', ht', hvalue⟩ := hkey
      rw [view_cons_of_lookup ht, view_cons_of_lookup ht', hvalue]

theorem SameTable.insert {t t' : Map K V} (htable : SameTable t t') {key : K} {r r' : Record V}
    (hvalue : r'.value? = r.value?) : SameTable (t.insert key r) (t'.insert key r') := by
  intro other
  rw [lookup_insert_eq, lookup_insert_eq]
  split
  · rw [Option.map_some, Option.map_some, hvalue]
  · exact htable other

theorem SameTable.modify {t t' : Map K V} (htable : SameTable t t') (key : K) (f : V → V) :
    SameTable (AtomMap.modify t key f) (AtomMap.modify t' key f) := by
  have hkey := htable key
  unfold AtomMap.modify
  cases ht : t.lookup key with
  | none =>
      rw [ht, Option.map_none, Option.map_eq_none_iff] at hkey
      rw [hkey]
      exact htable
  | some r =>
      rw [ht, Option.map_some, Option.map_eq_some_iff] at hkey
      obtain ⟨r', ht', hvalue⟩ := hkey
      rw [ht']
      refine htable.insert ?_
      rw [Record.value?_map, Record.value?_map, hvalue]

theorem SameTable.union {t t' u u' : Map K V} (ht : SameTable t t') (hu : SameTable u u') :
    SameTable (t ∪ u) (t' ∪ u') := by
  intro key
  have hkey := ht key
  rw [lookup_union, lookup_union]
  cases hlookup : t.lookup key with
  | none =>
      rw [hlookup, Option.map_none, Option.map_eq_none_iff] at hkey
      rw [hkey, Option.none_or, Option.none_or]
      exact hu key
  | some r =>
      rw [hlookup, Option.map_some, Option.map_eq_some_iff] at hkey
      obtain ⟨r', hr', hvalue⟩ := hkey
      rw [hr', Option.some_or, Option.some_or, Option.map_some, Option.map_some, hvalue]

namespace SameTables

theorem refl {t : Map K V} {rest : List (Map K V)} : SameTables db (t :: rest) (t :: rest) := by
  induction rest generalizing t with
  | nil => exact .data fun _ => rfl
  | cons u rest ih => exact .cons (SameTable.refl t) ih

theorem length_eq {tables tables' : List (Map K V)} (hsame : SameTables db tables tables') :
    tables'.length = tables.length := by
  induction hsame with
  | data _ => rfl
  | cons _ _ ih => rw [List.length_cons, List.length_cons, ih]

theorem drop {tables tables' : List (Map K V)} (hsame : SameTables db tables tables') {n : ℕ}
    (hn : n < tables.length) : SameTables db (tables.drop n) (tables'.drop n) := by
  induction hsame generalizing n with
  | data hview =>
      obtain rfl : n = 0 := by simpa using hn
      exact .data hview
  | cons htable hrest ih =>
      cases n with
      | zero => exact .cons htable hrest
      | succ n => exact ih (by simpa using hn)

/-- The first table shows the same over the database. -/
theorem view_head {t t' : Map K V} {rest rest' : List (Map K V)}
    (hsame : SameTables db (t :: rest) (t' :: rest')) (key : K) :
    view Record.value? db [t'] key = view Record.value? db [t] key := by
  cases hsame with
  | data hview => exact hview key
  | cons htable _ => exact htable.view_cons rfl

variable {b b' t t' : Map K V} {rest rest' : List (Map K V)}

/-- A read finds the same and copies the same. -/
theorem getValue (hbuff : SameTable b b') (hsame : SameTables db (t :: rest) (t' :: rest'))
    (key : K) :
    (AtomMap.getValue db b' t' key).1 = (AtomMap.getValue db b t key).1 ∧
      SameTable (AtomMap.getValue db b t key).2 (AtomMap.getValue db b' t' key).2 := by
  have hfst : (AtomMap.getValue db b' t' key).1 = (AtomMap.getValue db b t key).1 := by
    have h := getOn_zero_fst db key b t []
    have h' := getOn_zero_fst db key b' t' []
    rw [readThrough_eq_view] at h h'
    exact h'.trans ((hbuff.view_cons (hsame.view_head key)).trans h.symm)
  refine ⟨hfst, fun other => ?_⟩
  by_cases hother : other = key
  · subst hother
    cases hfound : (AtomMap.getValue db b t other).1 with
    | none =>
        rw [getValue_snd_of_none hfound, getValue_snd_of_none (hfst.trans hfound)]
        exact hbuff other
    | some v =>
        obtain ⟨r, hr, hv⟩ := getValue_snd_value hfound
        obtain ⟨r', hr', hv'⟩ := getValue_snd_value (hfst.trans hfound)
        rw [hr, hr', Option.map_some, Option.map_some, hv, hv']
  · rw [getValue_snd_lookup_ne db b t hother, getValue_snd_lookup_ne db b' t' hother]
    exact hbuff other

/-- Folding the first table into the next one. -/
theorem union (hbuff : SameTable b b') (hsame : SameTables db (t :: rest) (t' :: rest')) :
    SameTables db ((b ∪ t) :: rest) ((b' ∪ t') :: rest') := by
  cases hsame with
  | data hview =>
      refine .data fun key => ?_
      rw [view_union_cons, view_union_cons]
      exact hbuff.view_cons (hview key)
  | cons htable hrest => exact .cons (hbuff.union htable) hrest

end SameTables

end Tables

/-! ## States of a block -/

/-- The states show the same accounts and are otherwise equal, up to the journal;
the second has not crashed unless the first has. -/
structure Similar (lcl : Closed) (c d : LedgerContext) : Prop where
  two_le : 2 ≤ c.environment.accounts.length
  accounts : SameTables lcl.accountFromDB c.environment.accounts d.environment.accounts
  settings : d.environment.settings = c.environment.settings
  stack : d.transactionStack = c.transactionStack
  totalFee : d.totalFee = c.totalFee
  crashed : d.crashed = true → c.crashed = true

namespace Similar

variable {lcl : Closed} {c d : LedgerContext}

theorem rfl' (hwide : 2 ≤ c.environment.accounts.length) : Similar lcl c c := by
  refine ⟨hwide, ?_, rfl, rfl, rfl, id⟩
  cases haccounts : c.environment.accounts with
  | nil => simp [haccounts] at hwide
  | cons t rest => exact SameTables.refl

variable (hsim : Similar lcl c d)

include hsim

theorem exists_tables (level : ℕ) : ∃ b t rest b' t' rest',
    c.tables level = b :: t :: rest ∧ d.tables level = b' :: t' :: rest' ∧ SameTable b b' ∧
      SameTables lcl.accountFromDB (t :: rest) (t' :: rest') := by
  have htwo := hsim.two_le
  have htables : SameTables lcl.accountFromDB (c.tables level) (d.tables level) := by
    simp only [LedgerContext.tables, EnvStack.enter, hsim.accounts.length_eq]
    exact hsim.accounts.drop (by omega)
  obtain ⟨b, t, rest, hc⟩ := LedgerContext.exists_tables (LedgerContext.length_tables htwo level)
  rw [hc] at htables
  generalize hd : d.tables level = tables' at htables
  cases htables with
  | cons htable hrest =>
      rename_i b' rest'
      cases rest' with
      | nil => cases hrest
      | cons t' rest' => exact ⟨b, t, rest, b', t', rest', hc, rfl, htable, hrest⟩

theorem settings_enter (level : ℕ) :
    (d.environment.enter level).settings = (c.environment.enter level).settings := by
  simp only [EnvStack.enter, hsim.settings]

/-- The rule for operations that leave new tables. -/
theorem of_tables {c' d' : LedgerContext} {b b' t t' : Map Address AccountFrm}
    {rest rest' : List (Map Address AccountFrm)}
    (hc : c'.environment.accounts = b :: t :: rest)
    (hd : d'.environment.accounts = b' :: t' :: rest') (hbuff : SameTable b b')
    (hrest : SameTables lcl.accountFromDB (t :: rest) (t' :: rest'))
    (hsettings : d'.environment.settings = c'.environment.settings)
    (hbooks : c'.transactionStack = c.transactionStack ∧ d'.transactionStack = d.transactionStack ∧
      c'.totalFee = c.totalFee ∧ d'.totalFee = d.totalFee ∧
      c'.crashed = c.crashed ∧ d'.crashed = d.crashed) : Similar lcl c' d' := by
  obtain ⟨hcs, hds, hcf, hdf, hcc, hdc⟩ := hbooks
  refine ⟨by simp [hc], ?_, hsettings, ?_, ?_, ?_⟩
  · rw [hc, hd]
    exact .cons hbuff hrest
  · rw [hds, hsim.stack, hcs]
  · rw [hdf, hsim.totalFee, hcf]
  · rw [hdc, hcc]
    exact hsim.crashed

theorem getEntry (level : ℕ) (address : Address) :
    Agree (Similar lcl) (c.getEntry lcl level address) (d.getEntry lcl level address) := by
  obtain ⟨b, t, rest, b', t', rest', hc, hd, hbuff, hrest⟩ := hsim.exists_tables level
  obtain ⟨hfst, hsnd⟩ := SameTables.getValue hbuff hrest address
  have hget : ∀ {e : LedgerContext} {u v : Map Address AccountFrm} {w},
      e.tables level = u :: v :: w →
        getOn lcl.accountFromDB 0 address (e.tables level) =
          ((getValue lcl.accountFromDB u v address).1,
            (getValue lcl.accountFromDB u v address).2 :: v :: w) := by
    intro e u v w he
    rw [he]
    rfl
  constructor
  · show (getOn _ 0 address (d.tables level)).1 = (getOn _ 0 address (c.tables level)).1
    rw [hget hc, hget hd]
    exact hfst
  · refine hsim.of_tables (congrArg Prod.snd (hget hc)) (congrArg Prod.snd (hget hd)) hsnd hrest
      (hsim.settings_enter level) ?_
    exact ⟨rfl, rfl, rfl, rfl, rfl, rfl⟩

theorem deref (level : ℕ) (address : Address) : d.deref level address = c.deref level address := by
  obtain ⟨b, t, rest, b', t', rest', hc, hd, hbuff, -⟩ := hsim.exists_tables level
  rw [LedgerContext.deref_eq hc, LedgerContext.deref_eq hd]
  have hvalue := congrArg (Option.bind · id) (hbuff address)
  simpa only [Option.bind_map, Function.id_comp] using hvalue

theorem modifyEntry (level : ℕ) (address : Address) (f : AccountFrm → AccountFrm) :
    Similar lcl (c.modifyEntry level address f) (d.modifyEntry level address f) := by
  obtain ⟨b, t, rest, b', t', rest', hc, hd, hbuff, hrest⟩ := hsim.exists_tables level
  have haccounts : ∀ {e : LedgerContext} {u v : Map Address AccountFrm} {w},
      e.tables level = u :: v :: w →
        (e.modifyEntry level address f).environment.accounts =
          AtomMap.modify u address f :: v :: w := by
    intro e u v w he
    show (onFrame _ 0 (e.tables level)).2 = _
    rw [he]
    rfl
  refine hsim.of_tables (haccounts hc) (haccounts hd) (hbuff.modify address f) hrest
    (hsim.settings_enter level) ?_
  exact ⟨rfl, rfl, rfl, rfl, rfl, rfl⟩

theorem addEntry (level : ℕ) (address : Address) (frm : AccountFrm) :
    Similar lcl (c.addEntry level address frm) (d.addEntry level address frm) := by
  obtain ⟨b, t, rest, b', t', rest', hc, hd, hbuff, hrest⟩ := hsim.exists_tables level
  have haccounts : ∀ {e : LedgerContext} {u v : Map Address AccountFrm} {w},
      e.tables level = u :: v :: w →
        (e.addEntry level address frm).environment.accounts =
          u.insert address (.mod frm) :: v :: w := by
    intro e u v w he
    show setOn 0 address frm (e.tables level) = _
    rw [he]
    rfl
  refine hsim.of_tables (haccounts hc) (haccounts hd) (hbuff.insert rfl) hrest
    (hsim.settings_enter level) ?_
  exact ⟨rfl, rfl, rfl, rfl, rfl, rfl⟩

theorem commit (level : ℕ) : Similar lcl (c.commit level) (d.commit level) := by
  obtain ⟨b, t, rest, b', t', rest', hc, hd, hbuff, hrest⟩ := hsim.exists_tables level
  have haccounts : ∀ {e : LedgerContext} {u v : Map Address AccountFrm} {w},
      e.tables level = u :: v :: w →
        (e.commit level).environment.accounts = ∅ :: (u ∪ v) :: w := by
    intro e u v w he
    have hcommit : commitOn 0 (e.tables level) = ∅ :: (u ∪ v) :: w := by
      rw [he]
      rfl
    unfold LedgerContext.commit
    dsimp only
    split <;> exact hcommit
  have hsettings : ∀ e : LedgerContext, (e.commit level).environment.settings =
      commitOn 0 (e.environment.enter level).settings := by
    intro e
    unfold LedgerContext.commit
    dsimp only
    split <;> rfl
  have hbooks : ∀ e : LedgerContext, (e.commit level).transactionStack = e.transactionStack ∧
      (e.commit level).totalFee = e.totalFee ∧ (e.commit level).crashed = e.crashed := by
    intro e
    unfold LedgerContext.commit
    dsimp only
    split <;> exact ⟨rfl, rfl, rfl⟩
  refine hsim.of_tables (haccounts hc) (haccounts hd) (SameTable.refl ∅) (.union hbuff hrest) ?_ ?_
  · rw [hsettings, hsettings, hsim.settings_enter level]
  · exact ⟨(hbooks c).1, (hbooks d).1, (hbooks c).2.1, (hbooks d).2.1, (hbooks c).2.2,
      (hbooks d).2.2⟩

theorem clearChangeBuf (level : ℕ) : Similar lcl (c.clearChangeBuf level)
    (d.clearChangeBuf level) := by
  obtain ⟨b, t, rest, b', t', rest', hc, hd, -, hrest⟩ := hsim.exists_tables level
  have haccounts : ∀ {e : LedgerContext} {u v : Map Address AccountFrm} {w},
      e.tables level = u :: v :: w →
        (e.clearChangeBuf level).environment.accounts = ∅ :: v :: w := by
    intro e u v w he
    show clearOn 0 (e.tables level) = _
    rw [he]
    rfl
  refine hsim.of_tables (haccounts hc) (haccounts hd) (SameTable.refl ∅) hrest ?_ ?_
  · show clearOn 0 _ = clearOn 0 _
    rw [hsim.settings_enter level]
  · exact ⟨rfl, rfl, rfl, rfl, rfl, rfl⟩

theorem newStackFrameEnv (level : ℕ) :
    Similar lcl (c.newStackFrameEnv level) (d.newStackFrameEnv level) := by
  obtain ⟨b, t, rest, b', t', rest', hc, hd, hbuff, hrest⟩ := hsim.exists_tables level
  have haccounts : ∀ {e : LedgerContext} {u v : Map Address AccountFrm} {w},
      e.tables level = u :: v :: w →
        (e.newStackFrameEnv level).environment.accounts = ∅ :: u :: v :: w := by
    intro e u v w he
    rw [← he]
    rfl
  refine hsim.of_tables (haccounts hc) (haccounts hd) (SameTable.refl ∅) (.cons hbuff hrest) ?_ ?_
  · show ∅ :: _ = ∅ :: _
    rw [hsim.settings_enter level]
  · exact ⟨rfl, rfl, rfl, rfl, rfl, rfl⟩

/-- The rule for operations on the settings of a level. -/
theorem of_settings (level : ℕ) (settings : List (Map String Setting)) :
    Similar lcl { c with environment := ⟨c.tables level, settings⟩ }
      { d with environment := ⟨d.tables level, settings⟩ } := by
  obtain ⟨b, t, rest, b', t', rest', hc, hd, hbuff, hrest⟩ := hsim.exists_tables level
  exact hsim.of_tables hc hd hbuff hrest rfl ⟨rfl, rfl, rfl, rfl, rfl, rfl⟩

theorem getValidators (level : ℕ) :
    Agree (Similar lcl) (c.getValidators lcl level) (d.getValidators lcl level) := by
  unfold LedgerContext.getValidators EnvStack.getValidators EnvStack.getSetting
  dsimp only
  rw [hsim.settings_enter level]
  split
  · exact ⟨rfl, hsim.of_settings level _⟩
  · unfold EnvStack.setSetting
    exact ⟨rfl, hsim.of_settings level _⟩

theorem updateNewValidators (level : ℕ) (validators : Setting) :
    Similar lcl (c.updateNewValidators level validators)
      (d.updateNewValidators level validators) := by
  unfold LedgerContext.updateNewValidators EnvStack.updateNewValidators EnvStack.setSetting
  rw [hsim.settings_enter level]
  exact hsim.of_settings level _

theorem updateFeeConfig (level : ℕ) (fees : Setting) :
    Similar lcl (c.updateFeeConfig level fees) (d.updateFeeConfig level fees) := by
  unfold LedgerContext.updateFeeConfig EnvStack.updateFeeConfig EnvStack.getSetting
  dsimp only
  rw [hsim.settings_enter level]
  split
  · exact hsim.of_settings level _
  · exact hsim.of_settings level _

theorem mark (entry entry' : Mark) : Similar lcl (c.mark entry) (d.mark entry') :=
  ⟨hsim.two_le, hsim.accounts, hsim.settings, hsim.stack, hsim.totalFee, hsim.crashed⟩

theorem setTotalFee (totalFee : Int64) :
    Similar lcl { c with totalFee := totalFee } { d with totalFee := totalFee } :=
  ⟨hsim.two_le, hsim.accounts, hsim.settings, hsim.stack, rfl, hsim.crashed⟩

end Similar

/-- **Similar states run in lockstep.** -/
theorem lockstep_similar (lcl : Closed) : Lockstep lcl (Similar lcl) where
  stack_eq hsim := hsim.stack
  getEntry hsim level _ := hsim.getEntry level
  deref := Similar.deref
  modifyEntry hsim level _ := hsim.modifyEntry level
  addEntry hsim level _ := hsim.addEntry level
  commit hsim level := hsim.commit (level + 1)
  newStackFrameEnv := Similar.newStackFrameEnv
  getValidators := Similar.getValidators
  updateNewValidators := Similar.updateNewValidators
  updateFeeConfig := Similar.updateFeeConfig
  setStack hsim _ :=
    ⟨hsim.two_le, hsim.accounts, hsim.settings, rfl, hsim.totalFee, hsim.crashed⟩
  crash hsim := ⟨hsim.two_le, hsim.accounts, hsim.settings, hsim.stack, hsim.totalFee, id⟩
  executed hsim _ := hsim.mark _ _
  keep hsim := ⟨hsim.two_le, hsim.accounts, hsim.settings, hsim.stack, hsim.totalFee, hsim.crashed⟩

/-! ## Blocks -/

/-- What a contract does, and whether it is found expired, at the end or on the way, depends on
the transaction and on what the state shows. -/
structure Runtime.Deterministic (lcl : Closed) (rt : Runtime) : Prop where
  program : ∀ {c d}, Similar lcl c d → ∀ env, rt.program env d = rt.program env c
  isExpire : ∀ {c d}, Similar lcl c d → ∀ env, rt.isExpire env d = rt.isExpire env c
  caughtExpiry : ∀ {c d}, Similar lcl c d → ∀ env, rt.caughtExpiry env d = rt.caughtExpiry env c

section Blocks

variable {lib : Library} {lcl : Closed} {c d : LedgerContext} {rt : Runtime} {env : TransactionEnv}

theorem TransactionFrm.similar_returnFee (hsim : Similar lcl c d) (env : TransactionEnv)
    (result : ErrCode) (actualGas : Int64) (level : ℕ) :
    Similar lcl (returnFee lcl env result actualGas level c)
      (returnFee lcl env result actualGas level d) := by
  dsimp only [returnFee]
  split
  · exact hsim
  · split
    · exact hsim
    · split
      · exact hsim
      · obtain ⟨found, c₁, d₁, hc, hd, hsim₁⟩ :=
          (hsim.getEntry level env.transaction.sourceAddress).exists_eq
        rw [hc, hd]
        cases found with
        | none => exact hsim₁
        | some account =>
            dsimp only
            rw [hsim₁.totalFee]
            split
            · exact hsim₁
            · split
              · exact hsim₁.setTotalFee _
              · exact (hsim₁.setTotalFee _).modifyEntry ..

namespace LedgerFrm

theorem similar_settle (hsim : Similar lcl c d) (env : TransactionEnv) (size : ℕ)
    (succeeded : Option ErrCode) :
    Similar lcl (settle lcl env size succeeded c) (settle lcl env size succeeded d) := by
  have hgas : ownGas size d = ownGas size c := by
    unfold ownGas
    rw [hsim.stack]
  cases succeeded with
  | none => exact (lockstep_similar lcl).pop (hsim.clearChangeBuf 0)
  | some result =>
      refine (lockstep_similar lcl).pop (Similar.clearChangeBuf ?_ 0)
      dsimp only
      rw [hgas]
      exact (TransactionFrm.similar_returnFee hsim ..).commit 0

theorem agree_applyCharged (hdet : rt.Deterministic lcl)
    (hcharge : Similar lcl (charge lcl env c) (charge lcl env d))
    (hstack : d.transactionStack = c.transactionStack) (lib : Library) :
    Agree (Similar lcl) (applyCharged lib lcl rt env c) (applyCharged lib lcl rt env d) := by
  dsimp only [applyCharged]
  obtain ⟨code, c₁, d₁, hc, hd, hsim₁⟩ :=
    (agree_execute (lockstep_similar lcl) lib (hdet.program hcharge env) hcharge).exists_eq
  have hsettle := similar_settle hsim₁ env c.transactionStack.length
  have hnoted : noted rt env d₁ = noted rt env c₁ := by
    unfold noted
    rw [hdet.caughtExpiry hsim₁]
  rw [hc, hd, hstack, hdet.isExpire hsim₁]
  dsimp only
  rw [hnoted]
  split
  · exact ⟨rfl, hsettle none⟩
  · split
    · exact ⟨rfl, hsettle none⟩
    · exact ⟨rfl, hsettle (some _)⟩

end LedgerFrm

end Blocks

end CegChain
