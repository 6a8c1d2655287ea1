import CegChain.Ledger.Similar

/-!
# Between two transactions

Between the transactions of a block only its root environment is in use, and a
read there cannot be noticed at all: it copies an account from the data or from
the database into the buffer, where the next read finds the same account.
`SameRoot` relates two states whose roots read the same, whatever has been copied
so far.  Checking a transaction without charging it keeps the relation
(`read_left`), and so does everything else that happens between transactions; a
commit makes the states `Similar` (`SameRoot.commit`).
-/

namespace CegChain

open Layers AtomMap

/-- The settings of the root, its buffer and its data. -/
abbrev LedgerContext.rootSettings (c : LedgerContext) : List (Map String Setting) :=
  (c.environment.enter 0).settings

/-- The roots of the two states read the same. -/
structure SameRoot (lcl : Closed) (c d : LedgerContext) : Prop where
  wide : 2 ≤ c.environment.accounts.length
  wide' : 2 ≤ d.environment.accounts.length
  reads : ∀ address, view Record.value? lcl.accountFromDB (d.tables 0) address =
    view Record.value? lcl.accountFromDB (c.tables 0) address
  data : ∀ address, shown lcl d.data address = shown lcl c.data address
  settings : d.rootSettings = c.rootSettings
  stack : d.transactionStack = c.transactionStack
  totalFee : d.totalFee = c.totalFee
  crashed : d.crashed = true → c.crashed = true

/-! ## Reads and writes of the root -/

namespace LedgerContext

variable {lcl : Closed} {c : LedgerContext} {address : Address}

theorem getEntry_zero_fst (hwide : 2 ≤ c.environment.accounts.length) (address : Address) :
    (c.getEntry lcl 0 address).1 =
      view Record.value? lcl.accountFromDB (c.tables 0) address := by
  obtain ⟨buff, htables⟩ := exists_buffer hwide
  rw [← readThrough_eq_view]
  show (getOn lcl.accountFromDB 0 address (c.tables 0)).1 = _
  rw [htables]
  exact getOn_zero_fst ..

theorem tables_zero_getEntry {buff data : Map Address AccountFrm}
    (htables : c.tables 0 = [buff, data]) (address : Address) :
    (c.getEntry lcl 0 address).2.tables 0 =
      [(getValue lcl.accountFromDB buff data address).2, data] := by
  rw [tables_getEntry, htables]
  rfl

theorem two_le_getEntry (hwide : 2 ≤ c.environment.accounts.length) (level : ℕ)
    (address : Address) : 2 ≤ (c.getEntry lcl level address).2.environment.accounts.length := by
  show 2 ≤ (getOn lcl.accountFromDB 0 address (c.tables level)).2.length
  rw [getOn, length_onFrame]
  exact length_tables hwide level

theorem two_le_modifyEntry (hwide : 2 ≤ c.environment.accounts.length) (level : ℕ)
    (address : Address) (f : AccountFrm → AccountFrm) :
    2 ≤ (c.modifyEntry level address f).environment.accounts.length :=
  (length_tables hwide level).trans_eq (length_onFrame _ 0 _).symm

theorem two_le_addEntry (hwide : 2 ≤ c.environment.accounts.length) (level : ℕ)
    (address : Address) (frm : AccountFrm) :
    2 ≤ (c.addEntry level address frm).environment.accounts.length :=
  (length_tables hwide level).trans_eq (length_onFrame _ 0 _).symm

theorem data_getEntry (hwide : 2 ≤ c.environment.accounts.length) (address : Address) :
    (c.getEntry lcl 0 address).2.data = c.data := by
  obtain ⟨buff, htables⟩ := exists_buffer hwide
  rw [← getLast?_tables (two_le_getEntry hwide 0 address) 0, tables_zero_getEntry htables]
  rfl

theorem data_modifyEntry (hwide : 2 ≤ c.environment.accounts.length) (address : Address)
    (f : AccountFrm → AccountFrm) : (c.modifyEntry 0 address f).data = c.data := by
  obtain ⟨buff, htables⟩ := exists_buffer hwide
  show ((onFrame _ 0 (c.tables 0)).2.getLast?).getD ∅ = _
  rw [htables]
  rfl

theorem data_addEntry (hwide : 2 ≤ c.environment.accounts.length) (address : Address)
    (frm : AccountFrm) : (c.addEntry 0 address frm).data = c.data := by
  obtain ⟨buff, htables⟩ := exists_buffer hwide
  show ((setOn 0 address frm (c.tables 0)).getLast?).getD ∅ = _
  rw [htables]
  rfl

/-- A read at the root cannot be noticed. -/
theorem view_getEntry (hwide : 2 ≤ c.environment.accounts.length) (address other : Address) :
    view Record.value? lcl.accountFromDB ((c.getEntry lcl 0 address).2.tables 0) other =
      view Record.value? lcl.accountFromDB (c.tables 0) other := by
  obtain ⟨buff, htables⟩ := exists_buffer hwide
  have hfound : (getValue lcl.accountFromDB buff c.data address).1 =
      view Record.value? lcl.accountFromDB [buff, c.data] address := by
    rw [← htables, ← getEntry_zero_fst hwide]
    show _ = (getOn lcl.accountFromDB 0 address (c.tables 0)).1
    rw [htables]
    rfl
  rw [tables_zero_getEntry htables, htables]
  by_cases hother : other = address
  · subst hother
    cases hvalue : (getValue lcl.accountFromDB buff c.data other).1 with
    | none => rw [getValue_snd_of_none hvalue]
    | some account =>
        obtain ⟨r, hlookup, hr⟩ := getValue_snd_value hvalue
        rw [view_cons_of_lookup hlookup, ← hfound, hvalue, hr]
  · refine view_congr ?_
    rw [newest_cons, newest_cons buff, getValue_snd_lookup_ne _ _ _ hother]

/-- A write through a pointer is what is read through all tables. -/
theorem view_modifyEntry (hwide : 2 ≤ c.environment.accounts.length) {level : ℕ}
    {account : AccountFrm} (hderef : c.deref level address = some account)
    (f : AccountFrm → AccountFrm) (other : Address) :
    view Record.value? lcl.accountFromDB ((c.modifyEntry level address f).tables level) other =
      if other = address then some (f account)
      else view Record.value? lcl.accountFromDB (c.tables level) other := by
  obtain ⟨buff, data, rest, htables⟩ := exists_tables (length_tables hwide level)
  rw [deref_eq htables] at hderef
  obtain ⟨r, hlookup, hvalue⟩ := Option.bind_eq_some_iff.mp hderef
  have hafter : (c.modifyEntry level address f).tables level =
      buff.insert address (r.map f) :: data :: rest := by
    rw [tables_modifyEntry, htables]
    show AtomMap.modify buff address f :: data :: rest = _
    rw [AtomMap.modify, hlookup]
  rw [hafter, htables]
  split
  · rename_i heq
    rw [heq, view_cons_of_lookup (AList.lookup_insert _), Record.value?_map, hvalue,
      Option.map_some]
  · rename_i hne
    refine view_congr ?_
    rw [newest_cons, newest_cons buff, AList.lookup_insert_ne hne]

/-- A new account goes into the buffer. -/
theorem exists_tables_addEntry (hwide : 2 ≤ c.environment.accounts.length) (level : ℕ)
    (address : Address) (frm : AccountFrm) :
    ∃ buff rest, c.tables level = buff :: rest ∧
      (c.addEntry level address frm).tables level = buff.insert address (.mod frm) :: rest := by
  obtain ⟨buff, data, rest, htables⟩ := exists_tables (length_tables hwide level)
  refine ⟨buff, data :: rest, htables, ?_⟩
  rw [tables_addEntry, htables]
  rfl

theorem view_addEntry (hwide : 2 ≤ c.environment.accounts.length) {level : ℕ} (address : Address)
    (frm : AccountFrm) (other : Address) :
    view Record.value? lcl.accountFromDB ((c.addEntry level address frm).tables level) other =
      if other = address then some frm
      else view Record.value? lcl.accountFromDB (c.tables level) other := by
  obtain ⟨buff, rest, htables, hafter⟩ := exists_tables_addEntry hwide level address frm
  rw [hafter, htables]
  split
  · rename_i heq
    rw [heq, view_cons_of_lookup (AList.lookup_insert _)]
    rfl
  · rename_i hne
    refine view_congr ?_
    rw [newest_cons, newest_cons buff, AList.lookup_insert_ne hne]

/-- What a pointer leads to is what is read through all tables. -/
theorem view_of_deref (hwide : 2 ≤ c.environment.accounts.length) {level : ℕ}
    {account : AccountFrm} (hderef : c.deref level address = some account) :
    view Record.value? lcl.accountFromDB (c.tables level) address = some account := by
  obtain ⟨buff, data, rest, htables⟩ := exists_tables (length_tables hwide level)
  rw [deref_eq htables] at hderef
  obtain ⟨r, hlookup, hvalue⟩ := Option.bind_eq_some_iff.mp hderef
  rw [htables, view_cons_of_lookup hlookup, hvalue]

theorem deref_addEntry (hwide : 2 ≤ c.environment.accounts.length) {level : ℕ}
    (address : Address) (frm : AccountFrm) :
    (c.addEntry level address frm).deref level address = some frm := by
  obtain ⟨buff, rest, -, hafter⟩ := exists_tables_addEntry hwide level address frm
  rw [deref_eq hafter, AList.lookup_insert]
  rfl

/-! ### Pointers stay -/

theorem deref_getEntry_ne (hwide : 2 ≤ c.environment.accounts.length) {level : ℕ}
    {other : Address} (hne : address ≠ other) :
    (c.getEntry lcl level other).2.deref level address = c.deref level address := by
  obtain ⟨buff, data, rest, htables⟩ := exists_tables (length_tables hwide level)
  have hafter : (c.getEntry lcl level other).2.tables level =
      (getValue lcl.accountFromDB buff data other).2 :: data :: rest := by
    rw [tables_getEntry, htables]
    rfl
  rw [deref_eq hafter, deref_eq htables, getValue_snd_lookup_ne _ _ _ hne]

theorem isSome_deref_getEntry (hwide : 2 ≤ c.environment.accounts.length) {level : ℕ}
    (other : Address) (hsome : (c.deref level address).isSome) :
    ((c.getEntry lcl level other).2.deref level address).isSome := by
  by_cases heq : address = other
  · subst heq
    obtain ⟨account, haccount⟩ := Option.isSome_iff_exists.mp hsome
    rcases hget : c.getEntry lcl level address with ⟨found, c₁⟩
    rw [(deref_of_getEntry (length_tables hwide level) haccount hget).2]
    rfl
  · rwa [deref_getEntry_ne hwide heq]

theorem deref_addEntry_ne (hwide : 2 ≤ c.environment.accounts.length) {level : ℕ}
    {other : Address} (hne : address ≠ other) (frm : AccountFrm) :
    (c.addEntry level other frm).deref level address = c.deref level address := by
  obtain ⟨buff, rest, htables, hafter⟩ := exists_tables_addEntry hwide level other frm
  rw [deref_eq hafter, AList.lookup_insert_ne hne, ← deref_eq htables]

theorem isSome_deref_addEntry (hwide : 2 ≤ c.environment.accounts.length) {level : ℕ}
    (other : Address) (frm : AccountFrm) (hsome : (c.deref level address).isSome) :
    ((c.addEntry level other frm).deref level address).isSome := by
  by_cases heq : address = other
  · subst heq
    rw [deref_addEntry hwide]
    rfl
  · rwa [deref_addEntry_ne hwide heq]

theorem deref_modifyEntry_ne (hwide : 2 ≤ c.environment.accounts.length) {level : ℕ}
    {other : Address} (hne : address ≠ other) (f : AccountFrm → AccountFrm) :
    (c.modifyEntry level other f).deref level address = c.deref level address := by
  obtain ⟨buff, data, rest, htables⟩ := exists_tables (length_tables hwide level)
  have hafter : (c.modifyEntry level other f).tables level =
      AtomMap.modify buff other f :: data :: rest := by
    rw [tables_modifyEntry, htables]
    rfl
  have hlookup : (AtomMap.modify buff other f).lookup address = buff.lookup address := by
    unfold AtomMap.modify
    split
    · exact AList.lookup_insert_ne hne
    · rfl
  rw [deref_eq hafter, hlookup, ← deref_eq htables]

theorem isSome_deref_modifyEntry (hwide : 2 ≤ c.environment.accounts.length) {level : ℕ}
    (other : Address) (f : AccountFrm → AccountFrm) (hsome : (c.deref level address).isSome) :
    ((c.modifyEntry level other f).deref level address).isSome := by
  by_cases heq : address = other
  · subst heq
    obtain ⟨account, haccount⟩ := Option.isSome_iff_exists.mp hsome
    rw [deref_modifyEntry (length_tables hwide level) f haccount]
    rfl
  · rwa [deref_modifyEntry_ne hwide heq]

end LedgerContext

/-! ## What keeps the relation -/

open LedgerContext

theorem Similar.sameRoot {lcl : Closed} {c d : LedgerContext} (hsim : Similar lcl c d) :
    SameRoot lcl c d := by
  obtain ⟨b, t, rest, b', t', rest', hc, hd, hbuff, hrest⟩ := hsim.exists_tables 0
  have hwide : 2 ≤ d.environment.accounts.length :=
    hsim.two_le.trans_eq hsim.accounts.length_eq.symm
  obtain ⟨buff, hc'⟩ := exists_buffer hsim.two_le
  obtain ⟨buff', hd'⟩ := exists_buffer hwide
  rw [hc] at hc'
  rw [hd] at hd'
  obtain ⟨rfl, rfl, rfl⟩ : b = buff ∧ t = c.data ∧ rest = [] := by simpa using hc'
  obtain ⟨rfl, rfl, rfl⟩ : b' = buff' ∧ t' = d.data ∧ rest' = [] := by simpa using hd'
  refine ⟨hsim.two_le, hwide, fun address => ?_, fun address => hrest.view_head address,
    hsim.settings_enter 0, hsim.stack, hsim.totalFee, hsim.crashed⟩
  rw [hc, hd]
  exact hbuff.view_cons (hrest.view_head address)

namespace SameRoot

variable {lcl : Closed} {c d : LedgerContext} (hroot : SameRoot lcl c d)

include hroot

omit hroot in
theorem settings_enter_zero {c c' : LedgerContext}
    (hsettings : c'.environment.settings = (c.environment.enter 0).settings) :
    (c'.environment.enter 0).settings = (c.environment.enter 0).settings := by
  simp only [EnvStack.enter] at hsettings ⊢
  rw [hsettings, List.drop_drop, List.length_drop]
  congr 1
  omega

/-- A read on the first side alone. -/
theorem read_left (address : Address) : SameRoot lcl (c.getEntry lcl 0 address).2 d where
  wide := two_le_getEntry hroot.wide ..
  wide' := hroot.wide'
  reads other := by
    rw [view_getEntry hroot.wide]
    exact hroot.reads other
  data other := by
    rw [data_getEntry hroot.wide]
    exact hroot.data other
  settings := hroot.settings.trans (settings_enter_zero rfl).symm
  stack := hroot.stack
  totalFee := hroot.totalFee
  crashed := hroot.crashed

/-- A read on the second side alone. -/
theorem read_right (address : Address) : SameRoot lcl c (d.getEntry lcl 0 address).2 where
  wide := hroot.wide
  wide' := two_le_getEntry hroot.wide' ..
  reads other := by
    rw [view_getEntry hroot.wide']
    exact hroot.reads other
  data other := by
    rw [data_getEntry hroot.wide']
    exact hroot.data other
  settings := (settings_enter_zero rfl).trans hroot.settings
  stack := hroot.stack
  totalFee := hroot.totalFee
  crashed := hroot.crashed

theorem getEntry (address : Address) :
    Agree (SameRoot lcl) (c.getEntry lcl 0 address) (d.getEntry lcl 0 address) := by
  refine ⟨?_, (hroot.read_left address).read_right address⟩
  rw [getEntry_zero_fst hroot.wide, getEntry_zero_fst hroot.wide']
  exact hroot.reads address

/-- A write through pointers to the same account. -/
theorem modifyEntry {address : Address} {account : AccountFrm}
    (hc : c.deref 0 address = some account) (hd : d.deref 0 address = some account)
    (f : AccountFrm → AccountFrm) :
    SameRoot lcl (c.modifyEntry 0 address f) (d.modifyEntry 0 address f) where
  wide := two_le_modifyEntry hroot.wide ..
  wide' := two_le_modifyEntry hroot.wide' ..
  reads other := by
    rw [view_modifyEntry hroot.wide hc, view_modifyEntry hroot.wide' hd, hroot.reads other]
  data other := by
    rw [data_modifyEntry hroot.wide, data_modifyEntry hroot.wide']
    exact hroot.data other
  settings := (settings_enter_zero rfl).trans (hroot.settings.trans (settings_enter_zero rfl).symm)
  stack := hroot.stack
  totalFee := hroot.totalFee
  crashed := hroot.crashed

theorem addEntry (address : Address) (frm : AccountFrm) :
    SameRoot lcl (c.addEntry 0 address frm) (d.addEntry 0 address frm) where
  wide := two_le_addEntry hroot.wide ..
  wide' := two_le_addEntry hroot.wide' ..
  reads other := by
    rw [view_addEntry hroot.wide, view_addEntry hroot.wide', hroot.reads other]
  data other := by
    rw [data_addEntry hroot.wide, data_addEntry hroot.wide']
    exact hroot.data other
  settings := (settings_enter_zero rfl).trans (hroot.settings.trans (settings_enter_zero rfl).symm)
  stack := hroot.stack
  totalFee := hroot.totalFee
  crashed := hroot.crashed

theorem setTotalFee (totalFee : Int64) :
    SameRoot lcl { c with totalFee := totalFee } { d with totalFee := totalFee } :=
  ⟨hroot.wide, hroot.wide', hroot.reads, hroot.data, hroot.settings, hroot.stack, rfl,
    hroot.crashed⟩

theorem setStack (stack : List StackTx) :
    SameRoot lcl { c with transactionStack := stack } { d with transactionStack := stack } :=
  ⟨hroot.wide, hroot.wide', hroot.reads, hroot.data, hroot.settings, rfl, hroot.totalFee,
    hroot.crashed⟩

theorem crash : SameRoot lcl c.crash d.crash :=
  ⟨hroot.wide, hroot.wide', hroot.reads, hroot.data, hroot.settings, hroot.stack, hroot.totalFee,
    id⟩

/-- A commit leaves empty buffers over data that show the same. -/
theorem commit : Similar lcl (c.commit 0) (d.commit 0) := by
  obtain ⟨buff, hc⟩ := exists_buffer hroot.wide
  obtain ⟨buff', hd⟩ := exists_buffer hroot.wide'
  have haccounts : ∀ {e : LedgerContext} {u : Map Address AccountFrm},
      e.tables 0 = [u, e.data] → (e.commit 0).environment.accounts = [∅, u ∪ e.data] := by
    intro e u he
    show commitOn 0 (e.tables 0) = _
    rw [he]
    rfl
  refine ⟨by simp [haccounts hc], ?_, ?_, hroot.stack, hroot.totalFee, hroot.crashed⟩
  · rw [haccounts hc, haccounts hd]
    refine .cons (SameTable.refl ∅) (.data fun address => ?_)
    have hreads := hroot.reads address
    rwa [hc, hd, ← view_union_cons, ← view_union_cons] at hreads
  · exact congrArg (commitOn 0) hroot.settings

end SameRoot

/-! ## Blocks -/

section Blocks

variable {lib : Library} {lcl : Closed} {c d : LedgerContext} {env : TransactionEnv}

namespace TransactionFrm

/-- Checking a transaction on the first side alone. -/
theorem sameRoot_validForApply (hroot : SameRoot lcl c d) (lib : Library) (env : TransactionEnv) :
    SameRoot lcl (validForApply lib lcl env 0 c).2 d := by
  have hread := hroot.read_left env.transaction.sourceAddress
  unfold validForApply
  split
  · rcases hget : c.getEntry lcl 0 env.transaction.sourceAddress with ⟨_ | account, c₁⟩
    · rw [hget] at hread
      exact hread
    · rw [hget] at hread
      dsimp only
      split
      · exact hread
      · split <;> exact hread
  · exact hroot

theorem agree_validForApply_root (hroot : SameRoot lcl c d) (lib : Library)
    (env : TransactionEnv) :
    Agree (SameRoot lcl) (validForApply lib lcl env 0 c) (validForApply lib lcl env 0 d) := by
  unfold validForApply
  split
  · obtain ⟨found, c₁, d₁, hc, hd, hroot₁⟩ :=
      (hroot.getEntry env.transaction.sourceAddress).exists_eq
    rw [hc, hd]
    cases found with
    | none => exact ⟨rfl, hroot₁⟩
    | some account =>
        dsimp only
        split
        · exact ⟨rfl, hroot₁⟩
        · split <;> exact ⟨rfl, hroot₁⟩
  · exact ⟨rfl, hroot⟩

theorem agree_payFee_root (hroot : SameRoot lcl c d) (env : TransactionEnv) :
    Agree (SameRoot lcl) (payFee lcl env 0 c) (payFee lcl env 0 d) := by
  dsimp only [payFee]
  obtain ⟨found, c₁, d₁, hc, hd, hroot₁⟩ :=
    (hroot.getEntry env.transaction.sourceAddress).exists_eq
  rw [hc, hd]
  cases found with
  | none => exact ⟨rfl, hroot₁⟩
  | some account =>
      dsimp only
      rw [hroot₁.totalFee]
      split
      · exact ⟨rfl, hroot₁⟩
      · rename_i totalFee _
        have hroot₂ := hroot₁.setTotalFee totalFee
        have hderef := deref_getEntry hc
        have hderef' := deref_getEntry hd
        split
        · exact ⟨rfl, hroot₂⟩
        · exact ⟨rfl, hroot₂.modifyEntry hderef hderef' _⟩

theorem sameRoot_nonceIncrease (hroot : SameRoot lcl c d) (env : TransactionEnv) :
    SameRoot lcl (nonceIncrease lcl env 0 c) (nonceIncrease lcl env 0 d) := by
  unfold nonceIncrease
  obtain ⟨found, c₁, d₁, hc, hd, hroot₁⟩ :=
    (hroot.getEntry env.transaction.sourceAddress).exists_eq
  rw [hc, hd]
  cases found with
  | none => exact hroot₁
  | some account => exact hroot₁.modifyEntry (deref_getEntry hc) (deref_getEntry hd) _

end TransactionFrm

namespace LedgerFrm

theorem similar_charge (hroot : SameRoot lcl c d) (env : TransactionEnv) :
    Similar lcl (charge lcl env c) (charge lcl env d) := by
  have hpush : SameRoot lcl (c.push { env := env }) (d.push { env := env }) := by
    rw [LedgerContext.push, LedgerContext.push, hroot.stack]
    exact hroot.setStack _
  exact (TransactionFrm.sameRoot_nonceIncrease hpush env).commit.mark _ _

/-- The validators that were rewarded are in the buffer. -/
theorem isSome_deref_rewardEach {averageFee : Int64} {validators : List Address}
    {c c' : LedgerContext} (hwide : 2 ≤ c.environment.accounts.length)
    (heach : rewardEach lcl averageFee validators c = (true, c')) {address : Address}
    (hmem : address ∈ validators ∨ (c.deref 0 address).isSome) :
    (c'.deref 0 address).isSome := by
  induction validators generalizing c with
  | nil =>
      obtain ⟨-, rfl⟩ := Prod.mk.inj heach
      exact hmem.resolve_left List.not_mem_nil
  | cons validator validators ih =>
      dsimp only [rewardEach] at heach
      have hwide₁ : 2 ≤ (c.getEntry lcl 0 validator).2.environment.accounts.length :=
        two_le_getEntry hwide 0 validator
      have hkept : (c.deref 0 address).isSome →
          ((c.getEntry lcl 0 validator).2.deref 0 address).isSome :=
        isSome_deref_getEntry hwide validator
      rcases hget : c.getEntry lcl 0 validator with ⟨found, c₁⟩
      rw [hget] at heach hwide₁ hkept
      cases found with
      | none =>
          simp only [Option.getD_none, if_true] at heach
          have hwide₂ := two_le_addEntry hwide₁ 0 validator
            (AccountFrm.creatAccountFrm validator 0)
          split at heach
          · simp at heach
          · refine ih (two_le_modifyEntry hwide₂ ..) heach ?_
            rcases hmem with hmem | hsome
            · rcases List.mem_cons.mp hmem with rfl | hmem
              · refine .inr (isSome_deref_modifyEntry hwide₂ _ _ ?_)
                rw [deref_addEntry hwide₁]
                rfl
              · exact .inl hmem
            · exact .inr (isSome_deref_modifyEntry hwide₂ _ _
                (isSome_deref_addEntry hwide₁ _ _ (hkept hsome)))
      | some account =>
          simp only [Option.getD_some, reduceCtorEq, if_false] at heach
          split at heach
          · simp at heach
          · refine ih (two_le_modifyEntry hwide₁ ..) heach ?_
            rcases hmem with hmem | hsome
            · rcases List.mem_cons.mp hmem with rfl | hmem
              · refine .inr (isSome_deref_modifyEntry hwide₁ _ _ ?_)
                rw [deref_getEntry hget]
                rfl
              · exact .inl hmem
            · exact .inr (isSome_deref_modifyEntry hwide₁ _ _ (hkept hsome))

theorem agree_rewardEach (hroot : SameRoot lcl c d) (averageFee : Int64)
    (validators : List Address) :
    Agree (SameRoot lcl) (rewardEach lcl averageFee validators c)
      (rewardEach lcl averageFee validators d) := by
  induction validators generalizing c d with
  | nil => exact ⟨rfl, hroot⟩
  | cons address validators ih =>
      dsimp only [rewardEach]
      obtain ⟨found, c₁, d₁, hc, hd, hroot₁⟩ := (hroot.getEntry address).exists_eq
      rw [hc, hd]
      dsimp only
      cases found with
      | none =>
          simp only [Option.getD_none, if_true]
          have hadd := hroot₁.addEntry address (AccountFrm.creatAccountFrm address 0)
          split
          · exact ⟨rfl, hadd⟩
          · exact ih (hadd.modifyEntry (deref_addEntry hroot₁.wide ..)
              (deref_addEntry hroot₁.wide' ..) _)
      | some account =>
          simp only [Option.getD_some, reduceCtorEq, if_false]
          split
          · exact ⟨rfl, hroot₁⟩
          · exact ih (hroot₁.modifyEntry (deref_getEntry hc) (deref_getEntry hd) _)

theorem agree_allocateRewardDirectly (hroot : SameRoot lcl c d) (seq : ℤ)
    (totalReward : Int64) :
    Agree (SameRoot lcl) (allocateRewardDirectly lcl seq totalReward c)
      (allocateRewardDirectly lcl seq totalReward d) := by
  dsimp only [allocateRewardDirectly]
  split
  · exact ⟨rfl, hroot⟩
  · rename_i validators _
    split
    · exact ⟨rfl, hroot⟩
    · obtain ⟨done, c₁, d₁, hc, hd, hroot₁⟩ := (agree_rewardEach hroot
        (totalReward / Int64.ofNat validators.length) validators).exists_eq
      rw [hc, hd]
      cases done with
      | false => exact ⟨rfl, hroot₁⟩
      | true =>
          dsimp only
          split
          · generalize hrandom : (if seq.tmod validators.length < 0 then none
              else validators[(seq.tmod validators.length).toNat]?) = random
            cases random with
            | none => exact ⟨rfl, hroot₁.crash⟩
            | some address =>
                have hmem : address ∈ validators := by
                  split_ifs at hrandom
                  exact List.mem_of_getElem? hrandom
                obtain ⟨account, haccount⟩ := Option.isSome_iff_exists.mp
                  (isSome_deref_rewardEach hroot.wide hc (.inl hmem))
                obtain ⟨account', haccount'⟩ := Option.isSome_iff_exists.mp
                  (isSome_deref_rewardEach hroot.wide' hd (.inl hmem))
                -- both buffers have the account, so both pointers lead to what is read
                have heq : account' = account := by
                  have hreads := hroot₁.reads address
                  rw [view_of_deref hroot₁.wide haccount, view_of_deref hroot₁.wide' haccount']
                    at hreads
                  exact Option.some.inj hreads
                subst heq
                simp only [Option.bind_some, haccount, haccount', Option.map_some]
                split
                · exact ⟨rfl, hroot₁⟩
                · exact ⟨rfl, hroot₁.modifyEntry haccount haccount' _⟩
          · exact ⟨rfl, hroot₁⟩

theorem agree_allocateReward (hroot : SameRoot lcl c d) (seq : ℤ) :
    Agree (SameRoot lcl) (allocateReward lcl seq c) (allocateReward lcl seq d) := by
  have hdirect : ∀ {c d : LedgerContext} (totalReward : Int64), SameRoot lcl c d →
      Agree (SameRoot lcl)
        (commitReward (allocateRewardDirectly lcl seq totalReward c))
        (commitReward (allocateRewardDirectly lcl seq totalReward d)) := by
    intro c d totalReward hroot
    obtain ⟨done, c₁, d₁, hc, hd, hroot₁⟩ :=
      (agree_allocateRewardDirectly hroot seq totalReward).exists_eq
    rw [hc, hd]
    cases done with
    | false => exact ⟨rfl, hroot₁⟩
    | true => exact ⟨rfl, hroot₁.commit.sameRoot⟩
  simp only [allocateReward]
  rw [hroot.totalFee]
  split
  · exact ⟨rfl, hroot⟩
  · split
    · obtain ⟨found, c₁, d₁, hc, hd, hroot₁⟩ := (hroot.getEntry lcl.validatorAddress).exists_eq
      rw [hc, hd]
      cases found with
      | none => exact hdirect _ hroot₁
      | some account =>
          dsimp only
          split
          · exact ⟨rfl, hroot₁⟩
          · exact ⟨rfl, (hroot₁.modifyEntry (deref_getEntry hc) (deref_getEntry hd)
              _).commit.sameRoot⟩
    · exact hdirect _ hroot

end LedgerFrm

end Blocks

end CegChain
