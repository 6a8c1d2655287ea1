import CegChain.Ledger.Context
import CegChain.Lib.Rising

/-!
# Reading and writing accounts

What `GetEntry`, a write through the pointer it returned and `AddEntry` do to the
tables of an environment, so that later files need not look into the frames.

`LedgerContext.tables level` are the tables that the environment of that level
stands on, its own buffer first.  After a read that found an account the pointer
leads to that account (`deref_getEntry`) until it is written
(`deref_modifyEntry`), and reading again gives what the pointer leads to
(`getEntry_of_deref`).
-/

namespace CegChain

open Layers AtomMap

/-! ## The tables of an environment -/

namespace EnvStack

variable {K A J : Type*} {level : ℕ}

theorem length_enter_le (level : ℕ) (env : EnvStack K A J) :
    (env.enter level).accounts.length ≤ level + 2 := by
  simp only [enter, List.length_drop]
  omega

/-- There is nothing to drop above the innermost frame. -/
theorem enter_accounts_of_le {env : EnvStack K A J} (hlength : env.accounts.length ≤ level + 2) :
    (env.enter level).accounts = env.accounts := by
  simp only [enter, Nat.sub_eq_zero_of_le hlength, List.drop_zero]

end EnvStack

section Reads

variable {K V : Type*} [DecidableEq K] {db : K → Option V} {key : K}

/-- What a frame is meant to read is the view of its tables over the database. -/
theorem readThrough_eq_view (db : K → Option V) (tables : List (Map K V)) (key : K) :
    readThrough db tables key = view Record.value? db tables key := by
  unfold readThrough view
  cases newest tables key <;> rfl

/-- A read that finds nothing changes nothing. -/
theorem getValue_snd_of_none {buff data : Map K V} (hnone : (getValue db buff data key).1 = none) :
    (getValue db buff data key).2 = buff := by
  unfold getValue at hnone ⊢
  split <;> simp_all
  split <;> simp_all
  split <;> simp_all

theorem getOn_zero_snd_of_none {tables : List (Map K V)}
    (hnone : (getOn db 0 key tables).1 = none) : (getOn db 0 key tables).2 = tables := by
  rcases tables with _ | ⟨buff, _ | ⟨data, rest⟩⟩
  · rfl
  · rfl
  · have hvalue : (getValue db buff data key).1 = none := hnone
    show (getValue db buff data key).2 :: data :: rest = _
    rw [getValue_snd_of_none hvalue]

/-- What was read once is read again. -/
theorem getOn_zero_twice {tables : List (Map K V)} {v : V}
    (hsome : (getOn db 0 key tables).1 = some v) :
    (getOn db 0 key (getOn db 0 key tables).2).1 = some v := by
  rcases tables with _ | ⟨buff, _ | ⟨data, rest⟩⟩
  · cases hsome
  · cases hsome
  · have hread : (getValue db buff data key).1 = some v := hsome
    obtain ⟨r, hlookup, hvalue⟩ := getValue_snd_value hread
    show (getValue db (getValue db buff data key).2 data key).1 = some v
    rw [getValue_fst, newest_cons_of_lookup hlookup]
    exact hvalue

end Reads

namespace LedgerContext

variable {lcl : Closed} {level : ℕ} {address : Address} {c c₁ : LedgerContext}

/-- The tables of an environment and of those below it. -/
abbrev tables (level : ℕ) (c : LedgerContext) : List (Map Address AccountFrm) :=
  (c.environment.enter level).accounts

theorem tables_of_length (hlength : c₁.environment.accounts.length = (c.tables level).length) :
    c₁.tables level = c₁.environment.accounts :=
  EnvStack.enter_accounts_of_le (hlength.trans_le (EnvStack.length_enter_le level c.environment))

theorem tables_getEntry (lcl : Closed) (level : ℕ) (address : Address) (c : LedgerContext) :
    (c.getEntry lcl level address).2.tables level =
      (getOn lcl.accountFromDB 0 address (c.tables level)).2 := by
  have hlength : (getOn lcl.accountFromDB 0 address (c.tables level)).2.length =
      (c.tables level).length := by
    unfold getOn
    exact length_onFrame _ 0 _
  exact tables_of_length (c := c) hlength

theorem tables_modifyEntry (level : ℕ) (address : Address) (f : AccountFrm → AccountFrm)
    (c : LedgerContext) :
    (c.modifyEntry level address f).tables level =
      (onFrame (fun buff data => ((), AtomMap.modify buff address f, data)) 0 (c.tables level)).2 :=
  tables_of_length (c := c) (length_onFrame _ 0 _)

theorem tables_addEntry (level : ℕ) (address : Address) (frm : AccountFrm) (c : LedgerContext) :
    (c.addEntry level address frm).tables level = setOn 0 address frm (c.tables level) :=
  tables_of_length (c := c) (length_onFrame _ 0 _)

/-- A read of the address found no account, and nothing has changed for it since. -/
def Absent (lcl : Closed) (level : ℕ) (address : Address) (c : LedgerContext) : Prop :=
  ∃ tables, Mark.read tables address ∈ c.journal ∧
    (getOn lcl.accountFromDB 0 address tables).1 = none ∧
    newest (c.tables level) address = newest tables address

theorem absent_of_getEntry (hget : c.getEntry lcl level address = (none, c₁)) :
    Absent lcl level address c₁ := by
  have hnone : (getOn lcl.accountFromDB 0 address (c.tables level)).1 = none :=
    congrArg Prod.fst hget
  obtain rfl : (c.getEntry lcl level address).2 = c₁ := congrArg Prod.snd hget
  refine ⟨c.tables level, List.mem_cons_self .., hnone, ?_⟩
  rw [tables_getEntry, getOn_zero_snd_of_none hnone]

/-- What was read once on an environment is read again. -/
theorem getEntry_twice {account : AccountFrm}
    (hget : c.getEntry lcl level address = (some account, c₁)) :
    (c₁.getEntry lcl level address).1 = some account := by
  obtain rfl : (c.getEntry lcl level address).2 = c₁ := congrArg Prod.snd hget
  show (getOn lcl.accountFromDB 0 address ((c.getEntry lcl level address).2.tables level)).1 = _
  rw [tables_getEntry]
  exact getOn_zero_twice (congrArg Prod.fst hget)

theorem newest_modifyEntry_ne {other : Address} (hne : address ≠ other)
    (f : AccountFrm → AccountFrm) :
    newest ((c.modifyEntry level other f).tables level) address =
      newest (c.tables level) address := by
  rw [tables_modifyEntry]
  rcases c.tables level with _ | ⟨buff, _ | ⟨data, rest⟩⟩
  · rfl
  · rfl
  · show newest (AtomMap.modify buff other f :: data :: rest) address = _
    rw [newest_cons, newest_cons buff, AtomMap.modify]
    split
    · rw [AList.lookup_insert_ne hne]
    · rfl

/-! ## Pointers -/

/-- The first table of an environment that has another one below it. -/
theorem exists_tables (hlength : 2 ≤ (c.tables level).length) :
    ∃ buff data rest, c.tables level = buff :: data :: rest := by
  rcases htables : c.tables level with _ | ⟨buff, _ | ⟨data, rest⟩⟩
  · simp [htables] at hlength
  · simp [htables] at hlength
  · exact ⟨buff, data, rest, rfl⟩

theorem deref_eq {buff : Map Address AccountFrm} {rest : List (Map Address AccountFrm)}
    (htables : c.tables level = buff :: rest) :
    c.deref level address = (buff.lookup address).bind Record.value? := by
  unfold deref
  rw [show (c.environment.enter level).accounts = buff :: rest from htables]

/-- A read leaves a pointer to what it found. -/
theorem deref_getEntry {account : AccountFrm}
    (hget : c.getEntry lcl level address = (some account, c₁)) :
    c₁.deref level address = some account := by
  obtain rfl : (c.getEntry lcl level address).2 = c₁ := congrArg Prod.snd hget
  have hfound : (getOn lcl.accountFromDB 0 address (c.tables level)).1 = some account :=
    congrArg Prod.fst hget
  have hafter := tables_getEntry lcl level address c
  rcases htables : c.tables level with _ | ⟨buff, _ | ⟨data, rest⟩⟩
  · rw [htables] at hfound
    cases hfound
  · rw [htables] at hfound
    cases hfound
  · rw [htables] at hfound hafter
    have hread : (getValue lcl.accountFromDB buff data address).1 = some account := hfound
    obtain ⟨r, hlookup, hvalue⟩ := getValue_snd_value hread
    rw [deref_eq hafter]
    show (((getValue lcl.accountFromDB buff data address).2).lookup address).bind _ = _
    rw [hlookup]
    exact hvalue

/-- What a pointer leads to is what a read finds. -/
theorem getEntry_of_deref (hlength : 2 ≤ (c.tables level).length) {account : AccountFrm}
    (hderef : c.deref level address = some account) :
    (c.getEntry lcl level address).1 = some account := by
  obtain ⟨buff, data, rest, htables⟩ := exists_tables hlength
  rw [deref_eq htables] at hderef
  obtain ⟨r, hlookup, hvalue⟩ := Option.bind_eq_some_iff.mp hderef
  show (getOn lcl.accountFromDB 0 address (c.tables level)).1 = some account
  rw [htables]
  show (getValue lcl.accountFromDB buff data address).1 = some account
  rw [getValue_fst, newest_cons_of_lookup hlookup]
  exact hvalue

/-- A write changes what its pointer leads to. -/
theorem deref_modifyEntry (hlength : 2 ≤ (c.tables level).length) {account : AccountFrm}
    (f : AccountFrm → AccountFrm) (hderef : c.deref level address = some account) :
    (c.modifyEntry level address f).deref level address = some (f account) := by
  obtain ⟨buff, data, rest, htables⟩ := exists_tables hlength
  have hafter := tables_modifyEntry level address f c
  rw [htables] at hafter
  rw [deref_eq htables] at hderef
  obtain ⟨r, hlookup, hvalue⟩ := Option.bind_eq_some_iff.mp hderef
  rw [deref_eq hafter]
  show ((AtomMap.modify buff address f).lookup address).bind _ = _
  rw [AtomMap.modify, hlookup]
  dsimp only
  rw [AList.lookup_insert, Option.bind_some, Record.value?_map, hvalue, Option.map_some]

theorem Absent.modifyEntry (habsent : Absent lcl level address c) {other : Address}
    (hne : address ≠ other) (f : AccountFrm → AccountFrm) :
    Absent lcl level address (c.modifyEntry level other f) := by
  obtain ⟨tables, hread, hnone, hnewest⟩ := habsent
  exact ⟨tables, hread, hnone, (newest_modifyEntry_ne hne f).trans hnewest⟩

end LedgerContext

end CegChain
