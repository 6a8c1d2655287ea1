import CegChain.Utils.AtomMap

/-!
# The block environment and its stack of frames

`ledger/environment.cpp` keeps the accounts and the settings of a block in two
`AtomMap`s.  The root `Environment` of a block owns its committed data; every
frame that `NewStackFrameEnv` builds on top of another one gets the *buffer* of
that one as its `data_`.  A stack of environments is therefore a list of tables

```text
[buffer of the innermost frame, ..., buffer of the root, committed data of the root]
```

in which the `data_` of a frame is the table right after its buffer.  All
operations act on one frame, addressed by its position from the inside
(`onFrame`); what they see is that frame's buffer and the next table.

`readThrough` states what a nested frame is meant to see: the newest record in
the whole list, and the database only when no table has one.
`getEntry_eq_readThrough_iff` compares it with what `GetValue` returns, which
looks at two tables and then at the database.
-/

namespace CegChain

open Layers AtomMap

/-! ## Frames of one map -/

section Frames

variable {K : Type*} {V : Type*} [DecidableEq K] {α : Type*}

/-- Run an operation on the `frame`-th environment of a stack: it is given the
buffer of that frame and the table its `data_` points to. -/
def onFrame (f : Map K V → Map K V → α × Map K V × Map K V) :
    ℕ → List (Map K V) → Option α × List (Map K V)
  | 0, buff :: data :: rest =>
      let r := f buff data
      (some r.1, r.2.1 :: r.2.2 :: rest)
  | frame + 1, buff :: rest =>
      let r := onFrame f frame rest
      (r.1, buff :: r.2)
  | _, tables => (none, tables)

/-- `Get` on a frame. -/
def getOn (db : K → Option V) (frame : ℕ) (key : K) (tables : List (Map K V)) :
    Option V × List (Map K V) :=
  let r := onFrame (fun buff data =>
    let g := getValue db buff data key
    (g.1, g.2, data)) frame tables
  (r.1.join, r.2)

/-- `Set` on a frame. -/
def setOn (frame : ℕ) (key : K) (ptr : V) (tables : List (Map K V)) : List (Map K V) :=
  (onFrame (fun buff data => ((), setValue buff key ptr, data)) frame tables).2

/-- A write through a pointer that `Get` returned on this frame. -/
def modifyOn (db : K → Option V) (frame : ℕ) (key : K) (f : V → V) (tables : List (Map K V)) :
    List (Map K V) :=
  (onFrame (fun buff data => ((), modify (getValue db buff data key).2 key f, data))
    frame tables).2

/-- `Commit` of a frame into the table its `data_` points to. -/
def commitOn (frame : ℕ) (tables : List (Map K V)) : List (Map K V) :=
  (onFrame (fun buff data => ((), commit buff data false)) frame tables).2

/-- `ClearChangeBuf` of a frame. -/
def clearOn (frame : ℕ) (tables : List (Map K V)) : List (Map K V) :=
  (onFrame (fun _ data => ((), clearChangeBuf, data)) frame tables).2

/-- What a frame on top of `tables` is meant to read: the newest record of all
tables, and the database only when there is none. -/
def readThrough (db : K → Option V) (tables : List (Map K V)) (key : K) : Option V :=
  match newest tables key with
  | some r => r.value?
  | none => db key

/-- The tables that `GetValue` looks at, the innermost buffer and the table next
to it, have a record for `key`; or those it does not look at have none; or the
newest record there is what the database holds anyway. -/
def SeesNewest (db : K → Option V) : List (Map K V) → K → Prop
  | buff :: data :: rest, key =>
      key ∈ buff ∨ key ∈ data ∨ ∀ r, newest rest key = some r → r.value? = db key
  | _, _ => True

instance [DecidableEq V] (db : K → Option V) :
    ∀ (tables : List (Map K V)) (key : K), Decidable (SeesNewest db tables key)
  | [], _ => isTrue trivial
  | [_], _ => isTrue trivial
  | buff :: data :: rest, key =>
      inferInstanceAs (Decidable
        (key ∈ buff ∨ key ∈ data ∨ ∀ r, r ∈ newest rest key → r.value? = db key))

omit [DecidableEq K] in
theorem length_onFrame (f : Map K V → Map K V → α × Map K V × Map K V) :
    ∀ (frame : ℕ) (tables : List (Map K V)),
      (onFrame f frame tables).2.length = tables.length := by
  intro frame
  induction frame with
  | zero =>
      intro tables
      rcases tables with _ | ⟨buff, _ | ⟨data, rest⟩⟩ <;> rfl
  | succ frame ih =>
      intro tables
      cases tables with
      | nil => rfl
      | cons buff rest => simp [onFrame, ih rest]

theorem getOn_zero_fst (db : K → Option V) (key : K) (buff data : Map K V)
    (rest : List (Map K V)) :
    (getOn db 0 key (buff :: data :: rest)).1 = readThrough db [buff, data] key :=
  getValue_fst db buff data key

/-- The innermost frame reads the newest value exactly when the tables beyond
its reach have nothing to add. -/
theorem getOn_zero_eq_readThrough_iff (db : K → Option V) (key : K) {tables : List (Map K V)}
    (hlength : 2 ≤ tables.length) :
    (getOn db 0 key tables).1 = readThrough db tables key ↔ SeesNewest db tables key := by
  obtain ⟨buff, data, rest, rfl⟩ : ∃ buff data rest, tables = buff :: data :: rest := by
    rcases tables with _ | ⟨buff, _ | ⟨data, rest⟩⟩
    · simp at hlength
    · simp at hlength
    · exact ⟨buff, data, rest, rfl⟩
  rw [getOn_zero_fst]
  unfold readThrough SeesNewest
  by_cases hbuff : key ∈ buff
  · obtain ⟨r, hr⟩ := Option.isSome_iff_exists.mp (AList.lookup_isSome.mpr hbuff)
    simp [newest_cons_of_lookup hr, hbuff]
  · rw [newest_cons_of_not_mem (AList.lookup_eq_none.mpr hbuff),
      newest_cons_of_not_mem (AList.lookup_eq_none.mpr hbuff)]
    by_cases hdata : key ∈ data
    · obtain ⟨r, hr⟩ := Option.isSome_iff_exists.mp (AList.lookup_isSome.mpr hdata)
      simp [newest_cons_of_lookup hr, hdata]
    · rw [newest_cons_of_not_mem (AList.lookup_eq_none.mpr hdata),
        newest_cons_of_not_mem (AList.lookup_eq_none.mpr hdata), newest_nil]
      -- neither table in reach has the key: the code answers from the database
      cases hrest : newest rest key with
      | none =>
          refine ⟨fun _ => Or.inr (Or.inr fun r hr => ?_), fun _ => rfl⟩
          exact absurd (hrest.symm.trans hr) (by simp)
      | some r =>
          constructor
          · intro heq
            refine Or.inr (Or.inr fun r' hr' => ?_)
            rw [← Option.some.inj (hrest.symm.trans hr')]
            exact heq.symm
          · rintro (hmem | hmem | hagree)
            · exact absurd hmem hbuff
            · exact absurd hmem hdata
            · exact (hagree r hrest).symm

end Frames

/-! ## Stacks of environments -/

/-- A stack of `Environment`s of one block: for the accounts and for the
settings, the buffers from the innermost frame to the root and the committed
data of the root.  Accounts are keyed by their address string. -/
structure EnvStack (K A J : Type*) where
  accounts : List (Map K A)
  settings : List (Map String J)

namespace EnvStack

variable {K A J : Type*} [DecidableEq K]

/-- `Environment::Environment()`: the root of a block, nothing buffered and
nothing committed. -/
def root : EnvStack K A J :=
  ⟨[∅, ∅], [∅, ∅]⟩

/-- `Environment::GetEntry`. -/
def getEntry (db : K → Option A) (frame : ℕ) (key : K) (env : EnvStack K A J) :
    Option A × EnvStack K A J :=
  let r := getOn db frame key env.accounts
  (r.1, { env with accounts := r.2 })

/-- `Environment::AddEntry`. -/
def addEntry (frame : ℕ) (key : K) (frm : A) (env : EnvStack K A J) : EnvStack K A J :=
  { env with accounts := setOn frame key frm env.accounts }

/-- A write through the account pointer that `GetEntry` returned. -/
def modifyEntry (db : K → Option A) (frame : ℕ) (key : K) (f : A → A)
    (env : EnvStack K A J) : EnvStack K A J :=
  { env with accounts := modifyOn db frame key f env.accounts }

/-- `settings_.Get`.  The settings map has no database behind it: it keeps the
`GetFromDB` of `AtomMap`, which finds nothing. -/
def getSetting (frame : ℕ) (key : String) (env : EnvStack K A J) : Option J × EnvStack K A J :=
  let r := getOn (fun _ => none) frame key env.settings
  (r.1, { env with settings := r.2 })

/-- `settings_.Set`. -/
def setSetting (frame : ℕ) (key : String) (value : J) (env : EnvStack K A J) : EnvStack K A J :=
  { env with settings := setOn frame key value env.settings }

/-- A write through the pointer that `settings_.Get` returned. -/
def modifySetting (frame : ℕ) (key : String) (f : J → J) (env : EnvStack K A J) : EnvStack K A J :=
  { env with settings := modifyOn (fun _ => none) frame key f env.settings }

/-- `Environment::Commit`: the settings, then the accounts. -/
def commit (frame : ℕ) (env : EnvStack K A J) : EnvStack K A J :=
  ⟨commitOn frame env.accounts, commitOn frame env.settings⟩

/-- `Environment::ClearChangeBuf`. -/
def clearChangeBuf (frame : ℕ) (env : EnvStack K A J) : EnvStack K A J :=
  ⟨clearOn frame env.accounts, clearOn frame env.settings⟩

/-- `Environment::NewStackFrameEnv` on the innermost frame: the new frame's
`data_` is the buffer of the one it is built on. -/
def newStackFrameEnv (env : EnvStack K A J) : EnvStack K A J :=
  ⟨∅ :: env.accounts, ∅ :: env.settings⟩

/-- The innermost frame is destroyed; the root of the block never is. -/
def dropFrame (env : EnvStack K A J) : EnvStack K A J :=
  if env.accounts.length ≤ 2 then env
  else ⟨env.accounts.tail, env.settings.tail⟩

/-! ### Settings kept in the environment -/

/-- `Environment::validatorsKey`. -/
def validatorsKey : String := "validators"

/-- `Environment::feesKey`. -/
def feesKey : String := "configFees"

/-- `Environment::UpdateFeeConfig`: merge the new prices into the fees of the
frame, or take them whole when it has none. -/
def updateFeeConfig (merge : J → J → J) (frame : ℕ) (feeConfig : J) (env : EnvStack K A J) :
    EnvStack K A J :=
  let r := env.getSetting frame feesKey
  match r.1 with
  | none => r.2.setSetting frame feesKey feeConfig
  | some _ => r.2.modifySetting frame feesKey (merge · feeConfig)

/-- `Environment::GetValidators`: the validators of the frame, or the last
closed ledger's, which the frame then keeps. -/
def getValidators (ledgerValidators : J) (frame : ℕ) (env : EnvStack K A J) : J × EnvStack K A J :=
  let r := env.getSetting frame validatorsKey
  match r.1 with
  | some validators => (validators, r.2)
  | none => (ledgerValidators, r.2.setSetting frame validatorsKey ledgerValidators)

/-- `Environment::UpdateNewValidators`. -/
def updateNewValidators (frame : ℕ) (validators : J) (env : EnvStack K A J) : EnvStack K A J :=
  env.setSetting frame validatorsKey validators

end EnvStack

/-! ## Histories -/

/-- One call on an environment of the stack.  Calls on outer frames are allowed
while inner ones exist. -/
inductive EnvOp (K A J : Type*) where
  | getEntry (frame : ℕ) (key : K)
  | addEntry (frame : ℕ) (key : K) (frm : A)
  | modifyEntry (frame : ℕ) (key : K) (f : A → A)
  | getSetting (frame : ℕ) (key : String)
  | setSetting (frame : ℕ) (key : String) (value : J)
  | modifySetting (frame : ℕ) (key : String) (f : J → J)
  | commit (frame : ℕ)
  | clearChangeBuf (frame : ℕ)
  | newStackFrameEnv
  | dropFrame

namespace EnvStack

variable {K A J : Type*} [DecidableEq K]

/-- The stack after one call. -/
def step (db : K → Option A) (env : EnvStack K A J) : EnvOp K A J → EnvStack K A J
  | .getEntry frame key => (env.getEntry db frame key).2
  | .addEntry frame key frm => env.addEntry frame key frm
  | .modifyEntry frame key f => env.modifyEntry db frame key f
  | .getSetting frame key => (env.getSetting frame key).2
  | .setSetting frame key value => env.setSetting frame key value
  | .modifySetting frame key f => env.modifySetting frame key f
  | .commit frame => env.commit frame
  | .clearChangeBuf frame => env.clearChangeBuf frame
  | .newStackFrameEnv => env.newStackFrameEnv
  | .dropFrame => env.dropFrame

/-- The stack after a history of calls on the root of a block. -/
def run (db : K → Option A) (history : List (EnvOp K A J)) : EnvStack K A J :=
  history.foldl (step db) root

/-- Accounts and settings have one buffer for each frame, and there is always a
root with its committed data. -/
structure WellFormed (env : EnvStack K A J) : Prop where
  two_le : 2 ≤ env.accounts.length
  length_eq : env.settings.length = env.accounts.length

omit [DecidableEq K] in
theorem wellFormed_root : (root : EnvStack K A J).WellFormed :=
  ⟨le_rfl, rfl⟩

theorem wellFormed_step (db : K → Option A) {env : EnvStack K A J} (henv : env.WellFormed)
    (op : EnvOp K A J) : (env.step db op).WellFormed := by
  obtain ⟨htwo, hlength⟩ := henv
  cases op with
  | newStackFrameEnv =>
      exact ⟨by simp only [step, newStackFrameEnv, List.length_cons]; omega,
        by simp only [step, newStackFrameEnv, List.length_cons, hlength]⟩
  | dropFrame =>
      simp only [step, dropFrame]
      split
      · exact ⟨htwo, hlength⟩
      · exact ⟨by simp only [List.length_tail]; omega, by simp only [List.length_tail, hlength]⟩
  | _ =>
      constructor <;>
        simp only [step, getEntry, addEntry, modifyEntry, getSetting, setSetting, modifySetting,
          commit, clearChangeBuf, getOn, setOn, modifyOn, commitOn, clearOn, length_onFrame] <;>
        assumption

theorem wellFormed_run (db : K → Option A) (history : List (EnvOp K A J)) :
    (run db history).WellFormed :=
  List.foldlRecOn history (step db) wellFormed_root
    fun _ henv op _ => wellFormed_step db henv op

/-! ## Reading through the frames -/

/-- **What a frame really sees.**  After any history, a read in the innermost
frame returns the newest value of all enclosing frames exactly when no table
beyond the buffer it was built on has anything else to say. -/
theorem getEntry_eq_readThrough_iff (db : K → Option A) (history : List (EnvOp K A J))
    (key : K) (setting : String) :
    (((run db history).getEntry db 0 key).1 = readThrough db (run db history).accounts key ↔
        SeesNewest db (run db history).accounts key) ∧
      (((run db history).getSetting 0 setting).1 =
          readThrough (fun _ => none) (run db history).settings setting ↔
        SeesNewest (fun _ => none) (run db history).settings setting) := by
  have hwf := wellFormed_run db history
  refine ⟨getOn_zero_eq_readThrough_iff db key hwf.two_le,
    getOn_zero_eq_readThrough_iff _ setting ?_⟩
  rw [hwf.length_eq]
  exact hwf.two_le

/-- A block in which a first transaction pays 10 to `x` and a second one calls a
contract: the frame of the contract still reads the 5 of the database. -/
theorem nested_getEntry_misses_committed :
    let db : String → Option ℕ := fun key => if key = "x" then some 5 else none
    let history : List (EnvOp String ℕ ℕ) :=
      [.modifyEntry 0 "x" (· + 10), .commit 0, .setSetting 0 "validators" 7, .commit 0,
        .newStackFrameEnv]
    ((run db history).getEntry db 0 "x").1 = some 5 ∧
      readThrough db (run db history).accounts "x" = some 15 ∧
      ((run db history).getSetting 0 "validators").1 = none ∧
      readThrough (fun _ => none) (run db history).settings "validators" = some 7 := by
  decide

end EnvStack

end CegChain
