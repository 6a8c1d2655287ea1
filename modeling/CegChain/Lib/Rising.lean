import CegChain.Lib.Layers

/-!
# Stacks of maps that only raise values

A stack of finite maps over a base, read as one map (`view`).  It is *rising* for
an order on the values when every binding of a map is at least what the stack
below it shows for the same key.  Buffers that are written after reading what is
below them have this property, and folding a buffer into the map below then never
lowers what that map shows (`view_le_of_rising`).

The rules say which changes of the topmost map keep a stack rising: an empty map
(`rising_empty_cons`), a binding above what is below it (`Rising.insert`), folding
it into the next one (`Rising.union`).
-/

namespace CegChain.Layers

variable {K R V : Type*} [DecidableEq K] (val : R → Option V) (base : K → Option V)

/-- The value of a key in a stack over a base. -/
def view (tables : List (Table K R)) (key : K) : Option V :=
  match newest tables key with
  | some r => val r
  | none => base key

variable (le : V → V → Prop)

/-- `after` has a value at least as high wherever `before` has one. -/
def Above (before after : Option V) : Prop :=
  ∀ v, before = some v → ∃ w, after = some w ∧ le v w

/-- Every binding is at least what the maps below it show. -/
def Rising : List (Table K R) → Prop
  | [] => True
  | table :: rest =>
      (∀ key r, table.lookup key = some r → Above le (view val base rest key) (val r)) ∧
        Rising rest

variable {val base le}

omit [DecidableEq K] in
theorem Above.trans (htrans : ∀ a b c, le a b → le b c → le a c) {x y z : Option V}
    (hxy : Above le x y) (hyz : Above le y z) : Above le x z := by
  intro v hv
  obtain ⟨w, hw, hvw⟩ := hxy v hv
  obtain ⟨u, hu, hwu⟩ := hyz w hw
  exact ⟨u, hu, htrans v w u hvw hwu⟩

theorem Above.refl (hrefl : ∀ a, le a a) (x : Option V) : Above le x x :=
  fun v hv => ⟨v, hv, hrefl v⟩

theorem view_cons_of_lookup {table : Table K R} {key : K} {r : R}
    (hlookup : table.lookup key = some r) (rest : List (Table K R)) :
    view val base (table :: rest) key = val r := by
  rw [view, newest_cons_of_lookup hlookup]

theorem view_cons_of_not_mem {table : Table K R} {key : K}
    (hlookup : table.lookup key = none) (rest : List (Table K R)) :
    view val base (table :: rest) key = view val base rest key := by
  rw [view, newest_cons_of_not_mem hlookup, view]

theorem view_congr {tables tables' : List (Table K R)} {key : K}
    (hnewest : newest tables' key = newest tables key) :
    view val base tables' key = view val base tables key := by
  rw [view, hnewest, view]

@[simp] theorem view_empty_cons (rest : List (Table K R)) (key : K) :
    view val base (∅ :: rest) key = view val base rest key :=
  view_cons_of_not_mem (AList.lookup_empty key) rest

theorem view_union_cons (first second : Table K R) (rest : List (Table K R)) (key : K) :
    view val base ((first ∪ second) :: rest) key = view val base (first :: second :: rest) key :=
  view_congr (newest_union_cons first second rest key)

/-- In a rising stack a map shows at least what is below it. -/
theorem view_le_of_rising (hrefl : ∀ a, le a a) {table : Table K R} {rest : List (Table K R)}
    (hrising : Rising val base le (table :: rest)) (key : K) :
    Above le (view val base rest key) (view val base (table :: rest) key) := by
  cases hlookup : table.lookup key with
  | none =>
      rw [view_cons_of_not_mem hlookup]
      exact Above.refl hrefl _
  | some r =>
      rw [view_cons_of_lookup hlookup]
      exact hrising.1 key r hlookup

theorem rising_empty_cons {rest : List (Table K R)} (hrising : Rising val base le rest) :
    Rising val base le (∅ :: rest) := by
  refine ⟨fun key r hlookup => ?_, hrising⟩
  rw [AList.lookup_empty] at hlookup
  cases hlookup

theorem Rising.insert {table : Table K R} {rest : List (Table K R)} {key : K} {r : R}
    (hrising : Rising val base le (table :: rest))
    (habove : Above le (view val base rest key) (val r)) :
    Rising val base le (table.insert key r :: rest) := by
  refine ⟨fun key' r' hlookup => ?_, hrising.2⟩
  rw [lookup_insert_eq] at hlookup
  split_ifs at hlookup with hkey
  · rw [hkey, ← Option.some.inj hlookup]
    exact habove
  · exact hrising.1 key' r' hlookup

/-- Folding the topmost map into the next one keeps the stack rising. -/
theorem Rising.union (htrans : ∀ a b c, le a b → le b c → le a c) (hrefl : ∀ a, le a a)
    {first second : Table K R} {rest : List (Table K R)}
    (hrising : Rising val base le (first :: second :: rest)) :
    Rising val base le ((first ∪ second) :: rest) := by
  refine ⟨fun key r hlookup => ?_, hrising.2.2⟩
  rw [lookup_union] at hlookup
  cases hfirst : first.lookup key with
  | none =>
      rw [hfirst, Option.none_or] at hlookup
      exact hrising.2.1 key r hlookup
  | some r' =>
      rw [hfirst, Option.some_or] at hlookup
      rw [← Option.some.inj hlookup]
      exact (view_le_of_rising hrefl hrising.2 key).trans htrans (hrising.1 key r' hfirst)

theorem Rising.drop {tables : List (Table K R)} (hrising : Rising val base le tables) (n : ℕ) :
    Rising val base le (tables.drop n) := by
  induction n generalizing tables with
  | zero => exact hrising
  | succ n ih =>
      cases tables with
      | nil => exact hrising
      | cons table rest => exact ih hrising.2

/-- The lowest map of a rising stack is above the base. -/
theorem Rising.getLast {tables : List (Table K R)} (hrising : Rising val base le tables)
    (hrefl : ∀ a, le a a) (key : K) :
    Above le (base key) (view val base [tables.getLast?.getD ∅] key) := by
  induction tables with
  | nil =>
      rw [List.getLast?_nil, Option.getD_none, view_empty_cons]
      exact Above.refl hrefl _
  | cons table rest ih =>
      cases rest with
      | nil => exact view_le_of_rising hrefl hrising key
      | cons next rest =>
          rw [List.getLast?_cons_cons]
          exact ih hrising.2

end CegChain.Layers
