import CegChain.Lib.Layers

/-!
# The transactional map of `utils/atom_map.h`

An `AtomMap` buffers its changes in `buff_` and reads through to a map it only
holds a pointer to, `data_`; when that map has no record either, it asks
`GetFromDB`.  `data_` is the map's own `stor_` for the root of a block and the
buffer of the enclosing frame for every frame built on top of it, so the map is
described here by the two tables it can see.  The tables further out are not
arguments of `getValue`: the code has no pointer to them.

The values are shared pointers in the source.  A hit in the buffer hands out the
buffered pointer itself and the callers write through it (`modify`), while a hit
in `data_` is copied into the buffer first.
-/

namespace CegChain

open Layers

/-- `AtomMap::Record`: a value with its `actType`.  `ADD` is given to a value
loaded from the database, `MOD` to one that was set or copied from `data_`; only
a `DEL` record has no value. -/
inductive Record (V : Type*) where
  | add (ptr : V)
  | mod (ptr : V)
  | del
  deriving DecidableEq, Repr

namespace Record

variable {V : Type*}

/-- The value behind a record, absent for a deleted key. -/
def value? : Record V → Option V
  | add ptr => some ptr
  | mod ptr => some ptr
  | del => none

/-- Writing through the pointer of a record keeps its type. -/
def map (f : V → V) : Record V → Record V
  | add ptr => add (f ptr)
  | mod ptr => mod (f ptr)
  | del => del

@[simp] theorem value?_add (ptr : V) : (add ptr).value? = some ptr := rfl
@[simp] theorem value?_mod (ptr : V) : (mod ptr).value? = some ptr := rfl
@[simp] theorem value?_del : (del : Record V).value? = none := rfl

@[simp] theorem value?_map (f : V → V) (r : Record V) : (r.map f).value? = r.value?.map f := by
  cases r <;> rfl

end Record

namespace AtomMap

variable {K : Type*} {V : Type*} [DecidableEq K]

/-- `AtomMap::Map`. -/
abbrev Map (K : Type*) (V : Type*) := Table K (Record V)

/-- `AtomMap::GetValue`: the value, if any, and the buffer afterwards. -/
def getValue (getFromDB : K → Option V) (buff data : Map K V) (key : K) :
    Option V × Map K V :=
  match buff.lookup key with
  | some .del => (none, buff)
  | some (.add ptr) => (some ptr, buff)
  | some (.mod ptr) => (some ptr, buff)
  | none =>
      match data.lookup key with
      | some .del => (none, buff)
      | some (.add ptr) => (some ptr, buff.insert key (.mod ptr))
      | some (.mod ptr) => (some ptr, buff.insert key (.mod ptr))
      | none =>
          match getFromDB key with
          | none => (none, buff)
          | some ptr => (some ptr, buff.insert key (.add ptr))

/-- `AtomMap::SetValue`. -/
def setValue (buff : Map K V) (key : K) (ptr : V) : Map K V :=
  buff.insert key (.mod ptr)

/-- `AtomMap::Del`. -/
def del (buff : Map K V) (key : K) : Map K V :=
  buff.insert key .del

/-- A caller writing through the pointer it got from the buffer. -/
def modify (buff : Map K V) (key : K) (f : V → V) : Map K V :=
  match buff.lookup key with
  | some r => buff.insert key (r.map f)
  | none => buff

/-- `AtomMap::DirectCommit`: every buffered record replaces the one in `data_`,
then the buffer is cleared. -/
def directCommit (buff data : Map K V) : Map K V × Map K V :=
  (∅, buff ∪ data)

/-- `AtomMap::CopyCommit` works on a copy of `data_` and swaps it in. -/
def copyCommit (buff data : Map K V) : Map K V × Map K V :=
  let copyBuf := buff ∪ data
  (∅, copyBuf)

/-- `AtomMap::Commit`. -/
def commit (buff data : Map K V) (bakMode : Bool) : Map K V × Map K V :=
  if bakMode then copyCommit buff data else directCommit buff data

/-- `AtomMap::ClearChangeBuf`. -/
def clearChangeBuf : Map K V := ∅

/-! ## What a read returns -/

/-- A read sees its own buffer, then `data_`, then the database, and nothing
else. -/
theorem getValue_fst (getFromDB : K → Option V) (buff data : Map K V) (key : K) :
    (getValue getFromDB buff data key).1 =
      match newest [buff, data] key with
      | some r => r.value?
      | none => getFromDB key := by
  unfold getValue
  cases hbuff : buff.lookup key with
  | some r =>
      rw [newest_cons_of_lookup hbuff]
      cases r <;> rfl
  | none =>
      rw [newest_cons_of_not_mem hbuff]
      cases hdata : data.lookup key with
      | some r =>
          rw [newest_cons_of_lookup hdata]
          cases r <;> rfl
      | none =>
          rw [newest_cons_of_not_mem hdata, newest_nil]
          cases getFromDB key <;> rfl

/-- A read changes no other key of the buffer. -/
theorem getValue_snd_lookup_ne (getFromDB : K → Option V) (buff data : Map K V) {key key' : K}
    (hne : key' ≠ key) :
    (getValue getFromDB buff data key).2.lookup key' = buff.lookup key' := by
  unfold getValue
  split <;> try rfl
  split
  · rfl
  · exact AList.lookup_insert_ne hne
  · exact AList.lookup_insert_ne hne
  · split
    · rfl
    · exact AList.lookup_insert_ne hne

/-- After a read that found a value, that value is buffered. -/
theorem getValue_snd_value {getFromDB : K → Option V} {buff data : Map K V} {key : K} {ptr : V}
    (hget : (getValue getFromDB buff data key).1 = some ptr) :
    ∃ r, (getValue getFromDB buff data key).2.lookup key = some r ∧ r.value? = some ptr := by
  unfold getValue at hget ⊢
  cases hbuff : buff.lookup key with
  | some r =>
      rw [hbuff] at hget
      cases r with
      | del => simp at hget
      | add found => exact ⟨.add found, hbuff, hget⟩
      | mod found => exact ⟨.mod found, hbuff, hget⟩
  | none =>
      rw [hbuff] at hget
      cases hdata : data.lookup key with
      | some r =>
          rw [hdata] at hget
          cases r with
          | del => simp at hget
          | add found => exact ⟨.mod found, AList.lookup_insert _, hget⟩
          | mod found => exact ⟨.mod found, AList.lookup_insert _, hget⟩
      | none =>
          rw [hdata] at hget
          cases hdb : getFromDB key with
          | none =>
              rw [hdb] at hget
              simp at hget
          | some found =>
              rw [hdb] at hget
              exact ⟨.add found, AList.lookup_insert _, hget⟩

end AtomMap

end CegChain
