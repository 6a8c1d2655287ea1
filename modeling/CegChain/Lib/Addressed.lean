import CegChain.Lib.Layers

/-!
# Stores addressed by content

A table whose values stand under their own hash.  As long as no two values share a
hash, a value that is written never takes the place of another one.
-/

namespace CegChain.Layers

variable {K V : Type*} [DecidableEq K] (hash : V → K)

/-- Every value stands under its hash. -/
def Addressed (table : Table K V) : Prop :=
  ∀ key value, table.lookup key = some value → hash value = key

/-- What one table has, the other has too. -/
def Grows (table table' : Table K V) : Prop :=
  ∀ key value, table.lookup key = some value → table'.lookup key = some value

variable {hash} {table table' table'' : Table K V}

theorem Grows.refl (table : Table K V) : Grows table table :=
  fun _ _ hlookup => hlookup

theorem Grows.trans (hfirst : Grows table table') (hsecond : Grows table' table'') :
    Grows table table'' :=
  fun key value hlookup => hsecond key value (hfirst key value hlookup)

theorem addressed_empty : Addressed hash ∅ := by
  intro key value hlookup
  rw [AList.lookup_empty] at hlookup
  cases hlookup

theorem Addressed.insert (haddressed : Addressed hash table) (value : V) :
    Addressed hash (table.insert (hash value) value) := by
  intro key other hlookup
  rw [lookup_insert_eq] at hlookup
  by_cases hkey : key = hash value
  · rw [if_pos hkey] at hlookup
    rw [← Option.some.inj hlookup, hkey]
  · rw [if_neg hkey] at hlookup
    exact haddressed key other hlookup

theorem Addressed.grows_insert (hinjective : Function.Injective hash)
    (haddressed : Addressed hash table) (value : V) :
    Grows table (table.insert (hash value) value) := by
  intro key other hlookup
  rw [lookup_insert_eq]
  by_cases hkey : key = hash value
  · have hother : hash other = hash value := (haddressed key other hlookup).trans hkey
    rw [if_pos hkey, hinjective hother]
  · rw [if_neg hkey, hlookup]

end CegChain.Layers
