import CegChain.Lib.Layers
import Mathlib.Algebra.BigOperators.Group.List.Basic
import Mathlib.Algebra.BigOperators.Ring.List
import Mathlib.Algebra.Order.BigOperators.Group.List
import Mathlib.Tactic.Ring

/-!
# Sums over finite maps

The sum of a weight over the entries of a finite map, and how it changes when a key
is bound or unbound.
-/

namespace CegChain.Totals

open Layers

variable {K V : Type*} [DecidableEq K] {f : K → V → ℤ}

/-- The sum of the weights of all entries. -/
def total (f : K → V → ℤ) (table : Table K V) : ℤ :=
  (table.entries.map fun entry => f entry.1 entry.2).sum

/-- The weight of what a key is bound to. -/
def weight (f : K → V → ℤ) (table : Table K V) (key : K) : ℤ :=
  (table.lookup key).elim 0 (f key)

omit [DecidableEq K] in
@[simp] theorem total_empty : total f (∅ : Table K V) = 0 := rfl

theorem weight_of_lookup {table : Table K V} {key : K} {value : V}
    (hlookup : table.lookup key = some value) : weight f table key = f key value := by
  rw [weight, hlookup]
  rfl

theorem weight_of_none {table : Table K V} {key : K} (hlookup : table.lookup key = none) :
    weight f table key = 0 := by
  rw [weight, hlookup]
  rfl

theorem sum_kerase (key : K) (entries : List (Sigma fun _ : K => V)) :
    ((entries.kerase key).map fun entry => f entry.1 entry.2).sum +
        (entries.dlookup key).elim 0 (f key) =
      (entries.map fun entry => f entry.1 entry.2).sum := by
  induction entries with
  | nil => simp
  | cons entry entries ih =>
      obtain ⟨other, value⟩ := entry
      by_cases hkey : key = other
      · subst hkey
        simp [add_comm]
      · rw [List.kerase_cons_ne (by exact hkey), List.dlookup_cons_ne _ _ (by exact hkey)]
        simp only [List.map_cons, List.sum_cons, ← ih]
        ring

theorem total_erase (table : Table K V) (key : K) :
    total f (table.erase key) = total f table - weight f table key := by
  have hsum := sum_kerase (f := f) key table.entries
  rw [total, total, weight, ← hsum]
  exact (add_sub_cancel_right _ _).symm

theorem total_insert (table : Table K V) (key : K) (value : V) :
    total f (table.insert key value) = total f table - weight f table key + f key value := by
  have hsum := sum_kerase (f := f) key table.entries
  rw [total, total, weight, ← hsum, AList.entries_insert, AList.lookup, List.map_cons,
    List.sum_cons]
  ring

theorem total_insert_of_lookup {table : Table K V} {key : K} {value : V}
    (hlookup : table.lookup key = some value) (value' : V) :
    total f (table.insert key value') = total f table + (f key value' - f key value) := by
  rw [total_insert, weight_of_lookup hlookup]
  ring

omit [DecidableEq K] in
theorem total_add (f g : K → V → ℤ) (table : Table K V) :
    total (fun key value => f key value + g key value) table = total f table + total g table :=
  List.sum_map_add

omit [DecidableEq K] in
theorem total_const_mul (c : ℤ) (f : K → V → ℤ) (table : Table K V) :
    total (fun key value => c * f key value) table = c * total f table :=
  List.sum_map_mul_left ..

theorem total_nonneg {table : Table K V}
    (hnonneg : ∀ key value, table.lookup key = some value → 0 ≤ f key value) :
    0 ≤ total f table := by
  refine List.sum_nonneg fun weight hmem => ?_
  obtain ⟨entry, hentry, rfl⟩ := List.mem_map.mp hmem
  exact hnonneg entry.1 entry.2 (AList.mem_lookup_iff.mpr hentry)

theorem total_eq_zero {table : Table K V}
    (hzero : ∀ key value, table.lookup key = some value → f key value = 0) :
    total f table = 0 := by
  refine List.sum_eq_zero fun weight hmem => ?_
  obtain ⟨entry, hentry, rfl⟩ := List.mem_map.mp hmem
  exact hzero entry.1 entry.2 (AList.mem_lookup_iff.mpr hentry)

theorem total_le_total {g : K → V → ℤ} {table : Table K V}
    (hle : ∀ key value, table.lookup key = some value → f key value ≤ g key value) :
    total f table ≤ total g table :=
  List.sum_le_sum fun entry hentry =>
    hle entry.1 entry.2 (AList.mem_lookup_iff.mpr hentry)

/-- What holds of all values still holds after a binding of which it holds. -/
theorem forall_lookup_insert {p : K → V → Prop} {table : Table K V} {key : K} {value : V}
    (htable : ∀ key value, table.lookup key = some value → p key value) (hvalue : p key value) :
    ∀ key' value', (table.insert key value).lookup key' = some value' → p key' value' := by
  intro key' value' hlookup
  rw [lookup_insert_eq] at hlookup
  split at hlookup
  · rename_i hkey
    obtain rfl := Option.some.inj hlookup
    exact hkey ▸ hvalue
  · exact htable key' value' hlookup

/-- What holds of every binding of a loop holds after the loop. -/
theorem forall_lookup_foldl {α : Type*} {p : K → V → Prop} {k : α → K} {v : α → V}
    (hv : ∀ a, p (k a) (v a)) (list : List α) {table : Table K V}
    (htable : ∀ key value, table.lookup key = some value → p key value) :
    ∀ key value, (list.foldl (fun table a => table.insert (k a) (v a)) table).lookup key =
      some value → p key value := by
  induction list generalizing table with
  | nil => exact htable
  | cons a list ih => exact ih (forall_lookup_insert htable (hv a))

/-- The keys that a loop binds. -/
theorem mem_foldl_insert {α : Type*} {k : α → K} {v : α → V} {list : List α} {key : K}
    {table : Table K V} (hkey : key ∈ table ∨ ∃ a ∈ list, k a = key) :
    key ∈ list.foldl (fun table a => table.insert (k a) (v a)) table := by
  induction list generalizing table with
  | nil => exact hkey.resolve_right (by simp)
  | cons a list ih =>
      refine ih ?_
      rcases hkey with hkey | ⟨b, hb, rfl⟩
      · exact .inl ((AList.mem_insert _).mpr (.inr hkey))
      · rcases List.mem_cons.mp hb with rfl | hb
        · exact .inl ((AList.mem_insert _).mpr (.inl rfl))
        · exact .inr ⟨b, hb, rfl⟩

theorem forall_lookup_erase {p : K → V → Prop} {table : Table K V} (key : K)
    (htable : ∀ key value, table.lookup key = some value → p key value) :
    ∀ key' value', (table.erase key).lookup key' = some value' → p key' value' := by
  intro key' value' hlookup
  by_cases hkey : key' = key
  · rw [hkey, AList.lookup_erase] at hlookup
    cases hlookup
  · rw [AList.lookup_erase_ne hkey] at hlookup
    exact htable key' value' hlookup

theorem weight_le_total {table : Table K V} (key : K)
    (hnonneg : ∀ key value, table.lookup key = some value → 0 ≤ f key value) :
    weight f table key ≤ total f table := by
  have hrest : 0 ≤ total f (table.erase key) := total_nonneg (forall_lookup_erase key hnonneg)
  rw [total_erase] at hrest
  omega

theorem weight_add_weight_le_total {table : Table K V} {key key' : K} (hne : key' ≠ key)
    (hnonneg : ∀ key value, table.lookup key = some value → 0 ≤ f key value) :
    weight f table key + weight f table key' ≤ total f table := by
  have hrest : weight f (table.erase key) key' ≤ total f (table.erase key) :=
    weight_le_total key' (forall_lookup_erase key hnonneg)
  have hkept : weight f (table.erase key) key' = weight f table key' := by
    rw [weight, weight, AList.lookup_erase_ne hne]
  rw [total_erase, hkept] at hrest
  omega

/-! ## Replacing every value -/

/-- The table with every value replaced, where that can be done. -/
def mapValuesM (f : K → V → Option V) (table : Table K V) : Option (Table K V) :=
  table.entries.foldlM (fun result entry =>
    (f entry.1 entry.2).map fun value => result.insert entry.1 value) ∅

/-- The loop keeps what is there already, and adds the values of the other keys. -/
theorem foldlM_mapValues {f : K → V → Option V} {g h : K → V → ℤ}
    {entries : List (Sigma fun _ : K => V)} (hnodup : entries.NodupKeys)
    (hg : ∀ entry ∈ entries, ∀ value, f entry.1 entry.2 = some value →
      g entry.1 value = h entry.1 entry.2)
    {start result : Table K V} (hstart : ∀ entry ∈ entries, entry.1 ∉ start)
    (hfold : entries.foldlM (fun result entry =>
      (f entry.1 entry.2).map fun value => result.insert entry.1 value) start = some result) :
    total g result = total g start + (entries.map fun entry => h entry.1 entry.2).sum ∧
      ∀ key, result.lookup key = ((entries.dlookup key).bind (f key)).or (start.lookup key) := by
  induction entries generalizing start with
  | nil =>
      obtain rfl := Option.some.inj hfold
      simp
  | cons entry entries ih =>
      obtain ⟨other, old⟩ := entry
      rw [List.foldlM_cons] at hfold
      obtain ⟨next, hnext, hfold⟩ := Option.bind_eq_some_iff.mp hfold
      obtain ⟨value, hvalue, rfl⟩ := Option.map_eq_some_iff.mp hnext
      rw [List.nodupKeys_cons] at hnodup
      have hfresh : ∀ entry ∈ entries, entry.1 ≠ other := by
        intro entry hentry heq
        have hmem := List.mem_keys_of_mem hentry
        rw [heq] at hmem
        exact hnodup.1 hmem
      obtain ⟨htotal, hlookup⟩ := ih hnodup.2
        (fun entry hentry => hg entry (List.mem_cons_of_mem _ hentry)) (fun entry hentry => by
          rw [AList.mem_insert, not_or]
          exact ⟨hfresh entry hentry, hstart entry (List.mem_cons_of_mem _ hentry)⟩) hfold
      have hnew : start.lookup other = none :=
        AList.lookup_eq_none.mpr (hstart _ List.mem_cons_self)
      refine ⟨?_, fun key => ?_⟩
      · rw [htotal, total_insert, weight_of_none hnew, List.map_cons, List.sum_cons,
          hg _ List.mem_cons_self value hvalue]
        ring
      · rw [hlookup key]
        by_cases hkey : key = other
        · subst hkey
          rw [List.dlookup_eq_none.mpr hnodup.1, List.dlookup_cons_eq, AList.lookup_insert]
          simp [hvalue]
        · rw [List.dlookup_cons_ne _ _ hkey, AList.lookup_insert_ne hkey]

/-- The total of the values that have been put in. -/
theorem total_mapValuesM {f : K → V → Option V} {g h : K → V → ℤ} {table result : Table K V}
    (hmap : mapValuesM f table = some result)
    (hg : ∀ key value value', table.lookup key = some value → f key value = some value' →
      g key value' = h key value) : total g result = total h table := by
  have hfold := foldlM_mapValues (h := h) table.nodupKeys (fun entry hentry value hvalue =>
    hg entry.1 entry.2 value (AList.mem_lookup_iff.mpr hentry) hvalue)
    (fun _ _ => AList.notMem_empty _) hmap
  rw [hfold.1, total_empty, zero_add]
  rfl

theorem isSome_foldlM_mapValues {f : K → V → Option V} {entries : List (Sigma fun _ : K => V)}
    {start : Table K V} :
    (entries.foldlM (fun result entry =>
      (f entry.1 entry.2).map fun value => result.insert entry.1 value) start).isSome ↔
      ∀ entry ∈ entries, (f entry.1 entry.2).isSome := by
  induction entries generalizing start with
  | nil => simp
  | cons entry entries ih =>
      rw [List.foldlM_cons, List.forall_mem_cons]
      cases hvalue : f entry.1 entry.2 with
      | none => simp
      | some value => simpa using ih

/-- Every value can be replaced if each of them can. -/
theorem isSome_mapValuesM {f : K → V → Option V} {table : Table K V} :
    (mapValuesM f table).isSome ↔
      ∀ key value, table.lookup key = some value → (f key value).isSome := by
  refine isSome_foldlM_mapValues.trans ⟨fun hall key value hlookup => ?_,
    fun hall entry hentry => ?_⟩
  · exact hall ⟨key, value⟩ (AList.mem_lookup_iff.mp hlookup)
  · exact hall entry.1 entry.2 (AList.mem_lookup_iff.mpr hentry)

theorem lookup_mapValuesM {f : K → V → Option V} {table result : Table K V}
    (hmap : mapValuesM f table = some result) (key : K) :
    result.lookup key = (table.lookup key).bind (f key) := by
  have hfold := foldlM_mapValues (g := fun _ _ => 0) (h := fun _ _ => 0) table.nodupKeys
    (fun _ _ _ _ => rfl) (fun _ _ => AList.notMem_empty _) hmap
  rw [hfold.2 key]
  simp [AList.lookup]

end CegChain.Totals
