import Mathlib.Data.List.AList

/-!
# Stacks of finite maps

A stack of finite maps, newest first, read as one map: the binding of a key is
the one in the first map of the stack that has it.  `newest` is that reading.

Two operations matter to a store that buffers its writes.  Pushing an empty map
changes nothing (`newest_empty_cons`), and folding a map into the one below it
changes nothing either (`newest_union_cons`): that is what makes "commit to the
layer below" and "read through the layers" agree.
-/

namespace CegChain.Layers

variable {K : Type*} {R : Type*} [DecidableEq K]

/-- A finite map from keys to records. -/
abbrev Table (K : Type*) (R : Type*) := AList fun _ : K => R

/-- The binding of `key` in the first table of the stack that has one. -/
def newest : List (Table K R) → K → Option R
  | [], _ => none
  | table :: rest, key =>
      match table.lookup key with
      | some r => some r
      | none => newest rest key

@[simp] theorem newest_nil (key : K) : newest ([] : List (Table K R)) key = none := rfl

theorem newest_cons (table : Table K R) (rest : List (Table K R)) (key : K) :
    newest (table :: rest) key = (table.lookup key).or (newest rest key) := by
  rw [newest]
  cases table.lookup key <;> rfl

theorem newest_cons_of_lookup {table : Table K R} {key : K} {r : R}
    (hlookup : table.lookup key = some r) (rest : List (Table K R)) :
    newest (table :: rest) key = some r := by
  rw [newest_cons, hlookup, Option.some_or]

theorem newest_cons_of_not_mem {table : Table K R} {key : K}
    (hlookup : table.lookup key = none) (rest : List (Table K R)) :
    newest (table :: rest) key = newest rest key := by
  rw [newest_cons, hlookup, Option.none_or]

/-- The binding in a union is the binding in the first table that has one. -/
theorem lookup_union (first second : Table K R) (key : K) :
    (first ∪ second).lookup key = (first.lookup key).or (second.lookup key) := by
  by_cases hmem : key ∈ first
  · obtain ⟨r, hr⟩ := Option.isSome_iff_exists.mp (AList.lookup_isSome.mpr hmem)
    rw [AList.lookup_union_left hmem, hr, Option.some_or]
  · rw [AList.lookup_union_right hmem, AList.lookup_eq_none.mpr hmem, Option.none_or]

theorem lookup_insert_eq (table : Table K R) (key key' : K) (r : R) :
    (table.insert key r).lookup key' = if key' = key then some r else table.lookup key' := by
  by_cases heq : key' = key
  · subst heq
    rw [AList.lookup_insert, if_pos rfl]
  · rw [AList.lookup_insert_ne heq, if_neg heq]

/-- Folding a table into the one below it does not change what is read. -/
theorem newest_union_cons (first second : Table K R) (rest : List (Table K R)) (key : K) :
    newest ((first ∪ second) :: rest) key = newest (first :: second :: rest) key := by
  simp only [newest_cons, lookup_union, Option.or_assoc]

/-! ## Writing a table back under other keys -/

section Flush

variable {K' V : Type*} [DecidableEq K'] (f : K → K') (g : R → Option V)

/-- Write the bindings of a table to `base`, each under the image of its key. -/
def flush (entries : List (Sigma fun _ : K => R)) (base : Table K' V) : Table K' V :=
  entries.foldl (fun base entry =>
    match g entry.2 with
    | some v => base.insert (f entry.1) v
    | none => base) base

variable {f g}

omit [DecidableEq K] in
theorem lookup_flush_of_forall_ne {key : K'} {entries : List (Sigma fun _ : K => R)}
    (base : Table K' V) (hne : ∀ entry ∈ entries, f entry.1 ≠ key) :
    (flush f g entries base).lookup key = base.lookup key := by
  induction entries generalizing base with
  | nil => rfl
  | cons entry entries ih =>
      rw [flush, List.foldl_cons]
      refine (ih _ fun entry hmem => hne entry (List.mem_cons_of_mem _ hmem)).trans ?_
      split
      · exact AList.lookup_insert_ne (hne entry (List.mem_cons_self ..)).symm
      · rfl

omit [DecidableEq K] in
/-- A key whose image no other key shares is found with its own binding. -/
theorem lookup_flush {key : K} {r : R} {entries : List (Sigma fun _ : K => R)}
    (base : Table K' V) (hnodup : entries.NodupKeys) (hmem : ⟨key, r⟩ ∈ entries)
    (hinj : ∀ entry ∈ entries, f entry.1 = f key → entry.1 = key) :
    (flush f g entries base).lookup (f key) = (g r).or (base.lookup (f key)) := by
  induction entries generalizing base with
  | nil => cases hmem
  | cons entry entries ih =>
      obtain ⟨hfresh, hnodup⟩ := List.nodupKeys_cons.mp hnodup
      rw [flush, List.foldl_cons]
      rcases List.mem_cons.mp hmem with rfl | hmem
      · -- the later bindings go elsewhere
        refine (lookup_flush_of_forall_ne _ fun later hlater heq => hfresh ?_).trans ?_
        · have hkey : later.1 ∈ entries.keys := List.mem_keys_of_mem hlater
          rw [hinj later (List.mem_cons_of_mem _ hlater) heq] at hkey
          exact hkey
        · cases g r with
          | none => rfl
          | some v => exact AList.lookup_insert _
      · refine (ih _ hnodup hmem fun later hlater =>
          hinj later (List.mem_cons_of_mem _ hlater)).trans
          ?_
        have hne : f key ≠ f entry.1 := by
          intro heq
          rw [hinj entry (List.mem_cons_self ..) heq.symm] at hfresh
          exact hfresh (List.mem_keys_of_mem hmem)
        cases g entry.2 with
        | none => rfl
        | some v => rw [AList.lookup_insert_ne hne]

end Flush

end CegChain.Layers
