import CegChain.Lib.Layers
import CegChain.Lib.OrderedMap

/-!
# A table and its index by time

Records are held in a table, and an index lists the key of each under the record's stamp,
in the order of the stamps.  The two are in step when every record is listed under its own
stamp and everything listed is held.  A new record keeps them in step exactly when its
stamp is not taken (`InStep.insert`, `InStep.not_insert_of_taken`); erasing from the front
of the index always does (`InStep.eraseAll`).
-/

namespace CegChain.TimeIndex

open Layers

variable {K T R : Type*} [DecidableEq K]

/-- Every record is listed under its stamp, and everything listed is held. -/
structure InStep (stamp : R → T) (table : Table K R) (index : List (T × K)) : Prop where
  listed : ∀ {k r}, table.lookup k = some r → (stamp r, k) ∈ index
  held : ∀ {t k}, (t, k) ∈ index → ∃ r, table.lookup k = some r ∧ stamp r = t

/-- The table without the keys of these entries. -/
def eraseAll (table : Table K R) (entries : List (T × K)) : Table K R :=
  entries.foldl (fun table entry => table.erase entry.2) table

variable {stamp : R → T} {table : Table K R} {index : List (T × K)} {k : K} {r r' : R}

theorem lookup_erase_eq_some {k' : K} (hlookup : (table.erase k').lookup k = some r) :
    k ≠ k' ∧ table.lookup k = some r := by
  have hne : k ≠ k' := by
    rintro rfl
    rw [AList.lookup_erase] at hlookup
    cases hlookup
  exact ⟨hne, by rwa [AList.lookup_erase_ne hne] at hlookup⟩

/-- What is left was there, under a key that was not erased. -/
theorem lookup_eraseAll_eq_some {entries : List (T × K)}
    (hlookup : (eraseAll table entries).lookup k = some r) :
    table.lookup k = some r ∧ k ∉ entries.map Prod.snd := by
  induction entries generalizing table with
  | nil => exact ⟨hlookup, List.not_mem_nil⟩
  | cons entry entries ih =>
      obtain ⟨herase, hnot⟩ := ih hlookup
      obtain ⟨hne, htable⟩ := lookup_erase_eq_some herase
      exact ⟨htable, by simp [hne, hnot]⟩

theorem lookup_eraseAll_of_not_mem {entries : List (T × K)}
    (hk : k ∉ entries.map Prod.snd) : (eraseAll table entries).lookup k = table.lookup k := by
  induction entries generalizing table with
  | nil => rfl
  | cons entry entries ih =>
      rw [List.map_cons, List.mem_cons, not_or] at hk
      calc (eraseAll (table.erase entry.2) entries).lookup k
          = (table.erase entry.2).lookup k := ih hk.2
        _ = table.lookup k := AList.lookup_erase_ne hk.1

namespace InStep

theorem empty : InStep stamp (∅ : Table K R) [] where
  listed := fun hlookup => by
    rw [AList.lookup_empty] at hlookup
    cases hlookup
  held := fun hmem => absurd hmem List.not_mem_nil

/-- A record that is changed and keeps its stamp stays listed. -/
theorem replace (hstep : InStep stamp table index) (hlookup : table.lookup k = some r)
    (hstamp : stamp r' = stamp r) : InStep stamp (table.insert k r') index where
  listed := by
    intro k' r'' hlookup'
    rw [lookup_insert_eq] at hlookup'
    split_ifs at hlookup' with hk
    · obtain rfl := Option.some.inj hlookup'
      rw [hk, hstamp]
      exact hstep.listed hlookup
    · exact hstep.listed hlookup'
  held := by
    intro t k' hmem
    obtain ⟨r'', hlookup', hstamp'⟩ := hstep.held hmem
    by_cases hk : k' = k
    · subst hk
      rw [hlookup, Option.some.injEq] at hlookup'
      subst hlookup'
      exact ⟨r', AList.lookup_insert _, hstamp.trans hstamp'⟩
    · exact ⟨r'', by rw [AList.lookup_insert_ne hk, hlookup'], hstamp'⟩

/-- The keys of the index are those of the table. -/
theorem mem_keys_iff (hstep : InStep stamp table index) :
    k ∈ table.keys ↔ k ∈ index.map Prod.snd := by
  rw [← AList.mem_keys, ← AList.lookup_isSome, Option.isSome_iff_exists]
  constructor
  · rintro ⟨r, hlookup⟩
    exact List.mem_map_of_mem (f := Prod.snd) (hstep.listed hlookup)
  · intro hmem
    obtain ⟨⟨t, k'⟩, hentry, rfl⟩ := List.mem_map.mp hmem
    obtain ⟨r, hlookup, -⟩ := hstep.held hentry
    exact ⟨r, hlookup⟩

/-- No key is listed twice. -/
theorem nodup_keys (hstep : InStep stamp table index) (hnodup : (index.map Prod.fst).Nodup) :
    (index.map Prod.snd).Nodup := by
  refine List.Nodup.map_on ?_ hnodup.of_map
  rintro ⟨t, k⟩ hentry ⟨t', k'⟩ hentry' heq
  obtain rfl : k = k' := heq
  obtain ⟨r, hlookup, hstamp⟩ := hstep.held hentry
  obtain ⟨r', hlookup', hstamp'⟩ := hstep.held hentry'
  rw [hlookup, Option.some.injEq] at hlookup'
  rw [← hstamp, ← hstamp', hlookup']

/-- The table is as large as its index. -/
theorem size_eq (hstep : InStep stamp table index) (hnodup : (index.map Prod.fst).Nodup) :
    table.keys.length = index.length := by
  have hperm : table.keys.Perm (index.map Prod.snd) :=
    (List.perm_ext_iff_of_nodup table.keys_nodup (hstep.nodup_keys hnodup)).mpr
      fun k => hstep.mem_keys_iff
  rw [hperm.length_eq, List.length_map]

/-- Erasing the first entry and its record. -/
theorem tail {entry : T × K} (hstep : InStep stamp table (entry :: index))
    (hnodup : ((entry :: index).map Prod.fst).Nodup) :
    InStep stamp (table.erase entry.2) index where
  listed := by
    intro k r hlookup
    obtain ⟨hne, htable⟩ := lookup_erase_eq_some hlookup
    rcases List.mem_cons.mp (hstep.listed htable) with heq | hmem
    · exact absurd (congrArg Prod.snd heq) hne
    · exact hmem
  held := by
    intro t k hmem
    obtain ⟨r, hlookup, hstamp⟩ := hstep.held (List.mem_cons_of_mem _ hmem)
    have hkeys := hstep.nodup_keys hnodup
    rw [List.map_cons, List.nodup_cons] at hkeys
    have hne : k ≠ entry.2 := by
      rintro rfl
      exact hkeys.1 (List.mem_map.mpr ⟨(t, entry.2), hmem, rfl⟩)
    exact ⟨r, by rw [AList.lookup_erase_ne hne, hlookup], hstamp⟩

/-- Erasing any entries at the front and their records. -/
theorem eraseAll {gone : List (T × K)} (hstep : InStep stamp table (gone ++ index))
    (hnodup : ((gone ++ index).map Prod.fst).Nodup) :
    InStep stamp (TimeIndex.eraseAll table gone) index := by
  induction gone generalizing table with
  | nil => exact hstep
  | cons entry gone ih => exact ih (hstep.tail hnodup) (List.nodup_cons.mp hnodup).2

variable [LinearOrder T]

/-- A new record whose stamp is free. -/
theorem insert (hstep : InStep stamp table index) (hk : k ∉ table)
    (hfree : stamp r ∉ index.map Prod.fst) :
    InStep stamp (table.insert k r) (OrderedMap.insert (stamp r) k index) where
  listed := by
    intro k' r'' hlookup
    rw [OrderedMap.mem_insert]
    rw [lookup_insert_eq] at hlookup
    split_ifs at hlookup with heq
    · obtain rfl := Option.some.inj hlookup
      exact .inl (by rw [heq])
    · have hmem := hstep.listed hlookup
      refine .inr ⟨hmem, fun hstamp => hfree ?_⟩
      rw [← hstamp]
      exact List.mem_map_of_mem (f := Prod.fst) hmem
  held := by
    intro t k' hmem
    rcases OrderedMap.mem_insert.mp hmem with heq | ⟨hmem, -⟩
    · obtain ⟨rfl, rfl⟩ := Prod.mk.inj heq
      exact ⟨r, AList.lookup_insert _, rfl⟩
    · obtain ⟨r'', hlookup, hstamp⟩ := hstep.held hmem
      have hne : k' ≠ k := by
        rintro rfl
        exact hk (AList.lookup_isSome.mp (by rw [hlookup]; rfl))
      exact ⟨r'', by rw [AList.lookup_insert_ne hne, hlookup], hstamp⟩

/-- A new record whose stamp is taken pushes another out of the index. -/
theorem not_insert_of_taken (hk : k ∉ table) {k' : K} (hlookup : table.lookup k' = some r')
    (htaken : stamp r' = stamp r) :
    ¬ InStep stamp (table.insert k r) (OrderedMap.insert (stamp r) k index) := by
  intro hafter
  have hne : k' ≠ k := by
    rintro rfl
    exact hk (AList.lookup_isSome.mp (by rw [hlookup]; rfl))
  have hstill : (table.insert k r).lookup k' = some r' := by
    rw [AList.lookup_insert_ne hne, hlookup]
  rcases OrderedMap.mem_insert.mp (hafter.listed hstill) with heq | ⟨-, hstamp⟩
  · exact hne (congrArg Prod.snd heq)
  · exact hstamp htaken

end InStep

end CegChain.TimeIndex
