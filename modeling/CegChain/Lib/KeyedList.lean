import Mathlib.Data.List.Nodup
import Mathlib.Tactic.Common

/-!
# Lists with a key

A list whose elements have a key, written to as if it were a map.  `upsert` replaces the
elements of the key of a new one, or puts the new one at the end while there is room, or,
where the new element is not to be kept, takes out what has its key.  A list that has each
key once stays so (`nodup_upsert`), and nothing comes in but the new element
(`mem_upsert`).
-/

namespace CegChain.KeyedList

variable {α κ : Type*} [DecidableEq κ] (key : α → κ)

/-- Write one element; `keeps` says whether it is to be there afterwards. -/
def upsert (limit : ℕ) (keeps : Bool) (new : α) (olds : List α) : List α :=
  if keeps then
    if olds.any fun old => decide (key old = key new) then
      olds.map fun old => if key old = key new then new else old
    else if limit ≤ olds.length then olds
    else olds ++ [new]
  else olds.filter fun old => decide (key old ≠ key new)

variable {key} {limit : ℕ} {keeps : Bool} {new : α} {olds : List α}

theorem mem_upsert {x : α} (hx : x ∈ upsert key limit keeps new olds) :
    x ∈ olds ∨ keeps = true ∧ x = new := by
  unfold upsert at hx
  split_ifs at hx with hkeeps hfound hfull
  · obtain ⟨old, hold, rfl⟩ := List.mem_map.mp hx
    split_ifs
    · exact .inr ⟨hkeeps, rfl⟩
    · exact .inl hold
  · exact .inl hx
  · rcases List.mem_append.mp hx with hold | hnew
    · exact .inl hold
    · exact .inr ⟨hkeeps, List.mem_singleton.mp hnew⟩
  · exact .inl (List.mem_of_mem_filter hx)

theorem nodup_upsert (honce : (olds.map key).Nodup) :
    ((upsert key limit keeps new olds).map key).Nodup := by
  unfold upsert
  split_ifs with hkeeps hfound hfull
  · -- a replaced element has the key of what it replaces
    have hkeys : (key ∘ fun old => if key old = key new then new else old) = key := by
      funext old
      simp only [Function.comp_apply]
      split_ifs with heq
      · exact heq.symm
      · rfl
    rwa [List.map_map, hkeys]
  · exact honce
  · have hfresh : key new ∉ olds.map key := by
      intro hmem
      obtain ⟨old, hold, heq⟩ := List.mem_map.mp hmem
      exact hfound (List.any_eq_true.mpr ⟨old, hold, decide_eq_true heq⟩)
    rw [List.map_append, List.map_singleton]
    exact honce.append (List.nodup_singleton _) (List.disjoint_singleton.mpr hfresh)
  · exact (List.filter_sublist.map key).nodup honce

end CegChain.KeyedList
