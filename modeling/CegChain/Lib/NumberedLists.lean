import Mathlib.Data.List.Basic
import Mathlib.Data.Nat.Find

/-!
# Numbered lists

`numbered` reads a list as a table whose entries are numbered from some number on: so are the
entries of a log, or the blocks of a chain, found by their sequence.  Logs that differ have
a first entry in which they do (`exists_first_difference`).
-/

namespace CegChain.NumberedLists

variable {α : Type} {list list' : List α} {seq : ℤ} {k : ℕ}

/-- The entry under a number, when the entries are numbered from `start` on. -/
def numbered (start : ℤ) (list : List α) (seq : ℤ) : Option α :=
  if start ≤ seq then list[(seq - start).toNat]? else none

theorem numbered_add (start : ℤ) (list : List α) (i : ℕ) :
    numbered start list (start + i) = list[i]? := by
  rw [numbered, if_pos (by omega), show start + (i : ℤ) - start = i by omega, Int.toNat_natCast]

@[simp] theorem numbered_nil (start seq : ℤ) : numbered start ([] : List α) seq = none := by
  simp [numbered]

/-- A new entry stands under the next number. -/
theorem numbered_concat (start : ℤ) (list : List α) (a : α) (seq : ℤ) :
    numbered start (list ++ [a]) seq =
      if seq = start + list.length then some a else numbered start list seq := by
  by_cases hlast : seq = start + list.length
  · rw [if_pos hlast, hlast, numbered_add]
    simp
  · rw [if_neg hlast, numbered, numbered]
    split
    · have hne : (seq - start).toNat ≠ list.length := by omega
      rcases Nat.lt_or_gt_of_ne hne with hlt | hgt
      · rw [List.getElem?_append_left hlt]
      · rw [List.getElem?_eq_none (by simp; omega), List.getElem?_eq_none (by omega)]
    · rfl

theorem numbered_eq_some {start : ℤ} {a : α} (hnumbered : numbered start list seq = some a) :
    ∃ i : ℕ, seq = start + i ∧ list[i]? = some a := by
  unfold numbered at hnumbered
  split at hnumbered
  · exact ⟨(seq - start).toNat, by omega, hnumbered⟩
  · cases hnumbered

/-- **Lists that differ have a first difference.** -/
theorem exists_first_difference (hdiffer : list[k]? ≠ list'[k]?) :
    ∃ i ≤ k, list[i]? ≠ list'[i]? ∧ ∀ j < i, list[j]? = list'[j]? := by
  classical
  have hexists : ∃ i, list[i]? ≠ list'[i]? := ⟨k, hdiffer⟩
  refine ⟨Nat.find hexists, Nat.find_min' hexists hdiffer, Nat.find_spec hexists, fun j hj => ?_⟩
  by_contra hne
  exact Nat.find_min hexists hj hne

end CegChain.NumberedLists
