import Mathlib.Data.Finset.Card

/-!
# Quorum intersection

Two sets of members that are both large share more members than can be faulty,
so one of the members they share is honest.
-/

namespace Quorum

variable {α : Type*} [DecidableEq α]

/-- Two quorums of `size` out of `members` have more than `faults` members in
common as soon as `members + faults < 2 * size`. -/
theorem lt_card_inter {members left right : Finset α} {size faults : ℕ}
    (hleft : left ⊆ members) (hright : right ⊆ members)
    (hsizeLeft : size ≤ left.card) (hsizeRight : size ≤ right.card)
    (hsize : members.card + faults < 2 * size) : faults < (left ∩ right).card := by
  have hunion : (left ∪ right).card ≤ members.card :=
    Finset.card_le_card (Finset.union_subset hleft hright)
  have hadd := Finset.card_union_add_card_inter left right
  omega

/-- A set with more than `faults` members has an honest one. -/
theorem exists_honest {quorum faulty : Finset α} {faults : ℕ} (hfaulty : faulty.card ≤ faults)
    (hquorum : faults < quorum.card) : ∃ a ∈ quorum, a ∉ faulty := by
  by_contra! hall
  have hle : quorum.card ≤ faulty.card := Finset.card_le_card hall
  omega

end Quorum
