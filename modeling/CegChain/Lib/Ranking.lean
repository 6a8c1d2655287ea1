import Mathlib.Data.List.Sort

/-!
# Ranked lists

A sorted list and one more element: the sorted list of them all has the element at some
place and is otherwise the same.  The first `n` change only if that place is among them.
-/

namespace CegChain.Ranking

variable {α : Type*} {r : α → α → Prop} {l m a b : List α} {x : α} {n : ℕ}

/-- **An element is put into its place.** -/
theorem exists_place (hasymm : ∀ x y, r x y → ¬ r y x) (hl : l.Pairwise r) (hm : m.Pairwise r)
    (hperm : l.Perm (x :: m)) : ∃ a b, l = a ++ x :: b ∧ m = a ++ b := by
  obtain ⟨a, b, hsplit⟩ := List.append_of_mem (hperm.mem_iff.mpr (List.mem_cons_self ..))
  have hrest : (a ++ b).Perm m := by
    refine List.Perm.cons_inv (a := x) (List.perm_middle.symm.trans ?_)
    rwa [← hsplit]
  have hsorted : (a ++ b).Pairwise r := by
    rw [hsplit] at hl
    exact hl.sublist ((List.Sublist.refl a).append (List.sublist_cons_self x b))
  refine ⟨a, b, hsplit, (hrest.eq_of_pairwise (fun y z _ _ hyz hzy => ?_) hsorted hm).symm⟩
  exact absurd hzy (hasymm y z hyz)

/-- The same when the others have kept their order. -/
theorem exists_place_of_sublist (hsub : m.Sublist l) (hperm : l.Perm (x :: m)) :
    ∃ a b, l = a ++ x :: b ∧ m = a ++ b := by
  induction hsub with
  | slnil => exact absurd hperm.length_eq (by simp)
  | @cons m l y hsub _ =>
      obtain rfl := hsub.eq_of_length (Nat.succ.inj hperm.length_eq).symm
      have hxy : [y].Perm [x] := (List.perm_append_right_iff m).mp hperm
      obtain rfl := List.singleton_perm_singleton.mp hxy
      exact ⟨[], m, rfl, rfl⟩
  | @cons_cons m l y _ ih =>
      obtain ⟨a, b, rfl, rfl⟩ := ih (hperm.trans (.swap y x m)).cons_inv
      exact ⟨y :: a, b, rfl, rfl⟩

theorem take_of_le (h : n ≤ a.length) : (a ++ x :: b).take n = (a ++ b).take n := by
  rw [List.take_append_of_le_length h, List.take_append_of_le_length h]

theorem take_perm_of_lt (h : a.length < n) :
    ((a ++ x :: b).take n).Perm (x :: (a ++ b).take (n - 1)) := by
  obtain ⟨k, rfl⟩ : ∃ k, n = a.length + (k + 1) := ⟨n - a.length - 1, by omega⟩
  rw [List.take_length_add_append, List.take_succ_cons,
    show a.length + (k + 1) - 1 = a.length + k by omega, List.take_length_add_append]
  exact List.perm_middle

/-! ## By amount, and then by name -/

section Amount

variable (amount : α → ℤ) (name : α → List UInt8)

/-- The first has the higher amount, or the same amount and not the later name. -/
def RankLE (a b : α) : Prop :=
  amount b < amount a ∨ amount a = amount b ∧ ¬ name b < name a

/-- The first has the higher amount, or the same amount and the earlier name. -/
def RankLT (a b : α) : Prop :=
  amount b < amount a ∨ amount a = amount b ∧ name a < name b

variable {amount name} {a b c : α}

theorem RankLE.total (a b : α) : RankLE amount name a b ∨ RankLE amount name b a := by
  rcases lt_trichotomy (amount a) (amount b) with h | h | h
  · exact .inr (.inl h)
  · by_cases hlt : name b < name a
    · exact .inr (.inr ⟨h.symm, List.lt_asymm hlt⟩)
    · exact .inl (.inr ⟨h, hlt⟩)
  · exact .inl (.inl h)

theorem RankLE.trans (hab : RankLE amount name a b) (hbc : RankLE amount name b c) :
    RankLE amount name a c := by
  rcases hab with hab | ⟨hab, hab'⟩ <;> rcases hbc with hbc | ⟨hbc, hbc'⟩
  · exact .inl (hbc.trans hab)
  · exact .inl (hbc ▸ hab)
  · exact .inl (hab ▸ hbc)
  · exact .inr ⟨hab.trans hbc, List.le_trans hab' hbc'⟩

theorem RankLE.amount_le (hab : RankLE amount name a b) : amount b ≤ amount a := by
  rcases hab with hab | ⟨hab, -⟩ <;> omega

/-- Different names make the order strict. -/
theorem RankLE.lt_of_ne (hab : RankLE amount name a b) (hne : name a ≠ name b) :
    RankLT amount name a b := by
  rcases hab with hab | ⟨hab, hlt⟩
  · exact .inl hab
  · refine .inr ⟨hab, ?_⟩
    by_contra hnot
    exact hne (List.le_antisymm hlt hnot)

theorem RankLT.asymm (hab : RankLT amount name a b) : ¬ RankLT amount name b a := by
  rintro (hlt | ⟨heq, hname⟩)
  · rcases hab with hab | ⟨hab, -⟩ <;> omega
  · rcases hab with hab | ⟨-, hab⟩
    · omega
    · exact List.lt_asymm hab hname

end Amount

end CegChain.Ranking
