import CegChain.Lib.Totals
import Mathlib.Data.Finsupp.Weight

/-!
# Shifts of amounts

Amounts held under keys, before and after something happened.  `Shifts before after n`
says that only finitely many keys are concerned and that the changes add up to `n`, so
that a transfer shifts by 0 and a deposit by what was deposited.  Shifts compose
(`Shifts.trans`), may be looked at under other keys (`Shifts.map`), and say how the total
of a finite map has changed (`total_of_shifts`).
-/

namespace CegChain.Totals

open Layers

variable {α β : Type*}

/-- The amounts change at finitely many keys, by `n` in all. -/
def Shifts (before after : α → ℤ) (n : ℤ) : Prop :=
  ∃ change : α →₀ ℤ, (∀ a, after a = before a + change a) ∧ change.degree = n

namespace Shifts

variable {f g h : α → ℤ} {m n : ℤ}

theorem of_eq (heq : ∀ a, g a = f a) : Shifts f g 0 :=
  ⟨0, fun a => by simp [heq a], map_zero _⟩

theorem trans (hfg : Shifts f g m) (hgh : Shifts g h n) : Shifts f h (m + n) := by
  obtain ⟨first, hfirst, rfl⟩ := hfg
  obtain ⟨second, hsecond, rfl⟩ := hgh
  refine ⟨first + second, fun a => ?_, map_add ..⟩
  rw [hsecond, hfirst, Finsupp.add_apply, add_assoc]

theorem congr (hfg : Shifts f g n) {f' g' : α → ℤ} (hf : ∀ a, f' a = f a)
    (hg : ∀ a, g' a = g a) : Shifts f' g' n := by
  obtain ⟨change, hchange, hn⟩ := hfg
  exact ⟨change, fun a => by rw [hf, hg, hchange], hn⟩

/-- A change at one key. -/
theorem of_ne (key : α) (hne : ∀ a, a ≠ key → g a = f a) : Shifts f g (g key - f key) := by
  classical
  refine ⟨Finsupp.single key (g key - f key), fun a => ?_, Finsupp.degree_single ..⟩
  rw [Finsupp.single_apply]
  split
  · rename_i heq
    rw [heq]
    ring
  · rename_i hkey
    rw [hne a (Ne.symm hkey), add_zero]

/-- The keys that are concerned may be renamed, as long as no two of them get the same
name. -/
theorem map {f' g' : β → ℤ} (hshift : Shifts f g n) {e : α → β} {s : Set α}
    (hchanged : ∀ a, g a ≠ f a → a ∈ s) (hinj : Set.InjOn e s)
    (hon : ∀ a ∈ s, g' (e a) - f' (e a) = g a - f a) (hoff : ∀ b ∉ e '' s, g' b = f' b) :
    Shifts f' g' n := by
  obtain ⟨change, hchange, rfl⟩ := hshift
  have hsupport : (change.support : Set α) ⊆ s := by
    intro a ha
    refine hchanged a fun heq => Finsupp.mem_support_iff.mp ha ?_
    have := hchange a
    omega
  refine ⟨change.mapDomain e, fun b => ?_, Finsupp.degree_mapDomain ..⟩
  by_cases hb : b ∈ e '' s
  · obtain ⟨a, ha, rfl⟩ := hb
    rw [Finsupp.mapDomain_apply' s change hsupport hinj ha]
    have := hon a ha
    have := hchange a
    omega
  · have hzero : change.mapDomain e b = 0 := by
      classical
      refine Finsupp.notMem_support_iff.mp fun hmem => hb ?_
      obtain ⟨a, ha, rfl⟩ := Finset.mem_image.mp (Finsupp.mapDomain_support hmem)
      exact ⟨a, hsupport ha, rfl⟩
    rw [hoff b hb, hzero, add_zero]

end Shifts

/-! ## Totals -/

variable {K V : Type*} [DecidableEq K] {f : K → V → ℤ}

/-- The weights of the entries, as a finitely supported function. -/
noncomputable def weights (f : K → V → ℤ) (entries : List (Sigma fun _ : K => V)) : K →₀ ℤ :=
  (entries.map fun entry => Finsupp.single entry.1 (f entry.1 entry.2)).sum

omit [DecidableEq K] in
theorem degree_weights (entries : List (Sigma fun _ : K => V)) :
    (weights f entries).degree = (entries.map fun entry => f entry.1 entry.2).sum := by
  rw [weights, map_list_sum, List.map_map]
  congr 1
  exact List.map_congr_left fun entry _ => Finsupp.degree_single ..

theorem weights_apply {entries : List (Sigma fun _ : K => V)} (hnodup : entries.NodupKeys)
    (key : K) : weights f entries key = (entries.dlookup key).elim 0 (f key) := by
  induction entries with
  | nil => rfl
  | cons entry entries ih =>
      obtain ⟨other, value⟩ := entry
      obtain ⟨hfresh, hnodup⟩ := List.nodupKeys_cons.mp hnodup
      have hcons : weights f (⟨other, value⟩ :: entries) =
          Finsupp.single other (f other value) + weights f entries := by
        simp only [weights, List.map_cons, List.sum_cons]
      rw [hcons, Finsupp.add_apply, ih hnodup, Finsupp.single_apply]
      by_cases hkey : other = key
      · subst hkey
        rw [if_pos rfl, List.dlookup_eq_none.mpr hfresh, List.dlookup_cons_eq]
        simp
      · rw [if_neg hkey, List.dlookup_cons_ne _ _ (Ne.symm hkey), zero_add]

/-- When the weights shift, so does the total. -/
theorem total_of_shifts {before after : Table K V} {n : ℤ}
    (hshift : Shifts (weight f before) (weight f after) n) :
    total f after = total f before + n := by
  obtain ⟨change, hchange, rfl⟩ := hshift
  have hsum : weights f after.entries = weights f before.entries + change := by
    ext key
    rw [Finsupp.add_apply, weights_apply after.nodupKeys, weights_apply before.nodupKeys]
    exact hchange key
  rw [total, total, ← degree_weights, ← degree_weights, hsum, map_add]

end CegChain.Totals
