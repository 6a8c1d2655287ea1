import Mathlib.Data.List.Infix

/-!
# Common beginnings of lists

`common` is the longest common beginning of two lists.  Two lists of which neither
begins with the other fork there (`exists_fork`), and what both begin with ends at
the fork or before it (`prefix_of_fork`).
-/

namespace CegChain.Paths

variable {α : Type*} [DecidableEq α] {p q r k k' : List α} {a b : α}

/-- The longest common beginning. -/
def common : List α → List α → List α
  | a :: p, b :: q => if a = b then a :: common p q else []
  | _, _ => []

theorem common_cons_self (a : α) (p q : List α) :
    common (a :: p) (a :: q) = a :: common p q := by
  rw [common, if_pos rfl]

theorem common_cons_of_ne (hne : a ≠ b) (p q : List α) : common (a :: p) (b :: q) = [] := by
  rw [common, if_neg hne]

@[simp] theorem common_nil_left (p : List α) : common [] p = [] := by
  cases p <;> rfl

@[simp] theorem common_nil_right (p : List α) : common p [] = [] := by
  cases p <;> rfl

theorem common_comm (p q : List α) : common p q = common q p := by
  induction p generalizing q with
  | nil => simp
  | cons a p ih =>
      cases q with
      | nil => simp
      | cons b q =>
          by_cases heq : a = b
          · subst heq
            rw [common_cons_self, common_cons_self, ih]
          · rw [common_cons_of_ne heq, common_cons_of_ne (Ne.symm heq)]

theorem common_prefix_left (p q : List α) : common p q <+: p := by
  induction p generalizing q with
  | nil => simp
  | cons a p ih =>
      cases q with
      | nil => simp
      | cons b q =>
          by_cases heq : a = b
          · subst heq
            rw [common_cons_self]
            exact List.cons_prefix_cons.mpr ⟨rfl, ih q⟩
          · rw [common_cons_of_ne heq]
            exact List.nil_prefix

theorem common_prefix_right (p q : List α) : common p q <+: q := by
  rw [common_comm]
  exact common_prefix_left q p

theorem common_eq_left (hpre : p <+: q) : common p q = p := by
  obtain ⟨rest, rfl⟩ := hpre
  induction p with
  | nil => simp
  | cons a p ih => rw [List.cons_append, common_cons_self, ih]

theorem common_eq_left_iff : common p q = p ↔ p <+: q := by
  constructor
  · intro heq
    rw [← heq]
    exact common_prefix_right p q
  · exact common_eq_left

theorem common_eq_right_iff : common p q = q ↔ q <+: p := by
  rw [common_comm, common_eq_left_iff]

omit [DecidableEq α] in
/-- What a longer list has next. -/
theorem exists_next (hpre : p <+: q) (hne : p ≠ q) : ∃ a, p ++ [a] <+: q := by
  obtain ⟨rest, rfl⟩ := hpre
  cases rest with
  | nil => exact absurd (List.append_nil p).symm hne
  | cons a rest => exact ⟨a, rest, by rw [List.append_assoc]; rfl⟩

omit [DecidableEq α] in
theorem next_unique (ha : p ++ [a] <+: q) (hb : p ++ [b] <+: q) : a = b := by
  have hle := List.prefix_of_prefix_length_le ha hb (by simp)
  have heq := hle.eq_of_length (by simp)
  exact List.singleton_inj.mp (List.append_cancel_left heq)

omit [DecidableEq α] in
theorem not_prefix_next_self (p : List α) (a : α) : ¬ p ++ [a] <+: p := by
  intro hpre
  have hlength := hpre.length_le
  rw [List.length_append, List.length_singleton] at hlength
  exact Nat.not_succ_le_self _ hlength

/-- Two lists fork where their common beginning ends. -/
theorem exists_fork (hpq : ¬ p <+: q) (hqp : ¬ q <+: p) :
    ∃ a b, a ≠ b ∧ common p q ++ [a] <+: p ∧ common p q ++ [b] <+: q := by
  obtain ⟨a, ha⟩ := exists_next (common_prefix_left p q) fun h => hpq (common_eq_left_iff.mp h)
  obtain ⟨b, hb⟩ := exists_next (common_prefix_right p q) fun h => hqp (common_eq_right_iff.mp h)
  refine ⟨a, b, ?_, ha, hb⟩
  rintro rfl
  -- otherwise the common beginning would be longer
  obtain ⟨p', hp⟩ := ha
  obtain ⟨q', hq⟩ := hb
  have hlonger : ∀ s : List α, s ++ [a] <+: common (s ++ [a] ++ p') (s ++ [a] ++ q') := by
    intro s
    induction s with
    | nil => simp [common_cons_self]
    | cons c s ih =>
        simp only [List.cons_append, common_cons_self]
        exact List.cons_prefix_cons.mpr ⟨rfl, ih⟩
  have hself := hlonger (common p q)
  rw [hp, hq] at hself
  exact not_prefix_next_self _ _ hself

omit [DecidableEq α] in
/-- What two forking lists begin with ends at the fork or before it. -/
theorem prefix_of_fork (hne : a ≠ b) (ha : p ++ [a] <+: k) (hb : p ++ [b] <+: k')
    (hk : r <+: k) (hk' : r <+: k') : r <+: p := by
  rcases Nat.lt_or_ge p.length r.length with hlt | hle
  · have hra : p ++ [a] <+: r :=
      List.prefix_of_prefix_length_le ha hk (by rw [List.length_append]; exact hlt)
    have hrb : p ++ [b] <+: r :=
      List.prefix_of_prefix_length_le hb hk' (by rw [List.length_append]; exact hlt)
    exact absurd (next_unique hra hrb) hne
  · exact List.prefix_of_prefix_length_le hk ((List.prefix_append p [a]).trans ha) hle

theorem prefix_common (hk : r <+: k) (hk' : r <+: k') : r <+: common k k' := by
  by_cases hkk' : k <+: k'
  · rwa [common_eq_left hkk']
  · by_cases hk'k : k' <+: k
    · rwa [common_eq_right_iff.mpr hk'k]
    · obtain ⟨a, b, hne, ha, hb⟩ := exists_fork hkk' hk'k
      exact prefix_of_fork hne ha hb hk hk'

end CegChain.Paths
