import Mathlib.Logic.Function.Basic

/-!
# Functions that ask a callback

A function that takes a callback `ι → σ → α` may not ask it at all, or ask it once
and go on with the answer.  Where it asks can be told from outside: at the one
argument whose answer the result depends on.  A function *passes on* bad answers
when its result is bad whenever the answer it got was.
-/

namespace CegChain.Callback

variable {ι σ α β γ : Type*} {f : (ι → σ → α) → β} {bad : α → Prop} {bad' : β → Prop}

/-- Whatever the callback does, the function asks it for `i` in `s` and goes on with
`k`. -/
def Asks (f : (ι → σ → α) → β) (i : ι) (s : σ) (k : α → β) : Prop :=
  ∀ callback, f callback = k (callback i s)

/-- The function asks its callback for `i` in `s`, and the answer matters. -/
def Reaches (f : (ι → σ → α) → β) (i : ι) (s : σ) : Prop :=
  ∃ k, Asks f i s k ∧ ∃ a b, k a ≠ k b

/-- The function does not ask, or its result is bad when the answer is. -/
inductive PassesOn (bad : α → Prop) (bad' : β → Prop) (f : (ι → σ → α) → β) : Prop where
  | alone (r : β) (hconst : ∀ callback, f callback = r)
  | through (i : ι) (s : σ) (k : α → β) (hasks : Asks f i s k) (hbad : ∀ a, bad a → bad' (k a))

/-- There is one argument to ask for. -/
theorem Asks.unique {i i' : ι} {s s' : σ} {k k' : α → β} (hasks : Asks f i s k)
    (hasks' : Asks f i' s' k') {a b : α} (hne : k a ≠ k b) : i' = i ∧ s' = s := by
  classical
  by_contra hother
  -- the answers for the two arguments can be chosen apart
  let callback (x y : α) : ι → σ → α := fun j t => if j = i ∧ t = s then x else y
  have hvalue : ∀ x y, k x = k' y := by
    intro x y
    have hk := hasks (callback x y)
    have hk' := hasks' (callback x y)
    simp only [callback, and_self, if_true] at hk
    simp only [callback, if_neg hother] at hk'
    exact hk.symm.trans hk'
  exact hne ((hvalue a a).trans (hvalue b a).symm)

/-- The result is bad after a bad answer. -/
theorem PassesOn.bad_of_reaches (hpasses : PassesOn bad bad' f) {i : ι} {s : σ}
    (hreaches : Reaches f i s) {callback : ι → σ → α} (hbad : bad (callback i s)) :
    bad' (f callback) := by
  obtain ⟨k, hasks, a, b, hne⟩ := hreaches
  cases hpasses with
  | alone r hconst =>
      refine absurd ?_ hne
      have hvalue : ∀ x, k x = r := fun x => (hasks fun _ _ => x).symm.trans (hconst _)
      exact (hvalue a).trans (hvalue b).symm
  | through i' s' k' hasks' hbad' =>
      obtain ⟨rfl, rfl⟩ := hasks.unique hasks' hne
      rw [hasks' callback]
      exact hbad' _ hbad

/-- A function whose result depends on the callback asks it. -/
theorem PassesOn.exists_reaches (hpasses : PassesOn bad bad' f) {callback callback' : ι → σ → α}
    (hne : f callback ≠ f callback') : ∃ i s, Reaches f i s := by
  cases hpasses with
  | alone r hconst => exact absurd ((hconst callback).trans (hconst callback').symm) hne
  | through i s k hasks _ =>
      rw [hasks callback, hasks callback'] at hne
      exact ⟨i, s, k, hasks, _, _, hne⟩

/-- What a function asks for has the property `P`, when it cannot tell apart two
callbacks that give the same answers wherever `P` holds. -/
theorem Reaches.holds {P : ι → σ → Prop} (answer : ι → σ → α)
    (hblind : ∀ callback callback' : ι → σ → α,
      (∀ i s, P i s → callback i s = answer i s ∧ callback' i s = answer i s) →
        f callback = f callback')
    {i : ι} {s : σ} (hreaches : Reaches f i s) : P i s := by
  classical
  obtain ⟨k, hasks, a, b, hne⟩ := hreaches
  by_contra hother
  -- where `P` fails the two callbacks give the two answers that matter
  let callback (x : α) : ι → σ → α := fun j t => if P j t then answer j t else x
  have hvalue : ∀ x, f (callback x) = k x := by
    intro x
    have hk := hasks (callback x)
    simpa only [callback, if_neg hother] using hk
  refine hne ?_
  calc k a = f (callback a) := (hvalue a).symm
    _ = f (callback b) := hblind _ _ fun j t hP => ⟨if_pos hP, if_pos hP⟩
    _ = k b := hvalue b

/-- A function that is the same after every callback. -/
theorem PassesOn.of_eq (callback₀ : ι → σ → α)
    (hconst : ∀ callback, f callback = f callback₀) : PassesOn bad bad' f :=
  .alone _ hconst

/-- What is done to the result afterwards. -/
theorem PassesOn.map {bad'' : γ → Prop} (hpasses : PassesOn bad bad' f) (g : β → γ)
    (hg : ∀ r, bad' r → bad'' (g r)) : PassesOn bad bad'' fun callback => g (f callback) := by
  cases hpasses with
  | alone r hconst => exact .alone (g r) fun callback => congrArg g (hconst callback)
  | through i s k hasks hbad =>
      exact .through i s (fun a => g (k a)) (fun callback => congrArg g (hasks callback))
        fun a ha => hg _ (hbad a ha)

end CegChain.Callback
