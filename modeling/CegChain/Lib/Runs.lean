import Mathlib.Data.List.Induction

/-!
# Runs

The states of a run, as `List.scanl` gives them, and the outcome of a loop that may fail, as
`List.foldlM` gives it.  What every step keeps is true of all of them.  A log that a run writes
only grows, so that what is said of an entry and of those before it stays true (`Each`).
-/

namespace CegChain.Runs

variable {S A : Type*} {step : S → A → S} {p : S → Prop} {s : S} {list : List A}

/-- The rule for a run whose steps are promised something: `promised` says what, of the state that
the rest of the run starts from. -/
theorem scanl_invariant_of (promised : S → List A → Prop)
    (hstep : ∀ {s a list}, p s → promised s (a :: list) →
      p (step s a) ∧ promised (step s a) list)
    (hs : p s) (hpromised : promised s list) : ∀ s' ∈ list.scanl step s, p s' := by
  induction list generalizing s with
  | nil =>
      intro s' hmem
      rw [List.mem_singleton.mp hmem]
      exact hs
  | cons a list ih =>
      rw [List.scanl_cons]
      intro s' hmem
      rcases List.mem_cons.mp hmem with rfl | hmem
      · exact hs
      · obtain ⟨hnext, hrest⟩ := hstep hs hpromised
        exact ih hnext hrest s' hmem

/-- What every step keeps is true after every step. -/
theorem scanl_invariant (hstep : ∀ {s a}, p s → p (step s a)) (hs : p s) :
    ∀ s' ∈ list.scanl step s, p s' :=
  scanl_invariant_of (fun _ _ => True) (fun hs _ => ⟨hstep hs, trivial⟩) hs trivial

/-- What every round keeps is true after a loop that does not fail. -/
theorem foldlM_invariant_of_mem {S A : Type} {p : S → Prop} {f : S → A → Option S} {list : List A}
    (hf : ∀ {s s₁ : S} {a : A}, a ∈ list → p s → f s a = some s₁ → p s₁) {s s₁ : S}
    (hs : p s) (hfold : list.foldlM f s = some s₁) : p s₁ := by
  induction list generalizing s with
  | nil =>
      obtain rfl := Option.some.inj hfold
      exact hs
  | cons a list ih =>
      rw [List.foldlM_cons] at hfold
      obtain ⟨s₂, hfirst, hrest⟩ := Option.bind_eq_some_iff.mp hfold
      exact ih (fun hmem => hf (List.mem_cons_of_mem a hmem)) (hf (List.mem_cons_self ..) hs hfirst)
        hrest

theorem foldlM_invariant {S A : Type} {p : S → Prop} {f : S → A → Option S}
    (hf : ∀ {s s₁ : S} {a : A}, p s → f s a = some s₁ → p s₁) {list : List A} {s s₁ : S}
    (hs : p s) (hfold : list.foldlM f s = some s₁) : p s₁ :=
  foldlM_invariant_of_mem (fun _ => hf) hs hfold

/-! ## Logs -/

variable {E : Type*} {P : List E → E → Prop} {log entries : List E} {entry : E}

/-- `P` holds of every entry and those before it. -/
def Each (P : List E → E → Prop) (log : List E) : Prop :=
  ∀ before entry after, log = before ++ entry :: after → P before entry

theorem each_nil : Each P [] := by
  intro before entry after heq
  simp at heq

/-- A new entry is judged by the log as it was. -/
theorem Each.concat (heach : Each P log) (hentry : P log entry) : Each P (log ++ [entry]) := by
  intro before other after heq
  induction after using List.reverseRecOn with
  | nil =>
      obtain ⟨rfl, hlast⟩ := List.append_inj' heq rfl
      rw [← (List.cons.inj hlast).1]
      exact hentry
  | append_singleton after last _ =>
      rw [← List.cons_append, ← List.append_assoc] at heq
      exact heach before other after (List.append_inj' heq rfl).1

theorem Each.append (heach : Each P log) (hentries : ∀ entry ∈ entries, ∀ before, P before entry) :
    Each P (log ++ entries) := by
  induction entries using List.reverseRecOn with
  | nil => rwa [List.append_nil]
  | append_singleton entries last ih =>
      rw [← List.append_assoc]
      refine (ih fun entry hentry => hentries entry ?_).concat (hentries last ?_ _)
      · exact List.mem_append_left _ hentry
      · exact List.mem_append_right _ (List.mem_singleton_self last)

end CegChain.Runs
