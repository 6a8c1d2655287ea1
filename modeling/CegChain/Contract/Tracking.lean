import CegChain.Contract.Ranking
import Mathlib.Data.Finset.Dedup

/-!
# The validators that were set

The validators that were last set are the first ones of the list as long as the number
of validators in the configuration stays the same: every other change of the first ones
comes with a call of `setValidators`.  `updateCfg` stores a new number and does not set
the validators anew (`validators_lag`).
-/

namespace CegChain.Dpos

open Layers Register

variable {host : Host} {msg : Msg} {w w₁ : World} {cfg : Config} {p p' : Pending}
  {r r' : Register} {kind : Kind}

/-! ## The validators that were set -/

/-- The node that a row gives to `setValidators`. -/
def Candidate.nodeAddress (row : Candidate) : Address :=
  row.node.getD []

/-- The nodes of the validators are those of the first `n` candidates. -/
def Register.Tracks (n : ℕ) (r : Register) : Prop :=
  (r.validators.map Prod.fst).toFinset =
    ((r.valCands.take n).map Candidate.nodeAddress).toFinset

instance (n : ℕ) (r : Register) : Decidable (r.Tracks n) :=
  inferInstanceAs (Decidable (_ = _))

/-- The number of validators in a configuration. -/
def Config.size (cfg : Config) : ℕ :=
  (cfg.int .validatorSize).toNat

theorem map_fst_elected (cfg : Config) (candidates : List Candidate) :
    (elected cfg candidates).map Prod.fst =
      (candidates.take cfg.size).map Candidate.nodeAddress := by
  rw [elected, List.map_map]
  rfl

/-- The rule for a list that is saved: the validators are set, or the first ones have the
same nodes as before. -/
theorem tracks_save {role : Role} {candidates : List Candidate} {update : Bool}
    (htracks : r.Tracks cfg.size)
    (hsame : role = .validator → update = false →
      ((candidates.take cfg.size).map Candidate.nodeAddress).toFinset =
        ((r.valCands.take cfg.size).map Candidate.nodeAddress).toFinset) :
    (r.save cfg role candidates update).Tracks cfg.size := by
  unfold Register.save Register.setCands
  by_cases hrole : role = .validator
  · rw [if_pos hrole]
    cases update with
    | true =>
        rw [if_pos ⟨hrole, rfl⟩]
        exact congrArg List.toFinset (map_fst_elected cfg candidates)
    | false =>
        rw [if_neg nofun]
        exact htracks.trans (hsame hrole rfl).symm
  · rw [if_neg hrole, if_neg fun h => hrole h.1]
    exact htracks

theorem tracks_restake {role : Role} {found : Candidate} (stake : ℤ) (hordered : Ordered r)
    (hrole : role ≠ .committee) (hfound : r.find role found.address = some found)
    (htracks : r.Tracks cfg.size) : (r.restake cfg role found stake).Tracks cfg.size := by
  obtain ⟨a, b, a', b', update, hsplit, hrest, -, hrestake, hupdate⟩ :=
    exists_restake cfg stake (hordered.sorted role hrole) hfound
  rw [hrestake]
  refine tracks_save htracks fun hvalidator hcrosses => ?_
  subst hvalidator
  have hcands : r.valCands = a ++ found :: b := hsplit
  have hnodes := hordered.nodes
  rw [hcands, List.map_append, List.map_cons, List.perm_middle.nodup_iff, List.nodup_cons,
    ← List.map_append] at hnodes
  have hother : { found with stake := stake } ∉ a ++ b :=
    fun hmem => hnodes.1 (List.mem_map.mpr ⟨_, hmem, rfl⟩)
  rw [hupdate hother] at hcrosses
  rw [hcands]
  have hnot := of_decide_eq_false hcrosses
  rw [crosses, show formalSize .validator cfg = cfg.int .validatorSize from rfl] at hnot
  by_cases hlt : a.length < cfg.size
  · -- the row is among the first before and after
    have hlt' : a'.length < cfg.size := by
      rw [Config.size] at hlt ⊢
      omega
    refine List.toFinset_eq_of_perm _ _ ?_
    refine ((Ranking.take_perm_of_lt hlt').map _).trans ?_
    refine List.Perm.trans ?_ ((Ranking.take_perm_of_lt hlt).map _).symm
    rw [hrest]
    exact List.Perm.refl _
  · have hle' : cfg.size ≤ a'.length := by
      rw [Config.size] at hlt ⊢
      omega
    rw [Ranking.take_of_le hle', Ranking.take_of_le (not_lt.mp hlt), hrest]

/-- The first ones do not change when a new row is not one of them. -/
theorem take_of_not_isElected {a b : List Candidate} {x : Candidate} {n : ℕ}
    (hnew : ∀ row ∈ a, row ≠ x) (helected : isElected ((a ++ x :: b).take n) x cfg = false) :
    ((a ++ x :: b).take n).take cfg.size = (a ++ b).take cfg.size := by
  rw [isElected, Bool.or_eq_false_iff] at helected
  have hfound := of_decide_eq_false helected.1
  have hplace := of_decide_eq_false helected.2
  -- the row was not cut off
  have hlt : a.length < n := by
    by_contra hle
    refine hfound (List.findIdx_eq_length.mpr fun row hrow => decide_eq_false (hnew row ?_))
    rw [List.take_append_of_le_length (not_lt.mp hle)] at hrow
    exact List.mem_of_mem_take hrow
  obtain ⟨k, rfl⟩ : ∃ k, n = a.length + (k + 1) := ⟨n - a.length - 1, by omega⟩
  have htake : (a ++ x :: b).take (a.length + (k + 1)) = a ++ x :: b.take k := by
    rw [List.take_length_add_append, List.take_succ_cons]
  rw [htake] at hplace ⊢
  rw [findIdx_split hnew rfl] at hplace
  have hle : cfg.size ≤ a.length := by
    rw [Config.size]
    omega
  rw [List.take_append_of_le_length hle, List.take_append_of_le_length hle]

/-- What a move does to the validators, when it leaves their number alone. -/
theorem tracks_move (hmove : Move cfg kind r p r' p') (hordered : Ordered r)
    (htracks : r.Tracks cfg.size) : r'.Tracks cfg.size := by
  cases hmove with
  | papers | config | pass | withdraw | drop | forget => exact htracks
  | @enlist _ _ _ proposals role row saved pledge hrole hkind hnew hset hstake hnode hsaved =>
      obtain ⟨a, b, hsorted, hsplit⟩ := exists_sorted_append row (hordered.sorted role hrole)
      rw [hsorted] at hsaved
      refine tracks_save htracks fun hvalidator helected => ?_
      subst hvalidator hsaved
      rw [take_of_not_isElected (fun row' hrow' heq => ?_) helected, ← hsplit]
      · rfl
      · exact hnode rfl row' (hsplit ▸ List.mem_append_left _ hrow') (heq ▸ rfl)
  | @raise _ _ proposals role found amount old hrole hfound hold hset =>
      exact tracks_restake _ ⟨hordered.sorted, hordered.nodes⟩ hrole hfound htracks
  | @leave _ _ proposals role address hrole hlisted hset =>
      obtain ⟨found, rfl, hfound⟩ := exists_of_find_ne_none hlisted
      obtain ⟨a, b, hsplit, hplace⟩ := split_of_find hfound
      have hsorted := hordered.sorted role hrole
      rw [hsplit] at hsorted
      rw [hplace, hsplit, sortRows_eraseIdx hsorted]
      refine tracks_save htracks fun hvalidator hlt => ?_
      subst hvalidator
      have hle : cfg.size ≤ a.length := by
        have hnot := of_decide_eq_false hlt
        rw [Config.size]
        omega
      rw [show r.valCands = a ++ found :: b from hsplit, Ranking.take_of_le hle]
  | @vote _ _ role voter found amount votes hrole hfound _ =>
      exact tracks_restake _ ⟨hordered.sorted, hordered.nodes⟩ hrole hfound htracks
  | settle hrole hfound => exact tracks_restake _ hordered hrole hfound htracks
  | @seat _ _ proposals found node hfound hnode hsame =>
      obtain ⟨a, b, hsplit, hplace⟩ := split_of_find hfound
      have hcands : r.valCands = a ++ found :: b := hsplit
      refine tracks_save htracks fun _ hlt => ?_
      have hle : cfg.size ≤ a.length := by
        have hnot := of_decide_eq_false hlt
        rw [hplace] at hnot
        rw [Config.size]
        omega
      change ((List.take _ (r.valCands.set _ _)).map _).toFinset =
        ((r.valCands.take _).map _).toFinset
      rw [hplace, hcands, List.set_append_right _ _ le_rfl, Nat.sub_self, List.set_cons_zero,
        List.take_append_of_le_length hle, List.take_append_of_le_length hle]

/-! ## Histories -/

/-- The validators of a state are the first ones of its list. -/
def World.Tracks (w : World) : Prop :=
  w.register.Tracks w.storage.config.size

instance (w : World) : Decidable w.Tracks :=
  inferInstanceAs (Decidable (Register.Tracks _ _))

/-- The number of validators has changed so that it cuts the list at another row. -/
def Resized (w w' : World) : Prop :=
  w'.storage.valCands.take w'.storage.config.size ≠ w'.storage.valCands.take w.storage.config.size

instance (w w' : World) : Decidable (Resized w w') :=
  inferInstanceAs (Decidable (_ ≠ _))

/-- The methods that may change the number of validators. -/
def Method.resizes : Method → Bool
  | .approve .config (.item .validatorSize) _ => true
  | _ => false

theorem int_update_of_ne {item item' : Item} (value : Value) (hne : item' ≠ item) :
    Config.int (Function.update cfg item value) item' = cfg.int item' := by
  rw [Config.int, Function.update_of_ne hne]
  rfl

/-- The validators are tracked, for a number of validators that stays the same. -/
def trackingOf (size : ℕ) : Invariant where
  holds r _ := Ordered r ∧ r.config.size = size ∧ r.Tracks size
  good cfg := cfg.size = size
  allowed kind := kind ≠ .config .validatorSize
  other := nofun
  config h := h.2.1
  move := by
    rintro cfg kind r p r' p' rfl hkind hmove ⟨hordered, hsize, htracks⟩
    refine ⟨ordered_move hmove hordered, ?_, tracks_move hmove hordered htracks⟩
    cases hmove with
    | config item value _ =>
        have hne : .validatorSize ≠ item := fun h => hkind (h ▸ rfl)
        exact congrArg Int.toNat (int_update_of_ne value hne)
    | papers | pass | withdraw | drop | forget => exact hsize
    | enlist | leave | seat => exact (congrArg _ config_save).trans hsize
    | raise | vote | settle => exact (congrArg _ config_save).trans hsize

theorem allows_trackingOf {size : ℕ} {method : Method} (hmethod : method.resizes = false) :
    (trackingOf size).Allows method := by
  rintro kind hmakes rfl
  unfold Method.Makes at hmakes
  split at hmakes
  · simp at hmakes
  · rcases hmakes with hmakes | hmakes
    · cases hmakes
    · cases hmakes
      cases hmethod
  all_goals simp at hmakes

/-- **One step.** -/
theorem tracks_step {st : Step} (hwithin : st.Within fun method => method.resizes = false)
    (hsized : ¬ Resized w (step host w st)) (hordered : Ordered w.register) (htracks : w.Tracks) :
    Ordered (step host w st).register ∧ (step host w st).Tracks := by
  rcases step_cases host w st with
    ⟨-, hsame⟩ | ⟨msg, method, reactions, w₀, rfl, hstorage, hregister, hmain⟩
  · have hconfig : (step host w st).storage.config = w.storage.config :=
      congrArg Register.config hsame
    rw [World.Tracks, hconfig, hsame]
    exact ⟨hordered, htracks⟩
  · generalize step host w _ = w₁ at hmain hsized ⊢
    have hholds : (trackingOf w.storage.config.size).holds w₀.register 0 := by
      rw [hregister]
      exact ⟨hordered, rfl, htracks⟩
    by_cases hresizes : method.resizes = false
    · have hreceive : (trackingOf w.storage.config.size).Receives
          fun i => react host (reactions i) := by
        intro i w w' p hreact
        exact Invariant.react (reactions i) ((hwithin i).imp fun _ h => allows_trackingOf h) hreact
      obtain ⟨hordered₁, hsize, htracks₁⟩ :=
        Invariant.main hreceive (allows_trackingOf hresizes) hmain hholds
      refine ⟨hordered₁, ?_⟩
      rw [World.Tracks, show w₁.storage.config.size = _ from hsize]
      exact htracks₁
    · -- the number may have changed, and nothing else of the election
      have hpays : method.pays = false := by
        unfold Method.resizes at hresizes
        split at hresizes
        · rfl
        · exact absurd rfl hresizes
      obtain ⟨kind, -, hmove⟩ := move_main (p := 0) hpays hmain
      rw [hregister, hstorage] at hmove
      refine ⟨ordered_move hmove hordered, ?_⟩
      have htracks₁ := tracks_move hmove hordered htracks
      rw [World.Tracks, Register.Tracks]
      exact htracks₁.trans (by rw [show w₁.register.valCands = w₁.storage.valCands from rfl,
        not_not.mp hsized])

theorem tracks_initialization {logicContract : Address} {committee : List Address}
    {validators : List (Address × ℤ)} {balance : ℕ}
    (hinit : initialization host msg logicContract committee validators balance = some w)
    (hlength : validators.length ≤ 19) : w.Tracks := by
  obtain ⟨hconfig, hcands, -, -, hvalidators, -⟩ := of_initialization hinit
  have hperm := perm_sortRows (validators.map fun row => ⟨row.1, row.2, some row.1⟩)
  have hsize : w.storage.config.size = 19 := by
    rw [hconfig]
    rfl
  rw [World.Tracks, hsize, Register.Tracks, show w.register.valCands = _ from hcands,
    show w.register.validators = _ from hvalidators, List.take_of_length_le]
  · refine List.toFinset_eq_of_perm _ _ ?_
    refine List.Perm.trans ?_ (hperm.map _).symm
    rw [List.map_map]
    exact List.Perm.refl _
  · rw [hperm.length_eq, List.length_map]
    exact hlength

/-- **The validators are the first candidates.** In a history in which the number of
validators never changes so that it cuts the list at another row, the nodes last given to
`setValidators` are in every state those of the first candidates. -/
theorem tracks_states {logicContract : Address} {committee : List Address}
    {validators : List (Address × ℤ)} {balance : ℕ}
    (hinit : initialization host msg logicContract committee validators balance = some w)
    (hnodup : (validators.map Prod.fst).Nodup) (hlength : validators.length ≤ 19)
    {steps : List Step}
    (hwithin : ∀ st ∈ steps, st.Within fun method => method.resizes = false)
    (hsized : (states host w steps).IsChain fun w w' => ¬ Resized w w') :
    ∀ w' ∈ states host w steps, w'.Tracks := by
  have hall : ∀ w' ∈ states host w steps, Ordered w'.register ∧ w'.Tracks :=
    states_invariant (fun hwithin hsized h => tracks_step hwithin hsized h.1 h.2)
      ⟨ordered_initialization hinit hnodup, tracks_initialization hinit hlength⟩ hwithin hsized
  exact fun w' hmem => (hall w' hmem).2

/-- A member of the committee proposes a number of validators, and the other one agrees. -/
def resizeHistory (size : ℚ) : List Step :=
  [plainCall [1] 1 (.configure .validatorSize (.number size)),
    plainCall [2] 2 (.approve .config (.item .validatorSize) [1]),
    plainCall [4] 3 (.withdraw .validator)]

theorem within_resizeHistory (size : ℚ) :
    ∀ st ∈ resizeHistory size, st.Within fun method => method.resizes = false := by
  intro st hst
  simp only [resizeHistory, plainCall, List.mem_cons, List.not_mem_nil, or_false] at hst
  rcases hst with rfl | rfl | rfl <;> exact fun _ => trivial

/-- Of two validators two are elected, and one of them withdraws. -/
theorem tracks_states_resize :
    ∃ w ∈ states sampleHost (sampleWorld [([3], 0), ([4], 0)]) (resizeHistory 2),
      w.Tracks ∧ w.storage.config.size = 2 := by
  obtain ⟨w, hw, hsize⟩ : ∃ w ∈ states sampleHost (sampleWorld [([3], 0), ([4], 0)])
      (resizeHistory 2), w.storage.config.size = 2 := by
    decide +kernel
  refine ⟨w, hw, ?_, hsize⟩
  refine tracks_states (initialization_sample _) (by decide) (by decide)
    (within_resizeHistory 2) ?_ w hw
  decide +kernel

/-- Of two validators one is elected, and the validators are still two. -/
theorem validators_lag :
    ∃ w ∈ states sampleHost (sampleWorld [([3], 0), ([4], 0)]) (resizeHistory 1),
      ¬ w.Tracks ∧ w.storage.config.size = 1 ∧ w.validators.map Prod.fst = [[3], [4]] := by
  decide +kernel

end CegChain.Dpos
