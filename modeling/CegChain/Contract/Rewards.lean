import CegChain.Contract.WellFormed

/-!
# The distribution of a reward

`calculate` splits a reward by percent over four groups, passes the share of an empty group on
to another one, and divides every share over the members of its group; the first member of a
group gets what the division leaves, and the first validator what the percents leave.

Nothing is lost in this: the rewards recorded grow by the reward that is distributed, and
nothing else in the rows changes (`Dists.Grown`, `calculate_exact`).  The only reason for which
a distribution may fail is a reward that no longer fits into 64 bits (`Elect.Fits`).
-/

namespace CegChain.Dpos

open Layers Totals

variable {dist dist' dist'' : Dists} {nodes : List Candidate} {name address : Address}
  {amount amount' : ℤ}

/-! ## What a distribution changes -/

/-- The rewards grow by the amount in total.  The rows are the same but for their rewards, and
none of them gets more than the amount. -/
structure Dists.Grown (amount : ℤ) (dist dist' : Dists) : Prop where
  sum : Dists.rewards dist' = Dists.rewards dist + amount
  row : ∀ address, dist.lookup address = none ∧ dist'.lookup address = none ∨
    ∃ entry gain, dist.lookup address = some entry ∧ 0 ≤ gain ∧ gain ≤ amount ∧
      dist'.lookup address = some { entry with reward := entry.reward + gain }

theorem Dists.Grown.refl (dist : Dists) : Dists.Grown 0 dist dist := by
  refine ⟨by rw [add_zero], fun address => ?_⟩
  cases hlookup : dist.lookup address with
  | none => exact Or.inl ⟨rfl, rfl⟩
  | some entry => exact Or.inr ⟨entry, 0, rfl, le_rfl, le_rfl, by rw [add_zero]⟩

theorem Dists.Grown.trans (hfirst : Dists.Grown amount dist dist')
    (hsecond : Dists.Grown amount' dist' dist'') :
    Dists.Grown (amount + amount') dist dist'' := by
  refine ⟨by rw [hsecond.sum, hfirst.sum, add_assoc], fun address => ?_⟩
  rcases hfirst.row address with ⟨hnone, hnone'⟩ | ⟨entry, gain, hentry, hgain, hle, hentry'⟩
  · rcases hsecond.row address with ⟨-, hnone''⟩ | ⟨entry, gain, hentry, -⟩
    · exact Or.inl ⟨hnone, hnone''⟩
    · rw [hnone'] at hentry
      cases hentry
  · rcases hsecond.row address with ⟨hnone, -⟩ | ⟨other, gain', hother, hgain', hle', hentry''⟩
    · rw [hnone] at hentry'
      cases hentry'
    · rw [hentry'] at hother
      obtain rfl := Option.some.inj hother
      refine Or.inr ⟨entry, gain + gain', hentry, by omega, by omega, ?_⟩
      rw [hentry'', add_assoc]

theorem grown_credit (hcredit : credit dist name amount = some dist') (hamount : 0 ≤ amount) :
    Dists.Grown amount dist dist' := by
  refine ⟨(of_credit hcredit).1, fun address => ?_⟩
  obtain ⟨entry, hlookup, hcredit⟩ := of_bind hcredit
  obtain ⟨reward, hreward, hcredit⟩ := of_bind hcredit
  obtain rfl := Option.some.inj hcredit
  obtain rfl := of_int64Add hreward
  by_cases haddress : address = name
  · subst haddress
    exact Or.inr ⟨entry, amount, hlookup, hamount, le_rfl, AList.lookup_insert _⟩
  · rw [AList.lookup_insert_ne haddress]
    cases hother : dist.lookup address with
    | none => exact Or.inl ⟨rfl, rfl⟩
    | some other => exact Or.inr ⟨other, 0, rfl, le_rfl, hamount, by rw [add_zero]⟩

theorem grown_credit_foldlM (hamount : 0 ≤ amount)
    (hfold : nodes.foldlM (fun dist node => credit dist node.address amount) dist = some dist') :
    Dists.Grown (nodes.length * amount) dist dist' := by
  induction nodes generalizing dist with
  | nil =>
      obtain rfl := Option.some.inj hfold
      rw [List.length_nil, Nat.cast_zero, zero_mul]
      exact .refl dist
  | cons node nodes ih =>
      rw [List.foldlM_cons] at hfold
      obtain ⟨dist₁, hfirst, hrest⟩ := of_bind hfold
      have hlength : ((node :: nodes).length : ℤ) * amount = amount + nodes.length * amount := by
        rw [List.length_cons]
        push_cast
        ring
      rw [hlength]
      exact (grown_credit hfirst hamount).trans (ih hrest)

theorem grown_distribute {allReward : ℤ} {done : Bool}
    (hdist : distribute nodes allReward dist = some (done, dist')) :
    Dists.Grown (if done then allReward else 0) dist dist' := by
  unfold distribute at hdist
  split at hdist
  · cases hdist
    exact .refl dist
  · rename_i top rest
    obtain ⟨reward, hreward, hdist⟩ := of_bind hdist
    obtain ⟨dist₁, hfold, hdist⟩ := of_bind hdist
    obtain ⟨left, hleft, hdist⟩ := of_bind hdist
    obtain ⟨dist₂, hcredit, hdist⟩ := of_bind hdist
    cases hdist
    obtain ⟨hpos, hall, rfl⟩ := of_int64Div hreward
    obtain ⟨-, -, rfl⟩ := of_int64Mod hleft
    have heach := Int.ediv_nonneg hall hpos.le
    have hrest := Int.emod_nonneg allReward hpos.ne'
    have hgrown := (grown_credit_foldlM heach hfold).trans (grown_credit hcredit hrest)
    rwa [if_pos rfl, ← Int.mul_ediv_add_emod allReward ((top :: rest).length : ℤ)]

/-- What the two roles get is the reward. -/
theorem grown_calculate {cfg : Config} {elect : Elect} {reward : ℤ} {valDist kolDist : Dists}
    (hexact : (cfg .rewardAllocationShare).Exact)
    (hcalc : calculate cfg elect reward = some (valDist, kolDist)) :
    ∃ valAmount kolAmount, Dists.Grown valAmount elect.valDist valDist ∧
      Dists.Grown kolAmount elect.kolDist kolDist ∧ valAmount + kolAmount = reward := by
  obtain ⟨hsum, -⟩ := of_calculate hcalc
  obtain ⟨-, -, -, -, -, -, hdist₁, -, hdist₂, -, hdist₃, -, hdist₄, -, hcredit⟩ :=
    calculated_of_calculate hcalc
  have hgrown₁ := grown_distribute hdist₁
  have hgrown₂ := grown_distribute hdist₂
  have hgrown₃ := grown_distribute hdist₃
  have hgrown₄ := grown_distribute hdist₄
  have hrest : 0 ≤ reward % 100 := Int.emod_nonneg _ (by norm_num)
  have hkol := hgrown₁.trans hgrown₂
  have hval := (hgrown₃.trans hgrown₄).trans (grown_credit hcredit hrest)
  refine ⟨_, _, hval, hkol, ?_⟩
  have hval' := hval.sum
  have hkol' := hkol.sum
  have hsum' := hsum hexact
  omega

/-! ## When there is room -/

/-- No reward is negative, and the amount can be added to each of them. -/
def Dists.Room (amount : ℤ) (dist : Dists) : Prop :=
  ∀ address entry, dist.lookup address = some entry →
    0 ≤ entry.reward ∧ entry.reward + amount < 2 ^ 63

theorem Dists.Room.mono (hroom : Dists.Room amount dist) (hle : amount' ≤ amount) :
    Dists.Room amount' dist := by
  intro address entry hlookup
  obtain ⟨hnonneg, hlt⟩ := hroom address entry hlookup
  exact ⟨hnonneg, by omega⟩

theorem Dists.Room.grown (hroom : Dists.Room (amount + amount') dist)
    (hgrown : Dists.Grown amount dist dist') : Dists.Room amount' dist' := by
  intro address entry hlookup
  rcases hgrown.row address with ⟨-, hnone⟩ | ⟨old, gain, hold, hgain, hle, hentry⟩
  · rw [hnone] at hlookup
    cases hlookup
  · rw [hentry] at hlookup
    obtain rfl := Option.some.inj hlookup
    obtain ⟨hnonneg, hlt⟩ := hroom address old hold
    exact ⟨add_nonneg hnonneg hgain, by change old.reward + gain + amount' < _; omega⟩

theorem int64_eq_some {f : ℤ → ℤ → ℤ} {a b : ℤ} (ha : 0 ≤ a) (ha' : a < 2 ^ 63) (hb : 0 ≤ b)
    (hb' : b < 2 ^ 63) (hf : 0 ≤ f a b) (hf' : f a b < 2 ^ 63) : int64 f a b = some (f a b) := by
  refine if_pos ⟨?_, ?_, ?_⟩
  all_goals
    simp only [isInt64, Bool.and_eq_true, decide_eq_true_eq]
    omega

theorem exists_credit (hmem : name ∈ dist) (hamount : 0 ≤ amount)
    (hroom : Dists.Room amount dist) : ∃ dist', credit dist name amount = some dist' := by
  obtain ⟨entry, hlookup⟩ := Option.isSome_iff_exists.mp (AList.lookup_isSome.mpr hmem)
  obtain ⟨hnonneg, hlt⟩ := hroom name entry hlookup
  have hadd : int64Add entry.reward amount = some (entry.reward + amount) :=
    int64_eq_some hnonneg (by omega) hamount (by omega) (by omega) hlt
  refine ⟨dist.insert name { entry with reward := entry.reward + amount }, ?_⟩
  simp [credit, hlookup, hadd]

theorem exists_credit_foldlM (hmem : ∀ node ∈ nodes, node.address ∈ dist) (hamount : 0 ≤ amount)
    (hroom : Dists.Room (nodes.length * amount) dist) : ∃ dist',
      nodes.foldlM (fun dist node => credit dist node.address amount) dist = some dist' := by
  induction nodes generalizing dist with
  | nil => exact ⟨dist, rfl⟩
  | cons node nodes ih =>
      have hlength : ((node :: nodes).length : ℤ) * amount = amount + nodes.length * amount := by
        rw [List.length_cons]
        push_cast
        ring
      rw [hlength] at hroom
      have hrest : 0 ≤ (nodes.length : ℤ) * amount := by positivity
      obtain ⟨dist₁, hfirst⟩ := exists_credit (hmem node List.mem_cons_self) hamount
        (hroom.mono (by omega))
      obtain ⟨dist', hfold⟩ := @ih dist₁
        (fun other hother => mem_credit hfirst (hmem other (List.mem_cons_of_mem node hother)))
        (hroom.grown (grown_credit hfirst hamount))
      refine ⟨dist', ?_⟩
      rw [List.foldlM_cons, hfirst]
      exact hfold

theorem int64Div_eq_some {a b : ℤ} (ha : 0 ≤ a) (ha' : a < 2 ^ 63) (hb : 0 < b)
    (hb' : b < 2 ^ 63) : int64Div a b = some (a / b) := by
  rw [int64Div, if_pos ⟨hb, ha⟩]
  exact int64_eq_some ha ha' hb.le hb' (Int.ediv_nonneg ha hb.le)
    ((Int.ediv_le_self b ha).trans_lt ha')

theorem int64Mod_eq_some {a b : ℤ} (ha : 0 ≤ a) (ha' : a < 2 ^ 63) (hb : 0 < b)
    (hb' : b < 2 ^ 63) : int64Mod a b = some (a % b) := by
  rw [int64Mod, if_pos ⟨hb, ha⟩]
  exact int64_eq_some ha ha' hb.le hb' (Int.emod_nonneg a hb.ne')
    ((Int.emod_lt_of_pos a hb).trans hb')

theorem exists_distribute {allReward : ℤ} (hmem : ∀ node ∈ nodes, node.address ∈ dist)
    (hall : 0 ≤ allReward) (hall' : allReward < 2 ^ 63) (hlength : (nodes.length : ℤ) < 2 ^ 63)
    (hroom : Dists.Room allReward dist) :
    ∃ dist', distribute nodes allReward dist = some (!nodes.isEmpty, dist') := by
  cases nodes with
  | nil => exact ⟨dist, rfl⟩
  | cons top rest =>
      have hpos : (0 : ℤ) < (top :: rest).length := by simp
      have heach := Int.ediv_nonneg hall hpos.le
      have hleft := Int.emod_nonneg allReward hpos.ne'
      have hparts := Int.mul_ediv_add_emod allReward ((top :: rest).length : ℤ)
      obtain ⟨dist₁, hfold⟩ := exists_credit_foldlM hmem heach (hroom.mono (by omega))
      rw [← hparts] at hroom
      have hmem₁ : top.address ∈ dist₁ := Runs.foldlM_invariant (p := (top.address ∈ ·))
        (fun h hcredit => mem_credit hcredit h) (hmem top List.mem_cons_self) hfold
      obtain ⟨dist₂, hcredit⟩ := exists_credit hmem₁ hleft
        (hroom.grown (grown_credit_foldlM heach hfold))
      refine ⟨dist₂, ?_⟩
      simp only [distribute, int64Div_eq_some hall hall' hpos hlength,
        int64Mod_eq_some hall hall' hpos hlength, Option.bind_eq_bind, Option.bind_some, hfold,
        hcredit]
      rfl

/-- The members of the groups have rows for their rewards. -/
structure Elect.Rowed (elect : Elect) : Prop where
  validators : ∀ row ∈ elect.validators, row.address ∈ elect.valDist
  valCands : ∀ row ∈ elect.valCands, row.address ∈ elect.valDist
  kols : ∀ row ∈ elect.kols, row.address ∈ elect.kolDist
  kolCands : ∀ row ∈ elect.kolCands, row.address ∈ elect.kolDist

/-- The numbers of a distribution fit into 64 bits. -/
structure Elect.Fits (elect : Elect) (reward : ℤ) : Prop where
  reward_lt : reward < 2 ^ 63
  valDist : Dists.Room reward elect.valDist
  kolDist : Dists.Room reward elect.kolDist
  validators : (elect.validators.length : ℤ) < 2 ^ 63
  valCands : (elect.valCands.length : ℤ) < 2 ^ 63
  kols : (elect.kols.length : ℤ) < 2 ^ 63
  kolCands : (elect.kolCands.length : ℤ) < 2 ^ 63

theorem shareOf_eq_some {centi : ℤ} {n : ℕ} (hcenti : 0 ≤ centi) (hcenti' : centi * 100 < 2 ^ 63)
    (hn : n ≤ 100) : shareOf centi n = some (centi * n) := by
  have hle : centi * n ≤ centi * 100 := by
    gcongr
    exact_mod_cast hn
  rw [shareOf, int?_natCast hn, Option.bind_some]
  exact int64_eq_some hcenti (by omega) (by positivity) (by omega) (by positivity) (by omega)

theorem orAdd_eq_some {done : Bool} {share rest : ℤ} (hshare : 0 ≤ share) (hrest : 0 ≤ rest)
    (hsum : share + rest < 2 ^ 63) :
    orAdd done share rest = some (share + if done then 0 else rest) := by
  cases done with
  | true => simp [orAdd]
  | false => exact int64_eq_some hshare (by omega) hrest (by omega) (by omega) hsum

/-- A group gets its part, or the part is added to the share of the next group.  In both cases
there is room for what the next group gets. -/
theorem exists_handOver {part share : ℤ} (hmem : ∀ node ∈ nodes, node.address ∈ dist)
    (hlength : (nodes.length : ℤ) < 2 ^ 63) (hpart : 0 ≤ part) (hshare : 0 ≤ share)
    (hsum : share + part < 2 ^ 63) (hroom : Dists.Room (amount + share + part) dist)
    (hamount : 0 ≤ amount) : ∃ done dist' next, distribute nodes part dist = some (done, dist') ∧
      orAdd done share part = some next ∧ 0 ≤ next ∧ next ≤ share + part ∧
      Dists.Room (amount + next) dist' := by
  obtain ⟨dist', hdist⟩ := exists_distribute hmem hpart (by omega) hlength
    (hroom.mono (by omega))
  refine ⟨_, dist', _, hdist, orAdd_eq_some hshare hpart hsum, ?_, ?_, ?_⟩
  · split <;> omega
  · split <;> omega
  · have hgrown := grown_distribute hdist
    refine Dists.Room.grown ?_ hgrown
    split <;> exact hroom.mono (by omega)

theorem exists_calculate {cfg : Config} {elect : Elect} {reward : ℤ} {n₀ n₁ n₂ n₃ : ℕ}
    (hreward : 0 < reward) (hshare : cfg .rewardAllocationShare = .share n₀ n₁ n₂ n₃)
    (hsum : n₀ + n₁ + n₂ + n₃ = 100) (hvalidators : elect.validators ≠ []) (hrowed : elect.Rowed)
    (hfits : elect.Fits reward) : ∃ dists, calculate cfg elect reward = some dists := by
  obtain ⟨topOne, rest, htop⟩ := List.exists_cons_of_ne_nil hvalidators
  have hlt := hfits.reward_lt
  have hparts := Int.mul_ediv_add_emod reward 100
  have hleft := Int.emod_nonneg reward (by norm_num : (100 : ℤ) ≠ 0)
  have hcenti : 0 ≤ reward / 100 := Int.ediv_nonneg hreward.le (by norm_num)
  have hcenti' : reward / 100 * 100 < 2 ^ 63 := by omega
  have hshares : reward / 100 * n₀ + reward / 100 * n₁ + reward / 100 * n₂ + reward / 100 * n₃ =
      reward / 100 * 100 := by
    rw [← mul_add, ← mul_add, ← mul_add]
    exact_mod_cast congrArg (fun n : ℕ => reward / 100 * (n : ℤ)) hsum
  have hVF : 0 ≤ reward / 100 * n₀ := by positivity
  have hVC : 0 ≤ reward / 100 * n₁ := by positivity
  have hKF : 0 ≤ reward / 100 * n₂ := by positivity
  have hKC : 0 ≤ reward / 100 * n₃ := by positivity
  -- the KOL candidates, the KOLs, the validator candidates, and the validators at last
  obtain ⟨done₁, kolDist₁, rKF, hdist₁, hKF', hKF₀, hKFle, hroom₁⟩ :=
    @exists_handOver elect.kolDist (elect.kolCands.drop (cfg.int .kolSize).toNat) 0 _ _
      (fun node hnode => hrowed.kolCands node (List.mem_of_mem_drop hnode))
      (by have := hfits.kolCands; rw [List.length_drop]; omega) hKC hKF (by omega)
      (hfits.kolDist.mono (by omega)) le_rfl
  obtain ⟨kolDist₂, hdist₂⟩ := @exists_distribute kolDist₁ elect.kols rKF
    (fun node hnode => mem_distribute hdist₁ (hrowed.kols node hnode)) hKF₀ (by omega) hfits.kols
    (hroom₁.mono (by omega))
  have hVF' : orAdd (!elect.kols.isEmpty) (reward / 100 * n₀) rKF = _ :=
    orAdd_eq_some hVF hKF₀ (by omega)
  generalize hrVF : (reward / 100 * n₀ + if (!elect.kols.isEmpty) = true then 0 else rKF) = rVF
    at hVF'
  have hVFle : 0 ≤ rVF ∧ rVF ≤ reward / 100 * n₀ + rKF := by
    rw [← hrVF]
    split <;> omega
  obtain ⟨done₃, valDist₁, rVF', hdist₃, hVF'', hVF₀, hVFle', hroom₃⟩ :=
    @exists_handOver elect.valDist (elect.valCands.drop (cfg.int .validatorSize).toNat)
      (reward % 100) _ _ (fun node hnode => hrowed.valCands node (List.mem_of_mem_drop hnode))
      (by have := hfits.valCands; rw [List.length_drop]; omega) hVC hVFle.1 (by omega)
      (hfits.valDist.mono (by omega)) hleft
  obtain ⟨valDist₂, hdist₄⟩ := @exists_distribute valDist₁ elect.validators rVF'
    (fun node hnode => mem_distribute hdist₃ (hrowed.validators node hnode)) hVF₀ (by omega)
    hfits.validators (hroom₃.mono (by omega))
  obtain ⟨valDist, hcredit⟩ := @exists_credit valDist₂ topOne.address (reward % 100)
    (mem_distribute hdist₄ (mem_distribute hdist₃ (hrowed.validators topOne (by simp [htop]))))
    hleft (by
      refine Dists.Room.grown ?_ (grown_distribute hdist₄)
      split <;> exact hroom₃.mono (by omega))
  have hdiv : int64Div reward 100 = some (reward / 100) :=
    int64Div_eq_some hreward.le hlt (by norm_num) (by norm_num)
  have hmod : int64Mod reward 100 = some (reward % 100) :=
    int64Mod_eq_some hreward.le hlt (by norm_num) (by norm_num)
  have hhead : elect.validators.head? = some topOne := by rw [htop, List.head?_cons]
  refine ⟨(valDist, kolDist₂), ?_⟩
  simp only [calculate, hshare, hdiv, hmod, Option.bind_eq_bind, Option.bind_some,
    shareOf_eq_some hcenti hcenti' (by omega : n₀ ≤ 100),
    shareOf_eq_some hcenti hcenti' (by omega : n₁ ≤ 100),
    shareOf_eq_some hcenti hcenti' (by omega : n₂ ≤ 100),
    shareOf_eq_some hcenti hcenti' (by omega : n₃ ≤ 100), hdist₁, hKF', hdist₂, hVF', hdist₃,
    hVF'', hdist₄, hhead, hcredit]

/-- **A distribution is exact.**  When a reward is distributed, the rewards recorded for the two
roles grow by it and nothing else in the rows changes.  It is distributed if the numbers fit into
64 bits. -/
theorem calculate_exact {cfg : Config} {elect : Elect} {reward : ℤ} {n₀ n₁ n₂ n₃ : ℕ}
    (hreward : 0 < reward) (hshare : cfg .rewardAllocationShare = .share n₀ n₁ n₂ n₃)
    (hsum : n₀ + n₁ + n₂ + n₃ = 100) (hvalidators : elect.validators ≠ [])
    (hrowed : elect.Rowed) :
    (∀ valDist kolDist, calculate cfg elect reward = some (valDist, kolDist) →
        ∃ valAmount kolAmount, Dists.Grown valAmount elect.valDist valDist ∧
          Dists.Grown kolAmount elect.kolDist kolDist ∧ valAmount + kolAmount = reward) ∧
      (elect.Fits reward → ∃ dists, calculate cfg elect reward = some dists) := by
  refine ⟨fun valDist kolDist hcalc => grown_calculate ?_ hcalc,
    exists_calculate hreward hshare hsum hvalidators hrowed⟩
  rw [hshare]
  exact exact_of_sum hsum

/-- Two validators and nobody else, with 10 coins to their credit. -/
def sampleElect : Elect :=
  { valDist := ((∅ : Dists).insert [3] ⟨10, [3], 0⟩).insert [4] ⟨0, [4], 0⟩
    valCands := [⟨[3], 7, some [3]⟩, ⟨[4], 5, some [4]⟩]
    validators := [⟨[3], 7, some [3]⟩, ⟨[4], 5, some [4]⟩] }

theorem rowed_sampleElect : sampleElect.Rowed where
  validators := by decide
  valCands := by decide
  kols := nofun
  kolCands := nofun

theorem room_sampleElect : Dists.Room 205 sampleElect.valDist := by
  refine forall_lookup_insert (forall_lookup_insert ?_ ?_) ?_
  · exact fun _ _ h => by cases h
  · decide
  · decide

/-- All of 205 coins go to the validators, whose rewards are 215 then. -/
theorem calculate_exact_sample : ∃ valDist kolDist,
    calculate (initialConfig [9]) sampleElect 205 = some (valDist, kolDist) ∧
      Dists.rewards valDist + Dists.rewards kolDist = 215 := by
  have hexact := @calculate_exact (initialConfig [9]) sampleElect 205 50 10 35 5 (by decide)
    (by norm_num [initialConfig]) rfl (List.cons_ne_nil _ _) rowed_sampleElect
  have hfits : sampleElect.Fits 205 :=
    ⟨by decide, room_sampleElect, (fun _ _ h => by cases h), by decide, by decide, by decide,
      by decide⟩
  obtain ⟨⟨valDist, kolDist⟩, hcalc⟩ := hexact.2 hfits
  obtain ⟨valAmount, kolAmount, hval, hkol, hsum⟩ := hexact.1 valDist kolDist hcalc
  refine ⟨valDist, kolDist, hcalc, ?_⟩
  rw [hval.sum, hkol.sum, show Dists.rewards sampleElect.valDist = 10 from rfl,
    show Dists.rewards sampleElect.kolDist = 0 from rfl]
  omega

end CegChain.Dpos
