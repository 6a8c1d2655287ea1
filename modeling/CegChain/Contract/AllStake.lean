import CegChain.Contract.Approval

/-!
# What is stored of the stakes

`all_stake` is written in two ways.  `saveObj` writes the amount, which is a string, with its
quotes, and `JSON.parse` gives the string back.  `minusStake` hands the string to `Chain.store`,
so that the digits are stored alone, and `JSON.parse` makes a number of them, the nearest double.

So what `prepare` loads is what has been written if it was written by `saveObj`, or if it is a
double, that is, at most `2 ^ 53` times a power of two (`preparesWritten_iff`).  The log has what
each call has loaded, whether it was made from outside or by an account that was being paid, and
that is what `prepare` makes of the metadata from which the call started (`reads_states`).
-/

namespace CegChain.Dpos

open String64 Doubles

variable {host : Host} {msg : Msg} {s s₁ : Run} {w : World}

/-! ## What the writers store -/

/-- The text is the amount with its quotes. -/
def quoted (n : ℤ) : Bytes :=
  34 :: (toBytes n ++ [34])

/-- The metadata have `elect.allStake` as the amount last written, and as this text. -/
def Run.Stores (text : ℤ → Bytes) (s : Run) : Prop :=
  s.world.storage.stake = s.allStake ∧ s.world.storage.stakeText = text s.allStake

/-- What each of the functions that write `all_stake` stores. -/
structure StakeWritten (host : Host) : Prop where
  initialization : ∀ {msg logicContract committee validators balance w},
    initialization host msg logicContract committee validators balance = some w →
      w.storage.stake = msg.coinAmount ∧ w.storage.stakeText = quoted msg.coinAmount
  prepare : ∀ {msg w s}, prepare msg w = some s → 0 < msg.coinAmount → s.Stores quoted
  rewardDistribution : ∀ {s s₁}, rewardDistribution s = some s₁ → s₁ = s ∨ s₁.Stores quoted
  minusStake : ∀ {amount s s₁}, minusStake amount s = some s₁ → s₁.Stores toBytes

theorem stores_rewardDistribution (hdist : rewardDistribution s = some s₁) :
    s₁ = s ∨ s₁.Stores quoted := by
  unfold rewardDistribution at hdist
  obtain ⟨reward, -, hdist⟩ := of_bind hdist
  split at hdist
  · obtain rfl := Option.some.inj hdist
    exact .inl rfl
  · obtain ⟨dists, -, hdist⟩ := of_bind hdist
    obtain rfl := Option.some.inj hdist
    exact .inr ⟨rfl, rfl⟩

/-- Only `minusStake` leaves the quotes out. -/
theorem stakeWritten (host : Host) : StakeWritten host where
  initialization hinit := by
    obtain ⟨-, hinit⟩ := of_assert hinit
    obtain ⟨-, hinit⟩ := of_assert hinit
    obtain rfl := Option.some.inj hinit
    exact ⟨rfl, rfl⟩
  prepare hprepare hcoins := by
    obtain ⟨read, -, ⟨-, rfl⟩ | ⟨hnone, -⟩⟩ := prepare_cases hprepare
    · exact ⟨rfl, rfl⟩
    · exact absurd hnone hcoins.ne'
  rewardDistribution := stores_rewardDistribution
  minusStake hminus := by
    obtain ⟨allStake, -, hminus⟩ := of_bind hminus
    obtain rfl := Option.some.inj hminus
    exact ⟨rfl, rfl⟩

/-! ## What `prepare` loads -/

/-- `prepare` of a call that finds these metadata succeeds if no coins have to be counted, and
whenever it succeeds, it has loaded the amount that was written last. -/
def Storage.PreparesWritten (st : Storage) : Prop :=
  ∀ w : World, w.storage = st →
    (∀ msg : Msg, msg.coinAmount = 0 → ∃ s, prepare msg w = some s) ∧
      ∀ msg s, prepare msg w = some s → s.loaded.Denotes st.stake

/-- The amount was written by `saveObj`, or it is a double. -/
def Storage.StakeKept (st : Storage) : Prop :=
  st.stakeWriter = .minusStake → IsDouble st.stake

theorem denotes_loadedStake (st : Storage) : st.loadedStake.Denotes st.stake ↔ st.StakeKept := by
  unfold Storage.loadedStake Storage.StakeKept
  split
  · rename_i hwriter
    rw [isDouble_iff, ← toDouble_eq_self_iff]
    exact ⟨fun hself _ => hself, fun hkept => hkept hwriter⟩
  · rename_i hwriter
    exact iff_of_true rfl fun heq => absurd heq hwriter

/-- A string is read as an integer, and so is the double that is nearest to one. -/
theorem exists_amount_loadedStake (st : Storage) : ∃ read, st.loadedStake.amount = some read := by
  unfold Storage.loadedStake
  split
  · obtain ⟨k, hk⟩ := exists_toDouble_eq st.stake
    refine ⟨Number.print k, ?_⟩
    rw [hk, Json.amount, Number.int?, if_pos (Rat.den_intCast k), Rat.num_intCast]
  · exact ⟨_, integer_toBytes st.stake⟩

/-- A call without coins gets over `prepare`. -/
theorem exists_prepare (hcoins : msg.coinAmount = 0) (w : World) :
    ∃ s, prepare msg w = some s := by
  obtain ⟨read, hread⟩ := exists_amount_loadedStake w.storage
  refine ⟨⟨w, w.storage.config, w.storage.loadedStake, read, {}, false, 0⟩, ?_⟩
  simp [prepare, jsonParse_stakeText, hread, hcoins]

theorem preparesWritten_iff (st : Storage) : st.PreparesWritten ↔ st.StakeKept := by
  rw [← denotes_loadedStake]
  constructor
  · intro hprepares
    -- a message without coins shows what is loaded
    obtain ⟨hsucceeds, hloads⟩ := hprepares ⟨st, 0, [], [], [], []⟩ rfl
    obtain ⟨s, hprepare⟩ := hsucceeds (plainMsg [] 0) rfl
    have hdenotes := hloads _ s hprepare
    rwa [loaded_prepare hprepare] at hdenotes
  · rintro hdenotes w rfl
    refine ⟨fun msg hcoins => exists_prepare hcoins w, fun msg s hprepare => ?_⟩
    rw [loaded_prepare hprepare]
    exact hdenotes

/-! ## Histories -/

/-- The log of a history has what the calls have read. -/
theorem reads_states (hnone : w.calls = []) (steps : List Step) :
    ∀ w' ∈ states host w steps, ∀ call ∈ w'.calls, call.Reads := by
  intro w' hmem
  refine (advances_states steps w w' hmem).reads ?_
  rw [hnone]
  exact List.forall_mem_nil _

/-- The stake survives: every call that has been made has loaded what was written last before
it, and so will the next one. -/
structure World.StakeSurvives (w : World) : Prop where
  made : ∀ call ∈ w.calls, call.loaded.Denotes call.before.stake
  next : w.storage.PreparesWritten

/-- What every call that has been made found, and what the next one finds, was written by
`saveObj` or is a double. -/
structure World.StakesKept (w : World) : Prop where
  made : ∀ call ∈ w.calls, call.before.StakeKept
  next : w.storage.StakeKept

/-- **What survives storage.**  Each writer stores `elect.allStake`, and in every history what
`prepare` loads in every call that is made, also while a payment is under way, and in the call
that comes next, is the amount that was written last, just if all that is found there was
written by `saveObj` or is a double. -/
theorem survives_iff (host : Host) (hnone : w.calls = []) (steps : List Step) :
    StakeWritten host ∧
      ((∀ w' ∈ states host w steps, w'.StakeSurvives) ↔
        ∀ w' ∈ states host w steps, w'.StakesKept) := by
  refine ⟨stakeWritten host, forall₂_congr fun w' hmem => ?_⟩
  have hmade : ∀ call ∈ w'.calls,
      call.loaded.Denotes call.before.stake ↔ call.before.StakeKept := by
    intro call hcall
    rw [reads_states hnone steps w' hmem call hcall, denotes_loadedStake]
  constructor
  · rintro ⟨hloaded, hnext⟩
    exact ⟨fun call hcall => (hmade call hcall).mp (hloaded call hcall),
      (preparesWritten_iff _).mp hnext⟩
  · rintro ⟨hkept, hnext⟩
    exact ⟨fun call hcall => (hmade call hcall).mpr (hkept call hcall),
      (preparesWritten_iff _).mpr hnext⟩

/-- `[5]` applies and withdraws, and is paid back; then the validator asks for its rewards. -/
def refundHistory : List Step :=
  [coinCall [5] 300000000000000 1 (.apply .kol none none none),
    plainCall [5] 2 (.withdraw .kol), plainCall [3] 3 (.extract none)]

/-- The digits that are stored when `[5]` is paid back are those of a double. -/
theorem survives_refund :
    (∀ w ∈ states sampleHost (sampleWorld [([3], 0)]) refundHistory, w.StakeSurvives) ∧
      ∃ w ∈ states sampleHost (sampleWorld [([3], 0)]) refundHistory, ∃ call ∈ w.calls,
        call.before.stakeWriter = .minusStake := by
  constructor
  · refine (survives_iff sampleHost rfl refundHistory).2.mpr fun w hmem => ?_
    have hsmall : ∀ w ∈ states sampleHost (sampleWorld [([3], 0)]) refundHistory,
        w.storage.stake.natAbs ≤ 2 ^ 53 ∧ ∀ call ∈ w.calls, call.before.stake.natAbs ≤ 2 ^ 53 := by
      decide +kernel
    have hdouble : ∀ st : Storage, st.stake.natAbs ≤ 2 ^ 53 → st.StakeKept :=
      fun st hst _ => ⟨st.stake, 0, hst, by simp⟩
    obtain ⟨hnext, hmade⟩ := hsmall w hmem
    exact ⟨fun call hcall => hdouble _ (hmade call hcall), hdouble _ hnext⟩
  · decide +kernel

/-- The contract has `2 ^ 53 + 1` coins. -/
def oddWorld : World :=
  (initialization sampleHost ⟨[1], 9007199254740993, 0, by decide, by decide⟩ [9] [[1], [2]]
    [([3], 0)] 0).getD (sampleWorld [])

/-- The last call loads `2 ^ 53`. -/
theorem stake_lost : ∃ w ∈ states sampleHost oddWorld refundHistory, ¬ w.StakeSurvives := by
  have hfound : ∃ w ∈ states sampleHost oddWorld refundHistory, ∃ call ∈ w.calls,
      call.before.stakeWriter = .minusStake ∧ call.before.stake = 9007199254740993 := by
    decide +kernel
  obtain ⟨w, hw, call, hcall, hwriter, hstake⟩ := hfound
  refine ⟨w, hw, fun hsurvives => ?_⟩
  have hloaded := hsurvives.made call hcall
  rw [reads_states rfl refundHistory w hw call hcall, denotes_loadedStake] at hloaded
  have hdouble := hloaded hwriter
  rw [hstake, isDouble_iff] at hdouble
  exact absurd hdouble (by decide +kernel)

end CegChain.Dpos
