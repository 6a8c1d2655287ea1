import CegChain.Contract.Dpos
import CegChain.Lib.Runs

/-!
# Rules for the calls of the contract

What can be told of a call from its having succeeded: the assertions held, the arithmetic did
not overflow, and the payments were made one after the other.  A payment either does nothing or
runs the account that is paid (`transferCoin_cases`), and what every payment keeps is kept by
`award` and `extract`.
-/

namespace CegChain.Dpos

open Layers

variable {host : Host} {receive : Receive} {msg : Msg} {s s₁ : Run} {w : World}

/-! ## Results -/

theorem assert_eq_some {p : Prop} [Decidable p] {u : Unit} : assert p = some u ↔ p := by
  unfold assert
  split
  · rename_i hp
    exact iff_of_true rfl hp
  · rename_i hp
    exact iff_of_false (by simp) hp

/-- What was computed before a result. -/
theorem of_bind {α β : Type} {x : Option α} {f : α → Option β} {b : β}
    (h : (x >>= f) = some b) : ∃ a, x = some a ∧ f a = some b :=
  Option.bind_eq_some_iff.mp h

/-- What was asserted before a result. -/
theorem of_assert {β : Type} {p : Prop} [Decidable p] {f : Unit → Option β} {b : β}
    (h : (assert p >>= f) = some b) : p ∧ f () = some b := by
  obtain ⟨u, hp, h⟩ := of_bind h
  exact ⟨assert_eq_some.mp hp, h⟩

theorem of_int64 {f : ℤ → ℤ → ℤ} {a b r : ℤ} (h : int64 f a b = some r) : r = f a b := by
  unfold int64 at h
  split at h
  · exact (Option.some.inj h).symm
  · cases h

/-- The arguments were in range. -/
theorem lt_of_int64 {f : ℤ → ℤ → ℤ} {a b r : ℤ} (h : int64 f a b = some r) :
    a < 2 ^ 63 ∧ b < 2 ^ 63 := by
  unfold int64 at h
  split at h
  · rename_i hrange
    simp only [isInt64, Bool.and_eq_true, decide_eq_true_eq] at hrange
    exact ⟨hrange.1.2, hrange.2.1.2⟩
  · cases h

theorem of_int64Add {a b r : ℤ} (h : int64Add a b = some r) : r = a + b :=
  of_int64 h

theorem of_int64Sub {a b r : ℤ} (h : int64Sub a b = some r) : r = a - b :=
  of_int64 h

theorem of_int64Mul {a b r : ℤ} (h : int64Mul a b = some r) : r = a * b :=
  of_int64 h

theorem of_int64Div {a b r : ℤ} (h : int64Div a b = some r) : 0 < b ∧ 0 ≤ a ∧ r = a / b := by
  unfold int64Div at h
  split at h
  · rename_i hle
    exact ⟨hle.1, hle.2, of_int64 h⟩
  · cases h

theorem of_int64Mod {a b r : ℤ} (h : int64Mod a b = some r) : 0 < b ∧ 0 ≤ a ∧ r = a % b := by
  unfold int64Mod at h
  split at h
  · rename_i hle
    exact ⟨hle.1, hle.2, of_int64 h⟩
  · cases h

/-! ## Payments -/

/-- What `JSON.parse` gives for the text under `all_stake`. -/
def Storage.loadedStake (st : Storage) : Json :=
  if st.stakeWriter = .minusStake then .number (Doubles.toDouble st.stake)
  else .string (String64.toBytes st.stake)

theorem jsonParse_stakeText (st : Storage) : jsonParse st.stakeText = some st.loadedStake := by
  unfold Storage.stakeText Storage.loadedStake
  split
  · exact jsonParse_digits st.stake
  · exact jsonParse_quoted st.stake

/-- What `prepare` does: the coins that come with the call are counted. -/
theorem prepare_cases (hprepare : prepare msg w = some s) :
    ∃ read, w.storage.loadedStake.amount = some read ∧
      ((0 < msg.coinAmount ∧
          s = { world := w.store fun st =>
                  { st with stake := read + msg.coinAmount, stakeWriter := .prepare }
                cfg := w.storage.config
                loaded := w.storage.loadedStake
                allStake := read + msg.coinAmount }) ∨
        (msg.coinAmount = 0 ∧
          s = { world := w
                cfg := w.storage.config
                loaded := w.storage.loadedStake
                allStake := read })) := by
  unfold prepare at hprepare
  obtain ⟨loaded, hloaded, hprepare⟩ := of_bind hprepare
  rw [jsonParse_stakeText] at hloaded
  obtain rfl := Option.some.inj hloaded
  obtain ⟨read, hread, hprepare⟩ := of_bind hprepare
  refine ⟨read, hread, ?_⟩
  split at hprepare
  · rename_i hcoins
    obtain ⟨allStake, hadd, hprepare⟩ := of_bind hprepare
    obtain rfl := Option.some.inj hprepare
    obtain rfl := of_int64Add hadd
    exact .inl ⟨hcoins, rfl⟩
  · rename_i hcoins
    obtain rfl := Option.some.inj hprepare
    exact .inr ⟨le_antisymm (not_lt.mp hcoins) msg.nonneg, rfl⟩

/-- The call has loaded what the metadata had when it began. -/
def Call.Reads (call : Call) : Prop :=
  call.loaded = call.before.loadedStake

theorem loaded_prepare (hprepare : prepare msg w = some s) :
    s.loaded = w.storage.loadedStake := by
  obtain ⟨read, -, ⟨-, rfl⟩ | ⟨-, rfl⟩⟩ := prepare_cases hprepare
  · rfl
  · rfl

/-- What `transferCoin` does: nothing, or the amount is taken off and the account that is paid
runs. -/
theorem transferCoin_cases {dest : Address} {amount : ℤ} {remark : Remark}
    (htransfer : transferCoin host receive dest amount remark s = some s₁) :
    (amount = 0 ∧ s₁ = s) ∨
      ∃ w, receive s.payments (World.mark (.paid (toCString dest) remark amount)
          { s.world.store fun st =>
              { st with stake := s.allStake - amount, stakeWriter := .minusStake } with
            balance := s.world.balance - amount }) = some w ∧
        0 ≤ amount ∧ amount + host.baseReserve ≤ s.world.balance ∧
        s₁ = { s with
          world := w, allStake := s.allStake - amount, payments := s.payments + 1 } := by
  unfold transferCoin at htransfer
  split at htransfer
  · rename_i hzero
    exact .inl ⟨hzero, (Option.some.inj htransfer).symm⟩
  · obtain ⟨s₂, hminus, hpay⟩ := Option.bind_eq_some_iff.mp htransfer
    obtain ⟨allStake, hstake, hminus⟩ := of_bind hminus
    obtain rfl := Option.some.inj hminus
    obtain rfl := of_int64Sub hstake
    obtain ⟨⟨hnonneg, hreserve⟩, hpay⟩ := of_assert hpay
    obtain ⟨w, hw, hpay⟩ := of_bind hpay
    obtain rfl := Option.some.inj hpay
    exact .inr ⟨w, hw, hnonneg, hreserve, rfl⟩

section Invariant

variable {p : Run → Prop}
  (htransfer : ∀ {dest : Address} {amount : ℤ} {remark : Remark} {s s₁ : Run},
    transferCoin host receive dest amount remark s = some s₁ → p s → p s₁)

include htransfer

theorem payPayee_invariant {payee : Payee} {amount : ℤ}
    (hpay : payPayee host receive payee amount s = some s₁) (hs : p s) : p s₁ :=
  htransfer (of_assert hpay).2 hs

theorem payAward_invariant {payee : Payee} {entry : Dist}
    (hpay : payAward host receive payee entry s = some s₁) (hs : p s) : p s₁ := by
  unfold payAward at hpay
  split at hpay
  · exact payPayee_invariant htransfer hpay hs
  · split at hpay
    · exact htransfer hpay hs
    · obtain ⟨onePercent, -, hpay⟩ := of_bind hpay
      obtain ⟨dividend, -, hpay⟩ := of_bind hpay
      obtain ⟨s₂, hfirst, hpay⟩ := of_bind hpay
      obtain ⟨reserve, -, hsecond⟩ := of_bind hpay
      exact payPayee_invariant htransfer hsecond (htransfer hfirst hs)

variable (hset : ∀ {s : Run} (role : Role) (address : Address) (entry : Dist), p s →
    p (s.setDist role ((s.dist role).insert address { entry with reward := 0 })) ∧
      p (s.setDist role
        (((s.dist role).insert address { entry with reward := 0 }).erase address)))

include hset

theorem award_invariant {role : Role} {payee : Payee}
    (haward : award host receive role payee s = some s₁) (hs : p s) : p s₁ := by
  unfold award at haward
  split at haward
  · obtain rfl := Option.some.inj haward
    exact hs
  · rename_i entry hlookup
    obtain ⟨s₂, hpay, haward⟩ := of_bind haward
    have hs₂ := payAward_invariant htransfer hpay hs
    dsimp only at haward
    split at haward
    · obtain rfl := Option.some.inj haward
      exact (hset role payee.name entry hs₂).1
    · obtain rfl := Option.some.inj haward
      exact (hset role payee.name entry hs₂).2

/-- What the distribution leaves true and every payment keeps is true after `extract`. -/
theorem extract_invariant {list : Option (List Payee)}
    (hextract : extract host receive msg list s = some s₁)
    (hstart : ∀ {s₂ : Run}, rewardDistribution (electInit s) = some s₂ → p s₂) : p s₁ := by
  have hboth : ∀ {s s₁ : Run} {payee : Payee}, p s →
      (award host receive .validator payee s).bind (award host receive .kol payee) =
        some s₁ → p s₁ := by
    intro s s₁ payee hs haward
    obtain ⟨s₂, hfirst, hsecond⟩ := Option.bind_eq_some_iff.mp haward
    exact award_invariant htransfer hset hsecond (award_invariant htransfer hset hfirst hs)
  obtain ⟨s₂, hdist, hextract⟩ := of_bind hextract
  dsimp only at hextract
  split at hextract
  · exact hboth (hstart hdist) hextract
  · obtain ⟨-, hextract⟩ := of_assert hextract
    exact Runs.foldlM_invariant hboth (hstart hdist) hextract

end Invariant

end CegChain.Dpos
