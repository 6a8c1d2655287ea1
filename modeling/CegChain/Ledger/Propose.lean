import CegChain.Ledger.SameRoot
import Mathlib.Data.Finset.Sort

/-!
# Proposing and checking a block

`GlueManager::StartConsensus` runs `ApplyPropose` on the raw transactions, leaves
out those that were dropped and attaches the ids of those that expired or failed.
What it proposes passes `ApplyCheck` on the same ledger, and both end with the same
accounts, settings and fees (`applyCheck_proposedValue`).

The two loops run in lockstep: a transaction that is dropped is read and never
charged, which `SameRoot` does not notice, and one that is kept is charged and
applied on both sides.  The ids of the proposal count the kept transactions, so
the loop of `ApplyCheck` notes the same ids.
-/

namespace CegChain

open Layers AtomMap

/-- `LedgerFrm::SetValidationToProto`. -/
def LedgerFrm.setValidationToProto (expireTxs errorTxs : Finset ℤ) : ConsensusValueValidation :=
  ⟨expireTxs.sort (· ≤ ·), errorTxs.sort (· ≤ ·)⟩

namespace GlueManager

/-- The transactions of the raw set that are not in `need_dropped_tx_`, from index
`i` on. -/
def keepTxs (dropped : Finset ℤ) : ℕ → List TransactionEnv → List TransactionEnv
  | _, [] => []
  | i, env :: txs =>
      if (i : ℤ) ∈ dropped then keepTxs dropped (i + 1) txs
      else env :: keepTxs dropped (i + 1) txs

/-- The value that `StartConsensus` proposes after `ApplyPropose`. -/
def proposedValue (proposeValue : ConsensusValue) (ids : LedgerFrm.TxIds) : ConsensusValue :=
  { proposeValue with
    txset := keepTxs ids.dropped 0 proposeValue.txset
    validation :=
      if ids.error.card > 0 ∨ ids.expire.card > 0 then
        some (LedgerFrm.setValidationToProto ids.expire ids.error)
      else proposeValue.validation }

end GlueManager

namespace LedgerFrm

variable {lib : Library} {lcl : Closed} {rt : Runtime}

/-! ## The ids -/

/-- Ids in range that are listed once are accepted. -/
theorem checkTxIds_of_nodup {txSize : ℕ} {tids seen : List ℤ} (hnodup : (tids ++ seen).Nodup)
    (hrange : ∀ tid ∈ tids, 0 ≤ tid ∧ tid < txSize) :
    checkTxIds txSize tids seen = some (tids.reverse ++ seen) := by
  induction tids generalizing seen with
  | nil => rfl
  | cons tid tids ih =>
      obtain ⟨hfresh, hrest⟩ := List.nodup_cons.mp hnodup
      obtain ⟨hpos, hlt⟩ := hrange tid (List.mem_cons_self ..)
      have hseen : tid ∉ seen := fun hmem => hfresh (List.mem_append_right _ hmem)
      have hvalid : ¬ (tid ≥ txSize ∨ tid < 0 ∨ tid ∈ seen) := by
        rintro (hge | hneg | hmem)
        · omega
        · omega
        · exact hseen hmem
      rw [checkTxIds, if_neg hvalid, ih]
      · rw [List.reverse_cons, List.append_assoc]
        rfl
      · rw [List.nodup_middle, List.nodup_cons]
        exact ⟨hfresh, hrest⟩
      · exact fun other hmem => hrange other (List.mem_cons_of_mem _ hmem)

/-- The ids noted so far belong to the transactions kept so far. -/
structure TxIds.Below (ids : TxIds) (kept : ℤ) : Prop where
  expire : ∀ id ∈ ids.expire, 0 ≤ id ∧ id < kept
  error : ∀ id ∈ ids.error, 0 ≤ id ∧ id < kept
  disjoint : Disjoint ids.expire ids.error

theorem TxIds.below_empty : ({} : TxIds).Below 0 :=
  ⟨by simp, by simp, by simp⟩

theorem TxIds.Below.note {ids : TxIds} {kept : ℤ} (hids : ids.Below kept) (hkept : 0 ≤ kept)
    (status : TxStatus) : (ids.note kept status).Below (kept + 1) := by
  have hlt : ∀ id, 0 ≤ id ∧ id < kept → 0 ≤ id ∧ id < kept + 1 := fun id hid => by omega
  have hexpire : kept ∉ ids.expire := fun hmem => by have := hids.expire kept hmem; omega
  have herror : kept ∉ ids.error := fun hmem => by have := hids.error kept hmem; omega
  cases status with
  | succeeded =>
      exact ⟨fun id hmem => hlt id (hids.expire id hmem),
        fun id hmem => hlt id (hids.error id hmem),
        hids.disjoint⟩
  | failed =>
      refine ⟨fun id hmem => hlt id (hids.expire id hmem), fun id hmem => ?_, ?_⟩
      · rcases Finset.mem_insert.mp hmem with rfl | hmem
        · omega
        · exact hlt id (hids.error id hmem)
      · exact Finset.disjoint_insert_right.mpr ⟨hexpire, hids.disjoint⟩
  | expired =>
      refine ⟨fun id hmem => ?_, fun id hmem => hlt id (hids.error id hmem), ?_⟩
      · rcases Finset.mem_insert.mp hmem with rfl | hmem
        · omega
        · exact hlt id (hids.expire id hmem)
      · exact Finset.disjoint_insert_left.mpr ⟨herror, hids.disjoint⟩

/-- The ids of a proposal pass the check of the value and are the ids compared
with. -/
theorem checkConsValueValidation_proposedValue {proposeValue : ConsensusValue} {ids : TxIds}
    (hnone : proposeValue.validation = none)
    (hids : ids.Below (GlueManager.keepTxs ids.dropped 0 proposeValue.txset).length) :
    checkConsValueValidation (GlueManager.proposedValue proposeValue ids) =
      some (ids.expire, ids.error) := by
  unfold checkConsValueValidation GlueManager.proposedValue
  dsimp only
  split_ifs with hsize
  · have hexpire : checkTxIds (GlueManager.keepTxs ids.dropped 0 proposeValue.txset).length
        (ids.expire.sort (· ≤ ·)) [] = some ((ids.expire.sort (· ≤ ·)).reverse ++ []) := by
      refine checkTxIds_of_nodup ?_ fun id hmem => hids.expire id ((Finset.mem_sort _).mp hmem)
      rw [List.append_nil]
      exact Finset.sort_nodup ..
    have herror : checkTxIds (GlueManager.keepTxs ids.dropped 0 proposeValue.txset).length
        (ids.error.sort (· ≤ ·)) ((ids.expire.sort (· ≤ ·)).reverse ++ []) =
          some ((ids.error.sort (· ≤ ·)).reverse ++ ((ids.expire.sort (· ≤ ·)).reverse ++ [])) := by
      refine checkTxIds_of_nodup ?_ fun id hmem => hids.error id ((Finset.mem_sort _).mp hmem)
      rw [List.append_nil, List.nodup_append]
      refine ⟨Finset.sort_nodup .., List.nodup_reverse.mpr (Finset.sort_nodup ..), ?_⟩
      rintro id hmem other hother rfl
      rw [List.mem_reverse, Finset.mem_sort] at hother
      rw [Finset.mem_sort] at hmem
      exact Finset.disjoint_left.mp hids.disjoint hother hmem
    simp only [setValidationToProto, hexpire, herror, Option.bind_some, Option.map_some,
      Finset.sort_toFinset]
  · obtain ⟨herror, hexpire⟩ : ids.error = ∅ ∧ ids.expire = ∅ := by
      simpa [not_or] using hsize
    rw [hnone, herror, hexpire]

/-! ## The loops -/

variable {i : ℕ} {txs : List TransactionEnv} {ids ids' : TxIds} {c c' d : LedgerContext}
  {env : TransactionEnv}

/-- A transaction that passed the check and cannot pay has only been read: the
check has done the subtraction that comes after the total is written. -/
theorem sameRoot_payFee_false {c₁ c₂ : LedgerContext} (hroot : SameRoot lcl c d)
    (hvalid : TransactionFrm.validForApply lib lcl env 0 c = (.success, c₁))
    (hpay : TransactionFrm.payFee lcl env 0 c₁ = (false, c₂)) : SameRoot lcl c₂ d := by
  obtain ⟨account, hget, -, hfee⟩ := TransactionFrm.validForApply_success hvalid
  have hroot₁ := hroot.read_left env.transaction.sourceAddress
  rw [hget] at hroot₁
  have hroot₂ := hroot₁.read_left env.transaction.sourceAddress
  unfold TransactionFrm.payFee at hpay
  rcases hget' : c₁.getEntry lcl 0 env.transaction.sourceAddress with ⟨found, c₁'⟩
  obtain ⟨rfl, -⟩ := LedgerContext.deref_of_getEntry (LedgerContext.length_tables hroot₁.wide 0)
    (LedgerContext.deref_getEntry hget) hget'
  rw [hget'] at hpay hroot₂
  dsimp only at hpay
  split at hpay
  · obtain ⟨-, rfl⟩ := Prod.mk.inj hpay
    exact hroot₂
  · split at hpay
    · rename_i hsub
      dsimp only [TransactionFrm.checkFee] at hfee
      rw [hsub] at hfee
      cases hfee
    · simp at hpay

/-- What the loop of `ApplyPropose` does with a transaction: it is charged and
applied, or it is dropped and nothing is left of it. -/
theorem proposeLoop_cons (henabled : ∀ i, rt.enabled i = true) (htime : ∀ i, rt.timedOut i = false)
    (hloop : proposeLoop lib lcl rt i (env :: txs) ids c = (some ids', c')) :
    (∃ c₁ c₂, TransactionFrm.validForApply lib lcl env 0 c = (.success, c₁) ∧
      TransactionFrm.payFee lcl env 0 c₁ = (true, c₂) ∧
      proposeLoop lib lcl rt (i + 1) txs
        (ids.note (i - ids.dropped.card) (applyCharged lib lcl rt env c₂).1)
        (applyCharged lib lcl rt env c₂).2 = (some ids', c')) ∨
    ∃ c₁, (∀ {d}, SameRoot lcl c d → SameRoot lcl c₁ d) ∧
      proposeLoop lib lcl rt (i + 1) txs
        { ids with dropped := insert (i : ℤ) ids.dropped } c₁ = (some ids', c') := by
  unfold proposeLoop at hloop
  rw [henabled, if_neg (by decide)] at hloop
  split at hloop
  · rename_i c₁ hvalid
    split at hloop
    · rename_i c₂ hpay
      dsimp only at hloop
      rw [htime, if_neg (by decide)] at hloop
      exact .inl ⟨c₁, c₂, hvalid, hpay, hloop⟩
    · rename_i c₂ hpay
      exact .inr ⟨c₂, fun hroot => sameRoot_payFee_false hroot hvalid hpay, hloop⟩
  · rename_i c₁ _ hvalid
    refine .inr ⟨c₁, fun hroot => ?_, hloop⟩
    have hchecked := TransactionFrm.sameRoot_validForApply hroot lib env
    rwa [hvalid] at hchecked

theorem TxIds.dropped_note (ids : TxIds) (id : ℤ) (status : TxStatus) :
    (ids.note id status).dropped = ids.dropped := by
  cases status <;> rfl

/-- The transactions dropped from here on are not among those before. -/
theorem dropped_proposeLoop (henabled : ∀ i, rt.enabled i = true)
    (htime : ∀ i, rt.timedOut i = false)
    (hloop : proposeLoop lib lcl rt i txs ids c = (some ids', c')) (id : ℤ) :
    (id ∈ ids.dropped → id ∈ ids'.dropped) ∧
      (id ∈ ids'.dropped → id ∈ ids.dropped ∨ (i : ℤ) ≤ id) := by
  induction txs generalizing i ids c with
  | nil =>
      obtain ⟨hids, -⟩ := Prod.mk.inj hloop
      obtain rfl := Option.some.inj hids
      exact ⟨fun hmem => hmem, fun hmem => .inl hmem⟩
  | cons env txs ih =>
      rcases proposeLoop_cons henabled htime hloop with ⟨c₁, c₂, -, -, hrest⟩ | ⟨c₁, -, hrest⟩
      · obtain ⟨hkeep, hnew⟩ := ih hrest
        rw [TxIds.dropped_note] at hkeep hnew
        refine ⟨hkeep, fun hmem => ?_⟩
        rcases hnew hmem with hold | hge
        · exact .inl hold
        · exact .inr (by push_cast at hge; omega)
      · obtain ⟨hkeep, hnew⟩ := ih hrest
        refine ⟨fun hmem => hkeep (Finset.mem_insert_of_mem hmem), fun hmem => ?_⟩
        rcases hnew hmem with hold | hge
        · rcases Finset.mem_insert.mp hold with rfl | hold
          · exact .inr le_rfl
          · exact .inl hold
        · exact .inr (by push_cast at hge; omega)

/-- **The two loops.**  `ApplyCheck` runs through the transactions that
`ApplyPropose` kept and notes the same ids. -/
theorem checkLoop_of_proposeLoop (hdet : rt.Deterministic lcl)
    (henabled : ∀ i, rt.enabled i = true) (htime : ∀ i, rt.timedOut i = false)
    (hloop : proposeLoop lib lcl rt i txs ids c = (some ids', c')) (hroot : SameRoot lcl c d)
    {j : ℕ} (hj : j + ids.dropped.card = i) (hdropped : ∀ id ∈ ids.dropped, id < i)
    (hbelow : ids.Below j) (noted : TxIds) (hexpire : noted.expire = ids.expire)
    (herror : noted.error = ids.error) :
    ∃ noted' d', checkLoop lib lcl rt j (GlueManager.keepTxs ids'.dropped i txs) noted d =
        (some noted', d') ∧
      SameRoot lcl c' d' ∧ noted'.expire = ids'.expire ∧ noted'.error = ids'.error ∧
      ids'.Below (j + (GlueManager.keepTxs ids'.dropped i txs).length) := by
  induction txs generalizing i j ids c d noted with
  | nil =>
      obtain ⟨hids, rfl⟩ := Prod.mk.inj hloop
      obtain rfl := Option.some.inj hids
      refine ⟨noted, d, rfl, hroot, hexpire, herror, ?_⟩
      simpa [GlueManager.keepTxs] using hbelow
  | cons env txs ih =>
      rcases proposeLoop_cons henabled htime hloop with ⟨c₁, c₂, hvalid, hpay, hrest⟩ |
        ⟨c₁, hread, hrest⟩
      · -- kept: both sides charge and apply it
        have hkept : (i : ℤ) ∉ ids'.dropped := by
          intro hmem
          rcases (dropped_proposeLoop henabled htime hrest i).2 hmem with hold | hge
          · rw [TxIds.dropped_note] at hold
            exact lt_irrefl _ (hdropped i hold)
          · push_cast at hge
            omega
        obtain ⟨code, c₁', d₁, hc₁, hd₁, hroot₁⟩ :=
          (TransactionFrm.agree_validForApply_root hroot lib env).exists_eq
        obtain ⟨rfl, rfl⟩ := Prod.mk.inj (hvalid.symm.trans hc₁)
        obtain ⟨paid, c₂', d₂, hc₂, hd₂, hroot₂⟩ :=
          (TransactionFrm.agree_payFee_root hroot₁ env).exists_eq
        obtain ⟨rfl, rfl⟩ := Prod.mk.inj (hpay.symm.trans hc₂)
        obtain ⟨status, c₃, d₃, hc₃, hd₃, hsim₃⟩ := (agree_applyCharged hdet
          (similar_charge hroot₂ env) hroot₂.stack lib).exists_eq
        have hid : ((i : ℤ) - ids.dropped.card) = j := by omega
        rw [hc₃, hid] at hrest
        have hnoted : (noted.note j status).expire = (ids.note j status).expire ∧
            (noted.note j status).error = (ids.note j status).error := by
          cases status <;> simp [TxIds.note, hexpire, herror]
        obtain ⟨noted', d', hcheck, hend, hexpire', herror', hbelow'⟩ := ih (j := j + 1) hrest
          hsim₃.sameRoot (by rw [TxIds.dropped_note]; omega)
          (by
            rw [TxIds.dropped_note]
            intro id hmem
            have := hdropped id hmem
            push_cast
            omega)
          (by simpa using hbelow.note (by omega) status) _ hnoted.1 hnoted.2
        refine ⟨noted', d', ?_, hend, hexpire', herror', ?_⟩
        · rw [GlueManager.keepTxs, if_neg hkept, checkLoop, henabled, if_neg (by decide), hd₁]
          dsimp only
          rw [hd₂]
          dsimp only
          rw [hd₃, htime, if_neg (by decide)]
          exact hcheck
        · rw [GlueManager.keepTxs, if_neg hkept, List.length_cons]
          push_cast at hbelow' ⊢
          rwa [add_assoc, add_comm (1 : ℤ)] at hbelow'
      · -- dropped: only the proposer has seen it
        have hmem : (i : ℤ) ∈ ids'.dropped :=
          (dropped_proposeLoop henabled htime hrest i).1 (Finset.mem_insert_self ..)
        have hfresh : (i : ℤ) ∉ ids.dropped := fun hin => lt_irrefl _ (hdropped i hin)
        rw [GlueManager.keepTxs, if_pos hmem]
        refine ih hrest (hread hroot) ?_ ?_ ⟨hbelow.expire, hbelow.error, hbelow.disjoint⟩ noted
          hexpire herror
        · rw [Finset.card_insert_of_notMem hfresh]
          omega
        · intro id hin
          rcases Finset.mem_insert.mp hin with rfl | hin
          · push_cast
            omega
          · have := hdropped id hin
            push_cast
            omega

/-! ## The value that is proposed -/

theorem SameRoot.empty (lcl : Closed) : SameRoot lcl {} {} :=
  (Similar.rfl' le_rfl).sameRoot

/-- **Proposer and validator agree.**  What `StartConsensus` proposes after
`ApplyPropose` has succeeded is accepted by `ApplyCheck` on the same ledger, and
both end with the same accounts, settings and total fee. -/
theorem applyCheck_proposedValue (hdet : rt.Deterministic lcl)
    (henabled : ∀ i, rt.enabled i = true) (htime : ∀ i, rt.timedOut i = false)
    {request : ConsensusValue} (hpropose : (applyPropose lib lcl rt request).accepted = true) :
    let proposed := applyPropose lib lcl rt request
    let checked := applyCheck lib lcl rt (GlueManager.proposedValue request proposed.ids)
    checked.accepted = true ∧
      (∀ address, shown lcl checked.context.data address =
        shown lcl proposed.context.data address) ∧
      checked.context.rootSettings = proposed.context.rootSettings ∧
      checked.context.totalFee = proposed.context.totalFee := by
  dsimp only
  unfold applyPropose at hpropose ⊢
  split at hpropose
  · cases hpropose
  · rename_i hnone
    rw [not_not] at hnone
    rw [if_neg (not_not.mpr hnone)]
    rcases hloop : proposeLoop lib lcl rt 0 request.txset {} {} with ⟨_ | ids, c⟩
    · rw [hloop] at hpropose
      cases hpropose
    · rw [hloop] at hpropose
      dsimp only at hpropose ⊢
      obtain ⟨noted, d, hcheck, hroot, hexpire, herror, hbelow⟩ :=
        checkLoop_of_proposeLoop hdet henabled htime hloop (SameRoot.empty lcl) (j := 0) rfl
          (by simp) TxIds.below_empty {} rfl rfl
      rw [Nat.cast_zero, zero_add] at hbelow
      obtain ⟨rewarded, c₁, d₁, hc, hd, hend⟩ :=
        (agree_allocateReward hroot request.ledgerSeq).exists_eq
      have hcheck' : checkLoop lib lcl rt 0 (GlueManager.proposedValue request ids).txset {} {} =
          (some noted, d) := hcheck
      have hd' : allocateReward lcl (GlueManager.proposedValue request ids).ledgerSeq d =
          (rewarded, d₁) := hd
      have hcrashed : d₁.crashed = false := by
        rw [hc, Bool.not_eq_true'] at hpropose
        exact Bool.eq_false_iff.mpr fun htrue => by simp [hend.crashed htrue] at hpropose
      unfold applyCheck
      rw [checkConsValueValidation_proposedValue hnone hbelow]
      dsimp only
      rw [hcheck']
      dsimp only
      rw [hd', hc, hexpire, herror, hcrashed]
      exact ⟨by simp, hend.data, hend.settings, hend.totalFee⟩

/-- A payment, a payment with a wrong nonce, which is dropped, and a call. -/
theorem applyCheck_proposedValue_three :
    let request : ConsensusValue := {
      txset := [payment payerAddress callerAddress 5 1, payment payerAddress callerAddress 5 7,
        payment callerAddress calleeAddress 0 1]
      ledgerSeq := 2 }
    let rt := payingOut payerAddress
    (applyPropose sampleLibrary sampleClosed rt request).ids.dropped = {1} ∧
      (applyCheck sampleLibrary sampleClosed rt (GlueManager.proposedValue request
        (applyPropose sampleLibrary sampleClosed rt request).ids)).accepted = true := by
  refine ⟨by decide +kernel, (applyCheck_proposedValue ?_ ?_ ?_ (by decide +kernel)).1⟩
  · exact ⟨fun _ _ => rfl, fun _ _ => rfl, fun _ _ => rfl⟩
  · exact fun _ => rfl
  · exact fun _ => rfl

end LedgerFrm

end CegChain
