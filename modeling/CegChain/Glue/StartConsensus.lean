import CegChain.Glue.LedgerUpgrade
import CegChain.Ledger.ContextManager
import CegChain.Ledger.LedgerManager
import CegChain.Lib.Doubles

/-!
# Proposing a block

`GlueManager::StartConsensus` builds a value from the transactions of the pool,
executes it (`SyncPreProcess`) and hands it to the consensus.  An execution that
timed out is tried again with about seven tenths of the transactions.

Two things go wrong.  Seven tenths of one transaction are rounded to one, so a single
transaction that takes too long is tried for ever (`startConsensus_ends_iff`).  And
the answer of `SyncPreProcess` is not looked at: a run that `ApplyPropose` gave up by
its own clock is proposed as it is, and so is a value that is found in the cache,
whose dropped transactions are not handed out again (`request_fullyExecuted_iff`).
-/

namespace CegChain.GlueManager

open Doubles LedgerFrm LedgerContextManager

/-! ## The loop -/

/-- `General::LEDGER_VERSION`. -/
def ledgerVersion : ℤ := 1003

/-- `int64_t(total_tx_count * 0.7 + 0.5)`, where 0.7 is the double nearest to it. -/
def nextTxSize (totalTxCount : ℕ) : ℕ :=
  ⌊toDouble (toDouble (toDouble totalTxCount * (3152519739159347 / 2 ^ 52)) + 1 / 2)⌋.toNat

/-- `total_tx_count`, from the transactions executed and those of the raw set. -/
def totalTxCount (executed size : ℕ) : ℕ :=
  if executed = 0 then size else min executed size

/-- The transactions of the raw set that are in `need_dropped_tx_`, from index `i` on. -/
def droppedTxs (dropped : Finset ℤ) : ℕ → List TransactionEnv → List TransactionEnv
  | _, [] => []
  | i, env :: txs =>
      if (i : ℤ) ∈ dropped then env :: droppedTxs dropped (i + 1) txs
      else droppedTxs dropped (i + 1) txs

/-- What a call of `StartConsensus` reads before the loop. -/
structure Opening where
  nextCloseTime : ℤ := 0
  /-- `lcl.hash()`. -/
  lclHash : Bytes := []
  /-- The proof of the last block. -/
  proof : Bytes := []

/-- What a pass of the loop meets. -/
structure Attempt where
  /-- `ledger_upgrade_`. -/
  votes : Glue.LedgerUpgrade := {}
  /-- `GetValidation`. -/
  validators : List Bytes := []
  quorumSize : ℕ := 0
  timing : Timing
  /-- `enabled_` of the ledger after the waiting loop has given up and cancelled it. -/
  enabled : ℕ → Bool := fun _ => true
  /-- `GetTxCount()` when the waiting loop is left. -/
  executed : ℕ

/-- The variables that one pass of the loop leaves to the next. -/
structure Proposal (H : Type) where
  txsetRaw : List TransactionEnv
  /-- `ledger_upgrade` of `propose_value`; its other fields are set by every pass. -/
  ledgerUpgrade : Option LedgerUpgrade := none
  /-- `context_manager_`. -/
  contexts : LedgerContextManager H := {}
  deriving DecidableEq

/-- How a pass of the loop ends. -/
inductive Pass (H : Type) where
  | retry (next : Proposal H)
  /-- The value is handed to `Request` and the transactions are removed from the pool;
  `answer` is what `SyncPreProcess` returned. -/
  | request (answer : Bool) (proposeValue : ClosingValue) (removed : List TransactionEnv)
  /-- The execution has ended the process. -/
  | died
  deriving DecidableEq

variable {H : Type} [LE H] [DecidableLE H] [DecidableEq H]
variable (lib : Library) (lcl : Closed) (rt : Runtime) (crypto : ClosingValue → H)
  (opening : Opening)

/-- The value that a pass executes. -/
def rawValue (attempt : Attempt) (p : Proposal H) : ClosingValue where
  txset := p.txsetRaw
  ledgerSeq := lcl.seq + 1
  closeTime := opening.nextCloseTime
  previousLedgerHash := opening.lclHash
  previousProof := opening.proof
  ledgerUpgrade :=
    match attempt.votes.getValid attempt.validators (attempt.quorumSize + 1) with
    | some up =>
        if (lcl.version : ℤ) < up.newLedgerVersion.toInt ∧
            up.newLedgerVersion.toInt ≤ ledgerVersion then
          some ⟨up.newLedgerVersion.toInt, up.newValidator⟩
        else p.ledgerUpgrade
    | none => p.ledgerUpgrade

/-- The value after the execution, without the dropped transactions and with the
validation. -/
def finishValue (value : ClosingValue) (result : ProposeTxsResult) : ClosingValue :=
  { value with
    txset :=
      if result.needDroppedTx.card > 0 then keepTxs result.needDroppedTx 0 value.txset
      else value.txset
    validation :=
      if result.consValidation.errorTxIds.length > 0 ∨
          result.consValidation.expireTxIds.length > 0 then
        some result.consValidation
      else value.validation }

/-- The runtime of an execution: only a ledger that was waited for too long is
cancelled. -/
def attemptRuntime (attempt : Attempt) : Runtime :=
  { rt with
    enabled := fun i => !attempt.timing.waited || attempt.enabled i
    timedOut := attempt.timing.timedOut }

/-- The value is executed in this pass: it is not found in the cache and the thread
starts. -/
def executes (attempt : Attempt) (p : Proposal H) : Bool :=
  decide (p.contexts.checkComplete (crypto (rawValue lcl opening attempt p)) ≤ 0) &&
    attempt.timing.started

/-- One pass of the loop. -/
def pass (attempt : Attempt) (p : Proposal H) : Pass H :=
  let value := rawValue lcl opening attempt p
  let rt := attemptRuntime rt attempt
  if executes lcl crypto opening attempt p ∧
      (applyPropose lib lcl rt value.toConsensusValue).context.crashed then .died
  else
    let r := syncPreProcess lib lcl rt (fun v => crypto { value with toConsensusValue := v })
      attempt.timing value.toConsensusValue true {} p.contexts
    if r.2.1.blockTimeout then
      let executed := if attempt.timing.started then attempt.executed else 0
      .retry {
        txsetRaw := p.txsetRaw.take (nextTxSize (totalTxCount executed p.txsetRaw.length))
        ledgerUpgrade := value.ledgerUpgrade
        contexts := r.2.2 }
    else
      .request r.1 (finishValue value r.2.1) (droppedTxs r.2.1.needDroppedTx 0 p.txsetRaw)

/-- The variables at the beginning of each pass, while the loop goes on. -/
def loop (attempts : ℕ → Attempt) (start : Proposal H) : ℕ → Option (Proposal H)
  | 0 => some start
  | n + 1 => (loop attempts start n).bind fun p =>
      match pass lib lcl rt crypto opening (attempts n) p with
      | .retry next => some next
      | _ => none

/-! ## The size of the next set -/

theorem nextTxSize_lt {n : ℕ} (hn : 2 ≤ n) : nextTxSize n < n := by
  have hn' : (2 : ℚ) ≤ n := by exact_mod_cast hn
  obtain ⟨hlow₁, hhigh₁⟩ := @toDouble_mem_Icc (n : ℚ) (by linarith)
  obtain ⟨hlow₂, hhigh₂⟩ :=
    @toDouble_mem_Icc (toDouble n * (3152519739159347 / 2 ^ 52)) (by linarith)
  obtain ⟨hlow₃, hhigh₃⟩ :=
    @toDouble_mem_Icc (toDouble (toDouble n * (3152519739159347 / 2 ^ 52)) + 1 / 2) (by linarith)
  have hlt : toDouble (toDouble (toDouble n * (3152519739159347 / 2 ^ 52)) + 1 / 2) < n := by
    linarith
  have hfloor : ⌊toDouble (toDouble (toDouble n * (3152519739159347 / 2 ^ 52)) + 1 / 2)⌋ < n :=
    Int.floor_lt.mpr (by exact_mod_cast hlt)
  unfold nextTxSize
  omega

/-- One transaction stays one. -/
theorem nextTxSize_one : nextTxSize 1 = 1 := by
  decide +kernel

theorem nextTxSize_zero : nextTxSize 0 = 0 := by
  decide +kernel

theorem nextTxSize_le (n : ℕ) : nextTxSize n ≤ n := by
  rcases Nat.lt_or_ge n 2 with hlt | hge
  · interval_cases n
    · exact nextTxSize_zero.le
    · exact nextTxSize_one.le
  · exact (nextTxSize_lt hge).le

/-- **A retry has fewer transactions** exactly when there were two to choose from. -/
theorem nextTxSize_totalTxCount_lt_iff (executed size : ℕ) :
    nextTxSize (totalTxCount executed size) < size ↔ 2 ≤ size := by
  constructor
  · intro hlt
    by_contra hsmall
    have hcount : totalTxCount executed size = size := by
      unfold totalTxCount
      split_ifs with hzero
      · rfl
      · omega
    rw [hcount] at hlt
    obtain rfl | rfl : size = 0 ∨ size = 1 := by omega
    · omega
    · rw [nextTxSize_one] at hlt
      omega
  · intro hsize
    have hle : totalTxCount executed size ≤ size := by
      unfold totalTxCount
      split_ifs
      · exact le_rfl
      · exact min_le_right _ _
    rcases hle.lt_or_eq with hlt | heq
    · exact (nextTxSize_le _).trans_lt hlt
    · rw [heq]
      exact nextTxSize_lt hsize

/-! ## The retries -/

variable {lib lcl rt crypto opening}
variable {attempts : ℕ → Attempt} {start p p' : Proposal H} {n : ℕ}

theorem loop_succ_eq_some_iff :
    loop lib lcl rt crypto opening attempts start (n + 1) = some p' ↔
      ∃ p, loop lib lcl rt crypto opening attempts start n = some p ∧
        pass lib lcl rt crypto opening (attempts n) p = .retry p' := by
  rw [loop, Option.bind_eq_some_iff]
  refine exists_congr fun p => and_congr_right fun _ => ?_
  cases pass lib lcl rt crypto opening (attempts n) p <;> simp

/-- A retry takes the first transactions of the set before. -/
theorem length_of_retry {attempt : Attempt}
    (hpass : pass lib lcl rt crypto opening attempt p = .retry p') :
    ∃ executed, p'.txsetRaw.length =
      nextTxSize (totalTxCount executed p.txsetRaw.length) := by
  have hshorter : ∀ executed, nextTxSize (totalTxCount executed p.txsetRaw.length) ≤
      p.txsetRaw.length := by
    intro executed
    refine (nextTxSize_le _).trans ?_
    unfold totalTxCount
    split_ifs
    · exact le_rfl
    · exact min_le_right _ _
  unfold pass at hpass
  dsimp only at hpass
  split_ifs at hpass
  all_goals
    obtain rfl := Pass.retry.inj hpass
    exact ⟨_, by rw [List.length_take, min_eq_left (hshorter _)]⟩

/-- **When the loop ends.**  Whatever times out and whatever counts are reported, each
retry has fewer transactions than the one before and the loop ends after at most as
many passes as there are transactions, and one more, exactly when no set of fewer than
two transactions times out. -/
theorem startConsensus_ends_iff (attempts : ℕ → Attempt) (start : Proposal H) :
    let before := loop lib lcl rt crypto opening attempts start
    ((∀ n p p', before n = some p → before (n + 1) = some p' →
        p'.txsetRaw.length < p.txsetRaw.length) ∧
      before (start.txsetRaw.length + 1) = none) ↔
      ∀ n p p', before n = some p → before (n + 1) = some p' → 2 ≤ p.txsetRaw.length := by
  intro before
  have hstep : ∀ n p p', before n = some p → before (n + 1) = some p' →
      (p'.txsetRaw.length < p.txsetRaw.length ↔ 2 ≤ p.txsetRaw.length) := by
    intro n p p' hbefore hnext
    obtain ⟨q, hq, hpass⟩ := loop_succ_eq_some_iff.mp hnext
    obtain rfl := Option.some.inj (hq.symm.trans hbefore)
    obtain ⟨executed, hlength⟩ := length_of_retry hpass
    rw [hlength]
    exact nextTxSize_totalTxCount_lt_iff _ _
  constructor
  · rintro ⟨hshrink, -⟩ n p p' hbefore hnext
    exact (hstep n p p' hbefore hnext).mp (hshrink n p p' hbefore hnext)
  · intro htwo
    have hshrink : ∀ n p p', before n = some p → before (n + 1) = some p' →
        p'.txsetRaw.length < p.txsetRaw.length := fun n p p' hbefore hnext =>
      (hstep n p p' hbefore hnext).mpr (htwo n p p' hbefore hnext)
    refine ⟨hshrink, ?_⟩
    -- the sizes go down by one at least
    have hbound : ∀ n p, before n = some p → n + p.txsetRaw.length ≤ start.txsetRaw.length := by
      intro n
      induction n with
      | zero =>
          intro p hbefore
          obtain rfl := Option.some.inj hbefore
          omega
      | succ n ih =>
          intro p' hnext
          obtain ⟨p, hbefore, -⟩ := loop_succ_eq_some_iff.mp hnext
          have := ih p hbefore
          have := hshrink n p p' hbefore hnext
          omega
    cases hend : before (start.txsetRaw.length + 1) with
    | none => rfl
    | some p =>
        have := hbound _ p hend
        omega

/-- An execution that takes too long, for the thread and for the one that waits. -/
def overrun : Attempt where
  timing := ⟨true, true, fun _ => true⟩
  executed := 1

/-- A hash under which values of different sizes differ. -/
def sampleHash (value : ClosingValue) : ℕ :=
  value.txset.length

/-- A pool with one transaction. -/
def onePayment : Proposal ℕ where
  txsetRaw := [payment payerAddress callerAddress 5 1]

/-- A single transaction that takes too long is tried for ever. -/
theorem startConsensus_hangs :
    let before := loop sampleLibrary sampleClosed (payingOut payerAddress) sampleHash {}
      (fun _ => overrun) onePayment
    (¬ ∃ n, before n = none) ∧
      ¬ ∀ n p p', before n = some p → before (n + 1) = some p' →
        p'.txsetRaw.length < p.txsetRaw.length := by
  intro before
  have hstay : pass sampleLibrary sampleClosed (payingOut payerAddress) sampleHash {} overrun
      onePayment = .retry onePayment := by decide +kernel
  have hbefore : ∀ n, before n = some onePayment := by
    intro n
    induction n with
    | zero => rfl
    | succ n ih => exact loop_succ_eq_some_iff.mpr ⟨onePayment, ih, hstay⟩
  constructor
  · rintro ⟨n, hnone⟩
    rw [hbefore n] at hnone
    cases hnone
  · intro hshrink
    exact lt_irrefl _ (hshrink 0 onePayment onePayment (hbefore 0) (hbefore 1))

/-! ## What is proposed -/

/-- The runtime of an execution that is not held up. -/
abbrev fullRuntime (rt : Runtime) : Runtime :=
  { rt with enabled := fun _ => true, timedOut := fun _ => false }

/-- The whole value executed by `ApplyPropose`. -/
abbrev fullExecution (lib : Library) (lcl : Closed) (rt : Runtime) (value : ClosingValue) :
    Applied :=
  applyPropose lib lcl (fullRuntime rt) value.toConsensusValue

/-- What was proposed is the value less the transactions that its execution drops, with
the validation that its execution gives. -/
def FullyExecuted (lib : Library) (lcl : Closed) (rt : Runtime) (value proposed : ClosingValue) :
    Prop :=
  (fullExecution lib lcl rt value).accepted = true ∧
    proposed = { value with
      toConsensusValue :=
        proposedValue value.toConsensusValue (fullExecution lib lcl rt value).ids }

theorem keepTxs_sublist (dropped : Finset ℤ) (i : ℕ) (txs : List TransactionEnv) :
    (keepTxs dropped i txs).Sublist txs := by
  induction txs generalizing i with
  | nil => exact .slnil
  | cons env txs ih =>
      rw [keepTxs]
      split_ifs
      · exact (ih (i + 1)).cons env
      · exact (ih (i + 1)).cons_cons env

theorem keepTxs_eq_self_iff {dropped : Finset ℤ} {i : ℕ} {txs : List TransactionEnv} :
    keepTxs dropped i txs = txs ↔ ∀ j, i ≤ j → j < i + txs.length → (j : ℤ) ∉ dropped := by
  induction txs generalizing i with
  | nil =>
      refine iff_of_true rfl fun j hle hlt => ?_
      rw [List.length_nil] at hlt
      omega
  | cons env txs ih =>
      rw [keepTxs]
      split_ifs with hmem
      · refine iff_of_false (fun heq => ?_) fun hall => hall i le_rfl (by simp) hmem
        have hlength := (keepTxs_sublist dropped (i + 1) txs).length_le
        rw [heq, List.length_cons] at hlength
        omega
      · rw [List.cons_inj_right, ih]
        constructor
        · intro hrest j hle hlt
          rcases hle.eq_or_lt with rfl | hlt'
          · exact hmem
          · exact hrest j hlt' (by rw [List.length_cons] at hlt; omega)
        · intro hall j hle hlt
          exact hall j (by omega) (by rw [List.length_cons]; omega)

/-- Nothing to drop and nothing to note leave a value as it is. -/
theorem proposedValue_eq_self_iff {value : ConsensusValue} {ids : TxIds}
    (hnone : value.validation = none)
    (hrange : ∀ id ∈ ids.dropped, 0 ≤ id ∧ id < value.txset.length) :
    proposedValue value ids = value ↔ ids.None := by
  have hkeep : keepTxs ids.dropped 0 value.txset = value.txset ↔ ids.dropped = ∅ := by
    rw [keepTxs_eq_self_iff]
    constructor
    · intro hall
      refine Finset.eq_empty_of_forall_notMem fun id hmem => ?_
      obtain ⟨hpos, hlt⟩ := hrange id hmem
      lift id to ℕ using hpos
      exact hall id (Nat.zero_le _) (by omega) hmem
    · rintro hempty j - -
      rw [hempty]
      exact Finset.notMem_empty _
  have hcards : (ids.error.card > 0 ∨ ids.expire.card > 0) ↔
    ¬ (ids.expire = ∅ ∧ ids.error = ∅) := by
    rw [gt_iff_lt, gt_iff_lt, Finset.card_pos, Finset.card_pos, Finset.nonempty_iff_ne_empty,
      Finset.nonempty_iff_ne_empty]
    tauto
  constructor
  · intro heq
    have htxset := congrArg ConsensusValue.txset heq
    have hvalidation := congrArg ConsensusValue.validation heq
    refine ⟨hkeep.mp htxset, not_not.mp fun hids => ?_⟩
    unfold proposedValue at hvalidation
    dsimp only at hvalidation
    rw [if_pos (hcards.mpr hids), hnone] at hvalidation
    cases hvalidation
  · rintro ⟨hdropped, hids⟩
    unfold proposedValue
    rw [hkeep.mpr hdropped, if_neg fun h => hcards.mp h hids]

/-- What is built from the ids of an execution. -/
theorem finishValue_eq {value : ClosingValue} {ids : TxIds} {result : ProposeTxsResult}
    (hdropped : result.needDroppedTx = ids.dropped)
    (hvalidation : result.consValidation = setValidationToProto ids.expire ids.error) :
    finishValue value result =
      { value with toConsensusValue := proposedValue value.toConsensusValue ids } := by
  have htxset : (if ids.dropped.card > 0 then keepTxs ids.dropped 0 value.txset else value.txset) =
      keepTxs ids.dropped 0 value.txset := by
    split_ifs with hcard
    · rfl
    · obtain hempty : ids.dropped = ∅ := by simpa using hcard
      symm
      rw [keepTxs_eq_self_iff, hempty]
      exact fun j _ _ => Finset.notMem_empty _
  unfold finishValue proposedValue
  rw [hdropped, hvalidation, htxset]
  simp only [setValidationToProto, Finset.length_sort]

/-- The runtime of an execution that may be held up. -/
abbrev clockRuntime (rt : Runtime) (clock : ℕ → Bool) : Runtime :=
  { rt with enabled := fun _ => true, timedOut := clock }

/-- The loop of a full execution. -/
theorem exists_fullExecution (lib : Library) (lcl : Closed) (rt : Runtime) {value : ClosingValue}
    (hnone : value.validation = none) :
    ∃ c, proposeLoop lib lcl (fullRuntime rt) 0 value.txset {} {} =
      (some (fullExecution lib lcl rt value).ids, c) := by
  obtain ⟨ids, c, hloop⟩ := exists_proposeLoop lib lcl (fullRuntime rt) 0 value.txset {} {}
  refine ⟨c, ?_⟩
  rw [fullExecution, applyPropose, if_neg (not_not.mpr hnone)]
  dsimp only at hloop ⊢
  rw [hloop]

/-- The transactions that a full execution drops are some of the value. -/
theorem mem_dropped_fullExecution {lib : Library} {lcl : Closed} {rt : Runtime}
    {value : ClosingValue} (hnone : value.validation = none) {id : ℤ}
    (hid : id ∈ (fullExecution lib lcl rt value).ids.dropped) :
    0 ≤ id ∧ id < value.txset.length := by
  obtain ⟨c, hfull⟩ := exists_fullExecution lib lcl rt hnone
  rcases @mem_dropped_proposeLoop lib lcl (fullRuntime rt) value.txset {} _ {} c 0 hfull id hid
    with hold | hnew
  · exact absurd hold (Finset.notMem_empty id)
  · simpa using hnew

/-- The clock stops the execution at a transaction that is not dropped. -/
def Stops (lib : Library) (lcl : Closed) (rt : Runtime) (clock : ℕ → Bool)
    (value : ClosingValue) : Prop :=
  ∃ j < value.txset.length, (j : ℤ) ∉ (fullExecution lib lcl rt value).ids.dropped ∧ clock j = true

theorem proposeLoop_stops_iff (lib : Library) (lcl : Closed) (rt : Runtime) (clock : ℕ → Bool)
    {value : ClosingValue} (hnone : value.validation = none) :
    (proposeLoop lib lcl (clockRuntime rt clock) 0 value.txset {} {}).1 = none ↔
      Stops lib lcl rt clock value := by
  obtain ⟨c, hfull⟩ := exists_fullExecution lib lcl rt hnone
  have hiff := @proposeLoop_stopped_iff lib lcl (fullRuntime rt) value.txset {} _ {} c 0
    (fun _ => rfl) clock (fun id hid => absurd hid (Finset.notMem_empty id)) hfull
  rw [hiff]
  simp [Stops]

/-- An execution that the clock stops is not accepted. -/
theorem accepted_of_stops {lib : Library} {lcl : Closed} {rt : Runtime} {clock : ℕ → Bool}
    {value : ClosingValue} (hnone : value.validation = none)
    (hstops : Stops lib lcl rt clock value) :
    (applyPropose lib lcl (clockRuntime rt clock) value.toConsensusValue).accepted = false := by
  have hloop := (proposeLoop_stops_iff lib lcl rt clock hnone).mpr hstops
  rw [applyPropose, if_neg (not_not.mpr hnone)]
  generalize proposeLoop lib lcl (clockRuntime rt clock) 0 value.txset {} {} = r at hloop ⊢
  obtain ⟨_ | ids, c⟩ := r
  · rfl
  · cases hloop

/-- An execution that the clock does not stop is a full one. -/
theorem applyPropose_of_not_stops {lib : Library} {lcl : Closed} {rt : Runtime} {clock : ℕ → Bool}
    {value : ClosingValue} (hnone : value.validation = none)
    (hstops : ¬ Stops lib lcl rt clock value) :
    applyPropose lib lcl (clockRuntime rt clock) value.toConsensusValue =
        fullExecution lib lcl rt value ∧
      (CompletedContext.run lib lcl (clockRuntime rt clock) value.toConsensusValue
        true).needDroppedTx = (fullExecution lib lcl rt value).ids.dropped := by
  have hsome := (proposeLoop_stops_iff lib lcl rt clock hnone).not.mpr hstops
  obtain ⟨c, hfull⟩ := exists_fullExecution lib lcl rt hnone
  rcases hloop : proposeLoop lib lcl (clockRuntime rt clock) 0 value.txset {} {} with ⟨_ | ids, c'⟩
  · rw [hloop] at hsome
    exact absurd rfl hsome
  · have hclock :=
      @proposeLoop_clock lib lcl (fullRuntime rt) value.txset {} ids {} c' 0 clock hloop
    obtain ⟨hids, rfl⟩ := Prod.mk.inj (hclock.symm.trans hfull)
    obtain rfl := Option.some.inj hids
    constructor
    · rw [fullExecution, applyPropose, applyPropose, hloop, hfull]
    · have hdropped := droppedBy_of_proposeLoop hloop
      rw [CompletedContext.run, if_pos rfl, if_neg (not_not.mpr hnone)]
      exact hdropped

/-- A full execution succeeds unless it ends the process. -/
theorem accepted_fullExecution {lib : Library} {lcl : Closed} {rt : Runtime} {value : ClosingValue}
    (hnone : value.validation = none) :
    (fullExecution lib lcl rt value).accepted =
      !(fullExecution lib lcl rt value).context.crashed := by
  obtain ⟨c, hfull⟩ := exists_fullExecution lib lcl rt hnone
  rw [fullExecution, applyPropose, if_neg (not_not.mpr hnone), hfull]

variable {attempt : Attempt} {answer : Bool} {proposed : ClosingValue}
  {removed : List TransactionEnv}

omit [LE H] [DecidableLE H] in
theorem checkComplete_of_pos {m : LedgerContextManager H} {chash : H}
    (hpos : m.checkComplete chash > 0) : m.checkComplete chash = 1 := by
  unfold checkComplete at hpos ⊢
  split at hpos
  · split_ifs at hpos ⊢
    · rfl
    · exact absurd hpos (lt_irrefl _)
  · exact absurd hpos (by decide)

theorem syncPreProcess_of_stored {hash : ConsensusValue → H} {m : LedgerContextManager H}
    {timing : Timing} {value : ConsensusValue} (hstored : m.checkComplete (hash value) > 0) :
    syncPreProcess lib lcl rt hash timing value true {} m =
      (decide (m.checkComplete (hash value) = 1), {}, m) := by
  rw [syncPreProcess, if_pos hstored]

theorem syncPreProcess_of_fresh (lib : Library) (lcl : Closed) (rt : Runtime)
    (hash : ConsensusValue → H) (timing : Timing) (value : ConsensusValue)
    {m : LedgerContextManager H} (hfresh : ¬ m.checkComplete (hash value) > 0) :
    ∃ m', syncPreProcess lib lcl rt hash timing value true {} m =
      if timing.started = false ∨ timing.waited = true then (false, { blockTimeout := true }, m')
      else
        let result :=
          CompletedContext.run lib lcl { rt with timedOut := timing.timedOut } value true
        (result.execResult, result, m') := by
  rw [syncPreProcess, if_neg hfresh]
  cases timing.started with
  | false => exact ⟨_, rfl⟩
  | true =>
      cases timing.waited with
      | true => exact ⟨_, rfl⟩
      | false => exact ⟨_, rfl⟩

/-- What is handed to `Request`: a value that was found in the cache as it is, or one
that was executed, whatever came of it. -/
theorem pass_eq_request (hpass : pass lib lcl rt crypto opening attempt p =
      .request answer proposed removed) :
    let value := rawValue lcl opening attempt p
    let clock := attempt.timing.timedOut
    (p.contexts.checkComplete (crypto value) > 0 ∧ answer = true ∧ proposed = value) ∨
      (¬ p.contexts.checkComplete (crypto value) > 0 ∧
        (applyPropose lib lcl (clockRuntime rt clock) value.toConsensusValue).context.crashed =
          false ∧
        answer = (applyPropose lib lcl (clockRuntime rt clock) value.toConsensusValue).accepted ∧
        proposed = finishValue value
          (CompletedContext.run lib lcl (clockRuntime rt clock) value.toConsensusValue true)) := by
  intro value clock
  unfold pass at hpass
  dsimp only at hpass
  split at hpass
  · cases hpass
  · rename_i hdied
    by_cases hstored : p.contexts.checkComplete (crypto value) > 0
    · have hone := checkComplete_of_pos hstored
      rw [syncPreProcess_of_stored hstored] at hpass
      obtain ⟨rfl, rfl, -⟩ := Pass.request.inj hpass
      exact .inl ⟨hstored, decide_eq_true hone, rfl⟩
    · obtain ⟨m', hsync⟩ := syncPreProcess_of_fresh lib lcl (attemptRuntime rt attempt)
        (fun v => crypto { rawValue lcl opening attempt p with toConsensusValue := v })
        attempt.timing (rawValue lcl opening attempt p).toConsensusValue hstored
      rw [hsync] at hpass
      cases hstarted : attempt.timing.started with
      | false =>
          rw [hstarted] at hpass
          cases hpass
      | true =>
          cases hwaited : attempt.timing.waited with
          | true =>
              rw [hstarted, hwaited] at hpass
              cases hpass
          | false =>
              rw [hstarted, hwaited] at hpass
              have hrt : attemptRuntime rt attempt = clockRuntime rt clock := by
                rw [attemptRuntime, hwaited]
                rfl
              rw [hrt] at hpass hdied
              obtain ⟨rfl, rfl, -⟩ := Pass.request.inj hpass
              refine .inr ⟨hstored, ?_, rfl, rfl⟩
              rw [← Bool.not_eq_true]
              refine fun hcrashed => hdied ⟨?_, hcrashed⟩
              rw [executes, hstarted, Bool.and_true]
              exact decide_eq_true (not_lt.mp hstored)

/-- **When a leader has executed what it proposes.**  A value that is handed to
`Request` was executed to its end, with success, and carries the dropped transactions
and the validation of that execution, exactly when the clock did not stop its execution
or, if it was found in the cache, all of its transactions go through. -/
theorem request_fullyExecuted_iff (hpass : pass lib lcl rt crypto opening attempt p =
      .request answer proposed removed) :
    let value := rawValue lcl opening attempt p
    (answer = true ∧ FullyExecuted lib lcl rt value proposed) ↔
      if p.contexts.checkComplete (crypto value) > 0 then
        (fullExecution lib lcl rt value).accepted = true ∧ (fullExecution lib lcl rt value).ids.None
      else ¬ Stops lib lcl rt attempt.timing.timedOut value := by
  intro value
  have hnone : value.validation = none := rfl
  rcases pass_eq_request hpass with ⟨hstored, rfl, rfl⟩ | ⟨hfresh, hcrashed, rfl, rfl⟩
  · -- the caller's result is empty, so the value is proposed as it is
    rw [if_pos hstored, FullyExecuted]
    have hself := proposedValue_eq_self_iff hnone fun id hid =>
      @mem_dropped_fullExecution lib lcl rt value hnone id hid
    rw [← hself]
    constructor
    · rintro ⟨-, haccepted, heq⟩
      exact ⟨haccepted, (congrArg ClosingValue.toConsensusValue heq).symm⟩
    · rintro ⟨haccepted, heq⟩
      refine ⟨rfl, haccepted, ?_⟩
      rw [heq]
  · rw [if_neg hfresh]
    constructor
    · rintro ⟨haccepted, -⟩ hstops
      rw [accepted_of_stops hnone hstops] at haccepted
      cases haccepted
    · intro hstops
      obtain ⟨heq, hdropped⟩ := applyPropose_of_not_stops hnone hstops
      have haccepted : (fullExecution lib lcl rt value).accepted = true := by
        rw [accepted_fullExecution hnone, ← heq, hcrashed]
        rfl
      refine ⟨by rw [heq, haccepted], haccepted, finishValue_eq hdropped ?_⟩
      rw [← heq]
      rfl

/-- An execution that is not held up. -/
def inTimeAttempt : Attempt where
  timing := .prompt
  executed := 1

/-- An execution that ends before the one that waits looks at the clock, but after the
limit by its own. -/
def lateAttempt : Attempt where
  timing := ⟨true, false, fun _ => true⟩
  executed := 1

/-- A payment and one with a wrong nonce, which are found in the cache. -/
def cachedPayments : Proposal ℕ where
  txsetRaw := (twoPayments true).txset
  contexts := LedgerContextManager.run sampleLibrary sampleClosed
    (payingOut payerAddress) sampleCrypto
    (proposedOnce (twoPayments true))

/-- A payment that is executed in time. -/
theorem request_fullyExecuted_one :
    let value := rawValue sampleClosed {} inTimeAttempt onePayment
    pass sampleLibrary sampleClosed (payingOut payerAddress) sampleHash {} inTimeAttempt
      onePayment =
        .request true value [] ∧
      FullyExecuted sampleLibrary sampleClosed (payingOut payerAddress) value value := by
  have hpass : pass sampleLibrary sampleClosed (payingOut payerAddress) sampleHash {} inTimeAttempt
      onePayment = .request true (rawValue sampleClosed {} inTimeAttempt onePayment) [] := by
    decide +kernel
  refine ⟨hpass, ((request_fullyExecuted_iff hpass).mpr ?_).2⟩
  rw [if_neg (by decide +kernel)]
  rintro ⟨j, -, -, hclock⟩
  cases hclock

/-- A value whose execution was given up is proposed, and one that is found in the cache
is proposed with the transaction that its execution drops. -/
theorem request_not_fullyExecuted :
    pass sampleLibrary sampleClosed (payingOut payerAddress) sampleHash {} lateAttempt onePayment =
        .request false (rawValue sampleClosed {} lateAttempt onePayment) [] ∧
      pass sampleLibrary sampleClosed (payingOut payerAddress) sampleHash {} inTimeAttempt
          cachedPayments =
        .request true (rawValue sampleClosed {} inTimeAttempt cachedPayments) [] ∧
      (fullExecution sampleLibrary sampleClosed (payingOut payerAddress)
        (rawValue sampleClosed {} inTimeAttempt cachedPayments)).ids.dropped = {1} := by
  refine ⟨?_, ?_, ?_⟩ <;> decide +kernel

end CegChain.GlueManager
