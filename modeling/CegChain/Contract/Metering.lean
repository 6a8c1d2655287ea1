import Mathlib.Data.List.Infix
import Mathlib.Tactic.Ring

/-!
# The metering of contracts

A contract is metered in steps: `InternalCheckTime`, which V8 calls at its check points,
adds one and compares, and most host calls add a hundred.  The steps are counted in
`contract_step_` of a transaction on `transaction_stack_`, and the check compares that of
the bottom one, the transaction of the block.  `storageLoad` alone adds to the top one.
So a check point sees all the work, at whatever depth, except for the `storageLoad`s of
contracts that run in a transaction of their own (`metered_iff`).

What a contract does is seen as the tree of its check points and host calls; the answers
of the calls do not matter here.  An exception at a check point may be caught, so a tree
may go on behind it.
-/

namespace CegChain

namespace Metering

/-! ## The functions of the source -/

/-- The host calls that add to `contract_step_`.  `storageStore` and `storageDel` are
`setMetaData`. -/
inductive HostCall where
  | getAccountAsset
  | getContractProperty
  | getAccountMetadata
  | getBalance
  | getBlockHash
  | sha256
  | verify
  | toAddress
  | storageLoad
  | contractQuery
  | delegateQuery
  | delegateCall
  | topicLog
  | contractCall
  | contractCreate
  | payCoin
  | issueAsset
  | payAsset
  | setMetaData
  deriving DecidableEq

/-- What a host call pushes for the contract that it reaches. -/
inductive Frame where
  /-- It reaches none. -/
  | none
  /-- `DoTransaction` pushes a new transaction. -/
  | transaction
  /-- The top transaction is pushed again. -/
  | again
  /-- Nothing is pushed. -/
  | plain
  deriving DecidableEq

/-- The frame of a host call.  `contractQuery` pushes from version 1002 on. -/
def HostCall.frame (version : ℕ) : HostCall → Frame
  | .topicLog | .contractCall | .contractCreate | .payCoin | .issueAsset | .payAsset
  | .setMetaData =>
      .transaction
  | .delegateCall | .delegateQuery => .again
  | .contractQuery => if version > 1001 then .again else .plain
  | _ => .none

/-- How far a host call gets. -/
inductive Reach where
  /-- Its arguments are refused before it adds its steps. -/
  | refused
  /-- It reaches no contract. -/
  | alone
  /-- It reaches a contract, which runs.  `stopped` says that `DoTransaction` ends with
  `ERRCODE_FEE_NOT_ENOUGH` or `ERRCODE_CONTRACT_TOO_MANY_TRANSACTIONS`. -/
  | nested (stopped : Bool)
  deriving DecidableEq

/-- What happens below a transaction. -/
inductive Work where
  | done
  | check (next : Work)
  | hostCall (call : HostCall) (reach : Reach) (inner next : Work)

/-- What the metering reads of a `LedgerContext`.  A transaction is its number. -/
structure Meter where
  /-- `contract_step_` of each transaction. -/
  contractStep : List Int32
  /-- `transaction_stack_`, the top first. -/
  transactionStack : List ℕ

namespace Meter

/-- `LedgerContext::GetBottomTx`. -/
def getBottomTx (m : Meter) : ℕ :=
  m.transactionStack.getLastD 0

/-- `LedgerContext::GetTopTx`. -/
def getTopTx (m : Meter) : ℕ :=
  m.transactionStack.headD 0

/-- `TransactionFrm::ContractStepInc`. -/
def contractStepInc (tx : ℕ) (step : Int32) (m : Meter) : Meter :=
  { m with contractStep := m.contractStep.modify tx (· + step) }

/-- `transaction_stack_.push_back`. -/
def push (tx : ℕ) (m : Meter) : Meter :=
  { m with transactionStack := tx :: m.transactionStack }

/-- `transaction_stack_.pop_back`. -/
def pop (m : Meter) : Meter :=
  { m with transactionStack := m.transactionStack.tail }

/-- A new transaction is pushed. -/
def pushNew (m : Meter) : Meter where
  contractStep := m.contractStep ++ [0]
  transactionStack := m.contractStep.length :: m.transactionStack

/-- The steps that a host call adds, and to which transaction. -/
def charge (version : ℕ) (call : HostCall) (m : Meter) : Meter :=
  match call with
  | .storageLoad => m.contractStepInc m.getTopTx 100
  | .contractQuery => m.contractStepInc m.getBottomTx (if version > 1001 then 100 else 1000)
  | _ => m.contractStepInc m.getBottomTx 100

/-- The `contract_step_` that `IsExpire` compares. -/
def compared (m : Meter) : Int32 :=
  m.contractStep.getD m.getBottomTx 0

end Meter

/-- `CONTRACT_STEP_LIMIT`. -/
def contractStepLimit : ℤ := 10 * 1024

/-! ## Runs -/

/-- What has been done so far. -/
structure Tally where
  /-- Check points passed. -/
  checks : ℕ := 0
  /-- Host calls made. -/
  calls : ℕ := 0
  /-- Those whose arguments were refused. -/
  refused : ℕ := 0
  /-- `storageLoad`s made while the top transaction was not the bottom one. -/
  nestedLoads : ℕ := 0
  /-- `contractQuery`s of a version up to 1001. -/
  oldQueries : ℕ := 0
  deriving DecidableEq

/-- A check point: what was compared there, and what had been done. -/
structure Seen where
  contractStep : Int32
  tally : Tally
  deriving DecidableEq

/-- `IsExpire`, as far as the steps go. -/
def Seen.stepsExceeded (seen : Seen) : Bool :=
  decide (contractStepLimit < seen.contractStep.toInt)

/-- A run: the meter, what has been done, and the check points so far. -/
structure Run where
  meter : Meter
  tally : Tally := {}
  seen : List Seen := []

namespace Run

/-- `InternalCheckTime`. -/
def check (s : Run) : Run :=
  let meter := s.meter.contractStepInc s.meter.getBottomTx 1
  let tally := { s.tally with checks := s.tally.checks + 1 }
  { meter := meter, tally := tally, seen := s.seen ++ [⟨meter.compared, tally⟩] }

/-- A host call that is refused. -/
def refuse (s : Run) : Run :=
  { s with tally := { s.tally with
      calls := s.tally.calls + 1, refused := s.tally.refused + 1 } }

/-- A host call that adds its steps. -/
def charge (version : ℕ) (call : HostCall) (s : Run) : Run :=
  { s with
    meter := s.meter.charge version call
    tally := { s.tally with
      calls := s.tally.calls + 1
      nestedLoads := s.tally.nestedLoads +
        if call = .storageLoad ∧ s.meter.getTopTx ≠ s.meter.getBottomTx then 1 else 0
      oldQueries := s.tally.oldQueries +
        if call = .contractQuery ∧ ¬ version > 1001 then 1 else 0 } }

/-- The meter is changed. -/
def map (f : Meter → Meter) (s : Run) : Run :=
  { s with meter := f s.meter }

/-- A host call, when the contract that it reaches runs as `inner`.  Up to version 1002 a
transaction that was stopped stays on the stack. -/
def hostCall (version : ℕ) (call : HostCall) (reach : Reach) (inner : Run → Run) (s : Run) :
    Run :=
  match reach with
  | .refused => s.refuse
  | .alone => s.charge version call
  | .nested stopped =>
      match call.frame version with
      | .none => s.charge version call
      | .plain => inner (s.charge version call)
      | .again => (inner ((s.charge version call).map fun m => m.push m.getTopTx)).map Meter.pop
      | .transaction =>
          let s := inner ((s.charge version call).map Meter.pushNew)
          if stopped ∧ ¬ version > 1002 then s else s.map Meter.pop

end Run

/-- The tree runs. -/
def Work.run (version : ℕ) : Work → Run → Run
  | .done, s => s
  | .check next, s => next.run version s.check
  | .hostCall call reach inner next, s =>
      next.run version (s.hostCall version call reach (inner.run version))

/-- A transaction of a block is pushed.  Up to version 1002 there may be stale ones below
it, of transactions before. -/
def start (previous : List Int32) (stale : List (Fin previous.length)) : Run where
  meter :=
    { contractStep := previous ++ [0]
      transactionStack := previous.length :: stale.map Fin.val }

/-- The check points of a run. -/
def checkPoints (version : ℕ) (previous : List Int32) (stale : List (Fin previous.length))
    (work : Work) : List Seen :=
  (work.run version (start previous stale)).seen

/-- What the bottom transaction has counted before. -/
def carried (previous : List Int32) (stale : List (Fin previous.length)) : ℤ :=
  (start previous stale).meter.compared.toInt

/-! ## The account of the steps -/

namespace Tally

/-- What is expected to be counted: one for a check point, a hundred for a host call. -/
def work (t : Tally) : ℤ :=
  t.checks + 100 * t.calls

/-- What the bottom transaction is not charged for. -/
def missed (t : Tally) : ℤ :=
  100 * (t.nestedLoads + t.refused)

/-- What it is charged for beyond that. -/
def surplus (t : Tally) : ℤ :=
  900 * t.oldQueries

end Tally

/-- What the bottom transaction counts, before the overflows of the counter. -/
def account (initial : ℤ) (t : Tally) : ℤ :=
  initial + t.work - t.missed + t.surplus

/-- The overflows of the counter, an `int32_t`, on the way to this number. -/
def overflows (n : ℤ) : ℤ :=
  (n + 2 ^ 31) / 2 ^ 32

theorem toInt_ofInt_eq (n : ℤ) : (Int32.ofInt n).toInt = n - 2 ^ 32 * overflows n := by
  rw [Int32.toInt_ofInt, overflows, Int.bmod_def]
  have hsize : ((Int32.size : ℕ) : ℤ) = 2 ^ 32 := rfl
  rw [hsize]
  split_ifs <;> omega

namespace Meter

theorem charge_eq (version : ℕ) (call : HostCall) (m : Meter) :
    m.charge version call =
      m.contractStepInc (if call = .storageLoad then m.getTopTx else m.getBottomTx)
        (if call = .contractQuery ∧ ¬ version > 1001 then 1000 else 100) := by
  by_cases hversion : version > 1001 <;> cases call <;> simp [charge, hversion]

theorem getBottomTx_eq {m : Meter} {bottom : ℕ}
    (hbottom : m.transactionStack.getLast? = some bottom) : m.getBottomTx = bottom := by
  rw [getBottomTx, List.getLastD_eq_getLast?, hbottom, Option.getD_some]

theorem getElem?_contractStepInc (m : Meter) (tx tx' : ℕ) (step : Int32) :
    (m.contractStepInc tx step).contractStep[tx']? =
      if tx = tx' then (m.contractStep[tx']?).map (· + step) else m.contractStep[tx']? := by
  rw [contractStepInc, List.getElem?_modify]
  split_ifs <;> simp

@[simp] theorem transactionStack_charge (version : ℕ) (call : HostCall) (m : Meter) :
    (m.charge version call).transactionStack = m.transactionStack := by
  rw [charge_eq]
  rfl

@[simp] theorem length_contractStepInc (m : Meter) (tx : ℕ) (step : Int32) :
    (m.contractStepInc tx step).contractStep.length = m.contractStep.length := by
  simp [contractStepInc]

end Meter

/-- The books are kept: the bottom transaction is this one, and it counts what it should,
now and at each check point. -/
structure Accounted (bottom : ℕ) (initial : ℤ) (s : Run) : Prop where
  last : s.meter.transactionStack.getLast? = some bottom
  inRange : ∀ tx ∈ s.meter.transactionStack, tx < s.meter.contractStep.length
  steps : s.meter.contractStep[bottom]? = some (Int32.ofInt (account initial s.tally))
  seen : ∀ seen ∈ s.seen, seen.contractStep = Int32.ofInt (account initial seen.tally)

namespace Accounted

variable {bottom version : ℕ} {initial : ℤ} {s : Run} {call : HostCall}

theorem check (hs : Accounted bottom initial s) : Accounted bottom initial s.check := by
  have hbottom := Meter.getBottomTx_eq hs.last
  have hone : account initial { s.tally with checks := s.tally.checks + 1 } =
      account initial s.tally + 1 := by
    simp only [account, Tally.work, Tally.missed, Tally.surplus, Nat.cast_add, Nat.cast_one]
    ring
  have hsteps : (s.meter.contractStepInc bottom 1).contractStep[bottom]? =
      some (Int32.ofInt (account initial { s.tally with checks := s.tally.checks + 1 })) := by
    rw [Meter.getElem?_contractStepInc, if_pos rfl, hs.steps, hone, Int32.ofInt_add]
    rfl
  have hcompared : (s.meter.contractStepInc bottom 1).compared =
      Int32.ofInt (account initial { s.tally with checks := s.tally.checks + 1 }) := by
    have hsame : (s.meter.contractStepInc bottom 1).getBottomTx = bottom := hbottom
    rw [Meter.compared, hsame, List.getD_eq_getElem?_getD, hsteps, Option.getD_some]
  rw [Run.check, hbottom]
  refine ⟨hs.last, fun tx htx => ?_, hsteps, fun seen hseen => ?_⟩
  · rw [Meter.length_contractStepInc]
    exact hs.inRange tx htx
  · rcases List.mem_append.mp hseen with hseen | hseen
    · exact hs.seen seen hseen
    · rw [List.mem_singleton.mp hseen]
      exact hcompared

theorem refuse (hs : Accounted bottom initial s) : Accounted bottom initial s.refuse where
  last := hs.last
  inRange := hs.inRange
  steps := by
    have hsame : account initial s.refuse.tally = account initial s.tally := by
      simp only [account, Tally.work, Tally.missed, Tally.surplus, Run.refuse, Nat.cast_add,
        Nat.cast_one]
      ring
    rw [hsame]
    exact hs.steps
  seen := hs.seen

/-- A host call adds a hundred, or a thousand for an old query, to the bottom transaction,
and nothing to it for a `storageLoad` above it. -/
theorem charge (hs : Accounted bottom initial s) :
    Accounted bottom initial (s.charge version call) where
  last := by
    rw [Run.charge, Meter.transactionStack_charge]
    exact hs.last
  inRange := by
    intro tx htx
    rw [Run.charge, Meter.transactionStack_charge] at htx
    rw [Run.charge, Meter.charge_eq, Meter.length_contractStepInc]
    exact hs.inRange tx htx
  steps := by
    have hbottom := Meter.getBottomTx_eq hs.last
    have hhundred : (100 : Int32) = Int32.ofInt 100 := rfl
    have hthousand : (1000 : Int32) = Int32.ofInt 1000 := rfl
    rw [Run.charge, Meter.charge_eq, Meter.getElem?_contractStepInc, hs.steps, hbottom]
    dsimp only
    by_cases hload : call = .storageLoad
    · have hquery : ¬ (call = .contractQuery ∧ ¬ version > 1001) := by
        rw [hload]
        simp
      rw [if_pos hload, if_neg hquery]
      by_cases htop : s.meter.getTopTx = bottom
      · rw [if_pos htop, Option.map_some, hhundred, ← Int32.ofInt_add,
          if_neg fun h => h.2 htop, if_neg hquery]
        congr 2
        simp only [account, Tally.work, Tally.missed, Tally.surplus, Nat.cast_add, Nat.cast_one,
          Nat.cast_zero]
        ring
      · rw [if_neg htop, if_pos ⟨hload, htop⟩, if_neg hquery]
        congr 2
        simp only [account, Tally.work, Tally.missed, Tally.surplus, Nat.cast_add, Nat.cast_one,
          Nat.cast_zero]
        ring
    · rw [if_neg hload, if_pos rfl, Option.map_some,
        if_neg (show ¬ (call = .storageLoad ∧ _) from fun h => hload h.1)]
      by_cases hquery : call = .contractQuery ∧ ¬ version > 1001
      · rw [if_pos hquery, if_pos hquery, hthousand, ← Int32.ofInt_add]
        congr 2
        simp only [account, Tally.work, Tally.missed, Tally.surplus, Nat.cast_add, Nat.cast_one,
          Nat.cast_zero]
        ring
      · rw [if_neg hquery, if_neg hquery, hhundred, ← Int32.ofInt_add]
        congr 2
        simp only [account, Tally.work, Tally.missed, Tally.surplus, Nat.cast_add, Nat.cast_one,
          Nat.cast_zero]
        ring
  seen := hs.seen

/-- The stack above the bottom does not matter. -/
theorem of_stack (stack : List ℕ) (hs : Accounted bottom initial s)
    (hlast : stack.getLast? = some bottom)
    (hinRange : ∀ tx ∈ stack, tx < s.meter.contractStep.length) :
    Accounted bottom initial (s.map fun m => { m with transactionStack := stack }) :=
  ⟨hlast, hinRange, hs.steps, hs.seen⟩

theorem ne_nil (hs : Accounted bottom initial s) : s.meter.transactionStack ≠ [] := by
  intro hnil
  have hlast := hs.last
  rw [hnil] at hlast
  cases hlast

theorem push (hs : Accounted bottom initial s) :
    Accounted bottom initial (s.map fun m => m.push m.getTopTx) := by
  obtain ⟨top, rest, hstack⟩ := List.exists_cons_of_ne_nil hs.ne_nil
  have htop : s.meter.getTopTx = top := by rw [Meter.getTopTx, hstack]; rfl
  refine hs.of_stack (s.meter.getTopTx :: s.meter.transactionStack) ?_ ?_
  · rw [List.getLast?_cons, hs.last, Option.getD_some]
  · refine List.forall_mem_cons.mpr ⟨hs.inRange _ ?_, hs.inRange⟩
    rw [htop, hstack]
    exact List.mem_cons_self ..

theorem pushNew (hs : Accounted bottom initial s) :
    Accounted bottom initial (s.map Meter.pushNew) where
  last := by
    change (s.meter.contractStep.length :: s.meter.transactionStack).getLast? = some bottom
    rw [List.getLast?_cons, hs.last, Option.getD_some]
  inRange := by
    intro tx htx
    change tx < (s.meter.contractStep ++ [0]).length
    rw [List.length_append, List.length_singleton]
    rcases List.mem_cons.mp htx with rfl | htx
    · exact Nat.lt_succ_self _
    · exact Nat.lt_succ_of_lt (hs.inRange tx htx)
  steps := by
    have hmem : bottom ∈ s.meter.transactionStack := List.mem_of_getLast? hs.last
    change (s.meter.contractStep ++ [0])[bottom]? = _
    rw [List.getElem?_append_left (hs.inRange bottom hmem)]
    exact hs.steps
  seen := hs.seen

/-- What was pushed on a stack is popped, and the bottom stays. -/
theorem pop {stack : List ℕ} {top : ℕ} (hs : Accounted bottom initial s) (hne : stack ≠ [])
    (hsuffix : top :: stack <:+ s.meter.transactionStack) :
    Accounted bottom initial (s.map Meter.pop) ∧
      stack <:+ (s.map Meter.pop).meter.transactionStack := by
  obtain ⟨above, habove⟩ := hsuffix
  have htail : stack <:+ s.meter.transactionStack.tail := by
    rw [← habove]
    cases above with
    | nil => exact List.suffix_refl stack
    | cons tx above => exact (List.suffix_cons top stack).trans (List.suffix_append above _)
  have hlast : ∀ {other : List ℕ}, stack <:+ other → other.getLast? = stack.getLast? := by
    rintro other ⟨before, rfl⟩
    exact List.getLast?_append_of_ne_nil _ hne
  refine ⟨hs.of_stack _ ?_ fun tx htx => hs.inRange tx (List.mem_of_mem_tail htx), htail⟩
  rw [hlast htail, ← hlast ((List.suffix_cons top stack).trans ⟨above, habove⟩), hs.last]

end Accounted

/-- A call keeps the books, and nothing is popped that was there. -/
def Keeps (bottom : ℕ) (initial : ℤ) (run : Run → Run) : Prop :=
  ∀ {s : Run}, Accounted bottom initial s → Accounted bottom initial (run s) ∧
    s.meter.transactionStack <:+ (run s).meter.transactionStack

theorem keeps_hostCall (version : ℕ) {bottom : ℕ} {initial : ℤ} (call : HostCall) (reach : Reach)
    {inner : Run → Run} (hinner : Keeps bottom initial inner) :
    Keeps bottom initial (Run.hostCall version call reach inner) := by
  intro s hs
  have hcharge : Accounted bottom initial (s.charge version call) := hs.charge
  have hstack : s.meter.transactionStack = (s.charge version call).meter.transactionStack :=
    (Meter.transactionStack_charge version call s.meter).symm
  unfold Run.hostCall
  cases reach with
  | refused => exact ⟨hs.refuse, List.suffix_refl _⟩
  | alone => exact ⟨hcharge, by rw [hstack]⟩
  | nested stopped =>
      dsimp only
      rw [hstack]
      cases call.frame version with
      | none => exact ⟨hcharge, List.suffix_refl _⟩
      | plain => exact hinner hcharge
      | again =>
          obtain ⟨hafter, hsuffix⟩ := hinner hcharge.push
          exact hafter.pop hcharge.ne_nil hsuffix
      | transaction =>
          obtain ⟨hafter, hsuffix⟩ := hinner hcharge.pushNew
          dsimp only
          split_ifs with hstopped
          · exact ⟨hafter, (List.suffix_cons _ _).trans hsuffix⟩
          · exact hafter.pop hcharge.ne_nil hsuffix

/-- **The books are kept through every run.** -/
theorem keeps_run (bottom version : ℕ) (initial : ℤ) (work : Work) :
    Keeps bottom initial (work.run version) := by
  induction work with
  | done => exact fun hs => ⟨hs, List.suffix_refl _⟩
  | check next ih => exact fun hs => ih hs.check
  | hostCall call reach inner next ihInner ihNext =>
      intro s hs
      obtain ⟨hcall, hsuffix⟩ := keeps_hostCall version call reach ihInner hs
      obtain ⟨hnext, hsuffix'⟩ := ihNext hcall
      exact ⟨hnext, hsuffix.trans hsuffix'⟩

/-- At the start the bottom transaction counts what it has carried over. -/
theorem accounted_start (previous : List Int32) (stale : List (Fin previous.length)) :
    Accounted (start previous stale).meter.getBottomTx (carried previous stale)
      (start previous stale) := by
  have hinRange : ∀ tx ∈ (start previous stale).meter.transactionStack,
      tx < (start previous stale).meter.contractStep.length := by
    intro tx htx
    simp only [start, List.mem_cons, List.mem_map, List.length_append,
      List.length_singleton] at htx ⊢
    rcases htx with rfl | ⟨i, -, rfl⟩
    · exact Nat.lt_succ_self _
    · exact Nat.lt_succ_of_lt i.isLt
  have hlast : (start previous stale).meter.transactionStack.getLast? =
      some (start previous stale).meter.getBottomTx := by
    rw [Meter.getBottomTx, List.getLastD_eq_getLast?]
    simp [start, List.getLast?_cons]
  refine ⟨hlast, hinRange, ?_, by simp [start]⟩
  have hlt := hinRange _ (List.mem_of_getLast? hlast)
  have haccount : account (carried previous stale) (start previous stale).tally =
      carried previous stale := by
    simp [account, Tally.work, Tally.missed, Tally.surplus, start]
  rw [haccount, carried, Meter.compared, Int32.ofInt_toInt, List.getD_eq_getElem?_getD,
    List.getElem?_eq_getElem hlt, Option.getD_some]

/-- What is compared at every check point. -/
theorem toInt_of_mem_checkPoints {version : ℕ} {previous : List Int32}
    {stale : List (Fin previous.length)} {work : Work} {seen : Seen}
    (hseen : seen ∈ checkPoints version previous stale work) :
    seen.contractStep.toInt = account (carried previous stale) seen.tally -
      2 ^ 32 * overflows (account (carried previous stale) seen.tally) := by
  rw [(keeps_run _ version _ work (accounted_start previous stale)).1.seen seen hseen,
    toInt_ofInt_eq]

/-- **The work is metered as a whole exactly when what is missed at a check point is made
up for.**  What is missed is a hundred for every `storageLoad` of a contract that does not
run in the bottom transaction and for every host call whose arguments were refused, and
`2 ^ 32` for every overflow; what makes up for it is what the bottom transaction carried
over and nine hundred for every old query. -/
theorem metered_iff (version : ℕ) (previous : List Int32) (stale : List (Fin previous.length))
    (work : Work) :
    (∀ seen ∈ checkPoints version previous stale work,
        (seen.tally.checks + 100 * seen.tally.calls : ℤ) ≤ seen.contractStep.toInt) ↔
      ∀ seen ∈ checkPoints version previous stale work,
        seen.tally.missed + 2 ^ 32 * overflows (account (carried previous stale) seen.tally) ≤
          carried previous stale + seen.tally.surplus := by
  refine forall₂_congr fun seen hseen => ?_
  rw [toInt_of_mem_checkPoints hseen]
  generalize overflows (account (carried previous stale) seen.tally) = wraps
  rw [account, Tally.work]
  constructor <;> intro h <;> omega

/-! ## Versions with frames of their own -/

/-- No call counts twice as missed, and from version 1002 on there are no old queries. -/
def Tally.Fair (version : ℕ) (t : Tally) : Prop :=
  t.refused + t.nestedLoads ≤ t.calls ∧ (version > 1001 → t.oldQueries = 0)

/-- It was so at every check point, and is so now. -/
def Run.Fair (version : ℕ) (s : Run) : Prop :=
  s.tally.Fair version ∧ ∀ seen ∈ s.seen, seen.tally.Fair version

namespace Run.Fair

variable {version : ℕ} {s : Run}

theorem check (hs : s.Fair version) : s.check.Fair version := by
  refine ⟨hs.1, fun seen hseen => ?_⟩
  rcases List.mem_append.mp hseen with hseen | hseen
  · exact hs.2 seen hseen
  · rw [List.mem_singleton.mp hseen]
    exact hs.1

theorem charge (hs : s.Fair version) (call : HostCall) : (s.charge version call).Fair version := by
  refine ⟨⟨?_, fun hversion => ?_⟩, hs.2⟩
  · have hle := hs.1.1
    simp only [Run.charge]
    split_ifs <;> omega
  · simp only [Run.charge, hs.1.2 hversion, hversion, not_true_eq_false, and_false, if_false]

theorem hostCall (hs : s.Fair version) (call : HostCall) (reach : Reach) {inner : Run → Run}
    (hinner : ∀ {s : Run}, s.Fair version → (inner s).Fair version) :
    (s.hostCall version call reach inner).Fair version := by
  have hcharge := hs.charge call
  unfold Run.hostCall
  cases reach with
  | refused =>
      have hle := hs.1.1
      refine ⟨⟨?_, hs.1.2⟩, hs.2⟩
      simp only [Run.refuse]
      omega
  | alone => exact hcharge
  | nested stopped =>
      dsimp only
      cases call.frame version with
      | none => exact hcharge
      | plain => exact hinner hcharge
      | again => exact hinner (s := (s.charge version call).map _) hcharge
      | transaction =>
          have hafter := hinner (s := (s.charge version call).map Meter.pushNew) hcharge
          dsimp only
          split_ifs with hstopped
          · exact hafter
          · exact hafter

theorem run (work : Work) (hs : s.Fair version) : (work.run version s).Fair version := by
  induction work generalizing s with
  | done => exact hs
  | check next ih => exact ih hs.check
  | hostCall call reach inner next ihInner ihNext =>
      exact ihNext (hs.hostCall call reach ihInner)

end Run.Fair

/-- From version 1002 on, with nothing stale on the stack, the work is metered as a whole
exactly when it has no `storageLoad` above the bottom transaction and no refused call before
a check point, and the counter has not overflowed. -/
theorem metered_iff_of_gt_1001 {version : ℕ} (hversion : version > 1001)
    (previous : List Int32) (work : Work) :
    (∀ seen ∈ checkPoints version previous [] work,
        (seen.tally.checks + 100 * seen.tally.calls : ℤ) ≤ seen.contractStep.toInt) ↔
      ∀ seen ∈ checkPoints version previous [] work,
        seen.tally.nestedLoads = 0 ∧ seen.tally.refused = 0 ∧
          seen.tally.checks + 100 * seen.tally.calls < 2 ^ 31 := by
  have hcarried : carried previous [] = 0 := by
    simp [carried, Meter.compared, Meter.getBottomTx, start]
  refine forall₂_congr fun seen hseen => ?_
  have hstart : (start previous []).Fair version := ⟨⟨Nat.zero_le _, fun _ => rfl⟩, by simp [start]⟩
  obtain ⟨hle, hold⟩ := (hstart.run work).2 seen hseen
  have hold := hold hversion
  rw [toInt_of_mem_checkPoints hseen, hcarried]
  simp only [overflows, account, Tally.work, Tally.missed, Tally.surplus, hold, Nat.cast_zero,
    mul_zero, add_zero, zero_add]
  omega

/-- A contract that is called loads from its storage before its first check point: two host
calls and one check point, of which 101 steps are counted. -/
theorem nested_load_unmetered :
    checkPoints 1003 [] []
        (.hostCall .payCoin (.nested false)
          (.hostCall .storageLoad .alone .done (.check .done)) .done) =
        [⟨101, { checks := 1, calls := 2, nestedLoads := 1 }⟩] ∧
      ¬ ∀ seen ∈ checkPoints 1003 [] []
        (.hostCall .payCoin (.nested false)
          (.hostCall .storageLoad .alone .done (.check .done)) .done),
        (seen.tally.checks + 100 * seen.tally.calls : ℤ) ≤ seen.contractStep.toInt := by
  have hseen : checkPoints 1003 [] []
      (.hostCall .payCoin (.nested false)
        (.hostCall .storageLoad .alone .done (.check .done)) .done) =
      [⟨101, { checks := 1, calls := 2, nestedLoads := 1 }⟩] := by decide
  refine ⟨hseen, fun hmetered => ?_⟩
  rw [hseen] at hmetered
  exact absurd (hmetered _ (List.mem_singleton_self _)) (by decide)

end Metering

end CegChain
