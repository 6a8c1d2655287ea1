import CegChain.Ledger.AssetOperations
import CegChain.Ledger.Turns

/-!
# Assets are conserved

Blocks of transactions with operations on assets.  Between two transactions the root of a
block is `Settled`: what it reads holds the same as what it has committed.  A transaction
that succeeds shifts the holdings by what it issued (`turned_applyCharged`), one that is
refused, fails or expires leaves each of them.  Writing the block to the tree puts the
holdings under the bytes of their addresses and deletes the entries of amount 0
(`totalHeld_commit`), so over any chain of blocks the holdings of an asset add up to what
there was and what was issued.
-/

namespace CegChain

open Layers AtomMap Totals LedgerContext LedgerFrm

/-- A transaction of operations on assets. -/
structure TransactionEnv.OnAssets (lib : Library) (lcl : Closed) (env : TransactionEnv) :
    Prop where
  source : Canonical env.transaction.sourceAddress
  operations : ∀ ope ∈ env.transaction.operations, ope.OnAssets lib lcl env.transaction

/-- What the operations of a transaction issue of an asset. -/
def Transaction.issued (tran : Transaction) (key : AssetKey) : ℤ :=
  (tran.operations.map fun ope => ope.issued tran key).sum

/-- The root of a block between two transactions. -/
structure Settled (lcl : Closed) (c : LedgerContext) : Prop where
  order : InOrder lcl c
  proper : Proper lcl (shown lcl c.data)
  held : ∀ key address, held key (shown lcl c.data) address = held key (c.reads lcl) address

/-- The block went on to a settled state, with its holdings shifted. -/
structure Turned (lcl : Closed) (c c' : LedgerContext) (issued : AssetKey → ℤ) : Prop where
  settled : Settled lcl c'
  shifts : ∀ key, Shifts (CegChain.held key (c.reads lcl)) (CegChain.held key (c'.reads lcl))
    (issued key)

/-- The block went on to a settled state, with its holdings as they were. -/
structure Unmoved (lcl : Closed) (c c' : LedgerContext) : Prop where
  settled : Settled lcl c'
  held : ∀ key address, CegChain.held key (c'.reads lcl) address =
    CegChain.held key (c.reads lcl) address

variable {lib : Library} {lcl : Closed} {rt : Runtime} {c c' c'' : LedgerContext}
  {env : TransactionEnv} {address : Address}

theorem Unmoved.turned (hunmoved : Unmoved lcl c c') : Turned lcl c c' 0 :=
  ⟨hunmoved.settled, fun key => .of_eq (hunmoved.held key)⟩

theorem Settled.quiet (hsettled : Settled lcl c) (hquiet : Quiet lcl c c') : Unmoved lcl c c' := by
  refine ⟨⟨hquiet.order, ?_, fun key address => ?_⟩, hquiet.held⟩
  · rw [hquiet.data]
    exact hsettled.proper
  · rw [hquiet.data, hquiet.held]
    exact hsettled.held key address

/-- Only the environment matters. -/
theorem Settled.of_environment (hsettled : Settled lcl c)
    (henvironment : c'.environment = c.environment) : Unmoved lcl c c' :=
  hsettled.quiet (.of_environment hsettled.order henvironment)

theorem Unmoved.trans (hfirst : Unmoved lcl c c') (hsecond : Unmoved lcl c' c'') :
    Unmoved lcl c c'' :=
  ⟨hsecond.settled, fun key address =>
    (hsecond.held key address).trans (hfirst.held key address)⟩

/-- A commit settles the root. -/
theorem InOrder.unmoved_commit (horder : InOrder lcl c) : Unmoved lcl c (c.commit 0) := by
  refine ⟨⟨horder.commit, ?_, fun key address => ?_⟩, fun key address => ?_⟩
  · rw [horder.spelled.shown_commit]
    exact horder.proper
  · rw [horder.spelled.shown_commit, horder.spelled.reads_commit]
  · rw [horder.spelled.reads_commit]

theorem Quiet.unmoved_commit (hquiet : Quiet lcl c c') : Unmoved lcl c (c'.commit 0) :=
  ⟨hquiet.order.unmoved_commit.settled, fun key address =>
    (hquiet.order.unmoved_commit.held key address).trans (hquiet.held key address)⟩

/-- So does a commit after which the buffer is cleared. -/
theorem Shifted.turned_commit {issued : AssetKey → ℤ} (hshifted : Shifted lcl c c' issued)
    (henvironment : c''.environment = (c'.commit 0).environment) : Turned lcl c c'' issued := by
  have hcommit := hshifted.order.unmoved_commit
  have hend := hcommit.settled.of_environment henvironment
  refine ⟨hend.settled, fun key => ?_⟩
  exact (hshifted.shifts key).congr (fun _ => rfl) fun address =>
    (hcommit.trans hend).held key address

/-! ## A transaction -/

namespace TransactionFrm

theorem quiet_validForApply (horder : InOrder lcl c)
    (hsource : Canonical env.transaction.sourceAddress) (lib : Library) :
    Quiet lcl c (validForApply lib lcl env 0 c).2 := by
  have hread := horder.getEntry hsource
  unfold validForApply
  split
  · rcases hget : c.getEntry lcl 0 env.transaction.sourceAddress with ⟨_ | account, c₁⟩
    · rw [hget] at hread
      exact hread
    · rw [hget] at hread
      dsimp only
      split
      · exact hread
      · split <;> exact hread
  · exact horder.quiet

theorem quiet_setTotalFee (horder : InOrder lcl c) (totalFee : Int64) :
    Quiet lcl c { c with totalFee := totalFee } :=
  .of_environment horder rfl

theorem quiet_setBalance (horder : InOrder lcl c) {account : AccountFrm}
    (hderef : c.deref 0 address = some account) (balance : Int64) :
    Quiet lcl c (c.modifyEntry 0 address (·.setBalance balance)) :=
  horder.modifyEntry hderef _ rfl rfl rfl

theorem quiet_payFee (horder : InOrder lcl c)
    (hsource : Canonical env.transaction.sourceAddress) :
    Quiet lcl c (payFee lcl env 0 c).2 := by
  have hread := horder.getEntry hsource
  dsimp only [payFee]
  rcases hget : c.getEntry lcl 0 env.transaction.sourceAddress with ⟨_ | account, c₁⟩
  · rw [hget] at hread
    exact hread
  · rw [hget] at hread
    have hderef := deref_getEntry hget
    dsimp only
    split
    · exact hread
    · rename_i newTotalFee _
      have hfee := hread.trans (quiet_setTotalFee hread.order newTotalFee)
      split
      · exact hfee
      · exact hfee.trans (quiet_setBalance hfee.order hderef _)

theorem quiet_nonceIncrease (horder : InOrder lcl c)
    (hsource : Canonical env.transaction.sourceAddress) :
    Quiet lcl c (nonceIncrease lcl env 0 c) := by
  have hread := horder.getEntry hsource
  unfold nonceIncrease
  rcases hget : c.getEntry lcl 0 env.transaction.sourceAddress with ⟨_ | account, c₁⟩
  · rw [hget] at hread
    exact hread
  · rw [hget] at hread
    exact hread.trans (hread.order.modifyEntry (deref_getEntry hget) _ rfl rfl rfl)

theorem quiet_returnFee (horder : InOrder lcl c)
    (hsource : Canonical env.transaction.sourceAddress) (result : ErrCode) (gas : Int64) :
    Quiet lcl c (returnFee lcl env result gas 0 c) := by
  have hread := horder.getEntry hsource
  dsimp only [returnFee]
  split
  · exact horder.quiet
  · split
    · exact horder.quiet
    · split
      · exact horder.quiet
      · rcases hget : c.getEntry lcl 0 env.transaction.sourceAddress with ⟨_ | account, c₁⟩
        · rw [hget] at hread
          exact hread
        · rw [hget] at hread
          have hderef := deref_getEntry hget
          dsimp only
          split
          · exact hread
          · rename_i totalFee _
            have hfee := hread.trans (quiet_setTotalFee hread.order totalFee)
            split
            · exact hfee
            · exact hfee.trans (quiet_setBalance hfee.order hderef _)

/-- The operations, one after another. -/
theorem shifted_applyOperations (horder : InOrder lcl c) {execute : ℕ → Execution} {index : ℕ}
    {operations : List Operation}
    (honly : ∀ ope ∈ operations, ope.OnAssets lib lcl env.transaction)
    (happly : applyOperations lib lcl execute env 0 false index operations c = (.success, c')) :
    Shifted lcl c c' fun key => (operations.map fun ope => ope.issued env.transaction key).sum := by
  induction operations generalizing index c with
  | nil =>
      obtain ⟨-, rfl⟩ := Prod.mk.inj happly
      exact horder.quiet.shifted
  | cons ope operations ih =>
      have hope := honly ope List.mem_cons_self
      have hsigned := OperationFrm.quiet_checkSignature horder hope.canonical lib
      dsimp only [applyOperations] at happly
      rw [if_neg Bool.false_ne_true] at happly
      split at happly
      · rename_i c₁ hcheck
        rw [hcheck] at hsigned
        split at happly
        · rename_i c₂ hdone
          have hfirst := OperationFrm.shifted_apply hsigned.order hope hdone
          have hrest := ih hfirst.order
            (fun other hmem => honly other (List.mem_cons_of_mem _ hmem)) happly
          refine (hsigned.shifted.trans (hfirst.trans hrest)).congr fun key => ?_
          simp
        · rename_i hfailed
          exact absurd happly (hfailed c')
      · rename_i hfailed
        exact absurd happly (hfailed c')

end TransactionFrm

namespace LedgerFrm

theorem unmoved_charge (horder : InOrder lcl c)
    (hsource : Canonical env.transaction.sourceAddress) : Unmoved lcl c (charge lcl env c) := by
  have hpush : Quiet lcl c (c.push { env := env }) := .of_environment horder rfl
  have hnonce := hpush.trans (TransactionFrm.quiet_nonceIncrease hpush.order hsource)
  have hcommit := hnonce.unmoved_commit
  exact hcommit.trans (hcommit.settled.of_environment rfl)

theorem shifted_execute (horder : InOrder lcl c) (honly : env.OnAssets lib lcl)
    (hexecute : execute lib lcl rt env c = (.success, c')) :
    Shifted lcl c c' env.transaction.issued := by
  unfold execute TransactionFrm.apply at hexecute
  split at hexecute
  · rename_i c₁ hgas
    have hbooks : c₁.environment = c.environment := by
      have hsnd := congrArg (fun r : ErrCode × LedgerContext => r.2.environment) hgas
      dsimp only at hsnd
      rw [← hsnd]
      unfold LedgerContext.addActualFee
      dsimp only
      split
      · rfl
      · split
        · rfl
        · split <;> rfl
    have hquiet := Quiet.of_environment horder hbooks
    refine (hquiet.shifted.trans (TransactionFrm.shifted_applyOperations hquiet.order
      honly.operations hexecute)).congr fun key => ?_
    simp [Transaction.issued]
  · rename_i hfailed
    exact absurd hexecute (hfailed c')

/-- The end of a transaction that succeeded. -/
theorem turned_settle {issued : AssetKey → ℤ} (hshifted : Shifted lcl c c' issued)
    (hsource : Canonical env.transaction.sourceAddress) (size : ℕ) (result : ErrCode) :
    Turned lcl c (settle lcl env size (some result) c') issued := by
  have hrefund := TransactionFrm.quiet_returnFee hshifted.order hsource result (ownGas size c')
  refine ((hshifted.trans hrefund.shifted).congr fun key => ?_).turned_commit
    (clearChangeBuf_commit _)
  simp

/-- The end of a transaction that did not: the charge is what is left. -/
theorem unmoved_settle_none (horder : InOrder lcl c)
    (hsource : Canonical env.transaction.sourceAddress) (lib : Library) (rt : Runtime)
    (size : ℕ) :
    Unmoved lcl c (settle lcl env size none (execute lib lcl rt env (charge lcl env c)).2) := by
  have hcharge := unmoved_charge horder hsource
  refine hcharge.trans (hcharge.settled.of_environment ?_)
  exact (environment_settle_none horder.rooted lib rt env size).trans
    (clearChangeBuf_commit (TransactionFrm.nonceIncrease lcl env 0 (c.push { env := env })))

/-- What becomes of the holdings when a transaction ends with this status. -/
def Ends (lcl : Closed) (env : TransactionEnv) (c c' : LedgerContext)
    (status : Option TxStatus) : Prop :=
  if status = some .succeeded then Turned lcl c c' env.transaction.issued else Unmoved lcl c c'

theorem Ends.of_unmoved {status : Option TxStatus} (hunmoved : Unmoved lcl c c')
    (hstatus : status ≠ some .succeeded) : Ends lcl env c c' status := by
  rw [Ends, if_neg hstatus]
  exact hunmoved

theorem ends_succeeded (horder : InOrder lcl c) (honly : env.OnAssets lib lcl)
    (hcode : (execute lib lcl rt env (charge lcl env c)).1 = .success) (size : ℕ)
    (result : ErrCode) :
    Ends lcl env c
      (settle lcl env size (some result) (execute lib lcl rt env (charge lcl env c)).2)
      (some .succeeded) := by
  have hcharge := unmoved_charge horder honly.source
  have hexecute := shifted_execute hcharge.settled.order honly
    (Prod.ext hcode rfl : execute lib lcl rt env (charge lcl env c) =
      (.success, (execute lib lcl rt env (charge lcl env c)).2))
  have hturned := turned_settle hexecute honly.source size result
  rw [Ends, if_pos rfl]
  exact ⟨hturned.settled, fun key =>
    (hturned.shifts key).congr (fun address => (hcharge.held key address).symm) fun _ => rfl⟩

theorem ends_applyCharged (horder : InOrder lcl c) (honly : env.OnAssets lib lcl)
    (rt : Runtime) :
    Ends lcl env c (applyCharged lib lcl rt env c).2 (some (applyCharged lib lcl rt env c).1) := by
  have hnone := unmoved_settle_none horder honly.source lib rt c.transactionStack.length
  dsimp only [applyCharged]
  split
  · exact .of_unmoved hnone nofun
  · split
    · exact .of_unmoved hnone nofun
    · rename_i hcode
      exact ends_succeeded horder honly (not_not.mp hcode) ..

theorem ends_followCharged (horder : InOrder lcl c) (honly : env.OnAssets lib lcl)
    (rt : Runtime) (listed : Bool) :
    Ends lcl env c (followCharged lib lcl rt listed env c).2
      (some (followCharged lib lcl rt listed env c).1) := by
  dsimp only [followCharged]
  split
  · -- listed as expired: the commit of the charge has left nothing to clear
    have hcharge := unmoved_charge horder honly.source
    refine .of_unmoved (hcharge.trans (hcharge.settled.of_environment ?_)) nofun
    exact clearChangeBuf_commit
      (TransactionFrm.nonceIncrease lcl env 0 (c.push { env := env }))
  · split
    · exact .of_unmoved
        (unmoved_settle_none horder honly.source lib rt c.transactionStack.length) nofun
    · rename_i hcode
      exact ends_succeeded horder honly (not_not.mp hcode) ..

/-- A read or a charge before the transaction is applied. -/
theorem Ends.of_quiet {status : Option TxStatus} (hquiet : Quiet lcl c c')
    (hends : Ends lcl env c' c'' status) : Ends lcl env c c'' status := by
  unfold Ends at hends ⊢
  split at hends
  · rename_i hstatus
    rw [if_pos hstatus]
    exact ⟨hends.settled, fun key =>
      (hends.shifts key).congr (fun address => (hquiet.held key address).symm) fun _ => rfl⟩
  · rename_i hstatus
    rw [if_neg hstatus]
    exact ⟨hends.settled, fun key address =>
      (hends.held key address).trans (hquiet.held key address)⟩

/-- **One transaction of a block**, however the block is executed. -/
theorem ends_turn (hsettled : Settled lcl c) (honly : env.OnAssets lib lcl) (mode : Mode)
    (rt : Runtime) (listed : Bool) :
    Ends lcl env c (turn lib lcl mode rt listed env c).2
      (turn lib lcl mode rt listed env c).1 := by
  have hadmitted : Quiet lcl c (admitted lib lcl mode env c).2 := by
    cases mode with
    | follow => exact hsettled.order.quiet
    | _ => exact TransactionFrm.quiet_validForApply hsettled.order honly.source lib
  unfold turn
  rcases hvalid : admitted lib lcl mode env c with ⟨_ | _, c₁⟩
  · rw [hvalid] at hadmitted
    exact hsettled.quiet hadmitted
  · rw [hvalid] at hadmitted
    have hpaid := hadmitted.trans (TransactionFrm.quiet_payFee hadmitted.order honly.source)
    dsimp only
    rcases hpay : TransactionFrm.payFee lcl env 0 c₁ with ⟨_ | _, c₂⟩
    · rw [hpay] at hpaid
      exact hsettled.quiet hpaid
    · rw [hpay] at hpaid
      dsimp only
      cases mode with
      | follow => exact (ends_followCharged hpaid.order honly rt listed).of_quiet hpaid
      | _ => exact (ends_applyCharged hpaid.order honly rt).of_quiet hpaid

end LedgerFrm

/-! ## The turns of a block -/

/-- What the turn issued of an asset. -/
def Turn.issued (t : Turn) (key : AssetKey) : ℤ :=
  if t.status = some .succeeded then t.env.transaction.issued key else 0

namespace LedgerFrm

theorem Ends.turned {t : Turn} (hends : Ends lcl t.env t.before t.after t.status) :
    Turned lcl t.before t.after t.issued := by
  unfold Ends at hends
  unfold Turn.issued
  split at hends
  · rename_i hstatus
    simp only [hstatus, if_true]
    exact hends
  · rename_i hstatus
    simp only [hstatus, if_false]
    exact hends.turned

/-- **A block up to its rewards.** -/
theorem turned_turns (hsettled : Settled lcl c) {txs : List TransactionEnv}
    (honly : ∀ env ∈ txs, env.OnAssets lib lcl) (mode : Mode) (rt : Runtime)
    (expireTxs : Finset ℤ) (i : ℕ) :
    Turned lcl c (lastState c (turns lib lcl mode rt expireTxs i txs c))
        (fun key => ((turns lib lcl mode rt expireTxs i txs c).map (Turn.issued · key)).sum) ∧
      ∀ t ∈ turns lib lcl mode rt expireTxs i txs c,
        Settled lcl t.before ∧ Ends lcl t.env t.before t.after t.status := by
  have hend : ∀ {c : LedgerContext}, Settled lcl c → Turned lcl c c fun _ => 0 :=
    fun hsettled => ⟨hsettled, fun _ => .of_eq fun _ => rfl⟩
  induction txs generalizing i c with
  | nil => exact ⟨hend hsettled, fun t hmem => absurd hmem List.not_mem_nil⟩
  | cons env txs ih =>
      rw [turns]
      split
      · exact ⟨hend hsettled, fun t hmem => absurd hmem List.not_mem_nil⟩
      · have hfirst := ends_turn hsettled (honly env List.mem_cons_self) mode rt
          (decide ((i : ℤ) ∈ expireTxs))
        dsimp only
        generalize hturn : turn lib lcl mode rt (decide ((i : ℤ) ∈ expireTxs)) env c = r at hfirst
        have hturned := hfirst.turned (t := ⟨env, c, r.1, r.2⟩)
        -- the rest of the turns, none when the loop stops here
        have hrest : ∃ rest : List Turn,
            (if stopsAfter rt i r.1 mode then []
              else turns lib lcl mode rt expireTxs (i + 1) txs r.2) = rest ∧
            Turned lcl r.2 (lastState r.2 rest) (fun key => (rest.map (Turn.issued · key)).sum) ∧
            ∀ t ∈ rest, Settled lcl t.before ∧ Ends lcl t.env t.before t.after t.status := by
          split
          · exact ⟨[], rfl, hend hturned.settled, fun t hmem => absurd hmem List.not_mem_nil⟩
          · exact ⟨_, rfl, ih hturned.settled
              (fun other hmem => honly other (List.mem_cons_of_mem _ hmem)) (i + 1)⟩
        obtain ⟨rest, hrest, hlast, hall⟩ := hrest
        rw [hrest]
        refine ⟨⟨hlast.settled, fun key => ?_⟩, fun t hmem => ?_⟩
        · rw [List.map_cons, List.sum_cons]
          exact (hturned.shifts key).trans (hlast.shifts key)
        · rcases List.mem_cons.mp hmem with rfl | hmem
          · exact ⟨hsettled, hfirst⟩
          · exact hall t hmem

/-! ## Rewards -/

theorem canonical_contractDposAddress : Canonical contractDposAddress := by
  decide +kernel

theorem quiet_rewardEach (horder : InOrder lcl c) (averageFee : Int64)
    {validators : List Address} (hvalidators : ∀ address ∈ validators, Canonical address) :
    Quiet lcl c (rewardEach lcl averageFee validators c).2 := by
  induction validators generalizing c with
  | nil => exact horder.quiet
  | cons address validators ih =>
      have haddress := hvalidators address List.mem_cons_self
      have hread := horder.getEntry haddress
      have hrest := fun {c : LedgerContext} (horder : InOrder lcl c) =>
        ih horder fun other hmem => hvalidators other (List.mem_cons_of_mem _ hmem)
      dsimp only [rewardEach]
      rcases hget : c.getEntry lcl 0 address with ⟨_ | account, c₁⟩
      · rw [hget] at hread
        have hnone : c₁.reads lcl address = none := by
          have hview : (c.getEntry lcl 0 address).2.reads lcl address = c.reads lcl address :=
            view_getEntry horder.wide address address
          have hfound : (c.getEntry lcl 0 address).1 = c.reads lcl address :=
            getEntry_zero_fst horder.wide address
          rw [hget] at hfound hview
          exact hview.trans hfound.symm
        have hnew : Quiet lcl c₁ (c₁.addEntry 0 address (.creatAccountFrm address 0)) :=
          hread.order.addEntry hnone haddress rfl rfl rfl
        have hadd := hread.trans hnew
        simp only [Option.getD_none, if_true]
        split
        · exact hadd
        · rename_i newBalance _
          have hset := hadd.trans (TransactionFrm.quiet_setBalance hadd.order
            (deref_addEntry hread.order.wide ..) newBalance)
          exact hset.trans (hrest hset.order)
      · rw [hget] at hread
        simp only [Option.getD_some, reduceCtorEq, if_false]
        split
        · exact hread
        · rename_i newBalance _
          have hset := hread.trans (TransactionFrm.quiet_setBalance hread.order
            (deref_getEntry hget) newBalance)
          exact hset.trans (hrest hset.order)

theorem quiet_allocateRewardDirectly (horder : InOrder lcl c)
    (hvalidators : ∀ validators ∈ lcl.validatorsOfLast, ∀ address ∈ validators,
      Canonical address) (seq : ℤ) (totalReward : Int64) :
    Quiet lcl c (allocateRewardDirectly lcl seq totalReward c).2 := by
  dsimp only [allocateRewardDirectly]
  split
  · exact horder.quiet
  · rename_i validators heq
    split
    · exact horder.quiet
    · have heach := quiet_rewardEach horder (totalReward / Int64.ofNat validators.length)
        (hvalidators validators heq)
      split
      · rename_i c₁ hrewards
        rw [hrewards] at heach
        exact heach
      · rename_i c₁ hrewards
        rw [hrewards] at heach
        split
        · split
          · exact heach.trans (.of_environment heach.order rfl)
          · rename_i address account hrandom
            obtain ⟨other, -, hother⟩ := Option.bind_eq_some_iff.mp hrandom
            obtain ⟨found, hderef, heq⟩ := Option.map_eq_some_iff.mp hother
            obtain ⟨rfl, rfl⟩ := Prod.mk.inj heq
            split
            · exact heach
            · exact heach.trans (TransactionFrm.quiet_setBalance heach.order hderef _)
        · exact heach

/-- Rewards are paid in coins. -/
theorem unmoved_allocateReward (hsettled : Settled lcl c)
    (hvalidators : ∀ validators ∈ lcl.validatorsOfLast, ∀ address ∈ validators,
      Canonical address) (seq : ℤ) : Unmoved lcl c (allocateReward lcl seq c).2 := by
  have hdirect : ∀ {c' : LedgerContext} (totalReward : Int64), Quiet lcl c c' →
      Unmoved lcl c (commitReward (allocateRewardDirectly lcl seq totalReward c')).2 := by
    intro c' totalReward hquiet
    have hrewards := hquiet.trans
      (quiet_allocateRewardDirectly hquiet.order hvalidators seq totalReward)
    unfold commitReward
    split
    · rename_i heq
      rw [heq] at hrewards
      exact hrewards.unmoved_commit
    · rename_i heq
      rw [heq] at hrewards
      exact hsettled.quiet hrewards
  simp only [allocateReward]
  split
  · exact hsettled.quiet hsettled.order.quiet
  · split
    · rename_i hversion
      have hdpos : lcl.validatorAddress = contractDposAddress := if_pos hversion
      have hcanonical : Canonical lcl.validatorAddress := hdpos ▸ canonical_contractDposAddress
      have hread := hsettled.order.getEntry hcanonical
      split
      · rename_i account c₁ hget
        rw [hget] at hread
        split
        · exact hsettled.quiet hread
        · exact (hread.trans (TransactionFrm.quiet_setBalance hread.order
            (deref_getEntry hget) _)).unmoved_commit
      · rename_i c₁ hget
        rw [hget] at hread
        exact hdirect _ hread
    · exact hdirect _ hsettled.order.quiet

end LedgerFrm

end CegChain
