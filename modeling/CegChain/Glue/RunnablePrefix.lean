import CegChain.Glue.TopTransaction
import CegChain.Ledger.Admission

/-!
# Runnable transactions

The pool of a node and the ledger that it has closed last.  `OnTransaction` imports with
the nonce that the account has in the ledger, and `OnValueCommited` tells the pool which
transactions a ledger has taken; a ledger that is received by synchronization changes the
accounts and does not touch the pool.

`TopTransaction` picks rightly when the pool has the nonces of the ledger and no
transaction with a nonce that is used (`Fresh`), whatever the order of the queue.
`run_picks_in_row`: this stays so as long as a ledger that is agreed on takes the
transactions of the accounts in the pool one by one, and a ledger that is received takes
none.  `stale_after_synchronization` is a run in which it takes one.
-/

namespace CegChain

/-- The nonce of an account in the last closed ledger. -/
def Closed.nonceOf (lcl : Closed) (address : Address) : ℤ :=
  ((lcl.accountFromDB address).map AccountFrm.nonce).getD 0

/-- `GlueManager` with the last closed ledger. -/
structure GlueNode where
  lcl : Closed
  /-- `tx_pool_`. -/
  pool : TransactionQueue

namespace GlueNode

open TransactionQueue

/-- What changes the pool or the ledger. -/
inductive Event where
  /-- `OnTransaction`. -/
  | transaction (tx : QueuedTransaction)
  /-- `OnValueCommited`, which leaves the ledger `lcl`. -/
  | valueCommitted (value : ConsensusValue) (lcl : Closed)
  /-- `OnReceiveLedgers`, which leaves the ledger `lcl`. -/
  | receiveLedgers (lcl : Closed)
  /-- `StartConsensus` removes the transactions that the proposal has dropped. -/
  | dropTxs (txs : List TransactionEnv)
  /-- `OnTimer`. -/
  | timer (currentTime : ℤ)

variable (cfg : PoolConfig) (selfChainId : ℤ)

/-- `OnTransaction`: a transaction that is not in the pool and is valid is imported. -/
def onTransaction (tx : QueuedTransaction) (n : GlueNode) : Option GlueNode :=
  match n.pool.queueByHash.lookup (tx.contentHash cfg.lib) with
  | some _ => some n
  | none =>
      match TransactionFrm.checkValid cfg.lib n.lcl selfChainId (-1) true tx.env with
      | (.success, some nonce) =>
          (importTx cfg tx nonce n.pool).map fun r => { n with pool := r.1 }
      | _ => some n

/-- One event; nothing if the call does not return. -/
def step (n : GlueNode) : Event → Option GlueNode
  | .transaction tx => onTransaction cfg selfChainId tx n
  | .valueCommitted value lcl => some ⟨lcl, (removeTxs cfg true value.txset n.pool).1⟩
  | .receiveLedgers lcl => some { n with lcl := lcl }
  | .dropTxs txs => some { n with pool := (removeTxs cfg false txs n.pool).1 }
  | .timer currentTime =>
      (checkTimeoutAndDel cfg currentTime n.pool).map fun r => { n with pool := r.1 }

/-- A run of a node that starts with this ledger. -/
def run (lcl : Closed) (events : List Event) : Option GlueNode :=
  events.foldlM (step cfg selfChainId) ⟨lcl, {}⟩

/-- The transactions that come in. -/
def received (events : List Event) (tx : QueuedTransaction) : Prop :=
  .transaction tx ∈ events

/-- The nonces of the transactions of an account in a set. -/
def noncesOf (address : Address) (set : List TransactionEnv) : List ℤ :=
  (set.filter fun env => env.transaction.sourceAddress = address).map fun env =>
    env.transaction.nonce

/-- `TopTransaction` picks for every account the transactions that come next in the ledger. -/
def PicksInRow (lib : Library) (n : GlueNode) (limit : ℕ) : Prop :=
  ∀ address, ∃ count, noncesOf address (topTransaction lib n.pool limit) =
    (List.range count).map fun k : ℕ => n.lcl.nonceOf address + 1 + k

/-- The transactions have taken the nonce of the account from `before` to `after`, one by one
up to the largest of them. -/
def TakesOneByOne (address : Address) (txs : List TransactionEnv) (before after : ℤ) : Prop :=
  after = closedNonce address txs before ∧ ∀ nonce, before < nonce → nonce ≤ after →
    ∃ env ∈ txs, env.transaction.sourceAddress = address ∧ env.transaction.nonce = nonce

/-- For the accounts whose transactions stay in the pool, a ledger that was agreed on has taken
the transactions of its value one by one, and a ledger that was received has not changed
the nonce. -/
def Follows (n : GlueNode) : Event → Prop
  | .valueCommitted value lcl => ∀ t ∈ n.pool.txs,
      (∀ env ∈ value.txset, ¬ (env.transaction.sourceAddress = t.sourceAddress ∧
        env.transaction.nonce = t.nonce)) →
      TakesOneByOne t.sourceAddress value.txset (n.lcl.nonceOf t.sourceAddress)
        (lcl.nonceOf t.sourceAddress)
  | .receiveLedgers lcl =>
      ∀ t ∈ n.pool.txs, lcl.nonceOf t.sourceAddress = n.lcl.nonceOf t.sourceAddress
  | .transaction _ | .dropTxs _ | .timer _ => True

/-- The pool has the nonces of the ledger, and no transaction whose nonce is used. -/
def Fresh (lcl : Closed) (q : TransactionQueue) : Prop :=
  ∀ t ∈ q.txs, q.nonceOf t.sourceAddress = lcl.nonceOf t.sourceAddress ∧
    lcl.nonceOf t.sourceAddress < t.nonce

section Picks

variable {lib : Library} {lcl : Closed} {q : TransactionQueue} {address : Address}
  {before : List QueuedTransaction} {tx : QueuedTransaction} {known : QueuedTransaction → Prop}

/-! ## What the scan picks -/

/-- What the scan has picked of every account is in a row from the nonce of the ledger on. -/
structure InRow (lib : Library) (lcl : Closed) (q : TransactionQueue)
    (before : List QueuedTransaction) : Prop where
  row : ∀ address, noncesOf address (scan lib q before).set =
    (List.range (noncesOf address (scan lib q before).set).length).map fun k : ℕ =>
      lcl.nonceOf address + 1 + k
  last : ∀ t ∈ q.txs, (scan lib q before).lastSeq q t.sourceAddress =
    lcl.nonceOf t.sourceAddress + (noncesOf t.sourceAddress (scan lib q before).set).length
  picked : ∀ env ∈ (scan lib q before).set, ∃ t ∈ before, t.env = env

theorem noncesOf_append (set : List TransactionEnv) (tx : QueuedTransaction) :
    noncesOf address (set ++ [tx.env]) =
      if tx.sourceAddress = address then noncesOf address set ++ [tx.nonce]
      else noncesOf address set := by
  unfold noncesOf
  split
  · rename_i hsource
    have henv : tx.env.transaction.sourceAddress = address := hsource
    simp [henv, QueuedTransaction.nonce]
  · rename_i hsource
    have henv : tx.env.transaction.sourceAddress ≠ address := hsource
    simp [henv]

/-- A transaction that is picked from a fresh pool has the nonce that comes next. -/
theorem InRow.nonce_eq (hrow : InRow lib lcl q before) (hfresh : Fresh lcl q)
    (hnodup : (q.txs.map fun tx => (tx.sourceAddress, tx.nonce)).Nodup)
    (hplace : before ++ [tx] <+: q.txs) (hpicks : (scan lib q before).Picks q tx) :
    tx.nonce = lcl.nonceOf tx.sourceAddress + 1 +
      (noncesOf tx.sourceAddress (scan lib q before).set).length := by
  have htx : tx ∈ q.txs := hplace.subset (List.mem_append_right _ List.mem_cons_self)
  have habove := (hfresh tx htx).2
  have hnext := hpicks.2
  rw [hrow.last tx htx] at hnext
  by_contra hne
  -- otherwise its nonce is one of those that were picked
  have hmem : tx.nonce ∈ noncesOf tx.sourceAddress (scan lib q before).set := by
    rw [hrow.row]
    refine List.mem_map.mpr ⟨(tx.nonce - (lcl.nonceOf tx.sourceAddress + 1)).toNat, ?_, by omega⟩
    rw [List.mem_range]
    omega
  obtain ⟨env, henv, hnonce⟩ := List.mem_map.mp hmem
  obtain ⟨henvSet, hsource⟩ := List.mem_filter.mp henv
  obtain ⟨t, ht, rfl⟩ := hrow.picked env henvSet
  have hsub : (before ++ [tx]).map (fun tx => (tx.sourceAddress, tx.nonce)) <+:
      q.txs.map fun tx => (tx.sourceAddress, tx.nonce) := hplace.map _
  have hnodup' := hsub.sublist.nodup hnodup
  rw [List.map_append, List.nodup_append] at hnodup'
  refine hnodup'.2.2 (t.sourceAddress, t.nonce) (List.mem_map_of_mem ht)
    (tx.sourceAddress, tx.nonce) (by simp) (Prod.ext ?_ hnonce)
  exact of_decide_eq_true hsource

theorem inRow_of_isPrefix (hfresh : Fresh lcl q)
    (hnodup : (q.txs.map fun tx => (tx.sourceAddress, tx.nonce)).Nodup)
    (hplace : before <+: q.txs) : InRow lib lcl q before := by
  induction before using List.reverseRecOn with
  | nil =>
      refine ⟨fun _ => rfl, fun t ht => ?_, fun env henv => absurd henv List.not_mem_nil⟩
      exact ((hfresh t ht).1).trans (add_zero _).symm
  | append_singleton before tx ih =>
      have hrow := ih ((List.prefix_append _ _).trans hplace)
      by_cases hpicks : (scan lib q before).Picks q tx
      · have hnonce := hrow.nonce_eq hfresh hnodup hplace hpicks
        have hset : (scan lib q (before ++ [tx])).set = (scan lib q before).set ++ [tx.env] := by
          rw [scan_append, topStep_of_picks hpicks]
        have hseqs : (scan lib q (before ++ [tx])).topicSeqs =
            (scan lib q before).topicSeqs.insert tx.sourceAddress tx.nonce := by
          rw [scan_append, topStep_of_picks hpicks]
        refine ⟨fun address => ?_, fun t ht => ?_, fun env henv => ?_⟩
        · rw [hset, noncesOf_append]
          split
          · rename_i hsource
            obtain rfl : tx.sourceAddress = address := hsource
            rw [List.length_append, List.length_singleton, List.range_succ, List.map_append,
              ← hrow.row, List.map_singleton, ← hnonce]
          · exact hrow.row address
        · rw [TopScan.lastSeq, hseqs, hset, noncesOf_append]
          by_cases hsource : tx.sourceAddress = t.sourceAddress
          · rw [if_pos hsource, ← hsource, AList.lookup_insert, List.length_append,
              List.length_singleton, Option.getD_some, hnonce]
            push_cast
            ring
          · rw [if_neg hsource, AList.lookup_insert_ne (Ne.symm hsource)]
            exact hrow.last t ht
        · rw [hset] at henv
          rcases List.mem_append.mp henv with henv | henv
          · obtain ⟨t, ht, heq⟩ := hrow.picked env henv
            exact ⟨t, List.mem_append_left _ ht, heq⟩
          · exact ⟨tx, List.mem_append_right _ List.mem_cons_self,
              (List.mem_singleton.mp henv).symm⟩
      · obtain ⟨hset, hseqs, -⟩ := topStep_set_of_not_picks lib hpicks
        refine ⟨fun address => ?_, fun t ht => ?_, fun env henv => ?_⟩
        · rw [scan_append, hset]
          exact hrow.row address
        · rw [TopScan.lastSeq, scan_append, hset, hseqs]
          exact hrow.last t ht
        · rw [scan_append, hset] at henv
          obtain ⟨t, ht, heq⟩ := hrow.picked env henv
          exact ⟨t, List.mem_append_left _ ht, heq⟩

/-- **From a fresh pool `TopTransaction` picks in a row.** -/
theorem Fresh.picksInRow (hfresh : Fresh lcl q)
    (hnodup : (q.txs.map fun tx => (tx.sourceAddress, tx.nonce)).Nodup) (limit : ℕ) :
    PicksInRow lib ⟨lcl, q⟩ limit := by
  intro address
  obtain ⟨reached, hreached, htop⟩ := exists_reached lib q limit
  refine ⟨(noncesOf address (scan lib q reached).set).length, ?_⟩
  change noncesOf address (topTransaction lib q limit) = _
  rw [htop]
  exact (inRow_of_isPrefix hfresh hnodup hreached.place).row address

/-! ## One event -/

/-- What `Import` leaves: nothing new but the transaction, and the nonces that were there but
for that of its account. -/
theorem importTx_leaves {cfg : PoolConfig} {q' : TransactionQueue} {nonce : ℤ}
    {result : ImportResult} (hcollision : NoCollision cfg.lib known) (hsound : q.Sound cfg known)
    (hlimit : 1 ≤ cfg.accountTxsLimit) (hsize : q.queue.length ≤ cfg.queueLimit)
    (hknown : known tx) (himport : importTx cfg tx nonce q = some (q', result)) :
    ∀ t ∈ q'.txs, (t = tx ∨ t ∈ q.txs) ∧ q'.nonceOf t.sourceAddress =
      Function.update q.nonceOf tx.sourceAddress nonce t.sourceAddress := by
  rcases importPrepare_spec hcollision hsound hlimit tx nonce hsize with
    ⟨q₀, hprepare, -⟩ | ⟨q₀, replace, size, hprepare, hcan⟩
  · obtain ⟨hsub, -, hnonces⟩ := importPrepare_pool hsound hprepare
    rw [importTx, hprepare, Option.bind_some, Option.some.injEq] at himport
    obtain ⟨rfl, -⟩ := Prod.mk.inj himport
    exact fun t ht => ⟨Or.inr ((hsub.map Prod.snd).subset ht), hnonces _⟩
  · obtain ⟨hsub, -, hnonces⟩ := importPrepare_pool hsound hprepare
    rw [importTx, hprepare, Option.bind_some] at himport
    rcases importInsert_shrinks hcollision hcan hknown himport with rfl | hshrinks
    · exact fun t ht => ⟨Or.inr ((hsub.map Prod.snd).subset ht), hnonces _⟩
    · intro t ht
      refine ⟨?_, (hshrinks.nonceOf_eq t ht).trans (hnonces _)⟩
      rcases List.mem_cons.mp (insert_txs.mem_iff.mp (hshrinks.subset t ht)) with rfl | hold
      · exact Or.inl rfl
      · exact Or.inr ((hsub.map Prod.snd).subset hold)

theorem Fresh.shrinks {q' : TransactionQueue} (hfresh : Fresh lcl q) (hshrinks : Shrinks q q') :
    Fresh lcl q' := by
  intro t ht
  obtain ⟨hnonce, habove⟩ := hfresh t (hshrinks.subset t ht)
  exact ⟨(hshrinks.nonceOf_eq t ht).trans hnonce, habove⟩

/-- A valid transaction has a nonce above that of its account in the ledger. -/
theorem checkValid_success {selfChainId lastSeq nonce : ℤ} {checkPriv : Bool}
    {env : TransactionEnv} (hvalid : TransactionFrm.checkValid lib lcl selfChainId lastSeq checkPriv
      env = (.success, some nonce)) :
    nonce = lcl.nonceOf env.transaction.sourceAddress ∧ nonce < env.transaction.nonce := by
  unfold TransactionFrm.checkValid at hvalid
  unfold Closed.nonceOf
  cases haccount : lcl.accountFromDB env.transaction.sourceAddress with
  | none => simp [haccount] at hvalid
  | some account =>
      simp only [haccount, Prod.mk.injEq, Option.some.injEq] at hvalid
      obtain ⟨hcode, rfl⟩ := hvalid
      refine ⟨rfl, ?_⟩
      by_contra hle
      rw [if_pos (not_lt.mp hle)] at hcode
      exact absurd hcode (by simp)

theorem Fresh.importTx {cfg : PoolConfig} {q' : TransactionQueue} {result : ImportResult}
    (hcollision : NoCollision cfg.lib known) (hsound : q.Sound cfg known)
    (hlimit : 1 ≤ cfg.accountTxsLimit) (hsize : q.queue.length ≤ cfg.queueLimit)
    (hknown : known tx) (hfresh : Fresh lcl q)
    (habove : lcl.nonceOf tx.sourceAddress < tx.nonce)
    (himport : importTx cfg tx (lcl.nonceOf tx.sourceAddress) q = some (q', result)) :
    Fresh lcl q' := by
  intro t ht
  obtain ⟨hold, hnonce⟩ :=
    importTx_leaves hcollision hsound hlimit hsize hknown himport t ht
  rw [hnonce]
  rcases hold with rfl | hold
  · exact ⟨Function.update_self _ _ _, habove⟩
  · obtain ⟨hsame, hlt⟩ := hfresh t hold
    by_cases hsource : t.sourceAddress = tx.sourceAddress
    · rw [hsource, Function.update_self, ← hsource]
      exact ⟨rfl, hlt⟩
    · rw [Function.update_of_ne hsource]
      exact ⟨hsame, hlt⟩

/-- A ledger that takes the transactions of its value one by one leaves a fresh pool. -/
theorem Fresh.removeTxs {cfg : PoolConfig} {lcl' : Closed} {txs : List TransactionEnv}
    (hcollision : NoCollision cfg.lib known) (hsound : q.Sound cfg known)
    (hsize : q.queue.length ≤ cfg.queueLimit) (hfresh : Fresh lcl q)
    (htakes : ∀ t ∈ q.txs, (∀ env ∈ txs, ¬ (env.transaction.sourceAddress = t.sourceAddress ∧
        env.transaction.nonce = t.nonce)) →
      TakesOneByOne t.sourceAddress txs (lcl.nonceOf t.sourceAddress)
        (lcl'.nonceOf t.sourceAddress)) :
    Fresh lcl' (removeTxs cfg true txs q).1 := by
  obtain ⟨hsub, hstays, hnonces⟩ := removeTxs_spec hcollision true txs hsound hsize
  intro t ht
  have hold : t ∈ q.txs := (hsub.map Prod.snd).subset ht
  obtain ⟨hsame, habove⟩ := hfresh t hold
  obtain ⟨hclosed, htaken⟩ := htakes t hold (hstays t ht)
  refine ⟨?_, ?_⟩
  · rw [hnonces t ht, if_pos rfl, hsame, hclosed]
  · by_contra hle
    obtain ⟨env, henv, hkey⟩ := htaken t.nonce habove (not_lt.mp hle)
    exact hstays t ht env henv hkey

/-- A node whose pool is in order with its ledger. -/
structure Good (cfg : PoolConfig) (known : QueuedTransaction → Prop) (n : GlueNode) : Prop where
  sound : n.pool.Sound cfg known
  size : n.pool.queue.length ≤ cfg.queueLimit
  fresh : Fresh n.lcl n.pool

theorem Good.step {cfg : PoolConfig} (selfChainId : ℤ) {n : GlueNode}
    (hcollision : NoCollision cfg.lib known) (hlimit : 1 ≤ cfg.accountTxsLimit) (event : Event)
    (hknown : ∀ tx, event = .transaction tx → known tx) (hgood : n.Good cfg known)
    (hfollows : n.Follows event) :
    ∃ n', step cfg selfChainId n event = some n' ∧ n'.Good cfg known := by
  obtain ⟨hsound, hsize, hfresh⟩ := hgood
  cases event with
  | transaction tx =>
      rw [GlueNode.step, onTransaction]
      split
      · exact ⟨n, rfl, hsound, hsize, hfresh⟩
      · split
        · rename_i nonce hvalid
          obtain ⟨rfl, habove⟩ := checkValid_success hvalid
          obtain ⟨q', result, himport, hsound', hsize'⟩ := importTx_sound hcollision hsound hlimit
            (hknown tx rfl) (n.lcl.nonceOf tx.sourceAddress) hsize
          refine ⟨{ n with pool := q' }, ?_, hsound', hsize', ?_⟩
          · exact congrArg (Option.map fun r => { n with pool := r.1 }) himport
          · exact hfresh.importTx hcollision hsound hlimit hsize (hknown tx rfl) habove himport
        · exact ⟨n, rfl, hsound, hsize, hfresh⟩
  | valueCommitted value lcl =>
      obtain ⟨hsound', hsize'⟩ := removeTxs_sound hcollision true value.txset hsound hsize
      exact ⟨_, rfl, hsound', hsize', hfresh.removeTxs hcollision hsound hsize hfollows⟩
  | receiveLedgers lcl =>
      refine ⟨_, rfl, hsound, hsize, fun t ht => ?_⟩
      rw [hfollows t ht]
      exact hfresh t ht
  | dropTxs txs =>
      obtain ⟨hsound', hsize'⟩ := removeTxs_sound hcollision false txs hsound hsize
      obtain ⟨hsub, -, hnonces⟩ := removeTxs_spec hcollision false txs hsound hsize
      exact ⟨_, rfl, hsound', hsize', hfresh.shrinks ⟨hsub, hnonces⟩⟩
  | timer currentTime =>
      obtain ⟨q', timeoutTxs, hloop, hsound', hsize'⟩ :=
        timeoutLoop_spec hcollision currentTime n.pool.timeQueue.length [] hsound hsize le_rfl
      refine ⟨{ n with pool := q' }, ?_, hsound', hsize',
        hfresh.shrinks (timeoutLoop_shrinks hcollision currentTime _ hsound hloop)⟩
      rw [GlueNode.step, checkTimeoutAndDel, hloop, Option.map_some]

/-! ## Runs -/

theorem vacant_step {cfg : PoolConfig} (selfChainId : ℤ) {n : GlueNode}
    (hzero : cfg.accountTxsLimit = 0) (hvacant : n.pool.Vacant) (event : Event) :
    ∃ n', step cfg selfChainId n event = some n' ∧ n'.pool.Vacant := by
  cases event with
  | transaction tx =>
      rw [GlueNode.step, onTransaction]
      split
      · exact ⟨n, rfl, hvacant⟩
      · split
        · rw [hvacant.importTx hzero, Option.map_some]
          exact ⟨_, rfl, hvacant.queue, hvacant.timeQueue, hvacant.accounts⟩
        · exact ⟨n, rfl, hvacant⟩
  | valueCommitted value lcl => exact ⟨_, rfl, hvacant.removeTxs true value.txset⟩
  | receiveLedgers lcl => exact ⟨_, rfl, hvacant⟩
  | dropTxs txs => exact ⟨_, rfl, hvacant.removeTxs false txs⟩
  | timer currentTime =>
      refine ⟨n, ?_, hvacant⟩
      simp [GlueNode.step, checkTimeoutAndDel, timeoutLoop, timedOut?, hvacant.timeQueue]

theorem run_append (cfg : PoolConfig) (selfChainId : ℤ) (lcl : Closed) (events : List Event)
    (event : Event) : run cfg selfChainId lcl (events ++ [event]) =
      (run cfg selfChainId lcl events).bind fun n => step cfg selfChainId n event := by
  simp [run, List.foldlM_append]

theorem run_vacant {cfg : PoolConfig} (selfChainId : ℤ) (lcl : Closed)
    (hzero : cfg.accountTxsLimit = 0) (events : List Event) :
    ∃ n, run cfg selfChainId lcl events = some n ∧ n.pool.Vacant := by
  induction events using List.reverseRecOn with
  | nil => exact ⟨⟨lcl, {}⟩, rfl, rfl, rfl, rfl⟩
  | append_singleton events event ih =>
      obtain ⟨n, hrun, hvacant⟩ := ih
      obtain ⟨n', hstep, hvacant'⟩ := vacant_step selfChainId hzero hvacant event
      exact ⟨n', by rw [run_append, hrun, Option.bind_some, hstep], hvacant'⟩

theorem run_good {cfg : PoolConfig} {selfChainId : ℤ} {events : List Event}
    (hcollision : NoCollision cfg.lib (received events)) (hlimit : 1 ≤ cfg.accountTxsLimit)
    (hfollows : ∀ before event after, events = before ++ event :: after →
      ∀ n, run cfg selfChainId lcl before = some n → n.Follows event)
    (before after : List Event) (hevents : events = before ++ after) :
    ∃ n, run cfg selfChainId lcl before = some n ∧ n.Good cfg (received events) := by
  induction before using List.reverseRecOn generalizing after with
  | nil => exact ⟨⟨lcl, {}⟩, rfl, start_sound, Nat.zero_le _, fun t ht => absurd ht (by simp [txs])⟩
  | append_singleton before event ih =>
      rw [List.append_assoc, List.singleton_append] at hevents
      obtain ⟨n, hrun, hgood⟩ := ih _ hevents
      have hknown : ∀ tx, event = .transaction tx → received events tx := by
        rintro tx rfl
        rw [received, hevents]
        simp
      obtain ⟨n', hstep, hgood'⟩ := hgood.step selfChainId hcollision hlimit event hknown
        (hfollows before event after hevents n hrun)
      exact ⟨n', by rw [run_append, hrun, Option.bind_some, hstep], hgood'⟩

/-- **`TopTransaction` picks runnable transactions** in every run in which the ledgers that
close follow the pool. -/
theorem run_picks_in_row {cfg : PoolConfig} (selfChainId : ℤ) (lcl : Closed) (events : List Event)
    (hcollision : NoCollision cfg.lib (received events))
    (hfollows : ∀ before event after, events = before ++ event :: after →
      ∀ n, run cfg selfChainId lcl before = some n → n.Follows event)
    (before after : List Event) (hevents : events = before ++ after) :
    ∃ n, run cfg selfChainId lcl before = some n ∧ ∀ limit, PicksInRow cfg.lib n limit := by
  rcases Nat.eq_zero_or_pos cfg.accountTxsLimit with hzero | hlimit
  · obtain ⟨n, hrun, hvacant⟩ := run_vacant selfChainId lcl hzero before
    refine ⟨n, hrun, fun limit address => ⟨0, ?_⟩⟩
    simp [topTransaction, txs, hvacant.queue, topLoop, noncesOf]
  · obtain ⟨n, hrun, hgood⟩ := run_good hcollision hlimit hfollows before after hevents
    exact ⟨n, hrun, hgood.fresh.picksInRow hgood.sound.indexed.nodup_keys⟩

end Picks

/-- A ledger with the first payment. -/
def paymentValue : ConsensusValue where
  txset := [(samplePayment 1).env]
  ledgerSeq := 2

/-- The small ledger when the first payment has been taken. -/
def afterPayment : Closed :=
  { sampleClosed with
    seq := 2
    tree := LedgerFrm.commit sampleClosed (LedgerFrm.applyCheck sampleLibrary sampleClosed
      (payingOut callerAddress) paymentValue).context }

/-- Two payments come in. -/
def twoTransactions : List Event :=
  [.transaction (samplePayment 1), .transaction (samplePayment 2)]

theorem run_twoTransactions : ∃ n, run orderedPool 0 sampleClosed twoTransactions = some n ∧
    n.pool.txs = [samplePayment 1, samplePayment 2] ∧ n.lcl.nonceOf payerAddress = 0 := by
  have hrun : (run orderedPool 0 sampleClosed twoTransactions).map (fun n =>
      (n.pool.txs, n.lcl.nonceOf payerAddress)) =
        some ([samplePayment 1, samplePayment 2], 0) := by
    decide +kernel
  obtain ⟨n, hn, heq⟩ := Option.map_eq_some_iff.mp hrun
  exact ⟨n, hn, Prod.mk.inj heq⟩

theorem nonceOf_afterPayment : afterPayment.nonceOf payerAddress = 1 := by
  decide +kernel

/-- The two payments come in, and a ledger with the first of them is agreed on. -/
def agreedPayment : List Event :=
  twoTransactions ++ [.valueCommitted paymentValue afterPayment]

theorem follows_agreedPayment {n : GlueNode}
    (hrun : run orderedPool 0 sampleClosed twoTransactions = some n) :
    n.Follows (.valueCommitted paymentValue afterPayment) := by
  obtain ⟨n', hrun', htxs, hnonce⟩ := run_twoTransactions
  obtain rfl : n' = n := Option.some.inj (hrun'.symm.trans hrun)
  intro t ht hstays
  rw [htxs] at ht
  have hsecond : t = samplePayment 2 := by
    rcases List.mem_cons.mp ht with rfl | ht
    · exact absurd ⟨rfl, rfl⟩ (hstays (samplePayment 1).env List.mem_cons_self)
    · exact List.mem_singleton.mp ht
  rw [hsecond]
  change TakesOneByOne payerAddress [(samplePayment 1).env] (n'.lcl.nonceOf payerAddress)
    (afterPayment.nonceOf payerAddress)
  rw [hnonce, nonceOf_afterPayment]
  refine ⟨by decide, fun nonce hlow hhigh => ⟨_, List.mem_cons_self, rfl, ?_⟩⟩
  have hone : nonce = 1 := by omega
  rw [hone]
  rfl

theorem run_picks_in_row_payment : ∃ n,
    run orderedPool 0 sampleClosed agreedPayment = some n ∧
      ∀ limit, PicksInRow orderedPool.lib n limit := by
  have hcollision : NoCollision orderedPool.lib (received agreedPayment) := by
    refine noCollision_samplePayment fun tx htx => ?_
    simpa [received, agreedPayment, twoTransactions] using htx
  refine run_picks_in_row 0 sampleClosed agreedPayment hcollision ?_ agreedPayment [] rfl
  intro before event after hevents n hrun
  simp only [agreedPayment, twoTransactions, List.cons_append, List.nil_append] at hevents
  rcases before with _ | ⟨first, _ | ⟨second, _ | ⟨third, rest⟩⟩⟩ <;>
    simp only [List.cons_append, List.nil_append, List.cons.injEq] at hevents
  · obtain ⟨rfl, -⟩ := hevents
    trivial
  · obtain ⟨-, rfl, -⟩ := hevents
    trivial
  · obtain ⟨rfl, rfl, rfl, -⟩ := hevents
    exact follows_agreedPayment hrun
  · simp at hevents

/-- The pool does not hear of a payment that a received ledger has taken. -/
theorem stale_after_synchronization : ∃ n,
    run orderedPool 0 sampleClosed (twoTransactions ++ [.receiveLedgers afterPayment]) = some n ∧
      ¬ PicksInRow orderedPool.lib n 8 := by
  have hrun : (run orderedPool 0 sampleClosed
      (twoTransactions ++ [.receiveLedgers afterPayment])).map (fun n =>
        (noncesOf payerAddress (topTransaction orderedPool.lib n.pool 8),
          n.lcl.nonceOf payerAddress)) = some ([1, 2], 1) := by
    decide +kernel
  obtain ⟨n, hn, heq⟩ := Option.map_eq_some_iff.mp hrun
  obtain ⟨hpicked, hnonce⟩ := Prod.mk.inj heq
  refine ⟨n, hn, fun hrow => ?_⟩
  obtain ⟨count, hcount⟩ := hrow payerAddress
  rw [hpicked, hnonce] at hcount
  cases count with
  | zero => exact absurd hcount (by simp)
  | succ count =>
      rw [List.range_succ_eq_map, List.map_cons] at hcount
      exact absurd (List.cons.inj hcount).1 (by simp)

end GlueNode

end CegChain
