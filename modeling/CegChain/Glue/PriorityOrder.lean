import CegChain.Glue.Imports

/-!
# The order of the transaction pool

`queue_` is a multiset whose comparison (`PriorityCompare`) reads the nonces of the
accounts, and these change while the transactions are in the queue.  A new nonce moves all
the transactions of its account by the same distance, so these stay in order among
themselves; it is against the transactions of other accounts that they can get out of
order (`NoPassing` says that they do not).

`run_ordered`: as long as no call makes a transaction pass one of another account, the
queue is in order on the nonces of the moment, and what `Import` drops from a full pool has
the lowest priority.  `passing_a_payment` is a block that takes one payment of an account
and leaves a dearer one behind a cheap one of another account.
-/

namespace CegChain

namespace TransactionQueue

/-- `account_nonce_[address]`. -/
def nonceOf (q : TransactionQueue) (address : Address) : ℤ :=
  (q.accountNonce.lookup address).getD 0

/-- `PriorityCompare`. -/
def priorityCompare (nonceOf : Address → ℤ) (first second : QueuedTransaction) : Bool :=
  let height1 := first.nonce - nonceOf first.sourceAddress
  let height2 := second.nonce - nonceOf second.sourceAddress
  decide (height1 < height2) ||
    (decide (height1 = height2) && decide (second.gasPrice < first.gasPrice))

/-- The queue is in order on the nonces of the moment. -/
def InOrder (q : TransactionQueue) : Prop :=
  Nodes.InOrder (priorityCompare q.nonceOf) q.queue

/-- A multiset that is in order puts a new element at its upper bound. -/
def PlacesByPriority (cfg : PoolConfig) : Prop :=
  ∀ tx q, InOrder q → cfg.place tx q = Nodes.upperBound (priorityCompare q.nonceOf) tx q.queue

instance (q : TransactionQueue) : Decidable q.InOrder :=
  inferInstanceAs (Decidable (List.Pairwise _ _))

/-- With these nonces no transaction that stays has to pass one of another account that is
ahead of it in the queue and stays as well. -/
def NoPassing (nonceOf : Address → ℤ) (stays : QueuedTransaction → Prop) (q : TransactionQueue) :
    Prop :=
  q.txs.Pairwise fun t u => stays t → stays u → t.sourceAddress ≠ u.sourceAddress →
    priorityCompare nonceOf u t = false

/-- The nonce that a closed ledger with the transactions leaves for an account of the pool. -/
def closedNonce (address : Address) : List TransactionEnv → ℤ → ℤ
  | [], nonce => nonce
  | env :: txs, nonce =>
      closedNonce address txs
        (if env.transaction.sourceAddress = address then max nonce env.transaction.nonce else nonce)

/-- The call gives no account a nonce with which one of its transactions has to pass one of
another account. -/
def Keeps (cfg : PoolConfig) (q : TransactionQueue) : Call → Prop
  | .importTx tx curSourceNonce =>
      NoPassing (Function.update q.nonceOf tx.sourceAddress curSourceNonce)
        (fun t => ¬ (t.sourceAddress = tx.sourceAddress ∧ t.nonce = tx.nonce ∧
          cfg.outbids tx.gasPrice t.gasPrice = true)) q
  | .removeTxs txs closeLedger =>
      closeLedger = true → NoPassing (fun address => closedNonce address txs (q.nonceOf address))
        (fun t => ∀ env ∈ txs, ¬ (env.transaction.sourceAddress = t.sourceAddress ∧
          env.transaction.nonce = t.nonce)) q
  | .safeRemoveTx _ _ | .checkTimeoutAndDel _ => True

section Order

variable {cfg : PoolConfig} {known : QueuedTransaction → Prop} {q q' : TransactionQueue}
  {address : Address} {nonce curSourceNonce : ℤ} {byNonce : QueueByNonce}
  {tx t u old : QueuedTransaction} {nonces : Address → ℤ} {stays : QueuedTransaction → Prop}

/-! ## The comparison -/

theorem priorityCompare_asymm (a b : QueuedTransaction) (hlt : priorityCompare nonces a b = true) :
    priorityCompare nonces b a = false := by
  simp only [priorityCompare, Bool.or_eq_true, Bool.and_eq_true, decide_eq_true_eq,
    Int64.lt_iff_toInt_lt] at hlt
  simp only [priorityCompare, Bool.or_eq_false_iff, Bool.and_eq_false_iff, decide_eq_false_iff_not,
    Int64.lt_iff_toInt_lt]
  omega

theorem priorityCompare_trans (a b c : QueuedTransaction) (hab : priorityCompare nonces a b = true)
    (hbc : priorityCompare nonces b c = true) : priorityCompare nonces a c = true := by
  simp only [priorityCompare, Bool.or_eq_true, Bool.and_eq_true, decide_eq_true_eq,
    Int64.lt_iff_toInt_lt] at hab hbc ⊢
  omega

/-- Transactions of one account compare by their own nonces, whatever that of the account. -/
theorem priorityCompare_of_source_eq (hsource : t.sourceAddress = u.sourceAddress)
    (nonces' : Address → ℤ) : priorityCompare nonces t u = priorityCompare nonces' t u := by
  have hheight : ∀ n : Address → ℤ, t.nonce - n t.sourceAddress < u.nonce - n u.sourceAddress ↔
      t.nonce < u.nonce := by
    intro n
    rw [hsource]
    omega
  have hequal : ∀ n : Address → ℤ, t.nonce - n t.sourceAddress = u.nonce - n u.sourceAddress ↔
      t.nonce = u.nonce := by
    intro n
    rw [hsource]
    omega
  simp only [priorityCompare, hheight, hequal]

/-- The transactions of one account do not pass each other. -/
theorem keeps_of_one_account (address : Address) (hone : ∀ t ∈ q.txs, t.sourceAddress = address)
    (call : Call) :
    Keeps cfg q call := by
  have hpass : ∀ nonces stays, NoPassing nonces stays q := by
    intro nonces stays
    refine List.Pairwise.imp_of_mem (fun {t u} ht hu _ _ _ hsource => ?_)
      (List.pairwise_of_forall (R := fun _ _ => True) fun _ _ => trivial)
    exact absurd ((hone t ht).trans (hone u hu).symm) hsource
  cases call with
  | importTx tx curSourceNonce => exact hpass _ _
  | removeTxs txs closeLedger => exact fun _ => hpass _ _
  | safeRemoveTx address nonce => trivial
  | checkTimeoutAndDel currentTime => trivial

theorem InOrder.noPassing (horder : q.InOrder) : NoPassing q.nonceOf (fun _ => True) q := by
  unfold NoPassing txs
  rw [List.pairwise_map]
  exact List.Pairwise.imp (fun hle _ _ _ => hle) horder

/-- What is left of a queue in order is in order if no transaction had to pass another. -/
theorem InOrder.of_sublist (horder : q.InOrder) (hsub : q'.queue.Sublist q.queue)
    (hstays : ∀ t ∈ q'.txs, stays t)
    (hnonces : ∀ t ∈ q'.txs, q'.nonceOf t.sourceAddress = nonces t.sourceAddress)
    (hpass : NoPassing nonces stays q) : q'.InOrder := by
  unfold NoPassing txs at hpass
  rw [List.pairwise_map] at hpass
  have hboth := (List.Pairwise.and horder hpass).sublist hsub
  refine hboth.imp_of_mem fun {entry later} hentry hlater hle => ?_
  have hentryTx : entry.2 ∈ q'.txs := List.mem_map_of_mem hentry
  have hlaterTx : later.2 ∈ q'.txs := List.mem_map_of_mem hlater
  by_cases hsource : entry.2.sourceAddress = later.2.sourceAddress
  · rw [priorityCompare_of_source_eq hsource.symm q.nonceOf]
    exact hle.1
  · have hpassed := hle.2 (hstays _ hentryTx) (hstays _ hlaterTx) hsource
    simp only [priorityCompare, hnonces _ hentryTx, hnonces _ hlaterTx] at hpassed ⊢
    exact hpassed

/-! ## Removing -/

theorem removeAt_lookup_accountNonce {iters : ℕ × ℕ} {other : Address}
    (hother : other ∈ (removeAt cfg address byNonce nonce iters true q).1.accountNonce) :
    (removeAt cfg address byNonce nonce iters true q).1.accountNonce.lookup other =
      q.accountNonce.lookup other := by
  unfold removeAt at hother ⊢
  dsimp only at hother ⊢
  split at hother
  · rename_i hempty
    rw [if_pos hempty]
    dsimp only at hother ⊢
    rw [AList.mem_erase] at hother
    exact AList.lookup_erase_ne hother.1
  · rename_i hempty
    rw [if_neg hempty]

/-- `Remove` leaves the nonces of the accounts that still have transactions. -/
theorem remove_nonceOf {other : Address}
    (hother : other ∈ (remove cfg address nonce q).1.accountNonce) :
    (remove cfg address nonce q).1.nonceOf other = q.nonceOf other := by
  unfold nonceOf
  unfold remove at hother ⊢
  split at hother
  · split at hother
    · rw [removeAt_lookup_accountNonce hother]
    · rfl
  · rfl

theorem remove_sublist : (remove cfg address nonce q).1.queue.Sublist q.queue := by
  unfold remove
  split
  · split
    · rw [removeAt_queue]
      exact Nodes.sublist_erase
    · exact List.Sublist.refl _
  · exact List.Sublist.refl _

theorem Sound.mem_accountNonce (hsound : q.Sound cfg known) (ht : t ∈ q.txs) :
    t.sourceAddress ∈ q.accountNonce := by
  rw [hsound.nonces t.sourceAddress, or_false]
  exact hsound.indexed.mem_accounts_iff_exists_tx.mpr ⟨t, ht, rfl⟩

/-- Part of the pool is left, and its accounts have the nonces that they had. -/
structure Shrinks (q q' : TransactionQueue) : Prop where
  sublist : q'.queue.Sublist q.queue
  nonceOf_eq : ∀ t ∈ q'.txs, q'.nonceOf t.sourceAddress = q.nonceOf t.sourceAddress

theorem Shrinks.refl (q : TransactionQueue) : Shrinks q q :=
  ⟨List.Sublist.refl _, fun _ _ => rfl⟩

theorem Shrinks.subset (hshrinks : Shrinks q q') : ∀ t ∈ q'.txs, t ∈ q.txs :=
  fun _ ht => (hshrinks.sublist.map Prod.snd).subset ht

theorem Shrinks.trans {q'' : TransactionQueue} (hfirst : Shrinks q q') (hthen : Shrinks q' q'') :
    Shrinks q q'' :=
  ⟨hthen.sublist.trans hfirst.sublist, fun t ht =>
    (hthen.nonceOf_eq t ht).trans (hfirst.nonceOf_eq t (hthen.subset t ht))⟩

theorem Shrinks.inOrder (hshrinks : Shrinks q q') (horder : q.InOrder) : q'.InOrder :=
  horder.of_sublist hshrinks.sublist (fun _ _ => trivial) hshrinks.nonceOf_eq horder.noPassing

theorem remove_shrinks (hcollision : NoCollision cfg.lib known) (hsound : q.Sound cfg known)
    (address : Address) (nonce : ℤ) : Shrinks q (remove cfg address nonce q).1 := by
  have hremoved := remove_sound hcollision hsound address nonce
  exact ⟨remove_sublist, fun t ht => remove_nonceOf (hremoved.mem_accountNonce ht)⟩

theorem evictRound_shrinks (hcollision : NoCollision cfg.lib known) (hsound : q.Sound cfg known) :
    Shrinks q (evictRound cfg q).1 := by
  unfold evictRound
  split
  · exact remove_shrinks hcollision hsound _ _
  · exact Shrinks.refl q

theorem evictLoop_shrinks (hcollision : NoCollision cfg.lib known) (fuel : ℕ)
    {result result' : ImportResult} (hsound : q.Sound cfg known)
    (hloop : evictLoop cfg tx fuel q result = some (q', result')) : Shrinks q q' := by
  induction fuel generalizing q result with
  | zero =>
      rw [evictLoop] at hloop
      split at hloop
      · exact absurd hloop (by simp)
      · obtain ⟨rfl, -⟩ := Prod.mk.inj (Option.some.inj hloop)
        exact Shrinks.refl q
  | succ fuel ih =>
      rw [evictLoop] at hloop
      split at hloop
      · rename_i hover
        exact (evictRound_shrinks hcollision hsound).trans
          (ih (evictRound_spec hcollision hsound hover).1 hloop)
      · obtain ⟨rfl, -⟩ := Prod.mk.inj (Option.some.inj hloop)
        exact Shrinks.refl q

theorem timeoutLoop_shrinks (hcollision : NoCollision cfg.lib known) (currentTime : ℤ) (fuel : ℕ)
    {timeoutTxs timeoutTxs' : List QueuedTransaction} (hsound : q.Sound cfg known)
    (hloop : timeoutLoop cfg currentTime fuel q timeoutTxs = some (q', timeoutTxs')) :
    Shrinks q q' := by
  induction fuel generalizing q timeoutTxs with
  | zero =>
      rw [timeoutLoop] at hloop
      split at hloop
      · exact absurd hloop (by simp)
      · obtain ⟨rfl, -⟩ := Prod.mk.inj (Option.some.inj hloop)
        exact Shrinks.refl q
  | succ fuel ih =>
      rw [timeoutLoop] at hloop
      split at hloop
      · rename_i tx htimeout
        have hround : Shrinks q (timeoutRound cfg currentTime q) := by
          simp only [timeoutRound, htimeout]
          exact remove_shrinks hcollision hsound _ _
        exact hround.trans (ih (timeoutRound_spec hcollision hsound htimeout).1 hloop)
      · obtain ⟨rfl, -⟩ := Prod.mk.inj (Option.some.inj hloop)
        exact Shrinks.refl q

/-! ## `Import` -/

theorem insert_inOrder (hplace : PlacesByPriority cfg) (horder : q.InOrder) :
    (insert cfg tx q).InOrder := by
  have hqueue : (insert cfg tx q).queue =
      Nodes.emplace (Nodes.upperBound (priorityCompare q.nonceOf) tx q.queue) q.nextNode tx
        q.queue := by
    rw [← hplace tx q horder]
    rfl
  unfold InOrder
  rw [hqueue]
  exact Nodes.InOrder.emplace priorityCompare_trans priorityCompare_asymm horder

/-- The transaction that is dropped from a queue in order has the lowest priority. -/
theorem evictRound_lowest (horder : q.InOrder) (hevicted : (evictRound cfg q).2 = some t) :
    ∀ u ∈ q.txs, priorityCompare q.nonceOf t u = false := by
  intro u hu
  obtain ⟨⟨i, u⟩, hmem, rfl⟩ := List.mem_map.mp hu
  cases hlast : q.queue.getLast? with
  | none => simp [evictRound, hlast] at hevicted
  | some last =>
      obtain ⟨j, t'⟩ := last
      obtain rfl : t' = t := by simpa [evictRound, hlast] using hevicted
      obtain ⟨before, hqueue⟩ := List.getLast?_eq_some_iff.mp hlast
      unfold InOrder Nodes.InOrder at horder
      rw [hqueue, List.pairwise_append] at horder
      rw [hqueue] at hmem
      rcases List.mem_append.mp hmem with hmem | hmem
      · exact horder.2.2 _ hmem _ List.mem_cons_self
      · obtain ⟨-, rfl⟩ := Prod.mk.inj (List.mem_singleton.mp hmem)
        simp [priorityCompare]

/-- The second half of `Import` leaves part of the pool, with or without the transaction. -/
theorem importInsert_shrinks {replace : Bool} {size : ℕ} {result : ImportResult}
    (hcollision : NoCollision cfg.lib known) (hcan : q.CanInsert cfg known tx replace size)
    (hknown : known tx) (himport : importInsert cfg tx replace size q = some (q', result)) :
    q' = q ∨ Shrinks (insert cfg tx q) q' := by
  obtain ⟨⟨q₁, result₁⟩, hinserted, hend⟩ := Option.map_eq_some_iff.mp himport
  have hsame : q₁ = q' := by
    dsimp only at hend
    split at hend <;> exact (Prod.mk.inj hend).1
  rw [← hsame]
  split at hinserted
  · rename_i hinsert
    exact Or.inr (evictLoop_shrinks hcollision _ (hcan.insert hcollision hknown hinsert) hinserted)
  · obtain ⟨rfl, -⟩ := Prod.mk.inj (Option.some.inj hinserted)
    exact Or.inl rfl

/-- The nonces after `Import` has set that of the account. -/
theorem nonceOf_insert (accountNonce : AList fun _ : Address => ℤ) (other : Address) :
    ({ q with accountNonce := accountNonce.insert address nonce } : TransactionQueue).nonceOf
        other =
      Function.update (fun other => (accountNonce.lookup other).getD 0) address nonce other := by
  unfold nonceOf
  by_cases hother : other = address
  · rw [hother, AList.lookup_insert, Function.update_self]
    rfl
  · rw [AList.lookup_insert_ne hother, Function.update_of_ne hother]

theorem replaced_nonceOf {i j : ℕ} {other : Address} :
    (replaced cfg tx curSourceNonce i j q).nonceOf other =
      Function.update q.nonceOf tx.sourceAddress curSourceNonce other := by
  unfold replaced
  dsimp only
  rw [nonceOf_insert]
  by_cases hother : other = tx.sourceAddress
  · rw [hother, Function.update_self, Function.update_self]
  · rw [Function.update_of_ne hother, Function.update_of_ne hother]
    unfold removeAt nonceOf
    dsimp only
    split
    · rw [AList.lookup_erase_ne hother, AList.lookup_insert_ne hother]
    · rw [AList.lookup_insert_ne hother]

/-- The pool in which the first half of `Import` ends. -/
def ImportStep.pool : ImportStep → TransactionQueue
  | .dropped q | .go q _ _ => q

/-- The first half of `Import` leaves the transactions that are not outbid, and sets the nonce
of the account. -/
theorem importPrepare_pool (hsound : q.Sound cfg known) {next : ImportStep}
    (hprepare : importPrepare cfg tx curSourceNonce q = some next) :
    next.pool.queue.Sublist q.queue ∧
      (∀ t ∈ next.pool.txs, ¬ (t.sourceAddress = tx.sourceAddress ∧ t.nonce = tx.nonce ∧
        cfg.outbids tx.gasPrice t.gasPrice = true)) ∧
      ∀ other, next.pool.nonceOf other =
        Function.update q.nonceOf tx.sourceAddress curSourceNonce other := by
  cases hentry : q.entryAt tx.sourceAddress tx.nonce with
  | none =>
      rw [importPrepare_of_new cfg curSourceNonce hentry, Option.some.injEq] at hprepare
      subst hprepare
      refine ⟨List.Sublist.refl _, fun t ht => ?_, fun other => nonceOf_insert _ _⟩
      rintro ⟨haddress, hnonce, -⟩
      obtain ⟨⟨i, t⟩, hmem, rfl⟩ := List.mem_map.mp ht
      obtain ⟨j, hentry', -⟩ := hsound.indexed.of_queue i t hmem
      rw [haddress, hnonce, hentry] at hentry'
      exact absurd hentry' (by simp)
  | some iters =>
      obtain ⟨i, j⟩ := iters
      obtain ⟨old, hold, haddress, hnonce⟩ := hsound.indexed.of_entryAt _ _ _ _ hentry
      -- the transaction of the pool with this account and nonce is the old one
      have hsame : ∀ i' t, (i', t) ∈ q.queue → t.sourceAddress = tx.sourceAddress →
          t.nonce = tx.nonce → i' = i ∧ t = old := fun i' t hmem haddress' hnonce' =>
        hsound.indexed.eq_of_mem hmem hold (haddress'.trans haddress.symm)
          (hnonce'.trans hnonce.symm)
      rw [importPrepare_of_old curSourceNonce hsound.indexed hentry hold, Option.some.injEq]
        at hprepare
      cases hbid : cfg.outbids tx.gasPrice old.gasPrice with
      | true =>
          rw [hbid, if_pos rfl] at hprepare
          subst hprepare
          have hqueue : (replaced cfg tx curSourceNonce i j q).queue = Nodes.erase i q.queue :=
            removeAt_queue _
          simp only [ImportStep.pool]
          refine ⟨?_, fun t ht => ?_, fun other => replaced_nonceOf⟩
          · rw [hqueue]
            exact Nodes.sublist_erase
          · rintro ⟨haddress', hnonce', -⟩
            obtain ⟨⟨i', t⟩, hmem, rfl⟩ := List.mem_map.mp ht
            rw [hqueue, Nodes.mem_erase] at hmem
            exact hmem.2 (hsame i' t hmem.1 haddress' hnonce').1
      | false =>
          rw [hbid, if_neg (by simp)] at hprepare
          subst hprepare
          refine ⟨List.Sublist.refl _, fun t ht => ?_, fun other => nonceOf_insert _ _⟩
          rintro ⟨haddress', hnonce', hbid'⟩
          obtain ⟨⟨i', t⟩, hmem, rfl⟩ := List.mem_map.mp ht
          rw [(hsame i' t hmem haddress' hnonce').2, hbid] at hbid'
          exact absurd hbid' (by simp)

theorem Sound.importPrepare_inOrder (hsound : q.Sound cfg known) (horder : q.InOrder)
    (hkeeps : Keeps cfg q (.importTx tx curSourceNonce)) {next : ImportStep}
    (hprepare : importPrepare cfg tx curSourceNonce q = some next) : next.pool.InOrder := by
  obtain ⟨hsub, hstays, hnonces⟩ := importPrepare_pool hsound hprepare
  exact horder.of_sublist hsub hstays (fun t _ => hnonces _) hkeeps

/-! ## `RemoveTxs` -/

theorem updateNonce_nonceOf {closeLedger : Bool} {other : Address}
    (hother : other ∈ q.accountNonce) :
    (updateNonce address nonce closeLedger q).nonceOf other =
      if closeLedger = true ∧ address = other then max (q.nonceOf other) nonce
      else q.nonceOf other := by
  obtain ⟨accountNonce, hlookup⟩ := Option.isSome_iff_exists.mp (AList.lookup_isSome.mpr hother)
  by_cases haddress : address = other
  · subst haddress
    cases closeLedger with
    | false => simp [updateNonce, hlookup]
    | true =>
        by_cases hlt : accountNonce < nonce
        · simp [updateNonce, nonceOf, hlookup, hlt, max_eq_right hlt.le]
        · simp [updateNonce, nonceOf, hlookup, hlt, max_eq_left (not_lt.mp hlt)]
  · rw [if_neg fun h => haddress h.2]
    unfold updateNonce
    split
    · split
      · exact congrArg (Option.getD · 0) (AList.lookup_insert_ne (Ne.symm haddress))
      · rfl
    · rfl

theorem remove_entryAt {other : Address} {otherNonce : ℤ} :
    (remove cfg address nonce q).1.entryAt other otherNonce =
      if other = address ∧ otherNonce = nonce then none else q.entryAt other otherNonce := by
  unfold remove
  split
  · rename_i byNonce hlookup
    split
    · exact removeAt_entryAt hlookup _ _
    · rename_i hnone
      split
      · rename_i hsame
        rw [hsame.1, hsame.2, entryAt_of_lookup hlookup, hnone]
      · rfl
  · rename_i hnone
    split
    · rename_i hsame
      rw [hsame.1, entryAt, hnone, Option.bind_none]
    · rfl

/-- What `RemoveTxs` leaves: part of the queue, without the transactions of the set, and for
the accounts that still have transactions the nonces after the set. -/
theorem removeTxs_spec (hcollision : NoCollision cfg.lib known) (closeLedger : Bool)
    (txs : List TransactionEnv) (hsound : q.Sound cfg known)
    (hsize : q.queue.length ≤ cfg.queueLimit) :
    (removeTxs cfg closeLedger txs q).1.queue.Sublist q.queue ∧
      (∀ t ∈ (removeTxs cfg closeLedger txs q).1.txs, ∀ env ∈ txs,
        ¬ (env.transaction.sourceAddress = t.sourceAddress ∧ env.transaction.nonce = t.nonce)) ∧
      ∀ t ∈ (removeTxs cfg closeLedger txs q).1.txs,
        (removeTxs cfg closeLedger txs q).1.nonceOf t.sourceAddress =
          if closeLedger then closedNonce t.sourceAddress txs (q.nonceOf t.sourceAddress)
          else q.nonceOf t.sourceAddress := by
  induction txs generalizing q with
  | nil => exact ⟨List.Sublist.refl _, by simp, fun t _ => by simp [removeTxs, closedNonce]⟩
  | cons env txs ih =>
      generalize haddress : env.transaction.sourceAddress = address
      generalize hnonce : env.transaction.nonce = nonce
      have hremoved := remove_sound hcollision hsound address nonce
      have hsound₁ := updateNonce_sound hremoved address nonce closeLedger
      have hqueue :=
        updateNonce_queue (q := (remove cfg address nonce q).1) address nonce closeLedger
      have hsize₁ : (updateNonce address nonce closeLedger
          (remove cfg address nonce q).1).queue.length ≤ cfg.queueLimit := by
        rw [hqueue]
        exact (remove_queue_length_le _ _).trans hsize
      obtain ⟨hsub, hstays, hnonces⟩ := ih hsound₁ hsize₁
      have hrec : (removeTxs cfg closeLedger (env :: txs) q).1 =
          (removeTxs cfg closeLedger txs (updateNonce address nonce closeLedger
            (remove cfg address nonce q).1)).1 := by
        rw [removeTxs, haddress, hnonce]
      rw [hrec]
      rw [hqueue] at hsub
      -- what stays to the end is there after the first removal
      have hin : ∀ t ∈ (removeTxs cfg closeLedger txs (updateNonce address nonce closeLedger
          (remove cfg address nonce q).1)).1.txs, t ∈ (remove cfg address nonce q).1.txs :=
        fun t ht => (hsub.map Prod.snd).subset ht
      refine ⟨hsub.trans remove_sublist, fun t ht other hother => ?_, fun t ht => ?_⟩
      · rcases List.mem_cons.mp hother with rfl | hother
        · rintro ⟨haddress', hnonce'⟩
          obtain ⟨⟨i, t⟩, hmem, rfl⟩ := List.mem_map.mp (hin t ht)
          obtain ⟨j, hentry, -⟩ := hremoved.indexed.of_queue i t hmem
          rw [remove_entryAt, if_pos ⟨haddress'.symm.trans haddress, hnonce'.symm.trans hnonce⟩]
            at hentry
          exact absurd hentry (by simp)
        · exact hstays t ht other hother
      · have hmem := hremoved.mem_accountNonce (hin t ht)
        rw [hnonces t ht, updateNonce_nonceOf hmem, remove_nonceOf hmem, closedNonce, haddress,
          hnonce]
        cases closeLedger <;> simp

theorem removeTxs_inOrder (hcollision : NoCollision cfg.lib known) (hsound : q.Sound cfg known)
    (hsize : q.queue.length ≤ cfg.queueLimit) (horder : q.InOrder) {closeLedger : Bool}
    {txs : List TransactionEnv} (hkeeps : Keeps cfg q (.removeTxs txs closeLedger)) :
    (removeTxs cfg closeLedger txs q).1.InOrder := by
  obtain ⟨hsub, hstays, hnonces⟩ := removeTxs_spec hcollision closeLedger txs hsound hsize
  cases closeLedger with
  | true => exact horder.of_sublist hsub hstays hnonces (hkeeps rfl)
  | false => exact Shrinks.inOrder ⟨hsub, hnonces⟩ horder

/-! ## Runs -/

/-- A call that keeps the transactions from passing each other keeps the order. -/
theorem step_inOrder (hcollision : NoCollision cfg.lib known) (hlimit : 1 ≤ cfg.accountTxsLimit)
    (hplace : PlacesByPriority cfg) (call : Call)
    (hknown : ∀ tx curSourceNonce, call = .importTx tx curSourceNonce → known tx)
    (hsound : q.Sound cfg known) (hsize : q.queue.length ≤ cfg.queueLimit) (horder : q.InOrder)
    (hkeeps : Keeps cfg q call) (hstep : step cfg q call = some q') : q'.InOrder := by
  cases call with
  | importTx tx curSourceNonce =>
      obtain ⟨⟨q₁, result⟩, himport, rfl⟩ := Option.map_eq_some_iff.mp hstep
      rcases importPrepare_spec hcollision hsound hlimit tx curSourceNonce hsize with
        ⟨q₀, hprepare, -⟩ | ⟨q₀, replace, size, hprepare, hcan⟩
      · have hkept := hsound.importPrepare_inOrder horder hkeeps hprepare
        rw [importTx, hprepare, Option.bind_some, Option.some.injEq] at himport
        exact (Prod.mk.inj himport).1 ▸ hkept
      · have hkept := hsound.importPrepare_inOrder horder hkeeps hprepare
        rw [importTx, hprepare, Option.bind_some] at himport
        rcases importInsert_shrinks hcollision hcan (hknown tx curSourceNonce rfl) himport with
          rfl | hshrinks
        · exact hkept
        · exact hshrinks.inOrder (insert_inOrder hplace hkept)
  | removeTxs txs closeLedger =>
      obtain rfl := Option.some.inj hstep
      exact removeTxs_inOrder hcollision hsound hsize horder hkeeps
  | safeRemoveTx address nonce =>
      obtain rfl := Option.some.inj hstep
      exact (remove_shrinks hcollision hsound _ _).inOrder horder
  | checkTimeoutAndDel currentTime =>
      obtain ⟨⟨q₁, timeoutTxs⟩, hloop, rfl⟩ := Option.map_eq_some_iff.mp hstep
      exact (timeoutLoop_shrinks hcollision currentTime _ hsound hloop).inOrder horder

/-- A pool in order, with the nonces of every account rising along the queue. -/
structure Ordered (q : TransactionQueue) : Prop where
  inOrder : q.InOrder
  rising : q.txs.Pairwise fun t u => t.sourceAddress = u.sourceAddress → t.nonce < u.nonce

theorem Sound.ordered (hsound : q.Sound cfg known) (horder : q.InOrder) : q.Ordered where
  inOrder := horder
  rising := by
    have hkeys := hsound.indexed.nodup_keys
    have hlist : q.txs.Pairwise fun t u => priorityCompare q.nonceOf u t = false := by
      unfold txs
      rw [List.pairwise_map]
      exact horder
    rw [List.Nodup, List.pairwise_map] at hkeys
    refine (hlist.and hkeys).imp fun {t u} hboth hsource => ?_
    obtain ⟨hle, hne⟩ := hboth
    simp only [priorityCompare, hsource, Bool.or_eq_false_iff, decide_eq_false_iff_not] at hle
    have hnonce : t.nonce ≠ u.nonce := fun heq => hne (by rw [hsource, heq])
    omega

/-- What the loop of `Import` drops has the lowest priority of the transactions there. -/
def EvictsLowest (cfg : PoolConfig) (q : TransactionQueue) (call : Call) : Prop :=
  ∀ tx curSourceNonce q₁ rounds t, call = .importTx tx curSourceNonce →
    EntersLoop cfg tx curSourceNonce q q₁ →
    (∀ k ≤ rounds, cfg.queueLimit < ((fun q => (evictRound cfg q).1)^[k] q₁).queue.length) →
    (evictRound cfg ((fun q => (evictRound cfg q).1)^[rounds] q₁)).2 = some t →
    ∀ u ∈ ((fun q => (evictRound cfg q).1)^[rounds] q₁).txs,
      priorityCompare ((fun q => (evictRound cfg q).1)^[rounds] q₁).nonceOf t u = false

theorem iterate_inOrder (hcollision : NoCollision cfg.lib known) (hsound : q.Sound cfg known)
    (horder : q.InOrder) (rounds : ℕ) (hrounds : ∀ k < rounds,
      cfg.queueLimit < ((fun q => (evictRound cfg q).1)^[k] q).queue.length) :
    ((fun q => (evictRound cfg q).1)^[rounds] q).InOrder := by
  induction rounds with
  | zero => exact horder
  | succ rounds ih =>
      have hbefore := fun k hk => hrounds k (Nat.lt_succ_of_lt hk)
      rw [Function.iterate_succ_apply']
      exact (evictRound_shrinks hcollision
        (iterate_evictRound hcollision hsound rounds hbefore).1).inOrder (ih hbefore)

theorem Sound.evictsLowest (hcollision : NoCollision cfg.lib known)
    (hlimit : 1 ≤ cfg.accountTxsLimit) (hplace : PlacesByPriority cfg) {call : Call}
    (hknown : ∀ tx curSourceNonce, call = .importTx tx curSourceNonce → known tx)
    (hsound : q.Sound cfg known) (hsize : q.queue.length ≤ cfg.queueLimit) (horder : q.InOrder)
    (hkeeps : Keeps cfg q call) : EvictsLowest cfg q call := by
  intro tx curSourceNonce q₁ rounds t hcall henters hrounds hevicted
  subst hcall
  obtain ⟨q₀, replace, size, hprepare, hinsert, rfl⟩ := henters
  have hkept := hsound.importPrepare_inOrder horder hkeeps hprepare
  rcases importPrepare_spec hcollision hsound hlimit tx curSourceNonce hsize with
    ⟨q', hdropped, -⟩ | ⟨q', replace', size', hgo, hcan⟩
  · rw [hprepare] at hdropped
    exact absurd hdropped (by simp)
  · rw [hprepare] at hgo
    obtain ⟨rfl, rfl, rfl⟩ := ImportStep.go.inj (Option.some.inj hgo)
    have hinserted := hcan.insert hcollision (hknown tx curSourceNonce rfl) hinsert
    exact evictRound_lowest (iterate_inOrder hcollision hinserted (insert_inOrder hplace hkept)
      rounds fun k hk => hrounds k hk.le) hevicted

/-- An account that may have no transactions has none. -/
structure Vacant (q : TransactionQueue) : Prop where
  queue : q.queue = []
  timeQueue : q.timeQueue = []
  accounts : q.queueByAddressAndNonce = ∅

theorem Vacant.remove (hvacant : q.Vacant) : remove cfg address nonce q = (q, none) := by
  simp [TransactionQueue.remove, hvacant.accounts]

theorem Vacant.importTx (hvacant : q.Vacant) (hzero : cfg.accountTxsLimit = 0) :
    importTx cfg tx curSourceNonce q = some
      ({ q with accountNonce := q.accountNonce.insert tx.sourceAddress curSourceNonce },
        ⟨false, true⟩) := by
  simp [TransactionQueue.importTx, importPrepare, importInsert, hvacant.accounts, hzero]

theorem Vacant.removeTxs (hvacant : q.Vacant) (closeLedger : Bool) (txs : List TransactionEnv) :
    (removeTxs cfg closeLedger txs q).1.Vacant := by
  induction txs generalizing q with
  | nil => exact hvacant
  | cons env txs ih =>
      rw [TransactionQueue.removeTxs, hvacant.remove]
      refine ih ?_
      unfold updateNonce
      split
      · split <;> exact ⟨hvacant.queue, hvacant.timeQueue, hvacant.accounts⟩
      · exact hvacant

theorem Vacant.step (hvacant : q.Vacant) (hzero : cfg.accountTxsLimit = 0) (call : Call) :
    ∃ q', step cfg q call = some q' ∧ q'.Vacant := by
  cases call with
  | importTx tx curSourceNonce =>
      refine ⟨_, by rw [TransactionQueue.step, hvacant.importTx hzero, Option.map_some], ?_⟩
      exact ⟨hvacant.queue, hvacant.timeQueue, hvacant.accounts⟩
  | removeTxs txs closeLedger => exact ⟨_, rfl, hvacant.removeTxs closeLedger txs⟩
  | safeRemoveTx address nonce =>
      refine ⟨_, rfl, ?_⟩
      rw [safeRemoveTx, hvacant.remove]
      exact hvacant
  | checkTimeoutAndDel currentTime =>
      refine ⟨q, ?_, hvacant⟩
      simp [TransactionQueue.step, checkTimeoutAndDel, timeoutLoop, timedOut?, hvacant.timeQueue]

theorem run_append (calls : List Call) (call : Call) :
    run cfg (calls ++ [call]) = (run cfg calls).bind fun q => step cfg q call := by
  simp [run, List.foldlM_append]

theorem run_vacant (hzero : cfg.accountTxsLimit = 0) (calls : List Call) :
    ∃ q, run cfg calls = some q ∧ q.Vacant := by
  induction calls using List.reverseRecOn with
  | nil => exact ⟨{}, rfl, rfl, rfl, rfl⟩
  | append_singleton calls call ih =>
      obtain ⟨q, hrun, hvacant⟩ := ih
      obtain ⟨q', hstep, hvacant'⟩ := hvacant.step hzero call
      exact ⟨q', by rw [run_append, hrun, Option.bind_some, hstep], hvacant'⟩

theorem Vacant.ordered (hvacant : q.Vacant) : q.Ordered := by
  constructor
  · unfold InOrder Nodes.InOrder
    rw [hvacant.queue]
    exact List.Pairwise.nil
  · rw [txs, hvacant.queue]
    exact List.Pairwise.nil

theorem Vacant.evictsLowest (hvacant : q.Vacant) (hzero : cfg.accountTxsLimit = 0) (call : Call) :
    EvictsLowest cfg q call := by
  intro tx curSourceNonce q₁ rounds t _ henters
  obtain ⟨q₀, replace, size, hprepare, hinsert, -⟩ := henters
  simp only [importPrepare, hvacant.accounts, AList.lookup_empty, Option.some.injEq,
    ImportStep.go.injEq] at hprepare
  rw [← hprepare.2.1, hzero] at hinsert
  exact absurd hinsert (by simp)

theorem run_inOrder {calls : List Call} (hcollision : NoCollision cfg.lib (imported calls))
    (hlimit : 1 ≤ cfg.accountTxsLimit) (hplace : PlacesByPriority cfg)
    (hkeeps : ∀ before call after, calls = before ++ call :: after →
      ∀ q, run cfg before = some q → Keeps cfg q call)
    (before after : List Call) (hcalls : calls = before ++ after) :
    ∃ q, run cfg before = some q ∧ q.Sound cfg (imported calls) ∧
      q.queue.length ≤ cfg.queueLimit ∧ q.InOrder := by
  induction before using List.reverseRecOn generalizing after with
  | nil => exact ⟨{}, rfl, start_sound, Nat.zero_le _, List.Pairwise.nil⟩
  | append_singleton before call ih =>
      rw [List.append_assoc, List.singleton_append] at hcalls
      obtain ⟨q, hrun, hsound, hsize, horder⟩ := ih _ hcalls
      have hknown : ∀ tx curSourceNonce, call = .importTx tx curSourceNonce →
          imported calls tx := fun tx curSourceNonce heq =>
        ⟨curSourceNonce, by rw [hcalls, heq]; simp⟩
      obtain ⟨q', hstep, hsound', hsize'⟩ :=
        step_sound hcollision hlimit call hknown hsound hsize
      refine ⟨q', by rw [run_append, hrun, Option.bind_some, hstep], hsound', hsize', ?_⟩
      exact step_inOrder hcollision hlimit hplace call hknown hsound hsize horder
        (hkeeps before call after hcalls q hrun) hstep

/-- **The pool stays in order** in every run whose calls make no transaction pass one of
another account, and what `Import` drops has the lowest priority. -/
theorem run_ordered (calls : List Call) (hcollision : NoCollision cfg.lib (imported calls))
    (hplace : PlacesByPriority cfg)
    (hkeeps : ∀ before call after, calls = before ++ call :: after →
      ∀ q, run cfg before = some q → Keeps cfg q call)
    (before after : List Call) (hcalls : calls = before ++ after) :
    ∃ q, run cfg before = some q ∧ q.Ordered ∧ ∀ call ∈ after.head?, EvictsLowest cfg q call := by
  rcases Nat.eq_zero_or_pos cfg.accountTxsLimit with hzero | hlimit
  · obtain ⟨q, hrun, hvacant⟩ := run_vacant hzero before
    exact ⟨q, hrun, hvacant.ordered, fun call _ => hvacant.evictsLowest hzero call⟩
  · obtain ⟨q, hrun, hsound, hsize, horder⟩ :=
      run_inOrder hcollision hlimit hplace hkeeps before after hcalls
    refine ⟨q, hrun, hsound.ordered horder, fun call hcall => ?_⟩
    obtain ⟨rest, hafter⟩ := List.head?_eq_some_iff.mp hcall
    rw [hafter] at hcalls
    refine hsound.evictsLowest hcollision hlimit hplace (fun tx curSourceNonce heq => ?_) hsize
      horder (hkeeps before call rest hcalls q hrun)
    exact ⟨curSourceNonce, by rw [hcalls, heq]; simp⟩

end Order

/-- A pool that puts a transaction at its upper bound. -/
def orderedPool : PoolConfig where
  lib := sampleLibrary
  queueLimit := 8
  accountTxsLimit := 4
  place tx q := Nodes.upperBound (priorityCompare q.nonceOf) tx q.queue
  outbids := outbids

/-- Two payments of an account, the later one first, and a ledger that takes the other. -/
def twoPayments : List Call :=
  [.importTx (samplePayment 2) 0, .importTx (samplePayment 1) 0,
    .removeTxs [(samplePayment 1).env] true]

theorem run_ordered_payments :
    ∃ q, run orderedPool twoPayments = some q ∧ q.Ordered ∧
      ∀ call ∈ ([] : List Call).head?, EvictsLowest orderedPool q call := by
  have hpayments : ∀ tx, imported twoPayments tx → tx = samplePayment 1 ∨ tx = samplePayment 2 := by
    rintro tx ⟨nonce, hmem⟩
    simp only [twoPayments, List.mem_cons, Call.importTx.injEq, reduceCtorEq, List.not_mem_nil,
      or_false] at hmem
    exact (hmem.imp And.left And.left).symm
  have hcollision : NoCollision orderedPool.lib (imported twoPayments) :=
    noCollision_samplePayment hpayments
  refine run_ordered twoPayments hcollision (fun tx q _ => rfl) ?_ twoPayments [] rfl
  intro before call after hcalls q hrun
  obtain ⟨q', hrun', hsound, -⟩ := run_sound before
    (fun other hother => by rw [hcalls]; exact List.mem_append_left _ hother) hcollision
    (by decide)
  obtain rfl : q' = q := Option.some.inj (hrun'.symm.trans hrun)
  refine keeps_of_one_account payerAddress (fun t ht => ?_) call
  obtain ⟨entry, hentry, rfl⟩ := List.mem_map.mp ht
  rcases hpayments _ (hsound.indexed.known_queue entry hentry) with heq | heq <;> rw [heq] <;> rfl

/-- A payment with a gas price, as it comes in at time 0. -/
def pricedPayment (source : Address) (nonce : ℤ) (gasPrice : Int64) : QueuedTransaction :=
  let env := payment source calleeAddress 1 nonce
  ⟨{ env with transaction := { env.transaction with gasPrice := gasPrice } }, 0⟩

/-- The payer sends two payments, the second at ten times the price, the caller sends one, and
a ledger takes the first payment of the payer. -/
def passingCalls : List Call :=
  [.importTx (pricedPayment payerAddress 1 1) 0, .importTx (pricedPayment callerAddress 1 1) 0,
    .importTx (pricedPayment payerAddress 2 10) 0,
    .removeTxs [(pricedPayment payerAddress 1 1).env] true]

/-- The second payment of the payer is next and pays more, and stays behind the caller's. -/
theorem passing_a_payment :
    ∃ q, run orderedPool passingCalls = some q ∧ ¬ q.InOrder := by
  have horder : (run orderedPool passingCalls).map (fun q => decide q.InOrder) = some false := by
    decide +kernel
  obtain ⟨q, hrun, hfalse⟩ := Option.map_eq_some_iff.mp horder
  exact ⟨q, hrun, of_decide_eq_false hfalse⟩

end TransactionQueue

end CegChain
