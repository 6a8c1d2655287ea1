import CegChain.Glue.TransactionQueue
import CegChain.Ledger.LedgerFrm

/-!
# The indexes of the transaction pool

The four containers of the pool and the nonces of its accounts describe the same
transactions after every sequence of calls.  `TransactionQueue.Indexed` is what every
operation keeps, also between the steps of `Import`; a transaction is removed from all the
containers at once (`removeAt_indexed`), and so both loops of the pool end.

A hash stands for one transaction: no two transactions that are imported have the same
content hash.
-/

namespace CegChain

namespace TransactionQueue

/-- The transactions of the pool. -/
def txs (q : TransactionQueue) : List QueuedTransaction :=
  q.queue.map Prod.snd

/-- The iterators that `queue_by_address_and_nonce_` has for an account and a nonce. -/
def entryAt (address : Address) (nonce : ℤ) (q : TransactionQueue) : Option (ℕ × ℕ) :=
  (q.queueByAddressAndNonce.lookup address).bind fun byNonce => byNonce.lookup nonce

/-- The containers of the pool belong together.  `known` are the transactions that can be in
the pool. -/
structure Indexed (lib : Library) (known : QueuedTransaction → Prop) (q : TransactionQueue) :
    Prop where
  nodup_queue : (q.queue.map Prod.fst).Nodup
  nodup_timeQueue : (q.timeQueue.map Prod.fst).Nodup
  fresh_queue : ∀ entry ∈ q.queue, entry.1 < q.nextNode
  fresh_timeQueue : ∀ entry ∈ q.timeQueue, entry.1 < q.nextNode
  known_queue : ∀ entry ∈ q.queue, known entry.2
  of_queue : ∀ i tx, (i, tx) ∈ q.queue → ∃ j, q.entryAt tx.sourceAddress tx.nonce = some (i, j) ∧
    (j, tx) ∈ q.timeQueue ∧ q.queueByHash.lookup (tx.contentHash lib) = some tx
  of_timeQueue : ∀ j tx, (j, tx) ∈ q.timeQueue → ∃ i, (i, tx) ∈ q.queue ∧
    q.entryAt tx.sourceAddress tx.nonce = some (i, j)
  of_entryAt : ∀ address nonce i j, q.entryAt address nonce = some (i, j) →
    ∃ tx, (i, tx) ∈ q.queue ∧ tx.sourceAddress = address ∧ tx.nonce = nonce
  of_hash : ∀ hash tx, q.queueByHash.lookup hash = some tx →
    hash = tx.contentHash lib ∧ ∃ i, (i, tx) ∈ q.queue
  nonempty : ∀ address byNonce, q.queueByAddressAndNonce.lookup address = some byNonce →
    byNonce.entries ≠ []

/-- Every account has at most `limit` transactions. -/
def AccountsWithin (limit : ℕ) (q : TransactionQueue) : Prop :=
  ∀ address byNonce, q.queueByAddressAndNonce.lookup address = some byNonce →
    byNonce.entries.length ≤ limit

/-- The nonces are those of the accounts with transactions, and of `extra`. -/
def NoncesOf (extra : Address → Prop) (q : TransactionQueue) : Prop :=
  ∀ address, address ∈ q.accountNonce ↔ address ∈ q.queueByAddressAndNonce ∨ extra address

/-- No two transactions that can be in the pool have the same hash. -/
def NoCollision (lib : Library) (known : QueuedTransaction → Prop) : Prop :=
  ∀ tx tx', known tx → known tx' → tx.contentHash lib = tx'.contentHash lib →
    tx.env.transaction = tx'.env.transaction

section Indexes

variable {cfg : PoolConfig} {known : QueuedTransaction → Prop} {q : TransactionQueue}
  {address : Address} {nonce : ℤ} {byNonce : QueueByNonce} {tx : QueuedTransaction}

/-! ## Association lists -/

theorem length_erase_of_mem (hmem : nonce ∈ byNonce) :
    (byNonce.erase nonce).entries.length + 1 = byNonce.entries.length := by
  have hkeys : ∀ m : QueueByNonce, m.entries.length = m.keys.length := fun m => by
    simp [AList.keys, List.keys]
  rw [hkeys, hkeys, AList.keys_erase, List.length_erase_of_mem (AList.mem_keys.mp hmem)]
  exact Nat.sub_add_cancel (List.length_pos_of_mem (AList.mem_keys.mp hmem))

theorem exists_lookup_of_ne_nil (hne : byNonce.entries ≠ []) :
    ∃ nonce iters, byNonce.lookup nonce = some iters := by
  obtain ⟨⟨nonce, iters⟩, hmem⟩ := List.exists_mem_of_ne_nil _ hne
  exact ⟨nonce, iters, AList.mem_lookup_iff.mpr hmem⟩

/-! ## What the invariant says -/

namespace Indexed

variable (hindexed : q.Indexed cfg.lib known)

include hindexed

/-- An iterator into the queue points to one transaction. -/
theorem tx_eq {i : ℕ} {tx tx' : QueuedTransaction} (hmem : (i, tx) ∈ q.queue)
    (hmem' : (i, tx') ∈ q.queue) : tx = tx' :=
  (Prod.mk.inj (List.inj_on_of_nodup_map hindexed.nodup_queue hmem hmem' rfl)).2

/-- There is one transaction for an account and a nonce. -/
theorem eq_of_mem {i i' : ℕ} {tx tx' : QueuedTransaction} (hmem : (i, tx) ∈ q.queue)
    (hmem' : (i', tx') ∈ q.queue) (haddress : tx.sourceAddress = tx'.sourceAddress)
    (hnonce : tx.nonce = tx'.nonce) : i = i' ∧ tx = tx' := by
  obtain ⟨j, hentry, -⟩ := hindexed.of_queue i tx hmem
  obtain ⟨j', hentry', -⟩ := hindexed.of_queue i' tx' hmem'
  rw [haddress, hnonce, hentry'] at hentry
  obtain rfl : i' = i := congrArg Prod.fst (Option.some.inj hentry)
  exact ⟨rfl, hindexed.tx_eq hmem hmem'⟩

theorem nodup_keys : (q.txs.map fun tx => (tx.sourceAddress, tx.nonce)).Nodup := by
  unfold txs
  rw [List.map_map]
  refine (List.Nodup.of_map _ hindexed.nodup_queue).map_on fun entry hentry entry' hentry' heq => ?_
  obtain ⟨haddress, hnonce⟩ := Prod.mk.inj heq
  obtain ⟨hfst, hsnd⟩ := hindexed.eq_of_mem hentry hentry' haddress hnonce
  exact Prod.ext hfst hsnd

theorem mem_accounts_iff : address ∈ q.queueByAddressAndNonce ↔
    ∃ nonce iters, q.entryAt address nonce = some iters := by
  rw [← AList.lookup_isSome, Option.isSome_iff_exists]
  constructor
  · rintro ⟨byNonce, hlookup⟩
    obtain ⟨nonce, iters, hiters⟩ := exists_lookup_of_ne_nil (hindexed.nonempty _ _ hlookup)
    exact ⟨nonce, iters, by rw [entryAt, hlookup, Option.bind_some, hiters]⟩
  · rintro ⟨nonce, iters, hentry⟩
    obtain ⟨byNonce, hlookup, -⟩ := Option.bind_eq_some_iff.mp hentry
    exact ⟨byNonce, hlookup⟩

theorem mem_accounts_iff_exists_tx : address ∈ q.queueByAddressAndNonce ↔
    ∃ tx ∈ q.txs, tx.sourceAddress = address := by
  rw [hindexed.mem_accounts_iff]
  constructor
  · rintro ⟨nonce, ⟨i, j⟩, hentry⟩
    obtain ⟨tx, hmem, haddress, -⟩ := hindexed.of_entryAt _ _ _ _ hentry
    exact ⟨tx, List.mem_map_of_mem (f := Prod.snd) hmem, haddress⟩
  · rintro ⟨tx, htx, rfl⟩
    obtain ⟨⟨i, tx⟩, hmem, rfl⟩ := List.mem_map.mp htx
    obtain ⟨j, hentry, -⟩ := hindexed.of_queue i tx hmem
    exact ⟨_, _, hentry⟩

theorem entryAt_iff {i j : ℕ} : q.entryAt address nonce = some (i, j) ↔
    ∃ tx, (i, tx) ∈ q.queue ∧ (j, tx) ∈ q.timeQueue ∧ tx.sourceAddress = address ∧
      tx.nonce = nonce := by
  constructor
  · intro hentry
    obtain ⟨tx, hmem, rfl, rfl⟩ := hindexed.of_entryAt _ _ _ _ hentry
    obtain ⟨j', hentry', htime, -⟩ := hindexed.of_queue i tx hmem
    obtain rfl : j = j' := by
      rw [hentry'] at hentry
      exact (congrArg Prod.snd (Option.some.inj hentry)).symm
    exact ⟨tx, hmem, htime, rfl, rfl⟩
  · rintro ⟨tx, hmem, htime, rfl, rfl⟩
    obtain ⟨j', hentry, -, -⟩ := hindexed.of_queue i tx hmem
    obtain ⟨i', -, hentry'⟩ := hindexed.of_timeQueue j tx htime
    rw [hentry] at hentry' ⊢
    rw [Option.some.injEq, Prod.mk.injEq] at hentry'
    rw [hentry'.2]

end Indexed

/-! ## Removing -/

/-- What `Remove` through the iterators of an account and a nonce does to the indexes by
account. -/
theorem removeAt_lookup (iters : ℕ × ℕ) (other : Address) :
    (removeAt cfg address byNonce nonce iters true q).1.queueByAddressAndNonce.lookup other =
      if other = address then
        if (byNonce.erase nonce).entries = [] then none else some (byNonce.erase nonce)
      else q.queueByAddressAndNonce.lookup other := by
  unfold removeAt
  by_cases hempty : (byNonce.erase nonce).entries = [] <;> by_cases hother : other = address
  · subst hother
    simp [hempty]
  · simp [hempty, hother, AList.lookup_erase_ne hother, AList.lookup_insert_ne hother]
  · subst hother
    simp [hempty]
  · simp [hempty, hother, AList.lookup_insert_ne hother]

theorem removeAt_entryAt {iters : ℕ × ℕ}
    (hlookup : q.queueByAddressAndNonce.lookup address = some byNonce) (other : Address)
    (otherNonce : ℤ) :
    (removeAt cfg address byNonce nonce iters true q).1.entryAt other otherNonce =
      if other = address ∧ otherNonce = nonce then none else q.entryAt other otherNonce := by
  unfold entryAt
  rw [removeAt_lookup]
  by_cases hother : other = address
  · subst hother
    have herase : (byNonce.erase nonce).lookup otherNonce =
        if otherNonce = nonce then none else byNonce.lookup otherNonce := by
      split
      · rename_i heq
        rw [heq, AList.lookup_erase]
      · rename_i hne
        exact AList.lookup_erase_ne hne
    rw [hlookup, if_pos rfl]
    simp only [true_and, Option.bind_some]
    rw [← herase]
    split
    · rename_i hempty
      have hnone : otherNonce ∉ byNonce.erase nonce := by
        rw [AList.mem_keys, AList.keys, hempty]
        exact List.not_mem_nil
      rw [AList.lookup_eq_none.mpr hnone, Option.bind_none]
    · rfl
  · simp [hother]

theorem removeAt_queue (iters : ℕ × ℕ) :
    (removeAt cfg address byNonce nonce iters true q).1.queue = Nodes.erase iters.1 q.queue := by
  unfold removeAt
  simp only
  split <;> rfl

theorem removeAt_timeQueue (iters : ℕ × ℕ) :
    (removeAt cfg address byNonce nonce iters true q).1.timeQueue =
      Nodes.erase iters.2 q.timeQueue := by
  unfold removeAt
  simp only
  split <;> rfl

theorem removeAt_nextNode (iters : ℕ × ℕ) :
    (removeAt cfg address byNonce nonce iters true q).1.nextNode = q.nextNode := by
  unfold removeAt
  simp only
  split <;> rfl

theorem removeAt_queueByHash {iters : ℕ × ℕ} (hptr : Nodes.deref iters.1 q.queue = some tx) :
    (removeAt cfg address byNonce nonce iters true q).1.queueByHash =
      q.queueByHash.erase (tx.contentHash cfg.lib) := by
  unfold removeAt
  simp only [hptr]
  split <;> rfl

/-- The nonce of an account goes with its last transaction. -/
theorem removeAt_noncesOf {iters : ℕ × ℕ} {extra : Address → Prop} (hnonces : q.NoncesOf extra)
    (hextra : ¬ extra address) (hmem : address ∈ q.queueByAddressAndNonce) :
    (removeAt cfg address byNonce nonce iters true q).1.NoncesOf extra := by
  intro other
  have haddress := @removeAt_lookup cfg q address nonce byNonce iters other
  have hnonce : (removeAt cfg address byNonce nonce iters true q).1.accountNonce =
      if (byNonce.erase nonce).entries = [] then q.accountNonce.erase address
      else q.accountNonce := by
    unfold removeAt
    by_cases hempty : (byNonce.erase nonce).entries = [] <;> simp [hempty]
  rw [hnonce, ← @AList.lookup_isSome _ _ _ other
    (removeAt cfg address byNonce nonce iters true q).1.queueByAddressAndNonce, haddress]
  by_cases hempty : (byNonce.erase nonce).entries = [] <;> by_cases hother : other = address
  · subst hother
    simp [hempty, hextra]
  · have := hnonces other
    simp [hempty, hother, AList.mem_erase, this, AList.lookup_isSome]
  · subst hother
    simp [hempty, (hnonces other).mpr (Or.inl hmem)]
  · have := hnonces other
    simp [hempty, hother, this, AList.lookup_isSome]

/-- **`Remove` takes a transaction out of all the containers.** -/
theorem removeAt_indexed (hcollision : NoCollision cfg.lib known)
    (hindexed : q.Indexed cfg.lib known) {i j : ℕ}
    (hlookup : q.queueByAddressAndNonce.lookup address = some byNonce)
    (hiters : byNonce.lookup nonce = some (i, j)) :
    (removeAt cfg address byNonce nonce (i, j) true q).1.Indexed cfg.lib known := by
  have hentry : q.entryAt address nonce = some (i, j) := by
    rw [entryAt, hlookup, Option.bind_some, hiters]
  obtain ⟨tx, hmem, htime, haddress, hnonce⟩ := hindexed.entryAt_iff.mp hentry
  have hptr : Nodes.deref i q.queue = some tx :=
    (Nodes.deref_eq_some_iff hindexed.nodup_queue).mpr hmem
  -- what stays in the queue is for another account or nonce, and has another hash
  have hother : ∀ i' tx', (i', tx') ∈ q.queue → i' ≠ i →
      ¬ (tx'.sourceAddress = address ∧ tx'.nonce = nonce) := by
    rintro i' tx' hmem' hne ⟨haddress', hnonce'⟩
    exact hne (hindexed.eq_of_mem hmem' hmem (haddress'.trans haddress.symm)
      (hnonce'.trans hnonce.symm)).1
  have hhash : ∀ i' tx', (i', tx') ∈ q.queue → i' ≠ i →
      tx'.contentHash cfg.lib ≠ tx.contentHash cfg.lib := by
    intro i' tx' hmem' hne heq
    have hsame := hcollision tx' tx (hindexed.known_queue _ hmem') (hindexed.known_queue _ hmem) heq
    refine hother i' tx' hmem' hne ⟨?_, ?_⟩
    · rw [← haddress, QueuedTransaction.sourceAddress, hsame, QueuedTransaction.sourceAddress]
    · rw [← hnonce, QueuedTransaction.nonce, hsame, QueuedTransaction.nonce]
  constructor
  · rw [removeAt_queue]
    exact Nodes.nodup_erase hindexed.nodup_queue
  · rw [removeAt_timeQueue]
    exact Nodes.nodup_erase hindexed.nodup_timeQueue
  · rw [removeAt_queue, removeAt_nextNode]
    exact fun entry hentry => hindexed.fresh_queue entry (Nodes.mem_erase.mp hentry).1
  · rw [removeAt_timeQueue, removeAt_nextNode]
    exact fun entry hentry => hindexed.fresh_timeQueue entry (Nodes.mem_erase.mp hentry).1
  · rw [removeAt_queue]
    exact fun entry hentry => hindexed.known_queue entry (Nodes.mem_erase.mp hentry).1
  · intro i' tx' hmem'
    rw [removeAt_queue, Nodes.mem_erase] at hmem'
    obtain ⟨hmem', hne⟩ := hmem'
    obtain ⟨j', hentry', htime', hhash'⟩ := hindexed.of_queue i' tx' hmem'
    refine ⟨j', ?_, ?_, ?_⟩
    · rw [removeAt_entryAt hlookup, if_neg (hother i' tx' hmem' hne), hentry']
    · rw [removeAt_timeQueue, Nodes.mem_erase]
      refine ⟨htime', fun heq => hne ?_⟩
      obtain rfl : j' = j := heq
      have hsame := (Prod.mk.inj
        (List.inj_on_of_nodup_map hindexed.nodup_timeQueue htime' htime rfl)).2
      exact (hindexed.eq_of_mem hmem' hmem (by rw [hsame]) (by rw [hsame])).1
    · rw [removeAt_queueByHash hptr, AList.lookup_erase_ne (hhash i' tx' hmem' hne), hhash']
  · intro j' tx' htime'
    rw [removeAt_timeQueue, Nodes.mem_erase] at htime'
    obtain ⟨i', hmem', hentry'⟩ := hindexed.of_timeQueue j' tx' htime'.1
    have hne : i' ≠ i := by
      rintro rfl
      have hsame := hindexed.tx_eq hmem' hmem
      rw [hsame, haddress, hnonce, hentry] at hentry'
      exact htime'.2 (congrArg Prod.snd (Option.some.inj hentry')).symm
    refine ⟨i', ?_, ?_⟩
    · rw [removeAt_queue, Nodes.mem_erase]
      exact ⟨hmem', hne⟩
    · rw [removeAt_entryAt hlookup, if_neg (hother i' tx' hmem' hne), hentry']
  · intro address' nonce' i' j' hentry'
    rw [removeAt_entryAt hlookup] at hentry'
    split at hentry'
    · exact absurd hentry' (by simp)
    · rename_i hne
      obtain ⟨tx', hmem', haddress', hnonce'⟩ := hindexed.of_entryAt _ _ _ _ hentry'
      refine ⟨tx', ?_, haddress', hnonce'⟩
      rw [removeAt_queue, Nodes.mem_erase]
      refine ⟨hmem', ?_⟩
      rintro rfl
      have hsame := hindexed.tx_eq hmem' hmem
      exact hne ⟨by rw [← haddress', hsame, haddress], by rw [← hnonce', hsame, hnonce]⟩
  · intro hash tx' hlookup'
    rw [removeAt_queueByHash hptr] at hlookup'
    have hne : hash ≠ tx.contentHash cfg.lib := by
      rintro rfl
      rw [AList.lookup_erase] at hlookup'
      exact absurd hlookup' (by simp)
    rw [AList.lookup_erase_ne hne] at hlookup'
    obtain ⟨rfl, i', hmem'⟩ := hindexed.of_hash _ _ hlookup'
    refine ⟨rfl, i', ?_⟩
    rw [removeAt_queue, Nodes.mem_erase]
    refine ⟨hmem', ?_⟩
    rintro rfl
    have hsame := hindexed.tx_eq hmem' hmem
    exact hne (by rw [hsame])
  · intro other byNonce' hlookup'
    rw [removeAt_lookup] at hlookup'
    split at hlookup'
    · split at hlookup'
      · exact absurd hlookup' (by simp)
      · rename_i hne
        exact Option.some.inj hlookup' ▸ hne
    · exact hindexed.nonempty _ _ hlookup'

/-- What every call keeps. -/
structure Sound (cfg : PoolConfig) (known : QueuedTransaction → Prop) (q : TransactionQueue) :
    Prop where
  indexed : q.Indexed cfg.lib known
  accounts : q.AccountsWithin cfg.accountTxsLimit
  nonces : q.NoncesOf fun _ => False

theorem removeAt_accountsWithin {limit : ℕ} {iters : ℕ × ℕ} (haccounts : q.AccountsWithin limit)
    (hlookup : q.queueByAddressAndNonce.lookup address = some byNonce)
    (hiters : byNonce.lookup nonce = some iters) :
    (removeAt cfg address byNonce nonce iters true q).1.AccountsWithin limit := by
  intro other byNonce' hlookup'
  rw [removeAt_lookup] at hlookup'
  split at hlookup'
  · split at hlookup'
    · exact absurd hlookup' (by simp)
    · obtain rfl := Option.some.inj hlookup'
      have hmem : nonce ∈ byNonce := AList.lookup_isSome.mp (by rw [hiters]; rfl)
      have hlength := length_erase_of_mem hmem
      have hle := haccounts _ _ hlookup
      omega
  · exact haccounts _ _ hlookup'

theorem remove_sound (hcollision : NoCollision cfg.lib known) (hsound : q.Sound cfg known)
    (address : Address) (nonce : ℤ) : (remove cfg address nonce q).1.Sound cfg known := by
  unfold remove
  split
  · rename_i byNonce hlookup
    split
    · rename_i iters hiters
      have hmem : address ∈ q.queueByAddressAndNonce :=
        AList.lookup_isSome.mp (by rw [hlookup]; rfl)
      exact ⟨removeAt_indexed hcollision hsound.indexed hlookup hiters,
        removeAt_accountsWithin hsound.accounts hlookup hiters,
        removeAt_noncesOf hsound.nonces id hmem⟩
    · exact hsound
  · exact hsound

/-- `Remove` of a transaction of the pool takes one transaction away. -/
theorem remove_length (hsound : q.Sound cfg known) (htx : tx ∈ q.txs) :
    (remove cfg tx.sourceAddress tx.nonce q).1.queue.length + 1 = q.queue.length ∧
      (remove cfg tx.sourceAddress tx.nonce q).1.timeQueue.length + 1 = q.timeQueue.length := by
  obtain ⟨⟨i, tx⟩, hmem, rfl⟩ := List.mem_map.mp htx
  obtain ⟨j, hentry, htime, -⟩ := hsound.indexed.of_queue i tx hmem
  obtain ⟨byNonce, hlookup, hiters⟩ := Option.bind_eq_some_iff.mp hentry
  simp only [remove, hlookup, hiters]
  rw [removeAt_queue, removeAt_timeQueue]
  exact ⟨Nodes.length_erase hsound.indexed.nodup_queue hmem,
    Nodes.length_erase hsound.indexed.nodup_timeQueue htime⟩

/-! ## Inserting -/

theorem insert_lookup (other : Address) :
    (insert cfg tx q).queueByAddressAndNonce.lookup other =
      if other = tx.sourceAddress then
        some (((q.queueByAddressAndNonce.lookup tx.sourceAddress).getD ∅).insert tx.nonce
          (q.nextNode, q.nextNode))
      else q.queueByAddressAndNonce.lookup other := by
  unfold insert
  split
  · rename_i heq
    rw [heq, AList.lookup_insert]
  · rename_i hne
    exact AList.lookup_insert_ne hne

theorem insert_entryAt (other : Address) (otherNonce : ℤ) :
    (insert cfg tx q).entryAt other otherNonce =
      if other = tx.sourceAddress ∧ otherNonce = tx.nonce then some (q.nextNode, q.nextNode)
      else q.entryAt other otherNonce := by
  unfold entryAt
  rw [insert_lookup]
  by_cases hother : other = tx.sourceAddress
  · subst hother
    simp only [if_true, true_and, Option.bind_some]
    by_cases hnonce : otherNonce = tx.nonce
    · rw [if_pos hnonce, hnonce, AList.lookup_insert]
    · rw [if_neg hnonce, AList.lookup_insert_ne hnonce]
      cases q.queueByAddressAndNonce.lookup tx.sourceAddress with
      | none => simp
      | some byNonce => rfl
  · simp [hother]

/-- `Insert` puts a transaction into all the containers. -/
theorem insert_indexed (hcollision : NoCollision cfg.lib known)
    (hindexed : q.Indexed cfg.lib known) (hknown : known tx)
    (hnew : q.entryAt tx.sourceAddress tx.nonce = none) :
    (insert cfg tx q).Indexed cfg.lib known := by
  have hfresh : ∀ nodes : List (ℕ × QueuedTransaction), (∀ entry ∈ nodes, entry.1 < q.nextNode) →
      q.nextNode ∉ nodes.map Prod.fst := by
    intro nodes hnodes hmem
    obtain ⟨entry, hentry, heq⟩ := List.mem_map.mp hmem
    exact absurd (hnodes entry hentry) (heq ▸ lt_irrefl _)
  -- a transaction that is there is for another account or nonce, and has another hash
  have hother : ∀ i' tx', (i', tx') ∈ q.queue →
      ¬ (tx'.sourceAddress = tx.sourceAddress ∧ tx'.nonce = tx.nonce) := by
    rintro i' tx' hmem' ⟨haddress, hnonce⟩
    obtain ⟨j', hentry, -⟩ := hindexed.of_queue i' tx' hmem'
    rw [haddress, hnonce, hnew] at hentry
    exact absurd hentry (by simp)
  have hhash : ∀ i' tx', (i', tx') ∈ q.queue →
      tx'.contentHash cfg.lib ≠ tx.contentHash cfg.lib := by
    intro i' tx' hmem' heq
    have hsame := hcollision tx' tx (hindexed.known_queue _ hmem') hknown heq
    exact hother i' tx' hmem' ⟨congrArg Transaction.sourceAddress hsame,
      congrArg Transaction.nonce hsame⟩
  have hself : (insert cfg tx q).entryAt tx.sourceAddress tx.nonce =
      some (q.nextNode, q.nextNode) := by
    rw [insert_entryAt, if_pos ⟨rfl, rfl⟩]
  have hmemQueue : ∀ entry, entry ∈ (insert cfg tx q).queue ↔
      entry = (q.nextNode, tx) ∨ entry ∈ q.queue := fun _ => Nodes.mem_emplace
  have hmemTime : ∀ entry, entry ∈ (insert cfg tx q).timeQueue ↔
      entry = (q.nextNode, tx) ∨ entry ∈ q.timeQueue := fun _ => Nodes.mem_emplace
  constructor
  · exact Nodes.nodup_emplace hindexed.nodup_queue (hfresh _ hindexed.fresh_queue)
  · exact Nodes.nodup_emplace hindexed.nodup_timeQueue (hfresh _ hindexed.fresh_timeQueue)
  · intro entry hentry
    rcases (hmemQueue entry).mp hentry with rfl | hold
    · exact Nat.lt_succ_self _
    · exact Nat.lt_succ_of_lt (hindexed.fresh_queue entry hold)
  · intro entry hentry
    rcases (hmemTime entry).mp hentry with rfl | hold
    · exact Nat.lt_succ_self _
    · exact Nat.lt_succ_of_lt (hindexed.fresh_timeQueue entry hold)
  · intro entry hentry
    rcases (hmemQueue entry).mp hentry with rfl | hold
    · exact hknown
    · exact hindexed.known_queue entry hold
  · intro i' tx' hmem'
    rcases (hmemQueue _).mp hmem' with heq | hold
    · obtain ⟨rfl, rfl⟩ := Prod.mk.inj heq
      exact ⟨q.nextNode, hself, (hmemTime _).mpr (Or.inl rfl), AList.lookup_insert _⟩
    · obtain ⟨j', hentry, htime, hlookup⟩ := hindexed.of_queue i' tx' hold
      refine ⟨j', ?_, (hmemTime _).mpr (Or.inr htime), ?_⟩
      · rw [insert_entryAt, if_neg (hother i' tx' hold), hentry]
      · exact (AList.lookup_insert_ne (hhash i' tx' hold)).trans hlookup
  · intro j' tx' htime'
    rcases (hmemTime _).mp htime' with heq | hold
    · obtain ⟨rfl, rfl⟩ := Prod.mk.inj heq
      exact ⟨q.nextNode, (hmemQueue _).mpr (Or.inl rfl), hself⟩
    · obtain ⟨i', hmem', hentry⟩ := hindexed.of_timeQueue j' tx' hold
      refine ⟨i', (hmemQueue _).mpr (Or.inr hmem'), ?_⟩
      rw [insert_entryAt, if_neg (hother i' tx' hmem'), hentry]
  · intro address' nonce' i' j' hentry'
    rw [insert_entryAt] at hentry'
    split at hentry'
    · rename_i heq
      obtain ⟨rfl, -⟩ := Prod.mk.inj (Option.some.inj hentry')
      exact ⟨tx, (hmemQueue _).mpr (Or.inl rfl), heq.1.symm, heq.2.symm⟩
    · obtain ⟨tx', hmem', hkeys⟩ := hindexed.of_entryAt _ _ _ _ hentry'
      exact ⟨tx', (hmemQueue _).mpr (Or.inr hmem'), hkeys⟩
  · intro hash tx' hlookup'
    by_cases hsame : hash = tx.contentHash cfg.lib
    · subst hsame
      obtain rfl : tx = tx' := Option.some.inj ((AList.lookup_insert _).symm.trans hlookup')
      exact ⟨rfl, q.nextNode, (hmemQueue _).mpr (Or.inl rfl)⟩
    · obtain ⟨hhash', i', hmem'⟩ :=
        hindexed.of_hash hash tx' ((AList.lookup_insert_ne hsame).symm.trans hlookup')
      exact ⟨hhash', i', (hmemQueue _).mpr (Or.inr hmem')⟩
  · intro other byNonce' hlookup'
    rw [insert_lookup] at hlookup'
    split at hlookup'
    · obtain rfl := Option.some.inj hlookup'
      rw [AList.entries_insert]
      exact List.cons_ne_nil _ _
    · exact hindexed.nonempty _ _ hlookup'

/-- The number of transactions that `queue_by_address_and_nonce_` has for an account. -/
def accountSize (address : Address) (q : TransactionQueue) : ℕ :=
  ((q.queueByAddressAndNonce.lookup address).getD ∅).entries.length

/-- A transaction is inserted for an account that has room for it and whose nonce is there. -/
theorem insert_sound (hcollision : NoCollision cfg.lib known)
    (hindexed : q.Indexed cfg.lib known) (haccounts : q.AccountsWithin cfg.accountTxsLimit)
    (hnonces : q.NoncesOf (· = tx.sourceAddress)) (hknown : known tx)
    (hnew : q.entryAt tx.sourceAddress tx.nonce = none)
    (hroom : q.accountSize tx.sourceAddress < cfg.accountTxsLimit) :
    (insert cfg tx q).Sound cfg known := by
  refine ⟨insert_indexed hcollision hindexed hknown hnew, ?_, ?_⟩
  · intro other byNonce hlookup
    rw [insert_lookup] at hlookup
    split at hlookup
    · obtain rfl := Option.some.inj hlookup
      have hnotMem : tx.nonce ∉ (q.queueByAddressAndNonce.lookup tx.sourceAddress).getD ∅ := by
        rw [← AList.lookup_eq_none]
        unfold entryAt at hnew
        cases hcase : q.queueByAddressAndNonce.lookup tx.sourceAddress with
        | none => simp
        | some byNonce => rwa [hcase] at hnew
      rw [AList.entries_insert_of_notMem hnotMem, List.length_cons]
      exact hroom
    · exact haccounts _ _ hlookup
  · intro other
    have hmem : other ∈ (insert cfg tx q).queueByAddressAndNonce ↔
        other = tx.sourceAddress ∨ other ∈ q.queueByAddressAndNonce := AList.mem_insert _
    rw [hmem, or_false, or_comm]
    exact hnonces other

/-! ## Loops -/

/-- Every round of the loop of `Import` removes one transaction. -/
theorem evictRound_spec (hcollision : NoCollision cfg.lib known) (hsound : q.Sound cfg known)
    (hsize : cfg.queueLimit < q.queue.length) :
    (evictRound cfg q).1.Sound cfg known ∧
      (evictRound cfg q).1.queue.length + 1 = q.queue.length := by
  have hne : q.queue ≠ [] := List.ne_nil_of_length_pos (Nat.zero_lt_of_lt hsize)
  obtain ⟨⟨i, t⟩, hlast⟩ := Option.isSome_iff_exists.mp (List.getLast?_isSome.mpr hne)
  have hmem : t ∈ q.txs := List.mem_map_of_mem (f := Prod.snd) (List.mem_of_getLast? hlast)
  simp only [evictRound, hlast]
  exact ⟨remove_sound hcollision hsound _ _, (remove_length hsound hmem).1⟩

theorem evictLoop_spec (hcollision : NoCollision cfg.lib known) (tx : QueuedTransaction)
    (fuel : ℕ) (result : ImportResult) (hsound : q.Sound cfg known)
    (hfuel : q.queue.length ≤ fuel + cfg.queueLimit) :
    ∃ q' result', evictLoop cfg tx fuel q result = some (q', result') ∧ q'.Sound cfg known ∧
      q'.queue.length ≤ cfg.queueLimit := by
  induction fuel generalizing q result with
  | zero =>
      have hle : ¬ cfg.queueLimit < q.queue.length := by omega
      rw [evictLoop, if_neg hle]
      exact ⟨q, result, rfl, hsound, not_lt.mp hle⟩
  | succ fuel ih =>
      rw [evictLoop]
      split
      · rename_i hsize
        obtain ⟨hsound', hlength⟩ := evictRound_spec hcollision hsound hsize
        have hle : (evictRound cfg q).1.queue.length ≤ fuel + cfg.queueLimit := by omega
        exact ih _ hsound' hle
      · rename_i hle
        exact ⟨q, result, rfl, hsound, not_lt.mp hle⟩

/-- Every round of the loop of `CheckTimeoutAndDel` removes one transaction. -/
theorem timeoutRound_spec (hcollision : NoCollision cfg.lib known) (hsound : q.Sound cfg known)
    {currentTime : ℤ} (htimeout : timedOut? currentTime q = some tx) :
    (timeoutRound cfg currentTime q).Sound cfg known ∧
      (timeoutRound cfg currentTime q).queue.length + 1 = q.queue.length ∧
      (timeoutRound cfg currentTime q).timeQueue.length + 1 = q.timeQueue.length := by
  have htime : ∃ j, (j, tx) ∈ q.timeQueue := by
    unfold timedOut? at htimeout
    split at htimeout
    · rename_i j tx' rest hqueue
      split at htimeout
      · obtain rfl := Option.some.inj htimeout
        exact ⟨j, by rw [hqueue]; exact List.mem_cons_self⟩
      · exact absurd htimeout (by simp)
    · exact absurd htimeout (by simp)
  obtain ⟨j, htime⟩ := htime
  obtain ⟨i, hmem, -⟩ := hsound.indexed.of_timeQueue j tx htime
  simp only [timeoutRound, htimeout]
  exact ⟨remove_sound hcollision hsound _ _,
    remove_length hsound (List.mem_map_of_mem (f := Prod.snd) hmem)⟩

theorem timeoutLoop_spec (hcollision : NoCollision cfg.lib known) (currentTime : ℤ) (fuel : ℕ)
    (timeoutTxs : List QueuedTransaction) (hsound : q.Sound cfg known)
    (hsize : q.queue.length ≤ cfg.queueLimit) (hfuel : q.timeQueue.length ≤ fuel) :
    ∃ q' timeoutTxs', timeoutLoop cfg currentTime fuel q timeoutTxs = some (q', timeoutTxs') ∧
      q'.Sound cfg known ∧ q'.queue.length ≤ cfg.queueLimit := by
  induction fuel generalizing q timeoutTxs with
  | zero =>
      have hnil : q.timeQueue = [] := List.length_eq_zero_iff.mp (Nat.le_zero.mp hfuel)
      have hnone : timedOut? currentTime q = none := by rw [timedOut?, hnil]
      rw [timeoutLoop, hnone]
      exact ⟨q, timeoutTxs, rfl, hsound, hsize⟩
  | succ fuel ih =>
      rw [timeoutLoop]
      cases htimeout : timedOut? currentTime q with
      | none => exact ⟨q, timeoutTxs, rfl, hsound, hsize⟩
      | some tx =>
          obtain ⟨hsound', hlength, htime⟩ := timeoutRound_spec hcollision hsound htimeout
          exact ih _ hsound' (by omega) (by omega)

/-! ## Calls -/

/-- `Import` can insert the transaction: there is none for its account and nonce, the nonce of
the account is there, and if the transaction is to be inserted the account has room for it. -/
structure CanInsert (cfg : PoolConfig) (known : QueuedTransaction → Prop)
    (tx : QueuedTransaction) (replace : Bool) (size : ℕ) (q : TransactionQueue) : Prop where
  indexed : q.Indexed cfg.lib known
  accounts : q.AccountsWithin cfg.accountTxsLimit
  nonces : q.NoncesOf (· = tx.sourceAddress)
  new : q.entryAt tx.sourceAddress tx.nonce = none
  room : (replace || size < cfg.accountTxsLimit) = true →
    q.accountSize tx.sourceAddress < cfg.accountTxsLimit
  full : (replace || size < cfg.accountTxsLimit) = false →
    tx.sourceAddress ∈ q.queueByAddressAndNonce
  size : q.queue.length ≤ cfg.queueLimit

/-- The nonce of an account that has transactions is no extra one. -/
theorem NoncesOf.of_mem (hnonces : q.NoncesOf (· = address))
    (hmem : address ∈ q.queueByAddressAndNonce) : q.NoncesOf fun _ => False := by
  intro other
  rw [hnonces other, or_false]
  constructor
  · rintro (hother | rfl)
    · exact hother
    · exact hmem
  · exact Or.inl

theorem NoncesOf.insert (hnonces : q.NoncesOf fun _ => False) (address : Address) (nonce : ℤ) :
    ({ q with accountNonce := q.accountNonce.insert address nonce }
      : TransactionQueue).NoncesOf (· = address) := by
  intro other
  simp only [AList.mem_insert, hnonces other, or_false]
  exact or_comm

/-- The nonces are no part of the indexes. -/
theorem Indexed.withNonces (hindexed : q.Indexed cfg.lib known)
    (accountNonce : AList fun _ : Address => ℤ) :
    ({ q with accountNonce := accountNonce } : TransactionQueue).Indexed cfg.lib known :=
  ⟨hindexed.nodup_queue, hindexed.nodup_timeQueue, hindexed.fresh_queue, hindexed.fresh_timeQueue,
    hindexed.known_queue, hindexed.of_queue, hindexed.of_timeQueue, hindexed.of_entryAt,
    hindexed.of_hash, hindexed.nonempty⟩

theorem CanInsert.insert {replace : Bool} {size : ℕ} (hcollision : NoCollision cfg.lib known)
    (hcan : q.CanInsert cfg known tx replace size) (hknown : known tx)
    (hinsert : (replace || size < cfg.accountTxsLimit) = true) :
    (insert cfg tx q).Sound cfg known :=
  insert_sound hcollision hcan.indexed hcan.accounts hcan.nonces hknown hcan.new
    (hcan.room hinsert)

theorem importInsert_sound {replace : Bool} {size : ℕ} (hcollision : NoCollision cfg.lib known)
    (hcan : q.CanInsert cfg known tx replace size) (hknown : known tx) :
    ∃ q' result, importInsert cfg tx replace size q = some (q', result) ∧ q'.Sound cfg known ∧
      q'.queue.length ≤ cfg.queueLimit := by
  obtain ⟨q₁, result, hinserted, hsound, hle⟩ : ∃ q₁ result,
      (if replace || size < cfg.accountTxsLimit then
        evictLoop cfg tx (insert cfg tx q).queue.length (insert cfg tx q) ⟨true, false⟩
      else some (q, ⟨false, false⟩)) = some (q₁, result) ∧ q₁.Sound cfg known ∧
      q₁.queue.length ≤ cfg.queueLimit := by
    cases hinsert : (replace || size < cfg.accountTxsLimit : Bool) with
    | true =>
        simp only [if_true]
        exact evictLoop_spec hcollision tx (insert cfg tx q).queue.length ⟨true, false⟩
          (hcan.insert hcollision hknown hinsert) (Nat.le_add_right _ _)
    | false =>
        simp only [Bool.false_eq_true, if_false]
        exact ⟨q, ⟨false, false⟩, rfl,
          ⟨hcan.indexed, hcan.accounts, hcan.nonces.of_mem (hcan.full hinsert)⟩, hcan.size⟩
  simp only [importInsert, hinserted, Option.map_some]
  split
  · exact ⟨q₁, ⟨false, true⟩, rfl, hsound, hle⟩
  · exact ⟨q₁, result, rfl, hsound, hle⟩

theorem entryAt_of_lookup (hlookup : q.queueByAddressAndNonce.lookup address = some byNonce) :
    q.entryAt address nonce = byNonce.lookup nonce := by
  rw [entryAt, hlookup, Option.bind_some]

/-- The transaction that is replaced leaves room for the new one. -/
theorem removeAt_canInsert {iters : ℕ × ℕ} (hcollision : NoCollision cfg.lib known)
    (hsound : q.Sound cfg known) (hlimit : 1 ≤ cfg.accountTxsLimit) (curSourceNonce : ℤ)
    (hsize : q.queue.length ≤ cfg.queueLimit)
    (hlookup : q.queueByAddressAndNonce.lookup tx.sourceAddress = some byNonce)
    (hiters : byNonce.lookup tx.nonce = some iters) (size : ℕ) :
    let q₁ := (removeAt cfg tx.sourceAddress byNonce tx.nonce iters true q).1
    ({ q₁ with accountNonce := q₁.accountNonce.insert tx.sourceAddress curSourceNonce }
      : TransactionQueue).CanInsert cfg known tx true size := by
  intro q₁
  have hmem : tx.sourceAddress ∈ q.queueByAddressAndNonce :=
    AList.lookup_isSome.mp (by rw [hlookup]; rfl)
  have hnonces : q₁.NoncesOf fun _ => False := removeAt_noncesOf hsound.nonces id hmem
  refine ⟨(removeAt_indexed hcollision hsound.indexed hlookup hiters).withNonces _,
    removeAt_accountsWithin hsound.accounts hlookup hiters, hnonces.insert _ _, ?_, ?_, ?_, ?_⟩
  · exact (removeAt_entryAt hlookup _ _).trans (if_pos ⟨rfl, rfl⟩)
  · intro _
    have hin : tx.nonce ∈ byNonce := AList.lookup_isSome.mp (by rw [hiters]; rfl)
    have hlength := length_erase_of_mem hin
    have hle := hsound.accounts _ _ hlookup
    simp only [accountSize, q₁]
    rw [removeAt_lookup, if_pos rfl]
    split
    · exact hlimit
    · simp only [Option.getD_some]
      omega
  · exact fun hfull => absurd hfull (by simp)
  · simp only [q₁]
    rw [removeAt_queue]
    exact (List.length_filter_le _ _).trans hsize

theorem importPrepare_spec (hcollision : NoCollision cfg.lib known) (hsound : q.Sound cfg known)
    (hlimit : 1 ≤ cfg.accountTxsLimit) (tx : QueuedTransaction) (curSourceNonce : ℤ)
    (hsize : q.queue.length ≤ cfg.queueLimit) :
    (∃ q', importPrepare cfg tx curSourceNonce q = some (.dropped q') ∧ q'.Sound cfg known ∧
        q'.queue.length ≤ cfg.queueLimit) ∨
      ∃ q' replace size, importPrepare cfg tx curSourceNonce q = some (.go q' replace size) ∧
        q'.CanInsert cfg known tx replace size := by
  have hnonces := hsound.nonces.insert tx.sourceAddress curSourceNonce
  have hindexed := hsound.indexed.withNonces
    (q.accountNonce.insert tx.sourceAddress curSourceNonce)
  simp only [importPrepare]
  cases hlookup : q.queueByAddressAndNonce.lookup tx.sourceAddress with
  | none =>
      refine Or.inr ⟨_, _, _, rfl, hindexed, hsound.accounts, hnonces, ?_, ?_, ?_, hsize⟩
      · simp only [entryAt, hlookup, Option.bind_none]
      · intro _
        simp only [accountSize, hlookup, Option.getD_none, AList.empty_entries, List.length_nil]
        exact hlimit
      · intro hfull
        simp only [Bool.false_or, decide_eq_false_iff_not] at hfull
        exact absurd hlimit hfull
  | some byNonce =>
      have hmem : tx.sourceAddress ∈ q.queueByAddressAndNonce :=
        AList.lookup_isSome.mp (by rw [hlookup]; rfl)
      dsimp only
      cases hiters : byNonce.lookup tx.nonce with
      | none =>
          refine Or.inr ⟨_, _, _, rfl, hindexed, hsound.accounts, hnonces, ?_, ?_, ?_, hsize⟩
          · exact (entryAt_of_lookup hlookup).trans hiters
          · intro hroom
            simp only [Bool.false_or, decide_eq_true_eq] at hroom
            simpa [accountSize, hlookup] using hroom
          · exact fun _ => hmem
      | some iters =>
          have hentry : q.entryAt tx.sourceAddress tx.nonce = some (iters.1, iters.2) :=
            (entryAt_of_lookup hlookup).trans hiters
          obtain ⟨old, hold, -, -⟩ := hsound.indexed.of_entryAt _ _ _ _ hentry
          have hptr : Nodes.deref iters.1 q.queue = some old :=
            (Nodes.deref_eq_some_iff hindexed.nodup_queue).mpr hold
          have hset : ({ q with
              accountNonce := q.accountNonce.insert tx.sourceAddress curSourceNonce }
                : TransactionQueue).Sound cfg known :=
            ⟨hindexed, hsound.accounts, hnonces.of_mem hmem⟩
          simp only [hptr]
          split
          · exact Or.inr ⟨_, _, _, rfl, removeAt_canInsert hcollision hset hlimit curSourceNonce
              hsize hlookup hiters _⟩
          · exact Or.inl ⟨_, rfl, hset, hsize⟩

theorem importTx_sound (hcollision : NoCollision cfg.lib known) (hsound : q.Sound cfg known)
    (hlimit : 1 ≤ cfg.accountTxsLimit) (hknown : known tx) (curSourceNonce : ℤ)
    (hsize : q.queue.length ≤ cfg.queueLimit) :
    ∃ q' result, importTx cfg tx curSourceNonce q = some (q', result) ∧ q'.Sound cfg known ∧
      q'.queue.length ≤ cfg.queueLimit := by
  rcases importPrepare_spec hcollision hsound hlimit tx curSourceNonce hsize with
    ⟨q', hprepare, hsound', hsize'⟩ | ⟨q', replace, size, hprepare, hcan⟩
  · exact ⟨q', _, by rw [importTx, hprepare, Option.bind_some], hsound', hsize'⟩
  · rw [importTx, hprepare, Option.bind_some]
    exact importInsert_sound hcollision hcan hknown

theorem updateNonce_sound (hsound : q.Sound cfg known) (address : Address) (nonce : ℤ)
    (closeLedger : Bool) : (updateNonce address nonce closeLedger q).Sound cfg known := by
  unfold updateNonce
  split
  · rename_i accountNonce hlookup
    split
    · refine ⟨hsound.indexed.withNonces _, hsound.accounts, fun other => ?_⟩
      have hmem : address ∈ q.accountNonce := AList.lookup_isSome.mp (by rw [hlookup]; rfl)
      rw [AList.mem_insert, ← hsound.nonces other]
      exact ⟨fun h => h.elim (fun heq => heq ▸ hmem) id, Or.inr⟩
    · exact hsound
  · exact hsound

theorem remove_queue_length_le (address : Address) (nonce : ℤ) :
    (remove cfg address nonce q).1.queue.length ≤ q.queue.length := by
  unfold remove
  split
  · split
    · rw [removeAt_queue]
      exact List.length_filter_le _ _
    · exact le_rfl
  · exact le_rfl

theorem updateNonce_queue (address : Address) (nonce : ℤ) (closeLedger : Bool) :
    (updateNonce address nonce closeLedger q).queue = q.queue := by
  unfold updateNonce
  split
  · split <;> rfl
  · rfl

theorem removeTxs_sound (hcollision : NoCollision cfg.lib known) (closeLedger : Bool)
    (txs : List TransactionEnv) (hsound : q.Sound cfg known)
    (hsize : q.queue.length ≤ cfg.queueLimit) :
    (removeTxs cfg closeLedger txs q).1.Sound cfg known ∧
      (removeTxs cfg closeLedger txs q).1.queue.length ≤ cfg.queueLimit := by
  induction txs generalizing q with
  | nil => exact ⟨hsound, hsize⟩
  | cons env txs ih =>
      refine ih (updateNonce_sound (remove_sound hcollision hsound _ _) _ _ _) ?_
      rw [updateNonce_queue]
      exact (remove_queue_length_le _ _).trans hsize

theorem step_sound (hcollision : NoCollision cfg.lib known) (hlimit : 1 ≤ cfg.accountTxsLimit)
    (call : Call) (hknown : ∀ tx curSourceNonce, call = .importTx tx curSourceNonce → known tx)
    (hsound : q.Sound cfg known) (hsize : q.queue.length ≤ cfg.queueLimit) :
    ∃ q', step cfg q call = some q' ∧ q'.Sound cfg known ∧ q'.queue.length ≤ cfg.queueLimit := by
  cases call with
  | importTx tx curSourceNonce =>
      obtain ⟨q', result, himport, hsound', hsize'⟩ := importTx_sound hcollision hsound hlimit
        (hknown tx curSourceNonce rfl) curSourceNonce hsize
      exact ⟨q', by rw [step, himport, Option.map_some], hsound', hsize'⟩
  | removeTxs txs closeLedger =>
      exact ⟨_, rfl, removeTxs_sound hcollision closeLedger txs hsound hsize⟩
  | safeRemoveTx address nonce =>
      exact ⟨_, rfl, remove_sound hcollision hsound _ _,
        (remove_queue_length_le _ _).trans hsize⟩
  | checkTimeoutAndDel currentTime =>
      obtain ⟨q', timeoutTxs, hloop, hsound', hsize'⟩ :=
        timeoutLoop_spec hcollision currentTime q.timeQueue.length [] hsound hsize le_rfl
      exact ⟨q', by rw [step, checkTimeoutAndDel, hloop, Option.map_some], hsound', hsize'⟩

/-- The transactions that a sequence of calls imports. -/
def imported (calls : List Call) (tx : QueuedTransaction) : Prop :=
  ∃ curSourceNonce, .importTx tx curSourceNonce ∈ calls

theorem start_sound : ({} : TransactionQueue).Sound cfg known := by
  refine ⟨?_, ?_, ?_⟩
  · constructor <;> simp [entryAt]
  · intro address byNonce hlookup
    simp at hlookup
  · intro address
    simp

theorem foldlM_sound {calls : List Call} (hcollision : NoCollision cfg.lib (imported calls))
    (hlimit : 1 ≤ cfg.accountTxsLimit) (rest : List Call) (hsub : rest ⊆ calls)
    (hsound : q.Sound cfg (imported calls)) (hsize : q.queue.length ≤ cfg.queueLimit) :
    ∃ q', rest.foldlM (step cfg) q = some q' ∧ q'.Sound cfg (imported calls) ∧
      q'.queue.length ≤ cfg.queueLimit := by
  induction rest generalizing q with
  | nil => exact ⟨q, rfl, hsound, hsize⟩
  | cons call rest ih =>
      have hknown : ∀ tx curSourceNonce, call = .importTx tx curSourceNonce →
          imported calls tx := fun tx curSourceNonce heq =>
        ⟨curSourceNonce, heq ▸ hsub List.mem_cons_self⟩
      obtain ⟨q₁, hstep, hsound₁, hsize₁⟩ :=
        step_sound hcollision hlimit call hknown hsound hsize
      rw [List.foldlM_cons, hstep, Option.bind_eq_bind, Option.bind_some]
      exact ih (fun _ hmem => hsub (List.mem_cons_of_mem _ hmem)) hsound₁ hsize₁

/-- What is kept after the first calls of a sequence. -/
theorem run_sound {calls : List Call} (before : List Call) (hsub : before ⊆ calls)
    (hcollision : NoCollision cfg.lib (imported calls)) (hlimit : 1 ≤ cfg.accountTxsLimit) :
    ∃ q, run cfg before = some q ∧ q.Sound cfg (imported calls) ∧
      q.queue.length ≤ cfg.queueLimit :=
  foldlM_sound hcollision hlimit before hsub start_sound (Nat.zero_le _)

/-! ## Agreement -/

/-- The containers of the pool agree: they describe the same transactions, one for an account
and a nonce, and the pool is within its limits. -/
structure Agrees (cfg : PoolConfig) (q : TransactionQueue) : Prop where
  timeQueue : (q.timeQueue.map Prod.snd).Perm q.txs
  entries : ∀ address nonce i j, q.entryAt address nonce = some (i, j) ↔
    ∃ tx, (i, tx) ∈ q.queue ∧ (j, tx) ∈ q.timeQueue ∧ tx.sourceAddress = address ∧
      tx.nonce = nonce
  hashes : ∀ hash tx, q.queueByHash.lookup hash = some tx ↔
    hash = tx.contentHash cfg.lib ∧ tx ∈ q.txs
  nodup : (q.txs.map fun tx => (tx.sourceAddress, tx.nonce)).Nodup
  nonempty : ∀ address byNonce, q.queueByAddressAndNonce.lookup address = some byNonce →
    byNonce.entries ≠ []
  nonces : ∀ address, address ∈ q.accountNonce ↔ ∃ tx ∈ q.txs, tx.sourceAddress = address
  size : q.queue.length ≤ cfg.queueLimit
  accounts : q.AccountsWithin cfg.accountTxsLimit

theorem Indexed.nodup_timeQueue_txs (hindexed : q.Indexed cfg.lib known) :
    (q.timeQueue.map Prod.snd).Nodup := by
  refine (List.Nodup.of_map _ hindexed.nodup_timeQueue).map_on ?_
  intro entry hentry entry' hentry' heq
  obtain ⟨j, tx⟩ := entry
  obtain ⟨j', tx'⟩ := entry'
  obtain rfl : tx = tx' := heq
  obtain ⟨i, -, hentryAt⟩ := hindexed.of_timeQueue j tx hentry
  obtain ⟨i', -, hentryAt'⟩ := hindexed.of_timeQueue j' tx hentry'
  rw [hentryAt, Option.some.injEq, Prod.mk.injEq] at hentryAt'
  rw [hentryAt'.2]

theorem Sound.agrees (hsound : q.Sound cfg known) (hsize : q.queue.length ≤ cfg.queueLimit) :
    q.Agrees cfg where
  timeQueue := by
    have hnodup : q.txs.Nodup := List.Nodup.of_map _ hsound.indexed.nodup_keys
    rw [List.perm_ext_iff_of_nodup hsound.indexed.nodup_timeQueue_txs hnodup]
    intro tx
    constructor
    · intro hmem
      obtain ⟨⟨j, tx⟩, htime, rfl⟩ := List.mem_map.mp hmem
      obtain ⟨i, hqueue, -⟩ := hsound.indexed.of_timeQueue j tx htime
      exact List.mem_map.mpr ⟨_, hqueue, rfl⟩
    · intro hmem
      obtain ⟨⟨i, tx⟩, hqueue, rfl⟩ := List.mem_map.mp hmem
      obtain ⟨j, -, htime, -⟩ := hsound.indexed.of_queue i tx hqueue
      exact List.mem_map.mpr ⟨_, htime, rfl⟩
  entries address nonce i j := hsound.indexed.entryAt_iff
  hashes hash tx := by
    constructor
    · intro hlookup
      obtain ⟨hhash, i, hmem⟩ := hsound.indexed.of_hash hash tx hlookup
      exact ⟨hhash, List.mem_map_of_mem (f := Prod.snd) hmem⟩
    · rintro ⟨rfl, hmem⟩
      obtain ⟨⟨i, tx⟩, hqueue, rfl⟩ := List.mem_map.mp hmem
      obtain ⟨j, -, -, hlookup⟩ := hsound.indexed.of_queue i tx hqueue
      exact hlookup
  nodup := hsound.indexed.nodup_keys
  nonempty := hsound.indexed.nonempty
  nonces address := by
    rw [hsound.nonces address, or_false]
    exact hsound.indexed.mem_accounts_iff_exists_tx
  size := hsize
  accounts := hsound.accounts

/-- As long as the loop of `Import` goes on, every round removes one transaction. -/
theorem iterate_evictRound (hcollision : NoCollision cfg.lib known) (hsound : q.Sound cfg known)
    (rounds : ℕ) (hrounds : ∀ k < rounds,
      cfg.queueLimit < ((fun q => (evictRound cfg q).1)^[k] q).queue.length) :
    ((fun q => (evictRound cfg q).1)^[rounds] q).Sound cfg known ∧
      ((fun q => (evictRound cfg q).1)^[rounds] q).queue.length + rounds = q.queue.length := by
  induction rounds with
  | zero => exact ⟨hsound, rfl⟩
  | succ rounds ih =>
      obtain ⟨hsound', hlength⟩ := ih fun k hk => hrounds k (Nat.lt_succ_of_lt hk)
      have hround := evictRound_spec hcollision hsound' (hrounds rounds (Nat.lt_succ_self _))
      rw [Function.iterate_succ_apply']
      exact ⟨hround.1, by have := hround.2; omega⟩

/-- As long as the loop of `CheckTimeoutAndDel` goes on, every round removes one transaction. -/
theorem iterate_timeoutRound (hcollision : NoCollision cfg.lib known) (hsound : q.Sound cfg known)
    (currentTime : ℤ) (rounds : ℕ) (hrounds : ∀ k < rounds,
      (timedOut? currentTime ((timeoutRound cfg currentTime)^[k] q)).isSome = true) :
    ((timeoutRound cfg currentTime)^[rounds] q).Sound cfg known ∧
      ((timeoutRound cfg currentTime)^[rounds] q).queue.length + rounds = q.queue.length := by
  induction rounds with
  | zero => exact ⟨hsound, rfl⟩
  | succ rounds ih =>
      obtain ⟨hsound', hlength⟩ := ih fun k hk => hrounds k (Nat.lt_succ_of_lt hk)
      obtain ⟨tx, htimeout⟩ := Option.isSome_iff_exists.mp (hrounds rounds (Nat.lt_succ_self _))
      have hround := timeoutRound_spec hcollision hsound' htimeout
      rw [Function.iterate_succ_apply']
      exact ⟨hround.1, by have := hround.2.1; omega⟩

/-- `Import` of the transaction enters its loop in the state `q₁`. -/
def EntersLoop (cfg : PoolConfig) (tx : QueuedTransaction) (curSourceNonce : ℤ)
    (q q₁ : TransactionQueue) : Prop :=
  ∃ q₀ replace size, importPrepare cfg tx curSourceNonce q = some (.go q₀ replace size) ∧
    (replace || size < cfg.accountTxsLimit) = true ∧ q₁ = insert cfg tx q₀

/-- Every round of a loop of the call removes one transaction. -/
structure OneByOne (cfg : PoolConfig) (q : TransactionQueue) (call : Call) : Prop where
  evict : ∀ tx curSourceNonce q₁ rounds, call = .importTx tx curSourceNonce →
    EntersLoop cfg tx curSourceNonce q q₁ →
    (∀ k < rounds, cfg.queueLimit < ((fun q => (evictRound cfg q).1)^[k] q₁).queue.length) →
    ((fun q => (evictRound cfg q).1)^[rounds] q₁).queue.length + rounds = q₁.queue.length
  timeout : ∀ currentTime rounds, call = .checkTimeoutAndDel currentTime →
    (∀ k < rounds, (timedOut? currentTime ((timeoutRound cfg currentTime)^[k] q)).isSome = true) →
    ((timeoutRound cfg currentTime)^[rounds] q).queue.length + rounds = q.queue.length

theorem Sound.oneByOne (hcollision : NoCollision cfg.lib known) (hsound : q.Sound cfg known)
    (hlimit : 1 ≤ cfg.accountTxsLimit) (hsize : q.queue.length ≤ cfg.queueLimit) {call : Call}
    (hknown : ∀ tx curSourceNonce, call = .importTx tx curSourceNonce → known tx) :
    OneByOne cfg q call where
  evict tx curSourceNonce q₁ rounds hcall henters hrounds := by
    obtain ⟨q₀, replace, size, hprepare, hinsert, rfl⟩ := henters
    rcases importPrepare_spec hcollision hsound hlimit tx curSourceNonce hsize with
      ⟨q', hdropped, -⟩ | ⟨q', replace', size', hgo, hcan⟩
    · rw [hprepare] at hdropped
      exact absurd hdropped (by simp)
    · rw [hprepare] at hgo
      obtain ⟨rfl, rfl, rfl⟩ := ImportStep.go.inj (Option.some.inj hgo)
      exact (iterate_evictRound hcollision
        (hcan.insert hcollision (hknown tx curSourceNonce hcall) hinsert) rounds hrounds).2
  timeout currentTime rounds _ hrounds :=
    (iterate_timeoutRound hcollision hsound currentTime rounds hrounds).2

/-- **The indexes of the pool agree** after every sequence of calls; every call returns, and
every round of its loop removes one transaction. -/
theorem run_agrees (calls : List Call) (hcollision : NoCollision cfg.lib (imported calls))
    (hlimit : 1 ≤ cfg.accountTxsLimit) :
    (∃ q, run cfg calls = some q ∧ q.Agrees cfg) ∧
      ∀ before call after, calls = before ++ call :: after →
        ∃ q, run cfg before = some q ∧ OneByOne cfg q call := by
  constructor
  · obtain ⟨q, hrun, hsound, hsize⟩ := run_sound calls (List.Subset.refl _) hcollision hlimit
    exact ⟨q, hrun, hsound.agrees hsize⟩
  · intro before call after hcalls
    obtain ⟨q, hrun, hsound, hsize⟩ := run_sound before
      (fun other hother => by rw [hcalls]; exact List.mem_append_left _ hother) hcollision hlimit
    refine ⟨q, hrun, hsound.oneByOne hcollision hlimit hsize fun tx curSourceNonce heq => ?_⟩
    exact ⟨curSourceNonce, by rw [hcalls, heq]; simp⟩

end Indexes

/-- A pool with room for one transaction. -/
def samplePool : PoolConfig where
  lib := sampleLibrary
  queueLimit := 1
  accountTxsLimit := 1
  place _ q := q.queue.length
  outbids _ _ := false

/-- The payment with the given nonce, as it comes in at time 0. -/
def samplePayment (nonce : ℤ) : QueuedTransaction :=
  ⟨payment payerAddress callerAddress 1 nonce, 0⟩

/-- Two payments have two hashes. -/
theorem noCollision_samplePayment {known : QueuedTransaction → Prop}
    (hknown : ∀ tx, known tx → tx = samplePayment 1 ∨ tx = samplePayment 2) :
    NoCollision sampleLibrary known := by
  intro tx tx' htx htx' heq
  rcases hknown tx htx with rfl | rfl <;> rcases hknown tx' htx' with rfl | rfl
  · rfl
  · exact absurd heq (by decide)
  · exact absurd heq (by decide)
  · rfl

/-- The second transaction of the account does not get in, and after ten minutes the first one
is deleted. -/
def sampleCalls : List Call :=
  [.importTx (samplePayment 1) 0, .importTx (samplePayment 2) 0, .checkTimeoutAndDel 600000001]

theorem run_agrees_sample :
    1 ≤ samplePool.accountTxsLimit ∧ ∃ q, run samplePool sampleCalls = some q ∧
      q.Agrees samplePool := by
  have hcollision : NoCollision samplePool.lib (imported sampleCalls) := by
    refine noCollision_samplePayment fun tx himported => ?_
    obtain ⟨nonce, hmem⟩ := himported
    simp only [sampleCalls, List.mem_cons, Call.importTx.injEq, reduceCtorEq, List.not_mem_nil,
      or_false] at hmem
    exact hmem.imp And.left And.left
  exact ⟨le_rfl, (run_agrees sampleCalls hcollision le_rfl).1⟩

end TransactionQueue

end CegChain
