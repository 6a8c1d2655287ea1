import CegChain.Glue.QueueIndexes
import CegChain.Lib.Doubles

/-!
# What `Import` does

`Import` ends in one of four ways: the transaction is refused, it takes the place of the
one with its account and nonce, it is put into a pool that has room, or it is put into a
full pool, which then drops its last transaction.  In each of them the result is compared
with what has become of the pool.

`importTx_truthful_iff`: the result is true to the pool unless a transaction is imported
that is in the pool already and whose gas price is zero, a tenth more of which is no more.
-/

namespace CegChain

namespace TransactionQueue

/-- `(tx->GetGasPrice() - p) >= (p*0.1)`, an integer and a double that are compared as
doubles. -/
def outbids (gasPrice p : Int64) : Bool :=
  decide (Doubles.toDouble (Doubles.toDouble p.toInt * Doubles.toDouble (1 / 10)) ≤
    Doubles.toDouble (gasPrice - p).toInt)

/-- A gas price is a tenth above itself only when it is not positive. -/
theorem outbids_self_iff (p : Int64) : outbids p p = true ↔ p.toInt ≤ 0 := by
  have hzero : Doubles.toDouble ((p - p).toInt : ℚ) = 0 := by
    rw [Int64.sub_self]
    simp [Doubles.toDouble, Doubles.roundEven]
  have htenth : (0 : ℚ) < Doubles.toDouble (1 / 10) := Doubles.toDouble_pos (by norm_num)
  rw [outbids, decide_eq_true_eq, hzero]
  constructor
  · intro hle
    by_contra hpos
    have hprice : (0 : ℚ) < p.toInt := by exact_mod_cast not_le.mp hpos
    exact absurd hle (not_le.mpr (Doubles.toDouble_pos (mul_pos (Doubles.toDouble_pos hprice)
      htenth)))
  · intro hle
    have hprice : (p.toInt : ℚ) ≤ 0 := by exact_mod_cast hle
    exact Doubles.toDouble_nonpos
      (mul_nonpos_of_nonpos_of_nonneg (Doubles.toDouble_nonpos hprice) htenth.le)

/-- A transaction with this hash is in the pool. -/
def Contains (lib : Library) (hash : Bytes) (q : TransactionQueue) : Prop :=
  ∃ t ∈ q.txs, t.contentHash lib = hash

/-- What `Import` returned is what has happened to the pool: the transaction has come in if
and only if it returned true, otherwise the pool is what it was; at most one other
transaction has left, the one with the same account and nonce or one of a full pool. -/
structure Truthful (cfg : PoolConfig) (tx : QueuedTransaction) (q q' : TransactionQueue)
    (inserted : Bool) : Prop where
  inserted_iff : inserted = true ↔
    q'.Contains cfg.lib (tx.contentHash cfg.lib) ∧ ¬ q.Contains cfg.lib (tx.contentHash cfg.lib)
  unchanged : inserted = false → q'.txs.Perm q.txs
  one_left : inserted = true → ∃ left : Option QueuedTransaction,
    (tx :: q.txs).Perm (left.toList ++ q'.txs) ∧ ∀ t ∈ left, t ∈ q.txs ∧
      (t.sourceAddress = tx.sourceAddress ∧ t.nonce = tx.nonce ∨ q.queue.length = cfg.queueLimit)

section Imports

variable {cfg : PoolConfig} {known : QueuedTransaction → Prop} {q q' : TransactionQueue}
  {address : Address} {nonce curSourceNonce : ℤ} {byNonce : QueueByNonce}
  {tx t old : QueuedTransaction}

theorem length_txs : q.txs.length = q.queue.length :=
  List.length_map _

theorem insert_txs : (insert cfg tx q).txs.Perm (tx :: q.txs) :=
  Nodes.emplace_perm.map Prod.snd

theorem removeAt_txs {i j : ℕ} (hindexed : q.Indexed cfg.lib known) (hmem : (i, t) ∈ q.queue) :
    q.txs.Perm (t :: (removeAt cfg address byNonce nonce (i, j) true q).1.txs) := by
  unfold txs
  rw [removeAt_queue]
  exact (Nodes.erase_perm hindexed.nodup_queue hmem).map Prod.snd

/-- `Remove` of a transaction of the pool takes that transaction away and no other. -/
theorem remove_txs (hindexed : q.Indexed cfg.lib known) (htx : t ∈ q.txs) :
    q.txs.Perm (t :: (remove cfg t.sourceAddress t.nonce q).1.txs) := by
  obtain ⟨⟨i, t⟩, hmem, rfl⟩ := List.mem_map.mp htx
  obtain ⟨j, hentry, -, -⟩ := hindexed.of_queue i t hmem
  obtain ⟨byNonce, hlookup, hiters⟩ := Option.bind_eq_some_iff.mp hentry
  simp only [remove, hlookup, hiters]
  exact removeAt_txs hindexed hmem

theorem Contains.of_perm {lib : Library} {hash : Bytes} (hperm : q'.txs.Perm q.txs) :
    q'.Contains lib hash ↔ q.Contains lib hash := by
  unfold Contains
  simp only [hperm.mem_iff]

/-- Transactions of the pool with one hash are the same. -/
theorem Indexed.eq_of_contentHash (hcollision : NoCollision cfg.lib known)
    (hindexed : q.Indexed cfg.lib known) (ht : t ∈ q.txs) (htx : tx ∈ q.txs)
    (hhash : t.contentHash cfg.lib = tx.contentHash cfg.lib) : t = tx := by
  obtain ⟨⟨i, t⟩, hmem, rfl⟩ := List.mem_map.mp ht
  obtain ⟨⟨i', tx⟩, hmem', rfl⟩ := List.mem_map.mp htx
  have hsame := hcollision t tx (hindexed.known_queue _ hmem) (hindexed.known_queue _ hmem') hhash
  exact (hindexed.eq_of_mem hmem hmem' (congrArg Transaction.sourceAddress hsame)
    (congrArg Transaction.nonce hsame)).2

/-- A hash of the pool is that of the transaction with its account and nonce. -/
theorem Indexed.contains_iff (hcollision : NoCollision cfg.lib known)
    (hindexed : q.Indexed cfg.lib known) (hknown : known tx) :
    q.Contains cfg.lib (tx.contentHash cfg.lib) ↔
      ∃ t ∈ q.txs, t.sourceAddress = tx.sourceAddress ∧ t.nonce = tx.nonce ∧
        t.gasPrice = tx.gasPrice ∧ t.contentHash cfg.lib = tx.contentHash cfg.lib := by
  constructor
  · rintro ⟨t, ht, hhash⟩
    obtain ⟨⟨i, t⟩, hmem, rfl⟩ := List.mem_map.mp ht
    have hsame := hcollision t tx (hindexed.known_queue _ hmem) hknown hhash
    exact ⟨t, ht, congrArg Transaction.sourceAddress hsame, congrArg Transaction.nonce hsame,
      congrArg Transaction.gasPrice hsame, hhash⟩
  · rintro ⟨t, ht, -, -, -, hhash⟩
    exact ⟨t, ht, hhash⟩

/-! ## The loop over the end of the queue -/

theorem evictLoop_of_le {fuel : ℕ} {result : ImportResult}
    (hle : q.queue.length ≤ cfg.queueLimit) :
    evictLoop cfg tx fuel q result = some (q, result) := by
  cases fuel <;> rw [evictLoop, if_neg (not_lt.mpr hle)]

/-- A pool with one transaction too many drops its last one. -/
theorem evictLoop_of_full (tx : QueuedTransaction) (fuel : ℕ) (result : ImportResult)
    (hcollision : NoCollision cfg.lib known) (hsound : q.Sound cfg known)
    (hfull : q.queue.length = cfg.queueLimit + 1) :
    ∃ t ∈ q.txs, q.txs.Perm (t :: (evictRound cfg q).1.txs) ∧
      evictLoop cfg tx (fuel + 1) q result = some ((evictRound cfg q).1,
        if t.contentHash cfg.lib = tx.contentHash cfg.lib then ⟨false, true⟩ else result) := by
  have hover : cfg.queueLimit < q.queue.length := by omega
  have hne : q.queue ≠ [] := List.ne_nil_of_length_pos (Nat.zero_lt_of_lt hover)
  obtain ⟨⟨i, t⟩, hlast⟩ := Option.isSome_iff_exists.mp (List.getLast?_isSome.mpr hne)
  have ht : t ∈ q.txs := List.mem_map_of_mem (f := Prod.snd) (List.mem_of_getLast? hlast)
  have hround : evictRound cfg q = ((remove cfg t.sourceAddress t.nonce q).1, some t) := by
    rw [evictRound, hlast]
  have hlength := (evictRound_spec hcollision hsound hover).2
  refine ⟨t, ht, ?_, ?_⟩
  · rw [hround]
    exact remove_txs hsound.indexed ht
  · rw [evictLoop, if_pos hover]
    simp only [hround] at hlength ⊢
    rw [evictLoop_of_le (by omega)]
    simp only [Option.map_some, Option.some.injEq]

/-! ## The first half of `Import` -/

/-- There is no transaction with the account and nonce of the new one. -/
theorem importPrepare_of_new (cfg : PoolConfig) (curSourceNonce : ℤ)
    (hnew : q.entryAt tx.sourceAddress tx.nonce = none) :
    importPrepare cfg tx curSourceNonce q = some (.go
      { q with accountNonce := q.accountNonce.insert tx.sourceAddress curSourceNonce } false
      (q.accountSize tx.sourceAddress)) := by
  unfold importPrepare
  cases hlookup : q.queueByAddressAndNonce.lookup tx.sourceAddress with
  | none => simp [hlookup, accountSize]
  | some byNonce =>
      rw [entryAt_of_lookup hlookup] at hnew
      simp [hlookup, hnew, accountSize]

/-- The pool without the transaction that is replaced, with the nonce of the account. -/
def replaced (cfg : PoolConfig) (tx : QueuedTransaction) (curSourceNonce : ℤ) (i j : ℕ)
    (q : TransactionQueue) : TransactionQueue :=
  let q := { q with accountNonce := q.accountNonce.insert tx.sourceAddress curSourceNonce }
  let q := (removeAt cfg tx.sourceAddress
    ((q.queueByAddressAndNonce.lookup tx.sourceAddress).getD ∅) tx.nonce (i, j) true q).1
  { q with accountNonce := q.accountNonce.insert tx.sourceAddress curSourceNonce }

/-- There is a transaction with the account and nonce of the new one. -/
theorem importPrepare_of_old (curSourceNonce : ℤ) (hindexed : q.Indexed cfg.lib known)
    {i j : ℕ} (hentry : q.entryAt tx.sourceAddress tx.nonce = some (i, j))
    (hold : (i, old) ∈ q.queue) :
    importPrepare cfg tx curSourceNonce q = some (
      if cfg.outbids tx.gasPrice old.gasPrice then
        .go (replaced cfg tx curSourceNonce i j q) true (q.accountSize tx.sourceAddress - 1)
      else .dropped
        { q with accountNonce := q.accountNonce.insert tx.sourceAddress curSourceNonce }) := by
  obtain ⟨byNonce, hlookup, hiters⟩ := Option.bind_eq_some_iff.mp hentry
  have hptr : Nodes.deref i q.queue = some old :=
    (Nodes.deref_eq_some_iff hindexed.nodup_queue).mpr hold
  simp only [importPrepare, hlookup, hiters, hptr, replaced, accountSize, Option.getD_some]
  cases cfg.outbids tx.gasPrice old.gasPrice with
  | true => rfl
  | false => rfl

/-! ## The second half of `Import` -/

theorem importInsert_of_full {size : ℕ} (hfull : cfg.accountTxsLimit ≤ size) :
    importInsert cfg tx false size q = some (q, ⟨false, true⟩) := by
  simp [importInsert, not_lt.mpr hfull, hfull]

theorem importInsert_of_room {replace : Bool} {size : ℕ} (hroom : size < cfg.accountTxsLimit) :
    importInsert cfg tx replace size q = evictLoop cfg tx (insert cfg tx q).queue.length
      (insert cfg tx q) ⟨true, false⟩ := by
  simp only [importInsert, hroom, decide_true, Bool.or_true, if_true, if_neg (not_le.mpr hroom)]
  exact Option.map_id'

/-- What `Import` can insert it inserts soundly. -/
theorem sound_of_go (hcollision : NoCollision cfg.lib known) (hsound : q.Sound cfg known)
    (hlimit : 1 ≤ cfg.accountTxsLimit) (hsize : q.queue.length ≤ cfg.queueLimit)
    (hknown : known tx) {replace : Bool} {size : ℕ}
    (hgo : importPrepare cfg tx curSourceNonce q = some (.go q' replace size))
    (hroom : size < cfg.accountTxsLimit) : (insert cfg tx q').Sound cfg known := by
  rcases importPrepare_spec hcollision hsound hlimit tx curSourceNonce hsize with
    ⟨q₁, hdropped, -⟩ | ⟨q₁, replace₁, size₁, hgo₁, hcan⟩
  · rw [hgo] at hdropped
    exact absurd hdropped (by simp)
  · rw [hgo] at hgo₁
    obtain ⟨rfl, rfl, rfl⟩ := ImportStep.go.inj (Option.some.inj hgo₁)
    exact hcan.insert hcollision hknown (by simp [hroom])

/-! ## The four ways `Import` ends -/

theorem Truthful.of_unchanged (hperm : q'.txs.Perm q.txs) : Truthful cfg tx q q' false where
  inserted_iff := by
    rw [Contains.of_perm hperm]
    simp
  unchanged _ := hperm
  one_left htrue := absurd htrue (by simp)

theorem Truthful.of_inserted (left : Option QueuedTransaction)
    (hnew : ¬ q.Contains cfg.lib (tx.contentHash cfg.lib)) (hin : tx ∈ q'.txs)
    (hperm : (tx :: q.txs).Perm (left.toList ++ q'.txs))
    (hleft : ∀ t ∈ left, t ∈ q.txs ∧ (t.sourceAddress = tx.sourceAddress ∧ t.nonce = tx.nonce ∨
      q.queue.length = cfg.queueLimit)) : Truthful cfg tx q q' true where
  inserted_iff := ⟨fun _ => ⟨⟨tx, hin, rfl⟩, hnew⟩, fun _ => rfl⟩
  unchanged hfalse := absurd hfalse (by simp)
  one_left _ := ⟨left, hperm, hleft⟩

/-- A transaction with a new nonce for its account. -/
theorem importTx_of_new (curSourceNonce : ℤ) (hcollision : NoCollision cfg.lib known)
    (hsound : q.Sound cfg known)
    (hlimit : 1 ≤ cfg.accountTxsLimit) (hsize : q.queue.length ≤ cfg.queueLimit)
    (hknown : known tx) (hnew : q.entryAt tx.sourceAddress tx.nonce = none)
    (hfresh : ¬ q.Contains cfg.lib (tx.contentHash cfg.lib)) :
    ∃ q' result, importTx cfg tx curSourceNonce q = some (q', result) ∧
      Truthful cfg tx q q' result.inserted := by
  have hgo := importPrepare_of_new cfg curSourceNonce hnew
  rw [importTx, hgo, Option.bind_some]
  dsimp only
  by_cases hroom : q.accountSize tx.sourceAddress < cfg.accountTxsLimit
  · rw [importInsert_of_room hroom]
    have hsound₁ := sound_of_go hcollision hsound hlimit hsize hknown hgo hroom
    generalize hq₁ : insert cfg tx
      { q with accountNonce := q.accountNonce.insert tx.sourceAddress curSourceNonce } = q₁
      at hsound₁ ⊢
    have hperm : q₁.txs.Perm (tx :: q.txs) := by
      rw [← hq₁]
      exact insert_txs
    have hlength : q₁.queue.length = q.queue.length + 1 := by
      rw [← length_txs, hperm.length_eq, List.length_cons, length_txs]
    by_cases hfull : q.queue.length < cfg.queueLimit
    · rw [evictLoop_of_le (by omega)]
      exact ⟨q₁, _, rfl, .of_inserted none hfresh
        (hperm.mem_iff.mpr List.mem_cons_self) hperm.symm (by simp)⟩
    · have hover : q₁.queue.length = cfg.queueLimit + 1 := by omega
      rw [hlength]
      obtain ⟨t, ht, hround, hloop⟩ := evictLoop_of_full tx q.queue.length
        ⟨true, false⟩ hcollision hsound₁ hover
      rw [hloop]
      refine ⟨_, _, rfl, ?_⟩
      have hsplit := hperm.symm.trans hround
      split
      · rename_i hhash
        -- the new transaction is the one that goes
        obtain rfl := hsound₁.indexed.eq_of_contentHash hcollision ht
          (hperm.mem_iff.mpr List.mem_cons_self) hhash
        exact .of_unchanged hsplit.cons_inv.symm
      · rename_i hhash
        have hne : tx ≠ t := fun heq => hhash (heq ▸ rfl)
        refine .of_inserted (some t) hfresh ?_ hsplit fun t' ht' => ?_
        · exact (List.mem_cons.mp (hsplit.mem_iff.mp List.mem_cons_self)).resolve_left hne
        · obtain rfl : t = t' := Option.some.inj ht'
          have hin := List.mem_cons.mp (hperm.mem_iff.mp ht)
          exact ⟨hin.resolve_left hne.symm, Or.inr (by omega)⟩
  · rw [importInsert_of_full (not_lt.mp hroom)]
    exact ⟨_, _, rfl, .of_unchanged (List.Perm.refl _)⟩

theorem replaced_txs (tx : QueuedTransaction) (curSourceNonce : ℤ) {i : ℕ} (j : ℕ)
    (hindexed : q.Indexed cfg.lib known) (hold : (i, old) ∈ q.queue) :
    q.txs.Perm (old :: (replaced cfg tx curSourceNonce i j q).txs) :=
  removeAt_txs (hindexed.withNonces
    (q.accountNonce.insert tx.sourceAddress curSourceNonce)) hold

/-- A transaction that outbids the one with its account and nonce. -/
theorem importTx_of_outbids (curSourceNonce : ℤ) (hsound : q.Sound cfg known)
    (hlimit : 1 ≤ cfg.accountTxsLimit)
    (hsize : q.queue.length ≤ cfg.queueLimit) {i j : ℕ}
    (hentry : q.entryAt tx.sourceAddress tx.nonce = some (i, j))
    (hold : (i, old) ∈ q.queue) (houtbids : cfg.outbids tx.gasPrice old.gasPrice = true) :
    ∃ q', importTx cfg tx curSourceNonce q = some (q', ⟨true, false⟩) ∧ tx ∈ q'.txs ∧
      (tx :: q.txs).Perm (old :: q'.txs) := by
  have hgo := importPrepare_of_old curSourceNonce hsound.indexed hentry hold
  rw [if_pos houtbids] at hgo
  have hroom : q.accountSize tx.sourceAddress - 1 < cfg.accountTxsLimit := by
    obtain ⟨byNonce, hlookup, hiters⟩ := Option.bind_eq_some_iff.mp hentry
    have hle := hsound.accounts _ _ hlookup
    simp only [accountSize, hlookup, Option.getD_some]
    omega
  have hperm := replaced_txs tx curSourceNonce j hsound.indexed hold
  rw [importTx, hgo, Option.bind_some]
  dsimp only
  rw [importInsert_of_room hroom, evictLoop_of_le]
  · refine ⟨_, rfl, insert_txs.mem_iff.mpr List.mem_cons_self, ?_⟩
    calc List.Perm (tx :: q.txs) (tx :: old :: (replaced cfg tx curSourceNonce i j q).txs) :=
          hperm.cons tx
      List.Perm _ (old :: tx :: (replaced cfg tx curSourceNonce i j q).txs) :=
          List.Perm.swap _ _ _
      List.Perm _ (old :: (insert cfg tx (replaced cfg tx curSourceNonce i j q)).txs) :=
          insert_txs.symm.cons old
  · have hlength := hperm.length_eq
    rw [length_txs, List.length_cons, length_txs] at hlength
    rw [← length_txs, insert_txs.length_eq, List.length_cons, length_txs]
    omega

/-- **What `Import` reports**, on a sound pool. -/
theorem Sound.truthful_iff (curSourceNonce : ℤ) (hcollision : NoCollision cfg.lib known)
    (hsound : q.Sound cfg known) (hlimit : 1 ≤ cfg.accountTxsLimit)
    (hsize : q.queue.length ≤ cfg.queueLimit) (hknown : known tx)
    (houtbids : cfg.outbids = outbids) :
    ∃ q' result, importTx cfg tx curSourceNonce q = some (q', result) ∧
      (Truthful cfg tx q q' result.inserted ↔
        (q.Contains cfg.lib (tx.contentHash cfg.lib) → 0 < tx.gasPrice.toInt)) := by
  have hcontains := hsound.indexed.contains_iff hcollision hknown
  cases hentry : q.entryAt tx.sourceAddress tx.nonce with
  | none =>
      have hfresh : ¬ q.Contains cfg.lib (tx.contentHash cfg.lib) := by
        intro hcontained
        obtain ⟨t, ht, haddress, hnonce, -, -⟩ := hcontains.mp hcontained
        obtain ⟨⟨i, t⟩, hmem, rfl⟩ := List.mem_map.mp ht
        obtain ⟨j, hentry', -, -⟩ := hsound.indexed.of_queue i t hmem
        rw [haddress, hnonce, hentry] at hentry'
        exact absurd hentry' (by simp)
      obtain ⟨q', result, himport, htruthful⟩ := importTx_of_new curSourceNonce
        hcollision hsound hlimit hsize hknown hentry hfresh
      exact ⟨q', result, himport, iff_of_true htruthful fun hin => absurd hin hfresh⟩
  | some iters =>
      obtain ⟨i, j⟩ := iters
      obtain ⟨old, hold, haddress, hnonce⟩ := hsound.indexed.of_entryAt _ _ _ _ hentry
      have holdTx : old ∈ q.txs := List.mem_map_of_mem (f := Prod.snd) hold
      -- a transaction of the pool with this hash is the one that is to be replaced
      have hprice : q.Contains cfg.lib (tx.contentHash cfg.lib) → old.gasPrice = tx.gasPrice := by
        intro hcontained
        obtain ⟨t, ht, haddress', hnonce', hgas, -⟩ := hcontains.mp hcontained
        obtain ⟨⟨i', t⟩, hmem, rfl⟩ := List.mem_map.mp ht
        rw [(hsound.indexed.eq_of_mem hold hmem (haddress.trans haddress'.symm)
          (hnonce.trans hnonce'.symm)).2]
        exact hgas
      cases hbid : cfg.outbids tx.gasPrice old.gasPrice with
      | true =>
          obtain ⟨q', himport, hin, hperm⟩ := importTx_of_outbids
            curSourceNonce hsound hlimit hsize hentry hold hbid
          refine ⟨q', _, himport, ?_⟩
          by_cases hcontained : q.Contains cfg.lib (tx.contentHash cfg.lib)
          · rw [hprice hcontained, houtbids, outbids_self_iff] at hbid
            refine iff_of_false (fun htruthful => ?_) fun hpos => ?_
            · exact (htruthful.inserted_iff.mp rfl).2 hcontained
            · exact absurd (hpos hcontained) (not_lt.mpr hbid)
          · refine iff_of_true ?_ fun hin => absurd hin hcontained
            refine .of_inserted (some old) hcontained hin hperm fun t ht => ?_
            obtain rfl : old = t := Option.some.inj ht
            exact ⟨holdTx, Or.inl ⟨haddress, hnonce⟩⟩
      | false =>
          have hprepare := importPrepare_of_old curSourceNonce
            hsound.indexed hentry hold
          rw [hbid] at hprepare
          refine ⟨_, _, by rw [importTx, hprepare]; rfl, ?_⟩
          refine iff_of_true (.of_unchanged (List.Perm.refl _)) fun hcontained => ?_
          rw [hprice hcontained, houtbids] at hbid
          by_contra hpos
          rw [(outbids_self_iff _).mpr (not_lt.mp hpos)] at hbid
          exact absurd hbid (by simp)

/-- **`Import` reports the truth** about every pool that a sequence of calls can leave, unless
a transaction comes in that is in the pool already and whose gas price is not positive. -/
theorem importTx_truthful_iff (calls : List Call) (tx : QueuedTransaction) (curSourceNonce : ℤ)
    (hcollision : NoCollision cfg.lib (imported (calls ++ [.importTx tx curSourceNonce])))
    (hlimit : 1 ≤ cfg.accountTxsLimit) (houtbids : cfg.outbids = outbids) :
    ∃ q q' result, run cfg calls = some q ∧
      importTx cfg tx curSourceNonce q = some (q', result) ∧
      (Truthful cfg tx q q' result.inserted ↔
        (q.Contains cfg.lib (tx.contentHash cfg.lib) → 0 < tx.gasPrice.toInt)) := by
  obtain ⟨q, hrun, hsound, hsize⟩ := run_sound calls (List.subset_append_left _ _) hcollision hlimit
  obtain ⟨q', result, himport, htruthful⟩ := hsound.truthful_iff
    curSourceNonce hcollision hlimit hsize
    ⟨curSourceNonce, List.mem_append_right _ List.mem_cons_self⟩ houtbids
  exact ⟨q, q', result, hrun, himport, htruthful⟩

end Imports

/-- A pool with room for two transactions of an account. -/
def roomyPool : PoolConfig where
  lib := sampleLibrary
  queueLimit := 2
  accountTxsLimit := 2
  place _ q := q.queue.length
  outbids := outbids

theorem importTx_truthful_payment :
    1 ≤ roomyPool.accountTxsLimit ∧ roomyPool.outbids = outbids ∧
      ∃ q q' result, run roomyPool [.importTx (samplePayment 1) 0] = some q ∧
        importTx roomyPool (samplePayment 2) 0 q = some (q', result) ∧
        (Truthful roomyPool (samplePayment 2) q q' result.inserted ↔
          (q.Contains roomyPool.lib ((samplePayment 2).contentHash roomyPool.lib) →
            0 < (samplePayment 2).gasPrice.toInt)) := by
  have hcollision : NoCollision roomyPool.lib
      (imported ([.importTx (samplePayment 1) 0] ++ [.importTx (samplePayment 2) 0])) := by
    refine noCollision_samplePayment fun tx himported => ?_
    obtain ⟨nonce, hmem⟩ := himported
    simp only [List.cons_append, List.nil_append, List.mem_cons, Call.importTx.injEq,
      List.not_mem_nil, or_false] at hmem
    exact hmem.imp And.left And.left
  exact ⟨by decide, rfl, importTx_truthful_iff _ _ _ hcollision (by decide) rfl⟩

/-- A free payment that comes in twice takes its own place, and `Import` returns true. -/
theorem free_payment_comes_in_again :
    ∃ q q' result, run roomyPool [.importTx (samplePayment 1) 0] = some q ∧
      importTx roomyPool (samplePayment 1) 0 q = some (q', result) ∧
      ¬ Truthful roomyPool (samplePayment 1) q q' result.inserted := by
  have hreports : ((run roomyPool [.importTx (samplePayment 1) 0]).bind fun q =>
      (importTx roomyPool (samplePayment 1) 0 q).map fun r =>
        (r.2.inserted, q.txs)) = some (true, [samplePayment 1]) := by
    decide +kernel
  obtain ⟨q, hrun, himport⟩ := Option.bind_eq_some_iff.mp hreports
  obtain ⟨⟨q', result⟩, himport, heq⟩ := Option.map_eq_some_iff.mp himport
  obtain ⟨hinserted, htxs⟩ := Prod.mk.inj heq
  refine ⟨q, q', result, hrun, himport, fun htruthful => ?_⟩
  exact (htruthful.inserted_iff.mp hinserted).2
    ⟨samplePayment 1, by rw [htxs]; exact List.mem_cons_self, rfl⟩

end TransactionQueue

end CegChain
