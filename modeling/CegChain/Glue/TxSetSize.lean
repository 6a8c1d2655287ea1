import CegChain.Glue.TopTransaction

/-!
# The size of a proposal

`TopTransaction` keeps a cheap estimate of the size of its set and computes the exact size
only when the estimate reaches the limit.  The estimate counts one byte for the tag of a
picked transaction and not the bytes of its length, and it counts the bytes of the
transactions that are skipped.  The exact test, in turn, leaves out the tag and the length
of the transaction it looks at.

Whether this does harm is a matter of the nonces and the sizes in the pool: the
transactions of an account are picked up to the first missing nonce (`Connects`), so that
both accounts are sums over the transactions ahead (`estimatedBytes`, `connectedBytes`).
`size_safe_iff`: all is well unless the limit falls between them at some transaction
(`Straddles`).  `sixteen_large_payments` is a pool of payments of one account for which the
exact size is not computed and the set becomes too large.
-/

namespace CegChain

namespace TransactionQueue

/-! ## The sizes in the pool -/

section Sizes

variable (lib : Library) (q : TransactionQueue)

/-- The nonces of an account in a part of the queue, behind the one that the pool has
recorded for it. -/
def nonceRow (address : Address) (txs : List QueuedTransaction) : List ℤ :=
  q.nonceOf address :: (txs.filter fun t => t.sourceAddress = address).map (·.nonce)

/-- Up to this transaction no nonce of its account is missing. -/
def Connects (before : List QueuedTransaction) (tx : QueuedTransaction) : Prop :=
  (nonceRow q tx.sourceAddress (before ++ [tx])).IsChain fun m n => n ≤ m + 1

instance (before : List QueuedTransaction) (tx : QueuedTransaction) :
    Decidable (Connects q before tx) :=
  inferInstanceAs (Decidable (List.IsChain _ _))

/-- The transactions of a part of the queue up to which no nonce is missing, when `before` is
ahead of it. -/
def connectedFrom (before : List QueuedTransaction) :
    List QueuedTransaction → List QueuedTransaction
  | [] => []
  | tx :: rest =>
      if Connects q before tx then tx :: connectedFrom (before ++ [tx]) rest
      else connectedFrom (before ++ [tx]) rest

/-- The same for a part at the front of the queue. -/
def connected (txs : List QueuedTransaction) : List QueuedTransaction :=
  connectedFrom q [] txs

/-- The size of a message with the connected transactions. -/
def connectedBytes (ahead : List QueuedTransaction) : ℕ :=
  ((connected q ahead).map fun t => elementSize (lib.byteSize t.env)).sum

/-- A byte for each connected transaction, and the bytes of all. -/
def estimatedBytes (ahead : List QueuedTransaction) : ℕ :=
  (connected q ahead).length + (ahead.map fun t => lib.byteSize t.env).sum

/-- Each of these transactions has room behind the connected ones ahead of it. -/
def AllFit (txs : List QueuedTransaction) : Prop :=
  ∀ earlier t, earlier ++ [t] <+: txs →
    connectedBytes lib q earlier + lib.byteSize t.env < txsetLimitSize

/-- The bytes of the transaction end below the limit by one of the two accounts, and by the
exact one it reaches the limit, with its tag and its length if it is connected. -/
def Straddles (before : List QueuedTransaction) (tx : QueuedTransaction) : Prop :=
  min (estimatedBytes lib q before) (connectedBytes lib q before) + lib.byteSize tx.env <
      txsetLimitSize ∧
    txsetLimitSize ≤ connectedBytes lib q before +
      if Connects q before tx then elementSize (lib.byteSize tx.env) else lib.byteSize tx.env

end Sizes

section Safe

variable (lib : Library) (q : TransactionQueue)

/-- `i + set_size`, when the loop has come to the end of this part of the queue. -/
def estimate (before : List QueuedTransaction) : ℕ :=
  (scan lib q before).i + (scan lib q before).setSize

/-- `set.ByteSize()`, when the loop has come to the end of this part of the queue. -/
def exactSize (before : List QueuedTransaction) : ℕ :=
  setByteSize lib (scan lib q before).set

/-- The set is below the limit, and the exact size was computed wherever it would have
ended the loop. -/
structure SizeSafe (limit : ℕ) : Prop where
  below : setByteSize lib (topTransaction lib q limit) < txsetLimitSize
  checked : ∀ before tx, ComesUp lib q limit before tx →
    txsetLimitSize ≤ exactSize lib q before + lib.byteSize tx.env →
    txsetLimitSize ≤ estimate lib q before + lib.byteSize tx.env

end Safe

variable {lib : Library} {q : TransactionQueue} {limit : ℕ} {before : List QueuedTransaction}
  {tx : QueuedTransaction}

theorem nonceRow_append (q : TransactionQueue) (address : Address)
    (before : List QueuedTransaction) (tx : QueuedTransaction) :
    nonceRow q address (before ++ [tx]) =
      nonceRow q address before ++ if tx.sourceAddress = address then [tx.nonce] else [] := by
  by_cases hsource : tx.sourceAddress = address <;> simp [nonceRow, hsource]

theorem connectedFrom_append (q : TransactionQueue) (before rest : List QueuedTransaction)
    (tx : QueuedTransaction) :
    connectedFrom q before (rest ++ [tx]) =
      connectedFrom q before rest ++ if Connects q (before ++ rest) tx then [tx] else [] := by
  induction rest generalizing before with
  | nil => simp [connectedFrom]
  | cons t rest ih =>
      rw [List.cons_append, connectedFrom, connectedFrom, ih, List.append_assoc,
        List.singleton_append]
      split <;> rfl

theorem connected_append (q : TransactionQueue) (before : List QueuedTransaction)
    (tx : QueuedTransaction) :
    connected q (before ++ [tx]) =
      connected q before ++ if Connects q before tx then [tx] else [] :=
  connectedFrom_append q [] before tx

/-! ## What the scan picks -/

/-- What the scan knows of the accounts: those with a missing nonce, and the last nonce of
the others. -/
structure KnowsRows (q : TransactionQueue) (before : List QueuedTransaction) (s : TopScan) :
    Prop where
  set : s.set = (connected q before).map (·.env)
  broken : ∀ address, address ∈ s.breakNonceAccounts ↔
    ¬ (nonceRow q address before).IsChain fun m n => n ≤ m + 1
  last : ∀ address, address ∉ s.breakNonceAccounts →
    (nonceRow q address before).getLast? = some (s.lastSeq q address)

theorem KnowsRows.picks_iff {s : TopScan} (hknows : KnowsRows q before s) :
    s.Picks q tx ↔ Connects q before tx := by
  have hunbroken := (hknows.broken tx.sourceAddress).not_left
  rw [Connects, nonceRow_append, if_pos rfl, List.isChain_append, ← hunbroken, TopScan.Picks]
  refine and_congr_right fun hmem => ?_
  simp [hknows.last _ hmem]

theorem nonceRow_append_of_ne {address : Address} (hne : address ≠ tx.sourceAddress) :
    nonceRow q address (before ++ [tx]) = nonceRow q address before := by
  rw [nonceRow_append, if_neg hne.symm, List.append_nil]

/-- A transaction that is not picked breaks the row of its account. -/
theorem mem_breakNonceAccounts_topStep (lib : Library) {s : TopScan} {address : Address}
    (hpicks : ¬ s.Picks q tx) : address ∈ (topStep lib q tx s).breakNonceAccounts ↔
      address = tx.sourceAddress ∨ address ∈ s.breakNonceAccounts := by
  unfold topStep
  dsimp only
  split
  · rename_i hbroken
    refine ⟨Or.inr, Or.rec (fun heq => ?_) id⟩
    rw [heq]
    exact hbroken
  · rename_i hbroken
    split
    · exact AList.mem_insert _
    · rename_i hnonce
      exact absurd ⟨hbroken, not_lt.mp hnonce⟩ hpicks

/-- One round of the loop. -/
theorem KnowsRows.step {s : TopScan} (hknows : KnowsRows q before s) (tx : QueuedTransaction) :
    KnowsRows q (before ++ [tx]) (topStep lib q tx s) := by
  by_cases hpicks : s.Picks q tx
  · have hconnects := hknows.picks_iff.mp hpicks
    rw [topStep_of_picks hpicks]
    refine ⟨?_, fun address => ?_, fun address hmem => ?_⟩
    · rw [connected_append, if_pos hconnects, List.map_append, ← hknows.set]
      rfl
    · by_cases haddress : address = tx.sourceAddress
      · rw [haddress]
        exact iff_of_false hpicks.1 (not_not.mpr hconnects)
      · rw [nonceRow_append_of_ne haddress]
        exact hknows.broken address
    · by_cases haddress : address = tx.sourceAddress
      · rw [haddress, nonceRow_append, if_pos rfl, List.getLast?_concat, TopScan.lastSeq,
          AList.lookup_insert, Option.getD_some]
      · rw [nonceRow_append_of_ne haddress, hknows.last address hmem, TopScan.lastSeq,
          TopScan.lastSeq, AList.lookup_insert_ne haddress]
  · have hconnects := fun hconnects => hpicks (hknows.picks_iff.mpr hconnects)
    obtain ⟨hset, htopic, -⟩ := topStep_set_of_not_picks lib hpicks
    refine ⟨?_, fun address => ?_, fun address hmem => ?_⟩
    · rw [hset, hknows.set, connected_append, if_neg hconnects, List.append_nil]
    · rw [mem_breakNonceAccounts_topStep lib hpicks]
      by_cases haddress : address = tx.sourceAddress
      · rw [haddress]
        exact iff_of_true (Or.inl rfl) hconnects
      · rw [nonceRow_append_of_ne haddress, ← hknows.broken address]
        exact or_iff_right haddress
    · rw [mem_breakNonceAccounts_topStep lib hpicks, not_or] at hmem
      rw [nonceRow_append_of_ne hmem.1, hknows.last address hmem.2, TopScan.lastSeq,
        TopScan.lastSeq, htopic]

theorem knowsRows_scan (lib : Library) (q : TransactionQueue) (before : List QueuedTransaction) :
    KnowsRows q before (scan lib q before) := by
  induction before using List.reverseRecOn with
  | nil => exact ⟨rfl, fun address => by simp [scan, nonceRow], fun address _ => rfl⟩
  | append_singleton before tx ih =>
      rw [scan_append]
      exact ih.step tx

/-- The size of the set is that of the connected transactions. -/
theorem exactSize_eq (lib : Library) (q : TransactionQueue) (before : List QueuedTransaction) :
    exactSize lib q before = connectedBytes lib q before := by
  rw [exactSize, (knowsRows_scan lib q before).set, setByteSize, List.map_map]
  rfl

theorem estimate_eq (lib : Library) (q : TransactionQueue) (before : List QueuedTransaction) :
    estimate lib q before = estimatedBytes lib q before := by
  rw [estimate, scan_i, scan_setSize, (knowsRows_scan lib q before).set, List.length_map]
  rfl

theorem connectedBytes_append (lib : Library) (q : TransactionQueue)
    (before : List QueuedTransaction) (tx : QueuedTransaction) :
    connectedBytes lib q (before ++ [tx]) = connectedBytes lib q before +
      if Connects q before tx then elementSize (lib.byteSize tx.env) else 0 := by
  rw [connectedBytes, connected_append]
  split <;> simp [connectedBytes]

theorem setByteSize_le_of_isPrefix (lib : Library) {set set' : List TransactionEnv}
    (hpart : set <+: set') :
    setByteSize lib set ≤ setByteSize lib set' := by
  obtain ⟨rest, rfl⟩ := hpart
  simp [setByteSize]

/-! ## The limit -/

/-- The loop is not stopped exactly when one of the two sizes is below the limit. -/
theorem stops_eq_false_iff : stops lib tx (scan lib q before) = false ↔
    estimate lib q before + lib.byteSize tx.env < txsetLimitSize ∨
      exactSize lib q before + lib.byteSize tx.env < txsetLimitSize := by
  unfold stops estimate exactSize
  split
  · rename_i hestimate
    rw [decide_eq_false_iff_not, not_le]
    exact ⟨Or.inr, fun hor => hor.resolve_left (not_lt.mpr hestimate)⟩
  · rename_i hestimate
    exact iff_of_true rfl (Or.inl (not_le.mp hestimate))

/-- Transactions that fit do not end the loop. -/
theorem AllFit.goesOn (hfit : AllFit lib q before)
    (hroom : (connected q before).length < limit) : GoesOn lib q limit before := by
  intro earlier t hpart
  have hpicked := (@set_prefix_scan lib q _ _
    ((List.prefix_append earlier [t]).trans hpart)).length_le
  rw [(knowsRows_scan lib q before).set, List.length_map] at hpicked
  refine ⟨hpicked.trans_lt hroom, stops_eq_false_iff.mpr (Or.inr ?_)⟩
  rw [exactSize_eq]
  exact hfit earlier t hpart

/-- The limit falls between the two accounts at no transaction of the pool that has fewer than
`limit` connected ones ahead and only such as fit. -/
def NoneStraddles (lib : Library) (q : TransactionQueue) (limit : ℕ) : Prop :=
  ∀ before tx, before ++ [tx] <+: q.txs → (connected q before).length < limit →
    AllFit lib q before → ¬ Straddles lib q before tx

theorem byteSize_le_ite (lib : Library) (q : TransactionQueue) (before : List QueuedTransaction)
    (tx : QueuedTransaction) : lib.byteSize tx.env ≤
      if Connects q before tx then elementSize (lib.byteSize tx.env) else lib.byteSize tx.env := by
  split
  · exact Nat.le_add_left _ _
  · exact le_rfl

/-- Where no transaction straddles the limit, those that the loop goes on over fit. -/
theorem allFit_of_goesOn (hnone : NoneStraddles lib q limit) (hplace : before <+: q.txs)
    (hgoesOn : GoesOn lib q limit before) : AllFit lib q before := by
  induction before using List.reverseRecOn with
  | nil => exact fun earlier t hpart => by simp at hpart
  | append_singleton before tx ih =>
      have hpart : before <+: before ++ [tx] := List.prefix_append _ _
      have hfit := ih (hpart.trans hplace) fun earlier t ht => hgoesOn earlier t (ht.trans hpart)
      intro earlier t ht
      rcases List.prefix_concat_iff.mp ht with heq | hearlier
      · obtain ⟨rfl, heq⟩ := List.append_inj' heq rfl
        obtain rfl : t = tx := by simpa using heq
        -- the exact size was below the limit, or the estimate was and nothing straddles
        obtain ⟨hroom, hstops⟩ := hgoesOn earlier t (List.prefix_refl _)
        rw [(knowsRows_scan lib q earlier).set, List.length_map] at hroom
        have hnot := hnone earlier t hplace hroom hfit
        rw [stops_eq_false_iff, exactSize_eq, estimate_eq] at hstops
        by_contra hover
        refine hnot ⟨(Nat.add_le_add_right (min_le_left _ _) _).trans_lt
          (hstops.resolve_right hover),
          (not_lt.mp hover).trans (Nat.add_le_add_left (byteSize_le_ite lib q earlier t) _)⟩
      · exact hfit earlier t hearlier

/-- **The estimate is safe** exactly when the limit falls between the two accounts at no
transaction of the pool. -/
theorem size_safe_iff (lib : Library) (q : TransactionQueue) (limit : ℕ) :
    SizeSafe lib q limit ↔ NoneStraddles lib q limit := by
  obtain ⟨reached, hreached, htop⟩ := exists_reached lib q limit
  constructor
  · rintro ⟨hbelow, hchecked⟩ before tx hplace hroom hfit ⟨hunder, hover⟩
    have hgoesOn := hfit.goesOn hroom
    have hset : (scan lib q before).set.length < limit := by
      rwa [(knowsRows_scan lib q before).set, List.length_map]
    -- where the exact size ends the loop, the estimate is over the limit too
    have hexact : connectedBytes lib q before + lib.byteSize tx.env < txsetLimitSize := by
      by_contra hends
      have hestimate := hchecked before tx ⟨hplace, hgoesOn, hset⟩
      rw [exactSize_eq, estimate_eq] at hestimate
      have hle := hestimate (not_lt.mp hends)
      omega
    -- the loop goes on over `tx`, and what it has picked is part of the set
    have hcovers := hreached.covers hplace
      (hgoesOn.append hset (stops_eq_false_iff.mpr (Or.inr (by rwa [exactSize_eq]))))
    have hle := setByteSize_le_of_isPrefix lib (@set_prefix_scan lib q _ _ hcovers)
    rw [← htop] at hle
    have hpart := (exactSize_eq lib q (before ++ [tx])).symm.trans_le hle
    rw [connectedBytes_append] at hpart
    by_cases hconnects : Connects q before tx
    · rw [if_pos hconnects] at hover hpart
      omega
    · rw [if_neg hconnects] at hover
      omega
  · intro hnone
    refine ⟨?_, fun before tx hup hends => ?_⟩
    · rw [htop]
      have hfit := allFit_of_goesOn hnone hreached.place hreached.goesOn
      change exactSize lib q reached < _
      rw [exactSize_eq]
      rcases List.eq_nil_or_concat reached with rfl | ⟨before, tx, rfl⟩
      · exact Nat.zero_lt_succ _
      · -- the last transaction that was reached fits without its tag and length
        rw [List.concat_eq_append] at hreached hfit ⊢
        have hexact := hfit before tx (List.prefix_refl _)
        have hpart : before <+: before ++ [tx] := List.prefix_append _ _
        obtain ⟨hroom, -⟩ := hreached.goesOn before tx (List.prefix_refl _)
        rw [(knowsRows_scan lib q before).set, List.length_map] at hroom
        have hnot := hnone before tx hreached.place hroom
          fun earlier t ht => hfit earlier t (ht.trans hpart)
        rw [connectedBytes_append]
        by_contra hover
        refine hnot ⟨(Nat.add_le_add_right (min_le_right _ _) _).trans_lt hexact,
          (not_lt.mp hover).trans (Nat.add_le_add_left ?_ _)⟩
        split
        · exact le_rfl
        · exact Nat.zero_le _
    · have hroom := hup.room
      rw [(knowsRows_scan lib q before).set, List.length_map] at hroom
      have hnot := hnone before tx hup.place hroom
        (allFit_of_goesOn hnone ((List.prefix_append _ _).trans hup.place) hup.goesOn)
      rw [exactSize_eq] at hends
      rw [estimate_eq]
      by_contra hestimate
      exact hnot ⟨(Nat.add_le_add_right (min_le_left _ _) _).trans_lt (not_le.mp hestimate),
        hends.trans (Nat.add_le_add_left (byteSize_le_ite lib q before tx) _)⟩

/-! ## Transactions of one account -/

section OneAccount

variable {cfg : PoolConfig} {family : ℕ → QueuedTransaction} {address : Address} {k : ℕ}

/-- The transactions with the nonces 1, 2, ... of an account. -/
structure Consecutive (family : ℕ → QueuedTransaction) (address : Address) : Prop where
  source : ∀ k, (family k).sourceAddress = address
  nonce : ∀ k, (family k).nonce = k + 1

/-- The first transactions of the family are the pool. -/
structure Queued (family : ℕ → QueuedTransaction) (address : Address) (k : ℕ)
    (q : TransactionQueue) : Prop where
  txs : q.txs = (List.range k).map family
  size : q.accountSize address = k
  new : ∀ n ≥ k, q.entryAt address (family n).nonce = none
  nonce : q.nonceOf address = 0

theorem Consecutive.inOrder (hfamily : Consecutive family address)
    (htxs : q.txs = (List.range k).map family) : q.InOrder := by
  have hlist : q.txs.Pairwise fun t u => priorityCompare q.nonceOf u t = false := by
    rw [htxs, List.pairwise_map]
    refine List.pairwise_lt_range.imp fun {i j} hlt => ?_
    simp only [priorityCompare, hfamily.source, hfamily.nonce, Bool.or_eq_false_iff,
      Bool.and_eq_false_iff, decide_eq_false_iff_not]
    omega
  unfold txs at hlist
  rw [List.pairwise_map] at hlist
  exact hlist

/-- The next transaction of the family goes to the end of the queue. -/
theorem insert_consecutive (hfamily : Consecutive family address) (hplace : PlacesByPriority cfg)
    (htxs : q.txs = (List.range k).map family) :
    (insert cfg (family k) q).txs = (List.range (k + 1)).map family := by
  have hlast : cfg.place (family k) q = q.queue.length := by
    rw [hplace _ _ (hfamily.inOrder htxs), Nodes.upperBound]
    refine congrArg List.length (List.takeWhile_eq_self_iff.mpr fun entry hentry => ?_)
    have hmem : entry.2 ∈ (List.range k).map family := htxs ▸ List.mem_map_of_mem hentry
    obtain ⟨i, hi, heq⟩ := List.mem_map.mp hmem
    rw [List.mem_range] at hi
    simp only [← heq, priorityCompare, hfamily.source, hfamily.nonce, Bool.not_eq_true',
      Bool.or_eq_false_iff, Bool.and_eq_false_iff, decide_eq_false_iff_not]
    omega
  have hqueue : (insert cfg (family k) q).queue = q.queue ++ [(q.nextNode, family k)] := by
    change Nodes.emplace (cfg.place (family k) q) _ _ _ = _
    rw [hlast, Nodes.emplace, List.take_length, List.drop_length]
  rw [txs, hqueue, List.map_append, List.range_succ, List.map_append, ← htxs]
  rfl

theorem insert_accountSize (cfg : PoolConfig) {tx : QueuedTransaction}
    (hnew : q.entryAt tx.sourceAddress tx.nonce = none) :
    (insert cfg tx q).accountSize tx.sourceAddress = q.accountSize tx.sourceAddress + 1 := by
  have hnotMem : tx.nonce ∉ (q.queueByAddressAndNonce.lookup tx.sourceAddress).getD ∅ := by
    rw [← AList.lookup_eq_none]
    unfold entryAt at hnew
    cases hcase : q.queueByAddressAndNonce.lookup tx.sourceAddress with
    | none => simp
    | some byNonce => rwa [hcase] at hnew
  rw [accountSize, insert_lookup, if_pos rfl, Option.getD_some,
    AList.entries_insert_of_notMem hnotMem, List.length_cons, accountSize]

theorem Queued.step (hfamily : Consecutive family address) (hplace : PlacesByPriority cfg)
    (hqueued : Queued family address k q) (haccount : k < cfg.accountTxsLimit)
    (hqueue : k < cfg.queueLimit) :
    ∃ q', step cfg q (.importTx (family k) 0) = some q' ∧ Queued family address (k + 1) q' := by
  have hnew : q.entryAt (family k).sourceAddress (family k).nonce = none := by
    rw [hfamily.source]
    exact hqueued.new k le_rfl
  let q₀ := { q with accountNonce := q.accountNonce.insert (family k).sourceAddress 0 }
  have htxs := insert_consecutive (q := q₀) hfamily hplace hqueued.txs
  have hlength : (insert cfg (family k) q₀).queue.length ≤ cfg.queueLimit := by
    rw [← length_txs, htxs, List.length_map, List.length_range]
    exact hqueue
  refine ⟨insert cfg (family k) q₀, ?_, htxs, ?_, fun n hn => ?_, ?_⟩
  · rw [TransactionQueue.step, importTx, importPrepare_of_new cfg 0 hnew, Option.bind_some]
    dsimp only
    rw [importInsert_of_room (by rw [hfamily.source, hqueued.size]; exact haccount),
      evictLoop_of_le hlength]
    rfl
  · have hsize := insert_accountSize (q := q₀) cfg hnew
    rw [hfamily.source] at hsize
    exact hsize.trans (congrArg (· + 1) hqueued.size)
  · rw [insert_entryAt, if_neg]
    · exact hqueued.new n (Nat.le_of_succ_le hn)
    · rintro ⟨-, hnonce⟩
      rw [hfamily.nonce, hfamily.nonce] at hnonce
      omega
  · change q₀.nonceOf address = 0
    rw [nonceOf_insert, hfamily.source, Function.update_self]

/-- Imported one after the other, the transactions are queued in the order of their nonces. -/
theorem run_consecutive (k : ℕ) (hfamily : Consecutive family address)
    (hplace : PlacesByPriority cfg) (haccount : k ≤ cfg.accountTxsLimit)
    (hqueue : k ≤ cfg.queueLimit) :
    ∃ q, run cfg ((List.range k).map fun i => .importTx (family i) 0) = some q ∧
      Queued family address k q := by
  induction k with
  | zero => exact ⟨{}, rfl, rfl, rfl, fun _ _ => rfl, rfl⟩
  | succ k ih =>
      obtain ⟨q, hrun, hqueued⟩ := ih (Nat.le_of_succ_le haccount) (Nat.le_of_succ_le hqueue)
      obtain ⟨q', hstep, hqueued'⟩ := hqueued.step hfamily hplace haccount hqueue
      refine ⟨q', ?_, hqueued'⟩
      rw [List.range_succ, List.map_append, List.map_cons, List.map_nil, run_append, hrun,
        Option.bind_some, hstep]

/-- The scan picks all of them. -/
theorem scan_consecutive (lib : Library) (hfamily : Consecutive family address)
    (hnonce : q.nonceOf address = 0) (k : ℕ) :
    (scan lib q ((List.range k).map family)).set =
        (List.range k).map (fun i => (family i).env) ∧
      (scan lib q ((List.range k).map family)).breakNonceAccounts = ∅ ∧
      (scan lib q ((List.range k).map family)).lastSeq q address = k := by
  induction k with
  | zero => exact ⟨rfl, rfl, hnonce⟩
  | succ k ih =>
      obtain ⟨hset, hbreak, hlast⟩ := ih
      have hpicks : (scan lib q ((List.range k).map family)).Picks q (family k) := by
        rw [TopScan.Picks, hbreak, hfamily.source, hlast, hfamily.nonce]
        exact ⟨AList.notMem_empty _, le_rfl⟩
      rw [List.range_succ, List.map_append, List.map_cons, List.map_nil, scan_append,
        topStep_of_picks hpicks]
      refine ⟨?_, hbreak, ?_⟩
      · rw [hset, List.map_append, List.map_cons, List.map_nil]
      · rw [TopScan.lastSeq, hfamily.source, AList.lookup_insert, hfamily.nonce]
        simp

end OneAccount

/-! ## Large payments -/

/-- What a string takes; it is left out when it is empty. -/
def stringFieldSize (bytes : Bytes) : ℕ :=
  if bytes = [] then 0 else elementSize bytes.length

/-- What a number that is not negative takes; it is left out when it is zero. -/
def numberFieldSize (n : ℤ) : ℕ :=
  if n = 0 then 0 else 1 + (Protobuf.varint n.toNat).length

/-- `Operation::ByteSize` of a payment. -/
def paymentOperationSize (ope : Operation) : ℕ :=
  numberFieldSize ope.body.type + stringFieldSize ope.sourceAddress +
    stringFieldSize ope.metadata +
    match ope.body with
    | .payCoin message => elementSize (stringFieldSize message.destAddress +
        numberFieldSize message.amount.toInt + stringFieldSize message.input)
    | _ => 0

/-- `Transaction::ByteSize` of payments. -/
def paymentTransactionSize (tran : Transaction) : ℕ :=
  stringFieldSize tran.sourceAddress + numberFieldSize tran.nonce +
    numberFieldSize tran.feeLimit.toInt + numberFieldSize tran.gasPrice.toInt +
    numberFieldSize tran.ceilLedgerSeq + stringFieldSize tran.metadata +
    (tran.operations.map fun ope => elementSize (paymentOperationSize ope)).sum +
    numberFieldSize tran.chainId

/-- `TransactionEnv::ByteSize` of payments. -/
def paymentByteSize (env : TransactionEnv) : ℕ :=
  elementSize (paymentTransactionSize env.transaction) +
    (env.signatures.map fun signature => elementSize (stringFieldSize signature.publicKey +
      stringFieldSize signature.signData)).sum

/-- A payment of one coin with some bytes of metadata. -/
def largePaymentOperation (size : ℕ) : Operation :=
  { metadata := List.replicate size 0
    body := .payCoin { destAddress := callerAddress, amount := 1 } }

/-- Four payments with 262144 bytes of metadata each, the last with somewhat less. -/
def largePayment (i : ℕ) : QueuedTransaction where
  env :=
    { transaction :=
        { sourceAddress := payerAddress
          nonce := i + 1
          operations := [largePaymentOperation 262144, largePaymentOperation 262144,
            largePaymentOperation 262144, largePaymentOperation 261812] }
      signatures := [⟨payerAddress, payerAddress⟩] }
  incomingTime := 0

/-- The pool with the sizes of payments. -/
def paymentPool : PoolConfig :=
  { orderedPool with
    lib := { sampleLibrary with byteSize := paymentByteSize }
    queueLimit := 10240
    accountTxsLimit := 64 }

theorem consecutive_largePayment : Consecutive largePayment payerAddress :=
  ⟨fun _ => rfl, fun _ => rfl⟩

theorem elementSize_of_lt {size : ℕ} (hsize : size < 128) : elementSize size = size + 2 := by
  rw [elementSize, Protobuf.length_varint_of_lt hsize]
  omega

/-- The length of an element between 16384 and 2097151 bytes takes three bytes. -/
theorem elementSize_of_large {size : ℕ} (hlow : 16384 ≤ size) (hhigh : size < 2097152) :
    elementSize size = size + 4 := by
  rw [elementSize, Protobuf.length_varint_of_le (by omega), Protobuf.length_varint_of_le (by omega),
    Protobuf.length_varint_of_lt (by omega)]
  omega

theorem numberFieldSize_of_lt {n : ℤ} (hpos : 0 < n) (hn : n < 128) : numberFieldSize n = 2 := by
  rw [numberFieldSize, if_neg hpos.ne', Protobuf.length_varint_of_lt (by omega)]

theorem stringFieldSize_of_length {bytes : Bytes} (length : ℕ) (hlength : bytes.length = length)
    (hpos : 0 < length) (hlt : length < 128) : stringFieldSize bytes = length + 2 := by
  rw [stringFieldSize, if_neg (by rintro rfl; simp at hlength; omega), hlength,
    elementSize_of_lt hlt]

theorem stringFieldSize_of_large {bytes : Bytes} {length : ℕ} (hlength : bytes.length = length)
    (hlow : 16384 ≤ length) (hhigh : length < 2097152) : stringFieldSize bytes = length + 4 := by
  rw [stringFieldSize, if_neg (by rintro rfl; simp at hlength; omega), hlength,
    elementSize_of_large hlow hhigh]

theorem paymentOperationSize_large {size : ℕ} (hlow : 16384 ≤ size) (hhigh : size < 2097152) :
    paymentOperationSize (largePaymentOperation size) = size + 48 := by
  have hdest : stringFieldSize callerAddress = 38 :=
    stringFieldSize_of_length 36 rfl (by omega) (by omega)
  have hmetadata : stringFieldSize (List.replicate size 0 : Bytes) = size + 4 :=
    stringFieldSize_of_large List.length_replicate hlow hhigh
  have hempty : stringFieldSize [] = 0 := rfl
  have hamount : numberFieldSize (Int64.toInt 1) = 2 :=
    numberFieldSize_of_lt (by decide) (by decide)
  have htype : numberFieldSize 7 = 2 := numberFieldSize_of_lt (by omega) (by omega)
  simp only [paymentOperationSize, largePaymentOperation, OperationBody.type, htype, hempty,
    hmetadata, hdest, hamount]
  rw [elementSize_of_lt (by omega)]
  omega

/-- The size of a payer's signed transaction of four operations, by the sizes of these. -/
theorem paymentByteSize_four {nonce : ℤ} (first second third fourth : Operation)
    (hpos : 0 < nonce) (hnonce : nonce < 128) :
    paymentByteSize
        { transaction :=
            { sourceAddress := payerAddress
              nonce := nonce
              operations := [first, second, third, fourth] }
          signatures := [⟨payerAddress, payerAddress⟩] } =
      elementSize (40 + (elementSize (paymentOperationSize first) +
        (elementSize (paymentOperationSize second) +
          (elementSize (paymentOperationSize third) +
            elementSize (paymentOperationSize fourth))))) + 78 := by
  have hsource : stringFieldSize payerAddress = 38 :=
    stringFieldSize_of_length 36 rfl (by omega) (by omega)
  have hempty : stringFieldSize [] = 0 := rfl
  have hzero : numberFieldSize 0 = 0 := rfl
  have hnumber : numberFieldSize nonce = 2 := numberFieldSize_of_lt hpos hnonce
  have hsignature : elementSize (38 + 38) = 78 := elementSize_of_lt (by omega)
  simp only [paymentByteSize, paymentTransactionSize, hsource, hempty, hzero, hnumber, hsignature,
    Int64.toInt_zero, List.map_cons, List.map_nil, List.sum_cons, List.sum_nil, Nat.add_zero]

/-- Each of the large payments is two bytes below the limit of a transaction. -/
theorem byteSize_largePayment {i : ℕ} (hi : i < 16) :
    paymentPool.lib.byteSize (largePayment i).env = 1048574 := by
  have hfour := paymentByteSize_four (largePaymentOperation 262144)
    (largePaymentOperation 262144) (largePaymentOperation 262144) (largePaymentOperation 261812)
    (show 0 < (i : ℤ) + 1 by omega) (by omega)
  rw [paymentOperationSize_large (by omega) (by omega),
    paymentOperationSize_large (by omega) (by omega)] at hfour
  have hlong : elementSize (262144 + 48) = 262196 := elementSize_of_large (by omega) (by omega)
  have hlast : elementSize (261812 + 48) = 261864 := elementSize_of_large (by omega) (by omega)
  rw [hlong, hlast, elementSize_of_large (by omega) (by omega)] at hfour
  exact hfour

theorem map_byteSize_largePayment {k : ℕ} (hk : k ≤ 16) :
    ((List.range k).map fun i => paymentPool.lib.byteSize (largePayment i).env) =
      List.replicate k 1048574 := by
  refine List.eq_replicate_iff.mpr ⟨by simp, fun size hsize => ?_⟩
  obtain ⟨i, hi, rfl⟩ := List.mem_map.mp hsize
  exact byteSize_largePayment (by have := List.mem_range.mp hi; omega)

/-- Sixteen of them fit by the estimate, and the loop goes on over all of them. -/
theorem goesOn_largePayments {q : TransactionQueue} (hnonce : q.nonceOf payerAddress = 0) :
    GoesOn paymentPool.lib q 16 ((List.range 16).map largePayment) := by
  intro earlier t hpart
  obtain ⟨taken, htaken, heq⟩ := List.prefix_map_iff.mp hpart
  have hlength : taken.length = earlier.length + 1 := by
    have := congrArg List.length heq
    simpa using this.symm
  have hle : earlier.length + 1 ≤ 16 := by
    rw [← hlength]
    simpa using htaken.length_le
  have hrange : taken = List.range (earlier.length + 1) := by
    rw [List.prefix_iff_eq_take.mp htaken, List.take_range, hlength, min_eq_left hle]
  rw [hrange, List.range_succ, List.map_append] at heq
  obtain ⟨hearlier, ht⟩ := List.append_inj' heq rfl
  obtain rfl : t = largePayment earlier.length := by simpa using ht
  generalize earlier.length = k at hearlier hle ⊢
  obtain ⟨hset, -, -⟩ := scan_consecutive paymentPool.lib consecutive_largePayment hnonce k
  rw [hearlier]
  refine ⟨by rw [hset, List.length_map, List.length_range]; omega, stops_eq_false_iff.mpr ?_⟩
  left
  rw [estimate, scan_i, hset, scan_setSize, List.map_map, List.length_map, List.length_range,
    byteSize_largePayment (by omega)]
  change k + ((List.range k).map fun i => paymentPool.lib.byteSize (largePayment i).env).sum + _ < _
  rw [map_byteSize_largePayment (by omega), List.sum_replicate_nat, txsetLimitSize]
  omega

/-- The estimate lets sixteen large payments into a set that is too large for them. -/
theorem sixteen_large_payments : ∃ q,
    run paymentPool ((List.range 16).map fun i => .importTx (largePayment i) 0) = some q ∧
      ¬ SizeSafe paymentPool.lib q 16 := by
  obtain ⟨q, hrun, hqueued⟩ := run_consecutive 16 consecutive_largePayment
    (show PlacesByPriority paymentPool from fun _ _ _ => rfl) (by decide) (by decide)
  refine ⟨q, hrun, fun hsafe => ?_⟩
  obtain ⟨reached, hreached, htop⟩ := exists_reached paymentPool.lib q 16
  obtain ⟨hset, -, -⟩ :=
    scan_consecutive paymentPool.lib consecutive_largePayment hqueued.nonce 16
  have hplace : (List.range 16).map largePayment <+: q.txs := by rw [hqueued.txs]
  have hpart : (scan paymentPool.lib q ((List.range 16).map largePayment)).set <+:
      (scan paymentPool.lib q reached).set :=
    set_prefix_scan (hreached.covers hplace (goesOn_largePayments hqueued.nonce))
  have hle := setByteSize_le_of_isPrefix paymentPool.lib hpart
  have hbelow := hsafe.below
  have hsize : setByteSize paymentPool.lib ((List.range 16).map fun i => (largePayment i).env) =
      16 * 1048578 := by
    have helement : ∀ i < 16,
        elementSize (paymentPool.lib.byteSize (largePayment i).env) = 1048578 := by
      intro i hi
      rw [byteSize_largePayment hi, elementSize_of_large (by omega) (by omega)]
    have hall : ((List.range 16).map fun i =>
        elementSize (paymentPool.lib.byteSize (largePayment i).env)) =
          List.replicate 16 1048578 := by
      refine List.eq_replicate_iff.mpr ⟨by simp, fun size hsize => ?_⟩
      obtain ⟨i, hi, rfl⟩ := List.mem_map.mp hsize
      exact helement i (List.mem_range.mp hi)
    rw [setByteSize, List.map_map]
    exact (congrArg List.sum hall).trans List.sum_replicate_nat
  rw [hset, hsize] at hle
  rw [htop, txsetLimitSize] at hbelow
  omega

end TransactionQueue

end CegChain
