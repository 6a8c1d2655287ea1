import CegChain.Glue.PriorityOrder
import CegChain.Lib.Protobuf

/-!
# The transactions of a proposal

`TopTransaction` of `glue/transaction_queue.cpp`: one pass over `queue_` picks the
transactions of the next proposal.  It remembers for every account the nonce that was
picked last, skips an account for good once a nonce is missing, and stops at the number of
transactions it was asked for or when the set would become too large.

The pass without its two stops is `scan`; `TopTransaction` is the scan of the part of the
queue that it reaches (`exists_reached`).
-/

namespace CegChain

namespace TransactionQueue

/-- `General::TXSET_LIMIT_SIZE`. -/
def txsetLimitSize : ℕ := 16 * 1024 * 1024

/-- What an element of a repeated field takes: its tag, the length and the bytes. -/
def elementSize (size : ℕ) : ℕ :=
  1 + (Protobuf.varint size).length + size

/-- `TransactionEnvSet::ByteSize`. -/
def setByteSize (lib : Library) (set : List TransactionEnv) : ℕ :=
  (set.map fun env => elementSize (lib.byteSize env)).sum

/-- The variables of `TopTransaction`. -/
structure TopScan where
  set : List TransactionEnv := []
  topicSeqs : AList (fun _ : Address => ℤ) := ∅
  breakNonceAccounts : AList (fun _ : Address => ℤ) := ∅
  i : ℕ := 0
  setSize : ℕ := 0

/-- `last_seq` for an account. -/
def TopScan.lastSeq (q : TransactionQueue) (address : Address) (s : TopScan) : ℤ :=
  (s.topicSeqs.lookup address).getD (q.nonceOf address)

/-- The transaction is picked. -/
def TopScan.Picks (q : TransactionQueue) (tx : QueuedTransaction) (s : TopScan) : Prop :=
  tx.sourceAddress ∉ s.breakNonceAccounts ∧ tx.nonce ≤ s.lastSeq q tx.sourceAddress + 1

instance (q : TransactionQueue) (tx : QueuedTransaction) (s : TopScan) : Decidable (s.Picks q tx) :=
  inferInstanceAs (Decidable (_ ∧ _))

section TopTransaction

variable (lib : Library) (q : TransactionQueue)

/-- The test that breaks the loop: the estimate first, and the exact size when it is not
below the limit. -/
def stops (tx : QueuedTransaction) (s : TopScan) : Bool :=
  if txsetLimitSize ≤ s.i + s.setSize + lib.byteSize tx.env then
    decide (txsetLimitSize ≤ setByteSize lib s.set + lib.byteSize tx.env)
  else false

/-- The rest of a round of the loop. -/
def topStep (tx : QueuedTransaction) (s : TopScan) : TopScan :=
  let s := { s with setSize := s.setSize + lib.byteSize tx.env }
  if tx.sourceAddress ∈ s.breakNonceAccounts then s
  else
    let lastSeq := s.lastSeq q tx.sourceAddress
    if tx.nonce > lastSeq + 1 then
      { s with breakNonceAccounts := s.breakNonceAccounts.insert tx.sourceAddress (lastSeq + 1) }
    else
      { s with
        topicSeqs := s.topicSeqs.insert tx.sourceAddress tx.nonce
        set := s.set ++ [tx.env]
        i := s.i + 1 }

/-- The loop of `TopTransaction`. -/
def topLoop (limit : ℕ) : List QueuedTransaction → TopScan → TopScan
  | [], s => s
  | tx :: txs, s =>
      if s.set.length < limit then
        if stops lib tx s then s else topLoop limit txs (topStep lib q tx s)
      else s

/-- `TopTransaction`. -/
def topTransaction (limit : ℕ) : List TransactionEnv :=
  (topLoop lib q limit q.txs {}).set

/-- The loop without its stops. -/
def scan (txs : List QueuedTransaction) : TopScan :=
  txs.foldl (fun s tx => topStep lib q tx s) {}

/-- No transaction of this part of the queue ends the loop. -/
def GoesOn (limit : ℕ) (before : List QueuedTransaction) : Prop :=
  ∀ earlier t, earlier ++ [t] <+: before →
    (scan lib q earlier).set.length < limit ∧ stops lib t (scan lib q earlier) = false

/-- The loop comes to the transaction that is behind `before`. -/
structure ComesUp (limit : ℕ) (before : List QueuedTransaction) (tx : QueuedTransaction) :
    Prop where
  place : before ++ [tx] <+: q.txs
  goesOn : GoesOn lib q limit before
  room : (scan lib q before).set.length < limit

/-- The loop ends behind this part of the queue. -/
structure Reached (limit : ℕ) (before : List QueuedTransaction) : Prop where
  place : before <+: q.txs
  goesOn : GoesOn lib q limit before
  ends : ∀ t, before ++ [t] <+: q.txs →
    limit ≤ (scan lib q before).set.length ∨ stops lib t (scan lib q before) = true

end TopTransaction

variable {lib : Library} {q : TransactionQueue} {limit : ℕ} {before : List QueuedTransaction}
  {tx : QueuedTransaction} {s : TopScan}

/-! ## One round -/

theorem topStep_of_picks (hpicks : s.Picks q tx) :
    topStep lib q tx s = { s with
      setSize := s.setSize + lib.byteSize tx.env
      topicSeqs := s.topicSeqs.insert tx.sourceAddress tx.nonce
      set := s.set ++ [tx.env]
      i := s.i + 1 } := by
  have hnonce : ¬ (tx.nonce > s.lastSeq q tx.sourceAddress + 1) := not_lt.mpr hpicks.2
  unfold topStep
  exact (if_neg hpicks.1).trans (if_neg hnonce)

theorem topStep_set_of_not_picks (lib : Library) (hpicks : ¬ s.Picks q tx) :
    (topStep lib q tx s).set = s.set ∧ (topStep lib q tx s).topicSeqs = s.topicSeqs ∧
      (topStep lib q tx s).i = s.i := by
  unfold topStep
  dsimp only
  split
  · exact ⟨rfl, rfl, rfl⟩
  · rename_i hbreak
    split
    · exact ⟨rfl, rfl, rfl⟩
    · rename_i hnonce
      exact absurd ⟨hbreak, not_lt.mp hnonce⟩ hpicks

theorem topStep_setSize :
    (topStep lib q tx s).setSize = s.setSize + lib.byteSize tx.env := by
  unfold topStep
  dsimp only
  split
  · rfl
  · split <;> rfl

theorem set_prefix_topStep : s.set <+: (topStep lib q tx s).set := by
  by_cases hpicks : s.Picks q tx
  · rw [topStep_of_picks hpicks]
    exact List.prefix_append _ _
  · rw [(topStep_set_of_not_picks lib hpicks).1]

/-! ## The scan -/

theorem scan_append (before : List QueuedTransaction) (tx : QueuedTransaction) :
    scan lib q (before ++ [tx]) = topStep lib q tx (scan lib q before) := by
  rw [scan, List.foldl_append]
  rfl

/-- A longer scan picks more. -/
theorem set_prefix_scan {longer : List QueuedTransaction} (hpart : before <+: longer) :
    (scan lib q before).set <+: (scan lib q longer).set := by
  obtain ⟨rest, rfl⟩ := hpart
  induction rest using List.reverseRecOn with
  | nil => rw [List.append_nil]
  | append_singleton rest tx ih =>
      rw [← List.append_assoc, scan_append]
      exact ih.trans set_prefix_topStep

/-- The scan counts what it picks. -/
theorem scan_i : (scan lib q before).i = (scan lib q before).set.length := by
  induction before using List.reverseRecOn with
  | nil => rfl
  | append_singleton before tx ih =>
      rw [scan_append]
      by_cases hpicks : (scan lib q before).Picks q tx
      · rw [topStep_of_picks hpicks]
        simp [ih]
      · obtain ⟨hset, -, hi⟩ := topStep_set_of_not_picks lib hpicks
        rw [hset, hi, ih]

theorem GoesOn.append (hgoesOn : GoesOn lib q limit before)
    (hroom : (scan lib q before).set.length < limit)
    (hstops : stops lib tx (scan lib q before) = false) : GoesOn lib q limit (before ++ [tx]) := by
  intro earlier t hpart
  rcases List.prefix_concat_iff.mp hpart with heq | hearlier
  · obtain ⟨rfl, heq⟩ := List.append_inj' heq rfl
    obtain rfl : t = tx := by simpa using heq
    exact ⟨hroom, hstops⟩
  · exact hgoesOn earlier t hearlier

/-- The scan counts the bytes of all that it comes to. -/
theorem scan_setSize :
    (scan lib q before).setSize = (before.map fun tx => lib.byteSize tx.env).sum := by
  induction before using List.reverseRecOn with
  | nil => rfl
  | append_singleton before tx ih =>
      rw [scan_append, topStep_setSize, ih]
      simp

/-- From the scan of a part of the queue the loop goes on to where it ends. -/
theorem topLoop_reached (rest : List QueuedTransaction) {before : List QueuedTransaction}
    (hqueue : before ++ rest = q.txs) (hgoesOn : GoesOn lib q limit before) :
    ∃ reached, Reached lib q limit reached ∧
      (topLoop lib q limit rest (scan lib q before)).set = (scan lib q reached).set := by
  induction rest generalizing before with
  | nil =>
      rw [List.append_nil] at hqueue
      refine ⟨before, ⟨hqueue ▸ List.prefix_refl _, hgoesOn, fun t ht => ?_⟩, rfl⟩
      have hlength := ht.length_le
      rw [← hqueue, List.length_append, List.length_singleton] at hlength
      omega
  | cons tx rest ih =>
      have hplace : before ++ [tx] <+: q.txs := ⟨rest, by rw [← hqueue]; simp⟩
      -- the transaction behind `before` is `tx`
      have hnext : ∀ t, before ++ [t] <+: q.txs → t = tx := by
        intro t ht
        simpa using List.prefix_of_prefix_length_le ht hplace (by simp)
      rw [topLoop]
      split
      · rename_i hroom
        split
        · rename_i hstops
          exact ⟨before, ⟨⟨tx :: rest, hqueue⟩, hgoesOn, fun t ht => Or.inr (hnext t ht ▸ hstops)⟩,
            rfl⟩
        · rename_i hstops
          rw [← scan_append]
          exact ih (by rw [← hqueue]; simp) (hgoesOn.append hroom (Bool.not_eq_true _ ▸ hstops))
      · rename_i hfull
        exact ⟨before, ⟨⟨tx :: rest, hqueue⟩, hgoesOn, fun _ _ => Or.inl (not_lt.mp hfull)⟩, rfl⟩

/-- **`TopTransaction` is the scan of what it reaches** of the queue. -/
theorem exists_reached (lib : Library) (q : TransactionQueue) (limit : ℕ) :
    ∃ reached, Reached lib q limit reached ∧
      topTransaction lib q limit = (scan lib q reached).set := by
  have hstart : GoesOn lib q limit [] := fun earlier t ht => by simp at ht
  exact topLoop_reached q.txs (List.nil_append _) hstart

/-- What the loop comes to and is not stopped by is part of what it reaches. -/
theorem Reached.covers {reached : List QueuedTransaction} (hreached : Reached lib q limit reached)
    (hplace : before <+: q.txs) (hgoesOn : GoesOn lib q limit before) : before <+: reached := by
  rcases List.prefix_or_prefix_of_prefix hplace hreached.place with hpart | hpart
  · exact hpart
  · obtain ⟨rest, rfl⟩ := hpart
    cases rest with
    | nil => rw [List.append_nil]
    | cons t rest =>
        have hnext : reached ++ [t] <+: reached ++ t :: rest := ⟨rest, by simp⟩
        obtain ⟨hroom, hstops⟩ := hgoesOn reached t hnext
        rcases hreached.ends t (hnext.trans hplace) with hfull | hstopped
        · exact absurd hroom (not_lt.mpr hfull)
        · rw [hstops] at hstopped
          exact absurd hstopped (by simp)

end TransactionQueue

end CegChain
