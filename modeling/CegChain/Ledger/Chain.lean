import CegChain.Ledger.Flush
import CegChain.Ledger.Replay

/-!
# Chains of blocks

A chain is a list of blocks each of which `ApplyCheck` accepts on the tree that
its predecessor left.  `no_replay` says when the nonces of a chain never go back
and no transaction is applied twice: when every read of an account finds the
newest record of the block, and no block knows an account under two spellings.
`nonce_goes_back` is a chain in which the first condition fails and the same
transaction is accepted in two blocks.
-/

namespace CegChain

open Layers AtomMap LedgerContext

/-- A block with the ledger it is applied to. -/
structure Block where
  lcl : Closed
  rt : Runtime
  value : ConsensusValue

namespace Block

variable (lib : Library) (b : Block)

/-- `ApplyCheck` of the block. -/
def check : LedgerFrm.Applied :=
  LedgerFrm.applyCheck lib b.lcl b.rt b.value

/-- The tree that the block leaves. -/
def tree : Table (Option Bytes) AccountFrm :=
  LedgerFrm.commit b.lcl (b.check lib).context

/-- The accounts before the block, at every commit in it, and after it. -/
def states : List (Address → Option AccountFrm) :=
  b.lcl.accountFromDB :: ((b.check lib).context.committedStates.reverse.map (shown b.lcl) ++
    [fun address => (b.tree lib).lookup (decodeAddress address)])

/-- The transactions of the block that were applied, in their order. -/
def applied : List TransactionEnv :=
  ((b.check lib).context.charges.map Prod.fst).reverse

/-- A chain of accepted blocks. -/
structure IsChain (chain : List Block) : Prop where
  accepted : ∀ b ∈ chain, (b.check lib).accepted = true
  linked : chain.IsChain fun b next => next.lcl.tree = b.tree lib

/-- Every read in the block found the newest record of the account, and the block
does not know an account under two spellings. -/
structure ReadsWell : Prop where
  newest : (b.check lib).context.ReadsNewest b.lcl
  spelling : OneSpelling (b.check lib).context.data

end Block

/-- The nonces of the accounts do not go back. -/
def NoncesKeep (before after : Address → Option AccountFrm) : Prop :=
  ∀ address, Above NonceLe (before address) (after address)

theorem NoncesKeep.refl (state : Address → Option AccountFrm) : NoncesKeep state state :=
  fun _ => Above.refl NonceLe.refl _

theorem NoncesKeep.trans {a b c : Address → Option AccountFrm} (hab : NoncesKeep a b)
    (hbc : NoncesKeep b c) : NoncesKeep a c :=
  fun address => (hab address).trans NonceLe.trans (hbc address)

/-- Two transactions with the same source have different nonces, the later one the
higher. -/
def Follows (earlier later : TransactionEnv) : Prop :=
  earlier.transaction.sourceAddress = later.transaction.sourceAddress →
    earlier.transaction.nonce < later.transaction.nonce

/-! ## The tree that a block leaves -/

/-- Writing the block to the tree lowers no nonce. -/
theorem LedgerFrm.noncesKeep_commit {lcl : Closed} {c : LedgerContext} (hrises : c.Rises lcl)
    (hspelling : OneSpelling c.data) :
    NoncesKeep (shown lcl c.data)
      (fun address => (LedgerFrm.commit lcl c).lookup (decodeAddress address)) := by
  intro address account haccount
  have hbase := hrises.rising.getLast NonceLe.refl
  by_cases hmem : ∃ other ∈ c.data, decodeAddress other = decodeAddress address
  · obtain ⟨other, hother, hdecode⟩ := hmem
    obtain ⟨r, hlookup⟩ := Option.isSome_iff_exists.mp (AList.lookup_isSome.mpr hother)
    have hshown : shown lcl c.data other = r.value? := view_cons_of_lookup hlookup []
    -- the block shows at least this nonce under its own spelling
    obtain ⟨newer, hnewer, hle⟩ : ∃ newer, r.value? = some newer ∧ NonceLe account newer := by
      rw [← hshown]
      by_cases heq : address = other
      · exact ⟨account, heq ▸ haccount, NonceLe.refl account⟩
      · have hnone : c.data.lookup address = none := by
          rw [AList.lookup_eq_none]
          exact fun hin => heq (hspelling address hin other hother hdecode.symm)
        rw [shown, view_cons_of_not_mem hnone] at haccount
        refine hbase other account ?_
        rw [← haccount, Closed.accountFromDB, hdecode]
        rfl
    refine ⟨newer.updateHash, ?_,
      Int.le_trans hle (AccountFrm.sameFunds_updateHash newer).nonce.ge⟩
    dsimp only
    rw [← hdecode, LedgerFrm.lookup_commit hspelling hlookup, hnewer, Option.map_some,
      Option.some_or]
  · push Not at hmem
    have hnone : c.data.lookup address = none := by
      rw [AList.lookup_eq_none]
      exact fun hin => hmem address hin rfl
    rw [shown, view_cons_of_not_mem hnone] at haccount
    refine ⟨account, ?_, NonceLe.refl account⟩
    dsimp only
    rw [LedgerFrm.lookup_commit_of_forall_ne hmem]
    exact haccount

namespace Block

variable {lib : Library} {b : Block}

theorem orderly (haccepted : (b.check lib).accepted = true) (hreads : b.ReadsWell lib) :
    (b.check lib).context.Orderly b.lcl :=
  LedgerFrm.orderly_applyCheck haccepted hreads.newest

/-- What was committed in the block is below what it leaves. -/
theorem noncesKeep_tree (haccepted : (b.check lib).accepted = true) (hreads : b.ReadsWell lib)
    {data : Map Address AccountFrm} (hmem : data ∈ (b.check lib).context.committedStates) :
    NoncesKeep (shown b.lcl data) fun address => (b.tree lib).lookup (decodeAddress address) :=
  have horderly := orderly haccepted hreads
  NoncesKeep.trans (horderly.rises.states_le data hmem)
    (LedgerFrm.noncesKeep_commit horderly.rises hreads.spelling)

/-- Every state of the block is below the tree it leaves. -/
theorem states_le_tree (haccepted : (b.check lib).accepted = true) (hreads : b.ReadsWell lib)
    {state : Address → Option AccountFrm} (hmem : state ∈ b.states lib) :
    NoncesKeep state fun address => (b.tree lib).lookup (decodeAddress address) := by
  have horderly := orderly haccepted hreads
  rcases List.mem_cons.mp hmem with rfl | hmem
  · exact NoncesKeep.trans (horderly.rises.rising.getLast NonceLe.refl)
      (LedgerFrm.noncesKeep_commit horderly.rises hreads.spelling)
  · rcases List.mem_append.mp hmem with hmem | hmem
    · obtain ⟨data, hdata, rfl⟩ := List.mem_map.mp hmem
      exact noncesKeep_tree haccepted hreads (List.mem_reverse.mp hdata)
    · obtain rfl := List.mem_singleton.mp hmem
      exact NoncesKeep.refl _

/-- Within a block the nonces never go back. -/
theorem pairwise_states (haccepted : (b.check lib).accepted = true) (hreads : b.ReadsWell lib) :
    (b.states lib).Pairwise NoncesKeep := by
  have horderly := orderly haccepted hreads
  have hbase : ∀ state ∈ b.states lib, NoncesKeep b.lcl.accountFromDB state := by
    intro state hmem
    rcases List.mem_cons.mp hmem with rfl | hmem
    · exact NoncesKeep.refl _
    · rcases List.mem_append.mp hmem with hmem | hmem
      · obtain ⟨data, hdata, rfl⟩ := List.mem_map.mp hmem
        intro address
        have hle := horderly.rises.base_le data (List.mem_reverse.mp hdata) address
        rwa [shown, view_empty_cons] at hle
      · obtain rfl := List.mem_singleton.mp hmem
        exact states_le_tree haccepted hreads (List.mem_cons_self ..)
  unfold states at hbase ⊢
  rw [List.pairwise_cons, List.pairwise_append]
  refine ⟨fun state hmem => hbase state (List.mem_cons_of_mem _ hmem), ?_,
    List.pairwise_singleton .., ?_⟩
  · rw [List.pairwise_map, List.pairwise_reverse]
    exact horderly.rises.pairwise
  · intro state hmem after hafter
    obtain rfl := List.mem_singleton.mp hafter
    obtain ⟨data, hdata, rfl⟩ := List.mem_map.mp hmem
    exact noncesKeep_tree haccepted hreads (List.mem_reverse.mp hdata)

theorem base_le_states (haccepted : (b.check lib).accepted = true) (hreads : b.ReadsWell lib)
    {state : Address → Option AccountFrm} (hmem : state ∈ b.states lib) :
    NoncesKeep b.lcl.accountFromDB state := by
  rcases List.mem_cons.mp hmem with rfl | hmem
  · exact NoncesKeep.refl _
  · exact (List.pairwise_cons.mp (pairwise_states haccepted hreads)).1 state hmem

theorem pairwise_applied (haccepted : (b.check lib).accepted = true) (hreads : b.ReadsWell lib) :
    (b.applied lib).Pairwise Follows := by
  rw [applied, List.pairwise_reverse, List.pairwise_map]
  exact (orderly haccepted hreads).numbered.pairwise

/-- A transaction of the block took a nonce above that of its source before. -/
theorem base_lt_applied (haccepted : (b.check lib).accepted = true) (hreads : b.ReadsWell lib)
    {env : TransactionEnv} (hmem : env ∈ b.applied lib) {account : AccountFrm}
    (haccount : b.lcl.accountFromDB env.transaction.sourceAddress = some account) :
    account.nonce < env.transaction.nonce := by
  obtain ⟨charged, hcharged, rfl⟩ := List.mem_map.mp (List.mem_reverse.mp hmem)
  exact (orderly haccepted hreads).numbered.base_lt charged hcharged account haccount

/-- The tree that the block leaves has at least the nonce of the transaction. -/
theorem exists_tree_of_applied (haccepted : (b.check lib).accepted = true)
    (hreads : b.ReadsWell lib) {env : TransactionEnv} (hmem : env ∈ b.applied lib) :
    ∃ account, (b.tree lib).lookup (decodeAddress env.transaction.sourceAddress) = some account ∧
      env.transaction.nonce ≤ account.nonce := by
  obtain ⟨charged, hcharged, rfl⟩ := List.mem_map.mp (List.mem_reverse.mp hmem)
  obtain ⟨account, hshown, hnonce⟩ :=
    (orderly haccepted hreads).numbered.nonce_eq charged hcharged
  obtain ⟨newer, hnewer, hle⟩ := noncesKeep_tree haccepted hreads
    (mem_committedStates_of_charges hcharged) charged.1.transaction.sourceAddress account hshown
  exact ⟨newer, hnewer, hnonce.symm.trans_le hle⟩

/-! ## Later blocks -/

section Chain

variable {rest : List Block}

theorem IsChain.tail (hchain : IsChain lib (b :: rest)) : IsChain lib rest :=
  ⟨fun other hmem => hchain.accepted other (List.mem_cons_of_mem _ hmem), hchain.linked.tail⟩

theorem IsChain.accountFromDB_eq {next : Block} (hchain : IsChain lib (b :: next :: rest)) :
    (fun address => (b.tree lib).lookup (decodeAddress address)) = next.lcl.accountFromDB := by
  funext address
  rw [Closed.accountFromDB, (List.isChain_cons_cons.mp hchain.linked).1]

/-- The states of the later blocks are above the tree that a block leaves. -/
theorem tree_le_later (hchain : IsChain lib (b :: rest))
    (hreads : ∀ other ∈ b :: rest, other.ReadsWell lib) {state : Address → Option AccountFrm}
    (hmem : state ∈ rest.flatMap (states lib)) :
    NoncesKeep (fun address => (b.tree lib).lookup (decodeAddress address)) state := by
  induction rest generalizing b with
  | nil => cases hmem
  | cons next rest ih =>
      have haccepted := hchain.tail.accepted next (List.mem_cons_self ..)
      have hreadsTail : ∀ other ∈ next :: rest, other.ReadsWell lib :=
        fun other hother => hreads other (List.mem_cons_of_mem _ hother)
      have hreadsNext := hreadsTail next (List.mem_cons_self ..)
      rw [hchain.accountFromDB_eq]
      rw [List.flatMap_cons] at hmem
      rcases List.mem_append.mp hmem with hmem | hmem
      · exact base_le_states haccepted hreadsNext hmem
      · exact NoncesKeep.trans (states_le_tree haccepted hreadsNext (List.mem_cons_self ..))
          (ih hchain.tail hreadsTail hmem)

/-- The transactions of the later blocks have nonces above those of the tree. -/
theorem tree_lt_later (hchain : IsChain lib (b :: rest))
    (hreads : ∀ other ∈ b :: rest, other.ReadsWell lib) {env : TransactionEnv}
    (hmem : env ∈ rest.flatMap (applied lib)) {account : AccountFrm}
    (haccount : (b.tree lib).lookup (decodeAddress env.transaction.sourceAddress) =
      some account) : account.nonce < env.transaction.nonce := by
  induction rest generalizing b account with
  | nil => cases hmem
  | cons next rest ih =>
      have haccepted := hchain.tail.accepted next (List.mem_cons_self ..)
      have hreadsTail : ∀ other ∈ next :: rest, other.ReadsWell lib :=
        fun other hother => hreads other (List.mem_cons_of_mem _ hother)
      have hreadsNext := hreadsTail next (List.mem_cons_self ..)
      have hbase : next.lcl.accountFromDB env.transaction.sourceAddress = some account := by
        rw [← hchain.accountFromDB_eq]
        exact haccount
      rw [List.flatMap_cons] at hmem
      rcases List.mem_append.mp hmem with hmem | hmem
      · exact base_lt_applied haccepted hreadsNext hmem hbase
      · obtain ⟨newer, hnewer, hle⟩ := states_le_tree haccepted hreadsNext
          (List.mem_cons_self ..) env.transaction.sourceAddress account hbase
        exact lt_of_le_of_lt hle (ih hchain.tail hreadsTail hmem hnewer)

theorem pairwise_states_chain {chain : List Block} (hchain : IsChain lib chain)
    (hreads : ∀ b ∈ chain, b.ReadsWell lib) :
    (chain.flatMap (states lib)).Pairwise NoncesKeep := by
  induction chain with
  | nil => exact List.Pairwise.nil
  | cons b rest ih =>
      have haccepted := hchain.accepted b (List.mem_cons_self ..)
      have hreadsHead := hreads b (List.mem_cons_self ..)
      rw [List.flatMap_cons, List.pairwise_append]
      refine ⟨pairwise_states haccepted hreadsHead,
        ih hchain.tail fun other hother => hreads other (List.mem_cons_of_mem _ hother), ?_⟩
      intro before hbefore after hafter
      exact NoncesKeep.trans (states_le_tree haccepted hreadsHead hbefore)
        (tree_le_later hchain hreads hafter)

theorem pairwise_applied_chain {chain : List Block} (hchain : IsChain lib chain)
    (hreads : ∀ b ∈ chain, b.ReadsWell lib) :
    (chain.flatMap (applied lib)).Pairwise Follows := by
  induction chain with
  | nil => exact List.Pairwise.nil
  | cons b rest ih =>
      have haccepted := hchain.accepted b (List.mem_cons_self ..)
      have hreadsHead := hreads b (List.mem_cons_self ..)
      rw [List.flatMap_cons, List.pairwise_append]
      refine ⟨pairwise_applied haccepted hreadsHead,
        ih hchain.tail fun other hother => hreads other (List.mem_cons_of_mem _ hother), ?_⟩
      intro earlier hearlier later hlater hsource
      obtain ⟨account, haccount, hle⟩ := exists_tree_of_applied haccepted hreadsHead hearlier
      rw [hsource] at haccount
      exact lt_of_le_of_lt hle (tree_lt_later hchain hreads hlater haccount)

end Chain

end Block

open Block in
/-- **No replays.**  Over a chain of blocks that read well the nonces of the
accounts never go back, the source of a transaction has the nonce of the
transaction when its fee was charged, and no hash is applied twice, provided that
no two transactions of the chain collide. -/
theorem no_replay {lib : Library} {chain : List Block} (hchain : IsChain lib chain)
    (hreads : ∀ b ∈ chain, b.ReadsWell lib)
    (hhash : ∀ env ∈ chain.flatMap (applied lib), ∀ env' ∈ chain.flatMap (applied lib),
      TransactionFrm.getContentHash lib env.transaction =
        TransactionFrm.getContentHash lib env'.transaction → env.transaction = env'.transaction) :
    (chain.flatMap (states lib)).Pairwise NoncesKeep ∧
      (∀ b ∈ chain, ∀ charged ∈ (b.check lib).context.charges, ∃ account,
        shown b.lcl charged.2 charged.1.transaction.sourceAddress = some account ∧
          account.nonce = charged.1.transaction.nonce) ∧
      ((chain.flatMap (applied lib)).map fun env =>
        TransactionFrm.getContentHash lib env.transaction).Nodup := by
  refine ⟨pairwise_states_chain hchain hreads, fun b hb => ?_, ?_⟩
  · exact (orderly (hchain.accepted b hb) (hreads b hb)).numbered.nonce_eq
  · rw [List.Nodup, List.pairwise_map]
    refine (pairwise_applied_chain hchain hreads).imp_of_mem ?_
    intro earlier later hearlier hlater hfollows heq
    have hsame := hhash earlier hearlier later hlater heq
    have hlt := hfollows (by rw [hsame])
    rw [hsame] at hlt
    exact lt_irrefl _ hlt

/-! ## Two chains -/

section Sample

/-- The payer pays 5 coins, then the caller calls the contract, which pays one coin
to `dest`. -/
def callBlock (dest : Address) : Block where
  lcl := sampleClosed
  rt := payingOut dest
  value := {
    txset := [payment payerAddress callerAddress 5 1, payment callerAddress calleeAddress 0 1]
    ledgerSeq := 2 }

/-- The payer pays 5 coins under the given nonce, after `callBlock dest`. -/
def nextBlock (dest : Address) (nonce : ℤ) : Block where
  lcl := { sampleClosed with seq := 2, tree := (callBlock dest).tree sampleLibrary }
  rt := payingOut dest
  value := { txset := [payment payerAddress callerAddress 5 nonce], ledgerSeq := 3 }

theorem NoncesKeep.le {before after : Address → Option AccountFrm} {n m : ℤ}
    (hkeep : NoncesKeep before after) (address : Address)
    (hn : (before address).map AccountFrm.nonce = some n)
    (hm : (after address).map AccountFrm.nonce = some m) : n ≤ m := by
  obtain ⟨account, haccount, rfl⟩ := Option.map_eq_some_iff.mp hn
  obtain ⟨newer, hnewer, hle⟩ := hkeep address account haccount
  rw [hnewer] at hm
  exact hle.trans_eq (Option.some.inj hm)

open Block

theorem isChain_nextBlock (dest : Address) (nonce : ℤ) :
    [callBlock dest, nextBlock dest nonce].IsChain fun b next =>
      next.lcl.tree = b.tree sampleLibrary := by
  rw [List.isChain_pair]
  simp only [nextBlock]

/-- The contract pays the payer: the frame of its payment reads the payer's account
as it was before the block and commits it, the nonce is 0 again, and the payment of
the first block is accepted once more in the second. -/
theorem nonce_goes_back :
    IsChain sampleLibrary [callBlock payerAddress, nextBlock payerAddress 1] ∧
      ¬ ([callBlock payerAddress, nextBlock payerAddress 1].flatMap
        (states sampleLibrary)).Pairwise NoncesKeep ∧
      ¬ (([callBlock payerAddress, nextBlock payerAddress 1].flatMap (applied sampleLibrary)).map
        fun env => TransactionFrm.getContentHash sampleLibrary env.transaction).Nodup := by
  refine ⟨⟨by decide +kernel, isChain_nextBlock ..⟩, fun hkeep => ?_, by decide +kernel⟩
  have hblock : ((callBlock payerAddress).states sampleLibrary).Pairwise NoncesKeep :=
    (List.pairwise_append.mp hkeep).1
  have hkept := List.pairwise_iff_getElem.mp hblock 1 8 (by decide +kernel) (by decide +kernel)
    (by decide)
  have hle : (1 : ℤ) ≤ 0 := hkept.le payerAddress (by decide +kernel) (by decide +kernel)
  exact absurd hle (by decide)

/-- The contract pays its caller, whose account is in the buffer already. -/
theorem no_replay_payer :
    IsChain sampleLibrary [callBlock callerAddress, nextBlock callerAddress 2] ∧
      (([callBlock callerAddress, nextBlock callerAddress 2].flatMap (applied sampleLibrary)).map
        fun env => TransactionFrm.getContentHash sampleLibrary env.transaction).Nodup := by
  have hchain : IsChain sampleLibrary [callBlock callerAddress, nextBlock callerAddress 2] :=
    ⟨by decide +kernel, isChain_nextBlock ..⟩
  refine ⟨hchain, (no_replay hchain ?_ (by decide +kernel)).2.2⟩
  rintro b (_ | ⟨_, _ | ⟨_, ⟨⟩⟩⟩)
  · exact ⟨readsNewest_iff.mpr (by decide +kernel), by decide +kernel⟩
  · exact ⟨readsNewest_iff.mpr (by decide +kernel), by decide +kernel⟩

end Sample

end CegChain
