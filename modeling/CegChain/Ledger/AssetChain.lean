import CegChain.Ledger.AssetConservation

/-!
# Assets over a chain of blocks

A block writes its accounts to the tree under the bytes of their addresses, and deletes
the entries of amount 0 there.  As the addresses are canonical, each account of the block
has one place in the tree, so the holdings in the tree shift by what the block issued
(`totalHeld_treeAfter`).  `assets_conserved` follows for any chain.
-/

namespace CegChain

open Layers AtomMap Totals LedgerContext LedgerFrm

/-- A tree of accounts: each under the bytes of its own, canonical, address. -/
structure AccountTree (tree : Table (Option Bytes) AccountFrm) : Prop where
  sound : ∀ key account, tree.lookup key = some account → account.Sound
  canonical : ∀ key account, tree.lookup key = some account → Canonical account.address
  key_eq : ∀ key account, tree.lookup key = some account → key = decodeAddress account.address

/-- What all accounts of a tree hold of an asset. -/
def totalHeld (key : AssetKey) (tree : Table (Option Bytes) AccountFrm) : ℤ :=
  total (fun _ account => account.holding key) tree

variable {lib : Library} {lcl : Closed} {c : LedgerContext}

/-! ## Before a block -/

theorem AccountTree.proper (htree : AccountTree lcl.tree) : Proper lcl lcl.accountFromDB := by
  refine ⟨fun address account hfound => ⟨htree.sound _ _ hfound, fun hcanonical => ?_, ?_⟩,
    fun _ hsome => hsome⟩
  · exact (htree.canonical _ _ hfound).eq_of_decodeAddress hcanonical
      (htree.key_eq _ _ hfound).symm
  · rw [hfound]
    rfl

theorem AccountTree.settled (htree : AccountTree lcl.tree) : Settled lcl {} := by
  refine ⟨⟨⟨le_rfl, le_rfl⟩, ?_, htree.proper⟩, htree.proper, fun _ _ => rfl⟩
  intro table htable address haddress
  have hempty : table = ∅ := by
    simpa [tables, EnvStack.enter, EnvStack.root] using htable
  rw [hempty] at haddress
  exact absurd haddress (AList.notMem_empty _)

/-! ## After a block -/

/-- The tree has the account that the block shows, its entries of amount 0 deleted. -/
theorem Settled.lookup_commit (hsettled : Settled lcl c) {address : Address}
    (hmem : address ∈ c.data) :
    (LedgerFrm.commit lcl c).lookup (decodeAddress address) =
      (shown lcl c.data address).map AccountFrm.updateHash :=
  hsettled.order.spelled.lookup_commit hsettled.proper.kept hmem

theorem AccountTree.commit (htree : AccountTree lcl.tree) (hsettled : Settled lcl c) :
    AccountTree (LedgerFrm.commit lcl c) := by
  have hentry : ∀ key account, (LedgerFrm.commit lcl c).lookup key = some account →
      account.Sound ∧ Canonical account.address ∧ key = decodeAddress account.address := by
    intro key account hfound
    by_cases hmem : ∃ address ∈ c.data, decodeAddress address = key
    · obtain ⟨address, hmem, rfl⟩ := hmem
      rw [hsettled.lookup_commit hmem] at hfound
      obtain ⟨old, hshown, rfl⟩ := Option.map_eq_some_iff.mp hfound
      have haccounted := hsettled.proper.accounted address old hshown
      have hown : old.updateHash.address = address :=
        haccounted.own (hsettled.order.spelled.canonical_data hmem)
      rw [hown]
      exact ⟨haccounted.sound.updateHash, hsettled.order.spelled.canonical_data hmem, rfl⟩
    · push Not at hmem
      rw [LedgerFrm.lookup_commit_of_forall_ne hmem] at hfound
      exact ⟨htree.sound key account hfound, htree.canonical key account hfound,
        htree.key_eq key account hfound⟩
  exact ⟨fun key account hfound => (hentry key account hfound).1,
    fun key account hfound => (hentry key account hfound).2.1,
    fun key account hfound => (hentry key account hfound).2.2⟩

/-- **Writing a block to the tree.**  The total changes by as much as the holdings of the
block did. -/
theorem totalHeld_commit (hsettled : Settled lcl c) {key : AssetKey} {issued : ℤ}
    (hshift : Shifts (held key lcl.accountFromDB) (held key (shown lcl c.data)) issued) :
    totalHeld key (LedgerFrm.commit lcl c) = totalHeld key lcl.tree + issued :=
  hsettled.order.spelled.total_commit hsettled.proper.kept
    (fun address account hshown =>
      AccountFrm.holding_updateHash (hsettled.proper.accounted address account hshown).sound key)
    hshift

/-! ## A block -/

namespace Executed

variable {b : Executed}

/-- A block of transactions on assets, with canonical addresses for its validators. -/
structure OnAssets (lib : Library) (b : Executed) : Prop where
  txset : ∀ env ∈ b.value.txset, env.OnAssets lib b.lcl
  validators : ∀ validators ∈ b.lcl.validatorsOfLast, ∀ address ∈ validators, Canonical address

/-- What the transactions of the block that succeeded have issued of an asset. -/
def issued (lib : Library) (b : Executed) (key : AssetKey) : ℤ :=
  ((b.turns lib).map (Turn.issued · key)).sum

theorem turned (honly : b.OnAssets lib) (htree : AccountTree b.lcl.tree) :
    Turned b.lcl {} (lastState {} (b.turns lib)) (b.issued lib) :=
  (turned_turns htree.settled honly.txset b.mode b.rt _ 0).1

theorem unmoved_context (honly : b.OnAssets lib) (htree : AccountTree b.lcl.tree)
    (haccepted : (b.applied lib).accepted = true) :
    Unmoved b.lcl (lastState {} (b.turns lib)) (b.applied lib).context := by
  rw [context_of_accepted haccepted]
  exact unmoved_allocateReward (turned honly htree).settled honly.validators _

theorem accountTree_treeAfter (honly : b.OnAssets lib) (htree : AccountTree b.lcl.tree)
    (haccepted : (b.applied lib).accepted = true) : AccountTree (b.treeAfter lib) :=
  htree.commit (unmoved_context honly htree haccepted).settled

/-- **One block.** -/
theorem totalHeld_treeAfter (honly : b.OnAssets lib) (htree : AccountTree b.lcl.tree)
    (haccepted : (b.applied lib).accepted = true) (key : AssetKey) :
    totalHeld key (b.treeAfter lib) = totalHeld key b.lcl.tree + b.issued lib key := by
  have hrewards := unmoved_context honly htree haccepted
  refine totalHeld_commit hrewards.settled ?_
  exact ((turned honly htree).shifts key).congr (fun _ => rfl) fun address =>
    (hrewards.settled.held key address).trans (hrewards.held key address)

/-! ## Chains -/

/-- A chain of accepted blocks, each on the tree that the one before it has left. -/
def IsChain (lib : Library) : Table (Option Bytes) AccountFrm → List Executed → Prop
  | _, [] => True
  | tree, b :: chain =>
      b.lcl.tree = tree ∧ (b.applied lib).accepted = true ∧ IsChain lib (b.treeAfter lib) chain

/-- The tree at the end of a chain. -/
def lastTree (lib : Library) : Table (Option Bytes) AccountFrm → List Executed →
    Table (Option Bytes) AccountFrm
  | tree, [] => tree
  | _, b :: chain => lastTree lib (b.treeAfter lib) chain

end Executed

/-- What the root of the block reads as the holding of an address. -/
def LedgerContext.holding (lcl : Closed) (key : AssetKey) (address : Address)
    (c : LedgerContext) : ℤ :=
  (c.getEntry lcl 0 address).1.elim 0 (AccountFrm.holding key)

theorem InOrder.holding_eq (horder : InOrder lcl c) (key : AssetKey) (address : Address) :
    c.holding lcl key address = held key (c.reads lcl) address := by
  rw [LedgerContext.holding, getEntry_zero_fst horder.wide]
  rfl

open Executed

/-- **Assets are conserved.**  Over any chain of blocks with operations on assets, however
each block is executed: what all accounts hold of an asset is what they held at first and
what was issued; no account of the tree holds a negative amount; and of the transactions
that come up, each one that does not succeed leaves every holding, and each one shifts the
holdings by what it issued. -/
theorem assets_conserved {tree : Table (Option Bytes) AccountFrm} {chain : List Executed}
    (htree : AccountTree tree) (hchain : IsChain lib tree chain)
    (honly : ∀ b ∈ chain, b.OnAssets lib) :
    (∀ key, totalHeld key (lastTree lib tree chain) =
        totalHeld key tree + (chain.map (·.issued lib key)).sum) ∧
      ∀ b ∈ chain, (∀ bytes account, (b.treeAfter lib).lookup bytes = some account →
          ∀ key, 0 ≤ account.holding key) ∧
        ∀ t ∈ b.turns lib, ∀ key,
          (∀ address, 0 ≤ t.after.holding b.lcl key address) ∧
          (t.status ≠ some .succeeded → ∀ address,
            t.after.holding b.lcl key address = t.before.holding b.lcl key address) ∧
          Shifts (fun address => t.before.holding b.lcl key address)
            (fun address => t.after.holding b.lcl key address) (t.issued key) := by
  induction chain generalizing tree with
  | nil =>
      exact ⟨fun key => (add_zero _).symm, fun b hmem => absurd hmem List.not_mem_nil⟩
  | cons b chain ih =>
      obtain ⟨rfl, haccepted, hchain⟩ := hchain
      have hb := honly b List.mem_cons_self
      have hafter := accountTree_treeAfter hb htree haccepted
      obtain ⟨htotal, hrest⟩ := ih hafter hchain
        fun other hmem => honly other (List.mem_cons_of_mem _ hmem)
      refine ⟨fun key => ?_, fun other hmem => ?_⟩
      · rw [lastTree, htotal, totalHeld_treeAfter hb htree haccepted, List.map_cons,
          List.sum_cons, add_assoc]
      · rcases List.mem_cons.mp hmem with rfl | hmem
        · refine ⟨fun bytes account hfound key =>
            (hafter.sound bytes account hfound).holding_nonneg key, fun t hturn key => ?_⟩
          obtain ⟨hbefore, hends⟩ :=
            (turned_turns htree.settled hb.txset other.mode other.rt _ 0).2 t hturn
          have hturned := hends.turned
          have hheld := hturned.settled.order.holding_eq key
          have hheld' := hbefore.order.holding_eq key
          refine ⟨fun address => ?_, fun hstatus address => ?_, ?_⟩
          · rw [hheld]
            exact hturned.settled.order.proper.held_nonneg key address
          · rw [Ends, if_neg hstatus] at hends
            rw [hheld, hheld']
            exact hends.held key address
          · exact (hturned.shifts key).congr hheld' hheld
        · exact hrest other hmem

/-! ### Ten coins of an asset -/

/-- A transaction of the payer with one operation. -/
def assetTransaction (nonce : ℤ) (body : OperationBody) : TransactionEnv where
  transaction := {
    sourceAddress := payerAddress
    nonce := nonce
    operations := [{ body := body }] }
  signatures := [⟨payerAddress, payerAddress⟩]

/-- The asset "gold" of the payer. -/
def gold : AssetKey where
  issuer := payerAddress
  code := [103, 111, 108, 100]

/-- A payment of gold to the caller. -/
def goldPayment (amount : Int64) : OperationBody :=
  .payAsset { destAddress := callerAddress, asset := some ⟨gold, amount⟩ }

/-- Nothing happens but the transactions. -/
def quietRuntime : Runtime where
  program _ _ _ := .finish .returned
  isExpire _ _ := false
  caughtExpiry _ _ := false
  enabled _ := true
  timedOut _ := false

/-- The payer issues ten and pays four; the block is checked. -/
def issuingBlock : Executed where
  lcl := sampleClosed
  rt := quietRuntime
  value := {
    txset := [assetTransaction 1 (.issueAsset { code := gold.code, amount := 10 }),
      assetTransaction 2 (goldPayment 4)]
    ledgerSeq := 2 }
  mode := .check

/-- The payer pays the rest, and then one more, which fails; the block is followed. -/
def payingBlock : Executed where
  lcl := { sampleClosed with tree := issuingBlock.treeAfter sampleLibrary, seq := 2 }
  rt := quietRuntime
  value := {
    txset := [assetTransaction 3 (goldPayment 6), assetTransaction 4 (goldPayment 1)]
    ledgerSeq := 3 }
  mode := .follow

theorem accountTree_of_entries {tree : Table (Option Bytes) AccountFrm}
    (hentries : ∀ entry ∈ tree.entries,
      entry.2.Sound ∧ Canonical entry.2.address ∧ entry.1 = decodeAddress entry.2.address) :
    AccountTree tree := by
  have hall := fun key account (hfound : tree.lookup key = some account) =>
    hentries ⟨key, account⟩ (AList.mem_lookup_iff.mp hfound)
  exact ⟨fun key account hfound => (hall key account hfound).1,
    fun key account hfound => (hall key account hfound).2.1,
    fun key account hfound => (hall key account hfound).2.2⟩

instance (account : AccountFrm) : Decidable account.Sound :=
  decidable_of_iff ((account.assets.map Prod.fst).Nodup ∧ ∀ entry ∈ account.assets,
    0 ≤ entry.2.toInt) ⟨fun h => ⟨h.1, h.2⟩, fun h => ⟨h.once, h.nonneg⟩⟩

instance (lib : Library) (lcl : Closed) (tran : Transaction) (ope : Operation) :
    Decidable (ope.OnAssets lib lcl tran) :=
  decidable_of_iff (Canonical (tran.operationSource ope) ∧
      OperationFrm.checkValid lib lcl ope (tran.operationSource ope) 0 = .success ∧
      ope.body.OnAssets lcl)
    ⟨fun h => ⟨h.1, h.2.1, h.2.2⟩, fun h => ⟨h.canonical, h.valid, h.body⟩⟩

instance (lib : Library) (lcl : Closed) (env : TransactionEnv) : Decidable (env.OnAssets lib lcl) :=
  decidable_of_iff (Canonical env.transaction.sourceAddress ∧
      ∀ ope ∈ env.transaction.operations, ope.OnAssets lib lcl env.transaction)
    ⟨fun h => ⟨h.1, h.2⟩, fun h => ⟨h.source, h.operations⟩⟩

instance (lib : Library) (b : Executed) : Decidable (b.OnAssets lib) :=
  decidable_of_iff ((∀ env ∈ b.value.txset, env.OnAssets lib b.lcl) ∧
      ∀ validators ∈ b.lcl.validatorsOfLast, ∀ address ∈ validators, Canonical address)
    ⟨fun h => ⟨h.1, h.2⟩, fun h => ⟨h.txset, h.validators⟩⟩

/-- After both blocks there are ten, although the last payment failed. -/
theorem ten_gold :
    totalHeld gold (lastTree sampleLibrary sampleClosed.tree [issuingBlock, payingBlock]) = 10 ∧
      (payingBlock.turns sampleLibrary).map Turn.status = [some .succeeded, some .failed] := by
  have htree : AccountTree sampleClosed.tree := accountTree_of_entries (by decide +kernel)
  have hlinked : payingBlock.lcl.tree = issuingBlock.treeAfter sampleLibrary := by
    simp only [payingBlock]
  have hchain : IsChain sampleLibrary sampleClosed.tree [issuingBlock, payingBlock] :=
    ⟨rfl, by decide +kernel, hlinked, by decide +kernel, trivial⟩
  have honly : ∀ b ∈ [issuingBlock, payingBlock], b.OnAssets sampleLibrary := by
    decide +kernel
  refine ⟨((assets_conserved htree hchain honly).1 gold).trans ?_, ?_⟩
  · decide +kernel
  · decide +kernel

end CegChain
