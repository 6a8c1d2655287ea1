import CegChain.Ledger.Charge

/-!
# Writing a block to the tree

`LedgerFrm::Commit` writes the accounts of a block to the tree under the bytes of
their addresses.  A block keeps its accounts under the address strings, so two
spellings of one address are two accounts of the block and one of them is lost
here, whichever the `unordered_map` yields first.  `OneSpelling` says that this
does not happen.
-/

namespace CegChain

open Layers AtomMap

/-- No two addresses of the block have the same bytes. -/
def OneSpelling (data : Map Address AccountFrm) : Prop :=
  ∀ a ∈ data, ∀ b ∈ data, decodeAddress a = decodeAddress b → a = b

instance (data : Map Address AccountFrm) : Decidable (OneSpelling data) :=
  inferInstanceAs (Decidable
    (∀ a ∈ data.keys, ∀ b ∈ data.keys, decodeAddress a = decodeAddress b → a = b))

namespace LedgerFrm

variable {lcl : Closed} {c : LedgerContext} {address : Address}

theorem commit_eq_flush (lcl : Closed) (c : LedgerContext) :
    commit lcl c = flush decodeAddress (fun r => r.value?.map AccountFrm.updateHash)
      c.data.entries lcl.tree := by
  unfold commit flush
  congr 1
  funext tree entry
  dsimp only
  cases entry.2.value? <;> rfl

theorem mem_of_mem_entries {data : Map Address AccountFrm}
    {entry : Sigma fun _ : Address => Record AccountFrm} (hmem : entry ∈ data.entries) :
    entry.1 ∈ data :=
  AList.mem_keys.mpr (List.mem_keys_of_mem hmem)

/-- The tree has the accounts of the block. -/
theorem lookup_commit (hspelling : OneSpelling c.data) {r : Record AccountFrm}
    (hlookup : c.data.lookup address = some r) :
    (commit lcl c).lookup (decodeAddress address) =
      (r.value?.map AccountFrm.updateHash).or (lcl.accountFromDB address) := by
  have hmem : ⟨address, r⟩ ∈ c.data.entries := AList.mem_lookup_iff.mp hlookup
  rw [commit_eq_flush]
  refine lookup_flush _ c.data.nodupKeys hmem fun entry hentry heq => ?_
  exact hspelling entry.1 (mem_of_mem_entries hentry) address (mem_of_mem_entries hmem) heq

/-- The tree keeps the other accounts. -/
theorem lookup_commit_of_forall_ne {key : Option Bytes}
    (hne : ∀ other ∈ c.data, decodeAddress other ≠ key) :
    (commit lcl c).lookup key = lcl.tree.lookup key := by
  rw [commit_eq_flush]
  exact lookup_flush_of_forall_ne _ fun entry hmem => hne entry.1 (mem_of_mem_entries hmem)

end LedgerFrm

end CegChain
