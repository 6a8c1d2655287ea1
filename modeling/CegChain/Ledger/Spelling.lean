import CegChain.Ledger.Flush
import CegChain.Ledger.NestedCommit
import CegChain.Ledger.Rollback
import CegChain.Ledger.SameRoot
import CegChain.Lib.Shifts

/-!
# Addresses with one spelling

A block has its accounts under strings, the tree has them under bytes, and a second
spelling of an address would be a second account until the block is written.  So addresses
are `Canonical` in what follows, the encoding of the bytes they decode to.

Transactions without contracts work on the root of a block alone.  Each of their steps
reads, writes through a pointer, adds an account or commits, and each of these keeps the
root `Spelled` when the addresses it is given are canonical.  Each account of such a block
has its own place in the tree, so that whatever is added up over all accounts shifts in the
tree by as much as it did in the block (`total_commit`).
-/

namespace CegChain

open Layers AtomMap Totals LedgerContext LedgerFrm

/-- The address is the encoding of what it decodes to. -/
def Canonical (address : Address) : Prop :=
  (decodeAddress address).map encodeAddress = some address

instance (address : Address) : Decidable (Canonical address) :=
  inferInstanceAs (Decidable ((decodeAddress address).map encodeAddress = some address))

/-- Bytes have one canonical spelling. -/
theorem Canonical.eq_of_decodeAddress {a b : Address} (ha : Canonical a) (hb : Canonical b)
    (hdecode : decodeAddress a = decodeAddress b) : a = b := by
  have hencode := congrArg (Option.map encodeAddress) hdecode
  rw [show _ = some a from ha, show _ = some b from hb] at hencode
  exact Option.some.inj hencode

/-- The account that the root of the block reads for an address. -/
abbrev LedgerContext.reads (lcl : Closed) (c : LedgerContext) : Address → Option AccountFrm :=
  view Record.value? lcl.accountFromDB (c.tables 0)

/-- The root of a block whose addresses are canonical. -/
structure Spelled (c : LedgerContext) : Prop where
  rooted : Rooted c
  canonical : ∀ table ∈ c.tables 0, ∀ address ∈ table, Canonical address

variable {lcl : Closed} {c c' : LedgerContext} {address : Address} {account : AccountFrm}

namespace Spelled

theorem wide (hspelled : Spelled c) : 2 ≤ c.environment.accounts.length :=
  hspelled.rooted.accounts

/-- Only the environment matters. -/
theorem of_environment (hspelled : Spelled c) (henvironment : c'.environment = c.environment) :
    Spelled c' := by
  refine ⟨⟨?_, ?_⟩, ?_⟩
  · exact henvironment ▸ hspelled.rooted.accounts
  · exact henvironment ▸ hspelled.rooted.settings
  · rw [tables, henvironment]
    exact hspelled.canonical

/-- The data of the block has canonical addresses only. -/
theorem canonical_data (hspelled : Spelled c) (hmem : address ∈ c.data) : Canonical address := by
  obtain ⟨buff, htables⟩ := exists_buffer hspelled.wide
  refine hspelled.canonical c.data ?_ address hmem
  rw [htables]
  exact List.mem_cons_of_mem _ List.mem_cons_self

theorem oneSpelling (hspelled : Spelled c) : OneSpelling c.data :=
  fun _ ha _ hb hdecode =>
    (hspelled.canonical_data ha).eq_of_decodeAddress (hspelled.canonical_data hb) hdecode

/-! ## The steps -/

/-- Another buffer, whose addresses are canonical as well. -/
theorem of_buffer (hspelled : Spelled c) (hrooted : Rooted c') {buff : Map Address AccountFrm}
    (htables : c'.tables 0 = [buff, c.data]) (hbuff : ∀ address ∈ buff, Canonical address) :
    Spelled c' := by
  refine ⟨hrooted, ?_⟩
  rw [htables]
  intro table htable other hother
  rcases List.mem_cons.mp htable with rfl | htable
  · exact hbuff other hother
  · obtain rfl := List.mem_singleton.mp htable
    exact hspelled.canonical_data hother

theorem getEntry (hspelled : Spelled c) (haddress : Canonical address) (lcl : Closed) :
    Spelled (c.getEntry lcl 0 address).2 := by
  obtain ⟨buff, htables⟩ := exists_buffer hspelled.wide
  refine hspelled.of_buffer
    ⟨two_le_getEntry hspelled.wide .., wide_enter hspelled.rooted.settings 0⟩
    (tables_zero_getEntry htables address) fun other hother => ?_
  -- the only new key of the buffer is the address itself
  by_cases heq : other = address
  · exact heq ▸ haddress
  · refine hspelled.canonical buff (by rw [htables]; exact List.mem_cons_self) other ?_
    rwa [← AList.lookup_isSome, ← getValue_snd_lookup_ne _ _ _ heq, AList.lookup_isSome]

theorem modifyEntry (hspelled : Spelled c) (hderef : c.deref 0 address = some account)
    (f : AccountFrm → AccountFrm) : Spelled (c.modifyEntry 0 address f) := by
  obtain ⟨buff, htables⟩ := exists_buffer hspelled.wide
  have hafter : (c.modifyEntry 0 address f).tables 0 = [AtomMap.modify buff address f, c.data] := by
    rw [tables_modifyEntry, htables]
    rfl
  refine hspelled.of_buffer
    ⟨two_le_modifyEntry hspelled.wide .., wide_enter hspelled.rooted.settings 0⟩ hafter
    fun other hother => ?_
  refine hspelled.canonical buff (by rw [htables]; exact List.mem_cons_self) other ?_
  by_cases heq : other = address
  · -- a write needs a record to write to
    rw [deref_eq htables] at hderef
    obtain ⟨r, hlookup, -⟩ := Option.bind_eq_some_iff.mp hderef
    rw [heq, ← AList.lookup_isSome, hlookup]
    rfl
  · rwa [← AList.lookup_isSome, ← lookup_modify_ne heq buff f, AList.lookup_isSome]

theorem addEntry (hspelled : Spelled c) (haddress : Canonical address) (frm : AccountFrm) :
    Spelled (c.addEntry 0 address frm) := by
  obtain ⟨buff, htables⟩ := exists_buffer hspelled.wide
  have hafter : (c.addEntry 0 address frm).tables 0 = [buff.insert address (.mod frm), c.data] := by
    rw [tables_addEntry, htables]
    rfl
  refine hspelled.of_buffer
    ⟨two_le_addEntry hspelled.wide .., wide_enter hspelled.rooted.settings 0⟩ hafter
    fun other hother => ?_
  rcases (AList.mem_insert _).mp hother with rfl | hother
  · exact haddress
  · exact hspelled.canonical buff (by rw [htables]; exact List.mem_cons_self) other hother

/-- A commit makes known what was read. -/
theorem shown_commit (hspelled : Spelled c) (lcl : Closed) :
    shown lcl (c.commit 0).data = c.reads lcl := by
  obtain ⟨buff, htables⟩ := exists_buffer hspelled.wide
  funext other
  rw [shown, data_commit htables, view_union_cons, reads, htables]

theorem tables_commit (hspelled : Spelled c) :
    (c.commit 0).tables 0 = [∅, (c.commit 0).data] := by
  obtain ⟨buff, htables⟩ := exists_buffer hspelled.wide
  have haccounts : (c.commit 0).environment.accounts = [∅, buff ∪ c.data] := by
    show commitOn 0 (c.tables 0) = _
    rw [htables]
    rfl
  rw [data_commit htables, tables, EnvStack.enter, haccounts]
  rfl

theorem reads_commit (hspelled : Spelled c) (lcl : Closed) :
    (c.commit 0).reads lcl = c.reads lcl := by
  rw [← hspelled.shown_commit]
  funext other
  rw [reads, hspelled.tables_commit, view_empty_cons]

theorem commit (hspelled : Spelled c) : Spelled (c.commit 0) := by
  obtain ⟨buff, htables⟩ := exists_buffer hspelled.wide
  have haccounts : (c.commit 0).environment.accounts = [∅, buff ∪ c.data] := by
    show commitOn 0 (c.tables 0) = _
    rw [htables]
    rfl
  refine ⟨⟨by rw [haccounts]; exact le_rfl, ?_⟩, ?_⟩
  · show 2 ≤ (commitOn 0 _).length
    rw [commitOn, length_onFrame]
    exact wide_enter hspelled.rooted.settings 0
  · rw [hspelled.tables_commit, data_commit htables]
    intro table htable other hother
    rcases List.mem_cons.mp htable with rfl | htable
    · exact absurd hother (AList.notMem_empty _)
    · obtain rfl := List.mem_singleton.mp htable
      have hmem : ∀ table ∈ c.tables 0, other ∈ table → Canonical other :=
        fun table htable hother => hspelled.canonical table htable other hother
      rw [htables] at hmem
      rcases AList.mem_union.mp hother with hother | hother
      · exact hmem _ List.mem_cons_self hother
      · exact hmem _ (List.mem_cons_of_mem _ List.mem_cons_self) hother

/-! ## Writing the block to the tree -/

/-- The tree has the account that the block shows, its entries of amount 0 deleted, when no
account has been lost. -/
theorem lookup_commit (hspelled : Spelled c)
    (hkept : ∀ address, (lcl.accountFromDB address).isSome → (shown lcl c.data address).isSome)
    (hmem : address ∈ c.data) :
    (LedgerFrm.commit lcl c).lookup (decodeAddress address) =
      (shown lcl c.data address).map AccountFrm.updateHash := by
  obtain ⟨r, hlookup⟩ := Option.isSome_iff_exists.mp (AList.lookup_isSome.mpr hmem)
  have hshown : shown lcl c.data address = r.value? := view_cons_of_lookup hlookup []
  rw [LedgerFrm.lookup_commit hspelled.oneSpelling hlookup, hshown]
  cases hvalue : r.value? with
  | some account => rfl
  | none =>
      -- an account that is in the tree is shown
      have hkept := hkept address
      rw [hshown, hvalue] at hkept
      cases hdb : lcl.accountFromDB address with
      | none => rfl
      | some account =>
          rw [hdb] at hkept
          exact absurd (hkept rfl) (by simp)

/-- **Writing a block to the tree.**  What is added up over the accounts changes by as much
as it did in the block. -/
theorem total_commit (hspelled : Spelled c)
    (hkept : ∀ address, (lcl.accountFromDB address).isSome → (shown lcl c.data address).isSome)
    {f : AccountFrm → ℤ}
    (hupdate : ∀ address account, shown lcl c.data address = some account →
      f account.updateHash = f account) {n : ℤ}
    (hshift : Shifts (fun address => (lcl.accountFromDB address).elim 0 f)
      (fun address => (shown lcl c.data address).elim 0 f) n) :
    total (fun _ => f) (LedgerFrm.commit lcl c) = total (fun _ => f) lcl.tree + n := by
  refine total_of_shifts (hshift.map (e := decodeAddress) (s := {address | address ∈ c.data})
    ?_ ?_ ?_ ?_)
  · -- what is not in the data is as before
    intro address hne
    by_contra hmem
    refine hne ?_
    rw [shown, view_cons_of_not_mem (AList.lookup_eq_none.mpr hmem)]
    rfl
  · exact fun a ha b hb hdecode => hspelled.oneSpelling a ha b hb hdecode
  · intro address hmem
    have hafter : weight (fun _ => f) (LedgerFrm.commit lcl c) (decodeAddress address) =
        (shown lcl c.data address).elim 0 f := by
      rw [weight, hspelled.lookup_commit hkept hmem]
      cases hshown : shown lcl c.data address with
      | none => rfl
      | some account => exact hupdate address account hshown
    rw [hafter]
    rfl
  · intro bytes hbytes
    have hne : ∀ other ∈ c.data, decodeAddress other ≠ bytes :=
      fun other hmem heq => hbytes ⟨other, hmem, heq⟩
    rw [weight, LedgerFrm.lookup_commit_of_forall_ne hne]
    rfl

end Spelled

end CegChain
