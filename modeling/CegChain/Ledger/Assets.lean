import CegChain.Ledger.Account
import CegChain.Lib.Totals

/-!
# The assets of an account

`GetAsset`, `SetAsset` and `UpdateHash` of `ledger/account.cpp`.  An `AccountFrm` object
keeps the assets it has read or set in `assets_`, over the asset trie of the account:
`CachedAssets`.  `AccountFrm.assets` is what the two amount to (`CachedAssets.Shows`),
over any number of blocks, each of which ends with the cache written to the trie and
starts with an empty one (`CachedAssets.shows_blocks`).

What an account holds of an asset is a number, 0 where it has no entry
(`AccountFrm.holding`), so deleting the entries of amount 0 takes nothing away.
-/

namespace CegChain

open Layers Totals

/-! ## Entries of a list -/

section Entries

variable {K V : Type*} [DecidableEq K]

theorem lookup_cons_ne {key other : K} (hne : other ≠ key) (value : V) (entries : List (K × V)) :
    ((key, value) :: entries).lookup other = entries.lookup other := by
  rw [List.lookup_cons, beq_eq_false_iff_ne.mpr hne]

theorem lookup_filter_ne {key other : K} (hne : other ≠ key) (entries : List (K × V)) :
    (entries.filter (·.1 ≠ key)).lookup other = entries.lookup other := by
  induction entries with
  | nil => rfl
  | cons entry entries ih =>
      rw [List.filter_cons]
      split
      · rw [List.lookup_cons, List.lookup_cons, ih]
      · rename_i hkey
        obtain rfl : entry.1 = key := by simpa using hkey
        rw [ih, lookup_cons_ne hne]

theorem mem_of_lookup {key : K} {value : V} {entries : List (K × V)}
    (hlookup : entries.lookup key = some value) : (key, value) ∈ entries := by
  obtain ⟨before, after, rfl, -⟩ := List.lookup_eq_some_iff.mp hlookup
  simp

/-- In a list with each key once, filtering by value filters what is found. -/
theorem lookup_filter_snd {p : V → Bool} {entries : List (K × V)}
    (honce : (entries.map Prod.fst).Nodup) (key : K) :
    (entries.filter fun entry => p entry.2).lookup key = (entries.lookup key).filter p := by
  induction entries with
  | nil => rfl
  | cons entry entries ih =>
      obtain ⟨other, value⟩ := entry
      rw [List.map_cons, List.nodup_cons] at honce
      obtain ⟨hfresh, honce⟩ := honce
      rw [List.filter_cons]
      by_cases hkey : key = other
      · subst hkey
        rw [List.lookup_cons_self, Option.filter_some]
        split
        · rw [List.lookup_cons_self]
        · refine List.lookup_eq_none_iff.mpr fun entry hentry => ?_
          rw [bne_iff_ne]
          rintro rfl
          exact hfresh (List.mem_map.mpr ⟨entry, List.mem_of_mem_filter hentry, rfl⟩)
      · rw [lookup_cons_ne hkey, ← ih honce]
        split
        · rw [lookup_cons_ne hkey]
        · rfl

end Entries

namespace AccountFrm

/-! ## What an account holds -/

/-- What the account holds of an asset. -/
def holding (key : AssetKey) (account : AccountFrm) : ℤ :=
  (account.getAsset key).elim 0 Int64.toInt

/-- Each asset has one entry, and none has a negative amount. -/
structure Sound (account : AccountFrm) : Prop where
  once : (account.assets.map Prod.fst).Nodup
  nonneg : ∀ entry ∈ account.assets, 0 ≤ entry.2.toInt

variable {account : AccountFrm}

theorem getAsset_setAsset (key other : AssetKey) (amount : Int64) (account : AccountFrm) :
    (account.setAsset key amount).getAsset other =
      if other = key then some amount else account.getAsset other := by
  show List.lookup other ((key, amount) :: account.assets.filter (·.1 ≠ key)) = _
  by_cases hkey : other = key
  · rw [if_pos hkey, hkey, List.lookup_cons_self]
  · rw [if_neg hkey, lookup_cons_ne hkey]
    exact lookup_filter_ne hkey account.assets

theorem getAsset_updateHash (honce : (account.assets.map Prod.fst).Nodup) (key : AssetKey) :
    account.updateHash.getAsset key = (account.getAsset key).filter (· ≠ 0) :=
  lookup_filter_snd (p := fun amount : Int64 => decide (amount ≠ 0)) honce key

theorem once_setAsset (honce : (account.assets.map Prod.fst).Nodup) (key : AssetKey)
    (amount : Int64) : ((account.setAsset key amount).assets.map Prod.fst).Nodup := by
  show (((key, amount) :: account.assets.filter (·.1 ≠ key)).map Prod.fst).Nodup
  rw [List.map_cons, List.nodup_cons]
  refine ⟨fun hmem => ?_, honce.sublist (List.filter_sublist.map _)⟩
  obtain ⟨entry, hentry, heq⟩ := List.mem_map.mp hmem
  simpa [heq] using List.of_mem_filter hentry

theorem once_updateHash (honce : (account.assets.map Prod.fst).Nodup) :
    (account.updateHash.assets.map Prod.fst).Nodup :=
  honce.sublist (List.filter_sublist.map _)

theorem holding_of_getAsset {key : AssetKey} {amount : Int64}
    (hget : account.getAsset key = some amount) : account.holding key = amount.toInt := by
  rw [holding, hget]
  rfl

theorem holding_of_getAsset_none {key : AssetKey} (hget : account.getAsset key = none) :
    account.holding key = 0 := by
  rw [holding, hget]
  rfl

theorem holding_setAsset (key other : AssetKey) (amount : Int64) (account : AccountFrm) :
    (account.setAsset key amount).holding other =
      if other = key then amount.toInt else account.holding other := by
  rw [holding, getAsset_setAsset]
  split <;> rfl

/-- Deleting the entries of amount 0 takes nothing away. -/
theorem holding_updateHash (hsound : account.Sound) (key : AssetKey) :
    account.updateHash.holding key = account.holding key := by
  rw [holding, holding, getAsset_updateHash hsound.once]
  cases account.getAsset key with
  | none => rfl
  | some amount =>
      rw [Option.filter_some]
      split
      · rfl
      · rename_i hzero
        obtain rfl : amount = 0 := by simpa using hzero
        rfl

namespace Sound

theorem holding_nonneg (hsound : account.Sound) (key : AssetKey) : 0 ≤ account.holding key := by
  unfold holding
  cases hget : account.getAsset key with
  | none => exact le_rfl
  | some amount => exact hsound.nonneg _ (mem_of_lookup hget)

theorem setAsset (hsound : account.Sound) (key : AssetKey) {amount : Int64}
    (hamount : 0 ≤ amount.toInt) : (account.setAsset key amount).Sound where
  once := once_setAsset hsound.once key amount
  nonneg entry hmem := by
    rcases List.mem_cons.mp hmem with rfl | hmem
    · exact hamount
    · exact hsound.nonneg entry (List.mem_of_mem_filter hmem)

theorem updateHash (hsound : account.Sound) : account.updateHash.Sound where
  once := once_updateHash hsound.once
  nonneg entry hmem := hsound.nonneg entry (List.mem_of_mem_filter hmem)

/-- Only the assets matter. -/
theorem of_assets (hsound : account.Sound) {after : AccountFrm}
    (hassets : after.assets = account.assets) : after.Sound :=
  ⟨by rw [hassets]; exact hsound.once, by rw [hassets]; exact hsound.nonneg⟩

end Sound

end AccountFrm

/-! ## The cache over the trie -/

/-- The values of `utils::actType` that `assets_` has. -/
inductive ActType where
  | add
  | mod
  | del
  deriving DecidableEq, Repr

/-- `protocol::AssetStore`. -/
structure AssetStore where
  key : AssetKey
  amount : Int64
  deriving DecidableEq

/-- `AccountFrm::DataCache`. -/
structure DataCache (T : Type*) where
  action : ActType
  data : T

/-- What is left in the trie where this record is written. -/
def DataCache.written (record : DataCache AssetStore) : Option AssetStore :=
  if record.action = .del ∨ record.data.amount = 0 then none else some record.data

/-- The assets of an `AccountFrm` object.  The records are under the keys of their assets,
and no amount in the trie is 0. -/
structure CachedAssets where
  /-- `assets_`. -/
  assets : Table AssetKey (DataCache AssetStore) := ∅
  /-- The asset trie of the account. -/
  trie : Table AssetKey AssetStore := ∅
  assets_key : ∀ key record, assets.lookup key = some record → record.data.key = key :=
    by intro key record h; cases h
  trie_key : ∀ key asset, trie.lookup key = some asset → asset.key = key :=
    by intro key asset h; cases h
  trie_amount : ∀ key asset, trie.lookup key = some asset → asset.amount ≠ 0 :=
    by intro key asset h; cases h

namespace CachedAssets

/-- `AccountFrm::GetAsset`: what is found, and the cache with it. -/
def getAsset (key : AssetKey) (s : CachedAssets) : Option AssetStore × CachedAssets :=
  match s.assets.lookup key with
  | some record => if record.action = .del then (none, s) else (some record.data, s)
  | none =>
      match hfound : s.trie.lookup key with
      | none => (none, s)
      | some asset => (some asset, { s with
          assets := s.assets.insert key ⟨.mod, asset⟩
          assets_key := forall_lookup_insert s.assets_key (s.trie_key key asset hfound) })

/-- `AccountFrm::SetAsset`. -/
def setAsset (asset : AssetStore) (s : CachedAssets) : CachedAssets :=
  { s with
    assets := s.assets.insert asset.key ⟨.add, asset⟩
    assets_key := forall_lookup_insert s.assets_key rfl }

/-- One round of the loop over `assets_` of `AccountFrm::UpdateHash`. -/
def writeAsset (trie : Table AssetKey AssetStore) (record : DataCache AssetStore) :
    Table AssetKey AssetStore :=
  let asset := record.data
  match record.action with
  | .add | .mod => if asset.amount = 0 then trie.erase asset.key else trie.insert asset.key asset
  | .del => trie.erase asset.key

/-- The asset trie that `AccountFrm::UpdateHash` leaves. -/
def updatedTrie (s : CachedAssets) : Table AssetKey AssetStore :=
  s.assets.entries.foldl (fun trie entry => writeAsset trie entry.2) s.trie

variable {s : CachedAssets} {account : AccountFrm}

theorem lookup_writeAsset (trie : Table AssetKey AssetStore) (record : DataCache AssetStore)
    (key : AssetKey) :
    (writeAsset trie record).lookup key =
      if key = record.data.key then record.written else trie.lookup key := by
  have herase : (trie.erase record.data.key).lookup key =
      if key = record.data.key then none else trie.lookup key := by
    split
    · rename_i heq
      rw [heq, AList.lookup_erase]
    · rename_i hne
      exact AList.lookup_erase_ne hne
  obtain ⟨action, asset⟩ := record
  cases action with
  | del => simpa [writeAsset, DataCache.written] using herase
  | add | mod =>
      by_cases hzero : asset.amount = 0
      · simpa [writeAsset, DataCache.written, hzero] using herase
      · simpa [writeAsset, DataCache.written, hzero] using lookup_insert_eq trie asset.key key asset

/-- The loop writes every record of the cache and leaves the rest of the trie alone. -/
theorem lookup_foldl_writeAsset {entries : List (Sigma fun _ : AssetKey => DataCache AssetStore)}
    (hnodup : entries.NodupKeys) (hkey : ∀ entry ∈ entries, entry.2.data.key = entry.1)
    (trie : Table AssetKey AssetStore) (key : AssetKey) :
    (entries.foldl (fun trie entry => writeAsset trie entry.2) trie).lookup key =
      (entries.dlookup key).elim (trie.lookup key) DataCache.written := by
  induction entries generalizing trie with
  | nil => rfl
  | cons entry entries ih =>
      obtain ⟨other, record⟩ := entry
      obtain ⟨hfresh, hnodup⟩ := List.nodupKeys_cons.mp hnodup
      have hother : record.data.key = other := hkey _ List.mem_cons_self
      rw [List.foldl_cons, ih hnodup fun entry hmem => hkey entry (List.mem_cons_of_mem _ hmem),
        lookup_writeAsset, hother]
      by_cases heq : key = other
      · subst heq
        rw [if_pos rfl, List.dlookup_eq_none.mpr hfresh, List.dlookup_cons_eq]
        rfl
      · rw [if_neg heq, List.dlookup_cons_ne _ _ heq]

theorem lookup_updatedTrie (s : CachedAssets) (key : AssetKey) :
    s.updatedTrie.lookup key = (s.assets.lookup key).elim (s.trie.lookup key) DataCache.written :=
  lookup_foldl_writeAsset s.assets.nodupKeys
    (fun entry hmem => s.assets_key entry.1 entry.2 (AList.mem_lookup_iff.mpr hmem)) s.trie key

/-- What is in the trie after a block was in the cache, or was in the trie before. -/
theorem updatedTrie_spec {key : AssetKey} {asset : AssetStore}
    (hlookup : s.updatedTrie.lookup key = some asset) : asset.key = key ∧ asset.amount ≠ 0 := by
  rw [lookup_updatedTrie] at hlookup
  cases hrecord : s.assets.lookup key with
  | none =>
      rw [hrecord] at hlookup
      exact ⟨s.trie_key key asset hlookup, s.trie_amount key asset hlookup⟩
  | some record =>
      rw [hrecord, Option.elim_some, DataCache.written] at hlookup
      split at hlookup
      · cases hlookup
      · rename_i hwritten
        obtain rfl := Option.some.inj hlookup
        exact ⟨s.assets_key key record hrecord, fun hzero => hwritten (.inr hzero)⟩

/-- The account as the next block finds it: `UpdateHash` has written the cache, and the
cache of the next object is empty. -/
def nextBlock (s : CachedAssets) : CachedAssets where
  trie := s.updatedTrie
  trie_key _ _ hlookup := (updatedTrie_spec hlookup).1
  trie_amount _ _ hlookup := (updatedTrie_spec hlookup).2

/-! ### The account that it shows -/

/-- Cache and trie together have the assets of the account. -/
def Shows (s : CachedAssets) (account : AccountFrm) : Prop :=
  ∀ key, (s.getAsset key).1.map AssetStore.amount = account.getAsset key

/-- What `GetAsset` finds, without the cache it leaves. -/
theorem getAsset_fst (s : CachedAssets) (key : AssetKey) :
    (s.getAsset key).1 = (s.assets.lookup key).elim (s.trie.lookup key)
      fun record => if record.action = .del then none else some record.data := by
  unfold getAsset
  split
  · rename_i record hrecord
    rw [hrecord, Option.elim_some]
    split <;> rfl
  · rename_i hrecord
    rw [hrecord, Option.elim_none]
    split
    · rename_i hnone
      exact hnone.symm
    · rename_i asset hfound
      exact hfound.symm

/-- Reading an asset changes nothing that is shown. -/
theorem getAsset_getAsset (s : CachedAssets) (key other : AssetKey) :
    ((s.getAsset key).2.getAsset other).1 = (s.getAsset other).1 := by
  rw [getAsset_fst, getAsset_fst]
  unfold getAsset
  split
  · split <;> rfl
  · rename_i hrecord
    split
    · rfl
    · -- the asset was copied from the trie into the cache
      rename_i asset hfound
      dsimp only
      rw [lookup_insert_eq]
      split
      · rename_i heq
        rw [heq, hrecord, Option.elim_none, hfound]
        rfl
      · rfl

theorem shows_getAsset (hshows : s.Shows account) (key : AssetKey) :
    (s.getAsset key).2.Shows account := by
  intro other
  rw [getAsset_getAsset]
  exact hshows other

theorem shows_setAsset (hshows : s.Shows account) (asset : AssetStore) :
    (s.setAsset asset).Shows (account.setAsset asset.key asset.amount) := by
  intro other
  have hother := hshows other
  rw [getAsset_fst] at hother ⊢
  rw [AccountFrm.getAsset_setAsset, setAsset, lookup_insert_eq]
  split
  · rfl
  · exact hother

/-- The entries of amount 0 that the account loses are those deleted from the trie. -/
theorem shows_nextBlock (hshows : s.Shows account)
    (honce : (account.assets.map Prod.fst).Nodup) : s.nextBlock.Shows account.updateHash := by
  intro key
  have hkey := hshows key
  rw [getAsset_fst] at hkey
  rw [getAsset_fst, AccountFrm.getAsset_updateHash honce, ← hkey]
  show (s.updatedTrie.lookup key).map _ = _
  rw [lookup_updatedTrie]
  cases hrecord : s.assets.lookup key with
  | none =>
      rw [Option.elim_none, Option.elim_none]
      cases hfound : s.trie.lookup key with
      | none => rfl
      | some asset =>
          rw [Option.map_some, Option.filter_some, if_pos]
          simpa using s.trie_amount key asset hfound
  | some record =>
      rw [Option.elim_some, Option.elim_some, DataCache.written]
      by_cases hdel : record.action = .del
      · rw [if_pos (.inl hdel), if_pos hdel]
        rfl
      · rw [if_neg hdel, Option.map_some, Option.filter_some]
        by_cases hzero : record.data.amount = 0
        · rw [if_pos (.inr hzero), if_neg (by simpa using hzero)]
          rfl
        · rw [if_neg (not_or.mpr ⟨hdel, hzero⟩), if_pos (by simpa using hzero)]
          rfl

/-- What the operations call on an account. -/
inductive Call where
  | get (key : AssetKey)
  | set (asset : AssetStore)

/-- A call on the object. -/
def call (s : CachedAssets) : Call → CachedAssets
  | .get key => (s.getAsset key).2
  | .set asset => s.setAsset asset

/-- What the call does to the account. -/
def Call.onAccount (account : AccountFrm) : Call → AccountFrm
  | .get _ => account
  | .set asset => account.setAsset asset.key asset.amount

theorem shows_calls (calls : List Call) (hshows : s.Shows account)
    (honce : (account.assets.map Prod.fst).Nodup) :
    (calls.foldl call s).Shows (calls.foldl Call.onAccount account) ∧
      ((calls.foldl Call.onAccount account).assets.map Prod.fst).Nodup := by
  induction calls generalizing s account with
  | nil => exact ⟨hshows, honce⟩
  | cons first calls ih =>
      cases first with
      | get key => exact ih (shows_getAsset hshows key) honce
      | set asset =>
          exact ih (shows_setAsset hshows asset) (AccountFrm.once_setAsset honce ..)

/-- **The cache cannot be seen.**  Over any number of blocks, with any calls in each, the
objects show the assets that the account has when every call acts on it directly and
`updateHash` ends the block. -/
theorem shows_blocks (blocks : List (List Call)) (hshows : s.Shows account)
    (honce : (account.assets.map Prod.fst).Nodup) :
    (blocks.foldl (fun s calls => (calls.foldl call s).nextBlock) s).Shows
      (blocks.foldl (fun account calls => (calls.foldl Call.onAccount account).updateHash)
        account) := by
  induction blocks generalizing s account with
  | nil => exact hshows
  | cons calls blocks ih =>
      obtain ⟨hcalls, honce'⟩ := shows_calls calls hshows honce
      exact ih (shows_nextBlock hcalls honce') (AccountFrm.once_updateHash honce')

/-- An asset is issued, spent to the last, and asked for once more. -/
def spentBlocks : List (List Call) :=
  [[.set ⟨⟨[1], [2], 0⟩, 5⟩, .get ⟨[1], [2], 0⟩], [.set ⟨⟨[1], [2], 0⟩, 0⟩],
    [.get ⟨[1], [2], 0⟩]]

theorem shows_blocks_spent :
    (spentBlocks.foldl (fun s calls => (calls.foldl call s).nextBlock) ({} : CachedAssets)).Shows
      (spentBlocks.foldl
        (fun account calls => (calls.foldl Call.onAccount account).updateHash)
        (AccountFrm.creatAccountFrm [3] 7)) :=
  shows_blocks spentBlocks (fun _ => rfl) List.nodup_nil

end CachedAssets

end CegChain
