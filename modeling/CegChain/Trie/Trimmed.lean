import CegChain.Trie.Reload

/-!
# No record is left behind

A record is stored for the places where keys part, and for the root.  `Trimmed` says that
there are no others: a node that loses its keys, or all but one way on, is on the path of
the keys it loses, so it is written again, and `update_hash` then deletes its record.

An empty sublocation stands for no place at all; `Free` says of a database that nothing is
stored under the key that it makes either.
-/

namespace CegChain.Trie

open Paths Layers

variable {codec : Codec} {start : Bytes} {db db' : Db} {M M' M₀ : Content} {p p' q : Path}
  {c : Child} {frm : NodeFrm} {children : Nibble → Pointer} {trie trie' : KVTrie}

/-- Two keys part here, or one ends here and another goes on. -/
def Forked (M : Content) (q : Path) : Prop :=
  ∃ k k', q <+: k ∧ q <+: k' ∧ M k ≠ none ∧ M k' ≠ none ∧ k ≠ k' ∧
    ∀ r, r <+: k → r <+: k' → r <+: q

/-- Below the path, records are stored only where keys part. -/
def Trimmed (start : Bytes) (db : Db) (M : Content) (p : Path) : Prop :=
  ∀ q, p <+: q → q ≠ [] → db.lookup (innerKey start q) ≠ none → Forked M q

theorem Forked.congr (hforked : Forked M q) (hsame : Same M M' q) : Forked M' q := by
  obtain ⟨k, k', hk, hk', hkey, hkey', hne, hfork⟩ := hforked
  exact ⟨k, k', hk, hk', by rwa [hsame k hk], by rwa [hsame k' hk'], hne, hfork⟩

/-- Keys that part are not all below a longer path. -/
theorem Forked.prefix_of_below (hforked : Forked M q) (hpre : p <+: q)
    (hbelow : Below M p p') : p' <+: q := by
  obtain ⟨k, k', hk, hk', hkey, hkey', -, hfork⟩ := hforked
  exact hfork p' (hbelow k (hpre.trans hk) hkey) (hbelow k' (hpre.trans hk') hkey')

/-- A record is written where there are two branches. -/
theorem two_le_of_updateRecord {location : Location} {info : Info} (hne : location ≠ rootl)
    (hvalue : (updateRecord codec start location info).2.value ≠ none) :
    2 ≤ (branches info).length := by
  unfold updateRecord at hvalue
  dsimp only at hvalue
  rw [if_neg hne] at hvalue
  match hbranches : branches info with
  | [] =>
      rw [hbranches] at hvalue
      exact absurd rfl hvalue
  | [only] =>
      rw [hbranches] at hvalue
      exact absurd rfl hvalue
  | first :: second :: rest =>
      rw [List.length_cons, List.length_cons]
      omega

section Update

variable (hkeyed : Keyed M) (hleaves : Leaves start db M₀ p)
  (hinside : Inside codec start db M₀ M frm children p q)
  (htrimmed : Trimmed start db M₀ p)
  (hfollows : Follows start db db' (updatedBatch codec start frm children) p)

include hkeyed hleaves hinside htrimmed hfollows

/-- A node that is written again: its own record, what is below its children, and what is
above it in its slot. -/
theorem trimmed_node
    (hfresh : ∀ i, Fresh codec start db M (q ++ [i])
      (updated codec start (children i) (frm.info.children i)))
    (hbelow : ∀ i, ∀ db', Follows start db db'
      (updated codec start (children i) (frm.info.children i)).2.2 (q ++ [i]) →
      Trimmed start db' M (q ++ [i])) :
    Trimmed start db' M p := by
  intro q' hpre hroot hstored
  have hlast := lastWrite_inner hkeyed hinside hfresh q'
  by_cases hq : q <+: q'
  · by_cases heq : q = q'
    · subst heq
      obtain ⟨htidy, -, hlookup⟩ := tidy_updated hkeyed hleaves hinside hfresh hfollows
      have hne : frm.location ≠ rootl := by
        rw [hinside.placed.location]
        exact fun h => hroot (encode_injective (show encode q = encode [] from h))
      rw [hlookup] at hstored
      exact exists_fork_of_branches htidy.leaf (fun i => (htidy.children i).record)
        (two_le_of_updateRecord hne hstored)
    · obtain ⟨i, hi⟩ := exists_next hq heq
      have hpi := hinside.placed.pre.trans (List.prefix_append q [i])
      refine hbelow i db' ⟨fun r hr => ?_, fun key hkey => ?_⟩ q' hi hroot hstored
      · rw [hfollows.inner r (hpi.trans hr),
          (lastWrite_inner hkeyed hinside hfresh r).2.1 i hr]
      · rw [hfollows.leaf key (hpi.trans hkey),
          (lastWrite_leaf hkeyed hinside hfresh key).2.1 i hkey]
  · -- no key of the last write parted from the others above the node
    rw [hfollows.inner q' hpre, hlast.2.2 hq, Option.getD_none] at hstored
    exact absurd ((htrimmed q' hpre hroot hstored).prefix_of_below hpre hinside.below) hq

end Update

/-- **A slot after the write.** -/
theorem trimmed_updated (hkeyed : Keyed M) (ptr : Pointer) :
    ∀ {p : Path} {c : Child}, p ≠ [] → Leaves start db M₀ p → Held codec start db M₀ M ptr p c →
      Trimmed start db M₀ p →
      ∀ db', Follows start db db' (updated codec start ptr c).2.2 p → Trimmed start db' M p := by
  -- what is not modified is not written
  have hkept : ∀ {ptr : Pointer} {p : Path} {c : Child}, ptr.modified = false →
      Trimmed start db M₀ p → Same M₀ M p →
      ∀ db', Follows start db db' (updated codec start ptr c).2.2 p → Trimmed start db' M p := by
    intro ptr p c hmodified htrimmed hsame db' hfollows q hpre hroot hstored
    rw [updated, if_neg (by simp [hmodified])] at hfollows
    rw [hfollows.inner q hpre] at hstored
    have hsame' : Same M₀ M q := fun k hk => hsame k (hpre.trans hk)
    refine (htrimmed q hpre hroot hstored).congr hsame'
  induction ptr with
  | null =>
      intro p c hp hleaves hheld htrimmed
      exact hkept rfl htrimmed hheld.2
  | node frm children ih =>
      intro p c hp hleaves hheld htrimmed
      by_cases hmodified : frm.modified = true
      · obtain ⟨q, hinside⟩ := hheld.inside
        have hpre := fun i => hinside.placed.pre.trans (List.prefix_append q [i])
        have hfresh : ∀ i, Fresh codec start db M (q ++ [i])
            (updated codec start (children i) (frm.info.children i)) := by
          intro i
          exact fresh_updated hkeyed (children i) (by simp)
            (fun key hkey => hleaves key ((hpre i).trans hkey)) (hinside.children i)
        intro db' hfollows
        rw [updated, Pointer.modified, if_pos hmodified, updateHash_node] at hfollows
        refine trimmed_node hkeyed hleaves hinside htrimmed hfollows hfresh fun i => ?_
        exact ih i (by simp) (fun key hkey => hleaves key ((hpre i).trans hkey))
          (hinside.children i) fun r hr => htrimmed r ((hpre i).trans hr)
      · have hfalse : frm.modified = false := by simpa using hmodified
        rcases hheld with ⟨-, hsame⟩ | ⟨htrue, -⟩
        · exact hkept hfalse htrimmed hsame
        · exact absurd htrue hmodified

/-- **UpdateHash and the write of its batch.** -/
theorem trimmed_flush (hsound : Sound codec start trie M₀ M)
    (htrimmed : Trimmed start trie.db M₀ []) :
    Trimmed start (trie.updateHash codec start).addToDB.db M [] := by
  obtain ⟨frm, children, hroot, hinside⟩ := hsound.root
  have hslot : ∀ i, Held codec start trie.db M₀ M (children i) [i] (frm.info.children i) :=
    hinside.children
  have hfresh : ∀ i, Fresh codec start trie.db M ([] ++ [i])
      (updated codec start (children i) (frm.info.children i)) := fun i =>
    fresh_updated hsound.keyed (children i) (by simp)
      (fun key _ => hsound.leaves key List.nil_prefix) (hslot i)
  have hdb : (trie.updateHash codec start).addToDB.db =
      writeBatch (updatedBatch codec start frm children) trie.db := by
    rw [KVTrie.updateHash, hroot, updateHash_node, hsound.batch]
    rfl
  rw [hdb]
  refine trimmed_node hsound.keyed hsound.leaves hinside htrimmed
    ⟨fun q _ => lookup_writeBatch .., fun key _ => lookup_writeBatch ..⟩ hfresh fun i => ?_
  exact trimmed_updated hsound.keyed (children i) (by simp)
    (fun key _ => hsound.leaves key List.nil_prefix) (hslot i)
    fun r _ => htrimmed r List.nil_prefix

/-! ## The key of no place -/

theorem location2DBkey_ne_start {location : Location} (hlocation : location ≠ []) (leaf : Bool) :
    location2DBkey start location leaf ≠ start := by
  intro heq
  have hlength := congrArg List.length heq
  refine hlocation ?_
  cases leaf <;> simpa [location2DBkey] using hlength

theorem lastWrite_eq_none {key : Bytes} {batch : List Write}
    (hbatch : ∀ write ∈ batch, write.key ≠ key) : lastWrite key batch = none := by
  induction batch with
  | nil => rfl
  | cons write batch ih =>
      rw [lastWrite, ih fun other hother => hbatch other (List.mem_cons_of_mem _ hother),
        if_neg (hbatch write List.mem_cons_self)]
      rfl

/-- A node writes under the keys of its location. -/
theorem key_ne_start_of_inside (hinside : Inside codec start db M₀ M frm children p q)
    (hbelow : ∀ i, ∀ write ∈ (updated codec start (children i) (frm.info.children i)).2.2,
      write.key ≠ start) :
    ∀ write ∈ updatedBatch codec start frm children, write.key ≠ start := by
  have hlocation : frm.location ≠ [] := by
    rw [hinside.placed.location]
    exact List.cons_ne_nil _ _
  intro write hmem
  rw [updatedBatch, List.mem_append, List.mem_append, List.mem_singleton] at hmem
  rcases hmem with (hleaf | hchild) | rfl
  · have hkey : write.key = location2DBkey start frm.location true := by
      unfold updateLeaf at hleaf
      dsimp only at hleaf
      split at hleaf
      · rw [List.mem_singleton.mp hleaf, Write.key]
      · split at hleaf
        · rw [List.mem_singleton.mp hleaf, Write.key]
        · exact absurd hleaf List.not_mem_nil
    rw [hkey]
    exact location2DBkey_ne_start hlocation true
  · obtain ⟨i, -, hi⟩ := List.mem_flatMap.mp hchild
    exact hbelow i write hi
  · rw [key_updateRecord]
    exact location2DBkey_ne_start hlocation false

theorem key_ne_start_of_held (ptr : Pointer) :
    ∀ {p : Path} {c : Child}, Held codec start db M₀ M ptr p c →
      ∀ write ∈ (updated codec start ptr c).2.2, write.key ≠ start := by
  induction ptr with
  | null => exact fun _ _ hmem => absurd hmem List.not_mem_nil
  | node frm children ih =>
      intro p c hheld write hmem
      unfold updated at hmem
      split at hmem
      · obtain ⟨q, hinside⟩ := hheld.inside
        rw [updateHash_node] at hmem
        exact key_ne_start_of_inside hinside (fun i => ih i (hinside.children i)) write hmem
      · exact absurd hmem List.not_mem_nil

theorem lookup_start_flush (hsound : Sound codec start trie M₀ M) :
    (trie.updateHash codec start).addToDB.db.lookup start = trie.db.lookup start := by
  obtain ⟨frm, children, hroot, hinside⟩ := hsound.root
  have hdb : (trie.updateHash codec start).addToDB.db =
      writeBatch (updatedBatch codec start frm children) trie.db := by
    rw [KVTrie.updateHash, hroot, updateHash_node, hsound.batch]
    rfl
  rw [hdb, lookup_writeBatch, lastWrite_eq_none, Option.getD_none]
  exact key_ne_start_of_inside hinside fun i => key_ne_start_of_held _ (hinside.children i)

/-! ## Histories -/

variable (start) in
/-- The database has nothing of the trie, and nothing where an empty location would be. -/
structure Free (db : Db) : Prop extends Unused start db where
  bare : db.lookup start = none

variable (codec start) in
/-- The trie stands for the map of the books, and its database has no record too many. -/
structure Exact (trie : KVTrie) (books : Books) : Prop where
  kept : Kept codec start trie books
  trimmed : Trimmed start trie.db (content books.written) []
  bare : trie.db.lookup start = none

theorem db_delete {key : Bytes} {ret : Bool}
    (hdelete : trie.delete codec start key = some (ret, trie')) : trie'.db = trie.db := by
  unfold KVTrie.delete at hdelete
  cases hroot : trie.root with
  | null =>
      rw [hroot] at hdelete
      cases hdelete
  | node root children =>
      rw [hroot] at hdelete
      obtain ⟨r, -, heq⟩ := Option.bind_eq_some_iff.mp hdelete
      cases heq
      rfl

theorem db_get {key : Bytes} {value : Option Bytes}
    (hget : trie.get codec start key = some (value, trie')) : trie'.db = trie.db := by
  unfold KVTrie.get at hget
  cases hroot : trie.root with
  | null =>
      rw [hroot] at hget
      cases hget
  | node root children =>
      rw [hroot] at hget
      obtain ⟨r, -, heq⟩ := Option.bind_eq_some_iff.mp hget
      cases heq
      rfl

/-- Only the write of a batch changes the database, and the map that is in it. -/
theorem Op.db_run {op : Op} (hrun : op.run codec start trie = some trie') (books : Books) :
    op = .flush ∨ trie'.db = trie.db ∧ (books.after op).written = books.written := by
  cases op with
  | set key value =>
      obtain ⟨r, hset, rfl⟩ := Option.map_eq_some_iff.mp hrun
      exact .inr ⟨(db_set hset).1, rfl⟩
  | delete key =>
      obtain ⟨r, hdelete, rfl⟩ := Option.map_eq_some_iff.mp hrun
      exact .inr ⟨db_delete hdelete, rfl⟩
  | get key =>
      obtain ⟨r, hget, rfl⟩ := Option.map_eq_some_iff.mp hrun
      exact .inr ⟨db_get hget, rfl⟩
  | flush => exact .inl rfl
  | free depth =>
      obtain rfl := Option.some.inj hrun
      exact .inr ⟨rfl, rfl⟩
  | init depth => exact .inr ⟨db_init hrun, rfl⟩

/-- **One operation.** -/
theorem exact_run {books : Books} (hexact : Exact codec start trie books) {op : Op}
    (hallows : books.allows op) :
    ∃ trie', op.run codec start trie = some trie' ∧ Exact codec start trie' (books.after op) := by
  obtain ⟨trie', hrun, hkept⟩ := kept_run hexact.kept hallows
  refine ⟨trie', hrun, hkept, ?_, ?_⟩
  · rcases Op.db_run hrun books with rfl | ⟨hdb, hwritten⟩
    · obtain rfl := Option.some.inj hrun
      exact trimmed_flush hexact.kept.sound hexact.trimmed
    · rw [hdb, hwritten]
      exact hexact.trimmed
  · rcases Op.db_run hrun books with rfl | ⟨hdb, -⟩
    · obtain rfl := Option.some.inj hrun
      exact (lookup_start_flush hexact.kept.sound).trans hexact.bare
    · rw [hdb]
      exact hexact.bare

/-- **All operations of a history.** -/
theorem exact_runAll {ops : List Op} : ∀ {trie : KVTrie} {books : Books},
    Exact codec start trie books → books.AllowsAll ops →
    ∃ trie', ops.foldlM (fun trie op => op.run codec start trie) trie = some trie' ∧
      Exact codec start trie' (books.afterAll ops) := by
  induction ops with
  | nil =>
      intro trie books hexact _
      exact ⟨trie, rfl, hexact⟩
  | cons op ops ih =>
      intro trie books hexact hallows
      obtain ⟨trie₁, hrun, hexact₁⟩ := exact_run hexact hallows.1
      obtain ⟨trie₂, hrest, hexact₂⟩ := ih hexact₁ hallows.2
      refine ⟨trie₂, ?_, hexact₂⟩
      rw [List.foldlM_cons, hrun]
      exact hrest

/-- **Every history leaves a database without records too many.** -/
theorem run_exact (codec : Codec) {ops : List Op} (hfree : Free start db) (depth : ℤ)
    (hallows : ({} : Books).AllowsAll ops) :
    ∃ trie, run codec start db depth ops = some trie ∧
      Exact codec start trie (({} : Books).afterAll ops) := by
  obtain ⟨trie₀, hinit, hsound₀, hwritten₀⟩ := sound_unused codec hfree.toUnused depth
  have hexact₀ : Exact codec start trie₀ {} := by
    refine ⟨⟨hsound₀, fun _ => ⟨rfl, hwritten₀⟩⟩, fun q _ _ hstored => ?_, ?_⟩
    · rw [db_init hinit] at hstored
      exact absurd (hfree.inner q) hstored
    · rw [db_init hinit]
      exact hfree.bare
  obtain ⟨trie, hrun, hexact⟩ := exact_runAll hexact₀ hallows
  refine ⟨trie, ?_, hexact⟩
  rw [run, hinit]
  exact hrun

end CegChain.Trie
