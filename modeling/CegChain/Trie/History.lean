import CegChain.Trie.Codec
import CegChain.Trie.Update

/-!
# Histories of a trie

A history sets and deletes items, writes the batch of `UpdateHash`, frees memory,
reads, and starts anew from the database; starting anew loses what was not written.
`Books` follows the map that the trie stands for.

Every history runs to its end (`run_sound`); whenever all is written, `Get` gives what
the map has (`get_run`), and the root hash depends on the map alone (`rootHash_run`).
-/

namespace CegChain.Trie

open Paths Layers

variable (codec : Codec) (start : Bytes)

/-! ## The root -/

/-- The record of the root. -/
structure RootRecord (db : Db) (M : Content) (info : Info) : Prop where
  leaf : info.leaf = leafRecord codec [] (M [])
  children : ∀ i, Record codec start db M [i] (info.children i)

/-- The trie stands for `M`, and its database for `M₀`. -/
structure Sound (trie : KVTrie) (M₀ M : Content) : Prop where
  keyed₀ : Keyed M₀
  keyed : Keyed M
  leaves : Leaves start trie.db M₀ []
  stored : (trie.db.lookup (innerKey start []) = none ∧ ∀ k, M₀ k = none) ∨
    ∃ info, trie.db.lookup (innerKey start []) = some (codec.serialize info) ∧
      RootRecord codec start trie.db M₀ info
  batch : trie.batch = []
  root : ∃ frm children, trie.root = .node frm children ∧
    Inside codec start trie.db M₀ M frm children [] []

/-- The database stands for `M`. -/
structure Stands (db : Db) (M : Content) : Prop where
  keyed : Keyed M
  leaves : Leaves start db M []
  stored : (db.lookup (innerKey start []) = none ∧ ∀ k, M k = none) ∨
    ∃ info, db.lookup (innerKey start []) = some (codec.serialize info) ∧
      RootRecord codec start db M info

/-- All that is in memory is written. -/
def Written (trie : KVTrie) (M : Content) : Prop :=
  ∃ frm children, trie.root = .node frm children ∧
    Tidy codec start trie.db M frm children [] []

variable {codec start} {trie trie' : KVTrie} {M M₀ : Content} {db db' : Db}

theorem RootRecord.unique {start' : Bytes} {info info' : Info}
    (hinfo : RootRecord codec start db M info) (hinfo' : RootRecord codec start' db' M info') :
    info = info' := by
  obtain ⟨children, leaf⟩ := info
  obtain ⟨children', leaf'⟩ := info'
  congr
  · funext i
    exact (hinfo.children i).unique (hinfo'.children i)
  · exact hinfo.leaf.trans hinfo'.leaf.symm

theorem same_refl (M : Content) (p : Path) : Same M M p :=
  fun _ _ => rfl

theorem Sound.stands (hsound : Sound codec start trie M₀ M) : Stands codec start trie.db M₀ :=
  ⟨hsound.keyed₀, hsound.leaves, hsound.stored⟩

theorem placed_root (M : Content) (info : Info) :
    Placed M { location := rootl, info := info } [] [] :=
  ⟨rfl, List.prefix_rfl, fun _ _ _ => List.nil_prefix, nofun, nofun⟩

/-- The root, as it is read from its record. -/
theorem tidy_root {info : Info} (hrecord : RootRecord codec start db M info) :
    Tidy codec start db M { location := rootl, info := info } (fun _ => .null) [] [] :=
  ⟨placed_root M info, hrecord.leaf, hrecord.children⟩

/-! ## One operation -/

theorem length_nibbles (key : Bytes) : (nibbles key).length = 2 * key.length := by
  induction key with
  | nil => rfl
  | cons ch key ih =>
      rw [nibbles, List.length_cons, List.length_cons, List.length_cons, ih]
      omega

theorem length_nibbles_lt (key : Bytes) :
    (nibbles key).length < ([] : Path).length + KVTrie.fuel key := by
  rw [length_nibbles, KVTrie.fuel, List.length_nil]
  omega

theorem keyed_update {key : Bytes} {v : Option Bytes} (hkeyed : Keyed M) :
    Keyed (Function.update M (nibbles key) v) := by
  intro q hq
  by_cases heq : q = nibbles key
  · exact ⟨key, heq⟩
  · rw [Function.update_of_ne heq] at hq
    exact hkeyed q hq

/-- **Set.** -/
theorem sound_set (hsound : Sound codec start trie M₀ M) (key value : Bytes) :
    ∃ added trie', trie.set codec start key value = some (added, trie') ∧
      Sound codec start trie' M₀ (Function.update M (nibbles key) (some value)) := by
  obtain ⟨frm, children, hroot, hinside⟩ := hsound.root
  obtain ⟨added, frm', children', hset, -, hinside'⟩ := setItem_spec value (KVTrie.fuel key)
    hinside (k := nibbles key) List.nil_prefix (length_nibbles_lt key)
  rw [encode_nibbles] at hset
  refine ⟨added, { trie with root := .node frm' children' }, ?_, ?_⟩
  · rw [KVTrie.set, hroot]
    dsimp only
    rw [hset]
    rfl
  · exact ⟨hsound.keyed₀, keyed_update hsound.keyed, hsound.leaves, hsound.stored, hsound.batch,
      frm', children', rfl, hinside'⟩

/-- **Delete.** -/
theorem sound_delete (hsound : Sound codec start trie M₀ M) (key : Bytes) :
    ∃ ret trie', trie.delete codec start key = some (ret, trie') ∧
      Sound codec start trie' M₀ (Function.update M (nibbles key) none) := by
  obtain ⟨frm, children, hroot, hinside⟩ := hsound.root
  obtain ⟨ret, frm', children', hdelete, -, hinside', -⟩ := deleteItem_spec rfl (KVTrie.fuel key)
    hinside List.nil_prefix (length_nibbles_lt key)
  rw [encode_nibbles] at hdelete
  refine ⟨ret, { trie with root := .node frm' children' }, ?_, ?_⟩
  · rw [KVTrie.delete, hroot]
    dsimp only
    rw [hdelete]
    rfl
  · exact ⟨hsound.keyed₀, keyed_update hsound.keyed, hsound.leaves, hsound.stored, hsound.batch,
      frm', children', rfl, hinside'⟩

/-- **Get**, when all is written: the value of the key, if it has one. -/
theorem sound_get (hsound : Sound codec start trie M M) (hwritten : Written codec start trie M)
    (key : Bytes) :
    ∃ trie', trie.get codec start key = some (M (nibbles key), trie') ∧
      Sound codec start trie' M M ∧ Written codec start trie' M := by
  obtain ⟨frm, children, hroot, htidy⟩ := hwritten
  obtain ⟨found, children', hexists, htidy', hfound⟩ := existsItem_spec (KVTrie.fuel key)
    htidy (k := nibbles key) List.nil_prefix (length_nibbles_lt key)
  rw [encode_nibbles] at hexists
  have hleaf : storageGetLeaf start trie.db (key2Location key) = M (nibbles key) := by
    rw [storageGetLeaf, ← encode_nibbles]
    exact hsound.leaves key List.nil_prefix
  refine ⟨{ trie with root := .node frm children' }, ?_, ?_, frm, children', rfl, htidy'⟩
  · rw [KVTrie.get, hroot]
    dsimp only
    rw [hexists]
    change some (if found then storageGetLeaf start trie.db (key2Location key) else none, _) = _
    rw [hleaf]
    cases hvalue : M (nibbles key) with
    | none => rw [ite_self]
    | some v => rw [if_pos (hfound (by rw [hvalue]; simp))]
  · exact ⟨hsound.keyed₀, hsound.keyed, hsound.leaves, hsound.stored, hsound.batch, frm, children',
      rfl, htidy'.inside (same_refl M [])⟩

/-- **UpdateHash and the write of its batch.** -/
theorem sound_flush (hsound : Sound codec start trie M₀ M) :
    Sound codec start (trie.updateHash codec start).addToDB M M ∧
      Written codec start (trie.updateHash codec start).addToDB M ∧
      ∃ info, (trie.updateHash codec start).addToDB.rootHash =
          codec.crypto (codec.serialize info) ∧
        (trie.updateHash codec start).addToDB.db.lookup (innerKey start []) =
          some (codec.serialize info) ∧
        RootRecord codec start (trie.updateHash codec start).addToDB.db M info := by
  obtain ⟨frm, children, hroot, hinside⟩ := hsound.root
  have hfresh : ∀ i, Fresh codec start trie.db M ([] ++ [i])
      (updated codec start (children i) (frm.info.children i)) := by
    intro i
    exact fresh_updated hsound.keyed (children i) (by simp)
      (fun key _ => hsound.leaves key List.nil_prefix) (hinside.children i)
  set batch := updatedBatch codec start frm children with hbatch
  set db' := writeBatch batch trie.db with hdb'
  have hfollows : Follows start trie.db db' batch [] :=
    ⟨fun q _ => lookup_writeBatch .., fun key _ => lookup_writeBatch ..⟩
  obtain ⟨htidy, hleaves, hstored⟩ :=
    tidy_updated hsound.keyed hsound.leaves hinside hfresh hfollows
  have hrecord : RootRecord codec start db' M (updatedInfo codec start frm children) :=
    ⟨htidy.leaf, fun i => (htidy.children i).record⟩
  have hlocation : frm.location = rootl := hinside.placed.location
  have hupdate : updateRecord codec start frm.location (updatedInfo codec start frm children) =
      (⟨rootl, codec.crypto (codec.serialize (updatedInfo codec start frm children)), .inner⟩,
        .put (location2DBkey start rootl false)
          (codec.serialize (updatedInfo codec start frm children))) := by
    rw [updateRecord, hlocation]
    exact if_pos rfl
  have htrie : (trie.updateHash codec start).addToDB =
      { db := db'
        root := .node
          { frm with info := updatedInfo codec start frm children, modified := false }
          (fun i => (updated codec start (children i) (frm.info.children i)).1)
        rootHash := codec.crypto (codec.serialize (updatedInfo codec start frm children)) } := by
    rw [KVTrie.updateHash, hroot, updateHash_node, hupdate, hsound.batch]
    rfl
  rw [hupdate] at hstored
  rw [htrie]
  exact ⟨⟨hsound.keyed, hsound.keyed, hleaves, .inr ⟨_, hstored, hrecord⟩, rfl, _, _, rfl,
    htidy.inside (same_refl M [])⟩, ⟨_, _, rfl, htidy⟩, _, rfl, hstored, hrecord⟩

theorem clean_release {ptr : Pointer} {p : Path} {c : Child}
    (hclean : Clean codec start db M ptr p c) (depth : ℤ) :
    Clean codec start db M (release ptr depth) p c := by
  induction ptr generalizing p c depth with
  | null => exact hclean
  | node frm children ih =>
      obtain ⟨hrecord, hmodified, q, htidy⟩ := clean_node_iff.mp hclean
      refine clean_node_iff.mpr ⟨hrecord, hmodified, q, htidy.placed, htidy.leaf, fun i => ?_⟩
      split
      · exact (htidy.children i).record
      · exact ih i (htidy.children i) _

/-- **FreeMemory**, when all is written. -/
theorem sound_free (hsound : Sound codec start trie M M) (hwritten : Written codec start trie M)
    (depth : ℤ) :
    Sound codec start (trie.freeMemory depth) M M ∧
      Written codec start (trie.freeMemory depth) M := by
  obtain ⟨frm, children, hroot, htidy⟩ := hwritten
  have htidy' : Tidy codec start trie.db M frm
      (fun i => if depth ≤ 0 then .null else release (children i) (depth - 1)) [] [] := by
    refine ⟨htidy.placed, htidy.leaf, fun i => ?_⟩
    split
    · exact (htidy.children i).record
    · exact clean_release (htidy.children i) _
  have hroot' : (trie.freeMemory depth).root = .node frm
      (fun i => if depth ≤ 0 then .null else release (children i) (depth - 1)) := by
    rw [KVTrie.freeMemory, hroot]
    rfl
  exact ⟨⟨hsound.keyed₀, hsound.keyed, hsound.leaves, hsound.stored, hsound.batch, frm, _, hroot',
    htidy'.inside (same_refl M [])⟩, frm, _, hroot', htidy'⟩

theorem sequence_eq_some {α : Type} {f : Nibble → Option α} {g : Nibble → α}
    (hf : ∀ i, f i = some (g i)) : sequence f = some g := by
  have hsome : ∀ i, (f i).isSome := fun i => by rw [hf i]; rfl
  rw [sequence, dif_pos hsome]
  congr
  funext i
  simp [hf i]

/-- What `load` does with a child. -/
def loadChild (codec : Codec) (start : Bytes) (db : Db) (depth : ℕ) : Pointer → Option Pointer
  | .null => some .null
  | .node child children => load codec start db depth child children

theorem tidy_load (depth : ℕ) :
    ∀ {frm : NodeFrm} {children : Nibble → Pointer} {p q : Path},
      Tidy codec start db M frm children p q →
      ∃ children', load codec start db depth frm children = some (.node frm children') ∧
        Tidy codec start db M frm children' p q := by
  induction depth with
  | zero =>
      intro frm children p q htidy
      exact ⟨children, rfl, htidy⟩
  | succ depth ih =>
      intro frm children p q htidy
      have hone : ∀ i, ∃ ptr, ((childMayFromDB codec start db frm children i).bind
            fun children => loadChild codec start db depth (children i)) = some ptr ∧
          Clean codec start db M ptr (q ++ [i]) (frm.info.children i) := by
        intro i
        obtain ⟨ptr, hload, hclean, -⟩ := clean_childMayFromDB (htidy.children i)
        rw [hload, Option.bind_some, Function.update_self]
        cases ptr with
        | null => exact ⟨.null, rfl, hclean⟩
        | node frm₂ children₂ =>
            obtain ⟨hrecord, hmodified, q₂, htidy₂⟩ := clean_node_iff.mp hclean
            obtain ⟨children', hload', htidy'⟩ := ih htidy₂
            exact ⟨_, hload', clean_node_iff.mpr ⟨hrecord, hmodified, q₂, htidy'⟩⟩
      choose children' hload hclean using hone
      refine ⟨children', ?_, htidy.placed, htidy.leaf, hclean⟩
      exact congrArg (fun r => Option.bind r fun children => some (Pointer.node frm children))
        (sequence_eq_some hload)

/-- **Init** on a database that stands for a map. -/
theorem Stands.init (hstands : Stands codec start db M) (depth : ℤ) :
    ∃ trie, KVTrie.init codec start db depth = some trie ∧ Sound codec start trie M M ∧
      Written codec start trie M := by
  have hlookup : storageLoad codec start db rootl =
      (db.lookup (innerKey start [])).map codec.parse := rfl
  have hsound : ∀ {frm : NodeFrm} {children : Nibble → Pointer},
      Tidy codec start db M frm children [] [] →
      Sound codec start { db := db, root := .node frm children } M M := fun htidy =>
    ⟨hstands.keyed, hstands.keyed, hstands.leaves, hstands.stored, rfl, _, _, rfl,
      htidy.inside (same_refl M [])⟩
  rcases hstands.stored with ⟨hnone, hempty⟩ | ⟨info, hstored, hrecord⟩
  · have htidy : Tidy codec start db M { location := rootl } (fun _ => .null) [] [] := by
      refine ⟨placed_root _ _, by rw [hempty]; rfl, fun i => ?_⟩
      exact Record.empty fun k _ => hempty k
    refine ⟨{ db := db, root := .single { location := rootl } }, ?_, hsound htidy, _, _, rfl,
      htidy⟩
    rw [KVTrie.init, hlookup, hnone]
    rfl
  · obtain ⟨children, hload, htidy⟩ := tidy_load (depth + 1).toNat (tidy_root hrecord)
    refine ⟨{ db := db, root := .node { location := rootl, info := info } children }, ?_,
      hsound htidy, _, _, rfl, htidy⟩
    rw [KVTrie.init, hlookup, hstored, Option.map_some, codec.parse_serialize]
    dsimp only
    rw [hload]
    rfl

/-! ## Histories -/

/-- What is done to a trie. -/
inductive Op where
  | set (key value : Bytes)
  | delete (key : Bytes)
  | get (key : Bytes)
  /-- `UpdateHash`, and its batch is written. -/
  | flush
  | free (depth : ℤ)
  /-- The trie is made anew from the database. -/
  | init (depth : ℤ)

variable (codec start) in
/-- The trie after an operation. -/
def Op.run (op : Op) (trie : KVTrie) : Option KVTrie :=
  match op with
  | .set key value => (trie.set codec start key value).map Prod.snd
  | .delete key => (trie.delete codec start key).map Prod.snd
  | .get key => (trie.get codec start key).map Prod.snd
  | .flush => some (trie.updateHash codec start).addToDB
  | .free depth => some (trie.freeMemory depth)
  | .init depth => KVTrie.init codec start trie.db depth

variable (codec start) in
/-- A new trie on a database, and a history of it. -/
def run (db : Db) (depth : ℤ) (ops : List Op) : Option KVTrie := do
  let trie ← KVTrie.init codec start db depth
  ops.foldlM (fun trie op => op.run codec start trie) trie

/-- The map that the trie stands for. -/
structure Books where
  /-- The map of the last write. -/
  written : Bytes → Option Bytes := fun _ => none
  /-- The map of now. -/
  now : Bytes → Option Bytes := fun _ => none
  /-- There are changes that are not written. -/
  dirty : Bool := false

namespace Books

/-- The map after an operation. -/
def after (books : Books) : Op → Books
  | .set key value =>
      { books with now := Function.update books.now key (some value), dirty := true }
  | .delete key => { books with now := Function.update books.now key none, dirty := true }
  | .flush => { written := books.now, now := books.now }
  | .init _ => { written := books.written, now := books.written }
  | .get _ | .free _ => books

/-- Memory is freed, and the trie is read, only when all is written. -/
def allows (books : Books) : Op → Prop
  | .get _ | .free _ => books.dirty = false
  | _ => True

/-- The map after a history. -/
def afterAll (books : Books) (ops : List Op) : Books :=
  ops.foldl after books

/-- Every operation of a history comes when it may. -/
def AllowsAll (books : Books) : List Op → Prop
  | [] => True
  | op :: ops => books.allows op ∧ (books.after op).AllowsAll ops

end Books

/-- A map from keys, as one from paths. -/
def content (map : Bytes → Option Bytes) : Content :=
  fun q => if isOdd q then none else map (packs q)

theorem nibbles_packs (q : Path) (heven : isOdd q = false) : nibbles (packs q) = q := by
  match q with
  | [] => rfl
  | [a] => cases heven
  | a :: b :: q =>
      rw [isOdd_cons_cons] at heven
      rw [packs, nibbles, high_pack, low_pack, nibbles_packs q heven]

theorem content_nibbles (map : Bytes → Option Bytes) (key : Bytes) :
    content map (nibbles key) = map key := by
  rw [content, isOdd_nibbles, packs_nibbles]
  rfl

theorem keyed_content (map : Bytes → Option Bytes) : Keyed (content map) := by
  intro q hq
  cases hodd : isOdd q with
  | true =>
      rw [content, if_pos hodd] at hq
      exact absurd rfl hq
  | false => exact ⟨packs q, (nibbles_packs q hodd).symm⟩

theorem content_update (map : Bytes → Option Bytes) (key : Bytes) (v : Option Bytes) :
    content (Function.update map key v) = Function.update (content map) (nibbles key) v := by
  funext q
  by_cases heq : q = nibbles key
  · rw [heq, content_nibbles, Function.update_self, Function.update_self]
  · rw [Function.update_of_ne heq, content, content]
    cases hodd : isOdd q with
    | true => rfl
    | false =>
        rw [if_neg (by simp), if_neg (by simp), Function.update_of_ne]
        intro hkey
        exact heq (by rw [← hkey, nibbles_packs q hodd])

variable (codec start) in
/-- The trie stands for the map of the books. -/
structure Kept (trie : KVTrie) (books : Books) : Prop where
  sound : Sound codec start trie (content books.written) (content books.now)
  clean : books.dirty = false →
    books.now = books.written ∧ Written codec start trie (content books.now)

/-- **One operation.** -/
theorem kept_run {books : Books} (hkept : Kept codec start trie books) {op : Op}
    (hallows : books.allows op) :
    ∃ trie', op.run codec start trie = some trie' ∧ Kept codec start trie' (books.after op) := by
  have hsound := hkept.sound
  cases op with
  | set key value =>
      obtain ⟨added, trie', hset, hsound'⟩ := sound_set hsound key value
      refine ⟨trie', by rw [Op.run, hset]; rfl, ?_, nofun⟩
      rw [Books.after, content_update]
      exact hsound'
  | delete key =>
      obtain ⟨ret, trie', hdelete, hsound'⟩ := sound_delete hsound key
      refine ⟨trie', by rw [Op.run, hdelete]; rfl, ?_, nofun⟩
      rw [Books.after, content_update]
      exact hsound'
  | get key =>
      obtain ⟨heq, hwritten⟩ := hkept.clean hallows
      rw [← heq] at hsound
      obtain ⟨trie', hget, hsound', hwritten'⟩ := sound_get hsound hwritten key
      refine ⟨trie', by rw [Op.run, hget]; rfl, ?_, fun _ => ⟨heq, hwritten'⟩⟩
      rw [Books.after, ← heq]
      exact hsound'
  | flush =>
      obtain ⟨hsound', hwritten, -⟩ := sound_flush hsound
      exact ⟨_, rfl, hsound', fun _ => ⟨rfl, hwritten⟩⟩
  | free depth =>
      obtain ⟨heq, hwritten⟩ := hkept.clean hallows
      rw [← heq] at hsound
      obtain ⟨hsound', hwritten'⟩ := sound_free hsound hwritten depth
      refine ⟨_, rfl, ?_, fun _ => ⟨heq, hwritten'⟩⟩
      rw [Books.after, ← heq]
      exact hsound'
  | init depth =>
      obtain ⟨trie', hinit, hsound', hwritten⟩ := hsound.stands.init depth
      exact ⟨trie', hinit, hsound', fun _ => ⟨rfl, hwritten⟩⟩

/-- **All operations of a history.** -/
theorem kept_runAll {ops : List Op} : ∀ {trie : KVTrie} {books : Books},
    Kept codec start trie books → books.AllowsAll ops →
    ∃ trie', ops.foldlM (fun trie op => op.run codec start trie) trie = some trie' ∧
      Kept codec start trie' (books.afterAll ops) := by
  induction ops with
  | nil =>
      intro trie books hkept _
      exact ⟨trie, rfl, hkept⟩
  | cons op ops ih =>
      intro trie books hkept hallows
      obtain ⟨trie₁, hrun, hkept₁⟩ := kept_run hkept hallows.1
      obtain ⟨trie₂, hrest, hkept₂⟩ := ih hkept₁ hallows.2
      refine ⟨trie₂, ?_, hkept₂⟩
      rw [List.foldlM_cons, hrun]
      exact hrest

/-- The database has nothing of the trie. -/
structure Unused (start : Bytes) (db : Db) : Prop where
  inner : ∀ q, db.lookup (innerKey start q) = none
  leaf : ∀ key, db.lookup (leafKey start key) = none

theorem unused_empty (start : Bytes) : Unused start ∅ :=
  ⟨fun _ => rfl, fun _ => rfl⟩

/-- **Init** on a database that has nothing of the trie. -/
theorem sound_unused (codec : Codec) (hunused : Unused start db) (depth : ℤ) :
    ∃ trie, KVTrie.init codec start db depth = some trie ∧
      Sound codec start trie (content fun _ => none) (content fun _ => none) ∧
      Written codec start trie (content fun _ => none) := by
  have hnone : ∀ q, content (fun _ => none) q = none := by
    intro q
    rw [content, ite_self]
  have hstands : Stands codec start db (content fun _ => none) :=
    ⟨keyed_content _, fun key _ => (hunused.leaf key).trans (hnone _).symm,
      .inl ⟨hunused.inner [], hnone⟩⟩
  exact hstands.init depth

/-- **Every history runs to its end.** -/
theorem run_kept (codec : Codec) {ops : List Op} (hunused : Unused start db) (depth : ℤ)
    (hallows : ({} : Books).AllowsAll ops) :
    ∃ trie, run codec start db depth ops = some trie ∧
      Kept codec start trie (({} : Books).afterAll ops) := by
  obtain ⟨trie₀, hinit, hsound₀, hwritten₀⟩ := sound_unused codec hunused depth
  have hkept₀ : Kept codec start trie₀ {} := ⟨hsound₀, fun _ => ⟨rfl, hwritten₀⟩⟩
  obtain ⟨trie, hrun, hkept⟩ := kept_runAll hkept₀ hallows
  refine ⟨trie, ?_, hkept⟩
  rw [run, hinit]
  exact hrun

/-- **The trie is a finite map.** Every history runs to its end, and whenever all is
written `Get` of any key gives what the map has under it. -/
theorem get_run (codec : Codec) {ops : List Op} (hunused : Unused start db) (depth : ℤ)
    (hallows : ({} : Books).AllowsAll ops) :
    ∃ trie, run codec start db depth ops = some trie ∧
      ((({} : Books).afterAll ops).dirty = false → ∀ key, ∃ trie',
        trie.get codec start key = some ((({} : Books).afterAll ops).now key, trie')) := by
  obtain ⟨trie, hrun, hkept⟩ := run_kept codec hunused depth hallows
  refine ⟨trie, hrun, fun hclean key => ?_⟩
  obtain ⟨heq, hwritten⟩ := hkept.clean hclean
  have hsound := hkept.sound
  rw [← heq] at hsound
  obtain ⟨trie', hget, -⟩ := sound_get hsound hwritten key
  rw [content_nibbles] at hget
  exact ⟨trie', hget⟩

/-- Two keys with a common beginning are written, the shorter is deleted, and after a
restart the other is still there. -/
theorem get_run_restart :
    let ops := [.set [1] [5], .set [1, 2] [6], .flush, .delete [1], .flush, .free 0, .init 2]
    ({} : Books).AllowsAll ops ∧ (({} : Books).afterAll ops).dirty = false ∧
      (({} : Books).afterAll ops).now [1] = none ∧
      (({} : Books).afterAll ops).now [1, 2] = some [6] ∧
      ∃ trie, run (.protobuf id) [] ∅ 1 ops = some trie ∧ ∀ key, ∃ trie',
        trie.get (.protobuf id) [] key = some ((({} : Books).afterAll ops).now key, trie') := by
  intro ops
  have hallows : ({} : Books).AllowsAll ops :=
    ⟨trivial, trivial, trivial, trivial, trivial, rfl, trivial, trivial⟩
  obtain ⟨trie, hrun, hget⟩ := get_run (.protobuf id) (unused_empty []) 1 hallows
  exact ⟨hallows, rfl, by decide, by decide, trie, hrun, hget rfl⟩

/-- **The root hash depends on the map alone.** Two histories that end in a write and
leave the same map leave the same root hash. -/
theorem rootHash_run (codec : Codec) {start' : Bytes} {ops ops' : List Op}
    (hunused : Unused start db) (hunused' : Unused start' db') (depth depth' : ℤ)
    (hallows : ({} : Books).AllowsAll ops) (hallows' : ({} : Books).AllowsAll ops')
    (hmap : (({} : Books).afterAll ops).now = (({} : Books).afterAll ops').now) :
    ∃ trie trie', run codec start db depth (ops ++ [.flush]) = some trie ∧
      run codec start' db' depth' (ops' ++ [.flush]) = some trie' ∧
      trie.rootHash = trie'.rootHash := by
  have hend : ∀ {start : Bytes} {db : Db} (depth : ℤ) {ops : List Op} {trie : KVTrie},
      run codec start db depth ops = some trie →
      run codec start db depth (ops ++ [.flush]) =
        some (trie.updateHash codec start).addToDB := by
    intro start db depth ops trie hrun
    obtain ⟨trie₀, hinit, hrun⟩ := Option.bind_eq_some_iff.mp hrun
    rw [run, hinit, Option.bind_eq_bind, Option.bind_some, List.foldlM_append, hrun]
    rfl
  obtain ⟨trie, hrun, hkept⟩ := run_kept codec hunused depth hallows
  obtain ⟨trie', hrun', hkept'⟩ := run_kept codec hunused' depth' hallows'
  obtain ⟨-, -, info, hhash, -, hinfo⟩ := sound_flush hkept.sound
  obtain ⟨-, -, info', hhash', -, hinfo'⟩ := sound_flush hkept'.sound
  refine ⟨_, _, hend depth hrun, hend depth' hrun', ?_⟩
  rw [hmap] at hinfo
  rw [hhash, hhash', hinfo.unique hinfo']

/-- A key that was added and deleted leaves the hash of a trie that never had it. -/
theorem rootHash_run_add_delete :
    let ops : List Op := [.set [1] [5], .flush, .set [2] [6], .flush, .delete [2]]
    let ops' : List Op := [.set [1] [5]]
    ({} : Books).AllowsAll ops ∧ ({} : Books).AllowsAll ops' ∧
      (({} : Books).afterAll ops).now = (({} : Books).afterAll ops').now ∧
      ∃ trie trie', run (.protobuf id) [] ∅ 1 (ops ++ [.flush]) = some trie ∧
        run (.protobuf id) [] ∅ 1 (ops' ++ [.flush]) = some trie' ∧
        trie.rootHash = trie'.rootHash := by
  intro ops ops'
  have hallows : ({} : Books).AllowsAll ops :=
    ⟨trivial, trivial, trivial, trivial, trivial, trivial⟩
  have hallows' : ({} : Books).AllowsAll ops' := ⟨trivial, trivial⟩
  have hmap : (({} : Books).afterAll ops).now = (({} : Books).afterAll ops').now := by
    funext key
    change Function.update (Function.update (({} : Books).afterAll ops').now [2] (some [6]))
      [2] none key = _
    by_cases hkey : key = [2]
    · rw [hkey, Function.update_self]
      rfl
    · rw [Function.update_of_ne hkey, Function.update_of_ne hkey]
  exact ⟨hallows, hallows', hmap, rootHash_run (.protobuf id) (unused_empty []) (unused_empty [])
    1 1 hallows hallows' hmap⟩

end CegChain.Trie
