import CegChain.Trie.History

/-!
# A trie that is loaded again

`Initialize` hashes a trie that was just loaded, or just written, and leaves the batch
of that in memory: the next block writes it once more.  `Settled` says that a batch
writes nothing new, and `Loaded` that the trie is in such a state.

Two facts about root hashes are here too: the hash of a loaded trie is that of the map
in the database, and as long as no two strings share a hash it determines the map
(`RootRecord.content_eq`), so that two histories with one root have left one map
(`map_eq_of_rootHash`).
-/

namespace CegChain.Trie

open Paths Layers

variable {codec : Codec} {start : Bytes} {trie trie' : KVTrie} {M M' M₀ : Content} {db db' : Db}
  {p q : Path} {c : Child} {frm : NodeFrm} {children : Nibble → Pointer} {batch batch' : List Write}

/-! ## Another database with the same entries -/

theorem Held.congr_db {ptr : Pointer} (hheld : Held codec start db M₀ M ptr p c)
    (hdb : ∀ key, db'.lookup key = db.lookup key) : Held codec start db' M₀ M ptr p c := by
  induction ptr generalizing p c with
  | null => exact ⟨hheld.1.congr (fun _ _ => rfl) fun _ _ => hdb _, hheld.2⟩
  | node frm children ih =>
      rcases hheld with ⟨hclean, hsame⟩ | ⟨hmodified, q, hplaced, hbelow, hleaf, hchildren⟩
      · exact .inl ⟨hclean.congr (same_refl M₀ p) fun _ _ => hdb _, hsame⟩
      · exact .inr ⟨hmodified, q, hplaced, hbelow, hleaf, fun i => ih i (hchildren i)⟩

theorem RootRecord.congr_db {info : Info} (hrecord : RootRecord codec start db M info)
    (hdb : ∀ key, db'.lookup key = db.lookup key) : RootRecord codec start db' M info :=
  ⟨hrecord.leaf, fun i => (hrecord.children i).congr (fun _ _ => rfl) fun _ _ => hdb _⟩

theorem Sound.congr_db (hsound : Sound codec start trie M₀ M)
    (hdb : ∀ key, db'.lookup key = trie.db.lookup key) :
    Sound codec start { trie with db := db' } M₀ M := by
  obtain ⟨frm, children, hroot, hinside⟩ := hsound.root
  refine ⟨hsound.keyed₀, hsound.keyed, fun key hkey => (hdb _).trans (hsound.leaves key hkey), ?_,
    hsound.batch, frm, children, hroot, hinside.placed, hinside.below, hinside.leaf,
    fun i => (hinside.children i).congr_db hdb⟩
  rcases hsound.stored with ⟨hnone, hempty⟩ | ⟨info, hstored, hrecord⟩
  · exact .inl ⟨(hdb _).trans hnone, hempty⟩
  · exact .inr ⟨info, (hdb _).trans hstored, hrecord.congr_db hdb⟩

theorem Written.congr_db (hwritten : Written codec start trie M)
    (hdb : ∀ key, db'.lookup key = trie.db.lookup key) :
    Written codec start { trie with db := db' } M := by
  obtain ⟨frm, children, hroot, htidy⟩ := hwritten
  exact ⟨frm, children, hroot, htidy.placed, htidy.leaf,
    fun i => (htidy.children i).congr (same_refl M _) fun _ _ => hdb _⟩

/-! ## Batches that write nothing new -/

/-- What the batch writes is there already. -/
def Settled (batch : List Write) (db : Db) : Prop :=
  ∀ key value, lastWrite key batch = some value → db.lookup key = value

theorem settled_nil (db : Db) : Settled [] db :=
  nofun

theorem Settled.lookup_writeBatch (hsettled : Settled batch db) (key : Bytes) :
    (writeBatch batch db).lookup key = db.lookup key := by
  rw [Trie.lookup_writeBatch]
  cases hlast : lastWrite key batch with
  | none => rfl
  | some value => exact (hsettled key value hlast).symm

theorem settled_singleton {write : Write} (hwrite : db.lookup write.key = write.value) :
    Settled [write] db := by
  intro key value hlast
  rw [lastWrite, lastWrite, Option.none_or] at hlast
  by_cases hkey : write.key = key
  · rw [if_pos hkey] at hlast
    rw [← hkey, hwrite, Option.some.inj hlast]
  · rw [if_neg hkey] at hlast
    cases hlast

theorem settled_writeBatch (batch : List Write) (db : Db) :
    Settled batch (writeBatch batch db) := by
  intro key value hlast
  rw [lookup_writeBatch, hlast]
  rfl

theorem Settled.append (hsettled : Settled batch db) (hsettled' : Settled batch' db) :
    Settled (batch ++ batch') db := by
  intro key value hlast
  rw [lastWrite_append] at hlast
  cases hlast' : lastWrite key batch' with
  | none =>
      rw [hlast', Option.none_or] at hlast
      exact hsettled key value hlast
  | some value' =>
      rw [hlast', Option.some_or] at hlast
      exact hsettled' key value (hlast'.trans hlast)

/-- A batch written behind one that is settled is written alone. -/
theorem Settled.lookup_append (hsettled : Settled batch db) (batch' : List Write) (key : Bytes) :
    (writeBatch (batch ++ batch') db).lookup key = (writeBatch batch' db).lookup key := by
  rw [Trie.lookup_writeBatch, Trie.lookup_writeBatch, lastWrite_append]
  cases hlast' : lastWrite key batch' with
  | some value => rfl
  | none =>
      rw [Option.none_or, Option.getD_none, ← Trie.lookup_writeBatch]
      exact hsettled.lookup_writeBatch key

/-! ## Loaded tries -/

variable (codec start) in
/-- The trie stands for `M`, as its database does, and its batch is in the database. -/
structure Loaded (trie : KVTrie) (M : Content) : Prop where
  sound : Sound codec start { trie with batch := [] } M M
  written : Written codec start trie M
  stored : ∃ info, trie.db.lookup (innerKey start []) = some (codec.serialize info) ∧
    RootRecord codec start trie.db M info
  settled : Settled trie.batch trie.db

/-- The root of a trie that is all written is written once more. -/
theorem settled_root {info : Info} (hsound : Sound codec start trie M M)
    (hstored : trie.db.lookup (innerKey start []) = some (codec.serialize info))
    (hrecord : RootRecord codec start trie.db M info)
    (htidy : Tidy codec start trie.db M frm children [] []) :
    Settled (updatedBatch codec start frm children) trie.db := by
  have hclean : ∀ i, updated codec start (children i) (frm.info.children i) =
      (children i, frm.info.children i, []) := by
    intro i
    have hmodified : (children i).modified = false := by
      cases hptr : children i with
      | null => rfl
      | node frm₂ children₂ =>
          have hchild := htidy.children i
          rw [hptr] at hchild
          exact (clean_node_iff.mp hchild).2.1
    rw [updated, hmodified]
    rfl
  have hinfo : updatedInfo codec start frm children = info := by
    have hrecord' : RootRecord codec start trie.db M (updatedInfo codec start frm children) := by
      refine ⟨(updateLeaf_spec start hsound.keyed htidy.placed
        fun _ _ => ⟨htidy.leaf, rfl⟩).1, fun i => ?_⟩
      change Record codec start trie.db M [i]
        (updated codec start (children i) (frm.info.children i)).2.1
      rw [hclean i]
      exact (htidy.children i).record
    exact hrecord'.unique hrecord
  have hlocation : frm.location = rootl := htidy.placed.location
  have hwrite : (updateRecord codec start frm.location info).2 =
      .put (innerKey start []) (codec.serialize info) := by
    rw [updateRecord, hlocation]
    exact congrArg Prod.snd (if_pos rfl)
  have hleaf : Settled (updateLeaf codec start frm).2 trie.db := by
    have hlookup : trie.db.lookup (location2DBkey start frm.location true) = M [] := by
      rw [hlocation]
      exact hsound.leaves [] List.nil_prefix
    unfold updateLeaf
    dsimp only
    split
    · rename_i hdeleted
      exact settled_singleton (hlookup.trans (htidy.placed.deleted hdeleted).1)
    · rename_i hdeleted
      split
      · rename_i v hv
        exact settled_singleton
          (hlookup.trans (htidy.placed.leaf (by simpa using hdeleted) v hv))
      · exact settled_nil _
  have hbatch : updatedBatch codec start frm children =
      (updateLeaf codec start frm).2 ++ [.put (innerKey start []) (codec.serialize info)] := by
    rw [updatedBatch, hinfo, hwrite]
    simp only [hclean]
    rw [List.flatMap_eq_nil_iff.mpr fun _ _ => rfl, List.append_nil]
  rw [hbatch]
  exact hleaf.append (settled_singleton hstored)

/-- **UpdateHash** of a trie that is all written: nothing changes, and the root hash is
that of the map. -/
theorem Loaded.updateHash (hloaded : Loaded codec start trie M) :
    Loaded codec start (trie.updateHash codec start) M ∧
      ∃ info, (trie.updateHash codec start).rootHash = codec.crypto (codec.serialize info) ∧
        RootRecord codec start trie.db M info := by
  obtain ⟨frm, children, hroot, htidy⟩ := hloaded.written
  obtain ⟨info, hstored, hrecord⟩ := hloaded.stored
  have hsettled := settled_root hloaded.sound hstored hrecord htidy
  obtain ⟨hsound, hwritten, info', hhash, -, hrecord'⟩ := sound_flush hloaded.sound
  have hupdate : trie.updateHash codec start =
      { db := trie.db
        batch := trie.batch ++ updatedBatch codec start frm children
        root := (Trie.updateHash codec start (.node frm children)).1
        rootHash := (Trie.updateHash codec start (.node frm children)).2.1.hash } := by
    rw [KVTrie.updateHash, hroot, updateHash_node]
  have hflush : (({ trie with batch := [] } : KVTrie).updateHash codec start).addToDB =
      { db := writeBatch (updatedBatch codec start frm children) trie.db
        root := (Trie.updateHash codec start (.node frm children)).1
        rootHash := (Trie.updateHash codec start (.node frm children)).2.1.hash } := by
    rw [KVTrie.updateHash, hroot, updateHash_node]
    rfl
  rw [hflush] at hsound hwritten hhash hrecord'
  have hback : ∀ key, trie.db.lookup key =
      (writeBatch (updatedBatch codec start frm children) trie.db).lookup key :=
    fun key => (hsettled.lookup_writeBatch key).symm
  rw [hupdate]
  exact ⟨⟨hsound.congr_db hback, hwritten.congr_db hback, ⟨info, hstored, hrecord⟩,
    hloaded.settled.append hsettled⟩, info', hhash, hrecord'.congr_db hback⟩

theorem db_init {depth : ℤ} (hinit : KVTrie.init codec start db depth = some trie) :
    trie.db = db := by
  rw [KVTrie.init] at hinit
  split at hinit
  · cases hinit
    rfl
  · obtain ⟨root, -, rfl⟩ := Option.map_eq_some_iff.mp hinit
    rfl

/-- **Init** on the database of a loaded trie. -/
theorem Loaded.init (hloaded : Loaded codec start trie M) (depth : ℤ) :
    ∃ trie', KVTrie.init codec start trie.db depth = some trie' ∧ trie'.db = trie.db ∧
      Loaded codec start trie' M := by
  obtain ⟨trie', hinit, hsound, hwritten⟩ := hloaded.sound.stands.init depth
  have hdb := db_init hinit
  have hbatch := hsound.batch
  refine ⟨trie', hinit, hdb, ?_, hwritten, ?_, ?_⟩
  · rw [← hbatch]
    exact hsound
  · rw [hdb]
    exact hloaded.stored
  · rw [hbatch]
    exact settled_nil _

theorem get_batch (trie : KVTrie) (batch : List Write) (key : Bytes) :
    ({ trie with batch := batch } : KVTrie).get codec start key =
      (trie.get codec start key).map fun r => (r.1, { r.2 with batch := batch }) := by
  unfold KVTrie.get
  cases trie.root with
  | null => rfl
  | node root children =>
      dsimp only
      cases existsItem codec start trie.db (key2Location key) (KVTrie.fuel key) root children <;>
        rfl

/-- **Get** of a loaded trie. -/
theorem Loaded.get (hloaded : Loaded codec start trie M) (key : Bytes) :
    (trie.get codec start key).map Prod.fst = some (M (nibbles key)) := by
  obtain ⟨trie', hget, -, -⟩ := sound_get hloaded.sound hloaded.written key
  rw [get_batch] at hget
  obtain ⟨r, hget', heq⟩ := Option.map_eq_some_iff.mp hget
  rw [hget', Option.map_some]
  exact congrArg some (congrArg Prod.fst heq)

/-! ## Changes to a loaded trie -/

/-- The map after these items were set. -/
def overwrite (M : Content) (items : List (Bytes × Bytes)) : Content :=
  items.foldl (fun M item => Function.update M (nibbles item.1) (some item.2)) M

theorem set_batch (trie : KVTrie) (batch : List Write) (key value : Bytes) :
    ({ trie with batch := batch } : KVTrie).set codec start key value =
      (trie.set codec start key value).map fun r => (r.1, { r.2 with batch := batch }) := by
  unfold KVTrie.set
  cases trie.root with
  | null => rfl
  | node root children =>
      dsimp only
      cases setItem codec start trie.db (key2Location key) value (KVTrie.fuel key) root children <;>
        rfl

theorem db_set {added : Bool} {key value : Bytes}
    (hset : trie.set codec start key value = some (added, trie')) :
    trie'.db = trie.db ∧ trie'.batch = trie.batch := by
  unfold KVTrie.set at hset
  cases hroot : trie.root with
  | null =>
      rw [hroot] at hset
      cases hset
  | node root children =>
      rw [hroot] at hset
      obtain ⟨r, -, heq⟩ := Option.bind_eq_some_iff.mp hset
      cases heq
      exact ⟨rfl, rfl⟩

/-- **Set**, whatever is in the batch. -/
theorem exists_set (hsound : Sound codec start { trie with batch := [] } M₀ M)
    (key value : Bytes) :
    ∃ added trie', trie.set codec start key value = some (added, trie') ∧
      trie'.db = trie.db ∧ trie'.batch = trie.batch ∧
      KVTrie.set codec start key value { trie with batch := [] } =
        some (added, { trie' with batch := [] }) ∧
      Sound codec start { trie' with batch := [] } M₀
        (Function.update M (nibbles key) (some value)) := by
  obtain ⟨added, emptied, hset, hsound'⟩ := sound_set hsound key value
  have hbatch := hset
  rw [set_batch] at hbatch
  obtain ⟨⟨added', trie'⟩, hset', heq⟩ := Option.map_eq_some_iff.mp hbatch
  cases heq
  obtain ⟨hdb, hsame⟩ := db_set hset'
  exact ⟨added', trie', hset', hdb, hsame, hset, hsound'⟩

/-- The rule for any number of items that are set: what holds of a trie and its map is kept. -/
theorem sets_invariant {P : KVTrie → Content → Prop}
    (hstep : ∀ {trie : KVTrie} {M : Content} (key value : Bytes), P trie M →
      ∃ added trie', trie.set codec start key value = some (added, trie') ∧
        trie'.db = trie.db ∧ trie'.batch = trie.batch ∧
        P trie' (Function.update M (nibbles key) (some value)))
    (items : List (Bytes × Bytes)) :
    ∀ {trie : KVTrie} {M : Content}, P trie M →
      ∃ trie', items.foldlM (fun trie item =>
          (KVTrie.set codec start item.1 item.2 trie).map Prod.snd) trie = some trie' ∧
        trie'.db = trie.db ∧ trie'.batch = trie.batch ∧ P trie' (overwrite M items) := by
  induction items with
  | nil =>
      intro trie M hP
      exact ⟨trie, rfl, rfl, rfl, hP⟩
  | cons item items ih =>
      intro trie M hP
      obtain ⟨added, trie₁, hset, hdb, hbatch, hP₁⟩ := hstep item.1 item.2 hP
      obtain ⟨trie', hrest, hdb', hbatch', hP'⟩ := ih hP₁
      refine ⟨trie', ?_, hdb'.trans hdb, hbatch'.trans hbatch, hP'⟩
      rw [List.foldlM_cons, hset]
      exact hrest

/-- **Set**, any number of times. -/
theorem exists_sets (items : List (Bytes × Bytes))
    (hsound : Sound codec start { trie with batch := [] } M₀ M) :
    ∃ trie', items.foldlM (fun trie item =>
        (KVTrie.set codec start item.1 item.2 trie).map Prod.snd) trie = some trie' ∧
      trie'.db = trie.db ∧ trie'.batch = trie.batch ∧
      Sound codec start { trie' with batch := [] } M₀ (overwrite M items) := by
  refine sets_invariant (P := fun trie M => Sound codec start { trie with batch := [] } M₀ M)
    (fun key value hsound => ?_) items hsound
  obtain ⟨added, trie', hset, hdb, hbatch, -, hsound'⟩ := exists_set hsound key value
  exact ⟨added, trie', hset, hdb, hbatch, hsound'⟩

/-- **UpdateHash and the write of the whole batch**, which may be emptied or not. -/
theorem loaded_flush (hsound : Sound codec start { trie with batch := [] } M₀ M)
    (hsettled : Settled trie.batch trie.db) :
    let trie' := trie.updateHash codec start
    let db' := writeBatch trie'.batch trie'.db
    Loaded codec start { trie' with db := db' } M ∧
      Loaded codec start { trie' with db := db', batch := [] } M ∧
      ∃ info, trie'.rootHash = codec.crypto (codec.serialize info) ∧
        RootRecord codec start db' M info := by
  intro trie' db'
  obtain ⟨hsound', hwritten, info, hhash, hstored, hrecord⟩ := sound_flush hsound
  have hsame : ∀ key, db'.lookup key =
      ((({ trie with batch := [] } : KVTrie).updateHash codec start).addToDB).db.lookup key :=
    fun key => hsettled.lookup_append _ key
  have hsound'' := hsound'.congr_db hsame
  have hwritten' := hwritten.congr_db hsame
  have hrecord' := hrecord.congr_db hsame
  have hstored' := (hsame (innerKey start [])).trans hstored
  exact ⟨⟨hsound'', hwritten', ⟨info, hstored', hrecord'⟩, settled_writeBatch _ _⟩,
    ⟨hsound'', hwritten', ⟨info, hstored', hrecord'⟩, settled_nil _⟩, info, hhash, hrecord'⟩

/-- **FreeMemory** of a loaded trie. -/
theorem Loaded.freeMemory (hloaded : Loaded codec start trie M) (depth : ℤ) :
    Loaded codec start (trie.freeMemory depth) M := by
  obtain ⟨hsound, hwritten⟩ := sound_free hloaded.sound hloaded.written depth
  exact ⟨hsound, hwritten, hloaded.stored, hloaded.settled⟩

/-! ## The root hash determines the map -/

theorem serialize_injective (codec : Codec) : Function.Injective codec.serialize :=
  Function.LeftInverse.injective codec.parse_serialize

theorem leafRecord_injective (hcrypto : Function.Injective codec.crypto) {v v' : Option Bytes}
    (heq : leafRecord codec q v = leafRecord codec q v') : v = v' := by
  cases v with
  | none =>
      cases v' with
      | none => rfl
      | some _ => cases congrArg Child.childtype heq
  | some v =>
      cases v' with
      | none => cases congrArg Child.childtype heq
      | some v' => rw [hcrypto (congrArg Child.hash heq)]

/-- Two maps with one record agree below its path. -/
theorem Record.same (hcrypto : Function.Injective codec.crypto)
    (hrecord : Record codec start db M p c) :
    ∀ {start' : Bytes} {db' : Db} {c' : Child}, Record codec start' db' M' p c' → c = c' →
      Same M M' p := by
  induction hrecord with
  | empty hnone =>
      intro start' db' c' hrecord' hc k hk
      rw [hnone k hk]
      exact (hrecord'.of_none (by rw [← hc])).2 k hk
  | @leaf p q v hpre hvalue hother =>
      intro start' db' c' hrecord' hc k hk
      cases hrecord' with
      | empty hnone => cases congrArg Child.childtype hc
      | inner => cases congrArg Child.childtype hc
      | @leaf _ q' v' hpre' hvalue' hother' =>
          obtain rfl : q = q' := encode_injective (congrArg Child.sublocation hc)
          obtain rfl : v = v' := hcrypto (congrArg Child.hash hc)
          by_cases heq : k = q
          · rw [heq, hvalue, hvalue']
          · rw [hother k hk heq, hother' k hk heq]
  | @inner p q info hpre hbelow hleaf hchildren hbranches hstored ih =>
      intro start' db' c' hrecord' hc k hk
      cases hrecord' with
      | empty hnone => cases congrArg Child.childtype hc
      | leaf => cases congrArg Child.childtype hc
      | @inner _ q' info' hpre' hbelow' hleaf' hchildren' hbranches' hstored' =>
          obtain rfl : q = q' := encode_injective (congrArg Child.sublocation hc)
          obtain rfl : info = info' :=
            serialize_injective codec (hcrypto (congrArg Child.hash hc))
          by_cases hq : q <+: k
          · by_cases heq : k = q
            · rw [heq]
              exact (leafRecord_injective hcrypto (hleaf.symm.trans hleaf')).symm
            · obtain ⟨i, hi⟩ := exists_next hq (Ne.symm heq)
              exact ih i (hchildren' i) rfl k hi
          · have hnone : M k = none := by
              by_contra hkey
              exact hq (hbelow k hk hkey)
            have hnone' : M' k = none := by
              by_contra hkey
              exact hq (hbelow' k hk hkey)
            rw [hnone, hnone']

/-- **The root hash determines the map.** -/
theorem RootRecord.content_eq (hcrypto : Function.Injective codec.crypto) {info info' : Info}
    {start' : Bytes} (hrecord : RootRecord codec start db M info)
    (hrecord' : RootRecord codec start' db' M' info')
    (hhash : codec.crypto (codec.serialize info) = codec.crypto (codec.serialize info')) :
    M = M' := by
  obtain rfl : info = info' := serialize_injective codec (hcrypto hhash)
  funext k
  cases k with
  | nil => exact leafRecord_injective hcrypto (hrecord.leaf.symm.trans hrecord'.leaf)
  | cons i k =>
      have hsame := (hrecord.children i).same hcrypto (hrecord'.children i) rfl
      exact (hsame (i :: k) ⟨k, rfl⟩).symm

/-- The write at the end of a history. -/
theorem run_concat_flush {depth : ℤ} {ops : List Op}
    (hrun : run codec start db depth ops = some trie) :
    run codec start db depth (ops ++ [.flush]) = some (trie.updateHash codec start).addToDB := by
  obtain ⟨trie₀, hinit, hrun⟩ := Option.bind_eq_some_iff.mp hrun
  rw [run, hinit, Option.bind_eq_bind, Option.bind_some, List.foldlM_append, hrun]
  rfl

/-- A history that ends in a write leaves a record of its map under the root hash. -/
theorem rootRecord_run (codec : Codec) (hunused : Unused start db) {depth : ℤ} {ops : List Op}
    (hallows : ({} : Books).AllowsAll ops)
    (hrun : run codec start db depth (ops ++ [.flush]) = some trie) :
    ∃ info, trie.rootHash = codec.crypto (codec.serialize info) ∧
      RootRecord codec start trie.db (content (({} : Books).afterAll ops).now) info := by
  obtain ⟨before, hbefore, hkept⟩ := run_kept codec hunused depth hallows
  rw [run_concat_flush hbefore] at hrun
  obtain ⟨-, -, info, hhash, -, hinfo⟩ := sound_flush hkept.sound
  cases hrun
  exact ⟨info, hhash, hinfo⟩

/-- **One root pins the map.** Two histories that end in a write and leave one root hash leave
the same map, in whatever databases and with whatever in memory. -/
theorem map_eq_of_rootHash (hcrypto : Function.Injective codec.crypto) {start' : Bytes}
    {ops ops' : List Op} (hunused : Unused start db) (hunused' : Unused start' db')
    {depth depth' : ℤ} (hallows : ({} : Books).AllowsAll ops)
    (hallows' : ({} : Books).AllowsAll ops')
    (hrun : run codec start db depth (ops ++ [.flush]) = some trie)
    (hrun' : run codec start' db' depth' (ops' ++ [.flush]) = some trie')
    (hroot : trie.rootHash = trie'.rootHash) :
    (({} : Books).afterAll ops).now = (({} : Books).afterAll ops').now := by
  obtain ⟨info, hhash, hrecord⟩ := rootRecord_run codec hunused hallows hrun
  obtain ⟨info', hhash', hrecord'⟩ := rootRecord_run codec hunused' hallows' hrun'
  rw [hhash, hhash'] at hroot
  have hcontent := hrecord.content_eq hcrypto hrecord' hroot
  funext key
  rw [← content_nibbles (({} : Books).afterAll ops).now, hcontent, content_nibbles]

/-- A trie that was written once, and one that had another key in between. -/
theorem map_eq_of_rootHash_delete :
    let ops : List Op := [.set [1] [5], .flush, .set [2] [6], .flush, .free 1, .delete [2]]
    let ops' : List Op := [.set [1] [5]]
    (({} : Books).afterAll ops).now = (({} : Books).afterAll ops').now := by
  intro ops ops'
  have hrun : ∃ trie, run (.protobuf id) [] ∅ 1 (ops ++ [.flush]) = some trie ∧
      ∃ trie', run (.protobuf id) [] ∅ 1 (ops' ++ [.flush]) = some trie' ∧
        trie.rootHash = trie'.rootHash := by
    decide +kernel
  obtain ⟨trie, hrun, trie', hrun', hroot⟩ := hrun
  exact map_eq_of_rootHash Function.injective_id (unused_empty []) (unused_empty [])
    ⟨trivial, trivial, trivial, trivial, rfl, trivial, trivial⟩ ⟨trivial, trivial⟩ hrun hrun' hroot

end CegChain.Trie
