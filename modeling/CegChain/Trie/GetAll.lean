import CegChain.Trie.Trimmed

/-!
# Enumerating a prefix

`GetAll` goes down the records to the one at or below the prefix, and `StorageAssociated`
collects the values from there.  Only nodes where keys part have records: where a single
key is left on the way, `GetAllItem` looks for a record at its leaf, finds none, and
returns nothing.  So `GetAll` gives what it should unless exactly one key has the prefix
(`getAll_run_iff`); the empty prefix, which is that of the root, is all its callers use.
-/

namespace CegChain.Trie

open Paths Layers

/-! ## The functions of the source -/

section

variable (codec : Codec) (start : Bytes) (db : Db)

/-- The value that is pushed for a leaf, an empty one if it is not stored. -/
def leafValue (location : Location) : Bytes :=
  (storageGetLeaf start db location).getD []

/-- The `switch` of `StorageAssociated`. -/
def childValues (storageAssociated : Location → Option (List Bytes)) (chd : Child) :
    Option (List Bytes) :=
  match chd.childtype with
  | .none => some []
  | .inner => storageAssociated chd.sublocation
  | .leaf => some [leafValue start db chd.sublocation]

/-- `Trie::StorageAssociated`: what is pushed.  The recursion is bounded by `fuel`. -/
def storageAssociated : ℕ → Location → Option (List Bytes)
  | 0, _ => none
  | fuel + 1, location =>
      match storageLoad codec start db location with
      | none => some []
      | some info => do
          let own := if info.leaf.childtype = .leaf then [leafValue start db location] else []
          let below ← (List.finRange 16).mapM fun i =>
            childValues start db (storageAssociated fuel) (info.children i)
          some (own ++ below.flatten)

/-- `Trie::GetAllItem`. -/
def getAllItem (location : Location) : ℕ → Location → Option (List Bytes)
  | 0, _ => none
  | fuel + 1, node =>
      match storageLoad codec start db node with
      | none => some []
      | some info =>
          let common := commonPrefix node location
          if common = location then storageAssociated codec start db (fuel + 1) node
          else if common = node then do
            let nextbranch ← nextBranch common location
            getAllItem location fuel (info.children nextbranch).sublocation
          else some []

/-- `Trie::GetAll`. -/
def getAll (fuel : ℕ) (key : Bytes) : Option (List Bytes) :=
  getAllItem codec start db (key2Location key) fuel rootl

end

variable {codec : Codec} {start : Bytes} {db : Db} {M : Content} {p q r : Path} {c : Child}
  {values : List Bytes}

/-! ## Listings -/

/-- The values of the keys below a path, each key once. -/
def Listing (M : Content) (p : Path) (values : List Bytes) : Prop :=
  ∃ keys : List Path, keys.Nodup ∧ (∀ k, k ∈ keys ↔ p <+: k ∧ M k ≠ none) ∧
    keys.map M = values.map some

/-- Exactly one key is below the path. -/
def Lone (M : Content) (p : Path) : Prop :=
  ∃! k, p <+: k ∧ M k ≠ none

theorem listing_nil (hnone : ∀ k, p <+: k → M k = none) : Listing M p [] :=
  ⟨[], List.nodup_nil, fun k => iff_of_false List.not_mem_nil fun h => h.2 (hnone k h.1), rfl⟩

theorem not_lone_of_none (hnone : ∀ k, p <+: k → M k = none) : ¬Lone M p := by
  rintro ⟨k, ⟨hk, hkey⟩, -⟩
  exact hkey (hnone k hk)

/-- One value is not none, and two keys are not one. -/
theorem Lone.not_listing_nil (hlone : Lone M p) : ¬Listing M p [] := by
  rintro ⟨keys, -, hmem, hvalues⟩
  obtain ⟨k, hk, -⟩ := hlone
  rw [List.map_nil, List.map_eq_nil_iff] at hvalues
  have hin := (hmem k).mpr hk
  rw [hvalues] at hin
  exact List.not_mem_nil hin

theorem Forked.not_lone (hforked : Forked M q) (hpre : p <+: q) : ¬Lone M p := by
  rintro ⟨k₀, -, hunique⟩
  obtain ⟨k, k', hk, hk', hkey, hkey', hne, -⟩ := hforked
  exact hne ((hunique k ⟨hpre.trans hk, hkey⟩).trans (hunique k' ⟨hpre.trans hk', hkey'⟩).symm)

theorem listing_leaf {v : Bytes} (hpre : p <+: q) (hvalue : M q = some v)
    (hother : ∀ k, p <+: k → k ≠ q → M k = none) : Listing M p [v] := by
  refine ⟨[q], List.nodup_singleton q, fun k => ?_, by rw [List.map_singleton, hvalue]; rfl⟩
  rw [List.mem_singleton]
  constructor
  · rintro rfl
    exact ⟨hpre, by rw [hvalue]; simp⟩
  · rintro ⟨hk, hkey⟩
    by_contra hne
    exact hkey (hother k hk hne)

/-- The path is made shorter without gaining a key. -/
theorem Listing.widen (hlisting : Listing M q values) (hpre : p <+: q) (hbelow : Below M p q) :
    Listing M p values := by
  obtain ⟨keys, hnodup, hmem, hvalues⟩ := hlisting
  refine ⟨keys, hnodup, fun k => ?_, hvalues⟩
  rw [hmem]
  exact ⟨fun h => ⟨hpre.trans h.1, h.2⟩, fun h => ⟨hbelow k h.1 h.2, h.2⟩⟩

/-- A node has its own value, if it has one, and those of its branches. -/
theorem listing_node {below : Nibble → List Bytes} (hbelow : ∀ i, Listing M (q ++ [i]) (below i)) :
    Listing M q ((M q).toList ++ (List.finRange 16).flatMap below) := by
  choose keys hnodup hmem hvalues using hbelow
  have howned : ∀ k, k ∈ (if M q = none then [] else [q]) ↔ k = q ∧ M k ≠ none := by
    intro k
    split_ifs with hnone
    · refine iff_of_false List.not_mem_nil ?_
      rintro ⟨rfl, hkey⟩
      exact hkey hnone
    · rw [List.mem_singleton]
      refine ⟨?_, And.left⟩
      rintro rfl
      exact ⟨rfl, hnone⟩
  refine ⟨(if M q = none then [] else [q]) ++ (List.finRange 16).flatMap keys, ?_, fun k => ?_, ?_⟩
  · rw [List.nodup_append]
    refine ⟨by split_ifs <;> simp, ?_, ?_⟩
    · rw [List.nodup_flatMap]
      refine ⟨fun i _ => hnodup i, (List.nodup_finRange 16).imp fun {i j} hij k hi hj => ?_⟩
      exact hij (next_unique ((hmem i k).mp hi).1 ((hmem j k).mp hj).1)
    · rintro k hk k' hk' rfl
      obtain ⟨i, -, hi⟩ := List.mem_flatMap.mp hk'
      obtain ⟨rfl, -⟩ := (howned k).mp hk
      exact not_prefix_next_self k i ((hmem i k).mp hi).1
  · rw [List.mem_append, howned, List.mem_flatMap]
    constructor
    · rintro (⟨rfl, hkey⟩ | ⟨i, -, hi⟩)
      · exact ⟨List.prefix_rfl, hkey⟩
      · obtain ⟨hk, hkey⟩ := (hmem i k).mp hi
        exact ⟨(List.prefix_append q [i]).trans hk, hkey⟩
    · rintro ⟨hk, hkey⟩
      by_cases heq : q = k
      · exact .inl ⟨heq.symm, hkey⟩
      · obtain ⟨i, hi⟩ := exists_next hk heq
        exact .inr ⟨i, List.mem_finRange i, (hmem i k).mpr ⟨hi, hkey⟩⟩
  · rw [List.map_append, List.map_append, List.map_flatMap, List.map_flatMap]
    congr 1
    · cases hvalue : M q <;> simp [hvalue]
    · exact List.flatMap_congr fun i _ => hvalues i

/-! ## What `StorageAssociated` collects -/

/-- From some fuel on this is what is collected. -/
def Gives (f : ℕ → Option (List Bytes)) (values : List Bytes) : Prop :=
  ∃ fuel₀, ∀ fuel, fuel₀ ≤ fuel → f fuel = some values

theorem mapM_eq_some {α β : Type*} {f : α → Option β} {g : α → β} {list : List α}
    (hf : ∀ a ∈ list, f a = some (g a)) : list.mapM f = some (list.map g) := by
  induction list with
  | nil => rfl
  | cons a list ih =>
      rw [List.mapM_cons, hf a List.mem_cons_self,
        ih fun b hb => hf b (List.mem_cons_of_mem a hb)]
      rfl

/-- The values of a leaf are in the database. -/
theorem leafValue_encode {v : Bytes} (hkeyed : Keyed M) (hleaves : Leaves start db M [])
    (hvalue : M q = some v) : leafValue start db (encode q) = v := by
  obtain ⟨key, rfl⟩ := hkeyed q (by rw [hvalue]; simp)
  have hlookup : storageGetLeaf start db (encode (nibbles key)) = M (nibbles key) :=
    hleaves key List.nil_prefix
  rw [leafValue, hlookup, hvalue]
  rfl

/-- A node with its record: its own value, then its branches one after another. -/
theorem gives_node {info : Info} {below : Nibble → List Bytes} (hkeyed : Keyed M)
    (hleaves : Leaves start db M []) (hleaf : info.leaf = leafRecord codec q (M q))
    (hstored : db.lookup (innerKey start q) = some (codec.serialize info))
    (hbelow : ∀ i, Gives (fun fuel => childValues start db (storageAssociated codec start db fuel)
      (info.children i)) (below i)) :
    Gives (fun fuel => storageAssociated codec start db fuel (encode q))
      ((M q).toList ++ (List.finRange 16).flatMap below) := by
  choose fuel₀ hbelow using hbelow
  refine ⟨Finset.univ.sup fuel₀ + 1, fun fuel hfuel => ?_⟩
  obtain ⟨fuel, rfl⟩ : ∃ n, fuel = n + 1 := ⟨fuel - 1, by omega⟩
  have hload : storageLoad codec start db (encode q) = some info := by
    change (db.lookup (innerKey start q)).map codec.parse = some info
    rw [hstored, Option.map_some, codec.parse_serialize]
  have hown : (if info.leaf.childtype = .leaf then [leafValue start db (encode q)] else []) =
      (M q).toList := by
    cases hvalue : M q with
    | none => rw [hleaf, hvalue, if_neg (by simp [leafRecord])]; rfl
    | some v =>
        have hchild : (leafRecord codec q (some v)).childtype = .leaf := rfl
        rw [hleaf, hvalue, if_pos hchild, leafValue_encode hkeyed hleaves hvalue]
        rfl
  have hchildren : (List.finRange 16).mapM (fun i =>
      childValues start db (storageAssociated codec start db fuel) (info.children i)) =
        some ((List.finRange 16).map below) := by
    refine mapM_eq_some fun i _ => hbelow i fuel ?_
    have hle : fuel₀ i ≤ Finset.univ.sup fuel₀ := Finset.le_sup (Finset.mem_univ i)
    omega
  simp only [storageAssociated, hload, hown, hchildren]
  rw [List.flatMap_def]
  rfl

/-- **All values below a record are collected, each once.** -/
theorem exists_listing (hkeyed : Keyed M) (hleaves : Leaves start db M [])
    (hrecord : Record codec start db M p c) :
    ∃ values, Gives (fun fuel => childValues start db (storageAssociated codec start db fuel) c)
      values ∧ Listing M p values := by
  induction hrecord with
  | empty hnone => exact ⟨[], ⟨0, fun _ _ => rfl⟩, listing_nil hnone⟩
  | @leaf p q v hpre hvalue hother =>
      refine ⟨[v], ⟨0, fun fuel _ => ?_⟩, listing_leaf hpre hvalue hother⟩
      change some [leafValue start db (encode q)] = some [v]
      rw [leafValue_encode hkeyed hleaves hvalue]
  | @inner p q info hpre hbelow hleaf hchildren hbranches hstored ih =>
      choose below hgives hlisting using ih
      exact ⟨_, gives_node hkeyed hleaves hleaf hstored hgives,
        (listing_node hlisting).widen hpre hbelow⟩

/-! ## The way down -/

/-- What a call gives for a prefix: the values below it, or nothing where a single key is
below it. -/
def Answers (f : ℕ → Option (List Bytes)) (M : Content) (r : Path) : Prop :=
  ∃ values, Gives f values ∧ (¬Lone M r ∧ Listing M r values ∨ Lone M r ∧ values = [])

theorem gives_none {f : ℕ → Option (List Bytes)} (hf : ∀ fuel, f (fuel + 1) = some []) :
    Gives f [] := by
  refine ⟨1, fun fuel hfuel => ?_⟩
  obtain ⟨fuel, rfl⟩ : ∃ n, fuel = n + 1 := ⟨fuel - 1, by omega⟩
  exact hf fuel

/-- A location without a record. -/
theorem gives_of_not_stored {node location : Location}
    (hnone : storageLoad codec start db node = none) :
    Gives (fun fuel => getAllItem codec start db location fuel node) [] :=
  gives_none fun fuel => by simp only [getAllItem, hnone]

/-- A node strictly above the prefix passes the search on to one branch. -/
theorem answers_next {info : Info} {i : Nibble}
    (hload : storageLoad codec start db (encode q) = some info) (hi : q ++ [i] <+: r)
    (hnext : Answers (fun fuel => getAllItem codec start db (encode r) fuel
      (info.children i).sublocation) M r) :
    Answers (fun fuel => getAllItem codec start db (encode r) fuel (encode q)) M r := by
  obtain ⟨values, ⟨fuel₀, hgives⟩, hvalues⟩ := hnext
  have hqr : q <+: r := (List.prefix_append q [i]).trans hi
  have hne : encode q ≠ encode r := by
    intro heq
    rw [← encode_injective heq] at hi
    exact not_prefix_next_self q i hi
  refine ⟨values, ⟨fuel₀ + 1, fun fuel hfuel => ?_⟩, hvalues⟩
  obtain ⟨fuel, rfl⟩ : ∃ n, fuel = n + 1 := ⟨fuel - 1, by omega⟩
  have hcommon : commonPrefix (encode q) (encode r) = encode q := by
    rw [commonPrefix_encode, common_eq_left hqr]
  simp only [getAllItem, hload, hcommon, if_neg hne, nextBranch_encode hi]
  exact hgives fuel (by omega)

/-- A node at or below the prefix. -/
theorem gives_associated {info : Info} (hload : storageLoad codec start db (encode q) = some info)
    (hpre : r <+: q)
    (hgives : Gives (fun fuel => storageAssociated codec start db fuel (encode q)) values) :
    Gives (fun fuel => getAllItem codec start db (encode r) fuel (encode q)) values := by
  obtain ⟨fuel₀, hgives⟩ := hgives
  refine ⟨fuel₀ + 1, fun fuel hfuel => ?_⟩
  obtain ⟨fuel, rfl⟩ : ∃ n, fuel = n + 1 := ⟨fuel - 1, by omega⟩
  have hcommon : commonPrefix (encode q) (encode r) = encode r := by
    rw [commonPrefix_encode, common_eq_right_iff.mpr hpre]
  simp only [getAllItem, hload, hcommon]
  exact hgives (fuel + 1) (by omega)

/-- **From a record on the way to the prefix.** -/
theorem answers_record (hkeyed : Keyed M) (hleaves : Leaves start db M [])
    (htrimmed : Trimmed start db M []) (hbare : db.lookup start = none)
    (hrecord : Record codec start db M p c) (hroot : p ≠ []) (hpr : p <+: r) :
    Answers (fun fuel => getAllItem codec start db (encode r) fuel c.sublocation) M r := by
  have hload : ∀ {q : Path} {info : Info},
      db.lookup (location2DBkey start (encode q) false) = some (codec.serialize info) →
      storageLoad codec start db (encode q) = some info := by
    intro q info hstored
    rw [storageLoad, hstored, Option.map_some, codec.parse_serialize]
  induction hrecord with
  | @empty p hnone =>
      have hnone' : ∀ k, r <+: k → M k = none := fun k hk => hnone k (hpr.trans hk)
      have hbare' : storageLoad codec start db [] = none := by
        rw [storageLoad, location2DBkey, if_neg Bool.false_ne_true, List.append_nil, hbare]
        rfl
      exact ⟨[], gives_of_not_stored hbare', .inl ⟨not_lone_of_none hnone', listing_nil hnone'⟩⟩
  | @leaf p q v hpre hvalue hother =>
      have hload' : storageLoad codec start db (encode q) = none := by
        -- a stored record would be a place where keys part
        by_contra hsome
        have hstored : db.lookup (innerKey start q) ≠ none :=
          fun hnone => hsome (congrArg (Option.map codec.parse) hnone)
        have hq : q ≠ [] := by
          rintro rfl
          exact hroot (List.prefix_nil.mp hpre)
        obtain ⟨k, k', hk, hk', hkey, hkey', hne, -⟩ := htrimmed q List.nil_prefix hq hstored
        by_cases heq : k = q
        · exact hkey' (hother k' (hpre.trans hk') fun h => hne (heq.trans h.symm))
        · exact hkey (hother k (hpre.trans hk) heq)
      refine ⟨[], gives_of_not_stored hload', ?_⟩
      by_cases hrq : r <+: q
      · refine .inr ⟨⟨q, ⟨hrq, by rw [hvalue]; simp⟩, fun k hk => ?_⟩, rfl⟩
        by_contra hne
        exact hk.2 (hother k (hpr.trans hk.1) hne)
      · have hnone : ∀ k, r <+: k → M k = none := by
          intro k hk
          refine hother k (hpr.trans hk) ?_
          rintro rfl
          exact hrq hk
        exact .inl ⟨not_lone_of_none hnone, listing_nil hnone⟩
  | @inner p q info hpre hbelow hleaf hchildren hbranches hstored ih =>
      have hload' := hload hstored
      by_cases hrq : r <+: q
      · choose below hgives hlisting using fun i => exists_listing hkeyed hleaves (hchildren i)
        have hforked : Forked M q := exists_fork_of_branches hleaf hchildren hbranches
        refine ⟨_, gives_associated hload' hrq
          (gives_node hkeyed hleaves hleaf hstored hgives), .inl ⟨hforked.not_lone hrq, ?_⟩⟩
        exact (listing_node hlisting).widen hrq fun k hk hkey => hbelow k (hpr.trans hk) hkey
      · by_cases hqr : q <+: r
        · obtain ⟨i, hi⟩ := exists_next hqr fun heq => hrq (heq ▸ List.prefix_rfl)
          exact answers_next hload' hi (ih i (by simp) hi)
        · -- the prefix leaves the edge to the node
          have hcommon : commonPrefix (encode q) (encode r) = encode (common q r) :=
            commonPrefix_encode q r
          have hne : encode (common q r) ≠ encode r := fun heq =>
            hrq (common_eq_right_iff.mp (encode_injective heq))
          have hne' : encode (common q r) ≠ encode q := fun heq =>
            hqr (common_eq_left_iff.mp (encode_injective heq))
          have hnone : ∀ k, r <+: k → M k = none := by
            intro k hk
            by_contra hkey
            rcases List.prefix_or_prefix_of_prefix hk (hbelow k (hpr.trans hk) hkey) with h | h
            · exact hrq h
            · exact hqr h
          refine ⟨[], gives_none fun fuel => ?_,
            .inl ⟨not_lone_of_none hnone, listing_nil hnone⟩⟩
          simp only [getAllItem, hload', hcommon, if_neg hne, if_neg hne']

/-! ## From the root -/

/-- **GetAll on a database that stands for a map.** -/
theorem answers_getAll {trie : KVTrie} {M₀ : Content} (hsound : Sound codec start trie M₀ M)
    (htrimmed : Trimmed start trie.db M₀ []) (hbare : trie.db.lookup start = none) (key : Bytes) :
    ∃ values, Gives (fun fuel => getAll codec start trie.db fuel key) values ∧
      ((key = [] ∨ ¬Lone M₀ (nibbles key)) ∧ Listing M₀ (nibbles key) values ∨
        key ≠ [] ∧ Lone M₀ (nibbles key) ∧ values = []) := by
  have hlocation : encode [] = rootl := rfl
  simp only [getAll, ← encode_nibbles, ← hlocation]
  rcases hsound.stored with ⟨hnone, hempty⟩ | ⟨info, hstored, hrecord⟩
  · have hload : storageLoad codec start trie.db (encode []) = none :=
      congrArg (Option.map codec.parse) hnone
    have hnone' : ∀ k, nibbles key <+: k → M₀ k = none := fun k _ => hempty k
    exact ⟨[], gives_of_not_stored hload,
      .inl ⟨.inr (not_lone_of_none hnone'), listing_nil hnone'⟩⟩
  · have hload : storageLoad codec start trie.db (encode []) = some info := by
      change (trie.db.lookup (innerKey start [])).map codec.parse = some info
      rw [hstored, Option.map_some, codec.parse_serialize]
    cases key with
    | nil =>
        choose below hgives hlisting using fun i =>
          exists_listing hsound.keyed₀ hsound.leaves (hrecord.children i)
        exact ⟨_, gives_associated hload List.nil_prefix
            (gives_node hsound.keyed₀ hsound.leaves hrecord.leaf hstored hgives),
          .inl ⟨.inl rfl, listing_node hlisting⟩⟩
    | cons ch key =>
        have hpre : [high ch] <+: nibbles (ch :: key) := ⟨low ch :: nibbles key, rfl⟩
        have hanswers := answers_record hsound.keyed₀ hsound.leaves htrimmed hbare
          (hrecord.children (high ch)) (List.cons_ne_nil _ _) hpre
        obtain ⟨values, hgives, ⟨hlone, hlisting⟩ | ⟨hlone, rfl⟩⟩ :=
          answers_next (q := []) hload hpre hanswers
        · exact ⟨values, hgives, .inl ⟨.inr hlone, hlisting⟩⟩
        · exact ⟨[], hgives, .inr ⟨List.cons_ne_nil _ _, hlone, rfl⟩⟩

/-! ## Keys -/

/-- The values of the keys that start with a prefix, each key once. -/
def Listed (map : Bytes → Option Bytes) (key : Bytes) (values : List Bytes) : Prop :=
  ∃ keys : List Bytes, keys.Nodup ∧ (∀ k, k ∈ keys ↔ key <+: k ∧ map k ≠ none) ∧
    keys.map map = values.map some

theorem nibbles_prefix_iff {key k : Bytes} : nibbles key <+: nibbles k ↔ key <+: k := by
  induction key generalizing k with
  | nil => exact iff_of_true List.nil_prefix List.nil_prefix
  | cons ch key ih =>
      cases k with
      | nil => simp [nibbles]
      | cons ch' k =>
          have hbyte : high ch = high ch' ∧ low ch = low ch' ↔ ch = ch' := by
            constructor
            · rintro ⟨hhigh, hlow⟩
              rw [← pack_high_low ch, hhigh, hlow, pack_high_low]
            · rintro rfl
              exact ⟨rfl, rfl⟩
          rw [nibbles, nibbles, List.cons_prefix_cons, List.cons_prefix_cons,
            List.cons_prefix_cons, ih, ← and_assoc, hbyte]

variable {map : Bytes → Option Bytes} {key : Bytes}

/-- A path with a value is that of a key. -/
theorem exists_key_of_content {q : Path} (hvalue : content map q ≠ none) :
    ∃ k, q = nibbles k ∧ map k ≠ none := by
  obtain ⟨k, rfl⟩ := keyed_content map q hvalue
  exact ⟨k, rfl, by rwa [content_nibbles] at hvalue⟩

theorem listing_iff_listed :
    Listing (content map) (nibbles key) values ↔ Listed map key values := by
  constructor
  · rintro ⟨keys, hnodup, hmem, hvalues⟩
    have hpath : ∀ q ∈ keys, nibbles (packs q) = q := by
      intro q hq
      obtain ⟨k, rfl, -⟩ := exists_key_of_content ((hmem q).mp hq).2
      rw [packs_nibbles]
    refine ⟨keys.map packs, ?_, fun k => ?_, ?_⟩
    · refine (List.nodup_map_iff_inj_on hnodup).mpr fun q hq q' hq' heq => ?_
      rw [← hpath q hq, heq, hpath q' hq']
    · rw [← nibbles_prefix_iff, ← content_nibbles map k, ← hmem, List.mem_map]
      constructor
      · rintro ⟨q, hq, rfl⟩
        rwa [hpath q hq]
      · intro hk
        exact ⟨nibbles k, hk, packs_nibbles k⟩
    · rw [← hvalues, List.map_map]
      refine List.map_congr_left fun q hq => ?_
      rw [Function.comp_apply, ← content_nibbles map (packs q), hpath q hq]
  · rintro ⟨keys, hnodup, hmem, hvalues⟩
    refine ⟨keys.map nibbles, hnodup.map fun _ _ => nibbles_injective, fun q => ?_, ?_⟩
    · rw [List.mem_map]
      constructor
      · rintro ⟨k, hk, rfl⟩
        rw [nibbles_prefix_iff, content_nibbles]
        exact (hmem k).mp hk
      · rintro ⟨hpre, hvalue⟩
        obtain ⟨k, rfl, hk⟩ := exists_key_of_content hvalue
        exact ⟨k, (hmem k).mpr ⟨nibbles_prefix_iff.mp hpre, hk⟩, rfl⟩
    · rw [List.map_map, ← hvalues]
      exact List.map_congr_left fun k _ => content_nibbles map k

theorem lone_iff : Lone (content map) (nibbles key) ↔ ∃! k, key <+: k ∧ map k ≠ none := by
  constructor
  · rintro ⟨q, ⟨hpre, hvalue⟩, hunique⟩
    obtain ⟨k, rfl, hk⟩ := exists_key_of_content hvalue
    refine ⟨k, ⟨nibbles_prefix_iff.mp hpre, hk⟩, fun k' hk' => nibbles_injective ?_⟩
    have hvalue' : content map (nibbles k') ≠ none := by
      rw [content_nibbles]
      exact hk'.2
    exact hunique (nibbles k') ⟨nibbles_prefix_iff.mpr hk'.1, hvalue'⟩
  · rintro ⟨k, ⟨hpre, hk⟩, hunique⟩
    refine ⟨nibbles k, ⟨nibbles_prefix_iff.mpr hpre, by rwa [content_nibbles]⟩, fun q hq => ?_⟩
    obtain ⟨k', rfl, hk'⟩ := exists_key_of_content hq.2
    rw [hunique k' ⟨nibbles_prefix_iff.mp hq.1, hk'⟩]

/-- **GetAll of a prefix** gives the values of its keys in the map that is written, each
key once, exactly if the prefix is empty or does not belong to a single key. -/
theorem getAll_run_iff (codec : Codec) {ops : List Op} (hfree : Free start db) (depth : ℤ)
    (hallows : ({} : Books).AllowsAll ops) (key : Bytes) :
    ∃ trie values, run codec start db depth ops = some trie ∧
      (∃ fuel₀, ∀ fuel, fuel₀ ≤ fuel → getAll codec start trie.db fuel key = some values) ∧
      (Listed (({} : Books).afterAll ops).written key values ↔
        key = [] ∨ ¬∃! k, key <+: k ∧ (({} : Books).afterAll ops).written k ≠ none) := by
  obtain ⟨trie, hrun, hexact⟩ := run_exact codec hfree depth hallows
  obtain ⟨values, hgives, hvalues⟩ :=
    answers_getAll hexact.kept.sound hexact.trimmed hexact.bare key
  refine ⟨trie, values, hrun, hgives, ?_⟩
  rw [← listing_iff_listed, ← lone_iff]
  rcases hvalues with ⟨hcond, hlisting⟩ | ⟨hkey, hlone, rfl⟩
  · exact iff_of_true hlisting hcond
  · exact iff_of_false hlone.not_listing_nil (not_or.mpr ⟨hkey, not_not.mpr hlone⟩)

/-- Two keys are set and written. -/
def twoKeys (key key' : Bytes) : List Op :=
  [.set key [5], .set key' [6], .flush]

theorem allowsAll_twoKeys (key key' : Bytes) : ({} : Books).AllowsAll (twoKeys key key') :=
  ⟨trivial, trivial, trivial, trivial⟩

theorem written_twoKeys (key key' : Bytes) :
    (({} : Books).afterAll (twoKeys key key')).written =
      Function.update (Function.update (fun _ => none) key (some [5])) key' (some [6]) :=
  rfl

theorem free_empty (start : Bytes) : Free start ∅ :=
  ⟨unused_empty start, rfl⟩

/-- The prefix of two keys. -/
theorem getAll_run_iff_two : ∃ trie values,
    run (.protobuf id) [7] ∅ 1 (twoKeys [1, 2] [1, 3]) = some trie ∧
      (∃ fuel₀, ∀ fuel, fuel₀ ≤ fuel → getAll (.protobuf id) [7] trie.db fuel [1] = some values) ∧
      Listed (({} : Books).afterAll (twoKeys [1, 2] [1, 3])).written [1] values := by
  obtain ⟨trie, values, hrun, hgives, hiff⟩ :=
    getAll_run_iff (.protobuf id) (free_empty [7]) 1 (allowsAll_twoKeys [1, 2] [1, 3]) [1]
  refine ⟨trie, values, hrun, hgives, hiff.mpr (.inr ?_)⟩
  rintro ⟨k, -, hunique⟩
  have hfirst := hunique [1, 2] ⟨by decide, by decide⟩
  have hsecond := hunique [1, 3] ⟨by decide, by decide⟩
  exact absurd (hfirst.trans hsecond.symm) (by decide)

/-- The prefix of one key: its value is in the database, and is not found. -/
theorem getAll_misses_leaf : ∃ trie,
    run (.protobuf id) [7] ∅ 1 (twoKeys [1, 2] [3]) = some trie ∧
      storageGetLeaf [7] trie.db (key2Location [1, 2]) = some [5] ∧
      (∃ fuel₀, ∀ fuel, fuel₀ ≤ fuel → getAll (.protobuf id) [7] trie.db fuel [1] = some []) ∧
      ¬Listed (({} : Books).afterAll (twoKeys [1, 2] [3])).written [1] [] := by
  obtain ⟨trie, hrun, hexact⟩ :=
    run_exact (.protobuf id) (free_empty [7]) 1 (allowsAll_twoKeys [1, 2] [3])
  obtain ⟨values, hgives, hvalues⟩ :=
    answers_getAll hexact.kept.sound hexact.trimmed hexact.bare [1]
  have hlone : Lone (content (({} : Books).afterAll (twoKeys [1, 2] [3])).written)
      (nibbles [1]) := by
    refine lone_iff.mpr ⟨[1, 2], ⟨by decide, by decide⟩, fun k hk => ?_⟩
    obtain ⟨hpre, hkey⟩ := hk
    by_contra hne
    have hthree : k ≠ [3] := by
      rintro rfl
      exact absurd hpre (by decide)
    rw [written_twoKeys, Function.update_of_ne hthree, Function.update_of_ne hne] at hkey
    exact hkey rfl
  have hleaf := hexact.kept.sound.leaves [1, 2] List.nil_prefix
  rw [content_nibbles] at hleaf
  rcases hvalues with ⟨hnil | hnot, -⟩ | ⟨-, -, rfl⟩
  · cases hnil
  · exact absurd hlone hnot
  · refine ⟨trie, hrun, ?_, hgives, ?_⟩
    · rw [storageGetLeaf, ← encode_nibbles]
      exact hleaf
    · rw [← listing_iff_listed]
      exact hlone.not_listing_nil

end CegChain.Trie
