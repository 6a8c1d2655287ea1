import CegChain.Trie.Reload
import Mathlib.Data.Set.Card

/-!
# New keys

`SetItem` says whether it added a node.  It always adds one for a key that is not there,
with one exception: a node may stand at the key without a leaf of its own, because the
keys below it fork there.  Among keys of one length only the root can be such a node.

`Occupied` is the invariant: each node in memory, the root apart, has a key at its
location or below it.  It is kept as long as no key is deleted (`added_of_setItem`).
-/

namespace CegChain.Trie

open Paths Layers

/-- Each node has a key at its location or below it. -/
def Occupied (M : Content) : Pointer → Prop
  | .null => True
  | .node frm children =>
      (∃ q k, frm.location = encode q ∧ q <+: k ∧ M k ≠ none) ∧ ∀ i, Occupied M (children i)

variable {codec : Codec} {start : Bytes} {db : Db} {M M' M₀ : Content} {p q k : Path}
  {b : Nibble} {c : Child} {ptr : Pointer} {frm : NodeFrm} {children children' : Nibble → Pointer}

theorem Occupied.mono (hoccupied : Occupied M ptr) (hkeys : ∀ k, M k ≠ none → M' k ≠ none) :
    Occupied M' ptr := by
  induction ptr with
  | null => trivial
  | node frm children ih =>
      obtain ⟨⟨q, k, hlocation, hpre, hkey⟩, hchildren⟩ := hoccupied
      exact ⟨⟨q, k, hlocation, hpre, hkeys k hkey⟩, fun i => ih i (hchildren i)⟩

/-- The key of a node, below the path where it stands. -/
theorem Occupied.exists_key (hoccupied : Occupied M (.node frm children))
    (hlocation : frm.location = encode q) : ∃ k, q <+: k ∧ M k ≠ none := by
  obtain ⟨⟨q', k, hlocation', hpre, hkey⟩, -⟩ := hoccupied
  obtain rfl := encode_injective (hlocation.symm.trans hlocation')
  exact ⟨k, hpre, hkey⟩

theorem occupied_update (hchildren : ∀ i, Occupied M (children i)) (hoccupied : Occupied M ptr) :
    ∀ i, Occupied M (Function.update children b ptr i) :=
  (Function.forall_update_iff children fun _ ptr => Occupied M ptr).mpr
    ⟨hoccupied, fun i _ => hchildren i⟩

theorem ne_none_update {v : Bytes} (l : Path) (hkey : M l ≠ none) :
    Function.update M k (some v) l ≠ none := by
  by_cases heq : l = k
  · rw [heq, Function.update_self]
    exact Option.some_ne_none v
  · rwa [Function.update_of_ne heq]

/-! ## Children from the database -/

/-- What is loaded has no children in memory. -/
theorem childMayFromDB_of_null (hnull : children b = .null)
    (hload : childMayFromDB codec start db frm children b = some children') :
    children' b = .null ∨
      (frm.info.children b).childtype ≠ .none ∧ ∃ frm', children' b = .single frm' := by
  unfold childMayFromDB at hload
  rw [hnull] at hload
  dsimp only at hload
  split at hload
  · rw [← Option.some.inj hload]
    exact .inl hnull
  · rename_i htype
    rw [← Option.some.inj hload, Function.update_self]
    exact .inr ⟨by rw [htype]; nofun, _, rfl⟩
  · rename_i htype
    obtain ⟨info, -, rfl⟩ := Option.map_eq_some_iff.mp hload
    rw [Function.update_self]
    exact .inr ⟨by rw [htype]; nofun, _, rfl⟩

/-- A child from the database is occupied. -/
theorem occupied_childMayFromDB
    (hheld : Held codec start db M₀ M (children b) p (frm.info.children b))
    (hchildren : ∀ i, Occupied M (children i))
    (hload : childMayFromDB codec start db frm children b = some children') (i : Nibble) :
    Occupied M (children' i) := by
  obtain ⟨ptr, hload', hptr, -, -⟩ := held_childMayFromDB hheld
  obtain rfl := Option.some.inj (hload'.symm.trans hload)
  refine occupied_update hchildren ?_ i
  cases hchild : children b with
  | node frm₂ children₂ =>
      rw [childMayFromDB, hchild] at hload'
      have hsame := congrFun (Option.some.inj hload') b
      rw [Function.update_self] at hsame
      rw [← hsame]
      exact hchildren b
  | null =>
      have hshape := childMayFromDB_of_null hchild hload
      rw [Function.update_self] at hshape
      rcases hshape with rfl | ⟨htype, frm', rfl⟩
      · trivial
      · rw [hchild] at hheld
        obtain ⟨q, hinside⟩ := hptr.inside
        obtain ⟨k, hk, hkey⟩ := hheld.1.exists_key htype
        rw [← hheld.2 k hk] at hkey
        exact ⟨⟨q, k, hinside.placed.location, hinside.placed.below k hk hkey, hkey⟩,
          fun _ => trivial⟩

/-! ## Set -/

/-- **What `SetItem` answers.** It answers true only for a key that is not there; when it
answers false, it started at the node of the key or there is a key at the given one or below. -/
theorem added_of_setItem (v : Bytes) (fuel : ℕ) :
    ∀ {frm : NodeFrm} {children : Nibble → Pointer} {p q : Path} {added : Bool} {ptr : Pointer},
      Inside codec start db M₀ M frm children p q → (∀ i, Occupied M (children i)) → q <+: k →
      setItem codec start db (encode k) v fuel frm children = some (added, ptr) →
      ∃ frm' children', ptr = .node frm' children' ∧ frm'.location = frm.location ∧
        (∀ i, Occupied (Function.update M k (some v)) (children' i)) ∧
        (added = true → q ≠ k ∧ M k = none) ∧
        (added = false → q = k ∨ ∃ l, k <+: l ∧ M l ≠ none) := by
  have hset : Function.update M k (some v) k ≠ none := by
    rw [Function.update_self]
    exact Option.some_ne_none v
  have hnewnode : Occupied (Function.update M k (some v))
      (.single (NodeFrm.setValue v { location := encode k })) :=
    ⟨⟨k, k, rfl, List.prefix_rfl, hset⟩, fun _ => trivial⟩
  -- a key above the next node would be a key of the slot that is not below the node
  have habsent : ∀ {frm₂ : NodeFrm} {children₂ : Nibble → Pointer} {p₂ q₂ : Path},
      Inside codec start db M₀ M frm₂ children₂ p₂ q₂ → p₂ <+: k → ¬ q₂ <+: k → M k = none := by
    intro frm₂ children₂ p₂ q₂ hinside hp hq
    by_contra hkey
    exact hq (hinside.placed.below k hp hkey)
  have hstrict : ∀ {q : Path} {b : Nibble}, q ++ [b] <+: k → q ≠ k := by
    rintro q b hb rfl
    exact not_prefix_next_self q b hb
  induction fuel with
  | zero =>
      intro frm children p q added ptr hinside hoccupied hpre hsets
      cases hsets
  | succ fuel ih =>
      intro frm children p q added ptr hinside hoccupied hpre hsets
      have hcases := hinside.setsAt hpre v fuel
      rw [hsets] at hcases
      have hloaded : ∀ {b : Nibble} {children₁ : Nibble → Pointer},
          childMayFromDB codec start db frm children b = some children₁ →
          ∀ i, Occupied M (children₁ i) :=
        fun hload => occupied_childMayFromDB (hinside.children _) hoccupied hload
      have hmono : ∀ {ptr : Pointer}, Occupied M ptr →
          Occupied (Function.update M k (some v)) ptr :=
        fun hptr => hptr.mono ne_none_update
      generalize hresult : some (added, ptr) = result at hcases
      cases hcases with
      | here hself =>
          cases hresult
          exact ⟨_, _, rfl, rfl, fun i => hmono (hoccupied i), nofun, fun _ => .inl hself⟩
      | new hb hload hnone hnone' =>
          cases hresult
          refine ⟨_, _, rfl, rfl, occupied_update (fun i => hmono (hloaded hload i)) hnewnode,
            fun _ => ⟨hstrict hb, hnone' k hb⟩, nofun⟩
      | @down b frm₂ children₂ q₂ hb hload hheld hinside₂ hdown =>
          obtain ⟨⟨added', ptr'⟩, hrest, hptr⟩ := Option.map_eq_some_iff.mp hresult.symm
          cases hptr
          have hoccupied₂ : Occupied M (.node frm₂ children₂) := by
            have hchild := hloaded hload b
            rwa [Function.update_self] at hchild
          obtain ⟨frm₃, children₃, rfl, hlocation, hchildren₃, htrue, hfalse⟩ :=
            ih hinside₂ hoccupied₂.2 hdown hrest
          obtain ⟨l, hl, hkey⟩ := hoccupied₂.exists_key hinside₂.placed.location
          refine ⟨_, _, rfl, rfl, occupied_update (fun i => hmono (hloaded hload i))
            ⟨⟨q₂, l, hlocation.trans hinside₂.placed.location, hl, ne_none_update l hkey⟩,
              hchildren₃⟩, fun hadded => ⟨hstrict hb, (htrue hadded).2⟩, fun hadded => .inr ?_⟩
          rcases hfalse hadded with rfl | hbelow
          · exact ⟨l, hl, hkey⟩
          · exact hbelow
      | @above b b₁ frm₂ children₂ q₂ hb hload hheld hinside₂ hb₁ =>
          cases hresult
          have hoccupied₂ := hloaded hload b
          rw [Function.update_self] at hoccupied₂
          refine ⟨_, _, rfl, rfl, occupied_update (fun i => hmono (hloaded hload i))
            ⟨⟨k, k, rfl, List.prefix_rfl, hset⟩,
              occupied_update (fun _ => trivial) (hmono hoccupied₂)⟩,
            fun _ => ⟨hstrict hb, habsent hinside₂ hb fun hq => ?_⟩, nofun⟩
          exact not_prefix_next_self k b₁ (hb₁.trans hq)
      | @fork b b₁ b₂ frm₂ children₂ q₂ hb hload hheld hinside₂ hne hb₁ hb₂ =>
          cases hresult
          have hoccupied₂ := hloaded hload b
          rw [Function.update_self] at hoccupied₂
          refine ⟨_, _, rfl, rfl, occupied_update (fun i => hmono (hloaded hload i))
            ⟨⟨common k q₂, k, rfl, common_prefix_left k q₂, hset⟩,
              occupied_update (occupied_update (fun _ => trivial) hnewnode) (hmono hoccupied₂)⟩,
            fun _ => ⟨hstrict hb, habsent hinside₂ hb fun hq => ?_⟩, nofun⟩
          exact hne (next_unique hb₁ (hb₂.trans hq))

/-! ## The other operations -/

theorem occupied_updated (ptr : Pointer) (c : Child) :
    Occupied M (updated codec start ptr c).1 ↔ Occupied M ptr := by
  induction ptr generalizing c with
  | null => exact Iff.rfl
  | node frm children ih =>
      rw [updated]
      split
      · rw [updateHash_node]
        exact and_congr Iff.rfl (forall_congr' fun i => ih i _)
      · exact Iff.rfl

theorem occupied_release (hoccupied : Occupied M ptr) (depth : ℤ) :
    Occupied M (release ptr depth) := by
  induction ptr generalizing depth with
  | null => trivial
  | node frm children ih =>
      refine ⟨hoccupied.1, fun i => ?_⟩
      dsimp only
      split
      · trivial
      · exact ih i (hoccupied.2 i) _

theorem of_sequence_eq_some {α : Type} {f : Nibble → Option α} {g : Nibble → α}
    (hsequence : sequence f = some g) (i : Nibble) : f i = some (g i) := by
  unfold sequence at hsequence
  split at hsequence
  · rw [← Option.some.inj hsequence, Option.some_get]
  · cases hsequence

/-- What is loaded is occupied. -/
theorem occupied_load (depth : ℕ) :
    ∀ {frm : NodeFrm} {children : Nibble → Pointer} {p q : Path} {ptr : Pointer},
      Tidy codec start db M frm children p q → (∀ i, Occupied M (children i)) →
      load codec start db depth frm children = some ptr →
      ∃ children', ptr = .node frm children' ∧ ∀ i, Occupied M (children' i) := by
  induction depth with
  | zero =>
      intro frm children p q ptr htidy hoccupied hload
      exact ⟨children, (Option.some.inj hload).symm, hoccupied⟩
  | succ depth ih =>
      intro frm children p q ptr htidy hoccupied hload
      obtain ⟨children', hsequence, hptr⟩ := Option.bind_eq_some_iff.mp hload
      refine ⟨children', (Option.some.inj hptr).symm, fun i => ?_⟩
      obtain ⟨children₁, hone, hrest⟩ :=
        Option.bind_eq_some_iff.mp (of_sequence_eq_some hsequence i)
      obtain ⟨ptr₁, hone', hclean, -⟩ := clean_childMayFromDB (htidy.children i)
      obtain rfl := Option.some.inj (hone'.symm.trans hone)
      have hloaded := occupied_childMayFromDB ((htidy.children i).held (same_refl M _)) hoccupied
        hone i
      rw [Function.update_self] at hloaded hrest
      cases ptr₁ with
      | null =>
          rw [← Option.some.inj hrest]
          trivial
      | node frm₂ children₂ =>
          obtain ⟨-, -, q₂, htidy₂⟩ := clean_node_iff.mp hclean
          obtain ⟨children₃, heq, hchildren₃⟩ := ih htidy₂ hloaded.2 hrest
          rw [heq]
          exact ⟨hloaded.1, hchildren₃⟩

/-- The nodes below the root are occupied. -/
def Populated (trie : KVTrie) (M : Content) : Prop :=
  ∀ frm children, trie.root = .node frm children → ∀ i, Occupied M (children i)

variable {trie trie' : KVTrie}

theorem populated_updateHash (hpopulated : Populated trie M) :
    Populated (trie.updateHash codec start) M := by
  intro frm' children' hroot' i
  rw [KVTrie.updateHash] at hroot'
  cases hroot : trie.root with
  | null =>
      rw [hroot] at hroot'
      cases hroot'
  | node frm children =>
      rw [hroot, updateHash_node] at hroot'
      cases hroot'
      exact (occupied_updated _ _).mpr (hpopulated frm children hroot i)

theorem populated_freeMemory (hpopulated : Populated trie M) (depth : ℤ) :
    Populated (trie.freeMemory depth) M := by
  intro frm' children' hroot' i
  rw [KVTrie.freeMemory] at hroot'
  cases hroot : trie.root with
  | null =>
      rw [hroot] at hroot'
      cases hroot'
  | node frm children =>
      rw [hroot] at hroot'
      cases hroot'
      dsimp only
      split
      · trivial
      · exact occupied_release (hpopulated _ _ hroot i) _

/-- **Init.** What it loads is occupied. -/
theorem Stands.populated_init (hstands : Stands codec start db M) {depth : ℤ}
    (hinit : KVTrie.init codec start db depth = some trie) : Populated trie M := by
  intro frm children hroot i
  have hlookup : storageLoad codec start db rootl =
      (db.lookup (innerKey start [])).map codec.parse := rfl
  rw [KVTrie.init, hlookup] at hinit
  rcases hstands.stored with ⟨hnone, -⟩ | ⟨info, hstored, hrecord⟩
  · rw [hnone] at hinit
    cases hinit
    cases hroot
    trivial
  · rw [hstored, Option.map_some, codec.parse_serialize] at hinit
    obtain ⟨root, hload, rfl⟩ := Option.map_eq_some_iff.mp hinit
    obtain ⟨children', heq, hchildren'⟩ :=
      occupied_load _ (tidy_root hrecord) (fun _ => trivial) hload
    cases heq.symm.trans hroot
    exact hchildren' i

/-- **Set.** The answer is true for a new key, unless it is the empty one. -/
theorem populated_set (hsound : Sound codec start trie M₀ M) (hpopulated : Populated trie M)
    {key value : Bytes} {added : Bool}
    (hset : trie.set codec start key value = some (added, trie')) :
    Populated trie' (Function.update M (nibbles key) (some value)) ∧
      (added = true → nibbles key ≠ [] ∧ M (nibbles key) = none) ∧
      (added = false → nibbles key = [] ∨ ∃ l, nibbles key <+: l ∧ M l ≠ none) := by
  obtain ⟨frm, children, hroot, hinside⟩ := hsound.root
  rw [KVTrie.set, hroot, ← encode_nibbles] at hset
  obtain ⟨⟨added', ptr⟩, hsetItem, heq⟩ := Option.bind_eq_some_iff.mp hset
  cases heq
  obtain ⟨frm', children', rfl, -, hchildren', htrue, hfalse⟩ :=
    added_of_setItem value _ hinside (hpopulated frm children hroot) List.nil_prefix hsetItem
  refine ⟨fun frm'' children'' hroot'' i => ?_, fun hadded => ?_, fun hadded => ?_⟩
  · cases hroot''
    exact hchildren' i
  · exact ⟨(htrue hadded).1.symm, (htrue hadded).2⟩
  · exact (hfalse hadded).imp_left Eq.symm

/-- The keys have one length. -/
def Sized (M : Content) (length : ℕ) : Prop :=
  ∀ q, M q ≠ none → q.length = 2 * length

/-- **Set, among keys of one length.** -/
theorem added_iff (hsound : Sound codec start trie M₀ M) (hpopulated : Populated trie M)
    {key value : Bytes} (hsized : Sized M key.length) {added : Bool}
    (hset : trie.set codec start key value = some (added, trie')) :
    added = true ↔ key ≠ [] ∧ M (nibbles key) = none := by
  obtain ⟨-, htrue, hfalse⟩ := populated_set hsound hpopulated hset
  have hnil : nibbles key = [] ↔ key = [] :=
    ⟨fun h => nibbles_injective (h.trans (nibbles.eq_1).symm), fun h => by rw [h, nibbles]⟩
  constructor
  · exact fun hadded => ⟨mt hnil.mpr (htrue hadded).1, (htrue hadded).2⟩
  · rintro ⟨hne, hnone⟩
    by_contra hadded
    rcases hfalse (by simpa using hadded) with hempty | ⟨l, hl, hkey⟩
    · exact hne (hnil.mp hempty)
    · -- a key below this one has its length
      have heq : nibbles key = l := hl.eq_of_length (by rw [length_nibbles, hsized l hkey])
      exact hkey (heq ▸ hnone)

/-! ## Counting -/

/-- The keys of a map. -/
def keysOf (M : Content) : Set Bytes :=
  {key | M (nibbles key) ≠ none}

theorem mem_keysOf {key : Bytes} : key ∈ keysOf M ↔ M (nibbles key) ≠ none :=
  Iff.rfl

theorem keysOf_update (M : Content) (key value : Bytes) :
    keysOf (Function.update M (nibbles key) (some value)) = insert key (keysOf M) := by
  ext key'
  by_cases heq : key' = key
  · rw [heq]
    exact iff_of_true (by simp [mem_keysOf]) (Set.mem_insert ..)
  · have hne : nibbles key' ≠ nibbles key := fun h => heq (nibbles_injective h)
    rw [Set.mem_insert_iff, or_iff_right heq, mem_keysOf, mem_keysOf, Function.update_of_ne hne]

theorem sized_update {length : ℕ} (hsized : Sized M length) {key value : Bytes}
    (hkey : key.length = length) :
    Sized (Function.update M (nibbles key) (some value)) length := by
  intro q hq
  by_cases heq : q = nibbles key
  · rw [heq, length_nibbles, hkey]
  · rw [Function.update_of_ne heq] at hq
    exact hsized q hq

/-- A map with some keys, all of one length, and how many there are. -/
structure Numbered (M : Content) (length : ℕ) (number : ℤ) : Prop where
  sized : Sized M length
  nonempty : (keysOf M).Nonempty
  finite : (keysOf M).Finite
  number : ((keysOf M).ncard : ℤ) = number

variable (codec start) in
/-- A trie, whatever is in its batch, with its occupied nodes. -/
structure Live (trie : KVTrie) (M₀ M : Content) : Prop where
  sound : Sound codec start { trie with batch := [] } M₀ M
  populated : Populated trie M

/-- **Init** on a database that has nothing of the trie. -/
theorem live_unused (codec : Codec) (hunused : Unused start db) (depth : ℤ) :
    ∃ trie, KVTrie.init codec start db depth = some trie ∧ trie.db = db ∧ trie.batch = [] ∧
      Live codec start trie (content fun _ => none) (content fun _ => none) := by
  obtain ⟨trie, hinit, hsound, -⟩ := sound_unused codec hunused depth
  have hdb := db_init hinit
  have hbatch := hsound.batch
  have hstands := hsound.stands
  rw [hdb] at hstands
  refine ⟨trie, hinit, hdb, hbatch, ?_, hstands.populated_init hinit⟩
  rw [← hbatch]
  exact hsound

theorem Live.set (hlive : Live codec start trie M₀ M) (key value : Bytes) :
    ∃ added trie', trie.set codec start key value = some (added, trie') ∧
      trie'.db = trie.db ∧ trie'.batch = trie.batch ∧
      Live codec start trie' M₀ (Function.update M (nibbles key) (some value)) ∧
      (Sized M key.length → (added = true ↔ key ≠ [] ∧ M (nibbles key) = none)) := by
  obtain ⟨added, trie', hset, hdb, hbatch, hemptied, hsound⟩ := exists_set hlive.sound key value
  have hpopulated : Populated { trie with batch := [] } M := hlive.populated
  exact ⟨added, trie', hset, hdb, hbatch,
    ⟨hsound, (populated_set hlive.sound hpopulated hemptied).1⟩,
    fun hsized => added_iff hlive.sound hpopulated hsized hemptied⟩

/-- **Set**, any number of times. -/
theorem Live.sets (hlive : Live codec start trie M₀ M) (items : List (Bytes × Bytes)) :
    ∃ trie', items.foldlM (fun trie item =>
        (KVTrie.set codec start item.1 item.2 trie).map Prod.snd) trie = some trie' ∧
      trie'.db = trie.db ∧ trie'.batch = trie.batch ∧
      Live codec start trie' M₀ (overwrite M items) := by
  refine sets_invariant (P := fun trie M => Live codec start trie M₀ M)
    (fun key value hlive => ?_) items hlive
  obtain ⟨added, trie', hset, hdb, hbatch, hlive', -⟩ := hlive.set key value
  exact ⟨added, trie', hset, hdb, hbatch, hlive'⟩

/-- **Set counts**, when there is a key already. -/
theorem Numbered.set {length : ℕ} {number : ℤ} (hnumbered : Numbered M length number)
    {key : Bytes} (hkey : key.length = length) (value : Bytes) {added : Bool}
    (hadded : added = true ↔ key ≠ [] ∧ M (nibbles key) = none) :
    (added = true ↔ key ∉ keysOf M) ∧
      Numbered (Function.update M (nibbles key) (some value)) length
        (number + if added then 1 else 0) := by
  have hadded : added = true ↔ key ∉ keysOf M := by
    rw [hadded, mem_keysOf, not_not]
    refine and_iff_right_of_imp fun hnone hempty => ?_
    -- the empty key is the only one of its length
    obtain ⟨key', hkey'⟩ := hnumbered.nonempty
    have hlength := hnumbered.sized _ hkey'
    rw [length_nibbles, ← hkey, hempty] at hlength
    obtain rfl : key' = [] := List.length_eq_zero_iff.mp (by simpa using hlength)
    rw [hempty] at hnone
    exact hkey' hnone
  refine ⟨hadded, sized_update hnumbered.sized hkey, ?_, ?_, ?_⟩
  · rw [keysOf_update]
    exact Set.insert_nonempty ..
  · rw [keysOf_update]
    exact hnumbered.finite.insert key
  · rw [keysOf_update]
    cases added with
    | true =>
        rw [Set.ncard_insert_of_notMem (hadded.mp rfl) hnumbered.finite, if_pos rfl,
          ← hnumbered.number]
        exact Nat.cast_succ _
    | false =>
        have hmem : key ∈ keysOf M := by
          by_contra hnot
          cases hadded.mpr hnot
        rw [Set.ncard_insert_of_mem hmem, hnumbered.number]
        simp

/-- The keys after some items were set. -/
theorem keysOf_overwrite (M : Content) (items : List (Bytes × Bytes)) :
    keysOf (overwrite M items) = keysOf M ∪ {key | key ∈ items.map Prod.fst} := by
  induction items generalizing M with
  | nil => simp [overwrite]
  | cons item items ih =>
      have hcons : overwrite M (item :: items) =
          overwrite (Function.update M (nibbles item.1) (some item.2)) items := rfl
      rw [hcons, ih, keysOf_update]
      ext key
      simp only [Set.mem_union, Set.mem_insert_iff, Set.mem_ofPred_eq, List.map_cons,
        List.mem_cons]
      tauto

theorem sized_overwrite {length : ℕ} {items : List (Bytes × Bytes)} (hsized : Sized M length)
    (hitems : ∀ item ∈ items, item.1.length = length) : Sized (overwrite M items) length := by
  induction items generalizing M with
  | nil => exact hsized
  | cons item items ih =>
      exact ih (sized_update hsized (hitems item List.mem_cons_self)) fun later hlater =>
        hitems later (List.mem_cons_of_mem _ hlater)

/-- A map that is made of items with different keys has as many. -/
theorem numbered_overwrite {length : ℕ} {items : List (Bytes × Bytes)} (hM : ∀ q, M q = none)
    (hne : items ≠ []) (hnodup : (items.map Prod.fst).Nodup)
    (hitems : ∀ item ∈ items, item.1.length = length) :
    Numbered (overwrite M items) length items.length := by
  have hnone : keysOf M = ∅ := Set.eq_empty_of_forall_notMem fun key hkey => hkey (hM _)
  have hkeys : keysOf (overwrite M items) = ((items.map Prod.fst).toFinset : Set Bytes) := by
    rw [keysOf_overwrite, hnone, Set.empty_union, List.coe_toFinset]
  refine ⟨sized_overwrite (fun q hq => absurd (hM q) hq) hitems, ?_, ?_, ?_⟩
  · obtain ⟨item, hitem⟩ := List.exists_mem_of_ne_nil items hne
    exact ⟨item.1, by rw [hkeys]; simpa using ⟨item.2, hitem⟩⟩
  · rw [hkeys]
    exact Finset.finite_toSet _
  · rw [hkeys, Set.ncard_coe_finset, List.toFinset_card_of_nodup hnodup, List.length_map]

end CegChain.Trie
