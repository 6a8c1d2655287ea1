import Mathlib.Data.Finset.Card
import Mathlib.Data.List.Sort

/-!
# Ordered association lists

A `std::map` as the list of its entries in the order of the keys.  `insert` is
`map[key] = value`, `insertNew` is `map.insert`, which leaves an existing entry
alone; erasing is filtering.
-/

namespace OrderedMap

variable {K V : Type*}

section Lookup

variable [BEq K] [LawfulBEq K] {key : K} {value : V} {map : List (K × V)}

theorem mem_of_lookup (hlookup : map.lookup key = some value) : (key, value) ∈ map := by
  induction map with
  | nil => simp at hlookup
  | cons entry map ih =>
      rw [List.lookup_cons] at hlookup
      split at hlookup
      · rename_i hkey
        rw [beq_iff_eq] at hkey
        rw [hkey, ← Option.some.inj hlookup]
        exact List.mem_cons_self ..
      · exact List.mem_cons_of_mem _ (ih hlookup)

theorem lookup_eq_none_iff : map.lookup key = none ↔ key ∉ map.map Prod.fst := by
  rw [List.lookup_eq_none_iff]
  simp only [List.mem_map, bne_iff_ne, ne_eq, not_exists, not_and]
  exact ⟨fun h entry hentry heq => h entry hentry heq.symm,
    fun h entry hentry heq => h entry hentry heq.symm⟩

/-- With distinct keys looking a key up is having the entry. -/
theorem lookup_eq_some_iff (hnodup : (map.map Prod.fst).Nodup) :
    map.lookup key = some value ↔ (key, value) ∈ map := by
  refine ⟨mem_of_lookup, fun hmem => ?_⟩
  cases hlookup : map.lookup key with
  | none =>
      exact absurd (List.mem_map_of_mem (f := Prod.fst) hmem) (lookup_eq_none_iff.mp hlookup)
  | some other =>
      have hother := mem_of_lookup hlookup
      rw [(Prod.mk.inj (List.inj_on_of_nodup_map hnodup hother hmem rfl)).2]

theorem lookup_filter (keep : K → Bool) :
    (map.filter fun entry => keep entry.1).lookup key =
      if keep key then map.lookup key else none := by
  induction map with
  | nil => simp
  | cons entry map ih =>
      obtain ⟨other, value⟩ := entry
      rw [List.filter_cons, List.lookup_cons]
      by_cases hkey : key = other
      · subst hkey
        cases hkeep : keep key <;> simp [hkeep, ih]
      · have hbeq := beq_false_of_ne hkey
        cases hkeep : keep other <;> simp [ih, hbeq, List.lookup_cons]

omit [LawfulBEq K] in
theorem lookup_map {W : Type*} (f : V → W) :
    (map.map fun entry => (entry.1, f entry.2)).lookup key = (map.lookup key).map f := by
  induction map with
  | nil => rfl
  | cons entry map ih =>
      rw [List.map_cons, List.lookup_cons, List.lookup_cons]
      split
      · rfl
      · exact ih

end Lookup

variable [LE K] [DecidableLE K] [DecidableEq K]

/-- `map[key] = value`. -/
def insert (key : K) (value : V) (map : List (K × V)) : List (K × V) :=
  (map.filter fun entry => entry.1 ≠ key).orderedInsert (fun a b => a.1 ≤ b.1) (key, value)

/-- `map.insert(std::make_pair(key, value))`. -/
def insertNew (key : K) (value : V) (map : List (K × V)) : List (K × V) :=
  if (map.lookup key).isSome then map else insert key value map

@[simp] theorem mem_insert {key : K} {value : V} {map : List (K × V)} {entry : K × V} :
    entry ∈ insert key value map ↔ entry = (key, value) ∨ entry ∈ map ∧ entry.1 ≠ key := by
  simp [insert, List.mem_orderedInsert]

@[simp] theorem lookup_insert_self [BEq K] [LawfulBEq K] (key : K) (value : V)
    (map : List (K × V)) :
    (insert key value map).lookup key = some value := by
  cases hlookup : (insert key value map).lookup key with
  | none =>
      have hmem : (key, value) ∈ insert key value map := mem_insert.mpr (Or.inl rfl)
      exact absurd (List.mem_map_of_mem (f := Prod.fst) hmem) (lookup_eq_none_iff.mp hlookup)
  | some other =>
      rcases mem_insert.mp (mem_of_lookup hlookup) with heq | ⟨-, hne⟩
      · rw [(Prod.mk.inj heq).2]
      · exact absurd rfl hne

omit [DecidableEq K] in
theorem filter_orderedInsert (keep : K × V → Bool) {entry : K × V} (hentry : keep entry = false)
    (map : List (K × V)) :
    (map.orderedInsert (fun a b => a.1 ≤ b.1) entry).filter keep = map.filter keep := by
  induction map with
  | nil => simp [hentry]
  | cons head map ih =>
      rw [List.orderedInsert_cons]
      split
      · rw [List.filter_cons, hentry, if_neg Bool.false_ne_true]
      · rw [List.filter_cons, List.filter_cons, ih]

/-- Only the last write to a key counts. -/
@[simp] theorem insert_insert (key : K) (value value' : V) (map : List (K × V)) :
    insert key value (insert key value' map) = insert key value map := by
  unfold insert
  rw [filter_orderedInsert _ (by simp), List.filter_filter]
  simp

/-- A write leaves the other keys alone. -/
theorem lookup_insert_of_ne [BEq K] [LawfulBEq K] {key key' : K} (hne : key' ≠ key) (value : V)
    (map : List (K × V)) :
    (insert key value map).lookup key' = map.lookup key' := by
  have hfilter : (insert key value map).filter (fun entry => decide (entry.1 ≠ key)) =
      map.filter fun entry => decide (entry.1 ≠ key) := by
    unfold insert
    rw [filter_orderedInsert _ (by simp), List.filter_filter]
    simp
  have hother : ∀ other : List (K × V),
      (other.filter fun entry => decide (entry.1 ≠ key)).lookup key' = other.lookup key' := by
    intro other
    rw [lookup_filter fun other => decide (other ≠ key), if_pos (decide_eq_true hne)]
  rw [← hother (insert key value map), hfilter, hother]

theorem perm_insert (key : K) (value : V) (map : List (K × V)) :
    (insert key value map).Perm ((key, value) :: map.filter fun entry => entry.1 ≠ key) :=
  List.perm_orderedInsert ..

theorem nodup_insert (key : K) (value : V) {map : List (K × V)}
    (hnodup : (map.map Prod.fst).Nodup) : ((insert key value map).map Prod.fst).Nodup := by
  rw [((perm_insert key value map).map Prod.fst).nodup_iff, List.map_cons, List.nodup_cons]
  refine ⟨by simp, hnodup.sublist (List.filter_sublist.map _)⟩

/-- Inserting keeps the entries in the order of the keys. -/
theorem pairwise_insert [Std.Total (α := K) (· ≤ ·)] [IsTrans K (· ≤ ·)] (key : K) (value : V)
    {map : List (K × V)} (hsorted : map.Pairwise fun a b => a.1 ≤ b.1) :
    (insert key value map).Pairwise fun a b => a.1 ≤ b.1 := by
  have htotal : Std.Total fun a b : K × V => a.1 ≤ b.1 :=
    ⟨fun a b => Std.Total.total (r := (· ≤ ·)) a.1 b.1⟩
  have htrans : IsTrans (K × V) fun a b => a.1 ≤ b.1 :=
    ⟨fun a b c => IsTrans.trans (r := (· ≤ ·)) a.1 b.1 c.1⟩
  exact (hsorted.sublist List.filter_sublist).orderedInsert _ _

omit [DecidableLE K] [DecidableEq K] in
/-- Two maps that give the same values are the same list. -/
theorem ext_lookup [BEq K] [LawfulBEq K] [Std.Antisymm (α := K) (· ≤ ·)] {map map' : List (K × V)}
    (hsorted : map.Pairwise fun a b => a.1 ≤ b.1) (hsorted' : map'.Pairwise fun a b => a.1 ≤ b.1)
    (hnodup : (map.map Prod.fst).Nodup) (hnodup' : (map'.map Prod.fst).Nodup)
    (hlookup : ∀ key, map.lookup key = map'.lookup key) : map = map' := by
  have hmem : ∀ entry, entry ∈ map ↔ entry ∈ map' := by
    rintro ⟨key, value⟩
    rw [← lookup_eq_some_iff hnodup, ← lookup_eq_some_iff hnodup', hlookup]
  refine List.Perm.eq_of_pairwise ?_ hsorted hsorted'
    ((List.perm_ext_iff_of_nodup hnodup.of_map hnodup'.of_map).mpr hmem)
  intro entry other hentry hother hle hge
  have hkey : entry.1 = other.1 := Std.Antisymm.antisymm _ _ hle hge
  exact List.inj_on_of_nodup_map hnodup' ((hmem entry).mp hentry) hother hkey

theorem length_insert_of_lookup_eq_none {key : K} (value : V) {map : List (K × V)}
    (hnone : map.lookup key = none) : (insert key value map).length = map.length + 1 := by
  have hfilter : (map.filter fun entry => entry.1 ≠ key) = map := by
    refine List.filter_eq_self.mpr fun entry hentry => decide_eq_true fun hkey => ?_
    exact lookup_eq_none_iff.mp hnone (hkey ▸ List.mem_map_of_mem hentry)
  rw [(perm_insert key value map).length_eq, hfilter, List.length_cons]

theorem mem_insertNew {key : K} {value : V} {map : List (K × V)} {entry : K × V}
    (hentry : entry ∈ insertNew key value map) : entry = (key, value) ∨ entry ∈ map := by
  unfold insertNew at hentry
  split at hentry
  · exact Or.inr hentry
  · exact (mem_insert.mp hentry).imp_right And.left

theorem insertNew_of_mem {key : K} (value : V) {map : List (K × V)}
    (hmem : key ∈ map.map Prod.fst) :
    insertNew key value map = map := by
  refine if_pos (Option.isSome_iff_ne_none.mpr fun hnone => ?_)
  exact lookup_eq_none_iff.mp hnone hmem

theorem insertNew_of_not_mem {key : K} (value : V) {map : List (K × V)}
    (hmem : key ∉ map.map Prod.fst) : insertNew key value map = insert key value map := by
  refine if_neg ?_
  rw [lookup_eq_none_iff.mpr hmem]
  exact Bool.false_ne_true

/-- What is there already stays. -/
theorem lookup_insertNew [BEq K] [LawfulBEq K] (key key' : K) (value : V) (map : List (K × V)) :
    (insertNew key value map).lookup key' =
      if key' = key then some ((map.lookup key).getD value) else map.lookup key' := by
  by_cases hmem : key ∈ map.map Prod.fst
  · rw [insertNew_of_mem value hmem]
    split_ifs with hkey
    · cases hlookup : map.lookup key with
      | none => exact absurd hmem (lookup_eq_none_iff.mp hlookup)
      | some old => rw [hkey, hlookup, Option.getD_some]
    · rfl
  · rw [insertNew_of_not_mem value hmem]
    split_ifs with hkey
    · rw [hkey, lookup_insert_self, lookup_eq_none_iff.mpr hmem, Option.getD_none]
    · exact lookup_insert_of_ne hkey value map

theorem nodup_insertNew (key : K) (value : V) {map : List (K × V)}
    (hnodup : (map.map Prod.fst).Nodup) : ((insertNew key value map).map Prod.fst).Nodup := by
  unfold insertNew
  split
  · exact hnodup
  · exact nodup_insert key value hnodup

theorem length_le_insertNew (key : K) (value : V) (map : List (K × V)) :
    map.length ≤ (insertNew key value map).length := by
  unfold insertNew
  split
  · exact le_rfl
  · rename_i hnone
    rw [length_insert_of_lookup_eq_none value (Option.not_isSome_iff_eq_none.mp hnone)]
    exact Nat.le_succ _

theorem mem_keys_insert {key key' : K} {value : V} {map : List (K × V)} :
    key' ∈ (insert key value map).map Prod.fst ↔ key' ∈ map.map Prod.fst ∨ key' = key := by
  simp only [List.mem_map, mem_insert]
  constructor
  · rintro ⟨entry, rfl | ⟨hentry, -⟩, rfl⟩
    · exact .inr rfl
    · exact .inl ⟨entry, hentry, rfl⟩
  · intro hkey
    by_cases heq : key' = key
    · exact ⟨(key, value), .inl rfl, heq.symm⟩
    · obtain ⟨entry, hentry, rfl⟩ := hkey.resolve_right heq
      exact ⟨entry, .inr ⟨hentry, heq⟩, rfl⟩

theorem mem_keys_insertNew {key key' : K} {value : V} {map : List (K × V)} :
    key' ∈ (insertNew key value map).map Prod.fst ↔ key' ∈ map.map Prod.fst ∨ key' = key := by
  unfold insertNew
  split
  · rename_i hsome
    have hmem : key ∈ map.map Prod.fst := by
      by_contra hnot
      rw [lookup_eq_none_iff.mpr hnot] at hsome
      cases hsome
    constructor
    · exact Or.inl
    · rintro (hkey | rfl)
      · exact hkey
      · exact hmem
  · exact mem_keys_insert

/-! ## Lists that are maps -/

/-- The keys are distinct and in order. -/
structure Ordered (map : List (K × V)) : Prop where
  sorted : map.Pairwise fun a b => a.1 ≤ b.1
  nodup : (map.map Prod.fst).Nodup

namespace Ordered

variable {map : List (K × V)}

omit [DecidableLE K] [DecidableEq K] in
theorem nil : Ordered ([] : List (K × V)) :=
  ⟨List.Pairwise.nil, List.nodup_nil⟩

theorem insert [Std.Total (α := K) (· ≤ ·)] [IsTrans K (· ≤ ·)] (hordered : Ordered map) (key : K)
    (value : V) : Ordered (OrderedMap.insert key value map) :=
  ⟨pairwise_insert key value hordered.sorted, nodup_insert key value hordered.nodup⟩

omit [DecidableLE K] [DecidableEq K] in
theorem filter (hordered : Ordered map) (keep : K × V → Bool) : Ordered (map.filter keep) :=
  ⟨hordered.sorted.sublist List.filter_sublist,
    hordered.nodup.sublist (List.filter_sublist.map _)⟩

omit [DecidableLE K] [DecidableEq K] in
/-- Values may change. -/
theorem of_keys {W : Type*} {map' : List (K × W)} (hordered : Ordered map)
    (hkeys : map'.map Prod.fst = map.map Prod.fst) : Ordered map' := by
  have hsorted : (map'.map Prod.fst).Pairwise (· ≤ ·) := by
    rw [hkeys]
    exact List.pairwise_map.mpr hordered.sorted
  exact ⟨List.pairwise_map.mp hsorted, hkeys ▸ hordered.nodup⟩

end Ordered

/-! ## Maps that count -/

/-- The keys of the map are the elements of the list, each of them once. -/
structure KeyedBy (keys : List K) (map : List (K × V)) : Prop where
  nodup : (map.map Prod.fst).Nodup
  mem_iff : ∀ key, key ∈ map.map Prod.fst ↔ key ∈ keys

namespace KeyedBy

variable {keys : List K} {map : List (K × V)} {key : K}

omit [LE K] [DecidableLE K] [DecidableEq K] in
theorem nil : KeyedBy ([] : List K) ([] : List (K × V)) :=
  ⟨List.nodup_nil, fun _ => Iff.rfl⟩

theorem insertNew (hkeyed : KeyedBy keys map) (key : K) (value : V) :
    KeyedBy (keys ++ [key]) (OrderedMap.insertNew key value map) where
  nodup := nodup_insertNew key value hkeyed.nodup
  mem_iff key' := by
    rw [mem_keys_insertNew, hkeyed.mem_iff, List.mem_append, List.mem_singleton]

theorem insert (hkeyed : KeyedBy keys map) (key : K) (value : V) :
    KeyedBy (keys ++ [key]) (OrderedMap.insert key value map) where
  nodup := nodup_insert key value hkeyed.nodup
  mem_iff key' := by
    rw [mem_keys_insert, hkeyed.mem_iff, List.mem_append, List.mem_singleton]

omit [LE K] [DecidableLE K] [DecidableEq K] in
/-- A key that is there counts once. -/
theorem of_mem (hkeyed : KeyedBy keys map) (hmem : key ∈ map.map Prod.fst) :
    KeyedBy (keys ++ [key]) map where
  nodup := hkeyed.nodup
  mem_iff key' := by
    rw [hkeyed.mem_iff, List.mem_append, List.mem_singleton]
    constructor
    · exact Or.inl
    · rintro (hkey | rfl)
      · exact hkey
      · exact (hkeyed.mem_iff _).mp hmem

omit [LE K] [DecidableLE K] in
theorem length_eq (hkeyed : KeyedBy keys map) : map.length = keys.toFinset.card := by
  have hsame : (map.map Prod.fst).toFinset = keys.toFinset := by
    ext key
    simp only [List.mem_toFinset]
    exact hkeyed.mem_iff key
  calc map.length = (map.map Prod.fst).length := (List.length_map _).symm
    _ = (map.map Prod.fst).toFinset.card := (List.toFinset_card_of_nodup hkeyed.nodup).symm
    _ = keys.toFinset.card := by rw [hsame]

end KeyedBy

/-- A key beyond all others goes to the end. -/
theorem insert_eq_append {key : K} (value : V) {map : List (K × V)}
    (hlast : ∀ entry ∈ map, ¬ key ≤ entry.1) (hnew : key ∉ map.map Prod.fst) :
    insert key value map = map ++ [(key, value)] := by
  have hfilter : (map.filter fun entry => entry.1 ≠ key) = map := by
    refine List.filter_eq_self.mpr fun entry hentry => decide_eq_true fun hkey => ?_
    exact hnew (hkey ▸ List.mem_map_of_mem hentry)
  rw [insert, hfilter]
  clear hfilter hnew
  induction map with
  | nil => rfl
  | cons head map ih =>
      rw [List.orderedInsert_cons, if_neg (hlast head (List.mem_cons_self ..)),
        ih fun entry hentry => hlast entry (List.mem_cons_of_mem _ hentry)]
      rfl

/-- A map that is built from its entries in order, by a step that inserts an entry when its
key is new. -/
theorem foldl_eq_append [Std.Antisymm (α := K) (· ≤ ·)] {W : Type*} {g : W → K × V}
    {step : List (K × V) → W → List (K × V)} {items : List W}
    (hstep : ∀ item ∈ items, ∀ built : List (K × V), (g item).1 ∉ built.map Prod.fst →
      step built item = insert (g item).1 (g item).2 built) :
    ∀ {before : List (K × V)}, Ordered (before ++ items.map g) →
      items.foldl step before = before ++ items.map g := by
  induction items with
  | nil => intro before _; simp
  | cons item items ih =>
      intro before hordered
      have hnodup := hordered.nodup
      rw [List.map_cons, List.map_append, List.map_cons, List.nodup_append'] at hnodup
      have hnew : (g item).1 ∉ before.map Prod.fst := fun hmem =>
        List.disjoint_left.mp hnodup.2.2 hmem (List.mem_cons_self ..)
      have hlast : ∀ other ∈ before, ¬ (g item).1 ≤ other.1 := by
        intro other hother hle
        have hge := (List.pairwise_append.mp hordered.sorted).2.2 other hother (g item)
          (List.mem_cons_self ..)
        have heq : (g item).1 = other.1 := Std.Antisymm.antisymm _ _ hle hge
        exact hnew (heq ▸ List.mem_map_of_mem hother)
      have hrest : Ordered ((before ++ [g item]) ++ items.map g) := by simpa using hordered
      rw [List.foldl_cons, hstep item (List.mem_cons_self ..) before hnew,
        insert_eq_append _ hlast hnew,
        ih (fun other hother => hstep other (List.mem_cons_of_mem _ hother)) hrest]
      simp

end OrderedMap
