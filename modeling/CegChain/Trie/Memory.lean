import CegChain.Trie.Record

/-!
# What is held in memory

Between two writes the database stands for the map `M₀` of the last write, and the
nodes in memory for the map `M` of now.  A pointer that is null, or points to a node
that was not modified, agrees with the record in its parent (`Clean`).  Of a modified
node the record in the parent says nothing; what is below it is the business of its
children and of its leaf (`Inside`).

A node in memory need not be one that is stored: one that lost its keys, or all but one
branch, stays where it is.  What it keeps is that all keys of its slot are below it.
-/

namespace CegChain.Trie

open Paths Layers

/-- Two maps agree below a path. -/
def Same (M₀ M : Content) (p : Path) : Prop :=
  ∀ k, p <+: k → M k = M₀ k

/-- The node stands at `q`, in a slot whose keys are below `p`. -/
structure Placed (M : Content) (frm : NodeFrm) (p q : Path) : Prop where
  location : frm.location = encode q
  pre : p <+: q
  below : Below M p q
  deleted : frm.leafDeleted = true → M q = none ∧ ∃ key, q = nibbles key
  leaf : frm.leafDeleted = false → ∀ v, frm.leaf = some v → M q = some v

variable (codec : Codec) (start : Bytes) (db : Db)

/-- A slot that agrees with its record. -/
def Clean (M : Content) : Pointer → Path → Child → Prop
  | .null, p, c => Record codec start db M p c
  | .node frm children, p, c =>
      Record codec start db M p c ∧ frm.modified = false ∧ ∃ q, Placed M frm p q ∧
        frm.info.leaf = leafRecord codec q (M q) ∧
        ∀ i, Clean M (children i) (q ++ [i]) (frm.info.children i)

/-- A slot, modified or not. -/
def Held (M₀ M : Content) : Pointer → Path → Child → Prop
  | .null, p, c => Record codec start db M₀ p c ∧ Same M₀ M p
  | .node frm children, p, c =>
      (Clean codec start db M₀ (.node frm children) p c ∧ Same M₀ M p) ∨
        (frm.modified = true ∧ ∃ q, Placed M frm p q ∧ Below M₀ p q ∧
          (frm.leafDeleted = false → frm.leaf = none →
            frm.info.leaf = leafRecord codec q (M q) ∧ M q = M₀ q) ∧
          ∀ i, Held M₀ M (children i) (q ++ [i]) (frm.info.children i))

/-- What is at a node and below it. -/
structure Inside (M₀ M : Content) (frm : NodeFrm) (children : Nibble → Pointer) (p q : Path) :
    Prop where
  placed : Placed M frm p q
  below : Below M₀ p q
  leaf : frm.leafDeleted = false → frm.leaf = none →
    frm.info.leaf = leafRecord codec q (M q) ∧ M q = M₀ q
  children : ∀ i, Held codec start db M₀ M (children i) (q ++ [i]) (frm.info.children i)

/-- What is at a node and below it, all of it clean. -/
structure Tidy (M : Content) (frm : NodeFrm) (children : Nibble → Pointer) (p q : Path) :
    Prop where
  placed : Placed M frm p q
  leaf : frm.info.leaf = leafRecord codec q (M q)
  children : ∀ i, Clean codec start db M (children i) (q ++ [i]) (frm.info.children i)

variable {codec start db} {M M' M₀ : Content} {p p' q k : Path} {c : Child} {ptr : Pointer}
  {frm : NodeFrm} {children : Nibble → Pointer}

theorem Same.mono (hsame : Same M₀ M p) (hpre : p <+: p') : Same M₀ M p' :=
  fun k hk => hsame k (hpre.trans hk)

theorem Same.below (hsame : Same M₀ M p) (hbelow : Below M₀ p q) : Below M p q :=
  fun k hk hkey => hbelow k hk (by rwa [← hsame k hk])

theorem Clean.record (hclean : Clean codec start db M ptr p c) : Record codec start db M p c := by
  cases ptr with
  | null => exact hclean
  | node frm children => exact hclean.1

theorem clean_node_iff : Clean codec start db M (.node frm children) p c ↔
    Record codec start db M p c ∧ frm.modified = false ∧
      ∃ q, Tidy codec start db M frm children p q := by
  constructor
  · rintro ⟨hrecord, hmodified, q, hplaced, hleaf, hchildren⟩
    exact ⟨hrecord, hmodified, q, hplaced, hleaf, hchildren⟩
  · rintro ⟨hrecord, hmodified, q, hplaced, hleaf, hchildren⟩
    exact ⟨hrecord, hmodified, q, hplaced, hleaf, hchildren⟩

/-- One of the children is replaced. -/
theorem Tidy.setBranch {branch : Nibble} (htidy : Tidy codec start db M frm children p q)
    (hclean : Clean codec start db M ptr (q ++ [branch]) (frm.info.children branch)) :
    Tidy codec start db M frm (Function.update children branch ptr) p q := by
  refine ⟨htidy.placed, htidy.leaf, fun i => ?_⟩
  by_cases hi : i = branch
  · rw [hi, Function.update_self]
    exact hclean
  · rw [Function.update_of_ne hi]
    exact htidy.children i

theorem Clean.held (hclean : Clean codec start db M₀ ptr p c) (hsame : Same M₀ M p) :
    Held codec start db M₀ M ptr p c := by
  cases ptr with
  | null => exact ⟨hclean, hsame⟩
  | node frm children => exact .inl ⟨hclean, hsame⟩

theorem Inside.held (hinside : Inside codec start db M₀ M frm children p q)
    (hmodified : frm.modified = true) (c : Child) :
    Held codec start db M₀ M (.node frm children) p c :=
  .inr ⟨hmodified, q, hinside.placed, hinside.below, hinside.leaf, hinside.children⟩

theorem Placed.congr (hplaced : Placed M frm p q) (hsame : Same M M' p) : Placed M' frm p q where
  location := hplaced.location
  pre := hplaced.pre
  below := hsame.below hplaced.below
  deleted hdeleted := by
    rw [hsame q hplaced.pre]
    exact hplaced.deleted hdeleted
  leaf hdeleted := by
    rw [hsame q hplaced.pre]
    exact hplaced.leaf hdeleted

theorem Tidy.inside (htidy : Tidy codec start db M₀ frm children p q) (hsame : Same M₀ M p) :
    Inside codec start db M₀ M frm children p q := by
  have hq := hsame q htidy.placed.pre
  refine ⟨htidy.placed.congr hsame, htidy.placed.below, fun _ _ => ⟨?_, hq⟩, fun i => ?_⟩
  · rw [hq, htidy.leaf]
  · exact (htidy.children i).held
      (hsame.mono (htidy.placed.pre.trans (List.prefix_append q [i])))

/-- What is at a node and below it. -/
theorem Held.inside (hheld : Held codec start db M₀ M (.node frm children) p c) :
    ∃ q, Inside codec start db M₀ M frm children p q := by
  rcases hheld with ⟨hclean, hsame⟩ | ⟨-, q, hplaced, hbelow, hleaf, hchildren⟩
  · obtain ⟨-, -, q, htidy⟩ := clean_node_iff.mp hclean
    exact ⟨q, htidy.inside hsame⟩
  · exact ⟨q, hplaced, hbelow, hleaf, hchildren⟩

/-- A slot depends only on what is below its path. -/
theorem Held.congr (hheld : Held codec start db M₀ M ptr p c) (hsame : Same M M' p) :
    Held codec start db M₀ M' ptr p c := by
  induction ptr generalizing p c with
  | null => exact ⟨hheld.1, fun k hk => (hsame k hk).trans (hheld.2 k hk)⟩
  | node frm children ih =>
      rcases hheld with ⟨hclean, hsame'⟩ | ⟨hmodified, q, hplaced, hbelow, hleaf, hchildren⟩
      · exact .inl ⟨hclean, fun k hk => (hsame k hk).trans (hsame' k hk)⟩
      · refine .inr ⟨hmodified, q, hplaced.congr hsame, hbelow, fun hdeleted hnone => ?_,
          fun i => ih i (hchildren i)
            (hsame.mono (hplaced.pre.trans (List.prefix_append q [i])))⟩
        rw [hsame q hplaced.pre]
        exact hleaf hdeleted hnone

/-- The slot of a node is made longer, but not beyond the node. -/
theorem Held.narrow (hheld : Held codec start db M₀ M (.node frm children) p c)
    (hlocation : frm.location = encode q) (hpre : p <+: p') (hpre' : p' <+: q) :
    Held codec start db M₀ M (.node frm children) p' c := by
  have hplaced : ∀ {M : Content} {q' : Path}, Placed M frm p q' → q' = q ∧ Placed M frm p' q' := by
    intro M q' hplaced
    obtain rfl := encode_injective (hplaced.location.symm.trans hlocation)
    exact ⟨rfl, hplaced.location, hpre', fun k hk => hplaced.below k (hpre.trans hk),
      hplaced.deleted, hplaced.leaf⟩
  rcases hheld with ⟨⟨hrecord, hmodified, q', hq', hleaf, hchildren⟩, hsame⟩ |
    ⟨hmodified, q', hq', hbelow, hleaf, hchildren⟩
  · obtain ⟨rfl, hq''⟩ := hplaced hq'
    refine .inl ⟨⟨hrecord.narrow hpre fun k hk hkey => ?_, hmodified, q', hq'', hleaf,
      hchildren⟩, hsame.mono hpre⟩
    exact hpre'.trans (hq'.below k hk hkey)
  · obtain ⟨rfl, hq''⟩ := hplaced hq'
    exact .inr ⟨hmodified, q', hq'', fun k hk => hbelow k (hpre.trans hk), hleaf, hchildren⟩

/-- There is no key below a slot without a node. -/
theorem Held.of_null (hheld : Held codec start db M₀ M .null p c) (htype : c.childtype = .none) :
    (∀ k, p <+: k → M₀ k = none) ∧ ∀ k, p <+: k → M k = none := by
  obtain ⟨hrecord, hsame⟩ := hheld
  have hnone := (hrecord.of_none htype).2
  exact ⟨hnone, fun k hk => (hsame k hk).trans (hnone k hk)⟩

/-- An empty slot, below a path without keys. -/
theorem held_empty (hnone : ∀ k, p <+: k → M₀ k = none) (hnone' : ∀ k, p <+: k → M k = none) :
    Held codec start db M₀ M .null p {} :=
  ⟨.empty hnone, fun k hk => (hnone' k hk).trans (hnone k hk).symm⟩

/-! ## Children from the database -/

/-- **A child is found** when it is needed. -/
theorem clean_childMayFromDB {branch : Nibble}
    (hclean : Clean codec start db M (children branch) p (frm.info.children branch)) :
    ∃ ptr, childMayFromDB codec start db frm children branch =
        some (Function.update children branch ptr) ∧
      Clean codec start db M ptr p (frm.info.children branch) ∧
      (ptr = .null → (frm.info.children branch).childtype = .none) := by
  unfold childMayFromDB
  cases hchild : children branch with
  | node frm₂ children₂ =>
      rw [hchild] at hclean
      refine ⟨.node frm₂ children₂, ?_, hclean, fun h => by cases h⟩
      dsimp only
      rw [← hchild, Function.update_eq_self]
  | null =>
      rw [hchild] at hclean
      have hrecord : Record codec start db M p (frm.info.children branch) := hclean
      generalize frm.info.children branch = chd at hrecord ⊢
      cases hrecord with
      | empty hnone =>
          refine ⟨.null, ?_, .empty hnone, fun _ => rfl⟩
          dsimp only
          rw [← hchild, Function.update_eq_self]
      | @leaf _ q v hpre hvalue hother =>
          refine ⟨_, rfl, ⟨.leaf hpre hvalue hother, rfl, q, ⟨rfl, hpre, fun k hk hkey => ?_,
            nofun, nofun⟩, ?_, fun i => ?_⟩, nofun⟩
          · by_cases heq : k = q
            · rw [heq]
            · exact absurd (hother k hk heq) hkey
          · rw [hvalue]
            rfl
          · refine .empty fun k hk => hother k ?_ ?_
            · exact hpre.trans ((List.prefix_append q [i]).trans hk)
            · rintro rfl
              exact not_prefix_next_self k i hk
      | @inner _ q info hpre hbelow hleaf hchildren hbranches hstored =>
          refine ⟨.single { location := encode q, modified := false, info := info }, ?_,
            ⟨.inner hpre hbelow hleaf hchildren hbranches hstored, rfl, q,
              ⟨rfl, hpre, hbelow, nofun, nofun⟩, hleaf, hchildren⟩, nofun⟩
          dsimp only
          rw [storageLoad, hstored, Option.map_some, codec.parse_serialize]
          rfl

theorem held_childMayFromDB {branch : Nibble}
    (hheld : Held codec start db M₀ M (children branch) p (frm.info.children branch)) :
    ∃ ptr, childMayFromDB codec start db frm children branch =
        some (Function.update children branch ptr) ∧
      Held codec start db M₀ M ptr p (frm.info.children branch) ∧
      (ptr = .null → (frm.info.children branch).childtype = .none) ∧
      (Clean codec start db M₀ (children branch) p (frm.info.children branch) →
        Clean codec start db M₀ ptr p (frm.info.children branch)) := by
  cases hchild : children branch with
  | null =>
      rw [hchild] at hheld
      obtain ⟨hrecord, hsame⟩ := hheld
      have hclean : Clean codec start db M₀ (children branch) p (frm.info.children branch) := by
        rw [hchild]
        exact hrecord
      obtain ⟨ptr, hload, hptr, hnull⟩ := clean_childMayFromDB hclean
      exact ⟨ptr, hload, hptr.held hsame, hnull, fun _ => hptr⟩
  | node frm₂ children₂ =>
      rw [hchild] at hheld
      refine ⟨.node frm₂ children₂, ?_, hheld, nofun, id⟩
      rw [childMayFromDB, hchild]
      dsimp only
      rw [← hchild, Function.update_eq_self]

end CegChain.Trie
