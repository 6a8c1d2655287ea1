import CegChain.Trie.Memory

/-!
# Setting, deleting and finding an item

`SetItem`, `DeleteItem` and `Exists` go down the path of a key.  Each comes to an end,
never misses a record of the database, and keeps what `Inside` says of the node it
started from, for the map with the item set or deleted.
-/

namespace CegChain.Trie

open Paths Layers

variable {codec : Codec} {start : Bytes} {db : Db} {M M' M₀ : Content} {p q k x : Path}
  {b i j : Nibble} {frm frm' : NodeFrm} {children children' : Nibble → Pointer}

/-- Off the way to a node there is no key. -/
theorem none_of_below (hbelow : Below M p q) (hpre : p <+: x ++ [i]) (hj : x ++ [j] <+: q)
    (hne : i ≠ j) : ∀ k, x ++ [i] <+: k → M k = none := by
  intro k hk
  by_contra hkey
  exact hne (next_unique hk (hj.trans (hbelow k (hpre.trans hk) hkey)))

theorem same_update {v : Option Bytes} (hpre : ¬ p <+: k) : Same M (Function.update M k v) p := by
  intro l hl
  rw [Function.update_of_ne]
  rintro rfl
  exact hpre hl

/-- The branch that leads from a node to a key below it. -/
theorem exists_branch (hlocation : frm.location = encode q) (hpre : q <+: k) (hne : q ≠ k) :
    ∃ b, q ++ [b] <+: k ∧
      nextBranch (commonPrefix frm.location (encode k)) (encode k) = some b := by
  obtain ⟨b, hb⟩ := exists_next hpre hne
  refine ⟨b, hb, ?_⟩
  rw [hlocation, commonPrefix_encode, common_eq_left hpre, nextBranch_encode hb]

/-- A key changes below one branch, and that branch is put right. -/
theorem Inside.setBranch {v : Option Bytes} (hinside : Inside codec start db M₀ M frm children p q)
    (hb : q ++ [b] <+: k) (hlocation : frm'.location = frm.location)
    (hdeleted : frm'.leafDeleted = frm.leafDeleted) (hleaf : frm'.leaf = frm.leaf)
    (hinfo : frm'.info.leaf = frm.info.leaf)
    (hrecords : ∀ i, i ≠ b → frm'.info.children i = frm.info.children i)
    (hchildren : ∀ i, i ≠ b → children' i = children i)
    (hchild : Held codec start db M₀ (Function.update M k v) (children' b) (q ++ [b])
      (frm'.info.children b)) :
    Inside codec start db M₀ (Function.update M k v) frm' children' p q := by
  have hqk : q <+: k := (List.prefix_append q [b]).trans hb
  have hq : Function.update M k v q = M q := by
    rw [Function.update_of_ne]
    rintro rfl
    exact not_prefix_next_self q b hb
  refine ⟨⟨hlocation.trans hinside.placed.location, hinside.placed.pre, fun l hl hkey => ?_, ?_,
    ?_⟩, hinside.below, ?_, fun i => ?_⟩
  · by_cases heq : l = k
    · rwa [heq]
    · rw [Function.update_of_ne heq] at hkey
      exact hinside.placed.below l hl hkey
  · rw [hdeleted, hq]
    exact hinside.placed.deleted
  · rw [hdeleted, hleaf, hq]
    exact hinside.placed.leaf
  · rw [hdeleted, hleaf, hinfo, hq]
    exact hinside.leaf
  · by_cases hi : i = b
    · rwa [hi]
    · rw [hrecords i hi, hchildren i hi]
      exact (hinside.children i).congr (same_update fun h => hi (next_unique h hb))

/-! ## Set -/

/-- A new node for a key, below a path without keys. -/
theorem inside_newnode {v : Bytes} (hpre : p <+: k) (hnone : ∀ l, p <+: l → M₀ l = none)
    (hnone' : ∀ l, p <+: l → M l = none) :
    Inside codec start db M₀ (Function.update M k (some v))
      (NodeFrm.setValue v { location := encode k }) (fun _ => .null) p k := by
  refine ⟨⟨rfl, hpre, fun l hl hkey => ?_, nofun, fun _ w hw => ?_⟩, fun l hl hkey => ?_, nofun,
    fun i => ?_⟩
  · by_cases heq : l = k
    · rw [heq]
    · rw [Function.update_of_ne heq] at hkey
      exact absurd (hnone' l hl) hkey
  · rw [Function.update_self]
    exact hw
  · exact absurd (hnone l hl) hkey
  · have hki : p <+: k ++ [i] := hpre.trans (List.prefix_append k [i])
    refine held_empty (fun l hl => hnone l (hki.trans hl)) fun l hl => ?_
    exact (same_update (not_prefix_next_self k i) l hl).trans (hnone' l (hki.trans hl))

/-- A new node for a key, above a node. -/
theorem inside_above {v : Bytes} {child2 : Child} {frm₂ : NodeFrm}
    {children₂ : Nibble → Pointer} (hpre : p <+: k)
    (hheld : Held codec start db M₀ M (.node frm₂ children₂) p child2)
    (hinside : Inside codec start db M₀ M frm₂ children₂ p q) (hb : k ++ [b] <+: q) :
    Inside codec start db M₀ (Function.update M k (some v))
      (((NodeFrm.setValue v { location := encode k }).setChild b frm₂.location).setRecord b child2)
      (Function.update (fun _ => .null) b (.node frm₂ children₂)) p k := by
  have hkq : k <+: q := (List.prefix_append k [b]).trans hb
  refine ⟨⟨rfl, hpre, fun l hl hkey => ?_, nofun, fun _ w hw => ?_⟩, fun l hl hkey => ?_, nofun,
    fun i => ?_⟩
  · by_cases heq : l = k
    · rw [heq]
    · rw [Function.update_of_ne heq] at hkey
      exact hkq.trans (hinside.placed.below l hl hkey)
  · rw [Function.update_self]
    exact hw
  · exact hkq.trans (hinside.below l hl hkey)
  · have hki : p <+: k ++ [i] := hpre.trans (List.prefix_append k [i])
    by_cases hi : i = b
    · subst hi
      have hnarrow := hheld.narrow hinside.placed.location hki hb
      have hcongr := hnarrow.congr (same_update (v := some v) (not_prefix_next_self k i))
      simpa [NodeFrm.setRecord] using hcongr
    · have hempty : Held codec start db M₀ (Function.update M k (some v)) .null (k ++ [i]) {} := by
        refine held_empty (none_of_below hinside.below hki hb hi) fun l hl => ?_
        exact (same_update (not_prefix_next_self k i) l hl).trans
          (none_of_below hinside.placed.below hki hb hi l hl)
      simpa [NodeFrm.setRecord, NodeFrm.setChild, NodeFrm.setValue, Function.update_of_ne hi]
        using hempty

/-- A new node where a key and a node fork. -/
theorem inside_fork {v : Bytes} {child2 : Child} {frm₂ : NodeFrm} {children₂ : Nibble → Pointer}
    {b₁ b₂ : Nibble} (hpre : p <+: x)
    (hheld : Held codec start db M₀ M (.node frm₂ children₂) p child2)
    (hinside : Inside codec start db M₀ M frm₂ children₂ p q) (hne : b₁ ≠ b₂)
    (hb₁ : x ++ [b₁] <+: k) (hb₂ : x ++ [b₂] <+: q) :
    Inside codec start db M₀ (Function.update M k (some v))
      (((({ location := encode x } : NodeFrm).setChild b₁ (encode k)).setChild b₂
        frm₂.location).setRecord b₂ child2)
      (Function.update (Function.update (fun _ => .null) b₁
        (.single (NodeFrm.setValue v { location := encode k }))) b₂
          (.node frm₂ children₂)) p x := by
  have hxk : x <+: k := (List.prefix_append x [b₁]).trans hb₁
  have hxq : x <+: q := (List.prefix_append x [b₂]).trans hb₂
  have hnone : ∀ {M : Content}, Below M p q → M x = none := by
    intro M hbelow
    by_contra hkey
    exact not_prefix_next_self x b₂ (hb₂.trans (hbelow x hpre hkey))
  have hx : Function.update M k (some v) x = none := by
    rw [Function.update_of_ne, hnone hinside.placed.below]
    rintro rfl
    exact not_prefix_next_self x b₁ hb₁
  refine ⟨⟨rfl, hpre, fun l hl hkey => ?_, nofun, nofun⟩, fun l hl hkey => ?_, fun _ _ => ?_,
    fun i => ?_⟩
  · by_cases heq : l = k
    · rwa [heq]
    · rw [Function.update_of_ne heq] at hkey
      exact hxq.trans (hinside.placed.below l hl hkey)
  · exact hxq.trans (hinside.below l hl hkey)
  · rw [hx, hnone hinside.below]
    exact ⟨rfl, rfl⟩
  · have hxi : p <+: x ++ [i] := hpre.trans (List.prefix_append x [i])
    by_cases hi₂ : i = b₂
    · subst hi₂
      have hnarrow := hheld.narrow hinside.placed.location hxi hb₂
      have hcongr := hnarrow.congr
        (same_update (v := some v) fun h => hne (next_unique hb₁ h))
      simpa [NodeFrm.setRecord] using hcongr
    · by_cases hi₁ : i = b₁
      · subst hi₁
        have hnew : Inside codec start db M₀ (Function.update M k (some v))
            (NodeFrm.setValue v { location := encode k }) (fun _ => .null) (x ++ [i]) k :=
          inside_newnode hb₁ (none_of_below hinside.below hxi hb₂ hi₂)
            (none_of_below hinside.placed.below hxi hb₂ hi₂)
        rw [Function.update_of_ne hi₂, Function.update_self]
        exact hnew.held rfl _
      · have hempty :
            Held codec start db M₀ (Function.update M k (some v)) .null (x ++ [i]) {} := by
          refine held_empty (none_of_below hinside.below hxi hb₂ hi₂) fun l hl => ?_
          exact (same_update (fun h => hi₁ (next_unique h hb₁)) l hl).trans
            (none_of_below hinside.placed.below hxi hb₂ hi₂ l hl)
        simpa [NodeFrm.setRecord, NodeFrm.setChild, hi₁, hi₂] using hempty

/-- What `SetItem` gives at a node at the key or above it. -/
inductive SetsAt (codec : Codec) (start : Bytes) (db : Db) (M₀ M : Content) (v : Bytes) (k : Path)
    (fuel : ℕ) (frm : NodeFrm) (children : Nibble → Pointer) (q : Path) :
    Option (Bool × Pointer) → Prop
  /-- The node of the key is there. -/
  | here (hself : q = k) :
      SetsAt codec start db M₀ M v k fuel frm children q
        (some (false, .node (({ frm with modified := true } : NodeFrm).setValue v) children))
  /-- There is no node on the way on. -/
  | new {b : Nibble} (hb : q ++ [b] <+: k)
      (hload : childMayFromDB codec start db frm children b =
        some (Function.update children b .null))
      (hnone : ∀ l, q ++ [b] <+: l → M₀ l = none) (hnone' : ∀ l, q ++ [b] <+: l → M l = none) :
      SetsAt codec start db M₀ M v k fuel frm children q
        (some (true, .node (({ frm with modified := true } : NodeFrm).setRecord b
            { frm.info.children b with sublocation := encode k, childtype := .leaf })
          (Function.update (Function.update children b .null) b
            (.single (NodeFrm.setValue v { location := encode k })))))
  /-- The next node is at the key or above it. -/
  | down {b : Nibble} {frm₂ : NodeFrm} {children₂ : Nibble → Pointer} {q₂ : Path}
      (hb : q ++ [b] <+: k)
      (hload : childMayFromDB codec start db frm children b =
        some (Function.update children b (.node frm₂ children₂)))
      (hheld : Held codec start db M₀ M (.node frm₂ children₂) (q ++ [b]) (frm.info.children b))
      (hinside : Inside codec start db M₀ M frm₂ children₂ (q ++ [b]) q₂) (hdown : q₂ <+: k) :
      SetsAt codec start db M₀ M v k fuel frm children q
        ((setItem codec start db (encode k) v fuel frm₂ children₂).map fun r =>
          (r.1, .node { frm with modified := true }
            (Function.update (Function.update children b (.node frm₂ children₂)) b r.2)))
  /-- The next node is below the key. -/
  | above {b b₁ : Nibble} {frm₂ : NodeFrm} {children₂ : Nibble → Pointer} {q₂ : Path}
      (hb : q ++ [b] <+: k)
      (hload : childMayFromDB codec start db frm children b =
        some (Function.update children b (.node frm₂ children₂)))
      (hheld : Held codec start db M₀ M (.node frm₂ children₂) (q ++ [b]) (frm.info.children b))
      (hinside : Inside codec start db M₀ M frm₂ children₂ (q ++ [b]) q₂)
      (hb₁ : k ++ [b₁] <+: q₂) :
      SetsAt codec start db M₀ M v k fuel frm children q
        (some (true, .node (({ frm with modified := true } : NodeFrm).setRecord b
            { frm.info.children b with sublocation := encode k, childtype := .inner })
          (Function.update (Function.update children b (.node frm₂ children₂)) b
            (.node (((NodeFrm.setValue v { location := encode k }).setChild b₁
                frm₂.location).setRecord b₁ (frm.info.children b))
              (Function.update (fun _ => .null) b₁ (.node frm₂ children₂))))))
  /-- The way to the next node and the way to the key fork. -/
  | fork {b b₁ b₂ : Nibble} {frm₂ : NodeFrm} {children₂ : Nibble → Pointer} {q₂ : Path}
      (hb : q ++ [b] <+: k)
      (hload : childMayFromDB codec start db frm children b =
        some (Function.update children b (.node frm₂ children₂)))
      (hheld : Held codec start db M₀ M (.node frm₂ children₂) (q ++ [b]) (frm.info.children b))
      (hinside : Inside codec start db M₀ M frm₂ children₂ (q ++ [b]) q₂) (hne : b₁ ≠ b₂)
      (hb₁ : common k q₂ ++ [b₁] <+: k) (hb₂ : common k q₂ ++ [b₂] <+: q₂) :
      SetsAt codec start db M₀ M v k fuel frm children q
        (some (true, .node
          (({ frm with modified := true } : NodeFrm).setChild b (encode (common k q₂)))
          (Function.update (Function.update children b (.node frm₂ children₂)) b
            (.node (((({ location := encode (common k q₂) } : NodeFrm).setChild b₁
                (encode k)).setChild b₂ frm₂.location).setRecord b₂ (frm.info.children b))
              (Function.update (Function.update (fun _ => .null) b₁
                (.single (NodeFrm.setValue v { location := encode k }))) b₂
                  (.node frm₂ children₂))))))

/-- **One level of `SetItem`.** -/
theorem Inside.setsAt (hinside : Inside codec start db M₀ M frm children p q) (hpre : q <+: k)
    (v : Bytes) (fuel : ℕ) :
    SetsAt codec start db M₀ M v k fuel frm children q
      (setItem codec start db (encode k) v (fuel + 1) frm children) := by
  unfold setItem
  dsimp only
  by_cases hself : q = k
  · rw [if_pos (hinside.placed.location.trans (congrArg encode hself))]
    exact .here hself
  · rw [if_neg fun h => hself (encode_injective (hinside.placed.location.symm.trans h))]
    obtain ⟨b, hb, hbranch⟩ := exists_branch hinside.placed.location hpre hself
    obtain ⟨ptr, hload, hheld, hnull, -⟩ := held_childMayFromDB (hinside.children b)
    have hload' : childMayFromDB codec start db { frm with modified := true } children b =
      some (Function.update children b ptr) := hload
    simp only [hbranch, hload', Option.bind_eq_bind, Option.bind_some, Function.update_self]
    cases ptr with
    | null =>
        obtain ⟨hnone, hnone'⟩ := hheld.of_null (hnull rfl)
        exact .new hb hload hnone hnone'
    | node frm₂ children₂ =>
        obtain ⟨q₂, hinside₂⟩ := hheld.inside
        dsimp only
        have hlocation := hinside₂.placed.location
        rw [hlocation, commonPrefix_encode]
        by_cases hdown : common k q₂ = q₂
        · rw [if_pos (congrArg encode hdown)]
          have hmap : SetsAt codec start db M₀ M v k fuel frm children q _ :=
            .down hb hload hheld hinside₂ (common_eq_right_iff.mp hdown)
          rwa [Option.map_eq_bind] at hmap
        · rw [if_neg fun h => hdown (encode_injective h)]
          by_cases hup : common k q₂ = k
          · obtain ⟨b₁, hb₁⟩ := exists_next (common_eq_left_iff.mp hup)
              fun h => hdown (by rw [hup, h])
            rw [if_pos (congrArg encode hup), hup, nextBranch_encode hb₁, Option.bind_some,
              ← hlocation]
            exact .above hb hload hheld hinside₂ hb₁
          · obtain ⟨b₁, b₂, hne, hb₁, hb₂⟩ := exists_fork
              (fun h => hup (common_eq_left_iff.mpr h))
              (fun h => hdown (common_eq_right_iff.mpr h))
            rw [if_neg fun h => hup (encode_injective h), nextBranch_encode hb₁,
              Option.bind_some, nextBranch_encode hb₂, Option.bind_some, ← hlocation]
            exact .fork hb hload hheld hinside₂ hne hb₁ hb₂

/-- Off the branch that is set, the children are as they were. -/
theorem update_update_of_ne {ptr ptr' : Pointer} (hi : i ≠ b) :
    Function.update (Function.update children b ptr) b ptr' i = children i := by
  rw [Function.update_of_ne hi, Function.update_of_ne hi]

/-- **`SetItem`** sets the item of its key. -/
theorem setItem_spec (v : Bytes) (fuel : ℕ) :
    ∀ {frm : NodeFrm} {children : Nibble → Pointer} {p q : Path},
      Inside codec start db M₀ M frm children p q → q <+: k → k.length < q.length + fuel →
      ∃ added frm' children', setItem codec start db (encode k) v fuel frm children =
          some (added, .node frm' children') ∧ frm'.modified = true ∧
        Inside codec start db M₀ (Function.update M k (some v)) frm' children' p q := by
  induction fuel with
  | zero =>
      intro frm children p q hinside hpre hfuel
      have hle := hpre.length_le
      omega
  | succ fuel ih =>
      intro frm children p q hinside hpre hfuel
      have hsets := hinside.setsAt hpre v fuel
      generalize setItem codec start db (encode k) v (fuel + 1) frm children = r at hsets ⊢
      cases hsets with
      | here hself =>
          subst hself
          refine ⟨_, _, _, rfl, rfl, ⟨hinside.placed.location, hinside.placed.pre,
            fun l hl hkey => ?_, nofun, fun _ w hw => ?_⟩, hinside.below, nofun, fun i => ?_⟩
          · by_cases heq : l = q
            · rw [heq]
            · rw [Function.update_of_ne heq] at hkey
              exact hinside.placed.below l hl hkey
          · rw [Function.update_self]
            exact hw
          · exact (hinside.children i).congr (same_update (not_prefix_next_self q i))
      | new hb hload hnone hnone' =>
          refine ⟨_, _, _, rfl, rfl, hinside.setBranch hb rfl rfl rfl rfl
            (fun i hi => Function.update_of_ne hi ..) (fun i hi => update_update_of_ne hi) ?_⟩
          rw [Function.update_self]
          exact (inside_newnode hb hnone hnone').held rfl _
      | down hb hload hheld hinside₂ hdown =>
          have hlength := hinside₂.placed.pre.length_le
          rw [List.length_append, List.length_singleton] at hlength
          obtain ⟨added, frm', children', hset, hmodified, hinside'⟩ :=
            ih hinside₂ hdown (by omega)
          rw [hset]
          refine ⟨_, _, _, rfl, rfl, hinside.setBranch hb rfl rfl rfl rfl (fun i _ => rfl)
            (fun i hi => update_update_of_ne hi) ?_⟩
          rw [Function.update_self]
          exact hinside'.held hmodified _
      | above hb hload hheld hinside₂ hb₁ =>
          refine ⟨_, _, _, rfl, rfl, hinside.setBranch hb rfl rfl rfl rfl
            (fun i hi => Function.update_of_ne hi ..) (fun i hi => update_update_of_ne hi) ?_⟩
          rw [Function.update_self]
          exact (inside_above hb hheld hinside₂ hb₁).held rfl _
      | fork hb hload hheld hinside₂ hne hb₁ hb₂ =>
          refine ⟨_, _, _, rfl, rfl, hinside.setBranch hb rfl rfl rfl rfl
            (fun i hi => Function.update_of_ne hi ..) (fun i hi => update_update_of_ne hi) ?_⟩
          rw [Function.update_self]
          exact (inside_fork (prefix_common hb hinside₂.placed.pre) hheld hinside₂ hne hb₁
            hb₂).held rfl _

/-! ## Delete -/

/-- A deletion that finds nothing changes nothing. -/
theorem update_none_eq_self (hnone : M k = none) : Function.update M k none = M := by
  rw [← hnone, Function.update_eq_self]

/-- **`DeleteItem`** deletes the item of its key; when it finds nothing, clean nodes stay
clean. -/
theorem deleteItem_spec {key : Bytes} (hkey : k = nibbles key) (fuel : ℕ) :
    ∀ {frm : NodeFrm} {children : Nibble → Pointer} {p q : Path},
      Inside codec start db M₀ M frm children p q → q <+: k → k.length < q.length + fuel →
      ∃ ret frm' children', deleteItem codec start db (encode k) fuel frm children =
          some (ret, .node frm' children') ∧
        frm'.modified = (frm.modified || ret) ∧
        Inside codec start db M₀ (Function.update M k none) frm' children' p q ∧
        (ret = false → M k = none ∧ (Tidy codec start db M₀ frm children p q →
          Tidy codec start db M₀ frm' children' p q)) := by
  induction fuel with
  | zero =>
      intro frm children p q hinside hpre hfuel
      have hle := hpre.length_le
      omega
  | succ fuel ih =>
      intro frm children p q hinside hpre hfuel
      unfold deleteItem
      rw [if_neg (by rw [hinside.placed.location]; exact not_lt.mpr (length_encode_le hpre))]
      by_cases hself : q = k
      · -- the node of the key is there, with or without a leaf
        subst hself
        rw [if_pos hinside.placed.location.symm]
        refine ⟨_, _, _, rfl, (Bool.or_true _).symm, ⟨⟨hinside.placed.location,
          hinside.placed.pre, fun l hl hlkey => ?_, fun _ => ?_, nofun⟩, hinside.below, nofun,
          fun i => ?_⟩, nofun⟩
        · by_cases heq : l = q
          · rw [heq]
          · rw [Function.update_of_ne heq] at hlkey
            exact hinside.placed.below l hl hlkey
        · exact ⟨Function.update_self .., key, hkey⟩
        · exact (hinside.children i).congr (same_update (not_prefix_next_self q i))
      · rw [if_neg fun h => hself (encode_injective (hinside.placed.location.symm.trans h.symm))]
        obtain ⟨b, hb, hbranch⟩ := exists_branch hinside.placed.location hpre hself
        obtain ⟨ptr, hload, hheld, hnull, hclean⟩ := held_childMayFromDB (hinside.children b)
        simp only [hbranch, hload, Option.bind_eq_bind, Option.bind_some, Function.update_self]
        -- nothing is found below the node
        have hmiss : M k = none →
            Inside codec start db M₀ (Function.update M k none) frm
                (Function.update children b ptr) p q ∧
              (Tidy codec start db M₀ frm children p q →
                Tidy codec start db M₀ frm (Function.update children b ptr) p q) := by
          intro hnone
          refine ⟨hinside.setBranch hb rfl rfl rfl rfl (fun _ _ => rfl) ?_ ?_, fun htidy => ?_⟩
          · exact fun i hi => Function.update_of_ne hi ..
          · rw [Function.update_self, update_none_eq_self hnone]
            exact hheld
          · exact htidy.setBranch (hclean (htidy.children b))
        cases ptr with
        | null =>
            have hnone := (hheld.of_null (hnull rfl)).2 k hb
            obtain ⟨hinside', htidy'⟩ := hmiss hnone
            exact ⟨_, _, _, rfl, (Bool.or_false _).symm, hinside', fun _ => ⟨hnone, htidy'⟩⟩
        | node frm₂ children₂ =>
            obtain ⟨q₂, hinside₂⟩ := hheld.inside
            dsimp only
            by_cases hdown : q₂ <+: k
            · have hcommon : frm₂.location = commonPrefix frm₂.location (encode k) := by
                rw [hinside₂.placed.location, commonPrefix_encode, common_eq_left hdown]
              rw [if_neg (not_not.mpr hcommon)]
              have hlength := hinside₂.placed.pre.length_le
              rw [List.length_append, List.length_singleton] at hlength
              obtain ⟨ret, frm', children', hdelete, hmodified, hinside', hret⟩ :=
                ih hinside₂ hdown (by omega)
              rw [hdelete, Option.bind_some]
              refine ⟨_, _, _, rfl, rfl, hinside.setBranch hb rfl rfl rfl rfl (fun _ _ => rfl)
                ?_ ?_, fun hfalse => ⟨(hret hfalse).1, fun htidy => ?_⟩⟩
              · intro i hi
                rw [Function.update_of_ne hi, Function.update_of_ne hi]
              · rw [Function.update_self]
                -- a node below is clean as before, or modified
                rcases hheld with ⟨hclean₂, hsame⟩ | ⟨hmodified₂, -⟩
                · cases ret with
                  | true => exact hinside'.held (hmodified.trans (Bool.or_true _)) _
                  | false =>
                      obtain ⟨hrecord, hmodified₂, q₂', htidy₂⟩ := clean_node_iff.mp hclean₂
                      obtain rfl := encode_injective
                        (htidy₂.placed.location.symm.trans hinside₂.placed.location)
                      obtain ⟨hnone, htidy'⟩ := hret rfl
                      rw [update_none_eq_self hnone]
                      refine Clean.held (clean_node_iff.mpr ⟨hrecord, ?_, _, htidy' htidy₂⟩) hsame
                      rw [hmodified, hmodified₂, Bool.or_false]
                · exact hinside'.held (by rw [hmodified, hmodified₂, Bool.true_or]) _
              · obtain ⟨hrecord, hmodified₂, q₂', htidy₂⟩ :=
                  clean_node_iff.mp (hclean (htidy.children b))
                obtain rfl := encode_injective
                  (htidy₂.placed.location.symm.trans hinside₂.placed.location)
                subst hfalse
                have hchild : Clean codec start db M₀ (.node frm' children') (q ++ [b])
                    (frm.info.children b) := by
                  refine clean_node_iff.mpr ⟨hrecord, ?_, _, (hret rfl).2 htidy₂⟩
                  rw [hmodified, hmodified₂, Bool.or_false]
                have hset := (htidy.setBranch (hclean (htidy.children b))).setBranch hchild
                exact ⟨⟨hset.placed.location, hset.placed.pre, hset.placed.below,
                  hset.placed.deleted, hset.placed.leaf⟩, hset.leaf, hset.children⟩
            · have hcommon : frm₂.location ≠ commonPrefix frm₂.location (encode k) := by
                rw [hinside₂.placed.location, commonPrefix_encode]
                intro heq
                exact hdown (common_eq_left_iff.mp (encode_injective heq).symm)
              rw [if_pos hcommon]
              have hnone : M k = none := by
                by_contra hkey'
                exact hdown (hinside₂.placed.below k hb hkey')
              obtain ⟨hinside', htidy'⟩ := hmiss hnone
              exact ⟨_, _, _, rfl, (Bool.or_false _).symm, hinside', fun _ => ⟨hnone, htidy'⟩⟩

/-! ## Get -/

/-- **`Exists`** finds every key, in clean nodes, and leaves them clean. -/
theorem existsItem_spec (fuel : ℕ) :
    ∀ {frm : NodeFrm} {children : Nibble → Pointer} {p q : Path},
      Tidy codec start db M frm children p q → q <+: k → k.length < q.length + fuel →
      ∃ found children', existsItem codec start db (encode k) fuel frm children =
          some (found, .node frm children') ∧
        Tidy codec start db M frm children' p q ∧ (M k ≠ none → found = true) := by
  induction fuel with
  | zero =>
      intro frm children p q htidy hpre hfuel
      have hle := hpre.length_le
      omega
  | succ fuel ih =>
      intro frm children p q htidy hpre hfuel
      unfold existsItem
      by_cases hself : q = k
      · rw [if_pos (by rw [htidy.placed.location, hself])]
        exact ⟨_, _, rfl, htidy, fun _ => rfl⟩
      · rw [if_neg fun h => hself (encode_injective (htidy.placed.location.symm.trans h))]
        obtain ⟨b, hb, hbranch⟩ := exists_branch htidy.placed.location hpre hself
        simp only [hbranch, Option.bind_eq_bind, Option.bind_some]
        have hrecord := (htidy.children b).record
        by_cases htype : (frm.info.children b).childtype = .none
        · rw [if_pos htype]
          exact ⟨_, _, rfl, htidy, fun hkey => absurd ((hrecord.of_none htype).2 k hb) hkey⟩
        · obtain ⟨y, hy, hpre', hbelow, hlongest⟩ := hrecord.exists_location htype
          rw [if_neg htype, hy, commonPrefix_encode]
          by_cases hdown : y <+: k
          · obtain ⟨ptr, hload, hclean, hnull⟩ := clean_childMayFromDB (htidy.children b)
            rw [if_neg (not_not.mpr (congrArg encode (common_eq_left_iff.mpr hdown))), hload,
              Option.bind_some, Function.update_self]
            cases ptr with
            | null => exact absurd (hnull rfl) htype
            | node frm₂ children₂ =>
                obtain ⟨hrecord₂, hmodified, q₂, htidy₂⟩ := clean_node_iff.mp hclean
                have hlength := htidy₂.placed.pre.length_le
                rw [List.length_append, List.length_singleton] at hlength
                obtain ⟨found, children', hexists, htidy', hfound⟩ := ih htidy₂
                  ((hlongest q₂ htidy₂.placed.below).trans hdown) (by omega)
                dsimp only
                rw [hexists, Option.bind_some]
                refine ⟨_, _, rfl, (htidy.setBranch hclean).setBranch ?_, hfound⟩
                exact clean_node_iff.mpr ⟨hrecord₂, hmodified, q₂, htidy'⟩
          · rw [if_pos fun h => hdown (common_eq_left_iff.mp (encode_injective h))]
            exact ⟨_, _, rfl, htidy, fun hkey => absurd (hbelow k hb hkey) hdown⟩

end CegChain.Trie
