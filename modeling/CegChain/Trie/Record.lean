import CegChain.Trie.KVTrie

/-!
# The records of a trie

What the database holds for a map from paths to values: below a path with no key there
is no record, one key is a leaf, and several keys are a node at their longest common
beginning with a record for each way on.  `Record` says that a child record is the
right one for the keys below a path, and that the records it refers to are stored.

The record is determined by the map (`Record.unique`), and does not change when the
path is made longer or shorter without losing or gaining a key (`Record.narrow`,
`Record.widen`).
-/

namespace CegChain.Trie

open Paths Layers

/-- What the trie stands for: a value for the path of each key. -/
abbrev Content := Path → Option Bytes

variable {codec : Codec} {start : Bytes} {db db' : Db} {M M' : Content} {p p' q r : Path}
  {c c' : Child}

/-- The record of the leaf at a path. -/
def leafRecord (codec : Codec) (q : Path) : Option Bytes → Child
  | none => {}
  | some v => ⟨encode q, codec.crypto v, .leaf⟩

/-- The keys below one path are all below another. -/
def Below (M : Content) (p q : Path) : Prop :=
  ∀ k, p <+: k → M k ≠ none → q <+: k

/-- The record of what lies below a path. -/
inductive Record (codec : Codec) (start : Bytes) (db : Db) (M : Content) : Path → Child → Prop
  | empty {p : Path} (hnone : ∀ k, p <+: k → M k = none) : Record codec start db M p {}
  | leaf {p q : Path} {v : Bytes} (hpre : p <+: q) (hvalue : M q = some v)
      (hother : ∀ k, p <+: k → k ≠ q → M k = none) :
      Record codec start db M p ⟨encode q, codec.crypto v, .leaf⟩
  | inner {p q : Path} {info : Info} (hpre : p <+: q) (hbelow : Below M p q)
      (hleaf : info.leaf = leafRecord codec q (M q))
      (hchildren : ∀ i, Record codec start db M (q ++ [i]) (info.children i))
      (hbranches : 2 ≤ (branches info).length)
      (hstored : db.lookup (location2DBkey start (encode q) false) = some (codec.serialize info)) :
      Record codec start db M p ⟨encode q, codec.crypto (codec.serialize info), .inner⟩

/-! ## Branches -/

/-- The branches, the leaf apart, that are not empty. -/
def live (info : Info) : List Nibble :=
  (List.finRange 16).filter fun i => (info.children i).childtype ≠ .none

theorem mem_live {info : Info} {i : Nibble} :
    i ∈ live info ↔ (info.children i).childtype ≠ .none := by
  simp [live]

theorem nodup_live (info : Info) : (live info).Nodup :=
  (List.nodup_finRange 16).filter _

theorem branches_eq (info : Info) : branches info =
    (if info.leaf.childtype = .none then [] else [info.leaf]) ++
      (live info).map info.children := by
  rw [branches, List.filter_cons, List.ofFn_eq_map, List.filter_map, live]
  by_cases hleaf : info.leaf.childtype = .none
  · simp [hleaf, Function.comp_def]
  · simp [hleaf, Function.comp_def]

/-- A record with two branches has a leaf and a child, or two children. -/
theorem of_two_branches {info : Info} (hbranches : 2 ≤ (branches info).length) :
    (info.leaf.childtype ≠ .none ∧ ∃ i, (info.children i).childtype ≠ .none) ∨
      ∃ i j, i ≠ j ∧ (info.children i).childtype ≠ .none ∧
        (info.children j).childtype ≠ .none := by
  have hmem := fun i => (@mem_live info i).mp
  have hnodup := nodup_live info
  rw [branches_eq, List.length_append, List.length_map] at hbranches
  cases hlive : live info with
  | nil =>
      rw [hlive, List.length_nil] at hbranches
      split at hbranches <;> simp at hbranches
  | cons i rest =>
      rw [hlive] at hmem hnodup hbranches
      cases rest with
      | nil =>
          split at hbranches
          · simp at hbranches
          · rename_i hleaf
            exact .inl ⟨hleaf, i, hmem i (List.mem_cons_self ..)⟩
      | cons j rest =>
          refine .inr ⟨i, j, ?_, hmem i (by simp), hmem j (by simp)⟩
          rintro rfl
          simp at hnodup

theorem branches_eq_nil {info : Info} (hnil : branches info = []) :
    info.leaf.childtype = .none ∧ ∀ i, (info.children i).childtype = .none := by
  rw [branches_eq, List.append_eq_nil_iff, List.map_eq_nil_iff] at hnil
  obtain ⟨hleaf, hlive⟩ := hnil
  constructor
  · by_contra hne
    rw [if_neg hne] at hleaf
    cases hleaf
  · intro i
    by_contra hne
    have hmem := mem_live.mpr hne
    rw [hlive] at hmem
    cases hmem

/-- The only branch is the leaf or one child. -/
theorem branches_eq_singleton {info : Info} {only : Child} (hone : branches info = [only]) :
    (info.leaf = only ∧ ∀ i, (info.children i).childtype = .none) ∨
      ∃ i, info.children i = only ∧ info.leaf.childtype = .none ∧
        ∀ j, j ≠ i → (info.children j).childtype = .none := by
  rw [branches_eq] at hone
  by_cases hleaf : info.leaf.childtype = .none
  · rw [if_pos hleaf, List.nil_append, List.map_eq_singleton_iff] at hone
    obtain ⟨i, hlive, hi⟩ := hone
    refine .inr ⟨i, hi, hleaf, fun j hj => ?_⟩
    by_contra hne
    have hmem := mem_live.mpr hne
    rw [hlive] at hmem
    exact hj (List.mem_singleton.mp hmem)
  · rw [if_neg hleaf, List.singleton_append, List.cons.injEq, List.map_eq_nil_iff] at hone
    obtain ⟨honly, hlive⟩ := hone
    refine .inl ⟨honly, fun i => ?_⟩
    by_contra hne
    have hmem := mem_live.mpr hne
    rw [hlive] at hmem
    cases hmem

/-! ## Records and keys -/

theorem leafRecord_childtype {v : Option Bytes} :
    (leafRecord codec q v).childtype = .none ↔ v = none := by
  cases v with
  | none => exact iff_of_true rfl rfl
  | some v => exact iff_of_false (by simp [leafRecord]) (by simp)

/-- An empty record says that there is no key. -/
theorem Record.of_none (hrecord : Record codec start db M p c) (htype : c.childtype = .none) :
    c = {} ∧ ∀ k, p <+: k → M k = none := by
  cases hrecord with
  | empty hnone => exact ⟨rfl, hnone⟩
  | leaf => cases htype
  | inner => cases htype

/-- A record that is not empty says that there is a key. -/
theorem Record.exists_key (hrecord : Record codec start db M p c) (htype : c.childtype ≠ .none) :
    ∃ k, p <+: k ∧ M k ≠ none := by
  induction hrecord with
  | empty => exact absurd rfl htype
  | leaf hpre hvalue => exact ⟨_, hpre, by rw [hvalue]; simp⟩
  | @inner p q info hpre hbelow hleaf hchildren hbranches hstored ih =>
      rcases of_two_branches hbranches with ⟨-, i, hi⟩ | ⟨i, -, -, hi, -⟩
      all_goals
        obtain ⟨k, hk, hkey⟩ := ih i hi
        exact ⟨k, hpre.trans ((List.prefix_append q [i]).trans hk), hkey⟩

/-- The keys of a record with two branches fork at its location. -/
theorem exists_fork_of_branches {info : Info} (hleaf : info.leaf = leafRecord codec q (M q))
    (hchildren : ∀ i, Record codec start db M (q ++ [i]) (info.children i))
    (hbranches : 2 ≤ (branches info).length) :
    ∃ k k', q <+: k ∧ q <+: k' ∧ M k ≠ none ∧ M k' ≠ none ∧ k ≠ k' ∧
      ∀ r, r <+: k → r <+: k' → r <+: q := by
  rcases of_two_branches hbranches with ⟨hl, i, hi⟩ | ⟨i, j, hne, hi, hj⟩
  · obtain ⟨k, hk, hkey⟩ := (hchildren i).exists_key hi
    rw [hleaf] at hl
    refine ⟨q, k, List.prefix_rfl, (List.prefix_append q [i]).trans hk,
      fun h => hl (leafRecord_childtype.mpr h), hkey, ?_, fun r hr _ => hr⟩
    rintro rfl
    exact not_prefix_next_self q i hk
  · obtain ⟨k, hk, hkey⟩ := (hchildren i).exists_key hi
    obtain ⟨k', hk', hkey'⟩ := (hchildren j).exists_key hj
    refine ⟨k, k', (List.prefix_append q [i]).trans hk, (List.prefix_append q [j]).trans hk',
      hkey, hkey', ?_, fun r hr hr' => prefix_of_fork hne hk hk' hr hr'⟩
    rintro rfl
    exact hne (next_unique hk hk')

/-- The location of a record: all keys are below it, and so is no longer path. -/
theorem Record.exists_location (hrecord : Record codec start db M p c)
    (htype : c.childtype ≠ .none) :
    ∃ q, c.sublocation = encode q ∧ p <+: q ∧ Below M p q ∧
      ∀ r, Below M p r → r <+: q := by
  cases hrecord with
  | empty => exact absurd rfl htype
  | @leaf _ q v hpre hvalue hother =>
      have hkey : M q ≠ none := by rw [hvalue]; simp
      refine ⟨q, rfl, hpre, fun k hk hk' => ?_, fun r hr => hr q hpre hkey⟩
      by_cases heq : k = q
      · rw [heq]
      · exact absurd (hother k hk heq) hk'
  | @inner _ q info hpre hbelow hleaf hchildren hbranches hstored =>
      obtain ⟨k, k', hk, hk', hkey, hkey', -, hfork⟩ :=
        exists_fork_of_branches hleaf hchildren hbranches
      exact ⟨q, rfl, hpre, hbelow,
        fun r hr => hfork r (hr k (hpre.trans hk) hkey) (hr k' (hpre.trans hk') hkey')⟩

/-- **The record is determined by the keys.** -/
theorem Record.unique (hrecord : Record codec start db M p c) :
    ∀ {start' : Bytes} {db' : Db} {c' : Child}, Record codec start' db' M p c' → c = c' := by
  induction hrecord with
  | empty hnone =>
      intro start' db' c' hrecord'
      by_cases htype : c'.childtype = .none
      · exact (hrecord'.of_none htype).1.symm
      · obtain ⟨k, hk, hkey⟩ := hrecord'.exists_key htype
        exact absurd (hnone k hk) hkey
  | @leaf p q v hpre hvalue hother =>
      intro start' db' c' hrecord'
      have hkey : M q ≠ none := by rw [hvalue]; simp
      cases hrecord' with
      | empty hnone => exact absurd (hnone q hpre) hkey
      | @leaf _ q' v' hpre' hvalue' hother' =>
          have heq : q = q' := by
            by_contra hne
            exact hkey (hother' q hpre hne)
          subst heq
          rw [hvalue] at hvalue'
          rw [Option.some.inj hvalue']
      | @inner _ q' info hpre' hbelow hleaf hchildren hbranches hstored =>
          obtain ⟨k, k', hk, hk', hkey, hkey', hne, -⟩ :=
            exists_fork_of_branches hleaf hchildren hbranches
          by_cases heq : k = q
          · exact absurd (hother k' (hpre'.trans hk') fun h => hne (heq.trans h.symm)) hkey'
          · exact absurd (hother k (hpre'.trans hk) heq) hkey
  | @inner p q info hpre hbelow hleaf hchildren hbranches hstored ih =>
      intro start' db' c' hrecord'
      obtain ⟨k, k', hk, hk', hkey, hkey', hne, hfork⟩ :=
        exists_fork_of_branches hleaf hchildren hbranches
      cases hrecord' with
      | empty hnone => exact absurd (hnone k (hpre.trans hk)) hkey
      | @leaf _ q' v' hpre' hvalue' hother' =>
          by_cases heq : k = q'
          · exact absurd (hother' k' (hpre.trans hk') fun h => hne (heq.trans h.symm)) hkey'
          · exact absurd (hother' k (hpre.trans hk) heq) hkey
      | @inner _ q' info' hpre' hbelow' hleaf' hchildren' hbranches' hstored' =>
          obtain ⟨l, l', hl, hl', hlkey, hlkey', -, hfork'⟩ :=
            exists_fork_of_branches hleaf' hchildren' hbranches'
          have heq : q = q' := by
            refine (hfork' q (hbelow l (hpre'.trans hl) hlkey)
              (hbelow l' (hpre'.trans hl') hlkey')).eq_of_length_le ?_
            exact (hfork q' (hbelow' k (hpre.trans hk) hkey)
              (hbelow' k' (hpre.trans hk') hkey')).length_le
          subst heq
          have hinfo : info = info' := by
            obtain ⟨children, leaf⟩ := info
            obtain ⟨children', leaf'⟩ := info'
            congr
            · funext i
              exact ih i (hchildren' i)
            · exact hleaf.trans hleaf'.symm
          rw [hinfo]

/-- A record depends only on what lies below its path. -/
theorem Record.congr (hrecord : Record codec start db M p c)
    (hcontent : ∀ k, p <+: k → M' k = M k)
    (hdb : ∀ q, p <+: q → db'.lookup (location2DBkey start (encode q) false) =
      db.lookup (location2DBkey start (encode q) false)) :
    Record codec start db' M' p c := by
  induction hrecord with
  | empty hnone => exact .empty fun k hk => (hcontent k hk).trans (hnone k hk)
  | leaf hpre hvalue hother =>
      exact .leaf hpre ((hcontent _ hpre).trans hvalue)
        fun k hk hne => (hcontent k hk).trans (hother k hk hne)
  | @inner p q info hpre hbelow hleaf hchildren hbranches hstored ih =>
      refine .inner hpre (fun k hk hkey => hbelow k hk ?_) ?_ (fun i => ih i ?_ ?_) hbranches ?_
      · rwa [← hcontent k hk]
      · rw [hleaf, hcontent q hpre]
      · exact fun k hk => hcontent k (hpre.trans ((List.prefix_append q [i]).trans hk))
      · exact fun r hr => hdb r (hpre.trans ((List.prefix_append q [i]).trans hr))
      · rw [hdb q hpre, hstored]

/-- The path is made shorter without gaining a key. -/
theorem Record.widen (hrecord : Record codec start db M p' c) (hpre : p <+: p')
    (hbelow : Below M p p') : Record codec start db M p c := by
  cases hrecord with
  | empty hnone =>
      refine .empty fun k hk => ?_
      by_contra hkey
      exact hkey (hnone k (hbelow k hk hkey))
  | leaf hpre' hvalue hother =>
      refine .leaf (hpre.trans hpre') hvalue fun k hk hne => ?_
      by_contra hkey
      exact hkey (hother k (hbelow k hk hkey) hne)
  | inner hpre' hbelow' hleaf hchildren hbranches hstored =>
      exact .inner (hpre.trans hpre') (fun k hk hkey => hbelow' k (hbelow k hk hkey) hkey) hleaf
        hchildren hbranches hstored

/-- The path is made longer without losing a key. -/
theorem Record.narrow (hrecord : Record codec start db M p c) (hpre : p <+: p')
    (hbelow : Below M p p') : Record codec start db M p' c := by
  cases hrecord with
  | empty hnone => exact .empty fun k hk => hnone k (hpre.trans hk)
  | leaf hpre' hvalue hother =>
      exact .leaf (hbelow _ hpre' (by rw [hvalue]; simp)) hvalue
        fun k hk hne => hother k (hpre.trans hk) hne
  | inner hpre' hbelow' hleaf hchildren hbranches hstored =>
      obtain ⟨k, k', hk, hk', hkey, hkey', -, hfork⟩ :=
        exists_fork_of_branches hleaf hchildren hbranches
      refine .inner ?_ (fun l hl hlkey => hbelow' l (hpre.trans hl) hlkey) hleaf hchildren
        hbranches hstored
      exact hfork p' (hbelow k (hpre'.trans hk) hkey) (hbelow k' (hpre'.trans hk') hkey')

end CegChain.Trie
