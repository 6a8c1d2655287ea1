import CegChain.Trie.Items

/-!
# Hashing and writing

`update_hash` goes through the modified nodes, computes their records from the leaves
up and puts in the batch what has to be written.  Each node writes under keys of its
own, so what a database holds below a slot after the batch depends only on the part of
the batch that comes from the slot (`Follows`).  After the write the nodes are clean for
the map of now (`updated_spec`).
-/

namespace CegChain.Trie

open Paths Layers

/-! ## Batches -/

/-- The key that is written. -/
def Write.key : Write → Bytes
  | .put key _ => key
  | .delete key => key

/-- The value that is there afterwards. -/
def Write.value : Write → Option Bytes
  | .put _ value => some value
  | .delete _ => none

/-- What a batch leaves under a key, if it writes there. -/
def lastWrite (key : Bytes) : List Write → Option (Option Bytes)
  | [] => none
  | write :: batch => (lastWrite key batch).or (if write.key = key then some write.value else none)

theorem lookup_writeBatch (key : Bytes) (batch : List Write) (db : Db) :
    (writeBatch batch db).lookup key = (lastWrite key batch).getD (db.lookup key) := by
  induction batch generalizing db with
  | nil => rfl
  | cons write batch ih =>
      have hone : (write.apply db).lookup key =
          (if write.key = key then some write.value else none).getD (db.lookup key) := by
        cases write with
        | put key' value =>
            rw [Write.apply, lookup_insert_eq]
            by_cases heq : key = key'
            · simp [heq, Write.key, Write.value]
            · simp [heq, Ne.symm heq, Write.key]
        | delete key' =>
            rw [Write.apply]
            by_cases heq : key = key'
            · rw [heq, AList.lookup_erase]
              simp [Write.key, Write.value]
            · rw [AList.lookup_erase_ne heq]
              simp [Ne.symm heq, Write.key]
      change (writeBatch batch (write.apply db)).lookup key = _
      rw [ih, hone, lastWrite]
      cases lastWrite key batch <;> rfl

theorem lastWrite_append (key : Bytes) (batch batch' : List Write) :
    lastWrite key (batch ++ batch') = (lastWrite key batch').or (lastWrite key batch) := by
  induction batch with
  | nil => simp [lastWrite]
  | cons write batch ih => rw [List.cons_append, lastWrite, ih, lastWrite, Option.or_assoc]

/-- Nobody writes there. -/
theorem lastWrite_flatMap_none {α : Type} {key : Bytes} {f : α → List Write} {list : List α}
    (hnone : ∀ a ∈ list, lastWrite key (f a) = none) :
    lastWrite key (list.flatMap f) = none := by
  induction list with
  | nil => rfl
  | cons a list ih =>
      rw [List.flatMap_cons, lastWrite_append, hnone a (List.mem_cons_self ..),
        ih fun b hb => hnone b (List.mem_cons_of_mem _ hb)]
      rfl

/-- Only one of them writes there. -/
theorem lastWrite_flatMap_one {α : Type} {key : Bytes} {f : α → List Write} {list : List α}
    {a : α} (hmem : a ∈ list) (hnone : ∀ b ∈ list, b ≠ a → lastWrite key (f b) = none) :
    lastWrite key (list.flatMap f) = lastWrite key (f a) := by
  induction list with
  | nil => cases hmem
  | cons b list ih =>
      rw [List.flatMap_cons, lastWrite_append]
      have hrest := fun c hc => hnone c (List.mem_cons_of_mem b hc)
      by_cases hlater : a ∈ list
      · rw [ih hlater hrest]
        by_cases heq : b = a
        · rw [heq, Option.or_self]
        · rw [hnone b (List.mem_cons_self ..) heq, Option.or_none]
      · obtain rfl := (List.mem_cons.mp hmem).resolve_right hlater
        rw [lastWrite_flatMap_none fun c hc => hrest c hc fun h => hlater (h ▸ hc),
          Option.none_or]

/-! ## The keys of the database -/

variable {codec : Codec} {start : Bytes} {db db' : Db} {M M₀ : Content} {p q : Path} {c : Child}
  {ptr : Pointer} {frm : NodeFrm} {children : Nibble → Pointer}

/-- The key of the record at a path. -/
def innerKey (start : Bytes) (q : Path) : Bytes :=
  location2DBkey start (encode q) false

/-- The key of the leaf of a key. -/
def leafKey (start key : Bytes) : Bytes :=
  location2DBkey start (encode (nibbles key)) true

theorem innerKey_inj {q q' : Path} : innerKey start q = innerKey start q' ↔ q = q' := by
  constructor
  · intro heq
    exact encode_injective (List.append_cancel_left heq)
  · rintro rfl
    rfl

theorem leafKey_eq (start key : Bytes) : leafKey start key = start ++ leafByte :: key := by
  rw [leafKey, encode_nibbles]
  rfl

theorem leafKey_inj {key key' : Bytes} : leafKey start key = leafKey start key' ↔ key = key' := by
  rw [leafKey_eq, leafKey_eq]
  constructor
  · intro heq
    exact (List.cons.inj (List.append_cancel_left heq)).2
  · rintro rfl
    rfl

theorem innerKey_ne_leafKey (q : Path) (key : Bytes) : innerKey start q ≠ leafKey start key := by
  rw [leafKey_eq]
  intro heq
  have hcons : encode q = leafByte :: key := List.append_cancel_left heq
  have hhead := (List.cons.inj hcons).1
  cases hodd : isOdd q <;> simp [hodd, oddByte, evenByte, leafByte] at hhead

/-- Below a path the database is the old one with the batch. -/
structure Follows (start : Bytes) (db db' : Db) (batch : List Write) (p : Path) : Prop where
  inner : ∀ q, p <+: q → db'.lookup (innerKey start q) =
    (lastWrite (innerKey start q) batch).getD (db.lookup (innerKey start q))
  leaf : ∀ key, p <+: nibbles key → db'.lookup (leafKey start key) =
    (lastWrite (leafKey start key) batch).getD (db.lookup (leafKey start key))

/-- The batch writes only below a path. -/
structure Local (start : Bytes) (batch : List Write) (p : Path) : Prop where
  inner : ∀ q, ¬ p <+: q → lastWrite (innerKey start q) batch = none
  leaf : ∀ key, ¬ p <+: nibbles key → lastWrite (leafKey start key) batch = none

/-- The leaves that are stored below a path are those of the map. -/
def Leaves (start : Bytes) (db : Db) (M : Content) (p : Path) : Prop :=
  ∀ key, p <+: nibbles key → db.lookup (leafKey start key) = M (nibbles key)

/-- Values belong to keys. -/
def Keyed (M : Content) : Prop :=
  ∀ q, M q ≠ none → ∃ key, q = nibbles key

theorem Clean.congr (hclean : Clean codec start db M₀ ptr p c) (hsame : Same M₀ M p)
    (hdb : ∀ q, p <+: q → db'.lookup (innerKey start q) = db.lookup (innerKey start q)) :
    Clean codec start db' M ptr p c := by
  induction ptr generalizing p c with
  | null => exact Record.congr hclean hsame hdb
  | node frm children ih =>
      obtain ⟨hrecord, hmodified, q, htidy⟩ := clean_node_iff.mp hclean
      have hpre := fun i => htidy.placed.pre.trans (List.prefix_append q [i])
      refine clean_node_iff.mpr ⟨hrecord.congr hsame hdb, hmodified, q,
        htidy.placed.congr hsame, ?_, fun i => ?_⟩
      · rw [htidy.leaf, hsame q htidy.placed.pre]
      · exact ih i (htidy.children i) (hsame.mono (hpre i)) fun r hr => hdb r ((hpre i).trans hr)

/-! ## One node -/

variable (codec start) in
/-- What becomes of a slot: the pointer, its record, and what is written. -/
def updated (ptr : Pointer) (c : Child) : Pointer × Child × List Write :=
  if ptr.modified then updateHash codec start ptr else (ptr, c, [])

variable (codec start) in
/-- The record of a node, made anew. -/
def updatedInfo (frm : NodeFrm) (children : Nibble → Pointer) : Info where
  leaf := (updateLeaf codec start frm).1
  children i := (updated codec start (children i) (frm.info.children i)).2.1

variable (codec start) in
/-- What is written for a node and below it. -/
def updatedBatch (frm : NodeFrm) (children : Nibble → Pointer) : List Write :=
  (updateLeaf codec start frm).2 ++
    (List.finRange 16).flatMap
      (fun i => (updated codec start (children i) (frm.info.children i)).2.2) ++
    [(updateRecord codec start frm.location (updatedInfo codec start frm children)).2]

theorem updateHash_node (frm : NodeFrm) (children : Nibble → Pointer) :
    updateHash codec start (.node frm children) =
      (.node { frm with info := updatedInfo codec start frm children, modified := false }
          (fun i => (updated codec start (children i) (frm.info.children i)).1),
        (updateRecord codec start frm.location (updatedInfo codec start frm children)).1,
        updatedBatch codec start frm children) := by
  have hinfo : updatedInfo codec start frm children =
      { leaf := (updateLeaf codec start frm).1
        children := fun i => if (children i).modified then (updateHash codec start (children i)).2.1
          else frm.info.children i } := by
    unfold updatedInfo updated
    congr
    funext i
    split <;> rfl
  have hbatch : ∀ i, (updated codec start (children i) (frm.info.children i)).2.2 =
      if (children i).modified then (updateHash codec start (children i)).2.2 else [] := by
    intro i
    unfold updated
    split <;> rfl
  have hptr : ∀ i, (updated codec start (children i) (frm.info.children i)).1 =
      if (children i).modified then (updateHash codec start (children i)).1 else children i := by
    intro i
    unfold updated
    split <;> rfl
  unfold updatedBatch
  simp only [updateHash, hinfo, hbatch, hptr]

theorem key_updateRecord (location : Location) (info : Info) :
    (updateRecord codec start location info).2.key = location2DBkey start location false := by
  unfold updateRecord
  dsimp only
  split
  · rfl
  · split <;> rfl

/-- The leaf of a node is brought up to date. -/
theorem updateLeaf_spec (start : Bytes) (hkeyed : Keyed M) (hplaced : Placed M frm p q)
    (hleaf : frm.leafDeleted = false → frm.leaf = none →
      frm.info.leaf = leafRecord codec q (M q) ∧ M q = M₀ q) :
    (updateLeaf codec start frm).1 = leafRecord codec q (M q) ∧
      (∀ q', lastWrite (innerKey start q') (updateLeaf codec start frm).2 = none) ∧
      (∀ key, nibbles key ≠ q →
        lastWrite (leafKey start key) (updateLeaf codec start frm).2 = none) ∧
      ∀ key, nibbles key = q →
        (lastWrite (leafKey start key) (updateLeaf codec start frm).2).getD (M₀ q) = M q := by
  have hone : ∀ {key : Bytes} (write : Write), q = nibbles key →
      write.key = location2DBkey start frm.location true → write.value = M q →
      (∀ q', lastWrite (innerKey start q') [write] = none) ∧
        (∀ key, nibbles key ≠ q → lastWrite (leafKey start key) [write] = none) ∧
        ∀ key, nibbles key = q → (lastWrite (leafKey start key) [write]).getD (M₀ q) = M q := by
    intro key write hq hwrite hvalue
    have hkey : write.key = leafKey start key := by rw [hwrite, hplaced.location, hq, leafKey]
    refine ⟨fun q' => ?_, fun key' hne => ?_, fun key' heq => ?_⟩
    · rw [lastWrite, if_neg]
      · rfl
      · rw [hkey]
        exact (innerKey_ne_leafKey q' key).symm
    · rw [lastWrite, if_neg]
      · rfl
      · rw [hkey, leafKey_inj]
        rintro rfl
        exact hne hq.symm
    · obtain rfl := nibbles_injective (heq.trans hq)
      rw [lastWrite, if_pos hkey, hvalue]
      rfl
  unfold updateLeaf
  dsimp only
  split
  · rename_i hdeleted
    obtain ⟨hnone, key, hq⟩ := hplaced.deleted hdeleted
    refine ⟨by rw [hnone]; rfl, hone _ hq rfl ?_⟩
    rw [hnone]
    rfl
  · rename_i hdeleted
    have hdeleted' : frm.leafDeleted = false := by simpa using hdeleted
    split
    · rename_i v hv
      have hvalue := hplaced.leaf hdeleted' v hv
      obtain ⟨key, hq⟩ := hkeyed q (by rw [hvalue]; simp)
      refine ⟨by rw [hvalue, hplaced.location]; rfl, hone _ hq rfl ?_⟩
      rw [hvalue]
      rfl
    · rename_i hv
      obtain ⟨hinfo, hsame⟩ := hleaf hdeleted' hv
      exact ⟨hinfo, fun _ => rfl, fun _ _ => rfl, fun _ _ => hsame.symm⟩

/-- What is known of a slot that has been updated. -/
structure Fresh (codec : Codec) (start : Bytes) (db : Db) (M : Content) (p : Path)
    (result : Pointer × Child × List Write) : Prop where
  isLocal : Local start result.2.2 p
  clean : ∀ db', Follows start db db' result.2.2 p →
    Clean codec start db' M result.1 p result.2.1 ∧ Leaves start db' M p

section Node

variable (hkeyed : Keyed M) (hleaves : Leaves start db M₀ p)
  (hinside : Inside codec start db M₀ M frm children p q)
  (hfresh : ∀ i, Fresh codec start db M (q ++ [i])
    (updated codec start (children i) (frm.info.children i)))

include hkeyed hinside hfresh

/-- What is written under the key of a record: by the node itself, or below one child. -/
theorem lastWrite_inner (q' : Path) :
    (q' = q → lastWrite (innerKey start q') (updatedBatch codec start frm children) =
      some (updateRecord codec start frm.location (updatedInfo codec start frm children)).2.value) ∧
    (∀ i, q ++ [i] <+: q' → lastWrite (innerKey start q') (updatedBatch codec start frm children) =
      lastWrite (innerKey start q') (updated codec start (children i) (frm.info.children i)).2.2) ∧
    (¬ q <+: q' →
      lastWrite (innerKey start q') (updatedBatch codec start frm children) = none) := by
  obtain ⟨-, hleaf, -, -⟩ := updateLeaf_spec start hkeyed hinside.placed hinside.leaf
  have hkey := @key_updateRecord codec start frm.location (updatedInfo codec start frm children)
  rw [hinside.placed.location] at hkey
  have hbatch : ∀ q', q' ≠ q →
      lastWrite (innerKey start q') (updatedBatch codec start frm children) =
        lastWrite (innerKey start q') ((List.finRange 16).flatMap fun i =>
          (updated codec start (children i) (frm.info.children i)).2.2) := by
    intro q' hne
    rw [updatedBatch, lastWrite_append, lastWrite_append, hleaf q', Option.or_none, lastWrite,
      if_neg]
    · rfl
    · rw [hinside.placed.location, hkey]
      exact fun h => hne (innerKey_inj.mp h).symm
  refine ⟨?_, fun i hi => ?_, fun hnot => ?_⟩
  · rintro rfl
    rw [updatedBatch, lastWrite_append, lastWrite, if_pos]
    · rfl
    · rw [hinside.placed.location, hkey]
      rfl
  · rw [hbatch q']
    · refine lastWrite_flatMap_one (List.mem_finRange i) fun j _ hj =>
        (hfresh j).isLocal.inner q' ?_
      exact fun h => hj (next_unique h hi)
    · rintro rfl
      exact not_prefix_next_self q' i hi
  · rw [hbatch q']
    · refine lastWrite_flatMap_none fun j _ => (hfresh j).isLocal.inner q' fun h => ?_
      exact hnot ((List.prefix_append q [j]).trans h)
    · rintro rfl
      exact hnot List.prefix_rfl

/-- What is written under the key of a leaf. -/
theorem lastWrite_leaf (key : Bytes) :
    (nibbles key = q → lastWrite (leafKey start key) (updatedBatch codec start frm children) =
      lastWrite (leafKey start key) (updateLeaf codec start frm).2) ∧
    (∀ i, q ++ [i] <+: nibbles key →
      lastWrite (leafKey start key) (updatedBatch codec start frm children) =
        lastWrite (leafKey start key)
          (updated codec start (children i) (frm.info.children i)).2.2) ∧
    (¬ q <+: nibbles key →
      lastWrite (leafKey start key) (updatedBatch codec start frm children) = none) := by
  obtain ⟨-, -, hleaf, -⟩ := updateLeaf_spec start hkeyed hinside.placed hinside.leaf
  have hkey := @key_updateRecord codec start frm.location (updatedInfo codec start frm children)
  have hbatch : lastWrite (leafKey start key) (updatedBatch codec start frm children) =
      (lastWrite (leafKey start key) ((List.finRange 16).flatMap fun i =>
        (updated codec start (children i) (frm.info.children i)).2.2)).or
        (lastWrite (leafKey start key) (updateLeaf codec start frm).2) := by
    rw [updatedBatch, lastWrite_append, lastWrite_append, lastWrite, if_neg]
    · rfl
    · rw [hkey, hinside.placed.location]
      exact innerKey_ne_leafKey q key
  refine ⟨fun heq => ?_, fun i hi => ?_, fun hnot => ?_⟩
  · rw [hbatch, lastWrite_flatMap_none, Option.none_or]
    refine fun j _ => (hfresh j).isLocal.leaf key fun h => ?_
    rw [heq] at h
    exact not_prefix_next_self q j h
  · rw [hbatch, hleaf key, Option.or_none]
    · refine lastWrite_flatMap_one (List.mem_finRange i) fun j _ hj =>
        (hfresh j).isLocal.leaf key ?_
      exact fun h => hj (next_unique h hi)
    · intro heq
      rw [heq] at hi
      exact not_prefix_next_self q i hi
  · rw [hbatch, hleaf key, lastWrite_flatMap_none]
    · rfl
    · exact fun j _ => (hfresh j).isLocal.leaf key fun h =>
        hnot ((List.prefix_append q [j]).trans h)
    · rintro rfl
      exact hnot List.prefix_rfl

/-- A node writes below its slot. -/
theorem local_updatedBatch : Local start (updatedBatch codec start frm children) p := by
  constructor
  · intro q' hnot
    exact (lastWrite_inner hkeyed hinside hfresh q').2.2
      fun h => hnot (hinside.placed.pre.trans h)
  · intro key hnot
    exact (lastWrite_leaf hkeyed hinside hfresh key).2.2
      fun h => hnot (hinside.placed.pre.trans h)

include hleaves

/-- **A node and what is below it, after the write.** -/
theorem tidy_updated (hfollows : Follows start db db' (updatedBatch codec start frm children) p) :
    Tidy codec start db' M
      { frm with info := updatedInfo codec start frm children, modified := false }
        (fun i => (updated codec start (children i) (frm.info.children i)).1) p q ∧
      Leaves start db' M p ∧
      db'.lookup (innerKey start q) =
        (updateRecord codec start frm.location (updatedInfo codec start frm children)).2.value := by
  have hpre := fun i => hinside.placed.pre.trans (List.prefix_append q [i])
  have hchild : ∀ i, Clean codec start db' M
        (updated codec start (children i) (frm.info.children i)).1 (q ++ [i])
        (updated codec start (children i) (frm.info.children i)).2.1 ∧
      Leaves start db' M (q ++ [i]) := by
    intro i
    refine (hfresh i).clean db' ⟨fun q' hq' => ?_, fun key hkey => ?_⟩
    · rw [hfollows.inner q' ((hpre i).trans hq'),
        (lastWrite_inner hkeyed hinside hfresh q').2.1 i hq']
    · rw [hfollows.leaf key ((hpre i).trans hkey),
        (lastWrite_leaf hkeyed hinside hfresh key).2.1 i hkey]
  obtain ⟨hrecord, -, -, hvalue⟩ :=
    updateLeaf_spec start hkeyed hinside.placed hinside.leaf
  refine ⟨⟨⟨hinside.placed.location, hinside.placed.pre, hinside.placed.below,
    hinside.placed.deleted, hinside.placed.leaf⟩, hrecord, fun i => (hchild i).1⟩, ?_, ?_⟩
  · intro key hkey
    by_cases hq : q <+: nibbles key
    · by_cases heq : nibbles key = q
      · rw [hfollows.leaf key hkey, (lastWrite_leaf hkeyed hinside hfresh key).1 heq,
          hleaves key hkey, heq]
        exact hvalue key heq
      · obtain ⟨i, hi⟩ := exists_next hq (Ne.symm heq)
        exact (hchild i).2 key hi
    · -- there is no such key, then or now
      have hnone : ∀ {M : Content}, Below M p q → M (nibbles key) = none := by
        intro M hbelow
        by_contra hvalue
        exact hq (hbelow _ hkey hvalue)
      rw [hfollows.leaf key hkey, (lastWrite_leaf hkeyed hinside hfresh key).2.2 hq,
        Option.getD_none, hleaves key hkey, hnone hinside.below, hnone hinside.placed.below]
  · rw [hfollows.inner q hinside.placed.pre,
      (lastWrite_inner hkeyed hinside hfresh q).1 rfl]
    rfl

end Node

/-- The record that the parent is told. -/
theorem record_updateRecord (htidy : Tidy codec start db M frm children p q) (hroot : q ≠ [])
    (hstored : db.lookup (innerKey start q) =
      (updateRecord codec start frm.location frm.info).2.value) :
    Record codec start db M p (updateRecord codec start frm.location frm.info).1 := by
  have hrecord := fun i => (htidy.children i).record
  have hne : frm.location ≠ rootl := by
    rw [htidy.placed.location]
    exact fun h => hroot (encode_injective (show encode q = encode [] from h))
  -- a key of the slot is at the node or below one of its children
  have hkeys : ∀ k, p <+: k → M k ≠ none → k = q ∨ ∃ i, q ++ [i] <+: k := by
    intro k hk hkey
    have hqk := htidy.placed.below k hk hkey
    by_cases heq : q = k
    · exact .inl heq.symm
    · exact .inr (exists_next hqk heq)
  have hleaf : frm.info.leaf.childtype = .none → M q = none := by
    rw [htidy.leaf]
    exact leafRecord_childtype.mp
  unfold updateRecord at hstored ⊢
  dsimp only at hstored ⊢
  rw [if_neg hne] at hstored ⊢
  match hbranches : branches frm.info with
  | [] =>
      obtain ⟨hnone, hchildren⟩ := branches_eq_nil hbranches
      refine .empty fun k hk => ?_
      by_contra hkey
      rcases hkeys k hk hkey with rfl | ⟨i, hi⟩
      · exact hkey (hleaf hnone)
      · exact hkey (((hrecord i).of_none (hchildren i)).2 k hi)
  | [only] =>
      rcases branches_eq_singleton hbranches with ⟨honly, hchildren⟩ | ⟨i, honly, hnone, hchildren⟩
      · dsimp only
        rw [← honly, htidy.leaf]
        cases hvalue : M q with
        | none =>
            have hmem : only ∈ branches frm.info := by
              rw [hbranches]
              exact List.mem_singleton.mpr rfl
            rw [branches, List.mem_filter, ← honly, htidy.leaf, hvalue] at hmem
            exact absurd hmem.2 (by simp [leafRecord])
        | some v =>
            refine .leaf htidy.placed.pre hvalue fun k hk hne => ?_
            by_contra hkey
            rcases hkeys k hk hkey with rfl | ⟨i, hi⟩
            · exact hne rfl
            · exact hkey (((hrecord i).of_none (hchildren i)).2 k hi)
      · dsimp only
        rw [← honly]
        refine (hrecord i).widen (htidy.placed.pre.trans (List.prefix_append q [i]))
          fun k hk hkey => ?_
        rcases hkeys k hk hkey with rfl | ⟨j, hj⟩
        · exact absurd (hleaf hnone) hkey
        · by_cases hij : j = i
          · rwa [← hij]
          · exact absurd (((hrecord j).of_none (hchildren j hij)).2 k hj) hkey
  | first :: second :: rest =>
      rw [hbranches] at hstored
      dsimp only at hstored ⊢
      rw [htidy.placed.location]
      refine .inner htidy.placed.pre htidy.placed.below htidy.leaf hrecord ?_ hstored
      rw [hbranches]
      simp

/-- **A slot after the write.** -/
theorem fresh_updated (hkeyed : Keyed M) (ptr : Pointer) :
    ∀ {p : Path} {c : Child}, p ≠ [] → Leaves start db M₀ p →
      Held codec start db M₀ M ptr p c → Fresh codec start db M p (updated codec start ptr c) := by
  -- what is not modified is not written
  have hkept : ∀ {ptr : Pointer} {p : Path} {c : Child}, ptr.modified = false →
      Leaves start db M₀ p → Clean codec start db M₀ ptr p c → Same M₀ M p →
      Fresh codec start db M p (updated codec start ptr c) := by
    intro ptr p c hmodified hleaves hclean hsame
    rw [updated, if_neg (by simp [hmodified])]
    refine ⟨⟨fun _ _ => rfl, fun _ _ => rfl⟩, fun db' hfollows => ⟨?_, fun key hkey => ?_⟩⟩
    · exact hclean.congr hsame hfollows.inner
    · rw [hfollows.leaf key hkey]
      exact (hleaves key hkey).trans (hsame _ hkey).symm
  induction ptr with
  | null =>
      intro p c hp hleaves hheld
      exact hkept rfl hleaves hheld.1 hheld.2
  | node frm children ih =>
      intro p c hp hleaves hheld
      by_cases hmodified : frm.modified = true
      · obtain ⟨q, hinside⟩ := hheld.inside
        have hfresh : ∀ i, Fresh codec start db M (q ++ [i])
            (updated codec start (children i) (frm.info.children i)) := by
          intro i
          refine ih i (by simp) (fun key hkey => hleaves key ?_) (hinside.children i)
          exact hinside.placed.pre.trans ((List.prefix_append q [i]).trans hkey)
        have hq : q ≠ [] := by
          rintro rfl
          exact hp (List.prefix_nil.mp hinside.placed.pre)
        rw [updated, Pointer.modified, if_pos hmodified, updateHash_node]
        refine ⟨local_updatedBatch hkeyed hinside hfresh, fun db' hfollows => ?_⟩
        obtain ⟨htidy, hleaves', hstored⟩ := tidy_updated hkeyed hleaves hinside hfresh hfollows
        exact ⟨clean_node_iff.mpr ⟨record_updateRecord htidy hq hstored, rfl, q, htidy⟩, hleaves'⟩
      · have hfalse : frm.modified = false := by simpa using hmodified
        rcases hheld with ⟨hclean, hsame⟩ | ⟨htrue, -⟩
        · exact hkept hfalse hleaves hclean hsame
        · exact absurd htrue hmodified

end CegChain.Trie
