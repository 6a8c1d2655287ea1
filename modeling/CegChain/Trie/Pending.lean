import CegChain.Trie.Counting

/-!
# Batches that wait

`UpdateHash` may be called more than once, and items may be set in between, before its
batch is written.  What is in memory then belongs to the database with the batch
(`KVTrie.written`), while nodes are still loaded from the database without it.  It makes
no difference: the batch has only records of nodes that are in memory, and a node that
is in memory is not loaded (`Quiet`).
-/

namespace CegChain.Trie

open Paths Layers

/-- The batch has no record in this slot beside those of nodes in memory. -/
def Quiet (start : Bytes) (batch : List Write) : Pointer → Path → Prop
  | .null, p => ∀ r, p <+: r → lastWrite (innerKey start r) batch = none
  | .node frm children, p => ∃ q, frm.location = encode q ∧ p <+: q ∧
      (∀ r, p <+: r → ¬ q <+: r → lastWrite (innerKey start r) batch = none) ∧
      ∀ i, Quiet start batch (children i) (q ++ [i])

variable {codec : Codec} {start : Bytes} {db : Db} {batch batch' : List Write}
  {M M' M₀ : Content} {p p' q k : Path} {b : Nibble} {c : Child} {ptr : Pointer} {frm : NodeFrm}
  {children children' : Nibble → Pointer}

/-- A batch that writes nothing in the slot is added. -/
theorem Quiet.append (hquiet : Quiet start batch ptr p)
    (hnone : ∀ r, p <+: r → lastWrite (innerKey start r) batch' = none) :
    Quiet start (batch ++ batch') ptr p := by
  induction ptr generalizing p with
  | null =>
      intro r hr
      rw [lastWrite_append, hnone r hr, Option.none_or]
      exact hquiet r hr
  | node frm children ih =>
      obtain ⟨q, hlocation, hpre, hbeside, hchildren⟩ := hquiet
      refine ⟨q, hlocation, hpre, fun r hr hq => ?_, fun i => ih i (hchildren i) fun r hr => ?_⟩
      · rw [lastWrite_append, hnone r hr, Option.none_or]
        exact hbeside r hr hq
      · exact hnone r (hpre.trans ((List.prefix_append q [i]).trans hr))

/-- The slot of a node is made longer, but not beyond the node. -/
theorem Quiet.narrow (hquiet : Quiet start batch (.node frm children) p)
    (hlocation : frm.location = encode q) (hpre : p <+: p') (hpre' : p' <+: q) :
    Quiet start batch (.node frm children) p' := by
  obtain ⟨q', hlocation', -, hbeside, hchildren⟩ := hquiet
  obtain rfl := encode_injective (hlocation.symm.trans hlocation')
  exact ⟨q, hlocation, hpre', fun r hr hq => hbeside r (hpre.trans hr) hq, hchildren⟩

/-- An empty batch has no record. -/
theorem quiet_nil (hheld : Held codec start db M₀ M ptr p c) : Quiet start [] ptr p := by
  induction ptr generalizing p c with
  | null => exact fun _ _ => rfl
  | node frm children ih =>
      obtain ⟨q, hinside⟩ := hheld.inside
      exact ⟨q, hinside.placed.location, hinside.placed.pre, fun _ _ _ => rfl,
        fun i => ih i (hinside.children i)⟩

theorem quiet_update (hchildren : ∀ i, Quiet start batch (children i) (q ++ [i]))
    (hquiet : Quiet start batch ptr (q ++ [b])) :
    ∀ i, Quiet start batch (Function.update children b ptr i) (q ++ [i]) :=
  (Function.forall_update_iff children fun i ptr => Quiet start batch ptr (q ++ [i])).mpr
    ⟨hquiet, fun i _ => hchildren i⟩

/-! ## Children from the database -/

/-- A child is loaded from the database as from the one with the batch. -/
theorem childMayFromDB_writeBatch
    (hheld : Held codec start (writeBatch batch db) M₀ M (children b) p (frm.info.children b))
    (hquiet : Quiet start batch (children b) p) :
    childMayFromDB codec start db frm children b =
      childMayFromDB codec start (writeBatch batch db) frm children b := by
  unfold childMayFromDB
  cases hchild : children b with
  | node frm₂ children₂ => rfl
  | null =>
      rw [hchild] at hheld hquiet
      obtain ⟨hrecord, -⟩ := hheld
      dsimp only
      split
      · rfl
      · rfl
      · rename_i htype
        obtain ⟨q, hlocation, hpre, -⟩ := hrecord.exists_location (by rw [htype]; nofun)
        have hlookup : (writeBatch batch db).lookup (innerKey start q) =
            db.lookup (innerKey start q) := by
          rw [lookup_writeBatch, hquiet q hpre, Option.getD_none]
        rw [storageLoad, storageLoad, hlocation]
        exact congrArg (fun r => Option.map _ (Option.map codec.parse r)) hlookup.symm

/-- What is loaded is in memory from then on. -/
theorem quiet_childMayFromDB
    (hheld : Held codec start db M₀ M (children b) (q ++ [b]) (frm.info.children b))
    (hchildren : ∀ i, Quiet start batch (children i) (q ++ [i]))
    (hload : childMayFromDB codec start db frm children b = some children') (i : Nibble) :
    Quiet start batch (children' i) (q ++ [i]) := by
  obtain ⟨ptr, hload', hptr, -, -⟩ := held_childMayFromDB hheld
  obtain rfl := Option.some.inj (hload'.symm.trans hload)
  refine quiet_update hchildren ?_ i
  cases hchild : children b with
  | node frm₂ children₂ =>
      rw [childMayFromDB, hchild] at hload'
      have hsame := congrFun (Option.some.inj hload') b
      rw [Function.update_self] at hsame
      rw [← hsame]
      exact hchildren b
  | null =>
      have hnone := hchildren b
      rw [hchild] at hnone
      have hshape := childMayFromDB_of_null hchild hload
      rw [Function.update_self] at hshape
      rcases hshape with rfl | ⟨-, frm', rfl⟩
      · exact hnone
      · obtain ⟨q₂, hinside⟩ := hptr.inside
        have hpre := hinside.placed.pre
        exact ⟨q₂, hinside.placed.location, hpre, fun r hr _ => hnone r hr,
          fun j r hr => hnone r (hpre.trans ((List.prefix_append q₂ [j]).trans hr))⟩

/-! ## Set -/

/-- `SetItem` depends on the database by what it loads. -/
theorem setItem_congr {db db' : Db} {location : Location} {data : Bytes} {fuel : ℕ}
    (hload : ∀ b, nextBranch (commonPrefix frm.location location) location = some b →
      childMayFromDB codec start db frm children b = childMayFromDB codec start db' frm children b)
    (hnext : ∀ b children₁ frm₂ children₂,
      nextBranch (commonPrefix frm.location location) location = some b →
      childMayFromDB codec start db' frm children b = some children₁ →
      children₁ b = .node frm₂ children₂ → commonPrefix location frm₂.location = frm₂.location →
      setItem codec start db location data fuel frm₂ children₂ =
        setItem codec start db' location data fuel frm₂ children₂) :
    setItem codec start db location data (fuel + 1) frm children =
      setItem codec start db' location data (fuel + 1) frm children := by
  unfold setItem
  dsimp only
  split
  · rfl
  · cases hbranch : nextBranch (commonPrefix frm.location location) location with
    | none => rfl
    | some b =>
        have hsame : childMayFromDB codec start db { frm with modified := true } children b =
            childMayFromDB codec start db' { frm with modified := true } children b :=
          hload b hbranch
        simp only [Option.bind_eq_bind, Option.bind_some, hsame]
        cases hone : childMayFromDB codec start db' { frm with modified := true } children b with
        | none => rfl
        | some children₁ =>
            rw [Option.bind_some, Option.bind_some]
            cases hchild : children₁ b with
            | null => rfl
            | node frm₂ children₂ =>
                dsimp only
                split
                · rename_i hdown
                  rw [hnext b children₁ frm₂ children₂ hbranch hone hchild hdown]
                · rfl

/-- **An item is set** in what the database has as in what it has with the batch. -/
theorem setItem_writeBatch (v : Bytes) (fuel : ℕ) :
    ∀ {frm : NodeFrm} {children : Nibble → Pointer} {p q : Path},
      Inside codec start (writeBatch batch db) M₀ M frm children p q →
      (∀ i, Quiet start batch (children i) (q ++ [i])) → q <+: k →
      setItem codec start db (encode k) v fuel frm children =
        setItem codec start (writeBatch batch db) (encode k) v fuel frm children := by
  induction fuel with
  | zero =>
      intro frm children p q hinside hquiet hpre
      rfl
  | succ fuel ih =>
      intro frm children p q hinside hquiet hpre
      refine setItem_congr (fun b _ => childMayFromDB_writeBatch (hinside.children b) (hquiet b)) ?_
      intro b children₁ frm₂ children₂ hbranch hload hchild hdown
      obtain ⟨ptr, hload', hheld, -, -⟩ := held_childMayFromDB (hinside.children b)
      have hquiet₁ := quiet_childMayFromDB (hinside.children b) hquiet hload b
      obtain rfl := Option.some.inj (hload'.symm.trans hload)
      rw [Function.update_self] at hchild hquiet₁
      subst hchild
      obtain ⟨q₂, hinside₂⟩ := hheld.inside
      obtain ⟨q₃, hlocation, -, -, hchildren₂⟩ := hquiet₁
      obtain rfl := encode_injective (hlocation.symm.trans hinside₂.placed.location)
      rw [hlocation, commonPrefix_encode] at hdown
      exact ih hinside₂ hchildren₂ (common_eq_right_iff.mp (encode_injective hdown))

/-- A new node, where the batch has nothing. -/
theorem quiet_single (hlocation : frm.location = encode q) (hpre : p <+: q)
    (hnone : ∀ r, p <+: r → lastWrite (innerKey start r) batch = none) :
    Quiet start batch (.single frm) p :=
  ⟨q, hlocation, hpre, fun r hr _ => hnone r hr,
    fun i r hr => hnone r (hpre.trans ((List.prefix_append q [i]).trans hr))⟩

/-- **The nodes that `SetItem` makes** are beside what the batch has. -/
theorem quiet_setItem (v : Bytes) (fuel : ℕ) :
    ∀ {frm : NodeFrm} {children : Nibble → Pointer} {p q : Path} {added : Bool} {ptr : Pointer},
      Inside codec start db M₀ M frm children p q →
      (∀ i, Quiet start batch (children i) (q ++ [i])) → q <+: k →
      setItem codec start db (encode k) v fuel frm children = some (added, ptr) →
      ∃ frm' children', ptr = .node frm' children' ∧ frm'.location = frm.location ∧
        ∀ i, Quiet start batch (children' i) (q ++ [i]) := by
  -- off the way to a node the batch has nothing
  have hoff : ∀ {frm₂ : NodeFrm} {children₂ : Nibble → Pointer} {p q₂ x : Path} {i j : Nibble},
      Quiet start batch (.node frm₂ children₂) p → frm₂.location = encode q₂ → p <+: x ++ [i] →
      x ++ [j] <+: q₂ → i ≠ j →
      ∀ r, x ++ [i] <+: r → lastWrite (innerKey start r) batch = none := by
    rintro frm₂ children₂ p q₂ x i j ⟨q, hlocation, -, hbeside, -⟩ hlocation' hpre hj hne r hr
    obtain rfl := encode_injective (hlocation.symm.trans hlocation')
    exact hbeside r (hpre.trans hr) fun hq => hne (next_unique hr (hj.trans hq))
  induction fuel with
  | zero =>
      intro frm children p q added ptr hinside hquiet hpre hsets
      cases hsets
  | succ fuel ih =>
      intro frm children p q added ptr hinside hquiet hpre hsets
      have hcases := hinside.setsAt hpre v fuel
      rw [hsets] at hcases
      have hloaded : ∀ {b : Nibble} {children₁ : Nibble → Pointer},
          childMayFromDB codec start db frm children b = some children₁ →
          ∀ i, Quiet start batch (children₁ i) (q ++ [i]) :=
        fun hload => quiet_childMayFromDB (hinside.children _) hquiet hload
      generalize hresult : some (added, ptr) = result at hcases
      cases hcases with
      | here hself =>
          cases hresult
          exact ⟨_, _, rfl, rfl, hquiet⟩
      | @new b hb hload hnone hnone' =>
          cases hresult
          have hslot := hloaded hload b
          rw [Function.update_self] at hslot
          exact ⟨_, _, rfl, rfl, quiet_update (hloaded hload) (quiet_single rfl hb hslot)⟩
      | @down b frm₂ children₂ q₂ hb hload hheld hinside₂ hdown =>
          obtain ⟨⟨added', ptr'⟩, hrest, hptr⟩ := Option.map_eq_some_iff.mp hresult.symm
          cases hptr
          have hslot := hloaded hload b
          rw [Function.update_self] at hslot
          obtain ⟨q₃, hlocation, hpre₃, hbeside, hchildren₂⟩ := hslot
          obtain rfl := encode_injective (hlocation.symm.trans hinside₂.placed.location)
          obtain ⟨frm₃, children₃, rfl, hlocation₃, hchildren₃⟩ :=
            ih hinside₂ hchildren₂ hdown hrest
          exact ⟨_, _, rfl, rfl, quiet_update (hloaded hload)
            ⟨_, hlocation₃.trans hlocation, hpre₃, hbeside, hchildren₃⟩⟩
      | @above b b₁ frm₂ children₂ q₂ hb hload hheld hinside₂ hb₁ =>
          cases hresult
          have hslot := hloaded hload b
          rw [Function.update_self] at hslot
          have hlocation := hinside₂.placed.location
          have hki := fun i => hb.trans (List.prefix_append k [i])
          refine ⟨_, _, rfl, rfl, quiet_update (hloaded hload)
            ⟨k, rfl, hb, fun r hr hk => ?_, fun i => ?_⟩⟩
          · obtain ⟨q₃, hlocation₃, -, hbeside, -⟩ := hslot
            obtain rfl := encode_injective (hlocation.symm.trans hlocation₃)
            exact hbeside r hr fun hq => hk ((List.prefix_append k [b₁]).trans (hb₁.trans hq))
          · by_cases hi : i = b₁
            · rw [hi, Function.update_self]
              exact hslot.narrow hlocation (hki b₁) hb₁
            · rw [Function.update_of_ne hi]
              exact hoff hslot hlocation (hki i) hb₁ hi
      | @fork b b₁ b₂ frm₂ children₂ q₂ hb hload hheld hinside₂ hne hb₁ hb₂ =>
          cases hresult
          have hslot := hloaded hload b
          rw [Function.update_self] at hslot
          have hlocation := hinside₂.placed.location
          have hpre₂ := prefix_common hb hinside₂.placed.pre
          have hxi := fun i => hpre₂.trans (List.prefix_append (common k q₂) [i])
          refine ⟨_, _, rfl, rfl, quiet_update (hloaded hload)
            ⟨common k q₂, rfl, hpre₂, fun r hr hx => ?_, fun i => ?_⟩⟩
          · obtain ⟨q₃, hlocation₃, -, hbeside, -⟩ := hslot
            obtain rfl := encode_injective (hlocation.symm.trans hlocation₃)
            exact hbeside r hr fun hq => hx ((common_prefix_right k q₂).trans hq)
          · by_cases hi₂ : i = b₂
            · rw [hi₂, Function.update_self]
              exact hslot.narrow hlocation (hxi b₂) hb₂
            · rw [Function.update_of_ne hi₂]
              have hnone := hoff hslot hlocation (hxi i) hb₂ hi₂
              by_cases hi₁ : i = b₁
              · rw [hi₁] at hnone ⊢
                rw [Function.update_self]
                exact quiet_single rfl hb₁ hnone
              · rw [Function.update_of_ne hi₁]
                exact hnone

/-! ## UpdateHash -/

/-- **What `update_hash` puts in the batch** are records of nodes in memory. -/
theorem quiet_updated (hkeyed : Keyed M) (ptr : Pointer) :
    ∀ {p : Path} {c : Child}, p ≠ [] → Leaves start db M₀ p →
      Held codec start db M₀ M ptr p c → Quiet start batch ptr p →
      (∀ r, p <+: r → lastWrite (innerKey start r) batch' =
        lastWrite (innerKey start r) (updated codec start ptr c).2.2) →
      Quiet start (batch ++ batch') (updated codec start ptr c).1 p := by
  induction ptr with
  | null =>
      intro p c hp hleaves hheld hquiet hbatch
      exact hquiet.append fun r hr => hbatch r hr
  | node frm children ih =>
      intro p c hp hleaves hheld hquiet hbatch
      by_cases hmodified : frm.modified = true
      · -- the node's own record, and beside it those of its children
        obtain ⟨q, hinside⟩ := hheld.inside
        obtain ⟨q', hlocation, hpre, hbeside, hchildren⟩ := hquiet
        obtain rfl := encode_injective (hlocation.symm.trans hinside.placed.location)
        have hleaves' : ∀ i, Leaves start db M₀ (q' ++ [i]) := fun i key hkey =>
          hleaves key (hpre.trans ((List.prefix_append q' [i]).trans hkey))
        have hfresh : ∀ i, Fresh codec start db M (q' ++ [i])
            (updated codec start (children i) (frm.info.children i)) := fun i =>
          fresh_updated hkeyed (children i) (by simp) (hleaves' i) (hinside.children i)
        have hupdated : updated codec start (.node frm children) c =
            updateHash codec start (.node frm children) := if_pos hmodified
        rw [hupdated, updateHash_node] at hbatch ⊢
        refine ⟨q', hlocation, hpre, fun r hr hq => ?_, fun i => ?_⟩
        · rw [lastWrite_append, hbatch r hr, (lastWrite_inner hkeyed hinside hfresh r).2.2 hq,
            Option.none_or]
          exact hbeside r hr hq
        · refine ih i (by simp) (hleaves' i) (hinside.children i) (hchildren i) fun r hr => ?_
          rw [hbatch r (hpre.trans ((List.prefix_append q' [i]).trans hr)),
            (lastWrite_inner hkeyed hinside hfresh r).2.1 i hr]
      · have hupdated : updated codec start (.node frm children) c = (.node frm children, c, []) :=
          if_neg hmodified
        rw [hupdated] at hbatch ⊢
        exact hquiet.append fun r hr => hbatch r hr

/-! ## Histories -/

/-- What is done to a trie from which nothing is deleted. -/
inductive Step where
  | set (key value : Bytes)
  | updateHash
  /-- The batch is written. -/
  | addToDB
  | freeMemory (depth : ℤ)
  /-- The trie is made anew from the database. -/
  | init (depth : ℤ)

variable (codec start) in
/-- The trie after a step. -/
def Step.run (step : Step) (trie : KVTrie) : Option KVTrie :=
  match step with
  | .set key value => (trie.set codec start key value).map Prod.snd
  | .updateHash => some (trie.updateHash codec start)
  | .addToDB => some trie.addToDB
  | .freeMemory depth => some (trie.freeMemory depth)
  | .init depth => KVTrie.init codec start trie.db depth

variable (codec start) in
/-- A new trie on a database, and what is done to it. -/
def runSteps (db : Db) (depth : ℤ) (steps : List Step) : Option KVTrie := do
  let trie ← KVTrie.init codec start db depth
  steps.foldlM (fun trie step => step.run codec start trie) trie

/-- The maps that a trie, its database and its batch stand for. -/
structure Maps where
  /-- The map of the database. -/
  written : Bytes → Option Bytes := fun _ => none
  /-- The map of the database with the batch. -/
  hashed : Bytes → Option Bytes := fun _ => none
  /-- The map of now. -/
  now : Bytes → Option Bytes := fun _ => none
  /-- Items were set after the last `UpdateHash`. -/
  unhashed : Bool := false
  /-- The batch is not written. -/
  waiting : Bool := false

namespace Maps

/-- The maps after a step. -/
def after (maps : Maps) : Step → Maps
  | .set key value =>
      { maps with now := Function.update maps.now key (some value), unhashed := true }
  | .updateHash => { maps with hashed := maps.now, unhashed := false, waiting := true }
  | .addToDB => { maps with written := maps.hashed, waiting := false }
  | .freeMemory _ => maps
  | .init _ => { written := maps.written, hashed := maps.written, now := maps.written }

/-- Memory is freed only when all is written. -/
def allows (maps : Maps) : Step → Prop
  | .freeMemory _ => maps.unhashed = false ∧ maps.waiting = false
  | _ => True

/-- The maps after these steps. -/
def afterAll (maps : Maps) (steps : List Step) : Maps :=
  steps.foldl after maps

/-- Every step comes when it may. -/
def AllowsAll (maps : Maps) : List Step → Prop
  | [] => True
  | step :: steps => maps.allows step ∧ (maps.after step).AllowsAll steps

end Maps

variable (codec start) in
/-- The trie stands for the maps. -/
structure Tracked (trie : KVTrie) (maps : Maps) : Prop where
  stands : Stands codec start trie.db (content maps.written)
  sound : Sound codec start trie.addToDB (content maps.hashed) (content maps.now)
  quiet : ∀ frm children, trie.root = .node frm children →
    ∀ i, Quiet start trie.batch (children i) [i]
  populated : Populated trie (content maps.now)
  hashed : maps.unhashed = false →
    maps.now = maps.hashed ∧ Written codec start trie.addToDB (content maps.now)
  waiting : maps.waiting = false → trie.batch = [] ∧ maps.hashed = maps.written

variable {trie : KVTrie} {maps : Maps}

/-- With an empty batch there is nothing in the slots. -/
theorem Sound.quiet (hsound : Sound codec start trie M₀ M) {frm : NodeFrm}
    {children : Nibble → Pointer} (hroot : trie.root = .node frm children) (i : Nibble) :
    Quiet start [] (children i) [i] := by
  obtain ⟨frm', children', hroot', hinside⟩ := hsound.root
  cases hroot.symm.trans hroot'
  exact quiet_nil (hinside.children i)

theorem addToDB_of_nil (hbatch : trie.batch = []) : trie.addToDB = trie := by
  obtain ⟨db, batch, root, rootHash⟩ := trie
  obtain rfl : batch = [] := hbatch
  rfl

/-- **Set**, whether or not the batch is written. -/
theorem Tracked.set (htracked : Tracked codec start trie maps) (key value : Bytes) :
    ∃ added trie', trie.set codec start key value = some (added, trie') ∧
      trie.addToDB.set codec start key value = some (added, trie'.addToDB) ∧
      Tracked codec start trie' (maps.after (.set key value)) := by
  obtain ⟨frm, children, hroot, hinside⟩ := htracked.sound.root
  obtain ⟨added, trie₁, hset, hsound⟩ := sound_set htracked.sound key value
  have hpopulated := (populated_set htracked.sound htracked.populated hset).1
  have hset' := hset
  rw [KVTrie.set, hroot] at hset'
  obtain ⟨⟨added', ptr⟩, hsetItem, heq⟩ := Option.bind_eq_some_iff.mp hset'
  cases heq
  have hquiet := htracked.quiet frm children hroot
  have hsame := setItem_writeBatch value (KVTrie.fuel key) hinside hquiet
    (List.nil_prefix (l := nibbles key))
  rw [← encode_nibbles] at hsetItem
  obtain ⟨frm', children', rfl, -, hquiet'⟩ :=
    quiet_setItem value (KVTrie.fuel key) hinside hquiet List.nil_prefix hsetItem
  refine ⟨added, { trie with root := .node frm' children' }, ?_, ?_, htracked.stands, ?_, ?_, ?_,
    fun h => absurd h.symm Bool.false_ne_true, htracked.waiting⟩
  · rw [KVTrie.set, show trie.root = .node frm children from hroot]
    dsimp only
    rw [← encode_nibbles, hsame]
    exact congrArg (fun r => Option.bind r _) hsetItem
  · exact hset
  · rw [Maps.after, content_update]
    exact hsound
  · intro frm'' children'' hroot''
    cases hroot''
    exact hquiet'
  · rw [Maps.after, content_update]
    exact hpopulated

/-- **One step.** -/
theorem Tracked.step (htracked : Tracked codec start trie maps) {step : Step}
    (hallows : maps.allows step) :
    ∃ trie', step.run codec start trie = some trie' ∧
      Tracked codec start trie' (maps.after step) := by
  cases step with
  | set key value =>
      obtain ⟨added, trie', hset, -, htracked'⟩ := htracked.set key value
      refine ⟨trie', ?_, htracked'⟩
      rw [Step.run, hset]
      rfl
  | updateHash =>
      -- the batch of this step comes behind the one that waits
      have hadd : (trie.updateHash codec start).addToDB =
          (trie.addToDB.updateHash codec start).addToDB := by
        rw [KVTrie.addToDB, KVTrie.updateHash, KVTrie.addToDB, KVTrie.updateHash, KVTrie.addToDB,
          writeBatch, List.foldl_append]
        rfl
      obtain ⟨hsound, hwritten, -⟩ := sound_flush htracked.sound
      rw [← hadd] at hsound hwritten
      refine ⟨_, rfl, htracked.stands, hsound, fun frm' children' hroot' i => ?_,
        populated_updateHash htracked.populated, fun _ => ⟨rfl, hwritten⟩,
        fun h => absurd h.symm Bool.false_ne_true⟩
      obtain ⟨frm, children, hroot, hinside⟩ := htracked.sound.root
      have hroot : trie.root = .node frm children := hroot
      have hleaves : ∀ i, Leaves start trie.addToDB.db (content maps.hashed) [i] :=
        fun i key _ => htracked.sound.leaves key List.nil_prefix
      have hfresh : ∀ i, Fresh codec start trie.addToDB.db (content maps.now) ([] ++ [i])
          (updated codec start (children i) (frm.info.children i)) := fun i =>
        fresh_updated htracked.sound.keyed (children i) (by simp) (hleaves i) (hinside.children i)
      have hbatch : (trie.updateHash codec start).batch =
          trie.batch ++ updatedBatch codec start frm children := by
        rw [KVTrie.updateHash, hroot, updateHash_node]
      rw [KVTrie.updateHash, hroot, updateHash_node] at hroot'
      cases hroot'
      rw [hbatch]
      exact quiet_updated htracked.sound.keyed (children i) (by simp) (hleaves i)
        (hinside.children i) (htracked.quiet frm children hroot i) fun r hr =>
          (lastWrite_inner htracked.sound.keyed hinside hfresh r).2.1 i hr
  | addToDB =>
      exact ⟨_, rfl, htracked.sound.stands, htracked.sound,
        fun frm children hroot i => htracked.sound.quiet hroot i, htracked.populated,
        htracked.hashed, fun _ => ⟨rfl, rfl⟩⟩
  | freeMemory depth =>
      obtain ⟨hunhashed, hwaiting⟩ := hallows
      obtain ⟨hnow, hwritten⟩ := htracked.hashed hunhashed
      obtain ⟨hbatch, -⟩ := htracked.waiting hwaiting
      have hsound := htracked.sound
      rw [← hnow] at hsound
      obtain ⟨hsound', hwritten'⟩ := sound_free hsound hwritten depth
      refine ⟨_, rfl, htracked.stands, ?_, fun frm children hroot i => ?_,
        populated_freeMemory htracked.populated depth, fun _ => ⟨hnow, hwritten'⟩,
        htracked.waiting⟩
      · rw [Maps.after, ← hnow]
        exact hsound'
      · have hempty : (trie.freeMemory depth).batch = [] := hbatch
        rw [hempty]
        exact hsound'.quiet hroot i
  | init depth =>
      obtain ⟨trie', hinit, hsound, hwritten⟩ := htracked.stands.init depth
      have hadd := addToDB_of_nil hsound.batch
      refine ⟨trie', hinit, hsound.stands, ?_, fun frm children hroot i => ?_,
        htracked.stands.populated_init hinit, fun _ => ⟨rfl, ?_⟩, fun _ => ⟨hsound.batch, rfl⟩⟩
      · rw [hadd]
        exact hsound
      · rw [hsound.batch]
        exact hsound.quiet hroot i
      · rw [hadd]
        exact hwritten

theorem Tracked.steps (htracked : Tracked codec start trie maps) {steps : List Step}
    (hallows : maps.AllowsAll steps) :
    ∃ trie', steps.foldlM (fun trie step => step.run codec start trie) trie = some trie' ∧
      Tracked codec start trie' (maps.afterAll steps) := by
  induction steps generalizing trie maps with
  | nil => exact ⟨trie, rfl, htracked⟩
  | cons step steps ih =>
      obtain ⟨trie₁, hrun, htracked₁⟩ := htracked.step hallows.1
      obtain ⟨trie₂, hrest, htracked₂⟩ := ih htracked₁ hallows.2
      refine ⟨trie₂, ?_, htracked₂⟩
      rw [List.foldlM_cons, hrun]
      exact hrest

/-- **Every such history runs to its end.** -/
theorem tracked_runSteps (codec : Codec) {steps : List Step} (hunused : Unused start db)
    (depth : ℤ) (hallows : ({} : Maps).AllowsAll steps) :
    ∃ trie, runSteps codec start db depth steps = some trie ∧
      Tracked codec start trie (({} : Maps).afterAll steps) := by
  obtain ⟨trie₀, hinit, hsound, hwritten⟩ := sound_unused codec hunused depth
  have hadd := addToDB_of_nil hsound.batch
  have htracked : Tracked codec start trie₀ {} := by
    refine ⟨hsound.stands, ?_, fun frm children hroot i => ?_, ?_, fun _ => ⟨rfl, ?_⟩,
      fun _ => ⟨hsound.batch, rfl⟩⟩
    · rw [hadd]
      exact hsound
    · rw [hsound.batch]
      exact hsound.quiet hroot i
    · have hstands := hsound.stands
      rw [db_init hinit] at hstands
      exact hstands.populated_init hinit
    · rw [hadd]
      exact hwritten
  obtain ⟨trie, hrun, htracked'⟩ := htracked.steps hallows
  refine ⟨trie, ?_, htracked'⟩
  rw [runSteps, hinit]
  exact hrun

/-! ## What Set answers -/

/-- The keys that these steps set have one length. -/
def SetsSized (length : ℕ) (steps : List Step) : Prop :=
  ∀ key value, .set key value ∈ steps → key.length = length

/-- The keys of these maps have one length. -/
structure Maps.Sized (maps : Maps) (length : ℕ) : Prop where
  written : ∀ key, maps.written key ≠ none → key.length = length
  hashed : ∀ key, maps.hashed key ≠ none → key.length = length
  now : ∀ key, maps.now key ≠ none → key.length = length

theorem Maps.Sized.after {length : ℕ} (hsized : maps.Sized length) {step : Step}
    (hstep : ∀ key value, step = .set key value → key.length = length) :
    (maps.after step).Sized length := by
  cases step with
  | set key value =>
      refine ⟨hsized.written, hsized.hashed, fun key' hkey' => ?_⟩
      by_cases heq : key' = key
      · rw [heq]
        exact hstep key value rfl
      · change Function.update maps.now key (some value) key' ≠ none at hkey'
        rw [Function.update_of_ne heq] at hkey'
        exact hsized.now key' hkey'
  | updateHash => exact ⟨hsized.written, hsized.now, hsized.now⟩
  | addToDB => exact ⟨hsized.hashed, hsized.hashed, hsized.now⟩
  | freeMemory depth => exact hsized
  | init depth => exact ⟨hsized.written, hsized.written, hsized.written⟩

theorem Maps.Sized.afterAll {length : ℕ} {steps : List Step} (hsized : maps.Sized length)
    (hsets : SetsSized length steps) : (maps.afterAll steps).Sized length := by
  induction steps generalizing maps with
  | nil => exact hsized
  | cons step steps ih =>
      refine ih (hsized.after fun key value heq => ?_) fun key value hmem => ?_
      · exact hsets key value (heq ▸ List.mem_cons_self)
      · exact hsets key value (List.mem_cons_of_mem _ hmem)

theorem sized_content {map : Bytes → Option Bytes} {length : ℕ}
    (hsized : ∀ key, map key ≠ none → key.length = length) : Sized (content map) length := by
  intro q hq
  obtain ⟨key, rfl⟩ := keyed_content map q hq
  rw [content_nibbles] at hq
  rw [length_nibbles, hsized key hq]

/-- **What Set answers** after any such history of keys of one length: true for a new key,
unless it is the empty one. -/
theorem runSteps_set (codec : Codec) {length : ℕ} {steps : List Step} (hunused : Unused start db)
    (depth : ℤ) (hsets : SetsSized length steps) (hallows : ({} : Maps).AllowsAll steps)
    {key : Bytes} (hkey : key.length = length) (value : Bytes) :
    ∃ trie added trie', runSteps codec start db depth steps = some trie ∧
      trie.set codec start key value = some (added, trie') ∧
      (added = true ↔ key ≠ [] ∧ (({} : Maps).afterAll steps).now key = none) := by
  obtain ⟨trie, hrun, htracked⟩ := tracked_runSteps codec hunused depth hallows
  obtain ⟨added, trie', hset, hset', -⟩ := htracked.set key value
  have hsized : ({} : Maps).Sized length :=
    ⟨fun _ hne => absurd rfl hne, fun _ hne => absurd rfl hne, fun _ hne => absurd rfl hne⟩
  have hnow := sized_content (hsized.afterAll hsets).now
  rw [← hkey] at hnow
  have hadded := added_iff htracked.sound htracked.populated hnow hset'
  rw [content_nibbles] at hadded
  exact ⟨trie, added, trie', hrun, hset, hadded⟩

end CegChain.Trie
