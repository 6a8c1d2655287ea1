import CegChain.Lib.Layers
import CegChain.Trie.Location
import Mathlib.Data.List.FinRange

/-!
# The trie

`ledger/trie.cpp` and `ledger/kv_trie.cpp`.  A node (`NodeFrm`) has a location, sixteen
pointers to children, and the record that is stored for it: what it knows of its
children and of its own leaf.  Children are read from the database when they are
needed, and what changes stays in memory until `UpdateHash` puts it in a batch.

`none` is the end of the process or an exception: a record that is not in the
database, a string that is read beyond its end, or a recursion that does not come to
an end.
-/

namespace CegChain.Trie

open Layers

/-! ## Nodes -/

/-- `protocol::CHILDTYPE`. -/
inductive ChildType where
  | none
  | inner
  | leaf
  deriving DecidableEq

/-- `protocol::Child`. -/
structure Child where
  sublocation : Location := []
  hash : Bytes := []
  childtype : ChildType := .none
  deriving DecidableEq

/-- `protocol::Node`: the children 0 to 15, and child 16, which is the node's leaf. -/
structure Info where
  children : Nibble → Child := fun _ => {}
  leaf : Child := {}

/-- `NodeFrm`, without its pointers. -/
structure NodeFrm where
  location : Location
  info : Info := {}
  modified : Bool := true
  leafDeleted : Bool := false
  leaf : Option Bytes := none

/-- `NodeFrm::POINTER`, with what it points to. -/
inductive Pointer where
  | null
  | node (frm : NodeFrm) (children : Nibble → Pointer)

/-- A node without children in memory. -/
def Pointer.single (frm : NodeFrm) : Pointer :=
  .node frm fun _ => .null

/-- `modified_` of what a pointer points to. -/
def Pointer.modified : Pointer → Bool
  | .null => false
  | .node frm _ => frm.modified

namespace NodeFrm

/-- `NodeFrm::SetValue`. -/
def setValue (v : Bytes) (frm : NodeFrm) : NodeFrm :=
  { frm with
    modified := true
    leafDeleted := false
    leaf := some v
    info := { frm.info with
      leaf := { frm.info.leaf with childtype := .leaf, sublocation := frm.location } } }

/-- `NodeFrm::MarkRemove`. -/
def markRemove (frm : NodeFrm) : NodeFrm :=
  { frm with
    modified := true
    leafDeleted := true
    leaf := none
    info := { frm.info with leaf := {} } }

/-- The record of a child changes. -/
def setRecord (branch : Nibble) (child : Child) (frm : NodeFrm) : NodeFrm :=
  { frm with info := { frm.info with
      children := Function.update frm.info.children branch child } }

/-- The part of `NodeFrm::SetChild` that is about the record. -/
def setChild (branch : Nibble) (location : Location) (frm : NodeFrm) : NodeFrm :=
  { frm.setRecord branch { frm.info.children branch with sublocation := location } with
    modified := true }

end NodeFrm

/-! ## The database -/

/-- The hash and the serialization of records. -/
structure Codec where
  crypto : Bytes → Bytes
  serialize : Info → Bytes
  parse : Bytes → Info
  parse_serialize : ∀ info, parse (serialize info) = info

/-- The database. -/
abbrev Db := Table Bytes Bytes

/-- An entry of a `WRITE_BATCH`. -/
inductive Write where
  | put (key value : Bytes)
  | delete (key : Bytes)
  deriving DecidableEq

/-- One entry is written. -/
def Write.apply (db : Db) : Write → Db
  | .put key value => db.insert key value
  | .delete key => db.erase key

/-- `KeyValueDb::WriteBatch`: the entries are written in order. -/
def writeBatch (batch : List Write) (db : Db) : Db :=
  batch.foldl Write.apply db

/-- `KVTrie::Location2DBkey` of a trie whose keys begin with `start`. -/
def location2DBkey (start : Bytes) (location : Location) (leaf : Bool) : Bytes :=
  start ++ if leaf then location.set 0 leafByte else location

variable (codec : Codec) (start : Bytes) (db : Db)

/-- `KVTrie::storage_load`. -/
def storageLoad (location : Location) : Option Info :=
  (db.lookup (location2DBkey start location false)).map codec.parse

/-- `KVTrie::StorageGetLeaf`. -/
def storageGetLeaf (location : Location) : Option Bytes :=
  db.lookup (location2DBkey start location true)

/-! ## Looking for a node -/

/-- `Trie::ChildMayFromDB`: the children afterwards. -/
def childMayFromDB (frm : NodeFrm) (children : Nibble → Pointer) (branch : Nibble) :
    Option (Nibble → Pointer) :=
  match children branch with
  | .node .. => some children
  | .null =>
      let chd := frm.info.children branch
      match chd.childtype with
      | .none => some children
      | .leaf => some (Function.update children branch
          (.single { location := chd.sublocation, modified := false, info := { leaf := chd } }))
      | .inner => (storageLoad codec start db chd.sublocation).map fun info =>
          Function.update children branch
            (.single { location := chd.sublocation, modified := false, info := info })

/-- `Trie::SetItem`: whether a node was added, and the node afterwards.  The recursion
is bounded by `fuel`. -/
def setItem (location : Location) (data : Bytes) :
    ℕ → NodeFrm → (Nibble → Pointer) → Option (Bool × Pointer)
  | 0, _, _ => none
  | fuel + 1, node, children =>
      let node := { node with modified := true }
      if node.location = location then some (false, .node (node.setValue data) children)
      else do
        let branch ← nextBranch (commonPrefix node.location location) location
        let children ← childMayFromDB codec start db node children branch
        let child2 := node.info.children branch
        let newnode := NodeFrm.setValue data { location := location }
        match children branch with
        | .null =>
            let child : Child := { child2 with sublocation := location, childtype := .leaf }
            some (true, .node (node.setRecord branch child)
              (Function.update children branch (.single newnode)))
        | .node node2 children2 =>
            let newcommon := commonPrefix location node2.location
            if newcommon = node2.location then do
              let (added, child) ← setItem location data fuel node2 children2
              some (added, .node node (Function.update children branch child))
            else if newcommon = location then do
              let b₁ ← nextBranch newcommon node2.location
              let child := Pointer.node ((newnode.setChild b₁ node2.location).setRecord b₁ child2)
                (Function.update (fun _ => .null) b₁ (.node node2 children2))
              some (true, .node (node.setRecord branch
                  { child2 with sublocation := location, childtype := .inner })
                (Function.update children branch child))
            else do
              let b₁ ← nextBranch newcommon location
              let b₂ ← nextBranch newcommon node2.location
              let mnode : NodeFrm := { location := newcommon }
              let mnode := (mnode.setChild b₁ location).setChild b₂ node2.location
              let child := Pointer.node (mnode.setRecord b₂ child2)
                (Function.update (Function.update (fun _ => .null) b₁ (.single newnode)) b₂
                  (.node node2 children2))
              some (true, .node (node.setChild branch newcommon)
                (Function.update children branch child))

/-- `Trie::DeleteItem`: whether a node was marked, and the node afterwards. -/
def deleteItem (location : Location) :
    ℕ → NodeFrm → (Nibble → Pointer) → Option (Bool × Pointer)
  | 0, _, _ => none
  | fuel + 1, node, children =>
      if node.location.length > location.length then some (false, .node node children)
      else if location = node.location then some (true, .node node.markRemove children)
      else do
        let branch ← nextBranch (commonPrefix node.location location) location
        let children ← childMayFromDB codec start db node children branch
        match children branch with
        | .null => some (false, .node node children)
        | .node node2 children2 =>
            if node2.location ≠ commonPrefix node2.location location then
              some (false, .node node children)
            else do
              let (ret, child) ← deleteItem location fuel node2 children2
              some (ret, .node { node with modified := node.modified || ret }
                (Function.update children branch child))

/-- `Trie::Exists`: the answer, and the node afterwards. -/
def existsItem (key : Location) : ℕ → NodeFrm → (Nibble → Pointer) → Option (Bool × Pointer)
  | 0, _, _ => none
  | fuel + 1, node, children =>
      if node.location = key then some (true, .node node children)
      else do
        let branch ← nextBranch (commonPrefix node.location key) key
        let chd := node.info.children branch
        if chd.childtype = .none then some (false, .node node children)
        else if commonPrefix chd.sublocation key ≠ chd.sublocation then
          some (false, .node node children)
        else do
          let children ← childMayFromDB codec start db node children branch
          match children branch with
          | .null => none
          | .node child children2 => do
              let (found, child) ← existsItem key fuel child children2
              some (found, .node node (Function.update children branch child))

/-! ## Hashing -/

/-- The location of the root. -/
def rootl : Location := [evenByte]

/-- The records of a node that are not empty, its leaf first. -/
def branches (info : Info) : List Child :=
  (info.leaf :: List.ofFn info.children).filter fun child => child.childtype ≠ .none

/-- The part of `update_hash` about the leaf: its record, and what is written. -/
def updateLeaf (node : NodeFrm) : Child × List Write :=
  let key := location2DBkey start node.location true
  if node.leafDeleted then ({}, [.delete key])
  else match node.leaf with
    | some v => (⟨node.location, codec.crypto v, .leaf⟩, [.put key v])
    | none => (node.info.leaf, [])

/-- The part of `update_hash` about the record: what the parent is told, and what is
written. -/
def updateRecord (location : Location) (info : Info) : Child × Write :=
  let key := location2DBkey start location false
  let inner : Child × Write :=
    (⟨location, codec.crypto (codec.serialize info), .inner⟩, .put key (codec.serialize info))
  if location = rootl then inner
  else match branches info with
    | [] => ({}, .delete key)
    | [only] => (only, .delete key)
    | _ => inner

/-- `Trie::update_hash`: the node afterwards, what its parent is told, and what is
written. -/
def updateHash : Pointer → Pointer × Child × List Write
  | .null => (.null, {}, [])
  | .node node children =>
      let leaf := updateLeaf codec start node
      let results := fun i => updateHash (children i)
      let info : Info :=
        { leaf := leaf.1
          children := fun i =>
            if (children i).modified then (results i).2.1 else node.info.children i }
      let record := updateRecord codec start node.location info
      (.node { node with info := info, modified := false }
          (fun i => if (children i).modified then (results i).1 else children i),
        record.1,
        leaf.2 ++ (List.finRange 16).flatMap
          (fun i => if (children i).modified then (results i).2.2 else []) ++ [record.2])

/-! ## Memory -/

/-- `Trie::Release`. -/
def release : Pointer → ℤ → Pointer
  | .null, _ => .null
  | .node node children, depth =>
      .node node fun i => if depth ≤ 0 then .null else release (children i) (depth - 1)

/-- All of them, if none is missing. -/
def sequence {α : Type} (f : Nibble → Option α) : Option (Nibble → α) :=
  if h : ∀ i, (f i).isSome then some fun i => (f i).get (h i) else none

/-- `KVTrie::Load`, down to `depth` more levels; nothing is loaded at level 0, which is
depth -1. -/
def load : ℕ → NodeFrm → (Nibble → Pointer) → Option Pointer
  | 0, node, children => some (.node node children)
  | depth + 1, node, children => do
      let children ← sequence fun i =>
        (childMayFromDB codec start db node children i).bind fun children =>
          match children i with
          | .null => some .null
          | .node child children => load depth child children
      some (.node node children)

/-! ## The trie and its database -/

/-- A `KVTrie` with the database it works on. -/
structure KVTrie where
  db : Db
  batch : List Write := []
  root : Pointer := .null
  rootHash : Bytes := []

namespace KVTrie

/-- `KVTrie::Init` of a new trie. -/
def init (depth : ℤ) : Option KVTrie :=
  let root : NodeFrm := { location := rootl }
  match storageLoad codec start db rootl with
  | none => some { db := db, root := .single root }
  | some info =>
      (load codec start db (depth + 1).toNat { root with info := info } fun _ => .null).map
        fun root => { db := db, root := root }

/-- Enough for any recursion that goes down the path of a key. -/
def fuel (key : Bytes) : ℕ :=
  2 * key.length + 1

/-- `Trie::Set`. -/
def set (key value : Bytes) (trie : KVTrie) : Option (Bool × KVTrie) :=
  match trie.root with
  | .null => none
  | .node root children => do
      let (added, root) ← setItem codec start trie.db (key2Location key) value (fuel key)
        root children
      some (added, { trie with root := root })

/-- `Trie::Delete`. -/
def delete (key : Bytes) (trie : KVTrie) : Option (Bool × KVTrie) :=
  match trie.root with
  | .null => none
  | .node root children => do
      let (ret, root) ← deleteItem codec start trie.db (key2Location key) (fuel key) root children
      some (ret, { trie with root := root })

/-- `Trie::Get`. -/
def get (key : Bytes) (trie : KVTrie) : Option (Option Bytes × KVTrie) :=
  match trie.root with
  | .null => none
  | .node root children => do
      let (found, root) ← existsItem codec start trie.db (key2Location key) (fuel key) root
        children
      let trie := { trie with root := root }
      some (if found then storageGetLeaf start trie.db (key2Location key) else none, trie)

/-- `Trie::UpdateHash`. -/
def updateHash (trie : KVTrie) : KVTrie :=
  let (root, child, batch) := Trie.updateHash codec start trie.root
  { trie with root := root, rootHash := child.hash, batch := trie.batch ++ batch }

/-- `KVTrie::AddToDB`. -/
def addToDB (trie : KVTrie) : KVTrie :=
  { trie with db := writeBatch trie.batch trie.db, batch := [] }

/-- `Trie::FreeMemory`. -/
def freeMemory (depth : ℤ) (trie : KVTrie) : KVTrie :=
  { trie with root := release trie.root depth }

end KVTrie

end CegChain.Trie
