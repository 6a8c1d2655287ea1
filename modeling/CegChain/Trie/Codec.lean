import CegChain.Lib.Protobuf
import CegChain.Trie.KVTrie

/-!
# The records on the wire

`proto/merkeltrie.proto`.  A `Node` is a repeated field of seventeen children, and a
record that is read back is the one that was written.
-/

namespace CegChain.Trie

open Protobuf

/-- `Child::SerializeAsString`. -/
def Child.serialize (child : Child) : Bytes :=
  bytesField 0x0a child.sublocation ++ (bytesField 0x12 child.hash ++
    match child.childtype with
    | .none => []
    | .inner => [0x18, 1]
    | .leaf => [0x18, 2])

/-- `Child::ParseFromString`. -/
def Child.parse (bytes : Bytes) : Child :=
  ((readBytesField 0x0a bytes).bind fun sublocation =>
    (readBytesField 0x12 sublocation.2).map fun hash =>
      { sublocation := sublocation.1
        hash := hash.1
        childtype := if hash.2 = [0x18, 1] then .inner
          else if hash.2 = [0x18, 2] then .leaf else .none }).getD {}

theorem Child.parse_serialize (child : Child) : Child.parse child.serialize = child := by
  obtain ⟨sublocation, hash, childtype⟩ := child
  have hrest : ∀ tag : UInt8, tag ≠ 0x18 → ∀ b ∈ (match childtype with
      | .none => []
      | .inner => [(0x18 : UInt8), 1]
      | .leaf => [0x18, 2]).head?, b ≠ tag := by
    intro tag htag b hb
    cases childtype with
    | none => cases hb
    | inner => cases hb; exact htag.symm
    | leaf => cases hb; exact htag.symm
  rw [Child.parse, Child.serialize, readBytesField_bytesField
      (head?_bytesField (by decide) (hrest 0x0a (by decide)) hash), Option.bind_some,
    readBytesField_bytesField (hrest 0x12 (by decide))]
  cases childtype <;> rfl

/-- The children of a record, its leaf last. -/
def Info.all (info : Info) : List Child :=
  (List.finRange 16).map info.children ++ [info.leaf]

/-- `Node::SerializeAsString`. -/
def Info.serialize (info : Info) : Bytes :=
  repeated 0x0a (info.all.map Child.serialize)

/-- `Node::ParseFromString`. -/
def Info.parse (bytes : Bytes) : Info :=
  let all := ((readRepeated 17 bytes).getD []).map Child.parse
  { children := fun branch => all.getD branch.val {}, leaf := all.getD 16 {} }

theorem Info.parse_serialize (info : Info) : Info.parse info.serialize = info := by
  have hlength : (info.all.map Child.serialize).length = 17 := by
    simp [Info.all]
  have hall : (info.all.map Child.serialize).map Child.parse = info.all := by
    rw [List.map_map]
    exact List.map_id'' Child.parse_serialize info.all
  obtain ⟨children, leaf⟩ := info
  have hread := readRepeated_repeated 0x0a (Info.all ⟨children, leaf⟩ |>.map Child.serialize)
  rw [hlength] at hread
  rw [Info.parse, Info.serialize, hread, Option.getD_some, hall]
  congr 1
  funext branch
  simp [Info.all, List.getElem?_append_left]

/-- Records as protobuf writes them. -/
def Codec.protobuf (crypto : Bytes → Bytes) : Codec where
  crypto := crypto
  serialize := Info.serialize
  parse := Info.parse
  parse_serialize := Info.parse_serialize

end CegChain.Trie
