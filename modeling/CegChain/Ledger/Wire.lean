import CegChain.Ledger.LedgerManager
import CegChain.Trie.Codec

/-!
# The messages of the ledger manager on the wire

A node whose messages are written as bytes and read back: numbers seven bits to a byte,
the sign in the lowest bit, and the fields of a message as strings with their length
before them.
-/

namespace CegChain

open Protobuf

/-- A number, its sign in the lowest bit. -/
def writeInt (n : ℤ) : Bytes :=
  varint (if n < 0 then 2 * n.natAbs + 1 else 2 * n.natAbs)

/-- The number at the beginning of a string. -/
def readInt (bytes : Bytes) : ℤ :=
  match readVarint bytes with
  | some (m, _) => if m % 2 = 1 then -(m / 2 : ℕ) else (m / 2 : ℕ)
  | none => 0

theorem readInt_writeInt (n : ℤ) : readInt (writeInt n) = n := by
  have hread := readVarint_varint (if n < 0 then 2 * n.natAbs + 1 else 2 * n.natAbs) []
  rw [List.append_nil] at hread
  rw [readInt, writeInt, hread]
  by_cases hn : n < 0
  · simp only [if_pos hn]
    rw [if_pos (by omega)]
    omega
  · simp only [if_neg hn]
    rw [if_neg (by omega)]
    omega

namespace FeeConfig

/-- The fields as strings. -/
def fields (fees : FeeConfig) : List Bytes :=
  [writeInt fees.gasPrice.toInt, writeInt fees.baseReserve.toInt]

/-- `FeeConfig::SerializeAsString`. -/
def serialize (fees : FeeConfig) : Bytes :=
  repeated 0x0a fees.fields

/-- `FeeConfig::ParseFromString`. -/
def parse (bytes : Bytes) : Option FeeConfig :=
  match readRepeated 2 bytes with
  | some [gasPrice, baseReserve] =>
      some ⟨Int64.ofInt (readInt gasPrice), Int64.ofInt (readInt baseReserve)⟩
  | _ => none

theorem parse_serialize (fees : FeeConfig) : parse fees.serialize = some fees := by
  have hread : readRepeated 2 (repeated 0x0a fees.fields) = some fees.fields :=
    readRepeated_repeated 0x0a fees.fields
  rw [parse, serialize, hread]
  simp only [fields, readInt_writeInt, Int64.ofInt_toInt]

end FeeConfig

namespace ValidatorSet

/-- `ValidatorSet::SerializeAsString`, with the number of the validators before them. -/
def serialize (set : ValidatorSet) : Bytes :=
  varint set.length ++
    repeated 0x0a (set.map fun validator => delimited validator.1 ++ writeInt validator.2)

/-- `Validator::ParseFromString`. -/
def parseOne (bytes : Bytes) : Option (Address × ℤ) :=
  (readDelimited bytes).map fun r => (r.1, readInt r.2)

/-- `ValidatorSet::ParseFromString`. -/
def parse (bytes : Bytes) : Option ValidatorSet := do
  let (count, rest) ← readVarint bytes
  let elements ← readRepeated count rest
  elements.mapM parseOne

theorem parseOne_delimited (validator : Address × ℤ) :
    parseOne (delimited validator.1 ++ writeInt validator.2) = some validator := by
  rw [parseOne, readDelimited_delimited, Option.map_some, readInt_writeInt]

theorem parse_serialize (set : ValidatorSet) : parse (serialize set) = some set := by
  have hread := readRepeated_repeated 0x0a
    (set.map fun validator => delimited validator.1 ++ writeInt validator.2)
  rw [List.length_map] at hread
  rw [parse, serialize, readVarint_varint, Option.bind_eq_bind, Option.bind_some]
  dsimp only
  rw [hread, Option.bind_eq_bind, Option.bind_some]
  clear hread
  induction set with
  | nil => rfl
  | cons validator set ih =>
      rw [List.map_cons, List.mapM_cons, parseOne_delimited]
      exact congrArg (Option.bind · fun set => some (validator :: set)) ih

end ValidatorSet

namespace LedgerHeader

/-- The fields as strings. -/
def fields (header : LedgerHeader) : List Bytes :=
  [writeInt header.seq, header.hash, header.previousHash, header.accountTreeHash,
    writeInt header.closeTime, header.consensusValueHash, writeInt header.version,
    writeInt header.txCount, header.validatorsHash, header.feesHash, header.reserve,
    writeInt header.chainId]

/-- `LedgerHeader::SerializeAsString`. -/
def serialize (header : LedgerHeader) : Bytes :=
  repeated 0x0a header.fields

/-- `LedgerHeader::ParseFromString`; the header stays empty when it fails. -/
def parse (bytes : Bytes) : LedgerHeader :=
  match readRepeated 12 bytes with
  | some [seq, hash, previousHash, accountTreeHash, closeTime, consensusValueHash, version,
      txCount, validatorsHash, feesHash, reserve, chainId] =>
      { seq := readInt seq
        hash := hash
        previousHash := previousHash
        accountTreeHash := accountTreeHash
        closeTime := readInt closeTime
        consensusValueHash := consensusValueHash
        version := readInt version
        txCount := readInt txCount
        validatorsHash := validatorsHash
        feesHash := feesHash
        reserve := reserve
        chainId := readInt chainId }
  | _ => { seq := 0, accountTreeHash := [], consensusValueHash := [], version := 0 }

theorem parse_serialize (header : LedgerHeader) : parse header.serialize = header := by
  have hread : readRepeated 12 (repeated 0x0a header.fields) = some header.fields :=
    readRepeated_repeated 0x0a header.fields
  rw [parse, serialize, hread]
  simp only [fields, readInt_writeInt]

end LedgerHeader

/-- A node of a network of its own, whose hash is the message itself. -/
def Node.sample (linux : Bool) : Node where
  linux := linux
  genesis := ⟨[50], [[51]], ⟨1000, 10000000⟩, 1, []⟩
  hardforkPoints := []
  checkProof _ _ _ := true
  codec := .protobuf id
  serializeAccount account := writeInt account.nonce ++ writeInt account.balance.toInt
  serializeRequest value := writeInt value.ledgerSeq
  serializeLedger header _ := header.serialize
  serializeHeader := LedgerHeader.serialize
  parseHeader := LedgerHeader.parse
  parse_header := LedgerHeader.parse_serialize
  serializeValidators := ValidatorSet.serialize
  parseValidators := ValidatorSet.parse
  parse_validators := ValidatorSet.parse_serialize
  serializeFees := FeeConfig.serialize
  parseFees := FeeConfig.parse
  parse_fees := FeeConfig.parse_serialize

end CegChain
