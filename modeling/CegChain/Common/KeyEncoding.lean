import CegChain.Common.PrivateKey
import CegChain.Utils.Strings

/-!
# Encoded keys

`GetEncPublicKey`, `GetEncPrivateKey` and `GetPublicKeyElement` of
`common/private_key.cpp`.  An encoded key is a prefix, the signature type, the key, for a
private key a zero byte, and the first four bytes of a double hash of all that; public keys
are written in hexadecimal, the others to the base 58.  The decoders find the parts from
the length of the whole: `getPublicKeyElement_getEncPublicKey`,
`getKeyElement_getEncPrivateKey` and `isAddressValid_getEncAddress` say that they find what
was put in.
-/

namespace CegChain

open HexString

/-- `ED25519_PUBLICKEY_LENGTH` and `SM2_PUBLICKEY_LENGTH`. -/
def publicKeyLength : SignatureType → ℕ
  | .cfcasm2 => 65
  | _ => 32

/-- `EncodePublicKey`. -/
def encodePublicKey (key : Bytes) : Bytes := binToHexString key

/-- `DecodePublicKey`. -/
def decodePublicKey (key : Bytes) : Bytes := hexStringToBin key

/-- `EncodePrivateKey`. -/
def encodePrivateKey (key : Bytes) : Bytes := Base58.encode key

/-- `PUBLICKEY_PREFIX`. -/
def publicKeyPrefix : UInt8 := 0xb0

section Hash

variable (calcHash : SignatureType → Bytes → Bytes)

/-- The bytes with their checksum, as every encoder ends. -/
def withChecksum (type : SignatureType) (data : Bytes) : Bytes :=
  data ++ checksumOf calcHash type data

/-- `PublicKey::GetEncPublicKey`. -/
def getEncPublicKey (type : SignatureType) (rawPubKey : Bytes) : Bytes :=
  encodePublicKey (withChecksum calcHash type (publicKeyPrefix :: type.toByte :: rawPubKey))

/-- `PrivateKey::GetEncPrivateKey`. -/
def getEncPrivateKey (type : SignatureType) (rawPrivKey : Bytes) : Bytes :=
  encodePrivateKey (withChecksum calcHash type
    ([0xDA, 0x37, 0x9F, type.toByte] ++ rawPrivKey ++ [0x00]))

/-- `GetPublicKeyElement`. -/
def getPublicKeyElement (encodePubKey : Bytes) :
    Option (PrivateKeyPrefix × SignatureType × Bytes) :=
  let buff := decodePublicKey encodePubKey
  if buff.length < 6 then none
  else if buff.getD 0 0 ≠ publicKeyPrefix then none
  else match SignatureType.ofByte? (buff.getD 1 0) with
  | some signType =>
      if publicKeyLength signType = buff.length - 6 ∧
          buff.drop (buff.length - 4) =
            checksumOf calcHash signType (buff.take (buff.length - 4)) then
        some (.publickey, signType, (buff.drop 2).take (buff.length - 6))
      else none
  | none => none

/-- What `PrivateKey::From` returns. -/
def isPrivateKeyValid (encodePrivateKey : Bytes) : Bool :=
  match getKeyElement calcHash encodePrivateKey with
  | some (keyPrefix, _, _) => keyPrefix == .privatekey
  | none => false

variable {calcHash} {type : SignatureType}

/-- The bytes of the two signature types. -/
theorem ofByte?_toByte (htype : type ≠ .none) : SignatureType.ofByte? type.toByte = some type := by
  cases type with
  | none => exact absurd rfl htype
  | ed25519 => rfl
  | cfcasm2 => rfl

section Checksum

variable (hhash : ∀ type data, (calcHash type data).length = 32)

include hhash

theorem length_checksumOf (type : SignatureType) (data : Bytes) :
    (checksumOf calcHash type data).length = 4 := by
  simp [checksumOf, hhash]

theorem length_withChecksum (type : SignatureType) (data : Bytes) :
    (withChecksum calcHash type data).length = data.length + 4 := by
  rw [withChecksum, List.length_append, length_checksumOf hhash]

/-- The last four bytes are the checksum of the others. -/
theorem withChecksum_split (type : SignatureType) (data : Bytes) :
    let buff := withChecksum calcHash type data
    buff.take (buff.length - 4) = data ∧
      buff.drop (buff.length - 4) = checksumOf calcHash type data := by
  have hlength : (withChecksum calcHash type data).length - 4 = data.length := by
    rw [length_withChecksum hhash]
    omega
  dsimp only
  rw [hlength]
  exact ⟨List.take_left, List.drop_left⟩

/-- `GetKeyElement` finds the parts of a key: type, payload, and what else is counted. -/
theorem elementAt_withChecksum {keyPrefix : PrivateKeyPrefix} {pos overhead : ℕ}
    {length : SignatureType → ℕ} {start payload rest : Bytes} (htype : type ≠ .none)
    (hpos : start.length = pos) (hpayload : payload.length = length type)
    (hoverhead : pos + 1 + rest.length + 4 = overhead) :
    elementAt calcHash keyPrefix pos overhead length
        (withChecksum calcHash type (start ++ type.toByte :: (payload ++ rest))) =
      some (keyPrefix, type, payload) := by
  obtain ⟨htake, hdrop⟩ := withChecksum_split hhash type
    (start ++ type.toByte :: (payload ++ rest))
  have hlength : (withChecksum calcHash type
      (start ++ type.toByte :: (payload ++ rest))).length = length type + overhead := by
    rw [length_withChecksum hhash]
    simp only [List.length_append, List.length_cons]
    omega
  have hbyte : (withChecksum calcHash type
      (start ++ type.toByte :: (payload ++ rest))).getD pos 0 = type.toByte := by
    rw [withChecksum, ← hpos, List.append_assoc]
    simp
  have hdata : ((withChecksum calcHash type
      (start ++ type.toByte :: (payload ++ rest))).drop (pos + 1)).take (length type) =
        payload := by
    have hstart : start.drop (start.length + 1) = [] := List.drop_eq_nil_of_le (by omega)
    rw [withChecksum, List.append_assoc, ← hpos, List.drop_append, hstart]
    simp [← hpayload]
  unfold elementAt
  rw [hbyte, ofByte?_toByte htype]
  dsimp only
  rw [htake, hdrop, hlength, Nat.add_sub_cancel, if_pos ⟨rfl, rfl⟩, hdata]

/-! ## Round trips -/

/-- **Public keys.** -/
theorem getPublicKeyElement_getEncPublicKey (htype : type ≠ .none) {rawPubKey : Bytes}
    (hraw : rawPubKey.length = publicKeyLength type) :
    getPublicKeyElement calcHash (getEncPublicKey calcHash type rawPubKey) =
      some (.publickey, type, rawPubKey) := by
  set data := publicKeyPrefix :: type.toByte :: rawPubKey with hdata
  obtain ⟨htake, hdrop⟩ := withChecksum_split hhash type data
  have hlength : (withChecksum calcHash type data).length = publicKeyLength type + 6 := by
    rw [length_withChecksum hhash, hdata]
    simp only [List.length_cons]
    omega
  have hkey : ((withChecksum calcHash type data).drop 2).take (publicKeyLength type) =
      rawPubKey := by
    rw [withChecksum, hdata, ← hraw]
    simp
  have hfirst : (withChecksum calcHash type data).getD 0 0 = publicKeyPrefix := rfl
  have hsecond : (withChecksum calcHash type data).getD 1 0 = type.toByte := rfl
  unfold getPublicKeyElement getEncPublicKey decodePublicKey encodePublicKey
  rw [hexStringToBin_binToHexString, ← hdata]
  dsimp only
  rw [htake, hdrop, hfirst, hsecond, ofByte?_toByte htype, hlength, if_neg (by omega),
    if_neg (not_not.mpr rfl), Nat.add_sub_cancel]
  dsimp only
  rw [if_pos ⟨rfl, rfl⟩, hkey]

/-- **Private keys.** -/
theorem getKeyElement_getEncPrivateKey (htype : type ≠ .none) {rawPrivKey : Bytes}
    (hraw : rawPrivKey.length = 32) :
    getKeyElement calcHash (getEncPrivateKey calcHash type rawPrivKey) =
      some (.privatekey, type, rawPrivKey) := by
  have hparts : [0xDA, 0x37, 0x9F, type.toByte] ++ rawPrivKey ++ [0x00] =
      [0xDA, 0x37, 0x9F] ++ type.toByte :: (rawPrivKey ++ [0x00]) := by
    simp
  have helement : elementAt calcHash .privatekey 3 9 privateKeyLength
      (withChecksum calcHash type ([0xDA, 0x37, 0x9F] ++ type.toByte :: (rawPrivKey ++ [0x00]))) =
        some (.privatekey, type, rawPrivKey) :=
    elementAt_withChecksum hhash htype rfl hraw rfl
  have hlength : (withChecksum calcHash type
      ([0xDA, 0x37, 0x9F] ++ type.toByte :: (rawPrivKey ++ [0x00]))).length = 41 := by
    rw [length_withChecksum hhash]
    simp [hraw]
  unfold getKeyElement getEncPrivateKey encodePrivateKey decodeAddress
  rw [Base58.decode_encode, Option.bind_some, hparts, keyElementOf, hlength, helement]
  rfl

/-- **Addresses.** -/
theorem isAddressValid_getEncAddress (htype : type ≠ .none) (rawPubKey : Bytes) :
    isAddressValid calcHash (getEncAddress calcHash type rawPubKey) = true := by
  set hash := (calcHash type rawPubKey).drop 12 with hdef
  have hhash20 : hash.length = 20 := by
    rw [hdef, List.length_drop, hhash]
  have hparts : [0x01, 0x56, type.toByte] ++ hash =
    [0x01, 0x56] ++ type.toByte :: (hash ++ []) := by
    simp
  have helement : elementAt calcHash .address 2 7 addressLength
      (withChecksum calcHash type ([0x01, 0x56] ++ type.toByte :: (hash ++ []))) =
        some (.address, type, hash) :=
    elementAt_withChecksum hhash htype rfl hhash20 rfl
  have hlength : (withChecksum calcHash type
      ([0x01, 0x56] ++ type.toByte :: (hash ++ []))).length = 27 := by
    rw [length_withChecksum hhash]
    simp [hhash20]
  have hencoded : getEncAddress calcHash type rawPubKey =
      encodeAddress (withChecksum calcHash type ([0x01, 0x56] ++ type.toByte :: (hash ++ []))) := by
    rw [← hparts]
    rfl
  unfold isAddressValid getKeyElement
  rw [hencoded, encodeAddress, decodeAddress, Base58.decode_encode, Option.bind_some,
    keyElementOf, hlength, helement]
  rfl

end Checksum

/-- A string is not an address and a private key at once. -/
theorem not_address_and_privateKey (string : Bytes) :
    ¬(isAddressValid calcHash string = true ∧ isPrivateKeyValid calcHash string = true) := by
  rintro ⟨haddress, hprivate⟩
  unfold isAddressValid at haddress
  unfold isPrivateKeyValid at hprivate
  cases helement : getKeyElement calcHash string with
  | none =>
      rw [helement] at haddress
      cases haddress
  | some element =>
      rw [helement] at haddress hprivate
      have hfirst : element.1 = .address := eq_of_beq haddress
      have hsecond : element.1 = .privatekey := eq_of_beq hprivate
      rw [hfirst] at hsecond
      cases hsecond

/-- **Encoded keys and addresses are read back**, whatever the hash, as long as it has 32
bytes. -/
theorem encodings_round_trip (hhash : ∀ type data, (calcHash type data).length = 32)
    (htype : type ≠ .none) :
    (∀ rawPubKey, rawPubKey.length = publicKeyLength type →
        getPublicKeyElement calcHash (getEncPublicKey calcHash type rawPubKey) =
            some (.publickey, type, rawPubKey) ∧
          isAddressValid calcHash (getEncAddress calcHash type rawPubKey) = true) ∧
      (∀ rawPrivKey, rawPrivKey.length = 32 →
        getKeyElement calcHash (getEncPrivateKey calcHash type rawPrivKey) =
            some (.privatekey, type, rawPrivKey) ∧
          isPrivateKeyValid calcHash (getEncPrivateKey calcHash type rawPrivKey) = true) ∧
      ∀ string, ¬(isAddressValid calcHash string = true ∧
        isPrivateKeyValid calcHash string = true) := by
  refine ⟨fun rawPubKey hraw => ⟨getPublicKeyElement_getEncPublicKey hhash htype hraw,
    isAddressValid_getEncAddress hhash htype rawPubKey⟩, fun rawPrivKey hraw => ?_,
    not_address_and_privateKey⟩
  have helement := getKeyElement_getEncPrivateKey hhash htype hraw
  refine ⟨helement, ?_⟩
  rw [isPrivateKeyValid, helement]
  rfl

/-- The keys of zeros, of the SM2 type. -/
theorem zero_keys_round_trip :
    getPublicKeyElement constantHash (getEncPublicKey constantHash .cfcasm2 (.replicate 65 0)) =
        some (.publickey, .cfcasm2, .replicate 65 0) ∧
      getKeyElement constantHash (getEncPrivateKey constantHash .cfcasm2 (.replicate 32 0)) =
        some (.privatekey, .cfcasm2, .replicate 32 0) := by
  have hhash : ∀ type data, (constantHash type data).length = 32 := fun _ _ => rfl
  have htype : SignatureType.cfcasm2 ≠ .none := nofun
  exact ⟨((encodings_round_trip hhash htype).1 _ rfl).1,
    ((encodings_round_trip hhash htype).2.1 _ rfl).1⟩

end Hash

end CegChain
