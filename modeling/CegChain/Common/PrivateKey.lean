import CegChain.Utils.Base58

/-!
# Addresses

`common/private_key.cpp` decides whether a string is an account address: it
decodes the string, looks at the length, the prefix `0x01 0x56`, the signature
type and the checksum of the decoded bytes, and accepts.  The string itself is
never compared with the encoding of what it decoded.

The environment of a block keys accounts by the string and the account trie by
the decoded bytes, so it matters whether two accepted strings can decode to the
same bytes.  They can: a character outside the dictionary counts as the digit
255, and `255 = 4 * 58 + 23`, so the digit 23 (`'Q'`) may be written as a foreign
character after lowering the number in front of it by 4.
`address_unique_iff` says that this is the only way.

The hash functions are not part of the repository; `calcHash` stands for them.
-/

namespace CegChain

open Base58

/-- `SignatureType`. -/
inductive SignatureType where
  | none
  | ed25519
  | cfcasm2
  deriving DecidableEq, Repr

/-- `(SignatureType)a` for a byte, with the values that every switch sends to its
default left out. -/
def SignatureType.ofByte? : UInt8 → Option SignatureType
  | 1 => some .ed25519
  | 2 => some .cfcasm2
  | _ => Option.none

/-- `(char)type_`. -/
def SignatureType.toByte : SignatureType → UInt8
  | .none => 0
  | .ed25519 => 1
  | .cfcasm2 => 2

/-- `PrivateKeyPrefix`. -/
inductive PrivateKeyPrefix where
  | address
  | publickey
  | privatekey
  deriving DecidableEq, Repr

/-- `ED25519_ADDRESS_LENGTH` and `SM2_ADDRESS_LENGTH`. -/
def addressLength : SignatureType → ℕ := fun _ => 20

/-- `ED25519_PRIVATEKEY_LENGTH` and `SM2_PRIVATEKEY_LENGTH`. -/
def privateKeyLength : SignatureType → ℕ := fun _ => 32

/-- `EncodeAddress`. -/
def encodeAddress (address : Bytes) : Bytes := Base58.encode address

/-- `DecodeAddress`. -/
def decodeAddress (address : Bytes) : Option Bytes := Base58.decode address

section Hash

variable (calcHash : SignatureType → Bytes → Bytes)

/-- The first four bytes of the hash of the hash. -/
def checksumOf (signType : SignatureType) (data : Bytes) : Bytes :=
  (calcHash signType (calcHash signType data)).take 4

/-- The part of `GetKeyElement` that addresses and private keys share: the
signature type at `pos`, the length of the data without its `overhead`, the
checksum at the end. -/
def elementAt (keyPrefix : PrivateKeyPrefix) (pos overhead : ℕ) (length : SignatureType → ℕ)
    (buff : Bytes) : Option (PrivateKeyPrefix × SignatureType × Bytes) :=
  match SignatureType.ofByte? (buff.getD pos 0) with
  | some signType =>
      if length signType = buff.length - overhead ∧
          buff.drop (buff.length - 4) =
            checksumOf calcHash signType (buff.take (buff.length - 4)) then
        some (keyPrefix, signType, (buff.drop (pos + 1)).take (buff.length - overhead))
      else none
  | none => none

/-- `GetKeyElement` on the decoded bytes. -/
def keyElementOf (buff : Bytes) : Option (PrivateKeyPrefix × SignatureType × Bytes) :=
  if buff.length = 27 ∧ buff.getD 0 0 = 0x01 ∧ buff.getD 1 0 = 0x56 then
    elementAt calcHash .address 2 7 addressLength buff
  else if buff.length = 41 ∧ buff.getD 0 0 = 0xDA ∧ buff.getD 1 0 = 0x37 ∧
      buff.getD 2 0 = 0x9F then
    elementAt calcHash .privatekey 3 9 privateKeyLength buff
  else none

/-- `GetKeyElement`. -/
def getKeyElement (encodeKey : Bytes) : Option (PrivateKeyPrefix × SignatureType × Bytes) :=
  (decodeAddress encodeKey).bind (keyElementOf calcHash)

/-- `PublicKey::IsAddressValid`. -/
def isAddressValid (encodeAddress : Bytes) : Bool :=
  match getKeyElement calcHash encodeAddress with
  | some (keyPrefix, _, _) => keyPrefix == .address
  | none => false

/-- `PublicKey::GetEncAddress` of a key of the given type. -/
def getEncAddress (type : SignatureType) (rawPubKey : Bytes) : Bytes :=
  let strResult := [0x01, 0x56, type.toByte] ++ (calcHash type rawPubKey).drop 12
  encodeAddress (strResult ++ checksumOf calcHash type strResult)

/-! ## Accepted strings -/

variable {calcHash}

/-- Whether a string is accepted depends on its decoded bytes alone. -/
theorem isAddressValid_congr {a b : Bytes} (hdecode : decodeAddress b = decodeAddress a)
    (ha : isAddressValid calcHash a = true) : isAddressValid calcHash b = true := by
  unfold isAddressValid getKeyElement at *
  rwa [hdecode]

theorem elementAt_fst {keyPrefix : PrivateKeyPrefix} {pos overhead : ℕ}
    {length : SignatureType → ℕ} {buff : Bytes}
    {element : PrivateKeyPrefix × SignatureType × Bytes}
    (helement : elementAt calcHash keyPrefix pos overhead length buff = some element) :
    element.1 = keyPrefix := by
  unfold elementAt at helement
  split at helement
  · split_ifs at helement
    rw [← Option.some.inj helement]
  · cases helement

/-- An accepted string decodes to 27 bytes that start with the address prefix. -/
theorem decodeAddress_of_valid {a : Bytes} (ha : isAddressValid calcHash a = true) :
    ∃ tail : Bytes, tail.length = 25 ∧ decodeAddress a = some (0x01 :: 0x56 :: tail) := by
  unfold isAddressValid at ha
  cases helement : getKeyElement calcHash a with
  | none => simp [helement] at ha
  | some element =>
      have haddress : element.1 = .address := by
        rw [helement] at ha
        exact eq_of_beq ha
      obtain ⟨buff, hdecode, hbuff⟩ := Option.bind_eq_some_iff.mp helement
      rw [hdecode]
      unfold keyElementOf at hbuff
      split_ifs at hbuff with hprefix hprivate
      · obtain ⟨hlength, hfirst, hsecond⟩ := hprefix
        match buff, hlength, hfirst, hsecond with
        | first :: second :: tail, hlength, hfirst, hsecond =>
            refine ⟨tail, by simpa using hlength, ?_⟩
            rw [show first = 0x01 from hfirst, show second = 0x56 from hsecond]
      · -- a private key is not an address
        rw [elementAt_fst hbuff] at haddress
        cases haddress

/-! ## Spellings of one address -/

/-- `'Q'`, the character of the digit 23. -/
def charQ : UInt8 := 81

/-- The number an accepted string stands for has the address prefix as its
leading bytes. -/
theorem ofBytes_range {tail : Bytes} (hlength : tail.length = 25) :
    0x0156 * 256 ^ 25 ≤ ofBytes (0x01 :: 0x56 :: tail) ∧
      ofBytes (0x01 :: 0x56 :: tail) < 0x0157 * 256 ^ 25 := by
  have htail : Nat.ofDigits 256 (tail.reverse.map UInt8.toNat) < 256 ^ 25 := by
    have := Nat.ofDigits_lt_base_pow_length (b := 256) (l := tail.reverse.map UInt8.toNat)
      (by norm_num) (by
        intro d hd
        obtain ⟨c, _, rfl⟩ := List.mem_map.mp hd
        exact c.toNat_lt)
    simpa [hlength] using this
  have hvalue : ofBytes (0x01 :: 0x56 :: tail) =
      Nat.ofDigits 256 (tail.reverse.map UInt8.toNat) + 256 ^ 25 * 0x0156 := by
    simp [ofBytes, Nat.ofDigits_append, hlength, Nat.ofDigits_cons]
  rw [hvalue]
  omega

/-- The digits of an accepted string and the number they stand for. -/
theorem digits_of_valid {a : Bytes} (ha : isAddressValid calcHash a = true) :
    ∃ digits, digitsOf a = some digits ∧ digits.head? ≠ some 0 ∧
      decodeAddress a = some (bytesOf (Nat.ofDigits 58 digits.reverse)) ∧
      0x0156 * 256 ^ 25 ≤ Nat.ofDigits 58 digits.reverse ∧
      Nat.ofDigits 58 digits.reverse < 0x0157 * 256 ^ 25 := by
  obtain ⟨tail, hlength, hdecode⟩ := decodeAddress_of_valid ha
  obtain ⟨digits, hdigits, hhead⟩ := digitsOf_of_decode hdecode (by simp)
  have heq := decode_eq hdigits hhead
  have hbytes : bytesOf (Nat.ofDigits 58 digits.reverse) = 0x01 :: 0x56 :: tail :=
    Option.some.inj (heq.symm.trans hdecode)
  have hvalue : Nat.ofDigits 58 digits.reverse = ofBytes (0x01 :: 0x56 :: tail) := by
    rw [← hbytes, ofBytes_bytesOf]
  refine ⟨digits, hdigits, hhead, heq, ?_⟩
  rw [hvalue]
  exact ofBytes_range hlength

/-- An accepted string has 36 characters. -/
theorem length_of_valid {a : Bytes} (ha : isAddressValid calcHash a = true) : a.length = 36 := by
  obtain ⟨digits, hdigits, hhead, -, hle, hlt⟩ := digits_of_valid ha
  have hforall := digitsOf_eq_some_iff.mp hdigits
  rw [hforall.length_eq]
  have hupper : Nat.ofDigits 58 digits.reverse + 5 ≤ 5 * 58 ^ digits.length := by
    have hbound : Nat.ofDigits 58 digits.reverse + 5 ≤ 5 * 58 ^ digits.reverse.length := by
      refine Radix.ofDigits_add_le fun d hd => ?_
      rcases digit_range hforall (List.mem_reverse.mp hd) with hd | rfl <;> omega
    rwa [List.length_reverse] at hbound
  have hlower : 58 ^ (digits.length - 1) ≤ Nat.ofDigits 58 digits.reverse := by
    cases digits with
    | nil => simp at hle
    | cons d ds =>
        have hd : 0 < d := Nat.pos_of_ne_zero fun hd => hhead (by simp [hd])
        rw [List.reverse_cons, Nat.ofDigits_append, List.length_reverse, Nat.ofDigits_singleton]
        calc 58 ^ ((d :: ds).length - 1) = 58 ^ ds.length * 1 := by simp
          _ ≤ 58 ^ ds.length * d := Nat.mul_le_mul_left _ hd
          _ ≤ _ := Nat.le_add_left ..
  -- one character less is too little, and one more is too much
  refine le_antisymm ?_ ?_
  · by_contra hlong
    have hpow : 58 ^ 36 ≤ 58 ^ (digits.length - 1) :=
      Nat.pow_le_pow_right (by norm_num) (by omega)
    omega
  · by_contra hshort
    have hpow : 58 ^ digits.length ≤ 58 ^ 35 := Nat.pow_le_pow_right (by norm_num) (by omega)
    omega

/-- Any spelling of the same number is accepted as the same account. -/
theorem valid_map_spell {a : Bytes} (ha : isAddressValid calcHash a = true)
    {digits digits' : List ℕ}
    (hdecode : decodeAddress a = some (bytesOf (Nat.ofDigits 58 digits.reverse)))
    (hrange : ∀ d ∈ digits', d < 58 ∨ d = 255) (hhead : digits'.head? ≠ some 0)
    (hvalue : Nat.ofDigits 58 digits'.reverse = Nat.ofDigits 58 digits.reverse) :
    isAddressValid calcHash (digits'.map spell) = true ∧
      decodeAddress (digits'.map spell) = decodeAddress a := by
  have hsame : decodeAddress (digits'.map spell) = decodeAddress a := by
    rw [hdecode, ← hvalue]
    exact decode_eq (digitsOf_map_spell hrange) hhead
  exact ⟨isAddressValid_congr hsame ha, hsame⟩

/-- In front of a digit 23 of an accepted string there is always enough to borrow
from: the string starts with the digits of the address prefix. -/
theorem four_le_of_split {high low : List ℕ} (hlow : ∀ d ∈ low, d < 58)
    (hle : 0x0156 * 256 ^ 25 ≤ Nat.ofDigits 58 (high ++ 23 :: low).reverse)
    (hlt : Nat.ofDigits 58 (high ++ 23 :: low).reverse < 0x0157 * 256 ^ 25) :
    4 ≤ Nat.ofDigits 58 high.reverse := by
  have hlowlt : Nat.ofDigits 58 low.reverse < 58 ^ low.length := by
    have := Nat.ofDigits_lt_base_pow_length (b := 58) (l := low.reverse) (by norm_num)
      fun d hd => hlow d (List.mem_reverse.mp hd)
    rwa [List.length_reverse] at this
  rw [List.reverse_append, List.reverse_cons, List.append_assoc, Nat.ofDigits_append,
    List.length_reverse, List.singleton_append, Nat.ofDigits_cons] at hle hlt
  by_contra hcontra
  set borrow := Nat.ofDigits 58 high.reverse
  -- with less than 4 in front the number is too small, or too large for the prefix
  rcases Nat.lt_or_ge low.length 35 with hshort | hlong
  · have hpow : 58 ^ low.length ≤ 58 ^ 34 := Nat.pow_le_pow_right (by norm_num) (by omega)
    have hnum : 198 * 58 ^ 34 < 0x0156 * 256 ^ 25 := by norm_num
    have hmul : 58 ^ low.length * (23 + 58 * borrow) ≤ 58 ^ 34 * 197 :=
      Nat.mul_le_mul hpow (by omega)
    omega
  · have hpow : 58 ^ 35 ≤ 58 ^ low.length := Nat.pow_le_pow_right (by norm_num) hlong
    have hnum : 0x0157 * 256 ^ 25 < 58 ^ 35 * 23 := by norm_num
    have hmul : 58 ^ 35 * 23 ≤ 58 ^ low.length * (23 + 58 * borrow) :=
      Nat.mul_le_mul hpow (by omega)
    omega

/-- An accepted string without a second spelling has only characters of the
dictionary: otherwise the usual numeral is another spelling. -/
theorem mem_dictionary_of_unique {a : Bytes} (ha : isAddressValid calcHash a = true)
    (hunique : ∀ b, isAddressValid calcHash b = true → decodeAddress b = decodeAddress a → b = a) :
    ∀ c ∈ a, c ∈ kBase58Dictionary := by
  obtain ⟨digits, hdigits, -, hdecode, hle, -⟩ := digits_of_valid ha
  have hpos : Nat.ofDigits 58 digits.reverse ≠ 0 := by omega
  have hproper : ∀ d ∈ (Nat.digits 58 (Nat.ofDigits 58 digits.reverse)).reverse, d < 58 :=
    fun d hd => Nat.digits_lt_base (by norm_num) (List.mem_reverse.mp hd)
  obtain ⟨hvalid, hsame⟩ := valid_map_spell ha hdecode (fun d hd => Or.inl (hproper d hd))
    (head?_reverse_digits hpos) (by rw [List.reverse_reverse, Nat.ofDigits_digits])
  rw [← hunique _ hvalid hsame]
  intro c hc
  obtain ⟨d, hd, rfl⟩ := List.mem_map.mp hc
  exact (mem_dictionary_iff (charDigit_spell (Or.inl (hproper d hd)))).mpr (hproper d hd)

/-- The character of the digit 23 has a second spelling. -/
theorem charQ_not_mem_of_unique {a : Bytes} (ha : isAddressValid calcHash a = true)
    (hunique : ∀ b, isAddressValid calcHash b = true → decodeAddress b = decodeAddress a → b = a) :
    charQ ∉ a := by
  intro hq
  have hdict := mem_dictionary_of_unique ha hunique
  obtain ⟨digits, hdigits, hhead, hdecode, hle, hlt⟩ := digits_of_valid ha
  have hforall := digitsOf_eq_some_iff.mp hdigits
  have hproper : ∀ d ∈ digits, d < 58 := by
    intro d hd
    obtain ⟨c, hc, hcd⟩ := exists_char_of_mem hforall hd
    exact (mem_dictionary_iff hcd).mp (hdict c hc)
  have hmem : 23 ∈ digits := by
    rw [eq_map_spell hforall hproper] at hq
    obtain ⟨d, hd, hspell⟩ := List.mem_map.mp hq
    have hdigit := charDigit_spell (Or.inl (hproper d hd))
    rw [hspell, show charDigit charQ = some 23 by decide] at hdigit
    rwa [Option.some.inj hdigit]
  obtain ⟨high, low, rfl⟩ := List.append_of_mem hmem
  have hlow : ∀ d ∈ low, d < 58 := fun d hd =>
    hproper d (List.mem_append_right _ (List.mem_cons_of_mem _ hd))
  have hfour := four_le_of_split hlow hle hlt
  -- borrow 4 from the digits in front and write 4 * 58 + 23 as one character
  set front := Nat.ofDigits 58 high.reverse - 4 with hfront
  have hfrontlt : ∀ d ∈ (Nat.digits 58 front).reverse, d < 58 := fun d hd =>
    Nat.digits_lt_base (by norm_num) (List.mem_reverse.mp hd)
  have hrange : ∀ d ∈ (Nat.digits 58 front).reverse ++ 255 :: low, d < 58 ∨ d = 255 := by
    intro d hd
    rcases List.mem_append.mp hd with hd | hd
    · exact Or.inl (hfrontlt d hd)
    · rcases List.mem_cons.mp hd with rfl | hd
      · exact Or.inr rfl
      · exact Or.inl (hlow d hd)
  have hhead' : ((Nat.digits 58 front).reverse ++ 255 :: low).head? ≠ some 0 := by
    rcases Nat.eq_zero_or_pos front with hzero | hpos
    · rw [hzero, Nat.digits_zero]
      simp
    · have hne : (Nat.digits 58 front).reverse ≠ [] := by
        simpa using Nat.digits_ne_nil_iff_ne_zero.mpr hpos.ne'
      rw [List.head?_append_of_ne_nil _ hne]
      exact head?_reverse_digits hpos.ne'
  have hvalue : Nat.ofDigits 58 ((Nat.digits 58 front).reverse ++ 255 :: low).reverse =
      Nat.ofDigits 58 (high ++ 23 :: low).reverse := by
    simp only [List.reverse_append, List.reverse_cons, List.reverse_reverse, List.append_assoc,
      Nat.ofDigits_append, List.singleton_append, Nat.ofDigits_cons, Nat.ofDigits_digits]
    congr 2
    omega
  obtain ⟨hvalid, hsame⟩ := valid_map_spell ha hdecode hrange hhead' hvalue
  have hforeign : foreignChar ∈ a := by
    rw [← hunique _ hvalid hsame]
    refine List.mem_map.mpr ⟨255, ?_, by decide⟩
    exact List.mem_append_right _ (List.mem_cons_self ..)
  exact absurd (hdict _ hforeign) (by decide)

/-- **When an account has one spelling.**  An accepted string is the only
accepted string of its account exactly when all its characters are in the
dictionary and none of them is `'Q'`. -/
theorem address_unique_iff {a : Bytes} (ha : isAddressValid calcHash a = true) :
    (∀ b, isAddressValid calcHash b = true → decodeAddress b = decodeAddress a → b = a) ↔
      (∀ c ∈ a, c ∈ kBase58Dictionary) ∧ charQ ∉ a := by
  constructor
  · intro hunique
    exact ⟨mem_dictionary_of_unique ha hunique, charQ_not_mem_of_unique ha hunique⟩
  · rintro ⟨hdict, hq⟩ b hb hsame
    obtain ⟨digits, hdigits, hhead, hdecode, -⟩ := digits_of_valid ha
    obtain ⟨digits', hdigits', hhead', hdecode', -⟩ := digits_of_valid hb
    have hforall := digitsOf_eq_some_iff.mp hdigits
    have hforall' := digitsOf_eq_some_iff.mp hdigits'
    have hproper : ∀ d ∈ digits, d < 58 ∧ d ≠ 23 := by
      intro d hd
      obtain ⟨c, hc, hcd⟩ := exists_char_of_mem hforall hd
      have hlt : d < 58 := (mem_dictionary_iff hcd).mp (hdict c hc)
      refine ⟨hlt, ?_⟩
      rintro rfl
      exact hq (by rwa [show charQ = c from (eq_spell_of_charDigit hcd hlt).symm])
    have hvalue : Nat.ofDigits 58 digits.reverse = Nat.ofDigits 58 digits'.reverse := by
      rw [hdecode, hdecode'] at hsame
      have := congrArg ofBytes (Option.some.inj hsame)
      rwa [ofBytes_bytesOf, ofBytes_bytesOf, eq_comm] at this
    -- the digits of `a` leave no choice: 255 is congruent only to 23
    have hreverse : digits.reverse = digits'.reverse := by
      refine Radix.eq_of_ofDigits_eq (by norm_num) ?_ (getLast_reverse_ne_zero hhead)
        (getLast_reverse_ne_zero hhead') hvalue
      intro d hd e he hmod
      have hd' := hproper d (List.mem_reverse.mp hd)
      rcases digit_range hforall' (List.mem_reverse.mp he) with he | rfl <;> omega
    have heq : digits = digits' := List.reverse_injective hreverse
    subst heq
    rw [eq_map_spell hforall fun d hd => (hproper d hd).1,
      eq_map_spell hforall' fun d hd => (hproper d hd).1]

end Hash

/-! ## Two accounts on paper -/

/-- A hash that gives every key the checksum `14 CC 22 2A`. -/
def constantHash : SignatureType → Bytes → Bytes :=
  fun _ _ => [20, 204, 34, 42] ++ List.replicate 28 0

/-- "buRDR4vKCpkokC7yqu5mHRFnbWGGKh9dtgeM", the address of an SM2 key, has no
other spelling. -/
theorem buR_address_unique :
    ∃ a : Bytes, isAddressValid constantHash a = true ∧
      ∀ b, isAddressValid constantHash b = true → decodeAddress b = decodeAddress a → b = a := by
  refine ⟨[
    98, 117, 82, 68, 82, 52, 118, 75, 67, 112, 107, 111, 107, 67, 55, 121, 113, 117,
    53, 109, 72, 82, 70, 110, 98, 87, 71, 71, 75, 104, 57, 100, 116, 103, 101, 77],
    by decide +kernel, ?_⟩
  exact (address_unique_iff (by decide +kernel)).mpr (by decide +kernel)

/-- "buQad8k3k4MSFpexMyjb3MpeNKHNPrdPoA3B" and "bQ0ad8k3k4MSFpexMyjb3MpeNKHNPrdPoA3B"
are both accepted and are the same account. -/
theorem buQ_address_has_two_spellings :
    ∃ a b : Bytes, isAddressValid constantHash a = true ∧ isAddressValid constantHash b = true ∧
      decodeAddress a = decodeAddress b ∧ a ≠ b := by
  refine ⟨[
    98, 117, 81, 97, 100, 56, 107, 51, 107, 52, 77, 83, 70, 112, 101, 120, 77, 121,
    106, 98, 51, 77, 112, 101, 78, 75, 72, 78, 80, 114, 100, 80, 111, 65, 51, 66], [
    98, 81, 48, 97, 100, 56, 107, 51, 107, 52, 77, 83, 70, 112, 101, 120, 77, 121,
    106, 98, 51, 77, 112, 101, 78, 75, 72, 78, 80, 114, 100, 80, 111, 65, 51, 66], ?_⟩
  decide +kernel

end CegChain
