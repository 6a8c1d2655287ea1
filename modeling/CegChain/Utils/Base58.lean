import CegChain.Lib.Radix

/-!
# `utils::Base58`

The encoder and the decoder of `utils/crypto.cpp`, over byte strings.  Both run
the conversion loop of `Radix.convert` in a scratch buffer.  The source walks
its buffer from the back, so the buffer is kept here with the least significant
digit first.

The decoder reads the value of a character from `kBase58digits`, which marks the
characters outside the dictionary with `-1`.  The entry is cast to
`unsigned char` and never compared with that mark, so a foreign character simply
counts as the digit 255 (`charDigit`).  The table has 128 entries; for a character
above 127 the source reads outside of it, and `decode` has no result.

The size of the decoder's buffer is computed in floating point as
`left_size * log2(58.0) / 8 + 2`.  The integer part of `n * log2(58) / 8` is the
integer logarithm of `58 ^ n` to the base 256.
-/

namespace CegChain

/-- A `std::string`: a sequence of bytes. -/
abbrev Bytes := List UInt8

instance : LawfulBEq Bytes := inferInstance

namespace Base58

open Radix

/-- `kBase58Dictionary`, "123456789AbCDEFGHJKLMNPQRSTuVWXYZaBcdefghijkmnopqrstUvwxyz". -/
def kBase58Dictionary : Bytes :=
  [
    49, 50, 51, 52, 53, 54, 55, 56, 57, 65, 98, 67, 68, 69, 70, 71,
    72, 74, 75, 76, 77, 78, 80, 81, 82, 83, 84, 117, 86, 87, 88, 89,
    90, 97, 66, 99, 100, 101, 102, 103, 104, 105, 106, 107, 109, 110, 111, 112,
    113, 114, 115, 116, 85, 118, 119, 120, 121, 122]

/-- `kBase58digits`. -/
def kBase58digits : List ℤ :=
  [ -1, -1, -1, -1, -1, -1, -1, -1, -1, -1, -1, -1, -1, -1, -1, -1,
    -1, -1, -1, -1, -1, -1, -1, -1, -1, -1, -1, -1, -1, -1, -1, -1,
    -1, -1, -1, -1, -1, -1, -1, -1, -1, -1, -1, -1, -1, -1, -1, -1,
    -1, 0, 1, 2, 3, 4, 5, 6, 7, 8, -1, -1, -1, -1, -1, -1,
    -1, 9, 34, 11, 12, 13, 14, 15, 16, -1, 17, 18, 19, 20, 21, -1,
    22, 23, 24, 25, 26, 52, 28, 29, 30, 31, 32, -1, -1, -1, -1, -1,
    -1, 33, 10, 35, 36, 37, 38, 39, 40, 41, 42, 43, -1, 44, 45, 46,
    47, 48, 49, 50, 51, 27, 53, 54, 55, 56, 57, -1, -1, -1, -1, -1]

/-- `(unsigned char)kBase58digits[c]`, undefined outside of the table. -/
def charDigit (c : UInt8) : Option ℕ :=
  (kBase58digits[c.toNat]?).map fun d => (d % 256).toNat

/-- `kBase58Dictionary[d]`. -/
def digitChar (d : ℕ) : UInt8 :=
  kBase58Dictionary.getD d 0

/-- `Base58::Encode`. -/
def encode (strIn : Bytes) : Bytes :=
  let zeros := (strIn.takeWhile (· == 0)).length
  -- the source restarts at the last leading zero, which adds nothing
  let firstNoZero := zeros - 1
  let b58 := convert 58 256 (strIn.length * 138 / 100 + 1)
    ((strIn.drop firstNoZero).map UInt8.toNat)
  List.replicate zeros 49 ++ (b58.reverse.dropWhile (· == 0)).map digitChar

/-- `Base58::Decode`. -/
def decode (strIn : Bytes) : Option Bytes :=
  let nZeros := (strIn.takeWhile (· == 49)).length
  let leftSize := strIn.length - nZeros
  let newSize := Nat.log 256 (58 ^ leftSize) + 2
  ((strIn.drop nZeros).mapM charDigit).map fun digits =>
    let tmpStr := convert 256 58 newSize digits
    List.replicate nZeros 0 ++ (tmpStr.reverse.dropWhile (· == 0)).map UInt8.ofNat

/-! ## The two tables -/

/-- The character `'0'`, which is not in the dictionary. -/
def foreignChar : UInt8 := 48

/-- A character that is read as the digit `d`: the dictionary's for a proper
digit, and a foreign one for 255. -/
def spell (d : ℕ) : UInt8 :=
  if d < 58 then digitChar d else foreignChar

/-- Both tables, character by character: a character counts as a proper digit or
as 255, and the proper digits are those of the dictionary's characters, one
character for each digit. -/
theorem charDigit_table : ∀ i : Fin 256, ∀ d ∈ charDigit (UInt8.ofFin i),
    (d < 58 ∨ d = 255) ∧ (d < 58 → UInt8.ofFin i = spell d) ∧
      (UInt8.ofFin i ∈ kBase58Dictionary ↔ d < 58) ∧ (UInt8.ofFin i = 49 ↔ d = 0) := by
  decide +kernel

section Character

variable {c : UInt8} {d : ℕ}

theorem charDigit_range (hc : charDigit c = some d) : d < 58 ∨ d = 255 :=
  (charDigit_table c.toFin d hc).1

theorem eq_spell_of_charDigit (hc : charDigit c = some d) (hd : d < 58) : c = spell d :=
  (charDigit_table c.toFin d hc).2.1 hd

theorem mem_dictionary_iff (hc : charDigit c = some d) : c ∈ kBase58Dictionary ↔ d < 58 :=
  (charDigit_table c.toFin d hc).2.2.1

theorem eq_one_iff (hc : charDigit c = some d) : c = 49 ↔ d = 0 :=
  (charDigit_table c.toFin d hc).2.2.2

theorem charDigit_spell (hd : d < 58 ∨ d = 255) : charDigit (spell d) = some d := by
  rcases hd with hd | rfl
  · have htable : ∀ i : Fin 58, charDigit (spell i) = some i.val := by decide
    exact htable ⟨d, hd⟩
  · decide

end Character

/-! ## What the decoder computes -/

/-- The big-endian bytes of a number, without leading zeros. -/
def bytesOf (n : ℕ) : Bytes :=
  (Nat.digits 256 n).reverse.map UInt8.ofNat

/-- The number that big-endian bytes stand for. -/
def ofBytes (x : Bytes) : ℕ :=
  Nat.ofDigits 256 (x.reverse.map UInt8.toNat)

theorem ofBytes_bytesOf (n : ℕ) : ofBytes (bytesOf n) = n := by
  have hmap : (Nat.digits 256 n).map (UInt8.toNat ∘ UInt8.ofNat) = Nat.digits 256 n := by
    conv_rhs => rw [← List.map_id (Nat.digits 256 n)]
    refine List.map_congr_left fun d hd => ?_
    exact UInt8.toNat_ofNat_of_lt' (Nat.digits_lt_base (by norm_num) hd)
  rw [ofBytes, bytesOf, ← List.map_reverse, List.reverse_reverse, List.map_map, hmap,
    Nat.ofDigits_digits]

/-- The digits of a string, most significant first, one for each character. -/
def digitsOf (strIn : Bytes) : Option (List ℕ) :=
  strIn.mapM charDigit

theorem digitsOf_eq_some_iff {strIn : Bytes} {digits : List ℕ} :
    digitsOf strIn = some digits ↔ List.Forall₂ (fun c d => charDigit c = some d) strIn digits := by
  unfold digitsOf
  induction strIn generalizing digits with
  | nil => simp [eq_comm]
  | cons c cs ih =>
      cases digits with
      | nil => simp [Option.bind_eq_some_iff]
      | cons d ds =>
          rw [List.forall₂_cons, ← ih]
          simp [Option.bind_eq_some_iff]

/-- Every digit is the digit of a character. -/
theorem exists_char_of_mem {strIn : Bytes} {digits : List ℕ}
    (hforall : List.Forall₂ (fun c d => charDigit c = some d) strIn digits) {d : ℕ}
    (hd : d ∈ digits) : ∃ c ∈ strIn, charDigit c = some d := by
  induction hforall with
  | nil => simp at hd
  | cons hc _ ih =>
      rcases List.mem_cons.mp hd with rfl | hd
      · exact ⟨_, List.mem_cons_self .., hc⟩
      · obtain ⟨c, hmem, hc'⟩ := ih hd
        exact ⟨c, List.mem_cons_of_mem _ hmem, hc'⟩

theorem digit_range {strIn : Bytes} {digits : List ℕ}
    (hforall : List.Forall₂ (fun c d => charDigit c = some d) strIn digits) {d : ℕ}
    (hd : d ∈ digits) : d < 58 ∨ d = 255 := by
  obtain ⟨_, _, hc⟩ := exists_char_of_mem hforall hd
  exact charDigit_range hc

/-- The buffer of the decoder can hold any numeral, foreign digits included. -/
theorem ofDigits_lt_capacity {digits : List ℕ} (hdigits : ∀ d ∈ digits, d < 58 ∨ d = 255) :
    Nat.ofDigits 58 digits.reverse < 256 ^ (Nat.log 256 (58 ^ digits.length) + 2) := by
  have hbound : Nat.ofDigits 58 digits.reverse + 5 ≤ 5 * 58 ^ digits.reverse.length :=
    ofDigits_add_le fun d hd => by
      rcases hdigits d (List.mem_reverse.mp hd) with hd | hd <;> omega
  rw [List.length_reverse] at hbound
  have hlog : 58 ^ digits.length < 256 ^ (Nat.log 256 (58 ^ digits.length) + 1) :=
    Nat.lt_pow_succ_log_self (by norm_num) _
  rw [pow_succ]
  omega

/-- **The decoder.**  For a string that does not start with `'1'` the result is
the number its digits stand for. -/
theorem decode_eq {strIn : Bytes} {digits : List ℕ} (hdigits : digitsOf strIn = some digits)
    (hhead : digits.head? ≠ some 0) :
    decode strIn = some (bytesOf (Nat.ofDigits 58 digits.reverse)) := by
  have hforall := digitsOf_eq_some_iff.mp hdigits
  have hzeros : strIn.takeWhile (· == 49) = [] := by
    cases hforall with
    | nil => rfl
    | cons hc _ =>
        have hne : ¬ _ = (49 : UInt8) := fun h => hhead (by
          rw [List.head?_cons, (eq_one_iff hc).mp h])
        simp [hne]
  have hcapacity := ofDigits_lt_capacity fun d => digit_range hforall
  rw [← hforall.length_eq] at hcapacity
  unfold decode
  rw [hzeros]
  simp only [List.length_nil, List.drop_zero, Nat.sub_zero, List.replicate_zero, List.nil_append]
  rw [show strIn.mapM charDigit = some digits from hdigits, Option.map_some,
    reverse_dropWhile_eq_digits (by norm_num) fun d hd => lt_of_mem_convert (by norm_num) hd,
    ofDigits_convert_of_lt hcapacity]
  rfl

/-- A string whose decoding does not start with a zero byte does not start with
`'1'`, and has only characters below 128. -/
theorem digitsOf_of_decode {strIn x : Bytes} (hdecode : decode strIn = some x)
    (hx : x.head? ≠ some 0) :
    ∃ digits, digitsOf strIn = some digits ∧ digits.head? ≠ some 0 := by
  unfold decode at hdecode
  obtain ⟨digits, hdigits, rfl⟩ := Option.map_eq_some_iff.mp hdecode
  have hzeros : (strIn.takeWhile (· == 49)).length = 0 := by
    by_contra hne
    obtain ⟨n, hn⟩ := Nat.exists_eq_succ_of_ne_zero hne
    rw [hn, List.replicate_succ] at hx
    exact hx rfl
  rw [hzeros, List.drop_zero] at hdigits
  refine ⟨digits, hdigits, fun hhead => ?_⟩
  -- a leading digit 0 is the character '1', which the decoder would have skipped
  cases digitsOf_eq_some_iff.mp hdigits with
  | nil => simp at hhead
  | cons hc _ =>
      rw [List.head?_cons, Option.some.injEq] at hhead
      rw [(eq_one_iff hc).mpr hhead] at hzeros
      simp at hzeros

/-! ## Spelling digits -/

theorem digitsOf_map_spell {digits : List ℕ} (hdigits : ∀ d ∈ digits, d < 58 ∨ d = 255) :
    digitsOf (digits.map spell) = some digits := by
  rw [digitsOf_eq_some_iff]
  induction digits with
  | nil => exact List.Forall₂.nil
  | cons d ds ih =>
      exact List.Forall₂.cons (charDigit_spell (hdigits d (List.mem_cons_self ..)))
        (ih fun e he => hdigits e (List.mem_cons_of_mem _ he))

/-- A string over the dictionary is the spelling of its digits. -/
theorem eq_map_spell {strIn : Bytes} {digits : List ℕ}
    (hforall : List.Forall₂ (fun c d => charDigit c = some d) strIn digits)
    (hproper : ∀ d ∈ digits, d < 58) : strIn = digits.map spell := by
  induction hforall with
  | nil => rfl
  | cons hc _ ih =>
      rw [List.map_cons, ← eq_spell_of_charDigit hc (hproper _ (List.mem_cons_self ..)),
        ← ih fun e he => hproper e (List.mem_cons_of_mem _ he)]

/-- The last digit of the reversed numeral is its head. -/
theorem getLast_reverse_ne_zero {digits : List ℕ} (hhead : digits.head? ≠ some 0)
    (hne : digits.reverse ≠ []) : digits.reverse.getLast hne ≠ 0 := by
  intro hzero
  rw [List.getLast_reverse] at hzero
  rw [List.head?_eq_some_head (by simpa using hne), hzero] at hhead
  exact hhead rfl

/-- The usual numeral of a positive number has no leading zero. -/
theorem head?_reverse_digits {n : ℕ} (hn : n ≠ 0) :
    (Nat.digits 58 n).reverse.head? ≠ some 0 := by
  have hne : Nat.digits 58 n ≠ [] := Nat.digits_ne_nil_iff_ne_zero.mpr hn
  rw [List.head?_reverse, List.getLast?_eq_getLast_of_ne_nil hne]
  exact fun h => Nat.getLast_digit_ne_zero 58 hn (Option.some.inj h)

/-! ## The encoder -/

/-- The buffer of the encoder can hold the number: 138 digits to the base 58 for 100 bytes. -/
theorem pow_lt_capacity (length : ℕ) : 256 ^ length < 58 ^ (length * 138 / 100 + 1) := by
  have hhundred : 256 ^ 100 ≤ 58 ^ 138 := by norm_num
  have hpow : (256 ^ length) ^ 100 < (58 ^ (length * 138 / 100 + 1)) ^ 100 :=
    calc (256 ^ length) ^ 100 = (256 ^ 100) ^ length := by rw [← pow_mul, ← pow_mul, mul_comm]
      _ ≤ (58 ^ 138) ^ length := Nat.pow_le_pow_left hhundred length
      _ = 58 ^ (length * 138) := by rw [← pow_mul, mul_comm]
      _ < 58 ^ ((length * 138 / 100 + 1) * 100) :=
        Nat.pow_lt_pow_right (by norm_num) (by omega)
      _ = (58 ^ (length * 138 / 100 + 1)) ^ 100 := pow_mul ..
  exact lt_of_pow_lt_pow_left₀ 100 (Nat.zero_le _) hpow

theorem ofBytes_lt (x : Bytes) : ofBytes x < 256 ^ x.length := by
  have hlt : Nat.ofDigits 256 (x.reverse.map UInt8.toNat) <
      256 ^ (x.reverse.map UInt8.toNat).length := by
    apply Nat.ofDigits_lt_base_pow_length (by norm_num)
    intro d hd
    obtain ⟨c, -, rfl⟩ := List.mem_map.mp hd
    exact c.toNat_lt
  simpa [ofBytes] using hlt

/-- Leading zeros do not count. -/
theorem ofBytes_replicate_append (zeros : ℕ) (x : Bytes) :
    ofBytes (List.replicate zeros 0 ++ x) = ofBytes x := by
  have hzeros : Nat.ofDigits 256 ((List.replicate zeros (0 : UInt8)).map UInt8.toNat) = 0 := by
    rw [List.map_replicate]
    exact Nat.ofDigits_replicate_zero
  rw [ofBytes, ofBytes, List.reverse_append, List.map_append, Nat.ofDigits_append,
    List.reverse_replicate, hzeros, mul_zero, add_zero]

/-- Bytes without a leading zero are those of their number. -/
theorem bytesOf_ofBytes {x : Bytes} (hhead : x.head? ≠ some 0) : bytesOf (ofBytes x) = x := by
  have hlt : ∀ d ∈ x.reverse.map UInt8.toNat, d < 256 := by
    intro d hd
    obtain ⟨c, -, rfl⟩ := List.mem_map.mp hd
    exact c.toNat_lt
  have hlast : ∀ h : x.reverse.map UInt8.toNat ≠ [],
      (x.reverse.map UInt8.toNat).getLast h ≠ 0 := by
    intro h hzero
    apply hhead
    have hne : x ≠ [] := by
      rintro rfl
      exact h rfl
    rw [List.getLast_map, List.getLast_reverse] at hzero
    rw [List.head?_eq_some_head hne]
    exact congrArg some (UInt8.toNat_inj.mp hzero)
  have hmap : x.map (UInt8.ofNat ∘ UInt8.toNat) = x := by
    conv_rhs => rw [← List.map_id x]
    exact List.map_congr_left fun c _ => UInt8.ofNat_toNat
  rw [bytesOf, ofBytes, Nat.digits_ofDigits 256 (by norm_num) _ hlt hlast, ← List.map_reverse,
    List.reverse_reverse, List.map_map, hmap]

/-- What a string starts with as often as it can, and the rest of it. -/
theorem leading_append (a : UInt8) (s : Bytes) :
    ∃ rest : Bytes, s = List.replicate (s.takeWhile (· == a)).length a ++ rest ∧
      rest = s.drop (s.takeWhile (· == a)).length ∧ rest.head? ≠ some a := by
  have hsplit := List.takeWhile_append_dropWhile (p := (· == a)) (l := s)
  refine ⟨s.dropWhile (· == a), ?_, ?_, ?_⟩
  · conv_lhs => rw [← hsplit]
    congr 1
    apply List.eq_replicate_of_mem
    intro c hc
    simpa using List.mem_takeWhile_imp hc
  · calc s.dropWhile (· == a)
        = (s.takeWhile (· == a) ++ s.dropWhile (· == a)).drop
            (s.takeWhile (· == a)).length := by rw [List.drop_left]
      _ = s.drop (s.takeWhile (· == a)).length := by rw [hsplit]
  · intro hhead
    have hnot := List.head?_dropWhile_not (· == a) s
    rw [hhead] at hnot
    simp at hnot

/-- **The encoder.**  Each leading zero is a `'1'`, and the rest is the numeral of its
number to the base 58. -/
theorem encode_replicate_append (zeros : ℕ) {rest : Bytes} (hhead : rest.head? ≠ some 0) :
    encode (List.replicate zeros 0 ++ rest) =
      List.replicate zeros 49 ++ (Nat.digits 58 (ofBytes rest)).reverse.map digitChar := by
  have hzeros : ((List.replicate zeros (0 : UInt8) ++ rest).takeWhile (· == 0)).length =
      zeros := by
    rw [List.takeWhile_append_of_pos (by simp)]
    have hrest : rest.takeWhile (· == 0) = [] := by
      cases rest with
      | nil => rfl
      | cons c rest => simpa using hhead
    simp [hrest]
  have hdrop : (List.replicate zeros (0 : UInt8) ++ rest).drop (zeros - 1) =
      List.replicate (min zeros 1) 0 ++ rest := by
    rw [List.drop_append_of_le_length (by simp), List.drop_replicate]
    congr 2
    omega
  have hvalue : Nat.ofDigits 256
      ((List.replicate (min zeros 1) (0 : UInt8) ++ rest).map UInt8.toNat).reverse =
        ofBytes rest := by
    rw [← List.map_reverse]
    exact ofBytes_replicate_append (min zeros 1) rest
  have hcapacity : Nat.ofDigits 256
      ((List.replicate (min zeros 1) (0 : UInt8) ++ rest).map UInt8.toNat).reverse <
        58 ^ ((List.replicate zeros (0 : UInt8) ++ rest).length * 138 / 100 + 1) := by
    rw [hvalue]
    calc ofBytes rest < 256 ^ rest.length := ofBytes_lt rest
      _ ≤ 256 ^ (List.replicate zeros (0 : UInt8) ++ rest).length :=
        Nat.pow_le_pow_right (by norm_num) (by simp)
      _ < 58 ^ ((List.replicate zeros (0 : UInt8) ++ rest).length * 138 / 100 + 1) :=
        pow_lt_capacity _
  unfold encode
  dsimp only
  rw [hzeros, hdrop, reverse_dropWhile_eq_digits (by norm_num)
    fun d hd => lt_of_mem_convert (by norm_num) hd, ofDigits_convert_of_lt hcapacity, hvalue]

/-! ## Round trip -/

/-- A `'1'` in front is a zero in front. -/
theorem decode_replicate_append (zeros : ℕ) {s : Bytes} (hhead : s.head? ≠ some 49) :
    decode (List.replicate zeros 49 ++ s) =
      (decode s).map (List.replicate zeros 0 ++ ·) := by
  have hs : s.takeWhile (· == 49) = [] := by
    cases s with
    | nil => rfl
    | cons c s => simpa using hhead
  have hzeros : ((List.replicate zeros (49 : UInt8) ++ s).takeWhile (· == 49)).length =
      zeros := by
    rw [List.takeWhile_append_of_pos (by simp)]
    simp [hs]
  have hdrop : (List.replicate zeros (49 : UInt8) ++ s).drop zeros = s :=
    List.drop_left' (by simp)
  have hlength : (List.replicate zeros (49 : UInt8) ++ s).length - zeros = s.length := by
    simp
  unfold decode
  rw [hzeros, hs]
  dsimp only
  rw [hdrop, hlength, Option.map_map]
  simp [Function.comp_def]

/-- **Encoding and decoding.**  Every string is decoded to what was encoded, its leading
zeros with it. -/
@[simp] theorem decode_encode (x : Bytes) : decode (encode x) = some x := by
  obtain ⟨rest, hx, -, hhead⟩ := leading_append 0 x
  have hdigits : ∀ d ∈ (Nat.digits 58 (ofBytes rest)).reverse, d < 58 := fun d hd =>
    Nat.digits_lt_base (by norm_num) (List.mem_reverse.mp hd)
  have hspell : (Nat.digits 58 (ofBytes rest)).reverse.map digitChar =
      (Nat.digits 58 (ofBytes rest)).reverse.map spell :=
    List.map_congr_left fun d hd => (if_pos (hdigits d hd)).symm
  have hdigitsOf := digitsOf_map_spell fun d hd => Or.inl (hdigits d hd)
  have hfirst : (Nat.digits 58 (ofBytes rest)).reverse.head? ≠ some 0 := by
    by_cases hzero : ofBytes rest = 0
    · simp [hzero]
    · exact head?_reverse_digits hzero
  -- the first character is not '1'
  have hone : ((Nat.digits 58 (ofBytes rest)).reverse.map spell).head? ≠ some 49 := by
    intro hhead
    rw [List.head?_map] at hhead
    obtain ⟨d, hd, hchar⟩ := Option.map_eq_some_iff.mp hhead
    have hlt := hdigits d (List.mem_of_mem_head? hd)
    have hzero : d = 0 := (eq_one_iff (charDigit_spell (.inl hlt))).mp hchar
    exact hfirst (hzero ▸ hd)
  have hrest : decode ((Nat.digits 58 (ofBytes rest)).reverse.map spell) = some rest := by
    rw [decode_eq hdigitsOf hfirst, List.reverse_reverse, Nat.ofDigits_digits,
      bytesOf_ofBytes hhead]
  rw [hx, encode_replicate_append _ hhead, hspell, decode_replicate_append _ hone, hrest]
  rfl

/-! ## The other way round -/

/-- No pass of the encoder's loop carries out of its buffer. -/
def EncodesWhole (strIn : Bytes) : Prop :=
  NoCarryLost 58 256 (strIn.length * 138 / 100 + 1)
    ((strIn.drop ((strIn.takeWhile (· == 0)).length - 1)).map UInt8.toNat)

/-- No pass of the decoder's loop carries out of its buffer, nor would it were the buffer
a byte shorter, as a rounded `log2(58.0)` may make it. -/
def DecodesWhole (strIn : Bytes) : Prop :=
  ∀ digits, (strIn.drop (strIn.takeWhile (· == 49)).length).mapM charDigit = some digits →
    ∀ newSize, Nat.log 256 (58 ^ (strIn.length - (strIn.takeWhile (· == 49)).length)) + 1 ≤
      newSize → NoCarryLost 256 58 newSize digits

theorem digitChar_mem {d : ℕ} (hd : d < 58) : digitChar d ∈ kBase58Dictionary := by
  have htable : ∀ i : Fin 58, digitChar i ∈ kBase58Dictionary := by decide
  exact htable ⟨d, hd⟩

/-- The characters of the dictionary are those that count as proper digits. -/
theorem exists_charDigit : ∀ c ∈ kBase58Dictionary, ∃ d < 58, charDigit c = some d := by
  decide +kernel

theorem exists_digitsOf {strIn : Bytes} (hstrIn : ∀ c ∈ strIn, c ∈ kBase58Dictionary) :
    ∃ digits, digitsOf strIn = some digits ∧ ∀ d ∈ digits, d < 58 := by
  induction strIn with
  | nil => exact ⟨[], rfl, by simp⟩
  | cons c cs ih =>
      obtain ⟨ds, hds, hproper⟩ := ih fun e he => hstrIn e (List.mem_cons_of_mem _ he)
      obtain ⟨d, hd, hc⟩ := exists_charDigit c (hstrIn c (List.mem_cons_self ..))
      refine ⟨d :: ds, ?_, List.forall_mem_cons.mpr ⟨hd, hproper⟩⟩
      exact digitsOf_eq_some_iff.mpr (List.Forall₂.cons hc (digitsOf_eq_some_iff.mp hds))

/-- The numeral of a positive number starts with a byte that is not zero. -/
theorem head?_bytesOf (n : ℕ) : (bytesOf n).head? ≠ some 0 := by
  intro hhead
  rw [bytesOf, List.head?_map, List.head?_reverse] at hhead
  obtain ⟨d, hd, hbyte⟩ := Option.map_eq_some_iff.mp hhead
  have hlt : d < 256 := Nat.digits_lt_base (by norm_num) (List.mem_of_mem_getLast? hd)
  have hn : n ≠ 0 := by
    rintro rfl
    simp at hd
  have hlast := Nat.getLast_digit_ne_zero 256 hn
  rw [List.getLast?_eq_getLast_of_ne_nil (Nat.digits_ne_nil_iff_ne_zero.mpr hn)] at hd
  rw [Option.some.inj hd] at hlast
  have hzero := congrArg UInt8.toNat hbyte
  rw [UInt8.toNat_ofNat_of_lt' hlt] at hzero
  exact hlast hzero

/-- A string over the dictionary that does not start with `'1'` is the numeral of what it
is decoded to. -/
theorem encode_decode_of_head {s : Bytes} {digits : List ℕ} (hdigits : digitsOf s = some digits)
    (hproper : ∀ d ∈ digits, d < 58) (hhead : s.head? ≠ some 49) :
    decode s = some (bytesOf (Nat.ofDigits 58 digits.reverse)) ∧
      (Nat.digits 58 (Nat.ofDigits 58 digits.reverse)).reverse.map digitChar = s := by
  have hforall := digitsOf_eq_some_iff.mp hdigits
  have hfirst : digits.head? ≠ some 0 := by
    cases hforall with
    | nil => simp
    | cons hc _ =>
        intro hzero
        apply hhead
        rw [List.head?_cons, Option.some.injEq] at hzero ⊢
        exact (eq_one_iff hc).mpr hzero
  refine ⟨decode_eq hdigits hfirst, ?_⟩
  have hlt : ∀ d ∈ digits.reverse, d < 58 := fun d hd => hproper d (List.mem_reverse.mp hd)
  rw [Nat.digits_ofDigits 58 (by norm_num) _ hlt fun h => getLast_reverse_ne_zero hfirst h,
    List.reverse_reverse, eq_map_spell hforall hproper]
  exact List.map_congr_left fun d hd => (if_pos (hproper d hd)).symm

/-- The encoder's characters are those of the dictionary. -/
theorem mem_dictionary_of_encode {x : Bytes} : ∀ c ∈ encode x, c ∈ kBase58Dictionary := by
  obtain ⟨rest, hx, -, hhead⟩ := leading_append 0 x
  intro c hc
  rw [hx, encode_replicate_append _ hhead] at hc
  rcases List.mem_append.mp hc with hone | hdigit
  · rw [List.eq_of_mem_replicate hone]
    decide
  · obtain ⟨d, hd, rfl⟩ := List.mem_map.mp hdigit
    exact digitChar_mem (Nat.digits_lt_base (by norm_num) (List.mem_reverse.mp hd))

theorem encodesWhole (x : Bytes) : EncodesWhole x := by
  refine noCarryLost_of_lt (by norm_num) ?_
  rw [← List.map_reverse]
  calc ofBytes (x.drop ((x.takeWhile (· == 0)).length - 1))
      < 256 ^ (x.drop ((x.takeWhile (· == 0)).length - 1)).length := ofBytes_lt _
    _ ≤ 256 ^ x.length := Nat.pow_le_pow_right (by norm_num) (by simp)
    _ < 58 ^ (x.length * 138 / 100 + 1) := pow_lt_capacity _

theorem decodesWhole {s : Bytes} (hs : ∀ c ∈ s, c ∈ kBase58Dictionary) : DecodesWhole s := by
  intro digits hdigits newSize hsize
  have hforall := digitsOf_eq_some_iff.mp hdigits
  have hproper : ∀ d ∈ digits, d < 58 := by
    intro d hd
    obtain ⟨c, hc, hcd⟩ := exists_char_of_mem hforall hd
    exact (mem_dictionary_iff hcd).mp (hs c (List.mem_of_mem_drop hc))
  have hlength : digits.length = s.length - (s.takeWhile (· == 49)).length := by
    rw [← hforall.length_eq, List.length_drop]
  refine noCarryLost_of_lt (by norm_num) ?_
  calc Nat.ofDigits 58 digits.reverse
      < 58 ^ digits.reverse.length :=
        Nat.ofDigits_lt_base_pow_length (by norm_num) fun d hd => hproper d (List.mem_reverse.mp hd)
    _ = 58 ^ digits.length := by rw [List.length_reverse]
    _ < 256 ^ (Nat.log 256 (58 ^ digits.length) + 1) :=
        Nat.lt_pow_succ_log_self (by norm_num) _
    _ ≤ 256 ^ newSize := Nat.pow_le_pow_right (by norm_num) (by rw [hlength]; exact hsize)

/-- **The two are inverse to each other.**  A byte string is encoded over the dictionary
and decoded to itself, a string over the dictionary is decoded to one that is encoded to
it, and no carry is lost in either loop. -/
theorem base58_bijective (x s : Bytes) (hs : ∀ c ∈ s, c ∈ kBase58Dictionary) :
    ((∀ c ∈ encode x, c ∈ kBase58Dictionary) ∧ decode (encode x) = some x ∧ EncodesWhole x) ∧
      (∃ y, decode s = some y ∧ encode y = s) ∧ DecodesWhole s := by
  refine ⟨⟨mem_dictionary_of_encode, decode_encode x, encodesWhole x⟩, ?_, decodesWhole hs⟩
  obtain ⟨rest, hsplit, hdrop, hhead⟩ := leading_append 49 s
  have hrest : ∀ c ∈ rest, c ∈ kBase58Dictionary := fun c hc =>
    hs c (List.mem_of_mem_drop (hdrop ▸ hc))
  obtain ⟨digits, hdigits, hproper⟩ := exists_digitsOf hrest
  obtain ⟨hdecode, hspelled⟩ := encode_decode_of_head hdigits hproper hhead
  refine ⟨List.replicate (s.takeWhile (· == 49)).length 0 ++
    bytesOf (Nat.ofDigits 58 digits.reverse), ?_, ?_⟩
  · calc decode s
        = decode (List.replicate (s.takeWhile (· == 49)).length 49 ++ rest) := by rw [← hsplit]
      _ = (decode rest).map (List.replicate (s.takeWhile (· == 49)).length 0 ++ ·) :=
          decode_replicate_append _ hhead
      _ = some (List.replicate (s.takeWhile (· == 49)).length 0 ++
            bytesOf (Nat.ofDigits 58 digits.reverse)) := by rw [hdecode, Option.map_some]
  · rw [encode_replicate_append _ (head?_bytesOf _), ofBytes_bytesOf, hspelled, ← hsplit]

/-- The empty string and "11". -/
theorem base58_bijective_ones :
    ((∀ c ∈ encode [], c ∈ kBase58Dictionary) ∧ decode (encode []) = some [] ∧
        EncodesWhole []) ∧
      (∃ y, decode [49, 49] = some y ∧ encode y = [49, 49]) ∧ DecodesWhole [49, 49] := by
  refine base58_bijective [] [49, 49] fun c hc => ?_
  obtain rfl : c = 49 := by simpa using hc
  exact List.mem_cons_self

end Base58

end CegChain
