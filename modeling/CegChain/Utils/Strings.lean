import CegChain.Utils.Base58
import Mathlib.Data.Nat.Digits.Lemmas

/-!
# Strings

The parts of `utils/strings.h` that the checks of operations use.  `Stoi64` is
`atoll`; `SafeStoi64` accepts a string only when it is what `ToString` prints for
the number read from it.  At the end the hexadecimal strings in which messages are
stored, and the strings of contracts, of which the host sees what is before the first zero
character.
-/

namespace CegChain

namespace String64

/-- `isspace`. -/
def isSpace (c : UInt8) : Bool :=
  c = 32 || (9 ≤ c && c ≤ 13)

/-- `String::Trim`. -/
def trim (str : Bytes) : Bytes :=
  ((str.dropWhile isSpace).reverse.dropWhile isSpace).reverse

/-- The value of the leading decimal digits. -/
def leadingNumber (str : Bytes) : ℕ :=
  (str.takeWhile fun c => 48 ≤ c && c ≤ 57).foldl (fun n c => 10 * n + (c.toNat - 48)) 0

/-- `String::Stoi64`: blanks, a sign and digits, brought into the range of an
`int64_t`. -/
def stoi64 (str : Bytes) : ℤ :=
  let value : ℤ :=
    match str.dropWhile isSpace with
    | 45 :: digits => -leadingNumber digits
    | 43 :: digits => leadingNumber digits
    | digits => leadingNumber digits
  max (-2 ^ 63) (min value (2 ^ 63 - 1))

/-- The decimal digits of a number. -/
def decimal (n : ℕ) : Bytes :=
  if n = 0 then [48] else (Nat.digits 10 n).reverse.map fun d => UInt8.ofNat (48 + d)

/-- `String::ToString` of an `int64_t`. -/
def toBytes (n : ℤ) : Bytes :=
  if n < 0 then 45 :: decimal n.natAbs else decimal n.natAbs

/-- `String::SafeStoi64`. -/
def safeStoi64 (str : Bytes) : Option ℤ :=
  if str.length > 20 then none
  else if toBytes (stoi64 str) = str then some (stoi64 str) else none

/-! ## Numbers that have been printed -/

theorem toBytes_natCast (n : ℕ) : toBytes (n : ℤ) = decimal n := by
  rw [toBytes, if_neg (by omega), Int.natAbs_natCast]

theorem toNat_digit {d : ℕ} (hd : d < 10) : (UInt8.ofNat (48 + d)).toNat = 48 + d := by
  rw [UInt8.toNat_ofNat']
  omega

theorem isDigit_of_mem_decimal {n : ℕ} {c : UInt8} (hc : c ∈ decimal n) :
    48 ≤ c.toNat ∧ c.toNat ≤ 57 := by
  unfold decimal at hc
  split_ifs at hc with hzero
  · rw [List.mem_singleton.mp hc]
    decide
  · obtain ⟨d, hd, rfl⟩ := List.mem_map.mp hc
    have hlt := Nat.digits_lt_base (by norm_num) (List.mem_reverse.mp hd)
    rw [toNat_digit hlt]
    omega

/-- Reading the digits from the left is adding them up from the right. -/
theorem foldr_digits (digits : List ℕ) (hdigits : ∀ d ∈ digits, d < 10) :
    digits.foldr (fun d n => 10 * n + ((UInt8.ofNat (48 + d)).toNat - 48)) 0 =
      Nat.ofDigits 10 digits := by
  induction digits with
  | nil => rfl
  | cons d digits ih =>
      rw [List.foldr_cons, ih fun d' hd' => hdigits d' (List.mem_cons_of_mem d hd'),
        toNat_digit (hdigits d List.mem_cons_self), Nat.ofDigits_cons]
      omega

theorem leadingNumber_decimal (n : ℕ) : leadingNumber (decimal n) = n := by
  have htake : (decimal n).takeWhile (fun c => 48 ≤ c && c ≤ 57) = decimal n := by
    refine List.takeWhile_eq_self_iff.mpr fun c hc => ?_
    obtain ⟨hlow, hhigh⟩ := isDigit_of_mem_decimal hc
    simp only [Bool.and_eq_true, decide_eq_true_eq, UInt8.le_iff_toNat_le]
    exact ⟨hlow, hhigh⟩
  rw [leadingNumber, htake, decimal]
  split_ifs with hzero
  · rw [hzero]
    rfl
  · rw [List.foldl_map, List.foldl_reverse, foldr_digits _ fun d hd =>
      Nat.digits_lt_base (by norm_num) hd, Nat.ofDigits_digits]

theorem exists_decimal_eq_cons (n : ℕ) :
    ∃ c rest, decimal n = c :: rest ∧ 48 ≤ c.toNat ∧ c.toNat ≤ 57 := by
  cases hdecimal : decimal n with
  | nil =>
      unfold decimal at hdecimal
      split_ifs at hdecimal with hzero
      rw [List.map_eq_nil_iff, List.reverse_eq_nil_iff] at hdecimal
      exact absurd hdecimal (Nat.digits_ne_nil_iff_ne_zero.mpr hzero)
  | cons c rest => exact ⟨c, rest, rfl, isDigit_of_mem_decimal (hdecimal ▸ List.mem_cons_self)⟩

theorem stoi64_toBytes {n : ℤ} (hlow : -2 ^ 63 ≤ n) (hhigh : n < 2 ^ 63) :
    stoi64 (toBytes n) = n := by
  by_cases hneg : n < 0
  · simp only [stoi64, toBytes, hneg, if_true]
    rw [List.dropWhile_cons_of_neg (by decide)]
    simp only [leadingNumber_decimal]
    omega
  · obtain ⟨c, rest, hdecimal, hc, hc'⟩ := exists_decimal_eq_cons n.natAbs
    have hspace : ¬ isSpace c = true := by
      simp only [isSpace, Bool.or_eq_true, Bool.and_eq_true, decide_eq_true_eq,
        UInt8.le_iff_toNat_le, ← UInt8.toNat_inj]
      simp
      omega
    have hnumber := leadingNumber_decimal n.natAbs
    simp only [stoi64, toBytes, hneg, if_false]
    rw [hdecimal] at hnumber ⊢
    rw [List.dropWhile_cons_of_neg hspace]
    split
    · rename_i heq
      obtain ⟨rfl, -⟩ := List.cons.inj heq
      exact absurd hc (by decide)
    · rename_i heq
      obtain ⟨rfl, -⟩ := List.cons.inj heq
      exact absurd hc (by decide)
    · rw [hnumber]
      omega

theorem length_toBytes {n : ℤ} (hlow : -2 ^ 63 ≤ n) (hhigh : n < 2 ^ 63) :
    (toBytes n).length ≤ 20 := by
  have hdecimal : (decimal n.natAbs).length ≤ 19 := by
    unfold decimal
    split_ifs with hzero
    · decide
    · rw [List.length_map, List.length_reverse, Nat.digits_length_le_iff (by norm_num)]
      omega
  unfold toBytes
  split_ifs
  · rw [List.length_cons]
    omega
  · omega

/-- `SafeStoi64` reads what `ToString` has printed. -/
theorem safeStoi64_toBytes {n : ℤ} (hlow : -2 ^ 63 ≤ n) (hhigh : n < 2 ^ 63) :
    safeStoi64 (toBytes n) = some n := by
  rw [safeStoi64, if_neg (not_lt.mpr (length_toBytes hlow hhigh)), stoi64_toBytes hlow hhigh,
    if_pos rfl]

/-- A string is accepted exactly when it is a printed number that fits. -/
theorem safeStoi64_eq_some_iff {str : Bytes} {n : ℤ} :
    safeStoi64 str = some n ↔ str = toBytes n ∧ -2 ^ 63 ≤ n ∧ n < 2 ^ 63 := by
  constructor
  · intro hstr
    unfold safeStoi64 at hstr
    split_ifs at hstr with _ hprinted
    obtain rfl := Option.some.inj hstr
    have hrange : -2 ^ 63 ≤ stoi64 str ∧ stoi64 str < 2 ^ 63 := by
      simp only [stoi64, le_max_iff, max_lt_iff, min_lt_iff]
      exact ⟨.inl le_rfl, by norm_num, .inr (by norm_num)⟩
    exact ⟨hprinted.symm, hrange⟩
  · rintro ⟨rfl, hlow, hhigh⟩
    exact safeStoi64_toBytes hlow hhigh

/-- What is printed is a sign and digits. -/
theorem zero_not_mem_toBytes (n : ℤ) : 0 ∉ toBytes n := by
  have hdecimal : 0 ∉ decimal n.natAbs := fun hmem =>
    absurd (isDigit_of_mem_decimal hmem).1 (by decide)
  unfold toBytes
  split_ifs
  · simpa using hdecimal
  · exact hdecimal

end String64

namespace HexString

/-- The digit for half a byte. -/
def digit (half : UInt8) : UInt8 :=
  if half ≤ 9 then half + 48 else half - 10 + 97

/-- `String::BinToHexString`. -/
def binToHexString (value : Bytes) : Bytes :=
  value.flatMap fun item : UInt8 => [digit (item >>> 4), digit (item &&& 0x0F)]

/-- The value of a digit. -/
def half? (c : UInt8) : Option UInt8 :=
  if 48 ≤ c ∧ c ≤ 57 then some (c - 48)
  else if 97 ≤ c ∧ c ≤ 102 then some (c - 97 + 10)
  else if 65 ≤ c ∧ c ≤ 70 then some (c - 65 + 10)
  else none

/-- The loop of `HexStringToBin`, which gives up at the first other character. -/
def pairs : Bytes → Option Bytes
  | high :: low :: rest =>
      (half? high).bind fun high => (half? low).bind fun low =>
        (pairs rest).map fun bytes => ((high <<< 4) + low) :: bytes
  | _ => some []

/-- `String::HexStringToBin`. -/
def hexStringToBin (hexString : Bytes) : Bytes :=
  if hexString.length % 2 ≠ 0 ∨ hexString = [] then [] else (pairs hexString).getD []

theorem half?_digits (item : UInt8) :
    half? (digit (item >>> 4)) = some (item >>> 4) ∧
      half? (digit (item &&& 0x0F)) = some (item &&& 0x0F) ∧
      ((item >>> 4) <<< 4) + (item &&& 0x0F) = item := by
  have hall : ∀ n < 256, let item := UInt8.ofNat n
      half? (digit (item >>> 4)) = some (item >>> 4) ∧
        half? (digit (item &&& 0x0F)) = some (item &&& 0x0F) ∧
        ((item >>> 4) <<< 4) + (item &&& 0x0F) = item := by decide +kernel
  have hitem := hall item.toNat item.toNat_lt
  rwa [UInt8.ofNat_toNat] at hitem

theorem pairs_binToHexString (value : Bytes) : pairs (binToHexString value) = some value := by
  induction value with
  | nil => rfl
  | cons item value ih =>
      obtain ⟨hhigh, hlow, hitem⟩ := half?_digits item
      show pairs (digit (item >>> 4) :: digit (item &&& 0x0F) :: binToHexString value) = _
      rw [pairs, hhigh, hlow, ih, Option.bind_some, Option.bind_some, Option.map_some, hitem]

theorem length_binToHexString (value : Bytes) :
    (binToHexString value).length = 2 * value.length := by
  induction value with
  | nil => rfl
  | cons item value ih =>
      show (binToHexString value).length + 1 + 1 = 2 * (value.length + 1)
      omega

/-- Hexadecimal strings read back as what was written. -/
@[simp] theorem hexStringToBin_binToHexString (value : Bytes) :
    hexStringToBin (binToHexString value) = value := by
  unfold hexStringToBin
  split_ifs with hcase
  · rcases hcase with hodd | hempty
    · rw [length_binToHexString] at hodd
      omega
    · have hlength := length_binToHexString value
      rw [hempty, List.length_nil] at hlength
      exact (List.length_eq_zero_iff.mp (by omega)).symm
  · rw [pairs_binToHexString, Option.getD_some]

end HexString

/-! ## C strings -/

/-- A string of a contract as the host takes it: `std::string(ToCString(..))`. -/
def toCString (s : Bytes) : Bytes :=
  s.takeWhile (· ≠ 0)

theorem zero_not_mem_toCString (s : Bytes) : 0 ∉ toCString s := by
  intro hmem
  simpa using List.mem_takeWhile_imp hmem

theorem toCString_append {s : Bytes} (hs : 0 ∉ s) (t : Bytes) :
    toCString (s ++ t) = s ++ toCString t := by
  refine List.takeWhile_append_of_pos fun c hc => ?_
  simpa using ne_of_mem_of_not_mem hc hs

theorem toCString_of_not_mem {s : Bytes} (hs : 0 ∉ s) : toCString s = s := by
  simpa [toCString] using toCString_append hs []

end CegChain
