import CegChain.Lib.Doubles
import CegChain.Utils.Strings

/-!
# Amounts as JSON

Contracts keep an amount as a decimal string.  Where a number is handed to an `Utils.int64`
function instead, the host takes it as it is printed, which is with the fewest digits that are
read back as the number, and zeros behind them (`Number.print`).  So a number of 2^53 and more
may become another one; below, it does not (`print_of_lt`).

`JSON.parse` makes a string of a text in quotes, and of bare digits the nearest double.
-/

namespace CegChain.Dpos

open String64 Doubles

/-! ## Printing -/

namespace Number

/-- The multiples of `10 ^ j` below and above a number, the nearer one first; of two that are
equally near, the one whose last digit is even. -/
def neighbours (n j : ℕ) : List ℕ :=
  let low := n / 10 ^ j
  let rest := n % 10 ^ j
  if 2 * rest < 10 ^ j ∨ 2 * rest = 10 ^ j ∧ low % 2 = 0 then [low * 10 ^ j, (low + 1) * 10 ^ j]
  else [(low + 1) * 10 ^ j, low * 10 ^ j]

/-- What is read back as the number and ends with the most zeros, `zeros` of them at most. -/
def shortest (n : ℕ) : ℕ → ℕ
  | 0 => n
  | zeros + 1 =>
      ((neighbours n (zeros + 1)).find? fun m : ℕ => toDouble m = n).getD (shortest n zeros)

/-- The integer that a number is printed as, if it is an integer below 10^21. -/
def print (n : ℤ) : ℤ :=
  n.sign * shortest n.natAbs 20

/-- What an `Utils.int64` function takes a number for, if it is an integer. -/
def int? (q : ℚ) : Option ℤ :=
  if q.den = 1 then some (print q.num) else none

/-- 2^56 is printed with a zero at its end. -/
example : print (2 ^ 56) = 72057594037927940 := by decide +kernel

theorem shortest_of_lt {n : ℕ} (hn : n < 2 ^ 53) (zeros : ℕ) : shortest n zeros = n := by
  induction zeros with
  | zero => rfl
  | succ zeros ih =>
      rw [shortest, ih]
      cases hfind : (neighbours n (zeros + 1)).find? fun m : ℕ => toDouble m = n with
      | none => rfl
      | some m => exact eq_of_toDouble_eq hn (by simpa using List.find?_some hfind)

/-- A number below 2^53 is printed with its digits. -/
theorem print_of_lt {n : ℤ} (hn : n.natAbs < 2 ^ 53) : print n = n := by
  rw [print, shortest_of_lt hn, Int.sign_mul_natAbs]

theorem int?_of_lt {n : ℤ} (hn : n.natAbs < 2 ^ 53) : int? n = some n := by
  rw [int?, if_pos (Rat.den_intCast n), Rat.num_intCast, print_of_lt hn]

end Number

/-! ## JSON -/

/-- What `JSON.parse` gives for the texts that are stored. -/
inductive Json where
  | number (n : ℚ)
  | string (utf8 : Bytes)

/-- The value of a sign and digits. -/
def signedNumber : Bytes → ℤ
  | 45 :: digits => -leadingNumber digits
  | digits => leadingNumber digits

/-- The integer that a text is, if it is one. -/
def integer? (text : Bytes) : Option ℤ :=
  if toBytes (signedNumber text) = text then some (signedNumber text) else none

/-- `JSON.parse` of an integer, or of a string without escapes. -/
def jsonParse (text : Bytes) : Option Json :=
  match text with
  | 34 :: rest =>
      if rest.getLast? = some 34 ∧ rest.dropLast.all (fun c => c ≠ 34 ∧ c ≠ 92) then
        some (.string rest.dropLast)
      else none
  | text => (integer? text).map fun n => .number (toDouble n)

/-- The value is the amount. -/
def Json.Denotes (n : ℤ) : Json → Prop
  | .number q => q = n
  | .string utf8 => utf8 = toBytes n

/-- The amount as an `Utils.int64` function takes it. -/
def Json.amount : Json → Option ℤ
  | .number q => Number.int? q
  | .string utf8 => integer? utf8

theorem signedNumber_of_ne {c : UInt8} {rest : Bytes} (hc : c ≠ 45) :
    signedNumber (c :: rest) = leadingNumber (c :: rest) := by
  unfold signedNumber
  split
  · rename_i heq
    exact absurd (List.cons.inj heq).1 hc
  · rfl

theorem signedNumber_toBytes (n : ℤ) : signedNumber (toBytes n) = n := by
  by_cases hneg : n < 0
  · rw [toBytes, if_pos hneg]
    change -(leadingNumber (decimal n.natAbs) : ℤ) = n
    rw [leadingNumber_decimal]
    omega
  · obtain ⟨c, rest, hdecimal, hc, -⟩ := exists_decimal_eq_cons n.natAbs
    have hsign : c ≠ 45 := by
      rintro rfl
      exact absurd hc (by decide)
    rw [toBytes, if_neg hneg, hdecimal, signedNumber_of_ne hsign, ← hdecimal,
      leadingNumber_decimal]
    omega

theorem integer_toBytes (n : ℤ) : integer? (toBytes n) = some n := by
  rw [integer?, signedNumber_toBytes, if_pos rfl]

theorem mem_toBytes {n : ℤ} {c : UInt8} (hc : c ∈ toBytes n) : c ≠ 34 ∧ c ≠ 92 := by
  have hdigit : ∀ {c : UInt8}, c ∈ decimal n.natAbs → c ≠ 34 ∧ c ≠ 92 := by
    intro c hc
    obtain ⟨hlow, hhigh⟩ := isDigit_of_mem_decimal hc
    constructor <;> rintro rfl
    · exact absurd hlow (by decide)
    · exact absurd hhigh (by decide)
  unfold toBytes at hc
  split_ifs at hc
  · rcases List.mem_cons.mp hc with rfl | hmem
    · decide
    · exact hdigit hmem
  · exact hdigit hc

theorem jsonParse_digits (n : ℤ) : jsonParse (toBytes n) = some (.number (toDouble n)) := by
  unfold jsonParse
  split
  · rename_i rest heq
    have hquote : (34 : UInt8) ∈ toBytes n := by
      rw [heq]
      exact List.mem_cons_self
    exact absurd rfl (mem_toBytes hquote).1
  · rw [integer_toBytes]
    rfl

theorem jsonParse_quoted (n : ℤ) :
    jsonParse (34 :: (toBytes n ++ [34])) = some (.string (toBytes n)) := by
  have hall : ∀ c ∈ toBytes n, ¬ c = 34 ∧ ¬ c = 92 := fun c hc => mem_toBytes hc
  simpa [jsonParse] using hall

end CegChain.Dpos
