import Mathlib.Data.List.Basic
import Mathlib.Tactic.Ring

/-!
# The wire format

Numbers are written seven bits to a byte, strings with their length before them, and a
field that is empty is left out.  Each reader gives back what its writer wrote and
leaves the bytes that follow.
-/

namespace CegChain.Protobuf

/-- A number, the low bits first.  The high bit of a byte says that more follow. -/
def varint (n : ℕ) : List UInt8 :=
  if n < 128 then [UInt8.ofNat n] else UInt8.ofNat (n % 128 + 128) :: varint (n / 128)

theorem length_varint_of_lt {n : ℕ} (hn : n < 128) : (varint n).length = 1 := by
  rw [varint, if_pos hn, List.length_singleton]

theorem length_varint_of_le {n : ℕ} (hn : 128 ≤ n) :
    (varint n).length = (varint (n / 128)).length + 1 := by
  rw [varint, if_neg (not_lt.mpr hn), List.length_cons]

/-- The number at the beginning of a string, and what is behind it. -/
def readVarint : List UInt8 → Option (ℕ × List UInt8)
  | [] => none
  | b :: rest =>
      if b.toNat < 128 then some (b.toNat, rest)
      else (readVarint rest).map fun r => (b.toNat - 128 + 128 * r.1, r.2)

theorem readVarint_varint (n : ℕ) (rest : List UInt8) :
    readVarint (varint n ++ rest) = some (n, rest) := by
  induction n using Nat.strong_induction_on with
  | _ n ih =>
      rw [varint]
      by_cases hn : n < 128
      · have hbyte : (UInt8.ofNat n).toNat = n := by
          rw [UInt8.toNat_ofNat']
          omega
        rw [if_pos hn, List.singleton_append, readVarint, hbyte, if_pos hn]
      · have hbyte : (UInt8.ofNat (n % 128 + 128)).toNat = n % 128 + 128 := by
          rw [UInt8.toNat_ofNat']
          omega
        rw [if_neg hn, List.cons_append, readVarint, hbyte, if_neg (by omega),
          ih (n / 128) (by omega), Option.map_some, Option.some.injEq, Prod.mk.injEq]
        exact ⟨by omega, rfl⟩

/-- A string with its length before it. -/
def delimited (bytes : List UInt8) : List UInt8 :=
  varint bytes.length ++ bytes

/-- The string at the beginning, and what is behind it. -/
def readDelimited (bytes : List UInt8) : Option (List UInt8 × List UInt8) :=
  (readVarint bytes).map fun r => (r.2.take r.1, r.2.drop r.1)

theorem readDelimited_delimited (bytes rest : List UInt8) :
    readDelimited (delimited bytes ++ rest) = some (bytes, rest) := by
  rw [readDelimited, delimited, List.append_assoc, readVarint_varint, Option.map_some,
    List.take_left, List.drop_left]

/-- A field of strings, left out when it is empty. -/
def bytesField (tag : UInt8) (bytes : List UInt8) : List UInt8 :=
  if bytes = [] then [] else tag :: delimited bytes

/-- The field at the beginning, and what is behind it. -/
def readBytesField (tag : UInt8) : List UInt8 → Option (List UInt8 × List UInt8)
  | [] => some ([], [])
  | b :: rest => if b = tag then readDelimited rest else some ([], b :: rest)

theorem readBytesField_bytesField {tag : UInt8} {rest : List UInt8}
    (hrest : ∀ b ∈ rest.head?, b ≠ tag) (bytes : List UInt8) :
    readBytesField tag (bytesField tag bytes ++ rest) = some (bytes, rest) := by
  rw [bytesField]
  by_cases hbytes : bytes = []
  · rw [if_pos hbytes, hbytes, List.nil_append]
    cases rest with
    | nil => rfl
    | cons b rest => rw [readBytesField, if_neg (hrest b rfl)]
  · rw [if_neg hbytes, List.cons_append, readBytesField, if_pos rfl, readDelimited_delimited]

/-- The field does not begin with another tag. -/
theorem head?_bytesField {tag tag' : UInt8} {rest : List UInt8} (hne : tag ≠ tag')
    (hrest : ∀ b ∈ rest.head?, b ≠ tag') (bytes : List UInt8) :
    ∀ b ∈ (bytesField tag bytes ++ rest).head?, b ≠ tag' := by
  intro b hb
  rw [bytesField] at hb
  by_cases hbytes : bytes = []
  · rw [if_pos hbytes] at hb
    exact hrest b hb
  · rw [if_neg hbytes] at hb
    cases hb
    exact hne

/-- A field of numbers, left out when it is zero. -/
def numberField (tag : UInt8) (n : ℕ) : List UInt8 :=
  if n = 0 then [] else tag :: varint n

/-- The number at the beginning, and what is behind it. -/
def readNumberField (tag : UInt8) : List UInt8 → Option (ℕ × List UInt8)
  | [] => some (0, [])
  | b :: rest => if b = tag then readVarint rest else some (0, b :: rest)

theorem readNumberField_numberField {tag : UInt8} {rest : List UInt8}
    (hrest : ∀ b ∈ rest.head?, b ≠ tag) (n : ℕ) :
    readNumberField tag (numberField tag n ++ rest) = some (n, rest) := by
  rw [numberField]
  by_cases hn : n = 0
  · rw [if_pos hn, hn, List.nil_append]
    cases rest with
    | nil => rfl
    | cons b rest => rw [readNumberField, if_neg (hrest b rfl)]
  · rw [if_neg hn, List.cons_append, readNumberField, if_pos rfl, readVarint_varint]

/-- The field does not begin with another tag. -/
theorem head?_numberField {tag tag' : UInt8} {rest : List UInt8} (hne : tag ≠ tag')
    (hrest : ∀ b ∈ rest.head?, b ≠ tag') (n : ℕ) :
    ∀ b ∈ (numberField tag n ++ rest).head?, b ≠ tag' := by
  intro b hb
  rw [numberField] at hb
  by_cases hn : n = 0
  · rw [if_pos hn] at hb
    exact hrest b hb
  · rw [if_neg hn] at hb
    cases hb
    exact hne

/-- The elements of a repeated field. -/
def repeated (tag : UInt8) (elements : List (List UInt8)) : List UInt8 :=
  elements.flatMap fun bytes => tag :: delimited bytes

/-- The first `n` elements of a repeated field. -/
def readRepeated : ℕ → List UInt8 → Option (List (List UInt8))
  | 0, _ => some []
  | _ + 1, [] => some []
  | n + 1, _ :: rest => do
      let (bytes, rest) ← readDelimited rest
      let elements ← readRepeated n rest
      some (bytes :: elements)

/-- All elements are read back when there is an attempt for each. -/
theorem readRepeated_repeated_of_le (tag : UInt8) {elements : List (List UInt8)} {n : ℕ}
    (hn : elements.length ≤ n) : readRepeated n (repeated tag elements) = some elements := by
  induction elements generalizing n with
  | nil => cases n <;> rfl
  | cons bytes elements ih =>
      obtain ⟨n, rfl⟩ := Nat.exists_eq_succ_of_ne_zero (show n ≠ 0 by
        rintro rfl
        cases hn)
      rw [repeated, List.flatMap_cons, List.cons_append, readRepeated,
        readDelimited_delimited, Option.bind_eq_bind, Option.bind_some]
      exact congrArg (Option.bind · fun elements => some (bytes :: elements))
        (ih (Nat.le_of_succ_le_succ hn))

theorem readRepeated_repeated (tag : UInt8) (elements : List (List UInt8)) :
    readRepeated elements.length (repeated tag elements) = some elements :=
  readRepeated_repeated_of_le tag le_rfl

/-- Every element takes a byte at least. -/
theorem length_le_length_repeated (tag : UInt8) (elements : List (List UInt8)) :
    elements.length ≤ (repeated tag elements).length := by
  induction elements with
  | nil => exact Nat.zero_le _
  | cons bytes elements ih =>
      rw [repeated, List.flatMap_cons, List.length_append, List.length_cons, List.length_cons]
      exact Nat.succ_le_of_lt (by
        calc elements.length
            ≤ (repeated tag elements).length := ih
          _ < (delimited bytes).length + 1 + (repeated tag elements).length :=
            Nat.lt_add_of_pos_left (Nat.succ_pos _))

end CegChain.Protobuf
