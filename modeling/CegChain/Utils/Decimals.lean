import CegChain.Utils.Strings
import Mathlib.Data.Rat.Cast.Defs
import Mathlib.Algebra.Order.Field.Basic
import Mathlib.Tactic.FieldSimp
import Mathlib.Tactic.Ring

/-!
# Decimal numbers

`IsDecNumber`, `MultiplyDecimal` and `FormatDecimal` of `utils/strings.h`, and the host
call `toBaseUnit` that converts an amount with them.

An accepted string is digits, or digits with a dot that has at most `decimal` digits behind
it.  Multiplying moves the dot to the end, fills up with zeros and strips the zeros at the
front.  That leaves the numeral of the product (`multiplyDecimal_of_shape`), except that
zero has only zeros, and nothing is left of it.
-/

namespace CegChain

namespace String64

/-! ## The functions of the source -/

/-- `IS_DIGIT`. -/
def isDigit (c : UInt8) : Bool :=
  48 ≤ c && c ≤ 57

/-- `String::IsDecNumber`.  Its loop returns at the first character that is neither a
digit nor a dot, and at the second dot. -/
def isDecNumber (value : Bytes) (decimal : ℕ) : Bool :=
  let dotPos := value.findIdx? (· = 46)
  if value = [] then false
  else if value.getLast? = some 46 then false
  else if value.any fun c => !isDigit c && c ≠ 46 then false
  else if value.count 46 > 1 then false
  else if value.head? = some 48 ∧ dotPos ≠ some 1 ∧ value ≠ [48] then false
  else match dotPos with
    | some dotPos => value.length - dotPos - 1 ≤ decimal
    | none => true

/-- `String::MultiplyDecimal`.  A dot behind the zeros at the front keeps one of them; at
the very front the index runs below 0 there, and everything is erased. -/
def multiplyDecimal (value : Bytes) (decimals : ℕ) : Bytes :=
  let value : Bytes :=
    match value.findIdx? (· = 46) with
    | none => value ++ List.replicate decimals 48
    | some dotPos =>
        let right := value.length - dotPos - 1
        if right ≤ decimals then value.eraseIdx dotPos ++ List.replicate (decimals - right) 48
        else (value.eraseIdx dotPos).insertIdx (dotPos + decimals) 46
  let i : ℕ := (value.takeWhile (· = 48)).length
  if value[i]? = some 46 then if i = 0 then [] else value.drop (i - 1)
  else value.drop i

/-- The loop of `FormatDecimal`, over the digits from the last one on. -/
def formatLoop (decimal : ℕ) : ℕ → Bool → Bytes → Bytes → Bytes
  | _, _, resultDecimal, [] => resultDecimal
  | i, zeroNotShow, resultDecimal, c :: rest =>
      let zeroNotShow := if c ≠ 48 then false else zeroNotShow
      let resultDecimal :=
        if i < decimal then
          if c ≠ 48 ∨ zeroNotShow = false then resultDecimal ++ [c] else resultDecimal
        else if i = decimal then
          (if resultDecimal.length > 0 then resultDecimal ++ [46] else resultDecimal) ++ [c]
        else resultDecimal ++ [c]
      formatLoop decimal (i + 1) zeroNotShow resultDecimal rest

/-- `String::FormatDecimal`. -/
def formatDecimal (number : ℤ) (decimal : ℕ) : Bytes :=
  let result := toBytes number
  let result :=
    if decimal ≥ result.length then
      List.replicate (decimal - result.length + 1) 48 ++ result
    else result
  (formatLoop decimal 0 true [] result.reverse).reverse

end String64

namespace V8Contract

/-- `CEG_DECIMALS`. -/
def cegDecimals : ℕ := 8

/-- An argument of a host call. -/
inductive Argument where
  | string (value : Bytes)
  | other

/-- `V8Contract::CallBackToBaseUnit`; without a result it throws. -/
def callBackToBaseUnit : List Argument → Option Bytes
  | [.string arg0] =>
      if String64.isDecNumber arg0 cegDecimals = false then none
      else
        let multiResult := String64.multiplyDecimal arg0 cegDecimals
        match String64.safeStoi64 multiResult with
        | some _ => some multiResult
        | none => none
  | _ => none

end V8Contract

namespace String64

/-! ## Numerals -/

/-- The number that digits stand for. -/
def valueOf (digits : Bytes) : ℕ :=
  digits.foldl (fun n c => 10 * n + (c.toNat - 48)) 0

theorem foldl_valueOf (digits : Bytes) (start : ℕ) :
    digits.foldl (fun n c => 10 * n + (c.toNat - 48)) start =
      start * 10 ^ digits.length + valueOf digits := by
  induction digits generalizing start with
  | nil => simp [valueOf]
  | cons c digits ih =>
      rw [valueOf, List.foldl_cons, List.foldl_cons, ih, ih (10 * 0 + (c.toNat - 48)),
        List.length_cons, pow_succ]
      ring

theorem valueOf_append (digits digits' : Bytes) :
    valueOf (digits ++ digits') = valueOf digits * 10 ^ digits'.length + valueOf digits' := by
  rw [valueOf, List.foldl_append, foldl_valueOf]
  rfl

theorem valueOf_replicate (zeros : ℕ) : valueOf (List.replicate zeros 48) = 0 := by
  induction zeros with
  | zero => rfl
  | succ zeros ih =>
      rw [List.replicate_succ', valueOf_append, ih]
      rfl

theorem isDigit_iff {c : UInt8} : isDigit c = true ↔ 48 ≤ c.toNat ∧ c.toNat ≤ 57 := by
  simp only [isDigit, Bool.and_eq_true, decide_eq_true_eq, UInt8.le_iff_toNat_le]
  exact Iff.rfl

theorem valueOf_eq_ofDigits (digits : Bytes) :
    valueOf digits = Nat.ofDigits 10 (digits.map fun c => c.toNat - 48).reverse := by
  rw [Nat.ofDigits_eq_foldr, List.foldr_reverse, List.foldl_map]
  simp only [valueOf, Nat.cast_id, add_comm]

/-- Digits without a zero in front are the numeral of their number. -/
theorem decimal_valueOf {c : UInt8} {digits : Bytes}
    (hdigits : ∀ d ∈ c :: digits, isDigit d = true) (hc : c ≠ 48) :
    valueOf (c :: digits) ≠ 0 ∧ decimal (valueOf (c :: digits)) = c :: digits := by
  have hnum : ∀ d ∈ c :: digits, 48 ≤ d.toNat ∧ d.toNat ≤ 57 :=
    fun d hd => isDigit_iff.mp (hdigits d hd)
  have hlt : ∀ place ∈ ((c :: digits).map fun d => d.toNat - 48).reverse, place < 10 := by
    intro place hplace
    obtain ⟨d, hd, rfl⟩ := List.mem_map.mp (List.mem_reverse.mp hplace)
    have hbound := hnum d hd
    omega
  have hlast : ∀ hne : ((c :: digits).map fun d => d.toNat - 48).reverse ≠ [],
      ((c :: digits).map fun d => d.toNat - 48).reverse.getLast hne ≠ 0 := by
    intro hne
    rw [List.getLast_reverse]
    have hbound := hnum c List.mem_cons_self
    have hne48 : c.toNat ≠ 48 := fun h => hc (UInt8.toNat_inj.mp h)
    simp only [List.map_cons, List.head_cons]
    omega
  have hplaces : Nat.digits 10 (valueOf (c :: digits)) =
      ((c :: digits).map fun d => d.toNat - 48).reverse := by
    rw [valueOf_eq_ofDigits]
    exact Nat.digits_ofDigits 10 (by norm_num) _ hlt hlast
  have hne : valueOf (c :: digits) ≠ 0 := by
    intro hzero
    rw [hzero, Nat.digits_zero] at hplaces
    simp at hplaces
  refine ⟨hne, ?_⟩
  rw [decimal, if_neg hne, hplaces, List.reverse_reverse, List.map_map]
  have hsame : ∀ d ∈ c :: digits,
      ((fun d => UInt8.ofNat (48 + d)) ∘ fun d : UInt8 => d.toNat - 48) d = id d := by
    intro d hd
    have hbound := hnum d hd
    rw [Function.comp_apply, id_eq, show 48 + (d.toNat - 48) = d.toNat by omega,
      UInt8.ofNat_toNat]
  rw [List.map_congr_left hsame, List.map_id]

/-- What is left of digits without the zeros in front: nothing of zero, else the numeral. -/
theorem dropWhile_zeros {digits : Bytes} (hdigits : ∀ c ∈ digits, isDigit c = true) :
    digits.dropWhile (· = 48) =
      if valueOf digits = 0 then [] else decimal (valueOf digits) := by
  induction digits with
  | nil => rfl
  | cons c digits ih =>
      by_cases hc : c = 48
      · have hvalue : valueOf (c :: digits) = valueOf digits := by
          rw [hc]
          rfl
        rw [List.dropWhile_cons_of_pos (by simpa using hc), hvalue]
        exact ih fun d hd => hdigits d (List.mem_cons_of_mem c hd)
      · obtain ⟨hne, hdecimal⟩ := decimal_valueOf hdigits hc
        rw [List.dropWhile_cons_of_neg (by simpa using hc), if_neg hne, hdecimal]

theorem valueOf_decimal (n : ℕ) : valueOf (decimal n) = n := by
  rw [valueOf_eq_ofDigits, decimal]
  split_ifs with hzero
  · rw [hzero]
    rfl
  · have hplaces : ((Nat.digits 10 n).reverse.map fun d => UInt8.ofNat (48 + d)).map
        (fun c => c.toNat - 48) = (Nat.digits 10 n).reverse := by
      rw [List.map_map]
      refine (List.map_congr_left fun d hd => ?_).trans (List.map_id _)
      have hlt := Nat.digits_lt_base (by norm_num) (List.mem_reverse.mp hd)
      rw [Function.comp_apply, toNat_digit hlt, id_eq]
      omega
    rw [hplaces, List.reverse_reverse, Nat.ofDigits_digits]

theorem isDigit_decimal {n : ℕ} : ∀ c ∈ decimal n, isDigit c = true :=
  fun _ hc => isDigit_iff.mpr (isDigit_of_mem_decimal hc)

/-! ## Multiplication -/

/-- Somewhere there is a digit that is not 0. -/
def Nonzero (value : Bytes) : Prop :=
  ∃ c ∈ value, c ≠ 48 ∧ c ≠ 46

instance (value : Bytes) : Decidable (Nonzero value) :=
  inferInstanceAs (Decidable (∃ c ∈ value, c ≠ 48 ∧ c ≠ 46))

theorem nonzero_iff {digits : Bytes} (hdigits : ∀ c ∈ digits, isDigit c = true) :
    Nonzero digits ↔ valueOf digits ≠ 0 := by
  have hnil : digits.dropWhile (· = 48) = [] ↔ ∀ c ∈ digits, c = 48 := by
    simp [List.dropWhile_eq_nil_iff]
  have hzero : valueOf digits = 0 ↔ digits.dropWhile (· = 48) = [] := by
    rw [dropWhile_zeros hdigits]
    split_ifs with hvalue
    · exact iff_of_true hvalue rfl
    · obtain ⟨c, rest, hdecimal, -⟩ := exists_decimal_eq_cons (valueOf digits)
      rw [hdecimal]
      exact iff_of_false hvalue (List.cons_ne_nil _ _)
  rw [Ne, hzero, hnil, Nonzero]
  push Not
  refine exists_congr fun c => and_congr_right fun hc => and_iff_left ?_
  rintro rfl
  exact absurd (hdigits 46 hc) (by decide)

/-- The digits in front of the dot and behind it, as `IsDecNumber` takes them. -/
structure Shape (value whole fraction : Bytes) (decimal : ℕ) : Prop where
  digits : ∀ c ∈ whole ++ fraction, isDigit c = true
  length : fraction.length ≤ decimal
  value : value = whole ∧ fraction = [] ∨ value = whole ++ 46 :: fraction

theorem ne_dot_of_isDigit {c : UInt8} (hc : isDigit c = true) : c ≠ 46 := by
  rintro rfl
  exact absurd hc (by decide)

theorem findIdx?_dot {whole : Bytes} (hwhole : ∀ c ∈ whole, isDigit c = true) (rest : Bytes) :
    whole.findIdx? (· = 46) = none ∧
      (whole ++ 46 :: rest).findIdx? (· = 46) = some whole.length := by
  constructor
  · rw [List.findIdx?_eq_none_iff]
    exact fun c hc => decide_eq_false (ne_dot_of_isDigit (hwhole c hc))
  · rw [List.findIdx?_append, List.findIdx?_eq_none_iff.mpr fun c hc =>
      decide_eq_false (ne_dot_of_isDigit (hwhole c hc))]
    simp [List.findIdx?_cons]

/-- What is accepted has a dot among its digits, or none. -/
theorem exists_shape {value : Bytes} {decimal : ℕ} (hvalue : isDecNumber value decimal = true) :
    ∃ whole fraction, Shape value whole fraction decimal := by
  unfold isDecNumber at hvalue
  dsimp only at hvalue
  split_ifs at hvalue with hnil hlast hchars hdots hzero
  have hchar : ∀ c ∈ value, c ≠ 46 → isDigit c = true := by
    intro c hc hne
    by_contra hnot
    exact hchars (List.any_eq_true.mpr ⟨c, hc, by simp [hnot, hne]⟩)
  cases hpos : value.findIdx? (· = 46) with
  | none =>
      have hnodot := List.findIdx?_eq_none_iff.mp hpos
      refine ⟨value, [], fun c hc => ?_, Nat.zero_le _, .inl ⟨rfl, rfl⟩⟩
      rw [List.append_nil] at hc
      exact hchar c hc (of_decide_eq_false (hnodot c hc))
  | some pos =>
      obtain ⟨hlt, hdot, -⟩ := List.findIdx?_eq_some_iff_getElem.mp hpos
      have hsplit : value = value.take pos ++ 46 :: value.drop (pos + 1) := by
        rw [← of_decide_eq_true hdot, List.getElem_cons_drop, List.take_append_drop]
      -- there is one dot, so there is none on either side of it
      have hcount : (value.take pos).count 46 = 0 ∧ (value.drop (pos + 1)).count 46 = 0 := by
        rw [hsplit, List.count_append, List.count_cons_self] at hdots
        omega
      refine ⟨value.take pos, value.drop (pos + 1), fun c hc => ?_, ?_, .inr hsplit⟩
      · rcases List.mem_append.mp hc with hleft | hright
        · refine hchar c (List.mem_of_mem_take hleft) ?_
          rintro rfl
          exact List.count_eq_zero.mp hcount.1 hleft
        · refine hchar c (List.mem_of_mem_drop hright) ?_
          rintro rfl
          exact List.count_eq_zero.mp hcount.2 hright
      · rw [hpos] at hvalue
        have hle := of_decide_eq_true hvalue
        rw [List.length_drop]
        omega

/-- The digits of the product, with all zeros in front. -/
def scaledDigits (whole fraction : Bytes) (decimals : ℕ) : Bytes :=
  whole ++ fraction ++ List.replicate (decimals - fraction.length) 48

variable {value whole fraction : Bytes} {decimals : ℕ}

theorem Shape.isDigit_scaledDigits (hshape : Shape value whole fraction decimals) :
    ∀ c ∈ scaledDigits whole fraction decimals, isDigit c = true := by
  intro c hc
  rcases List.mem_append.mp hc with hc | hc
  · exact hshape.digits c hc
  · rw [(List.mem_replicate.mp hc).2]
    rfl

theorem drop_length_takeWhile {α : Type*} (p : α → Bool) (list : List α) :
    list.drop (list.takeWhile p).length = list.dropWhile p := by
  calc list.drop (list.takeWhile p).length
      = (list.takeWhile p ++ list.dropWhile p).drop (list.takeWhile p).length := by
        rw [List.takeWhile_append_dropWhile]
    _ = list.dropWhile p := List.drop_left

/-- **Multiplying moves the dot to the end, and strips the zeros.** -/
theorem multiplyDecimal_of_shape (hshape : Shape value whole fraction decimals) :
    multiplyDecimal value decimals =
      (scaledDigits whole fraction decimals).dropWhile (· = 48) := by
  have hwhole : ∀ c ∈ whole, isDigit c = true :=
    fun c hc => hshape.digits c (List.mem_append_left _ hc)
  have hmoved : (match value.findIdx? (· = 46) with
      | none => value ++ List.replicate decimals 48
      | some dotPos =>
          if value.length - dotPos - 1 ≤ decimals then
            value.eraseIdx dotPos ++ List.replicate (decimals - (value.length - dotPos - 1)) 48
          else (value.eraseIdx dotPos).insertIdx (dotPos + decimals) 46) =
      scaledDigits whole fraction decimals := by
    rcases hshape.value with ⟨rfl, rfl⟩ | rfl
    · rw [(findIdx?_dot hwhole []).1, scaledDigits, List.append_nil]
      rfl
    · have hlength : (whole ++ 46 :: fraction).length - whole.length - 1 = fraction.length := by
        rw [List.length_append, List.length_cons]
        omega
      have herase : (whole ++ 46 :: fraction).eraseIdx whole.length = whole ++ fraction := by
        rw [List.eraseIdx_append_of_length_le le_rfl, Nat.sub_self, List.eraseIdx_cons_zero]
      rw [(findIdx?_dot hwhole fraction).2]
      dsimp only
      rw [hlength, if_pos hshape.length, herase]
      rfl
  have hnodot : (scaledDigits whole fraction decimals)[((scaledDigits whole fraction
      decimals).takeWhile (· = 48)).length]? ≠ some 46 := by
    intro hget
    exact ne_dot_of_isDigit (hshape.isDigit_scaledDigits 46 (List.mem_of_getElem? hget)) rfl
  unfold multiplyDecimal
  dsimp only
  rw [hmoved, if_neg hnodot, drop_length_takeWhile]

/-! ## The number that is multiplied -/

/-- The number that a decimal stands for: the digits up to the dot, and those behind it as
a fraction. -/
def numberOf (value : Bytes) : ℚ :=
  let whole := value.takeWhile (· ≠ 46)
  let fraction := (value.dropWhile (· ≠ 46)).drop 1
  valueOf whole + valueOf fraction / 10 ^ fraction.length

theorem Shape.numberOf_eq (hshape : Shape value whole fraction decimals) :
    numberOf value = valueOf whole + valueOf fraction / 10 ^ fraction.length := by
  have hwhole : ∀ c ∈ whole, decide (c ≠ 46) = true :=
    fun c hc => decide_eq_true (ne_dot_of_isDigit (hshape.digits c (List.mem_append_left _ hc)))
  have htake : value.takeWhile (· ≠ 46) = whole ∧
      (value.dropWhile (· ≠ 46)).drop 1 = fraction := by
    rcases hshape.value with ⟨rfl, rfl⟩ | rfl
    · rw [List.takeWhile_eq_self_iff.mpr hwhole, List.dropWhile_eq_nil_iff.mpr hwhole]
      exact ⟨rfl, rfl⟩
    · rw [List.takeWhile_append_of_pos hwhole, List.dropWhile_append_of_pos hwhole]
      simp
  rw [numberOf, htake.1, htake.2]

theorem Shape.valueOf_scaledDigits (hshape : Shape value whole fraction decimals) :
    (valueOf (scaledDigits whole fraction decimals) : ℚ) = numberOf value * 10 ^ decimals := by
  have hsplit : (10 : ℚ) ^ decimals =
      10 ^ fraction.length * 10 ^ (decimals - fraction.length) := by
    rw [← pow_add, Nat.add_sub_cancel' hshape.length]
  rw [scaledDigits, valueOf_append, valueOf_append, valueOf_replicate, List.length_replicate,
    hshape.numberOf_eq, hsplit]
  push_cast
  field_simp
  ring

theorem Shape.nonzero_iff (hshape : Shape value whole fraction decimals) :
    Nonzero value ↔ valueOf (scaledDigits whole fraction decimals) ≠ 0 := by
  rw [← String64.nonzero_iff hshape.isDigit_scaledDigits]
  refine exists_congr fun c => and_congr_left fun hc => ?_
  rw [scaledDigits, List.mem_append, List.mem_append, List.mem_replicate]
  rcases hshape.value with ⟨rfl, rfl⟩ | rfl
  · simp [hc.1]
  · simp [hc.1, hc.2]

/-- A string is the canonical numeral of the number times the power of ten. -/
def IsScaled (value : Bytes) (decimals : ℕ) (result : Bytes) : Prop :=
  ∃ n : ℕ, (n : ℚ) = numberOf value * 10 ^ decimals ∧ result = decimal n

/-- **MultiplyDecimal** gives the numeral of the product, unless that is zero. -/
theorem isScaled_multiplyDecimal_iff (hvalue : isDecNumber value decimals = true) :
    IsScaled value decimals (multiplyDecimal value decimals) ↔ Nonzero value := by
  obtain ⟨whole, fraction, hshape⟩ := exists_shape hvalue
  have hscaled := hshape.valueOf_scaledDigits
  have hresult := (multiplyDecimal_of_shape hshape).trans
    (dropWhile_zeros hshape.isDigit_scaledDigits)
  rw [hshape.nonzero_iff]
  constructor
  · rintro ⟨n, hn, heq⟩ hzero
    rw [hresult, if_pos hzero] at heq
    obtain ⟨c, rest, hdecimal, -⟩ := exists_decimal_eq_cons n
    rw [hdecimal] at heq
    cases heq
  · intro hne
    refine ⟨_, hscaled, ?_⟩
    rw [hresult, if_neg hne]

/-- **toBaseUnit** of a number that fits. -/
theorem callBackToBaseUnit_iff (hvalue : isDecNumber value V8Contract.cegDecimals = true)
    (hfits : numberOf value * 10 ^ V8Contract.cegDecimals < 2 ^ 63) :
    (∃ result, V8Contract.callBackToBaseUnit [.string value] = some result ∧
      IsScaled value V8Contract.cegDecimals result) ↔ Nonzero value := by
  have hcall : V8Contract.callBackToBaseUnit [.string value] =
      match safeStoi64 (multiplyDecimal value V8Contract.cegDecimals) with
      | some _ => some (multiplyDecimal value V8Contract.cegDecimals)
      | none => none := by
    rw [V8Contract.callBackToBaseUnit, if_neg (by rw [hvalue]; exact Bool.noConfusion)]
  rw [← isScaled_multiplyDecimal_iff hvalue, hcall]
  constructor
  · rintro ⟨result, hresult, hscaled⟩
    split at hresult
    · rwa [← Option.some.inj hresult] at hscaled
    · cases hresult
  · rintro ⟨n, hn, heq⟩
    have hlt : n < 2 ^ 63 := by
      rw [← hn] at hfits
      exact_mod_cast hfits
    have hread : safeStoi64 (decimal n) = some (n : ℤ) := by
      rw [← toBytes_natCast]
      exact safeStoi64_toBytes (by omega) (by exact_mod_cast hlt)
    rw [heq, hread]
    exact ⟨decimal n, rfl, n, hn, rfl⟩

/-! ## Formatting -/

theorem formatLoop_rest {decimal i : ℕ} (hi : decimal < i) (zeroNotShow : Bool)
    (out rest : Bytes) : formatLoop decimal i zeroNotShow out rest = out ++ rest := by
  induction rest generalizing i zeroNotShow out with
  | nil => rw [formatLoop, List.append_nil]
  | cons c rest ih =>
      rw [formatLoop, ih (by omega), if_neg (by omega), if_neg (by omega), List.append_assoc]
      rfl

/-- Once a digit is shown, all that follow are. -/
theorem formatLoop_shown {decimal i : ℕ} {fraction : Bytes} (hi : i + fraction.length ≤ decimal)
    (out rest : Bytes) :
    formatLoop decimal i false out (fraction ++ rest) =
      formatLoop decimal (i + fraction.length) false (out ++ fraction) rest := by
  induction fraction generalizing i out with
  | nil => simp
  | cons c fraction ih =>
      rw [List.length_cons] at hi
      have hlt : i < decimal := by omega
      rw [List.cons_append, formatLoop]
      simp only [ite_self, or_true, if_true, if_pos hlt]
      rw [ih (by omega), List.length_cons, List.append_assoc]
      congr 1
      omega

/-- The zeros at the end of the fraction are not shown. -/
theorem formatLoop_fraction {decimal i : ℕ} {fraction : Bytes}
    (hi : i + fraction.length ≤ decimal) (rest : Bytes) :
    ∃ zeroNotShow, formatLoop decimal i true [] (fraction ++ rest) =
      formatLoop decimal (i + fraction.length) zeroNotShow (fraction.dropWhile (· = 48)) rest := by
  induction fraction generalizing i with
  | nil => exact ⟨true, rfl⟩
  | cons c fraction ih =>
      rw [List.length_cons] at hi
      have hlt : i < decimal := by omega
      rw [List.cons_append, formatLoop, List.length_cons]
      by_cases hc : c = 48
      · obtain ⟨zeroNotShow, hrest⟩ := @ih (i + 1) (by omega)
        refine ⟨zeroNotShow, ?_⟩
        simp only [hc, ne_eq, not_true_eq_false, if_false, false_or, Bool.true_eq_false,
          if_pos hlt]
        rw [hrest, List.dropWhile_cons_of_pos (by simp)]
        congr 1
        omega
      · refine ⟨false, ?_⟩
        simp only [hc, ne_eq, not_false_eq_true, if_true, true_or, if_pos hlt]
        rw [formatLoop_shown (by omega), List.dropWhile_cons_of_neg (by simpa using hc)]
        congr 1
        omega

/-- The digits of a number, at least one more than behind the dot. -/
def paddedDigits (n decimals : ℕ) : Bytes :=
  if decimals ≥ (decimal n).length then
    List.replicate (decimals - (decimal n).length + 1) 48 ++ decimal n
  else decimal n

theorem lt_length_paddedDigits (n decimals : ℕ) :
    decimals < (paddedDigits n decimals).length := by
  unfold paddedDigits
  split_ifs
  · rw [List.length_append, List.length_replicate]
    omega
  · omega

theorem isDigit_paddedDigits {n decimals : ℕ} :
    ∀ c ∈ paddedDigits n decimals, isDigit c = true := by
  unfold paddedDigits
  split_ifs
  · intro c hc
    rcases List.mem_append.mp hc with hc | hc
    · rw [(List.mem_replicate.mp hc).2]
      rfl
    · exact isDigit_decimal c hc
  · exact isDigit_decimal

theorem valueOf_paddedDigits (n decimals : ℕ) : valueOf (paddedDigits n decimals) = n := by
  unfold paddedDigits
  split_ifs
  · rw [valueOf_append, valueOf_replicate, zero_mul, zero_add, valueOf_decimal]
  · exact valueOf_decimal n

theorem eq_replicate_append_dropWhile (digits : Bytes) :
    digits = List.replicate (digits.length - (digits.dropWhile (· = 48)).length) 48 ++
      digits.dropWhile (· = 48) := by
  induction digits with
  | nil => rfl
  | cons c digits ih =>
      by_cases hc : c = 48
      · have hle := (List.dropWhile_suffix (l := digits) fun c => decide (c = 48)).length_le
        rw [List.dropWhile_cons_of_pos (by simpa using hc), List.length_cons,
          Nat.succ_sub hle, List.replicate_succ, List.cons_append, ← ih, hc]
      · rw [List.dropWhile_cons_of_neg (by simpa using hc), Nat.sub_self]
        rfl

/-- **FormatDecimal** puts the dot among the digits and leaves out the zeros behind it. -/
theorem exists_shape_formatDecimal (n decimals : ℕ) :
    ∃ whole fraction, Shape (formatDecimal n decimals) whole fraction decimals ∧
      scaledDigits whole fraction decimals = paddedDigits n decimals := by
  have hpadded : formatDecimal n decimals =
      (formatLoop decimals 0 true [] (paddedDigits n decimals).reverse).reverse := by
    rw [formatDecimal, toBytes_natCast]
    rfl
  have hdigits := @isDigit_paddedDigits n decimals
  have hlength := lt_length_paddedDigits n decimals
  -- from the right: the fraction, the digit in front of the dot, the others
  obtain ⟨fraction, c, rest, hreverse, hfraction⟩ : ∃ fraction c rest,
      (paddedDigits n decimals).reverse = fraction ++ c :: rest ∧
        fraction.length = decimals := by
    rw [← List.length_reverse] at hlength
    refine ⟨(paddedDigits n decimals).reverse.take decimals,
      (paddedDigits n decimals).reverse[decimals],
      (paddedDigits n decimals).reverse.drop (decimals + 1), ?_, ?_⟩
    · rw [List.getElem_cons_drop, List.take_append_drop]
    · rw [List.length_take]
      omega
  obtain ⟨shown, hshown⟩ : ∃ shown, shown = fraction.dropWhile (· = 48) := ⟨_, rfl⟩
  have hsplit := eq_replicate_append_dropWhile fraction
  have hle : shown.length ≤ decimals := by
    rw [← hfraction, hshown]
    exact (List.dropWhile_suffix _).length_le
  rw [← hshown] at hsplit
  have hall : paddedDigits n decimals = (c :: rest).reverse ++ fraction.reverse := by
    rw [← List.reverse_append, ← hreverse, List.reverse_reverse]
  have hscaled : scaledDigits (c :: rest).reverse shown.reverse decimals =
      paddedDigits n decimals := by
    rw [scaledDigits, List.length_reverse, List.append_assoc, hall, hsplit, List.reverse_append,
      List.reverse_replicate, hfraction]
  obtain ⟨zeroNotShow, hloop⟩ := @formatLoop_fraction decimals 0 fraction (by omega) (c :: rest)
  rw [Nat.zero_add, hfraction, ← hshown] at hloop
  refine ⟨(c :: rest).reverse, shown.reverse, ⟨?_, ?_, ?_⟩, hscaled⟩
  · intro d hd
    rw [← hscaled] at hdigits
    exact hdigits d (List.mem_append_left _ hd)
  · rwa [List.length_reverse]
  · rw [hpadded, hreverse, hloop, formatLoop, if_neg (lt_irrefl _), if_pos rfl,
      formatLoop_rest (Nat.lt_succ_self _)]
    cases shown with
    | nil => exact .inl ⟨by simp, rfl⟩
    | cons d shown => exact .inr (by simp)

theorem multiplyDecimal_formatDecimal_iff (n decimals : ℕ) :
    multiplyDecimal (formatDecimal n decimals) decimals = toBytes n ↔ n ≠ 0 := by
  obtain ⟨whole, fraction, hshape, hscaled⟩ := exists_shape_formatDecimal n decimals
  rw [multiplyDecimal_of_shape hshape, hscaled, dropWhile_zeros isDigit_paddedDigits,
    valueOf_paddedDigits, toBytes_natCast]
  split_ifs with hzero
  · obtain ⟨c, rest, hdecimal, -⟩ := exists_decimal_eq_cons n
    rw [hdecimal]
    exact iff_of_false (List.cons_ne_nil _ _).symm (not_not.mpr hzero)
  · exact iff_of_true rfl hzero

/-- **Decimal conversion is exact for everything but zero.** -/
theorem decimal_conversion_iff (value : Bytes) (n decimals : ℕ) :
    (isDecNumber value decimals = true →
      (IsScaled value decimals (multiplyDecimal value decimals) ↔ Nonzero value)) ∧
    (isDecNumber value V8Contract.cegDecimals = true →
      numberOf value * 10 ^ V8Contract.cegDecimals < 2 ^ 63 →
      ((∃ result, V8Contract.callBackToBaseUnit [.string value] = some result ∧
        IsScaled value V8Contract.cegDecimals result) ↔ Nonzero value)) ∧
    (1 ≤ decimals →
      (multiplyDecimal (formatDecimal n decimals) decimals = toBytes n ↔ n ≠ 0)) :=
  ⟨isScaled_multiplyDecimal_iff, callBackToBaseUnit_iff,
    fun _ => multiplyDecimal_formatDecimal_iff n decimals⟩

/-- ".5" with one digit behind the dot. -/
theorem decimal_conversion_half :
    IsScaled [46, 53] 1 (multiplyDecimal [46, 53] 1) ∧
      multiplyDecimal (formatDecimal 5 1) 1 = toBytes 5 :=
  ⟨((decimal_conversion_iff [46, 53] 5 1).1 (by decide)).mpr (by decide),
    ((decimal_conversion_iff [46, 53] 5 1).2.2 le_rfl).mpr (by decide)⟩

/-- "0" is accepted, and becomes the empty string, which `toBaseUnit` refuses. -/
theorem zero_is_lost :
    isDecNumber [48] 8 = true ∧ multiplyDecimal [48] 8 = [] ∧
      ¬IsScaled [48] 8 (multiplyDecimal [48] 8) ∧
      V8Contract.callBackToBaseUnit [.string [48]] = none ∧
      multiplyDecimal (formatDecimal 0 8) 8 ≠ toBytes 0 := by
  refine ⟨by decide, by decide, ?_, by decide +kernel, by decide⟩
  rw [isScaled_multiplyDecimal_iff (by decide)]
  decide

end String64

end CegChain
