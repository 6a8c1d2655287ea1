import CegChain.Utils.BaseInt
import CegChain.Utils.Strings

/-!
# The int64 functions of contracts

Contracts compute with amounts as decimal strings; `Utils.int64Add` and its siblings
(`contract/v8_contract_read.cpp`) read two of them as `int64_t`, compute and print the result.
What a call ends with is a `CallBackResult`: a string, an exception with its text, or the end of
the process, when the machine divides by zero or the quotient does not fit.

Every two numbers of 64 bits can be handed over (`callBackInt64_toBytes`).  Sums and differences
are computed exactly when they fit.  So are products, but for one pair of factors:
`SafeIntMul` divides back by the first factor, and that division is the one that does not fit.
-/

namespace CegChain

open String64

/-- A value that a contract hands over; a number comes with the text that it is printed as. -/
inductive V8Value where
  | string (utf8 : Bytes)
  | number (utf8 : Bytes)
  | other

/-- The text of a string or a number. -/
def V8Value.utf8? : V8Value → Option Bytes
  | .string utf8 => some utf8
  | .number utf8 => some utf8
  | .other => none

/-- What a call ends with. -/
inductive CallBackResult where
  | returned (utf8 : Bytes)
  | thrown (errorDesc : String)
  /-- The process has been stopped. -/
  | trapped
deriving DecidableEq

/-- The common part of the functions on two numbers. -/
def callBackInt64 (name : String) (compute : Int64 → Int64 → CallBackResult) :
    List V8Value → CallBackResult
  | [args0, args1] =>
      match args0.utf8?, args1.utf8? with
      | none, _ => .thrown ("Contract execution error, " ++ name ++
          ", parameter 0 should be a String or Number")
      | _, none => .thrown ("Contract execution error, " ++ name ++
          ", parameter 1 should be a String or Number")
      | some arg0, some arg1 =>
          match safeStoi64 arg0, safeStoi64 arg1 with
          | none, _ => .thrown ("Contract execution error, " ++ name ++
              ", parameter 0 illegal, maybe exceed the limit value of int64.")
          | _, none => .thrown ("Contract execution error, " ++ name ++
              ", parameter 1 illegal, maybe exceed the limit value of int64.")
          | some iarg0, some iarg1 => compute (Int64.ofInt iarg0) (Int64.ofInt iarg1)
  | _ => .thrown "Parameter number error"

/-- The result is printed, or it has not been computed. -/
def checkedResult (overflowDesc : String) : Option Int64 → CallBackResult
  | some result => .returned (toBytes result.toInt)
  | none => .thrown overflowDesc

/-- `V8Contract::CallBackInt64Add`. -/
def callBackInt64Add : List V8Value → CallBackResult :=
  callBackInt64 "int64Add" fun iarg0 iarg1 => checkedResult
    "Contract execution error, int64Add, parameter 0 + parameter 1 overflowed"
    (safeIntAdd iarg0 iarg1)

/-- `V8Contract::CallBackInt64Sub`. -/
def callBackInt64Sub : List V8Value → CallBackResult :=
  callBackInt64 "int64Sub" fun iarg0 iarg1 => checkedResult
    "Contract execution error, int64Sub, parameter 0 - parameter 1 overflowed"
    (safeIntSub iarg0 iarg1)

/-- `V8Contract::CallBackInt64Mul`. -/
def callBackInt64Mul : List V8Value → CallBackResult :=
  callBackInt64 "int64Mul" fun iarg0 iarg1 =>
    match runSafeIntMul iarg0 iarg1 with
    | none => .trapped
    | some result => checkedResult
        "Contract execution error, int64Mul, parameter 0 * parameter 1 overflowed" result

section Results

variable {x y : Int64} {result : Option Int64} {n : ℤ}

theorem callBackInt64_toBytes (name : String) (compute : Int64 → Int64 → CallBackResult)
    (x y : Int64) :
    callBackInt64 name compute [.string (toBytes x.toInt), .string (toBytes y.toInt)] =
      compute x y := by
  simp only [callBackInt64, V8Value.utf8?, safeStoi64_toBytes x.le_toInt x.toInt_lt,
    safeStoi64_toBytes y.le_toInt y.toInt_lt, Int64.ofInt_toInt]

/-- The result is there exactly when the number fits into 64 bits, and it is the number. -/
def Exact (result : Option Int64) (n : ℤ) : Prop :=
  (result.isSome ↔ -2 ^ 63 ≤ n ∧ n < 2 ^ 63) ∧ ∀ z ∈ result, z.toInt = n

theorem exact_of_eq_some_iff (hiff : ∀ z, result = some z ↔ z.toInt = n) : Exact result n := by
  refine ⟨⟨fun hsome => ?_, fun hfits => ?_⟩, fun z hz => (hiff z).mp hz⟩
  · obtain ⟨z, hz⟩ := Option.isSome_iff_exists.mp hsome
    rw [← (hiff z).mp hz]
    exact ⟨z.le_toInt, z.toInt_lt⟩
  · rw [(hiff (Int64.ofInt n)).mpr (Int64.toInt_ofInt_of_le hfits.1 hfits.2)]
    rfl

theorem exact_safeIntAdd (x y : Int64) : Exact (safeIntAdd x y) (x.toInt + y.toInt) :=
  exact_of_eq_some_iff fun _ => safeIntAdd_eq_some_iff

theorem exact_safeIntSub (x y : Int64) : Exact (safeIntSub x y) (x.toInt - y.toInt) :=
  exact_of_eq_some_iff fun _ => safeIntSub_eq_some_iff

/-- What a call with two numbers should end with. -/
def CallBackResult.IsExact (overflowDesc : String) (n : ℤ) (called : CallBackResult) : Prop :=
  called = if -2 ^ 63 ≤ n ∧ n < 2 ^ 63 then .returned (toBytes n) else .thrown overflowDesc

theorem checkedResult_isExact (overflowDesc : String) (hexact : Exact result n) :
    (checkedResult overflowDesc result).IsExact overflowDesc n := by
  unfold CallBackResult.IsExact
  cases result with
  | none =>
      rw [if_neg fun hfits => absurd (hexact.1.mpr hfits) (by simp)]
      rfl
  | some z =>
      rw [if_pos (hexact.1.mp rfl), ← hexact.2 z rfl]
      rfl

theorem callBackInt64Add_isExact (x y : Int64) :
    (callBackInt64Add [.string (toBytes x.toInt), .string (toBytes y.toInt)]).IsExact
      "Contract execution error, int64Add, parameter 0 + parameter 1 overflowed"
      (x.toInt + y.toInt) := by
  rw [callBackInt64Add, callBackInt64_toBytes]
  exact checkedResult_isExact _ (exact_safeIntAdd x y)

theorem callBackInt64Sub_isExact (x y : Int64) :
    (callBackInt64Sub [.string (toBytes x.toInt), .string (toBytes y.toInt)]).IsExact
      "Contract execution error, int64Sub, parameter 0 - parameter 1 overflowed"
      (x.toInt - y.toInt) := by
  rw [callBackInt64Sub, callBackInt64_toBytes]
  exact checkedResult_isExact _ (exact_safeIntSub x y)

theorem callBackInt64Mul_of_run (hrun : runSafeIntMul x y = some result)
    (hexact : Exact result (x.toInt * y.toInt)) :
    (callBackInt64Mul [.string (toBytes x.toInt), .string (toBytes y.toInt)]).IsExact
      "Contract execution error, int64Mul, parameter 0 * parameter 1 overflowed"
      (x.toInt * y.toInt) := by
  rw [callBackInt64Mul, callBackInt64_toBytes, hrun]
  exact checkedResult_isExact _ hexact

theorem callBackInt64Mul_of_trap (hrun : runSafeIntMul x y = none) :
    callBackInt64Mul [.string (toBytes x.toInt), .string (toBytes y.toInt)] = .trapped := by
  rw [callBackInt64Mul, callBackInt64_toBytes, hrun]

end Results

/-- **Checked arithmetic.**  Multiplying two numbers does not stop the process, the product is
there exactly when it fits, and a contract gets it so, unless the first factor is `-1` and the
second one is the smallest number.  Sums and differences are always computed so. -/
theorem checkedArithmetic_iff (x y : Int64) :
    ((∃ result, runSafeIntMul x y = some result ∧ Exact result (x.toInt * y.toInt)) ∧
        Exact (safeIntAdd x y) (x.toInt + y.toInt) ∧
        Exact (safeIntSub x y) (x.toInt - y.toInt) ∧
        (callBackInt64Mul [.string (toBytes x.toInt), .string (toBytes y.toInt)]).IsExact
          "Contract execution error, int64Mul, parameter 0 * parameter 1 overflowed"
          (x.toInt * y.toInt)) ↔
      ¬ (x = -1 ∧ y = Int64.minValue) := by
  constructor
  · rintro ⟨⟨result, hrun, -⟩, -⟩ hmin
    rw [runSafeIntMul_eq, if_pos hmin] at hrun
    exact absurd hrun (by simp)
  · intro hmin
    have hrun : runSafeIntMul x y = some (safeIntMul x y) := by
      rw [runSafeIntMul_eq, if_neg hmin]
    have hexact : Exact (safeIntMul x y) (x.toInt * y.toInt) :=
      exact_of_eq_some_iff fun z => safeIntMul_eq_some_iff hmin
    exact ⟨⟨_, hrun, hexact⟩, exact_safeIntAdd x y, exact_safeIntSub x y,
      callBackInt64Mul_of_run hrun hexact⟩

/-- `Utils.int64Mul("-1", "-9223372036854775808")` stops the process, although the product that
does not fit should be reported. -/
theorem int64Mul_trapped :
    runSafeIntMul (-1) Int64.minValue = none ∧
      callBackInt64Mul [.string (toBytes (-1)), .string (toBytes (-9223372036854775808))] =
        .trapped := by
  have hrun : runSafeIntMul (-1) Int64.minValue = none := by decide
  exact ⟨hrun, callBackInt64Mul_of_trap hrun⟩

end CegChain
