import CegChain.Common.PrivateKey
import CegChain.Contract.Int64
import CegChain.Lib.Totals

/-!
# The token contract

`contract/contractBasedToken.js`.  Balances, allowances and the attributes of the token
share one storage: a balance is under its address, an allowance under a key that is made of
the two addresses, and all amounts are numerals.  The host takes a string as a C string
(`ToCString`), which ends at the first zero character, and so it does with addresses, keys
and numerals.

The contract compares the payer with the receiver as it got them, and a receiver that is
the address of the payer, a zero character and anything is not the payer to it, but is the
payer to the storage.  Such a payment destroys what is paid.  Where there is none, the
balances always add up to the supply and an allowance bounds what is spent
(`token_sound_iff`).

A call that the host ends, for want of fees, leaves nothing and is no call here.  What the
assertions say is not modelled.
-/

namespace CegChain

namespace Token

open Layers Totals String64

/-! ## The host -/

/-- What a call throws. -/
inductive Thrown where
  | assertion
  | int64 (errorDesc : String)
  /-- The process has been stopped. -/
  | trapped
  deriving DecidableEq

/-- `assert`. -/
def assert (p : Prop) [Decidable p] : Except Thrown Unit :=
  if p then .ok () else .error .assertion

/-- The text of a string. -/
def text : V8Value → Bytes
  | .string utf8 => utf8
  | .number utf8 => utf8
  | .other => []

/-- `Utils.stoI64Check`. -/
def stoI64Check : V8Value → Bool
  | .string utf8 => (safeStoi64 (toCString utf8)).isSome
  | _ => false

/-- `Utils.int64Compare` of two strings. -/
def int64Compare (first second : Bytes) : Except Thrown ℤ :=
  match safeStoi64 (toCString first), safeStoi64 (toCString second) with
  | none, _ => .error (.int64 ("Contract execution error, int64Compare, " ++
      "parameter 0 illegal, maybe exceed the limit value of int64."))
  | some _, none => .error (.int64 ("Contract execution error, int64Compare, " ++
      "parameter 1 illegal, maybe exceed the limit value of int64."))
  | some iarg0, some iarg1 =>
      .ok (if iarg0 > iarg1 then 1 else if iarg0 = iarg1 then 0 else -1)

/-- A function on two strings, with what it throws. -/
def callInt64 (callBack : List V8Value → CallBackResult) (first second : Bytes) :
    Except Thrown Bytes :=
  match callBack [.string (toCString first), .string (toCString second)] with
  | .returned utf8 => .ok utf8
  | .thrown errorDesc => .error (.int64 errorDesc)
  | .trapped => .error .trapped

/-- `Utils.int64Add`. -/
def int64Add : Bytes → Bytes → Except Thrown Bytes :=
  callInt64 callBackInt64Add

/-- `Utils.int64Sub`. -/
def int64Sub : Bytes → Bytes → Except Thrown Bytes :=
  callInt64 callBackInt64Sub

/-- The account of the contract, with the logs of the calls. -/
structure World where
  storage : Table Bytes Bytes := ∅
  logs : List (List Bytes) := []

namespace World

/-- `Chain.load`. -/
def storageLoad (key : Bytes) (w : World) : Option Bytes :=
  w.storage.lookup (toCString key)

/-- `Chain.store`. -/
def storageStore (key value : Bytes) (w : World) : World :=
  { w with storage := w.storage.insert (toCString key) (toCString value) }

/-- `Chain.tlog`. -/
def tlog (datas : List Bytes) (w : World) : World :=
  { w with logs := w.logs ++ [datas.map toCString] }

end World

/-! ## The functions of the source -/

/-- `globalAttributeKey`, "global_attribute". -/
def globalAttributeKey : Bytes :=
  [103, 108, 111, 98, 97, 108, 95, 97, 116, 116, 114, 105, 98, 117, 116, 101]

/-- "0". -/
def zero : Bytes := [48]

/-- `makeAllowanceKey`: "allow_", the owner, "_to_", the spender. -/
def makeAllowanceKey (owner spender : Bytes) : Bytes :=
  [97, 108, 108, 111, 119, 95] ++ owner ++ [95, 116, 111, 95] ++ spender

/-- "approve". -/
def approveTopic : Bytes := [97, 112, 112, 114, 111, 118, 101]

/-- "transfer". -/
def transferTopic : Bytes := [116, 114, 97, 110, 115, 102, 101, 114]

/-- "transferFrom". -/
def transferFromTopic : Bytes := transferTopic ++ [70, 114, 111, 109]

/-- `params` of `init`.  A number is `some` in `decimals`. -/
structure Params where
  totalSupply : V8Value
  name : V8Value
  symbol : V8Value
  decimals : Option ℚ

/-- `globalAttribute`, with the version "ATP20". -/
structure GlobalAttribute where
  totalSupply : Bytes
  name : Bytes
  symbol : Bytes
  version : Bytes
  decimals : ℚ

/-- `typeof value === 'string' && value.length > 0`. -/
def isText : V8Value → Bool
  | .string utf8 => decide (utf8 ≠ [])
  | _ => false

section

variable (calcHash : SignatureType → Bytes → Bytes)

/-- `Utils.addressCheck`. -/
def addressCheck : V8Value → Bool
  | .string utf8 => isAddressValid calcHash (toCString utf8)
  | _ => false

/-- `approve`. -/
def approve (sender : Bytes) (spender value : V8Value) (w : World) : Except Thrown World := do
  assert (addressCheck calcHash spender = true)
  assert (stoI64Check value = true)
  assert ((← int64Compare (text value) zero) > 0)
  let key := makeAllowanceKey sender (text spender)
  let w := w.storageStore key (text value)
  .ok (w.tlog [approveTopic, sender, text spender, text value])

/-- `allowance`. -/
def allowance (owner spender : V8Value) (w : World) : Except Thrown Bytes := do
  assert (addressCheck calcHash owner = true)
  assert (addressCheck calcHash spender = true)
  match w.storageLoad (makeAllowanceKey (text owner) (text spender)) with
  | none => .error .assertion
  | some value => .ok value

/-- The balance of a receiver afterwards: `toValue`. -/
def received (dest value : Bytes) (w : World) : Except Thrown Bytes :=
  match w.storageLoad dest with
  | none => .ok value
  | some toValue => int64Add toValue value

/-- `transfer`. -/
def transfer (sender : Bytes) (dest value : V8Value) (w : World) : Except Thrown World := do
  assert (addressCheck calcHash dest = true)
  assert (stoI64Check value = true)
  assert ((← int64Compare (text value) zero) > 0)
  if sender = text dest then
    .ok (w.tlog [transferTopic, sender, text dest, text value])
  else
    match w.storageLoad sender with
    | none => .error .assertion
    | some senderValue =>
        assert ((← int64Compare senderValue (text value)) ≥ 0)
        let toValue ← received (text dest) (text value) w
        let w := w.storageStore (text dest) toValue
        let senderValue ← int64Sub senderValue (text value)
        let w := w.storageStore sender senderValue
        .ok (w.tlog [transferTopic, sender, text dest, text value])

/-- `transferFrom`. -/
def transferFrom (sender : Bytes) (owner dest value : V8Value) (w : World) :
    Except Thrown World := do
  assert (addressCheck calcHash owner = true)
  assert (addressCheck calcHash dest = true)
  assert (stoI64Check value = true)
  assert ((← int64Compare (text value) zero) > 0)
  if text owner = text dest then
    .ok (w.tlog [transferFromTopic, sender, text owner, text dest, text value])
  else
    match w.storageLoad (text owner) with
    | none => .error .assertion
    | some fromValue =>
        assert ((← int64Compare fromValue (text value)) ≥ 0)
        let allowValue ← allowance calcHash owner (.string sender) w
        assert ((← int64Compare allowValue (text value)) ≥ 0)
        let toValue ← received (text dest) (text value) w
        let w := w.storageStore (text dest) toValue
        let fromValue ← int64Sub fromValue (text value)
        let w := w.storageStore (text owner) fromValue
        let allowKey := makeAllowanceKey (text owner) sender
        let allowValue ← int64Sub allowValue (text value)
        let w := w.storageStore allowKey allowValue
        .ok (w.tlog [transferFromTopic, sender, text owner, text dest, text value])

/-- `init`, with `JSON.stringify` of the attributes.  A string that is compared with a
number is read as a whole, so it has no zero character. -/
def init (stringify : GlobalAttribute → Bytes) (sender : Bytes) (params : Params) :
    Except Thrown World := do
  assert (stoI64Check params.totalSupply = true ∧
    (0 ∉ text params.totalSupply ∧ 0 < (safeStoi64 (text params.totalSupply)).getD 0) ∧
    isText params.name = true ∧ isText params.symbol = true ∧
    0 ≤ params.decimals.getD (-1))
  let globalAttribute : GlobalAttribute :=
    { totalSupply := text params.totalSupply
      name := text params.name
      symbol := text params.symbol
      version := [65, 84, 80, 50, 48]
      decimals := params.decimals.getD 0 }
  let w := World.storageStore globalAttributeKey (stringify globalAttribute) {}
  .ok (w.storageStore sender (text params.totalSupply))

/-! ## Runs -/

/-- An address as a contract gets it in `sender`: an accepted string, and a C string. -/
def Address := {a : Bytes // isAddressValid calcHash a = true ∧ 0 ∉ a}

/-- The method of a call of `main`, with its parameters. -/
inductive Method where
  | transfer (dest value : V8Value)
  | transferFrom (owner dest value : V8Value)
  | approve (spender value : V8Value)

/-- A call of `main`. -/
structure Call where
  sender : Address calcHash
  method : Method

variable {calcHash}

/-- `main`. -/
def Call.main (call : Call calcHash) (w : World) : Except Thrown World :=
  match call.method with
  | .transfer dest value => transfer calcHash call.sender.val dest value w
  | .transferFrom owner dest value => transferFrom calcHash call.sender.val owner dest value w
  | .approve spender value => approve calcHash call.sender.val spender value w

/-- A call that throws leaves no trace. -/
def step (w : World) (call : Call calcHash) : World :=
  match call.main w with
  | .ok w => w
  | .error _ => w

/-- The world after these calls. -/
def run (w : World) (calls : List (Call calcHash)) : World :=
  calls.foldl step w

/-- The number that a numeral is read as. -/
def amount (value : Bytes) : ℤ :=
  (safeStoi64 value).getD 0

/-- The balance of an address. -/
def balance (w : World) (address : Bytes) : ℤ :=
  (w.storage.lookup address).elim 0 amount

variable (calcHash) in
/-- The balance under a key, if that is an address. -/
def weigh (key value : Bytes) : ℤ :=
  if isAddressValid calcHash key = true then amount value else 0

variable (calcHash) in
/-- The sum of the balances of all addresses. -/
def totalBalance (w : World) : ℤ :=
  total (weigh calcHash) w.storage

/-- What was approved last and what has been moved since, after a call that succeeded. -/
def Call.grant (call : Call calcHash) (owner spender : Bytes) (w w' : World)
    (granted : Option (ℤ × ℤ)) : Option (ℤ × ℤ) :=
  match call.method with
  | .transfer .. => granted
  | .transferFrom payer .. =>
      if call.sender.val = spender ∧ toCString (text payer) = owner then
        granted.map fun g => (g.1, g.2 + (balance w owner - balance w' owner))
      else granted
  | .approve spender' value =>
      if call.sender.val = owner ∧ toCString (text spender') = spender then
        some (amount (toCString (text value)), 0)
      else granted

/-- What an owner has approved last for a spender, and what the spender has moved since. -/
def granted (owner spender : Bytes) : World → Option (ℤ × ℤ) → List (Call calcHash) →
    Option (ℤ × ℤ)
  | _, g, [] => g
  | w, g, call :: calls =>
      match call.main w with
      | .ok w' => granted owner spender w' (call.grant owner spender w w' g) calls
      | .error _ => granted owner spender w g calls

/-- What `int64Add` throws when the sum does not fit. -/
def addOverflow : Thrown :=
  .int64 "Contract execution error, int64Add, parameter 0 + parameter 1 overflowed"

/-- What is expected of the states of a run. -/
structure Sound (supply : ℤ) (start : World) (calls : List (Call calcHash)) : Prop where
  supply : ∀ before, before <+: calls → totalBalance calcHash (run start before) = supply
  nonneg : ∀ before, before <+: calls → ∀ address, isAddressValid calcHash address = true →
    0 ≤ balance (run start before) address
  noOverflow : ∀ before call, before ++ [call] <+: calls →
    call.main (run start before) ≠ .error addOverflow
  /-- Without an approval there is no allowance, and with one it is what is left. -/
  allowances : ∀ before, before <+: calls → ∀ owner spender : Address calcHash,
    ((run start before).storage.lookup (makeAllowanceKey owner.val spender.val)).map amount =
      (granted owner.val spender.val start none before).map fun g => g.1 - g.2

/-- What is paid is positive and covered. -/
def Covered (w : World) (payer : Bytes) (value : V8Value) : Prop :=
  stoI64Check value = true ∧ 0 < amount (toCString (text value)) ∧
    amount (toCString (text value)) ≤ balance w payer

/-- The call pays, from a balance that covers it, to a receiver that is not the payer as a
string and is the payer as a key. -/
def Call.Aliased (call : Call calcHash) (w : World) : Prop :=
  match call.method with
  | .transfer dest value =>
      call.sender.val ≠ text dest ∧ toCString (text dest) = call.sender.val ∧
        addressCheck calcHash dest = true ∧ Covered w call.sender.val value
  | .transferFrom owner dest value =>
      text owner ≠ text dest ∧ toCString (text dest) = text owner ∧
        addressCheck calcHash owner = true ∧ addressCheck calcHash dest = true ∧
        Covered w (text owner) value ∧
        amount (toCString (text value)) ≤
          balance w (makeAllowanceKey (text owner) call.sender.val)
  | .approve .. => False

/-! ## Strings and numbers -/

theorem zero_not_mem_allowanceKey {owner spender : Bytes} (howner : 0 ∉ owner)
    (hspender : 0 ∉ spender) : 0 ∉ makeAllowanceKey owner spender := by
  simp [makeAllowanceKey, howner, hspender]

theorem toCString_makeAllowanceKey {owner : Bytes} (howner : 0 ∉ owner) (spender : Bytes) :
    toCString (makeAllowanceKey owner spender) = makeAllowanceKey owner (toCString spender) := by
  have hfront : 0 ∉ [97, 108, 108, 111, 119, 95] ++ owner ++ [95, 116, 111, 95] := by
    simp [howner]
  exact toCString_append hfront spender

/-- The name of an owner that does not end as a C string is cut, and so is the key. -/
theorem toCString_makeAllowanceKey_of_mem {owner : Bytes} (howner : 0 ∈ owner)
    (spender : Bytes) :
    toCString (makeAllowanceKey owner spender) =
      [97, 108, 108, 111, 119, 95] ++ toCString owner := by
  obtain ⟨front, back, rfl, hfront⟩ := List.eq_append_cons_of_mem howner
  have hcut : ∀ rest : Bytes, toCString (0 :: rest) = [] := fun rest => by simp [toCString]
  have hkey : makeAllowanceKey (front ++ 0 :: back) spender =
      [97, 108, 108, 111, 119, 95] ++ front ++ 0 :: (back ++ [95, 116, 111, 95] ++ spender) := by
    simp [makeAllowanceKey]
  rw [hkey, toCString_append (by simp [hfront]), hcut, toCString_append hfront, hcut,
    List.append_nil, List.append_nil]

@[simp] theorem toCString_toBytes (n : ℤ) : toCString (toBytes n) = toBytes n :=
  toCString_of_not_mem (zero_not_mem_toBytes n)

/-- A number is kept as it is printed. -/
theorem toCString_of_safeStoi64 {s : Bytes} {n : ℤ} (hs : safeStoi64 s = some n) :
    toCString s = s := by
  rw [(safeStoi64_eq_some_iff.mp hs).1, toCString_toBytes]

theorem int64Compare_eq {first second : Bytes} {m n : ℤ}
    (hm : safeStoi64 (toCString first) = some m) (hn : safeStoi64 (toCString second) = some n) :
    int64Compare first second = .ok (if m > n then 1 else if m = n then 0 else -1) := by
  rw [int64Compare, hm, hn]

/-- A function on two numbers computes the exact result, or it throws. -/
theorem callInt64_eq {callBack : List V8Value → CallBackResult} {desc : String}
    (op : ℤ → ℤ → ℤ)
    (hexact : ∀ x y : Int64,
      (callBack [.string (toBytes x.toInt), .string (toBytes y.toInt)]).IsExact desc
        (op x.toInt y.toInt))
    {first second : Bytes} {m n : ℤ}
    (hm : safeStoi64 (toCString first) = some m) (hn : safeStoi64 (toCString second) = some n) :
    callInt64 callBack first second =
      if -2 ^ 63 ≤ op m n ∧ op m n < 2 ^ 63 then .ok (toBytes (op m n))
      else .error (.int64 desc) := by
  obtain ⟨hfirst, hlow, hhigh⟩ := safeStoi64_eq_some_iff.mp hm
  obtain ⟨hsecond, hlow', hhigh'⟩ := safeStoi64_eq_some_iff.mp hn
  have hcall := hexact (Int64.ofInt m) (Int64.ofInt n)
  rw [Int64.toInt_ofInt_of_le hlow hhigh, Int64.toInt_ofInt_of_le hlow' hhigh',
    ← hfirst, ← hsecond] at hcall
  rw [callInt64, hcall]
  split_ifs <;> rfl

theorem int64Add_eq {first second : Bytes} {m n : ℤ}
    (hm : safeStoi64 (toCString first) = some m) (hn : safeStoi64 (toCString second) = some n) :
    int64Add first second =
      if -2 ^ 63 ≤ m + n ∧ m + n < 2 ^ 63 then .ok (toBytes (m + n)) else .error addOverflow :=
  callInt64_eq (· + ·) callBackInt64Add_isExact hm hn

theorem int64Sub_eq {first second : Bytes} {m n : ℤ}
    (hm : safeStoi64 (toCString first) = some m) (hn : safeStoi64 (toCString second) = some n)
    (hn0 : 0 ≤ n) (hle : n ≤ m) : int64Sub first second = .ok (toBytes (m - n)) := by
  have hfits : m < 2 ^ 63 := (safeStoi64_eq_some_iff.mp hm).2.2
  refine (callInt64_eq (· - ·) callBackInt64Sub_isExact hm hn).trans (if_pos ?_)
  exact ⟨by omega, by omega⟩

/-! ## The books -/

/-- What is kept under a key: the attributes, or a number that is not negative. -/
def WellKept (key value : Bytes) : Prop :=
  key.length = 16 ∨
    (key.length = 36 ∨ key.length = 82) ∧ ∃ n, 0 ≤ n ∧ safeStoi64 value = some n

/-- Whatever is called, this is true of the storage. -/
def Formed (w : World) : Prop :=
  ∀ key value, w.storage.lookup key = some value → WellKept key value

theorem wellKept_toBytes {key : Bytes} {n : ℤ} (hkey : key.length = 36 ∨ key.length = 82)
    (hnonneg : 0 ≤ n) (hfits : n < 2 ^ 63) : WellKept key (toBytes n) :=
  .inr ⟨hkey, n, hnonneg, safeStoi64_toBytes (by omega) hfits⟩

theorem amount_of_safeStoi64 {value : Bytes} {n : ℤ} (hvalue : safeStoi64 value = some n) :
    amount value = n := by
  rw [amount, hvalue]
  rfl

theorem amount_toBytes {n : ℤ} (hnonneg : 0 ≤ n) (hfits : n < 2 ^ 63) :
    amount (toBytes n) = n :=
  amount_of_safeStoi64 (safeStoi64_toBytes (by omega) hfits)

theorem length_ne_of_valid {a : Bytes} (ha : isAddressValid calcHash a = true) :
    a.length ≠ 16 := by
  rw [length_of_valid ha]
  decide

theorem length_makeAllowanceKey {owner spender : Bytes}
    (howner : isAddressValid calcHash owner = true)
    (hspender : isAddressValid calcHash spender = true) :
    (makeAllowanceKey owner spender).length = 82 := by
  simp [makeAllowanceKey, length_of_valid howner, length_of_valid hspender]

theorem balance_of_lookup {w : World} {key value : Bytes}
    (hlookup : w.storage.lookup key = some value) : balance w key = amount value := by
  rw [balance, hlookup]
  rfl

theorem balance_of_none {w : World} {key : Bytes} (hlookup : w.storage.lookup key = none) :
    balance w key = 0 := by
  rw [balance, hlookup]
  rfl

/-- What is under an address or an allowance key is the number that is read there. -/
theorem Formed.numeral {w : World} (hw : Formed w) {key value : Bytes}
    (hkey : key.length ≠ 16) (hlookup : w.storage.lookup key = some value) :
    safeStoi64 value = some (balance w key) ∧ 0 ≤ balance w key := by
  rcases hw key value hlookup with hglobal | ⟨-, n, hnonneg, hvalue⟩
  · exact absurd hglobal hkey
  · rw [balance_of_lookup hlookup, amount_of_safeStoi64 hvalue]
    exact ⟨hvalue, hnonneg⟩

/-- It is read there as well when the string is handed to the host again. -/
theorem Formed.numeral' {w : World} (hw : Formed w) {key value : Bytes}
    (hkey : key.length ≠ 16) (hlookup : w.storage.lookup key = some value) :
    safeStoi64 (toCString value) = some (balance w key) := by
  have hnumeral := (hw.numeral hkey hlookup).1
  rwa [toCString_of_safeStoi64 hnumeral]

theorem Formed.exists_numeral {w : World} (hw : Formed w) {key : Bytes}
    (hkey : key.length ≠ 16) (hpos : 0 < balance w key) :
    ∃ value, w.storage.lookup key = some value ∧
      safeStoi64 (toCString value) = some (balance w key) := by
  cases hlookup : w.storage.lookup key with
  | none => rw [balance_of_none hlookup] at hpos; omega
  | some value => exact ⟨value, rfl, hw.numeral' hkey hlookup⟩

theorem Formed.balance_nonneg {w : World} (hw : Formed w) {key : Bytes}
    (hkey : key.length ≠ 16) : 0 ≤ balance w key := by
  cases hlookup : w.storage.lookup key with
  | none => rw [balance_of_none hlookup]
  | some value => exact (hw.numeral hkey hlookup).2

/-! ## One call -/

theorem compare_pos_iff (m n : ℤ) :
    (if m > n then 1 else if m = n then 0 else -1 : ℤ) > 0 ↔ n < m := by
  split_ifs <;> omega

theorem compare_nonneg_iff (m n : ℤ) :
    (if m > n then 1 else if m = n then 0 else -1 : ℤ) ≥ 0 ↔ n ≤ m := by
  split_ifs <;> omega

theorem safeStoi64_of_check {value : V8Value} (hvalue : stoI64Check value = true) :
    safeStoi64 (toCString (text value)) = some (amount (toCString (text value))) := by
  cases value with
  | string utf8 =>
      obtain ⟨n, hn⟩ := Option.isSome_iff_exists.mp (show (safeStoi64 _).isSome from hvalue)
      rw [text, amount_of_safeStoi64 hn, hn]
  | number utf8 => cases hvalue
  | other => cases hvalue

theorem valid_of_addressCheck {dest : V8Value} (hdest : addressCheck calcHash dest = true) :
    isAddressValid calcHash (toCString (text dest)) = true := by
  cases dest with
  | string utf8 => exact hdest
  | number utf8 => cases hdest
  | other => cases hdest

/-- The storage after a payment: the receiver is written first, and both are written from
balances that have been read before. -/
def paid (payer receiver : Bytes) (v : ℤ) (w : World) : Table Bytes Bytes :=
  (w.storage.insert receiver (toBytes (balance w receiver + v))).insert payer
    (toBytes (balance w payer - v))

/-- A call after which nobody has paid. -/
def Unpaid (w : World) : Except Thrown World → Prop
  | .ok w' => w'.storage = w.storage
  | .error e => e ≠ addOverflow

/-- A call that pays, and `more` is what else it writes. -/
def Paid (payer receiver : Bytes) (v : ℤ) (w : World)
    (more : Table Bytes Bytes → Table Bytes Bytes) (result : Except Thrown World) : Prop :=
  if balance w receiver + v < 2 ^ 63 then
    ∃ w', result = .ok w' ∧ w'.storage = more (paid payer receiver v w)
  else result = .error addOverflow

theorem unpaid_assert {w : World} {p : Prop} [Decidable p] {k : Unit → Except Thrown World}
    (hk : p → Unpaid w (k ())) : Unpaid w (assert p >>= k) := by
  unfold assert
  split_ifs with hp
  · exact hk hp
  · exact nofun

theorem assert_bind {α : Type} {p : Prop} [Decidable p] (hp : p) (k : Unit → Except Thrown α) :
    (assert p >>= k) = k () := by
  rw [assert, if_pos hp]
  rfl

theorem ok_bind {α β : Type} (a : α) (k : α → Except Thrown β) : (Except.ok a >>= k) = k a := rfl

theorem safeStoi64_zero : safeStoi64 (toCString zero) = some 0 := by decide

theorem received_spec {w : World} (hw : Formed w) {dest value : Bytes} {v : ℤ}
    (hdest : (toCString dest).length ≠ 16) (hvalue : safeStoi64 (toCString value) = some v)
    (hv : 0 < v) :
    if balance w (toCString dest) + v < 2 ^ 63 then
      ∃ toValue, received dest value w = .ok toValue ∧
        toCString toValue = toBytes (balance w (toCString dest) + v)
    else received dest value w = .error addOverflow := by
  obtain ⟨hprinted, -, hfits⟩ := safeStoi64_eq_some_iff.mp hvalue
  cases hlookup : w.storage.lookup (toCString dest) with
  | none =>
      rw [balance_of_none hlookup, zero_add, if_pos hfits]
      exact ⟨value, by rw [received, World.storageLoad, hlookup], hprinted⟩
  | some toValue =>
      have hnonneg := (hw.numeral hdest hlookup).2
      have hadd : received dest value w = int64Add toValue value := by
        rw [received, World.storageLoad, hlookup]
      rw [hadd, int64Add_eq (hw.numeral' hdest hlookup) hvalue]
      split_ifs with hsum hlow hlow
      · exact ⟨_, rfl, toCString_toBytes _⟩
      · omega
      · omega
      · rfl

theorem transfer_paid {w : World} (hw : Formed w) (sender : Address calcHash)
    {dest value : V8Value} (hne : sender.val ≠ text dest)
    (hdest : addressCheck calcHash dest = true) (hcovered : Covered w sender.val value) :
    Paid sender.val (toCString (text dest)) (amount (toCString (text value))) w id
      (transfer calcHash sender.val dest value w) := by
  obtain ⟨hcheck, hv, hle⟩ := hcovered
  have hvalue := safeStoi64_of_check hcheck
  have hsender := toCString_of_not_mem sender.2.2
  obtain ⟨senderValue, hlookup, hnumeral⟩ :=
    hw.exists_numeral (length_ne_of_valid sender.2.1) (hv.trans_le hle)
  have hreceived := received_spec hw (length_ne_of_valid (valid_of_addressCheck hdest)) hvalue hv
  unfold transfer Paid
  rw [assert_bind hdest, assert_bind hcheck, int64Compare_eq hvalue safeStoi64_zero, ok_bind,
    assert_bind ((compare_pos_iff _ _).mpr hv), if_neg hne, World.storageLoad, hsender, hlookup]
  simp only
  rw [int64Compare_eq hnumeral hvalue, ok_bind, assert_bind ((compare_nonneg_iff _ _).mpr hle)]
  split_ifs at hreceived ⊢ with hfits
  · obtain ⟨toValue, htoValue, hclean⟩ := hreceived
    rw [htoValue, ok_bind, int64Sub_eq hnumeral hvalue hv.le hle, ok_bind]
    refine ⟨_, rfl, ?_⟩
    simp only [World.tlog, World.storageStore, hclean, hsender, toCString_toBytes, paid, id]
  · rw [hreceived]
    rfl

theorem transfer_unpaid {w : World} (hw : Formed w) (sender : Address calcHash)
    {dest value : V8Value}
    (hunpaid : sender.val ≠ text dest → addressCheck calcHash dest = true →
      ¬ Covered w sender.val value) :
    Unpaid w (transfer calcHash sender.val dest value w) := by
  unfold transfer
  refine unpaid_assert fun hdest => unpaid_assert fun hcheck => ?_
  have hvalue := safeStoi64_of_check hcheck
  rw [int64Compare_eq hvalue safeStoi64_zero, ok_bind]
  refine unpaid_assert fun hv => ?_
  rw [compare_pos_iff] at hv
  split_ifs with hsame
  · rfl
  · rw [World.storageLoad, toCString_of_not_mem sender.2.2]
    cases hlookup : w.storage.lookup sender.val with
    | none => exact nofun
    | some senderValue =>
        have hnumeral := hw.numeral' (length_ne_of_valid sender.2.1) hlookup
        simp only
        rw [int64Compare_eq hnumeral hvalue, ok_bind]
        refine unpaid_assert fun hle => ?_
        exact absurd ⟨hcheck, hv, (compare_nonneg_iff _ _).mp hle⟩ (hunpaid hsame hdest)

variable (calcHash) in
/-- A transfer that is made, unless the balance of the receiver overflows. -/
structure TransferDue (sender : Bytes) (dest value : V8Value) (w : World) : Prop where
  other : sender ≠ text dest
  destChecked : addressCheck calcHash dest = true
  covered : Covered w sender value

theorem transfer_spec {w : World} (hw : Formed w) (sender : Address calcHash)
    (dest value : V8Value) :
    (TransferDue calcHash sender.val dest value w ∧
        Paid sender.val (toCString (text dest)) (amount (toCString (text value))) w id
          (transfer calcHash sender.val dest value w)) ∨
      (¬ TransferDue calcHash sender.val dest value w ∧
        Unpaid w (transfer calcHash sender.val dest value w)) := by
  by_cases hdue : TransferDue calcHash sender.val dest value w
  · exact .inl ⟨hdue, transfer_paid hw sender hdue.other hdue.destChecked hdue.covered⟩
  · exact .inr ⟨hdue, transfer_unpaid hw sender fun hother hdest hcovered =>
      hdue ⟨hother, hdest, hcovered⟩⟩

theorem allowance_eq {w : World} (owner spender : V8Value)
    (howner : addressCheck calcHash owner = true)
    (hspender : addressCheck calcHash spender = true) :
    allowance calcHash owner spender w =
      ((w.storageLoad (makeAllowanceKey (text owner) (text spender))).elim
        (.error .assertion) .ok) := by
  unfold allowance
  rw [assert_bind howner, assert_bind hspender]
  cases w.storageLoad (makeAllowanceKey (text owner) (text spender)) <;> rfl

theorem Address.addressCheck (spender : Address calcHash) :
    addressCheck calcHash (.string spender.val) = true := by
  rw [Token.addressCheck, toCString_of_not_mem spender.2.2, spender.2.1]

theorem transferFrom_paid {w : World} (hw : Formed w) (sender : Address calcHash)
    {owner dest value : V8Value} (hne : text owner ≠ text dest) (hclean : 0 ∉ text owner)
    (howner : addressCheck calcHash owner = true) (hdest : addressCheck calcHash dest = true)
    (hcovered : Covered w (text owner) value)
    (hallowed : amount (toCString (text value)) ≤
      balance w (makeAllowanceKey (text owner) sender.val)) :
    Paid (text owner) (toCString (text dest)) (amount (toCString (text value))) w
      (fun storage => storage.insert (makeAllowanceKey (text owner) sender.val)
        (toBytes (balance w (makeAllowanceKey (text owner) sender.val) -
          amount (toCString (text value)))))
      (transferFrom calcHash sender.val owner dest value w) := by
  obtain ⟨hcheck, hv, hle⟩ := hcovered
  have hvalue := safeStoi64_of_check hcheck
  have hpayer := toCString_of_not_mem hclean
  have hvalid : isAddressValid calcHash (text owner) = true := by
    rw [← hpayer]
    exact valid_of_addressCheck howner
  have hkey := toCString_of_not_mem (zero_not_mem_allowanceKey hclean sender.2.2)
  obtain ⟨fromValue, hlookup, hnumeral⟩ :=
    hw.exists_numeral (length_ne_of_valid hvalid) (hv.trans_le hle)
  obtain ⟨allowValue, hallow, hallowNumeral⟩ :=
    hw.exists_numeral (by rw [length_makeAllowanceKey hvalid sender.2.1]; decide)
      (hv.trans_le hallowed)
  have hreceived := received_spec hw (length_ne_of_valid (valid_of_addressCheck hdest)) hvalue hv
  unfold transferFrom Paid
  rw [assert_bind howner, assert_bind hdest, assert_bind hcheck,
    int64Compare_eq hvalue safeStoi64_zero, ok_bind,
    assert_bind ((compare_pos_iff _ _).mpr hv), if_neg hne, World.storageLoad, hpayer, hlookup]
  simp only
  rw [int64Compare_eq hnumeral hvalue, ok_bind, assert_bind ((compare_nonneg_iff _ _).mpr hle),
    allowance_eq owner _ howner sender.addressCheck, World.storageLoad, text, hkey, hallow]
  simp only [Option.elim]
  rw [ok_bind, int64Compare_eq hallowNumeral hvalue, ok_bind,
    assert_bind ((compare_nonneg_iff _ _).mpr hallowed)]
  split_ifs at hreceived ⊢ with hfits
  · obtain ⟨toValue, htoValue, hwritten⟩ := hreceived
    rw [htoValue, ok_bind, int64Sub_eq hnumeral hvalue hv.le hle, ok_bind,
      int64Sub_eq hallowNumeral hvalue hv.le hallowed, ok_bind]
    refine ⟨_, rfl, ?_⟩
    simp only [World.tlog, World.storageStore, hwritten, hpayer, hkey, toCString_toBytes, paid]
  · rw [hreceived]
    rfl

theorem transferFrom_unpaid {w : World} (hw : Formed w) (sender : Address calcHash)
    {owner dest value : V8Value}
    (hunpaid : text owner ≠ text dest → 0 ∉ text owner → addressCheck calcHash owner = true →
      addressCheck calcHash dest = true → Covered w (text owner) value →
      ¬ amount (toCString (text value)) ≤
        balance w (makeAllowanceKey (text owner) sender.val)) :
    Unpaid w (transferFrom calcHash sender.val owner dest value w) := by
  unfold transferFrom
  refine unpaid_assert fun howner => unpaid_assert fun hdest => unpaid_assert fun hcheck => ?_
  have hvalue := safeStoi64_of_check hcheck
  have hvalid := valid_of_addressCheck howner
  rw [int64Compare_eq hvalue safeStoi64_zero, ok_bind]
  refine unpaid_assert fun hv => ?_
  rw [compare_pos_iff] at hv
  split_ifs with hsame
  · rfl
  rw [World.storageLoad]
  cases hlookup : w.storage.lookup (toCString (text owner)) with
  | none => exact nofun
  | some fromValue =>
      simp only
      rw [int64Compare_eq (hw.numeral' (length_ne_of_valid hvalid) hlookup) hvalue, ok_bind]
      refine unpaid_assert fun hle => ?_
      rw [allowance_eq owner _ howner sender.addressCheck, World.storageLoad, text]
      cases hallow : w.storage.lookup
          (toCString (makeAllowanceKey (text owner) sender.val)) with
      | none => exact nofun
      | some allowValue =>
          -- a key that has been cut is never in the storage
          have hclean : 0 ∉ text owner := by
            intro hmem
            rw [toCString_makeAllowanceKey_of_mem hmem] at hallow
            rcases hw _ _ hallow with hlength | ⟨hlength | hlength, -⟩ <;>
              simp [length_of_valid hvalid] at hlength
          rw [toCString_of_not_mem hclean] at hvalid hlookup hle
          rw [toCString_of_not_mem (zero_not_mem_allowanceKey hclean sender.2.2)] at hallow
          have hlong : (makeAllowanceKey (text owner) sender.val).length ≠ 16 := by
            rw [length_makeAllowanceKey hvalid sender.2.1]
            decide
          simp only [Option.elim]
          rw [ok_bind, int64Compare_eq (hw.numeral' hlong hallow) hvalue, ok_bind]
          refine unpaid_assert fun hallowed => ?_
          rw [compare_nonneg_iff] at hle hallowed
          exact absurd hallowed (hunpaid hsame hclean howner hdest ⟨hcheck, hv, hle⟩)

variable (calcHash) in
/-- A transfer for the owner that is made, unless the balance of the receiver overflows. -/
structure TransferFromDue (sender : Bytes) (owner dest value : V8Value) (w : World) : Prop where
  other : text owner ≠ text dest
  clean : 0 ∉ text owner
  ownerChecked : addressCheck calcHash owner = true
  destChecked : addressCheck calcHash dest = true
  covered : Covered w (text owner) value
  allowed : amount (toCString (text value)) ≤
    balance w (makeAllowanceKey (text owner) sender)

theorem transferFrom_spec {w : World} (hw : Formed w) (sender : Address calcHash)
    (owner dest value : V8Value) :
    (TransferFromDue calcHash sender.val owner dest value w ∧
        Paid (text owner) (toCString (text dest)) (amount (toCString (text value))) w
          (fun storage => storage.insert (makeAllowanceKey (text owner) sender.val)
            (toBytes (balance w (makeAllowanceKey (text owner) sender.val) -
              amount (toCString (text value)))))
          (transferFrom calcHash sender.val owner dest value w)) ∨
      (¬ TransferFromDue calcHash sender.val owner dest value w ∧
        Unpaid w (transferFrom calcHash sender.val owner dest value w)) := by
  by_cases hdue : TransferFromDue calcHash sender.val owner dest value w
  · exact .inl ⟨hdue, transferFrom_paid hw sender hdue.other hdue.clean hdue.ownerChecked
      hdue.destChecked hdue.covered hdue.allowed⟩
  · exact .inr ⟨hdue, transferFrom_unpaid hw sender
      fun hother hclean howner hdest hcovered hallowed =>
        hdue ⟨hother, hclean, howner, hdest, hcovered, hallowed⟩⟩

variable (calcHash) in
/-- An approval that succeeds. -/
structure Approved (owner : Bytes) (spender value : V8Value) (w w' : World) : Prop where
  valid : isAddressValid calcHash (toCString (text spender)) = true
  check : stoI64Check value = true
  pos : 0 < amount (toCString (text value))
  storage : w'.storage =
    w.storage.insert (makeAllowanceKey owner (toCString (text spender))) (toCString (text value))

theorem approve_spec (sender : Address calcHash) (spender value : V8Value) (w : World) :
    (∃ e, e ≠ addOverflow ∧ approve calcHash sender.val spender value w = .error e) ∨
      ∃ w', approve calcHash sender.val spender value w = .ok w' ∧
        Approved calcHash sender.val spender value w w' := by
  have hassert : Thrown.assertion ≠ addOverflow := fun h => by cases h
  unfold approve
  by_cases hspender : addressCheck calcHash spender = true
  · by_cases hcheck : stoI64Check value = true
    · rw [assert_bind hspender, assert_bind hcheck,
        int64Compare_eq (safeStoi64_of_check hcheck) safeStoi64_zero, ok_bind]
      by_cases hv : 0 < amount (toCString (text value))
      · rw [assert_bind ((compare_pos_iff _ _).mpr hv)]
        refine .inr ⟨_, rfl, valid_of_addressCheck hspender, hcheck, hv, ?_⟩
        simp only [World.tlog, World.storageStore, toCString_makeAllowanceKey sender.2.2]
      · refine .inl ⟨_, hassert, ?_⟩
        rw [assert, if_neg (by rwa [compare_pos_iff])]
        rfl
    · refine .inl ⟨_, hassert, ?_⟩
      rw [assert_bind hspender, assert, if_neg hcheck]
      rfl
  · refine .inl ⟨_, hassert, ?_⟩
    rw [assert, if_neg hspender]
    rfl

/-! ## What a call does to the books -/

theorem weight_eq_balance {w : World} {key : Bytes} (hkey : isAddressValid calcHash key = true) :
    weight (weigh calcHash) w.storage key = balance w key := by
  unfold weight balance
  cases w.storage.lookup key with
  | none => rfl
  | some value => exact if_pos hkey

theorem Formed.weigh_nonneg {w : World} (hw : Formed w) (key value : Bytes)
    (hlookup : w.storage.lookup key = some value) : 0 ≤ weigh calcHash key value := by
  unfold weigh
  split_ifs with hkey
  · rw [← balance_of_lookup hlookup]
    exact hw.balance_nonneg (length_ne_of_valid hkey)
  · rfl

/-- Two balances are a part of the whole. -/
theorem Formed.balance_add_le {w : World} (hw : Formed w) {payer receiver : Bytes}
    (hpayer : isAddressValid calcHash payer = true)
    (hreceiver : isAddressValid calcHash receiver = true) (hne : receiver ≠ payer) :
    balance w payer + balance w receiver ≤ totalBalance calcHash w := by
  rw [← weight_eq_balance hpayer, ← weight_eq_balance hreceiver]
  exact weight_add_weight_le_total hne hw.weigh_nonneg

theorem Formed.balance_le {w : World} (hw : Formed w) {payer : Bytes}
    (hpayer : isAddressValid calcHash payer = true) :
    balance w payer ≤ totalBalance calcHash w := by
  rw [← weight_eq_balance hpayer]
  exact weight_le_total _ hw.weigh_nonneg

theorem Formed.paid {w : World} (hw : Formed w) {payer receiver : Bytes} {v : ℤ}
    (hpayer : isAddressValid calcHash payer = true)
    (hreceiver : isAddressValid calcHash receiver = true) (hv : 0 < v)
    (hle : v ≤ balance w payer) (hfits : balance w receiver + v < 2 ^ 63)
    (hpays : balance w payer < 2 ^ 63) :
    ∀ key value, (paid payer receiver v w).lookup key = some value → WellKept key value := by
  have hnonneg := hw.balance_nonneg (length_ne_of_valid hreceiver)
  refine forall_lookup_insert (forall_lookup_insert hw ?_) ?_
  · exact wellKept_toBytes (.inl (length_of_valid hreceiver)) (by omega) hfits
  · exact wellKept_toBytes (.inl (length_of_valid hpayer)) (by omega) (by omega)

/-- A payment to another account moves what is paid, and one to the payer destroys it. -/
theorem total_paid {w : World} (hw : Formed w) {payer receiver : Bytes} {v : ℤ}
    (hpayer : isAddressValid calcHash payer = true)
    (hreceiver : isAddressValid calcHash receiver = true) (hv : 0 < v)
    (hle : v ≤ balance w payer) (hfits : balance w receiver + v < 2 ^ 63)
    (hpays : balance w payer < 2 ^ 63) :
    total (weigh calcHash) (paid payer receiver v w) =
      totalBalance calcHash w - if receiver = payer then v else 0 := by
  have hnonneg := hw.balance_nonneg (length_ne_of_valid hreceiver)
  have hweigh : ∀ key n, isAddressValid calcHash key = true → 0 ≤ n → n < 2 ^ 63 →
      weigh calcHash key (toBytes n) = n := by
    intro key n hkey hlow hhigh
    rw [weigh, if_pos hkey, amount_toBytes hlow hhigh]
  have hfirst : weigh calcHash receiver (toBytes (balance w receiver + v)) =
      balance w receiver + v := hweigh _ _ hreceiver (by omega) hfits
  have hsecond : weigh calcHash payer (toBytes (balance w payer - v)) = balance w payer - v :=
    hweigh _ _ hpayer (by omega) (by omega)
  rw [paid, total_insert, total_insert, weight_eq_balance hreceiver, hfirst, hsecond]
  by_cases hsame : receiver = payer
  · subst hsame
    rw [if_pos rfl, weight_of_lookup (AList.lookup_insert _), hfirst]
    change totalBalance calcHash w - _ + _ - _ + _ = _
    ring
  · have hkept : weight (weigh calcHash) (w.storage.insert receiver
        (toBytes (balance w receiver + v))) payer = balance w payer := by
      rw [← weight_eq_balance hpayer, weight, weight, lookup_insert_eq, if_neg (Ne.symm hsame)]
    rw [if_neg hsame, hkept]
    change totalBalance calcHash w - _ + _ - _ + _ = _
    ring

theorem not_valid_of_length {key : Bytes} (hkey : key.length = 82) :
    ¬ isAddressValid calcHash key = true := fun hvalid => by
  rw [length_of_valid hvalid] at hkey
  cases hkey

/-- An allowance is no balance. -/
theorem total_insert_allowance {storage : Table Bytes Bytes} {key : Bytes}
    (hkey : key.length = 82) (value : Bytes) :
    total (weigh calcHash) (storage.insert key value) = total (weigh calcHash) storage := by
  have hweigh : ∀ value, weigh calcHash key value = 0 := fun value =>
    if_neg (not_valid_of_length hkey)
  have hweight : weight (weigh calcHash) storage key = 0 := by
    unfold weight
    cases storage.lookup key with
    | none => rfl
    | some value => exact hweigh value
  rw [total_insert, hweight, hweigh]
  ring

/-- What else a payment writes: nothing, or an allowance. -/
def Notes (more : Table Bytes Bytes → Table Bytes Bytes) : Prop :=
  more = id ∨ ∃ (key : Bytes) (n : ℤ), key.length = 82 ∧ 0 ≤ n ∧ n < 2 ^ 63 ∧
    more = fun storage => storage.insert key (toBytes n)

theorem Notes.wellKept {more : Table Bytes Bytes → Table Bytes Bytes} (hmore : Notes more)
    {storage : Table Bytes Bytes}
    (hstorage : ∀ key value, storage.lookup key = some value → WellKept key value) :
    ∀ key value, (more storage).lookup key = some value → WellKept key value := by
  rcases hmore with rfl | ⟨key, n, hkey, hlow, hhigh, rfl⟩
  · exact hstorage
  · exact forall_lookup_insert hstorage (wellKept_toBytes (.inr hkey) hlow hhigh)

theorem Notes.total {more : Table Bytes Bytes → Table Bytes Bytes} (hmore : Notes more)
    (storage : Table Bytes Bytes) :
    total (weigh calcHash) (more storage) = Totals.total (weigh calcHash) storage := by
  rcases hmore with rfl | ⟨key, n, hkey, -, -, rfl⟩
  · rfl
  · exact total_insert_allowance hkey _

/-- What a call does to the books: they stay formed, and the total stays exactly when
nobody pays himself under another name. -/
structure Call.Keeps (call : Call calcHash) (w : World) (result : Except Thrown World) :
    Prop where
  formed : ∀ w', result = .ok w' → Formed w'
  noOverflow : ¬ call.Aliased w → result ≠ .error addOverflow
  total : ∀ w', result = .ok w' →
    (totalBalance calcHash w' = totalBalance calcHash w ↔ ¬ call.Aliased w)
  paid : call.Aliased w → result ≠ .error addOverflow → ∃ w', result = .ok w'

theorem Call.Keeps.of_unpaid {call : Call calcHash} {w : World} {result : Except Thrown World}
    (hw : Formed w) (hunpaid : Unpaid w result) (hplain : ¬ call.Aliased w) :
    call.Keeps w result where
  formed w' hok := by
    rw [hok] at hunpaid
    rwa [Formed, show w'.storage = w.storage from hunpaid]
  noOverflow _ hthrown := by
    rw [hthrown] at hunpaid
    exact hunpaid rfl
  total w' hok := by
    rw [hok] at hunpaid
    rw [totalBalance, show w'.storage = w.storage from hunpaid]
    exact iff_of_true rfl hplain
  paid haliased := absurd haliased hplain

theorem Call.Keeps.of_paid {call : Call calcHash} {w : World} {result : Except Thrown World}
    {payer receiver : Bytes} {v : ℤ} {more : Table Bytes Bytes → Table Bytes Bytes}
    (hw : Formed w) (hfits : totalBalance calcHash w < 2 ^ 63)
    (hpayer : isAddressValid calcHash payer = true)
    (hreceiver : isAddressValid calcHash receiver = true) (hv : 0 < v)
    (hle : v ≤ balance w payer) (hmore : Notes more)
    (hpaid : Paid payer receiver v w more result)
    (hplain : call.Aliased w ↔ receiver = payer) : call.Keeps w result := by
  have hpays : balance w payer < 2 ^ 63 := (hw.balance_le hpayer).trans_lt hfits
  unfold Paid at hpaid
  split_ifs at hpaid with hsum
  · obtain ⟨w', rfl, hstorage⟩ := hpaid
    refine ⟨?_, ?_, ?_, ?_⟩
    · intro _ hok
      obtain rfl := Except.ok.inj hok
      rw [Formed, hstorage]
      exact hmore.wellKept (hw.paid hpayer hreceiver hv hle hsum hpays)
    · exact nofun
    · intro _ hok
      obtain rfl := Except.ok.inj hok
      rw [hplain, totalBalance, hstorage, hmore.total,
        total_paid hw hpayer hreceiver hv hle hsum hpays]
      split_ifs with hsame
      · exact iff_of_false (by omega) (not_not_intro hsame)
      · exact iff_of_true (by omega) hsame
    · exact fun _ _ => ⟨w', rfl⟩
  · subst hpaid
    refine ⟨nofun, ?_, nofun, fun _ h => absurd rfl h⟩
    -- both balances are a part of the supply, which fits
    intro hother
    have hadd := hw.balance_add_le hpayer hreceiver (mt hplain.mpr hother)
    omega

theorem Call.keeps {w : World} (hw : Formed w) (hfits : totalBalance calcHash w < 2 ^ 63)
    (call : Call calcHash) : call.Keeps w (call.main w) := by
  obtain ⟨sender, method⟩ := call
  cases method with
  | transfer dest value =>
      rcases transfer_spec hw sender dest value with ⟨hdue, hpaid⟩ | ⟨hdue, hunpaid⟩
      · obtain ⟨hne, hdest, hcovered⟩ := hdue
        refine .of_paid hw hfits sender.2.1 (valid_of_addressCheck hdest) hcovered.2.1
          hcovered.2.2 (.inl rfl) hpaid ?_
        exact ⟨fun haliased => haliased.2.1, fun hsame => ⟨hne, hsame, hdest, hcovered⟩⟩
      · refine .of_unpaid hw hunpaid fun haliased => ?_
        obtain ⟨hne, -, hdest, hcovered⟩ := haliased
        exact hdue ⟨hne, hdest, hcovered⟩
  | transferFrom owner dest value =>
      rcases transferFrom_spec hw sender owner dest value with ⟨hdue, hpaid⟩ | ⟨hdue, hunpaid⟩
      · obtain ⟨hne, hclean, howner, hdest, hcovered, hallowed⟩ := hdue
        have hvalid := valid_of_addressCheck howner
        rw [toCString_of_not_mem hclean] at hvalid
        have hkey := length_makeAllowanceKey hvalid sender.2.1
        refine .of_paid hw hfits hvalid (valid_of_addressCheck hdest) hcovered.2.1
          hcovered.2.2 (.inr ⟨_, _, hkey, sub_nonneg.mpr hallowed, ?_, rfl⟩) hpaid ?_
        · obtain ⟨_, _, hnumeral⟩ :=
            hw.exists_numeral (by omega) (hcovered.2.1.trans_le hallowed)
          have hhigh := (safeStoi64_eq_some_iff.mp hnumeral).2.2
          have hv := hcovered.2.1
          omega
        · exact ⟨fun haliased => haliased.2.1, fun hsame =>
            ⟨hne, hsame, howner, hdest, hcovered, hallowed⟩⟩
      · refine .of_unpaid hw hunpaid fun haliased => ?_
        obtain ⟨hne, hsame, howner, hdest, hcovered, hallowed⟩ := haliased
        have hclean : 0 ∉ text owner := hsame ▸ zero_not_mem_toCString _
        exact hdue ⟨hne, hclean, howner, hdest, hcovered, hallowed⟩
  | approve spender value =>
      rcases approve_spec sender spender value w with ⟨e, he, hthrown⟩ | ⟨w', hok, happroved⟩
      · have hmain : Call.main ⟨sender, .approve spender value⟩ w = .error e := hthrown
        rw [hmain]
        exact .of_unpaid hw he id
      · have hmain : Call.main ⟨sender, .approve spender value⟩ w = .ok w' := hok
        have hkey := length_makeAllowanceKey sender.2.1 happroved.valid
        have hvalue := safeStoi64_of_check happroved.check
        rw [hmain]
        refine ⟨?_, nofun, ?_, fun _ _ => ⟨w', rfl⟩⟩
        · intro _ h
          obtain rfl := Except.ok.inj h
          rw [Formed, happroved.storage]
          exact forall_lookup_insert hw (.inr ⟨.inr hkey, _, happroved.pos.le, hvalue⟩)
        · intro _ h
          obtain rfl := Except.ok.inj h
          rw [totalBalance, happroved.storage, total_insert_allowance hkey]
          exact iff_of_true rfl id

/-! ## Allowances -/

theorem makeAllowanceKey_injective {owner owner' spender spender' : Bytes}
    (hlength : owner.length = owner'.length)
    (hkey : makeAllowanceKey owner spender = makeAllowanceKey owner' spender') :
    owner = owner' ∧ spender = spender' := by
  simp only [makeAllowanceKey, List.append_assoc] at hkey
  obtain ⟨howner, hrest⟩ := List.append_inj (List.append_cancel_left hkey) hlength
  exact ⟨howner, List.append_cancel_left hrest⟩

theorem Paid.storage {payer receiver : Bytes} {v : ℤ} {w w' : World}
    {more : Table Bytes Bytes → Table Bytes Bytes}
    (hpaid : Paid payer receiver v w more (.ok w')) :
    w'.storage = more (paid payer receiver v w) := by
  unfold Paid at hpaid
  split_ifs at hpaid
  obtain ⟨_, hok, hstorage⟩ := hpaid
  rw [Except.ok.inj hok, hstorage]

theorem lookup_paid {payer receiver key : Bytes} (v : ℤ) (w : World)
    (hpayer : payer.length = 36) (hreceiver : receiver.length = 36) (hkey : key.length = 82) :
    (paid payer receiver v w).lookup key = w.storage.lookup key := by
  have hne : ∀ address : Bytes, address.length = 36 → key ≠ address := by
    rintro _ hlength rfl
    omega
  rw [paid, lookup_insert_eq, if_neg (hne _ hpayer), lookup_insert_eq,
    if_neg (hne _ hreceiver)]

/-- What is left of what has been granted is under the key. -/
def Allowed (owner spender : Bytes) (w : World) (granted : Option (ℤ × ℤ)) : Prop :=
  (w.storage.lookup (makeAllowanceKey owner spender)).map amount = granted.map fun g => g.1 - g.2

theorem Allowed.of_lookup {owner spender : Bytes} {w w' : World} {granted : Option (ℤ × ℤ)}
    (hallowed : Allowed owner spender w granted)
    (hlookup : w'.storage.lookup (makeAllowanceKey owner spender) =
      w.storage.lookup (makeAllowanceKey owner spender)) : Allowed owner spender w' granted := by
  unfold Allowed at *
  rw [hlookup, hallowed]

/-- What a spender moves is taken from the allowance. -/
theorem Allowed.move {owner spender : Bytes} {w w' : World} {granted : Option (ℤ × ℤ)} {v : ℤ}
    (hallowed : Allowed owner spender w granted)
    (hmoved : balance w owner - balance w' owner = v)
    (hlookup : (w'.storage.lookup (makeAllowanceKey owner spender)).map amount =
      ((w.storage.lookup (makeAllowanceKey owner spender)).map amount).map (· - v)) :
    Allowed owner spender w'
      (granted.map fun g => (g.1, g.2 + (balance w owner - balance w' owner))) := by
  unfold Allowed at *
  rw [hlookup, hallowed, hmoved]
  cases granted with
  | none => rfl
  | some g => simp [sub_sub]

theorem Call.allowed {w w' : World} (hw : Formed w) {call : Call calcHash}
    (hok : call.main w = .ok w') (owner spender : Address calcHash)
    {granted : Option (ℤ × ℤ)} (hallowed : Allowed owner.val spender.val w granted) :
    Allowed owner.val spender.val w' (call.grant owner.val spender.val w w' granted) := by
  obtain ⟨sender, method⟩ := call
  have hkey := length_makeAllowanceKey owner.2.1 spender.2.1
  cases method with
  | transfer dest value =>
      refine hallowed.of_lookup ?_
      have hspec := transfer_spec hw sender dest value
      rw [show transfer calcHash sender.val dest value w = .ok w' from hok] at hspec
      rcases hspec with ⟨hdue, hpaid⟩ | ⟨-, hunpaid⟩
      · rw [hpaid.storage]
        exact lookup_paid _ _ (length_of_valid sender.2.1)
          (length_of_valid (valid_of_addressCheck hdue.destChecked)) hkey
      · rw [show w'.storage = w.storage from hunpaid]
  | transferFrom payer dest value =>
      have hspec := transferFrom_spec hw sender payer dest value
      rw [show transferFrom calcHash sender.val payer dest value w = .ok w' from hok] at hspec
      rcases hspec with ⟨hdue, hpaid⟩ | ⟨-, hunpaid⟩
      · obtain ⟨-, hclean, hpayer, hdest, hcovered, hcovers⟩ := hdue
        have hvalid := valid_of_addressCheck hpayer
        rw [toCString_of_not_mem hclean] at hvalid
        have hmine' := length_makeAllowanceKey hvalid sender.2.1
        have hnumber : ∀ {key : Bytes}, key.length ≠ 16 →
            amount (toCString (text value)) ≤ balance w key →
            amount (toBytes (balance w key - amount (toCString (text value)))) =
              balance w key - amount (toCString (text value)) := by
          intro key hlength hle
          obtain ⟨_, -, hnumeral⟩ := hw.exists_numeral hlength (hcovered.2.1.trans_le hle)
          have hhigh := (safeStoi64_eq_some_iff.mp hnumeral).2.2
          have hv := hcovered.2.1
          exact amount_toBytes (by omega) (by omega)
        unfold Call.grant
        simp only
        split_ifs with hmine
        · obtain ⟨hspender, howner⟩ := hmine
          rw [toCString_of_not_mem hclean] at howner
          rw [← howner, ← hspender] at hallowed ⊢
          refine hallowed.move (v := amount (toCString (text value))) ?_ ?_
          · have hafter : w'.storage.lookup (text payer) =
                some (toBytes (balance w (text payer) - amount (toCString (text value)))) := by
              rw [hpaid.storage, lookup_insert_eq, if_neg, paid, AList.lookup_insert]
              intro hsame
              rw [← hsame, length_of_valid hvalid] at hmine'
              cases hmine'
            rw [balance_of_lookup hafter, hnumber (length_ne_of_valid hvalid) hcovered.2.2]
            ring
          · obtain ⟨allowValue, hlookup, -⟩ :=
              hw.exists_numeral (by omega) (hcovered.2.1.trans_le hcovers)
            rw [hpaid.storage, AList.lookup_insert, hlookup, Option.map_some, Option.map_some,
              Option.map_some, hnumber (by omega) hcovers, balance_of_lookup hlookup]
        · refine hallowed.of_lookup ?_
          rw [hpaid.storage, lookup_insert_eq, if_neg]
          · exact lookup_paid _ _ (length_of_valid hvalid)
              (length_of_valid (valid_of_addressCheck hdest)) hkey
          · intro hsame
            obtain ⟨howner, hspender⟩ := makeAllowanceKey_injective
              (by rw [length_of_valid hvalid, length_of_valid owner.2.1]) hsame.symm
            exact hmine ⟨hspender, by rw [toCString_of_not_mem hclean, howner]⟩
      · have hstorage : w'.storage = w.storage := hunpaid
        have hmoved : balance w owner.val - balance w' owner.val = 0 := by
          rw [balance, balance, hstorage, sub_self]
        unfold Call.grant
        simp only
        split_ifs with hmine
        · refine hallowed.move hmoved ?_
          rw [hstorage]
          cases w.storage.lookup (makeAllowanceKey owner.val spender.val) <;> simp
        · exact hallowed.of_lookup (by rw [hstorage])
  | approve spender' value =>
      rcases approve_spec sender spender' value w with ⟨e, -, hthrown⟩ | ⟨w'', hok', happroved⟩
      · cases hthrown.symm.trans hok
      · obtain rfl : w'' = w' := Except.ok.inj (hok'.symm.trans hok)
        unfold Call.grant
        simp only
        split_ifs with hmine
        · obtain ⟨hsender, hspender⟩ := hmine
          rw [Allowed, happroved.storage, hsender, hspender, AList.lookup_insert]
          simp
        · refine hallowed.of_lookup ?_
          rw [happroved.storage, lookup_insert_eq, if_neg]
          intro hsame
          refine hmine (makeAllowanceKey_injective ?_ hsame.symm)
          rw [length_of_valid sender.2.1, length_of_valid owner.2.1]

/-! ## Whole runs -/

theorem run_append (w : World) (before : List (Call calcHash)) (call : Call calcHash) :
    run w (before ++ [call]) = step (run w before) call := by
  rw [run, List.foldl_append]
  rfl

theorem granted_append (owner spender : Bytes) (w : World) (g : Option (ℤ × ℤ))
    (before : List (Call calcHash)) (call : Call calcHash) :
    granted owner spender w g (before ++ [call]) =
      match call.main (run w before) with
      | .ok w' => call.grant owner spender (run w before) w' (granted owner spender w g before)
      | .error _ => granted owner spender w g before := by
  induction before generalizing w g with
  | nil =>
      simp only [List.nil_append, granted, run, List.foldl_nil]
  | cons first before ih =>
      rw [List.cons_append]
      simp only [granted, run, List.foldl_cons, step]
      cases first.main w with
      | ok w' => exact ih w' _
      | error e => exact ih w _

theorem forall_prefix {p : List (Call calcHash) → Prop} {calls : List (Call calcHash)}
    (hnil : p [])
    (hstep : ∀ before call, before ++ [call] <+: calls → p before → p (before ++ [call])) :
    ∀ before, before <+: calls → p before := by
  intro before
  induction before using List.reverseRecOn with
  | nil => exact fun _ => hnil
  | append_singleton before call ih =>
      exact fun hbefore => hstep _ _ hbefore (ih ((List.prefix_append _ _).trans hbefore))

theorem Call.Keeps.formed_step {call : Call calcHash} {w : World} (hw : Formed w)
    (hkeeps : call.Keeps w (call.main w)) : Formed (step w call) := by
  unfold step
  cases hmain : call.main w with
  | ok w' => exact hkeeps.formed w' hmain
  | error e => exact hw

theorem Call.Keeps.total_step {call : Call calcHash} {w : World}
    (hkeeps : call.Keeps w (call.main w)) (hplain : ¬ call.Aliased w) :
    totalBalance calcHash (step w call) = totalBalance calcHash w := by
  unfold step
  cases hmain : call.main w with
  | ok w' => exact (hkeeps.total w' hmain).mpr hplain
  | error e => rfl

theorem allowed_run {start : World} {calls : List (Call calcHash)}
    {owner spender : Address calcHash}
    (hstart : Allowed owner.val spender.val start none)
    (hformed : ∀ before, before <+: calls → Formed (run start before)) :
    ∀ before, before <+: calls → Allowed owner.val spender.val (run start before)
      (granted owner.val spender.val start none before) := by
  refine forall_prefix hstart fun before call hbefore hallowed => ?_
  have hw := hformed before ((List.prefix_append _ _).trans hbefore)
  rw [granted_append, run_append, step]
  cases hmain : call.main (run start before) with
  | ok w' => exact call.allowed hw hmain owner spender hallowed
  | error e => exact hallowed

variable (calcHash) in
/-- The books that a token starts with. -/
structure Opened (supply : ℤ) (start : World) : Prop where
  formed : Formed start
  total : totalBalance calcHash start = supply
  fits : supply < 2 ^ 63
  none : ∀ key : Bytes, key.length = 82 → start.storage.lookup key = none

theorem opened_init {stringify : GlobalAttribute → Bytes} {creator : Address calcHash}
    {params : Params} {start : World} (hinit : init stringify creator.val params = .ok start) :
    Opened calcHash (amount (text params.totalSupply)) start := by
  unfold init assert at hinit
  split_ifs at hinit with hargs
  swap
  · cases hinit
  obtain ⟨hcheck, ⟨hclean, hpos⟩, -⟩ := hargs
  have hcreator := toCString_of_not_mem creator.2.2
  have hlength := length_of_valid creator.2.1
  have hglobal : toCString globalAttributeKey = globalAttributeKey := by decide
  have hvalue := safeStoi64_of_check hcheck
  rw [toCString_of_not_mem hclean] at hvalue
  rw [hvalue] at hpos
  obtain ⟨attributes, hstorage⟩ : ∃ attributes : Bytes, start.storage =
      ((∅ : Table Bytes Bytes).insert globalAttributeKey attributes).insert creator.val
        (text params.totalSupply) := by
    have hstored : ∀ attributes, ((World.storageStore globalAttributeKey attributes {}).storageStore
        creator.val (text params.totalSupply)).storage =
          ((∅ : Table Bytes Bytes).insert globalAttributeKey (toCString attributes)).insert
            creator.val (text params.totalSupply) := fun attributes => by
      simp only [World.storageStore, hcreator, hglobal, toCString_of_not_mem hclean]
    rw [← Except.ok.inj hinit]
    exact ⟨_, hstored _⟩
  have hkeys : globalAttributeKey ≠ creator.val := fun hsame => by
    rw [← hsame] at hlength
    cases hlength
  refine ⟨?_, ?_, (safeStoi64_eq_some_iff.mp hvalue).2.2, ?_⟩
  · rw [Formed, hstorage]
    refine forall_lookup_insert (forall_lookup_insert (fun key value h => by cases h) (.inl rfl)) ?_
    exact .inr ⟨.inl hlength, _, le_of_lt hpos, hvalue⟩
  · have hattributes : ∀ value, weigh calcHash globalAttributeKey value = 0 := fun value =>
      if_neg fun hvalid => length_ne_of_valid hvalid rfl
    have hnone : ((∅ : Table Bytes Bytes).insert globalAttributeKey attributes).lookup
        creator.val = none := by
      rw [lookup_insert_eq, if_neg hkeys.symm]
      rfl
    rw [totalBalance, hstorage, total_insert, weight_of_none hnone, total_insert, hattributes,
      weigh, if_pos creator.2.1, weight_of_none rfl, total_empty]
    ring
  · intro key hkey
    rw [hstorage, lookup_insert_eq, if_neg, lookup_insert_eq, if_neg]
    · rfl
    · rintro rfl
      cases hkey
    · rintro rfl
      omega

variable (stringify : GlobalAttribute → Bytes)

/-- **The books of a token.**  After `init`, whatever is called: the balances add up to the
supply, none is negative, no addition overflows and an allowance is what was approved last
less what has been moved since, exactly when no call pays, out of a balance that covers it,
to a receiver that differs from the payer as a string but not as a key. -/
theorem token_sound_iff (creator : Address calcHash) (params : Params) (start : World)
    (hinit : init stringify creator.val params = .ok start) (calls : List (Call calcHash)) :
    Sound (amount (text params.totalSupply)) start calls ↔
      ∀ before call, before ++ [call] <+: calls → ¬ call.Aliased (run start before) := by
  obtain ⟨hformed, htotal, hfits, hnone⟩ := opened_init hinit
  constructor
  · intro hsound before call hbefore haliased
    have hw : ∀ before, before <+: calls → Formed (run start before) := by
      refine forall_prefix hformed fun before call hbefore hw => ?_
      have hsupply := hsound.supply before ((List.prefix_append _ _).trans hbefore)
      rw [run_append]
      exact (call.keeps hw (hsupply ▸ hfits)).formed_step hw
    have hpart := (List.prefix_append _ _).trans hbefore
    have hsupply := hsound.supply before hpart
    have hkeeps := call.keeps (hw before hpart) (hsupply ▸ hfits)
    obtain ⟨w', hmain⟩ := hkeeps.paid haliased (hsound.noOverflow before call hbefore)
    -- the call succeeds, and the total is not what it was
    have hafter := hsound.supply (before ++ [call]) hbefore
    rw [run_append, step, hmain] at hafter
    exact (hkeeps.total w' hmain).mp (hafter.trans hsupply.symm) haliased
  · intro hplain
    have hbooks : ∀ before, before <+: calls → Formed (run start before) ∧
        totalBalance calcHash (run start before) = amount (text params.totalSupply) := by
      refine forall_prefix ⟨hformed, htotal⟩ fun before call hbefore hbooks => ?_
      have hkeeps := call.keeps hbooks.1 (hbooks.2 ▸ hfits)
      rw [run_append]
      exact ⟨hkeeps.formed_step hbooks.1,
        (hkeeps.total_step (hplain before call hbefore)).trans hbooks.2⟩
    refine ⟨fun before hbefore => (hbooks before hbefore).2, ?_, ?_, ?_⟩
    · exact fun before hbefore address haddress =>
        (hbooks before hbefore).1.balance_nonneg (length_ne_of_valid haddress)
    · intro before call hbefore
      have hpart := hbooks before ((List.prefix_append _ _).trans hbefore)
      exact (call.keeps hpart.1 (hpart.2 ▸ hfits)).noOverflow (hplain before call hbefore)
    · intro before hbefore owner spender
      refine allowed_run ?_ (fun before hbefore => (hbooks before hbefore).1) before hbefore
      rw [Allowed, hnone _ (length_makeAllowanceKey owner.2.1 spender.2.1)]
      rfl

end

/-! ## A token on paper -/

/-- "buRDR4vKCpkokC7yqu5mHRFnbWGGKh9dtgeM". -/
def alice : Address constantHash :=
  ⟨[98, 117, 82, 68, 82, 52, 118, 75, 67, 112, 107, 111, 107, 67, 55, 121, 113, 117,
    53, 109, 72, 82, 70, 110, 98, 87, 71, 71, 75, 104, 57, 100, 116, 103, 101, 77],
    by decide +kernel⟩

/-- "buQad8k3k4MSFpexMyjb3MpeNKHNPrdPoA3B". -/
def bob : Address constantHash :=
  ⟨[98, 117, 81, 97, 100, 56, 107, 51, 107, 52, 77, 83, 70, 112, 101, 120, 77, 121,
    106, 98, 51, 77, 112, 101, 78, 75, 72, 78, 80, 114, 100, 80, 111, 65, 51, 66],
    by decide +kernel⟩

/-- Ten tokens. -/
def tenTokens : Params where
  totalSupply := .string [49, 48]
  name := .string [84]
  symbol := .string [84]
  decimals := some 0

/-- The token of Alice. -/
def opened : World :=
  ((World.storageStore globalAttributeKey [] {}).storageStore alice.val [49, 48])

theorem init_opened : init (fun _ => []) alice.val tenTokens = .ok opened := rfl

/-- Alice pays five tokens. -/
def payment (dest : Bytes) : Call constantHash where
  sender := alice
  method := .transfer (.string dest) (.string [53])

/-- A payment to somebody else is no trouble. -/
theorem token_sound_bob : Sound 10 opened [payment bob.val] := by
  refine (token_sound_iff _ alice tenTokens opened init_opened [payment bob.val]).mpr ?_
  intro before call hbefore haliased
  obtain rfl : call = payment bob.val := by
    have hmem : call ∈ [payment bob.val] := hbefore.subset (by simp)
    simpa using hmem
  exact absurd haliased.2.1 (by decide +kernel)

/-- Alice pays five of her ten tokens to her own address, a zero character behind it, and
they are gone. -/
theorem payment_to_oneself_lost :
    init (fun _ => []) alice.val tenTokens = .ok opened ∧
      totalBalance constantHash opened = 10 ∧
      totalBalance constantHash (run opened [payment (alice.val ++ [0])]) = 5 ∧
      ¬ Sound 10 opened [payment (alice.val ++ [0])] := by
  have hlost : totalBalance constantHash (run opened [payment (alice.val ++ [0])]) = 5 := by
    decide +kernel
  refine ⟨init_opened, by decide +kernel, hlost, fun hsound => ?_⟩
  exact absurd (hlost.symm.trans (hsound.supply _ (List.prefix_refl _))) (by decide)

end Token

end CegChain
