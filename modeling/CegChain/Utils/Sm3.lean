import CegChain.Lib.Digests
import CegChain.Utils.Base58
import Mathlib.Data.Nat.Bitwise

/-!
# SM3

`utils/sm3.cpp`, the hash of SM2 keys, and of a ledger that is configured so.  A context is
given a message in pieces.  It counts the bytes in two numbers, keeps in a buffer what does
not fill a block of 64 bytes yet, and processes a block that is whole in the input from
there.  `final_updates` says what comes out: the digest of all the bytes that were read, one
padded message that is processed block by block, whatever the pieces were and whatever was
in the buffer at first.

`Update` takes the size of a piece as an `int`, so a piece of 2 ^ 31 bytes is not read, and of
one of 2 ^ 32 + 1 only the first byte is (`taken`).
-/

namespace CegChain.Sm3

open Digests

/-! ## The functions of the source -/

/-- The eight words of `state`.  An `unsigned long` has room for more, but only its lower half
is ever used. -/
@[ext]
structure State where
  a : UInt32
  b : UInt32
  c : UInt32
  d : UInt32
  e : UInt32
  f : UInt32
  g : UInt32
  h : UInt32
  deriving DecidableEq, Repr

/-- `sm3_context`, without the pads. -/
structure Context where
  total0 : UInt64
  total1 : UInt64
  state : State
  buffer : Vector UInt8 64

/-- `GET_ULONG_BE`. -/
def getUlongBE (b : Bytes) (i : ℕ) : UInt32 :=
  (b.getD i 0).toUInt32 <<< 24 ||| (b.getD (i + 1) 0).toUInt32 <<< 16 |||
    (b.getD (i + 2) 0).toUInt32 <<< 8 ||| (b.getD (i + 3) 0).toUInt32

/-- `PUT_ULONG_BE`. -/
def putUlongBE (n : UInt32) : Bytes :=
  [(n >>> 24).toUInt8, (n >>> 16).toUInt8, (n >>> 8).toUInt8, n.toUInt8]

/-- `ROTL`.  The language leaves open what a shift by 32 or more is, and the rounds use such
counts; they are taken modulo 32, as the machine takes them. -/
def rotl (x n : UInt32) : UInt32 :=
  x <<< n ||| x >>> (32 - n)

/-- `FF0` and `GG0`. -/
def ff0 (x y z : UInt32) : UInt32 :=
  x ^^^ y ^^^ z

/-- `FF1`. -/
def ff1 (x y z : UInt32) : UInt32 :=
  (x &&& y) ||| (x &&& z) ||| (y &&& z)

/-- `GG1`. -/
def gg1 (x y z : UInt32) : UInt32 :=
  (x &&& y) ||| (~~~x &&& z)

/-- `P0`. -/
def p0 (x : UInt32) : UInt32 :=
  x ^^^ rotl x 9 ^^^ rotl x 17

/-- `P1`. -/
def p1 (x : UInt32) : UInt32 :=
  x ^^^ rotl x 15 ^^^ rotl x 23

/-- The words `W`: sixteen of the block, and 52 made of them. -/
def expand (data : Bytes) : Array UInt32 :=
  (List.range 52).foldl (fun w i =>
      let temp1 := w.getD i 0 ^^^ w.getD (i + 7) 0
      let temp2 := rotl (w.getD (i + 13) 0) 15
      let temp3 := temp1 ^^^ temp2
      let temp4 := p1 temp3
      let temp5 := rotl (w.getD (i + 3) 0) 7 ^^^ w.getD (i + 10) 0
      w.push (temp4 ^^^ temp5))
    ((List.range 16).map fun i => getUlongBE data (4 * i)).toArray

/-- One round of `sm3_process`. -/
def round (ff gg : UInt32 → UInt32 → UInt32 → UInt32) (t : UInt32) (w : Array UInt32)
    (r : State) (j : ℕ) : State :=
  let ss1 := rotl (rotl r.a 12 + r.e + rotl t (UInt32.ofNat j)) 7
  let ss2 := ss1 ^^^ rotl r.a 12
  let tt1 := ff r.a r.b r.c + r.d + ss2 + (w.getD j 0 ^^^ w.getD (j + 4) 0)
  let tt2 := gg r.e r.f r.g + r.h + ss1 + w.getD j 0
  { a := tt1, b := r.a, c := rotl r.b 9, d := r.c, e := p0 tt2, f := r.e, g := rotl r.f 19,
    h := r.g }

/-- `sm3_process`. -/
def process (state : State) (data : Bytes) : State :=
  let w := expand data
  let r := (List.range 16).foldl (round ff0 ff0 0x79CC4519 w) state
  let r := (List.range' 16 48).foldl (round ff1 gg1 0x7A879D8A w) r
  { a := state.a ^^^ r.a, b := state.b ^^^ r.b, c := state.c ^^^ r.c, d := state.d ^^^ r.d,
    e := state.e ^^^ r.e, f := state.f ^^^ r.f, g := state.g ^^^ r.g, h := state.h ^^^ r.h }

/-- The words with which `sm3_starts` begins. -/
def initial : State where
  a := 0x7380166F
  b := 0x4914B2B9
  c := 0x172442D7
  d := 0xDA8A0600
  e := 0xA96F30BC
  f := 0x163138AA
  g := 0xE38DEE4D
  h := 0xB0FB0E4E

/-- `sm3_starts`.  The buffer is left as it is. -/
def sm3Starts (ctx : Context) : Context :=
  { ctx with total0 := 0, total1 := 0, state := initial }

/-- `memcpy` into the buffer. -/
def memcpy (buffer : Vector UInt8 64) (offset : ℕ) (src : Bytes) : Vector UInt8 64 :=
  .ofFn fun i =>
    if offset ≤ i ∧ i < offset + src.length then src.getD (i - offset) 0 else buffer[i]

/-- The totals of `sm3_update` after `ilen` more bytes. -/
def Context.count (ctx : Context) (ilen : ℕ) : Context :=
  let total0 := (ctx.total0 + UInt64.ofNat ilen) &&& 0xFFFFFFFF
  { ctx with
    total0 := total0
    total1 := if total0 < UInt64.ofNat ilen then ctx.total1 + 1 else ctx.total1 }

/-- The loop of `sm3_update`, which takes a block from the input as long as there is one, and
the copy of the rest behind `left` bytes of the buffer. -/
def Context.consume (ctx : Context) (left : ℕ) (input : Bytes) : Context :=
  let blocks := input.length / 64
  let ctx := { ctx with state := compressBlocks process 64 blocks ctx.state input }
  let input := input.drop (64 * blocks)
  if input.length > 0 then { ctx with buffer := memcpy ctx.buffer left input } else ctx

/-- `sm3_update` with `ilen` bytes at `input`. -/
def sm3Update (input : Bytes) (ilen : Int32) (ctx : Context) : Context :=
  if ilen ≤ 0 then ctx
  else
    let input := input.take ilen.toInt.toNat
    let left := (ctx.total0 &&& 0x3F).toNat
    let fill := 64 - left
    let ctx := ctx.count input.length
    if left ≠ 0 ∧ fill ≤ input.length then
      let buffer := memcpy ctx.buffer left (input.take fill)
      { ctx with buffer := buffer, state := process ctx.state buffer.toList }.consume 0
        (input.drop fill)
    else ctx.consume left input

/-- `sm3_padding`. -/
def sm3Padding : Bytes :=
  0x80 :: List.replicate 63 0

/-- The words as bytes. -/
def State.toBytes (state : State) : Bytes :=
  putUlongBE state.a ++ putUlongBE state.b ++ putUlongBE state.c ++ putUlongBE state.d ++
    putUlongBE state.e ++ putUlongBE state.f ++ putUlongBE state.g ++ putUlongBE state.h

/-- `sm3_finish`. -/
def sm3Finish (ctx : Context) : Bytes :=
  let high := (ctx.total0 >>> 29 ||| ctx.total1 <<< 3).toUInt32
  let low := (ctx.total0 <<< 3).toUInt32
  let msglen := putUlongBE high ++ putUlongBE low
  let last := (ctx.total0 &&& 0x3F).toUInt32
  let padn := if last < 56 then 56 - last else 120 - last
  let ctx := sm3Update sm3Padding padn.toInt32 ctx
  (sm3Update msglen 8 ctx).state.toBytes

/-- `Sm3::Update`.  The size becomes an `int`. -/
def update (ctx : Context) (input : Bytes) : Context :=
  sm3Update input (Int32.ofNat input.length) ctx

/-- `Sm3::Final`. -/
def final (ctx : Context) : Bytes :=
  sm3Finish ctx

/-- `Sm3::Crypto`, with a context that has not been initialized. -/
def crypto (sm3 : Context) (input : Bytes) : Bytes :=
  sm3Finish (update (sm3Starts sm3) input)

/-! ## The digest of a message -/

/-- The number of bits in eight bytes, as far as they go. -/
def bitLength (length : ℕ) : Bytes :=
  putUlongBE (UInt32.ofNat (8 * length / 2 ^ 32)) ++ putUlongBE (UInt32.ofNat (8 * length))

/-- The message with a one, zeros up to the last eight bytes of a block, and its length. -/
def padded (message : Bytes) : Bytes :=
  message ++ 0x80 :: List.replicate ((119 - message.length % 64) % 64) 0 ++
    bitLength message.length

/-- The digest of a message. -/
def digest (message : Bytes) : Bytes :=
  (absorb process 64 initial (padded message)).1.toBytes

/-- What `Update` reads of a piece. -/
def taken (piece : Bytes) : Bytes :=
  piece.take (Int32.ofNat piece.length).toInt.toNat

/-! ## The context holds what it was given -/

/-- The context was given these bytes: the totals count them, and the rest of the buffer is
free. -/
structure Holds (data : Bytes) (ctx : Context) : Prop where
  total0 : ctx.total0.toNat = data.length % 2 ^ 32
  total1 : ctx.total1 = UInt64.ofNat (data.length / 2 ^ 32)
  state : ctx.state = (absorb process 64 initial data).1
  buffer : ctx.buffer.toList.take (data.length % 64) = (absorb process 64 initial data).2

theorem holds_sm3Starts (ctx : Context) : Holds [] (sm3Starts ctx) where
  total0 := rfl
  total1 := rfl
  state := by rw [absorb_of_lt (by decide), sm3Starts]
  buffer := by rw [absorb_of_lt (by decide), List.length_nil, Nat.zero_mod, List.take_zero]

theorem getElem_memcpy (buffer : Vector UInt8 64) (offset : ℕ) (src : Bytes) {i : ℕ}
    (hi : i < 64) :
    (memcpy buffer offset src)[i] =
      if offset ≤ i ∧ i < offset + src.length then src.getD (i - offset) 0 else buffer[i] := by
  rw [memcpy, Vector.getElem_ofFn]
  rfl

/-- The copy is found behind what was in front of it. -/
theorem take_memcpy (buffer : Vector UInt8 64) {offset : ℕ} {src : Bytes}
    (hfits : offset + src.length ≤ 64) :
    (memcpy buffer offset src).toList.take (offset + src.length) =
      buffer.toList.take offset ++ src := by
  have hlength : (buffer.toList.take offset).length = offset := by
    rw [List.length_take, Vector.length_toList]
    omega
  apply List.ext_getElem
  · rw [List.length_take, Vector.length_toList, List.length_append, hlength]
    omega
  intro i hi _
  rw [List.length_take, Vector.length_toList] at hi
  rw [List.getElem_take, Vector.getElem_toList, getElem_memcpy]
  rcases Nat.lt_or_ge i offset with hlt | hge
  · rw [if_neg (by omega), List.getElem_append_left (by omega), List.getElem_take,
      Vector.getElem_toList]
  · rw [if_pos (by omega), List.getElem_append_right (by omega),
      List.getD_eq_getElem _ _ (by omega)]
    simp only [hlength]

/-- The number of bytes in the buffer. -/
theorem toNat_and_63 {length : ℕ} {n : UInt64} (hn : n.toNat = length % 2 ^ 32) :
    (n &&& 0x3F).toNat = length % 64 := by
  rw [UInt64.toNat_and, hn, show (0x3F : UInt64).toNat = 2 ^ 6 - 1 from rfl,
    Nat.and_two_pow_sub_one_eq_mod, Nat.mod_mod_of_dvd _ (by decide)]

/-- A carry from the lower total goes to the upper one. -/
theorem Context.count_totals {ctx : Context} {length n : ℕ}
    (htotal0 : ctx.total0.toNat = length % 2 ^ 32)
    (htotal1 : ctx.total1 = UInt64.ofNat (length / 2 ^ 32)) (hn : n < 2 ^ 31) :
    (ctx.count n).total0.toNat = (length + n) % 2 ^ 32 ∧
      (ctx.count n).total1 = UInt64.ofNat ((length + n) / 2 ^ 32) := by
  have hsmall : (UInt64.ofNat n).toNat = n :=
    UInt64.toNat_ofNat_of_lt' (lt_of_lt_of_le hn (by decide))
  have hsum : ((ctx.total0 + UInt64.ofNat n) &&& 0xFFFFFFFF).toNat = (length + n) % 2 ^ 32 := by
    rw [UInt64.toNat_and, show (0xFFFFFFFF : UInt64).toNat = 2 ^ 32 - 1 from rfl,
      Nat.and_two_pow_sub_one_eq_mod, UInt64.toNat_add, hsmall, htotal0]
    omega
  refine ⟨hsum, ?_⟩
  rw [Context.count]
  simp only [UInt64.lt_iff_toNat_lt, hsum, hsmall, htotal1]
  split
  case isTrue hlt =>
    rw [show (length + n) / 2 ^ 32 = length / 2 ^ 32 + 1 by omega, UInt64.ofNat_add]
    rfl
  case isFalse hge =>
    rw [show (length + n) / 2 ^ 32 = length / 2 ^ 32 by omega]

/-- What is behind the whole blocks is put in the buffer. -/
theorem Context.consume_absorb (ctx : Context) (left : ℕ) (input : Bytes) {rest : Bytes}
    (hrest : ctx.buffer.toList.take left = rest) (hleft : rest.length = left)
    (hfits : left = 0 ∨ left + input.length < 64) :
    (ctx.consume left input).state = (absorb process 64 ctx.state (rest ++ input)).1 ∧
      (ctx.consume left input).buffer.toList.take ((left + input.length) % 64) =
        (absorb process 64 ctx.state (rest ++ input)).2 := by
  have hblocks : absorb process 64 ctx.state (rest ++ input) =
      (compressBlocks process 64 (input.length / 64) ctx.state input,
        rest ++ input.drop (64 * (input.length / 64))) := by
    rcases hfits with hzero | hshort
    · rw [List.length_eq_zero_iff.mp (hleft.trans hzero), List.nil_append, List.nil_append, absorb]
    · rw [Nat.div_eq_of_lt (by omega), Nat.mul_zero, List.drop_zero, compressBlocks,
        absorb_of_lt (by rw [List.length_append]; omega)]
  have hlength : (left + input.length) % 64 =
      left + (input.drop (64 * (input.length / 64))).length := by
    rw [List.length_drop]
    omega
  rw [hblocks, Context.consume, hlength]
  split
  case isTrue =>
    refine ⟨rfl, ?_⟩
    rw [take_memcpy _ (by rw [List.length_drop]; omega), hrest]
  case isFalse hempty =>
    refine ⟨rfl, ?_⟩
    rw [List.length_eq_zero_iff.mp (Nat.eq_zero_of_not_pos hempty), List.append_nil,
      List.length_nil, Nat.add_zero, hrest]

@[simp] theorem Context.consume_total0 (ctx : Context) (left : ℕ) (input : Bytes) :
    (ctx.consume left input).total0 = ctx.total0 := by
  rw [Context.consume]
  split <;> rfl

@[simp] theorem Context.consume_total1 (ctx : Context) (left : ℕ) (input : Bytes) :
    (ctx.consume left input).total1 = ctx.total1 := by
  rw [Context.consume]
  split <;> rfl

/-- The buffer is filled up to a block, and the loop begins behind it. -/
theorem fill_absorb {buffer : Vector UInt8 64} {left : ℕ} {rest input : Bytes} (s : State)
    (hrest : buffer.toList.take left = rest) (hleft : rest.length = left) (hlt : left < 64)
    (hfills : 64 - left ≤ input.length) :
    absorb process 64 s (rest ++ input) =
      absorb process 64 (process s (memcpy buffer left (input.take (64 - left))).toList)
        (input.drop (64 - left)) := by
  have htake : (input.take (64 - left)).length = 64 - left := List.length_take_of_le hfills
  have hbuffer : (memcpy buffer left (input.take (64 - left))).toList =
      rest ++ input.take (64 - left) := by
    have hcopy := take_memcpy buffer (show left + (input.take (64 - left)).length ≤ 64 by omega)
    rwa [hrest, htake, List.take_of_length_le (by rw [Vector.length_toList]; omega)] at hcopy
  calc absorb process 64 s (rest ++ input)
      = absorb process 64 s ((rest ++ input.take (64 - left)) ++ input.drop (64 - left)) := by
        rw [List.append_assoc, List.take_append_drop]
    _ = absorb process 64 (process s (rest ++ input.take (64 - left)))
          (input.drop (64 - left)) :=
        absorb_block (by decide) (by rw [List.length_append]; omega) _
    _ = _ := by rw [hbuffer]

/-- **`sm3_update` adds its input**, whether it fills a block or not. -/
theorem Holds.sm3Update {data : Bytes} {ctx : Context} (h : Holds data ctx) (input : Bytes)
    (ilen : Int32) :
    Holds (data ++ input.take ilen.toInt.toNat) (sm3Update input ilen ctx) := by
  rw [Sm3.sm3Update]
  split
  case isTrue hle =>
    have hnone : ilen.toInt.toNat = 0 := Int.toNat_of_nonpos (Int32.le_iff_toInt_le.mp hle)
    rw [hnone, List.take_zero, List.append_nil]
    exact h
  case isFalse =>
    have hsize : (input.take ilen.toInt.toNat).length < 2 ^ 31 := by
      have hlt := ilen.toInt_lt
      have hle := List.length_take_le ilen.toInt.toNat input
      omega
    generalize input.take ilen.toInt.toNat = input at hsize ⊢
    obtain ⟨htotal0, htotal1⟩ := Context.count_totals h.total0 h.total1 hsize
    rw [← List.length_append] at htotal0 htotal1
    have hleft : (ctx.total0 &&& 0x3F).toNat = data.length % 64 := toNat_and_63 h.total0
    have hrest : (absorb process 64 initial data).2.length = data.length % 64 :=
      length_absorb_snd initial data
    have hsplit : absorb process 64 initial (data ++ input) =
        absorb process 64 ctx.state ((absorb process 64 initial data).2 ++ input) := by
      rw [absorb_append (by decide), h.state]
    have hlength : (data ++ input).length = data.length + input.length := List.length_append
    simp only [hleft]
    split
    case isTrue hfills =>
      rw [fill_absorb _ h.buffer hrest (Nat.mod_lt _ (by decide)) hfills.2] at hsplit
      obtain ⟨hstate, hbuffer⟩ := Context.consume_absorb
        { ctx.count input.length with
          buffer := memcpy ctx.buffer (data.length % 64) (input.take (64 - data.length % 64))
          state := process ctx.state
            (memcpy ctx.buffer (data.length % 64) (input.take (64 - data.length % 64))).toList }
        0 (input.drop (64 - data.length % 64)) rfl rfl (.inl rfl)
      rw [List.take_zero, List.nil_append, ← hsplit] at hstate hbuffer
      refine ⟨?_, ?_, hstate, ?_⟩
      · rw [Context.consume_total0, htotal0]
      · rw [Context.consume_total1, htotal1]
      · rw [← hbuffer, List.length_drop]
        congr 1
        omega
    case isFalse hshort =>
      obtain ⟨hstate, hbuffer⟩ := Context.consume_absorb (ctx.count input.length) _ input
        h.buffer hrest (by omega)
      have hsame : (ctx.count input.length).state = ctx.state := rfl
      rw [hsame, ← hsplit] at hstate hbuffer
      refine ⟨?_, ?_, hstate, ?_⟩
      · rw [Context.consume_total0, htotal0]
      · rw [Context.consume_total1, htotal1]
      · rw [← hbuffer]
        congr 1
        omega

/-! ## The digest -/

theorem holds_update {data : Bytes} {ctx : Context} (h : Holds data ctx) (piece : Bytes) :
    Holds (data ++ taken piece) (update ctx piece) :=
  h.sm3Update piece _

theorem holds_updates {data : Bytes} {ctx : Context} (h : Holds data ctx) (pieces : List Bytes) :
    Holds (data ++ pieces.flatMap taken) (pieces.foldl update ctx) := by
  induction pieces generalizing data ctx with
  | nil =>
      rw [List.flatMap_nil, List.append_nil]
      exact h
  | cons piece pieces ih =>
      rw [List.flatMap_cons, ← List.append_assoc]
      exact ih (holds_update h piece)

theorem toInt_toInt32 {n : UInt32} (hn : n.toNat < 2 ^ 31) : n.toInt32.toInt = n.toNat :=
  BitVec.toInt_eq_toNat_of_lt (show 2 * n.toNat < 2 ^ 32 by omega)

/-- The number of bytes of `sm3_padding` that `sm3_finish` adds. -/
theorem toNat_padn {last : UInt32} (hlt : last.toNat < 64) :
    (if last < 56 then 56 - last else 120 - last).toInt32.toInt.toNat =
      (119 - last.toNat) % 64 + 1 := by
  split
  case isTrue hsmall =>
    have hle : last.toNat < 56 := UInt32.lt_iff_toNat_lt.mp hsmall
    have hsub : (56 - last).toNat = 56 - last.toNat :=
      UInt32.toNat_sub_of_le _ _ (UInt32.le_iff_toNat_le.mpr hle.le)
    rw [toInt_toInt32 (by omega), hsub, Int.toNat_natCast]
    omega
  case isFalse hlarge =>
    have hge : 56 ≤ last.toNat := UInt32.le_iff_toNat_le.mp (UInt32.not_lt.mp hlarge)
    have hsub : (120 - last).toNat = 120 - last.toNat :=
      UInt32.toNat_sub_of_le _ _ (UInt32.le_iff_toNat_le.mpr (show last.toNat ≤ 120 by omega))
    rw [toInt_toInt32 (by omega), hsub, Int.toNat_natCast]
    omega

/-- The totals are the length in two halves, and `msglen` has its bits. -/
theorem msglen_eq {length : ℕ} {total0 total1 : UInt64} (htotal0 : total0.toNat = length % 2 ^ 32)
    (htotal1 : total1 = UInt64.ofNat (length / 2 ^ 32)) :
    putUlongBE (total0 >>> 29 ||| total1 <<< 3).toUInt32 ++ putUlongBE (total0 <<< 3).toUInt32 =
      bitLength length := by
  have hthree : (3 : UInt64).toNat % 64 = 3 := rfl
  have hlow : (total0 <<< 3).toUInt32 = UInt32.ofNat (8 * length) := by
    apply UInt32.toNat_inj.mp
    rw [UInt64.toNat_toUInt32, UInt64.toNat_shiftLeft, hthree, htotal0, Nat.shiftLeft_eq,
      UInt32.toNat_ofNat']
    omega
  have hhigh : (total0 >>> 29 ||| total1 <<< 3).toUInt32 = UInt32.ofNat (8 * length / 2 ^ 32) := by
    apply UInt32.toNat_inj.mp
    -- the three bits from the lower half are below those of the upper one
    have hshift : (total1 <<< 3).toNat = (length / 2 ^ 32 % 2 ^ 61) <<< 3 := by
      rw [UInt64.toNat_shiftLeft, hthree, htotal1, UInt64.toNat_ofNat', Nat.shiftLeft_eq,
        Nat.shiftLeft_eq]
      omega
    have hor : (total0 >>> 29 ||| total1 <<< 3).toNat =
        length / 2 ^ 32 % 2 ^ 61 * 2 ^ 3 + length % 2 ^ 32 / 2 ^ 29 := by
      rw [UInt64.toNat_or, UInt64.toNat_shiftRight, show (29 : UInt64).toNat % 64 = 29 from rfl,
        htotal0, hshift, Nat.shiftRight_eq_div_pow, Nat.or_comm,
        ← Nat.shiftLeft_add_eq_or_of_lt (by omega), Nat.shiftLeft_eq]
    rw [UInt64.toNat_toUInt32, hor, UInt32.toNat_ofNat']
    omega
  rw [hlow, hhigh, bitLength]

/-- **The output is the digest** of what the context was given. -/
theorem Holds.sm3Finish {data : Bytes} {ctx : Context} (h : Holds data ctx) :
    sm3Finish ctx = digest data := by
  have hlast : (ctx.total0 &&& 0x3F).toUInt32.toNat = data.length % 64 := by
    rw [UInt64.toNat_toUInt32, toNat_and_63 h.total0]
    omega
  have hlt : data.length % 64 < 64 := Nat.mod_lt _ (by decide)
  have hzeros : sm3Padding.take ((119 - data.length % 64) % 64 + 1) =
      0x80 :: List.replicate ((119 - data.length % 64) % 64) 0 := by
    rw [sm3Padding, List.take_succ_cons, List.take_replicate, min_eq_left (by omega)]
  have hpadding := h.sm3Update sm3Padding (if (ctx.total0 &&& 0x3F).toUInt32 < 56
    then 56 - (ctx.total0 &&& 0x3F).toUInt32 else 120 - (ctx.total0 &&& 0x3F).toUInt32).toInt32
  rw [toNat_padn (hlast.trans_lt hlt), hlast, hzeros] at hpadding
  have hfinished := hpadding.sm3Update (bitLength data.length) 8
  rw [Sm3.sm3Finish]
  simp only [msglen_eq h.total0 h.total1]
  rw [hfinished.state]
  rfl

/-- **`Final` returns the digest** of all that was read, however it was cut into pieces. -/
theorem final_updates (ctx : Context) (pieces : List Bytes) :
    final (pieces.foldl update (sm3Starts ctx)) = digest (pieces.flatMap taken) :=
  (holds_updates (holds_sm3Starts ctx) pieces).sm3Finish

/-- So `Crypto` agrees with it on a single piece. -/
theorem crypto_eq (sm3 : Context) (input : Bytes) : crypto sm3 input = digest (taken input) :=
  (holds_update (holds_sm3Starts sm3) input).sm3Finish

-- the digest of "abc" that the standard gives
example : digest [0x61, 0x62, 0x63] =
    [0x66, 0xc7, 0xf0, 0xf4, 0x62, 0xee, 0xed, 0xd9, 0xd1, 0xf2, 0xd4, 0x6b, 0xdc, 0x10, 0xe4,
      0xe2, 0x41, 0x67, 0xc4, 0x87, 0x5c, 0xf2, 0xf7, 0xa2, 0x29, 0x7d, 0xa0, 0x2b, 0x8f, 0x4b,
      0xa8, 0xe0] := by
  decide +kernel

/-! ## Different messages -/

/-- The calls of `sm3_process` for a message. -/
def processed (message : Bytes) : List (State × Bytes) :=
  calls process 64 ((padded message).length / 64) initial (padded message)

theorem putUlongBE_injective : Function.Injective putUlongBE := by
  intro n m h
  simp only [putUlongBE, List.cons.injEq, ← UInt8.toNat_inj, UInt32.toNat_toUInt8,
    UInt32.toNat_shiftRight, Nat.shiftRight_eq_div_pow] at h
  obtain ⟨h24, h16, h8, h0, -⟩ := h
  apply UInt32.toNat_inj.mp
  have hn := n.toNat_lt
  have hm := m.toNat_lt
  simp at h24 h16 h8 h0
  omega

@[simp] theorem length_putUlongBE (n : UInt32) : (putUlongBE n).length = 4 := rfl

theorem State.toBytes_injective : Function.Injective State.toBytes := by
  intro s t h
  obtain ⟨habcdefg, hh⟩ := List.append_inj' h rfl
  obtain ⟨habcdef, hg⟩ := List.append_inj' habcdefg rfl
  obtain ⟨habcde, hf⟩ := List.append_inj' habcdef rfl
  obtain ⟨habcd, he⟩ := List.append_inj' habcde rfl
  obtain ⟨habc, hd⟩ := List.append_inj' habcd rfl
  obtain ⟨hab, hc⟩ := List.append_inj' habc rfl
  obtain ⟨ha, hb⟩ := List.append_inj' hab rfl
  ext1 <;> apply putUlongBE_injective <;> assumption

/-- The length is found in the last bytes. -/
theorem bitLength_inj {n m : ℕ} (hn : n < 2 ^ 61) (hm : m < 2 ^ 61)
    (h : bitLength n = bitLength m) : n = m := by
  obtain ⟨hhigh, hlow⟩ := List.append_inj h rfl
  have hhigh := congrArg UInt32.toNat (putUlongBE_injective hhigh)
  have hlow := congrArg UInt32.toNat (putUlongBE_injective hlow)
  rw [UInt32.toNat_ofNat', UInt32.toNat_ofNat'] at hhigh hlow
  omega

theorem length_padded (message : Bytes) :
    (padded message).length =
      64 * ((message.length + 8) / 64 + 1) := by
  simp only [padded, bitLength, List.length_append, List.length_cons, List.length_replicate,
    length_putUlongBE]
  omega

/-- The length is in the last block. -/
theorem drop_padded (message : Bytes) :
    (padded message).drop (64 * ((message.length + 8) / 64) + 56) = bitLength message.length := by
  rw [padded, List.drop_left']
  simp only [List.length_append, List.length_cons, List.length_replicate]
  omega

/-- The padding of messages of one length is the same, and the length differs otherwise. -/
theorem collide_processed {m m' : Bytes} (hm : m.length < 2 ^ 61) (hm' : m'.length < 2 ^ 61)
    (hne : m ≠ m') (heq : digest m = digest m') :
    Collide process (processed m) (processed m') := by
  have hstates := State.toBytes_injective heq
  have hlength := length_padded m
  have hlength' := length_padded m'
  have hblocks : (padded m).length / 64 = (m.length + 8) / 64 + 1 := by omega
  have hblocks' : (padded m').length / 64 = (m'.length + 8) / 64 + 1 := by omega
  rw [absorb, absorb, hblocks, hblocks'] at hstates
  rw [processed, processed, hblocks, hblocks']
  by_cases hsame : m.length = m'.length
  · rw [← hsame] at hstates hlength' ⊢
    refine collide_of_compressBlocks hlength hlength' hstates fun hinputs => hne ?_
    have hpadded := (Prod.mk.inj hinputs).2
    rw [padded, padded, List.append_assoc, List.append_assoc] at hpadded
    exact (List.append_inj hpadded hsame).1
  · refine collide_of_last hlength hlength' hstates fun hlast => hsame ?_
    apply bitLength_inj hm hm'
    rw [← drop_padded, ← drop_padded, ← List.drop_drop, ← List.drop_drop, hlast]

/-- **Different messages have different digests**, however they are cut into pieces, unless a
call of `sm3_process` for the one and a call for the other collide. -/
theorem final_ne {ctx ctx' : Context} {pieces pieces' : List Bytes}
    (hlength : (pieces.flatMap taken).length < 2 ^ 61)
    (hlength' : (pieces'.flatMap taken).length < 2 ^ 61)
    (hne : pieces.flatMap taken ≠ pieces'.flatMap taken)
    (hfree : ¬ Collide process (processed (pieces.flatMap taken))
      (processed (pieces'.flatMap taken))) :
    final (pieces.foldl update (sm3Starts ctx)) ≠
      final (pieces'.foldl update (sm3Starts ctx')) := by
  rw [final_updates, final_updates]
  exact fun heq => hfree (collide_processed hlength hlength' hne heq)

/-- Two messages of one byte and of two, of which the second is given in pieces. -/
theorem final_ne_cut :
    final ([[0x61]].foldl update (sm3Starts ⟨0, 0, initial, .replicate 64 0⟩)) ≠
      final ([[0x61], [0x62]].foldl update (sm3Starts ⟨0, 0, initial, .replicate 64 1⟩)) :=
  final_ne (by decide) (by decide) (by decide) (by decide +kernel)

end CegChain.Sm3
