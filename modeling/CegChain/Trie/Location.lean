import CegChain.Lib.Paths
import CegChain.Utils.Base58

/-!
# Locations

A node of the trie stands at a path of nibbles.  Its `Location` is a string: a byte
for the parity and the nibbles packed two to a byte, the last byte of an odd path half
empty.  `CommonPrefix` and `NextBranch` work on these strings; on the packed paths they
are the longest common beginning (`commonPrefix_encode`) and the nibble after it
(`nextBranch_encode`).
-/

namespace CegChain.Trie

open Paths

abbrev Nibble := Fin 16

/-- The nibbles from the root to a node. -/
abbrev Path := List Nibble

/-- The string that stands for a path. -/
abbrev Location := Bytes

/-! ## Bytes -/

/-- `(ch >> 4) & 0x0f`. -/
def high (ch : UInt8) : Nibble :=
  ⟨ch.toNat / 16, by have := ch.toNat_lt; omega⟩

/-- `ch & 0x0f`. -/
def low (ch : UInt8) : Nibble :=
  ⟨ch.toNat % 16, by omega⟩

/-- The byte with these halves. -/
def pack (a b : Nibble) : UInt8 :=
  UInt8.ofNat (16 * a.val + b.val)

/-- `EVEN_PREFIX`. -/
def evenByte : UInt8 := 0

/-- `ODD_PREFIX`. -/
def oddByte : UInt8 := 1

/-- `LEAF_PREFIX`. -/
def leafByte : UInt8 := 2

theorem toNat_pack (a b : Nibble) : (pack a b).toNat = 16 * a.val + b.val := by
  have ha := a.isLt
  have hb := b.isLt
  rw [pack, UInt8.toNat_ofNat']
  omega

@[simp] theorem high_pack (a b : Nibble) : high (pack a b) = a := by
  have hb := b.isLt
  refine Fin.ext ?_
  rw [high, Fin.val_mk, toNat_pack]
  omega

@[simp] theorem low_pack (a b : Nibble) : low (pack a b) = b := by
  have hb := b.isLt
  refine Fin.ext ?_
  rw [low, Fin.val_mk, toNat_pack]
  omega

theorem pack_high_low (ch : UInt8) : pack (high ch) (low ch) = ch := by
  refine UInt8.toNat_inj.mp ?_
  rw [toNat_pack, high, low]
  exact Nat.div_add_mod _ _

/-! ## The functions of the source -/

/-- The loop of `CommonPrefix`, from the second byte on: the bytes that it pushes, and
whether it ends with half a byte.  `ch & 0xf0` is `pack (high ch) 0`. -/
def commonLoop (odd₁ odd₂ : Bool) : Bytes → Bytes → Bytes × Bool
  | c₁ :: s₁, c₂ :: s₂ =>
      if high c₁ ≠ high c₂ then ([], false)
      else if s₁ = [] ∧ odd₁ then ([pack (high c₁) 0], true)
      else if s₂ = [] ∧ odd₂ then ([pack (high c₁) 0], true)
      else if low c₁ ≠ low c₂ then ([pack (high c₁) 0], true)
      else
        let rest := commonLoop odd₁ odd₂ s₁ s₂
        (c₁ :: rest.1, rest.2)
  | _, _ => ([], false)

/-- `Trie::CommonPrefix`. -/
def commonPrefix (s₁ s₂ : Location) : Location :=
  let out := commonLoop (s₁.head? = some oddByte) (s₂.head? = some oddByte) s₁.tail s₂.tail
  (if out.2 then oddByte else evenByte) :: out.1

/-- `Trie::NextBranch`; `at` throws beyond the end. -/
def nextBranch (s₁ s₂ : Location) : Option Nibble :=
  match s₁ with
  | [] => none
  | pre :: rest =>
      if pre = oddByte then (s₂[rest.length]?).map low else (s₂[rest.length + 1]?).map high

/-- `Trie::Key2Location`. -/
def key2Location (key : Bytes) : Location :=
  evenByte :: key

/-! ## Packed paths -/

/-- The nibbles two to a byte. -/
def packs : Path → Bytes
  | [] => []
  | [a] => [pack a 0]
  | a :: b :: p => pack a b :: packs p

/-- The path has an odd length. -/
def isOdd (p : Path) : Bool :=
  decide (p.length % 2 = 1)

/-- The location of a path. -/
def encode (p : Path) : Location :=
  (if isOdd p then oddByte else evenByte) :: packs p

/-- The path of a key. -/
def nibbles : Bytes → Path
  | [] => []
  | ch :: key => high ch :: low ch :: nibbles key

theorem isOdd_cons_cons (a b : Nibble) (p : Path) : isOdd (a :: b :: p) = isOdd p := by
  rw [isOdd, isOdd, decide_eq_decide, List.length_cons, List.length_cons]
  omega

theorem packs_eq_nil_iff (p : Path) : packs p = [] ↔ p = [] := by
  match p with
  | [] => simp [packs]
  | [a] => simp [packs]
  | a :: b :: p => simp [packs]

theorem isOdd_nibbles (key : Bytes) : isOdd (nibbles key) = false := by
  induction key with
  | nil => rfl
  | cons ch key ih => rw [nibbles, isOdd_cons_cons, ih]

theorem packs_nibbles (key : Bytes) : packs (nibbles key) = key := by
  induction key with
  | nil => rfl
  | cons ch key ih => rw [nibbles, packs, ih, pack_high_low]

theorem encode_nibbles (key : Bytes) : encode (nibbles key) = key2Location key := by
  rw [encode, isOdd_nibbles, packs_nibbles]
  rfl

theorem head?_encode (p : Path) : ((encode p).head? = some oddByte) ↔ isOdd p = true := by
  cases h : isOdd p <;> simp [encode, h, oddByte, evenByte]

/-- The loop, on packed paths. -/
theorem commonLoop_packs (p q : Path) :
    commonLoop (isOdd p) (isOdd q) (packs p) (packs q) =
      (packs (common p q), isOdd (common p q)) := by
  match p, q with
  | [], q => simp [packs, commonLoop, isOdd]
  | p, [] => cases packs p <;> simp [packs, commonLoop, isOdd]
  | [a], [b] =>
      by_cases heq : a = b
      · subst heq
        simp [packs, commonLoop, isOdd, common]
      · simp [packs, commonLoop, isOdd, common, heq]
  | [a], b :: c :: q =>
      by_cases heq : a = b
      · subst heq
        simp [packs, commonLoop, isOdd, common]
      · simp [packs, commonLoop, isOdd, common, heq]
  | a :: b :: p, [c] =>
      by_cases heq : a = c
      · subst heq
        simp [packs, commonLoop, isOdd, common]
      · simp [packs, commonLoop, isOdd, common, heq]
  | a :: b :: p, c :: d :: q =>
      have hp : ¬ (packs p = [] ∧ isOdd p = true) := by
        rintro ⟨hnil, hodd⟩
        rw [(packs_eq_nil_iff p).mp hnil] at hodd
        cases hodd
      have hq : ¬ (packs q = [] ∧ isOdd q = true) := by
        rintro ⟨hnil, hodd⟩
        rw [(packs_eq_nil_iff q).mp hnil] at hodd
        cases hodd
      rw [isOdd_cons_cons, isOdd_cons_cons, packs, packs, commonLoop, high_pack, high_pack,
        low_pack, low_pack, if_neg hp, if_neg hq, commonLoop_packs p q]
      by_cases hfirst : a = c
      · subst hfirst
        rw [if_neg (by simp), common_cons_self]
        by_cases hsecond : b = d
        · subst hsecond
          rw [if_neg (by simp), common_cons_self, packs, isOdd_cons_cons]
        · rw [if_pos hsecond, common_cons_of_ne hsecond]
          rfl
      · rw [if_pos hfirst, common_cons_of_ne hfirst]
        rfl

/-- **`CommonPrefix` is the longest common beginning.** -/
theorem commonPrefix_encode (p q : Path) :
    commonPrefix (encode p) (encode q) = encode (common p q) := by
  have hloop := commonLoop_packs p q
  have hp : decide ((encode p).head? = some oddByte) = isOdd p := by
    simp only [head?_encode, Bool.decide_eq_true]
  have hq : decide ((encode q).head? = some oddByte) = isOdd q := by
    simp only [head?_encode, Bool.decide_eq_true]
  rw [commonPrefix, hp, hq]
  change (let out := commonLoop (isOdd p) (isOdd q) (packs p) (packs q)
    (if out.2 then oddByte else evenByte) :: out.1) = _
  rw [hloop]
  rfl

theorem length_packs (p : Path) : (packs p).length = (p.length + 1) / 2 := by
  match p with
  | [] => rfl
  | [a] => simp [packs]
  | a :: b :: p =>
      rw [packs, List.length_cons, length_packs p, List.length_cons, List.length_cons]
      omega

/-- The byte in which a nibble is found. -/
theorem packs_getElem? (p : Path) (n : ℕ) (a : Nibble) (hget : p[n]? = some a) :
    ∃ ch, (packs p)[n / 2]? = some ch ∧ (if n % 2 = 0 then high ch else low ch) = a := by
  match p, n with
  | [], n => cases hget
  | [b], 0 =>
      obtain rfl := Option.some.inj hget
      exact ⟨pack b 0, rfl, high_pack b 0⟩
  | [b], n + 1 => cases hget
  | b :: c :: p, 0 =>
      obtain rfl := Option.some.inj hget
      exact ⟨pack b c, rfl, high_pack b c⟩
  | b :: c :: p, 1 =>
      obtain rfl := Option.some.inj hget
      exact ⟨pack b c, rfl, low_pack b c⟩
  | b :: c :: p, n + 2 =>
      obtain ⟨ch, hch, ha⟩ := packs_getElem? p n a hget
      refine ⟨ch, ?_, ?_⟩
      · rw [packs, show (n + 2) / 2 = n / 2 + 1 by omega]
        exact hch
      · rw [show (n + 2) % 2 = n % 2 by omega]
        exact ha

/-- **`NextBranch` is the nibble that comes next.** -/
theorem nextBranch_encode {p q : Path} {a : Nibble} (hpre : p ++ [a] <+: q) :
    nextBranch (encode p) (encode q) = some a := by
  obtain ⟨rest, rfl⟩ := hpre
  have hget : (p ++ [a] ++ rest)[p.length]? = some a := by simp
  obtain ⟨ch, hch, ha⟩ := packs_getElem? _ _ _ hget
  rw [encode, nextBranch, length_packs]
  by_cases hodd : p.length % 2 = 1
  · have hisOdd : isOdd p = true := decide_eq_true hodd
    rw [if_neg (by omega)] at ha
    rw [hisOdd, if_pos rfl, if_pos rfl, show (p.length + 1) / 2 = p.length / 2 + 1 by omega]
    change ((packs (p ++ [a] ++ rest))[p.length / 2]?).map low = some a
    rw [hch, Option.map_some, ha]
  · have hisOdd : isOdd p = false := decide_eq_false hodd
    rw [if_pos (by omega)] at ha
    rw [hisOdd, if_neg (by decide : ¬ (if false = true then oddByte else evenByte) = oddByte),
      show (p.length + 1) / 2 = p.length / 2 by omega]
    change ((packs (p ++ [a] ++ rest))[p.length / 2]?).map high = some a
    rw [hch, Option.map_some, ha]

theorem packs_injective {p q : Path} (hpacks : packs p = packs q) (hodd : isOdd p = isOdd q) :
    p = q := by
  match p, q with
  | [], q => exact ((packs_eq_nil_iff q).mp hpacks.symm).symm
  | p, [] => exact (packs_eq_nil_iff p).mp hpacks
  | [a], [b] =>
      have hab := congrArg high (List.cons.inj hpacks).1
      rw [high_pack, high_pack] at hab
      rw [hab]
  | [a], b :: c :: q =>
      rw [(packs_eq_nil_iff q).mp (List.cons.inj hpacks).2.symm, isOdd_cons_cons] at hodd
      simp [isOdd] at hodd
  | a :: b :: p, [c] =>
      rw [(packs_eq_nil_iff p).mp (List.cons.inj hpacks).2, isOdd_cons_cons] at hodd
      simp [isOdd] at hodd
  | a :: b :: p, c :: d :: q =>
      obtain ⟨hhead, htail⟩ := List.cons.inj hpacks
      have hac := congrArg high hhead
      have hbd := congrArg low hhead
      rw [high_pack, high_pack] at hac
      rw [low_pack, low_pack] at hbd
      rw [isOdd_cons_cons, isOdd_cons_cons] at hodd
      rw [hac, hbd, packs_injective htail hodd]

theorem encode_injective {p q : Path} (hencode : encode p = encode q) : p = q := by
  obtain ⟨hhead, htail⟩ := List.cons.inj hencode
  refine packs_injective htail ?_
  cases hp : isOdd p <;> cases hq : isOdd q
  · rfl
  · simp [hp, hq, evenByte, oddByte] at hhead
  · simp [hp, hq, evenByte, oddByte] at hhead
  · rfl

theorem length_encode_le {p q : Path} (hpre : p <+: q) :
    (encode p).length ≤ (encode q).length := by
  have hle := hpre.length_le
  rw [encode, encode, List.length_cons, List.length_cons, length_packs, length_packs]
  omega

theorem nibbles_injective {key key' : Bytes} (hnibbles : nibbles key = nibbles key') :
    key = key' := by
  rw [← packs_nibbles key, hnibbles, packs_nibbles]

/-! ## Strings in the encoding -/

/-- A parity byte and packed nibbles.  An odd path ends in a byte that is half used. -/
def IsLocation : Location → Prop
  | [] => False
  | pre :: body => pre = evenByte ∨ pre = oddByte ∧ ∃ ch ∈ body.getLast?, low ch = 0

/-- The nibble sequence of a location. -/
def pathOf : Location → Path
  | [] => []
  | pre :: body => if pre = oddByte then (nibbles body).dropLast else nibbles body

theorem nibbles_append (key key' : Bytes) :
    nibbles (key ++ key') = nibbles key ++ nibbles key' := by
  induction key with
  | nil => rfl
  | cons ch key ih => rw [List.cons_append, nibbles, nibbles, ih]; rfl

theorem packs_nibbles_append (key : Bytes) (p : Path) :
    packs (nibbles key ++ p) = key ++ packs p := by
  induction key with
  | nil => rfl
  | cons ch key ih =>
      calc packs (nibbles (ch :: key) ++ p)
          = pack (high ch) (low ch) :: packs (nibbles key ++ p) := rfl
        _ = ch :: key ++ packs p := by rw [pack_high_low, ih]; rfl

theorem isOdd_nibbles_append (key : Bytes) (p : Path) : isOdd (nibbles key ++ p) = isOdd p := by
  induction key with
  | nil => rfl
  | cons ch key ih =>
      calc isOdd (nibbles (ch :: key) ++ p)
          = isOdd (nibbles key ++ p) := isOdd_cons_cons _ _ _
        _ = isOdd p := ih

/-- Every string in the encoding is the location of its path. -/
theorem encode_pathOf {s : Location} (hs : IsLocation s) : encode (pathOf s) = s := by
  match s, hs with
  | pre :: body, .inl hpre =>
      subst hpre
      exact encode_nibbles body
  | pre :: body, .inr ⟨hpre, ch, hch, hlow⟩ =>
      subst hpre
      obtain ⟨key, rfl⟩ := List.getLast?_eq_some_iff.mp hch
      -- the half that is not used is the nibble zero at the end
      have hpath : pathOf (oddByte :: (key ++ [ch])) = nibbles key ++ [high ch] := by
        rw [pathOf, if_pos rfl, nibbles_append]
        exact List.dropLast_append_cons
      have hlast : pack (high ch) 0 = ch := by
        rw [← hlow, pack_high_low]
      rw [hpath, encode, isOdd_nibbles_append, packs_nibbles_append, packs, hlast]
      rfl

theorem isLocation_encode (p : Path) : IsLocation (encode p) := by
  cases hodd : isOdd p with
  | false =>
      rw [encode, hodd]
      exact .inl rfl
  | true =>
      rw [encode, hodd]
      refine .inr ⟨rfl, ?_⟩
      induction p using packs.induct with
      | case1 => cases hodd
      | case2 a => exact ⟨pack a 0, rfl, low_pack a 0⟩
      | case3 a b p ih =>
          rw [isOdd_cons_cons] at hodd
          obtain ⟨ch, hch, hlow⟩ := ih hodd
          refine ⟨ch, ?_, hlow⟩
          rw [packs, List.getLast?_cons]
          rw [Option.mem_def] at hch ⊢
          rw [hch, Option.getD_some]

theorem pathOf_encode (p : Path) : pathOf (encode p) = p :=
  encode_injective (encode_pathOf (isLocation_encode p))

/-- **Nibble paths are computed exactly.**  `CommonPrefix` of two locations is the location
of the longest common beginning of their paths, in whichever order they are given, and
where it is not the whole of the second, `NextBranch` reads the nibble that follows. -/
theorem nibble_paths_exact (s₁ s₂ : Location) (hs₁ : IsLocation s₁) (hs₂ : IsLocation s₂) :
    IsLocation (commonPrefix s₁ s₂) ∧
      (∀ r, r <+: pathOf (commonPrefix s₁ s₂) ↔ r <+: pathOf s₁ ∧ r <+: pathOf s₂) ∧
      commonPrefix s₂ s₁ = commonPrefix s₁ s₂ ∧
      (pathOf (commonPrefix s₁ s₂) ≠ pathOf s₂ →
        ∃ a, nextBranch (commonPrefix s₁ s₂) s₂ = some a ∧
          pathOf (commonPrefix s₁ s₂) ++ [a] <+: pathOf s₂) := by
  obtain ⟨p, rfl⟩ : ∃ p, s₁ = encode p := ⟨_, (encode_pathOf hs₁).symm⟩
  obtain ⟨q, rfl⟩ : ∃ q, s₂ = encode q := ⟨_, (encode_pathOf hs₂).symm⟩
  simp only [commonPrefix_encode, pathOf_encode]
  refine ⟨isLocation_encode _, fun r => ⟨?_, ?_⟩, ?_, fun hne => ?_⟩
  · intro hr
    exact ⟨hr.trans (common_prefix_left p q), hr.trans (common_prefix_right p q)⟩
  · rintro ⟨hp, hq⟩
    exact prefix_common hp hq
  · rw [common_comm]
  · obtain ⟨a, ha⟩ := exists_next (common_prefix_right p q) hne
    exact ⟨a, nextBranch_encode ha, ha⟩

/-- The paths 1 2 and 1 2 3. -/
theorem nibble_paths_exact_odd :
    IsLocation (commonPrefix [0, 0x12] [1, 0x12, 0x30]) ∧
      (∀ r, r <+: pathOf (commonPrefix [0, 0x12] [1, 0x12, 0x30]) ↔
        r <+: pathOf [0, 0x12] ∧ r <+: pathOf [1, 0x12, 0x30]) ∧
      commonPrefix [1, 0x12, 0x30] [0, 0x12] = commonPrefix [0, 0x12] [1, 0x12, 0x30] ∧
      (pathOf (commonPrefix [0, 0x12] [1, 0x12, 0x30]) ≠ pathOf [1, 0x12, 0x30] →
        ∃ a, nextBranch (commonPrefix [0, 0x12] [1, 0x12, 0x30]) [1, 0x12, 0x30] = some a ∧
          pathOf (commonPrefix [0, 0x12] [1, 0x12, 0x30]) ++ [a] <+:
            pathOf [1, 0x12, 0x30]) :=
  nibble_paths_exact [0, 0x12] [1, 0x12, 0x30] (.inl rfl) (.inr ⟨rfl, 0x30, rfl, rfl⟩)

end CegChain.Trie
