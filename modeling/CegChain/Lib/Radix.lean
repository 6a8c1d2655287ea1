import Mathlib.Data.Nat.Digits.Lemmas
import Mathlib.Data.Nat.Log
import Mathlib.Data.List.DropRight

/-!
# Radix conversion in a buffer of fixed size

The schoolbook way to convert a numeral from base `mult` to base `base` keeps
the result so far in a buffer of digits and, for each further digit of the
input, multiplies the buffer by `mult` and adds the digit, carrying from the low
end to the high end and dropping the last carry.  `mulAdd` is one such pass and
`convert` the whole loop; buffers are little-endian, as `Nat.ofDigits` wants
them.

`ofDigits_convert` says what the buffer holds, `ofDigits_convert_of_lt` that
nothing is dropped when the buffer is large enough, and
`reverse_dropWhile_eq_digits` that skipping the leading zeros of the buffer
leaves the usual numeral.  `noCarryLost_of_lt` is the same from the side of the carries:
every carry that a pass drops is zero.  `eq_of_ofDigits_eq` is the uniqueness of numerals for
digit sets with more than `base` digits, as long as no digit of one numeral is
congruent to a different digit of the other.
-/

namespace CegChain.Radix

variable {base mult : ℕ}

/-- One pass over the buffer: multiply by `mult`, add `carry`, drop what does
not fit. -/
def mulAdd (base mult : ℕ) : List ℕ → ℕ → List ℕ
  | [], _ => []
  | d :: ds, carry =>
      (d * mult + carry) % base :: mulAdd base mult ds ((d * mult + carry) / base)

/-- The conversion loop over the digits of the input, most significant first. -/
def convert (base mult size : ℕ) (digits : List ℕ) : List ℕ :=
  digits.foldl (mulAdd base mult) (List.replicate size 0)

@[simp] theorem length_mulAdd (buf : List ℕ) (carry : ℕ) :
    (mulAdd base mult buf carry).length = buf.length := by
  induction buf generalizing carry with
  | nil => rfl
  | cons d ds ih => simp [mulAdd, ih]

theorem lt_of_mem_mulAdd (hbase : 0 < base) {buf : List ℕ} {carry d : ℕ}
    (hd : d ∈ mulAdd base mult buf carry) : d < base := by
  induction buf generalizing carry with
  | nil => simp [mulAdd] at hd
  | cons e es ih =>
      rcases List.mem_cons.mp hd with rfl | hd
      · exact Nat.mod_lt _ hbase
      · exact ih hd

/-- A pass computes `buf * mult + carry` modulo the capacity of the buffer. -/
theorem ofDigits_mulAdd (buf : List ℕ) (carry : ℕ) :
    Nat.ofDigits base (mulAdd base mult buf carry) =
      (Nat.ofDigits base buf * mult + carry) % base ^ buf.length := by
  induction buf generalizing carry with
  | nil => simp [mulAdd, Nat.mod_one]
  | cons d ds ih =>
      set total := d * mult + carry with htotal
      have hsplit : Nat.ofDigits base (d :: ds) * mult + carry =
          total + base * (Nat.ofDigits base ds * mult) := by
        rw [Nat.ofDigits_cons, htotal]
        ring
      rw [mulAdd, Nat.ofDigits_cons, ih, hsplit, List.length_cons, pow_succ', ← htotal,
        Nat.mod_mul, Nat.add_mul_mod_self_left]
      rcases Nat.eq_zero_or_pos base with rfl | hbase
      · simp
      · rw [Nat.add_mul_div_left _ _ hbase, Nat.add_comm (total / base)]

@[simp] theorem length_convert (size : ℕ) (digits : List ℕ) :
    (convert base mult size digits).length = size := by
  refine List.foldlRecOn (motive := fun buf => buf.length = size) digits (mulAdd base mult)
    List.length_replicate ?_
  intro buf hbuf d _
  rw [length_mulAdd, hbuf]

theorem lt_of_mem_convert (hbase : 0 < base) {size d : ℕ} {digits : List ℕ}
    (hd : d ∈ convert base mult size digits) : d < base := by
  revert d
  refine List.foldlRecOn (motive := fun buf => ∀ {d}, d ∈ buf → d < base) digits
    (mulAdd base mult) ?_ fun buf _ carry _ _ hd => lt_of_mem_mulAdd hbase hd
  intro d hd
  rw [List.eq_of_mem_replicate hd]
  exact hbase

/-- Reading one more digit, least significant last. -/
theorem ofDigits_reverse_concat (digits : List ℕ) (d : ℕ) :
    Nat.ofDigits mult (digits ++ [d]).reverse = Nat.ofDigits mult digits.reverse * mult + d := by
  rw [List.reverse_append, List.reverse_singleton, List.singleton_append, Nat.ofDigits_cons]
  ring

/-- The buffer holds the value of the input modulo its capacity. -/
theorem ofDigits_convert (size : ℕ) (digits : List ℕ) :
    Nat.ofDigits base (convert base mult size digits) =
      Nat.ofDigits mult digits.reverse % base ^ size := by
  induction digits using List.reverseRecOn with
  | nil => simp [convert, Nat.ofDigits_replicate_zero]
  | append_singleton digits d ih =>
      have hstep : convert base mult size (digits ++ [d]) =
          mulAdd base mult (convert base mult size digits) d := by
        simp [convert, List.foldl_append]
      rw [hstep, ofDigits_mulAdd, ih, length_convert, ofDigits_reverse_concat, Nat.add_mod,
        Nat.mul_mod, Nat.mod_mod, ← Nat.mul_mod, ← Nat.add_mod]

/-- No carry is lost in a buffer that can hold the value. -/
theorem ofDigits_convert_of_lt {size : ℕ} {digits : List ℕ}
    (hlt : Nat.ofDigits mult digits.reverse < base ^ size) :
    Nat.ofDigits base (convert base mult size digits) = Nat.ofDigits mult digits.reverse := by
  rw [ofDigits_convert, Nat.mod_eq_of_lt hlt]

/-- The value of a numeral whose digits may exceed the base: `bound` says by how
much. -/
theorem ofDigits_add_le {bound : ℕ} {digits : List ℕ}
    (hbound : ∀ d ∈ digits, d + bound ≤ bound * mult) :
    Nat.ofDigits mult digits + bound ≤ bound * mult ^ digits.length := by
  induction digits with
  | nil => simp
  | cons d ds ih =>
      have htail := ih fun e he => hbound e (List.mem_cons_of_mem _ he)
      have hhead := hbound d (List.mem_cons_self ..)
      calc Nat.ofDigits mult (d :: ds) + bound
          = (d + bound) + mult * Nat.ofDigits mult ds := by rw [Nat.ofDigits_cons]; ring
        _ ≤ bound * mult + mult * Nat.ofDigits mult ds := Nat.add_le_add_right hhead _
        _ = mult * (Nat.ofDigits mult ds + bound) := by ring
        _ ≤ mult * (bound * mult ^ ds.length) := Nat.mul_le_mul_left _ htail
        _ = bound * mult ^ (d :: ds).length := by rw [List.length_cons, pow_succ]; ring

/-! ## Dropped carries -/

/-- The carry that a pass drops at the high end. -/
def carryOut (base mult : ℕ) : List ℕ → ℕ → ℕ
  | [], carry => carry
  | d :: ds, carry => carryOut base mult ds ((d * mult + carry) / base)

/-- Whichever digit is next, the pass for it drops nothing. -/
def NoCarryLost (base mult size : ℕ) (digits : List ℕ) : Prop :=
  ∀ before d after, digits = before ++ d :: after →
    carryOut base mult (convert base mult size before) d = 0

/-- The dropped carry is what the buffer lacks. -/
theorem ofDigits_mulAdd_add_carryOut (buf : List ℕ) (carry : ℕ) :
    Nat.ofDigits base (mulAdd base mult buf carry) +
        base ^ buf.length * carryOut base mult buf carry =
      Nat.ofDigits base buf * mult + carry := by
  induction buf generalizing carry with
  | nil => simp [mulAdd, carryOut]
  | cons d ds ih =>
      have hdivision := Nat.mod_add_div (d * mult + carry) base
      calc Nat.ofDigits base (mulAdd base mult (d :: ds) carry) +
            base ^ (d :: ds).length * carryOut base mult (d :: ds) carry
          = (d * mult + carry) % base + base *
              (Nat.ofDigits base (mulAdd base mult ds ((d * mult + carry) / base)) +
                base ^ ds.length * carryOut base mult ds ((d * mult + carry) / base)) := by
            rw [mulAdd, carryOut, Nat.ofDigits_cons, List.length_cons, pow_succ]
            ring
        _ = (d * mult + carry) % base + base * ((d * mult + carry) / base) +
              base * (Nat.ofDigits base ds * mult) := by
            rw [ih]
            ring
        _ = Nat.ofDigits base (d :: ds) * mult + carry := by
            rw [hdivision, Nat.ofDigits_cons]
            ring

theorem carryOut_eq_zero {buf : List ℕ} {carry : ℕ}
    (hlt : Nat.ofDigits base buf * mult + carry < base ^ buf.length) :
    carryOut base mult buf carry = 0 := by
  by_contra hne
  have hsplit : Nat.ofDigits base (mulAdd base mult buf carry) +
      base ^ buf.length * carryOut base mult buf carry = Nat.ofDigits base buf * mult + carry :=
    ofDigits_mulAdd_add_carryOut buf carry
  have hle : base ^ buf.length * 1 ≤ base ^ buf.length * carryOut base mult buf carry :=
    Nat.mul_le_mul_left _ (Nat.pos_of_ne_zero hne)
  omega

/-- The digits read so far are worth no more than all of them. -/
theorem ofDigits_reverse_le_append (hmult : 0 < mult) (before after : List ℕ) :
    Nat.ofDigits mult before.reverse ≤ Nat.ofDigits mult (before ++ after).reverse := by
  induction after using List.reverseRecOn with
  | nil => rw [List.append_nil]
  | append_singleton after d ih =>
      rw [← List.append_assoc, ofDigits_reverse_concat]
      calc Nat.ofDigits mult before.reverse
          ≤ Nat.ofDigits mult (before ++ after).reverse := ih
        _ ≤ Nat.ofDigits mult (before ++ after).reverse * mult := Nat.le_mul_of_pos_right _ hmult
        _ ≤ Nat.ofDigits mult (before ++ after).reverse * mult + d := Nat.le_add_right _ _

/-- A buffer that can hold the value loses no carry on the way to it. -/
theorem noCarryLost_of_lt (hmult : 0 < mult) {size : ℕ} {digits : List ℕ}
    (hlt : Nat.ofDigits mult digits.reverse < base ^ size) :
    NoCarryLost base mult size digits := by
  rintro before d after rfl
  have hle := ofDigits_reverse_le_append hmult (before ++ [d]) after
  rw [List.append_assoc, List.singleton_append, ofDigits_reverse_concat] at hle
  have hbefore : Nat.ofDigits mult before.reverse < base ^ size :=
    calc Nat.ofDigits mult before.reverse
        ≤ Nat.ofDigits mult (before ++ d :: after).reverse :=
          ofDigits_reverse_le_append hmult before (d :: after)
      _ < base ^ size := hlt
  refine carryOut_eq_zero ?_
  rw [ofDigits_convert_of_lt hbefore, length_convert]
  exact lt_of_le_of_lt hle hlt

/-! ## Leading zeros -/

theorem ofDigits_rdropWhile (buf : List ℕ) :
    Nat.ofDigits base (buf.rdropWhile (· == 0)) = Nat.ofDigits base buf := by
  induction buf using List.reverseRecOn with
  | nil => rfl
  | append_singleton buf d ih =>
      by_cases hd : d = 0
      · subst hd
        rw [List.rdropWhile_concat_pos _ _ _ (by rfl), ih, Nat.ofDigits_append_zero]
      · rw [List.rdropWhile_concat_neg _ _ _ (by simpa using hd)]

/-- Skipping the leading zeros of the buffer leaves the numeral of its value. -/
theorem reverse_dropWhile_eq_digits (hbase : 1 < base) {buf : List ℕ}
    (hbuf : ∀ d ∈ buf, d < base) :
    buf.reverse.dropWhile (· == 0) = (Nat.digits base (Nat.ofDigits base buf)).reverse := by
  have hlt : ∀ d ∈ buf.rdropWhile (· == 0), d < base := fun d hd =>
    hbuf d ((List.rdropWhile_prefix _ _).subset hd)
  have hlast : ∀ h : buf.rdropWhile (· == 0) ≠ [], (buf.rdropWhile (· == 0)).getLast h ≠ 0 := by
    intro h hzero
    exact List.rdropWhile_last_not _ _ h (by simpa using hzero)
  rw [← ofDigits_rdropWhile buf, Nat.digits_ofDigits base hbase _ hlt hlast, List.rdropWhile,
    List.reverse_reverse]

/-! ## Uniqueness of numerals -/

/-- A numeral of value zero without a leading zero is empty. -/
theorem eq_nil_of_ofDigits_eq_zero (hbase : 0 < base) {digits : List ℕ}
    (hlast : ∀ h : digits ≠ [], digits.getLast h ≠ 0) (hzero : Nat.ofDigits base digits = 0) :
    digits = [] := by
  by_contra hne
  exact hlast hne (Nat.digits_zero_of_eq_zero hbase.ne' hzero _ (List.getLast_mem hne))

/-- Two numerals of the same value without leading zeros are equal when no digit
of the first is congruent to a different digit of the second. -/
theorem eq_of_ofDigits_eq (hbase : 0 < base) :
    ∀ {first second : List ℕ},
      (∀ d ∈ first, ∀ e ∈ second, d % base = e % base → d = e) →
      (∀ h : first ≠ [], first.getLast h ≠ 0) → (∀ h : second ≠ [], second.getLast h ≠ 0) →
      Nat.ofDigits base first = Nat.ofDigits base second → first = second := by
  intro first
  induction first with
  | nil =>
      intro second _ _ hlast heq
      exact (eq_nil_of_ofDigits_eq_zero hbase hlast heq.symm).symm
  | cons d ds ih =>
      intro second hres hfirst hsecond heq
      cases second with
      | nil => exact eq_nil_of_ofDigits_eq_zero hbase hfirst heq
      | cons e es =>
          have hhead : d = e := by
            refine hres d (List.mem_cons_self ..) e (List.mem_cons_self ..) ?_
            have hmod := congrArg (· % base) heq
            simpa [Nat.ofDigits_cons, Nat.add_mul_mod_self_left] using hmod
          subst hhead
          have htail : ds = es := by
            refine ih ?_ ?_ ?_ ?_
            · exact fun x hx y hy =>
                hres x (List.mem_cons_of_mem _ hx) y (List.mem_cons_of_mem _ hy)
            · intro h
              have := hfirst (List.cons_ne_nil _ _)
              rwa [List.getLast_cons h] at this
            · intro h
              have := hsecond (List.cons_ne_nil _ _)
              rwa [List.getLast_cons h] at this
            · rw [Nat.ofDigits_cons, Nat.ofDigits_cons] at heq
              exact Nat.eq_of_mul_eq_mul_left hbase (Nat.add_left_cancel heq)
          rw [htail]

end CegChain.Radix
