import Mathlib
import TinyIsa.Proofs.Word.Conversion

/-!
# Shifts and bitwise operations, bit by bit

A shift moves every bit by the amount, which may be of either sign and of any size. To the right a shift of
the signed value brings the sign in: it divides by a power of two and rounds down. A bitwise operation takes
the bits of the second word as far as it has them and its last one from there on.

* `bit_shift`: **a bit of a shifted word** is the one that stood the amount below it.
* `scale_eq_floor`: scaling an integer by a power of two is rounding down its multiple.
* `bit_arithmeticShift`, `arithmeticShift_eq_sign`: where the sign comes in, and when nothing else is left.
* `bit_operand`: a bit of a word at another width.
* `Word.shifts_bitwise`: the shifts and the bitwise operations on words of any two widths.
-/

namespace TinyIsa

/-- **Scaling is rounding down** the multiple by a power of two, in the rational numbers. -/
theorem scale_eq_floor (x n : ℤ) : scale x n = ⌊(x : ℚ) * 2 ^ n⌋ := by
  unfold scale
  by_cases h : 0 ≤ n
  · obtain ⟨k, rfl⟩ := Int.eq_ofNat_of_zero_le h
    have hcast : (x : ℚ) * 2 ^ (k : ℤ) = ((x * 2 ^ k : ℤ) : ℚ) := by
      push_cast
      rfl
    rw [if_pos h, Int.natAbs_natCast, hcast, Int.floor_intCast]
  · obtain ⟨k, hk⟩ := Int.eq_ofNat_of_zero_le (by omega : 0 ≤ -n)
    obtain rfl : n = -k := by omega
    have hcast : (x : ℚ) * 2 ^ (-k : ℤ) = (x : ℚ) / ((2 ^ k : ℕ) : ℚ) := by
      rw [zpow_neg, zpow_natCast, ← div_eq_mul_inv]
      push_cast
      rfl
    rw [if_neg h, hcast, Rat.floor_intCast_div_natCast, Int.natAbs_neg, Int.natAbs_natCast]
    push_cast
    rfl

namespace Word

variable {a b : Word} {n : ℤ} {i : ℕ}

/-! ### Shifts -/

theorem width_shift (a : Word) (n : ℤ) : (a.shift n).width = a.width := by
  unfold shift
  split_ifs <;> rfl

theorem width_arithmeticShift (a : Word) (n : ℤ) : (a.arithmeticShift n).width = a.width := by
  unfold arithmeticShift
  split_ifs
  · exact width_shift a n
  · rfl

/-- **A bit of a shifted word** is the one that stood the amount below it, if there was one. -/
theorem bit_shift (a : Word) (n : ℤ) (hi : i < a.width) : (a.shift n).bit i =
    if 0 ≤ i - n ∧ i - n < a.width then a.bit (i - n).toNat else false := by
  unfold shift
  by_cases hw : a.width ≤ n.natAbs
  · -- so far away there is no bit
    have hout : ¬(0 ≤ i - n ∧ i - n < a.width) := by omega
    rw [if_pos hw, if_neg hout]
    exact BitVec.getLsbD_zero
  rw [if_neg hw]
  by_cases hn : 0 ≤ n
  · rw [if_pos hn]
    have hleft : bit ⟨a.width, a.bits <<< n.natAbs⟩ i = (!decide (i < n.natAbs) && a.bit (i - n.natAbs)) := by
      unfold bit
      rw [BitVec.getLsbD_shiftLeft, decide_eq_true hi, Bool.true_and]
    rw [hleft]
    by_cases hin : i < n.natAbs
    · have hout : ¬(0 ≤ i - n ∧ i - n < a.width) := by omega
      rw [if_neg hout, decide_eq_true hin, Bool.not_true, Bool.false_and]
    · have hplace : (i - n).toNat = i - n.natAbs := by omega
      have hthere : 0 ≤ i - n ∧ i - n < a.width := by omega
      rw [if_pos hthere, hplace, decide_eq_false hin, Bool.not_false, Bool.true_and]
  · rw [if_neg hn]
    have hright : bit ⟨a.width, a.bits >>> n.natAbs⟩ i = a.bit (n.natAbs + i) := by
      unfold bit
      rw [BitVec.getLsbD_ushiftRight]
    rw [hright]
    by_cases hin : n.natAbs + i < a.width
    · have hplace : (i - n).toNat = n.natAbs + i := by omega
      have hthere : 0 ≤ i - n ∧ i - n < a.width := by omega
      rw [if_pos hthere, hplace]
    · have hout : ¬(0 ≤ i - n ∧ i - n < a.width) := by omega
      rw [if_neg hout, bit_of_le (not_lt.1 hin)]

theorem arithmeticShift_of_nonneg (a : Word) (h : 0 ≤ n) : a.arithmeticShift n = a.shift n := if_pos h

/-- **The sign comes in from the left**, where a shift to the right finds no bit. -/
theorem bit_arithmeticShift (a : Word) (hn : n < 0) (hi : i < a.width) : (a.arithmeticShift n).bit i =
    if i - n < a.width then a.bit (i - n).toNat else a.bit (a.width - 1) := by
  have hright : (a.arithmeticShift n).bit i =
      if n.natAbs + i < a.width then a.bit (n.natAbs + i) else a.bit (a.width - 1) := by
    unfold arithmeticShift bit
    rw [if_neg (not_le.2 hn), sshiftRight_min, BitVec.getLsbD_sshiftRight, decide_eq_false (not_le.2 hi),
      Bool.not_false, Bool.true_and, BitVec.msb_eq_getLsbD_last]
  rw [hright]
  by_cases hin : n.natAbs + i < a.width
  · have hplace : (i - n).toNat = n.natAbs + i := by omega
    have hthere : i - n < a.width := by omega
    rw [if_pos hin, if_pos hthere, hplace]
  · have hout : ¬(i - n < (a.width : ℤ)) := by omega
    rw [if_neg hin, if_neg hout]

theorem bit_invert_zero {w : ℕ} (hi : i < w) : (zero w).invert.bit i = true := by
  unfold bit invert zero
  simp [hi]

/-- **Beyond the width** a shift to the right leaves nothing but the sign. -/
theorem arithmeticShift_eq_sign (a : Word) (hn : n < 0) (hw : a.width ≤ -n) :
    a.arithmeticShift n = if a.bit (a.width - 1) then (zero a.width).invert else zero a.width := by
  have hwidth := width_arithmeticShift a n
  have hsign : ∀ i < a.width, (a.arithmeticShift n).bit i = a.bit (a.width - 1) := by
    intro i hi
    have hout : ¬(i - n < (a.width : ℤ)) := by omega
    rw [bit_arithmeticShift a hn hi, if_neg hout]
  by_cases hbit : a.bit (a.width - 1) = true
  · rw [if_pos hbit]
    refine eq_of_bit hwidth fun i hi => ?_
    rw [hwidth] at hi
    rw [hsign i hi, hbit, bit_invert_zero hi]
  · rw [if_neg hbit]
    refine eq_of_bit hwidth fun i hi => ?_
    rw [hwidth] at hi
    rw [hsign i hi, eq_false_of_ne_true hbit]
    exact BitVec.getLsbD_zero.symm

/-- **The shifted signed value** is rounded down, in the word of the width that is congruent to it. -/
theorem eq_arithmeticShift_iff (a c : Word) (n : ℤ) : c = a.arithmeticShift n ↔
    c.width = a.width ∧ c.toInt ≡ ⌊(a.toInt : ℚ) * 2 ^ n⌋ [ZMOD 2 ^ a.width] := by
  have hshift : a.arithmeticShift n = ofInt a.width ⌊(a.toInt : ℚ) * 2 ^ n⌋ := by
    rw [← scale_eq_floor]
    exact arithmeticShift_eq a.bits n
  rw [hshift, eq_ofInt_iff]

/-! ### Bitwise operations -/

/-- **A bit of a word at another width**: beyond its own width its last one. -/
theorem bit_operand (b : Word) {w : ℕ} (hi : i < w) : (b.operand w).getLsbD i = b.bit (min i (b.width - 1)) := by
  unfold operand
  rw [BitVec.getLsbD_signExtend, decide_eq_true hi, Bool.true_and, BitVec.msb_eq_getLsbD_last]
  by_cases hb : i < b.width
  · have hmin : min i (b.width - 1) = i := by omega
    rw [if_pos hb, hmin]
    rfl
  · have hmin : min i (b.width - 1) = b.width - 1 := by omega
    rw [if_neg hb, hmin]
    rfl

section

variable (a b : Word) (hi : i < a.width)

include hi

theorem bit_and : (a.and b).bit i = (a.bit i && b.bit (min i (b.width - 1))) := by
  rw [← bit_operand b hi]
  exact BitVec.getLsbD_and

theorem bit_or : (a.or b).bit i = (a.bit i || b.bit (min i (b.width - 1))) := by
  rw [← bit_operand b hi]
  exact BitVec.getLsbD_or

theorem bit_xor : (a.xor b).bit i = (a.bit i ^^ b.bit (min i (b.width - 1))) := by
  rw [← bit_operand b hi]
  exact BitVec.getLsbD_xor

end

/-! ### Words of any two widths -/

/-- **Shifts and bitwise operations, bit by bit.** For every word of `w` bits, every amount of 64 bits, the
least one included, and every other word, at any two widths from 1 to 64:

* A shift keeps the width; bit `i` of the result is the one that stood `n` places below it, and clear if
  there is none.
* A shift that keeps the sign gives the word of the same width that is congruent to the signed value times
  `2 ^ n`, rounded down. To the left it is the same as the other shift. To the right the sign comes in, and
  by as many places as the word has or more nothing else is left.
* Bit `i` of a conjunction or disjunction is that of bit `i` of the one and bit `i`, or else the last bit,
  of the other.
* No shift gets stuck in a register of 64 bits, nor does a bitwise operation, and what they leave there is
  the word of the operation. -/
theorem shifts_bitwise {a b : Word} (ha : 1 ≤ a.width ∧ a.width ≤ maxWidth)
    (hb : 1 ≤ b.width ∧ b.width ≤ maxWidth) (n : Int64) :
    ((a.shift n.toInt).width = a.width ∧ ∀ i < a.width, (a.shift n.toInt).bit i =
      if 0 ≤ (i : ℤ) - n.toInt ∧ (i : ℤ) - n.toInt < a.width then a.bit ((i : ℤ) - n.toInt).toNat else false) ∧
    (∀ c : Word, c = a.arithmeticShift n.toInt ↔
      c.width = a.width ∧ c.toInt ≡ ⌊(a.toInt : ℚ) * 2 ^ n.toInt⌋ [ZMOD 2 ^ a.width]) ∧
    (0 ≤ n.toInt → a.arithmeticShift n.toInt = a.shift n.toInt) ∧
    (n.toInt < 0 → ∀ i < a.width, (a.arithmeticShift n.toInt).bit i =
      if (i : ℤ) - n.toInt < a.width then a.bit ((i : ℤ) - n.toInt).toNat else a.bit (a.width - 1)) ∧
    (a.width ≤ -n.toInt → a.arithmeticShift n.toInt =
      if a.bit (a.width - 1) then (zero a.width).invert else zero a.width) ∧
    (∀ op : Dyadic, (op.word a b).width = a.width) ∧
    (∀ i < a.width, (a.and b).bit i = (a.bit i && b.bit (min i (b.width - 1))) ∧
      (a.or b).bit i = (a.bit i || b.bit (min i (b.width - 1))) ∧
      (a.xor b).bit i = (a.bit i ^^ b.bit (min i (b.width - 1)))) ∧
    a.limb.shift? n = some (a.shift n.toInt).limb ∧
    a.limb.arithmeticShift? n = some (a.arithmeticShift n.toInt).limb ∧
    (0 ≤ n.toInt → a.limb.arithmeticShift? n = a.limb.shift? n) ∧
    ∀ op : Dyadic, op.limb? a.limb b.limb = some (op.word a b).limb := by
  have hshift := shift?_limb ha n
  have harithmetic := arithmeticShift?_limb ha n
  refine ⟨⟨width_shift a n.toInt, fun i hi => bit_shift a n.toInt hi⟩,
    fun c => eq_arithmeticShift_iff a c n.toInt, arithmeticShift_of_nonneg a,
    fun hn i hi => bit_arithmeticShift a hn hi, fun hw => ?_, fun op => op.width_word a b,
    fun i hi => ⟨bit_and a b hi, bit_or a b hi, bit_xor a b hi⟩, hshift, harithmetic, fun hn => ?_,
    fun op => op.limb?_eq ha.2 hb⟩
  · have hpos : 1 ≤ (a.width : ℤ) := by exact_mod_cast ha.1
    exact arithmeticShift_eq_sign a (by omega) hw
  · rw [harithmetic, hshift, arithmeticShift_of_nonneg a hn]

/-- The least amount, by which `-4` of three bits is shifted to `-1`, and a shift of 64 bits to the left up
to the last one; `-4` enters a conjunction of five bits with its sign. -/
theorem shifts_bitwise_least : ∃ a b : Word, a = ofInt 3 (-4) ∧ b = ofInt 5 10 ∧
    (1 ≤ a.width ∧ a.width ≤ maxWidth) ∧ (1 ≤ b.width ∧ b.width ≤ maxWidth) ∧
    a.arithmeticShift Int64.minValue.toInt = ofInt 3 (-1) ∧
    a.limb.shift? Int64.minValue = some (zero 3).limb ∧ (b.and a).bit 3 = true ∧ (b.and a).bit 4 = false ∧
    ((ofInt 64 3).shift 63).bit 63 = true := by
  have ha : 1 ≤ (ofInt 3 (-4)).width ∧ (ofInt 3 (-4)).width ≤ maxWidth := by decide
  have hb : 1 ≤ (ofInt 5 10).width ∧ (ofInt 5 10).width ≤ maxWidth := by decide
  have hc : 1 ≤ (ofInt 64 3).width ∧ (ofInt 64 3).width ≤ maxWidth := by decide
  obtain ⟨-, -, -, -, hsign, -, -, hshift, -⟩ := shifts_bitwise ha hb Int64.minValue
  obtain ⟨-, -, -, -, -, -, hand, -⟩ := shifts_bitwise hb ha 0
  obtain ⟨⟨-, hbit⟩, -⟩ := shifts_bitwise hc ha 63
  refine ⟨_, _, rfl, rfl, ha, hb, ?_, ?_, ?_, ?_, ?_⟩
  · exact (hsign (by decide)).trans (by decide)
  · exact hshift.trans (by decide)
  · exact (hand 3 (by decide)).1.trans (by decide)
  · exact (hand 4 (by decide)).1.trans (by decide)
  · exact (hbit 63 (by decide)).trans (by decide)

end Word

end TinyIsa
