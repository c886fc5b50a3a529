import Mathlib
import TinyIsa.Word.Basic

/-!
# Shifts in numbers

* `scale`: a number times a power of two, with an exponent of either sign.
* `shift_eq`, `arithmeticShift_eq`: a shift scales the unsigned or the signed value, modulo
  the width.
-/

namespace TinyIsa

/-- A number times a power of two, or divided by it and rounded down if the exponent is negative. -/
def scale (x n : ℤ) : ℤ := if 0 ≤ n then x * 2 ^ n.natAbs else x / 2 ^ n.natAbs

namespace Word

variable {w : ℕ}

theorem ofInt_scale_of_nonneg (x : BitVec w) {n : ℤ} (h : 0 ≤ n) :
    BitVec.ofInt w (scale x.toNat n) = x <<< n.natAbs := by
  unfold scale
  rw [if_pos h]
  apply BitVec.eq_of_toNat_eq
  rw [BitVec.toNat_shiftLeft, Nat.shiftLeft_eq, ← BitVec.toNat_ofNat, ← BitVec.ofInt_natCast]
  push_cast
  rfl

theorem ofInt_scale_of_neg (x : BitVec w) {n : ℤ} (h : n < 0) :
    BitVec.ofInt w (scale x.toNat n) = x >>> n.natAbs := by
  unfold scale
  rw [if_neg (not_le.2 h)]
  apply BitVec.eq_of_toNat_eq
  have hle : x.toNat / 2 ^ n.natAbs < 2 ^ w := (Nat.div_le_self _ _).trans_lt x.isLt
  have hcast : (x.toNat : ℤ) / 2 ^ n.natAbs = ((x.toNat / 2 ^ n.natAbs : ℕ) : ℤ) := by
    push_cast
    rfl
  rw [hcast, BitVec.ofInt_natCast, BitVec.toNat_ofNat, Nat.mod_eq_of_lt hle, BitVec.toNat_ushiftRight,
    Nat.shiftRight_eq_div_pow]

/-- **A shift scales the unsigned value.** -/
theorem shift_eq (x : BitVec w) (n : ℤ) : shift ⟨w, x⟩ n = ⟨w, BitVec.ofInt w (scale x.toNat n)⟩ := by
  -- beyond the width nothing is left on either side
  unfold shift
  by_cases h : 0 ≤ n
  · rw [ofInt_scale_of_nonneg x h, if_pos h]
    by_cases hw : w ≤ n.natAbs
    · rw [if_pos hw, BitVec.shiftLeft_eq_zero hw]; rfl
    · rw [if_neg hw]
  · rw [ofInt_scale_of_neg x (not_le.1 h), if_neg h]
    by_cases hw : w ≤ n.natAbs
    · rw [if_pos hw, BitVec.ushiftRight_eq_zero hw]; rfl
    · rw [if_neg hw]

/-- A shift beyond the width leaves the sign, as one by the width does. -/
theorem sshiftRight_min (x : BitVec w) (k : ℕ) : x.sshiftRight (min k w) = x.sshiftRight k := by
  rcases Nat.le_total k w with h | h
  · rw [Nat.min_eq_left h]
  · rw [Nat.min_eq_right h]
    apply BitVec.eq_of_getLsbD_eq
    intro i hi
    rw [BitVec.getLsbD_sshiftRight, BitVec.getLsbD_sshiftRight, if_neg (by omega), if_neg (by omega)]

/-- **A shift that keeps the sign scales the signed value.** -/
theorem arithmeticShift_eq (x : BitVec w) (n : ℤ) :
    arithmeticShift ⟨w, x⟩ n = ⟨w, BitVec.ofInt w (scale x.toInt n)⟩ := by
  unfold arithmeticShift
  by_cases h : 0 ≤ n
  · have hx : BitVec.ofInt w x.toNat = BitVec.ofInt w x.toInt := by
      rw [BitVec.ofInt_toInt, BitVec.ofInt_natCast, BitVec.ofNat_toNat, BitVec.setWidth_eq]
    rw [if_pos h, shift_eq]
    unfold scale
    rw [if_pos h, if_pos h, BitVec.ofInt_mul, BitVec.ofInt_mul, hx]
  · have hdiv : x.toInt / 2 ^ n.natAbs = x.toInt >>> n.natAbs := by
      rw [Int.shiftRight_eq_div_pow]
      push_cast
      rfl
    rw [if_neg h, sshiftRight_min]
    unfold scale
    rw [if_neg h, hdiv]
    rfl

end Word

end TinyIsa
