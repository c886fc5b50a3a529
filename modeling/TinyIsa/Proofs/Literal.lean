import Mathlib
import TinyIsa.Literal
import TinyIsa.Proofs.Text.Number

/-!
# Literals and their decimal texts

* `parse?_decimal`: the decimal text of a number of 64 bits is a literal with its value.
* `isReference_decimal`: it is no reference to a label.
* `checkRange_eq_ok`: what fits a field; `field_decimal`: the signed value of its word does.
-/

namespace TinyIsa

/-- A dialect whose references cannot be taken for numbers. -/
def Dialect.Distinct (d : Dialect) : Prop :=
  d.reference ≠ '-' ∧ d.reference.isDigit = false

theorem Dialect.isReference_decimal {d : Dialect} (hd : d.Distinct) (v : ℤ) :
    d.isReference (Text.decimal v) = false := by
  obtain ⟨c, s, hs, hc⟩ := Text.head_decimal v
  unfold Dialect.isReference
  rw [hs, List.head?_cons]
  -- neither a minus sign nor a digit is the reference mark
  rcases hc with rfl | hc
  · simpa using Ne.symm hd.1
  · have hne : c ≠ d.reference := by
      rintro rfl
      rw [hd.2] at hc
      exact Bool.noConfusion hc
    simpa using hne

namespace Literal

/-- Decimal digits announce no other base. -/
theorem splitBase_of_isDigit {s : List Char} (h : ∀ c ∈ s, c.isDigit = true) :
    splitBase s = (10, s) := by
  unfold splitBase
  split <;> first | rfl | skip
  all_goals exact absurd (h _ (List.mem_cons_of_mem _ List.mem_cons_self)) (by decide)

theorem parse?_decimal {v : ℤ} (h : v.natAbs ≤ maxMagnitude) :
    parse? (Text.decimal v).toList = some v := by
  have hv := Text.neg_natAbs_or v
  unfold parse? magnitude?
  rw [Text.splitSign_decimal, splitBase_of_isDigit fun c => Text.isDigit_of_mem_toDigits,
    Text.natural?_toDigits, Option.filter_some, if_pos (decide_eq_true h)]
  simpa using hv

theorem immediate_decimal {d : Dialect} (hd : d.Distinct) {v : ℤ} (h : v.natAbs ≤ maxMagnitude) :
    immediate d (Text.decimal v) = .ok v := by
  unfold immediate parse
  rw [if_neg (by simp [Dialect.isReference_decimal hd]), parse?_decimal h]

theorem checkRange_eq_ok {width : ℕ} {v w : ℤ} :
    checkRange width v = .ok w ↔ (minValue width ≤ v ∧ v ≤ maxValue width) ∧ v = w := by
  unfold checkRange
  by_cases h : minValue width ≤ v ∧ v ≤ maxValue width
  · rw [if_pos h]; simp [h]
  · rw [if_neg h]; simp [h]

/-- A field holds the signed value of any word of its width. -/
theorem checkRange_toInt {width : ℕ} (x : BitVec width) : checkRange width x.toInt = .ok x.toInt := by
  refine checkRange_eq_ok.2 ⟨⟨?_, ?_⟩, rfl⟩
  · have h := BitVec.le_toInt x
    unfold minValue
    rw [Nat.pow_eq]
    exact_mod_cast h
  · have h := BitVec.toInt_lt (x := x)
    have hp : (2 : ℤ) ^ (width - 1) ≤ 2 ^ width := by gcongr <;> omega
    unfold maxValue
    rw [Nat.pow_eq]
    push_cast
    omega

/-- The signed value of a word of less than 64 bits is within the bounds of a literal. -/
theorem natAbs_toInt_le {width : ℕ} (hw : width < 64) (x : BitVec width) :
    x.toInt.natAbs ≤ maxMagnitude := by
  have h1 := BitVec.le_toInt x
  have h2 := BitVec.toInt_lt (x := x)
  have h3 : maxMagnitude = 2 ^ 63 - 1 := by decide
  have h4 : (2 : ℤ) ^ (width - 1) ≤ 2 ^ 62 := by gcongr <;> omega
  omega

/-- **The decimal text of the signed value of a word** is an operand of its width with this value. -/
theorem field_decimal {d : Dialect} (hd : d.Distinct) {width : ℕ} (hw : width < 64) (x : BitVec width) :
    field d width (Text.decimal x.toInt) = .ok x.toInt := by
  unfold field
  rw [immediate_decimal hd (natAbs_toInt_le hw x)]
  exact checkRange_toInt x

/-- A decimal text that is an operand has the value of its number. -/
theorem eq_of_field_decimal {d : Dialect} (hd : d.Distinct) {width : ℕ} {v w : ℤ}
    (hv : v.natAbs ≤ maxMagnitude) (h : field d width (Text.decimal v) = .ok w) : w = v := by
  unfold field at h
  rw [immediate_decimal hd hv] at h
  exact (checkRange_eq_ok.1 h).2.symm

end Literal

end TinyIsa
