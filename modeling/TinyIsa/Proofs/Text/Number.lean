import Mathlib
import TinyIsa.Text.Number

/-!
# Decimal texts

* `natural?_toDigits`: the digits of a number spell it.
* `decimal_toList`: a decimal text is an optional minus sign and the digits of the magnitude.
* `integer?_decimal`: the decimal text of an integer spells it.
-/

namespace TinyIsa.Text

theorem digit?_of_isDigit {c : Char} (h : c.isDigit = true) :
    digit? 10 c = some (c.toNat - '0'.toNat) := by
  have hb : '0' ≤ c ∧ c ≤ '9' := by
    simpa [Char.isDigit, Char.le_def] using h
  have h9 : c.toNat ≤ '9'.toNat := hb.2
  have hlt : c.toNat - '0'.toNat < 10 := by
    have : '9'.toNat = '0'.toNat + 9 := rfl
    omega
  unfold digit?
  rw [if_pos hb, digit?.below, if_pos hlt]

/-- Reading a row of decimal digits never fails. -/
theorem foldlM_digit? {s : List Char} (h : ∀ c ∈ s, c.isDigit = true) (n : ℕ) :
    s.foldlM (fun n c => (digit? 10 c).map (10 * n + ·)) n = some (Nat.ofDigitChars 10 s n) := by
  induction s generalizing n with
  | nil => simp
  | cons c s ih =>
    rw [List.foldlM_cons, digit?_of_isDigit (h c List.mem_cons_self), Option.map_some,
      Option.bind_eq_bind, Option.bind_some, ih (fun d hd => h d (List.mem_cons_of_mem c hd)),
      Nat.ofDigitChars_cons]

theorem isDigit_of_mem_toDigits {n : ℕ} {c : Char} (h : c ∈ Nat.toDigits 10 n) :
    c.isDigit = true :=
  Nat.isDigit_of_mem_toDigits (by decide) le_rfl h

theorem natural?_toDigits (n : ℕ) : natural? 10 (Nat.toDigits 10 n) = some n := by
  unfold natural?
  rw [if_neg (by simp [Nat.toDigits_ne_nil]), foldlM_digit? fun c => isDigit_of_mem_toDigits,
    Nat.ofDigitChars_ten_toDigits]

/-- Whether the decimal text of an integer begins with a minus sign, and its digits. -/
theorem decimal_toList (v : ℤ) :
    (decimal v).toList = (if v < 0 then ['-'] else []) ++ Nat.toDigits 10 v.natAbs := by
  cases v with
  | ofNat k => simp [decimal]
  | negSucc k => simp [decimal, Int.negSucc_lt_zero]

/-- A sign is split off a decimal text, and off nothing else. -/
theorem splitSign_decimal (v : ℤ) :
    splitSign (decimal v).toList = (decide (v < 0), Nat.toDigits 10 v.natAbs) := by
  rw [decimal_toList]
  by_cases hv : v < 0
  · simp [hv, splitSign]
  · rw [if_neg hv, List.nil_append, decide_eq_false hv]
    unfold splitSign
    split
    · rename_i s h
      exact absurd (isDigit_of_mem_toDigits (h ▸ List.mem_cons_self)) (by decide)
    · rename_i s h
      exact absurd (isDigit_of_mem_toDigits (h ▸ List.mem_cons_self)) (by decide)
    · rfl

/-- The sign and the magnitude make up an integer. -/
theorem neg_natAbs_or (v : ℤ) : (if decide (v < 0) = true then -(v.natAbs : ℤ) else v.natAbs) = v := by
  by_cases hv : v < 0
  · simp only [hv, decide_true, if_true]; omega
  · simp only [hv, decide_false, Bool.false_eq_true, if_false]; omega

theorem integer?_decimal (v : ℤ) : integer? (decimal v).toList = some v := by
  have h := neg_natAbs_or v
  unfold integer?
  rw [splitSign_decimal, natural?_toDigits]
  simpa using h

/-- A decimal text begins with a minus sign or a digit. -/
theorem head_decimal (v : ℤ) :
    ∃ c s, (decimal v).toList = c :: s ∧ (c = '-' ∨ c.isDigit = true) := by
  rw [decimal_toList]
  by_cases hv : v < 0
  · exact ⟨'-', _, by rw [if_pos hv]; rfl, Or.inl rfl⟩
  · rw [if_neg hv, List.nil_append]
    cases h : Nat.toDigits 10 v.natAbs with
    | nil => exact absurd h Nat.toDigits_ne_nil
    | cons c s =>
      exact ⟨c, s, rfl, Or.inr (isDigit_of_mem_toDigits (h ▸ List.mem_cons_self))⟩

end TinyIsa.Text
