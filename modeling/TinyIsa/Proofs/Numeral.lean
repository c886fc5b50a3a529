import Mathlib
import TinyIsa.Proofs.Literal

/-!
# The grammar of literals

A literal is an optional sign and a magnitude, and a magnitude is a row of digits: decimal ones, or
hexadecimal or binary ones behind the mark of their base. What is read of a literal is the number that
it spells, whatever its length, as long as its magnitude has 63 bits.

* `IsDigit`, `Numeral`, `Magnitude`, `Spells`: the grammar, with the number that is spelled.
* `natural?_eq_some`, `magnitude?_eq_some`, `parse?_eq_some`: what is read, level by level.
* `numeral_toDigits`, `Numeral.zeros`: a number that is written is a numeral, with zeros in front or without.
* `checkedMagnitude?`: a reading that gives up on the way, at the first number that is too large;
  `magnitude?_eq_checked`: it reads the same.
* `parse_accepts`: **a literal is accepted exactly when the grammar has it**, with its value.
-/

namespace TinyIsa.Literal

/-! ### The grammar -/

/-- A digit of a base with its value. From ten on the digits are letters, in either case. -/
def IsDigit (base : ℕ) (c : Char) (d : ℕ) : Prop :=
  d < base ∧ (c = Nat.digitChar d ∨ c = (Nat.digitChar d).toUpper)

/-- One digit of a base or more, the most significant one first, and the number that they spell. -/
def Numeral (base : ℕ) (s : List Char) (n : ℕ) : Prop :=
  s ≠ [] ∧ ∃ digits, List.Forall₂ (IsDigit base) s digits ∧ n = Nat.ofDigits base digits.reverse

/-- The magnitude of a literal and its number. -/
inductive Magnitude : List Char → ℕ → Prop
  | decimal {s : List Char} {n : ℕ} : Numeral 10 s n → Magnitude s n
  | hexadecimal {x : Char} {s : List Char} {n : ℕ} : x = 'x' ∨ x = 'X' → Numeral 16 s n → Magnitude ('0' :: x :: s) n
  | binary {b : Char} {s : List Char} {n : ℕ} : b = 'b' ∨ b = 'B' → Numeral 2 s n → Magnitude ('0' :: b :: s) n

/-- A literal and its number: a sign at most, and a magnitude. -/
inductive Spells : List Char → ℤ → Prop
  | unsigned {s : List Char} {n : ℕ} : Magnitude s n → Spells s n
  | positive {s : List Char} {n : ℕ} : Magnitude s n → Spells ('+' :: s) n
  | negative {s : List Char} {n : ℕ} : Magnitude s n → Spells ('-' :: s) (-n)

/-! ### Digits -/

theorem below_eq_some {base v d : ℕ} : Text.digit?.below base v = some d ↔ v < base ∧ v = d := by
  unfold Text.digit?.below
  split <;> simp_all

/-- The digits of a base are those of the largest one with smaller values. -/
theorem digit?_eq_some_iff {base : ℕ} (h : base ≤ 36) {c : Char} {d : ℕ} :
    Text.digit? base c = some d ↔ d < base ∧ Text.digit? 36 c = some d := by
  have hbelow : ∀ v, Text.digit?.below base v = some d ↔ d < base ∧ Text.digit?.below 36 v = some d := fun v => by
    rw [below_eq_some, below_eq_some]
    omega
  unfold Text.digit?
  split_ifs
  · exact hbelow _
  · exact hbelow _
  · exact hbelow _
  · simp

/-- **A digit is read as its value**, in the bases that literals have. -/
theorem digit?_eq_some {base : ℕ} (hbase : base ≤ 16) {c : Char} {d : ℕ} :
    Text.digit? base c = some d ↔ IsDigit base c d := by
  rw [digit?_eq_some_iff (by omega)]
  refine and_congr_right fun hd => ?_
  have h16 : d < 16 := by omega
  constructor
  · intro h
    have hchar : Char.ofNat c.toNat = c := Char.ofNat_toNat c
    unfold Text.digit? at h
    -- a decimal digit, a small letter or a capital
    split_ifs at h with hdigit hsmall hcapital
    · have hlow : '0'.toNat ≤ c.toNat := hdigit.1
      have hhigh : c.toNat ≤ '9'.toNat := hdigit.2
      have hcode : c.toNat = '0'.toNat + d := by
        have hv := (below_eq_some.1 h).2
        omega
      have hd10 : d < 10 := by
        have h9 : '9'.toNat = '0'.toNat + 9 := rfl
        omega
      rw [← hchar, hcode]
      interval_cases d <;> decide
    · have hcode : c.toNat = 'a'.toNat + (d - 10) ∧ 10 ≤ d := by
        have hlow : 'a'.toNat ≤ c.toNat := hsmall.1
        have hv := (below_eq_some.1 h).2
        omega
      have h10 := hcode.2
      rw [← hchar, hcode.1]
      interval_cases d <;> decide
    · have hcode : c.toNat = 'A'.toNat + (d - 10) ∧ 10 ≤ d := by
        have hlow : 'A'.toNat ≤ c.toNat := hcapital.1
        have hv := (below_eq_some.1 h).2
        omega
      have h10 := hcode.2
      rw [← hchar, hcode.1]
      interval_cases d <;> decide
  · intro h
    interval_cases d <;> rcases h with rfl | rfl <;> decide

theorem isDigit_of_decimal {c : Char} {d : ℕ} (h : IsDigit 10 c d) : c.isDigit = true := by
  obtain ⟨hd, hc⟩ := h
  interval_cases d <;> rcases hc with rfl | rfl <;> decide

/-! ### Rows of digits -/

/-- Reading digits behind a number, by induction on them: each digit read moves the number one place up. -/
theorem foldlM_digit?_eq_some {base : ℕ} (hbase : base ≤ 16) {s : List Char} {start n : ℕ} :
    s.foldlM (fun n c => (Text.digit? base c).map (base * n + ·)) start = some n ↔
      ∃ digits, List.Forall₂ (IsDigit base) s digits ∧
        n = base ^ s.length * start + Nat.ofDigits base digits.reverse := by
  induction s generalizing start with
  | nil => simp [eq_comm]
  | cons c s ih =>
    have hplace : ∀ d (digits : List ℕ), s.length = digits.length →
        base ^ s.length * (base * start + d) + Nat.ofDigits base digits.reverse =
          base ^ (c :: s).length * start + Nat.ofDigits base (d :: digits).reverse := by
      intro d digits hlen
      rw [Nat.ofDigits_reverse_cons, ← hlen, List.length_cons, pow_succ]
      ring
    rw [List.foldlM_cons, Option.bind_eq_bind, Option.bind_eq_some_iff]
    constructor
    · rintro ⟨m, hm, hrest⟩
      obtain ⟨d, hd, rfl⟩ := Option.map_eq_some_iff.1 hm
      obtain ⟨digits, hdigits, rfl⟩ := ih.1 hrest
      exact ⟨d :: digits, .cons ((digit?_eq_some hbase).1 hd) hdigits, hplace d digits hdigits.length_eq⟩
    · rintro ⟨digits, hdigits, rfl⟩
      obtain ⟨d, rest, hd, hrest, rfl⟩ := List.forall₂_cons_left_iff.1 hdigits
      refine ⟨base * start + d, Option.map_eq_some_iff.2 ⟨d, (digit?_eq_some hbase).2 hd, rfl⟩, ?_⟩
      exact ih.2 ⟨rest, hrest, (hplace d rest hrest.length_eq).symm⟩

/-- **A row of digits is read as the number that it spells.** -/
theorem natural?_eq_some {base : ℕ} (hbase : base ≤ 16) {s : List Char} {n : ℕ} :
    Text.natural? base s = some n ↔ Numeral base s n := by
  unfold Text.natural? Numeral
  cases s with
  | nil => simp
  | cons c s =>
    rw [if_neg (by simp), foldlM_digit?_eq_some hbase]
    simp

/-- Every character of a numeral is a digit. -/
theorem Numeral.exists_isDigit {base : ℕ} {s : List Char} {n : ℕ} (h : Numeral base s n) {c : Char}
    (hc : c ∈ s) : ∃ d, IsDigit base c d := by
  obtain ⟨-, digits, hdigits, -⟩ := h
  obtain ⟨k, hk, rfl⟩ := List.getElem_of_mem hc
  obtain ⟨hlen, hget⟩ := List.forall₂_iff_get.1 hdigits
  exact ⟨digits[k], hget k hk (hlen ▸ hk)⟩

/-! ### Digits that are written -/

/-- The digits of a number that is written are a numeral of it, by induction on what is left in front. -/
theorem numeral_toDigits {base : ℕ} (hbase : 1 < base) (n : ℕ) : Numeral base (Nat.toDigits base n) n := by
  have hdigit : ∀ d < base, IsDigit base (Nat.digitChar d) d := fun d hd => ⟨hd, .inl rfl⟩
  induction n using Nat.strong_induction_on with
  | _ n ih =>
    refine ⟨Nat.toDigits_ne_nil, ?_⟩
    rcases Nat.lt_or_ge n base with hlt | hge
    · rw [Nat.toDigits_of_lt_base hlt]
      exact ⟨[n], .cons (hdigit n hlt) .nil, by simp⟩
    · obtain ⟨-, digits, hdigits, hvalue⟩ := ih (n / base) (Nat.div_lt_self (by omega) hbase)
      have hlast : IsDigit base (Nat.digitChar (n % base)) (n % base) := hdigit _ (Nat.mod_lt n (by omega))
      rw [Nat.toDigits_of_base_le hbase hge]
      refine ⟨digits ++ [n % base], List.rel_append hdigits (.cons hlast .nil), ?_⟩
      rw [List.reverse_append, List.reverse_singleton, List.singleton_append, Nat.ofDigits_cons, ← hvalue]
      exact (Nat.mod_add_div n base).symm

/-- Zeros in front make no difference. -/
theorem Numeral.zeros {base : ℕ} (hbase : 0 < base) {s : List Char} {n : ℕ} (h : Numeral base s n) (k : ℕ) :
    Numeral base (List.replicate k '0' ++ s) n := by
  obtain ⟨hs, digits, hdigits, rfl⟩ := h
  have hzero : IsDigit base '0' 0 := ⟨hbase, .inl rfl⟩
  have hzeros : List.Forall₂ (IsDigit base) (List.replicate k '0') (List.replicate k 0) := by
    induction k with
    | zero => exact .nil
    | succ k ih => exact .cons hzero ih
  refine ⟨List.append_ne_nil_of_right_ne_nil _ hs, List.replicate k 0 ++ digits,
    List.rel_append hzeros hdigits, ?_⟩
  rw [List.reverse_append, List.reverse_replicate, Nat.ofDigits_append_replicate_zero]

theorem isAlphanum_of_isDigit {c : Char} {d : ℕ} (h : IsDigit 16 c d) : c.isAlphanum = true := by
  obtain ⟨hd, hc⟩ := h
  interval_cases d <;> rcases hc with rfl | rfl <;> decide

/-- A numeral consists of letters and digits. -/
theorem Numeral.forall_isAlphanum {s : List Char} {n : ℕ} (h : Numeral 16 s n) :
    ∀ c ∈ s, c.isAlphanum = true := by
  intro c hc
  obtain ⟨d, hd⟩ := h.exists_isDigit hc
  exact isAlphanum_of_isDigit hd

/-! ### Magnitudes -/

theorem Numeral.forall_isDigit {s : List Char} {n : ℕ} (h : Numeral 10 s n) : ∀ c ∈ s, c.isDigit = true := by
  intro c hc
  obtain ⟨d, hd⟩ := h.exists_isDigit hc
  exact isDigit_of_decimal hd

theorem base_of_splitBase (s : List Char) : 0 < (splitBase s).1 ∧ (splitBase s).1 ≤ 16 := by
  unfold splitBase
  split <;> simp

/-- The digits behind the mark of their base are read in this base. -/
theorem natural?_splitBase {s : List Char} {n : ℕ} :
    Text.natural? (splitBase s).1 (splitBase s).2 = some n ↔ Magnitude s n := by
  rw [natural?_eq_some (base_of_splitBase s).2]
  constructor
  · intro h
    unfold splitBase at h
    split at h
    · exact .hexadecimal (.inl rfl) h
    · exact .hexadecimal (.inr rfl) h
    · exact .binary (.inl rfl) h
    · exact .binary (.inr rfl) h
    · exact .decimal h
  · intro h
    cases h with
    | decimal h =>
      rw [splitBase_of_isDigit h.forall_isDigit]
      exact h
    | hexadecimal hx h => rcases hx with rfl | rfl <;> exact h
    | binary hb h => rcases hb with rfl | rfl <;> exact h

theorem magnitude?_eq_some {s : List Char} {n : ℕ} :
    magnitude? s = some n ↔ Magnitude s n ∧ n ≤ maxMagnitude := by
  unfold magnitude?
  rw [Option.filter_eq_some_iff, natural?_splitBase, decide_eq_true_iff]

/-- A magnitude begins with a digit. -/
theorem Magnitude.head {s : List Char} {n : ℕ} (h : Magnitude s n) :
    ∃ c rest, s = c :: rest ∧ c.isDigit = true := by
  cases h with
  | decimal h =>
    obtain ⟨c, rest, rfl⟩ := List.exists_cons_of_ne_nil h.1
    exact ⟨c, rest, rfl, h.forall_isDigit c List.mem_cons_self⟩
  | hexadecimal => exact ⟨'0', _, rfl, by decide⟩
  | binary => exact ⟨'0', _, rfl, by decide⟩

/-! ### Signs -/

theorem splitSign_of_magnitude {s : List Char} {n : ℕ} (h : Magnitude s n) :
    Text.splitSign s = (false, s) := by
  obtain ⟨c, rest, rfl, hc⟩ := h.head
  unfold Text.splitSign
  split
  · rename_i heq
    rw [(List.cons.inj heq).1] at hc
    exact absurd hc (by decide)
  · rename_i heq
    rw [(List.cons.inj heq).1] at hc
    exact absurd hc (by decide)
  · rfl

/-- The magnitude of a literal stands behind its sign. -/
theorem spells_iff {s : List Char} {v : ℤ} : Spells s v ↔
    ∃ n, Magnitude (Text.splitSign s).2 n ∧ v = if (Text.splitSign s).1 then -(n : ℤ) else n := by
  constructor
  · intro h
    cases h with
    | unsigned h =>
      rw [splitSign_of_magnitude h]
      exact ⟨_, h, rfl⟩
    | positive h => exact ⟨_, h, rfl⟩
    | negative h => exact ⟨_, h, rfl⟩
  · rintro ⟨n, h, rfl⟩
    unfold Text.splitSign at h ⊢
    split at h
    · exact .negative h
    · exact .positive h
    · exact .unsigned h

/-- **A literal is read as the number that it spells**, within bounds. -/
theorem parse?_eq_some {s : List Char} {v : ℤ} :
    parse? s = some v ↔ Spells s v ∧ v.natAbs ≤ maxMagnitude := by
  have habs : ∀ n : ℕ, (if (Text.splitSign s).1 then -(n : ℤ) else n).natAbs = n := fun n => by
    split <;> simp
  have hparse : parse? s = (magnitude? (Text.splitSign s).2).map fun (n : ℕ) =>
      if (Text.splitSign s).1 then -(n : ℤ) else n := by
    unfold parse?
    cases magnitude? (Text.splitSign s).2 <;> rfl
  simp only [hparse, Option.map_eq_some_iff, magnitude?_eq_some, spells_iff]
  constructor
  · rintro ⟨n, ⟨hn, hmax⟩, rfl⟩
    exact ⟨⟨n, hn, rfl⟩, (habs n).symm ▸ hmax⟩
  · rintro ⟨⟨n, hn, rfl⟩, hmax⟩
    exact ⟨n, ⟨hn, habs n ▸ hmax⟩, rfl⟩

/-! ### Bounds -/

/-- A number within the bounds of a literal. -/
def bounded? (n : ℕ) : Option ℕ :=
  if n ≤ maxMagnitude then some n else none

/-- A digit read behind a number, where neither the product nor the sum is out of bounds. -/
def pushDigit? (base n : ℕ) (c : Char) : Option ℕ := do
  bounded? ((← bounded? (base * n)) + (← Text.digit? base c))

/-- The number that a magnitude spells, given up on at the first product or sum that is out of bounds. -/
def checkedMagnitude? (s : List Char) : Option ℕ :=
  if (splitBase s).2.isEmpty then none
  else (splitBase s).2.foldlM (pushDigit? (splitBase s).1) 0

theorem pushDigit?_eq (base n : ℕ) (c : Char) :
    pushDigit? base n c = ((Text.digit? base c).map (base * n + ·)).filter (· ≤ maxMagnitude) := by
  unfold pushDigit? bounded?
  cases Text.digit? base c with
  | none => split <;> rfl
  | some d =>
    by_cases h : base * n ≤ maxMagnitude
    · simp [h, Option.filter_some]
    · have hsum : ¬base * n + d ≤ maxMagnitude := by omega
      simp [h, hsum, Option.filter_some]

/-- A number that is out of bounds stays so, whatever digits follow. -/
theorem filter_foldlM_of_lt {base start : ℕ} (hbase : 0 < base) (h : maxMagnitude < start) (s : List Char) :
    (s.foldlM (fun n c => (Text.digit? base c).map (base * n + ·)) start).filter (· ≤ maxMagnitude) = none := by
  induction s generalizing start with
  | nil => simpa [Option.filter_some] using h
  | cons c s ih =>
    rw [List.foldlM_cons]
    cases Text.digit? base c with
    | none => rfl
    | some d =>
      have hnext : start ≤ base * start + d := Nat.le_add_right_of_le (Nat.le_mul_of_pos_left start hbase)
      exact ih (lt_of_lt_of_le h hnext)

/-- **No number on the way is out of bounds** when the last one is not. -/
theorem foldlM_pushDigit? {base start : ℕ} (hbase : 0 < base) (h : start ≤ maxMagnitude) (s : List Char) :
    s.foldlM (pushDigit? base) start =
      (s.foldlM (fun n c => (Text.digit? base c).map (base * n + ·)) start).filter (· ≤ maxMagnitude) := by
  induction s generalizing start with
  | nil => simpa [Option.filter_some] using h
  | cons c s ih =>
    rw [List.foldlM_cons, List.foldlM_cons, pushDigit?_eq]
    cases Text.digit? base c with
    | none => rfl
    | some d =>
      rw [Option.map_some, Option.filter_some]
      by_cases hd : base * start + d ≤ maxMagnitude
      · rw [if_pos (decide_eq_true hd)]
        exact ih hd
      · rw [if_neg (by simpa using hd)]
        exact (filter_foldlM_of_lt hbase (by omega) s).symm

theorem magnitude?_eq_checked (s : List Char) : magnitude? s = checkedMagnitude? s := by
  unfold magnitude? checkedMagnitude? Text.natural?
  by_cases hs : (splitBase s).2.isEmpty = true
  · rw [if_pos hs, if_pos hs]
    rfl
  · rw [if_neg hs, if_neg hs, foldlM_pushDigit? (base_of_splitBase s).1 (Nat.zero_le _)]

/-! ### What is accepted -/

/-- The arguments that are literals, with their values: those whose magnitude has 63 bits. -/
def IsLiteral (arg : String) (v : ℤ) : Prop :=
  Spells arg.toList v ∧ v.natAbs ≤ 2 ^ 63 - 1

theorem parse?_eq_some_iff {arg : String} {v : ℤ} : parse? arg.toList = some v ↔ IsLiteral arg v := by
  have hbound : maxMagnitude = 2 ^ 63 - 1 := by decide
  rw [parse?_eq_some, hbound]
  rfl

theorem parse_eq_ok {arg : String} {v : ℤ} : parse arg = .ok v ↔ IsLiteral arg v := by
  rw [← parse?_eq_some_iff]
  unfold parse
  cases parse? arg.toList <;> simp

theorem parse_eq_error {arg : String} {e : InstructionError} :
    parse arg = .error e ↔ (¬∃ v, IsLiteral arg v) ∧ e = .invalidImmediate arg := by
  have hnone : parse? arg.toList = none ↔ ¬∃ v, IsLiteral arg v := by
    simp only [Option.eq_none_iff_forall_ne_some, ne_eq, parse?_eq_some_iff, not_exists]
  rw [← hnone]
  unfold parse
  cases parse? arg.toList <;> simp [eq_comm]

/-- The decimal text of a number of 64 bits is a literal, unless the number is the least one. -/
theorem parse_decimal_iff (v : Int64) : parse (Text.decimal v.toInt) = .ok v.toInt ↔ v ≠ Int64.minValue := by
  have hlow := Int64.le_toInt v
  have hhigh := Int64.toInt_lt v
  have hmin : Int64.minValue.toInt = -2 ^ 63 := by decide
  have hbound : maxMagnitude = 2 ^ 63 - 1 := by decide
  rw [ne_eq, ← Int64.toInt_inj, hmin]
  constructor
  · intro h
    have hv := (parse_eq_ok.1 h).2
    omega
  · intro h
    exact parse_eq_ok.2 (parse?_eq_some_iff.1 (parse?_decimal (by omega)))

/-- **Literals are accepted by their grammar.** A text is accepted with a value exactly when it spells this
value and its magnitude has 63 bits, and every other text is refused as a whole. No product and no sum on
the way is out of bounds, so that a magnitude of any length can be read digit by digit. The decimal text
of a number of 64 bits is accepted with this number, unless it is the least one. -/
theorem parse_accepts (arg : String) :
    (∀ v, parse arg = .ok v ↔ Spells arg.toList v ∧ v.natAbs ≤ 2 ^ 63 - 1) ∧
    (∀ e, parse arg = .error e ↔
      (¬∃ v, Spells arg.toList v ∧ v.natAbs ≤ 2 ^ 63 - 1) ∧ e = .invalidImmediate arg) ∧
    (∀ s, magnitude? s = checkedMagnitude? s) ∧
    ∀ v : Int64, parse (Text.decimal v.toInt) = .ok v.toInt ↔ v ≠ Int64.minValue :=
  ⟨fun _ => parse_eq_ok, fun _ => parse_eq_error, magnitude?_eq_checked, parse_decimal_iff⟩

/-- Hexadecimal digits in both cases, behind a sign. -/
example : parse "-0X1f" = .ok (-31) := by decide

end TinyIsa.Literal
