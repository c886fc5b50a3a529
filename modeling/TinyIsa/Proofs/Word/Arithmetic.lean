import Mathlib
import TinyIsa.Proofs.Except
import TinyIsa.Proofs.Word.Limb

/-!
# Arithmetic modulo the width

The operations on words compute with integers modulo two to the width. They do so in registers of 64 bits,
however they are combined.

* `eq_toInt_iff`: the signed value is the only number of its range that is congruent to the unsigned one.
* `add_eq`, `subtract_eq`, `store_eq`, `inc_eq`, `dec_eq`, `invert_eq`: an operation as that on integers.
* `Term`: words built by any operations from numbers and digits; `Term.exists_word`: all words are.
* `Term.limb?_of_word`: **none of them ever gets stuck in a register**, by induction on the term.
* `Word.arithmetic_modular`: the results of all operations on words that are built in this way.
-/

namespace TinyIsa

/-! ### Operations on integers -/

namespace Word

variable {a b : Word} {w : ℕ}

theorem toNat_ofInt (w : ℕ) (z : ℤ) : ((ofInt w z).toNat : ℤ) = z % 2 ^ w := by
  have hpos : (0 : ℤ) < 2 ^ w := by positivity
  have hnonneg : 0 ≤ z % 2 ^ w := Int.emod_nonneg z hpos.ne'
  unfold toNat ofInt
  rw [BitVec.toNat_ofInt]
  push_cast
  exact Int.toNat_of_nonneg hnonneg

theorem ofInt_toNat (a : Word) : BitVec.ofInt a.width a.toNat = a.bits := by
  unfold toNat
  rw [BitVec.ofInt_natCast, BitVec.ofNat_toNat, BitVec.setWidth_eq]

theorem ofInt_sub (w : ℕ) (x y : ℤ) : BitVec.ofInt w (x - y) = BitVec.ofInt w x - BitVec.ofInt w y := by
  rw [sub_eq_add_neg, BitVec.ofInt_add, BitVec.ofInt_neg, BitVec.sub_eq_add_neg]

theorem ofInt_zero (w : ℕ) : ofInt w 0 = zero w := by
  simp [ofInt, zero]

theorem store_eq (a b : Word) : a.store b = ofInt a.width b.toInt := rfl

theorem add_eq (a b : Word) : a.add b = ofInt a.width (a.toNat + b.toInt) := by
  unfold ofInt
  rw [BitVec.ofInt_add, ofInt_toNat]
  rfl

theorem subtract_eq (a b : Word) : a.subtract b = ofInt a.width (a.toNat - b.toInt) := by
  unfold ofInt
  rw [ofInt_sub, ofInt_toNat]
  rfl

theorem inc_eq (a : Word) : a.inc = ofInt a.width (a.toNat + 1) := by
  unfold ofInt
  rw [BitVec.ofInt_add, ofInt_toNat]
  rfl

theorem dec_eq (a : Word) : a.dec = ofInt a.width (a.toNat - 1) := by
  unfold ofInt
  rw [ofInt_sub, ofInt_toNat]
  rfl

theorem invert_eq (a : Word) : a.invert = ofInt a.width (-a.toNat - 1) := by
  unfold ofInt
  rw [ofInt_sub, BitVec.ofInt_neg, ofInt_toNat]
  exact congrArg (mk a.width) (BitVec.not_eq_neg_add a.bits)

/-- **The signed value is unique**: no other number of its range is congruent to the unsigned value. -/
theorem eq_toInt_iff (ha : 1 ≤ a.width) (z : ℤ) : z = a.toInt ↔
    -2 ^ (a.width - 1) ≤ z ∧ z < 2 ^ (a.width - 1) ∧ z ≡ a.toNat [ZMOD 2 ^ a.width] := by
  have hlow : -2 ^ (a.width - 1) ≤ a.toInt := BitVec.le_toInt a.bits
  have hhigh : a.toInt < 2 ^ (a.width - 1) := BitVec.toInt_lt
  have hmod : a.toInt ≡ a.toNat [ZMOD 2 ^ a.width] := by
    have hbmod : a.toInt = Int.bmod a.toNat (2 ^ a.width) := BitVec.toInt_eq_toNat_bmod a.bits
    have hemod := Int.bmod_emod (x := a.toNat) (m := 2 ^ a.width)
    push_cast at hemod
    rw [hbmod]
    exact hemod
  constructor
  · rintro rfl
    exact ⟨hlow, hhigh, hmod⟩
  · rintro ⟨hz, hz', hzmod⟩
    have hpow : (2 : ℤ) ^ a.width = 2 * 2 ^ (a.width - 1) := by
      rw [← pow_succ', Nat.sub_add_cancel ha]
    -- both numbers are in an interval of one modulus
    have hdvd : (2 : ℤ) ^ a.width ∣ z - a.toInt := (hzmod.trans hmod.symm).symm.dvd
    have habs : |z - a.toInt| < 2 ^ a.width := by
      rw [hpow, abs_lt]
      constructor <;> linarith
    linarith [Int.eq_zero_of_abs_lt_dvd hdvd habs]

end Word

/-! ### Registers that hold words -/

/-- A register holds a word: it has its value, and nothing above its width. -/
structure Limb.Holds (l : Limb) (a : Word) : Prop where
  width_eq : l.width = a.width
  value_eq : l.bits.toNat = a.toNat
  value_lt : l.bits.toNat < 2 ^ l.width

theorem Word.holds_limb {a : Word} (ha : a.width ≤ maxWidth) : a.limb.Holds a := by
  have hvalue : a.limb.bits.toNat = a.toNat := BitVec.toNat_setWidth_of_le ha
  refine ⟨rfl, hvalue, ?_⟩
  rw [hvalue]
  exact a.bits.isLt

/-! ### Words built by operations -/

/-- A way to build a word: from a number, from digits or bits, or by an operation from words built before. -/
inductive Term where
  | zero (w : ℕ)
  | ofInt (w : ℕ) (v : Int64)
  | ofNat (w : ℕ) (n : UInt64)
  | ofDigits (w : ℕ) (s : List Char)
  | ofBits (bits : List Bool)
  | monadic (op : Word.Monadic) (t : Term)
  | dyadic (op : Word.Dyadic) (s t : Term)

namespace Term

/-- The word that is built, unless a width is out of bounds or a digit is not binary. -/
def word : Term → Except WordError Word
  | zero w => Word.checked w Word.zero
  | ofInt w v => Word.checked w fun w => Word.ofInt w v.toInt
  | ofNat w n => Word.checked w fun w => Word.ofNat w n.toNat
  | ofDigits w s => Word.ofDigitsChecked w s
  | ofBits bits => Word.checked bits.length fun _ => Word.ofBits bits
  | monadic op t => do return op.word (← t.word)
  | dyadic op s t => do return op.word (← s.word) (← t.word)

/-- The register that is built, unless an operation gets stuck. -/
def limb? : Term → Option Limb
  | zero w => Limb.zero? w
  | ofInt w v => Limb.of? w v.toBitVec
  | ofNat w n => Limb.of? w n.toBitVec
  | ofDigits w s => Limb.ofDigits? w s
  | ofBits bits => Limb.ofBits? bits
  | monadic op t => do op.limb? (← t.limb?)
  | dyadic op s t => do op.limb? (← s.limb?) (← t.limb?)

end Term

namespace Word

theorem checked_eq_ok_iff {w : ℕ} {make : ℕ → Word} {a : Word} :
    checked w make = .ok a ↔ (1 ≤ w ∧ w ≤ maxWidth) ∧ make w = a := by
  unfold checked
  split_ifs with h <;> simp [h]

theorem ofDigitsChecked_eq_ok {w : ℕ} {s : List Char} {a : Word} (h : ofDigitsChecked w s = .ok a) :
    (1 ≤ w ∧ w ≤ maxWidth) ∧ Binary s ∧ valueOf w s = a := by
  obtain ⟨b, hb, hchecked⟩ := bind_eq_ok.1 h
  obtain ⟨hw, rfl⟩ := checked_eq_ok_iff.1 hchecked
  have hdigits := mapError_eq_ok.1 hb
  have hs : Binary s := binary_of_ofDigits hdigits
  rw [ofDigits_eq_ok hs] at hdigits
  exact ⟨hw, hs, Except.ok.inj hdigits⟩

end Word

/-- Every word of a width within bounds can be built. -/
theorem Term.exists_word {a : Word} (ha : 1 ≤ a.width ∧ a.width ≤ maxWidth) : ∃ t : Term, t.word = .ok a := by
  have hlt : a.toNat < UInt64.size := a.bits.isLt.trans_le (Nat.pow_le_pow_right (by decide) ha.2)
  have hback : (UInt64.ofNat a.toNat).toNat = a.toNat := UInt64.toNat_ofNat_of_lt hlt
  refine ⟨.ofNat a.width (UInt64.ofNat a.toNat), Word.checked_eq_ok_iff.2 ⟨ha, ?_⟩⟩
  rw [hback, Word.ofNat, Word.toNat, BitVec.ofNat_toNat, BitVec.setWidth_eq]

/-- **No operation gets stuck**: a word of a width within bounds is built in a register, too. -/
theorem Term.limb?_of_word {t : Term} {a : Word} (h : t.word = .ok a) :
    (1 ≤ a.width ∧ a.width ≤ maxWidth) ∧ t.limb? = some a.limb := by
  induction t generalizing a with
  | zero w =>
    obtain ⟨hw, rfl⟩ := Word.checked_eq_ok_iff.1 h
    refine ⟨hw, (if_pos hw).trans ?_⟩
    simp [Word.limb, Word.zero]
  | ofInt w v =>
    obtain ⟨hw, rfl⟩ := Word.checked_eq_ok_iff.1 h
    exact ⟨hw, Limb.of?_toInt hw v⟩
  | ofNat w n =>
    obtain ⟨hw, rfl⟩ := Word.checked_eq_ok_iff.1 h
    exact ⟨hw, Limb.of?_toNat hw n⟩
  | ofDigits w s =>
    obtain ⟨hw, hs, rfl⟩ := Word.ofDigitsChecked_eq_ok h
    exact ⟨hw, Limb.ofDigits?_eq hw hs⟩
  | ofBits bits =>
    obtain ⟨hw, rfl⟩ := Word.checked_eq_ok_iff.1 h
    exact ⟨hw, Limb.ofBits?_eq hw⟩
  | monadic op t ih =>
    obtain ⟨x, hx, hop⟩ := bind_eq_ok.1 h
    cases hop
    obtain ⟨hwidth, hlimb⟩ := ih hx
    rw [op.width_word, limb?, hlimb]
    exact ⟨hwidth, op.limb?_eq hwidth⟩
  | dyadic op s t ihs iht =>
    obtain ⟨x, hx, hrest⟩ := bind_eq_ok.1 h
    obtain ⟨y, hy, hop⟩ := bind_eq_ok.1 hrest
    cases hop
    obtain ⟨hwidth, hlimb⟩ := ihs hx
    obtain ⟨hwidth', hlimb'⟩ := iht hy
    rw [op.width_word, limb?, hlimb, hlimb']
    exact ⟨hwidth, op.limb?_eq hwidth.2 hwidth'⟩

/-- **Arithmetic modulo the width.** Take two words that were built by any operations from numbers, digits
and bits, of any two widths `n` and `m` from 1 to 64.

* They are held by registers of 64 bits, and no operation on the way got stuck.
* The signed value is the one integer from `-2 ^ (n - 1)` to `2 ^ (n - 1) - 1` that is congruent to the
  unsigned value modulo `2 ^ n`; it is found in the register.
* Sum, difference, successor, predecessor, complement and stored word have width `n` and the value of the
  operation on integers modulo `2 ^ n`, where the second word enters with its signed value.
* So does no operation that comes next get stuck, and its result is held by a register again: it is below
  `2 ^ n`.
* There are no other words of these widths than those that are built in this way. -/
theorem Word.arithmetic_modular {s t : Term} {a b : Word} (hs : s.word = .ok a) (ht : t.word = .ok b) :
    ((1 ≤ a.width ∧ a.width ≤ maxWidth) ∧ ∃ l, s.limb? = some l ∧ l.Holds a) ∧
    (∀ z : ℤ, z = a.toInt ↔
      -2 ^ (a.width - 1) ≤ z ∧ z < 2 ^ (a.width - 1) ∧ z ≡ a.toNat [ZMOD 2 ^ a.width]) ∧
    (∃ v, a.limb.toSigned? = some v ∧ v.toInt = a.toInt) ∧
    ((a.add b).toNat : ℤ) = (a.toNat + b.toInt) % 2 ^ a.width ∧
    ((a.subtract b).toNat : ℤ) = (a.toNat - b.toInt) % 2 ^ a.width ∧
    (a.inc.toNat : ℤ) = (a.toNat + 1) % 2 ^ a.width ∧
    (a.dec.toNat : ℤ) = (a.toNat - 1) % 2 ^ a.width ∧
    (a.invert.toNat : ℤ) = (-a.toNat - 1) % 2 ^ a.width ∧
    ((a.store b).toNat : ℤ) = b.toInt % 2 ^ a.width ∧
    (∀ op : Dyadic, (op.word a b).width = a.width ∧
      ∃ l, op.limb? a.limb b.limb = some l ∧ l.Holds (op.word a b)) ∧
    (∀ op : Monadic, (op.word a).width = a.width ∧ ∃ l, op.limb? a.limb = some l ∧ l.Holds (op.word a)) ∧
    (∀ i, a.limb.bit? i = some (a.bit i)) ∧
    (∀ c : Word, 1 ≤ c.width ∧ c.width ≤ maxWidth → ∃ u : Term, u.word = .ok c) := by
  obtain ⟨ha, hlimb⟩ := Term.limb?_of_word hs
  obtain ⟨hb, -⟩ := Term.limb?_of_word ht
  have hsigned : (a.bits.signExtend 64).toInt = a.toInt := BitVec.toInt_signExtend_of_le ha.2
  refine ⟨⟨ha, a.limb, hlimb, holds_limb ha.2⟩, eq_toInt_iff ha.1, ⟨_, Limb.toSigned?_limb ha, hsigned⟩,
    ?_, ?_, ?_, ?_, ?_, ?_, fun op => ?_, fun op => ?_, Limb.bit?_limb ha.2, fun c => Term.exists_word⟩
  · rw [add_eq, toNat_ofInt]
  · rw [subtract_eq, toNat_ofInt]
  · rw [inc_eq, toNat_ofInt]
  · rw [dec_eq, toNat_ofInt]
  · rw [invert_eq, toNat_ofInt]
  · rw [store_eq, toNat_ofInt]
  · have hwidth := op.width_word a b
    exact ⟨hwidth, _, op.limb?_eq ha.2 hb, holds_limb (hwidth.trans_le ha.2)⟩
  · have hwidth := op.width_word a
    exact ⟨hwidth, _, op.limb?_eq ha, holds_limb (hwidth.trans_le ha.2)⟩

/-- A word of 64 bits that is `-1` less the `-4` of three bits, and one of three bits that went around the
end: each is added to the other. -/
theorem Word.arithmetic_modular_mixed : ∃ (s t : Term) (a b : Word),
    s = .dyadic .subtract (.ofInt 64 (-1)) (.ofDigits 3 ['1', '0', '0']) ∧
    t = .monadic .dec (.monadic (.shift (-4)) (.ofBits [true, true, false])) ∧
    a = ⟨64, 3⟩ ∧ b = ⟨3, 7⟩ ∧ s.word = .ok a ∧ t.word = .ok b ∧ b.toInt = -1 ∧
    ((a.add b).toNat : ℤ) = 2 ∧ ((b.add a).toNat : ℤ) = 2 ∧ (b.invert.toNat : ℤ) = 0 ∧
    ∃ l, Dyadic.limb? a.limb b.limb .add = some l ∧ l.Holds (a.add b) := by
  have hs : (Term.dyadic .subtract (.ofInt 64 (-1)) (.ofDigits 3 ['1', '0', '0'])).word = .ok ⟨64, 3⟩ := rfl
  have ht : (Term.monadic .dec (.monadic (.shift (-4)) (.ofBits [true, true, false]))).word = .ok ⟨3, 7⟩ := rfl
  have hb : (⟨3, 7⟩ : Word).toInt = -1 := by decide
  obtain ⟨-, -, -, hadd, -, -, -, -, -, hdyadic, -, -, -⟩ := arithmetic_modular hs ht
  obtain ⟨-, -, -, hadd', -, -, -, hinvert, -, -, -, -, -⟩ := arithmetic_modular ht hs
  exact ⟨_, _, _, _, rfl, rfl, rfl, rfl, hs, ht, hb, hadd.trans (by decide), hadd'.trans (by decide),
    hinvert.trans (by decide), (hdyadic .add).2⟩

end TinyIsa
