import Mathlib
import TinyIsa.Proofs.Word.Arithmetic

/-!
# Words from digits, bits and numbers, and back

A row of digits is written most significant digit first, a list of bits least significant bit first. What
a row, a list or a number says beyond the width of a word is cut off: the word is that of the residue
modulo two to the width.

* `binaryValue`: the number that a row of digits spells, whatever its length; `toNat_valueOf`: **its word
  has this number modulo two to the width**, by induction on the row.
* `eq_of_bit`: a word is given by its width and its bits.
* `ofBits_bit`, `ofNat_toNat`: a word from its own bits or its unsigned value.
* `ofInt_inj_iff`: numbers with the same word.
* `Limb.toDigits?_limb`: the digits of a word in a register, bit by bit.
* `Word.conversions_exact`: **the conversions are exact and undo each other.**
-/

namespace TinyIsa

/-! ### The number of a row of digits -/

/-- The number that a row of binary digits spells, the last digit having weight one. -/
def binaryValue (s : List Char) : ℕ := Nat.ofDigits 2 (s.reverse.map fun c => (c == '1').toNat)

theorem binaryValue_concat (s : List Char) (c : Char) :
    binaryValue (s ++ [c]) = (c == '1').toNat + 2 * binaryValue s := by
  unfold binaryValue
  rw [List.reverse_concat, List.map_cons, Nat.ofDigits_cons]

namespace Word

/-- **The word of a row of digits** has the number that the row spells, modulo two to the width. -/
theorem toNat_valueOf (w : ℕ) (s : List Char) : (valueOf w s).toNat = binaryValue s % 2 ^ w := by
  -- the last digit comes in from the right, and what falls off on the left is a multiple of the modulus
  induction s using List.reverseRecOn with
  | nil => simp [valueOf, toNat, binaryValue]
  | append_singleton s c ih =>
    have hpush : (valueOf w (s ++ [c])).toNat = ((valueOf w s).toNat <<< 1 + (c == '1').toNat) % 2 ^ w := by
      unfold valueOf toNat
      rw [List.foldl_concat, BitVec.toNat_shiftConcat]
    rw [hpush, ih, binaryValue_concat, Nat.shiftLeft_eq, pow_one]
    calc (binaryValue s % 2 ^ w * 2 + (c == '1').toNat) % 2 ^ w
        = (binaryValue s * 2 + (c == '1').toNat) % 2 ^ w :=
          (((Nat.mod_modEq (binaryValue s) (2 ^ w)).mul_right 2).add_right _)
      _ = ((c == '1').toNat + 2 * binaryValue s) % 2 ^ w := by
          rw [Nat.mul_comm, Nat.add_comm]

/-! ### The bits of a word -/

theorem bit_of_le {a : Word} {i : ℕ} (h : a.width ≤ i) : a.bit i = false :=
  BitVec.getLsbD_of_ge a.bits i h

/-- **A word is given by its width and its bits.** -/
theorem eq_of_bit {a b : Word} (hw : a.width = b.width) (h : ∀ i < a.width, a.bit i = b.bit i) : a = b := by
  obtain ⟨w, x⟩ := a
  obtain ⟨v, y⟩ := b
  obtain rfl : w = v := hw
  exact congrArg (mk w) (BitVec.eq_of_getLsbD_eq h)

theorem bit_ofBits (bits : List Bool) (i : ℕ) : (ofBits bits).bit i = bits.getD i false :=
  BitVec.getLsbD_ofBoolListLE

theorem ofBits_bit (a : Word) : ofBits ((List.range a.width).map a.bit) = a := by
  have hwidth : (ofBits ((List.range a.width).map a.bit)).width = a.width := by
    simp [ofBits]
  apply eq_of_bit hwidth
  intro i hi
  rw [hwidth] at hi
  rw [bit_ofBits, List.getD_eq_getElem?_getD, List.getElem?_map, List.getElem?_range hi]
  rfl

/-- The digits of a word are its bits, the one of most weight first. -/
theorem toDigits_eq_bits (a : Word) :
    a.toDigits = (List.range a.width).reverse.map fun i => if a.bit i then '1' else '0' := by
  apply List.ext_getElem
  · rw [length_toDigits]
    simp
  · intro i h1 h2
    have hi : i < a.width := by rwa [length_toDigits] at h1
    have hback : a.bits.getMsbD i = a.bit (a.width - 1 - i) := by
      rw [BitVec.getMsbD_eq_getLsbD, decide_eq_true hi, Bool.true_and, bit]
    simp only [toDigits, List.getElem_map, List.getElem_range, List.getElem_reverse, List.length_range, hback]

/-! ### The values of a word -/

theorem ofNat_toNat (a : Word) : ofNat a.width a.toNat = a := by
  unfold ofNat toNat
  rw [BitVec.ofNat_toNat, BitVec.setWidth_eq]

theorem eq_of_toNat_eq {w : ℕ} {x y : BitVec w} (h : (mk w x).toNat = (mk w y).toNat) : mk w x = mk w y :=
  congrArg (mk w) (BitVec.eq_of_toNat_eq h)

/-- **Numbers have the same word** exactly when they are congruent modulo two to the width. -/
theorem ofInt_inj_iff {w : ℕ} {v v' : ℤ} : ofInt w v = ofInt w v' ↔ v ≡ v' [ZMOD 2 ^ w] := by
  have hnat := toNat_ofInt w v
  have hnat' := toNat_ofInt w v'
  constructor
  · intro h
    rw [h] at hnat
    exact hnat.symm.trans hnat'
  · intro h
    apply eq_of_toNat_eq
    have heq : ((ofInt w v).toNat : ℤ) = (ofInt w v').toNat := by
      rw [hnat, hnat']
      exact h
    exact_mod_cast heq

/-- The word of a number is the one of the width that is congruent to it. -/
theorem eq_ofInt_iff {a : Word} {w : ℕ} {v : ℤ} :
    a = ofInt w v ↔ a.width = w ∧ a.toInt ≡ v [ZMOD 2 ^ w] := by
  constructor
  · rintro rfl
    refine ⟨rfl, ofInt_inj_iff.1 ?_⟩
    exact ofInt_toInt (ofInt w v)
  · rintro ⟨rfl, h⟩
    rw [← ofInt_inj_iff, ofInt_toInt] at h
    exact h

end Word

/-! ### In registers -/

namespace Limb

/-- The digits of a word, most significant first. -/
def toDigits? (a : Limb) : Option (List Char) :=
  (List.range a.width).reverse.mapM fun i => do return if ← a.bit? i then '1' else '0'

variable {a : Word}

theorem toDigits?_limb (ha : a.width ≤ maxWidth) : a.limb.toDigits? = some a.toDigits := by
  have hbit : ∀ i, (do return if ← a.limb.bit? i then '1' else '0' : Option Char) =
      some (if a.bit i then '1' else '0') := by
    intro i
    rw [bit?_limb ha]
    rfl
  unfold toDigits?
  simp only [hbit, Word.width_limb, Word.toDigits_eq_bits]
  exact List.mapM_pure

/-- The register of a word has nothing above the width that a mask would take away. -/
theorem of?_bits_limb (ha : 1 ≤ a.width ∧ a.width ≤ maxWidth) : of? a.width a.limb.bits = some a.limb := by
  rw [of?_eq ha, setWidth_bits_limb ha.2]

theorem of?_toSigned?_limb (ha : 1 ≤ a.width ∧ a.width ≤ maxWidth) :
    (do of? a.width (← a.limb.toSigned?)) = some a.limb := by
  have hle : a.width ≤ 64 := ha.2
  have hcut : (a.bits.signExtend 64).setWidth a.width = a.bits := by
    rw [setWidth_signExtend a.bits hle, BitVec.signExtend_eq]
  rw [toSigned?_limb ha, Option.bind_eq_bind, Option.bind_some, of?_eq ha, hcut]

end Limb

/-! ### All conversions -/

/-- **The conversions of words are exact and undo each other.** For every width `w` from 1 to 64:

* A row of binary digits of any length, also one of more digits than a register has bits, is read as the
  word of the number that it spells, modulo `2 ^ w`. Every other row is refused with the position and the
  value of its first character that is no digit.
* A word of this width is read back from its digits, of which there are `w`, from its bits 0 to `w - 1`,
  and from its signed and its unsigned value.
* Two numbers of 64 bits have the same word exactly when they are congruent modulo `2 ^ w`.

All this is found in registers of 64 bits as well, where no step gets stuck. -/
theorem Word.conversions_exact {w : ℕ} (hw : 1 ≤ w ∧ w ≤ maxWidth) :
    (∀ s, Binary s → ∃ a : Word, ofDigits w s = .ok a ∧ Limb.ofDigits? w s = some a.limb ∧
      a.width = w ∧ a.toNat = binaryValue s % 2 ^ w) ∧
    (∀ s, ¬Binary s → ∃ before c after, s = before ++ c :: after ∧ Binary before ∧ isBinary c = false ∧
      ofDigits w s = .error ⟨String.ofList s, before.length, c⟩) ∧
    (∀ s, ofDigitsChecked w s = (ofDigits w s).mapError .encoding) ∧
    (∀ a : Word, a.width = w →
      (a.toDigits.length = w ∧ a.limb.toDigits? = some a.toDigits ∧
        ofDigits w a.toDigits = .ok a ∧ Limb.ofDigits? w a.toDigits = some a.limb) ∧
      (ofBits ((List.range w).map a.bit) = a ∧
        Limb.ofBits? ((List.range w).map a.bit) = some a.limb) ∧
      (ofInt w a.toInt = a ∧ (do Limb.of? w (← a.limb.toSigned?)) = some a.limb) ∧
      (ofNat w a.toNat = a ∧ Limb.of? w a.limb.bits = some a.limb)) ∧
    ∀ v v' : Int64, (ofInt w v.toInt = ofInt w v'.toInt ↔ v.toInt ≡ v'.toInt [ZMOD 2 ^ w]) ∧
      Limb.of? w v.toBitVec = some (ofInt w v.toInt).limb := by
  refine ⟨?_, ?_, ?_, ?_, ?_⟩
  · intro s hs
    exact ⟨valueOf w s, ofDigits_eq_ok hs w, Limb.ofDigits?_eq hw hs, rfl, toNat_valueOf w s⟩
  · intro s hs
    obtain hbinary | ⟨before, c, after, rfl, hbefore, hc⟩ := binary_or_first s
    · exact absurd hbinary hs
    · exact ⟨before, c, after, rfl, hbefore, hc, ofDigits_eq_error hbefore hc w⟩
  · intro s
    exact ofDigitsChecked_eq hw s
  · rintro a rfl
    have hdigits : valueOf a.width a.toDigits = a := valueOf_toDigits a
    have hlist : ((List.range a.width).map a.bit).length = a.width := by simp
    refine ⟨⟨length_toDigits a, Limb.toDigits?_limb hw.2, ofDigits_toDigits a, ?_⟩, ⟨ofBits_bit a, ?_⟩,
      ⟨ofInt_toInt a, Limb.of?_toSigned?_limb hw⟩, ofNat_toNat a, Limb.of?_bits_limb hw⟩
    · rw [Limb.ofDigits?_eq hw (binary_toDigits a), hdigits]
    · rw [Limb.ofBits?_eq (hlist.symm ▸ hw), ofBits_bit]
  · intro v v'
    exact ⟨ofInt_inj_iff, Limb.of?_toInt hw v⟩

/-- A row of 66 digits, the first of which falls out of the register, and five in three bits as a number below
zero, as digits and as bits. -/
theorem Word.conversions_exact_long : ∃ a : Word, (1 ≤ 64 ∧ 64 ≤ maxWidth) ∧
    ofDigits 64 (['1'] ++ List.replicate 63 '0' ++ ['1', '1']) = .ok a ∧
    Limb.ofDigits? 64 (['1'] ++ List.replicate 63 '0' ++ ['1', '1']) = some a.limb ∧ a.toNat = 3 ∧
    (1 ≤ 3 ∧ 3 ≤ maxWidth) ∧ ofInt 3 (-3) = ofInt 3 5 ∧ ofBits [true, false, true] = ofInt 3 5 ∧
    Limb.ofDigits? 3 ['1', '0', '1'] = some (ofInt 3 5).limb := by
  have hw : 1 ≤ 64 ∧ 64 ≤ maxWidth := by decide
  have hw' : 1 ≤ 3 ∧ 3 ≤ maxWidth := by decide
  obtain ⟨hread, -, -, -, -⟩ := conversions_exact hw
  obtain ⟨-, -, -, hback, hsame⟩ := conversions_exact hw'
  have hbinary : Binary (['1'] ++ List.replicate 63 '0' ++ ['1', '1']) :=
    binary_append.2 ⟨binary_append.2 ⟨by decide, binary_replicate_zero 63⟩, by decide⟩
  have hthree : binaryValue (['1'] ++ List.replicate 63 '0' ++ ['1', '1']) % 2 ^ 64 = 3 := by cbv
  obtain ⟨a, ha, hlimb, -, hvalue⟩ := hread _ hbinary
  obtain ⟨⟨-, -, -, hdigits⟩, ⟨hbits, -⟩, -, -⟩ := hback (ofInt 3 5) rfl
  exact ⟨a, hw, ha, hlimb, hvalue.trans hthree, hw', (hsame (-3) 5).1.2 (by decide), hbits, hdigits⟩

end TinyIsa
