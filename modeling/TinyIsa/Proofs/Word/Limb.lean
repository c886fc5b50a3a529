import Mathlib
import TinyIsa.Proofs.Word.Digits
import TinyIsa.Proofs.Word.Shift
import TinyIsa.Word.Width

/-!
# Words in registers of 64 bits

A word of at most 64 bits fits a register of 64, with zeros above its width. A limb is a word kept in this
way. Its operations have arithmetic on 64 bits only, and a mask. Unlike the operations on words they can
get stuck (`none`): at a shift by 64 places or more, at a difference below zero, at the negation of the
least number.

* `Limb`, `Word.limb`: a word in a register; `Limb.mask?`, `Limb.with?`: a result cut to its width.
* `Word.Monadic`, `Word.Dyadic`: the operations, on words and on limbs.
* `and_mask`, `mask?_eq`: the mask keeps the bits of a word; `with?_limb`: so what is masked is a word.
* `of?_toInt`, `of?_toNat`, `ofDigits?_eq`, `ofBits?_eq`: words from numbers, digits and bits.
* `toSigned?_limb`: two shifts extend the sign, so `operand?_limb` is the operand of the other width.
* `Word.Dyadic.limb?_eq`, `Word.Monadic.limb?_eq`: **an operation never gets stuck**, and what it leaves in
  the register is the word of the operation.
-/

namespace TinyIsa

/-- A word in a register of 64 bits. -/
structure Limb where
  /-- The register. -/
  bits : BitVec 64
  /-- The number of bits of the word. -/
  width : ℕ
deriving DecidableEq

/-- The register that holds a word. -/
def Word.limb (a : Word) : Limb := ⟨a.bits.setWidth 64, a.width⟩

@[simp] theorem Word.width_limb (a : Word) : a.limb.width = a.width := rfl

namespace Limb

/-! ### Arithmetic that can get stuck -/

/-- The difference, unless it is below zero. -/
def sub? (m n : ℕ) : Option ℕ := if n ≤ m then some (m - n) else none

/-- The difference, unless it is below zero. -/
def subBits? (x y : BitVec 64) : Option (BitVec 64) := if y ≤ x then some (x - y) else none

/-- The opposite, unless it is out of range. -/
def neg? (n : Int64) : Option Int64 := if n = Int64.minValue then none else some (-n)

/-- The shift to the left by fewer than 64 places. -/
def shiftLeft? (x : BitVec 64) (n : ℕ) : Option (BitVec 64) := if n < 64 then some (x <<< n) else none

/-- The shift to the right by fewer than 64 places. -/
def shiftRight? (x : BitVec 64) (n : ℕ) : Option (BitVec 64) := if n < 64 then some (x >>> n) else none

/-- The shift to the right by fewer than 64 places that keeps the sign. -/
def sshiftRight? (x : BitVec 64) (n : ℕ) : Option (BitVec 64) :=
  if n < 64 then some (x.sshiftRight n) else none

/-! ### Masks and signs -/

/-- The mask of the bits of a word. -/
def mask? (a : Limb) : Option (BitVec 64) :=
  if a.width = maxWidth then some (BitVec.allOnes 64)
  else do subBits? (← shiftLeft? 1 a.width) 1

/-- A register cut to the width of a word. -/
def with? (a : Limb) (x : BitVec 64) : Option Limb := do
  return ⟨x &&& (← a.mask?), a.width⟩

/-- The signed value of a word, as a number of 64 bits. -/
def toSigned? (a : Limb) : Option (BitVec 64) := do
  let unused ← sub? 64 a.width
  sshiftRight? (← shiftLeft? a.bits unused) unused

/-- The register with which a word enters an operation of the width of `a`. -/
def operand? (a b : Limb) : Option (BitVec 64) := do
  return (← b.toSigned?) &&& (← a.mask?)

/-! ### Limbs from numbers and bits -/

/-- The word of zeros, of a width within bounds. -/
def zero? (w : ℕ) : Option Limb := if 1 ≤ w ∧ w ≤ maxWidth then some ⟨0, w⟩ else none

/-- The word that is congruent to a register. -/
def of? (w : ℕ) (x : BitVec 64) : Option Limb := do
  let a ← zero? w
  return { a with bits := x &&& (← a.mask?) }

/-- The word of a row of digits. -/
def ofDigits? (w : ℕ) (s : List Char) : Option Limb := do
  guard (s.all isBinary)
  of? w (← s.foldlM (fun v c => return (← shiftLeft? v 1) ||| if c == '1' then 1 else 0) 0)

/-- The word of the given bits, least significant first. -/
def ofBits? (bits : List Bool) : Option Limb := do
  let a ← zero? (bits.length % UInt32.size)
  let x ← bits.zipIdx.foldlM (fun v b => if b.1 then return v ||| (← shiftLeft? 1 b.2) else some v) a.bits
  return { a with bits := x }

/-- The bit of weight `2 ^ i`, false beyond the width. -/
def bit? (a : Limb) (i : ℕ) : Option Bool :=
  if i < a.width then do return (← shiftRight? a.bits i) &&& 1 == 1 else some false

/-- The shift by a signed amount, to the left when positive. -/
def shift? (a : Limb) (n : Int64) : Option Limb :=
  if a.width ≤ n.toInt.natAbs then zero? a.width
  else if 0 ≤ n.toInt then do a.with? (← shiftLeft? a.bits n.toInt.toNat)
  else do a.with? (← shiftRight? a.bits (← neg? n).toInt.toNat)

/-- The signed value of a word of `w` bits shifted by a signed amount, to the left when positive. -/
def shiftSigned? (w : ℕ) (value : BitVec 64) (n : Int64) : Option (BitVec 64) :=
  if 0 ≤ n.toInt then
    if (w : ℤ) ≤ n.toInt then some 0 else shiftLeft? value n.toInt.toNat
  else sshiftRight? value (min n.toInt.natAbs 63)

/-- The shift that keeps the sign when it goes to the right. -/
def arithmeticShift? (a : Limb) (n : Int64) : Option Limb := do
  of? a.width (← shiftSigned? a.width (← a.toSigned?) n)

end Limb

namespace Word

/-! ### The operations -/

/-- The operations on one word. -/
inductive Monadic where
  | invert
  | inc
  | dec
  | shift (n : Int64)
  | arithmeticShift (n : Int64)
deriving DecidableEq

/-- The operations on two words. -/
inductive Dyadic where
  | store
  | add
  | subtract
  | and
  | or
  | xor
deriving DecidableEq

namespace Monadic

/-- The operation on words. -/
def word (a : Word) : Monadic → Word
  | invert => a.invert
  | inc => a.inc
  | dec => a.dec
  | shift n => a.shift n.toInt
  | arithmeticShift n => a.arithmeticShift n.toInt

/-- The operation on limbs. -/
def limb? (a : Limb) : Monadic → Option Limb
  | invert => a.with? (~~~a.bits)
  | inc => a.with? (a.bits + 1)
  | dec => a.with? (a.bits - 1)
  | shift n => a.shift? n
  | arithmeticShift n => a.arithmeticShift? n

end Monadic

namespace Dyadic

/-- The operation on words. -/
def word (a b : Word) : Dyadic → Word
  | store => a.store b
  | add => a.add b
  | subtract => a.subtract b
  | and => a.and b
  | or => a.or b
  | xor => a.xor b

/-- The operation on bits of one width. -/
def combine {w : ℕ} (x y : BitVec w) : Dyadic → BitVec w
  | store => y
  | add => x + y
  | subtract => x - y
  | and => x &&& y
  | or => x ||| y
  | xor => x ^^^ y

/-- The operation on limbs. -/
def limb? (a b : Limb) : Dyadic → Option Limb
  | store => do return ⟨← a.operand? b, a.width⟩
  | op => do a.with? (op.combine a.bits (← a.operand? b))

end Dyadic

end Word

/-! ### Bits of a register -/

section Register

variable {w : ℕ}

theorem setWidth_setWidth (x : BitVec w) (h : w ≤ 64) : (x.setWidth 64).setWidth w = x := by
  rw [BitVec.setWidth_setWidth_of_le x h, BitVec.setWidth_eq]

theorem setWidth_signExtend (x : BitVec w) {m n : ℕ} (h : m ≤ n) :
    (x.signExtend n).setWidth m = x.signExtend m := by
  apply BitVec.eq_of_getLsbD_eq
  intro i hi
  have hn : i < n := by omega
  rw [BitVec.getLsbD_setWidth, BitVec.getLsbD_signExtend, BitVec.getLsbD_signExtend, decide_eq_true hi,
    decide_eq_true hn, Bool.true_and]

theorem setWidth_sub {n : ℕ} (x y : BitVec n) (h : w ≤ n) :
    (x - y).setWidth w = x.setWidth w - y.setWidth w := by
  rw [eq_sub_iff_add_eq, ← BitVec.setWidth_add _ _ h, sub_add_cancel]

theorem setWidth_shiftLeft {n : ℕ} (x : BitVec n) (k : ℕ) (h : w ≤ n) :
    (x <<< k).setWidth w = x.setWidth w <<< k := by
  apply BitVec.eq_of_getLsbD_eq
  intro i hi
  have hn : i < n := by omega
  have hk : i - k < w := by omega
  rw [BitVec.getLsbD_setWidth, BitVec.getLsbD_shiftLeft, BitVec.getLsbD_shiftLeft, BitVec.getLsbD_setWidth,
    decide_eq_true hi, decide_eq_true hn, decide_eq_true hk, Bool.true_and, Bool.true_and, Bool.true_and]

theorem setWidth_ushiftRight (x : BitVec w) (k : ℕ) (h : w ≤ 64) :
    ((x.setWidth 64) >>> k).setWidth w = x >>> k := by
  apply BitVec.eq_of_getLsbD_eq
  intro i hi
  rw [BitVec.getLsbD_setWidth, BitVec.getLsbD_ushiftRight, BitVec.getLsbD_ushiftRight, BitVec.getLsbD_setWidth,
    decide_eq_true hi, Bool.true_and]
  by_cases hk : k + i < 64
  · rw [decide_eq_true hk, Bool.true_and]
  · have hw : w ≤ k + i := by omega
    rw [BitVec.getLsbD_of_ge x (k + i) hw, Bool.and_false]

theorem msb_signExtend (x : BitVec w) (hpos : 1 ≤ w) (h : w ≤ 64) : (x.signExtend 64).msb = x.msb := by
  rw [BitVec.msb_eq_getLsbD_last, BitVec.getLsbD_signExtend]
  by_cases hw : 64 - 1 < w
  · have hwidth : w = 64 := by omega
    subst hwidth
    rw [if_pos hw, BitVec.msb_eq_getLsbD_last]
    rfl
  · rw [if_neg hw]
    rfl

/-- A sign that was extended is what a shift to the right brings in. -/
theorem setWidth_sshiftRight (x : BitVec w) (k : ℕ) (hpos : 1 ≤ w) (h : w ≤ 64) :
    ((x.signExtend 64).sshiftRight k).setWidth w = x.sshiftRight k := by
  apply BitVec.eq_of_getLsbD_eq
  intro i hi
  have h64 : ¬ 64 ≤ i := by omega
  have hw : ¬ w ≤ i := by omega
  rw [BitVec.getLsbD_setWidth, BitVec.getLsbD_sshiftRight, BitVec.getLsbD_sshiftRight,
    BitVec.getLsbD_signExtend, msb_signExtend x hpos h, decide_eq_true hi, decide_eq_false h64,
    decide_eq_false hw, Bool.true_and]
  by_cases hk : k + i < w
  · have hk64 : k + i < 64 := by omega
    simp [hk, hk64]
  · by_cases hk64 : k + i < 64 <;> simp [hk, hk64]

/-- Nothing but the sign is left by a shift to the right by all places but one, or by more. -/
theorem sshiftRight_eq_of_le (x : BitVec w) {k : ℕ} (h : w ≤ k + 1) :
    x.sshiftRight k = x.sshiftRight (w - 1) := by
  have hsign : ∀ j i, i < w → w ≤ j + 1 → (x.sshiftRight j).getLsbD i = x.msb := by
    intro j i hi hj
    rw [BitVec.getLsbD_sshiftRight, decide_eq_false (not_le.2 hi), Bool.not_false, Bool.true_and]
    by_cases hji : j + i < w
    · have hlast : j + i = w - 1 := by omega
      rw [if_pos hji, hlast, BitVec.msb_eq_getLsbD_last]
    · rw [if_neg hji]
  apply BitVec.eq_of_getLsbD_eq
  intro i hi
  rw [hsign k i hi h, hsign (w - 1) i hi (by omega)]

/-- The sign is extended by a shift to the left end and one back. -/
theorem sshiftRight_shiftLeft (x : BitVec w) (hpos : 1 ≤ w) (h : w ≤ 64) :
    ((x.setWidth 64) <<< (64 - w)).sshiftRight (64 - w) = x.signExtend 64 := by
  have hmsb : ((x.setWidth 64) <<< (64 - w)).msb = x.msb := by
    have hlt : 64 - w < 64 := by omega
    have hback : 64 - 1 - (64 - w) = w - 1 := by omega
    have hlast : w - 1 < 64 := by omega
    rw [BitVec.msb_shiftLeft, BitVec.getMsbD_eq_getLsbD, hback, BitVec.getLsbD_setWidth,
      BitVec.msb_eq_getLsbD_last, decide_eq_true hlt, decide_eq_true hlast, Bool.true_and, Bool.true_and]
  apply BitVec.eq_of_getLsbD_eq
  intro i hi
  rw [BitVec.getLsbD_sshiftRight, BitVec.getLsbD_signExtend, BitVec.getLsbD_shiftLeft, hmsb]
  by_cases hw : i < w
  · have h1 : 64 - w + i < 64 := by omega
    have h2 : 64 - w + i - (64 - w) = i := by omega
    simp [hi, hw, h1, h2]
  · have h1 : ¬ 64 - w + i < 64 := by omega
    simp [hi, hw, h1]

/-- The mask of the low bits keeps them. -/
theorem and_mask (w : ℕ) (x : BitVec 64) : x &&& BitVec.ofNat 64 (2 ^ w - 1) = (x.setWidth w).setWidth 64 := by
  apply BitVec.eq_of_getLsbD_eq
  intro i hi
  rw [BitVec.getLsbD_and, BitVec.getLsbD_ofNat, Nat.testBit_two_pow_sub_one, BitVec.getLsbD_setWidth,
    BitVec.getLsbD_setWidth, decide_eq_true hi, Bool.true_and, Bool.true_and, Bool.and_comm]

end Register

namespace Limb

/-! ### What is masked is a word -/

theorem mask?_eq (a : Limb) (h : a.width ≤ 64) : a.mask? = some (BitVec.ofNat 64 (2 ^ a.width - 1)) := by
  unfold mask?
  by_cases hw : a.width = maxWidth
  · rw [if_pos hw, hw]
    rfl
  · -- a one that is shifted within the register is a power of two, and not below one
    have hlt : a.width < 64 := Nat.lt_of_le_of_ne h hw
    have hpow : 2 ^ a.width < 2 ^ 64 := Nat.pow_lt_pow_right (by omega) hlt
    have hone : 1 ≤ 2 ^ a.width := Nat.one_le_two_pow
    have htoNat : ((1 : BitVec 64) <<< a.width).toNat = 2 ^ a.width := by
      rw [BitVec.toNat_shiftLeft, Nat.shiftLeft_eq]
      exact (Nat.mod_eq_of_lt (by simpa using hpow)).trans (Nat.one_mul _)
    have hle : 1 ≤ (1 : BitVec 64) <<< a.width := by
      rw [BitVec.le_def, htoNat]
      exact hone
    have hsub : ((1 : BitVec 64) <<< a.width) - 1 = BitVec.ofNat 64 (2 ^ a.width - 1) := by
      apply BitVec.eq_of_toNat_eq
      rw [BitVec.toNat_sub_of_le hle, htoNat, BitVec.toNat_ofNat, Nat.mod_eq_of_lt (by omega)]
      rfl
    rw [if_neg hw, shiftLeft?, if_pos hlt, Option.bind_eq_bind, Option.bind_some, subBits?, if_pos hle, hsub]

theorem of?_eq {w : ℕ} (hw : 1 ≤ w ∧ w ≤ maxWidth) (x : BitVec 64) :
    of? w x = some (Word.limb ⟨w, x.setWidth w⟩) := by
  unfold of? zero?
  rw [if_pos hw, Option.bind_eq_bind, Option.bind_some, mask?_eq _ hw.2, Option.bind_eq_bind, Option.bind_some,
    and_mask]
  rfl

theorem of?_toInt {w : ℕ} (hw : 1 ≤ w ∧ w ≤ maxWidth) (v : Int64) :
    of? w v.toBitVec = some (Word.ofInt w v.toInt).limb := by
  have hcut : v.toBitVec.setWidth w = BitVec.ofInt w v.toInt :=
    (BitVec.signExtend_eq_setWidth_of_le v.toBitVec hw.2).symm
  rw [of?_eq hw, hcut]
  rfl

theorem of?_toNat {w : ℕ} (hw : 1 ≤ w ∧ w ≤ maxWidth) (n : UInt64) :
    of? w n.toBitVec = some (Word.ofNat w n.toNat).limb := by
  rw [of?_eq hw, Word.ofNat, ← UInt64.toNat_toBitVec, BitVec.ofNat_toNat]

/-- A digit is shifted in from the right. -/
theorem shiftLeft?_one_or (v : BitVec 64) (c : Char) :
    (do return (← shiftLeft? v 1) ||| if c == '1' then 1 else 0) = some (v.shiftConcat (c == '1')) := by
  have hdigit : ∀ i, (if c == '1' then (1 : BitVec 64) else 0).getLsbD i = (decide (i = 0) && c == '1') := by
    intro i
    cases c == '1' <;> simp
  have hbits : (v <<< 1 ||| if c == '1' then 1 else 0) = v.shiftConcat (c == '1') := by
    apply BitVec.eq_of_getLsbD_eq
    intro i hi
    rw [BitVec.getLsbD_or, BitVec.getLsbD_shiftLeft, BitVec.getLsbD_shiftConcat, hdigit]
    by_cases h0 : i = 0 <;> simp [h0, hi]
  rw [shiftLeft?, if_pos (by decide), Option.bind_eq_bind, Option.bind_some, hbits]
  rfl

/-- **The digits of a row** are shifted in one by one; the first ones fall out of the register. -/
theorem ofDigits?_eq {w : ℕ} (hw : 1 ≤ w ∧ w ≤ maxWidth) {s : List Char} (hs : Binary s) :
    ofDigits? w s = some (Word.valueOf w s).limb := by
  have hfold : s.foldlM (fun v c => do return (← shiftLeft? v 1) ||| if c == '1' then 1 else 0) (0 : BitVec 64) =
      some (Word.valueOf 64 s).bits := by
    simp only [shiftLeft?_one_or]
    exact List.foldlM_pure
  have hcut : (Word.valueOf 64 s).bits.setWidth w = (Word.valueOf w s).bits := by
    apply BitVec.eq_of_getLsbD_eq
    intro i hi
    have h64 : i < 64 := hi.trans_le hw.2
    have hword := (Word.bit_valueOf 64 s i).trans (congrArg (· && _) (decide_eq_true h64))
    have hword' := (Word.bit_valueOf w s i).trans (congrArg (· && _) (decide_eq_true hi))
    rw [BitVec.getLsbD_setWidth, decide_eq_true hi, Bool.true_and]
    exact hword.trans hword'.symm
  unfold ofDigits?
  rw [List.all_eq_true.2 hs, hfold]
  exact (of?_eq hw _).trans (congrArg (fun x => some (Word.limb ⟨w, x⟩)) hcut)

theorem getLsbD_one_shiftLeft {i : ℕ} (hi : i < 64) (j : ℕ) :
    ((1 : BitVec 64) <<< i).getLsbD j = decide (j = i) := by
  rw [BitVec.getLsbD_shiftLeft]
  rcases Nat.lt_trichotomy j i with h | rfl | h
  · simp [h, h.ne]
  · simp [hi]
  · have h0 : j - i ≠ 0 := by omega
    simp [h0, h.ne']

/-- The bits of a list are set one by one, from bit `i` on. -/
theorem foldlM_setBit (bits : List Bool) (v : BitVec 64) {i : ℕ} (h : i + bits.length ≤ 64) :
    ∃ x, (bits.zipIdx i).foldlM (fun v b => if b.1 then return v ||| (← shiftLeft? 1 b.2) else some v) v =
      some x ∧
      ∀ j, x.getLsbD j = (v.getLsbD j || (decide (i ≤ j) && bits.getD (j - i) false)) := by
  induction bits generalizing v i with
  | nil => exact ⟨v, rfl, fun j => by simp⟩
  | cons b bits ih =>
    rw [List.length_cons] at h
    have hi : i < 64 := by omega
    have hset : ∀ j, (if b then v ||| (1 : BitVec 64) <<< i else v).getLsbD j =
        (v.getLsbD j || (decide (j = i) && b)) := by
      intro j
      cases b with
      | false => simp
      | true => rw [if_pos rfl, BitVec.getLsbD_or, getLsbD_one_shiftLeft hi, Bool.and_true]
    obtain ⟨x, hx, hbits⟩ := ih (if b then v ||| (1 : BitVec 64) <<< i else v) (i := i + 1) (by omega)
    refine ⟨x, ?_, fun j => ?_⟩
    · rw [List.zipIdx_cons, List.foldlM_cons, ← hx]
      cases b with
      | false => rfl
      | true =>
        simp only [shiftLeft?, if_pos hi]
        rfl
    · rw [hbits, hset]
      rcases Nat.lt_trichotomy j i with hj | rfl | hj
      · have h1 : ¬ i + 1 ≤ j := by omega
        simp [hj, h1, hj.ne]
      · simp
      · have h1 : i + 1 ≤ j := hj
        have h2 : j - i = j - (i + 1) + 1 := by omega
        simp [h1, h2, hj.le, hj.ne']

/-- **A list of bits** is a word if it is no longer than a register. -/
theorem ofBits?_eq {bits : List Bool} (hw : 1 ≤ bits.length ∧ bits.length ≤ maxWidth) :
    ofBits? bits = some (Word.ofBits bits).limb := by
  have hlen : bits.length ≤ 64 := hw.2
  have hmod : bits.length % UInt32.size = bits.length := Nat.mod_eq_of_lt (hlen.trans_lt (by decide))
  obtain ⟨x, hx, hbits⟩ := foldlM_setBit bits 0 (i := 0) (by omega)
  have hword : x = (BitVec.ofBoolListLE bits).setWidth 64 := by
    apply BitVec.eq_of_getLsbD_eq
    intro j hj
    rw [hbits, BitVec.getLsbD_setWidth, BitVec.getLsbD_ofBoolListLE, decide_eq_true hj]
    simp
  unfold ofBits? zero?
  rw [hmod, if_pos hw, Option.bind_eq_bind, Option.bind_some, hx, hword]
  rfl

variable {a b : Word}

theorem with?_limb (ha : a.width ≤ maxWidth) {x : BitVec 64} {y : BitVec a.width} (h : x.setWidth a.width = y) :
    a.limb.with? x = some (Word.limb ⟨a.width, y⟩) := by
  unfold with?
  rw [mask?_eq a.limb ha, Option.bind_eq_bind, Option.bind_some, and_mask, Word.width_limb, h]
  rfl

theorem setWidth_bits_limb (ha : a.width ≤ maxWidth) : a.limb.bits.setWidth a.width = a.bits :=
  setWidth_setWidth a.bits ha

/-- **The signed value** of a word is found by two shifts. -/
theorem toSigned?_limb (ha : 1 ≤ a.width ∧ a.width ≤ maxWidth) :
    a.limb.toSigned? = some (a.bits.signExtend 64) := by
  have hsub : sub? 64 a.limb.width = some (64 - a.width) := if_pos ha.2
  -- only a word without any bit would be shifted by all 64 places
  have hlt : 64 - a.width < 64 := by omega
  unfold toSigned? shiftLeft? sshiftRight?
  rw [hsub, Option.bind_eq_bind, Option.bind_some, if_pos hlt, Option.bind_eq_bind, Option.bind_some,
    if_pos hlt, Word.limb, sshiftRight_shiftLeft a.bits ha.1 ha.2]

/-- **A word of another width** enters with its operand of this width. -/
theorem operand?_limb (ha : a.width ≤ maxWidth) (hb : 1 ≤ b.width ∧ b.width ≤ maxWidth) :
    a.limb.operand? b.limb = some ((b.operand a.width).setWidth 64) := by
  unfold operand?
  rw [toSigned?_limb hb, Option.bind_eq_bind, Option.bind_some, mask?_eq a.limb ha, Option.bind_some,
    and_mask]
  exact congrArg (fun x => some (BitVec.setWidth 64 x)) (setWidth_signExtend b.bits ha)

theorem bit?_limb (ha : a.width ≤ maxWidth) (i : ℕ) : a.limb.bit? i = some (a.bit i) := by
  unfold bit?
  by_cases hi : i < a.limb.width
  · have h64 : i < 64 := Nat.lt_of_lt_of_le hi ha
    have hbit : (a.limb.bits >>> i).getLsbD 0 = a.bit i := by
      rw [BitVec.getLsbD_ushiftRight, Word.limb, BitVec.getLsbD_setWidth, Nat.add_zero, decide_eq_true h64,
        Bool.true_and]
      rfl
    have hone : (a.limb.bits >>> i) &&& 1 = (BitVec.ofBool (a.bit i)).setWidth 64 := by
      rw [← hbit]
      exact BitVec.and_one_eq_setWidth_ofBool_getLsbD
    rw [if_pos hi, shiftRight?, if_pos h64, Option.bind_eq_bind, Option.bind_some, hone]
    cases a.bit i <;> rfl
  · rw [if_neg hi, Word.bit, BitVec.getLsbD_of_ge a.bits i (not_lt.1 hi)]

end Limb

namespace Word

variable {a b : Word}

/-! ### Operations on two words -/

namespace Dyadic

theorem word_eq (op : Dyadic) (a b : Word) : op.word a b = ⟨a.width, op.combine a.bits (b.operand a.width)⟩ := by
  cases op <;> rfl

theorem width_word (op : Dyadic) (a b : Word) : (op.word a b).width = a.width := by
  rw [word_eq]

/-- **An operation commutes with cutting off the upper bits.** -/
theorem setWidth_combine (op : Dyadic) {n w : ℕ} (x y : BitVec n) (h : w ≤ n) :
    (op.combine x y).setWidth w = op.combine (x.setWidth w) (y.setWidth w) := by
  cases op with
  | store => rfl
  | add => exact BitVec.setWidth_add x y h
  | subtract => exact setWidth_sub x y h
  | and => exact BitVec.setWidth_and
  | or => exact BitVec.setWidth_or
  | xor => exact BitVec.setWidth_xor

theorem limb?_eq (op : Dyadic) (ha : a.width ≤ maxWidth) (hb : 1 ≤ b.width ∧ b.width ≤ maxWidth) :
    op.limb? a.limb b.limb = some (op.word a b).limb := by
  have hoperand := Limb.operand?_limb ha hb
  by_cases hop : op = store
  · subst hop
    unfold limb?
    rw [hoperand]
    rfl
  · have hlimb : op.limb? a.limb b.limb =
        (do a.limb.with? (op.combine a.limb.bits (← a.limb.operand? b.limb))) := by
      cases op with
      | store => exact absurd rfl hop
      | _ => rfl
    rw [hlimb, hoperand, Option.bind_eq_bind, Option.bind_some, word_eq]
    apply Limb.with?_limb ha
    rw [setWidth_combine op a.limb.bits _ ha, Limb.setWidth_bits_limb ha, setWidth_setWidth _ ha]

end Dyadic

/-! ### Operations on one word -/

/-- A negative amount of fewer places than a register has can be turned around. -/
theorem neg?_eq {n : Int64} (hneg : n.toInt < 0) (hlt : n.toInt.natAbs < 64) :
    ∃ m, Limb.neg? n = some m ∧ m.toInt.toNat = n.toInt.natAbs := by
  have hmin : n ≠ Int64.minValue := by
    rintro rfl
    exact absurd hlt (by decide)
  have hneg' : (-n).toInt = -n.toInt := by
    rw [Int64.toInt_neg, Int.bmod_eq_of_le (by omega) (by omega)]
  refine ⟨-n, if_neg hmin, ?_⟩
  rw [hneg']
  omega

theorem shift?_limb (ha : 1 ≤ a.width ∧ a.width ≤ maxWidth) (n : Int64) :
    a.limb.shift? n = some (a.shift n.toInt).limb := by
  unfold Limb.shift? shift
  rw [width_limb]
  by_cases hw : a.width ≤ n.toInt.natAbs
  · rw [if_pos hw, if_pos hw, Limb.zero?, if_pos ha]
    simp [limb, zero]
  · have hlt : n.toInt.natAbs < 64 := (not_le.1 hw).trans_le ha.2
    rw [if_neg hw, if_neg hw]
    by_cases hn : 0 ≤ n.toInt
    · have hnat : n.toInt.toNat = n.toInt.natAbs := by omega
      rw [if_pos hn, if_pos hn, hnat, Limb.shiftLeft?, if_pos hlt, Option.bind_eq_bind, Option.bind_some]
      apply Limb.with?_limb ha.2
      rw [setWidth_shiftLeft a.limb.bits _ ha.2, Limb.setWidth_bits_limb ha.2]
    · obtain ⟨m, hm, hnat⟩ := neg?_eq (not_le.1 hn) hlt
      rw [if_neg hn, if_neg hn, hm, Option.bind_eq_bind, Option.bind_some, hnat, Limb.shiftRight?, if_pos hlt,
        Option.bind_eq_bind, Option.bind_some]
      exact Limb.with?_limb ha.2 (setWidth_ushiftRight a.bits _ ha.2)

/-- **The shifted signed value**, cut to the width, is the shifted word. -/
theorem shiftSigned?_signExtend (ha : 1 ≤ a.width ∧ a.width ≤ 64) (n : Int64) :
    ∃ x, Limb.shiftSigned? a.width (a.bits.signExtend 64) n = some x ∧
      ⟨a.width, x.setWidth a.width⟩ = a.arithmeticShift n.toInt := by
  unfold Limb.shiftSigned? arithmeticShift
  by_cases hn : 0 ≤ n.toInt
  · have hnat : n.toInt.toNat = n.toInt.natAbs := by omega
    have hcut : (a.bits.signExtend 64).setWidth a.width = a.bits := by
      rw [setWidth_signExtend a.bits ha.2, BitVec.signExtend_eq]
    rw [if_pos hn, if_pos hn, shift, hnat]
    by_cases hw : (a.width : ℤ) ≤ n.toInt
    · have hw' : a.width ≤ n.toInt.natAbs := by omega
      rw [if_pos hw, if_pos hw']
      exact ⟨0, rfl, congrArg (Word.mk a.width) (BitVec.setWidth_zero _ _)⟩
    · have hw' : ¬ a.width ≤ n.toInt.natAbs := by omega
      have hlt : n.toInt.natAbs < 64 := by omega
      rw [if_neg hw, if_neg hw', if_pos hn, Limb.shiftLeft?, if_pos hlt]
      refine ⟨_, rfl, ?_⟩
      rw [setWidth_shiftLeft _ _ ha.2, hcut]
  · have hlt : min n.toInt.natAbs 63 < 64 := by omega
    have hmin : a.bits.sshiftRight (min n.toInt.natAbs 63) = a.bits.sshiftRight n.toInt.natAbs := by
      rcases Nat.le_total n.toInt.natAbs 63 with h | h
      · rw [Nat.min_eq_left h]
      · -- with so many places nothing is left but the sign, at any width
        rw [Nat.min_eq_right h, sshiftRight_eq_of_le a.bits (by omega),
          sshiftRight_eq_of_le a.bits (k := n.toInt.natAbs) (by omega)]
    rw [if_neg hn, if_neg hn, Limb.sshiftRight?, if_pos hlt, sshiftRight_min]
    refine ⟨_, rfl, ?_⟩
    rw [setWidth_sshiftRight a.bits _ ha.1 ha.2, hmin]

theorem arithmeticShift?_limb (ha : 1 ≤ a.width ∧ a.width ≤ maxWidth) (n : Int64) :
    a.limb.arithmeticShift? n = some (a.arithmeticShift n.toInt).limb := by
  obtain ⟨x, hx, hword⟩ := shiftSigned?_signExtend ha n
  unfold Limb.arithmeticShift?
  rw [Limb.toSigned?_limb ha, Option.bind_eq_bind, Option.bind_some, width_limb, hx, Option.bind_some,
    Limb.of?_eq ha, hword]

namespace Monadic

theorem width_word (op : Monadic) (a : Word) : (op.word a).width = a.width := by
  cases op with
  | shift n => simp only [word, Word.shift]; split_ifs <;> rfl
  | arithmeticShift n => simp only [word, Word.arithmeticShift, Word.shift]; split_ifs <;> rfl
  | _ => rfl

theorem limb?_eq (op : Monadic) (ha : 1 ≤ a.width ∧ a.width ≤ maxWidth) :
    op.limb? a.limb = some (op.word a).limb := by
  have hw : a.width ≤ 64 := ha.2
  have hone : (1 : BitVec 64).setWidth a.width = 1 := BitVec.setWidth_ofNat_of_le hw 1
  cases op with
  | invert =>
    apply Limb.with?_limb ha.2
    rw [BitVec.setWidth_not hw, Limb.setWidth_bits_limb ha.2]
  | inc =>
    apply Limb.with?_limb ha.2
    rw [BitVec.setWidth_add _ _ hw, Limb.setWidth_bits_limb ha.2, hone]
  | dec =>
    apply Limb.with?_limb ha.2
    rw [setWidth_sub _ _ hw, Limb.setWidth_bits_limb ha.2, hone]
  | shift n => exact shift?_limb ha n
  | arithmeticShift n => exact arithmeticShift?_limb ha n

end Monadic

end Word

end TinyIsa
