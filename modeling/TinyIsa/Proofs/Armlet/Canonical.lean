import Mathlib
import TinyIsa.Proofs.Armlet.Refinement

/-!
# Canonical encodings

Some digits of an instruction have no part in it: the register fields that its layout does not use,
and the last digit of the first word. Decoding does not look at them, and encoding leaves them zero.

* `Op.Ignores`: the places of these digits; `canonical`: digits with zeros in these places.
* `Coded`: the digits that an operation is decoded from.
* `decode_of_binary`, `accepts_operands`: any digits are decoded, to operands that the operation takes.
* `canonical_pack`: the fields of canonical digits.
* `encode_undoes_decode`: **encoding what was decoded gives the canonical digits**, and these are
  all that is ever encoded.
-/

namespace TinyIsa

namespace Word

theorem toDigits_ofInt_zero (w : ℕ) : (ofInt w 0).toDigits = List.replicate w '0' := by
  simp [ofInt, toDigits]

end Word

namespace Armlet

/-! ### Decoding any digits -/

/-- **Any digits are decoded**: they have three registers and a value, where missing digits are zeros. -/
theorem decode_of_binary (op : Op) {digits : List Char} (h : Binary digits) :
    ∃ (a b c : BitVec registerSize) (v : BitVec wordSize),
      decode op digits = .ok (operands op [⟨_, a⟩, ⟨_, b⟩, ⟨_, c⟩] ⟨_, v⟩) :=
  ⟨_, _, _, _, decode_of_fields op h rfl⟩

/-- **What is decoded has the form of the operation.** -/
theorem accepts_operands (op : Op) {registers : List Word} (value : Word)
    (h3 : op.layout.registers ≤ registers.length) (h8 : ∀ r ∈ registers, r.toNat < 8) :
    InstructionSet.accepts op (operands op registers value) = true := by
  have hlen : ((registers.take op.layout.registers).map (registerName ·.toNat)).length =
      op.layout.registers := by
    simp; omega
  change op.layout.accepts _ = true
  unfold Layout.accepts Layout.arity operands
  rw [List.take_left' hlen, List.drop_left' hlen, List.length_append, hlen]
  simp only [Bool.and_eq_true, beq_iff_eq, List.all_eq_true]
  refine ⟨⟨?_, fun arg harg => ?_⟩, fun arg harg => ?_⟩
  · cases op.layout.immediate <;> rfl
  · obtain ⟨r, hr, rfl⟩ := List.mem_map.1 harg
    rw [registerNumber?_registerName (h8 r (List.mem_of_mem_take hr))]
    rfl
  · -- a decimal text begins with a minus sign or a digit
    by_cases hi : op.layout.immediate = true
    · rw [if_pos hi, List.mem_singleton] at harg
      obtain ⟨d, s, hs, hd⟩ := Text.head_decimal value.toInt
      have hne : d ≠ '$' := by
        rintro rfl
        exact absurd hd (by decide)
      unfold looksLikeRegister
      rw [harg, hs]
      simpa using hne
    · rw [if_neg hi] at harg
      exact absurd harg List.not_mem_nil

/-! ### The digits without a part -/

/-- The place of a register field in the first word. -/
def fieldStart (k : ℕ) : ℕ := opcodeSize + registerSize * k

/-- The places of the digits that have no part in an operation: those of the register fields that its
layout does not use, and the last one of the first word. -/
def Op.Ignores (op : Op) (i : ℕ) : Prop :=
  (∃ k < 3, op.layout.registers ≤ k ∧ fieldStart k ≤ i ∧ i < fieldStart (k + 1)) ∨ i = wordSize - 1

instance (op : Op) : DecidablePred op.Ignores := fun i => inferInstanceAs (Decidable (_ ∨ i = wordSize - 1))

/-- Digits from some place of an instruction on, with zeros in the places that have no part in it. -/
def clear (op : Op) (start : ℕ) (s : List Char) : List Char :=
  s.mapIdx fun i c => if op.Ignores (start + i) then '0' else c

/-- The digits of an instruction with zeros in the places that have no part in it. -/
def canonical (op : Op) (digits : List Char) : List Char := clear op 0 digits

/-- These places stand side by side, behind the fields that are used. -/
theorem ignores_iff {op : Op} {i : ℕ} :
    op.Ignores i ↔ fieldStart op.layout.registers ≤ i ∧ i < wordSize := by
  have h3 := layout_registers_le op
  unfold Op.Ignores fieldStart opcodeSize registerSize wordSize
  constructor
  · rintro (⟨k, hk, hr, hle, hlt⟩ | rfl) <;> omega
  · rintro ⟨hle, hlt⟩
    by_cases hi : i = 15
    · exact Or.inr hi
    · exact Or.inl ⟨(i - 6) / 3, by omega⟩

variable {op : Op} {start : ℕ} {s t digits : List Char}

theorem clear_append (op : Op) (start : ℕ) (s t : List Char) :
    clear op start (s ++ t) = clear op start s ++ clear op (start + s.length) t := by
  unfold clear
  rw [List.mapIdx_append]
  simp only [Nat.add_comm, Nat.add_left_comm]

theorem clear_of_not_ignores (h : ∀ i < s.length, ¬op.Ignores (start + i)) : clear op start s = s := by
  unfold clear
  refine List.ext_getElem (by simp) fun i h1 h2 => ?_
  rw [List.getElem_mapIdx, if_neg (h i h2)]

theorem clear_of_ignores (h : ∀ i < s.length, op.Ignores (start + i)) :
    clear op start s = List.replicate s.length '0' := by
  unfold clear
  refine List.ext_getElem (by simp) fun i h1 h2 => ?_
  rw [List.getElem_mapIdx, if_pos (h i (by simpa using h1)), List.getElem_replicate]

/-- **Digits are canonical** when all those without a part are zeros. -/
theorem canonical_eq_iff (h : wordSize ≤ digits.length) :
    canonical op digits = digits ↔ ∀ i, op.Ignores i → digits[i]? = some '0' := by
  have hget : ∀ i, (canonical op digits)[i]? = digits[i]?.map fun c => if op.Ignores i then '0' else c := by
    intro i
    unfold canonical clear
    simp only [List.getElem?_mapIdx, Nat.zero_add]
  constructor
  · intro hsame i hi
    have hlt : i < digits.length := (ignores_iff.1 hi).2.trans_le h
    have hi' := hget i
    rw [hsame, List.getElem?_eq_getElem hlt, Option.map_some, if_pos hi] at hi'
    rw [List.getElem?_eq_getElem hlt, hi']
  · intro hzero
    refine List.ext_getElem? fun i => ?_
    rw [hget]
    by_cases hi : op.Ignores i
    · rw [hzero i hi, Option.map_some, if_pos hi]
    · simp only [if_neg hi, Option.map_id_fun', id_eq]

/-- The number in a register field, zero when the layout does not use it. -/
def Op.kept (op : Op) (k : ℕ) (v : ℤ) : ℤ := if k < op.layout.registers then v else 0

/-- The registers of a layout, with the first one in the place of a missing one. -/
theorem getD_take_registers (op : Op) (registers : List ℕ) (k : ℕ) :
    (((registers.take op.layout.registers).getD k 0 : ℕ) : ℤ) = op.kept k (registers.getD k 0 : ℕ) := by
  unfold Op.kept
  rw [List.getD_eq_getElem?_getD, List.getD_eq_getElem?_getD, List.getElem?_take]
  by_cases hk : k < op.layout.registers
  · rw [if_pos hk, if_pos hk]
  · rw [if_neg hk, if_neg hk]
    rfl

/-- A register field is kept as a whole or cleared as a whole. -/
theorem clear_field {k : ℕ} (hk : k < 3) (v : ℤ) :
    clear op (fieldStart k) (Word.ofInt registerSize v).toDigits =
      (Word.ofInt registerSize (op.kept k v)).toDigits := by
  have hlen : (Word.ofInt registerSize v).toDigits.length = registerSize := Word.length_toDigits _
  unfold Op.kept
  by_cases hr : k < op.layout.registers
  · rw [if_pos hr]
    refine clear_of_not_ignores fun i hi hignores => ?_
    rw [hlen] at hi
    have hle := (ignores_iff.1 hignores).1
    unfold fieldStart registerSize at *
    omega
  · rw [if_neg hr, Word.toDigits_ofInt_zero]
    refine (clear_of_ignores fun i hi => ?_).trans (by rw [hlen])
    rw [hlen] at hi
    rw [ignores_iff]
    unfold fieldStart opcodeSize registerSize wordSize at *
    omega

/-- The fields of a first word, one behind the other. -/
theorem pack_append (o a b c z : ℤ) (s : List Char) :
    Field.pack (wordFields o a b c z) ++ s = (Word.ofInt opcodeSize o).toDigits ++
      ((Word.ofInt registerSize a).toDigits ++ ((Word.ofInt registerSize b).toDigits ++
        ((Word.ofInt registerSize c).toDigits ++ ((Word.ofInt 1 z).toDigits ++ s)))) := by
  simp only [wordFields, Field.pack_cons, List.append_assoc]
  rfl

/-- **The fields of canonical digits.** -/
theorem canonical_pack (op : Op) (o a b c z : ℤ) (s : List Char) :
    canonical op (Field.pack (wordFields o a b c z) ++ s) =
      Field.pack (wordFields o (op.kept 0 a) (op.kept 1 b) (op.kept 2 c) 0) ++ s := by
  have hopcode : clear op 0 (Word.ofInt opcodeSize o).toDigits = (Word.ofInt opcodeSize o).toDigits := by
    refine clear_of_not_ignores fun i hi hignores => ?_
    rw [Word.length_toDigits] at hi
    have hle := (ignores_iff.1 hignores).1
    unfold fieldStart at hle
    change i < opcodeSize at hi
    omega
  have hlast : clear op 15 (Word.ofInt 1 z).toDigits = (Word.ofInt 1 0).toDigits := by
    rw [Word.toDigits_ofInt_zero]
    refine (clear_of_ignores fun i hi => ?_).trans (by rw [Word.length_toDigits]; rfl)
    rw [Word.length_toDigits] at hi
    change i < 1 at hi
    exact Or.inr (by unfold wordSize; omega)
  have hrest : clear op 16 s = s := clear_of_not_ignores fun i _ hignores => by
    have hlt := (ignores_iff.1 hignores).2
    unfold wordSize at hlt
    omega
  have h0 : clear op 6 _ = _ := clear_field (k := 0) (by decide) a
  have h1 : clear op 9 _ = _ := clear_field (k := 1) (by decide) b
  have h2 : clear op 12 _ = _ := clear_field (k := 2) (by decide) c
  have hlen : ∀ (w : ℕ) (v : ℤ), (Word.ofInt w v).toDigits.length = w := fun w v => Word.length_toDigits _
  unfold canonical
  rw [pack_append, pack_append]
  simp only [clear_append, hlen, hopcode]
  change _ ++ (clear op 6 _ ++ (clear op 9 _ ++ (clear op 12 _ ++ (clear op 15 _ ++ clear op 16 _)))) = _
  rw [h0, h1, h2, hlast, hrest]

/-! ### The digits of an operation -/

/-- The digits of the words of an operation, with its opcode in front. -/
structure Coded (op : Op) (digits : List Char) : Prop where
  binary : Binary digits
  length : digits.length = op.words * wordSize
  opcode : digits.take opcodeSize = (Word.ofNat opcodeSize op.opcode).toDigits

/-- The first digits of a packed word are its opcode. -/
theorem take_pack (o : ℕ) (a b c z : ℤ) (s : List Char) :
    (Field.pack (wordFields o a b c z) ++ s).take opcodeSize = (Word.ofNat opcodeSize o).toDigits := by
  have hlen : (Word.ofInt opcodeSize o).toDigits.length = opcodeSize := Word.length_toDigits _
  rw [pack_append, List.take_left' hlen]
  unfold Word.ofInt Word.ofNat
  rw [BitVec.ofInt_natCast]

theorem Coded.wordSize_le (h : Coded op digits) : wordSize ≤ digits.length := by
  rw [h.length]
  exact Nat.le_mul_of_pos_left _ (InstructionSet.Lawful.words_pos op)

/-- Behind the first word stands the immediate value, or nothing. -/
theorem Coded.drop_wordSize (h : Coded op digits) :
    ∃ v : BitVec wordSize, digits.drop wordSize = immediateDigits op v.toInt := by
  have hlen : (digits.drop wordSize).length = op.layout.immediate.toNat * wordSize := by
    rw [List.length_drop, h.length]
    unfold Op.words
    rw [Nat.add_mul, Nat.one_mul, Nat.add_sub_cancel_left]
  unfold immediateDigits
  by_cases hi : op.layout.immediate = true
  · rw [hi] at hlen
    obtain ⟨v, hv⟩ := Word.exists_eq_toDigits (m := wordSize) (h.binary.drop wordSize) hlen
    refine ⟨v, ?_⟩
    rw [if_pos hi, hv, Field.pack_cons]
    unfold Word.ofInt
    rw [BitVec.ofInt_toInt]
    exact (List.append_nil _).symm
  · rw [eq_false_of_ne_true hi] at hlen
    refine ⟨0, ?_⟩
    rw [if_neg hi]
    exact List.length_eq_zero_iff.1 hlen

/-- **The fields of the digits of an operation.** -/
theorem Coded.fields (h : Coded op digits) : ∃ (a b c : BitVec registerSize) (z : ℕ) (v : BitVec wordSize),
    digits = Field.pack (wordFields op.opcode a.toNat b.toNat c.toNat z) ++ immediateDigits op v.toInt := by
  have hfirst : (digits.take wordSize).length = wordSize := by
    rw [List.length_take, Nat.min_eq_left h.wordSize_le]
  obtain ⟨w, hw⟩ := Word.exists_eq_toDigits (m := 16) (h.binary.take wordSize) hfirst
  have hpack := hw.trans (toDigits_eq_pack w)
  have hopcode : (w.extractLsb' 10 6).toNat = op.opcode := by
    have htake := take_pack (w.extractLsb' 10 6).toNat (w.extractLsb' 7 3).toNat (w.extractLsb' 4 3).toNat
      (w.extractLsb' 1 3).toNat (w.extractLsb' 0 1).toNat (digits.drop wordSize)
    rw [← hpack, List.take_append_drop, h.opcode] at htake
    have hvalue := congrArg BitVec.toNat (Word.toDigits_inj htake)
    rw [BitVec.toNat_ofNat, Nat.mod_eq_of_lt (opcode_lt op), BitVec.toNat_ofNat] at hvalue
    exact (hvalue.trans (Nat.mod_eq_of_lt (w.extractLsb' 10 6).isLt)).symm
  obtain ⟨v, hv⟩ := h.drop_wordSize
  rw [hopcode] at hpack
  exact ⟨w.extractLsb' 7 3, w.extractLsb' 4 3, w.extractLsb' 1 3, _, v,
    (List.take_append_drop wordSize digits).symm.trans (congrArg₂ (· ++ ·) hpack hv)⟩

/-- What is encoded are digits of the operation. -/
theorem coded_of_encode {args : List String} (h : encode op args = .ok digits) : Coded op digits := by
  have hlength := length_encode h
  obtain ⟨registers, value, -, -, rfl⟩ := encode_eq_ok.1 h
  exact ⟨binary_append.2 ⟨Field.binary_pack _, binary_immediateDigits op value⟩, hlength,
    take_pack _ _ _ _ _ _⟩

/-- What is encoded is canonical. -/
theorem canonical_of_encode {args : List String} (h : encode op args = .ok digits) :
    canonical op digits = digits := by
  obtain ⟨registers, value, hr, -, rfl⟩ := encode_eq_ok.1 h
  have hlen : registers.length ≤ op.layout.registers := by
    rw [← (mapM_eq_ok.1 hr).length_eq, List.length_take]
    exact Nat.min_le_left _ _
  have hkept := getD_take_registers op registers
  rw [List.take_of_length_le hlen] at hkept
  rw [canonical_pack, ← hkept 0, ← hkept 1, ← hkept 2]

/-- **Encoding what was decoded** gives the canonical digits. -/
theorem Coded.encode_decode (h : Coded op digits) : ∃ args, decode op digits = .ok args ∧
    InstructionSet.accepts op args = true ∧ encode op args = .ok (canonical op digits) := by
  obtain ⟨a, b, c, z, v, rfl⟩ := h.fields
  have h8 : ∀ r ∈ registerFields [a.toNat, b.toNat, c.toNat], r.toNat < 8 := fun r => registerFields_lt
  have hnumbers : (registerFields [a.toNat, b.toNat, c.toNat]).map Word.toNat = [a.toNat, b.toNat, c.toNat] := by
    simp only [registerFields, List.map_cons, List.map_nil, List.getD_cons_zero, List.getD_cons_succ]
    rw [toNat_ofInt_register a.isLt, toNat_ofInt_register b.isLt, toNat_ofInt_register c.isLt]
  have hdecode := decode_pack op op.opcode a.toNat b.toNat c.toNat z (binary_immediateDigits op v.toInt)
    (fieldsOf_immediateDigits op v.toInt)
  have hencode : encode op (operands op (registerFields [a.toNat, b.toNat, c.toNat])
      (Word.ofInt wordSize (if op.layout.immediate then v.toInt else 0))) = _ :=
    encode_operands op (layout_registers_le op) h8
  have himmediate : immediateDigits op (if op.layout.immediate then v.toInt else 0) =
      immediateDigits op v.toInt := by
    unfold immediateDigits
    by_cases hi : op.layout.immediate = true
    · rw [if_pos hi, if_pos hi, if_pos hi]
    · rw [if_neg hi, if_neg hi]
  refine ⟨_, hdecode, accepts_operands op _ (layout_registers_le op) h8, ?_⟩
  rw [hnumbers, getD_take_registers, getD_take_registers, getD_take_registers, immediateDigits_toInt,
    himmediate] at hencode
  rw [canonical_pack]
  exact hencode

/-- **Encoding undoes decoding up to the digits without a part.** All digits of an operation are
decoded to operands that it takes, and these are encoded as the same digits with zeros in the places
that the operation ignores: as the digits themselves exactly when these places hold zeros already.
Such digits are all that is ever encoded. -/
theorem encode_undoes_decode (op : Op) {digits : List Char} (h : Coded op digits) :
    (∃ args, decode op digits = .ok args ∧ InstructionSet.accepts op args = true ∧
      encode op args = .ok (canonical op digits)) ∧
    ((decode op digits >>= encode op) = .ok digits ↔ ∀ i, op.Ignores i → digits[i]? = some '0') ∧
    ∀ code, (∃ args, encode op args = .ok code) ↔
      Coded op code ∧ ∀ i, op.Ignores i → code[i]? = some '0' := by
  obtain ⟨args, hdecode, haccepts, hencode⟩ := h.encode_decode
  have hboth : (decode op digits >>= encode op) = .ok (canonical op digits) :=
    bind_eq_ok.2 ⟨args, hdecode, hencode⟩
  refine ⟨⟨args, hdecode, haccepts, hencode⟩, ?_, fun code => ⟨?_, ?_⟩⟩
  · rw [hboth, ← canonical_eq_iff h.wordSize_le]
    exact ⟨Except.ok.inj, congrArg Except.ok⟩
  · rintro ⟨args, hcode⟩
    have hcoded := coded_of_encode hcode
    exact ⟨hcoded, (canonical_eq_iff hcoded.wordSize_le).1 (canonical_of_encode hcode)⟩
  · rintro ⟨hcoded, hzero⟩
    obtain ⟨args, -, -, hencode⟩ := hcoded.encode_decode
    exact ⟨args, hencode.trans (congrArg Except.ok ((canonical_eq_iff hcoded.wordSize_le).2 hzero))⟩

/-- A move of a negative number, with ones in the register fields without a part and in the last digit. -/
theorem encode_undoes_decode_move :
    Coded (.mov .immediate) "01010001110111011111111111111111".toList ∧
      ∃ args, decode (.mov .immediate) "01010001110111011111111111111111".toList = .ok args ∧
        InstructionSet.accepts (Op.mov .immediate) args = true ∧
        encode (.mov .immediate) args = .ok "01010001100000001111111111111111".toList := by
  have hcoded : Coded (.mov .immediate) "01010001110111011111111111111111".toList :=
    ⟨List.all_eq_true.1 (by cbv), by cbv, by cbv⟩
  have hcanonical : canonical (.mov .immediate) "01010001110111011111111111111111".toList =
      "01010001100000001111111111111111".toList := by
    decide
  obtain ⟨⟨args, hdecode, haccepts, hencode⟩, -, -⟩ := encode_undoes_decode (.mov .immediate) hcoded
  exact ⟨hcoded, args, hdecode, haccepts, hencode.trans (congrArg Except.ok hcanonical)⟩

end Armlet

end TinyIsa
