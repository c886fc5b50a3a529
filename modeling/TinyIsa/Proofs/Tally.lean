import Mathlib
import TinyIsa.Proofs.InstructionSet
import TinyIsa.Tally

/-!
# Tally is a lawful instruction set

* `encode_eq_ok`: the digits of an instruction are its opcode and its operand.
* `decode_of_binary`: any digits are decoded.
* `encode_decode`: decoding and encoding again gives the same digits.
-/

namespace TinyIsa.Tally

variable {op : Op} {args : List String} {code : List Char}

/-- The fields of an instruction. -/
def wordFields (op : Op) (operand : ℤ) : List (ℤ × ℕ) := [(op.opcode, opcodeSize), (operand, operandSize)]

theorem encode_eq_ok : encode op args = .ok code ↔
    ∃ operand, args.head?.elim (.ok 0) (Literal.field dialect operandSize) = .ok operand ∧
      code = Field.pack (wordFields op operand) := by
  unfold encode
  rw [bind_eq_ok]
  constructor
  · rintro ⟨operand, ho, h⟩
    exact ⟨operand, ho, (Except.ok.inj h).symm⟩
  · rintro ⟨operand, ho, rfl⟩
    exact ⟨operand, ho, rfl⟩

theorem length_pack_wordFields (op : Op) (operand : ℤ) :
    (Field.pack (wordFields op operand)).length = wordSize := by
  rw [Field.length_pack]
  rfl

theorem opcodeOf_pack (op : Op) (operand : ℤ) :
    InstructionSet.opcodeOf Op (Word.valueOf wordSize (Field.pack (wordFields op operand))) = op.opcode := by
  have h := Field.toNat_valueOf_pack_shiftRight op.opcode opcodeSize [(operand, operandSize)] (m := 5) rfl
  have ho : (BitVec.ofInt opcodeSize op.opcode).toNat = op.opcode := by
    cases op <;> decide
  exact h.trans ho

theorem decode_pack (op : Op) (operand : ℤ) : decode op (Field.pack (wordFields op operand)) =
    .ok (if op.hasOperand then [Text.decimal (BitVec.ofInt operandSize operand).toInt] else []) := by
  have hfields := Field.fieldsOf_pack_append (wordFields op operand) [] []
  rw [List.append_nil, List.append_nil] at hfields
  unfold decode
  rw [Field.unpack_eq_ok (Field.binary_pack _), show [opcodeSize, operandSize] =
    (wordFields op operand).map Prod.snd from rfl, hfields]
  rfl

/-- Binary digits always spell arguments. -/
theorem decode_of_binary (op : Op) {digits : List Char} (h : Binary digits) :
    ∃ args, decode op digits = .ok args := by
  unfold decode
  rw [Field.unpack_eq_ok h]
  exact ⟨_, rfl⟩

theorem accepts_iff : InstructionSet.accepts op args = true ↔ args.length = op.hasOperand.toNat :=
  beq_iff_eq

theorem distinct : dialect.Distinct := ⟨by decide, by decide⟩

/-- **What is decoded from an encoded instruction is encoded in the same way.** -/
theorem encode_decode (ha : InstructionSet.accepts op args = true) (h : encode op args = .ok code) :
    ∃ args', decode op code = .ok args' ∧ encode op args' = .ok code := by
  obtain ⟨operand, ho, rfl⟩ := encode_eq_ok.1 h
  refine ⟨_, decode_pack op operand, encode_eq_ok.2 ?_⟩
  by_cases hop : op.hasOperand = true
  · have hsame : Word.ofInt operandSize (BitVec.ofInt operandSize operand).toInt =
        Word.ofInt operandSize operand := by
      unfold Word.ofInt
      rw [BitVec.ofInt_toInt]
    refine ⟨(BitVec.ofInt operandSize operand).toInt, ?_, ?_⟩
    · rw [if_pos hop]
      exact Literal.field_decimal distinct (by decide) _
    · unfold wordFields
      rw [Field.pack_cons, Field.pack_cons, Field.pack_cons, Field.pack_cons, hsame]
  · -- without an operand there is no argument, and zero is encoded
    have hlen : args.length = 0 := by
      rw [accepts_iff.1 ha, eq_false_of_ne_true hop]
      rfl
    obtain rfl := List.length_eq_zero_iff.1 hlen
    rw [if_neg hop]
    exact ⟨operand, ho, rfl⟩

instance : InstructionSet.Lawful Op where
  distinct := distinct
  wordSize_pos := by decide
  length_encode h := by
    obtain ⟨operand, -, rfl⟩ := encode_eq_ok.1 h
    exact length_pack_wordFields _ operand
  words_pos _ := Nat.one_pos
  binary_encode h := by
    obtain ⟨operand, -, rfl⟩ := encode_eq_ok.1 h
    exact Field.binary_pack _
  opcode_encode {op _ _} h := by
    obtain ⟨operand, -, rfl⟩ := encode_eq_ok.1 h
    have hlen := length_pack_wordFields op operand
    change InstructionSet.opcodeOf Op (Word.valueOf wordSize ((Field.pack (wordFields op operand)).take wordSize)) = _
    rw [List.take_of_length_le hlen.le]
    exact opcodeOf_pack op operand
  withOpcode?_opcode op := by cases op <;> decide
  encode_decode := encode_decode
  accepts_resolved {op args args'} h ha := by
    rw [accepts_iff] at ha ⊢
    rw [← h.length_eq, ha]

end TinyIsa.Tally
