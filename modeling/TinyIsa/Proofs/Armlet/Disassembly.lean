import Mathlib
import TinyIsa.Proofs.Armlet.Canonical
import TinyIsa.Proofs.Source.Printed

/-!
# Disassembled instructions

Any words are decoded to an instruction, a `halt` where no operation has their opcode. What is
decoded is assembly text again: it is read as one instruction, with the same operation and the same
arguments, whose digits are decoded to them once more.

* `exists_ofMemory`: any words are decoded, to operands that their operation takes.
* `written_operands`, `not_isReference_operands`: such an instruction can stand in a source, and has
  no references.
* `exists_encode_operands`: its operands are encoded as digits that are decoded to them.
* `disassembly_reassembles`: **what is decoded from any memory is read from its text**.
-/

namespace TinyIsa.Armlet

open Instruction

/-! ### Decoding from a memory -/

/-- An opcode that no operation has selects `halt`. -/
theorem lookup_getD (first : Word) : lookup first =
    .ok ((InstructionSet.withOpcode? (InstructionSet.opcodeOf Op first)).getD Op.halt) := by
  unfold lookup
  cases (InstructionSet.withOpcode? (InstructionSet.opcodeOf Op first) : Option Op) <;> rfl

/-- **Any words are decoded**, to operands in registers and a value. -/
theorem exists_ofMemory (memory : Array Word) (address : ℕ) :
    ∃ (op : Op) (a b c : BitVec registerSize) (v : BitVec wordSize),
      lookup (cell Op memory address) = .ok op ∧
      ofMemory memory address =
        .ok { ofOp op (operands op [⟨_, a⟩, ⟨_, b⟩, ⟨_, c⟩] ⟨_, v⟩) with address := some address } := by
  have hlookup := lookup_getD (cell Op memory address)
  generalize (InstructionSet.withOpcode? (InstructionSet.opcodeOf Op (cell Op memory address))).getD Op.halt = op
    at hlookup
  obtain ⟨a, b, c, v, hdecode⟩ := decode_of_binary op
    (Word.binary_flatMap_toDigits (List.range (InstructionSet.words op)) fun k => cell Op memory (address + k))
  refine ⟨op, a, b, c, v, hlookup, ?_⟩
  unfold ofMemory
  exact bind_eq_ok.2 ⟨op, hlookup, bind_eq_ok.2 ⟨_, hdecode, rfl⟩⟩

/-! ### The text of operands -/

section

variable (op : Op) (a b c : BitVec registerSize) (v : BitVec wordSize)

theorem toNat_lt_of_mem {r : Word} (hr : r ∈ ([⟨_, a⟩, ⟨_, b⟩, ⟨_, c⟩] : List Word)) : r.toNat < 8 := by
  simp only [List.mem_cons, List.not_mem_nil, or_false] at hr
  rcases hr with rfl | rfl | rfl
  · exact a.isLt
  · exact b.isLt
  · exact c.isLt

/-- An operand is the name of a register or a decimal number. -/
theorem of_mem_operands {arg : String} (h : arg ∈ operands op [⟨_, a⟩, ⟨_, b⟩, ⟨_, c⟩] ⟨_, v⟩) :
    (∃ n < 8, arg = registerName n) ∨ ∃ x : ℤ, arg = Text.decimal x := by
  rcases List.mem_append.1 h with hregister | himmediate
  · obtain ⟨r, hr, rfl⟩ := List.mem_map.1 hregister
    exact Or.inl ⟨_, toNat_lt_of_mem a b c (List.mem_of_mem_take hr), rfl⟩
  · by_cases hi : op.layout.immediate = true
    · rw [if_pos hi] at himmediate
      exact Or.inr ⟨_, List.mem_singleton.1 himmediate⟩
    · rw [if_neg hi] at himmediate
      exact absurd himmediate List.not_mem_nil

theorem isArgument_registerName (n : ℕ) : IsArgument dialect (registerName n) := by
  unfold IsArgument registerName
  rw [String.toList_ofList]
  refine ⟨List.cons_ne_nil _ _, fun x hx => ?_⟩
  rcases List.mem_cons.1 hx with rfl | hx
  · decide
  · exact argument_of_isDigit legible_dialect (Text.isDigit_of_mem_toDigits hx)

/-- Operands have no references. -/
theorem not_isReference_operands {arg : String} (h : arg ∈ operands op [⟨_, a⟩, ⟨_, b⟩, ⟨_, c⟩] ⟨_, v⟩) :
    dialect.isReference arg = false := by
  rcases of_mem_operands op a b c v h with ⟨n, hn, rfl⟩ | ⟨x, rfl⟩
  · exact not_isReference_of_register (registerNumber?_registerName hn)
  · exact Dialect.isReference_decimal distinct x

/-- **Operands are encoded as digits that are decoded to them.** -/
theorem exists_encode_operands : ∃ code, encode op (operands op [⟨_, a⟩, ⟨_, b⟩, ⟨_, c⟩] ⟨_, v⟩) = .ok code ∧
    decode op code = .ok (operands op [⟨_, a⟩, ⟨_, b⟩, ⟨_, c⟩] ⟨_, v⟩) := by
  -- the fields beyond those of the layout are zeros, which no operand shows
  have hregisters : ∀ n ≤ 3, (registerFields ([a.toNat, b.toNat, c.toNat].take n)).take n =
      ([⟨_, a⟩, ⟨_, b⟩, ⟨_, c⟩] : List Word).take n := by
    have hfield : ∀ x : BitVec registerSize, Word.ofInt registerSize x.toNat = ⟨_, x⟩ := fun x => ofInt_toNat x
    intro n hn
    interval_cases n <;> simp [registerFields, hfield]
  have hoperands : operands op (registerFields ([a.toNat, b.toNat, c.toNat].take op.layout.registers))
      (Word.ofInt wordSize (if op.layout.immediate then v.toInt else 0)) =
        operands op [⟨_, a⟩, ⟨_, b⟩, ⟨_, c⟩] ⟨_, v⟩ := by
    unfold operands
    rw [hregisters _ (layout_registers_le op)]
    by_cases hi : op.layout.immediate = true
    · simp only [if_pos hi]
      unfold Word.ofInt
      rw [BitVec.ofInt_toInt]
    · rw [if_neg hi, if_neg hi]
  refine ⟨_, encode_operands op (layout_registers_le op) fun r => toNat_lt_of_mem a b c, ?_⟩
  rw [decode_pack op _ _ _ _ _ (binary_immediateDigits op _) (fieldsOf_immediateDigits op _)]
  exact congrArg Except.ok hoperands

/-- **Operands can stand in a source.** -/
theorem written_operands : (ofOp op (operands op [⟨_, a⟩, ⟨_, b⟩, ⟨_, c⟩] ⟨_, v⟩)).Written where
  sound := by
    obtain ⟨code, hcode, -⟩ := exists_encode_operands op a b c v
    refine ⟨⟨code, hcode⟩, fun op' args hb => ?_⟩
    obtain ⟨rfl, rfl⟩ := Body.operation.inj hb
    exact accepts_operands op _ (layout_registers_le op) fun r => toNat_lt_of_mem a b c
  code := rfl
  arguments := by
    intro arg harg
    rcases of_mem_operands op a b c v harg with ⟨n, -, rfl⟩ | ⟨x, rfl⟩
    · exact isArgument_registerName n
    · exact isArgument_decimal legible_dialect x
  values values hb := absurd hb (by simp [ofOp])

end

/-- **Disassembly reassembles.** Any address of any memory has an instruction, which is an operation
with arguments, `halt` where no operation has the opcode in the memory. Its text is a source whose
only entry has this operation and these arguments, and the digits of the entry are decoded to them. -/
theorem disassembly_reassembles (memory : Array Word) (address : ℕ) :
    ∃ (op : Op) (args : List String) (d i : Instruction Op) (code : List Char),
      ofMemory memory address = .ok d ∧ d.body = .operation op args ∧
      parse d.display.toList true = .ok [i] ∧ i.body = .operation op args ∧
      i.code = .ok code ∧ ofCode code = .ok (ofOp op args) ∧
      (InstructionSet.withOpcode? (InstructionSet.opcodeOf Op (cell Op memory address)) = (none : Option Op) →
        d.display = "halt") := by
  obtain ⟨op, a, b, c, v, hlookup, hd⟩ := exists_ofMemory memory address
  obtain ⟨code, hencode, hdecode⟩ := exists_encode_operands op a b c v
  have hparse := (written_operands op a b c v).parse_display fun arg => not_isReference_operands op a b c v
  refine ⟨op, _, _, _, code, hd, rfl, hparse, rfl, hencode, ofCode_encode hencode hdecode, fun hnone => ?_⟩
  rw [lookup_getD, hnone] at hlookup
  obtain rfl : Op.halt = op := Except.ok.inj hlookup
  have hargs : operands Op.halt [⟨_, a⟩, ⟨_, b⟩, ⟨_, c⟩] ⟨_, v⟩ = [] := rfl
  rw [hargs]
  rfl

/-- A word with an opcode that no operation has. -/
example : (ofMemory #[⟨16, 0xFFFF⟩] 0 : Except InstructionError (Instruction Op)) =
    .ok { ofOp .halt [] with address := some 0 } := by cbv

end TinyIsa.Armlet
