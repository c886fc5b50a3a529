import TinyIsa.Action
import TinyIsa.Literal
import TinyIsa.Registers

/-!
# Instruction sets

* `InstructionSet`: an architecture, given by what is particular to it: its sizes, its
  registers, the marks of its assembly text, and its operations with their forms,
  codes and actions.
* `InstructionSet.opcodeOf`, `InstructionSet.withOpcode?`: the operation that a first
  word selects.
-/

namespace TinyIsa

/-- An architecture with the operations `Op`. -/
class InstructionSet (Op : Type) where
  /-- Its name. -/
  name : String
  /-- The number of bits of a memory cell. -/
  wordSize : Nat
  /-- The number of bits of an address. -/
  addressSize : Nat
  /-- The number of bits of an opcode, the first bits of an instruction. -/
  opcodeSize : Nat
  /-- The marks of its assembly text. -/
  dialect : Dialect
  /-- Its registers besides the program counter. -/
  registers : List RegisterSpec
  /-- Its operations, each once; of two that share a mnemonic the first is tried first. -/
  operations : List Op
  /-- The mnemonic of an operation. -/
  mnemonic : Op → String
  /-- The opcode of an operation. -/
  opcode : Op → Nat
  /-- The number of words of an instruction with this operation. -/
  words : Op → Nat
  /-- Whether the operation has the form that these arguments ask for. -/
  accepts : Op → List String → Bool
  /-- The operands of the forms of an operation, in words. -/
  expected : Op → String
  /-- The digits of an instruction. -/
  encode : Op → List String → Except InstructionError (List Char)
  /-- The arguments of an instruction with the given digits. -/
  decode : Op → List Char → Except InstructionError (List String)
  /-- What an instruction does. -/
  action : Op → List String → Action Flow
  /-- The number that stands for a label, from the label's and the instruction's address. -/
  labelValue : Op → Nat → Nat → Int
  /-- The operation that stands in for an unknown opcode. -/
  fallback : Option Op

namespace InstructionSet

variable (Op : Type) [InstructionSet Op]

/-- The number of memory cells. -/
def capacity : Nat := Nat.pow 2 (addressSize Op)

/-- The memory cell of zeros. -/
def blankWord : Word := Word.zero (wordSize Op)

/-- The opcode bits of a first word. -/
def opcodeOf (w : Word) : Nat := w.toNat >>> (wordSize Op - opcodeSize Op)

variable {Op}

/-- The operation of an opcode. -/
def withOpcode? (n : Nat) : Option Op :=
  (operations : List Op).find? (opcode · == n)

/-- The operations of a mnemonic in any case, in order. -/
def withMnemonic (name : String) : List Op :=
  operations.filter (mnemonic · == Text.lowercase name)

variable (Op)

/-- The mnemonics, each once, in the order of the operations. -/
def mnemonics : List String :=
  ((operations : List Op).map mnemonic).eraseDups

end InstructionSet

/-- An address as a signed 64-bit number. -/
def signedAddress (n : Int) : Int := n.bmod UInt64.size

end TinyIsa
