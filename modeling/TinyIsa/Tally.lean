import TinyIsa.Field
import TinyIsa.InstructionSet

/-!
# Tally

Tally is an 8-bit machine with 32 cells and one register. An instruction is an opcode of
three bits and an operand of five. Its only branch is relative to its own address.

* `Tally.Op`: the operations.
* `Tally.encode`, `Tally.decode`: arguments into digits and back.
* `Tally.action`: what an instruction does.
-/

namespace TinyIsa.Tally

/-- The operations. -/
inductive Op where
  /-- Halts the machine. -/
  | halt
  /-- Puts the operand into the register. -/
  | set
  /-- Adds the operand to the register. -/
  | add
  /-- Writes the number in the register. -/
  | out
  /-- Goes on as many words further as the operand says, unless the register is zero. -/
  | bnz
deriving DecidableEq, Repr

namespace Op

/-- The opcode of an operation. -/
def opcode : Op → Nat
  | halt => 0 | set => 1 | add => 2 | out => 3 | bnz => 4

/-- The mnemonic of an operation. -/
def mnemonic : Op → String
  | halt => "halt" | set => "set" | add => "add" | out => "out" | bnz => "bnz"

/-- Whether an operation has an operand. -/
def hasOperand : Op → Bool
  | set | add | bnz => true
  | halt | out => false

end Op

/-- The number of bits of a word. -/
def wordSize : Nat := 8

/-- The number of bits of an opcode. -/
def opcodeSize : Nat := 3

/-- The number of bits of an operand. -/
def operandSize : Nat := 5

/-- The marks of the assembly text. -/
def dialect : Dialect where
  comment := ';'
  separator := ':'
  reference := '&'
  dataDirective := ".word"

/-- The name of the register. -/
def accName : String := "acc"

/-- The digits of an instruction, with zero for a missing operand. -/
def encode (op : Op) (args : List String) : Except InstructionError (List Char) := do
  let operand ← args.head?.elim (.ok 0) (Literal.field dialect operandSize)
  return Field.pack [(op.opcode, opcodeSize), (operand, operandSize)]

/-- The arguments of an instruction with the given digits. -/
def decode (op : Op) (digits : List Char) : Except InstructionError (List String) := do
  let fields ← (Field.unpack digits [opcodeSize, operandSize]).mapError .encoding
  return if op.hasOperand then (fields.drop 1).map (Text.decimal ·.toInt) else []

/-- The numbers of 64 bits in two's complement. -/
def isSigned64 (v : Int) : Bool := v.bmod UInt64.size == v

/-- The operand that an argument spells in decimal, zero when there is none. -/
def operandOf (args : List String) : Int :=
  ((args.head?.bind fun arg => Text.integer? arg.toList).filter isSigned64).getD 0

/-- What an instruction does. -/
def action (op : Op) (args : List String) : Action Flow := do
  let acc ← Action.register accName (Word.zero wordSize)
  match op with
  | .halt =>
    Action.stop
    return .next
  | .set =>
    Action.setRegister accName (Word.ofInt wordSize (operandOf args))
    return .next
  | .add =>
    Action.setRegister accName (acc.add (Word.ofInt wordSize (operandOf args)))
    return .next
  | .out =>
    Action.output (Text.decimal acc.toInt)
    return .next
  | .bnz =>
    if acc.isZero then return .next
    else
      let pc ← Action.counter
      return .jump ((pc + operandOf args) % UInt64.size).toNat

/-- Tally. A label stands for its address, in a branch for its distance. -/
instance : InstructionSet Op where
  name := "tally"
  wordSize := wordSize
  addressSize := 5
  opcodeSize := opcodeSize
  dialect := dialect
  registers := [⟨accName, 8, false⟩]
  operations := [.halt, .set, .add, .out, .bnz]
  mnemonic := Op.mnemonic
  opcode := Op.opcode
  words _ := 1
  accepts op args := args.length == op.hasOperand.toNat
  expected op := if op.hasOperand then "literal" else "no operands"
  encode := encode
  decode := decode
  action := action
  labelValue
    | .bnz, target, address => signedAddress (signedAddress target - signedAddress address)
    | _, target, _ => signedAddress target
  fallback := none

end TinyIsa.Tally
