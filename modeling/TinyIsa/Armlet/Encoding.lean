import TinyIsa.Armlet.Operation
import TinyIsa.Field

/-!
# Encoding of Armlet instructions

The first word has the opcode in bits 15 to 10, three registers in bits 9 to 7, 6 to 4
and 3 to 1, and a clear last bit. An immediate value follows in a second word.

* `Armlet.registerNumber?`: the number of a register by its name.
* `Armlet.encode`, `Armlet.decode`: arguments into digits and back.
-/

namespace TinyIsa.Armlet

/-- The number of bits of a word. -/
def wordSize : Nat := 16

/-- The number of bits of an opcode. -/
def opcodeSize : Nat := 6

/-- The number of bits of a register number. -/
def registerSize : Nat := 3

/-- The marks of the assembly text. -/
def dialect : Dialect where
  comment := '#'
  separator := ':'
  reference := '>'
  dataDirective := ".data"

/-- The name of a register. -/
def registerName (n : Nat) : String := String.ofList ('$' :: Nat.toDigits 10 n)

/-- The number of a register: its name is a dollar sign and a digit from zero to seven. -/
def registerNumber? (arg : String) : Option Nat :=
  match arg.toList with
  | ['$', c] => if '0' ≤ c ∧ c ≤ '7' then some (c.toNat - '0'.toNat) else none
  | _ => none

/-- The number of the register that an argument has to name. -/
def registerNumber (arg : String) : Except InstructionError Nat :=
  match registerNumber? arg with
  | some n => .ok n
  | none => .error (.invalidRegister arg)

/-- Whether an argument means a register, well formed or not. -/
def looksLikeRegister (arg : String) : Bool := arg.toList.head? == some '$'

/-- Whether the arguments have the form of a layout. -/
def Layout.accepts (l : Layout) (args : List String) : Bool :=
  args.length == l.arity && (args.take l.registers).all (registerNumber? · |>.isSome) &&
    (args.drop l.registers).all (!looksLikeRegister ·)

/-- The fields of a first word. -/
def firstFields (op : Op) (registers : List Nat) : List (Int × Nat) :=
  [((op.opcode : Int), opcodeSize)] ++
    (registers.rightpad 3 0).map (fun (n : Nat) => ((n : Int), registerSize)) ++ [(0, 1)]

/-- The digits of an instruction. A missing register is encoded as the first one and a
missing immediate value as zero; arguments in excess are left out. -/
def encode (op : Op) (args : List String) : Except InstructionError (List Char) := do
  let registers ← (args.take op.layout.registers).mapM registerNumber
  if op.layout.immediate then
    let value ← (args[op.layout.registers]?).elim (.ok 0) (Literal.field dialect wordSize)
    return Field.pack (firstFields op registers) ++ Field.pack [(value, wordSize)]
  else return Field.pack (firstFields op registers)

/-- The widths of the fields of an instruction of two words. -/
def fieldWidths : List Nat :=
  [opcodeSize, registerSize, registerSize, registerSize, 1, wordSize]

/-- The arguments of an instruction with the given digits. -/
def decode (op : Op) (digits : List Char) : Except InstructionError (List String) := do
  let fields ← (Field.unpack digits fieldWidths).mapError .encoding
  let registers := (fields.drop 1).take op.layout.registers
  let immediates := if op.layout.immediate then fields.drop 5 else []
  return registers.map (registerName ·.toNat) ++ immediates.map (Text.decimal ·.toInt)

end TinyIsa.Armlet
