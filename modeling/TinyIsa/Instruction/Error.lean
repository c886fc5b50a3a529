import TinyIsa.Text.Number
import TinyIsa.Word.Digits

/-!
# Instruction errors

* `InstructionError`: why a text or a row of digits is no instruction.
* `InstructionError.message`: its wording.
-/

namespace TinyIsa

/-- The reasons for which an instruction is refused. -/
inductive InstructionError where
  /-- No operation has this mnemonic. -/
  | unknownMnemonic (mnemonic : String)
  /-- No operation has the opcode of this word. -/
  | unknownOpcode (bits : String)
  /-- No form of the operation takes these operands. -/
  | invalidOperands (mnemonic expected : String) (found : List String)
  /-- A register was expected. -/
  | invalidRegister (argument : String)
  /-- A number was expected. -/
  | invalidImmediate (argument : String)
  /-- The number does not fit its field. -/
  | immediateOutOfRange (value min max : Int)
  /-- The digits are not binary. -/
  | encoding (e : EncodingError)
deriving DecidableEq, Repr

/-- The text of an instruction error. -/
def InstructionError.message : InstructionError → String
  | .unknownMnemonic mnemonic => s!"Unknown instruction `{mnemonic}`"
  | .unknownOpcode bits => s!"Unknown instruction for machine code `{bits}`"
  | .invalidOperands mnemonic expected found =>
    let operands := ", ".intercalate found
    s!"Invalid operands for `{mnemonic}` (expected {expected}, found `{operands}`)"
  | .invalidRegister argument => s!"Not a register: `{argument}`"
  | .invalidImmediate argument => s!"Not a numeric literal: `{argument}`"
  | .immediateOutOfRange value min max =>
    s!"Literal {Text.decimal value} does not fit (allowed range {Text.decimal min} to {Text.decimal max})"
  | .encoding e => e.message

end TinyIsa
