import TinyIsa.Field
import TinyIsa.Instruction.Basic

/-!
# Instructions from machine code

* `Instruction.ofCode`: the instruction at the beginning of a text of digits.
* `Instruction.ofMemory`: the instruction at an address of a memory, where cells
  beyond the end read as zero.
-/

namespace TinyIsa.Instruction

variable {Op : Type} [InstructionSet Op]

open InstructionSet

/-- The operation that a first word selects. -/
def lookup (first : Word) : Except InstructionError Op :=
  match (withOpcode? (opcodeOf Op first)).or fallback with
  | some op => .ok op
  | none => .error (.unknownOpcode first.text)

/-- The first `n` bytes of a text of digits; all of it when it is shorter or the cut
would split a character. -/
def leading (n : Nat) (digits : List Char) : List Char :=
  (Text.takeBytes? n digits).getD digits

/-- The instruction at the beginning of a text of digits. The operation is that of the
first word, which a short text fills from the right; its arguments are read with
zeros for the digits missing at the end. -/
def ofCode (digits : List Char) : Except InstructionError (Instruction Op) := do
  let first ← (Word.ofDigits (wordSize Op) (leading (wordSize Op) digits)).mapError .encoding
  let op : Op ← lookup first
  let total := words op * wordSize Op
  let args ← decode op ((leading total digits).rightpad total '0')
  return ofOp op args

/-- The cell of a memory at an address, zero beyond the end. -/
def cell (Op : Type) [InstructionSet Op] (memory : Array Word) (address : Nat) : Word :=
  memory[address]?.getD (blankWord Op)

/-- The instruction at an address of a memory. -/
def ofMemory (memory : Array Word) (address : Nat) : Except InstructionError (Instruction Op) := do
  let op : Op ← lookup (cell Op memory address)
  let digits := (List.range (words op)).flatMap fun k => (cell Op memory (address + k)).toDigits
  let args ← decode op digits
  return { ofOp op args with address := some address }

end TinyIsa.Instruction
