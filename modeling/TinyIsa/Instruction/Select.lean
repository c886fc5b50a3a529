import TinyIsa.Instruction.Basic

/-!
# Instructions from a mnemonic

* `Instruction.ofMnemonic`: the instruction of a mnemonic and arguments, of the
  first form that takes them.
-/

namespace TinyIsa.Instruction

variable {Op : Type} [InstructionSet Op]

open InstructionSet

/-- The operation of a mnemonic whose form takes the arguments. -/
def selectOp (name : String) (args : List String) : Except InstructionError Op :=
  match withMnemonic name with
  | [] => .error (.unknownMnemonic name)
  | first :: others =>
    match (first :: others).find? (accepts · args) with
    | some op => .ok op
    | none => .error (.invalidOperands (mnemonic first) (expected first) args)

/-- The instruction of a mnemonic and arguments, provided that it can be encoded. -/
def ofMnemonic (name : String) (args : List String) : Except InstructionError (Instruction Op) := do
  let op ← selectOp name args
  discard (encode op args)
  return ofOp op args

end TinyIsa.Instruction
