import Std.Data.HashMap
import TinyIsa.Instruction.Basic
import TinyIsa.Source.Error

/-!
# Layout of a program

* `place`: an instruction stands behind the words of those before it.
* `labelTable`: the address of each label; a name has one definition.
* `Instruction.resolve`: references replaced by the numbers that stand for them.
-/

namespace TinyIsa

variable {Op : Type} [InstructionSet Op]

/-- The program with the address of each instruction. -/
def place (program : List (Instruction Op)) : List (Instruction Op) :=
  program.zipWith (fun i a => { i with address := some a })
    ((program.map Instruction.wordCount).scanl (· + ·) 0)

/-- The labels of a placed program with their addresses. -/
def labelAddresses (program : List (Instruction Op)) : List (Label × Nat) :=
  program.flatMap fun i => i.labels.map fun l => (l, i.address.getD 0)

/-- The addresses by name, or the first definition of a name that is defined already. -/
def labelTable (labels : List (Label × Nat)) : Except ParseError (Std.HashMap String Nat) :=
  labels.foldlM (fun table (l, address) =>
    if table.contains l.name then
      .error { fault := .duplicateLabel l.name, line := l.line }
    else .ok (table.insert l.name address)) ∅

/-- The number that stands for a label in an instruction. -/
def Body.labelValue (body : Body Op) (target address : Nat) : Int :=
  match body with
  | .operation op _ => InstructionSet.labelValue op target address
  | .data _ => signedAddress target
  | .remark => signedAddress target

/-- An argument of an instruction, with the number in place of a reference. -/
def Instruction.resolveArg (table : String → Option Nat) (i : Instruction Op) (arg : String) :
    Except ParseError String :=
  if (InstructionSet.dialect Op).isReference arg then
    let name := Dialect.referent arg
    match table name with
    | some target => .ok (Text.decimal (i.body.labelValue target (i.address.getD 0)))
    | none => .error { fault := .undefinedLabel name, line := i.line }
  else .ok arg

/-- The instruction with numbers in place of references, provided that they fit. -/
def Instruction.resolve (table : String → Option Nat) (i : Instruction Op) :
    Except ParseError (Instruction Op) := do
  let args ← i.body.args.mapM (i.resolveArg table)
  let resolved := { i with body := i.body.withArgs args }
  if i.body.args.any (InstructionSet.dialect Op).isReference then
    discard <| resolved.code.mapError fun e => { fault := .instruction e, line := i.line }
  return resolved

end TinyIsa
