import TinyIsa.Source.Layout
import TinyIsa.Source.Section

/-!
# From a source text to a program

* `parse`: the program of a source text, or its first error. All lines are split
  before any instruction is read, all instructions are read before labels are
  collected, and references are replaced last, if at all.
-/

namespace TinyIsa

variable {Op : Type} [InstructionSet Op]

/-- The program of a source text before references are replaced, and its labels. -/
def parseRows (rows : List SourceRow) :
    Except ParseError (List (Instruction Op) × Std.HashMap String Nat) := do
  let lines ← rows.mapM (SourceLine.ofRow (InstructionSet.dialect Op))
  let program ← (Outline.ofLines lines).program rows.length
  let table ← labelTable (labelAddresses (place program))
  return (place program, table)

/-- Adds the place of its line to an error. -/
def ParseError.locate (rows : List SourceRow) (e : ParseError) : ParseError :=
  { e with span := (rows.find? (·.number == e.line)).map (·.span) }

/-- The program of a source text, with references replaced if `resolve` is set. -/
def parse (source : List Char) (resolve : Bool) : Except ParseError (List (Instruction Op)) :=
  let rows := SourceRow.ofSource source
  Except.mapError (·.locate rows) do
    let (program, table) ← parseRows rows
    if resolve then program.mapM (Instruction.resolve table.get?) else return program

end TinyIsa
