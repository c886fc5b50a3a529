import TinyIsa.Instruction.Select
import TinyIsa.Source.Line

/-!
# Sections of a source text

A section is a line with an instruction together with the lines without one that lead up
to it. Labels of those lines name the instruction, comments of those lines become
remarks in front of it. The lines after the last instruction are the tail.

* `Outline.ofLines`: the sections and the tail.
* `remarkTexts`: the comments of lines without instructions, run by run.
* `Outline.program`: the entries of the program, in source order.
-/

namespace TinyIsa

/-- A line with an instruction and the lines that lead up to it. -/
structure Section where
  /-- The lines without instructions. -/
  lead : List SourceLine
  /-- The line with the instruction. -/
  line : SourceLine
deriving DecidableEq, Repr

/-- The lines of a source by section. -/
structure Outline where
  /-- The sections. -/
  sections : List Section
  /-- The lines after the last instruction. -/
  tail : List SourceLine
deriving DecidableEq, Repr

namespace Outline

/-- Puts a line in front of an outline. -/
def cons (l : SourceLine) (o : Outline) : Outline :=
  if l.body.isEmpty then
    match o.sections with
    | [] => { o with tail := l :: o.tail }
    | s :: rest => { o with sections := { s with lead := l :: s.lead } :: rest }
  else { o with sections := ⟨[], l⟩ :: o.sections }

/-- The outline of a list of lines. -/
def ofLines (lines : List SourceLine) : Outline :=
  lines.foldr cons ⟨[], []⟩

end Outline

/-- The runs of comments of lines without instructions: a blank line ends a run, a line
that only has labels does not. -/
def remarkTexts (lead : List SourceLine) : List String :=
  let runs := (lead.splitOnP SourceLine.isBlank).map (·.filterMap SourceLine.comment)
  (runs.filter (!·.isEmpty)).map ("\n".intercalate ·)

section

variable {Op : Type} [InstructionSet Op]

/-- The mnemonic and the arguments of the text of an instruction: commas and blanks
separate arguments. -/
def splitBody (body : List Char) : String × List String :=
  let isSeparator c := c == ',' || Text.isBlank c
  let args := (body.dropWhile (!Text.isBlank ·)).splitOnP isSeparator
  (String.ofList (body.takeWhile (!Text.isBlank ·)),
    (args.filter (!·.isEmpty)).map String.ofList)

/-- The instruction that a text spells, provided that it can be encoded. -/
def Instruction.ofText (body : List Char) : Except InstructionError (Instruction Op) :=
  let (word, args) := splitBody body
  let directive := (InstructionSet.dialect Op).dataDirective
  if Text.lowercase word = Text.lowercase directive then
    if args.isEmpty then .error (.invalidOperands directive "one or more values" [])
    else do
      discard (ofData args : Instruction Op).code
      return ofData args
  else ofMnemonic word args

/-- The remarks of the lines that lead up to a line. -/
def remarks (lead : List SourceLine) (line : Nat) : List (Instruction Op) :=
  (remarkTexts lead).map fun text => { Instruction.ofRemark text with line }

/-- The entries of a section. -/
def Section.program (s : Section) : Except ParseError (List (Instruction Op)) := do
  let main ← (Instruction.ofText s.line.body).mapError fun e =>
    { fault := .instruction e, line := s.line.number }
  let labels := s.lead.flatMap SourceLine.labels ++ s.line.labels
  return remarks s.lead s.line.number ++
    [{ main with labels, comment := s.line.comment, line := s.line.number }]

/-- The entries of the tail: its remarks, and one that carries the labels of the end
of the program. -/
def tailProgram (tail : List SourceLine) (lastLine : Nat) : List (Instruction Op) :=
  remarks tail lastLine ++
    match tail.flatMap SourceLine.labels with
    | [] => []
    | l :: labels => [{ body := .remark, labels := l :: labels, line := l.line }]

/-- The entries of a program, without addresses. -/
def Outline.program (o : Outline) (lastLine : Nat) : Except ParseError (List (Instruction Op)) := do
  let entries ← o.sections.mapM Section.program
  return entries.flatten ++ tailProgram o.tail lastLine

end

end TinyIsa
