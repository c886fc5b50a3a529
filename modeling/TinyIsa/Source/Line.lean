import TinyIsa.Instruction.Basic
import TinyIsa.Source.Error
import TinyIsa.Text.Bytes

/-!
# Lines of a source text

A line is a row of labels, each with a separator behind it, then the text of an
instruction, then a comment; any of the three may be missing.

* `SourceRow`: a line as it stands in the source.
* `splitLabels`: the label names in front of the body of a line.
* `SourceLine.ofRow`: the parts of a line, or the first of its labels that is
  not well formed.
-/

namespace TinyIsa

/-- A line as it stands in the source. -/
structure SourceRow where
  /-- Its number, counted from one. -/
  number : Nat
  /-- Its place. -/
  span : Span
  /-- Its text, without the line ending. -/
  text : List Char
deriving DecidableEq, Repr

/-- The lines of a source, with their places. -/
def SourceRow.ofSource (source : List Char) : List SourceRow :=
  let rows := Text.rows source
  let offsets := (rows.map fun r => Text.byteLength r + 1).scanl (· + ·) 0
  ((rows.zip offsets).zipIdx 1).map fun ((row, offset), number) =>
    let text := Text.dropCarriage row
    { number, span := ⟨offset, Text.byteLength text⟩, text }

/-- The parts of a line. -/
structure SourceLine where
  /-- Its number. -/
  number : Nat
  /-- The labels that it defines. -/
  labels : List Label
  /-- The text of its instruction, empty when it has none. -/
  body : List Char
  /-- Its comment. -/
  comment : Option String
deriving DecidableEq, Repr

/-- The characters that may begin a label. -/
def isLabelStart (c : Char) : Bool :=
  c.isAlpha || c == '_' || c == '@' || c == '.'

/-- The characters that a label may have after the first. -/
def isLabelPart (c : Char) : Bool :=
  isLabelStart c || c.isDigit

/-- Whether a name has the form of a label. -/
def isLabelName : List Char → Bool
  | [] => false
  | c :: s => isLabelStart c && s.all isLabelPart

/-- What is wrong with the name of a label that is defined. -/
def labelFault (d : Dialect) (name : List Char) : Option Fault :=
  if name.head? = some d.reference then
    some (.reservedLabel (String.ofList name) d.reference)
  else if isLabelName name then none
  else some (.invalidLabel (String.ofList name))

/-- The names in front of the separators of a code text, and the body behind them. A
separator behind a name with a blank in it belongs to the body. -/
def splitLabels (separator : Char) (code : List Char) : List (List Char) × List Char :=
  match _h : code.dropWhile (· != separator) with
  | [] => ([], code)
  | _ :: after =>
    let name := Text.trimEnd (code.takeWhile (· != separator))
    if name.any Text.isBlank then ([], code)
    else
      let (names, body) := splitLabels separator (Text.trimStart after)
      (name :: names, body)
termination_by code.length
decreasing_by
  have h₁ := (List.dropWhile_suffix (fun c => c != separator) (l := code)).length_le
  have h₂ := (List.dropWhile_suffix Text.isBlank (l := after)).length_le
  simp only [_h, List.length_cons] at h₁
  simp only [Text.trimStart]
  omega

namespace SourceLine

/-- The part of a line before its comment, without the blanks around it. -/
def codeText (d : Dialect) (text : List Char) : List Char :=
  Text.trim (text.takeWhile (· != d.comment))

/-- The comment of a line, without the blanks around it. -/
def commentText (d : Dialect) (text : List Char) : Option String :=
  match text.dropWhile (· != d.comment) with
  | [] => none
  | _ :: comment => some (String.ofList (Text.trim comment))

/-- The parts of a line. -/
def ofRow (d : Dialect) (row : SourceRow) : Except ParseError SourceLine :=
  let (names, body) := splitLabels d.separator (codeText d row.text)
  match names.findSome? (labelFault d) with
  | some fault => .error { fault, line := row.number }
  | none => .ok
    { number := row.number
      labels := names.map fun name => ⟨String.ofList name, row.number⟩
      body
      comment := commentText d row.text }

/-- Whether a line has neither an instruction nor a label nor a comment. -/
def isBlank (l : SourceLine) : Bool :=
  l.body.isEmpty && l.labels.isEmpty && l.comment.isNone

end SourceLine

end TinyIsa
