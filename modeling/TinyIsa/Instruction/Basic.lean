import TinyIsa.InstructionSet
import TinyIsa.Text.Blank
import TinyIsa.Text.Lines

/-!
# Instructions of a program

* `Instruction`: an entry of a program: an operation with arguments, a row of data,
  or a remark, which takes no room; with the labels that name its address.
* `Instruction.wordCount`, `Instruction.code`: its size and its digits.
* `Instruction.display`, `Instruction.source`: the entry without and with its labels
  and comment, as assembly text.
-/

namespace TinyIsa

/-- What an entry of a program puts into memory. -/
inductive Body (Op : Type) where
  /-- An operation and its arguments. -/
  | operation (op : Op) (args : List String)
  /-- Values, one a word. -/
  | data (values : List String)
  /-- Nothing. -/
  | remark
deriving DecidableEq, Repr

/-- A label and the line on which it is written. -/
structure Label where
  /-- The name. -/
  name : String
  /-- The number of the line. -/
  line : Nat
deriving DecidableEq, Repr

/-- An entry of a program. -/
structure Instruction (Op : Type) where
  /-- What it puts into memory. -/
  body : Body Op
  /-- The labels that name its address. -/
  labels : List Label := []
  /-- The comment behind it, or the text of a remark. -/
  comment : Option String := none
  /-- The number of its line, zero outside of a source. -/
  line : Nat := 0
  /-- Its address, once it has one. -/
  address : Option Nat := none
deriving DecidableEq, Repr

namespace Body

variable {Op : Type}

/-- The arguments or values. -/
def args : Body Op → List String
  | .operation _ args => args
  | .data values => values
  | .remark => []

/-- The same body with other arguments or values. -/
def withArgs (args : List String) : Body Op → Body Op
  | .operation op _ => .operation op args
  | .data _ => .data args
  | .remark => .remark

/-- Whether nothing is put into memory. -/
def isRemark : Body Op → Bool
  | .remark => true
  | _ => false

variable [InstructionSet Op]

/-- The number of words that are put into memory. -/
def wordCount : Body Op → Nat
  | .operation op _ => InstructionSet.words op
  | .data values => values.length
  | .remark => 0

/-- The digits that are put into memory. -/
def code : Body Op → Except InstructionError (List Char)
  | .operation op args => InstructionSet.encode op args
  | .data values =>
    let width := InstructionSet.wordSize Op
    List.flatten <$> values.mapM fun v =>
      (Word.ofInt width · |>.toDigits) <$> Literal.field (InstructionSet.dialect Op) width v
  | .remark => .ok []

/-- The assembly text: the mnemonic or the data directive, and the arguments. -/
def display : Body Op → String
  | .operation op args => line (InstructionSet.mnemonic op) args
  | .data values => line (InstructionSet.dialect Op).dataDirective values
  | .remark => ""
where
  /-- A word and arguments behind it. -/
  line (word : String) (args : List String) : String :=
    if args.isEmpty then word else word ++ " " ++ ", ".intercalate args

/-- What executing it does; data and remarks do nothing. -/
def action : Body Op → Action Flow
  | .operation op args => InstructionSet.action op args
  | .data _ => .done .next
  | .remark => .done .next

end Body

namespace Instruction

variable {Op : Type}

/-- The instruction of an operation, outside of a source. -/
def ofOp (op : Op) (args : List String) : Instruction Op :=
  { body := .operation op args }

/-- A row of data, outside of a source. -/
def ofData (values : List String) : Instruction Op :=
  { body := .data values }

/-- A remark, outside of a source. -/
def ofRemark (text : String) : Instruction Op :=
  { body := .remark, comment := some text }

variable [InstructionSet Op]

/-- The number of words of an instruction. -/
def wordCount (i : Instruction Op) : Nat := i.body.wordCount

/-- The digits of an instruction. -/
def code (i : Instruction Op) : Except InstructionError (List Char) := i.body.code

/-- The assembly text of an instruction without labels and comment. -/
def display (i : Instruction Op) : String := i.body.display

/-- The assembly text of labels: each with a separator and a space behind it. -/
def labelText (i : Instruction Op) : List Char :=
  i.labels.flatMap fun l => l.name.toList ++ [(InstructionSet.dialect Op).separator, ' ']

/-- The assembly text of a comment: each line behind the comment mark and a space. -/
def commentText (i : Instruction Op) : List Char :=
  Text.unrows <| (Text.lines (i.comment.getD "").toList).map fun line =>
    (InstructionSet.dialect Op).comment :: ' ' :: line

/-- The assembly text of an instruction. -/
def source (i : Instruction Op) : String :=
  String.ofList <|
    if i.body.isRemark then Text.trimEnd (i.labelText ++ i.commentText)
    else i.labelText ++ i.display.toList ++ match i.comment with
      | some c => ' ' :: (InstructionSet.dialect Op).comment :: ' ' :: c.toList
      | none => []

end Instruction

/-- The digits of a program: those of its instructions, in order. -/
def machineCode {Op : Type} [InstructionSet Op] (program : List (Instruction Op)) :
    Except InstructionError (List Char) :=
  List.flatten <$> program.mapM Instruction.code

/-- The number of words of a program. -/
def totalWords {Op : Type} [InstructionSet Op] (program : List (Instruction Op)) : Nat :=
  program.foldr (fun i n => i.wordCount + n) 0

end TinyIsa
