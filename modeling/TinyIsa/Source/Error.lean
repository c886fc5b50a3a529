import TinyIsa.Instruction.Error

/-!
# Errors in a source text

* `Fault`: what is wrong with a line.
* `ParseError`: a fault with the line it is on and where that line stands.
* `Fault.message`, `Fault.code`, `Fault.help`, `Fault.caption`: how a fault is reported.
-/

namespace TinyIsa

/-- What is wrong with a line of a source. -/
inductive Fault where
  /-- Its instruction is refused. -/
  | instruction (e : InstructionError)
  /-- It defines a label that is defined already. -/
  | duplicateLabel (name : String)
  /-- It refers to a label that is not defined. -/
  | undefinedLabel (name : String)
  /-- It defines a label that begins with the reference mark. -/
  | reservedLabel (name : String) (mark : Char)
  /-- It defines a label whose name is not well formed. -/
  | invalidLabel (name : String)
deriving DecidableEq, Repr

namespace Fault

/-- What happened. -/
def message : Fault → String
  | .instruction e => e.message
  | .duplicateLabel name => s!"Duplicate label `{name}`"
  | .undefinedLabel name => s!"Undefined label `{name}`"
  | .reservedLabel name mark =>
    s!"Label `{name}` starts with the label reference prefix `{mark}`"
  | .invalidLabel name => s!"Invalid label name `{name}`"

/-- The code of the kind of fault. -/
def code : Fault → String
  | .instruction _ => "parse::instruction"
  | .duplicateLabel _ => "parse::duplicate_label"
  | .undefinedLabel _ => "parse::undefined_label"
  | .reservedLabel _ _ => "parse::reserved_label"
  | .invalidLabel _ => "parse::invalid_label"

/-- What to do about the kind of fault. -/
def help : Fault → String
  | .instruction _ => "check the mnemonic and operands of this instruction"
  | .duplicateLabel _ => "labels can only be defined once per program"
  | .undefinedLabel _ => "define the label in front of an instruction"
  | .reservedLabel _ _ => "the reference prefix is only allowed when using a label as an operand"
  | .invalidLabel _ =>
    "labels consist of letters, digits, `_`, `@` and `.` and cannot start with a digit"

/-- The caption of the line in a report. -/
def caption : Fault → String
  | .instruction _ => "invalid instruction"
  | .duplicateLabel _ => "duplicate label"
  | .undefinedLabel _ => "undefined label"
  | .reservedLabel _ _ => "invalid label"
  | .invalidLabel _ => "invalid label"

end Fault

/-- A stretch of a text, in bytes. -/
structure Span where
  /-- How many bytes stand before it. -/
  offset : Nat
  /-- How many bytes it has. -/
  length : Nat
deriving DecidableEq, Repr

/-- A fault and where it is. -/
structure ParseError where
  /-- The fault. -/
  fault : Fault
  /-- The number of the line, counted from one. -/
  line : Nat
  /-- The place of that line in the source. -/
  span : Option Span := none
deriving DecidableEq, Repr

/-- The headline of a parse error. -/
def ParseError.headline (e : ParseError) : String :=
  s!"Line {Text.decimal e.line}: {e.fault.message}"

end TinyIsa
