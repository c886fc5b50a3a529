import TinyIsa.Dialect
import TinyIsa.Instruction.Error

/-!
# Literals and immediate operands

A literal is an optional sign and a magnitude, in decimal, in hexadecimal behind
`0x` or in binary behind `0b`.

* `Literal.parse?`: the value of a literal.
* `Literal.immediate`: the value of an immediate operand, where a label that is
  still to be resolved counts as zero.
* `Literal.checkRange`: the values that a field of a given width can hold, read
  as signed or as unsigned.
-/

namespace TinyIsa.Literal

/-- The largest magnitude of a literal. -/
def maxMagnitude : Nat := UInt64.size / 2 - 1

/-- The base that the first characters of a magnitude announce, and its digits. -/
def splitBase : List Char → Nat × List Char
  | '0' :: 'x' :: s => (16, s)
  | '0' :: 'X' :: s => (16, s)
  | '0' :: 'b' :: s => (2, s)
  | '0' :: 'B' :: s => (2, s)
  | s => (10, s)

/-- The number that a magnitude spells, within bounds. -/
def magnitude? (s : List Char) : Option Nat :=
  (Text.natural? (splitBase s).1 (splitBase s).2).filter (· ≤ maxMagnitude)

/-- The value of a literal. -/
def parse? (s : List Char) : Option Int :=
  (magnitude? (Text.splitSign s).2).map fun n => if (Text.splitSign s).1 then -n else n

/-- The value of an argument that has to be a literal. -/
def parse (arg : String) : Except InstructionError Int :=
  match parse? arg.toList with
  | some v => .ok v
  | none => .error (.invalidImmediate arg)

/-- The value of an immediate operand. -/
def immediate (d : Dialect) (arg : String) : Except InstructionError Int :=
  if d.isReference arg then .ok 0 else parse arg

/-- The least value of a field: the least signed one. -/
def minValue (width : Nat) : Int := -Nat.pow 2 (width - 1)

/-- The greatest value of a field: the greatest unsigned one. -/
def maxValue (width : Nat) : Int := Nat.pow 2 width - 1

/-- A value that a field of a width can hold. -/
def checkRange (width : Nat) (v : Int) : Except InstructionError Int :=
  if minValue width ≤ v ∧ v ≤ maxValue width then .ok v
  else .error (.immediateOutOfRange v (minValue width) (maxValue width))

/-- The value of an immediate operand that has to fit a field. -/
def field (d : Dialect) (width : Nat) (arg : String) : Except InstructionError Int := do
  checkRange width (← immediate d arg)

end TinyIsa.Literal
