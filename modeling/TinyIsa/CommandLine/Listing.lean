import TinyIsa.Armlet.Behaviour
import TinyIsa.Console.Basic
import TinyIsa.Machine.Load

/-!
# Listings

* `ListingLine`: a line of a listing, with or without a word of memory.
* `listing`: the lines of a program.
* `ListingLine.text`: how a line is printed.
-/

namespace TinyIsa

/-- A line of a listing. -/
inductive ListingLine where
  /-- A word of memory, and the source on the line of its first word. -/
  | word (address : Nat) (digits : List Char) (source : Option String)
  /-- A line of a remark. -/
  | remark (text : List Char)
deriving DecidableEq, Repr

variable {Op : Type} [InstructionSet Op]

/-- A text of digits cut into words. -/
def wordDigits (Op : Type) [InstructionSet Op] (code : List Char) : List (List Char) :=
  pieces (InstructionSet.wordSize Op) (code.length / InstructionSet.wordSize Op) code

/-- The lines of the words of an instruction. -/
def wordLines (address : Nat) (source : String) (words : List (List Char)) : List ListingLine :=
  .word address (words.head?.getD []) (some source) ::
    (words.tail.zipIdx (address + 1)).map fun (digits, a) => .word a digits none

/-- The lines of an instruction. -/
def Instruction.listing (i : Instruction Op) : Except InstructionError (List ListingLine) :=
  if i.body.isRemark then return (Text.lines i.source.toList).map .remark
  else do
    let words := wordDigits Op (← i.code)
    return wordLines (i.address.getD 0) i.source words

/-- The lines of a program. -/
def listing (program : List (Instruction Op)) : Except InstructionError (List ListingLine) :=
  List.flatten <$> program.mapM Instruction.listing

/-- An address in four hexadecimal digits. -/
def hexAddress (address : Nat) : String :=
  String.ofList ((Nat.toDigits 16 address).leftpad 4 '0')

/-- How a line of a listing is printed. -/
def ListingLine.text (color : Bool) : ListingLine → String
  | .word address digits source =>
    paint color cyan (Console.padLeft 6 (hexAddress address)) ++ "  " ++
      Console.padLeft 16 (String.ofList digits) ++ source.elim "" ("  " ++ ·) ++ "\n"
  | .remark text =>
    Console.padLeft 6 "" ++ "  " ++ Console.padLeft 16 "" ++ "  " ++
      paint color dimmed (String.ofList text) ++ "\n"

end TinyIsa
