/-!
# Dialects of the assembly language

* `Dialect`: the marks by which the assembly texts of two architectures differ.
* `Dialect.isReference`: whether an argument refers to a label.
-/

namespace TinyIsa

/-- The marks of the assembly text of an architecture. -/
structure Dialect where
  /-- Opens a comment, which lasts to the end of the line. -/
  comment : Char
  /-- Stands behind a label that is defined. -/
  separator : Char
  /-- Stands in front of a label that is referred to. -/
  reference : Char
  /-- The word that opens a line of data. -/
  dataDirective : String
deriving DecidableEq, Repr

/-- An argument refers to a label when it begins with the reference mark. -/
def Dialect.isReference (d : Dialect) (arg : String) : Bool :=
  arg.toList.head? == some d.reference

/-- The name behind the reference mark of an argument. -/
def Dialect.referent (arg : String) : String :=
  String.ofList arg.toList.tail

end TinyIsa
