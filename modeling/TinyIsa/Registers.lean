import TinyIsa.Word.Width

/-!
# Register banks

A bank holds registers by name, in the order in which the names were first declared.

* `Registers.ofSpecs`: the bank of a list of declarations; the last one of a name counts.
* `Registers.get?`, `Registers.assign`: reading and writing by name.
* `Registers.reset`: all registers at zero.
-/

namespace TinyIsa

/-- The declaration of a register. -/
structure RegisterSpec where
  /-- Its name. -/
  name : String
  /-- Its width. -/
  width : Nat
  /-- Whether it stays zero. -/
  hardwired : Bool := false
deriving DecidableEq, Repr

/-- A register. -/
structure Register where
  /-- Its name. -/
  name : String
  /-- What it holds. -/
  value : Word
  /-- Whether it stays zero. -/
  hardwired : Bool := false
deriving DecidableEq

/-- A register as declared, at zero. -/
def RegisterSpec.fresh (s : RegisterSpec) : Register :=
  { name := s.name, value := Word.zero s.width, hardwired := s.hardwired }

/-- What a register is once a word is stored in it. -/
def Register.store (r : Register) (value : Word) : Register :=
  if r.hardwired then r else { r with value := r.value.store value }

/-- A bank of registers. -/
structure Registers where
  /-- The registers in order. -/
  toList : List Register
deriving DecidableEq

namespace Registers

/-- Whether a name is declared. -/
def contains (b : Registers) (name : String) : Bool :=
  b.toList.any (·.name == name)

/-- Changes the register of a name. -/
def modify (b : Registers) (name : String) (f : Register → Register) : Registers :=
  ⟨b.toList.map fun r => if r.name == name then f r else r⟩

/-- Declares a register: in the place of an earlier one of the name, else at the end. -/
def declare (b : Registers) (s : RegisterSpec) : Registers :=
  if b.contains s.name then b.modify s.name fun _ => s.fresh else ⟨b.toList ++ [s.fresh]⟩

/-- The bank of a list of declarations. -/
def ofSpecs (specs : List RegisterSpec) : Registers :=
  specs.foldl declare ⟨[]⟩

/-- The bank of declarations whose widths are given from outside. -/
def ofSpecsChecked (specs : List RegisterSpec) : Except WordError Registers := do
  specs.forM fun s => discard (Word.checked s.width Word.zero)
  return ofSpecs specs

/-- The word in the register of a name. -/
def get? (b : Registers) (name : String) : Option Word :=
  (b.toList.find? (·.name == name)).map (·.value)

/-- Stores a word in the register of a name, and tells whether there is one. -/
def assign (b : Registers) (name : String) (value : Word) : Bool × Registers :=
  (b.contains name, b.modify name (·.store value))

/-- The bank with every register at zero. -/
def reset (b : Registers) : Registers :=
  ⟨b.toList.map fun r => { r with value := Word.zero r.value.width }⟩

end Registers

end TinyIsa
