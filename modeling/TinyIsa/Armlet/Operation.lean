import TinyIsa.InstructionSet

/-!
# Operations of Armlet

Armlet is a 16-bit machine with eight registers and a register of three flags. An
operation whose last operand may be a register or an immediate value has one form for
each.

* `Armlet.Op`: the forms of the operations.
* `Armlet.Op.all`, `Armlet.Op.opcode`, `Armlet.Op.mnemonic`: the table of operations.
* `Armlet.Layout`: the operands of a form.
-/

namespace TinyIsa.Armlet

/-- Where the last operand of a form comes from. -/
inductive Source where
  /-- From a register. -/
  | register
  /-- From the word behind the instruction word. -/
  | immediate
deriving DecidableEq, Repr

/-- The functions of two operands. -/
inductive Alu where
  | add | sub | and | or | xor | lsl | lsr | asr
deriving DecidableEq, Repr

/-- The conditions of a branch. -/
inductive Condition where
  | eq | ne | lt | le | gt | ge | below | above
deriving DecidableEq, Repr

/-- The forms of the operations. -/
inductive Op where
  /-- Does nothing. -/
  | nop
  /-- Halts the machine. -/
  | halt
  /-- Puts a function of two operands into a register. -/
  | alu (f : Alu) (source : Source)
  /-- Puts the complement of a register into a register. -/
  | not
  /-- Puts an operand into a register. -/
  | mov (source : Source)
  /-- Compares a register with an operand. -/
  | cmp (source : Source)
  /-- Puts a memory cell into a register. -/
  | load (source : Source)
  /-- Puts a register into a memory cell. -/
  | store (source : Source)
  /-- Goes on elsewhere. -/
  | jump (source : Source)
  /-- Goes on elsewhere if the last comparison came out in a given way. -/
  | branch (condition : Condition) (source : Source)
  /-- Reads a number into a register. -/
  | input
  /-- Writes the number in a register. -/
  | output
deriving DecidableEq, Repr

/-- Both places of a last operand. -/
def Source.all : List Source := [.register, .immediate]

/-- The place of a form among those of its operation. -/
def Source.index : Source → Nat
  | .register => 0
  | .immediate => 1

namespace Alu

/-- The functions in the order of their opcodes. -/
def all : List Alu := [.add, .sub, .and, .or, .xor, .lsl, .lsr, .asr]

/-- The place of a function among the functions. -/
def index : Alu → Nat
  | .add => 0 | .sub => 1 | .and => 2 | .or => 3 | .xor => 4 | .lsl => 5 | .lsr => 6 | .asr => 7

/-- The mnemonic of a function. -/
def mnemonic : Alu → String
  | .add => "add" | .sub => "sub" | .and => "and" | .or => "or" | .xor => "xor"
  | .lsl => "lsl" | .lsr => "lsr" | .asr => "asr"

end Alu

namespace Condition

/-- The conditions in the order of their opcodes. -/
def all : List Condition := [.eq, .ne, .lt, .le, .gt, .ge, .below, .above]

/-- The place of a condition among the conditions. -/
def index : Condition → Nat
  | .eq => 0 | .ne => 1 | .lt => 2 | .le => 3 | .gt => 4 | .ge => 5 | .below => 6 | .above => 7

/-- The mnemonic of the branch on a condition. -/
def mnemonic : Condition → String
  | .eq => "beq" | .ne => "bne" | .lt => "blt" | .le => "ble" | .gt => "bgt" | .ge => "bge"
  | .below => "bbl" | .above => "bab"

end Condition

/-- The operands of a form: some registers, then perhaps an immediate value. -/
structure Layout where
  /-- The number of registers. -/
  registers : Nat
  /-- Whether there is an immediate value. -/
  immediate : Bool
deriving DecidableEq, Repr

/-- The number of operands. -/
def Layout.arity (l : Layout) : Nat := l.registers + l.immediate.toNat

/-- The operands of a form with some registers in front of the last operand. -/
def Source.layout (leading : Nat) : Source → Layout
  | .register => ⟨leading + 1, false⟩
  | .immediate => ⟨leading, true⟩

namespace Op

/-- The forms in the order of their opcodes. -/
def all : List Op :=
  [nop, halt] ++ Alu.all.flatMap (fun f => Source.all.map (alu f)) ++ [not] ++
    Source.all.map mov ++ Source.all.map cmp ++ Source.all.map load ++ Source.all.map store ++
    Source.all.map jump ++ Condition.all.flatMap (fun c => Source.all.map (branch c)) ++
    [input, output]

/-- The opcode of a form. -/
def opcode : Op → Nat
  | nop => 0
  | halt => 1
  | alu f s => 2 + 2 * f.index + s.index
  | not => 18
  | mov s => 19 + s.index
  | cmp s => 21 + s.index
  | load s => 23 + s.index
  | store s => 25 + s.index
  | jump s => 27 + s.index
  | branch c s => 29 + 2 * c.index + s.index
  | input => 45
  | output => 46

/-- The mnemonic of a form. -/
def mnemonic : Op → String
  | nop => "nop"
  | halt => "halt"
  | alu f _ => f.mnemonic
  | not => "not"
  | mov _ => "mov"
  | cmp _ => "cmp"
  | load _ => "ld"
  | store _ => "st"
  | jump _ => "jmp"
  | branch c _ => c.mnemonic
  | input => "in"
  | output => "out"

/-- The operands of a form. -/
def layout : Op → Layout
  | nop | halt => ⟨0, false⟩
  | alu _ s => s.layout 2
  | not => ⟨2, false⟩
  | mov s | cmp s | load s | store s => s.layout 1
  | jump s | branch _ s => s.layout 0
  | input | output => ⟨1, false⟩

/-- The operands of the forms of an operation, in words. -/
def expected : Op → String
  | nop | halt => "no operands"
  | alu _ _ => "register, register, register or literal"
  | not => "register, register"
  | mov _ | cmp _ | load _ | store _ => "register, register or literal"
  | jump _ | branch _ _ => "register or literal"
  | input | output => "register"

/-- The number of words of a form: an immediate value takes one of its own. -/
def words (op : Op) : Nat := 1 + op.layout.immediate.toNat

end Op

end TinyIsa.Armlet
