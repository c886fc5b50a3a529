import TinyIsa.Armlet.Encoding
import TinyIsa.Text.Blank

/-!
# What Armlet instructions do

A register argument that is missing or malformed reads as the first register, an
immediate argument that is missing or malformed as zero.

* `Alu.apply`, `compare`, `Condition.holds`: the functions, the comparison, and
  what the conditions make of its flags.
* `Armlet.action`: what an instruction does.
-/

namespace TinyIsa.Armlet

/-- The register of the flags. -/
def flagsName : String := "flags"

/-- The number of flags. -/
def flagsSize : Nat := 3

/-- The value of a function. A shift takes a signed amount, and a negative one shifts
in the other direction. -/
def Alu.apply : Alu → Word → Word → Word
  | add, a, b => a.add b
  | sub, a, b => a.subtract b
  | and, a, b => a.and b
  | or, a, b => a.or b
  | xor, a, b => a.xor b
  | lsl, a, b => a.shift b.toInt
  | lsr, a, b => a.shift (-b.toInt)
  | asr, a, b => a.arithmeticShift (-b.toInt)

/-- The flags of a comparison: equal, less as signed numbers, less as unsigned numbers. -/
def compare (a b : Word) : Word :=
  Word.ofBits [decide (a = b), decide (a.toInt < b.toInt), decide (a.toNat < b.toNat)]

/-- Whether a condition holds of the flags of a comparison. -/
def Condition.holds (c : Condition) (flags : Word) : Bool :=
  let equal := flags.bit 0
  let less := flags.bit 1
  let lower := flags.bit 2
  match c with
  | eq => equal
  | ne => !equal
  | lt => less
  | le => less || equal
  | gt => !less && !equal
  | ge => !less
  | below => lower
  | above => !lower && !equal

/-- The register that an argument names. -/
def registerOf (args : List String) (k : Nat) : String :=
  registerName ((args[k]?.bind registerNumber?).getD 0)

/-- The immediate value of an argument. -/
def immediateOf (args : List String) (k : Nat) : Word :=
  Word.ofInt wordSize ((args[k]?.bind fun arg => (Literal.immediate dialect arg).toOption).getD 0)

/-- Reads the register of an argument. -/
def read (args : List String) (k : Nat) : Action Word :=
  Action.register (registerOf args k) (Word.zero wordSize)

/-- Writes the register of an argument. -/
def write (args : List String) (k : Nat) (value : Word) : Action Unit :=
  Action.setRegister (registerOf args k) value

/-- The value of a last operand. -/
def operand (args : List String) (k : Nat) : Source → Action Word
  | .register => read args k
  | .immediate => pure (immediateOf args k)

/-- The number that a line of input spells. -/
def inputValue (line : String) : Option Int :=
  Literal.parse? (Text.trim line.toList)

/-- The alert about a line of input that is no number. -/
def inputAlert (line : String) : String :=
  s!"Invalid input `{String.ofList (Text.trim line.toList)}`, storing 0"

/-- Reads a number into a register. Without input the machine halts. -/
def readInput (args : List String) : Action Unit := do
  match ← Action.input ("in " ++ registerOf args 0) with
  | none =>
    Action.alert "No input available, halting"
    Action.stop
  | some line =>
    match inputValue line with
    | some v => write args 0 (Word.ofInt wordSize v)
    | none =>
      Action.alert (inputAlert line)
      write args 0 (Word.zero wordSize)

/-- What an instruction does. -/
def action (op : Op) (args : List String) : Action Flow :=
  match op with
  | .nop => return .next
  | .halt => do
    Action.stop
    return .next
  | .alu f source => do
    let a ← read args 1
    let b ← operand args 2 source
    write args 0 (f.apply a b)
    return .next
  | .not => do
    let a ← read args 1
    write args 0 a.invert
    return .next
  | .mov source => do
    write args 0 (← operand args 1 source)
    return .next
  | .cmp source => do
    let a ← read args 0
    let b ← operand args 1 source
    Action.setRegister flagsName (compare a b)
    return .next
  | .load source => do
    let address ← operand args 1 source
    write args 0 (← Action.memory address.toNat)
    return .next
  | .store source => do
    let address ← operand args 1 source
    Action.setMemory address.toNat (← read args 0)
    return .next
  | .jump source => do
    let target ← operand args 0 source
    return .jump target.toNat
  | .branch condition source => do
    let flags ← Action.register flagsName (Word.zero flagsSize)
    if condition.holds flags then
      let target ← operand args 0 source
      return .jump target.toNat
    else return .next
  | .input => do
    readInput args
    return .next
  | .output => do
    let value ← read args 0
    Action.output (Text.decimal value.toInt)
    return .next

/-- Armlet. A label stands for its address. -/
instance : InstructionSet Op where
  name := "armlet"
  wordSize := wordSize
  addressSize := 16
  opcodeSize := opcodeSize
  dialect := dialect
  registers :=
    (List.range 8).map (fun n => ⟨registerName n, wordSize, n == 0⟩) ++ [⟨flagsName, flagsSize, false⟩]
  operations := Op.all
  mnemonic := Op.mnemonic
  opcode := Op.opcode
  words := Op.words
  accepts op := op.layout.accepts
  expected := Op.expected
  encode := encode
  decode := decode
  action := action
  labelValue _ target _ := signedAddress target
  fallback := some .halt

end TinyIsa.Armlet
