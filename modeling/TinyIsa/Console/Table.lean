import TinyIsa.Console.Basic
import TinyIsa.Registers
import TinyIsa.Text.Number

/-!
# Registers on the console

* `Console.printRegisters`: the registers as a framed table, in minimal mode as lines
  of a name and a signed value.
-/

namespace TinyIsa

/-- A row of the table: a name and a value in three spellings, each in its column. -/
def tableRow (name hex int uint : String) : String :=
  Console.padLeft 5 name ++ "  " ++ Console.padLeft 8 hex ++ "  " ++ Console.padLeft 7 int ++
    "  " ++ Console.padLeft 6 uint

/-- The hexadecimal spelling of a word, with a digit for every four bits begun. -/
def Word.hex (w : Word) : String :=
  "0x" ++ String.ofList ((Nat.toDigits 16 w.toNat).leftpad ((w.width + 3) / 4) '0')

/-- The row of a register. -/
def Register.tableRow (r : Register) : String :=
  TinyIsa.tableRow r.name r.value.hex (Text.decimal r.value.toInt) (Text.decimal r.value.toNat)

/-- The lines of the table, in its own styles. -/
def Registers.tableLines (b : Registers) : List String :=
  let header := tableRow "" "hex" "int" "uint"
  let rows := b.toList.map Register.tableRow
  let width := (header :: rows).foldl (fun n row => max n row.length) 0
  let rule := String.ofList (List.replicate (width + 2) '─')
  ["\x1b[2m┌" ++ rule ++ "┐\x1b[0m\n",
    "\x1b[2m│ \x1b[3m" ++ Console.padRight width header ++ "\x1b[0m\x1b[2m │\x1b[0m\n"] ++
  (rows.map fun row =>
    "\x1b[2m│\x1b[0m \x1b[1m" ++ Console.padRight width row ++ "\x1b[0m \x1b[2m│\x1b[0m\n") ++
  ["\x1b[2m└" ++ rule ++ "┘\x1b[0m\n"]

/-- The lines of names and signed values. -/
def Registers.plainLines (b : Registers) : List String :=
  b.toList.map fun r => r.name ++ " " ++ Text.decimal r.value.toInt ++ "\n"

/-- Writes the registers. -/
def Console.printRegisters (c : Console) (channel : Channel) (b : Registers) : Console :=
  (if c.minimal then b.plainLines else b.tableLines).foldl (·.print channel ·) c

end TinyIsa
