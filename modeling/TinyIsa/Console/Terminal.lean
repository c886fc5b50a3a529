import TinyIsa.Console.Basic
import TinyIsa.Interrupt

/-!
# The terminal

* `Terminal`: the host that reads lines from the standard input and writes to the console.
* `Terminal.prompt`: the console once a line is asked for.
-/

namespace TinyIsa

/-- A console and the input that is still to be read. -/
structure Terminal where
  /-- The console. -/
  console : Console := {}
  /-- The lines to come, with their line endings; nothing stands for a line that is
  no text. -/
  lines : List (Option String) := []
  /-- The alerts so far. -/
  alerts : Array String := #[]
deriving DecidableEq, Repr

namespace Terminal

/-- A line of input without the carriage returns and newlines at its end. -/
def stripEnding (line : String) : String :=
  String.ofList (line.toList.reverse.dropWhile fun c => c == '\r' || c == '\n').reverse

/-- The console once a line is asked for. -/
def prompt (c : Console) (text : String) : Console :=
  (c.startLine .normal).print .sometimes (text ++ "> ")

/-- Asks for a line and reads it. The line ending that the user types moves the cursor to
the start of a line. -/
def input (text : String) (t : Terminal) : Option String × Terminal :=
  let ⟨console, lines, alerts⟩ := t
  let console := prompt console text
  match lines with
  | [] => (none, ⟨console, [], alerts⟩)
  | none :: rest => (none, ⟨console, rest, alerts⟩)
  | some line :: rest =>
    (some (stripEnding line), ⟨{ console with lineStart := true }, rest, alerts⟩)

/-- Writes a line of output. -/
def output (text : String) (t : Terminal) : Terminal :=
  let ⟨console, lines, alerts⟩ := t
  ⟨(console.print .normal text).print .normal "\n", lines, alerts⟩

/-- Announces that the machine halts. -/
def halt (t : Terminal) : Terminal :=
  let ⟨console, lines, alerts⟩ := t
  ⟨(console.startLine .normal).print .sometimes "Halted\n", lines, alerts⟩

/-- The text of an alert. -/
def alertText (color : Bool) (message : String) : String :=
  paint color boldRed "Alert:" ++ " " ++ message ++ "\n"

/-- Writes an alert. -/
def alert (message : String) (t : Terminal) : Terminal :=
  let ⟨console, lines, alerts⟩ := t
  ⟨(console.startLine .normal).print .always (alertText console.color message), lines,
    alerts.push message⟩

instance : Host Terminal where
  input := input
  output text t := (.resume, output text t)
  halt := halt
  alert message t := (.resume, alert message t)

end Terminal

end TinyIsa
