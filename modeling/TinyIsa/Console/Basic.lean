import TinyIsa.Console.Style

/-!
# The console

Two streams share a cursor: the output of the program and the diagnostics about it.

* `Console`: what was written, whether the cursor is at the start of a line, and
  which diagnostics are wanted.
* `Console.print`, `Console.startLine`: writing and beginning a new line.
* `Console.status`: a line about the progress of a command.
-/

namespace TinyIsa

/-- The streams of a console. -/
inductive Destination where
  /-- The standard output. -/
  | output
  /-- The standard error. -/
  | diagnostics
deriving DecidableEq, Repr

/-- Why a text is written. -/
inductive Channel where
  /-- As output, which is left as it is. -/
  | normal
  /-- As a diagnostic that is written without styles in minimal mode. -/
  | always
  /-- As a diagnostic that is left out in minimal mode. -/
  | sometimes
deriving DecidableEq, Repr

/-- A text that was written to a stream. -/
structure Write where
  /-- The stream. -/
  destination : Destination
  /-- The text. -/
  text : String
deriving DecidableEq, Repr

/-- The state of a console. -/
structure Console where
  /-- What was written, in order. -/
  writes : Array Write := #[]
  /-- Whether the cursor is at the start of a line. -/
  lineStart : Bool := true
  /-- Whether diagnostics are restricted to what is necessary. -/
  minimal : Bool := false
  /-- Whether styles are on. -/
  color : Bool := false
deriving DecidableEq, Repr

namespace Console

/-- The text of a stream. -/
def textOf (c : Console) (d : Destination) : String :=
  c.writes.foldl (fun text w => if w.destination = d then text ++ w.text else text) ""

/-- The text of the standard output. -/
def stdout (c : Console) : String := c.textOf .output

/-- The text of the standard error. -/
def stderr (c : Console) : String := c.textOf .diagnostics

/-- Writes a text to a stream. -/
def write (c : Console) (d : Destination) (text : String) : Console :=
  { c with writes := c.writes.push ⟨d, text⟩ }

/-- Moves the cursor over a text. -/
def follow (c : Console) (text : String) : Console :=
  match (visible text.toList).getLast? with
  | some last => { c with lineStart := last == '\n' }
  | none => c

/-- Writes a text, and moves the cursor over it. -/
def print (c : Console) (channel : Channel) (text : String) : Console :=
  match channel, c.minimal with
  | .normal, _ => (c.write .output text).follow text
  | _, false => (c.write .diagnostics (paint c.color blue text)).follow text
  | .always, true => (c.write .diagnostics (String.ofList (visible text.toList))).follow text
  | .sometimes, true => c

/-- Ends the line unless the cursor is at the start of one. -/
def startLine (c : Console) (channel : Channel) : Console :=
  if c.lineStart then c else c.print channel "\n"

/-- A text filled up with spaces from the left. -/
def padLeft (width : Nat) (text : String) : String :=
  String.ofList (text.toList.leftpad width ' ')

/-- A text filled up with spaces to the right. -/
def padRight (width : Nat) (text : String) : String :=
  String.ofList (text.toList.rightpad width ' ')

/-- Writes a line about the progress of a command, in a colour up to its first word; the
cursor is not moved. -/
def status (c : Console) (codes word rest : String) : Console :=
  if c.minimal then c
  else c.write .diagnostics (paint c.color codes (padLeft 12 word) ++ " " ++ rest ++ "\n")

end Console

end TinyIsa
