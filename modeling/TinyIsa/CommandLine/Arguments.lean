import TinyIsa.Text.Number

/-!
# Command line arguments

* `Command`: what the program is asked to do.
* `Arguments.read`: the arguments of a command, read one after the other.
* `Command.parse?`: the command of a list of arguments.
-/

namespace TinyIsa

/-- How a program is run. -/
structure RunOptions where
  /-- Whether only the output of the program and alerts are shown. -/
  minimal : Bool := false
  /-- The number of steps at which the program is stopped. -/
  limit : Option Nat := none
  /-- The time to wait after each step, in milliseconds. -/
  interval : Nat := 0
deriving DecidableEq, Repr

/-- What the program is asked to do. -/
inductive Command where
  /-- To introduce itself. -/
  | banner
  /-- To tell its version. -/
  | version
  /-- To run a file. -/
  | run (name : String) (options : RunOptions)
  /-- To write the machine code of a source file into another file. -/
  | assemble (name : String) (dest : Option String)
  /-- To look for errors in a source file. -/
  | check (name : String)
  /-- To list a source file with its machine code. -/
  | list (name : String)
  /-- To look for errors whenever a source file changes. -/
  | watch (name : String)
deriving DecidableEq, Repr

/-- The options that set a number. -/
inductive Setting where
  /-- The number of steps. -/
  | limit
  /-- The time after each step. -/
  | interval
deriving DecidableEq, Repr

/-- What was read of the arguments of a command. -/
structure Arguments where
  /-- The file names, the last one first. -/
  names : List String := []
  /-- Whether minimal mode was asked for. -/
  minimal : Bool := false
  /-- The number of steps, if it was set. -/
  limit : Option Nat := none
  /-- The time after each step, if it was set. -/
  interval : Option Nat := none
  /-- Whether all further arguments are file names. -/
  literal : Bool := false
  /-- The option whose number is still to come. -/
  pending : Option Setting := none
deriving DecidableEq, Repr

namespace Arguments

/-- The number of an option: decimal digits, perhaps behind a plus sign, in 64 bits. -/
def number? (text : List Char) : Option Nat :=
  let digits := match text with
    | '+' :: s => s
    | s => s
  (Text.natural? 10 digits).filter (· < UInt64.size)

/-- Adds a file name, which is not empty. -/
def addName (a : Arguments) (name : List Char) : Option Arguments :=
  if name.isEmpty then none else some { a with names := String.ofList name :: a.names }

/-- Asks for minimal mode, once. -/
def setMinimal (a : Arguments) : Option Arguments :=
  if a.minimal then none else some { a with minimal := true }

/-- Sets the number of an option, once. -/
def set (a : Arguments) (s : Setting) (text : List Char) : Option Arguments := do
  let n ← number? text
  match s with
  | .limit => if a.limit.isSome then none else some { a with limit := n, pending := none }
  | .interval => if a.interval.isSome then none else some { a with interval := n, pending := none }

/-- Reads the letters behind a dash. A number may follow its letter, also behind an
equals sign. -/
def readLetters (a : Arguments) : List Char → Option Arguments
  | [] => some a
  | 'm' :: s => do readLetters (← a.setMinimal) s
  | ['i'] => some { a with pending := some .interval }
  | 'i' :: '=' :: s => a.set .interval s
  | 'i' :: s => a.set .interval s
  | _ :: _ => none

/-- Reads the word behind two dashes. A number may follow it behind an equals sign. -/
def readWord (a : Arguments) (s : List Char) : Option Arguments :=
  let setting? := match String.ofList (s.takeWhile (· != '=')) with
    | "max-steps" => some Setting.limit
    | "interval" => some Setting.interval
    | _ => none
  match setting?, s.dropWhile (· != '=') with
  | some setting, [] => some { a with pending := some setting }
  | some setting, _ :: text => a.set setting text
  | none, _ => if s = "minimal".toList then a.setMinimal else none

/-- Reads an argument. -/
def read (a : Arguments) (arg : String) : Option Arguments :=
  match a.pending with
  | some setting => a.set setting arg.toList
  | none =>
    if a.literal then a.addName arg.toList
    else match arg.toList with
      | ['-', '-'] => some { a with literal := true }
      | '-' :: '-' :: s => a.readWord s
      | '-' :: c :: s => a.readLetters (c :: s)
      | s => a.addName s

/-- Reads the arguments of a command; an option must not lack its number. -/
def ofList (args : List String) : Option Arguments :=
  (args.foldlM read {}).filter (·.pending.isNone)

/-- The options that were set. -/
def options (a : Arguments) : RunOptions :=
  { minimal := a.minimal, limit := a.limit, interval := a.interval.getD 0 }

end Arguments

namespace Command

/-- The file names among the arguments of a command without options. -/
def names? (args : List String) : Option (List String) := do
  let a ← Arguments.ofList args
  if a.options = {} then return a.names.reverse else none

/-- The run that arguments ask for. -/
def run? (args : List String) : Option Command := do
  let a ← Arguments.ofList args
  match a.names with
  | [name] => return run name a.options
  | _ => none

/-- The assembly that arguments ask for. -/
def assemble? (args : List String) : Option Command := do
  match ← names? args with
  | [name] => return assemble name none
  | [name, dest] => return assemble name (some dest)
  | _ => none

/-- A command on one file. -/
def single? (command : String → Command) (args : List String) : Option Command := do
  match ← names? args with
  | [name] => return command name
  | _ => none

/-- The command of arguments without the name of a command: a file to run, or none. -/
def unnamed? : List String → Option Command
  | [] => some banner
  | [name] => if name.isEmpty then none else some (run name {})
  | _ => none

/-- What the name of a command makes of the arguments behind it. -/
def reader? : String → Option (List String → Option Command)
  | "run" => some run?
  | "assemble" => some assemble?
  | "check" => some (single? check)
  | "list" => some (single? list)
  | "watch" => some (single? watch)
  | _ => none

/-- Whether an argument asks for the version. -/
def asksVersion (arg : String) : Bool :=
  arg == "--version" || arg.startsWith "-V"

/-- The command of a list of arguments behind the file names that were read already. A
file name in front of the name of a command does not count. -/
def parseAfter? (names : List String) : List String → Option Command
  | [] => unnamed? names
  | arg :: args =>
    match reader? arg with
    | some read => read args
    | none =>
      if asksVersion arg then some version
      else if arg = "--" then unnamed? (names ++ args)
      else if arg.isEmpty || arg.startsWith "-" && arg ≠ "-" || !names.isEmpty then none
      else parseAfter? [arg] args

/-- The command of a list of arguments. -/
def parse? (args : List String) : Option Command := parseAfter? [] args

end Command

end TinyIsa
