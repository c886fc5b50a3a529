import TinyIsa.CommandLine.Banner
import TinyIsa.CommandLine.Listing
import TinyIsa.CommandLine.Session

/-!
# What a command does

* `checkSource`, `listSource`, `assembleSource`: the commands on a source file.
* `Report`: the exit code, the two streams, the failure and the files of a command.
* `Command.execute`: the report of a command.
-/

namespace TinyIsa

/-- Looks for errors in a source file. -/
def checkSource (name : String) (content : Except FileError ByteArray) (c : Console) :
    Except Failure Unit × Console :=
  let c := c.status green "Checking" (targetText name)
  match programOfBytes content with
  | .error e => (.error e, c)
  | .ok _ => (.ok (), c.status green "Success" "no errors found!")

/-- Writes the listing of a source file. -/
def listSource (content : Except FileError ByteArray) (c : Console) :
    Except Failure Unit × Console :=
  let lines := do (listing (← programOfBytes content)).mapError .instruction
  match lines with
  | .error e => (.error e, c)
  | .ok lines => (.ok (), (lines.map (·.text c.color)).foldl (·.write .output ·) c)

/-- The machine code of a program, a word on each line. -/
def codeText (Op : Type) [InstructionSet Op] (code : List Char) : String :=
  String.ofList ((wordDigits Op code).flatMap (· ++ ['\n']))

/-- Makes the machine code of a source file. -/
def assembleSource (name : String) (content : Except FileError ByteArray) (c : Console) :
    Except Failure String × Console :=
  let c := c.status green "Assembling" (targetText name)
  let code := do (machineCode (← programOfBytes content)).mapError .instruction
  (codeText Armlet.Op <$> code, c)

/-- The file into which the machine code of a source file is written. -/
def codeFile (name : String) (dest : Option String) : String :=
  dest.getD (Path.withExtension name "mc")

/-- Says that the machine code is written. -/
def saved (dest : String) (c : Console) : Console :=
  (c.status green "Finished" "emit machine code").status green "Saved" (targetText dest)

/-- What a command finds when it starts. -/
structure Environment where
  /-- The files of the current folder. -/
  folder : Folder := {}
  /-- The lines of the standard input. -/
  lines : List (Option String) := []
  /-- Whether a run is traced. -/
  trace : Bool := false
  /-- Whether styles are on. -/
  color : Bool := false

/-- What a command leaves behind. -/
structure Report where
  /-- The exit code. -/
  exit : Nat := 0
  /-- The output. -/
  stdout : String := ""
  /-- The diagnostics, without the report of the failure. -/
  stderr : String := ""
  /-- The failure. -/
  failure : Option Failure := none
  /-- The files of the current folder. -/
  folder : Folder

/-- The report of a command that ends with a console. -/
def Report.ofConsole (folder : Folder) (result : Except Failure Unit) (c : Console) : Report :=
  match result with
  | .ok () => { stdout := c.stdout, stderr := c.stderr, folder }
  | .error e => { exit := 1, stdout := c.stdout, stderr := c.stderr, failure := some e, folder }

/-- The report of a command whose arguments are not understood. -/
def Report.misused (folder : Folder) : Report := { exit := 2, stderr := usageText, folder }

/-- Makes the machine code of a source file and writes it. -/
def assembleFile (name : String) (dest : Option String) (env : Environment) : Report :=
  match assembleSource name (env.folder.read name) { color := env.color } with
  | (.error e, c) => .ofConsole env.folder (.error e) c
  | (.ok text, c) =>
    match env.folder.write (codeFile name dest) text.toUTF8 with
    | .error e => .ofConsole env.folder (.error (.file e)) c
    | .ok folder => .ofConsole folder (.ok ()) (saved (codeFile name dest) c)

/-- Whether something is there, from what comes of reading it. -/
def isThere : Except FileError ByteArray → Bool
  | .error .notFound => false
  | .error .notFolder => false
  | .error .nameTooLong => false
  | _ => true

/-- The report of a command; a run has to come to its end within `fuel` rounds. A watch is
reported only where there is nothing to watch. -/
def Command.execute (fuel : Nat) (env : Environment) : Command → Option Report
  | .banner => some { stdout := bannerText env.color, folder := env.folder }
  | .version => some { stdout := versionText, folder := env.folder }
  | .run name options =>
    let session := Session.new name options env.trace env.color env.lines
    (session.run fuel (env.folder.read name)).map fun (result, s) =>
      .ofConsole env.folder result s.console
  | .assemble name dest => some (assembleFile name dest env)
  | .check name =>
    let (result, c) := checkSource name (env.folder.read name) { color := env.color }
    some (.ofConsole env.folder result c)
  | .list name =>
    let (result, c) := listSource (env.folder.read name) { color := env.color }
    some (.ofConsole env.folder result c)
  | .watch name =>
    if isThere (env.folder.read name) then none
    else some (.ofConsole env.folder (.error .nothingToWatch) {})

/-- Whether the value of the variable for the trace switches it on. -/
def traceOn (value : Option String) : Bool := value == some "1"

/-- Whether styles are on, from the values of the variables that force them, forbid them
and unset them, and from whether the output is a terminal. -/
def colorOn (force forbid unset : Option String) (isTerminal : Bool) : Bool :=
  if force.any (· != "0") then true
  else if forbid.isSome then false
  else isTerminal && unset != some "0"

end TinyIsa
