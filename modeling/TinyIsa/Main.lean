import TinyIsa.CommandLine.Report

/-!
# The program

The shell around the commands: it reads files, arguments and lines, shows what is written
to the console while a program runs, and waits between steps.
-/

namespace TinyIsa.Main

/-- Why a file cannot be used, from what the system says. -/
def fileError : IO.Error → FileError
  | .noFileOrDirectory .. => .notFound
  | .inappropriateType _ code _ => if code == 20 || code == -20 then .notFolder else .isFolder
  | e@(.invalidArgument _ code _) =>
    if code == 36 || code == -36 then .nameTooLong else .system (toString e)
  | e => .system (toString e)

/-- The content of a file. -/
def content (path : String) : IO (Except FileError ByteArray) := do
  try
    return .ok (← IO.FS.readBinFile path)
  catch e => return .error (fileError e)

/-- Gives a file a content. -/
def save (path : String) (bytes : ByteArray) : IO (Except FileError Unit) := do
  try
    return .ok (← IO.FS.writeBinFile path bytes)
  catch e => return .error (fileError e)

/-- Shows the writes to a console after the first ones. -/
def emit (c : Console) (skip : Nat) : IO Unit := do
  for w in c.writes.toList.drop skip do
    match w.destination with
    | .output => do
      IO.print w.text
      (← IO.getStdout).flush
    | .diagnostics => IO.eprint w.text

/-- Reads the bytes of a line behind those that are read already. -/
partial def lineBytes (input : IO.FS.Stream) (line : ByteArray) : IO ByteArray := do
  let byte ← input.read 1
  if byte.isEmpty || byte.toList == [10] then return line ++ byte else lineBytes input (line ++ byte)

/-- A line of the standard input, if there is one. -/
def nextLines : IO (List (Option String)) := do
  return linesOfBytes (← lineBytes (← IO.getStdin) .empty).toList

/-- Takes the steps of a session, and shows what each of them writes. -/
partial def rounds (s : Session) : IO (Except InstructionError Unit × Session) := do
  let (s, skip) ← match s.awaits? with
    | none => pure (s, 0)
    | some prompt =>
      let asking := s.asking prompt
      emit asking 0
      pure ((← nextLines).foldl Session.feed s, asking.writes.size)
  let (result, s) := s.round
  emit s.console skip
  match result with
  | .error e => return (.error e, s.shown)
  | .ok false => return (.ok (), s.shown)
  | .ok true =>
    if s.options.interval ≠ 0 then IO.sleep s.options.interval.toUInt32
    rounds s.shown

/-- The exit code of a command, after the report of its failure. -/
def exitCode (result : Except Failure Unit) : IO UInt32 :=
  match result with
  | .ok () => return 0
  | .error e => do
    IO.eprintln ("Error: " ++ e.headline)
    return 1

/-- Runs a file. -/
def run (s : Session) : IO UInt32 := do
  let (result, s) := s.launch (← content s.name)
  emit s.console 0
  match result with
  | .error e => exitCode (.error e)
  | .ok () =>
    let (result, s) ← rounds s.shown
    match result with
    | .error e => exitCode (.error (.instruction e))
    | .ok () =>
      emit s.finish.console 0
      return 0

/-- Shows a console, and gives the exit code. -/
def conclude (result : Except Failure Unit × Console) : IO UInt32 := do
  emit result.2 0
  exitCode result.1

/-- Makes the machine code of a source file and writes it. -/
def assemble (name : String) (dest : Option String) (c : Console) : IO UInt32 := do
  let (result, c) := assembleSource name (← content name) c
  match result with
  | .error e => conclude (.error e, c)
  | .ok text =>
    let dest := codeFile name dest
    match ← save dest text.toUTF8 with
    | .error e => conclude (.error (.file e), c)
    | .ok () => conclude (.ok (), saved dest c)

/-- Looks for errors in a source file whenever its content is another one. -/
partial def watch (name : String) (c : Console) (seen : Option ByteArray) : IO UInt32 := do
  let bytes ← content name
  if bytes.toOption != seen then
    let (result, c) := checkSource name bytes c
    emit c 0
    discard (exitCode result)
  IO.sleep 500
  watch name c bytes.toOption

/-- Does what a command asks for. -/
def perform (color trace : Bool) : Command → IO UInt32
  | .banner => do
    IO.print (bannerText color)
    return 0
  | .version => do
    IO.print versionText
    return 0
  | .run name options => run (.new name options trace color [])
  | .assemble name dest => assemble name dest { color }
  | .check name => do conclude (checkSource name (← content name) { color })
  | .list name => do conclude (listSource (← content name) { color })
  | .watch name => do
    if isThere (← content name) then watch name { color } none
    else exitCode (.error .nothingToWatch)

end TinyIsa.Main

open TinyIsa in
/-- Does what the arguments ask for. -/
def main (args : List String) : IO UInt32 := do
  let trace := traceOn (← IO.getEnv "ISAKIT_TRACE")
  let color := colorOn (← IO.getEnv "CLICOLOR_FORCE") (← IO.getEnv "NO_COLOR")
    (← IO.getEnv "CLICOLOR") (← (← IO.getStdout).isTty)
  match Command.parse? args with
  | some command => Main.perform color trace command
  | none =>
    IO.eprint usageText
    return 2
