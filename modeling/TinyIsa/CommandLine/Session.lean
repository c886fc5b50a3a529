import TinyIsa.CommandLine.Arguments
import TinyIsa.CommandLine.File
import TinyIsa.Armlet.Behaviour
import TinyIsa.Console.Table
import TinyIsa.Console.Terminal
import TinyIsa.Machine.Load
import TinyIsa.Machine.Run
import TinyIsa.Source.Parse

/-!
# Running a file on the terminal

* `Session`: a machine on the terminal and how it is run.
* `Session.launch`: loads the file and starts the machine.
* `Session.round`: a step, with the trace of it and the check of the limit.
* `Session.rounds`, `Session.finish`: all steps, and the report at the end.
-/

namespace TinyIsa

/-- The reasons for which a command fails. -/
inductive Failure where
  /-- The source has an error. -/
  | parse (e : ParseError)
  /-- The program is not loaded. -/
  | load (e : LoadError)
  /-- An instruction is refused. -/
  | instruction (e : InstructionError)
  /-- A file cannot be used. -/
  | file (e : FileError)
  /-- The extension of a file to run is not known. -/
  | unknownExtension
  /-- A file to run has no extension. -/
  | noExtension
  /-- The program could not be started. -/
  | notStarted
  /-- There is no file to watch. -/
  | nothingToWatch
deriving DecidableEq, Repr

/-- The headline of the report of a failure. -/
def Failure.headline : Failure → String
  | .parse e => e.headline
  | .load e => e.message
  | .instruction e => e.message
  | .file e => e.message
  | .unknownExtension => "File has unknown extension. Exiting..."
  | .noExtension => "File has no extension. Exiting..."
  | .notStarted => "Program could not be started"
  | .nothingToWatch => "File does not exist. Exiting..."

/-- The program of the bytes of a source file. -/
def programOfBytes (content : Except FileError ByteArray) :
    Except Failure (List (Instruction Armlet.Op)) := do
  let text ← (content >>= textOfBytes).mapError .file
  (parse text.toList true).mapError .parse

/-- What a status line says about a file. -/
def targetText (name : String) : String := "target " ++ name

/-- A machine on the terminal. -/
structure Session where
  /-- The name of the file. -/
  name : String
  /-- How it is run. -/
  options : RunOptions
  /-- Whether every step is shown before it is taken. -/
  trace : Bool
  /-- The machine. -/
  machine : Machine Armlet.Op Terminal

namespace Session

/-- Changes the console. -/
def onConsole (s : Session) (f : Console → Console) : Session :=
  let ⟨name, options, trace, ⟨registers, memory, loaded, status, host, output, steps⟩⟩ := s
  let ⟨console, lines, alerts⟩ := host
  ⟨name, options, trace,
    ⟨registers, memory, loaded, status, ⟨f console, lines, alerts⟩, output, steps⟩⟩

/-- The console. -/
def console (s : Session) : Console := s.machine.host.console

/-- The session before its file is loaded. -/
def new (name : String) (options : RunOptions) (trace color : Bool) (lines : List (Option String)) :
    Session where
  name
  options
  trace
  machine := .new { console := { minimal := options.minimal, color }, lines }

/-- The session after its machine took a program, or refused it. -/
def afterLoad (s : Session) (r : Except LoadError Unit × Machine Armlet.Op Terminal) :
    Except Failure Unit × Session :=
  (r.1.mapError .load, { s with machine := r.2 })

/-- Loads the content of the file, as its extension says. -/
def load (s : Session) (content : Except FileError ByteArray) : Except Failure Unit × Session :=
  match Path.extension? s.name with
  | some "asm" =>
    let s := s.onConsole (·.status green "Assembling" (targetText s.name))
    match programOfBytes content with
    | .error e => (.error e, s)
    | .ok program => s.afterLoad (s.machine.loadProgram program)
  | some "mc" =>
    let s := s.onConsole (·.status green "Loading" (targetText s.name))
    match content >>= textOfBytes with
    | .error e => (.error (.file e), s)
    | .ok text => s.afterLoad (s.machine.loadCode text.toList)
  | some _ => (.error .unknownExtension, s)
  | none => (.error .noExtension, s)

/-- Loads the content of the file and starts the machine. -/
def launch (s : Session) (content : Except FileError ByteArray) : Except Failure Unit × Session :=
  match s.load content with
  | (.error e, s) => (.error e, s)
  | (.ok (), s) =>
    let s := s.onConsole (·.status green "Running" "loaded program")
    let (started, machine) := s.machine.start
    (if started then .ok () else .error .notStarted, { s with machine })

/-- The line that shows an instruction before it is executed. -/
def traceLine (pc : Nat) (i : Instruction Armlet.Op) : String :=
  Console.padLeft 6 (Text.decimal pc) ++ "  " ++ i.display ++ "\n"

/-- Shows the instruction at the program counter. -/
def showNext (s : Session) : Except InstructionError Unit × Session :=
  match s.machine.peek with
  | .error e => (.error e, s)
  | .ok i =>
    let pc := s.machine.pc
    (.ok (), s.onConsole (·.print .sometimes (traceLine pc i)))

/-- Whether the machine has taken all the steps that it may. -/
def limitReached (s : Session) : Bool :=
  s.options.limit.any (· ≤ s.machine.steps)

/-- Pauses the machine and says so. -/
def stopAtLimit (s : Session) : Session :=
  { s with machine := s.machine.pause }.onConsole fun c =>
    (c.startLine .normal).status red "Stopped" "step limit reached"

/-- Takes a step, and tells whether another one was refused. -/
def stepOnce (s : Session) : Except InstructionError Bool × Session :=
  let ⟨name, options, trace, machine⟩ := s
  match machine.step with
  | (.error e, machine) => (.error e, ⟨name, options, trace, machine⟩)
  | (.ok outcome, machine) => (.ok (outcome != .refused), ⟨name, options, trace, machine⟩)

/-- Takes a step, unless the machine has stopped or the limit is reached, and tells whether
there may be another one. -/
def round (s : Session) : Except InstructionError Bool × Session :=
  if s.machine.status ≠ .running then (.ok false, s)
  else if s.limitReached then (.ok false, s.stopAtLimit)
  else if s.trace then
    match s.showNext with
    | (.error e, s) => (.error e, s)
    | (.ok (), s) => s.stepOnce
  else s.stepOnce

/-- Takes all steps, if there are at most `fuel` rounds of them. -/
def rounds : Nat → Session → Option (Except InstructionError Unit × Session)
  | 0, _ => none
  | fuel + 1, s =>
    match s.round with
    | (.error e, s) => some (.error e, s)
    | (.ok false, s) => some (.ok (), s)
    | (.ok true, s) => rounds fuel s

/-- Shows the registers after a traced run and says that it is complete. -/
def finish (s : Session) : Session :=
  let registers := s.machine.registers
  let s := if s.trace then
    s.onConsole fun c => (c.startLine .normal).printRegisters .sometimes registers
  else s
  s.onConsole (·.status green "Completed" (targetText s.name))

/-- Runs the content of the file from beginning to end. -/
def run (fuel : Nat) (s : Session) (content : Except FileError ByteArray) :
    Option (Except Failure Unit × Session) :=
  match s.launch content with
  | (.error e, s) => some (.error e, s)
  | (.ok (), s) =>
    (rounds fuel s).map fun
      | (.error e, s) => (.error (.instruction e), s)
      | (.ok (), s) => (.ok (), s.finish)

/-- The prompt of the next round, if that asks for a line and none is there to be read. -/
def awaits? (s : Session) : Option String :=
  if s.machine.status = .running && s.machine.host.lines.isEmpty && !s.limitReached then
    s.machine.peek.toOption.bind (·.body.action.asks?)
  else none

/-- The console of the next round at the point where it asks for a line. -/
def asking (s : Session) (prompt : String) : Console :=
  Terminal.prompt (if s.trace then s.showNext.2 else s).console prompt

/-- The session once all that was written is shown. -/
def shown (s : Session) : Session :=
  s.onConsole fun c => { c with writes := #[] }

/-- Adds a line of input behind those to be read. -/
def feed (s : Session) (line : Option String) : Session :=
  let host := s.machine.host
  { s with machine := { s.machine with host := { host with lines := host.lines ++ [line] } } }

end Session

end TinyIsa
