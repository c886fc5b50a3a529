import TinyIsa.Machine.Step

/-!
# Running a program

* `Machine.start`, `Machine.pause`: into and out of execution.
* `Machine.drive`: executes instructions while the machine is running, up to a number.
* `Machine.run`: starts, drives and pauses where a limit is reached.
-/

namespace TinyIsa

/-- What came of a run. -/
structure Summary where
  /-- The number of steps taken. -/
  steps : Nat
  /-- The status afterwards. -/
  status : Status
deriving DecidableEq, Repr

namespace Machine

variable {Op σ : Type} [InstructionSet Op] [Host σ]

/-- Lets a machine execute, and tells whether it does. Without a program and after a halt
it raises an alert instead. -/
def start (m : Machine Op σ) : Bool × Machine Op σ :=
  if m.status = .terminated then
    (false, m.alert "Cannot start: the machine has halted, reset it first")
  else if m.loaded = 0 then
    (false, m.alert "Cannot start: no program loaded")
  else (true, { m with status := .running })

omit [InstructionSet Op] [Host σ] in
/-- Interrupts execution. -/
def pause (m : Machine Op σ) : Machine Op σ :=
  if m.status = .running then { m with status := .paused } else m

/-- Takes up to `n` steps while the machine is running, after `taken` others. Stops at an
instruction that is refused. -/
def drive (n taken : Nat) (m : Machine Op σ) : Except InstructionError Nat × Machine Op σ :=
  match n with
  | 0 => (.ok taken, m)
  | n + 1 =>
    if m.status = .running then
      match m.step with
      | (.error e, m) => (.error e, m)
      | (.ok _, m) => drive n (taken + 1) m
    else (.ok taken, m)

/-- Runs a program for at most `limit` steps; it is paused if it did not end by then or
an instruction is refused. -/
def run (limit : Nat) (m : Machine Op σ) : Except InstructionError Summary × Machine Op σ :=
  match m.start with
  | (false, m) => (.ok ⟨0, m.status⟩, m)
  | (true, m) =>
    match m.drive limit 0 with
    | (.error e, m) => (.error e, m.pause)
    | (.ok taken, m) => (.ok ⟨taken, m.pause.status⟩, m.pause)

/-- Runs a program to its end, if it comes to it within `fuel` steps. -/
def runToEnd (fuel : Nat) (m : Machine Op σ) :
    Option (Except InstructionError Summary × Machine Op σ) :=
  match m.start with
  | (false, m) => some (.ok ⟨0, m.status⟩, m)
  | (true, m) =>
    match m.drive fuel 0 with
    | (.error e, m) => some (.error e, m.pause)
    | (.ok taken, m) => if m.status = .running then none else some (.ok ⟨taken, m.status⟩, m)

end Machine

end TinyIsa
