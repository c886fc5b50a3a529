import TinyIsa.Instruction.Decode
import TinyIsa.Machine.Basic

/-!
# Executing an instruction

* `Machine.perform`: what an action does to a machine.
* `Machine.peek`: the instruction at the program counter.
* `Machine.step`: executes it, unless the machine has halted or has no program.
-/

namespace TinyIsa

/-- What came of a step. -/
inductive Outcome where
  /-- The instruction was executed. -/
  | executed
  /-- The instruction was executed and terminated the machine. -/
  | halted
  /-- Nothing was executed. -/
  | refused
deriving DecidableEq, Repr

namespace Machine

variable {Op σ : Type} [InstructionSet Op]

/-- What an action does to a machine, and what it yields. -/
def perform [Host σ] {α : Type} : Action α → Machine Op σ → α × Machine Op σ
  | .done a, m => (a, m)
  | .readRegister name next, m => perform (next (m.registers.get? name)) m
  | .writeRegister name value next, m => perform next (m.setRegister name value).2
  | .readCounter next, m => perform (next m.pc) m
  | .readMemory address next, m => perform (next (m.readMemory address)) m
  | .writeMemory address value next, m => perform next (m.writeMemory address value)
  | .interrupt i next, m =>
    let (reply, m) := m.interrupt i
    perform (next reply) m
  | .halt next, m => perform next m.halt

/-- What executing an instruction does to a machine; the program counter is left alone. -/
def execute [Host σ] (m : Machine Op σ) (i : Instruction Op) : Flow × Machine Op σ :=
  perform i.body.action m

/-- The instruction at the program counter. -/
def peek (m : Machine Op σ) : Except InstructionError (Instruction Op) :=
  Instruction.ofMemory m.memory m.pc

/-- Moves the program counter behind an instruction of some words, or to where it jumps. -/
def advance (m : Machine Op σ) (words : Nat) : Flow → Machine Op σ
  | .next => m.setPc (m.pc + words)
  | .jump target => m.setPc target

/-- Counts an executed instruction, and advances unless it terminated the machine. -/
def retire (m : Machine Op σ) (words : Nat) (flow : Flow) : Outcome × Machine Op σ :=
  let m := { m with steps := m.steps + 1 }
  if m.status = .terminated then (.halted, m) else (.executed, m.advance words flow)

variable [Host σ]

/-- Executes the instruction at the program counter. Without a program and after a halt it
raises an alert instead; if there is no such instruction nothing happens. -/
def step (m : Machine Op σ) : Except InstructionError Outcome × Machine Op σ :=
  if m.status = .terminated then
    (.ok .refused, m.alert "Cannot step: the machine has halted, reset it first")
  else if m.loaded = 0 then
    (.ok .refused, m.alert "Cannot step: no program loaded")
  else
    match m.peek with
    | .error e => (.error e, m)
    | .ok i =>
      let (flow, m) := m.execute i
      let (outcome, m) := m.retire i.wordCount flow
      (.ok outcome, m)

end Machine

end TinyIsa
