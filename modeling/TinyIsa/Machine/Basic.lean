import TinyIsa.InstructionSet

/-!
# Machines

* `Machine`: the state of a machine and of the host it is connected to.
* `Machine.new`: the machine as it is built.
* `Machine.interrupt`, `Machine.halt`: talking to the host.
* `Machine.reset`: the machine as built, with the host left as it is.
-/

namespace TinyIsa

/-- Whether a machine executes. -/
inductive Status where
  /-- It executes. -/
  | running
  /-- It can be started. -/
  | paused
  /-- It has halted, until it is reset. -/
  | terminated
deriving DecidableEq, Repr

/-- The register that holds the program counter. -/
def counterName : String := "pc"

/-- A machine of an architecture, connected to a host. -/
structure Machine (Op σ : Type) where
  /-- The registers, the program counter first. -/
  registers : Registers
  /-- The memory. -/
  memory : Array Word
  /-- The number of words of the loaded program. -/
  loaded : Nat := 0
  /-- Whether it executes. -/
  status : Status := .paused
  /-- The host. -/
  host : σ
  /-- The lines of output so far. -/
  output : Array String := #[]
  /-- The number of instructions executed so far. -/
  steps : Nat := 0

namespace Machine

variable {Op σ : Type} [InstructionSet Op]

/-- The declarations of all registers. -/
def registerSpecs (Op : Type) [InstructionSet Op] : List RegisterSpec :=
  { name := counterName, width := InstructionSet.addressSize Op } :: InstructionSet.registers Op

/-- The machine as it is built. -/
def new (host : σ) : Machine Op σ where
  registers := .ofSpecs (registerSpecs Op)
  memory := Array.replicate (InstructionSet.capacity Op) (InstructionSet.blankWord Op)
  host

section registers

/-- The address in the program counter. -/
def pc (m : Machine Op σ) : Nat := (m.registers.get? counterName).elim 0 Word.toNat

/-- Stores a word in a register, and tells whether there is one of the name. -/
def setRegister (m : Machine Op σ) (name : String) (value : Word) : Bool × Machine Op σ :=
  let (found, registers) := m.registers.assign name value
  (found, { m with registers })

/-- Puts an address, modulo the number of cells, into the program counter. -/
def setPc (m : Machine Op σ) (address : Nat) : Machine Op σ :=
  (m.setRegister counterName (Word.ofNat (InstructionSet.addressSize Op) address)).2

/-- Sets all registers to zero. -/
def resetRegisters (m : Machine Op σ) : Machine Op σ :=
  { m with registers := m.registers.reset }

end registers

section memory

/-- The cell of an address, modulo the number of cells. -/
def readMemory (m : Machine Op σ) (address : Nat) : Word :=
  m.memory[address % m.memory.size]?.getD (InstructionSet.blankWord Op)

/-- Stores a word in the cell of an address, modulo the number of cells. -/
def writeMemory (m : Machine Op σ) (address : Nat) (value : Word) : Machine Op σ :=
  { m with memory := m.memory.modify (address % m.memory.size) (·.store value) }

/-- The cells from one address to another, both included, without those beyond the end. -/
def fragment (m : Machine Op σ) (first last : Nat) : List (Nat × Word) :=
  (List.range' first (min (last + 1) m.memory.size - first)).map fun a => (a, m.readMemory a)

/-- Clears the memory. -/
def resetMemory (m : Machine Op σ) : Machine Op σ :=
  { m with
    memory := Array.replicate m.memory.size (InstructionSet.blankWord Op)
    loaded := 0 }

end memory

/-- The machine as it was built, with the host left as it is. -/
def reset (m : Machine Op σ) : Machine Op σ :=
  { m.resetMemory.resetRegisters with status := .paused, output := #[], steps := 0 }

section host

/-- Heeds the answer of the host to an interrupt. -/
def heed (m : Machine Op σ) : Signal → Machine Op σ
  | .resume => m
  | .terminate => { m with status := .terminated }

variable [Host σ]

/-- Raises an interrupt, and returns the input that the host gave. An announced halt
terminates the machine. -/
def interrupt (i : Interrupt) (m : Machine Op σ) : Option String × Machine Op σ :=
  let ⟨registers, memory, loaded, status, host, output, steps⟩ := m
  match i with
  | .input prompt =>
    let (reply, host) := Host.input prompt host
    (reply, ⟨registers, memory, loaded, status, host, output, steps⟩)
  | .output text =>
    let (signal, host) := Host.output text host
    (none, heed ⟨registers, memory, loaded, status, host, output.push text, steps⟩ signal)
  | .halt =>
    (none, ⟨registers, memory, loaded, .terminated, Host.halt host, output, steps⟩)
  | .alert message =>
    let (signal, host) := Host.alert message host
    (none, heed ⟨registers, memory, loaded, status, host, output, steps⟩ signal)

/-- Raises an alert. -/
def alert (message : String) (m : Machine Op σ) : Machine Op σ :=
  (m.interrupt (.alert message)).2

/-- Halts the machine, which is announced once. -/
def halt (m : Machine Op σ) : Machine Op σ :=
  if m.status = .terminated then m else (m.interrupt .halt).2

end host

end Machine

end TinyIsa
