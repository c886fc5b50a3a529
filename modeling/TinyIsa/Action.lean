import TinyIsa.Interrupt
import TinyIsa.Word.Basic

/-!
# Actions of an instruction

What an instruction does is a tree of the accesses it makes to its machine, each
followed by what it does with the answer. The tree is data: a machine performs it,
and two instructions with the same tree cannot be told apart by any machine or host.

* `Action`: the trees, a monad.
* `Flow`: where execution goes on.
-/

namespace TinyIsa

/-- Where execution goes on after an instruction. -/
inductive Flow where
  /-- At the instruction behind this one. -/
  | next
  /-- At an address. -/
  | jump (target : Nat)
deriving DecidableEq, Repr

/-- What is done to a machine to obtain an `α`. -/
inductive Action (α : Type) where
  /-- Nothing is left to do. -/
  | done (a : α)
  /-- Reads a register, with nothing for an unknown name. -/
  | readRegister (name : String) (next : Option Word → Action α)
  /-- Writes a register; an unknown name has no effect. -/
  | writeRegister (name : String) (value : Word) (next : Action α)
  /-- Reads the program counter. -/
  | readCounter (next : Nat → Action α)
  /-- Reads a memory cell. -/
  | readMemory (address : Nat) (next : Word → Action α)
  /-- Writes a memory cell. -/
  | writeMemory (address : Nat) (value : Word) (next : Action α)
  /-- Raises an interrupt; only a request for input has an answer. -/
  | interrupt (i : Interrupt) (next : Option String → Action α)
  /-- Halts the machine. -/
  | halt (next : Action α)

namespace Action

variable {α β : Type}

/-- One action after another. -/
def andThen (x : Action α) (f : α → Action β) : Action β :=
  match x with
  | .done a => f a
  | .readRegister name next => .readRegister name fun r => (next r).andThen f
  | .writeRegister name value next => .writeRegister name value (next.andThen f)
  | .readCounter next => .readCounter fun n => (next n).andThen f
  | .readMemory address next => .readMemory address fun w => (next w).andThen f
  | .writeMemory address value next => .writeMemory address value (next.andThen f)
  | .interrupt i next => .interrupt i fun r => (next r).andThen f
  | .halt next => .halt (next.andThen f)

instance : Monad Action where
  pure := .done
  bind := andThen

/-- Reads a register, as `default` for an unknown name. -/
def register (name : String) (default : Word) : Action Word :=
  .readRegister name fun r => .done (r.getD default)

/-- Writes a register. -/
def setRegister (name : String) (value : Word) : Action Unit :=
  .writeRegister name value (.done ())

/-- Reads the program counter. -/
def counter : Action Nat := .readCounter .done

/-- Reads a memory cell. -/
def memory (address : Nat) : Action Word := .readMemory address .done

/-- Writes a memory cell. -/
def setMemory (address : Nat) (value : Word) : Action Unit :=
  .writeMemory address value (.done ())

/-- Asks for a line of input. -/
def input (prompt : String) : Action (Option String) := .interrupt (.input prompt) .done

/-- Hands over a line of output. -/
def output (text : String) : Action Unit := .interrupt (.output text) fun _ => .done ()

/-- Raises an alert. -/
def alert (message : String) : Action Unit := .interrupt (.alert message) fun _ => .done ()

/-- Halts the machine. -/
def stop : Action Unit := .halt (.done ())

/-- The prompt with which an action begins, if it begins by asking for a line. -/
def asks? : Action α → Option String
  | .interrupt (.input prompt) _ => some prompt
  | _ => none

end Action

end TinyIsa
