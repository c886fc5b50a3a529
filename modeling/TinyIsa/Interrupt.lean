/-!
# Interrupts and hosts

A machine talks to the outside by interrupts. The outside is a host: a state and
what it does with each interrupt.

* `Interrupt`: what a machine asks of its host or tells it.
* `Host`: the answers of a host, as functions of its state.
* `Silence`, `Script`: a host without inputs, and one that replays given inputs
  and records all that it is told.
-/

namespace TinyIsa

/-- What a machine asks of its host or tells it. -/
inductive Interrupt where
  /-- Asks for a line of input. -/
  | input (prompt : String)
  /-- Hands over a line of output. -/
  | output (text : String)
  /-- Announces that the machine halts. -/
  | halt
  /-- Warns of something. -/
  | alert (message : String)
deriving DecidableEq, Repr

/-- The name of the kind of an interrupt. -/
def Interrupt.name : Interrupt → String
  | .input _ => "input"
  | .output _ => "output"
  | .halt => "halt"
  | .alert _ => "alert"

/-- Whether the machine goes on after an interrupt. -/
inductive Signal where
  /-- It goes on. -/
  | resume
  /-- It is terminated. -/
  | terminate
deriving DecidableEq, Repr

/-- A host with states in `σ`. -/
class Host (σ : Type) where
  /-- Answers a request for input, with nothing when there is none. -/
  input : String → σ → Option String × σ
  /-- Takes a line of output. -/
  output : String → σ → Signal × σ
  /-- Takes notice of the halt. -/
  halt : σ → σ
  /-- Takes a warning. -/
  alert : String → σ → Signal × σ

/-- The host that has no input and heeds nothing. -/
inductive Silence where
  /-- Its only state. -/
  | silence
deriving DecidableEq, Repr

instance : Host Silence where
  input _ s := (none, s)
  output _ s := (.resume, s)
  halt s := s
  alert _ s := (.resume, s)

/-- The host that replays inputs and records what it is told. -/
structure Script where
  /-- The inputs that are still to come. -/
  inputs : List String := []
  /-- The outputs and alerts that it answers by terminating the machine. -/
  stopOn : List String := []
  /-- The outputs so far. -/
  outputs : Array String := #[]
  /-- The alerts so far. -/
  alerts : Array String := #[]
  /-- The prompts so far. -/
  prompts : Array String := #[]
  /-- How often a halt was announced. -/
  halts : Nat := 0
deriving DecidableEq, Repr

namespace Script

/-- The answer to an output or alert. -/
def answer (s : Script) (text : String) : Signal :=
  if text ∈ s.stopOn then .terminate else .resume

/-- Adds an input after those still to come. -/
def push (s : Script) (text : String) : Script :=
  { s with inputs := s.inputs ++ [text] }

instance : Host Script where
  input prompt s :=
    (s.inputs.head?, { s with inputs := s.inputs.tail, prompts := s.prompts.push prompt })
  output text s := (s.answer text, { s with outputs := s.outputs.push text })
  halt s := { s with halts := s.halts + 1 }
  alert message s := (s.answer message, { s with alerts := s.alerts.push message })

end Script

end TinyIsa
