import Mathlib
import TinyIsa.Proofs.Architecture
import TinyIsa.Proofs.Machine.History

/-!
# A reset machine is a new one

A reset works in place: it reads the widths of the registers from the values they hold and the
number of cells from the memory. Both are what they were when the machine was built, so that nothing
of what was done before is left but the host.

* `Answer`, `Machine.transcript`: what the calls of a machine return, one after another.
* `WellFormed.reset_eq`: a machine of the shape of a new one is a new one once it is reset.
* `reset_starts_over`: **a history with a reset in it goes on like one that begins there.**
-/

namespace TinyIsa

/-- What a call of a machine returns. -/
inductive Answer where
  | nothing
  | load (result : Except LoadError Unit)
  /-- Whether the machine executes, or has a register of the name. -/
  | flag (answer : Bool)
  | step (result : Except InstructionError Outcome)
  | run (result : Except InstructionError Summary)
  /-- The result of a run without a limit, if it came to its end. -/
  | runToEnd (result : Option (Except InstructionError Summary))
  | line (input : Option String)
  | flow (flow : Flow)

namespace Machine

variable {Op σ : Type} [InstructionSet Op] [Host σ] {m : Machine Op σ}

/-- What a call returns. -/
def answer (m : Machine Op σ) : Call Op σ → Answer
  | .loadProgram program => .load (m.loadProgram program).1
  | .loadCode code => .load (m.loadCode code).1
  | .start => .flag m.start.1
  | .step => .step m.step.1
  | .run limit => .run (m.run limit).1
  | .runToEnd fuel => .runToEnd ((m.runToEnd fuel).map Prod.fst)
  | .interrupt i => .line (m.interrupt i).1
  | .execute i => .flow (m.execute i).1
  | .setRegister name value => .flag (m.setRegister name value).1
  | .pause | .halt | .reset | .resetMemory | .resetRegisters | .setPc _ | .writeMemory _ _
  | .changeHost _ => .nothing

/-- What some calls return, one after another. -/
def transcript (m : Machine Op σ) : List (Call Op σ) → List Answer
  | [] => []
  | c :: calls => m.answer c :: (m.after c).transcript calls

theorem transcript_append (calls more : List (Call Op σ)) : ∀ m : Machine Op σ,
    m.transcript (calls ++ more) = m.transcript calls ++ (calls.foldl after m).transcript more := by
  induction calls with
  | nil => intro m; rfl
  | cons c calls ih => intro m; exact congrArg (m.answer c :: ·) (ih (m.after c))

omit [Host σ] in
/-- **A machine of the shape of a new one is a new one once it is reset.** -/
theorem WellFormed.reset_eq (h : m.WellFormed) : m.reset = new m.host := by
  have hregisters : m.registers.reset = .ofSpecs (registerSpecs Op) := by
    rw [Registers.reset_congr h.shape, Registers.reset_ofSpecs]
  have hmemory : Array.replicate m.memory.size (InstructionSet.blankWord Op) =
      Array.replicate (InstructionSet.capacity Op) (InstructionSet.blankWord Op) := by
    rw [h.size]
  unfold Machine.reset Machine.resetMemory Machine.resetRegisters new
  simp only [hregisters, hmemory]

end Machine

open Machine

/-- **A history with a reset in it goes on like one that begins there.** For both architectures,
every host and whatever a machine was called with before the reset: the machine is then equal to a
new one with the host that it had, which was told nothing of it. Whatever it is called with
afterwards returns what it returns on that new machine, and leaves the same machine. -/
theorem reset_starts_over (a : Architecture) {σ : Type} [Host σ] (host : σ)
    (before more : List (Call a.Op σ)) :
    (before.foldl after (new host)).reset = new (before.foldl after (new host)).host ∧
      (new host).transcript (before ++ .reset :: more) = (new host).transcript before ++
        .nothing :: (new (before.foldl after (new host)).host).transcript more ∧
      (before ++ .reset :: more).foldl after (new host) =
        more.foldl after (new (before.foldl after (new host)).host) := by
  have hreach : (before.foldl after (new host) : Machine a.Op σ).Reachable := ⟨host, before, rfl⟩
  have hreset := hreach.wellFormed.reset_eq
  refine ⟨hreset, ?_, ?_⟩
  · rw [transcript_append]
    exact congrArg (fun m => _ ++ Answer.nothing :: m.transcript more) hreset
  · rw [List.foldl_append]
    exact congrArg (more.foldl after) hreset

/-- A machine that ran its program to the halt has none once it is reset. -/
example : (new ({} : Script) : Machine Architecture.tally.Op Script).transcript
    [.loadCode "010000010110000000000000".toList, .run 9, .reset, .step] =
      [.load (.ok ()), .run (.ok ⟨3, .terminated⟩), .nothing, .step (.ok .refused)] := by
  cbv

end TinyIsa
