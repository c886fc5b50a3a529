import Mathlib
import TinyIsa.Machine.Run

/-!
# Maps of machines

What a machine does when it executes an instruction depends on its registers, its memory, the answers
to its interrupts and on whether it has halted. A map of machines that respects all this commutes with
every step.

* `Machine.Morphism`: such a map.
* `Morphism.perform`, `Morphism.retire`, `Morphism.step`: **it commutes with what is executed.**
-/

namespace TinyIsa.Machine

variable {Op σ τ : Type} [Host σ] [Host τ]

/-- A map of machines that no instruction can tell. -/
structure Morphism (f : Machine Op σ → Machine Op τ) : Prop where
  registers : ∀ m, (f m).registers = m.registers
  memory : ∀ m, (f m).memory = m.memory
  loaded : ∀ m, (f m).loaded = m.loaded
  terminated : ∀ m, (f m).status = .terminated ↔ m.status = .terminated
  setRegister : ∀ m name value, ((f m).setRegister name value).2 = f (m.setRegister name value).2
  writeMemory : ∀ m address value, (f m).writeMemory address value = f (m.writeMemory address value)
  interrupt : ∀ m i, (f m).interrupt i = (m.interrupt i).map id f
  count : ∀ m, { f m with steps := (f m).steps + 1 } = f { m with steps := m.steps + 1 }

namespace Morphism

variable {f : Machine Op σ → Machine Op τ} (hf : Morphism f)
include hf

theorem pc (m : Machine Op σ) : (f m).pc = m.pc := by
  unfold Machine.pc
  rw [hf.registers]

theorem alert (m : Machine Op σ) (message : String) : (f m).alert message = f (m.alert message) :=
  congrArg Prod.snd (hf.interrupt m (.alert message))

theorem halt (m : Machine Op σ) : (f m).halt = f m.halt := by
  unfold Machine.halt
  by_cases h : m.status = .terminated
  · rw [if_pos h, if_pos ((hf.terminated m).2 h)]
  · rw [if_neg h, if_neg (mt (hf.terminated m).1 h), hf.interrupt]
    rfl

variable [InstructionSet Op]

theorem readMemory (m : Machine Op σ) (address : ℕ) : (f m).readMemory address = m.readMemory address := by
  unfold Machine.readMemory
  rw [hf.memory]

theorem peek (m : Machine Op σ) : (f m).peek = m.peek := by
  unfold Machine.peek
  rw [hf.memory, hf.pc]

theorem advance (m : Machine Op σ) (words : ℕ) (flow : Flow) :
    (f m).advance words flow = f (m.advance words flow) := by
  cases flow with
  | next =>
    unfold Machine.advance setPc
    rw [hf.pc, hf.setRegister]
  | jump target => exact hf.setRegister m counterName _

/-- **An action does the same** before and after the map. -/
theorem perform {α : Type} (x : Action α) :
    ∀ m : Machine Op σ, Machine.perform x (f m) = (Machine.perform x m).map id f := by
  induction x with
  | done a => intro m; rfl
  | readRegister name next ih =>
    intro m
    unfold Machine.perform
    rw [hf.registers]
    exact ih _ m
  | writeRegister name value next ih =>
    intro m
    unfold Machine.perform
    rw [hf.setRegister]
    exact ih (m.setRegister name value).2
  | readCounter next ih =>
    intro m
    unfold Machine.perform
    rw [hf.pc]
    exact ih _ m
  | readMemory address next ih =>
    intro m
    unfold Machine.perform
    rw [hf.readMemory]
    exact ih _ m
  | writeMemory address value next ih =>
    intro m
    unfold Machine.perform
    rw [hf.writeMemory]
    exact ih (m.writeMemory address value)
  | interrupt i next ih =>
    intro m
    have h := ih (m.interrupt i).1 (m.interrupt i).2
    unfold Machine.perform
    rw [hf.interrupt]
    exact h
  | halt next ih =>
    intro m
    unfold Machine.perform
    rw [hf.halt]
    exact ih m.halt

theorem retire (m : Machine Op σ) (words : ℕ) (flow : Flow) :
    (f m).retire words flow = (m.retire words flow).map id f := by
  unfold Machine.retire
  rw [hf.count]
  generalize { m with steps := m.steps + 1 } = m
  dsimp only
  by_cases h : m.status = .terminated
  · rw [if_pos h, if_pos ((hf.terminated m).2 h)]
    rfl
  · rw [if_neg h, if_neg (mt (hf.terminated m).1 h), hf.advance]
    rfl

/-- **A step does the same** before and after the map. -/
theorem step (m : Machine Op σ) : (f m).step = m.step.map id f := by
  unfold Machine.step
  rw [hf.alert, hf.alert, hf.peek, hf.loaded]
  by_cases ht : m.status = .terminated
  · rw [if_pos ht, if_pos ((hf.terminated m).2 ht)]
    rfl
  rw [if_neg ht, if_neg (mt (hf.terminated m).1 ht)]
  by_cases hl : m.loaded = 0
  · rw [if_pos hl, if_pos hl]
    rfl
  rw [if_neg hl, if_neg hl]
  cases m.peek with
  | error e => rfl
  | ok i =>
    have hexecute := hf.perform i.body.action m
    have hretire := hf.retire (Machine.perform i.body.action m).2 i.wordCount
      (Machine.perform i.body.action m).1
    unfold execute
    simp only
    rw [hexecute]
    simp only [Prod.map_fst, Prod.map_snd, id_eq]
    rw [hretire]
    rfl

end Morphism

end TinyIsa.Machine
