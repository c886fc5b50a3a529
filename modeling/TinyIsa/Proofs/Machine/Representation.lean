import Mathlib
import TinyIsa.Proofs.Architecture
import TinyIsa.Proofs.Armlet.Refinement

/-!
# Every machine is what its architecture declares

No call changes which registers and cells a machine has, and no value leaves its width. Every
word of an Armlet memory is therefore an instruction, wherever the program counter stands.

* `Machine.Intact`: the registers, the memory and the program counter are as declared.
* `WellFormed.pc_setPc`: the program counter is set modulo the number of cells.
* `Machine.Unfailing`: neither stepping nor running is an error.
* `reachable_intact`: **every reachable machine is intact**, and on Armlet it never fails.
-/

namespace TinyIsa

open InstructionSet

namespace Machine

section

variable {Op σ : Type} [InstructionSet Op]

/-- A machine with the registers and the cells of its architecture and values of their widths. -/
structure Intact (m : Machine Op σ) : Prop where
  /-- Names, widths and hardwiring are those that were declared, in this order. -/
  declared : m.registers.shape = (registerSpecs Op).map fun s => (s.name, s.width, s.hardwired)
  counter_first : (m.registers.toList.map Register.name).head? = some counterName
  register_lt : ∀ r ∈ m.registers.toList, r.value.toNat < 2 ^ r.value.width
  hardwired_zero : ∀ r ∈ m.registers.toList, r.hardwired = true → r.value.toNat = 0
  pc_lt : m.pc < 2 ^ addressSize Op
  size : m.memory.size = 2 ^ addressSize Op
  cells : ∀ w ∈ m.memory, w.width = wordSize Op ∧ w.toNat < 2 ^ wordSize Op
  loaded_le : m.loaded ≤ m.memory.size

/-- A machine on which stepping and running are no errors. -/
structure Unfailing [Host σ] (m : Machine Op σ) : Prop where
  peek : ∃ i, m.peek = .ok i
  step : ∃ outcome, m.step.1 = .ok outcome
  run : ∀ limit, ∃ summary, (m.run limit).1 = .ok summary
  /-- A run without a limit, if it ends. -/
  runToEnd : ∀ fuel r, m.runToEnd fuel = some r → ∃ summary, r.1 = .ok summary

/-! ### The program counter -/

/-- The registers of an architecture have different names. -/
def DistinctRegisters (Op : Type) [InstructionSet Op] : Prop := ((registerSpecs Op).map RegisterSpec.name).Nodup

variable {m : Machine Op σ}

theorem WellFormed.shape_eq (h : m.WellFormed) (hd : DistinctRegisters Op) :
    m.registers.shape = (registerSpecs Op).map fun s => (s.name, s.width, s.hardwired) :=
  h.shape.trans (Registers.shape_ofSpecs hd)

theorem WellFormed.names_eq (h : m.WellFormed) (hd : DistinctRegisters Op) :
    m.registers.toList.map Register.name = (registerSpecs Op).map RegisterSpec.name := by
  rw [← Registers.names_shape, h.shape_eq hd, List.map_map]
  rfl

theorem WellFormed.counter_mem (h : m.WellFormed) (hd : DistinctRegisters Op) :
    (counterName, addressSize Op, false) ∈ m.registers.shape := by
  rw [h.shape_eq hd]
  exact List.mem_cons_self

/-- The program counter is a number of the width of an address. -/
theorem WellFormed.pc_lt (h : m.WellFormed) (hd : DistinctRegisters Op) : m.pc < 2 ^ addressSize Op := by
  have hnames : (m.registers.toList.map Register.name).Nodup := by
    rw [h.names_eq hd]
    exact hd
  obtain ⟨x, hx, -⟩ := Registers.get?_of_mem_shape hnames (h.counter_mem hd)
  unfold pc
  rw [hx]
  exact x.isLt

/-- **The program counter is set modulo the number of cells.** -/
theorem WellFormed.pc_setPc (h : m.WellFormed) (hd : DistinctRegisters Op) (address : ℕ) :
    (m.setPc address).pc = address % 2 ^ addressSize Op := by
  have hnames : (m.registers.toList.map Register.name).Nodup := by
    rw [h.names_eq hd]
    exact hd
  have hget := Registers.get?_assign_self hnames (h.counter_mem hd)
    (Word.ofNat (addressSize Op) address)
  change ((m.registers.assign counterName (Word.ofNat (addressSize Op) address)).2.get?
    counterName).elim 0 Word.toNat = _
  rw [hget]
  unfold Word.ofNat
  rw [Word.operand_self]
  exact BitVec.toNat_ofNat address (addressSize Op)

theorem WellFormed.intact (h : m.WellFormed) (hd : DistinctRegisters Op) : m.Intact where
  declared := h.shape_eq hd
  counter_first := by
    rw [h.names_eq hd]
    rfl
  register_lt r _ := r.value.bits.isLt
  hardwired_zero r hr hw := by
    rw [h.grounded r hr hw]
    exact BitVec.toNat_zero
  pc_lt := h.pc_lt hd
  size := h.size
  cells w hw := by
    have hwidth := h.cells w hw
    exact ⟨hwidth, hwidth ▸ w.bits.isLt⟩
  loaded_le := h.loaded_le.trans h.size.ge

/-! ### Errors -/

variable [Host σ]

/-- A step is an error only when there is no instruction at the program counter. -/
theorem step_ok (hp : ∃ i, m.peek = .ok i) : ∃ outcome, m.step.1 = .ok outcome := by
  obtain ⟨i, hi⟩ := hp
  unfold step
  by_cases hs : m.status = .terminated
  · exact ⟨.refused, by rw [if_pos hs]⟩
  by_cases hl : m.loaded = 0
  · exact ⟨.refused, by rw [if_neg hs, if_pos hl]⟩
  · rw [if_neg hs, if_neg hl, hi]
    exact ⟨_, rfl⟩

/-- What every step keeps and what makes it succeed makes driving succeed. -/
theorem drive_ok {P : Machine Op σ → Prop} (hkeep : ∀ m, P m → P m.step.2)
    (hok : ∀ m, P m → ∃ outcome, m.step.1 = .ok outcome) (n : ℕ) :
    ∀ (taken : ℕ) (m : Machine Op σ), P m → ∃ total, (m.drive n taken).1 = .ok total := by
  induction n with
  | zero => intro taken m _; exact ⟨taken, rfl⟩
  | succ n ih =>
    intro taken m hm
    obtain ⟨outcome, ho⟩ := hok m hm
    have hnext := hkeep m hm
    unfold drive
    by_cases hr : m.status = .running
    · rw [if_pos hr]
      rcases hs : m.step with ⟨r, m'⟩
      rw [hs] at ho hnext
      obtain rfl : r = .ok outcome := ho
      exact ih (taken + 1) m' hnext
    · rw [if_neg hr]
      exact ⟨taken, rfl⟩

/-- Running fails only where driving the started machine does. -/
theorem run_ok {limit : ℕ} (hd : ∃ total, (m.start.2.drive limit 0).1 = .ok total) :
    ∃ summary, (m.run limit).1 = .ok summary := by
  obtain ⟨total, ht⟩ := hd
  unfold run
  rcases hs : m.start with ⟨started, m'⟩
  rw [hs] at ht
  cases started with
  | false => exact ⟨_, rfl⟩
  | true =>
    simp only at ht ⊢
    rcases hd : m'.drive limit 0 with ⟨r, m''⟩
    rw [hd] at ht
    obtain rfl : r = .ok total := ht
    exact ⟨_, rfl⟩

/-- **A machine that keeps finding instructions is unfailing.** -/
theorem unfailing_of_peek {P : Machine Op σ → Prop} (hstart : ∀ m, P m → P m.start.2)
    (hstep : ∀ m, P m → P m.step.2) (hpeek : ∀ m, P m → ∃ i, m.peek = .ok i) (hm : P m) :
    m.Unfailing := by
  have hrun : ∀ limit, ∃ summary, (m.run limit).1 = .ok summary := fun limit =>
    run_ok (drive_ok hstep (fun m h => step_ok (hpeek m h)) limit 0 _ (hstart m hm))
  refine ⟨hpeek m hm, step_ok (hpeek m hm), hrun, ?_⟩
  intro fuel r hr
  rw [← runToEnd_eq_run hr]
  exact hrun fuel

end

end Machine

/-- **The registers of both architectures have different names.** -/
theorem Architecture.distinctRegisters (a : Architecture) : Machine.DistinctRegisters a.Op := by
  unfold Machine.DistinctRegisters
  cases a <;> decide

/-- Every word is an Armlet instruction, also the last one of the memory. -/
theorem Armlet.peek_ok {σ : Type} {m : Machine Op σ} (h : m.WellFormed) : ∃ i, m.peek = .ok i := by
  rw [← State.toMachine_ofMachine h]
  exact ⟨_, State.peek_toMachine _⟩

/-- **Every reachable machine is intact.** Whatever it was called with, its registers are the
declared ones with the program counter first, its cells are those of its address size, every
value fits its width, and a program that was loaded fits the memory. On Armlet there is an
instruction wherever the program counter stands, and neither stepping nor running is an error. -/
theorem reachable_intact (a : Architecture) {σ : Type} [Host σ] {m : Machine a.Op σ}
    (h : m.Reachable) : m.Intact ∧ (a = .armlet → m.Unfailing) := by
  refine ⟨h.wellFormed.intact a.distinctRegisters, ?_⟩
  rintro rfl
  exact Machine.unfailing_of_peek (fun _ hm => hm.start) (fun _ hm => hm.step)
    (fun _ hm => Armlet.peek_ok hm) h.wellFormed

/-- The last cell holds an opcode without an operation, after a write of a wider word. -/
theorem reachable_intact_last_cell : ∃ m : Machine Architecture.armlet.Op Silence,
    m.Reachable ∧ m.pc = 65535 ∧ m.Intact ∧ (Architecture.armlet = .armlet → m.Unfailing) := by
  have hreach : (((Machine.new .silence : Machine Architecture.armlet.Op Silence).writeMemory 65535
      ⟨64, -1⟩).setPc 65535).Reachable :=
    ⟨.silence, [.writeMemory 65535 ⟨64, -1⟩, .setPc 65535], rfl⟩
  have hpc : (((Machine.new .silence : Machine Architecture.armlet.Op Silence).writeMemory 65535
      ⟨64, -1⟩).setPc 65535).pc = 65535 :=
    ((Machine.wellFormed_new _).writeMemory _ _).pc_setPc (Architecture.distinctRegisters _) _
  exact ⟨_, hreach, hpc, reachable_intact .armlet hreach⟩

end TinyIsa
