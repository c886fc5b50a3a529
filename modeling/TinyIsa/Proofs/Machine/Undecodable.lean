import Mathlib
import TinyIsa.Proofs.Machine.Batch
import TinyIsa.Proofs.Machine.Representation

/-!
# Words that are no instruction

On an architecture that has nothing in the place of an unknown opcode a machine may come upon a word
that it cannot decode. A step is an error there and does nothing; a run ends where single steps would
have come to, and is paused.

* `Machine.recast`: a machine with another status; `morphism_recast`: but for a machine that has
  halted, the status has no part in what is executed.
* `Machine.stepped`: the machine after some single steps; `FailsAfter`: the step after them is an error.
* `drive_eq_error`, `run_eq_error`: **a run is an error where single steps come to one.**
* `Machine.Stranded`: no operation has the opcode at the program counter.
* `Tally.peek_of_stranded`, `Tally.peek_of_not_stranded`: there is no instruction exactly there.
* `undecodable_leaves_intact`: **a word that cannot be decoded leaves the machine as it is.**
-/

namespace TinyIsa

open InstructionSet

namespace Machine

variable {Op σ : Type} {s : Status} {m last next : Machine Op σ}

/-! ### The status -/

/-- The machine with another status, unless it has halted. -/
def recast (s : Status) (m : Machine Op σ) : Machine Op σ :=
  { m with status := if m.status = .terminated then .terminated else s }

theorem recast_of_ne (h : m.status ≠ .terminated) : m.recast s = { m with status := s } := by
  unfold recast
  rw [if_neg h]

theorem status_recast_eq_terminated (hs : s ≠ .terminated) :
    (m.recast s).status = .terminated ↔ m.status = .terminated := by
  unfold recast
  by_cases h : m.status = .terminated
  · exact iff_of_true (if_pos h) h
  · exact iff_of_false (by rwa [if_neg h]) h

variable [Host σ]

/-- **An interrupt does not depend on the status.** -/
theorem interrupt_recast (s : Status) (m : Machine Op σ) (i : Interrupt) :
    (m.recast s).interrupt i = (m.interrupt i).map id (recast s) := by
  have hheed : ∀ (m : Machine Op σ) (g : Signal), (m.recast s).heed g = (m.heed g).recast s := by
    intro m g
    cases g <;> rfl
  cases i with
  | input prompt => rfl
  | output text =>
    exact congrArg (Prod.mk none) (hheed
      { m with host := (Host.output text m.host).2, output := m.output.push text } (Host.output text m.host).1)
  | halt => rfl
  | alert message =>
    exact congrArg (Prod.mk none)
      (hheed { m with host := (Host.alert message m.host).2 } (Host.alert message m.host).1)

/-- **The status has no part in what is executed**, but for a machine that has halted. -/
theorem morphism_recast (hs : s ≠ .terminated) : Morphism (recast s : Machine Op σ → Machine Op σ) where
  registers _ := rfl
  memory _ := rfl
  loaded _ := rfl
  terminated _ := status_recast_eq_terminated hs
  setRegister _ _ _ := rfl
  writeMemory _ _ _ := rfl
  interrupt := interrupt_recast s
  count _ := rfl

variable [InstructionSet Op]

/-! ### Single steps -/

/-- The machine after some single steps. -/
def stepped (k : ℕ) (m : Machine Op σ) : Machine Op σ := (fun m => m.step.2)^[k] m

theorem stepped_succ (k : ℕ) (m : Machine Op σ) : m.stepped (k + 1) = m.step.2.stepped k := rfl

theorem stepped_recast (hs : s ≠ .terminated) (k : ℕ) (m : Machine Op σ) :
    (m.recast s).stepped k = (m.stepped k).recast s := by
  induction k generalizing m with
  | zero => rfl
  | succ k ih => rw [stepped_succ, stepped_succ, (morphism_recast hs).step, Prod.map_snd, ih]

/-- A step is an error where there is no instruction to execute, and does nothing. -/
theorem step_eq_error {e : InstructionError} : m.step = (.error e, last) ↔
    m.status ≠ .terminated ∧ m.loaded ≠ 0 ∧ m.peek = .error e ∧ m = last := by
  unfold step
  by_cases ht : m.status = .terminated
  · simp [ht]
  by_cases hl : m.loaded = 0
  · simp [ht, hl]
  cases m.peek <;> simp [ht, hl]

theorem step_of_error {e : InstructionError} (h : m.step.1 = .error e) : m.step = (.error e, m) := by
  have hs : m.step = (.error e, m.step.2) := Prod.ext h rfl
  obtain ⟨-, -, -, hsame⟩ := step_eq_error.1 hs
  rwa [← hsame] at hs

omit [Host σ] in
theorem retire_executed_iff (m : Machine Op σ) (words : ℕ) (flow : Flow) :
    (m.retire words flow).1 = .executed ↔ (m.retire words flow).2.status ≠ .terminated := by
  rw [(retire_spec m words flow).2.2.2]
  unfold retire
  by_cases hs : m.status = .terminated
  · rw [if_pos hs]
    exact iff_of_false Outcome.noConfusion (not_not_intro hs)
  · rw [if_neg hs]
    exact iff_of_true rfl hs

/-- An instruction ends the machine, or is executed and lets it go on. -/
theorem executed_iff {outcome : Outcome} (h : m.step = (.ok outcome, next)) (ho : outcome ≠ .refused) :
    outcome = .executed ↔ next.status ≠ .terminated := by
  obtain ⟨ht, hl⟩ := ready_of_step h ho
  unfold step at h
  rw [if_neg ht, if_neg hl] at h
  cases hp : m.peek with
  | error e => rw [hp] at h; exact absurd (congrArg Prod.fst h) (by simp)
  | ok i =>
    rw [hp] at h
    obtain ⟨houtcome, rfl⟩ := Prod.mk.inj h
    obtain rfl := Except.ok.inj houtcome
    exact retire_executed_iff _ _ _

/-! ### Errors after some steps -/

/-- Single steps execute `k` instructions, and the step after them is an error. -/
structure FailsAfter (k : ℕ) (m : Machine Op σ) (e : InstructionError) : Prop where
  executed : ∀ j < k, (m.stepped j).step.1 = .ok .executed
  error : (m.stepped k).step.1 = .error e

variable {k n : ℕ} {e : InstructionError}

theorem failsAfter_zero : FailsAfter 0 m e ↔ m.step.1 = .error e :=
  ⟨FailsAfter.error, fun h => ⟨fun j hj => absurd hj (Nat.not_lt_zero j), h⟩⟩

theorem failsAfter_succ : FailsAfter (k + 1) m e ↔ m.step.1 = .ok .executed ∧ FailsAfter k m.step.2 e := by
  constructor
  · intro h
    exact ⟨h.executed 0 (Nat.succ_pos k), fun j hj => h.executed (j + 1) (Nat.succ_lt_succ hj), h.error⟩
  · rintro ⟨hfirst, h⟩
    refine ⟨fun j hj => ?_, h.error⟩
    cases j with
    | zero => exact hfirst
    | succ j => exact h.executed j (Nat.lt_of_succ_lt_succ hj)

theorem failsAfter_recast (hs : s ≠ .terminated) : FailsAfter k (m.recast s) e ↔ FailsAfter k m e := by
  have hstep : ∀ j, ((m.recast s).stepped j).step.1 = (m.stepped j).step.1 := by
    intro j
    rw [stepped_recast hs, (morphism_recast hs).step]
    rfl
  constructor
  · exact fun h => ⟨fun j hj => (hstep j).symm.trans (h.executed j hj), (hstep k).symm.trans h.error⟩
  · exact fun h => ⟨fun j hj => (hstep j).trans (h.executed j hj), (hstep k).trans h.error⟩

/-- **Driving a machine is an error** where single steps come to one, as far as it is driven. -/
theorem drive_eq_error (n : ℕ) : ∀ {taken : ℕ} {m last : Machine Op σ}, m.status = .running → m.loaded ≠ 0 →
    (m.drive n taken = (.error e, last) ↔ ∃ k < n, FailsAfter k m e ∧ m.stepped k = last) := by
  induction n with
  | zero =>
    intro taken m last _ _
    simp [drive]
  | succ n ih =>
    intro taken m last hr hl
    rw [Nat.exists_lt_succ_left]
    simp only [failsAfter_zero, failsAfter_succ, stepped_succ]
    change _ ↔ (_ ∧ m = last) ∨ _
    rcases step_of_running hr hl with ⟨e', hs⟩ | ⟨outcome, next, hs, ho, hloaded, -, hpaused⟩
    · rw [drive_of_error hr hs]
      simp [hs]
    · rw [drive_of_running hr hs]
      by_cases hnext : next.status = .running
      · have hexecuted : outcome = .executed := (executed_iff hs ho).2 (by rw [hnext]; decide)
        rw [ih hnext (by rw [hloaded]; exact hl)]
        simp [hs, hexecuted]
      · -- the instruction has ended the machine
        have hterminated : next.status = .terminated := by
          cases hstatus : next.status with
          | running => exact absurd hstatus hnext
          | paused => exact absurd hstatus hpaused
          | terminated => rfl
        have hexecuted : outcome ≠ .executed := fun h => (executed_iff hs ho).1 h hterminated
        rw [drive_of_stopped hnext]
        simp [hs, hexecuted]

omit [InstructionSet Op] [Host σ] in
theorem conclude_eq_error {r : Except InstructionError ℕ × Machine Op σ} :
    conclude r = (.error e, last) ↔ ∃ m, r = (.error e, m) ∧ m.pause = last := by
  rcases r with ⟨e' | taken, m⟩ <;> simp [conclude]

/-- **A run is an error** where single steps come to one within its limit, and is paused there. -/
theorem run_eq_error (ht : m.status ≠ .terminated) (hl : m.loaded ≠ 0) {limit : ℕ} :
    m.run limit = (.error e, last) ↔
      ∃ k < limit, FailsAfter k m e ∧ { m.stepped k with status := .paused } = last := by
  have hrunning : Status.running ≠ .terminated := Status.noConfusion
  -- the started machine differs from this one by its status, and so it does after some steps
  have hpause : ∀ k, FailsAfter k m e →
      ((m.stepped k).recast .running).pause = { m.stepped k with status := .paused } := by
    intro k h
    obtain ⟨hgoes, -⟩ := step_eq_error.1 (step_of_error h.error)
    unfold pause
    rw [recast_of_ne hgoes, if_pos rfl]
  rw [run_of_start (start_of_loaded ht hl), conclude_eq_error, ← recast_of_ne ht]
  have hr : (m.recast .running).status = .running := by
    rw [recast_of_ne ht]
  simp only [drive_eq_error limit hr hl, failsAfter_recast hrunning, stepped_recast hrunning]
  constructor
  · rintro ⟨m', ⟨k, hk, hfails, rfl⟩, hlast⟩
    exact ⟨k, hk, hfails, (hpause k hfails).symm.trans hlast⟩
  · rintro ⟨k, hk, hfails, hlast⟩
    exact ⟨_, ⟨k, hk, hfails, rfl⟩, (hpause k hfails).trans hlast⟩

theorem WellFormed.stepped (h : m.WellFormed) (k : ℕ) : (m.stepped k).WellFormed := by
  induction k generalizing m with
  | zero => exact h
  | succ k ih => exact ih h.step

end Machine

/-! ### Where there is no instruction -/

section

variable {Op σ : Type} [InstructionSet Op]

/-- The first digits of a word are its opcode. -/
theorem toDigits_prefix_iff_opcodeOf (hsize : opcodeSize Op ≤ wordSize Op) {w : Word}
    (hw : w.width = wordSize Op) {n : ℕ} (hn : n < 2 ^ opcodeSize Op) :
    (Word.ofNat (opcodeSize Op) n).toDigits <+: w.toDigits ↔ opcodeOf Op w = n := by
  obtain ⟨k, hk⟩ := Nat.exists_eq_add_of_le hsize
  obtain ⟨width, x⟩ := w
  obtain rfl : width = opcodeSize Op + k := hw.trans hk
  have hshift : wordSize Op - opcodeSize Op = k := by omega
  unfold opcodeOf Word.ofNat
  rw [Word.toDigits_prefix_iff, hshift, BitVec.toNat_ofNat, Nat.mod_eq_of_lt hn]
  rfl

theorem withOpcode?_eq_none {n : ℕ} :
    (withOpcode? n : Option Op) = none ↔ ∀ op ∈ (operations : List Op), opcode op ≠ n := by
  unfold withOpcode?
  simp

namespace Machine

/-- No operation has the opcode of the word at the program counter, its first digits. -/
def Stranded (m : Machine Op σ) : Prop :=
  ∀ op ∈ (operations : List Op),
    ¬ (Word.ofNat (opcodeSize Op) (opcode op)).toDigits <+: (m.readMemory m.pc).toDigits

variable {m : Machine Op σ}

theorem WellFormed.cell_pc (h : m.WellFormed) (hd : DistinctRegisters Op) :
    Instruction.cell Op m.memory m.pc = m.readMemory m.pc := by
  unfold Instruction.cell readMemory
  rw [Nat.mod_eq_of_lt ((h.pc_lt hd).trans_eq h.size.symm)]

theorem WellFormed.width_readMemory (h : m.WellFormed) (address : ℕ) :
    (m.readMemory address).width = wordSize Op := by
  unfold readMemory
  cases hw : m.memory[address % m.memory.size]? with
  | none => rfl
  | some w => exact h.cells w (Array.mem_of_getElem? hw)

end Machine

end

namespace Tally

open Machine

variable {σ : Type} {m : Machine Op σ}

theorem stranded_iff (h : m.WellFormed) :
    m.Stranded ↔ (withOpcode? (opcodeOf Op (m.readMemory m.pc)) : Option Op) = none := by
  rw [withOpcode?_eq_none]
  refine forall₂_congr fun op _ => not_congr ?_
  rw [toDigits_prefix_iff_opcodeOf (by decide) (h.width_readMemory m.pc) (by cases op <;> decide), eq_comm]

/-- **Where no operation has the opcode there is no instruction**, and the word is reported. -/
theorem peek_of_stranded (h : m.WellFormed) (hs : m.Stranded) :
    m.peek = .error (.unknownOpcode (m.readMemory m.pc).text) := by
  unfold peek Instruction.ofMemory
  rw [h.cell_pc (Architecture.distinctRegisters .tally)]
  unfold Instruction.lookup
  rw [(stranded_iff h).1 hs]
  rfl

/-- **Everywhere else there is one.** -/
theorem peek_of_not_stranded (h : m.WellFormed) (hs : ¬ m.Stranded) : ∃ i, m.peek = .ok i := by
  obtain ⟨op, hop⟩ := Option.ne_none_iff_exists'.1 (mt (stranded_iff h).2 hs)
  obtain ⟨args, hargs⟩ := decode_of_binary op (Word.binary_flatMap_toDigits (List.range (words op)) fun k =>
    Instruction.cell Op m.memory (m.pc + k))
  refine ⟨{ Instruction.ofOp op args with address := some m.pc }, ?_⟩
  unfold peek Instruction.ofMemory
  rw [h.cell_pc (Architecture.distinctRegisters .tally)]
  refine bind_eq_ok.2 ⟨op, ?_, bind_eq_ok.2 ⟨args, hargs, rfl⟩⟩
  unfold Instruction.lookup
  rw [hop]
  rfl

variable [Host σ]

/-- **A step is an error exactly where no operation has the opcode.** -/
theorem step_eq_error_iff (h : m.WellFormed) {e : InstructionError} : m.step.1 = .error e ↔
    m.status ≠ .terminated ∧ m.loaded ≠ 0 ∧ m.Stranded ∧ .unknownOpcode (m.readMemory m.pc).text = e := by
  have hpeek : m.peek = .error e ↔ m.Stranded ∧ .unknownOpcode (m.readMemory m.pc).text = e := by
    by_cases hs : m.Stranded
    · rw [peek_of_stranded h hs]
      simp [hs]
    · obtain ⟨i, hi⟩ := peek_of_not_stranded h hs
      simp [hi, hs]
  rw [← hpeek]
  exact ⟨fun hs => by simpa using step_eq_error.1 (step_of_error hs), fun ⟨ht, hl, hp⟩ =>
    congrArg Prod.fst (step_eq_error.2 ⟨ht, hl, hp, rfl⟩)⟩

end Tally

open Machine

/-- **A word that cannot be decoded leaves the machine as it is.** For every reachable machine of Tally
with a program that has not halted, and every host: a step is an error exactly when no operation has
the opcode at the program counter; it names the word there, and the machine is the same afterwards,
host included. A run is an error exactly when single steps within its limit come to one, all of them
executed; it leaves the machine at the word and as the steps have left it, host included, but paused. -/
theorem undecodable_leaves_intact {σ : Type} [Host σ] {m : Machine Tally.Op σ} (h : m.Reachable)
    (ht : m.status ≠ .terminated) (hl : m.loaded ≠ 0) :
    ((∃ e, m.step.1 = .error e) ↔ m.Stranded) ∧
    (∀ e, m.step.1 = .error e → e = .unknownOpcode (m.readMemory m.pc).text ∧ m.step.2 = m) ∧
    ∀ limit e r, m.run limit = r ∨ m.runToEnd limit = some r →
      (r.1 = .error e ↔ ∃ k < limit, (∀ j < k, (m.stepped j).step.1 = .ok .executed) ∧
        (m.stepped k).step = (.error e, m.stepped k) ∧ r.2 = { m.stepped k with status := .paused }) ∧
      (r.1 = .error e → r.2.Stranded ∧ e = .unknownOpcode (r.2.readMemory r.2.pc).text) := by
  have hwell := h.wellFormed
  refine ⟨?_, fun e he => ?_, fun limit e r hr => ?_⟩
  · constructor
    · rintro ⟨e, he⟩
      exact ((Tally.step_eq_error_iff hwell).1 he).2.2.1
    · exact fun hs => ⟨_, (Tally.step_eq_error_iff hwell).2 ⟨ht, hl, hs, rfl⟩⟩
  · obtain ⟨-, -, -, hword⟩ := (Tally.step_eq_error_iff hwell).1 he
    exact ⟨hword.symm, congrArg Prod.snd (step_of_error he)⟩
  · have hrun : m.run limit = r := hr.elim id runToEnd_eq_run
    have hfails : r.1 = .error e ↔
        ∃ k < limit, FailsAfter k m e ∧ { m.stepped k with status := .paused } = r.2 := by
      rw [← run_eq_error ht hl, hrun]
      exact ⟨fun he => Prod.ext he rfl, congrArg Prod.fst⟩
    constructor
    · rw [hfails]
      constructor
      · rintro ⟨k, hk, hf, hlast⟩
        exact ⟨k, hk, hf.executed, step_of_error hf.error, hlast.symm⟩
      · rintro ⟨k, hk, hexecuted, hs, hlast⟩
        exact ⟨k, hk, ⟨hexecuted, congrArg Prod.fst hs⟩, hlast.symm⟩
    · rintro he
      obtain ⟨k, -, hf, hlast⟩ := hfails.1 he
      obtain ⟨-, -, hstranded, hword⟩ := (Tally.step_eq_error_iff (hwell.stepped k)).1 hf.error
      rw [← hlast]
      exact ⟨hstranded, hword.symm⟩

/-- A program that writes its register and runs into a word without an operation, with a host that
records what it is told. -/
theorem undecodable_leaves_intact_after_output : ∃ m : Machine Tally.Op Script,
    m.Reachable ∧ m.status ≠ .terminated ∧ m.loaded = 3 ∧ (m.run 10).1 = .error (.unknownOpcode "11100000") ∧
    ∃ k < 10, (∀ j < k, (m.stepped j).step.1 = .ok .executed) ∧
      (m.stepped k).step = (.error (.unknownOpcode "11100000"), m.stepped k) ∧
      (m.run 10).2 = { m.stepped k with status := .paused } := by
  -- `set 5`, `out` and a word with an unknown opcode
  obtain ⟨m, hm⟩ : ∃ m : Machine Tally.Op Script,
      m = [.loadCode "001001010110000011100000".toList].foldl after (new {}) := ⟨_, rfl⟩
  have hreach : m.Reachable := ⟨({} : Script), _, hm⟩
  have hloaded : m.loaded = 3 := by
    rw [hm]
    cbv
  have hstatus : m.status = .paused := by
    rw [hm]
    cbv
  have hrun : (m.run 10).1 = .error (.unknownOpcode "11100000") := by
    rw [hm]
    cbv
  obtain ⟨-, -, hruns⟩ :=
    undecodable_leaves_intact hreach (by rw [hstatus]; decide) (by rw [hloaded]; decide)
  obtain ⟨hfails, -⟩ := hruns 10 _ _ (Or.inl rfl)
  exact ⟨m, hreach, by rw [hstatus]; decide, hloaded, hrun, hfails.1 hrun⟩

end TinyIsa
