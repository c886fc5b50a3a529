import Mathlib
import TinyIsa.Machine.Load
import TinyIsa.Machine.Run
import TinyIsa.Proofs.InstructionSet
import TinyIsa.Proofs.Machine.Image
import TinyIsa.Proofs.Registers

/-!
# What can be done to a machine

A machine is built and then called from outside, any number of times, in any order and with
any arguments. Between two calls its host may change on its own.

* `Call`, `Machine.after`: the calls and what a machine is after one of them.
* `Machine.Reachable`: the machines that calls lead to.
* `Machine.WellFormed`: the shape of a machine; `Reachable.wellFormed`: no call changes it.
* `Machine.perform_keeps`: what each access of an action keeps is kept by the action.
* `Machine.step_keeps`, `Machine.run_keeps` and so on: what the parts of a call keep, the call keeps.
-/

namespace TinyIsa

/-- A call of a machine from outside. -/
inductive Call (Op σ : Type) where
  | loadProgram (program : List (Instruction Op))
  | loadCode (code : List Char)
  | start
  | pause
  | halt
  | step
  | run (limit : ℕ)
  /-- A run without a limit that ends within some number of steps. -/
  | runToEnd (fuel : ℕ)
  | interrupt (i : Interrupt)
  | execute (i : Instruction Op)
  | reset
  | resetMemory
  | resetRegisters
  | setRegister (name : String) (value : Word)
  | setPc (address : ℕ)
  | writeMemory (address : ℕ) (value : Word)
  /-- The host changes on its own. -/
  | changeHost (host : σ)

namespace Machine

variable {Op σ : Type} [InstructionSet Op]

/-- A machine after a call. -/
def after [Host σ] (m : Machine Op σ) : Call Op σ → Machine Op σ
  | .loadProgram program => (m.loadProgram program).2
  | .loadCode code => (m.loadCode code).2
  | .start => m.start.2
  | .pause => m.pause
  | .halt => m.halt
  | .step => m.step.2
  | .run limit => (m.run limit).2
  | .runToEnd fuel => ((m.runToEnd fuel).map Prod.snd).getD m
  | .interrupt i => (m.interrupt i).2
  | .execute i => (m.execute i).2
  | .reset => m.reset
  | .resetMemory => m.resetMemory
  | .resetRegisters => m.resetRegisters
  | .setRegister name value => (m.setRegister name value).2
  | .setPc address => m.setPc address
  | .writeMemory address value => m.writeMemory address value
  | .changeHost host => { m with host }

/-- A machine that some calls lead to. -/
def Reachable [Host σ] (m : Machine Op σ) : Prop :=
  ∃ (host : σ) (calls : List (Call Op σ)), m = calls.foldl after (new host)

/-- What a new machine has and every call keeps, every reachable machine has. -/
theorem Reachable.induction [Host σ] {P : Machine Op σ → Prop} (hnew : ∀ host, P (new host))
    (hafter : ∀ m c, P m → P (m.after c)) {m : Machine Op σ} (h : m.Reachable) : P m := by
  obtain ⟨host, calls, rfl⟩ := h
  have key : ∀ (calls : List (Call Op σ)) (m : Machine Op σ), P m → P (calls.foldl after m) := by
    intro calls
    induction calls with
    | nil => intro m hm; exact hm
    | cons c calls ih => intro m hm; exact ih _ (hafter m c hm)
  exact key calls _ (hnew host)

theorem reachable_new [Host σ] (host : σ) : (new host : Machine Op σ).Reachable := ⟨host, [], rfl⟩

theorem Reachable.after [Host σ] {m : Machine Op σ} (h : m.Reachable) (c : Call Op σ) :
    (m.after c).Reachable := by
  obtain ⟨host, calls, rfl⟩ := h
  exact ⟨host, calls ++ [c], by rw [List.foldl_append]; rfl⟩

/-- One action after another is performed one after another. -/
theorem perform_bind [Host σ] {α β : Type} (x : Action α) (f : α → Action β) :
    ∀ m : Machine Op σ, perform (x >>= f) m = perform (f (perform x m).1) (perform x m).2 := by
  induction x with
  | done a => intro m; rfl
  | readRegister name next ih => intro m; exact ih _ m
  | writeRegister name value next ih => intro m; exact ih _
  | readCounter next ih => intro m; exact ih _ m
  | readMemory address next ih => intro m; exact ih _ m
  | writeMemory address value next ih => intro m; exact ih _
  | interrupt i next ih => intro m; exact ih _ _
  | halt next ih => intro m; exact ih _

/-- **What each access of an action keeps, the action keeps.** -/
theorem perform_keeps [Host σ] {P : Machine Op σ → Prop}
    (hregister : ∀ m name value, P m → P (m.setRegister name value).2)
    (hmemory : ∀ m address value, P m → P (m.writeMemory address value))
    (hinterrupt : ∀ m i, P m → P (m.interrupt i).2) {α : Type} (a : Action α) :
    ∀ m : Machine Op σ, P m → P (perform a m).2 := by
  induction a with
  | done a => intro m hm; exact hm
  | readRegister name next ih => intro m hm; exact ih _ m hm
  | writeRegister name value next ih => intro m hm; exact ih _ (hregister m name value hm)
  | readCounter next ih => intro m hm; exact ih _ m hm
  | readMemory address next ih => intro m hm; exact ih _ m hm
  | writeMemory address value next ih => intro m hm; exact ih _ (hmemory m address value hm)
  | interrupt i next ih => intro m hm; exact ih _ _ (hinterrupt m i hm)
  | halt next ih =>
    intro m hm
    refine ih _ ?_
    -- a machine that has halted is left alone, any other is interrupted
    unfold halt
    by_cases h : m.status = .terminated
    · rw [if_pos h]; exact hm
    · rw [if_neg h]; exact hinterrupt m _ hm

/-- What a step keeps, driving a machine keeps. -/
theorem drive_keeps [Host σ] {P : Machine Op σ → Prop} (hstep : ∀ m, P m → P m.step.2) (n : ℕ) :
    ∀ (taken : ℕ) (m : Machine Op σ), P m → P (m.drive n taken).2 := by
  induction n with
  | zero => intro taken m hm; exact hm
  | succ n ih =>
    intro taken m hm
    have h := hstep m hm
    unfold drive
    by_cases hr : m.status = .running
    · rw [if_pos hr]
      cases hs : m.step with
      | mk r m' =>
        rw [hs] at h
        cases r with
        | error e => exact h
        | ok o => exact ih _ m' h
    · rw [if_neg hr]; exact hm

/-- A run that ends within some number of steps is the run with this limit. -/
theorem runToEnd_eq_run [Host σ] {m : Machine Op σ} {fuel : ℕ}
    {r : Except InstructionError Summary × Machine Op σ} (h : m.runToEnd fuel = some r) : m.run fuel = r := by
  unfold Machine.runToEnd at h
  unfold Machine.run
  cases hs : m.start with
  | mk started m' =>
    rw [hs] at h
    cases started with
    | false => exact Option.some.inj h
    | true =>
      simp only at h ⊢
      cases hd : m'.drive fuel 0 with
      | mk o m'' =>
        rw [hd] at h
        cases o with
        | error e => exact Option.some.inj h
        | ok taken =>
          simp only at h ⊢
          by_cases hr : m''.status = .running
          · rw [if_pos hr] at h; exact absurd h (by simp)
          · rw [if_neg hr] at h
            -- a machine that came to its end is not running, so that pausing does nothing
            have hp : m''.pause = m'' := by unfold Machine.pause; rw [if_neg hr]
            rw [hp]
            exact Option.some.inj h

/-! ### What the parts of a call keep -/

section

variable {P : Machine Op σ → Prop} {m : Machine Op σ}

omit [InstructionSet Op] in
theorem pause_keeps (hm : P m) (hpause : m.status = .running → P { m with status := .paused }) :
    P m.pause := by
  unfold pause
  by_cases hs : m.status = .running
  · rw [if_pos hs]; exact hpause hs
  · rw [if_neg hs]; exact hm

theorem retire_keeps (hcount : P { m with steps := m.steps + 1 })
    (hpc : ∀ address, P ({ m with steps := m.steps + 1 }.setPc address)) (words : ℕ) (flow : Flow) :
    P (m.retire words flow).2 := by
  unfold retire
  by_cases ht : m.status = .terminated
  · rw [if_pos ht]; exact hcount
  · rw [if_neg ht]
    cases flow with
    | next => exact hpc _
    | jump target => exact hpc target

/-- A load keeps what the installation of an image keeps. -/
theorem loadCode_keeps (hm : P m) {code : List Char}
    (hinstall : ∀ words, image Op m.memory.size code = .ok words → P (m.install words)) :
    P (m.loadCode code).2 := by
  rcases loadCode_cases m code with ⟨e, -, hl⟩ | ⟨words, hi, hl⟩
  · rw [hl]; exact hm
  · rw [hl]; exact hinstall words hi

/-- Loading a program keeps what loading its digits keeps. -/
theorem loadProgram_keeps (hm : P m) {program : List (Instruction Op)}
    (hload : ∀ code, machineCode program = .ok code → P (m.loadCode code).2) :
    P (m.loadProgram program).2 := by
  rcases loadProgram_cases m program with ⟨e, -, hl⟩ | ⟨code, hc, hl⟩
  · rw [hl]; exact hm
  · rw [hl]; exact hload code hc

theorem Reachable.loadProgram [Host σ] {m' : Machine Op σ} (h : m.Reachable)
    {program : List (Instruction Op)} (hl : m.loadProgram program = (.ok (), m')) : m'.Reachable := by
  have hafter := h.after (.loadProgram program)
  change (m.loadProgram program).2.Reachable at hafter
  rwa [hl] at hafter

variable [Host σ]

omit [InstructionSet Op] in
/-- A machine warns or starts. -/
theorem start_keeps (halert : ∀ message, P (m.alert message))
    (hstart : m.status ≠ .terminated → m.loaded ≠ 0 → P { m with status := .running }) :
    P m.start.2 := by
  unfold start
  by_cases hs : m.status = .terminated
  · rw [if_pos hs]; exact halert _
  rw [if_neg hs]
  by_cases hl : m.loaded = 0
  · rw [if_pos hl]; exact halert _
  · rw [if_neg hl]; exact hstart hs hl

/-- A step warns, does nothing or executes an instruction. -/
theorem step_keeps (hm : P m) (halert : ∀ message, P (m.alert message))
    (hexecute : ∀ i, P ((m.execute i).2.retire i.wordCount (m.execute i).1).2) : P m.step.2 := by
  unfold step
  by_cases hs : m.status = .terminated
  · rw [if_pos hs]; exact halert _
  rw [if_neg hs]
  by_cases hl : m.loaded = 0
  · rw [if_pos hl]; exact halert _
  rw [if_neg hl]
  cases m.peek with
  | error e => exact hm
  | ok i => exact hexecute i

/-- **What starting, each step and pausing keep, a run keeps.** -/
theorem run_keeps (hstart : P m.start.2) (hstep : ∀ m, P m → P m.step.2)
    (hpause : ∀ m, P m → P m.pause) (limit : ℕ) : P (m.run limit).2 := by
  unfold run
  rcases hs : m.start with ⟨started, m'⟩
  rw [hs] at hstart
  cases started with
  | false => exact hstart
  | true =>
    have hdrive := drive_keeps hstep limit 0 m' hstart
    simp only
    rcases hd : m'.drive limit 0 with ⟨r, m''⟩
    rw [hd] at hdrive
    cases r <;> exact hpause _ hdrive

theorem after_runToEnd_keeps (hm : P m) {fuel : ℕ} (hrun : P (m.run fuel).2) :
    P (m.after (.runToEnd fuel)) := by
  change P (((m.runToEnd fuel).map Prod.snd).getD m)
  cases hr : m.runToEnd fuel with
  | none => exact hm
  | some r =>
    rw [runToEnd_eq_run hr] at hrun
    exact hrun

end

/-! ### The shape of a machine -/

/-- A machine with the registers, the memory and the room that its architecture asks for. -/
structure WellFormed (m : Machine Op σ) : Prop where
  shape : m.registers.shape = (Registers.ofSpecs (registerSpecs Op)).shape
  grounded : m.registers.Grounded
  size : m.memory.size = InstructionSet.capacity Op
  cells : ∀ w ∈ m.memory, w.width = InstructionSet.wordSize Op
  loaded_le : m.loaded ≤ InstructionSet.capacity Op

/-- Status, host, output and count of a machine have no part in its shape. -/
theorem WellFormed.congr {m m' : Machine Op σ} (h : m.WellFormed) (hr : m'.registers = m.registers)
    (hm : m'.memory = m.memory) (hl : m'.loaded = m.loaded) : m'.WellFormed :=
  ⟨hr ▸ h.shape, hr ▸ h.grounded, hm ▸ h.size, hm ▸ h.cells, hl ▸ h.loaded_le⟩

theorem wellFormed_new (host : σ) : (new host : Machine Op σ).WellFormed where
  shape := rfl
  grounded := Registers.grounded_ofSpecs _
  size := Array.size_replicate
  cells w hw := by rw [(Array.mem_replicate.1 hw).2]; rfl
  loaded_le := Nat.zero_le _

variable {m : Machine Op σ}

theorem WellFormed.setRegister (h : m.WellFormed) (name : String) (value : Word) :
    (m.setRegister name value).2.WellFormed where
  shape := (Registers.shape_assign name value).trans h.shape
  grounded := Registers.grounded_assign h.grounded name value
  size := h.size
  cells := h.cells
  loaded_le := h.loaded_le

theorem WellFormed.setPc (h : m.WellFormed) (address : ℕ) : (m.setPc address).WellFormed :=
  h.setRegister _ _

theorem WellFormed.resetRegisters (h : m.WellFormed) : m.resetRegisters.WellFormed where
  shape := Registers.shape_reset.trans h.shape
  grounded := Registers.grounded_reset
  size := h.size
  cells := h.cells
  loaded_le := h.loaded_le

theorem WellFormed.writeMemory (h : m.WellFormed) (address : ℕ) (value : Word) :
    (m.writeMemory address value).WellFormed where
  shape := h.shape
  grounded := h.grounded
  size := by
    unfold Machine.writeMemory
    rw [Array.size_modify]
    exact h.size
  cells w hw := by
    obtain ⟨i, hi, rfl⟩ := Array.getElem_of_mem hw
    unfold Machine.writeMemory at hi ⊢
    rw [Array.size_modify] at hi
    simp only [Array.getElem_modify]
    by_cases hj : address % m.memory.size = i
    · rw [if_pos hj]
      change m.memory[i].width = _
      exact h.cells _ (Array.getElem_mem hi)
    · rw [if_neg hj]; exact h.cells _ (Array.getElem_mem hi)
  loaded_le := h.loaded_le

theorem WellFormed.resetMemory (h : m.WellFormed) : m.resetMemory.WellFormed where
  shape := h.shape
  grounded := h.grounded
  size := Array.size_replicate.trans h.size
  cells w hw := by rw [(Array.mem_replicate.1 hw).2]; rfl
  loaded_le := Nat.zero_le _

theorem WellFormed.reset (h : m.WellFormed) : m.reset.WellFormed :=
  h.resetMemory.resetRegisters.congr rfl rfl rfl

theorem WellFormed.install (h : m.WellFormed) {words : List Word} (hlen : words.length ≤ m.memory.size)
    (hw : ∀ w ∈ words, w.width = InstructionSet.wordSize Op) : (m.install words).WellFormed := by
  let blanks := List.replicate (m.memory.size - words.length) (InstructionSet.blankWord Op)
  have hfilled : ({ m with memory := (words ++ blanks).toArray, loaded := words.length } :
      Machine Op σ).WellFormed := by
    refine ⟨h.shape, h.grounded, ?_, ?_, ?_⟩
    · have := h.size
      simp only [blanks, List.size_toArray, List.length_append, List.length_replicate]
      omega
    · intro w hmem
      rcases List.mem_append.1 (List.mem_toArray.1 hmem) with hmem | hmem
      · exact hw w hmem
      · rw [(List.mem_replicate.1 hmem).2]; rfl
    · exact hlen.trans h.size.le
  exact hfilled.setPc 0

/-- The image of a text fits a machine that it was read for. -/
theorem WellFormed.install_image [InstructionSet.Lawful Op] (h : m.WellFormed) {code : List Char}
    {words : List Word} (hi : image Op m.memory.size code = .ok words) : (m.install words).WellFormed := by
  obtain ⟨hlen, hwidth, -⟩ := (image_eq_ok InstructionSet.Lawful.wordSize_pos).1 hi
  exact h.install hlen hwidth

theorem WellFormed.loadCode [InstructionSet.Lawful Op] (h : m.WellFormed) (code : List Char) :
    (m.loadCode code).2.WellFormed :=
  loadCode_keeps h fun _ hi => h.install_image hi

theorem WellFormed.loadProgram [InstructionSet.Lawful Op] (h : m.WellFormed)
    (program : List (Instruction Op)) : (m.loadProgram program).2.WellFormed :=
  loadProgram_keeps h fun code _ => h.loadCode code

variable [Host σ]

/-- An interrupt changes the host, the output and the status only. -/
theorem WellFormed.interrupt (h : m.WellFormed) (i : Interrupt) : (m.interrupt i).2.WellFormed := by
  have heed : ∀ (m : Machine Op σ) (s : Signal), m.WellFormed → (m.heed s).WellFormed := by
    intro m s hm
    cases s with
    | resume => exact hm
    | terminate => exact hm.congr rfl rfl rfl
  cases i with
  | input prompt => exact h.congr rfl rfl rfl
  | output text => exact heed _ _ (h.congr rfl rfl rfl)
  | halt => exact h.congr rfl rfl rfl
  | alert message => exact heed _ _ (h.congr rfl rfl rfl)

theorem WellFormed.perform (h : m.WellFormed) {α : Type} (a : Action α) : (perform a m).2.WellFormed :=
  perform_keeps (fun _ name value hm => hm.setRegister name value)
    (fun _ address value hm => hm.writeMemory address value) (fun _ i hm => hm.interrupt i) a m h

theorem WellFormed.halt (h : m.WellFormed) : m.halt.WellFormed := h.perform (.halt (.done ()))

omit [Host σ] in
theorem WellFormed.retire (h : m.WellFormed) (words : ℕ) (flow : Flow) :
    (m.retire words flow).2.WellFormed := by
  have hcount : ({ m with steps := m.steps + 1 } : Machine Op σ).WellFormed := h.congr rfl rfl rfl
  exact retire_keeps hcount hcount.setPc words flow

theorem WellFormed.step (h : m.WellFormed) : m.step.2.WellFormed :=
  step_keeps h (fun _ => h.interrupt _) fun i => (h.perform i.body.action).retire _ _

theorem WellFormed.start (h : m.WellFormed) : m.start.2.WellFormed :=
  start_keeps (fun _ => h.interrupt _) fun _ _ => h.congr rfl rfl rfl

omit [Host σ] in
theorem WellFormed.pause (h : m.WellFormed) : m.pause.WellFormed :=
  pause_keeps h fun _ => h.congr rfl rfl rfl

theorem WellFormed.run (h : m.WellFormed) (limit : ℕ) : (m.run limit).2.WellFormed :=
  run_keeps h.start (fun _ hm => hm.step) (fun _ hm => hm.pause) limit

/-- **No call changes the shape of a machine.** -/
theorem WellFormed.after [InstructionSet.Lawful Op] (h : m.WellFormed) (c : Call Op σ) :
    (m.after c).WellFormed := by
  cases c with
  | loadProgram program => exact h.loadProgram program
  | loadCode code => exact h.loadCode code
  | start => exact h.start
  | pause => exact h.pause
  | halt => exact h.halt
  | step => exact h.step
  | run limit => exact h.run limit
  | runToEnd fuel => exact after_runToEnd_keeps h (h.run fuel)
  | interrupt i => exact h.interrupt i
  | execute i => exact h.perform i.body.action
  | reset => exact h.reset
  | resetMemory => exact h.resetMemory
  | resetRegisters => exact h.resetRegisters
  | setRegister name value => exact h.setRegister name value
  | setPc address => exact h.setPc address
  | writeMemory address value => exact h.writeMemory address value
  | changeHost host => exact h.congr rfl rfl rfl

/-- **Every reachable machine has the shape of a new one.** -/
theorem Reachable.wellFormed [InstructionSet.Lawful Op] (h : m.Reachable) : m.WellFormed :=
  h.induction wellFormed_new fun _ c hm => hm.after c

end Machine

end TinyIsa
