import Mathlib
import TinyIsa.Proofs.Machine.Batch
import TinyIsa.Proofs.Machine.Capacity
import TinyIsa.Proofs.Machine.Representation

/-!
# A running machine and its program

A machine starts only with a program, but a program can be taken away from it while it is running:
its memory is cleared, or nothing is loaded in the place of the program. Nothing else leaves a
machine running without a program.

* `Machine.Supplied`: a machine that has a program if it is running.
* `Call.Unloads`: the calls that leave a machine without a program and do not stop it.
* `Supplied.after`, `not_supplied_of_unloads`: what each call makes of it.
* `supplied_iff`: a machine is supplied all along exactly when no such call finds it running.
* `supplied_drives`: **a supplied machine is never refused a step while it is running.**
-/

namespace TinyIsa

open InstructionSet

/-- The calls that leave a machine without a program, whatever its status: its memory is cleared,
or a text or a program without digits is loaded. -/
inductive Call.Unloads {Op σ : Type} [InstructionSet Op] : Call Op σ → Prop
  | resetMemory : Unloads .resetMemory
  | loadCode {code : List Char} : (∀ c ∈ code, Text.isBlank c = true) → Unloads (.loadCode code)
  | loadProgram {program : List (Instruction Op)} : machineCode program = .ok [] →
      Unloads (.loadProgram program)

namespace Machine

variable {Op σ : Type} [InstructionSet Op] {m m' : Machine Op σ}

/-! ### Loading nothing -/

/-- No program is loaded by a text exactly when it is blank. -/
theorem loaded_of_loadCode [Lawful Op] {code : List Char} (h : m.loadCode code = (.ok (), m')) :
    m'.status = m.status ∧ (m'.loaded = 0 ↔ ∀ c ∈ code, Text.isBlank c = true) := by
  obtain ⟨words, hw, rfl⟩ := loadCode_eq_ok.1 h
  obtain ⟨-, hwidth, hdigits⟩ := (image_eq_ok Lawful.wordSize_pos).1 hw
  have hblank : (∀ c ∈ code, Text.isBlank c = true) ↔ words.flatMap Word.toDigits = [] := by
    rw [hdigits, List.filter_eq_nil_iff]
    simp
  have hlength : (words.flatMap Word.toDigits).length = words.length * wordSize Op :=
    length_flatMap_of_length fun w hmem => (Word.length_toDigits w).trans (hwidth w hmem)
  have hpos : 0 < wordSize Op := Lawful.wordSize_pos
  refine ⟨rfl, ?_⟩
  rw [hblank, ← List.length_eq_zero_iff, hlength, Nat.mul_eq_zero]
  exact (or_iff_left hpos.ne').symm

/-- A blank text is always loaded. -/
theorem loadCode_of_blank [Lawful Op] {code : List Char} (h : ∀ c ∈ code, Text.isBlank c = true)
    (m : Machine Op σ) : ∃ m', m.loadCode code = (.ok (), m') := by
  have hdigits : code.filter (!Text.isBlank ·) = [] := by
    rw [List.filter_eq_nil_iff]
    simpa using h
  exact ⟨_, loadCode_eq_ok.2 ⟨[], (image_eq_ok Lawful.wordSize_pos).2
    ⟨Nat.zero_le _, by simp, hdigits.symm⟩, rfl⟩⟩

/-! ### Supplied machines -/

/-- A machine that has a program if it is running. -/
def Supplied (m : Machine Op σ) : Prop := m.status = .running → m.loaded ≠ 0

omit [InstructionSet Op] in
theorem supplied_of_stopped (h : m.status ≠ .running) : m.Supplied := fun hr => absurd hr h

omit [InstructionSet Op] in
theorem Supplied.congr (h : m.Supplied) (hs : m'.status = m.status) (hl : m'.loaded = m.loaded) :
    m'.Supplied := fun hr => by
  rw [hl]
  exact h (hs.symm.trans hr)

theorem Supplied.loadCode [Lawful Op] (h : m.Supplied) {code : List Char}
    (hc : (∀ c ∈ code, Text.isBlank c = true) → m.status ≠ .running) : (m.loadCode code).2.Supplied := by
  refine loadCode_keeps h fun words hi => ?_
  obtain ⟨hstatus, hloaded⟩ := loaded_of_loadCode (loadCode_eq_ok.2 ⟨words, hi, rfl⟩)
  intro hr hzero
  exact hc (hloaded.1 hzero) (hstatus.symm.trans hr)

variable [Host σ]

omit [InstructionSet Op] in
theorem Supplied.interrupt (h : m.Supplied) (i : Interrupt) : (m.interrupt i).2.Supplied := by
  rcases status_interrupt m i with hs | hs
  · exact h.congr hs (counts_interrupt m i).1
  · exact supplied_of_stopped (by rw [hs]; decide)

theorem Supplied.perform (h : m.Supplied) {α : Type} (x : Action α) : (perform x m).2.Supplied :=
  perform_keeps (fun _ _ _ hm => hm) (fun _ _ _ hm => hm) (fun _ i hm => hm.interrupt i) x m h

theorem Supplied.step (h : m.Supplied) : m.step.2.Supplied := by
  refine step_keeps h (fun _ => h.interrupt _) fun i => ?_
  obtain ⟨-, hloaded, -, hstatus⟩ := retire_spec (m.execute i).2 i.wordCount (m.execute i).1
  exact (h.perform i.body.action).congr hstatus hloaded

omit [InstructionSet Op] in
theorem Supplied.start (h : m.Supplied) : m.start.2.Supplied :=
  start_keeps (fun _ => h.interrupt _) fun _ hl _ => hl

theorem Supplied.run (h : m.Supplied) (limit : ℕ) : (m.run limit).2.Supplied :=
  run_keeps h.start (fun _ hm => hm.step)
    (fun last _ => supplied_of_stopped (status_pause_ne_running last)) limit

/-- **A call that does not take the program away from a running machine** keeps it supplied. -/
theorem Supplied.after [Lawful Op] (h : m.Supplied) {c : Call Op σ}
    (hc : c.Unloads → m.status ≠ .running) : (m.after c).Supplied := by
  cases c with
  | loadProgram program =>
    refine loadProgram_keeps h fun code hcode => h.loadCode fun hblank => hc (.loadProgram ?_)
    -- the digits of a program are not blank, so that there are none
    have hdigits := (machineCode_spec hcode).1.filter_isBlank
    rw [List.filter_eq_nil_iff.2 (by simpa using hblank)] at hdigits
    rw [hcode, ← hdigits]
  | loadCode code => exact h.loadCode fun hblank => hc (.loadCode hblank)
  | start => exact h.start
  | pause => exact supplied_of_stopped (status_pause_ne_running m)
  | halt => exact h.perform (.halt (.done ()))
  | step => exact h.step
  | run limit => exact h.run limit
  | runToEnd fuel => exact after_runToEnd_keeps h (h.run fuel)
  | interrupt i => exact h.interrupt i
  | execute i => exact h.perform i.body.action
  | reset => exact supplied_of_stopped Status.noConfusion
  | resetMemory => exact supplied_of_stopped (hc .resetMemory)
  | resetRegisters => exact h
  | setRegister name value => exact h
  | setPc address => exact h
  | writeMemory address value => exact h
  | changeHost host => exact h

/-- **A call that takes the program away** leaves a running machine running without one. -/
theorem not_supplied_of_unloads [Lawful Op] {c : Call Op σ} (hc : c.Unloads) (hr : m.status = .running) :
    ¬ (m.after c).Supplied := by
  have hload : ∀ {code : List Char}, (∀ c ∈ code, Text.isBlank c = true) →
      ¬ (m.loadCode code).2.Supplied := by
    intro code hblank h
    obtain ⟨m', hl⟩ := loadCode_of_blank hblank m
    obtain ⟨hstatus, hloaded⟩ := loaded_of_loadCode hl
    rw [hl] at h
    exact h (hstatus.trans hr) (hloaded.2 hblank)
  cases hc with
  | resetMemory => exact fun h => h hr rfl
  | loadCode hblank => exact hload hblank
  | @loadProgram program hcode =>
    have hnil : ∀ c ∈ ([] : List Char), Text.isBlank c = true := by simp
    change ¬ (m.loadProgram program).2.Supplied
    rw [loadProgram_of_machineCode hcode]
    exact hload hnil

/-- No call takes the program away from a running machine. -/
def Guarded (m : Machine Op σ) (calls : List (Call Op σ)) : Prop :=
  ∀ before c, before ++ [c] <+: calls → c.Unloads → (before.foldl Machine.after m).status ≠ .running

/-- **A machine is supplied all along** exactly when no call takes its program away while it is
running. -/
theorem supplied_iff [Lawful Op] (h : m.Supplied) (calls : List (Call Op σ)) :
    (∀ before, before <+: calls → (before.foldl Machine.after m).Supplied) ↔ m.Guarded calls := by
  constructor
  · intro hall before c hpre hc hr
    have hbroken := hall _ hpre
    rw [List.foldl_append] at hbroken
    exact not_supplied_of_unloads hc hr hbroken
  · intro hguard before
    -- the invariant is that the machine is supplied, call by call
    induction before using List.reverseRecOn with
    | nil => intro _; exact h
    | append_singleton before c ih =>
      intro hpre
      rw [List.foldl_append]
      exact (ih ((List.prefix_append before [c]).trans hpre)).after (hguard before c hpre)

/-! ### A loop that steps while the machine is running -/

theorem Executes.wellFormed {n : ℕ} {last : Machine Op σ} (h : Executes n m last) (hm : m.WellFormed) :
    last.WellFormed := by
  induction h with
  | refl m => exact hm
  | @step n m next last outcome _ hs _ _ ih =>
    have hnext := hm.step
    rw [hs] at hnext
    exact ih hnext

/-- **A supplied machine is never refused a step while it is running.** The steps of a loop execute an
instruction each, until the machine has stopped or there is no instruction at its program counter. -/
theorem supplied_drives (h : m.Supplied) (n : ℕ) : ∃ k last, k ≤ n ∧ Executes k m last ∧
    last.steps = m.steps + k ∧
    (k = n ∨ last.status ≠ .running ∨ ∃ e, last.step = (.error e, last)) := by
  by_cases hr : m.status = .running
  · obtain ⟨k, last, hk, hexec, hend⟩ := drive_executes n 0 m (h hr)
    have hsteps := (hexec.spec (h hr) (by rw [hr]; decide)).2.1
    refine ⟨k, last, hk, hexec, hsteps, ?_⟩
    rcases hend with ⟨-, hstop⟩ | ⟨e, -, he, -⟩
    · exact hstop.imp_right Or.inl
    · exact Or.inr (Or.inr ⟨e, he⟩)
  · exact ⟨0, m, Nat.zero_le n, .refl m, rfl, Or.inr (Or.inl hr)⟩

end Machine

open Machine

/-- **A running machine has a program unless it was taken away from it.** For both architectures, every
host and every sequence of calls of a new machine: the machine has a program whenever it is running,
all along, exactly when no call that clears its memory or loads a program without words finds it
running. A loop that then goes on stepping the machine while it is running is never refused a step: in
any number of rounds it has executed as many instructions, or the machine has stopped, or, on Tally, it
stands in front of a word that is no instruction. -/
theorem running_has_program (a : Architecture) {σ : Type} [Host σ] (host : σ)
    (calls : List (Call a.Op σ)) :
    ((∀ before, before <+: calls → (before.foldl after (new host)).status = .running →
        (before.foldl after (new host)).loaded ≠ 0) ↔ (new host).Guarded calls) ∧
    ((new host).Guarded calls →
      ∀ n, ∃ k last, k ≤ n ∧ Executes k (calls.foldl after (new host)) last ∧
        last.steps = (calls.foldl after (new host)).steps + k ∧
        (k = n ∨ last.status ≠ .running ∨ a = .tally ∧ ∃ e, last.step = (.error e, last))) := by
  have hnew : (new host : Machine a.Op σ).Supplied := supplied_of_stopped Status.noConfusion
  refine ⟨supplied_iff hnew calls, fun hguard n => ?_⟩
  have hm := (supplied_iff hnew calls).2 hguard calls (List.prefix_refl calls)
  obtain ⟨k, last, hk, hexec, hsteps, hend⟩ := supplied_drives hm n
  refine ⟨k, last, hk, hexec, hsteps, hend.imp_right (Or.imp_right fun he => ?_)⟩
  cases a with
  | tally => exact ⟨rfl, he⟩
  | armlet =>
    -- every word is an instruction there, so that no step is an error
    have hreach : (calls.foldl after (new host) : Machine Architecture.armlet.Op σ).Reachable :=
      ⟨host, calls, rfl⟩
    obtain ⟨e, he⟩ := he
    obtain ⟨outcome, ho⟩ := step_ok (Armlet.peek_ok (hexec.wellFormed hreach.wellFormed))
    exact absurd ((congrArg Prod.fst he).symm.trans ho) (by simp)

/-- A loop that adds one to the register, loaded after the memory was cleared. -/
theorem running_has_program_loop : ∃ calls : List (Call Architecture.tally.Op Silence),
    calls = [.loadCode "11100000".toList, .resetMemory, .loadCode "0100000110011111".toList, .start] ∧
      (new Silence.silence).Guarded calls ∧ (calls.foldl after (new .silence)).status = .running ∧
      ∃ k last, k ≤ 1000 ∧ Executes k (calls.foldl after (new .silence)) last ∧
        last.steps = (calls.foldl after (new .silence)).steps + k ∧
        (k = 1000 ∨ last.status ≠ .running ∨
          Architecture.tally = .tally ∧ ∃ e, last.step = (.error e, last)) := by
  have hguard : (new Silence.silence : Machine Architecture.tally.Op Silence).Guarded
      [.loadCode "11100000".toList, .resetMemory, .loadCode "0100000110011111".toList, .start] := by
    intro before c hpre hc
    have hlen := hpre.length_le
    rw [List.length_append, List.length_singleton] at hlen
    -- the machine is started by the last call only
    obtain ⟨k, hk, rfl⟩ : ∃ k < 4, before = List.take k _ :=
      ⟨_, hlen, List.prefix_iff_eq_take.1 ((List.prefix_append before [c]).trans hpre)⟩
    interval_cases k <;> (cbv; exact Status.noConfusion)
  exact ⟨_, rfl, hguard, by cbv, (running_has_program .tally Silence.silence _).2 hguard 1000⟩

/-- A machine whose memory is cleared while it is running, one that has nothing loaded in the place of
its program, and one that runs into a word that is no instruction. -/
theorem running_without_program : ∃ cleared emptied stuck : Machine Architecture.tally.Op Silence,
    cleared = [.loadCode "00100001".toList, .start, .resetMemory].foldl after (new .silence) ∧
      cleared.status = .running ∧ cleared.loaded = 0 ∧ cleared.step = (.ok .refused, cleared) ∧
    emptied = [.loadCode "00100001".toList, .start, .loadCode []].foldl after (new .silence) ∧
      emptied.status = .running ∧ emptied.loaded = 0 ∧ emptied.step = (.ok .refused, emptied) ∧
    stuck = [.loadCode "11100000".toList, .start].foldl after (new .silence) ∧
      stuck.status = .running ∧ stuck.loaded = 1 ∧
      stuck.step = (.error (.unknownOpcode "11100000"), stuck) := by
  refine ⟨_, _, _, rfl, ?_, ?_, ?_, rfl, ?_, ?_, ?_, rfl, ?_, ?_, ?_⟩ <;> cbv

end TinyIsa
