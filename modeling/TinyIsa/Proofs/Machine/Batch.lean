import Mathlib
import TinyIsa.Proofs.Architecture
import TinyIsa.Proofs.Machine.Termination

/-!
# Running in batches

A run with a limit can be cut into two at any limit that it reaches: to pause and to start again
makes no difference.

* `step_of_running`: what a step of a running machine does.
* `Executes`: some instructions executed in a row by a machine that is running before each of them.
* `drive_executes`: what driving a machine executes; `drive_add`: driving it twice.
* `run_add`: a run that goes on where another one was paused.
* `run_composes`: **a run that reaches its limit and the run after it are one run.**
-/

namespace TinyIsa

namespace Machine

variable {Op σ : Type} [InstructionSet Op] [Host σ] {m last : Machine Op σ}

/-! ### A step -/

omit [InstructionSet Op] in
/-- An interrupt leaves the program and the count alone. -/
theorem counts_interrupt (m : Machine Op σ) (i : Interrupt) :
    (m.interrupt i).2.loaded = m.loaded ∧ (m.interrupt i).2.steps = m.steps := by
  have hheed : ∀ (m' : Machine Op σ) (s : Signal),
      (m'.heed s).loaded = m'.loaded ∧ (m'.heed s).steps = m'.steps := by
    intro m' s
    cases s <;> exact ⟨rfl, rfl⟩
  cases i with
  | input prompt => exact ⟨rfl, rfl⟩
  | output text => exact hheed { m with host := _, output := _ } _
  | halt => exact ⟨rfl, rfl⟩
  | alert message => exact hheed { m with host := _ } _

/-- Executing an action leaves the program and the count alone and pauses nothing. -/
theorem perform_running {α : Type} (x : Action α) (hr : m.status = .running) :
    (perform x m).2.loaded = m.loaded ∧ (perform x m).2.steps = m.steps ∧
      (perform x m).2.status ≠ .paused := by
  refine perform_keeps
    (P := fun m' => m'.loaded = m.loaded ∧ m'.steps = m.steps ∧ m'.status ≠ .paused)
    (fun _ _ _ h => h) (fun _ _ _ h => h) ?_ x m ⟨rfl, rfl, by rw [hr]; decide⟩
  intro m' i ⟨hloaded, hsteps, hstatus⟩
  obtain ⟨hl, hs⟩ := counts_interrupt m' i
  refine ⟨hl.trans hloaded, hs.trans hsteps, ?_⟩
  rcases status_interrupt m' i with h | h
  · rw [h]; exact hstatus
  · rw [h]; decide

omit [Host σ] in
/-- An executed instruction is counted. -/
theorem retire_spec (m : Machine Op σ) (words : ℕ) (flow : Flow) :
    (m.retire words flow).1 ≠ .refused ∧ (m.retire words flow).2.loaded = m.loaded ∧
      (m.retire words flow).2.steps = m.steps + 1 ∧ (m.retire words flow).2.status = m.status := by
  unfold retire
  by_cases hs : m.status = .terminated
  · rw [if_pos hs]
    exact ⟨Outcome.noConfusion, rfl, rfl, rfl⟩
  · rw [if_neg hs]
    cases flow <;> exact ⟨Outcome.noConfusion, rfl, rfl, rfl⟩

/-- **A step of a running machine with a program** is an error and does nothing, or it executes an
instruction, which is counted and does not pause the machine. -/
theorem step_of_running (hr : m.status = .running) (hl : m.loaded ≠ 0) :
    (∃ e, m.step = (.error e, m)) ∨ ∃ outcome next, m.step = (.ok outcome, next) ∧
      outcome ≠ .refused ∧ next.loaded = m.loaded ∧ next.steps = m.steps + 1 ∧
      next.status ≠ .paused := by
  have ht : m.status ≠ .terminated := by rw [hr]; decide
  unfold step
  rw [if_neg ht, if_neg hl]
  cases m.peek with
  | error e => exact Or.inl ⟨e, rfl⟩
  | ok i =>
    obtain ⟨hloaded, hsteps, hstatus⟩ := perform_running i.body.action hr
    obtain ⟨ho, hl', hs', hst'⟩ := retire_spec (m.execute i).2 i.wordCount (m.execute i).1
    exact Or.inr ⟨_, _, rfl, ho, hl'.trans hloaded, hs'.trans (congrArg (· + 1) hsteps),
      fun hpaused => hstatus (hst'.symm.trans hpaused)⟩

/-- An instruction that is executed is counted, and neither pauses the machine nor changes which program is
loaded. -/
theorem counts_of_step (hr : m.status = .running) (hl : m.loaded ≠ 0) {outcome : Outcome}
    {next : Machine Op σ} (hs : m.step = (.ok outcome, next)) :
    next.loaded = m.loaded ∧ next.steps = m.steps + 1 ∧ next.status ≠ .paused := by
  rcases step_of_running hr hl with ⟨e, he⟩ | ⟨outcome', next', hs', -, hnext⟩
  · rw [hs] at he
    exact absurd (congrArg Prod.fst he) (by simp)
  · obtain ⟨-, rfl⟩ := Prod.mk.inj (hs.symm.trans hs')
    exact hnext

/-- An instruction is executed on a machine with a program that has not halted. -/
theorem ready_of_step {outcome : Outcome} {next : Machine Op σ} (hs : m.step = (.ok outcome, next))
    (ho : outcome ≠ .refused) : m.status ≠ .terminated ∧ m.loaded ≠ 0 := by
  unfold step at hs
  by_cases ht : m.status = .terminated
  · rw [if_pos ht] at hs
    exact absurd (Except.ok.inj (Prod.mk.inj hs).1).symm ho
  · rw [if_neg ht] at hs
    refine ⟨ht, fun hl => ?_⟩
    rw [if_pos hl] at hs
    exact absurd (Except.ok.inj (Prod.mk.inj hs).1).symm ho

/-- Some instructions executed one after another. The machine is running before each of them, and
none of them is refused. -/
inductive Executes : ℕ → Machine Op σ → Machine Op σ → Prop
  | refl (m : Machine Op σ) : Executes 0 m m
  | step {n : ℕ} {m next last : Machine Op σ} {outcome : Outcome} : m.status = .running →
      m.step = (.ok outcome, next) → outcome ≠ .refused → Executes n next last →
      Executes (n + 1) m last

/-- Every executed instruction is counted, and none of them pauses the machine or changes which
program is loaded. -/
theorem Executes.spec {n : ℕ} (h : Executes n m last) (hl : m.loaded ≠ 0) (hp : m.status ≠ .paused) :
    last.loaded = m.loaded ∧ last.steps = m.steps + n ∧ last.status ≠ .paused := by
  induction h with
  | refl m => exact ⟨rfl, rfl, hp⟩
  | @step n m next last outcome hr hs _ _ ih =>
    obtain ⟨hloaded, hsteps, hstatus⟩ := counts_of_step hr hl hs
    obtain ⟨h₁, h₂, h₃⟩ := ih (by rw [hloaded]; exact hl) hstatus
    exact ⟨h₁.trans hloaded, by omega, h₃⟩

/-! ### Driving -/

theorem drive_of_running (hr : m.status = .running) {outcome : Outcome} {next : Machine Op σ}
    (hs : m.step = (.ok outcome, next)) (n taken : ℕ) :
    m.drive (n + 1) taken = next.drive n (taken + 1) := by
  rw [drive, if_pos hr, hs]

theorem drive_of_error (hr : m.status = .running) {e : InstructionError} {next : Machine Op σ}
    (hs : m.step = (.error e, next)) (n taken : ℕ) : m.drive (n + 1) taken = (.error e, next) := by
  rw [drive, if_pos hr, hs]

theorem drive_of_stopped (hr : m.status ≠ .running) (n taken : ℕ) : m.drive n taken = (.ok taken, m) := by
  cases n with
  | zero => rfl
  | succ n => rw [drive, if_neg hr]

/-- **What driving a machine executes**: as many instructions as it may, unless the machine stops
running or there is an instruction that is an error. -/
theorem drive_executes (n : ℕ) : ∀ (taken : ℕ) (m : Machine Op σ), m.loaded ≠ 0 →
    ∃ k last, k ≤ n ∧ Executes k m last ∧
      ((m.drive n taken = (.ok (taken + k), last) ∧ (k = n ∨ last.status ≠ .running)) ∨
        ∃ e, last.status = .running ∧ last.step = (.error e, last) ∧
          m.drive n taken = (.error e, last)) := by
  induction n with
  | zero => intro taken m _; exact ⟨0, m, le_rfl, .refl m, Or.inl ⟨rfl, Or.inl rfl⟩⟩
  | succ n ih =>
    intro taken m hl
    by_cases hr : m.status = .running
    · rcases step_of_running hr hl with ⟨e, he⟩ | ⟨outcome, next, hs, ho, hloaded, -, -⟩
      · exact ⟨0, m, Nat.zero_le _, .refl m, Or.inr ⟨e, hr, he, drive_of_error hr he n taken⟩⟩
      · obtain ⟨k, last, hk, hexec, hend⟩ := ih (taken + 1) next (by rw [hloaded]; exact hl)
        have hcount : taken + 1 + k = taken + (k + 1) := by omega
        rw [drive_of_running hr hs]
        refine ⟨k + 1, last, by omega, .step hr hs ho hexec, ?_⟩
        rcases hend with ⟨hd, hstop⟩ | hd
        · rw [hcount] at hd
          exact Or.inl ⟨hd, hstop.imp_left (congrArg (· + 1))⟩
        · exact Or.inr hd
    · exact ⟨0, m, Nat.zero_le _, .refl m, Or.inl ⟨drive_of_stopped hr _ _, Or.inr hr⟩⟩

/-- Steps that were taken before are counted in front. -/
theorem drive_taken (n k : ℕ) : ∀ (taken : ℕ) (m : Machine Op σ),
    m.drive n (k + taken) = (m.drive n taken).map (Except.map (k + ·)) id := by
  induction n with
  | zero => intro taken m; rfl
  | succ n ih =>
    intro taken m
    by_cases hr : m.status = .running
    · rcases hs : m.step with ⟨e | outcome, next⟩
      · rw [drive_of_error hr hs, drive_of_error hr hs]
        rfl
      · rw [drive_of_running hr hs, drive_of_running hr hs]
        exact ih (taken + 1) next
    · rw [drive_of_stopped hr, drive_of_stopped hr]
      rfl

/-- **Driving a machine on** for some more steps is driving it for all of them at once. -/
theorem drive_add (n k : ℕ) : ∀ {taken total : ℕ} {m next : Machine Op σ},
    m.drive n taken = (.ok total, next) → m.drive (n + k) taken = next.drive k total := by
  induction n with
  | zero =>
    intro taken total m next h
    obtain ⟨hcount, rfl⟩ := Prod.mk.inj h
    obtain rfl := Except.ok.inj hcount
    rw [Nat.zero_add]
  | succ n ih =>
    intro taken total m next h
    rw [Nat.succ_add_eq_add_succ, Nat.add_succ]
    by_cases hr : m.status = .running
    · rcases hs : m.step with ⟨e | outcome, m'⟩
      · rw [drive_of_error hr hs] at h
        exact absurd (congrArg Prod.fst h) (by simp)
      · rw [drive_of_running hr hs] at h ⊢
        exact ih h
    · -- a machine that has stopped goes on in no way
      rw [drive_of_stopped hr] at h ⊢
      obtain ⟨hcount, rfl⟩ := Prod.mk.inj h
      obtain rfl := Except.ok.inj hcount
      rw [drive_of_stopped hr]

/-! ### A run -/

/-- The end of a run, from what driving the machine came to. -/
def conclude : Except InstructionError ℕ × Machine Op σ → Except InstructionError Summary × Machine Op σ
  | (.error e, last) => (.error e, last.pause)
  | (.ok taken, last) => (.ok ⟨taken, last.pause.status⟩, last.pause)

omit [InstructionSet Op] [Host σ] in
theorem conclude_taken (k : ℕ) (r : Except InstructionError ℕ × Machine Op σ) :
    conclude (r.map (Except.map (k + ·)) id) =
      (conclude r).map (Except.map fun second => ⟨k + second.steps, second.status⟩) id := by
  rcases r with ⟨e | taken, last⟩ <;> rfl

theorem run_of_start {started : Machine Op σ} (h : m.start = (true, started)) (n : ℕ) :
    m.run n = conclude (started.drive n 0) := by
  unfold run
  rw [h]
  simp only
  rcases started.drive n 0 with ⟨e | taken, last⟩ <;> rfl

omit [InstructionSet Op] in
theorem start_of_loaded (ht : m.status ≠ .terminated) (hl : m.loaded ≠ 0) :
    m.start = (true, { m with status := .running }) := by
  unfold start
  rw [if_neg ht, if_neg hl]

omit [InstructionSet Op] in
/-- A machine that was paused while it was running is running again once it is started. -/
theorem start_pause (hr : m.status = .running) (hl : m.loaded ≠ 0) : m.pause.start = (true, m) := by
  have hpause : m.pause = { m with status := .paused } := by
    unfold pause
    rw [if_pos hr]
  have hsame : ({ m with status := .running } : Machine Op σ) = m := by
    rw [← hr]
  have ht : m.pause.status ≠ .terminated := by
    rw [hpause]
    exact Status.noConfusion
  have hl' : m.pause.loaded ≠ 0 := by
    rw [hpause]
    exact hl
  rw [start_of_loaded ht hl', hpause]
  exact congrArg (Prod.mk true) hsame

omit [InstructionSet Op] [Host σ] in
theorem status_pause_ne_running (m : Machine Op σ) : m.pause.status ≠ .running := by
  unfold pause
  by_cases hr : m.status = .running
  · rw [if_pos hr]
    exact Status.noConfusion
  · rw [if_neg hr]
    exact hr

omit [InstructionSet Op] [Host σ] in
theorem steps_pause (m : Machine Op σ) : m.pause.steps = m.steps := by
  unfold pause
  by_cases hr : m.status = .running
  · rw [if_pos hr]
  · rw [if_neg hr]

/-- **A run that reaches its limit** has left a machine that was running: the next run goes on
from there. -/
theorem run_add (ht : m.status ≠ .terminated) (hl : m.loaded ≠ 0) {n : ℕ} {first : Summary}
    (h : (m.run n).1 = .ok first) (hfirst : first.status = .paused) (k : ℕ) :
    m.run (n + k) = ((m.run n).2.run k).map
      (Except.map fun second => ⟨first.steps + second.steps, second.status⟩) id := by
  have hstart := start_of_loaded ht hl
  obtain ⟨count, last, -, hexec, hend⟩ :=
    drive_executes n 0 ({ m with status := .running } : Machine Op σ) hl
  obtain ⟨hloaded, -, hstatus⟩ := hexec.spec hl Status.noConfusion
  rw [run_of_start hstart] at h
  rw [run_of_start hstart, run_of_start hstart]
  rcases hend with ⟨hd, -⟩ | ⟨e, -, -, hd⟩
  · rw [hd] at h
    obtain rfl := Except.ok.inj h
    -- no instruction pauses the machine, so that it was the run that paused it
    have hr : last.status = .running := by
      by_contra hr
      have hsame : last.pause = last := by
        unfold pause
        rw [if_neg hr]
      exact hstatus ((congrArg Machine.status hsame).symm.trans hfirst)
    have hnext : last.pause.start = (true, last) := start_pause hr (by rw [hloaded]; exact hl)
    rw [drive_add n k hd, hd]
    change conclude (last.drive k (0 + count + 0)) = (last.pause.run k).map _ id
    rw [run_of_start hnext, drive_taken, conclude_taken]
  · rw [hd] at h
    exact absurd h (by simp [conclude])

end Machine

open Machine

/-- **A run that reaches its limit and the run after it are one run.** For every machine with a
program that has not been terminated, and every host: a run executes at most as many instructions
as its limit says, none of which is refused, does not leave the machine running, and counts what it
executed; it ends in front of an instruction that is an error, at the limit, or where the machine has
stopped. A run that was paused at its limit can be continued by another one, and together they are
the run with the sum of their limits: they come to the same result with the same machine, host
included, and their counts add up. -/
theorem run_composes (a : Architecture) {σ : Type} [Host σ] {m : Machine a.Op σ}
    (ht : m.status ≠ .terminated) (hl : m.loaded ≠ 0) :
    (∀ n, ∃ taken last, taken ≤ n ∧ Executes taken { m with status := .running } last ∧
      (m.run n).2 = last.pause ∧ (m.run n).2.status ≠ .running ∧ (m.run n).2.steps = m.steps + taken ∧
      ((m.run n).1 = .ok ⟨taken, (m.run n).2.status⟩ ∧ (taken = n ∨ last.status ≠ .running) ∨
        ∃ e, last.step = (.error e, last) ∧ (m.run n).1 = .error e)) ∧
    ∀ n k first, (m.run n).1 = .ok first → first.status = .paused →
      m.run (n + k) = ((m.run n).2.run k).map
        (Except.map fun second => ⟨first.steps + second.steps, second.status⟩) id := by
  refine ⟨fun n => ?_, fun n k first h hfirst => run_add ht hl h hfirst k⟩
  obtain ⟨taken, last, hle, hexec, hend⟩ :=
    drive_executes n 0 ({ m with status := .running } : Machine a.Op σ) hl
  obtain ⟨-, hsteps, -⟩ := hexec.spec hl Status.noConfusion
  have hcount : last.pause.steps = m.steps + taken := (steps_pause last).trans hsteps
  refine ⟨taken, last, hle, hexec, ?_⟩
  rw [run_of_start (start_of_loaded ht hl)]
  rcases hend with ⟨hd, hstop⟩ | ⟨e, -, hs, hd⟩
  · rw [hd, Nat.zero_add]
    exact ⟨rfl, status_pause_ne_running last, hcount, Or.inl ⟨rfl, hstop⟩⟩
  · rw [hd]
    exact ⟨rfl, status_pause_ne_running last, hcount, Or.inr ⟨e, hs, rfl⟩⟩

/-- A loop that adds one to the register, paused after two instructions. -/
theorem run_composes_paused : ∃ (m : Machine Architecture.tally.Op Script) (first : Summary),
    m.status = .paused ∧ m.loaded = 2 ∧ (m.run 2).1 = .ok first ∧ first = ⟨2, .paused⟩ ∧
    m.run (2 + 3) = ((m.run 2).2.run 3).map
      (Except.map fun second => ⟨first.steps + second.steps, second.status⟩) id := by
  -- `add 1` and a branch back to it
  let m : Machine Architecture.tally.Op Script := (Machine.new {}).install [⟨8, 0x41⟩, ⟨8, 0x9F⟩]
  have hrun : (m.run 2).1 = .ok ⟨2, .paused⟩ := by cbv
  exact ⟨m, _, rfl, rfl, hrun, rfl,
    (run_composes .tally (m := m) Status.noConfusion (by decide)).2 2 3 _ hrun rfl⟩

end TinyIsa
