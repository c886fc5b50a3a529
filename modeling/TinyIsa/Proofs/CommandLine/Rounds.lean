import Mathlib
import TinyIsa.Proofs.CommandLine.Mode
import TinyIsa.Proofs.Machine.Batch
import TinyIsa.Proofs.Machine.Representation

/-!
# The rounds of a session and the run of its machine

A session takes the steps of its machine one round after another, counts them by the counter of
the machine, and shows each of them if it is traced. A run of the machine has a count of its own
and shows nothing. The two come to the same.

* `Session.Follows`: the machine of a session is a given one, but for what is shown.
* `round_of_step`: a round takes the step that the machine takes.
* `rounds_executes`: the rounds take all instructions that the machine executes.
* `Machine.Fresh`: a machine with a program on which nothing was executed.
* `session_agrees`: **running a file leaves the machine as its own run would leave it.**
-/

namespace TinyIsa

open Machine Armlet

namespace Session

/-- The machine of a session is a given one, but for the console: registers, memory, program,
status, output and count of steps are the same, and so are the lines to be read and the alerts. -/
def Follows (s : Session) (m : Machine Op Terminal) : Prop :=
  s.machine.mapHost Terminal.dialogue = m.mapHost Terminal.dialogue

variable {s : Session} {m last next : Machine Op Terminal}

theorem Follows.status (h : s.Follows m) : s.machine.status = m.status :=
  congrArg (fun m : Machine Op Dialogue => m.status) h

theorem Follows.steps (h : s.Follows m) : s.machine.steps = m.steps :=
  congrArg (fun m : Machine Op Dialogue => m.steps) h

theorem Follows.peek (h : s.Follows m) : s.machine.peek = m.peek := by
  rw [← peek_mapHost Terminal.dialogue, h, peek_mapHost]

/-! ### A round -/

/-- A machine that executes an instruction has found one. -/
theorem peek_of_step {outcome : Outcome} (hr : m.status = .running) (hs : m.step = (.ok outcome, next))
    (ho : outcome ≠ .refused) : ∃ i, m.peek = .ok i := by
  have ht : m.status ≠ .terminated := by
    rw [hr]
    decide
  unfold Machine.step at hs
  rw [if_neg ht] at hs
  by_cases hl : m.loaded = 0
  · rw [if_pos hl] at hs
    obtain ⟨hrefused, -⟩ := Prod.mk.inj hs
    exact absurd (Except.ok.inj hrefused).symm ho
  · rw [if_neg hl] at hs
    cases hp : m.peek with
    | error e =>
      rw [hp] at hs
      exact absurd (congrArg Prod.fst hs) (by simp)
    | ok i => exact ⟨i, rfl⟩

/-- A session takes the step of its machine. -/
theorem stepOnce_of_step (h : s.Follows m) {outcome : Outcome} (hs : m.step = (.ok outcome, next))
    (ho : outcome ≠ .refused) :
    ∃ t : Session, s.stepOnce = (.ok true, t) ∧ t.Follows next ∧ t.options = s.options := by
  have hstep := step_mapHost Terminal.morphism_dialogue s.machine
  have hsame : s.machine.mapHost Terminal.dialogue = m.mapHost Terminal.dialogue := h
  rw [hsame, step_mapHost Terminal.morphism_dialogue, hs] at hstep
  rcases hown : s.machine.step with ⟨result, machine⟩
  rw [hown] at hstep
  obtain ⟨hresult, hmachine⟩ := Prod.mk.inj hstep
  obtain rfl : Except.ok outcome = result := hresult
  refine ⟨{ s with machine }, ?_, hmachine.symm, rfl⟩
  unfold Session.stepOnce
  simp only [hown]
  cases outcome with
  | executed => rfl
  | halted => rfl
  | refused => exact absurd rfl ho

/-- **A round takes the step of the machine**, traced or not. -/
theorem round_of_step (h : s.Follows m) (hr : m.status = .running) (hlimit : s.limitReached = false)
    {outcome : Outcome} (hs : m.step = (.ok outcome, next)) (ho : outcome ≠ .refused) :
    ∃ t : Session, s.round = (.ok true, t) ∧ t.Follows next ∧ t.options = s.options := by
  have hrunning : ¬s.machine.status ≠ .running := by
    rw [h.status, hr]
    decide
  unfold Session.round
  rw [if_neg hrunning, hlimit, if_neg Bool.false_ne_true]
  by_cases ht : s.trace = true
  · -- the instruction is shown first, which only writes to the console
    obtain ⟨i, hi⟩ := peek_of_step hr hs ho
    rw [if_pos ht]
    unfold Session.showNext
    rw [h.peek, hi]
    exact stepOnce_of_step (s := s.onConsole (·.print .sometimes (traceLine s.machine.pc i))) h hs ho
  · rw [if_neg ht]
    exact stepOnce_of_step h hs ho

theorem limitReached_of_lt (h : s.Follows m) (hlimit : ∀ n, s.options.limit = some n → m.steps < n) :
    s.limitReached = false := by
  unfold limitReached
  cases hn : s.options.limit with
  | none => rfl
  | some n =>
    rw [h.steps]
    simpa using hlimit n hn

/-- A session whose machine has stopped takes no more rounds. -/
theorem round_of_stopped (h : s.Follows m) (hs : m.status ≠ .running) : s.round = (.ok false, s) := by
  unfold Session.round
  rw [if_pos (by rw [h.status]; exact hs)]

theorem rounds_of_stopped (h : s.Follows m) (hs : m.status ≠ .running) (fuel : ℕ) :
    rounds (fuel + 1) s = some (.ok (), s) := by
  unfold Session.rounds
  rw [round_of_stopped h hs]

/-- Nor does one that has reached its limit: its machine is paused. -/
theorem round_of_limit (h : s.Follows m) (hr : m.status = .running) {n : ℕ}
    (hlimit : s.options.limit = some n) (hn : n ≤ m.steps) :
    s.round = (.ok false, s.stopAtLimit) ∧ s.stopAtLimit.Follows m.pause := by
  have hrunning : ¬s.machine.status ≠ .running := by
    rw [h.status, hr]
    decide
  have hreached : s.limitReached = true := by
    unfold limitReached
    rw [hlimit, h.steps]
    simpa using hn
  have hsame : s.machine.mapHost Terminal.dialogue = m.mapHost Terminal.dialogue := h
  constructor
  · unfold Session.round
    rw [if_neg hrunning, if_pos hreached]
  · change s.machine.pause.mapHost Terminal.dialogue = m.pause.mapHost Terminal.dialogue
    rw [← pause_mapHost, ← pause_mapHost, hsame]

theorem rounds_of_limit (h : s.Follows m) (hr : m.status = .running) {n : ℕ}
    (hlimit : s.options.limit = some n) (hn : n ≤ m.steps) (fuel : ℕ) :
    ∃ t : Session, rounds (fuel + 1) s = some (.ok (), t) ∧ t.Follows m.pause := by
  obtain ⟨hround, hpaused⟩ := round_of_limit h hr hlimit hn
  refine ⟨s.stopAtLimit, ?_, hpaused⟩
  unfold Session.rounds
  rw [hround]

/-! ### All rounds -/

/-- **The rounds take all instructions that the machine executes**, as long as the limit allows it. -/
theorem rounds_executes {k : ℕ} (hexec : Executes k m last) (hl : m.loaded ≠ 0) :
    ∀ {s : Session}, s.Follows m → (∀ n, s.options.limit = some n → m.steps + k ≤ n) →
      ∃ t : Session, t.Follows last ∧ t.options = s.options ∧
        ∀ fuel, rounds (fuel + k) s = rounds fuel t := by
  induction hexec with
  | refl m => intro s h _; exact ⟨s, h, rfl, fun _ => rfl⟩
  | @step k m next last outcome hr hs ho _ ih =>
    intro s h hlimit
    obtain ⟨hloaded, hsteps, -⟩ := counts_of_step hr hl hs
    have hfirst : s.limitReached = false := limitReached_of_lt h fun n hn => by
      have := hlimit n hn
      omega
    obtain ⟨t, hround, ht, hoptions⟩ := round_of_step h hr hfirst hs ho
    obtain ⟨u, hu, hoptions', hrounds⟩ := ih (by rw [hloaded]; exact hl) ht fun n hn => by
      have := hlimit n (hoptions ▸ hn)
      omega
    refine ⟨u, hu, hoptions'.trans hoptions, fun fuel => ?_⟩
    rw [← hrounds fuel, ← Nat.add_assoc, rounds, hround]

end Session

/-! ### A machine with a program -/

/-- A machine with a program on which nothing was executed. -/
structure Machine.Fresh (m : Machine Op Terminal) : Prop where
  wellFormed : m.WellFormed
  steps : m.steps = 0
  status : m.status = .paused

namespace Session

variable {s t : Session}

theorem afterLoad_eq_ok {r : Except LoadError Unit × Machine Op Terminal} (h : s.afterLoad r = (.ok (), t)) :
    ∃ machine, r = (.ok (), machine) ∧ t = { s with machine } := by
  obtain ⟨e | u, machine⟩ := r
  · exact absurd (congrArg Prod.fst h) (by simp [afterLoad, Except.mapError])
  · exact ⟨machine, rfl, (congrArg Prod.snd h).symm⟩

/-- The text of a file of machine code is loaded as it stands. -/
theorem load_of_loadCode {bytes : ByteArray} {text : String} {machine : Machine Op Terminal}
    (hname : Path.extension? s.name = some "mc") (htext : textOfBytes bytes = .ok text)
    (hcode : (s.onConsole (·.status green "Loading" (targetText s.name))).machine.loadCode text.toList =
      (.ok (), machine)) :
    s.load (.ok bytes) =
      (.ok (), { s.onConsole (·.status green "Loading" (targetText s.name)) with machine }) := by
  unfold Session.load
  rw [hname]
  simp only [bind, Except.bind, htext]
  rw [hcode]
  rfl

/-- A file that is loaded has the digits of a program, behind a status line. -/
theorem load_eq_ok {content : Except FileError ByteArray} (h : s.load content = (.ok (), t)) :
    ∃ (word : String) (code : List Char) (machine : Machine Op Terminal),
      (s.onConsole (·.status green word (targetText s.name))).machine.loadCode code = (.ok (), machine) ∧
        t = { s.onConsole (·.status green word (targetText s.name)) with machine } := by
  unfold Session.load at h
  split at h
  · -- a source file
    cases hprogram : programOfBytes content with
    | error e =>
      rw [hprogram] at h
      exact absurd (congrArg Prod.fst h) (by simp)
    | ok program =>
      rw [hprogram] at h
      obtain ⟨machine, hmachine, rfl⟩ := afterLoad_eq_ok h
      obtain ⟨code, -, hcode⟩ := loadProgram_eq_ok.1 hmachine
      exact ⟨_, code, machine, hcode, rfl⟩
  · -- a file of machine code
    cases htext : content >>= textOfBytes with
    | error e =>
      rw [htext] at h
      exact absurd (congrArg Prod.fst h) (by simp)
    | ok text =>
      rw [htext] at h
      obtain ⟨machine, hcode, rfl⟩ := afterLoad_eq_ok h
      exact ⟨_, text.toList, machine, hcode, rfl⟩
  · exact absurd (congrArg Prod.fst h) (by simp)
  · exact absurd (congrArg Prod.fst h) (by simp)

/-- **A file is loaded into a fresh machine.** -/
theorem fresh_load {name : String} {options : RunOptions} {trace color : Bool} {lines : List (Option String)}
    {content : Except FileError ByteArray}
    (h : (Session.new name options trace color lines).load content = (.ok (), s)) :
    s.machine.Fresh ∧ s.options = options := by
  obtain ⟨word, code, machine, hcode, rfl⟩ := load_eq_ok h
  let blank := Session.new name options trace color lines
  have hblank : (blank.onConsole (·.status green word (targetText blank.name))).machine.WellFormed :=
    (wellFormed_new _).congr rfl rfl rfl
  have hwell := hblank.loadCode code
  rw [hcode] at hwell
  obtain ⟨words, -, rfl⟩ := loadCode_eq_ok.1 hcode
  exact ⟨⟨hwell, rfl, rfl⟩, rfl⟩

/-- A loaded program is started on the machine of the session. -/
theorem launch_of_load {content : Except FileError ByteArray} (h : s.load content = (.ok (), t)) :
    ∃ u : Session, s.launch content = (if t.machine.start.1 then .ok () else .error .notStarted, u) ∧
      u.Follows t.machine.start.2 ∧ u.options = t.options := by
  let shown := t.onConsole (·.status green "Running" "loaded program")
  have halike : shown.Alike t := ⟨rfl, rfl, rfl, rfl⟩
  obtain ⟨hstarted, hmachine⟩ := halike.start
  refine ⟨{ shown with machine := shown.machine.start.2 }, ?_, hmachine, rfl⟩
  unfold launch
  rw [h]
  simp only
  rw [← hstarted]

/-- A loaded program is started, and then the rounds begin. -/
theorem run_of_load {content : Except FileError ByteArray} (h : s.load content = (.ok (), t))
    (ht : t.machine.status ≠ .terminated) (hl : t.machine.loaded ≠ 0) :
    ∃ u : Session, u.Follows { t.machine with status := .running } ∧ u.options = t.options ∧
      ∀ fuel, s.run fuel content = (rounds fuel u).map ending := by
  obtain ⟨u, hlaunch, hu, hoptions⟩ := launch_of_load h
  rw [start_of_loaded ht hl] at hlaunch hu
  refine ⟨u, hu, hoptions, fun fuel => ?_⟩
  unfold run
  rw [hlaunch]
  rfl

/-- A session that came to its end without a failure and a run that did so agree: the machine of the
session is that of the run. -/
def Agrees (r : Except Failure Unit × Session) (r' : Except InstructionError Summary × Machine Op Terminal) :
    Prop :=
  r.1 = .ok () ∧ (∃ summary, r'.1 = .ok summary) ∧ r.2.Follows r'.2

theorem Follows.agrees {m : Machine Op Terminal} (h : s.Follows m) (summary : Summary) :
    Agrees (ending (.ok (), s)) (.ok summary, m) := by
  have hfinish : s.finish.machine.mapHost Terminal.dialogue = s.machine.mapHost Terminal.dialogue := by
    unfold finish
    simp only
    by_cases ht : s.trace = true
    · rw [if_pos ht]
      rfl
    · rw [if_neg ht]
      rfl
  exact ⟨rfl, ⟨summary, rfl⟩, hfinish.trans h⟩

end Session

/-- Driving an Armlet machine is no error, so that all instructions up to the end are executed. -/
theorem Machine.WellFormed.drive {m : Machine Op Terminal} (h : m.WellFormed) (hl : m.loaded ≠ 0) (n : ℕ) :
    ∃ k last, k ≤ n ∧ Executes k m last ∧ last.WellFormed ∧ m.drive n 0 = (.ok k, last) ∧
      (k = n ∨ last.status ≠ .running) := by
  obtain ⟨total, htotal⟩ := drive_ok (P := WellFormed) (fun _ hm => hm.step)
    (fun _ hm => step_ok (Armlet.peek_ok hm)) n 0 m h
  have hlast := drive_keeps (P := WellFormed) (fun _ hm => hm.step) n 0 m h
  obtain ⟨k, last, hk, hexec, ⟨hd, hstop⟩ | ⟨e, -, -, hd⟩⟩ := drive_executes n 0 m hl
  · rw [Nat.zero_add] at hd
    rw [hd] at hlast
    exact ⟨k, last, hk, hexec, hlast, hd, hstop⟩
  · rw [hd] at htotal
    exact absurd htotal (by simp)

/-- A running Armlet machine with a program executes an instruction. -/
theorem Machine.WellFormed.executes {m : Machine Op Terminal} (h : m.WellFormed) (hl : m.loaded ≠ 0)
    (hr : m.status = .running) : ∃ outcome next, m.step = (.ok outcome, next) ∧ outcome ≠ .refused := by
  obtain ⟨outcome, ho⟩ := step_ok (Armlet.peek_ok h)
  rcases step_of_running hr hl with ⟨e, he⟩ | ⟨outcome', next, hs, hrefused, -⟩
  · rw [he] at ho
    exact absurd ho (by simp)
  · exact ⟨outcome', next, hs, hrefused⟩

namespace Session

variable {s : Session} {m : Machine Op Terminal}

/-- **With a limit** the rounds end where driving the machine does, at the limit with a pause. -/
theorem rounds_drive (h : s.Follows m) (hw : m.WellFormed) (hl : m.loaded ≠ 0) (hp : m.status ≠ .paused)
    {n : ℕ} (hlimit : s.options.limit = some (m.steps + n)) {fuel : ℕ} (hfuel : n < fuel) :
    ∃ taken last, m.drive n 0 = (.ok taken, last) ∧
      ∃ t : Session, rounds fuel s = some (.ok (), t) ∧ t.Follows last.pause := by
  obtain ⟨k, last, hk, hexec, -, hdrive, hstop⟩ := hw.drive hl n
  obtain ⟨-, hcount, -⟩ := hexec.spec hl hp
  obtain ⟨t, ht, htoptions, hrounds⟩ := rounds_executes hexec hl h fun n' hn' => by
    obtain rfl : n' = m.steps + n := Option.some.inj (hn'.symm.trans hlimit)
    omega
  obtain ⟨rest, rfl⟩ : ∃ rest, fuel = rest + 1 + k := ⟨fuel - 1 - k, by omega⟩
  refine ⟨k, last, hdrive, ?_⟩
  rw [hrounds]
  by_cases hr : last.status = .running
  · -- the counter of the machine reaches the limit when the count of the run does
    obtain rfl : k = n := hstop.resolve_right (not_not_intro hr)
    exact rounds_of_limit ht hr (htoptions ▸ hlimit) hcount.ge rest
  · have hsame : last.pause = last := if_neg hr
    exact ⟨t, rounds_of_stopped ht hr rest, hsame.symm ▸ ht⟩

/-- **Without a limit** the rounds end when the machine has stopped. -/
theorem rounds_driveToEnd (h : s.Follows m) (hw : m.WellFormed) (hl : m.loaded ≠ 0)
    (hp : m.status ≠ .paused) (hlimit : s.options.limit = none) (fuel : ℕ) :
    ∃ taken last, m.drive fuel 0 = (.ok taken, last) ∧
      (last.status = .running ∧ rounds (fuel + 1) s = none ∨
        last.status ≠ .running ∧ ∃ t : Session, rounds (fuel + 1) s = some (.ok (), t) ∧ t.Follows last) := by
  obtain ⟨k, last, hk, hexec, hlast, hdrive, hstop⟩ := hw.drive hl fuel
  have hnone : ∀ n, s.options.limit ≠ some n := fun n hn => absurd (hn.symm.trans hlimit) (by simp)
  obtain ⟨t, ht, htoptions, hrounds⟩ := rounds_executes hexec hl h fun n hn => absurd hn (hnone n)
  obtain ⟨rest, hrest⟩ : ∃ rest, fuel + 1 = rest + 1 + k := ⟨fuel - k, by omega⟩
  refine ⟨k, last, hdrive, ?_⟩
  rw [hrest, hrounds]
  by_cases hr : last.status = .running
  · -- out of rounds: there is another instruction to be executed
    obtain rfl : k = fuel := hstop.resolve_right (not_not_intro hr)
    obtain rfl : rest = 0 := by omega
    have hfree : t.limitReached = false := limitReached_of_lt ht fun n hn =>
      absurd (htoptions ▸ hn) (hnone n)
    obtain ⟨hloaded, -, -⟩ := hexec.spec hl hp
    obtain ⟨outcome, next, hs, ho⟩ := hlast.executes (hloaded ▸ hl) hr
    obtain ⟨u, hu, -, -⟩ := round_of_step ht hr hfree hs ho
    refine Or.inl ⟨hr, ?_⟩
    unfold rounds
    rw [hu]
    rfl
  · exact Or.inr ⟨hr, t, rounds_of_stopped ht hr rest, ht⟩

end Session

/-- **Running a file leaves the machine as its own run would leave it.** Whatever the program in the
file is, as long as it has a word, and whatever the lines to read, the limit, the trace, the styles and
the mode are: with a limit the session comes to its end, and without one it comes to its end exactly
when the run of the loaded machine does. There is no failure, and the machine of the session has the
same registers, memory, status, output and count of steps as that run leaves, was warned of the same,
and has left the same lines to be read. -/
theorem session_agrees {name : String} {options : RunOptions} {trace color : Bool}
    {lines : List (Option String)} {content : Except FileError ByteArray} {loaded : Session}
    (hload : (Session.new name options trace color lines).load content = (.ok (), loaded))
    (hl : loaded.machine.loaded ≠ 0) :
    (∀ n, options.limit = some n → ∀ fuel, n < fuel → ∃ r,
      (Session.new name options trace color lines).run fuel content = some r ∧
        Session.Agrees r (loaded.machine.run n)) ∧
    (options.limit = none → ∀ fuel, Option.Rel Session.Agrees
      ((Session.new name options trace color lines).run (fuel + 1) content) (loaded.machine.runToEnd fuel)) := by
  obtain ⟨⟨hw, hsteps, hpaused⟩, hoptions⟩ := Session.fresh_load hload
  have ht : loaded.machine.status ≠ .terminated := by
    rw [hpaused]
    decide
  have hstart := start_of_loaded ht hl
  obtain ⟨s, hs, hsoptions, hrun⟩ := Session.run_of_load hload ht hl
  have hwell : ({ loaded.machine with status := .running } : Machine Op Terminal).WellFormed :=
    hw.congr rfl rfl rfl
  have hlimit : s.options.limit = options.limit := by rw [hsoptions, hoptions]
  refine ⟨fun n hn fuel hfuel => ?_, fun hnone fuel => ?_⟩
  · obtain ⟨taken, last, hdrive, t, hrounds, ht⟩ := Session.rounds_drive hs hwell hl Status.noConfusion
      (by rw [hlimit, hn, hsteps, Nat.zero_add]) hfuel
    refine ⟨_, (hrun fuel).trans (congrArg (Option.map Session.ending) hrounds), ?_⟩
    rw [run_of_start hstart, hdrive]
    exact ht.agrees _
  · obtain ⟨taken, last, hdrive, hend⟩ :=
      Session.rounds_driveToEnd hs hwell hl Status.noConfusion (hlimit.trans hnone) fuel
    have htoEnd : loaded.machine.runToEnd fuel =
        if last.status = .running then none else some (.ok ⟨taken, last.status⟩, last) := by
      unfold runToEnd
      rw [hstart]
      simp only
      rw [hdrive]
    rw [hrun, htoEnd]
    rcases hend with ⟨hr, hrounds⟩ | ⟨hr, t, hrounds, ht⟩
    · rw [if_pos hr, hrounds]
      exact Option.Rel.none
    · rw [if_neg hr, hrounds]
      exact Option.Rel.some (ht.agrees _)

/-- A traced program that halts with the last instruction that it may execute. -/
theorem session_agrees_halted : ∃ loaded : Session,
    (Session.new "halt.mc" { limit := some 1 } true false []).load (.ok "0000010000000000".toUTF8) =
      (.ok (), loaded) ∧ loaded.machine.loaded = 1 ∧
    ∃ r, (Session.new "halt.mc" { limit := some 1 } true false []).run 2
        (.ok "0000010000000000".toUTF8) = some r ∧ Session.Agrees r (loaded.machine.run 1) := by
  let start : Session := Session.new "halt.mc" { limit := some 1 } true false []
  let s := start.onConsole (·.status green "Loading" (targetText start.name))
  have hload : start.load (.ok "0000010000000000".toUTF8) =
      (.ok (), { s with machine := s.machine.install [⟨16, 0x400⟩] }) := by
    have hsize : s.machine.memory.size = 2 ^ 16 := (wellFormed_new _).size
    have hname : Path.extension? start.name = some "mc" := by decide
    have htext : textOfBytes "0000010000000000".toUTF8 = .ok "0000010000000000" := by decide
    have hcode : s.machine.loadCode "0000010000000000".toList = (.ok (), s.machine.install [⟨16, 0x400⟩]) := by
      refine loadCode_eq_ok.2 ⟨_, (image_eq_ok (by decide)).2 ⟨?_, by decide, by decide⟩, rfl⟩
      rw [hsize]
      decide
    exact Session.load_of_loadCode hname htext hcode
  exact ⟨_, hload, rfl, (session_agrees hload Nat.one_ne_zero).1 1 rfl 2 (by decide)⟩

end TinyIsa
