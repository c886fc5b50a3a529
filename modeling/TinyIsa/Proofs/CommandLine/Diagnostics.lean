import Mathlib
import TinyIsa.CommandLine.Report
import TinyIsa.Proofs.CommandLine.Rounds
import TinyIsa.Proofs.CommandLine.Stdout
import TinyIsa.Proofs.Console.Minimal

/-!
# The standard error of a run in minimal mode

Status lines, prompts, traced instructions, the notice of a halt and the registers are left out. So the
standard error has the alerts only, whatever their messages quote from the input.

* `Machine.raised`: the alerts that a machine raises in a run of its own, read from a journal;
  `alerts_run`: the terminal keeps all of them.
* `Machine.Quiet`: the alerts of the terminal and nothing else are on the standard error. A session keeps
  this, and the report at the end adds nothing.
* `Session.settle`: the rounds of a session raise what driving its machine raises, and end in the session
  that some number of rounds leads to.
* `Session.raises_run`: a session raises the alerts that its machine raises in a run of its own.
* `minimal_shows_alerts`: **what is on the standard error of a run in minimal mode.**
-/

namespace TinyIsa

open Machine Armlet

/-! ### The alerts of a machine -/

/-- The message of an interrupt that is an alert. -/
def Interrupt.alert? : Interrupt → Option String
  | .alert message => some message
  | _ => none

/-- The messages of the alerts that a machine raises when it is run for some number of steps, in order. -/
def Machine.raised {Op σ : Type} [InstructionSet Op] [Host σ] (m : Machine Op σ) (n : ℕ) : List String :=
  (m.journaled.run n).2.told.filterMap Interrupt.alert?

/-- A terminal whose alerts are those in the journal. -/
def Terminal.heard (j : Journal Terminal) : Journal Terminal :=
  { j with host := { j.host with alerts := (j.entries.filterMap Interrupt.alert?).toArray } }

/-- To take the alerts from the journal changes no answer, and commutes with every interrupt. -/
theorem Terminal.morphism_heard : Host.Morphism Terminal.heard where
  input prompt j := by
    obtain ⟨⟨console, lines, alerts⟩, entries⟩ := j
    have hentries : (entries ++ [Interrupt.input prompt]).filterMap Interrupt.alert? =
        entries.filterMap Interrupt.alert? := by simp [Interrupt.alert?]
    rcases lines with _ | ⟨_ | line, lines⟩ <;>
      simp [Terminal.heard, Host.input, Terminal.input, hentries]
  output text j := by
    simp [Terminal.heard, Host.output, Terminal.output, Interrupt.alert?]
  halt j := by
    simp [Terminal.heard, Host.halt, Terminal.halt, Interrupt.alert?]
  alert message j := by
    simp [Terminal.heard, Host.alert, Terminal.alert, Interrupt.alert?]

/-- **A terminal keeps the alerts that were raised**: the run of a machine whose terminal has heard nothing
leaves them in it. -/
theorem alerts_run {m : Machine Op Terminal} (h : m.host.alerts = #[]) (n : ℕ) :
    (m.run n).2.host.alerts.toList = m.raised n := by
  have hfixed : m.journaled.mapHost Terminal.heard = m.journaled := by
    obtain ⟨registers, memory, loaded, status, ⟨console, lines, alerts⟩, output, steps⟩ := m
    obtain rfl : alerts = #[] := h
    rfl
  have hrun := run_mapHost Terminal.morphism_heard n m.journaled
  have herased := run_mapHost Journal.morphism_host n m.journaled
  rw [hfixed] at hrun
  have halerts : (m.journaled.run n).2.host.host.alerts = (m.raised n).toArray :=
    congrArg (fun r => r.2.host.host.alerts) hrun
  have hhost : (m.run n).2.host = (m.journaled.run n).2.host.host := congrArg (fun r => r.2.host) herased
  rw [hhost, halerts]

/-! ### A machine on a terminal in minimal mode -/

namespace Machine

theorem alerts_pause (m : Machine Op Terminal) : m.pause.host.alerts = m.host.alerts :=
  pause_keeps (P := fun m' : Machine Op Terminal => m'.host.alerts = m.host.alerts) rfl fun _ => rfl

theorem alerts_conclude (r : Except InstructionError ℕ × Machine Op Terminal) :
    (conclude r).2.host.alerts = r.2.host.alerts := by
  rcases r with ⟨e | taken, last⟩
  · exact alerts_pause last
  · exact alerts_pause last

/-- The alerts of the terminal, without their escape sequences, are all that is on the standard error. -/
structure Quiet (m : Machine Op Terminal) : Prop where
  wellFormed : m.WellFormed
  mode : m.host.console.minimal = true
  stderr : m.host.console.stderr.toList = plainAlerts m.host.alerts.toList

/-- **An interrupt writes its alert to the standard error**, or nothing. -/
theorem Quiet.interrupt {m : Machine Op Terminal} (h : m.Quiet) (i : Interrupt) : (m.interrupt i).2.Quiet := by
  have hw := h.wellFormed.interrupt i
  cases i with
  | input prompt =>
    refine ⟨hw, (Terminal.minimal_input m.host prompt).trans h.mode, ?_⟩
    have halerts : (Terminal.input prompt m.host).2.alerts = m.host.alerts := by
      obtain ⟨console, lines, alerts⟩ := m.host
      rcases lines with _ | ⟨_ | line, lines⟩ <;> rfl
    change (Terminal.input prompt m.host).2.console.stderr.toList =
      plainAlerts (Terminal.input prompt m.host).2.alerts.toList
    rw [Terminal.stderr_input h.mode, halerts]
    exact h.stderr
  | output text =>
    refine ⟨hw, (Terminal.minimal_output m.host text).trans h.mode, ?_⟩
    change (Terminal.output text m.host).console.stderr.toList = plainAlerts m.host.alerts.toList
    rw [Terminal.stderr_output]
    exact h.stderr
  | halt =>
    refine ⟨hw, (Terminal.minimal_halt m.host).trans h.mode, ?_⟩
    change (Terminal.halt m.host).console.stderr.toList = plainAlerts m.host.alerts.toList
    rw [Terminal.stderr_halt h.mode]
    exact h.stderr
  | alert message =>
    refine ⟨hw, (Terminal.minimal_alert m.host message).trans h.mode, ?_⟩
    change (Terminal.alert message m.host).console.stderr.toList =
      plainAlerts (m.host.alerts.push message).toList
    rw [Terminal.stderr_alert h.mode, String.toList_append, String.toList_ofList, h.stderr, Array.toList_push]
    simp [plainAlerts]

end Machine

theorem kept_quiet : Kept Machine.Quiet := by
  refine kept_of_interrupt Machine.Quiet.wellFormed (fun h hw hhost _ => ?_) (fun _ i h => h.interrupt i) ?_
  · exact ⟨hw, by rw [hhost]; exact h.mode, by rw [hhost]; exact h.stderr⟩
  · intro m f h hf
    refine ⟨h.wellFormed.congr rfl rfl rfl, (hf.mode _).trans h.mode, ?_⟩
    exact (congrArg String.toList (hf.stderr _ h.mode)).trans h.stderr

namespace Session

variable {s t : Session} {m : Machine Op Terminal}

/-- The report at the end of a run is left out. -/
theorem stderr_finish (h : s.machine.Quiet) : s.finish.console.stderr = s.console.stderr ∧
    s.finish.machine.host.alerts = s.machine.host.alerts := by
  refine ⟨?_, s.output_finish.2⟩
  have hmode : s.console.minimal = true := h.mode
  have hstatus : ∀ (c : Console) (rest : String), c.minimal = true →
      (c.status green "Completed" rest).stderr = c.stderr := fun c rest hc =>
    congrArg Console.stderr (Console.status_of_minimal hc _ _ _)
  unfold finish
  simp only
  by_cases ht : s.trace = true
  · have hshown : (s.console.startLine .normal).minimal = true :=
      (s.console.minimal_startLine .normal).trans hmode
    rw [if_pos ht]
    change ((((s.console.startLine .normal).printRegisters .sometimes _).status _ _ _)).stderr = _
    rw [Console.printRegisters_sometimes hshown, hstatus _ _ hshown, Console.stderr_startLine_normal]
  · rw [if_neg ht]
    exact hstatus s.console _ hmode

/-! ### The rounds of a session -/

/-- The number of steps that some more rounds can take when some were taken before. -/
def stepsLeft (limit : Option ℕ) (taken n : ℕ) : ℕ := limit.elim n fun l => min n (l - taken)

theorem stepsLeft_succ {limit : Option ℕ} {taken : ℕ} (h : ∀ l, limit = some l → taken < l) (n : ℕ) :
    stepsLeft limit taken (n + 1) = stepsLeft limit (taken + 1) n + 1 := by
  cases limit with
  | none => rfl
  | some l =>
    have hlt := h l rfl
    change min (n + 1) (l - taken) = min n (l - (taken + 1)) + 1
    omega

theorem Follows.alerts (h : s.Follows m) : s.machine.host.alerts = m.host.alerts :=
  congrArg (fun m : Machine Op Dialogue => m.host.alerts) h

/-- **The rounds raise what driving the machine raises**, as long as the limit allows it; when they come to
their end, then in the session that so many rounds lead to. By induction on the rounds: the machine has
stopped, or the limit is reached, or there is a step. -/
theorem settle (n : ℕ) : ∀ {s : Session} {m : Machine Op Terminal} (taken : ℕ), s.Follows m → m.WellFormed →
    m.loaded ≠ 0 →
      ((fun s : Session => s.round.2)^[n] s).machine.host.alerts =
          (m.drive (stepsLeft s.options.limit m.steps n) taken).2.host.alerts ∧
        ∀ result t, rounds n s = some (result, t) → t = (fun s : Session => s.round.2)^[n] s := by
  induction n with
  | zero =>
    intro s m taken h _ _
    have hnone : stepsLeft s.options.limit m.steps 0 = 0 := by
      cases s.options.limit <;> simp [stepsLeft]
    rw [hnone]
    exact ⟨h.alerts, fun result t hr => absurd hr (by simp [rounds])⟩
  | succ n ih =>
    intro s m taken h hw hl
    by_cases hr : m.status = .running
    · by_cases hlimit : ∀ l, s.options.limit = some l → m.steps < l
      · -- a step
        obtain ⟨outcome, next, hs, ho⟩ := hw.executes hl hr
        obtain ⟨u, hround, hu, hoptions⟩ := round_of_step h hr (limitReached_of_lt h hlimit) hs ho
        obtain ⟨hloaded, hsteps, -⟩ := counts_of_step hr hl hs
        have hnext : next.WellFormed := by
          have hstep := hw.step
          rwa [hs] at hstep
        obtain ⟨halerts, hend⟩ := ih (taken + 1) hu hnext (by rw [hloaded]; exact hl)
        rw [hoptions, hsteps] at halerts
        rw [Function.iterate_succ_apply, hround, stepsLeft_succ hlimit, drive_of_running hr hs]
        refine ⟨halerts, fun result t hrounds => hend result t ?_⟩
        unfold rounds at hrounds
        rwa [hround] at hrounds
      · -- the limit is reached
        push Not at hlimit
        obtain ⟨l, hlim, hle⟩ := hlimit
        obtain ⟨hround, hpaused⟩ := round_of_limit h hr hlim hle
        have hstopped := round_of_stopped hpaused (status_pause_ne_running m)
        have hfixed : (fun s : Session => s.round.2) s.stopAtLimit = s.stopAtLimit :=
          congrArg Prod.snd hstopped
        have hnone : stepsLeft s.options.limit m.steps (n + 1) = 0 := by
          rw [hlim]
          change min (n + 1) (l - m.steps) = 0
          omega
        rw [Function.iterate_succ_apply, hround, Function.iterate_fixed hfixed, hnone]
        refine ⟨hpaused.alerts.trans (alerts_pause m), fun result t hrounds => ?_⟩
        unfold rounds at hrounds
        rw [hround] at hrounds
        exact (Prod.mk.inj (Option.some.inj hrounds)).2.symm
    · -- the machine has stopped
      have hfixed : (fun s : Session => s.round.2) s = s := congrArg Prod.snd (round_of_stopped h hr)
      rw [Function.iterate_fixed hfixed, drive_of_stopped hr]
      refine ⟨h.alerts, fun result t hrounds => ?_⟩
      rw [rounds_of_stopped h hr] at hrounds
      exact (Prod.mk.inj (Option.some.inj hrounds)).2.symm

/-- A machine has heard no alert when its program is loaded. -/
theorem alerts_load {name : String} {options : RunOptions} {trace color : Bool} {lines : List (Option String)}
    {content : Except FileError ByteArray}
    (h : (Session.new name options trace color lines).load content = (.ok (), s)) :
    s.machine.host.alerts = #[] := by
  obtain ⟨word, code, machine, hcode, rfl⟩ := load_eq_ok h
  obtain ⟨words, -, rfl⟩ := loadCode_eq_ok.1 hcode
  rfl

/-- The alerts of a session, after a number of rounds and at the end of a run that takes no more. -/
structure Raises (s : Session) (content : Except FileError ByteArray) (n : ℕ) (alerts : Array String) : Prop where
  rounds : ((fun s : Session => s.round.2)^[n] (s.launch content).2).machine.host.alerts = alerts
  run : ∀ result last, s.run n content = some (result, last) → last.machine.host.alerts = alerts

/-- When the machine is not started, nothing is raised any more. -/
theorem raises_of_refused {content : Except FileError ByteArray} {e : Failure}
    (h : s.launch content = (.error e, t)) (ht : t.Follows m) (hm : m.status ≠ .running) (n : ℕ) :
    s.Raises content n m.host.alerts := by
  have hfixed : (fun s : Session => s.round.2) t = t := congrArg Prod.snd (round_of_stopped ht hm)
  constructor
  · rw [h, Function.iterate_fixed hfixed, ht.alerts]
  · intro result last hlast
    unfold Session.run at hlast
    rw [h] at hlast
    obtain ⟨-, rfl⟩ := Prod.mk.inj (Option.some.inj hlast)
    exact ht.alerts

theorem raises_of_started {content : Except FileError ByteArray} (h : s.launch content = (.ok (), t))
    (ht : t.Follows m) (hw : m.WellFormed) (hl : m.loaded ≠ 0) (n : ℕ) :
    s.Raises content n (m.drive (stepsLeft t.options.limit m.steps n) 0).2.host.alerts := by
  obtain ⟨halerts, hend⟩ := settle n 0 ht hw hl
  constructor
  · rw [h, halerts]
  · intro result last hlast
    unfold Session.run at hlast
    rw [h] at hlast
    obtain ⟨⟨e | _, ended⟩, hrounds, hlast⟩ := Option.map_eq_some_iff.1 hlast
    · obtain ⟨-, rfl⟩ := Prod.mk.inj hlast
      rw [hend _ _ hrounds, halerts]
    · obtain ⟨-, rfl⟩ := Prod.mk.inj hlast
      rw [ended.output_finish.2, hend _ _ hrounds, halerts]

/-- **A session raises the alerts that its machine raises in a run of its own**, started or not. -/
theorem raises_run {name : String} {options : RunOptions} {trace color : Bool} {lines : List (Option String)}
    {content : Except FileError ByteArray}
    (h : (Session.new name options trace color lines).load content = (.ok (), t)) (n : ℕ) :
    (Session.new name options trace color lines).Raises content n
      (t.machine.run (stepsLeft options.limit 0 n)).2.host.alerts := by
  obtain ⟨⟨hw, hsteps, hpaused⟩, hoptions⟩ := fresh_load h
  obtain ⟨u, hlaunch, hu, huoptions⟩ := launch_of_load h
  have ht : t.machine.status ≠ .terminated := by
    rw [hpaused]
    decide
  by_cases hl : t.machine.loaded = 0
  · -- without a program the machine is not started
    have hstart : t.machine.start = (false, t.machine.alert "Cannot start: no program loaded") := by
      unfold Machine.start
      rw [if_neg ht, if_pos hl]
    have hrun : (t.machine.run (stepsLeft options.limit 0 n)).2 =
        t.machine.alert "Cannot start: no program loaded" := by
      unfold Machine.run
      rw [hstart]
    rw [hstart] at hlaunch hu
    rw [hrun]
    exact raises_of_refused hlaunch hu (fun hr => Status.noConfusion (hpaused.symm.trans hr)) n
  · obtain ⟨started, hstart, hwell, hloaded, hzero⟩ : ∃ started, t.machine.start = (true, started) ∧
        started.WellFormed ∧ started.loaded ≠ 0 ∧ started.steps = 0 :=
      ⟨_, start_of_loaded ht hl, hw.congr rfl rfl rfl, hl, hsteps⟩
    rw [hstart] at hlaunch hu
    have hstarted := raises_of_started hlaunch hu hwell hloaded n
    rw [huoptions, hoptions, hzero] at hstarted
    rw [run_of_start hstart, alerts_conclude]
    exact hstarted

end Session

/-! ### The standard error -/

theorem quiet_new (name : String) {options : RunOptions} (h : options.minimal = true) (trace color : Bool)
    (lines : List (Option String)) : (Session.new name options trace color lines).machine.Quiet :=
  ⟨wellFormed_new _, h, rfl⟩

/-- **Minimal mode leaves only plain alerts on the standard error.** Whatever the program in a file that is
loaded is, and whatever the lines to read, the limit, the trace and the styles are: after any number of
rounds, and at the end of the command, there are the lines of the alerts that a run of the loaded machine
raises in as many steps, in order and each without its escape sequences. No escape character is left. -/
theorem minimal_shows_alerts {name : String} {options : RunOptions} {env : Environment} {loaded : Session}
    (hminimal : options.minimal = true)
    (hload : (Session.new name options env.trace env.color env.lines).load (env.folder.read name) =
      (.ok (), loaded)) :
    let launched := ((Session.new name options env.trace env.color env.lines).launch (env.folder.read name)).2
    let alerts := fun n => loaded.machine.raised (Session.stepsLeft options.limit 0 n)
    let plain := fun n (stderr : String) => PlainAlerts (alerts n) stderr ∧ escape ∉ stderr.toList
    (∀ n, plain n ((fun s : Session => s.round.2)^[n] launched).console.stderr) ∧
      ∀ fuel report, (Command.run name options).execute fuel env = some report → plain fuel report.stderr := by
  intro launched alerts plain
  have hnew := quiet_new name hminimal env.trace env.color env.lines
  have hplain : ∀ {n : ℕ} {stderr : String}, stderr.toList = plainAlerts (alerts n) → plain n stderr := fun h =>
    ⟨plainAlerts_iff.2 h, h ▸ not_mem_plainAlerts _⟩
  have hraised : ∀ (n : ℕ) {heard : Array String},
      heard = (loaded.machine.run (Session.stepsLeft options.limit 0 n)).2.host.alerts → heard.toList = alerts n :=
    fun n _ h => h ▸ alerts_run (Session.alerts_load hload) _
  refine ⟨fun n => hplain ?_, fun fuel report hreport => ?_⟩
  · have hquiet := Session.keeps_iterate kept_quiet (Session.keeps_launch kept_quiet hnew (env.folder.read name)) n
    exact hquiet.stderr.trans (congrArg plainAlerts (hraised n (Session.raises_run hload n).rounds))
  · obtain ⟨⟨result, t⟩, hrun, rfl⟩ := Option.map_eq_some_iff.1 hreport
    have halerts := hraised fuel ((Session.raises_run hload fuel).run result t hrun)
    have hstderr : t.console.stderr.toList = plainAlerts t.machine.host.alerts.toList := by
      obtain ⟨last, hlast, rfl | rfl⟩ := Session.keeps_run kept_quiet hnew hrun
      · exact hlast.stderr
      · obtain ⟨hshown, hsame⟩ := Session.stderr_finish hlast
        rw [hshown, hsame]
        exact hlast.stderr
    have hreported : (Report.ofConsole env.folder result t.console).stderr = t.console.stderr := by
      cases result <;> rfl
    rw [hreported]
    exact hplain (hstderr.trans (congrArg plainAlerts halerts))

/-- The alert about a line of input quotes what is seen of it. -/
theorem minimal_shows_alerts_quoted : ∃ (env : Environment) (loaded : Session) (report : Report),
    env.lines = [some "\x1b[31m7\n"] ∧ env.trace = true ∧ env.color = true ∧
    (Session.new "ask.mc" { minimal := true, limit := some 1 } env.trace env.color env.lines).load
      (env.folder.read "ask.mc") = (.ok (), loaded) ∧
    loaded.machine.raised 1 = ["Invalid input `\x1b[31m7`, storing 0"] ∧
    (Command.run "ask.mc" { minimal := true, limit := some 1 }).execute 2 env = some report ∧
    report.stderr = "Alert: Invalid input `7`, storing 0\n" := by
  let folder : Folder := ⟨[("ask.mc", "1011010010000000".toUTF8)]⟩
  let env : Environment := { folder, lines := [some "\x1b[31m7\n"], trace := true, color := true }
  let options : RunOptions := { minimal := true, limit := some 1 }
  let s := (Session.new "ask.mc" options true true env.lines).onConsole (·.status green "Loading" "target ask.mc")
  have hw : s.machine.WellFormed := (wellFormed_new _).congr rfl rfl rfl
  -- the file has the instruction that reads a number
  let m := s.machine.install [⟨16, 0xB480⟩]
  have hm : m.WellFormed := hw.install (by rw [hw.size]; decide) (by decide)
  have hread : env.folder.read "ask.mc" = .ok "1011010010000000".toUTF8 := by decide
  have hload : (Session.new "ask.mc" options env.trace env.color env.lines).load (env.folder.read "ask.mc") =
      (.ok (), { s with machine := m }) := by
    have hcode : s.machine.loadCode "1011010010000000".toList = (.ok (), m) := by
      refine loadCode_eq_ok.2 ⟨_, (image_eq_ok (by decide)).2 ⟨?_, by decide, by decide⟩, rfl⟩
      rw [hw.size]
      decide
    rw [hread]
    exact Session.load_of_loadCode (by decide) (by decide) hcode
  -- which finds none in the line that it reads
  let started : Machine Op Terminal := { m with status := .running }
  have hstarted : started.WellFormed := hm.congr rfl rfl rfl
  have hop : (State.ofMachine started).op = .input :=
    (State.op_ofMachine (x := 0xB480) (by decide) rfl).trans (by decide)
  have hstep := State.step_toMachine (State.ofMachine started) (by decide) (by decide)
  rw [State.toMachine_ofMachine hstarted] at hstep
  have hstart : m.start = (true, started) := start_of_loaded (by decide) (by decide)
  have hdrive : started.drive 1 0 = (.ok 1, (State.ofMachine started).step.2.toMachine) :=
    drive_of_running rfl hstep 0 0
  have hraised : m.raised 1 = ["Invalid input `\x1b[31m7`, storing 0"] := by
    have halerts := State.alerts_step_invalid (s := State.ofMachine started) hop rfl (by decide)
    rw [← alerts_run rfl, run_of_start hstart, hdrive]
    change ((State.ofMachine started).step.2.toMachine.pause).host.alerts.toList = _
    rw [alerts_pause, State.host_toMachine, halerts]
    decide
  -- the rounds come to the limit
  obtain ⟨u, hu, huoptions, hrun⟩ := Session.run_of_load hload (by decide) (by decide)
  obtain ⟨taken, last, -, t, hrounds, -⟩ := Session.rounds_drive (n := 1) hu hstarted Nat.one_ne_zero
    Status.noConfusion (by rw [huoptions]; rfl) (Nat.lt_succ_self 1)
  obtain ⟨report, hreport⟩ : ∃ report, (Command.run "ask.mc" options).execute 2 env = some report := by
    unfold Command.execute
    exact ⟨_, congrArg (Option.map _) ((hrun 2).trans (congrArg (Option.map _) hrounds))⟩
  refine ⟨env, _, report, rfl, rfl, rfl, hload, hraised, hreport, ?_⟩
  obtain ⟨hplain, -⟩ := (minimal_shows_alerts rfl hload).2 2 report hreport
  change PlainAlerts (m.raised 1) report.stderr at hplain
  rw [hraised, plainAlerts_iff] at hplain
  exact String.toList_inj.1 (hplain.trans (by decide))

end TinyIsa
