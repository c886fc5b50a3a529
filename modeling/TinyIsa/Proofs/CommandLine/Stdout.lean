import Mathlib
import TinyIsa.CommandLine.Session
import TinyIsa.Proofs.Armlet.Terminal
import TinyIsa.Proofs.CommandLine.Mode
import TinyIsa.Proofs.CommandLine.Rounds
import TinyIsa.Proofs.Console.Minimal

/-!
# The standard output of a run

* `Discreet`: what may be done to the console without a trace on the standard output.
* `Kept`: what outlasts all that a session does; `kept_of_interrupt`: what every interrupt keeps does.
* `kept_faithful`: only the output of the machine is there. A session keeps this, round after round,
  and the report at the end adds nothing.
* `stdout_run`: **what is on the standard output of a run**, and by how much the modes differ.
-/

namespace TinyIsa

open Armlet

/-! ### What a session keeps -/

/-- The machine with a change of its console. -/
def Machine.onConsole (m : Machine Op Terminal) (f : Console → Console) : Machine Op Terminal :=
  { m with host := { m.host with console := f m.host.console } }

/-- A change of the console that ends a line on the standard output at most. At the start of a
line it does nothing there and stays at the start of a line. In minimal mode it does nothing on the
standard error. -/
structure Discreet (f : Console → Console) : Prop where
  mode : ∀ c, (f c).minimal = c.minimal
  lineStart : ∀ c, c.lineStart = true → (f c).lineStart = true
  stdout : ∀ c, (f c).stdout = c.stdout ∨ (f c).stdout = c.stdout ++ c.rest
  stderr : ∀ c, c.minimal = true → (f c).stderr = c.stderr

theorem discreet_status (codes word rest : String) : Discreet (·.status codes word rest) where
  mode c := c.minimal_status _ _ _
  lineStart c hc := (c.lineStart_status _ _ _).trans hc
  stdout c := Or.inl (c.stdout_status _ _ _)
  stderr _ h := congrArg Console.stderr (Console.status_of_minimal h _ _ _)

/-- A line that is left out in minimal mode. -/
theorem discreet_print {text : String} (h : Closed text.toList) : Discreet (·.print .sometimes (text ++ "\n")) where
  mode c := c.minimal_print _ _
  lineStart c hc := c.lineStart_print _ h fun _ => hc
  stdout c := Or.inl (c.stdout_print (by simp) _)
  stderr _ h := congrArg Console.stderr (Console.print_sometimes h _)

theorem discreet_startLine : Discreet (·.startLine .normal) where
  mode c := c.minimal_startLine _
  lineStart c _ := c.lineStart_startLine
  stdout c := Or.inr c.stdout_startLine
  stderr _ _ := Console.stderr_startLine_normal

/-- A property of machines on the terminal that outlasts what a session does. -/
structure Kept (P : Machine Op Terminal → Prop) : Prop where
  wellFormed : ∀ {m}, P m → m.WellFormed
  loadCode : ∀ {m}, P m → ∀ code, P (m.loadCode code).2
  start : ∀ {m}, P m → P m.start.2
  step : ∀ {m}, P m → P m.step.2
  pause : ∀ {m}, P m → P m.pause
  onConsole : ∀ {m f}, P m → Discreet f → P (m.onConsole f)

/-- **What every interrupt keeps outlasts all that a session does**, if besides the shape of the machine
it is about the host and the output only. -/
theorem kept_of_interrupt {P : Machine Op Terminal → Prop} (hwell : ∀ {m}, P m → m.WellFormed)
    (hcongr : ∀ {m m'}, P m → m'.WellFormed → m'.host = m.host → m'.output = m.output → P m')
    (hinterrupt : ∀ m i, P m → P (m.interrupt i).2)
    (hconsole : ∀ {m f}, P m → Discreet f → P (m.onConsole f)) : Kept P where
  wellFormed := hwell
  loadCode h _ := Machine.loadCode_keeps h fun _ hi => hcongr h ((hwell h).install_image hi) rfl rfl
  start h := Machine.start_keeps (fun _ => hinterrupt _ _ h) fun _ _ =>
    hcongr h ((hwell h).congr rfl rfl rfl) rfl rfl
  step := by
    intro m h
    refine Machine.step_keeps h (fun _ => hinterrupt _ _ h) fun i => ?_
    have hexecute : P (m.execute i).2 := Machine.perform_keeps
      (fun _ name value hm => hcongr hm ((hwell hm).setRegister name value) rfl rfl)
      (fun _ address value hm => hcongr hm ((hwell hm).writeMemory address value) rfl rfl)
      hinterrupt i.body.action m h
    have hcount : ({ (m.execute i).2 with steps := (m.execute i).2.steps + 1 } :
        Machine Op Terminal).WellFormed := (hwell hexecute).congr rfl rfl rfl
    exact Machine.retire_keeps (hcongr hexecute hcount rfl rfl)
      (fun address => hcongr hexecute (hcount.setPc address) rfl rfl) _ _
  pause h := Machine.pause_keeps h fun _ => hcongr h ((hwell h).congr rfl rfl rfl) rfl rfl
  onConsole := hconsole

namespace Session

variable {P : Machine Op Terminal → Prop} {s : Session}

theorem keeps_load (hP : Kept P) (h : P s.machine) (content : Except FileError ByteArray) :
    P (s.load content).2.machine := by
  unfold Session.load
  split
  · -- a source file
    have hstatus := hP.onConsole h (discreet_status green "Assembling" (targetText s.name))
    cases programOfBytes content with
    | error e => exact hstatus
    | ok program => exact Machine.loadProgram_keeps hstatus fun code _ => hP.loadCode hstatus code
  · -- a file of machine code
    have hstatus := hP.onConsole h (discreet_status green "Loading" (targetText s.name))
    cases content >>= textOfBytes with
    | error e => exact hstatus
    | ok text => exact hP.loadCode hstatus text.toList
  · exact h
  · exact h

theorem keeps_launch (hP : Kept P) (h : P s.machine) (content : Except FileError ByteArray) :
    P (s.launch content).2.machine := by
  have hload := keeps_load hP h content
  unfold Session.launch
  rcases hs : s.load content with ⟨_ | _, loaded⟩
  · rw [hs] at hload
    exact hload
  · rw [hs] at hload
    exact hP.start (hP.onConsole hload (discreet_status green "Running" "loaded program"))

theorem keeps_stepOnce (hP : Kept P) (h : P s.machine) : P s.stepOnce.2.machine := by
  have hstep := hP.step h
  obtain ⟨name, options, trace, machine⟩ := s
  unfold Session.stepOnce
  simp only
  rcases hs : machine.step with ⟨_ | outcome, next⟩
  · rw [hs] at hstep
    exact hstep
  · rw [hs] at hstep
    exact hstep

theorem keeps_showNext (hP : Kept P) (h : P s.machine) : P s.showNext.2.machine := by
  unfold Session.showNext
  cases hp : s.machine.peek with
  | error e => exact h
  | ok i =>
    have hspaces : Closed "  ".toList := closed_of_not_mem (by decide)
    have hline : Closed (Console.padLeft 6 (Text.decimal s.machine.pc) ++ "  " ++ i.display).toList := by
      rw [String.toList_append, String.toList_append]
      exact ((closed_padLeft 6 (closed_decimal _)).append hspaces).append ((hP.wellFormed h).closed_peek hp)
    exact hP.onConsole h (discreet_print hline)

theorem keeps_stopAtLimit (hP : Kept P) (h : P s.machine) : P s.stopAtLimit.machine :=
  hP.onConsole (hP.onConsole (hP.pause h) discreet_startLine) (discreet_status red "Stopped" "step limit reached")

/-- **A round keeps what lasts.** -/
theorem keeps_round (hP : Kept P) (h : P s.machine) : P s.round.2.machine := by
  unfold Session.round
  by_cases hs : s.machine.status ≠ .running
  · rw [if_pos hs]; exact h
  rw [if_neg hs]
  by_cases hl : s.limitReached = true
  · rw [if_pos hl]; exact keeps_stopAtLimit hP h
  rw [if_neg hl]
  by_cases ht : s.trace = true
  · rw [if_pos ht]
    have hshow := keeps_showNext hP h
    rcases hn : s.showNext with ⟨_ | _, shown⟩
    · rw [hn] at hshow
      exact hshow
    · rw [hn] at hshow
      exact keeps_stepOnce hP hshow
  · rw [if_neg ht]; exact keeps_stepOnce hP h

theorem keeps_iterate (hP : Kept P) (h : P s.machine) (n : ℕ) :
    P ((fun s : Session => s.round.2)^[n] s).machine := by
  induction n with
  | zero => exact h
  | succ n ih =>
    rw [Function.iterate_succ_apply']
    exact keeps_round hP ih

theorem keeps_rounds (hP : Kept P) {fuel : ℕ} (h : P s.machine) {result : Except InstructionError Unit}
    {t : Session} (hr : rounds fuel s = some (result, t)) : P t.machine := by
  induction fuel generalizing s with
  | zero => exact absurd hr (by simp [Session.rounds])
  | succ fuel ih =>
    have hround := keeps_round hP h
    unfold Session.rounds at hr
    rcases hs : s.round with ⟨_ | again, next⟩
    · rw [hs] at hr hround
      obtain ⟨-, rfl⟩ := Prod.mk.inj (Option.some.inj hr)
      exact hround
    · rw [hs] at hr hround
      cases again with
      | false =>
        obtain ⟨-, rfl⟩ := Prod.mk.inj (Option.some.inj hr)
        exact hround
      | true => exact ih hround hr

/-- **A run keeps what lasts**; after it only the report at the end is written. -/
theorem keeps_run (hP : Kept P) (h : P s.machine) {fuel : ℕ} {content : Except FileError ByteArray}
    {result : Except Failure Unit} {t : Session} (hr : s.run fuel content = some (result, t)) :
    ∃ last : Session, P last.machine ∧ (t = last ∨ t = last.finish) := by
  have hlaunch := keeps_launch hP h content
  unfold Session.run at hr
  rcases hs : s.launch content with ⟨_ | _, launched⟩
  · rw [hs] at hr hlaunch
    obtain ⟨-, rfl⟩ := Prod.mk.inj (Option.some.inj hr)
    exact ⟨launched, hlaunch, Or.inl rfl⟩
  · rw [hs] at hr hlaunch
    obtain ⟨⟨_ | _, last⟩, hrounds, hend⟩ := Option.map_eq_some_iff.1 hr
    · obtain ⟨-, rfl⟩ := Prod.mk.inj hend
      exact ⟨last, keeps_rounds hP hlaunch hrounds, Or.inl rfl⟩
    · obtain ⟨-, rfl⟩ := Prod.mk.inj hend
      exact ⟨last, keeps_rounds hP hlaunch hrounds, Or.inr rfl⟩

/-! ### The report at the end -/

theorem stdout_printRegisters {channel : Channel} (hc : channel ≠ .normal) (c : Console)
    (registers : Registers) : (c.printRegisters channel registers).stdout = c.stdout := by
  have hlines : ∀ (texts : List String) (c : Console),
      (texts.foldl (·.print channel ·) c).stdout = c.stdout := by
    intro texts
    induction texts with
    | nil => intro c; rfl
    | cons text texts ih =>
      intro c
      rw [List.foldl_cons, ih, c.stdout_print hc]
  exact hlines _ c

/-- The report leaves the standard output alone, but for an end of line. -/
theorem stdout_finish (s : Session) : s.finish.console.stdout = s.console.stdout ∨
    s.finish.console.stdout = s.console.stdout ++ s.console.rest := by
  unfold Session.finish
  simp only
  by_cases ht : s.trace = true
  · rw [if_pos ht]
    refine Or.inr ?_
    change (((s.console.startLine .normal).printRegisters .sometimes _).status _ _ _).stdout = _
    rw [Console.stdout_status, stdout_printRegisters (by simp), Console.stdout_startLine]
  · rw [if_neg ht]
    exact Or.inl (s.console.stdout_status _ _ _)

theorem output_finish (s : Session) : s.finish.machine.output = s.machine.output ∧
    s.finish.machine.host.alerts = s.machine.host.alerts := by
  unfold Session.finish
  simp only
  by_cases ht : s.trace = true
  · rw [if_pos ht]; exact ⟨rfl, rfl⟩
  · rw [if_neg ht]; exact ⟨rfl, rfl⟩

end Session

/-! ### The standard output -/

theorem kept_faithful (minimal : Bool) : Kept (Machine.Faithful minimal) where
  wellFormed h := h.wellFormed
  loadCode h code := h.loadCode code
  start h := h.start
  step h := h.step
  pause h := h.pause
  onConsole := by
    intro m f h hf
    have ht := h.terminal
    have hstdout : (f m.host.console).stdout = m.host.console.stdout := by
      rcases hf.stdout m.host.console with hsame | hrest
      · exact hsame
      · rw [hrest, ht.rest, String.append_empty]
    refine ⟨h.wellFormed.congr rfl rfl rfl, ?_⟩
    exact ⟨(hf.mode _).trans ht.mode, hf.lineStart _ ht.lineStart, ht.lines, hstdout.trans ht.stdout, ht.halted⟩

theorem kept_spaced : Kept Machine.Spaced := by
  refine kept_of_interrupt Machine.Spaced.wellFormed (fun h hw hhost houtput => ?_)
    (fun _ i h => h.interrupt i) ?_
  · exact ⟨hw, by rw [hhost, houtput]; exact h.terminal⟩
  · intro m f h hf
    refine ⟨h.wellFormed.congr rfl rfl rfl, ?_⟩
    change Spaced m.output (f m.host.console).stdout
    rcases hf.stdout m.host.console with hsame | hrest
    · rw [hsame]; exact h.terminal
    · rw [hrest]; exact h.terminal.rest

namespace Session

/-- What the standard output is, up to an end of line of a prompt that was not answered. -/
def Exact (minimal : Bool) (s : Session) : Prop :=
  s.console.stdout = outputText s.machine.output ++ remainder minimal s.machine.host.alerts

variable {minimal : Bool} {s t : Session}

theorem Exact.run (h : s.machine.Faithful minimal) {fuel : ℕ} {content : Except FileError ByteArray}
    {result : Except Failure Unit} (hr : s.run fuel content = some (result, t)) : t.Exact minimal := by
  obtain ⟨last, hlast, rfl | rfl⟩ := keeps_run (kept_faithful minimal) h hr
  · exact hlast.terminal.stdout
  · obtain ⟨houtput, halerts⟩ := last.output_finish
    have hstdout : last.finish.console.stdout = last.console.stdout := by
      rcases last.stdout_finish with hsame | hrest
      · exact hsame
      · rw [hrest]
        exact (congrArg (last.console.stdout ++ ·) hlast.terminal.rest).trans String.append_empty
    unfold Exact
    rw [hstdout, houtput, halerts]
    exact hlast.terminal.stdout

theorem spaced_run (h : s.machine.Spaced) {fuel : ℕ} {content : Except FileError ByteArray}
    {result : Except Failure Unit} (hr : s.run fuel content = some (result, t)) :
    Spaced t.machine.output t.console.stdout := by
  obtain ⟨last, hlast, rfl | rfl⟩ := keeps_run kept_spaced h hr
  · exact hlast.terminal
  · rw [last.output_finish.1]
    rcases last.stdout_finish with hsame | hrest
    · rw [hsame]; exact hlast.terminal
    · rw [hrest]; exact hlast.terminal.rest

theorem faithful_new (name : String) (options : RunOptions) (trace color : Bool)
    {lines : List (Option String)} (hlines : ∀ line, some line ∈ lines → Closed line.toList) :
    (Session.new name options trace color lines).machine.Faithful options.minimal := by
  have halerts : noInput ∉ (#[] : Array String) := by simp
  refine ⟨Machine.wellFormed_new _, ⟨rfl, rfl, hlines, ?_, fun hmem => absurd hmem halerts⟩⟩
  exact (congrArg (outputText #[] ++ ·) (remainder_of_not_mem options.minimal halerts)).symm

theorem launch_of_start {content : Except FileError ByteArray} {m : Machine Op Terminal}
    (h : s.load content = (.ok (), t))
    (hstart : (t.onConsole (·.status green "Running" "loaded program")).machine.start = (true, m)) :
    s.launch content = (.ok (), { t.onConsole (·.status green "Running" "loaded program") with machine := m }) := by
  unfold launch
  rw [h]
  simp only
  rw [hstart]
  rfl

/-- A program that halts with its first instruction. -/
theorem run_of_halted {t : Session} {content : Except FileError ByteArray} {m : Machine Op Terminal}
    (hlaunch : s.launch content = (.ok (), t)) (ht : t.trace = false) (hlimit : t.options.limit = none)
    (hs : t.machine.status = .running) (hstep : t.machine.step = (.ok .halted, m))
    (hm : m.status = .terminated) :
    s.run 2 content = some (.ok (), Session.finish { t with machine := m }) := by
  have hfirst : t.round = (.ok true, { t with machine := m }) := by
    have hreached : t.limitReached = false := by
      unfold limitReached
      rw [hlimit]
      rfl
    have honce : t.stepOnce = (.ok true, { t with machine := m }) := by
      unfold Session.stepOnce
      simp only [hstep]
      rfl
    unfold Session.round
    simp only [hs, hreached, ht, honce, ne_eq, not_true_eq_false, if_false, Bool.false_eq_true]
  have hlast : ({ t with machine := m } : Session).round = (.ok false, { t with machine := m }) := by
    have hstopped : m.status ≠ .running := by
      rw [hm]
      decide
    unfold Session.round
    exact if_pos hstopped
  unfold Session.run
  rw [hlaunch]
  simp only [Session.rounds, hfirst, hlast, Option.map_some]

end Session

/-- **The standard output of a run** holds the output of the program, line by line, and apart from
it empty lines at most, whatever the program, the input, the limit and the trace are: after any
number of rounds and at the end.

When no line of input leaves an escape sequence open, it is known which: in minimal mode there is
none, and otherwise there is the end of the line of a prompt for which no input was there. -/
theorem stdout_run (name : String) (options : RunOptions) (trace color : Bool)
    (lines : List (Option String)) (content : Except FileError ByteArray) :
    let start := fun minimal => Session.new name { options with minimal } trace color lines
    let after := fun minimal n => (fun s : Session => s.round.2)^[n] ((start minimal).launch content).2
    (∀ minimal n, Spaced (after minimal n).machine.output (after minimal n).console.stdout) ∧
    (∀ minimal fuel result s, (start minimal).run fuel content = some (result, s) →
      Spaced s.machine.output s.console.stdout) ∧
    ((∀ line, some line ∈ lines → Closed line.toList) →
      (∀ minimal n, (after minimal n).Exact minimal) ∧
      (∀ minimal fuel result s, (start minimal).run fuel content = some (result, s) → s.Exact minimal) ∧
      ∀ fuel, Option.Rel (fun quiet shown => quiet.1 = shown.1 ∧ shown.2.console.stdout =
          quiet.2.console.stdout ++ remainder false quiet.2.machine.host.alerts)
        ((start true).run fuel content) ((start false).run fuel content)) := by
  intro start after
  have hspaced : ∀ minimal, (start minimal).machine.Spaced := fun minimal =>
    ⟨Machine.wellFormed_new _, Spaced.nil⟩
  refine ⟨fun minimal n => ?_, fun minimal fuel result s hr => Session.spaced_run (hspaced minimal) hr,
    fun hlines => ?_⟩
  · have hlaunch := Session.keeps_launch kept_spaced (hspaced minimal) content
    exact (Session.keeps_iterate kept_spaced hlaunch n).terminal
  have hfaithful : ∀ minimal, (start minimal).machine.Faithful minimal := fun minimal =>
    Session.faithful_new name { options with minimal } trace color hlines
  have hrun : ∀ minimal fuel result s, (start minimal).run fuel content = some (result, s) →
      s.Exact minimal := fun minimal fuel result s hr => Session.Exact.run (hfaithful minimal) hr
  refine ⟨fun minimal n => ?_, hrun, fun fuel => ?_⟩
  · have hlaunch := Session.keeps_launch (kept_faithful minimal) (hfaithful minimal) content
    exact (Session.keeps_iterate (kept_faithful minimal) hlaunch n).terminal.stdout
  -- the modes differ in what is shown only
  have halike : (start true).Alike (start false) := ⟨rfl, rfl, rfl, rfl⟩
  have hruns := halike.run fuel content
  have hquiet := hrun true fuel
  have hshown := hrun false fuel
  generalize (start true).run fuel content = x at hruns hquiet ⊢
  generalize (start false).run fuel content = y at hruns hshown ⊢
  cases hruns with
  | none => exact Option.Rel.none
  | some h =>
    obtain ⟨hresult, hend⟩ := h
    refine Option.Rel.some ⟨hresult, ?_⟩
    unfold Session.Exact at hquiet hshown
    rw [hshown _ _ rfl, hquiet _ _ rfl, hend.output, hend.alerts]
    simp [remainder]

/-- A program that asks for a number and gets none has no output, yet there is a newline on the
standard output. -/
theorem stdout_run_unanswered : ∃ s, (Session.new "double.mc" {} false false []).run 2
      (.ok "1011010010000000".toUTF8) = some (.ok (), s) ∧
    s.machine.output = #[] ∧ s.console.stdout = "\n" := by
  have hlines : ∀ line : String, some line ∈ ([] : List (Option String)) → Closed line.toList := by simp
  have hrun := ((stdout_run "double.mc" {} false false [] (.ok "1011010010000000".toUTF8)).2.2 hlines).2.1 false 2
  -- the file is loaded
  let s₀ : Session := Session.new "double.mc" {} false false []
  let s₁ := s₀.onConsole (·.status green "Loading" (targetText s₀.name))
  have hw : s₁.machine.WellFormed := (Machine.wellFormed_new _).congr rfl rfl rfl
  have hload : s₀.load (.ok "1011010010000000".toUTF8) =
      (.ok (), { s₁ with machine := s₁.machine.install [⟨16, 0xB480⟩] }) := by
    have hname : Path.extension? s₀.name = some "mc" := by decide
    have htext : textOfBytes "1011010010000000".toUTF8 = .ok "1011010010000000" := by decide
    have hcode : s₁.machine.loadCode "1011010010000000".toList = (.ok (), s₁.machine.install [⟨16, 0xB480⟩]) := by
      refine Machine.loadCode_eq_ok.2 ⟨_, (Machine.image_eq_ok (by decide)).2 ⟨?_, by decide, by decide⟩, rfl⟩
      rw [hw.size]
      decide
    exact Session.load_of_loadCode hname htext hcode
  -- and the machine is started
  let s₂ := Session.onConsole { s₁ with machine := s₁.machine.install [⟨16, 0xB480⟩] }
    (·.status green "Running" "loaded program")
  let m : Machine Op Terminal := { s₂.machine with status := .running }
  have hlaunch : s₀.launch (.ok "1011010010000000".toUTF8) = (.ok (), { s₂ with machine := m }) := by
    have hstart : s₂.machine.start = (true, m) := Machine.start_of_loaded (by decide) (by decide)
    exact Session.launch_of_start hload hstart
  have hm : m.WellFormed := by
    refine Machine.WellFormed.congr (m := s₁.machine.install [⟨16, 0xB480⟩]) ?_ rfl rfl rfl
    exact hw.install (by rw [hw.size]; decide) (by decide)
  -- its first instruction asks for input
  have hop : (State.ofMachine m).op = .input :=
    (State.op_ofMachine (x := 0xB480) (by decide) rfl).trans (by decide)
  have hstep := State.step_toMachine (State.ofMachine m) (by decide) (by decide)
  obtain ⟨hresult, hstatus, houtput, halerts⟩ := State.step_noInput (s := State.ofMachine m) hop (by decide) rfl
  rw [State.toMachine_ofMachine hm, hresult] at hstep
  rw [← State.status_toMachine] at hstatus
  have hsame : ∀ s : State Terminal, s.toMachine.output = s.output := fun _ => rfl
  have hend := Session.run_of_halted hlaunch rfl rfl rfl hstep hstatus
  have hshown : (State.ofMachine m).step.2.toMachine.output = #[] := (hsame _).trans houtput
  refine ⟨_, hend, (Session.output_finish _).1.trans hshown, ?_⟩
  unfold Session.Exact at hrun
  rw [hrun _ _ hend, (Session.output_finish _).1, (Session.output_finish _).2]
  change outputText (State.ofMachine m).step.2.toMachine.output ++
    remainder false (State.ofMachine m).step.2.toMachine.host.alerts = "\n"
  unfold remainder
  rw [hshown, State.host_toMachine, if_pos ⟨rfl, halerts⟩]
  rfl

end TinyIsa
