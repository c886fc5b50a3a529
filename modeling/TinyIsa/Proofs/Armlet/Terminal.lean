import Mathlib
import TinyIsa.Proofs.Armlet.Refinement
import TinyIsa.Proofs.Console.Cursor

/-!
# An Armlet machine on the terminal

The output of a program reaches the standard output line by line. The diagnostics go elsewhere,
but a new line is begun for each of them, and it is the standard output that gets the end of the
line before. So what counts is that the cursor is at the start of a line whenever a diagnostic
comes.

* `outputText`: the lines of output; `remainder`: the end of the line of a prompt that was not
  answered.
* `Terminal.Faithful`: nothing else is on the standard output, and the cursor is at the start of
  a line.
* `Terminal.Faithful.unanswered`: missing input is the one thing that leaves a remainder.
* `Machine.Faithful.step`: **a step of the machine keeps this**; so do loading, starting and
  pausing.
* `Machine.Spaced`: whatever the lines of input are, there is nothing but the output and empty
  lines.
-/

namespace TinyIsa

open Armlet

/-! ### What is expected -/

/-- Lines of output, each with a newline behind it. -/
def outputText (output : Array String) : String := String.join (output.toList.map (· ++ "\n"))

/-- The alert about input that does not come. -/
def noInput : String := "No input available, halting"

/-- The end of the line of the prompt that was not answered. -/
def remainder (minimal : Bool) (alerts : Array String) : String :=
  if minimal = false ∧ noInput ∈ alerts then "\n" else ""

theorem outputText_push (output : Array String) (text : String) :
    outputText (output.push text) = outputText output ++ (text ++ "\n") := by
  unfold outputText
  rw [Array.toList_push, List.map_append, String.join_append]
  congr 1

theorem remainder_of_not_mem (minimal : Bool) {alerts : Array String} (h : noInput ∉ alerts) :
    remainder minimal alerts = "" := if_neg fun hr => h hr.2

theorem remainder_push_of_ne (minimal : Bool) (alerts : Array String) {message : String}
    (h : message ≠ noInput) : remainder minimal (alerts.push message) = remainder minimal alerts := by
  unfold remainder
  simp [Array.mem_push, h.symm]

theorem remainder_push_noInput (minimal : Bool) (alerts : Array String) :
    remainder minimal (alerts.push noInput) = if minimal then "" else "\n" := by
  unfold remainder
  cases minimal <;> simp

/-! ### The terminal -/

namespace Terminal

/-- **Only the output is on the standard output**, up to a remainder, and the cursor is at the
start of a line. Whether input was missing is seen from the status. -/
structure Faithful (minimal : Bool) (status : Status) (log : Array String) (t : Terminal) : Prop where
  mode : t.console.minimal = minimal
  lineStart : t.console.lineStart = true
  lines : ∀ line, some line ∈ t.lines → Closed line.toList
  stdout : t.console.stdout = outputText log ++ remainder minimal t.alerts
  halted : noInput ∈ t.alerts → status = .terminated

variable {minimal : Bool} {status : Status} {log : Array String} {t : Terminal}

theorem Faithful.rest (h : Faithful minimal status log t) : t.console.rest = "" := if_pos h.lineStart

theorem Faithful.not_mem (h : Faithful minimal status log t) (hs : status ≠ .terminated) :
    noInput ∉ t.alerts := fun hmem => hs (h.halted hmem)

/-- A status that does not hide that input was missing. -/
theorem Faithful.withStatus (h : Faithful minimal status log t) {status' : Status}
    (hs : status = .terminated → status' = .terminated) : Faithful minimal status' log t :=
  ⟨h.mode, h.lineStart, h.lines, h.stdout, fun hmem => hs (h.halted hmem)⟩

theorem Faithful.halt (h : Faithful minimal status log t) : Faithful minimal .terminated log (halt t) where
  mode := (minimal_halt t).trans h.mode
  lineStart := lineStart_halt t
  lines := h.lines
  stdout := by
    rw [stdout_halt, h.rest, String.append_empty]
    exact h.stdout
  halted _ := rfl

theorem Faithful.alert (h : Faithful minimal status log t) {message : String}
    (hm : message ≠ noInput) (hc : Closed message.toList) :
    Faithful minimal status log (alert message t) where
  mode := (minimal_alert t message).trans h.mode
  lineStart := lineStart_alert t hc
  lines := h.lines
  stdout := by
    change _ = _ ++ remainder minimal (t.alerts.push message)
    rw [stdout_alert, h.rest, String.append_empty, remainder_push_of_ne _ _ hm]
    exact h.stdout
  halted hmem := by
    change noInput ∈ t.alerts.push message at hmem
    rcases Array.mem_push.1 hmem with hmem | hmem
    · exact h.halted hmem
    · exact absurd hmem.symm hm

theorem Faithful.output (h : Faithful minimal status log t) (hs : status ≠ .terminated) (text : String) :
    Faithful minimal status (log.push text) (Terminal.output text t) where
  mode := (minimal_output t text).trans h.mode
  lineStart := lineStart_output t text
  lines := h.lines
  stdout := by
    change _ = _ ++ remainder minimal t.alerts
    rw [stdout_output, h.stdout, outputText_push, remainder_of_not_mem _ (h.not_mem hs)]
    simp only [String.append_empty]
  halted := h.halted

theorem Faithful.answered (h : Faithful minimal status log t) {prompt line : String}
    (hline : (input prompt t).1 = some line) :
    Faithful minimal status log (input prompt t).2 ∧ Closed line.toList := by
  have hstdout := stdout_input t prompt
  have hminimal := minimal_input t prompt
  obtain ⟨console, lines, alerts⟩ := t
  -- the line is the first one there is
  rcases lines with _ | ⟨_ | first, lines⟩
  · simp [input] at hline
  · simp [input] at hline
  · obtain rfl : stripEnding first = line := Option.some.inj hline
    refine ⟨⟨hminimal.trans h.mode, rfl, ?_, ?_, h.halted⟩, ?_⟩
    · intro line hmem
      exact h.lines line (List.mem_cons_of_mem _ hmem)
    · rw [hstdout, h.rest, String.append_empty]
      exact h.stdout
    · exact (h.lines first List.mem_cons_self).stripEnding

/-- **Missing input leaves an end of line behind**, unless no prompt is shown. -/
theorem Faithful.unanswered (h : Faithful minimal status log t) (hs : status ≠ .terminated)
    {prompt : String} (hp : Closed prompt.toList) (hline : (input prompt t).1 = none) :
    Faithful minimal .terminated log (Terminal.halt (Terminal.alert noInput (input prompt t).2)) := by
  have hclosed : Closed noInput.toList := closed_of_not_mem (by decide)
  have hstdout : (Terminal.alert noInput (input prompt t).2).console.stdout =
      outputText log ++ if minimal then "" else "\n" := by
    rw [stdout_alert, stdout_input, h.rest, h.stdout, remainder_of_not_mem _ (h.not_mem hs),
      Console.rest, lineStart_input_none hline h.lineStart hp, h.mode]
    simp only [String.append_empty]
  have hrest : (Terminal.alert noInput (input prompt t).2).console.rest = "" :=
    if_pos (lineStart_alert _ hclosed)
  refine ⟨?_, lineStart_halt _, ?_, ?_, fun _ => rfl⟩
  · rw [minimal_halt, minimal_alert, minimal_input]
    exact h.mode
  · intro line hmem
    refine h.lines line ?_
    change some line ∈ (input prompt t).2.lines at hmem
    rw [lines_input] at hmem
    exact List.mem_of_mem_tail hmem
  · change _ = _ ++ remainder minimal ((input prompt t).2.alerts.push noInput)
    rw [stdout_halt, hrest, hstdout, remainder_push_noInput, String.append_empty]

end Terminal

/-! ### The texts of a machine -/

namespace Armlet

theorem closed_registerName (n : ℕ) : Closed (registerName n).toList := by
  have hdigits : Closed (Nat.toDigits 10 n) := closed_of_isDigit fun c => Text.isDigit_of_mem_toDigits
  unfold registerName
  rw [String.toList_ofList]
  exact Closed.append (s := ['$']) rfl hdigits

theorem closed_prompt (n : ℕ) : Closed ("in " ++ registerName n).toList := by
  have hin : Closed "in ".toList := closed_of_not_mem (by decide)
  rw [String.toList_append]
  exact hin.append (closed_registerName n)

theorem closed_inputAlert {line : String} (h : Closed line.toList) : Closed (inputAlert line).toList := by
  have hfront : Closed "Invalid input `".toList := closed_of_not_mem (by decide)
  have hback : Closed "`, storing 0".toList := closed_of_not_mem (by decide)
  have htext : (inputAlert line).toList =
      "Invalid input `".toList ++ Text.trim line.toList ++ "`, storing 0".toList := by
    unfold inputAlert
    simp only [toString, String.toList_append, String.toList_ofList]
  rw [htext]
  exact (hfront.append h.trim).append hback

theorem inputAlert_ne_noInput (line : String) : inputAlert line ≠ noInput := by
  have hhead : ∀ text : String, ("Invalid input `" ++ text).toList.head? = some 'I' := by
    intro text
    rw [String.toList_append]
    rfl
  intro h
  have hline := congrArg (·.toList.head?) h
  unfold inputAlert at hline
  simp only [toString, String.append_assoc] at hline
  rw [hhead] at hline
  exact absurd hline (by decide)

theorem closed_mnemonic (op : Op) : Closed op.mnemonic.toList := by
  have h : ∀ op ∈ Op.all, escape ∉ op.mnemonic.toList := by decide
  exact closed_of_not_mem (h op (mem_all op))

theorem closed_operands (op : Op) (registers : List Word) (value : Word) :
    ∀ arg ∈ operands op registers value, Closed arg.toList := by
  intro arg harg
  unfold operands at harg
  rcases List.mem_append.1 harg with harg | harg
  · obtain ⟨w, -, rfl⟩ := List.mem_map.1 harg
    exact closed_registerName _
  · by_cases hi : op.layout.immediate = true
    · rw [if_pos hi, List.mem_singleton] at harg
      rw [harg]
      exact closed_decimal _
    · rw [if_neg hi] at harg
      exact absurd harg List.not_mem_nil

end Armlet

/-- The text of an operation is closed when its arguments are. -/
theorem closed_display {word : String} (hw : Closed word.toList) {args : List String}
    (h : ∀ arg ∈ args, Closed arg.toList) : Closed (Body.display.line word args).toList := by
  have hcomma : Closed ", ".toList := closed_of_not_mem (by decide)
  have hspace : Closed " ".toList := closed_of_not_mem (by decide)
  unfold Body.display.line
  by_cases hargs : args.isEmpty = true
  · rw [if_pos hargs]
    exact hw
  · rw [if_neg hargs, String.toList_append, String.toList_append]
    exact (hw.append hspace).append (closed_intercalate hcomma h)

/-! ### A machine on the terminal -/

namespace Armlet.State

/-- The terminal has only the output of a state on its standard output. -/
def Faithful (minimal : Bool) (s : State Terminal) : Prop :=
  Terminal.Faithful minimal s.status s.output s.host

variable {minimal : Bool} {s : State Terminal}

theorem Faithful.write (h : s.Faithful minimal) (r : BitVec 3) (v : BitVec 16) :
    (s.write r v).Faithful minimal := by
  unfold State.write
  by_cases hr : r = 0
  · rw [if_pos hr]; exact h
  · rw [if_neg hr]; exact h

theorem faithful_halt (hs : s.status ≠ .terminated)
    (h : Terminal.Faithful minimal .terminated s.output (Terminal.halt s.host)) :
    s.halt.Faithful minimal := by
  unfold State.halt
  rw [if_neg hs]
  exact h

theorem Faithful.halt (h : s.Faithful minimal) : s.halt.Faithful minimal := by
  by_cases hs : s.status = .terminated
  · unfold State.halt
    rw [if_pos hs]
    exact h
  · exact faithful_halt hs (Terminal.Faithful.halt h)

theorem Faithful.alert (h : s.Faithful minimal) {message : String} (hm : message ≠ noInput)
    (hc : Closed message.toList) : (s.alert message).Faithful minimal := by
  have halert : s.alert message = { s with host := Terminal.alert message s.host } := rfl
  rw [halert]
  exact Terminal.Faithful.alert h hm hc

theorem Faithful.print (h : s.Faithful minimal) (hs : s.status ≠ .terminated) (text : String) :
    (s.print text).Faithful minimal := by
  have hprint : s.print text =
      { s with host := Terminal.output text s.host, output := s.output.push text } := rfl
  rw [hprint]
  exact Terminal.Faithful.output h hs text

/-- **Asking for input**: a line that comes is read, and if none comes the machine halts. -/
theorem Faithful.input (h : s.Faithful minimal) (hs : s.status ≠ .terminated) (r : BitVec 3) :
    (s.input r).Faithful minimal := by
  have hp := closed_prompt r.toNat
  unfold State.input
  rcases hreply : Host.input ("in " ++ registerName r.toNat) s.host with ⟨reply, host⟩
  have hfst : (Terminal.input ("in " ++ registerName r.toNat) s.host).1 = reply := congrArg Prod.fst hreply
  obtain rfl : (Terminal.input ("in " ++ registerName r.toNat) s.host).2 = host := congrArg Prod.snd hreply
  cases reply with
  | none =>
    have halted := Terminal.Faithful.unanswered h hs hp hfst
    exact faithful_halt (s := State.alert { s with host := _ } noInput) hs halted
  | some line =>
    obtain ⟨hread, hline⟩ := Terminal.Faithful.answered h hfst
    have hstate : State.Faithful minimal
        { s with host := (Terminal.input ("in " ++ registerName r.toNat) s.host).2 } := hread
    simp only
    cases inputValue line with
    | some v => exact hstate.write r _
    | none => exact (hstate.alert (inputAlert_ne_noInput line) (closed_inputAlert hline)).write r 0

theorem Faithful.execute (h : s.Faithful minimal) (hs : s.status ≠ .terminated) (a b c : BitVec 3)
    (v : BitVec 16) (op : Op) : (s.execute a b c v op).2.Faithful minimal := by
  cases op with
  | nop => exact h
  | halt => exact h.halt
  | alu f source => exact h.write a _
  | not => exact h.write a _
  | mov source => exact h.write a _
  | cmp source => exact h
  | load source => exact h.write a _
  | store source => exact h
  | jump source => exact h
  | branch condition source => exact h
  | input => exact h.input hs a
  | output => exact h.print hs _

theorem Faithful.step (h : s.Faithful minimal) (hs : s.status ≠ .terminated) :
    s.step.2.Faithful minimal := by
  have hexecute := h.execute hs s.a s.b s.c s.second s.op
  unfold State.step
  rcases hx : s.execute s.a s.b s.c s.second s.op with ⟨target, t⟩
  rw [hx] at hexecute
  simp only
  by_cases ht : t.status = .terminated
  · rw [if_pos ht]; exact hexecute
  · rw [if_neg ht]; exact hexecute

/-- A step that asks for input where no line is left halts the machine with the alert. -/
theorem step_noInput (hop : s.op = .input) (hs : s.status ≠ .terminated) (hlines : s.host.lines = []) :
    s.step.1 = .halted ∧ s.step.2.status = .terminated ∧ s.step.2.output = s.output ∧
      noInput ∈ s.step.2.host.alerts := by
  have hreply : ∀ t : Terminal, t.lines = [] → ∀ prompt,
      Host.input prompt t = (none, (Terminal.input prompt t).2) := by
    rintro ⟨console, lines, alerts⟩ rfl prompt
    rfl
  have hinput : s.input s.a = State.halt (State.alert
      { s with host := (Terminal.input ("in " ++ registerName s.a.toNat) s.host).2 } noInput) := by
    unfold State.input
    rw [hreply s.host hlines]
    rfl
  have hhalted : (s.input s.a).status = .terminated ∧ (s.input s.a).output = s.output ∧
      noInput ∈ (s.input s.a).host.alerts := by
    have hstatus : (State.alert { s with
        host := (Terminal.input ("in " ++ registerName s.a.toNat) s.host).2 } noInput).status ≠ .terminated := hs
    rw [hinput]
    unfold State.halt
    rw [if_neg hstatus]
    exact ⟨rfl, rfl, Array.mem_push_self⟩
  have hexecute : s.execute s.a s.b s.c s.second s.op = (none, s.input s.a) := by
    rw [hop]
    rfl
  unfold State.step
  rw [hexecute]
  simp only
  rw [if_pos hhalted.1]
  exact ⟨rfl, hhalted⟩

/-- A step that reads a line which is no number raises the alert about the line. -/
theorem alerts_step_invalid {line : String} {rest : List (Option String)} (hop : s.op = .input)
    (hlines : s.host.lines = some line :: rest) (hvalue : inputValue (Terminal.stripEnding line) = none) :
    s.step.2.host.alerts = s.host.alerts.push (inputAlert (Terminal.stripEnding line)) := by
  have hreply : ∀ t : Terminal, t.lines = some line :: rest → ∀ prompt,
      Host.input prompt t = (some (Terminal.stripEnding line), (Terminal.input prompt t).2) ∧
        (Terminal.input prompt t).2.alerts = t.alerts := by
    rintro ⟨console, lines, alerts⟩ rfl prompt
    exact ⟨rfl, rfl⟩
  have hwrite : ∀ (s : State Terminal) (r : BitVec 3) (v : BitVec 16), (s.write r v).host = s.host := by
    intro s r v
    unfold State.write
    split <;> rfl
  obtain ⟨hanswer, halerts⟩ := hreply s.host hlines ("in " ++ registerName s.a.toNat)
  have hinput : (s.input s.a).host.alerts =
      s.host.alerts.push (inputAlert (Terminal.stripEnding line)) := by
    unfold State.input
    rw [hanswer]
    simp only [hvalue]
    rw [hwrite]
    exact congrArg (·.push (inputAlert (Terminal.stripEnding line))) halerts
  have hexecute : s.execute s.a s.b s.c s.second s.op = (none, s.input s.a) := by
    rw [hop]
    rfl
  unfold State.step
  rw [hexecute]
  simp only
  split <;> exact hinput

end Armlet.State

namespace Machine

/-- A machine on the terminal that has only its output on the standard output. -/
structure Faithful (minimal : Bool) (m : Machine Op Terminal) : Prop where
  wellFormed : m.WellFormed
  terminal : Terminal.Faithful minimal m.status m.output m.host

variable {minimal : Bool} {m : Machine Op Terminal}

theorem Faithful.alert (h : m.Faithful minimal) {message : String} (hm : message ≠ noInput)
    (hc : Closed message.toList) : (m.alert message).Faithful minimal :=
  ⟨h.wellFormed.interrupt _, h.terminal.alert hm hc⟩

/-- **A step leaves only the output on the standard output.** -/
theorem Faithful.step (h : m.Faithful minimal) : m.step.2.Faithful minimal := by
  by_cases hs : m.status = .terminated
  · unfold Machine.step
    rw [if_pos hs]
    exact h.alert (by decide) (closed_of_not_mem (by decide))
  by_cases hl : m.loaded = 0
  · unfold Machine.step
    rw [if_neg hs, if_pos hl]
    exact h.alert (by decide) (closed_of_not_mem (by decide))
  -- any other step is taken in numbers
  have hstep := State.step_toMachine (State.ofMachine m) hs hl
  rw [State.toMachine_ofMachine h.wellFormed] at hstep
  have hstate : (State.ofMachine m).Faithful minimal := h.terminal
  refine ⟨h.wellFormed.step, ?_⟩
  rw [hstep]
  exact hstate.step hs

theorem Faithful.start (h : m.Faithful minimal) : m.start.2.Faithful minimal := by
  unfold Machine.start
  by_cases hs : m.status = .terminated
  · rw [if_pos hs]
    exact h.alert (by decide) (closed_of_not_mem (by decide))
  rw [if_neg hs]
  by_cases hl : m.loaded = 0
  · rw [if_pos hl]
    exact h.alert (by decide) (closed_of_not_mem (by decide))
  · rw [if_neg hl]
    exact ⟨h.wellFormed.congr rfl rfl rfl, h.terminal.withStatus fun ht => absurd ht hs⟩

theorem Faithful.pause (h : m.Faithful minimal) : m.pause.Faithful minimal := by
  refine pause_keeps h fun hs => ⟨h.wellFormed.congr rfl rfl rfl, h.terminal.withStatus fun ht => ?_⟩
  rw [hs] at ht
  exact absurd ht (by decide)

theorem Faithful.loadCode (h : m.Faithful minimal) (code : List Char) :
    (m.loadCode code).2.Faithful minimal :=
  loadCode_keeps h fun _ hi => ⟨h.wellFormed.install_image hi, h.terminal⟩

/-- An instruction of the memory is shown without escape sequences. -/
theorem WellFormed.closed_peek (h : m.WellFormed) {i : Instruction Op} (hp : m.peek = .ok i) :
    Closed i.display.toList := by
  have hpeek := State.peek_toMachine (State.ofMachine m)
  rw [State.toMachine_ofMachine h, hp] at hpeek
  rw [Except.ok.inj hpeek]
  exact closed_display (closed_mnemonic _) (closed_operands _ _ _)

end Machine

/-! ### Any input -/

/-- A text with lines of output, each with a newline behind it, and with empty lines. -/
inductive Spaced : Array String → String → Prop where
  | nil : Spaced #[] ""
  | line {log : Array String} {text : String} (entry : String) :
    Spaced log text → Spaced (log.push entry) (text ++ (entry ++ "\n"))
  | blank {log : Array String} {text : String} : Spaced log text → Spaced log (text ++ "\n")

theorem Spaced.rest {log : Array String} {c : Console} (h : Spaced log c.stdout) :
    Spaced log (c.stdout ++ c.rest) := by
  unfold Console.rest
  by_cases hc : c.lineStart = true
  · rw [if_pos hc, String.append_empty]
    exact h
  · rw [if_neg hc]
    exact h.blank

namespace Machine

/-- A machine on the terminal that has its output on the standard output, and empty lines. -/
structure Spaced (m : Machine Op Terminal) : Prop where
  wellFormed : m.WellFormed
  terminal : TinyIsa.Spaced m.output m.host.console.stdout

variable {m : Machine Op Terminal}

/-- **No interrupt writes anything else**, whatever its text is. -/
theorem Spaced.interrupt (h : m.Spaced) (i : Interrupt) : (m.interrupt i).2.Spaced := by
  refine ⟨h.wellFormed.interrupt i, ?_⟩
  cases i with
  | input prompt =>
    change TinyIsa.Spaced m.output (Terminal.input prompt m.host).2.console.stdout
    rw [Terminal.stdout_input]
    exact h.terminal.rest
  | output text =>
    change TinyIsa.Spaced (m.output.push text) (Terminal.output text m.host).console.stdout
    rw [Terminal.stdout_output]
    exact h.terminal.line text
  | halt =>
    change TinyIsa.Spaced m.output (Terminal.halt m.host).console.stdout
    rw [Terminal.stdout_halt]
    exact h.terminal.rest
  | alert message =>
    change TinyIsa.Spaced m.output (Terminal.alert message m.host).console.stdout
    rw [Terminal.stdout_alert]
    exact h.terminal.rest

end Machine

end TinyIsa
