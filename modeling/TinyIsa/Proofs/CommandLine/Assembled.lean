import Mathlib
import TinyIsa.CommandLine.Report
import TinyIsa.Proofs.CommandLine.Mode
import TinyIsa.Proofs.Console.Cursor
import TinyIsa.Proofs.Machine.Capacity

/-!
# Running a source and running its assembled file

The file of machine code has the digits of the program, a word on each line, and line ends do not
count when it is loaded. What else differs between the two runs are the name of the file and the
status lines on the diagnostics, and nothing that a run does depends on what was written before.

* `filter_codeText`: the digits of a file of machine code.
* `Console.behind`, `Session.behind`: a console, a session behind texts that were written before;
  `rounds_behind`: they have no part in a run.
* `Session.proceed`: what a session does once its file is loaded.
* `run_assembled`: **a source and its assembled file run to the same output, exit code and failure.**
-/

namespace TinyIsa

open InstructionSet

/-! ### The file of machine code -/

section

variable {Op : Type} [InstructionSet Op]

theorem flatten_pieces {α : Type} (n : ℕ) : ∀ (k : ℕ) (s : List α), s.length = k * n →
    (pieces n k s).flatten = s := by
  intro k
  induction k with
  | zero =>
    intro s hs
    rw [Nat.zero_mul] at hs
    rw [List.length_eq_zero_iff.1 hs]
    rfl
  | succ k ih =>
    intro s hs
    have hrest : (s.drop n).length = k * n := by
      rw [List.length_drop, hs, Nat.succ_mul, Nat.add_sub_cancel]
    rw [pieces, List.flatten_cons, ih _ hrest, List.take_append_drop]

/-- **Without its blanks a file of machine code is the row of digits.** -/
theorem filter_codeText {code : List Char} (hb : Binary code) {n : ℕ} (hn : code.length = n * wordSize Op)
    (hw : 0 < wordSize Op) : (codeText Op code).toList.filter (!Text.isBlank ·) = code := by
  have hcount : code.length / wordSize Op = n := by
    rw [hn]
    exact Nat.mul_div_cancel n hw
  have hline : ∀ row ∈ pieces (wordSize Op) n code, (row ++ ['\n']).filter (!Text.isBlank ·) = row := by
    intro row hrow
    have hbinary : Binary row := fun c hc => hb c (mem_of_mem_pieces hrow hc)
    rw [List.filter_append, hbinary.filter_isBlank]
    exact List.append_nil row
  unfold codeText wordDigits
  rw [String.toList_ofList, hcount, List.filter_flatMap]
  calc (pieces (wordSize Op) n code).flatMap (fun row => (row ++ ['\n']).filter (!Text.isBlank ·))
      = (pieces (wordSize Op) n code).flatMap id := List.flatMap_congr hline
    _ = code := by rw [List.flatMap_id, flatten_pieces _ n code hn]

/-- **Loading a program is loading its file of machine code.** -/
theorem loadCode_codeText [Lawful Op] {σ : Type} {p : List (Instruction Op)} {code : List Char}
    (h : machineCode p = .ok code) (m : Machine Op σ) :
    m.loadCode (codeText Op code).toList = m.loadProgram p := by
  obtain ⟨hb, hlen⟩ := machineCode_spec h
  rw [loadProgram_of_machineCode h]
  unfold Machine.loadCode Machine.image
  rw [filter_codeText hb hlen Lawful.wordSize_pos, hb.filter_isBlank]

end

theorem textOfBytes_toUTF8 (text : String) : textOfBytes text.toUTF8 = .ok text := by
  have h : String.fromUTF8? text.toUTF8 = some text := dif_pos text.isValidUTF8
  unfold textOfBytes
  rw [h]

/-! ### What was written before -/

namespace Console

/-- The console behind texts that were written before. -/
def behind (before : Array Write) (c : Console) : Console := { c with writes := before ++ c.writes }

/-- A change of the console that does not depend on what was written. -/
def Appends (f : Console → Console) : Prop := ∀ before c, f (behind before c) = behind before (f c)

theorem Appends.comp {f g : Console → Console} (hf : Appends f) (hg : Appends g) :
    Appends fun c => f (g c) := by
  intro before c
  simp only
  rw [hg, hf]

theorem appends_write (d : Destination) (text : String) : Appends (·.write d text) := by
  intro before c
  exact congrArg (fun writes => ({ c with writes } : Console)) Array.append_push.symm

theorem appends_follow (text : String) : Appends (·.follow text) := by
  intro before c
  unfold follow
  cases (visible text.toList).getLast? <;> rfl

theorem appends_print (channel : Channel) (text : String) : Appends (·.print channel text) := by
  intro before c
  have hwrite : ∀ d written, ((behind before c).write d written).follow text =
      behind before ((c.write d written).follow text) := fun d written =>
    (appends_follow text).comp (appends_write d written) before c
  have hminimal : (behind before c).minimal = c.minimal := rfl
  have hcolor : (behind before c).color = c.color := rfl
  simp only [print, hminimal, hcolor]
  cases channel with
  | normal => exact hwrite _ _
  | always => cases c.minimal <;> exact hwrite _ _
  | sometimes =>
    cases c.minimal with
    | false => exact hwrite _ _
    | true => rfl

theorem appends_startLine (channel : Channel) : Appends (·.startLine channel) := by
  intro before c
  have hstart : (behind before c).lineStart = c.lineStart := rfl
  simp only [startLine, hstart]
  by_cases h : c.lineStart = true
  · rw [if_pos h, if_pos h]
  · rw [if_neg h, if_neg h]
    exact appends_print channel "\n" before c

theorem appends_status (codes word rest : String) : Appends (·.status codes word rest) := by
  intro before c
  have hminimal : (behind before c).minimal = c.minimal := rfl
  simp only [status, hminimal]
  by_cases h : c.minimal = true
  · rw [if_pos h, if_pos h]
  · rw [if_neg h, if_neg h]
    exact appends_write _ _ before c

theorem appends_printRegisters (channel : Channel) (b : Registers) :
    Appends (·.printRegisters channel b) := by
  have hlines : ∀ texts : List String, Appends fun c => texts.foldl (·.print channel ·) c := by
    intro texts
    induction texts with
    | nil => intro before c; rfl
    | cons text texts ih =>
      intro before c
      simp only [List.foldl_cons, appends_print channel text before c]
      exact ih before _
  intro before c
  exact hlines (if c.minimal then b.plainLines else b.tableLines) before c

/-- Texts on the diagnostics are not on the standard output. -/
theorem stdout_behind {before : Array Write} (hb : ∀ w ∈ before, w.destination = .diagnostics)
    (c : Console) : (behind before c).stdout = c.stdout := by
  have hbefore : before.foldl (fun text w => if w.destination = .output then text ++ w.text else text) "" =
      "" := by
    refine Array.foldl_induction (motive := fun _ text => text = "") rfl ?_
    intro i text htext
    have hd : before[i].destination = .diagnostics := hb _ (Array.getElem_mem i.isLt)
    have hout : before[i].destination ≠ .output := by
      rw [hd]
      decide
    exact (if_neg hout).trans htext
  unfold stdout textOf behind
  rw [Array.foldl_append, hbefore]

end Console

/-- The terminal behind texts that were written before. -/
def Terminal.behind (before : Array Write) (t : Terminal) : Terminal :=
  { t with console := t.console.behind before }

open Console in
/-- **What was written before has no part in the answers.** -/
theorem Terminal.morphism_behind (before : Array Write) : Host.Morphism (Terminal.behind before) where
  input prompt t := by
    have h := (appends_print .sometimes (prompt ++ "> ")).comp (appends_startLine .normal) before t.console
    obtain ⟨console, lines, alerts⟩ := t
    rcases lines with _ | ⟨_ | line, lines⟩
    · exact congrArg (fun c => (none, (⟨c, [], alerts⟩ : Terminal))) h
    · exact congrArg (fun c => (none, (⟨c, lines, alerts⟩ : Terminal))) h
    · exact congrArg (fun c => (some (stripEnding line),
        (⟨{ c with lineStart := true }, lines, alerts⟩ : Terminal))) h
  output text t := by
    have h := (appends_print .normal "\n").comp (appends_print .normal text) before t.console
    exact congrArg (fun c => (Signal.resume, (⟨c, t.lines, t.alerts⟩ : Terminal))) h
  halt t := by
    have h := (appends_print .sometimes "Halted\n").comp (appends_startLine .normal) before t.console
    exact congrArg (fun c => (⟨c, t.lines, t.alerts⟩ : Terminal)) h
  alert message t := by
    have h := (appends_print .always (alertText t.console.color message)).comp
      (appends_startLine .normal) before t.console
    exact congrArg (fun c => (Signal.resume, (⟨c, t.lines, t.alerts.push message⟩ : Terminal))) h

/-! ### Sessions behind what was written -/

namespace Session

/-- The session under another name, behind texts that were written before. -/
def behind (name : String) (before : Array Write) (s : Session) : Session :=
  { s with name, machine := s.machine.mapHost (Terminal.behind before) }

variable {name : String} {before : Array Write}

theorem onConsole_behind {f : Console → Console} (hf : Console.Appends f) (s : Session) :
    (s.behind name before).onConsole f = (s.onConsole f).behind name before := by
  obtain ⟨own, options, trace, ⟨registers, memory, loaded, status, host, output, steps⟩⟩ := s
  obtain ⟨console, lines, alerts⟩ := host
  exact congrArg (fun c => (⟨name, options, trace,
    ⟨registers, memory, loaded, status, ⟨c, lines, alerts⟩, output, steps⟩⟩ : Session)) (hf before console)

theorem showNext_behind (s : Session) :
    (s.behind name before).showNext = s.showNext.map id (behind name before) := by
  have hpeek : (s.behind name before).machine.peek = s.machine.peek := Machine.peek_mapHost _ _
  unfold showNext
  rw [hpeek]
  cases s.machine.peek with
  | error e => rfl
  | ok i =>
    exact congrArg (Prod.mk _) (onConsole_behind (Console.appends_print .sometimes (traceLine s.machine.pc i)) s)

theorem stopAtLimit_behind (s : Session) :
    (s.behind name before).stopAtLimit = s.stopAtLimit.behind name before := by
  have hpause := Machine.pause_mapHost (Terminal.behind before) s.machine
  have hstatus := (Console.appends_status red "Stopped" "step limit reached").comp
    (Console.appends_startLine .normal)
  refine Eq.trans ?_ (onConsole_behind hstatus { s with machine := s.machine.pause })
  exact congrArg (fun machine => onConsole { s.behind name before with machine } _) hpause

theorem stepOnce_behind (s : Session) :
    (s.behind name before).stepOnce = s.stepOnce.map id (behind name before) := by
  have hstep : (s.behind name before).machine.step = _ :=
    Machine.step_mapHost (Terminal.morphism_behind before) s.machine
  unfold stepOnce
  simp only
  rw [hstep]
  rcases s.machine.step with ⟨_ | outcome, m⟩ <;> rfl

/-- **What was written before has no part in a round.** -/
theorem round_behind (s : Session) :
    (s.behind name before).round = s.round.map id (behind name before) := by
  have hstatus : (s.behind name before).machine.status = s.machine.status := rfl
  have hlimit : (s.behind name before).limitReached = s.limitReached := rfl
  have htrace : (s.behind name before).trace = s.trace := rfl
  unfold round
  rw [hstatus, hlimit, htrace, showNext_behind, stepOnce_behind, stopAtLimit_behind]
  by_cases hs : s.machine.status ≠ .running
  · rw [if_pos hs, if_pos hs]
    rfl
  rw [if_neg hs, if_neg hs]
  by_cases hl : s.limitReached = true
  · rw [if_pos hl, if_pos hl]
    rfl
  rw [if_neg hl, if_neg hl]
  by_cases ht : s.trace = true
  · rw [if_pos ht, if_pos ht]
    rcases s.showNext with ⟨_ | _, shown⟩
    · rfl
    · exact stepOnce_behind shown
  · rw [if_neg ht, if_neg ht]

/-- **Nor has it in all rounds.** -/
theorem rounds_behind (fuel : ℕ) : ∀ s : Session,
    rounds fuel (s.behind name before) = (rounds fuel s).map (Prod.map id (behind name before)) := by
  induction fuel with
  | zero => intro s; rfl
  | succ fuel ih =>
    intro s
    unfold rounds
    rw [round_behind]
    rcases s.round with ⟨_ | again, next⟩
    · rfl
    · cases again with
      | false => rfl
      | true => exact ih next

/-- The machine of a loaded session is started. -/
def setOff (s : Session) : Except Failure Unit × Session :=
  let s := s.onConsole (·.status green "Running" "loaded program")
  let (started, machine) := s.machine.start
  (if started then .ok () else .error .notStarted, { s with machine })

/-- What a session does once its file is loaded. -/
def proceed (fuel : ℕ) : Except Failure Unit × Session → Option (Except Failure Unit × Session)
  | (.error e, s) => some (.error e, s)
  | (.ok (), s) =>
    match s.setOff with
    | (.error e, s) => some (.error e, s)
    | (.ok (), s) => (rounds fuel s).map ending

theorem run_eq_proceed (fuel : ℕ) (s : Session) (content : Except FileError ByteArray) :
    s.run fuel content = proceed fuel (s.load content) := by
  unfold run launch
  rcases s.load content with ⟨_ | _, loaded⟩ <;> rfl

theorem setOff_behind (s : Session) :
    (s.behind name before).setOff = s.setOff.map id (behind name before) := by
  unfold setOff
  rw [onConsole_behind (Console.appends_status green "Running" "loaded program")]
  generalize s.onConsole (·.status green "Running" "loaded program") = s
  have hstart : (s.behind name before).machine.start = _ :=
    Machine.start_mapHost (Terminal.morphism_behind before) s.machine
  simp only
  rw [hstart]
  rfl

/-- What is seen of an outcome: the result and the standard output. -/
def seen (r : Except Failure Unit × Session) : Except Failure Unit × String := (r.1, r.2.console.stdout)

section

variable (hb : ∀ w ∈ before, w.destination = .diagnostics)

include hb

theorem seen_behind (r : Except Failure Unit × Session) :
    seen (r.map id (behind name before)) = seen r :=
  congrArg (Prod.mk r.1) (Console.stdout_behind hb r.2.console)

theorem seen_ending_behind (r : Except InstructionError Unit × Session) :
    seen (ending (r.map id (behind name before))) = seen (ending r) := by
  obtain ⟨_ | _, s⟩ := r
  · exact seen_behind hb (_, s)
  · -- only the last status line has the name of the file
    have hstdout : ∀ s : Session, s.finish.console.stdout =
        (if s.trace then s.onConsole fun c =>
          (c.startLine .normal).printRegisters .sometimes s.machine.registers else s).console.stdout :=
      fun s => Console.stdout_status _ _ _ _
    have hregisters := (Console.appends_printRegisters .sometimes s.machine.registers).comp
      (Console.appends_startLine .normal)
    have hfinish : (s.behind name before).finish.console.stdout = s.finish.console.stdout := by
      have htrace : (s.behind name before).trace = s.trace := rfl
      rw [hstdout, hstdout, htrace]
      by_cases ht : s.trace = true
      · rw [if_pos ht, if_pos ht]
        exact (congrArg (fun s => s.console.stdout) (onConsole_behind hregisters s)).trans
          (Console.stdout_behind hb _)
      · rw [if_neg ht, if_neg ht]
        exact Console.stdout_behind hb _
    exact congrArg (Prod.mk (Except.ok ())) hfinish

/-- **What is seen of a run does not depend on the diagnostics before it.** -/
theorem seen_proceed_behind (fuel : ℕ) (r : Except Failure Unit × Session) :
    (proceed fuel (r.map id (behind name before))).map seen = (proceed fuel r).map seen := by
  obtain ⟨_ | _, s⟩ := r
  · exact congrArg some (seen_behind hb (_, s))
  · simp only [proceed, Prod.map_apply, id_eq]
    rw [setOff_behind]
    rcases s.setOff with ⟨_ | _, started⟩
    · exact congrArg some (seen_behind hb (_, started))
    · simp only [Prod.map_apply, id_eq]
      rw [rounds_behind]
      cases rounds fuel started with
      | none => rfl
      | some r => exact congrArg some (seen_ending_behind hb r)

end

/-! ### Loading a source and loading its file of machine code -/

/-- The first status line stands in front of all that comes. -/
theorem exists_behind_status (name : String) (options : RunOptions) (trace color : Bool)
    (lines : List (Option String)) (codes word rest : String) :
    ∃ before : Array Write, (∀ w ∈ before, w.destination = .diagnostics) ∧
      (new name options trace color lines).onConsole (·.status codes word rest) =
        (new "" options trace color lines).behind name before := by
  by_cases hm : options.minimal = true
  · refine ⟨#[], by simp, ?_⟩
    unfold new onConsole Console.status
    simp only [hm]
    rfl
  · refine ⟨#[⟨.diagnostics, paint color codes (Console.padLeft 12 word) ++ " " ++ rest ++ "\n"⟩],
      by simp, ?_⟩
    unfold new onConsole Console.status
    simp only [hm]
    rfl

theorem afterLoad_behind (s : Session) (p : List (Instruction Armlet.Op)) :
    (s.behind name before).afterLoad ((s.behind name before).machine.loadProgram p) =
      (s.afterLoad (s.machine.loadProgram p)).map id (behind name before) := by
  have hload : (s.behind name before).machine.loadProgram p = _ :=
    Machine.loadProgram_mapHost (Terminal.behind before) s.machine p
  rw [hload]
  rfl

end Session

/-! ### Two runs -/

section

variable {source : String} {p : List (Instruction Armlet.Op)} (options : RunOptions) (trace color : Bool)
  (lines : List (Option String))

theorem programOfBytes_toUTF8 (hp : parse source.toList true = .ok p) :
    programOfBytes (.ok source.toUTF8) = .ok p := by
  unfold programOfBytes
  simp only [bind, Except.bind, textOfBytes_toUTF8, Except.mapError, hp]

/-- A source is loaded as its program. -/
theorem load_source (hp : parse source.toList true = .ok p) {name : String}
    (hname : Path.extension? name = some "asm") :
    ∃ before : Array Write, (∀ w ∈ before, w.destination = .diagnostics) ∧
      (Session.new name options trace color lines).load (.ok source.toUTF8) =
        ((Session.new "" options trace color lines).afterLoad
          ((Session.new "" options trace color lines).machine.loadProgram p)).map id
          (Session.behind name before) := by
  obtain ⟨before, hb, hstatus⟩ := Session.exists_behind_status name options trace color lines green
    "Assembling" (targetText name)
  refine ⟨before, hb, ?_⟩
  have hname' : Path.extension? (Session.new name options trace color lines).name = some "asm" := hname
  have hstatus' : (Session.new name options trace color lines).onConsole (·.status green "Assembling"
      (targetText (Session.new name options trace color lines).name)) = _ := hstatus
  unfold Session.load
  rw [hname']
  simp only
  rw [hstatus', programOfBytes_toUTF8 hp]
  exact Session.afterLoad_behind _ p

/-- A file of machine code is loaded as the program that it was made of. -/
theorem load_codeText {code : List Char} (hcode : machineCode p = .ok code) {name : String}
    (hname : Path.extension? name = some "mc") :
    ∃ before : Array Write, (∀ w ∈ before, w.destination = .diagnostics) ∧
      (Session.new name options trace color lines).load (.ok (codeText Armlet.Op code).toUTF8) =
        ((Session.new "" options trace color lines).afterLoad
          ((Session.new "" options trace color lines).machine.loadProgram p)).map id
          (Session.behind name before) := by
  obtain ⟨before, hb, hstatus⟩ := Session.exists_behind_status name options trace color lines green
    "Loading" (targetText name)
  refine ⟨before, hb, ?_⟩
  have hname' : Path.extension? (Session.new name options trace color lines).name = some "mc" := hname
  have hstatus' : (Session.new name options trace color lines).onConsole (·.status green "Loading"
      (targetText (Session.new name options trace color lines).name)) = _ := hstatus
  have htext : (Except.ok (codeText Armlet.Op code).toUTF8 >>= textOfBytes) = .ok (codeText Armlet.Op code) :=
    textOfBytes_toUTF8 _
  unfold Session.load
  rw [hname']
  simp only
  rw [hstatus', htext, ← Session.afterLoad_behind, ← loadCode_codeText hcode]

end

/-- What is seen of a report: the output, the exit code and the failure. -/
def Report.seen (r : Report) : String × ℕ × Option Failure := (r.stdout, r.exit, r.failure)

/-- What is seen of the report with an outcome. -/
def Report.seenOf : Except Failure Unit × String → String × ℕ × Option Failure
  | (.ok (), stdout) => (stdout, 0, none)
  | (.error e, stdout) => (stdout, 1, some e)

/-- What is seen of the report of a run is what is seen of its outcome. -/
theorem seen_execute_run (name : String) (options : RunOptions) (env : Environment) (fuel : ℕ) :
    ((Command.run name options).execute fuel env).map Report.seen =
      (((Session.new name options env.trace env.color env.lines).run fuel (env.folder.read name)).map
        Session.seen).map Report.seenOf := by
  have hreport : ∀ r : Except Failure Unit × Session,
      (Report.ofConsole env.folder r.1 r.2.console).seen = Report.seenOf (Session.seen r) := by
    rintro ⟨_ | _, s⟩ <;> rfl
  simp only [Command.execute]
  rw [Option.map_map, Option.map_map]
  exact congrArg (Option.map · _) (funext hreport)

/-- **Running a source and running its assembled file are the same.** A source that parses has its
digits, and assembling it writes these, a word on each line. On every machine, loading that text and
loading the program end alike: in the same machine, or with the same error. So whatever the lines to
read, the limit, the trace and the styles are, running the source and running the file that was
written for it leave the same output, exit code and failure. -/
theorem run_assembled {source : String} {p : List (Instruction Armlet.Op)}
    (hp : parse source.toList true = .ok p) :
    ∃ code, machineCode p = .ok code ∧
    (∀ name dest env folder fuel, env.folder.read name = .ok source.toUTF8 →
      env.folder.write (codeFile name dest) (codeText Armlet.Op code).toUTF8 = .ok folder →
      ∃ r, (Command.assemble name dest).execute fuel env = some r ∧ r.failure = none ∧ r.folder = folder) ∧
    (∀ (σ : Type) (m : Machine Armlet.Op σ),
      m.loadCode (codeText Armlet.Op code).toList = m.loadProgram p) ∧
    ∀ asm mc options env fuel, Path.extension? asm = some "asm" → Path.extension? mc = some "mc" →
      env.folder.read asm = .ok source.toUTF8 → env.folder.read mc = .ok (codeText Armlet.Op code).toUTF8 →
      ((Command.run asm options).execute fuel env).map Report.seen =
        ((Command.run mc options).execute fuel env).map Report.seen := by
  obtain ⟨code, hcode⟩ := machineCode_of_sound fun i => sound_of_parse hp
  refine ⟨code, hcode, ?_, fun σ m => loadCode_codeText hcode m, ?_⟩
  · intro name dest env folder fuel hread hwrite
    have hassemble : ∀ c, assembleSource name (.ok source.toUTF8) c =
        (.ok (codeText Armlet.Op code), c.status green "Assembling" (targetText name)) := by
      intro c
      unfold assembleSource
      simp only [programOfBytes_toUTF8 hp, bind, Except.bind, hcode, Except.mapError]
      rfl
    refine ⟨_, rfl, ?_⟩
    unfold assembleFile
    rw [hread, hassemble]
    simp only [hwrite]
    exact ⟨rfl, rfl⟩
  · intro asm mc options env fuel hasm hmc hsource hwritten
    obtain ⟨before, hb, hload⟩ := load_source options env.trace env.color env.lines hp hasm
    obtain ⟨before', hb', hload'⟩ := load_codeText options env.trace env.color env.lines hcode hmc
    have hrun : ((Session.new asm options env.trace env.color env.lines).run fuel
        (.ok source.toUTF8)).map Session.seen =
        ((Session.new mc options env.trace env.color env.lines).run fuel
          (.ok (codeText Armlet.Op code).toUTF8)).map Session.seen := by
      rw [Session.run_eq_proceed, Session.run_eq_proceed, hload, hload', Session.seen_proceed_behind hb,
        Session.seen_proceed_behind hb']
    rw [seen_execute_run, seen_execute_run, hsource, hwritten, hrun]

/-- A source with a comment and a label, and the file that is written for it. -/
theorem run_assembled_output : ∃ (p : List (Instruction Armlet.Op)) (env : Environment),
    parse "out $1 # zero\nend: halt".toList true = .ok p ∧
    env.folder.read "out.asm" = .ok "out $1 # zero\nend: halt".toUTF8 ∧
    env.folder.read "out.mc" = .ok "1011100010000000\n0000010000000000\n".toUTF8 ∧
    ∀ fuel, ((Command.run "out.asm" {}).execute fuel env).map Report.seen =
      ((Command.run "out.mc" {}).execute fuel env).map Report.seen := by
  let env : Environment := { folder := ⟨[("out.asm", "out $1 # zero\nend: halt".toUTF8),
    ("out.mc", "1011100010000000\n0000010000000000\n".toUTF8)]⟩ }
  have hparse : parse "out $1 # zero\nend: halt".toList true =
      (.ok [{ body := .operation .output ["$1"], comment := some "zero", line := 1, address := some 0 },
        { body := .operation .halt [], labels := [⟨"end", 2⟩], line := 2, address := some 1 }] :
        Except ParseError (List (Instruction Armlet.Op))) := by cbv
  have hsource : env.folder.read "out.asm" = .ok "out $1 # zero\nend: halt".toUTF8 := by decide
  have hwritten : env.folder.read "out.mc" = .ok "1011100010000000\n0000010000000000\n".toUTF8 := by decide
  obtain ⟨code, hcode, -, -, hrun⟩ := run_assembled hparse
  have hdigits : code = "10111000100000000000010000000000".toList := by
    refine Except.ok.inj (hcode.symm.trans ?_)
    cbv
  have htext : codeText Armlet.Op code = "1011100010000000\n0000010000000000\n" := by
    rw [hdigits]
    cbv
  rw [htext] at hrun
  exact ⟨_, env, hparse, hsource, hwritten, fun fuel =>
    hrun "out.asm" "out.mc" {} env fuel (by decide) (by decide) hsource hwritten⟩

end TinyIsa
