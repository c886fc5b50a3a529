import Mathlib
import TinyIsa.Proofs.Architecture
import TinyIsa.Proofs.Machine.Journal

/-!
# Termination is final and announced once

A machine is terminated by its program, by its host or by the answer to an interrupt. Whatever
did it, only a reset ends it.

* `Action.Raises`: which interrupts an action raises by itself; no instruction announces a halt
  but by halting (`Architecture.raises_action`).
* `interrupt_eq_bracket`: an interrupt may as well be raised with the machine paused.
* `Lasting`: what the status and the journal keep, whatever is called.
* `Machine.Inert`: a machine that only warns.
* `termination_final`: **a terminated machine stays terminated and inert until it is reset**, and
  its halt was announced at most once.
-/

namespace TinyIsa

/-! ### What an action raises -/

namespace Action

variable {α β : Type} {allowed : Interrupt → Prop}

/-- Every interrupt that an action raises is allowed. What a halt raises is up to the machine. -/
def Raises (allowed : Interrupt → Prop) : Action α → Prop
  | .done _ => True
  | .readRegister _ next => ∀ r, (next r).Raises allowed
  | .writeRegister _ _ next => next.Raises allowed
  | .readCounter next => ∀ n, (next n).Raises allowed
  | .readMemory _ next => ∀ w, (next w).Raises allowed
  | .writeMemory _ _ next => next.Raises allowed
  | .interrupt i next => allowed i ∧ ∀ r, (next r).Raises allowed
  | .halt next => next.Raises allowed

theorem Raises.bind {x : Action α} {f : α → Action β} (hx : x.Raises allowed)
    (hf : ∀ a, (f a).Raises allowed) : (x >>= f).Raises allowed := by
  induction x with
  | done a => exact hf a
  | readRegister name next ih => intro r; exact ih r (hx r)
  | writeRegister name value next ih => exact ih hx
  | readCounter next ih => intro n; exact ih n (hx n)
  | readMemory address next ih => intro w; exact ih w (hx w)
  | writeMemory address value next ih => exact ih hx
  | interrupt i next ih => exact ⟨hx.1, fun r => ih r (hx.2 r)⟩
  | halt next ih => exact ih hx

theorem raises_register (name : String) (default : Word) : (register name default).Raises allowed :=
  fun _ => trivial

theorem raises_output (text : String) : (output text).Raises (· ≠ .halt) :=
  ⟨Interrupt.noConfusion, fun _ => trivial⟩

theorem raises_alert (message : String) : (alert message).Raises (· ≠ .halt) :=
  ⟨Interrupt.noConfusion, fun _ => trivial⟩

theorem raises_input (prompt : String) : (input prompt).Raises (· ≠ .halt) :=
  ⟨Interrupt.noConfusion, fun _ => trivial⟩

end Action

open TinyIsa.Action

namespace Armlet

variable (args : List String)

theorem raises_operand (k : ℕ) (source : Source) : (operand args k source).Raises (· ≠ .halt) := by
  cases source with
  | register => exact raises_register _ _
  | immediate => trivial

theorem raises_readInput : (readInput args).Raises (· ≠ .halt) := by
  refine (raises_input _).bind fun reply => ?_
  cases reply with
  | none => exact (raises_alert _).bind fun _ => trivial
  | some line =>
    simp only
    cases inputValue line with
    | some v => trivial
    | none => exact (raises_alert _).bind fun _ => trivial

/-- No Armlet instruction announces a halt by itself. -/
theorem raises_action (op : Op) : (action op args).Raises (· ≠ .halt) := by
  have hread : ∀ k, (read args k).Raises (· ≠ .halt) := fun k => raises_register _ _
  have hwrite : ∀ k value, (write args k value).Raises (· ≠ .halt) := fun _ _ => trivial
  cases op with
  | nop => trivial
  | halt => trivial
  | alu f source =>
    exact (hread 1).bind fun a => (raises_operand args 2 source).bind fun b =>
      (hwrite 0 _).bind fun _ => trivial
  | not => exact (hread 1).bind fun a => (hwrite 0 _).bind fun _ => trivial
  | mov source => exact (raises_operand args 1 source).bind fun v => (hwrite 0 v).bind fun _ => trivial
  | cmp source =>
    exact (hread 0).bind fun a => (raises_operand args 1 source).bind fun b => trivial
  | load source =>
    exact (raises_operand args 1 source).bind fun address =>
      Raises.bind (x := Action.memory address.toNat) (fun _ => trivial) fun v =>
        (hwrite 0 v).bind fun _ => trivial
  | store source =>
    exact (raises_operand args 1 source).bind fun address => (hread 0).bind fun v => trivial
  | jump source => exact (raises_operand args 0 source).bind fun target => trivial
  | branch condition source =>
    refine (raises_register _ _).bind fun flags => ?_
    by_cases h : condition.holds flags = true
    · rw [if_pos h]
      exact (raises_operand args 0 source).bind fun target => trivial
    · rw [if_neg h]
      trivial
  | input => exact (raises_readInput args).bind fun _ => trivial
  | output => exact (hread 0).bind fun v => (raises_output _).bind fun _ => trivial

end Armlet

/-- No Tally instruction announces a halt by itself. -/
theorem Tally.raises_action (op : Op) (args : List String) : (action op args).Raises (· ≠ .halt) := by
  refine (raises_register _ _).bind fun acc => ?_
  cases op with
  | halt => trivial
  | set => trivial
  | add => trivial
  | out => exact (raises_output _).bind fun _ => trivial
  | bnz =>
    simp only
    by_cases h : acc.isZero = true
    · rw [if_pos h]
      trivial
    · rw [if_neg h]
      exact Raises.bind (x := Action.counter) (fun _ => trivial) fun pc => trivial

/-- **No instruction announces a halt but by halting.** -/
theorem Architecture.raises_action (a : Architecture) (b : Body a.Op) : b.action.Raises (· ≠ .halt) := by
  cases b with
  | operation op args =>
    cases a with
    | armlet => exact Armlet.raises_action args op
    | tally => exact Tally.raises_action op args
  | data values => trivial
  | remark => trivial

namespace Machine

/-! ### Interrupts -/

section

variable {Op σ : Type}

/-- A machine behind an interrupt that found it with the given status: it executes again if it
did before, unless it was terminated meanwhile. -/
def resume (m : Machine Op σ) (before : Status) : Machine Op σ :=
  if before = .running ∧ m.status ≠ .terminated then { m with status := .running } else m

variable [Host σ]

/-- **Pausing the machine around an interrupt makes no difference.** -/
theorem interrupt_eq_bracket (m : Machine Op σ) (i : Interrupt) :
    m.interrupt i = ((m.pause.interrupt i).1, (m.pause.interrupt i).2.resume m.status) := by
  have hheed : ∀ (m : Machine Op σ) (s : Signal), m.heed s = (m.pause.heed s).resume m.status := by
    intro m s
    obtain ⟨registers, memory, loaded, status, host, output, steps⟩ := m
    cases status <;> cases s <;> rfl
  obtain ⟨registers, memory, loaded, status, host, output, steps⟩ := m
  cases i with
  | input prompt => cases status <;> rfl
  | output text =>
    have h := hheed ⟨registers, memory, loaded, status, (Host.output text host).2, output.push text, steps⟩
      (Host.output text host).1
    cases status <;> exact congrArg (Prod.mk none) h
  | halt => cases status <;> rfl
  | alert message =>
    have h := hheed ⟨registers, memory, loaded, status, (Host.alert message host).2, output, steps⟩
      (Host.alert message host).1
    cases status <;> exact congrArg (Prod.mk none) h

/-- An interrupt leaves the status alone or terminates the machine. -/
theorem status_interrupt (m : Machine Op σ) (i : Interrupt) :
    (m.interrupt i).2.status = m.status ∨ (m.interrupt i).2.status = .terminated := by
  have hheed : ∀ (m : Machine Op σ) (s : Signal),
      (m.heed s).status = m.status ∨ (m.heed s).status = .terminated := by
    intro m s
    cases s with
    | resume => exact Or.inl rfl
    | terminate => exact Or.inr rfl
  cases i with
  | input prompt => exact Or.inl rfl
  | output text => exact hheed { m with host := _, output := _ } _
  | halt => exact Or.inr rfl
  | alert message => exact hheed { m with host := _ } _

end

/-! ### What lasts -/

variable {Op σ : Type}

/-- A property of the status and of what the host was told that no call takes away. -/
structure Lasting (P : Status → List Interrupt → Prop) : Prop where
  /-- Into and out of execution. -/
  turn : ∀ {s told} s', s ≠ .terminated → s' ≠ .terminated → P s told → P s' told
  raise : ∀ {s told i}, i ≠ .halt → P s told → P s (told ++ [i])
  /-- The answer to an interrupt terminates the machine. -/
  stop : ∀ {s told}, P s told → P .terminated told
  halt : ∀ {s told}, s ≠ .terminated → P s told → P .terminated (told ++ [.halt])

/-- That a machine is terminated lasts. -/
theorem lasting_terminated : Lasting fun s _ => s = .terminated where
  turn _ hs _ h := absurd h hs
  raise _ h := h
  stop _ := rfl
  halt _ _ := rfl

/-- That a halt was announced once at most, and before the termination not at all, lasts. -/
theorem lasting_announced : Lasting fun s told =>
    told.count .halt ≤ 1 ∧ (s ≠ .terminated → told.count .halt = 0) where
  turn _ hs _ h := ⟨h.1, fun _ => h.2 hs⟩
  raise {s told i} hi h := by
    have hcount : (told ++ [i]).count .halt = told.count .halt := by simp [hi]
    rw [hcount]
    exact h
  stop h := ⟨h.1, fun hs => absurd rfl hs⟩
  halt {s told} hs h := by
    have hzero := h.2 hs
    refine ⟨?_, fun hs' => absurd rfl hs'⟩
    simp [hzero]

namespace Lasting

variable {P : Status → List Interrupt → Prop} (h : Lasting P) [Host σ] {m : Machine Op (Journal σ)}
include h

theorem interrupt {i : Interrupt} (hi : i ≠ .halt) (hm : P m.status m.told) :
    P (m.interrupt i).2.status (m.interrupt i).2.told := by
  rw [told_interrupt]
  rcases status_interrupt m i with hs | hs
  · rw [hs]; exact h.raise hi hm
  · rw [hs]; exact h.stop (h.raise hi hm)

theorem machine_halt (hm : P m.status m.told) : P m.halt.status m.halt.told := by
  unfold Machine.halt
  by_cases hs : m.status = .terminated
  · rw [if_pos hs]; exact hm
  · rw [if_neg hs]; exact h.halt hs hm

omit [Host σ] in
theorem pause (hm : P m.status m.told) : P m.pause.status m.pause.told :=
  pause_keeps (P := fun m => P m.status m.told) hm fun hs =>
    h.turn .paused (by simp [hs]) (by simp) hm

theorem start (hm : P m.status m.told) : P m.start.2.status m.start.2.told :=
  start_keeps (P := fun m => P m.status m.told) (fun _ => h.interrupt (by simp) hm) fun hs _ =>
    h.turn .running hs (by simp) hm

variable [InstructionSet Op]

theorem perform {α : Type} (x : Action α) : x.Raises (· ≠ .halt) → ∀ m : Machine Op (Journal σ),
    P m.status m.told → P (perform x m).2.status (perform x m).2.told := by
  induction x with
  | done a => intro _ m hm; exact hm
  | readRegister name next ih => intro hx m hm; exact ih _ (hx _) m hm
  | writeRegister name value next ih => intro hx m hm; exact ih hx _ hm
  | readCounter next ih => intro hx m hm; exact ih _ (hx _) m hm
  | readMemory address next ih => intro hx m hm; exact ih _ (hx _) m hm
  | writeMemory address value next ih => intro hx m hm; exact ih hx _ hm
  | interrupt i next ih => intro hx m hm; exact ih _ (hx.2 _) _ (h.interrupt hx.1 hm)
  | halt next ih => intro hx m hm; exact ih hx _ (h.machine_halt hm)

omit h [Host σ] in
theorem retire (words : ℕ) (flow : Flow) (hm : P m.status m.told) :
    P (m.retire words flow).2.status (m.retire words flow).2.told :=
  retire_keeps (P := fun m => P m.status m.told) hm (fun _ => hm) words flow

variable (hraises : ∀ b : Body Op, b.action.Raises (· ≠ .halt))
include hraises

theorem step (hm : P m.status m.told) : P m.step.2.status m.step.2.told :=
  step_keeps (P := fun m => P m.status m.told) hm (fun _ => h.interrupt (by simp) hm) fun i =>
    retire i.wordCount (m.execute i).1 (h.perform i.body.action (hraises i.body) m hm)

theorem run (limit : ℕ) (hm : P m.status m.told) : P (m.run limit).2.status (m.run limit).2.told :=
  run_keeps (P := fun m => P m.status m.told) (h.start hm) (fun _ hm => h.step hraises hm)
    (fun _ hm => h.pause hm) limit

omit h hraises [Host σ] in
theorem loadCode (code : List Char) (hm : P m.status m.told) :
    P (m.loadCode code).2.status (m.loadCode code).2.told :=
  loadCode_keeps (P := fun m => P m.status m.told) hm fun _ _ => hm

/-- **No call takes away what lasts**, apart from a reset and from a halt that the host announces. -/
theorem record {c : Call Op σ} (hreset : c ≠ .reset)
    (hhalt : c = .interrupt .halt → P .terminated (m.told ++ [.halt])) (hm : P m.status m.told) :
    P (m.record c).status (m.record c).told := by
  cases c with
  | loadProgram program =>
    exact loadProgram_keeps (P := fun m => P m.status m.told) hm fun code _ => loadCode code hm
  | loadCode code => exact loadCode code hm
  | start => exact h.start hm
  | pause => exact h.pause hm
  | halt => exact h.machine_halt hm
  | step => exact h.step hraises hm
  | run limit => exact h.run hraises limit hm
  | runToEnd fuel =>
    exact after_runToEnd_keeps (P := fun m => P m.status m.told) hm (h.run hraises fuel hm)
  | interrupt i =>
    by_cases hi : i = .halt
    · subst hi
      exact hhalt rfl
    · exact h.interrupt hi hm
  | execute i => exact h.perform i.body.action (hraises i.body) m hm
  | reset => exact absurd rfl hreset
  | resetMemory => exact hm
  | resetRegisters => exact hm
  | setRegister name value => exact hm
  | setPc address => exact hm
  | writeMemory address value => exact hm
  | changeHost host => exact hm

theorem foldl_record (calls : List (Call Op σ)) : ∀ m : Machine Op (Journal σ), .reset ∉ calls →
    (∀ before rest, calls = before ++ .interrupt .halt :: rest →
      P (before.foldl Machine.record m).status (before.foldl Machine.record m).told →
        P .terminated ((before.foldl Machine.record m).told ++ [.halt])) →
    P m.status m.told → P (calls.foldl Machine.record m).status (calls.foldl Machine.record m).told := by
  induction calls with
  | nil => intro m _ _ hm; exact hm
  | cons c calls ih =>
    intro m hreset hhalt hm
    rw [List.mem_cons, not_or] at hreset
    have hc := h.record hraises (Ne.symm hreset.1) (fun hc => hhalt [] calls (by rw [hc]; rfl) hm) hm
    refine ih (m.record c) hreset.2 (fun before rest hbefore => ?_) hc
    exact hhalt (c :: before) rest (by rw [hbefore]; rfl)

end Lasting

/-! ### A terminated machine -/

section

variable [Host σ]

/-- A machine whose host was warned once; the rest is as it was. -/
def warned (m : Machine Op (Journal σ)) (message : String) : Machine Op (Journal σ) :=
  { m with host := { host := (Host.alert message m.host.host).2, entries := m.told ++ [.alert message] } }

variable [InstructionSet Op]

/-- A machine that does nothing but warn, once for each attempt to execute. -/
structure Inert (m : Machine Op (Journal σ)) : Prop where
  start : m.start = (false, m.warned "Cannot start: the machine has halted, reset it first")
  step : m.step = (.ok .refused, m.warned "Cannot step: the machine has halted, reset it first")
  run : ∀ limit, m.run limit =
    (.ok ⟨0, .terminated⟩, m.warned "Cannot start: the machine has halted, reset it first")
  runToEnd : ∀ fuel, m.runToEnd fuel =
    some (.ok ⟨0, .terminated⟩, m.warned "Cannot start: the machine has halted, reset it first")
  pause : m.pause = m
  halt : m.halt = m

variable {m : Machine Op (Journal σ)}

omit [InstructionSet Op] in
theorem alert_of_terminated (h : m.status = .terminated) (message : String) :
    m.alert message = m.warned message := by
  have hheed : ∀ (m : Machine Op (Journal σ)) (s : Signal), m.status = .terminated → m.heed s = m := by
    intro m s hm
    cases s with
    | resume => rfl
    | terminate => unfold heed; rw [← hm]
  exact hheed (m.warned message) (Host.alert message m.host.host).1 h

/-- **A terminated machine is inert.** -/
theorem inert_of_terminated (h : m.status = .terminated) : m.Inert := by
  have hstart : m.start = (false, m.warned "Cannot start: the machine has halted, reset it first") := by
    unfold start
    rw [if_pos h, alert_of_terminated h]
  have hstatus : ∀ message, (m.warned message).status = .terminated := fun _ => h
  refine ⟨hstart, ?_, ?_, ?_, ?_, ?_⟩
  · unfold step
    rw [if_pos h, alert_of_terminated h]
  · intro limit
    unfold run
    rw [hstart]
    simp only [hstatus]
  · intro fuel
    unfold runToEnd
    rw [hstart]
    simp only [hstatus]
  · unfold pause
    rw [if_neg (by simp [h])]
  · unfold halt
    rw [if_pos h]

end

end Machine

open Machine

/-- **Termination is final and announced once.** From any machine on, with any host, and for any
calls without a reset: the journal is that of these calls; a machine that is terminated stays so;
a terminated machine does nothing but warn; and unless the host announces a halt to a terminated
machine, it was told of a halt at most once. -/
theorem termination_final (a : Architecture) {σ : Type} [Host σ] (m : Machine a.Op σ)
    (calls : List (Call a.Op σ)) (hreset : .reset ∉ calls) :
    (calls.foldl record m.journaled).mapHost Journal.host = calls.foldl after m ∧
      (m.status = .terminated → (calls.foldl record m.journaled).status = .terminated) ∧
      ((calls.foldl record m.journaled).status = .terminated →
        (calls.foldl record m.journaled).Inert) ∧
      ((∀ before rest, calls = before ++ .interrupt .halt :: rest →
          (before.foldl after m).status ≠ .terminated) →
        (calls.foldl record m.journaled).told.count .halt ≤ 1) := by
  have hforget : ∀ calls : List (Call a.Op σ),
      (calls.foldl record m.journaled).mapHost Journal.host = calls.foldl after m :=
    fun calls => foldl_record calls m.journaled
  refine ⟨hforget calls, ?_, inert_of_terminated, ?_⟩
  · intro hm
    exact lasting_terminated.foldl_record a.raises_action calls m.journaled hreset
      (fun _ _ _ _ => rfl) hm
  · intro hhalt
    have hlast := lasting_announced.foldl_record a.raises_action calls m.journaled hreset ?_
      ⟨Nat.zero_le 1, fun _ => rfl⟩
    · exact hlast.1
    · -- a halt that the host announces is the first one, as the machine is not terminated yet
      intro before rest hbefore hm
      have hstatus := hhalt before rest hbefore
      rw [← hforget before, status_mapHost] at hstatus
      exact lasting_announced.halt hstatus hm

/-- A machine that is halted, stepped, run and halted again, and warned by its host. -/
theorem termination_final_halted :
    ∃ (m : Machine Architecture.tally.Op Script) (calls : List (Call Architecture.tally.Op Script)),
      .reset ∉ calls ∧ calls = [.halt, .step, .run 3, .halt, .interrupt (.alert "late")] ∧
      (calls.foldl record m.journaled).mapHost Journal.host = calls.foldl after m ∧
      (calls.foldl record m.journaled).Inert ∧
      (calls.foldl record m.journaled).told.count .halt ≤ 1 := by
  have hreset : (.reset : Call Architecture.tally.Op Script) ∉
      [.halt, .step, .run 3, .halt, .interrupt (.alert "late")] := by simp
  have h := termination_final .tally (new {}) _ hreset
  have hhalt : ∀ before rest : List (Call Architecture.tally.Op Script),
      [.halt, .step, .run 3, .halt, .interrupt (.alert "late")] = before ++ .interrupt .halt :: rest →
        (before.foldl after (new {})).status ≠ .terminated := by
    intro before rest hbefore
    have hmem : (.interrupt .halt : Call Architecture.tally.Op Script) ∈
        [.halt, .step, .run 3, .halt, .interrupt (.alert "late")] := by simp [hbefore]
    simp at hmem
  exact ⟨new {}, _, hreset, rfl, h.1, h.2.2.1 rfl, h.2.2.2 hhalt⟩

end TinyIsa
