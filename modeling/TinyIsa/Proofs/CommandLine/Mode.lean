import Mathlib
import TinyIsa.CommandLine.Session
import TinyIsa.Proofs.Except
import TinyIsa.Proofs.Machine.Journal

/-!
# Runs that are shown differently

What is shown of a run has no part in it: the console answers nothing. So two sessions with the
same lines to read go on in step, whatever their consoles are.

* `Dialogue`: a terminal without its console; `Terminal.morphism_dialogue`: it answers alike.
* `Session.Alike`: sessions that differ in what is shown at most.
* `Alike.run`: **sessions that are alike come to the same result**, and to sessions that are
  alike.
-/

namespace TinyIsa

open Machine

/-! ### Terminals without a console -/

/-- The input and the alerts of a terminal. -/
structure Dialogue where
  lines : List (Option String)
  alerts : Array String

instance : Host Dialogue where
  input _ d := (d.lines.head?.join.map Terminal.stripEnding, { d with lines := d.lines.tail })
  output _ d := (.resume, d)
  halt d := d
  alert message d := (.resume, { d with alerts := d.alerts.push message })

namespace Terminal

def dialogue (t : Terminal) : Dialogue := ⟨t.lines, t.alerts⟩

/-- The console has no part in the answers. -/
theorem morphism_dialogue : Host.Morphism dialogue where
  input prompt t := by
    obtain ⟨console, lines, alerts⟩ := t
    rcases lines with _ | ⟨_ | line, lines⟩ <;> rfl
  output _ _ := rfl
  halt _ := rfl
  alert _ _ := rfl

end Terminal

/-! ### Sessions -/

namespace Session

/-- Two sessions that differ in what is shown at most. -/
structure Alike (s t : Session) : Prop where
  name : s.name = t.name
  trace : s.trace = t.trace
  limit : s.options.limit = t.options.limit
  machine : s.machine.mapHost Terminal.dialogue = t.machine.mapHost Terminal.dialogue

/-- The same result, in sessions that are alike. -/
def Matching {α : Type} (r r' : α × Session) : Prop := r.1 = r'.1 ∧ r.2.Alike r'.2

variable {s t : Session}

theorem Alike.status (h : Alike s t) : s.machine.status = t.machine.status :=
  congrArg (fun m : Machine Armlet.Op Dialogue => m.status) h.machine

theorem Alike.steps (h : Alike s t) : s.machine.steps = t.machine.steps :=
  congrArg (fun m : Machine Armlet.Op Dialogue => m.steps) h.machine

theorem Alike.output (h : Alike s t) : s.machine.output = t.machine.output :=
  congrArg (fun m : Machine Armlet.Op Dialogue => m.output) h.machine

theorem Alike.alerts (h : Alike s t) : s.machine.host.alerts = t.machine.host.alerts :=
  congrArg (fun m : Machine Armlet.Op Dialogue => m.host.alerts) h.machine

theorem Alike.peek (h : Alike s t) : s.machine.peek = t.machine.peek := by
  rw [← peek_mapHost Terminal.dialogue, h.machine, peek_mapHost]

/-- What is shown does not count. -/
theorem Alike.onConsole (h : Alike s t) (f g : Console → Console) : Alike (s.onConsole f) (t.onConsole g) :=
  ⟨h.name, h.trace, h.limit, h.machine⟩

theorem Alike.withMachine (h : Alike s t) {m m' : Machine Armlet.Op Terminal}
    (hm : m.mapHost Terminal.dialogue = m'.mapHost Terminal.dialogue) :
    Alike { s with machine := m } { t with machine := m' } :=
  ⟨h.name, h.trace, h.limit, hm⟩

theorem Alike.afterLoad (h : Alike s t) {r r' : Except LoadError Unit × Machine Armlet.Op Terminal}
    (hr : r.map id (mapHost Terminal.dialogue) = r'.map id (mapHost Terminal.dialogue)) :
    Matching (s.afterLoad r) (t.afterLoad r') := by
  obtain ⟨hresult, hmachine⟩ := Prod.ext_iff.1 hr
  have hanswer : (s.afterLoad r).1 = (t.afterLoad r').1 := congrArg (Except.mapError Failure.load) hresult
  exact ⟨hanswer, h.withMachine hmachine⟩

theorem Alike.load (h : Alike s t) (content : Except FileError ByteArray) :
    Matching (s.load content) (t.load content) := by
  unfold Session.load
  rw [h.name]
  split
  · have hstatus := h.onConsole (·.status green "Assembling" (targetText t.name))
      (·.status green "Assembling" (targetText t.name))
    cases programOfBytes content with
    | error e => exact ⟨rfl, hstatus⟩
    | ok program =>
      refine hstatus.afterLoad ?_
      rw [← loadProgram_mapHost, hstatus.machine, loadProgram_mapHost]
  · have hstatus := h.onConsole (·.status green "Loading" (targetText t.name))
      (·.status green "Loading" (targetText t.name))
    cases content >>= textOfBytes with
    | error e => exact ⟨rfl, hstatus⟩
    | ok text =>
      refine hstatus.afterLoad ?_
      rw [← loadCode_mapHost, hstatus.machine, loadCode_mapHost]
  · exact ⟨rfl, h⟩
  · exact ⟨rfl, h⟩

/-- Starting the machines, on terminals that are shown differently. -/
theorem Alike.start (h : Alike s t) : s.machine.start.1 = t.machine.start.1 ∧
    s.machine.start.2.mapHost Terminal.dialogue = t.machine.start.2.mapHost Terminal.dialogue := by
  have hstart := start_mapHost Terminal.morphism_dialogue s.machine
  rw [h.machine, start_mapHost Terminal.morphism_dialogue] at hstart
  exact ⟨(congrArg Prod.fst hstart).symm, (congrArg Prod.snd hstart).symm⟩

theorem Alike.launch (h : Alike s t) (content : Except FileError ByteArray) :
    Matching (s.launch content) (t.launch content) := by
  obtain ⟨hresult, hload⟩ := h.load content
  unfold Session.launch
  rcases hs : s.load content with ⟨result, s'⟩
  rcases ht : t.load content with ⟨result', t'⟩
  rw [hs, ht] at hresult hload
  obtain rfl : result = result' := hresult
  cases result with
  | error e => exact ⟨rfl, hload⟩
  | ok _ =>
    have hstatus := hload.onConsole (·.status green "Running" "loaded program")
      (·.status green "Running" "loaded program")
    obtain ⟨hstarted, hmachine⟩ := hstatus.start
    simp only
    rw [hstarted]
    exact ⟨rfl, hstatus.withMachine hmachine⟩

theorem Alike.showNext (h : Alike s t) : Matching s.showNext t.showNext := by
  unfold Session.showNext
  rw [h.peek]
  cases t.machine.peek with
  | error e => exact ⟨rfl, h⟩
  | ok i =>
    exact ⟨rfl, h.onConsole (·.print .sometimes (traceLine s.machine.pc i))
      (·.print .sometimes (traceLine t.machine.pc i))⟩

theorem Alike.step (h : Alike s t) : s.machine.step.1 = t.machine.step.1 ∧
    s.machine.step.2.mapHost Terminal.dialogue = t.machine.step.2.mapHost Terminal.dialogue := by
  have hstep := step_mapHost Terminal.morphism_dialogue s.machine
  rw [h.machine, step_mapHost Terminal.morphism_dialogue] at hstep
  exact ⟨(congrArg Prod.fst hstep).symm, (congrArg Prod.snd hstep).symm⟩

theorem Alike.stepOnce (h : Alike s t) : Matching s.stepOnce t.stepOnce := by
  obtain ⟨hresult, hnext⟩ := h.step
  unfold Session.stepOnce
  simp only
  rcases hs : s.machine.step with ⟨result, m⟩
  rcases ht : t.machine.step with ⟨result', m'⟩
  rw [hs, ht] at hresult hnext
  obtain rfl : result = result' := hresult
  cases result with
  | error e => exact ⟨rfl, h.withMachine hnext⟩
  | ok outcome => exact ⟨rfl, h.withMachine hnext⟩

theorem Alike.stopAtLimit (h : Alike s t) : Alike s.stopAtLimit t.stopAtLimit := by
  have hpause := pause_mapHost Terminal.dialogue s.machine
  rw [h.machine, pause_mapHost] at hpause
  exact (h.withMachine hpause.symm).onConsole _ _

/-- **A round of sessions that are alike.** -/
theorem Alike.round (h : Alike s t) : Matching s.round t.round := by
  have hlimit : s.limitReached = t.limitReached := by
    unfold limitReached
    rw [h.limit, h.steps]
  unfold Session.round
  rw [h.status, hlimit, h.trace]
  by_cases hs : t.machine.status ≠ .running
  · rw [if_pos hs, if_pos hs]; exact ⟨rfl, h⟩
  rw [if_neg hs, if_neg hs]
  by_cases hl : t.limitReached = true
  · rw [if_pos hl, if_pos hl]; exact ⟨rfl, h.stopAtLimit⟩
  rw [if_neg hl, if_neg hl]
  by_cases ht : t.trace = true
  · rw [if_pos ht, if_pos ht]
    obtain ⟨hresult, hshow⟩ := h.showNext
    rcases hs : s.showNext with ⟨result, s'⟩
    rcases ht : t.showNext with ⟨result', t'⟩
    rw [hs, ht] at hresult hshow
    obtain rfl : result = result' := hresult
    cases result with
    | error e => exact ⟨rfl, hshow⟩
    | ok _ => exact hshow.stepOnce
  · rw [if_neg ht, if_neg ht]; exact h.stepOnce

theorem Alike.rounds (fuel : ℕ) : ∀ {s t : Session}, Alike s t →
    Option.Rel Matching (rounds fuel s) (rounds fuel t) := by
  induction fuel with
  | zero => intro s t _; exact Option.Rel.none
  | succ fuel ih =>
    intro s t h
    obtain ⟨hresult, hround⟩ := h.round
    unfold Session.rounds
    rcases hs : s.round with ⟨result, s'⟩
    rcases ht : t.round with ⟨result', t'⟩
    rw [hs, ht] at hresult hround
    obtain rfl : result = result' := hresult
    cases result with
    | error e => exact Option.Rel.some ⟨rfl, hround⟩
    | ok again =>
      cases again with
      | false => exact Option.Rel.some ⟨rfl, hround⟩
      | true => exact ih hround

theorem Alike.finish (h : Alike s t) : Alike s.finish t.finish := by
  unfold Session.finish
  simp only
  rw [h.trace]
  by_cases ht : t.trace = true
  · rw [if_pos ht, if_pos ht]
    exact (h.onConsole _ _).onConsole _ _
  · rw [if_neg ht, if_neg ht]
    exact h.onConsole _ _

/-- The end of a run. -/
def ending : Except InstructionError Unit × Session → Except Failure Unit × Session
  | (.error e, s) => (.error (.instruction e), s)
  | (.ok (), s) => (.ok (), s.finish)

theorem Matching.ending {r r' : Except InstructionError Unit × Session} (h : Matching r r') :
    Matching (Session.ending r) (Session.ending r') := by
  obtain ⟨result, s⟩ := r
  obtain ⟨result', t⟩ := r'
  obtain ⟨hresult, h⟩ := h
  obtain rfl : result = result' := hresult
  cases result with
  | error e => exact ⟨rfl, h⟩
  | ok _ => exact ⟨rfl, h.finish⟩

/-- **Sessions that are alike run alike**: to the same result, with the same output and alerts. -/
theorem Alike.run (h : Alike s t) (fuel : ℕ) (content : Except FileError ByteArray) :
    Option.Rel Matching (s.run fuel content) (t.run fuel content) := by
  obtain ⟨hresult, hlaunch⟩ := h.launch content
  unfold Session.run
  rcases hs : s.launch content with ⟨result, s'⟩
  rcases ht : t.launch content with ⟨result', t'⟩
  rw [hs, ht] at hresult hlaunch
  obtain rfl : result = result' := hresult
  cases result with
  | error e => exact Option.Rel.some ⟨rfl, hlaunch⟩
  | ok _ =>
    have hrounds := Alike.rounds fuel hlaunch
    change Option.Rel Matching ((Session.rounds fuel s').map ending) ((Session.rounds fuel t').map ending)
    generalize Session.rounds fuel s' = x at hrounds
    generalize Session.rounds fuel t' = y at hrounds
    cases hrounds with
    | none => exact Option.Rel.none
    | some h => exact Option.Rel.some h.ending

end Session

end TinyIsa
