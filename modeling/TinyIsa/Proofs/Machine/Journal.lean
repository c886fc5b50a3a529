import Mathlib
import TinyIsa.Proofs.Machine.History
import TinyIsa.Proofs.Machine.Morphism

/-!
# Machines with a journal

What a machine does depends on its host only by the answers. So a host can write down all that
it is told, and nothing else changes.

* `Host.Morphism`: a map of hosts that keeps their answers; `Machine.mapHost`: the machine
  under such a map; `morphism_mapHost`: no instruction can tell.
* `after_mapHost`: **a call commutes with a map of hosts.**
* `Journal`: a host with the interrupts that reached it, in order.
* `Machine.record`: a call of a machine with a journal; `foldl_record`: without the journal it
  is the call.
-/

namespace TinyIsa

/-- A map of hosts that keeps what they answer. -/
structure Host.Morphism {σ τ : Type} [Host σ] [Host τ] (f : σ → τ) : Prop where
  input : ∀ prompt s, Host.input prompt (f s) = (Host.input prompt s).map id f
  output : ∀ text s, Host.output text (f s) = (Host.output text s).map id f
  halt : ∀ s, Host.halt (f s) = f (Host.halt s)
  alert : ∀ message s, Host.alert message (f s) = (Host.alert message s).map id f

/-- A call in which a new host is replaced. -/
def Call.mapHost {Op σ τ : Type} (f : σ → τ) : Call Op σ → Call Op τ
  | .loadProgram program => .loadProgram program
  | .loadCode code => .loadCode code
  | .start => .start
  | .pause => .pause
  | .halt => .halt
  | .step => .step
  | .run limit => .run limit
  | .runToEnd fuel => .runToEnd fuel
  | .interrupt i => .interrupt i
  | .execute i => .execute i
  | .reset => .reset
  | .resetMemory => .resetMemory
  | .resetRegisters => .resetRegisters
  | .setRegister name value => .setRegister name value
  | .setPc address => .setPc address
  | .writeMemory address value => .writeMemory address value
  | .changeHost host => .changeHost (f host)

namespace Machine

section mapHost

variable {Op σ τ : Type}

/-- The machine under a map of hosts. -/
def mapHost (f : σ → τ) (m : Machine Op σ) : Machine Op τ := { m with host := f m.host }

@[simp] theorem status_mapHost (f : σ → τ) (m : Machine Op σ) : (m.mapHost f).status = m.status := rfl

@[simp] theorem loaded_mapHost (f : σ → τ) (m : Machine Op σ) : (m.mapHost f).loaded = m.loaded := rfl

theorem pause_mapHost (f : σ → τ) (m : Machine Op σ) : (m.mapHost f).pause = m.pause.mapHost f := by
  unfold pause
  rw [status_mapHost]
  by_cases h : m.status = .running
  · rw [if_pos h, if_pos h]
    rfl
  · rw [if_neg h, if_neg h]

section

variable [Host σ] [Host τ] {f : σ → τ}

/-- **An interrupt commutes with a map of hosts.** -/
theorem interrupt_mapHost (hf : Host.Morphism f) (m : Machine Op σ) (i : Interrupt) :
    (m.mapHost f).interrupt i = (m.interrupt i).map id (mapHost f) := by
  cases i with
  | input prompt =>
    unfold interrupt mapHost
    simp only [hf.input]
    rfl
  | output text =>
    have h := hf.output text m.host
    unfold interrupt mapHost
    rcases hs : Host.output text m.host with ⟨signal, host⟩
    rw [hs] at h
    simp only [h, hs]
    cases signal <;> rfl
  | halt =>
    unfold interrupt mapHost
    simp only [hf.halt]
    rfl
  | alert message =>
    have h := hf.alert message m.host
    unfold interrupt mapHost
    rcases hs : Host.alert message m.host with ⟨signal, host⟩
    rw [hs] at h
    simp only [h, hs]
    cases signal <;> rfl

/-- **A map of hosts is a map of machines** that no instruction can tell. -/
theorem morphism_mapHost (hf : Host.Morphism f) : Morphism (mapHost f : Machine Op σ → Machine Op τ) where
  registers _ := rfl
  memory _ := rfl
  loaded _ := rfl
  terminated _ := Iff.rfl
  setRegister _ _ _ := rfl
  writeMemory _ _ _ := rfl
  interrupt := interrupt_mapHost hf
  count _ := rfl

theorem start_mapHost (hf : Host.Morphism f) (m : Machine Op σ) :
    (m.mapHost f).start = m.start.map id (mapHost f) := by
  unfold start
  rw [status_mapHost, loaded_mapHost, (morphism_mapHost hf).alert, (morphism_mapHost hf).alert]
  by_cases hs : m.status = .terminated
  · rw [if_pos hs, if_pos hs]
    rfl
  rw [if_neg hs, if_neg hs]
  by_cases hl : m.loaded = 0
  · rw [if_pos hl, if_pos hl]
    rfl
  · rw [if_neg hl, if_neg hl]
    rfl

end

variable [InstructionSet Op]

theorem peek_mapHost (f : σ → τ) (m : Machine Op σ) : (m.mapHost f).peek = m.peek := rfl

theorem loadCode_mapHost (f : σ → τ) (m : Machine Op σ) (code : List Char) :
    (m.mapHost f).loadCode code = (m.loadCode code).map id (mapHost f) := by
  have hsize : (m.mapHost f).memory.size = m.memory.size := rfl
  unfold loadCode
  rw [hsize]
  cases image Op m.memory.size code <;> rfl

theorem loadProgram_mapHost (f : σ → τ) (m : Machine Op σ) (program : List (Instruction Op)) :
    (m.mapHost f).loadProgram program = (m.loadProgram program).map id (mapHost f) := by
  unfold loadProgram
  cases machineCode program with
  | error e => rfl
  | ok code => exact loadCode_mapHost f m code

variable [Host σ] [Host τ] {f : σ → τ}

theorem step_mapHost (hf : Host.Morphism f) (m : Machine Op σ) :
    (m.mapHost f).step = m.step.map id (mapHost f) :=
  (morphism_mapHost hf).step m

theorem drive_mapHost (hf : Host.Morphism f) (n : ℕ) : ∀ (taken : ℕ) (m : Machine Op σ),
    (m.mapHost f).drive n taken = (m.drive n taken).map id (mapHost f) := by
  induction n with
  | zero => intro taken m; rfl
  | succ n ih =>
    intro taken m
    unfold drive
    rw [status_mapHost]
    by_cases hr : m.status = .running
    · rw [if_pos hr, if_pos hr, step_mapHost hf]
      rcases m.step with ⟨r, m'⟩
      cases r with
      | error e => rfl
      | ok o => exact ih (taken + 1) m'
    · rw [if_neg hr, if_neg hr]
      rfl

theorem run_mapHost (hf : Host.Morphism f) (limit : ℕ) (m : Machine Op σ) :
    (m.mapHost f).run limit = (m.run limit).map id (mapHost f) := by
  unfold run
  rw [start_mapHost hf]
  rcases m.start with ⟨started, m'⟩
  cases started with
  | false => rfl
  | true =>
    simp only [Prod.map_apply, id_eq]
    rw [drive_mapHost hf]
    rcases m'.drive limit 0 with ⟨r, m''⟩
    cases r <;> simp [pause_mapHost]

theorem runToEnd_mapHost (hf : Host.Morphism f) (fuel : ℕ) (m : Machine Op σ) :
    (m.mapHost f).runToEnd fuel = (m.runToEnd fuel).map (Prod.map id (mapHost f)) := by
  unfold runToEnd
  rw [start_mapHost hf]
  rcases m.start with ⟨started, m'⟩
  cases started with
  | false => rfl
  | true =>
    simp only [Prod.map_apply, id_eq]
    rw [drive_mapHost hf]
    rcases m'.drive fuel 0 with ⟨r, m''⟩
    cases r with
    | error e => simp [pause_mapHost]
    | ok taken =>
      simp only [Prod.map_apply, id_eq]
      by_cases hr : m''.status = .running
      · have hr' : (m''.mapHost f).status = .running := hr
        rw [if_pos hr, if_pos hr']
        rfl
      · have hr' : (m''.mapHost f).status ≠ .running := hr
        rw [if_neg hr, if_neg hr']
        rfl

/-- **A call commutes with a map of hosts.** A new host is one that is mapped to that of the call. -/
theorem after_mapHost (hf : Host.Morphism f) {g : τ → σ} (hg : ∀ t, f (g t) = t) (m : Machine Op σ)
    (c : Call Op τ) : (m.after (c.mapHost g)).mapHost f = (m.mapHost f).after c := by
  cases c with
  | loadProgram program => exact (congrArg Prod.snd (loadProgram_mapHost f m program)).symm
  | loadCode code => exact (congrArg Prod.snd (loadCode_mapHost f m code)).symm
  | start => exact (congrArg Prod.snd (start_mapHost hf m)).symm
  | pause => exact (pause_mapHost f m).symm
  | halt => exact ((morphism_mapHost hf).halt m).symm
  | step => exact (congrArg Prod.snd (step_mapHost hf m)).symm
  | run limit => exact (congrArg Prod.snd (run_mapHost hf limit m)).symm
  | runToEnd fuel =>
    change (((m.runToEnd fuel).map Prod.snd).getD m).mapHost f =
      (((m.mapHost f).runToEnd fuel).map Prod.snd).getD (m.mapHost f)
    rw [runToEnd_mapHost hf]
    cases m.runToEnd fuel <;> rfl
  | interrupt i => exact (congrArg Prod.snd (interrupt_mapHost hf m i)).symm
  | execute i => exact (congrArg Prod.snd ((morphism_mapHost hf).perform i.body.action m)).symm
  | reset => rfl
  | resetMemory => rfl
  | resetRegisters => rfl
  | setRegister name value => rfl
  | setPc address => rfl
  | writeMemory address value => rfl
  | changeHost host => exact congrArg (fun host => ({ m with host } : Machine Op τ)) (hg host)

end mapHost

end Machine

/-! ### The journal -/

/-- A host and the interrupts that reached it, in order. -/
structure Journal (σ : Type) where
  host : σ
  entries : List Interrupt := []

namespace Journal

variable {σ : Type} [Host σ]

instance : Host (Journal σ) where
  input prompt j :=
    let (reply, host) := Host.input prompt j.host
    (reply, ⟨host, j.entries ++ [.input prompt]⟩)
  output text j :=
    let (signal, host) := Host.output text j.host
    (signal, ⟨host, j.entries ++ [.output text]⟩)
  halt j := ⟨Host.halt j.host, j.entries ++ [.halt]⟩
  alert message j :=
    let (signal, host) := Host.alert message j.host
    (signal, ⟨host, j.entries ++ [.alert message]⟩)

/-- The journal has no part in the answers. -/
theorem morphism_host : Host.Morphism (Journal.host : Journal σ → σ) :=
  ⟨fun _ _ => rfl, fun _ _ => rfl, fun _ => rfl, fun _ _ => rfl⟩

end Journal

namespace Machine

variable {Op σ : Type} [InstructionSet Op]

/-- The machine with an empty journal. -/
def journaled (m : Machine Op σ) : Machine Op (Journal σ) := m.mapHost fun host => { host }

/-- The interrupts that reached the host. -/
def told (m : Machine Op (Journal σ)) : List Interrupt := m.host.entries

variable [Host σ]

/-- A machine after a call, where a new host goes on with the journal. -/
def record (m : Machine Op (Journal σ)) (c : Call Op σ) : Machine Op (Journal σ) :=
  m.after (c.mapHost fun host => { host, entries := m.told })

theorem record_mapHost (m : Machine Op (Journal σ)) (c : Call Op σ) :
    (m.record c).mapHost Journal.host = (m.mapHost Journal.host).after c :=
  after_mapHost Journal.morphism_host (fun _ => rfl) m c

/-- **Without the journal the recorded calls are the calls.** -/
theorem foldl_record (calls : List (Call Op σ)) : ∀ m : Machine Op (Journal σ),
    (calls.foldl record m).mapHost Journal.host = calls.foldl after (m.mapHost Journal.host) := by
  induction calls with
  | nil => intro m; rfl
  | cons c calls ih =>
    intro m
    rw [List.foldl_cons, List.foldl_cons, ih, record_mapHost]

omit [InstructionSet Op] in
/-- Every interrupt is told, whatever becomes of the machine. -/
theorem told_interrupt (m : Machine Op (Journal σ)) (i : Interrupt) :
    (m.interrupt i).2.told = m.told ++ [i] := by
  have hheed : ∀ (m : Machine Op (Journal σ)) (s : Signal), (m.heed s).told = m.told := by
    intro m s
    cases s <;> rfl
  cases i with
  | input prompt => rfl
  | output text => exact hheed _ _
  | halt => rfl
  | alert message => exact hheed _ _

end Machine

end TinyIsa
