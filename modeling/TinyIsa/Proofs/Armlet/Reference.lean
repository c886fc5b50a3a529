import Mathlib
import TinyIsa.Armlet.Behaviour
import TinyIsa.Machine.Step
import TinyIsa.Proofs.Word.Shift

/-!
# Armlet in numbers

The machine as its manual has it: registers, memory cells and addresses are numbers modulo
`2 ^ 16`, and an instruction is a word cut into bit fields. There are no digits, names or
argument texts.

* `State`: the state.
* `operation`: the opcodes; one without an operation halts.
* `State.execute`: what an instruction does.
* `State.step`: one instruction; `State.frame_step`: what it leaves alone.
-/

namespace TinyIsa.Armlet

/-- An Armlet machine in numbers, connected to a host. -/
structure State (σ : Type) where
  pc : BitVec 16
  /-- The registers; what the first one holds is never seen. -/
  register : BitVec 3 → BitVec 16
  /-- Equal, less as signed numbers, less as unsigned numbers, from the lowest bit on. -/
  flags : BitVec 3
  memory : BitVec 16 → BitVec 16
  /-- The number of words of the loaded program. -/
  loaded : ℕ
  status : Status
  host : σ
  output : Array String
  steps : ℕ

/-! ### Numbers -/

/-- The operation of an opcode. -/
def operation : ℕ → Op
  | 0 => .nop
  | 1 => .halt
  | 2 => .alu .add .register
  | 3 => .alu .add .immediate
  | 4 => .alu .sub .register
  | 5 => .alu .sub .immediate
  | 6 => .alu .and .register
  | 7 => .alu .and .immediate
  | 8 => .alu .or .register
  | 9 => .alu .or .immediate
  | 10 => .alu .xor .register
  | 11 => .alu .xor .immediate
  | 12 => .alu .lsl .register
  | 13 => .alu .lsl .immediate
  | 14 => .alu .lsr .register
  | 15 => .alu .lsr .immediate
  | 16 => .alu .asr .register
  | 17 => .alu .asr .immediate
  | 18 => .not
  | 19 => .mov .register
  | 20 => .mov .immediate
  | 21 => .cmp .register
  | 22 => .cmp .immediate
  | 23 => .load .register
  | 24 => .load .immediate
  | 25 => .store .register
  | 26 => .store .immediate
  | 27 => .jump .register
  | 28 => .jump .immediate
  | 29 => .branch .eq .register
  | 30 => .branch .eq .immediate
  | 31 => .branch .ne .register
  | 32 => .branch .ne .immediate
  | 33 => .branch .lt .register
  | 34 => .branch .lt .immediate
  | 35 => .branch .le .register
  | 36 => .branch .le .immediate
  | 37 => .branch .gt .register
  | 38 => .branch .gt .immediate
  | 39 => .branch .ge .register
  | 40 => .branch .ge .immediate
  | 41 => .branch .below .register
  | 42 => .branch .below .immediate
  | 43 => .branch .above .register
  | 44 => .branch .above .immediate
  | 45 => .input
  | 46 => .output
  | _ => .halt

/-- The functions of two operands, modulo `2 ^ 16`. -/
def Alu.value (x y : BitVec 16) : Alu → BitVec 16
  | add => x + y
  | sub => x - y
  | and => x &&& y
  | or => x ||| y
  | xor => x ^^^ y
  | lsl => BitVec.ofInt 16 (scale x.toNat y.toInt)
  | lsr => BitVec.ofInt 16 (scale x.toNat (-y.toInt))
  | asr => BitVec.ofInt 16 (scale x.toInt (-y.toInt))

/-- The flags of a comparison. -/
def comparison (x y : BitVec 16) : BitVec 3 :=
  BitVec.ofNat 3 ((if x = y then 1 else 0) + (if x.toInt < y.toInt then 2 else 0) +
    (if x.toNat < y.toNat then 4 else 0))

/-- Whether a branch is taken. -/
def Condition.taken (flags : BitVec 3) : Condition → Bool
  | eq => flags.getLsbD 0
  | ne => !flags.getLsbD 0
  | lt => flags.getLsbD 1
  | le => flags.getLsbD 0 || flags.getLsbD 1
  | gt => !(flags.getLsbD 0 || flags.getLsbD 1)
  | ge => !flags.getLsbD 1
  | below => flags.getLsbD 2
  | above => !(flags.getLsbD 0 || flags.getLsbD 2)

namespace State

variable {σ : Type}

/-! ### Registers and memory -/

/-- The value of a register; the first one is zero. -/
def read (s : State σ) (r : BitVec 3) : BitVec 16 := if r = 0 then 0 else s.register r

/-- The state with another value in a register; the first one takes none. -/
def write (s : State σ) (r : BitVec 3) (v : BitVec 16) : State σ :=
  if r = 0 then s else { s with register := Function.update s.register r v }

/-- The value of a last operand. -/
def last (s : State σ) (r : BitVec 3) (v : BitVec 16) : Source → BitVec 16
  | .register => s.read r
  | .immediate => v

/-! ### The host -/

/-- The state after an answer of the host. -/
def heed (s : State σ) : Signal → State σ
  | .resume => s
  | .terminate => { s with status := .terminated }

variable [Host σ]

/-- Hands a line of output over. -/
def print (s : State σ) (text : String) : State σ :=
  let (signal, host) := Host.output text s.host
  heed { s with host, output := s.output.push text } signal

def alert (s : State σ) (message : String) : State σ :=
  let (signal, host) := Host.alert message s.host
  heed { s with host } signal

/-- Halts, which the host is told once. -/
def halt (s : State σ) : State σ :=
  if s.status = .terminated then s
  else { s with status := .terminated, host := Host.halt s.host }

/-- Reads a number from the host. A line that is no number counts as zero, and without a
line the machine halts. -/
def input (s : State σ) (r : BitVec 3) : State σ :=
  let (line, host) := Host.input ("in " ++ registerName r.toNat) s.host
  let s := { s with host }
  match line with
  | none => (s.alert "No input available, halting").halt
  | some line =>
    match inputValue line with
    | some v => s.write r (BitVec.ofInt 16 v)
    | none => (s.alert (inputAlert line)).write r 0

/-! ### Instructions -/

/-- What an operation with three registers and an immediate value does, and where it jumps. -/
def execute (s : State σ) (a b c : BitVec 3) (v : BitVec 16) :
    Op → Option (BitVec 16) × State σ
  | .nop => (none, s)
  | .halt => (none, s.halt)
  | .alu f source => (none, s.write a (f.value (s.read b) (s.last c v source)))
  | .not => (none, s.write a (~~~s.read b))
  | .mov source => (none, s.write a (s.last b v source))
  | .cmp source => (none, { s with flags := comparison (s.read a) (s.last b v source) })
  | .load source => (none, s.write a (s.memory (s.last b v source)))
  | .store source =>
    (none, { s with memory := Function.update s.memory (s.last b v source) (s.read a) })
  | .jump source => (some (s.last a v source), s)
  | .branch condition source =>
    (if condition.taken s.flags then some (s.last a v source) else none, s)
  | .input => (none, s.input a)
  | .output => (none, s.print (Text.decimal (s.read a).toInt))

/-- The first word of the instruction at the program counter. -/
def word (s : State σ) : BitVec 16 := s.memory s.pc

/-- The word behind it, zero behind the end of the memory. -/
def second (s : State σ) : BitVec 16 := if s.pc = 65535 then 0 else s.memory (s.pc + 1)

/-- Bits 15 to 10 of the first word. -/
def op (s : State σ) : Op := operation (s.word.extractLsb' 10 6).toNat

/-- Bits 9 to 7. -/
def a (s : State σ) : BitVec 3 := s.word.extractLsb' 7 3

/-- Bits 6 to 4. -/
def b (s : State σ) : BitVec 3 := s.word.extractLsb' 4 3

/-- Bits 3 to 1. -/
def c (s : State σ) : BitVec 3 := s.word.extractLsb' 1 3

/-- One instruction. The program counter goes on unless the machine was terminated. -/
def step (s : State σ) : Outcome × State σ :=
  let (target, t) := s.execute s.a s.b s.c s.second s.op
  let t := { t with steps := s.steps + 1 }
  if t.status = .terminated then (.halted, t)
  else (.executed, { t with pc := target.getD (s.pc + BitVec.ofNat 16 s.op.words) })

/-! ### What is left alone -/

omit [Host σ]

/-- Two states that differ in one register, the status and the host at most. -/
structure Agree (r : BitVec 3) (s t : State σ) : Prop where
  pc : t.pc = s.pc
  register : ∀ q, q ≠ r → t.register q = s.register q
  flags : t.flags = s.flags
  memory : t.memory = s.memory
  loaded : t.loaded = s.loaded
  output : t.output = s.output
  steps : t.steps = s.steps

variable {r : BitVec 3} {s t u : State σ}

theorem Agree.refl (r : BitVec 3) (s : State σ) : Agree r s s :=
  ⟨rfl, fun _ _ => rfl, rfl, rfl, rfl, rfl, rfl⟩

theorem Agree.trans (h : Agree r s t) (h' : Agree r t u) : Agree r s u where
  pc := h'.pc.trans h.pc
  register q hq := (h'.register q hq).trans (h.register q hq)
  flags := h'.flags.trans h.flags
  memory := h'.memory.trans h.memory
  loaded := h'.loaded.trans h.loaded
  output := h'.output.trans h.output
  steps := h'.steps.trans h.steps

theorem agree_write (s : State σ) (r : BitVec 3) (v : BitVec 16) : Agree r s (s.write r v) := by
  unfold write
  by_cases h : r = 0
  · rw [if_pos h]; exact Agree.refl r s
  · rw [if_neg h]
    exact ⟨rfl, fun q hq => Function.update_of_ne hq _ _, rfl, rfl, rfl, rfl, rfl⟩

theorem agree_heed (r : BitVec 3) (s : State σ) (g : Signal) : Agree r s (s.heed g) := by
  cases g with
  | resume => exact Agree.refl r s
  | terminate => exact ⟨rfl, fun _ _ => rfl, rfl, rfl, rfl, rfl, rfl⟩

theorem agree_host (r : BitVec 3) (s : State σ) (host : σ) : Agree r s { s with host } :=
  ⟨rfl, fun _ _ => rfl, rfl, rfl, rfl, rfl, rfl⟩

variable [Host σ]

theorem agree_alert (r : BitVec 3) (s : State σ) (message : String) : Agree r s (s.alert message) :=
  (agree_host r s _).trans (agree_heed r _ _)

theorem agree_halt (r : BitVec 3) (s : State σ) : Agree r s s.halt := by
  unfold halt
  by_cases h : s.status = .terminated
  · rw [if_pos h]; exact Agree.refl r s
  · rw [if_neg h]; exact ⟨rfl, fun _ _ => rfl, rfl, rfl, rfl, rfl, rfl⟩

theorem agree_input (s : State σ) (r : BitVec 3) : Agree r s (s.input r) := by
  unfold input
  obtain ⟨line, host⟩ := Host.input ("in " ++ registerName r.toNat) s.host
  refine (agree_host r s host).trans ?_
  cases line with
  | none => exact (agree_alert r _ _).trans (agree_halt r _)
  | some line =>
    change Agree r _ (match inputValue line with
      | some v => write { s with host } r (BitVec.ofInt 16 v)
      | none => (alert { s with host } (inputAlert line)).write r 0)
    cases inputValue line with
    | some v => exact agree_write _ r _
    | none => exact (agree_alert r _ _).trans (agree_write _ r 0)

/-- What an instruction with some operands leaves alone. -/
structure Frame (s : State σ) (op : Op) (a b : BitVec 3) (v : BitVec 16) (t : State σ) : Prop where
  register : ∀ q, q ≠ a → t.register q = s.register q
  flags : (∀ source, op ≠ .cmp source) → t.flags = s.flags
  memory : ∀ x, (∀ source, op = .store source → x ≠ s.last b v source) → t.memory x = s.memory x
  loaded : t.loaded = s.loaded
  output : t.output = if op = .output then s.output.push (Text.decimal (s.read a).toInt) else s.output

omit [Host σ] in
theorem Agree.frame {a b : BitVec 3} {v : BitVec 16} {op : Op} (hop : op ≠ .output)
    (h : Agree a s t) : Frame s op a b v t where
  register := h.register
  flags _ := h.flags
  memory x _ := congrFun h.memory x
  loaded := h.loaded
  output := by rw [if_neg hop]; exact h.output

/-- **An operation leaves all but its own target alone**, and the program counter to the step. -/
theorem frame_execute (s : State σ) (op : Op) (a b c : BitVec 3) (v : BitVec 16) :
    Frame s op a b v (s.execute a b c v op).2 ∧ (s.execute a b c v op).2.pc = s.pc ∧
      (s.execute a b c v op).2.steps = s.steps := by
  -- most operations write their first register and talk to the host at most
  have of_agree : ∀ {t : State σ}, op ≠ .output → Agree a s t →
      Frame s op a b v t ∧ t.pc = s.pc ∧ t.steps = s.steps :=
    fun hop h => ⟨h.frame hop, h.pc, h.steps⟩
  cases op with
  | nop => exact of_agree (by simp) (Agree.refl a s)
  | halt => exact of_agree (by simp) (agree_halt a s)
  | alu f source => exact of_agree (by simp) (agree_write s a _)
  | not => exact of_agree (by simp) (agree_write s a _)
  | mov source => exact of_agree (by simp) (agree_write s a _)
  | cmp source =>
    exact ⟨⟨fun _ _ => rfl, fun h => absurd rfl (h source), fun _ _ => rfl, rfl, rfl⟩, rfl, rfl⟩
  | load source => exact of_agree (by simp) (agree_write s a _)
  | store source =>
    refine ⟨⟨fun _ _ => rfl, fun _ => rfl, fun x hx => ?_, rfl, rfl⟩, rfl, rfl⟩
    exact Function.update_of_ne (hx source rfl) _ _
  | jump source => exact of_agree (by simp) (Agree.refl a s)
  | branch condition source => exact of_agree (by simp) (Agree.refl a s)
  | input => exact of_agree (by simp) (agree_input s a)
  | output =>
    have h := agree_heed a { s with
        host := (Host.output (Text.decimal (s.read a).toInt) s.host).2
        output := s.output.push (Text.decimal (s.read a).toInt) }
      (Host.output (Text.decimal (s.read a).toInt) s.host).1
    exact ⟨⟨h.register, fun _ => h.flags, fun x _ => congrFun h.memory x, h.loaded, h.output⟩,
      h.pc, h.steps⟩

/-- **What a step leaves alone**: it is counted once, and changes its own target only. -/
theorem frame_step (s : State σ) :
    Frame s s.op s.a s.b s.second s.step.2 ∧ s.step.2.steps = s.steps + 1 := by
  obtain ⟨h, -, -⟩ := frame_execute s s.op s.a s.b s.c s.second
  unfold step
  rcases hx : s.execute s.a s.b s.c s.second s.op with ⟨target, t⟩
  rw [hx] at h
  simp only
  by_cases ht : t.status = .terminated
  · rw [if_pos ht]
    exact ⟨⟨h.register, h.flags, h.memory, h.loaded, h.output⟩, rfl⟩
  · rw [if_neg ht]
    exact ⟨⟨h.register, h.flags, h.memory, h.loaded, h.output⟩, rfl⟩

end State

end TinyIsa.Armlet
