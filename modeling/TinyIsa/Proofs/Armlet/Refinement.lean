import Mathlib
import TinyIsa.Proofs.Armlet.Encoding
import TinyIsa.Proofs.Armlet.State

/-!
# The Armlet machine computes in numbers

A step of the machine turns a word into digits, the digits into argument texts and these into
registers and numbers again. What comes out is the step in numbers, which knows nothing of texts.

* `apply_eq`, `compare_eq`, `holds_eq`: words as numbers.
* `toDigits_eq_pack`: the digits of a first word are those of its bit fields.
* `perform_action`: what an instruction does, from the registers and the value that its
  arguments mean.
* `State.peek_toMachine`: the instruction at the program counter.
* `State.step_toMachine`: a step of the machine of some numbers; `machine_step`: **a step of a reachable
  machine is the step in numbers**.
-/

namespace TinyIsa

open InstructionSet

namespace Armlet

/-! ### Words as numbers -/

theorem apply_eq (f : Alu) (x y : BitVec 16) : f.apply ⟨16, x⟩ ⟨16, y⟩ = ⟨16, f.value x y⟩ := by
  cases f with
  | add => exact congrArg (fun z => Word.mk 16 (x + z)) (Word.operand_self y)
  | sub => exact congrArg (fun z => Word.mk 16 (x - z)) (Word.operand_self y)
  | and => exact congrArg (fun z => Word.mk 16 (x &&& z)) (Word.operand_self y)
  | or => exact congrArg (fun z => Word.mk 16 (x ||| z)) (Word.operand_self y)
  | xor => exact congrArg (fun z => Word.mk 16 (x ^^^ z)) (Word.operand_self y)
  | lsl => exact Word.shift_eq x y.toInt
  | lsr => exact Word.shift_eq x (-y.toInt)
  | asr => exact Word.arithmeticShift_eq x (-y.toInt)

theorem compare_eq (x y : BitVec 16) : compare ⟨16, x⟩ ⟨16, y⟩ = ⟨3, comparison x y⟩ := by
  have hxy : (Word.mk 16 x = Word.mk 16 y) = (x = y) := by simp
  have hbits : ∀ e l u : Bool, Word.ofBits [e, l, u] =
      ⟨3, BitVec.ofNat 3 ((if e then 1 else 0) + (if l then 2 else 0) + (if u then 4 else 0))⟩ := by
    decide
  unfold compare comparison
  rw [hbits]
  simp only [decide_eq_true_eq, hxy]
  rfl

theorem holds_eq (condition : Condition) (flags : BitVec 3) :
    condition.holds ⟨3, flags⟩ = condition.taken flags := by
  revert flags
  cases condition <;> decide

/-! ### The fields of a word -/

theorem ofInt_toNat {n : ℕ} (x : BitVec n) : Word.ofInt n x.toNat = ⟨n, x⟩ := by
  unfold Word.ofInt
  rw [BitVec.ofInt_natCast, BitVec.ofNat_toNat, BitVec.setWidth_eq]

/-- The digits of a first word are those of its fields. -/
theorem toDigits_eq_pack (w : BitVec 16) :
    Word.toDigits ⟨16, w⟩ = Field.pack (wordFields (w.extractLsb' 10 6).toNat (w.extractLsb' 7 3).toNat
      (w.extractLsb' 4 3).toNat (w.extractLsb' 1 3).toNat (w.extractLsb' 0 1).toNat) := by
  -- the fields are cut off one by one, the highest first
  have h1 := Word.toDigits_extract (n := 6) (m := 10) w
  have h2 := Word.toDigits_extract (n := 3) (m := 7) (w.extractLsb' 0 10)
  have h3 := Word.toDigits_extract (n := 3) (m := 4) (w.extractLsb' 0 7)
  have h4 := Word.toDigits_extract (n := 3) (m := 1) (w.extractLsb' 0 4)
  rw [BitVec.extractLsb'_extractLsb'_of_le (by decide), BitVec.extractLsb'_extractLsb'_of_le (by decide)]
    at h2 h3 h4
  change _ = (Word.ofInt 6 _).toDigits ++ ((Word.ofInt 3 _).toDigits ++ ((Word.ofInt 3 _).toDigits ++
    ((Word.ofInt 3 _).toDigits ++ ((Word.ofInt 1 _).toDigits ++ []))))
  rw [h1, h2, h3, h4, ofInt_toNat, ofInt_toNat, ofInt_toNat, ofInt_toNat, ofInt_toNat, List.append_nil]

/-- **The operation of a word** is that of its six highest bits. -/
theorem lookup_eq (w : BitVec 16) :
    Instruction.lookup ⟨16, w⟩ = .ok (operation (w.extractLsb' 10 6).toNat) := by
  have htable : ∀ n < 64, (withOpcode? n).or fallback = some (operation n) := by decide
  have hcode : opcodeOf Op ⟨16, w⟩ = (w.extractLsb' 10 6).toNat := by
    have h := w.isLt
    change w.toNat >>> 10 = _
    rw [BitVec.extractLsb'_toNat, Nat.shiftRight_eq_div_pow]
    omega
  unfold Instruction.lookup
  rw [hcode, htable _ (w.extractLsb' 10 6).isLt]

/-! ### What an instruction does -/

/-- What the arguments of an instruction mean: some registers, and a value. -/
structure Operands (op : Op) (args : List String) (a b c : BitVec 3) (v : BitVec 16) : Prop where
  first : 0 < op.layout.registers → registerOf args 0 = registerName a.toNat
  second : 1 < op.layout.registers → registerOf args 1 = registerName b.toNat
  third : 2 < op.layout.registers → registerOf args 2 = registerName c.toNat
  value : op.layout.immediate = true → immediateOf args op.layout.registers = ⟨16, v⟩

/-- Where a jump goes on. -/
def flow : Option (BitVec 16) → Flow
  | none => .next
  | some target => .jump target.toNat

section

open Machine

variable {σ : Type} [Host σ] {args : List String} {k : ℕ} {r : BitVec 3} {v : BitVec 16}

theorem perform_read (s : State σ) (h : registerOf args k = registerName r.toNat) :
    perform (read args k) s.toMachine = (⟨16, s.read r⟩, s.toMachine) := by
  unfold read
  rw [h]
  change ((s.registers.get? (registerName r.toNat)).getD _, s.toMachine) = _
  rw [State.get?_registers]
  rfl

theorem perform_write (s : State σ) (h : registerOf args k = registerName r.toNat) (x : BitVec 16) :
    perform (write args k ⟨16, x⟩) s.toMachine = ((), (s.write r x).toMachine) := by
  unfold write
  rw [h]
  exact congrArg (Prod.mk ()) (State.setRegister_toMachine s r x)

theorem perform_operand (s : State σ) {source : Source}
    (hr : k < (source.layout k).registers → registerOf args k = registerName r.toNat)
    (hv : (source.layout k).immediate = true → immediateOf args (source.layout k).registers = ⟨16, v⟩) :
    perform (operand args k source) s.toMachine = (⟨16, s.last r v source⟩, s.toMachine) := by
  cases source with
  | register => exact perform_read s (hr (Nat.lt_succ_self k))
  | immediate =>
    have h : immediateOf args k = ⟨16, v⟩ := hv rfl
    unfold operand
    rw [h]
    rfl

/-- Input asks for a line with the name of the register, and stores the number in it. -/
theorem perform_readInput (s : State σ) (h : registerOf args 0 = registerName r.toNat) :
    perform (readInput args) s.toMachine = ((), (s.input r).toMachine) := by
  unfold readInput State.input
  rw [perform_bind, h]
  have hask : perform (Action.input ("in " ++ registerName r.toNat)) s.toMachine =
      ((Host.input ("in " ++ registerName r.toNat) s.host).1,
        State.toMachine { s with host := (Host.input ("in " ++ registerName r.toNat) s.host).2 }) := rfl
  rw [hask]
  obtain ⟨line, host⟩ := Host.input ("in " ++ registerName r.toNat) s.host
  -- the host has answered; the rest starts from the state with the new host
  have halert : ∀ (t : State σ) (message : String),
      perform (Action.alert message) t.toMachine = ((), (t.alert message).toMachine) := fun t message =>
    congrArg (Prod.mk ()) (State.alert_toMachine t message)
  cases line with
  | none =>
    change perform (Action.alert _ >>= fun _ => Action.stop) (State.toMachine { s with host }) = _
    rw [perform_bind, halert]
    exact congrArg (Prod.mk ()) (State.halt_toMachine _)
  | some line =>
    cases hv : inputValue line with
    | some x =>
      simp only [hv]
      exact perform_write _ h (BitVec.ofInt 16 x)
    | none =>
      simp only [hv]
      rw [perform_bind, halert]
      exact perform_write _ h 0

/-- **What an instruction does to the machine** it does to its numbers. -/
theorem perform_action (s : State σ) {op : Op} {a b c : BitVec 3} (h : Operands op args a b c v) :
    perform (action op args) s.toMachine =
      (flow (s.execute a b c v op).1, (s.execute a b c v op).2.toMachine) := by
  cases op with
  | nop => rfl
  | halt =>
    change perform (Action.stop >>= fun _ => pure Flow.next) s.toMachine = _
    rw [perform_bind]
    exact congrArg (Prod.mk Flow.next) (State.halt_toMachine s)
  | alu f source =>
    -- the registers in front of the last operand are there whatever its source
    have h0 := h.first (lt_layout_registers source (show 0 < 2 by decide))
    have h1 := h.second (lt_layout_registers source (show 1 < 2 by decide))
    simp only [action, perform_bind, perform_read s h1, perform_operand s (k := 2) h.third h.value,
      apply_eq, perform_write s h0]
    rfl
  | not =>
    have h0 := h.first (by decide)
    have h1 := h.second (by decide)
    have hinvert : ∀ x : BitVec 16, Word.invert ⟨16, x⟩ = ⟨16, ~~~x⟩ := fun _ => rfl
    simp only [action, perform_bind, perform_read s h1, hinvert, perform_write s h0]
    rfl
  | mov source =>
    have h0 := h.first (lt_layout_registers source (show 0 < 1 by decide))
    simp only [action, perform_bind, perform_operand s (k := 1) h.second h.value, perform_write s h0]
    rfl
  | cmp source =>
    have h0 := h.first (lt_layout_registers source (show 0 < 1 by decide))
    simp only [action, perform_bind, perform_read s h0, perform_operand s (k := 1) h.second h.value,
      compare_eq]
    exact congrArg (Prod.mk Flow.next) (State.setFlags_toMachine s _)
  | load source =>
    have h0 := h.first (lt_layout_registers source (show 0 < 1 by decide))
    simp only [action, perform_bind, perform_operand s (k := 1) h.second h.value]
    change perform (write args 0 (s.toMachine.readMemory (s.last b v source).toNat) >>= fun _ =>
      pure Flow.next) s.toMachine = _
    rw [State.readMemory_toMachine, perform_bind, perform_write s h0]
    rfl
  | store source =>
    have h0 := h.first (lt_layout_registers source (show 0 < 1 by decide))
    simp only [action, perform_bind, perform_operand s (k := 1) h.second h.value, perform_read s h0]
    exact congrArg (Prod.mk Flow.next) (State.writeMemory_toMachine s _ _)
  | jump source =>
    simp only [action, perform_bind, perform_operand s (k := 0) h.first h.value]
    rfl
  | branch condition source =>
    have hflags : perform (Action.register flagsName (Word.zero flagsSize)) s.toMachine =
        (⟨3, s.flags⟩, s.toMachine) := by
      change ((s.registers.get? flagsName).getD _, s.toMachine) = _
      rw [State.get?_flags]
      rfl
    simp only [action, perform_bind, hflags, holds_eq, State.execute]
    by_cases ht : condition.taken s.flags = true
    · rw [if_pos ht, if_pos ht, perform_bind, perform_operand s (k := 0) h.first h.value]
      rfl
    · rw [if_neg ht, if_neg ht]
      rfl
  | input =>
    have h0 := h.first (by decide)
    simp only [action, perform_bind, perform_readInput s h0]
    rfl
  | output =>
    have h0 := h.first (by decide)
    simp only [action, perform_bind, perform_read s h0]
    exact congrArg (Prod.mk Flow.next) (State.output_toMachine s _)

end

/-! ### A step -/

namespace State

variable {σ : Type}

/-- The arguments that the instruction at the program counter is decoded to. -/
def args (s : State σ) : List String :=
  operands s.op [⟨3, s.a⟩, ⟨3, s.b⟩, ⟨3, s.c⟩] ⟨16, s.second⟩

theorem operands_args (s : State σ) : Operands s.op s.args s.a s.b s.c s.second where
  first h := registerOf_operands s.op h (by simp) s.a.isLt
  second h := registerOf_operands s.op h (by simp) s.b.isLt
  third h := registerOf_operands s.op h (by simp) s.c.isLt
  value h := immediateOf_operands s.op h (layout_registers_le s.op)

/-- **The instruction at the program counter** has the operation of its first word, and the
fields and the word behind it as its arguments. -/
theorem peek_toMachine (s : State σ) :
    s.toMachine.peek = .ok { Instruction.ofOp s.op s.args with address := some s.pc.toNat } := by
  obtain ⟨hfirst, hsecond⟩ := s.cell_toMachine
  have hlookup : Instruction.lookup ⟨16, s.word⟩ = .ok s.op := lookup_eq s.word
  have hdecode : decode s.op ((List.range s.op.words).flatMap fun k =>
      (Instruction.cell Op (cells s.memory) (s.pc.toNat + k)).toDigits) = .ok s.args := by
    have hpack := toDigits_eq_pack s.word
    by_cases hi : s.op.layout.immediate = true
    · have hwords : List.range s.op.words = [0, 1] := by unfold Op.words; rw [hi]; rfl
      have hfields : Field.fieldsOf (Word.toDigits ⟨16, s.second⟩ ++ []) [wordSize] = [⟨16, s.second⟩] :=
        Field.fieldsOf_toDigits_append ⟨16, s.second⟩ [] []
      rw [hwords]
      simp only [List.flatMap_cons, List.flatMap_nil, Nat.add_zero, hfirst, hsecond, hpack]
      rw [decode_pack s.op _ _ _ _ _ (binary_append.2 ⟨Word.binary_toDigits _, binary_nil⟩) hfields]
      exact congrArg (fun fields => Except.ok (operands s.op fields ⟨16, s.second⟩))
        (by simp only [registerSize, ofInt_toNat]; rfl)
    · have hwords : List.range s.op.words = [0] := by
        unfold Op.words
        rw [eq_false_of_ne_true hi]
        rfl
      rw [hwords]
      simp only [List.flatMap_cons, List.flatMap_nil, Nat.add_zero, hfirst, hpack]
      rw [decode_pack s.op _ _ _ _ _ binary_nil (Field.fieldsOf_nil [wordSize])]
      -- without an immediate operand the word behind has no part in the arguments
      unfold args operands
      rw [if_neg hi, if_neg hi]
      simp only [registerSize, ofInt_toNat]
      rfl
  unfold Machine.peek
  rw [pc_toMachine]
  change Instruction.ofMemory (cells s.memory) s.pc.toNat = _
  unfold Instruction.ofMemory
  rw [hfirst, hlookup]
  exact bind_eq_ok.2 ⟨s.op, rfl, bind_eq_ok.2 ⟨s.args, hdecode, rfl⟩⟩

theorem advance_toMachine (t : State σ) (words : ℕ) (target : Option (BitVec 16)) :
    t.toMachine.advance words (flow target) =
      toMachine { t with pc := target.getD (t.pc + BitVec.ofNat 16 words) } := by
  cases target with
  | none =>
    change t.toMachine.setPc (t.toMachine.pc + words) = _
    rw [setPc_toMachine, pc_toMachine, BitVec.ofNat_add, BitVec.ofNat_toNat, BitVec.setWidth_eq]
    rfl
  | some target =>
    change t.toMachine.setPc target.toNat = _
    rw [setPc_toMachine, BitVec.ofNat_toNat, BitVec.setWidth_eq]
    rfl

theorem retire_toMachine (t : State σ) (words : ℕ) (target : Option (BitVec 16)) :
    t.toMachine.retire words (flow target) =
      if t.status = .terminated then (.halted, toMachine { t with steps := t.steps + 1 })
      else (.executed, toMachine { t with
        steps := t.steps + 1
        pc := target.getD (t.pc + BitVec.ofNat 16 words) }) := by
  have h := advance_toMachine { t with steps := t.steps + 1 } words target
  unfold Machine.retire
  change (if t.status = .terminated then _ else
    (Outcome.executed, (toMachine { t with steps := t.steps + 1 }).advance words (flow target))) = _
  rw [h]
  rfl

/-- **The step of the machine of a state** is the step in numbers. -/
theorem step_toMachine [Host σ] (s : State σ) (hs : s.status ≠ .terminated) (hl : s.loaded ≠ 0) :
    s.toMachine.step = (.ok s.step.1, s.step.2.toMachine) := by
  have hexecute : s.toMachine.execute { Instruction.ofOp s.op s.args with address := some s.pc.toNat } =
      (flow (s.execute s.a s.b s.c s.second s.op).1, (s.execute s.a s.b s.c s.second s.op).2.toMachine) :=
    perform_action s (operands_args s)
  have hwords : ({ Instruction.ofOp s.op s.args with address := some s.pc.toNat } :
      Instruction Op).wordCount = s.op.words := rfl
  -- the action leaves the program counter and the count to the step
  obtain ⟨-, hpc, hsteps⟩ := frame_execute s s.op s.a s.b s.c s.second
  have hs' : s.toMachine.status ≠ .terminated := hs
  have hl' : s.toMachine.loaded ≠ 0 := hl
  unfold Machine.step step
  rw [if_neg hs', if_neg hl', peek_toMachine]
  simp only [hexecute, hwords]
  rcases hx : s.execute s.a s.b s.c s.second s.op with ⟨target, t⟩
  rw [hx] at hpc hsteps
  simp only at hpc hsteps ⊢
  rw [retire_toMachine, hpc, hsteps]
  by_cases ht : t.status = .terminated
  · rw [if_pos ht, if_pos ht]
  · rw [if_neg ht, if_neg ht]

end State

/-- **A step of the machine is the step in numbers.** On a machine with a program that some calls
led to and that has not halted, with any host, it is no error, leaves the machine with the
numbers of the reference step behind, and leaves alone what the instruction does not write. -/
theorem machine_step {σ : Type} [Host σ] {m : Machine Op σ} (h : m.Reachable)
    (hs : m.status ≠ .terminated) (hl : m.loaded ≠ 0) :
    (State.ofMachine m).toMachine = m ∧
      m.step = (.ok (State.ofMachine m).step.1, (State.ofMachine m).step.2.toMachine) ∧
      State.Frame (State.ofMachine m) (State.ofMachine m).op (State.ofMachine m).a (State.ofMachine m).b
        (State.ofMachine m).second (State.ofMachine m).step.2 ∧
      (State.ofMachine m).step.2.steps = m.steps + 1 := by
  have hm := State.toMachine_ofMachine h.wellFormed
  have hstep := State.step_toMachine (State.ofMachine m) hs hl
  obtain ⟨hframe, hsteps⟩ := State.frame_step (State.ofMachine m)
  rw [hm] at hstep
  exact ⟨hm, hstep, hframe, hsteps⟩

/-- A machine with an addition of minus one in its memory. -/
theorem machine_step_addition :
    ∃ m : Machine Op Silence, m.Reachable ∧ m.status ≠ .terminated ∧ m.loaded = 2 ∧
      (State.ofMachine m).toMachine = m ∧
      m.step = (.ok (State.ofMachine m).step.1, (State.ofMachine m).step.2.toMachine) ∧
      State.Frame (State.ofMachine m) (State.ofMachine m).op (State.ofMachine m).a (State.ofMachine m).b
        (State.ofMachine m).second (State.ofMachine m).step.2 ∧
      (State.ofMachine m).step.2.steps = m.steps + 1 := by
  have hsize : (Machine.new Silence.silence : Machine Op Silence).memory.size = 2 ^ 16 :=
    (Machine.wellFormed_new _).size
  have hload : (Machine.new Silence.silence : Machine Op Silence).loadCode
      "0000110010000000 1111111111111111".toList =
        (.ok (), (Machine.new Silence.silence).install [⟨16, 0x0C80⟩, ⟨16, 0xFFFF⟩]) := by
    refine Machine.loadCode_eq_ok.2 ⟨_, (Machine.image_eq_ok (by decide)).2 ⟨?_, by decide, by decide⟩, rfl⟩
    rw [hsize]
    decide
  have hreach : ((Machine.new Silence.silence : Machine Op Silence).install
      [⟨16, 0x0C80⟩, ⟨16, 0xFFFF⟩]).Reachable := by
    refine ⟨.silence, [.loadCode "0000110010000000 1111111111111111".toList], ?_⟩
    simp only [List.foldl_cons, List.foldl_nil, Machine.after, hload]
  have hstatus : ((Machine.new Silence.silence : Machine Op Silence).install
      [⟨16, 0x0C80⟩, ⟨16, 0xFFFF⟩]).status ≠ .terminated := by
    change Status.paused ≠ .terminated
    decide
  have hloaded : ((Machine.new Silence.silence : Machine Op Silence).install
      [⟨16, 0x0C80⟩, ⟨16, 0xFFFF⟩]).loaded = 2 := rfl
  exact ⟨_, hreach, hstatus, hloaded, machine_step hreach hstatus (by rw [hloaded]; decide)⟩

end Armlet

end TinyIsa
