import Mathlib
import TinyIsa.Proofs.Machine.Fetch
import TinyIsa.Proofs.Machine.Representation

/-!
# Branches to labels land on the label

The number that the second pass puts in the place of a label is printed, cut to a field, read
again as a signed number and then put into the program counter or added to it. In the end it
counts modulo the number of cells only.

* `Armlet.Taken`, `Tally.Taken`: the control transfers with an immediate operand, on the
  machines on which they are taken.
* `Armlet.perform_taken`, `Tally.perform_taken`: they jump to the label, modulo the number of
  cells.
* `fetch_assembled`: the instruction with the number is what is fetched.
* `branch_lands`: **a branch to a label puts the address of the label into the program counter.**
-/

namespace TinyIsa

open InstructionSet

/-! ### Jumps -/

namespace Machine

variable {Op σ : Type} [InstructionSet Op] {m : Machine Op σ}

/-- Addresses that are equal modulo the number of cells are one program counter. -/
theorem setPc_congr {t t' : ℕ} (h : t % 2 ^ addressSize Op = t' % 2 ^ addressSize Op) :
    m.setPc t = m.setPc t' := by
  have hword : Word.ofNat (addressSize Op) t = Word.ofNat (addressSize Op) t' := by
    refine congrArg (Word.mk _) (BitVec.eq_of_toNat_eq ?_)
    rw [BitVec.toNat_ofNat, BitVec.toNat_ofNat, h]
  unfold setPc
  rw [hword]

/-- A jump that does nothing else moves the program counter, and is counted. -/
theorem step_of_jump [Host σ] {i : Instruction Op} (hs : m.status ≠ .terminated) (hl : m.loaded ≠ 0)
    (hi : m.peek = .ok i) {t : ℕ} (hp : perform i.body.action m = (.jump t, m)) :
    m.step = (.ok .executed, { m with steps := m.steps + 1 }.setPc t) := by
  unfold step execute
  rw [if_neg hs, if_neg hl, hi]
  simp only [hp]
  unfold retire
  rw [if_neg hs]
  rfl

end Machine

/-! ### Armlet -/

namespace Armlet

variable {σ : Type} {m : Machine Op σ} {op : Op} {args : List String}

/-- A control transfer with an immediate operand that is taken: a jump, or a branch whose
condition holds of the flags. -/
inductive Taken (m : Machine Op σ) : Op → Prop
  | jump : Taken m (.jump .immediate)
  | branch (c : Condition) (flags : Word) (hf : m.registers.get? flagsName = some flags)
      (hc : c.holds flags = true) : Taken m (.branch c .immediate)

theorem Taken.layout (h : Taken m op) : op.layout = ⟨0, true⟩ := by
  cases h <;> rfl

/-- It goes on at its operand. -/
theorem Taken.perform [Host σ] (h : Taken m op) :
    Machine.perform (action op args) m = (.jump (immediateOf args 0).toNat, m) := by
  cases h with
  | jump => rfl
  | branch c flags hf hc =>
    have hflags : Machine.perform (Action.register flagsName (Word.zero flagsSize)) m = (flags, m) := by
      change ((m.registers.get? flagsName).getD _, m) = _
      rw [hf]
      rfl
    unfold action
    rw [Machine.perform_bind, hflags]
    simp only [hc, if_true]
    rfl

/-- **A branch to a label jumps to it.** An address above the middle of the memory is decoded as
a negative number, which is the same one modulo the number of cells. -/
theorem perform_taken [Host σ] (h : Taken m op) {target address : ℕ} (ht : target ≤ 2 ^ 16)
    {code : List Char} (he : encode op [Text.decimal (labelValue op target address)] = .ok code)
    (hd : decode op code = .ok args) :
    ∃ t, Machine.perform (action op args) m = (.jump t, m) ∧ t % 2 ^ 16 = target % 2 ^ 16 := by
  have hlabel : labelValue op target address = target := signedAddress_eq (by omega)
  obtain ⟨registers, value, -, hv, hd'⟩ := decode_encode he
  obtain rfl := Except.ok.inj (hd'.symm.trans hd)
  -- the value in the field is the address
  have hvalue : value = target := by
    have hmax : 2 ^ 16 ≤ Literal.maxMagnitude := by decide
    unfold immediateValue at hv
    rw [h.layout, if_pos rfl, hlabel] at hv
    exact Literal.eq_of_field_decimal distinct (by omega) hv
  have hi : immediateOf (operands op (registerFields registers) ⟨wordSize, BitVec.ofInt wordSize value⟩)
      op.layout.registers = ⟨wordSize, BitVec.ofInt wordSize value⟩ :=
    immediateOf_operands op (by rw [h.layout]) (layout_registers_le op)
  rw [h.layout] at hi
  refine ⟨_, h.perform, ?_⟩
  change (immediateOf (operands op _ ⟨wordSize, BitVec.ofInt wordSize value⟩) 0).toNat % 2 ^ 16 = _
  rw [hi, hvalue, BitVec.ofInt_natCast]
  exact (congrArg (· % 2 ^ 16) (BitVec.toNat_ofNat target 16)).trans (Nat.mod_mod _ _)

end Armlet

/-! ### Tally -/

namespace Tally

variable {σ : Type} {m : Machine Op σ} {op : Op} {args : List String}

/-- The branch, on a machine with another number than zero in its register. -/
inductive Taken (m : Machine Op σ) : Op → Prop
  | bnz (acc : Word) (ha : m.registers.get? accName = some acc) (hz : acc.isZero = false) : Taken m .bnz

/-- It goes on as far away as its operand says. -/
theorem Taken.perform [Host σ] (h : Taken m op) : Machine.perform (action op args) m =
    (.jump ((m.pc + operandOf args) % UInt64.size).toNat, m) := by
  obtain ⟨acc, ha, hz⟩ := h
  have hacc : Machine.perform (Action.register accName (Word.zero wordSize)) m = (acc, m) := by
    change ((m.registers.get? accName).getD _, m) = _
    rw [ha]
    rfl
  unfold action
  rw [Machine.perform_bind, hacc]
  simp only [hz, Bool.false_eq_true, if_false]
  rfl

theorem operandOf_decimal {v : ℤ} (h : v.natAbs < 2 ^ 63) : operandOf [Text.decimal v] = v := by
  have hsigned : isSigned64 v = true := by
    have hv : v.bmod UInt64.size = v := signedAddress_eq h
    unfold isSigned64
    rw [hv, beq_self_eq_true]
  unfold operandOf
  rw [List.head?_cons, Option.bind_some, Text.integer?_decimal, Option.filter_some, if_pos hsigned]
  rfl

/-- **A branch to a label jumps to it.** A distance that does not fit the field as a signed number
is decoded as another one, and the target is the same modulo the number of cells. -/
theorem perform_taken [Host σ] (h : Taken m op) {target : ℕ} (ht : target ≤ 2 ^ 5) (hpc : m.pc < 2 ^ 5)
    {code : List Char} (he : encode op [Text.decimal (labelValue op target m.pc)] = .ok code)
    (hd : decode op code = .ok args) :
    ∃ t, Machine.perform (action op args) m = (.jump t, m) ∧ t % 2 ^ 5 = target % 2 ^ 5 := by
  have hop : op = .bnz := by cases h; rfl
  subst hop
  have hlabel : labelValue Op.bnz target m.pc = (target : ℤ) - m.pc := by
    change signedAddress (signedAddress target - signedAddress m.pc) = _
    rw [signedAddress_eq (v := target) (by omega), signedAddress_eq (v := m.pc) (by omega)]
    exact signedAddress_eq (by omega)
  obtain ⟨operand, ho, rfl⟩ := encode_eq_ok.1 he
  obtain rfl := Except.ok.inj ((decode_pack .bnz operand).symm.trans hd)
  -- the number in the field is the distance
  have hoperand : operand = (target : ℤ) - m.pc := by
    have hmax : 2 ^ 5 ≤ Literal.maxMagnitude := by decide
    rw [hlabel] at ho
    exact Literal.eq_of_field_decimal distinct (by omega) ho
  -- decoding keeps it modulo the number of cells
  have hdecoded : (BitVec.ofInt operandSize operand).toInt = operand.bmod 32 := BitVec.toInt_ofInt operand
  have hmod : (operand.bmod 32) % 32 = operand % 32 := Int.bmod_emod
  have hlow : -16 ≤ operand.bmod 32 := Int.le_bmod (by decide)
  have hhigh : operand.bmod 32 < 16 := Int.bmod_lt (by decide)
  refine ⟨_, h.perform, ?_⟩
  change ((m.pc + operandOf [Text.decimal (BitVec.ofInt operandSize operand).toInt]) %
    UInt64.size).toNat % 2 ^ 5 = _
  have hsize : UInt64.size = 2 ^ 64 := rfl
  rw [hdecoded, operandOf_decimal (by omega), hsize]
  omega

end Tally

/-! ### A program -/

namespace Architecture

variable (a : Architecture) {σ : Type}

/-- A control transfer with an immediate operand that is taken on a machine. -/
def Taken (m : Machine a.Op σ) (op : a.Op) : Prop :=
  match a, m, op with
  | armlet, m, op => Armlet.Taken m op
  | tally, m, op => Tally.Taken m op

variable {m : Machine a.Op σ} {op : a.Op} {args : List String}

/-- A control transfer has one operand. -/
theorem length_of_taken (h : a.Taken m op) (ha : accepts op args = true) : args.length = 1 := by
  cases a with
  | armlet =>
    have hlayout := Armlet.Taken.layout h
    change op.layout.accepts args = true at ha
    rw [hlayout] at ha
    unfold Armlet.Layout.accepts at ha
    simp only [Bool.and_eq_true, beq_iff_eq] at ha
    exact ha.1.1
  | tally =>
    obtain ⟨acc, -, -⟩ := h
    exact Tally.accepts_iff.1 ha

/-- **A branch to a label jumps to it**, modulo the number of cells. -/
theorem perform_taken [Host σ] (h : a.Taken m op) {target : ℕ} (ht : target ≤ 2 ^ addressSize a.Op)
    (hpc : m.pc < 2 ^ addressSize a.Op) {code : List Char}
    (he : encode op [Text.decimal (labelValue op target m.pc)] = .ok code)
    (hd : decode op code = .ok args) :
    ∃ t, Machine.perform (InstructionSet.action op args) m = (.jump t, m) ∧
      t % 2 ^ addressSize a.Op = target % 2 ^ addressSize a.Op := by
  cases a with
  | armlet => exact Armlet.perform_taken h ht he hd
  | tally => exact Tally.perform_taken h ht hpc he hd

end Architecture

section

variable {Op : Type} [InstructionSet Op] {lines : List SourceLine} {table : String → Option ℕ}
  {p : List (Instruction Op)}

/-- A name in the table is a label of the program. -/
theorem LaidOut.exists_label (h : LaidOut lines table p) {name : String} {target : ℕ}
    (ht : table name = some target) :
    ∃ j ∈ p, ∃ l ∈ j.labels, l.name = name ∧ j.address = some target := by
  obtain ⟨n, line, l, hline, hl, rfl, -⟩ := (h.label name target).1 ht
  have hmem : l ∈ lines.flatMap SourceLine.labels :=
    List.mem_flatMap.2 ⟨line, List.mem_of_getElem? hline, hl⟩
  rw [← h.labels] at hmem
  obtain ⟨j, hj, hl⟩ := List.mem_flatMap.1 hmem
  exact ⟨j, hj, l, hl, rfl, (h.carried j hj l hl).symm.trans ht⟩

variable [Lawful Op] {σ : Type} {source : List Char} {q : List (Instruction Op)}

/-- **An instruction of an assembled program is fetched** from any memory that holds its words. -/
theorem fetch_assembled (hq : parse source true = .ok q) {m₀ m₁ : Machine Op σ}
    (hload : m₀.loadProgram q = (.ok (), m₁)) {i : Instruction Op} (hi : i ∈ q) {op : Op} {args : List String}
    (hb : i.body = .operation op args) {memory : Array Word} {address : ℕ} (ha : i.address = some address)
    (hwidth : ∀ w ∈ memory, w.width = wordSize Op)
    (hwords : (memory.toList.drop address).take i.wordCount =
      (m₁.memory.toList.drop address).take i.wordCount) :
    ∃ code args', encode op args = .ok code ∧ decode op code = .ok args' ∧
      Instruction.ofMemory memory address =
        .ok { Instruction.ofOp op args' with address := some address } := by
  obtain ⟨codes, words, hcodes, hdigits, hwords', hlen, hroom, rfl⟩ := loadProgram_words hload
  obtain ⟨k, hk⟩ := List.mem_iff_getElem?.1 hi
  obtain ⟨haddress, haccepts⟩ := address_of_parse hq hk
  obtain rfl : totalWords (q.take k) = address := Option.some.inj (haddress.symm.trans ha)
  obtain ⟨code, hcode, hslice, hend⟩ := slice_words hcodes hdigits hwords' hlen
    (List.replicate (m₀.memory.size - words.length) (blankWord Op)) hk
  rw [memory_install, List.toList_toArray] at hwords
  rw [← hwords] at hslice
  have hcount : i.wordCount = InstructionSet.words op := by
    unfold Instruction.wordCount
    rw [hb]
    rfl
  have hencode : encode op args = .ok code := by
    unfold Instruction.code at hcode
    rw [hb] at hcode
    exact hcode
  rw [hcount] at hslice hend
  obtain ⟨args', hdecode, -⟩ := Lawful.encode_decode (haccepts op args hb) hencode
  exact ⟨code, args', hencode, hdecode, ofMemory_decoded hencode hdecode hwidth hslice⟩

end

/-- **Branches to labels land on the label.** Let a source be assembled and loaded, let one of its
instructions be a control transfer that is written with a reference to a label, and let a reachable
machine have its address in the program counter and its words there, with the transfer taken. Then
there is such a label, and a step puts its address, modulo the number of cells, into the program
counter and does nothing else. -/
theorem branch_lands (a : Architecture) {σ : Type} [Host σ] {source : List Char}
    {p q : List (Instruction a.Op)} (hp : parse source false = .ok p) (hq : parse source true = .ok q)
    {m₀ m₁ m : Machine a.Op σ} (h₀ : m₀.Reachable) (hload : m₀.loadProgram q = (.ok (), m₁))
    {i : Instruction a.Op} (hi : i ∈ p) {op : a.Op} {args : List String} {arg : String}
    (hb : i.body = .operation op args) (harg : arg ∈ args)
    (href : (dialect a.Op).isReference arg = true) (hm : m.Reachable) (hs : m.status ≠ .terminated)
    (hl : m.loaded ≠ 0) (hpc : i.address = some m.pc)
    (hwords : (m.memory.toList.drop m.pc).take i.wordCount =
      (m₁.memory.toList.drop m.pc).take i.wordCount)
    (ht : a.Taken m op) :
    ∃ target, (∃ j ∈ q, ∃ l ∈ j.labels, l.name = Dialect.referent arg ∧ j.address = some target) ∧
      (∀ j ∈ q, ∀ l ∈ j.labels, l.name = Dialect.referent arg → j.address = some target) ∧
      m.step = (.ok .executed, { m with steps := m.steps + 1 }.setPc target) ∧
      m.step.2.pc = target % 2 ^ addressSize a.Op := by
  obtain ⟨table, hrows⟩ := parse_false.1 hp
  obtain ⟨lines, -, hlaid⟩ := laidOut_of_parseRows hrows
  obtain ⟨hdefined, -, rfl⟩ := (parse_true_of_parseRows hrows hlaid.sound).1 hq
  -- the operand is the reference, and its number stands in its place
  have hlength := a.length_of_taken ht ((hlaid.sound i hi).accepted op args hb)
  obtain ⟨arg', rfl⟩ := List.length_eq_one_iff.1 hlength
  obtain rfl := List.mem_singleton.1 harg
  obtain ⟨target, htarget⟩ := hdefined i hi arg (by rw [hb]; exact harg) href
  have hbody : (i.substitute table.get?).body =
      .operation op [Text.decimal (labelValue op target m.pc)] := by
    unfold Instruction.substitute
    rw [hb]
    change Body.operation op [i.substituteArg table.get? arg] = _
    unfold Instruction.substituteArg
    rw [if_pos href, htarget, hpc, hb]
    rfl
  -- a label is where it was before the substitution
  obtain ⟨j, hj, l, hlabel, hname, haddress⟩ := hlaid.exists_label htarget
  have hjq : j.substitute table.get? ∈ p.map (·.substitute table.get?) := List.mem_map_of_mem hj
  have hroom : target ≤ 2 ^ addressSize a.Op := by
    obtain ⟨k, hk⟩ := List.mem_iff_getElem?.1 hjq
    obtain ⟨hk', -⟩ := address_of_parse hq hk
    obtain rfl := Option.some.inj (hk'.symm.trans haddress)
    obtain ⟨codes, words, -, -, -, hlen, hfits, -⟩ := loadProgram_words hload
    have hsize : m₀.memory.size = 2 ^ addressSize a.Op := h₀.wellFormed.size
    have hle := totalWords_take_le (p.map (·.substitute table.get?)) k
    omega
  obtain ⟨code, args', hencode, hdecode, hfetch⟩ := fetch_assembled hq hload (List.mem_map_of_mem hi)
    hbody hpc hm.wellFormed.cells (by rw [wordCount_substitute]; exact hwords)
  obtain ⟨t, hperform, hmod⟩ := a.perform_taken ht hroom (hm.wellFormed.pc_lt a.distinctRegisters)
    hencode hdecode
  have hstep : m.step = (.ok .executed, { m with steps := m.steps + 1 }.setPc target) := by
    rw [Machine.step_of_jump hs hl hfetch hperform, Machine.setPc_congr hmod]
  refine ⟨target, ⟨_, hjq, l, hlabel, hname, haddress⟩, ?_, hstep, ?_⟩
  · intro j' hj' l' hl' hname'
    obtain ⟨j₀, hj₀, rfl⟩ := List.mem_map.1 hj'
    have hcarried := hlaid.carried j₀ hj₀ l' hl'
    rw [hname', htarget] at hcarried
    exact hcarried.symm
  · have hcounted : ({ m with steps := m.steps + 1 } : Machine a.Op σ).WellFormed :=
      hm.wellFormed.congr rfl rfl rfl
    rw [hstep]
    exact hcounted.pc_setPc a.distinctRegisters target

/-- A branch to the end of a program, over a distance that is decoded as a negative number. -/
theorem branch_lands_end :
    ∃ (p q : List (Instruction Architecture.tally.Op)) (m₁ m : Machine Architecture.tally.Op Silence)
      (i : Instruction Architecture.tally.Op),
      parse "bnz &e\n.word 0,0,0,0,0,0,0,0,0,0,0,0,0,0,0,0,0\ne:".toList false = .ok p ∧
      parse "bnz &e\n.word 0,0,0,0,0,0,0,0,0,0,0,0,0,0,0,0,0\ne:".toList true = .ok q ∧
      (Machine.new .silence).loadProgram q = (.ok (), m₁) ∧ i ∈ p ∧
      i.body = .operation Tally.Op.bnz ["&e"] ∧ m.Reachable ∧ m.status = .paused ∧ m.loaded = 18 ∧
      i.address = some m.pc ∧
      (m.memory.toList.drop m.pc).take i.wordCount = (m₁.memory.toList.drop m.pc).take i.wordCount ∧
      Architecture.tally.Taken m Tally.Op.bnz ∧ m.step.1 = .ok .executed ∧ m.step.2.pc = 18 := by
  have hfalse : parse "bnz &e\n.word 0,0,0,0,0,0,0,0,0,0,0,0,0,0,0,0,0\ne:".toList false =
      (.ok [{ body := .operation .bnz ["&e"], line := 1, address := some 0 },
        { body := .data (List.replicate 17 "0"), line := 2, address := some 1 },
        { body := .remark, labels := [⟨"e", 3⟩], line := 3, address := some 18 }] :
        Except ParseError (List (Instruction Tally.Op))) := by cbv
  have htrue : parse "bnz &e\n.word 0,0,0,0,0,0,0,0,0,0,0,0,0,0,0,0,0\ne:".toList true =
      (.ok [{ body := .operation .bnz ["18"], line := 1, address := some 0 },
        { body := .data (List.replicate 17 "0"), line := 2, address := some 1 },
        { body := .remark, labels := [⟨"e", 3⟩], line := 3, address := some 18 }] :
        Except ParseError (List (Instruction Tally.Op))) := by cbv
  have hload : (Machine.new Silence.silence : Machine Tally.Op Silence).loadProgram
      [{ body := .operation .bnz ["18"], line := 1, address := some 0 },
        { body := .data (List.replicate 17 "0"), line := 2, address := some 1 },
        { body := .remark, labels := [⟨"e", 3⟩], line := 3, address := some 18 }] =
      (.ok (), (Machine.new Silence.silence).install (⟨8, 0x92⟩ :: List.replicate 17 ⟨8, 0⟩)) := by
    refine Machine.loadProgram_eq_ok.2 ⟨"10010010".toList ++ List.replicate 136 '0', by cbv, ?_⟩
    exact Machine.loadCode_eq_ok.2 ⟨_, (Machine.image_eq_ok (by decide)).2
      ⟨by decide, by decide, by decide⟩, rfl⟩
  have hreach : (Machine.setRegister ((Machine.new Silence.silence : Machine Tally.Op Silence).install
      (⟨8, 0x92⟩ :: List.replicate 17 ⟨8, 0⟩)) "acc" ⟨8, 1⟩).2.Reachable :=
    ((Machine.reachable_new _).loadProgram hload).after (.setRegister "acc" ⟨8, 1⟩)
  have htaken : Architecture.tally.Taken (Machine.setRegister
      ((Machine.new Silence.silence : Machine Tally.Op Silence).install
        (⟨8, 0x92⟩ :: List.replicate 17 ⟨8, 0⟩)) "acc" ⟨8, 1⟩).2 Tally.Op.bnz :=
    .bnz ⟨8, 1⟩ (by decide) (by decide)
  obtain ⟨target, -, hall, hstep, hpc⟩ := branch_lands .tally hfalse htrue (Machine.reachable_new _)
    hload List.mem_cons_self rfl (List.mem_singleton.2 rfl) (by decide) hreach (by decide) (by decide)
    (by decide) rfl htaken
  obtain rfl : 18 = target := Option.some.inj
    (hall { body := .remark, labels := [⟨"e", 3⟩], line := 3, address := some 18 }
      (List.mem_cons_of_mem _ (List.mem_cons_of_mem _ List.mem_cons_self)) ⟨"e", 3⟩ List.mem_cons_self
      (by decide))
  exact ⟨_, _, _, _, _, hfalse, htrue, hload, List.mem_cons_self, rfl, hreach, rfl, rfl, rfl, rfl, htaken,
    congrArg Prod.fst hstep, hpc⟩

end TinyIsa
