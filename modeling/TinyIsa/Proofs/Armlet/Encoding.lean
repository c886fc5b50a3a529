import Mathlib
import TinyIsa.Armlet.Behaviour
import TinyIsa.Proofs.InstructionSet

/-!
# Encoded Armlet instructions

* `encode_eq_ok`: the fields of an encoded instruction.
* `decode_of_fields`, `decode_pack`: the operands that the fields of an instruction spell.
* `registerOf_operands`, `immediateOf_operands`: what an instruction takes these operands for.
* Armlet is a lawful instruction set.
-/

namespace TinyIsa.Armlet

/-! ### Registers -/

theorem registerNumber?_registerName {n : ℕ} (h : n < 8) : registerNumber? (registerName n) = some n := by
  interval_cases n <;> decide

theorem registerNumber?_lt {arg : String} {n : ℕ} (h : registerNumber? arg = some n) : n < 8 := by
  unfold registerNumber? at h
  split at h
  · rename_i c _
    by_cases hc : '0' ≤ c ∧ c ≤ '7'
    · rw [if_pos hc] at h
      have h7 : c.toNat ≤ '7'.toNat := hc.2
      have : '7'.toNat = '0'.toNat + 7 := rfl
      have := Option.some.inj h
      omega
    · rw [if_neg hc] at h
      exact absurd h (by simp)
  · exact absurd h (by simp)

theorem registerNumber_eq_ok {arg : String} {n : ℕ} :
    registerNumber arg = .ok n ↔ registerNumber? arg = some n := by
  unfold registerNumber
  cases registerNumber? arg <;> simp

/-- A register argument begins with a dollar sign, which no reference does. -/
theorem not_isReference_of_register {arg : String} {n : ℕ} (h : registerNumber? arg = some n) :
    dialect.isReference arg = false := by
  unfold registerNumber? at h
  split at h
  · rename_i c hc
    unfold Dialect.isReference
    rw [hc]
    rfl
  · exact absurd h (by simp)

/-! ### The table of operations -/

/-- Every operation stands in the table. -/
theorem mem_all (op : Op) : op ∈ Op.all := by
  cases op with
  | alu f s => cases f <;> cases s <;> decide
  | mov s => cases s <;> decide
  | cmp s => cases s <;> decide
  | load s => cases s <;> decide
  | store s => cases s <;> decide
  | jump s => cases s <;> decide
  | branch c s => cases c <;> cases s <;> decide
  | _ => decide

theorem layout_registers_le (op : Op) : op.layout.registers ≤ 3 := by
  have h : ∀ op ∈ Op.all, op.layout.registers ≤ 3 := by decide
  exact h op (mem_all op)

theorem lt_layout_registers (s : Source) {k n : ℕ} (h : k < n) : k < (s.layout n).registers := by
  cases s with
  | register => exact Nat.lt_succ_of_lt h
  | immediate => exact h

theorem opcode_lt (op : Op) : op.opcode < 2 ^ opcodeSize := by
  have h : ∀ op ∈ Op.all, op.opcode < 2 ^ opcodeSize := by decide
  exact h op (mem_all op)

/-- An opcode selects its operation. -/
theorem find_opcode (op : Op) : Op.all.find? (Op.opcode · == op.opcode) = some op := by
  have h : ∀ op ∈ Op.all, Op.all.find? (Op.opcode · == op.opcode) = some op := by decide
  exact h op (mem_all op)

/-! ### Fields -/

/-- The fields of a first word. -/
def wordFields (o a b c z : ℤ) : List (ℤ × ℕ) :=
  [(o, opcodeSize), (a, registerSize), (b, registerSize), (c, registerSize), (z, 1)]

/-- The fields of a first word with up to three registers. -/
theorem firstFields_eq (op : Op) {registers : List ℕ} (h : registers.length ≤ 3) :
    firstFields op registers =
      wordFields op.opcode (registers.getD 0 0) (registers.getD 1 0) (registers.getD 2 0) 0 := by
  match registers, h with
  | [], _ => rfl
  | [_], _ => rfl
  | [_, _], _ => rfl
  | [_, _, _], _ => rfl

/-- The digits of an immediate value, if the operation has one. -/
def immediateDigits (op : Op) (value : ℤ) : List Char :=
  if op.layout.immediate then Field.pack [(value, wordSize)] else []

/-- The value of an immediate argument: zero for a missing one. -/
def immediateValue (op : Op) (args : List String) : Except InstructionError ℤ :=
  if op.layout.immediate then
    (args[op.layout.registers]?).elim (.ok 0) (Literal.field dialect wordSize)
  else .ok 0

/-- **The digits of an instruction** are its fields: the registers that its arguments name,
the first register for a missing one, and the value of its immediate argument. -/
theorem encode_eq_ok {op : Op} {args : List String} {code : List Char} :
    encode op args = .ok code ↔ ∃ registers value,
      (args.take op.layout.registers).mapM registerNumber = .ok registers ∧
      immediateValue op args = .ok value ∧
      code = Field.pack (wordFields op.opcode (registers.getD 0 0) (registers.getD 1 0)
        (registers.getD 2 0) 0) ++ immediateDigits op value := by
  -- a layout has three registers at most, so that the fields of a first word suffice
  have hlen : ∀ registers, (args.take op.layout.registers).mapM registerNumber = .ok registers →
      registers.length ≤ 3 := by
    intro registers hr
    have h := (mapM_eq_ok.1 hr).length_eq
    have h3 := layout_registers_le op
    rw [← h, List.length_take]
    omega
  unfold encode immediateValue immediateDigits
  constructor
  · intro h
    obtain ⟨registers, hr, h⟩ := bind_eq_ok.1 h
    rw [firstFields_eq op (hlen registers hr)] at h
    by_cases hi : op.layout.immediate = true
    · rw [if_pos hi] at h
      obtain ⟨value, hv, h⟩ := bind_eq_ok.1 h
      exact ⟨registers, value, hr, by rw [if_pos hi]; exact hv, by rw [if_pos hi]; exact (Except.ok.inj h).symm⟩
    · rw [if_neg hi] at h
      exact ⟨registers, 0, hr, by rw [if_neg hi],
        by rw [if_neg hi, List.append_nil]; exact (Except.ok.inj h).symm⟩
  · rintro ⟨registers, value, hr, hv, rfl⟩
    refine bind_eq_ok.2 ⟨registers, hr, ?_⟩
    rw [firstFields_eq op (hlen registers hr)]
    by_cases hi : op.layout.immediate = true
    · rw [if_pos hi] at hv ⊢
      rw [if_pos hi]
      exact bind_eq_ok.2 ⟨value, hv, rfl⟩
    · rw [if_neg hi, if_neg hi, List.append_nil]
      rfl

theorem length_pack_wordFields (o a b c z : ℤ) : (Field.pack (wordFields o a b c z)).length = wordSize := by
  rw [Field.length_pack]
  rfl

/-- The opcode of a first word is its first field. -/
theorem opcodeOf_pack {o : ℕ} (h : o < 2 ^ opcodeSize) (a b c z : ℤ) :
    InstructionSet.opcodeOf Op (Word.valueOf wordSize (Field.pack (wordFields o a b c z))) = o := by
  have hf := Field.toNat_valueOf_pack_shiftRight o opcodeSize
    [(a, registerSize), (b, registerSize), (c, registerSize), (z, 1)] (m := 10) rfl
  have ho : (BitVec.ofInt opcodeSize o).toNat = o := by
    rw [BitVec.ofInt_natCast, BitVec.toNat_ofNat, Nat.mod_eq_of_lt h]
  exact hf.trans ho

/-! ### Operands -/

/-- The operands that an instruction spells with its register fields and its immediate value. -/
def operands (op : Op) (registers : List Word) (value : Word) : List String :=
  (registers.take op.layout.registers).map (registerName ·.toNat) ++
    if op.layout.immediate then [Text.decimal value.toInt] else []

/-- **Decoding reads the fields**: the registers, and an immediate value behind the first word. -/
theorem decode_of_fields (op : Op) {digits : List Char} (h : Binary digits) {o a b c z value : Word}
    (hfields : Field.fieldsOf digits fieldWidths = [o, a, b, c, z, value]) :
    decode op digits = .ok (operands op [a, b, c] value) := by
  have htake : ([a, b, c] ++ [z, value]).take op.layout.registers = [a, b, c].take op.layout.registers :=
    List.take_append_of_le_length (layout_registers_le op)
  unfold decode operands
  rw [Field.unpack_eq_ok h, hfields]
  refine bind_eq_ok.2 ⟨_, rfl, congrArg Except.ok ?_⟩
  congr 1
  · exact congrArg (List.map _) htake
  · by_cases hi : op.layout.immediate = true
    · rw [if_pos hi, if_pos hi]; rfl
    · rw [if_neg hi, if_neg hi]; rfl

/-- Decoding packed fields, and behind the first word an immediate value. -/
theorem decode_pack (op : Op) (o a b c z : ℤ) {s : List Char} {value : Word} (hs : Binary s)
    (hv : Field.fieldsOf s [wordSize] = [value]) :
    decode op (Field.pack (wordFields o a b c z) ++ s) =
      .ok (operands op [Word.ofInt registerSize a, Word.ofInt registerSize b, Word.ofInt registerSize c]
        value) := by
  have hfields := Field.fieldsOf_pack_append (wordFields o a b c z) s [wordSize]
  rw [hv] at hfields
  exact decode_of_fields op (binary_append.2 ⟨Field.binary_pack (wordFields o a b c z), hs⟩) hfields

/-- A register operand names the register of its field. -/
theorem registerOf_operands (op : Op) {registers : List Word} {value : Word} {k : ℕ}
    (hk : k < op.layout.registers) (hr : k < registers.length) (h8 : registers[k].toNat < 8) :
    registerOf (operands op registers value) k = registerName registers[k].toNat := by
  have hget : (operands op registers value)[k]? = some (registerName registers[k].toNat) := by
    unfold operands
    rw [List.getElem?_append_left (by simp; omega), List.getElem?_map, List.getElem?_take_of_lt hk,
      List.getElem?_eq_getElem hr]
    rfl
  unfold registerOf
  rw [hget, Option.bind_some, registerNumber?_registerName h8, Option.getD_some]

theorem getElem?_operands_immediate (op : Op) {registers : List Word} {value : Word}
    (hi : op.layout.immediate = true) (hr : op.layout.registers ≤ registers.length) :
    (operands op registers value)[op.layout.registers]? = some (Text.decimal value.toInt) := by
  have hlen : ((registers.take op.layout.registers).map (registerName ·.toNat)).length =
      op.layout.registers := by
    simp; omega
  unfold operands
  rw [List.getElem?_append_right hlen.le, hlen, if_pos hi, Nat.sub_self]
  rfl

theorem distinct : dialect.Distinct := ⟨by decide, by decide⟩

/-- An immediate operand has the value of its word. -/
theorem immediateOf_operands (op : Op) {registers : List Word} {value : BitVec wordSize}
    (hi : op.layout.immediate = true) (hr : op.layout.registers ≤ registers.length) :
    immediateOf (operands op registers ⟨wordSize, value⟩) op.layout.registers = ⟨wordSize, value⟩ := by
  have him : Literal.immediate dialect (Text.decimal value.toInt) = .ok value.toInt :=
    Literal.immediate_decimal distinct (Literal.natAbs_toInt_le (by decide) value)
  unfold immediateOf
  rw [getElem?_operands_immediate op hi hr, Option.bind_some]
  change Word.ofInt wordSize ((Literal.immediate dialect (Text.decimal value.toInt)).toOption.getD 0) = _
  rw [him]
  change Word.ofInt wordSize value.toInt = _
  unfold Word.ofInt
  rw [BitVec.ofInt_toInt]

/-! ### The laws -/

/-- Encoding what was decoded keeps the fields that the operation uses. -/
theorem encode_operands (op : Op) {registers : List Word} {value : BitVec wordSize}
    (h3 : op.layout.registers ≤ registers.length) (h8 : ∀ r ∈ registers, r.toNat < 8) :
    encode op (operands op registers ⟨wordSize, value⟩) =
      .ok (Field.pack (wordFields op.opcode
          (((registers.map Word.toNat).take op.layout.registers).getD 0 0)
          (((registers.map Word.toNat).take op.layout.registers).getD 1 0)
          (((registers.map Word.toNat).take op.layout.registers).getD 2 0) 0) ++
        immediateDigits op value.toInt) := by
  have hlen : ((registers.take op.layout.registers).map (registerName ·.toNat)).length =
      op.layout.registers := by
    simp; omega
  have hregs : ((operands op registers ⟨wordSize, value⟩).take op.layout.registers).mapM registerNumber =
      .ok ((registers.map Word.toNat).take op.layout.registers) := by
    unfold operands
    rw [List.take_left' hlen, mapM_eq_ok, ← List.map_take, List.forall₂_map_right_iff,
      List.forall₂_map_left_iff, List.forall₂_same]
    intro r hr
    exact registerNumber_eq_ok.2 (registerNumber?_registerName (h8 r (List.mem_of_mem_take hr)))
  by_cases hi : op.layout.immediate = true
  · refine encode_eq_ok.2 ⟨_, value.toInt, hregs, ?_, rfl⟩
    unfold immediateValue
    rw [if_pos hi, getElem?_operands_immediate op hi h3]
    exact Literal.field_decimal distinct (by decide) value
  · refine encode_eq_ok.2 ⟨_, 0, hregs, ?_, ?_⟩
    · unfold immediateValue
      rw [if_neg hi]
    · unfold immediateDigits
      rw [if_neg hi, if_neg hi]

/-- The number in a register field is the one that was packed. -/
theorem toNat_ofInt_register {n : ℕ} (h : n < 8) : (Word.ofInt registerSize n).toNat = n := by
  unfold Word.ofInt Word.toNat
  rw [BitVec.ofInt_natCast, BitVec.toNat_ofNat]
  exact Nat.mod_eq_of_lt h

theorem register_toNat_lt (v : ℤ) : (Word.ofInt registerSize v).toNat < 8 :=
  (BitVec.ofInt registerSize v).isLt

/-- The registers that arguments name are below eight. -/
theorem getD_lt_of_mapM {args : List String} {registers : List ℕ}
    (h : args.mapM registerNumber = .ok registers) (j : ℕ) : registers.getD j 0 < 8 := by
  rw [List.getD_eq_getElem?_getD]
  rcases getElem?_of_mapM h j with ⟨-, hj⟩ | ⟨arg, n, -, hj, hn⟩
  · rw [hj]; decide
  · rw [hj]; exact registerNumber?_lt (registerNumber_eq_ok.1 hn)

/-- The register fields of a first word: the first register in the place of a missing one. -/
def registerFields (registers : List ℕ) : List Word :=
  [registers.getD 0 0, registers.getD 1 0, registers.getD 2 0].map fun (n : ℕ) => Word.ofInt registerSize n

theorem registerFields_lt {registers : List ℕ} {r : Word} (h : r ∈ registerFields registers) : r.toNat < 8 := by
  obtain ⟨n, -, rfl⟩ := List.mem_map.1 h
  exact register_toNat_lt n

theorem toNat_registerFields {args : List String} {registers : List ℕ}
    (h : args.mapM registerNumber = .ok registers) {k : ℕ} (hk : k < (registerFields registers).length) :
    (registerFields registers)[k].toNat = registers.getD k 0 := by
  change k < 3 at hk
  interval_cases k <;> exact toNat_ofInt_register (getD_lt_of_mapM h _)

/-- The immediate digits of a value and of the word of the value. -/
theorem immediateDigits_toInt (op : Op) (value : ℤ) :
    immediateDigits op (BitVec.ofInt wordSize value).toInt = immediateDigits op value := by
  have h : Word.ofInt wordSize (BitVec.ofInt wordSize value).toInt = Word.ofInt wordSize value := by
    unfold Word.ofInt
    rw [BitVec.ofInt_toInt]
  unfold immediateDigits
  rw [Field.pack_cons, Field.pack_cons, h]

theorem binary_immediateDigits (op : Op) (value : ℤ) : Binary (immediateDigits op value) := by
  unfold immediateDigits
  by_cases hi : op.layout.immediate = true
  · rw [if_pos hi]; exact Field.binary_pack _
  · rw [if_neg hi]; exact binary_nil

/-- The field behind the first word: the immediate value, or zero. -/
theorem fieldsOf_immediateDigits (op : Op) (value : ℤ) :
    Field.fieldsOf (immediateDigits op value) [wordSize] =
      [Word.ofInt wordSize (if op.layout.immediate then value else 0)] := by
  unfold immediateDigits
  by_cases hi : op.layout.immediate = true
  · have h := Field.fieldsOf_pack_append [(value, wordSize)] [] []
    rw [List.append_nil, List.append_nil] at h
    rw [if_pos hi, if_pos hi]
    exact h
  · rw [if_neg hi, if_neg hi, Field.fieldsOf_nil]
    rfl

/-- **What is decoded from an encoded instruction**: the registers of its arguments, the first
one for a missing argument, and the value of its immediate argument as a signed number. -/
theorem decode_encode {op : Op} {args : List String} {code : List Char} (h : encode op args = .ok code) :
    ∃ registers value, (args.take op.layout.registers).mapM registerNumber = .ok registers ∧
      immediateValue op args = .ok value ∧
      decode op code = .ok (operands op (registerFields registers) (Word.ofInt wordSize value)) := by
  obtain ⟨registers, value, hr, hv, rfl⟩ := encode_eq_ok.1 h
  have hval : (if op.layout.immediate then value else 0) = value := by
    unfold immediateValue at hv
    by_cases hi : op.layout.immediate = true
    · rw [if_pos hi]
    · rw [if_neg hi] at hv ⊢
      exact Except.ok.inj hv
  have hf := fieldsOf_immediateDigits op value
  rw [hval] at hf
  exact ⟨registers, value, hr, hv, decode_pack op _ _ _ _ _ (binary_immediateDigits op value) hf⟩

/-- **What is decoded from an encoded instruction is encoded in the same way.** -/
theorem encode_decode {op : Op} {args : List String} {code : List Char} (h : encode op args = .ok code) :
    ∃ args', decode op code = .ok args' ∧ encode op args' = .ok code := by
  obtain ⟨registers, value, hr, hv, hd⟩ := decode_encode h
  obtain ⟨registers', value', hr', hv', rfl⟩ := encode_eq_ok.1 h
  obtain rfl := Except.ok.inj (hr.symm.trans hr')
  obtain rfl := Except.ok.inj (hv.symm.trans hv')
  refine ⟨_, hd, ?_⟩
  -- a register beyond those of the layout is the first one on both sides
  have hbeyond : ∀ j, op.layout.registers ≤ j → registers.getD j 0 = 0 := by
    intro j hj
    have hlen := (mapM_eq_ok.1 hr).length_eq
    rw [List.length_take] at hlen
    rw [List.getD_eq_getElem?_getD, List.getElem?_eq_none (by omega)]
    rfl
  have hused : ∀ j, j < 3 →
      (((registerFields registers).map Word.toNat).take op.layout.registers).getD j 0 =
        registers.getD j 0 := by
    intro j hj
    have h3 : j < (registerFields registers).length := hj
    rw [List.getD_eq_getElem?_getD, List.getElem?_take]
    by_cases hjr : j < op.layout.registers
    · rw [if_pos hjr, List.getElem?_map, List.getElem?_eq_getElem h3, Option.map_some,
        toNat_registerFields hr h3]
      rfl
    · rw [if_neg hjr, hbeyond j (by omega)]
      rfl
  have henc : encode op (operands op (registerFields registers) (Word.ofInt wordSize value)) = _ :=
    encode_operands op (layout_registers_le op) fun r hr => registerFields_lt hr
  rw [hused 0 (by decide), hused 1 (by decide), hused 2 (by decide), immediateDigits_toInt] at henc
  exact henc

theorem length_encode {op : Op} {args : List String} {code : List Char} (h : encode op args = .ok code) :
    code.length = op.words * wordSize := by
  obtain ⟨registers, value, -, -, rfl⟩ := encode_eq_ok.1 h
  rw [List.length_append, length_pack_wordFields]
  unfold immediateDigits Op.words
  by_cases hi : op.layout.immediate = true
  · rw [if_pos hi, Field.length_pack, hi]; rfl
  · rw [if_neg hi, eq_false_of_ne_true hi]; rfl

theorem opcode_encode {op : Op} {args : List String} {code : List Char} (h : encode op args = .ok code) :
    InstructionSet.opcodeOf Op (Word.valueOf wordSize (code.take wordSize)) = op.opcode := by
  obtain ⟨registers, value, -, -, rfl⟩ := encode_eq_ok.1 h
  rw [List.take_left' (length_pack_wordFields _ _ _ _ _)]
  exact opcodeOf_pack (opcode_lt op) _ _ _ _

/-- Numbers in the place of references leave the form of the arguments as it is. -/
theorem accepts_resolved {l : Layout} {args args' : List String}
    (h : List.Forall₂ (Resolves dialect) args args') (ha : l.accepts args = true) :
    l.accepts args' = true := by
  unfold Layout.accepts at ha ⊢
  simp only [Bool.and_eq_true, beq_iff_eq, List.all_eq_true] at ha ⊢
  obtain ⟨⟨hlen, hregs⟩, hrest⟩ := ha
  refine ⟨⟨h.length_eq ▸ hlen, ?_⟩, ?_⟩
  · have htake : args'.take l.registers = args.take l.registers := by
      have h2 := List.forall₂_take l.registers h
      have h3 := (List.forall₂_and_left (args.take l.registers) _).2 ⟨hregs, h2⟩
      have h4 : List.Forall₂ (· = ·) (args.take l.registers) (args'.take l.registers) := by
        refine h3.imp fun arg arg' hr => ?_
        obtain ⟨hsome, rfl | ⟨href, -⟩⟩ := hr
        · rfl
        · obtain ⟨n, hn⟩ := Option.isSome_iff_exists.1 hsome
          rw [not_isReference_of_register hn] at href
          exact absurd href (by decide)
      rw [List.forall₂_eq_eq_eq] at h4
      exact h4.symm
    rw [htake]
    exact hregs
  · intro arg' harg'
    obtain ⟨hlen', hget⟩ := List.forall₂_iff_get.1 (List.forall₂_drop l.registers h)
    obtain ⟨i, hi, rfl⟩ := List.getElem_of_mem harg'
    have hres : Resolves dialect (args.drop l.registers)[i] (args'.drop l.registers)[i] :=
      hget i (by omega) hi
    rcases hres with heq | ⟨-, v, heq⟩
    · rw [heq]
      exact hrest _ (List.getElem_mem _)
    · obtain ⟨c, s, hs, hc⟩ := Text.head_decimal v
      rw [heq]
      unfold looksLikeRegister
      rw [hs]
      rcases hc with rfl | hc
      · rfl
      · have hne : c ≠ '$' := by
          rintro rfl
          exact absurd hc (by decide)
        simpa using hne

instance : InstructionSet.Lawful Op where
  distinct := distinct
  wordSize_pos := by decide
  length_encode := length_encode
  words_pos op := by
    change 0 < 1 + _
    omega
  binary_encode h := by
    obtain ⟨registers, value, -, -, rfl⟩ := encode_eq_ok.1 h
    exact binary_append.2 ⟨Field.binary_pack _, binary_immediateDigits _ _⟩
  opcode_encode := opcode_encode
  withOpcode?_opcode := find_opcode
  encode_decode _ h := encode_decode h
  accepts_resolved := accepts_resolved

end TinyIsa.Armlet
