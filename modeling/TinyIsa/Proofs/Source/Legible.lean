import Mathlib
import TinyIsa.Proofs.Architecture
import TinyIsa.Proofs.Source.Line

/-!
# Legible instruction sets

What an architecture has to keep for the text of an instruction to be read as that instruction: its
words have the form of a label, the forms of an operation differ in the arguments they take, and no
operand begins with the mark behind a label.

* `head_of_field`: no operand that fits a field begins with that mark.
* `InstructionSet.Legible`: the laws; both architectures keep them.
-/

namespace TinyIsa

/-! ### Operands -/

theorem Text.digit?_eq_none {c : Char} (h : c.isDigit = false) : digit? 10 c = none := by
  have hdigit : ¬('0' ≤ c ∧ c ≤ '9') := fun hc => by
    have hisDigit : c.isDigit = true := by
      simpa [Char.isDigit, Char.le_def] using hc
    exact absurd hisDigit (by simp [h])
  -- a letter counts ten at least
  have hbelow : ∀ n, digit?.below 10 (n + 10) = none := fun n => by
    unfold digit?.below
    rw [if_neg (by omega)]
  unfold digit?
  rw [if_neg hdigit, hbelow, hbelow]
  split
  · rfl
  · split <;> rfl

/-- A text that is no literal and no reference: it begins with the mark behind a label. -/
theorem Literal.parse?_separator {d : Dialect} (hd : d.Legible) (s : List Char) :
    parse? (d.separator :: s) = none := by
  have hdigit : d.separator.isDigit = false := by
    have h := hd.separator_foreign
    unfold isLabelPart at h
    exact (Bool.or_eq_false_iff.1 h).2
  have hsign : Text.splitSign (d.separator :: s) = (false, d.separator :: s) := by
    unfold Text.splitSign
    split
    · rename_i h
      exact absurd (List.cons.inj h).1 hd.separator_ne.1
    · rename_i h
      exact absurd (List.cons.inj h).1 hd.separator_ne.2.1
    · rfl
  have hbase : splitBase (d.separator :: s) = (10, d.separator :: s) := by
    have hzero : d.separator ≠ '0' := (hd.ne_of_isLabelPart (by decide)).2.symm
    unfold splitBase
    split <;> first | rfl | skip
    all_goals
      rename_i h
      exact absurd (List.cons.inj h).1 hzero
  have hnatural : Text.natural? 10 (d.separator :: s) = none := by
    unfold Text.natural?
    rw [if_neg (by simp), List.foldlM_cons, Text.digit?_eq_none hdigit]
    rfl
  unfold parse? magnitude?
  rw [hsign, hbase, hnatural]
  rfl

/-- **An operand that fits a field** does not begin with the mark behind a label. -/
theorem Literal.head_of_field {d : Dialect} (hd : d.Legible) {width : ℕ} {arg : String} {v : ℤ}
    (h : field d width arg = .ok v) : arg.toList.head? ≠ some d.separator := by
  intro hhead
  obtain ⟨s, hs⟩ := List.head?_eq_some_iff.1 hhead
  have href : d.isReference arg = false := by
    unfold Dialect.isReference
    rw [hs, List.head?_cons]
    simpa using hd.separator_ne.2.2.1
  obtain ⟨w, hw, -⟩ := bind_eq_ok.1 h
  unfold immediate parse at hw
  rw [if_neg (by simp [href]), hs, parse?_separator hd] at hw
  exact absurd hw (by simp)

namespace InstructionSet

/-- The laws of the assembly text of an architecture. -/
class Legible (Op : Type) [InstructionSet Op] : Prop where
  dialect : (dialect Op).Legible
  /-- The word in front of data has the form of a label, in small letters. -/
  directive : isLabelName (InstructionSet.dialect Op).dataDirective.toList = true ∧
    Text.lowercase (InstructionSet.dialect Op).dataDirective = (InstructionSet.dialect Op).dataDirective
  /-- A mnemonic has the form of a label, in small letters, and is not that word. -/
  mnemonic : ∀ op : Op, isLabelName (mnemonic op).toList = true ∧
    Text.lowercase (InstructionSet.mnemonic op) = InstructionSet.mnemonic op ∧
    InstructionSet.mnemonic op ≠ (InstructionSet.dialect Op).dataDirective
  mem_operations : ∀ op : Op, op ∈ operations
  /-- Two forms of one operation do not take the same arguments. -/
  accepts_unique : ∀ {op op' : Op} {args : List String}, InstructionSet.mnemonic op = InstructionSet.mnemonic op' →
    accepts op args = true → accepts op' args = true → op = op'
  /-- The first operand does not begin with the mark behind a label. -/
  head_ne : ∀ {op : Op} {args : List String} {code : List Char} {arg : String}, accepts op args = true →
    encode op args = .ok code → args.head? = some arg →
    arg.toList.head? ≠ some (InstructionSet.dialect Op).separator

end InstructionSet

/-! ### The architectures -/

theorem Tally.legible_dialect : Tally.dialect.Legible := by
  constructor <;> decide

instance : InstructionSet.Legible Tally.Op where
  dialect := Tally.legible_dialect
  directive := by decide
  mnemonic op := by cases op <;> decide
  mem_operations op := by cases op <;> decide
  accepts_unique {op op' args} hm _ _ := by
    have hname : op.mnemonic = op'.mnemonic := hm
    revert hname
    cases op <;> cases op' <;> decide
  head_ne {op args code arg} _ h harg := by
    obtain ⟨operand, hoperand, -⟩ := Tally.encode_eq_ok.1 h
    rw [harg] at hoperand
    exact Literal.head_of_field Tally.legible_dialect hoperand

namespace Armlet

theorem legible_dialect : dialect.Legible := by
  constructor <;> decide

theorem looksLikeRegister_of_isSome {arg : String} (h : (registerNumber? arg).isSome = true) :
    looksLikeRegister arg = true := by
  unfold registerNumber? at h
  split at h
  · rename_i c hc
    unfold looksLikeRegister
    rw [hc]
    rfl
  · exact absurd h (by simp)

/-- The forms of an operation have the same registers, but for the last operand. -/
theorem forms_of_mnemonic {op op' : Op} (h : op.mnemonic = op'.mnemonic) : op = op' ∨
    (op.layout.immediate = true ∧ op'.layout.registers = op.layout.registers + 1) ∨
    (op'.layout.immediate = true ∧ op.layout.registers = op'.layout.registers + 1) := by
  have hall : ∀ op ∈ Op.all, ∀ op' ∈ Op.all, op.mnemonic = op'.mnemonic → op = op' ∨
      (op.layout.immediate = true ∧ op'.layout.registers = op.layout.registers + 1) ∨
      (op'.layout.immediate = true ∧ op.layout.registers = op'.layout.registers + 1) := by decide +kernel
  exact hall op (mem_all op) op' (mem_all op') h

/-- What is a register in one form cannot be an immediate value in another. -/
theorem not_accepts {l l' : Layout} (hi : l.immediate = true) (hr : l'.registers = l.registers + 1)
    {args : List String} (h : l.accepts args = true) : l'.accepts args = false := by
  unfold Layout.accepts at h ⊢
  simp only [Bool.and_eq_true, beq_iff_eq, List.all_eq_true] at h
  obtain ⟨⟨hlen, -⟩, hrest⟩ := h
  have hlt : l.registers < args.length := by
    rw [hlen]
    unfold Layout.arity
    rw [hi]
    exact Nat.lt_succ_self _
  have hmem : args[l.registers] ∈ args.take l'.registers :=
    List.mem_take_iff_getElem.2 ⟨l.registers, by omega, rfl⟩
  have hvalue : args[l.registers] ∈ args.drop l.registers :=
    List.mem_drop_iff_getElem.2 ⟨0, by omega, by simp⟩
  have hregister : (args.take l'.registers).all (registerNumber? · |>.isSome) = false := by
    rw [List.all_eq_false]
    refine ⟨_, hmem, fun hsome => ?_⟩
    have hlooks := looksLikeRegister_of_isSome hsome
    exact absurd (hrest _ hvalue) (by simp [hlooks])
  rw [hregister, Bool.and_false, Bool.false_and]

theorem head_ne {op : Op} {args : List String} {code : List Char} {arg : String}
    (ha : op.layout.accepts args = true) (h : encode op args = .ok code) (harg : args.head? = some arg) :
    arg.toList.head? ≠ some dialect.separator := by
  obtain ⟨rest, rfl⟩ := List.head?_eq_some_iff.1 harg
  unfold Layout.accepts at ha
  simp only [Bool.and_eq_true, beq_iff_eq, List.all_eq_true] at ha
  obtain ⟨⟨hlen, hregs⟩, -⟩ := ha
  cases hr : op.layout.registers with
  | zero =>
    -- the only operand is an immediate value
    have hi : op.layout.immediate = true := by
      unfold Layout.arity at hlen
      rw [hr, List.length_cons] at hlen
      cases hb : op.layout.immediate with
      | true => rfl
      | false =>
        rw [hb] at hlen
        exact absurd hlen (by simp)
    obtain ⟨-, value, -, hvalue, -⟩ := encode_eq_ok.1 h
    unfold immediateValue at hvalue
    rw [if_pos hi, hr] at hvalue
    exact Literal.head_of_field legible_dialect hvalue
  | succ n =>
    have hsome := hregs arg (by rw [hr]; exact List.mem_cons_self)
    have hlooks : arg.toList.head? = some '$' := beq_iff_eq.1 (looksLikeRegister_of_isSome hsome)
    rw [hlooks]
    decide

instance : InstructionSet.Legible Op where
  dialect := legible_dialect
  directive := by decide
  mnemonic op := by
    have hall : ∀ op ∈ Op.all, isLabelName op.mnemonic.toList = true ∧
        Text.lowercase op.mnemonic = op.mnemonic ∧ op.mnemonic ≠ dialect.dataDirective := by decide +kernel
    exact hall op (mem_all op)
  mem_operations := mem_all
  accepts_unique {op op' args} hm h h' := by
    rcases forms_of_mnemonic hm with rfl | ⟨hi, hr⟩ | ⟨hi, hr⟩
    · rfl
    · exact absurd h' (by simp [InstructionSet.accepts, not_accepts hi hr h])
    · exact absurd h (by simp [InstructionSet.accepts, not_accepts hi hr h'])
  head_ne := head_ne

end Armlet

instance : (a : Architecture) → InstructionSet.Legible a.Op
  | .armlet => inferInstanceAs (InstructionSet.Legible Armlet.Op)
  | .tally => inferInstanceAs (InstructionSet.Legible Tally.Op)

end TinyIsa
