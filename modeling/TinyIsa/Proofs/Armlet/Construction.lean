import Mathlib
import TinyIsa.Proofs.Numeral
import TinyIsa.Proofs.Selection

/-!
# Instructions from a mnemonic and arguments

What a mnemonic and arguments are taken for on Armlet, and all that they are refused for.

* `Takes`: the arguments of a layout; `accepts_iff`: they are those that are accepted.
* `Suits`, `Unfit`: the immediate arguments that can be encoded, and what is wrong with the others.
* `encode_eq_error`: a form that takes its arguments is refused for the immediate one only.
* `Refuses`: the reasons for which a mnemonic and arguments are refused.
* `construction_exact`: **one form at most takes the arguments, and each refusal has its one reason.**
-/

namespace TinyIsa.Armlet

open Instruction

variable {op : Op} {name arg : String} {args : List String} {e : InstructionError}

/-! ### Forms -/

/-- The arguments of a layout: the names of registers, and behind them an immediate argument that does not
begin as these names do. -/
structure Takes (l : Layout) (args : List String) : Prop where
  arity : args.length = l.registers + l.immediate.toNat
  registers : ∀ arg ∈ args.take l.registers, ∃ n < 8, arg = registerName n
  immediate : ∀ arg ∈ args.drop l.registers, arg.toList.head? ≠ some '$'

theorem isSome_registerNumber? : (registerNumber? arg).isSome = true ↔ ∃ n < 8, arg = registerName n := by
  constructor
  · intro h
    obtain ⟨n, hn⟩ := Option.isSome_iff_exists.1 h
    have hlt := registerNumber?_lt hn
    refine ⟨n, hlt, String.toList_inj.1 ?_⟩
    unfold registerNumber? at hn
    split at hn
    · rename_i c hc
      split at hn
      · -- the digit is the one of its number
        rename_i hdigit
        have hlow : '0'.toNat ≤ c.toNat := hdigit.1
        have hcode : c.toNat = '0'.toNat + n := by
          have hv := Option.some.inj hn
          omega
        rw [hc, ← Char.ofNat_toNat c, hcode]
        interval_cases n <;> decide
      · exact absurd hn (by simp)
    · exact absurd hn (by simp)
  · rintro ⟨n, hn, rfl⟩
    rw [registerNumber?_registerName hn]
    rfl

/-- **The arguments of a layout are accepted** and no others. -/
theorem accepts_iff {l : Layout} : l.accepts args = true ↔ Takes l args := by
  unfold Layout.accepts looksLikeRegister Layout.arity
  simp only [Bool.and_eq_true, beq_iff_eq, List.all_eq_true, isSome_registerNumber?, Bool.not_eq_true',
    beq_eq_false_iff_ne, and_assoc]
  exact ⟨fun ⟨harity, hregisters, himmediate⟩ => ⟨harity, hregisters, himmediate⟩,
    fun h => ⟨h.arity, h.registers, h.immediate⟩⟩

/-! ### Immediate arguments -/

/-- The values of an immediate argument: those of 16 bits, read as signed or as unsigned. -/
def InRange (v : ℤ) : Prop := -32768 ≤ v ∧ v ≤ 65535

/-- An immediate argument that can be encoded: a reference to a label, or a literal in range. -/
def Suits (arg : String) : Prop :=
  dialect.isReference arg = true ∨ ∃ v, Literal.IsLiteral arg v ∧ InRange v

/-- What is wrong with an immediate argument that is no reference to a label. -/
inductive Unfit (arg : String) : InstructionError → Prop
  /-- It is no literal. -/
  | literal : dialect.isReference arg = false → (¬∃ v, Literal.IsLiteral arg v) → Unfit arg (.invalidImmediate arg)
  /-- It is a literal, but out of range. -/
  | range {v : ℤ} : dialect.isReference arg = false → Literal.IsLiteral arg v → ¬InRange v →
      Unfit arg (.immediateOutOfRange v (-32768) 65535)

theorem checkRange_eq (v : ℤ) : Literal.checkRange wordSize v =
    if -32768 ≤ v ∧ v ≤ 65535 then .ok v else .error (.immediateOutOfRange v (-32768) 65535) := rfl

theorem field_of_isReference (h : dialect.isReference arg = true) : Literal.field dialect wordSize arg = .ok 0 := by
  unfold Literal.field Literal.immediate
  rw [if_pos h]
  rfl

theorem field_of_not_isReference (h : dialect.isReference arg = false) :
    Literal.field dialect wordSize arg = Literal.parse arg >>= Literal.checkRange wordSize := by
  unfold Literal.field Literal.immediate
  rw [if_neg (by simp [h])]

/-- **An immediate argument is refused** for what is wrong with it. -/
theorem field_eq_error : Literal.field dialect wordSize arg = .error e ↔ Unfit arg e := by
  by_cases href : dialect.isReference arg = true
  · rw [field_of_isReference href]
    refine ⟨fun h => absurd h (by simp), ?_⟩
    rintro (⟨hno, -⟩ | ⟨hno, -, -⟩) <;> exact absurd href (by simp [hno])
  · have href := eq_false_of_ne_true href
    rw [field_of_not_isReference href, bind_eq_error, Literal.parse_eq_error]
    constructor
    · rintro (⟨hliteral, rfl⟩ | ⟨v, hv, h⟩)
      · exact .literal href hliteral
      · rw [checkRange_eq] at h
        split at h
        · exact absurd h (by simp)
        · rename_i hrange
          obtain rfl := Except.error.inj h
          exact .range href (Literal.parse_eq_ok.1 hv) hrange
    · rintro (⟨-, hliteral⟩ | ⟨-, hliteral, hrange⟩)
      · exact .inl ⟨hliteral, rfl⟩
      · exact .inr ⟨_, Literal.parse_eq_ok.2 hliteral, (checkRange_eq _).trans (if_neg hrange)⟩

/-- Nothing is wrong with what can be encoded. -/
theorem suits_iff : Suits arg ↔ ∀ e, ¬Unfit arg e := by
  constructor
  · rintro hsuits e (⟨href, hliteral⟩ | ⟨href, hliteral, hrange⟩)
    · rcases hsuits with h | ⟨v, hv, -⟩
      · exact absurd h (by simp [href])
      · exact hliteral ⟨v, hv⟩
    · rcases hsuits with h | ⟨v, hv, hin⟩
      · exact absurd h (by simp [href])
      · -- a text has one value
        obtain rfl := Except.ok.inj ((Literal.parse_eq_ok.2 hv).symm.trans (Literal.parse_eq_ok.2 hliteral))
        exact hrange hin
  · intro h
    by_cases href : dialect.isReference arg = true
    · exact .inl href
    · have href := eq_false_of_ne_true href
      have hliteral : ∃ v, Literal.IsLiteral arg v := by
        by_contra hno
        exact h _ (.literal href hno)
      obtain ⟨v, hv⟩ := hliteral
      refine .inr ⟨v, hv, ?_⟩
      by_contra hrange
      exact h _ (.range href hv hrange)

/-! ### Encoding -/

/-- The immediate argument of a form, if it has one. -/
def immediateArgument? (op : Op) (args : List String) : Option String :=
  if op.layout.immediate then args[op.layout.registers]? else none

/-- The register arguments of a form that takes them name registers. -/
theorem exists_registers (h : op.layout.accepts args = true) :
    ∃ registers, (args.take op.layout.registers).mapM registerNumber = .ok registers := by
  refine exists_mapM_eq_ok fun arg harg => ?_
  obtain ⟨n, hn⟩ := Option.isSome_iff_exists.1 (isSome_registerNumber?.2 ((accepts_iff.1 h).registers arg harg))
  exact ⟨n, registerNumber_eq_ok.2 hn⟩

/-- **A form that takes its arguments** is refused for what is wrong with the immediate one only. -/
theorem encode_eq_error (h : op.layout.accepts args = true) :
    encode op args = .error e ↔ ∃ arg, immediateArgument? op args = some arg ∧ Unfit arg e := by
  obtain ⟨registers, hregisters⟩ := exists_registers h
  unfold encode immediateArgument?
  simp only [bind_eq_error, hregisters, reduceCtorEq, false_or, Except.ok.injEq, exists_eq_left']
  by_cases hi : op.layout.immediate = true
  · rw [if_pos hi, if_pos hi]
    cases args[op.layout.registers]? with
    | none => simp [bind, Except.bind, pure, Except.pure]
    | some arg =>
      rw [Option.elim_some, bind_eq_error, field_eq_error]
      simp [pure, Except.pure]
  · rw [if_neg hi, if_neg hi]
    simp [pure, Except.pure]

theorem exists_encode_iff (h : op.layout.accepts args = true) : (∃ code, encode op args = .ok code) ↔
    ∀ arg, immediateArgument? op args = some arg → Suits arg := by
  have hok : (∃ code, encode op args = .ok code) ↔ ∀ e, encode op args ≠ .error e := by
    cases encode op args <;> simp
  simp only [hok, ne_eq, encode_eq_error h, suits_iff, not_exists, not_and]
  exact ⟨fun h' arg harg e => h' e arg harg, fun h' e arg harg => h' arg harg e⟩

/-! ### Construction -/

/-- The forms of a mnemonic are told apart by their operands, which are described together. -/
theorem expected_of_mnemonic {op op' : Op} (h : op.mnemonic = op'.mnemonic) : op.expected = op'.expected := by
  have hall : ∀ op ∈ Op.all, ∀ op' ∈ Op.all, op.mnemonic = op'.mnemonic → op.expected = op'.expected := by
    decide +kernel
  exact hall op (mem_all op) op' (mem_all op') h

/-- **The reasons for which a mnemonic and arguments are refused.** -/
inductive Refuses (name : String) (args : List String) : InstructionError → Prop
  /-- No operation has the mnemonic. -/
  | mnemonic : (∀ op : Op, op.mnemonic ≠ Text.lowercase name) → Refuses name args (.unknownMnemonic name)
  /-- An operation has it, but none of its forms takes the arguments. -/
  | operands {op : Op} : op.mnemonic = Text.lowercase name → (∀ op' : Op, ¬Fits name args op') →
      Refuses name args (.invalidOperands op.mnemonic op.expected args)
  /-- A form takes the arguments, but something is wrong with the immediate one. -/
  | immediate {op : Op} {arg : String} {e : InstructionError} : Fits name args op →
      immediateArgument? op args = some arg → Unfit arg e → Refuses name args e

theorem selectOp_refuses : (selectOp name args : Except InstructionError Op) = .error e ↔
    ((∀ op : Op, op.mnemonic ≠ Text.lowercase name) ∧ e = .unknownMnemonic name) ∨
    ∃ op : Op, op.mnemonic = Text.lowercase name ∧ (∀ op' : Op, ¬Fits name args op') ∧
      e = .invalidOperands op.mnemonic op.expected args := by
  rw [selectOp_eq_error]
  refine or_congr_right ⟨?_, ?_⟩
  · rintro ⟨op, hhead, hfits, rfl⟩
    exact ⟨op, mem_withMnemonic.1 (List.mem_of_head? hhead), hfits, rfl⟩
  · rintro ⟨op, hname, hfits, rfl⟩
    -- the first form of the mnemonic tells the same as any other one
    have hmem : op ∈ (InstructionSet.withMnemonic name : List Op) := mem_withMnemonic.2 hname
    obtain ⟨first, hhead⟩ := Option.isSome_iff_exists.1 (List.isSome_head?.2 (List.ne_nil_of_mem hmem))
    have hfirst : first.mnemonic = op.mnemonic :=
      (mem_withMnemonic.1 (List.mem_of_head? hhead)).trans hname.symm
    refine ⟨first, hhead, hfits, ?_⟩
    change _ = InstructionError.invalidOperands first.mnemonic first.expected args
    rw [hfirst, expected_of_mnemonic hfirst]

theorem ofMnemonic_eq_error :
    (ofMnemonic name args : Except InstructionError (Instruction Op)) = .error e ↔ Refuses name args e := by
  unfold ofMnemonic
  rw [bind_eq_error, selectOp_refuses]
  constructor
  · rintro ((⟨hname, rfl⟩ | ⟨op, hname, hfits, rfl⟩) | ⟨op, hop, h⟩)
    · exact .mnemonic hname
    · exact .operands hname hfits
    · have hfits := selectOp_eq_ok.1 hop
      rcases discard_bind_eq_error.1 h with h | ⟨-, h⟩
      · obtain ⟨arg, harg, hunfit⟩ := (encode_eq_error hfits.accepts).1 h
        exact .immediate hfits harg hunfit
      · exact absurd h (by simp [pure, Except.pure])
  · rintro (hname | ⟨hname, hfits⟩ | ⟨hfits, harg, hunfit⟩)
    · exact .inl (.inl ⟨hname, rfl⟩)
    · exact .inl (.inr ⟨_, hname, hfits, rfl⟩)
    · refine .inr ⟨_, selectOp_eq_ok.2 hfits, discard_bind_eq_error.2 (.inl ?_)⟩
      exact (encode_eq_error hfits.accepts).2 ⟨_, harg, hunfit⟩

theorem ofMnemonic_eq_ok {i : Instruction Op} : ofMnemonic name args = .ok i ↔
    ∃ op, Fits name args op ∧ (∀ arg, immediateArgument? op args = some arg → Suits arg) ∧ i = ofOp op args := by
  unfold ofMnemonic
  rw [bind_eq_ok]
  simp only [selectOp_eq_ok, discard_bind_eq_ok]
  refine exists_congr fun op => and_congr_right fun hfits => ?_
  refine and_congr (exists_encode_iff hfits.accepts) ?_
  simp [pure, Except.pure, eq_comm]

/-- **The construction of an instruction is exact.** One form of a mnemonic at most takes some arguments, those
of its layout, and any table of the operations has this form, in whatever order they stand. A mnemonic
and arguments are refused for one of the reasons, and else they make up an instruction, with the
arguments as they are. That an argument is no register is none of the reasons. -/
theorem construction_exact (name : String) (args : List String) :
    (∀ op op' : Op, Fits name args op → Fits name args op' → op = op') ∧
    (∀ l : Layout, l.accepts args = true ↔ Takes l args) ∧
    (∀ (table : List Op) (op : Op), (∀ op', op' ∈ table) →
      ((table.filter (Op.mnemonic · == Text.lowercase name)).find? (·.layout.accepts args) = some op ↔
        Fits name args op)) ∧
    (∀ e, (ofMnemonic name args : Except InstructionError (Instruction Op)) = .error e ↔ Refuses name args e) ∧
    (∀ i : Instruction Op, ofMnemonic name args = .ok i ↔ ∃ op, Fits name args op ∧
      (∀ arg, immediateArgument? op args = some arg → Suits arg) ∧ i = ofOp op args) ∧
    ∀ arg, (ofMnemonic name args : Except InstructionError (Instruction Op)) ≠ .error (.invalidRegister arg) := by
  refine ⟨fun op op' h h' => h.unique h', fun l => accepts_iff, fun table op htable => find?_eq_some_iff htable,
    fun e => ofMnemonic_eq_error, fun i => ofMnemonic_eq_ok, fun arg h => ?_⟩
  cases ofMnemonic_eq_error.1 h with
  | immediate _ _ hunfit => cases hunfit

/-- A number that is too large for any word is refused, whether the table is read forwards or backwards. -/
theorem construction_exact_range :
    Fits "MOV" ["$1", "70000"] (Op.mov .immediate) ∧ (∀ op, op ∈ Op.all.reverse) ∧
    (Op.all.reverse.filter (Op.mnemonic · == Text.lowercase "MOV")).find? (·.layout.accepts ["$1", "70000"]) =
      some (Op.mov .immediate) ∧
    (ofMnemonic "MOV" ["$1", "70000"] : Except InstructionError (Instruction Op)) =
      .error (.immediateOutOfRange 70000 (-32768) 65535) := by
  have hexact := construction_exact "MOV" ["$1", "70000"]
  have hfits : Fits "MOV" ["$1", "70000"] (Op.mov .immediate) := ⟨by decide, by decide⟩
  have hall : ∀ op, op ∈ Op.all.reverse := fun op => List.mem_reverse.2 (mem_all op)
  refine ⟨hfits, hall, (hexact.2.2.1 _ _ hall).2 hfits, (hexact.2.2.2.1 _).2 ?_⟩
  refine .immediate hfits rfl (.range (by decide) (Literal.parse_eq_ok.1 (by decide)) ?_)
  unfold InRange
  omega

end TinyIsa.Armlet
