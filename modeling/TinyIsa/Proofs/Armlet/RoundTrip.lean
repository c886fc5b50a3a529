import Mathlib
import TinyIsa.Machine.Step
import TinyIsa.Proofs.Armlet.Encoding

/-!
# Encoding and decoding keep what an instruction does

The arguments of an instruction are not kept by its digits: a number comes back as a signed
decimal, a reference as zero, a missing register as the first one, and what is in excess is
lost. What the instruction does is kept.

* `action_congr`: an instruction uses its arguments only through the operands of its layout.
* `execute_decoded`: an instruction and what its digits decode to do the same, on every
  machine and with every host.
-/

namespace TinyIsa.Armlet

variable {op : Op} {args args' : List String}

/-- The last operand comes from a register or from the immediate value. -/
theorem operand_congr {s : Source} {n : ℕ}
    (hr : ∀ k < (s.layout n).registers, registerOf args k = registerOf args' k)
    (hi : (s.layout n).immediate = true →
      immediateOf args (s.layout n).registers = immediateOf args' (s.layout n).registers) :
    operand args n s = operand args' n s := by
  cases s with
  | register =>
    have h := hr n (Nat.lt_succ_self n)
    simp only [operand, read, h]
  | immediate =>
    have h : immediateOf args n = immediateOf args' n := hi rfl
    simp only [operand, h]

/-- **An instruction uses only the operands of its layout.** -/
theorem action_congr (hr : ∀ k < op.layout.registers, registerOf args k = registerOf args' k)
    (hi : op.layout.immediate = true →
      immediateOf args op.layout.registers = immediateOf args' op.layout.registers) :
    action op args = action op args' := by
  cases op with
  | nop => rfl
  | halt => rfl
  | alu f s =>
    have h0 := hr 0 (lt_layout_registers s (show 0 < 2 by decide))
    have h1 := hr 1 (lt_layout_registers s (show 1 < 2 by decide))
    have h2 := operand_congr (n := 2) hr hi
    simp only [action, read, write, h0, h1, h2]
  | not =>
    have h0 := hr 0 (show 0 < 2 by decide)
    have h1 := hr 1 (show 1 < 2 by decide)
    simp only [action, read, write, h0, h1]
  | mov s =>
    have h0 := hr 0 (lt_layout_registers s (show 0 < 1 by decide))
    have h1 := operand_congr (n := 1) hr hi
    simp only [action, write, h0, h1]
  | cmp s =>
    have h0 := hr 0 (lt_layout_registers s (show 0 < 1 by decide))
    have h1 := operand_congr (n := 1) hr hi
    simp only [action, read, h0, h1]
  | load s =>
    have h0 := hr 0 (lt_layout_registers s (show 0 < 1 by decide))
    have h1 := operand_congr (n := 1) hr hi
    simp only [action, write, h0, h1]
  | store s =>
    have h0 := hr 0 (lt_layout_registers s (show 0 < 1 by decide))
    have h1 := operand_congr (n := 1) hr hi
    simp only [action, read, h0, h1]
  | jump s =>
    have h0 := operand_congr (n := 0) hr hi
    simp only [action, h0]
  | branch c s =>
    have h0 := operand_congr (n := 0) hr hi
    simp only [action, h0]
  | input =>
    have h0 := hr 0 (show 0 < 1 by decide)
    simp only [action, readInput, write, h0]
  | output =>
    have h0 := hr 0 (show 0 < 1 by decide)
    simp only [action, read, h0]

/-- The register of an argument is the one that its field holds. -/
theorem registerOf_eq {registers : List ℕ} {n k : ℕ} (hk : k < n)
    (h : (args.take n).mapM registerNumber = .ok registers) :
    registerOf args k = registerName (registers.getD k 0) := by
  have hget : (args.take n)[k]? = args[k]? := List.getElem?_take_of_lt hk
  unfold registerOf
  rw [List.getD_eq_getElem?_getD]
  rcases getElem?_of_mapM h k with ⟨ha, hr⟩ | ⟨arg, r, ha, hr, hn⟩
  · rw [← hget, ha, hr]
    rfl
  · rw [← hget, ha, hr, Option.bind_some, registerNumber_eq_ok.1 hn, Option.getD_some]

/-- The value of an immediate argument is the one that its field holds. -/
theorem immediateOf_eq {value : ℤ} (hi : op.layout.immediate = true)
    (h : immediateValue op args = .ok value) :
    immediateOf args op.layout.registers = Word.ofInt wordSize value := by
  unfold immediateValue at h
  rw [if_pos hi] at h
  unfold immediateOf
  cases harg : args[op.layout.registers]? with
  | none =>
    rw [harg] at h
    obtain rfl : (0 : ℤ) = value := Except.ok.inj h
    rfl
  | some arg =>
    rw [harg] at h
    obtain ⟨v, hv, hrange⟩ := bind_eq_ok.1 h
    obtain ⟨-, rfl⟩ := Literal.checkRange_eq_ok.1 hrange
    rw [Option.bind_some, hv]
    rfl

/-- **Decoding what was encoded does the same.** The digits of an instruction decode to an
instruction with the same operation, and on every machine, with every host, both go on at
the same place and leave the same machine and host behind. -/
theorem execute_decoded {code : List Char} (h : InstructionSet.encode op args = .ok code) :
    ∃ args', Instruction.ofCode code = .ok (Instruction.ofOp op args') ∧
      ∀ (σ : Type) [Host σ] (m : Machine Op σ),
        m.execute (Instruction.ofOp op args) = m.execute (Instruction.ofOp op args') := by
  obtain ⟨registers, value, hr, hv, hd⟩ := decode_encode h
  refine ⟨_, Instruction.ofCode_encode h hd, fun σ _ m => ?_⟩
  have h3 := layout_registers_le op
  -- the arguments differ, but the operands that the layout uses do not
  have hact : action op args = action op (operands op (registerFields registers) (Word.ofInt wordSize value)) := by
    apply action_congr
    · intro k hk
      have hlen : k < (registerFields registers).length := Nat.lt_of_lt_of_le hk h3
      rw [registerOf_operands op hk hlen (registerFields_lt (List.getElem_mem hlen)),
        toNat_registerFields hr hlen, registerOf_eq hk hr]
    · intro hi
      rw [immediateOf_eq hi hv]
      exact (immediateOf_operands op hi (show op.layout.registers ≤ (registerFields registers).length from h3)).symm
  exact congrArg (fun a => Machine.perform a m) hact

/-- An addition whose number is too large for a signed one and which has an argument in excess. -/
theorem execute_decoded_excess :
    InstructionSet.encode (Op.alu .add .immediate) ["$1", "$2", "0xFFFF", "$9"] =
        .ok "00001100101000001111111111111111".toList ∧
      ∃ args', Instruction.ofCode "00001100101000001111111111111111".toList =
          .ok (Instruction.ofOp (Op.alu .add .immediate) args') ∧
        ∀ (σ : Type) [Host σ] (m : Machine Op σ),
          m.execute (Instruction.ofOp (.alu .add .immediate) ["$1", "$2", "0xFFFF", "$9"]) =
            m.execute (Instruction.ofOp (.alu .add .immediate) args') := by
  have h : InstructionSet.encode (Op.alu .add .immediate) ["$1", "$2", "0xFFFF", "$9"] =
      .ok "00001100101000001111111111111111".toList := by
    rfl
  exact ⟨h, execute_decoded h⟩

end TinyIsa.Armlet
