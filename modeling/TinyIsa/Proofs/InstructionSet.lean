import Mathlib
import TinyIsa.Instruction.Decode
import TinyIsa.Proofs.Except
import TinyIsa.Proofs.Field
import TinyIsa.Proofs.Literal

/-!
# Lawful instruction sets

What an architecture has to keep for its programs to be laid out, loaded and fetched:
the sizes, the digits and the opcodes of its encoded instructions agree.

* `InstructionSet.Lawful`: the laws.
* `Resolves`: an argument once references are replaced by numbers.
* `lookup_encode`: the first word of an encoded instruction selects its operation.
-/

namespace TinyIsa

/-- An argument that may take the place of another: the same one, or a number in the
place of a reference. -/
def Resolves (d : Dialect) (arg arg' : String) : Prop :=
  arg' = arg ∨ d.isReference arg = true ∧ ∃ v, arg' = Text.decimal v

namespace InstructionSet

open Instruction

/-- The laws of an architecture. -/
class Lawful (Op : Type) [InstructionSet Op] : Prop where
  /-- References cannot be taken for numbers. -/
  distinct : (dialect Op).Distinct
  wordSize_pos : 0 < wordSize Op
  /-- An encoded instruction has the length of its words. -/
  length_encode : ∀ {op : Op} {args : List String} {code : List Char},
    encode op args = .ok code → code.length = words op * wordSize Op
  /-- An instruction has at least one word. -/
  words_pos : ∀ op : Op, 0 < words op
  /-- An encoded instruction consists of binary digits. -/
  binary_encode : ∀ {op : Op} {args : List String} {code : List Char},
    encode op args = .ok code → Binary code
  /-- The first word of an encoded instruction has its opcode. -/
  opcode_encode : ∀ {op : Op} {args : List String} {code : List Char}, encode op args = .ok code →
    opcodeOf Op (Word.valueOf (wordSize Op) (code.take (wordSize Op))) = opcode op
  /-- No two operations have one opcode. -/
  withOpcode?_opcode : ∀ op : Op, withOpcode? (opcode op) = some op
  /-- What is decoded from an encoded instruction is encoded in the same way. -/
  encode_decode : ∀ {op : Op} {args : List String} {code : List Char}, accepts op args = true →
    encode op args = .ok code → ∃ args', decode op code = .ok args' ∧ encode op args' = .ok code
  /-- Replacing references by numbers does not ask for another form. -/
  accepts_resolved : ∀ {op : Op} {args args' : List String},
    List.Forall₂ (Resolves (dialect Op)) args args' → accepts op args = true → accepts op args' = true

variable {Op : Type} [InstructionSet Op] [Lawful Op]

/-- **The first word of an encoded instruction selects its operation.** -/
theorem lookup_encode {op : Op} {args : List String} {code : List Char}
    (h : encode op args = .ok code) :
    lookup (Word.valueOf (wordSize Op) (code.take (wordSize Op))) = .ok op := by
  unfold lookup
  rw [Lawful.opcode_encode h, Lawful.withOpcode?_opcode]
  rfl

end InstructionSet

namespace Instruction

open InstructionSet

variable {Op : Type} [InstructionSet Op]

theorem leading_of_binary {s : List Char} (h : Binary s) (n : ℕ) : leading n s = s.take n := by
  unfold leading
  rw [Text.takeBytes?_of_binary h, Option.getD_some]

/-- **Decoding an encoded instruction** reads the arguments that its digits spell. -/
theorem ofCode_encode [Lawful Op] {op : Op} {args args' : List String} {code : List Char}
    (h : encode op args = .ok code) (hd : decode op code = .ok args') :
    ofCode code = .ok (ofOp op args') := by
  have hb := Lawful.binary_encode h
  have hlen := Lawful.length_encode h
  -- nothing is cut off and nothing is missing
  have hpad : (leading (words op * wordSize Op) code).rightpad (words op * wordSize Op) '0' = code := by
    rw [leading_of_binary hb, ← hlen, List.take_length]
    simp [List.rightpad]
  unfold ofCode
  rw [leading_of_binary hb, Word.ofDigits_eq_ok (hb.take _)]
  refine bind_eq_ok.2 ⟨_, rfl, bind_eq_ok.2 ⟨op, lookup_encode h, bind_eq_ok.2 ⟨args', ?_, rfl⟩⟩⟩
  rw [hpad, hd]

end Instruction

end TinyIsa
