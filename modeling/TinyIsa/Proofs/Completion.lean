import Mathlib
import TinyIsa.Proofs.Architecture
import TinyIsa.Proofs.Field.Packing

/-!
# Short texts of instructions

The arguments of an instruction are decoded from a text that is completed with zeros at its end, so that
zeros that stand there already make no difference. Its operation is that of the number which the text
spells: where the text ends within the first word, zeros at its end move the digits of the opcode.

* `completed`: the text from which the arguments are decoded; `completed_append_zeros`: zeros at the
  end make no difference to it.
* `opcodeDigits`: the digits that select the operation, those of a text filled at its beginning;
  `selected?`: the operation.
* `ofCode_cases`: what a text of digits is decoded to.
* `zeros_decoded`: **zeros at the end of a text make no difference** exactly where the same operation
  is selected, which is so for every text that has the first word.
-/

namespace TinyIsa

namespace Word

/-- Digits filled up at the beginning spell the same word. -/
theorem valueOf_leftpad (w n : ℕ) (s : List Char) : valueOf w (s.leftpad n '0') = valueOf w s := by
  have hbit : ∀ i, (valueOf w (s.leftpad n '0')).bit i = (valueOf w s).bit i := by
    intro i
    rw [bit_valueOf, bit_valueOf, List.leftpad, List.reverse_append]
    by_cases hi : i < s.length
    · rw [List.getElem?_append_left (by rw [List.length_reverse]; exact hi)]
    · -- beyond the digits there is a zero on one side and nothing on the other
      have hnone : s.reverse[i]? = none := List.getElem?_eq_none (by rw [List.length_reverse]; omega)
      rw [List.getElem?_append_right (by rw [List.length_reverse]; omega), hnone, List.reverse_replicate,
        List.getElem?_replicate]
      split <;> rfl
  unfold valueOf
  congr 1
  apply BitVec.eq_of_getLsbD_eq
  intro i _
  exact hbit i

/-- What a shift to the right leaves of a row of digits is its beginning. -/
theorem toNat_valueOf_shiftRight {s : List Char} (hs : Binary s) {n m : ℕ} (hlen : s.length = n + m) :
    (valueOf (n + m) s).toNat >>> m = (valueOf n (s.take n)).toNat := by
  have htake : (s.take n).length = n := by rw [List.length_take]; omega
  have hdrop : (s.drop n).length = m := by rw [List.length_drop]; omega
  have hsplit := toNat_valueOf_append_shiftRight (valueOf n (s.take n)).bits (hs.drop n) hdrop
  have hdigits := toDigits_valueOf (hs.take n)
  rw [htake] at hdigits
  change (valueOf (n + m) ((valueOf n (s.take n)).toDigits ++ s.drop n)).toNat >>> m = _ at hsplit
  rw [hdigits, List.take_append_drop] at hsplit
  exact hsplit

end Word

open InstructionSet

namespace Instruction

variable {Op : Type} [InstructionSet Op] {s : List Char}

/-- The beginning of a text, completed with zeros. -/
def completed (n : ℕ) (s : List Char) : List Char := (leading n s).rightpad n '0'

/-- **What an instruction is decoded from**: its operation from the first word, its arguments from the
completed text. -/
theorem ofCode_eq_ok {i : Instruction Op} : ofCode s = .ok i ↔ ∃ first op args,
    Word.ofDigits (wordSize Op) (leading (wordSize Op) s) = .ok first ∧ lookup first = .ok op ∧
      decode op (completed (words op * wordSize Op) s) = .ok args ∧ i = ofOp op args := by
  unfold ofCode completed
  simp only [bind_eq_ok, mapError_eq_ok]
  constructor
  · rintro ⟨first, hfirst, op, hop, args, hargs, h⟩
    exact ⟨first, op, args, hfirst, hop, hargs, (Except.ok.inj h).symm⟩
  · rintro ⟨first, op, args, hfirst, hop, hargs, rfl⟩
    exact ⟨first, hfirst, op, hop, args, hargs, rfl⟩

theorem completed_of_binary (hs : Binary s) (n : ℕ) : completed n s = (s.take n).rightpad n '0' := by
  unfold completed
  rw [leading_of_binary hs]

/-- Zeros at the end of a row make no difference to the completed row. -/
theorem completed_append_zeros (hs : Binary s) (k n : ℕ) :
    completed n (s ++ List.replicate k '0') = completed n s := by
  have hzeros : Binary (s ++ List.replicate k '0') := binary_append.2 ⟨hs, binary_replicate_zero k⟩
  rw [completed_of_binary hzeros, completed_of_binary hs, rightpad_take_append_replicate]

/-! ### The operation -/

variable (Op) in
/-- The digits that select the operation: the first digits of the first word, where a text that is
too short for a word is filled with zeros at its beginning. -/
def opcodeDigits (s : List Char) : List Char :=
  ((s.take (wordSize Op)).leftpad (wordSize Op) '0').take (opcodeSize Op)

/-- The operation of these digits, or the one that stands in for an unknown opcode. -/
def selected? (s : List Char) : Option Op :=
  (withOpcode? (Word.valueOf (opcodeSize Op) (opcodeDigits Op s)).toNat).or fallback

theorem opcodeOf_valueOf (hsize : opcodeSize Op ≤ wordSize Op) (hs : Binary s) :
    opcodeOf Op (Word.valueOf (wordSize Op) (s.take (wordSize Op))) =
      (Word.valueOf (opcodeSize Op) (opcodeDigits Op s)).toNat := by
  have hbinary : Binary ((s.take (wordSize Op)).leftpad (wordSize Op) '0') :=
    binary_append.2 ⟨binary_replicate_zero _, hs.take _⟩
  have hlen : ((s.take (wordSize Op)).leftpad (wordSize Op) '0').length =
      opcodeSize Op + (wordSize Op - opcodeSize Op) := by
    rw [List.length_leftpad, List.length_take]
    omega
  have hshift := Word.toNat_valueOf_shiftRight hbinary hlen
  rw [Nat.add_sub_cancel' hsize, Word.valueOf_leftpad] at hshift
  exact hshift

/-- Where the row ends within the first word, it is filled at its beginning; with zeros that complete the
word, it is filled at its end. -/
theorem opcodeDigits_zeros (k : ℕ) (hle : s.length ≤ wordSize Op) (hge : wordSize Op ≤ s.length + k) :
    opcodeDigits Op s = (s.leftpad (wordSize Op) '0').take (opcodeSize Op) ∧
      opcodeDigits Op (s ++ List.replicate k '0') =
        (s.rightpad (wordSize Op) '0').take (opcodeSize Op) := by
  have htake : (s ++ List.replicate k '0').take (wordSize Op) = s.rightpad (wordSize Op) '0' := by
    rw [List.take_append, List.take_of_length_le hle, List.take_replicate, Nat.min_eq_left (by omega)]
    rfl
  have hlen : wordSize Op - (s.rightpad (wordSize Op) '0').length = 0 := by
    rw [List.length_rightpad]
    omega
  unfold opcodeDigits
  rw [List.take_of_length_le hle, htake]
  refine ⟨rfl, ?_⟩
  rw [List.leftpad, hlen, List.replicate_zero, List.nil_append]

/-- The first word of a row selects the operation of its first digits. -/
theorem lookup_first (hsize : opcodeSize Op ≤ wordSize Op) (hs : Binary s) :
    lookup (Word.valueOf (wordSize Op) (s.take (wordSize Op))) = (selected? s : Option Op).elim
      (.error (.unknownOpcode (Word.valueOf (wordSize Op) (s.take (wordSize Op))).text)) .ok := by
  unfold lookup selected?
  rw [opcodeOf_valueOf hsize hs]
  cases (withOpcode? (Word.valueOf (opcodeSize Op) (opcodeDigits Op s)).toNat).or (fallback : Option Op) <;> rfl

/-- Nothing is added to the first word of a row that has one. -/
theorem ofCode_append_zeros (hs : Binary s) (hlen : wordSize Op ≤ s.length) (k : ℕ) :
    (ofCode s : Except InstructionError (Instruction Op)) = ofCode (s ++ List.replicate k '0') := by
  have hzeros : Binary (s ++ List.replicate k '0') := binary_append.2 ⟨hs, binary_replicate_zero k⟩
  have hfirst : leading (wordSize Op) (s ++ List.replicate k '0') = leading (wordSize Op) s := by
    rw [leading_of_binary hzeros, leading_of_binary hs, List.take_append_of_le_length hlen]
  have hrest : ∀ n, (leading n (s ++ List.replicate k '0')).rightpad n '0' = (leading n s).rightpad n '0' :=
    completed_append_zeros hs k
  unfold ofCode
  simp only [hfirst, hrest]

/-- Two results of decoding are the same instruction, or both say that no operation has the opcode. -/
def Same (x y : Except InstructionError (Instruction Op)) : Prop :=
  x = y ∨ ∃ v w, x = .error (.unknownOpcode v) ∧ y = .error (.unknownOpcode w)

end Instruction

namespace Architecture

theorem opcodeSize_le (a : Architecture) : opcodeSize a.Op ≤ wordSize a.Op := by
  cases a <;> decide

/-- Any digits are decoded. -/
theorem exists_decode (a : Architecture) (op : a.Op) {digits : List Char} (h : Binary digits) :
    ∃ args, decode op digits = .ok args := by
  cases a with
  | armlet => exact ⟨_, Armlet.decode_of_fields op h rfl⟩
  | tally => exact Tally.decode_of_binary op h

end Architecture

open Instruction

variable {s : List Char}

/-- **What a text of digits is decoded to**: the operation that it selects, with the arguments of the
completed text. -/
theorem ofCode_cases (a : Architecture) (hs : Binary s) :
    ((selected? s : Option a.Op) = none ∧
      ∃ v, (ofCode s : Except InstructionError (Instruction a.Op)) = .error (.unknownOpcode v)) ∨
    ∃ (op : a.Op) (args : List String), selected? s = some op ∧
      decode op (completed (words op * wordSize a.Op) s) = .ok args ∧ ofCode s = .ok (ofOp op args) := by
  have hfirst : Word.ofDigits (wordSize a.Op) (leading (wordSize a.Op) s) =
      .ok (Word.valueOf (wordSize a.Op) (s.take (wordSize a.Op))) := by
    rw [leading_of_binary hs, Word.ofDigits_eq_ok (hs.take _)]
  have hlookup := lookup_first a.opcodeSize_le hs
  cases hsel : (selected? s : Option a.Op) with
  | none =>
    rw [hsel] at hlookup
    refine Or.inl ⟨rfl, (Word.valueOf (wordSize a.Op) (s.take (wordSize a.Op))).text, ?_⟩
    unfold ofCode
    rw [hfirst]
    change (lookup _ >>= fun op : a.Op => _) = _
    rw [hlookup]
    rfl
  | some op =>
    have hbinary : Binary (completed (words op * wordSize a.Op) s) := by
      rw [completed_of_binary hs]
      exact Field.binary_rightpad (hs.take _) _
    obtain ⟨args, hargs⟩ := a.exists_decode op hbinary
    rw [hsel] at hlookup
    exact Or.inr ⟨op, args, rfl, hargs, ofCode_eq_ok.2 ⟨_, op, args, hfirst, hlookup, hargs, rfl⟩⟩

/-- The same operation is selected exactly where the results of decoding are the same. -/
theorem same_iff_selected (a : Architecture) (hs : Binary s) (k : ℕ) :
    Same (ofCode s : Except InstructionError (Instruction a.Op)) (ofCode (s ++ List.replicate k '0')) ↔
      (selected? s : Option a.Op) = selected? (s ++ List.replicate k '0') := by
  have hzeros : Binary (s ++ List.replicate k '0') := binary_append.2 ⟨hs, binary_replicate_zero k⟩
  rcases ofCode_cases a hs with ⟨hsel, v, hv⟩ | ⟨op, args, hsel, hargs, hok⟩ <;>
    rcases ofCode_cases a hzeros with ⟨hsel', v', hv'⟩ | ⟨op', args', hsel', hargs', hok'⟩
  · rw [hv, hv', hsel, hsel']
    exact ⟨fun _ => rfl, fun _ => Or.inr ⟨v, v', rfl, rfl⟩⟩
  · rw [hv, hok', hsel, hsel']
    simp [Same]
  · rw [hok, hv', hsel, hsel']
    simp [Same]
  · rw [completed_append_zeros hs] at hargs'
    rw [hok, hok', hsel, hsel']
    constructor
    · rintro (h | ⟨v, w, h, -⟩)
      · obtain ⟨rfl, -⟩ := Body.operation.inj (congrArg Instruction.body (Except.ok.inj h))
        rfl
      · exact absurd h (by simp)
    · intro h
      obtain rfl := Option.some.inj h
      obtain rfl := Except.ok.inj (hargs.symm.trans hargs')
      exact Or.inl rfl

/-- **Zeros at the end of a text.** For both architectures, and any row of binary digits with any
number of zeros behind it: the arguments of the decoded instruction are those of the completed row,
zeros or not. If the row has the digits of a first word, the result is the same with and without the
zeros. In general it is the same exactly if the same operation is selected; the digits that
select it are the first ones of a word that is filled at its beginning without the zeros, and, when the
zeros complete the word, of a word that is filled at its end with them. -/
theorem zeros_decoded (a : Architecture) (hs : Binary s) (k : ℕ) :
    (∀ (op : a.Op) (args : List String), ofCode s = .ok (ofOp op args) →
      decode op (completed (words op * wordSize a.Op) (s ++ List.replicate k '0')) = .ok args) ∧
    (wordSize a.Op ≤ s.length → (ofCode s : Except InstructionError (Instruction a.Op)) =
      ofCode (s ++ List.replicate k '0')) ∧
    (Same (ofCode s : Except InstructionError (Instruction a.Op)) (ofCode (s ++ List.replicate k '0')) ↔
      (selected? s : Option a.Op) = selected? (s ++ List.replicate k '0')) ∧
    (s.length ≤ wordSize a.Op → wordSize a.Op ≤ s.length + k →
      opcodeDigits a.Op s = (s.leftpad (wordSize a.Op) '0').take (opcodeSize a.Op) ∧
      opcodeDigits a.Op (s ++ List.replicate k '0') =
        (s.rightpad (wordSize a.Op) '0').take (opcodeSize a.Op)) := by
  refine ⟨fun op args h => ?_, fun hlen => ofCode_append_zeros hs hlen k, same_iff_selected a hs k,
    opcodeDigits_zeros k⟩
  obtain ⟨-, op', args', -, -, hargs, hi⟩ := ofCode_eq_ok.1 h
  obtain ⟨rfl, rfl⟩ := Body.operation.inj (congrArg Instruction.body hi)
  rw [completed_append_zeros hs, hargs]

/-- A single digit selects another operation when zeros complete the word. -/
theorem zeros_decoded_digit : ∃ s : List Char, s = ['1'] ∧ Binary s ∧
    (ofCode s : Except InstructionError (Instruction Architecture.armlet.Op)) = .ok (ofOp .nop []) ∧
    (ofCode (s ++ List.replicate 15 '0') : Except InstructionError (Instruction Architecture.armlet.Op)) =
      .ok (ofOp (.branch .ne .immediate) ["0"]) ∧
    opcodeDigits Architecture.armlet.Op s = ['0', '0', '0', '0', '0', '0'] ∧
    opcodeDigits Architecture.armlet.Op (s ++ List.replicate 15 '0') = ['1', '0', '0', '0', '0', '0'] ∧
    (selected? s : Option Architecture.armlet.Op) ≠ selected? (s ++ List.replicate 15 '0') := by
  have hs : Binary ['1'] := by simp [Binary, isBinary]
  have hshort : (ofCode ['1'] : Except InstructionError (Instruction Architecture.armlet.Op)) =
      .ok (ofOp .nop []) := by cbv
  have hlong : (ofCode (['1'] ++ List.replicate 15 '0') :
      Except InstructionError (Instruction Architecture.armlet.Op)) =
        .ok (ofOp (.branch .ne .immediate) ["0"]) := by cbv
  obtain ⟨-, -, hsame, hdigits⟩ := zeros_decoded .armlet hs 15
  obtain ⟨hbegin, hend⟩ := hdigits (by decide) (by decide)
  refine ⟨_, rfl, hs, hshort, hlong, hbegin, hend, fun hsel => ?_⟩
  have h := hsame.2 hsel
  rw [hshort, hlong] at h
  rcases h with h | ⟨v, w, h, -⟩
  · have hargs := congrArg (fun i => i.body.args) (Except.ok.inj h)
    exact absurd hargs (List.cons_ne_nil "0" []).symm
  · exact absurd h (by simp)

end TinyIsa
