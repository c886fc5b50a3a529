import TinyIsa.Instruction.Basic
import TinyIsa.Machine.Basic

/-!
# Loading programs

* `LoadError`: why a program is not loaded.
* `Machine.loadCode`: loads a text of digits; blanks in it do not count.
* `Machine.loadProgram`: loads the digits of a program.

What is refused leaves the machine as it is.
-/

namespace TinyIsa

/-- The reasons for which a program is not loaded. -/
inductive LoadError where
  /-- It is longer than the memory. -/
  | programTooLarge (words capacity : Nat)
  /-- Its last word is incomplete. -/
  | misaligned (bits wordSize : Nat)
  /-- An instruction is refused. -/
  | instruction (e : InstructionError)
  /-- The digits of a word are not binary. -/
  | encoding (e : EncodingError)
deriving DecidableEq, Repr

/-- The text of a load error. -/
def LoadError.message : LoadError → String
  | .programTooLarge words capacity =>
    s!"Program is {Text.decimal words} words long but memory only holds {Text.decimal capacity}"
  | .misaligned bits wordSize =>
    s!"Machine code of {Text.decimal bits} bits is not aligned to {Text.decimal wordSize}-bit words"
  | .instruction e => e.message
  | .encoding e => e.message

/-- The first `k` pieces of `n` characters of a text. -/
def pieces {α : Type} (n : Nat) : Nat → List α → List (List α)
  | 0, _ => []
  | k + 1, s => s.take n :: pieces n k (s.drop n)

namespace Machine

variable {Op σ : Type} [InstructionSet Op]

open InstructionSet

/-- The words of a text of digits, for a memory of a given size. -/
def image (Op : Type) [InstructionSet Op] (capacity : Nat) (code : List Char) :
    Except LoadError (List Word) :=
  let digits := code.filter (!Text.isBlank ·)
  let words := digits.length / wordSize Op
  if digits.length % wordSize Op ≠ 0 then .error (.misaligned digits.length (wordSize Op))
  else if capacity < words then .error (.programTooLarge words capacity)
  else (pieces (wordSize Op) words digits).mapM fun piece =>
    (Word.ofDigits (wordSize Op) piece).mapError .encoding

/-- The machine with the given words at the beginning of its memory and the program
counter in front of them. -/
def install (m : Machine Op σ) (words : List Word) : Machine Op σ :=
  let blanks := List.replicate (m.memory.size - words.length) (blankWord Op)
  setPc { m with memory := (words ++ blanks).toArray, loaded := words.length } 0

/-- Loads a text of digits. All of it is checked before the machine is changed. -/
def loadCode (m : Machine Op σ) (code : List Char) : Except LoadError Unit × Machine Op σ :=
  match image Op m.memory.size code with
  | .error e => (.error e, m)
  | .ok words => (.ok (), m.install words)

/-- Loads the digits of a program. -/
def loadProgram (m : Machine Op σ) (program : List (Instruction Op)) :
    Except LoadError Unit × Machine Op σ :=
  match machineCode program with
  | .error e => (.error (.instruction e), m)
  | .ok code => m.loadCode code

end Machine

end TinyIsa
