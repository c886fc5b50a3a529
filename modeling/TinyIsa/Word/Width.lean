import TinyIsa.Word.Digits

/-!
# Widths of words

A machine has words of 1 to 64 bits. A width from outside is checked here, before
a word of that width is made.

* `WordError`: why a word cannot be made from what was given.
* `Word.checked`, `Word.ofDigitsChecked`: words of a width that is given from outside.
-/

namespace TinyIsa

/-- The largest width of a word. -/
def maxWidth : Nat := 64

/-- The reasons for which no word can be made. -/
inductive WordError where
  /-- The width is out of bounds. -/
  | width (len : Nat)
  /-- The digits are not binary. -/
  | encoding (e : EncodingError)
deriving DecidableEq, Repr

/-- The text of a word error. -/
def WordError.message : WordError → String
  | .width len => s!"word width must be between 1 and {maxWidth} bits, got {len}"
  | .encoding e => e.message

/-- Makes a word of a width within bounds. -/
def Word.checked (w : Nat) (make : Nat → Word) : Except WordError Word :=
  if 1 ≤ w ∧ w ≤ maxWidth then .ok (make w) else .error (.width w)

/-- Reads binary digits into a word of a width within bounds; a wrong digit comes
before a wrong width. -/
def Word.ofDigitsChecked (w : Nat) (s : List Char) : Except WordError Word := do
  let a ← (Word.ofDigits w s).mapError .encoding
  Word.checked w fun _ => a

end TinyIsa
