import TinyIsa.Word.Basic

/-!
# Words as binary digits

* `Word.toDigits`: the digits of a word, most significant first, as many as its width.
* `Word.ofDigits`: the word of a row of digits of any length; the leading ones fall off.
* `EncodingError`: the first character of a row that is no binary digit.
-/

namespace TinyIsa

/-- A character of a row of binary digits that is neither `0` nor `1`. -/
structure EncodingError where
  /-- The row. -/
  input : String
  /-- How many characters stand before the offending one. -/
  position : Nat
  /-- The offending character. -/
  character : Char
deriving DecidableEq, Repr

/-- The text of an encoding error. -/
def EncodingError.message (e : EncodingError) : String :=
  s!"Invalid character `{e.character}` at position {e.position} of bit string `{e.input}`"

/-- A binary digit is `0` or `1`. -/
def isBinary (c : Char) : Bool := c == '0' || c == '1'

namespace Word

/-- The binary digits of a word, most significant first. -/
def toDigits (a : Word) : List Char :=
  (List.range a.width).map fun i => if a.bits.getMsbD i then '1' else '0'

/-- The binary digits of a word as a string. -/
def text (a : Word) : String := String.ofList a.toDigits

/-- The word of width `w` whose last digits are those of a row of binary digits. -/
def ofDigits (w : Nat) (s : List Char) : Except EncodingError Word :=
  match s.dropWhile isBinary with
  | [] => .ok ⟨w, s.foldl (fun v c => v.shiftConcat (c == '1')) 0⟩
  | c :: _ => .error ⟨String.ofList s, (s.takeWhile isBinary).length, c⟩

end Word

end TinyIsa
