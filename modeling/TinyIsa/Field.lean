import TinyIsa.Text.Bytes
import TinyIsa.Word.Width

/-!
# Fields of an encoded instruction

An encoded instruction is a row of fields, each the digits of a number at a fixed
width.

* `pack`: the digits of a row of fields.
* `slices`: the piece of a text that belongs to each field, completed with zeros.
* `unpack`: the fields of a text, as words.
-/

namespace TinyIsa.Field

/-- The digits of the fields, in order. -/
def pack (fields : List (Int × Nat)) : List Char :=
  fields.flatMap fun f => (Word.ofInt f.2 f.1).toDigits

/-- The bytes from `start` on that belong to a field, with zeros for the missing
digits; no bytes belong to it when a cut would split a character. -/
def slice (s : List Char) (start width : Nat) : List Char :=
  (((Text.dropBytes? start s).bind (Text.takeBytes? width)).getD []).rightpad width '0'

/-- The width and the digits of each field, side by side from the first byte on. -/
def slices (s : List Char) (widths : List Nat) : List (Nat × List Char) :=
  widths.zipWith (fun w start => (w, slice s start w)) (widths.scanl (· + ·) 0)

/-- The fields of a text, as words of the given widths. -/
def unpack (s : List Char) (widths : List Nat) : Except EncodingError (List Word) :=
  (slices s widths).mapM fun f => Word.ofDigits f.1 f.2

/-- The digits of fields whose widths are given from outside. -/
def packChecked (fields : List (Int × Nat)) : Except WordError (List Char) :=
  List.flatten <$> fields.mapM fun f =>
    Word.toDigits <$> Word.checked f.2 fun w => Word.ofInt w f.1

/-- The fields of a text at widths that are given from outside. -/
def unpackChecked (s : List Char) (widths : List Nat) : Except WordError (List Word) :=
  (slices s widths).mapM fun f => Word.ofDigitsChecked f.1 f.2

end TinyIsa.Field
