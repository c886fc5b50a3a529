/-!
# Positions in bytes

Offsets into a text count the bytes of its UTF-8 form. A cut is possible only
between two characters.

* `byteLength`: the length of a text in bytes.
* `takeBytes?`, `dropBytes?`: the text before and after a byte offset.
-/

namespace TinyIsa.Text

/-- The number of bytes of a text. -/
def byteLength (s : List Char) : Nat :=
  s.foldl (fun n c => n + c.utf8Size) 0

/-- The characters within the first `n` bytes, all of a shorter text, and nothing
when the cut would split a character. -/
def takeBytes? : Nat → List Char → Option (List Char)
  | 0, _ => some []
  | _ + 1, [] => some []
  | n + 1, c :: s =>
    if c.utf8Size ≤ n + 1 then (takeBytes? (n + 1 - c.utf8Size) s).map (c :: ·) else none

/-- The characters after the first `n` bytes, and nothing when the text is
shorter or the cut would split a character. -/
def dropBytes? : Nat → List Char → Option (List Char)
  | 0, s => some s
  | _ + 1, [] => none
  | n + 1, c :: s => if c.utf8Size ≤ n + 1 then dropBytes? (n + 1 - c.utf8Size) s else none

end TinyIsa.Text
