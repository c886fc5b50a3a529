/-!
# Terminal styles

A style is set by an escape sequence: an escape character, a bracket, codes, and an `m`.

* `paint`: a text in a style, which comes back wherever the text itself ends a style.
* `visible`: a text without its escape sequences.
-/

namespace TinyIsa

/-- The character that opens an escape sequence. -/
def escape : Char := '\x1b'

/-- The sequence that ends all styles. -/
def resetSequence : List Char := [escape, '[', '0', 'm']

/-- The sequence that sets the style with some codes. -/
def styleSequence (codes : String) : List Char :=
  escape :: '[' :: codes.toList ++ ['m']

/-- Puts a style again behind every end of styles in a text; `done` is the reverse of
what stands in front of the text. -/
def reopen (style done : List Char) : List Char → List Char
  | '\x1b' :: '[' :: '0' :: 'm' :: s => reopen style (style.reverse ++ resetSequence.reverse ++ done) s
  | c :: s => reopen style (c :: done) s
  | [] => done.reverse

/-- A text in the style with some codes, if styles are on. -/
def paint (on : Bool) (codes text : String) : String :=
  if on then
    let style := styleSequence codes
    String.ofList (style ++ reopen style [] text.toList ++ resetSequence)
  else text

/-- The colour of diagnostics. -/
def blue : String := "34"

/-- The colour of success. -/
def green : String := "32"

/-- The colour of interruption. -/
def red : String := "31"

/-- The colour of addresses. -/
def cyan : String := "36"

/-- The style of remarks. -/
def dimmed : String := "2"

/-- The style of an alert. -/
def boldRed : String := "1;31"

/-- What is seen of the characters so far, in reverse, and whether the last ones
belong to an escape sequence that goes on. -/
structure Scan where
  /-- Whether an escape sequence is open. -/
  inEscape : Bool := false
  /-- The visible characters, the last one first. -/
  seen : List Char := []

/-- What is seen once one more character is read. -/
def Scan.read (s : Scan) (c : Char) : Scan :=
  if s.inEscape then { s with inEscape := c != 'm' }
  else if c = escape then { s with inEscape := true }
  else { s with seen := c :: s.seen }

/-- The characters of a text outside of escape sequences; a sequence that is not closed
lasts to the end of the text. -/
def visible (s : List Char) : List Char :=
  (s.foldl Scan.read {}).seen.reverse

end TinyIsa
