/-!
# Lines of text

* `rows`: the pieces between newlines; a text with `n` newlines has `n + 1` of them.
* `lines`: the lines a reader counts, where the newline ends a line and opens none.
-/

namespace TinyIsa.Text

/-- A row without the one carriage return that may end it. -/
def dropCarriage (row : List Char) : List Char :=
  if row.getLast? = some '\r' then row.dropLast else row

/-- The pieces of a text between its newlines. -/
def rows (s : List Char) : List (List Char) :=
  s.splitOn '\n'

/-- The lines of a text: a row ended by a newline loses its carriage return, and
an empty row after the last newline is no line. -/
def lines (s : List Char) : List (List Char) :=
  (rows s).dropLast.map dropCarriage ++ (rows s).getLast?.toList.filter (!·.isEmpty)

/-- Rows put together again, with a newline between them. -/
def unrows (rs : List (List Char)) : List Char :=
  ['\n'].intercalate rs

end TinyIsa.Text
