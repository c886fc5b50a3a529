import Mathlib
import TinyIsa.Proofs.Source.Faults
import TinyIsa.Proofs.Text.Cut

/-!
# The place of an error

An error comes with the number of a line of its source, and with the bytes of that line.

* `Span.Covers`: the span of a piece of a source, in bytes.
* `covers_append`: the span of a piece.
* `mem_ofSource`: **each row has the span of its text**.
* `number_of_mem_faults`: a fault is on a line of the source.
* `error_located`: **an error points at the line that it reports**, and at nothing else.
-/

namespace TinyIsa

open InstructionSet

/-- The span of a piece of a source: it has the bytes of the piece, and cuts no character in two. -/
structure Span.Covers (s : Span) (source piece : List Char) : Prop where
  bytes : (String.ofList source).toByteArray.extract s.offset (s.offset + s.length) =
    (String.ofList piece).toByteArray
  fits : s.offset + s.length ≤ (String.ofList source).utf8ByteSize
  start : String.Pos.Raw.IsValid (String.ofList source) ⟨s.offset⟩
  stop : String.Pos.Raw.IsValid (String.ofList source) ⟨s.offset + s.length⟩

/-! ### Bytes -/

namespace Text

/-- **A piece of a source** begins behind the bytes in front of it. -/
theorem covers_append (before piece after : List Char) :
    Span.Covers ⟨byteLength before, byteLength piece⟩ (before ++ (piece ++ after)) piece := by
  have hvalid : ∀ s t : List Char, String.Pos.Raw.IsValid (String.ofList (s ++ t)) ⟨byteLength s⟩ := fun s t => by
    rw [String.Pos.Raw.isValid_iff_exists_append]
    exact ⟨String.ofList s, String.ofList t, String.ofList_append, congrArg String.Pos.Raw.mk (byteLength_eq s)⟩
  refine ⟨?_, ?_, hvalid _ _, ?_⟩
  · rw [byteLength_eq, byteLength_eq, String.ofList_append, String.ofList_append, String.toByteArray_append,
      String.toByteArray_append]
    refine (ByteArray.extract_append_size_add' (i := 0) String.size_toByteArray.symm).trans ?_
    exact ByteArray.extract_append_eq_left String.size_toByteArray.symm
  · rw [← byteLength_eq, byteLength_append, byteLength_append, ← Nat.add_assoc]
    exact Nat.le_add_right _ _
  · have hstop := hvalid (before ++ piece) after
    rwa [List.append_assoc, byteLength_append] at hstop

theorem byteLength_rows (front : List (List Char)) :
    byteLength (front.flatMap (· ++ ['\n'])) = (front.map fun r => byteLength r + 1).foldl (· + ·) 0 := by
  induction front using List.reverseRecOn with
  | nil => rfl
  | append_singleton front row ih =>
    rw [List.flatMap_append, byteLength_append, ih, List.map_append, List.foldl_append, List.flatMap_singleton,
      byteLength_append]
    rfl

end Text

/-! ### Rows -/

/-- A row of a source is a piece of it, behind the rows in front of it and their newlines. -/
theorem covers_row {source text : List Char} {k : ℕ} (h : (Text.rows source)[k]? = some text) :
    Span.Covers ⟨Text.byteLength (((Text.rows source).take k).flatMap (· ++ ['\n'])),
      Text.byteLength (Text.dropCarriage text)⟩ source (Text.dropCarriage text) := by
  have hrows : source = Text.unrows ((Text.rows source).take k ++ text :: (Text.rows source).drop (k + 1)) := by
    rw [List.getElem?_eq_some_iff] at h
    obtain ⟨hk, rfl⟩ := h
    rw [← List.drop_eq_getElem_cons hk, List.take_append_drop]
    exact (List.intercalate_splitOn '\n').symm
  obtain ⟨tail, htail⟩ : ∃ tail, text = Text.dropCarriage text ++ tail := by
    rcases Text.dropCarriage_cases text with hsame | hcarriage
    · exact ⟨[], by rw [hsame, List.append_nil]⟩
    · exact ⟨_, hcarriage⟩
  have hcovers := Text.covers_append (((Text.rows source).take k).flatMap (· ++ ['\n'])) (Text.dropCarriage text)
    (tail ++ ((Text.rows source).drop (k + 1)).flatMap ('\n' :: ·))
  rwa [← List.append_assoc (Text.dropCarriage text), ← htail, ← Text.unrows_append_cons, ← hrows] at hcovers

/-- **Each row has the span of its text**, which is a row of the source without its carriage return. -/
theorem mem_ofSource {source : List Char} {row : SourceRow} (h : row ∈ SourceRow.ofSource source) :
    ∃ k text, (Text.rows source)[k]? = some text ∧ row.number = k + 1 ∧
      row.span.Covers source (Text.dropCarriage text) := by
  unfold SourceRow.ofSource at h
  obtain ⟨⟨⟨text, offset⟩, number⟩, hmem, rfl⟩ := List.mem_map.1 h
  obtain ⟨k, hk⟩ := List.mem_iff_getElem?.1 hmem
  rw [List.getElem?_zipIdx, Option.map_eq_some_iff] at hk
  obtain ⟨x, hzip, hx⟩ := hk
  obtain ⟨rfl, rfl⟩ := Prod.mk.inj hx
  obtain ⟨htext, hoffset⟩ := List.getElem?_zip_eq_some.1 hzip
  rw [List.getElem?_scanl] at hoffset
  split at hoffset
  · have hplace := Option.some.inj hoffset
    rw [← List.map_take, ← Text.byteLength_rows] at hplace
    subst hplace
    exact ⟨k, text, htext, Nat.add_comm 1 k, covers_row htext⟩
  · exact absurd hoffset (by simp)

/-! ### Faults -/

variable {Op : Type} [InstructionSet Op]

/-- **A fault is on a line** of the source. -/
theorem number_of_mem_faults {resolve : Bool} {rows : List SourceRow} {e : ParseError}
    (h : e ∈ faults Op resolve (codeLines (dialect Op) rows)) : ∃ row ∈ rows, row.number = e.line := by
  have hlines : List.Forall₂ (SourceLine.Agrees fun n _ => ∃ row ∈ rows, row.number = n)
      (codeLines (dialect Op) rows) (codeLines (dialect Op) rows) := by
    refine List.forall₂_same.2 fun l hl => ?_
    obtain ⟨x, hx, rfl⟩ := List.mem_map.1 hl
    obtain ⟨row, hrow, rfl⟩ := List.mem_map.1 (List.mem_of_mem_filter hx)
    refine ⟨⟨row, hrow, rfl⟩, List.forall₂_same.2 fun label hlabel => ⟨rfl, ?_⟩, rfl⟩
    obtain ⟨name, -, rfl⟩ := List.mem_map.1 hlabel
    exact ⟨row, hrow, rfl⟩
  exact (List.forall₂_same.1 (faults_agrees Op resolve hlines) e h).line

/-- **An error points at the line that it reports**: its number is one of the lines, and its span has the
bytes of that line, without the carriage return that may end it. -/
theorem error_located (a : Architecture) (source : List Char) (resolve : Bool) (e : ParseError)
    (h : parse source resolve = (.error e : Except ParseError (List (Instruction a.Op)))) :
    (1 ≤ e.line ∧ e.line ≤ (source.splitOn '\n').length) ∧
    ∃ span text, e.span = some span ∧ (source.splitOn '\n')[e.line - 1]? = some text ∧
      span.Covers source (Text.dropCarriage text) := by
  have hhead := refusal_parse a.Op source resolve
  rw [h] at hhead
  obtain ⟨fault, hfault, rfl⟩ := List.mem_map.1 (List.mem_of_head? hhead.symm)
  -- the fault is on a row, so that one is found by its number, whichever it is
  obtain ⟨row, hrow, hnumber⟩ := number_of_mem_faults hfault
  obtain ⟨found, hfound⟩ : ∃ found, (SourceRow.ofSource source).find? (·.number == fault.line) = some found := by
    rw [← Option.isSome_iff_exists, List.find?_isSome]
    exact ⟨row, hrow, beq_iff_eq.2 hnumber⟩
  obtain ⟨k, text, htext, hk, hcovers⟩ := mem_ofSource (List.mem_of_find?_eq_some hfound)
  have hsame := List.find?_some hfound
  have hline : fault.line = k + 1 := (beq_iff_eq.1 hsame).symm.trans hk
  obtain ⟨hlt, -⟩ := List.getElem?_eq_some_iff.1 htext
  rw [hline] at hfound
  simp only [ParseError.locate, hline, hfound]
  exact ⟨⟨Nat.succ_pos k, hlt⟩, found.span, text, rfl, htext, hcovers⟩

/-- A label that is defined again, behind carriage returns and a character of two bytes. -/
theorem error_located_repeated :
    (parse "a: out ; café\r\n;\r\na: out\r\n".toList false : Except ParseError (List (Instruction Architecture.tally.Op))) =
        .error ⟨.duplicateLabel "a", 3, some ⟨19, 6⟩⟩ ∧
      Span.Covers ⟨19, 6⟩ "a: out ; café\r\n;\r\na: out\r\n".toList "a: out".toList := by
  have hparse : (parse "a: out ; café\r\n;\r\na: out\r\n".toList false :
      Except ParseError (List (Instruction Architecture.tally.Op))) =
        .error ⟨.duplicateLabel "a", 3, some ⟨19, 6⟩⟩ := by cbv
  have hrow : ("a: out ; café\r\n;\r\na: out\r\n".toList.splitOn '\n')[2]? = some "a: out\r".toList := by
    decide +kernel
  obtain ⟨-, span, text, hspan, htext, hcovers⟩ := error_located .tally _ false _ hparse
  obtain rfl := Option.some.inj hspan
  obtain rfl := Option.some.inj (hrow.symm.trans htext)
  exact ⟨hparse, hcovers⟩

end TinyIsa
