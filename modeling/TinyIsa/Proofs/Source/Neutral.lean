import Mathlib
import TinyIsa.Proofs.Source.Faults
import TinyIsa.Proofs.Source.Legible

/-!
# Comments, blank lines and line endings

A program is decided by the code of its source. What else stands there moves no address, carries
no label and is at fault for nothing.

* `essence`: the entries of a program without comments and numbers of lines.
* `entries_of_parse`: the entries of an assembled program are those of its code.
* `parse_agrees`: sources whose lines agree are assembled to programs with one essence, or refused
  for one fault on lines that correspond; `ofCode_texts`: the same texts are lines that agree.
* `withReturns`: carriage returns in front of the newlines; `ofRow_withReturns`: they are on no line.
* `parse_neutral`: **two sources with the same code texts are assembled alike, or refused for the
  same text**; a carriage return in front of each newline changes nothing.
-/

namespace TinyIsa

open InstructionSet

variable {Op : Type}

/-- The entries of a program with their arguments, the names of their labels and their addresses. -/
def essence (p : List (Instruction Op)) : List (Body Op × List String × Option ℕ) :=
  (p.filter (!·.isIdle)).map fun i => (i.body, i.labels.map Label.name, i.address)

/-- The text with a carriage return in front of each newline. -/
def withReturns (source : List Char) : List Char :=
  source.flatMap fun c => if c = '\n' then ['\r', '\n'] else [c]

section

variable {ρ : ℕ → ℕ → Prop} {p q : List (Instruction Op)}

/-! ### The essence of a program -/

theorem map_agrees (h : List.Forall₂ (Instruction.Agrees ρ) p q) :
    p.map (fun i => (i.body, i.labels.map Label.name, i.address)) =
      q.map fun i => (i.body, i.labels.map Label.name, i.address) := by
  induction h with
  | nil => rfl
  | cons hi _ ih => rw [List.map_cons, List.map_cons, ih, hi.body, hi.address, map_name_agrees hi.labels]

variable [InstructionSet Op]

/-- **The digits of a program** are those of its essence. -/
theorem machineCode_of_essence (h : essence p = essence q) : machineCode p = machineCode q := by
  have hdigits : ∀ p : List (Instruction Op),
      machineCode p = List.flatten <$> ((essence p).map Prod.fst).mapM Body.code := by
    intro p
    rw [← machineCode_skeleton]
    unfold machineCode skeleton essence
    rw [List.mapM_map, List.map_map, List.mapM_map]
    rfl
  rw [hdigits p, hdigits q, h]

theorem filter_substitute (table : String → Option ℕ) (p : List (Instruction Op)) :
    (p.map (·.substitute table)).filter (!·.isIdle) = (p.filter (!·.isIdle)).map (·.substitute table) := by
  have hidle : ∀ i : Instruction Op, (i.substitute table).isIdle = i.isIdle := by
    rintro ⟨body, labels, comment, line, address⟩
    cases body <;> rfl
  rw [List.filter_map]
  exact congrArg (List.map _) (List.filter_congr fun i _ => congrArg (!·) (hidle i))

/-- The entries of some code, with numbers in the place of references if they are replaced. -/
def resolvedEntries (resolve : Bool) (p : List (Instruction Op)) : List (Instruction Op) :=
  if resolve then p.map (·.substitute (addressOf p)) else p

theorem resolvedEntries_agrees (resolve : Bool) (h : List.Forall₂ (Instruction.Agrees ρ) p q) :
    List.Forall₂ (Instruction.Agrees ρ) (resolvedEntries resolve p) (resolvedEntries resolve q) := by
  unfold resolvedEntries
  rw [addressOf_agrees h]
  split
  · rw [List.forall₂_map_left_iff, List.forall₂_map_right_iff]
    exact h.imp fun _ _ hi => substitute_agrees hi _
  · exact h

/-- **The entries of an assembled program** are those of its code, but for comments. -/
theorem entries_of_parse {source : List Char} {resolve : Bool} (h : parse source resolve = .ok p) :
    List.Forall₂ (Instruction.Agrees Eq) (p.filter (!·.isIdle))
      (resolvedEntries resolve (entriesFrom Op 0 (codeLines (dialect Op) (SourceRow.ofSource source)))) := by
  obtain ⟨lines, program, table, hlines, hprogram, htable, rfl⟩ := exists_of_parse h
  have hentries := resolvedEntries_agrees resolve (entries_codeLines hlines hprogram)
  have hfilter : ((if resolve then (place program).map (·.substitute table.get?) else place program).filter
      (!·.isIdle)) = resolvedEntries resolve ((place program).filter (!·.isIdle)) := by
    unfold resolvedEntries
    rw [get?_labelTable htable, addressOf_entries]
    split
    · exact filter_substitute _ _
    · rfl
  rw [hfilter]
  exact hentries

/-- **Sources whose lines agree** are assembled to programs with one essence, or refused for one fault. -/
theorem parse_agrees {source source' : List Char}
    (h : List.Forall₂ (SourceLine.Agrees ρ) (codeLines (dialect Op) (SourceRow.ofSource source))
      (codeLines (dialect Op) (SourceRow.ofSource source'))) (resolve : Bool) :
    (∃ p q : List (Instruction Op), parse source resolve = .ok p ∧ parse source' resolve = .ok q ∧
      essence p = essence q) ∨
    ∃ e e', parse source resolve = (.error e : Except ParseError (List (Instruction Op))) ∧
      parse source' resolve = (.error e' : Except ParseError (List (Instruction Op))) ∧
      e.fault = e'.fault ∧ ρ e.line e'.line := by
  have hrefusal := refusal_parse Op source resolve
  have hrefusal' := refusal_parse Op source' resolve
  have hfaults := faults_agrees Op resolve h
  unfold sourceFaults at hrefusal hrefusal'
  cases hf : faults Op resolve (codeLines (dialect Op) (SourceRow.ofSource source)) with
  | nil =>
    rw [hf, List.forall₂_nil_left_iff] at hfaults
    rw [hf] at hrefusal
    rw [hfaults] at hrefusal'
    obtain ⟨p, hp⟩ := refusal_eq_none.1 hrefusal
    obtain ⟨q, hq⟩ := refusal_eq_none.1 hrefusal'
    have hentries := resolvedEntries_agrees resolve (entriesFrom_agrees Op h 0)
    exact Or.inl ⟨p, q, hp, hq, (map_agrees (entries_of_parse hp)).trans
      ((map_agrees hentries).trans (map_agrees (entries_of_parse hq)).symm)⟩
  | cons e es =>
    rw [hf, List.forall₂_cons_left_iff] at hfaults
    obtain ⟨e', es', he, -, hf'⟩ := hfaults
    rw [hf] at hrefusal
    rw [hf'] at hrefusal'
    exact Or.inr ⟨_, _, refusal_eq_some.1 hrefusal, refusal_eq_some.1 hrefusal', he.fault, he.line⟩

end

/-! ### Lines that hold the same text -/

/-- The numbers of the lines that hold the same element of two lists of texts. -/
def Corresponds (texts texts' : List (ℕ × List Char)) (n n' : ℕ) : Prop :=
  ∃ k : ℕ, (texts[k]?).map Prod.fst = some n ∧ (texts'[k]?).map Prod.fst = some n'

theorem ofCode_agrees {ρ : ℕ → ℕ → Prop} (d : Dialect) {x x' : ℕ × List Char} (hnumber : ρ x.1 x'.1)
    (htext : x.2 = x'.2) : (SourceLine.ofCode d x).Agrees ρ (SourceLine.ofCode d x') := by
  unfold SourceLine.ofCode
  rw [htext]
  refine ⟨hnumber, ?_, rfl⟩
  rw [List.forall₂_map_left_iff, List.forall₂_map_right_iff]
  exact List.forall₂_same.2 fun name _ => ⟨rfl, hnumber⟩

/-- **The same texts** are lines that agree. -/
theorem ofCode_texts (d : Dialect) {texts texts' : List (ℕ × List Char)}
    (h : texts.map Prod.snd = texts'.map Prod.snd) :
    List.Forall₂ (SourceLine.Agrees (Corresponds texts texts')) (texts.map (SourceLine.ofCode d))
      (texts'.map (SourceLine.ofCode d)) := by
  have hlen : texts.length = texts'.length := by
    have hlength := congrArg List.length h
    rwa [List.length_map, List.length_map] at hlength
  rw [List.forall₂_map_left_iff, List.forall₂_map_right_iff]
  refine List.forall₂_iff_get.2 ⟨hlen, fun k hk hk' => ofCode_agrees d ⟨k, ?_, ?_⟩ ?_⟩
  · rw [List.getElem?_eq_getElem hk]
    rfl
  · rw [List.getElem?_eq_getElem hk']
    rfl
  · have htext := congrArg (·[k]?) h
    simpa [hk, hk'] using htext

/-! ### Carriage returns -/

/-- A row with or without a carriage return behind it. -/
def Returned (row row' : List Char) : Prop := row' = row ∨ row' = row ++ ['\r']

theorem rows_cons {c : Char} (h : c ≠ '\n') (s : List Char) :
    Text.rows (c :: s) = (Text.rows s).modifyHead (c :: ·) := by
  unfold Text.rows
  rw [List.splitOn_eq_splitOnP, List.splitOn_eq_splitOnP, List.splitOnP_cons_eq_if_modifyHead,
    if_neg (by simpa using h)]

theorem rows_withReturns (s : List Char) : List.Forall₂ Returned (Text.rows s) (Text.rows (withReturns s)) := by
  induction s with
  | nil => exact List.Forall₂.cons (Or.inl rfl) .nil
  | cons c s ih =>
    by_cases hc : c = '\n'
    · subst hc
      have hreturn : withReturns ('\n' :: s) = ['\r'] ++ '\n' :: withReturns s := rfl
      have hrows : Text.rows ('\n' :: s) = [[]] ++ Text.rows s := Text.rows_append [] s
      have hrow : Text.rows ['\r'] = [['\r']] := Text.rows_of_not_mem (by decide)
      rw [hreturn, hrows, Text.rows_append, hrow]
      exact .cons (Or.inr rfl) ih
    · have hkeep : withReturns (c :: s) = c :: withReturns s := by
        unfold withReturns
        rw [List.flatMap_cons, if_neg hc, List.singleton_append]
      rw [hkeep, rows_cons hc, rows_cons hc]
      -- the character joins the first row of both
      generalize Text.rows s = rows at ih
      generalize Text.rows (withReturns s) = rows' at ih
      cases ih with
      | nil => exact .nil
      | cons hrow hrest =>
        refine .cons ?_ hrest
        obtain rfl | rfl := hrow
        · exact Or.inl rfl
        · exact Or.inr rfl

theorem dropCarriage_append (row : List Char) : Text.dropCarriage (row ++ ['\r']) = row := by
  unfold Text.dropCarriage
  rw [if_pos List.getLast?_concat, List.dropLast_concat]

/-- A carriage return behind a row is none of its parts. -/
theorem parts_returned {d : Dialect} (hd : Text.isBlank d.comment = false) {row row' : List Char}
    (h : Returned row row') :
    SourceLine.codeText d (Text.dropCarriage row') = SourceLine.codeText d (Text.dropCarriage row) ∧
      SourceLine.commentText d (Text.dropCarriage row') = SourceLine.commentText d (Text.dropCarriage row) := by
  obtain rfl | rfl := h
  · exact ⟨rfl, rfl⟩
  · rw [dropCarriage_append]
    obtain ⟨hcode, hcomment⟩ := SourceLine.parts_dropCarriage hd row
    exact ⟨hcode.symm, hcomment.symm⟩

/-- **Rows that differ in carriage returns** are the same lines. -/
theorem ofRow_withReturns {d : Dialect} (hd : Text.isBlank d.comment = false) (source : List Char) :
    List.Forall₂ (fun row row' => SourceLine.ofRow d row' = SourceLine.ofRow d row)
      (SourceRow.ofSource source) (SourceRow.ofSource (withReturns source)) := by
  have hnumbered : ∀ {texts texts' : List (List Char)} (n : ℕ), List.Forall₂ Returned texts texts' →
      List.Forall₂ (fun x x' => x'.2 = x.2 ∧ ∃ row row', Returned row row' ∧ x.1 = Text.dropCarriage row ∧
        x'.1 = Text.dropCarriage row') ((texts.map Text.dropCarriage).zipIdx n)
        ((texts'.map Text.dropCarriage).zipIdx n) := by
    intro texts texts' n h
    induction h generalizing n with
    | nil => exact .nil
    | cons hrow _ ih => exact .cons ⟨rfl, _, _, hrow, rfl, rfl⟩ (ih (n + 1))
  have hrows := hnumbered 1 (rows_withReturns source)
  rw [← map_ofSource, ← map_ofSource, List.forall₂_map_left_iff, List.forall₂_map_right_iff] at hrows
  refine hrows.imp ?_
  rintro row row' ⟨hnumber, text, text', htext, hrow, hrow'⟩
  obtain ⟨hcode, hcomment⟩ := parts_returned hd htext
  simp only at hnumber hrow hrow'
  unfold SourceLine.ofRow
  rw [hrow, hrow', hcode, hcomment, hnumber]

theorem parseRows_congr [InstructionSet Op] {rows rows' : List SourceRow} (h : List.Forall₂
    (fun row row' => SourceLine.ofRow (dialect Op) row' = SourceLine.ofRow (dialect Op) row) rows rows') :
    (parseRows rows' : Except ParseError (List (Instruction Op) × Std.HashMap String ℕ)) = parseRows rows := by
  have hlines : rows'.mapM (SourceLine.ofRow (dialect Op)) = rows.mapM (SourceLine.ofRow (dialect Op)) := by
    induction h with
    | nil => rfl
    | cons hrow _ ih => rw [List.mapM_cons, List.mapM_cons, hrow, ih]
  unfold parseRows
  rw [hlines, h.length_eq]

/-- **Carriage returns change nothing** but the places of the lines. -/
theorem parse_withReturns [InstructionSet Op] [Legible Op] (source : List Char) (resolve : Bool) :
    (parse (withReturns source) resolve : Except ParseError (List (Instruction Op))).mapError
        (fun e => (e.fault, e.line)) =
      (parse source resolve).mapError fun e => (e.fault, e.line) := by
  have hlocate : ∀ (rows : List SourceRow) (x : Except ParseError (List (Instruction Op))),
      (x.mapError (ParseError.locate rows)).mapError (fun e => (e.fault, e.line)) =
        x.mapError fun e => (e.fault, e.line) := by
    intro rows x
    cases x <;> rfl
  unfold parse
  rw [hlocate, hlocate, parseRows_congr (ofRow_withReturns Legible.dialect.comment_visible source)]

/-- **Comments, blank lines and line endings never change the code.** Two sources with the same code
texts are either both assembled, to the same digits and to programs with the same entries, or both
refused for the same fault, on the lines that hold the same text. A carriage return in front of each
newline changes neither the program nor the line of an error. -/
theorem parse_neutral (a : Architecture) :
    (∀ (source source' : List Char) (resolve : Bool),
      (codeTexts (dialect a.Op) (SourceRow.ofSource source)).map Prod.snd =
        (codeTexts (dialect a.Op) (SourceRow.ofSource source')).map Prod.snd →
      (∃ p q : List (Instruction a.Op), parse source resolve = .ok p ∧ parse source' resolve = .ok q ∧
        machineCode p = machineCode q ∧ essence p = essence q) ∨
      ∃ e e', parse source resolve = (.error e : Except ParseError (List (Instruction a.Op))) ∧
        parse source' resolve = (.error e' : Except ParseError (List (Instruction a.Op))) ∧
        e.fault = e'.fault ∧ Corresponds (codeTexts (dialect a.Op) (SourceRow.ofSource source))
          (codeTexts (dialect a.Op) (SourceRow.ofSource source')) e.line e'.line) ∧
    ∀ (source : List Char) (resolve : Bool),
      (parse (withReturns source) resolve : Except ParseError (List (Instruction a.Op))).mapError
          (fun e => (e.fault, e.line)) =
        (parse source resolve).mapError fun e => (e.fault, e.line) := by
  refine ⟨fun source source' resolve htexts => ?_, parse_withReturns⟩
  have hlines := ofCode_texts (dialect a.Op) htexts
  obtain ⟨p, q, hp, hq, hessence⟩ | hrefused := parse_agrees hlines resolve
  · exact Or.inl ⟨p, q, hp, hq, machineCode_of_essence hessence, hessence⟩
  · exact Or.inr hrefused

/-- A program without and with a blank line, comments and a carriage return. -/
theorem parse_neutral_forward :
    (codeTexts (dialect Architecture.tally.Op) (SourceRow.ofSource "bnz &b\nb: out".toList)).map Prod.snd =
      (codeTexts (dialect Architecture.tally.Op)
        (SourceRow.ofSource "; go\n\n bnz &b ; on\r\n; end\nb: out".toList)).map Prod.snd ∧
    ((∃ p q : List (Instruction Architecture.tally.Op), parse "bnz &b\nb: out".toList true = .ok p ∧
        parse "; go\n\n bnz &b ; on\r\n; end\nb: out".toList true = .ok q ∧
        machineCode p = machineCode q ∧ essence p = essence q) ∨
      ∃ e e', parse "bnz &b\nb: out".toList true =
          (.error e : Except ParseError (List (Instruction Architecture.tally.Op))) ∧
        parse "; go\n\n bnz &b ; on\r\n; end\nb: out".toList true =
          (.error e' : Except ParseError (List (Instruction Architecture.tally.Op))) ∧
        e.fault = e'.fault ∧ Corresponds
          (codeTexts (dialect Architecture.tally.Op) (SourceRow.ofSource "bnz &b\nb: out".toList))
          (codeTexts (dialect Architecture.tally.Op)
            (SourceRow.ofSource "; go\n\n bnz &b ; on\r\n; end\nb: out".toList)) e.line e'.line) := by
  have htexts : (codeTexts (dialect Architecture.tally.Op)
      (SourceRow.ofSource "bnz &b\nb: out".toList)).map Prod.snd =
        (codeTexts (dialect Architecture.tally.Op)
          (SourceRow.ofSource "; go\n\n bnz &b ; on\r\n; end\nb: out".toList)).map Prod.snd := by cbv
  exact ⟨htexts, (parse_neutral .tally).1 _ _ true htexts⟩

end TinyIsa
