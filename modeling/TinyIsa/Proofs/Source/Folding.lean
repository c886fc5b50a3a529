import Mathlib
import TinyIsa.Proofs.Source.Entries
import TinyIsa.Proofs.Source.Line
import TinyIsa.Proofs.Source.Resolve
import TinyIsa.Proofs.Source.Runs

/-!
# Lines folded into a program

Instructions, labels and comments of a source all find their way into its program, once and in
their order.

* `Item`: an instruction or a comment; `SourceLine.items`, `Instruction.items`: those of a line and of
  an entry.
* `attachments`: the labels of some lines, each with the line of its instruction.
* `Folds`: a program has the items, the labels and the comment texts of some lines, and no other
  entries; `folds_tail`, `folds_section`: it is so for the tail and, section by section, in front of it.
* `parse_folds`: **the program of a source loses, repeats and reorders nothing of its lines.**
-/

namespace TinyIsa

open InstructionSet

/-- An instruction of a source, or a comment on a line without one. -/
inductive Item (Op : Type) where
  /-- The number of the line, the comment behind the instruction, and its body without arguments. -/
  | code (line : ℕ) (comment : Option String) (body : Option (Body Op))
  /-- The comment. -/
  | remark (comment : String)

variable {Op : Type}

/-- What an entry of a program holds: an instruction, or a comment for each row of its text. -/
def Instruction.items (i : Instruction Op) : List (Item Op) :=
  if i.body.isRemark then
    i.comment.toList.flatMap fun text => (Text.rows text.toList).map fun row => .remark (String.ofList row)
  else [.code i.line i.comment (some (i.body.withArgs []))]

/-- The labels of an entry with its line, if it is an instruction. -/
def Instruction.attachments (i : Instruction Op) : List (Label × Option ℕ) :=
  i.labels.map (·, if i.body.isRemark then none else some i.line)

/-- The text of an entry that is a remark. -/
def Instruction.block? (i : Instruction Op) : Option String :=
  if i.body.isRemark then i.comment else none

/-- The first of some lines that has an instruction. -/
def nextCode (lines : List SourceLine) : Option ℕ :=
  (lines.find? (!·.body.isEmpty)).map SourceLine.number

/-- The labels of some lines, each with the next line from its own on that has an instruction. -/
def attachments : List SourceLine → List (Label × Option ℕ)
  | [] => []
  | l :: lines => l.labels.map (·, nextCode (l :: lines)) ++ attachments lines

variable [InstructionSet Op]

variable (Op) in
/-- What a line holds. -/
def SourceLine.items (l : SourceLine) : List (Item Op) :=
  if l.body.isEmpty then l.comment.toList.map .remark
  else [.code l.number l.comment ((Instruction.ofText l.body : Except InstructionError (Instruction Op)).toOption.map
    (·.body.withArgs []))]

/-- A program has what stands on some lines. -/
structure Folds (lines : List SourceLine) (p : List (Instruction Op)) : Prop where
  /-- Its instructions and the rows of its remarks are those of the lines. -/
  items : p.flatMap Instruction.items = lines.flatMap (SourceLine.items Op)
  /-- Each label is at the next instruction from its line on, or at none. -/
  labels : p.flatMap Instruction.attachments = attachments lines
  /-- There is a remark for each run of comments. -/
  blocks : p.filterMap Instruction.block? = (commentRuns lines).map runText
  /-- Other than instructions and remarks there is at most one entry, with labels only, at its end. -/
  ending : ∃ front ending, p = front ++ ending ∧
    (∀ i ∈ front, i.body = .remark → i.labels = [] ∧ i.comment.isSome = true) ∧
    ending.length ≤ 1 ∧ ∀ i ∈ ending, i.body = .remark ∧ i.comment = none ∧ i.labels ≠ []

/-! ### Labels -/

omit [InstructionSet Op] in
theorem nextCode_append {l : SourceLine} {lead : List SourceLine} (hlead : ∀ l ∈ lead, l.body = [])
    (hl : l.body ≠ []) (lines : List SourceLine) : nextCode (lead ++ l :: lines) = some l.number := by
  have hnone : lead.find? (!·.body.isEmpty) = none := by
    rw [List.find?_eq_none]
    intro x hx
    simp [hlead x hx]
  unfold nextCode
  rw [List.find?_append, hnone, Option.none_or, List.find?_cons_of_pos (by simp [hl])]
  rfl

/-- The labels of the lines that lead up to an instruction are at this instruction. -/
theorem attachments_append {l : SourceLine} {lead : List SourceLine} (hlead : ∀ l ∈ lead, l.body = [])
    (hl : l.body ≠ []) (lines : List SourceLine) : attachments (lead ++ l :: lines) =
      (lead.flatMap SourceLine.labels ++ l.labels).map (·, some l.number) ++ attachments lines := by
  have hnext := nextCode_append hlead hl lines
  induction lead with
  | nil => exact congrArg (fun next => l.labels.map (·, next) ++ attachments lines) hnext
  | cons x lead ih =>
    have hrest : ∀ y ∈ lead, y.body = [] := fun y hy => hlead y (List.mem_cons_of_mem x hy)
    rw [List.cons_append] at hnext ⊢
    rw [attachments, hnext, ih hrest (nextCode_append hrest hl lines), List.flatMap_cons]
    simp only [List.map_append, List.append_assoc]

theorem attachments_tail {tail : List SourceLine} (h : ∀ l ∈ tail, l.body = []) :
    attachments tail = (tail.flatMap SourceLine.labels).map (·, none) := by
  have hnext : ∀ lines : List SourceLine, (∀ l ∈ lines, l.body = []) → nextCode lines = none := by
    intro lines hlines
    unfold nextCode
    rw [List.find?_eq_none.2 fun l hl => by simp [hlines l hl]]
    rfl
  induction tail with
  | nil => rfl
  | cons l tail ih =>
    rw [attachments, hnext _ h, ih fun y hy => h y (List.mem_cons_of_mem l hy), List.flatMap_cons, List.map_append]

/-! ### Remarks -/

section

variable {lead : List SourceLine}

omit [InstructionSet Op] in
theorem block_remarks (h : ∀ l ∈ lead, l.body = []) (n : ℕ) :
    (remarks lead n : List (Instruction Op)).filterMap Instruction.block? = (commentRuns lead).map runText := by
  have hblock : ∀ texts : List String, (texts.map fun text => ({ Instruction.ofRemark text with line := n } :
      Instruction Op)).filterMap Instruction.block? = texts := by
    intro texts
    rw [List.filterMap_map]
    exact List.filterMap_some
  unfold remarks
  rw [hblock, remarkTexts_eq h]

/-- **The rows of the remarks** are the comments of the lines that lead up to an instruction. -/
theorem items_remarks (h : ∀ l ∈ lead, l.body = [])
    (hrow : ∀ l ∈ lead, l.OneRow) (n : ℕ) :
    (remarks lead n : List (Instruction Op)).flatMap Instruction.items = lead.flatMap (SourceLine.items Op) := by
  have hrun : ∀ run ∈ commentRuns lead, ((Text.rows (runText run).toList).map fun row =>
      (.remark (String.ofList row) : Item Op)) = (run.filterMap SourceLine.comment).map .remark := by
    intro run hrun
    obtain ⟨hne, hmem⟩ := of_mem_run hrun
    rw [rows_runText hne (fun l hl => (hmem l hl).2) fun l hl => hrow l (hmem l hl).1, List.map_map]
    simp [Function.comp_def]
  have htexts : (remarks lead n : List (Instruction Op)).flatMap Instruction.items =
      (remarkTexts lead).flatMap fun text => (Text.rows text.toList).map fun row => .remark (String.ofList row) := by
    unfold remarks
    rw [List.flatMap_map]
    exact List.flatMap_congr fun text _ => List.append_nil _
  have hline : ∀ l ∈ lead, (l.items Op) = (l.comment.toList).map .remark := by
    intro l hl
    unfold SourceLine.items
    rw [h l hl]
    rfl
  have hall : (commentRuns lead).flatMap (List.filterMap SourceLine.comment) =
      lead.filterMap SourceLine.comment := by
    rw [List.flatMap_def, ← List.filterMap_flatten, flatten_commentRuns, filterMap_comment h]
  rw [htexts, remarkTexts_eq h, List.flatMap_map, List.flatMap_congr hrun, List.flatMap_congr hline,
    ← List.map_flatMap, ← List.map_flatMap, hall, List.filterMap_eq_flatMap_toList]

omit [InstructionSet Op] in
theorem attachments_remarks (lead : List SourceLine) (n : ℕ) :
    (remarks lead n : List (Instruction Op)).flatMap Instruction.attachments = [] := by
  unfold remarks
  rw [List.flatMap_map]
  exact List.flatMap_eq_nil_iff.2 fun text _ => rfl

omit [InstructionSet Op] in
theorem of_mem_remarks {n : ℕ} {i : Instruction Op} (h : i ∈ remarks lead n) :
    i.labels = [] ∧ i.comment.isSome = true := by
  obtain ⟨text, -, rfl⟩ := List.mem_map.1 h
  exact ⟨rfl, rfl⟩

end

/-! ### Sections -/

/-- **The lines behind the last instruction** are folded into their remarks, and an entry for their labels. -/
theorem folds_tail {tail : List SourceLine} (h : ∀ l ∈ tail, l.body = [])
    (hrow : ∀ l ∈ tail, l.OneRow) (last : ℕ) :
    Folds tail (tailProgram tail last : List (Instruction Op)) := by
  -- behind the remarks stands an entry for the labels, or none
  obtain ⟨ending, htail, hitems, hattached, hblock, hlen, hending⟩ : ∃ ending : List (Instruction Op),
      tailProgram tail last = remarks tail last ++ ending ∧ ending.flatMap Instruction.items = [] ∧
      ending.flatMap Instruction.attachments = (tail.flatMap SourceLine.labels).map (·, none) ∧
      ending.filterMap Instruction.block? = [] ∧ ending.length ≤ 1 ∧
      ∀ i ∈ ending, i.body = .remark ∧ i.comment = none ∧ i.labels ≠ [] := by
    unfold tailProgram
    cases tail.flatMap SourceLine.labels with
    | nil => exact ⟨[], rfl, rfl, rfl, rfl, Nat.zero_le 1, fun i hi => absurd hi List.not_mem_nil⟩
    | cons l labels =>
      refine ⟨_, rfl, rfl, List.append_nil _, rfl, le_rfl, fun i hi => ?_⟩
      obtain rfl := List.mem_singleton.1 hi
      exact ⟨rfl, rfl, List.cons_ne_nil l labels⟩
  rw [htail]
  refine ⟨?_, ?_, ?_, remarks tail last, ending, rfl, fun i hi _ => of_mem_remarks hi, hlen, hending⟩
  · rw [List.flatMap_append, items_remarks h hrow, hitems, List.append_nil]
  · rw [List.flatMap_append, attachments_remarks, hattached, attachments_tail h, List.nil_append]
  · rw [List.filterMap_append, block_remarks h, hblock, List.append_nil]

omit [InstructionSet Op] in
/-- What an instruction is, whatever comes before and behind it. -/
theorem Instruction.of_code {i : Instruction Op} (h : i.body.isRemark = false) :
    i.items = [.code i.line i.comment (some (i.body.withArgs []))] ∧
      i.attachments = i.labels.map (·, some i.line) ∧ i.block? = none ∧ i.body ≠ .remark := by
  refine ⟨if_neg (by simp [h]), ?_, if_neg (by simp [h]), ?_⟩
  · unfold attachments
    rw [if_neg (by simp [h])]
  · intro hremark
    rw [hremark] at h
    exact absurd h (by simp [Body.isRemark])

/-- **A section** is folded into its remarks and its instruction. -/
theorem folds_section {s : Section} {lines : List SourceLine} {e p : List (Instruction Op)}
    (hlead : ∀ l ∈ s.lead, l.body = []) (hline : s.line.body ≠ [])
    (hrow : ∀ l ∈ s.lead, l.OneRow) (he : s.program = .ok e)
    (h : Folds lines p) : Folds (s.lead ++ s.line :: lines) (e ++ p) := by
  obtain ⟨main, hm, rfl⟩ := section_program_eq_ok.1 he
  generalize hi : ({ main with
    labels := s.lead.flatMap SourceLine.labels ++ s.line.labels
    comment := s.line.comment
    line := s.line.number } : Instruction Op) = i
  have hmain := Instruction.code_ofText hm
  have hcode : i.body.isRemark = false := by
    rw [← hi]
    exact hmain
  obtain ⟨hitems, hattached, hblock, hbody⟩ := Instruction.of_code hcode
  have hitems' : i.items = s.line.items Op := by
    unfold SourceLine.items
    rw [hitems, if_neg (by simpa using hline), hm, ← hi]
    rfl
  have hattached' : i.attachments =
      (s.lead.flatMap SourceLine.labels ++ s.line.labels).map (·, some s.line.number) := by
    rw [hattached, ← hi]
  obtain ⟨front, ending, hp, hfront, hlen, hending⟩ := h.ending
  refine ⟨?_, ?_, ?_, remarks s.lead s.line.number ++ i :: front, ending, ?_, ?_, hlen, hending⟩
  · rw [List.flatMap_append, List.flatMap_append, List.flatMap_append, items_remarks hlead hrow, h.items,
      List.flatMap_singleton, hitems', List.flatMap_cons, List.append_assoc]
  · rw [List.flatMap_append, List.flatMap_append, attachments_remarks, h.labels, List.flatMap_singleton, hattached',
      List.nil_append, attachments_append hlead hline]
  · rw [List.filterMap_append, List.filterMap_append, block_remarks hlead, h.blocks,
      List.filterMap_cons_none hblock, List.filterMap_nil, List.append_nil, commentRuns_append hline,
      List.map_append]
  · rw [hp, List.append_assoc, List.append_assoc]
    rfl
  · intro j hj hremark
    rcases List.mem_append.1 hj with hj | hj
    · exact of_mem_remarks hj
    · rcases List.mem_cons.1 hj with rfl | hj
      · exact absurd hremark hbody
      · exact hfront j hj hremark

/-- **The program of an outline** is folded from its lines: the tail first, then one section after the
other in front of it. -/
theorem folds_outline {o : Outline} (ho : o.Divided)
    (hrow : ∀ l ∈ o.lines, l.OneRow) {last : ℕ} {p : List (Instruction Op)}
    (hp : o.program last = .ok p) : Folds o.lines p := by
  obtain ⟨sections, tail⟩ := o
  induction sections generalizing p with
  | nil =>
    obtain ⟨entries, he, rfl⟩ := outline_program_eq_ok.1 hp
    obtain rfl : [] = entries := Except.ok.inj he
    exact folds_tail ho.tail hrow last
  | cons s rest ih =>
    obtain ⟨e, p', he, hp', rfl⟩ := outline_program_cons.1 hp
    obtain ⟨hlead, hleads⟩ := List.forall_mem_cons.1 ho.lead
    obtain ⟨hline, hlines⟩ := List.forall_mem_cons.1 ho.line
    have hsplit : Outline.lines ⟨s :: rest, tail⟩ = s.lead ++ s.line :: Outline.lines ⟨rest, tail⟩ := by
      unfold Outline.lines
      rw [List.flatMap_cons, List.append_assoc, List.append_assoc, List.singleton_append]
    rw [hsplit] at hrow ⊢
    refine folds_section hlead hline (fun l hl => hrow l (List.mem_append_left _ hl)) he (ih ?_ ?_ hp')
    · exact ⟨hleads, hlines, ho.tail⟩
    · exact fun l hl => hrow l (List.mem_append_right _ (List.mem_cons_of_mem _ hl))

/-! ### Addresses and arguments -/

/-- An entry without its address and its arguments. -/
def Instruction.stripped (i : Instruction Op) : Instruction Op :=
  { i with body := i.body.withArgs [], address := none }

omit [InstructionSet Op] in
theorem Instruction.body_stripped {i : Instruction Op} : i.stripped.body = .remark ↔ i.body = .remark := by
  unfold stripped
  cases i.body <;> simp [Body.withArgs]

section

variable {p q : List (Instruction Op)}

omit [InstructionSet Op] in
/-- What does not look at addresses and arguments gathers the same from the entries. -/
theorem flatMap_stripped {β : Type} {f : Instruction Op → List β} (hf : ∀ i, f i.stripped = f i)
    (h : q.map Instruction.stripped = p.map Instruction.stripped) : q.flatMap f = p.flatMap f := by
  have hstrip : ∀ p : List (Instruction Op), p.flatMap f = (p.map Instruction.stripped).flatMap f := by
    intro p
    rw [List.flatMap_map]
    exact List.flatMap_congr fun i _ => (hf i).symm
  rw [hstrip q, hstrip p, h]

omit [InstructionSet Op] in
theorem exists_of_stripped (h : q.map Instruction.stripped = p.map Instruction.stripped) {i' : Instruction Op}
    (hi' : i' ∈ q) : ∃ i ∈ p, i.labels = i'.labels ∧ i.comment = i'.comment ∧
      (i.body = .remark ↔ i'.body = .remark) := by
  obtain ⟨i, hi, he⟩ := List.mem_map.1 (h ▸ List.mem_map_of_mem hi')
  refine ⟨i, hi, ?_, ?_, ?_⟩
  · change i.stripped.labels = i'.stripped.labels
    rw [he]
  · change i.stripped.comment = i'.stripped.comment
    rw [he]
  · rw [← Instruction.body_stripped, he, Instruction.body_stripped]

/-- **Addresses and arguments** have no part in the folding. -/
theorem Folds.congr {lines : List SourceLine} (h : Folds lines p)
    (hq : q.map Instruction.stripped = p.map Instruction.stripped) : Folds lines q := by
  refine ⟨?_, ?_, ?_, ?_⟩
  · rw [← h.items]
    refine flatMap_stripped (fun i => ?_) hq
    unfold Instruction.items Instruction.stripped
    cases i.body <;> rfl
  · rw [← h.labels]
    refine flatMap_stripped (fun i => ?_) hq
    unfold Instruction.attachments Instruction.stripped
    cases i.body <;> rfl
  · rw [← h.blocks, List.filterMap_eq_flatMap_toList, List.filterMap_eq_flatMap_toList]
    refine flatMap_stripped (fun i => ?_) hq
    unfold Instruction.block? Instruction.stripped
    cases i.body <;> rfl
  · -- the entry at the end stands where it stood
    obtain ⟨front, ending, rfl, hfront, hlen, hending⟩ := h.ending
    rw [List.map_append] at hq
    obtain ⟨front', ending', rfl, hfront', hending'⟩ := List.map_eq_append_iff.1 hq
    refine ⟨front', ending', rfl, fun i' hi' hremark => ?_, ?_, fun i' hi' => ?_⟩
    · obtain ⟨i, hi, hlabels, hcomment, hbody⟩ := exists_of_stripped hfront' hi'
      rw [← hlabels, ← hcomment]
      exact hfront i hi (hbody.2 hremark)
    · have hlength := congrArg List.length hending'
      rw [List.length_map, List.length_map] at hlength
      rw [hlength]
      exact hlen
    · obtain ⟨i, hi, hlabels, hcomment, hbody⟩ := exists_of_stripped hending' hi'
      rw [← hlabels, ← hcomment, ← hbody]
      exact hending i hi

end

theorem stripped_place (p : List (Instruction Op)) :
    (place p).map Instruction.stripped = p.map Instruction.stripped := by
  rw [place_eq]
  generalize 0 = a
  induction p generalizing a with
  | nil => rfl
  | cons i p ih =>
    rw [placeFrom, List.map_cons, List.map_cons, ih]
    rfl

theorem stripped_substitute (table : String → Option ℕ) (p : List (Instruction Op)) :
    (p.map (·.substitute table)).map Instruction.stripped = p.map Instruction.stripped := by
  rw [List.map_map]
  refine List.map_congr_left ?_
  rintro ⟨body, labels, comment, line, address⟩ -
  cases body <;> rfl

/-! ### A source -/

/-- A program loses, repeats and reorders nothing of some lines. -/
structure Folded (lines : List SourceLine) (p : List (Instruction Op)) : Prop extends Folds lines p where
  numbered : lines.map SourceLine.number = List.range' 1 lines.length
  /-- A label has the number of its line. -/
  written : ∀ l ∈ lines, ∀ label ∈ l.labels, label.line = l.number
  /-- Each comment of a line without an instruction is in one run. -/
  runs : (commentRuns lines).flatten = lines.filter SourceLine.isRemark
  /-- Two comments are in one run when neither a blank line nor an instruction stands between them. -/
  together : ∀ run ∈ commentRuns lines, ∀ a ∈ run, ∀ b ∈ lines, b.isRemark = true → a.number < b.number →
    (b ∈ run ↔ ∀ l ∈ lines, a.number < l.number → l.number < b.number → l.isBreak = false)

theorem number_of_mapM {d : Dialect} {source : List Char} {lines : List SourceLine}
    (h : (SourceRow.ofSource source).mapM (SourceLine.ofRow d) = .ok lines) :
    lines.map SourceLine.number = List.range' 1 lines.length := by
  have hrows : (SourceRow.ofSource source).map SourceRow.number =
      List.range' 1 (SourceRow.ofSource source).length := by
    have hsnd := congrArg (List.map Prod.snd) (map_ofSource source)
    have hlen := congrArg List.length (map_ofSource source)
    rw [List.map_map, List.zipIdx_map_snd] at hsnd
    rw [List.length_map, List.length_zipIdx] at hlen
    rw [hlen]
    exact hsnd
  have hlines := mapM_eq_ok.1 h
  have hsame : List.Forall₂ Eq ((SourceRow.ofSource source).map SourceRow.number)
      (lines.map SourceLine.number) := by
    rw [List.forall₂_map_left_iff, List.forall₂_map_right_iff]
    refine hlines.imp fun row l hl => ?_
    obtain ⟨-, rfl⟩ := SourceLine.ofRow_eq_ok.1 hl
    rfl
  rw [← hlines.length_eq, ← hrows]
  exact (List.forall₂_eq_eq_eq ▸ hsame : _ = _).symm

/-- **The program of some lines** is folded from them. -/
theorem folded_program {source : List Char} {lines : List SourceLine} {last : ℕ} {program p : List (Instruction Op)}
    (hlines : (SourceRow.ofSource source).mapM (SourceLine.ofRow (dialect Op)) = .ok lines)
    (hprogram : (Outline.ofLines lines).program last = .ok program)
    (hp : p.map Instruction.stripped = program.map Instruction.stripped) : Folded lines p := by
  have hnumbers := number_of_mapM hlines
  have hsorted : lines.Pairwise (·.number < ·.number) := by
    rw [← List.pairwise_map, hnumbers]
    exact List.pairwise_lt_range'
  obtain ⟨hdivided, hall⟩ := Outline.divided_ofLines lines
  have hfolds := folds_outline hdivided
    (fun l hl c hc => ((proper_of_mapM hlines (hall ▸ hl)).comment c hc).2) hprogram
  rw [hall] at hfolds
  refine ⟨hfolds.congr hp, hnumbers, ?_, flatten_commentRuns lines, ?_⟩
  · intro l hl label hlabel
    obtain ⟨row, -, hread⟩ := exists_of_mem_mapM hlines hl
    obtain ⟨-, rfl⟩ := SourceLine.ofRow_eq_ok.1 hread
    obtain ⟨name, -, rfl⟩ := List.mem_map.1 hlabel
    rfl
  · intro run hrun a ha b hb hremark hab
    exact mem_run_iff hsorted hrun ha hb hremark hab

/-- **The program of a source loses, repeats and reorders nothing of its lines.** It has one instruction
for each line with one, with the number of that line and the comment behind it; it has the labels in
their order, each at the next instruction from its line on, or at an entry with labels only at its end;
and it has a remark for each run of comments on lines without instructions, in front of the instruction
that follows them. -/
theorem parse_folds (a : Architecture) {source : List Char} {resolve : Bool} {p : List (Instruction a.Op)}
    (h : parse source resolve = .ok p) : ∃ lines,
      (SourceRow.ofSource source).mapM (SourceLine.ofRow (dialect a.Op)) = .ok lines ∧ Folded lines p := by
  obtain ⟨lines, program, table, hlines, hprogram, -, rfl⟩ := exists_of_parse h
  refine ⟨lines, hlines, folded_program hlines hprogram ?_⟩
  split
  · rw [stripped_substitute, stripped_place]
  · exact stripped_place program

/-- Two runs of comments, a label on a line of its own, and one at the end. -/
theorem parse_folds_runs : ∃ p : List (Instruction Architecture.tally.Op),
    parse "a: ; one\n; two\n\n; three\nb: bnz &c ; go\nc:".toList false = .ok p ∧
    p.map Instruction.comment = [some "one\ntwo", some "three", some "go", none] ∧
    ∃ lines, (SourceRow.ofSource "a: ; one\n; two\n\n; three\nb: bnz &c ; go\nc:".toList).mapM
      (SourceLine.ofRow (dialect Architecture.tally.Op)) = .ok lines ∧ Folded lines p := by
  have hp : parse "a: ; one\n; two\n\n; three\nb: bnz &c ; go\nc:".toList false =
      (.ok [{ body := .remark, comment := some "one\ntwo", line := 5, address := some 0 },
        { body := .remark, comment := some "three", line := 5, address := some 0 },
        { body := .operation Tally.Op.bnz ["&c"], labels := [⟨"a", 1⟩, ⟨"b", 5⟩], comment := some "go",
          line := 5, address := some 0 },
        { body := .remark, labels := [⟨"c", 6⟩], line := 6, address := some 1 }] :
        Except ParseError (List (Instruction Architecture.tally.Op))) := by cbv
  exact ⟨_, hp, rfl, parse_folds .tally hp⟩

end TinyIsa
