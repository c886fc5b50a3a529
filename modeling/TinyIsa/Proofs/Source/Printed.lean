import Mathlib
import TinyIsa.Proofs.Source.Resolve
import TinyIsa.Proofs.Source.Skeleton
import TinyIsa.Proofs.Source.Spelling

/-!
# Printing a program and reading it again

The texts of the entries of a program, row by row, are a source. Labels that stood on lines of
their own stand in front of their instruction in it, and comments may be cut into other remarks;
so the program that is read from it has the same skeleton, and not more than that.

* `spells_remark`, `spells_ending`, `spells_code`: what is read on the rows of an entry.
* `Printable`: the shape of the programs of a source; `printable_program`: **these are printable**;
  `Printable.written`: their entries, but for the remarks, are written on one row each.
* `program_append_remark`, `program_append_code`, `program_ending`: the rows of one entry in front
  of others, read again; `program_of_printable`: **the rows of a printable program have its
  skeleton.**
* `Written.parse_display`: the text of one instruction, read as a source.
* `Readable`: what the first and the second pass give; `Readable.parse_programText`: it is read again.
* `parse_printed`: **a program that was read is read again from its own text.**
-/

namespace TinyIsa

open InstructionSet

variable {Op : Type} [InstructionSet Op]

/-- The text of a program: those of its entries, row by row. -/
def programText (p : List (Instruction Op)) : List Char :=
  Text.unrows (p.map fun i => i.source.toList)

/-! ### Rows of an entry -/

theorem newline_not_mem_namesText {d : Dialect} (hd : d.Legible) {names : List (List Char)}
    (h : ∀ name ∈ names, labelFault d name = none) : '\n' ∉ namesText d.separator names := by
  intro hmem
  obtain ⟨name, hname, hc⟩ := List.mem_flatMap.1 hmem
  rcases List.mem_append.1 hc with hc | hc
  · exact absurd ((visible_of_labelFault hd (h name hname)).2.2 _ hc) (by decide)
  · rcases List.mem_cons.1 hc with hc | hc
    · exact absurd hd.separator_visible (by rw [← hc]; decide)
    · exact absurd (List.mem_singleton.1 hc) (by decide)

theorem newline_not_mem_commentTail {d : Dialect} (hd : d.Legible) {comment : Option String}
    (h : ∀ c, comment = some c → '\n' ∉ c.toList) : '\n' ∉ SourceLine.commentTail d comment := by
  cases comment with
  | none => exact List.not_mem_nil
  | some c =>
    intro hmem
    rcases List.mem_cons.1 hmem with hspace | hmem
    · exact absurd hspace (by decide)
    rcases List.mem_cons.1 hmem with hmark | hmem
    · exact absurd hd.comment_visible (by rw [← hmark]; decide)
    rcases List.mem_cons.1 hmem with hspace | hmem
    · exact absurd hspace (by decide)
    · exact h c rfl hmem

/-- The line of a comment as it is printed. -/
def commentLine (mark : Char) (line : List Char) : List Char := mark :: ' ' :: line

theorem newline_not_mem_commentLine {mark : Char} (hmark : Text.isBlank mark = false) {line : List Char}
    (h : '\n' ∉ line) : '\n' ∉ commentLine mark line := by
  intro hmem
  rcases List.mem_cons.1 hmem with hm | hmem
  · exact absurd hmark (by rw [← hm]; decide)
  rcases List.mem_cons.1 hmem with hs | hmem
  · exact absurd hs (by decide)
  · exact h hmem

/-- Blanks are cut off behind the last line only: the mark of the next line is no blank. -/
theorem trimEnd_commentLines {mark : Char} (hmark : Text.isBlank mark = false) (line next : List Char)
    (rest : List (List Char)) :
    Text.trimEnd (Text.unrows ((line :: next :: rest).map (commentLine mark))) =
      commentLine mark line ++ '\n' :: Text.trimEnd (Text.unrows ((next :: rest).map (commentLine mark))) := by
  have hunrows : Text.unrows ((line :: next :: rest).map (commentLine mark)) =
      commentLine mark line ++ '\n' :: Text.unrows ((next :: rest).map (commentLine mark)) :=
    Text.unrows_cons_cons _ _ _
  have hnext : ∃ s, Text.unrows ((next :: rest).map (commentLine mark)) = mark :: s := by
    rw [List.map_cons]
    cases hr : rest.map (commentLine mark) with
    | nil => exact ⟨_, Text.unrows_singleton _⟩
    | cons third others => exact ⟨_, Text.unrows_cons_cons _ _ _⟩
  obtain ⟨s, hs⟩ := hnext
  have htrim := Text.trimEnd_append_cons hmark (commentLine mark line ++ ['\n']) s
  rw [List.append_assoc, List.append_assoc] at htrim
  rw [hunrows, hs, Text.trimEnd_cons hmark]
  exact htrim

/-- The rows of a comment of several lines, without the blanks at its end. -/
theorem rows_comment {mark : Char} (hmark : Text.isBlank mark = false) {lines : List (List Char)}
    (h : ∀ line ∈ lines, '\n' ∉ line) :
    ∀ text ∈ Text.rows (Text.trimEnd (Text.unrows (lines.map (commentLine mark)))),
      text = [] ∨ ∃ s, text = mark :: s := by
  induction lines with
  | nil =>
    intro text htext
    exact Or.inl (List.mem_singleton.1 htext)
  | cons line lines ih =>
    obtain ⟨hline, hrest⟩ := List.forall_mem_cons.1 h
    have hfree := newline_not_mem_commentLine hmark hline
    intro text htext
    cases lines with
    | nil =>
      have hlast : '\n' ∉ Text.trimEnd (commentLine mark line) := fun hmem =>
        hfree ((List.rdropWhile_prefix Text.isBlank _).subset hmem)
      rw [List.map_cons, List.map_nil, Text.unrows_singleton, Text.rows_of_not_mem hlast, commentLine,
        Text.trimEnd_cons hmark] at htext
      exact Or.inr ⟨_, List.mem_singleton.1 htext⟩
    | cons next rest =>
      rw [trimEnd_commentLines hmark, Text.rows_append, Text.rows_of_not_mem hfree] at htext
      rcases List.mem_append.1 htext with hfirst | hother
      · exact Or.inr ⟨_, List.mem_singleton.1 hfirst⟩
      · exact ih hrest text hother

namespace Instruction

variable {i : Instruction Op}

/-- The names of the labels of an entry. -/
def names (i : Instruction Op) : List (List Char) := i.labels.map fun l => l.name.toList

theorem labelText_eq (i : Instruction Op) : i.labelText = namesText (dialect Op).separator i.names := by
  unfold labelText namesText names
  rw [List.flatMap_map]

omit [InstructionSet Op] in
theorem map_ofList_names (i : Instruction Op) : i.names.map String.ofList = i.labels.map Label.name := by
  unfold names
  rw [List.map_map]
  exact List.map_congr_left fun l _ => String.ofList_toList

/-- **The rows of a remark** have nothing but comments. -/
theorem spells_remark (hd : (dialect Op).Legible) (hb : i.body = .remark) (hl : i.labels = []) :
    ∀ text ∈ Text.rows i.source.toList, ∃ comment, SourceLine.Spells (dialect Op) text [] [] comment := by
  have hsource : i.source.toList = Text.trimEnd (i.labelText ++ i.commentText) := by
    unfold source
    rw [String.toList_ofList, hb]
    rfl
  have hlabels : i.labelText = [] := by
    unfold labelText
    rw [hl]
    rfl
  intro text htext
  rw [hsource, hlabels, List.nil_append] at htext
  rcases rows_comment hd.comment_visible (fun line => Text.not_mem_of_mem_lines) text htext with rfl | ⟨s, rfl⟩
  · exact ⟨_, SourceLine.spells_nil _⟩
  · exact ⟨_, SourceLine.spells_comment _ s⟩

/-- **The row of the labels at the end of a program.** -/
theorem spells_ending (hd : (dialect Op).Legible) (hb : i.body = .remark) (hc : i.comment = none)
    (hnames : ∀ name ∈ i.names, labelFault (dialect Op) name = none) :
    ∃ text, Text.rows i.source.toList = [text] ∧ SourceLine.Spells (dialect Op) text i.names [] none := by
  have hcomment : i.commentText = [] := by
    unfold commentText
    rw [hc]
    rfl
  have hsource : i.source.toList = Text.trimEnd (namesText (dialect Op).separator i.names) := by
    unfold source
    rw [String.toList_ofList, hb, hcomment, List.append_nil, labelText_eq]
    rfl
  have hfree : '\n' ∉ Text.trimEnd (namesText (dialect Op).separator i.names) := fun hmem =>
    newline_not_mem_namesText hd hnames ((List.rdropWhile_prefix Text.isBlank _).subset hmem)
  rw [hsource]
  exact ⟨_, Text.rows_of_not_mem hfree, SourceLine.spells_names hd hnames⟩

/-- **The row of an instruction**: its labels, its text and its comment. -/
theorem spells_code [Legible Op] (h : i.Written)
    (hnames : ∀ name ∈ i.names, labelFault (dialect Op) name = none)
    (hcomment : ∀ c, i.comment = some c → Text.trim c.toList = c.toList ∧ '\n' ∉ c.toList) :
    ∃ text, Text.rows i.source.toList = [text] ∧
      SourceLine.Spells (dialect Op) text i.names i.display.toList i.comment := by
  have hd : (dialect Op).Legible := Legible.dialect
  obtain ⟨hbare, -⟩ := h.bare_display
  have hsource : i.source.toList = namesText (dialect Op).separator i.names ++ i.display.toList ++
      SourceLine.commentTail (dialect Op) i.comment := by
    unfold source
    rw [String.toList_ofList, h.code, labelText_eq]
    cases i.comment <;> rfl
  have hfree : '\n' ∉ i.source.toList := by
    rw [hsource]
    intro hmem
    rcases List.mem_append.1 hmem with hmem | hmem
    · rcases List.mem_append.1 hmem with hmem | hmem
      · exact newline_not_mem_namesText hd hnames hmem
      · exact hbare.newline hmem
    · exact newline_not_mem_commentTail hd (fun c hc => (hcomment c hc).2) hmem
  refine ⟨_, Text.rows_of_not_mem hfree, ?_⟩
  rw [hsource]
  exact SourceLine.spells_code hd hnames hbare fun c hc => (hcomment c hc).1

end Instruction

/-! ### Printable programs -/

/-- The shape of the programs of a source: only the last entry may be a remark with labels. -/
inductive Printable : List (Instruction Op) → Prop where
  | nil : Printable []
  | ending {i : Instruction Op} (body : i.body = .remark) (comment : i.comment = none) (labels : i.labels ≠ [])
      (names : ∀ name ∈ i.names, labelFault (dialect Op) name = none) : Printable [i]
  | remark {i : Instruction Op} {p : List (Instruction Op)} (body : i.body = .remark) (labels : i.labels = [])
      (rest : Printable p) : Printable (i :: p)
  | code {i : Instruction Op} {p : List (Instruction Op)} (written : i.Written)
      (names : ∀ name ∈ i.names, labelFault (dialect Op) name = none)
      (comment : ∀ c, i.comment = some c → Text.trim c.toList = c.toList ∧ '\n' ∉ c.toList)
      (rest : Printable p) : Printable (i :: p)

theorem printable_remarks {p : List (Instruction Op)} (h : Printable p) (lead : List SourceLine) (n : ℕ) :
    Printable (remarks lead n ++ p) := by
  unfold remarks
  induction remarkTexts lead with
  | nil => exact h
  | cons text texts ih => exact Printable.remark rfl rfl ih

theorem names_proper {d : Dialect} {lines : List SourceLine} (h : ∀ l ∈ lines, l.Proper d) :
    ∀ name ∈ (lines.flatMap SourceLine.labels).map (fun l => l.name.toList), labelFault d name = none := by
  intro name hname
  obtain ⟨label, hlabel, rfl⟩ := List.mem_map.1 hname
  obtain ⟨l, hl, hlabel⟩ := List.mem_flatMap.1 hlabel
  exact (h l hl).labels label hlabel

theorem printable_tail {tail : List SourceLine} (h : ∀ l ∈ tail, l.Proper (dialect Op)) (last : ℕ) :
    Printable (tailProgram tail last : List (Instruction Op)) := by
  have hnames := names_proper h
  unfold tailProgram
  refine printable_remarks ?_ tail last
  cases hlabels : tail.flatMap SourceLine.labels with
  | nil => exact Printable.nil
  | cons l labels =>
    rw [hlabels] at hnames
    exact Printable.ending rfl rfl (List.cons_ne_nil l labels) hnames

/-- What holds of all lines holds of those of an outline. -/
theorem forall_ofLines {P : SourceLine → Prop} {lines : List SourceLine} (h : ∀ l ∈ lines, P l) :
    (∀ s ∈ (Outline.ofLines lines).sections, (∀ l ∈ s.lead, P l) ∧ P s.line) ∧
      ∀ l ∈ (Outline.ofLines lines).tail, P l := by
  rw [← (Outline.divided_ofLines lines).2] at h
  have hsection : ∀ s ∈ (Outline.ofLines lines).sections, ∀ l ∈ s.lead ++ [s.line], P l := fun s hs l hl =>
    h l (List.mem_append_left _ (List.mem_flatMap.2 ⟨s, hs, hl⟩))
  refine ⟨fun s hs => ⟨fun l hl => ?_, ?_⟩, fun l hl => h l (List.mem_append_right _ hl)⟩
  · exact hsection s hs l (List.mem_append_left _ hl)
  · exact hsection s hs s.line (List.mem_append_right _ List.mem_cons_self)

/-- **The program of some lines is printable.** -/
theorem printable_program {lines : List SourceLine} (h : ∀ l ∈ lines, l.Proper (dialect Op)) {last : ℕ}
    {p : List (Instruction Op)} (hp : (Outline.ofLines lines).program last = .ok p) : Printable p := by
  obtain ⟨hsections, htail⟩ := forall_ofLines h
  generalize Outline.ofLines lines = o at hsections htail hp
  obtain ⟨sections, tail⟩ := o
  induction sections generalizing p with
  | nil =>
    obtain ⟨entries, he, rfl⟩ := outline_program_eq_ok.1 hp
    obtain rfl : [] = entries := Except.ok.inj he
    exact printable_tail htail last
  | cons s rest ih =>
    obtain ⟨⟨hlead, hline⟩, hothers⟩ := List.forall_mem_cons.1 hsections
    obtain ⟨e, p', he, hp', rfl⟩ := outline_program_cons.1 hp
    obtain ⟨main, hm, rfl⟩ := section_program_eq_ok.1 he
    have hwritten := Instruction.written_ofText hline.body hm
    rw [List.append_assoc]
    refine printable_remarks (Printable.code ?_ ?_ hline.comment (ih hothers htail hp')) s.lead s.line.number
    · exact ⟨hwritten.sound.congr rfl, hwritten.code, hwritten.arguments, hwritten.values⟩
    · intro name hname
      unfold Instruction.names at hname
      rw [List.map_append] at hname
      rcases List.mem_append.1 hname with hname | hname
      · exact names_proper hlead name hname
      · obtain ⟨label, hlabel, rfl⟩ := List.mem_map.1 hname
        exact hline.labels label hlabel

/-- Addresses have no part in the shape of a program. -/
theorem Printable.placeFrom {p : List (Instruction Op)} (h : Printable p) (a : ℕ) :
    Printable (placeFrom a p) := by
  induction h generalizing a with
  | nil => exact Printable.nil
  | ending hbody hcomment hlabels hnames => exact Printable.ending hbody hcomment hlabels hnames
  | remark hbody hlabels _ ih => exact Printable.remark hbody hlabels (ih _)
  | code hwritten hnames hcomment _ ih =>
    refine Printable.code ?_ hnames hcomment (ih _)
    exact ⟨hwritten.sound.congr rfl, hwritten.code, hwritten.arguments, hwritten.values⟩

/-- An entry of a printable program that is no remark can stand in a source, on one row. -/
theorem Printable.written [Legible Op] {p : List (Instruction Op)} (h : Printable p) {i : Instruction Op}
    (hi : i ∈ p) (hb : i.body.isRemark = false) : i.Written ∧ '\n' ∉ i.source.toList := by
  have hremark : ∀ {j : Instruction Op}, j.body = .remark → i ≠ j := by
    rintro j hj rfl
    rw [hj] at hb
    exact Bool.noConfusion hb
  induction h with
  | nil => exact absurd hi List.not_mem_nil
  | ending hbody => exact absurd (List.mem_singleton.1 hi) (hremark hbody)
  | remark hbody _ _ ih => exact ih ((List.mem_cons.1 hi).resolve_left (hremark hbody))
  | code hwritten hnames hcomment _ ih =>
    rcases List.mem_cons.1 hi with rfl | hi
    · obtain ⟨text, hrows, -⟩ := Instruction.spells_code hwritten hnames hcomment
      exact ⟨hwritten, Text.not_mem_of_rows hrows⟩
    · exact ih hi

theorem Instruction.Written.wordCount_pos [Lawful Op] {i : Instruction Op} (h : i.Written) : 0 < i.wordCount := by
  unfold Instruction.wordCount
  rcases h.cases with ⟨op, args, hb, -, -⟩ | ⟨values, hb, hvalues, -⟩
  · rw [hb]
    exact Lawful.words_pos op
  · rw [hb]
    exact List.length_pos_iff.2 hvalues

omit [InstructionSet Op] in
theorem Body.isRemark_withArgs (b : Body Op) (args : List String) :
    (b.withArgs args).isRemark = b.isRemark := by
  cases b <;> rfl

omit [InstructionSet Op] in
theorem Body.withArgs_eq_data {b : Body Op} {args values : List String} :
    b.withArgs args = .data values ↔ args = values ∧ ∃ own, b = .data own := by
  cases b <;> simp [Body.withArgs]

/-- An instruction with numbers in the place of references can stand in a source. -/
theorem Instruction.Written.substitute [Lawful Op] [Legible Op] {table : String → Option ℕ} {i : Instruction Op}
    (h : i.Written) (hcode : ∃ code, (i.substitute table).code = .ok code) : (i.substitute table).Written where
  sound := ⟨hcode, fun op args hb => accepted_substitute h.sound hb⟩
  code := (Body.isRemark_withArgs _ _).trans h.code
  arguments := by
    intro arg harg
    rw [args_substitute] at harg
    obtain ⟨arg', hmem, rfl⟩ := List.mem_map.1 harg
    unfold Instruction.substituteArg
    by_cases href : (dialect Op).isReference arg' = true
    · rw [if_pos href]
      exact isArgument_decimal Legible.dialect _
    · rw [if_neg href]
      exact h.arguments arg' hmem
  values := by
    intro values hv
    obtain ⟨rfl, own, hb⟩ := Body.withArgs_eq_data.1 hv
    rw [hb]
    exact fun hnil => h.values own hb (List.map_eq_nil_iff.1 hnil)

/-- Numbers in the place of references have no part in the shape of a program. -/
theorem Printable.substitute [Lawful Op] [Legible Op] {table : String → Option ℕ} {p : List (Instruction Op)}
    (h : Printable p) (hcode : ∀ i ∈ p, ∃ code, (i.substitute table).code = .ok code) :
    Printable (p.map (·.substitute table)) := by
  have hremark : ∀ {i : Instruction Op}, i.body = .remark → (i.substitute table).body = .remark := by
    intro i hb
    unfold Instruction.substitute
    rw [hb]
    rfl
  induction h with
  | nil => exact Printable.nil
  | ending hbody hcomment hlabels hnames => exact Printable.ending (hremark hbody) hcomment hlabels hnames
  | remark hbody hlabels _ ih =>
    exact Printable.remark (hremark hbody) hlabels (ih (List.forall_mem_cons.1 hcode).2)
  | code hwritten hnames hcomment _ ih =>
    obtain ⟨hi, hrest⟩ := List.forall_mem_cons.1 hcode
    exact Printable.code (hwritten.substitute hi) hnames hcomment (ih hrest)

/-! ### Reading a printed program -/

/-- **Rows with nothing but comments** in front of others leave the skeleton as it is. -/
theorem program_append_comments (hd : (dialect Op).Legible) {texts rest : List (List Char)}
    (htexts : ∀ text ∈ texts, ∃ comment, SourceLine.Spells (dialect Op) text [] [] comment)
    {lines : List SourceLine} (h : List.Forall₂ (Reads (dialect Op)) (texts ++ rest) lines) :
    ∃ lines', List.Forall₂ (Reads (dialect Op)) rest lines' ∧
      ∀ {last : ℕ} {p : List (Instruction Op)}, (Outline.ofLines lines').program last = .ok p →
        ∃ p' : List (Instruction Op), (Outline.ofLines lines).program last = .ok p' ∧
          ∀ a, skeleton (placeFrom a p') = skeleton (placeFrom a p) := by
  induction texts generalizing lines with
  | nil => exact ⟨lines, h, fun hp => ⟨_, hp, fun _ => rfl⟩⟩
  | cons text texts ih =>
    obtain ⟨⟨comment, hspells⟩, hothers⟩ := List.forall_mem_cons.1 htexts
    obtain ⟨l, lines₁, hl, hlines, rfl⟩ := List.forall₂_cons_left_iff.1 h
    obtain ⟨hlabels, hbody, -⟩ := hl.parts hd hspells
    obtain ⟨lines', hrest, hprogram⟩ := ih hothers hlines
    refine ⟨lines', hrest, fun hp => ?_⟩
    obtain ⟨p₁, hp₁, hskeleton₁⟩ := hprogram hp
    obtain ⟨p₂, hp₂, hskeleton₂⟩ := skeleton_cons_comment hbody (List.map_eq_nil_iff.1 hlabels) hp₁
    exact ⟨p₂, hp₂, fun a => (hskeleton₂ a).trans (hskeleton₁ a)⟩

variable {p : List (Instruction Op)} {i : Instruction Op}

/-- **The row of a remark** in front of others, read again. -/
theorem program_append_remark (hd : (dialect Op).Legible) (hbody : i.body = .remark) (hlabels : i.labels = [])
    {rest : List (List Char)} {lines : List SourceLine}
    (h : List.Forall₂ (Reads (dialect Op)) (Text.rows i.source.toList ++ rest) lines) :
    ∃ lines', List.Forall₂ (Reads (dialect Op)) rest lines' ∧
      ∀ {last : ℕ} {p : List (Instruction Op)}, (Outline.ofLines lines').program last = .ok p →
        ∃ p' : List (Instruction Op), (Outline.ofLines lines).program last = .ok p' ∧
          ∀ a, skeleton (placeFrom a p') = skeleton (placeFrom a (i :: p)) := by
  have hwords : i.wordCount = 0 := by
    unfold Instruction.wordCount
    rw [hbody]
    rfl
  obtain ⟨lines', hrest, hprogram⟩ :=
    program_append_comments hd (Instruction.spells_remark hd hbody hlabels) h
  refine ⟨lines', hrest, fun hp => ?_⟩
  obtain ⟨p', hp', hskeleton⟩ := hprogram hp
  refine ⟨p', hp', fun a => ?_⟩
  have hidle : ({ i with address := some a } : Instruction Op).isIdle = true :=
    Instruction.isIdle_of_remark hbody hlabels
  rw [hskeleton, placeFrom, hwords, Nat.add_zero, skeleton_cons_of_idle hidle]

/-- **The row of the labels at the end**, read again: they are those of the tail. -/
theorem program_ending (hd : (dialect Op).Legible) (hbody : i.body = .remark) (hcomment : i.comment = none)
    (hlabels : i.labels ≠ []) (hnames : ∀ name ∈ i.names, labelFault (dialect Op) name = none)
    {lines : List SourceLine} (h : List.Forall₂ (Reads (dialect Op)) (Text.rows i.source.toList) lines)
    (last : ℕ) : ∃ p' : List (Instruction Op), (Outline.ofLines lines).program last = .ok p' ∧
      ∀ a, skeleton (placeFrom a p') = skeleton (placeFrom a [i]) := by
  obtain ⟨text, hrows, hspells⟩ := Instruction.spells_ending hd hbody hcomment hnames
  rw [hrows] at h
  obtain ⟨l, lines', hl, hnil, rfl⟩ := List.forall₂_cons_left_iff.1 h
  obtain rfl := List.forall₂_nil_left_iff.1 hnil
  obtain ⟨hl, hbodyl, -⟩ := hl.parts hd hspells
  rw [i.map_ofList_names] at hl
  have houtline : Outline.ofLines [l] = ⟨[], [l]⟩ := by
    change Outline.cons l ⟨[], []⟩ = _
    unfold Outline.cons
    rw [if_pos (by rw [hbodyl]; rfl)]
  rw [houtline]
  refine ⟨tailProgram [l] last, rfl, fun a => ?_⟩
  unfold tailProgram
  rw [skeleton_remarks, List.flatMap_cons, List.flatMap_nil, List.append_nil]
  rcases hlist : l.labels with _ | ⟨first, others⟩
  · rw [hlist] at hl
    exact absurd (List.map_eq_nil_iff.1 hl.symm) hlabels
  · rw [hlist] at hl
    exact skeleton_placeFrom_congr hbody.symm hl hcomment.symm
      (Instruction.not_isIdle_of_labels (List.cons_ne_nil first others)) [] a

variable [Legible Op]

/-- **The row of an instruction** in front of others, read again. -/
theorem program_append_code (hwritten : i.Written)
    (hnames : ∀ name ∈ i.names, labelFault (dialect Op) name = none)
    (hcomment : ∀ c, i.comment = some c → Text.trim c.toList = c.toList ∧ '\n' ∉ c.toList)
    {rest : List (List Char)} {lines : List SourceLine}
    (h : List.Forall₂ (Reads (dialect Op)) (Text.rows i.source.toList ++ rest) lines) :
    ∃ lines', List.Forall₂ (Reads (dialect Op)) rest lines' ∧
      ∀ {last : ℕ} {p : List (Instruction Op)}, (Outline.ofLines lines').program last = .ok p →
        ∃ p' : List (Instruction Op), (Outline.ofLines lines).program last = .ok p' ∧
          ∀ a, skeleton (placeFrom a p') = skeleton (placeFrom a (i :: p)) := by
  obtain ⟨text, hrows, hspells⟩ := Instruction.spells_code hwritten hnames hcomment
  rw [hrows] at h
  obtain ⟨l, lines', hl, hrest, rfl⟩ := List.forall₂_cons_left_iff.1 h
  obtain ⟨hl, hbodyl, hcommentl⟩ := hl.parts Legible.dialect hspells
  rw [i.map_ofList_names] at hl
  have hbody : l.body ≠ [] := by
    rw [hbodyl]
    exact hwritten.bare_display.2
  have hmain : Instruction.ofText l.body = .ok ({ body := i.body } : Instruction Op) := by
    rw [hbodyl]
    exact hwritten.ofText_display
  refine ⟨lines', hrest, fun hp => ⟨_, program_cons_code hbody hmain hp, fun a => ?_⟩⟩
  refine (skeleton_placeFrom_congr ?_ hl.symm hcommentl.symm
    (Instruction.not_isIdle_of_code hwritten.code) _ a).symm
  rfl

/-- The rows of an entry of a printable program. -/
theorem Printable.spells (h : Printable p) : ∀ text ∈ p.flatMap (fun i => Text.rows i.source.toList),
    ∃ names body comment, SourceLine.Spells (dialect Op) text names body comment := by
  have hd : (dialect Op).Legible := Legible.dialect
  induction h with
  | nil => exact fun text htext => absurd htext List.not_mem_nil
  | ending hbody hcomment _ hnames =>
    obtain ⟨row, hrows, hspells⟩ := Instruction.spells_ending hd hbody hcomment hnames
    intro text htext
    rw [List.flatMap_cons, List.flatMap_nil, List.append_nil, hrows] at htext
    exact ⟨_, _, _, List.mem_singleton.1 htext ▸ hspells⟩
  | remark hbody hlabels _ ih =>
    intro text htext
    rcases List.mem_append.1 (List.flatMap_cons ▸ htext) with hmem | hmem
    · obtain ⟨comment, hspells⟩ := Instruction.spells_remark hd hbody hlabels text hmem
      exact ⟨_, _, _, hspells⟩
    · exact ih text hmem
  | code hwritten hnames hcomment _ ih =>
    obtain ⟨row, hrows, hspells⟩ := Instruction.spells_code hwritten hnames hcomment
    intro text htext
    rcases List.mem_append.1 (List.flatMap_cons ▸ htext) with hmem | hmem
    · rw [hrows] at hmem
      exact ⟨_, _, _, List.mem_singleton.1 hmem ▸ hspells⟩
    · exact ih text hmem

/-- **The rows of a printable program have its skeleton.** -/
theorem program_of_printable (h : Printable p) {lines : List SourceLine}
    (hlines : List.Forall₂ (Reads (dialect Op)) (p.flatMap fun i => Text.rows i.source.toList) lines)
    (last : ℕ) : ∃ p' : List (Instruction Op), (Outline.ofLines lines).program last = .ok p' ∧
      ∀ a, skeleton (placeFrom a p') = skeleton (placeFrom a p) := by
  have hd : (dialect Op).Legible := Legible.dialect
  -- an entry sees the rest only through its skeleton
  have hcons : ∀ {i : Instruction Op} {p p₁ : List (Instruction Op)},
      (∀ a, skeleton (placeFrom a p₁) = skeleton (placeFrom a p)) →
        ∀ a, skeleton (placeFrom a (i :: p₁)) = skeleton (placeFrom a (i :: p)) :=
    fun hskeleton a => skeleton_cons_congr _ (hskeleton _)
  induction h generalizing lines with
  | nil =>
    obtain rfl := List.forall₂_nil_left_iff.1 hlines
    exact ⟨[], rfl, fun _ => rfl⟩
  | ending hbody hcomment hlabels hnames =>
    rw [List.flatMap_cons, List.flatMap_nil, List.append_nil] at hlines
    exact program_ending hd hbody hcomment hlabels hnames hlines last
  | remark hbody hlabels _ ih =>
    rw [List.flatMap_cons] at hlines
    obtain ⟨lines', hrest, hprogram⟩ := program_append_remark hd hbody hlabels hlines
    obtain ⟨p₁, hp₁, hskeleton₁⟩ := ih hrest
    obtain ⟨p₂, hp₂, hskeleton₂⟩ := hprogram hp₁
    exact ⟨p₂, hp₂, fun a => (hskeleton₂ a).trans (hcons hskeleton₁ a)⟩
  | code hwritten hnames hcomment _ ih =>
    rw [List.flatMap_cons] at hlines
    obtain ⟨lines', hrest, hprogram⟩ := program_append_code hwritten hnames hcomment hlines
    obtain ⟨p₁, hp₁, hskeleton₁⟩ := ih hrest
    obtain ⟨p₂, hp₂, hskeleton₂⟩ := hprogram hp₁
    exact ⟨p₂, hp₂, fun a => (hskeleton₂ a).trans (hcons hskeleton₁ a)⟩

/-- The text of a printable program is read line by line. A text without rows has one empty row. -/
theorem exists_lines_programText (h : Printable p) :
    ∃ lines, (SourceRow.ofSource (programText p)).mapM (SourceLine.ofRow (dialect Op)) = .ok lines ∧
      ∀ last, ∃ p' : List (Instruction Op), (Outline.ofLines lines).program last = .ok p' ∧
        ∀ a, skeleton (placeFrom a p') = skeleton (placeFrom a p) := by
  have hd : (dialect Op).Legible := Legible.dialect
  by_cases hp : p = []
  · subst hp
    have hrows : Text.rows (programText ([] : List (Instruction Op))) = [[]] ++ [] := rfl
    have hempty : ∀ text ∈ [([] : List Char)], ∃ comment,
        SourceLine.Spells (dialect Op) text [] [] comment := by
      intro text htext
      rw [List.mem_singleton.1 htext]
      exact ⟨_, SourceLine.spells_nil _⟩
    have hspells : ∀ text ∈ Text.rows (programText ([] : List (Instruction Op))), ∃ names body comment,
        SourceLine.Spells (dialect Op) text names body comment := by
      rw [hrows, List.append_nil]
      intro text htext
      exact ⟨_, _, hempty text htext⟩
    obtain ⟨lines, hlines⟩ := exists_mapM_ofRow hd hspells
    have hreads := reads_of_mapM hlines
    rw [hrows] at hreads
    obtain ⟨lines', hnil, hprogram⟩ := program_append_comments hd hempty hreads
    obtain rfl := List.forall₂_nil_left_iff.1 hnil
    exact ⟨lines, hlines, fun last => hprogram rfl⟩
  · have hrows : Text.rows (programText p) = p.flatMap fun i => Text.rows i.source.toList := by
      unfold programText
      rw [Text.rows_unrows (by simpa using hp), List.flatMap_map]
    have hspells : ∀ text ∈ Text.rows (programText p), ∃ names body comment,
        SourceLine.Spells (dialect Op) text names body comment := by
      rw [hrows]
      exact h.spells
    obtain ⟨lines, hlines⟩ := exists_mapM_ofRow hd hspells
    have hreads := reads_of_mapM hlines
    rw [hrows] at hreads
    exact ⟨lines, hlines, program_of_printable h hreads⟩

/-- **A printable program is read again from its text**, up to its skeleton and with its table of
labels. -/
theorem parseRows_programText (h : Printable p) {table : Std.HashMap String ℕ}
    (htable : labelTable (labelAddresses (placeFrom 0 p)) = .ok table) :
    ∃ q : List (Instruction Op), parseRows (SourceRow.ofSource (programText p)) = .ok (q, table) ∧
      skeleton q = skeleton (placeFrom 0 p) := by
  obtain ⟨lines, hlines, hprogram⟩ := exists_lines_programText h
  obtain ⟨p', hp', hskeleton⟩ := hprogram (SourceRow.ofSource (programText p)).length
  have hplace : skeleton (place p') = skeleton (placeFrom 0 p) := by
    rw [place_eq]
    exact hskeleton 0
  refine ⟨_, parseRows_eq_ok.2 ⟨lines, p', hlines, hp', ?_, rfl⟩, hplace⟩
  exact labelTable_congr (labelAddresses_congr hplace.symm) htable

/-- **The text of one instruction is a source** of which it is the program, if it has no references. -/
theorem Instruction.Written.parse_display [Lawful Op] (h : i.Written)
    (hargs : ∀ arg ∈ i.body.args, (dialect Op).isReference arg = false) :
    parse i.display.toList true =
      (.ok [{ body := i.body, line := 1, address := some 0 }] : Except ParseError (List (Instruction Op))) := by
  obtain ⟨hbare, hne⟩ := h.bare_display
  have hspells : SourceLine.Spells (dialect Op) i.display.toList [] i.display.toList none := by
    have hcode : SourceLine.Spells (dialect Op) (_ ++ i.display.toList ++ SourceLine.commentTail _ none) [] _ none :=
      SourceLine.spells_code Legible.dialect (fun _ hname => absurd hname List.not_mem_nil) hbare
        fun _ hnone => absurd hnone (Option.some_ne_none _).symm
    rwa [SourceLine.commentTail, List.append_nil] at hcode
  -- the text is one line, and the line is one entry
  have hlines : (SourceRow.ofSource i.display.toList).mapM (SourceLine.ofRow (dialect Op)) =
      .ok [⟨1, [], i.display.toList, none⟩] := by
    unfold SourceRow.ofSource
    rw [Text.rows_of_not_mem hbare.newline]
    exact mapM_eq_ok.2 (List.Forall₂.cons (hspells.ofRow Legible.dialect rfl) List.Forall₂.nil)
  have hprogram : (Outline.ofLines [⟨1, [], i.display.toList, none⟩]).program
      (SourceRow.ofSource i.display.toList).length = .ok [({ body := i.body, line := 1 } : Instruction Op)] :=
    program_cons_code (l := ⟨1, [], i.display.toList, none⟩) (o := ⟨[], []⟩) hne h.ofText_display rfl
  have hplace : place [({ body := i.body, line := 1 } : Instruction Op)] =
      [{ body := i.body, line := 1, address := some 0 }] := place_eq _
  have hrows : parseRows (SourceRow.ofSource i.display.toList) =
      .ok (place [({ body := i.body, line := 1 } : Instruction Op)], ∅) :=
    parseRows_eq_ok.2 ⟨_, _, hlines, hprogram, by rw [hplace]; exact labelTable_eq [], rfl⟩
  rw [hplace] at hrows
  -- the second pass leaves the entry as it is
  have hnone : ¬i.body.args.any (dialect Op).isReference = true := by
    intro hany
    obtain ⟨arg, harg, href⟩ := List.any_eq_true.1 hany
    exact absurd href (by rw [hargs arg harg]; exact Bool.false_ne_true)
  have hsame : ({ body := i.body, line := 1, address := some 0 } : Instruction Op).substitute
      (∅ : Std.HashMap String ℕ).get? = { body := i.body, line := 1, address := some 0 } :=
    substitute_of_not_any hnone
  have hsound : ({ body := i.body, line := 1, address := some 0 } : Instruction Op).Sound := h.sound.congr rfl
  have hresolve := parse_true_of_parseRows (q := [{ body := i.body, line := 1, address := some 0 }]) hrows
    (List.forall_mem_singleton.2 hsound)
  rw [hresolve, List.forall_mem_singleton, List.forall_mem_singleton, List.map_singleton, hsame]
  exact ⟨fun arg harg href => absurd (List.any_eq_true.2 ⟨arg, harg, href⟩) hnone, hsound.encoded, rfl⟩

/-! ### A source -/

/-- What the program of a source is like. -/
structure Readable (resolve : Bool) (p : List (Instruction Op)) : Prop where
  printable : Printable p
  placed : placeFrom 0 p = p
  labels : ∃ table, labelTable (labelAddresses p) = .ok table
  /-- The second pass leaves no references. -/
  resolved : resolve = true → ∀ i ∈ p, ∀ arg ∈ i.body.args, (dialect Op).isReference arg = false

omit [Legible Op] in
theorem readable_of_parseRows {source : List Char} {table : Std.HashMap String ℕ}
    (h : parseRows (SourceRow.ofSource source) = .ok (p, table)) :
    Readable false p ∧ labelTable (labelAddresses p) = .ok table := by
  obtain ⟨lines, program, hlines, hprogram, htable, rfl⟩ := parseRows_eq_ok.1 h
  have hprintable : Printable program := printable_program (fun l => proper_of_mapM hlines) hprogram
  rw [place_eq] at htable ⊢
  exact ⟨⟨hprintable.placeFrom 0, placeFrom_placeFrom 0 0 program, ⟨table, htable⟩,
    fun h => absurd h Bool.false_ne_true⟩, htable⟩

/-- **The program of a source is readable.** -/
theorem readable_of_parse [Lawful Op] {source : List Char} {resolve : Bool}
    (h : parse source resolve = .ok p) : Readable resolve p := by
  cases resolve with
  | false =>
    obtain ⟨table, hrows⟩ := parse_false.1 h
    exact (readable_of_parseRows hrows).1
  | true =>
    obtain ⟨p₁, table, hrows, -⟩ := parse_true.1 h
    obtain ⟨lines, -, hlaid⟩ := laidOut_of_parseRows hrows
    obtain ⟨-, hcode, rfl⟩ := (parse_true_of_parseRows hrows hlaid.sound).1 h
    obtain ⟨⟨hprintable, hplaced, -, -⟩, htable⟩ := readable_of_parseRows hrows
    refine ⟨hprintable.substitute hcode, ?_, ⟨table, ?_⟩, fun _ i hi arg harg => ?_⟩
    · rw [← hplaced]
      exact placeFrom_substitute 0 p₁
    · rw [labelAddresses_substitute]
      exact htable
    · obtain ⟨i₁, -, rfl⟩ := List.mem_map.1 hi
      exact not_isReference_substitute harg

/-- **A readable program is read again from its text**, up to its skeleton. -/
theorem Readable.parse_programText {resolve : Bool} (h : Readable resolve p) :
    ∃ q : List (Instruction Op), parse (programText p) resolve = .ok q ∧ skeleton q = skeleton p := by
  obtain ⟨table, htable⟩ := h.labels
  rw [← h.placed] at htable
  obtain ⟨q, hrows, hskeleton⟩ := parseRows_programText h.printable htable
  rw [h.placed] at hskeleton
  refine ⟨q, ?_, hskeleton⟩
  cases resolve with
  | false => exact parse_false.2 ⟨table, hrows⟩
  | true =>
    -- without references the second pass leaves the program as it is
    have hresolved := forall_args_of_skeleton hskeleton (h.resolved rfl)
    have hnone : ∀ i ∈ q, ¬i.body.args.any (dialect Op).isReference = true := by
      intro i hi hany
      obtain ⟨arg, harg, href⟩ := List.any_eq_true.1 hany
      exact absurd href (by rw [hresolved i hi arg harg]; exact Bool.false_ne_true)
    have hsame : ∀ i ∈ q, i.substitute table.get? = i := fun i hi => substitute_of_not_any (hnone i hi)
    obtain ⟨lines, -, hlaid⟩ := laidOut_of_parseRows hrows
    refine (parse_true_of_parseRows hrows hlaid.sound).2 ⟨fun i hi arg harg href => ?_, fun i hi => ?_, ?_⟩
    · exact absurd (List.any_eq_true.2 ⟨arg, harg, href⟩) (hnone i hi)
    · rw [hsame i hi]
      exact (hlaid.sound i hi).encoded
    · exact (List.map_id' q).symm.trans (List.map_congr_left fun i hi => (hsame i hi).symm)

/-- **A program that was read is read again from its own text.** The program of every source,
printed entry by entry, is a source again, read with or without the second pass as the first one.
But for the numbers of lines its entries other than remarks are the same, with their arguments,
labels, comments and addresses; the same names stand for the same addresses, those at the end of
the program among them; and the digits are the same. -/
theorem parse_printed (a : Architecture) {source : List Char} {resolve : Bool}
    {p : List (Instruction a.Op)} (h : parse source resolve = .ok p) :
    ∃ q, parse (programText p) resolve = .ok q ∧
      (q.filter (!·.body.isRemark)).map Instruction.unlined =
        (p.filter (!·.body.isRemark)).map Instruction.unlined ∧
      (labelAddresses q).map (fun x => (x.1.name, x.2)) =
        (labelAddresses p).map (fun x => (x.1.name, x.2)) ∧
      machineCode q = machineCode p := by
  obtain ⟨q, hq, hskeleton⟩ := (readable_of_parse h).parse_programText
  refine ⟨q, hq, ?_, labelAddresses_congr hskeleton, ?_⟩
  · rw [← filter_skeleton, ← filter_skeleton, hskeleton]
  · rw [← machineCode_skeleton q, ← machineCode_skeleton p, hskeleton]

/-- A remark of two lines, a label on a line of its own, and a label behind the last instruction. -/
theorem parse_printed_ending :
    ∃ p : List (Instruction Architecture.tally.Op),
      parse "; go\n;\n\nb:\nbnz  &e ;x\n.word &b, 3\ne:".toList true = .ok p ∧
      ∃ q : List (Instruction Architecture.tally.Op), parse (programText p) true = .ok q ∧
        (q.filter (!·.body.isRemark)).map Instruction.unlined =
          (p.filter (!·.body.isRemark)).map Instruction.unlined ∧
        (labelAddresses q).map (fun x => (x.1.name, x.2)) =
          (labelAddresses p).map (fun x => (x.1.name, x.2)) ∧
        machineCode q = machineCode p := by
  have hparse : parse "; go\n;\n\nb:\nbnz  &e ;x\n.word &b, 3\ne:".toList true =
      (.ok [{ body := .remark, comment := some "go\n", line := 5, address := some 0 },
        { body := .operation .bnz ["3"], labels := [⟨"b", 4⟩], comment := some "x", line := 5,
          address := some 0 },
        { body := .data ["0", "3"], line := 6, address := some 1 },
        { body := .remark, labels := [⟨"e", 7⟩], line := 7, address := some 3 }] :
        Except ParseError (List (Instruction Tally.Op))) := by cbv
  exact ⟨_, hparse, parse_printed .tally hparse⟩

end TinyIsa
