import Mathlib
import TinyIsa.Proofs.Except
import TinyIsa.Proofs.Text.Rows
import TinyIsa.Source.Line

/-!
# What is read on a line

* `Dialect.Legible`: the marks of a dialect cannot be taken for blanks or for parts of a label.
* `splitLabels_append`, `splitLabels_of_blank`: where the labels of a line end.
* `splitLabels_names`: **labels that are written with a separator and a space behind each are
  read in front of what follows them.**
* `Spells`: what is read on a line; `spells_names`: on one with labels, an instruction and a comment.
* `ofRow_eq_ok`: a line is read when its labels are well formed.
* `SourceLine.Proper`: what holds of every line that is read.
-/

namespace TinyIsa

/-- A dialect whose marks are no blanks and no parts of labels or numbers. -/
structure Dialect.Legible (d : Dialect) : Prop where
  comment_visible : Text.isBlank d.comment = false
  comment_foreign : isLabelPart d.comment = false
  comment_ne : d.comment ≠ '-' ∧ d.comment ≠ ','
  separator_visible : Text.isBlank d.separator = false
  separator_foreign : isLabelPart d.separator = false
  separator_ne : d.separator ≠ '-' ∧ d.separator ≠ '+' ∧ d.separator ≠ d.reference ∧
    d.separator ≠ d.comment

/-! ### Names -/

theorem isBlank_of_isLabelPart {c : Char} (h : isLabelPart c = true) : Text.isBlank c = false := by
  have hrange : 46 ≤ c.toNat ∧ c.toNat ≤ 122 := by
    unfold isLabelPart isLabelStart Char.isAlpha Char.isUpper Char.isLower Char.isDigit at h
    simp only [Bool.or_eq_true, Bool.and_eq_true, decide_eq_true_eq, beq_iff_eq, ge_iff_le,
      UInt32.le_iff_toNat_le] at h
    change 46 ≤ c.val.toNat ∧ c.val.toNat ≤ 122
    rcases h with ((((⟨h1, h2⟩ | ⟨h1, h2⟩) | rfl) | rfl) | rfl) | ⟨h1, h2⟩
    · exact ⟨le_trans (by decide) h1, le_trans h2 (by decide)⟩
    · exact ⟨le_trans (by decide) h1, le_trans h2 (by decide)⟩
    · decide
    · decide
    · decide
    · exact ⟨le_trans (by decide) h1, le_trans h2 (by decide)⟩
  simp only [Text.isBlank, Text.blankRanges, List.any_cons, List.any_nil, Bool.or_false, Bool.or_eq_false_iff,
    Bool.and_eq_false_iff, decide_eq_false_iff_not]
  omega

/-- Marks are no parts of labels. -/
theorem Dialect.Legible.ne_of_isLabelPart {d : Dialect} (hd : d.Legible) {c : Char}
    (h : isLabelPart c = true) : c ≠ d.comment ∧ c ≠ d.separator := by
  constructor
  · rintro rfl
    exact absurd h (by simp [hd.comment_foreign])
  · rintro rfl
    exact absurd h (by simp [hd.separator_foreign])

theorem of_isLabelName {s : List Char} (h : isLabelName s = true) :
    s ≠ [] ∧ ∀ c ∈ s, isLabelPart c = true := by
  cases s with
  | nil => exact absurd h (by simp [isLabelName])
  | cons c s =>
    obtain ⟨hc, hs⟩ := Bool.and_eq_true_iff.1 h
    refine ⟨List.cons_ne_nil c s, List.forall_mem_cons.2 ⟨?_, List.all_eq_true.1 hs⟩⟩
    unfold isLabelPart
    rw [hc, Bool.true_or]

theorem isLabelName_of_labelFault {d : Dialect} {name : List Char} (h : labelFault d name = none) :
    isLabelName name = true := by
  unfold labelFault at h
  by_cases hr : name.head? = some d.reference
  · rw [if_pos hr] at h
    exact absurd h (by simp)
  · rw [if_neg hr] at h
    by_contra hname
    rw [if_neg hname] at h
    exact absurd h (by simp)

/-! ### Labels -/

section

variable {separator : Char}

theorem splitLabels_of_not_mem {code : List Char} (h : separator ∉ code) :
    splitLabels separator code = ([], code) := by
  have hdrop : code.dropWhile (· != separator) = [] := by
    rw [List.dropWhile_eq_nil_iff]
    exact Text.forall_bne h
  rw [splitLabels]
  split
  · rfl
  · rename_i after hcode
    rw [hdrop] at hcode
    exact absurd hcode (by simp)

/-- **A name and a separator** are read as a label. -/
theorem splitLabels_append {name : List Char} (hs : separator ∉ name)
    (hb : ∀ c ∈ name, Text.isBlank c = false) (rest : List Char) :
    splitLabels separator (name ++ separator :: rest) =
      (name :: (splitLabels separator (Text.trimStart rest)).1,
        (splitLabels separator (Text.trimStart rest)).2) := by
  have htake := Text.takeWhile_bne hs rest
  have hdrop := Text.dropWhile_bne hs rest
  have hvisible : ¬name.any Text.isBlank = true := by simpa using hb
  rw [splitLabels]
  split
  · rename_i hcode
    rw [hdrop] at hcode
    exact absurd hcode (by simp)
  · rename_i after hcode
    obtain ⟨-, rfl⟩ := List.cons.inj (hdrop.symm.trans hcode)
    simp only [htake, Text.trimEnd_of_forall hb, if_neg hvisible]

/-- **A separator behind a blank** and something else is in no label. -/
theorem splitLabels_of_blank {word : List Char} {b c : Char} (hs : separator ∉ word)
    (hb : Text.isBlank b = true) (hv : Text.isBlank separator = false) (hc : Text.isBlank c = false)
    (hcs : c ≠ separator) (rest : List Char) :
    splitLabels separator (word ++ b :: c :: rest) = ([], word ++ b :: c :: rest) := by
  have hbs : b ≠ separator := by
    rintro rfl
    exact absurd hb (by simp [hv])
  have hword := Text.forall_bne hs
  have htake : (word ++ b :: c :: rest).takeWhile (· != separator) =
      (word ++ [b]) ++ c :: rest.takeWhile (· != separator) := by
    rw [List.takeWhile_append_of_pos hword, List.takeWhile_cons_of_pos (by simpa using hbs),
      List.takeWhile_cons_of_pos (by simpa using hcs)]
    simp
  have hblank : (Text.trimEnd ((word ++ [b]) ++ c :: rest.takeWhile (· != separator))).any Text.isBlank =
      true := by
    rw [Text.trimEnd_append_cons hc]
    exact List.any_eq_true.2 ⟨b, by simp, hb⟩
  rw [splitLabels]
  split
  · rfl
  · simp only [htake, hblank, if_true]

theorem splitLabels_suffix (separator : Char) (code : List Char) :
    (splitLabels separator code).2 <:+ code := by
  induction code using splitLabels.induct separator with
  | case1 code hcode =>
    rw [splitLabels]
    split
    · exact List.suffix_rfl
    · rename_i h
      exact absurd (hcode.symm.trans h) (by simp)
  | case2 code first after hcode name hname =>
    rw [splitLabels]
    split
    · exact List.suffix_rfl
    · rw [if_pos hname]
  | case3 code first after hcode name hname names body hrest ih =>
    have hafter : Text.trimStart after <:+ code := by
      have hdrop : after <:+ code.dropWhile (· != separator) := hcode ▸ List.suffix_cons first after
      exact (List.dropWhile_suffix _).trans (hdrop.trans (List.dropWhile_suffix _))
    rw [splitLabels]
    split
    · exact List.suffix_rfl
    · rename_i first' after' h
      obtain ⟨rfl, rfl⟩ := List.cons.inj (hcode.symm.trans h)
      rw [if_neg hname]
      exact ih.trans hafter

/-- Labels, with a separator and a space behind each. -/
def namesText (separator : Char) (names : List (List Char)) : List Char :=
  names.flatMap (· ++ [separator, ' '])

/-- The first label begins at once, as the body does. -/
theorem trimStart_names (hv : Text.isBlank separator = false) {names : List (List Char)}
    (hnames : ∀ name ∈ names, ∀ c ∈ name, Text.isBlank c = false) {body : List Char}
    (hstart : Text.trimStart body = body) :
    Text.trimStart (namesText separator names ++ body) = namesText separator names ++ body := by
  rcases names with _ | ⟨name, names⟩
  · exact hstart
  · have hname := hnames name List.mem_cons_self
    unfold namesText
    rw [List.flatMap_cons, List.append_assoc, List.append_assoc]
    cases name with
    | nil => exact Text.trimStart_cons hv _
    | cons c name => exact Text.trimStart_cons (hname c List.mem_cons_self) _

/-- **Labels are read in front of what follows them.** -/
theorem splitLabels_names (hv : Text.isBlank separator = false) {names : List (List Char)}
    (hs : ∀ name ∈ names, separator ∉ name) (hb : ∀ name ∈ names, ∀ c ∈ name, Text.isBlank c = false)
    {body : List Char} (hstart : Text.trimStart body = body) (hend : Text.trimEnd body = body)
    (hbody : splitLabels separator body = ([], body)) :
    splitLabels separator (Text.trim (namesText separator names ++ body)) = (names, body) := by
  have hspace : ∀ s, Text.trimStart (' ' :: s) = Text.trimStart s := fun s =>
    List.dropWhile_cons_of_pos (by decide)
  unfold Text.trim
  rw [trimStart_names hv hb hstart]
  induction names with
  | nil =>
    change splitLabels separator (Text.trimEnd body) = _
    rw [hend, hbody]
  | cons name names ih =>
    have hbs := List.forall_mem_cons.1 hb
    have hss := List.forall_mem_cons.1 hs
    have hcode : namesText separator (name :: names) ++ body =
        name ++ separator :: ' ' :: (namesText separator names ++ body) := by
      simp [namesText]
    rw [hcode, Text.trimEnd_append_cons hv, splitLabels_append hss.1 hbs.1, Text.trimStart_trimEnd,
      hspace, trimStart_names hv hbs.2 hstart, ih hss.2 hbs.2]

end

/-- Labels that are well formed have no mark in them. -/
theorem visible_of_labelFault {d : Dialect} (hd : d.Legible) {name : List Char}
    (h : labelFault d name = none) :
    d.separator ∉ name ∧ d.comment ∉ name ∧ ∀ c ∈ name, Text.isBlank c = false := by
  have hparts := (of_isLabelName (isLabelName_of_labelFault h)).2
  refine ⟨fun hmem => ?_, fun hmem => ?_, fun c hc => isBlank_of_isLabelPart (hparts c hc)⟩
  · exact (hd.ne_of_isLabelPart (hparts _ hmem)).2 rfl
  · exact (hd.ne_of_isLabelPart (hparts _ hmem)).1 rfl

theorem not_mem_namesText {d : Dialect} (hd : d.Legible) {names : List (List Char)}
    (h : ∀ name ∈ names, labelFault d name = none) : d.comment ∉ namesText d.separator names := by
  intro hmem
  obtain ⟨name, hname, hc⟩ := List.mem_flatMap.1 hmem
  rcases List.mem_append.1 hc with hc | hc
  · exact (visible_of_labelFault hd (h name hname)).2.1 hc
  · rcases List.mem_cons.1 hc with hc | hc
    · exact hd.separator_ne.2.2.2 hc.symm
    · have hspace := List.mem_singleton.1 hc
      exact absurd hd.comment_visible (by rw [hspace]; decide)

/-! ### Lines -/

namespace SourceLine

variable {d : Dialect} {text : List Char}

/-- A text without a comment mark is code. -/
theorem parts_of_not_mem (h : d.comment ∉ text) :
    codeText d text = Text.trim text ∧ commentText d text = none := by
  have hall := Text.forall_bne h
  have htake : text.takeWhile (· != d.comment) = text := List.takeWhile_eq_self_iff.2 hall
  have hdrop : text.dropWhile (· != d.comment) = [] := by
    rw [List.dropWhile_eq_nil_iff]
    exact hall
  unfold codeText commentText
  rw [htake, hdrop]
  exact ⟨rfl, rfl⟩

/-- Behind the first comment mark stands the comment. -/
theorem parts_append (h : d.comment ∉ text) (comment : List Char) :
    codeText d (text ++ d.comment :: comment) = Text.trim text ∧
      commentText d (text ++ d.comment :: comment) = some (String.ofList (Text.trim comment)) := by
  unfold codeText commentText
  rw [Text.takeWhile_bne h, Text.dropWhile_bne h]
  exact ⟨rfl, rfl⟩

/-- **A carriage return at the end of a line** is a blank like any other. -/
theorem parts_dropCarriage (hd : Text.isBlank d.comment = false) (text : List Char) :
    codeText d (Text.dropCarriage text) = codeText d text ∧
      commentText d (Text.dropCarriage text) = commentText d text := by
  rcases Text.dropCarriage_cases text with hsame | htext
  · rw [hsame]
    exact ⟨rfl, rfl⟩
  generalize Text.dropCarriage text = s at htext ⊢
  subst htext
  by_cases hmark : d.comment ∈ s
  · obtain ⟨before, comment, rfl, hbefore⟩ := List.eq_append_cons_of_mem hmark
    obtain ⟨hcode, hcomment⟩ := parts_append hbefore comment
    obtain ⟨hcode', hcomment'⟩ := parts_append hbefore (comment ++ ['\r'])
    rw [List.append_assoc, List.cons_append, hcode, hcomment, hcode', hcomment',
      Text.trim_concat (by decide)]
    exact ⟨rfl, rfl⟩
  · have hmark' : d.comment ∉ s ++ ['\r'] := by
      rw [List.mem_append, List.mem_singleton]
      rintro (hs | hr)
      · exact hmark hs
      · exact absurd hd (by rw [hr]; decide)
    obtain ⟨hcode, hcomment⟩ := parts_of_not_mem hmark
    obtain ⟨hcode', hcomment'⟩ := parts_of_not_mem hmark'
    rw [hcode, hcomment, hcode', hcomment', Text.trim_concat (by decide)]
    exact ⟨rfl, rfl⟩

/-- **A line is read** when its labels are well formed. -/
theorem ofRow_eq_ok {row : SourceRow} {l : SourceLine} : ofRow d row = .ok l ↔
    (∀ name ∈ (splitLabels d.separator (codeText d row.text)).1, labelFault d name = none) ∧
      l = { number := row.number
            labels := (splitLabels d.separator (codeText d row.text)).1.map fun name =>
              ⟨String.ofList name, row.number⟩
            body := (splitLabels d.separator (codeText d row.text)).2
            comment := commentText d row.text } := by
  unfold ofRow
  rcases splitLabels d.separator (codeText d row.text) with ⟨names, body⟩
  simp only
  cases hfault : names.findSome? (labelFault d) with
  | some fault =>
    obtain ⟨name, hname, hf⟩ := List.exists_of_findSome?_eq_some hfault
    constructor
    · intro h
      exact absurd h (by simp)
    · rintro ⟨h, -⟩
      exact absurd (h name hname) (by simp [hf])
  | none =>
    constructor
    · intro h
      exact ⟨List.findSome?_eq_none_iff.1 hfault, (Except.ok.inj h).symm⟩
    · rintro ⟨-, rfl⟩
      rfl

/-- The text of an instruction as it is read: without blanks at its ends, labels and comments. -/
structure Bare (d : Dialect) (body : List Char) : Prop where
  mark : d.comment ∉ body
  newline : '\n' ∉ body
  start : Text.trimStart body = body
  finish : Text.trimEnd body = body
  split : splitLabels d.separator body = ([], body)

theorem bare_nil (d : Dialect) : Bare d [] :=
  ⟨List.not_mem_nil, List.not_mem_nil, rfl, rfl, splitLabels_of_not_mem List.not_mem_nil⟩

/-- What is read on a line: labels, the text of an instruction, and a comment. -/
structure Spells (d : Dialect) (text : List Char) (names : List (List Char)) (body : List Char)
    (comment : Option String) : Prop where
  split : splitLabels d.separator (codeText d text) = (names, body)
  sound : ∀ name ∈ names, labelFault d name = none
  comment : commentText d text = comment

/-- **The line of a text that is read**: its parts are those of the text. -/
theorem Spells.ofRow (hd : d.Legible) {names : List (List Char)} {body : List Char} {comment : Option String}
    (h : Spells d text names body comment) {row : SourceRow} (hrow : row.text = Text.dropCarriage text) :
    SourceLine.ofRow d row = .ok
      { number := row.number
        labels := names.map fun name => ⟨String.ofList name, row.number⟩
        body
        comment } := by
  obtain ⟨hcode, hcomment⟩ := parts_dropCarriage hd.comment_visible text
  refine ofRow_eq_ok.2 ?_
  rw [hrow, hcode, hcomment, h.split, h.comment]
  exact ⟨h.sound, rfl⟩

/-- A comment behind the text of an instruction. -/
def commentTail (d : Dialect) : Option String → List Char
  | some c => ' ' :: d.comment :: ' ' :: c.toList
  | none => []

/-- A line without an instruction: nothing but a comment. -/
theorem spells_comment (d : Dialect) (comment : List Char) :
    Spells d (d.comment :: comment) [] [] (some (String.ofList (Text.trim comment))) := by
  obtain ⟨hcode, hcomment⟩ := parts_append (d := d) List.not_mem_nil comment
  refine ⟨?_, by simp, hcomment⟩
  exact (congrArg _ hcode).trans (splitLabels_of_not_mem List.not_mem_nil)

/-- A line with nothing on it. -/
theorem spells_nil (d : Dialect) : Spells d [] [] [] none := by
  obtain ⟨hcode, hcomment⟩ := parts_of_not_mem (d := d) List.not_mem_nil
  refine ⟨?_, by simp, hcomment⟩
  exact (congrArg _ hcode).trans (splitLabels_of_not_mem List.not_mem_nil)

section

variable {names : List (List Char)} (hd : d.Legible) (hnames : ∀ name ∈ names, labelFault d name = none)

include hd hnames

theorem splitLabels_code {body : List Char} (h : Bare d body) :
    splitLabels d.separator (Text.trim (namesText d.separator names ++ body)) = (names, body) :=
  splitLabels_names hd.separator_visible (fun name hname => (visible_of_labelFault hd (hnames name hname)).1)
    (fun name hname => (visible_of_labelFault hd (hnames name hname)).2.2) h.start h.finish h.split

/-- A line with labels only. -/
theorem spells_names : Spells d (Text.trimEnd (namesText d.separator names)) names [] none := by
  have hmark : d.comment ∉ Text.trimEnd (namesText d.separator names) := fun hmem =>
    not_mem_namesText hd hnames ((List.rdropWhile_prefix Text.isBlank _).subset hmem)
  have htrim : Text.trim (Text.trimEnd (namesText d.separator names)) =
      Text.trim (namesText d.separator names ++ []) := by
    rw [List.append_nil]
    unfold Text.trim
    rw [← Text.trimStart_trimEnd, ← Text.trimStart_trimEnd]
    exact congrArg Text.trimStart (List.rdropWhile_idempotent Text.isBlank _)
  obtain ⟨hcode, hcomment⟩ := parts_of_not_mem hmark
  refine ⟨?_, hnames, hcomment⟩
  rw [hcode, htrim]
  exact splitLabels_code hd hnames (bare_nil d)

/-- **A line with labels, the text of an instruction, and perhaps a comment.** -/
theorem spells_code {body : List Char} (h : Bare d body) {comment : Option String}
    (hcomment : ∀ c, comment = some c → Text.trim c.toList = c.toList) :
    Spells d (namesText d.separator names ++ body ++ commentTail d comment) names body comment := by
  have hfree : d.comment ∉ namesText d.separator names ++ body := by
    rw [List.mem_append]
    rintro (hmem | hmem)
    · exact not_mem_namesText hd hnames hmem
    · exact h.mark hmem
  have hsplit := splitLabels_code hd hnames h
  cases comment with
  | none =>
    unfold commentTail
    rw [List.append_nil]
    obtain ⟨hcode, hc⟩ := parts_of_not_mem hfree
    exact ⟨by rw [hcode]; exact hsplit, hnames, hc⟩
  | some c =>
    have hfree' : d.comment ∉ namesText d.separator names ++ body ++ [' '] := by
      rw [List.mem_append, List.mem_singleton]
      rintro (hmem | hmem)
      · exact hfree hmem
      · exact absurd hd.comment_visible (by rw [hmem]; decide)
    obtain ⟨hcode, hc⟩ := parts_append hfree' (' ' :: c.toList)
    unfold commentTail
    rw [List.append_assoc, List.singleton_append] at hcode hc
    refine ⟨?_, hnames, ?_⟩
    · rw [hcode, Text.trim_concat (by decide)]
      exact hsplit
    · have hspace : Text.trim (' ' :: c.toList) = Text.trim c.toList :=
        congrArg Text.trimEnd (List.dropWhile_cons_of_pos (by decide))
      rw [hc, hspace, hcomment c rfl, String.ofList_toList]

end

/-! ### Lines of a source -/

/-- What holds of a line that is read. -/
structure Proper (d : Dialect) (l : SourceLine) : Prop where
  labels : ∀ label ∈ l.labels, labelFault d label.name.toList = none
  body : d.comment ∉ l.body
  comment : ∀ c, l.comment = some c → Text.trim c.toList = c.toList ∧ '\n' ∉ c.toList

theorem proper_of_ofRow {row : SourceRow} {l : SourceLine} (h : ofRow d row = .ok l)
    (hrow : '\n' ∉ row.text) : l.Proper d := by
  obtain ⟨hnames, rfl⟩ := ofRow_eq_ok.1 h
  refine ⟨?_, ?_, ?_⟩
  · intro label hlabel
    obtain ⟨name, hname, rfl⟩ := List.mem_map.1 hlabel
    rw [String.toList_ofList]
    exact hnames name hname
  · intro hmem
    have hcode := Text.mem_of_mem_trim ((splitLabels_suffix d.separator _).subset hmem)
    exact absurd (List.mem_takeWhile_imp hcode) (by simp)
  · intro c hc
    unfold commentText at hc
    rcases hdrop : row.text.dropWhile (· != d.comment) with _ | ⟨mark, comment⟩
    · rw [hdrop] at hc
      exact absurd hc (by simp)
    · rw [hdrop] at hc
      obtain rfl := Option.some.inj hc
      rw [String.toList_ofList]
      refine ⟨Text.trim_trim comment, fun hmem => hrow ?_⟩
      have hcomment : mark :: comment <:+ row.text := hdrop ▸ List.dropWhile_suffix _
      exact hcomment.subset (List.mem_cons_of_mem mark (Text.mem_of_mem_trim hmem))

end SourceLine

/-- **The rows of a source**, numbered one after the other. -/
theorem map_ofSource (source : List Char) :
    (SourceRow.ofSource source).map (fun row => (row.text, row.number)) =
      ((Text.rows source).map Text.dropCarriage).zipIdx 1 := by
  have hzip : ∀ (rows : List (List Char)) (offsets : List ℕ), rows.length ≤ offsets.length →
      ((rows.zip offsets).zipIdx 1).map (fun x => (Text.dropCarriage x.1.1, x.2)) =
        (rows.map Text.dropCarriage).zipIdx 1 := by
    intro rows offsets hlen
    have hrows : rows.map Text.dropCarriage = (rows.zip offsets).map (Text.dropCarriage ∘ Prod.fst) := by
      rw [← List.map_map, List.map_fst_zip hlen]
    rw [hrows, List.zipIdx_map]
    rfl
  unfold SourceRow.ofSource
  rw [List.map_map]
  refine hzip _ _ ?_
  rw [List.length_scanl, List.length_map]
  exact Nat.le_succ _

theorem map_text_ofSource (source : List Char) :
    (SourceRow.ofSource source).map SourceRow.text = (Text.rows source).map Text.dropCarriage := by
  have h := congrArg (List.map Prod.fst) (map_ofSource source)
  rwa [List.map_map, List.zipIdx_map_fst] at h

/-- A row that is read as a line. -/
def Reads (d : Dialect) (text : List Char) (l : SourceLine) : Prop :=
  ∃ row : SourceRow, row.text = Text.dropCarriage text ∧ SourceLine.ofRow d row = .ok l

/-- What a row spells is what its line has. -/
theorem Reads.parts {d : Dialect} (hd : d.Legible) {text : List Char} {l : SourceLine} (h : Reads d text l)
    {names : List (List Char)} {body : List Char} {comment : Option String}
    (hspells : SourceLine.Spells d text names body comment) :
    l.labels.map Label.name = names.map String.ofList ∧ l.body = body ∧ l.comment = comment := by
  obtain ⟨row, hrow, hread⟩ := h
  obtain rfl := Except.ok.inj (hread.symm.trans (hspells.ofRow hd hrow))
  exact ⟨List.map_map, rfl, rfl⟩

/-- **The lines of a source are those of its rows.** -/
theorem reads_of_mapM {d : Dialect} {source : List Char} {lines : List SourceLine}
    (h : (SourceRow.ofSource source).mapM (SourceLine.ofRow d) = .ok lines) :
    List.Forall₂ (Reads d) (Text.rows source) lines := by
  have hread : List.Forall₂ (fun text l => ∃ row : SourceRow, row.text = text ∧ SourceLine.ofRow d row = .ok l)
      ((SourceRow.ofSource source).map SourceRow.text) lines := by
    rw [List.forall₂_map_left_iff]
    exact (mapM_eq_ok.1 h).imp fun row l hl => ⟨row, rfl, hl⟩
  rw [map_text_ofSource, List.forall₂_map_left_iff] at hread
  exact hread

/-- Every line of a source is proper. -/
theorem proper_of_mapM {d : Dialect} {source : List Char} {lines : List SourceLine}
    (h : (SourceRow.ofSource source).mapM (SourceLine.ofRow d) = .ok lines) {l : SourceLine}
    (hl : l ∈ lines) : l.Proper d := by
  obtain ⟨row, hrow, hread⟩ := exists_of_mem_mapM h hl
  have htext : row.text ∈ (Text.rows source).map Text.dropCarriage :=
    map_text_ofSource source ▸ List.mem_map_of_mem hrow
  obtain ⟨text, hmem, he⟩ := List.mem_map.1 htext
  refine SourceLine.proper_of_ofRow hread fun hnewline => Text.not_mem_of_mem_rows hmem ?_
  exact Text.mem_of_mem_dropCarriage (he ▸ hnewline)

/-- A source is read when each of its rows spells something. -/
theorem exists_mapM_ofRow {d : Dialect} (hd : d.Legible) {source : List Char}
    (h : ∀ text ∈ Text.rows source, ∃ names body comment, SourceLine.Spells d text names body comment) :
    ∃ lines, (SourceRow.ofSource source).mapM (SourceLine.ofRow d) = .ok lines := by
  refine exists_mapM_eq_ok fun row hrow => ?_
  have htext : row.text ∈ (Text.rows source).map Text.dropCarriage :=
    map_text_ofSource source ▸ List.mem_map_of_mem hrow
  obtain ⟨text, hmem, he⟩ := List.mem_map.1 htext
  obtain ⟨names, body, comment, hspells⟩ := h text hmem
  exact ⟨_, hspells.ofRow hd he.symm⟩

end TinyIsa
