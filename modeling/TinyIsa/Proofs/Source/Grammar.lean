import Mathlib
import TinyIsa.Proofs.Source.Legible

/-!
# The grammar of a line

The code of a line is a row of labels, each with a separator behind it and blanks around that, and a
body. A separator that stands in a body has a blank in front of it, between two other characters.

* `LabelItem`, `IsBody`, `Divides`: the grammar, and `Parts`: the code and the comment of a line.
* `isLabelName_iff`, `labelFault_eq_none`, `Text.gap_iff`: what the reader tests is what the grammar says.
* `splitLabels_items`: labels are read in front of anything; `exists_items`: what is read in front of
  the body are labels.
* `Divides.split`, `exists_divides`: a code text divides as it is read; `spoiledBy_iff`: or it does not divide.
* `line_grammar`: **a line is read exactly when the grammar has it**, as the grammar has it, and else is
  refused for its first label that is not well formed.
-/

namespace TinyIsa

/-! ### The grammar -/

/-- The characters that a label begins with: `A` to `Z`, `a` to `z`, and three marks. -/
def BeginsLabel (c : Char) : Prop :=
  ('A' ≤ c ∧ c ≤ 'Z') ∨ ('a' ≤ c ∧ c ≤ 'z') ∨ c = '_' ∨ c = '@' ∨ c = '.'

/-- The names of labels: one of these characters, and then these and decimal digits. -/
def IsName (name : List Char) : Prop :=
  ∃ c s, name = c :: s ∧ BeginsLabel c ∧ ∀ x ∈ s, BeginsLabel x ∨ ('0' ≤ x ∧ x ≤ '9')

/-- A name that a label may have: it does not begin with the reference mark. -/
def IsLabel (d : Dialect) (name : List Char) : Prop :=
  IsName name ∧ name.head? ≠ some d.reference

/-- A label on a line, with the blanks on both sides of the separator behind it. -/
structure LabelItem where
  /-- Its name. -/
  name : List Char
  /-- What stands in front of the separator. -/
  before : List Char
  /-- What stands behind the separator. -/
  after : List Char

namespace LabelItem

/-- The text of a label. -/
def text (separator : Char) (l : LabelItem) : List Char :=
  l.name ++ (l.before ++ separator :: l.after)

/-- Only blanks stand around the separator, and the name has neither blanks nor a separator. -/
structure Spaced (separator : Char) (l : LabelItem) : Prop where
  mark : separator ∉ l.name
  name : ∀ c ∈ l.name, Text.isBlank c = false
  before : ∀ c ∈ l.before, Text.isBlank c = true
  after : ∀ c ∈ l.after, Text.isBlank c = true

/-- A label with a name that it may have. -/
structure Sound (d : Dialect) (l : LabelItem) : Prop where
  name : IsLabel d l.name
  before : ∀ c ∈ l.before, Text.isBlank c = true
  after : ∀ c ∈ l.after, Text.isBlank c = true

end LabelItem

/-- A text has a gap when a blank stands in it between two characters that are none. -/
def HasGap (s : List Char) : Prop :=
  ∃ x b y, [x, b, y].Sublist s ∧ Text.isBlank x = false ∧ Text.isBlank b = true ∧ Text.isBlank y = false

/-- The body of a line has no separator, or a gap in front of the first one. -/
def IsBody (separator : Char) (body : List Char) : Prop :=
  separator ∉ body ∨ ∃ front rest, body = front ++ separator :: rest ∧ separator ∉ front ∧ HasGap front

/-- A code text that divides into labels and a body. -/
structure Divides (d : Dialect) (code : List Char) (items : List LabelItem) (body : List Char) : Prop where
  code : code = items.flatMap (LabelItem.text d.separator) ++ body
  sound : ∀ l ∈ items, l.Sound d
  body : IsBody d.separator body

/-- The code and the comment of a line, both without blanks at their ends. -/
inductive Parts (d : Dialect) : List Char → List Char → Option String → Prop
  /-- Without a comment mark all of the line is code. -/
  | plain {text : List Char} : d.comment ∉ text → Parts d text (Text.trim text) none
  /-- Behind the first comment mark stands the comment. -/
  | commented {code comment : List Char} : d.comment ∉ code →
      Parts d (code ++ d.comment :: comment) (Text.trim code) (some (String.ofList (Text.trim comment)))

/-! ### Names -/

theorem isLabelStart_iff {c : Char} : isLabelStart c = true ↔ BeginsLabel c := by
  unfold isLabelStart Char.isAlpha Char.isUpper Char.isLower BeginsLabel
  simp only [Bool.or_eq_true, Bool.and_eq_true, decide_eq_true_eq, beq_iff_eq, or_assoc]
  rfl

theorem isLabelName_iff {name : List Char} : isLabelName name = true ↔ IsName name := by
  have hpart : ∀ c, isLabelPart c = true ↔ BeginsLabel c ∨ ('0' ≤ c ∧ c ≤ '9') := fun c => by
    unfold isLabelPart Char.isDigit
    simp only [Bool.or_eq_true, isLabelStart_iff, Bool.and_eq_true, decide_eq_true_eq]
    rfl
  unfold IsName
  cases name with
  | nil => simp [isLabelName]
  | cons c s =>
    unfold isLabelName
    simp only [Bool.and_eq_true, isLabelStart_iff, List.all_eq_true, hpart]
    constructor
    · rintro ⟨hc, hs⟩
      exact ⟨c, s, rfl, hc, hs⟩
    · rintro ⟨c', s', heq, hc, hs⟩
      obtain ⟨rfl, rfl⟩ := List.cons.inj heq
      exact ⟨hc, hs⟩

/-- **The names without a fault** are those that labels may have. -/
theorem labelFault_eq_none {d : Dialect} {name : List Char} : labelFault d name = none ↔ IsLabel d name := by
  unfold labelFault IsLabel
  rw [← isLabelName_iff]
  by_cases hr : name.head? = some d.reference
  · rw [if_pos hr]
    simp [hr]
  · rw [if_neg hr]
    by_cases hname : isLabelName name = true
    · simp [hr, hname]
    · simp [hname]

/-- The fault of a name that labels cannot have. -/
def nameFault (d : Dialect) (name : List Char) : Fault :=
  if name.head? = some d.reference then .reservedLabel (String.ofList name) d.reference
  else .invalidLabel (String.ofList name)

theorem labelFault_of_not_isLabel {d : Dialect} {name : List Char} (h : ¬IsLabel d name) :
    labelFault d name = some (nameFault d name) := by
  unfold IsLabel at h
  rw [← isLabelName_iff] at h
  unfold labelFault nameFault
  by_cases hr : name.head? = some d.reference
  · rw [if_pos hr, if_pos hr]
  · rw [if_neg hr, if_neg hr, if_neg fun hname => h ⟨hname, hr⟩]

/-- The first fault among names is that of the first name with one. -/
theorem findSome?_labelFault (d : Dialect) (names : List (List Char)) : names.findSome? (labelFault d) =
    (names.find? fun name => (labelFault d name).isSome).map (nameFault d) := by
  induction names with
  | nil => rfl
  | cons name names ih =>
    by_cases hname : IsLabel d name
    · rw [List.findSome?_cons, List.find?_cons, labelFault_eq_none.2 hname, ih]
      rfl
    · rw [List.findSome?_cons, List.find?_cons, labelFault_of_not_isLabel hname]
      rfl

/-! ### Gaps -/

namespace Text

/-- **A text has a gap** when a blank is left in it without the blanks at its ends. -/
theorem gap_iff {s : List Char} : HasGap s ↔ (trim s).any isBlank = true := by
  rw [List.any_eq_true]
  constructor
  · rintro ⟨x, b, y, hsub, hx, hb, hy⟩
    obtain ⟨front, back, rfl, hfront, hsub⟩ := List.cons_sublist_iff.1 hsub
    obtain ⟨middle, back', rfl, hmiddle, hlast⟩ := List.cons_sublist_iff.1 hsub
    obtain ⟨p, q, rfl⟩ := List.append_of_mem hfront
    obtain ⟨u, v, rfl⟩ := List.append_of_mem (List.singleton_sublist.1 hlast)
    have hshape : p ++ x :: q ++ (middle ++ (u ++ y :: v)) = p ++ x :: ((q ++ middle ++ u) ++ y :: v) := by simp
    refine ⟨b, ?_, hb⟩
    rw [hshape, trim_between hx hy]
    simp [hmiddle]
  · rintro ⟨b, hmem, hb⟩
    obtain ⟨front, back, htrim⟩ := List.append_of_mem hmem
    obtain ⟨⟨x, hxfront, hx⟩, y, hyback, hy⟩ := visible_around htrim hb
    have hsub : [x, b, y].Sublist (trim s) := by
      rw [htrim]
      exact (List.singleton_sublist.2 hxfront).append ((List.singleton_sublist.2 hyback).cons_cons b)
    exact ⟨x, b, y, hsub.trans (trim_sublist s), hx, hb, hy⟩

end Text

/-! ### Labels in front of a body -/

/-- A text without a gap in front of a separator is a label. -/
theorem exists_label {separator : Char} {front : List Char} (hs : separator ∉ front) (hstart : Text.trimStart front = front)
    (hgap : ¬(Text.trim front).any Text.isBlank = true) (rest : List Char) :
    ∃ l : LabelItem, l.name = Text.trim front ∧ l.Spaced separator ∧
      front ++ separator :: rest = l.text separator ++ Text.trimStart rest := by
  obtain ⟨before, hbefore, hblank⟩ := Text.exists_trimEnd front
  obtain ⟨after, hafter, hblank'⟩ := Text.exists_trimStart rest
  refine ⟨⟨Text.trim front, before, after⟩, rfl, ⟨?_, by simpa using hgap, hblank, hblank'⟩, ?_⟩
  · exact fun hmem => hs (Text.mem_of_mem_trim hmem)
  · have hname : Text.trim front = Text.trimEnd front := congrArg Text.trimEnd hstart
    unfold LabelItem.text
    rw [hname, List.append_assoc, List.append_assoc, List.cons_append, ← hafter, ← List.append_assoc, ← hbefore]

section

variable {separator : Char} (hv : Text.isBlank separator = false)

include hv

/-- **What stands in front of the first separator** is a label, or it has a gap and belongs to the body. -/
theorem splitLabels_cons {front : List Char} (hs : separator ∉ front) (rest : List Char) :
    splitLabels separator (Text.trimStart (front ++ separator :: rest)) =
      if (Text.trim front).any Text.isBlank then ([], Text.trimStart (front ++ separator :: rest))
      else (Text.trim front :: (splitLabels separator (Text.trimStart rest)).1,
        (splitLabels separator (Text.trimStart rest)).2) := by
  have hfront : separator ∉ Text.trimStart front := fun hmem => hs ((List.dropWhile_suffix _).subset hmem)
  have htake := Text.takeWhile_bne hfront rest
  have hdrop := Text.dropWhile_bne hfront rest
  rw [Text.trimStart_append_cons hv, splitLabels]
  split
  · rename_i hcode
    exact absurd (hdrop.symm.trans hcode) (by simp)
  · rename_i after hcode
    obtain ⟨-, rfl⟩ := List.cons.inj (hdrop.symm.trans hcode)
    simp only [htake]
    rfl

/-- **Labels are read in front of anything.** -/
theorem splitLabels_items {items : List LabelItem} (h : ∀ l ∈ items, l.Spaced separator) (code : List Char) :
    splitLabels separator (Text.trimStart (items.flatMap (LabelItem.text separator) ++ code)) =
      (items.map LabelItem.name ++ (splitLabels separator (Text.trimStart code)).1,
        (splitLabels separator (Text.trimStart code)).2) := by
  induction items with
  | nil => rfl
  | cons l items ih =>
    obtain ⟨hl, hitems⟩ := List.forall_mem_cons.1 h
    have hmark : separator ∉ l.name ++ l.before := by
      rw [List.mem_append]
      rintro (hmem | hmem)
      · exact hl.mark hmem
      · exact absurd (hl.before separator hmem) (by simp [hv])
    have hname : Text.trim (l.name ++ l.before) = l.name := Text.trim_append_of_blank hl.name hl.before
    have hvisible : ¬l.name.any Text.isBlank = true := by simpa using hl.name
    have hshape : (l :: items).flatMap (LabelItem.text separator) ++ code =
        (l.name ++ l.before) ++ separator :: (l.after ++ (items.flatMap (LabelItem.text separator) ++ code)) := by
      simp [LabelItem.text]
    rw [hshape, splitLabels_cons hv hmark, hname, if_neg hvisible, Text.trimStart_append_of_blank hl.after,
      ih hitems]
    rfl

/-- **A body** has no labels in front of it. -/
theorem splitLabels_body {body : List Char} (h : IsBody separator body) :
    splitLabels separator (Text.trimStart body) = ([], Text.trimStart body) := by
  rcases h with hmark | ⟨front, rest, rfl, hmark, hgap⟩
  · exact splitLabels_of_not_mem fun hmem => hmark ((List.dropWhile_suffix _).subset hmem)
  · rw [splitLabels_cons hv hmark, if_pos (Text.gap_iff.1 hgap)]

/-- **What is read in front of the body are labels**, and what is left is a body. -/
theorem exists_items {code : List Char} (hstart : Text.trimStart code = code) :
    ∃ (items : List LabelItem) (body : List Char), code = items.flatMap (LabelItem.text separator) ++ body ∧
      (∀ l ∈ items, l.Spaced separator) ∧ IsBody separator body ∧ Text.trimStart body = body ∧
      splitLabels separator code = (items.map LabelItem.name, body) := by
  -- by the length of what is left, which is shorter by a separator at least behind a label
  induction hn : code.length using Nat.strong_induction_on generalizing code with
  | _ n ih =>
  by_cases hmem : separator ∈ code
  · obtain ⟨front, rest, rfl, hmark⟩ := List.eq_append_cons_of_mem hmem
    have hsplit := splitLabels_cons hv hmark rest
    rw [hstart] at hsplit
    by_cases hgap : (Text.trim front).any Text.isBlank = true
    · rw [if_pos hgap] at hsplit
      exact ⟨[], _, rfl, by simp, .inr ⟨front, rest, rfl, hmark, Text.gap_iff.2 hgap⟩, hstart, hsplit⟩
    · rw [if_neg hgap] at hsplit
      have hfront : Text.trimStart front = front := by
        rw [Text.trimStart_append_cons hv] at hstart
        exact List.append_cancel_right hstart
      obtain ⟨l, hname, hl, htext⟩ := exists_label hmark hfront hgap rest
      have hshort : (Text.trimStart rest).length < n := by
        have hle : (Text.trimStart rest).length ≤ rest.length := (List.dropWhile_suffix Text.isBlank).length_le
        rw [← hn, List.length_append, List.length_cons]
        omega
      obtain ⟨items, body, hcode, hitems, hbody, htrimmed, hrest⟩ :=
        ih _ hshort (Text.trimStart_trimStart rest) rfl
      refine ⟨l :: items, body, ?_, List.forall_mem_cons.2 ⟨hl, hitems⟩, hbody, htrimmed, ?_⟩
      · rw [htext, hcode, List.flatMap_cons, List.append_assoc]
      · rw [hsplit, hrest, List.map_cons, hname]
  · exact ⟨[], code, rfl, by simp, .inl hmem, hstart, splitLabels_of_not_mem hmem⟩

end

/-! ### Lines -/

theorem LabelItem.Sound.spaced {d : Dialect} (hd : d.Legible) {l : LabelItem} (h : l.Sound d) :
    l.Spaced d.separator := by
  obtain ⟨hmark, -, hvisible⟩ := visible_of_labelFault hd (labelFault_eq_none.2 h.name)
  exact ⟨hmark, hvisible, h.before, h.after⟩

/-- **A code text that divides** is read as it divides. -/
theorem Divides.split {d : Dialect} (hd : d.Legible) {code body : List Char} {items : List LabelItem}
    (h : Divides d code items body) :
    splitLabels d.separator (Text.trimStart code) = (items.map LabelItem.name, Text.trimStart body) := by
  rw [h.code, splitLabels_items hd.separator_visible fun l hl => (h.sound l hl).spaced hd,
    splitLabels_body hd.separator_visible h.body, List.append_nil]

/-- **A code text divides** when all the names in front of its body are labels. -/
theorem exists_divides {d : Dialect} (hd : d.Legible) {code : List Char} (hstart : Text.trimStart code = code)
    (h : ∀ name ∈ (splitLabels d.separator code).1, labelFault d name = none) :
    ∃ items, Divides d code items (splitLabels d.separator code).2 ∧
      Text.trimStart (splitLabels d.separator code).2 = (splitLabels d.separator code).2 ∧
      (splitLabels d.separator code).1 = items.map LabelItem.name := by
  obtain ⟨items, body, hcode, hspaced, hbody, htrimmed, hsplit⟩ := exists_items hd.separator_visible hstart
  rw [hsplit] at h ⊢
  refine ⟨items, ⟨hcode, fun l hl => ?_, hbody⟩, htrimmed, rfl⟩
  exact ⟨labelFault_eq_none.1 (h _ (List.mem_map_of_mem hl)), (hspaced l hl).before, (hspaced l hl).after⟩

/-- A code text begins with labels, of which this name is the first that is not well formed. -/
def SpoiledBy (d : Dialect) (code name : List Char) : Prop :=
  ∃ (items : List LabelItem) (wrong : LabelItem) (rest : List Char),
    code = items.flatMap (LabelItem.text d.separator) ++ (wrong.text d.separator ++ rest) ∧
    (∀ l ∈ items, l.Sound d) ∧ wrong.Spaced d.separator ∧ wrong.name = name ∧ ¬IsLabel d name

/-- **A code text is spoiled** by the first name in front of its body that is no label. -/
theorem spoiledBy_iff {d : Dialect} (hd : d.Legible) {code : List Char} (hstart : Text.trimStart code = code)
    {name : List Char} : SpoiledBy d code name ↔
      (splitLabels d.separator code).1.find? (fun name => (labelFault d name).isSome) = some name := by
  rw [List.find?_eq_some_iff_append]
  constructor
  · rintro ⟨items, wrong, rest, hcode, hsound, hwrong, rfl, hname⟩
    have hsplit : splitLabels d.separator code = (items.map LabelItem.name ++ (wrong.name ::
        (splitLabels d.separator (Text.trimStart rest)).1), (splitLabels d.separator (Text.trimStart rest)).2) := by
      have hone := splitLabels_items hd.separator_visible (List.forall_mem_singleton.2 hwrong) rest
      rw [List.flatMap_singleton] at hone
      rw [← hstart, hcode, splitLabels_items hd.separator_visible fun l hl => (hsound l hl).spaced hd, hone]
      rfl
    rw [hsplit]
    refine ⟨by rw [labelFault_of_not_isLabel hname]; rfl, _, _, rfl, fun other hother => ?_⟩
    obtain ⟨l, hl, rfl⟩ := List.mem_map.1 hother
    rw [labelFault_eq_none.2 (hsound l hl).name]
    rfl
  · rintro ⟨hname, good, more, hnames, hgood⟩
    obtain ⟨items, body, hcode, hspaced, -, -, hsplit⟩ := exists_items hd.separator_visible hstart
    rw [hsplit] at hnames
    obtain ⟨front, back, rfl, rfl, hback⟩ := List.map_eq_append_iff.1 hnames
    obtain ⟨wrong, later, rfl, rfl, rfl⟩ := List.map_eq_cons_iff.1 hback
    refine ⟨front, wrong, later.flatMap (LabelItem.text d.separator) ++ body, by simpa using hcode, fun l hl => ?_,
      hspaced _ (by simp), rfl, fun hlabel => ?_⟩
    · have hnone := hgood _ (List.mem_map_of_mem hl)
      have hl' := hspaced l (by simp [hl])
      exact ⟨labelFault_eq_none.1 (by simpa using hnone), hl'.before, hl'.after⟩
    · exact absurd hname (by simp [labelFault_eq_none.2 hlabel])

namespace SourceLine

/-- **A line is refused** for the first of its labels that is not well formed. -/
theorem ofRow_eq_error {d : Dialect} {row : SourceRow} {e : ParseError} : ofRow d row = .error e ↔
    ∃ name, (splitLabels d.separator (codeText d row.text)).1.find? (fun name => (labelFault d name).isSome) =
      some name ∧ e = { fault := nameFault d name, line := row.number } := by
  unfold ofRow
  rcases splitLabels d.separator (codeText d row.text) with ⟨names, body⟩
  simp only [findSome?_labelFault]
  cases names.find? (fun name => (labelFault d name).isSome) with
  | none => simp
  | some name => simp [eq_comm]

theorem trimStart_codeText (d : Dialect) (text : List Char) :
    Text.trimStart (codeText d text) = codeText d text :=
  Text.trimStart_trim _

theorem parts (d : Dialect) (text : List Char) : Parts d text (codeText d text) (commentText d text) := by
  by_cases hmark : d.comment ∈ text
  · obtain ⟨code, comment, rfl, hcode⟩ := List.eq_append_cons_of_mem hmark
    rw [(parts_append hcode comment).1, (parts_append hcode comment).2]
    exact .commented hcode
  · rw [(parts_of_not_mem hmark).1, (parts_of_not_mem hmark).2]
    exact .plain hmark

/-- A line whose code divides is read as it divides. -/
theorem ofRow_of_divides {d : Dialect} (hd : d.Legible) {row : SourceRow} {items : List LabelItem}
    {body : List Char} (h : Divides d (codeText d row.text) items body) : ofRow d row = .ok
      { number := row.number
        labels := items.map fun item => ⟨String.ofList item.name, row.number⟩
        body := Text.trimStart body
        comment := commentText d row.text } := by
  have hsplit := h.split hd
  rw [trimStart_codeText] at hsplit
  rw [ofRow_eq_ok, hsplit, List.map_map]
  refine ⟨fun name hname => ?_, rfl⟩
  obtain ⟨l, hl, rfl⟩ := List.mem_map.1 hname
  exact labelFault_eq_none.2 (h.sound l hl).name

end SourceLine

/-- What becomes of a line, as the grammar has it. -/
structure LineGrammar (d : Dialect) (row : SourceRow) (code : List Char) (comment : Option String) : Prop where
  /-- The code and the comment are those of the line. -/
  parts : Parts d row.text code comment
  /-- The line is read if and only if its code divides into labels and a body. -/
  accepts : (∃ l, SourceLine.ofRow d row = .ok l) ↔ ∃ items body, Divides d code items body
  /-- What is read are the labels, in their order, the body and the comment. -/
  reads : ∀ l, SourceLine.ofRow d row = .ok l ↔
    ∃ items, Divides d code items l.body ∧ Text.trimStart l.body = l.body ∧
      l = { number := row.number, labels := items.map fun item => ⟨String.ofList item.name, row.number⟩,
            body := l.body, comment }
  /-- The code divides in one way only, but for the blanks in front of the body. -/
  unique : ∀ items items' body body', Divides d code items body → Divides d code items' body' →
    items.map LabelItem.name = items'.map LabelItem.name ∧ Text.trimStart body = Text.trimStart body'
  /-- Else the line is refused for its first label that is not well formed. -/
  refuses : ∀ e, SourceLine.ofRow d row = .error e ↔
    ∃ name, SpoiledBy d code name ∧ e = { fault := nameFault d name, line := row.number }

/-- **Lines are read by their grammar**: a line is read exactly when its code divides into labels and a body,
which are what is read, and is refused for the first of its labels that is not well formed otherwise. -/
theorem line_grammar (a : Architecture) (row : SourceRow) :
    LineGrammar (InstructionSet.dialect a.Op) row (SourceLine.codeText (InstructionSet.dialect a.Op) row.text)
      (SourceLine.commentText (InstructionSet.dialect a.Op) row.text) := by
  have hd : (InstructionSet.dialect a.Op).Legible := InstructionSet.Legible.dialect
  generalize InstructionSet.dialect a.Op = d at hd
  have hstart := SourceLine.trimStart_codeText d row.text
  refine ⟨SourceLine.parts d row.text, ⟨?_, ?_⟩, fun l => ⟨?_, ?_⟩, ?_, fun e => ?_⟩
  · rintro ⟨l, hl⟩
    obtain ⟨items, hitems, -⟩ := exists_divides hd hstart (SourceLine.ofRow_eq_ok.1 hl).1
    exact ⟨items, _, hitems⟩
  · rintro ⟨items, body, h⟩
    exact ⟨_, SourceLine.ofRow_of_divides hd h⟩
  · intro hl
    obtain ⟨hnames, rfl⟩ := SourceLine.ofRow_eq_ok.1 hl
    obtain ⟨items, hitems, htrimmed, hmap⟩ := exists_divides hd hstart hnames
    refine ⟨items, hitems, htrimmed, ?_⟩
    simp only [hmap, List.map_map]
    rfl
  · rintro ⟨items, h, htrimmed, hl⟩
    rw [SourceLine.ofRow_of_divides hd h, htrimmed]
    exact congrArg Except.ok hl.symm
  · intro items items' body body' h h'
    exact Prod.mk.inj ((h.split hd).symm.trans (h'.split hd))
  · rw [SourceLine.ofRow_eq_error]
    simp only [spoiledBy_iff hd hstart]

/-- A separator in the body: there is a blank in front of it, between two other characters. -/
theorem line_grammar_gap :
    Divides Tally.dialect "a :x y:z".toList [⟨['a'], [' '], []⟩] "x y:z".toList ∧
      SourceLine.ofRow Tally.dialect ⟨1, ⟨0, 8⟩, "a :x y:z".toList⟩ = .ok ⟨1, [⟨"a", 1⟩], "x y:z".toList, none⟩ := by
  have hdivides : Divides Tally.dialect "a :x y:z".toList [⟨['a'], [' '], []⟩] "x y:z".toList := by
    refine ⟨rfl, List.forall_mem_singleton.2 ?_, .inr ⟨"x y".toList, ['z'], rfl, by decide, 'x', ' ', 'y', ?_⟩⟩
    · exact ⟨⟨⟨'a', [], rfl, .inr (.inl (by decide)), by simp⟩, by decide⟩, by simp; decide, by simp⟩
    · exact ⟨List.Sublist.refl _, by decide⟩
  have hcode : SourceLine.codeText Tally.dialect "a :x y:z".toList = "a :x y:z".toList := by decide +kernel
  refine ⟨hdivides, ((line_grammar .tally _).reads _).2 ⟨[⟨['a'], [' '], []⟩], ?_, by decide, by cbv⟩⟩
  change Divides Tally.dialect (SourceLine.codeText Tally.dialect "a :x y:z".toList) _ _
  rw [hcode]
  exact hdivides

end TinyIsa
