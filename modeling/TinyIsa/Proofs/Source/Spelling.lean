import Mathlib
import TinyIsa.Proofs.Selection
import TinyIsa.Proofs.Source.Outline

/-!
# Reading the text of an instruction

* `IsArgument`: the texts that are read as one argument.
* `splitBody_line`: **a word and arguments behind it are read as these.**
* `bare_line`: they are taken for neither a label nor a comment.
* `Instruction.Written`: an instruction as it can stand in a source; `written_ofText`: those that
  are read can.
* `bare_display`: its text is taken for neither a label nor a comment.
* `ofText_display`: **an instruction is read from its own text.**
-/

namespace TinyIsa

open InstructionSet

/-! ### Arguments -/

/-- A text that is read as one argument and has no comment mark. -/
def IsArgument (d : Dialect) (arg : String) : Prop :=
  arg.toList ≠ [] ∧ ∀ c ∈ arg.toList, (c == ',' || Text.isBlank c) = false ∧ c ≠ d.comment

/-- The pieces of a text between commas and blanks. -/
def pieceTexts (s : List Char) : List (List Char) :=
  (s.splitOnP fun c => c == ',' || Text.isBlank c).filter (!·.isEmpty)

theorem splitBody_eq (body : List Char) : splitBody body =
    (String.ofList (body.takeWhile (!Text.isBlank ·)),
      (pieceTexts (body.dropWhile (!Text.isBlank ·))).map String.ofList) := rfl

theorem pieceTexts_cons {c : Char} (hc : (c == ',' || Text.isBlank c) = true) (s : List Char) :
    pieceTexts (c :: s) = pieceTexts s := by
  unfold pieceTexts
  rw [List.splitOnP_cons_eq_if_modifyHead, if_pos hc, List.filter_cons_of_neg (by simp)]

theorem pieceTexts_append {d : Dialect} {arg : String} (h : IsArgument d arg) {c : Char}
    (hc : (c == ',' || Text.isBlank c) = true) (s : List Char) :
    pieceTexts (arg.toList ++ c :: s) = arg.toList :: pieceTexts s := by
  unfold pieceTexts
  rw [List.splitOnP_append_cons_of_forall_mem (fun x hx => (h.2 x hx).1) c hc,
    List.filter_cons_of_pos (by simpa using h.1)]

theorem pieceTexts_argument {d : Dialect} {arg : String} (h : IsArgument d arg) :
    pieceTexts arg.toList = [arg.toList] := by
  unfold pieceTexts
  rw [List.splitOnP_eq_singleton fun x hx => (h.2 x hx).1, List.filter_cons_of_pos (by simpa using h.1),
    List.filter_nil]

/-- The arguments are the pieces of their text. -/
theorem pieceTexts_intercalate {d : Dialect} {args : List String} (h : ∀ arg ∈ args, IsArgument d arg) :
    pieceTexts (", ".intercalate args).toList = args.map String.toList := by
  induction args with
  | nil => rfl
  | cons arg args ih =>
    obtain ⟨harg, hrest⟩ := List.forall_mem_cons.1 h
    cases args with
    | nil =>
      rw [String.intercalate_singleton]
      exact pieceTexts_argument harg
    | cons next args =>
      have htext : (", ".intercalate (arg :: next :: args)).toList =
          arg.toList ++ ',' :: ' ' :: (", ".intercalate (next :: args)).toList := by
        rw [String.intercalate_cons_cons, String.toList_append, String.toList_append, List.append_assoc]
        rfl
      rw [htext, pieceTexts_append harg (by decide), pieceTexts_cons (by decide), ih hrest]
      rfl

theorem isArgument_of_splitBody {d : Dialect} {body : List Char} (h : d.comment ∉ body) {arg : String}
    (harg : arg ∈ (splitBody body).2) : IsArgument d arg := by
  rw [splitBody_eq] at harg
  obtain ⟨piece, hpiece, rfl⟩ := List.mem_map.1 harg
  obtain ⟨hmem, hne⟩ := List.mem_filter.1 hpiece
  unfold IsArgument
  rw [String.toList_ofList]
  refine ⟨by simpa using hne, fun c hc => ?_⟩
  obtain ⟨hdrop, hseparator⟩ := Text.of_mem_splitOnP hmem hc
  have hbody : c ∈ body := (List.dropWhile_suffix _).subset hdrop
  exact ⟨hseparator, fun he => h (he ▸ hbody)⟩

/-- A decimal digit may stand in an argument. -/
theorem argument_of_isDigit {d : Dialect} (hd : d.Legible) {c : Char} (hc : c.isDigit = true) :
    (c == ',' || Text.isBlank c) = false ∧ c ≠ d.comment := by
  have hpart : isLabelPart c = true := by
    unfold isLabelPart
    rw [hc, Bool.or_true]
  have hcomma : (c == ',') = false := by
    rw [beq_eq_false_iff_ne]
    rintro rfl
    exact absurd hc (by decide)
  exact ⟨by rw [hcomma, isBlank_of_isLabelPart hpart]; rfl, (hd.ne_of_isLabelPart hpart).1⟩

theorem isArgument_decimal {d : Dialect} (hd : d.Legible) (v : ℤ) : IsArgument d (Text.decimal v) := by
  obtain ⟨c, s, hs, -⟩ := Text.head_decimal v
  refine ⟨by rw [hs]; exact List.cons_ne_nil c s, fun c hc => ?_⟩
  rw [Text.decimal_toList] at hc
  rcases List.mem_append.1 hc with hsign | hc
  · have hminus : c = '-' := by
      by_cases hv : v < 0
      · rw [if_pos hv] at hsign
        exact List.mem_singleton.1 hsign
      · rw [if_neg hv] at hsign
        exact absurd hsign List.not_mem_nil
    rw [hminus]
    exact ⟨by decide, hd.comment_ne.1.symm⟩
  · exact argument_of_isDigit hd (Text.isDigit_of_mem_toDigits hc)

/-! ### The text of an instruction -/

section

variable {d : Dialect} {word : String} {args : List String}

theorem toList_line (word : String) {args : List String} (h : args ≠ []) :
    (Body.display.line word args).toList = word.toList ++ ' ' :: (", ".intercalate args).toList := by
  unfold Body.display.line
  rw [if_neg (by simpa using h), String.toList_append, String.toList_append, List.append_assoc]
  rfl

theorem line_nil (word : String) : Body.display.line word [] = word := rfl

theorem visible_of_isLabelName (h : isLabelName word.toList = true) :
    ∀ c ∈ word.toList, Text.isBlank c = false :=
  fun c hc => isBlank_of_isLabelPart ((of_isLabelName h).2 c hc)

/-- **A word and arguments behind it are read as these.** -/
theorem splitBody_line (hword : isLabelName word.toList = true) (hargs : ∀ arg ∈ args, IsArgument d arg) :
    splitBody (Body.display.line word args).toList = (word, args) := by
  have hvisible : ∀ c ∈ word.toList, (!Text.isBlank c) = true := fun c hc => by
    rw [visible_of_isLabelName hword c hc]
    rfl
  rw [splitBody_eq]
  cases args with
  | nil =>
    have htake : word.toList.takeWhile (!Text.isBlank ·) = word.toList := List.takeWhile_eq_self_iff.2 hvisible
    have hdrop : word.toList.dropWhile (!Text.isBlank ·) = [] := by
      rw [List.dropWhile_eq_nil_iff]
      exact hvisible
    rw [line_nil, htake, hdrop, String.ofList_toList]
    rfl
  | cons arg args =>
    have htake : ∀ s, (' ' :: s).takeWhile (!Text.isBlank ·) = [] := fun s =>
      List.takeWhile_cons_of_neg (by decide)
    have hdrop : ∀ s, (' ' :: s).dropWhile (!Text.isBlank ·) = ' ' :: s := fun s =>
      List.dropWhile_cons_of_neg (by decide)
    have hid : String.ofList ∘ String.toList = id := funext fun s => String.ofList_toList
    rw [toList_line word (List.cons_ne_nil arg args), List.takeWhile_append_of_pos hvisible, htake,
      List.append_nil, List.dropWhile_append_of_pos hvisible, hdrop, pieceTexts_cons (by decide),
      pieceTexts_intercalate hargs, String.ofList_toList, List.map_map, hid, List.map_id]

theorem intercalate_ne_nil (hargs : ∀ arg ∈ args, IsArgument d arg) (h : args ≠ []) :
    (", ".intercalate args).toList ≠ [] := by
  intro hnil
  have hpieces := pieceTexts_intercalate hargs
  rw [hnil] at hpieces
  exact h (List.map_eq_nil_iff.1 hpieces.symm)

theorem trimEnd_intercalate (hargs : ∀ arg ∈ args, IsArgument d arg) :
    Text.trimEnd (", ".intercalate args).toList = (", ".intercalate args).toList := by
  induction args with
  | nil => rfl
  | cons arg args ih =>
    obtain ⟨harg, hrest⟩ := List.forall_mem_cons.1 hargs
    cases args with
    | nil =>
      rw [String.intercalate_singleton]
      exact Text.trimEnd_of_forall fun c hc => (Bool.or_eq_false_iff.1 (harg.2 c hc).1).2
    | cons next args =>
      rw [String.intercalate_cons_cons, String.toList_append]
      exact Text.trimEnd_append (ih hrest) (intercalate_ne_nil hrest (List.cons_ne_nil next args))

theorem of_mem_intercalate (hd : d.Legible) (hargs : ∀ arg ∈ args, IsArgument d arg) {c : Char}
    (hc : c ∈ (", ".intercalate args).toList) : c = ' ' ∨ Text.isBlank c = false ∧ c ≠ d.comment := by
  have harg : ∀ arg, IsArgument d arg → c ∈ arg.toList → c = ' ' ∨ Text.isBlank c = false ∧ c ≠ d.comment :=
    fun arg harg hmem => Or.inr ⟨(Bool.or_eq_false_iff.1 (harg.2 c hmem).1).2, (harg.2 c hmem).2⟩
  induction args with
  | nil => exact absurd hc List.not_mem_nil
  | cons arg args ih =>
    obtain ⟨hfirst, hrest⟩ := List.forall_mem_cons.1 hargs
    cases args with
    | nil =>
      rw [String.intercalate_singleton] at hc
      exact harg arg hfirst hc
    | cons next args =>
      rw [String.intercalate_cons_cons, String.toList_append, String.toList_append] at hc
      rcases List.mem_append.1 hc with hc | hc
      · rcases List.mem_append.1 hc with hc | hc
        · exact harg arg hfirst hc
        · rcases List.mem_cons.1 hc with rfl | hc
          · exact Or.inr ⟨by decide, hd.comment_ne.2.symm⟩
          · exact Or.inl (List.mem_singleton.1 hc)
      · exact ih hrest hc

/-- The only blanks in the text of an instruction are spaces. -/
theorem of_mem_line (hd : d.Legible) (hword : isLabelName word.toList = true)
    (hargs : ∀ arg ∈ args, IsArgument d arg) {c : Char} (hc : c ∈ (Body.display.line word args).toList) :
    c = ' ' ∨ Text.isBlank c = false ∧ c ≠ d.comment := by
  have hfirst : c ∈ word.toList → c = ' ' ∨ Text.isBlank c = false ∧ c ≠ d.comment := by
    intro hmem
    have hpart := (of_isLabelName hword).2 c hmem
    exact Or.inr ⟨isBlank_of_isLabelPart hpart, (hd.ne_of_isLabelPart hpart).1⟩
  cases args with
  | nil => exact hfirst hc
  | cons arg args =>
    rw [toList_line word (List.cons_ne_nil arg args)] at hc
    rcases List.mem_append.1 hc with hc | hc
    · exact hfirst hc
    · rcases List.mem_cons.1 hc with rfl | hc
      · exact Or.inl rfl
      · exact of_mem_intercalate hd hargs hc

theorem line_ne_nil (hword : isLabelName word.toList = true) (args : List String) :
    (Body.display.line word args).toList ≠ [] := by
  cases args with
  | nil => exact (of_isLabelName hword).1
  | cons arg args =>
    rw [toList_line word (List.cons_ne_nil arg args)]
    simp

theorem trimStart_line (hword : isLabelName word.toList = true) (args : List String) :
    Text.trimStart (Body.display.line word args).toList = (Body.display.line word args).toList := by
  have hstart : ∀ s, Text.trimStart (word.toList ++ s) = word.toList ++ s := by
    intro s
    rcases hw : word.toList with _ | ⟨c, rest⟩
    · exact absurd hw (of_isLabelName hword).1
    · exact Text.trimStart_cons (visible_of_isLabelName hword c (hw ▸ List.mem_cons_self)) _
  cases args with
  | nil =>
    rw [line_nil]
    exact List.append_nil word.toList ▸ hstart []
  | cons arg args =>
    rw [toList_line word (List.cons_ne_nil arg args)]
    exact hstart _

theorem trimEnd_line (hword : isLabelName word.toList = true) (hargs : ∀ arg ∈ args, IsArgument d arg) :
    Text.trimEnd (Body.display.line word args).toList = (Body.display.line word args).toList := by
  cases args with
  | nil =>
    rw [line_nil]
    exact Text.trimEnd_of_forall (visible_of_isLabelName hword)
  | cons arg args =>
    have hne := List.cons_ne_nil arg args
    have hspace : word.toList ++ ' ' :: (", ".intercalate (arg :: args)).toList =
        (word.toList ++ [' ']) ++ (", ".intercalate (arg :: args)).toList := by simp
    rw [toList_line word hne, hspace]
    exact Text.trimEnd_append (trimEnd_intercalate hargs) (intercalate_ne_nil hargs hne)

/-- The text of arguments begins as the first of them. -/
theorem intercalate_eq_cons {arg : String} {c : Char} {rest : List Char} (hc : arg.toList = c :: rest)
    (args : List String) : ∃ s, (", ".intercalate (arg :: args)).toList = c :: s := by
  cases args with
  | nil => exact ⟨rest, by rw [String.intercalate_singleton, hc]⟩
  | cons next args =>
    rw [String.intercalate_cons_cons, String.toList_append, String.toList_append, hc]
    exact ⟨_, rfl⟩

/-- The first argument begins right behind the space, so that the text in front of a separator in
the arguments has a blank in it. -/
theorem splitLabels_line (hd : d.Legible) (hword : isLabelName word.toList = true)
    (hargs : ∀ arg ∈ args, IsArgument d arg)
    (hhead : ∀ arg, args.head? = some arg → arg.toList.head? ≠ some d.separator) :
    splitLabels d.separator (Body.display.line word args).toList =
      ([], (Body.display.line word args).toList) := by
  have hseparator : d.separator ∉ word.toList := fun hmem =>
    (hd.ne_of_isLabelPart ((of_isLabelName hword).2 _ hmem)).2 rfl
  cases args with
  | nil => exact splitLabels_of_not_mem hseparator
  | cons arg args =>
    obtain ⟨hargne, hargchars⟩ := hargs arg List.mem_cons_self
    obtain ⟨c, rest, hc⟩ := List.exists_cons_of_ne_nil hargne
    obtain ⟨s, hs⟩ := intercalate_eq_cons hc args
    have hvisible := (Bool.or_eq_false_iff.1 (hargchars c (hc ▸ List.mem_cons_self)).1).2
    have hcs : c ≠ d.separator := fun he => hhead arg rfl (by rw [hc, he]; rfl)
    rw [toList_line word (List.cons_ne_nil arg args), hs]
    exact splitLabels_of_blank hseparator (by decide) hd.separator_visible hvisible hcs s

/-- **A word and arguments are taken for neither a label nor a comment**, unless the first argument
begins with the mark behind a label. -/
theorem bare_line (hd : d.Legible) (hword : isLabelName word.toList = true)
    (hargs : ∀ arg ∈ args, IsArgument d arg)
    (hhead : ∀ arg, args.head? = some arg → arg.toList.head? ≠ some d.separator) :
    SourceLine.Bare d (Body.display.line word args).toList where
  mark hmem := by
    rcases of_mem_line hd hword hargs hmem with hspace | ⟨-, hc⟩
    · exact absurd hd.comment_visible (by rw [hspace]; decide)
    · exact hc rfl
  newline hmem := by
    rcases of_mem_line hd hword hargs hmem with hspace | ⟨hblank, -⟩
    · exact absurd hspace (by decide)
    · exact absurd hblank (by decide)
  start := trimStart_line hword args
  finish := trimEnd_line hword hargs
  split := splitLabels_line hd hword hargs hhead

end

/-! ### Instructions -/

namespace Instruction

variable {Op : Type} [InstructionSet Op]

/-- An instruction as it can stand in a source. -/
structure Written (i : Instruction Op) : Prop where
  sound : i.Sound
  code : i.body.isRemark = false
  arguments : ∀ arg ∈ i.body.args, IsArgument (dialect Op) arg
  values : ∀ values, i.body = .data values → values ≠ []

/-- **What can stand in a source**: an operation in a form that takes its arguments, or a row of at
least one value, each with its digits. -/
theorem Written.cases {i : Instruction Op} (h : i.Written) :
    (∃ op args, i.body = .operation op args ∧ accepts op args = true ∧ ∃ code, encode op args = .ok code) ∨
      ∃ values, i.body = .data values ∧ values ≠ [] ∧ ∃ code, (Body.data values : Body Op).code = .ok code := by
  obtain ⟨code, hcode⟩ := h.sound.encoded
  have hremark := h.code
  unfold Instruction.code at hcode
  cases hb : i.body with
  | operation op args =>
    rw [hb] at hcode
    exact Or.inl ⟨op, args, rfl, h.sound.accepted op args hb, code, hcode⟩
  | data values =>
    rw [hb] at hcode
    exact Or.inr ⟨values, rfl, h.values values hb, code, hcode⟩
  | remark =>
    rw [hb] at hremark
    exact absurd hremark (by simp [Body.isRemark])

variable [Legible Op] {i : Instruction Op}

/-- Every value fits a word, so that the first one does not begin with the mark behind a label. -/
theorem head_ne_of_data {values : List String} {code : List Char}
    (h : (Body.data values : Body Op).code = .ok code) {v : String} (hv : values.head? = some v) :
    v.toList.head? ≠ some (dialect Op).separator := by
  obtain ⟨rows, hrows, -⟩ := map_eq_ok.1 h
  obtain ⟨rest, rfl⟩ := List.head?_eq_some_iff.1 hv
  rw [List.mapM_cons] at hrows
  obtain ⟨row, hrow, -⟩ := bind_eq_ok.1 hrows
  obtain ⟨x, hx, -⟩ := map_eq_ok.1 hrow
  exact Literal.head_of_field Legible.dialect hx

/-- **The text of an instruction is taken for neither a label nor a comment.** -/
theorem Written.bare_display (h : i.Written) : SourceLine.Bare (dialect Op) i.display.toList ∧
    i.display.toList ≠ [] := by
  have hargs := h.arguments
  unfold display
  rcases h.cases with ⟨op, args, hb, haccepts, code, hcode⟩ | ⟨values, hb, -, code, hcode⟩
  · rw [hb] at hargs ⊢
    have hword := (Legible.mnemonic op).1
    exact ⟨bare_line Legible.dialect hword hargs fun arg => Legible.head_ne haccepts hcode,
      line_ne_nil hword args⟩
  · rw [hb] at hargs ⊢
    have hword : isLabelName (dialect Op).dataDirective.toList = true := Legible.directive.1
    exact ⟨bare_line Legible.dialect hword hargs fun arg => head_ne_of_data hcode, line_ne_nil hword values⟩

/-- An operation is selected by its mnemonic and its arguments. -/
theorem selectOp_mnemonic {op : Op} {args : List String} (h : accepts op args = true) :
    selectOp (mnemonic op) args = .ok op :=
  selectOp_eq_ok.2 ⟨(Legible.mnemonic op).2.1.symm, h⟩

omit [Legible Op] in
/-- What is read from a word and arguments. -/
theorem ofText_of_splitBody {body : List Char} {word : String} {args : List String}
    (h : splitBody body = (word, args)) : (ofText body : Except InstructionError (Instruction Op)) =
      if Text.lowercase word = Text.lowercase (dialect Op).dataDirective then
        if args.isEmpty then .error (.invalidOperands (dialect Op).dataDirective "one or more values" [])
        else do
          discard (ofData args : Instruction Op).code
          return ofData args
      else ofMnemonic word args := by
  unfold ofText
  rw [h]

/-- **An instruction is read from its own text.** -/
theorem Written.ofText_display (h : i.Written) : ofText i.display.toList = .ok { body := i.body } := by
  have hargs := h.arguments
  have hdirective : Text.lowercase (dialect Op).dataDirective = (dialect Op).dataDirective :=
    Legible.directive.2
  unfold display
  rcases h.cases with ⟨op, args, hb, haccepts, hcode⟩ | ⟨values, hb, hne, hcode⟩
  · rw [hb] at hargs ⊢
    obtain ⟨hword, hsmall, hother⟩ := Legible.mnemonic op
    have hsplit : splitBody (Body.operation op args).display.toList = (mnemonic op, args) :=
      splitBody_line hword hargs
    rw [ofText_of_splitBody hsplit, hdirective, hsmall, if_neg hother]
    unfold ofMnemonic
    rw [selectOp_mnemonic haccepts]
    exact discard_bind_eq_ok.2 ⟨hcode, rfl⟩
  · rw [hb] at hargs ⊢
    have hword : isLabelName (dialect Op).dataDirective.toList = true := Legible.directive.1
    have hsplit : splitBody (Body.data values : Body Op).display.toList =
        ((dialect Op).dataDirective, values) := splitBody_line hword hargs
    rw [ofText_of_splitBody hsplit, if_pos rfl, if_neg (by simpa using hne)]
    exact discard_bind_eq_ok.2 ⟨hcode, rfl⟩

omit [Legible Op] in
/-- **What is read from a text without a comment mark can stand in a source.** -/
theorem written_ofText {body : List Char} (hmark : (dialect Op).comment ∉ body) {main : Instruction Op}
    (h : ofText body = .ok main) : main.Written := by
  have hsound := sound_ofText h
  have hargs : ∀ arg ∈ (splitBody body).2, IsArgument (dialect Op) arg := fun arg =>
    isArgument_of_splitBody hmark
  rcases hs : splitBody body with ⟨word, args⟩
  rw [hs] at hargs
  rw [ofText_of_splitBody hs] at h
  split at h
  · split at h
    · exact absurd h (by simp)
    · rename_i hne
      obtain ⟨-, h⟩ := discard_bind_eq_ok.1 h
      obtain rfl : ofData args = main := Except.ok.inj h
      refine ⟨hsound, rfl, hargs, fun values hv => ?_⟩
      obtain rfl : args = values := Body.data.inj hv
      simpa using hne
  · obtain ⟨op, -, h⟩ := bind_eq_ok.1 h
    obtain ⟨-, h⟩ := discard_bind_eq_ok.1 h
    obtain rfl : ofOp op args = main := Except.ok.inj h
    exact ⟨hsound, rfl, hargs, fun values hv => absurd hv (by simp [ofOp])⟩

end Instruction

end TinyIsa
