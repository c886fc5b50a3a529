import Mathlib
import TinyIsa.Proofs.Text.Rows
import TinyIsa.Source.Section

/-!
# Runs of comments

The comments of lines without instructions are put together run by run. A blank line or an
instruction ends a run, a line with labels only does not.

* `mem_piece_iff`: which elements of a list are in one piece of it.
* `commentRuns`: the runs of some lines; `flatten_commentRuns`: each comment is in one of them.
* `mem_run_iff`: **two comments are in one run when nothing that ends a run stands between them.**
* `commentRuns_append`: an instruction ends a run; `remarkTexts_eq`: the texts of the runs.
* `rows_runText`: the rows of such a text are the comments of the run.
-/

namespace TinyIsa

/-! ### Pieces of a list -/

section

variable {α : Type} {p : α → Bool}

theorem splitOnP_congr {q : α → Bool} {l : List α} (h : ∀ x ∈ l, p x = q x) :
    l.splitOnP p = l.splitOnP q := by
  induction l with
  | nil => rfl
  | cons x l ih =>
    obtain ⟨hx, hl⟩ := List.forall_mem_cons.1 h
    rw [List.splitOnP_cons_eq_if_modifyHead, List.splitOnP_cons_eq_if_modifyHead, hx, ih hl]

variable {key : α → ℕ} {l piece : List α} {a b : α}

/-- The first piece of a sorted list has what stands in front of the first separator. -/
theorem mem_first_iff {rest : List (List α)} (hl : l.Pairwise (key · < key ·))
    (hsplit : l.splitOnP p = piece :: rest) (hb : b ∈ l) (hp : p b = false) :
    b ∈ piece ↔ ∀ x ∈ l, key x < key b → p x = false := by
  induction l generalizing piece rest with
  | nil => exact absurd hb List.not_mem_nil
  | cons x l ih =>
    obtain ⟨hx, hl⟩ := List.pairwise_cons.1 hl
    rw [List.splitOnP_cons_eq_if_modifyHead] at hsplit
    obtain ⟨first, others, hfirst⟩ := List.exists_cons_of_ne_nil (List.splitOnP_ne_nil p l)
    by_cases hpx : p x = true
    · -- a separator at once: the first piece is empty
      rw [if_pos hpx] at hsplit
      obtain ⟨rfl, -⟩ := List.cons.inj hsplit
      have hbl : b ∈ l := (List.mem_cons.1 hb).resolve_left fun he => by simp [he, hpx] at hp
      refine ⟨fun h => absurd h List.not_mem_nil, fun h => ?_⟩
      exact absurd (h x List.mem_cons_self (hx b hbl)) (by simp [hpx])
    · rw [if_neg hpx, hfirst, List.modifyHead_cons] at hsplit
      obtain ⟨rfl, -⟩ := List.cons.inj hsplit
      rcases List.mem_cons.1 hb with rfl | hbl
      · refine iff_of_true List.mem_cons_self fun y hy hyb => ?_
        rcases List.mem_cons.1 hy with rfl | hy
        · exact hp
        · exact absurd (hx y hy) (lt_asymm hyb)
      · have hbx : b ≠ x := fun he => absurd (hx b hbl) (by simp [he])
        rw [List.mem_cons, or_iff_right hbx, ih hl hfirst hbl, List.forall_mem_cons]
        exact ⟨fun h => ⟨fun _ => eq_false_of_ne_true hpx, h⟩, fun h => h.2⟩

/-- **Elements of a sorted list are in one piece** when no separator stands between them. -/
theorem mem_piece_iff (hl : l.Pairwise (key · < key ·)) (hpiece : piece ∈ l.splitOnP p) (ha : a ∈ piece)
    (hb : b ∈ l) (hp : p b = false) (hab : key a < key b) :
    b ∈ piece ↔ ∀ x ∈ l, key a < key x → key x < key b → p x = false := by
  induction l generalizing piece with
  | nil => exact absurd hb List.not_mem_nil
  | cons x l ih =>
    obtain ⟨hx, hrest⟩ := List.pairwise_cons.1 hl
    have hal := (Text.of_mem_splitOnP hpiece ha).1
    rw [List.splitOnP_cons_eq_if_modifyHead] at hpiece
    -- the later of the two is not the first element
    have hbx : b ≠ x := by
      rintro rfl
      rcases List.mem_cons.1 hal with rfl | hal
      · exact lt_irrefl _ hab
      · exact lt_asymm hab (hx a hal)
    have hbl : b ∈ l := (List.mem_cons.1 hb).resolve_left hbx
    -- and the first element is not between them
    have hskip : (∀ y ∈ x :: l, key a < key y → key y < key b → p y = false) ↔
        ∀ y ∈ l, key a < key y → key y < key b → p y = false := by
      rw [List.forall_mem_cons]
      refine ⟨fun h => h.2, fun h => ⟨fun hax _ => ?_, h⟩⟩
      rcases List.mem_cons.1 hal with rfl | hal
      · exact absurd hax (lt_irrefl _)
      · exact absurd hax (lt_asymm (hx a hal))
    rw [hskip]
    by_cases hpx : p x = true
    · rw [if_pos hpx] at hpiece
      rcases List.mem_cons.1 hpiece with rfl | hpiece
      · exact absurd ha List.not_mem_nil
      · exact ih hrest hpiece ha hbl
    · rw [if_neg hpx] at hpiece
      obtain ⟨first, others, hfirst⟩ := List.exists_cons_of_ne_nil (List.splitOnP_ne_nil p l)
      rw [hfirst, List.modifyHead_cons] at hpiece
      rw [hfirst] at ih
      rcases List.mem_cons.1 hpiece with rfl | hpiece
      · rw [List.mem_cons, or_iff_right hbx]
        rcases List.mem_cons.1 ha with rfl | ha
        · rw [mem_first_iff hrest hfirst hbl hp]
          exact forall₂_congr fun y hy => ⟨fun h _ => h, fun h => h (hx y hy)⟩
        · exact ih hrest List.mem_cons_self ha hbl
      · exact ih hrest (List.mem_cons_of_mem first hpiece) ha hbl

end

/-! ### Runs -/

namespace SourceLine

/-- Whether a line has a comment and no instruction. -/
def isRemark (l : SourceLine) : Bool := l.body.isEmpty && l.comment.isSome

/-- Whether a line ends a run of comments. -/
def isBreak (l : SourceLine) : Bool := l.isBlank || !l.body.isEmpty

/-- A line whose comment is on one row, as is everything on a line. -/
def OneRow (l : SourceLine) : Prop := ∀ c, l.comment = some c → '\n' ∉ c.toList

theorem isBreak_of_isRemark {l : SourceLine} (h : l.isRemark = true) : l.isBreak = false := by
  obtain ⟨hbody, hcomment⟩ := Bool.and_eq_true_iff.1 h
  unfold isBreak isBlank
  cases hc : l.comment with
  | none => rw [hc] at hcomment; exact absurd hcomment (by simp)
  | some c => rw [hbody]; simp

theorem isBreak_of_body {l : SourceLine} (h : l.body ≠ []) : l.isBreak = true := by
  unfold isBreak
  rw [List.isEmpty_eq_false_iff.2 h]
  simp

end SourceLine

/-- The lines with comments and without instructions, run by run. -/
def commentRuns (lines : List SourceLine) : List (List SourceLine) :=
  ((lines.splitOnP SourceLine.isBreak).map (·.filter SourceLine.isRemark)).filter (!·.isEmpty)

/-- The text of a run: its comments, one on a row. -/
def runText (run : List SourceLine) : String :=
  "\n".intercalate (run.filterMap SourceLine.comment)

/-- **Each comment is in one run**, and the runs stand in the order of the lines. -/
theorem flatten_commentRuns (lines : List SourceLine) :
    (commentRuns lines).flatten = lines.filter SourceLine.isRemark := by
  unfold commentRuns
  rw [List.flatten_filter_not_isEmpty, ← List.filter_flatten, Text.flatten_splitOnP, List.filter_filter]
  refine List.filter_congr fun l _ => ?_
  cases hl : l.isRemark with
  | false => rfl
  | true => rw [SourceLine.isBreak_of_isRemark hl]; rfl

theorem of_mem_run {lines run : List SourceLine} (h : run ∈ commentRuns lines) :
    run ≠ [] ∧ ∀ l ∈ run, l ∈ lines ∧ l.isRemark = true := by
  obtain ⟨hpiece, hne⟩ := List.mem_filter.1 h
  refine ⟨by simpa using hne, fun l hl => ?_⟩
  have hmem : l ∈ lines.filter SourceLine.isRemark :=
    flatten_commentRuns lines ▸ List.mem_flatten.2 ⟨run, h, hl⟩
  exact List.mem_filter.1 hmem

/-- **Two comments are in one run** when neither a blank line nor an instruction stands between them. -/
theorem mem_run_iff {lines run : List SourceLine} (hl : lines.Pairwise (·.number < ·.number))
    (hrun : run ∈ commentRuns lines) {a b : SourceLine} (ha : a ∈ run) (hb : b ∈ lines)
    (hremark : b.isRemark = true) (hab : a.number < b.number) :
    b ∈ run ↔ ∀ l ∈ lines, a.number < l.number → l.number < b.number → l.isBreak = false := by
  obtain ⟨piece, hpiece, rfl⟩ := List.mem_map.1 (List.mem_filter.1 hrun).1
  rw [List.mem_filter, and_iff_left hremark]
  exact mem_piece_iff hl hpiece (List.mem_filter.1 ha).1 hb (SourceLine.isBreak_of_isRemark hremark) hab

/-- An instruction ends a run. -/
theorem commentRuns_append {l : SourceLine} (h : l.body ≠ []) (lead lines : List SourceLine) :
    commentRuns (lead ++ l :: lines) = commentRuns lead ++ commentRuns lines := by
  unfold commentRuns
  rw [List.splitOnP_append_cons lead lines (SourceLine.isBreak_of_body h), List.map_append, List.filter_append]

/-- Without instructions every comment is a remark. -/
theorem isRemark_of_body {l : SourceLine} (h : l.body = []) : l.isRemark = l.comment.isSome := by
  unfold SourceLine.isRemark
  rw [h]
  rfl

theorem filterMap_comment {lines : List SourceLine} (h : ∀ l ∈ lines, l.body = []) :
    (lines.filter SourceLine.isRemark).filterMap SourceLine.comment = lines.filterMap SourceLine.comment := by
  rw [List.filterMap_filter]
  refine List.filterMap_congr fun l hl => ?_
  rw [isRemark_of_body (h l hl)]
  cases l.comment <;> rfl

/-- **The texts in front of an instruction** are those of the runs that lead up to it. -/
theorem remarkTexts_eq {lead : List SourceLine} (h : ∀ l ∈ lead, l.body = []) :
    remarkTexts lead = (commentRuns lead).map runText := by
  have hsplit : lead.splitOnP SourceLine.isBlank = lead.splitOnP SourceLine.isBreak := by
    refine splitOnP_congr fun l hl => ?_
    unfold SourceLine.isBreak
    rw [h l hl]
    simp
  have hbodies : ∀ piece ∈ lead.splitOnP SourceLine.isBreak, ∀ l ∈ piece, l.body = [] :=
    fun piece hpiece l hl => h l (Text.of_mem_splitOnP hpiece hl).1
  have hempty : ∀ piece ∈ lead.splitOnP SourceLine.isBreak,
      (!(piece.filterMap SourceLine.comment).isEmpty) = !(piece.filter SourceLine.isRemark).isEmpty := by
    intro piece hpiece
    refine congrArg (!·) (Bool.eq_iff_iff.2 ?_)
    rw [List.isEmpty_iff, List.isEmpty_iff, List.filterMap_eq_nil_iff, List.filter_eq_nil_iff]
    refine forall₂_congr fun l hl => ?_
    rw [isRemark_of_body (hbodies piece hpiece l hl), Option.not_isSome_iff_eq_none]
  simp only [remarkTexts, commentRuns]
  rw [hsplit, List.filter_map, List.filter_map, List.map_map, List.map_map]
  refine (congrArg (List.map _) (List.filter_congr hempty)).trans (List.map_congr_left fun piece hpiece => ?_)
  exact congrArg ("\n".intercalate ·) (filterMap_comment (hbodies piece (List.mem_filter.1 hpiece).1)).symm

/-- **The rows of the text of a run** are its comments. -/
theorem rows_runText {run : List SourceLine} (hne : run ≠ []) (hremark : ∀ l ∈ run, l.isRemark = true)
    (hrow : ∀ l ∈ run, l.OneRow) :
    Text.rows (runText run).toList = (run.filterMap SourceLine.comment).map String.toList := by
  have htexts : run.filterMap SourceLine.comment ≠ [] := by
    obtain ⟨l, hl⟩ := List.exists_mem_of_ne_nil run hne
    obtain ⟨c, hc⟩ := Option.isSome_iff_exists.1 (Bool.and_eq_true_iff.1 (hremark l hl)).2
    exact List.ne_nil_of_mem (List.mem_filterMap.2 ⟨l, hl, hc⟩)
  have hrows : ∀ c ∈ run.filterMap SourceLine.comment, Text.rows c.toList = [c.toList] := by
    intro c hc
    obtain ⟨l, hl, hlc⟩ := List.mem_filterMap.1 hc
    exact Text.rows_of_not_mem (hrow l hl c hlc)
  have hunrows : (runText run).toList = Text.unrows ((run.filterMap SourceLine.comment).map String.toList) :=
    String.toList_intercalate
  rw [hunrows, Text.rows_unrows (by simpa using htexts), List.flatMap_map, List.map_eq_flatMap]
  exact List.flatMap_congr hrows

end TinyIsa
