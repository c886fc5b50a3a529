import Mathlib
import TinyIsa.Proofs.Source.Layout
import TinyIsa.Source.Section

/-!
# From lines to a program

* `SourceLine.words`, `lineLabels`: the words of a line, and the labels of the lines with the
  number of words on the lines before.
* `Outline.lines`, `Outline.Divided`: the lines of an outline, and what its sections are made of;
  `Outline.divided_ofLines`: **the outline of some lines has these lines.**
* `labelAddresses_program`: **in the program of some lines every label has the number of words
  on the lines before its own**, however many lines lie between it and its instruction.
* `sound_program`: every instruction of a program can be encoded and has a form of its operation.
-/

namespace TinyIsa

variable {Op : Type} [InstructionSet Op]

/-! ### Lines -/

/-- The number of words of the instruction of a line, zero without one. -/
def SourceLine.words (Op : Type) [InstructionSet Op] (l : SourceLine) : ℕ :=
  if l.body.isEmpty then 0
  else (Instruction.ofText l.body : Except InstructionError (Instruction Op)).toOption.elim 0
    Instruction.wordCount

/-- The labels of some lines, each with the words of the lines before it behind an address. -/
def lineLabels (Op : Type) [InstructionSet Op] (a : ℕ) : List SourceLine → List (Label × ℕ)
  | [] => []
  | l :: lines => l.labels.map (·, a) ++ lineLabels Op (a + l.words Op) lines

theorem mem_lineLabels {a : ℕ} {lines : List SourceLine} {label : Label} {target : ℕ} :
    (label, target) ∈ lineLabels Op a lines ↔ ∃ n l, lines[n]? = some l ∧ label ∈ l.labels ∧
      target = a + ((lines.take n).map (SourceLine.words Op)).sum := by
  induction lines generalizing a with
  | nil => simp [lineLabels]
  | cons l lines ih =>
    rw [lineLabels, List.mem_append, ih]
    constructor
    · rintro (h | ⟨n, l', hl', hlabel, ht⟩)
      · obtain ⟨label', hlabel, he⟩ := List.mem_map.1 h
        obtain ⟨rfl, rfl⟩ := Prod.mk.inj he
        exact ⟨0, l, rfl, hlabel, by simp⟩
      · refine ⟨n + 1, l', hl', hlabel, ?_⟩
        rw [ht, List.take_succ_cons, List.map_cons, List.sum_cons, Nat.add_assoc]
    · rintro ⟨n, l', hl', hlabel, ht⟩
      cases n with
      | zero =>
        obtain rfl : l = l' := Option.some.inj hl'
        exact Or.inl (List.mem_map.2 ⟨label, hlabel, by simp [ht]⟩)
      | succ n =>
        refine Or.inr ⟨n, l', hl', hlabel, ?_⟩
        rw [ht, List.take_succ_cons, List.map_cons, List.sum_cons, Nat.add_assoc]

variable (Op) in
theorem map_fst_lineLabels (a : ℕ) (lines : List SourceLine) :
    (lineLabels Op a lines).map Prod.fst = lines.flatMap SourceLine.labels := by
  induction lines generalizing a with
  | nil => rfl
  | cons l lines ih =>
    rw [lineLabels, List.map_append, ih, List.flatMap_cons, List.map_map]
    simp [Function.comp_def]

/-! ### Outlines -/

/-- The lines of an outline, one section after the other. -/
def Outline.lines (o : Outline) : List SourceLine :=
  o.sections.flatMap (fun s => s.lead ++ [s.line]) ++ o.tail

/-- An outline whose sections have an instruction at their end and nowhere else. -/
structure Outline.Divided (o : Outline) : Prop where
  lead : ∀ s ∈ o.sections, ∀ l ∈ s.lead, l.body = []
  line : ∀ s ∈ o.sections, s.line.body ≠ []
  tail : ∀ l ∈ o.tail, l.body = []

theorem Outline.divided_cons {o : Outline} (h : o.Divided) (l : SourceLine) :
    (cons l o).Divided ∧ (cons l o).lines = l :: o.lines := by
  obtain ⟨sections, tail⟩ := o
  obtain ⟨hlead, hline, htail⟩ := h
  unfold cons
  by_cases hb : l.body.isEmpty = true
  · have hbody := List.isEmpty_iff.1 hb
    rw [if_pos hb]
    cases sections with
    | nil => exact ⟨⟨hlead, hline, List.forall_mem_cons.2 ⟨hbody, htail⟩⟩, rfl⟩
    | cons s rest =>
      obtain ⟨hs, hrest⟩ := List.forall_mem_cons.1 hlead
      refine ⟨⟨List.forall_mem_cons.2 ⟨List.forall_mem_cons.2 ⟨hbody, hs⟩, hrest⟩, ?_, htail⟩, rfl⟩
      exact List.forall_mem_cons.2 (List.forall_mem_cons.1 hline)
  · rw [if_neg hb]
    refine ⟨⟨List.forall_mem_cons.2 ⟨by simp, hlead⟩, List.forall_mem_cons.2 ⟨?_, hline⟩, htail⟩, rfl⟩
    simpa using hb

/-- **The outline of some lines has these lines**, and its sections are divided by the instructions. -/
theorem Outline.divided_ofLines (lines : List SourceLine) :
    (ofLines lines).Divided ∧ (ofLines lines).lines = lines := by
  induction lines with
  | nil => exact ⟨⟨by simp [ofLines], by simp [ofLines], by simp [ofLines]⟩, rfl⟩
  | cons l lines ih =>
    obtain ⟨hdivided, hlines⟩ := Outline.divided_cons ih.1 l
    exact ⟨hdivided, hlines.trans (congrArg (l :: ·) ih.2)⟩

/-! ### Sections -/

theorem section_program_eq_ok {s : Section} {e : List (Instruction Op)} :
    s.program = .ok e ↔ ∃ main : Instruction Op, Instruction.ofText s.line.body = .ok main ∧
      e = remarks s.lead s.line.number ++ [{ main with
        labels := s.lead.flatMap SourceLine.labels ++ s.line.labels
        comment := s.line.comment
        line := s.line.number }] := by
  unfold Section.program
  rw [bind_eq_ok]
  simp only [mapError_eq_ok]
  constructor
  · rintro ⟨main, hm, h⟩
    exact ⟨main, hm, (Except.ok.inj h).symm⟩
  · rintro ⟨main, hm, rfl⟩
    exact ⟨main, hm, rfl⟩

theorem outline_program_eq_ok {o : Outline} {last : ℕ} {p : List (Instruction Op)} :
    o.program last = .ok p ↔ ∃ entries, o.sections.mapM Section.program = .ok entries ∧
      p = entries.flatten ++ tailProgram o.tail last := by
  unfold Outline.program
  rw [bind_eq_ok]
  constructor
  · rintro ⟨entries, he, h⟩
    exact ⟨entries, he, (Except.ok.inj h).symm⟩
  · rintro ⟨entries, he, rfl⟩
    exact ⟨entries, he, rfl⟩

/-- The program of an outline that begins with a section. -/
theorem outline_program_cons {s : Section} {rest : List Section} {tail : List SourceLine} {last : ℕ}
    {p : List (Instruction Op)} :
    Outline.program ⟨s :: rest, tail⟩ last = .ok p ↔ ∃ e p', s.program = .ok e ∧
      Outline.program ⟨rest, tail⟩ last = .ok p' ∧ p = e ++ p' := by
  rw [outline_program_eq_ok]
  simp only [outline_program_eq_ok, List.mapM_cons, bind_eq_ok]
  constructor
  · rintro ⟨entries, ⟨e, he, es, hes, h⟩, rfl⟩
    obtain rfl : e :: es = entries := Except.ok.inj h
    exact ⟨e, _, he, ⟨es, hes, rfl⟩, by rw [List.flatten_cons, List.append_assoc]⟩
  · rintro ⟨e, p', he, ⟨es, hes, rfl⟩, rfl⟩
    exact ⟨e :: es, ⟨e, he, es, hes, rfl⟩, by rw [List.flatten_cons, List.append_assoc]⟩

/-- Remarks take no room and carry no labels. -/
theorem labelAddresses_remarks (a : ℕ) (lead : List SourceLine) (n : ℕ) (p : List (Instruction Op)) :
    labelAddresses (placeFrom a (remarks lead n ++ p)) = labelAddresses (placeFrom a p) := by
  unfold remarks
  induction remarkTexts lead with
  | nil => rfl
  | cons text texts ih => exact ih

theorem labelAddresses_tail (a : ℕ) (tail : List SourceLine) (last : ℕ) :
    labelAddresses (placeFrom a (tailProgram tail last : List (Instruction Op))) =
      (tail.flatMap SourceLine.labels).map (·, a) := by
  unfold tailProgram
  rw [labelAddresses_remarks]
  cases tail.flatMap SourceLine.labels with
  | nil => rfl
  | cons l labels => exact List.append_nil _

/-- The labels of a section that is followed by others. -/
theorem labelAddresses_section {s : Section} {e p : List (Instruction Op)} {main : Instruction Op}
    (hm : Instruction.ofText s.line.body = .ok main) (he : s.program = .ok e) (a : ℕ) :
    labelAddresses (placeFrom a (e ++ p)) =
      (s.lead.flatMap SourceLine.labels).map (·, a) ++ (s.line.labels.map (·, a) ++
        labelAddresses (placeFrom (a + main.wordCount) p)) := by
  obtain ⟨main', hm', rfl⟩ := section_program_eq_ok.1 he
  obtain rfl : main = main' := Except.ok.inj (hm.symm.trans hm')
  rw [List.append_assoc, labelAddresses_remarks, List.singleton_append, labelAddresses_placeFrom_cons,
    List.map_append, List.append_assoc]
  rfl

/-- **One more line in front** puts its labels at the address reached so far, and its words in front of
all labels behind it. -/
theorem labelAddresses_cons {l : SourceLine} {o : Outline} {last : ℕ} {p : List (Instruction Op)}
    (h : (Outline.cons l o).program last = .ok p) :
    ∃ p' : List (Instruction Op), o.program last = .ok p' ∧ ∀ a,
      labelAddresses (placeFrom a p) =
        l.labels.map (·, a) ++ labelAddresses (placeFrom (a + l.words Op) p') := by
  obtain ⟨sections, tail⟩ := o
  unfold Outline.cons at h
  by_cases hb : l.body.isEmpty = true
  · have hwords : l.words Op = 0 := by unfold SourceLine.words; rw [if_pos hb]
    rw [if_pos hb] at h
    simp only [hwords, Nat.add_zero]
    cases sections with
    | nil =>
      -- the line joins the tail
      obtain ⟨entries, he, rfl⟩ := outline_program_eq_ok.1 h
      obtain rfl : [] = entries := Except.ok.inj he
      refine ⟨_, outline_program_eq_ok.2 ⟨[], rfl, rfl⟩, fun a => ?_⟩
      rw [List.flatten_nil, List.nil_append, List.nil_append, labelAddresses_tail, labelAddresses_tail,
        List.flatMap_cons, List.map_append]
    | cons s rest =>
      -- the line joins those that lead up to the first section
      obtain ⟨e, p', he, hp', rfl⟩ := outline_program_cons.1 h
      obtain ⟨main, hm, -⟩ := section_program_eq_ok.1 he
      obtain ⟨e', he'⟩ : ∃ e', s.program = .ok (e' : List (Instruction Op)) :=
        ⟨_, section_program_eq_ok.2 ⟨main, hm, rfl⟩⟩
      refine ⟨_, outline_program_cons.2 ⟨e', p', he', hp', rfl⟩, fun a => ?_⟩
      rw [labelAddresses_section hm he, labelAddresses_section (s := s) hm he', List.flatMap_cons,
        List.map_append, List.append_assoc]
  · -- the line is a section of its own
    rw [if_neg hb] at h
    obtain ⟨e, p', he, hp', rfl⟩ := outline_program_cons.1 h
    obtain ⟨main, hm, -⟩ := section_program_eq_ok.1 he
    have hwords : l.words Op = main.wordCount := by
      unfold SourceLine.words
      rw [if_neg hb, hm]
      rfl
    refine ⟨p', hp', fun a => ?_⟩
    rw [labelAddresses_section hm he, hwords]
    rfl

/-- **Every label has the number of words on the lines before its own.** -/
theorem labelAddresses_program {lines : List SourceLine} {last : ℕ} {p : List (Instruction Op)}
    (h : (Outline.ofLines lines).program last = .ok p) (a : ℕ) :
    labelAddresses (placeFrom a p) = lineLabels Op a lines := by
  induction lines generalizing a p with
  | nil =>
    obtain ⟨entries, he, rfl⟩ := outline_program_eq_ok.1 h
    obtain rfl : [] = entries := Except.ok.inj he
    exact labelAddresses_tail a [] last
  | cons l lines ih =>
    obtain ⟨p', hp', hlabels⟩ := labelAddresses_cons h
    rw [hlabels, ih hp', lineLabels]

/-! ### Instructions -/

/-- An instruction that can be encoded, in a form that takes its arguments. -/
structure Instruction.Sound (i : Instruction Op) : Prop where
  encoded : ∃ code, i.code = .ok code
  accepted : ∀ op args, i.body = .operation op args → InstructionSet.accepts op args = true

theorem Instruction.Sound.congr {i i' : Instruction Op} (h : i.Sound) (hb : i'.body = i.body) : i'.Sound where
  encoded := by
    unfold code
    rw [hb]
    exact h.encoded
  accepted := hb ▸ h.accepted

theorem Instruction.sound_remark {i : Instruction Op} (h : i.body = .remark) : i.Sound where
  encoded := ⟨[], by unfold code; rw [h]; rfl⟩
  accepted op args hb := absurd (h.symm.trans hb) (by simp)

theorem Instruction.sound_ofMnemonic {name : String} {args : List String} {i : Instruction Op}
    (h : ofMnemonic name args = .ok i) : i.Sound := by
  obtain ⟨op, hop, h⟩ := bind_eq_ok.1 h
  obtain ⟨⟨code, hcode⟩, h⟩ := discard_bind_eq_ok.1 h
  obtain rfl : ofOp op args = i := Except.ok.inj h
  refine ⟨⟨code, hcode⟩, fun op' args' hb => ?_⟩
  obtain ⟨rfl, rfl⟩ := Body.operation.inj hb
  unfold selectOp at hop
  split at hop
  · exact absurd hop (by simp)
  · split at hop
    · rename_i hfind
      obtain rfl := Except.ok.inj hop
      exact List.find?_some (p := fun op => InstructionSet.accepts op args) hfind
    · exact absurd hop (by simp)

/-- **An instruction that a text spells is sound.** -/
theorem Instruction.sound_ofText {body : List Char} {i : Instruction Op} (h : ofText body = .ok i) :
    i.Sound := by
  unfold ofText at h
  rcases hs : splitBody body with ⟨word, args⟩
  rw [hs] at h
  simp only at h
  split at h
  · split at h
    · exact absurd h (by simp)
    · obtain ⟨⟨code, hcode⟩, h⟩ := discard_bind_eq_ok.1 h
      obtain rfl : ofData args = i := Except.ok.inj h
      exact ⟨⟨code, hcode⟩, fun op args' hb => absurd hb (by simp [ofData])⟩
  · exact sound_ofMnemonic h

theorem sound_remarks {lead : List SourceLine} {n : ℕ} {i : Instruction Op} (h : i ∈ remarks lead n) :
    i.Sound := by
  obtain ⟨text, -, rfl⟩ := List.mem_map.1 h
  exact Instruction.sound_remark rfl

theorem sound_tail {tail : List SourceLine} {last : ℕ} {i : Instruction Op}
    (h : i ∈ tailProgram tail last) : i.Sound := by
  unfold tailProgram at h
  rcases List.mem_append.1 h with h | h
  · exact sound_remarks h
  · split at h
    · exact absurd h List.not_mem_nil
    · obtain rfl := List.mem_singleton.1 h
      exact Instruction.sound_remark rfl

/-- **Every instruction of a program is sound.** -/
theorem sound_program {o : Outline} {last : ℕ} {p : List (Instruction Op)} (h : o.program last = .ok p)
    {i : Instruction Op} (hi : i ∈ p) : i.Sound := by
  obtain ⟨entries, he, rfl⟩ := outline_program_eq_ok.1 h
  rcases List.mem_append.1 hi with hi | hi
  · obtain ⟨e, hmem, hi⟩ := List.mem_flatten.1 hi
    obtain ⟨s, -, hs⟩ := exists_of_mem_mapM he hmem
    obtain ⟨main, hm, rfl⟩ := section_program_eq_ok.1 hs
    rcases List.mem_append.1 hi with hi | hi
    · exact sound_remarks hi
    · obtain rfl := List.mem_singleton.1 hi
      exact (Instruction.sound_ofText hm).congr rfl
  · exact sound_tail hi

end TinyIsa
