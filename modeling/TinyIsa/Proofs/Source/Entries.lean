import Mathlib
import TinyIsa.Proofs.Source.Skeleton

/-!
# Entries of a program, line by line

What is left of a program without its comments is put together from its lines, the last one
first: a line with an instruction is an entry, and the labels of a line without one come to the
first entry behind it. Where there is none, they make up an entry that ends the program.

* `pushLabels`: entries behind some labels; `entriesFrom`: the entries of some lines.
* `filter_program`: **the program of some lines has their entries**, in their order.
-/

namespace TinyIsa

variable {Op : Type}

/-- The entries behind some labels, which come to the first of them. Without an entry they are the
labels of the end. -/
def pushLabels (a : ℕ) : List Label → List (Instruction Op) → List (Instruction Op)
  | [], entries => entries
  | l :: labels, [] => [{ body := .remark, labels := l :: labels, line := l.line, address := some a }]
  | l :: labels, i :: entries =>
    { i with labels := l :: labels ++ i.labels, line := if i.body.isRemark then l.line else i.line } :: entries

theorem pushLabels_append (a : ℕ) (labels labels' : List Label) (entries : List (Instruction Op)) :
    pushLabels a (labels ++ labels') entries = pushLabels a labels (pushLabels a labels' entries) := by
  cases labels with
  | nil => rfl
  | cons l labels =>
    cases labels' with
    | nil => rw [List.append_nil]; rfl
    | cons l' labels' =>
      cases entries with
      | nil => rfl
      | cons i entries =>
        cases hb : i.body.isRemark <;> simp [pushLabels, hb]

/-- What sees nothing on an idle entry sees of a program only its entries. -/
theorem flatMap_entries {β : Type} {g : Instruction Op → List β} (hg : ∀ i, i.isIdle = true → g i = [])
    (p : List (Instruction Op)) : (p.filter (!·.isIdle)).flatMap g = p.flatMap g := by
  induction p with
  | nil => rfl
  | cons i p ih =>
    rw [List.flatMap_cons, ← ih]
    cases hi : i.isIdle with
    | true => rw [List.filter_cons_of_neg (by simp [hi]), hg i hi, List.nil_append]
    | false => rw [List.filter_cons_of_pos (by simp [hi]), List.flatMap_cons]

theorem labelAddresses_entries (p : List (Instruction Op)) :
    labelAddresses (p.filter (!·.isIdle)) = labelAddresses p := by
  refine flatMap_entries (fun i hi => ?_) p
  rw [(Instruction.of_isIdle hi).2, List.map_nil]

variable [InstructionSet Op]

/-- The entries of some lines, the first one at a given address. -/
def entriesFrom (Op : Type) [InstructionSet Op] (a : ℕ) : List SourceLine → List (Instruction Op)
  | [] => []
  | l :: lines =>
    if l.body.isEmpty then pushLabels a l.labels (entriesFrom Op a lines)
    else match Instruction.ofText l.body with
      | .ok i => { i with labels := l.labels, comment := l.comment, line := l.number, address := some a } ::
          entriesFrom Op (a + i.wordCount) lines
      | .error _ => entriesFrom Op a lines

/-- The text of an instruction does not spell a remark. -/
theorem Instruction.code_ofText {body : List Char} {i : Instruction Op} (h : ofText body = .ok i) :
    i.body.isRemark = false := by
  unfold ofText at h
  rcases hs : splitBody body with ⟨word, args⟩
  rw [hs] at h
  simp only at h
  split at h
  · split at h
    · exact absurd h (by simp)
    · obtain ⟨-, h⟩ := discard_bind_eq_ok.1 h
      obtain rfl := Except.ok.inj h
      rfl
  · obtain ⟨op, -, h⟩ := bind_eq_ok.1 h
    obtain ⟨-, h⟩ := discard_bind_eq_ok.1 h
    obtain rfl := Except.ok.inj h
    rfl

theorem filter_tail (a : ℕ) (tail : List SourceLine) (last : ℕ) :
    (placeFrom a (tailProgram tail last : List (Instruction Op))).filter (!·.isIdle) =
      pushLabels a (tail.flatMap SourceLine.labels) [] := by
  unfold tailProgram
  rw [filter_remarks]
  cases tail.flatMap SourceLine.labels <;> rfl

/-- The entries of a section that is followed by others. -/
theorem filter_section {s : Section} {e p : List (Instruction Op)} {main : Instruction Op}
    (hm : Instruction.ofText s.line.body = .ok main) (he : s.program = .ok e) (a : ℕ) :
    (placeFrom a (e ++ p)).filter (!·.isIdle) = pushLabels a (s.lead.flatMap SourceLine.labels)
      ({ main with labels := s.line.labels, comment := s.line.comment, line := s.line.number,
                   address := some a } :: (placeFrom (a + main.wordCount) p).filter (!·.isIdle)) := by
  obtain ⟨main', hm', rfl⟩ := section_program_eq_ok.1 he
  obtain rfl : main = main' := Except.ok.inj (hm.symm.trans hm')
  have hcode := Instruction.code_ofText hm
  rw [List.append_assoc, filter_remarks, List.singleton_append, placeFrom,
    List.filter_cons_of_pos (Bool.not_eq_true' _ ▸ Instruction.not_isIdle_of_code hcode)]
  cases s.lead.flatMap SourceLine.labels with
  | nil => rfl
  | cons l labels =>
    simp only [pushLabels, hcode, Bool.false_eq_true, if_false]
    rfl

/-- **One more line in front** is one more entry, or its labels come to the first one. -/
theorem filter_cons {l : SourceLine} {o : Outline} {last : ℕ} {p : List (Instruction Op)}
    (h : (Outline.cons l o).program last = .ok p) :
    ∃ p' : List (Instruction Op), o.program last = .ok p' ∧
      (l.body = [] → ∀ a, (placeFrom a p).filter (!·.isIdle) =
        pushLabels a l.labels ((placeFrom a p').filter (!·.isIdle))) ∧
      (l.body ≠ [] → ∃ i : Instruction Op, Instruction.ofText l.body = .ok i ∧ ∀ a,
        (placeFrom a p).filter (!·.isIdle) =
          { i with labels := l.labels, comment := l.comment, line := l.number, address := some a } ::
            (placeFrom (a + i.wordCount) p').filter (!·.isIdle)) := by
  obtain ⟨sections, tail⟩ := o
  unfold Outline.cons at h
  by_cases hb : l.body.isEmpty = true
  · rw [if_pos hb] at h
    have hempty := List.isEmpty_iff.1 hb
    cases sections with
    | nil =>
      -- the line joins the tail
      obtain ⟨entries, he, rfl⟩ := outline_program_eq_ok.1 h
      obtain rfl : [] = entries := Except.ok.inj he
      refine ⟨_, outline_program_eq_ok.2 ⟨[], rfl, rfl⟩, fun _ a => ?_, fun hne => absurd hempty hne⟩
      rw [List.flatten_nil, List.nil_append, List.nil_append, filter_tail, filter_tail, List.flatMap_cons,
        pushLabels_append]
    | cons s rest =>
      -- the line joins those that lead up to the first section
      obtain ⟨e, p', he, hp', rfl⟩ := outline_program_cons.1 h
      obtain ⟨main, hm, -⟩ := section_program_eq_ok.1 he
      obtain ⟨e', he'⟩ : ∃ e', s.program = .ok (e' : List (Instruction Op)) :=
        ⟨_, section_program_eq_ok.2 ⟨main, hm, rfl⟩⟩
      refine ⟨_, outline_program_cons.2 ⟨e', p', he', hp', rfl⟩, fun _ a => ?_, fun hne => absurd hempty hne⟩
      rw [filter_section hm he, filter_section (s := s) hm he', List.flatMap_cons, pushLabels_append]
  · -- the line is a section of its own
    rw [if_neg hb] at h
    obtain ⟨e, p', he, hp', rfl⟩ := outline_program_cons.1 h
    obtain ⟨main, hm, -⟩ := section_program_eq_ok.1 he
    refine ⟨p', hp', fun hnil => absurd (List.isEmpty_iff.2 hnil) hb, fun _ => ⟨main, hm, fun a => ?_⟩⟩
    rw [filter_section hm he]
    rfl

/-- **The program of some lines has their entries.** -/
theorem filter_program {lines : List SourceLine} {last : ℕ} {p : List (Instruction Op)}
    (h : (Outline.ofLines lines).program last = .ok p) (a : ℕ) :
    (placeFrom a p).filter (!·.isIdle) = entriesFrom Op a lines := by
  induction lines generalizing a p with
  | nil =>
    obtain ⟨entries, he, rfl⟩ := outline_program_eq_ok.1 h
    obtain rfl : [] = entries := Except.ok.inj he
    exact filter_tail a [] last
  | cons l lines ih =>
    obtain ⟨p', hp', hlabels, hcode⟩ := filter_cons h
    unfold entriesFrom
    by_cases hb : l.body.isEmpty = true
    · rw [if_pos hb, hlabels (List.isEmpty_iff.1 hb), ih hp']
    · obtain ⟨i, hi, hentries⟩ := hcode fun hnil => hb (List.isEmpty_iff.2 hnil)
      rw [if_neg hb, hi, hentries, ih hp']

end TinyIsa
