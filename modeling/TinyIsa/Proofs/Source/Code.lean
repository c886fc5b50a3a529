import Mathlib
import TinyIsa.Proofs.Source.Entries
import TinyIsa.Proofs.Source.Line
import TinyIsa.Source.Parse

/-!
# The code of a source

What stands on a line in front of its comment, without blanks around it, is its code. The labels
and the instructions of a source, and with them its entries, are those of its code.

* `codeTexts`, `codeLines`: the code of a source, line by line, and its parts.
* `SourceLine.Agrees`, `Instruction.Agrees`: the same but for comments and the numbers of lines.
* `entriesFrom_agrees`: **lines that agree have entries that agree**; `addresses_agrees`: and the
  same labels at the same addresses.
* `flatMap_codeLines`, `entriesFrom_codeLines`: rows without code count for nothing.
-/

namespace TinyIsa

open InstructionSet

/-- The code of some rows, each with the number of its row. Rows without code are left out. -/
def codeTexts (d : Dialect) (rows : List SourceRow) : List (ℕ × List Char) :=
  (rows.map fun row => (row.number, SourceLine.codeText d row.text)).filter (!·.2.isEmpty)

/-- The labels and the instruction of a code text, whether its labels are well formed or not. -/
def SourceLine.ofCode (d : Dialect) (x : ℕ × List Char) : SourceLine :=
  { number := x.1
    labels := (splitLabels d.separator x.2).1.map fun name => ⟨String.ofList name, x.1⟩
    body := (splitLabels d.separator x.2).2
    comment := none }

/-- The lines of a source with code on them, without their comments. -/
def codeLines (d : Dialect) (rows : List SourceRow) : List SourceLine :=
  (codeTexts d rows).map (SourceLine.ofCode d)

/-- A row without its comment, as a line. -/
def SourceRow.line (d : Dialect) (row : SourceRow) : SourceLine :=
  SourceLine.ofCode d (row.number, SourceLine.codeText d row.text)

/-! ### Agreement -/

variable {Op : Type} {ρ : ℕ → ℕ → Prop}

/-- Labels with the same name, on lines that correspond. -/
def Label.Agrees (ρ : ℕ → ℕ → Prop) (l l' : Label) : Prop :=
  l.name = l'.name ∧ ρ l.line l'.line

/-- Lines that correspond and have the same code. -/
structure SourceLine.Agrees (ρ : ℕ → ℕ → Prop) (l l' : SourceLine) : Prop where
  number : ρ l.number l'.number
  labels : List.Forall₂ (Label.Agrees ρ) l.labels l'.labels
  body : l.body = l'.body

/-- Entries with the same body and the same labels at the same address, from lines that
correspond. -/
structure Instruction.Agrees (ρ : ℕ → ℕ → Prop) (i i' : Instruction Op) : Prop where
  body : i.body = i'.body
  labels : List.Forall₂ (Label.Agrees ρ) i.labels i'.labels
  line : ρ i.line i'.line
  address : i.address = i'.address

theorem map_name_agrees {labels labels' : List Label} (h : List.Forall₂ (Label.Agrees ρ) labels labels') :
    labels.map Label.name = labels'.map Label.name := by
  induction h with
  | nil => rfl
  | cons hl _ ih => rw [List.map_cons, List.map_cons, hl.1, ih]

theorem pushLabels_agrees {labels labels' : List Label} {entries entries' : List (Instruction Op)} (a : ℕ)
    (hl : List.Forall₂ (Label.Agrees ρ) labels labels')
    (he : List.Forall₂ (Instruction.Agrees ρ) entries entries') :
    List.Forall₂ (Instruction.Agrees ρ) (pushLabels a labels entries) (pushLabels a labels' entries') := by
  cases hl with
  | nil => exact he
  | cons hfirst hl =>
    cases he with
    | nil => exact .cons ⟨rfl, .cons hfirst hl, hfirst.2, rfl⟩ .nil
    | cons hi he =>
      refine .cons ⟨hi.body, ?_, ?_, hi.address⟩ he
      · exact List.rel_append (.cons hfirst hl) hi.labels
      · rw [hi.body]
        split
        · exact hfirst.2
        · exact hi.line

variable [InstructionSet Op]

variable (Op) in
/-- **Lines that agree have entries that agree.** -/
theorem entriesFrom_agrees {lines lines' : List SourceLine}
    (h : List.Forall₂ (SourceLine.Agrees ρ) lines lines') (a : ℕ) :
    List.Forall₂ (Instruction.Agrees ρ) (entriesFrom Op a lines) (entriesFrom Op a lines') := by
  induction h generalizing a with
  | nil => exact .nil
  | cons hl _ ih =>
    unfold entriesFrom
    rw [hl.body]
    split
    · exact pushLabels_agrees a hl.labels (ih a)
    · split
      · exact .cons ⟨rfl, hl.labels, hl.number, rfl⟩ (ih _)
      · exact ih a

omit [InstructionSet Op] in
/-- Entries that agree have the same labels at the same addresses. -/
theorem addresses_agrees {p q : List (Instruction Op)} (h : List.Forall₂ (Instruction.Agrees ρ) p q) :
    (labelAddresses p).map (fun x => (x.1.name, x.2)) = (labelAddresses q).map fun x => (x.1.name, x.2) := by
  have hentry : ∀ i : Instruction Op, (i.labels.map fun l => (l, i.address.getD 0)).map
      (fun x => (x.1.name, x.2)) = (i.labels.map Label.name).map (·, i.address.getD 0) := by
    intro i
    rw [List.map_map, List.map_map]
    rfl
  unfold labelAddresses
  induction h with
  | nil => rfl
  | cons hi _ ih =>
    rw [List.flatMap_cons, List.flatMap_cons, List.map_append, List.map_append, ih, hentry, hentry,
      map_name_agrees hi.labels, hi.address]

/-! ### Rows without code -/

variable {d : Dialect}

omit [InstructionSet Op] in
/-- What sees nothing on a row without code sees of a source only its code. -/
theorem flatMap_codeLines {β : Type} {f : SourceLine → List β}
    (hf : ∀ number, f (SourceLine.ofCode d (number, [])) = []) (rows : List SourceRow) :
    (codeLines d rows).flatMap f = (rows.map (SourceRow.line d)).flatMap f := by
  unfold codeLines codeTexts
  induction rows with
  | nil => rfl
  | cons row rows ih =>
    rw [List.map_cons, List.map_cons, List.flatMap_cons, ← ih, SourceRow.line]
    cases hcode : SourceLine.codeText d row.text with
    | nil => rw [List.filter_cons_of_neg (by simp), hf, List.nil_append]
    | cons c code => rw [List.filter_cons_of_pos (by simp), List.map_cons, List.flatMap_cons]

/-- A row without code has nothing on it. -/
theorem ofCode_nil (d : Dialect) (number : ℕ) : SourceLine.ofCode d (number, []) =
    { number, labels := [], body := [], comment := none } := by
  have hsplit : splitLabels d.separator [] = ([], []) := splitLabels_of_not_mem List.not_mem_nil
  unfold SourceLine.ofCode
  rw [hsplit]
  rfl

theorem entriesFrom_codeLines (a : ℕ) (rows : List SourceRow) :
    entriesFrom Op a (codeLines d rows) = entriesFrom Op a (rows.map (SourceRow.line d)) := by
  unfold codeLines codeTexts
  induction rows generalizing a with
  | nil => rfl
  | cons row rows ih =>
    rw [List.map_cons, List.map_cons, SourceRow.line]
    cases hcode : SourceLine.codeText d row.text with
    | nil =>
      rw [List.filter_cons_of_neg (by simp), ih, ofCode_nil]
      rfl
    | cons c code =>
      rw [List.filter_cons_of_pos (by simp), List.map_cons, entriesFrom, entriesFrom]
      simp only [ih]

/-- **The lines of a source agree with its rows** but for their comments. -/
theorem agrees_of_mapM {rows : List SourceRow} {lines : List SourceLine}
    (h : rows.mapM (SourceLine.ofRow d) = .ok lines) :
    List.Forall₂ (SourceLine.Agrees Eq) lines (rows.map (SourceRow.line d)) := by
  rw [List.forall₂_map_right_iff]
  refine (mapM_eq_ok.1 h).flip.imp fun l row hl => ?_
  obtain ⟨-, rfl⟩ := SourceLine.ofRow_eq_ok.1 hl
  exact ⟨rfl, List.forall₂_same.2 fun label _ => ⟨rfl, rfl⟩, rfl⟩

/-- **The entries of a program** are those of the code of its source. -/
theorem entries_codeLines {rows : List SourceRow} {lines : List SourceLine} {last : ℕ}
    {program : List (Instruction Op)} (hlines : rows.mapM (SourceLine.ofRow (dialect Op)) = .ok lines)
    (hprogram : (Outline.ofLines lines).program last = .ok program) :
    List.Forall₂ (Instruction.Agrees Eq) ((place program).filter (!·.isIdle))
      (entriesFrom Op 0 (codeLines (dialect Op) rows)) := by
  rw [place_eq, filter_program hprogram 0, entriesFrom_codeLines]
  exact entriesFrom_agrees Op (agrees_of_mapM hlines) 0

end TinyIsa
