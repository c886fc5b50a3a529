import Mathlib
import TinyIsa.Instruction.Select
import TinyIsa.Proofs.Source.Legible

/-!
# The form of an operation

A mnemonic has some forms, and the arguments select one of them. No two forms of a mnemonic take the
same arguments, so that it does not matter in which order they are tried.

* `Fits`: the form of a mnemonic that takes some arguments; `Fits.unique`: there is one at most.
* `find?_eq_some_iff`: any table of the operations, in any order, has this form.
* `selectOp_eq_ok`, `selectOp_eq_error`: **what is selected**, and what is refused.
-/

namespace TinyIsa.Instruction

open InstructionSet

variable {Op : Type} [InstructionSet Op] {name : String} {args : List String}

/-- A form of a mnemonic, which may be written in any case, that takes some arguments. -/
structure Fits (name : String) (args : List String) (op : Op) : Prop where
  mnemonic : InstructionSet.mnemonic op = Text.lowercase name
  accepts : InstructionSet.accepts op args = true

variable [Legible Op]

/-- **One form at most** takes some arguments. -/
theorem Fits.unique {op op' : Op} (h : Fits name args op) (h' : Fits name args op') : op = op' :=
  Legible.accepts_unique (h.mnemonic.trans h'.mnemonic.symm) h.accepts h'.accepts

/-- **Any table of the operations** has the form that fits, whatever their order. -/
theorem find?_eq_some_iff {table : List Op} (htable : ∀ op, op ∈ table) {op : Op} :
    (table.filter (mnemonic · == Text.lowercase name)).find? (accepts · args) = some op ↔ Fits name args op := by
  have hfits : ∀ {op' : Op}, (table.filter (mnemonic · == Text.lowercase name)).find? (accepts · args) = some op' →
      Fits name args op' := by
    intro op' h
    have hmem := List.mem_filter.1 (List.mem_of_find?_eq_some h)
    exact ⟨beq_iff_eq.1 hmem.2, List.find?_some (p := fun op : Op => accepts op args) h⟩
  refine ⟨hfits, fun h => ?_⟩
  have hmem : op ∈ table.filter (mnemonic · == Text.lowercase name) :=
    List.mem_filter.2 ⟨htable op, beq_iff_eq.2 h.mnemonic⟩
  cases hfind : (table.filter (mnemonic · == Text.lowercase name)).find? (accepts · args) with
  | none => exact absurd h.accepts (by simpa using List.find?_eq_none.1 hfind op hmem)
  | some op' => exact congrArg some ((hfits hfind).unique h)

theorem mem_withMnemonic {op : Op} : op ∈ (withMnemonic name : List Op) ↔ mnemonic op = Text.lowercase name := by
  unfold withMnemonic
  rw [List.mem_filter, beq_iff_eq]
  exact and_iff_right (Legible.mem_operations op)

/-- **The form that fits is selected.** -/
theorem selectOp_eq_ok {op : Op} : selectOp name args = .ok op ↔ Fits name args op := by
  rw [← find?_eq_some_iff Legible.mem_operations]
  change _ ↔ (withMnemonic name : List Op).find? (accepts · args) = some op
  unfold selectOp
  cases (withMnemonic name : List Op) with
  | nil => simp
  | cons first others =>
    simp only
    cases (first :: others).find? (accepts · args) <;> simp

/-- **Nothing is selected** when the mnemonic has no form, or none that fits. What is expected then is told
by the first one. -/
theorem selectOp_eq_error {e : InstructionError} : (selectOp name args : Except InstructionError Op) = .error e ↔
    ((∀ op : Op, mnemonic op ≠ Text.lowercase name) ∧ e = .unknownMnemonic name) ∨
    ∃ op : Op, (withMnemonic name : List Op).head? = some op ∧ (∀ op' : Op, ¬Fits name args op') ∧
      e = .invalidOperands (mnemonic op) (expected op) args := by
  have hfits : (∀ op' : Op, ¬Fits name args op') ↔ (withMnemonic name : List Op).find? (accepts · args) = none := by
    simp only [Option.eq_none_iff_forall_ne_some, ne_eq, ← find?_eq_some_iff Legible.mem_operations]
    rfl
  simp only [hfits, ne_eq, ← mem_withMnemonic]
  unfold selectOp
  cases (withMnemonic name : List Op) with
  | nil => simp [eq_comm]
  | cons first others =>
    have hmem : ¬∀ op, op ∉ first :: others := fun h => h first List.mem_cons_self
    simp only [hmem, false_and, false_or]
    cases (first :: others).find? (accepts · args) <;> simp [eq_comm]

end TinyIsa.Instruction
