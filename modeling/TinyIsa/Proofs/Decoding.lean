import Mathlib
import TinyIsa.Proofs.Architecture
import TinyIsa.Proofs.Machine.Image

/-!
# Two ways to decode

An instruction is decoded from the words of a memory, where those beyond the end are blank, or from a
text of digits, which is cut and completed with zeros. The words of a memory and their digits are
decoded alike, also where the memory ends within the instruction.

* `map_cell`: the cells from an address on are the rest of the memory and blank words.
* `flatMap_rightpad_blank`: the digits of blank words are zeros.
* `flatMap_cell`: the digits of some cells are those of the rest of the memory, cut and completed.
* `cell_eq_valueOf`: the cell at an address has the first digits of the rest.
* `decoders_agree`: **both ways of decoding come to the same.**
-/

namespace TinyIsa

open InstructionSet

variable {Op : Type} [InstructionSet Op]

namespace Instruction

/-- **The cells from an address on** are the rest of the memory, with blank words behind it. -/
theorem map_cell (memory : Array Word) (address n : ℕ) :
    (List.range n).map (fun k => cell Op memory (address + k)) =
      ((memory.toList.drop address).take n).rightpad n (blankWord Op) := by
  have hcell : ∀ k, cell Op memory (address + k) =
      ((memory.toList.drop address)[k]?).getD (blankWord Op) := by
    intro k
    unfold cell
    rw [List.getElem?_drop, Array.getElem?_toList]
  generalize memory.toList.drop address = rest at hcell
  simp only [hcell]
  unfold List.rightpad
  refine List.ext_getElem (by simp) fun k h1 _ => ?_
  have hk : k < n := by simpa using h1
  rw [List.getElem_map, List.getElem_range, List.getElem_append]
  by_cases hr : k < rest.length
  · rw [dif_pos (by simp [hk, hr]), List.getElem_take, List.getElem?_eq_getElem hr, Option.getD_some]
  · rw [dif_neg (by simp [hr]), List.getElem_replicate, List.getElem?_eq_none (by omega), Option.getD_none]

/-- The digits of words with blank words behind them are completed with zeros. -/
theorem flatMap_rightpad_blank {words : List Word} (hw : ∀ w ∈ words, w.width = wordSize Op) (n : ℕ) :
    (words.rightpad n (blankWord Op)).flatMap Word.toDigits =
      (words.flatMap Word.toDigits).rightpad (n * wordSize Op) '0' := by
  have hblank : (blankWord Op).toDigits = List.replicate (wordSize Op) '0' := by
    simp [blankWord, Word.zero, Word.toDigits]
  unfold List.rightpad
  rw [List.flatMap_append, List.flatMap_replicate, hblank, List.flatten_replicate_replicate,
    length_flatMap_of_length fun w h => (Word.length_toDigits w).trans (hw w h), Nat.sub_mul]

variable {memory : Array Word} (hw : ∀ w ∈ memory, w.width = wordSize Op) (address : ℕ)
include hw

/-- **The digits of some cells** are those of the rest of the memory, cut and completed with zeros. -/
theorem flatMap_cell (n : ℕ) :
    (List.range n).flatMap (fun k => (cell Op memory (address + k)).toDigits) =
      (((memory.toList.drop address).flatMap Word.toDigits).take (n * wordSize Op)).rightpad
        (n * wordSize Op) '0' := by
  have hrest : ∀ w ∈ memory.toList.drop address, w.width = wordSize Op := fun w hmem =>
    hw w (Array.mem_toList_iff.1 (List.mem_of_mem_drop hmem))
  rw [← List.flatMap_map, map_cell,
    flatMap_rightpad_blank (fun w hmem => hrest w (List.mem_of_mem_take hmem)),
    flatMap_take fun w hmem => (Word.length_toDigits w).trans (hrest w hmem)]

/-- **The cell at an address** has the first digits of the rest of the memory; it is blank when there
are none. -/
theorem cell_eq_valueOf : cell Op memory address = Word.valueOf (wordSize Op)
    (((memory.toList.drop address).flatMap Word.toDigits).take (wordSize Op)) := by
  have hrest : ∀ w ∈ memory.toList.drop address, w.width = wordSize Op := fun w hmem =>
    hw w (Array.mem_toList_iff.1 (List.mem_of_mem_drop hmem))
  have hcell : cell Op memory address = (memory.toList.drop address).head?.getD (blankWord Op) := by
    unfold cell
    rw [List.head?_drop, Array.getElem?_toList]
  rw [hcell]
  cases hl : memory.toList.drop address with
  | nil =>
    rw [List.flatMap_nil, List.take_nil]
    exact (Word.valueOf_replicate_zero (wordSize Op) 0).symm
  | cons w rest =>
    have hwidth : w.width = wordSize Op := hrest w (hl ▸ List.mem_cons_self)
    rw [List.flatMap_cons, List.take_left' ((Word.length_toDigits w).trans hwidth), ← hwidth]
    exact (Word.valueOf_toDigits w).symm

/-- **An instruction of a memory is that of the digits from its address on.** -/
theorem ofMemory_eq_ofCode : (ofMemory memory address : Except InstructionError (Instruction Op)) =
    (ofCode ((memory.toList.drop address).flatMap Word.toDigits)).map
      fun i => { i with address := some address } := by
  have hbinary : Binary ((memory.toList.drop address).flatMap Word.toDigits) :=
    Word.binary_flatMap_toDigits _ fun w => w
  unfold ofMemory ofCode
  simp only [leading_of_binary hbinary, flatMap_cell hw address, cell_eq_valueOf hw address]
  rw [Word.ofDigits_eq_ok (hbinary.take _)]
  generalize Word.valueOf (wordSize Op) _ = first
  change (lookup first >>= fun op : Op => _) = Except.map _ (lookup first >>= fun op : Op => _)
  cases (lookup first : Except InstructionError Op) with
  | error e => rfl
  | ok op =>
    change (decode op _ >>= fun args => _) = Except.map _ (decode op _ >>= fun args => _)
    cases decode op _ with
    | error e => rfl
    | ok args => rfl

end Instruction

open Instruction

/-- **Both ways of decoding come to the same.** For both architectures, any memory of words of the
architecture, also an empty or a short one, and any address in it or beyond: the instruction that is
fetched at the address is the one that the digits from there to the end of the memory are decoded to,
apart from the address that is recorded; and where there is none, the errors are the same. -/
theorem decoders_agree (a : Architecture) {memory : Array Word}
    (hw : ∀ w ∈ memory, w.width = wordSize a.Op) (address : ℕ) :
    (ofMemory memory address : Except InstructionError (Instruction a.Op)) =
      (ofCode ((memory.toList.drop address).flatMap Word.toDigits)).map
        fun i => { i with address := some address } :=
  ofMemory_eq_ofCode hw address

/-- An instruction of two words of which the memory holds the first one only. -/
theorem decoders_agree_cut : ∃ memory : Array Word, memory = #[⟨16, 0⟩, ⟨16, 0x5180⟩] ∧
    (ofCode ((memory.toList.drop 1).flatMap Word.toDigits) :
      Except InstructionError (Instruction Architecture.armlet.Op)) =
        .ok (ofOp (.mov .immediate) ["$3", "0"]) ∧
    (ofMemory memory 1 : Except InstructionError (Instruction Architecture.armlet.Op)) =
      (ofCode ((memory.toList.drop 1).flatMap Word.toDigits)).map
        fun i => { i with address := some 1 } := by
  have hw : ∀ w ∈ (#[⟨16, 0⟩, ⟨16, 0x5180⟩] : Array Word),
      w.width = wordSize Architecture.armlet.Op := by
    intro w hw
    simp only [List.mem_toArray, List.mem_cons, List.not_mem_nil, or_false] at hw
    rcases hw with rfl | rfl <;> rfl
  exact ⟨_, rfl, by cbv, decoders_agree .armlet hw 1⟩

end TinyIsa
