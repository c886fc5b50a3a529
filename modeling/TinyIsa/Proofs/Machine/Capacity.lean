import Mathlib
import TinyIsa.Proofs.Machine.Fetch
import TinyIsa.Proofs.Machine.History

/-!
# A program that parses always encodes

Both passes leave only instructions that can be encoded, so that the memory is all that can be in
the way of a program.

* `sound_of_parse`: every instruction of a program that was read is sound.
* `machineCode_spec`: the digits of a program fill its words.
* `image_of_binary`: digits that fill some words have an image wherever these fit.
* `parse_encodes`: **a program that parses has its digits and is loaded exactly when it fits.**
-/

namespace TinyIsa

open InstructionSet

variable {Op : Type} [InstructionSet Op]

/-! ### Digits of a program -/

/-- **Every instruction of a program that was read is sound**, whether references are replaced or not. -/
theorem sound_of_parse [Lawful Op] {source : List Char} {resolve : Bool} {p : List (Instruction Op)}
    (h : parse source resolve = .ok p) {i : Instruction Op} (hi : i ∈ p) : i.Sound := by
  cases resolve with
  | false =>
    obtain ⟨table, hrows⟩ := parse_false.1 h
    obtain ⟨lines, -, hlaid⟩ := laidOut_of_parseRows hrows
    exact hlaid.sound i hi
  | true =>
    obtain ⟨dry, table, hrows, -⟩ := parse_true.1 h
    obtain ⟨lines, -, hlaid⟩ := laidOut_of_parseRows hrows
    obtain ⟨-, hcode, rfl⟩ := (parse_true_of_parseRows hrows hlaid.sound).1 h
    obtain ⟨i₀, hi₀, rfl⟩ := List.mem_map.1 hi
    -- the numbers were checked when they took the place of the references
    exact ⟨hcode i₀ hi₀, fun op args => accepted_substitute (hlaid.sound i₀ hi₀)⟩

theorem machineCode_of_sound {p : List (Instruction Op)} (h : ∀ i ∈ p, i.Sound) :
    ∃ code, machineCode p = .ok code := by
  obtain ⟨codes, hcodes⟩ := exists_mapM_eq_ok fun i hi => (h i hi).encoded
  exact ⟨codes.flatten, map_eq_ok.2 ⟨codes, hcodes, rfl⟩⟩

/-- **The digits of a program fill its words.** -/
theorem machineCode_spec [Lawful Op] {p : List (Instruction Op)} {code : List Char}
    (h : machineCode p = .ok code) : Binary code ∧ code.length = totalWords p * wordSize Op := by
  obtain ⟨codes, hcodes, rfl⟩ := map_eq_ok.1 h
  exact ⟨binary_codes hcodes, length_codes hcodes⟩

/-! ### Loading -/

/-- **Digits that fill some words** have an image wherever these words fit. -/
theorem image_of_binary (hw : 0 < wordSize Op) {code : List Char} (hb : Binary code) {n : ℕ}
    (hn : code.length = n * wordSize Op) (capacity : ℕ) :
    (capacity < n ∧ Machine.image Op capacity code = .error (.programTooLarge n capacity)) ∨
      (n ≤ capacity ∧ ∃ words, Machine.image Op capacity code = .ok words) := by
  have haligned : code.length % wordSize Op = 0 := by
    rw [hn]
    exact Nat.mul_mod_left n _
  have hcount : code.length / wordSize Op = n := by
    rw [hn]
    exact Nat.mul_div_cancel n hw
  unfold Machine.image
  rw [hb.filter_isBlank]
  simp only [haligned, hcount, ne_eq, not_true_eq_false, if_false]
  by_cases hfit : capacity < n
  · rw [if_pos hfit]
    exact Or.inl ⟨hfit, rfl⟩
  · rw [if_neg hfit]
    exact Or.inr ⟨Nat.le_of_not_lt hfit, exists_mapM_pieces hb _ _⟩

/-- Loading a program with digits is loading these. -/
theorem loadProgram_of_machineCode {σ : Type} {p : List (Instruction Op)} {code : List Char}
    (h : machineCode p = .ok code) (m : Machine Op σ) : m.loadProgram p = m.loadCode code := by
  unfold Machine.loadProgram
  rw [h]

/-- **A program with digits is loaded exactly when it fits.** -/
theorem loadProgram_eq_error [Lawful Op] {σ : Type} {p : List (Instruction Op)} {code : List Char}
    (h : machineCode p = .ok code) (m : Machine Op σ) (e : LoadError) :
    (m.loadProgram p).1 = .error e ↔
      e = .programTooLarge (totalWords p) m.memory.size ∧ m.memory.size < totalWords p := by
  obtain ⟨hb, hlen⟩ := machineCode_spec h
  rw [loadProgram_of_machineCode h, Machine.loadCode_eq_error]
  rcases image_of_binary Lawful.wordSize_pos hb hlen m.memory.size with ⟨hlarge, hi⟩ | ⟨hfit, words, hi⟩
  · rw [hi]
    constructor
    · intro he
      exact ⟨(Except.error.inj he).symm, hlarge⟩
    · rintro ⟨rfl, -⟩
      rfl
  · rw [hi]
    constructor
    · intro he
      exact absurd he (by simp)
    · rintro ⟨-, hlarge⟩
      omega

/-- **A program that parses always encodes.** For every source text, both architectures, with and
without references replaced: the digits of the program are there, they are zeros and ones, and they
fill as many words as the program has. So only the memory can refuse the program, and it does so
exactly when the program has more words than there are cells, whatever the machine was called with
before. -/
theorem parse_encodes (a : Architecture) {source : List Char} {resolve : Bool}
    {p : List (Instruction a.Op)} (h : parse source resolve = .ok p) :
    (∃ code, machineCode p = .ok code ∧ (∀ c ∈ code, c = '0' ∨ c = '1') ∧
      code.length = wordSize a.Op * totalWords p) ∧
    ∀ (σ : Type) [Host σ] (m : Machine a.Op σ), m.Reachable → ∀ e, (m.loadProgram p).1 = .error e ↔
      e = .programTooLarge (totalWords p) (2 ^ addressSize a.Op) ∧
        2 ^ addressSize a.Op < totalWords p := by
  obtain ⟨code, hcode⟩ := machineCode_of_sound fun i => sound_of_parse h
  obtain ⟨hb, hlen⟩ := machineCode_spec hcode
  refine ⟨⟨code, hcode, fun c hc => eq_of_isBinary (hb c hc), by rw [hlen, Nat.mul_comm]⟩, ?_⟩
  intro σ _ m hm e
  have hsize : m.memory.size = 2 ^ addressSize a.Op := hm.wellFormed.size
  rw [← hsize]
  exact loadProgram_eq_error hcode m e

/-- A row of data with one value more than there are cells. -/
theorem parse_encodes_row : ∃ p : List (Instruction Architecture.tally.Op),
    parse (".word &b".toList ++ (List.replicate 32 ", 0".toList).flatten ++ "\nb:".toList) true = .ok p ∧
    (∃ code, machineCode p = .ok code ∧ (∀ c ∈ code, c = '0' ∨ c = '1') ∧
      code.length = wordSize Architecture.tally.Op * 33) ∧
    ((Machine.new Silence.silence).loadProgram p).1 = .error (.programTooLarge 33 32) := by
  have hparse : parse (".word &b".toList ++ (List.replicate 32 ", 0".toList).flatten ++ "\nb:".toList) true =
      (.ok [{ body := .data ("33" :: List.replicate 32 "0"), line := 1, address := some 0 },
        { body := .remark, labels := [⟨"b", 2⟩], line := 2, address := some 33 }] :
        Except ParseError (List (Instruction Architecture.tally.Op))) := by cbv
  obtain ⟨hcode, hload⟩ := parse_encodes .tally hparse
  exact ⟨_, hparse, hcode, (hload _ _ (Machine.reachable_new Silence.silence) _).2 ⟨rfl, by decide⟩⟩

end TinyIsa
