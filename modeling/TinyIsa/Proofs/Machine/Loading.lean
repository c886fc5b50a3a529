import Mathlib
import TinyIsa.Proofs.Machine.Capacity
import TinyIsa.Proofs.Machine.Representation

/-!
# Loading is all or nothing

A text is checked as a whole before anything of it is stored: its length first, then the room that
its words take, then its characters. So a text that is refused leaves the machine as it was, and one
that is loaded leaves nothing behind of a longer program that was loaded before.

* `Machine.Refuses`: the texts that are refused, each for one reason.
* `image_eq_error`: a text has no image exactly when it is refused.
* `Machine.Loaded`: a machine with the words of a text in the place of its program.
* `loading_all_or_nothing`: **a load is refused and does nothing, or it replaces the program.**
-/

namespace TinyIsa

open InstructionSet

namespace Machine

/-! ### What is refused -/

/-- The texts of digits that are refused, each with the error that it is refused with. The length is
wrong, or else the room too small, or else there is a character that is no digit. -/
inductive Refuses (Op : Type) [InstructionSet Op] (capacity : ℕ) (s : List Char) : LoadError → Prop
  | misaligned : s.length % wordSize Op ≠ 0 → Refuses Op capacity s (.misaligned s.length (wordSize Op))
  | programTooLarge : s.length % wordSize Op = 0 → capacity < s.length / wordSize Op →
      Refuses Op capacity s (.programTooLarge (s.length / wordSize Op) capacity)
  /-- The error has the word that the first such character stands in, and its place there. -/
  | encoding {before after : List Char} {c : Char} : s.length % wordSize Op = 0 →
      s.length / wordSize Op ≤ capacity → s = before ++ c :: after →
      (∀ d ∈ before, d = '0' ∨ d = '1') → c ≠ '0' → c ≠ '1' →
      Refuses Op capacity s (.encoding
        ⟨String.ofList ((s.drop (before.length / wordSize Op * wordSize Op)).take (wordSize Op)),
          before.length % wordSize Op, c⟩)

variable {Op : Type} [InstructionSet Op]

/-- **A text has no image exactly when it is refused.** -/
theorem image_eq_error (hw : 0 < wordSize Op) {capacity : ℕ} {code : List Char} {e : LoadError} :
    image Op capacity code = .error e ↔ Refuses Op capacity (code.filter (!Text.isBlank ·)) e := by
  unfold image
  generalize code.filter (!Text.isBlank ·) = digits
  simp only
  have hdiv : digits.length % wordSize Op = 0 →
      digits.length = digits.length / wordSize Op * wordSize Op := fun h =>
    (Nat.div_mul_cancel (Nat.dvd_of_mod_eq_zero h)).symm
  constructor
  · intro h
    by_cases hal : digits.length % wordSize Op = 0
    · rw [if_neg (not_not.2 hal)] at h
      by_cases hc : capacity < digits.length / wordSize Op
      · rw [if_pos hc] at h
        obtain rfl := Except.error.inj h
        exact .programTooLarge hal hc
      · rw [if_neg hc] at h
        rcases binary_or_first digits with hb | ⟨before, c, after, rfl, hb, hbad⟩
        · obtain ⟨words, hwords⟩ := exists_mapM_pieces hb (wordSize Op) (digits.length / wordSize Op)
          rw [hwords] at h
          exact absurd h (by simp)
        · rw [mapM_pieces_eq_error hw (hdiv hal) hb hbad] at h
          obtain rfl := Except.error.inj h
          obtain ⟨h0, h1⟩ : c ≠ '0' ∧ c ≠ '1' := by simpa [isBinary] using hbad
          exact .encoding hal (Nat.le_of_not_lt hc) rfl (fun d hd => eq_of_isBinary (hb d hd)) h0 h1
    · rw [if_pos hal] at h
      obtain rfl := Except.error.inj h
      exact .misaligned hal
  · intro h
    cases h with
    | misaligned hal => rw [if_pos hal]
    | programTooLarge hal hc => rw [if_neg (not_not.2 hal), if_pos hc]
    | @encoding before after c hal hle hs hb h0 h1 =>
      have hbinary : Binary before := fun d hd => by simpa [isBinary] using hb d hd
      subst hs
      rw [if_neg (not_not.2 hal), if_neg (Nat.not_lt.2 hle)]
      exact mapM_pieces_eq_error hw (hdiv hal) hbinary (by simp [isBinary, h0, h1])

/-- **A text has an image exactly when** its length, the room for it and its characters are right. -/
theorem exists_image_eq_ok (hw : 0 < wordSize Op) {capacity : ℕ} {code digits : List Char}
    (hdigits : code.filter (!Text.isBlank ·) = digits) : (∃ words, image Op capacity code = .ok words) ↔
      digits.length % wordSize Op = 0 ∧ digits.length / wordSize Op ≤ capacity ∧
        ∀ c ∈ digits, c = '0' ∨ c = '1' := by
  subst hdigits
  constructor
  · rintro ⟨words, hwords⟩
    obtain ⟨hfit, hwidth, hd⟩ := (image_eq_ok hw).1 hwords
    have hlen := length_flatMap_of_length fun w h => (Word.length_toDigits w).trans (hwidth w h)
    rw [← hd, hlen, Nat.mul_div_cancel _ hw]
    exact ⟨Nat.mul_mod_left _ _, hfit, fun c hc =>
      eq_of_isBinary (Word.binary_flatMap_toDigits words (fun w => w) c hc)⟩
  · rintro ⟨hal, hfit, hbinary⟩
    cases hi : image Op capacity code with
    | ok words => exact ⟨words, rfl⟩
    | error e =>
      cases (image_eq_error hw).1 hi with
      | misaligned h => exact absurd hal h
      | programTooLarge _ h => omega
      | @encoding before after c _ _ hs _ h0 h1 =>
        have hc : c ∈ code.filter (!Text.isBlank ·) := by
          rw [hs]
          exact List.mem_append_right _ List.mem_cons_self
        rcases hbinary c hc with rfl | rfl
        · exact absurd rfl h0
        · exact absurd rfl h1

/-! ### What is loaded -/

variable {σ : Type} {m m' : Machine Op σ}

/-- A machine after some digits were loaded, compared with the machine before: its memory has the
words of the digits and nothing else, the program counter stands in front of them, and the rest is
as it was. -/
structure Loaded (m : Machine Op σ) (digits : List Char) (m' : Machine Op σ) : Prop where
  loaded : m'.loaded = digits.length / wordSize Op
  size : m'.memory.size = m.memory.size
  /-- The cells from the first one on have the digits, a word each. -/
  word : ∀ k, k < m'.loaded → ∃ w, m'.memory[k]? = some w ∧ w.width = wordSize Op ∧
    w.toDigits = (digits.drop (k * wordSize Op)).take (wordSize Op)
  /-- Nothing is left of what was in the memory before. -/
  blank : ∀ k, m'.loaded ≤ k → k < m'.memory.size → m'.memory[k]? = some (blankWord Op)
  pc : m'.pc = 0
  /-- The registers are the same ones, and those besides the program counter hold what they held. -/
  shape : m'.registers.shape = m.registers.shape
  register : ∀ name, name ≠ counterName → m'.registers.get? name = m.registers.get? name
  status : m'.status = m.status
  output : m'.output = m.output
  steps : m'.steps = m.steps
  host : m'.host = m.host

/-- **What is loaded**: the words of the digits. -/
theorem WellFormed.loadCode_spec [Lawful Op] (h : m.WellFormed) (hd : DistinctRegisters Op)
    {code : List Char} (hl : m.loadCode code = (.ok (), m')) : m.Loaded (code.filter (!Text.isBlank ·)) m' := by
  obtain ⟨words, hwords, rfl⟩ := loadCode_eq_ok.1 hl
  obtain ⟨hfit, hwidth, hdigits⟩ := (image_eq_ok Lawful.wordSize_pos).1 hwords
  have hlength : ∀ w ∈ words, w.toDigits.length = wordSize Op := fun w hmem =>
    (Word.length_toDigits w).trans (hwidth w hmem)
  have hmemory : (m.install words).memory =
      (words ++ List.replicate (m.memory.size - words.length) (blankWord Op)).toArray := rfl
  constructor
  case loaded =>
    change words.length = _
    rw [← hdigits, length_flatMap_of_length hlength, Nat.mul_div_cancel _ Lawful.wordSize_pos]
  case size =>
    rw [hmemory, List.size_toArray, List.length_append, List.length_replicate]
    omega
  case word =>
    intro k (hk : k < words.length)
    refine ⟨words[k], ?_, hwidth _ (List.getElem_mem hk), ?_⟩
    · rw [hmemory, List.getElem?_toArray, List.getElem?_append_left hk, List.getElem?_eq_getElem hk]
    · -- the word is the slice of one word from its place on
      have hslice := flatMap_slice hlength k 1
      rw [Nat.one_mul, hdigits, List.drop_eq_getElem_cons hk, List.take_succ_cons, List.take_zero,
        List.flatMap_singleton] at hslice
      exact hslice
  case blank =>
    intro k (hk : words.length ≤ k) hsize
    rw [hmemory, List.size_toArray, List.length_append, List.length_replicate] at hsize
    rw [hmemory, List.getElem?_toArray, List.getElem?_append_right hk, List.getElem?_replicate,
      if_pos (by omega)]
  case pc =>
    -- the program counter is set to zero, whatever stands in the memory
    have hpc := h.pc_setPc hd 0
    rw [Nat.zero_mod] at hpc
    exact hpc
  case shape => exact Registers.shape_assign _ _
  case register => exact fun name hname => Registers.get?_assign_of_ne hname _
  all_goals rfl

end Machine

open Machine

/-- **A load is refused and does nothing, or it replaces the program.** For both architectures, every
host, every reachable machine and every text: only the characters besides blanks count. The text is
refused exactly when they do not fill words, else when there are more words than cells, else when one
of them is no digit; in every other case it is loaded. A machine that refuses a text, or a program with
an instruction that is refused, is left as it was. A machine that loads one has its words from
the first cell on and blank cells behind them, whatever it held before, the program counter at the
first cell, and everything else as it was. A program is loaded by its digits. -/
theorem loading_all_or_nothing (a : Architecture) {σ : Type} [Host σ] {m : Machine a.Op σ}
    (h : m.Reachable) (code : List Char) {digits : List Char}
    (hdigits : code.filter (!Text.isBlank ·) = digits) :
    (∀ e, (m.loadCode code).1 = .error e ↔ Refuses a.Op (2 ^ addressSize a.Op) digits e) ∧
      ((∃ m', m.loadCode code = (.ok (), m')) ↔ digits.length % wordSize a.Op = 0 ∧
        digits.length / wordSize a.Op ≤ 2 ^ addressSize a.Op ∧ ∀ c ∈ digits, c = '0' ∨ c = '1') ∧
      (∀ m', m.loadCode code = (.ok (), m') → m.Loaded digits m' ∧ m.after (.loadCode code) = m') ∧
      (∀ e, (m.loadCode code).1 = .error e → (m.loadCode code).2 = m ∧ m.after (.loadCode code) = m) ∧
      ∀ program : List (Instruction a.Op),
        (∀ e, machineCode program = .error e → (m.loadProgram program).1 = .error (.instruction e)) ∧
        (machineCode program = .ok code → m.loadProgram program = m.loadCode code) ∧
        ∀ e, (m.loadProgram program).1 = .error e →
          (m.loadProgram program).2 = m ∧ m.after (.loadProgram program) = m := by
  subst hdigits
  have hsize : m.memory.size = 2 ^ addressSize a.Op := h.wellFormed.size
  have hpos : 0 < wordSize a.Op := Lawful.wordSize_pos
  have hrefused : ∀ e, (m.loadCode code).1 = .error e ↔
      Refuses a.Op (2 ^ addressSize a.Op) (code.filter (!Text.isBlank ·)) e := fun e => by
    rw [← hsize, ← image_eq_error hpos]
    exact loadCode_eq_error
  have hloaded : (∃ m', m.loadCode code = (.ok (), m')) ↔
      ∃ words, image a.Op (2 ^ addressSize a.Op) code = .ok words := by
    simp only [loadCode_eq_ok, hsize]
    constructor
    · rintro ⟨m', words, hwords, -⟩
      exact ⟨words, hwords⟩
    · rintro ⟨words, hwords⟩
      exact ⟨_, words, hwords, rfl⟩
  refine ⟨hrefused, hloaded.trans (exists_image_eq_ok hpos rfl), fun m' hl => ⟨?_, ?_⟩, fun e he => ?_,
    fun program => ⟨fun e he => ?_, fun hcode => ?_, fun e he => ?_⟩⟩
  · exact h.wellFormed.loadCode_spec a.distinctRegisters hl
  · exact congrArg Prod.snd hl
  · have hkept := loadCode_of_error he
    exact ⟨hkept, hkept⟩
  · unfold Machine.loadProgram
    rw [he]
  · exact loadProgram_of_machineCode hcode m
  · have hkept := loadProgram_of_error he
    exact ⟨hkept, hkept⟩

/-- A text with a wrong character in its second word is refused by a machine with a program of three
words, and a text of one word takes the place of these. -/
theorem loading_all_or_nothing_three : ∃ m m' : Machine Architecture.tally.Op Silence,
    m = [.loadCode "001000010110000000000000".toList].foldl after (new .silence) ∧ m.loaded = 3 ∧
    m.loadCode "0100 0001\n1x00 0000".toList = (.error (.encoding ⟨"1x000000", 1, 'x'⟩), m) ∧
    m.after (.loadCode "0100 0001\n1x00 0000".toList) = m ∧
    m.loadCode "0100 0001".toList = (.ok (), m') ∧ m.Loaded ['0', '1', '0', '0', '0', '0', '0', '1'] m' := by
  have hwords : ([.loadCode "001000010110000000000000".toList].foldl after (new .silence) :
      Machine Architecture.tally.Op Silence).loaded = 3 := by cbv
  obtain ⟨m, hm⟩ : ∃ m : Machine Architecture.tally.Op Silence,
      m = [.loadCode "001000010110000000000000".toList].foldl after (new .silence) := ⟨_, rfl⟩
  have hwrong : "0100 0001\n1x00 0000".toList.filter (!Text.isBlank ·) =
      ['0', '1', '0', '0', '0', '0', '0', '1', '1'] ++ 'x' :: ['0', '0', '0', '0', '0', '0'] := by cbv
  have hright : "0100 0001".toList.filter (!Text.isBlank ·) =
      ['0', '1', '0', '0', '0', '0', '0', '1'] := by cbv
  obtain ⟨hrefused, -, -, hkept, -⟩ := loading_all_or_nothing .tally ⟨Silence.silence, _, hm⟩ _ hwrong
  obtain ⟨-, haccepted, hloaded, -, -⟩ := loading_all_or_nothing .tally ⟨Silence.silence, _, hm⟩ _ hright
  obtain ⟨m', hm'⟩ := haccepted.2 ⟨rfl, by decide, by simp⟩
  have herror := (hrefused _).2 (.encoding rfl (by decide) rfl (by simp) (by decide) (by decide))
  obtain ⟨hsame, hafter⟩ := hkept _ herror
  exact ⟨m, m', hm, by rw [hm, hwords], Prod.ext herror hsame, hafter, hm', (hloaded m' hm').1⟩

end TinyIsa
